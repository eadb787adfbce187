import Pefa.QueryCompiler.OptimizerRuns

/-!
# An optimizer with any passes

`PlanOptimizer::run` hands the plan from one pass to the next. A plain pass copies the plan. A
`JoinFilterPass` leaves every filter at the bottom of the plan or right above a projection, and of
such a plan it makes a copy too. So of a list of new passes it only matters whether there is a
`JoinFilterPass` among them, and not where, how often and between which others (`fresh_run`).

The plan may be any. It need not be one that a `QueryCompiler` builds.
-/

namespace Pefa

open Arena

/-! ## What a second pass does -/

namespace LogicalPlan

/-- Every filter is at the bottom of the plan or right above a projection. -/
def FiltersSpread : LogicalPlan → Prop
  | .nullptr => True
  | .projectionNode input _ => input.FiltersSpread
  | .filterNode input _ =>
      input.FiltersSpread ∧
        (input = .nullptr ∨ ∃ below fields, input = .projectionNode below fields)
  | .materializeFilterNode input => input.FiltersSpread

end LogicalPlan

open LogicalPlan

theorem filtersSpread_joinFilterOnVisit (e : BooleanExpr) {result : LogicalPlan}
    (h : result.FiltersSpread) : (joinFilterOnVisit e result).FiltersSpread := by
  induction result with
  | nullptr => exact ⟨trivial, .inl rfl⟩
  | projectionNode input fields => exact ⟨h, .inr ⟨input, fields, rfl⟩⟩
  | filterNode input prev => exact h
  | materializeFilterNode input ih => exact ih h

/-- **A joining pass spreads the filters**, on whatever plan it is run. -/
theorem joinFilterPass_spreads : joinFilterPass.Keeps FiltersSpread where
  projection hs h := by
    cases h
    exact hs
  filter hs h := by
    cases h
    exact filtersSpread_joinFilterOnVisit _ hs
  materialize hs h := by
    cases h
    exact hs

/-- **A plan whose filters are spread is copied** by a joining pass. -/
theorem joinFilterPass_visit_spread {plan : LogicalPlan} (h : plan.FiltersSpread) :
    joinFilterPass.visit plan .nullptr = .ok plan := by
  induction plan with
  | nullptr => rfl
  | projectionNode input fields ih =>
      rw [PlanVisitor.visit, ih h]
      rfl
  | filterNode input expr ih =>
      rw [PlanVisitor.visit, ih h.1]
      rcases h.2 with rfl | ⟨below, fields, rfl⟩
      · rfl
      · rfl
  | materializeFilterNode input ih =>
      rw [PlanVisitor.visit, ih h]
      rfl

theorem optimizerPass_visit (plan : LogicalPlan) :
    optimizerPass.visit plan .nullptr = .ok plan := by
  induction plan with
  | nullptr => rfl
  | projectionNode input fields ih =>
      rw [PlanVisitor.visit, ih]
      rfl
  | filterNode input expr ih =>
      rw [PlanVisitor.visit, ih]
      rfl
  | materializeFilterNode input ih =>
      rw [PlanVisitor.visit, ih]
      rfl

/-! ## Passes one after another -/

/-- New passes, each on the plan that the one before it returns. -/
def visitAll (kinds : List PassKind) (plan : LogicalPlan) : Except Error LogicalPlan :=
  kinds.foldlM (fun plan kind => kind.visitor.visit plan .nullptr) plan

theorem visitAll_spread (kinds : List PassKind) {plan : LogicalPlan} (h : plan.FiltersSpread) :
    visitAll kinds plan = .ok plan := by
  induction kinds with
  | nil => rfl
  | cons kind kinds ih =>
      rw [visitAll, List.foldlM_cons]
      cases kind with
      | optimizerPass => rw [PassKind.visitor, optimizerPass_visit, bind_ok, ← visitAll, ih]
      | joinFilterPass =>
          rw [PassKind.visitor, joinFilterPass_visit_spread h, bind_ok, ← visitAll, ih]

/-- **Only whether one of the passes joins matters.** -/
theorem visitAll_eq (kinds : List PassKind) (plan : LogicalPlan) :
    visitAll kinds plan = if .joinFilterPass ∈ kinds then joinFilterPass.visit plan .nullptr
      else .ok plan := by
  induction kinds with
  | nil => rfl
  | cons kind kinds ih =>
      rw [visitAll, List.foldlM_cons]
      cases kind with
      | optimizerPass =>
          rw [PassKind.visitor, optimizerPass_visit, bind_ok, ← visitAll, ih]
          simp
      | joinFilterPass =>
          rw [if_pos List.mem_cons_self, PassKind.visitor]
          cases hvisit : joinFilterPass.visit plan .nullptr with
          | error e => rfl
          | ok result =>
              -- the passes after it find the filters spread
              rw [bind_ok, ← visitAll]
              have hnull : LogicalPlan.nullptr.FiltersSpread := trivial
              exact visitAll_spread kinds (joinFilterPass_spreads.visit hnull hvisit)

/-! ## On the heap -/

/-- **New passes on the heap** do what they do on the value of the plan, and change no node that
was there. -/
theorem runPasses_new : ∀ {kinds : List PassKind} {region : Nat → Nat} {heap : PlanHeap} {j : Nat}
    {p : Option Nat}, Regions region heap → p ≠ none → (∀ a ∈ p, a < heap.size ∧ region a < j) →
    ∃ passes heap' res, runPasses (createPasses kinds) heap p = .ok (passes, heap', res) ∧
      visitAll kinds (planAt heap p) = .ok (planAt heap' res) ∧
      ∀ a < heap.size, region a < j → heap'.cells[a]? = heap.cells[a]? := by
  intro kinds
  induction kinds with
  | nil => exact fun {region heap j p} _ _ _ => ⟨[], heap, p, rfl, rfl, fun _ _ _ => rfl⟩
  | cons kind kinds ih =>
      intro region heap j p hr hne hp
      obtain ⟨a, rfl⟩ := Option.ne_none_iff_exists'.mp hne
      obtain ⟨s, plan, hvisit, hbuilt, htree⟩ := visit_built kind hr (m := none) nofun (some a)
        fun b hb => ⟨(hp b hb).1, Nat.ne_of_lt (hp b hb).2⟩
      rw [planAt_none] at htree
      have hres : s.mResult ≠ none := fun hnone => by
        have hplan := hbuilt.plan_eq
        rw [hnone, planAt_none] at hplan
        exact (visitor_weight kind htree).2 (planAt_some_ne (hp a rfl).1) hplan.symm
      obtain ⟨passes, heap', res, hrun, hall, hframe⟩ := ih hbuilt.regions (j := j + 1) hres
        fun b hb => ⟨(hbuilt.within b hb).1, by
          rw [(hbuilt.within b hb).2]
          exact Nat.lt_succ_self j⟩
      refine ⟨⟨kind, s.mResult⟩ :: passes, heap', res, ?_, ?_, fun b hb hk => ?_⟩
      · rw [createPasses] at hrun
        simp only [createPasses, List.map_cons, runPasses, Pass.execute, Pass.create, hvisit,
          bind_ok, hrun]
      · rw [visitAll, List.foldlM_cons, htree, bind_ok, ← hbuilt.plan_eq]
        exact hall
      · rw [hframe b (lt_of_lt_of_le hb hbuilt.size_le) (by rw [extend_of_lt hb]; omega)]
        exact hbuilt.frame b hb (Nat.ne_of_lt hk)

/-- **What a new optimizer returns**: the plan with its filters joined if there is a
`JoinFilterPass` among its passes, and otherwise the plan again. It changes no node. -/
theorem fresh_run (kinds : List PassKind) {heap : PlanHeap} {p : Option Nat} (hp : heap.Valid p)
    (hne : p ≠ none) :
    freshRun kinds heap p = (if .joinFilterPass ∈ kinds then optimize (planAt heap p)
        else .ok (planAt heap p)) ∧
      ∃ passes heap' res, runPasses (createPasses kinds) heap p = .ok (passes, heap', res) ∧
        ∀ a < heap.size, heap'.cells[a]? = heap.cells[a]? := by
  -- everything that is there is region 0
  obtain ⟨passes, heap', res, hrun, hall, hframe⟩ := @runPasses_new kinds (fun _ => 0) heap 1 p
    (fun _ _ _ _ _ => rfl) hne fun a ha => ⟨hp a ha, Nat.one_pos⟩
  refine ⟨?_, passes, heap', res, hrun, fun a ha => hframe a ha Nat.one_pos⟩
  obtain ⟨a, rfl⟩ := Option.ne_none_iff_exists'.mp hne
  rw [freshRun, hrun, bind_ok]
  show Except.ok (planAt heap' res) = _
  rw [← hall, visitAll_eq, optimize, PlanVisitor.start_of_ne (planAt_some_ne (hp a rfl))]

/-- Two joining passes with a plain one between them, on a plan that ends in two filters. -/
theorem fresh_run_sharedPrefix :
    freshRun [.joinFilterPass, .optimizerPass, .joinFilterPass] sharedPrefix (some 3) =
        optimize (planAt sharedPrefix (some 3)) ∧
      ∃ passes heap' res,
        runPasses (createPasses [.joinFilterPass, .optimizerPass, .joinFilterPass]) sharedPrefix
          (some 3) = .ok (passes, heap', res) ∧
        ∀ a < sharedPrefix.size, heap'.cells[a]? = sharedPrefix.cells[a]? :=
  fresh_run [.joinFilterPass, .optimizerPass, .joinFilterPass] (by decide) nofun

end Pefa
