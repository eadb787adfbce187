import Pefa.QueryCompiler.PlanHeap

/-!
# Running an optimizer again

`OptimizerPass::execute` does not reset `m_result`, so a pass that is run a second time goes on
from the plan it returned the first time: it puts the second plan on top of the first, and
`JoinFilterPass` may change a filter of the plan it has returned.

What is lost or doubled shows in the weight of a plan, the number of its projections and
comparisons, which no pass changes: the weight of a result is the weight of the plan that was run
and of everything the passes had left over (`runPasses_ok`).
-/

namespace Pefa

open Arena

/-! ## Weights -/

/-- The number of leaves. -/
def BooleanExpr.leaves : BooleanExpr → Nat
  | .booleanConst _ => 1
  | .predicateExpr lhs rhs _ => lhs.leaves + rhs.leaves
  | .compareExpr _ _ _ => 1

theorem BooleanExpr.leaves_pos : ∀ e : BooleanExpr, 0 < e.leaves
  | .booleanConst _ => Nat.one_pos
  | .predicateExpr lhs _ _ => Nat.add_pos_left lhs.leaves_pos _
  | .compareExpr _ _ _ => Nat.one_pos

/-- Projections and leaves of filters. -/
def LogicalPlan.weight : LogicalPlan → Nat
  | .nullptr => 0
  | .projectionNode input _ => input.weight + 1
  | .filterNode input expr => input.weight + expr.leaves
  | .materializeFilterNode input => input.weight

theorem LogicalPlan.weight_build_pos {steps : List Step} (h : steps ≠ []) :
    0 < (LogicalPlan.build steps).weight := by
  obtain ⟨init, s, rfl⟩ := (List.eq_nil_or_concat steps).resolve_left h
  rw [List.concat_eq_append, build_concat]
  cases s with
  | project columns => exact Nat.succ_pos _
  | filter e => exact Nat.add_pos_right _ e.leaves_pos

theorem weight_joinFilterOnVisit (e : BooleanExpr) (plan : LogicalPlan) :
    (joinFilterOnVisit e plan).weight = plan.weight + e.leaves := by
  induction plan with
  | nullptr => rfl
  | projectionNode input fields ih => rfl
  | filterNode input prev ih => exact (Nat.add_assoc _ _ _).symm
  | materializeFilterNode input ih => exact ih

/-- **No pass changes the weight**, and none returns a null pointer. -/
theorem visitor_weight (kind : PassKind) : ∀ {plan m out : LogicalPlan},
    kind.visitor.visit plan m = .ok out →
      out.weight = plan.weight + m.weight ∧ (plan ≠ .nullptr → out ≠ .nullptr) := by
  intro plan
  induction plan with
  | nullptr =>
      intro m out h
      cases h
      exact ⟨(Nat.zero_add _).symm, fun hne => absurd rfl hne⟩
  | projectionNode input fields ih =>
      intro m out h
      obtain ⟨mid, hmid, h⟩ := bind_eq_ok.mp h
      obtain rfl : LogicalPlan.projectionNode mid fields = out := by
        cases kind <;> exact Except.ok.inj h
      have hweight := (ih hmid).1
      exact ⟨by simp only [LogicalPlan.weight, hweight]; omega, fun _ => nofun⟩
  | materializeFilterNode input ih =>
      intro m out h
      obtain ⟨mid, hmid, h⟩ := bind_eq_ok.mp h
      obtain rfl : LogicalPlan.materializeFilterNode mid = out := by
        cases kind <;> exact Except.ok.inj h
      exact ⟨(ih hmid).1, fun _ => nofun⟩
  | filterNode input expr ih =>
      intro m out h
      obtain ⟨mid, hmid, h⟩ := bind_eq_ok.mp h
      have hweight := (ih hmid).1
      cases kind with
      | optimizerPass =>
          obtain rfl : LogicalPlan.filterNode mid expr = out := Except.ok.inj h
          exact ⟨by simp only [LogicalPlan.weight, hweight]; omega, fun _ => nofun⟩
      | joinFilterPass =>
          obtain rfl : joinFilterOnVisit expr mid = out := Except.ok.inj h
          exact ⟨by simp only [weight_joinFilterOnVisit, LogicalPlan.weight, hweight]; omega,
            fun _ => joinFilterOnVisit_ne_nullptr _ _⟩

/-! ## One run of an optimizer -/

/-- The nodes of the passes are in regions of their own, from region `j` on. -/
def PassesAt (region : Nat → Nat) (heap : PlanHeap) : Nat → List Pass → Prop
  | _, [] => True
  | j, pass :: passes => Within region heap j pass.mResult ∧ PassesAt region heap (j + 1) passes

/-- The weight of what the passes have left over. -/
def leftWeight (heap : PlanHeap) (passes : List Pass) : Nat :=
  (passes.map fun pass => (planAt heap pass.mResult).weight).sum

/-- The later passes are where they were when a pass has built in its region. -/
theorem PassesAt.of_built {region : Nat → Nat} {k : Nat} {heap : PlanHeap} {s : PassState}
    {plan : LogicalPlan} (hr : Regions region heap) (hbuilt : Built region k heap s plan) :
    ∀ {passes : List Pass} {j : Nat}, k < j → PassesAt region heap j passes →
      PassesAt (extend region heap.size k) s.heap j passes ∧
        leftWeight s.heap passes = leftWeight heap passes := by
  intro passes
  induction passes with
  | nil => exact fun _ _ => ⟨trivial, rfl⟩
  | cons pass passes ih =>
      intro j hj hat
      obtain ⟨hrest, hweight⟩ := ih (Nat.lt_succ_of_lt hj) hat.2
      have hchain : planAt s.heap pass.mResult = planAt heap pass.mResult :=
        congrArg toPlan (chain_congr_region hr
          (fun a ha hk => hbuilt.frame a ha (by omega)) hat.1)
      refine ⟨⟨fun a ha => ?_, hrest⟩, ?_⟩
      · exact ⟨lt_of_lt_of_le (hat.1 a ha).1 hbuilt.size_le, (hat.1.extend k a ha).2⟩
      · simp only [leftWeight, List.map_cons, List.sum_cons, hchain] at hweight ⊢
        rw [hweight]

/-- What a run leaves: its passes and its result, on a heap on which nothing outside of the
regions of the passes has changed. -/
structure Ran (region : Nat → Nat) (heap : PlanHeap) (j : Nat) (passes : List Pass)
    (p : Option Nat) (passes' : List Pass) (heap' : PlanHeap) (res : Option Nat)
    (region' : Nat → Nat) : Prop where
  regions : Regions region' heap'
  passesAt : PassesAt region' heap' j passes'
  size_le : heap.size ≤ heap'.size
  frame : ∀ a < heap.size, region a < j →
    region' a = region a ∧ heap'.cells[a]? = heap.cells[a]?
  weight : (planAt heap' res).weight = (planAt heap p).weight + leftWeight heap passes
  left : passes ≠ [] → (planAt heap p).weight ≤ leftWeight heap' passes'

/-- **A run of an optimizer** adds the plan to what its passes have left over. -/
theorem runPasses_ok : ∀ {passes : List Pass} {region : Nat → Nat} {heap : PlanHeap} {j : Nat}
    {p : Option Nat}, Regions region heap → PassesAt region heap j passes → p ≠ none →
    (∀ a ∈ p, a < heap.size ∧ region a < j) →
    ∃ passes' heap' res region', runPasses passes heap p = .ok (passes', heap', res) ∧
      Ran region heap j passes p passes' heap' res region' := by
  intro passes
  induction passes with
  | nil =>
      intro region heap j p hr _ _ _
      exact ⟨[], heap, p, region, rfl, hr, trivial, Nat.le_refl _, fun _ _ _ => ⟨rfl, rfl⟩, rfl,
        fun h => absurd rfl h⟩
  | cons pass passes ih =>
      intro region heap j p hr hat hne hp
      obtain ⟨a, rfl⟩ := Option.ne_none_iff_exists'.mp hne
      obtain ⟨s, plan, hvisit, hbuilt, htree⟩ := visit_built pass.kind hr hat.1 (some a)
        fun b hb => ⟨(hp b hb).1, Nat.ne_of_lt (hp b hb).2⟩
      obtain ⟨hweight₁, hnull⟩ := visitor_weight pass.kind htree
      -- the pass returns a plan, on which the next pass is run
      have hres : s.mResult ≠ none := fun hnone => by
        have hplan := hbuilt.plan_eq
        rw [hnone, planAt_none] at hplan
        exact hnull (planAt_some_ne (hp a rfl).1) hplan.symm
      obtain ⟨hat₁, hleft₁⟩ := PassesAt.of_built hr hbuilt (Nat.lt_succ_self j) hat.2
      obtain ⟨passes', heap', res, region', hrun, hran⟩ := ih hbuilt.regions hat₁ hres
        fun b hb => by
          obtain ⟨hlt, hregion⟩ := hbuilt.within b hb
          exact ⟨hlt, by rw [hregion]; exact Nat.lt_succ_self j⟩
      -- the passes after it build in regions of their own
      have hkeep : planAt heap' s.mResult = planAt s.heap s.mResult :=
        congrArg toPlan (chain_congr_region hbuilt.regions
          (fun b hb hk => (hran.frame b hb (by omega)).2) hbuilt.within)
      refine ⟨⟨pass.kind, s.mResult⟩ :: passes', heap', res, region', ?_, hran.regions,
        ⟨fun b hb => ?_, hran.passesAt⟩, le_trans hbuilt.size_le hran.size_le, fun b hb hk => ?_,
        ?_, fun _ => ?_⟩
      · simp only [runPasses, Pass.execute, hvisit, bind_ok, hrun]
      · obtain ⟨hlt, hj⟩ := hbuilt.within b hb
        exact ⟨lt_of_lt_of_le hlt hran.size_le,
          (hran.frame b hlt (by omega)).1.trans hj⟩
      · have hext : extend region heap.size j b = region b := extend_of_lt hb
        obtain ⟨hreg, hcell⟩ := hran.frame b (lt_of_lt_of_le hb hbuilt.size_le) (by omega)
        exact ⟨hreg.trans hext, hcell.trans (hbuilt.frame b hb (by omega))⟩
      · rw [hran.weight, hbuilt.plan_eq, hweight₁, hleft₁, leftWeight, leftWeight, List.map_cons,
          List.sum_cons, Nat.add_assoc]
      · simp only [leftWeight, List.map_cons, List.sum_cons, hkeep, hbuilt.plan_eq, hweight₁]
        omega

/-! ## Runs one after another -/

/-- New passes of these kinds. -/
def createPasses (kinds : List PassKind) : List Pass := kinds.map .create

theorem passesAt_create (region : Nat → Nat) (heap : PlanHeap) (kinds : List PassKind) (j : Nat) :
    PassesAt region heap j (createPasses kinds) := by
  induction kinds generalizing j with
  | nil => trivial
  | cons kind kinds ih => exact ⟨nofun, ih (j + 1)⟩

theorem leftWeight_create (heap : PlanHeap) (kinds : List PassKind) :
    leftWeight heap (createPasses kinds) = 0 := by
  induction kinds with
  | nil => rfl
  | cons kind kinds ih =>
      rw [createPasses, List.map_cons, leftWeight, List.map_cons, List.sum_cons, Pass.create,
        planAt_none]
      exact (Nat.zero_add _).trans ih

/-- `PlanOptimizer::run` on one plan after another: each result, and the plan it was when it was
returned. -/
def runAll : List Pass → PlanHeap → List (Option Nat) →
    Except Error (PlanHeap × List (Option Nat × LogicalPlan))
  | _, heap, [] => .ok (heap, [])
  | passes, heap, p :: plans => do
      let (passes, heap, res) ← runPasses passes heap p
      let (heap', results) ← runAll passes heap plans
      .ok (heap', (res, planAt heap res) :: results)

/-- The plan that a new optimizer with passes of these kinds returns. -/
def freshRun (kinds : List PassKind) (heap : PlanHeap) (p : Option Nat) :
    Except Error LogicalPlan := do
  let (_, heap, res) ← runPasses (createPasses kinds) heap p
  .ok (planAt heap res)

/-- Every run of an optimizer returns what a new optimizer returns, and no plan that was returned
is changed by a later run. -/
def RunsIndependent (kinds : List PassKind) (heap : PlanHeap) (plans : List (Option Nat)) : Prop :=
  ∃ heap' results, runAll (createPasses kinds) heap plans = .ok (heap', results) ∧
    List.Forall₂ (fun p result => freshRun kinds heap p = .ok result.2) plans results ∧
    ∀ result ∈ results, planAt heap' result.1 = result.2

/-- The pointer stands for the plan of a query. -/
def QueryAt (heap : PlanHeap) (p : Option Nat) : Prop :=
  heap.Valid p ∧ ∃ steps, steps ≠ [] ∧ planAt heap p = .build steps

theorem QueryAt.ne_none {heap : PlanHeap} {p : Option Nat} (h : QueryAt heap p) : p ≠ none := by
  rintro rfl
  obtain ⟨-, steps, hsteps, hplan⟩ := h
  rw [planAt_none] at hplan
  exact LogicalPlan.build_ne_nullptr hsteps hplan.symm

theorem QueryAt.weight_pos {heap : PlanHeap} {p : Option Nat} (h : QueryAt heap p) :
    0 < (planAt heap p).weight := by
  obtain ⟨-, steps, hsteps, hplan⟩ := h
  rw [hplan]
  exact LogicalPlan.weight_build_pos hsteps

/-- The first run: all that is on the heap is region 0. -/
theorem runPasses_first (kinds : List PassKind) {heap : PlanHeap} {p : Option Nat}
    (h : QueryAt heap p) :
    ∃ passes' heap' res region', runPasses (createPasses kinds) heap p = .ok (passes', heap', res) ∧
      Ran (fun _ => 0) heap 1 (createPasses kinds) p passes' heap' res region' :=
  runPasses_ok (fun _ _ _ _ _ => rfl) (passesAt_create _ _ _ _) h.ne_none
    fun a ha => ⟨h.1 a ha, Nat.one_pos⟩

/-- **A second run is not independent of the first** if there is a pass at all. -/
theorem second_run_heavier {kind : PassKind} {kinds : List PassKind} {heap : PlanHeap}
    {p q : Option Nat} {plans : List (Option Nat)} (hp : QueryAt heap p) (hq : QueryAt heap q) :
    ¬ RunsIndependent (kind :: kinds) heap (p :: q :: plans) := by
  rintro ⟨heap', results, hall, hfresh, -⟩
  obtain ⟨passes₁, heap₁, res₁, region₁, hrun₁, hran₁⟩ := runPasses_first (kind :: kinds) hp
  -- the second plan is still what it was
  have hq₁ : planAt heap₁ q = planAt heap q := congrArg toPlan
    (chain_of_extends (fun a ha => (hran₁.frame a ha Nat.one_pos).2) hq.1)
  obtain ⟨passes₂, heap₂, res₂, region₂, hrun₂, hran₂⟩ := runPasses_ok hran₁.regions hran₁.passesAt
    hq.ne_none fun a ha => ⟨lt_of_lt_of_le (hq.1 a ha) hran₁.size_le, by
      rw [(hran₁.frame a (hq.1 a ha) Nat.one_pos).1]
      exact Nat.one_pos⟩
  obtain ⟨passes₃, heap₃, res₃, region₃, hrun₃, hran₃⟩ := runPasses_first (kind :: kinds) hq
  simp only [runAll, hrun₁, bind_ok, hrun₂] at hall
  obtain ⟨rest₁, hrest₁, hall⟩ := bind_eq_ok.mp hall
  obtain ⟨rest₂, -, hrest₁⟩ := bind_eq_ok.mp hrest₁
  cases hrest₁
  cases hall
  obtain ⟨-, hfresh⟩ := List.forall₂_cons.mp hfresh
  obtain ⟨hsecond, -⟩ := List.forall₂_cons.mp hfresh
  simp only [freshRun, hrun₃, bind_ok] at hsecond
  have hsame : (planAt heap₃ res₃).weight = (planAt heap₂ res₂).weight :=
    congrArg LogicalPlan.weight (Except.ok.inj hsecond)
  have hleft := hran₁.left (List.cons_ne_nil _ _)
  have hpos := hp.weight_pos
  rw [hran₃.weight, hran₂.weight, leftWeight_create, hq₁] at hsame
  omega

theorem runAll_nil (heap : PlanHeap) (plans : List (Option Nat)) :
    runAll [] heap plans = .ok (heap, plans.map fun p => (p, planAt heap p)) := by
  induction plans with
  | nil => rfl
  | cons p plans ih =>
      simp only [runAll, runPasses, bind_ok, ih]
      rfl

/-- **When the runs of an optimizer are independent**: it has no pass, or it is run once at
most. -/
theorem optimizer_runs_independent_iff {kinds : List PassKind} {heap : PlanHeap}
    {plans : List (Option Nat)} (hplans : ∀ p ∈ plans, QueryAt heap p) :
    RunsIndependent kinds heap plans ↔ kinds = [] ∨ plans.length ≤ 1 := by
  constructor
  · intro h
    match kinds, plans, h with
    | [], _, _ => exact Or.inl rfl
    | _ :: _, [], _ => exact Or.inr (Nat.zero_le _)
    | _ :: _, [_], _ => exact Or.inr (Nat.le_refl _)
    | _ :: _, p :: q :: _, h =>
        exact absurd h (second_run_heavier (hplans p (by simp)) (hplans q (by simp)))
  · rintro (rfl | hlen)
    · refine ⟨heap, _, runAll_nil heap plans, ?_, ?_⟩
      · exact List.forall₂_map_right_iff.mpr (List.forall₂_same.mpr fun p _ => rfl)
      · intro result hresult
        obtain ⟨p, -, rfl⟩ := List.mem_map.mp hresult
        rfl
    · match plans, hlen with
      | [], _ => exact ⟨heap, [], rfl, List.Forall₂.nil, nofun⟩
      | [p], _ =>
          obtain ⟨passes', heap', res, region', hrun, -⟩ :=
            runPasses_first kinds (hplans p List.mem_cons_self)
          refine ⟨heap', [(res, planAt heap' res)], ?_, ?_, ?_⟩
          · simp only [runAll, hrun, bind_ok]
          · refine List.Forall₂.cons ?_ List.Forall₂.nil
            simp only [freshRun, hrun, bind_ok]
          · intro result hresult
            obtain rfl := List.mem_singleton.mp hresult
            rfl

/-- Two queries of one filter each. -/
def twoFilters : PlanHeap where
  cells := [.filterNode none ((col "a").gt (lit 0)), .materializeFilterNode (some 0),
    .filterNode none ((col "b").lt (lit 5)), .materializeFilterNode (some 2)]
  descends := by
    intro a c i hc hi
    have ha : a < 4 := (List.getElem?_eq_some_iff.mp hc).1
    interval_cases a <;> cases hc <;> cases hi <;> decide

/-- A filter and its materialization are the plan of one call. -/
theorem planAt_oneFilter {heap : PlanHeap} {a b : Nat} {e : BooleanExpr}
    (ha : heap.cells[a]? = some (.filterNode none e))
    (hb : heap.cells[b]? = some (.materializeFilterNode (some a))) :
    planAt heap (some b) = .build [.filter e] := by
  rw [planAt_some hb]
  show LogicalPlan.materializeFilterNode (planAt heap (some a)) = _
  rw [planAt_some ha]
  show LogicalPlan.materializeFilterNode (.filterNode (planAt heap none) e) = _
  rw [planAt_none]
  rfl

theorem queryAt_twoFilters : ∀ p ∈ [some 1, some 3], QueryAt twoFilters p := by
  intro p hp
  rcases (by simpa using hp : p = some 1 ∨ p = some 3) with rfl | rfl
  · exact ⟨by decide, [.filter ((col "a").gt (lit 0))], nofun, planAt_oneFilter (a := 0) rfl rfl⟩
  · exact ⟨by decide, [.filter ((col "b").lt (lit 5))], nofun, planAt_oneFilter (a := 2) rfl rfl⟩

/-- The second query is joined with the first. -/
theorem runs_not_independent_twoFilters :
    ¬ RunsIndependent [.joinFilterPass] twoFilters [some 1, some 3] :=
  second_run_heavier (queryAt_twoFilters _ (by simp)) (queryAt_twoFilters _ (by simp))

theorem optimizer_runs_independent_iff_twoFilters :
    RunsIndependent [.joinFilterPass] twoFilters [some 1, some 3] ↔
      [PassKind.joinFilterPass] = [] ∨ [some 1, some 3].length ≤ 1 :=
  optimizer_runs_independent_iff queryAt_twoFilters

end Pefa
