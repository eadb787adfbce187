import Pefa.QueryCompiler.PlanOptimizer

/-!
# The shape of an optimized plan

The calls of a query fall into maximal runs of filters with projections between them (`runs`).
The optimizer makes one filter of each run, the conjunction of its filters from left to right, and
leaves the projections where they are (`joinSteps_eq_runs`). In the result no two filters are
neighbours, so there is nothing left to join.

A query without calls has no plan, and the optimizer follows the null pointer
(`one_filter_per_run_iff`).
-/

namespace Pefa

open List

/-! ## Runs of filters -/

/-- Two neighbouring calls that the optimizer joins. -/
def bothFilters (s s' : Step) : Bool := s.isFilter && s'.isFilter

/-- The calls in their order, grouped into maximal runs of filters; a projection is a group of its
own. -/
def runs (steps : List Step) : List (List Step) := steps.splitBy bothFilters

/-- The expression of a filter. -/
def Step.expr? : Step → Option BooleanExpr
  | .project _ => none
  | .filter e => some e

/-- `((e₁ AND e₂) AND …) AND eₖ` for a run of filters; a projection is left as it is. -/
def joinRun : List Step → List Step
  | .filter e :: steps => [.filter ((steps.filterMap Step.expr?).foldl .and e)]
  | steps => steps

/-- A group is one projection or a run of filters. -/
theorem run_cases {run : List Step} (hne : run ≠ [])
    (h : run.IsChain fun s s' => bothFilters s s') :
    (∃ columns, run = [.project columns]) ∨
      ∃ (e : BooleanExpr) (es : List BooleanExpr), run = .filter e :: es.map .filter := by
  have hfilters : ∀ (steps : List Step) (e : BooleanExpr),
      (.filter e :: steps).IsChain (fun s s' => bothFilters s s' = true) →
        ∃ es : List BooleanExpr, steps = es.map .filter := by
    intro steps
    induction steps with
    | nil => exact fun _ _ => ⟨[], rfl⟩
    | cons s steps ih =>
        intro e hchain
        rw [isChain_cons_cons] at hchain
        cases s with
        | project columns => cases hchain.1
        | filter e' =>
            obtain ⟨es, rfl⟩ := ih e' hchain.2
            exact ⟨e' :: es, rfl⟩
  cases run with
  | nil => exact absurd rfl hne
  | cons s steps =>
      cases s with
      | project columns =>
          refine Or.inl ⟨columns, ?_⟩
          cases steps with
          | nil => rfl
          | cons s steps =>
              rw [isChain_cons_cons] at h
              cases h.1
      | filter e =>
          obtain ⟨es, rfl⟩ := hfilters steps e h
          exact Or.inr ⟨e, es, rfl⟩

theorem joinRun_filters (e : BooleanExpr) (es : List BooleanExpr) :
    joinRun (.filter e :: es.map .filter) = [.filter (es.foldl .and e)] := by
  have hexprs : (es.map Step.filter).filterMap Step.expr? = es := by
    rw [filterMap_map]
    exact filterMap_some
  rw [joinRun, hexprs]

/-- Filters that come after a filter are joined with it, one after another. -/
theorem foldl_joinStep_filters (calls : List Step) (es : List BooleanExpr) (e : BooleanExpr) :
    (es.map .filter).foldl joinStep (.filter e :: calls) = .filter (es.foldl .and e) :: calls := by
  induction es generalizing e with
  | nil => rfl
  | cons e' es ih => exact ih (e.and e')

/-- A filter is put on top of anything but a filter. -/
theorem joinStep_filter {calls : List Step} (h : ∀ s ∈ calls.head?, s.isFilter = false)
    (e : BooleanExpr) : joinStep calls (.filter e) = .filter e :: calls := by
  cases calls with
  | nil => rfl
  | cons s calls =>
      cases s with
      | project columns => rfl
      | filter e' => cases h (.filter e') rfl

/-- Joining group by group, on top of calls that the first group is not joined with. -/
theorem foldl_joinStep_runs {groups : List (List Step)} :
    ∀ {calls : List Step}, (∀ run ∈ groups, run ≠ [] ∧ run.IsChain fun s s' => bothFilters s s') →
      groups.IsChain (fun a b => ∃ ha hb, bothFilters (a.getLast ha) (b.head hb) = false) →
      (∀ s ∈ calls.head?, ∀ run ∈ groups.head?, ∀ s' ∈ run.head?, bothFilters s s' = false) →
      groups.flatten.foldl joinStep calls = (groups.flatMap joinRun).reverse ++ calls := by
  induction groups with
  | nil => exact fun _ _ _ => rfl
  | cons run groups ih =>
      intro calls hgroups hchain hcalls
      obtain ⟨hne, hrun⟩ := hgroups run mem_cons_self
      rw [isChain_cons] at hchain
      obtain ⟨hnext, hchain⟩ := hchain
      rw [flatten_cons, foldl_append, flatMap_cons, reverse_append, append_assoc]
      rcases run_cases hne hrun with ⟨columns, rfl⟩ | ⟨e, es, rfl⟩
      · rw [foldl_cons, joinStep_project]
        refine ih (fun r hr => hgroups r (mem_cons_of_mem _ hr)) hchain ?_
        intro s hs r hr s' hs'
        obtain rfl : Step.project columns = s := by simpa using hs
        rfl
      · -- what is on top is no filter, so the run starts a filter of its own
        have htop : ∀ s ∈ calls.head?, s.isFilter = false := by
          intro s hs
          simpa [bothFilters, Step.isFilter] using hcalls s hs _ rfl (.filter e) rfl
        rw [foldl_cons, joinStep_filter htop, foldl_joinStep_filters, joinRun_filters]
        refine ih (fun r hr => hgroups r (mem_cons_of_mem _ hr)) hchain ?_
        -- and the next run does not go on with it
        intro s hs r hr s' hs'
        obtain ⟨ha, hb, hboundary⟩ := hnext r hr
        obtain ⟨e', hlast⟩ : ∃ e', (Step.filter e :: es.map .filter).getLast ha = .filter e' := by
          have hmem : (Step.filter e :: es.map .filter).getLast ha ∈ (e :: es).map .filter :=
            getLast_mem ha
          obtain ⟨e', -, he'⟩ := mem_map.mp hmem
          exact ⟨e', he'.symm⟩
        rw [hlast] at hboundary
        obtain rfl : r.head hb = s' := Option.some.inj ((head?_eq_some_head hb).symm.trans hs')
        obtain rfl : Step.filter (es.foldl .and e) = s := by simpa using hs
        exact hboundary

/-- **The optimizer makes one call of each run.** -/
theorem joinSteps_eq_runs (steps : List Step) :
    (joinSteps steps).reverse = (runs steps).flatMap joinRun := by
  have h : (runs steps).flatten.foldl joinStep [] = ((runs steps).flatMap joinRun).reverse ++ [] :=
    foldl_joinStep_runs (fun run hrun => ⟨ne_nil_of_mem_splitBy hrun, isChain_of_mem_splitBy hrun⟩)
      (isChain_getLast_head_splitBy _ _) (fun s hs => by cases hs)
  rw [runs, flatten_splitBy, append_nil] at h
  rw [joinSteps, h, reverse_reverse]
  rfl

/-! ## Nothing left to join -/

/-- No two neighbouring calls are filters. -/
def Joined (steps : List Step) : Prop := steps.IsChain fun s s' => bothFilters s s' = false

theorem bothFilters_comm (s s' : Step) : bothFilters s s' = bothFilters s' s := Bool.and_comm _ _

theorem joined_reverse {steps : List Step} (h : Joined steps) : Joined steps.reverse := by
  rw [Joined, isChain_reverse]
  exact h.imp fun s s' hs => by rwa [bothFilters_comm]

theorem joined_joinStep {calls : List Step} (h : Joined calls) (s : Step) :
    Joined (joinStep calls s) := by
  cases s with
  | project columns =>
      rw [joinStep_project]
      exact isChain_cons.mpr ⟨fun _ _ => rfl, h⟩
  | filter e' =>
      cases calls with
      | nil => exact isChain_singleton _
      | cons s calls =>
          cases s with
          | project columns =>
              rw [joinStep_project_filter]
              exact isChain_cons_cons.mpr ⟨rfl, h⟩
          | filter e =>
              rw [joinStep_filter_filter]
              exact isChain_cons.mpr ⟨(isChain_cons.mp h).1, (isChain_cons.mp h).2⟩

theorem joined_joinSteps (steps : List Step) : Joined (joinSteps steps) := by
  induction steps using List.reverseRecOn with
  | nil => exact isChain_nil
  | append_singleton steps s ih =>
      rw [joinSteps_concat]
      exact joined_joinStep ih s

/-- Joined calls are left as they are. -/
theorem joinSteps_of_joined {steps : List Step} (h : Joined steps) :
    joinSteps steps = steps.reverse := by
  induction steps using List.reverseRecOn with
  | nil => rfl
  | append_singleton steps s ih =>
      obtain ⟨hsteps, -, hlast⟩ := isChain_append.mp h
      rw [joinSteps_concat, ih hsteps, reverse_append, reverse_singleton, singleton_append]
      cases s with
      | project columns => exact joinStep_project _ _
      | filter e =>
          refine joinStep_filter (fun s hs => ?_) e
          rw [head?_reverse] at hs
          simpa [bothFilters, Step.isFilter] using hlast s hs (.filter e) rfl

/-! ## The nodes of a plan -/

namespace LogicalPlan

/-- The nodes of a plan, from the top. -/
def nodes : LogicalPlan → List LogicalPlan
  | .nullptr => []
  | .projectionNode input fields => .projectionNode input fields :: input.nodes
  | .filterNode input expr => .filterNode input expr :: input.nodes
  | .materializeFilterNode input => .materializeFilterNode input :: input.nodes

theorem nodes_build_materialize {calls : List Step} {input : LogicalPlan}
    (h : .materializeFilterNode input ∈ (build calls).nodes) :
    ∃ before e after, calls = before ++ .filter e :: after ∧
      input = .filterNode (build before) e := by
  induction calls using List.reverseRecOn with
  | nil => cases h
  | append_singleton calls s ih =>
      rw [build_concat] at h
      cases s with
      | project columns =>
          obtain ⟨before, e, after, rfl, rfl⟩ := ih (by simpa [step, project, nodes] using h)
          exact ⟨before, e, after ++ [.project columns], by simp, rfl⟩
      | filter e =>
          have h' : input = .filterNode (build calls) e ∨
              .materializeFilterNode input ∈ (build calls).nodes := by
            simpa [step, filter, nodes] using h
          rcases h' with rfl | h
          · exact ⟨calls, e, [], rfl, rfl⟩
          · obtain ⟨before, e', after, rfl, rfl⟩ := ih h
            exact ⟨before, e', after ++ [.filter e], by simp, rfl⟩

/-- Every filter of the calls has its materialization in the plan. -/
theorem mem_nodes_build (before after : List Step) (e : BooleanExpr) :
    .materializeFilterNode (.filterNode (build before) e) ∈
      (build (before ++ .filter e :: after)).nodes := by
  induction after using List.reverseRecOn with
  | nil =>
      rw [build_concat]
      exact List.mem_cons_self
  | append_singleton after s ih =>
      rw [← List.cons_append, ← List.append_assoc, build_concat]
      cases s with
      | project columns => exact List.mem_cons_of_mem _ ih
      | filter e' => exact List.mem_cons_of_mem _ (List.mem_cons_of_mem _ ih)

theorem nodes_build_filter {calls : List Step} {below : LogicalPlan} {e : BooleanExpr}
    (h : .filterNode below e ∈ (build calls).nodes) :
    ∃ before after, calls = before ++ .filter e :: after ∧ below = build before := by
  induction calls using List.reverseRecOn with
  | nil => cases h
  | append_singleton calls s ih =>
      rw [build_concat] at h
      cases s with
      | project columns =>
          obtain ⟨before, after, rfl, rfl⟩ := ih (by simpa [step, project, nodes] using h)
          exact ⟨before, after ++ [.project columns], by simp, rfl⟩
      | filter e' =>
          rcases (by simpa [step, filter, nodes] using h : (below = build calls ∧ e = e') ∨ _) with
            ⟨rfl, rfl⟩ | h
          · exact ⟨calls, [], rfl, rfl⟩
          · obtain ⟨before, after, rfl, rfl⟩ := ih h
            exact ⟨before, after ++ [.filter e'], by simp, rfl⟩

/-- A filter of joined calls has a projection below it or nothing. -/
theorem below_filter_of_joined {before after : List Step} {e : BooleanExpr}
    (h : Joined (before ++ .filter e :: after)) :
    build before = .nullptr ∨ ∃ input fields, build before = .projectionNode input fields := by
  rcases List.eq_nil_or_concat before with rfl | ⟨init, s, rfl⟩
  · exact Or.inl rfl
  · rw [concat_eq_append] at h ⊢
    rw [build_concat]
    obtain ⟨-, -, hlast⟩ := isChain_append.mp h
    cases s with
    | project columns => exact Or.inr ⟨_, _, rfl⟩
    | filter e' => cases hlast (.filter e') (by simp) (.filter e) rfl

end LogicalPlan

/-! ## One filter for each run -/

/-- The optimizer returns the chain with one filter for each run. In it every materialization is
on a filter, no filter is on a filter or a materialization, and the optimizer leaves it as it is. -/
def OneFilterPerRun (steps : List Step) : Prop :=
  ∃ plan, optimize (.build steps) = .ok plan ∧ plan = .build ((runs steps).flatMap joinRun) ∧
    (∀ input, .materializeFilterNode input ∈ plan.nodes → ∃ below e, input = .filterNode below e) ∧
    (∀ below e, .filterNode below e ∈ plan.nodes →
      (∀ input e', below ≠ .filterNode input e') ∧ ∀ input, below ≠ .materializeFilterNode input) ∧
    optimize plan = .ok plan

/-- **Optimized plans have one filter for each run of filters**, as long as there is a call at
all. -/
theorem one_filter_per_run_iff (steps : List Step) : OneFilterPerRun steps ↔ steps ≠ [] := by
  constructor
  · rintro ⟨plan, hplan, -⟩ rfl
    cases hplan
  · intro hsteps
    have hjoined : Joined (joinSteps steps).reverse := joined_reverse (joined_joinSteps steps)
    have hne : (joinSteps steps).reverse ≠ [] := by
      simpa using joinSteps_ne_nil hsteps
    refine ⟨_, optimize_build hsteps, by rw [joinSteps_eq_runs], fun input hinput => ?_,
      fun below e hbelow => ?_, ?_⟩
    · obtain ⟨before, e, -, -, rfl⟩ := LogicalPlan.nodes_build_materialize hinput
      exact ⟨_, e, rfl⟩
    · obtain ⟨before, after, hcalls, rfl⟩ := LogicalPlan.nodes_build_filter hbelow
      rw [hcalls] at hjoined
      rcases LogicalPlan.below_filter_of_joined hjoined with h | ⟨input, fields, h⟩
      · rw [h]
        exact ⟨nofun, nofun⟩
      · rw [h]
        exact ⟨nofun, nofun⟩
    · rw [optimize_build hne, joinSteps_of_joined hjoined, reverse_reverse]

/-- A query without calls has a null pointer for a plan. -/
theorem not_one_filter_per_run_nil : ¬ OneFilterPerRun [] := by
  rintro ⟨plan, hplan, -⟩
  cases hplan

end Pefa
