import Markov.Proofs.Looping

/-!
# Methods on loops at rest

Every method that solves equations goes the same way with loops at dead ends as
without them, as long as the dead ends among its unknown states are at rest.  A
sweep does not move them and a policy keeps its choice there, so that the counts
of sweeps, the last differences and the strategies agree as well.
-/

namespace Markov

variable {R : Type} [Scalar R]

theorem Run.start_eq_of_kept {α : Type} {sweep other : α → α × R}
    (kept : α → Prop) (same : ∀ value, kept value →
      sweep value = other value ∧ kept (sweep value).1)
    (tolerance : R) (limit : Nat) {value : α} (initial : kept value) :
    start sweep tolerance limit value = start other tolerance limit value ∧
      kept (start sweep tolerance limit value).value := by
  have extend : ∀ fuel (run : Run α R), kept run.value →
      extend sweep tolerance fuel run = extend other tolerance fuel run ∧
        kept (extend sweep tolerance fuel run).value := by
    intro fuel
    induction fuel with
    | zero => exact fun _ keptValue => ⟨rfl, keptValue⟩
    | succ fuel ih =>
        intro run keptValue
        obtain ⟨equal, after⟩ := same run.value keptValue
        rw [extend_succ, extend_succ, ← equal]
        split
        · exact ⟨rfl, after⟩
        · exact ih _ after
  exact extend limit _ initial

namespace Bellman

namespace Loops

section Unknown

variable {b c : Bellman R} {unknown : BitSet} {state : Nat} {x : Array R}
  {policy : Array Nat} (loops : Loops b c (unknown.contains · = true))
  (laws : LoopsRest R) (atRest : b.AtRest (unknown.contains · = true) 0 x)
  (policyAtRest : b.AtRest (unknown.contains · = true) 0 policy)

include loops

section Ready

include atRest

theorem ready_eq : b.ready unknown x.size = c.ready unknown x.size := by
  apply BitSet.all_toList_congr
  intro state member
  have inside := fun dead => atRest.lt_size member dead
  rw [stepReady, stepReady, loops.bestReady_eq member inside]
  by_cases dead : b.table.IsDeadEnd state
  · rw [loops.branches_of_dead dead, dead.branches]
    simp [inside dead]
  · rw [loops.table, Table.branches_looped_of_live dead]

include policyAtRest

theorem policyReady_eq :
    b.policyReady policy unknown x.size =
      c.policyReady policy unknown x.size := by
  apply BitSet.all_toList_congr
  intro state member
  exact loops.policyReadyAt_eq member policyAtRest (atRest.lt_size member)

theorem improveReady_eq :
    b.improveReady policy unknown x.size =
      c.improveReady policy unknown x.size := by
  apply BitSet.all_toList_congr
  intro state member
  have inside := fun dead => atRest.lt_size member dead
  rw [← loops.bestReady_eq member inside,
    ← loops.policyReadyAt_eq member policyAtRest inside, loops.directions,
    loops.direction_eq]
  by_cases dead : b.table.IsDeadEnd state
  · have row : b.table.rows[state]? = some [] := dead
    simp [dead.branches, policyReadyAt, row]
  · rw [loops.table, Table.branches_looped_of_live dead]

end Ready

include laws atRest

theorem bounded_eq (count : Nat) :
    b.bounded unknown count x = c.bounded unknown count x := by
  have within : ∀ state ∈ unknown.toList, unknown.contains state = true :=
    fun _ => BitSet.mem_toList.mp
  have steps : ∀ count buffers,
      BuffersAtRest b (unknown.contains · = true) buffers →
      b.steps unknown.toList count buffers =
        c.steps unknown.toList count buffers := by
    intro count
    induction count with
    | zero => exact fun _ _ => rfl
    | succ count ih =>
        intro buffers atRest
        obtain ⟨same, kept⟩ := loops.step_eq laws within atRest
        rw [Bellman.steps, Bellman.steps, ← same, ih _ kept]
  -- Both buffers start from the same vector.
  rw [bounded, bounded, steps count _ ⟨atRest, atRest⟩]

theorem actions_eq (count : Nat) :
    b.actions unknown count x = c.actions unknown count x := by
  have within : ∀ state ∈ unknown.toList, unknown.contains state = true :=
    fun _ => BitSet.mem_toList.mp
  have traces : ∀ count buffers,
      BuffersAtRest b (unknown.contains · = true) buffers →
      b.trace unknown.toList count buffers =
        c.trace unknown.toList count buffers := by
    intro count
    induction count with
    | zero => exact fun _ _ => rfl
    | succ count ih =>
        intro buffers atRest
        obtain ⟨same, kept⟩ := loops.step_eq laws within atRest
        rw [trace, trace, ← same, ih _ kept,
          (loops.decisions_eq within buffers.current).1]
  rw [actions, actions, traces count _ ⟨atRest, atRest⟩, loops.numStates_eq]

theorem checkedBounded_eq {ε : Type} (count : Nat) :
    (b.checkedBounded unknown count x : Attempt ε (Array R)) =
      c.checkedBounded unknown count x := by
  rw [checkedBounded, checkedBounded, loops.ready_eq atRest,
    loops.bounded_eq laws atRest]

/-! ### Iterations -/

theorem valueIteration_eq :
    b.valueIteration unknown x = c.valueIteration unknown x := by
  have within : ∀ state ∈ unknown.toList, unknown.contains state = true :=
    fun _ => BitSet.mem_toList.mp
  have sweeps : ∀ buffers, BuffersAtRest b (unknown.contains · = true) buffers →
      b.stepSweep unknown.toList buffers = c.stepSweep unknown.toList buffers ∧
        BuffersAtRest b (unknown.contains · = true)
          (b.stepSweep unknown.toList buffers).1 := by
    intro buffers atRest
    obtain ⟨same, kept⟩ := loops.step_eq laws within atRest
    refine ⟨?_, kept⟩
    rw [stepSweep, stepSweep, same, loops.options]
  have start : BuffersAtRest b (unknown.contains · = true) (.ofValues x) :=
    ⟨atRest, atRest⟩
  obtain ⟨runs, -⟩ := Run.start_eq_of_kept _ sweeps b.options.tolerance
    b.options.maxIterations start
  rw [valueIteration, valueIteration, loops.ready_eq atRest, loops.options]
  exact congrArg (fun run => _ >>= fun _ =>
    conclude .valueIteration run run.value.current) runs

omit loops laws atRest in
/-- A vector with dead ends at rest, and a difference beside which they do not
show. -/
def SweepAtRest (b : Bellman R) (unknown : BitSet) (sweep : Array R × R) :
    Prop :=
  b.AtRest (unknown.contains · = true) 0 sweep.1 ∧ Absorbs sweep.2

omit atRest in
/-- Replacing the value of a live state is the same on both sides. -/
theorem replace_of_live (live : ¬b.table.IsDeadEnd state) (value : R)
    {sweep : Array R × R} (sweepAtRest : SweepAtRest b unknown sweep) :
    b.replace state value sweep = c.replace state value sweep ∧
      SweepAtRest b unknown (b.replace state value sweep) := by
  refine ⟨?_, sweepAtRest.1.setIfInBounds live value,
    absorbs_larger laws _ sweepAtRest.2 _ _⟩
  rw [replace, replace, loops.options]

omit loops atRest in
theorem replace_of_loop (member : unknown.contains state = true)
    (dead : b.table.IsDeadEnd state) {sweep : Array R × R}
    (sweepAtRest : SweepAtRest b unknown sweep) :
    c.replace state 0 sweep = sweep := by
  have unmoved : Scalar.larger sweep.2
      (c.options.criterion.gap (sweep.1.getD state 0) 0) = sweep.2 := by
    rw [sweepAtRest.1.getD member dead, gap_zero laws]
    exact sweepAtRest.2
  rw [replace, unmoved, sweepAtRest.1.setIfInBounds_self member dead]

omit atRest in
theorem inPlaceSweep_eq (atRest : b.AtRest (unknown.contains · = true) 0 x) :
    b.inPlaceSweep unknown.toList x = c.inPlaceSweep unknown.toList x ∧
      SweepAtRest b unknown (b.inPlaceSweep unknown.toList x) := by
  apply Table.foldl_eq_of_kept (SweepAtRest b unknown) _ ⟨atRest, absorbs_zero⟩
  intro sweep state listed sweepAtRest
  have member := BitSet.mem_toList.mp listed
  by_cases dead : b.table.IsDeadEnd state
  · rw [best_of_dead dead,
      loops.best_of_resting_loop laws member dead sweepAtRest.1]
    exact ⟨(replace_of_loop laws member dead sweepAtRest).symm, sweepAtRest⟩
  · rw [loops.best_of_live member dead]
    split
    · exact loops.replace_of_live laws dead _ sweepAtRest
    · exact ⟨rfl, sweepAtRest⟩

theorem gaussSeidel_eq :
    b.gaussSeidel unknown x = c.gaussSeidel unknown x := by
  obtain ⟨runs, -⟩ := Run.start_eq_of_kept
    (b.AtRest (unknown.contains · = true) 0)
    (fun x atRest => by
      obtain ⟨same, kept⟩ := loops.inPlaceSweep_eq laws atRest
      exact ⟨same, kept.1⟩)
    b.options.tolerance b.options.maxIterations atRest
  rw [gaussSeidel, gaussSeidel, loops.ready_eq atRest, loops.options]
  exact congrArg (fun run => _ >>= fun _ =>
    conclude .gaussSeidel run run.value) runs

include policyAtRest

omit atRest in
theorem policySweep_eq (atRest : b.AtRest (unknown.contains · = true) 0 x) :
    b.policySweep policy unknown.toList x =
        c.policySweep policy unknown.toList x ∧
      SweepAtRest b unknown (b.policySweep policy unknown.toList x) := by
  apply Table.foldl_eq_of_kept (SweepAtRest b unknown) _ ⟨atRest, absorbs_zero⟩
  intro sweep state listed sweepAtRest
  have member := BitSet.mem_toList.mp listed
  by_cases dead : b.table.IsDeadEnd state
  · have value : c.choiceValue state (policy.getD state 0) sweep.1 = 0 := by
      rw [policyAtRest.getD member dead, choiceValue,
        loops.branches_of_dead dead]
      exact loops.branchValue_of_loop laws member dead sweepAtRest.1
    rw [dead.branches, loops.branches_of_dead dead, value]
    exact ⟨(replace_of_loop laws member dead sweepAtRest).symm, sweepAtRest⟩
  · rw [loops.choiceValue_of_live member dead, loops.table,
      Table.branches_looped_of_live dead]
    split
    · exact ⟨rfl, sweepAtRest⟩
    · exact loops.replace_of_live laws dead _ sweepAtRest

theorem evaluate_eq (limit : Nat) :
    b.evaluate policy unknown limit x = c.evaluate policy unknown limit x ∧
      ∀ run, b.evaluate policy unknown limit x = .ok run →
        b.AtRest (unknown.contains · = true) 0 run.value := by
  obtain ⟨runs, kept⟩ := Run.start_eq_of_kept
    (b.AtRest (unknown.contains · = true) 0)
    (fun x atRest => by
      obtain ⟨same, kept⟩ := loops.policySweep_eq laws policyAtRest atRest
      exact ⟨same, kept.1⟩)
    b.options.tolerance limit atRest
  refine ⟨?_, ?_⟩
  · rw [evaluate, evaluate, loops.policyReady_eq atRest policyAtRest,
      loops.options, runs]
  · intro run found
    obtain ⟨-, rfl⟩ := evaluate_eq_ok found
    exact kept

/-! ### Policies -/

omit loops laws atRest policyAtRest in
/-- A policy that takes the first choice at dead ends, and a difference beside
which they do not show. -/
def ImprovementAtRest (b : Bellman R) (unknown : BitSet) (i : Improvement R) :
    Prop :=
  b.AtRest (unknown.contains · = true) 0 i.policy ∧ Absorbs i.lastDelta

omit policyAtRest in
theorem improveAt_of_loop (member : unknown.contains state = true)
    (dead : b.table.IsDeadEnd state) {i : Improvement R}
    (iAtRest : ImprovementAtRest b unknown i) : c.improveAt x i state = i := by
  have unmoved : Scalar.larger i.lastDelta 0 = i.lastDelta := iAtRest.2
  unfold improveAt
  rw [loops.best_of_resting_loop laws member dead atRest]
  cases c.direction state with
  | none => rfl
  | some direction =>
      simp [atRest.getD member dead, iAtRest.1.getD member dead, gap_zero laws,
        unmoved]

omit atRest policyAtRest in
theorem improveAt_of_live (member : unknown.contains state = true)
    (live : ¬b.table.IsDeadEnd state) (x : Array R) {i : Improvement R}
    (iAtRest : ImprovementAtRest b unknown i) :
    b.improveAt x i state = c.improveAt x i state ∧
      ImprovementAtRest b unknown (b.improveAt x i state) := by
  refine ⟨?_, ?_⟩
  · simp only [improveAt, loops.direction_eq, loops.options,
      loops.best_of_live member live, loops.choiceValue_of_live member live]
  · unfold improveAt
    split
    · dsimp only
      split
      · exact ⟨iAtRest.1.setIfInBounds live _,
          absorbs_larger laws _ iAtRest.2 _ _⟩
      · exact ⟨iAtRest.1, absorbs_larger laws _ iAtRest.2 _ _⟩
    · exact iAtRest

theorem improve_eq :
    b.improve policy unknown x = c.improve policy unknown x ∧
      b.AtRest (unknown.contains · = true) 0
        (b.improve policy unknown x).policy := by
  have start : ImprovementAtRest b unknown ⟨policy, false, 0⟩ :=
    ⟨policyAtRest, absorbs_zero⟩
  have entries : ∀ i, ∀ state ∈ unknown.toList, ImprovementAtRest b unknown i →
      b.improveAt x i state = c.improveAt x i state ∧
        ImprovementAtRest b unknown (b.improveAt x i state) := by
    intro i state listed iAtRest
    have member := BitSet.mem_toList.mp listed
    by_cases dead : b.table.IsDeadEnd state
    · have idle : b.improveAt x i state = i := by
        rw [improveAt, best_of_dead dead]
      rw [idle, loops.improveAt_of_loop laws atRest member dead iAtRest]
      exact ⟨rfl, iAtRest⟩
    · exact loops.improveAt_of_live laws member dead x iAtRest
  obtain ⟨same, kept⟩ := Table.foldl_eq_of_kept _ entries start
  exact ⟨same, kept.1⟩

theorem improveUntilStable_eq (sweeps : Option Nat) (method : Method)
    (rounds iterations : Nat) (lastDelta : R) :
    b.improveUntilStable unknown sweeps method rounds policy x iterations
        lastDelta =
      c.improveUntilStable unknown sweeps method rounds policy x iterations
        lastDelta := by
  -- Each round starts from the policy and the values that the last one left,
  -- and both are at rest again.
  induction rounds generalizing policy x iterations lastDelta with
  | zero => rfl
  | succ rounds ih =>
      obtain ⟨same, kept⟩ := loops.evaluate_eq laws atRest policyAtRest
        (sweeps.getD b.options.maxIterations)
      rw [improveUntilStable, improveUntilStable, loops.options, ← same]
      apply Attempt.bind_congr_of_ok
      intro run found
      have runAtRest := kept run found
      obtain ⟨improvements, improvedAtRest⟩ :=
        loops.improve_eq laws runAtRest policyAtRest
      dsimp only
      rw [loops.improveReady_eq atRest policyAtRest, ← improvements,
        ih runAtRest improvedAtRest]

theorem policyValues_eq (method : Method) :
    b.policyValues method policy unknown x =
        c.policyValues method policy unknown x ∧
      ∀ values, b.policyValues method policy unknown x = .ok values →
        b.AtRest (unknown.contains · = true) 0 values := by
  obtain ⟨same, kept⟩ := loops.evaluate_eq laws atRest policyAtRest
    b.options.maxIterations
  refine ⟨?_, ?_⟩
  · rw [policyValues, policyValues, loops.options, same]
  · intro values found
    obtain ⟨run, evaluated, concluded⟩ := Attempt.bind_eq_ok.mp found
    obtain ⟨solution, ended, isValues⟩ := Attempt.bind_eq_ok.mp concluded
    obtain ⟨-, valuesOfRun⟩ := conclude_eq_ok ended
    cases isValues
    rw [valuesOfRun]
    exact kept run evaluated

/-- All methods find the same, from a policy that takes the first choice at
dead ends. -/
theorem solve_eq_of_policy :
    b.solve unknown x (some policy) = c.solve unknown x (some policy) := by
  have start := fun method =>
    loops.policyValues_eq laws atRest policyAtRest method
  unfold solve
  rw [loops.options]
  cases b.options.method with
  | valueIteration =>
      obtain ⟨same, kept⟩ := start .valueIteration
      simp only [seeded, ← same]
      apply Attempt.bind_congr_of_ok
      intro values found
      exact loops.valueIteration_eq laws (kept values found)
  | gaussSeidel =>
      obtain ⟨same, kept⟩ := start .gaussSeidel
      simp only [seeded, ← same]
      apply Attempt.bind_congr_of_ok
      intro values found
      exact loops.gaussSeidel_eq laws (kept values found)
  | policyIteration =>
      simp only [policyIteration, pure_bind, loops.options]
      exact loops.improveUntilStable_eq laws atRest policyAtRest _ _ _ _ _
  | modifiedPolicyIteration =>
      simp only [policyIteration, pure_bind, loops.options]
      exact loops.improveUntilStable_eq laws atRest policyAtRest _ _ _ _ _

end Unknown

section Unseeded

variable {b c : Bellman R} {unknown : BitSet} {x : Array R}
  (loops : Loops b c fun _ => True) (laws : LoopsRest R)
  (atRest : b.AtRest (unknown.contains · = true) 0 x)

include loops

theorem restrict (states : Nat → Prop) : Loops b c states :=
  { loops with
    rewards := fun state _ => loops.rewards state trivial
    unrewarded := fun state _ => loops.unrewarded state trivial }

theorem greedy_eq (x : Array R) :
    b.greedy x = c.greedy x ∧ b.AtRest (fun _ => True) 0 (b.greedy x) := by
  rw [greedy, greedy, loops.numStates_eq]
  exact loops.decisions_eq (fun _ _ => trivial) x

theorem all_bestReady_eq {size : Nat} (sized : b.numStates ≤ size) :
    (List.range b.numStates).all (b.bestReady size) =
      (List.range c.numStates).all (c.bestReady size) := by
  rw [loops.numStates_eq]
  apply List.all_congr rfl
  intro state
  exact loops.bestReady_eq trivial fun dead => dead.lt_numStates.trans_le sized

include laws atRest

theorem policyIteration_eq (sized : b.numStates ≤ x.size)
    (sweeps : Option Nat) (method : Method) :
    b.policyIteration unknown x none sweeps method =
      c.policyIteration unknown x none sweeps method := by
  obtain ⟨same, policyAtRest⟩ := loops.greedy_eq x
  simp only [policyIteration, loops.all_bestReady_eq sized, ← same, pure_bind,
    loops.options, (loops.restrict _).improveUntilStable_eq laws atRest
      (policyAtRest.mono fun _ _ => trivial)]

/-- All methods find the same, without a policy to start with. -/
theorem solve_eq_of_unseeded (sized : b.numStates ≤ x.size) :
    b.solve unknown x none = c.solve unknown x none := by
  unfold solve
  rw [loops.options]
  cases b.options.method with
  | valueIteration => exact (loops.restrict _).valueIteration_eq laws atRest
  | gaussSeidel => exact (loops.restrict _).gaussSeidel_eq laws atRest
  | policyIteration => exact loops.policyIteration_eq laws atRest sized _ _
  | modifiedPolicyIteration =>
      exact loops.policyIteration_eq laws atRest sized _ _

end Unseeded

end Loops

end Bellman

end Markov
