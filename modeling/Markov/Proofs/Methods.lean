import Markov.Bellman.Solve
import Markov.Proofs.Policy

/-!
# What the methods of solution do

Every method replaces values of the states of `unknown`, again and again: by
best values or by the values of the choices of a policy, all at once or one
after the other.  A property of single values that survives such replacements
is a property of the result, whatever the method is.

What a result is worth depends on the last sweep.  For each method there is a
statement here that says what its last sweep was.
-/

namespace Markov

namespace Run

variable {α R : Type} [Scalar R] {sweep : α → α × R} {tolerance : R}

theorem extend_succ (fuel : Nat) (run : Run α R) :
    extend sweep tolerance (fuel + 1) run =
      if (sweep run.value).2 < tolerance then
        ⟨(sweep run.value).1, run.sweeps + 1, (sweep run.value).2, true⟩
      else extend sweep tolerance fuel
        ⟨(sweep run.value).1, run.sweeps + 1, (sweep run.value).2, false⟩ := rfl

theorem extend_value (fuel : Nat) (run : Run α R) :
    ∃ count ≤ fuel, (extend sweep tolerance fuel run).value =
      (fun value => (sweep value).1)^[count] run.value := by
  induction fuel generalizing run with
  | zero => exact ⟨0, le_rfl, rfl⟩
  | succ fuel ih =>
      rw [extend_succ]
      split
      · exact ⟨1, by omega, rfl⟩
      · obtain ⟨count, within, value⟩ := ih
          ⟨(sweep run.value).1, run.sweeps + 1, (sweep run.value).2, false⟩
        exact ⟨count + 1, by omega, value⟩

theorem start_value (sweep : α → α × R) (tolerance : R) (limit : Nat)
    (value : α) :
    ∃ count ≤ limit, (start sweep tolerance limit value).value =
      (fun value => (sweep value).1)^[count] value :=
  extend_value limit _

theorem extend_settled {fuel : Nat} {run : Run α R}
    (before : run.settled = false)
    (after : (extend sweep tolerance fuel run).settled = true) :
    ∃ count < fuel, ∃ delta, delta < tolerance ∧
      sweep ((fun value => (sweep value).1)^[count] run.value) =
        ((extend sweep tolerance fuel run).value, delta) := by
  induction fuel generalizing run with
  | zero =>
      rw [extend, before] at after
      cases after
  | succ fuel ih =>
      rw [extend_succ] at after ⊢
      split
      · rename_i small
        exact ⟨0, by omega, _, small, rfl⟩
      · rename_i large
        rw [if_neg large] at after
        obtain ⟨count, within, delta, small, last⟩ := ih rfl after
        exact ⟨count + 1, by omega, delta, small, last⟩

/-- Sweeps that have settled ended with one that made little difference. -/
theorem start_settled {limit : Nat} {value : α}
    (settled : (start sweep tolerance limit value).settled = true) :
    ∃ count < limit, ∃ delta, delta < tolerance ∧
      sweep ((fun value => (sweep value).1)^[count] value) =
        ((start sweep tolerance limit value).value, delta) :=
  extend_settled rfl settled

end Run

/-- The methods that choose anew with every replacement of a value, and not only
after the evaluation of a policy. -/
def Method.isIterative : Method → Bool
  | valueIteration | gaussSeidel => true
  | policyIteration | modifiedPolicyIteration => false

/-- A property of every value of a vector with a given number of entries.  The
property may depend on the state. -/
structure Throughout {R : Type} (holds : Nat → R → Prop) (size : Nat)
    (x : Array R) : Prop where
  size : x.size = size
  each : ∀ state value, x[state]? = some value → holds state value

namespace Throughout

variable {R : Type} {holds : Nat → R → Prop} {size : Nat} {x : Array R}

theorem setIfInBounds (throughout : Throughout holds size x) {state : Nat}
    {value : R} (new : holds state value) :
    Throughout holds size (x.setIfInBounds state value) := by
  constructor
  · rw [Array.size_setIfInBounds, throughout.size]
  · intro other found present
    rw [Array.getElem?_setIfInBounds] at present
    split at present
    · rename_i same
      subst same
      split at present
      · cases present
        exact new
      · cases present
    · exact throughout.each other found present

theorem getD (throughout : Throughout holds size x) {state : Nat}
    (inside : state < size) (default : R) :
    holds state (x.getD state default) := by
  apply throughout.each
  have present : state < x.size := throughout.size ▸ inside
  simp [Array.getD_eq_getD_getElem?, present]

theorem iterate {step : Array R → Array R}
    (kept : ∀ y, Throughout holds size y → Throughout holds size (step y))
    (throughout : Throughout holds size x) (count : Nat) :
    Throughout holds size (step^[count] x) := by
  induction count generalizing x with
  | zero => exact throughout
  | succ count ih =>
      rw [Function.iterate_succ_apply]
      exact ih (kept x throughout)

end Throughout

namespace Bellman

section Readiness

variable {R : Type} {b : Bellman R} {unknown : BitSet} {size : Nat}

theorem lt_size_of_ready (ready : b.ready unknown size = true) {state : Nat}
    (writes : b.Writes unknown state) : state < size := by
  have step : b.stepReady size state = true :=
    List.all_eq_true.mp ready state (BitSet.mem_toList.mpr writes.1)
  rw [stepReady, Bool.and_eq_true] at step
  simpa [writes.2] using step.2

theorem lt_of_policyReadyAt {policy : Array Nat} {state : Nat}
    (ready : b.policyReadyAt policy size state = true)
    (branches : b.table.branches state ≠ []) :
    state < size ∧
      policy.getD state 0 < (b.table.branches state).length := by
  unfold policyReadyAt at ready
  unfold Table.branches at branches ⊢
  rw [Array.getD_eq_getD_getElem?] at branches ⊢
  rw [Array.getD_eq_getD_getElem?]
  split at ready
  · cases ready
  · rename_i row
    simp [row] at branches
  · cases ready
  · rename_i row choice _ rowFound choiceFound
    rw [Bool.and_eq_true, decide_eq_true_eq] at ready
    refine ⟨ready.1, ?_⟩
    have present := ready.2
    split at present
    · rename_i branch taken
      simpa [rowFound, choiceFound] using
        (List.getElem?_eq_some_iff.mp taken).1
    · cases present

/-- The values of a method whose sweeps have settled. -/
theorem conclude_eq_ok {α : Type} {method : Method} {run : Run α R}
    {values : Array R} {solution : Solution R}
    (found : conclude method run values = .ok solution) :
    run.settled = true ∧ solution.values = values := by
  unfold conclude at found
  split at found
  · rename_i settled
    cases found
    exact ⟨settled, rfl⟩
  · cases found

end Readiness

variable {R : Type} [Scalar R]

/-- What holds of all values of a vector holds of the best values that they
give. -/
def BestKeeps (b : Bellman R) (unknown : BitSet) (size : Nat)
    (holds : Nat → R → Prop) : Prop :=
  ∀ x, Throughout holds size x → ∀ state, b.Writes unknown state →
    holds state (b.bestValue state x 0)

/-- What holds of all values of a vector holds of the values of all choices. -/
def ChoicesKeep (b : Bellman R) (unknown : BitSet) (size : Nat)
    (holds : Nat → R → Prop) : Prop :=
  ∀ x, Throughout holds size x → ∀ state choice, b.Writes unknown state →
    choice < (b.table.branches state).length →
    holds state (b.choiceValue state choice x)

variable {b : Bellman R} {unknown : BitSet} {size : Nat}
  {holds : Nat → R → Prop} {x : Array R}

theorem ChoicesKeep.bestKeeps (keep : b.ChoicesKeep unknown size holds) :
    b.BestKeeps unknown size holds := by
  intro x throughout state writes
  rw [bestValue_eq_choiceValue writes.2]
  exact keep x throughout state _ writes (bestChoice_lt writes.2 x)

/-! ## All values at once -/

theorem throughout_backup (keeps : b.BestKeeps unknown size holds)
    (throughout : Throughout holds size x) :
    Throughout holds size (b.backup unknown x) := by
  constructor
  · rw [size_backup, throughout.size]
  · intro state value found
    rw [getElem?_backup, Option.map_eq_some_iff] at found
    obtain ⟨old, present, rfl⟩ := found
    split
    · rename_i writes
      rw [bestValue_eq_of_branches writes.2 x old 0]
      exact keeps x throughout state writes
    · exact throughout.each state old present

theorem iterate_stepSweep (b : Bellman R) (states : List Nat) (count : Nat)
    (buffers : Buffers R) :
    (fun buffers => (b.stepSweep states buffers).1)^[count] buffers =
      b.steps states count buffers := by
  induction count generalizing buffers with
  | zero => rfl
  | succ count ih =>
      rw [Function.iterate_succ_apply, ih]
      rfl

/-- Sweeps over two vectors go through the backups. -/
theorem current_iterate (b : Bellman R) (unknown : BitSet) (x : Array R)
    (count : Nat) :
    ((fun buffers => (b.stepSweep unknown.toList buffers).1)^[count]
      (.ofValues x)).current = (b.backup unknown)^[count] x := by
  rw [iterate_stepSweep]
  exact steps_current count (b.aligned_ofValues unknown x)

/-- After a sweep the spare vector is the one before it. -/
theorem distance_iterate (b : Bellman R) (unknown : BitSet) (x : Array R)
    (count : Nat) :
    (b.stepSweep unknown.toList
      ((fun buffers => (b.stepSweep unknown.toList buffers).1)^[count]
        (.ofValues x))).2 =
      b.options.criterion.distance ((b.backup unknown)^[count] x)
        ((b.backup unknown)^[count + 1] x) := by
  rw [← current_iterate b unknown x count,
    ← current_iterate b unknown x (count + 1), Function.iterate_succ_apply']
  rfl

/-- Value iteration ends with two backups that are close to each other. -/
theorem valueIteration_eq_ok {solution : Solution R}
    (found : b.valueIteration unknown x = .ok solution) :
    b.ready unknown x.size = true ∧
      ∃ count, solution.values = (b.backup unknown)^[count + 1] x ∧
        b.options.criterion.distance ((b.backup unknown)^[count] x)
          ((b.backup unknown)^[count + 1] x) < b.options.tolerance := by
  obtain ⟨guarded, concluded⟩ := Attempt.require_bind_eq_ok.mp found
  obtain ⟨settled, values⟩ := conclude_eq_ok concluded
  obtain ⟨count, within, delta, small, last⟩ := Run.start_settled settled
  constructor
  · have positive : b.options.maxIterations ≠ 0 := by omega
    simpa [positive] using guarded
  · have difference := distance_iterate b unknown x count
    have current := current_iterate b unknown x (count + 1)
    rw [Function.iterate_succ_apply'] at current
    rw [last] at difference current
    exact ⟨count, values.trans current, difference ▸ small⟩

theorem valueIteration_throughout {solution : Solution R}
    (keeps : b.BestKeeps unknown size holds)
    (throughout : Throughout holds size x)
    (found : b.valueIteration unknown x = .ok solution) :
    Throughout holds size solution.values := by
  obtain ⟨-, count, values, -⟩ := valueIteration_eq_ok found
  rw [values]
  exact throughout.iterate (fun _ => throughout_backup keeps) (count + 1)

/-! ## One value after the other -/

/-- Replaces the values of states with choices in turn, each by a function of
the vector that it finds. -/
def updateInTurn (b : Bellman R) (value : Nat → Array R → R)
    (states : List Nat) (sweep : Array R × R) : Array R × R :=
  states.foldl (fun sweep state =>
    if (b.table.branches state).isEmpty then sweep
    else b.replace state (value state sweep.1) sweep) sweep

theorem inPlaceSweep_eq (b : Bellman R) (states : List Nat) (x : Array R) :
    b.inPlaceSweep states x =
      b.updateInTurn (fun state x => b.bestValue state x 0) states (x, 0) := by
  unfold inPlaceSweep updateInTurn
  congr 1
  funext sweep state
  cases found : b.best state sweep.1 with
  | none => simp [best_eq_none_iff.mp found]
  | some best =>
      have branches : b.table.branches state ≠ [] := by
        intro none
        rw [best_eq_none_iff.mpr none] at found
        cases found
      simp [branches, bestValue, found]

theorem policySweep_eq (b : Bellman R) (policy : Array Nat)
    (states : List Nat) (x : Array R) :
    b.policySweep policy states x =
      b.updateInTurn (fun state x => b.choiceValue state (policy.getD state 0) x)
        states (x, 0) := rfl

theorem updateInTurn_cons_of_branches {value : Nat → Array R → R} {state : Nat}
    {states : List Nat} (branches : b.table.branches state ≠ [])
    (sweep : Array R × R) :
    b.updateInTurn value (state :: states) sweep =
      b.updateInTurn value states
        (b.replace state (value state sweep.1) sweep) := by
  simp [updateInTurn, branches]

theorem updateInTurn_cons_of_no_branches {value : Nat → Array R → R}
    {state : Nat} {states : List Nat}
    (noBranches : b.table.branches state = []) (sweep : Array R × R) :
    b.updateInTurn value (state :: states) sweep =
      b.updateInTurn value states sweep := by
  simp [updateInTurn, noBranches]

theorem getElem?_updateInTurn_of_not_mem {value : Nat → Array R → R}
    {states : List Nat} {state : Nat} (absent : state ∉ states)
    (sweep : Array R × R) :
    (b.updateInTurn value states sweep).1[state]? = sweep.1[state]? := by
  induction states generalizing sweep with
  | nil => rfl
  | cons first states ih =>
      rw [List.mem_cons, not_or] at absent
      by_cases noBranches : b.table.branches first = []
      · rw [updateInTurn_cons_of_no_branches noBranches]
        exact ih absent.2 sweep
      · rw [updateInTurn_cons_of_branches noBranches, ih absent.2]
        exact Array.getElem?_setIfInBounds_ne (Ne.symm absent.1)

@[simp]
theorem size_updateInTurn (value : Nat → Array R → R) (states : List Nat)
    (sweep : Array R × R) :
    (b.updateInTurn value states sweep).1.size = sweep.1.size := by
  induction states generalizing sweep with
  | nil => rfl
  | cons first states ih =>
      by_cases noBranches : b.table.branches first = []
      · rw [updateInTurn_cons_of_no_branches noBranches, ih]
      · rw [updateInTurn_cons_of_branches noBranches, ih]
        exact Array.size_setIfInBounds

theorem throughout_updateInTurn {value : Nat → Array R → R}
    {states : List Nat}
    (keeps : ∀ y, Throughout holds size y → ∀ state ∈ states,
      b.table.branches state ≠ [] → holds state (value state y))
    {sweep : Array R × R} (throughout : Throughout holds size sweep.1) :
    Throughout holds size (b.updateInTurn value states sweep).1 := by
  induction states generalizing sweep with
  | nil => exact throughout
  | cons state states ih =>
      have rest : ∀ y, Throughout holds size y → ∀ other ∈ states,
          b.table.branches other ≠ [] → holds other (value other y) :=
        fun y throughout other member =>
          keeps y throughout other (List.mem_cons_of_mem _ member)
      by_cases noBranches : b.table.branches state = []
      · rw [updateInTurn_cons_of_no_branches noBranches]
        exact ih rest throughout
      · rw [updateInTurn_cons_of_branches noBranches]
        apply ih rest
        apply throughout.setIfInBounds
        exact keeps _ throughout state List.mem_cons_self noBranches

theorem throughout_inPlaceSweep (keeps : b.BestKeeps unknown size holds)
    (throughout : Throughout holds size x) :
    Throughout holds size (b.inPlaceSweep unknown.toList x).1 := by
  rw [inPlaceSweep_eq]
  apply throughout_updateInTurn _ throughout
  intro y before state member branches
  exact keeps y before state ⟨BitSet.mem_toList.mp member, branches⟩

/-- Gauss-Seidel iteration ends with a sweep that makes little difference. -/
theorem gaussSeidel_eq_ok {solution : Solution R}
    (found : b.gaussSeidel unknown x = .ok solution) :
    b.ready unknown x.size = true ∧
      ∃ count delta, delta < b.options.tolerance ∧
        b.inPlaceSweep unknown.toList
            ((fun x => (b.inPlaceSweep unknown.toList x).1)^[count] x) =
          (solution.values, delta) := by
  obtain ⟨guarded, concluded⟩ := Attempt.require_bind_eq_ok.mp found
  obtain ⟨settled, values⟩ := conclude_eq_ok concluded
  obtain ⟨count, within, delta, small, last⟩ := Run.start_settled settled
  constructor
  · have positive : b.options.maxIterations ≠ 0 := by omega
    simpa [positive] using guarded
  · rw [values]
    exact ⟨count, delta, small, last⟩

theorem gaussSeidel_throughout {solution : Solution R}
    (keeps : b.BestKeeps unknown size holds)
    (throughout : Throughout holds size x)
    (found : b.gaussSeidel unknown x = .ok solution) :
    Throughout holds size solution.values := by
  obtain ⟨-, count, delta, -, last⟩ := gaussSeidel_eq_ok found
  have before :=
    throughout.iterate (fun _ => throughout_inPlaceSweep keeps) count
  have after := throughout_inPlaceSweep keeps before
  rwa [last] at after

/-! ## Evaluation of a policy -/

theorem throughout_policySweep {policy : Array Nat}
    (keep : b.ChoicesKeep unknown size holds)
    (ready : b.policyReady policy unknown size = true)
    (throughout : Throughout holds size x) :
    Throughout holds size (b.policySweep policy unknown.toList x).1 := by
  rw [policySweep_eq]
  apply throughout_updateInTurn _ throughout
  intro y before state member branches
  have valid := lt_of_policyReadyAt
    (List.all_eq_true.mp ready state member) branches
  exact keep y before state _ ⟨BitSet.mem_toList.mp member, branches⟩ valid.2

theorem evaluate_eq_ok {policy : Array Nat} {limit : Nat}
    {run : Run (Array R) R}
    (found : b.evaluate policy unknown limit x = .ok run) :
    (limit = 0 ∨ b.policyReady policy unknown x.size = true) ∧
      run = Run.start (b.policySweep policy unknown.toList)
        b.options.tolerance limit x := by
  obtain ⟨guarded, started⟩ := Attempt.require_bind_eq_ok.mp found
  constructor
  · simpa using guarded
  · cases started
    rfl

theorem evaluate_throughout {policy : Array Nat} {limit : Nat}
    {run : Run (Array R) R} (keep : b.ChoicesKeep unknown size holds)
    (found : b.evaluate policy unknown limit x = .ok run)
    (throughout : Throughout holds size x) :
    Throughout holds size run.value := by
  obtain ⟨guarded, rfl⟩ := evaluate_eq_ok found
  obtain ⟨count, within, value⟩ := Run.start_value
    (b.policySweep policy unknown.toList) b.options.tolerance limit x
  rw [value]
  rcases guarded with none | ready
  · obtain rfl : count = 0 := by omega
    exact throughout
  · rw [throughout.size] at ready
    exact throughout.iterate (fun _ => throughout_policySweep keep ready) count

theorem size_evaluate {policy : Array Nat} {limit : Nat}
    {run : Run (Array R) R}
    (found : b.evaluate policy unknown limit x = .ok run) :
    run.value.size = x.size := by
  have trivially : Throughout (fun _ _ => True) x.size x :=
    ⟨rfl, fun _ _ _ => trivial⟩
  exact (evaluate_throughout (fun _ _ _ _ _ _ => trivial) found trivially).size

theorem policyValues_throughout {method : Method} {policy : Array Nat}
    {values : Array R} (keep : b.ChoicesKeep unknown size holds)
    (throughout : Throughout holds size x)
    (found : b.policyValues method policy unknown x = .ok values) :
    Throughout holds size values := by
  obtain ⟨run, evaluated, rest⟩ := Attempt.bind_eq_ok.mp found
  obtain ⟨solution, concluded, same⟩ := Attempt.bind_eq_ok.mp rest
  cases same
  rw [(conclude_eq_ok concluded).2]
  exact evaluate_throughout keep evaluated throughout

theorem seeded_throughout {method : Method} {seed : Option (Array Nat)}
    {values : Array R}
    (keep : b.ChoicesKeep unknown size holds)
    (throughout : Throughout holds size x)
    (found : b.seeded method seed unknown x = .ok values) :
    Throughout holds size values := by
  cases seed with
  | none =>
      cases found
      exact throughout
  | some policy =>
      exact policyValues_throughout keep throughout found

/-! ## Policy iteration -/

private theorem improveAt_unchanged {i : Improvement R} {state : Nat}
    (unchanged : (b.improveAt x i state).changed = false) :
    i.changed = false ∧ (b.improveAt x i state).policy = i.policy ∧
      ∀ value choice direction, b.best state x = some (value, choice) →
        b.direction state = some direction →
        choice = i.policy.getD state 0 ∨
          direction.better value
            (b.choiceValue state (i.policy.getD state 0) x) = false := by
  unfold improveAt at unchanged ⊢
  cases best : b.best state x with
  | none =>
      simp only [best] at unchanged
      exact ⟨unchanged, rfl, by simp⟩
  | some found =>
      cases directed : b.direction state with
      | none =>
          simp only [best, directed] at unchanged
          exact ⟨unchanged, rfl, by simp⟩
      | some direction =>
          simp only [best, directed] at unchanged ⊢
          split at unchanged
          · cases unchanged
          · rename_i stays
            rw [if_neg stays]
            refine ⟨unchanged, rfl, ?_⟩
            intro value choice other sameBest sameDirection
            cases sameBest
            cases sameDirection
            by_cases same : choice = i.policy.getD state 0
            · exact .inl same
            · right
              rw [Bool.and_eq_true, decide_eq_true_eq] at stays
              exact Bool.eq_false_of_not_eq_true fun better =>
                stays ⟨same, better⟩

private theorem foldl_improveAt_unchanged {states : List Nat}
    {i : Improvement R}
    (unchanged : (states.foldl (b.improveAt x) i).changed = false) :
    i.changed = false ∧ ∀ state ∈ states, ∀ value choice direction,
      b.best state x = some (value, choice) →
      b.direction state = some direction →
      choice = i.policy.getD state 0 ∨
        direction.better value
          (b.choiceValue state (i.policy.getD state 0) x) = false := by
  induction states generalizing i with
  | nil => exact ⟨unchanged, by simp⟩
  | cons state states ih =>
      rw [List.foldl_cons] at unchanged
      obtain ⟨still, later⟩ := ih unchanged
      obtain ⟨before, policy, here⟩ := improveAt_unchanged still
      refine ⟨before, ?_⟩
      intro other member
      rcases List.mem_cons.mp member with rfl | elsewhere
      · exact here
      · rw [← policy]
        exact later other elsewhere

/-- A policy that is not improved takes choices that nothing is better than. -/
theorem improve_unchanged {policy : Array Nat}
    (unchanged : (b.improve policy unknown x).changed = false) {state : Nat}
    (member : unknown.contains state = true) {value : R} {choice : Nat}
    {direction : Direction} (best : b.best state x = some (value, choice))
    (directed : b.direction state = some direction) :
    choice = policy.getD state 0 ∨
      direction.better value
        (b.choiceValue state (policy.getD state 0) x) = false :=
  (foldl_improveAt_unchanged unchanged).2 state (BitSet.mem_toList.mpr member)
    value choice direction best directed

/-- The last round of policy iteration: the evaluation of a policy that is not
improved any more. -/
structure LastRound (b : Bellman R) (unknown : BitSet) (sweeps : Option Nat)
    (policy : Array Nat) (before : Array R) (run : Run (Array R) R) :
    Prop where
  evaluated : b.evaluate policy unknown
    (sweeps.getD b.options.maxIterations) before = .ok run
  settled : sweeps = none → run.settled = true
  ready : b.improveReady policy unknown before.size = true
  unchanged : (b.improve policy unknown run.value).changed = false
  close : sweeps = none ∨
    (b.improve policy unknown run.value).lastDelta < b.options.tolerance

/-- Policy iteration ends with a last round.  What every evaluation preserves
holds before it. -/
theorem improveUntilStable_eq_ok (invariant : Array R → Prop)
    (kept : ∀ policy limit y run,
      b.evaluate policy unknown limit y = .ok run → invariant y →
      invariant run.value)
    {sweeps : Option Nat} {method : Method} {rounds : Nat}
    {policy : Array Nat} {iterations : Nat} {lastDelta : R}
    {solution : Solution R} (initial : invariant x)
    (found : b.improveUntilStable unknown sweeps method rounds policy x
      iterations lastDelta = .ok solution) :
    ∃ policy before run, invariant before ∧
      b.LastRound unknown sweeps policy before run ∧
      solution.values = run.value := by
  induction rounds generalizing policy x iterations lastDelta with
  | zero => cases found
  | succ rounds ih =>
      rw [improveUntilStable] at found
      obtain ⟨run, evaluated, rest⟩ := Attempt.bind_eq_ok.mp found
      split at rest
      · cases rest
      · rename_i settles
        obtain ⟨ready, rest⟩ := Attempt.require_bind_eq_ok.mp rest
        dsimp only at rest
        split at rest
        · rename_i stable
          cases rest
          rw [Bool.and_eq_true, Bool.not_eq_true', Bool.or_eq_true,
            Option.isNone_iff_eq_none, decide_eq_true_eq] at stable
          refine ⟨policy, x, run, initial,
            ⟨evaluated, ?_, ready, stable.1, stable.2⟩, rfl⟩
          intro noLimit
          simpa [noLimit] using settles
        · exact ih (kept policy _ x run evaluated initial) rest

theorem policyIteration_eq_ok (invariant : Array R → Prop)
    (kept : ∀ policy limit y run,
      b.evaluate policy unknown limit y = .ok run → invariant y →
      invariant run.value)
    {seed : Option (Array Nat)} {sweeps : Option Nat} {method : Method}
    {solution : Solution R} (initial : invariant x)
    (found : b.policyIteration unknown x seed sweeps method = .ok solution) :
    ∃ policy before run, invariant before ∧
      b.LastRound unknown sweeps policy before run ∧
      solution.values = run.value := by
  unfold policyIteration at found
  cases seed with
  | some policy => exact improveUntilStable_eq_ok invariant kept initial found
  | none =>
      obtain ⟨-, improved⟩ := Attempt.require_bind_eq_ok.mp found
      exact improveUntilStable_eq_ok invariant kept initial improved

theorem policyIteration_throughout {seed : Option (Array Nat)}
    {sweeps : Option Nat} {method : Method} {solution : Solution R}
    (keep : b.ChoicesKeep unknown size holds)
    (throughout : Throughout holds size x)
    (found : b.policyIteration unknown x seed sweeps method = .ok solution) :
    Throughout holds size solution.values := by
  obtain ⟨policy, before, run, earlier, last, values⟩ :=
    policyIteration_eq_ok (Throughout holds size)
      (fun _ _ _ _ evaluated => evaluate_throughout keep evaluated) throughout
      found
  rw [values]
  exact evaluate_throughout keep last.evaluated earlier

/-! ## All methods -/

/-- What all choices preserve holds of every solution. -/
theorem solve_throughout {seed : Option (Array Nat)} {solution : Solution R}
    (keep : b.ChoicesKeep unknown size holds)
    (throughout : Throughout holds size x)
    (found : b.solve unknown x seed = .ok solution) :
    Throughout holds size solution.values := by
  unfold solve at found
  split at found
  · obtain ⟨start, seeded, iterated⟩ := Attempt.bind_eq_ok.mp found
    exact valueIteration_throughout keep.bestKeeps
      (seeded_throughout keep throughout seeded) iterated
  · obtain ⟨start, seeded, iterated⟩ := Attempt.bind_eq_ok.mp found
    exact gaussSeidel_throughout keep.bestKeeps
      (seeded_throughout keep throughout seeded) iterated
  · exact policyIteration_throughout keep throughout found
  · exact policyIteration_throughout keep throughout found

/-- A solution has the values of the start vector where there is no equation. -/
theorem solve_kept {seed : Option (Array Nat)} {solution : Solution R}
    (found : b.solve unknown x seed = .ok solution) :
    solution.values.size = x.size ∧
      ∀ state, ¬b.Writes unknown state →
        solution.values[state]? = x[state]? := by
  have kept : Throughout
      (fun state value => ¬b.Writes unknown state → x[state]? = some value)
      x.size solution.values := by
    apply solve_throughout _ _ found
    · intro y _ state choice writes _ notWritten
      exact (notWritten writes).elim
    · exact ⟨rfl, fun _ _ present _ => present⟩
  refine ⟨kept.size, ?_⟩
  intro state notWritten
  cases present : solution.values[state]? with
  | none =>
      rw [Array.getElem?_eq_none_iff, kept.size] at present
      rw [Array.getElem?_eq_none present]
  | some value => exact (kept.each state value present notWritten).symm

/-- What the best choices preserve holds of every solution that is found
without a policy. -/
theorem solve_throughout_of_best {solution : Solution R}
    (keeps : b.BestKeeps unknown size holds)
    (iterative : b.options.method.isIterative = true)
    (throughout : Throughout holds size x)
    (found : b.solve unknown x none = .ok solution) :
    Throughout holds size solution.values := by
  unfold solve at found
  split at found
  · obtain ⟨start, unseeded, iterated⟩ := Attempt.bind_eq_ok.mp found
    cases unseeded
    exact valueIteration_throughout keeps throughout iterated
  · obtain ⟨start, unseeded, iterated⟩ := Attempt.bind_eq_ok.mp found
    cases unseeded
    exact gaussSeidel_throughout keeps throughout iterated
  · rename_i method
    rw [method] at iterative
    cases iterative
  · rename_i method
    rw [method] at iterative
    cases iterative

end Bellman

end Markov
