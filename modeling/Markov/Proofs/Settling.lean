import Mathlib.Order.Bounds.Basic
import Markov.Proofs.Decided

/-!
# When value iteration stops

Value iteration repeats one operator and looks at the difference that every
step makes.  Its two vectors cannot be told from the iterates of
`Bellman.backup`, so it stops with the first of them that differs from the one
before by less than the tolerance, or gives up after the last step it may take.
A query without graph analysis therefore has the values of a step-bounded one,
for as many steps as the iteration took.  All equalities hold for any
arithmetic.
-/

namespace Markov

/-! ## Repeated sweeps -/

namespace Run

variable {α R : Type} [Scalar R] {sweep : α → α × R} {tolerance : R}

/-- Sweeps end with the first one whose difference is small. -/
theorem extend_of_first {count fuel : Nat} (run : Run α R)
    (within : count < fuel)
    (small : (sweep ((fun value => (sweep value).1)^[count] run.value)).2 <
      tolerance)
    (earlier : ∀ before < count,
      ¬(sweep ((fun value => (sweep value).1)^[before] run.value)).2 <
        tolerance) :
    extend sweep tolerance fuel run =
      ⟨(fun value => (sweep value).1)^[count + 1] run.value,
        run.sweeps + (count + 1),
        (sweep ((fun value => (sweep value).1)^[count] run.value)).2, true⟩ := by
  induction count generalizing fuel run with
  | zero =>
      obtain ⟨fuel, rfl⟩ := Nat.exists_eq_add_one_of_ne_zero within.ne_bot
      rw [extend_succ]
      exact if_pos small
  | succ count ih =>
      obtain ⟨fuel, rfl⟩ := Nat.exists_eq_add_one_of_ne_zero within.ne_bot
      have large : ¬(sweep run.value).2 < tolerance :=
        earlier 0 (Nat.succ_pos count)
      let next : Run α R :=
        ⟨(sweep run.value).1, run.sweeps + 1, (sweep run.value).2, false⟩
      have rest := ih next (Nat.lt_of_succ_lt_succ within) small
        fun before isBefore => earlier (before + 1) (Nat.succ_lt_succ isBefore)
      rw [extend_succ, if_neg large, rest]
      simp only [next, Function.iterate_succ_apply, mk.injEq, and_true, true_and]
      omega

theorem extend_of_none {fuel : Nat} (run : Run α R)
    (large : ∀ before < fuel + 1,
      ¬(sweep ((fun value => (sweep value).1)^[before] run.value)).2 <
        tolerance) :
    extend sweep tolerance (fuel + 1) run =
      ⟨(fun value => (sweep value).1)^[fuel + 1] run.value,
        run.sweeps + (fuel + 1),
        (sweep ((fun value => (sweep value).1)^[fuel] run.value)).2, false⟩ := by
  induction fuel generalizing run with
  | zero =>
      rw [extend_succ]
      exact if_neg (large 0 Nat.one_pos)
  | succ fuel ih =>
      have here : ¬(sweep run.value).2 < tolerance :=
        large 0 (Nat.succ_pos _)
      let next : Run α R :=
        ⟨(sweep run.value).1, run.sweeps + 1, (sweep run.value).2, false⟩
      have rest := ih next fun before isBefore =>
        large (before + 1) (Nat.succ_lt_succ isBefore)
      rw [extend_succ, if_neg here, rest]
      simp only [next, Function.iterate_succ_apply, mk.injEq, and_true, true_and]
      omega

end Run

namespace Bellman

section Readiness

variable {R : Type} {b : Bellman R} {unknown : BitSet} {size : Nat}

theorem lt_numStates_of_ready (ready : b.ready unknown size = true)
    {state : Nat} (member : unknown.contains state = true) :
    state < b.numStates := by
  have step : b.stepReady size state = true :=
    List.all_eq_true.mp ready state (BitSet.mem_toList.mpr member)
  by_contra outside
  have absent : b.table.rows[state]? = none := by
    simpa [numStates, Table.numStates] using outside
  simp [stepReady, bestReady, absent] at step

theorem ready_congr {other : BitSet}
    (same : ∀ state, unknown.contains state = other.contains state)
    (size : Nat) : b.ready unknown size = b.ready other size := by
  rw [ready, BitSet.toList_congr same, ready]

end Readiness

variable {R : Type} [Scalar R] {b : Bellman R} {unknown : BitSet}
  {x : Array R}

theorem backup_congr {other : BitSet}
    (same : ∀ state, unknown.contains state = other.contains state) :
    b.backup unknown = b.backup other := by
  funext x
  simp only [backup, same]

/-! ## The steps of value iteration -/

/-- The difference that a step makes; the first one has number one. -/
def change (b : Bellman R) (unknown : BitSet) (x : Array R) (step : Nat) : R :=
  b.options.criterion.distance ((b.backup unknown)^[step - 1] x)
    ((b.backup unknown)^[step] x)

/-- The numbers of the steps after which value iteration may stop. -/
def settlingSteps (b : Bellman R) (unknown : BitSet) (x : Array R) : Set Nat :=
  {step | 1 ≤ step ∧ step ≤ b.options.maxIterations ∧
    b.change unknown x step < b.options.tolerance}

theorem stepSweep_iterate (b : Bellman R) (unknown : BitSet) (x : Array R)
    (count : Nat) :
    (b.stepSweep unknown.toList
      ((fun buffers => (b.stepSweep unknown.toList buffers).1)^[count]
        (.ofValues x))).2 = b.change unknown x (count + 1) := by
  rw [distance_iterate, change, Nat.add_sub_cancel]

/-- Whatever the steps of value iteration refer to exists, if it takes any. -/
def Runnable (b : Bellman R) (unknown : BitSet) (size : Nat) : Prop :=
  b.options.maxIterations = 0 ∨ b.ready unknown size = true

theorem valueIteration_eq_conclude (runnable : b.Runnable unknown x.size) :
    b.valueIteration unknown x =
      conclude .valueIteration
        (Run.start (b.stepSweep unknown.toList) b.options.tolerance
          b.options.maxIterations (.ofValues x))
        (Run.start (b.stepSweep unknown.toList) b.options.tolerance
          b.options.maxIterations (.ofValues x)).value.current := by
  have guard : (decide (b.options.maxIterations = 0) ||
      b.ready unknown x.size) = true := by
    simpa [Runnable] using runnable
  rw [valueIteration, guard]
  rfl

/-- Value iteration stops with the first step that makes little difference. -/
theorem valueIteration_of_isLeast (runnable : b.Runnable unknown x.size) {step : Nat}
    (least : IsLeast (b.settlingSteps unknown x) step) :
    b.valueIteration unknown x =
      .ok ⟨(b.backup unknown)^[step] x,
        { method := Method.valueIteration.name
          iterations := step
          lastDelta := b.change unknown x step }⟩ := by
  obtain ⟨⟨positive, within, small⟩, minimal⟩ := least
  obtain ⟨count, rfl⟩ := Nat.exists_eq_add_of_le' positive
  have earlier : ∀ before < count,
      ¬(b.stepSweep unknown.toList
        ((fun buffers => (b.stepSweep unknown.toList buffers).1)^[before]
          (.ofValues x))).2 < b.options.tolerance := by
    intro before isBefore settles
    rw [stepSweep_iterate] at settles
    have after : count + 1 ≤ before + 1 :=
      minimal ⟨by omega, by omega, settles⟩
    omega
  rw [← stepSweep_iterate] at small
  rw [valueIteration_eq_conclude runnable, Run.start,
    Run.extend_of_first _ within small earlier, conclude, if_pos rfl,
    current_iterate, stepSweep_iterate, Nat.zero_add]

/-- Without such a step value iteration gives up. -/
theorem valueIteration_of_none (runnable : b.Runnable unknown x.size)
    (none : b.settlingSteps unknown x = ∅) :
    b.valueIteration unknown x =
      Attempt.fail ⟨.valueIteration, b.options.maxIterations,
        if b.options.maxIterations = 0 then Scalar.infinity
        else b.change unknown x b.options.maxIterations⟩ := by
  rw [valueIteration_eq_conclude runnable]
  cases limit : b.options.maxIterations with
  | zero => rfl
  | succ limit' =>
      have large : ∀ before < limit' + 1,
          ¬(b.stepSweep unknown.toList
            ((fun buffers => (b.stepSweep unknown.toList buffers).1)^[before]
              (.ofValues x))).2 < b.options.tolerance := by
        intro before isBefore settles
        rw [stepSweep_iterate] at settles
        have member : before + 1 ∈ b.settlingSteps unknown x :=
          ⟨by omega, by omega, settles⟩
        rw [none] at member
        exact member
      rw [Run.start, Run.extend_of_none _ large, conclude,
        if_neg Bool.false_ne_true, stepSweep_iterate, Nat.zero_add,
        if_neg (Nat.succ_ne_zero limit')]

theorem valueIteration_of_not_runnable (missing : ¬b.Runnable unknown x.size) :
    b.valueIteration unknown x = Attempt.breach := by
  have guard : (decide (b.options.maxIterations = 0) ||
      b.ready unknown x.size) = false := by
    simpa [Runnable] using missing
  rw [valueIteration, guard]
  rfl

/-- What value iteration gives are as many backups as it counts. -/
theorem valueIteration_iterations {solution : Solution R}
    (found : b.valueIteration unknown x = .ok solution) :
    b.ready unknown x.size = true ∧ 1 ≤ solution.stats.iterations ∧
      solution.values = (b.backup unknown)^[solution.stats.iterations] x := by
  obtain ⟨ready, -⟩ := valueIteration_eq_ok found
  rcases (b.settlingSteps unknown x).eq_empty_or_nonempty with none | some
  · rw [valueIteration_of_none (.inr ready) none] at found
    cases found
  · classical
    have least : IsLeast (b.settlingSteps unknown x) (Nat.find some) :=
      ⟨Nat.find_spec some, fun _ => Nat.find_min' some⟩
    rw [valueIteration_of_isLeast (.inr ready) least] at found
    cases found
    exact ⟨ready, least.1.1, rfl⟩

theorem checkedBounded_eq {ε : Type} (b : Bellman R) (unknown : BitSet)
    (count : Nat) (x : Array R) :
    b.checkedBounded (ε := ε) unknown count x =
      if count = 0 ∨ b.ready unknown x.size = true then
        .ok ((b.backup unknown)^[count] x)
      else Attempt.breach := by
  rw [checkedBounded, bounded_eq_iterate]
  split
  · rename_i found
    have guard : (decide (count = 0) || b.ready unknown x.size) = true := by
      simpa using found
    rw [guard]
    rfl
  · rename_i missing
    have guard : (decide (count = 0) || b.ready unknown x.size) = false := by
      simpa using missing
    rw [guard]
    rfl

end Bellman

/-! ## Queries without graph analysis -/

namespace Solver

variable {R : Type} [Scalar R] {solver : Solver R} {left right : BitSet}
  {computed : Computed R}

theorem boundedUntil_eq (rightBelow : right.isBelow solver.numStates = true)
    (left : BitSet) (steps : Nat) :
    solver.boundedUntil left right steps =
      if steps = 0 ∨ (solver.bellman none).ready (left \ right)
          solver.numStates = true then
        .ok { values := ((solver.bellman none).backup (left \ right))^[steps]
                (indicator right solver.numStates)
              stats := .steps "Bounded iteration" steps }
      else Attempt.breach := by
  simp only [boundedUntil, checkedIndicator, rightBelow, Attempt.require_true,
    Attempt.ok_bind, pure_bind, Bellman.checkedBounded_eq, size_indicator]
  split
  · rfl
  · rfl

/-- Without graph analysis the states to solve are those of `left` outside
`right`, as far as they exist. -/
theorem contains_unknown_of_plain (left right : BitSet) (n state : Nat) :
    (((left ∪ right).complement n ∪ right).complement n).contains state =
      (decide (state < n) && (left \ right).contains state) := by
  simp only [BitSet.contains_complement, BitSet.contains_union,
    BitSet.contains_diff]
  cases decide (state < n) <;> cases left.contains state <;>
    cases right.contains state <;> rfl

/-- A plain value iteration ends with the values of as many steps as it
counts. -/
theorem boundedUntil_iterations (plain : solver.options.precomputation = false)
    (method : solver.options.method = .valueIteration)
    (found : solver.holdsUntil left right = .ok computed) :
    solver.boundedUntil left right computed.stats.iterations =
      if computed.stats.iterations = 0 ∨
          (left \ right).isBelow solver.numStates = true then
        .ok { values := computed.values
              stats := .steps "Bounded iteration" computed.stats.iterations }
      else Attempt.breach := by
  obtain ⟨no, yes, solution, decided, below, origin, rfl⟩ :=
    holdsUntil_inversion found
  obtain ⟨rfl, rfl⟩ := decided_eq_ok_of_plain plain decided
  rw [boundedUntil_eq below]
  rcases origin with rfl | solved
  · rfl
  · have iterated : (solver.bellman none).valueIteration
        (((left ∪ yes).complement solver.numStates ∪ yes).complement
          solver.numStates) (indicator yes solver.numStates) =
        .ok solution := by
      rw [Bellman.solve] at solved
      simp only [bellman, method] at solved
      exact solved
    obtain ⟨ready, positive, values⟩ :=
      Bellman.valueIteration_iterations iterated
    rw [size_indicator] at ready
    have counted : solution.stats.iterations ≠ 0 := by omega
    by_cases leftBelow : (left \ yes).isBelow solver.numStates = true
    · have same : ∀ state,
          (((left ∪ yes).complement solver.numStates ∪ yes).complement
            solver.numStates).contains state = (left \ yes).contains state := by
        intro state
        rw [contains_unknown_of_plain]
        cases member : (left \ yes).contains state with
        | false => rw [Bool.and_false]
        | true =>
            rw [decide_eq_true (BitSet.isBelow_iff.mp leftBelow state member)]
            rfl
      rw [Bellman.ready_congr same] at ready
      rw [if_pos (.inr ready), if_pos (.inr leftBelow), values,
        Bellman.backup_congr same]
    · have notReady : ¬(solver.bellman none).ready (left \ yes)
          solver.numStates = true := by
        intro stepReady
        apply leftBelow
        apply BitSet.isBelow_iff.mpr
        intro state member
        exact Bellman.lt_numStates_of_ready stepReady member
      rw [if_neg (not_or.mpr ⟨counted, notReady⟩),
        if_neg (not_or.mpr ⟨counted, leftBelow⟩)]

end Solver

/-- **Two vectors that take turns are one vector that is backed up.**  A number
of steps gives as many backups.  Value iteration gives those of the first step
that makes a difference below the tolerance, with the number of the step and its
difference, and gives up with the last difference if there is no such step.
Without graph analysis these are the values of a query for as many steps.  What
refers to something that does not exist is a breach. -/
theorem buffers_run_through_backups {R ε : Type} [Scalar R] :
    (∀ (b : Bellman R) (unknown : BitSet) (x : Array R),
      (∀ count, b.checkedBounded (ε := ε) unknown count x =
        if count = 0 ∨ b.ready unknown x.size = true then
          .ok ((b.backup unknown)^[count] x)
        else Attempt.breach) ∧
      (∀ count values actions,
        b.recorded (ε := ε) unknown count x = .ok (values, actions) →
          values = (b.backup unknown)^[count] x) ∧
      (b.Runnable unknown x.size → ∀ step,
        IsLeast (b.settlingSteps unknown x) step →
          b.valueIteration unknown x =
            .ok ⟨(b.backup unknown)^[step] x,
              { method := Method.valueIteration.name
                iterations := step
                lastDelta := b.change unknown x step }⟩) ∧
      (b.Runnable unknown x.size → b.settlingSteps unknown x = ∅ →
        b.valueIteration unknown x =
          Attempt.fail ⟨.valueIteration, b.options.maxIterations,
            if b.options.maxIterations = 0 then Scalar.infinity
            else b.change unknown x b.options.maxIterations⟩) ∧
      (¬b.Runnable unknown x.size →
        b.valueIteration unknown x = Attempt.breach)) ∧
    ∀ (solver : Solver R) (left right : BitSet) (computed : Computed R),
      solver.options.precomputation = false →
      solver.options.method = .valueIteration →
      solver.holdsUntil left right = .ok computed →
      solver.boundedUntil left right computed.stats.iterations =
        if computed.stats.iterations = 0 ∨
            (left \ right).isBelow solver.numStates = true then
          .ok { values := computed.values
                stats := .steps "Bounded iteration" computed.stats.iterations }
        else Attempt.breach := by
  constructor
  · intro b unknown x
    refine ⟨fun count => b.checkedBounded_eq unknown count x, ?_,
      fun runnable _ => Bellman.valueIteration_of_isLeast runnable,
      Bellman.valueIteration_of_none, Bellman.valueIteration_of_not_runnable⟩
    intro count values actions recorded
    obtain ⟨-, rest⟩ := Attempt.require_bind_eq_ok.mp recorded
    obtain ⟨found, bounded, returned⟩ := Attempt.bind_eq_ok.mp rest
    cases returned
    rw [← Bellman.bounded_eq_iterate]
    exact (Bellman.checkedBounded_eq_ok_iff.mp bounded).2.symm
  · intro solver left right computed plain method found
    exact Solver.boundedUntil_iterations plain method found

/-- A coin that is thrown until it shows heads. -/
def coin : Solver Float where
  table := ⟨#[[[(0, 0.5), (1, 0.5)]], [[(1, 1)]]]⟩
  directions := #[none, none]
  options := ⟨false, .absolute, 0.1, 10, .valueIteration, 20, false⟩

/-- The fourth throw is the first one that makes a difference below a tenth. -/
theorem coin_runs_through_backups :
    IsLeast ((coin.bellman none).settlingSteps (.ofList [0]) #[0, 1]) 4 ∧
    (coin.bellman none).valueIteration (.ofList [0]) #[0, 1] =
      .ok ⟨((coin.bellman none).backup (.ofList [0]))^[4] #[0, 1],
        { method := "Value iteration"
          iterations := 4
          lastDelta := (coin.bellman none).change (.ofList [0]) #[0, 1] 4 }⟩ ∧
    ∃ computed, coin.holdsUntil (.full 2) (.ofList [1]) = .ok computed ∧
      computed.values = #[0.9375, 1] ∧
      coin.boundedUntil (.full 2) (.ofList [1]) 4 =
        .ok { values := computed.values
              stats := .steps "Bounded iteration" 4 } := by
  have least : IsLeast
      ((coin.bellman none).settlingSteps (.ofList [0]) #[0, 1]) 4 := by
    refine ⟨⟨by decide, by decide, by decide +kernel⟩, ?_⟩
    rintro step ⟨positive, -, small⟩
    by_contra early
    have cases : step = 1 ∨ step = 2 ∨ step = 3 := by omega
    rcases cases with rfl | rfl | rfl
    · exact absurd small (by decide +kernel)
    · exact absurd small (by decide +kernel)
    · exact absurd small (by decide +kernel)
  have run : ((coin.holdsUntil (.full 2) (.ofList [1])).toOption.map
      fun computed => (computed.values, computed.stats.iterations)) =
        some (#[0.9375, 1], 4) := by decide +kernel
  obtain ⟨computed, found, values⟩ := Attempt.map_toOption_eq_some.mp run
  obtain ⟨isValue, counted⟩ := Prod.mk.injEq .. ▸ values
  obtain ⟨iteration, query⟩ := buffers_run_through_backups (R := Float)
    (ε := Empty)
  refine ⟨least, (iteration _ _ _).2.2.1 (.inr (by decide +kernel)) 4 least,
    computed, found, isValue, ?_⟩
  have bounded := query coin _ _ computed rfl rfl found
  rwa [counted, if_pos (.inr (by decide +kernel))] at bounded

end Markov
