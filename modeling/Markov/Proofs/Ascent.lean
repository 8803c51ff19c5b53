import Markov.Proofs.Decided
import Markov.Proofs.Exact

/-!
# Iteration from below

A vector that a backup nowhere lowers is still below its backup afterwards, and
below a sweep that replaces its values one after the other: such a sweep sees
values that are already raised.  So from a start vector that is zero on the
states to solve, both iterations ascend, sweeps run ahead of backups, and
neither gets above a vector that a backup nowhere raises.
-/

namespace Markov

theorem AtMost.refl (x : Array ℚ) : AtMost x x := fun _ => le_rfl

theorem AtMost.trans {x y z : Array ℚ} (left : AtMost x y)
    (right : AtMost y z) : AtMost x z :=
  fun state => (left state).trans (right state)

theorem atMost_of_forall_lt {x y : Array ℚ} (size : y.size = x.size)
    (below : ∀ state < x.size, x.getD state 0 ≤ y.getD state 0) :
    AtMost x y := by
  intro state
  rcases Nat.lt_or_ge state x.size with inside | outside
  · exact below state inside
  · have alsoOutside : y.size ≤ state := size ▸ outside
    simp [Array.getD_eq_getD_getElem?, outside, alsoOutside]

namespace Bellman

variable {b : Bellman ℚ} {unknown : BitSet} {x y : Array ℚ}

theorem backup_mono (weights : b.table.NonNegative) (size : x.size = y.size)
    (below : AtMost x y) :
    AtMost (b.backup unknown x) (b.backup unknown y) := by
  intro state
  by_cases writes : b.Writes unknown state
  · rcases Nat.lt_or_ge state x.size with inside | outside
    · rw [getD_backup_of_writes writes inside,
        getD_backup_of_writes writes (size ▸ inside)]
      exact bestValue_mono weights writes.2 below 0 0
    · rw [getD_backup_of_size_le outside,
        getD_backup_of_size_le (size ▸ outside)]
      exact below state
  · rw [getD_backup_of_not_writes writes, getD_backup_of_not_writes writes]
    exact below state

/-! ## Vectors that are not above their backups -/

/-- No value is lowered by a backup. -/
def Ascends (b : Bellman ℚ) (unknown : BitSet) (x : Array ℚ) : Prop :=
  AtMost x (b.backup unknown x)

theorem ascends_of_zero (weights : b.table.NonNegative)
    (rewards : ∀ state choice, 0 ≤ b.reward state choice)
    (values : ∀ state, 0 ≤ x.getD state 0)
    (zero : ∀ state, unknown.contains state = true → x.getD state 0 = 0) :
    b.Ascends unknown x := by
  intro state
  by_cases writes : b.Writes unknown state
  · rcases Nat.lt_or_ge state x.size with inside | outside
    · rw [zero state writes.1, getD_backup_of_writes writes inside,
        bestValue_eq_choiceValue writes.2]
      exact choiceValue_nonneg weights rewards values state _
    · rw [getD_backup_of_size_le outside]
  · rw [getD_backup_of_not_writes writes]

theorem Ascends.backup (weights : b.table.NonNegative)
    (ascends : b.Ascends unknown x) :
    b.Ascends unknown (b.backup unknown x) :=
  backup_mono weights (size_backup b unknown x).symm ascends

theorem Ascends.bounded (weights : b.table.NonNegative)
    (ascends : b.Ascends unknown x) (count : Nat) :
    b.Ascends unknown (b.bounded unknown count x) := by
  induction count with
  | zero => exact ascends
  | succ count ih =>
      rw [bounded_succ]
      exact ih.backup weights

/-! ## Sweeps in place -/

/-- Where a value is replaced by the best one, it is not lowered, and the next
backup does not lower anything either. -/
theorem Ascends.setIfInBounds (weights : b.table.NonNegative)
    (ascends : b.Ascends unknown x) {state : Nat}
    (writes : b.Writes unknown state) :
    AtMost x (x.setIfInBounds state (b.bestValue state x 0)) ∧
      b.Ascends unknown
        (x.setIfInBounds state (b.bestValue state x 0)) := by
  have raised : AtMost x (x.setIfInBounds state (b.bestValue state x 0)) := by
    intro other
    by_cases same : other = state
    · subst same
      rcases Nat.lt_or_ge other x.size with inside | outside
      · have here := ascends other
        rw [getD_backup_of_writes writes inside] at here
        simpa [Array.getD_eq_getD_getElem?, inside] using here
      · simp [Array.getD_eq_getD_getElem?, outside]
    · simp [Array.getD_eq_getD_getElem?,
        Array.getElem?_setIfInBounds_ne (Ne.symm same)]
  refine ⟨raised, ?_⟩
  have size : x.size = (x.setIfInBounds state (b.bestValue state x 0)).size :=
    Array.size_setIfInBounds.symm
  intro other
  by_cases same : other = state
  · subst same
    rcases Nat.lt_or_ge other x.size with inside | outside
    · -- The new value was the best one for lower values.
      rw [getD_backup_of_writes writes (size ▸ inside)]
      have better := bestValue_mono weights writes.2 raised 0 0
      simpa [Array.getD_eq_getD_getElem?, inside] using better
    · rw [getD_backup_of_size_le (size ▸ outside)]
  · have kept : (x.setIfInBounds state (b.bestValue state x 0)).getD other 0 =
        x.getD other 0 := by
      simp [Array.getD_eq_getD_getElem?,
        Array.getElem?_setIfInBounds_ne (Ne.symm same)]
    rw [kept]
    exact (ascends other).trans (backup_mono weights size raised other)

/-- What a sweep over some states makes of a vector that ascends: nothing is
lowered, and every state on the way gets at least its best value for the vector
at the beginning. -/
theorem Ascends.updateInTurn (weights : b.table.NonNegative)
    {states : List Nat} (solved : ∀ state ∈ states, unknown.contains state = true)
    {sweep : Array ℚ × ℚ} (ascends : b.Ascends unknown sweep.1) :
    AtMost sweep.1 (b.updateInTurn (fun state x => b.bestValue state x 0)
        states sweep).1 ∧
      b.Ascends unknown (b.updateInTurn (fun state x => b.bestValue state x 0)
        states sweep).1 ∧
      ∀ state ∈ states, b.table.branches state ≠ [] → state < sweep.1.size →
        b.bestValue state sweep.1 0 ≤
          (b.updateInTurn (fun state x => b.bestValue state x 0)
            states sweep).1.getD state 0 := by
  induction states generalizing sweep with
  | nil => exact ⟨.refl _, ascends, by simp⟩
  | cons first states ih =>
      have later : ∀ state ∈ states, unknown.contains state = true :=
        fun state member => solved state (List.mem_cons_of_mem _ member)
      by_cases noBranches : b.table.branches first = []
      · rw [updateInTurn_cons_of_no_branches noBranches]
        obtain ⟨raised, still, reached⟩ := ih later ascends
        refine ⟨raised, still, ?_⟩
        intro state member branches inside
        rcases List.mem_cons.mp member with rfl | elsewhere
        · exact (branches noBranches).elim
        · exact reached state elsewhere branches inside
      · rw [updateInTurn_cons_of_branches noBranches]
        have writes : b.Writes unknown first :=
          ⟨solved first List.mem_cons_self, noBranches⟩
        obtain ⟨here, ascendsNext⟩ := ascends.setIfInBounds weights writes
        have next : b.Ascends unknown
            (b.replace first (b.bestValue first sweep.1 0) sweep).1 :=
          ascendsNext
        obtain ⟨raised, still, reached⟩ := ih later next
        refine ⟨here.trans raised, still, ?_⟩
        intro state member branches inside
        rcases List.mem_cons.mp member with rfl | elsewhere
        · have written : (sweep.1.setIfInBounds state
              (b.bestValue state sweep.1 0)).getD state 0 =
              b.bestValue state sweep.1 0 := by
            simp [Array.getD_eq_getD_getElem?, inside]
          exact written.ge.trans (raised state)
        · have sized : state <
              (b.replace first (b.bestValue first sweep.1 0) sweep).1.size := by
            simpa [replace] using inside
          exact (bestValue_mono weights branches here 0 0).trans
            (reached state elsewhere branches sized)

/-- A sweep of a vector that ascends is at least a backup. -/
theorem Ascends.inPlaceSweep (weights : b.table.NonNegative)
    (ascends : b.Ascends unknown x) :
    AtMost (b.backup unknown x) (b.inPlaceSweep unknown.toList x).1 ∧
      b.Ascends unknown (b.inPlaceSweep unknown.toList x).1 := by
  rw [inPlaceSweep_eq]
  have start : b.Ascends unknown (x, (0 : ℚ)).1 := ascends
  obtain ⟨raised, still, reached⟩ :=
    start.updateInTurn weights fun _ => BitSet.mem_toList.mp
  refine ⟨?_, still⟩
  intro state
  by_cases writes : b.Writes unknown state
  · rcases Nat.lt_or_ge state x.size with inside | outside
    · rw [getD_backup_of_writes writes inside]
      exact reached state (BitSet.mem_toList.mpr writes.1) writes.2 inside
    · rw [getD_backup_of_size_le outside]
      exact raised state
  · rw [getD_backup_of_not_writes writes]
    exact raised state

/-- The values after a number of sweeps in place. -/
def swept (b : Bellman ℚ) (unknown : BitSet) (count : Nat) (x : Array ℚ) :
    Array ℚ :=
  (fun x => (b.inPlaceSweep unknown.toList x).1)^[count] x

theorem swept_succ (b : Bellman ℚ) (unknown : BitSet) (count : Nat)
    (x : Array ℚ) :
    b.swept unknown (count + 1) x =
      (b.inPlaceSweep unknown.toList (b.swept unknown count x)).1 :=
  Function.iterate_succ_apply' _ count x

@[simp]
theorem size_swept (b : Bellman ℚ) (unknown : BitSet) (count : Nat)
    (x : Array ℚ) : (b.swept unknown count x).size = x.size := by
  induction count with
  | zero => rfl
  | succ count ih => rw [swept_succ, inPlaceSweep_eq, size_updateInTurn, ih]

theorem Ascends.swept (weights : b.table.NonNegative)
    (ascends : b.Ascends unknown x) (count : Nat) :
    b.Ascends unknown (b.swept unknown count x) := by
  induction count with
  | zero => exact ascends
  | succ count ih =>
      rw [swept_succ]
      exact (ih.inPlaceSweep weights).2

theorem bounded_atMost_succ (weights : b.table.NonNegative)
    (ascends : b.Ascends unknown x) (count : Nat) :
    AtMost (b.bounded unknown count x) (b.bounded unknown (count + 1) x) := by
  rw [bounded_succ]
  exact ascends.bounded weights count

theorem swept_atMost_succ (weights : b.table.NonNegative)
    (ascends : b.Ascends unknown x) (count : Nat) :
    AtMost (b.swept unknown count x) (b.swept unknown (count + 1) x) := by
  have before := ascends.swept weights count
  rw [swept_succ]
  exact before.trans (before.inPlaceSweep weights).1

/-- Sweeps are ahead of as many backups. -/
theorem bounded_atMost_swept (weights : b.table.NonNegative)
    (ascends : b.Ascends unknown x) (count : Nat) :
    AtMost (b.bounded unknown count x) (b.swept unknown count x) := by
  induction count with
  | zero => exact .refl x
  | succ count ih =>
      have size : (b.bounded unknown count x).size =
          (b.swept unknown count x).size := by
        rw [size_bounded, size_swept]
      rw [bounded_succ, swept_succ]
      exact (backup_mono weights size ih).trans
        ((ascends.swept weights count).inPlaceSweep weights).1

/-! ## Vectors above -/

/-- A vector above a start vector that a backup nowhere raises.  Solutions of
the equations that agree with the start vector elsewhere are of this kind. -/
structure Supersolution (b : Bellman ℚ) (unknown : BitSet) (x y : Array ℚ) :
    Prop where
  size : y.size = x.size
  above : AtMost x y
  notRaised : AtMost (b.backup unknown y) y

/-- Values that do not exceed those of a vector, as far as it goes. -/
def WithinVector (y : Array ℚ) (state : Nat) (value : ℚ) : Prop :=
  state < y.size → value ≤ y.getD state 0

theorem throughout_withinVector (size : y.size = x.size) :
    Throughout (WithinVector y) y.size x ↔ AtMost x y := by
  constructor
  · intro throughout
    apply atMost_of_forall_lt size
    intro state inside
    have value := throughout.each state x[state]
      (Array.getElem?_eq_getElem inside) (size ▸ inside)
    simpa [Array.getD_eq_getD_getElem?, inside] using value
  · intro below
    refine ⟨size.symm, ?_⟩
    intro state value found _
    have here : x.getD state 0 ≤ y.getD state 0 := below state
    have present : x.getD state 0 = value := by
      rw [Array.getD_eq_getD_getElem?, found, Option.getD_some]
    rwa [present] at here

theorem Supersolution.bestKeeps (weights : b.table.NonNegative)
    (super : b.Supersolution unknown x y) :
    b.BestKeeps unknown y.size (WithinVector y) := by
  intro z throughout state writes inside
  have below := (throughout_withinVector throughout.size.symm).mp throughout
  calc b.bestValue state z 0
      ≤ b.bestValue state y 0 := bestValue_mono weights writes.2 below 0 0
    _ = (b.backup unknown y).getD state 0 :=
        (getD_backup_of_writes writes inside).symm
    _ ≤ y.getD state 0 := super.notRaised state

theorem Supersolution.start (super : b.Supersolution unknown x y) :
    Throughout (WithinVector y) y.size x :=
  (throughout_withinVector super.size).mpr super.above

theorem bounded_atMost (weights : b.table.NonNegative)
    (super : b.Supersolution unknown x y) (count : Nat) :
    AtMost (b.bounded unknown count x) y := by
  have throughout := super.start.iterate
    (fun _ => throughout_backup (super.bestKeeps weights)) count
  rw [← bounded_eq_iterate] at throughout
  exact (throughout_withinVector throughout.size.symm).mp throughout

theorem swept_atMost (weights : b.table.NonNegative)
    (super : b.Supersolution unknown x y) (count : Nat) :
    AtMost (b.swept unknown count x) y := by
  have throughout := super.start.iterate
    (fun _ => throughout_inPlaceSweep (super.bestKeeps weights)) count
  exact (throughout_withinVector throughout.size.symm).mp throughout

/-! ## What the methods return -/

theorem valueIteration_eq_bounded {solution : Solution ℚ}
    (found : b.valueIteration unknown x = .ok solution) :
    ∃ count, solution.values = b.bounded unknown count x := by
  obtain ⟨-, count, values, -⟩ := valueIteration_eq_ok found
  exact ⟨count + 1, values.trans (b.bounded_eq_iterate unknown _ x).symm⟩

theorem gaussSeidel_eq_swept {solution : Solution ℚ}
    (found : b.gaussSeidel unknown x = .ok solution) :
    ∃ count, solution.values = b.swept unknown count x := by
  obtain ⟨-, count, delta, -, last⟩ := gaussSeidel_eq_ok found
  refine ⟨count + 1, ?_⟩
  rw [swept_succ]
  exact (congrArg Prod.fst last).symm

end Bellman

namespace Solver

theorem bellman_reward_nonneg {solver : Solver ℚ}
    {rewards : Option (StepRewards ℚ)}
    (gains : ∀ rows ∈ rewards, ∀ row ∈ rows, ∀ reward ∈ row, 0 ≤ reward)
    (state choice : Nat) : 0 ≤ (solver.bellman rewards).reward state choice := by
  cases rewards with
  | none => exact le_rfl
  | some rows =>
      change 0 ≤ (rows.getD state []).getD choice 0
      rw [List.getD_eq_getElem?_getD]
      cases found : (rows.getD state [])[choice]? with
      | none => exact le_rfl
      | some reward =>
          have member := List.mem_of_getElem? found
          rw [Array.getD_eq_getD_getElem?] at member
          cases present : rows[state]? with
          | none => simp [present] at member
          | some row =>
              rw [present] at member
              exact gains rows rfl row (Array.mem_of_getElem? present)
                reward member

/-- The values of an unbounded query that is answered without policies are
nowhere above a solution of its equations. -/
theorem holdsUntil_atMost {solver : Solver ℚ} {left right : BitSet}
    {computed : Computed ℚ} (weights : solver.table.NonNegative)
    (iterative : solver.options.method.isIterative = true)
    (found : solver.holdsUntil left right = .ok computed) :
    ∃ no yes, solver.decided left right = .ok (no, yes) ∧
      ∀ y, (solver.bellman none).Supersolution
          ((no ∪ yes).complement solver.numStates)
          (indicator yes solver.numStates) y →
        AtMost computed.values y := by
  obtain ⟨no, yes, solution, decided, -, origin, rfl⟩ :=
    holdsUntil_inversion found
  refine ⟨no, yes, decided, ?_⟩
  intro y super
  rcases origin with rfl | solved
  · exact super.above
  · have throughout := Bellman.solve_throughout_of_best
      (super.bestKeeps weights) iterative super.start solved
    exact (Bellman.throughout_withinVector throughout.size.symm).mp throughout

/-- **Gauss-Seidel iteration is ahead of value iteration, and both stay below
every solution.**  Where no weight and no reward is negative, and the start
vector is zero on the states to solve, both iterations raise values only.  The
values of a query that is answered by either of them are a lower bound of all
solutions, the least one included. -/
theorem iterations_ascend {solver : Solver ℚ}
    (weights : solver.table.NonNegative) :
    (∀ (rewards : Option (StepRewards ℚ)) (unknown : BitSet) (x : Array ℚ),
      (∀ rows ∈ rewards, ∀ row ∈ rows, ∀ reward ∈ row, 0 ≤ reward) →
      (∀ state, 0 ≤ x.getD state 0) →
      (∀ state, unknown.contains state = true → x.getD state 0 = 0) →
      (∀ count,
        AtMost ((solver.bellman rewards).bounded unknown count x)
          ((solver.bellman rewards).swept unknown count x) ∧
        AtMost ((solver.bellman rewards).bounded unknown count x)
          ((solver.bellman rewards).bounded unknown (count + 1) x) ∧
        AtMost ((solver.bellman rewards).swept unknown count x)
          ((solver.bellman rewards).swept unknown (count + 1) x) ∧
        ∀ y, (solver.bellman rewards).Supersolution unknown x y →
          AtMost ((solver.bellman rewards).bounded unknown count x) y ∧
          AtMost ((solver.bellman rewards).swept unknown count x) y) ∧
      (∀ solution,
        (solver.bellman rewards).valueIteration unknown x = .ok solution →
          ∃ count, solution.values =
            (solver.bellman rewards).bounded unknown count x) ∧
      ∀ solution,
        (solver.bellman rewards).gaussSeidel unknown x = .ok solution →
          ∃ count, solution.values =
            (solver.bellman rewards).swept unknown count x) ∧
    ∀ (left right : BitSet) (computed : Computed ℚ),
      solver.options.method.isIterative = true →
      solver.holdsUntil left right = .ok computed →
      ∃ no yes, solver.decided left right = .ok (no, yes) ∧
        ∀ y, (solver.bellman none).Supersolution
            ((no ∪ yes).complement solver.numStates)
            (indicator yes solver.numStates) y →
          AtMost computed.values y := by
  constructor
  · intro rewards unknown x gains values zero
    have ascends : (solver.bellman rewards).Ascends unknown x :=
      Bellman.ascends_of_zero weights (bellman_reward_nonneg gains) values zero
    refine ⟨?_, fun _ => Bellman.valueIteration_eq_bounded,
      fun _ => Bellman.gaussSeidel_eq_swept⟩
    intro count
    refine ⟨Bellman.bounded_atMost_swept weights ascends count,
      Bellman.bounded_atMost_succ weights ascends count,
      Bellman.swept_atMost_succ weights ascends count, ?_⟩
    intro y super
    exact ⟨Bellman.bounded_atMost weights super count,
      Bellman.swept_atMost weights super count⟩
  · intro left right computed iterative found
    exact holdsUntil_atMost weights iterative found

/-- A runner who hands over with probability one half, and one who waits. -/
def relay : Solver ℚ where
  table := ⟨#[[[(0, 1/2), (2, 1/2)]], [[(0, 1)], [(1, 1)]], [[(2, 1)]]]⟩
  directions := #[none, some .max, none]
  options := ⟨false, .absolute, 1/8, 10, .gaussSeidel, 20, false⟩

/-- One sweep already tells the second runner what one backup tells only the
first one. -/
theorem relay_ascends :
    relay.table.NonNegative ∧
    (relay.bellman (some #[[1], [0, 0], [0]])).bounded (.ofList [0, 1]) 1
      #[0, 0, 0] = #[1, 0, 0] ∧
    (relay.bellman (some #[[1], [0, 0], [0]])).swept (.ofList [0, 1]) 1
      #[0, 0, 0] = #[1, 1, 0] ∧
    AtMost #[1, 0, 0] #[1, 1, 0] ∧ AtMost #[1, 1, 0] #[2, 2, 0] ∧
    ∃ computed, relay.holdsUntil (.full 3) (.ofList [2]) = .ok computed ∧
      computed.values = #[15/16, 15/16, 1] ∧ AtMost computed.values #[1, 1, 1] := by
  have weights : relay.table.NonNegative := by decide +kernel
  have backup : (relay.bellman (some #[[1], [0, 0], [0]])).bounded
      (.ofList [0, 1]) 1 #[0, 0, 0] = #[1, 0, 0] := by decide +kernel
  have sweep : (relay.bellman (some #[[1], [0, 0], [0]])).swept
      (.ofList [0, 1]) 1 #[0, 0, 0] = #[1, 1, 0] := by decide +kernel
  have costs : (relay.bellman (some #[[1], [0, 0], [0]])).Supersolution
      (.ofList [0, 1]) #[0, 0, 0] #[2, 2, 0] :=
    ⟨rfl, atMost_of_forall_lt rfl (by decide +kernel),
      atMost_of_forall_lt rfl (by decide +kernel)⟩
  obtain ⟨iterations, query⟩ := iterations_ascend weights
  have zero : ∀ state, (#[0, 0, 0] : Array ℚ).getD state 0 = 0 := by
    intro state
    rcases state with _ | _ | _ | state
    · rfl
    · rfl
    · rfl
    · rfl
  obtain ⟨ahead, -, -, below⟩ :=
    (iterations (some #[[1], [0, 0], [0]]) (.ofList [0, 1]) #[0, 0, 0]
      (by decide +kernel) (fun state => (zero state).ge)
      (fun state _ => zero state)).1 1
  obtain ⟨-, swept⟩ := below #[2, 2, 0] costs
  rw [backup, sweep] at ahead
  rw [sweep] at swept
  have run : ((relay.holdsUntil (.full 3) (.ofList [2])).toOption.map
      fun computed => computed.values) = some #[15/16, 15/16, 1] := by
    decide +kernel
  obtain ⟨computed, found, values⟩ := Attempt.map_toOption_eq_some.mp run
  refine ⟨weights, backup, sweep, ahead, swept, computed, found, values, ?_⟩
  obtain ⟨no, yes, decided, bound⟩ := query _ _ computed rfl found
  obtain ⟨rfl, rfl⟩ := decided_eq_ok_of_plain rfl decided
  apply bound
  exact ⟨rfl, atMost_of_forall_lt rfl (by decide +kernel),
    atMost_of_forall_lt rfl (by decide +kernel)⟩

end Solver

end Markov
