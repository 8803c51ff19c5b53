import Markov.Proofs.BoundedUntil
import Markov.Proofs.Exact

/-!
# Values of step-bounded until

The exact probabilities of reaching `right` through `left` within a number of
steps.  They are one on `right`, zero where nothing can be done, and otherwise
those of a choice: one that is at least as good as any other for the player who
decides.  `exists_good_branch` and `exists_bad_branch` say this in the words in
which the graph analysis asks for choices.
-/

namespace Markov

/-- A table in which every choice is a probability distribution. -/
def Table.Stochastic (t : Table ℚ) : Prop :=
  ∀ row ∈ t.rows, ∀ branch ∈ row, Branch.total branch = 1

instance (t : Table ℚ) : Decidable t.Stochastic :=
  inferInstanceAs (Decidable (∀ row ∈ t.rows, ∀ branch ∈ row, _ = _))

theorem Table.Stochastic.branch {t : Table ℚ} (stochastic : t.Stochastic)
    {state : Nat} {branch : Branch ℚ} (member : branch ∈ t.branches state) :
    branch.total = 1 := by
  obtain ⟨row, rowMember, branchMember⟩ :=
    Table.mem_rows_of_mem_branches member
  exact stochastic row rowMember branch branchMember

theorem Table.knowsDirections_of_le {R : Type} {t : Table R}
    {dirs : Array (Option Direction)} (directed : t.numStates ≤ dirs.size)
    (left right : BitSet) : t.knowsDirections dirs left right = true := by
  apply List.all_eq_true.mpr
  intro state member
  have known : state < dirs.size :=
    (List.mem_range.mp member).trans_le directed
  simp [known]

namespace Solver

/-- A query about weights that are not negative, in which a state without a
direction has nothing to choose. -/
structure Query (solver : Solver ℚ) (left right : BitSet) : Prop
    extends solver.WellPosed left right where
  weights : solver.table.NonNegative
  undirected : ∀ state, state < solver.numStates →
    solver.directions[state]? = some none →
    (solver.table.branches state).length ≤ 1

/-- A game with a dead end and a transition of weight zero.  The maximiser can
move from the first state to the second one, from which the minimiser can go
back; the last state moves to the goal or stays, with equal chances. -/
def standoff : Solver ℚ where
  table := ⟨#[[[(0, 1)], [(1, 1 / 2), (2, 1 / 2)]],
    [[(3, 1)], [(0, 1), (3, 0)]], [], [[(3, 1)]],
    [[(3, 1 / 2), (4, 1 / 2)]]]⟩
  directions := #[some .max, some .min, none, some .max, none]
  options := ⟨true, .absolute, 1 / 1000, 100, .valueIteration, 20, false⟩

theorem standoff_query :
    standoff.Query (.ofList [0, 1, 2, 4]) (.ofList [3]) where
  successors := by decide
  sized := by decide
  leftBelow := by decide
  rightBelow := by decide
  weights := by decide +kernel
  undirected := by decide

/-- The values of all states within a number of steps. -/
def untilValues (solver : Solver ℚ) (left right : BitSet) (steps : Nat) :
    Array ℚ :=
  (solver.bellman none).bounded (left \ right) steps
    (indicator right solver.numStates)

/-- The value of a state within a number of steps. -/
def untilValue (solver : Solver ℚ) (left right : BitSet)
    (steps state : Nat) : ℚ :=
  (solver.untilValues left right steps).getD state 0

/-- The solver gives a value to a state within a number of steps. -/
def BoundedValue (solver : Solver ℚ) (left right : BitSet) (steps state : Nat)
    (value : ℚ) : Prop :=
  ∃ computed, solver.boundedUntil left right steps = .ok computed ∧
    computed.values[state]? = some value

@[simp]
theorem size_untilValues (solver : Solver ℚ) (left right : BitSet)
    (steps : Nat) :
    (solver.untilValues left right steps).size = solver.numStates := by
  simp [untilValues, indicator]

namespace Query

variable {solver : Solver ℚ} {left right : BitSet}

theorem knowsDirections (query : solver.Query left right) :
    solver.table.knowsDirections solver.directions left right = true :=
  Table.knowsDirections_of_le query.sized.ge left right

theorem boundedValue_iff (query : solver.Query left right)
    {steps state : Nat} {value : ℚ} (inside : state < solver.numStates) :
    solver.BoundedValue left right steps state value ↔
      value = solver.untilValue left right steps state := by
  have bound : state < (solver.untilValues left right steps).size := by
    simpa using inside
  have entry : (solver.untilValues left right steps)[state]? =
      some (solver.untilValue left right steps state) := by
    rw [untilValue, Array.getD_eq_getD_getElem?,
      Array.getElem?_eq_getElem bound, Option.getD_some]
  unfold BoundedValue
  rw [query.boundedUntil_eq_ok]
  constructor
  · rintro ⟨computed, ok, found⟩
    cases ok
    exact Option.some.inj (found.symm.trans entry)
  · rintro rfl
    exact ⟨_, rfl, entry⟩

theorem untilValue_of_right (query : solver.Query left right) {state : Nat}
    (member : right.contains state = true) (steps : Nat) :
    solver.untilValue left right steps state = 1 := by
  have kept : ¬(solver.bellman none).Writes (left \ right) state := by
    rintro ⟨unknown, -⟩
    simp [member] at unknown
  have inside := query.lt_of_right state member
  rw [untilValue, untilValues, Bellman.getD_bounded_of_not_writes kept,
    getD_indicator, if_pos ⟨inside, member⟩]

theorem untilValue_of_stuck {state : Nat}
    (notRight : right.contains state = false)
    (stuck : left.contains state = false ∨ solver.table.branches state = [])
    (steps : Nat) : solver.untilValue left right steps state = 0 := by
  have kept : ¬(solver.bellman none).Writes (left \ right) state := by
    rintro ⟨unknown, branches⟩
    rcases stuck with notLeft | noBranches
    · simp [notLeft] at unknown
    · exact branches noBranches
  rw [untilValue, untilValues, Bellman.getD_bounded_of_not_writes kept,
    getD_indicator, if_neg (by simp [notRight])]

private theorem writes {state : Nat} (inLeft : left.contains state = true)
    (notRight : right.contains state = false)
    (branches : solver.table.branches state ≠ []) :
    (solver.bellman none).Writes (left \ right) state :=
  ⟨by simp [inLeft, notRight], branches⟩

private theorem choiceValue_eq_expect {state choice : Nat}
    (valid : choice < (solver.table.branches state).length) (steps : Nat) :
    (solver.bellman none).choiceValue state choice
        (solver.untilValues left right steps) =
      (solver.table.branches state)[choice].expect
        (solver.untilValue left right steps) := by
  unfold Bellman.choiceValue Bellman.branchValue
  change 0 + ((solver.table.branches state).getD choice []).dot _ = _
  rw [zero_add, Branch.dot_eq_expect]
  simp only [List.getD_eq_getElem?_getD, List.getElem?_eq_getElem valid,
    Option.getD_some]
  rfl

private theorem untilValue_succ (query : solver.Query left right) {state : Nat}
    (inLeft : left.contains state = true)
    (notRight : right.contains state = false)
    (branches : solver.table.branches state ≠ []) (steps : Nat) :
    solver.untilValue left right (steps + 1) state =
      (solver.bellman none).bestValue state
        (solver.untilValues left right steps) 0 := by
  have inside : state < (indicator (R := ℚ) right solver.numStates).size := by
    simpa [indicator] using query.lt_of_left state inLeft
  exact Bellman.getD_bounded_succ (writes inLeft notRight branches) inside steps

/-- The value of a state is what one of its branches is worth. -/
theorem exists_branch (query : solver.Query left right) {state : Nat}
    (inLeft : left.contains state = true)
    (notRight : right.contains state = false)
    (branches : solver.table.branches state ≠ []) (steps : Nat) :
    ∃ branch ∈ solver.table.branches state,
      solver.untilValue left right (steps + 1) state =
        branch.expect (solver.untilValue left right steps) := by
  have valid := Bellman.bestChoice_lt (b := solver.bellman none) branches
    (solver.untilValues left right steps)
  refine ⟨_, List.getElem_mem valid, ?_⟩
  rw [query.untilValue_succ inLeft notRight branches,
    Bellman.bestValue_eq_choiceValue branches]
  exact choiceValue_eq_expect valid steps

/-- A state that needs only one choice is worth at least every branch. -/
theorem expect_le_untilValue (query : solver.Query left right) {state : Nat}
    (inLeft : left.contains state = true)
    (notRight : right.contains state = false)
    (existential :
      Table.isExistential (solver.directions.getD state none) = true)
    {branch : Branch ℚ} (member : branch ∈ solver.table.branches state)
    (steps : Nat) :
    branch.expect (solver.untilValue left right steps) ≤
      solver.untilValue left right (steps + 1) state := by
  have branches : solver.table.branches state ≠ [] :=
    List.ne_nil_of_mem member
  obtain ⟨choice, valid, rfl⟩ := List.getElem_of_mem member
  rw [query.untilValue_succ inLeft notRight branches,
    ← choiceValue_eq_expect valid]
  cases directed : (solver.bellman none).direction state with
  | none =>
      have inside : state < solver.directions.size :=
        query.sized.ge.trans_lt' (query.lt_of_left state inLeft)
      have single := query.undirected state (query.lt_of_left state inLeft) (by
        simpa [Bellman.direction, Solver.bellman, inside] using directed)
      obtain rfl : choice = 0 := by omega
      exact (Bellman.bestValue_of_undirected directed branches _ _).ge
  | some direction =>
      cases direction with
      | min =>
          change solver.directions.getD state none = some .min at directed
          rw [directed] at existential
          simp [Table.isExistential] at existential
      | max => exact Bellman.bestValue_notWorse directed valid _ _

/-- A state that needs all of its choices is worth at most every branch. -/
theorem untilValue_le_expect (query : solver.Query left right) {state : Nat}
    (inLeft : left.contains state = true)
    (notRight : right.contains state = false)
    (universal :
      Table.isExistential (solver.directions.getD state none) = false)
    {branch : Branch ℚ} (member : branch ∈ solver.table.branches state)
    (steps : Nat) :
    solver.untilValue left right (steps + 1) state ≤
      branch.expect (solver.untilValue left right steps) := by
  have branches : solver.table.branches state ≠ [] :=
    List.ne_nil_of_mem member
  obtain ⟨choice, valid, rfl⟩ := List.getElem_of_mem member
  rw [query.untilValue_succ inLeft notRight branches,
    ← choiceValue_eq_expect valid]
  have directed : (solver.bellman none).direction state = some .min := by
    change solver.directions.getD state none = some .min
    simpa [Table.isExistential] using universal
  exact Bellman.bestValue_notWorse directed valid _ _

/-- A state whose choices qualify is worth at least one of the good ones. -/
theorem exists_good_branch (query : solver.Query left right) {state : Nat}
    (inLeft : left.contains state = true)
    (notRight : right.contains state = false) {good : Branch ℚ → Bool}
    (qualifies : Table.qualifies (solver.table.branches state)
      (solver.directions.getD state none) good = true) (steps : Nat) :
    ∃ branch ∈ solver.table.branches state, good branch = true ∧
      branch.expect (solver.untilValue left right steps) ≤
        solver.untilValue left right (steps + 1) state := by
  unfold Table.qualifies at qualifies
  split at qualifies
  · rename_i existential
    obtain ⟨branch, member, isGood⟩ := List.any_eq_true.mp qualifies
    exact ⟨branch, member, isGood,
      query.expect_le_untilValue inLeft notRight existential member steps⟩
  · simp only [Bool.and_eq_true, Bool.not_eq_true', List.isEmpty_eq_false_iff,
      List.all_eq_true] at qualifies
    obtain ⟨branches, allGood⟩ := qualifies
    obtain ⟨branch, member, value⟩ :=
      query.exists_branch inLeft notRight branches steps
    exact ⟨branch, member, allGood branch member, value.ge⟩

/-- A state whose choices do not qualify is worth at most one of the bad
ones. -/
theorem exists_bad_branch (query : solver.Query left right) {state : Nat}
    (inLeft : left.contains state = true)
    (notRight : right.contains state = false) {good : Branch ℚ → Bool}
    (branches : solver.table.branches state ≠ [])
    (fails : Table.qualifies (solver.table.branches state)
      (solver.directions.getD state none) good = false) (steps : Nat) :
    ∃ branch ∈ solver.table.branches state, good branch = false ∧
      solver.untilValue left right (steps + 1) state ≤
        branch.expect (solver.untilValue left right steps) := by
  unfold Table.qualifies at fails
  split at fails
  · obtain ⟨branch, member, value⟩ :=
      query.exists_branch inLeft notRight branches steps
    have allBad := List.any_eq_false.mp fails
    exact ⟨branch, member, by simpa using allBad branch member, value.le⟩
  · rename_i universal
    rw [Bool.not_eq_true] at universal
    have notEmpty : (solver.table.branches state).isEmpty = false := by
      simpa using branches
    simp only [notEmpty, Bool.not_false, Bool.true_and,
      List.all_eq_false] at fails
    obtain ⟨branch, member, isBad⟩ := fails
    exact ⟨branch, member, by simpa using isBad,
      query.untilValue_le_expect inLeft notRight universal member steps⟩

/-! ## Order -/

/-- A property of all values holds if it holds of one, of zero and, with every
step, of the branches of a state. -/
theorem untilValue_induction (query : solver.Query left right)
    (holds : Nat → Nat → ℚ → Prop)
    (one : ∀ steps state, right.contains state = true → holds steps state 1)
    (zero : ∀ steps state, right.contains state = false → holds steps state 0)
    (step : ∀ steps state, left.contains state = true →
      right.contains state = false →
      solver.table.branches state ≠ [] →
      (∀ other, holds steps other (solver.untilValue left right steps other)) →
      holds (steps + 1) state
        (solver.untilValue left right (steps + 1) state))
    (steps state : Nat) :
    holds steps state (solver.untilValue left right steps state) := by
  induction steps generalizing state with
  | zero =>
      cases inRight : right.contains state with
      | true =>
          rw [query.untilValue_of_right inRight]
          exact one 0 state inRight
      | false =>
          have start : solver.untilValue left right 0 state = 0 := by
            change (indicator right solver.numStates).getD state 0 = 0
            rw [getD_indicator, if_neg (by simp [inRight])]
          rw [start]
          exact zero 0 state inRight
  | succ steps ih =>
      cases inRight : right.contains state with
      | true =>
          rw [query.untilValue_of_right inRight]
          exact one _ state inRight
      | false =>
          by_cases stuck : left.contains state = false ∨
              solver.table.branches state = []
          · rw [untilValue_of_stuck inRight stuck]
            exact zero _ state inRight
          · obtain ⟨inLeft, branches⟩ := not_or.mp stuck
            exact step steps state (by simpa using inLeft) inRight branches ih

theorem untilValue_nonneg (query : solver.Query left right)
    (steps state : Nat) : 0 ≤ solver.untilValue left right steps state := by
  refine query.untilValue_induction (fun _ _ value => 0 ≤ value)
    (fun _ _ _ => zero_le_one) (fun _ _ _ => le_rfl) ?_ steps state
  intro steps state inLeft notRight branches before
  obtain ⟨branch, member, value⟩ :=
    query.exists_branch inLeft notRight branches steps
  rw [value]
  exact Branch.expect_nonneg (query.weights.branch member)
    fun entry _ _ => before entry.1

theorem untilValue_le_one (query : solver.Query left right)
    (stochastic : solver.table.Stochastic) (steps state : Nat) :
    solver.untilValue left right steps state ≤ 1 := by
  refine query.untilValue_induction (fun _ _ value => value ≤ 1)
    (fun _ _ _ => le_rfl) (fun _ _ _ => zero_le_one) ?_ steps state
  intro steps state inLeft notRight branches before
  obtain ⟨branch, member, value⟩ :=
    query.exists_branch inLeft notRight branches steps
  calc
    solver.untilValue left right (steps + 1) state
        = branch.expect (solver.untilValue left right steps) := value
    _ ≤ branch.expect fun _ => 1 :=
      Branch.expect_mono (query.weights.branch member)
        fun entry _ _ => before entry.1
    _ = 1 := by
      rw [Branch.expect_const, stochastic.branch member, one_mul]

/-- More steps never make a value smaller. -/
theorem untilValue_mono (query : solver.Query left right) {few many : Nat}
    (more : few ≤ many) (state : Nat) :
    solver.untilValue left right few state ≤
      solver.untilValue left right many state := by
  suffices oneMore : ∀ steps state,
      solver.untilValue left right steps state ≤
        solver.untilValue left right (steps + 1) state from
    monotone_nat_of_le_succ (fun steps => oneMore steps state) more
  refine query.untilValue_induction (fun steps state value =>
    value ≤ solver.untilValue left right (steps + 1) state) ?_ ?_ ?_
  · intro steps state inRight
    exact (query.untilValue_of_right inRight _).ge
  · intro steps state _
    exact query.untilValue_nonneg _ state
  · intro steps state inLeft notRight branches before
    rw [query.untilValue_succ inLeft notRight branches,
      query.untilValue_succ inLeft notRight branches]
    exact Bellman.bestValue_mono query.weights branches before 0 0

end Query

end Solver

end Markov
