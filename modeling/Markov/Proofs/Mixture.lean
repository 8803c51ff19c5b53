import Mathlib.Algebra.Order.Field.Rat
import Markov.Bellman.Transient
import Markov.Proofs.BoundedUntil
import Markov.Proofs.Exact

/-!
# Mixtures of step-bounded values

The transient values of a chain are a mean: of the values for every number of
jumps, each counted with the weight of that number.  The procedure never forms
it.  It goes back in time with the sum of the weights that it has passed, which
is what a target is worth then, and makes one step with every weight.  After the
last `k` weights the current vector is the mean for these weights as those of
`0`, …, `k - 1` jumps; `Mixes` is this invariant.
-/

namespace Markov

/-- The sum of values, each counted with its weight. -/
def mean (weights : List ℚ) (values : Nat → ℚ) : ℚ :=
  (weights.mapIdx fun count weight => weight * values count).sum

theorem mean_cons (weight : ℚ) (weights : List ℚ) (values : Nat → ℚ) :
    mean (weight :: weights) values =
      weight * values 0 + mean weights fun count => values (count + 1) := by
  simp [mean]

theorem mean_const (weights : List ℚ) (value : ℚ) :
    (mean weights fun _ => value) = weights.sum * value := by
  induction weights with
  | nil => simp [mean]
  | cons weight weights ih =>
      rw [mean_cons, ih, List.sum_cons]
      ring

theorem mean_congr {weights : List ℚ} {values others : Nat → ℚ}
    (same : ∀ count < weights.length, values count = others count) :
    mean weights values = mean weights others := by
  induction weights generalizing values others with
  | nil => rfl
  | cons weight weights ih =>
      have later := ih fun count bound => same (count + 1) (by simpa using bound)
      rw [mean_cons, mean_cons, same 0 (by simp), later]

namespace Branch

theorem expect_mul_add (branch : Branch ℚ) (factor : ℚ) (f g : Nat → ℚ) :
    (branch.expect fun state => factor * f state + g state) =
      factor * branch.expect f + branch.expect g := by
  unfold expect
  induction branch with
  | nil => simp
  | cons entry branch ih =>
      simp only [List.map_cons, List.sum_cons, ih]
      ring

theorem mean_expect (branch : Branch ℚ) (weights : List ℚ)
    (values : Nat → Nat → ℚ) :
    (mean weights fun count => branch.expect (values count)) =
      branch.expect fun state => mean weights fun count => values count state := by
  induction weights generalizing values with
  | nil =>
      have nothing := branch.expect_const 0
      rw [mul_zero] at nothing
      exact nothing.symm
  | cons weight weights ih =>
      rw [mean_cons, ih fun count => values (count + 1), ← expect_mul_add]
      simp only [mean_cons]

end Branch

namespace Bellman

theorem getElem?_write {R : Type} (states : List Nat) (value : R)
    (room : Array R) (state : Nat) :
    (write states value room)[state]? =
      room[state]?.map fun old => if state ∈ states then value else old :=
  getElem?_writeSome (fun _ => some value) states room state

/-- The equations of a chain without rewards. -/
structure IsChain (b : Bellman ℚ) : Prop where
  undirected : ∀ entry ∈ b.directions, entry = none
  unrewarded : b.rewards = none

theorem IsChain.bestValue_eq_expect {b : Bellman ℚ} (chain : b.IsChain)
    {state : Nat} {branch : Branch ℚ} {rest : List (Branch ℚ)}
    (row : b.table.branches state = branch :: rest) (x : Array ℚ) (old : ℚ) :
    b.bestValue state x old = branch.expect fun target => x.getD target 0 := by
  have direction : b.direction state = none := by
    unfold Bellman.direction
    by_cases inside : state < b.directions.size
    · simpa [inside] using chain.undirected _ (Array.getElem_mem inside)
    · simp [inside]
  rw [bestValue_of_undirected direction (by simp [row]), ← Branch.dot_eq_expect]
  simp [choiceValue, branchValue, reward, chain.unrewarded, row]

section Steps

variable (b : Bellman ℚ) (unknown target : BitSet)

/-- The value of a state within a number of jumps. -/
def jumpValue (state count : Nat) : ℚ :=
  (b.bounded unknown count (indicator target b.numStates)).getD state 0

variable {b unknown target}

theorem jumpValue_of_outside {state : Nat} (outside : b.numStates ≤ state)
    (count : Nat) : b.jumpValue unknown target state count = 0 := by
  have absent : (b.bounded unknown count
      (indicator target b.numStates))[state]? = none := by
    simpa using outside
  rw [jumpValue, Array.getD_eq_getD_getElem?, absent]
  rfl

theorem jumpValue_of_not_writes {state : Nat} (inside : state < b.numStates)
    (kept : ¬b.Writes unknown state) (count : Nat) :
    b.jumpValue unknown target state count =
      if target.contains state then 1 else 0 := by
  rw [jumpValue, getD_bounded_of_not_writes kept, getD_indicator]
  simp [inside]

theorem jumpValue_zero (state : Nat) :
    b.jumpValue unknown target state 0 =
      if state < b.numStates ∧ target.contains state = true then 1 else 0 :=
  getD_indicator target b.numStates state

theorem IsChain.jumpValue_succ (chain : b.IsChain) {state : Nat}
    (writes : b.Writes unknown state) {branch : Branch ℚ}
    {rest : List (Branch ℚ)} (row : b.table.branches state = branch :: rest)
    (count : Nat) :
    b.jumpValue unknown target state (count + 1) =
      branch.expect fun successor =>
        b.jumpValue unknown target successor count := by
  have inside : state < (indicator (R := ℚ) target b.numStates).size := by
    simpa using writes.lt_numStates
  rw [jumpValue, getD_bounded_succ writes inside,
    chain.bestValue_eq_expect row]
  rfl

theorem mean_of_outside {weights : List ℚ} {state : Nat}
    (outside : b.numStates ≤ state) :
    mean weights (b.jumpValue unknown target state) = 0 := by
  rw [funext (jumpValue_of_outside outside), mean_const, mul_zero]

theorem mean_of_idle {weights : List ℚ} {state : Nat}
    (notTarget : target.contains state = false)
    (kept : ¬b.Writes unknown state) :
    mean weights (b.jumpValue unknown target state) = 0 := by
  by_cases inside : state < b.numStates
  · have zero : b.jumpValue unknown target state = fun _ => 0 := by
      funext count
      rw [jumpValue_of_not_writes inside kept, notTarget]
      rfl
    rw [zero, mean_const, mul_zero]
  · exact mean_of_outside (Nat.le_of_not_lt inside)

theorem mean_of_target {weights : List ℚ} {state : Nat}
    (inside : state < b.numStates) (isTarget : target.contains state = true)
    (kept : ¬b.Writes unknown state) :
    mean weights (b.jumpValue unknown target state) = weights.sum := by
  have one : b.jumpValue unknown target state = fun _ => 1 := by
    funext count
    rw [jumpValue_of_not_writes inside kept, isTarget]
    rfl
  rw [one, mean_const, mul_one]

/-- A weight in front moves all others on by one jump. -/
theorem IsChain.mean_of_writes (chain : b.IsChain) {weight : ℚ}
    {weights : List ℚ} {state : Nat} (writes : b.Writes unknown state)
    (notTarget : target.contains state = false) {branch : Branch ℚ}
    {rest : List (Branch ℚ)} (row : b.table.branches state = branch :: rest) :
    mean (weight :: weights) (b.jumpValue unknown target state) =
      branch.expect fun successor =>
        mean weights (b.jumpValue unknown target successor) := by
  rw [mean_cons, jumpValue_zero, if_neg (by simp [notTarget]), mul_zero,
    zero_add]
  simp only [chain.jumpValue_succ writes row]
  exact branch.mean_expect weights fun count successor =>
    b.jumpValue unknown target successor count

/-! ## Going back in time -/

variable (b unknown target) in
/-- The mean of all states at once. -/
def meanValues (weights : List ℚ) : Array ℚ :=
  Array.ofFn fun state : Fin b.numStates =>
    mean weights (b.jumpValue unknown target state)

theorem getElem?_meanValues {weights : List ℚ} {state : Nat}
    (inside : state < b.numStates) :
    (b.meanValues unknown target weights)[state]? =
      some (mean weights (b.jumpValue unknown target state)) := by
  simp [meanValues, inside]

theorem getD_meanValues (weights : List ℚ) (state : Nat) :
    (b.meanValues unknown target weights).getD state 0 =
      mean weights (b.jumpValue unknown target state) := by
  by_cases inside : state < b.numStates
  · rw [Array.getD_eq_getD_getElem?, getElem?_meanValues inside,
      Option.getD_some]
  · rw [mean_of_outside (Nat.le_of_not_lt inside)]
    simp [meanValues, inside]

/-- The vectors after some weights: the current one is the mean for these
weights, and the spare one is zero where no step writes. -/
structure Mixes (b : Bellman ℚ) (unknown target : BitSet) (weights : List ℚ)
    (buffers : Buffers ℚ) : Prop where
  current : buffers.current = b.meanValues unknown target weights
  size : buffers.spare.size = b.numStates
  idle : ∀ state, target.contains state = false →
    ¬b.Writes unknown state → buffers.spare.getD state 0 = 0

/-- A step back, entry by entry. -/
theorem getElem?_jumpBack (unknown target : BitSet) (tail : ℚ)
    (buffers : Buffers ℚ) (state : Nat) :
    (b.jumpBack unknown.toList target.toList tail buffers).current[state]? =
      buffers.spare[state]?.map fun old =>
        let room := if target.contains state then tail else old
        if b.Writes unknown state then b.bestValue state buffers.current room
        else room := by
  change (b.writeBest _ _ (write _ _ _))[state]? = _
  rw [getElem?_writeBest, getElem?_write, Option.map_map]
  simp only [BitSet.mem_toList]
  rfl

theorem IsChain.mixes_jumpBack (chain : b.IsChain)
    (disjoint : ∀ state, unknown.contains state = true →
      target.contains state = false)
    {weights : List ℚ} {buffers : Buffers ℚ}
    (mixes : b.Mixes unknown target weights buffers) (weight : ℚ) :
    b.Mixes unknown target (weight :: weights)
      (b.jumpBack unknown.toList target.toList (weight :: weights).sum
        buffers) := by
  refine ⟨Array.ext_getElem? fun state => ?_, ?_, ?_⟩
  · by_cases inside : state < b.numStates
    swap
    · simp [getElem?_jumpBack, meanValues, inside, mixes.size]
    have spare : buffers.spare[state]? = some (buffers.spare.getD state 0) := by
      simp [inside, mixes.size]
    rw [getElem?_jumpBack, getElem?_meanValues inside, spare, Option.map_some]
    congr 1
    by_cases writes : b.Writes unknown state
    · have notTarget := disjoint state writes.1
      obtain ⟨branch, rest, row⟩ := List.exists_cons_of_ne_nil writes.2
      simp only [writes, if_true]
      rw [chain.bestValue_eq_expect row, mixes.current,
        chain.mean_of_writes writes notTarget row]
      simp only [getD_meanValues]
    · simp only [writes, if_false]
      by_cases isTarget : target.contains state = true
      · rw [if_pos isTarget, mean_of_target inside isTarget writes]
      · have notTarget : target.contains state = false := by
          simpa using isTarget
        rw [if_neg isTarget, mixes.idle state notTarget writes,
          mean_of_idle notTarget writes]
  · change buffers.current.size = b.numStates
    simp [mixes.current, meanValues]
  · intro state notTarget kept
    change buffers.current.getD state 0 = 0
    rw [mixes.current, getD_meanValues, mean_of_idle notTarget kept]

/-- Before the first step back there is one weight. -/
theorem mixes_start (weight : ℚ) :
    b.Mixes unknown target [weight]
      (.ofValues (write target.toList (0 + weight)
        (Array.replicate b.numStates 0))) := by
  have start : write target.toList (0 + weight)
      (Array.replicate b.numStates 0) =
        b.meanValues unknown target [weight] := by
    apply Array.ext_getElem?
    intro state
    rw [getElem?_write, Array.getElem?_replicate]
    by_cases inside : state < b.numStates
    · rw [getElem?_meanValues inside, mean_cons, jumpValue_zero]
      simp [inside, mean]
    · simp [inside, meanValues]
  rw [start]
  refine ⟨rfl, by simp [Buffers.ofValues, meanValues], ?_⟩
  intro state notTarget kept
  exact (getD_meanValues _ state).trans (mean_of_idle notTarget kept)

theorem IsChain.mixes_jumpsBack (chain : b.IsChain)
    (disjoint : ∀ state, unknown.contains state = true →
      target.contains state = false)
    (earlier : List ℚ) {weights : List ℚ} {buffers : Buffers ℚ}
    (mixes : b.Mixes unknown target weights buffers) :
    b.Mixes unknown target (earlier.reverse ++ weights)
      (b.jumpsBack unknown.toList target.toList weights.sum buffers
        earlier) := by
  induction earlier generalizing weights buffers with
  | nil => exact mixes
  | cons weight earlier ih =>
      have further := ih (chain.mixes_jumpBack disjoint mixes weight)
      rw [List.sum_cons, add_comm weight] at further
      rw [List.reverse_cons, List.append_assoc]
      exact further

/-- Going back through all weights gives the mean. -/
theorem IsChain.reachWithin_eq_meanValues (chain : b.IsChain)
    (disjoint : ∀ state, unknown.contains state = true →
      target.contains state = false)
    {weights : List ℚ} (nonempty : weights ≠ []) :
    b.reachWithin unknown.toList target.toList weights.reverse =
      b.meanValues unknown target weights := by
  have reversed : weights.reverse ≠ [] := by simpa using nonempty
  obtain ⟨last, earlier, split⟩ := List.exists_cons_of_ne_nil reversed
  have ordered : weights = earlier.reverse ++ [last] := by
    rw [← List.reverse_cons, ← split, List.reverse_reverse]
  have start : b.Mixes unknown target [last] _ := mixes_start last
  have mixes := chain.mixes_jumpsBack disjoint earlier start
  rw [split, ordered, ← mixes.current]
  simp [reachWithin]

/-- What the procedure returns, and when. -/
theorem IsChain.transient_eq_ok_iff {ε : Type} (chain : b.IsChain)
    (disjoint : ∀ state, unknown.contains state = true →
      target.contains state = false)
    {weights : List ℚ} (nonempty : weights ≠ []) {values : Array ℚ} :
    b.transient (ε := ε) unknown target weights = .ok values ↔
      target.isBelow b.numStates = true ∧
      (1 < weights.length → b.ready unknown b.numStates = true) ∧
      values = b.meanValues unknown target weights := by
  have positive := List.length_pos_of_ne_nil nonempty
  have guard : (decide (weights.length = 1) || b.ready unknown b.numStates) =
      true ↔ (1 < weights.length → b.ready unknown b.numStates = true) := by
    rw [Bool.or_eq_true, decide_eq_true_eq, or_iff_not_imp_left]
    refine imp_congr_left ?_
    omega
  unfold transient
  rw [chain.reachWithin_eq_meanValues disjoint nonempty]
  simp only [Attempt.require_bind_eq_ok, guard]
  constructor
  · rintro ⟨-, below, ready, done⟩
    cases done
    exact ⟨below, ready, rfl⟩
  · rintro ⟨below, ready, rfl⟩
    exact ⟨by simpa using nonempty, below, ready, rfl⟩

end Steps

/-- Whether the states of two sets, their directions and their successors
exist. -/
structure Defined (b : Bellman ℚ) (unknown target : BitSet) : Prop where
  unknownBelow : unknown.isBelow b.numStates = true
  targetBelow : target.isBelow b.numStates = true
  directed : b.numStates ≤ b.directions.size
  successors : ∀ state, unknown.contains state = true →
    ∀ branch ∈ b.table.branches state, branch.isBelow b.numStates = true

/-- The transient values of a chain are the mean of its step-bounded values:
the procedure returns exactly if the steps do for every number that has a
weight. -/
theorem transient_eq_mean {ε : Type} {b : Bellman ℚ} (chain : b.IsChain)
    {unknown target : BitSet}
    (disjoint : ∀ state, unknown.contains state = true →
      target.contains state = false)
    {weights : List ℚ} (nonempty : weights ≠ []) :
    (∀ values, b.transient (ε := ε) unknown target weights = .ok values ↔
      ∃ (start : Array ℚ) (vectors : Nat → Array ℚ),
        checkedIndicator (ε := ε) target b.numStates = .ok start ∧
        (∀ count < weights.length,
          b.checkedBounded (ε := ε) unknown count start =
            .ok (vectors count)) ∧
        values = Array.ofFn fun state : Fin b.numStates =>
          mean weights fun count => (vectors count).getD state 0) ∧
    (b.Defined unknown target →
      ∃ values, b.transient (ε := ε) unknown target weights = .ok values) := by
  refine ⟨fun values => ?_, fun defined => ?_⟩
  · rw [chain.transient_eq_ok_iff disjoint nonempty]
    constructor
    · rintro ⟨below, ready, rfl⟩
      refine ⟨indicator target b.numStates,
        fun count => b.bounded unknown count (indicator target b.numStates),
        ?_, ?_, rfl⟩
      · simp only [checkedIndicator, below, Attempt.require_true]
        rfl
      · intro count counted
        refine checkedBounded_eq_ok fun positive => ?_
        rw [size_indicator]
        exact ready (by omega)
    · rintro ⟨start, vectors, started, ran, rfl⟩
      obtain ⟨below, done⟩ := Attempt.require_bind_eq_ok.mp started
      cases done
      refine ⟨below, fun several => ?_, ?_⟩
      · have ready := (checkedBounded_eq_ok_iff.mp (ran 1 several)).1
        rw [size_indicator] at ready
        exact ready Nat.one_pos
      · have same : ∀ state, (mean weights fun count =>
            (vectors count).getD state 0) =
              mean weights (b.jumpValue unknown target state) := by
          intro state
          refine mean_congr fun count counted => ?_
          rw [← (checkedBounded_eq_ok_iff.mp (ran count counted)).2]
          rfl
        simp only [same]
        rfl
  · refine ⟨_, (chain.transient_eq_ok_iff disjoint nonempty).mpr
      ⟨defined.targetBelow, fun _ => ?_, rfl⟩⟩
    exact ready_of_below (by simp [chain.unrewarded])
      (BitSet.isBelow_iff.mp defined.unknownBelow) defined.directed le_rfl
      defined.successors

/-- A chain in which two states lead to each other and on, one to a state that
has no way on and one to the last state. -/
def ferry : Bellman ℚ where
  table := ⟨#[[[(1, 1 / 2), (2, 1 / 2)]], [[(0, 1 / 3), (3, 2 / 3)]], [],
    [[(3, 1)]]]⟩
  directions := #[none, none, none, none]
  rewards := none
  options := ⟨true, .absolute, 1 / 1000, 100, .valueIteration, 20, false⟩

theorem ferry_transient_eq_mean :
    ferry.IsChain ∧ ferry.Defined (.ofList [0, 1, 2]) (.ofList [3]) ∧
    ferry.transient (ε := Empty) (.ofList [0, 1, 2]) (.ofList [3])
      [1 / 4, 1 / 2, 1 / 8] = .ok #[1 / 24, 5 / 12, 0, 7 / 8] := by
  have chain : ferry.IsChain := ⟨by simp [ferry], rfl⟩
  have defined : ferry.Defined (.ofList [0, 1, 2]) (.ofList [3]) := by
    refine ⟨by decide +kernel, by decide +kernel, by decide +kernel, ?_⟩
    have listed : ∀ state ∈ [0, 1, 2], ∀ branch ∈ ferry.table.branches state,
        branch.isBelow ferry.numStates = true := by decide +kernel
    intro state member
    exact listed state (by simpa using member)
  have disjoint : ∀ state, (BitSet.ofList [0, 1, 2]).contains state = true →
      (BitSet.ofList [3]).contains state = false := by
    have listed : ∀ state ∈ [0, 1, 2],
        (BitSet.ofList [3]).contains state = false := by decide +kernel
    intro state member
    exact listed state (by simpa using member)
  refine ⟨chain, defined, ?_⟩
  refine ((transient_eq_mean chain disjoint (by simp)).1 _).mpr
    ⟨_, fun count => ferry.bounded (.ofList [0, 1, 2]) count
      (indicator (.ofList [3]) 4), rfl, fun count _ => ?_, by decide +kernel⟩
  exact checkedBounded_eq_ok fun _ => by decide +kernel

end Bellman

end Markov
