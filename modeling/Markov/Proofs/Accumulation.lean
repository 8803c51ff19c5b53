import Mathlib.Data.Matrix.Mul
import Markov.Checker.Continuous
import Markov.Proofs.Mixture
import Markov.Proofs.Residual
import Markov.Proofs.Uniformisation

/-!
# Accumulated rewards

The reward that a chain earns up to a point in time is a series: of the rewards
that are earned at each jump, each counted with the mean time that is spent
before the next one.  The procedure adds up the terms while it multiplies a
vector by the matrix of the jumps, and `accumulate_ofFn` is what it has after
any number of terms.
-/

namespace Markov

namespace Branch

theorem isBelow_uniformised (q : ℚ) {state n : Nat} (inside : state < n)
    (branch : Branch ℚ) :
    isBelow (branch.uniformised q state) n = branch.isBelow n := by
  have stays : (staying q state branch).isBelow n = true := by
    apply List.all_eq_true.mpr
    intro entry member
    simpa [(mem_staying member).1] using inside
  have moves : (moving q state branch).isBelow n = branch.isBelow n := by
    rw [moving, isBelow, isBelow, List.all_map, List.all_filter]
    apply congrArg
    funext entry
    by_cases here : entry.1 = state
    · simp [here, inside]
    · simp [here]
  rw [uniformised_eq, isBelow, List.all_append]
  exact (congrArg₂ _ moves stays).trans (Bool.and_true _)

theorem expect_getD_ofFn {n : Nat} (branch : Branch ℚ) (v : Fin n → ℚ) :
    (branch.expect fun target => (Array.ofFn v).getD target 0) =
      ∑ target : Fin n, branch.weight target * v target := by
  induction branch with
  | nil => simp [expect, weight]
  | cons entry branch ih =>
      simp only [expect_cons, weight_cons, ih, add_mul, Finset.sum_add_distrib]
      congr 1
      by_cases inside : entry.1 < n
      · rw [Finset.sum_eq_single ⟨entry.1, inside⟩]
        · simp [inside]
        · intro target _ apart
          have other : entry.1 ≠ target := fun same =>
            apart (Fin.ext same.symm)
          rw [if_neg other, zero_mul]
        · intro absent
          exact absurd (Finset.mem_univ _) absent
      · rw [Finset.sum_eq_zero]
        · simp [inside]
        · intro target _
          have other : entry.1 ≠ target := fun same => inside (same ▸ target.2)
          rw [if_neg other, zero_mul]

end Branch

namespace Table

/-- The probabilities of the jumps of a chain, when jumps happen at the rate
`q`.  A state without choices stays as it is. -/
def jumpMatrix (rates : Table ℚ) (q : ℚ) :
    Matrix (Fin rates.numStates) (Fin rates.numStates) ℚ := fun state target =>
  match rates.branches state with
  | [] => if state = target then 1 else 0
  | branch :: _ => Branch.weight (branch.uniformised q state) target

/-- The rates at which the states of a chain earn rewards. -/
def earningRates (rates : Table ℚ) (rewards : RewardStructure ℚ) :
    Fin rates.numStates → ℚ := fun state =>
  match rates.branches state with
  | [] => rewards.ofState state
  | branch :: _ =>
    rewards.ofState state + rewards.ofChoice state 0 * branch.total

/-- The first choice of every state leads to states of the table. -/
def FirstClosed {R : Type} [Scalar R] (t : Table R) : Prop :=
  ∀ state, ∀ branch ∈ (t.branches state).head?,
    branch.isBelow t.numStates = true

theorem jumpMatrix_mulVec_of_nil {rates : Table ℚ} {q : ℚ}
    {state : Fin rates.numStates} (row : rates.branches state = [])
    (v : Fin rates.numStates → ℚ) :
    ((rates.jumpMatrix q).mulVec v) state = v state := by
  simp [Matrix.mulVec, dotProduct, jumpMatrix, row]

theorem jumpMatrix_mulVec_of_cons {rates : Table ℚ} {q : ℚ}
    {state : Fin rates.numStates} {branch : Branch ℚ} {rest : List (Branch ℚ)}
    (row : rates.branches state = branch :: rest)
    (v : Fin rates.numStates → ℚ) :
    ((rates.jumpMatrix q).mulVec v) state =
      Branch.expect (branch.uniformised q state) fun target =>
        (Array.ofFn v).getD target 0 := by
  rw [Branch.expect_getD_ofFn]
  simp [Matrix.mulVec, dotProduct, jumpMatrix, row]

end Table

namespace Checker

/-- The equations of the jumps of a chain. -/
def jumpChain (options : Options ℚ) (rates : Table ℚ) (q : ℚ) : Bellman ℚ :=
  ⟨rates.uniformised q, Array.replicate rates.numStates none, none, options⟩

variable (options : Options ℚ) (rates : Table ℚ) (q : ℚ)

theorem jumpChain_isChain : (jumpChain options rates q).IsChain :=
  ⟨fun _ member => Array.eq_of_mem_replicate member, rfl⟩

theorem numStates_jumpChain :
    (jumpChain options rates q).numStates = rates.numStates := by
  simp [jumpChain, Bellman.numStates, Table.numStates, Table.uniformised]

theorem bestValue_jumpChain (v : Fin rates.numStates → ℚ)
    (state : Fin rates.numStates) :
    (jumpChain options rates q).bestValue state (Array.ofFn v) (v state) =
      ((rates.jumpMatrix q).mulVec v) state := by
  have branches : (jumpChain options rates q).table.branches state =
      (rates.branches state).map (Branch.uniformised q state) :=
    rates.branches_uniformised q state
  cases row : rates.branches state with
  | nil =>
      rw [row, List.map_nil] at branches
      rw [Table.jumpMatrix_mulVec_of_nil row, Bellman.bestValue,
        Bellman.best_eq_none_iff.mpr branches]
  | cons branch rest =>
      rw [row, List.map_cons] at branches
      rw [Table.jumpMatrix_mulVec_of_cons row]
      exact (jumpChain_isChain options rates q).bestValue_eq_expect branches _ _

theorem advance_ofFn (v : Fin rates.numStates → ℚ) :
    (jumpChain options rates q).advance (Array.ofFn v) =
      Array.ofFn ((rates.jumpMatrix q).mulVec v) := by
  apply Array.ext
  · simp [Bellman.advance]
  · intro state _ inside
    rw [Array.size_ofFn] at inside
    simpa [Bellman.advance] using
      bestValue_jumpChain options rates q v ⟨state, inside⟩

/-- The reward that is still to come: the terms of the series from the weight
`seen` on. -/
def series {n : Nat} (matrix : Matrix (Fin n) (Fin n) ℚ) (q seen : ℚ)
    (weights : List ℚ) (v : Fin n → ℚ) (state : Fin n) : ℚ :=
  ∑ i ∈ Finset.range weights.length,
    max 0 (1 - (seen + (weights.take (i + 1)).sum)) / q *
      ((matrix ^ i).mulVec v) state

theorem series_cons {n : Nat} (matrix : Matrix (Fin n) (Fin n) ℚ)
    (q seen weight : ℚ) (rest : List ℚ) (v : Fin n → ℚ) (state : Fin n) :
    series matrix q seen (weight :: rest) v state =
      max 0 (1 - (seen + weight)) / q * v state +
        series matrix q (seen + weight) rest (matrix.mulVec v) state := by
  simp only [series, List.length_cons, Finset.sum_range_succ',
    List.take_succ_cons, List.sum_cons, Matrix.mulVec_mulVec, ← pow_succ,
    ← add_assoc]
  simp [add_comm]

/-- The loop adds the terms of the series that are still to come. -/
theorem accumulate_ofFn (weights : List ℚ) (seen : ℚ)
    (earned v : Fin rates.numStates → ℚ) :
    (jumpChain options rates q).accumulate q seen (Array.ofFn earned)
        (Array.ofFn v) weights =
      Array.ofFn fun state => earned state +
        series (rates.jumpMatrix q) q seen weights v state := by
  induction weights generalizing seen earned v with
  | nil => simp [Bellman.accumulate, series]
  | cons weight rest ih =>
      have term : (Array.ofFn earned).zipWith (fun old rate =>
            old + Scalar.larger (1 - (seen + weight)) 0 / q * rate)
            (Array.ofFn v) =
          Array.ofFn fun state =>
            earned state + max 0 (1 - (seen + weight)) / q * v state := by
        rw [Scalar.larger_eq_max, max_comm]
        apply Array.ext
        · simp
        · intro state _ _
          simp
      rw [Bellman.accumulate, term, advance_ofFn]
      simp only [series_cons, ← add_assoc]
      cases rest with
      | nil => simp [series]
      | cons next later => exact ih (seen + weight) _ _

theorem rewardRates_eq (rewards : RewardStructure ℚ) :
    rewardRates rewards rates = Array.ofFn (rates.earningRates rewards) := by
  apply Array.ext
  · rw [Array.size_ofFn, rewardRates, Array.size_mapIdx, Table.numStates]
  · intro state inside _
    have bound : state < rates.rows.size := by simpa [rewardRates] using inside
    have row : rates.branches state = rates.rows[state] := by
      simp [Table.branches, bound]
    simp only [rewardRates, Array.getElem_mapIdx, Array.getElem_ofFn,
      Table.earningRates, row]
    cases rates.rows[state] with
    | nil => exact add_zero _
    | cons branch rest => rfl

theorem bestReady_jumpChain_iff {state : Nat}
    (inside : state < rates.numStates) :
    (jumpChain options rates q).bestReady rates.numStates state = true ↔
      ∀ branch ∈ (rates.branches state).head?,
        branch.isBelow rates.numStates = true := by
  have branches : (jumpChain options rates q).table.branches state =
      (rates.branches state).map (Branch.uniformised q state) :=
    rates.branches_uniformised q state
  have counted : state < (jumpChain options rates q).numStates := by
    rwa [numStates_jumpChain]
  have direction : (jumpChain options rates q).direction state = none := by
    simp [jumpChain, Bellman.direction, inside]
  have sized : state < (jumpChain options rates q).directions.size := by
    simpa [jumpChain] using inside
  rw [Bellman.bestReady, Bellman.row_eq_branches counted, branches]
  cases rates.branches state with
  | nil => simp
  | cons branch rest =>
      have ready : (jumpChain options rates q).branchReady rates.numStates state 0
          (branch.uniformised q state) = branch.isBelow rates.numStates :=
        branch.isBelow_uniformised q inside
      simp [sized, direction, ready]

theorem all_bestReady_jumpChain_iff :
    (List.range rates.numStates).all
        ((jumpChain options rates q).bestReady rates.numStates) = true ↔
      rates.FirstClosed := by
  rw [List.all_eq_true]
  constructor
  · intro ready state branch first
    have inside : state < rates.numStates := by
      by_contra outside
      have absent : rates.rows[state]? = none := by
        simpa [Table.numStates] using outside
      simp [Table.branches, absent] at first
    exact (bestReady_jumpChain_iff options rates q inside).mp
      (ready state (List.mem_range.mpr inside)) branch first
  · intro closed state member
    exact (bestReady_jumpChain_iff options rates q
      (List.mem_range.mp member)).mpr (closed state)

/-- The expected rewards of a chain, for any weights of the numbers of jumps:
at every state they are the sum of the rewards that are earned after each number
of jumps, each for the mean time until the next jump. -/
theorem uniformisedReward_eq_series {ε : Type} (rewards : RewardStructure ℚ)
    (weights : List ℚ) (values : Array ℚ) :
    (uniformisedReward options rates rewards q weights : Attempt ε _) =
        .ok values ↔
      (weights.length ≤ 1 ∨ rates.FirstClosed) ∧
      values = Array.ofFn fun state =>
        ∑ i ∈ Finset.range weights.length,
          max 0 (1 - (weights.take (i + 1)).sum) / q *
            ((rates.jumpMatrix q ^ i).mulVec (rates.earningRates rewards))
              state := by
  have start : Array.replicate rates.numStates (0 : ℚ) =
      Array.ofFn fun _ : Fin rates.numStates => 0 := by
    apply Array.ext
    · simp
    · intro state _ _
      simp
  have guarded := all_bestReady_jumpChain_iff options rates q
  have total := accumulate_ofFn options rates q weights 0 (fun _ => 0)
    (rates.earningRates rewards)
  simp only [series, zero_add] at total
  rw [← total, ← start, ← rewardRates_eq]
  change Bellman.earnings (jumpChain options rates q) q _ weights = _ ↔ _
  rw [Bellman.earnings, Attempt.require_bind_eq_ok, numStates_jumpChain,
    Bool.or_eq_true, guarded, decide_eq_true_eq]
  exact and_congr_right fun _ => ⟨fun found => (Except.ok.inj found).symm,
    fun same => congrArg Except.ok same.symm⟩

end Checker

end Markov
