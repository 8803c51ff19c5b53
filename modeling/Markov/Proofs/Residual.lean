import Mathlib.Algebra.Order.AbsoluteValue.Basic
import Markov.Proofs.Exact
import Markov.Proofs.Methods

/-!
# Residuals of solutions

No method looks at the equation again when it stops.  Still, over exact
arithmetic every result solves it up to the tolerance.  The reason is that a
best value moves by no more than the values that it is computed from, if the
weights of a choice sum to at most one.  So a value is close to its best value
as soon as it is the best value of a close vector: of the vector before the
last step, of the one that a sweep in place has found, or of one that the
choice of a stable policy has found.
-/

namespace Markov

/-- A table in which the weights of every choice sum to at most one. -/
def Table.SubStochastic (t : Table ℚ) : Prop :=
  ∀ row ∈ t.rows, ∀ branch ∈ row, Branch.total branch ≤ 1

instance (t : Table ℚ) : Decidable t.SubStochastic :=
  inferInstanceAs (Decidable (∀ row ∈ t.rows, ∀ branch ∈ row, _ ≤ _))

theorem Table.SubStochastic.branch {t : Table ℚ} (totals : t.SubStochastic)
    {state : Nat} {branch : Branch ℚ} (member : branch ∈ t.branches state) :
    branch.total ≤ 1 := by
  obtain ⟨row, rowMember, branchMember⟩ :=
    Table.mem_rows_of_mem_branches member
  exact totals row rowMember branch branchMember

/-- Two vectors differ by at most `distance` in every entry; missing entries
count as zero. -/
def Within (distance : ℚ) (x y : Array ℚ) : Prop :=
  ∀ state, |x.getD state 0 - y.getD state 0| ≤ distance

namespace Within

variable {distance : ℚ} {x y : Array ℚ}

theorem symm (within : Within distance x y) : Within distance y x := by
  intro state
  rw [abs_sub_comm]
  exact within state

theorem nonneg (within : Within distance x y) : 0 ≤ distance :=
  (abs_nonneg _).trans (within 0)

theorem mono {larger : ℚ} (within : Within distance x y)
    (below : distance ≤ larger) : Within larger x y :=
  fun state => (within state).trans below

end Within

/-! ## Differences -/

theorem Scalar.larger_eq_max (a b : ℚ) : larger a b = max a b := by
  unfold larger
  rw [if_pos (beq_self_eq_true b)]
  split
  · rename_i below
    exact (max_eq_left (le_of_lt below)).symm
  · rename_i notBelow
    exact (max_eq_right (not_lt.mp notBelow)).symm

theorem Scalar.magnitude_eq_abs (a : ℚ) : magnitude a = |a| := by
  unfold magnitude
  split
  · rename_i negative
    exact (abs_of_neg negative).symm
  · rename_i notNegative
    exact (abs_of_nonneg (not_lt.mp notNegative)).symm

theorem Criterion.gap_absolute (old new : ℚ) :
    absolute.gap old new = |new - old| := by
  unfold gap
  split
  · rename_i same
    rw [eq_of_beq same, sub_self, abs_zero]
  · exact Scalar.magnitude_eq_abs _

private theorem le_foldl_larger {α : Type} (size : α → ℚ) (entries : List α)
    (start : ℚ) :
    start ≤ entries.foldl
        (fun largest entry => Scalar.larger largest (size entry)) start ∧
      ∀ entry ∈ entries, size entry ≤ entries.foldl
        (fun largest entry => Scalar.larger largest (size entry)) start := by
  induction entries generalizing start with
  | nil => exact ⟨le_rfl, by simp⟩
  | cons first entries ih =>
      rw [List.foldl_cons]
      obtain ⟨above, others⟩ := ih (Scalar.larger start (size first))
      replace above := (Scalar.larger_eq_max _ _).ge.trans above
      constructor
      · exact (le_max_left _ _).trans above
      · intro entry member
        rcases List.mem_cons.mp member with rfl | later
        · exact (le_max_right _ _).trans above
        · exact others entry later

theorem Criterion.within_distance {x y : Array ℚ} (size : x.size = y.size) :
    Within (absolute.distance x y) y x := by
  intro state
  unfold distance
  rw [← Array.foldl_toList]
  obtain ⟨nonneg, entries⟩ := le_foldl_larger
    (fun pair : ℚ × ℚ => absolute.gap pair.1 pair.2) (x.zip y).toList 0
  by_cases inside : state < x.size
  · have alsoInside : state < y.size := size ▸ inside
    have member : (x[state], y[state]) ∈ (x.zip y).toList := by
      rw [Array.mem_toList_iff]
      apply Array.mem_of_getElem? (i := state)
      simp [inside, alsoInside]
    have entry := entries _ member
    rw [gap_absolute] at entry
    simpa [inside, alsoInside] using entry
  · have alsoOutside : ¬state < y.size := size ▸ inside
    simpa [inside, alsoOutside] using nonneg

/-! ## Values of close vectors -/

theorem Branch.dot_le_add {branch : Branch ℚ} (weights : branch.NonNegative)
    (total : branch.total ≤ 1) {distance : ℚ} {x y : Array ℚ}
    (within : Within distance x y) :
    branch.dot x ≤ branch.dot y + distance := by
  have moved : branch.dot x - branch.dot y ≤ branch.total * distance := by
    rw [dot_eq_expect, dot_eq_expect, ← expect_sub, ← expect_const]
    exact expect_mono weights fun entry _ _ =>
      (le_abs_self _).trans (within entry.1)
  have bounded : branch.total * distance ≤ 1 * distance :=
    mul_le_mul_of_nonneg_right total within.nonneg
  linarith

namespace Bellman

section Exact

variable {b : Bellman ℚ} {distance : ℚ} {x y : Array ℚ}

theorem choiceValue_le_add (weights : b.table.NonNegative)
    (totals : b.table.SubStochastic) (within : Within distance x y)
    (state choice : Nat) :
    b.choiceValue state choice x ≤ b.choiceValue state choice y + distance := by
  unfold choiceValue branchValue
  rw [add_assoc]
  apply add_le_add_right
  by_cases inside : choice < (b.table.branches state).length
  · have member : (b.table.branches state)[choice] ∈ b.table.branches state :=
      List.getElem_mem inside
    have moved := Branch.dot_le_add (weights.branch member)
      (totals.branch member) within
    simpa [inside] using moved
  · simpa [inside, Branch.dot, Scalar.sum] using within.nonneg

theorem bestValue_le_add (weights : b.table.NonNegative)
    (totals : b.table.SubStochastic) (within : Within distance x y)
    {state : Nat} (branches : b.table.branches state ≠ []) :
    b.bestValue state x 0 ≤ b.bestValue state y 0 + distance := by
  cases directed : b.direction state with
  | none =>
      rw [bestValue_of_undirected directed branches,
        bestValue_of_undirected directed branches]
      exact choiceValue_le_add weights totals within state 0
  | some direction =>
      cases direction with
      | min =>
          have best : b.bestValue state x 0 ≤
              b.choiceValue state (b.bestChoice state y) x :=
            bestValue_notWorse directed (bestChoice_lt branches y) x 0
          rw [bestValue_eq_choiceValue branches y]
          exact best.trans (choiceValue_le_add weights totals within state _)
      | max =>
          have best : b.choiceValue state (b.bestChoice state x) y ≤
              b.bestValue state y 0 :=
            bestValue_notWorse directed (bestChoice_lt branches x) y 0
          have moved := choiceValue_le_add weights totals within state
            (b.bestChoice state x)
          rw [bestValue_eq_choiceValue branches x]
          linarith

theorem abs_choiceValue_sub_le (weights : b.table.NonNegative)
    (totals : b.table.SubStochastic) (within : Within distance x y)
    (state choice : Nat) :
    |b.choiceValue state choice x - b.choiceValue state choice y| ≤
      distance := by
  rw [abs_sub_le_iff]
  have forth := choiceValue_le_add weights totals within state choice
  have back := choiceValue_le_add weights totals within.symm state choice
  constructor <;> linarith

/-- A best value moves by no more than the values it is computed from. -/
theorem abs_bestValue_sub_le (weights : b.table.NonNegative)
    (totals : b.table.SubStochastic) (within : Within distance x y)
    {state : Nat} (branches : b.table.branches state ≠ []) :
    |b.bestValue state x 0 - b.bestValue state y 0| ≤ distance := by
  rw [abs_sub_le_iff]
  have forth := bestValue_le_add weights totals within branches
  have back := bestValue_le_add weights totals within.symm branches
  constructor <;> linarith

end Exact

/-! ## The last sweep in place -/

section Sweep

variable {b : Bellman ℚ} {value : Nat → Array ℚ → ℚ} {states : List Nat}
  {sweep : Array ℚ × ℚ}

theorem le_replace (state : Nat) (new : ℚ) (sweep : Array ℚ × ℚ) :
    sweep.2 ≤ (b.replace state new sweep).2 :=
  (le_max_left _ _).trans (Scalar.larger_eq_max _ _).ge

theorem abs_sub_le_replace (absolute : b.options.criterion = .absolute)
    (state : Nat) (new : ℚ) (sweep : Array ℚ × ℚ) :
    |new - sweep.1.getD state 0| ≤ (b.replace state new sweep).2 := by
  rw [← Criterion.gap_absolute, ← absolute]
  exact (le_max_right _ _).trans (Scalar.larger_eq_max _ _).ge

theorem le_updateInTurn (value : Nat → Array ℚ → ℚ) (states : List Nat)
    (sweep : Array ℚ × ℚ) :
    sweep.2 ≤ (b.updateInTurn value states sweep).2 := by
  induction states generalizing sweep with
  | nil => exact le_rfl
  | cons state states ih =>
      by_cases noBranches : b.table.branches state = []
      · rw [updateInTurn_cons_of_no_branches noBranches]
        exact ih sweep
      · rw [updateInTurn_cons_of_branches noBranches]
        exact (le_replace state _ sweep).trans (ih _)

/-- A sweep that meets every state once moves no value by more than the
difference it reports. -/
theorem within_updateInTurn (value : Nat → Array ℚ → ℚ)
    (absolute : b.options.criterion = .absolute) (once : states.Nodup)
    (nonneg : 0 ≤ sweep.2) :
    Within (b.updateInTurn value states sweep).2
      (b.updateInTurn value states sweep).1 sweep.1 := by
  induction states generalizing sweep with
  | nil =>
      intro state
      simpa [updateInTurn] using nonneg
  | cons first states ih =>
      obtain ⟨absent, once⟩ := List.nodup_cons.mp once
      by_cases noBranches : b.table.branches first = []
      · rw [updateInTurn_cons_of_no_branches noBranches]
        exact ih once nonneg
      · rw [updateInTurn_cons_of_branches noBranches]
        set replaced := b.replace first (value first sweep.1) sweep with isReplaced
        have above := le_updateInTurn (b := b) value states replaced
        have nonneg' : 0 ≤ replaced.2 :=
          nonneg.trans (le_replace first _ sweep)
        intro state
        by_cases same : state = first
        · subst same
          -- No later replacement touches the value of this state.
          rw [Array.getD_eq_getD_getElem?,
            getElem?_updateInTurn_of_not_mem absent,
            ← Array.getD_eq_getD_getElem?]
          by_cases inside : state < sweep.1.size
          · have written : replaced.1.getD state 0 = value state sweep.1 := by
              simp [isReplaced, replace, inside]
            rw [written]
            exact (abs_sub_le_replace absolute state _ sweep).trans above
          · have unwritten : replaced.1.getD state 0 = sweep.1.getD state 0 := by
              simp [isReplaced, replace, inside]
            rw [unwritten, sub_self, abs_zero]
            exact nonneg'.trans above
        · have kept : replaced.1.getD state 0 = sweep.1.getD state 0 := by
            simp [isReplaced, replace, Array.getElem?_setIfInBounds_ne
              (Ne.symm same)]
          rw [← kept]
          exact ih once nonneg' state

/-- Every value that a sweep leaves was computed from a vector that is close to
the one it leaves. -/
theorem exists_seen_updateInTurn (value : Nat → Array ℚ → ℚ)
    (absolute : b.options.criterion = .absolute) (once : states.Nodup)
    (sweep : Array ℚ × ℚ) (nonneg : 0 ≤ sweep.2) {state : Nat} (member : state ∈ states)
    (branches : b.table.branches state ≠ [])
    (inside : state < sweep.1.size) :
    ∃ seen, (b.updateInTurn value states sweep).1.getD state 0 =
        value state seen ∧
      Within (b.updateInTurn value states sweep).2
        (b.updateInTurn value states sweep).1 seen := by
  induction states generalizing sweep with
  | nil => cases member
  | cons first states ih =>
      have close := within_updateInTurn value absolute once nonneg
      obtain ⟨absent, once⟩ := List.nodup_cons.mp once
      rcases List.mem_cons.mp member with rfl | later
      · refine ⟨sweep.1, ?_, close⟩
        rw [updateInTurn_cons_of_branches branches,
          Array.getD_eq_getD_getElem?,
          getElem?_updateInTurn_of_not_mem absent]
        simp [replace, inside]
      · by_cases noBranches : b.table.branches first = []
        · rw [updateInTurn_cons_of_no_branches noBranches]
          exact ih once sweep nonneg later inside
        · rw [updateInTurn_cons_of_branches noBranches]
          apply ih once _ (nonneg.trans (le_replace first _ sweep)) later
          simpa [replace] using inside

/-- What a run of sweeps ends with, if its last sweep made little difference. -/
theorem exists_seen_of_last {inPlace : Array ℚ → Array ℚ × ℚ}
    (isUpdate : ∀ y, inPlace y = b.updateInTurn value states (y, 0))
    (absolute : b.options.criterion = .absolute) (once : states.Nodup)
    {x values : Array ℚ} {count : Nat} {delta tolerance : ℚ}
    (small : delta < tolerance)
    (last : inPlace ((fun y => (inPlace y).1)^[count] x) = (values, delta))
    {state : Nat} (member : state ∈ states)
    (branches : b.table.branches state ≠ []) (inside : state < x.size) :
    state < values.size ∧
      ∃ seen, values.getD state 0 = value state seen ∧
        Within tolerance values seen := by
  have size : ∀ count, ((fun y => (inPlace y).1)^[count] x).size = x.size := by
    intro count
    induction count with
    | zero => rfl
    | succ count ih => rw [Function.iterate_succ_apply', isUpdate,
        size_updateInTurn, ih]
  have before := size count
  rw [isUpdate] at last
  have after := b.size_updateInTurn value states
    ((fun y => (inPlace y).1)^[count] x, 0)
  obtain ⟨seen, computed, near⟩ := exists_seen_updateInTurn value absolute once
    ((fun y => (inPlace y).1)^[count] x, 0) le_rfl member branches
    (before.symm ▸ inside)
  rw [last] at after computed near
  dsimp only at after
  exact ⟨by omega, seen, computed, near.mono (le_of_lt small)⟩

end Sweep

/-! ## The last sweep of every method -/

/-- A vector solves the equations of the states of `unknown` up to a tolerance,
and has the values of the start vector wherever there is no equation. -/
structure SolvesWithin (b : Bellman ℚ) (unknown : BitSet) (tolerance : ℚ)
    (start values : Array ℚ) : Prop where
  size : values.size = start.size
  kept : ∀ state, ¬b.Writes unknown state → values[state]? = start[state]?
  close : ∀ state, b.Writes unknown state →
    ∃ best choice value, b.best state values = some (best, choice) ∧
      values[state]? = some value ∧ |best - value| ≤ tolerance

variable {b : Bellman ℚ} {unknown : BitSet} {x : Array ℚ}
  {solution : Solution ℚ}

/-- The best value of a state is within the tolerance of its value. -/
def Close (b : Bellman ℚ) (values : Array ℚ) (state : Nat) : Prop :=
  state < values.size ∧
    |b.bestValue state values 0 - values.getD state 0| ≤ b.options.tolerance

theorem close_valueIteration (absolute : b.options.criterion = .absolute)
    (weights : b.table.NonNegative) (totals : b.table.SubStochastic)
    (found : b.valueIteration unknown x = .ok solution) {state : Nat}
    (writes : b.Writes unknown state) : b.Close solution.values state := by
  obtain ⟨ready, count, values, small⟩ := valueIteration_eq_ok found
  rw [← bounded_eq_iterate, ← bounded_eq_iterate, absolute] at small
  rw [← bounded_eq_iterate] at values
  have inside := lt_size_of_ready ready writes
  have near : Within b.options.tolerance (b.bounded unknown (count + 1) x)
      (b.bounded unknown count x) :=
    (Criterion.within_distance (by simp)).mono (le_of_lt small)
  rw [values]
  refine ⟨by simpa using inside, ?_⟩
  rw [getD_bounded_succ writes inside]
  exact abs_bestValue_sub_le weights totals near writes.2

theorem close_gaussSeidel (absolute : b.options.criterion = .absolute)
    (weights : b.table.NonNegative) (totals : b.table.SubStochastic)
    (found : b.gaussSeidel unknown x = .ok solution) {state : Nat}
    (writes : b.Writes unknown state) : b.Close solution.values state := by
  obtain ⟨ready, count, delta, small, last⟩ := gaussSeidel_eq_ok found
  obtain ⟨inside, seen, computed, near⟩ := exists_seen_of_last
    (b.inPlaceSweep_eq unknown.toList) absolute (BitSet.nodup_toList unknown)
    small last (BitSet.mem_toList.mpr writes.1) writes.2
    (lt_size_of_ready ready writes)
  refine ⟨inside, ?_⟩
  rw [computed]
  exact abs_bestValue_sub_le weights totals near writes.2

/-- The best value under a policy that is not improved is that of its choice. -/
theorem bestValue_of_unchanged {policy : Array Nat}
    (unchanged : (b.improve policy unknown x).changed = false) {state : Nat}
    (writes : b.Writes unknown state) {direction : Direction}
    (directed : b.direction state = some direction)
    (valid : policy.getD state 0 < (b.table.branches state).length) :
    b.bestValue state x 0 = b.choiceValue state (policy.getD state 0) x := by
  cases best : b.best state x with
  | none => exact (writes.2 (best_eq_none_iff.mp best)).elim
  | some found =>
      obtain ⟨value, choice⟩ := found
      have isBest : b.bestValue state x 0 = value := by
        simp [bestValue, best]
      rcases improve_unchanged unchanged writes.1 best directed with
        taken | notBetter
      · rw [isBest, (best_spec best).2, taken]
      · have notWorse := bestValue_notWorse directed valid x 0
        rw [isBest] at notWorse ⊢
        cases direction with
        | min => exact le_antisymm notWorse (by
            simpa [Direction.better] using notBetter)
        | max => exact le_antisymm (by
            simpa [Direction.better] using notBetter) notWorse

private theorem lastDelta_improveAt {x : Array ℚ} {i : Improvement ℚ}
    {state : Nat} {value : ℚ} {choice : Nat} {direction : Direction}
    (best : b.best state x = some (value, choice))
    (directed : b.direction state = some direction) :
    (b.improveAt x i state).lastDelta = Scalar.larger i.lastDelta
      (b.options.criterion.gap (x.getD state 0) value) := by
  unfold improveAt
  simp only [best, directed]
  split
  · rfl
  · rfl

private theorem le_improveAt (x : Array ℚ) (i : Improvement ℚ) (state : Nat) :
    i.lastDelta ≤ (b.improveAt x i state).lastDelta := by
  cases best : b.best state x with
  | none => simp [improveAt, best]
  | some found =>
      cases directed : b.direction state with
      | none => simp [improveAt, best, directed]
      | some direction =>
          rw [lastDelta_improveAt best directed, Scalar.larger_eq_max]
          exact le_max_left _ _

private theorem le_foldl_improveAt (x : Array ℚ) (states : List Nat)
    (i : Improvement ℚ) :
    i.lastDelta ≤ (states.foldl (b.improveAt x) i).lastDelta := by
  induction states generalizing i with
  | nil => exact le_rfl
  | cons state states ih => exact (le_improveAt x i state).trans (ih _)

private theorem gap_le_foldl_improveAt {x : Array ℚ} {states : List Nat}
    (i : Improvement ℚ) {state : Nat} (member : state ∈ states) {value : ℚ}
    {choice : Nat} {direction : Direction}
    (best : b.best state x = some (value, choice))
    (directed : b.direction state = some direction) :
    b.options.criterion.gap (x.getD state 0) value ≤
      (states.foldl (b.improveAt x) i).lastDelta := by
  induction states generalizing i with
  | nil => cases member
  | cons first states ih =>
      rcases List.mem_cons.mp member with rfl | later
      · have here := lastDelta_improveAt (i := i) best directed
        rw [Scalar.larger_eq_max] at here
        exact (le_max_right _ _).trans
          (here.ge.trans (le_foldl_improveAt x states _))
      · exact ih (b.improveAt x i first) later

/-- An attempt to improve a policy measures how far values are from their best
values. -/
theorem abs_bestValue_sub_le_improve
    (absolute : b.options.criterion = .absolute) (policy : Array Nat)
    {x : Array ℚ} {state : Nat} (writes : b.Writes unknown state)
    {direction : Direction} (directed : b.direction state = some direction) :
    |b.bestValue state x 0 - x.getD state 0| ≤
      (b.improve policy unknown x).lastDelta := by
  cases best : b.best state x with
  | none => exact (writes.2 (best_eq_none_iff.mp best)).elim
  | some found =>
      have gap := gap_le_foldl_improveAt ⟨policy, false, 0⟩
        (BitSet.mem_toList.mpr writes.1) best directed
      rw [absolute, Criterion.gap_absolute] at gap
      simpa [bestValue, best, improve] using gap

theorem lt_of_improveReady {policy : Array Nat} {size : Nat}
    (ready : b.improveReady policy unknown size = true) {state : Nat}
    (writes : b.Writes unknown state) :
    state < b.directions.size ∧
      (b.direction state ≠ none → state < size ∧
        policy.getD state 0 < (b.table.branches state).length) := by
  have here := List.all_eq_true.mp ready state
    (BitSet.mem_toList.mpr writes.1)
  simp only [Bool.and_eq_true, Bool.or_eq_true, decide_eq_true_eq,
    List.isEmpty_iff, Option.isNone_iff_eq_none] at here
  obtain ⟨⟨-, known⟩, (noBranches | undirected) | policyReady⟩ := here
  · exact (writes.2 noBranches).elim
  · exact ⟨known, fun directed => (directed undirected).elim⟩
  · exact ⟨known, fun _ => lt_of_policyReadyAt policyReady writes.2⟩

theorem close_policyIteration (absolute : b.options.criterion = .absolute)
    (weights : b.table.NonNegative) (totals : b.table.SubStochastic)
    {seed : Option (Array Nat)} {sweeps : Option Nat} {method : Method}
    (found : b.policyIteration unknown x seed sweeps method = .ok solution)
    {state : Nat} (writes : b.Writes unknown state)
    (hasDirection : b.directions[state]? ≠ some none) :
    b.Close solution.values state := by
  obtain ⟨policy, before, run, -, last, values⟩ :=
    policyIteration_eq_ok (fun _ => True) (fun _ _ _ _ _ _ => trivial) trivial
      found
  obtain ⟨known, valid⟩ := lt_of_improveReady last.ready writes
  obtain ⟨direction, directed⟩ : ∃ direction,
      b.direction state = some direction := by
    apply Option.ne_none_iff_exists'.mp
    intro undirected
    apply hasDirection
    simpa [Bellman.direction, known] using undirected
  obtain ⟨inside, valid⟩ := valid (by simp [directed])
  rw [values]
  cases sweeps with
  | none =>
      -- The values are those of the policy, up to the tolerance of its
      -- evaluation, and the policy takes the best choice.
      obtain ⟨-, rfl⟩ := evaluate_eq_ok last.evaluated
      obtain ⟨count, -, delta, small, lastSweep⟩ :=
        Run.start_settled (last.settled rfl)
      obtain ⟨stillInside, seen, computed, near⟩ := exists_seen_of_last
        (b.policySweep_eq policy unknown.toList) absolute
        (BitSet.nodup_toList unknown) small lastSweep
        (BitSet.mem_toList.mpr writes.1) writes.2 inside
      refine ⟨stillInside, ?_⟩
      rw [bestValue_of_unchanged last.unchanged writes directed valid, computed]
      exact abs_choiceValue_sub_le weights totals near state _
  | some limit =>
      refine ⟨(size_evaluate last.evaluated).symm ▸ inside, ?_⟩
      rcases last.close with unlimited | small
      · cases unlimited
      · exact (abs_bestValue_sub_le_improve absolute policy writes
          directed).trans (le_of_lt small)

/-- Every solution solves its equations up to the tolerance. -/
theorem solve_solvesWithin (absolute : b.options.criterion = .absolute)
    (weights : b.table.NonNegative) (totals : b.table.SubStochastic)
    (directed : b.options.method.isIterative = false →
      ∀ state, b.Writes unknown state → b.directions[state]? ≠ some none)
    {seed : Option (Array Nat)}
    (found : b.solve unknown x seed = .ok solution) :
    b.SolvesWithin unknown b.options.tolerance x solution.values := by
  have close : ∀ state, b.Writes unknown state →
      b.Close solution.values state := by
    intro state writes
    unfold solve at found
    split at found
    · obtain ⟨start, -, iterated⟩ := Attempt.bind_eq_ok.mp found
      exact close_valueIteration absolute weights totals iterated writes
    · obtain ⟨start, -, iterated⟩ := Attempt.bind_eq_ok.mp found
      exact close_gaussSeidel absolute weights totals iterated writes
    · rename_i method
      rw [method] at directed
      exact close_policyIteration absolute weights totals found writes
        (directed rfl state writes)
    · rename_i method
      rw [method] at directed
      exact close_policyIteration absolute weights totals found writes
        (directed rfl state writes)
  obtain ⟨size, kept⟩ := solve_kept found
  refine ⟨size, kept, ?_⟩
  intro state writes
  obtain ⟨inside, near⟩ := close state writes
  cases best : b.best state solution.values with
  | none => exact (writes.2 (best_eq_none_iff.mp best)).elim
  | some found =>
      refine ⟨found.1, found.2, solution.values[state], rfl,
        Array.getElem?_eq_getElem inside, ?_⟩
      simpa [bestValue, best, inside] using near

/-- Rewards on the way to the last state, where the first state can stay and
the second one loses half of its weight. -/
def toll (method : Method) : Bellman ℚ where
  table := ⟨#[[[(1, 1)], [(0, 1 / 2), (2, 1 / 2)]], [[(2, 1 / 2)]], []]⟩
  directions := #[some .max, some .min, some .max]
  rewards := some #[[0, 1], [1 / 4], []]
  options := ⟨true, .absolute, 1 / 10, 20, method, 2, false⟩

theorem toll_solvesWithin :
    (∃ solution,
      (toll .gaussSeidel).solve (.ofList [0, 1, 2]) #[0, 0, 1] none =
          .ok solution ∧
        solution.values = #[93 / 32, 3 / 4, 1] ∧
        (toll .gaussSeidel).SolvesWithin (.ofList [0, 1, 2]) (1 / 10)
          #[0, 0, 1] solution.values) ∧
      ∃ solution,
        (toll .policyIteration).solve (.ofList [0, 1, 2]) #[0, 0, 1]
            (some #[0, 0, 0]) = .ok solution ∧
          solution.values = #[375 / 128, 3 / 4, 1] ∧
          (toll .policyIteration).SolvesWithin (.ofList [0, 1, 2]) (1 / 10)
            #[0, 0, 1] solution.values := by
  obtain ⟨swept, found, values⟩ := Attempt.map_toOption_eq_some.mp
    (show ((toll .gaussSeidel).solve (.ofList [0, 1, 2]) #[0, 0, 1]
        none).toOption.map Solution.values = some #[93 / 32, 3 / 4, 1] by
      decide +kernel)
  obtain ⟨improved, found', values'⟩ := Attempt.map_toOption_eq_some.mp
    (show ((toll .policyIteration).solve (.ofList [0, 1, 2]) #[0, 0, 1]
        (some #[0, 0, 0])).toOption.map Solution.values =
          some #[375 / 128, 3 / 4, 1] by decide +kernel)
  constructor
  · exact ⟨swept, found, values, solve_solvesWithin rfl (by decide +kernel)
      (by decide +kernel) (fun policies => by cases policies) found⟩
  · refine ⟨improved, found', values', solve_solvesWithin rfl
      (by decide +kernel) (by decide +kernel) ?_ found'⟩
    intro _ state _ undirected
    have listed : (none : Option Direction) ∈
        (toll .policyIteration).directions :=
      Array.mem_of_getElem? undirected
    simp [toll] at listed

end Bellman

end Markov
