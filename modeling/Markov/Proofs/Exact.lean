import Mathlib.Algebra.BigOperators.Ring.List
import Mathlib.Algebra.Order.BigOperators.Group.List
import Mathlib.Algebra.Order.Field.Rat
import Mathlib.Algebra.Order.Floor.Semiring
import Mathlib.Data.Rat.Floor
import Mathlib.Tactic.Linarith
import Mathlib.Tactic.Positivity
import Mathlib.Tactic.Ring
import Markov.Proofs.Policy

/-!
# Exact arithmetic

The rationals are a number type on which all definitions can be read without
rounding.  Over them a branch is a weighted sum, the best choice is at least as
good as every other one, and a backup of a table without negative weights
preserves the order of vectors.
-/

namespace Markov

/-- Rational numbers as scalars.  No rational is infinite, so nothing here is
about values that are never paid off. -/
instance : Scalar ℚ where
  emptySum := 0
  infinity := 0
  isFinite _ := true
  isWhole x := x.den == 1
  toNat x := min ⌊x⌋.toNat (Word.limit - 1)

/-- One vector is nowhere above another one; missing entries count as zero. -/
def AtMost (x y : Array ℚ) : Prop := ∀ state, x.getD state 0 ≤ y.getD state 0

namespace Branch

/-- The weighted sum of a function of the successors. -/
def expect (branch : Branch ℚ) (f : Nat → ℚ) : ℚ :=
  (branch.map fun entry => entry.2 * f entry.1).sum

theorem dot_eq_expect (branch : Branch ℚ) (x : Array ℚ) :
    branch.dot x = branch.expect fun state => x.getD state 0 := by
  rw [expect, List.sum_eq_foldl, List.foldl_map]
  rfl

theorem total_eq_sum (branch : Branch ℚ) :
    branch.total = (branch.map Prod.snd).sum := by
  rw [List.sum_eq_foldl]
  rfl

/-- A branch without negative weights. -/
def NonNegative (branch : Branch ℚ) : Prop := ∀ entry ∈ branch, 0 ≤ entry.2

instance (branch : Branch ℚ) : Decidable branch.NonNegative :=
  inferInstanceAs (Decidable (∀ entry ∈ branch, 0 ≤ entry.2))

theorem expect_const (branch : Branch ℚ) (value : ℚ) :
    (branch.expect fun _ => value) = branch.total * value := by
  rw [expect, total_eq_sum, List.sum_map_mul_right]

theorem expect_sub (branch : Branch ℚ) (f g : Nat → ℚ) :
    (branch.expect fun state => f state - g state) =
      branch.expect f - branch.expect g := by
  unfold expect
  induction branch with
  | nil => simp
  | cons entry branch ih =>
      simp only [List.map_cons, List.sum_cons, ih]
      ring

private theorem mul_nonneg_of_support {branch : Branch ℚ}
    (weights : branch.NonNegative) {f : Nat → ℚ}
    (values : ∀ entry ∈ branch, 0 < entry.2 → 0 ≤ f entry.1)
    {entry : Nat × ℚ} (member : entry ∈ branch) : 0 ≤ entry.2 * f entry.1 := by
  rcases (weights entry member).eq_or_lt with zero | positive
  · rw [← zero, zero_mul]
  · exact mul_nonneg positive.le (values entry member positive)

/-- A branch is worth at least what each of its successors contributes. -/
theorem mul_le_expect {branch : Branch ℚ} (weights : branch.NonNegative)
    {f : Nat → ℚ} (values : ∀ entry ∈ branch, 0 < entry.2 → 0 ≤ f entry.1)
    {entry : Nat × ℚ} (member : entry ∈ branch) :
    entry.2 * f entry.1 ≤ branch.expect f := by
  apply List.single_le_sum
  · intro term termMember
    obtain ⟨other, otherMember, rfl⟩ := List.mem_map.mp termMember
    exact mul_nonneg_of_support weights values otherMember
  · exact List.mem_map.mpr ⟨entry, member, rfl⟩

theorem expect_nonneg {branch : Branch ℚ} (weights : branch.NonNegative)
    {f : Nat → ℚ} (values : ∀ entry ∈ branch, 0 < entry.2 → 0 ≤ f entry.1) :
    0 ≤ branch.expect f := by
  apply List.sum_nonneg
  intro term termMember
  obtain ⟨entry, member, rfl⟩ := List.mem_map.mp termMember
  exact mul_nonneg_of_support weights values member

/-- Only successors with positive weight count. -/
theorem expect_mono {branch : Branch ℚ} (weights : branch.NonNegative)
    {f g : Nat → ℚ}
    (below : ∀ entry ∈ branch, 0 < entry.2 → f entry.1 ≤ g entry.1) :
    branch.expect f ≤ branch.expect g := by
  have difference : 0 ≤ branch.expect fun state => g state - f state :=
    expect_nonneg weights fun entry member positive =>
      sub_nonneg.mpr (below entry member positive)
  rw [expect_sub] at difference
  exact sub_nonneg.mp difference

theorem dot_mono {branch : Branch ℚ} (weights : branch.NonNegative)
    {x y : Array ℚ} (below : AtMost x y) : branch.dot x ≤ branch.dot y := by
  rw [dot_eq_expect, dot_eq_expect]
  exact expect_mono weights fun entry _ _ => below entry.1

end Branch

/-- A table without negative weights. -/
def Table.NonNegative (t : Table ℚ) : Prop :=
  ∀ row ∈ t.rows, ∀ branch ∈ row, branch.NonNegative

instance (t : Table ℚ) : Decidable t.NonNegative :=
  inferInstanceAs (Decidable (∀ row ∈ t.rows, ∀ branch ∈ row, _))

theorem Table.mem_rows_of_mem_branches {R : Type} {t : Table R} {state : Nat}
    {branch : Branch R} (member : branch ∈ t.branches state) :
    ∃ row ∈ t.rows, branch ∈ row := by
  unfold branches at member
  rw [Array.getD_eq_getD_getElem?] at member
  cases found : t.rows[state]? with
  | none => simp [found] at member
  | some row =>
      obtain ⟨inside, rfl⟩ := Array.getElem?_eq_some_iff.mp found
      exact ⟨_, Array.getElem_mem inside, by simpa [found] using member⟩

theorem Table.NonNegative.branch {t : Table ℚ} (weights : t.NonNegative)
    {state : Nat} {branch : Branch ℚ} (member : branch ∈ t.branches state) :
    branch.NonNegative := by
  obtain ⟨row, rowMember, branchMember⟩ := Table.mem_rows_of_mem_branches member
  exact weights row rowMember branch branchMember

theorem Table.NonNegative.getD {t : Table ℚ} (weights : t.NonNegative)
    (state choice : Nat) : ((t.branches state).getD choice []).NonNegative := by
  by_cases inside : choice < (t.branches state).length
  · have member : (t.branches state)[choice] ∈ t.branches state :=
      List.getElem_mem inside
    simpa [inside] using weights.branch member
  · simp [inside, Branch.NonNegative]

/-- A value that is at least as good as another one. -/
def Direction.NotWorse : Direction → ℚ → ℚ → Prop
  | min, value, other => value ≤ other
  | max, value, other => other ≤ value

namespace Direction.NotWorse

theorem refl (direction : Direction) (value : ℚ) :
    direction.NotWorse value value := by
  cases direction <;> exact le_rfl

theorem trans {direction : Direction} {first second third : ℚ}
    (left : direction.NotWorse first second)
    (right : direction.NotWorse second third) :
    direction.NotWorse first third := by
  cases direction with
  | min => exact le_trans (α := ℚ) left right
  | max => exact le_trans (α := ℚ) right left

theorem select (direction : Direction) (value best : ℚ) :
    direction.NotWorse (if direction.better value best then value else best)
        value ∧
      direction.NotWorse (if direction.better value best then value else best)
        best := by
  cases direction with
  | min =>
      by_cases improves : value < best
      · simp [better, improves, NotWorse, le_of_lt improves]
      · simp [better, improves, NotWorse, le_of_not_gt improves]
  | max =>
      by_cases improves : best < value
      · simp [better, improves, NotWorse, le_of_lt improves]
      · simp [better, improves, NotWorse, le_of_not_gt improves]

end Direction.NotWorse

namespace Bellman

theorem choiceValue_mono {b : Bellman ℚ} (weights : b.table.NonNegative)
    (state choice : Nat) {x y : Array ℚ} (below : AtMost x y) :
    b.choiceValue state choice x ≤ b.choiceValue state choice y := by
  unfold choiceValue branchValue
  apply add_le_add_right
  exact Branch.dot_mono (weights.getD state choice) below

theorem choiceValue_nonneg {b : Bellman ℚ} (weights : b.table.NonNegative)
    (rewards : ∀ state choice, 0 ≤ b.reward state choice) {x : Array ℚ}
    (values : ∀ state, 0 ≤ x.getD state 0) (state choice : Nat) :
    0 ≤ b.choiceValue state choice x := by
  apply add_nonneg (rewards state choice)
  rw [Branch.dot_eq_expect]
  exact Branch.expect_nonneg (weights.getD state choice)
    fun entry _ _ => values entry.1

private theorem scan_notWorse (b : Bellman ℚ) (direction : Direction)
    (state : Nat) (x : Array ℚ) (index : Nat) (best : ℚ × Nat)
    (rest : List (Branch ℚ)) :
    direction.NotWorse (b.scan direction state x index best rest).1 best.1 ∧
      ∀ position branch, rest[position]? = some branch →
        direction.NotWorse (b.scan direction state x index best rest).1
          (b.branchValue state (index + position) branch x) := by
  induction rest generalizing index best with
  | nil => exact ⟨.refl _ _, by simp⟩
  | cons branch rest ih =>
      rw [scan]
      obtain ⟨notWorse, others⟩ := ih (index + 1)
        (if direction.better (b.branchValue state index branch x) best.1 then
          (b.branchValue state index branch x, index) else best)
      have selected := Direction.NotWorse.select direction
        (b.branchValue state index branch x) best.1
      rw [apply_ite Prod.fst] at notWorse
      refine ⟨notWorse.trans selected.2, ?_⟩
      intro position other found
      cases position with
      | zero =>
          obtain rfl : branch = other := by simpa using found
          exact notWorse.trans selected.1
      | succ position =>
          have later := others position other (by simpa using found)
          rwa [show index + 1 + position = index + (position + 1) by omega]
            at later

/-- The best value of a state with a direction is at least as good as the value
of each of its choices. -/
theorem bestValue_notWorse {b : Bellman ℚ} {state : Nat}
    {direction : Direction} (directed : b.direction state = some direction)
    {choice : Nat} (valid : choice < (b.table.branches state).length)
    (x : Array ℚ) (old : ℚ) :
    direction.NotWorse (b.bestValue state x old)
      (b.choiceValue state choice x) := by
  unfold bestValue best choiceValue
  cases branches : b.table.branches state with
  | nil => simp [branches] at valid
  | cons branch rest =>
      obtain ⟨notWorse, others⟩ := b.scan_notWorse direction state x 1
        (b.branchValue state 0 branch x, 0) rest
      simp only [directed]
      cases choice with
      | zero => simpa using notWorse
      | succ choice =>
          have present : choice < rest.length := by simpa [branches] using valid
          have other := others choice rest[choice] (by simp [present])
          rw [Nat.add_comm 1 choice] at other
          simpa [present] using other

theorem bestValue_of_undirected {b : Bellman ℚ} {state : Nat}
    (undirected : b.direction state = none)
    (branches : b.table.branches state ≠ []) (x : Array ℚ) (old : ℚ) :
    b.bestValue state x old = b.choiceValue state 0 x := by
  unfold bestValue best choiceValue
  cases found : b.table.branches state with
  | nil => exact (branches found).elim
  | cons branch rest => simp [undirected]

theorem bestValue_mono {b : Bellman ℚ} (weights : b.table.NonNegative)
    {state : Nat} (branches : b.table.branches state ≠ []) {x y : Array ℚ}
    (below : AtMost x y) (old other : ℚ) :
    b.bestValue state x old ≤ b.bestValue state y other := by
  cases directed : b.direction state with
  | none =>
      rw [bestValue_of_undirected directed branches,
        bestValue_of_undirected directed branches]
      exact choiceValue_mono weights state 0 below
  | some direction =>
      cases direction with
      | min =>
          -- The choice that is best for `y` is at hand for `x`, too.
          have best : b.bestValue state x old ≤
              b.choiceValue state (b.bestChoice state y) x :=
            bestValue_notWorse directed (bestChoice_lt branches y) x old
          rw [bestValue_eq_choiceValue branches y]
          exact best.trans (choiceValue_mono weights state _ below)
      | max =>
          have best : b.choiceValue state (b.bestChoice state x) y ≤
              b.bestValue state y other :=
            bestValue_notWorse directed (bestChoice_lt branches x) y other
          rw [bestValue_eq_choiceValue branches x]
          exact (choiceValue_mono weights state _ below).trans best

end Bellman

end Markov
