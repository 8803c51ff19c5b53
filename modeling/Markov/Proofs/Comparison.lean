import Markov.Expr.Eval
import Markov.Proofs.Widening

/-!
# Comparisons of integers

Equality looks at the integers themselves, and the order at the numbers that they
widen to.  So the two agree unless different integers widen to the same number:
such integers are unequal, neither is less than the other, and each is at most
the other.  Integers up to `2 ^ 53` are never blurred in this way.
-/

namespace Markov

open Binary64

/-- The relation between integers that an operator is written for. -/
def Relation.onInts : Relation → Int → Int → Bool
  | eq, x, y => x == y
  | ne, x, y => !(x == y)
  | lt, x, y => x < y
  | le, x, y => x ≤ y
  | gt, x, y => x > y
  | ge, x, y => x ≥ y

/-- What an operator looks at of an integer. -/
def Relation.view : Relation → Int → Int
  | eq | ne => id
  | lt | le | gt | ge => nearest

theorem Relation.apply_int_int (op : Relation) {x y : Int}
    (left : Word.isInteger x = true) (right : Word.isInteger y = true) :
    op.apply (.int x) (.int y) = .ok (op.onInts (op.view x) (op.view y)) := by
  have first := log2_natAbs_of_isInteger left
  have second := log2_natAbs_of_isInteger right
  cases op with
  | eq => rfl
  | ne => rfl
  | lt => exact congrArg Except.ok (decide_eq_decide.mpr (ofInt_lt_ofInt first second))
  | le => exact congrArg Except.ok (decide_eq_decide.mpr (ofInt_le_ofInt first second))
  | gt => exact congrArg Except.ok (decide_eq_decide.mpr (ofInt_lt_ofInt second first))
  | ge => exact congrArg Except.ok (decide_eq_decide.mpr (ofInt_le_ofInt second first))

theorem Expr.eval_compare_int_int (op : Relation) {context : Context} {a b : Expr}
    {x y : Int} (left : a.eval context = .ok (.int x))
    (right : b.eval context = .ok (.int y)) (leftWord : Word.isInteger x = true)
    (rightWord : Word.isInteger y = true) :
    (Expr.compare op a b).eval context =
      .ok (.bool (op.onInts (op.view x) (op.view y))) := by
  rw [Expr.eval, left, right]
  change (do return Value.bool (← op.apply (.int x) (.int y))) = _
  rw [op.apply_int_int leftWord rightWord]
  rfl

/-- Different integers that widen to the same number. -/
structure Blurred (x y : Int) : Prop where
  distinct : x ≠ y
  nearest_eq : nearest x = nearest y

theorem Blurred.symm {x y : Int} (blurred : Blurred x y) : Blurred y x :=
  ⟨blurred.distinct.symm, blurred.nearest_eq.symm⟩

theorem not_blurred_of_le {x y : Int} (left : x.natAbs ≤ 2 ^ 53)
    (right : y.natAbs ≤ 2 ^ 53) : ¬Blurred x y := by
  intro blurred
  have same := blurred.nearest_eq
  rw [nearest_of_le left, nearest_of_le right] at same
  exact blurred.distinct same

theorem nearest_lt_iff {x y : Int} (clear : ¬Blurred x y) :
    nearest x < nearest y ↔ x < y := by
  constructor
  · intro less
    by_contra ordered
    exact absurd (nearest_mono (not_lt.mp ordered)) (not_le.mpr less)
  · intro less
    exact lt_of_le_of_ne (nearest_mono less.le) fun same => clear ⟨less.ne, same⟩

theorem nearest_le_iff {x y : Int} (clear : ¬Blurred x y) :
    nearest x ≤ nearest y ↔ x ≤ y := by
  rw [← not_lt, ← not_lt, nearest_lt_iff fun blurred => clear blurred.symm]

theorem Relation.onInts_view (op : Relation) {x y : Int} (clear : ¬Blurred x y) :
    op.onInts (op.view x) (op.view y) = op.onInts x y := by
  have other : ¬Blurred y x := fun blurred => clear blurred.symm
  cases op with
  | eq => rfl
  | ne => rfl
  | lt => exact decide_eq_decide.mpr (nearest_lt_iff clear)
  | le => exact decide_eq_decide.mpr (nearest_le_iff clear)
  | gt => exact decide_eq_decide.mpr (nearest_lt_iff other)
  | ge => exact decide_eq_decide.mpr (nearest_le_iff other)

theorem Blurred.onInts_view {x y : Int} (blurred : Blurred x y) :
    (∀ op ∈ [Relation.lt, .gt], op.onInts (op.view x) (op.view y) = false) ∧
      ∀ op ∈ [Relation.le, .ge], op.onInts (op.view x) (op.view y) = true := by
  simp [Relation.onInts, Relation.view, blurred.nearest_eq]

/-- Equality of integers is exact.  Their order is exact unless they widen to the
same number; then neither is less and each is at most the other. -/
theorem Expr.eval_compare_of_ints {context : Context} {a b : Expr} {x y : Int}
    (left : a.eval context = .ok (.int x)) (right : b.eval context = .ok (.int y))
    (leftWord : Word.isInteger x = true) (rightWord : Word.isInteger y = true) :
    (∀ op, op = .eq ∨ op = .ne ∨ ¬Blurred x y →
        (Expr.compare op a b).eval context = .ok (.bool (op.onInts x y))) ∧
      (Blurred x y →
        (∀ op ∈ [Relation.lt, .gt],
          (Expr.compare op a b).eval context = .ok (.bool false)) ∧
        ∀ op ∈ [Relation.le, .ge],
          (Expr.compare op a b).eval context = .ok (.bool true)) ∧
      (x.natAbs ≤ 2 ^ 53 → y.natAbs ≤ 2 ^ 53 → ¬Blurred x y) := by
  have evaluated (op : Relation) :=
    eval_compare_int_int op left right leftWord rightWord
  refine ⟨?_, ?_, not_blurred_of_le⟩
  · intro op exact
    rw [evaluated op]
    rcases exact with rfl | rfl | clear
    · rfl
    · rfl
    · rw [op.onInts_view clear]
  · intro blurred
    obtain ⟨strict, weak⟩ := blurred.onInts_view
    constructor
    · intro op member
      rw [evaluated op, strict op member]
    · intro op member
      rw [evaluated op, weak op member]

/-- The numbers around `2 ^ 53` are two apart, so the integer after it widens to the
same number, but the next one does not. -/
theorem Expr.adjacent_compared :
    let context := Context.of ⟨[.int 9007199254740992]⟩ []
    (Expr.compare .lt (.var "x" 0) (.literal (.int 9007199254740994))).eval context =
        .ok (.bool true) ∧
      (Expr.compare .lt (.var "x" 0) (.literal (.int 9007199254740993))).eval context =
        .ok (.bool false) := by
  have apart : nearest 9007199254740992 ≠ nearest 9007199254740994 := by decide
  have same : nearest 9007199254740992 = nearest 9007199254740993 := by decide
  constructor
  · exact (Expr.eval_compare_of_ints rfl rfl (by decide) (by decide)).1 .lt
      (.inr (.inr fun blurred => apart blurred.nearest_eq))
  · exact ((Expr.eval_compare_of_ints rfl rfl (by decide) (by decide)).2.1
      ⟨by decide, same⟩).1 .lt (by decide)

/-- Of two different integers neither is the smaller one, and the larger is at most
the smaller. -/
theorem Expr.adjacent_unordered :
    let evaluated (op : Relation) := (Expr.compare op (.literal (.int 9007199254740992))
      (.literal (.int 9007199254740993))).eval ⟨none, none⟩
    evaluated .lt = .ok (.bool false) ∧ evaluated .eq = .ok (.bool false) ∧
      evaluated .gt = .ok (.bool false) ∧ evaluated .ge = .ok (.bool true) := by
  intro evaluated
  have viewed (op : Relation) : evaluated op = _ :=
    eval_compare_int_int op rfl rfl (by decide) (by decide)
  exact ⟨viewed .lt, viewed .eq, viewed .gt, viewed .ge⟩

end Markov
