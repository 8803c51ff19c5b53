import Mathlib
import Markov.Bellman.Solve

/-!
# Signed zeros

Floating point has two zeros, which compare equal.  Numbers that differ at most
in the sign of a zero cannot be told apart by sums, products and comparisons,
nor by the differences that decide when an iteration stops.  A product with zero
weight does not count in a sum, as long as the other factor is finite.
-/

namespace Markov

namespace Scalar

variable {R : Type} [Scalar R]

/-- Numbers that differ at most in the sign of a zero. -/
def Alike (a b : R) : Prop := a = b ∨ (a == 0) = true ∧ (b == 0) = true

namespace Alike

theorem refl (a : R) : Alike a a := .inl rfl

theorem trans {a b c : R} (left : Alike a b) (right : Alike b c) :
    Alike a c := by
  rcases left with rfl | ⟨aZero, bZero⟩
  · exact right
  · rcases right with rfl | ⟨-, cZero⟩
    · exact .inr ⟨aZero, bZero⟩
    · exact .inr ⟨aZero, cZero⟩

end Alike

end Scalar

open Scalar (Alike)

/-- Arithmetic that does not look at the signs of zeros. -/
structure ZerosAlike (R : Type) [Scalar R] : Prop where
  add_left : ∀ {a b : R} (c : R), Alike a b → Alike (a + c) (b + c)
  add_right : ∀ {a b : R} (c : R), Alike a b → Alike (c + a) (c + b)
  mul : ∀ {a b : R} (weight : R), Alike a b → Alike (weight * a) (weight * b)
  lt : ∀ {a b c d : R}, Alike a b → Alike c d → (a < c ↔ b < d)
  beq : ∀ {a b c d : R}, Alike a b → Alike c d → (a == c) = (b == d)
  /-- Numbers that compare unequal are not both zero, and neither are those that
  are alike to them. -/
  sub : ∀ {a b c d : R}, Alike a b → Alike c d → (a == c) = false →
    c - a = d - b
  isFinite : ∀ {a b : R}, Alike a b → Scalar.isFinite a = Scalar.isFinite b
  notPositive : ∀ {weight : R}, (weight == 0) = true → ¬0 < weight
  inert : ∀ {weight value : R} (sum : R), (weight == 0) = true →
    Scalar.isFinite value = true → Alike (sum + weight * value) sum

namespace ZerosAlike

variable {R : Type} [Scalar R] (zeros : ZerosAlike R)

include zeros

theorem add {a b c d : R} (left : Alike a b) (right : Alike c d) :
    Alike (a + c) (b + d) :=
  (zeros.add_left c left).trans (zeros.add_right b right)

theorem better (direction : Direction) {a b c d : R} (left : Alike a b)
    (right : Alike c d) : direction.better a c = direction.better b d := by
  cases direction with
  | min => exact decide_eq_decide.mpr (zeros.lt left right)
  | max => exact decide_eq_decide.mpr (zeros.lt right left)

theorem gap (criterion : Criterion) {old old' new new' : R}
    (before : Alike old old') (after : Alike new new') :
    criterion.gap old new = criterion.gap old' new' := by
  unfold Criterion.gap
  rw [zeros.beq before after]
  split
  · rfl
  · rename_i unequal
    have differ : (old == new) = false := by
      rw [zeros.beq before after]
      exact eq_false_of_ne_true unequal
    rw [zeros.sub before after differ]
    cases criterion with
    | absolute => rfl
    | relative =>
        rcases after with rfl | ⟨newZero, newZero'⟩
        · rfl
        · simp [newZero, newZero']

end ZerosAlike

/-! ## Binary floating point -/

namespace Binary64

open Float.Model (UnpackedFloat Format)
open Float.Model.UnpackedFloat

/-- What a number consists of. -/
def parts (a : Float) : UnpackedFloat := a.toModel.unpack

theorem ofModel_pack_parts (a : Float) : Float.ofModel (.pack (parts a)) = a :=
  -- A law of Batteries, of which no single module of Mathlib imports this part.
  Float.ofBits_toBits a

theorem add_eq (a b : Float) :
    a + b = .ofModel (.pack (.add .binary64 (parts a) (parts b))) := rfl

theorem sub_eq (a b : Float) :
    a - b = .ofModel (.pack (.sub .binary64 (parts a) (parts b))) := rfl

theorem mul_eq (a b : Float) :
    a * b = .ofModel (.pack (.mul .binary64 (parts a) (parts b))) := rfl

theorem lt_iff (a b : Float) : a < b ↔ (parts a).lt (parts b) = true :=
  decide_eq_true_iff

theorem beq_eq (a b : Float) : (a == b) = (parts a).beq (parts b) := rfl

theorem isFinite_eq (a : Float) : Scalar.isFinite a = (parts a).isFinite := rfl

@[simp]
theorem parts_pack_zero (sign : Sign) :
    parts (.ofModel (.pack (.zero sign))) = .zero sign := by
  cases sign with
  | negative => rfl
  | positive => rfl

theorem beq_zero_iff {a : Float} :
    (a == 0) = true ↔ ∃ sign, parts a = .zero sign := by
  have zero : parts 0 = .zero .positive := rfl
  rw [beq_eq, zero]
  cases parts a with
  | notANumber => simp [UnpackedFloat.beq, UnpackedFloat.compare]
  | infinity sign => cases sign <;> simp [UnpackedFloat.beq, UnpackedFloat.compare]
  | zero sign => simp [UnpackedFloat.beq, UnpackedFloat.compare]
  | finite sign mantissa exponent positive =>
      cases sign <;> simp [UnpackedFloat.beq, UnpackedFloat.compare]

theorem parts_of_alike {a b : Float} (alike : Alike a b) :
    a = b ∨ ∃ sign other, parts a = .zero sign ∧ parts b = .zero other := by
  rcases alike with same | ⟨left, right⟩
  · exact .inl same
  · obtain ⟨sign, isZero⟩ := beq_zero_iff.mp left
    obtain ⟨other, alsoZero⟩ := beq_zero_iff.mp right
    exact .inr ⟨sign, other, isZero, alsoZero⟩

theorem alike_of_zero {a b : Float} {sign other : Sign}
    (left : parts a = .zero sign) (right : parts b = .zero other) :
    Alike a b :=
  .inr ⟨beq_zero_iff.mpr ⟨sign, left⟩, beq_zero_iff.mpr ⟨other, right⟩⟩

theorem add_zeros (sign other : Sign) :
    ∃ result, UnpackedFloat.add .binary64 (.zero sign) (.zero other) =
      .zero result := by
  cases sign <;> cases other <;> exact ⟨_, rfl⟩

theorem alike_add_left {a b : Float} (c : Float) (alike : Alike a b) :
    Alike (a + c) (b + c) := by
  rcases parts_of_alike alike with rfl | ⟨sign, other, left, right⟩
  · exact .refl _
  · rw [add_eq, add_eq, left, right]
    cases parts c with
    | notANumber => exact .refl _
    | infinity sign => exact .refl _
    | zero third =>
        obtain ⟨first, sum⟩ := add_zeros sign third
        obtain ⟨second, otherSum⟩ := add_zeros other third
        rw [sum, otherSum]
        exact alike_of_zero (parts_pack_zero first) (parts_pack_zero second)
    | finite sign mantissa exponent positive => exact .refl _

theorem alike_add_right {a b : Float} (c : Float) (alike : Alike a b) :
    Alike (c + a) (c + b) := by
  rcases parts_of_alike alike with rfl | ⟨sign, other, left, right⟩
  · exact .refl _
  · rw [add_eq, add_eq, left, right]
    cases parts c with
    | notANumber => exact .refl _
    | infinity sign => exact .refl _
    | zero third =>
        obtain ⟨first, sum⟩ := add_zeros third sign
        obtain ⟨second, otherSum⟩ := add_zeros third other
        rw [sum, otherSum]
        exact alike_of_zero (parts_pack_zero first) (parts_pack_zero second)
    | finite sign mantissa exponent positive => exact .refl _

theorem alike_mul {a b : Float} (weight : Float) (alike : Alike a b) :
    Alike (weight * a) (weight * b) := by
  rcases parts_of_alike alike with rfl | ⟨sign, other, left, right⟩
  · exact .refl _
  · rw [mul_eq, mul_eq, left, right]
    cases parts weight with
    | notANumber => exact .refl _
    | infinity sign => exact .refl _
    | zero third =>
        exact alike_of_zero (parts_pack_zero _) (parts_pack_zero _)
    | finite sign mantissa exponent positive =>
        exact alike_of_zero (parts_pack_zero _) (parts_pack_zero _)

theorem compare_zero_left (sign other : Sign) (number : UnpackedFloat) :
    (UnpackedFloat.zero sign).compare number =
      (UnpackedFloat.zero other).compare number := by
  cases number with
  | notANumber => rfl
  | infinity third => cases third <;> rfl
  | zero third => rfl
  | finite third mantissa exponent positive => cases third <;> rfl

theorem compare_zero_right (sign other : Sign) (number : UnpackedFloat) :
    number.compare (.zero sign) = number.compare (.zero other) := by
  cases number with
  | notANumber => rfl
  | infinity third => cases third <;> rfl
  | zero third => rfl
  | finite third mantissa exponent positive => cases third <;> rfl

theorem compare_of_alike {a b c d : Float} (left : Alike a b)
    (right : Alike c d) :
    (parts a).compare (parts c) = (parts b).compare (parts d) := by
  have first : (parts a).compare (parts c) = (parts b).compare (parts c) := by
    rcases parts_of_alike left with rfl | ⟨sign, other, aZero, bZero⟩
    · rfl
    · rw [aZero, bZero]
      exact compare_zero_left sign other _
  have second : (parts b).compare (parts c) = (parts b).compare (parts d) := by
    rcases parts_of_alike right with rfl | ⟨sign, other, cZero, dZero⟩
    · rfl
    · rw [cZero, dZero]
      exact compare_zero_right sign other _
  exact first.trans second

/-- A difference of numbers that compare unequal does not show the sign of a
zero. -/
theorem sub_of_alike {a b c d : Float} (left : Alike a b) (right : Alike c d)
    (unequal : (a == c) = false) : c - a = d - b := by
  have first : c - a = c - b := by
    rcases parts_of_alike left with rfl | ⟨sign, other, aZero, bZero⟩
    · rfl
    · rw [beq_eq, aZero] at unequal
      rw [sub_eq, sub_eq, aZero, bZero]
      cases number : parts c with
      | notANumber => rfl
      | infinity third => rfl
      | zero third =>
          rw [number] at unequal
          cases unequal
      | finite third mantissa exponent positive => rfl
  have second : c - b = d - b := by
    rcases parts_of_alike right with rfl | ⟨sign, other, cZero, dZero⟩
    · rfl
    · have differ : (parts b).beq (.zero sign) = false := by
        rw [← cZero, ← unequal, beq_eq, UnpackedFloat.beq, UnpackedFloat.beq,
          compare_of_alike left (.refl c)]
      rw [sub_eq, sub_eq, cZero, dZero]
      cases number : parts b with
      | notANumber => rfl
      | infinity third => rfl
      | zero third =>
          rw [number] at differ
          cases differ
      | finite third mantissa exponent positive => rfl
  exact first.trans second

/-- A summand of zero weight and finite value does not change a sum, but for the
sign of a zero. -/
theorem alike_add_mul_zero {weight value : Float} (sum : Float)
    (vanishes : (weight == 0) = true)
    (finite : Scalar.isFinite value = true) :
    Alike (sum + weight * value) sum := by
  obtain ⟨sign, isZero⟩ := beq_zero_iff.mp vanishes
  have product : ∃ result, parts (weight * value) = .zero result := by
    rw [isFinite_eq] at finite
    rw [mul_eq, isZero]
    cases number : parts value with
    | notANumber =>
        rw [number] at finite
        cases finite
    | infinity third =>
        rw [number] at finite
        cases finite
    | zero third => exact ⟨_, parts_pack_zero _⟩
    | finite third mantissa exponent positive => exact ⟨_, parts_pack_zero _⟩
  obtain ⟨other, productZero⟩ := product
  have unchanged : UnpackedFloat.add .binary64 (parts sum) (.zero other) =
      parts sum → sum + weight * value = sum := by
    intro same
    rw [add_eq, productZero, same, ofModel_pack_parts]
  cases number : parts sum with
  | notANumber => exact .inl (unchanged (by rw [number]; rfl))
  | infinity third => exact .inl (unchanged (by rw [number]; rfl))
  | zero third =>
      obtain ⟨total, isTotal⟩ := add_zeros third other
      have result : parts (sum + weight * value) = .zero total := by
        rw [add_eq, productZero, number, isTotal, parts_pack_zero]
      exact alike_of_zero result number
  | finite third mantissa exponent positive =>
      exact .inl (unchanged (by rw [number]; rfl))

end Binary64

/-- Floating-point arithmetic does not look at the signs of zeros. -/
theorem zerosAlike_float : ZerosAlike Float where
  add_left := Binary64.alike_add_left
  add_right := Binary64.alike_add_right
  mul := Binary64.alike_mul
  lt left right := by
    rw [Binary64.lt_iff, Binary64.lt_iff, Float.Model.UnpackedFloat.lt,
      Float.Model.UnpackedFloat.lt, Binary64.compare_of_alike left right]
  beq left right := by
    rw [Binary64.beq_eq, Binary64.beq_eq, Float.Model.UnpackedFloat.beq,
      Float.Model.UnpackedFloat.beq, Binary64.compare_of_alike left right]
  sub := Binary64.sub_of_alike
  isFinite alike := by
    rcases Binary64.parts_of_alike alike with rfl | ⟨sign, other, left, right⟩
    · rfl
    · rw [Binary64.isFinite_eq, Binary64.isFinite_eq, left, right]
      rfl
  notPositive vanishes positive := by
    obtain ⟨sign, isZero⟩ := Binary64.beq_zero_iff.mp vanishes
    rw [Binary64.lt_iff, isZero] at positive
    cases positive
  inert := Binary64.alike_add_mul_zero

end Markov
