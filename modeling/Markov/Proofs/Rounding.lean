import Markov.Proofs.SignedZero

/-!
# Signs under rounding

Differences between the values of an iteration are never negative zeros.  A
difference of numbers that compare unequal is not rounded to zero, as both are
multiples of the smallest number there is; what is left has its sign turned to
the positive one, and a quotient of such numbers keeps it.  So the largest of
several differences is not changed by one more difference that is zero.  Nor
does rounding make a sum of numbers negative if none of them is.
-/

namespace Markov

namespace Binary64

open Float.Model (UnpackedFloat Format totalExponent)
open Float.Model.UnpackedFloat

/-! ## Signs -/

/-- Parts of a number whose sign, if it has one, is positive. -/
def Upright : UnpackedFloat → Prop
  | .notANumber => True
  | .infinity sign => sign = .positive
  | .zero sign => sign = .positive
  | .finite sign _ _ _ => sign = .positive

theorem upright_unpack {bits : BitVec Format.binary64.numBits}
    (positive : unpackSign bits = 0#1) : Upright (unpack .binary64 bits) := by
  have sign : Sign.ofBitVec (unpackSign bits) = .positive := by
    rw [positive]
    rfl
  unfold unpack
  dsimp only
  split_ifs
  · exact sign
  · trivial
  · exact sign
  · exact sign
  · exact sign

theorem unpackSign_pack {number : UnpackedFloat} (upright : Upright number) :
    unpackSign (pack .binary64 number) = 0#1 := by
  cases number with
  | notANumber => exact unpackSign_packComponents _ _ _
  | infinity sign =>
      obtain rfl : sign = .positive := upright
      exact unpackSign_packComponents _ _ _
  | zero sign =>
      obtain rfl : sign = .positive := upright
      exact unpackSign_packComponents _ _ _
  | finite sign mantissa exponent positive =>
      obtain rfl : sign = .positive := upright
      unfold pack
      dsimp only
      split_ifs
      · exact unpackSign_packComponents _ _ _
      · exact unpackSign_packComponents _ _ _
      · exact unpackSign_packComponents _ _ _

theorem upright_parts_pack {number : UnpackedFloat}
    (upright : Upright number) :
    Upright (parts (.ofModel (.pack number))) :=
  upright_unpack (unpackSign_pack upright)

theorem upright_roundWithAccuracy (mantissa : Nat) (exponent : Int)
    (accuracy : Accuracy) :
    Upright (roundWithAccuracy .binary64 .positive mantissa exponent accuracy) := by
  unfold roundWithAccuracy
  dsimp only
  split_ifs
  · rfl
  · rfl

theorem upright_div {number divisor : UnpackedFloat} (upright : Upright number)
    (divides : Upright divisor) : Upright (div .binary64 number divisor) := by
  cases number with
  | notANumber => trivial
  | infinity sign =>
      obtain rfl : sign = .positive := upright
      cases divisor with
      | notANumber => trivial
      | infinity other => trivial
      | zero other => exact congrArg (Sign.positive / ·) divides
      | finite other _ _ _ => exact congrArg (Sign.positive / ·) divides
  | zero sign =>
      obtain rfl : sign = .positive := upright
      cases divisor with
      | notANumber => trivial
      | infinity other => exact congrArg (Sign.positive / ·) divides
      | zero other => trivial
      | finite other _ _ _ => exact congrArg (Sign.positive / ·) divides
  | finite sign _ _ _ =>
      obtain rfl : sign = .positive := upright
      cases divisor with
      | notANumber => trivial
      | infinity other => exact congrArg (Sign.positive / ·) divides
      | zero other => exact congrArg (Sign.positive / ·) divides
      | finite other _ _ _ =>
          obtain rfl : other = .positive := divides
          exact upright_roundWithAccuracy _ _ _

theorem neg_eq (a : Float) : -a = .ofModel (.pack (.neg (parts a))) := rfl

theorem div_eq (a b : Float) :
    a / b = .ofModel (.pack (.div .binary64 (parts a) (parts b))) := rfl

theorem upright_neg_of_lt {a : Float} (below : a < 0) :
    Upright (parts (-a)) := by
  rw [neg_eq]
  apply upright_parts_pack
  rw [lt_iff] at below
  cases number : parts a with
  | notANumber => trivial
  | infinity sign =>
      rw [number] at below
      cases sign with
      | negative => rfl
      | positive => cases below
  | zero sign =>
      rw [number] at below
      cases below
  | finite sign _ _ _ =>
      rw [number] at below
      cases sign with
      | negative => rfl
      | positive => cases below

theorem upright_of_not_lt {a : Float} (above : ¬a < 0)
    (notZero : parts a ≠ .zero .negative) : Upright (parts a) := by
  rw [lt_iff] at above
  cases number : parts a with
  | notANumber => trivial
  | infinity sign =>
      rw [number] at above
      cases sign with
      | negative => exact absurd rfl above
      | positive => rfl
  | zero sign =>
      cases sign with
      | negative => exact absurd number notZero
      | positive => rfl
  | finite sign _ _ _ =>
      rw [number] at above
      cases sign with
      | negative => exact absurd rfl above
      | positive => rfl

theorem upright_magnitude {a : Float} (notZero : parts a ≠ .zero .negative) :
    Upright (parts (Scalar.magnitude a)) := by
  unfold Scalar.magnitude
  split_ifs with below
  · exact upright_neg_of_lt below
  · exact upright_of_not_lt below notZero

/-! ## Differences -/

theorem binary64_targetExponent (total : Int) :
    Format.binary64.targetExponent total = max (total - 53) (-1074) := rfl

/-- The digits by which a mantissa is shifted to its place. -/
def excess (mantissa : Nat) (exponent : Int) : Nat :=
  (Format.binary64.targetExponent (totalExponent mantissa exponent) -
    exponent).toNat

theorem excess_eq (mantissa : Nat) {exponent : Int}
    (lowest : -1074 ≤ exponent) :
    excess mantissa exponent = mantissa.log2 - 52 := by
  rw [excess, binary64_targetExponent, totalExponent]
  omega

/-- An exact mantissa that is shifted to its place. -/
def placed (mantissa : Nat) (exponent : Int) : ExtendedMantissa :=
  ExtendedMantissa.mk mantissa false false >>> excess mantissa exponent

theorem mantissa_shiftRight (extended : ExtendedMantissa) (shift : Nat) :
    (extended >>> shift).mantissa = extended.mantissa / 2 ^ shift := by
  induction shift with
  | zero => exact (Nat.div_one _).symm
  | succ shift ih =>
      change (extended >>> shift).mantissa / 2 = _
      rw [ih, Nat.div_div_eq_div_mul, Nat.pow_succ]

/-- In its place a mantissa is still positive, and it fits. -/
theorem placed_bounds {mantissa : Nat} (positive : 0 < mantissa)
    {exponent : Int} (lowest : -1074 ≤ exponent) :
    0 < (placed mantissa exponent).mantissa ∧
      (placed mantissa exponent).mantissa < 2 ^ 53 := by
  have lower : 2 ^ mantissa.log2 ≤ mantissa :=
    Nat.log2_self_le (Nat.ne_of_gt positive)
  have upper : mantissa < 2 ^ (mantissa.log2 + 1) := Nat.lt_log2_self
  rw [placed, mantissa_shiftRight, excess_eq mantissa lowest]
  constructor
  · apply Nat.div_pos _ (Nat.two_pow_pos _)
    exact (Nat.pow_le_pow_right two_pos (Nat.sub_le _ _)).trans lower
  · rw [Nat.div_lt_iff_lt_mul (Nat.two_pow_pos _), ← pow_add]
    exact upper.trans_le (Nat.pow_le_pow_right two_pos (by omega))

theorem le_roundedMantissa (extended : ExtendedMantissa) :
    extended.mantissa ≤ extended.roundedMantissa := by
  unfold ExtendedMantissa.roundedMantissa
  cases extended.accuracy with
  | exact => exact le_rfl
  | inexact order =>
      cases order with
      | lt => exact le_rfl
      | eq => exact Nat.le_add_right _ _
      | gt => exact Nat.le_succ _

/-- Parts of a number that are packed as what they are, or at least not as a
negative zero. -/
def Clear : UnpackedFloat → Prop
  | .notANumber => True
  | .infinity _ => True
  | .zero sign => sign = .positive
  | .finite _ mantissa exponent _ => mantissa < 2 ^ 53 ∧ -1074 ≤ exponent

/-- A multiple of the smallest number is not rounded to zero. -/
theorem clear_roundWithAccuracy (sign : Sign) {mantissa : Nat}
    (positive : 0 < mantissa) {exponent : Int} (lowest : -1074 ≤ exponent) :
    Clear (roundWithAccuracy .binary64 sign mantissa exponent .exact) := by
  have rounded : 0 < (placed mantissa exponent).roundedMantissa :=
    (placed_bounds positive lowest).1.trans_le (le_roundedMantissa _)
  have next : -1074 ≤ exponent + excess mantissa exponent := by omega
  obtain ⟨remains, within⟩ := placed_bounds rounded next
  have final : roundWithAccuracy .binary64 sign mantissa exponent .exact =
      .finite sign _ _ remains := dif_neg remains.ne'
  rw [final]
  exact ⟨within, by omega⟩

theorem clear_round (sign : Sign) {mantissa : Nat} (positive : 0 < mantissa)
    {exponent : Int} (lowest : -1074 ≤ exponent) :
    Clear (round .binary64 sign mantissa exponent) := by
  apply clear_roundWithAccuracy
  · rw [Nat.shiftLeft_eq]
    exact Nat.mul_pos positive (Nat.two_pow_pos _)
  · rw [binary64_targetExponent]
    omega

theorem clear_normalize (mantissa : Int) {exponent : Int}
    (lowest : -1074 ≤ exponent) :
    Clear (UnpackedFloat.normalize .binary64 mantissa exponent .positive) := by
  unfold UnpackedFloat.normalize
  cases order : compare mantissa 0 with
  | lt =>
      have below : mantissa < 0 := Int.compare_eq_lt.mp order
      exact clear_round .negative (by omega) lowest
  | eq => rfl
  | gt =>
      have above : 0 < mantissa := Int.compare_eq_gt.mp order
      exact clear_round .positive (by omega) lowest

theorem of_unpack_eq_zero {bits : BitVec Format.binary64.numBits} {sign : Sign}
    (zero : unpack .binary64 bits = .zero sign) :
    unpackExponent bits = 0#11 ∧ unpackMantissa bits = 0#52 := by
  unfold unpack at zero
  dsimp only at zero
  split_ifs at zero with top bottom exponent mantissa
  exact ⟨exponent, mantissa⟩

theorem parts_pack_ne_negativeZero {number : UnpackedFloat}
    (clear : Clear number) :
    parts (.ofModel (.pack number)) ≠ .zero .negative := by
  intro zero
  obtain ⟨noExponent, noMantissa⟩ := of_unpack_eq_zero zero
  change unpackExponent (pack .binary64 number) = 0#11 at noExponent
  change unpackMantissa (pack .binary64 number) = 0#52 at noMantissa
  cases number with
  | notANumber =>
      rw [pack, packedNaN, unpackExponent_packComponents] at noExponent
      cases noExponent
  | infinity sign =>
      rw [pack, packedInfinity, unpackExponent_packComponents] at noExponent
      cases noExponent
  | zero sign =>
      obtain rfl : sign = .positive := clear
      rw [parts_pack_zero] at zero
      cases zero
  | finite sign mantissa exponent positive =>
      obtain ⟨within, lowest⟩ := clear
      have bias : Format.binary64.exponentBias = 1023 := rfl
      simp only [pack, bias] at noExponent noMantissa
      split_ifs at noExponent noMantissa with overflow normal
      · rw [packedInfinity, unpackExponent_packComponents] at noExponent
        cases noExponent
      · rw [unpackExponent_packComponents] at noExponent
        have value := congrArg BitVec.toNat noExponent
        simp only [BitVec.toNat_ofNat] at value
        omega
      · rw [unpackMantissa_packComponents] at noMantissa
        have value := congrArg BitVec.toNat noMantissa
        have short : mantissa.log2 < 53 :=
          (Nat.log2_lt positive.ne').mpr within
        have shorter : mantissa.log2 < 52 := by
          change ¬mantissa.log2 + 1 = 53 at normal
          omega
        have small : mantissa < 2 ^ 52 := (Nat.log2_lt positive.ne').mp shorter
        simp only [BitVec.toNat_ofNat] at value
        omega

theorem toNat_implicit_append (mantissa : BitVec 52) :
    (1#1 ++ mantissa).toNat = 2 ^ 52 + mantissa.toNat := by
  rw [BitVec.toNat_append, ← Nat.shiftLeft_add_eq_or_of_lt mantissa.isLt]
  simp [Nat.shiftLeft_eq]

/-- What a number consists of is not too long. -/
theorem bounds_of_parts {a : Float} {sign : Sign} {mantissa : Nat}
    {exponent : Int} {positive : 0 < mantissa}
    (number : parts a = .finite sign mantissa exponent positive) :
    mantissa < 2 ^ 53 ∧ -1074 ≤ exponent := by
  let bits : BitVec Format.binary64.numBits := a.toModel.toBits.toBitVec
  have bias : Format.binary64.exponentBias = 1023 := rfl
  have digits : (unpackMantissa bits).toNat < 2 ^ 52 :=
    (unpackMantissa bits).isLt
  have unpacked : parts a = unpack .binary64 bits := rfl
  rw [unpacked] at number
  unfold unpack at number
  dsimp only at number
  split_ifs at number with top bottom subnormal noMantissa
  · cases number
    refine ⟨by omega, ?_⟩
    rw [subnormal, bias]
    decide
  · cases number
    refine ⟨?_, ?_⟩
    · rw [toNat_implicit_append]
      omega
    · have some : (unpackExponent bits).toNat ≠ 0 := fun none =>
        subnormal (BitVec.eq_of_toNat_eq none)
      rw [bias]
      omega

/-- A difference of numbers that compare unequal is not a negative zero. -/
theorem clear_sub {old new : Float} (unequal : (old == new) = false) :
    Clear (sub .binary64 (parts new) (parts old)) := by
  rw [beq_eq] at unequal
  cases after : parts new with
  | notANumber => trivial
  | infinity sign =>
      cases parts old with
      | notANumber => trivial
      | infinity other => cases sign <;> cases other <;> trivial
      | zero other => trivial
      | finite other _ _ _ => trivial
  | zero sign =>
      cases before : parts old with
      | notANumber => trivial
      | infinity other => trivial
      | zero other =>
          rw [before, after] at unequal
          cases unequal
      | finite other _ _ _ => exact bounds_of_parts before
  | finite sign _ exponent _ =>
      have here := bounds_of_parts after
      cases before : parts old with
      | notANumber => trivial
      | infinity other => trivial
      | zero other => exact here
      | finite other _ otherExponent _ =>
          have there := bounds_of_parts before
          exact clear_normalize _ (le_min here.2 there.2)

/-! ## Gaps -/

theorem upright_gap (criterion : Criterion) (old new : Float) :
    Upright (parts (criterion.gap old new)) := by
  have difference : (old == new) = false →
      Upright (parts (Scalar.magnitude (new - old))) := fun unequal =>
    upright_magnitude (parts_pack_ne_negativeZero (clear_sub unequal))
  unfold Criterion.gap
  split
  · rfl
  · rename_i unequal
    have distance := difference (eq_false_of_ne_true unequal)
    cases criterion with
    | absolute => exact distance
    | relative =>
        dsimp only
        split
        · exact distance
        · rename_i nonzero
          have divisor : Upright (parts (Scalar.magnitude new)) := by
            apply upright_magnitude
            intro zero
            exact nonzero (beq_zero_iff.mpr ⟨_, zero⟩)
          rw [div_eq]
          exact upright_parts_pack (upright_div distance divisor)

theorem larger_zero_of_upright {a : Float} (upright : Upright (parts a))
    (number : (a == a) = true) : Scalar.larger a 0 = a := by
  have larger : Scalar.larger a 0 = if 0 < a then a else 0 := rfl
  have positive : (parts 0).lt (parts a) = true → Scalar.larger a 0 = a :=
    fun above => larger.trans (if_pos ((lt_iff 0 a).mpr above))
  cases isA : parts a with
  | notANumber =>
      rw [beq_eq, isA] at number
      cases number
  | infinity sign =>
      rw [isA] at upright positive
      obtain rfl : sign = .positive := upright
      exact positive rfl
  | zero sign =>
      rw [isA] at upright
      obtain rfl : sign = .positive := upright
      have zero : a = 0 := by
        rw [← ofModel_pack_parts a, isA]
        rfl
      rw [larger, zero, ite_self]
  | finite sign _ _ _ =>
      rw [isA] at upright positive
      obtain rfl : sign = .positive := upright
      exact positive rfl

/-! ## Numbers that are not negative -/

/-- Parts of a number that is not negative.  A zero may have either sign. -/
def NotNegative : UnpackedFloat → Prop
  | .notANumber => False
  | .infinity sign => sign = .positive
  | .zero _ => True
  | .finite sign _ _ _ => sign = .positive

theorem le_iff (a b : Float) : a ≤ b ↔ (parts a).le (parts b) = true :=
  decide_eq_true_iff

theorem zero_le_iff {a : Float} : 0 ≤ a ↔ NotNegative (parts a) := by
  have zero : parts 0 = .zero .positive := rfl
  rw [le_iff, zero]
  cases parts a with
  | notANumber => simp [NotNegative, UnpackedFloat.le, UnpackedFloat.compare]
  | infinity sign =>
      cases sign <;>
        simp [NotNegative, UnpackedFloat.le, UnpackedFloat.compare]
  | zero sign => simp [NotNegative, UnpackedFloat.le, UnpackedFloat.compare]
  | finite sign _ _ _ =>
      cases sign <;>
        simp [NotNegative, UnpackedFloat.le, UnpackedFloat.compare]

theorem notNegative_normalize {mantissa : Int} (above : 0 ≤ mantissa)
    (exponent : Int) :
    NotNegative (UnpackedFloat.normalize .binary64 mantissa exponent .positive) := by
  unfold UnpackedFloat.normalize
  cases order : compare mantissa 0 with
  | lt => exact absurd (Int.compare_eq_lt.mp order) (by omega)
  | eq => trivial
  | gt =>
      dsimp only
      unfold UnpackedFloat.round roundWithAccuracy
      dsimp only
      split_ifs
      · trivial
      · rfl

theorem notNegative_add {first second : UnpackedFloat}
    (left : NotNegative first) (right : NotNegative second) :
    NotNegative (UnpackedFloat.add .binary64 first second) := by
  cases first with
  | notANumber => exact left.elim
  | infinity sign =>
      obtain rfl : sign = .positive := left
      cases second with
      | notANumber => exact right.elim
      | infinity other =>
          obtain rfl : other = .positive := right
          rfl
      | zero other => rfl
      | finite other _ _ _ => rfl
  | zero sign =>
      cases second with
      | notANumber => exact right.elim
      | infinity other => exact right
      | zero other =>
          obtain ⟨result, zero⟩ := add_zeros sign other
          rw [zero]
          trivial
      | finite other _ _ _ => exact right
  | finite sign _ _ _ =>
      obtain rfl : sign = .positive := left
      cases second with
      | notANumber => exact right.elim
      | infinity other => exact right
      | zero other => rfl
      | finite other _ _ _ =>
          obtain rfl : other = .positive := right
          apply notNegative_normalize
          exact Int.add_nonneg (Int.natCast_nonneg _) (Int.natCast_nonneg _)

theorem notNegative_unpack {exponent : BitVec 11} (regular : exponent ≠ -1#11)
    (mantissa : BitVec 52) :
    NotNegative (unpack .binary64
      (packComponents .binary64 .positive exponent mantissa)) := by
  have sign : Sign.ofBitVec (unpackSign
      (packComponents .binary64 .positive exponent mantissa)) = .positive := by
    rw [unpackSign_packComponents]
    rfl
  unfold unpack
  dsimp only
  rw [unpackExponent_packComponents, if_neg regular]
  split_ifs
  · trivial
  · exact sign
  · exact sign

/-- Rounding does not make a number negative. -/
theorem notNegative_parts_pack {number : UnpackedFloat}
    (notNegative : NotNegative number) :
    NotNegative (parts (.ofModel (.pack number))) := by
  have infinity : NotNegative (unpack .binary64
      (packedInfinity .binary64 .positive)) := by
    have whole : unpack .binary64 (packedInfinity .binary64 .positive) =
        .infinity .positive := rfl
    rw [whole]
    rfl
  cases number with
  | notANumber => exact notNegative.elim
  | infinity sign =>
      obtain rfl : sign = .positive := notNegative
      exact infinity
  | zero sign =>
      rw [parts_pack_zero]
      trivial
  | finite sign mantissa exponent positive =>
      obtain rfl : sign = .positive := notNegative
      change NotNegative (unpack .binary64 (pack .binary64 _))
      unfold pack
      dsimp only
      split_ifs with overflow
      · exact infinity
      · apply notNegative_unpack
        intro top
        have value := congrArg BitVec.toNat top
        change ¬2048 ≤ _ + 1 at overflow
        change _ % 2048 = 2047 at value
        omega
      · exact notNegative_unpack (by decide) _

theorem add_nonneg {a b : Float} (left : 0 ≤ a) (right : 0 ≤ b) : 0 ≤ a + b := by
  rw [zero_le_iff] at left right ⊢
  exact notNegative_parts_pack (notNegative_add left right)

end Binary64

/-- Arithmetic in which a loop does not move a value of zero, and a difference
of zero does not show among others. -/
structure LoopsRest (R : Type) [Scalar R] : Prop where
  rest : (0 : R) + (Scalar.emptySum + 1 * 0) = 0
  beq_zero : ((0 : R) == 0) = true
  gap : ∀ (criterion : Criterion) (old new : R),
    (criterion.gap old new == criterion.gap old new) = true →
    Scalar.larger (criterion.gap old new) 0 = criterion.gap old new

theorem loopsRest_float : LoopsRest Float where
  rest := by decide +kernel
  beq_zero := by decide +kernel
  gap criterion old new :=
    Binary64.larger_zero_of_upright (Binary64.upright_gap criterion old new)

end Markov
