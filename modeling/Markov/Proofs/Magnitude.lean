import Markov.Proofs.Widening

/-!
# Sizes of numbers

A number that is neither negative nor infinite is a multiple of the smallest
positive one.  The multiple is its size, and numbers are in the order of their
sizes.  The size of a sum is the sum of the sizes, rounded to 53 digits, and
that of a product is the product of the sizes in finer units, rounded likewise.
As rounding keeps the order, a sum does not fall when its summands grow, and a
product with a factor up to one is not above the other factor.
-/

namespace Markov

namespace Binary64

open Float.Model (UnpackedFloat Format totalExponent)
open Float.Model.UnpackedFloat

/-! ## Rounding in finer units -/

/-- The number of digits that are cut off from `n` finer units, of which `2 ^ k`
make one unit: no part of a unit is kept, and no more than 53 digits. -/
def cutOff (k n : Nat) : Nat := max (n.log2 - 52) k

/-- The number of units with 53 digits that is nearest to `n` finer units. -/
def nearestIn (k n : Nat) : Nat :=
  halfEven n (2 ^ cutOff k n) * 2 ^ (cutOff k n - k)

theorem le_cutOff (k n : Nat) : k ≤ cutOff k n := Nat.le_max_right _ _

theorem nearestIn_none (k : Nat) : nearestIn k 0 = 0 := by
  rw [nearestIn, halfEven_of_dvd (Nat.two_pow_pos _) (dvd_zero _), Nat.zero_div,
    Nat.zero_mul]

theorem halfEven_cutOff_le (k n : Nat) : halfEven n (2 ^ cutOff k n) ≤ 2 ^ 53 := by
  have digits : n ≤ 2 ^ (53 + cutOff k n) := by
    refine Nat.lt_log2_self.le.trans (Nat.pow_le_pow_right two_pos ?_)
    unfold cutOff
    omega
  calc
    halfEven n (2 ^ cutOff k n)
        ≤ halfEven (2 ^ (53 + cutOff k n)) (2 ^ cutOff k n) :=
      halfEven_mono _ digits
    _ = 2 ^ 53 := by
      rw [pow_add, halfEven_of_dvd (Nat.two_pow_pos _) (Nat.dvd_mul_left _ _),
        Nat.mul_div_cancel _ (Nat.two_pow_pos _)]

theorem le_halfEven_cutOff {k n : Nat} (long : k < cutOff k n) :
    2 ^ 52 ≤ halfEven n (2 ^ cutOff k n) := by
  have length : n.log2 = 52 + cutOff k n := by
    unfold cutOff at long ⊢
    omega
  have positive : n ≠ 0 := by
    rintro rfl
    rw [Nat.log2_zero] at length
    omega
  calc
    2 ^ 52 = halfEven (2 ^ (52 + cutOff k n)) (2 ^ cutOff k n) := by
      rw [pow_add, halfEven_of_dvd (Nat.two_pow_pos _) (Nat.dvd_mul_left _ _),
        Nat.mul_div_cancel _ (Nat.two_pow_pos _)]
    _ ≤ halfEven n (2 ^ cutOff k n) :=
      halfEven_mono _ (length ▸ Nat.log2_self_le positive)

theorem nearestIn_mono (k : Nat) {m n : Nat} (ordered : m ≤ n) :
    nearestIn k m ≤ nearestIn k n := by
  have lengths : m.log2 ≤ n.log2 := by
    rcases Nat.eq_zero_or_pos m with rfl | positive
    · simp
    · rw [Nat.le_log2 (by omega)]
      exact (Nat.log2_self_le positive.ne').trans ordered
  have cuts : cutOff k m ≤ cutOff k n := by
    unfold cutOff
    omega
  rcases cuts.lt_or_eq with less | same
  · have more : k < cutOff k n := (le_cutOff k m).trans_lt less
    calc
      nearestIn k m ≤ 2 ^ 53 * 2 ^ (cutOff k m - k) :=
        Nat.mul_le_mul_right _ (halfEven_cutOff_le k m)
      _ = 2 ^ 52 * 2 ^ (cutOff k m + 1 - k) := by
        rw [← pow_add, ← pow_add]
        congr 1
        have := le_cutOff k m
        omega
      _ ≤ 2 ^ 52 * 2 ^ (cutOff k n - k) :=
        Nat.mul_le_mul_left _ (Nat.pow_le_pow_right two_pos (by omega))
      _ ≤ nearestIn k n := Nat.mul_le_mul_right _ (le_halfEven_cutOff more)
  · unfold nearestIn
    rw [same]
    exact Nat.mul_le_mul_right _ (halfEven_mono _ ordered)

/-- A number with 53 digits is nearest to itself, in units of any size. -/
theorem nearestIn_of_short (k : Nat) {mantissa place : Nat}
    (positive : 0 < mantissa) (short : mantissa < 2 ^ 53) :
    nearestIn k (mantissa * 2 ^ place * 2 ^ k) = mantissa * 2 ^ place := by
  have length : mantissa.log2 < 53 := (Nat.log2_lt positive.ne').mpr short
  have cut : cutOff k (mantissa * 2 ^ place * 2 ^ k) ≤ place + k := by
    rw [cutOff, mul_assoc, ← pow_add, log2_mul_two_pow positive]
    omega
  have divides : 2 ^ cutOff k (mantissa * 2 ^ place * 2 ^ k) ∣
      mantissa * 2 ^ place * 2 ^ k :=
    (Nat.pow_dvd_pow 2 cut).trans
      ⟨mantissa, by rw [mul_assoc, ← pow_add, mul_comm]⟩
  apply Nat.eq_of_mul_eq_mul_right (Nat.two_pow_pos k)
  rw [nearestIn, mul_assoc, ← pow_add, Nat.sub_add_cancel (le_cutOff k _)]
  exact halfEven_mul_of_dvd (Nat.two_pow_pos _) divides

/-! ## Sizes -/

/-- The parts of a number that is not negative, and its size in units of the
smallest positive number. -/
inductive Sized : UnpackedFloat → Nat → Prop where
  | zero (sign : Sign) : Sized (.zero sign) 0
  | finite {mantissa place : Nat} (positive : 0 < mantissa)
      (short : mantissa < 2 ^ 53) (full : 2 ^ 52 ≤ mantissa ∨ place = 0) :
      Sized (.finite .positive mantissa ((place : Int) - 1074) positive)
        (mantissa * 2 ^ place)

theorem Sized.of_exponent {mantissa : Nat} {exponent : Int}
    {positive : 0 < mantissa} (place : Nat) (short : mantissa < 2 ^ 53)
    (full : 2 ^ 52 ≤ mantissa ∨ place = 0) (placed : exponent = place - 1074) :
    Sized (.finite .positive mantissa exponent positive) (mantissa * 2 ^ place) := by
  subst placed
  exact .finite positive short full

theorem Sized.notNegative {number : UnpackedFloat} {size : Nat}
    (sized : Sized number size) : NotNegative number := by
  cases sized with
  | zero sign => trivial
  | finite positive short full => rfl

theorem Sized.nearestIn {number : UnpackedFloat} {size : Nat}
    (sized : Sized number size) (k : Nat) :
    nearestIn k (size * 2 ^ k) = size := by
  cases sized with
  | zero sign => rw [Nat.zero_mul, nearestIn_none]
  | finite positive short _ => exact nearestIn_of_short k positive short

/-- A lower place is made up for by digits that are missing in it. -/
private theorem mul_two_pow_lt {first second place higher : Nat}
    (short : first < 2 ^ 53) (full : 2 ^ 52 ≤ second ∨ higher = 0)
    (less : place < higher) :
    first * 2 ^ place < second * 2 ^ higher :=
  calc
    first * 2 ^ place < 2 ^ 53 * 2 ^ place :=
      Nat.mul_lt_mul_of_pos_right short (Nat.two_pow_pos _)
    _ = 2 ^ 52 * 2 ^ (place + 1) := by
      rw [← pow_add, ← pow_add]
      congr 1
      omega
    _ ≤ second * 2 ^ higher :=
      Nat.mul_le_mul (full.resolve_right (by omega))
        (Nat.pow_le_pow_right two_pos less)

/-- Numbers are in the order of their sizes. -/
theorem Sized.compare {a b : UnpackedFloat} {x y : Nat} (left : Sized a x)
    (right : Sized b y) : a.compare b = some (compare x y) := by
  cases left with
  | zero sign =>
      cases right with
      | zero other => rfl
      | @finite second higher positive _ _ =>
          have above := Nat.mul_pos positive (Nat.two_pow_pos higher)
          rw [Nat.compare_eq_lt.mpr above]
          rfl
  | @finite first place firstPositive firstShort firstFull =>
      cases right with
      | zero other =>
          have above := Nat.mul_pos firstPositive (Nat.two_pow_pos place)
          rw [Nat.compare_eq_gt.mpr above]
          rfl
      | @finite second higher secondPositive secondShort secondFull =>
          change some ((Ord.compare _ _).then (Ord.compare _ _)) = _
          congr 1
          rcases Nat.lt_trichotomy place higher with less | rfl | more
          · have exponents : (place : Int) - 1074 < higher - 1074 := by omega
            rw [Int.compare_eq_lt.mpr exponents, Nat.compare_eq_lt.mpr
              (mul_two_pow_lt firstShort secondFull less)]
            rfl
          · rw [Int.compare_eq_eq.mpr rfl]
            change Ord.compare first second = _
            have scale : 0 < 2 ^ place := Nat.two_pow_pos place
            rcases Nat.lt_trichotomy first second with lt | rfl | gt
            · rw [Nat.compare_eq_lt.mpr lt, Nat.compare_eq_lt.mpr
                (Nat.mul_lt_mul_of_pos_right lt scale)]
            · rw [Nat.compare_eq_eq.mpr rfl, Nat.compare_eq_eq.mpr rfl]
            · rw [Nat.compare_eq_gt.mpr gt, Nat.compare_eq_gt.mpr
                (Nat.mul_lt_mul_of_pos_right gt scale)]
          · have exponents : (higher : Int) - 1074 < place - 1074 := by omega
            rw [Int.compare_eq_gt.mpr exponents, Nat.compare_eq_gt.mpr
              (mul_two_pow_lt secondShort firstFull more)]
            rfl

/-! ## Packing -/

/-- The number of digits from which on sizes are those of infinite numbers. -/
@[irreducible]
def maxDigits : Nat := 2098

/-- The size from which on numbers are infinite. -/
def beyond : Nat := 2 ^ maxDigits

theorem maxDigits_eq : maxDigits = 2098 := by
  unfold maxDigits
  rfl

theorem two_pow_lt_beyond {digits : Nat} : 2 ^ digits < beyond ↔ digits < 2098 := by
  rw [← maxDigits_eq]
  exact Nat.pow_lt_pow_iff_right one_lt_two

theorem two_pow_le_beyond {digits : Nat} : 2 ^ digits ≤ beyond ↔ digits ≤ 2098 := by
  rw [← maxDigits_eq]
  exact Nat.pow_le_pow_iff_right one_lt_two

theorem beyond_lt_two_pow {digits : Nat} : beyond < 2 ^ digits ↔ 2098 < digits := by
  rw [← maxDigits_eq]
  exact Nat.pow_lt_pow_iff_right one_lt_two

theorem unpack_of_subnormal {bits : BitVec Format.binary64.numBits}
    (bottom : unpackExponent bits = 0#11) (digits : unpackMantissa bits ≠ 0#52) :
    unpack .binary64 bits =
      .finite (Sign.ofBitVec (unpackSign bits)) (unpackMantissa bits).toNat (-1074)
        (Nat.pos_of_ne_zero fun none => digits (BitVec.eq_of_toNat_eq none)) := by
  have notTop : unpackExponent bits ≠ -1#11 := by
    rw [bottom]
    decide
  unfold unpack
  dsimp only
  rw [if_neg notTop, if_pos bottom, dif_neg digits, UnpackedFloat.finite.injEq]
  refine ⟨rfl, rfl, ?_⟩
  rw [bottom]
  rfl

theorem parts_pack_subnormal {mantissa : Nat} (positive : 0 < mantissa)
    (small : mantissa < 2 ^ 52) :
    parts (.ofModel (.pack (.finite .positive mantissa (-1074) positive))) =
      .finite .positive mantissa (-1074) positive := by
  have digits : (BitVec.ofNat 52 mantissa).toNat = mantissa := by
    rw [BitVec.toNat_ofNat, Nat.mod_eq_of_lt small]
  have packed : pack .binary64 (.finite .positive mantissa (-1074) positive) =
      packComponents .binary64 .positive 0#11 (BitVec.ofNat 52 mantissa) := by
    have inRange : ¬2 ^ Format.binary64.exponentBits ≤
        ((-1074 : Int) + Format.binary64.exponentBias +
          Format.binary64.mantissaBitsWithoutImplicit).toNat + 1 := by
      decide
    have length : mantissa.log2 < 52 := (Nat.log2_lt positive.ne').mpr small
    have notNormal : ¬mantissa.log2 + 1 = Format.binary64.mantissaBits := by
      change ¬mantissa.log2 + 1 = 53
      omega
    simp only [pack, if_neg inRange, if_neg notNormal]
  change unpack .binary64 (pack .binary64 _) = _
  rw [packed, unpack_of_subnormal, UnpackedFloat.finite.injEq,
    unpackSign_packComponents, unpackMantissa_packComponents]
  · exact ⟨rfl, digits, rfl⟩
  · exact unpackExponent_packComponents
  · rw [unpackMantissa_packComponents]
    intro none
    rw [none] at digits
    exact positive.ne digits

theorem Sized.parts_pack {number : UnpackedFloat} {size : Nat}
    (sized : Sized number size) (inside : size < beyond) :
    parts (.ofModel (.pack number)) = number := by
  cases sized with
  | zero sign => exact parts_pack_zero sign
  | @finite mantissa place positive short full =>
      by_cases normal : 2 ^ 52 ≤ mantissa
      · have lower : 2 ^ (52 + place) ≤ mantissa * 2 ^ place := by
          rw [pow_add]
          exact Nat.mul_le_mul_right _ normal
        have places := two_pow_lt_beyond.mp (lower.trans_lt inside)
        exact parts_pack_of_isFull .positive ⟨normal, short⟩ (by omega)
          (by omega)
      · obtain rfl : place = 0 := full.resolve_left normal
        exact parts_pack_subnormal positive (Nat.lt_of_not_le normal)

theorem Sized.parts_pack_of_beyond {number : UnpackedFloat} {size : Nat}
    (sized : Sized number size) (outside : beyond ≤ size) :
    parts (.ofModel (.pack number)) = .infinity .positive := by
  cases sized with
  | zero sign =>
      have some : 2 ^ 0 < beyond := two_pow_lt_beyond.mpr (by decide)
      omega
  | @finite mantissa place positive short full =>
      have upper : mantissa * 2 ^ place < 2 ^ (53 + place) := by
        rw [pow_add]
        exact Nat.mul_lt_mul_of_pos_right short (Nat.two_pow_pos _)
      have places := beyond_lt_two_pow.mp (outside.trans_lt upper)
      have overflow : 2 ^ Format.binary64.exponentBits ≤
          ((place : Int) - 1074 + Format.binary64.exponentBias +
            Format.binary64.mantissaBitsWithoutImplicit).toNat + 1 := by
        change 2048 ≤ ((place : Int) - 1074 + (1023 : Nat) + (52 : Nat)).toNat + 1
        omega
      have packed : pack .binary64
          (.finite .positive mantissa ((place : Int) - 1074) positive) =
            packedInfinity .binary64 .positive := by
        simp only [pack, if_pos overflow]
      change unpack .binary64 (pack .binary64 _) = _
      rw [packed]
      rfl

/-! ## Rounding -/

/-- What is kept has 53 digits or one place more, if there was a carry out of all
of them. -/
private theorem carry_spec {kept place : Nat} (positive : 0 < kept)
    (upper : kept ≤ 2 ^ 53) (full : 2 ^ 52 ≤ kept ∨ place = 0) :
    kept / 2 ^ (kept.log2 - 52) * 2 ^ (kept.log2 - 52) = kept ∧
      0 < kept / 2 ^ (kept.log2 - 52) ∧ kept / 2 ^ (kept.log2 - 52) < 2 ^ 53 ∧
      (2 ^ 52 ≤ kept / 2 ^ (kept.log2 - 52) ∨ place + (kept.log2 - 52) = 0) := by
  rcases upper.lt_or_eq with short | rfl
  · have length : kept.log2 < 53 := (Nat.log2_lt positive.ne').mpr short
    rw [show kept.log2 - 52 = 0 by omega, pow_zero, Nat.div_one, Nat.mul_one]
    exact ⟨rfl, positive, short, full⟩
  · rw [Nat.log2_two_pow]
    exact ⟨by decide, by decide, by decide, .inl (by decide)⟩

/-- The size of a rounded number whose digits are kept in their place. -/
private theorem sized_of_rounded {mantissa kept place : Nat} {exponent : Int}
    (rounded : (placed mantissa exponent).roundedMantissa = kept)
    (moved : exponent + excess mantissa exponent = (place : Int) - 1074)
    (upper : kept ≤ 2 ^ 53) (full : 2 ^ 52 ≤ kept ∨ place = 0) :
    Sized (roundWithAccuracy .binary64 .positive mantissa exponent .exact)
      (kept * 2 ^ place) := by
  have again : excess kept ((place : Int) - 1074) = kept.log2 - 52 :=
    excess_eq kept (by omega)
  have final : (placed kept ((place : Int) - 1074)).mantissa =
      kept / 2 ^ (kept.log2 - 52) := by
    rw [placed, mantissa_shiftRight, again]
  rcases Nat.eq_zero_or_pos kept with none | some
  · have vanishes : roundWithAccuracy .binary64 .positive mantissa exponent
        .exact = .zero .positive := by
      apply dif_pos
      change (placed (placed mantissa exponent).roundedMantissa
        (exponent + excess mantissa exponent)).mantissa = 0
      rw [rounded, moved, final, none, Nat.zero_div]
    rw [none, Nat.zero_mul, vanishes]
    exact .zero .positive
  · obtain ⟨carried, positive, short, digitsFull⟩ := carry_spec some upper full
    have remains : (placed (placed mantissa exponent).roundedMantissa
        (exponent + excess mantissa exponent)).mantissa ≠ 0 := by
      rw [rounded, moved, final]
      exact positive.ne'
    have result : roundWithAccuracy .binary64 .positive mantissa exponent
        .exact = .finite .positive (kept / 2 ^ (kept.log2 - 52))
          (((place + (kept.log2 - 52) : Nat) : Int) - 1074) positive := by
      refine (dif_neg remains).trans ?_
      rw [UnpackedFloat.finite.injEq]
      refine ⟨rfl, ?_, ?_⟩
      · rw [← final, ← moved, ← rounded]
        rfl
      · change exponent + excess mantissa exponent +
          excess (placed mantissa exponent).roundedMantissa
            (exponent + excess mantissa exponent) = _
        rw [rounded, moved, again]
        omega
    have same : kept * 2 ^ place =
        kept / 2 ^ (kept.log2 - 52) * 2 ^ (place + (kept.log2 - 52)) := by
      rw [Nat.add_comm place, pow_add, ← mul_assoc, carried]
    rw [result, same]
    exact .finite positive short digitsFull

/-- Rounding leads to the nearest size, if all digits that can be kept are
there. -/
theorem sized_roundWithAccuracy {mantissa : Nat} (positive : 0 < mantissa)
    (k : Nat) {scale : Nat} (enough : 52 ≤ mantissa.log2 ∨ scale ≤ k) :
    Sized (roundWithAccuracy .binary64 .positive mantissa
        ((scale : Int) - k - 1074) .exact)
      (nearestIn k (mantissa * 2 ^ scale)) := by
  have least := le_cutOff k (mantissa * 2 ^ scale)
  have shift : excess mantissa ((scale : Int) - k - 1074) + scale =
      cutOff k (mantissa * 2 ^ scale) := by
    rw [excess, binary64_targetExponent, totalExponent, cutOff,
      log2_mul_two_pow positive]
    omega
  refine sized_of_rounded ?_ ?_ (halfEven_cutOff_le k _) ?_
  · rw [placed, (tracks_shiftRight mantissa _).roundedMantissa, ← shift, pow_add]
    exact (halfEven_mul_right _ _ (Nat.two_pow_pos scale)).symm
  · omega
  · rcases least.lt_or_eq with long | same
    · exact .inl (le_halfEven_cutOff long)
    · exact .inr (by omega)

/-- Digits that are missing are filled up before rounding. -/
theorem sized_round {mantissa : Nat} (positive : 0 < mantissa) (place : Nat) :
    Sized (round .binary64 .positive mantissa ((place : Int) - 1074))
      (nearestIn 0 (mantissa * 2 ^ place)) := by
  obtain ⟨shift, isShift⟩ : ∃ shift : Nat, shift = min place (52 - mantissa.log2) :=
    ⟨_, rfl⟩
  have amount : ((place : Int) - 1074 - Format.binary64.targetExponent
      (totalExponent mantissa ((place : Int) - 1074))).toNat = shift := by
    rw [binary64_targetExponent, totalExponent]
    omega
  have filled : round .binary64 .positive mantissa ((place : Int) - 1074) =
      roundWithAccuracy .binary64 .positive (mantissa * 2 ^ shift)
        (((place - shift : Nat) : Int) - (0 : Nat) - 1074) .exact := by
    change roundWithAccuracy .binary64 .positive (mantissa <<< _) (_ - _) .exact = _
    rw [amount, Nat.shiftLeft_eq]
    congr 1
    omega
  have same : mantissa * 2 ^ place =
      mantissa * 2 ^ shift * 2 ^ (place - shift) := by
    rw [mul_assoc, ← pow_add]
    congr 2
    omega
  rw [filled, same]
  apply sized_roundWithAccuracy (Nat.mul_pos positive (Nat.two_pow_pos shift))
  rw [log2_mul_two_pow positive]
  omega

private theorem sized_add_finite {first second : Nat} (firstPositive : 0 < first)
    (secondPositive : 0 < second) (place higher : Nat) :
    Sized (UnpackedFloat.add .binary64
        (.finite .positive first ((place : Int) - 1074) firstPositive)
        (.finite .positive second ((higher : Int) - 1074) secondPositive))
      (nearestIn 0 (first * 2 ^ place + second * 2 ^ higher)) := by
  obtain ⟨low, isLow⟩ : ∃ low : Nat, low = min place higher := ⟨_, rfl⟩
  have lower : min ((place : Int) - 1074) ((higher : Int) - 1074) =
      (low : Int) - 1074 := by
    omega
  have shifts : ((place : Int) - 1074 - ((low : Int) - 1074)).toNat = place - low ∧
      ((higher : Int) - 1074 - ((low : Int) - 1074)).toNat = higher - low := by
    omega
  obtain ⟨sum, isSum⟩ : ∃ sum : Nat,
      sum = first * 2 ^ (place - low) + second * 2 ^ (higher - low) := ⟨_, rfl⟩
  have positive : 0 < sum := by
    rw [isSum]
    exact Nat.add_pos_left (Nat.mul_pos firstPositive (Nat.two_pow_pos _)) _
  have same : first * 2 ^ place + second * 2 ^ higher = sum * 2 ^ low := by
    rw [isSum, Nat.add_mul, mul_assoc, mul_assoc, ← pow_add, ← pow_add,
      Nat.sub_add_cancel (by omega), Nat.sub_add_cancel (by omega)]
  have normalized : UnpackedFloat.add .binary64
      (.finite .positive first ((place : Int) - 1074) firstPositive)
      (.finite .positive second ((higher : Int) - 1074) secondPositive) =
        UnpackedFloat.normalize .binary64 (sum : Int) ((low : Int) - 1074)
          .positive := by
    simp only [UnpackedFloat.add, decreaseExponent, lower, shifts.1, shifts.2,
      Sign.apply, Nat.shiftLeft_eq, isSum, Nat.cast_add]
  rw [normalized, same, UnpackedFloat.normalize,
    Int.compare_eq_gt.mpr (Int.natCast_pos.mpr positive)]
  exact sized_round positive low

/-- The size of a sum is the nearest one to the sum of the sizes. -/
theorem Sized.add {a b : UnpackedFloat} {x y : Nat} (left : Sized a x)
    (right : Sized b y) :
    Sized (UnpackedFloat.add .binary64 a b) (Binary64.nearestIn 0 (x + y)) := by
  cases left with
  | zero sign =>
      have kept := right.nearestIn 0
      rw [pow_zero, Nat.mul_one] at kept
      rw [Nat.zero_add, kept]
      cases right with
      | zero other => cases sign <;> cases other <;> exact .zero _
      | finite positive short full => exact .finite positive short full
  | @finite first place firstPositive firstShort firstFull =>
      cases right with
      | zero other =>
          have kept := (Sized.finite firstPositive firstShort firstFull).nearestIn 0
          rw [pow_zero, Nat.mul_one] at kept
          rw [Nat.add_zero, kept]
          exact .finite firstPositive firstShort firstFull
      | @finite second higher secondPositive secondShort secondFull =>
          exact sized_add_finite firstPositive secondPositive place higher

/-- The size of a product is the nearest one to the product of the sizes, which
counts in smaller units. -/
theorem Sized.mul {a b : UnpackedFloat} {x y : Nat} (left : Sized a x)
    (right : Sized b y) :
    Sized (UnpackedFloat.mul .binary64 a b)
      (Binary64.nearestIn 1074 (x * y)) := by
  cases left with
  | zero sign =>
      rw [Nat.zero_mul, nearestIn_none]
      cases right with
      | zero other => exact .zero _
      | finite positive short full => exact .zero _
  | @finite first place firstPositive firstShort firstFull =>
      cases right with
      | zero other =>
          rw [Nat.mul_zero, nearestIn_none]
          exact .zero _
      | @finite second higher secondPositive secondShort secondFull =>
          have exponents : ((place : Int) - 1074) + ((higher : Int) - 1074) =
              ((place + higher : Nat) : Int) - (1074 : Nat) - 1074 := by
            omega
          have same : first * 2 ^ place * (second * 2 ^ higher) =
              first * second * 2 ^ (place + higher) := by
            rw [pow_add]
            ring
          change Sized (roundWithAccuracy .binary64 .positive (first * second)
            (_ + _) .exact) _
          rw [exponents, same]
          apply sized_roundWithAccuracy (Nat.mul_pos firstPositive secondPositive)
          -- Either factor has all its digits, or no digit is before the point.
          rw [Nat.le_log2 (Nat.mul_pos firstPositive secondPositive).ne']
          rcases firstFull with full | rfl
          · exact .inl (full.trans (Nat.le_mul_of_pos_right _ secondPositive))
          · rcases secondFull with full | rfl
            · exact .inl (full.trans (Nat.le_mul_of_pos_left _ firstPositive))
            · exact .inr (Nat.zero_le _)

/-! ## Numbers with sizes -/

/-- A number that is neither negative nor infinite, and its size. -/
def HasSize (a : Float) (size : Nat) : Prop := Sized (parts a) size ∧ size < beyond

theorem mul_two_pow_lt_beyond {mantissa place : Nat} (short : mantissa < 2 ^ 53)
    (low : place ≤ 2045) : mantissa * 2 ^ place < beyond :=
  calc
    mantissa * 2 ^ place < 2 ^ 53 * 2 ^ place :=
      Nat.mul_lt_mul_of_pos_right short (Nat.two_pow_pos _)
    _ = 2 ^ (53 + place) := (pow_add 2 53 place).symm
    _ ≤ beyond := two_pow_le_beyond.mpr (Nat.add_le_add_left low 53)

theorem exists_sized_unpack {bits : BitVec Format.binary64.numBits}
    (notNegative : NotNegative (unpack .binary64 bits))
    (finite : (unpack .binary64 bits).isFinite = true) :
    ∃ size, Sized (unpack .binary64 bits) size ∧ size < beyond := by
  have short : (unpackMantissa bits).toNat < 2 ^ 52 := (unpackMantissa bits).isLt
  by_cases top : unpackExponent bits = -1#11
  · unfold unpack at finite
    dsimp only at finite
    rw [if_pos top] at finite
    split_ifs at finite <;> cases finite
  by_cases bottom : unpackExponent bits = 0#11
  · by_cases none : unpackMantissa bits = 0#52
    · have isZero : unpack .binary64 bits =
          .zero (Sign.ofBitVec (unpackSign bits)) := by
        unfold unpack
        dsimp only
        rw [if_neg top, if_pos bottom, dif_pos none]
      rw [isZero]
      exact ⟨0, .zero _, Nat.two_pow_pos _⟩
    · rw [unpack_of_subnormal bottom none] at notNegative ⊢
      have sign : Sign.ofBitVec (unpackSign bits) = .positive := notNegative
      rw [sign]
      exact ⟨_, .of_exponent 0 (by omega) (.inr rfl) rfl,
        mul_two_pow_lt_beyond (by omega) (Nat.zero_le _)⟩
  · rw [unpack_of_exponent top bottom] at notNegative ⊢
    have sign : Sign.ofBitVec (unpackSign bits) = .positive := notNegative
    have value := toNat_implicit_append (unpackMantissa bits)
    have lower : (unpackExponent bits).toNat ≠ 0 := fun none =>
      bottom (BitVec.eq_of_toNat_eq none)
    have upper : (unpackExponent bits).toNat ≠ 2047 := fun all =>
      top (BitVec.eq_of_toNat_eq all)
    have bound : (unpackExponent bits).toNat < 2 ^ 11 := (unpackExponent bits).isLt
    rw [sign]
    refine ⟨_, .of_exponent ((unpackExponent bits).toNat - 1) ?_ (.inl ?_) ?_,
      mul_two_pow_lt_beyond ?_ ?_⟩ <;> omega

theorem exists_hasSize {a : Float} (notNegative : 0 ≤ a)
    (finite : Scalar.isFinite a = true) : ∃ size, HasSize a size :=
  exists_sized_unpack (zero_le_iff.mp notNegative) finite

section Numbers

variable {a b : Float} {x y : Nat}

theorem HasSize.le_iff (left : HasSize a x) (right : HasSize b y) :
    a ≤ b ↔ x ≤ y := by
  rw [Binary64.le_iff, UnpackedFloat.le, left.1.compare right.1]
  simp [Nat.isLE_compare]

theorem HasSize.lt_iff (left : HasSize a x) (right : HasSize b y) :
    a < b ↔ x < y := by
  rw [Binary64.lt_iff, UnpackedFloat.lt, left.1.compare right.1]
  simp [Nat.compare_eq_lt]

theorem HasSize.add (left : HasSize a x) (right : HasSize b y)
    (inside : nearestIn 0 (x + y) < beyond) :
    HasSize (a + b) (nearestIn 0 (x + y)) := by
  have sized := left.1.add right.1
  refine ⟨?_, inside⟩
  rw [add_eq, sized.parts_pack inside]
  exact sized

theorem HasSize.lt_beyond_of_add (left : HasSize a x) (right : HasSize b y)
    (finite : Scalar.isFinite (a + b) = true) :
    nearestIn 0 (x + y) < beyond := by
  by_contra outside
  rw [isFinite_eq, add_eq, (left.1.add right.1).parts_pack_of_beyond
    (Nat.le_of_not_lt outside)] at finite
  cases finite

/-- A sum does not fall when its summands grow. -/
theorem HasSize.add_mono {c d : Float} {z u : Nat} (first : HasSize a x)
    (second : HasSize b y) (third : HasSize c z) (fourth : HasSize d u)
    (lower : x ≤ z) (higher : y ≤ u) (finite : Scalar.isFinite (c + d) = true) :
    ∃ sum total, HasSize (a + b) sum ∧ HasSize (c + d) total ∧ sum ≤ total := by
  have inside := third.lt_beyond_of_add fourth finite
  have below := nearestIn_mono 0 (Nat.add_le_add lower higher)
  exact ⟨_, _, first.add second (below.trans_lt inside), third.add fourth inside,
    below⟩

theorem hasSize_two_pow (place : Nat) (low : 52 + place < 2098)
    (number : parts a = .finite .positive (2 ^ 52) ((place : Int) - 1074)
      (Nat.two_pow_pos 52)) : HasSize a (2 ^ (52 + place)) := by
  refine ⟨?_, two_pow_lt_beyond.mpr low⟩
  rw [number, pow_add]
  exact .finite _ (by decide) (.inl le_rfl)

theorem hasSize_one : HasSize 1 (2 ^ 1074) := by
  have size : HasSize 1 (2 ^ (52 + 1022)) := hasSize_two_pow 1022 (by decide) rfl
  rwa [show 52 + 1022 = 1074 from rfl] at size

/-- A product with a factor up to one is not above the other factor. -/
theorem HasSize.mul_le (weight : HasSize a x) (value : HasSize b y)
    (most : b ≤ 1) : ∃ size, HasSize (a * b) size ∧ size ≤ x := by
  have upper : y ≤ 2 ^ 1074 := (value.le_iff hasSize_one).mp most
  have below : nearestIn 1074 (x * y) ≤ x :=
    calc
      nearestIn 1074 (x * y) ≤ nearestIn 1074 (x * 2 ^ 1074) :=
        nearestIn_mono 1074 (Nat.mul_le_mul_left x upper)
      _ = x := weight.1.nearestIn 1074
  have sized := weight.1.mul value.1
  have inside := below.trans_lt weight.2
  refine ⟨_, ⟨?_, inside⟩, below⟩
  rw [mul_eq, sized.parts_pack inside]
  exact sized

/-! ## The order of sums and products -/

theorem HasSize.nonneg (size : HasSize a x) : 0 ≤ a := by
  rw [zero_le_iff]
  exact size.1.notNegative

theorem hasSize_of_zero {sign : Sign} (isZero : parts a = .zero sign) :
    HasSize a 0 := by
  refine ⟨?_, Nat.two_pow_pos _⟩
  rw [isZero]
  exact .zero sign

theorem HasSize.mul_zero (weight : HasSize a x) (value : HasSize b y)
    (vanishes : x * y = 0) : HasSize (a * b) 0 := by
  have sized := weight.1.mul value.1
  rw [vanishes, nearestIn_none] at sized
  refine ⟨?_, Nat.two_pow_pos _⟩
  rw [mul_eq, sized.parts_pack (Nat.two_pow_pos _)]
  exact sized

theorem isFinite_of_unpacked_add {first second : UnpackedFloat}
    (finite : (UnpackedFloat.add .binary64 first second).isFinite = true) :
    first.isFinite = true ∧ second.isFinite = true := by
  cases first with
  | notANumber => cases finite
  | infinity sign =>
      cases second with
      | infinity other => cases sign <;> cases other <;> cases finite
      | notANumber | zero other | finite other _ _ _ => cases finite
  | zero sign | finite sign _ _ _ =>
      cases second with
      | notANumber | infinity other => cases finite
      | zero other | finite other _ _ _ => exact ⟨rfl, rfl⟩

theorem isFinite_of_parts_pack {number : UnpackedFloat}
    (finite : (parts (.ofModel (.pack number))).isFinite = true) :
    number.isFinite = true := by
  cases number with
  | notANumber => exact absurd finite (by decide)
  | infinity sign => cases sign <;> exact absurd finite (by decide)
  | zero sign | finite sign _ _ _ => rfl

theorem isFinite_of_add (finite : Scalar.isFinite (a + b) = true) :
    Scalar.isFinite a = true ∧ Scalar.isFinite b = true := by
  rw [isFinite_eq, add_eq] at finite
  exact isFinite_of_unpacked_add (isFinite_of_parts_pack finite)

theorem isFinite_of_le (notNegative : 0 ≤ a) (ordered : a ≤ b)
    (finite : Scalar.isFinite b = true) : Scalar.isFinite a = true := by
  rw [zero_le_iff] at notNegative
  rw [le_iff] at ordered
  rw [isFinite_eq] at finite ⊢
  cases left : parts a with
  | notANumber =>
      rw [left] at notNegative
      exact notNegative.elim
  | infinity sign =>
      rw [left] at notNegative ordered
      obtain rfl : sign = .positive := notNegative
      cases right : parts b with
      | notANumber | infinity other =>
          rw [right] at finite
          cases finite
      | zero other | finite other _ _ _ =>
          rw [right] at ordered
          cases ordered
  | zero sign | finite sign _ _ _ => rfl

/-- A sum that starts from zero has no sign of its own if it is zero. -/
theorem zero_add_cases (notNegative : 0 ≤ a) :
    0 + a = 0 ∨ 0 + a = a ∧ 0 < a := by
  have zero : parts 0 = .zero .positive := rfl
  have unchanged : UnpackedFloat.add .binary64 (.zero .positive) (parts a) =
      parts a → 0 + a = a := by
    intro same
    rw [add_eq, zero, same, ofModel_pack_parts]
  rw [zero_le_iff] at notNegative
  rw [lt_iff, zero]
  cases number : parts a with
  | notANumber =>
      rw [number] at notNegative
      exact notNegative.elim
  | infinity sign =>
      rw [number] at notNegative unchanged
      obtain rfl : sign = .positive := notNegative
      exact .inr ⟨unchanged rfl, rfl⟩
  | zero sign =>
      rw [add_eq, zero, number]
      cases sign <;> exact .inl rfl
  | finite sign mantissa exponent positive =>
      rw [number] at notNegative unchanged
      obtain rfl : sign = .positive := notNegative
      exact .inr ⟨unchanged rfl, rfl⟩

theorem notNegative_mul {first second : UnpackedFloat} (left : NotNegative first)
    (right : NotNegative second) (finite : first.isFinite = true)
    (regular : ∀ sign, first = .zero sign → second.isFinite = true) :
    NotNegative (UnpackedFloat.mul .binary64 first second) := by
  cases first with
  | notANumber | infinity sign => cases finite
  | zero sign =>
      have bounded := regular sign rfl
      cases second with
      | notANumber | infinity other => cases bounded
      | zero other | finite other _ _ _ => trivial
  | finite sign mantissa exponent positive =>
      obtain rfl : sign = .positive := left
      cases second with
      | notANumber => exact right.elim
      | infinity other =>
          obtain rfl : other = .positive := right
          rfl
      | zero other => trivial
      | finite other _ _ _ =>
          obtain rfl : other = .positive := right
          change NotNegative (roundWithAccuracy .binary64 .positive _ _ .exact)
          unfold roundWithAccuracy
          dsimp only
          split_ifs
          · trivial
          · rfl

theorem mul_nonneg (left : 0 ≤ a) (right : 0 ≤ b)
    (finite : Scalar.isFinite a = true)
    (regular : 0 < a ∨ Scalar.isFinite b = true) : 0 ≤ a * b := by
  rw [zero_le_iff] at left right ⊢
  rw [mul_eq]
  apply notNegative_parts_pack
  apply notNegative_mul left right finite
  intro sign isZero
  refine regular.resolve_left ?_
  rw [lt_iff, isZero]
  cases sign <;> decide

theorem mul_le_self (left : 0 ≤ a) (right : 0 ≤ b) (finite : Scalar.isFinite a = true)
    (most : b ≤ 1) : a * b ≤ a := by
  obtain ⟨x, weight⟩ := exists_hasSize left finite
  obtain ⟨y, value⟩ := exists_hasSize right (isFinite_of_le right most (by decide))
  obtain ⟨size, product, below⟩ := weight.mul_le value most
  exact (product.le_iff weight).mpr below

theorem add_le_add {c d : Float} (first : 0 ≤ a) (lower : a ≤ c) (second : 0 ≤ b)
    (higher : b ≤ d) (third : 0 ≤ c) (fourth : 0 ≤ d)
    (finite : Scalar.isFinite (c + d) = true) : a + b ≤ c + d := by
  obtain ⟨cFinite, dFinite⟩ := isFinite_of_add finite
  obtain ⟨x, aSize⟩ := exists_hasSize first (isFinite_of_le first lower cFinite)
  obtain ⟨y, bSize⟩ := exists_hasSize second (isFinite_of_le second higher dFinite)
  obtain ⟨z, cSize⟩ := exists_hasSize third cFinite
  obtain ⟨u, dSize⟩ := exists_hasSize fourth dFinite
  obtain ⟨sum, total, left, right, below⟩ := aSize.add_mono bSize cSize dSize
    ((aSize.le_iff cSize).mp lower) ((bSize.le_iff dSize).mp higher) finite
  exact (left.le_iff right).mpr below

theorem nonneg_of_sign (sign : a = 0 ∨ 0 < a) : 0 ≤ a := by
  rcases sign with rfl | positive
  · decide
  · rw [lt_iff, UnpackedFloat.lt, beq_iff_eq] at positive
    rw [le_iff, UnpackedFloat.le, positive]
    rfl

theorem not_lt_zero (notNegative : 0 ≤ a) : ¬a < 0 := by
  have zero : parts 0 = .zero .positive := rfl
  rw [zero_le_iff] at notNegative
  rw [lt_iff, zero]
  cases number : parts a with
  | notANumber => exact fun less => by cases less
  | zero sign => exact fun less => by cases less
  | infinity sign | finite sign _ _ _ =>
      rw [number] at notNegative
      obtain rfl : sign = .positive := notNegative
      exact fun less => by cases less

theorem le_trans {c : Float} (first : 0 ≤ a) (lower : a ≤ b) (second : 0 ≤ b)
    (higher : b ≤ c) (third : 0 ≤ c) (finite : Scalar.isFinite c = true) : a ≤ c := by
  have middle := isFinite_of_le second higher finite
  obtain ⟨x, aSize⟩ := exists_hasSize first (isFinite_of_le first lower middle)
  obtain ⟨y, bSize⟩ := exists_hasSize second middle
  obtain ⟨z, cSize⟩ := exists_hasSize third finite
  rw [aSize.le_iff cSize]
  exact ((aSize.le_iff bSize).mp lower).trans ((bSize.le_iff cSize).mp higher)

end Numbers

/-! ## Sums from left to right -/

section Sums

variable {α : Type} {items : List α} {f g : α → Float} {a b : Float}

theorem isFinite_of_foldl
    (finite : Scalar.isFinite (items.foldl (fun sum item => sum + f item) a) = true) :
    Scalar.isFinite a = true ∧ ∀ item ∈ items, Scalar.isFinite (f item) = true := by
  induction items generalizing a with
  | nil => exact ⟨finite, by simp⟩
  | cons item items ih =>
      obtain ⟨here, later⟩ := ih finite
      obtain ⟨start, term⟩ := isFinite_of_add here
      exact ⟨start, List.forall_mem_cons.mpr ⟨term, later⟩⟩

theorem foldl_nonneg (start : 0 ≤ a) (terms : ∀ item ∈ items, 0 ≤ f item) :
    0 ≤ items.foldl (fun sum item => sum + f item) a := by
  induction items generalizing a with
  | nil => exact start
  | cons item items ih =>
      obtain ⟨term, later⟩ := List.forall_mem_cons.mp terms
      exact ih (add_nonneg start term) later

/-- A finite sum of larger terms is not below one of smaller terms. -/
theorem foldl_le_foldl (start : 0 ≤ a) (above : a ≤ b) (top : 0 ≤ b)
    (terms : ∀ item ∈ items, 0 ≤ f item ∧ f item ≤ g item ∧ 0 ≤ g item)
    (finite : Scalar.isFinite (items.foldl (fun sum item => sum + g item) b) = true) :
    items.foldl (fun sum item => sum + f item) a ≤
      items.foldl (fun sum item => sum + g item) b := by
  induction items generalizing a b with
  | nil => exact above
  | cons item items ih =>
      obtain ⟨⟨term, larger, bound⟩, later⟩ := List.forall_mem_cons.mp terms
      have rest : Scalar.isFinite
          (items.foldl (fun sum item => sum + g item) (b + g item)) = true := finite
      have ordered := add_le_add start above term larger top bound
        (isFinite_of_foldl rest).1
      exact ih (add_nonneg start term) ordered (add_nonneg top bound) later rest

theorem hasSize_foldl_zero (start : HasSize a 0)
    (terms : ∀ item ∈ items, HasSize (f item) 0) :
    HasSize (items.foldl (fun sum item => sum + f item) a) 0 := by
  induction items generalizing a with
  | nil => exact start
  | cons item items ih =>
      obtain ⟨term, later⟩ := List.forall_mem_cons.mp terms
      refine ih ?_ later
      have sum := start.add term
      rw [Nat.add_zero, nearestIn_none] at sum
      exact sum start.2

end Sums

end Binary64

end Markov
