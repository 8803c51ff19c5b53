import Markov.Proofs.Rounding
import Markov.Word

/-!
# Integers as numbers

An integer of moderate size widens to the number with 53 binary digits that is
nearest to it, and to the one with an even last digit if two are equally near.
So the widened integers are in the order of these numbers: integers keep their
order, but different ones may become the same number.  Up to `2 ^ 53` every
integer is such a number itself.

The bits behind a shifted mantissa tell on which side of a half the lost digits
are; that is what `Tracks` says, and rounding reads nothing else of them.
-/

namespace Markov

namespace Binary64

open Float.Model (UnpackedFloat Format totalExponent)
open Float.Model.UnpackedFloat

/-! ## Rounding of natural numbers -/

/-- How often `unit` fits into `n`, to the nearest whole number, and to the even one
of two that are equally near. -/
def halfEven (n unit : Nat) : Nat :=
  if 2 * (n % unit) < unit then n / unit
  else if unit < 2 * (n % unit) then n / unit + 1
  else n / unit + n / unit % 2

/-- The place value of the last of the 53 binary digits that a number has. -/
def lastPlace (n : Nat) : Nat := 2 ^ (n.log2 - 52)

/-- The number with 53 binary digits that is nearest to `n`, and the one with an even
last digit of two that are equally near. -/
def nearestNat (n : Nat) : Nat := halfEven n (lastPlace n) * lastPlace n

theorem lastPlace_pos (n : Nat) : 0 < lastPlace n := Nat.two_pow_pos _

theorem halfEven_of_dvd {n unit : Nat} (positive : 0 < unit) (divides : unit ∣ n) :
    halfEven n unit = n / unit := by
  have exact : n % unit = 0 := Nat.mod_eq_zero_of_dvd divides
  rw [halfEven, exact, if_pos positive]

theorem halfEven_mul_right (n unit : Nat) {scale : Nat} (positive : 0 < scale) :
    halfEven (n * scale) (unit * scale) = halfEven n unit := by
  simp only [halfEven, Nat.mul_div_mul_right n unit positive,
    Nat.mul_mod_mul_right, ← Nat.mul_assoc, Nat.mul_lt_mul_right positive]

theorem halfEven_bounds (n unit : Nat) :
    n / unit ≤ halfEven n unit ∧ halfEven n unit ≤ n / unit + 1 := by
  unfold halfEven
  split
  · omega
  · split
    · omega
    · omega

theorem halfEven_mono {m n : Nat} (unit : Nat) (ordered : m ≤ n) :
    halfEven m unit ≤ halfEven n unit := by
  have below := halfEven_bounds m unit
  have above := halfEven_bounds n unit
  have quotients : m / unit ≤ n / unit := Nat.div_le_div_right ordered
  rcases quotients.lt_or_eq with less | same
  · omega
  · -- With the same quotient the remainders are in order.
    have remainders : m % unit ≤ n % unit := by
      have left := Nat.div_add_mod m unit
      have right := Nat.div_add_mod n unit
      rw [same] at left
      omega
    simp only [halfEven, same]
    split_ifs <;> omega

theorem lastPlace_dvd {n digits : Nat} (long : n.log2 ≤ digits) :
    lastPlace n ∣ 2 ^ digits :=
  Nat.pow_dvd_pow 2 (by omega)

theorem halfEven_mul_of_dvd {n unit : Nat} (positive : 0 < unit)
    (divides : unit ∣ n) : halfEven n unit * unit = n := by
  rw [halfEven_of_dvd positive divides, Nat.div_mul_cancel divides]

/-- Rounding does not lead past a power of two. -/
theorem nearestNat_bounds {n : Nat} (positive : 0 < n) :
    2 ^ n.log2 ≤ nearestNat n ∧ nearestNat n ≤ 2 ^ (n.log2 + 1) := by
  constructor
  · calc
      2 ^ n.log2 = halfEven (2 ^ n.log2) (lastPlace n) * lastPlace n :=
        (halfEven_mul_of_dvd (lastPlace_pos n) (lastPlace_dvd le_rfl)).symm
      _ ≤ nearestNat n := Nat.mul_le_mul_right _
        (halfEven_mono _ (Nat.log2_self_le positive.ne'))
  · calc
      nearestNat n ≤ halfEven (2 ^ (n.log2 + 1)) (lastPlace n) * lastPlace n :=
        Nat.mul_le_mul_right _ (halfEven_mono _ Nat.lt_log2_self.le)
      _ = 2 ^ (n.log2 + 1) :=
        halfEven_mul_of_dvd (lastPlace_pos n) (lastPlace_dvd (Nat.le_succ _))

theorem nearestNat_mono {m n : Nat} (ordered : m ≤ n) :
    nearestNat m ≤ nearestNat n := by
  rcases Nat.eq_zero_or_pos m with rfl | positive
  · exact Nat.zero_le _
  · have lengths : m.log2 ≤ n.log2 := by
      rw [Nat.le_log2 (by omega)]
      exact (Nat.log2_self_le positive.ne').trans ordered
    rcases lengths.lt_or_eq with shorter | same
    · calc
        nearestNat m ≤ 2 ^ (m.log2 + 1) := (nearestNat_bounds positive).2
        _ ≤ 2 ^ n.log2 := Nat.pow_le_pow_right two_pos shorter
        _ ≤ nearestNat n := (nearestNat_bounds (by omega)).1
    · unfold nearestNat lastPlace
      rw [same]
      exact Nat.mul_le_mul_right _ (halfEven_mono _ ordered)

theorem nearestNat_of_le {n : Nat} (short : n ≤ 2 ^ 53) : nearestNat n = n := by
  apply halfEven_mul_of_dvd (lastPlace_pos n)
  rcases short.lt_or_eq with less | rfl
  · have digits : n.log2 < 53 := by
      by_cases zero : n = 0
      · simp [zero]
      · exact (Nat.log2_lt zero).mpr less
    have one : lastPlace n = 1 := by
      rw [lastPlace, show n.log2 - 52 = 0 by omega, pow_zero]
    rw [one]
    exact one_dvd n
  · exact lastPlace_dvd (by rw [Nat.log2_two_pow])

/-! ## Digits that are shifted out -/

/-- The bits behind a mantissa tell how what was shifted out of `n` compares with
half of the place value `unit` of the last digit. -/
def Tracks (extended : ExtendedMantissa) (n unit : Nat) : Prop :=
  ∃ rest, n = extended.mantissa * unit + rest ∧ rest < unit ∧
    match extended.roundBit, extended.stickyBit with
    | false, false => rest = 0
    | false, true => 0 < rest ∧ 2 * rest < unit
    | true, false => 2 * rest = unit
    | true, true => unit < 2 * rest

theorem Tracks.shiftRightOne {extended : ExtendedMantissa} {n unit : Nat}
    (tracks : Tracks extended n unit) :
    Tracks extended.shiftRightOne n (unit * 2) := by
  obtain ⟨mantissa, roundBit, stickyBit⟩ := extended
  obtain ⟨rest, split, small, bits⟩ := tracks
  dsimp only at split bits
  refine ⟨mantissa % 2 * unit + rest, ?_, ?_, ?_⟩
  · calc
      n = (2 * (mantissa / 2) + mantissa % 2) * unit + rest := by
        rw [split, Nat.div_add_mod]
      _ = mantissa / 2 * (unit * 2) + (mantissa % 2 * unit + rest) := by ring
  · have odd : mantissa % 2 < 2 := Nat.mod_lt _ two_pos
    interval_cases mantissa % 2 <;> omega
  · simp only [ExtendedMantissa.shiftRightOne]
    rcases Nat.mod_two_eq_zero_or_one mantissa with even | odd
    · rw [even]
      cases roundBit <;> cases stickyBit <;> simp at bits ⊢ <;> omega
    · rw [odd]
      cases roundBit <;> cases stickyBit <;> simp at bits ⊢ <;> omega

theorem tracks_shiftRight (n shift : Nat) :
    Tracks (ExtendedMantissa.mk n false false >>> shift) n (2 ^ shift) := by
  induction shift with
  | zero => exact ⟨0, by simp [HShiftRight.hShiftRight, Nat.repeat], Nat.one_pos, rfl⟩
  | succ shift ih => exact ih.shiftRightOne

theorem Tracks.roundedMantissa {extended : ExtendedMantissa} {n unit : Nat}
    (tracks : Tracks extended n unit) :
    extended.roundedMantissa = halfEven n unit := by
  obtain ⟨mantissa, roundBit, stickyBit⟩ := extended
  obtain ⟨rest, rfl, small, bits⟩ := tracks
  dsimp only at bits ⊢
  have quotient : (mantissa * unit + rest) / unit = mantissa := by
    rw [Nat.mul_comm, Nat.mul_add_div (by omega), Nat.div_eq_of_lt small, add_zero]
  have remainder : (mantissa * unit + rest) % unit = rest := by
    rw [Nat.mul_comm, Nat.mul_add_mod, Nat.mod_eq_of_lt small]
  rw [halfEven, quotient, remainder]
  cases roundBit <;> cases stickyBit <;> dsimp only at bits
  · rw [if_pos (by omega)]
    rfl
  · rw [if_pos bits.2]
    rfl
  · rw [if_neg (by omega), if_neg (by omega)]
    rfl
  · rw [if_neg (by omega), if_pos bits]
    rfl

theorem roundedMantissa_placed (mantissa : Nat) {exponent : Int}
    (lowest : -1074 ≤ exponent) :
    (placed mantissa exponent).roundedMantissa =
      halfEven mantissa (lastPlace mantissa) := by
  rw [placed, excess_eq mantissa lowest]
  exact (tracks_shiftRight mantissa _).roundedMantissa

/-- A mantissa without leading zeros. -/
def IsFull (mantissa : Nat) : Prop := 2 ^ 52 ≤ mantissa ∧ mantissa < 2 ^ 53

theorem IsFull.pos {mantissa : Nat} (full : IsFull mantissa) : 0 < mantissa :=
  (Nat.two_pow_pos 52).trans_le full.1

theorem IsFull.log2_eq {mantissa : Nat} (full : IsFull mantissa) :
    mantissa.log2 = 52 := by
  have lower : 52 ≤ mantissa.log2 := (Nat.le_log2 full.pos.ne').mpr full.1
  have upper : mantissa.log2 < 53 := (Nat.log2_lt full.pos.ne').mpr full.2
  omega

theorem halfEven_lastPlace_bounds {mantissa : Nat} (long : 52 ≤ mantissa.log2) :
    2 ^ 52 ≤ halfEven mantissa (lastPlace mantissa) ∧
      halfEven mantissa (lastPlace mantissa) ≤ 2 ^ 53 := by
  have positive : 0 < mantissa := by
    by_contra zero
    rw [Nat.eq_zero_of_not_pos zero, Nat.log2_zero] at long
    omega
  obtain ⟨lower, upper⟩ := nearestNat_bounds positive
  have place : ∀ digits, 2 ^ (52 + digits) * lastPlace mantissa =
      2 ^ (mantissa.log2 + digits) := by
    intro digits
    rw [lastPlace, ← pow_add]
    congr 1
    omega
  constructor
  · apply Nat.le_of_mul_le_mul_right _ (lastPlace_pos mantissa)
    rwa [← add_zero 52, place 0]
  · apply Nat.le_of_mul_le_mul_right _ (lastPlace_pos mantissa)
    rwa [place 1]

/-- Rounding keeps 53 digits, and one place more if there is a carry out of all of
them. -/
theorem exists_roundWithAccuracy (sign : Sign) {mantissa : Nat}
    (long : 52 ≤ mantissa.log2) {exponent : Int} (lowest : -1074 ≤ exponent) :
    ∃ digits carry positive, IsFull digits ∧ carry ≤ 1 ∧
      digits * 2 ^ carry = halfEven mantissa (lastPlace mantissa) ∧
      roundWithAccuracy .binary64 sign mantissa exponent .exact =
        .finite sign digits
          (exponent + (mantissa.log2 - 52 : Nat) + (carry : Nat)) positive := by
  obtain ⟨lower, upper⟩ := halfEven_lastPlace_bounds long
  have rounded := roundedMantissa_placed mantissa lowest
  set kept := halfEven mantissa (lastPlace mantissa) with isKept
  have place : -1074 ≤ exponent + excess mantissa exponent := by omega
  have final : (placed kept (exponent + excess mantissa exponent)).mantissa =
      kept / 2 ^ (kept.log2 - 52) := by
    rw [placed, mantissa_shiftRight, excess_eq _ place]
  have full : IsFull (kept / 2 ^ (kept.log2 - 52)) ∧ kept.log2 - 52 ≤ 1 ∧
      kept / 2 ^ (kept.log2 - 52) * 2 ^ (kept.log2 - 52) = kept := by
    rcases upper.lt_or_eq with less | carried
    · have length : kept.log2 = 52 := IsFull.log2_eq ⟨lower, less⟩
      rw [length, Nat.sub_self, pow_zero, Nat.div_one, Nat.mul_one]
      exact ⟨⟨lower, less⟩, Nat.zero_le 1, rfl⟩
    · rw [carried, Nat.log2_two_pow]
      exact ⟨⟨by decide, by decide⟩, by decide, by decide⟩
  have positive : (placed kept (exponent + excess mantissa exponent)).mantissa ≠ 0 := by
    rw [final]
    exact full.1.pos.ne'
  refine ⟨_, _, full.1.pos, full.1, full.2.1, full.2.2, ?_⟩
  calc
    roundWithAccuracy .binary64 sign mantissa exponent .exact =
        .finite sign _ (exponent + excess mantissa exponent +
          excess (placed mantissa exponent).roundedMantissa
            (exponent + excess mantissa exponent)) _ :=
      dif_neg (rounded ▸ positive)
    _ = _ := by
      rw [UnpackedFloat.finite.injEq]
      refine ⟨rfl, ?_, ?_⟩
      · rw [← final, ← rounded]
        rfl
      · rw [rounded, excess_eq mantissa lowest]
        rw [excess_eq mantissa lowest] at place
        rw [excess_eq _ place]

theorem log2_mul_two_pow {n : Nat} (positive : 0 < n) (shift : Nat) :
    (n * 2 ^ shift).log2 = n.log2 + shift := by
  have scale : 0 < 2 ^ shift := Nat.two_pow_pos shift
  rw [Nat.log2_eq_iff (Nat.mul_pos positive scale).ne', Nat.add_right_comm, pow_add,
    pow_add]
  exact ⟨Nat.mul_le_mul_right _ (Nat.log2_self_le positive.ne'),
    Nat.mul_lt_mul_of_pos_right Nat.lt_log2_self scale⟩

/-- A number of 53 digits is kept as it is. -/
theorem roundWithAccuracy_of_isFull (sign : Sign) {mantissa : Nat}
    (full : IsFull mantissa) (shift : Nat) {exponent : Int}
    (lowest : -1074 ≤ exponent) :
    roundWithAccuracy .binary64 sign (mantissa * 2 ^ shift) exponent .exact =
      .finite sign mantissa (exponent + shift) full.pos := by
  have length : (mantissa * 2 ^ shift).log2 = 52 + shift := by
    rw [log2_mul_two_pow full.pos, full.log2_eq]
  have kept : halfEven (mantissa * 2 ^ shift) (lastPlace (mantissa * 2 ^ shift)) =
      mantissa := by
    rw [lastPlace, length, Nat.add_sub_cancel_left,
      halfEven_of_dvd (Nat.two_pow_pos _) (Nat.dvd_mul_left _ _),
      Nat.mul_div_cancel _ (Nat.two_pow_pos _)]
  obtain ⟨digits, carry, positive, fullDigits, small, value, rounded⟩ :=
    exists_roundWithAccuracy sign (by omega : 52 ≤ (mantissa * 2 ^ shift).log2) lowest
  obtain rfl : carry = 0 := by
    have := full.2
    have := fullDigits.1
    rw [kept] at value
    interval_cases carry
    · rfl
    · omega
  rw [kept, pow_zero, Nat.mul_one] at value
  subst value
  rw [rounded, length]
  congr 1
  omega

/-! ## Packing -/

theorem unpack_of_exponent {bits : BitVec Format.binary64.numBits}
    (notTop : unpackExponent bits ≠ -1#11) (notBottom : unpackExponent bits ≠ 0#11) :
    unpack .binary64 bits =
      .finite (Sign.ofBitVec (unpackSign bits)) (1#1 ++ unpackMantissa bits).toNat
        (((unpackExponent bits).toNat : Int) - 1075)
        (by rw [toNat_implicit_append]; omega) := by
  unfold unpack
  dsimp only
  rw [if_neg notTop, if_neg notBottom]
  rfl

/-- A number of 53 digits with a moderate exponent is packed as it is. -/
theorem parts_pack_of_isFull (sign : Sign) {mantissa : Nat}
    (full : IsFull mantissa) {exponent : Int} (lowest : -1074 ≤ exponent)
    (highest : exponent ≤ 971) :
    parts (.ofModel (.pack (.finite sign mantissa exponent full.pos))) =
      .finite sign mantissa exponent full.pos := by
  obtain ⟨field, isField, inside⟩ : ∃ field : Nat,
      (exponent + Format.binary64.exponentBias +
        Format.binary64.mantissaBitsWithoutImplicit).toNat = field ∧
      0 < field ∧ field < 2047 ∧ (field : Int) - 1075 = exponent := by
    refine ⟨(exponent + (1023 : Nat) + (52 : Nat)).toNat, rfl, ?_⟩
    omega
  have packed : pack .binary64 (.finite sign mantissa exponent full.pos) =
      packComponents .binary64 sign (BitVec.ofNat 11 field)
        (BitVec.ofNat 52 mantissa) := by
    have inRange : ¬2 ^ Format.binary64.exponentBits ≤ field + 1 := by
      change ¬2048 ≤ field + 1
      omega
    have normal : mantissa.log2 + 1 = Format.binary64.mantissaBits := by
      rw [full.log2_eq]
      rfl
    simp only [pack, isField, if_neg inRange, if_pos normal]
  have exponents : (BitVec.ofNat 11 field).toNat = field := by
    rw [BitVec.toNat_ofNat]
    omega
  have digits : (1#1 ++ BitVec.ofNat 52 mantissa).toNat = mantissa := by
    have := full.1
    have := full.2
    rw [toNat_implicit_append, BitVec.toNat_ofNat]
    omega
  change unpack .binary64 (pack .binary64 _) = _
  rw [packed, unpack_of_exponent, UnpackedFloat.finite.injEq,
    unpackSign_packComponents, unpackMantissa_packComponents,
    unpackExponent_packComponents]
  · refine ⟨?_, digits, ?_⟩
    · cases sign <;> rfl
    · rw [exponents]
      exact inside.2.2
  · rw [unpackExponent_packComponents]
    intro top
    rw [top] at exponents
    change 2047 = field at exponents
    omega
  · rw [unpackExponent_packComponents]
    intro bottom
    rw [bottom] at exponents
    change 0 = field at exponents
    omega

/-! ## Conversion -/

/-- The parts of a whole number, which has 53 digits unless it is zero. -/
inductive Stands : UnpackedFloat → Int → Prop where
  | zero (sign : Sign) : Stands (.zero sign) 0
  | positive {digits place value : Nat} (full : IsFull digits)
      (scaled : digits * 2 ^ place = value * 2 ^ 52) :
      Stands (.finite .positive digits ((place : Int) - 52) full.pos) value
  | negative {digits place value : Nat} (full : IsFull digits)
      (scaled : digits * 2 ^ place = value * 2 ^ 52) :
      Stands (.finite .negative digits ((place : Int) - 52) full.pos) (-value)

/-- The digits of a number that has at most 53 of them, with zeros behind them. -/
def padded (n : Nat) : Nat := n * 2 ^ (52 - n.log2)

section Short

variable {n : Nat} (positive : 0 < n) (short : n < 2 ^ 53)

include positive short

theorem padded_mul : padded n * 2 ^ n.log2 = n * 2 ^ 52 := by
  have length : n.log2 < 53 := (Nat.log2_lt positive.ne').mpr short
  rw [padded, Nat.mul_assoc, ← pow_add, show 52 - n.log2 + n.log2 = 52 by omega]

theorem isFull_padded : IsFull (padded n) := by
  have scaled := padded_mul positive short
  constructor
  · apply Nat.le_of_mul_le_mul_right _ (Nat.two_pow_pos n.log2)
    rw [scaled, Nat.mul_comm]
    exact Nat.mul_le_mul_right _ (Nat.log2_self_le positive.ne')
  · apply Nat.lt_of_mul_lt_mul_right (a := 2 ^ n.log2)
    rw [scaled]
    calc
      n * 2 ^ 52 < 2 ^ (n.log2 + 1) * 2 ^ 52 :=
        Nat.mul_lt_mul_of_pos_right Nat.lt_log2_self (Nat.two_pow_pos 52)
      _ = 2 ^ 53 * 2 ^ n.log2 := by ring

theorem normalize_natCast :
    normalize .binary64 n 0 .positive =
      .finite .positive (padded n) ((n.log2 : Int) - 52)
        (isFull_padded positive short).pos := by
  have length : n.log2 < 53 := (Nat.log2_lt positive.ne').mpr short
  have shift : (0 - Format.binary64.targetExponent (totalExponent n 0)).toNat =
      52 - n.log2 := by
    rw [binary64_targetExponent, totalExponent]
    omega
  have order : compare (n : Int) 0 = .gt := Int.compare_eq_gt.mpr (by omega)
  have kept := roundWithAccuracy_of_isFull .positive (isFull_padded positive short) 0
    (by omega : -1074 ≤ (n.log2 : Int) - 52)
  rw [pow_zero, Nat.mul_one, Nat.cast_zero, add_zero] at kept
  rw [UnpackedFloat.normalize, order, ← kept]
  dsimp only [UnpackedFloat.round, decreaseExponent]
  rw [Int.toNat_natCast, shift, Nat.shiftLeft_eq, padded]
  congr 1
  omega

/-- The product with one, by which decimal numbers are scaled, changes nothing. -/
theorem parts_ofNat_of_lt :
    parts (Float.ofNat n) =
      .finite .positive (padded n) ((n.log2 : Int) - 52)
        (isFull_padded positive short).pos := by
  have length : n.log2 < 53 := (Nat.log2_lt positive.ne').mpr short
  have full := isFull_padded positive short
  have packed := parts_pack_of_isFull .positive full
    (by omega : -1074 ≤ (n.log2 : Int) - 52) (by omega)
  have converted : parts n.toUInt64.toFloat =
      .finite .positive (padded n) ((n.log2 : Int) - 52) full.pos := by
    have same : n.toUInt64.toNat = n :=
      UInt64.toNat_ofNat_of_lt' (short.trans (by decide))
    change parts (.ofModel (.pack
      (normalize .binary64 n.toUInt64.toNat 0 .positive))) = _
    rw [same, normalize_natCast positive short, packed]
  have one : parts (Float.ofBits 0x3FF0000000000000) =
      .finite .positive (2 ^ 52) (-52) (Nat.two_pow_pos 52) := rfl
  have product : Float.ofNat n =
      n.toUInt64.toFloat * Float.ofBits 0x3FF0000000000000 :=
    dif_pos ⟨short, Nat.zero_le 22⟩
  have kept := roundWithAccuracy_of_isFull .positive full 52
    (by omega : -1074 ≤ (n.log2 : Int) - 52 + -52)
  rw [show (n.log2 : Int) - 52 + -52 + (52 : Nat) = n.log2 - 52 by omega] at kept
  rw [product, mul_eq, converted, one]
  change parts (.ofModel (.pack (roundWithAccuracy .binary64 .positive _ _ .exact))) = _
  rw [kept, packed]

end Short

/-- A natural number of more than 53 digits is rounded to the nearest number. -/
theorem exists_parts_ofNat_of_le {n : Nat} (long : 2 ^ 53 ≤ n)
    (moderate : n.log2 ≤ 1000) :
    ∃ (digits carry : Nat) (full : IsFull digits), carry ≤ 1 ∧
      digits * 2 ^ carry = halfEven n (lastPlace n) ∧
      parts (Float.ofNat n) =
        .finite .positive digits ((n.log2 : Int) - 52 + carry) full.pos := by
  have nonzero : n ≠ 0 := by omega
  have length : 53 ≤ n.log2 := (Nat.le_log2 nonzero).mpr long
  have scaled : UnpackedFloat.ofScientific .binary64 n 0 =
      roundWithAccuracy .binary64 .positive (n <<< 53 * 1) (-53 + 0) .exact := by
    unfold UnpackedFloat.ofScientific
    rw [dif_neg nonzero, if_neg (by decide), if_neg (by simp), if_pos (by decide)]
    rfl
  have shifted := log2_mul_two_pow (Nat.pos_of_ne_zero nonzero) 53
  have kept : halfEven (n * 2 ^ 53) (lastPlace (n * 2 ^ 53)) =
      halfEven n (lastPlace n) := by
    have places : lastPlace (n * 2 ^ 53) = lastPlace n * 2 ^ 53 := by
      rw [lastPlace, lastPlace, shifted, ← pow_add]
      congr 1
      omega
    rw [places, halfEven_mul_right _ _ (Nat.two_pow_pos 53)]
  have converted : Float.ofNat n = .ofModel (.ofScientific n 0) :=
    dif_neg fun short => absurd short.1 (Nat.not_lt.mpr long)
  obtain ⟨digits, carry, _, full, small, value, rounded⟩ :=
    exists_roundWithAccuracy .positive
      (by omega : 52 ≤ (n * 2 ^ 53).log2) (by decide : -1074 ≤ (-53 : Int) + 0)
  refine ⟨digits, carry, full, small, value.trans kept, ?_⟩
  rw [converted]
  change parts (.ofModel (.pack (UnpackedFloat.ofScientific .binary64 n 0))) = _
  rw [scaled, Nat.mul_one, Nat.shiftLeft_eq, rounded, shifted,
    parts_pack_of_isFull .positive full (by omega) (by omega)]
  congr 1
  omega

/-- The integer with 53 binary digits that is nearest to `i`. -/
def nearest : Int → Int
  | .ofNat n => nearestNat n
  | .negSucc n => -nearestNat (n + 1)

/-- A natural number is converted to the nearest number. -/
theorem exists_parts_ofNat {n : Nat} (positive : 0 < n) (moderate : n.log2 ≤ 1000) :
    ∃ (digits place : Nat) (full : IsFull digits), place ≤ 1023 ∧
      digits * 2 ^ place = nearestNat n * 2 ^ 52 ∧
      parts (Float.ofNat n) =
        .finite .positive digits ((place : Int) - 52) full.pos := by
  rcases Nat.lt_or_ge n (2 ^ 53) with short | long
  · refine ⟨padded n, n.log2, isFull_padded positive short, by omega, ?_,
      parts_ofNat_of_lt positive short⟩
    rw [padded_mul positive short, nearestNat_of_le short.le]
  · have length : 53 ≤ n.log2 := (Nat.le_log2 positive.ne').mpr long
    obtain ⟨digits, carry, full, small, value, converted⟩ :=
      exists_parts_ofNat_of_le long moderate
    refine ⟨digits, n.log2 + carry, full, by omega, ?_, ?_⟩
    · calc
        digits * 2 ^ (n.log2 + carry) =
            digits * 2 ^ carry * (2 ^ (n.log2 - 52) * 2 ^ 52) := by
          rw [← pow_add, Nat.sub_add_cancel (by omega), pow_add]
          ring
        _ = nearestNat n * 2 ^ 52 := by
          rw [value, nearestNat, lastPlace]
          ring
    · rw [converted]
      congr 1
      omega

theorem stands_ofInt {i : Int} (moderate : i.natAbs.log2 ≤ 1000) :
    Stands (parts (Float.ofInt i)) (nearest i) := by
  cases i with
  | ofNat n =>
      change Stands (parts (Float.ofNat n)) (nearestNat n)
      rcases Nat.eq_zero_or_pos n with rfl | positive
      · exact .zero .positive
      · obtain ⟨digits, place, full, -, scaled, converted⟩ :=
          exists_parts_ofNat positive moderate
        rw [converted]
        exact .positive full scaled
  | negSucc n =>
      obtain ⟨digits, place, full, highest, scaled, converted⟩ :=
        exists_parts_ofNat (Nat.succ_pos n) moderate
      change Stands (parts (-Float.ofNat (n + 1))) (-nearestNat (n + 1))
      rw [neg_eq, converted]
      change Stands (parts (.ofModel (.pack
        (.finite .negative digits ((place : Int) - 52) full.pos)))) _
      rw [parts_pack_of_isFull .negative full (by omega) (by omega)]
      exact .negative full scaled

/-! ## Order -/

theorem lt_of_place_lt {digits other place otherPlace value otherValue : Nat}
    (full : IsFull digits) (otherFull : IsFull other)
    (scaled : digits * 2 ^ place = value * 2 ^ 52)
    (otherScaled : other * 2 ^ otherPlace = otherValue * 2 ^ 52)
    (below : place < otherPlace) : value < otherValue := by
  apply Nat.lt_of_mul_lt_mul_right (a := 2 ^ 52)
  calc
    value * 2 ^ 52 = digits * 2 ^ place := scaled.symm
    _ < 2 ^ 53 * 2 ^ place :=
      Nat.mul_lt_mul_of_pos_right full.2 (Nat.two_pow_pos _)
    _ = 2 ^ 52 * 2 ^ (place + 1) := by ring
    _ ≤ other * 2 ^ otherPlace :=
      Nat.mul_le_mul otherFull.1 (Nat.pow_le_pow_right two_pos below)
    _ = otherValue * 2 ^ 52 := otherScaled

theorem compare_of_isFull {digits other place otherPlace value otherValue : Nat}
    (full : IsFull digits) (otherFull : IsFull other)
    (scaled : digits * 2 ^ place = value * 2 ^ 52)
    (otherScaled : other * 2 ^ otherPlace = otherValue * 2 ^ 52) :
    (compare ((place : Int) - 52) (otherPlace - 52)).then (compare digits other) =
      compare (value : Int) otherValue := by
  rcases lt_trichotomy place otherPlace with below | rfl | above
  · have less := lt_of_place_lt full otherFull scaled otherScaled below
    rw [Int.compare_eq_lt.mpr (by omega), Int.compare_eq_lt.mpr (by omega)]
    rfl
  · rw [Int.compare_eq_eq.mpr rfl, Ordering.eq_then]
    have scale : 0 < 2 ^ place := Nat.two_pow_pos place
    rcases lt_trichotomy digits other with less | rfl | greater
    · have := Nat.mul_lt_mul_of_pos_right less scale
      rw [Nat.compare_eq_lt.mpr less, Int.compare_eq_lt.mpr (by omega)]
    · rw [Nat.compare_eq_eq.mpr rfl, Int.compare_eq_eq.mpr (by omega)]
    · have := Nat.mul_lt_mul_of_pos_right greater scale
      rw [Nat.compare_eq_gt.mpr greater, Int.compare_eq_gt.mpr (by omega)]
  · have greater := lt_of_place_lt otherFull full otherScaled scaled above
    rw [Int.compare_eq_gt.mpr (by omega), Int.compare_eq_gt.mpr (by omega)]
    rfl

theorem compare_neg_neg (x y : Int) : compare (-x) (-y) = (compare x y).swap := by
  rcases lt_trichotomy x y with less | rfl | greater
  · rw [Int.compare_eq_lt.mpr less, Int.compare_eq_gt.mpr (by omega)]
    rfl
  · rw [Int.compare_eq_eq.mpr rfl, Int.compare_eq_eq.mpr rfl]
    rfl
  · rw [Int.compare_eq_gt.mpr greater, Int.compare_eq_lt.mpr (by omega)]
    rfl

theorem pos_of_scaled {digits place value : Nat} (full : IsFull digits)
    (scaled : digits * 2 ^ place = value * 2 ^ 52) : 0 < value := by
  have := Nat.mul_pos full.pos (Nat.two_pow_pos place)
  omega

/-- Whole numbers compare as the integers that they stand for. -/
theorem Stands.compare {a b : UnpackedFloat} {x y : Int} (left : Stands a x)
    (right : Stands b y) : a.compare b = some (compare x y) := by
  cases left with
  | zero sign =>
      cases right with
      | zero other => rfl
      | positive full scaled =>
          have := pos_of_scaled full scaled
          exact congrArg some (Int.compare_eq_lt.mpr (by omega)).symm
      | negative full scaled =>
          have := pos_of_scaled full scaled
          exact congrArg some (Int.compare_eq_gt.mpr (by omega)).symm
  | positive full scaled =>
      have := pos_of_scaled full scaled
      cases right with
      | zero other => exact congrArg some (Int.compare_eq_gt.mpr (by omega)).symm
      | positive otherFull otherScaled =>
          exact congrArg some (compare_of_isFull full otherFull scaled otherScaled)
      | negative otherFull otherScaled =>
          have := pos_of_scaled otherFull otherScaled
          exact congrArg some (Int.compare_eq_gt.mpr (by omega)).symm
  | negative full scaled =>
      have := pos_of_scaled full scaled
      cases right with
      | zero other => exact congrArg some (Int.compare_eq_lt.mpr (by omega)).symm
      | positive otherFull otherScaled =>
          exact congrArg some (Int.compare_eq_lt.mpr (by omega)).symm
      | negative otherFull otherScaled =>
          rw [compare_neg_neg, ← compare_of_isFull full otherFull scaled otherScaled]
          rfl

theorem ofInt_lt_ofInt {x y : Int} (left : x.natAbs.log2 ≤ 1000)
    (right : y.natAbs.log2 ≤ 1000) :
    Float.ofInt x < Float.ofInt y ↔ nearest x < nearest y := by
  rw [lt_iff, UnpackedFloat.lt, (stands_ofInt left).compare (stands_ofInt right),
    beq_iff_eq, Option.some_inj, Int.compare_eq_lt]

theorem ofInt_le_ofInt {x y : Int} (left : x.natAbs.log2 ≤ 1000)
    (right : y.natAbs.log2 ≤ 1000) :
    Float.ofInt x ≤ Float.ofInt y ↔ nearest x ≤ nearest y := by
  rw [le_iff, UnpackedFloat.le, (stands_ofInt left).compare (stands_ofInt right),
    Option.any_some, Int.isLE_compare]

theorem nearest_mono {x y : Int} (ordered : x ≤ y) : nearest x ≤ nearest y := by
  cases x with
  | ofNat m =>
      cases y with
      | ofNat n => exact Int.ofNat_le.mpr (nearestNat_mono (Int.ofNat_le.mp ordered))
      | negSucc n =>
          rw [Int.ofNat_eq_natCast] at ordered
          omega
  | negSucc m =>
      cases y with
      | ofNat n => simp only [nearest]; omega
      | negSucc n =>
          have := nearestNat_mono (show n + 1 ≤ m + 1 by omega)
          simp only [nearest]
          omega

theorem nearest_of_le {i : Int} (short : i.natAbs ≤ 2 ^ 53) : nearest i = i := by
  cases i with
  | ofNat n => exact congrArg Int.ofNat (nearestNat_of_le short)
  | negSucc n =>
      have exact : nearestNat (n + 1) = n + 1 := nearestNat_of_le short
      simp only [nearest, exact]
      omega

theorem log2_natAbs_of_isInteger {i : Int} (word : Word.isInteger i = true) :
    i.natAbs.log2 ≤ 1000 := by
  have limit : Word.signedLimit = 2 ^ 63 := rfl
  simp only [Word.isInteger, limit, Bool.and_eq_true, decide_eq_true_eq] at word
  by_cases zero : i.natAbs = 0
  · simp [zero]
  · have short : i.natAbs.log2 < 64 := (Nat.log2_lt zero).mpr (by omega)
    omega

end Binary64

end Markov
