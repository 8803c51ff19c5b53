import Markov.Decimal.Shortest

/-!
# Decimal text

The texts in which numbers are written.  A `Style` says which numbers are
written with an exponent and what follows a number without fraction; the
digits are the same in all of them.
-/

namespace Markov.Decimal

/-- How the digits of a number are laid out. -/
structure Style where
  /-- Whether a number is written out whose leading digit has this place value. -/
  positional : Int → Bool
  /-- What follows a number that is written out and has no fraction. -/
  whole : String

/-- Numbers are written out in full. -/
def plain : Style := ⟨fun _ => true, ""⟩

/-- Numbers have one digit before the point and an exponent. -/
def scientific : Style := ⟨fun _ => false, ""⟩

/-- Members of a vector are written out between `1e-4` and `1e16`, and show that they are not
integers. -/
def member : Style := ⟨fun place => -4 ≤ place && place < 16, ".0"⟩

def zeros (count : Nat) : String := String.ofList (List.replicate count '0')

/-- A point before the last `places` digits, and no point for none. -/
def pointed (digits : List Char) (places : Nat) : String :=
  let split := digits.length - places
  let head := String.ofList (digits.take split)
  if places = 0 then head else head ++ "." ++ String.ofList (digits.drop split)

/-- The text of a decimal. -/
def Digits.render (style : Style) (d : Digits) : String :=
  let digits := (Nat.repr d.digits).toList
  let place := digits.length + d.exponent - 1
  if !style.positional place then
    pointed digits (digits.length - 1) ++ "e" ++ toString place
  else if 0 ≤ d.exponent then
    String.ofList digits ++ zeros d.exponent.toNat ++ style.whole
  else if 0 ≤ place then
    pointed digits (-d.exponent).toNat
  else
    "0." ++ zeros (-place - 1).toNat ++ String.ofList digits

/-- The text of a number: a sign, and its shortest decimal or `inf`. -/
def render (style : Style) (x : Float) : String :=
  if x.isNaN then "NaN"
  else
    let sign := if x.toBits.toNat < Nat.pow 2 63 then "" else "-"
    if x.isInf then sign ++ "inf"
    else sign ++ (shortest (Binary.ofFloat x)).render style

/-- The text of a number with `places` digits behind the point.  A number that rounds to zero has
no sign. -/
def fixed (places : Nat) (x : Float) : String :=
  if x.isNaN then "NaN"
  else
    let negative := Nat.pow 2 63 ≤ x.toBits.toNat
    if x.isInf then if negative then "-inf" else "inf"
    else
      let units := rounded (Binary.ofFloat x) places
      let digits := (Nat.repr units).toList
      let padded := List.replicate (places + 1 - digits.length) '0' ++ digits
      (if negative && units ≠ 0 then "-" else "") ++ pointed padded places

end Markov.Decimal
