import Markov.Decimal.Text
import Markov.Failure

/-!
# Values and valuations

Model variables and expressions take integers, truth values and numbers.  A
valuation gives a value to every variable of a model, by the variable's index.
-/

namespace Markov

inductive ValueType where
  | int
  | bool
  | double
  deriving Repr, DecidableEq

def ValueType.name : ValueType → String
  | int => "int"
  | bool => "bool"
  | double => "double"

def ValueType.ofName? (text : String) : Option ValueType :=
  [int, bool, double].find? (·.name == text)

inductive Value where
  | int (i : Int)
  | bool (b : Bool)
  | double (x : Float)
  deriving Repr, BEq

namespace Value

def type : Value → ValueType
  | int _ => .int
  | bool _ => .bool
  | double _ => .double

def render : Value → String
  | int i => toString i
  | bool b => toString b
  | double x => Decimal.render Decimal.plain x

end Value

/-- The values of the variables of one state. -/
structure Valuation where
  values : List Value
  deriving Repr, BEq

namespace Valuation

instance : Inhabited Valuation := ⟨⟨[]⟩⟩

def ofInts (ints : List Int) : Valuation := ⟨ints.map .int⟩

def size (v : Valuation) : Nat := v.values.length

def isEmpty (v : Valuation) : Bool := v.values.isEmpty

def get? (v : Valuation) (index : Nat) : Option Value := v.values[index]?

/-- Changes the value of a variable of the valuation. -/
def set (v : Valuation) (index : Nat) (value : Value) : Valuation := ⟨v.values.set index value⟩

/-- Changes the value of a variable that the valuation has. -/
def checkedSet {ε : Type} (v : Valuation) (index : Nat) (value : Value) : Attempt ε Valuation := do
  Attempt.require (index < v.size)
  return v.set index value

/-- The variables of `a` followed by those of `b`. -/
def append (a b : Valuation) : Valuation := ⟨a.values ++ b.values⟩

instance : Append Valuation := ⟨append⟩

/-- The values in parentheses. -/
def render (v : Valuation) : String := "(" ++ ",".intercalate (v.values.map Value.render) ++ ")"

end Valuation

end Markov
