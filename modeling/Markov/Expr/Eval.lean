import Markov.Expr
import Markov.Failure
import Markov.Word

/-!
# Evaluation of expressions

Integers widen to numbers wherever a number is needed, and nothing else is
converted.  The connectives look at their right operand only if the left one
leaves the result open.  Integer arithmetic that leaves its word is a breach.
-/

namespace Markov

/-- Why an expression has no value, or a value does not fit its variable. -/
inductive EvalError where
  /-- The value of `source` is outside the range of the variable. -/
  | overflow (name : String) (source : Expr)
  /-- A value has another type than all of the expected ones. -/
  | typeMismatch (expected : List ValueType) (found : ValueType)
  | undefinedVariable (name : String)
  | undefinedConstant (name : String)
  | divisionByZero
  deriving Repr

def EvalError.message : EvalError → String
  | overflow name source => "value of variable " ++ name ++ " overflows in " ++ source.render
  | typeMismatch expected found =>
    "type mismatch: expected " ++ " or ".intercalate (expected.map ValueType.name) ++
      ", found " ++ found.name
  | undefinedVariable name => "undefined variable: " ++ name
  | undefinedConstant name => "undefined constant: " ++ name
  | divisionByZero => "division by zero"

namespace Value

def mismatch {α : Type} (expected : ValueType) (found : Value) : Attempt EvalError α :=
  Attempt.fail (.typeMismatch [expected] found.type)

def toBool : Value → Attempt EvalError Bool
  | bool b => .ok b
  | other => mismatch .bool other

def toInt : Value → Attempt EvalError Int
  | int i => .ok i
  | other => mismatch .int other

/-- The value as a number, to which integers widen. -/
def toDouble : Value → Attempt EvalError Float
  | int i => .ok (Float.ofInt i)
  | double x => .ok x
  | other => mismatch .double other

/-- An integer result, inside its word. -/
def integer (i : Int) : Attempt EvalError Value := do
  Attempt.require (Word.isInteger i)
  return int i

def negate : Value → Attempt EvalError Value
  | int i => integer (-i)
  | other => do return double (-(← other.toDouble))

end Value

/-- Converts a value to a type, if it has the type or widens to it. -/
def ValueType.cast : ValueType → Value → Attempt EvalError Value
  | .int, .int i => .ok (.int i)
  | .bool, .bool b => .ok (.bool b)
  | .double, .double x => .ok (.double x)
  | .double, .int i => .ok (.double (Float.ofInt i))
  | expected, found => Value.mismatch expected found

/-- Whether two values are the same truth value, the same integer or equal as numbers. -/
def Value.equal : Value → Value → Attempt EvalError Bool
  | .bool x, .bool y => .ok (x == y)
  | .int x, .int y => .ok (x == y)
  | a, b => do return (← a.toDouble) == (← b.toDouble)

def Relation.apply (op : Relation) (a b : Value) : Attempt EvalError Bool :=
  match op with
  | eq => a.equal b
  | ne => do return !(← a.equal b)
  | lt => do return (← a.toDouble) < (← b.toDouble)
  | le => do return (← a.toDouble) ≤ (← b.toDouble)
  | gt => do return (← a.toDouble) > (← b.toDouble)
  | ge => do return (← a.toDouble) ≥ (← b.toDouble)

/-- Integers stay integers if both operands are, and other operands are taken as numbers. -/
def Arithmetic.mixed (onInts : Int → Int → Int) (onDoubles : Float → Float → Float) :
    Value → Value → Attempt EvalError Value
  | .int x, .int y => Value.integer (onInts x y)
  | a, b => do return .double (onDoubles (← a.toDouble) (← b.toDouble))

/-- The quotient of two numbers; the divisor is looked at first. -/
def Arithmetic.quotient (a b : Value) : Attempt EvalError Value := do
  let divisor ← b.toDouble
  if divisor == 0 then Attempt.fail .divisionByZero
  else return .double ((← a.toDouble) / divisor)

def Arithmetic.apply : Arithmetic → Value → Value → Attempt EvalError Value
  | add => mixed (· + ·) (· + ·)
  | sub => mixed (· - ·) (· - ·)
  | mul => mixed (· * ·) (· * ·)
  | div => quotient

/-- The values of named constants; of two with one name the first counts. -/
abbrev Constants := List (String × Value)

/-- What an expression is evaluated in; the state or the constants may be missing. -/
structure Context where
  valuation : Option Valuation
  constants : Option Constants

namespace Context

def of (valuation : Valuation) (constants : Constants) : Context := ⟨some valuation, some constants⟩

def valueOf? (context : Context) (index : Nat) : Option Value :=
  context.valuation.bind (·.get? index)

def constantOf? (context : Context) (name : String) : Option Value :=
  context.constants.bind (·.lookup name)

end Context

namespace Expr

def eval (context : Context) : Expr → Attempt EvalError Value
  | literal value => .ok value
  | var name index =>
    match context.valueOf? index with
    | some value => .ok value
    | none => Attempt.fail (.undefinedVariable name)
  | const name =>
    match context.constantOf? name with
    | some value => .ok value
    | none => Attempt.fail (.undefinedConstant name)
  | not inner => do
    let value ← inner.eval context
    return .bool (!(← value.toBool))
  | neg inner => do
    let value ← inner.eval context
    value.negate
  | connect op left right => do
    let value ← left.eval context
    let first ← value.toBool
    match op, first with
    | .and, false => return .bool false
    | .or, true => return .bool true
    | .implies, false => return .bool true
    | _, _ =>
      let value ← right.eval context
      return .bool (← value.toBool)
  | compare op left right => do
    let a ← left.eval context
    let b ← right.eval context
    return .bool (← op.apply a b)
  | calculate op left right => do
    let a ← left.eval context
    let b ← right.eval context
    op.apply a b
  | ite condition yes no => do
    let value ← condition.eval context
    if ← value.toBool then yes.eval context else no.eval context

/-- The value of a truth-valued expression. -/
def evalBool (context : Context) (e : Expr) : Attempt EvalError Bool := do
  let value ← e.eval context
  value.toBool

end Expr

end Markov
