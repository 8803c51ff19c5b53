import Markov.Expr.Eval

/-!
# Updates

An update assigns new values to variables.  All right-hand sides are evaluated
in the old state, so the assignments of an update happen at once.  Whether the
new values stay inside the declared ranges is checked separately.
-/

namespace Markov

/-- A variable with its type and its range. -/
structure Declaration where
  name : String
  type : ValueType
  low : Int
  high : Int
  deriving Repr, DecidableEq

namespace Declaration

/-- A truth-valued variable; its values count as `0` and `1`. -/
def bool (name : String) : Declaration := ⟨name, .bool, 0, 1⟩

/-- The integer that stands for a value of the variable. -/
def encode (d : Declaration) (value : Value) : Attempt EvalError Int := do
  match ← d.type.cast value with
  | .int i => return i
  | .bool b => return if b then 1 else 0
  | .double _ => Attempt.fail (.typeMismatch [.int, .bool] .double)

end Declaration

/-- The variables of a model, in the order of its valuations. -/
abbrev Declarations := List Declaration

namespace Declarations

def indexOf? (declarations : Declarations) (name : String) : Option Nat :=
  declarations.findIdx? (·.name == name)

/-- The variable with an index. -/
def declaration (declarations : Declarations) (index : Nat) : Attempt EvalError Declaration :=
  Attempt.entry declarations[index]?

/-- The integer that stands for a value of the variable with an index. -/
def encode (declarations : Declarations) (index : Nat) (value : Value) : Attempt EvalError Int := do
  let declaration ← declarations.declaration index
  declaration.encode value

end Declarations

/-- The assignment of an expression to a variable. -/
structure Assignment where
  name : String
  index : Nat
  source : Expr
  type : ValueType
  deriving Repr

namespace Assignment

/-- The value that the variable gets, evaluated in the state `old`. -/
def value (a : Assignment) (old : Valuation) (constants : Constants) : Attempt EvalError Value := do
  let value ← a.source.eval (.of old constants)
  a.type.cast value

/-- Writes the value of the right-hand side in `old` into `new`. -/
def apply (a : Assignment) (old : Valuation) (constants : Constants) (new : Valuation) :
    Attempt EvalError Valuation := do
  let value ← a.value old constants
  new.checkedSet a.index value

/-- Checks that the new value is inside the range of the variable. -/
def check (a : Assignment) (old : Valuation) (declarations : Declarations) (constants : Constants) :
    Attempt EvalError Unit := do
  let value ← a.source.eval (.of old constants)
  let declaration ← declarations.declaration a.index
  let code ← declaration.encode value
  if code < declaration.low || declaration.high < code then
    Attempt.fail (.overflow a.name a.source)

def render (a : Assignment) : String := "(" ++ a.name ++ "'=" ++ a.source.render ++ ")"

end Assignment

/-- Assignments that happen at once. -/
structure Update where
  assignments : List Assignment
  deriving Repr

namespace Update

/-- The successor of a state. -/
def apply (u : Update) (old : Valuation) (constants : Constants) : Attempt EvalError Valuation :=
  u.assignments.foldlM (fun new a => a.apply old constants new) old

/-- Checks every assignment, and reports the first that fails. -/
def check (u : Update) (old : Valuation) (declarations : Declarations) (constants : Constants) :
    Attempt EvalError Unit :=
  u.assignments.forM fun a => a.check old declarations constants

def render (u : Update) : String :=
  if u.assignments.isEmpty then "true"
  else " & ".intercalate (u.assignments.map Assignment.render)

end Update

end Markov
