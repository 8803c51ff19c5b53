import Markov.Value

/-!
# Expressions

Expressions over the variables of a state and named constants.  A variable is
given by its name, which is only written, and by its index in a valuation.
-/

namespace Markov

inductive Connective where
  | and
  | or
  | implies
  deriving Repr, DecidableEq

inductive Relation where
  | eq
  | ne
  | lt
  | le
  | gt
  | ge
  deriving Repr, DecidableEq

inductive Arithmetic where
  | add
  | sub
  | mul
  | div
  deriving Repr, DecidableEq

inductive Expr where
  | literal (value : Value)
  | var (name : String) (index : Nat)
  | const (name : String)
  | not (inner : Expr)
  | neg (inner : Expr)
  | connect (op : Connective) (left right : Expr)
  | compare (op : Relation) (left right : Expr)
  | calculate (op : Arithmetic) (left right : Expr)
  | ite (condition yes no : Expr)
  deriving Repr

def Connective.symbol : Connective → String
  | and => "&"
  | or => "|"
  | implies => "=>"

def Connective.ofSymbol? (text : String) : Option Connective :=
  [and, or, implies].find? (·.symbol == text)

def Relation.symbol : Relation → String
  | eq => "="
  | ne => "!="
  | lt => "<"
  | le => "<="
  | gt => ">"
  | ge => ">="

def Relation.ofSymbol? (text : String) : Option Relation :=
  [eq, ne, lt, le, gt, ge].find? (·.symbol == text)

def Arithmetic.symbol : Arithmetic → String
  | add => "+"
  | sub => "-"
  | mul => "*"
  | div => "/"

def Arithmetic.ofSymbol? (text : String) : Option Arithmetic :=
  [add, sub, mul, div].find? (·.symbol == text)

namespace Expr

/-- The negation of an expression, without a double negation at its front. -/
def negated : Expr → Expr
  | not inner => inner
  | e => not e

def render : Expr → String
  | literal value => value.render
  | var name _ => name
  | const name => name
  | not inner => "!" ++ inner.render
  | neg inner => "-" ++ inner.render
  | connect op left right => "(" ++ left.render ++ op.symbol ++ right.render ++ ")"
  | compare op left right => "(" ++ left.render ++ op.symbol ++ right.render ++ ")"
  | calculate op left right => "(" ++ left.render ++ op.symbol ++ right.render ++ ")"
  | ite condition yes no =>
    "(" ++ condition.render ++ " ? " ++ yes.render ++ " : " ++ no.render ++ ")"

end Expr

end Markov
