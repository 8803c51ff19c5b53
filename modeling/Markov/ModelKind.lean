/-!
# Kinds of models

A model is a chain, a decision process or a two-player game, in discrete or in
continuous time.  Its kind decides which checker applies to it and which
properties make sense for it.
-/

namespace Markov

inductive ModelKind where
  /-- A discrete-time chain. -/
  | dtmc
  /-- A discrete-time decision process. -/
  | mdp
  /-- A continuous-time chain. -/
  | ctmc
  /-- A continuous-time decision process. -/
  | ctmdp
  /-- A discrete-time stochastic game of two players. -/
  | stpg
  deriving Repr, DecidableEq

namespace ModelKind

def all : List ModelKind := [dtmc, mdp, ctmc, ctmdp, stpg]

def name : ModelKind → String
  | dtmc => "DTMC"
  | mdp => "MDP"
  | ctmc => "CTMC"
  | ctmdp => "CTMDP"
  | stpg => "STPG"

/-- Whether states may offer several choices. -/
def isNondeterministic : ModelKind → Bool
  | mdp | ctmdp | stpg => true
  | dtmc | ctmc => false

/-- Whether distributions hold rates instead of probabilities. -/
def isContinuous : ModelKind → Bool
  | ctmc | ctmdp => true
  | dtmc | mdp | stpg => false

/-- The kind with a given name, in any mixture of cases. -/
def ofName? (text : String) : Option ModelKind :=
  all.find? fun kind => kind.name == String.ofList (text.toList.map Char.toUpper)

end ModelKind

/-- The owner of a state of a game. -/
inductive Player where
  | one
  | two
  deriving Repr, DecidableEq, Inhabited

def Player.name : Player → String
  | one => "P1"
  | two => "P2"

end Markov
