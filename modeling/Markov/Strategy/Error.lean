import Markov.Distribution
import Markov.ModelKind

/-!
# Errors of strategies
-/

namespace Markov

/-- What is wrong with a row of a decision table. -/
inductive TableDefect where
  | negativeBound (bound : Int)
  | noPairs
  | oddLength (length : Nat)
  | negative (value : Int)
  /-- The first pivot of the row is below the bound. -/
  | lowPivot (pivot bound : Nat)
  /-- A pivot is larger than the one before it. -/
  | increase (pivot previous : Nat)
  | actionCount (expected found : Nat)
  deriving Repr, DecidableEq

def TableDefect.message : TableDefect → String
  | negativeBound bound => s!"the bound must be non-negative, got {bound}"
  | noPairs => "no (pivot, action) pairs"
  | oddLength length => s!"odd number of values ({length})"
  | negative value => s!"negative value {value}"
  | lowPivot pivot bound => s!"first pivot {pivot} is below the bound {bound}"
  | increase pivot previous => s!"pivot {pivot} follows smaller pivot {previous}"
  | actionCount expected found => s!"expected {expected} actions, got {found}"

/-- A decision table that was rejected, with the first offending state. -/
structure TableError where
  state : Nat
  defect : TableDefect
  deriving Repr, DecidableEq

def TableError.message (e : TableError) : String :=
  s!"malformed strategy table at state {e.state}: " ++ e.defect.message

/-- Why a strategy has no product with a model. -/
inductive ProductDefect where
  /-- Strategies of this type have no products. -/
  | strategyType (name : String)
  | modelKind (kind : ModelKind)
  | noStates (states levels : Nat)
  | valuations (states found : Nat)
  /-- No model can be made in the layout of the given one. -/
  | lockedLayout
  /-- The strategy takes a choice that the state does not have. -/
  | noChoice (state choices action : Nat)
  deriving Repr, DecidableEq

def ProductDefect.message : ProductDefect → String
  | strategyType name => name ++ " does not support product construction"
  | modelKind kind => "expected an MDP, got a " ++ kind.name
  | noStates states levels => s!"product of {states} states and {levels} memory levels is empty"
  | valuations states found => s!"the model has {states} states but {found} state valuations"
  | lockedLayout => "the model representation cannot be rebuilt"
  | noChoice state choices action =>
    s!"state {state} has {choices} choices, the strategy picks {action}"

/-- Why a strategy, or its product with a model, gives no answer.  Texts are in the words of the
strategy that reports them. -/
inductive StrategyError (R : Type) where
  | malformedTable (error : TableError)
  | invalidState (reason : String)
  /-- A move that does not take exactly one choice. -/
  | undecided (move : Distribution R)
  | undefinedState (state covered : Nat)
  | invalidMemory (reason : String)
  | unsupportedProduct (defect : ProductDefect)
  /-- The move of a state at a level of memory could not be resolved. -/
  | product (state memory : Nat) (cause : StrategyError R)

def StrategyError.message : StrategyError Float → String
  | malformedTable error => error.message
  | invalidState reason => "invalid strategy state: " ++ reason
  | undecided move => "invalid strategy state: move " ++ move.render ++ " is not deterministic"
  | undefinedState state covered =>
    s!"the strategy is undefined for state {state} (table covers {covered} states)"
  | invalidMemory reason => "invalid memory: " ++ reason
  | unsupportedProduct defect => "product construction is not supported: " ++ defect.message
  | product state memory cause =>
    s!"product construction failed at state {state}, memory {memory}: " ++ cause.message

end Markov
