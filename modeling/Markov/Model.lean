import Markov.Labels
import Markov.Model.Packed
import Markov.ModelKind
import Markov.Value

/-!
# Models

A model has states `0, 1, …`, each with choices that are distributions over
successor states, together with initial states, labels, rewards, valuations of
variables and, for games, the owners of the states.  Its transitions are kept
in one of several layouts, which all offer the same view.
-/

namespace Markov

/-- Rewards of states, and possibly of choices. -/
structure RewardStructure (R : Type) where
  name : String
  states : Array R
  choices : Option (Array (Array R))

namespace RewardStructure

variable {R : Type}

/-- The structure without any reward. -/
def none (name : String) : RewardStructure R := ⟨name, #[], .none⟩

variable [Scalar R]

/-- The reward of a state, zero if none is given. -/
def ofState (r : RewardStructure R) (state : Nat) : R := r.states.getD state 0

/-- The reward of a choice, zero if none is given. -/
def ofChoice (r : RewardStructure R) (state choice : Nat) : R :=
  match r.choices with
  | some rows => (rows.getD state #[]).getD choice 0
  | .none => 0

end RewardStructure

/-- How the transitions of a model are kept. -/
inductive Layout (R : Type) where
  /-- The list of choices of every state. -/
  | listed (rows : Array (List (Distribution R)))
  /-- Flat arrays. -/
  | packed (arrays : Packed R)
  /-- The list of choices of every state, from which no other model can be made. -/
  | locked (rows : Array (List (Distribution R)))

namespace Layout

variable {R : Type}

def numStates : Layout R → Nat
  | listed rows => rows.size
  | packed arrays => arrays.numStates
  | locked rows => rows.size

def numChoices : Layout R → Nat → Nat
  | listed rows, state => (rows.getD state []).length
  | packed arrays, state => arrays.numChoices state
  | locked rows, state => (rows.getD state []).length

/-- A choice as it is stored. -/
def stored? [Scalar R] : Layout R → Nat → Nat → Option (Distribution R)
  | listed rows, state, index => (rows.getD state [])[index]?
  | packed arrays, state, index => arrays.stored? state index
  | locked rows, state, index => (rows.getD state [])[index]?

/-- A choice as it is read. -/
def choice? {ε : Type} [Scalar R] :
    Layout R → Nat → Nat → Attempt ε (Option (Distribution R))
  | listed rows, state, index => return (rows.getD state [])[index]?
  | packed arrays, state, index => arrays.choice? state index
  | locked rows, state, index => return (rows.getD state [])[index]?

def isLocked : Layout R → Bool
  | locked _ => true
  | _ => false

/-- Whether the number of choices of a state is found without leaving the index word. -/
def isCountable : Layout R → Nat → Bool
  | packed arrays, state => arrays.isCountable state
  | _, _ => true

/-- Whether a choice is found without leaving the index word. -/
def isAddressable : Layout R → Nat → Nat → Bool
  | packed arrays, state, index => arrays.isAddressable state index
  | _, _, _ => true

/-- The choices of a state as they are stored. -/
def choicesOf [Scalar R] (layout : Layout R) (state : Nat) : List (Distribution R) :=
  (List.range (layout.numChoices state)).filterMap (layout.stored? state)

/-- The choices of every state. -/
def rows [Scalar R] : Layout R → Array (List (Distribution R))
  | listed rows => rows
  | locked rows => rows
  | packed arrays =>
    ((List.range arrays.numStates).map (packed arrays).choicesOf).toArray

/-- Other transitions in the same kind of layout. -/
def withRows : Layout R → Array (List (Distribution R)) → Layout R
  | listed _, rows => listed rows
  | packed _, rows => packed (.ofRows rows.toList)
  | locked _, rows => locked rows

/-- The number of entries of all distributions. -/
def numTransitions [Scalar R] : Layout R → Nat
  | packed arrays => arrays.targets.size
  | layout =>
    ((List.range layout.numStates).flatMap fun state =>
      (layout.choicesOf state).map Distribution.size).foldr (· + ·) 0

end Layout

/-- A finite model. -/
structure Model (R : Type) where
  kind : ModelKind
  layout : Layout R
  initial : BitSet := .empty
  /-- The values of the variables in every state, if the model has variables. -/
  valuations : Option (List Valuation) := none
  labels : Labels := .empty
  rewards : List (RewardStructure R) := []
  /-- The owners of the states; states without an entry belong to player one. -/
  players : Array Player := #[]

namespace Model

variable {R : Type}

def numStates (m : Model R) : Nat := m.layout.numStates

def numChoices (m : Model R) (state : Nat) : Nat := m.layout.numChoices state

def stored? [Scalar R] (m : Model R) (state index : Nat) : Option (Distribution R) :=
  m.layout.stored? state index

def player (m : Model R) (state : Nat) : Player := m.players.getD state .one

def numAllChoices (m : Model R) : Nat :=
  ((List.range m.numStates).map m.numChoices).foldr (· + ·) 0

def numTransitions [Scalar R] (m : Model R) : Nat := m.layout.numTransitions

/-- The number of choices of any index, also of one that is no state. -/
def countChoices {ε : Type} (m : Model R) (state : Nat) : Attempt ε Nat := do
  Attempt.require (m.layout.isCountable state)
  return m.numChoices state

/-- The choice at any pair of indices. -/
def findChoice {ε : Type} [Scalar R] (m : Model R) (state index : Nat) :
    Attempt ε (Option (Distribution R)) := do
  Attempt.require (m.layout.isAddressable state index)
  m.layout.choice? state index

/-- The reward structure with a name, or the first one. -/
def rewardStructure? (m : Model R) : Option String → Option (RewardStructure R)
  | some name => m.rewards.find? (·.name == name)
  | none => m.rewards.head?

/-- The states without choices. -/
def deadlocks (m : Model R) : BitSet :=
  .ofList ((List.range m.numStates).filter fun state => m.numChoices state == 0)

/-- The set with a name: one of the given labels, a label of the model, or one of the sets that
every model has. -/
def labelled? (m : Model R) (labels : Labels) (name : String) : Option BitSet :=
  match labels.get? name, m.labels.get? name with
  | some states, _ => some states
  | none, some states => some states
  | none, none =>
    if name = "init" then some m.initial
    else if name = "deadlock" then some m.deadlocks
    else none

/-- A one-line summary. -/
def info [Scalar R] (m : Model R) : String :=
  m.kind.name ++ " with " ++ toString m.numStates ++ " states, " ++ toString m.numAllChoices ++
    " choices, " ++ toString m.numTransitions ++ " transitions"

end Model

end Markov
