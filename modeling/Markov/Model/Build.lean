import Markov.Model

/-!
# Building models

A model grows from an empty one, choice by choice, and can be brought into the
other layouts.
-/

namespace Markov.Model

variable {R : Type}

/-- A model without choices. -/
def empty (kind : ModelKind) (numStates : Nat) : Model R :=
  { kind := kind, layout := .listed (Array.replicate numStates []) }

/-- A model without choices, if its states can be laid out. -/
def create {ε : Type} (kind : ModelKind) (numStates : Nat) : Attempt ε (Model R) := do
  Attempt.require (numStates ≤ Word.maxRows)
  return empty kind numStates

/-- A model without choices, of the same kind and in the same layout. -/
def blank? (m : Model R) (numStates : Nat) : Option (Model R) :=
  if m.layout.isLocked then none
  else some { kind := m.kind, layout := m.layout.withRows (Array.replicate numStates []) }

/-- A model without choices, of the same kind and in the same layout, if its states can be laid
out. -/
def checkedBlank {ε : Type} (m : Model R) (numStates : Nat) : Attempt ε (Option (Model R)) := do
  Attempt.require (m.layout.isLocked || numStates ≤ Word.maxRows)
  return m.blank? numStates

/-- The choices of a state of the model. -/
def choices {ε : Type} [Scalar R] (m : Model R) (state : Nat) :
    Attempt ε (List (Distribution R)) :=
  Attempt.entry m.layout.rows[state]?

/-- Adds a choice to a state of the model, and tells its index. -/
def addChoice {ε : Type} [Scalar R] (m : Model R) (state : Nat) (d : Distribution R) :
    Attempt ε (Nat × Model R) := do
  let row ← m.choices state
  let rows := m.layout.rows.setIfInBounds state (row ++ [d])
  return (row.length, { m with layout := m.layout.withRows rows })

def addInitial (m : Model R) (state : Nat) : Model R :=
  { m with initial := m.initial.insert state }

def addLabel (m : Model R) (name : String) (states : BitSet) : Model R :=
  { m with labels := m.labels.add name states }

def addRewards (m : Model R) (rewards : RewardStructure R) : Model R :=
  { m with rewards := m.rewards ++ [rewards] }

/-- Adds all choices of a list to their states, and tells their indices. -/
def addChoices {ε : Type} [Scalar R] : Model R → List (Nat × Distribution R) →
    Attempt ε (List Nat × Model R)
  | m, [] => return ([], m)
  | m, (state, d) :: rest => do
    let (index, m) ← m.addChoice state d
    let (indices, m) ← m.addChoices rest
    return (index :: indices, m)

/-- Adds the contents of another model, apart from its kind and its owners, and tells the indices of
its choices. -/
def fill {ε : Type} [Scalar R] (m source : Model R) : Attempt ε (List Nat × Model R) := do
  let (indices, m) ← m.addChoices
    (source.layout.rows.toList.zipIdx.flatMap fun entry => entry.1.map fun d => (entry.2, d))
  let m := source.initial.toList.foldl addInitial m
  let m := source.labels.entries.foldl (fun m entry => m.addLabel entry.1 entry.2) m
  let m := source.rewards.foldl addRewards m
  return (indices, { m with valuations := source.valuations <|> m.valuations })

/-- Gives every state without choices a loop, and tells which states these were. -/
def fixDeadlocks [Scalar R] (m : Model R) : BitSet × Model R :=
  let rows := m.layout.rows.mapIdx fun state row =>
    if row.isEmpty then [Distribution.point state] else row
  (m.deadlocks, { m with layout := m.layout.withRows rows })

/-- The same model in flat arrays. -/
def pack [Scalar R] (m : Model R) : Model R :=
  { m with
    layout := .packed (.ofRows m.layout.rows.toList)
    players := ((List.range m.numStates).map m.player).toArray }

/-- The same model without owners, from which no other model can be made. -/
def lock [Scalar R] (m : Model R) : Model R :=
  { m with layout := .locked m.layout.rows, players := #[] }

end Markov.Model
