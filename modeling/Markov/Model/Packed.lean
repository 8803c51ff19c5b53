import Markov.Distribution
import Markov.Word

/-!
# Packed transitions

All choices of a model in flat arrays: the entries of every choice one after
the other, where each choice starts among the entries, and where the choices
of each state start among all choices.  A choice that is read is collected from
its entries again, and so its weights are looked at once more.
-/

namespace Markov

/-- Arrays of transitions in compressed rows. -/
structure Packed.Arrays (R : Type) where
  /-- The first choice of each state, and the number of choices. -/
  rowStarts : Array Nat
  /-- The first entry of each choice, and the number of entries. -/
  choiceStarts : Array Nat
  targets : Array Nat
  weights : Array R

namespace Packed

variable {R : Type}

/-- Where blocks of the given lengths start when they follow each other from `first` on, and where
the last one ends. -/
def starts (first : Nat) : List Nat → List Nat
  | [] => [first]
  | length :: rest => first :: starts (first + length) rest

/-- The arrays of the choices of every state. -/
def Arrays.ofRows (rows : List (List (Distribution R))) : Arrays R :=
  let choices := rows.flatten
  let entries := choices.flatMap Distribution.entries
  { rowStarts := (starts 0 (rows.map List.length)).toArray
    choiceStarts := (starts 0 (choices.map Distribution.size)).toArray
    targets := (entries.map Prod.fst).toArray
    weights := (entries.map Prod.snd).toArray }

end Packed

/-- Transitions in compressed rows.  There are none but those that were packed. -/
structure Packed (R : Type) extends Packed.Arrays R where
  origin : ∃ rows, toArrays = .ofRows rows

namespace Packed

variable {R : Type}

/-- Packs the choices of every state. -/
def ofRows (rows : List (List (Distribution R))) : Packed R := ⟨.ofRows rows, rows, rfl⟩

def numStates (p : Packed R) : Nat := p.rowStarts.size - 1

def numChoices (p : Packed R) (state : Nat) : Nat :=
  match p.rowStarts[state]?, p.rowStarts[state + 1]? with
  | some start, some stop => stop - start
  | _, _ => 0

/-- The position of a choice among all choices. -/
def position? (p : Packed R) (state index : Nat) : Option Nat := do
  let start ← p.rowStarts[state]?
  let stop ← p.rowStarts[state + 1]?
  if start + index < stop then some (start + index) else none

/-- The entries of a choice. -/
def entries? (p : Packed R) (state index : Nat) : Option (List (Nat × R)) := do
  let position ← p.position? state index
  let start ← p.choiceStarts[position]?
  let stop ← p.choiceStarts[position + 1]?
  return (p.targets.extract start stop).toList.zip (p.weights.extract start stop).toList

/-- A choice as it is stored, whatever its weights are. -/
def stored? [Scalar R] (p : Packed R) (state index : Nat) : Option (Distribution R) :=
  (p.entries? state index).map Distribution.ofList

/-- A choice, collected from entries none of which has a negative weight. -/
def choice? {ε : Type} [Scalar R] (p : Packed R) (state index : Nat) :
    Attempt ε (Option (Distribution R)) :=
  match p.entries? state index with
  | none => return none
  | some entries => do
    let choice ← Distribution.collect entries
    return some choice

/-- Whether the number of choices of a state is found without leaving the index word. -/
def isCountable (_ : Packed R) (state : Nat) : Bool := Word.isIndex (state + 1)

/-- Whether a choice is found without leaving the index word. -/
def isAddressable (p : Packed R) (state index : Nat) : Bool :=
  match p.rowStarts[state]?, p.rowStarts[state + 1]? with
  | some start, some _ => Word.isIndex (start + index)
  | _, _ => true

end Packed

end Markov
