import Markov.BitSet

/-!
# Labels

Named sets of states.  The names are kept in ascending order, compared by code
points.
-/

namespace Markov

/-- Named sets of states. -/
structure Labels where
  entries : List (String × BitSet)

namespace Labels

def empty : Labels := ⟨[]⟩

instance : Inhabited Labels := ⟨empty⟩

/-- Puts a set under its name into a list in ascending order. -/
def place (name : String) (states : BitSet) : List (String × BitSet) → List (String × BitSet)
  | [] => [(name, states)]
  | (other, set) :: rest =>
    if name < other then (name, states) :: (other, set) :: rest
    else if name = other then (name, states) :: rest
    else (other, set) :: place name states rest

/-- Gives a name to a set, in place of the set that had it before. -/
def add (labels : Labels) (name : String) (states : BitSet) : Labels :=
  ⟨place name states labels.entries⟩

def ofList (entries : List (String × BitSet)) : Labels :=
  entries.foldl (fun labels entry => labels.add entry.1 entry.2) empty

def get? (labels : Labels) (name : String) : Option BitSet := labels.entries.lookup name

def contains (labels : Labels) (name : String) : Bool := (labels.get? name).isSome

def names (labels : Labels) : List String := labels.entries.map Prod.fst

def size (labels : Labels) : Nat := labels.entries.length

def isEmpty (labels : Labels) : Bool := labels.entries.isEmpty

/-- Replaces every set by its image. -/
def mapSets (f : BitSet → BitSet) (labels : Labels) : Labels :=
  ⟨labels.entries.map fun entry => (entry.1, f entry.2)⟩

end Labels

end Markov
