/-!
# Sets of states

Labels, satisfaction sets and the results of graph analysis are sets of state
indices.  A `BitSet` keeps one bit per index in a vector of words that grows
as needed, together with the number of its members.  Two sets are equal when
they have the same members, whatever the lengths of their word vectors.
-/

namespace Markov

/-- A set of indices, one bit each. -/
structure BitSet where
  words : Array UInt64
  /-- The number of members. -/
  size : Nat

namespace BitSet

/-- The bit of an index inside its word. -/
def mask (index : Nat) : UInt64 := 1 <<< (index % 64).toUInt64

def testBit (word : UInt64) (bit : Nat) : Bool := word &&& mask bit != 0

/-- The bits of a word, in ascending order. -/
def bits (word : UInt64) : List Nat :=
  if word = 0 then [] else (List.range 64).filter (testBit word)

/-- The number of bits of a vector of words. -/
def population (words : Array UInt64) : Nat :=
  words.foldl (fun total word => total + (bits word).length) 0

def empty : BitSet := ⟨#[], 0⟩

instance : EmptyCollection BitSet := ⟨empty⟩

instance : Inhabited BitSet := ⟨empty⟩

/-- The empty set, with room for the indices below `capacity`. -/
def withCapacity (capacity : Nat) : BitSet :=
  ⟨Array.replicate ((capacity + 63) / 64) 0, 0⟩

def isEmpty (set : BitSet) : Bool := set.size == 0

def contains (set : BitSet) (index : Nat) : Bool :=
  match set.words[index / 64]? with
  | some word => testBit word index
  | none => false

/-- Extends a vector of words by empty ones to the given length. -/
def padded (words : Array UInt64) (length : Nat) : Array UInt64 :=
  words ++ Array.replicate (length - words.size) 0

/-- Adds an index, and tells whether it is a new member. -/
def add (set : BitSet) (index : Nat) : Bool × BitSet :=
  let isNew := !set.contains index
  let words := (padded set.words (index / 64 + 1)).modify (index / 64) (· ||| mask index)
  (isNew, ⟨words, if isNew then set.size + 1 else set.size⟩)

/-- Removes an index, and tells whether it was a member. -/
def remove (set : BitSet) (index : Nat) : Bool × BitSet :=
  let wasMember := set.contains index
  let words := set.words.modify (index / 64) (· &&& ~~~ mask index)
  (wasMember, ⟨words, if wasMember then set.size - 1 else set.size⟩)

def insert (set : BitSet) (index : Nat) : BitSet := (set.add index).2

def erase (set : BitSet) (index : Nat) : BitSet := (set.remove index).2

/-- Makes an index a member or not. -/
def assign (set : BitSet) (index : Nat) (member : Bool) : BitSet :=
  if member then set.insert index else set.erase index

/-- Removes every member and keeps the room. -/
def clear (set : BitSet) : BitSet := ⟨set.words.map fun _ => 0, 0⟩

def insertMany (set : BitSet) (indices : List Nat) : BitSet := indices.foldl insert set

def ofList (indices : List Nat) : BitSet := empty.insertMany indices

/-- The indices below `n`. -/
def full (n : Nat) : BitSet := (withCapacity n).insertMany (List.range n)

/-- A word without its lowest bit. -/
def stripped (word : UInt64) : UInt64 := word &&& (word - 1)

/-- The number of the lowest bit of a word that has one. -/
def lowest (word : UInt64) : Nat := (word ^^^ stripped word).toNat.log2

/-- Where an iteration over the members stands. -/
structure Cursor where
  /-- The index of the first bit of the current word. -/
  base : Nat
  /-- What is left of the current word, and the words behind it. -/
  words : List UInt64

namespace Cursor

/-- The lowest bit of the first word that has one, and where the iteration stands without it. -/
def scan (base : Nat) : List UInt64 → Option Nat × Cursor
  | [] => (none, ⟨base, []⟩)
  | word :: words =>
    if word = 0 then scan (base + 64) words
    else (some (base + lowest word), ⟨base, stripped word :: words⟩)

/-- The next member, if there is one more, and where the iteration stands behind it. -/
def next (cursor : Cursor) : Option Nat × Cursor := scan cursor.base cursor.words

/-- At most `limit` further members, behind those that were found before, the latest first. -/
def collect : Nat → Cursor → List Nat → List Nat
  | 0, _, found => found.reverse
  | limit + 1, cursor, found =>
    match cursor.next with
    | (none, _) => found.reverse
    | (some index, cursor) => cursor.collect limit (index :: found)

end Cursor

/-- The start of an iteration over the members. -/
def cursor (set : BitSet) : Cursor := ⟨0, set.words.toList⟩

/-- The members in ascending order. -/
def toList (set : BitSet) : List Nat := set.cursor.collect (64 * set.words.size) []

def ofWords (words : Array UInt64) : BitSet := ⟨words, population words⟩

def union (a b : BitSet) : BitSet :=
  ofWords ((padded a.words b.words.size).mapIdx fun i word => word ||| b.words.getD i 0)

def inter (a b : BitSet) : BitSet :=
  ofWords (a.words.mapIdx fun i word => word &&& b.words.getD i 0)

def diff (a b : BitSet) : BitSet :=
  ofWords (a.words.mapIdx fun i word => word &&& ~~~ b.words.getD i 0)

/-- The indices below `n` that are not members. -/
def complement (set : BitSet) (n : Nat) : BitSet :=
  ofList ((List.range n).filter fun index => !set.contains index)

def isSubset (a b : BitSet) : Bool := a.toList.all b.contains

/-- Whether every member is below `n`. -/
def isBelow (set : BitSet) (n : Nat) : Bool := set.toList.all (· < n)

def beq (a b : BitSet) : Bool := a.size == b.size && a.toList == b.toList

instance : BEq BitSet := ⟨beq⟩

instance : Union BitSet := ⟨union⟩

instance : Inter BitSet := ⟨inter⟩

instance : SDiff BitSet := ⟨diff⟩

/-- The members in braces. -/
def render (set : BitSet) : String :=
  "\x7b" ++ ", ".intercalate (set.toList.map toString) ++ "\x7d"

end BitSet

end Markov
