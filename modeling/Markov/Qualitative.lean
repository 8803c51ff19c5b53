import Markov.Table

/-!
# Qualitative reachability

Which states have probability zero, and which have probability one, of reaching
`right` through states of `left`.  Both answers depend on the supports of the
choices alone.  A minimising state needs all of its choices to qualify, and any
other state needs one of them.

Both sets are fixed points.  A set that grows inside a table of `n` states is
stable after at most `n + 1` rounds, so the rounds are bounded by that number.
-/

namespace Markov

/-- Repeats a round until it does not change the set any more, for at most `fuel` rounds. -/
def stabilise {α : Type} (round : α → α) (set : α → BitSet) : Nat → α → Option α
  | 0, _ => none
  | fuel + 1, current =>
    let next := round current
    if set next == set current then some next else stabilise round set fuel next

namespace Table

variable {R : Type} [Scalar R]

/-- Whether one choice of a state is enough. -/
def isExistential (direction : Option Direction) : Bool := direction != some .min

/-- Whether the choices of a state qualify, as its direction demands. -/
def qualifies (branches : List (Branch R)) (direction : Option Direction)
    (good : Branch R → Bool) : Bool :=
  if isExistential direction then branches.any good
  else !branches.isEmpty && branches.all good

/-- Adds the states, in ascending order, from which a choice leads into the set. -/
def growReach (t : Table R) (dirs : Array (Option Direction)) (left reach : BitSet) : BitSet :=
  (List.range t.numStates).foldl (fun reach state =>
    if reach.contains state || !left.contains state then reach
    else if qualifies (t.branches state) (dirs.getD state none)
      (fun branch => branch.support.any reach.contains) then reach.insert state
    else reach) reach

/-- The states that reach `right` with positive probability, found round by round. -/
def reach? (t : Table R) (dirs : Array (Option Direction)) (left right : BitSet) (fuel : Nat) :
    Option BitSet :=
  stabilise (t.growReach dirs left) id fuel right

/-- The states with probability zero. -/
def zeroSet (t : Table R) (dirs : Array (Option Direction)) (left right : BitSet) : BitSet :=
  ((t.reach? dirs left right (t.numStates + 1)).getD right).complement t.numStates

/-- States that were found, with the choices that led to them. -/
structure Witnessed where
  states : BitSet
  witness : Array Nat

/-- Whether a choice stays in `u` and may lead into `v`. -/
def staysAndHits (u v : BitSet) (branch : Branch R) : Bool :=
  branch.support.all u.contains && branch.support.any v.contains

/-- Adds the states of `u`, in ascending order, from which a choice stays in `u` and leads into the
set. -/
def growSure (t : Table R) (dirs : Array (Option Direction)) (left u : BitSet)
    (found : Witnessed) : Witnessed :=
  (List.range t.numStates).foldl (fun found state =>
    if found.states.contains state || !left.contains state || !u.contains state then found
    else
      let good := staysAndHits u found.states
      if isExistential (dirs.getD state none) then
        match (t.branches state).findIdx? good with
        | some choice => ⟨found.states.insert state, found.witness.setIfInBounds state choice⟩
        | none => found
      else if !(t.branches state).isEmpty && (t.branches state).all good then
        { found with states := found.states.insert state }
      else found) found

/-- The states that reach `right` without leaving `u`, found round by round. -/
def sureWithin? (t : Table R) (dirs : Array (Option Direction)) (left right u : BitSet)
    (witness : Array Nat) (fuel : Nat) : Option Witnessed :=
  stabilise (t.growSure dirs left u) Witnessed.states fuel ⟨right, witness⟩

/-- One round of removing states from which `right` can be missed. -/
def shrinkSure (t : Table R) (dirs : Array (Option Direction)) (left right : BitSet)
    (u : Witnessed) : Witnessed :=
  (t.sureWithin? dirs left right u.states u.witness (t.numStates + 1)).getD ⟨right, u.witness⟩

/-- The states that reach `right` almost surely, found round by round. -/
def sure? (t : Table R) (dirs : Array (Option Direction)) (left right : BitSet) (fuel : Nat) :
    Option Witnessed :=
  stabilise (t.shrinkSure dirs left right) Witnessed.states fuel
    ⟨.full t.numStates, Array.replicate t.numStates 0⟩

/-- The states with probability one, and for each that needs only one of its choices the choice to
take. -/
def oneSet (t : Table R) (dirs : Array (Option Direction)) (left right : BitSet) : Witnessed :=
  (t.sure? dirs left right (t.numStates + 2)).getD ⟨right, Array.replicate t.numStates 0⟩

/-- Whether the directions of all states are known that the analysis looks at. -/
def knowsDirections (t : Table R) (dirs : Array (Option Direction)) (left right : BitSet) : Bool :=
  (List.range t.numStates).all fun state =>
    state < dirs.size || right.contains state || !left.contains state

/-- The states with probability zero, where the directions are known. -/
def checkedZeroSet {ε : Type} (t : Table R) (dirs : Array (Option Direction))
    (left right : BitSet) : Attempt ε BitSet := do
  Attempt.require (t.knowsDirections dirs left right)
  return t.zeroSet dirs left right

/-- The states with probability one, where the directions are known. -/
def checkedOneSet {ε : Type} (t : Table R) (dirs : Array (Option Direction))
    (left right : BitSet) : Attempt ε Witnessed := do
  Attempt.require (t.knowsDirections dirs left right)
  return t.oneSet dirs left right

end Table

end Markov
