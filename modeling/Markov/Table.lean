import Markov.Model
import Markov.Objective

/-!
# Transition tables

Solvers work on a table of the transitions of a model, copied out of it once.
A table of rates is turned into one of probabilities by taking the jumps alone
(`embedded`) or by giving all choices the same exit rate (`uniformised`).
-/

namespace Markov

/-- The successors of a choice with their weights. -/
abbrev Branch (R : Type) := List (Nat × R)

namespace Branch

variable {R : Type} [Scalar R]

/-- The total weight, which is the exit rate of a choice in continuous time. -/
@[specialize]
def total (b : Branch R) : R := Scalar.sum (b.map Prod.snd)

/-- Whether every successor is below `n`. -/
def isBelow (b : Branch R) (n : Nat) : Bool := b.all fun entry => entry.1 < n

/-- The weighted sum of the values of the successors. -/
@[specialize]
def dot (b : Branch R) (x : Array R) : R :=
  b.foldl (fun sum entry => sum + entry.2 * x.getD entry.1 0) Scalar.emptySum

/-- The weighted sum of the values of the successors, all of which have values. -/
def checkedDot {ε : Type} (b : Branch R) (x : Array R) : Attempt ε R := do
  Attempt.require (b.isBelow x.size)
  return b.dot x

/-- The successors with positive weight. -/
@[specialize]
def support (b : Branch R) : List Nat := (b.filter fun entry => 0 < entry.2).map Prod.fst

/-- The probabilities of the jumps out of `state`, a loop if there are none. -/
def embedded (state : Nat) (b : Branch R) : Branch R :=
  let rate := b.total
  if 0 < rate then b.map fun entry => (entry.1, entry.2 / rate) else [(state, 1)]

/-- The probabilities of the jumps out of `state` when jumps happen at the rate `q`.  What is
missing to `q` stays in `state`. -/
def uniformised (q : R) (state : Nat) (b : Branch R) : Branch R :=
  let moves := (b.filter fun entry => entry.1 ≠ state).map fun entry => (entry.1, entry.2 / q)
  let stay := b.foldl (fun stay entry => if entry.1 = state then stay + entry.2 / q else stay)
    (1 - b.total / q)
  if 0 < stay then moves ++ [(state, stay)] else moves

end Branch

/-- The choices of every state. -/
structure Table (R : Type) where
  rows : Array (List (Branch R))

namespace Table

variable {R : Type} [Scalar R]

/-- The transitions of a model as they are stored. -/
def ofModel (m : Model R) : Table R :=
  ⟨((List.range m.numStates).map fun state =>
    (m.layout.choicesOf state).map Distribution.entries).toArray⟩

/-- Reads the choices of a state one after the other. -/
def readRow {ε : Type} (m : Model R) (state : Nat) : Attempt ε (List (Branch R)) := do
  let choices ← (List.range (m.numChoices state)).mapM (m.layout.choice? state)
  return (choices.filterMap id).map Distribution.entries

/-- Reads the transitions of a model. -/
def read {ε : Type} (m : Model R) : Attempt ε (Table R) := do
  let rows ← (List.range m.numStates).mapM (readRow m)
  return ⟨rows.toArray⟩

def numStates (t : Table R) : Nat := t.rows.size

def branches (t : Table R) (state : Nat) : List (Branch R) := t.rows.getD state []

/-- The exit rate of a choice of the table. -/
def exitRate {ε : Type} (t : Table R) (state choice : Nat) : Attempt ε R := do
  let row ← Attempt.entry t.rows[state]?
  let branch ← Attempt.entry row[choice]?
  return branch.total

/-- The largest exit rate of a choice. -/
def maxExitRate (t : Table R) : R :=
  (t.rows.toList.flatten.map Branch.total).foldl Scalar.larger 0

/-- The probabilities of the jumps of a table of rates. -/
def embedded (t : Table R) : Table R :=
  ⟨t.rows.mapIdx fun state row => row.map (Branch.embedded state)⟩

/-- The probabilities of the jumps of a table of rates when all jumps happen at the rate `q`. -/
def uniformised (t : Table R) (q : R) : Table R :=
  ⟨t.rows.mapIdx fun state row => row.map (Branch.uniformised q state)⟩

end Table

/-- The vector that is one on a set and zero elsewhere. -/
def indicator {R : Type} [Scalar R] (set : BitSet) (n : Nat) : Array R :=
  ((List.range n).map fun state => if set.contains state then 1 else 0).toArray

/-- The vector that is one on a set of indices below `n` and zero elsewhere. -/
def checkedIndicator {R ε : Type} [Scalar R] (set : BitSet) (n : Nat) : Attempt ε (Array R) := do
  Attempt.require (set.isBelow n)
  return indicator set n

/-- The vector of any length that is one on a set of indices below its length and zero elsewhere, if
it can be laid out. -/
def newIndicator {R ε : Type} [Scalar R] (set : BitSet) (n : Nat) : Attempt ε (Array R) := do
  Attempt.require (n ≤ Word.maxWords)
  checkedIndicator set n

/-- How the choices of every state are resolved, if at all.  In a game the second player works
against the objective. -/
def directions {R : Type} (m : Model R) (objective : Option Direction) :
    Array (Option Direction) :=
  ((List.range m.numStates).map fun state =>
    match m.kind, m.player state with
    | .stpg, .two => objective.map Direction.flip
    | _, _ => objective).toArray

/-- The rewards of the choices of every state. -/
abbrev StepRewards (R : Type) := Array (List R)

namespace StepRewards

variable {R : Type} [Scalar R]

/-- The rewards of a step: that of the state and that of the choice. -/
def perStep (r : RewardStructure R) (t : Table R) : StepRewards R :=
  t.rows.mapIdx fun state row =>
    row.mapIdx fun choice _ => r.ofState state + r.ofChoice state choice

/-- The rewards of a jump in continuous time: that of the state for the mean time until the jump,
and that of the choice. -/
def perJump (r : RewardStructure R) (rates : Table R) : StepRewards R :=
  rates.rows.mapIdx fun state row =>
    row.mapIdx fun choice branch =>
      let rate := branch.total
      let sojourn := if 0 < rate then r.ofState state / rate else 0
      sojourn + r.ofChoice state choice

end StepRewards

end Markov
