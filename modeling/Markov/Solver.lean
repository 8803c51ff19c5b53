import Markov.Bellman.Solve
import Markov.CheckError
import Markov.Qualitative
import Markov.Strategy.Countdown

/-!
# Values in discrete time

The values of the path and reward operators on a table of probabilities.
Chains, decision processes and games differ only in the directions of their
states; continuous-time models use the same procedures on their jumps.
-/

namespace Markov

/-- The values of an operator, and how they were found. -/
structure Computed (R : Type) where
  values : Array R
  stats : Stats R
  /-- The strategy that attains the values, if one was asked for. -/
  strategy : Option CountdownStrategy := none

/-- A table of probabilities with the directions of its states. -/
structure Solver (R : Type) where
  table : Table R
  directions : Array (Option Direction)
  options : Options R

namespace Solver

variable {R : Type} [Scalar R]

def numStates (s : Solver R) : Nat := s.table.numStates

def bellman (s : Solver R) (rewards : Option (StepRewards R)) : Bellman R :=
  ⟨s.table, s.directions, rewards, s.options⟩

/-- Solves an equation, or reports that no method settled. -/
def solve (s : Solver R) (rewards : Option (StepRewards R)) (unknown : BitSet) (x : Array R)
    (seed : Option (Array Nat)) : Attempt (CheckError R) (Solution R) :=
  Attempt.mapCause .nonConvergence ((s.bellman rewards).solve unknown x seed)

/-- The probabilities of a step into `target`. -/
def next (s : Solver R) (target : BitSet) : Attempt (CheckError R) (Computed R) := do
  let n := s.numStates
  let b := s.bellman none
  let x ← checkedIndicator target n
  Attempt.require ((List.range n).all (b.bestReady n))
  return {
    values := ((List.range n).map fun state => b.bestValue state x 0).toArray
    stats := .idle }

/-- The probabilities of reaching `right` through `left` within a number of steps. -/
def boundedUntil (s : Solver R) (left right : BitSet) (steps : Nat) :
    Attempt (CheckError R) (Computed R) := do
  let start ← checkedIndicator right s.numStates
  let values ← (s.bellman none).checkedBounded (left \ right) steps start
  return { values := values, stats := .steps "Bounded iteration" steps }

/-- The probabilities of reaching `right` through `left` within a number of steps, and the choices
that attain them for every state and every number of remaining steps. -/
def recordedUntil (s : Solver R) (left right : BitSet) (steps : Nat) :
    Attempt (CheckError R) (Computed R × List (List Nat)) := do
  let start ← checkedIndicator right s.numStates
  let (values, actions) ← (s.bellman none).recorded (left \ right) steps start
  return ({ values := values, stats := .steps "Bounded iteration" steps }, actions)

/-- The states that are known to have probability zero, and those known to have probability one. -/
def decided (s : Solver R) (left right : BitSet) :
    Attempt (CheckError R) (BitSet × BitSet) :=
  if s.options.precomputation then do
    let no ← s.table.checkedZeroSet s.directions left right
    let yes ← s.table.checkedOneSet s.directions left right
    return (no, yes.states)
  else return ((left ∪ right).complement s.numStates, right)

/-- The probabilities of reaching `right` through `left`. -/
def holdsUntil (s : Solver R) (left right : BitSet) : Attempt (CheckError R) (Computed R) := do
  let n := s.numStates
  let (no, yes) ← s.decided left right
  let unknown := (no ∪ yes).complement n
  let start ← checkedIndicator yes n
  let solution ← if unknown.isEmpty then pure ⟨start, .idle⟩
    else s.solve none unknown start none
  return {
    values := solution.values
    stats := { solution.stats with numNo := no.size, numYes := yes.size } }

/-- The expected rewards until `target` is reached.  They are infinite where the target can be
missed by a resolution that serves the objective, which is found on the graph. -/
def reachReward (s : Solver R) (rewards : StepRewards R) (target : BitSet) :
    Attempt (CheckError R) (Computed R) := do
  let n := s.numStates
  let against := s.directions.map (·.map Direction.flip)
  let sure ← s.table.checkedOneSet against (.full n) target
  let infinite := sure.states.complement n
  let unknown := sure.states \ target
  let start := ((List.range n).map fun state =>
    if infinite.contains state then Scalar.infinity else (0 : R)).toArray
  let solution ← if unknown.isEmpty then pure ⟨start, .idle⟩
    else s.solve (some rewards) unknown start (some sure.witness)
  return {
    values := solution.values
    stats := { solution.stats with numNo := infinite.size, numYes := target.size } }

/-- The expected rewards of a number of steps. -/
def cumulativeReward (s : Solver R) (rewards : StepRewards R) (steps : Nat) :
    Attempt (CheckError R) (Computed R) := do
  let n := s.numStates
  let start := Array.replicate n 0
  let values ← (s.bellman (some rewards)).checkedBounded (.full n) steps start
  return { values := values, stats := .steps "Bounded iteration" steps }

end Solver

end Markov
