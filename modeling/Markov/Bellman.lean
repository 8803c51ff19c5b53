import Markov.Settings
import Markov.Table

/-!
# Bellman equations

The value of a state is the best value of its choices: the reward of a choice
plus the weighted sum of the values of its successors.  `backup` replaces the
values of a set of states by the best values that the old ones give.

Solvers keep two vectors that take turns.  A step writes the best values of the
states of a set into the spare vector, which then becomes the current one.
Entries that a step does not write are the same in both vectors, so the current
vector goes through repeated backups (`bounded`).

A state is ready for a step when everything that its choices refer to exists.
Functions here take missing entries as zero; what uses them asks for readiness
first.
-/

namespace Markov

/-- A table with directions and rewards, and the options of its solution. -/
structure Bellman (R : Type) where
  table : Table R
  directions : Array (Option Direction)
  rewards : Option (StepRewards R)
  options : Options R

/-- Two vectors that take turns: the values so far, and room for the next ones. -/
structure Buffers (R : Type) where
  current : Array R
  spare : Array R

/-- The vectors before the first step. -/
def Buffers.ofValues {R : Type} (x : Array R) : Buffers R := ⟨x, x⟩

namespace Bellman

variable {R : Type} [Scalar R]

def numStates (b : Bellman R) : Nat := b.table.numStates

def direction (b : Bellman R) (state : Nat) : Option Direction := b.directions.getD state none

/-- The reward of a choice, zero without rewards. -/
def reward (b : Bellman R) (state choice : Nat) : R :=
  match b.rewards with
  | some rows => (rows.getD state []).getD choice 0
  | none => 0

/-- The value of a choice with the given successors. -/
@[specialize]
def branchValue (b : Bellman R) (state choice : Nat) (branch : Branch R) (x : Array R) : R :=
  b.reward state choice + branch.dot x

/-- The value of a choice. -/
@[specialize]
def choiceValue (b : Bellman R) (state choice : Nat) (x : Array R) : R :=
  b.branchValue state choice ((b.table.branches state).getD choice []) x

/-- Improves on a value and its choice with the choices from `index` on. -/
@[specialize]
def scan (b : Bellman R) (direction : Direction) (state : Nat) (x : Array R) :
    Nat → R × Nat → List (Branch R) → R × Nat
  | _, best, [] => best
  | index, best, branch :: rest =>
    let value := b.branchValue state index branch x
    b.scan direction state x (index + 1)
      (if direction.better value best.1 then (value, index) else best) rest

/-- The best value of the choices of a state and the first choice that has it.  A state without
direction takes its first choice. -/
@[specialize]
def best (b : Bellman R) (state : Nat) (x : Array R) : Option (R × Nat) :=
  match b.table.branches state with
  | [] => none
  | branch :: rest =>
    let first := (b.branchValue state 0 branch x, 0)
    match b.direction state with
    | none => some first
    | some direction => some (b.scan direction state x 1 first rest)

/-- The best value of a state, or its old one if it has no choices. -/
@[specialize]
def bestValue (b : Bellman R) (state : Nat) (x : Array R) (old : R) : R :=
  match b.best state x with
  | some (value, _) => value
  | none => old

/-- One backup of the states of `unknown`. -/
@[specialize]
def backup (b : Bellman R) (unknown : BitSet) (x : Array R) : Array R :=
  x.mapIdx fun state old => if unknown.contains state then b.bestValue state x old else old

/-- Writes the best values of states, as `x` gives them, into a vector. -/
@[specialize]
def writeBest (b : Bellman R) (x : Array R) (states : List Nat) (room : Array R) : Array R :=
  states.foldl (fun room state =>
    match b.best state x with
    | some (value, _) => room.setIfInBounds state value
    | none => room) room

/-- One step of the given states. -/
@[specialize]
def step (b : Bellman R) (states : List Nat) (buffers : Buffers R) : Buffers R :=
  ⟨b.writeBest buffers.current states buffers.spare, buffers.current⟩

/-- A number of steps. -/
@[specialize]
def steps (b : Bellman R) (states : List Nat) : Nat → Buffers R → Buffers R
  | 0, buffers => buffers
  | count + 1, buffers => b.steps states count (b.step states buffers)

/-- The values after a number of steps of the states of `unknown`. -/
def bounded (b : Bellman R) (unknown : BitSet) (count : Nat) (x : Array R) : Array R :=
  (b.steps unknown.toList count (.ofValues x)).current

/-- The choices that have the best values of states, zero for all other states. -/
def decisions (b : Bellman R) (states : List Nat) (x : Array R) : Array Nat :=
  states.foldl (fun choices state =>
    match b.best state x with
    | some (_, choice) => choices.setIfInBounds state choice
    | none => choices) (Array.replicate b.numStates 0)

/-- The choices of each of a number of steps, the first one first. -/
def trace (b : Bellman R) (states : List Nat) : Nat → Buffers R → List (Array Nat)
  | 0, _ => []
  | count + 1, buffers =>
    b.decisions states buffers.current :: b.trace states count (b.step states buffers)

/-- For every state the choices of a number of steps.  The `m`-th one is the choice to take when
`m` steps remain. -/
def actions (b : Bellman R) (unknown : BitSet) (count : Nat) (x : Array R) : List (List Nat) :=
  let trace := b.trace unknown.toList count (.ofValues x)
  (List.range b.numStates).map fun state => trace.map (·.getD state 0)

/-- Whether a choice with the given successors refers only to rewards and values that exist. -/
def branchReady (b : Bellman R) (size state choice : Nat) (branch : Branch R) : Bool :=
  (match b.rewards with
    | some rows => choice < (rows.getD state []).length
    | none => true) && branch.isBelow size

/-- Whether the best value of a state refers only to what exists, among `size` values. -/
def bestReady (b : Bellman R) (size state : Nat) : Bool :=
  match b.table.rows[state]? with
  | none => false
  | some [] => true
  | some (branch :: rest) =>
    state < b.directions.size && b.branchReady size state 0 branch &&
      ((b.direction state).isNone ||
        rest.zipIdx.all fun entry => b.branchReady size state (entry.2 + 1) entry.1)

/-- Whether a step of a state refers only to what exists, among `size` values. -/
def stepReady (b : Bellman R) (size state : Nat) : Bool :=
  b.bestReady size state && ((b.table.branches state).isEmpty || state < size)

/-- Whether a step of all states of a set refers only to what exists. -/
def ready (b : Bellman R) (unknown : BitSet) (size : Nat) : Bool :=
  unknown.toList.all (b.stepReady size)

/-- The best value of a state and its choice, where everything it refers to exists. -/
def checkedBest {ε : Type} (b : Bellman R) (state : Nat) (x : Array R) :
    Attempt ε (Option (R × Nat)) := do
  Attempt.require (b.bestReady x.size state)
  return b.best state x

/-- The values after a number of steps, where everything they refer to exists. -/
def checkedBounded {ε : Type} (b : Bellman R) (unknown : BitSet) (count : Nat) (x : Array R) :
    Attempt ε (Array R) := do
  Attempt.require (count = 0 || b.ready unknown x.size)
  return b.bounded unknown count x

/-- The values after a number of steps and the choices of these steps, if the choices can be laid
out. -/
def recorded {ε : Type} (b : Bellman R) (unknown : BitSet) (count : Nat) (x : Array R) :
    Attempt ε (Array R × List (List Nat)) := do
  Attempt.require (count ≤ Word.maxWords)
  let values ← b.checkedBounded unknown count x
  return (values, b.actions unknown count x)

end Bellman

end Markov
