import Markov.Bellman
import Markov.Stats

/-!
# Solving Bellman equations

Four methods look for values that a backup does not change any more.  Value
iteration repeats steps, Gauss-Seidel iteration replaces the values one after
the other, and policy iteration evaluates a fixed choice per state until no
other choice is better.  Each stops when the last differences are below the
tolerance of the options, and gives up after their number of iterations.
-/

namespace Markov

namespace Criterion

variable {R : Type} [Scalar R]

/-- The difference between the old and the new value of a state; none between equal values, which
may be infinite. -/
@[specialize]
def gap (criterion : Criterion) (old new : R) : R :=
  if old == new then 0
  else
    let difference := Scalar.magnitude (new - old)
    match criterion with
    | absolute => difference
    | relative => if new == 0 then difference else difference / Scalar.magnitude new

/-- The largest difference between two vectors. -/
@[specialize]
def distance (criterion : Criterion) (old new : Array R) : R :=
  (old.zip new).foldl (fun largest pair => Scalar.larger largest (criterion.gap pair.1 pair.2)) 0

end Criterion

/-- The report of a method that gave up. -/
structure NonConvergence (R : Type) where
  method : Method
  iterations : Nat
  lastDelta : R
  deriving Repr

/-- The outcome of repeated sweeps. -/
structure Run (α R : Type) where
  value : α
  sweeps : Nat
  lastDelta : R
  settled : Bool

/-- Repeats a sweep, which also tells the difference it made, until the difference is below the
tolerance. -/
@[specialize]
def Run.extend {α R : Type} [Scalar R] (sweep : α → α × R) (tolerance : R) :
    Nat → Run α R → Run α R
  | 0, run => run
  | fuel + 1, run =>
    let (value, delta) := sweep run.value
    if delta < tolerance then ⟨value, run.sweeps + 1, delta, true⟩
    else extend sweep tolerance fuel ⟨value, run.sweeps + 1, delta, false⟩

/-- Repeats a sweep for at most `limit` times. -/
@[specialize]
def Run.start {α R : Type} [Scalar R] (sweep : α → α × R) (tolerance : R) (limit : Nat) (value : α) :
    Run α R :=
  Run.extend sweep tolerance limit ⟨value, 0, Scalar.infinity, false⟩

/-- Values and how they were found. -/
structure Solution (R : Type) where
  values : Array R
  stats : Stats R

namespace Bellman

variable {R : Type} [Scalar R]

/-- The outcome of a method whose sweeps have ended with the given values. -/
def conclude {α : Type} (method : Method) (run : Run α R) (values : Array R) :
    Attempt (NonConvergence R) (Solution R) :=
  if run.settled then
    .ok ⟨values, { method := method.name, iterations := run.sweeps, lastDelta := run.lastDelta }⟩
  else Attempt.fail ⟨method, run.sweeps, run.lastDelta⟩

/-- A step with the difference it makes. -/
@[specialize]
def stepSweep (b : Bellman R) (states : List Nat) (buffers : Buffers R) : Buffers R × R :=
  let next := b.step states buffers
  (next, b.options.criterion.distance next.spare next.current)

def valueIteration (b : Bellman R) (unknown : BitSet) (x : Array R) :
    Attempt (NonConvergence R) (Solution R) := do
  Attempt.require (b.options.maxIterations = 0 || b.ready unknown x.size)
  let run := Run.start (b.stepSweep unknown.toList) b.options.tolerance b.options.maxIterations
    (Buffers.ofValues x)
  conclude .valueIteration run run.value.current

/-- Replaces the value of a state, and keeps the largest difference. -/
@[specialize]
def replace (b : Bellman R) (state : Nat) (value : R) (sweep : Array R × R) : Array R × R :=
  let old := sweep.1.getD state 0
  (sweep.1.setIfInBounds state value,
    Scalar.larger sweep.2 (b.options.criterion.gap old value))

/-- Replaces the values of states by their best values, each seeing the ones before it. -/
@[specialize]
def inPlaceSweep (b : Bellman R) (states : List Nat) (x : Array R) : Array R × R :=
  states.foldl (fun sweep state =>
    match b.best state sweep.1 with
    | some (value, _) => b.replace state value sweep
    | none => sweep) (x, 0)

def gaussSeidel (b : Bellman R) (unknown : BitSet) (x : Array R) :
    Attempt (NonConvergence R) (Solution R) := do
  Attempt.require (b.options.maxIterations = 0 || b.ready unknown x.size)
  let run := Run.start (b.inPlaceSweep unknown.toList) b.options.tolerance b.options.maxIterations x
  conclude .gaussSeidel run run.value

/-- Replaces the values of states by the values of the choices of a policy. -/
@[specialize]
def policySweep (b : Bellman R) (policy : Array Nat) (states : List Nat) (x : Array R) :
    Array R × R :=
  states.foldl (fun sweep state =>
    if (b.table.branches state).isEmpty then sweep
    else b.replace state (b.choiceValue state (policy.getD state 0) sweep.1) sweep) (x, 0)

/-- Whether the value of the choice of a policy refers only to what exists. -/
def policyReadyAt (b : Bellman R) (policy : Array Nat) (size state : Nat) : Bool :=
  match b.table.rows[state]?, policy[state]? with
  | none, _ => false
  | some [], _ => true
  | some _, none => false
  | some row, some choice =>
    state < size &&
      match row[choice]? with
      | some branch => b.branchReady size state choice branch
      | none => false

def policyReady (b : Bellman R) (policy : Array Nat) (unknown : BitSet) (size : Nat) : Bool :=
  unknown.toList.all (b.policyReadyAt policy size)

/-- Evaluates a policy for at most `limit` sweeps. -/
def evaluate (b : Bellman R) (policy : Array Nat) (unknown : BitSet) (limit : Nat) (x : Array R) :
    Attempt (NonConvergence R) (Run (Array R) R) := do
  Attempt.require (limit = 0 || b.policyReady policy unknown x.size)
  return Run.start (b.policySweep policy unknown.toList) b.options.tolerance limit x

/-- The values of a policy, as found by a method that starts with them. -/
def policyValues (b : Bellman R) (method : Method) (policy : Array Nat) (unknown : BitSet)
    (x : Array R) : Attempt (NonConvergence R) (Array R) := do
  let run ← b.evaluate policy unknown b.options.maxIterations x
  let solution ← conclude method run run.value
  return solution.values

/-- A policy after an attempt to improve it. -/
structure Improvement (R : Type) where
  policy : Array Nat
  changed : Bool
  lastDelta : R

/-- Takes the best choice of a state if it is better than that of the policy. -/
def improveAt (b : Bellman R) (x : Array R) (i : Improvement R) (state : Nat) : Improvement R :=
  match b.best state x, b.direction state with
  | some (value, choice), some direction =>
    let current := i.policy.getD state 0
    let lastDelta :=
      Scalar.larger i.lastDelta (b.options.criterion.gap (x.getD state 0) value)
    if choice ≠ current && direction.better value (b.choiceValue state current x) then
      ⟨i.policy.setIfInBounds state choice, true, lastDelta⟩
    else { i with lastDelta := lastDelta }
  | _, _ => i

def improve (b : Bellman R) (policy : Array Nat) (unknown : BitSet) (x : Array R) :
    Improvement R :=
  unknown.toList.foldl (b.improveAt x) ⟨policy, false, 0⟩

/-- Whether an improvement of a policy refers only to what exists. -/
def improveReady (b : Bellman R) (policy : Array Nat) (unknown : BitSet) (size : Nat) : Bool :=
  unknown.toList.all fun state =>
    b.bestReady size state && state < b.directions.size &&
      ((b.table.branches state).isEmpty || (b.direction state).isNone ||
        b.policyReadyAt policy size state)

/-- The policy that takes the best choices for given values. -/
def greedy (b : Bellman R) (x : Array R) : Array Nat := b.decisions (List.range b.numStates) x

/-- Evaluates and improves a policy in turns.  With a number of `sweeps` every evaluation is cut
off there, and the values have to settle as well as the policy. -/
def improveUntilStable (b : Bellman R) (unknown : BitSet) (sweeps : Option Nat) (method : Method) :
    Nat → Array Nat → Array R → Nat → R → Attempt (NonConvergence R) (Solution R)
  | 0, _, _, iterations, lastDelta => Attempt.fail ⟨method, iterations, lastDelta⟩
  | rounds + 1, policy, x, iterations, _ => do
    let run ← b.evaluate policy unknown (sweeps.getD b.options.maxIterations) x
    if sweeps.isNone && !run.settled then
      Attempt.fail ⟨method, run.sweeps, run.lastDelta⟩
    else
      Attempt.require (b.improveReady policy unknown x.size)
      let iterations := iterations + run.sweeps
      let improvement := b.improve policy unknown run.value
      if !improvement.changed &&
          (sweeps.isNone || improvement.lastDelta < b.options.tolerance) then
        return {
          values := run.value
          stats := {
            method := method.name
            iterations := iterations
            lastDelta := improvement.lastDelta } }
      else
        b.improveUntilStable unknown sweeps method rounds improvement.policy run.value iterations
          improvement.lastDelta

def policyIteration (b : Bellman R) (unknown : BitSet) (x : Array R) (seed : Option (Array Nat))
    (sweeps : Option Nat) (method : Method) : Attempt (NonConvergence R) (Solution R) := do
  let policy ← match seed with
    | some policy => pure policy
    | none => do
      Attempt.require ((List.range b.numStates).all (b.bestReady x.size))
      pure (b.greedy x)
  b.improveUntilStable unknown sweeps method b.options.maxIterations policy x 0 Scalar.infinity

/-- The values to start an iteration from: those of a policy, if one is given. -/
def seeded (b : Bellman R) (method : Method) (seed : Option (Array Nat)) (unknown : BitSet)
    (x : Array R) : Attempt (NonConvergence R) (Array R) :=
  match seed with
  | some policy => b.policyValues method policy unknown x
  | none => return x

/-- Solves the equations of the states of `unknown`, starting from `x`.  The other states keep their
values.  A policy to start with must reach a state outside `unknown` almost surely. -/
def solve (b : Bellman R) (unknown : BitSet) (x : Array R) (seed : Option (Array Nat)) :
    Attempt (NonConvergence R) (Solution R) :=
  match b.options.method with
  | .valueIteration => do
    let start ← b.seeded .valueIteration seed unknown x
    b.valueIteration unknown start
  | .gaussSeidel => do
    let start ← b.seeded .gaussSeidel seed unknown x
    b.gaussSeidel unknown start
  | .policyIteration => b.policyIteration unknown x seed none .policyIteration
  | .modifiedPolicyIteration =>
    b.policyIteration unknown x seed (some b.options.sweeps) .modifiedPolicyIteration

end Bellman

end Markov
