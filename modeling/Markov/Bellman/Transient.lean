import Markov.Bellman

/-!
# Transient values

In continuous time the number of jumps up to a point in time is random.  Given
the probabilities of these numbers, the probability of reaching a target in
time, and the reward that is earned in time, are found by backups on a
uniformised table.
-/

namespace Markov.Bellman

variable {R : Type} [Scalar R]

/-- Writes one value for all of the given states into a vector. -/
@[specialize]
def write (states : List Nat) (value : R) (room : Array R) : Array R :=
  states.foldl (fun room state => room.setIfInBounds state value) room

/-- One step back in time: targets get the probability `tail` that this jump happens. -/
@[specialize]
def jumpBack (b : Bellman R) (unknown target : List Nat) (tail : R) (buffers : Buffers R) :
    Buffers R :=
  ⟨b.writeBest buffers.current unknown (write target tail buffers.spare), buffers.current⟩

/-- Steps back in time, one for each of the given probabilities of a number of jumps.  `tail` is the
probability of the numbers of jumps so far. -/
@[specialize]
def jumpsBack (b : Bellman R) (unknown target : List Nat) : R → Buffers R → List R → Buffers R
  | _, buffers, [] => buffers
  | tail, buffers, weight :: rest =>
    let tail := tail + weight
    b.jumpsBack unknown target tail (b.jumpBack unknown target tail buffers) rest

/-- The probabilities of reaching `target` through `unknown` within a random number of jumps.  The
probabilities of the numbers are given from the largest number down. -/
def reachWithin (b : Bellman R) (unknown target : List Nat) : List R → Array R
  | [] => #[]
  | last :: earlier =>
    let tail := 0 + last
    let start := write target tail (Array.replicate b.numStates 0)
    (b.jumpsBack unknown target tail (.ofValues start) earlier).current

/-- The probabilities of reaching `target` through `unknown` when the number of jumps has the given
weights. -/
def transient {ε : Type} (b : Bellman R) (unknown target : BitSet) (weights : List R) :
    Attempt ε (Array R) := do
  Attempt.require (!weights.isEmpty)
  Attempt.require (target.isBelow b.numStates)
  Attempt.require (weights.length = 1 || b.ready unknown b.numStates)
  return b.reachWithin unknown.toList target.toList weights.reverse

/-- The values of all states one jump earlier. -/
@[specialize]
def advance (b : Bellman R) (x : Array R) : Array R :=
  x.mapIdx fun state old => b.bestValue state x old

/-- Adds up the rewards of all jumps.  `seen` is the weight of the numbers of jumps so far, `earned`
the reward so far and `x` the reward rates after these jumps. -/
@[specialize]
def accumulate (b : Bellman R) (q : R) : R → Array R → Array R → List R → Array R
  | _, earned, _, [] => earned
  | seen, earned, x, weight :: rest =>
    let seen := seen + weight
    let factor := Scalar.larger (1 - seen) 0 / q
    let earned := earned.zipWith (fun old rate => old + factor * rate) x
    if rest.isEmpty then earned else b.accumulate q seen earned (b.advance x) rest

/-- The reward that is earned at the given rates when jumps happen at the rate `q` and their number
has the given weights. -/
def earnings {ε : Type} (b : Bellman R) (q : R) (rates : Array R) (weights : List R) :
    Attempt ε (Array R) := do
  Attempt.require (weights.length ≤ 1 ||
    (List.range b.numStates).all (b.bestReady b.numStates))
  return b.accumulate q 0 (Array.replicate b.numStates 0) rates weights

end Markov.Bellman
