import Markov.Bellman.Transient
import Markov.Checker
import Markov.Poisson

/-!
# Checkers for continuous time

Queries without a bound are answered on the jumps of a model alone.  Bounds in
time are met by uniformisation: all jumps happen at one rate, a little above
the largest exit rate, and their number up to the bound has Poisson weights.
-/

namespace Markov.Checker

variable {R : Type}

section Rewards

variable [Scalar R]

/-- The rates at which rewards are earned: those of the states, and those of the choices as often as
they are taken. -/
def rewardRates (rewards : RewardStructure R) (rates : Table R) : Array R :=
  rates.rows.mapIdx fun state row =>
    let jumps := match row with
      | [] => 0
      | branch :: _ => rewards.ofChoice state 0 * branch.total
    rewards.ofState state + jumps

/-- The expected rewards of a chain when jumps happen at the rate `q` and their number has the given
weights. -/
def uniformisedReward {ε : Type} (options : Options R) (rates : Table R)
    (rewards : RewardStructure R) (q : R) (weights : List R) : Attempt ε (Array R) :=
  let b : Bellman R :=
    ⟨rates.uniformised q, Array.replicate rates.numStates none, none, options⟩
  b.earnings q (rewardRates rewards rates) weights

end Rewards

variable [Analytic R]

/-- The rate at which jumps happen in uniformisation. -/
def jumpRate (rates : Table R) : R :=
  rates.maxExitRate * (Analytic.ofNat 102 / Analytic.ofNat 100)

/-- The probabilities of reaching `right` through `left` up to a point in time. -/
def timedUntil (options : Options R) (rates : Table R) (dirs : Array (Option Direction))
    (left right : BitSet) (time : R) : Attempt (CheckError R) (Computed R) := do
  let n := rates.numStates
  let q := jumpRate rates
  if q == 0 || time == 0 then
    let values ← checkedIndicator right n
    return { values := values, stats := .idle }
  else
    let weights := Poisson.weights (q * time) options.tolerance
    let b : Bellman R := ⟨rates.uniformised q, dirs, none, options⟩
    let values ← b.transient (left \ right) right weights
    return { values := values, stats := .steps "Uniformisation" weights.length }

/-- The expected rewards of a chain up to a point in time. -/
def timedReward (options : Options R) (rates : Table R) (rewards : RewardStructure R) (time : R) :
    Attempt (CheckError R) (Computed R) := do
  let q := jumpRate rates
  if q == 0 || time == 0 then
    return { values := (rewardRates rewards rates).map (· * time), stats := .idle }
  else
    let weights := Poisson.weights (q * time) options.tolerance
    let values ← uniformisedReward options rates rewards q weights
    return { values := values, stats := .steps "Uniformisation" weights.length }

/-- The solver of the jumps of a chain. -/
def jumpChainSolver (options : Options R) (rates : Table R) : Solver R :=
  ⟨rates.embedded, Array.replicate rates.numStates none, options⟩

/-- The checker of continuous-time chains. -/
def ctmc (options : Options R) : Checker R where
  kind := .ctmc
  options := options
  next m _ target := do
    let rates ← Table.read m
    (jumpChainSolver options rates).next target
  holdsUntil m _ left right bound := do
    let rates ← Table.read m
    match bound with
    | none => (jumpChainSolver options rates).holdsUntil left right
    | some time =>
      timedUntil options rates (Array.replicate rates.numStates none) left right time
  reachReward m _ rewards target := do
    let rates ← Table.read m
    (jumpChainSolver options rates).reachReward (.perJump rewards rates) target
  cumulativeReward m _ rewards time := do
    let rates ← Table.read m
    timedReward options rates rewards time

/-- The checker of continuous-time decision processes. -/
def ctmdp (options : Options R) : Checker R where
  kind := .ctmdp
  options := options
  next _ _ _ := Attempt.fail (.mismatch .ctmdp (.noProcedure "the next operator"))
  holdsUntil m objective left right bound := do
    let direction ← requireDirection .ctmdp objective
    let rates ← Table.read m
    let dirs := directions m (some direction)
    match bound with
    | none => (Solver.mk rates.embedded dirs options).holdsUntil left right
    | some time => timedUntil options rates dirs left right time
  reachReward m objective rewards target := do
    let direction ← requireDirection .ctmdp objective
    let rates ← Table.read m
    (Solver.mk rates.embedded (directions m (some direction)) options).reachReward
      (.perJump rewards rates) target
  cumulativeReward _ _ _ _ := Attempt.fail (.mismatch .ctmdp (.noProcedure "cumulative reward"))

end Markov.Checker
