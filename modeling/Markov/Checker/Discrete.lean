import Markov.Checker

/-!
# Checkers for discrete time

Chains have nothing to optimise, and their checker ignores the objective.
Decision processes are optimised in the direction of the objective, and games
by each player in a direction of their own.
-/

namespace Markov.Checker

variable {R : Type} [Scalar R]

/-- The solver of a table whose states take their first choice. -/
def chainSolver (options : Options R) (table : Table R) : Solver R :=
  ⟨table, Array.replicate table.numStates none, options⟩

/-- The solver of the table of a model with an objective. -/
def objectiveSolver (options : Options R) (m : Model R) (table : Table R) (objective : Direction) :
    Solver R :=
  ⟨table, directions m (some objective), options⟩

/-- The checker of discrete-time chains. -/
def dtmc (options : Options R) : Checker R where
  kind := .dtmc
  options := options
  next m _ target := do
    let table ← Table.read m
    (chainSolver options table).next target
  holdsUntil m _ left right bound := do
    let table ← Table.read m
    let solver := chainSolver options table
    match bound with
    | some bound =>
      let steps ← stepBound .dtmc bound
      solver.boundedUntil left right steps
    | none => solver.holdsUntil left right
  reachReward m _ rewards target := do
    let table ← Table.read m
    (chainSolver options table).reachReward (.perStep rewards table) target
  cumulativeReward m _ rewards bound := do
    let steps ← stepBound .dtmc bound
    let table ← Table.read m
    (chainSolver options table).cumulativeReward (.perStep rewards table) steps

/-- Values of a bounded query together with the strategy that takes the given choices. -/
def withStrategy (computed : Computed R) (actions : List (List Nat)) (steps : Nat) :
    Attempt (CheckError R) (Computed R) :=
  match CountdownStrategy.ofActions actions steps with
  | .error error => Attempt.fail (.invalidModel (.strategy error))
  | .ok strategy =>
    let info := s!"Optimal strategy for {steps} steps"
    return { computed with strategy := some { strategy with info := info } }

/-- The checker of decision processes. -/
def mdp (options : Options R) : Checker R where
  kind := .mdp
  options := options
  next m objective target := do
    let direction ← requireDirection .mdp objective
    let table ← Table.read m
    (objectiveSolver options m table direction).next target
  holdsUntil m objective left right bound := do
    let direction ← requireDirection .mdp objective
    let table ← Table.read m
    let solver := objectiveSolver options m table direction
    match bound with
    | none => solver.holdsUntil left right
    | some bound =>
      let steps ← stepBound .mdp bound
      if options.generateStrategy && 0 < steps then
        let (computed, actions) ← solver.recordedUntil left right steps
        withStrategy computed actions steps
      else solver.boundedUntil left right steps
  reachReward m objective rewards target := do
    let direction ← requireDirection .mdp objective
    let table ← Table.read m
    (objectiveSolver options m table direction).reachReward (.perStep rewards table) target
  cumulativeReward m objective rewards bound := do
    let steps ← stepBound .mdp bound
    let direction ← requireDirection .mdp objective
    let table ← Table.read m
    (objectiveSolver options m table direction).cumulativeReward (.perStep rewards table) steps

/-- The checker of games. -/
def stpg (options : Options R) : Checker R where
  kind := .stpg
  options := options
  next m objective target := do
    let direction ← requireDirection .stpg objective
    let table ← Table.read m
    (objectiveSolver options m table direction).next target
  holdsUntil m objective left right bound := do
    let steps ← bound.mapM (stepBound .stpg)
    let direction ← requireDirection .stpg objective
    let table ← Table.read m
    let solver := objectiveSolver options m table direction
    match steps with
    | some steps => solver.boundedUntil left right steps
    | none => solver.holdsUntil left right
  reachReward m objective rewards target := do
    let direction ← requireDirection .stpg objective
    let table ← Table.read m
    (objectiveSolver options m table direction).reachReward (.perStep rewards table) target
  cumulativeReward m objective rewards bound := do
    let steps ← stepBound .stpg bound
    let direction ← requireDirection .stpg objective
    let table ← Table.read m
    (objectiveSolver options m table direction).cumulativeReward (.perStep rewards table) steps

end Markov.Checker
