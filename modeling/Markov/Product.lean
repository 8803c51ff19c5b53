import Markov.Model.Build
import Markov.Strategy.Countdown

/-!
# Products

The product of a strategy with a decision process has one copy of the process
for every level `j` of memory, from the bound down to one.  The copy of level
`j` is block `bound - j`, so state `i` with `j` remaining steps is the product
state `(bound - j) * n + i`.  In each copy only the choice that the strategy
takes is left; it leads to the copy one level down, and from level one back to
level one, since no decision is left then.
-/

namespace Markov.Product

variable {σ R : Type} [Scalar R] [Strategy σ R]

/-- The block of the states that are reached from a level. -/
def nextBlock (bound level : Nat) : Nat := bound - max (level - 1) 1

/-- The choice that a strategy takes in a state, with the number of its choices. -/
def resolveMove (s : σ) (m : Model R) (state : Nat) :
    Attempt (StrategyError R) (Nat × Distribution R) := do
  let move ← Strategy.nextMove s state
  match move.support with
  | [action] =>
    match ← m.findChoice state action with
    | some choice => return (action, choice)
    | none =>
      Attempt.fail (.unsupportedProduct (.noChoice state (m.numChoices state) action))
  | _ => Attempt.fail (.undecided move)

/-- The choice that is left of a state at a level, with its successors in their block. -/
def resolveState (s : σ) (m : Model R) (bound level state : Nat) :
    Attempt (StrategyError R) (Nat × Distribution R) := do
  let (action, choice) ← Attempt.mapCause (.product state level) (resolveMove s m state)
  let offset := nextBlock bound level * m.numStates
  Attempt.require (choice.support.all fun target => Word.isIndex (offset + target))
  let moved ← choice.checkedMap (offset + ·)
  return (action, moved)

/-- The choices that are left of all states at a level. -/
def resolveLevel (s : σ) (m : Model R) (bound level : Nat) :
    Attempt (StrategyError R) (List (Nat × Distribution R)) :=
  (List.range m.numStates).mapM (resolveState s m bound level)

/-- The choices that are left at all levels, from `level` down to one. -/
def resolveLevels (m : Model R) (bound : Nat) :
    Nat → σ → Attempt (StrategyError R) (List (Nat × Distribution R)) × σ
  | 0, s => (.ok [], s)
  | level + 1, s =>
    match Strategy.setMemory (R := R) s (.counter (level + 1 : Nat)) with
    | (.error cause, s) => (Attempt.fail (.product 0 (level + 1) cause), s)
    | (.ok (), s) =>
      match resolveLevel s m bound (level + 1) with
      | .error failure => (.error failure, s)
      | .ok resolved =>
        let (rest, s) := resolveLevels m bound level s
        (rest.map (resolved ++ ·), s)

/-- Every copy of a set of states. -/
def liftSet (n bound : Nat) (states : BitSet) : BitSet :=
  .ofList ((List.range bound).flatMap fun block => states.toList.map (block * n + ·))

/-- The rewards of the copies. -/
def liftRewards (n : Nat) (actions : List Nat) (r : RewardStructure R) : RewardStructure R :=
  { name := r.name
    states := (actions.mapIdx fun state _ => r.ofState (state % n)).toArray
    choices := r.choices.map fun _ =>
      (actions.mapIdx fun state action => #[r.ofChoice (state % n) action]).toArray }

/-- The valuation of a copy, in which the remaining steps are one more variable. -/
def liftValuation (m : Model R) (bound block state : Nat) : Valuation :=
  let steps := Valuation.ofInts [(bound - block : Nat)]
  match m.valuations with
  | some valuations => valuations.getD state default ++ steps
  | none => Valuation.ofInts [state] ++ steps

/-- The product with the given choices. -/
def assemble (m blank : Model R) (bound : Nat) (resolved : List (Nat × Distribution R)) :
    Model R :=
  let n := m.numStates
  let actions := resolved.map Prod.fst
  { blank with
    layout := blank.layout.withRows (resolved.map fun entry => [entry.2]).toArray
    initial := m.initial
    labels := m.labels.mapSets (liftSet n bound)
    rewards := m.rewards.map (liftRewards n actions)
    valuations := some ((List.range bound).flatMap fun block =>
      (List.range n).map (liftValuation m bound block)) }

/-- What has to hold before any move is looked at; gives the model to fill. -/
def prepare (s : σ) (m : Model R) : Attempt (StrategyError R) (Model R) := do
  let n := m.numStates
  let bound := Strategy.memorySize R s
  let reject {α : Type} (defect : ProductDefect) : Attempt (StrategyError R) α :=
    Attempt.fail (.unsupportedProduct defect)
  if !Strategy.supportsProduct R s then
    reject (.strategyType (Strategy.typeName R s))
  if m.kind ≠ .mdp then
    reject (.modelKind m.kind)
  if bound = 0 || n = 0 then
    reject (.noStates n bound)
  if let some valuations := m.valuations then
    if valuations.length ≠ n then
      reject (.valuations n valuations.length)
  Attempt.require (Word.isIndex (n * bound))
  match m.blank? 0 with
  | none => reject .lockedLayout
  | some blank =>
    Attempt.require (n * bound ≤ Word.maxRows)
    return blank

/-- Puts back the memory that a strategy had, if it had one. -/
def restore (saved : Except (StrategyError R) Memory) (s : σ) :
    Except (StrategyError R) Unit × σ :=
  match saved with
  | .ok memory => Strategy.setMemory s memory
  | .error _ => (.ok (), s)

/-- The product of a strategy with a decision process.  The memory of the strategy is set level by
level, and put back at the end if the strategy was active. -/
def build (s : σ) (m : Model R) : Attempt (StrategyError R) (Model R) × σ :=
  match prepare s m with
  | .error failure => (.error failure, s)
  | .ok blank =>
    let bound := Strategy.memorySize R s
    let saved : Except (StrategyError R) Memory := Strategy.memory s
    match resolveLevels m bound bound s with
    | (.error .breach, s) => (Attempt.breach, s)
    | (resolved, s) =>
      match restore saved s with
      | (.error cause, s) => (Attempt.fail cause, s)
      | (.ok (), s) => (resolved.map (assemble m blank bound), s)

/-- The answer of a strategy that has no products. -/
def decline (s : σ) : Attempt (StrategyError R) (Model R) :=
  Attempt.fail (.unsupportedProduct (.strategyType (Strategy.typeName R s)))

end Markov.Product

/-- The product of a countdown strategy with a decision process.  The memory of the strategy is the
same afterwards, also if it was not active, unless the contract was broken on the way. -/
def Markov.CountdownStrategy.product {R : Type} [Scalar R] (s : CountdownStrategy) (m : Model R) :
    Attempt (StrategyError R) (Model R) × CountdownStrategy :=
  match Product.build s m with
  | (.error .breach, changed) => (Attempt.breach, changed)
  | (result, changed) => (result, { changed with memory := s.memory })
