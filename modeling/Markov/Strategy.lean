import Markov.Strategy.Error

/-!
# Strategies

A strategy resolves the choices of a decision process.  It looks at the current
state and carries a memory, which can be read and set from outside.
-/

namespace Markov

/-- The memory of a strategy. -/
inductive Memory where
  | none
  | counter (value : Int)
  | counters (values : List Int)
  deriving Repr, DecidableEq

def Memory.render : Memory → String
  | none => "-"
  | counter value => toString value
  | counters values => "(" ++ ",".intercalate (values.map toString) ++ ")"

/-- What every strategy offers. -/
class Strategy (σ : Type) (R : Type) where
  typeName : σ → String
  /-- Whether the strategy has products with decision processes. -/
  supportsProduct : σ → Bool
  /-- The number of levels of memory that a product distinguishes. -/
  memorySize : σ → Nat
  memory : σ → Except (StrategyError R) Memory
  /-- Sets the memory; a strategy may change even if it refuses the new memory. -/
  setMemory : σ → Memory → Except (StrategyError R) Unit × σ
  /-- The distribution over the choices of a state for the current memory. -/
  nextMove : σ → Nat → Attempt (StrategyError R) (Distribution R)

end Markov
