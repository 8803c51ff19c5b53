import Markov.Strategy
import Markov.Word

/-!
# Countdown strategies

The memory of a countdown strategy is the number of steps that remain until a
bound.  It starts at the bound, goes down by one with every step and stays at
zero.  A decision table holds rules for every state, each a pivot and an
action, with pivots that never increase along a row.  With `m` steps remaining
the rule with the smallest pivot from `m` on applies.  Among rules with the
same pivot the first one applies when exactly that many steps remain, and the
last one when fewer do.
-/

namespace Markov

/-- An action to take while at most `pivot` steps remain. -/
structure Rule where
  pivot : Nat
  action : Nat
  deriving Repr, DecidableEq

/-- A deterministic strategy whose memory counts down from a bound. -/
structure CountdownStrategy where
  table : List (List Rule)
  bound : Nat
  /-- The number of steps that remain, once the strategy is active. -/
  memory : Option Nat
  /-- The number of integers of the table that the strategy was made from. -/
  tableSize : Nat
  info : String
  deriving Repr, DecidableEq

namespace CountdownStrategy

/-- The rules of a row, whose pivots are cut off at the bound.  The first pivot must reach the
bound, and no pivot may be larger than the one before it. -/
def rules (bound : Nat) : Bool → Nat → List Int → Except TableDefect (List Rule)
  | isFirst, previous, pivot :: action :: rest =>
    let cut := min pivot.toNat bound
    if isFirst && pivot.toNat < bound then throw (.lowPivot pivot.toNat bound)
    else if previous < cut then throw (.increase cut previous)
    else do
      let more ← rules bound false cut rest
      return ⟨cut, action.toNat⟩ :: more
  | _, _, _ => return []

/-- The rules of a row of alternating pivots and actions. -/
def readRow (bound : Nat) (row : List Int) : Except TableDefect (List Rule) :=
  if row.isEmpty then throw .noPairs
  else if row.length % 2 ≠ 0 then throw (.oddLength row.length)
  else match row.find? (· < 0) with
    | some value => throw (.negative value)
    | none => rules bound true bound row

/-- The rules of all rows, or the first row that is rejected. -/
def readRows (bound : Nat) : Nat → List (List Int) → Except TableError (List (List Rule))
  | _, [] => return []
  | state, row :: rest =>
    match readRow bound row with
    | .error defect => throw ⟨state, defect⟩
    | .ok rules => do
      let more ← readRows bound (state + 1) rest
      return rules :: more

/-- The strategy of a table with one row of alternating pivots and actions for every state. -/
def ofTable (rows : List (List Int)) (bound : Int) : Except TableError CountdownStrategy :=
  if bound < 0 then throw ⟨0, .negativeBound bound⟩
  else do
    let table ← readRows bound.toNat 0 rows
    return {
      table := table
      bound := bound.toNat
      memory := none
      tableSize := (rows.map List.length).foldr (· + ·) 0
      info := "No information available" }

/-- Merges runs of equal actions.  The list holds the actions for fewer and fewer remaining steps,
down to one, and `action` is taken from `pivot` steps down to the first of them. -/
def compress (pivot action : Nat) : List Nat → List Rule
  | [] => [⟨pivot, action⟩]
  | next :: rest =>
    if next = action then compress pivot action rest
    else ⟨pivot, action⟩ :: compress (rest.length + 1) next rest

/-- The rules for the actions of one state, given from one remaining step up to the bound. -/
def compressRow (actions : List Nat) : List Rule :=
  match actions.reverse with
  | [] => []
  | last :: rest => compress (rest.length + 1) last rest

/-- A rule as a table holds it. -/
def Rule.toInts (rule : Rule) : List Int := [Word.toInteger rule.pivot, Word.toInteger rule.action]

/-- The first state whose number of actions is not the bound, or not positive. -/
def badCount? (bound : Nat) (actions : List (List Nat)) : Option (Nat × List Nat) :=
  (actions.zipIdx.find? fun entry => entry.1.length ≠ bound || bound = 0).map fun entry =>
    (entry.2, entry.1)

/-- The strategy that takes the `m`-th action of a state when `m` steps remain. -/
def ofActions (actions : List (List Nat)) (bound : Nat) : Except TableError CountdownStrategy :=
  match badCount? bound actions with
  | some (state, row) => throw ⟨state, .actionCount bound row.length⟩
  | none =>
    let rows := actions.map fun row => (compressRow row).flatMap Rule.toInts
    ofTable rows (Word.toInteger bound)

/-- The action of a row of rules when `memory` steps remain. -/
def decode (row : List Rule) (memory : Nat) : Option Nat :=
  match (row.takeWhile (memory ≤ ·.pivot)).getLast? with
  | none => row.head?.map Rule.action
  | some last =>
    if last.pivot = memory then (row.find? (·.pivot = memory)).map Rule.action
    else some last.action

variable {R : Type}

def undefined (s : CountdownStrategy) (state : Nat) : StrategyError R :=
  .undefinedState state s.table.length

/-- The action of a state when `memory` steps remain. -/
def actionAt (s : CountdownStrategy) (state memory : Nat) : Attempt (StrategyError R) Nat :=
  match s.table[state]? with
  | none => Attempt.fail (s.undefined state)
  | some row => Attempt.entry (decode row memory)

theorem actionAt_of_row {s : CountdownStrategy} {state : Nat} {row : List Rule}
    (listed : s.table[state]? = some row) (memory : Nat) :
    s.actionAt (R := R) state memory = Attempt.entry (decode row memory) := by
  rw [actionAt, listed]

/-- Makes the strategy active, with all steps remaining. -/
def start (s : CountdownStrategy) : CountdownStrategy := { s with memory := some s.bound }

/-- The number of remaining steps of an active strategy. -/
def remaining (s : CountdownStrategy) : Except (StrategyError R) Nat :=
  match s.memory with
  | some memory => .ok memory
  | none => .error (.invalidState "the strategy has not been initialised")

/-- Counts one step. -/
def advance (s : CountdownStrategy) : Except (StrategyError R) CountdownStrategy := do
  let memory ← s.remaining
  return { s with memory := some (memory - 1) }

def currentMemory (s : CountdownStrategy) : Except (StrategyError R) Memory := do
  let memory ← s.remaining
  return .counter memory

/-- Sets the number of remaining steps. -/
def setMemory (s : CountdownStrategy) : Memory → Except (StrategyError R) CountdownStrategy
  | .counter value =>
    if 0 ≤ value && value ≤ s.bound then return { s with memory := some value.toNat }
    else throw (.invalidMemory s!"memory {value} is outside 0..={s.bound}")
  | other =>
    throw (.invalidMemory
      ("memory has to be an integer for this strategy, got " ++ other.render))

def nextMove [Scalar R] (s : CountdownStrategy) (state : Nat) :
    Attempt (StrategyError R) (Distribution R) := do
  let memory ← Attempt.lift s.remaining
  let action ← s.actionAt state memory
  return Distribution.point action

def typeName : String := "Finite memory strategy"

instance [Scalar R] : Strategy CountdownStrategy R where
  typeName _ := typeName
  supportsProduct _ := true
  memorySize s := s.bound
  memory := currentMemory
  setMemory s memory :=
    match s.setMemory memory with
    | .ok changed => (.ok (), changed)
    | .error cause => (.error cause, s)
  nextMove := nextMove

/-- The lines that explain an exported table. -/
def legend : List String :=
  ["// Strategy for step-bounded properties",
   "// format: stateId, b1, c1, b2, c2,..., bn, cn",
   "// (b1>b2>...>bn)",
   "// where: ci (1<=i<n) is the choice taken when the number of steps remaining before the bound " ++
    "is exceeded is >=bi and <bi+1",
   "// cn is the choice taken after bn or less steps remain until bound is exceeded.",
   "Strategy:"]

/-- The line of a state in an exported table. -/
def exportRow (state : Nat) (row : List Rule) : String :=
  ", ".intercalate
    (toString state :: row.flatMap fun rule => [toString rule.pivot, toString rule.action])

/-- The decision table as text. -/
def exported (s : CountdownStrategy) : String :=
  let rows := s.table.zipIdx.map fun entry => exportRow entry.2 entry.1
  String.join ((legend ++ rows).map (· ++ "\n"))

/-- What the strategy is and where it stands. -/
def description (s : CountdownStrategy) : String :=
  let memory := match s.memory with
    | some memory => toString memory
    | none => "uninitialised"
  s!"Finite memory deterministic strategy\nSize of memory: {s.bound}\n" ++
    s!"Size of next move function: {s.tableSize}\nMemory state: " ++ memory

end CountdownStrategy

end Markov
