import Markov.Proofs.BoundedUntil
import Markov.Proofs.Exact
import Markov.Proofs.Unrolling

/-!
# Products simulate driven processes

A strategy drives a process: in every step it is asked for a move, and then it
counts the step.  `Payoff.drive` says what a number of such steps is worth, and
`CountdownStrategy.worth` says the same by means of the decision table.  The
product of the strategy with the process gives the same values without a
strategy: those of a state with some remaining steps stand at its copy.  This
holds for any arithmetic, since the same operations are done on the same
numbers.
-/

namespace Markov

variable {R : Type} [Scalar R]

/-- What the steps of a process add up to: some states are settled, and in the
others a choice brings a gain. -/
structure Payoff (R : Type) where
  settled : Nat → Option R
  gain : Nat → Nat → R

namespace Payoff

/-- One on `right`, and zero where `left` is left without reaching it. -/
def reaching (left right : BitSet) : Payoff R where
  settled state :=
    if right.contains state then some 1
    else if left.contains state then none
    else some 0
  gain _ _ := 0

/-- The rewards of states and choices. -/
def earning (r : RewardStructure R) : Payoff R where
  settled _ := none
  gain state choice := r.ofState state + r.ofChoice state choice

/-- The values of `n` states before any step. -/
def start (p : Payoff R) (n : Nat) : Array R :=
  ((List.range n).map fun state => (p.settled state).getD 0).toArray

/-- The values of `n` states one step before they are `x`. -/
def back (p : Payoff R) (n : Nat)
    (taken? : Nat → Option (Nat × Distribution R)) (x : Array R) : Array R :=
  ((List.range n).map fun state =>
    match p.settled state, taken? state with
    | some value, _ => value
    | none, some (action, choice) =>
      p.gain state action + Branch.dot choice.entries x
    | none, none => 0).toArray

theorem start_reaching (left right : BitSet) (n : Nat) :
    (reaching (R := R) left right).start n = indicator right n := by
  unfold start indicator reaching
  congr 2
  funext state
  by_cases inRight : right.contains state = true
  · simp [inRight]
  · by_cases inLeft : left.contains state = true
    · simp [inRight, inLeft]
    · simp [inRight, inLeft]

theorem isNone_settled_reaching (left right : BitSet) (state : Nat) :
    ((reaching (R := R) left right).settled state).isNone =
      (left \ right).contains state := by
  unfold reaching
  rw [BitSet.contains_diff]
  by_cases inRight : right.contains state = true
  · simp [inRight]
  · by_cases inLeft : left.contains state = true
    · simp [inRight, inLeft]
    · simp [inRight, inLeft]

@[simp]
theorem size_start (p : Payoff R) (n : Nat) : (p.start n).size = n := by
  simp [start]

theorem getElem?_start (p : Payoff R) {n state : Nat} (inside : state < n) :
    (p.start n)[state]? = some ((p.settled state).getD 0) := by
  simp [start, inside]

end Payoff

namespace CountdownStrategy

/-- The choice that the table takes in a state when `level` steps remain. -/
def taken? (s : CountdownStrategy) (m : Model R) (level state : Nat) :
    Option (Nat × Distribution R) := do
  let action ← (s.actionAt (R := R) state level).toOption
  let choice ← m.stored? state action
  return (action, choice)

/-- The values of a number of steps when `level` steps remain. -/
def worth (s : CountdownStrategy) (m : Model R) (p : Payoff R) :
    Nat → Nat → Array R
  | 0, _ => p.start m.numStates
  | steps + 1, level =>
    p.back m.numStates (s.taken? m level) (s.worth m p steps (level - 1))

/-- The probabilities of reaching `right` through `left` in a number of steps
when `level` steps remain. -/
def chance (s : CountdownStrategy) (m : Model R) (left right : BitSet) :
    Nat → Nat → Array R
  | 0, _ => indicator right m.numStates
  | steps + 1, level =>
    ((List.range m.numStates).map fun state =>
      if right.contains state then 1
      else if left.contains state then
        match s.taken? m level state with
        | some (_, choice) =>
          Branch.dot choice.entries (s.chance m left right steps (level - 1))
        | none => 0
      else 0).toArray

/-- The choice that an active strategy moves to in a state. -/
def moved? (s : CountdownStrategy) (m : Model R) (state : Nat) :
    Option (Nat × Distribution R) := do
  let move ← (s.nextMove (R := R) state).toOption
  match move.support with
  | [action] => do
    let choice ← m.stored? state action
    return (action, choice)
  | _ => none

/-- The strategy after a step. -/
def next (s : CountdownStrategy) : CountdownStrategy :=
  (s.advance (R := Unit)).toOption.getD s

end CountdownStrategy

/-- The values of a number of steps of a process that a strategy drives. -/
def Payoff.drive (p : Payoff R) (m : Model R) :
    Nat → CountdownStrategy → Array R
  | 0, _ => p.start m.numStates
  | steps + 1, s => p.back m.numStates (s.moved? m) (p.drive m steps s.next)

namespace CountdownStrategy

variable {s : CountdownStrategy} {m : Model R}

theorem moved?_eq_taken? (s : CountdownStrategy) (m : Model R)
    (level : Nat) :
    ({ s with memory := some level } : CountdownStrategy).moved? m =
      s.taken? m level := by
  funext state
  have moves : ({ s with memory := some level } : CountdownStrategy).nextMove
      (R := R) state = (do
        let action ← s.actionAt (R := R) state level
        return Distribution.point action) := rfl
  unfold moved? taken?
  rw [moves]
  cases s.actionAt (R := R) state level with
  | error failure => rfl
  | ok action => rfl

/-- Driving a process with a strategy is following its table. -/
theorem drive_eq_worth (s : CountdownStrategy) (m : Model R) (p : Payoff R)
    (steps level : Nat) :
    p.drive m steps { s with memory := some level } =
      s.worth m p steps level := by
  induction steps generalizing level with
  | zero => rfl
  | succ steps ih =>
      have advanced : ({ s with memory := some level } : CountdownStrategy).next =
          { s with memory := some (level - 1) } := rfl
      rw [Payoff.drive, worth, moved?_eq_taken?, advanced, ih]

/-- Where adding zero changes nothing, reaching `right` is worth its
probability. -/
theorem worth_reaching_eq_chance (zeroAdd : ∀ a : R, 0 + a = a)
    (s : CountdownStrategy) (m : Model R) (left right : BitSet)
    (steps level : Nat) :
    s.worth m (.reaching left right) steps level =
      s.chance m left right steps level := by
  induction steps generalizing level with
  | zero => exact Payoff.start_reaching left right m.numStates
  | succ steps ih =>
      unfold worth chance Payoff.back
      rw [ih]
      congr 2
      funext state
      unfold Payoff.reaching
      by_cases inRight : right.contains state = true
      · simp [inRight]
      · by_cases inLeft : left.contains state = true
        · cases s.taken? m level state <;> simp [inRight, inLeft, zeroAdd]
        · simp [inRight, inLeft]

end CountdownStrategy

theorem StepRewards.length_perStep (r : RewardStructure R) (t : Table R)
    (state : Nat) :
    ((perStep r t).getD state []).length = (t.branches state).length := by
  unfold perStep Table.branches
  cases row : t.rows[state]? with
  | none => simp [row]
  | some branches => simp [row]

theorem StepRewards.getD_perStep (r : RewardStructure R) {t : Table R}
    {state choice : Nat} (valid : choice < (t.branches state).length) :
    ((perStep r t).getD state []).getD choice 0 =
      r.ofState state + r.ofChoice state choice := by
  unfold Table.branches at valid
  unfold perStep
  rw [Array.getD_eq_getD_getElem?] at valid
  cases row : t.rows[state]? with
  | none => simp [row] at valid
  | some branches =>
      rw [row, Option.getD_some] at valid
      simp [row, valid]

theorem Solver.cumulativeReward_eq_ok {solver : Solver R}
    (r : RewardStructure R) (steps : Nat)
    (sized : solver.directions.size = solver.numStates)
    (below : ∀ state, state < solver.numStates →
      ∀ branch ∈ solver.table.branches state,
        branch.isBelow solver.numStates = true) :
    solver.cumulativeReward (.perStep r solver.table) steps =
      .ok { values := (solver.bellman (some (.perStep r solver.table))).bounded
              (.full solver.numStates) steps
              (Array.replicate solver.numStates 0)
            stats := .steps "Bounded iteration" steps } := by
  have ready : (solver.bellman (some (.perStep r solver.table))).ready
      (.full solver.numStates)
      (Array.replicate solver.numStates (0 : R)).size = true := by
    rw [Array.size_replicate]
    apply Bellman.ready_of_below
    · intro rewards given state _
      cases given
      exact (StepRewards.length_perStep r solver.table state).ge
    · intro state member
      rw [BitSet.contains_full, decide_eq_true_eq] at member
      exact member
    · exact sized.ge
    · exact le_rfl
    · intro state member
      rw [BitSet.contains_full, decide_eq_true_eq] at member
      exact below state member
  simp only [cumulativeReward, Bellman.checkedBounded_eq_ok fun _ => ready,
    Attempt.ok_bind]
  rfl

/-! ## The process, choice by choice -/

namespace Product

/-- The choices of a process and what they gain. -/
def reading (m : Model R) (p : Payoff R) (options : Options R) : Bellman R where
  table := ⟨((List.range m.numStates).map fun state =>
    (List.range (m.numChoices state)).map fun index =>
      ((m.stored? state index).getD default).entries).toArray⟩
  directions := #[]
  rewards := some ((List.range m.numStates).map fun state =>
    (List.range (m.numChoices state)).map (p.gain state)).toArray
  options := options

variable {s : CountdownStrategy} {m : Model R} {p : Payoff R}
  {options : Options R}

theorem getElem?_branches_reading (p : Payoff R) (options : Options R)
    {state index : Nat} (inside : state < m.numStates) {choice : Distribution R}
    (found : m.stored? state index = some choice) :
    ((reading m p options).table.branches state)[index]? =
      some choice.entries := by
  have counted : index < m.numChoices state :=
    Layout.lt_numChoices_of_stored? found
  simp [reading, Table.branches, inside, counted, found]

theorem reward_reading (p : Payoff R) (options : Options R)
    {state index : Nat} (inside : state < m.numStates)
    {choice : Distribution R} (found : m.stored? state index = some choice) :
    (reading m p options).reward state index = p.gain state index := by
  have counted : index < m.numChoices state :=
    Layout.lt_numChoices_of_stored? found
  simp [reading, Bellman.reward, inside, counted]

theorem Plays.taken?_eq (plays : Plays s m s.policy) {level state : Nat}
    (inside : state < m.numStates) (positive : 0 < level)
    (within : level ≤ s.bound) :
    ∃ choice, m.stored? state (s.policy state level) = some choice ∧
      s.taken? m level state = some (s.policy state level, choice) := by
  obtain ⟨-, choice, found, -⟩ :=
    plays.offers state level inside positive within
  refine ⟨choice, found, ?_⟩
  simp [CountdownStrategy.taken?, plays.decides state level inside positive
    within, Except.toOption, found]

/-- Following the table is following its policy. -/
theorem Plays.worth_eq_follow (plays : Plays s m s.policy)
    (options : Options R) {unknown : BitSet}
    (members : ∀ state < m.numStates,
      unknown.contains state = (p.settled state).isNone)
    (steps spare : Nat) (within : steps + spare ≤ s.bound) :
    s.worth m p steps (steps + spare) =
      (reading m p options).follow unknown
        (fun state remaining => s.policy state (remaining + spare))
        (p.start m.numStates) steps := by
  induction steps with
  | zero => rfl
  | succ steps ih =>
      have before := ih (by omega)
      apply Array.ext_getElem?
      intro state
      rw [Bellman.getElem?_follow_succ, CountdownStrategy.worth,
        show steps + 1 + spare - 1 = steps + spare by omega, before]
      by_cases inside : state < m.numStates
      · obtain ⟨choice, found, taken⟩ :=
          plays.taken?_eq inside (by omega) within
        have branch := getElem?_branches_reading p options inside found
        have branches : (reading m p options).table.branches state ≠ [] := by
          intro none
          simp [none] at branch
        have member := members state inside
        rw [p.getElem?_start inside, Option.map_some]
        cases settled : p.settled state with
        | some value =>
            have kept : ¬(reading m p options).Writes unknown state := by
              rintro ⟨contained, -⟩
              simp [member, settled] at contained
            rw [if_neg kept]
            simp [Payoff.back, inside, settled]
        | none =>
            have writes : (reading m p options).Writes unknown state :=
              ⟨by simp [member, settled], branches⟩
            rw [if_pos writes, Bellman.choiceValue, Bellman.branchValue,
              reward_reading p options inside found]
            simp [Payoff.back, inside, settled, taken, branch]
      · simp [Payoff.back, Payoff.start, inside]

/-! ## The copies -/

section Copies

variable {blank : Model R} {solver : Solver R}

/-- The product unrolls the process, if its copies gain what the process
gains. -/
theorem Plays.unrolls_reading (plays : Plays s m s.policy) (p : Payoff R)
    (options : Options R) (copies : Bellman R)
    (table : copies.table = .ofModel (unrolled m blank s.policy s.bound))
    (gains : ∀ level state, 0 < level → level ≤ s.bound →
      state < m.numStates →
      copies.reward ((s.bound - level) * m.numStates + state) 0 =
        p.gain state (s.policy state level)) :
    (reading m p options).Unrolls copies m.numStates s.policy s.bound := by
  constructor
  · intro level state positive within inside
    obtain ⟨-, choice, found, -, below⟩ :=
      plays.offers state level inside positive within
    have same : chosen m s.policy level state = choice := by
      simp [chosen, found]
    have copy := branches_unrolled m blank s.policy s.bound
      (Nat.sub_lt_of_pos_le positive within) inside
    rw [Nat.sub_sub_self within, same, ← table] at copy
    exact ⟨choice.entries, getElem?_branches_reading p options inside found,
      below, copy⟩
  · intro level state positive within inside
    obtain ⟨-, choice, found, -⟩ :=
      plays.offers state level inside positive within
    rw [gains level state positive within inside,
      reward_reading p options inside found]

/-- What is the same in all blocks before the first step stays the worth under
the strategy, level by level. -/
theorem Plays.bounded_eq_worth (plays : Plays s m s.policy)
    {copies : Bellman R}
    (unrolls : (reading m p options).Unrolls copies m.numStates s.policy s.bound)
    {inner outer : BitSet} {start : Array R}
    (settled : ∀ state < m.numStates,
      inner.contains state = (p.settled state).isNone)
    (members : ∀ block < s.bound, ∀ state < m.numStates,
      outer.contains (block * m.numStates + state) = inner.contains state)
    (starts : ∀ block < s.bound, ∀ state < m.numStates,
      start[block * m.numStates + state]? =
        (p.start m.numStates)[state]?)
    {level steps state : Nat} (positive : 0 < level) (within : level ≤ s.bound)
    (fits : steps ≤ level) (inside : state < m.numStates) :
    (copies.bounded outer steps start)[
        (s.bound - level) * m.numStates + state]? =
      (s.worth m p steps level)[state]? := by
  obtain ⟨spare, rfl⟩ := Nat.exists_eq_add_of_le fits
  rw [plays.worth_eq_follow options settled steps spare within]
  exact unrolls.bounded_eq_follow members starts steps spare positive within
    inside

theorem numStates_solver
    (table : solver.table = .ofModel (unrolled m blank s.policy s.bound)) :
    solver.numStates = s.bound * m.numStates := by
  rw [Solver.numStates, table, Table.numStates_ofModel, numStates_unrolled]

theorem Plays.isBelow_solver (plays : Plays s m s.policy)
    (table : solver.table = .ofModel (unrolled m blank s.policy s.bound))
    {copy : Nat} (inside : copy < solver.numStates) {branch : Branch R}
    (member : branch ∈ solver.table.branches copy) :
    branch.isBelow solver.numStates = true := by
  rw [numStates_solver table] at inside ⊢
  obtain ⟨only, single, below⟩ := plays.isBelow_unrolled blank inside
  rw [table, single, List.mem_singleton] at member
  exact member ▸ below

theorem Plays.wellPosed (plays : Plays s m s.policy)
    (table : solver.table = .ofModel (unrolled m blank s.policy s.bound))
    (sized : solver.directions.size = solver.numStates)
    {left right : BitSet} (leftBelow : left.isBelow m.numStates = true)
    (rightBelow : right.isBelow m.numStates = true) :
    solver.WellPosed (liftSet m.numStates s.bound left)
      (liftSet m.numStates s.bound right) := by
  have states := numStates_solver table
  constructor
  · intro copy inside _ _ branch member
    exact plays.isBelow_solver table inside member
  · exact sized
  · rw [states]
    exact isBelow_liftSet leftBelow
  · rw [states]
    exact isBelow_liftSet rightBelow

/-- Step-bounded until on the copies is worth what it is worth under the
strategy. -/
theorem Plays.boundedUntil_eq_worth (plays : Plays s m s.policy)
    (table : solver.table = .ofModel (unrolled m blank s.policy s.bound))
    (sized : solver.directions.size = solver.numStates)
    {left right : BitSet} (leftBelow : left.isBelow m.numStates = true)
    (rightBelow : right.isBelow m.numStates = true) {level steps : Nat}
    (positive : 0 < level) (within : level ≤ s.bound) (fits : steps ≤ level) :
    ∃ computed, solver.boundedUntil (liftSet m.numStates s.bound left)
        (liftSet m.numStates s.bound right) steps = .ok computed ∧
      ∀ state, state < m.numStates →
        computed.values[(s.bound - level) * m.numStates + state]? =
          (s.worth m (.reaching left right) steps level)[state]? := by
  have states := numStates_solver table
  have posed := plays.wellPosed table sized leftBelow rightBelow
  refine ⟨_, posed.boundedUntil_eq_ok steps, ?_⟩
  intro state inside
  have unrolls := plays.unrolls_reading (.reaching left right) solver.options
    (solver.bellman none) table (fun _ _ _ _ _ => rfl)
  have members : ∀ block < s.bound, ∀ state < m.numStates,
      (liftSet m.numStates s.bound left \
        liftSet m.numStates s.bound right).contains
          (block * m.numStates + state) = (left \ right).contains state := by
    intro block earlier state inside
    simp [contains_liftSet, leftBelow, rightBelow, earlier, inside]
  have starts : ∀ block < s.bound, ∀ state < m.numStates,
      (indicator (R := R) (liftSet m.numStates s.bound right)
        solver.numStates)[block * m.numStates + state]? =
        ((Payoff.reaching left right).start m.numStates)[state]? := by
    intro block earlier state inside
    rw [Payoff.start_reaching, states,
      getElem?_indicator _ (copy_lt earlier inside),
      getElem?_indicator _ inside, contains_liftSet rightBelow earlier inside]
  exact plays.bounded_eq_worth unrolls
    (fun state _ => (Payoff.isNone_settled_reaching left right state).symm)
    members starts positive within fits inside

/-- The action of a copy is that of its state at its level. -/
theorem getElem?_actions {level state : Nat} (policy : Policy) (bound : Nat)
    (positive : 0 < level) (within : level ≤ bound)
    (inside : state < m.numStates) :
    ((keptMoves m policy bound).map Prod.fst)[
        (bound - level) * m.numStates + state]? =
      some (policy state level) := by
  obtain ⟨block, rest⟩ := div_mod_copy (bound - level) inside
  have copy := copy_lt (Nat.sub_lt_of_pos_le positive within) inside
  simp [keptMoves, keptMove, copy, block, rest, Nat.sub_sub_self within]

/-- A copy earns what its state earns with the choice of the policy. -/
theorem earnings_liftRewards (r : RewardStructure R) (policy : Policy)
    {bound level state : Nat} (positive : 0 < level) (within : level ≤ bound)
    (inside : state < m.numStates) :
    (liftRewards m.numStates ((keptMoves m policy bound).map Prod.fst)
          r).ofState ((bound - level) * m.numStates + state) =
        r.ofState state ∧
      (liftRewards m.numStates ((keptMoves m policy bound).map Prod.fst)
          r).ofChoice ((bound - level) * m.numStates + state) 0 =
        r.ofChoice state (policy state level) := by
  have action := getElem?_actions policy bound positive within inside
  obtain ⟨-, rest⟩ := div_mod_copy (bound - level) inside
  constructor
  · simp [liftRewards, RewardStructure.ofState, action, rest]
  · cases given : r.choices with
    | none => simp [liftRewards, RewardStructure.ofChoice, given]
    | some rows =>
        simp [liftRewards, RewardStructure.ofChoice, given, action, rest]

/-- Rewards of a number of steps on the copies are those under the strategy. -/
theorem Plays.cumulativeReward_eq_worth (plays : Plays s m s.policy)
    (table : solver.table = .ofModel (unrolled m blank s.policy s.bound))
    (sized : solver.directions.size = solver.numStates)
    (r : RewardStructure R) {level steps : Nat} (positive : 0 < level)
    (within : level ≤ s.bound) (fits : steps ≤ level) :
    ∃ computed, solver.cumulativeReward (.perStep
        (liftRewards m.numStates
          ((keptMoves m s.policy s.bound).map Prod.fst) r) solver.table)
        steps = .ok computed ∧
      ∀ state, state < m.numStates →
        computed.values[(s.bound - level) * m.numStates + state]? =
          (s.worth m (.earning r) steps level)[state]? := by
  set lifted := liftRewards m.numStates
    ((keptMoves m s.policy s.bound).map Prod.fst) r with isLifted
  have states := numStates_solver table
  have gains : ∀ level state, 0 < level → level ≤ s.bound →
      state < m.numStates →
      (solver.bellman (some (.perStep lifted solver.table))).reward
          ((s.bound - level) * m.numStates + state) 0 =
        (Payoff.earning r).gain state (s.policy state level) := by
    intro level state positive within inside
    obtain ⟨ofState, ofChoice⟩ :=
      earnings_liftRewards r s.policy positive within inside
    have block := Nat.sub_lt_of_pos_le positive within
    have branches := branches_unrolled m blank s.policy s.bound block inside
    rw [← table] at branches
    change ((StepRewards.perStep lifted solver.table).getD _ []).getD 0 0 = _
    rw [StepRewards.getD_perStep lifted (by simp [branches]), isLifted, ofState,
      ofChoice]
    rfl
  have unrolls := plays.unrolls_reading (.earning r) solver.options
    (solver.bellman (some (.perStep lifted solver.table))) table gains
  have members : ∀ block < s.bound, ∀ state < m.numStates,
      (BitSet.full solver.numStates).contains (block * m.numStates + state) =
        (BitSet.full m.numStates).contains state := by
    intro block earlier state inside
    simp [states, copy_lt earlier inside, inside]
  have starts : ∀ block < s.bound, ∀ state < m.numStates,
      (Array.replicate solver.numStates (0 : R))[
          block * m.numStates + state]? =
        ((Payoff.earning r).start m.numStates)[state]? := by
    intro block earlier state inside
    rw [Payoff.getElem?_start _ inside]
    simp [states, copy_lt earlier inside, Payoff.earning]
  refine ⟨_, Solver.cumulativeReward_eq_ok lifted steps sized
    fun _ inside _ member => plays.isBelow_solver table inside member, ?_⟩
  intro state inside
  exact plays.bounded_eq_worth unrolls
    (fun state inside => by simp [inside, Payoff.earning]) members starts
    positive within fits inside

end Copies

/-- The product of a strategy with a process has, at the copy of a state with
`level` remaining steps, what the state is worth when the strategy is followed
from `level` on. -/
structure Simulates (s : CountdownStrategy) (m product : Model R) : Prop where
  /-- The strategy always takes a choice of the process. -/
  taken : ∀ level state, 0 < level → level ≤ s.bound → state < m.numStates →
    ∃ action choice, s.actionAt (R := R) state level = .ok action ∧
      m.stored? state action = some choice
  /-- The transitions of the product can be read. -/
  reads : ∀ {ε : Type}, Table.read (ε := ε) product = .ok (.ofModel product)
  reaches : ∀ solver : Solver R, solver.table = .ofModel product →
    solver.directions.size = solver.numStates →
    ∀ left right : BitSet, left.isBelow m.numStates = true →
    right.isBelow m.numStates = true →
    ∀ level steps, 0 < level → level ≤ s.bound → steps ≤ level →
      ∃ computed, solver.boundedUntil (liftSet m.numStates s.bound left)
          (liftSet m.numStates s.bound right) steps = .ok computed ∧
        ∀ state, state < m.numStates →
          computed.values[(s.bound - level) * m.numStates + state]? =
            (s.worth m (.reaching left right) steps level)[state]?
  earns : ∀ (index : Nat) (r : RewardStructure R),
    m.rewards[index]? = some r →
    ∃ lifted, product.rewards[index]? = some lifted ∧ lifted.name = r.name ∧
      ∀ solver : Solver R, solver.table = .ofModel product →
      solver.directions.size = solver.numStates →
      ∀ level steps, 0 < level → level ≤ s.bound → steps ≤ level →
        ∃ computed,
          solver.cumulativeReward (.perStep lifted solver.table) steps =
            .ok computed ∧
          ∀ state, state < m.numStates →
            computed.values[(s.bound - level) * m.numStates + state]? =
              (s.worth m (.earning r) steps level)[state]?
  /-- With all steps remaining this is what the strategy makes of the process
  when it is started, asked for moves and told about the steps. -/
  drives : ∀ p : Payoff R,
    s.worth m p s.bound s.bound = p.drive m s.bound s.start
  /-- For probabilities nothing is gained on the way. -/
  chances : (∀ a : R, 0 + a = a) → ∀ left right steps level,
    s.worth m (.reaching left right) steps level =
      s.chance m left right steps level

/-- **Products simulate.**  A product that exists simulates the process under
the strategy, if all successors are states. -/
theorem product_simulates {product : Model R}
    (made : (s.product m).1 = .ok product)
    (below : ∀ state, state < m.numStates → ∀ index,
      index < m.numChoices state → ∀ choice ∈ m.stored? state index,
        Branch.isBelow choice.entries m.numStates = true) :
    Simulates s m product := by
  obtain ⟨plays, -, blank, rfl⟩ := product_eq_unrolled made below
  constructor
  · intro level state positive within inside
    obtain ⟨-, choice, found, -⟩ :=
      plays.offers state level inside positive within
    exact ⟨_, choice, plays.decides state level inside positive within, found⟩
  · exact Table.read_eq_ok (plays.nonNegative_unrolled blank)
  · intro solver table sized left right leftBelow rightBelow level steps
      positive within fits
    exact plays.boundedUntil_eq_worth table sized leftBelow rightBelow positive
      within fits
  · intro index r given
    refine ⟨liftRewards m.numStates
      ((keptMoves m s.policy s.bound).map Prod.fst) r, ?_, rfl, ?_⟩
    · simp [assemble, given]
    · intro solver table sized level steps positive within fits
      exact plays.cumulativeReward_eq_worth table sized r positive within fits
  · intro p
    exact (s.drive_eq_worth m p s.bound s.bound).symm
  · intro zeroAdd left right steps level
    exact s.worth_reaching_eq_chance zeroAdd m left right steps level

/-- A process with rewards in which the first two states can go to each other
and to the last one. -/
def shuttle : Model ℚ where
  kind := .mdp
  layout := .listed #[[.ofList [(1, 1 / 2), (2, 1 / 2)], .point 2],
    [.point 0, .point 2], [.point 2]]
  rewards := [⟨"cost", #[1, 2], some #[#[0, 3], #[1, 0]]⟩]

/-- The plan to go back and forth until the last step. -/
def shuttlePlan : CountdownStrategy where
  table := [[⟨3, 0⟩, ⟨1, 1⟩], [⟨3, 0⟩], [⟨3, 0⟩]]
  bound := 3
  memory := none
  tableSize := 8
  info := "No information available"

theorem shuttle_simulates :
    CountdownStrategy.ofTable [[3, 0, 1, 1], [3, 0], [3, 0]] 3 =
        .ok shuttlePlan ∧
      ∃ product, (shuttlePlan.product shuttle).1 = .ok product ∧
        product.numStates = 9 ∧ Simulates shuttlePlan shuttle product := by
  refine ⟨by rfl, ?_⟩
  obtain ⟨product, made, states⟩ := Attempt.map_toOption_eq_some.mp
    (show (shuttlePlan.product shuttle).1.toOption.map Model.numStates =
      some 9 by decide +kernel)
  exact ⟨product, made, states, product_simulates made (by decide +kernel)⟩

end Product

end Markov
