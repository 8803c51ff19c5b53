import Markov.Proofs.Resting

/-!
# Dead ends and loops

A state without choices behaves as one that never leaves itself.  Its value is
zero wherever there is something to solve, and a loop there stays at rest.  So
all answers in discrete time are the same before and after the dead ends of a
model are given loops, step by step and bit by bit.
-/

namespace Markov

variable {R : Type} [Scalar R]

/-! ## Queries -/

namespace Solver

/-- The solver with loops at the dead ends of its table. -/
def looped (s : Solver R) : Solver R := { s with table := s.table.looped }

variable {s : Solver R} (directed : s.numStates ≤ s.directions.size)
  (laws : LoopsRest R)

@[simp]
theorem numStates_looped : s.looped.numStates = s.numStates :=
  Table.numStates_looped

include directed

theorem loops_bellman : (s.bellman none).Loops (s.looped.bellman none)
    fun _ => True where
  table := rfl
  directions := rfl
  options := rfl
  directed := directed
  rewards _ _ _ := rfl
  unrewarded _ _ _ := rfl

omit directed in
theorem atRest_indicator {unknown set : BitSet}
    (apart : ∀ state, unknown.contains state = true →
      set.contains state = false) :
    (s.bellman none).AtRest (unknown.contains · = true) (0 : R)
      (indicator set s.numStates) := by
  intro state member dead
  have inside : state < s.numStates := dead.lt_numStates
  rw [getElem?_indicator set inside, apart state member]
  rfl

omit directed in
theorem atRest_of_diff (left right : BitSet) :
    (s.bellman none).AtRest ((left \ right).contains · = true) (0 : R)
      (indicator right s.numStates) := by
  apply atRest_indicator
  intro state member
  rw [BitSet.contains_diff, Bool.and_eq_true, Bool.not_eq_true'] at member
  exact member.2

include laws

theorem checkedBounded_looped (left right : BitSet) (steps : Nat) :
    ((s.looped.bellman none).checkedBounded (left \ right) steps
        (indicator right s.numStates) : Attempt (CheckError R) (Array R)) =
      (s.bellman none).checkedBounded (left \ right) steps
        (indicator right s.numStates) := by
  have loops := (loops_bellman directed).restrict
    ((left \ right).contains · = true)
  have atRest := atRest_of_diff (s := s) left right
  exact (loops.checkedBounded_eq laws atRest steps).symm

theorem boundedUntil_looped (left right : BitSet) (steps : Nat) :
    s.looped.boundedUntil left right steps =
      s.boundedUntil left right steps := by
  unfold boundedUntil
  rw [numStates_looped]
  apply Attempt.bind_congr_of_ok
  intro start started
  obtain ⟨-, rfl⟩ := checkedIndicator_eq_ok started
  rw [checkedBounded_looped directed laws]

theorem recordedUntil_looped (left right : BitSet) (steps : Nat) :
    s.looped.recordedUntil left right steps =
      s.recordedUntil left right steps := by
  have loops := (loops_bellman directed).restrict
    ((left \ right).contains · = true)
  have actions := loops.actions_eq laws (atRest_of_diff left right) steps
  unfold recordedUntil
  rw [numStates_looped]
  apply Attempt.bind_congr_of_ok
  intro start started
  obtain ⟨-, rfl⟩ := checkedIndicator_eq_ok started
  simp only [Bellman.recorded, ← actions, checkedBounded_looped directed laws]

omit directed laws in
theorem decided_looped (left right : BitSet) :
    s.looped.decided left right = s.decided left right := by
  unfold decided
  rw [numStates_looped]
  simp only [looped, Table.checkedZeroSet_looped, Table.checkedOneSet_looped]

theorem solve_looped {unknown set : BitSet}
    (apart : ∀ state, unknown.contains state = true →
      set.contains state = false) :
    s.looped.solve none unknown (indicator set s.numStates) none =
      s.solve none unknown (indicator set s.numStates) none := by
  have solved := (loops_bellman directed).solve_eq_of_unseeded laws
    (atRest_indicator apart) (by simp [Bellman.numStates, bellman, numStates])
  rw [solve, solve, solved]

theorem holdsUntil_looped (left right : BitSet) :
    s.looped.holdsUntil left right = s.holdsUntil left right := by
  unfold holdsUntil
  rw [numStates_looped, decided_looped]
  apply Attempt.bind_congr_of_ok
  intro sets _
  apply Attempt.bind_congr_of_ok
  intro start started
  obtain ⟨-, rfl⟩ := checkedIndicator_eq_ok started
  have apart : ∀ state,
      ((sets.1 ∪ sets.2).complement s.numStates).contains state = true →
      sets.2.contains state = false := by
    intro state member
    rw [BitSet.contains_complement, BitSet.contains_union] at member
    simp only [Bool.and_eq_true, Bool.not_eq_true', Bool.or_eq_false_iff]
      at member
    exact member.2.2
  rw [solve_looped directed laws apart]

/-- Dead ends are not among the states whose rewards are solved, so the rewards
of their loops do not count. -/
theorem solve_looped_of_alive {unknown : BitSet}
    (alive : ∀ state, unknown.contains state = true →
      ¬s.table.IsDeadEnd state) {rewards others : StepRewards R}
    (same : ∀ state, ¬s.table.IsDeadEnd state →
      others.getD state [] = rewards.getD state []) (x : Array R)
    (policy : Array Nat) :
    s.looped.solve (some others) unknown x (some policy) =
      s.solve (some rewards) unknown x (some policy) := by
  have loops : (s.bellman (some rewards)).Loops
      (s.looped.bellman (some others)) (unknown.contains · = true) :=
    { table := rfl
      directions := rfl
      options := rfl
      directed := directed
      rewards := fun state _ live => congrArg some (same state live)
      unrewarded := fun state member dead => absurd dead (alive state member) }
  have atRest : ∀ {α : Type} (rest : α) (x : Array α),
      (s.bellman (some rewards)).AtRest (unknown.contains · = true) rest x :=
    fun _ _ state member dead => absurd dead (alive state member)
  rw [solve, solve,
    loops.solve_eq_of_policy laws (atRest 0 x) (atRest 0 policy)]

theorem reachReward_looped {rewards others : StepRewards R}
    (same : ∀ state, ¬s.table.IsDeadEnd state →
      others.getD state [] = rewards.getD state []) (target : BitSet) :
    s.looped.reachReward others target = s.reachReward rewards target := by
  have sets : ∀ dirs left, (s.looped.table.checkedOneSet dirs left target :
      Attempt (CheckError R) _) = s.table.checkedOneSet dirs left target :=
    fun dirs left => Table.checkedOneSet_looped dirs left target
  have against : s.looped.directions = s.directions := rfl
  unfold reachReward
  dsimp only
  rw [numStates_looped, against, sets]
  apply Attempt.bind_congr_of_ok
  intro sure found
  -- A dead end that is not a target is not sure to reach one, so its value is
  -- infinite from the start and nothing is solved there.
  have alive : ∀ state, (sure.states \ target).contains state = true →
      ¬s.table.IsDeadEnd state := by
    obtain ⟨-, isOneSet⟩ := Attempt.require_bind_eq_ok.mp found
    obtain rfl := Except.ok.inj isOneSet
    intro state member dead
    rw [BitSet.contains_diff, Bool.and_eq_true, Bool.not_eq_true'] at member
    rw [dead.contains_right member.1] at member
    cases member.2
  rw [solve_looped_of_alive directed laws alive same]

end Solver

theorem StepRewards.getD_perStep_looped (r : RewardStructure R) {t : Table R}
    {state : Nat} (live : ¬t.IsDeadEnd state) :
    (perStep r t.looped).getD state [] = (perStep r t).getD state [] := by
  simp only [perStep, Array.getD_eq_getD_getElem?, Array.getElem?_mapIdx,
    Table.row_looped_of_live live]

/-! ## Models -/

namespace Model

variable {m : Model R} {rows : Array (List (Distribution R))}
  (listed : m.layout = .listed rows)

/-- The rows of a model after its dead ends are given loops. -/
def loopedRows (rows : Array (List (Distribution R))) :
    Array (List (Distribution R)) :=
  rows.mapIdx fun state row =>
    if row.isEmpty then [Distribution.point state] else row

include listed

theorem fixDeadlocks_eq :
    m.fixDeadlocks.2 = { m with layout := .listed (loopedRows rows) } := by
  simp only [fixDeadlocks, listed, Layout.withRows, Layout.rows]
  rfl

theorem contains_fixDeadlocks (state : Nat) :
    m.fixDeadlocks.1.contains state = true ↔ rows[state]? = some [] := by
  have member : m.fixDeadlocks.1.contains state = true ↔
      state < rows.size ∧ (rows.getD state []).length = 0 := by
    simp [fixDeadlocks, deadlocks, numStates, numChoices, listed,
      Layout.numStates, Layout.numChoices]
  rw [member, Array.getD_eq_getD_getElem?, List.length_eq_zero_iff]
  constructor
  · rintro ⟨inside, empty⟩
    rw [Array.getElem?_eq_getElem inside, Option.getD_some] at empty
    rw [Array.getElem?_eq_getElem inside, empty]
  · intro empty
    rw [empty]
    exact ⟨(Array.getElem?_eq_some_iff.mp empty).1, rfl⟩

omit listed in
theorem rows_ofModel {m : Model R} {rows : Array (List (Distribution R))}
    (listed : m.layout = .listed rows) :
    (Table.ofModel m).rows = rows.map (·.map Distribution.entries) := by
  have choices : ∀ state, m.layout.choicesOf state = rows.getD state [] := by
    rw [listed]
    exact (Layout.listed rows).choicesOf_withRows rows
  have count : m.numStates = rows.size := by
    rw [numStates, listed]
    rfl
  apply Array.ext
  · simp [Table.ofModel, count]
  · intro state _ inside
    rw [Array.size_map] at inside
    simp [Table.ofModel, choices, inside]

theorem ofModel_fixDeadlocks :
    Table.ofModel m.fixDeadlocks.2 = (Table.ofModel m).looped := by
  have fixed : m.fixDeadlocks.2.layout = .listed (loopedRows rows) := by
    rw [fixDeadlocks_eq listed]
  have same : (Table.ofModel m.fixDeadlocks.2).rows =
      (Table.ofModel m).looped.rows := by
    rw [rows_ofModel fixed, Table.looped, rows_ofModel listed]
    apply Array.ext_getElem?
    intro state
    rw [loopedRows, Array.getElem?_map, Array.getElem?_mapIdx,
      Array.getElem?_mapIdx, Array.getElem?_map]
    cases rows[state]? with
    | none => rfl
    | some row =>
        cases row with
        | nil => rfl
        | cons choice row => rfl
  exact congrArg Table.mk same

theorem read_fixDeadlocks {ε : Type} :
    Table.read (ε := ε) m.fixDeadlocks.2 = .ok (Table.ofModel m).looped := by
  have fixed : m.fixDeadlocks.2.layout = .listed (loopedRows rows) := by
    rw [fixDeadlocks_eq listed]
  rw [Table.read_of_listed fixed, ofModel_fixDeadlocks listed]

theorem directions_fixDeadlocks (objective : Option Direction) :
    directions m.fixDeadlocks.2 objective = directions m objective := by
  have count : m.fixDeadlocks.2.numStates = m.numStates := by
    rw [fixDeadlocks_eq listed, numStates, numStates, listed]
    exact Array.size_mapIdx
  rw [directions, count, fixDeadlocks_eq listed]
  rfl

end Model

/-! ## Checkers -/

namespace Checker

variable {m : Model R} {rows : Array (List (Distribution R))}
  (listed : m.layout = .listed rows) (options : Options R)

theorem chainSolver_looped (table : Table R) :
    chainSolver options table.looped = (chainSolver options table).looped := by
  simp only [chainSolver, Table.numStates_looped]
  rfl

include listed in
theorem objectiveSolver_looped (table : Table R) (objective : Direction) :
    objectiveSolver options m.fixDeadlocks.2 table.looped objective =
      (objectiveSolver options m table objective).looped := by
  simp only [objectiveSolver, Model.directions_fixDeadlocks listed]
  rfl

theorem directed_chainSolver : (chainSolver options (.ofModel m)).numStates ≤
    (chainSolver options (.ofModel m)).directions.size := by
  simp [chainSolver, Solver.numStates]

theorem directed_objectiveSolver (objective : Direction) :
    (objectiveSolver options m (.ofModel m) objective).numStates ≤
      (objectiveSolver options m (.ofModel m) objective).directions.size := by
  simp [objectiveSolver, Solver.numStates, directions, Table.numStates_ofModel]

/-- A checker that answers questions about until and about rewards alike for two
models: with all that it computes or with the same failure. -/
structure AnswersAlike (checker : Checker R) (m other : Model R) : Prop where
  holdsUntil : ∀ objective left right bound,
    checker.holdsUntil m objective left right bound =
      checker.holdsUntil other objective left right bound
  reachReward : ∀ objective rewards target,
    checker.reachReward m objective rewards target =
      checker.reachReward other objective rewards target

section Kinds

variable (laws : LoopsRest R)

include listed laws

theorem dtmc_answersAlike :
    (dtmc options).AnswersAlike m.fixDeadlocks.2 m := by
  have directed := directed_chainSolver (m := m) options
  constructor
  · intro objective left right bound
    simp only [dtmc, Table.read_of_listed listed,
      Model.read_fixDeadlocks listed, Attempt.ok_bind,
      chainSolver_looped,
      Solver.holdsUntil_looped directed laws,
      Solver.boundedUntil_looped directed laws]
  · intro objective rewards target
    simp only [dtmc, Table.read_of_listed listed,
      Model.read_fixDeadlocks listed, Attempt.ok_bind,
      chainSolver_looped]
    exact Solver.reachReward_looped directed laws
      (fun _ => StepRewards.getD_perStep_looped rewards) target

theorem stpg_answersAlike :
    (stpg options).AnswersAlike m.fixDeadlocks.2 m := by
  have directed := directed_objectiveSolver (m := m) options
  constructor
  · intro objective left right bound
    simp only [stpg, Table.read_of_listed listed,
      Model.read_fixDeadlocks listed, Attempt.ok_bind,
      objectiveSolver_looped listed,
      Solver.holdsUntil_looped (directed _) laws,
      Solver.boundedUntil_looped (directed _) laws]
  · intro objective rewards target
    simp only [stpg, Table.read_of_listed listed,
      Model.read_fixDeadlocks listed, Attempt.ok_bind,
      objectiveSolver_looped listed]
    congr 1
    funext direction
    exact Solver.reachReward_looped (directed direction) laws
      (fun _ => StepRewards.getD_perStep_looped rewards) target

theorem mdp_answersAlike :
    (mdp options).AnswersAlike m.fixDeadlocks.2 m := by
  have directed := directed_objectiveSolver (m := m) options
  constructor
  · intro objective left right bound
    simp only [mdp, Table.read_of_listed listed,
      Model.read_fixDeadlocks listed, Attempt.ok_bind,
      objectiveSolver_looped listed,
      Solver.holdsUntil_looped (directed _) laws,
      Solver.boundedUntil_looped (directed _) laws,
      Solver.recordedUntil_looped (directed _) laws]
  · intro objective rewards target
    simp only [mdp, Table.read_of_listed listed,
      Model.read_fixDeadlocks listed, Attempt.ok_bind,
      objectiveSolver_looped listed]
    congr 1
    funext direction
    exact Solver.reachReward_looped (directed direction) laws
      (fun _ => StepRewards.getD_perStep_looped rewards) target

end Kinds

/-- **A state without choices behaves as one that never leaves itself.**  The
dead ends of a model are the states that are told, and what they are given is a
loop of weight one; nothing else changes.  After that every checker of discrete
time gives the same answers about until, with a bound or without, and about
rewards until a target: the same values, statistics and strategies, or the same
failure. -/
theorem fixDeadlocks_absorbs {m : Model Float}
    {rows : Array (List (Distribution Float))}
    (listed : m.layout = .listed rows) :
    (∀ state, m.fixDeadlocks.1.contains state = true ↔
      rows[state]? = some []) ∧
    (∃ others : Array (List (Distribution Float)),
      m.fixDeadlocks.2 = { m with layout := .listed others } ∧
      (∀ state : Nat, rows[state]? = some [] →
        ∃ loop : Distribution Float, loop.entries = [(state, 1)] ∧
          others[state]? = some [loop]) ∧
      ∀ state : Nat, rows[state]? ≠ some [] →
        others[state]? = rows[state]?) ∧
    ∀ kind options, kind.isContinuous = false →
      (∀ objective left right bound,
        (ofKind kind options).holdsUntil m.fixDeadlocks.2 objective left right
            bound =
          (ofKind kind options).holdsUntil m objective left right bound) ∧
      ∀ objective rewards target,
        (ofKind kind options).reachReward m.fixDeadlocks.2 objective rewards
            target =
          (ofKind kind options).reachReward m objective rewards target := by
  refine ⟨Model.contains_fixDeadlocks listed,
    ⟨_, Model.fixDeadlocks_eq listed, ?_, ?_⟩, ?_⟩
  · intro state empty
    refine ⟨.point state, rfl, ?_⟩
    rw [Model.loopedRows, Array.getElem?_mapIdx, empty]
    rfl
  · intro state live
    rw [Model.loopedRows, Array.getElem?_mapIdx]
    cases found : rows[state]? with
    | none => rfl
    | some row =>
        cases row with
        | nil => exact absurd found live
        | cons choice row => rfl
  · intro kind options discrete
    have alike : (ofKind kind options).AnswersAlike m.fixDeadlocks.2 m := by
      cases kind with
      | dtmc => exact dtmc_answersAlike listed options loopsRest_float
      | mdp => exact mdp_answersAlike listed options loopsRest_float
      | stpg => exact stpg_answersAlike listed options loopsRest_float
      | ctmc => cases discrete
      | ctmdp => cases discrete
    exact ⟨alike.holdsUntil, alike.reachReward⟩

/-- A game in a quarry.  The first player can blast or leave the decision to the
second one; after a blast there is nothing left to do, whether it went well or
not. -/
def quarry : Model Float where
  kind := .stpg
  layout := .listed #[[.ofList [(1, 0.5), (2, 0.5)], .point 3], [], [],
    [.ofList [(0, 0.5), (1, 0.5)]]]
  players := #[.one, .one, .one, .two]

/-- Options under which the dead end is among the states to be solved. -/
def quarryOptions : Options Float :=
  ⟨false, .relative, 0.000001, 100, .policyIteration, 20, false⟩

theorem quarry_absorbs :
    quarry.fixDeadlocks.1.contains 1 = true ∧
    ((stpg quarryOptions).holdsUntil quarry (some .max) (.full 4)
        (.ofList [2]) none).toOption.map (·.values) =
      some #[0.5, 0, 1, 0.25] ∧
    (∀ objective left right bound,
      (stpg quarryOptions).holdsUntil quarry.fixDeadlocks.2 objective left right
          bound =
        (stpg quarryOptions).holdsUntil quarry objective left right bound) ∧
    ∀ objective rewards target,
      (stpg quarryOptions).reachReward quarry.fixDeadlocks.2 objective rewards
          target =
        (stpg quarryOptions).reachReward quarry objective rewards target := by
  obtain ⟨told, -, answers⟩ := fixDeadlocks_absorbs (m := quarry) rfl
  refine ⟨(told 1).mpr rfl, by decide +kernel, ?_⟩
  exact answers .stpg quarryOptions rfl

end Checker

end Markov
