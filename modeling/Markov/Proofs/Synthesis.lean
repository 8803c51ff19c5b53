import Markov.Checker.Discrete
import Markov.Proofs.BoundedUntil
import Markov.Proofs.Countdown
import Markov.Proofs.Exact
import Markov.Proofs.Unrolling

/-!
# Synthesised strategies

The strategy that a step-bounded query of a decision process comes with is
worth the values of the query.  Its product with the process leaves nothing to
choose, and the same query on the product gives every state its value again,
computed by the same operations on the same numbers.
-/

namespace Markov

variable {R : Type} [Scalar R]

namespace CountdownStrategy

omit [Scalar R] in
theorem actionAt_eq_ok {strategy : CountdownStrategy}
    {actions : List (List Nat)}
    (table : strategy.table = actions.map compressRow) {bound : Nat}
    (lengths : ∀ row ∈ actions, row.length = bound) {state memory : Nat}
    (inside : state < actions.length) (positive : 0 < memory)
    (within : memory ≤ bound) :
    strategy.actionAt (R := R) state memory =
      .ok (Policy.ofActions actions state memory) := by
  have length := lengths actions[state] (List.getElem_mem inside)
  have decoded := decode_compressRow positive (within.trans length.ge)
  simp [actionAt, table, inside, decoded, Attempt.entry, Policy.ofActions]

end CountdownStrategy

namespace Checker

/-- The equations of a process with an objective and without rewards. -/
abbrev equations (options : Options R) (m : Model R) (objective : Direction) :
    Bellman R :=
  (objectiveSolver options m (.ofModel m) objective).bellman none

theorem numStates_objectiveSolver (options : Options R) (m : Model R)
    (objective : Direction) :
    (objectiveSolver options m (.ofModel m) objective).numStates =
      m.numStates :=
  Table.numStates_ofModel m

theorem numStates_equations (options : Options R) (m : Model R)
    (objective : Direction) :
    (equations options m objective).numStates = m.numStates :=
  Table.numStates_ofModel m

theorem wellPosed_objectiveSolver (options : Options R) {m : Model R}
    (objective : Direction) {left right : BitSet}
    (below : ∀ state, state < m.numStates →
      ∀ branch ∈ (Table.ofModel m).branches state,
        branch.isBelow m.numStates = true)
    (leftBelow : left.isBelow m.numStates = true)
    (rightBelow : right.isBelow m.numStates = true) :
    (objectiveSolver options m (.ofModel m) objective).WellPosed left right := by
  have states := numStates_objectiveSolver options m objective
  constructor
  · intro state inside _ _ branch member
    rw [states] at inside ⊢
    exact below state inside branch member
  · simp [objectiveSolver, directions, Solver.numStates]
  · rwa [states]
  · rwa [states]

theorem wellPosed_of_isProcess {m : Model R} (process : m.IsProcess)
    (options : Options R) (objective : Direction) {left right : BitSet}
    (leftBelow : left.isBelow m.numStates = true)
    (rightBelow : right.isBelow m.numStates = true) :
    (objectiveSolver options m (.ofModel m) objective).WellPosed left right :=
  wellPosed_objectiveSolver options objective
    (fun _ inside _ member => process.isBelow_of_mem_branches inside member)
    leftBelow rightBelow

omit [Scalar R] in
theorem withStrategy_eq_ok (computed : Computed R) {actions : List (List Nat)}
    {steps : Nat} (positive : 0 < steps) (small : steps < Word.signedLimit)
    (lengths : ∀ row ∈ actions, row.length = steps)
    (words : ∀ row ∈ actions, ∀ action ∈ row, action < Word.signedLimit) :
    ∃ strategy, withStrategy computed actions steps =
        .ok { computed with strategy := some strategy } ∧
      strategy.table = actions.map CountdownStrategy.compressRow ∧
      strategy.bound = steps ∧ strategy.memory = none := by
  obtain ⟨strategy, made, kept⟩ :=
    CountdownStrategy.ofActions_eq_ok positive small lengths words
  simp only [withStrategy, made]
  exact ⟨_, rfl, kept⟩

/-- A well-posed query of a decision process has values, and a strategy that
keeps the recorded actions if one is asked for. -/
theorem mdp_holdsUntil_eq_ok {m : Model R} {left right : BitSet} {bound : R}
    {steps : Nat} {options : Options R} {objective : Direction}
    (accepted : m.NonNegative)
    (posed : (objectiveSolver options m (.ofModel m) objective).WellPosed left
      right)
    (small : ∀ state, ((Table.ofModel m).branches state).length ≤ Word.signedLimit)
    (whole : stepBound .mdp bound = .ok steps)
    (room : steps ≤ Word.maxWords) (positive : 0 < steps) :
    ∃ computed, (mdp options).holdsUntil m (some objective) left right
        (some bound) = .ok computed ∧
      computed.values = (equations options m objective).bounded (left \ right)
        steps (indicator right m.numStates) ∧
      (options.generateStrategy = true → ∃ strategy,
        computed.strategy = some strategy ∧
        strategy.table = ((equations options m objective).actions
          (left \ right) steps (indicator right m.numStates)).map
            CountdownStrategy.compressRow ∧
        strategy.bound = steps ∧ strategy.memory = none) := by
  have states := numStates_objectiveSolver options m objective
  have query : (mdp options).holdsUntil m (some objective) left right
      (some bound) =
      if options.generateStrategy && 0 < steps then do
        let recorded ← (objectiveSolver options m (.ofModel m)
          objective).recordedUntil left right steps
        withStrategy recorded.1 recorded.2 steps
      else
        (objectiveSolver options m (.ofModel m) objective).boundedUntil left
          right steps := by
    simp only [mdp, requireDirection, pure_bind, Table.read_eq_ok accepted,
      whole, Attempt.ok_bind]
  rw [query]
  cases asked : options.generateStrategy with
  | false =>
      rw [← states]
      refine ⟨_, posed.boundedUntil_eq_ok steps, rfl, ?_⟩
      intro impossible
      cases impossible
  | true =>
      have lengths : ∀ row ∈ (equations options m objective).actions
          (left \ right) steps (indicator right m.numStates),
          row.length = steps :=
        fun row member => Bellman.length_of_mem_actions member
      have words : ∀ row ∈ (equations options m objective).actions
          (left \ right) steps (indicator right m.numStates),
          ∀ action ∈ row, action < Word.signedLimit :=
        fun row member action taken =>
          Bellman.lt_of_mem_actions (by decide) small member taken
      obtain ⟨strategy, made, kept⟩ := withStrategy_eq_ok
        { values := (equations options m objective).bounded (left \ right) steps
            (indicator right m.numStates)
          stats := .steps "Bounded iteration" steps }
        positive (room.trans_lt (by decide)) lengths words
      simp only [positive, decide_true, Bool.and_true, if_true,
        posed.recordedUntil_eq_ok room, Attempt.ok_bind, states, made]
      exact ⟨_, rfl, rfl, fun _ => ⟨strategy, rfl, kept⟩⟩

end Checker

namespace Product

variable {s : CountdownStrategy} {m : Model R} {policy : Policy}

/-- The product of a strategy unrolls the process along the policy that the
strategy plays. -/
theorem Plays.unrolls (plays : Plays s m policy) (process : m.IsProcess)
    (blank : Model R) (options replay : Options R)
    (objective other : Direction) :
    (Checker.equations options m objective).Unrolls
      (Checker.equations replay (unrolled m blank policy s.bound) other)
      m.numStates policy s.bound := by
  constructor
  · intro level state positive within inside
    obtain ⟨-, choice, found, -, below⟩ :=
      plays.offers state level inside positive within
    have counted : policy state level < m.numChoices state :=
      Layout.lt_numChoices_of_stored? found
    have same : chosen m policy level state = choice := by
      simp [chosen, found]
    have block : s.bound - level < s.bound := by omega
    have copy := branches_unrolled m blank policy s.bound block inside
    rw [Nat.sub_sub_self within, same] at copy
    exact ⟨choice.entries, process.getElem?_branches inside counted found,
      below, copy⟩
  · intro _ _ _ _ _
    rfl

end Product

namespace Checker

open Product (liftSet unrolled)

/-- The strategy of a query plays the actions that the query recorded. -/
theorem plays_ofActions {m : Model R} (process : m.IsProcess)
    (options : Options R) (objective : Direction) {unknown : BitSet}
    {x : Array R} {strategy : CountdownStrategy}
    (table : strategy.table =
      ((equations options m objective).actions unknown strategy.bound x).map
        CountdownStrategy.compressRow) :
    Product.Plays strategy m (.ofActions
      ((equations options m objective).actions unknown strategy.bound x)) := by
  have states := numStates_equations options m objective
  constructor
  · intro state level inside positive within
    exact CountdownStrategy.actionAt_eq_ok table
      (fun row member => Bellman.length_of_mem_actions member)
      (by simpa [Bellman.actions_eq, states] using inside) positive within
  · intro state level inside positive within
    have length : ((equations options m objective).table.branches
        state).length = m.numChoices state := process.length_branches inside
    have branches : (equations options m objective).table.branches state ≠
        [] := by
      rw [← List.length_pos_iff, length]
      exact (process.choices state inside).1
    have taken := Bellman.ofActions_actions_lt unknown x (states ▸ inside)
      branches positive within
    rw [length] at taken
    exact process.offers state inside _ taken

section Replay

variable {m : Model R} {strategy : CountdownStrategy} {policy : Policy}

theorem wellPosed_unrolled (plays : Product.Plays strategy m policy)
    (blank : Model R) (options : Options R) (objective : Direction)
    {left right : BitSet} (leftBelow : left.isBelow m.numStates = true)
    (rightBelow : right.isBelow m.numStates = true) :
    (objectiveSolver options (unrolled m blank policy strategy.bound)
      (.ofModel (unrolled m blank policy strategy.bound)) objective).WellPosed
        (liftSet m.numStates strategy.bound left)
        (liftSet m.numStates strategy.bound right) := by
  have states := Product.numStates_unrolled m blank policy strategy.bound
  apply wellPosed_objectiveSolver
  · rw [states]
    intro copy inside branch member
    obtain ⟨only, single, below⟩ := plays.isBelow_unrolled blank inside
    rw [single, List.mem_singleton] at member
    exact member ▸ below
  · rw [states]
    exact Product.isBelow_liftSet leftBelow
  · rw [states]
    exact Product.isBelow_liftSet rightBelow

theorem length_branches_unrolled_le (plays : Product.Plays strategy m policy)
    (blank : Model R) (copy : Nat) :
    ((Table.ofModel (unrolled m blank policy strategy.bound)).branches
      copy).length ≤ Word.signedLimit := by
  by_cases inside : copy < strategy.bound * m.numStates
  · obtain ⟨branch, single, -⟩ := plays.isBelow_unrolled blank inside
    rw [single, List.length_singleton]
    decide
  · rw [← Product.numStates_unrolled m blank policy] at inside
    simp [Table.branches, Table.ofModel, inside]

/-- A query about the copies of a process gives the values of following the
policy that the strategy plays. -/
theorem holdsUntil_unrolled (plays : Product.Plays strategy m policy)
    (process : m.IsProcess) {left right : BitSet} {bound : R}
    (leftBelow : left.isBelow m.numStates = true)
    (rightBelow : right.isBelow m.numStates = true)
    (whole : stepBound .mdp bound = .ok strategy.bound)
    (room : strategy.bound ≤ Word.maxWords) (positive : 0 < strategy.bound)
    (blank : Model R) (options replay : Options R)
    (objective other : Direction) :
    ∃ replayed, (mdp replay).holdsUntil
        (unrolled m blank policy strategy.bound) (some other)
        (liftSet m.numStates strategy.bound left)
        (liftSet m.numStates strategy.bound right) (some bound) =
          .ok replayed ∧
      ∀ state, state < m.numStates → replayed.values[state]? =
        ((equations options m objective).follow (left \ right) policy
          (indicator right m.numStates) strategy.bound)[state]? := by
  have members : ∀ block < strategy.bound, ∀ state < m.numStates,
      (liftSet m.numStates strategy.bound left \
        liftSet m.numStates strategy.bound right).contains
          (block * m.numStates + state) = (left \ right).contains state := by
    intro block level state inside
    simp [Product.contains_liftSet, leftBelow, rightBelow, level, inside]
  have starts : ∀ block < strategy.bound, ∀ state < m.numStates,
      (indicator (R := R) (liftSet m.numStates strategy.bound right)
        (unrolled m blank policy strategy.bound).numStates)[
          block * m.numStates + state]? =
        (indicator (R := R) right m.numStates)[state]? := by
    intro block level state inside
    rw [Product.numStates_unrolled,
      getElem?_indicator _ (Product.copy_lt level inside),
      getElem?_indicator _ inside,
      Product.contains_liftSet rightBelow level inside]
  obtain ⟨replayed, query, values, -⟩ := mdp_holdsUntil_eq_ok
    (plays.nonNegative_unrolled blank)
    (wellPosed_unrolled plays blank replay other leftBelow rightBelow)
    (length_branches_unrolled_le plays blank) whole room positive
  refine ⟨replayed, query, ?_⟩
  intro state inside
  have simulated := (plays.unrolls process blank options replay objective
    other).bounded_eq_follow members starts strategy.bound 0 positive le_rfl
      inside
  rw [values]
  simpa using simulated

end Replay

/-- **Synthesis is correct.**  A step-bounded query of a decision process that
asks for a strategy gives one.  Its product with the process exists, and the
query about the copies of the two sets gives every state of the first block the
value that it has in the process, in either direction and with any options. -/
theorem product_attains_values {m : Model R} {left right : BitSet} {bound : R}
    {steps : Nat} {options : Options R} (objective : Direction)
    (process : m.IsProcess)
    (valuations : ∀ valuations ∈ m.valuations,
      valuations.length = m.numStates)
    (unlocked : m.layout.isLocked = false)
    (leftBelow : left.isBelow m.numStates = true)
    (rightBelow : right.isBelow m.numStates = true)
    (whole : stepBound .mdp bound = .ok steps) (positive : 0 < steps)
    (room : m.numStates * steps ≤ Word.maxRows)
    (asked : options.generateStrategy = true) :
    ∃ computed strategy product,
      (mdp options).holdsUntil m (some objective) left right (some bound) =
        .ok computed ∧
      computed.values.size = m.numStates ∧
      computed.strategy = some strategy ∧
      (strategy.product m).1 = .ok product ∧
      ∀ (replay : Options R) (other : Direction), ∃ replayed,
        (mdp replay).holdsUntil product (some other)
          (liftSet m.numStates steps left) (liftSet m.numStates steps right)
          (some bound) = .ok replayed ∧
        ∀ state, state < m.numStates →
          replayed.values[state]? = computed.values[state]? := by
  have words : steps ≤ Word.maxWords :=
    calc steps ≤ m.numStates * steps :=
          Nat.le_mul_of_pos_left steps process.inhabited
      _ ≤ Word.maxRows := room
      _ ≤ Word.maxWords := by decide
  have posed :=
    wellPosed_of_isProcess process options objective leftBelow rightBelow
  obtain ⟨computed, query, values, given⟩ := mdp_holdsUntil_eq_ok
    process.nonNegative posed process.length_branches_le whole words positive
  obtain ⟨strategy, named, table, rfl, inactive⟩ := given asked
  have plays := plays_ofActions process options objective table
  have product := plays.product_eq_ok
    ⟨process.kind, process.inhabited, positive, valuations, unlocked, room⟩
    (by simp [inactive])
  refine ⟨computed, strategy, _, query, ?_, named, product, ?_⟩
  · rw [values]
    simp [indicator]
  · intro replay other
    obtain ⟨replayed, again, followed⟩ := holdsUntil_unrolled plays process
      leftBelow rightBelow whole words positive _ options replay objective other
    refine ⟨replayed, again, ?_⟩
    intro state inside
    rw [followed state inside, values, Bellman.follow_actions]

/-- A process in which the better choice of the first state depends on the
number of remaining steps: the detour through the second state pays off only if
there is time for it. -/
def detour : Model ℚ where
  kind := .mdp
  layout := .listed #[[.ofList [(2, 1 / 2), (3, 1 / 2)], .point 1],
    [.ofList [(2, 3 / 4), (3, 1 / 4)]], [.point 2], [.point 3]]

def detourOptions : Options ℚ :=
  ⟨true, .relative, 1 / 1000, 100, .valueIteration, 20, true⟩

theorem detour_isProcess : detour.IsProcess where
  kind := rfl
  inhabited := by decide
  choices := by decide
  offers := by decide +kernel

theorem detour_attains_values :
    ∃ computed strategy product,
      (mdp detourOptions).holdsUntil detour (some .max) (.full 4)
        (.ofList [2]) (some 2) = .ok computed ∧
      computed.values.size = 4 ∧
      computed.strategy = some strategy ∧
      (strategy.product detour).1 = .ok product ∧
      ∀ (replay : Options ℚ) (other : Direction), ∃ replayed,
        (mdp replay).holdsUntil product (some other)
          (liftSet 4 2 (.full 4)) (liftSet 4 2 (.ofList [2])) (some 2) =
            .ok replayed ∧
        ∀ state, state < 4 →
          replayed.values[state]? = computed.values[state]? :=
  product_attains_values .max detour_isProcess (by decide) (by decide)
    (by decide) (by decide) rfl (by decide) (by decide) rfl

/-- The same process with a single valuation for its four states. -/
def undervaluedDetour : Model ℚ :=
  { detour with valuations := some [.ofInts [0]] }

/-- A process with another number of valuations than states still has values
and a strategy, but the strategy has no product with it. -/
theorem undervaluedDetour_without_product :
    undervaluedDetour.IsProcess ∧ ∃ computed strategy,
      (mdp detourOptions).holdsUntil undervaluedDetour (some .max) (.full 4)
        (.ofList [2]) (some 2) = .ok computed ∧
      computed.strategy = some strategy ∧
      (strategy.product undervaluedDetour).1 =
        Attempt.fail (.unsupportedProduct (.valuations 4 1)) := by
  have process : undervaluedDetour.IsProcess := { detour_isProcess with }
  have posed : (objectiveSolver detourOptions undervaluedDetour
      (.ofModel undervaluedDetour) .max).WellPosed (.full 4) (.ofList [2]) :=
    wellPosed_of_isProcess process detourOptions .max (by decide) (by decide)
  have whole : stepBound .mdp (2 : ℚ) = .ok 2 := rfl
  obtain ⟨computed, query, -, given⟩ := mdp_holdsUntil_eq_ok
    process.nonNegative posed process.length_branches_le whole (by decide)
    (by decide)
  obtain ⟨strategy, named, -, levels, -⟩ := given rfl
  refine ⟨process, computed, strategy, query, named, ?_⟩
  have valuations : undervaluedDetour.valuations = some [.ofInts [0]] := rfl
  exact Product.product_eq_fail process.kind process.inhabited
    (by rw [levels]; decide) valuations (by decide)

end Checker

end Markov
