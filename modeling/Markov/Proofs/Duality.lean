import Mathlib.Order.MinMax
import Markov.Proofs.Construction
import Markov.Proofs.Forced
import Markov.Proofs.Until

/-!
# Duality of staying and reaching

To stay in a set for a number of steps is not to reach its complement within
that number.  The checkers compute the latter, with all directions flipped, and
take the difference to one.  That this is the probability of staying rests on
two facts: a branch of total weight one is worth the difference to one of what
it is worth for the opponent, and the best choice of one side is the worst one
for the other.
-/

namespace Markov

/-! ## Optima -/

namespace Direction

/-- The best of some values, zero if there are none. -/
def optimum : Direction → List ℚ → ℚ
  | min, values => values.min?.getD 0
  | max, values => values.max?.getD 0

theorem optimum_eq {direction : Direction} {values : List ℚ} {value : ℚ}
    (member : value ∈ values)
    (best : ∀ other ∈ values, direction.NotWorse value other) :
    direction.optimum values = value := by
  cases direction with
  | min =>
      have found : values.min? = some value :=
        List.min?_eq_some_iff.mpr ⟨member, best⟩
      rw [optimum, found, Option.getD_some]
  | max =>
      have found : values.max? = some value :=
        List.max?_eq_some_iff.mpr ⟨member, best⟩
      rw [optimum, found, Option.getD_some]

theorem optimum_spec (direction : Direction) {values : List ℚ}
    (nonempty : values ≠ []) :
    direction.optimum values ∈ values ∧
      ∀ other ∈ values, direction.NotWorse (direction.optimum values) other := by
  cases direction with
  | min =>
      cases found : values.min? with
      | none => exact (nonempty (List.min?_eq_none_iff.mp found)).elim
      | some value =>
          rw [optimum, found, Option.getD_some]
          exact List.min?_eq_some_iff.mp found
  | max =>
      cases found : values.max? with
      | none => exact (nonempty (List.max?_eq_none_iff.mp found)).elim
      | some value =>
          rw [optimum, found, Option.getD_some]
          exact List.max?_eq_some_iff.mp found

theorem notWorse_one_sub {direction : Direction} {value other : ℚ}
    (worse : direction.flip.NotWorse value other) :
    direction.NotWorse (1 - value) (1 - other) := by
  cases direction <;> exact sub_le_sub_left worse 1

theorem optimum_mono {α : Type} (direction : Direction) {entries : List α}
    {f g : α → ℚ} (below : ∀ entry ∈ entries, f entry ≤ g entry) :
    direction.optimum (entries.map f) ≤ direction.optimum (entries.map g) := by
  by_cases empty : entries = []
  · rw [empty]
    exact le_rfl
  have fSome : entries.map f ≠ [] := by simpa using empty
  have gSome : entries.map g ≠ [] := by simpa using empty
  obtain ⟨fMember, fBest⟩ := direction.optimum_spec fSome
  obtain ⟨gMember, gBest⟩ := direction.optimum_spec gSome
  cases direction with
  | min =>
      -- What is best for `g` is at hand for `f`, too.
      obtain ⟨entry, member, same⟩ := List.mem_map.mp gMember
      rw [← same]
      exact le_trans (α := ℚ) (fBest _ (List.mem_map_of_mem member))
        (below entry member)
  | max =>
      obtain ⟨entry, member, same⟩ := List.mem_map.mp fMember
      rw [← same]
      exact le_trans (α := ℚ) (below entry member)
        (gBest _ (List.mem_map_of_mem member))

end Direction

namespace Branch

theorem expect_congr {branch : Branch ℚ} {f g : Nat → ℚ}
    (same : ∀ entry ∈ branch, f entry.1 = g entry.1) :
    branch.expect f = branch.expect g := by
  unfold expect
  congr 1
  apply List.map_congr_left
  intro entry member
  rw [same entry member]

theorem one_sub_expect {branch : Branch ℚ} (total : branch.total = 1)
    (f : Nat → ℚ) :
    1 - branch.expect f = branch.expect fun state => 1 - f state := by
  rw [expect_sub, expect_const, total, one_mul]

end Branch

/-! ## Staying in a set -/

namespace Model

/-- Every state has choices, and every choice is a probability distribution. -/
structure Stochastic (m : Model ℚ) : Prop where
  inhabited : ∀ state, state < m.numStates → m.layout.choicesOf state ≠ []
  weights : ∀ state, state < m.numStates →
    ∀ choice ∈ m.layout.choicesOf state, Branch.NonNegative choice.entries
  totals : ∀ state, state < m.numStates →
    ∀ choice ∈ m.layout.choicesOf state, Branch.total choice.entries = 1

theorem Stochastic.nonNegative {m : Model ℚ} (stochastic : m.Stochastic) :
    (Table.ofModel m).NonNegative := by
  intro row listed branch member
  simp only [Table.ofModel, List.mem_toArray, List.mem_map, List.mem_range]
    at listed
  obtain ⟨state, inside, rfl⟩ := listed
  obtain ⟨choice, chosen, rfl⟩ := List.mem_map.mp member
  exact stochastic.weights state inside choice chosen

theorem Stochastic.accepted {m : Model ℚ} (stochastic : m.Stochastic) :
    m.NonNegative := by
  apply Model.nonNegative_iff.mpr
  intro state inside index counted choice found
  exact stochastic.weights state inside choice
    (List.mem_filterMap.mpr ⟨index, List.mem_range.mpr counted, found⟩)

/-- The probability of being in a set now and after each of a number of steps,
where the owner of a state takes the best choice in their direction. -/
def staying (m : Model ℚ) (owner : Nat → Direction) (inner : BitSet) :
    Nat → Nat → ℚ
  | 0, state => if inner.contains state then 1 else 0
  | steps + 1, state =>
    if inner.contains state then
      (owner state).optimum ((m.layout.choicesOf state).map fun choice =>
        Branch.expect choice.entries (m.staying owner inner steps))
    else 0

section Order

variable {m : Model ℚ} {owner : Nat → Direction} {inner : BitSet}

theorem lt_numStates_of_mem_choicesOf {state : Nat} {choice : Distribution ℚ}
    (member : choice ∈ m.layout.choicesOf state) : state < m.numStates := by
  obtain ⟨index, counted, -⟩ := List.mem_filterMap.mp member
  exact Layout.lt_numStates_of_lt_numChoices (List.mem_range.mp counted)

theorem Stochastic.staying_bounds (stochastic : m.Stochastic)
    (steps state : Nat) :
    0 ≤ m.staying owner inner steps state ∧
      m.staying owner inner steps state ≤ 1 := by
  induction steps generalizing state with
  | zero =>
      rw [staying]
      split <;> norm_num
  | succ steps ih =>
      rw [staying]
      split
      swap
      · norm_num
      by_cases stuck : m.layout.choicesOf state = []
      · rw [stuck]
        cases owner state <;> norm_num [Direction.optimum]
      have some : ((m.layout.choicesOf state).map fun choice =>
          Branch.expect choice.entries (m.staying owner inner steps)) ≠ [] := by
        simpa using stuck
      obtain ⟨choice, member, value⟩ :=
        List.mem_map.mp ((owner state).optimum_spec some).1
      have inside := lt_numStates_of_mem_choicesOf member
      have weights := stochastic.weights state inside choice member
      have total := stochastic.totals state inside choice member
      rw [← value]
      constructor
      · exact Branch.expect_nonneg weights fun entry _ _ => (ih entry.1).1
      · calc
          Branch.expect choice.entries (m.staying owner inner steps)
              ≤ Branch.expect choice.entries fun _ => 1 :=
            Branch.expect_mono weights fun entry _ _ => (ih entry.1).2
          _ = 1 := by rw [Branch.expect_const, total, one_mul]

theorem Stochastic.staying_succ_le (stochastic : m.Stochastic)
    (steps state : Nat) :
    m.staying owner inner (steps + 1) state ≤
      m.staying owner inner steps state := by
  induction steps generalizing state with
  | zero =>
      by_cases member : inner.contains state = true
      · have most : m.staying owner inner 1 state ≤ 1 :=
          (stochastic.staying_bounds 1 state).2
        simpa [staying, member] using most
      · simp [staying, member]
  | succ steps ih =>
      rw [staying, staying]
      split
      · refine Direction.optimum_mono _ fun choice member => ?_
        have inside := lt_numStates_of_mem_choicesOf member
        exact Branch.expect_mono (stochastic.weights state inside choice member)
          fun entry _ _ => ih entry.1
      · exact le_rfl

end Order

end Model

/-! ## Reaching the complement -/

namespace Solver

/-- Every state is resolved against the direction of its owner, or has nothing
to choose. -/
def Opposes (solver : Solver ℚ) (owner : Nat → Direction) : Prop :=
  ∀ state, state < solver.numStates →
    solver.directions[state]? = some (some (owner state).flip) ∨
    (solver.table.branches state).length ≤ 1

variable {solver : Solver ℚ} {owner : Nat → Direction}

theorem Opposes.undirected (opposes : solver.Opposes owner) {state : Nat}
    (inside : state < solver.numStates)
    (free : solver.directions[state]? = some none) :
    (solver.table.branches state).length ≤ 1 := by
  rcases opposes state inside with directed | single
  · rw [free] at directed
    cases directed
  · exact single

/-- A value is at least as good for the opponent as every branch. -/
theorem Query.flip_notWorse_untilValue {left right : BitSet}
    (query : solver.Query left right) (opposes : solver.Opposes owner)
    {state : Nat} (inLeft : left.contains state = true)
    (notRight : right.contains state = false) {branch : Branch ℚ}
    (member : branch ∈ solver.table.branches state) (steps : Nat) :
    (owner state).flip.NotWorse
      (solver.untilValue left right (steps + 1) state)
      (branch.expect (solver.untilValue left right steps)) := by
  rcases opposes state (query.lt_of_left state inLeft) with directed | single
  · have direction : solver.directions.getD state none =
        some (owner state).flip := by
      rw [Array.getD_eq_getD_getElem?, directed, Option.getD_some]
    cases whose : owner state with
    | min =>
        rw [whose] at direction
        exact query.expect_le_untilValue inLeft notRight
          (by rw [direction]; rfl) member steps
    | max =>
        rw [whose] at direction
        exact query.untilValue_le_expect inLeft notRight
          (by rw [direction]; rfl) member steps
  · obtain ⟨other, listed, value⟩ := query.exists_branch inLeft notRight
      (List.ne_nil_of_mem member) steps
    obtain rfl : other = branch := by
      obtain ⟨first, firstInside, rfl⟩ := List.getElem_of_mem listed
      obtain ⟨second, secondInside, rfl⟩ := List.getElem_of_mem member
      congr 1
      omega
    rw [value]
    exact .refl _ _

/-- What is left of a value is the best that is left of a branch. -/
theorem Query.optimum_one_sub_expect {left right : BitSet}
    (query : solver.Query left right) (opposes : solver.Opposes owner)
    {state : Nat} (inLeft : left.contains state = true)
    (notRight : right.contains state = false)
    (branches : solver.table.branches state ≠ []) (steps : Nat) :
    (owner state).optimum ((solver.table.branches state).map fun branch =>
        1 - branch.expect (solver.untilValue left right steps)) =
      1 - solver.untilValue left right (steps + 1) state := by
  apply Direction.optimum_eq
  · obtain ⟨branch, member, value⟩ :=
      query.exists_branch inLeft notRight branches steps
    rw [value]
    exact List.mem_map.mpr ⟨branch, member, rfl⟩
  · intro other listed
    obtain ⟨branch, member, rfl⟩ := List.mem_map.mp listed
    exact Direction.notWorse_one_sub
      (query.flip_notWorse_untilValue opposes inLeft notRight member steps)

section Complement

variable {m : Model ℚ} {left right inner : BitSet}

theorem numStates_of_table (table : solver.table = .ofModel m) :
    solver.numStates = m.numStates := by
  rw [numStates, table, Table.numStates_ofModel]

theorem one_sub_untilValue_zero (table : solver.table = .ofModel m)
    (outer : ∀ state, state < m.numStates →
      right.contains state = !inner.contains state)
    {state : Nat} (inside : state < m.numStates) :
    1 - solver.untilValue left right 0 state =
      m.staying owner inner 0 state := by
  change 1 - (indicator right solver.numStates).getD state 0 = _
  rw [getD_indicator, numStates_of_table table, outer state inside,
    Model.staying]
  cases inner.contains state <;> simp [inside]

/-- Not to reach the complement of a set is to stay in the set. -/
theorem Query.one_sub_untilValue
    (query : solver.Query left right) (table : solver.table = .ofModel m)
    (stochastic : m.Stochastic) (opposes : solver.Opposes owner)
    (all : ∀ state, state < m.numStates → left.contains state = true)
    (outer : ∀ state, state < m.numStates →
      right.contains state = !inner.contains state)
    (steps : Nat) {state : Nat} (inside : state < m.numStates) :
    1 - solver.untilValue left right steps state =
      m.staying owner inner steps state := by
  have states := numStates_of_table table
  induction steps generalizing state with
  | zero => exact one_sub_untilValue_zero table outer inside
  | succ steps ih =>
      rw [Model.staying]
      by_cases stays : inner.contains state = true
      swap
      · have inRight : right.contains state = true := by
          simpa [outer state inside] using stays
        rw [if_neg stays, query.untilValue_of_right inRight, sub_self]
      have notRight : right.contains state = false := by
        simpa [outer state inside] using stays
      have rows : solver.table.branches state =
          (m.layout.choicesOf state).map Distribution.entries := by
        rw [table, Table.branches_ofModel inside]
      have branches : solver.table.branches state ≠ [] := by
        rw [rows]
        simpa using stochastic.inhabited state inside
      rw [if_pos stays, ← query.optimum_one_sub_expect opposes
        (all state inside) notRight branches, rows, List.map_map]
      congr 1
      apply List.map_congr_left
      intro choice member
      have below := query.successors state (states ▸ inside)
        (all state inside) notRight choice.entries
        (by rw [rows]; exact List.mem_map_of_mem member)
      rw [states] at below
      rw [Function.comp_apply,
        Branch.one_sub_expect (stochastic.totals state inside choice member)]
      refine Branch.expect_congr fun entry entryMember => ih ?_
      simpa using List.all_eq_true.mp below entry entryMember

theorem boundedUntil_inversion {steps : Nat} {computed : Computed ℚ}
    (found : solver.boundedUntil left right steps = .ok computed) :
    right.isBelow solver.numStates = true ∧
    (0 < steps →
      (solver.bellman none).ready (left \ right) solver.numStates = true) ∧
    computed.values = solver.untilValues left right steps := by
  obtain ⟨start, started, ran⟩ := Attempt.bind_eq_ok.mp found
  obtain ⟨below, rfl⟩ := checkedIndicator_eq_ok started
  obtain ⟨values, stepped, done⟩ := Attempt.bind_eq_ok.mp ran
  cases done
  obtain ⟨ready, values⟩ := Bellman.checkedBounded_eq_ok_iff.mp stepped
  rw [size_indicator] at ready
  exact ⟨below, ready, values.symm⟩

/-- Steps that were made found the successors of all choices. -/
theorem wellPosed_of_boundedUntil {steps : Nat} {computed : Computed ℚ}
    (opposes : solver.Opposes owner)
    (sized : solver.directions.size = solver.numStates)
    (leftBelow : left.isBelow solver.numStates = true)
    (found : solver.boundedUntil left right (steps + 1) = .ok computed) :
    solver.WellPosed left right := by
  obtain ⟨rightBelow, ready, -⟩ := boundedUntil_inversion found
  refine ⟨?_, sized, leftBelow, rightBelow⟩
  intro state inside inLeft notRight branch member
  refine Bellman.isBelow_of_ready (ready steps.succ_pos)
    (by simp [inLeft, notRight]) ?_ member
  rcases opposes state inside with directed | single
  · left
    change solver.directions.getD state none ≠ none
    simp [directed]
  · exact .inr single

/-- What a bounded query for the complement finds. -/
theorem one_sub_boundedUntil {steps : Nat} {computed : Computed ℚ}
    (table : solver.table = .ofModel m) (stochastic : m.Stochastic)
    (opposes : solver.Opposes owner)
    (sized : solver.directions.size = solver.numStates)
    (found : solver.boundedUntil (.full m.numStates)
      (inner.complement m.numStates) steps = .ok computed) :
    computed.values.map (1 - ·) =
      (Array.range m.numStates).map (m.staying owner inner steps) := by
  have states := numStates_of_table table
  have all : ∀ state, state < m.numStates →
      (BitSet.full m.numStates).contains state = true := by
    intro state inside
    simpa using inside
  have outer : ∀ state, state < m.numStates →
      (inner.complement m.numStates).contains state =
        !inner.contains state := by
    intro state inside
    simp [inside]
  have entry : ∀ state, state < m.numStates →
      1 - solver.untilValue (.full m.numStates) (inner.complement m.numStates)
        steps state = m.staying owner inner steps state := by
    intro state inside
    cases steps with
    | zero => exact one_sub_untilValue_zero table outer inside
    | succ steps =>
        have posed := wellPosed_of_boundedUntil opposes sized
          (by simp [BitSet.isBelow_iff, states]) found
        have query : solver.Query (.full m.numStates)
            (inner.complement m.numStates) :=
          { posed with
            weights := table ▸ stochastic.nonNegative
            undirected := fun _ inside => opposes.undirected inside }
        exact query.one_sub_untilValue table stochastic opposes all outer _
          inside
  rw [(boundedUntil_inversion found).2.2]
  apply Array.ext_getElem?
  intro state
  by_cases inside : state < m.numStates
  · simp [← entry state inside, inside, untilValue, states]
  · simp [inside, states]

end Complement

end Solver

/-! ## Checkers -/

/-- A query that keeps the choices of its steps finds what one without does. -/
theorem Solver.boundedUntil_of_recordedUntil {R : Type} [Scalar R]
    {s : Solver R} {left right : BitSet} {steps : Nat} {computed : Computed R}
    {actions : List (List Nat)}
    (found : s.recordedUntil left right steps = .ok (computed, actions)) :
    s.boundedUntil left right steps = .ok computed := by
  have room : steps ≤ Word.maxWords := by
    obtain ⟨start, -, ran⟩ := Attempt.bind_eq_ok.mp found
    obtain ⟨result, recorded, -⟩ := Attempt.bind_eq_ok.mp ran
    exact of_decide_eq_true (Attempt.require_bind_eq_ok.mp recorded).1
  rw [s.recordedUntil_eq left right room] at found
  cases bounded : s.boundedUntil left right steps with
  | error failure =>
      rw [bounded] at found
      cases found
  | ok plain =>
      rw [bounded] at found
      cases found
      rfl

namespace Checker

private theorem exists_of_map_eq_ok {α β ε : Type} {attempt : Except ε α}
    {f : α → β} {result : β} (mapped : attempt.map f = .ok result) :
    ∃ value, attempt = .ok value := by
  cases attempt with
  | error failure => cases mapped
  | ok value => exact ⟨value, rfl⟩

theorem values_withStrategy {R : Type} {computed result : Computed R}
    {actions : List (List Nat)} {steps : Nat}
    (made : withStrategy computed actions steps = .ok result) :
    result.values = computed.values := by
  unfold withStrategy at made
  split at made
  · cases made
  · cases made
    rfl

/-- A checker answers bounded queries about a model by the values of a solver,
and does answer them if a strategy that it is to make can be laid out. -/
structure Answers (c : Checker ℚ) (m : Model ℚ) (objective : Option Direction)
    (solver : Solver ℚ) : Prop where
  table : solver.table = .ofModel m
  sized : solver.directions.size = solver.numStates
  values : ∀ {left right bound computed}, CountsSteps bound →
    c.holdsUntil m objective left right (some bound) = .ok computed →
    ∃ plain, solver.boundedUntil left right (Scalar.toNat bound) = .ok plain ∧
      computed.values = plain.values
  returns : ∀ {left right bound plain}, CountsSteps bound →
    (c.options.generateStrategy = true →
      Scalar.toNat bound ≤ Word.maxWords ∧
      ∀ state, ((Table.ofModel m).branches state).length ≤ Word.signedLimit) →
    solver.boundedUntil left right (Scalar.toNat bound) = .ok plain →
    ∃ computed, c.holdsUntil m objective left right (some bound) = .ok computed

section Answering

variable (options : Options ℚ) {m : Model ℚ} (accepted : m.NonNegative)

include accepted

theorem answers_dtmc (objective : Option Direction) :
    Answers (dtmc options) m objective (chainSolver options (.ofModel m)) where
  table := rfl
  sized := by simp [chainSolver, Solver.numStates]
  values {left right bound computed} counts found := by
    simp only [dtmc, Table.read_eq_ok accepted, counts.stepBound_eq_ok,
      Attempt.ok_bind] at found
    exact ⟨computed, found, rfl⟩
  returns {left right bound plain} counts _ found := by
    simp only [dtmc, Table.read_eq_ok accepted, counts.stepBound_eq_ok,
      Attempt.ok_bind]
    exact ⟨plain, found⟩

theorem answers_mdp (direction : Direction) :
    Answers (mdp options) m (some direction)
      (objectiveSolver options m (.ofModel m) direction) where
  table := rfl
  sized := by simp [objectiveSolver, directions, Solver.numStates]
  values {left right bound computed} counts found := by
    simp only [mdp, requireDirection, pure_bind, Table.read_eq_ok accepted,
      counts.stepBound_eq_ok, Attempt.ok_bind] at found
    split at found
    · obtain ⟨⟨plain, actions⟩, recorded, made⟩ := Attempt.bind_eq_ok.mp found
      exact ⟨plain, Solver.boundedUntil_of_recordedUntil recorded,
        values_withStrategy made⟩
    · exact ⟨computed, found, rfl⟩
  returns {left right bound plain} counts roomy found := by
    simp only [mdp, requireDirection, pure_bind, Table.read_eq_ok accepted,
      counts.stepBound_eq_ok, Attempt.ok_bind]
    split
    · rename_i recording
      obtain ⟨asked, positive⟩ := Bool.and_eq_true_iff.mp recording
      obtain ⟨room, small⟩ := roomy asked
      have same := withStrategy_findings
        (s := objectiveSolver options m (.ofModel m) direction) small left right
        room (of_decide_eq_true positive)
      rw [found] at same
      exact exists_of_map_eq_ok same
    · exact ⟨plain, found⟩

theorem answers_stpg (direction : Direction) :
    Answers (stpg options) m (some direction)
      (objectiveSolver options m (.ofModel m) direction) where
  table := rfl
  sized := by simp [objectiveSolver, directions, Solver.numStates]
  values {left right bound computed} counts found := by
    simp only [stpg, counts.mapM_stepBound_eq_ok, requireDirection, pure_bind,
      Table.read_eq_ok accepted, Attempt.ok_bind] at found
    exact ⟨computed, found, rfl⟩
  returns {left right bound plain} counts _ found := by
    simp only [stpg, counts.mapM_stepBound_eq_ok, requireDirection, pure_bind,
      Table.read_eq_ok accepted, Attempt.ok_bind]
    exact ⟨plain, found⟩

end Answering

/-- The checkers of discrete time on their models, with the directions of the
owners of the states.  In a chain it does not matter who owns a state. -/
inductive Resolves (options : Options ℚ) (m : Model ℚ) :
    Checker ℚ → Option Direction → (Nat → Direction) → Prop
  | chain (forced : m.Forced) (objective : Option Direction)
      (owner : Nat → Direction) : Resolves options m (dtmc options) objective owner
  | process (kind : m.kind = .mdp) (direction : Direction) :
      Resolves options m (mdp options) (some direction) fun _ => direction
  | game (kind : m.kind = .stpg) (direction : Direction) :
      Resolves options m (stpg options) (some direction) fun state =>
        if m.player state = .two then direction.flip else direction

/-- Flipping the objective turns every choice against its owner. -/
theorem Resolves.exists_solver {options : Options ℚ} {m : Model ℚ}
    {c : Checker ℚ} {objective : Option Direction} {owner : Nat → Direction}
    (resolves : Resolves options m c objective owner)
    (accepted : m.NonNegative) :
    c.options = options ∧
    ∃ solver, Answers c m (objective.map Direction.flip) solver ∧
      solver.Opposes owner := by
  cases resolves with
  | chain forced =>
      refine ⟨rfl, _, answers_dtmc options accepted _, ?_⟩
      intro state _
      exact .inr (Table.forced_ofModel forced state)
  | process kind direction =>
      refine ⟨rfl, _, answers_mdp options accepted direction.flip, ?_⟩
      intro state inside
      rw [numStates_objectiveSolver] at inside
      left
      simp [objectiveSolver, directions, inside, kind]
  | game kind direction =>
      refine ⟨rfl, _, answers_stpg options accepted direction.flip, ?_⟩
      intro state inside
      rw [numStates_objectiveSolver] at inside
      left
      cases player : m.player state <;>
        simp [objectiveSolver, directions, inside, kind, player]

theorem countsSteps_natCast (k : Nat) : CountsSteps (k : ℚ) := by
  simp [CountsSteps, Scalar.isFinite, Scalar.isWhole]

theorem toNat_natCast (k : Nat) :
    Scalar.toNat (k : ℚ) = min k (Word.limit - 1) := by
  change min ⌊(k : ℚ)⌋.toNat (Word.limit - 1) = _
  rw [Int.floor_natCast, Int.toNat_natCast]

theorem Answers.wellPosed {c : Checker ℚ} {m : Model ℚ}
    {objective : Option Direction} {solver : Solver ℚ}
    (answers : Answers c m objective solver) (closed : m.Closed)
    (inner : BitSet) :
    solver.WellPosed (.full m.numStates) (inner.complement m.numStates) := by
  have states := Solver.numStates_of_table answers.table
  refine ⟨?_, answers.sized, ?_, ?_⟩
  · intro state inside _ _ branch member
    rw [states] at inside ⊢
    rw [answers.table, Table.branches_ofModel inside] at member
    obtain ⟨choice, listed, rfl⟩ := List.mem_map.mp member
    obtain ⟨index, counted, found⟩ := List.mem_filterMap.mp listed
    apply List.all_eq_true.mpr
    intro entry entryMember
    exact decide_eq_true (closed state inside index (List.mem_range.mp counted)
      choice found entry.1 (List.mem_map_of_mem entryMember))
  · simp [BitSet.isBelow_iff, states]
  · simp +contextual [BitSet.isBelow_iff, states]

section Staying

variable {options : Options ℚ} {c : Checker ℚ} {i : Interpretation ℚ}
variable {objective : Option Direction} {owner : Nat → Direction}
variable {inner : StateFormula} {members : BitSet}

/-- A number of steps beyond the largest index is cut off. -/
theorem values_globally (resolves : Resolves options i.model c objective owner)
    (stochastic : i.model.Stochastic)
    (satisfied : i.satisfying inner = .ok members) {k : Nat}
    {computed : Computed ℚ}
    (found : c.pathValues i objective (.globally inner (some (k : ℚ))) =
      .ok computed) :
    computed.values = (Array.range i.model.numStates).map
      (i.model.staying owner members (min k (Word.limit - 1))) := by
  obtain ⟨-, solver, answers, opposes⟩ :=
    resolves.exists_solver stochastic.accepted
  simp only [pathValues, satisfied, Attempt.ok_bind] at found
  obtain ⟨reached, ran, done⟩ := Attempt.bind_eq_ok.mp found
  cases done
  obtain ⟨plain, bounded, values⟩ := answers.values (countsSteps_natCast k) ran
  rw [toNat_natCast] at bounded
  exact values ▸ Solver.one_sub_boundedUntil answers.table stochastic opposes
    answers.sized bounded

theorem exists_globally (resolves : Resolves options i.model c objective owner)
    (stochastic : i.model.Stochastic)
    (satisfied : i.satisfying inner = .ok members) {k : Nat}
    (closed : i.model.Closed)
    (roomy : options.generateStrategy = true → k ≤ Word.maxWords ∧
      ∀ state, state < i.model.numStates →
        i.model.numChoices state ≤ Word.signedLimit) :
    ∃ computed, c.pathValues i objective
      (.globally inner (some (k : ℚ))) = .ok computed := by
  obtain ⟨same, solver, answers, -⟩ :=
    resolves.exists_solver stochastic.accepted
  have posed := answers.wellPosed closed members
  obtain ⟨reached, ran⟩ := answers.returns (countsSteps_natCast k) (by
    intro asked
    rw [same] at asked
    obtain ⟨room, small⟩ := roomy asked
    refine ⟨?_, Table.length_branches_ofModel_le small⟩
    rw [toNat_natCast]
    exact (min_le_left _ _).trans room) (posed.boundedUntil_eq_ok _)
  simp only [pathValues, satisfied, Attempt.ok_bind, ran]
  exact ⟨_, rfl⟩

/-- The values of staying in a set for a number of steps that is an index are the
probabilities of staying, for every kind of model in discrete time.  There are
values if all successors are states and a strategy that is asked for can be laid
out.  They are between zero and one and do not increase with the number of
steps. -/
theorem globally_eq_staying
    (resolves : Resolves options i.model c objective owner)
    (stochastic : i.model.Stochastic)
    (satisfied : i.satisfying inner = .ok members) {k : Nat}
    (index : k < Word.limit) :
    (∀ computed,
      c.pathValues i objective (.globally inner (some (k : ℚ))) = .ok computed →
      computed.values = (Array.range i.model.numStates).map
        (i.model.staying owner members k)) ∧
    (i.model.Closed →
      (options.generateStrategy = true → k ≤ Word.maxWords ∧
        ∀ state, state < i.model.numStates →
          i.model.numChoices state ≤ Word.signedLimit) →
      ∃ computed, c.pathValues i objective
        (.globally inner (some (k : ℚ))) = .ok computed) ∧
    (∀ steps state, 0 ≤ i.model.staying owner members steps state ∧
      i.model.staying owner members steps state ≤ 1) ∧
    ∀ state, Antitone fun steps =>
      i.model.staying owner members steps state := by
  refine ⟨?_, exists_globally resolves stochastic satisfied,
    stochastic.staying_bounds, ?_⟩
  · intro computed found
    have values := values_globally resolves stochastic satisfied found
    rwa [Nat.min_eq_left (Nat.le_sub_one_of_lt index)] at values
  · intro state
    exact antitone_nat_of_succ_le fun steps =>
      stochastic.staying_succ_le steps state

end Staying

/-- A game for staying in the first two states, of which the opponent owns the
second one. -/
def tugOfWar : Model ℚ where
  kind := .stpg
  layout := .listed #[[.ofList [(0, 1 / 2), (1, 1 / 2)], .point 2],
    [.point 0, .ofList [(1, 1 / 3), (2, 2 / 3)]], [.point 2]]
  labels := ⟨[("up", .ofList [0, 1])]⟩
  players := #[.one, .two, .one]

theorem tugOfWar_eq_staying :
    tugOfWar.Stochastic ∧ tugOfWar.Closed ∧
    ∃ computed,
      (stpg ⟨true, .absolute, 1 / 1000, 100, .valueIteration, 20, true⟩).pathValues
        ⟨tugOfWar, .empty, {}⟩ (some .max)
        (.globally (.label "up") (some (2 : Nat))) = .ok computed ∧
      computed.values = #[2 / 3, 1 / 9, 0] := by
  have stochastic : tugOfWar.Stochastic :=
    ⟨by decide +kernel, by decide +kernel, by decide +kernel⟩
  have closed : tugOfWar.Closed := by decide +kernel
  obtain ⟨values, returns, -⟩ := globally_eq_staying
    (i := ⟨tugOfWar, .empty, {}⟩) (.game rfl .max) stochastic
    (show Interpretation.satisfying _ (.label "up") =
      .ok (BitSet.ofList [0, 1]) from rfl) (show 2 < Word.limit by decide)
  obtain ⟨computed, found⟩ :=
    returns closed fun _ => ⟨by decide, by decide +kernel⟩
  exact ⟨stochastic, closed, computed, found,
    (values computed found).trans (by decide +kernel)⟩

/-- A process that leaves its first state with even chances. -/
def fading : Model ℚ where
  kind := .mdp
  layout := .listed #[[.ofList [(0, 1 / 2), (1, 1 / 2)]], [.point 1]]
  labels := ⟨[("up", .ofList [0])]⟩

def fadingOptions (asked : Bool) : Options ℚ :=
  ⟨true, .absolute, 1 / 1000, 100, .valueIteration, 20, asked⟩

theorem staying_fading (owner : Nat → Direction) (steps : Nat) :
    fading.staying owner (.ofList [0]) steps 0 = (1 / 2) ^ steps := by
  have choices : fading.layout.choicesOf 0 =
      [.ofList [(0, 1 / 2), (1, 1 / 2)]] := rfl
  have up : (BitSet.ofList [0]).contains 0 = true := rfl
  have gone : ∀ steps, fading.staying owner (.ofList [0]) steps 1 = 0 := by
    intro steps
    cases steps <;> rfl
  induction steps with
  | zero => rw [Model.staying, if_pos up, pow_zero]
  | succ steps ih =>
      have worth : Branch.expect [(0, 1 / 2), (1, 1 / 2)]
          (fading.staying owner (.ofList [0]) steps) = (1 / 2) ^ (steps + 1) := by
        simp [Branch.expect, ih, gone, pow_succ, mul_comm]
      rw [Model.staying, if_pos up, choices, List.map_singleton]
      exact (Direction.optimum_eq (List.mem_singleton_self _)
        (by simp [Direction.NotWorse.refl])).trans worth

theorem staying_fading_ne (owner : Nat → Direction) {steps more : Nat}
    (less : steps < more) :
    (Array.range 2).map (fading.staying owner (.ofList [0]) steps) ≠
      (Array.range 2).map (fading.staying owner (.ofList [0]) more) := by
  intro same
  have first := congrArg (·[0]?) same
  simp only [Array.getElem?_map, Array.getElem?_range, Nat.zero_lt_two, if_pos,
    Option.map_some, staying_fading, Option.some.injEq] at first
  have smaller : ((1 : ℚ) / 2) ^ more < (1 / 2) ^ steps :=
    pow_lt_pow_right_of_lt_one₀ (by norm_num) (by norm_num) less
  exact smaller.ne' first

/-- For a number of steps beyond the largest index the values are those of fewer
steps, or there are none because a strategy was asked for. -/
theorem fading_cut_off :
    fading.Stochastic ∧ fading.Closed ∧
    (∃ computed, (mdp (fadingOptions false)).pathValues ⟨fading, .empty, {}⟩
        (some .max) (.globally (.label "up") (some (Word.limit : ℚ))) =
          .ok computed ∧
      computed.values ≠ (Array.range 2).map
        (fading.staying (fun _ => .max) (.ofList [0]) Word.limit)) ∧
    (mdp (fadingOptions true)).pathValues ⟨fading, .empty, {}⟩ (some .max)
      (.globally (.label "up") (some (Word.limit : ℚ))) = Attempt.breach := by
  have stochastic : fading.Stochastic :=
    ⟨by decide +kernel, by decide +kernel, by decide +kernel⟩
  have closed : fading.Closed := by decide +kernel
  have satisfied : Interpretation.satisfying ⟨fading, .empty, {}⟩
      (.label "up") = .ok (BitSet.ofList [0]) := rfl
  have resolves : Resolves (fadingOptions false) fading
      (mdp (fadingOptions false)) (some .max) fun _ => .max :=
    .process rfl .max
  refine ⟨stochastic, closed, ?_, ?_⟩
  · obtain ⟨computed, found⟩ := exists_globally (i := ⟨fading, .empty, {}⟩)
      (k := Word.limit) resolves stochastic satisfied closed nofun
    refine ⟨computed, found, ?_⟩
    rw [values_globally resolves stochastic satisfied found]
    exact staying_fading_ne _ (by decide)
  · have counts := countsSteps_natCast Word.limit
    simp only [pathValues, satisfied, Attempt.ok_bind, mdp, requireDirection,
      Option.map_some, pure_bind, Table.read_eq_ok stochastic.accepted,
      counts.stepBound_eq_ok, toNat_natCast]
    rfl

end Checker

end Markov
