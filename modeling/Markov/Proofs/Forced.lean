import Markov.Proofs.Layout
import Markov.Proofs.Methods
import Markov.Proofs.Synthesis
import Markov.Proofs.Validation

/-!
# Models without choice

Where no state has more than one choice there is nothing to resolve.  Graph
analysis, backups and iterations then give the same whatever directions they
are told, operation by operation and without any laws of arithmetic.  So all
checkers of discrete time answer alike, and so do the two checkers of
continuous time.
-/

namespace Markov

variable {R : Type} [Scalar R]

/-- No state has more than one choice. -/
def Table.Forced (t : Table R) : Prop :=
  ∀ state, (t.branches state).length ≤ 1

/-- No state has more than one choice. -/
def Model.Forced (m : Model R) : Prop :=
  ∀ state, state < m.numStates → m.numChoices state ≤ 1

instance (m : Model R) : Decidable m.Forced :=
  inferInstanceAs (Decidable (∀ state, state < _ → _ ≤ 1))

namespace Table

variable {t : Table R}

omit [Scalar R] in
theorem Forced.branches_cases (forced : t.Forced) (state : Nat) :
    t.branches state = [] ∨ ∃ branch, t.branches state = [branch] := by
  have length := forced state
  rcases Nat.le_one_iff_eq_zero_or_eq_one.mp length with zero | one
  · exact .inl (List.length_eq_zero_iff.mp zero)
  · exact .inr (List.length_eq_one_iff.mp one)

theorem length_branches_ofModel_le {m : Model R} {limit : Nat}
    (within : ∀ state, state < m.numStates → m.numChoices state ≤ limit)
    (state : Nat) : ((ofModel m).branches state).length ≤ limit := by
  by_cases inside : state < m.numStates
  · rw [branches_ofModel inside, List.length_map]
    calc (m.layout.choicesOf state).length
        ≤ (List.range (m.layout.numChoices state)).length :=
          List.length_filterMap_le _ _
      _ = m.numChoices state := List.length_range
      _ ≤ limit := within state inside
  · simp [branches, ofModel, inside]

theorem forced_ofModel {m : Model R} (forced : m.Forced) :
    (ofModel m).Forced :=
  length_branches_ofModel_le forced

omit [Scalar R] in
theorem Forced.mapIdx (forced : t.Forced)
    (change : Nat → Branch R → Branch R) :
    (Table.mk (t.rows.mapIdx fun state row =>
      row.map (change state))).Forced := by
  intro state
  have length := forced state
  simp only [branches, Array.getD_eq_getD_getElem?,
    Array.getElem?_mapIdx] at length ⊢
  cases row : t.rows[state]? with
  | none => simp
  | some branches => simpa [row] using length

theorem Forced.embedded (forced : t.Forced) : t.embedded.Forced :=
  forced.mapIdx Branch.embedded

theorem Forced.uniformised (forced : t.Forced) (q : R) :
    (t.uniformised q).Forced :=
  forced.mapIdx (Branch.uniformised q)

end Table

/-! ## Graph analysis -/

namespace Table

variable {t : Table R} (dirs others : Array (Option Direction))

omit [Scalar R] in
/-- A single choice qualifies in either sense or in none. -/
theorem Forced.qualifies_eq (forced : t.Forced) (state : Nat)
    (direction other : Option Direction) (good : Branch R → Bool) :
    qualifies (t.branches state) direction good =
      qualifies (t.branches state) other good := by
  rcases forced.branches_cases state with none | ⟨branch, single⟩
  · simp [none, qualifies]
  · simp [single, qualifies]

theorem Forced.zeroSet_eq (forced : t.Forced) (left right : BitSet) :
    t.zeroSet dirs left right = t.zeroSet others left right := by
  have rounds : t.growReach dirs left = t.growReach others left := by
    funext reach
    simp only [growReach, forced.qualifies_eq _ (dirs.getD _ none) none,
      forced.qualifies_eq _ (others.getD _ none) none]
  simp only [zeroSet, reach?, rounds]

/-- Folds agree whose steps agree on what they come across. -/
theorem foldl_eq_of_kept {α β : Type} {f g : β → α → β}
    (kept : β → Prop) {entries : List α}
    (same : ∀ found, ∀ entry ∈ entries, kept found →
      f found entry = g found entry ∧ kept (f found entry))
    {start : β} (initial : kept start) :
    entries.foldl f start = entries.foldl g start ∧
      kept (entries.foldl f start) := by
  induction entries generalizing start with
  | nil => exact ⟨rfl, initial⟩
  | cons entry entries ih =>
      obtain ⟨equal, after⟩ := same start entry List.mem_cons_self initial
      simpa only [List.foldl_cons, ← equal] using ih
        (fun found later member => same found later
          (List.mem_cons_of_mem _ member)) after

/-- No choice but the first one has been noted. -/
def Plain (t : Table R) (found : Witnessed) : Prop :=
  found.witness = Array.replicate t.numStates 0

/-- With a single choice, what a minimising state does not note and another one
does is the first choice, which stands there from the start. -/
theorem Forced.growSure_eq (forced : t.Forced) (left u : BitSet)
    {found : Witnessed} (plain : t.Plain found) :
    t.growSure dirs left u found = t.growSure others left u found ∧
      t.Plain (t.growSure dirs left u found) := by
  apply foldl_eq_of_kept t.Plain _ plain
  intro found state _ plain
  -- To note the first choice changes nothing while no other one is noted.
  have noted : found.witness.setIfInBounds state 0 = found.witness := by
    rw [plain, Array.setIfInBounds_replicate_self]
  split
  · exact ⟨rfl, plain⟩
  · rcases forced.branches_cases state with empty | ⟨branch, single⟩
    · simp [empty, plain]
    · cases good : staysAndHits u found.states branch with
      | false => simp [single, good, plain]
      | true =>
          simp only [single, List.findIdx?_singleton, good, if_true, noted,
            List.isEmpty_cons, Bool.not_false, List.all_cons, List.all_nil,
            Bool.and_self, ite_self]
          exact ⟨trivial, plain⟩

/-- Repeated rounds agree that agree on what they come across. -/
private theorem stabilise_eq_of_kept {α : Type} {round other : α → α}
    (set : α → BitSet) (kept : α → Prop)
    (same : ∀ current, kept current →
      round current = other current ∧ kept (round current))
    (fuel : Nat) {start : α} (initial : kept start) :
    stabilise round set fuel start = stabilise other set fuel start ∧
      ∀ last ∈ stabilise round set fuel start, kept last := by
  induction fuel generalizing start with
  | zero => simp [stabilise]
  | succ fuel ih =>
      obtain ⟨equal, after⟩ := same start initial
      simp only [stabilise, ← equal]
      split
      · simpa using after
      · exact ih after

theorem Forced.shrinkSure_eq (forced : t.Forced) (left right : BitSet)
    {found : Witnessed} (plain : t.Plain found) :
    t.shrinkSure dirs left right found = t.shrinkSure others left right found ∧
      t.Plain (t.shrinkSure dirs left right found) := by
  have start : t.Plain ⟨right, found.witness⟩ := plain
  obtain ⟨equal, kept⟩ := stabilise_eq_of_kept Witnessed.states t.Plain
    (fun _ => forced.growSure_eq dirs others left found.states)
    (t.numStates + 1) start
  refine ⟨?_, ?_⟩
  · simp only [shrinkSure, sureWithin?, equal]
  · unfold shrinkSure
    cases last : t.sureWithin? dirs left right found.states found.witness
        (t.numStates + 1) with
    | none => exact start
    | some result => exact kept result last

theorem Forced.oneSet_eq (forced : t.Forced) (left right : BitSet) :
    t.oneSet dirs left right = t.oneSet others left right := by
  have start : t.Plain ⟨.full t.numStates, Array.replicate t.numStates 0⟩ := rfl
  obtain ⟨equal, -⟩ := stabilise_eq_of_kept Witnessed.states t.Plain
    (fun _ => forced.shrinkSure_eq dirs others left right)
    (t.numStates + 2) start
  simp only [oneSet, sure?, equal]

section Checked

variable {ε : Type} {dirs others} (forced : t.Forced)
variable (sizes : dirs.size = others.size) (left right : BitSet)

omit [Scalar R] in
include sizes in
theorem knowsDirections_eq :
    t.knowsDirections dirs left right = t.knowsDirections others left right := by
  simp only [knowsDirections, sizes]

include forced sizes

theorem Forced.checkedZeroSet_eq :
    (t.checkedZeroSet dirs left right : Attempt ε BitSet) =
      t.checkedZeroSet others left right := by
  simp only [checkedZeroSet, knowsDirections_eq sizes,
    forced.zeroSet_eq dirs others]

theorem Forced.checkedOneSet_eq :
    (t.checkedOneSet dirs left right : Attempt ε Witnessed) =
      t.checkedOneSet others left right := by
  simp only [checkedOneSet, knowsDirections_eq sizes,
    forced.oneSet_eq dirs others]

end Checked

end Table

/-! ## Backups and iterations -/

namespace Bellman

/-- The same equations in other directions. -/
def redirect (b : Bellman R) (dirs : Array (Option Direction)) : Bellman R :=
  { b with directions := dirs }

theorem best_of_single {b : Bellman R} {state : Nat} {branch : Branch R}
    (single : b.table.branches state = [branch]) (x : Array R) :
    b.best state x = some (b.branchValue state 0 branch x, 0) := by
  unfold best
  rw [single]
  cases b.direction state with
  | none => rfl
  | some direction => rfl

section Redirected

variable {b : Bellman R} (forced : b.table.Forced)
variable (dirs : Array (Option Direction))

include forced

theorem best_redirect : (b.redirect dirs).best = b.best := by
  funext state x
  rcases forced.branches_cases state with empty | ⟨branch, single⟩
  · rw [best_eq_none_iff.mpr empty]
    exact best_eq_none_iff.mpr empty
  · have redirected : (b.redirect dirs).table.branches state = [branch] := single
    rw [best_of_single single, best_of_single redirected]
    rfl

theorem writeBest_redirect : (b.redirect dirs).writeBest = b.writeBest := by
  funext x states room
  simp only [writeBest, best_redirect forced dirs]

theorem step_redirect : (b.redirect dirs).step = b.step := by
  funext states buffers
  simp only [step, writeBest_redirect forced dirs]

theorem bounded_redirect : (b.redirect dirs).bounded = b.bounded := by
  have steps : (b.redirect dirs).steps = b.steps := by
    funext states count buffers
    induction count generalizing buffers with
    | zero => rfl
    | succ count ih => simp only [Bellman.steps, step_redirect forced dirs, ih]
  funext unknown count x
  simp only [bounded, steps]

theorem inPlaceSweep_redirect :
    (b.redirect dirs).inPlaceSweep = b.inPlaceSweep := by
  funext states x
  simp only [inPlaceSweep, best_redirect forced dirs]
  rfl

variable {dirs} (sizes : dirs.size = b.directions.size)

include sizes

omit [Scalar R] in
theorem bestReady_redirect : (b.redirect dirs).bestReady = b.bestReady := by
  funext size state
  have length := forced state
  simp only [bestReady, redirect, direction]
  cases row : b.table.rows[state]? with
  | none => rfl
  | some branches =>
      have short : branches.length ≤ 1 := by
        simpa [Table.branches, row] using length
      cases branches with
      | nil => rfl
      | cons branch rest =>
          obtain rfl : rest = [] := by simpa using short
          simp only [sizes, List.zipIdx_nil, List.all_nil, Bool.or_true]
          rfl

omit [Scalar R] in
theorem ready_redirect : (b.redirect dirs).ready = b.ready := by
  funext unknown size
  have steps : (b.redirect dirs).stepReady = b.stepReady := by
    funext size state
    simp only [stepReady, bestReady_redirect forced sizes]
    rfl
  simp only [ready, steps]

theorem checkedBounded_redirect {ε : Type} (unknown : BitSet) (count : Nat)
    (x : Array R) :
    ((b.redirect dirs).checkedBounded unknown count x : Attempt ε (Array R)) =
      b.checkedBounded unknown count x := by
  simp only [checkedBounded, ready_redirect forced sizes,
    bounded_redirect forced dirs]

theorem valueIteration_redirect :
    (b.redirect dirs).valueIteration = b.valueIteration := by
  have sweep : (b.redirect dirs).stepSweep = b.stepSweep := by
    funext states buffers
    simp only [stepSweep, step_redirect forced dirs]
    rfl
  funext unknown x
  simp only [valueIteration, sweep, ready_redirect forced sizes]
  rfl

theorem gaussSeidel_redirect :
    (b.redirect dirs).gaussSeidel = b.gaussSeidel := by
  funext unknown x
  simp only [gaussSeidel, inPlaceSweep_redirect forced dirs,
    ready_redirect forced sizes]
  rfl

/-- Iterations do not look at directions but for the best choices.  A policy to
start with is evaluated in any direction alike. -/
theorem solve_redirect (iterative : b.options.method.isIterative = true) :
    (b.redirect dirs).solve = b.solve := by
  funext unknown x seed
  unfold solve
  have options : (b.redirect dirs).options = b.options := rfl
  rw [options]
  cases method : b.options.method with
  | valueIteration =>
      simp only [valueIteration_redirect forced sizes]
      rfl
  | gaussSeidel =>
      simp only [gaussSeidel_redirect forced sizes]
      rfl
  | policyIteration => simp [method, Method.isIterative] at iterative
  | modifiedPolicyIteration => simp [method, Method.isIterative] at iterative

theorem transient_redirect {ε : Type} (unknown target : BitSet)
    (weights : List R) :
    ((b.redirect dirs).transient unknown target weights : Attempt ε _) =
      b.transient unknown target weights := by
  have back : (b.redirect dirs).jumpBack = b.jumpBack := by
    funext unknown target tail buffers
    simp only [jumpBack, writeBest_redirect forced dirs]
  have jumps : (b.redirect dirs).jumpsBack = b.jumpsBack := by
    funext unknown target tail buffers weights
    induction weights generalizing tail buffers with
    | nil => rfl
    | cons weight rest ih => simp only [jumpsBack, back, ih]
  have within : (b.redirect dirs).reachWithin = b.reachWithin := by
    funext unknown target weights
    cases weights with
    | nil => rfl
    | cons last earlier =>
        simp only [reachWithin, jumps]
        rfl
  simp only [transient, within, ready_redirect forced sizes]
  rfl

end Redirected

end Bellman

namespace Solver

/-- The same table in other directions. -/
def redirect (s : Solver R) (dirs : Array (Option Direction)) : Solver R :=
  { s with directions := dirs }

section Redirected

variable {s : Solver R} (forced : s.table.Forced)
variable {dirs : Array (Option Direction)}
variable (sizes : dirs.size = s.directions.size)

omit [Scalar R] in
theorem bellman_redirect (rewards : Option (StepRewards R)) :
    (s.redirect dirs).bellman rewards = (s.bellman rewards).redirect dirs :=
  rfl

omit [Scalar R] in
theorem numStates_redirect : (s.redirect dirs).numStates = s.numStates := rfl

include forced sizes

theorem next_redirect : (s.redirect dirs).next = s.next := by
  have table : (s.bellman none).table.Forced := forced
  have sized : dirs.size = (s.bellman none).directions.size := sizes
  have values : ((s.bellman none).redirect dirs).bestValue =
      (s.bellman none).bestValue := by
    funext state x old
    simp only [Bellman.bestValue, Bellman.best_redirect table dirs]
  funext target
  simp only [next, bellman_redirect, numStates_redirect, values,
    Bellman.bestReady_redirect table sized]

theorem boundedUntil_redirect :
    (s.redirect dirs).boundedUntil = s.boundedUntil := by
  have table : (s.bellman none).table.Forced := forced
  have sized : dirs.size = (s.bellman none).directions.size := sizes
  funext left right steps
  simp only [boundedUntil, bellman_redirect, numStates_redirect,
    Bellman.checkedBounded_redirect table sized]

theorem cumulativeReward_redirect :
    (s.redirect dirs).cumulativeReward = s.cumulativeReward := by
  funext rewards steps
  have table : (s.bellman (some rewards)).table.Forced := forced
  have sized : dirs.size = (s.bellman (some rewards)).directions.size := sizes
  simp only [cumulativeReward, bellman_redirect, numStates_redirect,
    Bellman.checkedBounded_redirect table sized]

theorem solve_redirect (iterative : s.options.method.isIterative = true) :
    (s.redirect dirs).solve = s.solve := by
  funext rewards unknown x seed
  have table : (s.bellman rewards).table.Forced := forced
  have sized : dirs.size = (s.bellman rewards).directions.size := sizes
  simp only [solve, bellman_redirect,
    Bellman.solve_redirect table sized iterative]

theorem holdsUntil_redirect (iterative : s.options.method.isIterative = true) :
    (s.redirect dirs).holdsUntil = s.holdsUntil := by
  have decided : (s.redirect dirs).decided = s.decided := by
    funext left right
    simp only [Solver.decided, redirect,
      Table.Forced.checkedZeroSet_eq forced sizes,
      Table.Forced.checkedOneSet_eq forced sizes]
    rfl
  funext left right
  simp only [holdsUntil, numStates_redirect, decided,
    solve_redirect forced sizes iterative]

theorem reachReward_redirect (iterative : s.options.method.isIterative = true) :
    (s.redirect dirs).reachReward = s.reachReward := by
  -- The states that reach the target for sure are found in flipped directions,
  -- and the policy to start with is part of what is found there.
  have flipped : (dirs.map (·.map Direction.flip)).size =
      (s.directions.map (·.map Direction.flip)).size := by
    simp [sizes]
  have sure := fun target => Table.Forced.checkedOneSet_eq (ε := CheckError R)
    forced flipped (.full s.numStates) target
  funext rewards target
  simp only [reachReward, numStates_redirect,
    solve_redirect forced sizes iterative]
  simp only [redirect, sure]
  rfl

end Redirected

end Solver

/-- What was found, apart from a strategy. -/
def Computed.findings (computed : Computed R) : Array R × Stats R :=
  (computed.values, computed.stats)

/-- A query that keeps the choices of its steps finds the same as one that does
not, as long as the choices can be laid out. -/
theorem Solver.recordedUntil_eq (s : Solver R) (left right : BitSet)
    {steps : Nat} (room : steps ≤ Word.maxWords) :
    s.recordedUntil left right steps =
      (s.boundedUntil left right steps).map fun computed =>
        (computed, (s.bellman none).actions (left \ right) steps
          (indicator right s.numStates)) := by
  have recorded : ∀ x, ((s.bellman none).recorded (left \ right) steps x :
      Attempt (CheckError R) _) =
      ((s.bellman none).checkedBounded (left \ right) steps x).map fun values =>
        (values, (s.bellman none).actions (left \ right) steps x) := by
    intro x
    simp only [Bellman.recorded, room, decide_true, Attempt.require_true,
      Attempt.ok_bind]
    cases (s.bellman none).checkedBounded (left \ right) steps x <;> rfl
  unfold recordedUntil boundedUntil
  cases started : (checkedIndicator right s.numStates :
      Attempt (CheckError R) (Array R)) with
  | error failure => rfl
  | ok start =>
      obtain ⟨-, rfl⟩ := checkedIndicator_eq_ok started
      simp only [Attempt.ok_bind, recorded]
      cases (s.bellman none).checkedBounded (left \ right) steps
        (indicator right s.numStates) <;> rfl

namespace Checker

theorem withStrategy_findings {s : Solver R}
    (small : ∀ state, (s.table.branches state).length ≤ Word.signedLimit)
    (left right : BitSet) {steps : Nat} (room : steps ≤ Word.maxWords)
    (positive : 0 < steps) :
    (do
      let (computed, actions) ← s.recordedUntil left right steps
      withStrategy computed actions steps).map Computed.findings =
    (s.boundedUntil left right steps).map Computed.findings := by
  rw [s.recordedUntil_eq left right room]
  cases s.boundedUntil left right steps with
  | error failure => rfl
  | ok computed =>
      have words : ∀ row ∈ (s.bellman none).actions (left \ right) steps
          (indicator right s.numStates), ∀ action ∈ row,
          action < Word.signedLimit := fun row member action taken =>
        Bellman.lt_of_mem_actions (by decide) small member taken
      obtain ⟨strategy, made, -⟩ := withStrategy_eq_ok computed positive
        (room.trans_lt (by decide))
        (fun row member => Bellman.length_of_mem_actions member) words
      change (withStrategy computed _ steps).map Computed.findings = _
      rw [made]
      rfl

/-- A bound that is a number of steps. -/
def CountsSteps (bound : R) : Prop :=
  (Scalar.isFinite bound && 0 ≤ bound && Scalar.isWhole bound) = true

instance (bound : R) : Decidable (CountsSteps bound) :=
  inferInstanceAs (Decidable (_ = true))

theorem CountsSteps.stepBound_eq_ok {bound : R} (counts : CountsSteps bound)
    (kind : ModelKind) :
    stepBound kind bound = .ok (Scalar.toNat bound) := by
  have holds : (Scalar.isFinite bound && 0 ≤ bound && Scalar.isWhole bound) =
      true := counts
  unfold stepBound
  rw [if_pos holds]
  rfl

theorem CountsSteps.mapM_stepBound_eq_ok {bound : R} (counts : CountsSteps bound)
    (kind : ModelKind) :
    (some bound).mapM (stepBound kind) = .ok (some (Scalar.toNat bound)) := by
  simp only [Option.mapM_some, counts.stepBound_eq_ok]
  rfl

/-- A question to a checker: the kind of models that the checker is for, the
model that it is given, and the objective. -/
structure Query (R : Type) where
  kind : ModelKind
  model : Model R
  objective : Option Direction

/-- The question is about the transitions of a model, and has an objective if
its checker needs one.  The owners of the states are any. -/
structure Query.About (q : Query R) (m : Model R) : Prop where
  layout : q.model.layout = m.layout
  directed : Directed q.kind q.objective

namespace Query

/-- The checker that is asked. -/
def checker {R : Type} [Analytic R] (q : Query R) (options : Options R) :
    Checker R :=
  ofKind q.kind options

/-- A strategy that the checker is to make can be laid out. -/
def Roomy (q : Query R) (options : Options R) (bound : R) : Prop :=
  q.kind = .mdp → options.generateStrategy = true →
    Scalar.toNat bound ≤ Word.maxWords

end Query

section Layouts

variable {given m : Model R}

theorem read_congr {ε : Type} (layout : given.layout = m.layout) :
    Table.read (ε := ε) given = Table.read m := by
  have rows : Table.readRow (ε := ε) given = Table.readRow m := by
    funext state
    simp only [Table.readRow, Model.numChoices, layout]
  simp only [Table.read, rows, Model.numStates, layout]

omit [Scalar R] in
theorem size_directions (layout : given.layout = m.layout)
    (objective : Option Direction) :
    (directions given objective).size = m.numStates := by
  simp [directions, Model.numStates, layout]

end Layouts

section Discrete

variable {R : Type} [Analytic R] {given m : Model R}

/-- The answers of a checker of discrete time are those of a solver of the table
that is read from a model. -/
structure Query.RunsOn (q : Query R) (options : Options R) (m : Model R)
    (solver : Table R → Solver R) : Prop where
  next : ∀ target, (q.checker options).next q.model q.objective target = do
    let table ← Table.read m
    (solver table).next target
  holdsUntil : ∀ left right,
    (q.checker options).holdsUntil q.model q.objective left right none = do
      let table ← Table.read m
      (solver table).holdsUntil left right
  boundedUntil : ∀ left right bound, CountsSteps bound →
    q.Roomy options bound →
    ((q.checker options).holdsUntil q.model q.objective left right
      (some bound)).map Computed.findings = Except.map Computed.findings do
        let table ← Table.read m
        (solver table).boundedUntil left right (Scalar.toNat bound)
  reachReward : ∀ rewards target,
    (q.checker options).reachReward q.model q.objective rewards target = do
      let table ← Table.read m
      (solver table).reachReward (.perStep rewards table) target
  cumulativeReward : ∀ rewards bound, CountsSteps bound →
    (q.checker options).cumulativeReward q.model q.objective rewards bound = do
      let table ← Table.read m
      (solver table).cumulativeReward (.perStep rewards table)
        (Scalar.toNat bound)

theorem runsOn_chain (options : Options R) (layout : given.layout = m.layout)
    (objective : Option Direction) :
    Query.RunsOn ⟨.dtmc, given, objective⟩ options m (chainSolver options) := by
  have reads : Table.read (ε := CheckError R) given = Table.read m :=
    read_congr layout
  constructor
  · simp only [Query.checker, ofKind, dtmc, reads, implies_true]
  · simp only [Query.checker, ofKind, dtmc, reads, implies_true]
  · intro left right bound counts _
    simp only [Query.checker, ofKind, dtmc, reads, counts.stepBound_eq_ok,
      Attempt.ok_bind]
  · simp only [Query.checker, ofKind, dtmc, reads, implies_true]
  · intro rewards bound counts
    simp only [Query.checker, ofKind, dtmc, reads, counts.stepBound_eq_ok,
      Attempt.ok_bind]

theorem runsOn_game (options : Options R) (layout : given.layout = m.layout)
    (objective : Direction) :
    Query.RunsOn ⟨.stpg, given, some objective⟩ options m fun table =>
      objectiveSolver options given table objective := by
  have reads : Table.read (ε := CheckError R) given = Table.read m :=
    read_congr layout
  constructor
  · simp only [Query.checker, ofKind, stpg, requireDirection, pure_bind, reads,
      implies_true]
  · intro left right
    simp only [Query.checker, ofKind, stpg, requireDirection, pure_bind, reads,
      Option.mapM_none]
  · intro left right bound counts _
    simp only [Query.checker, ofKind, stpg, counts.mapM_stepBound_eq_ok,
      requireDirection, pure_bind, reads, Attempt.ok_bind]
  · simp only [Query.checker, ofKind, stpg, requireDirection, pure_bind, reads,
      implies_true]
  · intro rewards bound counts
    simp only [Query.checker, ofKind, stpg, counts.stepBound_eq_ok,
      requireDirection, pure_bind, reads, Attempt.ok_bind]

theorem runsOn_process (options : Options R) (layout : given.layout = m.layout)
    (small : ∀ state, ((Table.ofModel m).branches state).length ≤
      Word.signedLimit) (objective : Direction) :
    Query.RunsOn ⟨.mdp, given, some objective⟩ options m fun table =>
      objectiveSolver options given table objective := by
  have reads : Table.read (ε := CheckError R) given = Table.read m :=
    read_congr layout
  constructor
  · simp only [Query.checker, ofKind, mdp, requireDirection, pure_bind, reads,
      implies_true]
  · simp only [Query.checker, ofKind, mdp, requireDirection, pure_bind, reads,
      implies_true]
  · intro left right bound counts roomy
    simp only [Query.checker, ofKind, mdp, requireDirection, pure_bind, reads,
      counts.stepBound_eq_ok, Attempt.ok_bind]
    rcases Table.read_eq_ok_or_breach (ε := CheckError R) (m := m) with
      read | broken
    · simp only [read, Attempt.ok_bind]
      split
      · rename_i recording
        obtain ⟨asked, positive⟩ := Bool.and_eq_true_iff.mp recording
        exact withStrategy_findings small left right (roomy rfl asked)
          (of_decide_eq_true positive)
      · rfl
    · simp only [broken]
      rfl
  · simp only [Query.checker, ofKind, mdp, requireDirection, pure_bind, reads,
      implies_true]
  · intro rewards bound counts
    simp only [Query.checker, ofKind, mdp, counts.stepBound_eq_ok,
      requireDirection, pure_bind, reads, Attempt.ok_bind]

/-- Every checker of discrete time runs on the solver of a chain, in directions
of its own. -/
theorem exists_runsOn_redirect (options : Options R) (forced : m.Forced)
    {q : Query R} (about : q.About m)
    (discrete : q.kind.isContinuous = false) :
    ∃ dirs : Table R → Array (Option Direction),
      (dirs (.ofModel m)).size = m.numStates ∧
      q.RunsOn options m fun table =>
        (chainSolver options table).redirect (dirs table) := by
  -- The kind decides which solver is asked; owners and objective only enter its
  -- directions, and chains have none.
  obtain ⟨kind, given, objective⟩ := q
  obtain ⟨layout, directed⟩ := about
  cases kind with
  | dtmc =>
      exact ⟨fun table => Array.replicate table.numStates none, by simp,
        runsOn_chain options layout objective⟩
  | mdp =>
      obtain ⟨direction, rfl⟩ := directed rfl
      have small : ∀ state, ((Table.ofModel m).branches state).length ≤
          Word.signedLimit := fun state =>
        (Table.forced_ofModel forced state).trans (by decide)
      exact ⟨_, size_directions layout _,
        runsOn_process options layout small direction⟩
  | stpg =>
      obtain ⟨direction, rfl⟩ := directed rfl
      exact ⟨_, size_directions layout _, runsOn_game options layout direction⟩
  | ctmc => cases discrete
  | ctmdp => cases discrete

/-- Without choice the directions drop out. -/
theorem Query.About.runsOn {options : Options R}
    (iterative : options.method.isIterative = true) (forced : m.Forced)
    {q : Query R} (about : q.About m)
    (discrete : q.kind.isContinuous = false) :
    q.RunsOn options m (chainSolver options) := by
  obtain ⟨dirs, sized, runs⟩ :=
    exists_runsOn_redirect options forced about discrete
  have table : (chainSolver options (.ofModel m)).table.Forced :=
    Table.forced_ofModel forced
  have sizes : (dirs (.ofModel m)).size =
      (chainSolver options (.ofModel m)).directions.size := by
    simp [chainSolver, sized]
  have settles :
      (chainSolver options (.ofModel m)).options.method.isIterative = true :=
    iterative
  constructor
  · intro target
    rw [runs.next]
    apply Table.read_bind_congr
    rw [Solver.next_redirect table sizes]
  · intro left right
    rw [runs.holdsUntil]
    apply Table.read_bind_congr
    rw [Solver.holdsUntil_redirect table sizes settles]
  · intro left right bound counts roomy
    rw [runs.boundedUntil left right bound counts roomy]
    apply congrArg (Except.map Computed.findings)
    apply Table.read_bind_congr
    rw [Solver.boundedUntil_redirect table sizes]
  · intro rewards target
    rw [runs.reachReward]
    apply Table.read_bind_congr
    rw [Solver.reachReward_redirect table sizes settles]
  · intro rewards bound counts
    rw [runs.cumulativeReward rewards bound counts]
    apply Table.read_bind_congr
    rw [Solver.cumulativeReward_redirect table sizes]

end Discrete

section Continuous

variable {R : Type} [Analytic R] {m : Model R}

theorem timedUntil_eq {rates : Table R} (forced : rates.Forced)
    {dirs others : Array (Option Direction)}
    (sizes : dirs.size = others.size) (options : Options R)
    (left right : BitSet) (time : R) :
    timedUntil options rates dirs left right time =
      timedUntil options rates others left right time := by
  have table : (Bellman.mk (rates.uniformised (jumpRate rates)) others none
      options).table.Forced := forced.uniformised _
  have transient := Bellman.transient_redirect (ε := CheckError R) table sizes
    (left \ right) right
  simp only [timedUntil]
  split
  · rfl
  · rw [← transient]
    rfl

/-- Both checkers of continuous time answer like that of chains, where both
have a procedure. -/
theorem Query.About.eq_ctmc {options : Options R}
    (iterative : options.method.isIterative = true) (forced : m.Forced)
    {q : Query R} (about : q.About m)
    (continuous : q.kind.isContinuous = true) :
    (∀ left right bound,
      (q.checker options).holdsUntil q.model q.objective left right bound =
        (ctmc options).holdsUntil m none left right bound) ∧
    ∀ rewards target,
      (q.checker options).reachReward q.model q.objective rewards target =
        (ctmc options).reachReward m none rewards target := by
  obtain ⟨kind, given, objective⟩ := q
  obtain ⟨layout, directed⟩ := about
  have reads : Table.read (ε := CheckError R) given = Table.read m :=
    read_congr layout
  cases kind with
  | ctmc =>
      simp only [Query.checker, ofKind, ctmc, reads]
      exact ⟨fun _ _ _ => trivial, fun _ _ => trivial⟩
  | ctmdp =>
      obtain ⟨direction, rfl⟩ := directed rfl
      have rates : (Table.ofModel m).Forced := Table.forced_ofModel forced
      have sizes : (directions given (some direction)).size =
          (Array.replicate (Table.ofModel m).numStates
            (none : Option Direction)).size := by
        simp [size_directions layout]
      have jumps : (jumpChainSolver options (Table.ofModel m)).table.Forced :=
        rates.embedded
      have solver : Solver.mk (Table.ofModel m).embedded
          (directions given (some direction)) options =
          (jumpChainSolver options (Table.ofModel m)).redirect
            (directions given (some direction)) := rfl
      simp only [Query.checker, ofKind, ctmdp, ctmc, requireDirection,
        pure_bind, reads]
      refine ⟨?_, ?_⟩
      · intro left right bound
        apply Table.read_bind_congr
        cases bound with
        | none =>
            simp only [solver,
              Solver.holdsUntil_redirect jumps sizes iterative]
        | some time => simp only [timedUntil_eq rates sizes]
      · intro rewards target
        apply Table.read_bind_congr
        simp only [solver, Solver.reachReward_redirect jumps sizes iterative]
  | dtmc => cases continuous
  | mdp => cases continuous
  | stpg => cases continuous

end Continuous

/-- **Without choice, checkers agree.**  Let no state of a model have more than
one choice, and let the method be iterative.  Then the checkers of discrete time
answer every question alike, whatever the objective and the owners of the states
are: with the same values and statistics or with the same failure.  So do the
checkers of continuous time, where both have a procedure.  A checker of decision
processes that is to make a strategy needs room for the choices of all steps. -/
theorem forced_queries_agree {R : Type} [Analytic R] {m : Model R}
    (forced : m.Forced) {options : Options R}
    (iterative : options.method.isIterative = true) {q other : Query R}
    (about : q.About m) (otherAbout : other.About m) :
    (q.kind.isContinuous = false → other.kind.isContinuous = false →
      (∀ target, (q.checker options).next q.model q.objective target =
        (other.checker options).next other.model other.objective target) ∧
      (∀ left right,
        (q.checker options).holdsUntil q.model q.objective left right none =
          (other.checker options).holdsUntil other.model other.objective left
            right none) ∧
      (∀ left right bound, CountsSteps bound → q.Roomy options bound →
        other.Roomy options bound →
        ((q.checker options).holdsUntil q.model q.objective left right
          (some bound)).map Computed.findings =
          ((other.checker options).holdsUntil other.model other.objective left
            right (some bound)).map Computed.findings) ∧
      (∀ rewards target,
        (q.checker options).reachReward q.model q.objective rewards target =
          (other.checker options).reachReward other.model other.objective
            rewards target) ∧
      ∀ rewards bound, CountsSteps bound →
        (q.checker options).cumulativeReward q.model q.objective rewards bound =
          (other.checker options).cumulativeReward other.model other.objective
            rewards bound) ∧
    (q.kind.isContinuous = true → other.kind.isContinuous = true →
      (∀ left right bound,
        (q.checker options).holdsUntil q.model q.objective left right bound =
          (other.checker options).holdsUntil other.model other.objective left
            right bound) ∧
      ∀ rewards target,
        (q.checker options).reachReward q.model q.objective rewards target =
          (other.checker options).reachReward other.model other.objective
            rewards target) := by
  refine ⟨?_, ?_⟩
  · intro discrete otherDiscrete
    have runs := about.runsOn iterative forced discrete
    have others := otherAbout.runsOn iterative forced otherDiscrete
    refine ⟨?_, ?_, ?_, ?_, ?_⟩
    · intro target
      rw [runs.next, others.next]
    · intro left right
      rw [runs.holdsUntil, others.holdsUntil]
    · intro left right bound counts roomy otherRoomy
      rw [runs.boundedUntil left right bound counts roomy,
        others.boundedUntil left right bound counts otherRoomy]
    · intro rewards target
      rw [runs.reachReward, others.reachReward]
    · intro rewards bound counts
      rw [runs.cumulativeReward rewards bound counts,
        others.cumulativeReward rewards bound counts]
  · intro continuous otherContinuous
    obtain ⟨holds, reward⟩ := about.eq_ctmc iterative forced continuous
    obtain ⟨otherHolds, otherReward⟩ :=
      otherAbout.eq_ctmc iterative forced otherContinuous
    refine ⟨?_, ?_⟩
    · intro left right bound
      rw [holds, otherHolds]
    · intro rewards target
      rw [reward, otherReward]

/-- Draws until one of the last two states: the first of them goes on for ever
and the second one has no way to continue. -/
def lottery : Model Float where
  kind := .dtmc
  layout := .listed #[[.ofList [(0, 0.25), (1, 0.25), (2, 0.5)]],
    [.point 1], []]

/-- A game on the lottery.  Its players have nothing to decide. -/
def lotteryGame : Model Float :=
  { lottery with kind := .stpg, players := #[.two, .one, .two] }

def drawingOptions : Options Float :=
  ⟨true, .absolute, 0.001, 100, .gaussSeidel, 20, true⟩

theorem lottery_forced : lottery.Forced := by
  decide

theorem lottery_queries_agree :
    lottery.Forced ∧ drawingOptions.method.isIterative = true ∧
    CountsSteps (3 : Float) ∧
    ((mdp drawingOptions).holdsUntil lottery (some .max) (.full 3)
        (.ofList [1]) (some 3)).map Computed.findings =
      ((stpg drawingOptions).holdsUntil lotteryGame (some .min) (.full 3)
        (.ofList [1]) (some 3)).map Computed.findings ∧
    ((mdp drawingOptions).holdsUntil lottery (some .max) (.full 3)
        (.ofList [1]) (some 3)).toOption.map (·.values) =
      some #[0.328125, 1, 0] ∧
    ∀ time, (ctmdp drawingOptions).holdsUntil lottery (some .min) (.full 3)
        (.ofList [1]) (some time) =
      (ctmc drawingOptions).holdsUntil lottery none (.full 3) (.ofList [1])
        (some time) := by
  have counts : CountsSteps (3 : Float) := by
    decide +kernel
  have steps : Scalar.toNat (3 : Float) = 3 := by
    decide +kernel
  have process : Query.About ⟨.mdp, lottery, some .max⟩ lottery :=
    ⟨rfl, fun _ => ⟨_, rfl⟩⟩
  have game : Query.About ⟨.stpg, lotteryGame, some .min⟩ lottery :=
    ⟨rfl, fun _ => ⟨_, rfl⟩⟩
  have timedProcess : Query.About ⟨.ctmdp, lottery, some .min⟩ lottery :=
    ⟨rfl, fun _ => ⟨_, rfl⟩⟩
  have timedChain : Query.About ⟨.ctmc, lottery, none⟩ lottery :=
    ⟨rfl, fun impossible => by cases impossible⟩
  have iterative : drawingOptions.method.isIterative = true := rfl
  refine ⟨lottery_forced, iterative, counts, ?_, by decide +kernel, ?_⟩
  · obtain ⟨-, -, bounded, -⟩ := (forced_queries_agree lottery_forced iterative
      process game).1 rfl rfl
    exact bounded _ _ 3 counts (fun _ _ => by rw [steps]; decide)
      (fun impossible => by cases impossible)
  · intro time
    exact ((forced_queries_agree lottery_forced iterative timedProcess
      timedChain).2 rfl rfl).1 _ _ _

/-- A chain that arrives after one step. -/
def handover : Model Float where
  kind := .mdp
  layout := .listed #[[.point 1], [.point 1]]

/-- A number of steps for which the choices of a state cannot be laid out. -/
def unrecordable : Float := 1152921504606846976

/-- The checker of decision processes that is asked for a strategy gives up on
a number of steps for which the checker of chains has an answer. -/
theorem handover_without_strategy :
    handover.Forced ∧ drawingOptions.method.isIterative = true ∧
    CountsSteps unrecordable ∧ Scalar.toNat unrecordable = 2 ^ 60 ∧
    (mdp drawingOptions).holdsUntil handover (some .max) (.full 2)
      (.ofList [1]) (some unrecordable) = Attempt.breach ∧
    ∃ computed, (dtmc drawingOptions).holdsUntil handover none (.full 2)
      (.ofList [1]) (some unrecordable) = .ok computed := by
  have counts : CountsSteps unrecordable := by
    decide +kernel
  have steps : Scalar.toNat unrecordable = 2 ^ 60 := by
    decide +kernel
  have read : Table.read (ε := CheckError Float) handover =
      .ok (.ofModel handover) := Table.read_eq_ok (by decide +kernel)
  have posed : (chainSolver drawingOptions (.ofModel handover)).WellPosed
      (.full 2) (.ofList [1]) :=
    ⟨by decide, rfl, by decide, by decide⟩
  refine ⟨by decide, rfl, counts, steps, ?_, ?_⟩
  · simp only [mdp, requireDirection, pure_bind, counts.stepBound_eq_ok, steps,
      read, Attempt.ok_bind]
    rfl
  · simp only [dtmc, read, counts.stepBound_eq_ok, Attempt.ok_bind]
    exact ⟨_, posed.boundedUntil_eq_ok _⟩

end Checker

end Markov
