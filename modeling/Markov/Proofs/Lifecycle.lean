import Markov.Proofs.Construction

/-!
# The life of a countdown strategy

A countdown strategy is started, counted down, set to a number of remaining
steps, multiplied with models and asked for its moves, in any order.  One
operation can do little to it: `perform_eq` says that only the memory changes,
and how.  What holds after any history follows by induction on the history.
-/

namespace Markov.CountdownStrategy

variable {R : Type}

/-- What can be asked of a strategy. -/
inductive Query where
  | nextMove (state : Nat)
  | actionAt (state memory : Nat)
  | currentMemory
  | memorySize
  | tableSize
  | supportsProduct
  | typeName
  | info
  | exported
  | description

/-- What can be done with a strategy. -/
inductive Operation (R : Type) where
  | init (state : Nat)
  | reset
  | advance (action state : Nat)
  | setMemory (memory : Memory)
  | product (model : Model R)
  | ask (query : Query)

/-- What an operation returns. -/
inductive Reply (R : Type) where
  | done
  | model (product : Model R)
  | move (distribution : Distribution R)
  | action (action : Nat)
  | memory (memory : Memory)
  | size (count : Nat)
  | flag (holds : Bool)
  | text (content : String)

section Operations

variable [Scalar R]

def answer (s : CountdownStrategy) : Query → Attempt (StrategyError R) (Reply R)
  | .nextMove state => (s.nextMove state).map .move
  | .actionAt state memory => (s.actionAt state memory).map .action
  | .currentMemory => (Attempt.lift s.currentMemory).map .memory
  | .memorySize => .ok (.size (Strategy.memorySize R s))
  | .tableSize => .ok (.size s.tableSize)
  | .supportsProduct => .ok (.flag (Strategy.supportsProduct R s))
  | .typeName => .ok (.text (Strategy.typeName R s))
  | .info => .ok (.text s.info)
  | .exported => .ok (.text s.exported)
  | .description => .ok (.text s.description)

/-- The result of an operation, and the strategy after it. -/
def perform (s : CountdownStrategy) :
    Operation R → Attempt (StrategyError R) (Reply R) × CountdownStrategy
  | .init _ => (.ok .done, s.start)
  | .reset => (.ok .done, s.start)
  | .advance _ _ =>
    match s.advance with
    | .ok changed => (.ok .done, changed)
    | .error cause => (Attempt.fail cause, s)
  | .setMemory memory =>
    let (result, changed) := Strategy.setMemory s memory
    ((Attempt.lift result).map fun _ => .done, changed)
  | .product model =>
    let (result, changed) := s.product model
    (result.map .model, changed)
  | .ask query => (s.answer query, s)

/-- An operation together with what it returned. -/
structure Event (R : Type) where
  operation : Operation R
  outcome : Except (StrategyError R) (Reply R)

/-- A history of operations that all returned, and the strategy after it. -/
inductive Runs : CountdownStrategy → List (Event R) → CountdownStrategy → Prop
  | nil (s : CountdownStrategy) : Runs s [] s
  | cons {s next last : CountdownStrategy} {event : Event R}
      {later : List (Event R)}
      (performed : s.perform event.operation =
        (Attempt.lift event.outcome, next))
      (run : Runs next later last) : Runs s (event :: later) last

end Operations

/-! ## One operation -/

def Operation.isAdvance : Operation R → Bool
  | .advance _ _ => true
  | _ => false

/-- The number of remaining steps that an event sets. -/
def Event.sets (bound : Nat) (event : Event R) : Option Nat :=
  match event.outcome, event.operation with
  | .error _, _ => none
  | .ok _, .init _ => some bound
  | .ok _, .reset => some bound
  | .ok _, .setMemory (.counter value) => some value.toNat
  | .ok _, _ => none

/-- The memory after an event. -/
def Event.memory (bound : Nat) (event : Event R) (old : Option Nat) :
    Option Nat :=
  match event.sets bound with
  | some memory => some memory
  | none => if event.operation.isAdvance then old.map (· - 1) else old

theorem advance_eq_ok {s : CountdownStrategy} {memory : Nat}
    (active : s.memory = some memory) :
    s.advance (R := R) = .ok { s with memory := some (memory - 1) } := by
  simp only [advance, remaining, active]
  rfl

theorem advance_eq_error {s : CountdownStrategy} (inactive : s.memory = none) :
    ∃ cause, s.advance (R := R) = .error cause := by
  simp only [advance, remaining, inactive]
  exact ⟨_, rfl⟩

theorem setMemory_eq_ok {s changed : CountdownStrategy} {memory : Memory}
    (done : s.setMemory (R := R) memory = .ok changed) :
    ∃ value, memory = .counter value ∧ value.toNat ≤ s.bound ∧
      changed = { s with memory := some value.toNat } := by
  cases memory with
  | none => cases done
  | counters values => cases done
  | counter value =>
      rw [CountdownStrategy.setMemory] at done
      split at done
      · rename_i within
        cases done
        rw [Bool.and_eq_true, decide_eq_true_eq, decide_eq_true_eq] at within
        exact ⟨value, rfl, by omega, rfl⟩
      · cases done

theorem FromWords.exists_lift_actionAt {s : CountdownStrategy}
    (words : s.FromWords) (state memory : Nat) :
    ∃ outcome, s.actionAt (R := R) state memory = Attempt.lift outcome := by
  rcases Nat.lt_or_ge state s.table.length with inside | outside
  · obtain ⟨action, acts⟩ := words.exists_actionAt (R := R) inside memory
    exact ⟨.ok action, acts⟩
  · exact ⟨.error _, actionAt_eq_fail outside memory⟩

variable [Scalar R] {s next : CountdownStrategy}

theorem perform_product_keeps {model : Model R}
    (unbroken : (s.perform (.product model)).1 ≠ Attempt.breach) :
    (s.perform (.product model)).2 = s := by
  apply Product.product_keeps
  intro broken
  apply unbroken
  change (s.product model).1.map Reply.model = _
  rw [broken]
  rfl

/-- A failed operation leaves the strategy as it was. -/
theorem perform_of_fail {operation : Operation R} {cause : StrategyError R}
    (failed : (s.perform operation).1 = Attempt.fail cause) :
    (s.perform operation).2 = s := by
  cases operation with
  | init state => cases failed
  | reset => cases failed
  | advance action state =>
      rw [perform] at failed ⊢
      cases advanced : s.advance (R := R) with
      | ok changed =>
          rw [advanced] at failed
          cases failed
      | error cause => rfl
  | setMemory memory =>
      simp only [perform, Strategy.setMemory] at failed ⊢
      cases set : s.setMemory (R := R) memory with
      | ok changed =>
          rw [set] at failed
          cases failed
      | error cause => rfl
  | product model => exact perform_product_keeps (by rw [failed]; nofun)
  | ask query => rfl

/-- A successful operation sets the memory, counts a step or changes nothing. -/
theorem perform_of_ok {operation : Operation R} {reply : Reply R}
    (done : (s.perform operation).1 = .ok reply) :
    (s.perform operation).2 =
      { s with memory := Event.memory s.bound ⟨operation, .ok reply⟩ s.memory } := by
  cases operation with
  | init state => rfl
  | reset => rfl
  | advance action state =>
      rw [perform] at done ⊢
      cases memory : s.memory with
      | none =>
          obtain ⟨cause, failed⟩ := advance_eq_error (R := R) memory
          rw [failed] at done
          cases done
      | some count =>
          rw [advance_eq_ok memory]
          rfl
  | setMemory memory =>
      simp only [perform, Strategy.setMemory] at done ⊢
      cases set : s.setMemory (R := R) memory with
      | ok changed =>
          obtain ⟨value, rfl, -, rfl⟩ := setMemory_eq_ok set
          rfl
      | error cause =>
          rw [set] at done
          cases done
  | product model => exact perform_product_keeps (by rw [done]; nofun)
  | ask query => rfl

/-- What an operation that returns can do to a strategy. -/
theorem perform_eq {event : Event R}
    (performed : s.perform event.operation =
      (Attempt.lift event.outcome, next)) :
    next = { s with memory := event.memory s.bound s.memory } := by
  obtain ⟨operation, outcome⟩ := event
  have result := congrArg Prod.fst performed
  have after := congrArg Prod.snd performed
  cases outcome with
  | ok reply => exact after.symm.trans (perform_of_ok result)
  | error cause =>
      have same : Event.memory s.bound ⟨operation, .error cause⟩ s.memory =
          s.memory := by
        cases operation with
        | init state => rfl
        | reset => rfl
        | setMemory memory => rfl
        | product model => rfl
        | ask query => rfl
        | advance action state =>
            cases memory : s.memory with
            | none => rfl
            | some count =>
                dsimp only [perform] at result
                rw [advance_eq_ok memory] at result
                cases result
      rw [same]
      exact after.symm.trans (perform_of_fail result)

theorem Event.sets_le {event : Event R}
    (performed : s.perform event.operation =
      (Attempt.lift event.outcome, next))
    {memory : Nat} (sets : event.sets s.bound = some memory) :
    memory ≤ s.bound := by
  obtain ⟨operation, outcome⟩ := event
  cases outcome with
  | error cause => cases sets
  | ok reply =>
      cases operation with
      | init state =>
          cases sets
          exact le_rfl
      | reset =>
          cases sets
          exact le_rfl
      | advance action state => cases sets
      | product model => cases sets
      | ask query => cases sets
      | setMemory wanted =>
          have result := congrArg Prod.fst performed
          simp only [perform, Strategy.setMemory] at result
          cases set : s.setMemory (R := R) wanted with
          | error cause =>
              rw [set] at result
              cases result
          | ok changed =>
              obtain ⟨value, rfl, within, -⟩ := setMemory_eq_ok set
              cases sets
              exact within

/-! ## Histories -/

variable {last : CountdownStrategy} {history : List (Event R)}

theorem Runs.eq_withMemory (run : Runs s history last) :
    last = { s with memory := last.memory } := by
  induction run with
  | nil s => rfl
  | cons performed run ih =>
      rw [perform_eq performed] at ih
      exact ih

theorem Accepted.of_perform {event : Event R} (accepted : s.Accepted)
    (performed : s.perform event.operation =
      (Attempt.lift event.outcome, next)) : next.Accepted := by
  rw [perform_eq performed]
  refine ⟨accepted.words, ?_⟩
  intro memory found
  dsimp only [Event.memory] at found
  cases sets : event.sets s.bound with
  | some value =>
      rw [sets] at found
      cases found
      exact Event.sets_le performed sets
  | none =>
      rw [sets] at found
      dsimp only at found
      split at found
      · obtain ⟨old, before, rfl⟩ := Option.map_eq_some_iff.mp found
        exact (Nat.sub_le old 1).trans (accepted.memory old before)
      · exact accepted.memory memory found

theorem Runs.accepted (accepted : s.Accepted) (run : Runs s history last) :
    last.Accepted := by
  induction run with
  | nil s => exact accepted
  | cons performed run ih => exact ih (accepted.of_perform performed)

theorem Runs.split {earlier later : List (Event R)}
    (run : Runs s (earlier ++ later) last) :
    ∃ middle, Runs s earlier middle ∧ Runs middle later last := by
  induction earlier generalizing s with
  | nil => exact ⟨s, .nil s, run⟩
  | cons event earlier ih =>
      cases run with
      | cons performed run =>
          obtain ⟨middle, before, after⟩ := ih run
          exact ⟨middle, .cons performed before, after⟩

/-- Where no event sets the memory, it counts the steps. -/
theorem Runs.memory_of_unset (run : Runs s history last)
    (unset : ∀ event ∈ history, event.sets s.bound = none) :
    last.memory = s.memory.map
      (· - history.countP fun event => event.operation.isAdvance) := by
  induction run with
  | nil s => simp
  | @cons s next last event later performed run ih =>
      have changed := perform_eq performed
      have here := unset event List.mem_cons_self
      have rest := ih fun other member => by
        rw [changed]
        exact unset other (List.mem_cons_of_mem _ member)
      have memory : next.memory =
          if event.operation.isAdvance then s.memory.map (· - 1)
          else s.memory := by
        rw [changed]
        simp only [Event.memory, here]
      rw [rest, memory, List.countP_cons]
      by_cases counts : event.operation.isAdvance = true
      · simp [counts, Function.comp_def, Nat.sub_sub, Nat.add_comm]
      · simp [counts]

/-- The last event that sets the memory decides from where it counts. -/
theorem Runs.memory_eq {earlier later : List (Event R)} {event : Event R}
    (run : Runs s (earlier ++ event :: later) last) {memory : Nat}
    (sets : event.sets s.bound = some memory)
    (unset : ∀ other ∈ later, other.sets s.bound = none) :
    last.memory = some
      (memory - later.countP fun event => event.operation.isAdvance) := by
  obtain ⟨middle, before, after⟩ := run.split
  cases after with
  | @cons _ next _ _ _ performed after =>
      have changed := perform_eq performed
      have bound : middle.bound = s.bound := by rw [before.eq_withMemory]
      have start : next.memory = some memory := by
        rw [changed]
        simp only [Event.memory, bound, sets]
      have counted := after.memory_of_unset fun other member => by
        rw [changed]
        exact (congrArg other.sets bound).trans (unset other member)
      rw [counted, start]
      rfl

/-! ## Moves -/

theorem nextMove_of_active {memory : Nat} (active : s.memory = some memory)
    (state : Nat) :
    s.nextMove (R := R) state =
      (s.actionAt state memory).map Distribution.point := by
  simp only [nextMove, remaining, active, Attempt.lift, Attempt.ok_bind]
  cases s.actionAt (R := R) state memory with
  | ok action => rfl
  | error failure => rfl

theorem nextMove_of_inactive (inactive : s.memory = none) (state : Nat) :
    ∃ cause, s.nextMove (R := R) state = Attempt.fail cause := by
  simp only [nextMove, remaining, inactive, Attempt.lift, Attempt.fail_bind]
  exact ⟨_, rfl⟩

theorem Accepted.exists_nextMove (accepted : s.Accepted) {state memory : Nat}
    (active : s.memory = some memory) (inside : state < s.table.length) :
    ∃ action, s.actionAt (R := R) state memory = .ok action ∧
      s.nextMove (R := R) state = .ok (.point action) := by
  obtain ⟨action, acts⟩ := accepted.words.exists_actionAt (R := R) inside memory
  refine ⟨action, acts, ?_⟩
  rw [nextMove_of_active active, acts]
  rfl

theorem Accepted.nextMove_isOk_iff (accepted : s.Accepted) (state : Nat) :
    (∃ move, s.nextMove (R := R) state = .ok move) ↔
      s.memory.isSome = true ∧ state < s.table.length := by
  cases memory : s.memory with
  | none =>
      obtain ⟨cause, failed⟩ := nextMove_of_inactive (R := R) memory state
      simp [failed, Attempt.fail]
  | some count =>
      rcases Nat.lt_or_ge state s.table.length with inside | outside
      · obtain ⟨action, -, moves⟩ :=
          accepted.exists_nextMove (R := R) memory inside
        simp [moves, inside]
      · rw [nextMove_of_active memory, actionAt_eq_fail outside]
        simp [Attempt.fail, Except.map, Nat.not_lt.mpr outside]

private theorem exists_lift_map {α β ε : Type} {attempt : Attempt ε α}
    (returns : ∃ outcome, attempt = Attempt.lift outcome) (f : α → β) :
    ∃ outcome, attempt.map f = Attempt.lift outcome := by
  obtain ⟨outcome, rfl⟩ := returns
  refine ⟨outcome.map f, ?_⟩
  cases outcome with
  | ok value => rfl
  | error cause => rfl

/-- All operations but products return, whatever they are given. -/
theorem Accepted.exists_outcome (accepted : s.Accepted)
    {operation : Operation R} (noProduct : ∀ model, operation ≠ .product model) :
    ∃ outcome, (s.perform operation).1 = Attempt.lift outcome := by
  cases operation with
  | init state => exact ⟨.ok .done, rfl⟩
  | reset => exact ⟨.ok .done, rfl⟩
  | advance action state =>
      rw [perform]
      cases s.advance (R := R) with
      | ok changed => exact ⟨.ok .done, rfl⟩
      | error cause => exact ⟨.error cause, rfl⟩
  | setMemory memory => exact exists_lift_map ⟨_, rfl⟩ _
  | product model => exact (noProduct model rfl).elim
  | ask query =>
      cases query with
      | nextMove state =>
          refine exists_lift_map ?_ _
          cases memory : s.memory with
          | none =>
              obtain ⟨cause, failed⟩ := nextMove_of_inactive (R := R) memory state
              exact ⟨.error cause, failed⟩
          | some count =>
              rw [nextMove_of_active memory]
              exact exists_lift_map
                (accepted.words.exists_lift_actionAt state count) _
      | actionAt state memory =>
          exact exists_lift_map
            (accepted.words.exists_lift_actionAt state memory) _
      | currentMemory => exact exists_lift_map ⟨_, rfl⟩ _
      | memorySize => exact ⟨.ok _, rfl⟩
      | tableSize => exact ⟨.ok _, rfl⟩
      | supportsProduct => exact ⟨.ok _, rfl⟩
      | typeName => exact ⟨.ok _, rfl⟩
      | info => exact ⟨.ok _, rfl⟩
      | exported => exact ⟨.ok _, rfl⟩
      | description => exact ⟨.ok _, rfl⟩

/-- The life of an accepted strategy, whatever is done with it.  Only its memory
changes and never exceeds the bound.  Failed operations change nothing.  The
memory counts the steps since it was last set.  An active strategy has a move
for every row of its table, the action of the row, and all operations but
products return. -/
theorem lifecycle_of_accepted (accepted : s.Accepted) (run : Runs s history last) :
    (last.table = s.table ∧ last.bound = s.bound ∧
      last.tableSize = s.tableSize ∧ last.info = s.info) ∧
    (∀ memory, last.memory = some memory → memory ≤ s.bound) ∧
    (∀ (operation : Operation R) cause,
      (last.perform operation).1 = Attempt.fail cause →
        (last.perform operation).2 = last) ∧
    (∀ earlier event later memory, history = earlier ++ event :: later →
      event.sets s.bound = some memory →
      (∀ other ∈ later, other.sets s.bound = none) →
        last.memory = some
          (memory - later.countP fun other => other.operation.isAdvance)) ∧
    (∀ state, (∃ move, last.nextMove (R := R) state = .ok move) ↔
      last.memory.isSome = true ∧ state < s.table.length) ∧
    (∀ state memory, last.memory = some memory → state < s.table.length →
      ∃ action, last.actionAt (R := R) state memory = .ok action ∧
        last.nextMove (R := R) state = .ok (.point action)) ∧
    (∀ operation : Operation R, (∀ model, operation ≠ .product model) →
      ∃ outcome, (last.perform operation).1 = Attempt.lift outcome) := by
  have still := run.accepted accepted
  have table : last.table = s.table := by rw [run.eq_withMemory]
  have bound : last.bound = s.bound := by rw [run.eq_withMemory]
  refine ⟨⟨table, bound, ?_, ?_⟩, ?_, ?_, ?_, ?_, ?_, ?_⟩
  · rw [run.eq_withMemory]
  · rw [run.eq_withMemory]
  · intro memory active
    exact bound ▸ still.memory memory active
  · intro operation cause failed
    exact perform_of_fail failed
  · rintro earlier event later memory rfl sets unset
    exact run.memory_eq sets unset
  · intro state
    exact table ▸ still.nextMove_isOk_iff state
  · intro state memory active inside
    exact still.exists_nextMove active (table ▸ inside)
  · intro operation noProduct
    exact still.exists_outcome noProduct

open Product in
/-- A plan on whose way a step comes too early, a product is made and a memory
beyond the bound is refused. -/
theorem shuttlePlan_lifecycle :
    shuttlePlan.Accepted ∧
    ∃ (product : Model ℚ) (early late : StrategyError ℚ)
      (last : CountdownStrategy),
      product.numStates = 9 ∧
      Runs shuttlePlan
        [⟨.advance 0 0, .error early⟩, ⟨.init 0, .ok .done⟩,
          ⟨.advance 0 0, .ok .done⟩, ⟨.product shuttle, .ok (.model product)⟩,
          ⟨.setMemory (.counter 4), .error late⟩, ⟨.advance 0 1, .ok .done⟩]
        last ∧
      last.memory = some 1 ∧ last.nextMove (R := ℚ) 0 = .ok (.point 1) := by
  refine ⟨shuttlePlan_accepted, ?_⟩
  let started : CountdownStrategy := { shuttlePlan with memory := some 2 }
  obtain ⟨product, made, states⟩ := Attempt.map_toOption_eq_some.mp
    (show (started.product shuttle).1.toOption.map Model.numStates = some 9 by
      decide +kernel)
  have multiplied : started.perform (.product shuttle) =
      (Attempt.lift (.ok (.model product)), started) := by
    refine Prod.ext ?_ (product_keeps (by rw [made]; nofun))
    change (started.product shuttle).1.map Reply.model = _
    rw [made]
    rfl
  have run : Runs shuttlePlan
      [⟨.advance 0 0, .error _⟩, ⟨.init 0, .ok .done⟩,
        ⟨.advance 0 0, .ok .done⟩, ⟨.product shuttle, .ok (.model product)⟩,
        ⟨.setMemory (.counter 4), .error _⟩, ⟨.advance 0 1, .ok .done⟩] _ :=
    .cons rfl (.cons rfl (.cons rfl (.cons multiplied
      (.cons rfl (.cons rfl (.nil _))))))
  obtain ⟨-, -, -, counted, -, moves, -⟩ :=
    lifecycle_of_accepted shuttlePlan_accepted run
  have memory := counted [_] _ _ 3 rfl rfl (by simp [Event.sets])
  obtain ⟨action, acts, moved⟩ := moves 0 1 memory (by decide)
  cases acts
  exact ⟨product, _, _, _, states, run, memory, moved⟩

end Markov.CountdownStrategy
