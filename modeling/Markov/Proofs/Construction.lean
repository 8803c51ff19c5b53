import Markov.Proofs.Interchange
import Markov.Proofs.Simulation

/-!
# Construction of products

A product is made level by level and given up at the first state for which no
choice is found.  Here it is said when there is a product and what it looks
like, which state and level are reported if there is none, and that the strategy
is left as it was.
-/

namespace Markov

variable {R : Type} [Scalar R]

/-- The table was read from signed words, and no more steps remain than the
strategy has levels. -/
structure CountdownStrategy.Accepted (s : CountdownStrategy) : Prop where
  words : s.FromWords
  memory : ∀ memory ∈ s.memory, memory ≤ s.bound

namespace Model

/-- No weight is negative, and the choices are no more than fit into
memory. -/
structure Regular (m : Model R) : Prop where
  weights : m.NonNegative
  choices : m.numAllChoices ≤ Word.signedLimit

/-- All successors are states. -/
def Closed (m : Model R) : Prop :=
  ∀ state, state < m.numStates → ∀ index, index < m.numChoices state →
    ∀ choice ∈ m.stored? state index, ∀ target ∈ choice.support,
      target < m.numStates

instance (m : Model R) : Decidable m.Closed :=
  inferInstanceAs (Decidable (∀ state, state < _ → ∀ index, index < _ →
    ∀ choice ∈ m.stored? state index, ∀ target ∈ choice.support, _ < _))

variable {m : Model R}

theorem Regular.isAddressable (regular : m.Regular) {state action : Nat}
    (small : action < Word.signedLimit) :
    m.layout.isAddressable state action = true := by
  obtain ⟨rows, laidOut⟩ := m.layout.exists_withRows
  cases kind : m.layout with
  | listed _ => rfl
  | locked _ => rfl
  | packed arrays =>
      have packed : Layout.packed arrays = .packed (.ofRows rows.toList) := by
        rw [kind] at laidOut
        exact laidOut
      rw [packed]
      apply Packed.isAddressable_ofRows
      intro inside
      rw [Array.length_toList] at inside
      have counted : state < m.numStates := by
        rw [Model.numStates, laidOut, Layout.numStates_withRows]
        exact inside
      have total := choicesBefore_le counted
      have choices := regular.choices
      have halves : Word.signedLimit + Word.signedLimit = Word.limit := rfl
      rw [choicesBefore_of_withRows laidOut inside] at total
      simp only [Word.isIndex, decide_eq_true_eq]
      omega

theorem exists_stored? {state index : Nat}
    (inside : index < m.numChoices state) :
    ∃ choice, m.stored? state index = some choice := by
  obtain ⟨rows, laidOut⟩ := m.layout.exists_withRows
  rw [Model.numChoices, laidOut, Layout.numChoices_withRows] at inside
  rw [Model.stored?, laidOut, Layout.stored?_withRows]
  exact ⟨_, List.getElem?_eq_getElem inside⟩

end Model

namespace Product

variable {s : CountdownStrategy} {m : Model R}

/-- The strategy takes a choice that the state has. -/
def Chooses (s : CountdownStrategy) (m : Model R) (level state : Nat) : Prop :=
  ∃ action, s.actionAt (R := R) state level = .ok action ∧
    action < m.numChoices state

/-- Why a state has no choice at a level. -/
inductive Unresolved (s : CountdownStrategy) (m : Model R)
    (level state : Nat) : StrategyError R → Prop where
  | noRow : s.table.length ≤ state →
      Unresolved s m level state (.undefinedState state s.table.length)
  | noChoice {action : Nat} :
      s.actionAt (R := R) state level = .ok action →
      m.numChoices state ≤ action →
      Unresolved s m level state
        (.unsupportedProduct (.noChoice state (m.numChoices state) action))

/-- Where the strategy takes a choice, the copies of its successors can be
indexed. -/
def Fits (s : CountdownStrategy) (m : Model R) (level state : Nat) : Prop :=
  ∀ action choice, s.actionAt (R := R) state level = .ok action →
    m.stored? state action = some choice → ∀ target ∈ choice.support,
      Word.isIndex (nextBlock s.bound level * m.numStates + target) = true

/-! ## One state -/

theorem resolveMove_of_no_row {level state : Nat}
    (outside : s.table.length ≤ state) :
    resolveMove { s with memory := some level } m state =
      Attempt.fail (.undefinedState state s.table.length) := by
  have acts := CountdownStrategy.actionAt_eq_fail (R := R) outside level
  have move : Strategy.nextMove (R := R)
      ({ s with memory := some level } : CountdownStrategy) state =
        Attempt.fail (.undefinedState state s.table.length) := by
    change (do let action ← s.actionAt state level; _) = _
    rw [acts]
    rfl
  simp only [resolveMove, move, Attempt.fail_bind]

theorem chooses_of_resolveState {level state : Nat}
    {kept : Nat × Distribution R}
    (resolved : resolveState { s with memory := some level } m s.bound level
      state = .ok kept) : Chooses s m level state := by
  obtain ⟨choice, acts, -, found, -⟩ := resolveState_eq_ok resolved
  exact ⟨kept.1, acts, Layout.lt_numChoices_of_stored? found⟩

theorem fits_of_resolveState {level state : Nat} {kept : Nat × Distribution R}
    (resolved : resolveState { s with memory := some level } m s.bound level
      state = .ok kept) : Fits s m level state := by
  obtain ⟨choice, acts, -, found, successors, -⟩ := resolveState_eq_ok resolved
  intro other taken again same
  rw [acts] at again
  cases again
  rw [found] at same
  cases same
  exact successors

theorem exists_resolveState (accepted : s.Accepted) (regular : m.Regular)
    {level state : Nat} (fits : Fits s m level state)
    (chooses : Chooses s m level state) :
    ∃ kept, resolveState { s with memory := some level } m s.bound level state =
      .ok kept := by
  obtain ⟨action, acts, offered⟩ := chooses
  obtain ⟨choice, found⟩ := Model.exists_stored? offered
  have addressable : m.layout.isAddressable state action = true :=
    regular.isAddressable (accepted.words.actsBelow.actionAt_lt acts)
  have successors : (choice.support.all fun target => Word.isIndex
      (nextBlock s.bound level * m.numStates + target)) = true :=
    List.all_eq_true.mpr (fits action choice acts found)
  refine ⟨(action,
    choice.mapTargets (nextBlock s.bound level * m.numStates + ·)), ?_⟩
  simp only [resolveState, found, Attempt.mapCause, Attempt.ok_bind,
    resolveMove_of_actionAt acts addressable (regular.weights state action),
    successors, Attempt.require_true,
    Distribution.checkedMap_eq_ok (regular.weights state action choice found)]
  rfl

theorem resolveState_of_not_chooses (accepted : s.Accepted)
    (regular : m.Regular) {level state : Nat}
    (stuck : ¬Chooses s m level state) :
    ∃ cause, Unresolved s m level state cause ∧
      resolveState { s with memory := some level } m s.bound level state =
        Attempt.fail (.product state level cause) := by
  rcases Nat.lt_or_ge state s.table.length with listed | unlisted
  · obtain ⟨action, acts⟩ :=
      accepted.words.exists_actionAt (R := R) listed level
    have missing : m.numChoices state ≤ action :=
      Nat.le_of_not_lt fun offered => stuck ⟨action, acts, offered⟩
    have absent : m.stored? state action = none := by
      apply Option.eq_none_iff_forall_ne_some.mpr
      intro choice found
      exact absurd (Layout.lt_numChoices_of_stored? found) missing.not_gt
    have addressable : m.layout.isAddressable state action = true :=
      regular.isAddressable (accepted.words.actsBelow.actionAt_lt acts)
    refine ⟨_, .noChoice acts missing, ?_⟩
    simp only [resolveState, absent, Attempt.mapCause, Attempt.fail,
      resolveMove_of_actionAt acts addressable (regular.weights state action)]
    rfl
  · refine ⟨_, .noRow unlisted, ?_⟩
    simp only [resolveState, resolveMove_of_no_row unlisted]
    rfl

/-! ## All states and levels -/

private theorem mapM_range_cases {β ε : Type} (f : Nat → Except ε β) (n : Nat) :
    (∃ results, (List.range n).mapM f = .ok results) ∨
    ∃ index failure, index < n ∧
      (∀ other < index, ∃ result, f other = .ok result) ∧
      f index = .error failure ∧ (List.range n).mapM f = .error failure := by
  induction n with
  | zero => exact .inl ⟨[], rfl⟩
  | succ n ih =>
      rw [List.range_succ, List.mapM_append, List.mapM_cons]
      rcases ih with ⟨results, ran⟩ |
        ⟨index, failure, inside, earlier, fails, ran⟩
      · cases last : f n with
        | error failure =>
            refine .inr ⟨n, failure, Nat.lt_succ_self n, ?_, last, ?_⟩
            · intro other before
              obtain ⟨result, -, done⟩ := (Attempt.mapM_eq_ok ran).2 other other
                (List.getElem?_range before)
              exact ⟨result, done⟩
            · rw [ran]
              rfl
        | ok result =>
            refine .inl ⟨results ++ [result], ?_⟩
            rw [ran]
            rfl
      · refine .inr ⟨index, failure, Nat.lt_succ_of_lt inside, earlier, fails, ?_⟩
        rw [ran]
        rfl

/-- The first state without a choice, from a level down and within a level from
the first state on. -/
structure FirstFailure (s : CountdownStrategy) (m : Model R)
    (top level state : Nat) : Prop where
  positive : 0 < level
  within : level ≤ top
  inside : state < m.numStates
  stuck : ¬Chooses s m level state
  above : ∀ higher other, level < higher → higher ≤ top →
    other < m.numStates → Chooses s m higher other
  before : ∀ other, other < state → Chooses s m level other

theorem resolveLevel_cases (accepted : s.Accepted) (regular : m.Regular)
    {level : Nat} (fits : ∀ state, state < m.numStates → Fits s m level state) :
    (∃ kept, resolveLevel { s with memory := some level } m s.bound level =
      .ok kept) ∨
    ∃ state cause, state < m.numStates ∧ ¬Chooses s m level state ∧
      (∀ other, other < state → Chooses s m level other) ∧
      Unresolved s m level state cause ∧
      resolveLevel { s with memory := some level } m s.bound level =
        Attempt.fail (.product state level cause) := by
  rcases mapM_range_cases
      (resolveState { s with memory := some level } m s.bound level)
      m.numStates with
    done | ⟨state, failure, inside, earlier, fails, ran⟩
  · exact .inl done
  · have stuck : ¬Chooses s m level state := by
      intro chooses
      obtain ⟨kept, resolved⟩ :=
        exists_resolveState accepted regular (fits state inside) chooses
      rw [resolved] at fails
      cases fails
    obtain ⟨cause, unresolved, failed⟩ :=
      resolveState_of_not_chooses accepted regular stuck
    refine .inr ⟨state, cause, inside, stuck, ?_, unresolved, ?_⟩
    · intro other before
      obtain ⟨kept, resolved⟩ := earlier other before
      exact chooses_of_resolveState resolved
    · rw [failed] at fails
      cases fails
      exact ran

/-- The levels are resolved from the top down, up to the first failure. -/
theorem resolveLevels_cases (accepted : s.Accepted) (regular : m.Regular)
    {level : Nat} (within : level ≤ s.bound)
    (fits : ∀ lower state, 0 < lower → lower ≤ level → state < m.numStates →
      Fits s m lower state) (memory : Option Nat) :
    ∃ last, (∃ kept,
      resolveLevels m s.bound level { s with memory := memory } =
        (.ok kept, { s with memory := last })) ∨
    ∃ lower state cause, FirstFailure s m level lower state ∧
      Unresolved s m lower state cause ∧
      resolveLevels m s.bound level { s with memory := memory } =
        (Attempt.fail (.product state lower cause),
          { s with memory := last }) := by
  induction level generalizing memory with
  | zero => exact ⟨memory, .inl ⟨[], rfl⟩⟩
  | succ level ih =>
      have set := setMemory_counter (R := R) { s with memory := memory } within
      rcases resolveLevel_cases accepted regular
          (fits (level + 1) · (Nat.succ_pos level) le_rfl) with
        ⟨here, resolved⟩ |
          ⟨state, cause, inside, stuck, before, unresolved, failed⟩
      · obtain ⟨last, outcome⟩ := ih (Nat.le_of_succ_le within)
          (fun lower state positive below =>
            fits lower state positive (Nat.le_succ_of_le below))
          (some (level + 1))
        refine ⟨last, ?_⟩
        -- A failure further down is still the first one, as this level is done.
        rcases outcome with ⟨rest, lowerLevels⟩ |
          ⟨lower, state, cause, first, unresolved, failed⟩
        · refine .inl ⟨here ++ rest, ?_⟩
          simp only [resolveLevels, set, resolved, lowerLevels]
          rfl
        · refine .inr ⟨lower, state, cause, ?_, unresolved, ?_⟩
          · refine { first with within := Nat.le_succ_of_le first.within,
                                above := ?_ }
            intro higher other more bounded inside
            rcases Nat.lt_or_eq_of_le bounded with less | rfl
            · exact first.above higher other more (Nat.le_of_lt_succ less) inside
            · obtain ⟨entry, done⟩ :=
                (resolveLevel_eq_ok resolved).2.2 other inside
              exact chooses_of_resolveState done
          · simp only [resolveLevels, set, resolved, failed]
            rfl
      · refine ⟨some (level + 1), .inr ⟨level + 1, state, cause, ?_, unresolved,
          ?_⟩⟩
        · refine ⟨Nat.succ_pos level, le_rfl, inside, stuck, ?_, before⟩
          intro higher other more bounded
          omega
        · simp only [resolveLevels, set, failed, Attempt.fail]

/-! ## The strategy afterwards -/

theorem setMemory_keeps (s : CountdownStrategy) (memory : Memory) :
    ∃ last, (Strategy.setMemory (R := R) s memory).2 =
      { s with memory := last } := by
  cases memory with
  | counter value =>
      by_cases within : (0 ≤ value && value ≤ s.bound) = true
      · refine ⟨some value.toNat, ?_⟩
        simp only [Strategy.setMemory, CountdownStrategy.setMemory, within,
          if_true]
        rfl
      · refine ⟨s.memory, ?_⟩
        simp only [Strategy.setMemory, CountdownStrategy.setMemory, within]
        rfl
  | _ => exact ⟨s.memory, rfl⟩

theorem resolveLevels_keeps (m : Model R) (bound level : Nat)
    (s : CountdownStrategy) :
    ∃ last, (resolveLevels m bound level s).2 = { s with memory := last } := by
  induction level generalizing s with
  | zero => exact ⟨s.memory, rfl⟩
  | succ level ih =>
      obtain ⟨last, kept⟩ :=
        setMemory_keeps (R := R) s (.counter (level + 1 : Nat))
      rw [resolveLevels]
      split
      · rename_i changed set
        rw [set] at kept
        exact ⟨last, kept⟩
      · rename_i changed set
        rw [set] at kept
        obtain rfl : changed = { s with memory := last } := kept
        split
        · exact ⟨last, rfl⟩
        · exact ih { s with memory := last }

theorem restore_keeps (saved : Except (StrategyError R) Memory)
    (s : CountdownStrategy) :
    ∃ last, (restore saved s).2 = { s with memory := last } := by
  cases saved with
  | ok memory => exact setMemory_keeps s memory
  | error cause => exact ⟨s.memory, rfl⟩

/-- Only the memory is ever set: at the levels, and when it is put back. -/
theorem build_keeps (s : CountdownStrategy) (m : Model R) :
    ∃ last, (build s m).2 = { s with memory := last } := by
  unfold build
  split
  · exact ⟨s.memory, rfl⟩
  · dsimp only
    obtain ⟨last, kept⟩ := resolveLevels_keeps m
      (Strategy.memorySize R s) (Strategy.memorySize R s) s
    split
    · rename_i changed resolved
      rw [resolved] at kept
      exact ⟨last, kept⟩
    · rename_i changed _ resolved
      rw [resolved] at kept
      obtain rfl : changed = { s with memory := last } := kept
      obtain ⟨final, kept⟩ := restore_keeps (R := R) (Strategy.memory s)
        { s with memory := last }
      split
      · rename_i changed restored
        rw [restored] at kept
        exact ⟨final, kept⟩
      · rename_i changed restored
        rw [restored] at kept
        exact ⟨final, kept⟩

theorem product_keeps {s : CountdownStrategy} {m : Model R}
    (unbroken : (s.product m).1 ≠ Attempt.breach) : (s.product m).2 = s := by
  obtain ⟨last, kept⟩ := build_keeps s m
  rw [product_fst] at unbroken
  unfold CountdownStrategy.product
  split
  · rename_i broken
    rw [broken] at unbroken
    exact absurd rfl unbroken
  · rename_i built
    rw [built] at kept
    dsimp only at kept ⊢
    rw [kept]

/-! ## Products -/

/-- The copies of all successors can be indexed. -/
def Indexed (s : CountdownStrategy) (m : Model R) : Prop :=
  ∀ level state, 0 < level → level ≤ s.bound → state < m.numStates →
    Fits s m level state

/-- Copies of states can be indexed, since the product can be laid out. -/
theorem indexed_of_closed (permits : Permits m s.bound) (closed : m.Closed) :
    Indexed s m := by
  intro level state _ _ inside action choice _ found target member
  have successor := closed state inside action
    (Layout.lt_numChoices_of_stored? found) choice found target member
  exact isIndex_add permits.room permits.levels successor

/-- A model that permits a product has it, unless some state has no choice. -/
theorem product_cases (accepted : s.Accepted) (regular : m.Regular)
    (permits : Permits m s.bound) (indexed : Indexed s m) :
    (∃ product, (s.product m).1 = .ok product) ∨
    ∃ level state cause, FirstFailure s m s.bound level state ∧
      Unresolved s m level state cause ∧
      (s.product m).1 = Attempt.fail (.product state level cause) := by
  obtain ⟨last, outcome⟩ :=
    resolveLevels_cases accepted regular le_rfl indexed s.memory
  obtain ⟨changed, restored⟩ := restore_memory (R := R) accepted.memory last
  rcases outcome with ⟨kept, resolved⟩ |
    ⟨level, state, cause, first, unresolved, failed⟩
  · refine .inl ⟨assemble m { kind := .mdp, layout := m.layout.withRows #[] }
      s.bound kept, ?_⟩
    rw [product_fst]
    simp only [build, permits.prepare_eq_ok, memorySize_eq, resolved, restored]
    rfl
  · refine .inr ⟨level, state, cause, first, unresolved, ?_⟩
    rw [product_fst]
    simp only [build, permits.prepare_eq_ok, memorySize_eq, failed, restored,
      Attempt.fail]
    rfl

theorem support_mapTargets_add (d : Distribution R) (offset : Nat) :
    (d.mapTargets (offset + ·)).support = d.support.map (offset + ·) := by
  simp only [Distribution.support, Distribution.entries_mapTargets_add,
    List.map_map]
  rfl

theorem get?_mapSets (labels : Labels) (f : BitSet → BitSet) (name : String) :
    (labels.mapSets f).get? name = (labels.get? name).map f := by
  unfold Labels.mapSets Labels.get?
  induction labels.entries with
  | nil => rfl
  | cons entry entries ih =>
      rw [List.map_cons, List.lookup_cons, List.lookup_cons, ih]
      cases name == entry.1 <;> rfl

/-- What a product looks like: it has a copy of every state for every level,
each with a single choice and with the labels of the state. -/
structure Multiplies (bound : Nat) (m product : Model R) : Prop where
  numStates : product.numStates = m.numStates * bound
  numChoices : ∀ copy, copy < product.numStates → product.numChoices copy = 1
  successors : m.Closed → product.Closed
  names : product.labels.names = m.labels.names
  labels : ∀ name states, m.labels.get? name = some states →
    states.isBelow m.numStates = true →
      ∃ copies, product.labels.get? name = some copies ∧
        ∀ copy, copy < product.numStates →
          copies.contains copy = states.contains (copy % m.numStates)

theorem Resolved.multiplies {kept : List (Nat × Distribution R)}
    (resolved : Resolved s m s.bound kept) (positive : 0 < s.bound)
    (blank : Model R) : Multiplies s.bound m (assemble m blank s.bound kept) := by
  have states : (assemble m blank s.bound kept).numStates =
      s.bound * m.numStates := by
    rw [← resolved.count]
    simp [assemble, Model.numStates]
  constructor
  · rw [states, Nat.mul_comm]
  · intro copy inside
    rw [states, ← resolved.count] at inside
    simp [assemble, Model.numChoices, inside]
  · intro closed copy _ index _ choice found target member
    have listed : ∃ entry ∈ kept, choice = entry.2 := by
      simp only [assemble, Model.stored?, Layout.stored?_withRows,
        Option.mem_def] at found
      have row := List.mem_of_getElem? found
      by_cases inside : copy < kept.length
      · refine ⟨kept[copy], List.getElem_mem inside, ?_⟩
        simpa [inside] using row
      · simp [inside] at row
    obtain ⟨entry, remains, rfl⟩ := listed
    obtain ⟨lower, place, within, done⟩ := resolved.origin entry remains
    obtain ⟨origin, -, -, offered, -, -, moved⟩ := resolveState_eq_ok done
    rw [moved, support_mapTargets_add] at member
    obtain ⟨successor, reached, rfl⟩ := List.mem_map.mp member
    rw [states]
    exact copy_lt (nextBlock_lt positive lower)
      (closed place within entry.1 (Layout.lt_numChoices_of_stored? offered)
        origin offered successor reached)
  · simp [assemble, Labels.names, Labels.mapSets]
  · intro name set found below
    refine ⟨liftSet m.numStates s.bound set, ?_, ?_⟩
    · change (m.labels.mapSets _).get? name = _
      rw [get?_mapSets, found]
      rfl
    · intro copy inside
      rw [states] at inside
      have occupied : 0 < m.numStates := Nat.pos_of_lt_mul_left inside
      have block : copy / m.numStates < s.bound :=
        (Nat.div_lt_iff_lt_mul occupied).mpr inside
      have lifted := contains_liftSet below block (Nat.mod_lt copy occupied)
      rw [Nat.div_add_mod'] at lifted
      exact lifted

/-- The strategy has a row for every state, and chooses in every state at every
level. -/
structure Resolvable (s : CountdownStrategy) (m : Model R) : Prop where
  rows : m.numStates ≤ s.table.length
  chooses : ∀ level state, 0 < level → level ≤ s.bound →
    state < m.numStates → Chooses s m level state

omit [Scalar R] in
theorem resolvable_of_chooses (levels : 0 < s.bound)
    (chooses : ∀ level state, 0 < level → level ≤ s.bound →
      state < m.numStates → Chooses s m level state) : Resolvable s m := by
  refine ⟨?_, chooses⟩
  by_contra short
  obtain ⟨action, acts, -⟩ :=
    chooses s.bound s.table.length levels le_rfl (Nat.lt_of_not_le short)
  rw [CountdownStrategy.actionAt, List.getElem?_eq_none le_rfl] at acts
  cases acts

omit [Scalar R] in
theorem FirstFailure.not_resolvable {level state : Nat}
    (first : FirstFailure s m s.bound level state) : ¬Resolvable s m :=
  fun resolvable => first.stuck
    (resolvable.chooses level state first.positive first.within first.inside)

/-- **Products are made entirely or not at all.**  There is a product exactly if
the model permits one, the strategy has a choice for every state at every level,
and the copies of successors can be indexed, as those of states always can.  If
only a choice is missing, the first one that is missing is reported, from the
highest level down and from the first state on.  A product has one copy of every
state for every level.  The strategy is the same afterwards, also if there is no
product, unless the contract was broken on the way. -/
theorem product_all_or_nothing (accepted : s.Accepted) (regular : m.Regular) :
    ((∃ product, (s.product m).1 = .ok product) ↔
      Permits m s.bound ∧ Resolvable s m ∧ Indexed s m) ∧
    (Permits m s.bound → m.Closed → Indexed s m) ∧
    (Permits m s.bound → Indexed s m → ¬Resolvable s m →
      ∃ level state cause, FirstFailure s m s.bound level state ∧
        Unresolved s m level state cause ∧
        (s.product m).1 = Attempt.fail (.product state level cause)) ∧
    (∀ product, (s.product m).1 = .ok product →
      Multiplies s.bound m product) ∧
    ((s.product m).1 ≠ Attempt.breach → (s.product m).2 = s) := by
  have made : ∀ product, (s.product m).1 = .ok product →
      Permits m s.bound ∧ Resolvable s m ∧ Indexed s m ∧
        Multiplies s.bound m product := by
    intro product made
    obtain ⟨permits, blank, kept, found, rfl⟩ := product_eq_ok made
    have resolved := resolved_of_resolveLevels le_rfl s.memory found
    have each : ∀ level state, 0 < level → level ≤ s.bound →
        state < m.numStates →
          Chooses s m level state ∧ Fits s m level state := by
      intro level state positive within inside
      obtain ⟨entry, done⟩ := resolved.each level state positive within inside
      exact ⟨chooses_of_resolveState done, fits_of_resolveState done⟩
    refine ⟨permits, resolvable_of_chooses permits.levels ?_, ?_,
      resolved.multiplies permits.levels blank⟩
    · intro level state positive within inside
      exact (each level state positive within inside).1
    · intro level state positive within inside
      exact (each level state positive within inside).2
  refine ⟨⟨?_, ?_⟩, indexed_of_closed, ?_, ?_, product_keeps⟩
  · rintro ⟨product, done⟩
    obtain ⟨permits, resolvable, indexed, -⟩ := made product done
    exact ⟨permits, resolvable, indexed⟩
  · rintro ⟨permits, resolvable, indexed⟩
    rcases product_cases accepted regular permits indexed with
      existing | ⟨level, state, cause, first, -⟩
    · exact existing
    · exact absurd resolvable first.not_resolvable
  · intro permits indexed unresolvable
    rcases product_cases accepted regular permits indexed with
      ⟨product, done⟩ | failure
    · exact absurd (made product done).2.1 unresolvable
    · exact failure
  · intro product done
    exact (made product done).2.2.2

/-- A plan that runs out of choices in the second state when two steps
remain. -/
def strayPlan : CountdownStrategy where
  table := [[⟨3, 0⟩, ⟨1, 1⟩], [⟨3, 0⟩, ⟨2, 7⟩], [⟨3, 0⟩]]
  bound := 3
  memory := some 1
  tableSize := 10
  info := "No information available"

theorem shuttlePlan_accepted : shuttlePlan.Accepted :=
  ⟨⟨[[3, 0, 1, 1], [3, 0], [3, 0]], 3, shuttlePlan, by decide, rfl, rfl⟩, nofun⟩

theorem strayPlan_accepted : strayPlan.Accepted :=
  ⟨⟨[[3, 0, 1, 1], [3, 0, 2, 7], [3, 0]], 3, { strayPlan with memory := none },
    by decide, rfl, rfl⟩, by decide⟩

theorem shuttle_regular : shuttle.Regular :=
  ⟨by decide +kernel, by decide⟩

theorem strayPlan_not_resolvable : ¬Resolvable strayPlan shuttle := by
  intro resolvable
  obtain ⟨action, acts, offered⟩ :=
    resolvable.chooses 2 1 (by decide) (by decide) (by decide)
  cases acts
  exact absurd offered (by decide)

/-- One plan has a product with the shuttle, the other one has none and is still
where it was. -/
theorem shuttle_all_or_nothing :
    shuttlePlan.Accepted ∧ strayPlan.Accepted ∧ shuttle.Regular ∧
    shuttle.Closed ∧ Permits shuttle 3 ∧
    (∃ product, (shuttlePlan.product shuttle).1 = .ok product ∧
      product.numStates = 9 ∧ Multiplies 3 shuttle product) ∧
    (∃ level state cause, FirstFailure strayPlan shuttle 3 level state ∧
      Unresolved strayPlan shuttle level state cause ∧
      (strayPlan.product shuttle).1 =
        Attempt.fail (.product state level cause)) ∧
    (strayPlan.product shuttle).2.memory = some 1 := by
  have closed : shuttle.Closed := by
    decide +kernel
  have permits : Permits shuttle 3 :=
    ⟨rfl, by decide, by decide, nofun, rfl, by decide⟩
  obtain ⟨-, -, -, multiplies, -⟩ :=
    product_all_or_nothing shuttlePlan_accepted shuttle_regular
  obtain ⟨-, indexed, reports, -, kept⟩ :=
    product_all_or_nothing strayPlan_accepted shuttle_regular
  obtain ⟨product, made, states⟩ := Attempt.map_toOption_eq_some.mp
    (show (shuttlePlan.product shuttle).1.toOption.map Model.numStates =
      some 9 by decide +kernel)
  have reported :=
    reports permits (indexed permits closed) strayPlan_not_resolvable
  refine ⟨shuttlePlan_accepted, strayPlan_accepted, shuttle_regular, closed,
    permits, ⟨product, made, states, multiplies product made⟩, reported, ?_⟩
  obtain ⟨level, state, cause, -, -, failed⟩ := reported
  rw [kept (by rw [failed]; nofun)]
  rfl

/-- A process that stays where it is. -/
def standstill : Model ℚ where
  kind := .mdp
  layout := .listed #[[.point 0]]

/-- A process that leaves the range of its states by far. -/
def escape : Model ℚ where
  kind := .mdp
  layout := .listed #[[.point (Word.limit - 1)]]

/-- A plan that takes the only choice all the time. -/
def steadyPlan (bound : Nat) : CountdownStrategy where
  table := [[⟨bound, 0⟩]]
  bound := bound
  memory := none
  tableSize := 2
  info := "No information available"

theorem steadyPlan_resolvable {m : Model ℚ} (single : m.numStates = 1)
    (choice : m.numChoices 0 = 1) (bound : Nat) :
    Resolvable (steadyPlan bound) m := by
  refine ⟨single.le, ?_⟩
  intro level state _ _ inside
  obtain rfl : state = 0 := Nat.lt_one_iff.mp (single ▸ inside)
  refine ⟨0, ?_, by rw [choice]; decide⟩
  change Attempt.entry (CountdownStrategy.decode [⟨bound, 0⟩] level) = _
  rw [CountdownStrategy.decode_singleton]
  rfl

/-- A plan that was read from a table has no product with a process in which it
has all choices, if the rows of the product cannot be laid out, or if a
successor has no index in the next block. -/
theorem steadyPlan_without_product :
    (CountdownStrategy.ofTable [[2 ^ 60, 0]] (2 ^ 60) =
        .ok (steadyPlan (2 ^ 60)) ∧
      standstill.kind = .mdp ∧ standstill.numStates = 1 ∧
      standstill.valuations = none ∧ standstill.layout.isLocked = false ∧
      Resolvable (steadyPlan (2 ^ 60)) standstill ∧
      Word.isIndex (standstill.numStates * 2 ^ 60) = true ∧
      ((steadyPlan (2 ^ 60)).product standstill).1 = Attempt.breach) ∧
    (CountdownStrategy.ofTable [[2, 0]] 2 = .ok (steadyPlan 2) ∧
      Resolvable (steadyPlan 2) escape ∧
      Permits escape 2 ∧
      ((steadyPlan 2).product escape).1 = Attempt.breach) := by
  refine ⟨⟨rfl, rfl, rfl, rfl, rfl, steadyPlan_resolvable rfl rfl _, by decide,
    ?_⟩,
    rfl, steadyPlan_resolvable rfl rfl _, ?_, ?_⟩
  · rfl
  · exact ⟨rfl, by decide, by decide, nofun, rfl, by decide⟩
  · rfl

end Product

end Markov
