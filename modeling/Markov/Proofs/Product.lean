import Markov.Product
import Markov.Proofs.Layout
import Markov.Proofs.Policy

/-!
# Products of countdown strategies

When a strategy plays a policy of choices that a process has, its product with
the process exists, and is made of copies of the process in which only the
choices of the policy are left.
-/

namespace Markov

/-- The policy of a countdown strategy, which takes the first choice where the
table has no rule. -/
def CountdownStrategy.policy (s : CountdownStrategy) : Policy :=
  fun state level => (s.table[state]?.bind (decode · level)).getD 0

theorem CountdownStrategy.policy_of_actionAt {R : Type}
    {s : CountdownStrategy} {state level action : Nat}
    (acts : s.actionAt (R := R) state level = .ok action) :
    s.policy state level = action := by
  unfold actionAt at acts
  unfold policy
  cases row : s.table[state]? with
  | none => simp [row, Attempt.fail] at acts
  | some rules =>
      cases decoded : decode rules level with
      | none => simp [row, decoded, Attempt.entry, Attempt.breach] at acts
      | some found => simpa [row, decoded, Attempt.entry] using acts

namespace Product

@[simp]
theorem memorySize_eq {R : Type} [Scalar R] (s : CountdownStrategy) :
    Strategy.memorySize R s = s.bound := rfl

@[simp]
theorem supportsProduct_eq {R : Type} [Scalar R] (s : CountdownStrategy) :
    Strategy.supportsProduct R s = true := rfl

theorem div_mod_copy {n place : Nat} (block : Nat)
    (inside : place < n) :
    (block * n + place) / n = block ∧ (block * n + place) % n = place := by
  have positive : 0 < n := Nat.zero_lt_of_lt inside
  rw [Nat.mul_comm, Nat.mul_add_div positive, Nat.mul_add_mod,
    Nat.div_eq_of_lt inside, Nat.mod_eq_of_lt inside]
  exact ⟨Nat.add_zero block, rfl⟩

theorem copy_lt {n bound block place : Nat} (level : block < bound)
    (inside : place < n) : block * n + place < bound * n :=
  calc block * n + place
      < block * n + n := Nat.add_lt_add_left inside _
    _ = (block + 1) * n := (Nat.succ_mul block n).symm
    _ ≤ bound * n := Nat.mul_le_mul_right n level

private theorem flatMap_range_map {α : Type} (blocks n : Nat) (f : Nat → Nat → α) :
    ((List.range blocks).flatMap fun block => (List.range n).map (f block)) =
      (List.range (blocks * n)).map fun copy => f (copy / n) (copy % n) := by
  induction blocks with
  | zero => simp
  | succ blocks ih =>
      rw [List.range_succ, List.flatMap_append, ih, Nat.succ_mul,
        List.range_add, List.map_append, List.map_map]
      congr 1
      rw [List.flatMap_singleton]
      apply List.map_congr_left
      intro place member
      obtain ⟨block, rest⟩ := div_mod_copy blocks (List.mem_range.mp member)
      rw [Function.comp_apply, block, rest]

variable {R : Type} [Scalar R]

/-- The strategy takes the choices of a policy, and the process has them. -/
structure Plays (s : CountdownStrategy) (m : Model R) (policy : Policy) :
    Prop where
  decides : ∀ state level, state < m.numStates → 0 < level →
    level ≤ s.bound →
    s.actionAt (R := R) state level = .ok (policy state level)
  offers : ∀ state level, state < m.numStates → 0 < level →
    level ≤ s.bound →
    m.layout.isAddressable state (policy state level) = true ∧
      ∃ choice, m.stored? state (policy state level) = some choice ∧
        choice.NonNegative ∧
          Branch.isBelow choice.entries m.numStates = true

/-- The choice of a policy. -/
def chosen (m : Model R) (policy : Policy) (level state : Nat) :
    Distribution R :=
  (m.stored? state (policy state level)).getD default

/-- What is left of a state at a level. -/
def keptMove (m : Model R) (policy : Policy) (bound level state : Nat) :
    Nat × Distribution R :=
  (policy state level, (chosen m policy level state).mapTargets
    (nextBlock bound level * m.numStates + ·))

/-- What is left of all copies of the process. -/
def keptMoves (m : Model R) (policy : Policy) (bound : Nat) :
    List (Nat × Distribution R) :=
  (List.range (bound * m.numStates)).map fun copy =>
    keptMove m policy bound (bound - copy / m.numStates) (copy % m.numStates)

section Building

variable {s : CountdownStrategy} {m : Model R} {policy : Policy}

theorem Plays.isBelow_chosen (plays : Plays s m policy) {state level : Nat}
    (inside : state < m.numStates) (positive : 0 < level)
    (within : level ≤ s.bound) :
    Branch.isBelow (chosen m policy level state).entries m.numStates =
      true := by
  obtain ⟨-, choice, found, -, below⟩ :=
    plays.offers state level inside positive within
  simpa [chosen, found] using below

theorem Plays.nonNegative_chosen (plays : Plays s m policy) {state level : Nat}
    (inside : state < m.numStates) (positive : 0 < level)
    (within : level ≤ s.bound) : (chosen m policy level state).NonNegative := by
  obtain ⟨-, choice, found, accepted, -⟩ :=
    plays.offers state level inside positive within
  simpa [chosen, found] using accepted

theorem resolveMove_of_actionAt {level state action : Nat}
    (acts : s.actionAt (R := R) state level = .ok action)
    (addressable : m.layout.isAddressable state action = true)
    (accepted : ∀ choice ∈ m.stored? state action, choice.NonNegative) :
    resolveMove { s with memory := some level } m state =
      match m.stored? state action with
      | some choice => .ok (action, choice)
      | none => Attempt.fail
          (.unsupportedProduct (.noChoice state (m.numChoices state) action)) := by
  have move : Strategy.nextMove (R := R)
      ({ s with memory := some level } : CountdownStrategy) state =
        .ok (Distribution.point action) := by
    change (do let action ← s.actionAt state level; _) = _
    rw [acts]
    rfl
  simp only [resolveMove, move, Attempt.ok_bind, Distribution.support_point,
    Model.findChoice, addressable, Attempt.require_true,
    Layout.choice?_eq_ok accepted]
  rfl

theorem Plays.resolveMove_eq_ok (plays : Plays s m policy) {state level : Nat}
    (inside : state < m.numStates) (positive : 0 < level)
    (within : level ≤ s.bound) :
    resolveMove { s with memory := some level } m state =
      .ok (policy state level, chosen m policy level state) := by
  obtain ⟨addressable, choice, found, nonNegative, -⟩ :=
    plays.offers state level inside positive within
  have action := plays.decides state level inside positive within
  have accepted : ∀ other ∈ m.stored? state (policy state level),
      other.NonNegative := by
    intro other same
    rw [found] at same
    cases same
    exact nonNegative
  rw [resolveMove_of_actionAt action addressable accepted, found]
  simp [chosen, found]

theorem nextBlock_lt {bound : Nat} (positive : 0 < bound) (level : Nat) :
    nextBlock bound level < bound := by
  unfold nextBlock
  omega

theorem isIndex_add {bound level n target : Nat}
    (room : n * bound ≤ Word.maxRows) (positive : 0 < bound)
    (inside : target < n) :
    Word.isIndex (nextBlock bound level * n + target) = true := by
  have copy := copy_lt (nextBlock_lt positive level) inside
  rw [Nat.mul_comm bound n] at copy
  have limit : Word.maxRows < Word.limit := by decide
  simp only [Word.isIndex, decide_eq_true_eq]
  omega

theorem Plays.resolveState_eq_ok (plays : Plays s m policy)
    (room : m.numStates * s.bound ≤ Word.maxRows) {state level : Nat}
    (inside : state < m.numStates) (positive : 0 < level)
    (within : level ≤ s.bound) :
    resolveState { s with memory := some level } m s.bound level state =
      .ok (keptMove m policy s.bound level state) := by
  have below := plays.isBelow_chosen inside positive within
  have indices : ((chosen m policy level state).support.all fun target =>
      Word.isIndex (nextBlock s.bound level * m.numStates + target)) =
        true := by
    apply List.all_eq_true.mpr
    intro target member
    obtain ⟨entry, entryMember, rfl⟩ := List.mem_map.mp member
    have successor := List.all_eq_true.mp below entry entryMember
    exact isIndex_add room (positive.trans_le within)
      (of_decide_eq_true successor)
  have accepted := plays.nonNegative_chosen inside positive within
  simp only [resolveState, plays.resolveMove_eq_ok inside positive within,
    Attempt.mapCause, Attempt.ok_bind, indices, Attempt.require_true,
    Distribution.checkedMap_eq_ok accepted]
  rfl

theorem Plays.resolveLevel_eq_ok (plays : Plays s m policy)
    (room : m.numStates * s.bound ≤ Word.maxRows) {level : Nat}
    (positive : 0 < level) (within : level ≤ s.bound) :
    resolveLevel { s with memory := some level } m s.bound level =
      .ok ((List.range m.numStates).map
        (keptMove m policy s.bound level)) :=
  Attempt.mapM_eq_ok_map fun _ member =>
    plays.resolveState_eq_ok room (List.mem_range.mp member) positive within

theorem setMemory_counter (changed : CountdownStrategy)
    {memory : Nat} (within : memory ≤ changed.bound) :
    Strategy.setMemory (R := R) changed (.counter memory) =
      (.ok (), { changed with memory := some memory }) := by
  have low : (0 : Int) ≤ memory := Int.natCast_nonneg _
  have high : (memory : Int) ≤ changed.bound := by exact_mod_cast within
  simp only [Strategy.setMemory, CountdownStrategy.setMemory, low, high,
    decide_true, Bool.and_true, if_true]
  rfl

theorem restore_memory
    (active : ∀ memory ∈ s.memory, memory ≤ s.bound) (last : Option Nat) :
    ∃ changed, restore (R := R) (Strategy.memory s)
      ({ s with memory := last } : CountdownStrategy) = (.ok (), changed) := by
  cases found : s.memory with
  | none =>
      have inactive : Strategy.memory (R := R) s =
          .error (.invalidState "the strategy has not been initialised") := by
        simp only [Strategy.memory, CountdownStrategy.currentMemory,
          CountdownStrategy.remaining, found]
        rfl
      exact ⟨_, by rw [inactive]; rfl⟩
  | some memory =>
      have current : Strategy.memory (R := R) s = .ok (.counter memory) := by
        simp only [Strategy.memory, CountdownStrategy.currentMemory,
          CountdownStrategy.remaining, found]
        rfl
      rw [current]
      exact ⟨_, setMemory_counter _ (active memory found)⟩

theorem Plays.resolveLevels_eq_ok (plays : Plays s m policy)
    (room : m.numStates * s.bound ≤ Word.maxRows) {level : Nat}
    (within : level ≤ s.bound) (memory : Option Nat) :
    ∃ last, resolveLevels m s.bound level { s with memory := memory } =
      (.ok ((List.range level).flatMap fun block =>
        (List.range m.numStates).map
          (keptMove m policy s.bound (level - block))),
        { s with memory := last }) := by
  induction level generalizing memory with
  | zero => exact ⟨memory, rfl⟩
  | succ level ih =>
      obtain ⟨last, rest⟩ := ih (Nat.le_of_succ_le within) (some (level + 1))
      have set := setMemory_counter (R := R) { s with memory := memory } within
      refine ⟨last, ?_⟩
      simp only [resolveLevels, set,
        plays.resolveLevel_eq_ok room (Nat.succ_pos level) within, rest]
      rw [List.range_succ_eq_map, List.flatMap_cons, List.flatMap_map]
      simp [Except.map]

@[simp]
theorem product_fst (s : CountdownStrategy) (m : Model R) :
    (s.product m).1 = (build s m).1 := by
  unfold CountdownStrategy.product
  split
  · rename_i broken
    rw [broken]
    rfl
  · rename_i built
    rw [built]

/-- What a product asks for besides a policy that can be played. -/
structure Permits (m : Model R) (bound : Nat) : Prop where
  kind : m.kind = .mdp
  states : 0 < m.numStates
  levels : 0 < bound
  valuations : ∀ valuations ∈ m.valuations, valuations.length = m.numStates
  unlocked : m.layout.isLocked = false
  room : m.numStates * bound ≤ Word.maxRows

theorem Permits.prepare_eq_ok (permits : Permits m s.bound) :
    prepare s m =
      .ok { kind := .mdp, layout := m.layout.withRows #[] } := by
  have states : m.numStates ≠ 0 := permits.states.ne'
  have levels : s.bound ≠ 0 := permits.levels.ne'
  have index : Word.isIndex (m.numStates * s.bound) = true := by
    have limit : Word.maxRows < Word.limit := by decide
    have room := permits.room
    simp only [Word.isIndex, decide_eq_true_eq]
    omega
  have blank : m.blank? 0 =
      some { kind := .mdp, layout := m.layout.withRows #[] } := by
    simp [Model.blank?, permits.unlocked, permits.kind]
  unfold prepare
  simp only [memorySize_eq, supportsProduct_eq, permits.kind, states, levels,
    index, blank]
  cases found : m.valuations with
  | none => simp [permits.room]
  | some valuations =>
      have counted := permits.valuations valuations found
      simp [counted, permits.room]

theorem Plays.resolveLevels_eq_keptMoves (plays : Plays s m policy)
    (room : m.numStates * s.bound ≤ Word.maxRows) :
    ∃ last, resolveLevels m s.bound s.bound s =
      (.ok (keptMoves m policy s.bound), { s with memory := last }) := by
  rw [keptMoves, ← flatMap_range_map _ _
    fun block => keptMove m policy s.bound (s.bound - block)]
  exact plays.resolveLevels_eq_ok room le_rfl s.memory

/-- The product with a policy that can be played. -/
theorem Plays.product_eq_ok (plays : Plays s m policy)
    (permits : Permits m s.bound)
    (active : ∀ memory ∈ s.memory, memory ≤ s.bound) :
    (s.product m).1 =
      .ok (assemble m { kind := .mdp, layout := m.layout.withRows #[] }
        s.bound (keptMoves m policy s.bound)) := by
  obtain ⟨last, resolved⟩ := plays.resolveLevels_eq_keptMoves permits.room
  obtain ⟨changed, restored⟩ := restore_memory (R := R) active last
  rw [product_fst]
  simp only [build, permits.prepare_eq_ok, memorySize_eq, resolved, restored]
  rfl

/-! ## What a product tells -/

/-- A move that is resolved is that of the table, and the process has it. -/
theorem resolveMove_eq_ok {level state : Nat} {kept : Nat × Distribution R}
    (resolved : resolveMove { s with memory := some level } m state =
      .ok kept) :
    s.actionAt (R := R) state level = .ok kept.1 ∧
      m.layout.isAddressable state kept.1 = true ∧
      m.stored? state kept.1 = some kept.2 := by
  obtain ⟨move, moved, rest⟩ := Attempt.bind_eq_ok.mp resolved
  obtain ⟨action, acts, moved⟩ := Attempt.bind_eq_ok.mp moved
  cases moved
  simp only [Distribution.support_point] at rest
  obtain ⟨found, finds, rest⟩ := Attempt.bind_eq_ok.mp rest
  obtain ⟨addressable, finds⟩ := Attempt.require_bind_eq_ok.mp finds
  have stored := Layout.stored?_of_choice? finds
  split at rest
  · cases rest
    exact ⟨acts, addressable, stored⟩
  · cases rest

/-- What is left of a state that was resolved. -/
theorem resolveState_eq_ok {level state : Nat} {kept : Nat × Distribution R}
    (resolved : resolveState { s with memory := some level } m s.bound level
      state = .ok kept) :
    ∃ choice, s.actionAt (R := R) state level = .ok kept.1 ∧
      m.layout.isAddressable state kept.1 = true ∧
      m.stored? state kept.1 = some choice ∧
      (∀ target ∈ choice.support, Word.isIndex
        (nextBlock s.bound level * m.numStates + target) = true) ∧
      choice.NonNegative ∧
      kept.2 = choice.mapTargets (nextBlock s.bound level * m.numStates + ·) := by
  obtain ⟨⟨action, choice⟩, moved, rest⟩ := Attempt.bind_eq_ok.mp resolved
  obtain ⟨successors, rest⟩ := Attempt.require_bind_eq_ok.mp rest
  obtain ⟨image, mapped, done⟩ := Attempt.bind_eq_ok.mp rest
  obtain ⟨accepted, rfl⟩ := Distribution.eq_mapTargets_of_checkedMap mapped
  cases done
  obtain ⟨acts, addressable, found⟩ :=
    resolveMove_eq_ok (Attempt.mapCause_eq_ok.mp moved)
  exact ⟨choice, acts, addressable, found, List.all_eq_true.mp successors,
    accepted, rfl⟩

/-- What is left of a level comes from its states, one by one. -/
theorem resolveLevel_eq_ok {level : Nat} {kept : List (Nat × Distribution R)}
    (resolved : resolveLevel { s with memory := some level } m s.bound level =
      .ok kept) :
    kept.length = m.numStates ∧
    (∀ entry ∈ kept, ∃ state, state < m.numStates ∧
      resolveState { s with memory := some level } m s.bound level state =
        .ok entry) ∧
    ∀ state, state < m.numStates → ∃ entry,
      resolveState { s with memory := some level } m s.bound level state =
        .ok entry := by
  obtain ⟨lengths, each⟩ := Attempt.mapM_eq_ok resolved
  rw [List.length_range] at lengths
  refine ⟨lengths, ?_, ?_⟩
  · intro entry member
    obtain ⟨state, found⟩ := List.mem_iff_getElem?.mp member
    have inside : state < m.numStates :=
      lengths ▸ (List.getElem?_eq_some_iff.mp found).1
    obtain ⟨other, same, done⟩ := each state state (List.getElem?_range inside)
    rw [found] at same
    cases same
    exact ⟨state, inside, done⟩
  · intro state inside
    obtain ⟨entry, -, done⟩ := each state state (List.getElem?_range inside)
    exact ⟨entry, done⟩

/-- What is left of the levels from `level` down to one comes from all their
states. -/
structure Resolved (s : CountdownStrategy) (m : Model R) (level : Nat)
    (kept : List (Nat × Distribution R)) : Prop where
  count : kept.length = level * m.numStates
  origin : ∀ entry ∈ kept, ∃ lower state, state < m.numStates ∧
    resolveState { s with memory := some lower } m s.bound lower state =
      .ok entry
  each : ∀ lower state, 0 < lower → lower ≤ level → state < m.numStates →
    ∃ entry, resolveState { s with memory := some lower } m s.bound lower
      state = .ok entry

theorem Resolved.succ {level : Nat} {here rest : List (Nat × Distribution R)}
    (resolved : resolveLevel { s with memory := some (level + 1) } m s.bound
      (level + 1) = .ok here) (below : Resolved s m level rest) :
    Resolved s m (level + 1) (here ++ rest) := by
  obtain ⟨counted, origin, each⟩ := resolveLevel_eq_ok resolved
  constructor
  · rw [List.length_append, counted, below.count, Nat.succ_mul, Nat.add_comm]
  · intro entry member
    rcases List.mem_append.mp member with top | lower
    · exact ⟨level + 1, origin entry top⟩
    · exact below.origin entry lower
  · intro lower state positive bounded inside
    rcases Nat.lt_or_eq_of_le bounded with less | rfl
    · exact below.each lower state positive (Nat.le_of_lt_succ less) inside
    · exact each state inside

theorem resolved_of_resolveLevels {level : Nat} (within : level ≤ s.bound)
    (memory : Option Nat) {kept : List (Nat × Distribution R)}
    (done : (resolveLevels m s.bound level { s with memory := memory }).1 =
      .ok kept) : Resolved s m level kept := by
  induction level generalizing memory kept with
  | zero =>
      cases done
      refine ⟨by simp, nofun, ?_⟩
      intro lower state positive below
      omega
  | succ level ih =>
      have set := setMemory_counter (R := R) { s with memory := memory } within
      simp only [resolveLevels, set] at done
      split at done
      · cases done
      · rename_i here resolved
        cases later : (resolveLevels m s.bound level
            { s with memory := some (level + 1) }).1 with
        | error failure =>
            simp only [later] at done
            cases done
        | ok rest =>
            simp only [later] at done
            cases done
            exact .succ resolved (ih (Nat.le_of_succ_le within) _ later)

theorem Resolved.nonNegative {level : Nat} {kept : List (Nat × Distribution R)}
    (resolved : Resolved s m level kept) :
    ∀ entry ∈ kept, entry.2.NonNegative := by
  intro entry member
  obtain ⟨lower, state, -, done⟩ := resolved.origin entry member
  obtain ⟨choice, -, -, -, -, accepted, moved⟩ := resolveState_eq_ok done
  rw [moved, Distribution.NonNegative, Distribution.entries_mapTargets_add]
  exact accepted.moved _

theorem nonNegative_assemble {blank : Model R} {bound : Nat}
    {kept : List (Nat × Distribution R)}
    (accepted : ∀ entry ∈ kept, entry.2.NonNegative) :
    (assemble m blank bound kept).NonNegative := by
  intro state index choice found
  simp only [assemble, Model.stored?, Layout.stored?_withRows,
    Option.mem_def] at found
  have row := List.mem_of_getElem? found
  by_cases inside : state < kept.length
  · obtain rfl : choice = kept[state].2 := by simpa [inside] using row
    exact accepted _ (List.getElem_mem inside)
  · simp [inside] at row

omit [Scalar R] in
private theorem layOut_eq_ok {blank : Model R}
    (laidOut : (do
      Attempt.require (Word.isIndex (m.numStates * s.bound))
      match m.blank? 0 with
      | none => Attempt.fail (.unsupportedProduct .lockedLayout)
      | some blank => do
        Attempt.require (m.numStates * s.bound ≤ Word.maxRows)
        return blank : Attempt (StrategyError R) (Model R)) = .ok blank) :
    m.layout.isLocked = false ∧ m.numStates * s.bound ≤ Word.maxRows := by
  obtain ⟨-, rest⟩ := Attempt.require_bind_eq_ok.mp laidOut
  split at rest
  · cases rest
  · rename_i found
    obtain ⟨room, -⟩ := Attempt.require_bind_eq_ok.mp rest
    refine ⟨?_, of_decide_eq_true room⟩
    by_contra locked
    simp [Model.blank?, locked] at found

theorem prepare_eq_ok {blank : Model R} (prepared : prepare s m = .ok blank) :
    Permits m s.bound := by
  unfold prepare at prepared
  simp only [memorySize_eq, supportsProduct_eq, Bool.not_true,
    Bool.false_eq_true, if_false, Attempt.fail_bind] at prepared
  split at prepared
  · cases prepared
  rename_i kind
  split at prepared
  · cases prepared
  rename_i inhabited
  simp only [Bool.or_eq_true, decide_eq_true_eq, not_or] at inhabited
  have permits : (∀ valuations ∈ m.valuations,
      valuations.length = m.numStates) →
      m.layout.isLocked = false ∧ m.numStates * s.bound ≤ Word.maxRows →
      Permits m s.bound := fun valuations laidOut =>
    ⟨not_not.mp kind, Nat.pos_of_ne_zero inhabited.2,
      Nat.pos_of_ne_zero inhabited.1, valuations, laidOut.1, laidOut.2⟩
  cases found : m.valuations with
  | none =>
      simp only [found] at prepared
      exact permits (by simp [found]) (layOut_eq_ok prepared)
  | some valuations =>
      simp only [found] at prepared
      split at prepared
      · cases prepared
      · rename_i even
        exact permits (by simpa [found] using even) (layOut_eq_ok prepared)

/-- A product is put together from levels that were resolved. -/
theorem product_eq_ok {product : Model R}
    (made : (s.product m).1 = .ok product) :
    Permits m s.bound ∧ ∃ blank kept,
      (resolveLevels m s.bound s.bound s).1 = .ok kept ∧
      product = assemble m blank s.bound kept := by
  rw [product_fst] at made
  unfold build at made
  split at made
  · cases made
  rename_i blank prepared
  refine ⟨prepare_eq_ok prepared, blank, ?_⟩
  simp only [memorySize_eq] at made
  cases levels : resolveLevels m s.bound s.bound s with
  | mk outcome changed =>
      rw [levels] at made
      cases outcome with
      | error failure =>
          cases failure with
          | breach => cases made
          | error cause =>
              dsimp only at made
              split at made <;> cases made
      | ok kept =>
          dsimp only at made
          split at made
          · cases made
          · cases made
            exact ⟨kept, rfl, rfl⟩

/-- A product that exists is made of copies of the process along the policy of
the strategy. -/
theorem product_eq_unrolled {product : Model R}
    (made : (s.product m).1 = .ok product)
    (below : ∀ state, state < m.numStates → ∀ index,
      index < m.numChoices state → ∀ choice ∈ m.stored? state index,
        Branch.isBelow choice.entries m.numStates = true) :
    Plays s m s.policy ∧ Permits m s.bound ∧ ∃ blank,
      product = assemble m blank s.bound (keptMoves m s.policy s.bound) := by
  obtain ⟨permits, blank, kept, found, rfl⟩ := product_eq_ok made
  have resolved := resolved_of_resolveLevels le_rfl s.memory found
  have offered : ∀ level state, 0 < level → level ≤ s.bound →
      state < m.numStates →
      ∃ action choice, s.actionAt (R := R) state level = .ok action ∧
        m.layout.isAddressable state action = true ∧
        m.stored? state action = some choice ∧ choice.NonNegative := by
    intro level state positive within inside
    obtain ⟨entry, done⟩ := resolved.each level state positive within inside
    obtain ⟨choice, acts, addressable, found, -, accepted, -⟩ :=
      resolveState_eq_ok done
    exact ⟨entry.1, choice, acts, addressable, found, accepted⟩
  have plays : Plays s m s.policy := by
    constructor
    · intro state level inside positive within
      obtain ⟨action, choice, acts, -⟩ :=
        offered level state positive within inside
      rw [CountdownStrategy.policy_of_actionAt acts]
      exact acts
    · intro state level inside positive within
      obtain ⟨action, choice, acts, addressable, found, accepted⟩ :=
        offered level state positive within inside
      rw [CountdownStrategy.policy_of_actionAt acts]
      exact ⟨addressable, choice, found, accepted, below state inside action
        (Layout.lt_numChoices_of_stored? found) choice found⟩
  obtain ⟨last, moves⟩ := plays.resolveLevels_eq_keptMoves permits.room
  rw [moves] at found
  cases found
  exact ⟨plays, permits, blank, rfl⟩

theorem product_eq_fail {valuations : List Valuation} (kind : m.kind = .mdp)
    (states : 0 < m.numStates) (levels : 0 < s.bound)
    (found : m.valuations = some valuations)
    (uneven : valuations.length ≠ m.numStates) :
    (s.product m).1 = Attempt.fail
      (.unsupportedProduct (.valuations m.numStates valuations.length)) := by
  have refused : prepare s m = Attempt.fail
      (.unsupportedProduct (.valuations m.numStates valuations.length)) := by
    unfold prepare
    simp [kind, states.ne', levels.ne', found, uneven]
  rw [product_fst]
  simp only [build, refused, Attempt.fail]

end Building

/-! ## Copies -/

section Copies

variable (m blank : Model R) (policy : Policy) (bound : Nat)

/-- The process with the moves of a policy, before it is read as a table. -/
abbrev unrolled : Model R := assemble m blank bound (keptMoves m policy bound)

theorem numStates_unrolled :
    (unrolled m blank policy bound).numStates = bound * m.numStates := by
  simp [unrolled, assemble, Model.numStates, keptMoves]

theorem Plays.nonNegative_unrolled {s : CountdownStrategy} {m : Model R}
    {policy : Policy} (plays : Plays s m policy) (blank : Model R) :
    (unrolled m blank policy s.bound).NonNegative := by
  apply nonNegative_assemble
  intro entry member
  obtain ⟨copy, counted, rfl⟩ := List.mem_map.mp member
  have inside := List.mem_range.mp counted
  have occupied : 0 < m.numStates := Nat.pos_of_lt_mul_left inside
  have block : copy / m.numStates < s.bound :=
    (Nat.div_lt_iff_lt_mul occupied).mpr inside
  have accepted := plays.nonNegative_chosen (Nat.mod_lt copy occupied)
    (Nat.sub_pos_of_lt block) (Nat.sub_le s.bound _)
  rw [keptMove, Distribution.NonNegative, Distribution.entries_mapTargets_add]
  exact accepted.moved _

/-- A copy has one branch, which leads to the block of the next level. -/
theorem branches_unrolled {block state : Nat} (level : block < bound)
    (inside : state < m.numStates) :
    (Table.ofModel (unrolled m blank policy bound)).branches
        (block * m.numStates + state) =
      [(chosen m policy (bound - block) state).entries.map fun entry =>
        (nextBlock bound (bound - block) * m.numStates + entry.1,
          entry.2)] := by
  have counted : block * m.numStates + state <
      (unrolled m blank policy bound).numStates := by
    rw [numStates_unrolled]
    exact copy_lt level inside
  obtain ⟨block', rest⟩ := div_mod_copy block inside
  rw [Table.branches_ofModel counted]
  simp [unrolled, assemble, keptMoves, keptMove, copy_lt level inside, block',
    rest, Distribution.entries_mapTargets_add]

/-- The copies lead to copies. -/
theorem Plays.isBelow_unrolled {m : Model R} {policy : Policy}
    {s : CountdownStrategy} (plays : Plays s m policy) (blank : Model R)
    {copy : Nat} (inside : copy < s.bound * m.numStates) :
    ∃ branch, (Table.ofModel (unrolled m blank policy s.bound)).branches copy =
        [branch] ∧ branch.isBelow (s.bound * m.numStates) = true := by
  have states : 0 < m.numStates := Nat.pos_of_lt_mul_left inside
  have place : copy % m.numStates < m.numStates := Nat.mod_lt _ states
  have block : copy / m.numStates < s.bound :=
    (Nat.div_lt_iff_lt_mul states).mpr inside
  have single := branches_unrolled m blank policy s.bound block place
  rw [Nat.div_add_mod'] at single
  refine ⟨_, single, ?_⟩
  have below := plays.isBelow_chosen place (Nat.sub_pos_of_lt block)
    (Nat.sub_le _ _)
  have next := nextBlock_lt (Nat.zero_lt_of_lt block)
    (s.bound - copy / m.numStates)
  simp only [Branch.isBelow, List.all_map, List.all_eq_true,
    Function.comp_apply, decide_eq_true_eq] at below ⊢
  exact fun entry member => copy_lt next (below entry member)

end Copies

theorem contains_liftSet {n bound : Nat} {set : BitSet}
    (below : set.isBelow n = true) {block state : Nat} (level : block < bound)
    (inside : state < n) :
    (liftSet n bound set).contains (block * n + state) =
      set.contains state := by
  rw [Bool.eq_iff_iff]
  simp only [liftSet, BitSet.contains_ofList, decide_eq_true_eq,
    List.mem_flatMap, List.mem_range, List.mem_map, BitSet.mem_toList]
  constructor
  · rintro ⟨other, -, place, member, same⟩
    have placed := BitSet.isBelow_iff.mp below place member
    have := (div_mod_copy other placed).2
    rw [same, (div_mod_copy block inside).2] at this
    exact this ▸ member
  · intro member
    exact ⟨block, level, state, member, rfl⟩

theorem isBelow_liftSet {n bound : Nat} {set : BitSet}
    (below : set.isBelow n = true) :
    (liftSet n bound set).isBelow (bound * n) = true := by
  rw [BitSet.isBelow_iff]
  intro copy member
  simp only [liftSet, BitSet.contains_ofList, decide_eq_true_eq,
    List.mem_flatMap, List.mem_range, List.mem_map,
    BitSet.mem_toList] at member
  obtain ⟨block, level, place, member, rfl⟩ := member
  exact copy_lt level (BitSet.isBelow_iff.mp below place member)

end Product

end Markov
