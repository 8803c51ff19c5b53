import Markov.Proofs.Decided
import Markov.Proofs.Forced
import Markov.Proofs.Rounding

/-!
# Loops at dead ends

A table in which every state without choices gets a loop.  No set of the graph
analysis grows by a loop, since what a loop leads to is not in the set yet.  In
the equations a loop at rest computes the value that it has: neither does it
show among the differences that an iteration watches, nor in what a step writes.
-/

namespace Markov

variable {R : Type} [Scalar R]

namespace Table

/-- A state without choices. -/
def IsDeadEnd (t : Table R) (state : Nat) : Prop := t.rows[state]? = some []

/-- The table in which every dead end has a loop. -/
def looped (t : Table R) : Table R :=
  ⟨t.rows.mapIdx fun state row => if row.isEmpty then [[(state, 1)]] else row⟩

variable {t : Table R} {state : Nat}

@[simp]
theorem numStates_looped : t.looped.numStates = t.numStates :=
  Array.size_mapIdx

omit [Scalar R] in
theorem IsDeadEnd.lt_numStates (dead : t.IsDeadEnd state) :
    state < t.numStates :=
  (Array.getElem?_eq_some_iff.mp dead).1

omit [Scalar R] in
theorem IsDeadEnd.branches (dead : t.IsDeadEnd state) :
    t.branches state = [] := by
  rw [Table.branches, Array.getD_eq_getD_getElem?, dead, Option.getD_some]

theorem IsDeadEnd.row_looped (dead : t.IsDeadEnd state) :
    t.looped.rows[state]? = some [[(state, 1)]] := by
  rw [looped, Array.getElem?_mapIdx, dead]
  rfl

theorem IsDeadEnd.branches_looped (dead : t.IsDeadEnd state) :
    t.looped.branches state = [[(state, 1)]] := by
  rw [Table.branches, Array.getD_eq_getD_getElem?, dead.row_looped,
    Option.getD_some]

theorem row_looped_of_live (live : ¬t.IsDeadEnd state) :
    t.looped.rows[state]? = t.rows[state]? := by
  rw [looped, Array.getElem?_mapIdx]
  cases found : t.rows[state]? with
  | none => rfl
  | some row =>
      cases row with
      | nil => exact absurd found live
      | cons branch rest => rfl

theorem branches_looped_of_live (live : ¬t.IsDeadEnd state) :
    t.looped.branches state = t.branches state := by
  rw [branches, branches, Array.getD_eq_getD_getElem?,
    Array.getD_eq_getD_getElem?, row_looped_of_live live]

/-! ## Graph analysis -/

theorem any_support_loop {test : Nat → Bool} (fails : test state = false) :
    (Branch.support [(state, (1 : R))]).any test = false := by
  by_cases positive : (0 : R) < 1
  · simp [Branch.support, positive, fails]
  · simp [Branch.support, positive]

theorem not_staysAndHits_loop {u v : BitSet}
    (absent : v.contains state = false) :
    staysAndHits u v [(state, (1 : R))] = false := by
  rw [staysAndHits, any_support_loop absent, Bool.and_false]

omit [Scalar R] in
theorem qualifies_singleton (branch : Branch R) (direction : Option Direction)
    (good : Branch R → Bool) :
    qualifies [branch] direction good = good branch := by
  simp [qualifies]

omit [Scalar R] in
theorem qualifies_nil (direction : Option Direction) (good : Branch R → Bool) :
    qualifies [] direction good = false := by
  simp [qualifies]

theorem growReach_looped (dirs : Array (Option Direction))
    (left reach : BitSet) :
    t.looped.growReach dirs left reach = t.growReach dirs left reach := by
  unfold growReach
  rw [numStates_looped]
  congr 1
  funext reach state
  by_cases dead : t.IsDeadEnd state
  · rw [dead.branches_looped, dead.branches, qualifies_singleton, qualifies_nil]
    split
    · rfl
    · -- Only states outside the set are looked at, and a loop stays outside.
      rename_i outside
      have absent : reach.contains state = false := by
        simp only [Bool.or_eq_true, not_or] at outside
        simpa using outside.1
      rw [any_support_loop absent]
  · rw [branches_looped_of_live dead]

theorem growSure_looped (dirs : Array (Option Direction)) (left u : BitSet)
    (found : Witnessed) :
    t.looped.growSure dirs left u found = t.growSure dirs left u found := by
  unfold growSure
  rw [numStates_looped]
  congr 1
  funext found state
  by_cases dead : t.IsDeadEnd state
  · rw [dead.branches_looped, dead.branches]
    split
    · rfl
    · rename_i outside
      have absent : found.states.contains state = false := by
        simp only [Bool.or_eq_true, not_or] at outside
        simpa using outside.1.1
      simp [not_staysAndHits_loop (R := R) absent]
  · rw [branches_looped_of_live dead]

theorem zeroSet_looped (dirs : Array (Option Direction)) (left right : BitSet) :
    t.looped.zeroSet dirs left right = t.zeroSet dirs left right := by
  have rounds : t.looped.growReach dirs left = t.growReach dirs left :=
    funext (growReach_looped dirs left)
  simp only [zeroSet, reach?, rounds, numStates_looped]

theorem oneSet_looped (dirs : Array (Option Direction)) (left right : BitSet) :
    t.looped.oneSet dirs left right = t.oneSet dirs left right := by
  have rounds : ∀ u, t.looped.growSure dirs left u = t.growSure dirs left u :=
    fun u => funext (growSure_looped dirs left u)
  have shrinks : t.looped.shrinkSure dirs left right =
      t.shrinkSure dirs left right := by
    funext u
    simp only [shrinkSure, sureWithin?, rounds, numStates_looped]
  simp only [oneSet, sure?, shrinks, numStates_looped]

theorem checkedZeroSet_looped {ε : Type} (dirs : Array (Option Direction))
    (left right : BitSet) :
    (t.looped.checkedZeroSet dirs left right : Attempt ε BitSet) =
      t.checkedZeroSet dirs left right := by
  simp only [checkedZeroSet, knowsDirections, zeroSet_looped, numStates_looped]

theorem checkedOneSet_looped {ε : Type} (dirs : Array (Option Direction))
    (left right : BitSet) :
    (t.looped.checkedOneSet dirs left right : Attempt ε Witnessed) =
      t.checkedOneSet dirs left right := by
  simp only [checkedOneSet, knowsDirections, oneSet_looped, numStates_looped]

theorem IsDeadEnd.contains_right (dead : t.IsDeadEnd state)
    {dirs : Array (Option Direction)} {left right : BitSet}
    (member : (t.oneSet dirs left right).states.contains state = true) :
    right.contains state = true := by
  obtain ⟨u, count, grown⟩ := t.oneSet_spec dirs left right
  rcases grown.contains_cases member with inRight | ⟨-, earlier, passes⟩
  · exact inRight
  · rw [staysAndLeads, dead.branches, qualifies_nil, Bool.and_false] at passes
    cases passes

end Table

/-! ## Equations -/

namespace Bellman

/-- Equations and the same with loops at dead ends.  On the given states rewards
are the same, and where a loop is added there are none. -/
structure Loops (b c : Bellman R) (states : Nat → Prop) : Prop where
  table : c.table = b.table.looped
  directions : c.directions = b.directions
  options : c.options = b.options
  directed : b.numStates ≤ b.directions.size
  rewards : ∀ state, states state → ¬b.table.IsDeadEnd state →
    c.rewards.map (·.getD state []) = b.rewards.map (·.getD state [])
  unrewarded : ∀ state, states state → b.table.IsDeadEnd state →
    c.rewards = none

/-- What a dead end among the given states holds in a vector. -/
def AtRest {α : Type} (b : Bellman R) (states : Nat → Prop) (rest : α)
    (x : Array α) : Prop :=
  ∀ state, states state → b.table.IsDeadEnd state → x[state]? = some rest

section Rest

variable {α : Type} {b : Bellman R} {states : Nat → Prop} {rest : α}
  {x : Array α} {state : Nat}

omit [Scalar R] in
theorem AtRest.getD (atRest : b.AtRest states rest x) (member : states state)
    (dead : b.table.IsDeadEnd state) (absent : α) :
    x.getD state absent = rest := by
  rw [Array.getD_eq_getD_getElem?, atRest state member dead, Option.getD_some]

omit [Scalar R] in
theorem AtRest.lt_size (atRest : b.AtRest states rest x)
    (member : states state) (dead : b.table.IsDeadEnd state) :
    state < x.size :=
  (Array.getElem?_eq_some_iff.mp (atRest state member dead)).1

omit [Scalar R] in
theorem AtRest.setIfInBounds_self (atRest : b.AtRest states rest x)
    (member : states state) (dead : b.table.IsDeadEnd state) :
    x.setIfInBounds state rest = x := by
  apply Array.ext_getElem?
  intro other
  rw [Array.getElem?_setIfInBounds]
  by_cases same : state = other
  · subst same
    rw [if_pos rfl, if_pos (atRest.lt_size member dead),
      atRest state member dead]
  · rw [if_neg same]

omit [Scalar R] in
theorem AtRest.mono {fewer : Nat → Prop} (atRest : b.AtRest states rest x)
    (among : ∀ state, fewer state → states state) : b.AtRest fewer rest x :=
  fun state member => atRest state (among state member)

omit [Scalar R] in
theorem AtRest.setIfInBounds (atRest : b.AtRest states rest x)
    (live : ¬b.table.IsDeadEnd state) (value : α) :
    b.AtRest states rest (x.setIfInBounds state value) := by
  intro other member dead
  have apart : state ≠ other := fun same => live (same ▸ dead)
  rw [Array.getElem?_setIfInBounds, if_neg apart, atRest other member dead]

end Rest

section Congruence

variable {b c : Bellman R} {state : Nat}

theorem best_congr (branches : c.table.branches state = b.table.branches state)
    (direction : c.direction state = b.direction state)
    (reward : c.reward state = b.reward state) (x : Array R) :
    c.best state x = b.best state x := by
  have value : c.branchValue state = b.branchValue state := by
    funext choice branch x
    rw [branchValue, branchValue, reward]
  have scan : ∀ direction index best rest,
      c.scan direction state x index best rest =
        b.scan direction state x index best rest := by
    intro direction index best rest
    induction rest generalizing index best with
    | nil => rfl
    | cons branch rest ih => rw [Bellman.scan, Bellman.scan, value, ih]
  unfold best
  rw [branches, direction]
  simp only [value, scan]

end Congruence

namespace Loops

variable {b c : Bellman R} {states : Nat → Prop} {state : Nat}
  (loops : Loops b c states)

include loops

theorem numStates_eq : c.numStates = b.numStates := by
  rw [numStates, loops.table, Table.numStates_looped, numStates]

theorem direction_eq (state : Nat) : c.direction state = b.direction state := by
  rw [direction, direction, loops.directions]

theorem reward_of_live (member : states state)
    (live : ¬b.table.IsDeadEnd state) : c.reward state = b.reward state := by
  have same := loops.rewards state member live
  funext choice
  unfold reward
  cases given : b.rewards with
  | none =>
      rw [given, Option.map_none, Option.map_eq_none_iff] at same
      rw [same]
  | some rows =>
      rw [given, Option.map_some, Option.map_eq_some_iff] at same
      obtain ⟨others, isOthers, equal⟩ := same
      simp only [isOthers, equal]

theorem best_of_live (member : states state)
    (live : ¬b.table.IsDeadEnd state) (x : Array R) :
    c.best state x = b.best state x := by
  apply best_congr _ (loops.direction_eq state) (loops.reward_of_live member live)
  rw [loops.table, Table.branches_looped_of_live live]

omit loops in
theorem best_of_dead (dead : b.table.IsDeadEnd state) (x : Array R) :
    b.best state x = none :=
  best_eq_none_iff.mpr dead.branches

theorem branches_of_dead (dead : b.table.IsDeadEnd state) :
    c.table.branches state = [[(state, 1)]] := by
  rw [loops.table, dead.branches_looped]

theorem best_of_loop (dead : b.table.IsDeadEnd state) (x : Array R) :
    c.best state x = some (c.branchValue state 0 [(state, 1)] x, 0) :=
  best_of_single (loops.branches_of_dead dead) x

/-! ### Readiness -/

theorem branchReady_of_live (member : states state)
    (live : ¬b.table.IsDeadEnd state) (size : Nat) :
    c.branchReady size state = b.branchReady size state := by
  have same := loops.rewards state member live
  funext choice branch
  unfold branchReady
  cases given : b.rewards with
  | none =>
      rw [given, Option.map_none, Option.map_eq_none_iff] at same
      rw [same]
  | some rows =>
      rw [given, Option.map_some, Option.map_eq_some_iff] at same
      obtain ⟨others, isOthers, equal⟩ := same
      simp only [isOthers, equal]

theorem branchReady_of_loop (member : states state)
    (dead : b.table.IsDeadEnd state) {size : Nat} (inside : state < size)
    (choice : Nat) : c.branchReady size state choice [(state, 1)] = true := by
  simp [branchReady, loops.unrewarded state member dead, Branch.isBelow, inside]

theorem bestReady_eq (member : states state) {size : Nat}
    (inside : b.table.IsDeadEnd state → state < size) :
    b.bestReady size state = c.bestReady size state := by
  unfold bestReady
  by_cases dead : b.table.IsDeadEnd state
  · have directed : state < b.directions.size :=
      dead.lt_numStates.trans_le loops.directed
    have row : b.table.rows[state]? = some [] := dead
    rw [loops.table, dead.row_looped, row, loops.directions]
    simp [directed, loops.branchReady_of_loop member dead (inside dead)]
  · rw [loops.table, Table.row_looped_of_live dead, loops.directions,
      loops.branchReady_of_live member dead, loops.direction_eq]

theorem policyReadyAt_eq (member : states state) {policy : Array Nat}
    (policyAtRest : b.AtRest states 0 policy) {size : Nat}
    (inside : b.table.IsDeadEnd state → state < size) :
    b.policyReadyAt policy size state = c.policyReadyAt policy size state := by
  unfold policyReadyAt
  by_cases dead : b.table.IsDeadEnd state
  · have row : b.table.rows[state]? = some [] := dead
    rw [loops.table, dead.row_looped, row, policyAtRest state member dead]
    simp [inside dead, loops.branchReady_of_loop member dead (inside dead)]
  · rw [loops.table, Table.row_looped_of_live dead,
      loops.branchReady_of_live member dead]

/-! ### Choices -/

/-- A loop takes the choice that is noted for a dead end anyway. -/
theorem decisions_eq {entries : List Nat}
    (within : ∀ state ∈ entries, states state) (x : Array R) :
    b.decisions entries x = c.decisions entries x ∧
      b.AtRest states 0 (b.decisions entries x) := by
  have start : b.AtRest states 0 (Array.replicate b.numStates 0) := by
    intro state _ dead
    rw [Array.getElem?_replicate, if_pos (show state < b.numStates from dead.lt_numStates)]
  unfold decisions
  rw [loops.numStates_eq]
  apply Table.foldl_eq_of_kept (b.AtRest states 0) _ start
  intro choices state member atRest
  by_cases dead : b.table.IsDeadEnd state
  · rw [best_of_dead dead, loops.best_of_loop dead]
    exact ⟨(atRest.setIfInBounds_self (within state member) dead).symm, atRest⟩
  · rw [loops.best_of_live (within state member) dead]
    refine ⟨rfl, ?_⟩
    split
    · exact atRest.setIfInBounds dead _
    · exact atRest

theorem choiceValue_of_live (member : states state)
    (live : ¬b.table.IsDeadEnd state) (choice : Nat) (x : Array R) :
    c.choiceValue state choice x = b.choiceValue state choice x := by
  rw [choiceValue, choiceValue, loops.table, Table.branches_looped_of_live live,
    branchValue, branchValue, loops.reward_of_live member live]

variable (laws : LoopsRest R)

include laws

theorem branchValue_of_loop (member : states state)
    (dead : b.table.IsDeadEnd state) {x : Array R}
    (atRest : b.AtRest states 0 x) :
    c.branchValue state 0 [(state, 1)] x = 0 := by
  have value : Branch.dot [(state, (1 : R))] x =
      Scalar.emptySum + 1 * x.getD state 0 := rfl
  rw [branchValue, reward, loops.unrewarded state member dead, value,
    atRest.getD member dead]
  exact laws.rest

theorem best_of_resting_loop (member : states state)
    (dead : b.table.IsDeadEnd state) {x : Array R}
    (atRest : b.AtRest states 0 x) : c.best state x = some (0, 0) := by
  rw [loops.best_of_loop dead, loops.branchValue_of_loop laws member dead atRest]

/-! ### Steps -/

theorem writeBest_eq {entries : List Nat}
    (within : ∀ state ∈ entries, states state) {x room : Array R}
    (atRest : b.AtRest states 0 x) (roomAtRest : b.AtRest states 0 room) :
    b.writeBest x entries room = c.writeBest x entries room ∧
      b.AtRest states 0 (b.writeBest x entries room) := by
  apply Table.foldl_eq_of_kept (b.AtRest states 0) _ roomAtRest
  intro room state member roomAtRest
  by_cases dead : b.table.IsDeadEnd state
  · rw [best_of_dead dead,
      loops.best_of_resting_loop laws (within state member) dead atRest]
    exact ⟨(roomAtRest.setIfInBounds_self (within state member) dead).symm,
      roomAtRest⟩
  · rw [loops.best_of_live (within state member) dead]
    refine ⟨rfl, ?_⟩
    split
    · exact roomAtRest.setIfInBounds dead _
    · exact roomAtRest

omit loops laws in
/-- Both vectors of a step have dead ends at rest. -/
def BuffersAtRest (b : Bellman R) (states : Nat → Prop) (buffers : Buffers R) :
    Prop :=
  b.AtRest states 0 buffers.current ∧ b.AtRest states 0 buffers.spare

theorem step_eq {entries : List Nat}
    (within : ∀ state ∈ entries, states state) {buffers : Buffers R}
    (atRest : BuffersAtRest b states buffers) :
    b.step entries buffers = c.step entries buffers ∧
      BuffersAtRest b states (b.step entries buffers) := by
  obtain ⟨same, kept⟩ :=
    loops.writeBest_eq laws within atRest.1 atRest.2
  exact ⟨congrArg (Buffers.mk · buffers.current) same, kept, atRest.1⟩

end Loops

/-! ### Differences -/

/-- A difference beside which one of zero does not show. -/
def Absorbs (delta : R) : Prop := Scalar.larger delta 0 = delta

theorem absorbs_zero : Absorbs (0 : R) := by
  simp [Absorbs, Scalar.larger]

theorem absorbs_larger (laws : LoopsRest R) (criterion : Criterion) {delta : R}
    (absorbs : Absorbs delta) (old new : R) :
    Absorbs (Scalar.larger delta (criterion.gap old new)) := by
  have own := laws.gap criterion old new
  generalize criterion.gap old new = gap at own ⊢
  have larger : Scalar.larger delta gap =
      if gap == gap then if gap < delta then delta else gap else delta := rfl
  rw [larger]
  split
  · rename_i number
    split
    · exact absorbs
    · exact own number
  · exact absorbs

theorem gap_zero (laws : LoopsRest R) (criterion : Criterion) :
    criterion.gap (0 : R) 0 = 0 := by
  rw [Criterion.gap, if_pos laws.beq_zero]

end Bellman

end Markov
