import Markov.Proofs.Methods
import Markov.Proofs.OneSet

/-!
# States that are decided in advance

An unbounded query sets out from two sets: states that are known to have
probability zero, and states that are known to have probability one.  They come
from the graph analysis or, without it, from the sets of the query alone.  The
two never share a state, whatever the weights are, and no method of solution
touches their values.  All of this holds for any arithmetic.
-/

namespace Markov

namespace BitSet

/-- The number of members that a set claims to have is right. -/
def Counted (set : BitSet) : Prop := set.size = set.toList.length

instance (set : BitSet) : Decidable set.Counted :=
  inferInstanceAs (Decidable (_ = _))

theorem length_toList_insert {set : BitSet} {index : Nat}
    (absent : set.contains index = false) :
    (set.insert index).toList.length = set.toList.length + 1 := by
  have fresh : index ∉ set.toList := by simp [absent]
  have permutation : (set.insert index).toList.Perm (index :: set.toList) := by
    apply (List.perm_ext_iff_of_nodup (nodup_toList _)
      (List.nodup_cons.mpr ⟨fresh, nodup_toList _⟩)).mpr
    intro other
    simp
  rw [permutation.length_eq, List.length_cons]

theorem Counted.insert {set : BitSet} (counted : set.Counted) (index : Nat) :
    (set.insert index).Counted := by
  unfold Counted at counted ⊢
  cases present : set.contains index with
  | true =>
      have same : (set.insert index).toList = set.toList := by
        apply toList_congr
        intro other
        by_cases equal : other = index
        · simp [equal, present]
        · simp [equal]
      rw [same, ← counted]
      simp [BitSet.insert, add, present]
  | false =>
      rw [size_insert present, length_toList_insert present, counted]

theorem Counted.insertMany {set : BitSet} (counted : set.Counted)
    (indices : List Nat) : (set.insertMany indices).Counted := by
  unfold BitSet.insertMany
  induction indices generalizing set with
  | nil => exact counted
  | cons index indices ih => exact ih (counted.insert index)

theorem counted_ofList (indices : List Nat) : (ofList indices).Counted :=
  (show empty.Counted from rfl).insertMany indices

theorem counted_complement (set : BitSet) (n : Nat) :
    (set.complement n).Counted :=
  counted_ofList _

end BitSet

theorem Grown.counted {test : BitSet → Nat → Bool} {n count : Nat}
    {start set : BitSet} (grown : Grown test n start count set)
    (counted : start.Counted) : set.Counted := by
  induction grown with
  | start => exact counted
  | add _ _ _ _ ih => exact ih.insert _

namespace Table

theorem qualifies_mono {R : Type} {branches : List (Branch R)}
    {direction : Option Direction} {good better : Branch R → Bool}
    (implies : ∀ branch, good branch = true → better branch = true)
    (qualified : qualifies branches direction good = true) :
    qualifies branches direction better = true := by
  unfold qualifies at qualified ⊢
  split
  · rename_i existential
    rw [if_pos existential, List.any_eq_true] at qualified
    obtain ⟨branch, member, isGood⟩ := qualified
    exact List.any_eq_true.mpr ⟨branch, member, implies branch isGood⟩
  · rename_i universal
    rw [if_neg universal, Bool.and_eq_true, List.all_eq_true] at qualified
    rw [Bool.and_eq_true, List.all_eq_true]
    exact ⟨qualified.1, fun branch member =>
      implies branch (qualified.2 branch member)⟩

variable {R : Type} [Scalar R] {t : Table R} {dirs : Array (Option Direction)}
  {left right : BitSet}

/-- The zero set is what a closed set around `right` leaves over. -/
theorem zeroSet_spec (t : Table R) (dirs : Array (Option Direction))
    (left right : BitSet) :
    ∃ reach, (∀ state, right.contains state = true →
        reach.contains state = true) ∧
      Closed (t.leadsInto dirs left) t.numStates reach ∧
      ∀ state, (t.zeroSet dirs left right).contains state = true ↔
        state < t.numStates ∧ reach.contains state = false := by
  obtain ⟨reach, count, found, grown, closed⟩ := t.reach?_spec dirs left right
  refine ⟨reach, fun _ => grown.contains_of_start, closed, ?_⟩
  intro state
  simp [zeroSet, found]

theorem contains_zeroSet_of_outside {state : Nat} (inside : state < t.numStates)
    (notLeft : left.contains state = false)
    (notRight : right.contains state = false) :
    (t.zeroSet dirs left right).contains state = true := by
  obtain ⟨reach, count, found, grown, -⟩ := t.reach?_spec dirs left right
  have absent : reach.contains state = false := by
    by_contra present
    rcases grown.contains_cases (by simpa using present) with
      inRight | ⟨-, earlier, leads⟩
    · simp [notRight] at inRight
    · simp [leadsInto, notLeft] at leads
  simp [zeroSet, found, inside, absent]

/-- The one set came about by additions to `right` inside some set. -/
theorem oneSet_spec (t : Table R) (dirs : Array (Option Direction))
    (left right : BitSet) :
    ∃ u count, Grown (t.staysAndLeads dirs left u) t.numStates right count
      (t.oneSet dirs left right).states := by
  obtain ⟨last, -, -, found⟩ := t.sure?_spec dirs left right (fun _ => True)
    trivial (fun _ _ => trivial)
  obtain ⟨count, grown, -⟩ := t.states_shrinkSure dirs left right last
  refine ⟨last.states, count, ?_⟩
  rw [oneSet, found, Option.getD_some]
  exact grown

/-- What reaches `right` without leaving `u` is in every closed set around
`right`. -/
theorem contains_of_staysAndLeads {u reach set : BitSet} {count : Nat}
    (around : ∀ state, right.contains state = true →
      reach.contains state = true)
    (closed : Closed (t.leadsInto dirs left) t.numStates reach)
    (grown : Grown (t.staysAndLeads dirs left u) t.numStates right count set)
    {state : Nat} (member : set.contains state = true) :
    reach.contains state = true := by
  induction grown generalizing state with
  | start => exact around state member
  | @add count set added earlier inside absent passes ih =>
      rw [BitSet.contains_insert, Bool.or_eq_true,
        decide_eq_true_eq] at member
      rcases member with rfl | old
      · simp only [staysAndLeads, Bool.and_eq_true] at passes
        apply closed state inside
        rw [leadsInto, passes.1.1, Bool.true_and]
        refine qualifies_mono ?_ passes.2
        intro branch good
        simp only [staysAndHits, Bool.and_eq_true] at good
        obtain ⟨target, inSupport, present⟩ := List.any_eq_true.mp good.2
        exact List.any_eq_true.mpr ⟨target, inSupport, ih present⟩
      · exact ih old

/-- No state has both probability zero and probability one. -/
theorem contains_oneSet_of_zeroSet {state : Nat}
    (zero : (t.zeroSet dirs left right).contains state = true) :
    (t.oneSet dirs left right).states.contains state = false := by
  obtain ⟨reach, around, closed, member⟩ := t.zeroSet_spec dirs left right
  obtain ⟨u, count, grown⟩ := t.oneSet_spec dirs left right
  by_contra present
  rw [Bool.not_eq_false] at present
  have reached := contains_of_staysAndLeads around closed grown present
  simp [((member state).mp zero).2] at reached

end Table

/-- Every index below `n` is a member of exactly one of the sets, and no other
index is a member of any. -/
def Partitions (n : Nat) (sets : List BitSet) : Prop :=
  ∀ index, sets.countP (·.contains index) = if index < n then 1 else 0

namespace Solver

variable {R : Type} [Scalar R] {solver : Solver R} {left right no yes : BitSet}
  {computed : Computed R}

/-! ## The sets -/

theorem decided_eq_ok_of_graph (analysed : solver.options.precomputation = true)
    (found : solver.decided left right = .ok (no, yes)) :
    no = solver.table.zeroSet solver.directions left right ∧
      yes = (solver.table.oneSet solver.directions left right).states := by
  rw [decided, if_pos analysed] at found
  obtain ⟨zero, zeroFound, rest⟩ := Attempt.bind_eq_ok.mp found
  obtain ⟨one, oneFound, returned⟩ := Attempt.bind_eq_ok.mp rest
  obtain ⟨-, isZero⟩ := Attempt.require_bind_eq_ok.mp zeroFound
  obtain ⟨-, isOne⟩ := Attempt.require_bind_eq_ok.mp oneFound
  cases isZero
  cases isOne
  cases returned
  exact ⟨rfl, rfl⟩

theorem decided_eq_ok_of_plain (plain : solver.options.precomputation = false)
    (found : solver.decided left right = .ok (no, yes)) :
    no = (left ∪ right).complement solver.numStates ∧ yes = right := by
  rw [decided, plain, if_neg Bool.false_ne_true] at found
  cases found
  exact ⟨rfl, rfl⟩

theorem exists_decided (directed : solver.numStates ≤ solver.directions.size)
    (left right : BitSet) :
    ∃ no yes, solver.decided left right = .ok (no, yes) := by
  have known := Table.knowsDirections_of_le directed left right
  unfold decided
  split
  · simp only [Table.checkedZeroSet, Table.checkedOneSet, known,
      Attempt.require_true]
    exact ⟨_, _, rfl⟩
  · exact ⟨_, _, rfl⟩

/-- What is known of the states that are decided in advance. -/
structure Decides (n : Nat) (left right no yes : BitSet) : Prop where
  noBelow : ∀ state, no.contains state = true → state < n
  yesBelow : ∀ state, yes.contains state = true → state < n
  disjoint : ∀ state, no.contains state = true → yes.contains state = false
  /-- The goal is reached where it is. -/
  goal : ∀ state, right.contains state = true → yes.contains state = true
  /-- Outside both sets of the query it is never reached. -/
  outside : ∀ state, state < n → left.contains state = false →
    right.contains state = false → no.contains state = true

theorem decides_of_graph (rightBelow : right.isBelow solver.numStates = true) :
    Decides solver.numStates left right
      (solver.table.zeroSet solver.directions left right)
      (solver.table.oneSet solver.directions left right).states := by
  obtain ⟨reach, around, closed, member⟩ :=
    solver.table.zeroSet_spec solver.directions left right
  obtain ⟨u, count, grown⟩ :=
    solver.table.oneSet_spec solver.directions left right
  constructor
  · intro state zero
    exact ((member state).mp zero).1
  · intro state one
    rcases grown.contains_cases one with inRight | ⟨inside, -⟩
    · exact BitSet.isBelow_iff.mp rightBelow state inRight
    · exact inside
  · intro state
    exact Table.contains_oneSet_of_zeroSet
  · intro state inRight
    exact grown.contains_of_start inRight
  · intro state inside notLeft notRight
    exact Table.contains_zeroSet_of_outside inside notLeft notRight

theorem decides_of_plain {n : Nat} (rightBelow : right.isBelow n = true) :
    Decides n left right ((left ∪ right).complement n) right := by
  constructor
  · intro state member
    simp only [BitSet.contains_complement, Bool.and_eq_true,
      decide_eq_true_eq] at member
    exact member.1
  · exact BitSet.isBelow_iff.mp rightBelow
  · intro state member
    simp only [BitSet.contains_complement, BitSet.contains_union, Bool.not_or,
      Bool.and_eq_true, Bool.not_eq_true'] at member
    exact member.2.2
  · exact fun _ inRight => inRight
  · intro state inside notLeft notRight
    simp [inside, notLeft, notRight]

theorem decides_of_decided (rightBelow : right.isBelow solver.numStates = true)
    (found : solver.decided left right = .ok (no, yes)) :
    Decides solver.numStates left right no yes := by
  cases plain : solver.options.precomputation with
  | true =>
      obtain ⟨rfl, rfl⟩ := decided_eq_ok_of_graph plain found
      exact decides_of_graph rightBelow
  | false =>
      obtain ⟨rfl, rfl⟩ := decided_eq_ok_of_plain plain found
      exact decides_of_plain rightBelow

theorem Decides.partitions {n : Nat} (decides : Decides n left right no yes) :
    Partitions n [no, yes, (no ∪ yes).complement n] := by
  intro state
  have noBelow := decides.noBelow state
  have yesBelow := decides.yesBelow state
  have disjoint := decides.disjoint state
  by_cases inside : state < n
  · cases inNo : no.contains state with
    | true => simp [inside, inNo, disjoint inNo]
    | false =>
        cases inYes : yes.contains state with
        | true => simp [inside, inNo, inYes]
        | false => simp [inside, inNo, inYes]
  · have notNo : no.contains state = false :=
      Bool.eq_false_of_not_eq_true fun member => inside (noBelow member)
    have notYes : yes.contains state = false :=
      Bool.eq_false_of_not_eq_true fun member => inside (yesBelow member)
    simp [inside, notNo, notYes]

theorem counted_of_decided (counted : right.Counted)
    (found : solver.decided left right = .ok (no, yes)) :
    no.Counted ∧ yes.Counted := by
  cases plain : solver.options.precomputation with
  | true =>
      obtain ⟨rfl, rfl⟩ := decided_eq_ok_of_graph plain found
      obtain ⟨u, count, grown⟩ :=
        solver.table.oneSet_spec solver.directions left right
      exact ⟨BitSet.counted_complement _ _, grown.counted counted⟩
  | false =>
      obtain ⟨rfl, rfl⟩ := decided_eq_ok_of_plain plain found
      exact ⟨BitSet.counted_complement _ _, counted⟩

/-! ## The values -/

/-- An unbounded query starts with the sets, and has nothing to solve or a
solution. -/
theorem holdsUntil_inversion
    (found : solver.holdsUntil left right = .ok computed) :
    ∃ no yes solution, solver.decided left right = .ok (no, yes) ∧
      yes.isBelow solver.numStates = true ∧
      (solution = ⟨indicator yes solver.numStates, .idle⟩ ∨
        (solver.bellman none).solve ((no ∪ yes).complement solver.numStates)
          (indicator yes solver.numStates) none = .ok solution) ∧
      computed =
        { values := solution.values
          stats := { solution.stats with numNo := no.size, numYes := yes.size } } := by
  obtain ⟨⟨no, yes⟩, decided, rest⟩ := Attempt.bind_eq_ok.mp found
  dsimp only at rest
  obtain ⟨start, initial, rest⟩ := Attempt.bind_eq_ok.mp rest
  obtain ⟨below, isIndicator⟩ := Attempt.require_bind_eq_ok.mp initial
  cases isIndicator
  split at rest
  · cases rest
    exact ⟨no, yes, _, decided, below, .inl rfl, rfl⟩
  · obtain ⟨solution, solved, returned⟩ := Attempt.bind_eq_ok.mp rest
    cases returned
    exact ⟨no, yes, solution, decided, below,
      .inr (Attempt.mapCause_eq_ok.mp solved), rfl⟩

theorem holdsUntil_eq_ok (found : solver.holdsUntil left right = .ok computed) :
    ∃ no yes, solver.decided left right = .ok (no, yes) ∧
      computed.stats.numNo = no.size ∧ computed.stats.numYes = yes.size ∧
      (computed.values = indicator yes solver.numStates ∨
        ∃ solution, (solver.bellman none).solve
            ((no ∪ yes).complement solver.numStates)
            (indicator yes solver.numStates) none = .ok solution ∧
          computed.values = solution.values) := by
  obtain ⟨no, yes, solution, decided, -, origin, rfl⟩ :=
    holdsUntil_inversion found
  refine ⟨no, yes, decided, rfl, rfl, ?_⟩
  rcases origin with rfl | solved
  · exact .inl rfl
  · exact .inr ⟨solution, solved, rfl⟩

/-- Decided states keep the values that they start with. -/
theorem getElem?_holdsUntil_of_decided
    (decided : solver.decided left right = .ok (no, yes))
    (found : solver.holdsUntil left right = .ok computed) :
    computed.values.size = solver.numStates ∧
      ∀ state, no.contains state = true ∨ yes.contains state = true →
        computed.values[state]? =
          (indicator (R := R) yes solver.numStates)[state]? := by
  have size : (indicator (R := R) yes solver.numStates).size =
      solver.numStates := size_indicator yes solver.numStates
  obtain ⟨otherNo, otherYes, again, -, -, values⟩ := holdsUntil_eq_ok found
  rw [decided] at again
  cases again
  rcases values with same | ⟨solution, solved, same⟩
  · rw [same]
    exact ⟨size, fun _ _ => rfl⟩
  · obtain ⟨sizes, kept⟩ := Bellman.solve_kept solved
    rw [same]
    refine ⟨sizes.trans size, ?_⟩
    intro state known
    apply kept
    rintro ⟨unknown, -⟩
    rcases known with inNo | inYes
    · simp [inNo] at unknown
    · simp [inYes] at unknown

/-- **The states that are decided in advance keep their values.**  The sets `no`
and `yes` of an unbounded query share no state and leave the others to solve.
The goal is in `yes`, and what is outside both sets of the query is in `no`.  If
the query has values, by whatever method, they are one on `yes` and zero on `no`,
and the statistics give the numbers of their members. -/
theorem holdsUntil_fixes_decided (solver : Solver R) (left right : BitSet)
    (rightBelow : right.isBelow solver.numStates = true) :
    (∀ state,
      (solver.table.zeroSet solver.directions left right).contains state =
          true →
        (solver.table.oneSet solver.directions left right).states.contains
          state = false) ∧
    (solver.numStates ≤ solver.directions.size →
      ∃ no yes, solver.decided left right = .ok (no, yes)) ∧
    ∀ no yes, solver.decided left right = .ok (no, yes) →
      Partitions solver.numStates
        [no, yes, (no ∪ yes).complement solver.numStates] ∧
      (∀ state, right.contains state = true → yes.contains state = true) ∧
      (∀ state, state < solver.numStates → left.contains state = false →
        right.contains state = false → no.contains state = true) ∧
      ∀ computed, solver.holdsUntil left right = .ok computed →
        computed.values.size = solver.numStates ∧
        (∀ state, yes.contains state = true →
          computed.values[state]? = some 1) ∧
        (∀ state, no.contains state = true →
          computed.values[state]? = some 0) ∧
        computed.stats.numNo = no.size ∧ computed.stats.numYes = yes.size ∧
        (right.Counted → no.size = no.toList.length ∧
          yes.size = yes.toList.length) := by
  refine ⟨fun _ => Table.contains_oneSet_of_zeroSet,
    fun directed => exists_decided directed left right, ?_⟩
  intro no yes decided
  have decides := decides_of_decided rightBelow decided
  refine ⟨decides.partitions, decides.goal, decides.outside, ?_⟩
  intro computed found
  obtain ⟨size, kept⟩ := getElem?_holdsUntil_of_decided decided found
  refine ⟨size, ?_, ?_, ?_⟩
  · intro state inYes
    rw [kept state (.inr inYes),
      getElem?_indicator yes (decides.yesBelow state inYes), inYes]
    rfl
  · intro state inNo
    rw [kept state (.inl inNo),
      getElem?_indicator yes (decides.noBelow state inNo),
      decides.disjoint state inNo]
    rfl
  · obtain ⟨otherNo, otherYes, again, numNo, numYes, -⟩ :=
      holdsUntil_eq_ok found
    rw [decided] at again
    cases again
    exact ⟨numNo, numYes, fun counted => counted_of_decided counted decided⟩

/-- A game whose first state can wait or take its chance, either of the second
state, which moves on to the goal, or of the third one, where it is stuck. -/
def crossroads : Solver ℚ where
  table := ⟨#[[[(1, 1 / 2), (2, 1 / 2)], [(0, 1)]], [[(3, 1)]], [[(2, 1)]],
    [[(3, 1)]], [[(4, 1)]]]⟩
  directions := #[some .max, some .min, some .max, none, some .min]
  options := ⟨true, .absolute, 1 / 1000, 100, .policyIteration, 20, false⟩

/-- Policy iteration has only the first state of the crossroads to solve. -/
theorem crossroads_fixes_decided :
    (BitSet.ofList [3]).isBelow 5 = true ∧
    ∃ no yes computed,
      crossroads.decided (.ofList [0, 1, 2]) (.ofList [3]) = .ok (no, yes) ∧
      crossroads.holdsUntil (.ofList [0, 1, 2]) (.ofList [3]) = .ok computed ∧
      no.toList = [2, 4] ∧ yes.toList = [1, 3] ∧
      Partitions 5 [no, yes, (no ∪ yes).complement 5] ∧
      computed.values[0]? = some (1 / 2) ∧
      computed.values[1]? = some 1 ∧ computed.values[2]? = some 0 ∧
      computed.stats.numNo = 2 ∧ computed.stats.numYes = 2 := by
  have below : (BitSet.ofList [3]).isBelow 5 = true := by decide
  have counted : (BitSet.ofList [3]).Counted := BitSet.counted_ofList [3]
  obtain ⟨⟨no, yes⟩, decided, members⟩ := Attempt.map_toOption_eq_some.mp
    (show (crossroads.decided (.ofList [0, 1, 2]) (.ofList [3])).toOption.map
        (fun sets => (sets.1.toList, sets.2.toList)) = some ([2, 4], [1, 3]) by
      decide +kernel)
  obtain ⟨inNo, inYes⟩ := Prod.mk.injEq .. ▸ members
  obtain ⟨computed, found, first⟩ := Attempt.map_toOption_eq_some.mp
    (show (crossroads.holdsUntil (.ofList [0, 1, 2]) (.ofList [3])).toOption.map
        (·.values[0]?) = some (some (1 / 2)) by
      decide +kernel)
  obtain ⟨-, -, each⟩ := holdsUntil_fixes_decided crossroads
    (.ofList [0, 1, 2]) (.ofList [3]) below
  obtain ⟨partitions, -, -, values⟩ := each no yes decided
  obtain ⟨-, ones, zeros, numNo, numYes, sizes⟩ := values computed found
  refine ⟨below, no, yes, computed, decided, found, inNo, inYes, partitions,
    first, ones 1 ?_, zeros 2 ?_, ?_, ?_⟩
  · rw [← BitSet.mem_toList, inYes]
    decide
  · rw [← BitSet.mem_toList, inNo]
    decide
  · rw [numNo, (sizes counted).1, inNo]
    rfl
  · rw [numYes, (sizes counted).2, inYes]
    rfl

end Solver

end Markov
