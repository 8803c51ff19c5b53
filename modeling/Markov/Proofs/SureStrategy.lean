import Markov.Proofs.OneSet

/-!
# The choices behind probability one

Besides the states of probability one the graph analysis gives a choice for
each of them that may decide.  The choices are written while the set is still
being looked for: a round that fails leaves its choices behind, and the next
one writes over them.  Yet those of the last round are a strategy.  The states
that this round finds can be numbered in the order in which it finds them, and
every choice that counts keeps to the set and may lead to a smaller number.
All of this holds for any arithmetic.
-/

namespace Markov

/-- What every round preserves holds of the result. -/
theorem stabilise_kept {α : Type} {round : α → α} {set : α → BitSet}
    {invariant : α → Prop}
    (kept : ∀ current, invariant current → invariant (round current))
    {fuel : Nat} {start result : α} (initial : invariant start)
    (found : stabilise round set fuel start = some result) :
    invariant result := by
  induction fuel generalizing start with
  | zero => cases found
  | succ fuel ih =>
      have next := kept start initial
      rw [stabilise] at found
      split at found
      · cases found
        exact next
      · exact ih next found

namespace Table

variable {R : Type} [Scalar R]

/-- A branch that never leaves `u`, and that may lead to a state of `reached`
whose rank is smaller than that of `state`. -/
structure Descends (u reached : BitSet) (rank : Nat → Nat) (state : Nat)
    (branch : Branch R) : Prop where
  stays : ∀ target ∈ branch.support, u.contains target = true
  leads : ∃ target ∈ branch.support, reached.contains target = true ∧
    rank target < rank state

/-- The choices that the direction of a state asks for are good: the one that
the witness names, or all of them. -/
def Supported (t : Table R) (dirs : Array (Option Direction))
    (witness : Array Nat) (state : Nat) (good : Branch R → Prop) : Prop :=
  if isExistential (dirs.getD state none) then
    ∃ choice branch, witness[state]? = some choice ∧
      (t.branches state)[choice]? = some branch ∧ good branch
  else t.branches state ≠ [] ∧ ∀ branch ∈ t.branches state, good branch

/-- A rank for the states that were found: zero on `right`, and above the rank
of some successor elsewhere. -/
structure RankedBy (t : Table R) (dirs : Array (Option Direction))
    (left right u : BitSet) (found : Witnessed) (rank : Nat → Nat) :
    Prop where
  around : ∀ state, right.contains state = true →
    found.states.contains state = true
  zero : ∀ state, found.states.contains state = true →
    (rank state = 0 ↔ right.contains state = true)
  inside : ∀ state, found.states.contains state = true →
    right.contains state = false →
    state < t.numStates ∧ left.contains state = true
  supported : ∀ state, found.states.contains state = true →
    right.contains state = false →
    t.Supported dirs found.witness state (Descends u found.states rank state)

/-- What a round of additions preserves: the states that were found have ranks,
and the witness has an entry for every state. -/
structure Ranking (t : Table R) (dirs : Array (Option Direction))
    (left right u : BitSet) (found : Witnessed) : Prop where
  size : found.witness.size = t.numStates
  ranked : ∃ rank count, t.RankedBy dirs left right u found rank ∧
    ∀ state, found.states.contains state = true → rank state ≤ count

variable {t : Table R} {dirs : Array (Option Direction)}
  {left right u : BitSet} {found : Witnessed}

omit [Scalar R] in
theorem Supported.imp {witness other : Array Nat} {state : Nat}
    {good better : Branch R → Prop}
    (supported : t.Supported dirs witness state good)
    (same : other[state]? = witness[state]?)
    (implies : ∀ branch, good branch → better branch) :
    t.Supported dirs other state better := by
  unfold Supported at supported ⊢
  rw [same]
  split at supported
  · rename_i existential
    rw [if_pos existential]
    obtain ⟨choice, branch, taken, listed, isGood⟩ := supported
    exact ⟨choice, branch, taken, listed, implies branch isGood⟩
  · rename_i universal
    rw [if_neg universal]
    exact ⟨supported.1, fun branch member =>
      implies branch (supported.2 branch member)⟩

/-! ## One addition -/

/-- A state that is added comes after everything that was found before.  What
the witness says about those states must not change. -/
theorem Ranking.add (ranking : t.Ranking dirs left right u found)
    {state : Nat} {witness : Array Nat} (below : state < t.numStates)
    (absent : found.states.contains state = false)
    (inLeft : left.contains state = true)
    (size : witness.size = t.numStates)
    (kept : ∀ other, other ≠ state → witness[other]? = found.witness[other]?)
    (supported : t.Supported dirs witness state fun branch =>
      staysAndHits u found.states branch = true) :
    t.Ranking dirs left right u ⟨found.states.insert state, witness⟩ := by
  obtain ⟨rank, count, ranked, bound⟩ := ranking.ranked
  let raised := Function.update rank state (count + 1)
  have here : raised state = count + 1 := Function.update_self ..
  have elsewhere : ∀ other, found.states.contains other = true →
      raised other = rank other := by
    intro other member
    apply Function.update_of_ne
    rintro rfl
    simp [absent] at member
  have cases : ∀ other, (found.states.insert state).contains other = true →
      other = state ∨ found.states.contains other = true := by
    intro other member
    simpa using member
  have notRight : right.contains state = false := by
    by_contra inRight
    have present := ranked.around state (by simpa using inRight)
    simp [absent] at present
  refine ⟨size, raised, count + 1, ⟨?_, ?_, ?_, ?_⟩, ?_⟩
  · intro other inRight
    simp [ranked.around other inRight]
  · intro other member
    rcases cases other member with rfl | old
    · simp [here, notRight]
    · rw [elsewhere other old]
      exact ranked.zero other old
  · intro other member outside
    rcases cases other member with rfl | old
    · exact ⟨below, inLeft⟩
    · exact ranked.inside other old outside
  · intro other member outside
    rcases cases other member with rfl | old
    · apply supported.imp rfl
      intro branch good
      simp only [staysAndHits, Bool.and_eq_true, List.all_eq_true,
        List.any_eq_true] at good
      obtain ⟨stays, target, inSupport, present⟩ := good
      refine ⟨stays, target, inSupport, by simp [present], ?_⟩
      rw [here, elsewhere target present]
      exact Nat.lt_succ_of_le (bound target present)
    · have different : other ≠ state := by
        rintro rfl
        simp [absent] at old
      apply (ranked.supported other old outside).imp (kept other different)
      rintro branch ⟨stays, target, inSupport, present, smaller⟩
      refine ⟨stays, target, inSupport, by simp [present], ?_⟩
      rwa [elsewhere target present, elsewhere other old]
  · intro other member
    rcases cases other member with rfl | old
    · exact here.le
    · rw [elsewhere other old]
      exact Nat.le_succ_of_le (bound other old)

/-! ## One round -/

theorem Ranking.growSure (ranking : t.Ranking dirs left right u found) :
    t.Ranking dirs left right u (t.growSure dirs left u found) := by
  unfold Table.growSure
  apply List.foldlRecOn _ _ ranking
  intro found ranking state member
  have below : state < t.numStates := List.mem_range.mp member
  split
  · exact ranking
  · rename_i considered
    simp only [Bool.or_eq_true, not_or, Bool.not_eq_true, Bool.not_eq_true',
      Bool.not_eq_false] at considered
    obtain ⟨⟨absent, inLeft⟩, -⟩ := considered
    by_cases existential : isExistential (dirs.getD state none) = true
    · simp only [existential, if_true]
      cases search : (t.branches state).findIdx? (staysAndHits u found.states) with
      | none => exact ranking
      | some choice =>
          obtain ⟨valid, good, -⟩ :=
            List.findIdx?_eq_some_iff_getElem.mp search
          have written : state < found.witness.size := by
            rw [ranking.size]
            exact below
          apply ranking.add below absent inLeft
          · rw [Array.size_setIfInBounds, ranking.size]
          · intro other different
            exact Array.getElem?_setIfInBounds_ne (Ne.symm different)
          · rw [Supported, if_pos existential]
            refine ⟨choice, (t.branches state)[choice], ?_,
              List.getElem?_eq_getElem valid, good⟩
            rw [Array.getElem?_setIfInBounds_self, if_pos written]
    · simp only [existential, Bool.false_eq_true, if_false]
      split
      · rename_i qualified
        simp only [Bool.and_eq_true, Bool.not_eq_true',
          List.isEmpty_eq_false_iff, List.all_eq_true] at qualified
        apply ranking.add below absent inLeft ranking.size (fun _ _ => rfl)
        rw [Supported, if_neg existential]
        exact qualified
      · exact ranking

/-! ## All rounds -/

/-- The rounds inside `u` give every state that they find a rank, whatever the
witness held before. -/
theorem ranking_shrinkSure {start : Witnessed}
    (size : start.witness.size = t.numStates) :
    t.Ranking dirs left right start.states
      (t.shrinkSure dirs left right start) := by
  have initial : t.Ranking dirs left right start.states
      ⟨right, start.witness⟩ := by
    refine ⟨size, fun _ => 0, 0, ⟨?_, ?_, ?_, ?_⟩, ?_⟩
    · exact fun _ inRight => inRight
    · intro state inRight
      simp [inRight]
    · intro state inRight outside
      simp [outside] at inRight
    · intro state inRight outside
      simp [outside] at inRight
    · exact fun _ _ => le_rfl
  obtain ⟨result, -, ended, -⟩ :=
    stabilise_saturates (t.states_growSure dirs left start.states)
      ⟨right, start.witness⟩ (Nat.lt_succ_self t.numStates)
  have value : t.shrinkSure dirs left right start = result := by
    rw [shrinkSure, sureWithin?, ended]
    rfl
  rw [value]
  exact stabilise_kept (fun _ => Ranking.growSure) initial ended

/-- In the end the set of candidates is the set that was found, so the ranks
are ranks inside it. -/
theorem exists_rankedBy_oneSet (t : Table R) (dirs : Array (Option Direction))
    (left right : BitSet) :
    (t.oneSet dirs left right).witness.size = t.numStates ∧
      ∃ rank, t.RankedBy dirs left right (t.oneSet dirs left right).states
        (t.oneSet dirs left right) rank := by
  obtain ⟨last, size, same, found⟩ := t.sure?_spec dirs left right
    (fun u => u.witness.size = t.numStates) Array.size_replicate
    (fun _ size => (ranking_shrinkSure size).size)
  have value : t.oneSet dirs left right = t.shrinkSure dirs left right last := by
    rw [oneSet, found, Option.getD_some]
  have ranking : t.Ranking dirs left right last.states
      (t.shrinkSure dirs left right last) := ranking_shrinkSure size
  rw [value]
  obtain ⟨rank, -, ranked, -⟩ := ranking.ranked
  refine ⟨ranking.size, rank, ranked.around, ranked.zero, ranked.inside, ?_⟩
  intro state member outside
  apply (ranked.supported state member outside).imp rfl
  rintro branch ⟨stays, leads⟩
  refine ⟨?_, leads⟩
  intro target inSupport
  rw [same]
  exact stays target inSupport

/-- **The choices that come with the states of probability one are a strategy
for them.**  The states have ranks, which are zero on `right` and nowhere else.
Every other state is in `left`, and as its direction demands, either the choice
that the witness names or each of its choices keeps to the set and may lead to a
smaller rank. -/
theorem checkedOneSet_descends {ε : Type} (t : Table R)
    (dirs : Array (Option Direction)) (left right : BitSet) :
    (t.numStates ≤ dirs.size →
      ∃ sure, t.checkedOneSet (ε := ε) dirs left right = .ok sure) ∧
    ∀ sure, t.checkedOneSet (ε := ε) dirs left right = .ok sure →
      ∃ rank : Nat → Nat,
        (∀ state, right.contains state = true →
          sure.states.contains state = true) ∧
        (∀ state, sure.states.contains state = true →
          (rank state = 0 ↔ right.contains state = true)) ∧
        ∀ state, sure.states.contains state = true →
          right.contains state = false →
          left.contains state = true ∧
          ∃ direction, dirs[state]? = some direction ∧
            (direction ≠ some .min →
              ∃ choice branch, sure.witness[state]? = some choice ∧
                (t.branches state)[choice]? = some branch ∧
                Descends sure.states sure.states rank state branch) ∧
            (direction = some .min →
              t.branches state ≠ [] ∧
                ∀ branch ∈ t.branches state,
                  Descends sure.states sure.states rank state branch) := by
  constructor
  · intro directed
    rw [checkedOneSet, knowsDirections_of_le directed]
    exact ⟨_, rfl⟩
  · intro sure found
    obtain ⟨known, isOneSet⟩ := Attempt.require_bind_eq_ok.mp found
    cases isOneSet
    obtain ⟨-, rank, ranked⟩ := t.exists_rankedBy_oneSet dirs left right
    refine ⟨rank, ranked.around, ranked.zero, ?_⟩
    intro state member outside
    obtain ⟨below, inLeft⟩ := ranked.inside state member outside
    have directed : state < dirs.size := by
      have here := List.all_eq_true.mp known state (List.mem_range.mpr below)
      simpa [inLeft, outside] using here
    have supported := ranked.supported state member outside
    have direction : dirs.getD state none = dirs[state] := by simp [directed]
    rw [Supported, direction, isExistential] at supported
    refine ⟨inLeft, dirs[state], Array.getElem?_eq_getElem directed, ?_, ?_⟩
    · intro existential
      rwa [if_pos (bne_iff_ne.mpr existential)] at supported
    · intro universal
      rwa [universal, if_neg (by decide)] at supported

/-- A river with a ford, which half of the travellers miss, and with a bridge.
From the last state somebody else leads the way. -/
def riverCrossing : Table ℚ :=
  ⟨#[[[(1, 1 / 2), (2, 1 / 2)], [(1, 1)]], [[(1, 1)]], [[(2, 1)]],
    [[(0, 1)], [(1, 1)]]]⟩

/-- The first round would take the ford, and the second one writes the bridge
over it. -/
theorem riverCrossing_descends :
    4 ≤ #[some Direction.max, none, some .max, some .min].size ∧
    ∃ sure rank,
      riverCrossing.checkedOneSet (ε := Empty)
          #[some .max, none, some .max, some .min] (.full 4) (.ofList [1]) =
        .ok sure ∧
      sure.states.toList = [0, 1, 3] ∧ sure.witness[0]? = some 1 ∧
      Descends sure.states sure.states rank 0 [((1 : Nat), (1 : ℚ))] ∧
      Descends sure.states sure.states rank 3 [((0 : Nat), (1 : ℚ))] := by
  obtain ⟨returns, descends⟩ := riverCrossing.checkedOneSet_descends
    (ε := Empty) #[some .max, none, some .max, some .min] (.full 4) (.ofList [1])
  have found : (riverCrossing.checkedOneSet (ε := Empty)
      #[some .max, none, some .max, some .min] (.full 4)
        (.ofList [1])).toOption.map
      (fun sure => (sure.states.toList, sure.witness[0]?)) =
        some ([0, 1, 3], some 1) := by decide +kernel
  obtain ⟨sure, ok⟩ := returns (by decide)
  rw [ok] at found
  obtain ⟨members, bridge⟩ := Prod.mk.injEq .. ▸ Option.some.inj found
  have isMember : ∀ state ∈ [0, 1, 3], sure.states.contains state = true := by
    intro state listed
    rwa [← BitSet.mem_toList, members]
  obtain ⟨rank, -, -, others⟩ := descends sure ok
  refine ⟨by decide, sure, rank, ok, members, bridge, ?_, ?_⟩
  · obtain ⟨-, direction, isMax, existential, -⟩ :=
      others 0 (isMember 0 (by decide)) (by decide)
    cases isMax
    obtain ⟨choice, branch, taken, listed, good⟩ := existential (by decide)
    rw [bridge] at taken
    cases taken
    cases listed
    exact good
  · obtain ⟨-, direction, isMin, -, universal⟩ :=
      others 3 (isMember 3 (by decide)) (by decide)
    cases isMin
    exact (universal rfl).2 _ (by decide +kernel)

end Table

end Markov
