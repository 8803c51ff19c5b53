import Mathlib.Data.Finset.Card
import Mathlib.Data.Finset.Range
import Markov.Proofs.BitSet
import Markov.Qualitative

/-!
# Saturation of sets of states

Graph analysis visits the states in ascending order, again and again, and adds
those that pass a test at their turn.  The test sees the set as it is at that
moment, with the states that the same round has added before.  `Grown` records
that a set came about by such additions, and `Closed` that there is nothing
left to add.  A round that changes the set adds a state that was missing, so
the rounds end.
-/

namespace Markov

namespace BitSet

theorem beq_self (set : BitSet) : (set == set) = true := by
  change set.beq set = true
  simp [beq]

theorem contains_eq_of_beq {first second : BitSet}
    (same : (first == second) = true) (index : Nat) :
    first.contains index = second.contains index := by
  change first.beq second = true at same
  have lists : first.toList = second.toList := by
    simp only [beq, Bool.and_eq_true, beq_iff_eq] at same
    exact same.2
  rw [Bool.eq_iff_iff, ← mem_toList, ← mem_toList, lists]

theorem beq_of_contains_eq {first second : BitSet}
    (same : ∀ index, first.contains index = second.contains index)
    (sizes : first.size = second.size) : (first == second) = true := by
  change first.beq second = true
  simp [beq, sizes, toList_congr same]

theorem size_insert {set : BitSet} {index : Nat}
    (absent : set.contains index = false) :
    (set.insert index).size = set.size + 1 := by
  simp [insert, add, absent]

/-- The indices below `n` that are not members. -/
def missing (n : Nat) (set : BitSet) : Finset Nat :=
  (Finset.range n).filter fun state => set.contains state = false

theorem mem_missing {n : Nat} {set : BitSet} {state : Nat} :
    state ∈ set.missing n ↔ state < n ∧ set.contains state = false := by
  simp [missing]

theorem card_missing_le (n : Nat) (set : BitSet) : (set.missing n).card ≤ n := by
  have filtered := (Finset.range n).card_filter_le
    fun state => set.contains state = false
  rwa [Finset.card_range] at filtered

theorem card_missing_insert {n : Nat} {set : BitSet} {state : Nat}
    (inside : state < n) (absent : set.contains state = false) :
    ((set.insert state).missing n).card + 1 = (set.missing n).card := by
  have erased : (set.insert state).missing n = (set.missing n).erase state := by
    ext other
    simp only [mem_missing, Finset.mem_erase, contains_insert,
      Bool.or_eq_false_iff, decide_eq_false_iff_not]
    tauto
  rw [erased]
  exact Finset.card_erase_add_one (mem_missing.mpr ⟨inside, absent⟩)

end BitSet

/-! ## Rounds -/

/-- One round: adds those of the given states that pass the test at their
turn. -/
def sweep (test : BitSet → Nat → Bool) (states : List Nat) (set : BitSet) :
    BitSet :=
  states.foldl (fun set state =>
    if !set.contains state && test set state then set.insert state else set) set

/-- What a number of additions makes of a set, each of a state below `n` that
passes the test. -/
inductive Grown (test : BitSet → Nat → Bool) (n : Nat) (start : BitSet) :
    Nat → BitSet → Prop where
  | start : Grown test n start 0 start
  | add {count : Nat} {set : BitSet} {state : Nat} :
      Grown test n start count set → state < n →
      set.contains state = false → test set state = true →
      Grown test n start (count + 1) (set.insert state)

/-- A set to which no state below `n` can be added. -/
def Closed (test : BitSet → Nat → Bool) (n : Nat) (set : BitSet) : Prop :=
  ∀ state, state < n → test set state = true → set.contains state = true

namespace Grown

variable {test : BitSet → Nat → Bool} {n : Nat} {start set : BitSet}
  {count : Nat}

theorem trans {later : BitSet} {more : Nat}
    (first : Grown test n start count set)
    (second : Grown test n set more later) :
    Grown test n start (count + more) later := by
  induction second with
  | start => exact first
  | add _ inside absent passes ih => exact ih.add inside absent passes

/-- Every addition leaves one missing state less. -/
theorem card_missing (grown : Grown test n start count set) :
    (set.missing n).card + count = (start.missing n).card := by
  induction grown with
  | start => rfl
  | add _ inside absent _ ih =>
      have oneLess := BitSet.card_missing_insert inside absent
      omega

theorem count_le (grown : Grown test n start count set) : count ≤ n := by
  have few := start.card_missing_le n
  have total := grown.card_missing
  omega

theorem contains_of_start (grown : Grown test n start count set) {state : Nat}
    (member : start.contains state = true) : set.contains state = true := by
  induction grown with
  | start => exact member
  | add _ _ _ _ ih => simp [ih]

theorem start_eq_false (grown : Grown test n start count set) {state : Nat}
    (absent : set.contains state = false) : start.contains state = false := by
  by_contra present
  have kept := grown.contains_of_start (by simpa using present)
  simp [absent] at kept

theorem contains_of_ge (grown : Grown test n start count set) {state : Nat}
    (outside : n ≤ state) : set.contains state = start.contains state := by
  induction grown with
  | start => rfl
  | @add _ _ added _ inside _ _ ih =>
      have different : state ≠ added := by omega
      simp [different, ih]

/-- A member was there from the start, or it passed the test at its turn. -/
theorem contains_cases (grown : Grown test n start count set) {state : Nat}
    (member : set.contains state = true) :
    start.contains state = true ∨
      state < n ∧ ∃ earlier, test earlier state = true := by
  induction grown with
  | start => exact .inl member
  | @add _ earlier _ _ inside _ passes ih =>
      rw [BitSet.contains_insert, Bool.or_eq_true, decide_eq_true_eq] at member
      rcases member with rfl | old
      · exact .inr ⟨inside, earlier, passes⟩
      · exact ih old

theorem size_eq (grown : Grown test n start count set) :
    set.size = start.size + count := by
  induction grown with
  | start => rfl
  | add _ _ absent _ ih =>
      rw [BitSet.size_insert absent, ih]
      omega

end Grown

theorem sweep_cons (test : BitSet → Nat → Bool) (state : Nat)
    (states : List Nat) (set : BitSet) :
    sweep test (state :: states) set =
      sweep test states
        (if !set.contains state && test set state then set.insert state
          else set) := rfl

theorem sweep_cases {test : BitSet → Nat → Bool} {n : Nat}
    {states : List Nat} (inside : ∀ state ∈ states, state < n) (set : BitSet) :
    (sweep test states set = set ∧
        ∀ state ∈ states, test set state = true → set.contains state = true) ∨
      ∃ count, Grown test n set (count + 1) (sweep test states set) := by
  induction states generalizing set with
  | nil => exact .inl ⟨rfl, by simp⟩
  | cons state states ih =>
      have later := ih fun other member =>
        inside other (List.mem_cons_of_mem _ member)
      rw [sweep_cons]
      by_cases adds : (!set.contains state && test set state) = true
      · rw [if_pos adds]
        rw [Bool.and_eq_true, Bool.not_eq_true'] at adds
        have first : Grown test n set 1 (set.insert state) :=
          Grown.start.add (inside state List.mem_cons_self) adds.1 adds.2
        rcases later (set.insert state) with ⟨same, -⟩ | ⟨count, grown⟩
        · exact .inr ⟨0, by rwa [same]⟩
        · refine .inr ⟨count + 1, ?_⟩
          have both := first.trans grown
          rwa [Nat.add_comm 1] at both
      · rw [if_neg adds]
        refine (later set).imp_left fun ⟨same, closed⟩ => ⟨same, ?_⟩
        intro other member passes
        rcases List.mem_cons.mp member with rfl | elsewhere
        · by_contra absent
          simp_all
        · exact closed other elsewhere passes

/-! ## Repeated rounds -/

/-- Rounds that are repeated end, if every change makes a measure smaller.  What
every round preserves holds before the last one. -/
theorem stabilise_spec {α : Type} {round : α → α} {set : α → BitSet}
    (invariant : α → Prop) (measure : α → Nat)
    (kept : ∀ current, invariant current → invariant (round current))
    (smaller : ∀ current, invariant current →
      (set (round current) == set current) = false →
      measure (round current) < measure current)
    {fuel : Nat} {start : α} (initial : invariant start)
    (enough : measure start < fuel) :
    ∃ last, invariant last ∧ (set (round last) == set last) = true ∧
      stabilise round set fuel start = some (round last) := by
  induction fuel generalizing start with
  | zero => exact absurd enough (Nat.not_lt_zero _)
  | succ fuel ih =>
      cases stable : set (round start) == set start with
      | true => exact ⟨start, initial, stable, by simp [stabilise, stable]⟩
      | false =>
          have less := smaller start initial stable
          obtain ⟨last, holds, lastStable, result⟩ :=
            ih (kept start initial) (by omega)
          exact ⟨last, holds, lastStable, by simp [stabilise, stable, result]⟩

/-- Rounds over all states end with a set to which nothing can be added, and
which came about by additions. -/
theorem stabilise_saturates {α : Type} {round : α → α} {set : α → BitSet}
    {test : BitSet → Nat → Bool} {n fuel : Nat}
    (sweeps : ∀ current,
      set (round current) = sweep test (List.range n) (set current))
    (start : α) (enough : n < fuel) :
    ∃ result count, stabilise round set fuel start = some result ∧
      Grown test n (set start) count (set result) ∧
      Closed test n (set result) := by
  have inside : ∀ state ∈ List.range n, state < n := fun _ member =>
    List.mem_range.mp member
  have cases : ∀ current,
      (sweep test (List.range n) (set current) = set current ∧
        ∀ state ∈ List.range n, test (set current) state = true →
          (set current).contains state = true) ∨
      ∃ count, Grown test n (set current) (count + 1)
        (sweep test (List.range n) (set current)) :=
    fun current => sweep_cases inside (set current)
  have ended : ∃ last, (∃ count, Grown test n (set start) count (set last)) ∧
      (set (round last) == set last) = true ∧
      stabilise round set fuel start = some (round last) := by
    apply stabilise_spec _ fun current => ((set current).missing n).card
    · rintro current ⟨count, grown⟩
      rw [sweeps]
      rcases cases current with ⟨same, -⟩ | ⟨more, further⟩
      · exact ⟨count, by rwa [same]⟩
      · exact ⟨_, grown.trans further⟩
    · intro current _ changed
      rw [sweeps] at changed ⊢
      rcases cases current with ⟨same, -⟩ | ⟨more, further⟩
      · rw [same, BitSet.beq_self] at changed
        contradiction
      · have total := further.card_missing
        omega
    · exact ⟨0, .start⟩
    · have few := (set start).card_missing_le n
      omega
  obtain ⟨last, ⟨count, grown⟩, stable, result⟩ := ended
  rw [sweeps] at stable
  rcases cases last with ⟨same, closed⟩ | ⟨more, further⟩
  · refine ⟨round last, count, result, ?_, ?_⟩
    · rwa [sweeps, same]
    · rw [sweeps, same]
      exact fun state below => closed state (List.mem_range.mpr below)
  · -- Additions would have changed the members.
    have total := further.card_missing
    have unchanged : (sweep test (List.range n) (set last)).missing n =
        (set last).missing n := by
      ext state
      simp [BitSet.mem_missing, BitSet.contains_eq_of_beq stable]
    rw [unchanged] at total
    omega

end Markov
