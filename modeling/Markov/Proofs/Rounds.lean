import Markov.Proofs.OneSet

/-!
# Numbers of rounds

Graph analysis repeats rounds until they change nothing, and nothing but the
sets themselves makes it stop.  `Loops` says what such a loop does, without any
bound on its rounds.  A loop that adds states to a set ends because there are
only so many to add.  The loop that removes candidates starts from all states of
the table, which need not contain `right`; its first round may therefore add
states, and only from then on do the candidates shrink.
-/

namespace Markov

/-- A loop from a start: `values` are what its rounds have led to, one after the
other, and it goes on after all of them but the last. -/
inductive Loops {α : Type} (round goesOn : α → α → Prop) : α → List α → Prop where
  | ends {start next : α} :
      round start next → ¬goesOn start next → Loops round goesOn start [next]
  | again {start next : α} {values : List α} :
      round start next → goesOn start next → Loops round goesOn next values →
      Loops round goesOn start (next :: values)

namespace Loops

variable {α : Type} {round other goesOn also : α → α → Prop} {start : α}
  {values : List α}

theorem imp (rounds : ∀ current next, round current next → other current next)
    (conditions : ∀ current next, round current next →
      (goesOn current next ↔ also current next))
    (loop : Loops round goesOn start values) :
    Loops other also start values := by
  induction loop with
  | ends passed stops =>
      exact .ends (rounds _ _ passed)
        fun goes => stops ((conditions _ _ passed).mpr goes)
  | again passed goes _ ih =>
      exact .again (rounds _ _ passed) ((conditions _ _ passed).mp goes) ih

/-- What every round achieves holds of all values. -/
theorem forall_mem {holds : α → Prop}
    (achieved : ∀ current next, round current next → holds next)
    (loop : Loops round goesOn start values) : ∀ value ∈ values, holds value := by
  induction loop with
  | ends passed _ => simpa using achieved _ _ passed
  | again passed _ _ ih =>
      intro value member
      rcases List.mem_cons.mp member with rfl | later
      · exact achieved _ _ passed
      · exact ih value later

/-- What relates the results of two rounds in a row relates all neighbours. -/
theorem isChain {related : α → α → Prop}
    (neighbours : ∀ first second third, round first second →
      round second third → related second third)
    (loop : Loops round goesOn start values) : values.IsChain related := by
  induction loop with
  | ends _ _ => exact .singleton _
  | again passed _ later ih =>
      cases later with
      | ends next _ => exact .cons_cons (neighbours _ _ _ passed next) ih
      | again next _ _ => exact .cons_cons (neighbours _ _ _ passed next) ih

end Loops

/-- Rounds that are repeated with a bound, and that end, are those of the loop
without a bound. -/
theorem stabilise_loops {α : Type} {round : α → α} {set : α → BitSet}
    {fuel : Nat} {start result : α}
    (found : stabilise round set fuel start = some result) :
    ∃ values,
      Loops (fun current next => next = round current)
        (fun current next => (set next == set current) = false) start values ∧
      values.length ≤ fuel ∧ values.getLast? = some result := by
  induction fuel generalizing start with
  | zero => cases found
  | succ fuel ih =>
      rw [stabilise] at found
      cases stable : set (round start) == set start with
      | true =>
          simp only [stable, if_true, Option.some.injEq] at found
          exact ⟨[round start], .ends rfl (by simp [stable]), by simp,
            by simp [found]⟩
      | false =>
          simp only [stable, Bool.false_eq_true, if_false] at found
          obtain ⟨values, loop, few, last⟩ := ih found
          refine ⟨round start :: values, .again rfl stable loop, by simpa, ?_⟩
          rw [List.getLast?_cons, last]
          rfl

/-- Some state below `n` is new. -/
def Adds (n : Nat) (before after : BitSet) : Prop :=
  ∃ state < n, before.contains state = false ∧ after.contains state = true

/-- A round over all states changes a set exactly if it adds a state to it. -/
theorem sweep_changes_iff_adds (test : BitSet → Nat → Bool) (n : Nat)
    (set : BitSet) :
    (sweep test (List.range n) set == set) = false ↔
      Adds n set (sweep test (List.range n) set) := by
  have inside : ∀ state ∈ List.range n, state < n := fun _ member =>
    List.mem_range.mp member
  constructor
  · intro changed
    have cases : sweep test (List.range n) set = set ∨
        ∃ count, Grown test n set (count + 1) (sweep test (List.range n) set) :=
      (sweep_cases inside set).imp_left And.left
    rcases cases with same | ⟨count, grown⟩
    · rw [same, BitSet.beq_self] at changed
      contradiction
    · have fewer := grown.card_missing
      obtain ⟨state, missing, found⟩ := Finset.exists_mem_notMem_of_card_lt_card
        (show ((sweep test (List.range n) set).missing n).card <
          (set.missing n).card by omega)
      obtain ⟨below, absent⟩ := BitSet.mem_missing.mp missing
      refine ⟨state, below, absent, ?_⟩
      by_contra still
      exact found (BitSet.mem_missing.mpr ⟨below, by simpa using still⟩)
  · rintro ⟨state, -, absent, present⟩
    by_contra unchanged
    have same := BitSet.contains_eq_of_beq (by simpa using unchanged) state
    simp [absent, present] at same

namespace Table

variable {R : Type} [Scalar R]

/-- The loop that finds the states from which `right` may be reached. -/
def ReachLoop (t : Table R) (dirs : Array (Option Direction))
    (left right : BitSet) (values : List BitSet) : Prop :=
  Loops (fun reach next => next = t.growReach dirs left reach)
    (Adds t.numStates) right values

/-- The loop that finds the states from which `right` is reached without
leaving the candidates. -/
def SureLoop (t : Table R) (dirs : Array (Option Direction))
    (left right : BitSet) (u : Witnessed) (values : List Witnessed) : Prop :=
  Loops (fun found next => next = t.growSure dirs left u.states found)
    (fun found next => Adds t.numStates found.states next.states)
    ⟨right, u.witness⟩ values

/-- The loop that removes candidates.  Each of its rounds is a whole loop over
the candidates, which takes at most `limit` rounds. -/
def ShrinkLoop (t : Table R) (dirs : Array (Option Direction))
    (left right : BitSet) (limit : Nat) (values : List Witnessed) : Prop :=
  Loops (fun u next => ∃ inner, t.SureLoop dirs left right u inner ∧
      inner.length ≤ limit ∧ inner.getLast? = some next)
    (fun u next => (next.states == u.states) = false)
    ⟨.full t.numStates, Array.replicate t.numStates 0⟩ values

theorem exists_reachLoop (t : Table R) (dirs : Array (Option Direction))
    (left right : BitSet) :
    ∃ values reach, t.ReachLoop dirs left right values ∧
      values.length ≤ t.numStates + 1 ∧ values.getLast? = some reach ∧
      t.zeroSet dirs left right = reach.complement t.numStates := by
  obtain ⟨reach, -, found, -, -⟩ := t.reach?_spec dirs left right
  obtain ⟨values, loop, few, last⟩ := stabilise_loops found
  refine ⟨values, reach, loop.imp (fun _ _ => id) ?_, few, last, ?_⟩
  · rintro current _ rfl
    rw [growReach_eq_sweep]
    exact sweep_changes_iff_adds _ _ _
  · rw [zeroSet, found, Option.getD_some]

theorem exists_sureLoop (t : Table R) (dirs : Array (Option Direction))
    (left right : BitSet) (u : Witnessed) :
    ∃ values, t.SureLoop dirs left right u values ∧
      values.length ≤ t.numStates + 1 ∧
      values.getLast? = some (t.shrinkSure dirs left right u) := by
  obtain ⟨result, -, found, -, -⟩ :=
    stabilise_saturates (t.states_growSure dirs left u.states)
      ⟨right, u.witness⟩ (Nat.lt_succ_self t.numStates)
  obtain ⟨values, loop, few, last⟩ := stabilise_loops found
  refine ⟨values, loop.imp (fun _ _ => id) ?_, few, ?_⟩
  · rintro current _ rfl
    rw [states_growSure]
    exact sweep_changes_iff_adds _ _ _
  · rw [last, shrinkSure, sureWithin?, found, Option.getD_some]

/-- All loops of the graph analysis end, within a number of rounds that depends
on the number of states only.  After its first round the loop that removes
candidates keeps those in `right`, and takes no state back. -/
theorem graph_analysis_ends {ε : Type} (t : Table R)
    (dirs : Array (Option Direction)) (left right : BitSet)
    (directed : t.numStates ≤ dirs.size) :
    (∃ values reach, t.ReachLoop dirs left right values ∧
      values.length ≤ t.numStates + 1 ∧ values.getLast? = some reach ∧
      t.checkedZeroSet (ε := ε) dirs left right =
        .ok (reach.complement t.numStates)) ∧
    ∃ values sure, t.ShrinkLoop dirs left right (t.numStates + 1) values ∧
      values.length ≤ t.numStates + 2 ∧ values.getLast? = some sure ∧
      t.checkedOneSet (ε := ε) dirs left right = .ok sure ∧
      (∀ u ∈ values, ∀ state, right.contains state = true →
        u.states.contains state = true) ∧
      values.IsChain fun u next => ∀ state,
        next.states.contains state = true → u.states.contains state = true := by
  have known := knowsDirections_of_le directed left right
  constructor
  · obtain ⟨values, reach, loop, few, last, result⟩ :=
      t.exists_reachLoop dirs left right
    refine ⟨values, reach, loop, few, last, ?_⟩
    simp only [checkedZeroSet, Attempt.require, known, if_true, result]
    rfl
  · obtain ⟨final, -, -, found⟩ :=
      t.sure?_spec dirs left right (fun _ => True) trivial fun _ _ => trivial
    obtain ⟨values, loop, few, last⟩ := stabilise_loops found
    refine ⟨values, _, loop.imp ?_ fun _ _ _ => Iff.rfl, few, last, ?_, ?_, ?_⟩
    · rintro u _ rfl
      exact t.exists_sureLoop dirs left right u
    · simp only [checkedOneSet, oneSet, Attempt.require, known, found, if_true]
      rfl
    · refine loop.forall_mem ?_
      rintro u _ rfl state
      exact t.contains_shrinkSure_of_right dirs left right u
    · refine loop.isChain ?_
      rintro u _ _ rfl rfl state
      exact contains_of_shrinkSure fun _ =>
        t.contains_shrinkSure_of_right dirs left right u

/-- One of the states to reach is not in the table. -/
theorem standoff_analysis_ends :
    5 ≤ Solver.standoff.directions.size ∧
    (∃ values reach,
      Solver.standoff.table.ReachLoop Solver.standoff.directions
        (.ofList [0, 1, 2, 4]) (.ofList [3, 70]) values ∧
      values.length ≤ 6 ∧ values.getLast? = some reach ∧
      Solver.standoff.table.checkedZeroSet (ε := Empty)
        Solver.standoff.directions (.ofList [0, 1, 2, 4]) (.ofList [3, 70]) =
        .ok (reach.complement 5)) ∧
    ∃ values sure,
      Solver.standoff.table.ShrinkLoop Solver.standoff.directions
        (.ofList [0, 1, 2, 4]) (.ofList [3, 70]) 6 values ∧
      values.length ≤ 7 ∧ values.getLast? = some sure ∧
      Solver.standoff.table.checkedOneSet (ε := Empty)
        Solver.standoff.directions (.ofList [0, 1, 2, 4]) (.ofList [3, 70]) =
        .ok sure ∧
      (∀ u ∈ values, ∀ state,
        (BitSet.ofList [3, 70]).contains state = true →
          u.states.contains state = true) ∧
      values.IsChain fun u next => ∀ state,
        next.states.contains state = true → u.states.contains state = true :=
  ⟨by decide, graph_analysis_ends Solver.standoff.table
    Solver.standoff.directions _ _ (by decide)⟩

end Table

end Markov
