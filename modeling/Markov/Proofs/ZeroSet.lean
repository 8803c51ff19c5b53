import Markov.Proofs.Saturation
import Markov.Proofs.Until

/-!
# States of probability zero

The graph analysis finds the states that may reach `right` by adding, round by
round, states with a choice that leads into the set.  The state that is added
as number `i` has a positive value within `i` steps, and a state that is never
added has the value zero for every number of steps.  Since there are only `n`
states to add, `n` steps decide which values are zero.
-/

namespace Markov

namespace Table

variable {R : Type} [Scalar R]

/-- Whether a state of `left` has the choices that lead it into a set. -/
def leadsInto (t : Table R) (dirs : Array (Option Direction)) (left set : BitSet)
    (state : Nat) : Bool :=
  left.contains state &&
    qualifies (t.branches state) (dirs.getD state none)
      fun branch => branch.support.any set.contains

theorem growReach_eq_sweep (t : Table R) (dirs : Array (Option Direction))
    (left reach : BitSet) :
    t.growReach dirs left reach =
      sweep (t.leadsInto dirs left) (List.range t.numStates) reach := by
  unfold growReach sweep leadsInto
  congr 1
  funext reach state
  cases reach.contains state <;> cases left.contains state <;> simp

/-- The rounds end with a closed set that came about by additions. -/
theorem reach?_spec (t : Table R) (dirs : Array (Option Direction))
    (left right : BitSet) :
    ∃ reach count, t.reach? dirs left right (t.numStates + 1) = some reach ∧
      Grown (t.leadsInto dirs left) t.numStates right count reach ∧
      Closed (t.leadsInto dirs left) t.numStates reach :=
  stabilise_saturates (t.growReach_eq_sweep dirs left) right
    (Nat.lt_succ_self _)

theorem mem_support {branch : Branch R} {state : Nat} :
    state ∈ branch.support ↔ ∃ weight, (state, weight) ∈ branch ∧ 0 < weight := by
  simp [Branch.support]

end Table

namespace Solver.Query

variable {solver : Solver ℚ} {left right : BitSet}

/-- What was added after some steps has a positive value within as many. -/
theorem untilValue_pos_of_grown (query : solver.Query left right)
    {count : Nat} {reach : BitSet}
    (grown : Grown (solver.table.leadsInto solver.directions left)
      solver.numStates right count reach) {state : Nat}
    (member : reach.contains state = true) :
    0 < solver.untilValue left right count state := by
  induction grown generalizing state with
  | start =>
      rw [query.untilValue_of_right member]
      exact zero_lt_one
  | @add count set added earlier inside absent leads ih =>
      rw [BitSet.contains_insert, Bool.or_eq_true,
        decide_eq_true_eq] at member
      rcases member with rfl | old
      · have notRight := earlier.start_eq_false absent
        rw [Table.leadsInto, Bool.and_eq_true] at leads
        obtain ⟨branch, branchMember, hits, value⟩ :=
          query.exists_good_branch leads.1 notRight leads.2 count
        obtain ⟨target, inSupport, targetMember⟩ := List.any_eq_true.mp hits
        obtain ⟨weight, entryMember, positive⟩ := Table.mem_support.mp inSupport
        have contribution := Branch.mul_le_expect
          (query.weights.branch branchMember)
          (fun entry _ _ => query.untilValue_nonneg count entry.1) entryMember
        calc
          0 < weight * solver.untilValue left right count target :=
            mul_pos positive (ih targetMember)
          _ ≤ branch.expect (solver.untilValue left right count) := contribution
          _ ≤ solver.untilValue left right (count + 1) state := value
      · exact (ih old).trans_le (query.untilValue_mono (Nat.le_succ count) state)

/-- Outside a closed set around `right` all values are zero. -/
theorem untilValue_eq_zero_of_closed (query : solver.Query left right)
    {reach : BitSet}
    (around : ∀ state, right.contains state = true →
      reach.contains state = true)
    (closed : Closed (solver.table.leadsInto solver.directions left)
      solver.numStates reach) (steps state : Nat)
    (outside : reach.contains state = false) :
    solver.untilValue left right steps state = 0 := by
  revert outside
  refine query.untilValue_induction
    (fun _ state value => reach.contains state = false → value = 0)
    ?_ (fun _ _ _ _ => rfl) ?_ steps state
  · intro _ state inRight outside
    simp [around state inRight] at outside
  · intro steps state inLeft notRight branches before outside
    have fails : Table.qualifies (solver.table.branches state)
        (solver.directions.getD state none)
        (fun branch => branch.support.any reach.contains) = false := by
      by_contra qualifies
      have leads : solver.table.leadsInto solver.directions left reach state =
          true := by
        rw [Table.leadsInto, inLeft, Bool.true_and]
        simpa using qualifies
      have present := closed state (query.lt_of_left state inLeft) leads
      simp [outside] at present
    obtain ⟨branch, member, misses, value⟩ :=
      query.exists_bad_branch inLeft notRight branches fails steps
    have noHit := List.any_eq_false.mp misses
    apply le_antisymm _ (query.untilValue_nonneg _ state)
    calc
      solver.untilValue left right (steps + 1) state
          ≤ branch.expect (solver.untilValue left right steps) := value
      _ ≤ branch.expect fun _ => 0 := by
        apply Branch.expect_mono (query.weights.branch member)
        rintro ⟨target, weight⟩ entryMember positive
        have target_outside : reach.contains target = false := by
          simpa using noHit target
            (Table.mem_support.mpr ⟨weight, entryMember, positive⟩)
        exact (before target target_outside).le
      _ = 0 := by rw [Branch.expect_const, mul_zero]

end Solver.Query

/-- The states of probability zero are those whose step-bounded values are all
zero, and as many steps as there are states are enough to tell. -/
theorem Solver.mem_zeroSet_iff {ε : Type} (solver : Solver ℚ)
    (left right : BitSet) (query : solver.Query left right) :
    ∃ zero, solver.table.checkedZeroSet (ε := ε) solver.directions left right =
        .ok zero ∧
      ∀ state, state < solver.numStates →
        (zero.contains state = true ↔
          ∀ steps, solver.BoundedValue left right steps state 0) ∧
        (zero.contains state = true ↔
          solver.BoundedValue left right solver.numStates state 0) := by
  obtain ⟨reach, count, found, grown, closed⟩ :=
    solver.table.reach?_spec solver.directions left right
  refine ⟨solver.table.zeroSet solver.directions left right, ?_, ?_⟩
  · simp only [Table.checkedZeroSet, Attempt.require, query.knowsDirections,
      if_true]
    rfl
  intro state inside
  have member : (solver.table.zeroSet solver.directions left right).contains
      state = true ↔ reach.contains state = false := by
    have below : state < solver.table.numStates := inside
    simp [Table.zeroSet, found, below]
  have always : reach.contains state = false →
      ∀ steps, solver.untilValue left right steps state = 0 := by
    intro outside steps
    exact query.untilValue_eq_zero_of_closed
      (fun _ => grown.contains_of_start) closed steps state outside
  have enough : solver.untilValue left right solver.numStates state = 0 →
      reach.contains state = false := by
    intro zero
    by_contra present
    have positive := query.untilValue_pos_of_grown grown (by simpa using present)
    have kept : solver.untilValue left right count state ≤
        solver.untilValue left right solver.numStates state :=
      query.untilValue_mono grown.count_le state
    exact absurd zero (positive.trans_le kept).ne'
  simp only [member, query.boundedValue_iff inside, eq_comm (a := (0 : ℚ))]
  exact ⟨⟨always, fun zero => enough (zero _)⟩,
    ⟨fun outside => always outside _, enough⟩⟩

theorem Solver.standoff_zeroSet :
    standoff.Query (.ofList [0, 1, 2, 4]) (.ofList [3]) ∧
      ∃ zero, standoff.table.checkedZeroSet (ε := Empty) standoff.directions
          (.ofList [0, 1, 2, 4]) (.ofList [3]) = .ok zero ∧
        ∀ state, state < 5 →
          (zero.contains state = true ↔ ∀ steps,
            standoff.BoundedValue (.ofList [0, 1, 2, 4]) (.ofList [3]) steps
              state 0) ∧
          (zero.contains state = true ↔
            standoff.BoundedValue (.ofList [0, 1, 2, 4]) (.ofList [3]) 5 state
              0) :=
  ⟨standoff_query, mem_zeroSet_iff standoff _ _ standoff_query⟩

end Markov
