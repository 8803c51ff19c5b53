import Markov.Proofs.Iteration
import Markov.Solver

/-!
# Step-bounded until

A query that finds everything it refers to has values for every number of
steps, and the choices of these steps if they are asked for and can be laid out.
-/

namespace Markov

theorem getElem?_indicator {R : Type} [Scalar R] (set : BitSet)
    {n state : Nat} (inside : state < n) :
    (indicator (R := R) set n)[state]? =
      some (if set.contains state then 1 else 0) := by
  simp [indicator, inside]

@[simp]
theorem size_indicator {R : Type} [Scalar R] (set : BitSet) (n : Nat) :
    (indicator (R := R) set n).size = n := by
  simp [indicator]

theorem getD_indicator {R : Type} [Scalar R] (set : BitSet) (n state : Nat) :
    (indicator (R := R) set n).getD state 0 =
      if state < n ∧ set.contains state = true then 1 else 0 := by
  by_cases inside : state < n
  · rw [Array.getD_eq_getD_getElem?, getElem?_indicator set inside]
    simp [inside]
  · simp [indicator, inside]

theorem checkedIndicator_eq_ok {R ε : Type} [Scalar R] {set : BitSet} {n : Nat}
    {start : Array R}
    (started : (checkedIndicator set n : Attempt ε (Array R)) = .ok start) :
    set.isBelow n = true ∧ indicator set n = start := by
  obtain ⟨below, done⟩ := Attempt.require_bind_eq_ok.mp started
  exact ⟨below, Except.ok.inj done⟩

namespace Solver

variable {R : Type}

/-- A query about sets of states in which every state has a direction and the
successors of a state are states, wherever a step looks at them. -/
structure WellPosed (solver : Solver R) (left right : BitSet) : Prop where
  successors : ∀ state, state < solver.numStates →
    left.contains state = true → right.contains state = false →
    ∀ branch ∈ solver.table.branches state,
      branch.isBelow solver.numStates = true
  sized : solver.directions.size = solver.numStates
  leftBelow : left.isBelow solver.numStates = true
  rightBelow : right.isBelow solver.numStates = true

namespace WellPosed

variable {solver : Solver R} {left right : BitSet}

theorem lt_of_left (posed : solver.WellPosed left right) (state : Nat)
    (member : left.contains state = true) : state < solver.numStates :=
  BitSet.isBelow_iff.mp posed.leftBelow state member

theorem lt_of_right (posed : solver.WellPosed left right) (state : Nat)
    (member : right.contains state = true) : state < solver.numStates :=
  BitSet.isBelow_iff.mp posed.rightBelow state member

variable [Scalar R]

theorem ready (posed : solver.WellPosed left right) :
    (solver.bellman none).ready (left \ right)
      (indicator (R := R) right solver.numStates).size = true := by
  rw [size_indicator]
  apply Bellman.ready_of_below (by simp [bellman])
  · intro state member
    simp only [BitSet.contains_diff, Bool.and_eq_true] at member
    exact posed.lt_of_left state member.1
  · exact posed.sized.ge
  · exact le_rfl
  · intro state member
    simp only [BitSet.contains_diff, Bool.and_eq_true, Bool.not_eq_true']
      at member
    exact posed.successors state (posed.lt_of_left state member.1) member.1
      member.2

theorem boundedUntil_eq_ok (posed : solver.WellPosed left right)
    (steps : Nat) :
    solver.boundedUntil left right steps =
      .ok { values := (solver.bellman none).bounded (left \ right) steps
              (indicator right solver.numStates)
            stats := .steps "Bounded iteration" steps } := by
  simp only [boundedUntil, checkedIndicator, posed.rightBelow,
    Attempt.require_true, Attempt.ok_bind, pure_bind,
    Bellman.checkedBounded_eq_ok fun _ => posed.ready]
  rfl

theorem recordedUntil_eq_ok (posed : solver.WellPosed left right)
    {steps : Nat} (room : steps ≤ Word.maxWords) :
    solver.recordedUntil left right steps =
      .ok ({ values := (solver.bellman none).bounded (left \ right) steps
               (indicator right solver.numStates)
             stats := .steps "Bounded iteration" steps },
        (solver.bellman none).actions (left \ right) steps
          (indicator right solver.numStates)) := by
  simp only [recordedUntil, checkedIndicator, posed.rightBelow,
    Attempt.require_true, Attempt.ok_bind, pure_bind,
    Bellman.recorded_eq_ok room fun _ => posed.ready]
  rfl

end WellPosed

end Solver

end Markov
