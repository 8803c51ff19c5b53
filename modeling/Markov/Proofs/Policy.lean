import Markov.Proofs.Iteration

/-!
# Step-dependent policies

A policy picks a choice for every state and every number of remaining steps.
`Bellman.follow` evaluates it by backward recursion.  The actions that bounded
iteration records are such a policy, and following them gives the values that
the iteration computed, whatever the arithmetic is.
-/

namespace Markov

/-- A choice for every state and every number of remaining steps. -/
abbrev Policy := Nat → Nat → Nat

/-- The policy that a table of recorded actions describes. -/
def Policy.ofActions (actions : List (List Nat)) : Policy :=
  fun state remaining => (actions.getD state []).getD (remaining - 1) 0

namespace Bellman

variable {R : Type} [Scalar R]

/-- The values of following a policy for a number of steps, of which `x` is
what is left at the end. -/
def follow (b : Bellman R) (unknown : BitSet) (policy : Policy) (x : Array R) :
    Nat → Array R
  | 0 => x
  | steps + 1 =>
    x.mapIdx fun state old =>
      if b.Writes unknown state then
        b.choiceValue state (policy state (steps + 1))
          (b.follow unknown policy x steps)
      else old

theorem getElem?_follow_succ (b : Bellman R) (unknown : BitSet)
    (policy : Policy) (x : Array R) (steps state : Nat) :
    (b.follow unknown policy x (steps + 1))[state]? =
      x[state]?.map fun old =>
        if b.Writes unknown state then
          b.choiceValue state (policy state (steps + 1))
            (b.follow unknown policy x steps)
        else old := by
  simp [follow]

/-! ## Best choices -/

private theorem scan_cases (b : Bellman R) (direction : Direction)
    (state : Nat) (x : Array R) (index : Nat) (best : R × Nat)
    (rest : List (Branch R)) :
    b.scan direction state x index best rest = best ∨
      ∃ position branch, rest[position]? = some branch ∧
        b.scan direction state x index best rest =
          (b.branchValue state (index + position) branch x,
            index + position) := by
  induction rest generalizing index best with
  | nil => exact .inl rfl
  | cons branch rest ih =>
      rw [scan]
      rcases ih (index + 1) _ with kept | ⟨position, later, found, equality⟩
      · rw [kept]
        split
        · exact .inr ⟨0, branch, rfl, rfl⟩
        · exact .inl rfl
      · refine .inr ⟨position + 1, later, by simpa using found, ?_⟩
        rw [equality]
        simp [Nat.add_comm, Nat.add_left_comm]

theorem best_spec {b : Bellman R} {state : Nat} {x : Array R} {value : R}
    {choice : Nat} (found : b.best state x = some (value, choice)) :
    choice < (b.table.branches state).length ∧
      value = b.choiceValue state choice x := by
  unfold best at found
  unfold choiceValue
  cases branches : b.table.branches state with
  | nil => simp [branches] at found
  | cons branch rest =>
      simp only [branches] at found
      cases direction : b.direction state with
      | none =>
          simp only [direction, Option.some.injEq, Prod.mk.injEq] at found
          obtain ⟨rfl, rfl⟩ := found
          simp
      | some direction' =>
          simp only [direction, Option.some.injEq] at found
          rcases b.scan_cases direction' state x 1
              (b.branchValue state 0 branch x, 0) rest with
            kept | ⟨position, later, present, equality⟩
          · rw [kept, Prod.mk.injEq] at found
            obtain ⟨rfl, rfl⟩ := found
            simp
          · rw [equality, Prod.mk.injEq] at found
            obtain ⟨rfl, rfl⟩ := found
            obtain ⟨bound, rfl⟩ := List.getElem?_eq_some_iff.mp present
            rw [Nat.add_comm 1 position]
            simp [bound]

theorem bestChoice_lt {b : Bellman R} {state : Nat}
    (branches : b.table.branches state ≠ []) (x : Array R) :
    b.bestChoice state x < (b.table.branches state).length := by
  unfold bestChoice
  cases found : b.best state x with
  | none => exact (branches (best_eq_none_iff.mp found)).elim
  | some best => exact (best_spec found).1

theorem bestValue_eq_choiceValue {b : Bellman R} {state : Nat}
    (branches : b.table.branches state ≠ []) (x : Array R) (old : R) :
    b.bestValue state x old =
      b.choiceValue state (b.bestChoice state x) x := by
  unfold bestValue bestChoice
  cases found : b.best state x with
  | none => exact (branches (best_eq_none_iff.mp found)).elim
  | some best => exact (best_spec found).2

/-- The values of bounded iteration, in the form of `getElem?_follow_succ`. -/
theorem getElem?_bounded_succ (b : Bellman R) (unknown : BitSet)
    (count state : Nat) (x : Array R) :
    (b.bounded unknown (count + 1) x)[state]? = x[state]?.map fun old =>
      if b.Writes unknown state then
        b.choiceValue state (b.bestChoice state (b.bounded unknown count x))
          (b.bounded unknown count x)
      else old := by
  by_cases writes : b.Writes unknown state
  · rw [bounded_succ, getElem?_backup]
    simp only [writes, if_true, bestValue_eq_choiceValue writes.2]
    by_cases inside : state < x.size
    · have now : state < (b.bounded unknown count x).size := by
        simpa using inside
      rw [Array.getElem?_eq_getElem inside, Array.getElem?_eq_getElem now]
      rfl
    · simp [inside]
  · rw [getElem?_bounded_of_not_writes writes]
    simp [writes]

/-! ## Recorded actions -/

theorem ofActions_actions {b : Bellman R} {unknown : BitSet}
    {count state done : Nat} {x : Array R}
    (writes : b.Writes unknown state) (earlier : done < count) :
    Policy.ofActions (b.actions unknown count x) state (done + 1) =
      b.bestChoice state (b.bounded unknown done x) := by
  rw [actions_eq]
  simp [Policy.ofActions, writes.lt_numStates, earlier, writes]

theorem ofActions_actions_lt {b : Bellman R} (unknown : BitSet)
    {count state remaining : Nat} (x : Array R)
    (inside : state < b.numStates)
    (branches : b.table.branches state ≠ []) (positive : 0 < remaining)
    (within : remaining ≤ count) :
    Policy.ofActions (b.actions unknown count x) state remaining <
      (b.table.branches state).length := by
  have counted : remaining - 1 < count := by omega
  rw [actions_eq]
  simp only [Policy.ofActions, List.getD_eq_getElem?_getD, List.getElem?_map,
    List.getElem?_range inside, List.getElem?_range counted, Option.map_some,
    Option.getD_some]
  split
  · exact bestChoice_lt branches _
  · exact List.length_pos_iff.mpr branches

theorem length_of_mem_actions {b : Bellman R} {unknown : BitSet}
    {count : Nat} {x : Array R} {row : List Nat}
    (member : row ∈ b.actions unknown count x) : row.length = count := by
  rw [actions_eq] at member
  obtain ⟨state, -, rfl⟩ := List.mem_map.mp member
  simp

theorem lt_of_mem_actions {b : Bellman R} {unknown : BitSet} {count : Nat}
    {x : Array R} {limit : Nat} (positive : 0 < limit)
    (small : ∀ state, (b.table.branches state).length ≤ limit)
    {row : List Nat} (member : row ∈ b.actions unknown count x) {action : Nat}
    (taken : action ∈ row) : action < limit := by
  rw [actions_eq] at member
  obtain ⟨state, -, rfl⟩ := List.mem_map.mp member
  obtain ⟨done, -, rfl⟩ := List.mem_map.mp taken
  split
  · rename_i writes
    exact (bestChoice_lt writes.2 _).trans_le (small state)
  · exact positive

/-- Following the best choices gives the values of bounded iteration. -/
theorem follow_eq_bounded {b : Bellman R} {unknown : BitSet} {policy : Policy}
    {x : Array R} {count : Nat}
    (agrees : ∀ state done, b.Writes unknown state → done < count →
      policy state (done + 1) =
        b.bestChoice state (b.bounded unknown done x)) :
    b.follow unknown policy x count = b.bounded unknown count x := by
  induction count with
  | zero => rfl
  | succ count ih =>
      have before := ih fun state done writes earlier =>
        agrees state done writes (Nat.lt_succ_of_lt earlier)
      apply Array.ext_getElem?
      intro state
      rw [getElem?_follow_succ, getElem?_bounded_succ, before]
      congr 1
      funext old
      by_cases writes : b.Writes unknown state
      · simp [writes, agrees state count writes (Nat.lt_succ_self count)]
      · simp [writes]

/-- The recorded actions are worth the values that they were recorded with. -/
theorem follow_actions (b : Bellman R) (unknown : BitSet) (count : Nat)
    (x : Array R) :
    b.follow unknown (.ofActions (b.actions unknown count x)) x count =
      b.bounded unknown count x :=
  follow_eq_bounded fun _ _ writes earlier => ofActions_actions writes earlier

end Bellman

end Markov
