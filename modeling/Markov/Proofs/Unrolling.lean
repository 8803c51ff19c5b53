import Markov.Proofs.Product

/-!
# Unrolled processes

A process that is unrolled along a policy has one copy of every state for each
number of remaining steps.  Iterating on the copies computes the values of
following the policy: the copy at a level has the value that its state has with
the choices of that level and of those below it.
-/

namespace Markov

open Product (nextBlock)

theorem Branch.dot_map_add {R : Type} [Scalar R] {branch : Branch R}
    {offset : Nat} {x y : Array R}
    (agrees : ∀ entry ∈ branch, x.getD (offset + entry.1) 0 = y.getD entry.1 0) :
    Branch.dot (branch.map fun entry => (offset + entry.1, entry.2)) x =
      branch.dot y := by
  unfold Branch.dot
  rw [List.foldl_map]
  generalize Scalar.emptySum (R := R) = sum
  induction branch generalizing sum with
  | nil => rfl
  | cons entry branch ih =>
      rw [List.foldl_cons, List.foldl_cons, agrees entry List.mem_cons_self]
      exact ih (fun later member =>
        agrees later (List.mem_cons_of_mem _ member)) _

namespace Bellman

variable {R : Type} [Scalar R]

/-- Copies of a process with `n` states, one for every number of remaining
steps from `bound` down to one, in which only the choices of a policy are
left. -/
structure Unrolls (b copies : Bellman R) (n : Nat) (policy : Policy)
    (bound : Nat) : Prop where
  branch : ∀ level state, 0 < level → level ≤ bound → state < n →
    ∃ branch, (b.table.branches state)[policy state level]? = some branch ∧
      branch.isBelow n = true ∧
      copies.table.branches ((bound - level) * n + state) =
        [branch.map fun entry =>
          (nextBlock bound level * n + entry.1, entry.2)]
  reward : ∀ level state, 0 < level → level ≤ bound → state < n →
    copies.reward ((bound - level) * n + state) 0 =
      b.reward state (policy state level)

variable {b copies : Bellman R} {n : Nat} {policy : Policy} {bound : Nat}

/-- A copy is worth what the choice of the policy is worth, if the block it
leads to has the values of the successors. -/
theorem Unrolls.choiceValue_eq (unrolls : b.Unrolls copies n policy bound)
    {level state : Nat} (positive : 0 < level) (within : level ≤ bound)
    (inside : state < n) {x y : Array R}
    (agrees : ∀ other < n,
      x.getD (nextBlock bound level * n + other) 0 =
        y.getD other 0) :
    copies.choiceValue ((bound - level) * n + state)
        (copies.bestChoice ((bound - level) * n + state) x) x =
      b.choiceValue state (policy state level) y := by
  obtain ⟨branch, found, below, single⟩ :=
    unrolls.branch level state positive within inside
  have branches : copies.table.branches
      ((bound - level) * n + state) ≠ [] := by simp [single]
  have first : copies.bestChoice ((bound - level) * n + state) x =
      0 := by
    simpa [single] using bestChoice_lt branches x
  have value : Branch.dot (branch.map fun entry =>
      (nextBlock bound level * n + entry.1, entry.2)) x =
      branch.dot y := by
    apply Branch.dot_map_add
    intro entry member
    exact agrees entry.1
      (of_decide_eq_true (List.all_eq_true.mp below entry member))
  rw [first, choiceValue, choiceValue, branchValue, branchValue,
    unrolls.reward level state positive within inside]
  simp [single, found, value]

/-- The values of the copies are those of following the policy. -/
theorem Unrolls.bounded_eq_follow (unrolls : b.Unrolls copies n policy bound)
    {unknown copied : BitSet} {x start : Array R}
    (members : ∀ block < bound, ∀ state < n,
      copied.contains (block * n + state) = unknown.contains state)
    (starts : ∀ block < bound, ∀ state < n,
      start[block * n + state]? = x[state]?)
    (steps spare : Nat) (positive : 0 < steps + spare)
    (within : steps + spare ≤ bound) {state : Nat}
    (inside : state < n) :
    (copies.bounded copied steps start)[
        (bound - (steps + spare)) * n + state]? =
      (b.follow unknown (fun state remaining =>
        policy state (remaining + spare)) x steps)[state]? := by
  induction steps generalizing state with
  | zero => exact starts _ (by omega) state inside
  | succ steps ih =>
      have block : bound - (steps + 1 + spare) < bound := by omega
      obtain ⟨branch, found, -, single⟩ :=
        unrolls.branch _ state positive within inside
      have writes : copies.Writes copied
          ((bound - (steps + 1 + spare)) * n + state) ↔
          b.Writes unknown state := by
        have branches : b.table.branches state ≠ [] := by
          intro none
          simp [none] at found
        simp [Writes, members _ block state inside, single, branches]
      have agrees : ∀ other < n,
          (copies.bounded copied steps start).getD
            (nextBlock bound (steps + 1 + spare) * n + other) 0 =
          (b.follow unknown (fun state remaining =>
            policy state (remaining + spare)) x steps).getD other 0 := by
        intro other otherInside
        rw [Array.getD_eq_getD_getElem?, Array.getD_eq_getD_getElem?]
        congr 1
        by_cases last : steps + spare = 0
        · -- Below the last level the copies stay in their block.
          obtain ⟨rfl, rfl⟩ : steps = 0 ∧ spare = 0 := by omega
          exact starts _ (Product.nextBlock_lt (by omega) _) other otherInside
        · have next : nextBlock bound (steps + 1 + spare) =
              bound - (steps + spare) := by
            simp only [nextBlock]
            omega
          rw [next]
          exact ih (by omega) (by omega) otherInside
      have value := unrolls.choiceValue_eq positive within inside agrees
      rw [getElem?_bounded_succ, getElem?_follow_succ,
        starts _ block state inside]
      simp only [writes, value]

end Bellman

end Markov
