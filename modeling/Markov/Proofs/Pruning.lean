import Markov.Proofs.Methods
import Markov.Proofs.SignedZero
import Markov.Solver

/-!
# Tables without transitions of weight zero

A table may list transitions that are never taken.  The graph analysis passes
over them.  The numerical methods refer to their targets, which have to exist,
and multiply the values of the targets by zero, so these have to be finite
(`Bellman.Harmless`).
-/

namespace Markov

variable {R : Type} [Scalar R]

/-- The entries whose weight is not zero. -/
def Branch.pruned (branch : Branch R) : Branch R :=
  branch.filter fun entry => !(entry.2 == 0)

/-- The table without transitions of weight zero. -/
def Table.pruned (t : Table R) : Table R :=
  ⟨t.rows.map fun row => row.map Branch.pruned⟩

/-- The equations without transitions of weight zero. -/
def Bellman.pruned (b : Bellman R) : Bellman R :=
  { b with table := b.table.pruned }

/-- The same query without transitions of weight zero. -/
def Solver.pruned (s : Solver R) : Solver R :=
  { s with table := s.table.pruned }

theorem Branch.support_pruned (zeros : ZerosAlike R) (branch : Branch R) :
    branch.pruned.support = branch.support := by
  unfold support pruned
  rw [List.filter_filter]
  congr 1
  apply List.filter_congr
  intro entry _
  cases vanishes : entry.2 == 0 with
  | false => simp
  | true => simp [zeros.notPositive vanishes]

theorem Branch.isBelow_pruned {branch : Branch R} {size : Nat}
    (below : ∀ entry ∈ branch, (entry.2 == 0) = true → entry.1 < size) :
    branch.pruned.isBelow size = branch.isBelow size := by
  apply Bool.eq_iff_iff.mpr
  simp only [isBelow, pruned, List.all_eq_true, List.mem_filter,
    decide_eq_true_eq]
  constructor
  · intro regular entry member
    cases vanishes : entry.2 == 0 with
    | false => exact regular entry ⟨member, by simp [vanishes]⟩
    | true => exact below entry member vanishes
  · intro all entry member
    exact all entry member.1

namespace Table

omit [Scalar R] in
theorem mem_branches_of_row {t : Table R} {state : Nat}
    {row : List (Branch R)} {branch : Branch R}
    (found : t.rows[state]? = some row) (member : branch ∈ row) :
    branch ∈ t.branches state := by
  rwa [branches, Array.getD_eq_getD_getElem?, found]

@[simp]
theorem numStates_pruned (t : Table R) : t.pruned.numStates = t.numStates := by
  simp [numStates, pruned]

theorem getElem?_rows_pruned (t : Table R) (state : Nat) :
    t.pruned.rows[state]? =
      t.rows[state]?.map fun row => row.map Branch.pruned := by
  simp [pruned]

theorem branches_pruned (t : Table R) (state : Nat) :
    t.pruned.branches state = (t.branches state).map Branch.pruned := by
  unfold branches
  rw [Array.getD_eq_getD_getElem?, getElem?_rows_pruned,
    Array.getD_eq_getD_getElem?]
  cases t.rows[state]? with
  | none => rfl
  | some row => rfl

theorem staysAndHits_pruned (zeros : ZerosAlike R) (u v : BitSet) :
    (staysAndHits u v ∘ Branch.pruned : Branch R → Bool) =
      staysAndHits u v := by
  funext branch
  simp only [Function.comp_apply, staysAndHits, branch.support_pruned zeros]

theorem growSure_pruned (zeros : ZerosAlike R) (t : Table R) :
    t.pruned.growSure = t.growSure := by
  funext dirs left u found
  simp only [growSure, numStates_pruned, branches_pruned, List.findIdx?_map,
    List.isEmpty_map, List.all_map, staysAndHits_pruned zeros]

/-- The graph analysis does not see transitions of weight zero. -/
theorem checkedOneSet_pruned {ε : Type} (zeros : ZerosAlike R) (t : Table R) :
    t.pruned.checkedOneSet (ε := ε) = t.checkedOneSet := by
  funext dirs left right
  simp only [checkedOneSet, knowsDirections, oneSet, sure?,
    numStates_pruned]
  unfold shrinkSure sureWithin?
  simp only [growSure_pruned zeros, numStates_pruned]

end Table

namespace Bellman

theorem branches_pruned (b : Bellman R) (state : Nat) :
    b.pruned.table.branches state =
      (b.table.branches state).map Branch.pruned :=
  b.table.branches_pruned state

theorem getElem?_rows_pruned (b : Bellman R) (state : Nat) :
    b.pruned.table.rows[state]? =
      b.table.rows[state]?.map fun row => row.map Branch.pruned :=
  b.table.getElem?_rows_pruned state

@[simp]
theorem options_pruned (b : Bellman R) : b.pruned.options = b.options := rfl

@[simp]
theorem direction_pruned (b : Bellman R) (state : Nat) :
    b.pruned.direction state = b.direction state := rfl

theorem writes_pruned (b : Bellman R) (unknown : BitSet) (state : Nat) :
    b.pruned.Writes unknown state ↔ b.Writes unknown state := by
  unfold Writes
  rw [branches_pruned, ne_eq, List.map_eq_nil_iff]

/-! ## Values that come up -/

/-- The values that a state can have while the values of `x` are replaced, one
or many at a time, by those of choices. -/
inductive Attained (b : Bellman R) (unknown : BitSet) (x : Array R) :
    Nat → R → Prop
  | start {state : Nat} {value : R} (present : x[state]? = some value) :
      Attained b unknown x state value
  | choice {y : Array R} {state choice : Nat} (size : y.size = x.size)
      (each : ∀ other value, y[other]? = some value →
        Attained b unknown x other value)
      (writes : b.Writes unknown state)
      (valid : choice < (b.table.branches state).length) :
      Attained b unknown x state (b.choiceValue state choice y)

theorem throughout_attained (b : Bellman R) (unknown : BitSet) (x : Array R) :
    Throughout (b.Attained unknown x) x.size x :=
  ⟨rfl, fun _ _ => .start⟩

theorem choicesKeep_attained (b : Bellman R) (unknown : BitSet) (x : Array R) :
    b.ChoicesKeep unknown x.size (b.Attained unknown x) :=
  fun _ throughout _ _ writes valid =>
    .choice throughout.size throughout.each writes valid

/-- Transitions of weight zero lead to states whose values are always finite. -/
structure Harmless (b : Bellman R) (unknown : BitSet) (x : Array R) : Prop where
  below : ∀ state, unknown.contains state = true →
    ∀ branch ∈ b.table.branches state, ∀ entry ∈ branch,
      (entry.2 == 0) = true → entry.1 < x.size
  finite : ∀ state, unknown.contains state = true →
    ∀ branch ∈ b.table.branches state, ∀ entry ∈ branch,
      (entry.2 == 0) = true →
      ∀ value, b.pruned.Attained unknown x entry.1 value →
        Scalar.isFinite value = true

variable {b : Bellman R} {unknown : BitSet} {start x : Array R} {state : Nat}

theorem Attained.of_not_writes {value : R}
    (attained : b.Attained unknown x state value)
    (kept : ¬b.Writes unknown state) : x[state]? = some value := by
  cases attained with
  | start present => exact present
  | choice size each writes valid => exact (kept writes).elim

/-! ## Readiness -/

theorem Harmless.branchReady (harmless : b.Harmless unknown start)
    (member : unknown.contains state = true) {branch : Branch R}
    (listed : branch ∈ b.table.branches state) (choice : Nat) :
    b.pruned.branchReady start.size state choice branch.pruned =
      b.branchReady start.size state choice branch := by
  unfold Bellman.branchReady
  rw [Branch.isBelow_pruned (harmless.below state member branch listed)]
  rfl

theorem Harmless.bestReady (harmless : b.Harmless unknown start)
    (member : unknown.contains state = true) :
    b.pruned.bestReady start.size state = b.bestReady start.size state := by
  unfold Bellman.bestReady
  rw [getElem?_rows_pruned]
  cases found : b.table.rows[state]? with
  | none => rfl
  | some row =>
      have ready : ∀ branch ∈ row, ∀ choice,
          b.pruned.branchReady start.size state choice branch.pruned =
            b.branchReady start.size state choice branch :=
        fun branch listed =>
          harmless.branchReady member (Table.mem_branches_of_row found listed)
      cases row with
      | nil => rfl
      | cons branch rest =>
          have others : ((rest.map Branch.pruned).zipIdx.all fun entry =>
                b.pruned.branchReady start.size state (entry.2 + 1) entry.1) =
              rest.zipIdx.all fun entry =>
                b.branchReady start.size state (entry.2 + 1) entry.1 := by
            rw [List.zipIdx_map, List.all_map]
            apply Bool.eq_iff_iff.mpr
            rw [List.all_eq_true, List.all_eq_true]
            apply forall₂_congr
            intro entry isEntry
            have listed : entry.1 ∈ branch :: rest :=
              List.mem_cons_of_mem _ (List.fst_mem_of_mem_zipIdx isEntry)
            exact Bool.eq_iff_iff.mp (ready entry.1 listed (entry.2 + 1))
          simp only [Option.map_some, List.map_cons, others,
            ready branch List.mem_cons_self, direction_pruned]
          rfl

theorem Harmless.ready (harmless : b.Harmless unknown start) :
    b.pruned.ready unknown start.size = b.ready unknown start.size := by
  apply BitSet.all_toList_congr
  intro state member
  rw [stepReady, stepReady, harmless.bestReady member, branches_pruned,
    List.isEmpty_map]

theorem Harmless.policyReadyAt (harmless : b.Harmless unknown start)
    (member : unknown.contains state = true) (policy : Array Nat) :
    b.pruned.policyReadyAt policy start.size state =
      b.policyReadyAt policy start.size state := by
  unfold Bellman.policyReadyAt
  rw [getElem?_rows_pruned]
  cases found : b.table.rows[state]? with
  | none => rfl
  | some row =>
      cases row with
      | nil => rfl
      | cons branch rest =>
          cases policy[state]? with
          | none => rfl
          | some choice =>
              simp only [Option.map_some, List.map_cons]
              rw [← List.map_cons, List.getElem?_map]
              cases taken : (branch :: rest)[choice]? with
              | none => rfl
              | some other =>
                  have listed := Table.mem_branches_of_row found
                    (List.mem_of_getElem? taken)
                  exact congrArg _ (harmless.branchReady member listed choice)

theorem Harmless.policyReady (harmless : b.Harmless unknown start)
    (policy : Array Nat) :
    b.pruned.policyReady policy unknown start.size =
      b.policyReady policy unknown start.size := by
  apply BitSet.all_toList_congr
  exact fun state member => harmless.policyReadyAt member policy

theorem Harmless.improveReady (harmless : b.Harmless unknown start)
    (policy : Array Nat) :
    b.pruned.improveReady policy unknown start.size =
      b.improveReady policy unknown start.size := by
  apply BitSet.all_toList_congr
  intro state member
  rw [harmless.bestReady member, harmless.policyReadyAt member,
    branches_pruned, List.isEmpty_map]
  rfl

end Bellman

end Markov
