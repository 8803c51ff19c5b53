import Mathlib.Logic.Function.Iterate
import Markov.Bellman
import Markov.Proofs.BitSet

/-!
# Repeated backups

Solvers write into two vectors that take turns.  A state that a step does not
write has the same value in both of them, so that nobody can tell the two
vectors from one that is backed up in place: the current vector runs through
the iterates of `Bellman.backup`, and the recorded choices are the best ones
for these iterates.  All equalities hold for any arithmetic.
-/

namespace Markov

/-- Writes the values that some of the given entries have into a vector. -/
def writeSome {α : Type} (value? : Nat → Option α) (entries : List Nat)
    (room : Array α) : Array α :=
  entries.foldl (fun room entry =>
    match value? entry with
    | some value => room.setIfInBounds entry value
    | none => room) room

theorem getElem?_writeSome {α : Type} (value? : Nat → Option α)
    (entries : List Nat) (room : Array α) (entry : Nat) :
    (writeSome value? entries room)[entry]? = room[entry]?.map fun old =>
      if entry ∈ entries then (value? entry).getD old else old := by
  induction entries generalizing room with
  | nil => simp [writeSome]
  | cons first entries ih =>
      unfold writeSome at ih ⊢
      rw [List.foldl_cons, ih]
      by_cases same : first = entry
      · subst first
        -- A second visit writes the value that the first one wrote.
        cases found : value? entry with
        | none => simp
        | some value =>
            by_cases inside : entry < room.size
            · simp [inside]
            · simp [inside]
      · have member : entry ∈ first :: entries ↔ entry ∈ entries := by
          simp [Ne.symm same]
        cases value? first with
        | none => simp [member]
        | some value => simp [member, Array.getElem?_setIfInBounds_ne same]

namespace Bellman

section Structure

variable {R : Type}

/-- A state whose value a step of `unknown` replaces. -/
def Writes (b : Bellman R) (unknown : BitSet) (state : Nat) : Prop :=
  unknown.contains state = true ∧ b.table.branches state ≠ []

instance (b : Bellman R) (unknown : BitSet) (state : Nat) :
    Decidable (b.Writes unknown state) :=
  inferInstanceAs (Decidable (_ ∧ ¬_ = []))

theorem Writes.lt_numStates {b : Bellman R} {unknown : BitSet} {state : Nat}
    (writes : b.Writes unknown state) : state < b.numStates := by
  by_contra outside
  apply writes.2
  have absent : b.table.rows[state]? = none := by
    simpa [numStates, Table.numStates] using outside
  simp [Table.branches, absent]

theorem row_eq_branches {b : Bellman R} {state : Nat}
    (inside : state < b.numStates) :
    b.table.rows[state]? = some (b.table.branches state) := by
  have bound : state < b.table.rows.size := inside
  simp [Table.branches, bound]

theorem lt_size_directions {b : Bellman R} {unknown : BitSet} {size : Nat}
    (ready : b.ready unknown size = true) {state : Nat}
    (writes : b.Writes unknown state) : state < b.directions.size := by
  have step : b.stepReady size state = true :=
    List.all_eq_true.mp ready state (BitSet.mem_toList.mpr writes.1)
  rw [stepReady, bestReady, row_eq_branches writes.lt_numStates] at step
  cases found : b.table.branches state with
  | nil => exact (writes.2 found).elim
  | cons branch rest =>
      simp only [found, Bool.and_eq_true, decide_eq_true_eq] at step
      exact step.1.1.1

/-- A step has found the successors of all choices between which it decides. -/
theorem isBelow_of_ready {b : Bellman R} {unknown : BitSet} {size : Nat}
    (ready : b.ready unknown size = true) {state : Nat}
    (member : unknown.contains state = true)
    (decides : b.direction state ≠ none ∨
      (b.table.branches state).length ≤ 1)
    {branch : Branch R} (listed : branch ∈ b.table.branches state) :
    branch.isBelow size = true := by
  have writes : b.Writes unknown state := ⟨member, List.ne_nil_of_mem listed⟩
  have step : b.stepReady size state = true :=
    List.all_eq_true.mp ready state (BitSet.mem_toList.mpr member)
  have below : ∀ choice other, b.branchReady size state choice other = true →
      other.isBelow size = true :=
    fun _ _ isReady => (Bool.and_eq_true_iff.mp isReady).2
  rw [stepReady, bestReady, row_eq_branches writes.lt_numStates] at step
  cases found : b.table.branches state with
  | nil => exact (writes.2 found).elim
  | cons first rest =>
      rw [found] at listed decides
      simp only [found, Bool.and_eq_true, Bool.or_eq_true,
        Option.isNone_iff_eq_none] at step
      obtain ⟨⟨⟨-, here⟩, others⟩, -⟩ := step
      rcases List.mem_cons.mp listed with rfl | later
      · exact below 0 branch here
      · have directed : b.direction state ≠ none := by
          rcases decides with directed | single
          · exact directed
          · have some := List.length_pos_of_mem later
            rw [List.length_cons] at single
            omega
        obtain ⟨index, position⟩ := List.mem_iff_getElem?.mp later
        have all := List.all_eq_true.mp (others.resolve_left directed)
          (branch, index) (List.mem_zipIdx_iff_getElem?.mpr position)
        exact below _ branch all

theorem ready_of_below {b : Bellman R} {unknown : BitSet} {size : Nat}
    (rewarded : ∀ rewards ∈ b.rewards, ∀ state,
      unknown.contains state = true →
      (b.table.branches state).length ≤ (rewards.getD state []).length)
    (states : ∀ state, unknown.contains state = true → state < b.numStates)
    (directed : b.numStates ≤ b.directions.size)
    (valued : b.numStates ≤ size)
    (below : ∀ state, unknown.contains state = true →
      ∀ branch ∈ b.table.branches state, branch.isBelow size = true) :
    b.ready unknown size = true := by
  apply List.all_eq_true.mpr
  intro state member
  rw [BitSet.mem_toList] at member
  have inside := states state member
  have successors := below state member
  have branchReady : ∀ choice, choice < (b.table.branches state).length →
      ∀ branch ∈ b.table.branches state,
        b.branchReady size state choice branch = true := by
    intro choice counted branch found
    have successor := successors branch found
    unfold Bellman.branchReady
    cases given : b.rewards with
    | none => simpa using successor
    | some rewards =>
        have enough := rewarded rewards given state member
        have counted : choice < (rewards.getD state []).length := by omega
        simpa [successor] using counted
  rw [stepReady, bestReady, row_eq_branches inside]
  cases found : b.table.branches state with
  | nil => simp
  | cons branch rest =>
      rw [found] at branchReady
      have first := branchReady 0 (Nat.succ_pos _) branch List.mem_cons_self
      have others : (rest.zipIdx.all fun entry =>
          b.branchReady size state (entry.2 + 1) entry.1) = true := by
        apply List.all_eq_true.mpr
        intro entry entryMember
        exact branchReady _
          (Nat.succ_lt_succ (List.snd_lt_of_mem_zipIdx entryMember)) _
          (List.mem_cons_of_mem _ (List.fst_mem_of_mem_zipIdx entryMember))
      have hasDirection : state < b.directions.size := by omega
      have hasValue : state < size := by omega
      simp [first, others, hasDirection, hasValue]

/-- Vectors that agree wherever a step does not write. -/
structure Aligned (b : Bellman R) (unknown : BitSet) (buffers : Buffers R) :
    Prop where
  size : buffers.spare.size = buffers.current.size
  kept : ∀ state, ¬b.Writes unknown state →
    buffers.spare[state]? = buffers.current[state]?

theorem aligned_ofValues (b : Bellman R) (unknown : BitSet) (x : Array R) :
    b.Aligned unknown (.ofValues x) :=
  ⟨rfl, fun _ _ => rfl⟩

end Structure

variable {R : Type} [Scalar R]

/-- The choice with the best value, zero for a state without choices. -/
def bestChoice (b : Bellman R) (state : Nat) (x : Array R) : Nat :=
  ((b.best state x).map Prod.snd).getD 0

theorem best_eq_none_iff {b : Bellman R} {state : Nat} {x : Array R} :
    b.best state x = none ↔ b.table.branches state = [] := by
  unfold best
  cases b.table.branches state with
  | nil => simp
  | cons branch rest =>
      cases b.direction state with
      | none => simp
      | some direction => simp

theorem bestValue_eq_getD (b : Bellman R) (state : Nat) (x : Array R)
    (old : R) :
    b.bestValue state x old = ((b.best state x).map Prod.fst).getD old := by
  unfold bestValue
  cases b.best state x with
  | none => rfl
  | some best => rfl

theorem bestValue_eq_of_branches {b : Bellman R} {state : Nat}
    (branches : b.table.branches state ≠ []) (x : Array R) (old other : R) :
    b.bestValue state x old = b.bestValue state x other := by
  unfold bestValue
  cases found : b.best state x with
  | none => exact (branches (best_eq_none_iff.mp found)).elim
  | some best => rfl

/-! ## One step -/

@[simp]
theorem size_backup (b : Bellman R) (unknown : BitSet) (x : Array R) :
    (b.backup unknown x).size = x.size := by
  simp [backup]

theorem ite_contains_eq_ite_writes (b : Bellman R) (unknown : BitSet)
    (x : Array R) (state : Nat) (old : R) :
    (if unknown.contains state then b.bestValue state x old else old) =
      if b.Writes unknown state then b.bestValue state x old else old := by
  by_cases noBranches : b.table.branches state = []
  · have value : b.bestValue state x old = old := by
      simp [bestValue, best_eq_none_iff.mpr noBranches]
    simp [Writes, noBranches, value]
  · simp [Writes, noBranches]

theorem getElem?_backup (b : Bellman R) (unknown : BitSet) (x : Array R)
    (state : Nat) :
    (b.backup unknown x)[state]? = x[state]?.map fun old =>
      if b.Writes unknown state then b.bestValue state x old else old := by
  simp [backup, ← ite_contains_eq_ite_writes]

theorem getElem?_backup_of_not_writes {b : Bellman R} {unknown : BitSet}
    {state : Nat} (kept : ¬b.Writes unknown state) (x : Array R) :
    (b.backup unknown x)[state]? = x[state]? := by
  rw [getElem?_backup]
  simp [kept]

theorem getD_backup_of_writes {b : Bellman R} {unknown : BitSet} {state : Nat}
    (writes : b.Writes unknown state) {x : Array R} (inside : state < x.size) :
    (b.backup unknown x).getD state 0 = b.bestValue state x 0 := by
  rw [Array.getD_eq_getD_getElem?, getElem?_backup,
    Array.getElem?_eq_getElem inside]
  simp only [writes, if_true, Option.map_some, Option.getD_some]
  exact bestValue_eq_of_branches writes.2 x _ 0

theorem getD_backup_of_not_writes {b : Bellman R} {unknown : BitSet}
    {state : Nat} (kept : ¬b.Writes unknown state) (x : Array R) :
    (b.backup unknown x).getD state 0 = x.getD state 0 := by
  rw [Array.getD_eq_getD_getElem?, getElem?_backup_of_not_writes kept,
    Array.getD_eq_getD_getElem?]

theorem getD_backup_of_size_le {b : Bellman R} {unknown : BitSet} {state : Nat}
    {x : Array R} (outside : x.size ≤ state) :
    (b.backup unknown x).getD state 0 = x.getD state 0 := by
  simp [Array.getD_eq_getD_getElem?, outside]

private theorem writeBest_eq (b : Bellman R) (x : Array R) (states : List Nat)
    (room : Array R) :
    b.writeBest x states room =
      writeSome (fun state => (b.best state x).map Prod.fst) states room := by
  unfold writeBest writeSome
  congr 1
  funext room state
  cases found : b.best state x with
  | none => simp [found]
  | some best => simp [found]

theorem getElem?_writeBest (b : Bellman R) (x : Array R) (unknown : BitSet)
    (room : Array R) (state : Nat) :
    (b.writeBest x unknown.toList room)[state]? = room[state]?.map fun old =>
      if b.Writes unknown state then b.bestValue state x old else old := by
  rw [writeBest_eq, getElem?_writeSome]
  simp only [← bestValue_eq_getD, BitSet.mem_toList,
    ite_contains_eq_ite_writes]

/-- A step of aligned vectors is a backup of the current one. -/
theorem step_current {b : Bellman R} {unknown : BitSet} {buffers : Buffers R}
    (aligned : b.Aligned unknown buffers) :
    (b.step unknown.toList buffers).current =
      b.backup unknown buffers.current := by
  apply Array.ext_getElem?
  intro state
  change (b.writeBest buffers.current unknown.toList buffers.spare)[state]? = _
  rw [getElem?_writeBest, getElem?_backup]
  by_cases writes : b.Writes unknown state
  · simp only [writes, if_true]
    by_cases inside : state < buffers.current.size
    · have alsoSpare : state < buffers.spare.size := aligned.size ▸ inside
      simp only [Array.getElem?_eq_getElem inside,
        Array.getElem?_eq_getElem alsoSpare, Option.map_some,
        Option.some.injEq]
      exact bestValue_eq_of_branches writes.2 _ _ _
    · have notSpare : ¬state < buffers.spare.size := aligned.size ▸ inside
      simp [inside, notSpare]
  · rw [aligned.kept state writes]

theorem Aligned.step {b : Bellman R} {unknown : BitSet} {buffers : Buffers R}
    (aligned : b.Aligned unknown buffers) :
    b.Aligned unknown (b.step unknown.toList buffers) := by
  constructor
  · rw [step_current aligned, size_backup]
    rfl
  · intro state kept
    rw [step_current aligned, getElem?_backup_of_not_writes kept]
    rfl

/-! ## Many steps -/

theorem steps_current {b : Bellman R} {unknown : BitSet} (count : Nat)
    {buffers : Buffers R} (aligned : b.Aligned unknown buffers) :
    (b.steps unknown.toList count buffers).current =
      (b.backup unknown)^[count] buffers.current := by
  induction count generalizing buffers with
  | zero => rfl
  | succ count ih =>
      rw [steps, ih aligned.step, step_current aligned,
        Function.iterate_succ_apply]

/-- A number of steps is as many backups. -/
theorem bounded_eq_iterate (b : Bellman R) (unknown : BitSet) (count : Nat)
    (x : Array R) :
    b.bounded unknown count x = (b.backup unknown)^[count] x :=
  steps_current count (b.aligned_ofValues unknown x)

theorem bounded_succ (b : Bellman R) (unknown : BitSet) (count : Nat)
    (x : Array R) :
    b.bounded unknown (count + 1) x =
      b.backup unknown (b.bounded unknown count x) := by
  rw [bounded_eq_iterate, bounded_eq_iterate, Function.iterate_succ_apply']

@[simp]
theorem size_bounded (b : Bellman R) (unknown : BitSet) (count : Nat)
    (x : Array R) : (b.bounded unknown count x).size = x.size := by
  induction count with
  | zero => rfl
  | succ count ih => rw [bounded_succ, size_backup, ih]

theorem getElem?_bounded_of_not_writes {b : Bellman R} {unknown : BitSet}
    {state : Nat} (kept : ¬b.Writes unknown state) (count : Nat)
    (x : Array R) : (b.bounded unknown count x)[state]? = x[state]? := by
  induction count with
  | zero => rfl
  | succ count ih =>
      rw [bounded_succ, getElem?_backup_of_not_writes kept, ih]

theorem getD_bounded_of_not_writes {b : Bellman R} {unknown : BitSet}
    {state : Nat} (kept : ¬b.Writes unknown state) (count : Nat)
    (x : Array R) :
    (b.bounded unknown count x).getD state 0 = x.getD state 0 := by
  rw [Array.getD_eq_getD_getElem?, getElem?_bounded_of_not_writes kept,
    Array.getD_eq_getD_getElem?]

theorem getD_bounded_succ {b : Bellman R} {unknown : BitSet} {state : Nat}
    (writes : b.Writes unknown state) {x : Array R} (inside : state < x.size)
    (count : Nat) :
    (b.bounded unknown (count + 1) x).getD state 0 =
      b.bestValue state (b.bounded unknown count x) 0 := by
  have now : state < (b.bounded unknown count x).size := by simpa using inside
  rw [bounded_succ, getD_backup_of_writes writes now]

/-- Steps give their values exactly if they find everything they refer to. -/
theorem checkedBounded_eq_ok_iff {ε : Type} {b : Bellman R} {unknown : BitSet}
    {count : Nat} {x values : Array R} :
    b.checkedBounded (ε := ε) unknown count x = .ok values ↔
      (0 < count → b.ready unknown x.size = true) ∧
      b.bounded unknown count x = values := by
  have guard : (decide (count = 0) || b.ready unknown x.size) = true ↔
      (0 < count → b.ready unknown x.size = true) := by
    rw [Bool.or_eq_true, decide_eq_true_eq, or_iff_not_imp_left,
      Nat.pos_iff_ne_zero]
  unfold checkedBounded
  rw [Attempt.require_bind_eq_ok, guard]
  exact and_congr_right fun _ => ⟨Except.ok.inj, congrArg Except.ok⟩

theorem checkedBounded_eq_ok {ε : Type} {b : Bellman R} {unknown : BitSet}
    {count : Nat} {x : Array R}
    (ready : 0 < count → b.ready unknown x.size = true) :
    b.checkedBounded (ε := ε) unknown count x =
      .ok (b.bounded unknown count x) :=
  checkedBounded_eq_ok_iff.mpr ⟨ready, rfl⟩

theorem recorded_eq_ok {ε : Type} {b : Bellman R} {unknown : BitSet}
    {count : Nat} {x : Array R} (room : count ≤ Word.maxWords)
    (ready : 0 < count → b.ready unknown x.size = true) :
    b.recorded (ε := ε) unknown count x =
      .ok (b.bounded unknown count x, b.actions unknown count x) := by
  simp only [recorded, Attempt.require, room, decide_true, if_true,
    checkedBounded_eq_ok ready]
  rfl

/-! ## Recorded choices -/

private theorem decisions_eq (b : Bellman R) (states : List Nat)
    (x : Array R) :
    b.decisions states x =
      writeSome (fun state => (b.best state x).map Prod.snd) states
        (Array.replicate b.numStates 0) := by
  unfold decisions writeSome
  congr 1
  funext choices state
  cases found : b.best state x with
  | none => simp [found]
  | some best => simp [found]

theorem getD_decisions {b : Bellman R} {unknown : BitSet} {state : Nat}
    (inside : state < b.numStates) (x : Array R) :
    (b.decisions unknown.toList x).getD state 0 =
      if b.Writes unknown state then b.bestChoice state x else 0 := by
  rw [Array.getD_eq_getD_getElem?, decisions_eq, getElem?_writeSome]
  simp only [BitSet.mem_toList, Array.getElem?_replicate, inside, if_true,
    Option.map_some, Option.getD_some]
  by_cases writes : b.Writes unknown state
  · simp [writes, writes.1, bestChoice]
  · by_cases member : unknown.contains state = true
    · have noBest : b.best state x = none := by
        rw [best_eq_none_iff]
        by_contra branches
        exact writes ⟨member, branches⟩
      simp [writes, noBest]
    · simp [writes, member]

theorem trace_eq_map {b : Bellman R} {unknown : BitSet} (count : Nat)
    {buffers : Buffers R} (aligned : b.Aligned unknown buffers) :
    b.trace unknown.toList count buffers =
      (List.range count).map fun done =>
        b.decisions unknown.toList
          ((b.backup unknown)^[done] buffers.current) := by
  induction count generalizing buffers with
  | zero => rfl
  | succ count ih =>
      rw [trace, ih aligned.step, List.range_succ_eq_map, step_current aligned]
      simp [Function.comp_def]

/-- The action recorded for a state with `done + 1` remaining steps is its
best choice for the values that `done` steps give. -/
theorem actions_eq (b : Bellman R) (unknown : BitSet) (count : Nat)
    (x : Array R) :
    b.actions unknown count x =
      (List.range b.numStates).map fun state =>
        (List.range count).map fun done =>
          if b.Writes unknown state then
            b.bestChoice state (b.bounded unknown done x)
          else 0 := by
  unfold actions
  apply List.map_congr_left
  intro state member
  rw [trace_eq_map count (b.aligned_ofValues unknown x), List.map_map]
  apply List.map_congr_left
  intro done _
  rw [Function.comp_apply, getD_decisions (List.mem_range.mp member),
    bounded_eq_iterate]
  rfl

end Bellman

end Markov
