import Markov.Proofs.Interchange
import Markov.Proofs.Pruning

/-!
# Transitions of weight zero

Transitions of weight zero make no difference as long as they lead to finite
values: the iterations for a table with and without such transitions go through
vectors that differ at most in the signs of zeros, stop at the same time, and
improve the same choices.  Where such a transition leads to an infinite value,
the product is not a number, and neither is the reward.
-/

namespace Markov

open Scalar (Alike)

variable {R : Type} [Scalar R]

/-- Products with weight zero do not count in a weighted sum of finite values. -/
theorem Branch.alike_dot_pruned (zeros : ZerosAlike R) {branch : Branch R}
    {x y : Array R} (alike : ∀ state, Alike (x.getD state 0) (y.getD state 0))
    (finite : ∀ entry ∈ branch, (entry.2 == 0) = true →
      Scalar.isFinite (x.getD entry.1 0) = true) :
    Alike (branch.dot x) (branch.pruned.dot y) := by
  unfold dot
  suffices sums : ∀ sum other : R, Alike sum other →
      Alike (branch.foldl (fun sum entry => sum + entry.2 * x.getD entry.1 0) sum)
        (branch.pruned.foldl
          (fun sum entry => sum + entry.2 * y.getD entry.1 0) other) from
    sums _ _ (.refl _)
  induction branch with
  | nil => exact fun _ _ same => same
  | cons entry branch ih =>
      intro sum other same
      have rest := ih fun later member =>
        finite later (List.mem_cons_of_mem _ member)
      unfold pruned at rest ⊢
      cases vanishes : entry.2 == 0 with
      | true =>
          rw [List.foldl_cons, List.filter_cons_of_neg (by simp [vanishes])]
          apply rest
          exact (zeros.inert sum vanishes
            (finite entry List.mem_cons_self vanishes)).trans same
      | false =>
          rw [List.foldl_cons, List.filter_cons_of_pos (by simp [vanishes]),
            List.foldl_cons]
          apply rest
          exact zeros.add same (zeros.mul entry.2 (alike entry.1))

namespace Bellman

/-! ## Vectors side by side -/

/-- A vector of the equations with all transitions, next to one of the equations
without those of weight zero: they differ in signs of zeros only, and the second
one has values that come up. -/
structure Mirrors (b : Bellman R) (unknown : BitSet) (start x y : Array R) :
    Prop where
  size : x.size = start.size
  alike : ∀ state, Alike (x.getD state 0) (y.getD state 0)
  attained : Throughout (b.pruned.Attained unknown start) start.size y

theorem mirrors_start (b : Bellman R) (unknown : BitSet) (start : Array R) :
    b.Mirrors unknown start start start :=
  ⟨rfl, fun _ => .refl _, b.pruned.throughout_attained unknown start⟩

variable {b : Bellman R} {unknown : BitSet} {start x y : Array R} {state : Nat}

theorem Mirrors.sizes (mirrors : b.Mirrors unknown start x y) :
    x.size = y.size :=
  mirrors.size.trans mirrors.attained.size.symm

theorem Mirrors.setIfInBounds (mirrors : b.Mirrors unknown start x y)
    {value other : R} (alike : Alike value other)
    (attained : b.pruned.Attained unknown start state other) :
    b.Mirrors unknown start (x.setIfInBounds state value)
      (y.setIfInBounds state other) := by
  refine ⟨?_, ?_, mirrors.attained.setIfInBounds attained⟩
  · rw [Array.size_setIfInBounds, mirrors.size]
  · intro place
    have sizes := mirrors.sizes
    have elsewhere := mirrors.alike place
    rw [Array.getD_eq_getD_getElem?, Array.getD_eq_getD_getElem?] at elsewhere ⊢
    by_cases same : state = place
    · subst same
      by_cases inside : state < x.size
      · simpa [inside, sizes ▸ inside] using alike
      · have outside : ¬state < y.size := sizes ▸ inside
        simpa [inside, outside] using Alike.refl (0 : R)
    · rwa [Array.getElem?_setIfInBounds_ne same,
        Array.getElem?_setIfInBounds_ne same]

/-- Replacements of values by values that are alike: the vectors still mirror
each other, and the differences they make are the same. -/
theorem Mirrors.updateInTurn (zeros : ZerosAlike R)
    {value other : Nat → Array R → R} {states : List Nat}
    (keeps : ∀ x y, b.Mirrors unknown start x y → ∀ state ∈ states,
      b.table.branches state ≠ [] →
      Alike (value state x) (other state y) ∧
        b.pruned.Attained unknown start state (other state y))
    {sweep sweep' : Array R × R}
    (mirrors : b.Mirrors unknown start sweep.1 sweep'.1)
    (delta : sweep.2 = sweep'.2) :
    b.Mirrors unknown start (b.updateInTurn value states sweep).1
        (b.pruned.updateInTurn other states sweep').1 ∧
      (b.updateInTurn value states sweep).2 =
        (b.pruned.updateInTurn other states sweep').2 := by
  induction states generalizing sweep sweep' with
  | nil => exact ⟨mirrors, delta⟩
  | cons state states ih =>
      have later : ∀ x y, b.Mirrors unknown start x y → ∀ next ∈ states,
          b.table.branches next ≠ [] →
          Alike (value next x) (other next y) ∧
            b.pruned.Attained unknown start next (other next y) :=
        fun x y mirrors next member =>
          keeps x y mirrors next (List.mem_cons_of_mem _ member)
      by_cases noBranches : b.table.branches state = []
      · have alsoNone : b.pruned.table.branches state = [] := by
          rw [branches_pruned, noBranches, List.map_nil]
        rw [updateInTurn_cons_of_no_branches noBranches,
          updateInTurn_cons_of_no_branches alsoNone]
        exact ih later mirrors delta
      · have alsoSome : b.pruned.table.branches state ≠ [] := by
          rwa [branches_pruned, ne_eq, List.map_eq_nil_iff]
        rw [updateInTurn_cons_of_branches noBranches,
          updateInTurn_cons_of_branches alsoSome]
        obtain ⟨alike, attained⟩ :=
          keeps _ _ mirrors state List.mem_cons_self noBranches
        apply ih later
        · exact mirrors.setIfInBounds alike attained
        · change Scalar.larger sweep.2 _ = Scalar.larger sweep'.2 _
          rw [delta, zeros.gap _ (mirrors.alike state) alike]
          rfl

/-- The largest difference between two vectors is that between vectors that
mirror them. -/
theorem Mirrors.distance (zeros : ZerosAlike R) (criterion : Criterion)
    {old old' new new' : Array R} (before : b.Mirrors unknown start old old')
    (after : b.Mirrors unknown start new new') :
    criterion.distance old new = criterion.distance old' new' := by
  have gaps : (old.zip new).map (fun pair => criterion.gap pair.1 pair.2) =
      (old'.zip new').map (fun pair => criterion.gap pair.1 pair.2) := by
    apply Array.ext
    · simp [before.size, after.size, before.attained.size, after.attained.size]
    · intro state left right
      simp only [Array.size_map, Array.size_zip, Nat.lt_min] at left right
      have earlier := before.alike state
      have later := after.alike state
      simp only [Array.getD_eq_getD_getElem?, left, right,
        Array.getElem?_eq_getElem, Option.getD_some] at earlier later
      simpa using zeros.gap criterion earlier later
  have folded : ∀ first second : Array R, criterion.distance first second =
      ((first.zip second).map
        fun pair => criterion.gap pair.1 pair.2).foldl Scalar.larger 0 := by
    intro first second
    rw [Array.foldl_map]
    rfl
  rw [folded, folded, gaps]

/-! ## The value of a choice -/

section Values

variable (zeros : ZerosAlike R) (harmless : b.Harmless unknown start)
  (mirrors : b.Mirrors unknown start x y)

include zeros harmless mirrors

theorem Mirrors.isFinite (member : unknown.contains state = true)
    {branch : Branch R} (listed : branch ∈ b.table.branches state)
    {entry : Nat × R} (isEntry : entry ∈ branch) (vanishes : (entry.2 == 0) = true) :
    Scalar.isFinite (x.getD entry.1 0) = true := by
  have inside :=
    harmless.below state member branch listed entry isEntry vanishes
  rw [zeros.isFinite (mirrors.alike entry.1)]
  exact harmless.finite state member branch listed entry isEntry vanishes _
    (mirrors.attained.getD inside 0)

theorem Mirrors.branchValue (member : unknown.contains state = true)
    {branch : Branch R} (listed : branch ∈ b.table.branches state)
    (choice : Nat) :
    Alike (b.branchValue state choice branch x)
      (b.pruned.branchValue state choice branch.pruned y) := by
  apply zeros.add_right
  apply Branch.alike_dot_pruned zeros mirrors.alike
  exact fun entry isEntry =>
    mirrors.isFinite zeros harmless member listed isEntry

theorem Mirrors.choiceValue (member : unknown.contains state = true)
    (choice : Nat) :
    Alike (b.choiceValue state choice x)
      (b.pruned.choiceValue state choice y) := by
  unfold Bellman.choiceValue
  rw [branches_pruned, List.getD_eq_getElem?_getD, List.getD_eq_getElem?_getD,
    List.getElem?_map]
  cases found : (b.table.branches state)[choice]? with
  | none => exact .refl (b.branchValue state choice [] x)
  | some branch =>
      exact mirrors.branchValue zeros harmless member
        (List.mem_of_getElem? found) choice

/-- The best of values that are alike is that of the same choice. -/
theorem Mirrors.scan (member : unknown.contains state = true)
    (direction : Direction) {rest : List (Branch R)}
    (listed : ∀ branch ∈ rest, branch ∈ b.table.branches state) (index : Nat)
    {best other : R × Nat} (value : Alike best.1 other.1)
    (choice : best.2 = other.2) :
    Alike (b.scan direction state x index best rest).1
        (b.pruned.scan direction state y index other
          (rest.map Branch.pruned)).1 ∧
      (b.scan direction state x index best rest).2 =
        (b.pruned.scan direction state y index other
          (rest.map Branch.pruned)).2 := by
  induction rest generalizing index best other with
  | nil => exact ⟨value, choice⟩
  | cons branch rest ih =>
      have new := mirrors.branchValue zeros harmless member
        (listed branch List.mem_cons_self) index
      rw [Bellman.scan, List.map_cons, Bellman.scan,
        zeros.better direction new value]
      apply ih fun later isLater =>
        listed later (List.mem_cons_of_mem _ isLater)
      · split
        · exact new
        · exact value
      · split
        · rfl
        · exact choice

theorem Mirrors.best (member : unknown.contains state = true) :
    Option.Rel (fun best other => Alike best.1 other.1 ∧ best.2 = other.2)
      (b.best state x) (b.pruned.best state y) := by
  unfold Bellman.best
  rw [branches_pruned]
  cases found : b.table.branches state with
  | nil => exact .none
  | cons branch rest =>
      have first := mirrors.branchValue zeros harmless member
        (found ▸ List.mem_cons_self) 0
      rw [direction_pruned]
      cases b.direction state with
      | none => exact .some ⟨first, rfl⟩
      | some direction =>
          have others : ∀ later ∈ rest, later ∈ b.table.branches state :=
            fun later isLater => found ▸ List.mem_cons_of_mem _ isLater
          apply Option.Rel.some
          refine mirrors.scan zeros harmless member direction others 1 ?_ ?_
          · exact first
          · rfl

theorem Mirrors.bestValue (writes : b.Writes unknown state) (old other : R) :
    Alike (b.bestValue state x old) (b.pruned.bestValue state y other) := by
  have best := mirrors.best zeros harmless writes.1
  have exists_best : b.best state x ≠ none :=
    fun none => writes.2 (best_eq_none_iff.mp none)
  unfold Bellman.bestValue
  generalize b.best state x = left at best exists_best ⊢
  generalize b.pruned.best state y = right at best ⊢
  cases best with
  | none => exact (exists_best rfl).elim
  | some alike => exact alike.1

theorem Mirrors.inPlaceSweep :
    b.Mirrors unknown start (b.inPlaceSweep unknown.toList x).1
        (b.pruned.inPlaceSweep unknown.toList y).1 ∧
      (b.inPlaceSweep unknown.toList x).2 =
        (b.pruned.inPlaceSweep unknown.toList y).2 := by
  rw [inPlaceSweep_eq, inPlaceSweep_eq]
  refine Mirrors.updateInTurn zeros ?_ mirrors rfl
  intro x y mirrors state member branches
  have writes : b.Writes unknown state :=
    ⟨BitSet.mem_toList.mp member, branches⟩
  refine ⟨mirrors.bestValue zeros harmless writes 0 0, ?_⟩
  exact (choicesKeep_attained b.pruned unknown start).bestKeeps y
    mirrors.attained state ((writes_pruned b unknown state).mpr writes)

theorem Mirrors.policySweep {policy : Array Nat}
    (valid : ∀ state, b.Writes unknown state →
      policy.getD state 0 < (b.table.branches state).length) :
    b.Mirrors unknown start (b.policySweep policy unknown.toList x).1
        (b.pruned.policySweep policy unknown.toList y).1 ∧
      (b.policySweep policy unknown.toList x).2 =
        (b.pruned.policySweep policy unknown.toList y).2 := by
  rw [policySweep_eq, policySweep_eq]
  refine Mirrors.updateInTurn zeros ?_ mirrors rfl
  intro x y mirrors state member branches
  have writes : b.Writes unknown state :=
    ⟨BitSet.mem_toList.mp member, branches⟩
  refine ⟨mirrors.choiceValue zeros harmless writes.1 _, ?_⟩
  apply choicesKeep_attained b.pruned unknown start y mirrors.attained
  · exact (writes_pruned b unknown state).mpr writes
  · rw [branches_pruned, List.length_map]
    exact valid state writes

theorem Mirrors.backup :
    b.Mirrors unknown start (b.backup unknown x)
      (b.pruned.backup unknown y) := by
  refine ⟨?_, ?_, throughout_backup
    (choicesKeep_attained b.pruned unknown start).bestKeeps mirrors.attained⟩
  · rw [size_backup, mirrors.size]
  · intro state
    by_cases writes : b.Writes unknown state
    · have alsoWrites := (writes_pruned b unknown state).mpr writes
      rcases Nat.lt_or_ge state x.size with inside | outside
      · rw [getD_backup_of_writes writes inside,
          getD_backup_of_writes alsoWrites (mirrors.sizes ▸ inside)]
        exact mirrors.bestValue zeros harmless writes 0 0
      · rw [getD_backup_of_size_le outside,
          getD_backup_of_size_le (mirrors.sizes ▸ outside)]
        exact mirrors.alike state
    · have alsoKept := mt (writes_pruned b unknown state).mp writes
      rw [getD_backup_of_not_writes writes, getD_backup_of_not_writes alsoKept]
      exact mirrors.alike state

end Values

end Bellman

/-! ## Runs -/

namespace Attempt.Agree

theorem bind {ε α β γ δ : Type} {related : α → β → Prop}
    {relatedNext : γ → δ → Prop} {left : Attempt ε α} {right : Attempt ε β}
    {next : α → Attempt ε γ} {next' : β → Attempt ε δ}
    (agree : Agree related left right)
    (rest : ∀ a b, related a b → Agree relatedNext (next a) (next' b)) :
    Agree relatedNext (left >>= next) (right >>= next') := by
  cases agree with
  | failed failure => exact .failed failure
  | done same => exact rest _ _ same

theorem mapCause {ε δ α β : Type} {related : α → β → Prop}
    {left : Attempt ε α} {right : Attempt ε β} (change : ε → δ)
    (agree : Agree related left right) :
    Agree related (Attempt.mapCause change left)
      (Attempt.mapCause change right) := by
  cases agree with
  | failed failure =>
      cases failure with
      | breach => exact .failed .breach
      | error cause => exact .failed (.error (change cause))
  | done same => exact .done same

end Attempt.Agree

/-- Runs that have made as many sweeps with the same differences. -/
structure Run.Abreast {α β : Type} (related : α → β → Prop) (run : Run α R)
    (other : Run β R) : Prop where
  value : related run.value other.value
  sweeps : run.sweeps = other.sweeps
  lastDelta : run.lastDelta = other.lastDelta
  settled : run.settled = other.settled

namespace Run.Abreast

variable {α β : Type} {related : α → β → Prop} {sweep : α → α × R}
  {sweep' : β → β × R} {tolerance : R}

theorem extend
    (step : ∀ a b, related a b →
      related (sweep a).1 (sweep' b).1 ∧ (sweep a).2 = (sweep' b).2)
    (fuel : Nat) {run : Run α R} {other : Run β R}
    (abreast : Abreast related run other) :
    Abreast related (Run.extend sweep tolerance fuel run)
      (Run.extend sweep' tolerance fuel other) := by
  induction fuel generalizing run other with
  | zero => exact abreast
  | succ fuel ih =>
      obtain ⟨value, delta⟩ := step _ _ abreast.value
      rw [extend_succ, extend_succ, ← delta]
      split
      · exact ⟨value, congrArg (· + 1) abreast.sweeps, rfl, rfl⟩
      · exact ih ⟨value, congrArg (· + 1) abreast.sweeps, rfl, rfl⟩

theorem start
    (step : ∀ a b, related a b →
      related (sweep a).1 (sweep' b).1 ∧ (sweep a).2 = (sweep' b).2)
    (limit : Nat) {value : α} {other : β} (same : related value other) :
    Abreast related (Run.start sweep tolerance limit value)
      (Run.start sweep' tolerance limit other) :=
  extend step limit ⟨same, rfl, rfl, rfl⟩

end Run.Abreast

namespace Bellman

variable {b : Bellman R} {unknown : BitSet} {start x y : Array R} {state : Nat}

/-- Solutions that mirror each other and were found in the same way. -/
def SolutionsMirror (b : Bellman R) (unknown : BitSet) (start : Array R)
    (solution other : Solution R) : Prop :=
  b.Mirrors unknown start solution.values other.values ∧
    solution.stats = other.stats

theorem agree_conclude {α β : Type} {related : α → β → Prop}
    (method : Method) {run : Run α R} {other : Run β R}
    (abreast : run.Abreast related other) {values values' : Array R}
    (mirrors : b.Mirrors unknown start values values') :
    Attempt.Agree (b.SolutionsMirror unknown start)
      (conclude method run values) (conclude method other values') := by
  unfold conclude
  rw [abreast.settled, abreast.sweeps, abreast.lastDelta]
  split
  · exact .done ⟨mirrors, rfl⟩
  · exact .failed _

/-! ## Iteration -/

/-- Buffers of both equations whose current vectors mirror each other. -/
structure BuffersMirror (b : Bellman R) (unknown : BitSet) (start : Array R)
    (buffers other : Buffers R) : Prop where
  aligned : b.Aligned unknown buffers
  alsoAligned : b.pruned.Aligned unknown other
  current : b.Mirrors unknown start buffers.current other.current

theorem BuffersMirror.stepSweep (zeros : ZerosAlike R)
    (harmless : b.Harmless unknown start) {buffers other : Buffers R}
    (mirror : b.BuffersMirror unknown start buffers other) :
    b.BuffersMirror unknown start (b.stepSweep unknown.toList buffers).1
        (b.pruned.stepSweep unknown.toList other).1 ∧
      (b.stepSweep unknown.toList buffers).2 =
        (b.pruned.stepSweep unknown.toList other).2 := by
  have next : b.Mirrors unknown start
      (b.step unknown.toList buffers).current
      (b.pruned.step unknown.toList other).current := by
    rw [step_current mirror.aligned, step_current mirror.alsoAligned]
    exact mirror.current.backup zeros harmless
  refine ⟨⟨mirror.aligned.step, mirror.alsoAligned.step, next⟩, ?_⟩
  exact mirror.current.distance zeros _ next

section Methods

variable (zeros : ZerosAlike R) (harmless : b.Harmless unknown start)
  (mirrors : b.Mirrors unknown start x y)

include zeros harmless mirrors

theorem Mirrors.valueIteration :
    Attempt.Agree (b.SolutionsMirror unknown start)
      (b.valueIteration unknown x) (b.pruned.valueIteration unknown y) := by
  unfold Bellman.valueIteration
  rw [mirrors.size, mirrors.attained.size, harmless.ready]
  apply Attempt.Agree.require_bind
  have abreast : Run.Abreast (b.BuffersMirror unknown start)
      (Run.start (b.stepSweep unknown.toList) b.options.tolerance
        b.options.maxIterations (.ofValues x))
      (Run.start (b.pruned.stepSweep unknown.toList) b.options.tolerance
        b.options.maxIterations (.ofValues y)) := by
    apply Run.Abreast.start
    · exact fun _ _ same => same.stepSweep zeros harmless
    · exact ⟨b.aligned_ofValues unknown x, b.pruned.aligned_ofValues unknown y,
        mirrors⟩
  exact agree_conclude _ abreast abreast.value.current

theorem Mirrors.gaussSeidel :
    Attempt.Agree (b.SolutionsMirror unknown start)
      (b.gaussSeidel unknown x) (b.pruned.gaussSeidel unknown y) := by
  unfold Bellman.gaussSeidel
  rw [mirrors.size, mirrors.attained.size, harmless.ready]
  apply Attempt.Agree.require_bind
  have abreast : Run.Abreast (b.Mirrors unknown start)
      (Run.start (b.inPlaceSweep unknown.toList) b.options.tolerance
        b.options.maxIterations x)
      (Run.start (b.pruned.inPlaceSweep unknown.toList) b.options.tolerance
        b.options.maxIterations y) := by
    apply Run.Abreast.start
    · exact fun _ _ same => same.inPlaceSweep zeros harmless
    · exact mirrors
  exact agree_conclude _ abreast abreast.value

/-! ## Policies -/

theorem Mirrors.evaluate (policy : Array Nat) (limit : Nat) :
    Attempt.Agree (Run.Abreast (b.Mirrors unknown start))
      (b.evaluate policy unknown limit x)
      (b.pruned.evaluate policy unknown limit y) := by
  unfold Bellman.evaluate
  rw [mirrors.size, mirrors.attained.size, harmless.policyReady]
  cases guarded : decide (limit = 0) || b.policyReady policy unknown start.size with
  | false => exact .failed .breach
  | true =>
      apply Attempt.Agree.done
      rw [Bool.or_eq_true, decide_eq_true_eq] at guarded
      rcases guarded with rfl | ready
      · exact ⟨mirrors, rfl, rfl, rfl⟩
      · apply Run.Abreast.start
        · intro _ _ same
          apply same.policySweep zeros harmless
          intro state writes
          have here := List.all_eq_true.mp ready state
            (BitSet.mem_toList.mpr writes.1)
          exact (lt_of_policyReadyAt here writes.2).2
        · exact mirrors

theorem Mirrors.policyValues (method : Method) (policy : Array Nat) :
    Attempt.Agree (b.Mirrors unknown start)
      (b.policyValues method policy unknown x)
      (b.pruned.policyValues method policy unknown y) := by
  apply (mirrors.evaluate zeros harmless policy _).bind
  intro run other abreast
  apply (agree_conclude method abreast abreast.value).bind
  intro solution solution' same
  exact .done same.1

theorem Mirrors.improveAt (member : unknown.contains state = true)
    (i : Improvement R) :
    b.improveAt x i state = b.pruned.improveAt y i state := by
  have best := mirrors.best zeros harmless member
  have current := mirrors.choiceValue zeros harmless member
    (i.policy.getD state 0)
  unfold Bellman.improveAt
  generalize b.best state x = left at best ⊢
  generalize b.pruned.best state y = right at best ⊢
  cases best with
  | none => rfl
  | some alike =>
      rename_i found other
      obtain ⟨value, choice⟩ := found
      obtain ⟨value', choice'⟩ := other
      obtain ⟨same, rfl⟩ := alike
      rw [direction_pruned, options_pruned]
      cases b.direction state with
      | none => rfl
      | some direction =>
          dsimp only
          rw [zeros.better direction same current,
            zeros.gap _ (mirrors.alike state) same]

theorem Mirrors.improve (policy : Array Nat) :
    b.improve policy unknown x = b.pruned.improve policy unknown y := by
  apply List.foldl_ext
  intro i state listed
  exact mirrors.improveAt zeros harmless (BitSet.mem_toList.mp listed) i

theorem Mirrors.improveUntilStable (sweeps : Option Nat) (method : Method)
    (rounds : Nat) (policy : Array Nat) (iterations : Nat) (lastDelta : R) :
    Attempt.Agree (b.SolutionsMirror unknown start)
      (b.improveUntilStable unknown sweeps method rounds policy x iterations
        lastDelta)
      (b.pruned.improveUntilStable unknown sweeps method rounds policy y
        iterations lastDelta) := by
  induction rounds generalizing x y policy iterations lastDelta with
  | zero => exact .failed _
  | succ rounds ih =>
      rw [Bellman.improveUntilStable, Bellman.improveUntilStable]
      apply (mirrors.evaluate zeros harmless policy _).bind
      intro run other abreast
      rw [abreast.settled, abreast.sweeps, abreast.lastDelta]
      split
      · exact .failed _
      · rw [mirrors.size, mirrors.attained.size, harmless.improveReady]
        apply Attempt.Agree.require_bind
        dsimp only
        rw [abreast.value.improve zeros harmless, options_pruned]
        split
        · exact .done ⟨abreast.value, rfl⟩
        · exact ih abreast.value _ _ _

end Methods

/-- With a policy to start from, every method comes to the same outcome. -/
theorem Harmless.solve (zeros : ZerosAlike R)
    (harmless : b.Harmless unknown start) (policy : Array Nat) :
    Attempt.Agree (b.SolutionsMirror unknown start)
      (b.solve unknown start (some policy))
      (b.pruned.solve unknown start (some policy)) := by
  have mirrors := b.mirrors_start unknown start
  unfold Bellman.solve
  rw [options_pruned]
  cases b.options.method with
  | valueIteration =>
      apply (mirrors.policyValues zeros harmless _ policy).bind
      exact fun _ _ same => same.valueIteration zeros harmless
  | gaussSeidel =>
      apply (mirrors.policyValues zeros harmless _ policy).bind
      exact fun _ _ same => same.gaussSeidel zeros harmless
  | policyIteration =>
      exact mirrors.improveUntilStable zeros harmless _ _ _ policy _ _
  | modifiedPolicyIteration =>
      exact mirrors.improveUntilStable zeros harmless _ _ _ policy _ _

end Bellman

/-! ## Expected rewards -/

namespace Solver

/-- The states that reach the target even if the objective is turned round. -/
def sureStates (s : Solver R) (target : BitSet) : BitSet :=
  (s.table.oneSet (s.directions.map (·.map Direction.flip)) (.full s.numStates)
    target).states

/-- The rewards to start from: infinite where the target can be missed. -/
def rewardStart (s : Solver R) (target : BitSet) : Array R :=
  ((List.range s.numStates).map fun state =>
    if ((s.sureStates target).complement s.numStates).contains state then
      Scalar.infinity
    else 0).toArray

/-- No transition of weight zero leads from a state with an equation to one
whose reward can become infinite, or to none at all. -/
def HarmlessZeros (s : Solver R) (rewards : StepRewards R) (target : BitSet) :
    Prop :=
  (s.bellman (some rewards)).Harmless (s.sureStates target \ target)
    (s.rewardStart target)

variable {s : Solver R} {rewards : StepRewards R} {target : BitSet}

/-- Both queries give up in the same way, or give rewards that mirror each
other. -/
theorem HarmlessZeros.reachReward (zeros : ZerosAlike R)
    (harmless : s.HarmlessZeros rewards target) :
    Attempt.Agree (fun computed other =>
        (s.bellman (some rewards)).Mirrors (s.sureStates target \ target)
          (s.rewardStart target) computed.values other.values ∧
        computed.stats = other.stats ∧ computed.strategy = other.strategy)
      (s.reachReward rewards target) (s.pruned.reachReward rewards target) := by
  have states : s.pruned.numStates = s.numStates := s.table.numStates_pruned
  have analysed : Attempt.Agree (fun found other => found = other ∧
        found = s.table.oneSet (s.directions.map (·.map Direction.flip))
          (.full s.numStates) target)
      (s.table.checkedOneSet (ε := CheckError R)
        (s.directions.map (·.map Direction.flip)) (.full s.numStates) target)
      (s.table.checkedOneSet (s.directions.map (·.map Direction.flip))
        (.full s.numStates) target) :=
    .require_bind _ (.done ⟨rfl, rfl⟩)
  unfold Solver.reachReward
  change Attempt.Agree _ _ (s.table.pruned.checkedOneSet _ _ _ >>= _)
  rw [Table.checkedOneSet_pruned zeros, states]
  apply analysed.bind
  rintro sure _ ⟨rfl, rfl⟩
  dsimp only
  split
  · exact .done ⟨Bellman.mirrors_start _ _ _, rfl, rfl⟩
  · have solved := (Bellman.Harmless.solve zeros harmless
      (s.table.oneSet (s.directions.map (·.map Direction.flip))
        (.full s.numStates) target).witness).mapCause
      (CheckError.nonConvergence (R := R))
    apply solved.bind
    rintro solution other ⟨mirrors, stats⟩
    refine .done ⟨mirrors, ?_, rfl⟩
    dsimp only
    rw [stats]

/-- **Transitions of weight zero do not count, as long as they lead to finite
values.**  For every method and all directions the expected rewards are found
with and without them in the same number of iterations, or not found in the same
way, and the rewards are equal as numbers.  A state of which only finite values
come up has a finite reward. -/
theorem reachReward_pruned {solver : Solver Float}
    {rewards : StepRewards Float} {target : BitSet}
    (harmless : solver.HarmlessZeros rewards target) :
    Attempt.Agree (fun computed other =>
        computed.values.size = other.values.size ∧
        (∀ state, Alike (computed.values.getD state 0)
          (other.values.getD state 0)) ∧
        computed.stats = other.stats ∧ computed.strategy = other.strategy)
      (solver.reachReward rewards target)
      (solver.pruned.reachReward rewards target) ∧
    ∀ computed, solver.reachReward rewards target = .ok computed →
      ∀ state, state < solver.numStates →
        (∀ value, (solver.pruned.bellman (some rewards)).Attained
            (solver.sureStates target \ target) (solver.rewardStart target)
            state value → Scalar.isFinite value = true) →
        Scalar.isFinite (computed.values.getD state 0) = true := by
  have agree := harmless.reachReward zerosAlike_float
  generalize solver.reachReward rewards target = left at agree ⊢
  generalize solver.pruned.reachReward rewards target = right at agree ⊢
  cases agree with
  | failed failure => exact ⟨.failed failure, by simp⟩
  | done same =>
      obtain ⟨mirrors, stats, strategy⟩ := same
      refine ⟨.done ⟨mirrors.sizes, mirrors.alike, stats, strategy⟩, ?_⟩
      intro computed isComputed state inside finite
      cases isComputed
      have present : state < (solver.rewardStart target).size := by
        simpa [rewardStart] using inside
      rw [zerosAlike_float.isFinite (mirrors.alike state)]
      exact finite _ (mirrors.attained.getD present 0)

/-- A patient who is seen twice, or at once at a higher price.  Nobody leaves
the desk for the exit without being seen, and nobody goes back to it. -/
def clinic : Solver Float where
  table := ⟨#[[[(1, 1), (2, 0)], [(2, 1)]], [[(2, 1), (0, 0)]], [[(2, 1)]],
    [[(3, 1)]]]⟩
  directions := #[some .min, some .min, some .min, some .min]
  options := ⟨true, .relative, 0.000001, 100, .policyIteration, 20, false⟩

/-- The prices of the clinic. -/
def clinicPrices : StepRewards Float := #[[1, 5], [2], [0], [0]]

/-- The values that come up at the clinic. -/
def ClinicValue : Nat → Float → Prop :=
  (clinic.pruned.bellman (some clinicPrices)).Attained
    (clinic.sureStates (.ofList [2]) \ .ofList [2])
    (clinic.rewardStart (.ofList [2]))

theorem clinic_unknown {state : Nat}
    (member : (clinic.sureStates (.ofList [2]) \ .ofList [2]).contains state =
      true) : state = 0 ∨ state = 1 := by
  have listed := BitSet.mem_toList.mpr member
  have states : (clinic.sureStates (.ofList [2]) \ .ofList [2]).toList = [0, 1] := by
    decide +kernel
  simpa [states] using listed

theorem clinicValue_exit {value : Float} (attained : ClinicValue 2 value) :
    value = 0 := by
  have present := Bellman.Attained.of_not_writes attained fun writes => by
    rcases clinic_unknown writes.1 with impossible | impossible
    · cases impossible
    · cases impossible
  have start : (clinic.rewardStart (.ofList [2]))[2]? = some 0 := by
    decide +kernel
  exact Option.some.inj (present.symm.trans start)

theorem clinicValue_second {value : Float} (attained : ClinicValue 1 value) :
    value = 0 ∨ value = 2 := by
  cases attained with
  | start present =>
      have start : (clinic.rewardStart (.ofList [2]))[1]? = some 0 := by
        decide +kernel
      exact .inl (Option.some.inj (present.symm.trans start))
  | @choice y _ choice size each writes valid =>
      have branches : (clinic.pruned.bellman (some clinicPrices)).table.branches
          1 = [[(2, 1)]] := by decide +kernel
      have exit : y.getD 2 0 = 0 :=
        clinicValue_exit (Throughout.getD ⟨size, each⟩ (by decide +kernel) 0)
      rw [branches] at valid
      obtain rfl : choice = 0 := Nat.lt_one_iff.mp valid
      right
      rw [Bellman.choiceValue, branches]
      change 2 + (Scalar.emptySum + 1 * y.getD 2 0) = 2
      rw [exit]
      decide +kernel

theorem isFinite_clinicValue_first {value : Float}
    (attained : ClinicValue 0 value) : Scalar.isFinite value = true := by
  cases attained with
  | start present =>
      have start : (clinic.rewardStart (.ofList [2]))[0]? = some 0 := by
        decide +kernel
      rw [← Option.some.inj (start.symm.trans present)]
      decide +kernel
  | @choice y _ choice size each writes valid =>
      have branches : (clinic.pruned.bellman (some clinicPrices)).table.branches
          0 = [[(1, 1)], [(2, 1)]] := by decide +kernel
      have exit : y.getD 2 0 = 0 :=
        clinicValue_exit (Throughout.getD ⟨size, each⟩ (by decide +kernel) 0)
      have second : y.getD 1 0 = 0 ∨ y.getD 1 0 = 2 :=
        clinicValue_second (Throughout.getD ⟨size, each⟩ (by decide +kernel) 0)
      rw [branches] at valid
      rw [Bellman.choiceValue, branches]
      have either : choice = 0 ∨ choice = 1 := by
        change choice < 2 at valid
        omega
      rcases either with rfl | rfl
      · change Scalar.isFinite
          ((1 : Float) + (Scalar.emptySum + 1 * y.getD 1 0)) = true
        rcases second with same | same
        · rw [same]
          decide +kernel
        · rw [same]
          decide +kernel
      · change Scalar.isFinite
          ((5 : Float) + (Scalar.emptySum + 1 * y.getD 2 0)) = true
        rw [exit]
        decide +kernel

theorem harmlessZeros_clinic : clinic.HarmlessZeros clinicPrices (.ofList [2]) := by
  have zeros : ∀ state,
      (clinic.sureStates (.ofList [2]) \ .ofList [2]).contains state = true →
      ∀ branch ∈ (clinic.bellman (some clinicPrices)).table.branches state,
        ∀ entry ∈ branch, (entry.2 == 0) = true → entry.1 = 0 ∨ entry.1 = 2 := by
    intro state member
    rcases clinic_unknown member with rfl | rfl
    · decide +kernel
    · decide +kernel
  constructor
  · intro state member branch listed entry isEntry vanishes
    rcases zeros state member branch listed entry isEntry vanishes with
      same | same
    · rw [same]
      decide +kernel
    · rw [same]
      decide +kernel
  · intro state member branch listed entry isEntry vanishes value attained
    rcases zeros state member branch listed entry isEntry vanishes with
      same | same
    · rw [same] at attained
      exact isFinite_clinicValue_first attained
    · rw [same] at attained
      rw [clinicValue_exit attained]
      decide +kernel

/-- The clinic lists a way to the exit and one back to the desk that nobody
takes.  Its prices are those of a clinic that does not list them. -/
theorem clinic_pruned :
    clinic.HarmlessZeros clinicPrices (.ofList [2]) ∧
    ∃ computed other,
      clinic.reachReward clinicPrices (.ofList [2]) = .ok computed ∧
      clinic.pruned.reachReward clinicPrices (.ofList [2]) = .ok other ∧
      other.values = #[3, 2, 0, Scalar.infinity] ∧
      (∀ state, Alike (computed.values.getD state 0)
        (other.values.getD state 0)) ∧
      computed.stats = other.stats ∧
      Scalar.isFinite (computed.values.getD 0 0) = true := by
  refine ⟨harmlessZeros_clinic, ?_⟩
  have run : ((clinic.pruned.reachReward clinicPrices (.ofList [2])).toOption.map
      fun other => other.values) = some #[3, 2, 0, Scalar.infinity] := by
    decide +kernel
  obtain ⟨other, found, values⟩ := Attempt.map_toOption_eq_some.mp run
  obtain ⟨agree, finite⟩ := reachReward_pruned harmlessZeros_clinic
  rw [found] at agree
  generalize outcome : clinic.reachReward clinicPrices (.ofList [2]) = left
    at agree finite ⊢
  cases agree with
  | done same =>
      rename_i computed
      exact ⟨computed, other, rfl, found, values, same.2.1, same.2.2.1,
        finite computed rfl 0 (by decide) fun _ =>
          isFinite_clinicValue_first⟩

/-- A path with a closed gate, behind which there is a dead end. -/
def closedGate : Solver Float where
  table := ⟨#[[[(1, 1), (2, 0)]], [[(1, 1)]], [[(2, 1)]]]⟩
  directions := #[none, none, none]
  options := ⟨true, .relative, 0.000001, 100, .valueIteration, 20, false⟩

/-- Everybody arrives, and yet the gate spoils the cost: a product of zero and
infinity is not a number. -/
theorem closedGate_spoils :
    (closedGate.sureStates (.ofList [1])).contains 0 = true ∧
    ∃ computed other,
      closedGate.reachReward #[[1], [0], [0]] (.ofList [1]) = .ok computed ∧
      closedGate.pruned.reachReward #[[1], [0], [0]] (.ofList [1]) =
        .ok other ∧
      (computed.values.getD 0 0).isNaN = true ∧
      other.values = #[1, 0, Scalar.infinity] ∧
      ¬Alike (computed.values.getD 0 0) (other.values.getD 0 0) := by
  refine ⟨by decide +kernel, ?_⟩
  have spoilt : ((closedGate.reachReward #[[1], [0], [0]]
      (.ofList [1])).toOption.map fun computed => computed.values) =
        some #[0 * Scalar.infinity, 0, Scalar.infinity] := by decide +kernel
  have fine : ((closedGate.pruned.reachReward #[[1], [0], [0]]
      (.ofList [1])).toOption.map fun other => other.values) =
        some #[1, 0, Scalar.infinity] := by decide +kernel
  obtain ⟨computed, found, values⟩ := Attempt.map_toOption_eq_some.mp spoilt
  obtain ⟨other, alsoFound, otherValues⟩ :=
    Attempt.map_toOption_eq_some.mp fine
  refine ⟨computed, other, found, alsoFound, ?_, otherValues, ?_⟩
  · rw [values]
    decide +kernel
  · rw [values, otherValues]
    rintro (same | ⟨zero, -⟩)
    · exact absurd same (by decide +kernel)
    · exact absurd zero (by decide +kernel)

end Solver

end Markov
