import Markov.Proofs.Decided
import Markov.Proofs.Magnitude

/-!
# Values of impossible events

A state of the zero set has no way to `right` that its player would take.  Its
value is zero whenever the graph analysis is used, and it stays at zero when an
iteration picks best choices: a minimising state of the zero set has a choice
that stays in the zero set, and any other one has nothing else.

The argument needs little from the arithmetic, and `Table.Sustains` says what.
Exact arithmetic has it for all weights that are not negative.  In floating
point a value may become infinite, and infinity times a weight of zero is no
number; this cannot happen if no weight is zero or no total is above one.

A method that evaluates a policy does not look for that choice.  It may take a
minimising state to `right`, and once the evaluation has settled, the choice
that stays away looks no better.  `hideout` is a model where this happens.
-/

namespace Markov

/-- The choices of a table lead from values with a property to such values, and
from values of zero to zero.  No such value is below zero. -/
structure Table.Sustains {R : Type} [Scalar R] (t : Table R) (valid : R → Prop) :
    Prop where
  zero : valid 0
  one : valid 1
  sign : ∀ {value}, valid value → value = 0 ∨ 0 < value
  least : ∀ {value}, valid value → ¬value < 0
  dot : ∀ {state branch x}, branch ∈ t.branches state →
    (∀ target, valid (x.getD target 0)) → valid (0 + branch.dot x)
  vanishes : ∀ {state branch x}, branch ∈ t.branches state →
    (∀ target, valid (x.getD target 0)) →
    (∀ target ∈ branch.support, x.getD target 0 = 0) → 0 + branch.dot x = 0

namespace Solver

variable {R : Type} [Scalar R] {valid : R → Prop}

/-- The value of a state is a valid one, and zero outside `reach`. -/
def ZeroOutside (valid : R → Prop) (reach : BitSet) (state : Nat) (value : R) :
    Prop :=
  valid value ∧ (reach.contains state = false → value = 0)

section Choices

variable {solver : Solver R} {reach : BitSet} {size : Nat} {x : Array R}

theorem zeroOutside_getD (sustains : solver.table.Sustains valid)
    (throughout : Throughout (ZeroOutside valid reach) size x) (state : Nat) :
    ZeroOutside valid reach state (x.getD state 0) := by
  rw [Array.getD_eq_getD_getElem?]
  cases present : x[state]? with
  | none => exact ⟨sustains.zero, fun _ => rfl⟩
  | some value => exact throughout.each state value present

theorem choiceValue_eq_dot {state choice : Nat}
    (inside : choice < (solver.table.branches state).length) (x : Array R) :
    (solver.bellman none).choiceValue state choice x =
      0 + (solver.table.branches state)[choice].dot x := by
  unfold Bellman.choiceValue Bellman.branchValue
  change 0 + ((solver.table.branches state).getD choice []).dot x = _
  simp [inside]

theorem valid_choiceValue (sustains : solver.table.Sustains valid)
    (throughout : Throughout (ZeroOutside valid reach) size x)
    {state choice : Nat} (inside : choice < (solver.table.branches state).length) :
    valid ((solver.bellman none).choiceValue state choice x) := by
  rw [choiceValue_eq_dot inside]
  exact sustains.dot (List.getElem_mem inside)
    fun target => (zeroOutside_getD sustains throughout target).1

theorem dot_eq_zero (sustains : solver.table.Sustains valid)
    (throughout : Throughout (ZeroOutside valid reach) size x) {state : Nat}
    {branch : Branch R} (member : branch ∈ solver.table.branches state)
    (misses : branch.support.any reach.contains = false) :
    0 + branch.dot x = 0 := by
  apply sustains.vanishes member
  · exact fun target => (zeroOutside_getD sustains throughout target).1
  · intro target supported
    apply (zeroOutside_getD sustains throughout target).2
    simpa using List.any_eq_false.mp misses target supported

/-- The least of valid values is zero if one of them is. -/
private theorem scan_min_eq_zero (sustains : solver.table.Sustains valid)
    {state : Nat} (index : Nat) (best : R × Nat) (rest : List (Branch R))
    (values : ∀ branch ∈ rest, valid (0 + branch.dot x)) (current : valid best.1)
    (found : best.1 = 0 ∨ ∃ branch ∈ rest, 0 + branch.dot x = 0) :
    ((solver.bellman none).scan .min state x index best rest).1 = 0 := by
  induction rest generalizing index best with
  | nil => exact found.resolve_right (by simp)
  | cons branch rest ih =>
      have kept : best.1 = 0 → ¬0 + branch.dot x < best.1 := by
        intro zero
        rw [zero]
        exact sustains.least (values branch List.mem_cons_self)
      have others : ∀ other ∈ rest, valid (0 + other.dot x) := fun other member =>
        values other (List.mem_cons_of_mem _ member)
      change ((solver.bellman none).scan .min state x (index + 1)
        (if decide (0 + branch.dot x < best.1) = true then
          (0 + branch.dot x, index) else best) rest).1 = 0
      simp only [decide_eq_true_eq]
      split
      · rename_i less
        refine ih _ _ others (values branch List.mem_cons_self) ?_
        rcases found with zero | ⟨other, member, vanishes⟩
        · exact absurd less (kept zero)
        · rcases List.mem_cons.mp member with rfl | later
          · exact .inl vanishes
          · exact .inr ⟨other, later, vanishes⟩
      · rename_i notLess
        refine ih _ _ others current ?_
        rcases found with zero | ⟨other, member, vanishes⟩
        · exact .inl zero
        · rcases List.mem_cons.mp member with rfl | later
          · rw [vanishes] at notLess
            exact .inl ((sustains.sign current).resolve_right notLess)
          · exact .inr ⟨other, later, vanishes⟩

theorem bestValue_eq_zero (sustains : solver.table.Sustains valid)
    (throughout : Throughout (ZeroOutside valid reach) size x) {state : Nat}
    (minimises : (solver.bellman none).direction state = some .min)
    {branch : Branch R} (member : branch ∈ solver.table.branches state)
    (misses : branch.support.any reach.contains = false) (old : R) :
    (solver.bellman none).bestValue state x old = 0 := by
  have values : ∀ other ∈ solver.table.branches state,
      valid (0 + other.dot x) := fun other otherMember =>
    sustains.dot otherMember
      fun target => (zeroOutside_getD sustains throughout target).1
  have vanishes := dot_eq_zero sustains throughout member misses
  unfold Bellman.bestValue Bellman.best
  cases branches : (solver.bellman none).table.branches state with
  | nil =>
      have none : solver.table.branches state = [] := branches
      simp [none] at member
  | cons first rest =>
      have listed : solver.table.branches state = first :: rest := branches
      rw [listed] at member values
      simp only [minimises]
      apply scan_min_eq_zero sustains
      · exact fun other later => values other (List.mem_cons_of_mem _ later)
      · exact values first List.mem_cons_self
      · rcases List.mem_cons.mp member with rfl | later
        · exact .inl vanishes
        · exact .inr ⟨branch, later, vanishes⟩

end Choices

/-! ## What is kept at zero -/

section Kept

variable {solver : Solver R} {left reach unknown : BitSet} {size : Nat}

private theorem qualifies_eq_false
    (closed : Closed (solver.table.leadsInto solver.directions left)
      solver.table.numStates reach)
    (within : ∀ state, unknown.contains state = true →
      left.contains state = true)
    {state : Nat} (writes : (solver.bellman none).Writes unknown state)
    (outside : reach.contains state = false) :
    Table.qualifies (solver.table.branches state)
      (solver.directions.getD state none)
      (fun branch => branch.support.any reach.contains) = false := by
  by_contra qualifies
  have leads : solver.table.leadsInto solver.directions left reach state =
      true := by
    rw [Table.leadsInto, within state writes.1, Bool.true_and]
    simpa using qualifies
  have present := closed state writes.lt_numStates leads
  simp [outside] at present

private theorem misses_of_existential {state : Nat}
    (fails : Table.qualifies (solver.table.branches state)
      (solver.directions.getD state none)
      (fun branch => branch.support.any reach.contains) = false)
    (existential :
      Table.isExistential (solver.directions.getD state none) = true)
    {branch : Branch R} (member : branch ∈ solver.table.branches state) :
    branch.support.any reach.contains = false := by
  rw [Table.qualifies, if_pos existential, List.any_eq_false] at fails
  simpa using fails branch member

/-- Without a minimiser every choice keeps the values outside a closed set at
zero. -/
theorem choicesKeep_zeroOutside (sustains : solver.table.Sustains valid)
    (closed : Closed (solver.table.leadsInto solver.directions left)
      solver.table.numStates reach)
    (within : ∀ state, unknown.contains state = true →
      left.contains state = true)
    (noMinimiser : ∀ entry ∈ solver.directions, entry ≠ some .min) :
    (solver.bellman none).ChoicesKeep unknown size (ZeroOutside valid reach) := by
  intro x throughout state choice writes inside
  refine ⟨valid_choiceValue sustains throughout inside, ?_⟩
  intro outside
  have fails := qualifies_eq_false closed within writes outside
  rw [choiceValue_eq_dot inside]
  apply dot_eq_zero sustains throughout (List.getElem_mem inside)
  apply misses_of_existential fails _ (List.getElem_mem inside)
  simp only [Table.isExistential, bne_iff_ne]
  intro minimises
  rw [Array.getD_eq_getD_getElem?] at minimises
  cases present : solver.directions[state]? with
  | none => simp [present] at minimises
  | some entry =>
      rw [present, Option.getD_some] at minimises
      exact noMinimiser entry (Array.mem_of_getElem? present) minimises

/-- The best choices keep the values outside a closed set at zero. -/
theorem bestKeeps_zeroOutside (sustains : solver.table.Sustains valid)
    (closed : Closed (solver.table.leadsInto solver.directions left)
      solver.table.numStates reach)
    (within : ∀ state, unknown.contains state = true →
      left.contains state = true) :
    (solver.bellman none).BestKeeps unknown size (ZeroOutside valid reach) := by
  intro x throughout state writes
  have inside := Bellman.bestChoice_lt writes.2 x
  constructor
  · rw [Bellman.bestValue_eq_choiceValue writes.2]
    exact valid_choiceValue sustains throughout inside
  intro outside
  have fails := qualifies_eq_false closed within writes outside
  cases existential :
      Table.isExistential (solver.directions.getD state none) with
  | true =>
      have member := List.getElem_mem inside
      rw [Bellman.bestValue_eq_choiceValue writes.2]
      exact (choiceValue_eq_dot inside x).trans (dot_eq_zero sustains throughout
        member (misses_of_existential fails existential member))
  | false =>
      -- A minimising state has a choice that misses the set.
      have branches : solver.table.branches state ≠ [] := writes.2
      have notEmpty : (solver.table.branches state).isEmpty = false := by
        simpa using branches
      simp only [Table.qualifies, existential, Bool.false_eq_true, if_false,
        notEmpty, Bool.not_false, Bool.true_and, List.all_eq_false] at fails
      obtain ⟨branch, member, misses⟩ := fails
      have minimises : (solver.bellman none).direction state = some .min := by
        change solver.directions.getD state none = some .min
        simpa [Table.isExistential] using existential
      exact bestValue_eq_zero sustains throughout minimises member
        (by simpa using misses) 0

end Kept

/-! ## Results -/

section Values

variable {solver : Solver R} {left right : BitSet} {computed : Computed R}
  {state : Nat}

/-- What the graph analysis finds impossible has the value zero. -/
theorem holdsUntil_eq_zero_of_graph
    (analysed : solver.options.precomputation = true)
    (found : solver.holdsUntil left right = .ok computed)
    (zero : (solver.table.zeroSet solver.directions left right).contains state =
      true) : computed.values[state]? = some 0 := by
  obtain ⟨no, yes, decided, -⟩ := holdsUntil_eq_ok found
  have kept := (getElem?_holdsUntil_of_decided decided found).2 state
  obtain ⟨rfl, rfl⟩ := decided_eq_ok_of_graph analysed decided
  obtain ⟨reach, -, -, member⟩ :=
    solver.table.zeroSet_spec solver.directions left right
  have inside : state < solver.numStates := ((member state).mp zero).1
  rw [kept (.inl zero), getElem?_indicator _ inside,
    Table.contains_oneSet_of_zeroSet zero]
  rfl

/-- The values of a plain query are zero outside a closed set around `right`, if
the method keeps them there. -/
theorem zeroOutside_holdsUntil (sustains : solver.table.Sustains valid)
    (plain : solver.options.precomputation = false)
    (keeps : solver.options.method.isIterative = true ∨
      ∀ entry ∈ solver.directions, entry ≠ some .min)
    (found : solver.holdsUntil left right = .ok computed) {reach : BitSet}
    (around : ∀ state, right.contains state = true →
      reach.contains state = true)
    (closed : Closed (solver.table.leadsInto solver.directions left)
      solver.table.numStates reach) :
    Throughout (ZeroOutside valid reach) solver.numStates computed.values := by
  obtain ⟨no, yes, decided, -, -, values⟩ := holdsUntil_eq_ok found
  obtain ⟨rfl, rfl⟩ := decided_eq_ok_of_plain plain decided
  have start : Throughout (ZeroOutside valid reach) solver.numStates
      (indicator yes solver.numStates) := by
    refine ⟨by simp [indicator], ?_⟩
    intro state value present
    have inside : state < solver.numStates := by
      simpa [indicator] using (Array.getElem?_eq_some_iff.mp present).1
    rw [getElem?_indicator yes inside, Option.some.injEq] at present
    subst present
    split
    · rename_i inRight
      refine ⟨sustains.one, fun outside => ?_⟩
      simp [around state inRight] at outside
    · exact ⟨sustains.zero, fun _ => rfl⟩
  have within : ∀ state,
      (((left ∪ yes).complement solver.numStates ∪ yes).complement
        solver.numStates).contains state = true →
      left.contains state = true := by
    intro state member
    simp only [BitSet.contains_complement, BitSet.contains_union, Bool.not_or,
      Bool.not_and, Bool.not_not, Bool.and_eq_true, decide_eq_true_eq,
      Bool.or_eq_true, Bool.not_eq_eq_eq_not, Bool.not_true,
      decide_eq_false_iff_not, not_lt] at member
    obtain ⟨inside, outside | inLeft | inRight, notRight⟩ := member
    · omega
    · exact inLeft
    · simp [inRight] at notRight
  rcases values with same | ⟨solution, solved, same⟩
  · rwa [same]
  · rw [same]
    rcases keeps with iterative | noMinimiser
    · exact Bellman.solve_throughout_of_best
        (bestKeeps_zeroOutside sustains closed within) iterative start solved
    · exact Bellman.solve_throughout
        (choicesKeep_zeroOutside sustains closed within noMinimiser) start solved

/-- A state of the zero set has the value zero: with the graph analysis always,
and without it if the values are iterated or no state minimises. -/
theorem holdsUntil_eq_zero (sustains : solver.table.Sustains valid)
    (keeps : solver.options.precomputation = true ∨
      solver.options.method.isIterative = true ∨
      ∀ entry ∈ solver.directions, entry ≠ some .min)
    (found : solver.holdsUntil left right = .ok computed)
    (zero : (solver.table.zeroSet solver.directions left right).contains state =
      true) : computed.values[state]? = some 0 := by
  cases plain : solver.options.precomputation with
  | true => exact holdsUntil_eq_zero_of_graph plain found zero
  | false =>
      obtain ⟨reach, around, closed, member⟩ :=
        solver.table.zeroSet_spec solver.directions left right
      obtain ⟨inside, outside⟩ := (member state).mp zero
      have values := zeroOutside_holdsUntil sustains plain
        (keeps.resolve_left (by simp [plain])) found around closed
      have present : state < computed.values.size := values.size.symm ▸ inside
      rw [Array.getElem?_eq_getElem present, Option.some.injEq]
      exact (values.each state _ (Array.getElem?_eq_getElem present)).2 outside

end Values

end Solver

/-! ## Exact arithmetic -/

theorem Table.NonNegative.sustains {t : Table ℚ} (weights : t.NonNegative) :
    t.Sustains (0 ≤ ·) where
  zero := le_rfl
  one := zero_le_one
  sign nonneg := nonneg.eq_or_lt.imp_left Eq.symm
  least := not_lt.mpr
  dot {state branch x} member values := by
    rw [zero_add, Branch.dot_eq_expect]
    exact Branch.expect_nonneg (weights.branch member) fun entry _ _ =>
      values entry.1
  vanishes {state branch x} member values zeros := by
    rw [zero_add, Branch.dot_eq_expect]
    apply le_antisymm
    · calc
        branch.expect (x.getD · 0) ≤ branch.expect fun _ => 0 := by
          apply Branch.expect_mono (weights.branch member)
          intro entry entryMember positive
          exact (zeros entry.1
            (mem_support.mpr ⟨entry.2, entryMember, positive⟩)).le
        _ = 0 := by rw [Branch.expect_const, mul_zero]
    · exact Branch.expect_nonneg (weights.branch member) fun entry _ _ =>
        values entry.1

theorem Solver.holdsUntil_eq_zero_of_nonNegative {solver : Solver ℚ}
    {left right : BitSet} {computed : Computed ℚ} {state : Nat}
    (weights : solver.table.NonNegative)
    (keeps : solver.options.precomputation = true ∨
      solver.options.method.isIterative = true ∨
      ∀ entry ∈ solver.directions, entry ≠ some .min)
    (found : solver.holdsUntil left right = .ok computed)
    (zero : (solver.table.zeroSet solver.directions left right).contains state =
      true) : computed.values[state]? = some 0 :=
  holdsUntil_eq_zero weights.sustains keeps found zero

/-! ## Floating point -/

namespace Branch

open Binary64

variable {branch : Branch Float} {x : Array Float}

/-- No weight is zero, negative or infinite. -/
def Positive (branch : Branch Float) : Prop :=
  ∀ entry ∈ branch, 0 < entry.2 ∧ Scalar.isFinite entry.2 = true

/-- No weight is negative, and their sum as it is added up is at most one. -/
def IsSubDistribution (branch : Branch Float) : Prop :=
  (∀ entry ∈ branch, 0 ≤ entry.2) ∧ branch.total ≤ 1

instance (branch : Branch Float) : Decidable branch.Positive :=
  inferInstanceAs (Decidable (∀ entry ∈ branch, _ ∧ _))

instance (branch : Branch Float) : Decidable branch.IsSubDistribution :=
  inferInstanceAs (Decidable (_ ∧ _))

theorem total_eq_foldl (branch : Branch Float) :
    branch.total = branch.foldl (fun sum entry => sum + entry.2) (-0.0) := by
  rw [total, Scalar.sum, List.foldl_map]
  rfl

private theorem emptySum_nonneg : (0 : Float) ≤ -0.0 := by decide

theorem IsSubDistribution.isFinite_total (weights : branch.IsSubDistribution) :
    Scalar.isFinite branch.total = true := by
  refine isFinite_of_le ?_ weights.2 (by decide)
  rw [total_eq_foldl]
  exact foldl_nonneg emptySum_nonneg weights.1

theorem IsSubDistribution.isFinite (weights : branch.IsSubDistribution)
    {entry : Nat × Float} (member : entry ∈ branch) :
    Scalar.isFinite entry.2 = true := by
  have finite := weights.isFinite_total
  rw [total_eq_foldl] at finite
  exact (isFinite_of_foldl finite).2 entry member

theorem Positive.dot_nonneg (weights : branch.Positive)
    (values : ∀ target, 0 ≤ x.getD target 0) : 0 ≤ branch.dot x := by
  apply foldl_nonneg emptySum_nonneg
  intro entry member
  obtain ⟨positive, finite⟩ := weights entry member
  exact mul_nonneg (nonneg_of_sign (.inr positive)) (values entry.1) finite
    (.inl positive)

theorem IsSubDistribution.dot_bounds (weights : branch.IsSubDistribution)
    (values : ∀ target, 0 ≤ x.getD target 0 ∧ x.getD target 0 ≤ 1) :
    0 ≤ branch.dot x ∧ branch.dot x ≤ 1 := by
  have terms : ∀ entry ∈ branch, 0 ≤ entry.2 * x.getD entry.1 0 ∧
      entry.2 * x.getD entry.1 0 ≤ entry.2 ∧ 0 ≤ entry.2 := by
    intro entry member
    obtain ⟨nonneg, most⟩ := values entry.1
    have weight := weights.1 entry member
    have finite := weights.isFinite member
    exact ⟨mul_nonneg weight nonneg finite
      (.inr (isFinite_of_le nonneg most (by decide))),
      mul_le_self weight nonneg finite most, weight⟩
  have finite := weights.isFinite_total
  have most := weights.2
  rw [total_eq_foldl] at finite most
  have nonneg : 0 ≤ branch.dot x :=
    foldl_nonneg emptySum_nonneg fun entry member => (terms entry member).1
  have below : branch.dot x ≤
      branch.foldl (fun sum entry => sum + entry.2) (-0.0) :=
    foldl_le_foldl emptySum_nonneg (by decide) emptySum_nonneg terms finite
  have bound := foldl_nonneg emptySum_nonneg weights.1
  exact ⟨nonneg, le_trans nonneg below bound most (by decide) (by decide)⟩

theorem zero_add_dot_eq_zero
    (weights : ∀ entry ∈ branch, 0 ≤ entry.2 ∧ Scalar.isFinite entry.2 = true)
    (values : ∀ entry ∈ branch, 0 < entry.2 ∨
      0 ≤ x.getD entry.1 0 ∧ Scalar.isFinite (x.getD entry.1 0) = true)
    (zeros : ∀ target ∈ branch.support, x.getD target 0 = 0) :
    0 + branch.dot x = 0 := by
  have isZero : HasSize 0 0 := hasSize_of_zero rfl
  have terms : ∀ entry ∈ branch, HasSize (entry.2 * x.getD entry.1 0) 0 := by
    intro entry member
    obtain ⟨nonneg, finite⟩ := weights entry member
    obtain ⟨size, weight⟩ := exists_hasSize nonneg finite
    by_cases positive : 0 < entry.2
    · have vanishes := zeros entry.1
        (Table.mem_support.mpr ⟨entry.2, member, positive⟩)
      rw [vanishes]
      exact weight.mul_zero isZero (Nat.mul_zero _)
    · obtain ⟨valueNonneg, valueFinite⟩ := (values entry member).resolve_left positive
      obtain ⟨other, value⟩ := exists_hasSize valueNonneg valueFinite
      refine weight.mul_zero value ?_
      rw [isZero.lt_iff weight, Nat.not_lt, Nat.le_zero] at positive
      rw [positive, Nat.zero_mul]
  have sum : HasSize (branch.dot x) 0 :=
    hasSize_foldl_zero (hasSize_of_zero rfl) terms
  refine (zero_add_cases sum.nonneg).resolve_right ?_
  rintro ⟨-, positive⟩
  exact absurd ((isZero.lt_iff sum).mp positive) (Nat.lt_irrefl 0)

end Branch

namespace Table

open Binary64

variable {t : Table Float}

/-- Weights with which values stay numbers: all of them are positive, or no sum
of them is above one. -/
def Tame (t : Table Float) : Prop :=
  (∀ row ∈ t.rows, ∀ branch ∈ row, branch.Positive) ∨
    ∀ row ∈ t.rows, ∀ branch ∈ row, branch.IsSubDistribution

instance (t : Table Float) : Decidable t.Tame :=
  inferInstanceAs (Decidable (_ ∨ _))

theorem sustains_of_positive
    (weights : ∀ row ∈ t.rows, ∀ branch ∈ row, branch.Positive) :
    t.Sustains fun value => value = 0 ∨ 0 < value where
  zero := .inl rfl
  one := .inr (by decide)
  sign := id
  least sign := not_lt_zero (nonneg_of_sign sign)
  dot {state branch x} member values := by
    obtain ⟨row, rowMember, branchMember⟩ := mem_rows_of_mem_branches member
    have nonneg := (weights row rowMember branch branchMember).dot_nonneg
      fun target => nonneg_of_sign (values target)
    rcases zero_add_cases nonneg with zero | ⟨same, positive⟩
    · exact .inl zero
    · rw [same]
      exact .inr positive
  vanishes {state branch x} member values zeros := by
    obtain ⟨row, rowMember, branchMember⟩ := mem_rows_of_mem_branches member
    have positive := weights row rowMember branch branchMember
    apply Branch.zero_add_dot_eq_zero _ _ zeros
    · intro entry entryMember
      exact ⟨nonneg_of_sign (.inr (positive entry entryMember).1),
        (positive entry entryMember).2⟩
    · exact fun entry entryMember => .inl (positive entry entryMember).1

theorem sustains_of_subDistributions
    (weights : ∀ row ∈ t.rows, ∀ branch ∈ row, branch.IsSubDistribution) :
    t.Sustains fun value => (value = 0 ∨ 0 < value) ∧ value ≤ 1 where
  zero := ⟨.inl rfl, by decide⟩
  one := ⟨.inr (by decide), by decide⟩
  sign := And.left
  least inside := not_lt_zero (nonneg_of_sign inside.1)
  dot {state branch x} member values := by
    obtain ⟨row, rowMember, branchMember⟩ := mem_rows_of_mem_branches member
    have bounds := (weights row rowMember branch branchMember).dot_bounds
      fun target => ⟨nonneg_of_sign (values target).1, (values target).2⟩
    rcases zero_add_cases bounds.1 with zero | ⟨same, positive⟩
    · rw [zero]
      exact ⟨.inl rfl, by decide⟩
    · rw [same]
      exact ⟨.inr positive, bounds.2⟩
  vanishes {state branch x} member values zeros := by
    obtain ⟨row, rowMember, branchMember⟩ := mem_rows_of_mem_branches member
    have inside := weights row rowMember branch branchMember
    apply Branch.zero_add_dot_eq_zero _ _ zeros
    · exact fun entry entryMember =>
        ⟨inside.1 entry entryMember, inside.isFinite entryMember⟩
    · intro entry _
      have nonneg := nonneg_of_sign (values entry.1).1
      exact .inr ⟨nonneg, isFinite_of_le nonneg (values entry.1).2 (by decide)⟩

end Table

namespace Solver

/-- A state of the zero set has the value zero in floating point: with the graph
analysis always, and without it if the values are iterated or no state
minimises. -/
theorem holdsUntil_eq_zero_of_zeroSet {solver : Solver Float}
    {left right : BitSet} {computed : Computed Float} {state : Nat}
    (weights : solver.table.Tame)
    (keeps : solver.options.precomputation = true ∨
      solver.options.method.isIterative = true ∨
      ∀ entry ∈ solver.directions, entry ≠ some .min)
    (found : solver.holdsUntil left right = .ok computed)
    (zero : (solver.table.zeroSet solver.directions left right).contains state =
      true) : computed.values[state]? = some 0 := by
  rcases weights with positive | bounded
  · exact holdsUntil_eq_zero (Table.sustains_of_positive positive) keeps found zero
  · exact holdsUntil_eq_zero (Table.sustains_of_subDistributions bounded) keeps found
      zero

/-- A process in which the first state can leave for the goal by way of the
second one, and can stay. -/
def hideout (method : Method) : Solver Float where
  table := ⟨#[[[(1, 1)], [(0, 1)]], [[(2, 1)]], [[(2, 1)]]]⟩
  directions := #[some .min, some .min, some .min]
  options := ⟨false, .absolute, 0.001, 100, method, 20, false⟩

theorem hideout_gaussSeidel :
    (hideout .gaussSeidel).table.Tame ∧
      ((hideout .gaussSeidel).table.zeroSet (hideout .gaussSeidel).directions
        (.full 3) (.ofList [2])).contains 0 = true ∧
      ∃ computed,
        (hideout .gaussSeidel).holdsUntil (.full 3) (.ofList [2]) =
            .ok computed ∧
          computed.values[0]? = some 0 := by
  have tame : (hideout .gaussSeidel).table.Tame := by decide +kernel
  have zero : ((hideout .gaussSeidel).table.zeroSet
      (hideout .gaussSeidel).directions (.full 3) (.ofList [2])).contains 0 =
        true := by decide +kernel
  obtain ⟨computed, found, -⟩ := Attempt.map_toOption_eq_some.mp
    (show ((hideout .gaussSeidel).holdsUntil (.full 3)
        (.ofList [2])).toOption.map Computed.values = some #[0, 1, 1] by
      decide +kernel)
  exact ⟨tame, zero, computed, found, holdsUntil_eq_zero_of_zeroSet tame
    (.inr (.inl rfl)) found zero⟩

/-- Policy iteration leaves the hideout and stays outside. -/
theorem hideout_policyIteration :
    ((hideout .policyIteration).table.zeroSet
        (hideout .policyIteration).directions (.full 3) (.ofList [2])).contains
          0 = true ∧
      ((hideout .policyIteration).holdsUntil (.full 3)
        (.ofList [2])).toOption.map Computed.values = some #[1, 1, 1] ∧
      ((hideout .modifiedPolicyIteration).holdsUntil (.full 3)
        (.ofList [2])).toOption.map Computed.values = some #[1, 1, 1] := by
  refine ⟨by decide +kernel, by decide +kernel, by decide +kernel⟩

end Solver

end Markov
