import Markov.Proofs.Exact

/-!
# Probabilities made from rates

Uniformisation gives every choice the exit rate `q`.  What it makes of a choice
is a probability distribution, and `q` times its distance from staying put is
the generator of the choice: the rates of the targets, and the exit rate taken
away from the state itself.  The jumps alone are a distribution as well, in
proportion to the rates.

Both are seen from what a branch is worth, for all values of its successors at
once (`expect_uniformised`, `expect_embedded`): the total weight is the case of
the values one, and the weight of a target the case of the values that are one
there and zero elsewhere.
-/

namespace Markov

namespace Branch

/-- The targets of a branch are distinct. -/
def Distinct {R : Type} (branch : Branch R) : Prop :=
  (branch.map Prod.fst).Nodup

instance {R : Type} (branch : Branch R) : Decidable branch.Distinct :=
  inferInstanceAs (Decidable (List.Nodup _))

/-- The weight of a target, zero if it is none. -/
def weight (branch : Branch ℚ) (target : Nat) : ℚ :=
  branch.expect fun state => if state = target then 1 else 0

/-- A branch over distinct targets whose weights are probabilities. -/
structure IsDistribution (branch : Branch ℚ) : Prop where
  distinct : branch.Distinct
  weights : branch.NonNegative
  total : branch.total = 1

theorem expect_cons (entry : Nat × ℚ) (branch : Branch ℚ) (f : Nat → ℚ) :
    expect (entry :: branch) f = entry.2 * f entry.1 + branch.expect f := by
  simp [expect]

theorem weight_cons (entry : Nat × ℚ) (branch : Branch ℚ) (target : Nat) :
    weight (entry :: branch) target =
      (if entry.1 = target then entry.2 else 0) + branch.weight target := by
  simp [weight, expect_cons]

theorem total_eq_expect (branch : Branch ℚ) :
    branch.total = branch.expect fun _ => 1 := by
  rw [expect_const, mul_one]

theorem NonNegative.weight_nonneg {branch : Branch ℚ}
    (weights : branch.NonNegative) (target : Nat) :
    0 ≤ branch.weight target := by
  apply expect_nonneg weights
  intro entry _ _
  split <;> norm_num

theorem NonNegative.total_nonneg {branch : Branch ℚ}
    (weights : branch.NonNegative) : 0 ≤ branch.total := by
  rw [total_eq_expect]
  exact expect_nonneg weights fun _ _ _ => zero_le_one

theorem NonNegative.map_div {branch : Branch ℚ} (weights : branch.NonNegative)
    {divisor : ℚ} (positive : 0 < divisor) :
    NonNegative (branch.map fun entry => (entry.1, entry.2 / divisor)) := by
  intro scaled member
  obtain ⟨entry, entryMember, rfl⟩ := List.mem_map.mp member
  exact div_nonneg (weights entry entryMember) positive.le

theorem expect_append (first second : Branch ℚ) (f : Nat → ℚ) :
    expect (first ++ second) f = expect first f + expect second f := by
  simp [expect]

theorem expect_map_div (branch : Branch ℚ) (divisor : ℚ) (f : Nat → ℚ) :
    expect (branch.map fun entry => (entry.1, entry.2 / divisor)) f =
      branch.expect f / divisor := by
  induction branch with
  | nil => simp [expect]
  | cons entry branch ih =>
      rw [List.map_cons, expect_cons, expect_cons, ih]
      ring

/-! ## Uniformised branches -/

section Uniformised

variable {q : ℚ} {state : Nat} {branch : Branch ℚ}

/-- The weight of the state itself is what its entries were worth. -/
theorem expect_filter_ne (branch : Branch ℚ) (state : Nat) (f : Nat → ℚ) :
    expect (branch.filter fun entry => entry.1 ≠ state) f =
      branch.expect f - branch.weight state * f state := by
  induction branch with
  | nil => simp [expect, weight]
  | cons entry branch ih =>
      rw [weight_cons, expect_cons]
      by_cases here : entry.1 = state
      · rw [List.filter_cons_of_neg (by simpa using here), ih, if_pos here, here]
        ring
      · rw [List.filter_cons_of_pos (by simpa using here), expect_cons, ih,
          if_neg here]
        ring

theorem foldl_stay (q : ℚ) (state : Nat) (branch : Branch ℚ) (start : ℚ) :
    branch.foldl (fun stay entry =>
        if entry.1 = state then stay + entry.2 / q else stay) start =
      start + branch.weight state / q := by
  induction branch generalizing start with
  | nil => simp [weight, expect]
  | cons entry branch ih =>
      rw [List.foldl_cons, ih, weight_cons]
      split <;> ring

/-- The probability of staying in a state. -/
def stay (q : ℚ) (state : Nat) (branch : Branch ℚ) : ℚ :=
  1 - branch.total / q + branch.weight state / q

/-- The entry for staying in a state, left out where it would be zero. -/
def staying (q : ℚ) (state : Nat) (branch : Branch ℚ) : Branch ℚ :=
  if 0 < stay q state branch then [(state, stay q state branch)] else []

/-- The entries for moving to other states. -/
def moving (q : ℚ) (state : Nat) (branch : Branch ℚ) : Branch ℚ :=
  (branch.filter fun entry => entry.1 ≠ state).map fun entry =>
    (entry.1, entry.2 / q)

theorem uniformised_eq (q : ℚ) (state : Nat) (branch : Branch ℚ) :
    branch.uniformised q state = moving q state branch ++ staying q state branch := by
  unfold uniformised staying stay
  simp only [foldl_stay]
  split
  · rfl
  · exact (List.append_nil _).symm

theorem mem_staying {entry : Nat × ℚ} (member : entry ∈ staying q state branch) :
    entry.1 = state ∧ 0 < entry.2 := by
  unfold staying at member
  split at member
  next positive =>
    obtain rfl := List.mem_singleton.mp member
    exact ⟨rfl, positive⟩
  next => cases member

theorem stay_nonneg (positive : 0 < q) (weights : branch.NonNegative)
    (bound : branch.total ≤ q) : 0 ≤ stay q state branch := by
  have missing : branch.total / q ≤ 1 := (div_le_one positive).mpr bound
  have itself : 0 ≤ branch.weight state / q :=
    div_nonneg (weights.weight_nonneg state) positive.le
  unfold stay
  linarith

theorem expect_staying (nonneg : 0 ≤ stay q state branch) (f : Nat → ℚ) :
    expect (staying q state branch) f = stay q state branch * f state := by
  unfold staying
  rcases nonneg.eq_or_lt with zero | positive
  · simp [← zero, expect]
  · simp [positive, expect]

/-- A uniformised branch is worth what the branch is worth, and what the state
itself is worth for the rate that is missing to `q`. -/
theorem expect_uniformised (positive : 0 < q) (weights : branch.NonNegative)
    (bound : branch.total ≤ q) (state : Nat) (f : Nat → ℚ) :
    q * expect (branch.uniformised q state) f =
      branch.expect f + (q - branch.total) * f state := by
  rw [uniformised_eq, expect_append,
    expect_staying (stay_nonneg positive weights bound), moving,
    expect_map_div, expect_filter_ne, stay]
  field_simp
  ring

theorem Distinct.uniformised (distinct : branch.Distinct) (q : ℚ)
    (state : Nat) : Distinct (branch.uniformised q state) := by
  have elsewhere : ((moving q state branch).map Prod.fst).Nodup := by
    rw [moving, List.map_map]
    exact distinct.sublist (List.filter_sublist.map _)
  have once : ((staying q state branch).map Prod.fst).Nodup := by
    unfold staying
    split <;> simp
  rw [Distinct, uniformised_eq, List.map_append]
  refine elsewhere.append once ?_
  intro target moves stays
  obtain ⟨entry, member, rfl⟩ := List.mem_map.mp stays
  rw [(mem_staying member).1, moving, List.map_map] at moves
  obtain ⟨other, otherMember, same⟩ := List.mem_map.mp moves
  exact absurd same (by simpa using (List.mem_filter.mp otherMember).2)

theorem NonNegative.uniformised (weights : branch.NonNegative)
    (positive : 0 < q) (state : Nat) :
    NonNegative (branch.uniformised q state) := by
  have elsewhere : (moving q state branch).NonNegative :=
    NonNegative.map_div
      (fun entry member => weights entry (List.mem_of_mem_filter member)) positive
  rw [uniformised_eq]
  intro entry member
  rcases List.mem_append.mp member with moves | stays
  · exact elsewhere entry moves
  · exact (mem_staying stays).2.le

theorem total_uniformised (positive : 0 < q) (weights : branch.NonNegative)
    (bound : branch.total ≤ q) (state : Nat) :
    total (branch.uniformised q state) = 1 := by
  have worth := expect_uniformised positive weights bound state fun _ => 1
  rw [← total_eq_expect, ← total_eq_expect] at worth
  apply mul_left_cancel₀ positive.ne'
  linarith

end Uniformised

/-! ## Embedded branches -/

section Embedded

variable {state : Nat} {branch : Branch ℚ}

theorem expect_embedded (positive : 0 < branch.total) (state : Nat)
    (f : Nat → ℚ) :
    expect (branch.embedded state) f = branch.expect f / branch.total := by
  rw [embedded, if_pos positive, expect_map_div]

theorem embedded_of_total_eq_zero (zero : branch.total = 0) (state : Nat) :
    branch.embedded state = [(state, 1)] := by
  rw [embedded, if_neg zero.le.not_gt]

theorem embedded_isDistribution (distinct : branch.Distinct)
    (weights : branch.NonNegative) (state : Nat) :
    IsDistribution (branch.embedded state) := by
  rcases weights.total_nonneg.eq_or_lt with zero | positive
  · rw [embedded_of_total_eq_zero zero.symm]
    exact ⟨by simp [Distinct], by simp [NonNegative], by simp [total_eq_sum]⟩
  · refine ⟨?_, ?_, ?_⟩
    · rw [embedded, if_pos positive, Distinct, List.map_map]
      exact distinct
    · rw [embedded, if_pos positive]
      exact weights.map_div positive
    · rw [total_eq_expect, expect_embedded positive, ← total_eq_expect,
        div_self positive.ne']

end Embedded

/-- Probabilities under which a state is left as it is at the given rates, if
jumps happen at the rate `q`. -/
structure Generates (q : ℚ) (state : Nat) (rates row : Branch ℚ) : Prop
    extends row.IsDistribution where
  generator : ∀ target,
    q * (row.weight target - if target = state then 1 else 0) =
      rates.weight target - if target = state then rates.total else 0

/-- Probabilities in proportion to the given rates; without any rate nothing
moves. -/
structure Proportional (state : Nat) (rates row : Branch ℚ) : Prop
    extends row.IsDistribution where
  weight : 0 < rates.total →
    ∀ target, row.weight target = rates.weight target / rates.total
  loop : rates.total = 0 → row = [(state, 1)]

theorem generates_uniformised {q : ℚ} {branch : Branch ℚ} (positive : 0 < q)
    (distinct : branch.Distinct) (weights : branch.NonNegative)
    (bound : branch.total ≤ q) (state : Nat) :
    Generates q state branch (branch.uniformised q state) where
  distinct := distinct.uniformised q state
  weights := weights.uniformised positive state
  total := total_uniformised positive weights bound state
  generator target := by
    have worth := expect_uniformised positive weights bound state
      fun successor => if successor = target then 1 else 0
    rw [← weight, ← weight] at worth
    rw [mul_sub, worth]
    by_cases same : target = state
    · rw [if_pos same, if_pos same, if_pos same.symm]
      ring
    · rw [if_neg same, if_neg same, if_neg (Ne.symm same)]
      ring

theorem proportional_embedded {branch : Branch ℚ} (distinct : branch.Distinct)
    (weights : branch.NonNegative) (state : Nat) :
    Proportional state branch (branch.embedded state) where
  toIsDistribution := embedded_isDistribution distinct weights state
  weight positive _ := expect_embedded positive state _
  loop zero := embedded_of_total_eq_zero zero state

end Branch

namespace Table

/-- The targets of every choice are distinct. -/
def Distinct {R : Type} (t : Table R) : Prop :=
  ∀ row ∈ t.rows, ∀ branch ∈ row, branch.Distinct

instance {R : Type} (t : Table R) : Decidable t.Distinct :=
  inferInstanceAs (Decidable (∀ row ∈ t.rows, ∀ branch ∈ row, _))

/-- No choice is left at a higher rate than `q`. -/
def ExitsWithin (t : Table ℚ) (q : ℚ) : Prop :=
  ∀ row ∈ t.rows, ∀ branch ∈ row, branch.total ≤ q

instance (t : Table ℚ) (q : ℚ) : Decidable (t.ExitsWithin q) :=
  inferInstanceAs (Decidable (∀ row ∈ t.rows, ∀ branch ∈ row, _ ≤ _))

theorem branches_mapIdx {R : Type} (t : Table R)
    (change : Nat → Branch R → Branch R) (state : Nat) :
    (Table.mk (t.rows.mapIdx fun state row =>
        row.map (change state))).branches state =
      (t.branches state).map (change state) := by
  simp only [branches, Array.getD_eq_getD_getElem?, Array.getElem?_mapIdx]
  cases t.rows[state]? <;> rfl

theorem branches_uniformised {R : Type} [Scalar R] (t : Table R) (q : R)
    (state : Nat) :
    (t.uniformised q).branches state =
      (t.branches state).map (Branch.uniformised q state) :=
  t.branches_mapIdx (Branch.uniformised q) state

theorem branches_embedded {R : Type} [Scalar R] (t : Table R) (state : Nat) :
    t.embedded.branches state =
      (t.branches state).map (Branch.embedded state) :=
  t.branches_mapIdx Branch.embedded state

/-- Branches that are changed one by one stand beside what they were. -/
theorem forall₂_map_branches {t : Table ℚ} {change : Branch ℚ → Branch ℚ}
    {relation : Branch ℚ → Branch ℚ → Prop} {state : Nat}
    (holds : ∀ branch ∈ t.branches state, relation branch (change branch)) :
    List.Forall₂ relation (t.branches state)
      ((t.branches state).map change) := by
  rw [List.forall₂_map_right_iff]
  exact List.forall₂_same.mpr holds

/-- Uniformisation at a rate that no choice exceeds turns every choice of a
table of rates into a distribution with the same generator, and the jumps of a
choice are a distribution in proportion to its rates. -/
theorem probabilities_of_rates (rates : Table ℚ) (distinct : rates.Distinct)
    (weights : rates.NonNegative) :
    (∀ q, 0 < q → rates.ExitsWithin q →
      (rates.uniformised q).numStates = rates.numStates ∧
      ∀ state, List.Forall₂ (Branch.Generates q state)
        (rates.branches state) ((rates.uniformised q).branches state)) ∧
    rates.embedded.numStates = rates.numStates ∧
    ∀ state, List.Forall₂ (Branch.Proportional state)
      (rates.branches state) (rates.embedded.branches state) := by
  refine ⟨fun q positive within => ⟨by simp [numStates, uniformised], ?_⟩,
    by simp [numStates, embedded], ?_⟩
  · intro state
    rw [branches_uniformised]
    apply forall₂_map_branches
    intro branch member
    obtain ⟨row, rowMember, branchMember⟩ := mem_rows_of_mem_branches member
    exact Branch.generates_uniformised positive
      (distinct row rowMember branch branchMember)
      (weights row rowMember branch branchMember)
      (within row rowMember branch branchMember) state
  · intro state
    rw [branches_embedded]
    apply forall₂_map_branches
    intro branch member
    obtain ⟨row, rowMember, branchMember⟩ := mem_rows_of_mem_branches member
    exact Branch.proportional_embedded
      (distinct row rowMember branch branchMember)
      (weights row rowMember branch branchMember) state

/-- The rates of a pump.  In the first state it can run, which it may also do
in place, or rest; the second one is left at the largest rate of all; the third
one has a choice that never happens, and the last one has none. -/
def pump : Table ℚ :=
  ⟨#[[[(0, 1), (1, 2), (2, 0)], [(0, 1 / 2)]], [[(0, 3), (2, 1)]],
    [[(2, 0)], []], []]⟩

theorem pump_probabilities :
    (pump.Distinct ∧ pump.NonNegative ∧ 0 < (4 : ℚ) ∧ pump.ExitsWithin 4) ∧
    (pump.uniformised 4).branches 0 =
      [[(1, 1 / 2), (2, 0), (0, 1 / 2)], [(0, 1)]] ∧
    (pump.uniformised 4).branches 1 = [[(0, 3 / 4), (2, 1 / 4)]] ∧
    pump.embedded.branches 2 = [[(2, 1)], [(2, 1)]] ∧
    (∀ state, List.Forall₂ (Branch.Generates 4 state)
      (pump.branches state) ((pump.uniformised 4).branches state)) ∧
    ∀ state, List.Forall₂ (Branch.Proportional state)
      (pump.branches state) (pump.embedded.branches state) := by
  have distinct : pump.Distinct := by decide
  have weights : pump.NonNegative := by decide +kernel
  have within : pump.ExitsWithin 4 := by decide +kernel
  obtain ⟨uniform, _, jumps⟩ := probabilities_of_rates pump distinct weights
  exact ⟨⟨distinct, weights, by norm_num, within⟩, by decide +kernel,
    by decide +kernel, by decide +kernel,
    (uniform 4 (by norm_num) within).2, jumps⟩

end Table

end Markov
