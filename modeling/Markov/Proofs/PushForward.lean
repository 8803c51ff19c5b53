import Markov.Proofs.Layout
import Markov.Proofs.Rounding
import Markov.Proofs.Uniformisation

/-!
# Weights that are moved

A distribution is collected from a list of weights, in which targets may be
repeated and stand in any order, and it is moved along a function of its targets
by collecting again.  Over the rationals both are seen from what a distribution
is worth, for all values of its targets at once (`expect_ofList`): the weight of
a target, the total weight and weighted sums are cases of it.  A distribution
is determined by its targets and their weights, so distributions that are worth
the same and have the same targets are equal.

Along a function that keeps the targets apart no weights are added up.  Nothing
is rounded then, whatever the arithmetic.
-/

namespace Markov

namespace Distribution

variable {R : Type}

/-! ## Changing one entry -/

section Adjust

variable {target : Nat} {change : Option R → R} {entries : List (Nat × R)}

theorem mem_targets_adjust {other : Nat} :
    other ∈ (adjust target change entries).map Prod.fst ↔
      other = target ∨ other ∈ entries.map Prod.fst := by
  induction entries with
  | nil => simp [adjust]
  | cons entry entries ih =>
      rw [adjust]
      split_ifs with below here
      · simp
      · simp [here]
      · rw [List.map_cons, List.mem_cons, ih, List.map_cons, List.mem_cons]
        exact or_left_comm

theorem forall_adjust {holds : R → Prop} (fresh : holds (change none))
    (kept : ∀ old, holds old → holds (change (some old)))
    (all : ∀ entry ∈ entries, holds entry.2) :
    ∀ entry ∈ adjust target change entries, holds entry.2 := by
  induction entries with
  | nil => simpa [adjust] using fresh
  | cons first entries ih =>
      obtain ⟨here, later⟩ := List.forall_mem_cons.mp all
      rw [adjust]
      split_ifs
      · exact List.forall_mem_cons.mpr ⟨fresh, all⟩
      · exact List.forall_mem_cons.mpr ⟨kept _ here, later⟩
      · exact List.forall_mem_cons.mpr ⟨here, ih later⟩

theorem perm_adjust_of_absent (absent : target ∉ entries.map Prod.fst) :
    (adjust target change entries).Perm ((target, change none) :: entries) := by
  induction entries with
  | nil => exact .refl _
  | cons entry entries ih =>
      rw [List.map_cons, List.mem_cons, not_or] at absent
      rw [adjust]
      split_ifs with below here
      · exact .refl _
      · exact absurd here absent.1
      · exact ((ih absent.2).cons entry).trans (.swap _ _ _)

end Adjust

/-! ## Targets and weights -/

theorem pairwise_support (d : Distribution R) : d.support.Pairwise (· < ·) :=
  List.pairwise_map.mpr d.ascending

theorem nodup_support (d : Distribution R) : d.support.Nodup :=
  d.pairwise_support.imp Nat.ne_of_lt

theorem get?_eq_some_iff {d : Distribution R} {target : Nat} {weight : R} :
    d.get? target = some weight ↔ (target, weight) ∈ d.entries := by
  obtain ⟨entries, ascending⟩ := d
  change entries.lookup target = some weight ↔ (target, weight) ∈ entries
  induction entries with
  | nil => simp
  | cons entry entries ih =>
      obtain ⟨above, rest⟩ := List.pairwise_cons.mp ascending
      obtain ⟨first, its⟩ := entry
      rw [List.lookup_cons, List.mem_cons]
      by_cases here : target = first
      · subst here
        have later : (target, weight) ∉ entries := fun member =>
          Nat.lt_irrefl target (above (target, weight) member)
        simp [later, eq_comm]
      · have apart : (target == first) = false := beq_eq_false_iff_ne.mpr here
        simp [here, apart, ih rest]

variable [Scalar R]

theorem mem_entries_iff {d : Distribution R} {target : Nat} {weight : R} :
    (target, weight) ∈ d.entries ↔
      target ∈ d.support ∧ d.get target = weight := by
  constructor
  · intro member
    refine ⟨List.mem_map.mpr ⟨_, member, rfl⟩, ?_⟩
    rw [get, get?_eq_some_iff.mpr member, Option.getD_some]
  · rintro ⟨member, rfl⟩
    obtain ⟨⟨target, weight⟩, listed, rfl⟩ := List.mem_map.mp member
    rwa [get, get?_eq_some_iff.mpr listed, Option.getD_some]

theorem get_of_absent {d : Distribution R} {target : Nat}
    (absent : target ∉ d.support) : d.get target = 0 := by
  cases found : d.get? target with
  | none => rw [get, found, Option.getD_none]
  | some weight =>
      have listed := get?_eq_some_iff.mp found
      exact absurd (List.mem_map.mpr ⟨_, listed, rfl⟩) absent

theorem entries_eq_map (d : Distribution R) :
    d.entries = d.support.map fun target => (target, d.get target) := by
  rw [support, List.map_map]
  symm
  refine (List.map_congr_left ?_).trans (List.map_id d.entries)
  rintro ⟨target, weight⟩ member
  rw [Function.comp_apply, (mem_entries_iff.mp member).2, id]

theorem ext_get {first second : Distribution R}
    (targets : ∀ target, target ∈ first.support ↔ target ∈ second.support)
    (weights : ∀ target, first.get target = second.get target) :
    first = second := by
  have supports : first.support = second.support :=
    first.pairwise_support.eq_of_mem_iff second.pairwise_support targets
  have entries : first.entries = second.entries := by
    rw [entries_eq_map first, entries_eq_map second, supports, funext weights]
  cases first
  cases second
  cases entries
  rfl

theorem mem_support_addMany {d : Distribution R} {weights : List (Nat × R)}
    {target : Nat} :
    target ∈ (d.addMany weights).support ↔
      target ∈ weights.map Prod.fst ∨ target ∈ d.support := by
  induction weights generalizing d with
  | nil => simp [addMany]
  | cons weight weights ih =>
      change target ∈ ((d.add weight.1 weight.2).addMany weights).support ↔ _
      have added : target ∈ (d.add weight.1 weight.2).support ↔
          target = weight.1 ∨ target ∈ d.support := mem_targets_adjust
      rw [ih, added, List.map_cons, List.mem_cons]
      tauto

theorem mem_support_ofList {weights : List (Nat × R)} {target : Nat} :
    target ∈ (ofList weights).support ↔ target ∈ weights.map Prod.fst := by
  rw [ofList, mem_support_addMany]
  exact or_iff_left List.not_mem_nil

theorem mem_support_mapTargets {d : Distribution R} {f : Nat → Nat}
    {target : Nat} :
    target ∈ (d.mapTargets f).support ↔
      ∃ source ∈ d.support, f source = target := by
  rw [mapTargets, mem_support_ofList, List.map_map, support]
  simp only [List.mem_map, exists_exists_and_eq_and]
  rfl

/-! ## Accepted weights -/

/-- Weights that are accepted have sums that are accepted. -/
def AddsWeights (R : Type) [Scalar R] : Prop :=
  ∀ first second : R, 0 ≤ first → 0 ≤ second → 0 ≤ first + second

theorem addsWeights_rat : AddsWeights ℚ := fun _ _ => add_nonneg

theorem addsWeights_float : AddsWeights Float := fun _ _ => Binary64.add_nonneg

theorem accepted_addMany (adds : AddsWeights R) {weights : List (Nat × R)}
    (accepted : ∀ entry ∈ weights, 0 ≤ entry.2) {d : Distribution R}
    (before : ∀ entry ∈ d.entries, 0 ≤ entry.2) :
    ∀ entry ∈ (d.addMany weights).entries, 0 ≤ entry.2 := by
  induction weights generalizing d with
  | nil => exact before
  | cons weight weights ih =>
      obtain ⟨here, later⟩ := List.forall_mem_cons.mp accepted
      exact ih later (forall_adjust here
        (fun old positive => adds old weight.2 positive here) before)

theorem accepted_ofList (adds : AddsWeights R) {weights : List (Nat × R)}
    (accepted : ∀ entry ∈ weights, 0 ≤ entry.2) :
    ∀ entry ∈ (ofList weights).entries, 0 ≤ entry.2 :=
  accepted_addMany adds accepted (by simp [empty])

theorem accepted_mapTargets {d : Distribution R} (accepted : d.NonNegative)
    (f : Nat → Nat) (adds : AddsWeights R) : (d.mapTargets f).NonNegative :=
  accepted_ofList adds (accepted.moved f)

/-! ## Targets that are kept apart -/

theorem perm_entries_addMany {weights : List (Nat × R)} {d : Distribution R}
    (distinct : ((d.entries ++ weights).map Prod.fst).Nodup) :
    (d.addMany weights).entries.Perm (d.entries ++ weights) := by
  induction weights generalizing d with
  | nil => simp [addMany]
  | cons weight weights ih =>
      have shifted : (d.entries ++ weight :: weights).Perm
          (weight :: (d.entries ++ weights)) := List.perm_middle
      have apart := (shifted.map Prod.fst).nodup_iff.mp distinct
      have absent : weight.1 ∉ d.entries.map Prod.fst := by
        intro member
        apply (List.nodup_cons.mp apart).1
        rw [List.map_append]
        exact List.mem_append_left _ member
      have added : (d.add weight.1 weight.2).entries.Perm
          (weight :: d.entries) := perm_adjust_of_absent absent
      -- The weights that are still to be added stay apart from this one.
      have together := added.append_right weights
      exact ((ih ((together.map Prod.fst).nodup_iff.mpr apart)).trans
        together).trans shifted.symm

theorem perm_entries_ofList {weights : List (Nat × R)}
    (distinct : (weights.map Prod.fst).Nodup) :
    (ofList weights).entries.Perm weights :=
  perm_entries_addMany (d := empty) distinct

/-- A distribution whose targets were renamed: every entry is there again, with
the weight that it had. -/
structure Renames (f : Nat → Nat) (d image : Distribution R) : Prop where
  entries : image.entries.Perm (d.entries.map fun entry => (f entry.1, entry.2))
  get_eq : ∀ source ∈ d.support, image.get (f source) = d.get source

theorem renames_mapTargets {d : Distribution R} {f : Nat → Nat}
    (injective : Set.InjOn f {target | target ∈ d.support}) :
    Renames f d (d.mapTargets f) := by
  have targets : (d.entries.map fun entry => (f entry.1, entry.2)).map Prod.fst =
      d.support.map f := by simp [support]
  have entries : (d.mapTargets f).entries.Perm
      (d.entries.map fun entry => (f entry.1, entry.2)) := by
    apply perm_entries_ofList
    rw [targets]
    exact d.nodup_support.map_on fun _ first _ second same =>
      injective first second same
  refine ⟨entries, ?_⟩
  intro source member
  have listed : (source, d.get source) ∈ d.entries :=
    mem_entries_iff.mpr ⟨member, rfl⟩
  have moved : (f source, d.get source) ∈ (d.mapTargets f).entries :=
    entries.mem_iff.mpr (List.mem_map.mpr ⟨_, listed, rfl⟩)
  exact (mem_entries_iff.mp moved).2

/-! ## Exact weights -/

theorem expect_adjust {target : Nat} {change : Option ℚ → ℚ} {weight : ℚ}
    (fresh : change none = weight) (more : ∀ old, change (some old) = old + weight)
    (entries : Branch ℚ) (f : Nat → ℚ) :
    Branch.expect (adjust target change entries) f =
      weight * f target + entries.expect f := by
  induction entries with
  | nil => simp [adjust, Branch.expect, fresh]
  | cons entry entries ih =>
      rw [adjust]
      split_ifs with below here
      · rw [Branch.expect_cons, fresh]
      · rw [Branch.expect_cons, Branch.expect_cons, more, here]
        ring
      · rw [Branch.expect_cons, Branch.expect_cons, ih]
        ring

theorem expect_addMany (d : Distribution ℚ) (weights : Branch ℚ) (f : Nat → ℚ) :
    Branch.expect (d.addMany weights).entries f =
      weights.expect f + Branch.expect d.entries f := by
  induction weights generalizing d with
  | nil => simp [addMany, Branch.expect]
  | cons weight weights ih =>
      have added : Branch.expect (d.add weight.1 weight.2).entries f =
          weight.2 * f weight.1 + Branch.expect d.entries f :=
        expect_adjust rfl (fun _ => rfl) d.entries f
      change Branch.expect
        ((d.add weight.1 weight.2).addMany weights).entries f = _
      rw [ih, added, Branch.expect_cons]
      ring

/-- A distribution is worth what the weights are worth that it was collected
from. -/
theorem expect_ofList (weights : Branch ℚ) (f : Nat → ℚ) :
    Branch.expect (ofList weights).entries f = weights.expect f := by
  rw [ofList, expect_addMany]
  exact add_zero _

/-- A distribution that was moved is worth what its targets are worth where they
were moved to. -/
theorem expect_mapTargets (d : Distribution ℚ) (f : Nat → Nat) (g : Nat → ℚ) :
    Branch.expect (d.mapTargets f).entries g =
      Branch.expect d.entries fun source => g (f source) := by
  rw [mapTargets, expect_ofList, Branch.expect, Branch.expect, List.map_map]
  rfl

theorem total_eq_expect (d : Distribution ℚ) :
    d.total = Branch.expect d.entries fun _ => 1 :=
  Branch.total_eq_expect d.entries

/-- What a distribution is worth, as a sum over its targets. -/
theorem expect_eq_sum (d : Distribution ℚ) (f : Nat → ℚ) :
    Branch.expect d.entries f =
      (d.support.map fun target => d.get target * f target).sum := by
  rw [Branch.expect, entries_eq_map, List.map_map]
  rfl

theorem sum_indicator {α : Type} (members : List α) (weight : α → ℚ)
    (test : α → Prop) [DecidablePred test] :
    (members.map fun member => weight member * if test member then 1 else 0).sum =
      ((members.filter test).map weight).sum := by
  simp [List.sum_map_ite]

theorem get_eq_weight (d : Distribution ℚ) (target : Nat) :
    d.get target = Branch.weight d.entries target := by
  rw [Branch.weight, expect_eq_sum, sum_indicator, List.filter_eq,
    List.map_replicate, List.sum_replicate, d.nodup_support.count]
  by_cases listed : target ∈ d.support
  · rw [if_pos listed, one_nsmul]
  · rw [if_neg listed, zero_nsmul, get_of_absent listed]

/-! ## Collected weights -/

/-- The distribution of a list of weights. -/
structure Collects (weights : List (Nat × ℚ)) (d : Distribution ℚ) : Prop where
  ascending : d.support.Pairwise (· < ·)
  targets : ∀ target, target ∈ d.support ↔ target ∈ weights.map Prod.fst
  get_eq : ∀ target, d.get target =
    ((weights.filter fun entry => entry.1 = target).map Prod.snd).sum
  total_eq : d.total = (weights.map Prod.snd).sum

theorem collects_ofList (weights : List (Nat × ℚ)) :
    Collects weights (ofList weights) where
  ascending := pairwise_support _
  targets _ := mem_support_ofList
  get_eq target := by
    rw [get_eq_weight, Branch.weight, expect_ofList]
    exact sum_indicator weights Prod.snd fun entry => entry.1 = target
  total_eq := by
    rw [total_eq_expect, expect_ofList, ← Branch.total_eq_expect,
      Branch.total_eq_sum]

/-- The order in which weights are listed does not matter. -/
theorem ofList_eq_of_perm {first second : List (Nat × ℚ)}
    (permuted : first.Perm second) : ofList first = ofList second := by
  apply ext_get
  · intro target
    rw [mem_support_ofList, mem_support_ofList]
    exact (permuted.map Prod.fst).mem_iff
  · intro target
    rw [(collects_ofList first).get_eq, (collects_ofList second).get_eq]
    exact ((permuted.filter _).map Prod.snd).sum_eq

/-! ## Moved weights -/

/-- A distribution that was moved along a function: its weights, its total and
its weighted sums are those of the weights before they were moved. -/
structure PushesForward (f : Nat → Nat) (d image : Distribution ℚ) : Prop where
  targets : ∀ target,
    target ∈ image.support ↔ ∃ source ∈ d.support, f source = target
  get_eq : ∀ target, image.get target =
    ((d.support.filter fun source => f source = target).map d.get).sum
  total_eq : image.total = d.total
  dot_eq_sum : ∀ {ε : Type} (values : Array ℚ),
    (∀ source ∈ d.support, f source < values.size) →
    image.checkedDot (ε := ε) values =
      .ok (d.support.map fun source =>
        d.get source * values.getD (f source) 0).sum
  dot_eq : ∀ {ε : Type} (values composed : Array ℚ),
    (∀ source ∈ d.support, composed[source]? = values[f source]?) →
    image.checkedDot (ε := ε) values = d.checkedDot composed

theorem dot_eq_expect (d : Distribution ℚ) (values : Array ℚ) :
    d.dot values = Branch.expect d.entries fun target => values.getD target 0 := by
  rw [Branch.expect, List.sum_eq_foldl]
  rfl

theorem checkedDot_eq {ε : Type} (d : Distribution ℚ) (values : Array ℚ) :
    d.checkedDot (ε := ε) values =
      if ∀ target ∈ d.support, target < values.size then
        .ok (Branch.expect d.entries fun target => values.getD target 0)
      else .breach := by
  have test : d.support.all (· < values.size) =
      decide (∀ target ∈ d.support, target < values.size) := by
    rw [List.all_eq]
    simp
  rw [checkedDot, test, dot_eq_expect]
  by_cases inside : ∀ target ∈ d.support, target < values.size
  · rw [if_pos inside, decide_eq_true inside]
    rfl
  · rw [if_neg inside, decide_eq_false inside]
    rfl

theorem checkedDot_mapTargets {ε : Type} (d : Distribution ℚ) (f : Nat → Nat)
    (values : Array ℚ) :
    (d.mapTargets f).checkedDot (ε := ε) values =
      if ∀ source ∈ d.support, f source < values.size then
        .ok (Branch.expect d.entries fun source => values.getD (f source) 0)
      else .breach := by
  have inside : (∀ target ∈ (d.mapTargets f).support, target < values.size) ↔
      ∀ source ∈ d.support, f source < values.size := by
    simp [mem_support_mapTargets]
  rw [checkedDot_eq, expect_mapTargets]
  simp only [inside]

theorem pushesForward_mapTargets (d : Distribution ℚ) (f : Nat → Nat) :
    PushesForward f d (d.mapTargets f) where
  targets _ := mem_support_mapTargets
  get_eq target := by
    rw [get_eq_weight, Branch.weight, expect_mapTargets, expect_eq_sum]
    exact sum_indicator d.support d.get fun source => f source = target
  total_eq := by
    rw [total_eq_expect, total_eq_expect, expect_mapTargets]
  dot_eq_sum values inside := by
    rw [checkedDot_mapTargets, if_pos inside, expect_eq_sum]
  dot_eq values composed same := by
    -- A target without a value has none on the other side either.
    have inside : (∀ source ∈ d.support, f source < values.size) ↔
        ∀ source ∈ d.support, source < composed.size := by
      refine forall₂_congr fun source member => ?_
      rw [← not_le, ← not_le, ← Array.getElem?_eq_none_iff,
        ← Array.getElem?_eq_none_iff, same source member]
    rw [checkedDot_mapTargets, checkedDot_eq, expect_eq_sum, expect_eq_sum]
    simp only [inside]
    congr 3
    apply List.map_congr_left
    intro source member
    rw [Array.getD_eq_getD_getElem?, Array.getD_eq_getD_getElem?,
      same source member]

/-- Weights that are moved twice are moved along both functions. -/
theorem mapTargets_mapTargets (d : Distribution ℚ) (f g : Nat → Nat) :
    (d.mapTargets f).mapTargets g = d.mapTargets (g ∘ f) := by
  apply ext_get
  · intro target
    simp [mem_support_mapTargets]
  · intro target
    rw [get_eq_weight, get_eq_weight, Branch.weight, Branch.weight,
      expect_mapTargets, expect_mapTargets, expect_mapTargets]
    rfl

/-- Weights that are not negative can be collected and moved along every
function.  Exact weights are added up where they meet, in whatever order they
are listed, and moving along two functions is moving along their composition.
Weights that do not meet are kept, also those that would be rounded. -/
theorem collect_pushesForward {ε : Type} :
    (∀ weights : List (Nat × ℚ), (∀ entry ∈ weights, 0 ≤ entry.2) →
      ∃ d, collect (ε := ε) weights = .ok d ∧ Collects weights d ∧
        (∀ permuted : List (Nat × ℚ), permuted.Perm weights →
          collect (ε := ε) permuted = .ok d) ∧
        ∀ f, ∃ image, d.checkedMap (ε := ε) f = .ok image ∧
          PushesForward f d image ∧
          (∀ g, image.checkedMap (ε := ε) g = d.checkedMap (g ∘ f)) ∧
          (Set.InjOn f {target | target ∈ d.support} → Renames f d image)) ∧
    ∀ weights : List (Nat × Float), (∀ entry ∈ weights, 0 ≤ entry.2) →
      ∃ d, collect (ε := ε) weights = .ok d ∧
        ∀ f, Set.InjOn f {target | target ∈ d.support} →
          ∃ image, d.checkedMap (ε := ε) f = .ok image ∧ Renames f d image := by
  constructor
  · intro weights accepted
    have collected := accepted_ofList addsWeights_rat accepted
    refine ⟨ofList weights, collect_eq_ok accepted, collects_ofList weights,
      ?_, ?_⟩
    · intro permuted same
      rw [← ofList_eq_of_perm same]
      exact collect_eq_ok fun entry member =>
        accepted entry (same.mem_iff.mp member)
    · intro f
      refine ⟨_, checkedMap_eq_ok collected f, pushesForward_mapTargets _ f, ?_,
        renames_mapTargets⟩
      intro g
      rw [checkedMap_eq_ok collected, ← mapTargets_mapTargets]
      exact checkedMap_eq_ok (accepted_mapTargets collected f addsWeights_rat) g
  · intro weights accepted
    have collected := accepted_ofList addsWeights_float accepted
    exact ⟨ofList weights, collect_eq_ok accepted, fun f injective =>
      ⟨_, checkedMap_eq_ok collected f, renames_mapTargets injective⟩⟩

theorem quarters_pushForward :
    (∀ entry ∈ [(3, 1 / 2), (1, 1 / 4), (3, (1 / 4 : ℚ))], 0 ≤ entry.2) ∧
      (∃ d image, collect (ε := Empty) [(3, 1 / 2), (1, 1 / 4), (3, 1 / 4)] =
          .ok d ∧
        Collects [(3, 1 / 2), (1, 1 / 4), (3, 1 / 4)] d ∧
        d.checkedMap (ε := Empty) (· % 2) = .ok image ∧
        PushesForward (· % 2) d image ∧ image.entries = [(1, 1)]) ∧
      (∀ entry ∈ [(2, 0.5), (0, (0.25 : Float))], 0 ≤ entry.2) ∧
      Function.Injective (Equiv.swap 0 2) ∧
      ∃ d image, collect (ε := Empty) [(2, 0.5), (0, (0.25 : Float))] = .ok d ∧
        d.checkedMap (ε := Empty) (Equiv.swap 0 2) = .ok image ∧
        Renames (Equiv.swap 0 2) d image := by
  have exactWeights : ∀ entry ∈ [(3, 1 / 2), (1, 1 / 4), (3, (1 / 4 : ℚ))],
      0 ≤ entry.2 := by decide +kernel
  have roundedWeights : ∀ entry ∈ [(2, 0.5), (0, (0.25 : Float))],
      0 ≤ entry.2 := by decide +kernel
  obtain ⟨d, collected, collects, -, moves⟩ :=
    (collect_pushesForward (ε := Empty)).1 _ exactWeights
  obtain ⟨image, moved, pushes, -⟩ := moves (· % 2)
  obtain ⟨rounded, found, renames⟩ :=
    (collect_pushesForward (ε := Empty)).2 _ roundedWeights
  obtain ⟨swapped, swaps, renamed⟩ :=
    renames (Equiv.swap 0 2) (Equiv.injective _).injOn
  refine ⟨exactWeights, ⟨d, image, collected, collects, moved, pushes, ?_⟩,
    roundedWeights, Equiv.injective _, rounded, swapped, found, swaps, renamed⟩
  rw [collect_eq_ok exactWeights] at collected
  cases collected
  rw [checkedMap_eq_ok (accepted_ofList addsWeights_rat exactWeights)] at moved
  cases moved
  decide +kernel

end Distribution

end Markov
