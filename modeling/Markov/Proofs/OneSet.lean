import Mathlib.Algebra.Order.Archimedean.Basic
import Markov.Proofs.ZeroSet

/-!
# States of probability one

The graph analysis keeps a set `u` of candidates and looks for the states of `u`
that reach `right` without leaving it.  What is not found is removed, until
nothing changes.

A state of the final set has a positive chance of reaching `right` within a
fixed number of steps, from wherever it is in the set, so that the chance of not
having reached it vanishes.  A state that is removed in some round can always be
led to a state that was removed before, or be kept away from what is found in
that round, so that its values stay away from one.
-/

namespace Markov

namespace Table

variable {R : Type} [Scalar R]

/-- Whether a state of `left` and `u` has the choices that lead it into a set
and never out of `u`. -/
def staysAndLeads (t : Table R) (dirs : Array (Option Direction))
    (left u set : BitSet) (state : Nat) : Bool :=
  left.contains state && u.contains state &&
    qualifies (t.branches state) (dirs.getD state none) (staysAndHits u set)

theorem states_growSure (t : Table R) (dirs : Array (Option Direction))
    (left u : BitSet) (found : Witnessed) :
    (t.growSure dirs left u found).states =
      sweep (t.staysAndLeads dirs left u) (List.range t.numStates)
        found.states := by
  unfold growSure sweep
  symm
  apply List.foldl_hom Witnessed.states
  intro found state
  by_cases skipped : (found.states.contains state || !left.contains state ||
      !u.contains state) = true
  · have fails : (!found.states.contains state &&
        t.staysAndLeads dirs left u found.states state) = false := by
      unfold staysAndLeads
      revert skipped
      cases found.states.contains state <;> cases left.contains state <;>
        cases u.contains state <;> simp
    rw [if_pos skipped, fails]
    rfl
  · rw [if_neg skipped]
    simp only [Bool.or_eq_true, not_or, Bool.not_eq_true,
      Bool.not_eq_true', Bool.not_eq_false] at skipped
    obtain ⟨⟨absent, inLeft⟩, candidate⟩ := skipped
    simp only [staysAndLeads, qualifies, absent, inLeft, candidate,
      Bool.not_false, Bool.true_and]
    by_cases existential : isExistential (dirs.getD state none) = true
    · simp only [existential, if_true, ← List.findIdx?_isSome]
      cases (t.branches state).findIdx? (staysAndHits u found.states) with
      | none => rfl
      | some choice => rfl
    · simp only [existential, Bool.false_eq_true, if_false]
      split <;> rfl

/-- The rounds inside `u` end with a closed set that came about by
additions. -/
theorem states_shrinkSure (t : Table R) (dirs : Array (Option Direction))
    (left right : BitSet) (u : Witnessed) :
    ∃ count,
      Grown (t.staysAndLeads dirs left u.states) t.numStates right count
        (t.shrinkSure dirs left right u).states ∧
      Closed (t.staysAndLeads dirs left u.states) t.numStates
        (t.shrinkSure dirs left right u).states := by
  obtain ⟨result, count, found, grown, closed⟩ :=
    stabilise_saturates (t.states_growSure dirs left u.states)
      ⟨right, u.witness⟩ (Nat.lt_succ_self t.numStates)
  have value : t.shrinkSure dirs left right u = result := by
    unfold shrinkSure sureWithin?
    rw [found]
    rfl
  rw [value]
  exact ⟨count, grown, closed⟩

theorem contains_shrinkSure_of_right (t : Table R)
    (dirs : Array (Option Direction)) (left right : BitSet) (u : Witnessed)
    {state : Nat} (member : right.contains state = true) :
    (t.shrinkSure dirs left right u).states.contains state = true := by
  obtain ⟨count, grown, -⟩ := t.states_shrinkSure dirs left right u
  exact grown.contains_of_start member

/-- Nothing is found outside of candidates around `right`. -/
theorem contains_of_shrinkSure {t : Table R} {dirs : Array (Option Direction)}
    {left right : BitSet} {u : Witnessed}
    (around : ∀ state, right.contains state = true →
      u.states.contains state = true) {state : Nat}
    (member : (t.shrinkSure dirs left right u).states.contains state = true) :
    u.states.contains state = true := by
  obtain ⟨count, grown, -⟩ := t.states_shrinkSure dirs left right u
  rcases grown.contains_cases member with inRight | ⟨-, earlier, passes⟩
  · exact around state inRight
  · simp only [staysAndLeads, Bool.and_eq_true] at passes
    exact passes.1.2

/-- After the first round every change removes a state. -/
theorem shrinkSure_decreases (t : Table R) (dirs : Array (Option Direction))
    (left right : BitSet) (u : Witnessed)
    (changed : ((t.shrinkSure dirs left right
        (t.shrinkSure dirs left right u)).states ==
      (t.shrinkSure dirs left right u).states) = false) :
    t.numStates - ((t.shrinkSure dirs left right
        (t.shrinkSure dirs left right u)).states.missing t.numStates).card <
      t.numStates -
        ((t.shrinkSure dirs left right u).states.missing t.numStates).card := by
  obtain ⟨count, grown, -⟩ := t.states_shrinkSure dirs left right u
  obtain ⟨more, again, -⟩ :=
    t.states_shrinkSure dirs left right (t.shrinkSure dirs left right u)
  have shrinks : ∀ state, (t.shrinkSure dirs left right
        (t.shrinkSure dirs left right u)).states.contains state = true →
      (t.shrinkSure dirs left right u).states.contains state = true :=
    fun _ => contains_of_shrinkSure fun _ =>
      t.contains_shrinkSure_of_right dirs left right u
  generalize (t.shrinkSure dirs left right u) = current at *
  generalize (t.shrinkSure dirs left right current).states = next at *
  have subset : current.states.missing t.numStates ⊆
      next.missing t.numStates := by
    intro state member
    rw [BitSet.mem_missing] at member ⊢
    refine ⟨member.1, ?_⟩
    by_contra present
    have kept := shrinks state (by simpa using present)
    simp [member.2] at kept
  have fewer : current.states.missing t.numStates ≠
      next.missing t.numStates := by
    intro same
    have sizes : next.size = current.states.size := by
      have total := grown.card_missing
      have againTotal := again.card_missing
      rw [grown.size_eq, again.size_eq]
      rw [same] at total
      omega
    have members : ∀ state,
        next.contains state = current.states.contains state := by
      intro state
      by_cases inside : state < t.numStates
      · have iff : state ∈ next.missing t.numStates ↔
            state ∈ current.states.missing t.numStates := by rw [same]
        simp only [BitSet.mem_missing, inside, true_and] at iff
        rw [Bool.eq_iff_iff, ← not_iff_not]
        simpa using iff
      · have outside : t.numStates ≤ state := by omega
        rw [grown.contains_of_ge outside, again.contains_of_ge outside]
    rw [BitSet.beq_of_contains_eq members sizes] at changed
    contradiction
  have less := Finset.card_lt_card (subset.ssubset_of_ne fewer)
  have few := next.card_missing_le t.numStates
  omega

/-- The removals end with a set from which nothing more is removed.  What every
round preserves holds before the last one.  From the second round on the set
only shrinks. -/
theorem sure?_spec (t : Table R) (dirs : Array (Option Direction))
    (left right : BitSet) (invariant : Witnessed → Prop)
    (initial : invariant
      ⟨.full t.numStates, Array.replicate t.numStates 0⟩)
    (kept : ∀ u, invariant u → invariant (t.shrinkSure dirs left right u)) :
    ∃ last, invariant last ∧
      (∀ state, (t.shrinkSure dirs left right last).states.contains state =
        last.states.contains state) ∧
      t.sure? dirs left right (t.numStates + 2) =
        some (t.shrinkSure dirs left right last) := by
  unfold sure? stabilise
  generalize (⟨.full t.numStates, Array.replicate t.numStates 0⟩ : Witnessed) =
    start at initial ⊢
  cases stable : (t.shrinkSure dirs left right start).states == start.states with
  | true =>
      exact ⟨start, initial, BitSet.contains_eq_of_beq stable, by simp [stable]⟩
  | false =>
      simp only [stable, Bool.false_eq_true, if_false]
      have ended : ∃ last,
          (invariant last ∧ ∃ u, last = t.shrinkSure dirs left right u) ∧
          ((t.shrinkSure dirs left right last).states == last.states) = true ∧
          stabilise (t.shrinkSure dirs left right) Witnessed.states
              (t.numStates + 1) (t.shrinkSure dirs left right start) =
            some (t.shrinkSure dirs left right last) := by
        apply stabilise_spec _ fun u =>
          t.numStates - (u.states.missing t.numStates).card
        · rintro u ⟨holds, -⟩
          exact ⟨kept u holds, u, rfl⟩
        · rintro current ⟨-, u, rfl⟩ changed
          exact t.shrinkSure_decreases dirs left right u changed
        · exact ⟨kept start initial, start, rfl⟩
        · omega
      obtain ⟨last, ⟨holds, -⟩, same, result⟩ := ended
      exact ⟨last, holds, BitSet.contains_eq_of_beq same, result⟩

private theorem exists_least_positive (weights : List ℚ) :
    ∃ least, 0 < least ∧ least ≤ 1 ∧
      ∀ weight ∈ weights, 0 < weight → least ≤ weight := by
  induction weights with
  | nil => exact ⟨1, zero_lt_one, le_rfl, by simp⟩
  | cons first weights ih =>
      obtain ⟨least, positive, atMost, bound⟩ := ih
      by_cases firstPositive : 0 < first
      · refine ⟨min first least, lt_min firstPositive positive,
          (min_le_right _ _).trans atMost, ?_⟩
        intro weight member weightPositive
        rcases List.mem_cons.mp member with rfl | later
        · exact min_le_left _ _
        · exact (min_le_right _ _).trans (bound weight later weightPositive)
      · refine ⟨least, positive, atMost, ?_⟩
        intro weight member weightPositive
        rcases List.mem_cons.mp member with rfl | later
        · exact (firstPositive weightPositive).elim
        · exact bound weight later weightPositive

/-- A number below all positive weights of a table. -/
structure LeastWeight (t : Table ℚ) (least : ℚ) : Prop where
  positive : 0 < least
  atMost : least ≤ 1
  bound : ∀ {state : Nat} {branch : Branch ℚ}, branch ∈ t.branches state →
    ∀ entry ∈ branch, 0 < entry.2 → least ≤ entry.2

theorem exists_leastWeight (t : Table ℚ) : ∃ least, t.LeastWeight least := by
  obtain ⟨least, positive, atMost, bound⟩ :=
    exists_least_positive (t.rows.toList.flatten.flatten.map Prod.snd)
  refine ⟨least, positive, atMost, ?_⟩
  intro state branch member entry entryMember entryPositive
  obtain ⟨row, rowMember, branchMember⟩ := mem_rows_of_mem_branches member
  apply bound entry.2 _ entryPositive
  refine List.mem_map.mpr ⟨entry, ?_, rfl⟩
  refine List.mem_flatten.mpr ⟨branch, ?_, entryMember⟩
  exact List.mem_flatten.mpr ⟨row, by simpa using rowMember, branchMember⟩

end Table

namespace Solver.Query

variable {solver : Solver ℚ} {left right : BitSet} {least : ℚ}

/-! ## Inside the final set -/

/-- A branch that stays where all values are at least `floor`, and that may lead
to a value of `peak`, is worth more than `floor`. -/
private theorem floor_add_le_expect {branch : Branch ℚ}
    (weights : branch.NonNegative) (total : branch.total = 1)
    {value : Nat → ℚ} {floor peak : ℚ} (above : floor ≤ peak)
    (stays : ∀ entry ∈ branch, 0 < entry.2 → floor ≤ value entry.1)
    {entry : Nat × ℚ} (member : entry ∈ branch) (likely : least ≤ entry.2)
    (hits : peak ≤ value entry.1) :
    floor + least * (peak - floor) ≤ branch.expect value := by
  have contribution := Branch.mul_le_expect weights
    (f := fun state => value state - floor)
    (fun other otherMember positive =>
      sub_nonneg.mpr (stays other otherMember positive)) member
  rw [Branch.expect_sub, Branch.expect_const, total, one_mul] at contribution
  have scaled : least * (peak - floor) ≤ entry.2 * (value entry.1 - floor) :=
    mul_le_mul likely (by linarith) (by linarith) (weights entry member)
  linarith

/-- From values of at least `floor` in `u`, the chance of hitting `right` on the
way raises the values of what was added. -/
theorem floor_le_untilValue_of_grown (query : solver.Query left right)
    (stochastic : solver.table.Stochastic)
    (weight : solver.table.LeastWeight least) {u set : BitSet} {count : Nat}
    (grown : Grown (solver.table.staysAndLeads solver.directions left u)
      solver.numStates right count set)
    {steps : Nat} {floor : ℚ} (low : floor ≤ 1)
    (values : ∀ state, u.contains state = true →
      floor ≤ solver.untilValue left right steps state)
    {state : Nat} (member : set.contains state = true) :
    floor + least ^ count * (1 - floor) ≤
      solver.untilValue left right (steps + count) state := by
  have gap : 0 ≤ 1 - floor := sub_nonneg.mpr low
  induction grown generalizing state with
  | start =>
      rw [query.untilValue_of_right member]
      simp
  | @add count set added earlier inside absent leads ih =>
      have chance : 0 ≤ least ^ count * (1 - floor) :=
        mul_nonneg (pow_nonneg weight.positive.le count) gap
      rw [BitSet.contains_insert, Bool.or_eq_true,
        decide_eq_true_eq] at member
      rcases member with rfl | old
      · have notRight := earlier.start_eq_false absent
        simp only [Table.staysAndLeads, Bool.and_eq_true] at leads
        obtain ⟨branch, branchMember, good, value⟩ :=
          query.exists_good_branch leads.1.1 notRight leads.2 (steps + count)
        rw [Table.staysAndHits, Bool.and_eq_true, List.all_eq_true,
          List.any_eq_true] at good
        obtain ⟨stays, target, inSupport, targetMember⟩ := good
        obtain ⟨chosen, entryMember, positive⟩ := Table.mem_support.mp inSupport
        have likely := weight.bound branchMember _ entryMember positive
        have kept : ∀ entry ∈ branch, 0 < entry.2 →
            floor ≤ solver.untilValue left right (steps + count) entry.1 := by
          intro entry entryIn entryPositive
          have inU := stays entry.1
            (Table.mem_support.mpr ⟨entry.2, entryIn, entryPositive⟩)
          exact (values entry.1 inU).trans
            (query.untilValue_mono (Nat.le_add_right steps count) entry.1)
        calc
          floor + least ^ (count + 1) * (1 - floor)
              = floor + least *
                  (floor + least ^ count * (1 - floor) - floor) := by ring
          _ ≤ branch.expect (solver.untilValue left right (steps + count)) :=
            floor_add_le_expect (query.weights.branch branchMember)
              (stochastic.branch branchMember) (by linarith) kept entryMember
              likely (ih targetMember)
          _ ≤ solver.untilValue left right (steps + (count + 1)) state := value
      · have shrinks : least ^ (count + 1) * (1 - floor) ≤
            least ^ count * (1 - floor) := by
          rw [pow_succ]
          nlinarith [weight.atMost]
        have before := ih old
        have more := query.untilValue_mono
          (show steps + count ≤ steps + (count + 1) by omega) state
        linarith

/-- In a set that reaches `right` from within itself the values tend to one:
each pass of as many steps as there were additions leaves at most a fixed
fraction of the gap. -/
theorem gap_le_pow (query : solver.Query left right)
    (stochastic : solver.table.Stochastic)
    (weight : solver.table.LeastWeight least) {u set : BitSet} {count : Nat}
    (grown : Grown (solver.table.staysAndLeads solver.directions left u)
      solver.numStates right count set)
    (same : ∀ state, set.contains state = u.contains state)
    (passes : Nat) {state : Nat} (member : u.contains state = true) :
    1 - (1 - least ^ count) ^ passes ≤
      solver.untilValue left right (passes * count) state := by
  have fraction : 0 ≤ 1 - least ^ count :=
    sub_nonneg.mpr (pow_le_one₀ weight.positive.le weight.atMost)
  induction passes generalizing state with
  | zero => simpa using query.untilValue_nonneg 0 state
  | succ passes ih =>
      have low : 1 - (1 - least ^ count) ^ passes ≤ 1 :=
        sub_le_self 1 (pow_nonneg fraction passes)
      have raised := query.floor_le_untilValue_of_grown stochastic weight grown
        low (fun other inU => ih inU) (same state ▸ member)
      rw [Nat.succ_mul]
      calc
        1 - (1 - least ^ count) ^ (passes + 1)
            = 1 - (1 - least ^ count) ^ passes + least ^ count *
                (1 - (1 - (1 - least ^ count) ^ passes)) := by ring
        _ ≤ solver.untilValue left right (passes * count + count) state :=
          raised

/-! ## Outside the final set -/

/-- Outside a set all values stay away from one. -/
def Refuted (solver : Solver ℚ) (left right u : BitSet) : Prop :=
  ∃ margin, 0 < margin ∧ margin ≤ 1 ∧
    ∀ state, u.contains state = false → ∀ steps,
      solver.untilValue left right steps state ≤ 1 - margin

theorem refuted_full (query : solver.Query left right) :
    Refuted solver left right (.full solver.numStates) := by
  refine ⟨1, zero_lt_one, le_rfl, ?_⟩
  intro state outside steps
  have notState : ¬state < solver.numStates := by simpa using outside
  have notLeft : left.contains state = false := by
    by_contra inLeft
    exact notState (query.lt_of_left state (by simpa using inLeft))
  have notRight : right.contains state = false := by
    by_contra inRight
    exact notState (query.lt_of_right state (by simpa using inRight))
  rw [untilValue_of_stuck notRight (.inl notLeft), sub_self]

/-- A branch that leaves `u`, or that keeps out of `set`, is worth less than
one by a part of the margin. -/
private theorem expect_le_of_not_staysAndHits
    (query : solver.Query left right) (stochastic : solver.table.Stochastic)
    (weight : solver.table.LeastWeight least) {u set : BitSet} {margin : ℚ}
    (small : 0 < margin)
    (outside : ∀ state, u.contains state = false → ∀ steps,
      solver.untilValue left right steps state ≤ 1 - margin)
    {state steps : Nat} {branch : Branch ℚ}
    (member : branch ∈ solver.table.branches state)
    (bad : Table.staysAndHits u set branch = false)
    (before : ∀ other, set.contains other = false →
      solver.untilValue left right steps other ≤ 1 - least * margin) :
    branch.expect (solver.untilValue left right steps) ≤
      1 - least * margin := by
  have weights := query.weights.branch member
  have total := stochastic.branch member
  rw [Table.staysAndHits, Bool.and_eq_false_iff] at bad
  rcases bad with leaves | misses
  · obtain ⟨target, inSupport, notU⟩ := List.all_eq_false.mp leaves
    obtain ⟨chosen, entryMember, positive⟩ := Table.mem_support.mp inSupport
    have likely : least ≤ chosen := weight.bound member _ entryMember positive
    have away := outside target (by simpa using notU) steps
    have contribution := Branch.mul_le_expect weights
      (f := fun state => 1 - solver.untilValue left right steps state)
      (fun entry _ _ =>
        sub_nonneg.mpr (query.untilValue_le_one stochastic steps entry.1))
      entryMember
    rw [Branch.expect_sub, Branch.expect_const, total, one_mul] at contribution
    have scaled : least * margin ≤
        chosen * (1 - solver.untilValue left right steps target) :=
      mul_le_mul likely (by linarith) small.le positive.le
    linarith
  · have noHit := List.any_eq_false.mp misses
    calc
      branch.expect (solver.untilValue left right steps)
          ≤ branch.expect fun _ => 1 - least * margin := by
        apply Branch.expect_mono weights
        rintro ⟨target, chosen⟩ entryMember positive
        apply before
        simpa using noHit target
          (Table.mem_support.mpr ⟨chosen, entryMember, positive⟩)
      _ = 1 - least * margin := by rw [Branch.expect_const, total, one_mul]

/-- What is closed among candidates outside of which the values stay away from
one has the same property. -/
theorem refuted_of_closed (query : solver.Query left right)
    (stochastic : solver.table.Stochastic)
    (weight : solver.table.LeastWeight least) {u set : BitSet}
    (refuted : Refuted solver left right u)
    (around : ∀ state, right.contains state = true →
      set.contains state = true)
    (closed : Closed (solver.table.staysAndLeads solver.directions left u)
      solver.numStates set) :
    Refuted solver left right set := by
  obtain ⟨margin, small, atMost, outside⟩ := refuted
  have part : least * margin ≤ margin :=
    mul_le_of_le_one_left small.le weight.atMost
  refine ⟨least * margin, mul_pos weight.positive small, part.trans atMost, ?_⟩
  intro state absent steps
  revert absent
  refine query.untilValue_induction
    (fun _ state value => set.contains state = false →
      value ≤ 1 - least * margin) ?_ ?_ ?_ steps state
  · intro _ state inRight absent
    simp [around state inRight] at absent
  · intro _ _ _ _
    linarith
  · intro steps state inLeft notRight branches before absent
    cases candidate : u.contains state with
    | false => exact (outside state candidate _).trans (by linarith)
    | true =>
        have fails : Table.qualifies (solver.table.branches state)
            (solver.directions.getD state none)
            (Table.staysAndHits u set) = false := by
          by_contra qualifies
          have leads : solver.table.staysAndLeads solver.directions left u set
              state = true := by
            rw [Table.staysAndLeads, inLeft, candidate, Bool.true_and,
              Bool.true_and]
            simpa using qualifies
          have present := closed state (query.lt_of_left state inLeft) leads
          simp [absent] at present
        obtain ⟨branch, member, bad, value⟩ :=
          query.exists_bad_branch inLeft notRight branches fails steps
        exact value.trans (query.expect_le_of_not_staysAndHits stochastic weight
          small outside member bad before)

end Solver.Query

/-- The states of probability one are those whose step-bounded values come
arbitrarily close to one. -/
theorem Solver.mem_oneSet_iff {ε : Type} (solver : Solver ℚ)
    (left right : BitSet) (query : solver.Query left right)
    (stochastic : solver.table.Stochastic) :
    ∃ sure, solver.table.checkedOneSet (ε := ε) solver.directions left right =
        .ok sure ∧
      ∀ state, state < solver.numStates →
        (sure.states.contains state = true ↔
          ∀ gap, 0 < gap → ∃ steps value,
            solver.BoundedValue left right steps state value ∧
              1 - gap < value) := by
  obtain ⟨least, weight⟩ := solver.table.exists_leastWeight
  have kept : ∀ u : Table.Witnessed,
      Query.Refuted solver left right u.states →
      Query.Refuted solver left right
        (solver.table.shrinkSure solver.directions left right u).states := by
    intro u refuted
    obtain ⟨count, grown, closed⟩ :=
      solver.table.states_shrinkSure solver.directions left right u
    exact query.refuted_of_closed stochastic weight refuted
      (fun _ => grown.contains_of_start) closed
  obtain ⟨last, refuted, same, found⟩ :=
    solver.table.sure?_spec solver.directions left right
      (fun u => Query.Refuted solver left right u.states) query.refuted_full kept
  refine ⟨solver.table.shrinkSure solver.directions left right last, ?_, ?_⟩
  · simp only [Table.checkedOneSet, Table.oneSet, Attempt.require,
      query.knowsDirections, found, if_true]
    rfl
  intro state inside
  simp only [query.boundedValue_iff inside]
  constructor
  · intro member gap positive
    obtain ⟨count, grown, -⟩ :=
      solver.table.states_shrinkSure solver.directions left right last
    have fraction : 1 - least ^ count < 1 :=
      sub_lt_self 1 (pow_pos weight.positive count)
    obtain ⟨passes, close⟩ := exists_pow_lt_of_lt_one positive fraction
    have value := query.gap_le_pow stochastic weight grown same passes
      (same state ▸ member)
    exact ⟨_, _, rfl, by linarith⟩
  · intro approaches
    by_contra absent
    obtain ⟨margin, positive, -, away⟩ := kept last refuted
    obtain ⟨steps, value, rfl, close⟩ := approaches margin positive
    have bound := away state (by simpa using absent) steps
    linarith

theorem Solver.standoff_oneSet :
    standoff.table.Stochastic ∧
      ∃ sure, standoff.table.checkedOneSet (ε := Empty) standoff.directions
          (.ofList [0, 1, 2, 4]) (.ofList [3]) = .ok sure ∧
        ∀ state, state < 5 →
          (sure.states.contains state = true ↔
            ∀ gap, 0 < gap → ∃ steps value,
              standoff.BoundedValue (.ofList [0, 1, 2, 4]) (.ofList [3]) steps
                state value ∧ 1 - gap < value) :=
  have stochastic : standoff.table.Stochastic := by decide +kernel
  ⟨stochastic, mem_oneSet_iff standoff _ _ standoff_query stochastic⟩

end Markov
