import Markov.Proofs.Acceptance

/-!
# The rule that applies

With a number of steps remaining, a row of rules is looked up at the smallest
pivot that reaches this number.  `Selects` names the rule that applies: among
rules with that pivot the first one if exactly so many steps remain, the last
one if fewer do, and the first rule of the row if no pivot reaches the number.
In a row that descends, a larger number never selects a later rule.
-/

namespace Markov.CountdownStrategy

/-- The pivots of a row that reach a number of steps. -/
def reaching (row : List Rule) (memory : Nat) : Set Nat :=
  {pivot | memory ≤ pivot ∧ ∃ rule ∈ row, rule.pivot = pivot}

/-- The places of the rules with a pivot. -/
def places (row : List Rule) (pivot : Nat) : Set Nat :=
  {index | ∃ rule, row[index]? = some rule ∧ rule.pivot = pivot}

/-- The place of the rule that applies when `memory` steps remain. -/
inductive Selects (row : List Rule) (memory index : Nat) : Prop where
  | exactly (least : IsLeast (reaching row memory) memory)
      (place : IsLeast (places row memory) index)
  | within {pivot : Nat} (least : IsLeast (reaching row memory) pivot)
      (fewer : memory < pivot) (place : IsGreatest (places row pivot) index)
  | beyond (unreached : reaching row memory = ∅) (place : index = 0)

variable {row : List Rule} {memory : Nat}

theorem mem_reaching {rule : Rule} (member : rule ∈ row)
    (covered : memory ≤ rule.pivot) : rule.pivot ∈ reaching row memory :=
  ⟨covered, rule, member, rfl⟩

theorem mem_reaching_of_places {pivot index : Nat}
    (place : index ∈ places row pivot) (covered : memory ≤ pivot) :
    pivot ∈ reaching row memory := by
  obtain ⟨rule, listed, rfl⟩ := place
  exact mem_reaching (List.mem_of_getElem? listed) covered

theorem rel_of_getElem? {r : Rule → Rule → Prop} (ordered : row.Pairwise r)
    {earlier later : Nat} (before : earlier < later) {first second : Rule}
    (here : row[earlier]? = some first) (there : row[later]? = some second) :
    r first second := by
  obtain ⟨inside, rfl⟩ := List.getElem?_eq_some_iff.mp here
  obtain ⟨alsoInside, rfl⟩ := List.getElem?_eq_some_iff.mp there
  exact List.pairwise_iff_getElem.mp ordered _ _ inside alsoInside before

theorem le_of_places {earlier later less more : Nat}
    (descending : row.Pairwise fun earlier later =>
      later.pivot ≤ earlier.pivot)
    (before : earlier < later) (high : earlier ∈ places row more)
    (low : later ∈ places row less) : less ≤ more := by
  obtain ⟨first, here, rfl⟩ := high
  obtain ⟨second, there, rfl⟩ := low
  exact rel_of_getElem? descending before here there

/-- The more steps remain, the earlier is the rule that applies. -/
theorem Selects.le {less more low high : Nat}
    (descending : row.Pairwise fun earlier later =>
      later.pivot ≤ earlier.pivot)
    (fewer : less ≤ more) (few : Selects row less low)
    (many : Selects row more high) : high ≤ low := by
  by_contra! before
  -- A pivot that reaches the larger number reaches the smaller one too, and
  -- the rule for the smaller number would have to come first.
  cases many with
  | beyond _ start => omega
  | exactly _ place =>
      have reached := mem_reaching_of_places place.1 fewer
      cases few with
      | beyond unreached _ => simp [unreached] at reached
      | exactly _ other =>
          have above := le_of_places descending before other.1 place.1
          obtain rfl : less = more := le_antisymm fewer above
          exact Nat.not_le.mpr before (place.2 other.1)
      | within least _ other =>
          have above := le_of_places descending before other.1 place.1
          obtain rfl := le_antisymm above (least.2 reached)
          exact Nat.not_le.mpr before (place.2 other.1)
  | within _ beyond place =>
      have reached := mem_reaching_of_places place.1
        (fewer.trans beyond.le)
      cases few with
      | beyond unreached _ => simp [unreached] at reached
      | exactly _ other =>
          have above := le_of_places descending before other.1 place.1
          omega
      | within least _ other =>
          have above := le_of_places descending before other.1 place.1
          obtain rfl := le_antisymm above (least.2 reached)
          exact Nat.not_le.mpr before (other.2 place.1)

theorem exists_takeWhile_append
    (descending : row.Pairwise fun earlier later =>
      later.pivot ≤ earlier.pivot) (memory : Nat) :
    ∃ front back, row = front ++ back ∧
      row.takeWhile (memory ≤ ·.pivot) = front ∧
      (∀ rule ∈ front, memory ≤ rule.pivot) ∧
      ∀ rule ∈ back, rule.pivot < memory := by
  induction row with
  | nil => exact ⟨[], [], rfl, rfl, by simp, by simp⟩
  | cons first row ih =>
      obtain ⟨below, descending⟩ := List.pairwise_cons.mp descending
      by_cases covered : memory ≤ first.pivot
      · obtain ⟨front, back, rfl, taken, above, less⟩ := ih descending
        refine ⟨first :: front, back, rfl, ?_, ?_, less⟩
        · rw [List.takeWhile_cons_of_pos (by simpa using covered), taken]
        · exact List.forall_mem_cons.mpr ⟨covered, above⟩
      · refine ⟨[], first :: row, rfl, ?_, by simp, ?_⟩
        · rw [List.takeWhile_cons_of_neg (by simpa using covered)]
        · refine List.forall_mem_cons.mpr ⟨Nat.not_le.mp covered, ?_⟩
          intro rule member
          exact (below rule member).trans_lt (Nat.not_le.mp covered)

section LastReaching

variable {initial back : List Rule} {last : Rule}

/-- The last rule that reaches a number has the smallest pivot that does. -/
theorem isLeast_reaching
    (descending : (initial ++ last :: back).Pairwise fun earlier later =>
      later.pivot ≤ earlier.pivot)
    (covered : memory ≤ last.pivot)
    (below : ∀ rule ∈ back, rule.pivot < memory) :
    IsLeast (reaching (initial ++ last :: back) memory) last.pivot := by
  constructor
  · exact mem_reaching (by simp) covered
  · rintro pivot ⟨reaches, rule, member, rfl⟩
    rcases List.mem_append.mp member with before | after
    · exact (List.pairwise_append.mp descending).2.2 rule before last
        List.mem_cons_self
    · rcases List.mem_cons.mp after with rfl | later
      · exact le_rfl
      · exact (Nat.not_lt.mpr reaches (below rule later)).elim

theorem isGreatest_places (covered : memory ≤ last.pivot)
    (below : ∀ rule ∈ back, rule.pivot < memory) :
    IsGreatest (places (initial ++ last :: back) last.pivot)
      initial.length := by
  constructor
  · exact ⟨last, by simp, rfl⟩
  · rintro index ⟨rule, listed, same⟩
    by_contra! after
    rw [List.getElem?_append_right after.le] at listed
    obtain ⟨offset, later⟩ : ∃ offset, index - initial.length = offset + 1 :=
      ⟨index - initial.length - 1, by omega⟩
    rw [later, List.getElem?_cons_succ] at listed
    have less := below rule (List.mem_of_getElem? listed)
    omega

end LastReaching

/-- Decoding takes the rule that applies. -/
theorem exists_selects_decode (filled : row ≠ [])
    (descending : row.Pairwise fun earlier later =>
      later.pivot ≤ earlier.pivot) (memory : Nat) :
    ∃ index rule, Selects row memory index ∧ row[index]? = some rule ∧
      decode row memory = some rule.action := by
  obtain ⟨front, back, shape, taken, above, below⟩ :=
    exists_takeWhile_append descending memory
  rw [decode, taken]
  rcases List.eq_nil_or_concat front with rfl | ⟨initial, last, rfl⟩
  · obtain ⟨first, rest, rfl⟩ := List.exists_cons_of_ne_nil filled
    refine ⟨0, first, .beyond ?_ rfl, rfl, rfl⟩
    rw [Set.eq_empty_iff_forall_notMem]
    rintro pivot ⟨covered, rule, member, rfl⟩
    rw [List.nil_append] at shape
    exact Nat.not_lt.mpr covered (below rule (shape ▸ member))
  · have covered : memory ≤ last.pivot := above last (by simp)
    obtain rfl : row = initial ++ last :: back := by simpa using shape
    have least := isLeast_reaching descending covered below
    rw [List.concat_eq_append, List.getLast?_concat]
    by_cases same : last.pivot = memory
    · -- Exactly so many steps remain as the pivot says.
      rw [same] at least
      obtain ⟨-, first, member, reached⟩ := least.1
      have listed : ((initial ++ last :: back).find?
          (·.pivot = memory)).isSome = true :=
        List.find?_isSome.mpr ⟨first, member, decide_eq_true reached⟩
      obtain ⟨rule, found⟩ := Option.isSome_iff_exists.mp listed
      obtain ⟨pivot, index, inside, here, others⟩ :=
        List.find?_eq_some_iff_getElem.mp found
      refine ⟨index, rule, .exactly least ⟨⟨rule, ?_, ?_⟩, ?_⟩, ?_, ?_⟩
      · exact List.getElem?_eq_some_iff.mpr ⟨inside, here⟩
      · simpa using pivot
      · rintro other ⟨earlier, found, equal⟩
        by_contra! before
        obtain ⟨_, rfl⟩ := List.getElem?_eq_some_iff.mp found
        simpa [equal] using others other before
      · exact List.getElem?_eq_some_iff.mpr ⟨inside, here⟩
      · simp [same, found]
    · refine ⟨initial.length, last, .within least (by omega)
        (isGreatest_places covered below), by simp, ?_⟩
      simp [same]

theorem selects_iff_of_strict
    (strict : row.Pairwise fun earlier later => later.pivot < earlier.pivot)
    (reached : (reaching row memory).Nonempty) {index : Nat} {rule : Rule}
    (listed : row[index]? = some rule) :
    Selects row memory index ↔
      memory ≤ rule.pivot ∧
        ∀ next, row[index + 1]? = some next → next.pivot < memory := by
  constructor
  · intro selected
    cases selected with
    | beyond unreached _ => exact (reached.ne_empty unreached).elim
    | exactly _ place =>
        obtain ⟨⟨other, found, rfl⟩, -⟩ := place
        cases listed.symm.trans found
        refine ⟨le_rfl, fun next there => ?_⟩
        exact rel_of_getElem? strict (Nat.lt_succ_self index) listed there
    | within least fewer place =>
        obtain ⟨⟨other, found, rfl⟩, -⟩ := place
        cases listed.symm.trans found
        refine ⟨fewer.le, fun next there => ?_⟩
        have less := rel_of_getElem? strict (Nat.lt_succ_self index)
          listed there
        by_contra! covered
        have closer := least.2
          (mem_reaching (List.mem_of_getElem? there) covered)
        omega
  · rintro ⟨covered, ends⟩
    obtain ⟨initial, back, rfl, rfl⟩ : ∃ initial back,
        row = initial ++ rule :: back ∧ initial.length = index := by
      obtain ⟨inside, rfl⟩ := List.getElem?_eq_some_iff.mp listed
      exact ⟨row.take index, row.drop (index + 1), by simp,
        List.length_take_of_le inside.le⟩
    have below : ∀ later ∈ back, later.pivot < memory := by
      cases back with
      | nil => simp
      | cons next back =>
          have ended := ends next (by simp)
          have descends :=
            (List.pairwise_cons.mp (List.pairwise_append.mp strict).2.1).2
          refine List.forall_mem_cons.mpr ⟨ended, fun later member => ?_⟩
          exact ((List.pairwise_cons.mp descends).1 later member).trans ended
    have least :=
      isLeast_reaching (strict.imp fun less => less.le) covered below
    rcases covered.eq_or_lt with rfl | fewer
    · refine .exactly least ⟨⟨rule, listed, rfl⟩, ?_⟩
      rintro other ⟨earlier, found, same⟩
      by_contra! before
      have less := rel_of_getElem? strict before found listed
      omega
    · exact .within least fewer (isGreatest_places covered below)

/-! ## Accepted strategies -/

variable {R : Type} {s : CountdownStrategy} {rows : List (List Int)}
  {bound : Int} {state : Nat}

theorem MadeFrom.reaching_nonempty_iff (made : s.MadeFrom rows bound)
    (listed : row ∈ s.table) (memory : Nat) :
    (reaching row memory).Nonempty ↔ memory ≤ s.bound := by
  obtain ⟨⟨first, head, reaches⟩, descending⟩ := made.canonical _ listed
  obtain ⟨rest, rfl⟩ := List.head?_eq_some_iff.mp head
  constructor
  · rintro ⟨pivot, covered, rule, member, rfl⟩
    rw [← reaches]
    rcases List.mem_cons.mp member with rfl | later
    · exact covered
    · exact covered.trans ((List.pairwise_cons.mp descending).1 rule later)
  · intro within
    exact ⟨_, mem_reaching List.mem_cons_self (within.trans reaches.ge)⟩

theorem Selects.exists_isLeast {index : Nat}
    (selected : Selects row memory index)
    (reached : (reaching row memory).Nonempty) :
    ∃ pivot, IsLeast (reaching row memory) pivot := by
  cases selected with
  | exactly least _ => exact ⟨memory, least⟩
  | within least _ _ => exact ⟨_, least⟩
  | beyond unreached _ => exact (reached.ne_empty unreached).elim

theorem MadeFrom.exists_selects (made : s.MadeFrom rows bound)
    (listed : s.table[state]? = some row) (memory : Nat) :
    ∃ index rule, Selects row memory index ∧ row[index]? = some rule ∧
      s.actionAt (R := R) state memory = .ok rule.action := by
  have canonical := made.canonical _ (List.mem_of_getElem? listed)
  obtain ⟨index, rule, selected, found, decoded⟩ :=
    exists_selects_decode canonical.ne_nil canonical.descending memory
  refine ⟨index, rule, selected, found, ?_⟩
  rw [actionAt_of_row listed, decoded]
  rfl

/-- The action of an accepted strategy as a function of the steps that remain.
The row is looked up at its smallest pivot that reaches this number, which there
is up to the bound; the action is that of the rule that is selected.  The more
steps remain, the earlier is the selected rule, and where no two pivots are
equal, each rule applies from its pivot down to the next one. -/
theorem actionAt_piecewise (made : s.MadeFrom rows bound)
    (listed : s.table[state]? = some row) :
    (∀ memory, ((∃ pivot, IsLeast (reaching row memory) pivot) ↔
        memory ≤ s.bound) ∧
      (reaching row memory = ∅ ↔ s.bound < memory)) ∧
    (∀ memory, ∃ index rule, Selects row memory index ∧
      row[index]? = some rule ∧
      s.actionAt (R := R) state memory = .ok rule.action) ∧
    (∀ less more low high, less ≤ more → Selects row less low →
      Selects row more high → high ≤ low) ∧
    (row.Pairwise (fun earlier later => later.pivot < earlier.pivot) →
      ∀ memory ≤ s.bound, ∀ (index : Nat) rule, row[index]? = some rule →
        (Selects row memory index ↔ memory ≤ rule.pivot ∧
          ∀ next, row[index + 1]? = some next → next.pivot < memory)) := by
  have member := List.mem_of_getElem? listed
  refine ⟨fun memory => ?_, made.exists_selects listed, ?_, ?_⟩
  · have reached := made.reaching_nonempty_iff member memory
    refine ⟨⟨?_, ?_⟩, ?_⟩
    · rintro ⟨pivot, least⟩
      exact reached.mp ⟨pivot, least.1⟩
    · intro within
      obtain ⟨index, rule, selected, -, -⟩ :=
        made.exists_selects (R := R) listed memory
      exact selected.exists_isLeast (reached.mpr within)
    · rw [← Set.not_nonempty_iff_eq_empty, reached, Nat.not_le]
  · intro less more low high fewer few many
    exact few.le (made.canonical _ member).descending fewer many
  · intro strict memory within index rule found
    exact selects_iff_of_strict strict
      ((made.reaching_nonempty_iff member memory).mpr within) found

/-- Four steps are fewer than the pivot of three rules, of which the last one
applies. -/
theorem dimmer_piecewise :
    (∃ (index : Nat) (rule : Rule),
      Selects [⟨5, 4⟩, ⟨5, 3⟩, ⟨5, 2⟩, ⟨3, 1⟩, ⟨3, 0⟩] 4 index ∧
      rule.action = 2 ∧ dimmer.actionAt (R := Int) 0 4 = .ok rule.action) ∧
    Selects [⟨5, 7⟩, ⟨2, 6⟩] 3 0 ∧ ¬Selects [⟨5, 7⟩, ⟨2, 6⟩] 2 0 := by
  have first : dimmer.table[0]? = some _ := rfl
  have second : dimmer.table[1]? = some _ := rfl
  obtain ⟨-, applies, -, -⟩ :=
    actionAt_piecewise (R := Int) dimmer_madeFrom first
  obtain ⟨-, -, -, intervals⟩ :=
    actionAt_piecewise (R := Int) dimmer_madeFrom second
  have strict := intervals (by decide)
  obtain ⟨index, rule, selected, -, acts⟩ := applies 4
  refine ⟨⟨index, rule, selected, ?_, acts⟩, ?_, ?_⟩
  · exact (Except.ok.inj acts).symm
  · exact (strict 3 (by decide) 0 _ rfl).mpr ⟨by decide, by simp⟩
  · rw [strict 2 (by decide) 0 _ rfl]
    simp

end Markov.CountdownStrategy
