import Mathlib.Data.List.SplitBy
import Markov.Proofs.Countdown

/-!
# Compression without loss

A table of recorded actions is kept as one rule for every maximal run of equal
actions.  Decoding such a row gives back the recorded actions, and the rows are
as short as they can be: neighbouring rules take different actions.
-/

namespace Markov.CountdownStrategy

/-! ## Runs -/

theorem length_splitBy_concat_same (l : List Nat) (last : Nat) :
    ((l ++ [last] ++ [last]).splitBy (· == ·)).length =
      ((l ++ [last]).splitBy (· == ·)).length := by
  have filled : (l ++ [last]).splitBy (· == ·) ≠ [] :=
    List.splitBy_ne_nil.mpr (by simp)
  obtain ⟨runs, run, shape⟩ := (List.eq_nil_or_concat _).resolve_left filled
  rw [List.concat_eq_append] at shape
  obtain ⟨whole, nonempty, constant, apart⟩ := List.splitBy_eq_iff.mp shape
  have nonempty : [] ∉ runs ∧ run ≠ [] := by simpa [eq_comm] using nonempty
  have ends : run.getLast? = some last := by
    have same := congrArg List.getLast? whole
    simpa [nonempty.2] using same.symm
  obtain ⟨before, -, between⟩ := List.isChain_append.mp apart
  have extended : (l ++ [last] ++ [last]).splitBy (· == ·) =
      runs ++ [run ++ [last]] := by
    refine List.splitBy_eq_iff.mpr ⟨by simp [whole], by simp [nonempty.1],
      ?_, List.isChain_append.mpr ⟨before, .singleton _, ?_⟩⟩
    · intro piece member
      rcases List.mem_append.mp member with earlier | final
      · exact constant piece (List.mem_append_left _ earlier)
      · rw [List.mem_singleton.mp final]
        refine List.isChain_append.mpr
          ⟨constant run (by simp), .singleton _, ?_⟩
        simp [ends]
    · rintro earlier found _ ⟨⟩
      obtain ⟨first, second, different⟩ := between earlier found run rfl
      exact ⟨first, by simp, by rwa [List.head_append_of_ne_nil second]⟩
  rw [extended, shape]
  simp

theorem isChain_compress (pivot action : Nat) (rest : List Nat) :
    (compress pivot action rest).IsChain
      fun earlier later => earlier.action ≠ later.action := by
  induction rest generalizing pivot action with
  | nil => exact .singleton _
  | cons next rest ih =>
      rw [compress]
      split
      · exact ih pivot action
      · rename_i different
        obtain ⟨more, shape⟩ :=
          exists_compress_eq_cons (rest.length + 1) next rest
        have chain := ih (rest.length + 1) next
        rw [shape] at chain ⊢
        exact List.isChain_cons_cons.mpr ⟨Ne.symm different, chain⟩

theorem length_compress (pivot action : Nat) (rest : List Nat) :
    (compress pivot action rest).length =
      ((rest.reverse ++ [action]).splitBy (· == ·)).length := by
  induction rest generalizing pivot action with
  | nil => rfl
  | cons next rest ih =>
      rw [compress, List.reverse_cons]
      split
      · rename_i same
        subst same
        rw [ih, length_splitBy_concat_same]
      · rename_i different
        have cut : (rest.reverse ++ [next] ++ [action]).splitBy (· == ·) =
            (rest.reverse ++ [next]).splitBy (· == ·) ++ [[action]] :=
          List.splitBy_append_cons [] (by simp [different])
        rw [cut, List.length_append, List.length_cons, ih]
        rfl

/-- With no step remaining the last rule applies, as with one. -/
theorem decode_zero {row : List Rule}
    (positive : ∀ rule ∈ row, 0 < rule.pivot)
    (strict : row.Pairwise fun earlier later => later.pivot < earlier.pivot) :
    decode row 0 = decode row 1 := by
  induction row with
  | nil => rfl
  | cons first row ih =>
      cases row with
      | nil => simp
      | cons second row =>
          obtain ⟨-, positive⟩ := List.forall_mem_cons.mp positive
          obtain ⟨below, strict⟩ := List.pairwise_cons.mp strict
          have descends := below second List.mem_cons_self
          have reached := positive second List.mem_cons_self
          rw [decode_cons_cons descends, decode_cons_cons descends,
            if_neg (Nat.not_lt_zero _), if_neg (by omega), ih positive strict]

theorem pivot_pos_of_mem_compress {pivot action : Nat} {rest : List Nat}
    (positive : 0 < pivot) :
    ∀ rule ∈ compress pivot action rest, 0 < rule.pivot := by
  induction rest generalizing pivot action with
  | nil =>
      intro rule member
      rw [List.mem_singleton.mp member]
      exact positive
  | cons next rest ih =>
      rw [compress]
      split
      · exact ih positive
      · exact List.forall_mem_cons.mpr ⟨positive, ih (Nat.succ_pos _)⟩

theorem compressRow_spec {actions : List Nat} (filled : actions ≠ []) :
    (∃ first, (compressRow actions).head? = some first ∧
      first.pivot = actions.length) ∧
    ((compressRow actions).Pairwise fun earlier later =>
      later.pivot < earlier.pivot) ∧
    ((compressRow actions).IsChain fun earlier later =>
      earlier.action ≠ later.action) ∧
    (compressRow actions).length = (actions.splitBy (· == ·)).length ∧
    ∀ rule ∈ compressRow actions, 0 < rule.pivot := by
  obtain ⟨earlier, last, rfl⟩ :=
    (List.eq_nil_or_concat actions).resolve_left filled
  have above : earlier.reverse.length < earlier.length + 1 := by simp
  rw [compressRow_concat]
  refine ⟨?_, pairwise_compress last above, isChain_compress _ _ _, ?_,
    pivot_pos_of_mem_compress (Nat.succ_pos _)⟩
  · obtain ⟨more, first⟩ :=
      exists_compress_eq_cons (earlier.length + 1) last earlier.reverse
    rw [first, List.length_concat]
    exact ⟨_, rfl, rfl⟩
  · rw [length_compress, List.reverse_reverse, List.concat_eq_append]

/-! ## Tables of recorded actions -/

/-- Actions for every state and every number of steps up to a positive bound,
all of them signed words. -/
structure Recorded (actions : List (List Nat)) (bound : Nat) : Prop where
  positive : 0 < bound
  steps : bound < Word.signedLimit
  lengths : ∀ row ∈ actions, row.length = bound
  words : ∀ row ∈ actions, ∀ action ∈ row, action < Word.signedLimit

theorem badCount?_eq_some {actions : List (List Nat)} {bound state : Nat}
    {row : List Nat} (listed : actions[state]? = some row)
    (miscounted : row.length ≠ bound ∨ bound = 0)
    (counted : ∀ earlier < state, ∀ other, actions[earlier]? = some other →
      other.length = bound ∧ bound ≠ 0) :
    badCount? bound actions = some (state, row) := by
  obtain ⟨inside, rfl⟩ := List.getElem?_eq_some_iff.mp listed
  have found : (actions.zipIdx.find? fun entry =>
      entry.1.length ≠ bound || bound = 0) = some (actions[state], state) := by
    refine List.find?_eq_some_iff_getElem.mpr
      ⟨by simpa using miscounted, state, by simpa using inside, by simp, ?_⟩
    intro earlier before
    have right := counted earlier before _
      (List.getElem?_eq_getElem (before.trans inside))
    simpa using right
  rw [badCount?, found]
  rfl

theorem ofActions_eq_error {actions : List (List Nat)} {bound state : Nat}
    {row : List Nat} (found : badCount? bound actions = some (state, row)) :
    ofActions actions bound =
      .error ⟨state, .actionCount bound row.length⟩ := by
  rw [ofActions, found]
  rfl

variable {R : Type}

/-- Compressing a table of actions loses nothing.  With one step remaining up to
the bound, the strategy takes the recorded action, and with none the one
recorded for one step.  Each row is kept as one rule for every maximal run of
equal actions.  A table is rejected at the first state that does not have as
many actions as the bound, and at the first state if the bound is zero. -/
theorem ofActions_lossless (actions : List (List Nat)) (bound : Nat) :
    (Recorded actions bound → ∃ s, ofActions actions bound = .ok s ∧
      s.bound = bound ∧ s.table.length = actions.length ∧
      ∀ (state : Nat) row, actions[state]? = some row →
        (∀ memory, 1 ≤ memory → memory ≤ bound →
          ∃ action, row[memory - 1]? = some action ∧
            s.actionAt (R := R) state memory = .ok action) ∧
        (∃ action, row[0]? = some action ∧
          s.actionAt (R := R) state 0 = .ok action) ∧
        ∃ kept, s.table[state]? = some kept ∧
          (∃ first, kept.head? = some first ∧ first.pivot = bound) ∧
          (kept.Pairwise fun earlier later => later.pivot < earlier.pivot) ∧
          (kept.IsChain fun earlier later =>
            earlier.action ≠ later.action) ∧
          kept.length = (row.splitBy (· == ·)).length) ∧
    (0 < bound → ∀ state, IsLeast {index | ∃ row,
        actions[index]? = some row ∧ row.length ≠ bound} state →
      ∃ row, actions[state]? = some row ∧ ofActions actions bound =
        .error ⟨state, .actionCount bound row.length⟩) ∧
    (bound = 0 → ∀ row, actions[0]? = some row → ofActions actions bound =
      .error ⟨0, .actionCount bound row.length⟩) := by
  refine ⟨fun recorded => ?_, ?_, ?_⟩
  · obtain ⟨s, made, table, steps, -⟩ := ofActions_eq_ok recorded.positive
      recorded.steps recorded.lengths recorded.words
    refine ⟨s, made, steps, by rw [table, List.length_map], ?_⟩
    intro state row listed
    have length := recorded.lengths row (List.mem_of_getElem? listed)
    have filled : row ≠ [] :=
      List.length_pos_iff.mp (length ▸ recorded.positive)
    have kept : s.table[state]? = some (compressRow row) := by
      simp [table, listed]
    obtain ⟨first, strict, different, runs, reached⟩ :=
      compressRow_spec filled
    have acts : ∀ memory, 1 ≤ memory → memory ≤ bound →
        ∃ action, row[memory - 1]? = some action ∧
          s.actionAt (R := R) state memory = .ok action := by
      intro memory positive within
      have decoded := decode_compressRow positive (within.trans length.ge)
      have inside : memory - 1 < row.length := by omega
      refine ⟨row[memory - 1], List.getElem?_eq_getElem inside, ?_⟩
      rw [actionAt_of_row kept, decoded, List.getD_eq_getElem?_getD,
        List.getElem?_eq_getElem inside]
      rfl
    refine ⟨acts, ?_, compressRow row, kept, length ▸ first, strict, different,
      runs⟩
    obtain ⟨action, recorded, taken⟩ := acts 1 le_rfl recorded.positive
    refine ⟨action, recorded, ?_⟩
    rw [actionAt_of_row kept] at taken ⊢
    rw [decode_zero reached strict, taken]
  · rintro positive state ⟨⟨row, listed, miscounted⟩, least⟩
    refine ⟨row, listed, ofActions_eq_error
      (badCount?_eq_some listed (.inl miscounted) ?_)⟩
    intro earlier before other found
    refine ⟨?_, positive.ne'⟩
    by_contra different
    exact Nat.not_lt.mpr (least ⟨other, found, different⟩) before
  · intro zero row listed
    exact ofActions_eq_error
      (badCount?_eq_some listed (.inr zero) fun _ before => by omega)

/-- Two rows of five actions, and tables with a row that is too short and
without steps. -/
theorem lanterns_lossless :
    (∃ s, ofActions [[0, 1, 1, 0, 0], [2, 2, 2, 2, 2]] 5 = .ok s ∧
      s.actionAt (R := Int) 0 3 = .ok 1 ∧ s.actionAt (R := Int) 0 0 = .ok 0 ∧
      ∃ kept, s.table[0]? = some kept ∧ kept.length = 3) ∧
    (∃ defect, ofActions [[0, 1], [3], [1, 0]] 2 = .error ⟨1, defect⟩) ∧
    ∃ defect, ofActions [[], [4]] 0 = .error ⟨0, defect⟩ := by
  obtain ⟨keeps, -, -⟩ :=
    ofActions_lossless (R := Int) [[0, 1, 1, 0, 0], [2, 2, 2, 2, 2]] 5
  obtain ⟨-, reports, -⟩ :=
    ofActions_lossless (R := Int) [[0, 1], [3], [1, 0]] 2
  obtain ⟨-, -, empty⟩ := ofActions_lossless (R := Int) [[], [4]] 0
  refine ⟨?_, ?_, ⟨_, empty rfl [] rfl⟩⟩
  · obtain ⟨s, made, -, -, rows⟩ :=
      keeps ⟨by decide, by decide, by decide, by decide⟩
    obtain ⟨acts, ⟨_, first, start⟩, kept, listed, -, -, -, runs⟩ := rows 0 _ rfl
    obtain ⟨_, third, taken⟩ := acts 3 (by decide) (by decide)
    cases first
    cases third
    exact ⟨s, made, taken, start, kept, listed, runs⟩
  · obtain ⟨row, -, rejected⟩ := reports (by decide) 1 (by
      refine ⟨⟨[3], rfl, by decide⟩, ?_⟩
      rintro index ⟨row, listed, different⟩
      cases index with
      | zero =>
          cases listed
          exact (different rfl).elim
      | succ index => omega)
    exact ⟨_, rejected⟩

end Markov.CountdownStrategy
