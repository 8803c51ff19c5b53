import Markov.Proofs.Acceptance

/-!
# Decision tables of recorded actions

A table keeps one rule for every run of equal actions.  Reading the rules back
is no loss: the compressed row decodes to the action that was recorded for each
number of remaining steps, and a table of such rows is accepted as it is.
-/

namespace Markov

theorem Word.toInteger_eq {n : Nat} (small : n < Word.signedLimit) :
    Word.toInteger n = n := by
  simp only [Word.signedLimit, Word.limit] at small
  unfold Word.toInteger Word.limit
  rw [Int.bmod_eq_of_le]
  · omega
  · omega

theorem Word.isInteger_toInteger (n : Nat) :
    Word.isInteger (Word.toInteger n) = true := by
  have positive : 0 < Word.limit := by decide
  have low := Int.le_bmod (x := n) positive
  have high := Int.bmod_lt (x := n) positive
  have halves : Word.limit = 2 * Word.signedLimit := rfl
  unfold Word.isInteger Word.toInteger
  rw [Bool.and_eq_true, decide_eq_true_eq, decide_eq_true_eq]
  omega

namespace CountdownStrategy

/-! ## Decoding -/

@[simp]
theorem decode_singleton (rule : Rule) (memory : Nat) :
    decode [rule] memory = some rule.action := by
  unfold decode
  by_cases covered : memory ≤ rule.pivot
  · by_cases same : rule.pivot = memory
    · simp [same]
    · simp [covered, same]
  · simp [covered]

theorem decode_cons_cons {first second : Rule} {rest : List Rule}
    (descending : second.pivot < first.pivot) (memory : Nat) :
    decode (first :: second :: rest) memory =
      if second.pivot < memory then some first.action
      else decode (second :: rest) memory := by
  by_cases beyond : second.pivot < memory
  · rw [if_pos beyond]
    have stops : ¬memory ≤ second.pivot := Nat.not_le.mpr beyond
    unfold decode
    by_cases covered : memory ≤ first.pivot
    · by_cases same : first.pivot = memory
      · simp [stops, same]
      · simp [stops, covered, same]
    · simp [covered]
  · rw [if_neg beyond]
    have reached : memory ≤ second.pivot := Nat.not_lt.mp beyond
    have covered : memory ≤ first.pivot := by omega
    have different : ¬first.pivot = memory := by omega
    unfold decode
    simp [reached, covered, different, List.getLast?_cons]

/-! ## Compression -/

theorem exists_compress_eq_cons (pivot action : Nat) (rest : List Nat) :
    ∃ more, compress pivot action rest = ⟨pivot, action⟩ :: more := by
  induction rest with
  | nil => exact ⟨[], rfl⟩
  | cons next rest ih =>
      rw [compress]
      split
      · exact ih
      · exact ⟨_, rfl⟩

theorem decode_compress {pivot : Nat} (action : Nat) {rest : List Nat}
    (above : rest.length < pivot) {memory : Nat} (positive : 0 < memory) :
    decode (compress pivot action rest) memory =
      some (if rest.length < memory then action
        else rest.getD (rest.length - memory) 0) := by
  induction rest generalizing pivot action with
  | nil => simp [compress, positive]
  | cons next rest ih =>
      have shorter : rest.length < pivot := by
        simp only [List.length_cons] at above
        omega
      -- The entry in front of `rest` is the one for `rest.length + 1` steps.
      have unfolded : (if rest.length + 1 < memory then action
          else (next :: rest).getD (rest.length + 1 - memory) 0) =
          if rest.length + 1 < memory then action
          else if rest.length < memory then next
          else rest.getD (rest.length - memory) 0 := by
        by_cases last : rest.length < memory
        · by_cases beyond : rest.length + 1 < memory
          · simp [beyond]
          · have front : rest.length + 1 - memory = 0 := by omega
            simp [last, beyond, front]
        · have later : rest.length + 1 - memory =
              (rest.length - memory) + 1 := by omega
          simp [last, later]
      rw [List.length_cons, unfolded, compress]
      split
      · rename_i same
        subst same
        rw [ih next shorter]
        by_cases last : rest.length < memory
        · simp [last]
        · have notBeyond : ¬rest.length + 1 < memory := by omega
          simp [last, notBeyond]
      · have tail := ih next (Nat.lt_succ_self rest.length)
        obtain ⟨more, shape⟩ :=
          exists_compress_eq_cons (rest.length + 1) next rest
        rw [shape] at tail ⊢
        rw [decode_cons_cons above, tail]
        split <;> rfl

theorem compressRow_concat (earlier : List Nat) (last : Nat) :
    compressRow (earlier.concat last) =
      compress (earlier.length + 1) last earlier.reverse := by
  simp [compressRow]

/-- A compressed row gives back the actions it was made from. -/
theorem decode_compressRow {actions : List Nat} {memory : Nat}
    (positive : 0 < memory) (within : memory ≤ actions.length) :
    decode (compressRow actions) memory =
      some (actions.getD (memory - 1) 0) := by
  rcases List.eq_nil_or_concat actions with rfl | ⟨earlier, last, rfl⟩
  · simp only [List.length_nil] at within
    omega
  · rw [compressRow_concat, decode_compress last (by simp) positive,
      List.length_reverse]
    simp only [List.concat_eq_append, List.length_append, List.length_cons,
      List.length_nil] at within ⊢
    by_cases top : earlier.length < memory
    · obtain rfl : memory = earlier.length + 1 := by omega
      simp
    · have mirrored : earlier.length - 1 - (earlier.length - memory) =
          memory - 1 := by omega
      have before : memory - 1 < earlier.length := by omega
      have inside : earlier.length - memory < earlier.length := by omega
      simp [top, List.getElem?_reverse inside, mirrored,
        List.getElem?_append_left before]

theorem mem_compress {pivot action : Nat} {rest : List Nat}
    (above : rest.length < pivot) {rule : Rule}
    (member : rule ∈ compress pivot action rest) :
    rule.pivot ≤ pivot ∧ (rule.action = action ∨ rule.action ∈ rest) := by
  induction rest generalizing pivot action with
  | nil =>
      rw [compress, List.mem_singleton] at member
      subst member
      exact ⟨le_rfl, .inl rfl⟩
  | cons next rest ih =>
      rw [List.length_cons] at above
      rw [compress] at member
      split at member
      · obtain ⟨reaches, taken⟩ := ih (by omega) member
        exact ⟨reaches, taken.imp_right (List.mem_cons_of_mem _)⟩
      · rcases List.mem_cons.mp member with rfl | later
        · exact ⟨le_rfl, .inl rfl⟩
        · obtain ⟨reaches, taken⟩ := ih (Nat.lt_succ_self _) later
          refine ⟨by omega, .inr ?_⟩
          rcases taken with rfl | taken
          · exact List.mem_cons_self
          · exact List.mem_cons_of_mem _ taken

theorem pairwise_compress {pivot : Nat} (action : Nat) {rest : List Nat}
    (above : rest.length < pivot) :
    (compress pivot action rest).Pairwise fun a b => b.pivot < a.pivot := by
  induction rest generalizing pivot action with
  | nil => exact List.pairwise_singleton _ _
  | cons next rest ih =>
      rw [List.length_cons] at above
      rw [compress]
      split
      · exact ih action (by omega)
      · refine List.pairwise_cons.mpr ⟨?_, ih next (Nat.lt_succ_self _)⟩
        intro rule member
        have reaches := (mem_compress (Nat.lt_succ_self _) member).1
        exact reaches.trans_lt above

/-! ## Tables -/

/-- A row of rules that a table with the given bound can hold: the first pivot
is the bound, no pivot is larger than the one before it, and all numbers are
signed words. -/
structure Normal (bound : Nat) (row : List Rule) : Prop where
  first : ∃ action rest, row = ⟨bound, action⟩ :: rest
  descending : row.Pairwise fun a b => b.pivot ≤ a.pivot
  words : ∀ rule ∈ row, rule.pivot < Word.signedLimit ∧ rule.action < Word.signedLimit

theorem normal_compressRow {actions : List Nat} (nonempty : actions ≠ [])
    (steps : actions.length < Word.signedLimit)
    (words : ∀ action ∈ actions, action < Word.signedLimit) :
    Normal actions.length (compressRow actions) := by
  rcases List.eq_nil_or_concat actions with rfl | ⟨earlier, last, rfl⟩
  · exact (nonempty rfl).elim
  · have above : earlier.reverse.length < earlier.length + 1 := by simp
    rw [List.length_concat] at steps ⊢
    rw [compressRow_concat]
    constructor
    · obtain ⟨more, first⟩ :=
        exists_compress_eq_cons (earlier.length + 1) last earlier.reverse
      exact ⟨last, more, first⟩
    · exact (pairwise_compress last above).imp fun less => less.le
    · intro rule member
      obtain ⟨reaches, taken⟩ := mem_compress above member
      refine ⟨reaches.trans_lt steps, words _ ?_⟩
      rw [List.concat_eq_append, List.mem_append, List.mem_singleton]
      exact taken.symm.imp_left List.mem_reverse.mp

theorem Normal.flatMap_toInts {bound : Nat} {row : List Rule}
    (normal : Normal bound row) : row.flatMap Rule.toInts = numbers row := by
  refine List.flatMap_congr fun rule member => ?_
  obtain ⟨pivotWord, actionWord⟩ := normal.words rule member
  rw [Rule.toInts, Word.toInteger_eq pivotWord, Word.toInteger_eq actionWord]

theorem readRows_flatMap_toInts {bound : Nat} {table : List (List Rule)}
    (normal : ∀ row ∈ table, Normal bound row) (state : Nat) :
    readRows bound state (table.map fun row => row.flatMap Rule.toInts) =
      .ok table := by
  have canonical : ∀ row ∈ table, Canonical bound row := by
    intro row member
    obtain ⟨action, rest, rfl⟩ := (normal row member).first
    exact ⟨⟨⟨bound, action⟩, rfl, rfl⟩, (normal _ member).descending⟩
  rw [List.map_congr_left fun row member => (normal row member).flatMap_toInts]
  exact readRows_eq_ok_iff.mpr (accepts_numbers canonical)

theorem ofActions_eq_ok {actions : List (List Nat)} {bound : Nat}
    (positive : 0 < bound) (steps : bound < Word.signedLimit)
    (lengths : ∀ row ∈ actions, row.length = bound)
    (words : ∀ row ∈ actions, ∀ action ∈ row, action < Word.signedLimit) :
    ∃ strategy, ofActions actions bound = .ok strategy ∧
      strategy.table = actions.map compressRow ∧ strategy.bound = bound ∧
      strategy.memory = none := by
  have counted : badCount? bound actions = none := by
    rw [badCount?, Option.map_eq_none_iff, List.find?_eq_none]
    intro entry member
    have length := lengths entry.1 (List.fst_mem_of_mem_zipIdx member)
    have notZero : bound ≠ 0 := by omega
    simp [length, notZero]
  have normal : ∀ row ∈ actions.map compressRow, Normal bound row := by
    intro row member
    obtain ⟨source, sourceMember, rfl⟩ := List.mem_map.mp member
    obtain rfl := lengths source sourceMember
    exact normal_compressRow (List.length_pos_iff.mp positive) steps
      (words source sourceMember)
  have read : readRows bound 0 (actions.map fun row =>
      (compressRow row).flatMap Rule.toInts) =
        .ok (actions.map compressRow) := by
    simpa [Function.comp_def] using readRows_flatMap_toInts normal 0
  have notNegative : ¬((bound : Int) < 0) := by omega
  simp only [ofActions, ofTable, counted, Word.toInteger_eq steps, notNegative,
    if_false, Int.toNat_natCast, read, Attempt.ok_bind]
  exact ⟨_, rfl, rfl, rfl, rfl⟩

/-! ## The range of the actions -/

/-- All actions of the table are below a limit. -/
def ActsBelow (s : CountdownStrategy) (limit : Nat) : Prop :=
  ∀ row ∈ s.table, ∀ rule ∈ row, rule.action < limit

/-- The table was read from rows of signed words. -/
def FromWords (s : CountdownStrategy) : Prop :=
  ∃ rows bound made,
    (∀ row ∈ rows, ∀ value ∈ row, Word.isInteger value = true) ∧
    ofTable rows bound = .ok made ∧ s.table = made.table

/-- Recorded actions are written down as signed words, whatever they are. -/
theorem fromWords_of_ofActions {actions : List (List Nat)} {bound : Nat}
    {s : CountdownStrategy} (made : ofActions actions bound = .ok s) :
    s.FromWords := by
  unfold ofActions at made
  split at made
  · cases made
  · refine ⟨_, _, s, ?_, made, rfl⟩
    intro row listed value held
    obtain ⟨recorded, -, rfl⟩ := List.mem_map.mp listed
    obtain ⟨rule, -, written⟩ := List.mem_flatMap.mp held
    simp only [Rule.toInts, List.mem_cons, List.not_mem_nil, or_false]
      at written
    rcases written with pivot | action
    · rw [pivot]
      exact Word.isInteger_toInteger rule.pivot
    · rw [action]
      exact Word.isInteger_toInteger rule.action

theorem FromWords.actsBelow {s : CountdownStrategy} (words : s.FromWords) :
    s.ActsBelow Word.signedLimit := by
  obtain ⟨rows, bound, made, integers, reads, same⟩ := words
  obtain ⟨-, -, rfl⟩ := ofTable_eq_ok_iff.mp reads
  rw [ActsBelow, same]
  intro read member rule inside
  obtain ⟨row, listed, rfl⟩ := List.mem_map.mp member
  obtain ⟨pair, held, rfl⟩ := List.mem_map.mp inside
  have small := integers row listed pair.2 (mem_of_mem_pairs held).2
  simp only [Word.isInteger, Bool.and_eq_true, decide_eq_true_eq] at small
  simp only [clamped]
  omega

theorem FromWords.ne_nil {s : CountdownStrategy} (words : s.FromWords) :
    ∀ row ∈ s.table, row ≠ [] := by
  obtain ⟨rows, bound, made, -, reads, same⟩ := words
  have accepted : made.MadeFrom rows bound := ⟨made, reads, rfl⟩
  rw [same]
  exact fun row member => (accepted.canonical row member).ne_nil

theorem exists_decode {row : List Rule} (filled : row ≠ []) (memory : Nat) :
    ∃ action, decode row memory = some action := by
  unfold decode
  split
  · obtain ⟨rule, rest, rfl⟩ := List.exists_cons_of_ne_nil filled
    exact ⟨rule.action, rfl⟩
  · rename_i last found
    split
    · rename_i equal
      have member : last ∈ row :=
        (List.takeWhile_sublist _).mem (List.mem_of_getLast? found)
      have listed : (row.find? (·.pivot = memory)).isSome = true :=
        List.find?_isSome.mpr ⟨last, member, decide_eq_true equal⟩
      obtain ⟨rule, first⟩ := Option.isSome_iff_exists.mp listed
      exact ⟨rule.action, by rw [first]; rfl⟩
    · exact ⟨last.action, rfl⟩

theorem actionAt_eq_fail {R : Type} {s : CountdownStrategy} {state : Nat}
    (outside : s.table.length ≤ state) (memory : Nat) :
    s.actionAt (R := R) state memory = Attempt.fail (s.undefined state) := by
  have absent : s.table[state]? = none := List.getElem?_eq_none outside
  rw [actionAt, absent]

theorem FromWords.exists_actionAt {R : Type} {s : CountdownStrategy}
    (words : s.FromWords) {state : Nat} (inside : state < s.table.length)
    (memory : Nat) :
    ∃ action, s.actionAt (R := R) state memory = .ok action := by
  have row : s.table[state]? = some s.table[state] :=
    List.getElem?_eq_getElem inside
  obtain ⟨action, decoded⟩ :=
    exists_decode (words.ne_nil _ (List.getElem_mem inside)) memory
  refine ⟨action, ?_⟩
  rw [actionAt_of_row row, decoded]
  rfl

theorem exists_of_decode {row : List Rule} {memory action : Nat}
    (decoded : decode row memory = some action) :
    ∃ rule ∈ row, rule.action = action := by
  unfold decode at decoded
  split at decoded
  · obtain ⟨rule, first, same⟩ := Option.map_eq_some_iff.mp decoded
    exact ⟨rule, List.mem_of_head? first, same⟩
  · rename_i last found
    split at decoded
    · obtain ⟨rule, found, same⟩ := Option.map_eq_some_iff.mp decoded
      exact ⟨rule, List.mem_of_find?_eq_some found, same⟩
    · have member := List.mem_of_getLast? found
      exact ⟨last, (List.takeWhile_sublist _).mem member,
        Option.some.inj decoded⟩

theorem ActsBelow.actionAt_lt {R : Type} {s : CountdownStrategy} {limit : Nat}
    (below : s.ActsBelow limit) {state memory action : Nat}
    (acts : s.actionAt (R := R) state memory = .ok action) :
    action < limit := by
  unfold actionAt at acts
  split at acts
  · cases acts
  · rename_i row found
    cases decoded : decode row memory with
    | none => simp [decoded, Attempt.entry, Attempt.breach] at acts
    | some taken =>
        simp only [decoded, Attempt.entry, Except.ok.injEq] at acts
        obtain ⟨rule, member, rfl⟩ := exists_of_decode decoded
        rw [← acts]
        exact below row (List.mem_of_getElem? found) rule member

theorem ActsBelow.of_setMemory {R : Type} [Scalar R]
    {s changed : CountdownStrategy} {limit : Nat} {memory : Memory}
    {outcome : Except (StrategyError R) Unit} (below : s.ActsBelow limit)
    (set : Strategy.setMemory s memory = (outcome, changed)) :
    changed.ActsBelow limit := by
  have table : changed.table = s.table := by
    simp only [Strategy.setMemory] at set
    split at set
    · rename_i kept accepted
      cases set
      unfold CountdownStrategy.setMemory at accepted
      split at accepted
      · split at accepted
        · cases accepted
          rfl
        · cases accepted
      · cases accepted
    · cases set
      rfl
  rw [ActsBelow, table]
  exact below

end CountdownStrategy

end Markov
