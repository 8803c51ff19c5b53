import Mathlib
import Markov.Proofs.Acceptance
import Markov.Proofs.Splitting

/-!
# Exported decision tables

An exported table is a legend and one line for every state, with the number of
the state and the numbers of its row.  Nothing is lost: the text is taken apart
at line ends and commas again, and the rows that are read this way are accepted
and make the same table.
-/

namespace Markov.CountdownStrategy

/-- The rows of an exported table, without the legend and the numbers of the
states. -/
def imported (text : String) : Option (List (List Int)) :=
  ((Text.parts text "\n").drop legend.length).dropLast.mapM fun line =>
    (Text.parts line ", ").tail.mapM String.toInt?

/-! ## Lines -/

theorem not_mem_toString {character : Char}
    (noDigit : character.isDigit = false) (n : Nat) :
    character ∉ (toString n).toList := by
  intro member
  rw [Nat.toString_eq_repr, Nat.toList_repr] at member
  have digit := Nat.isDigit_of_mem_toDigits (by decide) (by decide) member
  exact Bool.false_ne_true (noDigit.symm.trans digit)

theorem forall_mem_fields {p : String → Prop} (decimal : ∀ n : Nat, p (toString n))
    (state : Nat) (row : List Rule) :
    ∀ field ∈ toString state :: row.flatMap fun rule =>
      [toString rule.pivot, toString rule.action], p field := by
  refine List.forall_mem_cons.mpr ⟨decimal state, fun field member => ?_⟩
  obtain ⟨rule, -, written⟩ := List.mem_flatMap.mp member
  simp only [List.mem_cons, List.not_mem_nil, or_false] at written
  rcases written with rfl | rfl
  · exact decimal rule.pivot
  · exact decimal rule.action

theorem parts_exportRow (state : Nat) (row : List Rule) :
    Text.parts (exportRow state row) ", " =
      toString state :: row.flatMap fun rule =>
        [toString rule.pivot, toString rule.action] := by
  have shape : ", ".toList = [',', ' '] := by simp
  apply Text.parts_intercalate shape (List.cons_ne_nil _ _)
  exact forall_mem_fields (not_mem_toString (by decide)) state row

theorem newline_not_mem_exportRow (state : Nat) (row : List Rule) :
    '\n' ∉ (exportRow state row).toList := by
  intro member
  rcases Text.mem_toList_intercalate member with between | ⟨field, listed, found⟩
  · simp at between
  · have free := forall_mem_fields (p := fun field => '\n' ∉ field.toList)
      (not_mem_toString (by decide)) state row
    exact free field listed found

theorem newline_not_mem_legend : ∀ line ∈ legend, '\n' ∉ line.toList := by
  simp [legend]

theorem parts_exported (s : CountdownStrategy) :
    Text.parts s.exported "\n" =
      legend ++ (s.table.zipIdx.map fun entry => exportRow entry.2 entry.1) ++
        [""] := by
  have shape : "\n".toList = ['\n'] := by simp
  rw [exported, Text.join_map_append]
  apply Text.parts_intercalate shape (List.append_ne_nil_of_right_ne_nil _
    (List.cons_ne_nil _ _))
  simp only [List.forall_mem_append, List.forall_mem_map]
  refine ⟨⟨newline_not_mem_legend, fun entry _ => ?_⟩, by simp⟩
  exact newline_not_mem_exportRow entry.2 entry.1

/-! ## Reading -/

theorem toStrings_numbers (row : List Rule) :
    (row.flatMap fun rule => [toString rule.pivot, toString rule.action]) =
      (numbers row).map toString := by
  rw [numbers, List.map_flatMap]
  rfl

theorem imported_exportRow (state : Nat) (row : List Rule) :
    (Text.parts (exportRow state row) ", ").tail.mapM String.toInt? =
      some (numbers row) := by
  -- The law that a printed integer is read back comes with `Std`, which no
  -- single module of Mathlib imports.
  have whole : String.toInt? ∘ toString = fun value : Int => some value :=
    funext fun value => Int.toInt?_repr value
  rw [parts_exportRow, List.tail_cons, toStrings_numbers, List.mapM_map, whole]
  exact List.mapM_pure.trans (congrArg some (List.map_id _))

theorem imported_exported (s : CountdownStrategy) :
    imported s.exported = some (s.table.map numbers) := by
  have lines : ((Text.parts s.exported "\n").drop legend.length).dropLast =
      s.table.zipIdx.map fun entry => exportRow entry.2 entry.1 := by
    rw [parts_exported, List.append_assoc, List.drop_left, List.dropLast_concat]
  rw [imported, lines, List.mapM_map]
  simp only [Function.comp_def, imported_exportRow]
  refine List.mapM_pure.trans (congrArg some ?_)
  calc s.table.zipIdx.map (numbers ∘ Prod.fst)
      _ = (s.table.zipIdx.map Prod.fst).map numbers := List.map_map.symm
      _ = s.table.map numbers := by rw [List.zipIdx_map_fst]

theorem numbers_injective : Function.Injective numbers := by
  intro row other same
  have pairs := congrArg pairs same
  rw [pairs_numbers, pairs_numbers] at pairs
  refine List.map_injective_iff.mpr (fun rule another equal => ?_) pairs
  cases rule
  cases another
  simpa using equal

/-- The text determines the table. -/
theorem table_eq_of_exported_eq {s other : CountdownStrategy}
    (same : other.exported = s.exported) : other.table = s.table := by
  have read := congrArg imported same
  rw [imported_exported, imported_exported] at read
  exact List.map_injective_iff.mpr numbers_injective (Option.some.inj read)

section Accepted

variable {s : CountdownStrategy} {rows : List (List Int)} {bound : Int}
  {R : Type}

theorem length_numbers_normalised {row : List Int} (even : row.length % 2 = 0)
    (bound : Nat) : (numbers (normalised bound row)).length = row.length := by
  rw [length_numbers, normalised, List.length_map]
  have := length_pairs even
  omega

/-- What an accepted strategy keeps is accepted again, with nothing changed. -/
theorem MadeFrom.of_numbers (made : s.MadeFrom rows bound) :
    s.MadeFrom (s.table.map numbers) s.bound := by
  obtain ⟨accepted, kept⟩ := accepts_numbers made.canonical
  refine madeFrom_iff.mpr ⟨Int.natCast_nonneg _, accepted, kept, rfl, ?_⟩
  obtain ⟨-, wellFormed, table, -, size⟩ := madeFrom_iff.mp made
  rw [size, table, List.length_flatten, List.length_flatten, List.map_map,
    List.map_map]
  refine congrArg List.sum (List.map_congr_left fun row listed => ?_)
  exact (length_numbers_normalised (wellFormed row listed).even _).symm

theorem isInteger_numbers_normalised {row : List Int} {bound : Int}
    (wellFormed : WellFormed bound row)
    (small : ∀ value ∈ row, Word.isInteger value = true) (cut : Nat) :
    ∀ value ∈ numbers (normalised cut row), Word.isInteger value = true := by
  intro value member
  obtain ⟨rule, listed, written⟩ := List.mem_flatMap.mp member
  obtain ⟨pair, given, rfl⟩ := List.mem_map.mp listed
  obtain ⟨pivot, action⟩ := mem_of_mem_pairs given
  have pivotNatural := wellFormed.natural _ pivot
  have actionNatural := wellFormed.natural _ action
  have pivotSmall := small _ pivot
  have actionSmall := small _ action
  simp only [Word.isInteger, Bool.and_eq_true, decide_eq_true_eq, clamped,
    List.mem_cons, List.not_mem_nil, or_false] at *
  omega

/-- Exporting loses nothing.  The text is the legend and one line for every
state, all ended, with the number of the state and the numbers of its row
between commas.  The rows that are read from it are accepted with the same bound
and make the same table, so that what the strategy does depends on the text
alone. -/
theorem exported_readsBack (made : s.MadeFrom rows bound) :
    (∃ comments lines, legend = comments ++ ["Strategy:"] ∧
      comments.length = 5 ∧ (∀ comment ∈ comments, comment.startsWith "//") ∧
      Text.parts s.exported "\n" = legend ++ lines ++ [""] ∧
      lines.length = s.table.length ∧
      ∀ (state : Nat) row, s.table[state]? = some row →
        ∃ line, lines[state]? = some line ∧
          Text.parts line ", " = toString state :: row.flatMap fun rule =>
            [toString rule.pivot, toString rule.action]) ∧
    (∃ read, imported s.exported = some read ∧
      ((∀ row ∈ rows, ∀ value ∈ row, Word.isInteger value = true) →
        ∀ row ∈ read, ∀ value ∈ row, Word.isInteger value = true) ∧
      ∃ again, ofTable read s.bound = .ok again ∧ again.table = s.table ∧
        again.bound = s.bound ∧ again.tableSize = s.tableSize) ∧
    ∀ other : CountdownStrategy, other.exported = s.exported →
      ∀ state memory, other.actionAt (R := R) state memory =
        s.actionAt state memory := by
  refine ⟨⟨legend.dropLast, _, rfl, rfl, ?_, parts_exported s, ?_, ?_⟩,
    ⟨_, imported_exported s, ?_, ?_⟩, ?_⟩
  · simp [legend]
  · rw [List.length_map, List.length_zipIdx]
  · intro state row listed
    refine ⟨exportRow state row, ?_, parts_exportRow state row⟩
    rw [List.getElem?_map, List.getElem?_zipIdx, listed, Nat.zero_add]
    rfl
  · obtain ⟨-, wellFormed, table, -, -⟩ := madeFrom_iff.mp made
    rw [table]
    simp only [List.forall_mem_map]
    intro small row listed
    exact isInteger_numbers_normalised (wellFormed row listed)
      (small row listed) _
  · obtain ⟨again, accepted, same⟩ := made.of_numbers
    exact ⟨again, accepted, by rw [same], by rw [same], by rw [same]⟩
  · intro other same state memory
    have table := table_eq_of_exported_eq same
    simp only [actionAt, undefined, table]

end Accepted

/-- The pivots that were cut off and the runs of equal pivots are read back as
they are kept. -/
theorem dimmer_readsBack :
    (∃ lines, Text.parts dimmer.exported "\n" = legend ++ lines ++ [""] ∧
      ∃ line, lines[1]? = some line ∧
        Text.parts line ", " = ["1", "5", "7", "2", "6"]) ∧
    (∃ read, imported dimmer.exported = some read ∧
      (∀ row ∈ read, ∀ value ∈ row, Word.isInteger value = true) ∧
      ∃ again, ofTable read 5 = .ok again ∧ again.table = dimmer.table) ∧
    ∀ other : CountdownStrategy, other.exported = dimmer.exported →
      other.actionAt (R := Int) 0 4 = .ok 2 := by
  obtain ⟨⟨-, lines, -, -, -, split, -, rows⟩, ⟨read, reads, small, again,
    accepted, same, -, -⟩, acts⟩ := exported_readsBack (R := Int) dimmer_madeFrom
  obtain ⟨line, listed, fields⟩ := rows 1 [⟨5, 7⟩, ⟨2, 6⟩] rfl
  refine ⟨⟨lines, split, line, listed, fields⟩,
    ⟨read, reads, small (by decide), again, accepted, same⟩, ?_⟩
  intro other text
  exact acts other text 0 4

end Markov.CountdownStrategy
