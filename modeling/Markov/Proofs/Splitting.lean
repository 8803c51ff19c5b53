/-!
# Texts that are split at a separator

Pieces that are joined by a separator are found again where the text is split
at it, if the first character of the separator is in none of them.  The search
walks over the positions of the text: it finds no match inside a piece and the
separator right behind it.
-/

namespace Markov.Text

open String Slice Pattern Pattern.Model

/-- The parts of a text between the places of a separator. -/
def parts (text separator : String) : List String :=
  (text.split separator).toList.map (·.copy)

section Search

variable {s : Slice} {separator : String} {mark : Char} {tail : List Char}
  {start stop : s.Pos} {before piece after : String}

/-- The separator does not start inside a piece without its first character. -/
theorem not_matchesAt_of_free (shape : separator.toList = mark :: tail)
    (starts : start.Splits before (piece ++ after))
    (stops : stop.Splits (before ++ piece) after)
    (free : mark ∉ piece.toList) {position : s.Pos} (low : start ≤ position)
    (high : position < stop) : ¬MatchesAt separator position := by
  rw [ForwardStringSearcher.matchesAt_iff_splits]
  rintro ⟨left, right, here⟩
  obtain ⟨skipped, rfl, -⟩ := (starts.le_iff_exists_eq_append here).mp low
  obtain ⟨rest, filled, whole, matched⟩ :=
    (here.lt_iff_exists_eq_append stops).mp high
  have inside : piece.toList = skipped.toList ++ rest.toList := by
    simpa using congrArg String.toList whole
  have first : mark :: (tail ++ right.toList) =
      rest.toList ++ after.toList := by
    simpa [shape] using congrArg String.toList matched
  cases characters : rest.toList with
  | nil => exact filled (String.toList_eq_nil_iff.mp characters)
  | cons character characters =>
      rw [characters] at first inside
      obtain ⟨rfl, -⟩ := List.cons.inj first
      exact free (by simp [inside])

theorem copy_subslice (starts : start.Splits before (piece ++ after))
    (stops : stop.Splits (before ++ piece) after) (order : start ≤ stop) :
    (s.subslice start stop order).toSlice.copy = piece := by
  obtain ⟨_, copied⟩ := Slice.copy_slice_eq_iff_splits.mpr
    ⟨before, after, starts, stops⟩
  simpa using copied

/-- The search for the separator goes from piece to piece. -/
theorem map_split_intercalate [StrictPatternModel separator]
    (shape : separator.toList = mark :: tail) {pieces : List String}
    (filled : pieces ≠ []) (free : ∀ piece ∈ pieces, mark ∉ piece.toList)
    (starts : start.Splits before (separator.intercalate pieces)) :
    (Model.split separator start start (Std.le_refl _)).map
      (fun part => part.toSlice.copy) = pieces := by
  induction pieces generalizing start before with
  | nil => exact (filled rfl).elim
  | cons piece pieces ih =>
      obtain ⟨here, later⟩ := List.forall_mem_cons.mp free
      cases pieces with
      | nil =>
          rw [intercalate_singleton, ← String.append_empty (s := piece)]
            at starts
          have stops : s.endPos.Splits (before ++ piece) "" :=
            s.splits_endPos.of_eq
              (by simpa [String.append_assoc] using starts.eq_append) rfl
          have order : start ≤ s.endPos :=
            (starts.le_iff_exists_eq_append stops).mpr ⟨piece, rfl, rfl⟩
          rw [split_eq_of_not_matchesAt s.endPos order fun _ low high =>
              not_matchesAt_of_free shape starts stops here low high,
            split_endPos]
          simpa using copy_subslice starts stops order
      | cons next pieces =>
          rw [intercalate_cons_cons, String.append_assoc] at starts
          have stops := starts.splits_rotateRight
          have resumes := stops.splits_rotateRight
          have order :=
            (starts.le_iff_exists_eq_append stops).mpr ⟨piece, rfl, rfl⟩
          have matched :=
            ForwardStringSearcher.isLongestMatchAt_iff_splits.mpr
              ⟨_, _, stops, resumes⟩
          rw [split_eq_of_not_matchesAt _ order fun _ low high =>
              not_matchesAt_of_free shape starts stops here low high,
            split_eq_of_isLongestMatchAt matched, List.map_cons,
            copy_subslice starts stops order, ih (by simp) later resumes]

end Search

theorem parts_intercalate {separator : String} {mark : Char}
    {tail : List Char} (shape : separator.toList = mark :: tail)
    {pieces : List String} (filled : pieces ≠ [])
    (free : ∀ piece ∈ pieces, mark ∉ piece.toList) :
    parts (separator.intercalate pieces) separator = pieces := by
  have nonempty : separator ≠ "" := by
    rintro rfl
    cases shape
  have := ForwardStringSearcher.strictPatternModel nonempty
  have := ForwardStringSearcher.lawfulToForwardSearcherModel nonempty
  have starts : (separator.intercalate pieces).toSlice.startPos.Splits ""
      (separator.intercalate pieces) := by
    simp
  rw [parts, split_eq_split_toSlice, toList_split_eq_splitToSubslice,
    Pattern.toList_splitToSubslice_eq_modelSplit, List.map_map]
  exact map_split_intercalate shape filled free starts

theorem mem_toList_intercalate {separator : String} {pieces : List String}
    {character : Char}
    (member : character ∈ (separator.intercalate pieces).toList) :
    character ∈ separator.toList ∨
      ∃ piece ∈ pieces, character ∈ piece.toList := by
  induction pieces with
  | nil => simp at member
  | cons piece pieces ih =>
      cases pieces with
      | nil =>
          rw [intercalate_singleton] at member
          exact .inr ⟨piece, List.mem_cons_self, member⟩
      | cons next pieces =>
          rw [intercalate_cons_cons, toList_append, toList_append,
            List.append_assoc, List.mem_append, List.mem_append] at member
          rcases member with here | between | later
          · exact .inr ⟨piece, List.mem_cons_self, here⟩
          · exact .inl between
          · rcases ih later with between | ⟨other, listed, found⟩
            · exact .inl between
            · exact .inr ⟨other, List.mem_cons_of_mem _ listed, found⟩

theorem join_map_append (separator : String) (lines : List String) :
    String.join (lines.map (· ++ separator)) =
      separator.intercalate (lines ++ [""]) := by
  induction lines with
  | nil => simp
  | cons line lines ih =>
      rw [List.map_cons, join_cons, ih, List.cons_append,
        intercalate_cons_of_ne_nil (by simp)]

end Markov.Text
