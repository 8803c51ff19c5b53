import Mathlib.Algebra.BigOperators.Group.List.Lemmas
import Mathlib.Algebra.GroupWithZero.Nat
import Mathlib.Tactic.Conv
import Markov.Table

/-!
# Layouts of transitions

Rows of choices that are put into a layout come back out of it unchanged.  For
flat arrays this rests on two levels of prefix sums: where the choices of a
state start among all choices, and where the entries of a choice start among
all entries.  What is stored is also what is read, as long as no weight is
negative.
-/

namespace Markov

namespace Distribution

variable {R : Type}

theorem adjust_of_above {target : Nat} {change : Option R → R}
    {entries : List (Nat × R)}
    (above : ∀ entry ∈ entries, entry.1 < target) :
    adjust target change entries = entries ++ [(target, change none)] := by
  induction entries with
  | nil => rfl
  | cons entry entries ih =>
      have below : entry.1 < target := above entry List.mem_cons_self
      have rest := ih fun later member =>
        above later (List.mem_cons_of_mem _ member)
      rw [adjust, if_neg (by omega), if_neg (by omega), rest,
        List.cons_append]

variable [Scalar R]

private theorem entries_addMany {weights : List (Nat × R)} {d : Distribution R}
    (ascending : Ascending (d.entries ++ weights)) :
    (d.addMany weights).entries = d.entries ++ weights := by
  induction weights generalizing d with
  | nil => exact (List.append_nil _).symm
  | cons weight weights ih =>
      have above : ∀ entry ∈ d.entries, entry.1 < weight.1 :=
        fun entry member =>
          (List.pairwise_append.mp ascending).2.2 entry member weight
            List.mem_cons_self
      have added : (d.add weight.1 weight.2).entries =
          d.entries ++ [weight] := adjust_of_above above
      have regrouped : Ascending
          ((d.add weight.1 weight.2).entries ++ weights) := by
        rw [added, List.append_assoc]
        exact ascending
      calc (d.addMany (weight :: weights)).entries
          = ((d.add weight.1 weight.2).addMany weights).entries := rfl
        _ = d.entries ++ weight :: weights := by
            rw [ih regrouped, added, List.append_assoc, List.singleton_append]

theorem entries_ofList {weights : List (Nat × R)}
    (ascending : Ascending weights) : (ofList weights).entries = weights :=
  entries_addMany ascending

@[simp]
theorem ofList_entries (d : Distribution R) : ofList d.entries = d := by
  have kept := entries_ofList d.ascending
  cases equality : ofList d.entries
  cases d
  simp_all

@[simp]
theorem support_point (target : Nat) :
    (point (R := R) target).support = [target] := rfl

theorem entries_mapTargets_add (d : Distribution R) (offset : Nat) :
    (d.mapTargets (offset + ·)).entries =
      d.entries.map fun entry => (offset + entry.1, entry.2) := by
  apply entries_ofList
  rw [Ascending, List.pairwise_map]
  exact d.ascending.imp fun below => Nat.add_lt_add_left below offset

end Distribution

namespace Distribution

variable {R : Type} [Scalar R]

/-- The weights of a distribution are accepted when they are collected again. -/
def NonNegative (d : Distribution R) : Prop := ∀ entry ∈ d.entries, 0 ≤ entry.2

instance (d : Distribution R) : Decidable d.NonNegative :=
  inferInstanceAs (Decidable (∀ entry ∈ d.entries, 0 ≤ entry.2))

section Collect

variable {ε : Type} {weights : List (Nat × R)}

theorem collect_eq_ok_or_breach (weights : List (Nat × R)) :
    collect (ε := ε) weights = .ok (ofList weights) ∨
      collect (ε := ε) weights = Attempt.breach := by
  unfold collect
  cases weights.all fun entry => isWeight entry.2 with
  | true => exact .inl rfl
  | false => exact .inr rfl

theorem collect_eq_ok_iff {d : Distribution R} :
    collect (ε := ε) weights = .ok d ↔
      (∀ entry ∈ weights, 0 ≤ entry.2) ∧ ofList weights = d := by
  rw [collect, Attempt.require_bind_eq_ok]
  simp [isWeight, pure, Except.pure]

theorem collect_eq_ok (accepted : ∀ entry ∈ weights, 0 ≤ entry.2) :
    collect (ε := ε) weights = .ok (ofList weights) :=
  collect_eq_ok_iff.mpr ⟨accepted, rfl⟩

end Collect

variable {d : Distribution R}

theorem NonNegative.moved (accepted : d.NonNegative) (f : Nat → Nat) :
    ∀ entry ∈ d.entries.map fun entry => (f entry.1, entry.2), 0 ≤ entry.2 := by
  intro moved member
  obtain ⟨entry, listed, rfl⟩ := List.mem_map.mp member
  exact accepted entry listed

theorem checkedMap_eq_ok {ε : Type} (accepted : d.NonNegative) (f : Nat → Nat) :
    d.checkedMap (ε := ε) f = .ok (d.mapTargets f) :=
  collect_eq_ok (accepted.moved f)

theorem eq_mapTargets_of_checkedMap {ε : Type} {f : Nat → Nat}
    {image : Distribution R} (moved : d.checkedMap (ε := ε) f = .ok image) :
    d.NonNegative ∧ d.mapTargets f = image := by
  obtain ⟨accepted, collected⟩ := collect_eq_ok_iff.mp moved
  refine ⟨fun entry member => ?_, collected⟩
  exact accepted (f entry.1, entry.2) (List.mem_map_of_mem member)

end Distribution

namespace Packed

variable {R : Type}

theorem length_starts (first : Nat) (lengths : List Nat) :
    (starts first lengths).length = lengths.length + 1 := by
  induction lengths generalizing first with
  | nil => rfl
  | cons length lengths ih => simp [starts, ih]

theorem getElem?_starts (first : Nat) {lengths : List Nat} {index : Nat}
    (inside : index ≤ lengths.length) :
    (starts first lengths)[index]? =
      some (first + (lengths.take index).sum) := by
  induction lengths generalizing first index with
  | nil =>
      obtain rfl : index = 0 := Nat.le_zero.mp inside
      rfl
  | cons length lengths ih =>
      cases index with
      | zero => rfl
      | succ index =>
          rw [starts, List.getElem?_cons_succ, ih _ (by simpa using inside),
            List.take_succ_cons, List.sum_cons, Nat.add_assoc]

/-- What a block holds is found behind all blocks before it. -/
private theorem getElem?_flatten {α : Type} (blocks : List (List α))
    {index position : Nat} (inside : index < blocks.length)
    (within : position < blocks[index].length) :
    blocks.flatten[((blocks.map List.length).take index).sum + position]? =
      blocks[index][position]? := by
  have lengths : index < (blocks.map List.length).length := by simpa
  have next := List.sum_take_succ (blocks.map List.length) index lengths
  rw [List.getElem_map] at next
  have slice := List.drop_take_succ_flatten_eq_getElem blocks index inside
  conv_rhs => rw [← slice]
  rw [List.getElem?_drop, List.getElem?_take, if_pos (by omega)]

variable (rows : List (List (Distribution R)))

private theorem getElem?_rowStarts {state : Nat}
    (inside : state ≤ rows.length) :
    (ofRows rows).rowStarts[state]? =
      some ((rows.map List.length).take state).sum := by
  have lengths : state ≤ (rows.map List.length).length := by simpa
  simpa [ofRows, Arrays.ofRows] using getElem?_starts 0 lengths

private theorem getElem?_choiceStarts {position : Nat}
    (inside : position ≤ rows.flatten.length) :
    (ofRows rows).choiceStarts[position]? =
      some ((rows.flatten.map Distribution.size).take position).sum := by
  have sizes : position ≤ (rows.flatten.map Distribution.size).length := by
    rwa [List.length_map]
  simp only [ofRows, Arrays.ofRows, List.getElem?_toArray,
    getElem?_starts 0 sizes, Nat.zero_add]

private theorem rowStarts_outside {state : Nat}
    (outside : rows.length < state) :
    (ofRows rows).rowStarts[state]? = none := by
  simpa [ofRows, Arrays.ofRows, length_starts, Nat.succ_le_iff] using outside

@[simp]
theorem numStates_ofRows : (ofRows rows).numStates = rows.length := by
  simp [numStates, ofRows, Arrays.ofRows, length_starts]

private theorem sum_take_succ_lengths {state : Nat}
    (inside : state < rows.length) :
    ((rows.map List.length).take (state + 1)).sum =
      ((rows.map List.length).take state).sum + rows[state].length := by
  have lengths : state < (rows.map List.length).length := by simpa
  simpa using List.sum_take_succ (rows.map List.length) state lengths

@[simp]
theorem numChoices_ofRows (state : Nat) :
    (ofRows rows).numChoices state = (rows.getD state []).length := by
  unfold numChoices
  by_cases inside : state < rows.length
  · rw [getElem?_rowStarts rows inside.le, getElem?_rowStarts rows inside,
      sum_take_succ_lengths rows inside]
    simp [inside]
  · rw [rowStarts_outside rows (by omega : rows.length < state + 1)]
    simp [inside]

private theorem position?_ofRows (state index : Nat) :
    (ofRows rows).position? state index =
      if index < (rows.getD state []).length then
        some (((rows.map List.length).take state).sum + index)
      else none := by
  unfold position?
  by_cases inside : state < rows.length
  · rw [getElem?_rowStarts rows inside.le, getElem?_rowStarts rows inside,
      sum_take_succ_lengths rows inside]
    simp [inside]
  · rw [rowStarts_outside rows (by omega : rows.length < state + 1)]
    simp [inside]

/-- The entries of a choice are found behind those of all choices before it. -/
private theorem zip_extract_ofRows {position start stop : Nat}
    (inside : position < rows.flatten.length)
    (starts : (ofRows rows).choiceStarts[position]? = some start)
    (stops : (ofRows rows).choiceStarts[position + 1]? = some stop) :
    ((ofRows rows).targets.extract start stop).toList.zip
        ((ofRows rows).weights.extract start stop).toList =
      rows.flatten[position].entries := by
  rw [getElem?_choiceStarts rows inside.le, Option.some.injEq] at starts
  rw [getElem?_choiceStarts rows inside, Option.some.injEq] at stops
  have slice := List.drop_take_succ_flatten_eq_getElem
    (rows.flatten.map Distribution.entries) position
    (by rwa [List.length_map])
  have sizes : (rows.flatten.map Distribution.entries).map List.length =
      rows.flatten.map Distribution.size := List.map_map
  rw [sizes, starts, stops, List.getElem_map, List.drop_take,
    ← List.flatMap_def] at slice
  simp only [ofRows, Arrays.ofRows, Array.toList_extract,
    List.extract_eq_take_drop]
  rw [← List.map_drop, ← List.map_drop, ← List.map_take, ← List.map_take,
    List.zip_map', ← slice]
  exact List.map_id _

private theorem entries?_ofRows (state index : Nat) :
    (ofRows rows).entries? state index =
      (rows.getD state [])[index]?.map Distribution.entries := by
  unfold entries?
  rw [position?_ofRows]
  by_cases within : index < (rows.getD state []).length
  · have inside : state < rows.length := by
      by_contra outside
      simp [outside] at within
    have row : rows.getD state [] = rows[state] := by simp [inside]
    rw [if_pos within, row]
    rw [row] at within
    have found := getElem?_flatten rows inside within
    rw [← found]
    generalize ((rows.map List.length).take state).sum + index = position at *
    have counted : position < rows.flatten.length := by
      by_contra outside
      rw [List.getElem?_eq_none (by omega), List.getElem?_eq_getElem within]
        at found
      cases found
    have starts := getElem?_choiceStarts rows counted.le
    have stops := getElem?_choiceStarts rows counted
    simp only [Option.bind_eq_bind, Option.bind_some, starts, stops,
      zip_extract_ofRows rows counted starts stops,
      List.getElem?_eq_getElem counted]
    rfl
  · rw [if_neg within, List.getElem?_eq_none (Nat.not_lt.mp within)]
    rfl

@[simp]
theorem stored?_ofRows [Scalar R] (state index : Nat) :
    (ofRows rows).stored? state index = (rows.getD state [])[index]? := by
  rw [stored?, entries?_ofRows, Option.map_map]
  have collected : Distribution.ofList ∘ Distribution.entries =
      (id : Distribution R → Distribution R) :=
    funext Distribution.ofList_entries
  rw [collected, Option.map_id, id]

/-- A choice is read as it is stored, unless one of its weights is negative. -/
theorem choice?_ofRows {ε : Type} [Scalar R] (state index : Nat) :
    (ofRows rows).choice? (ε := ε) state index =
      match (rows.getD state [])[index]? with
      | none => .ok none
      | some choice => some <$> Distribution.collect choice.entries := by
  rw [choice?, entries?_ofRows]
  cases (rows.getD state [])[index]? <;> rfl

theorem exists_ofRows (p : Packed R) : ∃ rows, p = ofRows rows := by
  obtain ⟨arrays, rows, rfl⟩ := p
  exact ⟨rows, rfl⟩

/-- Only the sum of a row start and an index can leave the word, so an index
behind the last state is never refused. -/
theorem isAddressable_ofRows (state index : Nat)
    (fits : state < rows.length →
      Word.isIndex (((rows.map List.length).take state).sum + index) = true) :
    (ofRows rows).isAddressable state index = true := by
  unfold isAddressable
  by_cases inside : state < rows.length
  · rw [getElem?_rowStarts rows inside.le, getElem?_rowStarts rows inside]
    exact fits inside
  · rw [rowStarts_outside rows (by omega : rows.length < state + 1)]
    cases (ofRows rows).rowStarts[state]? <;> rfl

end Packed

namespace Layout

variable {R : Type} (layout : Layout R) (rows : Array (List (Distribution R)))

@[simp]
theorem numStates_withRows : (layout.withRows rows).numStates = rows.size := by
  cases layout <;> simp [withRows, numStates]

@[simp]
theorem numChoices_withRows (state : Nat) :
    (layout.withRows rows).numChoices state =
      (rows.getD state []).length := by
  cases layout <;> simp [withRows, numChoices]

theorem exists_withRows : ∃ rows, layout = layout.withRows rows := by
  cases layout with
  | listed rows => exact ⟨rows, rfl⟩
  | locked rows => exact ⟨rows, rfl⟩
  | packed arrays =>
      obtain ⟨rows, rfl⟩ := arrays.exists_ofRows
      exact ⟨rows.toArray, rfl⟩

theorem lt_numStates_of_lt_numChoices {layout : Layout R} {state index : Nat}
    (counted : index < layout.numChoices state) : state < layout.numStates := by
  obtain ⟨rows, same⟩ := layout.exists_withRows
  rw [same, numChoices_withRows] at counted
  rw [same, numStates_withRows]
  by_contra outside
  simp [outside] at counted

variable [Scalar R]

@[simp]
theorem stored?_withRows (state index : Nat) :
    (layout.withRows rows).stored? state index =
      (rows.getD state [])[index]? := by
  cases layout <;> simp [withRows, stored?]

/-- The choices that are put into a layout come back out of it. -/
@[simp]
theorem choicesOf_withRows (state : Nat) :
    (layout.withRows rows).choicesOf state = rows.getD state [] := by
  have reads : ∀ row : List (Distribution R),
      (List.range row.length).filterMap (row[·]?) = row := by
    intro row
    induction row with
    | nil => rfl
    | cons choice row ih =>
        rw [List.length_cons, List.range_succ_eq_map, List.filterMap_cons,
          List.filterMap_map]
        simpa [Function.comp_def] using ih
  unfold choicesOf
  rw [numChoices_withRows]
  simp only [stored?_withRows]
  exact reads _

private theorem flatMap_range_getD {α β : Type} (rows : List (List α))
    (view : List α → List β) :
    ((List.range rows.length).flatMap fun state =>
      view (rows.getD state [])) = rows.flatMap view := by
  have listed : (List.range rows.length).map (rows.getD · []) = rows := by
    apply List.ext_getElem
    · simp
    · intro state _ inside
      simp [inside]
  conv_rhs => rw [← listed]
  rw [List.flatMap_map]

/-- Every layout counts the entries of the choices that are put into it. -/
@[simp]
theorem numTransitions_withRows :
    (layout.withRows rows).numTransitions =
      (rows.toList.flatten.map Distribution.size).sum := by
  have counted : ((List.range rows.size).flatMap fun state =>
      (rows.getD state []).map Distribution.size).foldr (· + ·) 0 =
      (rows.toList.flatten.map Distribution.size).sum := by
    have listed := flatMap_range_getD rows.toList
      (List.map (Distribution.size (R := R)))
    simp only [Array.length_toList, List.getD_eq_getElem?_getD,
      Array.getElem?_toList] at listed
    simp only [Array.getD_eq_getD_getElem?]
    rw [listed, List.flatMap_def, ← List.map_flatten, List.sum_eq_foldr]
  cases layout with
  | listed _ =>
      have views := choicesOf_withRows (.listed rows) rows
      simp only [withRows] at views
      simpa [withRows, numTransitions, numStates, views] using counted
  | locked _ =>
      have views := choicesOf_withRows (.locked rows) rows
      simp only [withRows] at views
      simpa [withRows, numTransitions, numStates, views] using counted
  | packed _ =>
      simp only [withRows, numTransitions, Packed.ofRows, Packed.Arrays.ofRows,
        List.size_toArray, List.length_map, List.length_flatMap]
      rfl

theorem lt_numChoices_of_stored? {layout : Layout R} {state index : Nat}
    {choice : Distribution R} (found : layout.stored? state index = some choice) :
    index < layout.numChoices state := by
  obtain ⟨rows, same⟩ := layout.exists_withRows
  rw [same, stored?_withRows] at found
  rw [same, numChoices_withRows]
  exact (List.getElem?_eq_some_iff.mp found).1

section Reading

variable {ε : Type} {layout : Layout R} {state index : Nat}

theorem choice?_eq_ok
    (accepted : ∀ choice ∈ layout.stored? state index, choice.NonNegative) :
    layout.choice? (ε := ε) state index = .ok (layout.stored? state index) := by
  cases layout with
  | listed rows => rfl
  | locked rows => rfl
  | packed arrays =>
      obtain ⟨rows, rfl⟩ := arrays.exists_ofRows
      simp only [stored?, Packed.stored?_ofRows] at accepted
      simp only [choice?, stored?, Packed.choice?_ofRows, Packed.stored?_ofRows]
      cases found : (rows.getD state [])[index]? with
      | none => rfl
      | some choice =>
          simp only [Distribution.collect_eq_ok (accepted choice found),
            Distribution.ofList_entries]
          rfl

theorem choice?_eq_ok_or_breach (layout : Layout R) (state index : Nat) :
    layout.choice? (ε := ε) state index = .ok (layout.stored? state index) ∨
      layout.choice? (ε := ε) state index = Attempt.breach := by
  cases layout with
  | listed rows => exact .inl rfl
  | locked rows => exact .inl rfl
  | packed arrays =>
      obtain ⟨rows, rfl⟩ := arrays.exists_ofRows
      simp only [choice?, stored?, Packed.choice?_ofRows, Packed.stored?_ofRows]
      cases found : (rows.getD state [])[index]? with
      | none => exact .inl rfl
      | some choice =>
          rcases Distribution.collect_eq_ok_or_breach (ε := ε)
            choice.entries with collected | broken
          · left
            simp only [collected, Distribution.ofList_entries]
            rfl
          · right
            simp only [broken]
            rfl

theorem stored?_of_choice? {found : Option (Distribution R)}
    (read : layout.choice? (ε := ε) state index = .ok found) :
    layout.stored? state index = found := by
  rcases layout.choice?_eq_ok_or_breach (ε := ε) state index with done | broken
  · rw [done] at read
    cases read
    rfl
  · rw [broken] at read
    cases read

end Reading

end Layout

@[simp]
theorem Table.numStates_ofModel {R : Type} [Scalar R] (m : Model R) :
    (Table.ofModel m).numStates = m.numStates := by
  simp [Table.numStates, Table.ofModel]

theorem Table.branches_ofModel {R : Type} [Scalar R] {m : Model R}
    {state : Nat} (inside : state < m.numStates) :
    (Table.ofModel m).branches state =
      (m.layout.choicesOf state).map Distribution.entries := by
  simp [Table.branches, Table.ofModel, inside]

namespace Model

variable {R : Type} [Scalar R]

/-- No choice that is stored has a negative weight. -/
def NonNegative (m : Model R) : Prop :=
  ∀ state index, ∀ choice ∈ m.stored? state index, choice.NonNegative

theorem nonNegative_iff {m : Model R} :
    m.NonNegative ↔ ∀ state, state < m.numStates → ∀ index,
      index < m.numChoices state → ∀ choice ∈ m.stored? state index,
        choice.NonNegative := by
  constructor
  · intro accepted state _ index _
    exact accepted state index
  · intro accepted state index choice found
    have counted := Layout.lt_numChoices_of_stored? found
    exact accepted state (Layout.lt_numStates_of_lt_numChoices counted) index
      counted choice found

instance (m : Model R) : Decidable m.NonNegative :=
  decidable_of_iff _ nonNegative_iff.symm

end Model

namespace Table

variable {R ε : Type} [Scalar R] {m : Model R}

private theorem readRow_of_mapM {state : Nat}
    (choices : (List.range (m.numChoices state)).mapM
      (m.layout.choice? (ε := ε) state) =
        .ok ((List.range (m.numChoices state)).map (m.layout.stored? state))) :
    readRow (ε := ε) m state =
      .ok ((m.layout.choicesOf state).map Distribution.entries) := by
  rw [readRow, choices, Attempt.ok_bind, List.filterMap_map]
  rfl

private theorem read_of_choices
    (choices : ∀ state index, m.layout.choice? (ε := ε) state index =
      .ok (m.layout.stored? state index)) :
    read (ε := ε) m = .ok (ofModel m) := by
  have rows : ∀ state ∈ List.range m.numStates, readRow (ε := ε) m state =
      .ok ((m.layout.choicesOf state).map Distribution.entries) :=
    fun state _ => readRow_of_mapM
      (Attempt.mapM_eq_ok_map fun index _ => choices state index)
  rw [read, Attempt.mapM_eq_ok_map rows]
  rfl

/-- Without negative weights, what is stored is what is read. -/
theorem read_eq_ok (accepted : m.NonNegative) :
    read (ε := ε) m = .ok (ofModel m) :=
  read_of_choices fun state index => Layout.choice?_eq_ok (accepted state index)

/-- Lists are read as they are, whatever their weights are. -/
theorem read_of_listed {rows : Array (List (Distribution R))}
    (listed : m.layout = .listed rows) :
    read (ε := ε) m = .ok (ofModel m) := by
  apply read_of_choices
  rw [listed]
  exact fun _ _ => rfl

theorem read_eq_ok_or_breach :
    read (ε := ε) m = .ok (ofModel m) ∨ read (ε := ε) m = Attempt.breach := by
  have rows : ∀ state ∈ List.range m.numStates,
      readRow (ε := ε) m state =
          .ok ((m.layout.choicesOf state).map Distribution.entries) ∨
        readRow (ε := ε) m state = Attempt.breach := by
    intro state _
    have choices := Attempt.mapM_eq_ok_map_or_breach
      fun index (_ : index ∈ List.range (m.numChoices state)) =>
        m.layout.choice?_eq_ok_or_breach (ε := ε) state index
    rcases choices with done | broken
    · exact .inl (readRow_of_mapM done)
    · exact .inr (by rw [readRow, broken]; rfl)
  rcases Attempt.mapM_eq_ok_map_or_breach rows with done | broken
  · exact .inl (by rw [read, done]; rfl)
  · exact .inr (by rw [read, broken]; rfl)

theorem read_bind_congr {α : Type} {next other : Table R → Attempt ε α}
    (same : next (ofModel m) = other (ofModel m)) :
    (read m >>= next) = (read m >>= other) := by
  rcases read_eq_ok_or_breach (ε := ε) (m := m) with done | broken
  · rw [done]
    exact same
  · rw [broken]
    rfl

end Table

/-- A decision process: every state has choices, no more than can be laid out,
and each of them is found, has no negative weight and leads to states. -/
structure Model.IsProcess {R : Type} [Scalar R] (m : Model R) : Prop where
  kind : m.kind = .mdp
  inhabited : 0 < m.numStates
  choices : ∀ state, state < m.numStates →
    0 < m.numChoices state ∧ m.numChoices state ≤ Word.maxRows
  offers : ∀ state, state < m.numStates → ∀ index, index < m.numChoices state →
    m.layout.isAddressable state index = true ∧
      ∃ choice ∈ m.stored? state index,
        choice.NonNegative ∧
          Branch.isBelow choice.entries m.numStates = true

namespace Model.IsProcess

variable {R : Type} [Scalar R] {m : Model R} {state : Nat}

theorem nonNegative (process : m.IsProcess) : m.NonNegative := by
  apply Model.nonNegative_iff.mpr
  intro state inside index counted choice found
  obtain ⟨-, other, same, accepted, -⟩ :=
    process.offers state inside index counted
  rw [Option.mem_def.mp found] at same
  cases same
  exact accepted

theorem choicesOf_eq (process : m.IsProcess) (inside : state < m.numStates) :
    m.layout.choicesOf state =
      (List.range (m.numChoices state)).map fun index =>
        (m.stored? state index).getD default := by
  apply List.filterMap_eq_map_iff_forall_eq_some.mpr
  intro index member
  obtain ⟨-, choice, found, -⟩ :=
    process.offers state inside index (List.mem_range.mp member)
  have same : m.layout.stored? state index = some choice := found
  simp [Model.stored?, same]

theorem length_branches (process : m.IsProcess)
    (inside : state < m.numStates) :
    ((Table.ofModel m).branches state).length = m.numChoices state := by
  rw [Table.branches_ofModel inside, process.choicesOf_eq inside]
  simp

theorem length_branches_le (process : m.IsProcess) (state : Nat) :
    ((Table.ofModel m).branches state).length ≤ Word.signedLimit := by
  by_cases inside : state < m.numStates
  · rw [process.length_branches inside]
    exact (process.choices state inside).2.trans (by decide)
  · simp [Table.branches, Table.ofModel, inside]

theorem getElem?_branches (process : m.IsProcess)
    (inside : state < m.numStates) {index : Nat}
    (counted : index < m.numChoices state) {choice : Distribution R}
    (found : m.stored? state index = some choice) :
    ((Table.ofModel m).branches state)[index]? = some choice.entries := by
  rw [Table.branches_ofModel inside, process.choicesOf_eq inside]
  simp [counted, found]

theorem isBelow_of_mem_branches (process : m.IsProcess)
    (inside : state < m.numStates) {branch : Branch R}
    (member : branch ∈ (Table.ofModel m).branches state) :
    branch.isBelow m.numStates = true := by
  rw [Table.branches_ofModel inside, process.choicesOf_eq inside] at member
  simp only [List.map_map, List.mem_map, List.mem_range] at member
  obtain ⟨index, counted, rfl⟩ := member
  obtain ⟨-, choice, found, -, below⟩ :=
    process.offers state inside index counted
  have same : m.stored? state index = some choice := found
  simpa [same] using below

end Model.IsProcess

end Markov
