import Mathlib.Data.List.Chain
import Mathlib.Order.Bounds.Basic
import Mathlib.Tactic.MkIffOfInductiveProp
import Markov.Strategy.Countdown

/-!
# Accepted decision tables

A row of a raw table alternates pivots and actions.  Reading it cuts the pivots
off at the bound while it checks that none is larger than the one before it, so
the order of the pivots is checked below the bound only.  `WellFormed` says
which rows pass and `normalised` what is kept of them; the functions that read
rows and tables are described by these two.
-/

namespace Markov.CountdownStrategy

/-- The pivots and actions of a row.  A last number without partner is left
out. -/
def pairs : List Int → List (Int × Int)
  | [] => []
  | [_] => []
  | pivot :: action :: rest => (pivot, action) :: pairs rest

/-- A pair as a rule, with its pivot cut off at the bound. -/
def clamped (bound : Nat) (pair : Int × Int) : Rule :=
  ⟨min pair.1.toNat bound, pair.2.toNat⟩

/-- The rules that are kept of a row. -/
def normalised (bound : Nat) (row : List Int) : List Rule :=
  (pairs row).map (clamped bound)

/-- A row of pairs of natural numbers whose first pivot reaches the bound. -/
@[mk_iff]
structure Shaped (bound : Int) (row : List Int) : Prop where
  filled : row ≠ []
  even : row.length % 2 = 0
  natural : ∀ value ∈ row, 0 ≤ value
  reaches : ∀ pair ∈ (pairs row).head?, bound ≤ pair.1

/-- A row that is accepted: no pivot follows a smaller one that is below the
bound. -/
@[mk_iff]
structure WellFormed (bound : Int) (row : List Int) : Prop extends
    Shaped bound row where
  descending : (pairs row).Pairwise fun earlier later =>
    later.1 ≤ earlier.1 ∨ bound ≤ earlier.1

/-- A row of rules as a strategy keeps it: the first pivot is the bound, and no
pivot is larger than the one before it. -/
structure Canonical (bound : Nat) (row : List Rule) : Prop where
  first : ∃ rule, row.head? = some rule ∧ rule.pivot = bound
  descending : row.Pairwise fun earlier later => later.pivot ≤ earlier.pivot

instance (bound : Int) (row : List Int) : Decidable (Shaped bound row) :=
  decidable_of_iff' _ (shaped_iff bound row)

instance (bound : Int) (row : List Int) : Decidable (WellFormed bound row) :=
  decidable_of_iff' _ (wellFormed_iff bound row)

/-! ## Pairs -/

theorem mem_of_mem_pairs {row : List Int} {pair : Int × Int}
    (member : pair ∈ pairs row) : pair.1 ∈ row ∧ pair.2 ∈ row := by
  fun_induction pairs row with
  | case1 => cases member
  | case2 => cases member
  | case3 pivot action rest ih =>
      rcases List.mem_cons.mp member with rfl | later
      · exact ⟨by simp, by simp⟩
      · obtain ⟨pivots, actions⟩ := ih later
        exact ⟨by simp [pivots], by simp [actions]⟩

theorem length_pairs {row : List Int} (even : row.length % 2 = 0) :
    row.length = 2 * (pairs row).length := by
  fun_induction pairs row with
  | case1 => rfl
  | case2 => cases even
  | case3 pivot action rest ih =>
      simp only [List.length_cons] at even ⊢
      have rest := ih (by omega)
      omega

theorem normalised_cons (bound : Nat) (pivot action : Int)
    (rest : List Int) :
    normalised bound (pivot :: action :: rest) =
      ⟨min pivot.toNat bound, action.toNat⟩ :: normalised bound rest := rfl

/-! ## Rows -/

/-- What is read of a row, pair by pair.  Each pivot is compared with the one
before it after both were cut off. -/
theorem rules_eq_ok_iff {bound previous : Nat} {isFirst : Bool}
    {row : List Int} {read : List Rule} :
    rules bound isFirst previous row = .ok read ↔
      read = normalised bound row ∧
      (isFirst = true → ∀ pair ∈ (pairs row).head?, bound ≤ pair.1.toNat) ∧
      (previous :: (normalised bound row).map Rule.pivot).IsChain
        fun earlier later => later ≤ earlier := by
  fun_induction rules bound isFirst previous row generalizing read with
  | case1 isFirst previous pivot action rest low =>
      rw [Bool.and_eq_true, decide_eq_true_eq] at low
      constructor
      · intro ok
        cases ok
      · rintro ⟨-, reaches, -⟩
        have high := reaches low.1 (pivot, action) rfl
        omega
  | case2 isFirst previous pivot action rest cut reaches =>
      rename_i larger
      constructor
      · intro ok
        cases ok
      · rintro ⟨-, -, chain⟩
        rw [normalised_cons, List.map_cons, List.isChain_cons_cons] at chain
        exact (Nat.not_lt.mpr chain.1 larger).elim
  | case3 isFirst previous pivot action rest cut reaches smaller =>
      rename_i ih
      rw [Attempt.bind_eq_ok, normalised_cons, List.map_cons,
        List.isChain_cons_cons]
      constructor
      · rintro ⟨more, later, done⟩
        cases done
        obtain ⟨rfl, -, chain⟩ := ih.mp later
        refine ⟨rfl, ?_, Nat.not_lt.mp smaller, chain⟩
        rintro rfl pair ⟨⟩
        simpa using reaches
      · rintro ⟨rfl, -, -, chain⟩
        exact ⟨_, ih.mpr ⟨rfl, by simp, chain⟩, rfl⟩
  | case4 row isFirst previous short =>
      have none : pairs row = [] := by
        fun_cases pairs row with
        | case1 => rfl
        | case2 => rfl
        | case3 pivot action rest => exact (short pivot action rest rfl).elim
      simp only [normalised, none, List.map_nil, List.isChain_singleton,
        List.head?_nil]
      constructor
      · intro ok
        cases ok
        simp
      · rintro ⟨rfl, -⟩
        rfl

theorem pairwise_normalised_iff {bound : Nat} {row : List Int}
    (natural : ∀ value ∈ row, 0 ≤ value) :
    (normalised bound row).Pairwise
        (fun earlier later => later.pivot ≤ earlier.pivot) ↔
      (pairs row).Pairwise fun earlier later =>
        later.1 ≤ earlier.1 ∨ (bound : Int) ≤ earlier.1 := by
  rw [normalised, List.pairwise_map]
  apply List.Pairwise.iff_of_mem
  intro earlier later before after
  have first := natural _ (mem_of_mem_pairs before).1
  have second := natural _ (mem_of_mem_pairs after).1
  simp only [clamped]
  omega

theorem isChain_normalised_iff (bound : Nat) (row : List Int) :
    (bound :: (normalised bound row).map Rule.pivot).IsChain
        (fun earlier later => later ≤ earlier) ↔
      (normalised bound row).Pairwise
        fun earlier later => later.pivot ≤ earlier.pivot := by
  rw [List.isChain_iff_pairwise, List.pairwise_cons, List.pairwise_map]
  refine and_iff_right ?_
  intro pivot member
  obtain ⟨rule, kept, rfl⟩ := List.mem_map.mp member
  obtain ⟨pair, -, rfl⟩ := List.mem_map.mp kept
  exact Nat.min_le_right _ _

theorem WellFormed.canonical {bound : Nat} {row : List Int}
    (wellFormed : WellFormed bound row) :
    Canonical bound (normalised bound row) := by
  have length := length_pairs wellFormed.even
  have counted := List.length_pos_iff.mpr wellFormed.filled
  have some : pairs row ≠ [] := List.length_pos_iff.mp (by omega)
  obtain ⟨pair, rest, shape⟩ := List.exists_cons_of_ne_nil some
  have high := wellFormed.reaches pair (by simp [shape])
  have start : (clamped bound pair).pivot = bound := by
    simp only [clamped]
    omega
  exact ⟨⟨clamped bound pair, by simp [normalised, shape], start⟩,
    (pairwise_normalised_iff wellFormed.natural).mpr wellFormed.descending⟩

theorem readRow_eq_ok_iff {bound : Nat} {row : List Int} {read : List Rule} :
    readRow bound row = .ok read ↔
      WellFormed bound row ∧ read = normalised bound row := by
  constructor
  · intro ok
    unfold readRow at ok
    split at ok
    case isTrue => cases ok
    case isFalse filled =>
      split at ok
      case isTrue => cases ok
      case isFalse even =>
        split at ok
        case h_1 => cases ok
        case h_2 natural =>
          obtain ⟨rfl, reaches, chain⟩ := rules_eq_ok_iff.mp ok
          have natural : ∀ value ∈ row, 0 ≤ value := by
            simpa using natural
          rw [isChain_normalised_iff, pairwise_normalised_iff natural] at chain
          refine ⟨⟨⟨by simpa using filled, by simpa using even, natural, ?_⟩,
            chain⟩, rfl⟩
          intro pair first
          have high := reaches rfl pair first
          have positive := natural _
            (mem_of_mem_pairs (List.mem_of_head? first)).1
          omega
  · rintro ⟨wellFormed, rfl⟩
    have filled : row.isEmpty = false := by
      simpa using wellFormed.filled
    have natural : row.find? (· < 0) = none := by
      simpa using wellFormed.natural
    unfold readRow
    rw [filled, wellFormed.even, natural]
    refine rules_eq_ok_iff.mpr ⟨rfl, ?_, ?_⟩
    · intro _ pair first
      have high := wellFormed.reaches pair first
      omega
    · rw [isChain_normalised_iff, pairwise_normalised_iff wellFormed.natural]
      exact wellFormed.descending

/-! ## Rows of rules -/

/-- The numbers that a row of rules is written as. -/
def numbers (row : List Rule) : List Int :=
  row.flatMap fun rule => [(rule.pivot : Int), (rule.action : Int)]

theorem pairs_numbers (row : List Rule) :
    pairs (numbers row) =
      row.map fun rule => ((rule.pivot : Int), (rule.action : Int)) := by
  induction row with
  | nil => rfl
  | cons rule row ih => exact congrArg (List.cons _) ih

theorem length_numbers (row : List Rule) :
    (numbers row).length = 2 * row.length := by
  induction row with
  | nil => rfl
  | cons rule row ih =>
      rw [numbers, List.flatMap_cons, List.length_append, ← numbers, ih,
        List.length_cons]
      simp only [List.length_cons, List.length_nil]
      omega

theorem Canonical.ne_nil {bound : Nat} {row : List Rule}
    (canonical : Canonical bound row) : row ≠ [] := by
  rintro rfl
  obtain ⟨rule, head, -⟩ := canonical.first
  cases head

theorem Canonical.wellFormed_numbers {bound : Nat} {row : List Rule}
    (canonical : Canonical bound row) : WellFormed bound (numbers row) := by
  obtain ⟨start, head, reaches⟩ := canonical.first
  have length := length_numbers row
  refine ⟨⟨?_, by omega, ?_, ?_⟩, ?_⟩
  · have filled := List.length_pos_iff.mpr canonical.ne_nil
    exact List.length_pos_iff.mp (by omega)
  · intro value member
    obtain ⟨rule, -, written⟩ := List.mem_flatMap.mp member
    simp only [List.mem_cons, List.not_mem_nil, or_false] at written
    omega
  · intro pair found
    rw [pairs_numbers, List.head?_map, head, Option.map_some] at found
    cases found
    exact Int.ofNat_le.mpr reaches.ge
  · rw [pairs_numbers, List.pairwise_map]
    exact canonical.descending.imp fun less => .inl (Int.ofNat_le.mpr less)

/-- Cutting off pivots a second time changes nothing. -/
theorem Canonical.normalised_numbers {bound : Nat} {row : List Rule}
    (canonical : Canonical bound row) :
    normalised bound (numbers row) = row := by
  obtain ⟨⟨start, head, rfl⟩, descending⟩ := canonical
  obtain ⟨rest, rfl⟩ := List.head?_eq_some_iff.mp head
  rw [normalised, pairs_numbers, List.map_map]
  refine List.map_congr_left (fun rule member => ?_) |>.trans (List.map_id _)
  have below : rule.pivot ≤ start.pivot := by
    rcases List.mem_cons.mp member with rfl | later
    · exact le_rfl
    · exact (List.pairwise_cons.mp descending).1 rule later
  simp [clamped, below]

theorem accepts_numbers {bound : Nat} {table : List (List Rule)}
    (canonical : ∀ row ∈ table, Canonical bound row) :
    (∀ row ∈ table.map numbers, WellFormed bound row) ∧
    table = (table.map numbers).map (normalised bound) := by
  constructor
  · intro row member
    obtain ⟨kept, listed, rfl⟩ := List.mem_map.mp member
    exact (canonical kept listed).wellFormed_numbers
  · rw [List.map_map]
    refine (List.map_id table).symm.trans
      (List.map_congr_left fun row listed => ?_)
    exact (canonical row listed).normalised_numbers.symm

/-! ## Tables -/

theorem readRows_eq_ok_iff {bound state : Nat} {rows : List (List Int)}
    {table : List (List Rule)} :
    readRows bound state rows = .ok table ↔
      (∀ row ∈ rows, WellFormed bound row) ∧
      table = rows.map (normalised bound) := by
  induction rows generalizing state table with
  | nil =>
      constructor
      · intro ok
        cases ok
        simp
      · rintro ⟨-, rfl⟩
        rfl
  | cons row rows ih =>
      rw [readRows, List.forall_mem_cons, List.map_cons]
      cases found : readRow bound row with
      | error defect =>
          constructor
          · intro ok
            cases ok
          · rintro ⟨⟨wellFormed, -⟩, -⟩
            rw [readRow_eq_ok_iff.mpr ⟨wellFormed, rfl⟩] at found
            cases found
      | ok read =>
          obtain ⟨wellFormed, rfl⟩ := readRow_eq_ok_iff.mp found
          dsimp only
          rw [Attempt.bind_eq_ok]
          constructor
          · rintro ⟨more, later, done⟩
            cases done
            obtain ⟨others, rfl⟩ := ih.mp later
            exact ⟨⟨wellFormed, others⟩, rfl⟩
          · rintro ⟨⟨-, others⟩, rfl⟩
            exact ⟨_, ih.mpr ⟨others, rfl⟩, rfl⟩

/-- The first row that is not accepted is the one that is reported. -/
theorem isLeast_of_readRows_eq_error {bound state : Nat}
    {rows : List (List Int)} {error : TableError}
    (failed : readRows bound state rows = .error error) :
    ∃ offset, error.state = state + offset ∧
      IsLeast {index | ∃ row, rows[index]? = some row ∧
        ¬WellFormed bound row} offset := by
  induction rows generalizing state with
  | nil => cases failed
  | cons row rows ih =>
      rw [readRows] at failed
      cases found : readRow bound row with
      | error defect =>
          rw [found] at failed
          cases failed
          refine ⟨0, rfl, ⟨row, rfl, ?_⟩, fun _ _ => Nat.zero_le _⟩
          intro wellFormed
          rw [readRow_eq_ok_iff.mpr ⟨wellFormed, rfl⟩] at found
          cases found
      | ok read =>
          rw [found] at failed
          have later : readRows bound (state + 1) rows = .error error := by
            cases rest : readRows bound (state + 1) rows with
            | error other =>
                rw [rest] at failed
                exact failed
            | ok table =>
                rw [rest] at failed
                cases failed
          obtain ⟨offset, named, ⟨other, listed, rejected⟩, least⟩ := ih later
          refine ⟨offset + 1, by omega, ⟨other, listed, rejected⟩, ?_⟩
          rintro index ⟨earlier, before, notWellFormed⟩
          cases index with
          | zero =>
              cases before
              exact (notWellFormed (readRow_eq_ok_iff.mp found).1).elim
          | succ index =>
              exact Nat.succ_le_succ (least ⟨earlier, before, notWellFormed⟩)

theorem foldr_length_eq (rows : List (List Int)) :
    (rows.map List.length).foldr (· + ·) 0 = rows.flatten.length := by
  induction rows with
  | nil => rfl
  | cons row rows ih => simp [ih]

theorem ofTable_eq_ok_iff {rows : List (List Int)} {bound : Int}
    {s : CountdownStrategy} :
    ofTable rows bound = .ok s ↔
      0 ≤ bound ∧ (∀ row ∈ rows, WellFormed bound row) ∧
      s = { table := rows.map (normalised bound.toNat)
            bound := bound.toNat
            memory := none
            tableSize := rows.flatten.length
            info := "No information available" } := by
  rw [ofTable]
  rcases Int.lt_or_le bound 0 with negative | natural
  · rw [if_pos negative]
    constructor
    · intro ok
      cases ok
    · rintro ⟨natural, -⟩
      omega
  · rw [if_neg (Int.not_lt.mpr natural), Attempt.bind_eq_ok]
    have same : (bound.toNat : Int) = bound := Int.toNat_of_nonneg natural
    constructor
    · rintro ⟨table, read, done⟩
      obtain ⟨wellFormed, rfl⟩ := readRows_eq_ok_iff.mp read
      cases done
      rw [same] at wellFormed
      exact ⟨natural, wellFormed, by rw [foldr_length_eq]⟩
    · rintro ⟨-, wellFormed, rfl⟩
      rw [← same] at wellFormed
      exact ⟨_, readRows_eq_ok_iff.mpr ⟨wellFormed, rfl⟩,
        by rw [foldr_length_eq]; rfl⟩

theorem isLeast_of_ofTable_eq_error {rows : List (List Int)} {bound : Int}
    {error : TableError} (failed : ofTable rows bound = .error error) :
    bound < 0 ∧ error.state = 0 ∨
      0 ≤ bound ∧ IsLeast {state | ∃ row, rows[state]? = some row ∧
        ¬WellFormed bound row} error.state := by
  rw [ofTable] at failed
  rcases Int.lt_or_le bound 0 with negative | natural
  · rw [if_pos negative] at failed
    cases failed
    exact .inl ⟨negative, rfl⟩
  · rw [if_neg (Int.not_lt.mpr natural)] at failed
    refine .inr ⟨natural, ?_⟩
    cases read : readRows bound.toNat 0 rows with
    | ok table =>
        rw [read] at failed
        cases failed
    | error other =>
        rw [read] at failed
        cases failed
        obtain ⟨offset, named, least⟩ := isLeast_of_readRows_eq_error read
        rw [Int.toNat_of_nonneg natural] at least
        rwa [named, Nat.zero_add]

/-- The strategy was accepted as a table.  Its memory and its description may
have changed since. -/
def MadeFrom (s : CountdownStrategy) (rows : List (List Int)) (bound : Int) :
    Prop :=
  ∃ made, ofTable rows bound = .ok made ∧
    s = { made with memory := s.memory, info := s.info }

theorem madeFrom_iff {s : CountdownStrategy} {rows : List (List Int)}
    {bound : Int} :
    s.MadeFrom rows bound ↔
      0 ≤ bound ∧ (∀ row ∈ rows, WellFormed bound row) ∧
      s.table = rows.map (normalised bound.toNat) ∧ s.bound = bound.toNat ∧
      s.tableSize = rows.flatten.length := by
  constructor
  · rintro ⟨made, accepted, same⟩
    obtain ⟨natural, wellFormed, rfl⟩ := ofTable_eq_ok_iff.mp accepted
    rw [same]
    exact ⟨natural, wellFormed, rfl, rfl, rfl⟩
  · rintro ⟨natural, wellFormed, table, steps, size⟩
    refine ⟨_, ofTable_eq_ok_iff.mpr ⟨natural, wellFormed, rfl⟩, ?_⟩
    cases s
    cases table
    cases steps
    cases size
    rfl

theorem MadeFrom.canonical {s : CountdownStrategy} {rows : List (List Int)}
    {bound : Int} (made : s.MadeFrom rows bound) :
    ∀ row ∈ s.table, Canonical s.bound row := by
  obtain ⟨natural, wellFormed, table, steps, -⟩ := madeFrom_iff.mp made
  rw [table]
  intro row listed
  obtain ⟨source, member, rfl⟩ := List.mem_map.mp listed
  have accepted := wellFormed source member
  rw [← Int.toNat_of_nonneg natural] at accepted
  exact steps ▸ accepted.canonical

/-- A plan in use, with runs of equal pivots at the bound and below it. -/
def dimmer : CountdownStrategy where
  table := [[⟨5, 4⟩, ⟨5, 3⟩, ⟨5, 2⟩, ⟨3, 1⟩, ⟨3, 0⟩], [⟨5, 7⟩, ⟨2, 6⟩]]
  bound := 5
  memory := some 4
  tableSize := 14
  info := "evening"

theorem dimmer_madeFrom :
    dimmer.MadeFrom [[7, 4, 6, 3, 5, 2, 3, 1, 3, 0], [5, 7, 2, 6]] 5 :=
  ⟨{ dimmer with memory := none, info := "No information available" }, rfl,
    rfl⟩

/-- Which tables are accepted, what is reported of the others, and what is kept
of an accepted table.  A rejected table is reported with the first row that is
not well formed, and a negative bound with row zero.  An accepted row keeps its
pairs and its actions, and pivots above the bound are cut off. -/
theorem ofTable_accepts_wellFormed (rows : List (List Int)) (bound : Int) :
    ((∃ s, ofTable rows bound = .ok s) ↔
      0 ≤ bound ∧ ∀ row ∈ rows, WellFormed bound row) ∧
    (∀ error, ofTable rows bound = .error error →
      bound < 0 ∧ error.state = 0 ∨
      0 ≤ bound ∧ IsLeast {state | ∃ row, rows[state]? = some row ∧
        ¬WellFormed bound row} error.state) ∧
    (∀ s, ofTable rows bound = .ok s →
      s.bound = bound ∧ s.tableSize = rows.flatten.length ∧
      s.table.length = rows.length ∧
      ∀ (state : Nat) row, rows[state]? = some row →
        ∃ read, s.table[state]? = some read ∧ row.length = 2 * read.length ∧
          read.map (fun rule => ((rule.pivot : Int), (rule.action : Int))) =
            (pairs row).map (fun pair => (min pair.1 bound, pair.2)) ∧
          (∃ first, read.head? = some first ∧ first.pivot = bound) ∧
          read.Pairwise fun earlier later => later.pivot ≤ earlier.pivot) := by
  refine ⟨?_, fun error => isLeast_of_ofTable_eq_error, ?_⟩
  · constructor
    · rintro ⟨s, made⟩
      obtain ⟨natural, wellFormed, -⟩ := ofTable_eq_ok_iff.mp made
      exact ⟨natural, wellFormed⟩
    · rintro ⟨natural, wellFormed⟩
      exact ⟨_, ofTable_eq_ok_iff.mpr ⟨natural, wellFormed, rfl⟩⟩
  · intro s made
    obtain ⟨natural, wellFormed, rfl⟩ := ofTable_eq_ok_iff.mp made
    obtain ⟨steps, rfl⟩ := Int.eq_ofNat_of_zero_le natural
    refine ⟨rfl, rfl, List.length_map _, ?_⟩
    intro state row listed
    have accepted := wellFormed row (List.mem_of_getElem? listed)
    obtain ⟨⟨first, found, reaches⟩, descending⟩ := accepted.canonical
    refine ⟨normalised steps row, by simp [listed], ?_, ?_,
      ⟨first, found, congrArg Nat.cast reaches⟩, descending⟩
    · rw [normalised, List.length_map]
      exact length_pairs accepted.even
    · rw [normalised, List.map_map]
      refine List.map_congr_left fun pair member => ?_
      obtain ⟨pivot, action⟩ := mem_of_mem_pairs member
      have positive := accepted.natural _ pivot
      have kept := accepted.natural _ action
      simp only [Function.comp, clamped, Prod.mk.injEq]
      omega

/-- A table with pivots that are cut off, and one whose second and third rows
are at fault. -/
theorem ferryTable_accepts :
    (∃ s, ofTable [[30, 1, 28, 2], [25, 1, 24, 2]] 25 = .ok s ∧
      s.tableSize = 8 ∧ ∃ read, s.table[0]? = some read ∧
        read.map (fun rule => ((rule.pivot : Int), (rule.action : Int))) =
          [(25, 1), (25, 2)]) ∧
    ∃ error, ofTable [[25, 1], [25, 1, 3, 2, 4, 0], [24, 2]] 25 =
      .error error ∧ error.state = 1 := by
  constructor
  · obtain ⟨accepts, -, keeps⟩ :=
      ofTable_accepts_wellFormed [[30, 1, 28, 2], [25, 1, 24, 2]] 25
    obtain ⟨s, made⟩ := accepts.mpr (by decide)
    obtain ⟨-, size, -, rows⟩ := keeps s made
    obtain ⟨read, listed, -, kept, -⟩ := rows 0 _ rfl
    exact ⟨s, made, size, read, listed, kept⟩
  · obtain ⟨accepts, reports, -⟩ :=
      ofTable_accepts_wellFormed [[25, 1], [25, 1, 3, 2, 4, 0], [24, 2]] 25
    cases made : ofTable [[25, 1], [25, 1, 3, 2, 4, 0], [24, 2]] 25 with
    | ok s => exact absurd (accepts.mp ⟨s, made⟩) (by decide)
    | error error =>
        refine ⟨error, rfl, ?_⟩
        rcases reports error made with ⟨negative, -⟩ | ⟨-, atFault, least⟩
        · cases negative
        · have atMost : error.state ≤ 1 :=
            least ⟨[25, 1, 3, 2, 4, 0], rfl, by decide⟩
          obtain ⟨row, listed, rejected⟩ := atFault
          have notFirst : error.state ≠ 0 := by
            intro first
            rw [first] at listed
            cases listed
            exact rejected (by decide)
          omega

/-- Pivots above the bound may rise along a row that is accepted. -/
theorem risingTable_accepted :
    ¬((∃ s, ofTable [[30, 1, 40, 2]] 25 = .ok s) ↔
      (0 : Int) ≤ 25 ∧ ∀ row ∈ [[30, 1, 40, 2]], Shaped 25 row ∧
        (pairs row).Pairwise fun earlier later => later.1 ≤ earlier.1) := by
  intro descending
  have accepted : ∃ s, ofTable [[30, 1, 40, 2]] 25 = .ok s :=
    ⟨_, ofTable_eq_ok_iff.mpr ⟨by decide, by decide, rfl⟩⟩
  exact absurd (descending.mp accepted) (by decide)

end Markov.CountdownStrategy
