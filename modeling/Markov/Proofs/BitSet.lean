import Mathlib.Data.List.Sort
import Mathlib.Data.Nat.Bitwise
import Markov.BitSet

/-!
# Membership in bit sets

Every operation on bit sets is described by the indices that its result
contains.  Nothing here depends on the cached number of members, and no lemma
asks for word vectors of a particular length.
-/

namespace Markov.BitSet

theorem toNat_mask (index : Nat) :
    (mask index).toNat = 2 ^ (index % 64) := by
  have small : index % 64 < 64 := Nat.mod_lt _ (by decide)
  have power : 2 ^ (index % 64) < 2 ^ 64 :=
    Nat.pow_lt_pow_right (by decide) small
  simp only [mask, UInt64.toNat_shiftLeft, Nat.toUInt64_eq,
    UInt64.toNat_ofNat', UInt64.toNat_one, Nat.shiftLeft_eq, Nat.one_mul]
  rw [Nat.mod_eq_of_lt (show index % 64 < 2 ^ 64 by omega),
    Nat.mod_mod, Nat.mod_eq_of_lt power]

theorem testBit_eq (word : UInt64) (index : Nat) :
    testBit word index = word.toNat.testBit (index % 64) := by
  have masked : (word &&& mask index).toNat =
      (word.toNat.testBit (index % 64)).toNat * 2 ^ (index % 64) := by
    rw [UInt64.toNat_and, toNat_mask, Nat.and_two_pow]
  unfold testBit
  cases bit : word.toNat.testBit (index % 64) with
  | false =>
      have zero : word &&& mask index = 0 := by
        apply UInt64.toNat_inj.mp
        simpa [bit] using masked
      simp [zero]
  | true =>
      have nonzero : word &&& mask index ≠ 0 := by
        intro zero
        have positive : 0 < 2 ^ (index % 64) := Nat.two_pow_pos _
        simp only [zero, bit, UInt64.toNat_zero, Bool.toNat_true,
          Nat.one_mul] at masked
        omega
      simpa using nonzero

theorem contains_eq (set : BitSet) (index : Nat) :
    set.contains index =
      (set.words[index / 64]?.getD 0).toNat.testBit (index % 64) := by
  unfold contains
  cases set.words[index / 64]? with
  | none => simp
  | some word => simp [testBit_eq]

private theorem getElem?_padded (words : Array UInt64) (length i : Nat) :
    (padded words length)[i]?.getD 0 = words[i]?.getD 0 := by
  unfold padded
  by_cases inside : i < words.size
  · simp [Array.getElem?_append, inside]
  · have outside : words[i]? = none := by simpa using inside
    simp only [Array.getElem?_append, inside, if_false, outside,
      Option.getD_none]
    by_cases added : i - words.size < length - words.size
    · simp [added]
    · simp [added]

private theorem size_padded (words : Array UInt64) (length : Nat) :
    length ≤ (padded words length).size := by
  simp only [padded, Array.size_append, Array.size_replicate]
  omega

@[simp]
theorem contains_empty (index : Nat) : empty.contains index = false := by
  simp [contains, empty]

@[simp]
theorem contains_withCapacity (capacity index : Nat) :
    (withCapacity capacity).contains index = false := by
  rw [contains_eq]
  by_cases inside : index / 64 < (capacity + 63) / 64
  · simp [withCapacity, inside]
  · simp [withCapacity, inside]

@[simp]
theorem contains_insert (set : BitSet) (added index : Nat) :
    (set.insert added).contains index =
      (decide (index = added) || set.contains index) := by
  rw [contains_eq, contains_eq]
  simp only [insert, add, Array.getElem?_modify]
  have inside : added / 64 < (padded set.words (added / 64 + 1)).size :=
    size_padded set.words (added / 64 + 1)
  by_cases sameWord : added / 64 = index / 64
  · have present :
        (padded set.words (added / 64 + 1))[index / 64]? =
          some (set.words[index / 64]?.getD 0) := by
      have value := getElem?_padded set.words (added / 64 + 1) (index / 64)
      rw [sameWord] at inside value ⊢
      simp only [Array.getElem?_eq_getElem inside, Option.getD_some] at value ⊢
      rw [value]
    have sameBit : (added % 64 = index % 64) = (index = added) := by
      apply propext
      omega
    simp only [sameWord, if_true]
    rw [sameWord] at present
    simp [present, toNat_mask, Nat.testBit_two_pow, sameBit, Bool.or_comm]
  · have different : index ≠ added := by
      rintro rfl
      exact sameWord rfl
    simp [sameWord, getElem?_padded, different]

@[simp]
theorem contains_insertMany (set : BitSet) (indices : List Nat) (index : Nat) :
    (set.insertMany indices).contains index =
      (decide (index ∈ indices) || set.contains index) := by
  unfold insertMany
  induction indices generalizing set with
  | nil => simp
  | cons head tail ih =>
      simp only [List.foldl_cons, ih, contains_insert, List.mem_cons]
      by_cases first : index = head <;> by_cases later : index ∈ tail <;>
        simp [first, later]

@[simp]
theorem contains_ofList (indices : List Nat) (index : Nat) :
    (ofList indices).contains index = decide (index ∈ indices) := by
  simp [ofList]

@[simp]
theorem contains_full (n index : Nat) :
    (full n).contains index = decide (index < n) := by
  simp [full]

@[simp]
theorem contains_complement (set : BitSet) (n index : Nat) :
    (set.complement n).contains index =
      (decide (index < n) && !set.contains index) := by
  simp [complement]

private theorem testBit_not (word : UInt64) {bit : Nat} (bound : bit < 64) :
    (~~~ word).toNat.testBit bit = !word.toNat.testBit bit := by
  have small : word.toNat < 2 ^ 64 := word.toNat_lt
  have flipped : (~~~ word).toNat = 2 ^ 64 - (word.toNat + 1) := by
    rw [UInt64.toNat_not]
    simp only [UInt64.size]
    omega
  rw [flipped, Nat.testBit_two_pow_sub_succ small]
  simp [bound]

@[simp]
theorem contains_erase (set : BitSet) (removed index : Nat) :
    (set.erase removed).contains index =
      (decide (index ≠ removed) && set.contains index) := by
  have bound : index % 64 < 64 := Nat.mod_lt _ (by decide)
  rw [contains_eq, contains_eq]
  simp only [erase, remove, Array.getElem?_modify]
  by_cases sameWord : removed / 64 = index / 64
  · have sameBit : (removed % 64 = index % 64) = (index = removed) := by
      apply propext
      omega
    rw [if_pos sameWord]
    cases set.words[index / 64]? with
    | none => simp
    | some word =>
        simp only [Option.map_some, Option.getD_some, UInt64.toNat_and,
          Nat.testBit_and, testBit_not _ bound, toNat_mask, Nat.testBit_two_pow,
          sameBit]
        rw [Bool.and_comm, decide_not]
  · have different : index ≠ removed := by
      rintro rfl
      exact sameWord rfl
    simp [sameWord, different]

@[simp]
theorem contains_clear (set : BitSet) (index : Nat) :
    set.clear.contains index = false := by
  rw [contains_eq]
  cases word : set.words[index / 64]? with
  | none => simp [clear, word]
  | some word' => simp [clear, word]

@[simp]
theorem contains_diff (left right : BitSet) (index : Nat) :
    (left \ right).contains index =
      (left.contains index && !right.contains index) := by
  have bound : index % 64 < 64 := Nat.mod_lt _ (by decide)
  change (left.diff right).contains index = _
  simp only [contains_eq, diff, ofWords, Array.getElem?_mapIdx,
    Array.getD_eq_getD_getElem?]
  cases left.words[index / 64]? with
  | none => simp
  | some word =>
      simp only [Option.map_some, Option.getD_some, UInt64.toNat_and,
        Nat.testBit_and, testBit_not _ bound]

@[simp]
theorem contains_union (left right : BitSet) (index : Nat) :
    (left ∪ right).contains index =
      (left.contains index || right.contains index) := by
  change (left.union right).contains index = _
  simp only [contains_eq, union, ofWords, Array.getElem?_mapIdx,
    Array.getD_eq_getD_getElem?]
  have value := getElem?_padded left.words right.words.size (index / 64)
  have long := size_padded left.words right.words.size
  cases word : (padded left.words right.words.size)[index / 64]? with
  | none =>
      have outside : right.words[index / 64]? = none := by
        simp only [Array.getElem?_eq_none_iff] at word ⊢
        omega
      simp [← value, word, outside]
  | some word' => simp [← value, word]

@[simp]
theorem contains_inter (left right : BitSet) (index : Nat) :
    (left ∩ right).contains index =
      (left.contains index && right.contains index) := by
  change (left.inter right).contains index = _
  simp only [contains_eq, inter, ofWords, Array.getElem?_mapIdx,
    Array.getD_eq_getD_getElem?]
  cases left.words[index / 64]? with
  | none => simp
  | some word => simp

/-! ## The members in order -/

theorem mem_bits {word : UInt64} {bit : Nat} :
    bit ∈ bits word ↔ bit < 64 ∧ word.toNat.testBit bit = true := by
  unfold bits
  split
  · rename_i zero
    simp [zero]
  · simp only [List.mem_filter, List.mem_range, testBit_eq]
    refine and_congr_right fun bound => ?_
    rw [Nat.mod_eq_of_lt bound]

private theorem pairwise_bits (word : UInt64) : (bits word).Pairwise (· < ·) := by
  unfold bits
  split
  · exact .nil
  · exact List.Pairwise.filter _ List.pairwise_lt_range

/-- A number and its predecessor share all bits but the lowest one of the
number, and those below it. -/
private theorem testBit_and_pred {n : Nat} (positive : n ≠ 0) :
    ∃ low, n.testBit low = true ∧ (∀ bit < low, n.testBit bit = false) ∧
      ∀ bit, (n &&& (n - 1)).testBit bit =
        (n.testBit bit && decide (bit ≠ low)) := by
  induction n using Nat.strongRecOn with
  | ind n ih =>
      rcases Nat.mod_two_eq_zero_or_one n with even | odd
      · obtain ⟨low, isSet, clear, rest⟩ := ih (n / 2) (by omega) (by omega)
        have pred : (n - 1) / 2 = n / 2 - 1 := by omega
        refine ⟨low + 1, by rwa [Nat.testBit_succ], ?_, ?_⟩
        · intro bit below
          cases bit with
          | zero => simp [even]
          | succ bit =>
              rw [Nat.testBit_succ]
              exact clear bit (by omega)
        · intro bit
          cases bit with
          | zero => simp [even]
          | succ bit =>
              rw [Nat.testBit_succ, Nat.testBit_succ, Nat.and_div_two, pred,
                rest]
              simp
      · have pred : (n - 1) / 2 = n / 2 := by omega
        refine ⟨0, by simp [odd], by simp, ?_⟩
        intro bit
        cases bit with
        | zero =>
            have cleared : (n - 1) % 2 = 0 := by omega
            simp [cleared]
        | succ bit =>
            rw [Nat.testBit_succ, Nat.testBit_succ, Nat.and_div_two, pred]
            simp

/-- The lowest bit of a word is set, those below it are not, and without it the
other bits are left. -/
theorem lowest_spec {word : UInt64} (nonzero : word ≠ 0) :
    word.toNat.testBit (lowest word) = true ∧
      (∀ bit < lowest word, word.toNat.testBit bit = false) ∧
      ∀ bit, (stripped word).toNat.testBit bit =
        (word.toNat.testBit bit && decide (bit ≠ lowest word)) := by
  have positive : word.toNat ≠ 0 := fun zero =>
    nonzero (UInt64.toNat_inj.mp zero)
  have least : 1 ≤ word := by
    rw [UInt64.le_iff_toNat_le, UInt64.toNat_one]
    omega
  have value : (stripped word).toNat = word.toNat &&& (word.toNat - 1) := by
    rw [stripped, UInt64.toNat_and, UInt64.toNat_sub_of_le _ _ least,
      UInt64.toNat_one]
  obtain ⟨low, isSet, clear, rest⟩ := testBit_and_pred positive
  have difference : (word ^^^ stripped word).toNat = 2 ^ low := by
    apply Nat.eq_of_testBit_eq
    intro bit
    rw [UInt64.toNat_xor, Nat.testBit_xor, value, rest, Nat.testBit_two_pow]
    by_cases here : low = bit
    · simp [← here, isSet]
    · simp [here, Ne.symm here]
  have found : lowest word = low := by
    rw [lowest, difference, Nat.log2_two_pow]
  rw [found, value]
  exact ⟨isSet, clear, rest⟩

theorem bits_of_ne_zero {word : UInt64} (nonzero : word ≠ 0) :
    bits word = lowest word :: bits (stripped word) := by
  obtain ⟨isSet, clear, rest⟩ := lowest_spec nonzero
  have inside : lowest word < 64 := by
    by_contra outside
    have small : word.toNat < 2 ^ lowest word :=
      word.toNat_lt.trans_le (Nat.pow_le_pow_right (by decide) (by omega))
    rw [Nat.testBit_lt_two_pow small] at isSet
    contradiction
  apply (pairwise_bits word).eq_of_mem_iff
  · refine List.pairwise_cons.mpr ⟨?_, pairwise_bits _⟩
    intro bit member
    have left := (mem_bits.mp member).2
    rw [rest, Bool.and_eq_true, decide_eq_true_eq] at left
    by_contra notAbove
    have below : bit < lowest word := by omega
    simp [clear bit below] at left
  · intro bit
    rw [List.mem_cons, mem_bits, mem_bits, rest]
    by_cases here : bit = lowest word
    · simp [here, inside, isSet]
    · simp [here]

theorem length_bits_le (word : UInt64) : (bits word).length ≤ 64 := by
  unfold bits
  split
  · exact Nat.zero_le _
  · exact (List.length_filter_le _ _).trans_eq List.length_range

/-- The members of a vector of words whose first bit has the index `base`. -/
private def listed (base : Nat) : List UInt64 → List Nat
  | [] => []
  | word :: words => (bits word).map (base + ·) ++ listed (base + 64) words

private theorem mem_listed {base index : Nat} {words : List UInt64} :
    index ∈ listed base words ↔
      base ≤ index ∧
        (words[(index - base) / 64]?.getD 0).toNat.testBit
          ((index - base) % 64) = true := by
  induction words generalizing base with
  | nil => simp [listed]
  | cons word words ih =>
      rw [listed, List.mem_append, ih, List.mem_map]
      constructor
      · rintro (⟨bit, member, rfl⟩ | ⟨later, member⟩)
        · obtain ⟨bound, isSet⟩ := mem_bits.mp member
          have quotient : (base + bit - base) / 64 = 0 := by omega
          have remainder : (base + bit - base) % 64 = bit := by omega
          rw [quotient, remainder]
          exact ⟨Nat.le_add_right _ _, by simpa using isSet⟩
        · have quotient : (index - base) / 64 =
              (index - (base + 64)) / 64 + 1 := by omega
          have remainder : (index - base) % 64 =
              (index - (base + 64)) % 64 := by omega
          rw [quotient, remainder, List.getElem?_cons_succ]
          exact ⟨by omega, member⟩
      · rintro ⟨after, member⟩
        by_cases here : index < base + 64
        · have quotient : (index - base) / 64 = 0 := by omega
          have remainder : (index - base) % 64 = index - base := by omega
          rw [quotient, remainder] at member
          exact .inl ⟨index - base, mem_bits.mpr
            ⟨by omega, by simpa using member⟩, by omega⟩
        · have quotient : (index - base) / 64 =
              (index - (base + 64)) / 64 + 1 := by omega
          have remainder : (index - base) % 64 =
              (index - (base + 64)) % 64 := by omega
          rw [quotient, remainder, List.getElem?_cons_succ] at member
          exact .inr ⟨by omega, member⟩

private theorem pairwise_listed (base : Nat) (words : List UInt64) :
    (listed base words).Pairwise (· < ·) := by
  induction words generalizing base with
  | nil => exact .nil
  | cons word words ih =>
      rw [listed, List.pairwise_append]
      refine ⟨?_, ih (base + 64), ?_⟩
      · exact (pairwise_bits word).map _ fun _ _ below => by omega
      · intro low lowMember high highMember
        obtain ⟨bit, member, rfl⟩ := List.mem_map.mp lowMember
        have bound := (mem_bits.mp member).1
        have after := (mem_listed.mp highMember).1
        omega

private theorem length_listed_le (base : Nat) (words : List UInt64) :
    (listed base words).length ≤ 64 * words.length := by
  induction words generalizing base with
  | nil => exact Nat.zero_le _
  | cons word words ih =>
      have few := length_bits_le word
      have others := ih (base + 64)
      simp only [listed, List.length_append, List.length_map, List.length_cons]
      omega

private theorem length_listed (base : Nat) (words : List UInt64) :
    (listed base words).length =
      (words.map fun word => (bits word).length).sum := by
  induction words generalizing base with
  | nil => rfl
  | cons word words ih => simp [listed, ih]

/-! ## Iteration -/

/-- What an iteration has still to yield. -/
private def Cursor.remaining (cursor : Cursor) : List Nat :=
  listed cursor.base cursor.words

private theorem Cursor.scan_spec (base : Nat) (words : List UInt64) :
    (scan base words).1 = (listed base words).head? ∧
      (scan base words).2.remaining = (listed base words).tail := by
  induction words generalizing base with
  | nil => exact ⟨rfl, rfl⟩
  | cons word words ih =>
      rw [scan]
      by_cases exhausted : word = 0
      · have skipped : listed base (word :: words) =
            listed (base + 64) words := by
          simp [listed, bits, exhausted]
        rw [if_pos exhausted, skipped]
        exact ih (base + 64)
      · have taken : listed base (word :: words) =
            (base + lowest word) :: listed base (stripped word :: words) := by
          simp [listed, bits_of_ne_zero exhausted]
        rw [if_neg exhausted, taken]
        exact ⟨rfl, rfl⟩

private theorem Cursor.next_spec (cursor : Cursor) :
    cursor.next.1 = cursor.remaining.head? ∧
      cursor.next.2.remaining = cursor.remaining.tail :=
  scan_spec cursor.base cursor.words

private theorem Cursor.collect_eq {limit : Nat} {cursor : Cursor}
    (enough : cursor.remaining.length ≤ limit) (found : List Nat) :
    cursor.collect limit found = found.reverse ++ cursor.remaining := by
  induction limit generalizing cursor found with
  | zero =>
      rw [List.eq_nil_of_length_eq_zero (Nat.le_zero.mp enough), collect,
        List.append_nil]
  | succ limit ih =>
      obtain ⟨yields, leaves⟩ := cursor.next_spec
      rw [collect]
      cases remaining : cursor.remaining with
      | nil =>
          rw [remaining] at yields
          split
          · rw [List.append_nil]
          · simp_all
      | cons index others =>
          rw [remaining] at yields leaves enough
          split
          · simp_all
          · rename_i yielded later step
            rw [step] at yields leaves
            obtain rfl : yielded = index := Option.some.inj yields
            replace leaves : later.remaining = others := leaves
            have fewer : later.remaining.length ≤ limit := by
              rw [leaves]
              simpa using enough
            rw [ih fewer, leaves, List.reverse_cons, List.append_assoc,
              List.singleton_append]

private theorem toList_eq_listed (set : BitSet) :
    set.toList = listed 0 set.words.toList := by
  have few := length_listed_le 0 set.words.toList
  rw [Array.length_toList] at few
  exact Cursor.collect_eq few []

/-- What an iteration yields at the call with the given number, counted from
zero. -/
def Cursor.reply (cursor : Cursor) : Nat → Option Nat
  | 0 => cursor.next.1
  | count + 1 => cursor.next.2.reply count

private theorem Cursor.reply_eq (cursor : Cursor) (count : Nat) :
    cursor.reply count = cursor.remaining[count]? := by
  induction count generalizing cursor with
  | zero => rw [reply, cursor.next_spec.1, List.head?_eq_getElem?]
  | succ count ih =>
      rw [reply, ih, cursor.next_spec.2, List.getElem?_tail]

/-- Call by call an iteration yields the members, and nothing after them. -/
theorem reply_cursor (set : BitSet) (count : Nat) :
    set.cursor.reply count = set.toList[count]? := by
  rw [toList_eq_listed]
  exact set.cursor.reply_eq count

theorem length_toList (set : BitSet) :
    set.toList.length = population set.words := by
  rw [toList_eq_listed, length_listed, population, ← Array.foldl_toList,
    List.sum_eq_foldl, List.foldl_map]

@[simp]
theorem mem_toList {set : BitSet} {index : Nat} :
    index ∈ set.toList ↔ set.contains index = true := by
  rw [toList_eq_listed, mem_listed, contains_eq]
  simp

theorem pairwise_toList (set : BitSet) : set.toList.Pairwise (· < ·) := by
  rw [toList_eq_listed]
  exact pairwise_listed 0 set.words.toList

theorem nodup_toList (set : BitSet) : set.toList.Nodup :=
  set.pairwise_toList.imp Nat.ne_of_lt

theorem toList_congr {first second : BitSet}
    (same : ∀ index, first.contains index = second.contains index) :
    first.toList = second.toList :=
  first.pairwise_toList.eq_of_mem_iff second.pairwise_toList
    fun index => by simp [same]

theorem all_toList_congr {set : BitSet} {test other : Nat → Bool}
    (same : ∀ index, set.contains index = true → test index = other index) :
    set.toList.all test = set.toList.all other := by
  apply Bool.eq_iff_iff.mpr
  rw [List.all_eq_true, List.all_eq_true]
  apply forall₂_congr
  intro index listed
  rw [same index (mem_toList.mp listed)]

theorem isBelow_iff {set : BitSet} {n : Nat} :
    set.isBelow n = true ↔ ∀ index, set.contains index = true → index < n := by
  simp [isBelow]

end Markov.BitSet
