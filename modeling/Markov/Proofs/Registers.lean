import Mathlib.Data.Finset.Sort
import Markov.Proofs.Decided

/-!
# Registers of sets

Bit sets are finite sets of numbers.  A program changes registers one after the
other, each by an operation on bit sets, and the same program can be read as one
about finite sets.  `Represents` relates what a register holds in both readings:
the members are the same, and the number of members that a bit set keeps is the
number of its bits.  Every operation preserves the relation and gives the same
answer in both readings, and so does every question about related registers.
Nothing depends on how many words a register has.
-/

namespace Markov

namespace BitSet

variable {set second : BitSet} {members others : Finset Nat}

/-! ## Counting members -/

theorem counted_of_vacant (vacant : ∀ index, set.contains index = false)
    (none : set.size = 0) : set.Counted := by
  have nothing : set.toList = [] := by
    apply List.eq_nil_iff_forall_not_mem.mpr
    intro index member
    simp [vacant] at member
  rw [Counted, none, nothing, List.length_nil]

theorem counted_ofWords (words : Array UInt64) : (ofWords words).Counted :=
  (length_toList (ofWords words)).symm

theorem Counted.erase (counted : set.Counted) (index : Nat) :
    (set.erase index).Counted := by
  unfold Counted at counted ⊢
  cases present : set.contains index with
  | false =>
      have same : (set.erase index).toList = set.toList := by
        apply toList_congr
        intro other
        by_cases equal : other = index
        · simp [equal, present]
        · simp [equal]
      rw [same, ← counted]
      simp [BitSet.erase, remove, present]
  | true =>
      -- Putting the index back gives the members that there were before.
      have same : ((set.erase index).insert index).toList = set.toList := by
        apply toList_congr
        intro other
        by_cases equal : other = index
        · simp [equal, present]
        · simp [equal]
      have restored : set.toList.length =
          (set.erase index).toList.length + 1 := by
        rw [← same, length_toList_insert (by simp)]
      have lowered : (set.erase index).size = set.size - 1 := by
        simp [BitSet.erase, remove, present]
      omega

/-! ## Finite sets -/

/-- A bit set that stands for a finite set, and knows its number of members. -/
structure Represents (set : BitSet) (members : Finset Nat) : Prop where
  counted : set.Counted
  contains_eq : ∀ index, set.contains index = decide (index ∈ members)

namespace Represents

theorem toList_eq_sort (stands : set.Represents members) :
    set.toList = members.sort := by
  refine set.pairwise_toList.eq_of_mem_iff members.sortedLT_sort.pairwise ?_
  intro index
  rw [mem_toList, stands.contains_eq, decide_eq_true_eq, Finset.mem_sort]

theorem size_eq_card (stands : set.Represents members) :
    set.size = members.card := by
  rw [stands.counted, stands.toList_eq_sort, Finset.length_sort]

theorem isEmpty_eq (stands : set.Represents members) :
    set.isEmpty = decide (members = ∅) := by
  rw [isEmpty, stands.size_eq_card, Bool.eq_iff_iff, beq_iff_eq,
    decide_eq_true_eq, Finset.card_eq_zero]

theorem isSubset_eq (stands : set.Represents members)
    (alsoStands : second.Represents others) :
    set.isSubset second = decide (members ⊆ others) := by
  rw [Bool.eq_iff_iff, isSubset, List.all_eq_true, decide_eq_true_eq]
  apply forall_congr'
  intro index
  rw [mem_toList, stands.contains_eq, alsoStands.contains_eq,
    decide_eq_true_eq, decide_eq_true_eq]

/-- Bit sets are equal if they stand for the same finite set. -/
theorem beq_eq (stands : set.Represents members)
    (alsoStands : second.Represents others) :
    (set == second) = decide (members = others) := by
  rw [Bool.eq_iff_iff, decide_eq_true_eq]
  constructor
  · intro same
    ext index
    have agree := contains_eq_of_beq same index
    rwa [stands.contains_eq, alsoStands.contains_eq, decide_eq_decide] at agree
  · rintro rfl
    apply beq_of_contains_eq
    · intro index
      rw [stands.contains_eq, alsoStands.contains_eq]
    · rw [stands.size_eq_card, alsoStands.size_eq_card]

theorem reply_cursor_eq (stands : set.Represents members) (count : Nat) :
    set.cursor.reply count = members.sort[count]? := by
  rw [reply_cursor, stands.toList_eq_sort]

end Represents

/-! ## Operations -/

/-- What can be done to a register that holds a set.  Some operations look at
another register. -/
inductive Operation (ι : Type) where
  | withCapacity (capacity : Nat)
  | empty
  | full (n : Nat)
  | collect (indices : List Nat)
  | copy (source : ι)
  | insert (index : Nat)
  | remove (index : Nat)
  | assign (index : Nat) (member : Bool)
  | clear
  | extend (indices : List Nat)
  | union (other : ι)
  | intersect (other : ι)
  | subtract (other : ι)
  | complement (source : ι) (n : Nat)

namespace Operation

variable {ι : Type}

/-- The answer of an operation on a bit set, if it gives one, and the bit set
afterwards. -/
def onBits (registers : ι → BitSet) (set : BitSet) :
    Operation ι → Option Bool × BitSet
  | withCapacity capacity => (none, .withCapacity capacity)
  | empty => (none, .empty)
  | full n => (none, .full n)
  | collect indices => (none, .ofList indices)
  | copy source => (none, registers source)
  | insert index => (some (set.add index).1, (set.add index).2)
  | remove index => (some (set.remove index).1, (set.remove index).2)
  | assign index member => (none, set.assign index member)
  | clear => (none, set.clear)
  | extend indices => (none, set.insertMany indices)
  | union other => (none, set ∪ registers other)
  | intersect other => (none, set ∩ registers other)
  | subtract other => (none, set \ registers other)
  | complement source n => (none, (registers source).complement n)

/-- The answer of an operation on a finite set, if it gives one, and the finite
set afterwards. -/
def onSets (registers : ι → Finset Nat) (members : Finset Nat) :
    Operation ι → Option Bool × Finset Nat
  | withCapacity _ => (none, ∅)
  | empty => (none, ∅)
  | full n => (none, .range n)
  | collect indices => (none, indices.toFinset)
  | copy source => (none, registers source)
  | insert index => (some (index ∉ members), Insert.insert index members)
  | remove index => (some (index ∈ members), members.erase index)
  | assign index true => (none, Insert.insert index members)
  | assign index false => (none, members.erase index)
  | clear => (none, ∅)
  | extend indices => (none, members ∪ indices.toFinset)
  | union other => (none, members ∪ registers other)
  | intersect other => (none, members ∩ registers other)
  | subtract other => (none, members \ registers other)
  | complement source n => (none, .range n \ registers source)

end Operation

namespace Represents

theorem insert (stands : set.Represents members) (index : Nat) :
    (set.insert index).Represents (Insert.insert index members) where
  counted := stands.counted.insert index
  contains_eq other := by simp [stands.contains_eq]

theorem erase (stands : set.Represents members) (index : Nat) :
    (set.erase index).Represents (members.erase index) where
  counted := stands.counted.erase index
  contains_eq other := by simp [stands.contains_eq]

theorem insertMany (stands : set.Represents members) (indices : List Nat) :
    (set.insertMany indices).Represents (members ∪ indices.toFinset) where
  counted := stands.counted.insertMany indices
  contains_eq other := by simp [stands.contains_eq, Bool.or_comm]

theorem union (stands : set.Represents members)
    (alsoStands : second.Represents others) :
    (set ∪ second).Represents (members ∪ others) where
  counted := counted_ofWords _
  contains_eq index := by simp [stands.contains_eq, alsoStands.contains_eq]

theorem inter (stands : set.Represents members)
    (alsoStands : second.Represents others) :
    (set ∩ second).Represents (members ∩ others) where
  counted := counted_ofWords _
  contains_eq index := by simp [stands.contains_eq, alsoStands.contains_eq]

theorem diff (stands : set.Represents members)
    (alsoStands : second.Represents others) :
    (set \ second).Represents (members \ others) where
  counted := counted_ofWords _
  contains_eq index := by simp [stands.contains_eq, alsoStands.contains_eq]

theorem complement (stands : set.Represents members) (n : Nat) :
    (set.complement n).Represents (.range n \ members) where
  counted := counted_complement set n
  contains_eq index := by simp [stands.contains_eq]

end Represents

theorem represents_of_vacant (vacant : ∀ index, set.contains index = false)
    (none : set.size = 0) : set.Represents ∅ where
  counted := counted_of_vacant vacant none
  contains_eq index := by simp [vacant]

theorem represents_empty : empty.Represents ∅ :=
  represents_of_vacant contains_empty rfl

theorem represents_withCapacity (capacity : Nat) :
    (withCapacity capacity).Represents ∅ :=
  represents_of_vacant (contains_withCapacity capacity) rfl

theorem represents_clear (set : BitSet) : set.clear.Represents ∅ :=
  represents_of_vacant set.contains_clear rfl

theorem represents_ofList (indices : List Nat) :
    (ofList indices).Represents indices.toFinset where
  counted := counted_ofList indices
  contains_eq index := by simp

theorem represents_full (n : Nat) : (full n).Represents (.range n) where
  counted := (represents_withCapacity n).counted.insertMany _
  contains_eq index := by simp

variable {ι : Type}

/-- An operation gives the same answer on registers that stand for finite sets
as on the finite sets, and what it leaves stands for the finite set that it
leaves. -/
theorem Operation.represents {registers : ι → BitSet} {sets : ι → Finset Nat}
    (stand : ∀ r, (registers r).Represents (sets r))
    (stands : set.Represents members) (operation : Operation ι) :
    (operation.onBits registers set).1 = (operation.onSets sets members).1 ∧
      (operation.onBits registers set).2.Represents
        (operation.onSets sets members).2 := by
  cases operation with
  | withCapacity capacity => exact ⟨rfl, represents_withCapacity capacity⟩
  | empty => exact ⟨rfl, represents_empty⟩
  | full n => exact ⟨rfl, represents_full n⟩
  | collect indices => exact ⟨rfl, represents_ofList indices⟩
  | copy source => exact ⟨rfl, stand source⟩
  | insert index =>
      refine ⟨?_, stands.insert index⟩
      simp [onBits, onSets, add, stands.contains_eq]
  | remove index =>
      refine ⟨?_, stands.erase index⟩
      simp [onBits, onSets, BitSet.remove, stands.contains_eq]
  | assign index member =>
      cases member with
      | true => exact ⟨rfl, stands.insert index⟩
      | false => exact ⟨rfl, stands.erase index⟩
  | clear => exact ⟨rfl, represents_clear set⟩
  | extend indices => exact ⟨rfl, stands.insertMany indices⟩
  | union other => exact ⟨rfl, stands.union (stand other)⟩
  | intersect other => exact ⟨rfl, stands.inter (stand other)⟩
  | subtract other => exact ⟨rfl, stands.diff (stand other)⟩
  | complement source n => exact ⟨rfl, (stand source).complement n⟩

/-! ## Programs -/

/-- Operations one after the other, each with the register that it changes. -/
abbrev Program (ι : Type) := List (ι × Operation ι)

/-- The answers of a program, and what the registers hold after it. -/
def Program.run [DecidableEq ι] {S : Type}
    (operate : (ι → S) → S → Operation ι → Option Bool × S) :
    (ι → S) → Program ι → List (Option Bool) × (ι → S)
  | registers, [] => ([], registers)
  | registers, (r, operation) :: rest =>
    let (answer, value) := operate registers (registers r) operation
    let (answers, final) :=
      run operate (Function.update registers r value) rest
    (answer :: answers, final)

/-- What an operation preserves, a program preserves. -/
theorem Program.represents [DecidableEq ι] (program : Program ι)
    {registers : ι → BitSet} {sets : ι → Finset Nat}
    (stand : ∀ r, (registers r).Represents (sets r)) :
    (run Operation.onBits registers program).1 =
        (run Operation.onSets sets program).1 ∧
      ∀ r, ((run Operation.onBits registers program).2 r).Represents
        ((run Operation.onSets sets program).2 r) := by
  induction program generalizing registers sets with
  | nil => exact ⟨rfl, stand⟩
  | cons command rest ih =>
      obtain ⟨r, operation⟩ := command
      obtain ⟨sameAnswer, stands⟩ := operation.represents stand (stand r)
      have updated : ∀ other,
          (Function.update registers r
            (operation.onBits registers (registers r)).2 other).Represents
          (Function.update sets r (operation.onSets sets (sets r)).2 other) := by
        intro other
        by_cases changed : other = r
        · subst changed
          simpa using stands
        · simpa [changed] using stand other
      obtain ⟨sameAnswers, stay⟩ := ih updated
      exact ⟨congrArg₂ List.cons sameAnswer sameAnswers, stay⟩

/-- Whatever a program does to registers that are empty at first, it does to
finite sets as well: it gives the same answers, and afterwards the registers
cannot be told from the finite sets. -/
theorem registers_hold_finite_sets [DecidableEq ι] (program : Program ι) :
    ∃ (answers : List (Option Bool)) (registers : ι → BitSet)
      (sets : ι → Finset Nat),
      program.run Operation.onBits (fun _ => .empty) = (answers, registers) ∧
      program.run Operation.onSets (fun _ => ∅) = (answers, sets) ∧
      ∀ r,
        (registers r).size = population (registers r).words ∧
        (registers r).size = (sets r).card ∧
        (registers r).isEmpty = decide (sets r = ∅) ∧
        (∀ index, (registers r).contains index = decide (index ∈ sets r)) ∧
        (∀ count, (registers r).cursor.reply count = (sets r).sort[count]?) ∧
        ∀ other,
          (registers r).isSubset (registers other) =
            decide (sets r ⊆ sets other) ∧
          (registers r == registers other) = decide (sets r = sets other) := by
  obtain ⟨sameAnswers, stand⟩ :=
    program.represents fun _ : ι => represents_empty
  refine ⟨_, _, _, rfl, Prod.ext sameAnswers.symm rfl, ?_⟩
  intro r
  refine ⟨?_, (stand r).size_eq_card, (stand r).isEmpty_eq,
    (stand r).contains_eq, (stand r).reply_cursor_eq, ?_⟩
  · exact (stand r).counted.trans (length_toList _)
  · intro other
    exact ⟨(stand r).isSubset_eq (stand other),
      (stand r).beq_eq (stand other)⟩

end BitSet

end Markov
