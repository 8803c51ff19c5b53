import Markov.BitSet
import Markov.Decimal.Text
import Markov.Failure
import Markov.Scalar

/-!
# Distributions

A distribution gives weights to finitely many targets: probabilities or rates
of successor states, or the weights of the choices of a move.  Its entries are
kept in ascending order of their targets, so sums and texts do not depend on
the order in which weights were added.
-/

namespace Markov

/-- Entries in strictly ascending order of their targets. -/
def Ascending {R : Type} (entries : List (Nat × R)) : Prop :=
  entries.Pairwise fun a b => a.1 < b.1

/-- Finitely many targets with their weights. -/
structure Distribution (R : Type) where
  entries : List (Nat × R)
  ascending : Ascending entries

namespace Distribution

variable {R : Type}

/-- Changes the weight of one target, which may have none yet. -/
def adjust (target : Nat) (change : Option R → R) : List (Nat × R) → List (Nat × R)
  | [] => [(target, change none)]
  | (t, w) :: rest =>
    if target < t then (target, change none) :: (t, w) :: rest
    else if target = t then (t, change (some w)) :: rest
    else (t, w) :: adjust target change rest

theorem mem_adjust {target : Nat} {change : Option R → R} {entries : List (Nat × R)}
    {entry : Nat × R} (member : entry ∈ adjust target change entries) :
    entry.1 = target ∨ entry ∈ entries := by
  induction entries with
  | nil => simp_all [adjust]
  | cons head tail ih =>
      unfold adjust at member
      split at member
      · rcases List.mem_cons.mp member with rfl | later
        · exact .inl rfl
        · exact .inr later
      · split at member
        · rcases List.mem_cons.mp member with rfl | later
          · exact .inl (by simp_all)
          · exact .inr (List.mem_cons_of_mem _ later)
        · rcases List.mem_cons.mp member with rfl | later
          · exact .inr List.mem_cons_self
          · exact (ih later).imp_right (List.mem_cons_of_mem _)

theorem ascending_adjust (target : Nat) (change : Option R → R) {entries : List (Nat × R)}
    (ascending : Ascending entries) : Ascending (adjust target change entries) := by
  induction entries with
  | nil => simp [adjust, Ascending]
  | cons head tail ih =>
      obtain ⟨above, rest⟩ := List.pairwise_cons.mp ascending
      unfold adjust
      split
      · refine List.pairwise_cons.mpr ⟨?_, ascending⟩
        intro entry member
        rcases List.mem_cons.mp member with rfl | later
        · assumption
        · exact Nat.lt_trans (by assumption) (above entry later)
      · split
        · exact List.pairwise_cons.mpr ⟨fun entry member => above entry member, rest⟩
        · refine List.pairwise_cons.mpr ⟨?_, ih rest⟩
          intro entry member
          rcases mem_adjust member with same | later
          · simp only [same]
            omega
          · exact above entry later

def empty : Distribution R := ⟨[], .nil⟩

instance : Inhabited (Distribution R) := ⟨empty⟩

def get? (d : Distribution R) (target : Nat) : Option R := d.entries.lookup target

/-- The weight of a target, zero if it has none. -/
def get [Scalar R] (d : Distribution R) (target : Nat) : R := (d.get? target).getD 0

def contains (d : Distribution R) (target : Nat) : Bool := (d.get? target).isSome

/-- A weight that a distribution accepts. -/
def isWeight [Scalar R] (weight : R) : Bool := 0 ≤ weight

/-- Overwrites the weight of a target. -/
def set (d : Distribution R) (target : Nat) (weight : R) : Distribution R :=
  ⟨adjust target (fun _ => weight) d.entries, ascending_adjust _ _ d.ascending⟩

/-- Adds to the weight of a target. -/
def add [Scalar R] (d : Distribution R) (target : Nat) (weight : R) : Distribution R :=
  ⟨adjust target (fun | some old => old + weight | none => weight) d.entries,
    ascending_adjust _ _ d.ascending⟩

/-- Adds to the weight of a target, and tells whether it had none. -/
def checkedAdd {ε : Type} [Scalar R] (d : Distribution R) (target : Nat) (weight : R) :
    Attempt ε (Bool × Distribution R) := do
  Attempt.require (isWeight weight)
  return (!d.contains target, d.add target weight)

/-- Overwrites the weight of a target by one that is not negative. -/
def checkedSet {ε : Type} [Scalar R] (d : Distribution R) (target : Nat) (weight : R) :
    Attempt ε (Distribution R) := do
  Attempt.require (isWeight weight)
  return d.set target weight

/-- Adds weights one after the other. -/
def addMany [Scalar R] (d : Distribution R) (weights : List (Nat × R)) : Distribution R :=
  weights.foldl (fun d entry => d.add entry.1 entry.2) d

/-- The distribution of a list of weights, in which a target may be repeated. -/
def ofList [Scalar R] (weights : List (Nat × R)) : Distribution R := empty.addMany weights

/-- The distribution of a list of weights, none of which is negative. -/
def collect {ε : Type} [Scalar R] (weights : List (Nat × R)) : Attempt ε (Distribution R) := do
  Attempt.require (weights.all fun entry => isWeight entry.2)
  return ofList weights

/-- All weight on one target. -/
def point [Scalar R] (target : Nat) : Distribution R := empty.add target 1

def size (d : Distribution R) : Nat := d.entries.length

def isEmpty (d : Distribution R) : Bool := d.entries.isEmpty

/-- The targets in ascending order. -/
def support (d : Distribution R) : List Nat := d.entries.map Prod.fst

/-- The total weight. -/
def total [Scalar R] (d : Distribution R) : R := Scalar.sum (d.entries.map Prod.snd)

/-- The total weight of the targets other than `state`. -/
def totalWithout [Scalar R] (d : Distribution R) (state : Nat) : R :=
  Scalar.sum ((d.entries.filter fun entry => entry.1 != state).map Prod.snd)

def isSubset (d : Distribution R) (set : BitSet) : Bool := d.support.all set.contains

def intersects (d : Distribution R) (set : BitSet) : Bool := d.support.any set.contains

/-- The weighted sum of the values at the targets. -/
def dot [Scalar R] (d : Distribution R) (values : Array R) : R :=
  Scalar.sum (d.entries.map fun entry => entry.2 * values.getD entry.1 0)

/-- The weighted sum of the values at the targets, all of which have values. -/
def checkedDot {ε : Type} [Scalar R] (d : Distribution R) (values : Array R) : Attempt ε R := do
  Attempt.require (d.support.all (· < values.size))
  return d.dot values

/-- Moves every weight to the image of its target. -/
def mapTargets [Scalar R] (d : Distribution R) (f : Nat → Nat) : Distribution R :=
  ofList (d.entries.map fun entry => (f entry.1, entry.2))

/-- Moves every weight, none of which is negative, to the image of its target. -/
def checkedMap {ε : Type} [Scalar R] (d : Distribution R) (f : Nat → Nat) :
    Attempt ε (Distribution R) :=
  collect (d.entries.map fun entry => (f entry.1, entry.2))

/-- Divides every weight. -/
def scaled [Scalar R] (d : Distribution R) (divisor : R) : Distribution R :=
  ⟨d.entries.map fun entry => (entry.1, entry.2 / divisor),
    by simpa [Ascending, List.pairwise_map] using d.ascending⟩

instance [BEq R] : BEq (Distribution R) := ⟨fun a b => a.entries == b.entries⟩

/-- The entries in braces. -/
def render (d : Distribution Float) : String :=
  let entries := d.entries.map fun (target, weight) =>
    toString target ++ "=" ++ Decimal.render Decimal.plain weight
  "\x7b" ++ ", ".intercalate entries ++ "\x7d"

end Distribution

end Markov
