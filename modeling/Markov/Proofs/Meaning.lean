import Mathlib.Data.List.Perm.Subperm
import Markov.Proofs.BitSet
import Markov.Proofs.Validation

/-!
# The meaning of state formulas

Evaluation replaces defined labels by their definitions, and is given as many
replacements as there are definitions.  It is compared with rules that do not
count: `Evaluates` derives the outcomes of evaluation, `Meets` derives that it
comes back to a label while it is at its definition, and `Truth` says which
formulas are true in a state, without sets.
-/

namespace Markov

theorem Model.labelled?_cases {R : Type} {m : Model R} {labels : Labels}
    {name : String} {states : BitSet}
    (found : m.labelled? labels name = some states) :
    labels.get? name = some states ∨
      labels.get? name = none ∧
        (m.labels.get? name = some states ∨
          m.labels.get? name = none ∧
            (name = "init" ∧ states = m.initial ∨
              name = "deadlock" ∧ states = m.deadlocks)) := by
  unfold labelled? at found
  split at found
  case h_1 given => exact .inl (given.trans found)
  case h_2 missing own => exact .inr ⟨missing, .inl (own.trans found)⟩
  case h_3 missing unlabelled =>
    refine .inr ⟨missing, .inr ⟨unlabelled, ?_⟩⟩
    split at found
    case isTrue init => exact .inl ⟨init, (Option.some.inj found).symm⟩
    case isFalse =>
      split at found
      case isTrue deadlock =>
        exact .inr ⟨deadlock, (Option.some.inj found).symm⟩
      case isFalse => cases found

theorem Model.labelled?_eq_none {R : Type} {m : Model R} {labels : Labels}
    {name : String} (missing : m.labelled? labels name = none) :
    labels.get? name = none ∧ m.labels.get? name = none ∧
      name ≠ "init" ∧ name ≠ "deadlock" := by
  unfold labelled? at missing
  split at missing
  case h_1 => cases missing
  case h_2 => cases missing
  case h_3 unlabelled unknown =>
    split at missing
    case isTrue => cases missing
    case isFalse notInit =>
      split at missing
      case isTrue => cases missing
      case isFalse notDeadlock => exact ⟨unlabelled, unknown, notInit, notDeadlock⟩

namespace Interpretation

variable {R : Type} {i : Interpretation R}

/-- A label without a set that has a definition. -/
def Expands (i : Interpretation R) (name : String)
    (definition : StateFormula) : Prop :=
  i.model.labelled? i.labels name = none ∧
    i.properties.definition? name = some definition

/-! ## Rules of evaluation -/

/-- The outcome of a formula while the labels `defining` are being expanded.
Operands are evaluated from left to right up to the first failure. -/
inductive Evaluates (i : Interpretation R) :
    List String → StateFormula → Attempt (CheckError R) BitSet → Prop where
  | top {defining : List String} :
      Evaluates i defining .top (.ok (.full i.model.numStates))
  | bottom {defining : List String} :
      Evaluates i defining .bottom (.ok (.withCapacity i.model.numStates))
  | labelled {defining : List String} {name : String} {states : BitSet} :
      i.model.labelled? i.labels name = some states →
      Evaluates i defining (.label name) (.ok states)
  | undefined {defining : List String} {name : String} :
      i.model.labelled? i.labels name = none →
      i.properties.definition? name = none →
      Evaluates i defining (.label name)
        (Attempt.fail (.malformed (.undefinedLabel name)))
  | circular {defining : List String} {name : String}
      {definition : StateFormula} :
      i.Expands name definition → name ∈ defining →
      Evaluates i defining (.label name)
        (Attempt.fail (.malformed (.circularLabel name)))
  | expanded {defining : List String} {name : String}
      {definition : StateFormula} {outcome : Attempt (CheckError R) BitSet} :
      i.Expands name definition → name ∉ defining →
      Evaluates i (name :: defining) definition outcome →
      Evaluates i defining (.label name) outcome
  | expr {defining : List String} {e : Expr} :
      Evaluates i defining (.expr e) (i.statesOf e)
  | not {defining : List String} {inner : StateFormula} {states : BitSet} :
      Evaluates i defining inner (.ok states) →
      Evaluates i defining (.not inner)
        (.ok (states.complement i.model.numStates))
  | notFails {defining : List String} {inner : StateFormula}
      {failure : Failure (CheckError R)} :
      Evaluates i defining inner (.error failure) →
      Evaluates i defining (.not inner) (.error failure)
  | and {defining : List String} {left right : StateFormula} {a b : BitSet} :
      Evaluates i defining left (.ok a) → Evaluates i defining right (.ok b) →
      Evaluates i defining (.and left right) (.ok (a ∩ b))
  | andLeftFails {defining : List String} {left right : StateFormula}
      {failure : Failure (CheckError R)} :
      Evaluates i defining left (.error failure) →
      Evaluates i defining (.and left right) (.error failure)
  | andRightFails {defining : List String} {left right : StateFormula}
      {a : BitSet} {failure : Failure (CheckError R)} :
      Evaluates i defining left (.ok a) →
      Evaluates i defining right (.error failure) →
      Evaluates i defining (.and left right) (.error failure)
  | or {defining : List String} {left right : StateFormula} {a b : BitSet} :
      Evaluates i defining left (.ok a) → Evaluates i defining right (.ok b) →
      Evaluates i defining (.or left right) (.ok (a ∪ b))
  | orLeftFails {defining : List String} {left right : StateFormula}
      {failure : Failure (CheckError R)} :
      Evaluates i defining left (.error failure) →
      Evaluates i defining (.or left right) (.error failure)
  | orRightFails {defining : List String} {left right : StateFormula}
      {a : BitSet} {failure : Failure (CheckError R)} :
      Evaluates i defining left (.ok a) →
      Evaluates i defining right (.error failure) →
      Evaluates i defining (.or left right) (.error failure)

/-- The expansions that are left over suffice for the labels that are not being
expanded yet. -/
structure Room (i : Interpretation R) (fuel : Nat) (defining : List String) :
    Prop where
  distinct : defining.Nodup
  defined : defining ⊆ i.properties.definitions.map Prod.fst
  enough : i.properties.definitions.length ≤ fuel + defining.length

theorem room_start (i : Interpretation R) :
    i.Room i.properties.definitions.length [] :=
  ⟨.nil, List.nil_subset _, Nat.le_refl _⟩

theorem mem_definitions {name : String} {definition : StateFormula}
    (found : i.properties.definition? name = some definition) :
    name ∈ i.properties.definitions.map Prod.fst := by
  obtain ⟨before, after, split, -⟩ := List.lookup_eq_some_iff.mp found
  rw [split]
  simp

theorem Room.expand {fuel : Nat} {defining : List String} {name : String}
    {definition : StateFormula} (room : i.Room fuel defining)
    (expands : i.Expands name definition) (fresh : name ∉ defining) :
    ∃ rest, fuel = rest + 1 ∧ i.Room rest (name :: defining) := by
  have distinct : (name :: defining).Nodup :=
    List.nodup_cons.mpr ⟨fresh, room.distinct⟩
  have defined : name :: defining ⊆ i.properties.definitions.map Prod.fst :=
    List.cons_subset.mpr ⟨mem_definitions expands.2, room.defined⟩
  have within := (List.subperm_of_subset distinct defined).length_le
  have enough := room.enough
  simp only [List.length_cons, List.length_map] at within
  cases fuel with
  | zero => omega
  | succ rest =>
      refine ⟨rest, rfl, distinct, defined, ?_⟩
      rw [List.length_cons]
      omega

theorem evaluates_evalWith {defining : List String}
    {sets : String → Attempt (CheckError R) BitSet}
    (labels : ∀ name, i.Evaluates defining (.label name) (sets name))
    (formula : StateFormula) :
    i.Evaluates defining formula (i.evalWith sets formula) := by
  induction formula with
  | top => exact .top
  | bottom => exact .bottom
  | label name => exact labels name
  | expr e => exact .expr
  | not inner ih =>
      rw [evalWith]
      cases outcome : i.evalWith sets inner with
      | error failure => exact .notFails (outcome ▸ ih)
      | ok states => exact .not (outcome ▸ ih)
  | and left right leftIh rightIh =>
      rw [evalWith]
      cases first : i.evalWith sets left with
      | error failure => exact .andLeftFails (first ▸ leftIh)
      | ok a =>
          cases second : i.evalWith sets right with
          | error failure =>
              exact .andRightFails (first ▸ leftIh) (second ▸ rightIh)
          | ok b => exact .and (first ▸ leftIh) (second ▸ rightIh)
  | or left right leftIh rightIh =>
      rw [evalWith]
      cases first : i.evalWith sets left with
      | error failure => exact .orLeftFails (first ▸ leftIh)
      | ok a =>
          cases second : i.evalWith sets right with
          | error failure =>
              exact .orRightFails (first ▸ leftIh) (second ▸ rightIh)
          | ok b => exact .or (first ▸ leftIh) (second ▸ rightIh)

theorem labelSet_of_labelled {fuel : Nat} {defining : List String}
    {name : String} {states : BitSet}
    (given : i.model.labelled? i.labels name = some states) :
    i.labelSet fuel defining name = .ok states := by
  rw [labelSet, given]
  rfl

theorem labelSet_of_undefined {fuel : Nat} {defining : List String}
    {name : String} (missing : i.model.labelled? i.labels name = none)
    (undefined : i.properties.definition? name = none) :
    i.labelSet fuel defining name =
      Attempt.fail (.malformed (.undefinedLabel name)) := by
  rw [labelSet, missing, undefined]

theorem labelSet_of_mem {fuel : Nat} {defining : List String} {name : String}
    {definition : StateFormula} (expands : i.Expands name definition)
    (repeated : name ∈ defining) :
    i.labelSet fuel defining name =
      Attempt.fail (.malformed (.circularLabel name)) := by
  rw [labelSet, expands.1, expands.2]
  exact if_pos (List.contains_iff_mem.mpr repeated)

theorem labelSet_of_expands {fuel : Nat} {defining : List String}
    {name : String} {definition : StateFormula}
    (expands : i.Expands name definition) (fresh : name ∉ defining) :
    i.labelSet (fuel + 1) defining name =
      i.evalWith (i.labelSet fuel (name :: defining)) definition := by
  have absent : ¬defining.contains name = true :=
    fun repeated => fresh (List.contains_iff_mem.mp repeated)
  rw [labelSet, expands.1, expands.2]
  exact if_neg absent

theorem evaluates_labelSet {fuel : Nat} {defining : List String}
    (room : i.Room fuel defining) (name : String) :
    i.Evaluates defining (.label name) (i.labelSet fuel defining name) := by
  -- An expansion leaves fewer expansions for the labels of the definition.
  induction fuel using Nat.strongRecOn generalizing defining name with
  | ind fuel ih =>
      cases given : i.model.labelled? i.labels name with
      | some states =>
          rw [labelSet_of_labelled given]
          exact .labelled given
      | none =>
          cases found : i.properties.definition? name with
          | none =>
              rw [labelSet_of_undefined given found]
              exact .undefined given found
          | some definition =>
              have expands : i.Expands name definition := ⟨given, found⟩
              by_cases repeated : name ∈ defining
              · rw [labelSet_of_mem expands repeated]
                exact .circular expands repeated
              · obtain ⟨rest, rfl, smaller⟩ := room.expand expands repeated
                rw [labelSet_of_expands expands repeated]
                apply Evaluates.expanded expands repeated
                exact evaluates_evalWith (ih rest (Nat.lt_succ_self rest) smaller) _

theorem Evaluates.evalWith_eq {defining : List String} {formula : StateFormula}
    {outcome : Attempt (CheckError R) BitSet}
    (evaluates : i.Evaluates defining formula outcome) {fuel : Nat}
    (room : i.Room fuel defining) :
    i.evalWith (i.labelSet fuel defining) formula = outcome := by
  induction evaluates generalizing fuel with
  | top => rfl
  | bottom => rfl
  | labelled given => exact labelSet_of_labelled given
  | undefined missing undefined => exact labelSet_of_undefined missing undefined
  | circular expands repeated => exact labelSet_of_mem expands repeated
  | expanded expands fresh _ ih =>
      obtain ⟨rest, rfl, smaller⟩ := room.expand expands fresh
      rw [evalWith, labelSet_of_expands expands fresh]
      exact ih smaller
  | expr => rfl
  | not _ ih =>
      rw [evalWith, ih room]
      rfl
  | notFails _ ih =>
      rw [evalWith, ih room]
      rfl
  | and _ _ leftIh rightIh =>
      rw [evalWith, leftIh room, rightIh room]
      rfl
  | andLeftFails _ ih =>
      rw [evalWith, ih room]
      rfl
  | andRightFails _ _ leftIh rightIh =>
      rw [evalWith, leftIh room, rightIh room]
      rfl
  | or _ _ leftIh rightIh =>
      rw [evalWith, leftIh room, rightIh room]
      rfl
  | orLeftFails _ ih =>
      rw [evalWith, ih room]
      rfl
  | orRightFails _ _ leftIh rightIh =>
      rw [evalWith, leftIh room, rightIh room]
      rfl

/-- The rules of evaluation give every formula one outcome, the one that is
computed: no formula runs out of expansions. -/
theorem evaluates_iff {formula : StateFormula}
    {outcome : Attempt (CheckError R) BitSet} :
    i.Evaluates [] formula outcome ↔ i.satisfying formula = outcome := by
  constructor
  · intro evaluates
    exact evaluates.evalWith_eq i.room_start
  · rintro rfl
    exact evaluates_evalWith (evaluates_labelSet i.room_start) formula

/-! ## Circular definitions -/

/-- Evaluation from left to right comes to the label `name` while that label is
being expanded. -/
inductive Meets (i : Interpretation R) (name : String) :
    List String → StateFormula → Prop where
  | here {defining : List String} {definition : StateFormula} :
      i.Expands name definition → name ∈ defining →
      Meets i name defining (.label name)
  | expanded {defining : List String} {other : String}
      {definition : StateFormula} :
      i.Expands other definition → other ∉ defining →
      Meets i name (other :: defining) definition →
      Meets i name defining (.label other)
  | not {defining : List String} {inner : StateFormula} :
      Meets i name defining inner → Meets i name defining (.not inner)
  | andLeft {defining : List String} {left right : StateFormula} :
      Meets i name defining left → Meets i name defining (.and left right)
  | andRight {defining : List String} {left right : StateFormula}
      {states : BitSet} :
      i.Evaluates defining left (.ok states) → Meets i name defining right →
      Meets i name defining (.and left right)
  | orLeft {defining : List String} {left right : StateFormula} :
      Meets i name defining left → Meets i name defining (.or left right)
  | orRight {defining : List String} {left right : StateFormula}
      {states : BitSet} :
      i.Evaluates defining left (.ok states) → Meets i name defining right →
      Meets i name defining (.or left right)

theorem Meets.evaluates {name : String} {defining : List String}
    {formula : StateFormula} (meets : i.Meets name defining formula) :
    i.Evaluates defining formula
      (Attempt.fail (.malformed (.circularLabel name))) := by
  induction meets with
  | here expands repeated => exact .circular expands repeated
  | expanded expands fresh _ ih => exact .expanded expands fresh ih
  | not _ ih => exact .notFails ih
  | andLeft _ ih => exact .andLeftFails ih
  | andRight first _ ih => exact .andRightFails first ih
  | orLeft _ ih => exact .orLeftFails ih
  | orRight first _ ih => exact .orRightFails first ih

theorem Evaluates.meets {name : String} {defining : List String}
    {formula : StateFormula} {outcome : Attempt (CheckError R) BitSet}
    (evaluates : i.Evaluates defining formula outcome)
    (circle : outcome = Attempt.fail (.malformed (.circularLabel name))) :
    i.Meets name defining formula := by
  induction evaluates with
  | top => cases circle
  | bottom => cases circle
  | labelled _ => cases circle
  | undefined _ _ => cases circle
  | circular expands repeated =>
      cases circle
      exact .here expands repeated
  | expanded expands fresh _ ih => exact .expanded expands fresh (ih circle)
  | @expr _ e =>
      have other : (i.statesOf e).Reports
          (· ≠ .malformed (.circularLabel name)) :=
        i.statesOf_reports e nofun nofun nofun nofun
      exact absurd rfl (other _ circle)
  | not _ _ => cases circle
  | notFails _ ih => exact .not (ih circle)
  | and _ _ _ _ => cases circle
  | andLeftFails _ ih => exact .andLeft (ih circle)
  | andRightFails first _ _ ih => exact .andRight first (ih circle)
  | or _ _ _ _ => cases circle
  | orLeftFails _ ih => exact .orLeft (ih circle)
  | orRightFails first _ _ ih => exact .orRight first (ih circle)

/-- A label occurs in a formula, or in the definition of a label that does. -/
inductive Mentions (i : Interpretation R) : StateFormula → String → Prop where
  | here {name : String} : Mentions i (.label name) name
  | expanded {name other : String} {definition : StateFormula} :
      i.Expands other definition → Mentions i definition name →
      Mentions i (.label other) name
  | not {name : String} {inner : StateFormula} :
      Mentions i inner name → Mentions i (.not inner) name
  | andLeft {name : String} {left right : StateFormula} :
      Mentions i left name → Mentions i (.and left right) name
  | andRight {name : String} {left right : StateFormula} :
      Mentions i right name → Mentions i (.and left right) name
  | orLeft {name : String} {left right : StateFormula} :
      Mentions i left name → Mentions i (.or left right) name
  | orRight {name : String} {left right : StateFormula} :
      Mentions i right name → Mentions i (.or left right) name

/-- No definition that a formula leads to comes back to its own label. -/
def Acyclic (i : Interpretation R) (formula : StateFormula) : Prop :=
  ∀ name definition, i.Mentions formula name → i.Expands name definition →
    ¬i.Mentions definition name

/-- A label that is met again lies on a cycle of definitions. -/
theorem Meets.on_cycle {name : String} {defining : List String}
    {formula : StateFormula} (meets : i.Meets name defining formula) :
    i.Mentions formula name ∧ (name ∈ defining ∨
      ∃ definition, i.Expands name definition ∧
        i.Mentions definition name) := by
  induction meets with
  | here _ repeated => exact ⟨.here, .inl repeated⟩
  | expanded expands fresh _ ih =>
      obtain ⟨mentions, repeated | cycle⟩ := ih
      · rcases List.mem_cons.mp repeated with rfl | earlier
        · exact ⟨.here, .inr ⟨_, expands, mentions⟩⟩
        · exact ⟨.expanded expands mentions, .inl earlier⟩
      · exact ⟨.expanded expands mentions, .inr cycle⟩
  | not _ ih => exact ⟨.not ih.1, ih.2⟩
  | andLeft _ ih => exact ⟨.andLeft ih.1, ih.2⟩
  | andRight _ _ ih => exact ⟨.andRight ih.1, ih.2⟩
  | orLeft _ ih => exact ⟨.orLeft ih.1, ih.2⟩
  | orRight _ _ ih => exact ⟨.orRight ih.1, ih.2⟩

theorem Acyclic.not_meets {formula : StateFormula}
    (acyclic : i.Acyclic formula) (name : String) :
    ¬i.Meets name [] formula := by
  intro meets
  obtain ⟨mentions, repeated | ⟨definition, expands, again⟩⟩ := meets.on_cycle
  · cases repeated
  · exact acyclic name definition mentions expands again

/-! ## Truth in a state -/

/-- The truth value of a formula in a state.  A label means a set that is given,
a set of the model, the initial states, the states without choices, or what its
definition means, whichever comes first. -/
inductive Truth (i : Interpretation R) (state : Nat) :
    StateFormula → Bool → Prop where
  | top : Truth i state .top true
  | bottom : Truth i state .bottom false
  | given {name : String} {states : BitSet} :
      i.labels.get? name = some states →
      Truth i state (.label name) (states.contains state)
  | own {name : String} {states : BitSet} :
      i.labels.get? name = none → i.model.labels.get? name = some states →
      Truth i state (.label name) (states.contains state)
  | init {name : String} :
      i.labels.get? name = none → i.model.labels.get? name = none →
      name = "init" →
      Truth i state (.label name) (i.model.initial.contains state)
  | deadlock {name : String} :
      i.labels.get? name = none → i.model.labels.get? name = none →
      name = "deadlock" →
      Truth i state (.label name) (i.model.numChoices state == 0)
  | defined {name : String} {definition : StateFormula} {value : Bool} :
      i.labels.get? name = none → i.model.labels.get? name = none →
      name ≠ "init" → name ≠ "deadlock" →
      i.properties.definition? name = some definition →
      Truth i state definition value → Truth i state (.label name) value
  | expr {e : Expr} {valuations : List Valuation} {valuation : Valuation}
      {value : Bool} :
      i.model.valuations = some valuations →
      valuations[state]? = some valuation →
      e.evalBool (.of valuation i.properties.constants) = .ok value →
      Truth i state (.expr e) value
  | not {inner : StateFormula} {value : Bool} :
      Truth i state inner value → Truth i state (.not inner) (!value)
  | and {left right : StateFormula} {a b : Bool} :
      Truth i state left a → Truth i state right b →
      Truth i state (.and left right) (a && b)
  | or {left right : StateFormula} {a b : Bool} :
      Truth i state left a → Truth i state right b →
      Truth i state (.or left right) (a || b)

theorem Truth.unique {state : Nat} {formula : StateFormula} {value other : Bool}
    (truth : i.Truth state formula value)
    (again : i.Truth state formula other) : value = other := by
  induction truth generalizing other with
  | defined missing unlabelled notInit notDeadlock found _ ih =>
      cases again with
      | defined _ _ _ _ same inner =>
          rw [found] at same
          cases same
          exact ih inner
      | _ => simp_all
  | not _ ih =>
      cases again with
      | not inner => rw [ih inner]
  | and _ _ leftIh rightIh =>
      cases again with
      | and left right => rw [leftIh left, rightIh right]
  | or _ _ leftIh rightIh =>
      cases again with
      | or left right => rw [leftIh left, rightIh right]
  | _ => cases again <;> simp_all

/-- The sets of the labels that a formula leads to hold states only. -/
def LabelsBelow (i : Interpretation R) (formula : StateFormula) : Prop :=
  ∀ name states, i.Mentions formula name →
    i.model.labelled? i.labels name = some states →
      states.isBelow i.model.numStates = true

/-- An expression that has states is true in these and false in the others. -/
theorem statesOf_eq_ok {e : Expr} {states : BitSet}
    (found : i.statesOf e = .ok states) :
    (∀ state, states.contains state = true → state < i.model.numStates) ∧
    ∀ state, state < i.model.numStates →
      i.Truth state (.expr e) (states.contains state) := by
  unfold statesOf at found
  dsimp only at found
  split at found
  case h_1 => cases found
  case h_2 valuations given =>
    split at found
    case isTrue => cases found
    case isFalse counted =>
      have count : valuations.length = i.model.numStates := not_not.mp counted
      obtain ⟨truths, mapped, listed⟩ := Attempt.bind_eq_ok.mp found
      cases listed
      obtain ⟨lengths, truthOf⟩ := Attempt.mapM_eq_ok mapped
      have member : ∀ state, (BitSet.ofList
          ((truths.zipIdx.filter Prod.fst).map Prod.snd)).contains state =
            decide (truths[state]? = some true) := by
        intro state
        rw [BitSet.contains_ofList]
        simp [List.mem_zipIdx_iff_getElem?]
      constructor
      · intro state
        rw [member, ← count, ← lengths]
        intro inside
        exact (List.getElem?_eq_some_iff.mp (of_decide_eq_true inside)).1
      · intro state inside
        rw [← count] at inside
        obtain ⟨value, entry, holds⟩ :=
          truthOf state _ (List.getElem?_eq_getElem inside)
        have evaluated := Attempt.mapCause_eq_ok.mp holds
        rw [member, entry]
        cases value with
        | true => exact .expr given (List.getElem?_eq_getElem inside) evaluated
        | false => exact .expr given (List.getElem?_eq_getElem inside) evaluated

theorem truth_of_labelled {name : String} {states : BitSet}
    (found : i.model.labelled? i.labels name = some states) {state : Nat}
    (inside : state < i.model.numStates) :
    i.Truth state (.label name) (states.contains state) := by
  rcases Model.labelled?_cases found with
    given | ⟨missing, own | ⟨unlabelled, ⟨rfl, rfl⟩ | ⟨rfl, rfl⟩⟩⟩
  · exact .given given
  · exact .own missing own
  · exact .init missing unlabelled rfl
  · have stuck : i.model.deadlocks.contains state =
        (i.model.numChoices state == 0) := by
      simp only [Model.deadlocks, BitSet.contains_ofList, List.mem_filter,
        List.mem_range, inside, true_and, beq_iff_eq]
      rfl
    rw [stuck]
    exact .deadlock missing unlabelled rfl

/-- A set that evaluation gives holds the states in which the formula is
true. -/
theorem Evaluates.truth {defining : List String} {formula : StateFormula}
    {outcome : Attempt (CheckError R) BitSet} {states : BitSet}
    (evaluates : i.Evaluates defining formula outcome)
    (succeeds : outcome = .ok states) (range : i.LabelsBelow formula) :
    (∀ state, states.contains state = true → state < i.model.numStates) ∧
    ∀ state, state < i.model.numStates →
      i.Truth state formula (states.contains state) := by
  induction evaluates generalizing states with
  | top =>
      cases succeeds
      refine ⟨by simp, ?_⟩
      intro state inside
      rw [BitSet.contains_full, decide_eq_true inside]
      exact .top
  | bottom =>
      cases succeeds
      refine ⟨by simp, ?_⟩
      intro state inside
      rw [BitSet.contains_withCapacity]
      exact .bottom
  | labelled found =>
      cases succeeds
      refine ⟨?_, fun state inside => truth_of_labelled found inside⟩
      exact BitSet.isBelow_iff.mp (range _ _ .here found)
  | undefined _ _ => cases succeeds
  | circular _ _ => cases succeeds
  | expanded expands _ _ ih =>
      obtain ⟨below, truth⟩ := ih succeeds fun name set mentions =>
        range name set (.expanded expands mentions)
      obtain ⟨missing, unlabelled, notInit, notDeadlock⟩ :=
        Model.labelled?_eq_none expands.1
      refine ⟨below, ?_⟩
      intro state inside
      exact .defined missing unlabelled notInit notDeadlock expands.2
        (truth state inside)
  | expr => exact statesOf_eq_ok succeeds
  | not _ ih =>
      cases succeeds
      obtain ⟨-, truth⟩ := ih rfl fun name set mentions =>
        range name set (.not mentions)
      constructor
      · intro state member
        rw [BitSet.contains_complement, Bool.and_eq_true_iff] at member
        exact of_decide_eq_true member.1
      · intro state inside
        rw [BitSet.contains_complement, decide_eq_true inside, Bool.true_and]
        exact .not (truth state inside)
  | notFails _ _ => cases succeeds
  | and _ _ leftIh rightIh =>
      cases succeeds
      obtain ⟨below, leftTruth⟩ := leftIh rfl fun name set mentions =>
        range name set (.andLeft mentions)
      obtain ⟨-, rightTruth⟩ := rightIh rfl fun name set mentions =>
        range name set (.andRight mentions)
      constructor
      · intro state member
        rw [BitSet.contains_inter, Bool.and_eq_true_iff] at member
        exact below state member.1
      · intro state inside
        rw [BitSet.contains_inter]
        exact .and (leftTruth state inside) (rightTruth state inside)
  | andLeftFails _ _ => cases succeeds
  | andRightFails _ _ _ _ => cases succeeds
  | or _ _ leftIh rightIh =>
      cases succeeds
      obtain ⟨leftBelow, leftTruth⟩ := leftIh rfl fun name set mentions =>
        range name set (.orLeft mentions)
      obtain ⟨rightBelow, rightTruth⟩ := rightIh rfl fun name set mentions =>
        range name set (.orRight mentions)
      constructor
      · intro state member
        rw [BitSet.contains_union, Bool.or_eq_true_iff] at member
        rcases member with onLeft | onRight
        · exact leftBelow state onLeft
        · exact rightBelow state onRight
      · intro state inside
        rw [BitSet.contains_union]
        exact .or (leftTruth state inside) (rightTruth state inside)
  | orLeftFails _ _ => cases succeeds
  | orRightFails _ _ _ _ => cases succeeds

/-! ## Negation -/

theorem satisfying_not (i : Interpretation R) (formula : StateFormula) :
    i.satisfying (.not formula) =
      (i.satisfying formula).map (·.complement i.model.numStates) := by
  unfold satisfying
  rw [evalWith]
  cases i.evalWith (i.labelSet i.properties.definitions.length []) formula <;>
    rfl

/-- A negation fails like the formula, and otherwise has the other states. -/
theorem satisfying_negated {formula : StateFormula}
    (range : i.LabelsBelow formula) :
    (∀ failure, i.satisfying formula = .error failure →
      i.satisfying formula.negated = .error failure) ∧
    ∀ states, i.satisfying formula = .ok states →
      ∃ rest, i.satisfying formula.negated = .ok rest ∧
        ∀ state, rest.contains state =
          (decide (state < i.model.numStates) && !states.contains state) := by
  -- Only a formula that starts with a negation loses something on the way.
  have general : (∀ failure, i.satisfying formula = .error failure →
      i.satisfying (.not formula) = .error failure) ∧
    ∀ states, i.satisfying formula = .ok states →
      ∃ rest, i.satisfying (.not formula) = .ok rest ∧
        ∀ state, rest.contains state =
          (decide (state < i.model.numStates) && !states.contains state) := by
    constructor
    · intro failure failed
      rw [satisfying_not, failed]
      rfl
    · intro states found
      rw [satisfying_not, found]
      exact ⟨_, rfl, fun state => BitSet.contains_complement ..⟩
  cases formula with
  | top =>
      refine ⟨nofun, ?_⟩
      intro states found
      cases found
      exact ⟨_, rfl, fun state => by simp⟩
  | bottom =>
      refine ⟨nofun, ?_⟩
      intro states found
      cases found
      exact ⟨_, rfl, fun state => by simp⟩
  | not inner =>
      rw [satisfying_not]
      cases outcome : i.satisfying inner with
      | error failure =>
          refine ⟨?_, nofun⟩
          rintro other ⟨⟩
          exact outcome
      | ok inside =>
          refine ⟨nofun, ?_⟩
          rintro states ⟨⟩
          obtain ⟨below, -⟩ := (evaluates_iff.mpr outcome).truth rfl
            fun name set mentions => range name set (.not mentions)
          refine ⟨inside, outcome, ?_⟩
          intro state
          rw [BitSet.contains_complement]
          cases member : inside.contains state with
          | true => simp [below state member]
          | false => simp
  | label name => exact general
  | expr e => exact general
  | and left right => exact general
  | or left right => exact general

/-- **Evaluation is the meaning of formulas.**  Evaluation always comes to an
end: the rules derive its outcome, and no other one.  Its outcome is the error
about a circular label exactly if it comes to a label while that is being
expanded, which does not happen where definitions are not circular.  A set is
that of the states in which the formula is true, as long as the labels stand for
sets of states, and the negation of the formula then has the remaining
states. -/
theorem satisfying_meaning (i : Interpretation R) (formula : StateFormula) :
    (∀ outcome, i.Evaluates [] formula outcome ↔
      i.satisfying formula = outcome) ∧
    (∀ name, i.Meets name [] formula ↔ i.satisfying formula =
      Attempt.fail (.malformed (.circularLabel name))) ∧
    (i.Acyclic formula → ∀ name, i.satisfying formula ≠
      Attempt.fail (.malformed (.circularLabel name))) ∧
    (i.LabelsBelow formula → ∀ states, i.satisfying formula = .ok states →
      ∀ state, states.contains state = true ↔
        state < i.model.numStates ∧ i.Truth state formula true) ∧
    (i.LabelsBelow formula →
      (∀ failure, i.satisfying formula = .error failure →
        i.satisfying formula.negated = .error failure) ∧
      ∀ states, i.satisfying formula = .ok states →
        ∃ rest, i.satisfying formula.negated = .ok rest ∧
          ∀ state, rest.contains state =
            (decide (state < i.model.numStates) &&
              !states.contains state)) := by
  have circles : ∀ name, i.Meets name [] formula ↔ i.satisfying formula =
      Attempt.fail (.malformed (.circularLabel name)) := by
    intro name
    rw [← evaluates_iff]
    exact ⟨Meets.evaluates, fun evaluates => evaluates.meets rfl⟩
  refine ⟨fun outcome => evaluates_iff, circles, ?_, ?_, satisfying_negated⟩
  · intro acyclic name circle
    exact acyclic.not_meets name ((circles name).mpr circle)
  · intro range states found state
    obtain ⟨below, truth⟩ := (evaluates_iff.mpr found).truth rfl range
    constructor
    · intro member
      have inside := below state member
      exact ⟨inside, member ▸ truth state inside⟩
    · rintro ⟨inside, holds⟩
      exact (truth state inside).unique holds

/-- The barrier with two labels by definition, of which one is circular. -/
def queueing : Interpretation Float :=
  { turnstile with properties :=
    { definitions := [("waiting", .not (.label "inside")),
        ("served", .or (.label "inside") (.label "served"))] } }

/-- A formula that uses a defined label twice. -/
def queueingTwice : StateFormula :=
  .and (.or (.label "waiting") (.label "inside")) (.label "waiting")

theorem queueing_expands {name : String} {definition : StateFormula}
    (expands : queueing.Expands name definition) :
    name ≠ "inside" ∧
      (name = "waiting" → definition = .not (.label "inside")) := by
  constructor
  · rintro rfl
    have missing : (queueing.model.labelled? queueing.labels "inside").isNone =
        true := by
      rw [expands.1]
      rfl
    exact absurd missing (by decide)
  · rintro rfl
    exact (Option.some.inj expands.2).symm

theorem queueing_mentions_inside {name : String}
    (mentions : queueing.Mentions (.label "inside") name) : name = "inside" := by
  cases mentions with
  | here => rfl
  | expanded expands _ => exact absurd rfl (queueing_expands expands).1

theorem queueing_mentions {name : String}
    (mentions : queueing.Mentions queueingTwice name) :
    name = "waiting" ∨ name = "inside" := by
  have waiting : ∀ other, queueing.Mentions (.label "waiting") other →
      other = "waiting" ∨ other = "inside" := by
    intro other mentioned
    cases mentioned with
    | here => exact .inl rfl
    | expanded expands within =>
        rw [(queueing_expands expands).2 rfl] at within
        cases within with
        | not inner => exact .inr (queueing_mentions_inside inner)
  cases mentions with
  | andLeft left =>
      cases left with
      | orLeft first => exact waiting name first
      | orRight second => exact .inr (queueing_mentions_inside second)
  | andRight right => exact waiting name right

theorem queueing_acyclic : queueing.Acyclic queueingTwice := by
  intro name definition mentions expands again
  obtain ⟨notInside, defined⟩ := queueing_expands expands
  rcases queueing_mentions mentions with rfl | rfl
  · rw [defined rfl] at again
    cases again with
    | not inner => exact absurd (queueing_mentions_inside inner) (by decide)
  · exact notInside rfl

theorem queueing_labelsBelow : queueing.LabelsBelow queueingTwice := by
  intro name states mentions found
  rcases queueing_mentions mentions with rfl | rfl
  · cases found
  · cases found
    decide

/-- A label that is used twice is not taken for a circular one, and one that is
circular is found out. -/
theorem queueing_meaning :
    queueing.Acyclic queueingTwice ∧ queueing.LabelsBelow queueingTwice ∧
    (∀ name, queueing.satisfying queueingTwice ≠
      Attempt.fail (.malformed (.circularLabel name))) ∧
    (∃ states, queueing.satisfying queueingTwice = .ok states ∧
      (∀ state, states.contains state = true ↔
        state < 2 ∧ queueing.Truth state queueingTwice true) ∧
      states.toList = [0]) ∧
    queueing.satisfying (.label "served") =
      Attempt.fail (.malformed (.circularLabel "served")) := by
  obtain ⟨-, -, uncircled, meaning, -⟩ :=
    satisfying_meaning queueing queueingTwice
  obtain ⟨-, circled, -⟩ := satisfying_meaning queueing (.label "served")
  have expands : queueing.Expands "served"
      (.or (.label "inside") (.label "served")) := ⟨rfl, rfl⟩
  refine ⟨queueing_acyclic, queueing_labelsBelow, uncircled queueing_acyclic,
    ⟨_, rfl, meaning queueing_labelsBelow _ rfl, by decide⟩, ?_⟩
  apply (circled "served").mp
  apply Meets.expanded expands List.not_mem_nil
  exact .orRight (.labelled rfl) (.here expands List.mem_cons_self)

end Interpretation

end Markov
