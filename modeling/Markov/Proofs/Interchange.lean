import Mathlib.Algebra.Order.BigOperators.Group.List
import Mathlib.Algebra.Order.Ring.Nat
import Markov.Check
import Markov.Proofs.Countdown
import Markov.Proofs.Product

/-!
# Interchangeable layouts

A model in flat arrays shows the same kind, states, choices and annotations as
the lists that it was packed from, as long as no weight is negative.  Checking
and products look at nothing else of a model, so they cannot tell the two apart.
-/

namespace Markov

/-- Both operations fail in the same way, or both give results, which are
related. -/
inductive Attempt.Agree {ε α β : Type} (related : α → β → Prop) :
    Attempt ε α → Attempt ε β → Prop
  | failed (failure : Failure ε) :
      Agree related (.error failure) (.error failure)
  | done {left : α} {right : β} (same : related left right) :
      Agree related (.ok left) (.ok right)

theorem Attempt.Agree.require_bind {ε α β : Type} {related : α → β → Prop}
    {left : Attempt ε α} {right : Attempt ε β} (holds : Bool)
    (rest : Agree related left right) :
    Agree related (require holds >>= fun _ => left)
      (require holds >>= fun _ => right) := by
  cases holds with
  | false => exact .failed .breach
  | true => exact rest

namespace Model

section Views

variable {R : Type} [Scalar R]

/-- Two models that show the same to everyone who looks at them. -/
structure Alike (m other : Model R) : Prop where
  kind : m.kind = other.kind
  numStates : m.numStates = other.numStates
  numChoices : ∀ state, m.numChoices state = other.numChoices state
  stored? : ∀ state index, m.stored? state index = other.stored? state index
  choice? : ∀ {ε : Type} state index,
    (m.layout.choice? state index : Attempt ε _) =
      other.layout.choice? state index
  player : ∀ state, state < m.numStates → m.player state = other.player state
  numAllChoices : m.numAllChoices = other.numAllChoices
  numTransitions : m.numTransitions = other.numTransitions
  initial : m.initial = other.initial
  labels : m.labels = other.labels
  rewards : m.rewards = other.rewards
  valuations : m.valuations = other.valuations

theorem alike_of_withRows {m other : Model R} {first second : Layout R}
    {rows : Array (List (Distribution R))}
    (left : m.layout = first.withRows rows)
    (right : other.layout = second.withRows rows) (accepted : m.NonNegative)
    (kind : m.kind = other.kind)
    (player : ∀ state, state < rows.size →
      m.player state = other.player state)
    (initial : m.initial = other.initial) (labels : m.labels = other.labels)
    (rewards : m.rewards = other.rewards)
    (valuations : m.valuations = other.valuations) : m.Alike other := by
  have states : m.numStates = other.numStates := by
    simp [Model.numStates, left, right]
  have choices : ∀ state, m.numChoices state = other.numChoices state := by
    simp [Model.numChoices, left, right]
  have stored : ∀ state index,
      m.layout.stored? state index = other.layout.stored? state index := by
    simp [left, right]
  exact {
    kind := kind
    numStates := states
    numChoices := choices
    stored? := stored
    choice? := by
      intro ε state index
      have weights := accepted state index
      rw [Layout.choice?_eq_ok weights]
      rw [Model.stored?, stored] at weights
      rw [Layout.choice?_eq_ok weights, stored]
    player := by simpa [Model.numStates, left] using player
    numAllChoices := by
      simp only [Model.numAllChoices, states, funext choices]
    numTransitions := by simp [Model.numTransitions, left, right]
    initial := initial
    labels := labels
    rewards := rewards
    valuations := valuations }

namespace Alike

variable {m other : Model R}

theorem read (alike : m.Alike other) {ε : Type} :
    Table.read (ε := ε) m = Table.read other := by
  have rows : Table.readRow (ε := ε) m = Table.readRow other := by
    funext state
    rw [Table.readRow, Table.readRow, alike.numChoices,
      funext (alike.choice? state)]
  rw [Table.read, Table.read, rows, alike.numStates]

theorem directions (alike : m.Alike other) (objective : Option Direction) :
    directions m objective = directions other objective := by
  unfold Markov.directions
  rw [← alike.numStates]
  apply congrArg List.toArray
  apply List.map_congr_left
  intro state member
  rw [alike.kind, alike.player state (List.mem_range.mp member)]

theorem deadlocks (alike : m.Alike other) : m.deadlocks = other.deadlocks := by
  simp only [Model.deadlocks, alike.numStates, alike.numChoices]

theorem labelled? (alike : m.Alike other) (labels : Labels) :
    m.labelled? labels = other.labelled? labels := by
  funext name
  simp only [Model.labelled?, alike.labels, alike.initial, alike.deadlocks]

theorem rewardStructure? (alike : m.Alike other) :
    m.rewardStructure? = other.rewardStructure? := by
  funext name
  cases name <;> simp only [Model.rewardStructure?, alike.rewards]

theorem checkValid (alike : m.Alike other) (property : Property R) :
    property.checkValid m = property.checkValid other := by
  have mismatch : property.mismatch? m = property.mismatch? other := by
    cases property <;>
      simp only [Property.mismatch?, alike.kind, alike.rewardStructure?]
  rw [Property.checkValid, Property.checkValid, mismatch, alike.kind]

theorem checkStructure (alike : m.Alike other) :
    m.checkStructure = other.checkStructure := by
  simp only [Model.checkStructure, alike.kind, alike.numStates,
    alike.numChoices]

end Alike

end Views

end Model

namespace Interpretation

variable {R : Type} [Scalar R] {m other : Model R}
variable (labels : Labels) (properties : PropertySet R)

theorem statesOf_congr (alike : m.Alike other) (e : Expr) :
    statesOf ⟨m, labels, properties⟩ e =
      statesOf ⟨other, labels, properties⟩ e := by
  simp only [statesOf, alike.numStates, alike.valuations]
  rfl

theorem evalWith_congr (alike : m.Alike other)
    (sets : String → Attempt (CheckError R) BitSet) (formula : StateFormula) :
    evalWith ⟨m, labels, properties⟩ sets formula =
      evalWith ⟨other, labels, properties⟩ sets formula := by
  induction formula with
  | top => simp only [evalWith, alike.numStates]
  | bottom => simp only [evalWith, alike.numStates]
  | label name => rfl
  | expr e => exact statesOf_congr labels properties alike e
  | not inner ih => simp only [evalWith, ih, alike.numStates]
  | and left right leftIh rightIh => simp only [evalWith, leftIh, rightIh]
  | or left right leftIh rightIh => simp only [evalWith, leftIh, rightIh]

theorem labelSet_congr (alike : m.Alike other) (fuel : Nat)
    (defining : List String) :
    labelSet ⟨m, labels, properties⟩ fuel defining =
      labelSet ⟨other, labels, properties⟩ fuel defining := by
  -- A definition is expanded with one definition less to go.
  induction fuel generalizing defining with
  | zero =>
      funext name
      simp only [labelSet, alike.labelled?]
  | succ fuel ih =>
      funext name
      simp only [labelSet, alike.labelled?, ih,
        evalWith_congr labels properties alike]

theorem satisfying_congr (alike : m.Alike other) (formula : StateFormula) :
    satisfying ⟨m, labels, properties⟩ formula =
      satisfying ⟨other, labels, properties⟩ formula := by
  simp only [satisfying, labelSet_congr labels properties alike,
    evalWith_congr labels properties alike]

end Interpretation

namespace Checker

variable {R : Type}

/-- The procedures of a checker give the same on two models. -/
structure Equates (c : Checker R) (m other : Model R) : Prop where
  next : c.next m = c.next other
  holdsUntil : c.holdsUntil m = c.holdsUntil other
  reachReward : c.reachReward m = c.reachReward other
  cumulativeReward : c.cumulativeReward m = c.cumulativeReward other

/-- Every checker works on the table and the directions of a model alone. -/
theorem equates_ofKind [Analytic R] {m other : Model R}
    (alike : m.Alike other) (kind : ModelKind) (options : Options R) :
    (ofKind kind options).Equates m other := by
  have reads : Table.read (ε := CheckError R) m = Table.read other := alike.read
  have dirs := alike.directions
  cases kind with
  | dtmc =>
      constructor <;> simp only [ofKind, dtmc, reads]
  | mdp =>
      constructor <;> simp only [ofKind, mdp, objectiveSolver, reads, dirs]
  | ctmc =>
      constructor <;> simp only [ofKind, ctmc, reads]
  | ctmdp =>
      constructor <;> simp only [ofKind, ctmdp, reads, dirs]
  | stpg =>
      constructor <;> simp only [ofKind, stpg, objectiveSolver, reads, dirs]

variable [Scalar R] {c : Checker R} {m other : Model R}
variable (labels : Labels) (properties : PropertySet R)

theorem pathValues_congr (alike : m.Alike other) (equates : c.Equates m other)
    (objective : Option Direction) (path : PathFormula R) :
    c.pathValues ⟨m, labels, properties⟩ objective path =
      c.pathValues ⟨other, labels, properties⟩ objective path := by
  have sets := Interpretation.satisfying_congr labels properties alike
  cases path with
  | next target => simp only [pathValues, sets, equates.next]
  | holdsUntil left right bound =>
      simp only [pathValues, sets, equates.holdsUntil]
  | globally inner bound =>
      simp only [pathValues, sets, equates.holdsUntil, alike.numStates]

theorem rewardValues_congr (alike : m.Alike other)
    (equates : c.Equates m other) (objective : Option Direction)
    (rewards : RewardStructure R) (path : RewardPath R) :
    c.rewardValues ⟨m, labels, properties⟩ objective rewards path =
      c.rewardValues ⟨other, labels, properties⟩ objective rewards path := by
  have sets := Interpretation.satisfying_congr labels properties alike
  cases path with
  | reach target => simp only [rewardValues, sets, equates.reachReward]
  | cumulative bound => simp only [rewardValues, equates.cumulativeReward]

theorem check_congr (alike : m.Alike other) (equates : c.Equates m other)
    (property : Property R) :
    c.check ⟨m, labels, properties⟩ property =
      c.check ⟨other, labels, properties⟩ property := by
  have judges : c.judge m = c.judge other := by
    funext threshold computed
    simp only [judge, alike.initial]
  cases property with
  | state formula =>
      simp only [check, alike.initial,
        Interpretation.satisfying_congr labels properties alike]
  | prob objective threshold path =>
      simp only [check, judges,
        pathValues_congr labels properties alike equates]
  | reward rewards objective threshold path =>
      simp only [check, judges, alike.rewardStructure?,
        rewardValues_congr labels properties alike equates]

end Checker

theorem Settings.modelCheck_congr {R : Type} [Analytic R] {m other : Model R}
    (alike : m.Alike other) (settings : Settings R) (labels : Labels)
    (properties : PropertySet R) (property : Property R) :
    settings.modelCheck ⟨m, labels, properties⟩ property =
      settings.modelCheck ⟨other, labels, properties⟩ property := by
  have checks : ∀ kind options,
      (Checker.ofKind kind options).check ⟨m, labels, properties⟩ property =
        (Checker.ofKind kind options).check ⟨other, labels, properties⟩
          property := fun kind options =>
    Checker.check_congr labels properties alike
      (Checker.equates_ofKind alike kind options) property
  simp only [modelCheck, alike.checkValid, alike.checkStructure, alike.kind,
    checks]

/-! ## Products -/

namespace Product

variable {R : Type} [Scalar R] {m other : Model R} {limit : Nat}

/-- Choices below a limit are found in the same way in two models. -/
def FindsAlike (m other : Model R) (limit : Nat) : Prop :=
  ∀ state action, action < limit →
    (m.findChoice state action : Attempt (StrategyError R) _) =
      other.findChoice state action

theorem resolveMove_congr (alike : m.Alike other)
    (finds : FindsAlike m other limit) {s : CountdownStrategy}
    (below : s.ActsBelow limit) (state : Nat) :
    resolveMove s m state = resolveMove s other state := by
  unfold resolveMove
  apply Attempt.bind_congr_of_ok
  intro move moved
  obtain ⟨memory, -, rest⟩ := Attempt.bind_eq_ok.mp moved
  obtain ⟨action, acts, done⟩ := Attempt.bind_eq_ok.mp rest
  cases done
  simp only [Distribution.support_point, alike.numChoices,
    finds state action (below.actionAt_lt acts)]

theorem resolveLevel_congr (alike : m.Alike other)
    (finds : FindsAlike m other limit) {s : CountdownStrategy}
    (below : s.ActsBelow limit) (bound level : Nat) :
    resolveLevel s m bound level = resolveLevel s other bound level := by
  have states : resolveState s m bound level =
      resolveState s other bound level := by
    funext state
    simp only [resolveState, resolveMove_congr alike finds below,
      alike.numStates]
  rw [resolveLevel, resolveLevel, states, alike.numStates]

theorem resolveLevels_congr (alike : m.Alike other)
    (finds : FindsAlike m other limit) {s : CountdownStrategy}
    (below : s.ActsBelow limit) (bound level : Nat) :
    resolveLevels m bound level s = resolveLevels other bound level s := by
  -- The memory changes from level to level, the table does not.
  induction level generalizing s with
  | zero => rfl
  | succ level ih =>
      unfold resolveLevels
      cases set : Strategy.setMemory (R := R) s (.counter (level + 1 : Nat)) with
      | mk outcome changed =>
          have kept := below.of_setMemory set
          cases outcome with
          | error cause => rfl
          | ok done =>
              simp only [resolveLevel_congr alike finds kept, ih kept]

/-- Two models from which products are made alike. -/
def FillsAlike (blank otherBlank : Model R) : Prop :=
  blank.kind = otherBlank.kind ∧ blank.players = otherBlank.players

theorem assemble_alike (alike : m.Alike other) {blank otherBlank : Model R}
    (fills : FillsAlike blank otherBlank) (bound : Nat)
    {resolved : List (Nat × Distribution R)}
    (accepted : ∀ entry ∈ resolved, entry.2.NonNegative) :
    (assemble m blank bound resolved).Alike
      (assemble other otherBlank bound resolved) := by
  have lifted : liftValuation m bound = liftValuation other bound := by
    funext block state
    simp only [liftValuation, alike.valuations]
  apply Model.alike_of_withRows rfl rfl
  · exact nonNegative_assemble accepted
  · exact fills.1
  · intro state _
    simp only [Model.player, assemble, fills.2]
  · exact alike.initial
  · simp only [assemble, alike.labels, alike.numStates]
  · simp only [assemble, alike.rewards, alike.numStates]
  · simp only [assemble, alike.numStates, lifted]

/-- Preparation looks at the kind and the size of a model, and hands on the
kind. -/
theorem prepare_agree (alike : m.Alike other)
    (free : m.layout.isLocked = false)
    (otherFree : other.layout.isLocked = false) (s : CountdownStrategy) :
    Attempt.Agree FillsAlike (prepare s m) (prepare s other) := by
  have blank : ∃ blank, m.blank? 0 = some blank ∧
      blank.kind = m.kind ∧ blank.players = #[] := by
    simp [Model.blank?, free]
  have otherBlank : ∃ blank, other.blank? 0 = some blank ∧
      blank.kind = other.kind ∧ blank.players = #[] := by
    simp [Model.blank?, otherFree]
  obtain ⟨left, leftMade, leftKind, leftPlayers⟩ := blank
  obtain ⟨right, rightMade, rightKind, rightPlayers⟩ := otherBlank
  have fills : FillsAlike left right :=
    ⟨leftKind.trans (alike.kind.trans rightKind.symm),
      leftPlayers.trans rightPlayers.symm⟩
  unfold prepare
  simp only [supportsProduct_eq, Bool.not_true, Bool.false_eq_true, if_false,
    Attempt.fail_bind, leftMade, rightMade, alike.kind, alike.numStates,
    alike.valuations]
  split
  · exact .failed _
  split
  · exact .failed _
  cases other.valuations with
  | none => exact .require_bind _ (.require_bind _ (.done fills))
  | some valuations =>
      dsimp only
      split
      · exact .failed _
      · exact .require_bind _ (.require_bind _ (.done fills))

theorem build_agree (alike : m.Alike other)
    (finds : FindsAlike m other limit) (free : m.layout.isLocked = false)
    (otherFree : other.layout.isLocked = false)
    {s : CountdownStrategy} (below : s.ActsBelow limit) :
    Attempt.Agree Model.Alike (build s m).1 (build s other).1 ∧
      (build s m).2 = (build s other).2 := by
  have prepared := prepare_agree alike free otherFree s
  unfold build
  simp only [resolveLevels_congr alike finds below]
  generalize prepare s m = left at *
  generalize prepare s other = right at *
  cases prepared with
  | failed failure => exact ⟨.failed failure, rfl⟩
  | done fills =>
      dsimp only
      split
      · exact ⟨.failed _, rfl⟩
      · split
        · exact ⟨.failed _, rfl⟩
        · rename_i resolved _ _ found _ _ _
          refine ⟨?_, rfl⟩
          cases resolved with
          | error failure => exact .failed failure
          | ok resolved =>
              have levels := resolved_of_resolveLevels le_rfl s.memory
                (congrArg Prod.fst found)
              exact .done (assemble_alike alike fills _ levels.nonNegative)

/-- Outcomes that agree are breaches together, so the memory is put back in both
or in none. -/
theorem product_agree {s : CountdownStrategy}
    (made : Attempt.Agree Model.Alike (build s m).1 (build s other).1)
    (left : (build s m).2 = (build s other).2) :
    Attempt.Agree Model.Alike (s.product m).1 (s.product other).1 ∧
      (s.product m).2 = (s.product other).2 := by
  refine ⟨by simpa using made, ?_⟩
  unfold CountdownStrategy.product
  generalize build s m = built at *
  generalize build s other = otherBuilt at *
  obtain ⟨result, changed⟩ := built
  obtain ⟨otherResult, otherChanged⟩ := otherBuilt
  cases left
  cases made with
  | failed failure => rfl
  | done same => rfl

end Product

/-! ## Packing -/

namespace Model

variable {R : Type}

/-- The number of choices of all states before a state. -/
def choicesBefore (m : Model R) (state : Nat) : Nat :=
  ((List.range state).map m.numChoices).sum

theorem choicesBefore_le {m : Model R} {state : Nat}
    (inside : state < m.numStates) :
    m.choicesBefore state ≤ m.numAllChoices := by
  have sublist := (List.range_sublist.mpr inside.le).map m.numChoices
  simpa [choicesBefore, numAllChoices, List.sum_eq_foldr] using
    sublist.sum_le_sum (by simp)

variable [Scalar R] {m : Model R} {rows : Array (List (Distribution R))}

omit [Scalar R] in
theorem choicesBefore_of_withRows {layout : Layout R}
    (laidOut : m.layout = layout.withRows rows) {state : Nat}
    (inside : state < rows.size) :
    m.choicesBefore state =
      ((rows.toList.map List.length).take state).sum := by
  unfold choicesBefore
  congr 1
  apply List.ext_getElem
  · simp [inside.le]
  · intro index _ _
    have before : index < rows.size := by
      have short : index < state := by simp_all
      exact short.trans inside
    simp [Model.numChoices, laidOut, before]

omit [Scalar R] in
theorem choicesBefore_of_listed (listed : m.layout = .listed rows)
    {state : Nat} (inside : state < rows.size) :
    m.choicesBefore state =
      ((rows.toList.map List.length).take state).sum := by
  have laidOut : m.layout = (Layout.listed #[]).withRows rows := listed
  exact choicesBefore_of_withRows laidOut inside

/-- A model and its flat arrays are alike. -/
theorem pack_alike (listed : m.layout = .listed rows)
    (accepted : m.NonNegative) : m.Alike m.pack := by
  have packed : m.pack.layout = (Layout.packed (.ofRows [])).withRows rows := by
    simp [pack, listed, Layout.rows, Layout.withRows]
  have unpacked : m.layout = (Layout.listed #[]).withRows rows := listed
  apply alike_of_withRows unpacked packed accepted rfl
  · intro state inside
    have counted : state < m.numStates := by
      simpa [Model.numStates, listed, Layout.numStates] using inside
    simp [pack, Model.player, counted]
  all_goals rfl

/-- Flat arrays count the choices of every state whose successor is an
index. -/
theorem pack_countChoices {ε : Type} (listed : m.layout = .listed rows)
    (accepted : m.NonNegative) {state : Nat}
    (fits : Word.isIndex (state + 1) = true) :
    (m.countChoices state : Attempt ε Nat) = m.pack.countChoices state := by
  have same := (pack_alike listed accepted).numChoices state
  have countable : m.pack.layout.isCountable state = true := fits
  have total : m.layout.isCountable state = true := by
    rw [listed]
    rfl
  simp only [countChoices, countable, total, same]

/-- Flat arrays find the choices whose positions among all choices are
indices. -/
theorem pack_findChoice {ε : Type} (listed : m.layout = .listed rows)
    (accepted : m.NonNegative) {state index : Nat}
    (fits : state < m.numStates →
      Word.isIndex (m.choicesBefore state + index) = true) :
    (m.findChoice state index : Attempt ε (Option (Distribution R))) =
      m.pack.findChoice state index := by
  have same := (pack_alike listed accepted).choice? (ε := ε) state index
  have addressable : m.pack.layout.isAddressable state index = true := by
    simp only [pack, listed, Layout.rows, Layout.isAddressable]
    apply Packed.isAddressable_ofRows
    intro inside
    have counted : state < rows.size := by simpa using inside
    rw [← choicesBefore_of_listed listed counted]
    apply fits
    simpa [Model.numStates, listed, Layout.numStates] using counted
  have total : m.layout.isAddressable state index = true := by
    rw [listed]
    rfl
  simp only [findChoice, addressable, total, same]

/-- Signed words, added to the number of all choices, stay indices. -/
theorem pack_findsAlike (listed : m.layout = .listed rows)
    (accepted : m.NonNegative) (room : m.numAllChoices ≤ Word.signedLimit) :
    Product.FindsAlike m m.pack Word.signedLimit := by
  intro state action small
  apply pack_findChoice listed accepted
  intro inside
  have before := choicesBefore_le inside
  have halves : Word.signedLimit + Word.signedLimit = Word.limit := rfl
  simp only [Word.isIndex, decide_eq_true_eq]
  omega

end Model

/-- Two models that no query, no strategy and no look at a choice tells
apart. -/
structure Model.Interchangeable {R : Type} [Analytic R] (m other : Model R) :
    Prop where
  alike : m.Alike other
  countChoices : ∀ {ε : Type} (state : Nat), Word.isIndex (state + 1) = true →
    (m.countChoices state : Attempt ε Nat) = other.countChoices state
  findChoice : ∀ {ε : Type} (state index : Nat),
    (state < m.numStates →
      Word.isIndex (m.choicesBefore state + index) = true) →
    (m.findChoice state index : Attempt ε (Option (Distribution R))) =
      other.findChoice state index
  modelCheck : ∀ (settings : Settings R) (labels : Labels)
    (properties : PropertySet R) (property : Property R),
    settings.modelCheck ⟨m, labels, properties⟩ property =
      settings.modelCheck ⟨other, labels, properties⟩ property
  /-- The number of choices is that of a model that fits into memory. -/
  product : m.numAllChoices ≤ Word.signedLimit →
    ∀ s : CountdownStrategy, s.FromWords →
      Attempt.Agree Model.Alike (s.product m).1 (s.product other).1 ∧
        (s.product m).2 = (s.product other).2

/-- Packing a model without negative weights changes nothing that can be told
from outside. -/
theorem Model.pack_interchangeable {R : Type} [Analytic R] {m : Model R}
    {rows : Array (List (Distribution R))} (listed : m.layout = .listed rows)
    (accepted : m.NonNegative) : m.Interchangeable m.pack where
  alike := pack_alike listed accepted
  countChoices _ fits := pack_countChoices listed accepted fits
  findChoice _ _ fits := pack_findChoice listed accepted fits
  modelCheck := Settings.modelCheck_congr (pack_alike listed accepted)
  product := by
    intro room s words
    have free : m.layout.isLocked = false := by
      rw [listed]
      rfl
    obtain ⟨made, left⟩ := Product.build_agree (pack_alike listed accepted)
      (pack_findsAlike listed accepted room) free rfl words.actsBelow
    exact Product.product_agree made left

/-- A process with a weight of zero, a choice that leads nowhere, and rows of
different lengths. -/
def kiosk : Model Float where
  kind := .mdp
  layout := .listed #[
    [.ofList [(0, 0), (1, 1)], .empty],
    [.point 1]]
  initial := .ofList [0]

def kioskPlan : CountdownStrategy where
  table := [[⟨1, 0⟩], [⟨1, 0⟩]]
  bound := 1
  memory := none
  tableSize := 4
  info := "No information available"

theorem kiosk_interchangeable :
    kiosk.Interchangeable kiosk.pack ∧
      ∃ product packed, (kioskPlan.product kiosk).1 = .ok product ∧
        (kioskPlan.product kiosk.pack).1 = .ok packed ∧
        product.Alike packed := by
  have interchangeable : kiosk.Interchangeable kiosk.pack :=
    Model.pack_interchangeable rfl (by decide +kernel)
  have recorded : CountdownStrategy.ofActions [[0], [0]] 1 = .ok kioskPlan :=
    rfl
  obtain ⟨agree, -⟩ := interchangeable.product (by decide) kioskPlan
    (CountdownStrategy.fromWords_of_ofActions recorded)
  have made : (kioskPlan.product kiosk).1.toOption.isSome = true := by
    decide +kernel
  refine ⟨interchangeable, ?_⟩
  generalize (kioskPlan.product kiosk).1 = product at *
  generalize (kioskPlan.product kiosk.pack).1 = packed at *
  cases agree with
  | failed failure => cases made
  | done same => exact ⟨_, _, rfl, rfl, same⟩

end Markov
