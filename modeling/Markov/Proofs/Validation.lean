import Markov.Check

/-!
# Completeness of validation

What makes no sense for a model is refused before anything is computed.  The
checkers refuse again, each on its own, whatever reaches them without a
direction, with a bound that counts no steps or with an operator that they have
no procedure for.  Here it is shown that nothing of this is left for them to
refuse once a property has been validated.

An operation is described by the errors that it may report.  Most procedures
report none of their own, so a description is carried through them by the rule
for sequences.
-/

namespace Markov

namespace Attempt

variable {ε δ α β : Type}

/-- Every error that the operation reports is as described. -/
def Reports (described : ε → Prop) (attempt : Attempt ε α) : Prop :=
  ∀ cause, attempt = fail cause → described cause

variable {described : ε → Prop}

theorem reports_ok (value : α) :
    Reports described (.ok value : Attempt ε α) := by
  intro cause failed
  cases failed

theorem reports_breach : Reports described (breach : Attempt ε α) := by
  intro cause failed
  cases failed

theorem reports_fail {cause : ε} (holds : described cause) :
    Reports described (fail cause : Attempt ε α) := by
  intro other failed
  cases failed
  exact holds

theorem reports_require (holds : Bool) :
    Reports described (require holds : Attempt ε Unit) := by
  cases holds with
  | false => exact reports_breach
  | true => exact reports_ok ()

theorem reports_entry (value : Option α) :
    Reports described (entry value : Attempt ε α) := by
  cases value with
  | none => exact reports_breach
  | some value => exact reports_ok value

theorem Reports.bind {attempt : Attempt ε α} {next : α → Attempt ε β}
    (first : attempt.Reports described)
    (later : ∀ value, attempt = .ok value → (next value).Reports described) :
    (attempt >>= next).Reports described := by
  intro cause failed
  cases attempt with
  | error failure =>
      cases failed
      exact first cause rfl
  | ok value => exact later value rfl cause failed

theorem Reports.require_bind {holds : Bool} {next : Unit → Attempt ε β}
    (later : (next ()).Reports described) :
    (require holds >>= next).Reports described :=
  (reports_require holds).bind fun _ _ => later

theorem reports_mapCause {change : δ → ε} {attempt : Attempt δ α}
    (holds : ∀ cause, described (change cause)) :
    (attempt.mapCause change).Reports described := by
  cases attempt with
  | ok value => exact reports_ok value
  | error failure =>
      cases failure with
      | breach => exact reports_breach
      | error cause => exact reports_fail (holds cause)

theorem reports_mapM {f : α → Attempt ε β} {entries : List α}
    (each : ∀ entry ∈ entries, (f entry).Reports described) :
    (entries.mapM f).Reports described := by
  induction entries with
  | nil => exact reports_ok []
  | cons entry entries ih =>
      rw [List.mapM_cons]
      have later := ih fun other member => each other (List.mem_cons_of_mem _ member)
      exact (each entry List.mem_cons_self).bind fun _ _ =>
        later.bind fun _ _ => reports_ok _

end Attempt

open Attempt

variable {R : Type}

/-- The errors that validation is there to prevent. -/
def CheckError.isRefusal : CheckError R → Bool
  | .mismatch _ _ => true
  | .malformed (.unknownRewards _) => true
  | _ => false

/-- An error that a validated property may still lead to. -/
def CheckError.Remains (cause : CheckError R) : Prop := cause.isRefusal = false

/-! ## Satisfaction sets -/

namespace Interpretation

variable (i : Interpretation R)

theorem statesOf_reports_of_holds {described : CheckError R → Prop} {e : Expr}
    (unvalued : described (.malformed (.noVariables e)))
    (miscounted : ∀ defect, described (.invalidModel defect))
    (truths : ∀ valuations, i.model.valuations = some valuations →
      ∀ v ∈ valuations, (i.holds e v).Reports described) :
    (i.statesOf e).Reports described := by
  unfold statesOf
  dsimp only
  split
  · exact reports_fail unvalued
  · rename_i valuations valued
    split
    · exact reports_fail (miscounted _)
    · exact (reports_mapM (truths valuations valued)).bind fun _ _ => reports_ok _

theorem statesOf_reports {described : CheckError R → Prop} (e : Expr)
    (unvalued : described (.malformed (.noVariables e)))
    (miscounted : ∀ defect, described (.invalidModel defect))
    (untyped : ∀ cause, described (.malformed (.notBoolean e cause)))
    (undefined : ∀ cause, described (.eval cause)) :
    (i.statesOf e).Reports described := by
  refine i.statesOf_reports_of_holds unvalued miscounted fun _ _ valuation _ => ?_
  apply reports_mapCause
  intro cause
  cases cause with
  | typeMismatch expected actual => exact untyped _
  | _ => exact undefined _

theorem evalWith_reports {sets : String → Attempt (CheckError R) BitSet}
    (labels : ∀ name, (sets name).Reports CheckError.Remains)
    (formula : StateFormula) :
    (i.evalWith sets formula).Reports CheckError.Remains := by
  induction formula with
  | top => exact reports_ok _
  | bottom => exact reports_ok _
  | label name => exact labels name
  | expr e =>
      exact i.statesOf_reports e rfl (fun _ => rfl) (fun _ => rfl) (fun _ => rfl)
  | not inner ih => exact ih.bind fun _ _ => reports_ok _
  | and left right leftIh rightIh =>
      exact leftIh.bind fun _ _ => rightIh.bind fun _ _ => reports_ok _
  | or left right leftIh rightIh =>
      exact leftIh.bind fun _ _ => rightIh.bind fun _ _ => reports_ok _

theorem labelSet_reports (fuel : Nat) (defining : List String) (name : String) :
    (i.labelSet fuel defining name).Reports CheckError.Remains := by
  -- The formulas of definitions are evaluated with one expansion less to go.
  induction fuel generalizing defining name with
  | zero =>
      unfold labelSet
      split
      · exact reports_ok _
      · split
        · exact reports_fail rfl
        · split <;> exact reports_fail rfl
  | succ fuel ih =>
      unfold labelSet
      split
      · exact reports_ok _
      · split
        · exact reports_fail rfl
        · split
          · exact reports_fail rfl
          · exact i.evalWith_reports (ih (name :: defining)) _

/-- Satisfaction sets are missing for other reasons than refusal. -/
theorem satisfying_reports (formula : StateFormula) :
    (i.satisfying formula).Reports CheckError.Remains :=
  i.evalWith_reports (i.labelSet_reports _ _) formula

end Interpretation

/-! ## Procedures -/

section Procedures

variable [Scalar R] {described : CheckError R → Prop}

theorem checkedIndicator_reports (set : BitSet) (n : Nat) :
    (checkedIndicator set n : Attempt (CheckError R) (Array R)).Reports
      described :=
  .require_bind (reports_ok _)

theorem Table.checkedZeroSet_reports (t : Table R)
    (dirs : Array (Option Direction)) (left right : BitSet) :
    (t.checkedZeroSet dirs left right :
      Attempt (CheckError R) BitSet).Reports described :=
  .require_bind (reports_ok _)

theorem Table.checkedOneSet_reports (t : Table R)
    (dirs : Array (Option Direction)) (left right : BitSet) :
    (t.checkedOneSet dirs left right :
      Attempt (CheckError R) Table.Witnessed).Reports described :=
  .require_bind (reports_ok _)

theorem Bellman.checkedBounded_reports (b : Bellman R) (unknown : BitSet)
    (count : Nat) (x : Array R) :
    (b.checkedBounded unknown count x :
      Attempt (CheckError R) (Array R)).Reports described :=
  .require_bind (reports_ok _)

namespace Solver

variable (s : Solver R)

theorem next_reports (target : BitSet) : (s.next target).Reports described :=
  (checkedIndicator_reports target _).bind fun _ _ =>
    .require_bind (reports_ok _)

theorem boundedUntil_reports (left right : BitSet) (steps : Nat) :
    (s.boundedUntil left right steps).Reports described :=
  (checkedIndicator_reports right _).bind fun _ _ =>
    ((s.bellman none).checkedBounded_reports _ _ _).bind fun _ _ =>
      reports_ok _

theorem recordedUntil_reports (left right : BitSet) (steps : Nat) :
    (s.recordedUntil left right steps).Reports described := by
  refine (checkedIndicator_reports right _).bind fun start _ => ?_
  refine Reports.bind ?_ fun _ _ => reports_ok _
  exact .require_bind (((s.bellman none).checkedBounded_reports _ _ _).bind
    fun _ _ => reports_ok _)

theorem cumulativeReward_reports (rewards : StepRewards R) (steps : Nat) :
    (s.cumulativeReward rewards steps).Reports described :=
  ((s.bellman (some rewards)).checkedBounded_reports _ _ _).bind fun _ _ =>
    reports_ok _

theorem solve_reports (rewards : Option (StepRewards R)) (unknown : BitSet)
    (x : Array R) (seed : Option (Array Nat)) :
    (s.solve rewards unknown x seed).Reports CheckError.Remains :=
  reports_mapCause fun _ => rfl

theorem holdsUntil_reports (left right : BitSet) :
    (s.holdsUntil left right).Reports CheckError.Remains := by
  have decided : (s.decided left right).Reports CheckError.Remains := by
    unfold Solver.decided
    split
    · exact (s.table.checkedZeroSet_reports _ _ _).bind fun _ _ =>
        (s.table.checkedOneSet_reports _ _ _).bind fun _ _ => reports_ok _
    · exact reports_ok _
  refine decided.bind fun sets _ => ?_
  refine (checkedIndicator_reports _ _).bind fun start _ => ?_
  dsimp only
  split
  · exact reports_ok _
  · exact (s.solve_reports _ _ _ _).bind fun _ _ => reports_ok _

theorem reachReward_reports (rewards : StepRewards R) (target : BitSet) :
    (s.reachReward rewards target).Reports CheckError.Remains := by
  refine (s.table.checkedOneSet_reports _ _ _).bind fun sure _ => ?_
  dsimp only
  split
  · exact reports_ok _
  · exact (s.solve_reports _ _ _ _).bind fun _ _ => reports_ok _

end Solver

omit [Scalar R] in
theorem Checker.withStrategy_reports (computed : Computed R)
    (actions : List (List Nat)) (steps : Nat) :
    (Checker.withStrategy computed actions steps).Reports
      CheckError.Remains := by
  unfold Checker.withStrategy
  split
  · exact reports_fail rfl
  · exact reports_ok _

end Procedures

namespace Checker

theorem timedUntil_reports [Analytic R] {described : CheckError R → Prop}
    (options : Options R) (rates : Table R) (dirs : Array (Option Direction))
    (left right : BitSet) (time : R) :
    (timedUntil options rates dirs left right time).Reports described := by
  unfold timedUntil
  dsimp only
  split
  · exact (checkedIndicator_reports _ _).bind fun _ _ => reports_ok _
  · refine Reports.bind ?_ fun _ _ => reports_ok _
    exact .require_bind (.require_bind (.require_bind (reports_ok _)))

theorem timedReward_reports [Analytic R] {described : CheckError R → Prop}
    (options : Options R) (rates : Table R) (rewards : RewardStructure R)
    (time : R) :
    (timedReward options rates rewards time).Reports described := by
  unfold timedReward
  dsimp only
  split
  · exact reports_ok _
  · refine Reports.bind ?_ fun _ _ => reports_ok _
    exact .require_bind (reports_ok _)

/-! ## What validation promises -/

/-- A direction is there if one is needed. -/
def Directed (kind : ModelKind) (objective : Option Direction) : Prop :=
  kind.isNondeterministic = true → ∃ direction, objective = some direction

theorem Directed.map_flip {kind : ModelKind} {objective : Option Direction}
    (directed : Directed kind objective) :
    Directed kind (objective.map Direction.flip) := by
  intro choices
  obtain ⟨direction, rfl⟩ := directed choices
  exact ⟨direction.flip, rfl⟩

end Checker

/-- A finite number is negative or at least zero, and not both. -/
def OrdersFinite (R : Type) [Scalar R] : Prop :=
  ∀ bound : R, Scalar.isFinite bound = true → (¬ bound < 0 ↔ 0 ≤ bound)

section Promises

variable [Scalar R]

omit [Scalar R] in
theorem Property.directed_of_checkDirection {kind : ModelKind}
    {operator : Operator} {objective : Option Direction}
    (valid : checkDirection (R := R) kind operator objective = .ok ()) :
    Checker.Directed kind objective := by
  intro choices
  cases objective with
  | some direction => exact ⟨direction, rfl⟩
  | none => simp [checkDirection, choices] at valid

theorem Property.checkBound_of_checkPath {kind : ModelKind}
    {path : PathFormula R} (valid : checkPath kind path = .ok ()) :
    ∀ time ∈ path.bound?, checkBound kind time = .ok () := by
  intro time bounded
  unfold checkPath at valid
  rw [bounded] at valid
  obtain ⟨_, accepted, -⟩ := Attempt.bind_eq_ok.mp valid
  exact accepted

/-- A bound that was accepted in discrete time counts steps. -/
theorem Checker.stepBound_eq_ok (orders : OrdersFinite R) {kind : ModelKind}
    (discrete : kind.isContinuous = false) {bound : R}
    (valid : Property.checkBound kind bound = .ok ()) (checker : ModelKind) :
    stepBound checker bound = .ok (Scalar.toNat bound) := by
  unfold Property.checkBound at valid
  split at valid
  · cases valid
  · rename_i accepted
    split at valid
    · cases valid
    · rename_i whole
      simp only [Bool.or_eq_true, Bool.not_eq_true', decide_eq_true_eq, not_or,
        Bool.not_eq_false] at accepted
      simp only [discrete, Bool.not_false, Bool.true_and,
        Bool.not_eq_true', Bool.not_eq_false] at whole
      have nonnegative := (orders bound accepted.1).mp accepted.2
      simp only [stepBound, accepted.1, nonnegative, whole, decide_true,
        Bool.and_true, if_true]
      rfl

theorem Checker.stepBound_reports {described : CheckError R → Prop}
    (orders : OrdersFinite R) {kind : ModelKind}
    (discrete : kind.isContinuous = false) {bound : R}
    (valid : Property.checkBound kind bound = .ok ()) (checker : ModelKind) :
    (stepBound checker bound).Reports described := by
  rw [stepBound_eq_ok orders discrete valid checker]
  exact reports_ok _

end Promises

/-! ## Checkers -/

section Reading

variable [Scalar R] {ε α : Type} {described : ε → Prop}

theorem Layout.choice?_reports (layout : Layout R) (state index : Nat) :
    (layout.choice? (ε := ε) state index).Reports described := by
  cases layout with
  | listed rows => exact reports_ok _
  | locked rows => exact reports_ok _
  | packed arrays =>
      change (arrays.choice? state index).Reports described
      unfold Packed.choice?
      split
      · exact reports_ok _
      · exact Reports.bind (.require_bind (reports_ok _)) fun _ _ => reports_ok _

theorem Table.read_bind_reports {m : Model R} {next : Table R → Attempt ε α}
    (later : ∀ table, (next table).Reports described) :
    (Table.read m >>= next).Reports described := by
  have rows : ∀ state ∈ List.range m.numStates,
      (Table.readRow m state).Reports described := fun state _ =>
    (reports_mapM fun index _ => m.layout.choice?_reports state index).bind
      fun _ _ => reports_ok _
  have read : (Table.read m).Reports described :=
    (reports_mapM rows).bind fun _ _ => reports_ok _
  exact read.bind fun table _ => later table

end Reading

namespace Checker

variable [Analytic R] {kind : ModelKind} {objective : Option Direction}
variable (options : Options R) (m : Model R)

theorem next_reports (directed : Directed kind objective)
    (supported : kind ≠ .ctmdp) (target : BitSet) :
    ((ofKind kind options).next m objective target).Reports
      CheckError.Remains := by
  cases kind with
  | dtmc => exact Table.read_bind_reports fun _ => Solver.next_reports _ target
  | ctmc => exact Table.read_bind_reports fun _ => Solver.next_reports _ target
  | mdp =>
      obtain ⟨direction, rfl⟩ := directed rfl
      exact Table.read_bind_reports fun _ => Solver.next_reports _ target
  | stpg =>
      obtain ⟨direction, rfl⟩ := directed rfl
      exact Table.read_bind_reports fun _ => Solver.next_reports _ target
  | ctmdp => exact absurd rfl supported

theorem holdsUntil_reports (orders : OrdersFinite R)
    (directed : Directed kind objective) {bound : Option R}
    (valid : ∀ time ∈ bound, Property.checkBound kind time = .ok ())
    (left right : BitSet) :
    ((ofKind kind options).holdsUntil m objective left right bound).Reports
      CheckError.Remains := by
  cases bound with
  | none =>
      cases kind with
      | dtmc =>
          exact Table.read_bind_reports fun _ =>
            Solver.holdsUntil_reports _ left right
      | ctmc =>
          exact Table.read_bind_reports fun _ =>
            Solver.holdsUntil_reports _ left right
      | mdp =>
          obtain ⟨direction, rfl⟩ := directed rfl
          exact Table.read_bind_reports fun _ =>
            Solver.holdsUntil_reports _ left right
      | ctmdp =>
          obtain ⟨direction, rfl⟩ := directed rfl
          exact Table.read_bind_reports fun _ =>
            Solver.holdsUntil_reports _ left right
      | stpg =>
          obtain ⟨direction, rfl⟩ := directed rfl
          exact Table.read_bind_reports fun _ =>
            Solver.holdsUntil_reports _ left right
  | some time =>
      have accepted := valid time rfl
      cases kind with
      | dtmc =>
          exact Table.read_bind_reports fun _ =>
            (stepBound_reports orders rfl accepted .dtmc).bind fun _ _ =>
              Solver.boundedUntil_reports _ left right _
      | ctmc =>
          exact Table.read_bind_reports fun _ =>
            timedUntil_reports _ _ _ left right time
      | mdp =>
          obtain ⟨direction, rfl⟩ := directed rfl
          refine Table.read_bind_reports fun _ =>
            (stepBound_reports orders rfl accepted .mdp).bind fun steps _ => ?_
          split
          · exact (Solver.recordedUntil_reports _ left right steps).bind
              fun _ _ => withStrategy_reports _ _ _
          · exact Solver.boundedUntil_reports _ left right steps
      | ctmdp =>
          obtain ⟨direction, rfl⟩ := directed rfl
          exact Table.read_bind_reports fun _ =>
            timedUntil_reports _ _ _ left right time
      | stpg =>
          obtain ⟨direction, rfl⟩ := directed rfl
          have steps : ((some time).mapM (stepBound .stpg)).Reports
              CheckError.Remains :=
            (stepBound_reports orders rfl accepted .stpg).bind fun _ _ =>
              reports_ok _
          refine steps.bind fun found _ => Table.read_bind_reports fun _ => ?_
          cases found with
          | none => exact Solver.holdsUntil_reports _ left right
          | some steps => exact Solver.boundedUntil_reports _ left right steps

theorem reachReward_reports (directed : Directed kind objective)
    (rewards : RewardStructure R) (target : BitSet) :
    ((ofKind kind options).reachReward m objective rewards target).Reports
      CheckError.Remains := by
  cases kind with
  | dtmc =>
      exact Table.read_bind_reports fun _ =>
        Solver.reachReward_reports _ _ target
  | ctmc =>
      exact Table.read_bind_reports fun _ =>
        Solver.reachReward_reports _ _ target
  | mdp =>
      obtain ⟨direction, rfl⟩ := directed rfl
      exact Table.read_bind_reports fun _ =>
        Solver.reachReward_reports _ _ target
  | ctmdp =>
      obtain ⟨direction, rfl⟩ := directed rfl
      exact Table.read_bind_reports fun _ =>
        Solver.reachReward_reports _ _ target
  | stpg =>
      obtain ⟨direction, rfl⟩ := directed rfl
      exact Table.read_bind_reports fun _ =>
        Solver.reachReward_reports _ _ target

theorem cumulativeReward_reports (orders : OrdersFinite R)
    (directed : Directed kind objective) (supported : kind ≠ .ctmdp)
    (rewards : RewardStructure R) {bound : R}
    (valid : Property.checkBound kind bound = .ok ()) :
    ((ofKind kind options).cumulativeReward m objective rewards bound).Reports
      CheckError.Remains := by
  cases kind with
  | dtmc =>
      exact (stepBound_reports orders rfl valid .dtmc).bind fun _ _ =>
        Table.read_bind_reports fun _ => Solver.cumulativeReward_reports _ _ _
  | ctmc =>
      exact Table.read_bind_reports fun _ =>
        timedReward_reports _ _ rewards bound
  | mdp =>
      obtain ⟨direction, rfl⟩ := directed rfl
      exact (stepBound_reports orders rfl valid .mdp).bind fun _ _ =>
        Table.read_bind_reports fun _ => Solver.cumulativeReward_reports _ _ _
  | stpg =>
      obtain ⟨direction, rfl⟩ := directed rfl
      exact (stepBound_reports orders rfl valid .stpg).bind fun _ _ =>
        Table.read_bind_reports fun _ => Solver.cumulativeReward_reports _ _ _
  | ctmdp => exact absurd rfl supported

variable {options m} {i : Interpretation R}

theorem pathValues_reports (orders : OrdersFinite R)
    (directed : Directed kind objective) {path : PathFormula R}
    (valid : Property.checkPath kind path = .ok ()) :
    ((ofKind kind options).pathValues i objective path).Reports
      CheckError.Remains := by
  cases path with
  | next target =>
      have supported : kind ≠ .ctmdp := by
        rintro rfl
        cases valid
      exact (i.satisfying_reports target).bind fun set _ =>
        next_reports options i.model directed supported set
  | holdsUntil left right bound =>
      have bounds := Property.checkBound_of_checkPath valid
      exact (i.satisfying_reports left).bind fun left _ =>
        (i.satisfying_reports right).bind fun right _ =>
          holdsUntil_reports options i.model orders directed bounds left right
  | globally inner bound =>
      have bounds := Property.checkBound_of_checkPath valid
      exact (i.satisfying_reports inner).bind fun inner _ =>
        (holdsUntil_reports options i.model orders directed.map_flip bounds _
          _).bind fun _ _ => reports_ok _

theorem rewardValues_reports (orders : OrdersFinite R)
    (directed : Directed kind objective) (rewards : RewardStructure R)
    {path : RewardPath R} (valid : Property.checkRewardPath kind path = .ok ()) :
    ((ofKind kind options).rewardValues i objective rewards path).Reports
      CheckError.Remains := by
  cases path with
  | reach target =>
      exact (i.satisfying_reports target).bind fun set _ =>
        reachReward_reports options i.model directed rewards set
  | cumulative bound =>
      obtain ⟨_, accepted, supported⟩ := Attempt.bind_eq_ok.mp valid
      have procedure : kind ≠ .ctmdp := by
        rintro rfl
        cases supported
      exact cumulativeReward_reports options i.model orders directed procedure
        rewards accepted

omit [Analytic R] in
theorem judge_reports [Scalar R] {described : CheckError R → Prop}
    (c : Checker R) (m : Model R) (threshold : Option (Comparison × R))
    (computed : Computed R) :
    (c.judge m threshold computed).Reports described := by
  cases threshold with
  | some threshold => exact reports_ok _
  | none =>
      refine Reports.bind ?_ fun _ _ => reports_ok _
      unfold answerQuery
      split
      · exact (reports_entry _).bind fun _ _ => reports_ok _
      · exact reports_ok _

/-- A property that was validated is not refused by the checker of the model,
and its rewards are known. -/
theorem check_reports (orders : OrdersFinite R) {property : Property R}
    (valid : property.checkValid i.model = .ok ()) (options : Options R) :
    ((ofKind i.model.kind options).check i property).Reports
      CheckError.Remains := by
  have sense : property.mismatch? i.model = .ok () := by
    unfold Property.checkValid at valid
    split at valid
    · assumption
    · cases valid
  cases property with
  | state formula =>
      exact (i.satisfying_reports formula).bind fun _ _ => reports_ok _
  | prob objective threshold path =>
      obtain ⟨_, directed, accepted⟩ := Attempt.bind_eq_ok.mp sense
      exact (pathValues_reports orders
        (Property.directed_of_checkDirection directed) accepted).bind
          fun computed _ => judge_reports _ i.model threshold computed
  | reward rewards objective threshold path =>
      obtain ⟨_, directed, rest⟩ := Attempt.bind_eq_ok.mp sense
      cases found : i.model.rewardStructure? rewards with
      | none =>
          rw [found] at rest
          cases rest
      | some earned =>
          rw [found] at rest
          simp only [check, found]
          exact (rewardValues_reports orders
            (Property.directed_of_checkDirection directed) earned rest).bind
              fun computed _ => judge_reports _ i.model threshold computed

end Checker

/-! ## The entry point -/

variable [Analytic R]

omit [Analytic R] in
theorem Model.checkStructure_reports (m : Model R) :
    (Attempt.lift m.checkStructure).Reports CheckError.Remains := by
  unfold checkStructure
  split
  · exact reports_ok _
  · split
    · exact reports_fail rfl
    · exact reports_ok _

theorem Settings.optionsFor_reports (settings : Settings R)
    (kind : ModelKind) :
    (settings.optionsFor kind).Reports CheckError.Remains :=
  reports_mapCause fun _ => rfl

/-- **Validation is complete.**  The checker of a model does not refuse a
property that was validated: it misses no direction, finds no fault in a bound,
has a procedure for the operator and knows the rewards.  So a check ends with a
mismatch exactly when validation does, and with the same one. -/
theorem Property.checkValid_complete (orders : OrdersFinite R)
    (i : Interpretation R) (property : Property R) :
    (property.checkValid i.model = .ok () → ∀ options : Options R,
      (∀ kind reason, (Checker.ofKind i.model.kind options).check i property ≠
        Attempt.fail (.mismatch kind reason)) ∧
      ∀ other, (Checker.ofKind i.model.kind options).check i property ≠
        Attempt.fail (.malformed (.unknownRewards other))) ∧
    ∀ (settings : Settings R) kind reason,
      settings.modelCheck i property = Attempt.fail (.mismatch kind reason) ↔
        property.checkValid i.model = .error (.mismatch kind reason) := by
  refine ⟨?_, ?_⟩
  · intro valid options
    have reports := Checker.check_reports orders valid options
    constructor
    · intro kind reason failed
      cases reports _ failed
    · intro other failed
      cases reports _ failed
  · intro settings kind reason
    cases outcome : property.checkValid i.model with
    | error cause =>
        have failed : settings.modelCheck i property = Attempt.fail cause := by
          simp only [Settings.modelCheck, outcome, Attempt.lift,
            Attempt.fail_bind]
        rw [failed]
        simp [Attempt.fail]
    | ok done =>
        have reports : (settings.modelCheck i property).Reports
            CheckError.Remains := by
          unfold Settings.modelCheck
          rw [outcome]
          exact (reports_ok _).bind fun _ _ =>
            i.model.checkStructure_reports.bind fun _ _ =>
              (settings.optionsFor_reports _).bind fun options _ =>
                Checker.check_reports orders outcome options
        constructor
        · intro failed
          cases reports _ failed
        · intro impossible
          cases impossible

open Float.Model (UnpackedFloat) in
/-- Binary floating-point numbers are ordered around zero, as far as they are
finite. -/
theorem ordersFinite_float : OrdersFinite Float := by
  intro bound finite
  have zero : (0 : Float).toModel.unpack = .zero .positive := rfl
  have negative : bound < 0 ↔
      bound.toModel.unpack.lt (.zero .positive) = true := by
    rw [← zero]
    exact decide_eq_true_iff
  have nonnegative : 0 ≤ bound ↔
      (UnpackedFloat.zero .positive).le bound.toModel.unpack = true := by
    rw [← zero]
    exact decide_eq_true_iff
  change bound.toModel.unpack.isFinite = true at finite
  rw [negative, nonnegative]
  cases number : bound.toModel.unpack with
  | notANumber =>
      rw [number] at finite
      cases finite
  | infinity sign =>
      rw [number] at finite
      cases finite
  | zero sign => cases sign <;> decide
  | finite sign mantissa exponent positive =>
      cases sign with
      | positive =>
          constructor
          · intro _
            rfl
          · intro _ below
            cases below
      | negative =>
          constructor
          · intro above
            exact absurd rfl above
          · intro above
            cases above

/-- A barrier at which a visitor takes one of two queues. -/
def turnstile : Interpretation Float where
  model := {
    kind := .ctmdp
    layout := .listed #[[.ofList [(1, 0.5)], .ofList [(1, 2)]], [.point 1]]
    initial := .ofList [0]
    labels := .ofList [("inside", .ofList [1])] }
  labels := .empty
  properties := {}

/-- How likely a visitor is still outside at a point in time. -/
def stayingOutside (time : Float) : Property Float :=
  .prob (some .min) none (.globally (.not (.label "inside")) (some time))

/-- A point in time to come is accepted and not refused later, and one in the
past is refused by validation already. -/
theorem turnstile_checkValid :
    OrdersFinite Float ∧
    (stayingOutside 2.5).checkValid turnstile.model = .ok () ∧
    (∀ options kind reason,
      (Checker.ofKind .ctmdp options).check turnstile (stayingOutside 2.5) ≠
        Attempt.fail (.mismatch kind reason)) ∧
    ∀ settings : Settings Float,
      settings.modelCheck turnstile (stayingOutside (-1)) =
        Attempt.fail (.mismatch .ctmdp (.invalidBound (-1))) := by
  have accepted : (stayingOutside 2.5).checkValid turnstile.model = .ok () :=
    rfl
  refine ⟨ordersFinite_float, accepted, ?_, ?_⟩
  · intro options
    exact ((Property.checkValid_complete ordersFinite_float turnstile
      (stayingOutside 2.5)).1 accepted options).1
  · intro settings
    exact ((Property.checkValid_complete ordersFinite_float turnstile
      (stayingOutside (-1))).2 settings .ctmdp _).mpr rfl

end Markov
