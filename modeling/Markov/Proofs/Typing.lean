import Markov.Proofs.Guarded
import Markov.Proofs.Overflow
import Markov.Proofs.Validation

/-!
# Types of expressions

An expression has a type if its operators are given what they ask for: truth values
or numbers, among which integers widen to doubles.  Where variables and constants
have the types that were assumed for them, the value of the expression has the type
of the expression.  It may be missing for two reasons only, a division by zero and
an integer that leaves its word.  So state formulas and updates whose expressions
have the right type report no error of types.
-/

namespace Markov

namespace ValueType

/-- The types of numbers. -/
def IsNumber : ValueType → Prop
  | int => True
  | bool => False
  | double => True

/-- The type of a sum, a difference or a product. -/
def join : ValueType → ValueType → ValueType
  | int, int => int
  | _, _ => double

/-- Values of the type can be stored as values of the type `target`. -/
def WidensTo (type target : ValueType) : Prop :=
  type = target ∨ type = .int ∧ target = .double

end ValueType

/-- What a comparison can be applied to.  Truth values are equal or not, and have
no order. -/
def Relation.Accepts : Relation → ValueType → ValueType → Prop
  | eq, a, b => a = .bool ∧ b = .bool ∨ a.IsNumber ∧ b.IsNumber
  | ne, a, b => a = .bool ∧ b = .bool ∨ a.IsNumber ∧ b.IsNumber
  | _, a, b => a.IsNumber ∧ b.IsNumber

/-- The type of the result of an operation on numbers. -/
def Arithmetic.result : Arithmetic → ValueType → ValueType → ValueType
  | div, _, _ => .double
  | _, a, b => a.join b

/-- The types of variables, by their index, and of constants, by their name. -/
structure Signature where
  ofIndex : Nat → Option ValueType
  ofName : String → Option ValueType

/-- The expression has a type, if its variables and constants have theirs. -/
inductive Expr.HasType (signature : Signature) : Expr → ValueType → Prop where
  | literal (value : Value) : HasType signature (.literal value) value.type
  | var {name : String} {index : Nat} {type : ValueType}
      (known : signature.ofIndex index = some type) :
      HasType signature (.var name index) type
  | const {name : String} {type : ValueType}
      (known : signature.ofName name = some type) :
      HasType signature (.const name) type
  | not {inner : Expr} :
      HasType signature inner .bool → HasType signature (.not inner) .bool
  | neg {inner : Expr} {type : ValueType} (number : type.IsNumber) :
      HasType signature inner type → HasType signature (.neg inner) type
  | connect {op : Connective} {left right : Expr} :
      HasType signature left .bool → HasType signature right .bool →
      HasType signature (.connect op left right) .bool
  | compare {op : Relation} {left right : Expr} {a b : ValueType}
      (accepted : op.Accepts a b) :
      HasType signature left a → HasType signature right b →
      HasType signature (.compare op left right) .bool
  | calculate {op : Arithmetic} {left right : Expr} {a b : ValueType}
      (first : a.IsNumber) (second : b.IsNumber) :
      HasType signature left a → HasType signature right b →
      HasType signature (.calculate op left right) (op.result a b)
  | ite {condition yes no : Expr} {type : ValueType} :
      HasType signature condition .bool → HasType signature yes type →
      HasType signature no type →
      HasType signature (.ite condition yes no) type

/-- Variables and constants have values of their types. -/
structure Context.Provides (context : Context) (signature : Signature) :
    Prop where
  atIndex : ∀ index type, signature.ofIndex index = some type →
    ∃ value, context.valueOf? index = some value ∧ value.type = type
  atName : ∀ name type, signature.ofName name = some type →
    ∃ value, context.constantOf? name = some value ∧ value.type = type

/-! ## Outcomes -/

namespace Attempt

variable {α β : Type} {good : α → Prop} {excuse : Prop}

/-- The result is as described, or there is none because of a division by zero or
for the reason that excuses a breach. -/
def Settles (good : α → Prop) (excuse : Prop) : Attempt EvalError α → Prop
  | .ok value => good value
  | .error .breach => excuse
  | .error (.error cause) => cause = .divisionByZero

theorem Settles.bind {attempt : Attempt EvalError α}
    {next : α → Attempt EvalError β} {described : β → Prop}
    (first : attempt.Settles good excuse)
    (later : ∀ value, good value → (next value).Settles described excuse) :
    (attempt >>= next).Settles described excuse := by
  cases attempt with
  | ok value => exact later value first
  | error failure =>
      cases failure with
      | breach => exact first
      | error cause => exact first

theorem Settles.excused {attempt : Attempt EvalError α} {other : Prop}
    (settles : attempt.Settles good other) (excused : attempt = breach → excuse) :
    attempt.Settles good excuse := by
  cases attempt with
  | ok value => exact settles
  | error failure =>
      cases failure with
      | breach => exact excused rfl
      | error cause => exact settles

end Attempt

open Attempt

/-! ## Operators -/

namespace Value

variable {value a b : Value}

theorem toBool_of_type (isBool : value.type = .bool) :
    ∃ truth, value.toBool = .ok truth := by
  cases value with
  | int i => cases isBool
  | bool truth => exact ⟨truth, rfl⟩
  | double x => cases isBool

theorem toDouble_of_type (number : value.type.IsNumber) :
    ∃ x, value.toDouble = .ok x := by
  cases value with
  | int i => exact ⟨_, rfl⟩
  | bool truth => exact number.elim
  | double x => exact ⟨x, rfl⟩

theorem settles_integer (i : Int) :
    (integer i).Settles (·.type = .int) True := by
  rw [integer_eq]
  split
  · exact rfl
  · trivial

theorem settles_negate (number : value.type.IsNumber) :
    value.negate.Settles (·.type = value.type) True := by
  cases value with
  | int i => exact settles_integer (-i)
  | bool truth => exact number.elim
  | double x => exact rfl

theorem equal_of_type
    (comparable : a.type = .bool ∧ b.type = .bool ∨
      a.type.IsNumber ∧ b.type.IsNumber) :
    ∃ truth, a.equal b = .ok truth := by
  unfold equal
  split
  · exact ⟨_, rfl⟩
  · exact ⟨_, rfl⟩
  · rename_i notBools notInts
    rcases comparable with ⟨isBool, alsoBool⟩ | ⟨first, second⟩
    · cases a <;> cases isBool
      cases b <;> cases alsoBool
      exact absurd rfl (notBools _ _ rfl)
    · obtain ⟨x, left⟩ := toDouble_of_type first
      obtain ⟨y, right⟩ := toDouble_of_type second
      rw [left, right]
      exact ⟨_, rfl⟩

end Value

theorem Relation.apply_of_type {op : Relation} {a b : Value}
    (accepted : op.Accepts a.type b.type) : ∃ truth, op.apply a b = .ok truth := by
  have ordered : a.type.IsNumber ∧ b.type.IsNumber →
      ∀ order : Float → Float → Bool, ∃ truth,
        (do return order (← a.toDouble) (← b.toDouble) :
          Attempt EvalError Bool) = .ok truth := by
    rintro ⟨first, second⟩ order
    obtain ⟨x, left⟩ := Value.toDouble_of_type first
    obtain ⟨y, right⟩ := Value.toDouble_of_type second
    rw [left, right]
    exact ⟨_, rfl⟩
  cases op with
  | eq => exact Value.equal_of_type accepted
  | ne =>
      obtain ⟨truth, equal⟩ := Value.equal_of_type accepted
      refine ⟨!truth, ?_⟩
      unfold apply
      rw [equal]
      rfl
  | lt => exact ordered accepted fun x y => x < y
  | le => exact ordered accepted fun x y => x ≤ y
  | gt => exact ordered accepted fun x y => x > y
  | ge => exact ordered accepted fun x y => x ≥ y

theorem Arithmetic.settles_apply (op : Arithmetic) {a b : Value}
    (first : a.type.IsNumber) (second : b.type.IsNumber) :
    (op.apply a b).Settles (·.type = op.result a.type b.type) True := by
  obtain ⟨x, left⟩ := Value.toDouble_of_type first
  obtain ⟨y, right⟩ := Value.toDouble_of_type second
  have numbers : ∀ onInts onDoubles, (mixed onInts onDoubles a b).Settles
      (·.type = a.type.join b.type) True := by
    intro onInts onDoubles
    unfold mixed
    split
    · exact Value.settles_integer _
    · rename_i notInts
      rw [left, right]
      cases a with
      | int i =>
          cases b with
          | int j => exact absurd rfl (notInts i j rfl)
          | bool truth => exact second.elim
          | double z => exact rfl
      | bool truth => exact first.elim
      | double z => exact rfl
  cases op with
  | add => exact numbers _ _
  | sub => exact numbers _ _
  | mul => exact numbers _ _
  | div =>
      change (quotient a b).Settles (·.type = .double) True
      unfold quotient
      rw [left, right, ok_bind]
      split
      · exact rfl
      · exact rfl

/-! ## Evaluation -/

namespace Expr.HasType

variable {signature : Signature} {e : Expr} {type : ValueType}
  {context : Context}

theorem settles (typed : e.HasType signature type)
    (provides : context.Provides signature) :
    (e.eval context).Settles (·.type = type) True := by
  induction typed with
  | literal value => exact rfl
  | var known =>
      obtain ⟨value, found, isType⟩ := provides.atIndex _ _ known
      unfold eval
      rw [found]
      exact isType
  | const known =>
      obtain ⟨value, found, isType⟩ := provides.atName _ _ known
      unfold eval
      rw [found]
      exact isType
  | not _ ih =>
      refine ih.bind fun value isBool => ?_
      obtain ⟨truth, found⟩ := Value.toBool_of_type isBool
      rw [found]
      exact rfl
  | neg number _ ih =>
      refine ih.bind fun value isNumber => ?_
      subst isNumber
      exact Value.settles_negate number
  | connect _ _ leftIh rightIh =>
      refine leftIh.bind fun value isBool => ?_
      obtain ⟨first, found⟩ := Value.toBool_of_type isBool
      rw [found, ok_bind]
      split
      · exact rfl
      · exact rfl
      · exact rfl
      · -- The right operand is looked at.
        refine rightIh.bind fun other alsoBool => ?_
        obtain ⟨second, found⟩ := Value.toBool_of_type alsoBool
        rw [found]
        exact rfl
  | compare accepted _ _ leftIh rightIh =>
      refine leftIh.bind fun a isLeft => rightIh.bind fun b isRight => ?_
      subst isLeft isRight
      obtain ⟨truth, found⟩ := Relation.apply_of_type accepted
      rw [found]
      exact rfl
  | calculate first second _ _ leftIh rightIh =>
      refine leftIh.bind fun a isLeft => rightIh.bind fun b isRight => ?_
      subst isLeft isRight
      exact Arithmetic.settles_apply _ first second
  | ite _ _ _ conditionIh yesIh noIh =>
      refine conditionIh.bind fun value isBool => ?_
      obtain ⟨truth, found⟩ := Value.toBool_of_type isBool
      rw [found, ok_bind]
      split
      · exact yesIh
      · exact noIh

/-- What a value is missing for, if it is. -/
theorem settles_eval (typed : e.HasType signature type)
    (provides : context.Provides signature) :
    (e.eval context).Settles (·.type = type) (e.Overflows context) :=
  (typed.settles provides).excused overflows_of_eval

theorem settles_evalBool (typed : e.HasType signature .bool)
    (provides : context.Provides signature) :
    (e.evalBool context).Settles (fun _ => True) (e.Overflows context) := by
  refine (typed.settles_eval provides).bind fun value isBool => ?_
  obtain ⟨truth, found⟩ := Value.toBool_of_type isBool
  rw [found]
  trivial

end Expr.HasType

theorem Interpretation.holds_reports {R : Type} {i : Interpretation R}
    {signature : Signature} {e : Expr} {v : Valuation}
    (typed : e.HasType signature .bool)
    (provides : (Context.of v i.properties.constants).Provides signature) :
    (i.holds e v).Reports (· = .eval .divisionByZero) := by
  intro cause failed
  have settles := typed.settles_evalBool provides
  unfold holds at failed
  generalize e.evalBool (.of v i.properties.constants) = outcome at failed settles
  cases outcome with
  | ok truth => cases failed
  | error failure =>
      cases failure with
      | breach => cases failed
      | error reason =>
          obtain rfl : reason = .divisionByZero := settles
          cases failed
          rfl

theorem ValueType.WidensTo.exists_cast {target : ValueType} {value : Value}
    (widens : value.type.WidensTo target) :
    ∃ converted, target.cast value = .ok converted ∧ converted.type = target := by
  rcases widens with same | ⟨isInt, isDouble⟩
  · subst same
    cases value <;> exact ⟨_, rfl, rfl⟩
  · subst isDouble
    cases value <;> cases isInt
    exact ⟨_, rfl, rfl⟩

theorem Assignment.settles_apply {a : Assignment} {signature : Signature}
    {type : ValueType} {old : Valuation} {constants : Constants}
    (typed : a.source.HasType signature type) (widens : type.WidensTo a.type)
    (provides : (Context.of old constants).Provides signature)
    (new : Valuation) :
    (a.apply old constants new).Settles
      (fun next => ∃ value, value.type = a.type ∧ next = new.set a.index value)
      (a.source.Overflows (.of old constants) ∨ new.size ≤ a.index) := by
  have evaluated := (typed.settles provides).excused fun breached =>
    Or.inl (b := new.size ≤ a.index) (Expr.overflows_of_eval breached)
  have converted : (a.value old constants).Settles (·.type = a.type)
      (a.source.Overflows (.of old constants) ∨ new.size ≤ a.index) := by
    refine evaluated.bind fun value isType => ?_
    subst isType
    obtain ⟨converted, cast, isTarget⟩ := widens.exists_cast
    rw [cast]
    exact isTarget
  refine converted.bind fun value isTarget => ?_
  unfold Valuation.checkedSet
  by_cases inside : a.index < new.size
  · rw [decide_eq_true inside]
    exact ⟨value, isTarget, rfl⟩
  · rw [decide_eq_false inside]
    exact .inr (Nat.le_of_not_lt inside)

/-- **Evaluation respects types.**  Where variables and constants have the types
that were assumed for them, an expression that has a type is evaluated to a value of
that type, divides by zero, or lets an integer leave its word.  So the states of a
truth-valued expression are never missing because of a type, nor is the value of an
assignment to a variable of a type that the expression widens to. -/
theorem Expr.eval_respects_types {R : Type} {signature : Signature} {e : Expr}
    {type : ValueType} (typed : e.HasType signature type) :
    (∀ context, context.Provides signature →
      (e.eval context).Settles (·.type = type) (e.Overflows context)) ∧
    (type = .bool → ∀ context, context.Provides signature →
      (e.evalBool context).Settles (fun _ => True) (e.Overflows context)) ∧
    (type = .bool → ∀ i : Interpretation R,
      (∀ valuations, i.model.valuations = some valuations → ∀ v ∈ valuations,
        (Context.of v i.properties.constants).Provides signature) →
      (i.satisfying (.expr e)).Reports fun cause =>
        cause = .malformed (.noVariables e) ∨
        (∃ defect, cause = .invalidModel defect) ∨
        cause = .eval .divisionByZero) ∧
    ∀ a : Assignment, a.source = e → type.WidensTo a.type →
      ∀ old constants new, (Context.of old constants).Provides signature →
        (a.apply old constants new).Settles
          (fun next => ∃ value, value.type = a.type ∧
            next = new.set a.index value)
          (e.Overflows (.of old constants) ∨ new.size ≤ a.index) := by
  refine ⟨fun _ provides => typed.settles_eval provides, ?_, ?_, ?_⟩
  · rintro rfl context provides
    exact typed.settles_evalBool provides
  · rintro rfl i provides
    refine i.statesOf_reports_of_holds (.inl rfl)
      (fun defect => .inr (.inl ⟨defect, rfl⟩)) ?_
    intro valuations valued v member cause failed
    exact .inr (.inr (Interpretation.holds_reports typed
      (provides valuations valued v member) cause failed))
  · rintro a rfl widens old constants new provides
    exact a.settles_apply typed widens provides new

/-- A counter, a goal and a switch, with a ratio to aim at. -/
def dial : Signature where
  ofIndex
    | 0 => some .int
    | 1 => some .int
    | 2 => some .bool
    | _ => none
  ofName
    | "r" => some .double
    | _ => none

/-- The counter is next to the goal, or the switch is on and the ratio is met. -/
def dialled : Expr :=
  .connect .or
    (.connect .and (.var "on" 2)
      (.compare .eq (.calculate .div (.var "x" 0) (.var "y" 1)) (.const "r")))
    (.compare .eq (.calculate .add (.var "x" 0) (.literal (.int 1))) (.var "y" 1))

theorem dialled_hasType : dialled.HasType dial .bool := by
  have ratio : (Expr.calculate .div (.var "x" 0) (.var "y" 1)).HasType dial
      .double :=
    .calculate (a := .int) (b := .int) trivial trivial (.var rfl) (.var rfl)
  have next : (Expr.calculate .add (.var "x" 0) (.literal (.int 1))).HasType dial
      .int :=
    .calculate (a := .int) (b := .int) trivial trivial (.var rfl)
      (.literal (.int 1))
  exact .connect
    (.connect (.var rfl)
      (.compare (a := .double) (b := .double) (.inr ⟨trivial, trivial⟩) ratio
        (.const rfl)))
    (.compare (a := .int) (b := .int) (.inr ⟨trivial, trivial⟩) next (.var rfl))

theorem provides_dial (x y : Int) (on : Bool) (r : Float) :
    (Context.of ⟨[.int x, .int y, .bool on]⟩ [("r", .double r)]).Provides dial where
  atIndex index type known := by
    rcases index with _ | _ | _ | index
    · cases known
      exact ⟨.int x, rfl, rfl⟩
    · cases known
      exact ⟨.int y, rfl, rfl⟩
    · cases known
      exact ⟨.bool on, rfl, rfl⟩
    · cases known
  atName name type known := by
    simp only [dial] at known
    split at known
    · cases known
      exact ⟨.double r, rfl, rfl⟩
    · cases known

/-- While the switch is off, the quotient by zero is not looked at. -/
theorem dialled_respects_types :
    dialled.eval (.of ⟨[.int (-1), .int 0, .bool false]⟩ [("r", .double 0.5)]) =
      .ok (.bool true) ∧
    (dialled.eval (.of ⟨[.int 4, .int 0, .bool true]⟩ [("r", .double 0.5)])).Settles
      (·.type = .bool)
      (dialled.Overflows (.of ⟨[.int 4, .int 0, .bool true]⟩ [("r", .double 0.5)])) :=
  ⟨rfl, (Expr.eval_respects_types (R := Float) dialled_hasType).1 _
    (provides_dial 4 0 true 0.5)⟩

end Markov
