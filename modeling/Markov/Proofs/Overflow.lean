import Markov.Update

/-!
# Overflow

The integers of an expression are signed words, and an operation whose result is
no word breaks the contract of the evaluation.  Nothing else does.  The range of
a variable is only compared with a value that evaluation has arrived at: a value
outside the range is reported as such if all operations on the way to it stay
inside the word, and otherwise there is neither a value nor a report.
-/

namespace Markov

/-! ## Operations that leave the word -/

/-- The operation on integers that an operator stands for.  A quotient is taken
of numbers. -/
def Arithmetic.onInts? : Arithmetic → Option (Int → Int → Int)
  | add => some (· + ·)
  | sub => some (· - ·)
  | mul => some (· * ·)
  | div => none

/-- The right operand is looked at after the left one. -/
def Connective.isOpen : Connective → Bool → Bool
  | and, first => first
  | or, first => !first
  | implies, first => first

/-- An operation that evaluation arrives at is given integers, and its result is no
signed word.  Operands that are skipped and branches that are not taken do not
count. -/
def Expr.Overflows (context : Context) : Expr → Prop
  | literal _ => False
  | var _ _ => False
  | const _ => False
  | not inner => inner.Overflows context
  | neg inner => inner.Overflows context ∨
      ∃ i, inner.eval context = .ok (.int i) ∧ Word.isInteger (-i) = false
  | connect op left right => left.Overflows context ∨
      (∃ first, left.evalBool context = .ok first ∧ op.isOpen first = true) ∧
        right.Overflows context
  | compare _ left right => left.Overflows context ∨
      (∃ value, left.eval context = .ok value) ∧ right.Overflows context
  | calculate op left right => left.Overflows context ∨
      (∃ value, left.eval context = .ok value) ∧ right.Overflows context ∨
      ∃ operation x y, op.onInts? = some operation ∧
        left.eval context = .ok (.int x) ∧ right.eval context = .ok (.int y) ∧
        Word.isInteger (operation x y) = false
  | ite condition yes no => condition.Overflows context ∨
      condition.evalBool context = .ok true ∧ yes.Overflows context ∨
      condition.evalBool context = .ok false ∧ no.Overflows context

namespace Attempt

variable {ε α β : Type}

theorem bind_eq_breach {attempt : Attempt ε α} {next : α → Attempt ε β} :
    (attempt >>= next) = breach ↔
      attempt = breach ∨ ∃ value, attempt = .ok value ∧ next value = breach := by
  cases attempt with
  | ok value => simp [breach]
  | error failure =>
      cases failure with
      | breach => exact ⟨fun _ => .inl rfl, fun _ => rfl⟩
      | error cause => simp [breach, bind, Except.bind]

theorem bind_ne_breach {attempt : Attempt ε α} {next : α → Attempt ε β}
    (first : attempt ≠ breach) (later : ∀ value, next value ≠ breach) :
    (attempt >>= next) ≠ breach := by
  intro breached
  rcases bind_eq_breach.mp breached with here | ⟨value, -, there⟩
  · exact first here
  · exact later value there

theorem ok_ne_breach (value : α) : (.ok value : Attempt ε α) ≠ breach := nofun

theorem fail_ne_breach (cause : ε) : (fail cause : Attempt ε α) ≠ breach := nofun

end Attempt

open Attempt

namespace Value

theorem toBool_ne_breach (value : Value) : value.toBool ≠ breach := by
  cases value <;> nofun

theorem toDouble_ne_breach (value : Value) : value.toDouble ≠ breach := by
  cases value <;> nofun

theorem integer_eq (i : Int) :
    integer i = if Word.isInteger i then .ok (.int i) else breach := by
  unfold integer require
  cases Word.isInteger i with
  | false => rfl
  | true => rfl

theorem integer_eq_breach {i : Int} :
    integer i = breach ↔ Word.isInteger i = false := by
  rw [integer_eq]
  cases Word.isInteger i with
  | false => exact ⟨fun _ => rfl, fun _ => rfl⟩
  | true => exact ⟨nofun, nofun⟩

theorem equal_ne_breach (a b : Value) : a.equal b ≠ breach := by
  unfold equal
  split
  · exact ok_ne_breach _
  · exact ok_ne_breach _
  · exact bind_ne_breach a.toDouble_ne_breach fun _ =>
      bind_ne_breach b.toDouble_ne_breach fun _ => ok_ne_breach _

end Value

theorem Relation.apply_ne_breach (op : Relation) (a b : Value) :
    op.apply a b ≠ breach := by
  have ordered : ∀ order : Float → Float → Bool,
      (do return order (← a.toDouble) (← b.toDouble) :
        Attempt EvalError Bool) ≠ breach := fun _ =>
    bind_ne_breach a.toDouble_ne_breach fun _ =>
      bind_ne_breach b.toDouble_ne_breach fun _ => ok_ne_breach _
  cases op with
  | eq => exact a.equal_ne_breach b
  | ne => exact bind_ne_breach (a.equal_ne_breach b) fun _ => ok_ne_breach _
  | lt => exact ordered fun x y => x < y
  | le => exact ordered fun x y => x ≤ y
  | gt => exact ordered fun x y => x > y
  | ge => exact ordered fun x y => x ≥ y

namespace Arithmetic

variable {op : Arithmetic} {operation : Int → Int → Int}

theorem apply_ints (onInts : op.onInts? = some operation) (x y : Int) :
    op.apply (.int x) (.int y) = Value.integer (operation x y) := by
  cases op <;> cases onInts <;> rfl

/-- Only an operation on two integers leaves the word. -/
theorem exists_onInts_of_apply {a b : Value} (breached : op.apply a b = breach) :
    ∃ operation x y, op.onInts? = some operation ∧ a = .int x ∧ b = .int y ∧
      Word.isInteger (operation x y) = false := by
  have numbers : ∀ {onInts onDoubles}, op.onInts? = some onInts →
      mixed onInts onDoubles a b = breach → ∃ operation x y,
        op.onInts? = some operation ∧ a = .int x ∧ b = .int y ∧
        Word.isInteger (operation x y) = false := by
    intro onInts onDoubles isOperation left
    unfold mixed at left
    split at left
    · rename_i x y
      exact ⟨onInts, x, y, isOperation, rfl, rfl,
        Value.integer_eq_breach.mp left⟩
    · exact absurd left (bind_ne_breach a.toDouble_ne_breach fun _ =>
        bind_ne_breach b.toDouble_ne_breach fun _ => ok_ne_breach _)
  cases op with
  | add => exact numbers rfl breached
  | sub => exact numbers rfl breached
  | mul => exact numbers rfl breached
  | div =>
      refine absurd breached (bind_ne_breach b.toDouble_ne_breach fun divisor => ?_)
      split
      · exact fail_ne_breach _
      · exact bind_ne_breach a.toDouble_ne_breach fun _ => ok_ne_breach _

end Arithmetic

namespace Expr

variable {context : Context}

/-- Evaluation breaks its contract only where an operation leaves the word. -/
theorem overflows_of_eval {e : Expr} (breached : e.eval context = breach) :
    e.Overflows context := by
  induction e with
  | literal value => cases breached
  | var name index =>
      unfold eval at breached
      split at breached <;> cases breached
  | const name =>
      unfold eval at breached
      split at breached <;> cases breached
  | not inner ih =>
      rcases bind_eq_breach.mp breached with here | ⟨value, -, rest⟩
      · exact ih here
      · exact absurd rest
          (bind_ne_breach value.toBool_ne_breach fun _ => ok_ne_breach _)
  | neg inner ih =>
      rcases bind_eq_breach.mp breached with here | ⟨value, evaluated, rest⟩
      · exact .inl (ih here)
      · cases value with
        | int i => exact .inr ⟨i, evaluated, Value.integer_eq_breach.mp rest⟩
        | bool b => cases rest
        | double x => cases rest
  | connect op left right leftIh rightIh =>
      rcases bind_eq_breach.mp breached with here | ⟨value, evaluated, rest⟩
      · exact .inl (leftIh here)
      · rcases bind_eq_breach.mp rest with here | ⟨first, isBool, rest⟩
        · exact absurd here value.toBool_ne_breach
        · have known : left.evalBool context = .ok first :=
            bind_eq_ok.mpr ⟨value, evaluated, isBool⟩
          split at rest
          · cases rest
          · cases rest
          · cases rest
          · rename_i notAnd notOr notImplies
            have looked : op.isOpen first = true := by
              cases op <;> cases first <;> simp_all [Connective.isOpen]
            rcases bind_eq_breach.mp rest with here | ⟨other, -, rest⟩
            · exact .inr ⟨⟨first, known, looked⟩, rightIh here⟩
            · exact absurd rest
                (bind_ne_breach other.toBool_ne_breach fun _ => ok_ne_breach _)
  | compare op left right leftIh rightIh =>
      rcases bind_eq_breach.mp breached with here | ⟨a, leftValue, rest⟩
      · exact .inl (leftIh here)
      · rcases bind_eq_breach.mp rest with here | ⟨b, -, rest⟩
        · exact .inr ⟨⟨a, leftValue⟩, rightIh here⟩
        · exact absurd rest
            (bind_ne_breach (op.apply_ne_breach a b) fun _ => ok_ne_breach _)
  | calculate op left right leftIh rightIh =>
      rcases bind_eq_breach.mp breached with here | ⟨a, leftValue, rest⟩
      · exact .inl (leftIh here)
      · rcases bind_eq_breach.mp rest with here | ⟨b, rightValue, rest⟩
        · exact .inr (.inl ⟨⟨a, leftValue⟩, rightIh here⟩)
        · obtain ⟨operation, x, y, onInts, rfl, rfl, outside⟩ :=
            Arithmetic.exists_onInts_of_apply rest
          exact .inr (.inr
            ⟨operation, x, y, onInts, leftValue, rightValue, outside⟩)
  | ite condition yes no conditionIh yesIh noIh =>
      rcases bind_eq_breach.mp breached with here | ⟨value, evaluated, rest⟩
      · exact .inl (conditionIh here)
      · rcases bind_eq_breach.mp rest with here | ⟨taken, isBool, rest⟩
        · exact absurd here value.toBool_ne_breach
        · have known : condition.evalBool context = .ok taken :=
            bind_eq_ok.mpr ⟨value, evaluated, isBool⟩
          cases taken with
          | true => exact .inr (.inl ⟨known, yesIh rest⟩)
          | false => exact .inr (.inr ⟨known, noIh rest⟩)

/-! ## Exact values -/

/-- The value of an expression over the integers, without any bound, and the results
of all operations on the way to it.  The expression is built from integers, integer
variables and constants by negation, addition, subtraction and multiplication. -/
inductive Exact (context : Context) : Expr → List Int → Int → Prop where
  | literal (i : Int) : Exact context (.literal (.int i)) [] i
  | var {name : String} {index : Nat} {i : Int}
      (found : context.valueOf? index = some (.int i)) :
      Exact context (.var name index) [] i
  | const {name : String} {i : Int}
      (found : context.constantOf? name = some (.int i)) :
      Exact context (.const name) [] i
  | neg {inner : Expr} {results : List Int} {i : Int} :
      Exact context inner results i →
      Exact context (.neg inner) (results ++ [-i]) (-i)
  | calculate {op : Arithmetic} {operation : Int → Int → Int}
      {left right : Expr} {before after : List Int} {x y : Int}
      (onInts : op.onInts? = some operation) :
      Exact context left before x → Exact context right after y →
      Exact context (.calculate op left right)
        (before ++ after ++ [operation x y]) (operation x y)

/-- All operations of an expression over the integers are carried out, and the first
that leaves the word ends the evaluation. -/
theorem Exact.eval_eq {e : Expr} {results : List Int} {i : Int}
    (exact : e.Exact context results i) :
    e.eval context =
      if results.all Word.isInteger then .ok (.int i) else breach := by
  induction exact with
  | literal i => rfl
  | var found =>
      unfold eval
      rw [found]
      rfl
  | const found =>
      unfold eval
      rw [found]
      rfl
  | @neg inner results i _ ih =>
      unfold eval
      rw [ih, List.all_append]
      cases results.all Word.isInteger with
      | false => rfl
      | true => simp [Value.negate, Value.integer_eq]
  | @calculate op operation left right before after x y onInts _ _ leftIh rightIh =>
      unfold eval
      rw [leftIh, rightIh, List.all_append, List.all_append]
      cases before.all Word.isInteger with
      | false => rfl
      | true =>
          cases after.all Word.isInteger with
          | false => rfl
          | true => simp [Arithmetic.apply_ints onInts, Value.integer_eq]

end Expr

/-! ## Range checks -/

namespace Assignment

variable {a : Assignment} {old : Valuation} {declarations : Declarations}
  {constants : Constants} {declaration : Declaration} {results : List Int}
  {i : Int}

theorem check_of_eval (declared : declarations[a.index]? = some declaration)
    (integral : declaration.type = .int)
    (evaluated : a.source.eval (.of old constants) = .ok (.int i)) :
    a.check old declarations constants =
      if declaration.low ≤ i ∧ i ≤ declaration.high then .ok ()
      else fail (.overflow a.name a.source) := by
  have found : declarations.declaration a.index = .ok declaration := by
    simp [Declarations.declaration, declared, entry]
  have encoded : declaration.encode (.int i) = .ok i := by
    simp only [Declaration.encode, integral]
    rfl
  unfold check
  rw [evaluated, ok_bind, found, ok_bind, encoded, ok_bind]
  by_cases inside : declaration.low ≤ i ∧ i ≤ declaration.high
  · have admitted : ¬(i < declaration.low ∨ declaration.high < i) := by omega
    simp only [Bool.or_eq_true, decide_eq_true_eq, if_neg admitted, if_pos inside]
    rfl
  · have outside : i < declaration.low ∨ declaration.high < i := by omega
    simp only [Bool.or_eq_true, decide_eq_true_eq, if_pos outside, if_neg inside]

/-- **Range checks see the exact value, or nothing.**  As long as no operation
leaves the word, an assignment to an integer variable passes its check if its
exact value is inside the declared range, and otherwise the check reports the
variable and the expression.  An operation that leaves the word breaks the
contract of the check, wherever the exact value lies. -/
theorem check_of_exact (declared : declarations[a.index]? = some declaration)
    (integral : declaration.type = .int)
    (exact : a.source.Exact (.of old constants) results i) :
    ((∀ result ∈ results, Word.isInteger result = true) →
      a.check old declarations constants =
        if declaration.low ≤ i ∧ i ≤ declaration.high then .ok ()
        else fail (.overflow a.name a.source)) ∧
    ((∃ result ∈ results, Word.isInteger result = false) →
      a.check old declarations constants = breach) := by
  have evaluated := exact.eval_eq
  constructor
  · intro inside
    rw [List.all_eq_true.mpr inside] at evaluated
    exact check_of_eval declared integral evaluated
  · rintro ⟨result, member, outside⟩
    rw [List.all_eq_false.mpr ⟨result, member, by rw [outside]; nofun⟩] at evaluated
    unfold check
    rw [evaluated]
    rfl

/-- A tank with the levels from `0` to `10`. -/
def tank : Declarations := [⟨"x", .int, 0, 10⟩]

/-- The level is multiplied and then lowered by one. -/
def refill : Assignment :=
  ⟨"x", 0, .neg (.calculate .sub (.literal (.int 1))
    (.calculate .mul (.var "x" 0) (.const "N"))), .int⟩

theorem refill_exact (level : Int) :
    refill.source.Exact (.of ⟨[.int level]⟩ [("N", .int 3)])
      [level * 3, 1 - level * 3, -(1 - level * 3)] (-(1 - level * 3)) :=
  .neg (.calculate rfl (.literal 1) (.calculate rfl (.var rfl) (.const rfl)))

/-- From level `4` the tank is filled too far. -/
theorem refill_checks :
    refill.check ⟨[.int 3]⟩ tank [("N", .int 3)] = .ok () ∧
    refill.check ⟨[.int 4]⟩ tank [("N", .int 3)] =
      fail (.overflow "x" refill.source) := by
  have declared : tank[refill.index]? = some ⟨"x", .int, 0, 10⟩ := rfl
  exact ⟨(check_of_exact declared rfl (refill_exact 3)).1 (by decide),
    (check_of_exact declared rfl (refill_exact 4)).1 (by decide)⟩

/-- The level is raised by the largest word. -/
def flood : Assignment :=
  ⟨"x", 0, .calculate .add (.var "x" 0) (.literal (.int 9223372036854775807)),
    .int⟩

/-- The level is raised by the largest word and lowered by it again. -/
def surge : Assignment :=
  ⟨"x", 0, .calculate .sub flood.source (.literal (.int 9223372036854775807)),
    .int⟩

/-- A value outside the range need not be reported, and one inside the range need
not pass. -/
theorem flood_unreported :
    (flood.source.Exact (.of ⟨[.int 1]⟩ []) [9223372036854775808]
        9223372036854775808 ∧
      flood.check ⟨[.int 1]⟩ tank [] = breach ∧
      flood.check ⟨[.int 1]⟩ tank [] ≠ fail (.overflow "x" flood.source)) ∧
    (surge.source.Exact (.of ⟨[.int 1]⟩ []) [9223372036854775808, 1] 1 ∧
      surge.check ⟨[.int 1]⟩ tank [] = breach ∧
      surge.check ⟨[.int 1]⟩ tank [] ≠ .ok ()) := by
  have flooded : flood.source.Exact (.of ⟨[.int 1]⟩ [])
      [1 + 9223372036854775807] (1 + 9223372036854775807) :=
    .calculate rfl (.var rfl) (.literal _)
  have drained : surge.source.Exact (.of ⟨[.int 1]⟩ [])
      [1 + 9223372036854775807, 1 + 9223372036854775807 - 9223372036854775807]
      (1 + 9223372036854775807 - 9223372036854775807) :=
    .calculate rfl flooded (.literal _)
  exact ⟨⟨flooded, rfl, nofun⟩, ⟨drained, rfl, nofun⟩⟩

end Assignment

end Markov
