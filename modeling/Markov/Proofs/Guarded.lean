import Markov.Update

/-!
# Guarded updates

An update is checked in one pass and applied in another.  Both evaluate the
right-hand sides anew: the check converts the values to the declared types and
compares them with the declared ranges, and the application converts them to the
types of the assignments and looks at no range at all.  Where the types of the
assignments are the declared ones, a check that succeeds is a promise about the
application: it succeeds, and whatever it writes fits the declarations.  So runs
of updates that are checked before they are applied never leave them.
-/

namespace Markov

/-! ## States that fit -/

/-- A value of the declared type, inside the declared range if the type has one.
Truth values count as `0` and `1`. -/
def Declaration.Admits (declaration : Declaration) : Value → Prop
  | .int i =>
    declaration.type = .int ∧ declaration.low ≤ i ∧ i ≤ declaration.high
  | .bool b =>
    declaration.type = .bool ∧ declaration.low ≤ b.toInt ∧
      b.toInt ≤ declaration.high
  | .double _ => declaration.type = .double

/-- A state with one value for every declared variable, each of which its
declaration admits. -/
structure Declarations.Fits (declarations : Declarations) (state : Valuation) :
    Prop where
  size : state.size = declarations.length
  admits : ∀ index declaration value, declarations[index]? = some declaration →
    state.get? index = some value → declaration.Admits value

namespace Update

/-- Every assignment is to a declared variable and has its type. -/
def Declared (u : Update) (declarations : Declarations) : Prop :=
  ∀ a ∈ u.assignments, ∃ declaration,
    declarations[a.index]? = some declaration ∧ a.type = declaration.type

/-- The variable with an index is assigned to. -/
def Assigns (u : Update) (index : Nat) : Prop :=
  ∃ a ∈ u.assignments, a.index = index

/-- The state after updates that are applied one after the other. -/
def applyAll (updates : List Update) (state : Valuation)
    (constants : Constants) : Attempt EvalError Valuation :=
  updates.foldlM (fun state u => u.apply state constants) state

/-- Every update passes its check in the state that the updates before it lead
to. -/
def Guarded (updates : List Update) (declarations : Declarations)
    (constants : Constants) (start : Valuation) : Prop :=
  ∀ count u, updates[count]? = some u → ∀ state,
    applyAll (updates.take count) start constants = .ok state →
      u.check state declarations constants = .ok ()

end Update

/-! ## One assignment -/

theorem ValueType.type_of_cast {type : ValueType} {value converted : Value}
    (cast : type.cast value = .ok converted) : converted.type = type := by
  cases type <;> cases value <;> cases cast <;> rfl

theorem Declaration.exists_cast_of_encode {declaration : Declaration}
    {value : Value} {code : Int}
    (encoded : declaration.encode value = .ok code)
    (low : declaration.low ≤ code) (high : code ≤ declaration.high) :
    ∃ converted, declaration.type.cast value = .ok converted ∧
      declaration.Admits converted := by
  obtain ⟨converted, cast, rest⟩ := Attempt.bind_eq_ok.mp encoded
  have type := ValueType.type_of_cast cast
  refine ⟨converted, cast, ?_⟩
  cases converted with
  | int i =>
      cases rest
      exact ⟨type.symm, low, high⟩
  | bool b =>
      cases rest
      cases b with
      | false => exact ⟨type.symm, low, high⟩
      | true => exact ⟨type.symm, low, high⟩
  | double x => cases rest

namespace Assignment

variable {a : Assignment} {old : Valuation} {declarations : Declarations}
  {constants : Constants}

/-- What a check that succeeds has seen. -/
theorem check_eq_ok (checked : a.check old declarations constants = .ok ()) :
    ∃ value declaration code, a.source.eval (.of old constants) = .ok value ∧
      declarations[a.index]? = some declaration ∧
      declaration.encode value = .ok code ∧
      declaration.low ≤ code ∧ code ≤ declaration.high := by
  obtain ⟨value, evaluated, rest⟩ := Attempt.bind_eq_ok.mp checked
  obtain ⟨declaration, found, rest⟩ := Attempt.bind_eq_ok.mp rest
  obtain ⟨code, encoded, rest⟩ := Attempt.bind_eq_ok.mp rest
  refine ⟨value, declaration, code, evaluated, ?_, encoded, ?_⟩
  · unfold Declarations.declaration Attempt.entry at found
    split at found
    · rename_i present
      cases found
      exact present
    · cases found
  · split at rest
    · cases rest
    · rename_i inside
      simp only [Bool.or_eq_true, decide_eq_true_eq] at inside
      omega

theorem value_of_check {declaration : Declaration}
    (declared : declarations[a.index]? = some declaration)
    (typed : a.type = declaration.type)
    (checked : a.check old declarations constants = .ok ()) :
    ∃ value, a.value old constants = .ok value ∧ declaration.Admits value := by
  obtain ⟨value, other, code, evaluated, found, encoded, low, high⟩ :=
    check_eq_ok checked
  obtain rfl : declaration = other :=
    Option.some.inj (declared.symm.trans found)
  obtain ⟨converted, cast, admitted⟩ :=
    Declaration.exists_cast_of_encode encoded low high
  refine ⟨converted, Attempt.bind_eq_ok.mpr ⟨value, evaluated, ?_⟩, admitted⟩
  rw [typed]
  exact cast

end Assignment

namespace Declarations.Fits

variable {declarations : Declarations} {state : Valuation}

theorem set (fits : declarations.Fits state) {index : Nat}
    {declaration : Declaration}
    (declared : declarations[index]? = some declaration) {value : Value}
    (admitted : declaration.Admits value) :
    declarations.Fits (state.set index value) := by
  constructor
  · rw [← fits.size]
    exact List.length_set
  · intro place other found isDeclared present
    simp only [Valuation.get?, Valuation.set, List.getElem?_set] at present
    split at present
    · rename_i same
      subst same
      split at present
      · cases present
        obtain rfl : declaration = other :=
          Option.some.inj (declared.symm.trans isDeclared)
        exact admitted
      · cases present
    · exact fits.admits place other found isDeclared present

theorem checkedSet_eq_ok {ε : Type} (fits : declarations.Fits state)
    {index : Nat} {declaration : Declaration}
    (declared : declarations[index]? = some declaration) (value : Value) :
    state.checkedSet (ε := ε) index value = .ok (state.set index value) := by
  have inside : index < state.size := by
    rw [fits.size]
    exact (List.getElem?_eq_some_iff.mp declared).1
  simp only [Valuation.checkedSet, inside, decide_true, Attempt.require_true]
  rfl

end Declarations.Fits

/-! ## One update -/

theorem Attempt.forM_eq_ok {ε α : Type} {f : α → Except ε Unit}
    {entries : List α} (done : entries.forM f = .ok ()) :
    ∀ entry ∈ entries, f entry = .ok () := by
  induction entries with
  | nil => simp
  | cons first entries ih =>
      obtain ⟨⟨⟩, here, rest⟩ := Attempt.bind_eq_ok.mp done
      intro entry member
      rcases List.mem_cons.mp member with rfl | later
      · exact here
      · exact ih rest entry later

namespace Update

variable {declarations : Declarations} {constants : Constants}
  {old : Valuation}

/-- Assignments whose values are admitted, written one after the other. -/
theorem exists_foldlM_apply {assignments : List Assignment}
    (admitted : ∀ a ∈ assignments, ∃ declaration value,
      declarations[a.index]? = some declaration ∧
      a.value old constants = .ok value ∧ declaration.Admits value)
    {new : Valuation} (fits : declarations.Fits new) :
    ∃ next, assignments.foldlM (fun new a => a.apply old constants new) new =
        .ok next ∧
      declarations.Fits next ∧
      ∀ index, (∀ a ∈ assignments, a.index ≠ index) →
        next.get? index = new.get? index := by
  induction assignments generalizing new with
  | nil => exact ⟨new, rfl, fits, fun _ _ => rfl⟩
  | cons a assignments ih =>
      obtain ⟨declaration, value, declared, evaluated, isAdmitted⟩ :=
        admitted a List.mem_cons_self
      have written : a.apply old constants new = .ok (new.set a.index value) :=
        Attempt.bind_eq_ok.mpr
          ⟨value, evaluated, fits.checkedSet_eq_ok declared value⟩
      obtain ⟨next, applied, nextFits, kept⟩ :=
        ih (fun later member => admitted later (List.mem_cons_of_mem _ member))
          (fits.set declared isAdmitted)
      refine ⟨next, ?_, nextFits, ?_⟩
      · rw [List.foldlM_cons, written]
        exact applied
      · intro index untouched
        rw [kept index fun later member =>
          untouched later (List.mem_cons_of_mem _ member)]
        exact List.getElem?_set_ne (untouched a List.mem_cons_self)

/-- An update that passes its check can be applied, and leads to a state that
fits again. -/
theorem exists_apply_of_check {u : Update} (declared : u.Declared declarations)
    (fits : declarations.Fits old)
    (checked : u.check old declarations constants = .ok ()) :
    ∃ next, u.apply old constants = .ok next ∧ declarations.Fits next ∧
      ∀ index, ¬u.Assigns index → next.get? index = old.get? index := by
  have admitted : ∀ a ∈ u.assignments, ∃ declaration value,
      declarations[a.index]? = some declaration ∧
      a.value old constants = .ok value ∧ declaration.Admits value := by
    intro a member
    obtain ⟨declaration, isDeclared, typed⟩ := declared a member
    obtain ⟨value, evaluated, isAdmitted⟩ :=
      Assignment.value_of_check isDeclared typed
        (Attempt.forM_eq_ok checked a member)
    exact ⟨declaration, value, isDeclared, evaluated, isAdmitted⟩
  obtain ⟨next, applied, nextFits, kept⟩ := exists_foldlM_apply admitted fits
  refine ⟨next, applied, nextFits, ?_⟩
  intro index untouched
  exact kept index fun a member same => untouched ⟨a, member, same⟩

/-! ## Runs of updates -/

theorem applyAll_concat (updates : List Update) (u : Update)
    (start : Valuation) :
    applyAll (updates ++ [u]) start constants =
      applyAll updates start constants >>= fun state =>
        u.apply state constants := by
  simp [applyAll]

variable {start : Valuation} {updates : List Update}

/-- As far as a guarded run has come, it has not failed, fits the declarations
and has the old values of the variables that nothing was assigned to. -/
theorem Guarded.exists_applyAll
    (guarded : Guarded updates declarations constants start)
    (declared : ∀ u ∈ updates, u.Declared declarations)
    (fits : declarations.Fits start) (count : Nat) :
    ∃ state, applyAll (updates.take count) start constants = .ok state ∧
      declarations.Fits state ∧
      ∀ index, (∀ u ∈ updates.take count, ¬u.Assigns index) →
        state.get? index = start.get? index := by
  induction count with
  | zero => exact ⟨start, rfl, fits, fun _ _ => rfl⟩
  | succ count ih =>
      obtain ⟨state, reached, stateFits, kept⟩ := ih
      rw [List.take_add_one]
      cases found : updates[count]? with
      | none =>
          rw [Option.toList_none, List.append_nil]
          exact ⟨state, reached, stateFits, kept⟩
      | some u =>
          obtain ⟨next, applied, nextFits, nextKept⟩ := exists_apply_of_check
            (declared u (List.mem_of_getElem? found)) stateFits
            (guarded count u found state reached)
          refine ⟨next, ?_, nextFits, ?_⟩
          · rw [Option.toList_some, applyAll_concat, reached]
            exact applied
          · intro index untouched
            rw [nextKept index (untouched u (by simp)),
              kept index fun earlier member => untouched earlier
                (List.mem_append_left _ member)]

/-- **Guarded updates keep states inside their declarations.**  From a state
that fits, let every update of a run be declared and pass its check in the state
that it is applied to.  Then every update is applied without failure, leads to a
state that fits again, and keeps the variables that it does not assign to; and so
does the run as a whole. -/
theorem guarded_run_fits (fits : declarations.Fits start)
    (declared : ∀ u ∈ updates, u.Declared declarations)
    (guarded : Guarded updates declarations constants start) :
    (∀ count u, updates[count]? = some u → ∃ before after,
      applyAll (updates.take count) start constants = .ok before ∧
      u.apply before constants = .ok after ∧
      declarations.Fits before ∧ declarations.Fits after ∧
      ∀ index, ¬u.Assigns index → after.get? index = before.get? index) ∧
    ∃ final, applyAll updates start constants = .ok final ∧
      declarations.Fits final ∧
      ∀ index, (∀ u ∈ updates, ¬u.Assigns index) →
        final.get? index = start.get? index := by
  refine ⟨?_, ?_⟩
  · intro count u found
    obtain ⟨before, reached, beforeFits, -⟩ :=
      guarded.exists_applyAll declared fits count
    obtain ⟨after, applied, afterFits, kept⟩ := exists_apply_of_check
      (declared u (List.mem_of_getElem? found)) beforeFits
      (guarded count u found before reached)
    exact ⟨before, after, reached, applied, beforeFits, afterFits, kept⟩
  · have whole := guarded.exists_applyAll declared fits updates.length
    rwa [List.take_length] at whole

/-- A lift with a floor, a bell and a load. -/
def lift : Declarations :=
  [⟨"floor", .int, 0, 3⟩, .bool "bell", ⟨"load", .double, 0, 0⟩]

/-- The lift goes up, and rings when it leaves the hall.  Of the two assignments
to the floor the second one counts. -/
def liftUp : Update :=
  ⟨[⟨"floor", 0, .literal (.int 0), .int⟩,
    ⟨"bell", 1, .compare .eq (.var "floor" 0) (.const "hall"), .bool⟩,
    ⟨"floor", 0, .calculate .add (.var "floor" 0) (.literal (.int 1)), .int⟩]⟩

def silence : Update := ⟨[⟨"bell", 1, .literal (.bool false), .bool⟩]⟩

def liftStart : Valuation := ⟨[.int 1, .bool false, .double 0.5]⟩

theorem lift_fits {floor : Int} (low : 0 ≤ floor) (high : floor ≤ 3)
    (bell : Bool) (load : Float) :
    lift.Fits ⟨[.int floor, .bool bell, .double load]⟩ := by
  refine ⟨rfl, ?_⟩
  intro index declaration value declared present
  rcases index with _ | _ | _ | index
  · cases declared
    cases present
    exact ⟨rfl, low, high⟩
  · cases declared
    cases present
    cases bell with
    | false => exact ⟨rfl, by decide, by decide⟩
    | true => exact ⟨rfl, by decide, by decide⟩
  · cases declared
    cases present
    rfl
  · cases declared

theorem liftUp_declared : liftUp.Declared lift := by
  simp [Declared, liftUp, lift, Declaration.bool]

theorem silence_declared : silence.Declared lift := by
  simp [Declared, silence, lift, Declaration.bool]

theorem lift_run_fits :
    lift.Fits liftStart ∧
    Guarded [liftUp, silence, liftUp] lift [("hall", .int 2)] liftStart ∧
    applyAll [liftUp, silence, liftUp] liftStart [("hall", .int 2)] =
      .ok ⟨[.int 3, .bool true, .double 0.5]⟩ ∧
    lift.Fits ⟨[.int 3, .bool true, .double 0.5]⟩ := by
  have fits : lift.Fits liftStart := lift_fits (by decide) (by decide) _ _
  have declared : ∀ u ∈ [liftUp, silence, liftUp], u.Declared lift := by
    simp [liftUp_declared, silence_declared]
  have guarded : Guarded [liftUp, silence, liftUp] lift [("hall", .int 2)]
      liftStart := by
    intro count u found state reached
    rcases count with _ | _ | _ | count
    · cases found
      cases reached
      rfl
    · cases found
      cases reached
      rfl
    · cases found
      cases reached
      rfl
    · cases found
  have applied : applyAll [liftUp, silence, liftUp] liftStart
      [("hall", .int 2)] = .ok ⟨[.int 3, .bool true, .double 0.5]⟩ := rfl
  obtain ⟨-, final, reached, finalFits, -⟩ :=
    guarded_run_fits fits declared guarded
  rw [applied] at reached
  cases reached
  exact ⟨fits, guarded, applied, finalFits⟩

end Update

end Markov
