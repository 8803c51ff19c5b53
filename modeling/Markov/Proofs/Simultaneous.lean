import Markov.Proofs.Guarded

/-!
# Simultaneous assignment

The assignments of an update are carried out one after the other, and the first
failure ends the update.  Their right-hand sides are evaluated in the old state
all the same.  If no variable is assigned to twice, the successor is determined
by what is assigned to each variable, and it exists if every right-hand side has
a value of the right type.  So the order of the assignments is of no account.
-/

namespace Markov

namespace Valuation

variable {v : Valuation} {index : Nat}

theorem size_set (v : Valuation) (index : Nat) (value : Value) :
    (v.set index value).size = v.size :=
  List.length_set

theorem get?_set_self (inside : index < v.size) (value : Value) :
    (v.set index value).get? index = some value :=
  List.getElem?_set_self inside

theorem get?_set_ne {other : Nat} (different : index ≠ other) (value : Value) :
    (v.set index value).get? other = v.get? other :=
  List.getElem?_set_ne different

theorem ext_get? {v w : Valuation} (same : ∀ index, v.get? index = w.get? index) :
    v = w := by
  cases v
  cases w
  exact congrArg Valuation.mk (List.ext_getElem? same)

theorem checkedSet_eq_ok {ε : Type} {value : Value} {next : Valuation} :
    v.checkedSet (ε := ε) index value = .ok next ↔
      index < v.size ∧ v.set index value = next := by
  unfold checkedSet
  rw [Attempt.require_bind_eq_ok, decide_eq_true_eq]
  apply and_congr_right
  intro _
  constructor
  · intro done
    cases done
    rfl
  · intro same
    rw [same]
    rfl

end Valuation

theorem Assignment.apply_eq_ok {a : Assignment} {old new next : Valuation}
    {constants : Constants} :
    a.apply old constants new = .ok next ↔
      ∃ value, a.value old constants = .ok value ∧ a.index < new.size ∧
        new.set a.index value = next := by
  unfold apply
  rw [Attempt.bind_eq_ok]
  exact exists_congr fun value => and_congr_right fun _ =>
    Valuation.checkedSet_eq_ok

namespace Update

/-- No variable is assigned to twice, and all variables that are assigned to
belong to the state. -/
structure Separate (assignments : List Assignment) (state : Valuation) :
    Prop where
  distinct : (assignments.map Assignment.index).Nodup
  inside : ∀ a ∈ assignments, a.index < state.size

/-- The state `next` has the values that the right-hand sides have in the state
`old`, converted to the types of the assignments, and otherwise those of the state
`new`. -/
structure Installs (old : Valuation) (constants : Constants)
    (assignments : List Assignment) (new next : Valuation) : Prop where
  size : next.size = new.size
  assigned : ∀ a ∈ assignments, ∃ value, a.value old constants = .ok value ∧
    next.get? a.index = some value
  kept : ∀ index, (∀ a ∈ assignments, a.index ≠ index) →
    next.get? index = new.get? index

variable {old new next : Valuation} {constants : Constants}
  {assignments : List Assignment}

theorem Separate.tail {a : Assignment} {state : Valuation}
    (separate : Separate (a :: assignments) state) (value : Value) :
    Separate assignments (state.set a.index value) where
  distinct := (List.nodup_cons.mp separate.distinct).2
  inside later member := by
    rw [Valuation.size_set]
    exact separate.inside later (List.mem_cons_of_mem _ member)

theorem Separate.index_ne {a : Assignment} {state : Valuation}
    (separate : Separate (a :: assignments) state) :
    ∀ later ∈ assignments, later.index ≠ a.index := by
  intro later member same
  apply (List.nodup_cons.mp separate.distinct).1
  rw [← same]
  exact List.mem_map_of_mem member

theorem Separate.perm {other : List Assignment} {state : Valuation}
    (separate : Separate assignments state) (permuted : other.Perm assignments) :
    Separate other state where
  distinct := (permuted.map _).nodup_iff.mpr separate.distinct
  inside a member := separate.inside a (permuted.mem_iff.mp member)

theorem installs_cons {a : Assignment} (separate : Separate (a :: assignments) new) :
    Installs old constants (a :: assignments) new next ↔
      ∃ value, a.value old constants = .ok value ∧
        Installs old constants assignments (new.set a.index value) next := by
  have inside : a.index < new.size := separate.inside a List.mem_cons_self
  constructor
  · intro installs
    obtain ⟨value, evaluated, present⟩ := installs.assigned a List.mem_cons_self
    refine ⟨value, evaluated, ?_, ?_, ?_⟩
    · rw [Valuation.size_set]
      exact installs.size
    · intro later member
      exact installs.assigned later (List.mem_cons_of_mem _ member)
    · intro index untouched
      by_cases same : a.index = index
      · rw [← same, present, Valuation.get?_set_self inside]
      · rw [Valuation.get?_set_ne same]
        apply installs.kept
        intro other member
        rcases List.mem_cons.mp member with rfl | later
        · exact same
        · exact untouched other later
  · rintro ⟨value, evaluated, installs⟩
    refine ⟨?_, ?_, ?_⟩
    · rw [installs.size, Valuation.size_set]
    · intro other member
      rcases List.mem_cons.mp member with rfl | later
      · refine ⟨value, evaluated, ?_⟩
        rw [installs.kept _ separate.index_ne, Valuation.get?_set_self inside]
      · exact installs.assigned other later
    · intro index untouched
      rw [installs.kept index fun later member =>
          untouched later (List.mem_cons_of_mem _ member),
        Valuation.get?_set_ne (untouched a List.mem_cons_self)]

theorem installs_nil : Installs old constants [] new next ↔ new = next := by
  constructor
  · intro installs
    exact Valuation.ext_get? fun index => (installs.kept index nofun).symm
  · rintro rfl
    exact ⟨rfl, nofun, fun _ _ => rfl⟩

/-- The assignments have been carried out one after the other exactly if all of
their values are in place. -/
theorem foldlM_apply_eq_ok (separate : Separate assignments new) :
    assignments.foldlM (fun new a => a.apply old constants new) new = .ok next ↔
      Installs old constants assignments new next := by
  induction assignments generalizing new with
  | nil =>
      rw [installs_nil]
      exact ⟨fun done => by cases done; rfl, fun same => by rw [same]; rfl⟩
  | cons a assignments ih =>
      rw [List.foldlM_cons, Attempt.bind_eq_ok, installs_cons separate]
      constructor
      · rintro ⟨between, applied, rest⟩
        obtain ⟨value, evaluated, -, rfl⟩ := Assignment.apply_eq_ok.mp applied
        exact ⟨value, evaluated, (ih (separate.tail value)).mp rest⟩
      · rintro ⟨value, evaluated, installs⟩
        refine ⟨new.set a.index value, Assignment.apply_eq_ok.mpr ?_,
          (ih (separate.tail value)).mpr installs⟩
        exact ⟨value, evaluated, separate.inside a List.mem_cons_self, rfl⟩

theorem Installs.perm {other : List Assignment}
    (installs : Installs old constants assignments new next)
    (permuted : other.Perm assignments) :
    Installs old constants other new next where
  size := installs.size
  assigned a member := installs.assigned a (permuted.mem_iff.mp member)
  kept index untouched := installs.kept index fun a member =>
    untouched a (permuted.mem_iff.mpr member)

theorem check_eq_ok {u : Update} {declarations : Declarations} :
    u.check old declarations constants = .ok () ↔
      ∀ a ∈ u.assignments, a.check old declarations constants = .ok () := by
  constructor
  · exact Attempt.forM_eq_ok
  · obtain ⟨assignments⟩ := u
    unfold check
    intro each
    induction assignments with
    | nil => rfl
    | cons a assignments ih =>
        refine Attempt.bind_eq_ok.mpr ⟨(), each a List.mem_cons_self, ?_⟩
        exact ih fun later member => each later (List.mem_cons_of_mem _ member)

/-- **Updates are simultaneous.**  If no variable is assigned to twice, an update
leads to the state in which every variable that is assigned to has the value of its
right-hand side in the old state, and all others are unchanged.  Neither the
successor nor whether there is one depends on the order of the assignments, and
neither does the success of the check. -/
theorem apply_simultaneous {u : Update} (separate : Separate u.assignments old) :
    (∀ next, u.apply old constants = .ok next ↔
      Installs old constants u.assignments old next) ∧
    ∀ other : Update, other.assignments.Perm u.assignments →
      (∀ next, other.apply old constants = .ok next ↔
        u.apply old constants = .ok next) ∧
      ∀ declarations, other.check old declarations constants = .ok () ↔
        u.check old declarations constants = .ok () := by
  have applied : ∀ u : Update, Separate u.assignments old → ∀ next,
      u.apply old constants = .ok next ↔
        Installs old constants u.assignments old next :=
    fun _ separate _ => foldlM_apply_eq_ok separate
  refine ⟨applied u separate, ?_⟩
  intro other permuted
  refine ⟨fun next => ?_, fun declarations => ?_⟩
  · rw [applied u separate, applied other (separate.perm permuted)]
    exact ⟨fun installs => installs.perm permuted.symm,
      fun installs => installs.perm permuted⟩
  · rw [check_eq_ok, check_eq_ok]
    exact forall_congr' fun a => by rw [permuted.mem_iff]

/-- Two variables change places, and a third remembers whether they were equal. -/
def exchange : Update :=
  ⟨[⟨"x", 0, .var "y" 1, .int⟩, ⟨"y", 1, .var "x" 0, .int⟩,
    ⟨"same", 2, .compare .eq (.var "x" 0) (.var "y" 1), .bool⟩]⟩

theorem exchange_simultaneous :
    Separate exchange.assignments ⟨[.int 1, .int 2, .bool true, .int 3]⟩ ∧
    (⟨exchange.assignments.reverse⟩ : Update).apply
      ⟨[.int 1, .int 2, .bool true, .int 3]⟩ [] =
        .ok ⟨[.int 2, .int 1, .bool false, .int 3]⟩ := by
  have separate : Separate exchange.assignments
      ⟨[.int 1, .int 2, .bool true, .int 3]⟩ :=
    ⟨by decide, by decide⟩
  refine ⟨separate, ?_⟩
  rw [((apply_simultaneous separate).2 ⟨exchange.assignments.reverse⟩
    (List.reverse_perm _)).1]
  rfl

end Update

end Markov
