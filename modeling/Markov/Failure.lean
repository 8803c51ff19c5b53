/-!
# Failed operations

An operation gives its result, reports an error in its own vocabulary, or was
used outside its contract: an index that names no entry, a weight that is not
a weight, a number that leaves its machine word.  The last case carries no
cause, since the caller and not the input is to blame for it.
-/

namespace Markov

/-- Why an operation gives no result. -/
inductive Failure (ε : Type) where
  /-- The operation was used outside its contract. -/
  | breach
  /-- The operation reports an error of its own. -/
  | error (cause : ε)
  deriving Repr, DecidableEq

/-- The outcome of an operation that may fail. -/
abbrev Attempt (ε α : Type) := Except (Failure ε) α

namespace Attempt

variable {ε δ α : Type}

/-- The outcome of an operation used outside its contract. -/
def breach : Attempt ε α := .error .breach

/-- The outcome of an operation that reports `cause`. -/
def fail (cause : ε) : Attempt ε α := .error (.error cause)

/-- A condition of an operation's contract. -/
def require (holds : Bool) : Attempt ε Unit :=
  if holds then .ok () else breach

@[simp]
theorem require_true : (require true : Attempt ε Unit) = .ok () := rfl

/-- An entry that the contract of an operation promises to exist. -/
def entry : Option α → Attempt ε α
  | some value => .ok value
  | none => breach

/-- Runs an operation that never breaks its contract. -/
def lift : Except ε α → Attempt ε α
  | .ok value => .ok value
  | .error cause => fail cause

/-- Reports the causes of `attempt` in another vocabulary. -/
def mapCause (change : ε → δ) : Attempt ε α → Attempt δ α
  | .ok value => .ok value
  | .error .breach => breach
  | .error (.error cause) => fail (change cause)

@[simp]
theorem ok_bind {β : Type} (value : α) (next : α → Except ε β) :
    (Except.ok value >>= next) = next value := rfl

@[simp]
theorem fail_bind {β : Type} (cause : ε) (next : α → Attempt ε β) :
    (fail cause >>= next) = fail cause := rfl

theorem bind_eq_ok {β : Type} {attempt : Except ε α} {next : α → Except ε β}
    {result : β} :
    (attempt >>= next) = .ok result ↔
      ∃ value, attempt = .ok value ∧ next value = .ok result := by
  cases attempt with
  | error cause =>
      constructor
      · intro ok
        cases ok
      · rintro ⟨value, ok, -⟩
        cases ok
  | ok value =>
      constructor
      · intro ok
        exact ⟨value, rfl, ok⟩
      · rintro ⟨other, same, ok⟩
        cases same
        exact ok

theorem bind_congr_of_ok {β : Type} {attempt : Except ε α}
    {next other : α → Except ε β}
    (same : ∀ value, attempt = .ok value → next value = other value) :
    attempt >>= next = attempt >>= other := by
  cases attempt with
  | error cause => rfl
  | ok value => exact same value rfl

theorem require_bind_eq_ok {β : Type} {holds : Bool}
    {next : Unit → Attempt ε β} {result : β} :
    (require holds >>= next) = .ok result ↔
      holds = true ∧ next () = .ok result := by
  cases holds with
  | false =>
      constructor
      · intro ok
        cases ok
      · rintro ⟨impossible, -⟩
        cases impossible
  | true =>
      constructor
      · intro ok
        exact ⟨rfl, ok⟩
      · rintro ⟨-, ok⟩
        exact ok

theorem mapCause_eq_ok {change : ε → δ} {attempt : Attempt ε α} {value : α} :
    attempt.mapCause change = .ok value ↔ attempt = .ok value := by
  cases attempt with
  | ok found => simp [mapCause]
  | error failure =>
      cases failure with
      | breach => simp [mapCause, breach]
      | error cause => simp [mapCause, fail]

theorem mapM_eq_ok {β : Type} {f : α → Except ε β} {entries : List α}
    {results : List β} (mapped : entries.mapM f = .ok results) :
    results.length = entries.length ∧ ∀ (index : Nat) entry,
      entries[index]? = some entry →
        ∃ result, results[index]? = some result ∧ f entry = .ok result := by
  induction entries generalizing results with
  | nil =>
      cases mapped
      simp
  | cons first entries ih =>
      rw [List.mapM_cons] at mapped
      obtain ⟨result, here, rest⟩ := bind_eq_ok.mp mapped
      obtain ⟨others, later, done⟩ := bind_eq_ok.mp rest
      cases done
      obtain ⟨lengths, found⟩ := ih later
      refine ⟨by simp [lengths], ?_⟩
      intro index entry
      cases index with
      | zero =>
          intro same
          cases same
          exact ⟨result, rfl, here⟩
      | succ index => exact found index entry

theorem mapM_eq_ok_map {β : Type} {f : α → Except ε β} {g : α → β}
    {entries : List α} (each : ∀ entry ∈ entries, f entry = .ok (g entry)) :
    entries.mapM f = .ok (entries.map g) := by
  induction entries with
  | nil => rfl
  | cons entry entries ih =>
      have rest := ih fun later member =>
        each later (List.mem_cons_of_mem _ member)
      rw [List.mapM_cons, each entry List.mem_cons_self, rest]
      rfl

theorem mapM_eq_ok_map_or_breach {β : Type} {f : α → Attempt ε β} {g : α → β}
    {entries : List α}
    (each : ∀ entry ∈ entries, f entry = .ok (g entry) ∨ f entry = breach) :
    entries.mapM f = .ok (entries.map g) ∨ entries.mapM f = breach := by
  induction entries with
  | nil => exact .inl rfl
  | cons entry entries ih =>
      have rest := ih fun later member =>
        each later (List.mem_cons_of_mem _ member)
      rw [List.mapM_cons]
      rcases each entry List.mem_cons_self with done | broken
      · rw [done]
        rcases rest with results | broken
        · exact .inl (by rw [results]; rfl)
        · exact .inr (by rw [broken]; rfl)
      · exact .inr (by rw [broken]; rfl)

theorem map_toOption_eq_some {β : Type} {attempt : Except ε α} {view : α → β}
    {result : β} :
    attempt.toOption.map view = some result ↔
      ∃ value, attempt = .ok value ∧ view value = result := by
  cases attempt with
  | error cause => simp [Except.toOption]
  | ok value => simp [Except.toOption]

end Attempt

end Markov
