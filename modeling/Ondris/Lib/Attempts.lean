import Mathlib.Tactic.Common

/-!
# Attempts that succeed, fail or abort

An attempt gives a value, fails with an error that its caller handles, or aborts the
program. A sequence of attempts ends at the first one that gives no value.

Results:
1. `bind_eq_ok_iff`: a sequence gives what its last attempt gives.
2. `bind_eq_abort_iff`: a sequence aborts where one of its attempts does.
3. `mapM_ok`: a list of attempts that all give a value.
-/

/-- An attempt with errors `ε` and results `α`; `none` stands for an abort. -/
abbrev Attempt (ε α : Type) := ExceptT ε Option α

namespace Attempt

variable {ε ε' α β : Type} {a : α} {b : β} {e : ε} {x : Attempt ε α} {f : α → Attempt ε β}

def ok (a : α) : Attempt ε α := some (Except.ok a)

def fail (e : ε) : Attempt ε α := some (Except.error e)

def abort : Attempt ε α := (none : Option (Except ε α))

/-- A missing value is an error. -/
def orFail (e : ε) : Option α → Attempt ε α
  | none => fail e
  | some a => ok a

/-- A missing value aborts. -/
def orAbort : Option α → Attempt ε α
  | none => abort
  | some a => ok a

/-- The same attempt with another kind of errors. -/
def mapFail (f : ε' → ε) (x : Attempt ε' α) : Attempt ε α := ExceptT.adapt f x

/-- A result whose errors are of another kind. -/
def ofExcept (f : ε' → ε) : Except ε' α → Attempt ε α
  | .error e => fail (f e)
  | .ok a => ok a

@[simp] theorem mapFail_ok (f : ε' → ε) (a : α) : mapFail f (ok a) = ok a := rfl

@[simp] theorem ofExcept_ok (f : ε' → ε) (a : α) : ofExcept f (.ok a) = ok a := rfl

/-! ## Sequences -/

@[simp] theorem ok_bind (a : α) (f : α → Attempt ε β) : ok a >>= f = f a := rfl

@[simp] theorem fail_bind (e : ε) (f : α → Attempt ε β) : fail e >>= f = fail e := rfl

@[simp] theorem abort_bind (f : α → Attempt ε β) : abort >>= f = abort := rfl

theorem ok_inj {a' : α} (h : (ok a : Attempt ε α) = ok a') : a = a' :=
  Except.ok.inj (Option.some.inj h)

theorem cases (x : Attempt ε α) : x = abort ∨ (∃ e, x = fail e) ∨ ∃ a, x = ok a := by
  cases (x : Option (Except ε α)) with
  | none => exact .inl rfl
  | some y =>
    cases y with
    | error e => exact .inr (.inl ⟨e, rfl⟩)
    | ok a => exact .inr (.inr ⟨a, rfl⟩)

theorem bind_eq_ok_iff : x >>= f = ok b ↔ ∃ a, x = ok a ∧ f a = ok b := by
  constructor
  · intro h
    rcases x.cases with rfl | ⟨e, rfl⟩ | ⟨a, rfl⟩
    · cases h
    · cases h
    · exact ⟨a, rfl, h⟩
  · rintro ⟨a, rfl, h⟩
    exact h

theorem bind_eq_abort_iff : x >>= f = abort ↔ x = abort ∨ ∃ a, x = ok a ∧ f a = abort := by
  constructor
  · intro h
    rcases x.cases with rfl | ⟨e, rfl⟩ | ⟨a, rfl⟩
    · exact .inl rfl
    · cases h
    · exact .inr ⟨a, rfl, h⟩
  · rintro (rfl | ⟨a, rfl, h⟩)
    · rfl
    · exact h

/-- A list of attempts that all give a value. -/
theorem mapM_ok {γ : Type} {l : List γ} {f : γ → Attempt ε α} {g : γ → α}
    (h : ∀ c ∈ l, f c = ok (g c)) : l.mapM f = ok (l.map g) := by
  induction l with
  | nil => rfl
  | cons c l ih =>
    rw [List.mapM_cons, h c List.mem_cons_self, ok_bind,
      ih fun d hd => h d (List.mem_cons_of_mem c hd)]
    rfl

/-! ## Results and missing values -/

variable {o : Option α} {r : Except ε' α} {g : ε' → ε}

@[simp] theorem ofExcept_eq_ok_iff : ofExcept g r = ok a ↔ r = .ok a := by
  cases r with
  | error e => exact ⟨fun h => (nomatch h), fun h => (nomatch h)⟩
  | ok a' => exact ⟨fun h => congrArg Except.ok (ok_inj h), fun h => congrArg ok (Except.ok.inj h)⟩

@[simp] theorem ofExcept_ne_abort : ofExcept g r ≠ abort := by
  cases r with
  | error e => exact fun h => nomatch h
  | ok a => exact fun h => nomatch h

@[simp] theorem orFail_eq_ok_iff : orFail e o = ok a ↔ o = some a := by
  cases o with
  | none => exact ⟨fun h => (nomatch h), fun h => (nomatch h)⟩
  | some a' => exact ⟨fun h => congrArg some (ok_inj h), fun h => congrArg ok (Option.some.inj h)⟩

@[simp] theorem orFail_ne_abort : orFail e o ≠ abort := by
  cases o with
  | none => exact fun h => nomatch h
  | some a => exact fun h => nomatch h

@[simp] theorem orAbort_eq_ok_iff : (orAbort o : Attempt ε α) = ok a ↔ o = some a := by
  cases o with
  | none => exact ⟨fun h => (nomatch h), fun h => (nomatch h)⟩
  | some a' => exact ⟨fun h => congrArg some (ok_inj h), fun h => congrArg ok (Option.some.inj h)⟩

@[simp] theorem orAbort_eq_abort_iff : (orAbort o : Attempt ε α) = abort ↔ o = none := by
  cases o with
  | none => exact ⟨fun _ => rfl, fun _ => rfl⟩
  | some a => exact ⟨fun h => (nomatch h), fun h => nomatch h⟩

end Attempt
