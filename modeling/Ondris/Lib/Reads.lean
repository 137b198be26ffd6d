import Mathlib.Tactic.Common

/-!
# Programs of single reads

A program that reads a shared store asks one query after another. Every answer is
atomic, but the store may change between two of them.

Results:
1. `Reads.alone_bind`, `Reads.along_bind`: programs in sequence.
2. `Reads.Along.step`: a read that is answered as one fixed store would answer it
   leaves the result that the program has alone on that store.
-/

/-- Programs with queries `Q`, answers `A` and results `ρ`. -/
inductive Reads (Q : Type*) (A : Q → Type*) (ρ : Type*)
  | ret (result : ρ)
  | ask (q : Q) (next : A q → Reads Q A ρ)

namespace Reads

variable {Q : Type*} {A : Q → Type*} {ρ ρ' : Type*}

/-- The result when one store answers every query. -/
def alone (answer : (q : Q) → A q) : Reads Q A ρ → ρ
  | ret result => result
  | ask q next => alone answer (next (answer q))

/-- One read. -/
def step (answer : (q : Q) → A q) : Reads Q A ρ → Reads Q A ρ
  | ret result => ret result
  | ask q next => next (answer q)

/-- The query that comes next. -/
def query : Reads Q A ρ → Option Q
  | ret _ => none
  | ask q _ => some q

/-- One program after another. -/
def bind (f : ρ → Reads Q A ρ') : Reads Q A ρ → Reads Q A ρ'
  | ret result => f result
  | ask q next => ask q fun a => bind f (next a)

/-- Every query that comes up when one store answers has the property `P`. -/
def Along (answer : (q : Q) → A q) (P : Q → Prop) : Reads Q A ρ → Prop
  | ret _ => True
  | ask q next => P q ∧ Along answer P (next (answer q))

variable {answer answer' : (q : Q) → A q} {P : Q → Prop} {p : Reads Q A ρ}

@[simp] theorem alone_ret (result : ρ) : (ret result : Reads Q A ρ).alone answer = result := rfl

@[simp] theorem alone_ask (q : Q) (next : A q → Reads Q A ρ) :
    (ask q next).alone answer = (next (answer q)).alone answer := rfl

@[simp] theorem along_ret (result : ρ) : (ret result : Reads Q A ρ).Along answer P := trivial

@[simp] theorem along_ask (q : Q) (next : A q → Reads Q A ρ) :
    (ask q next).Along answer P ↔ P q ∧ (next (answer q)).Along answer P := Iff.rfl

@[simp] theorem alone_bind (f : ρ → Reads Q A ρ') :
    (p.bind f).alone answer = (f (p.alone answer)).alone answer := by
  induction p with
  | ret result => rfl
  | ask q next ih => exact ih (answer q)

@[simp] theorem along_bind (f : ρ → Reads Q A ρ') :
    (p.bind f).Along answer P ↔ p.Along answer P ∧ (f (p.alone answer)).Along answer P := by
  induction p with
  | ret result => exact ⟨fun h => ⟨trivial, h⟩, And.right⟩
  | ask q next ih =>
    show P q ∧ ((next (answer q)).bind f).Along answer P ↔ _
    rw [ih (answer q), ← and_assoc]
    rfl

theorem Along.query (h : p.Along answer P) {q : Q} (hq : p.query = some q) : P q := by
  cases p with
  | ret result => cases hq
  | ask q' next =>
    obtain rfl := Option.some.inj hq
    exact h.1

/-- A read that finds what the fixed store holds loses nothing. -/
theorem Along.step (h : p.Along answer P)
    (hagree : ∀ q, p.query = some q → P q → answer' q = answer q) :
    (p.step answer').alone answer = p.alone answer ∧ (p.step answer').Along answer P := by
  cases p with
  | ret result => exact ⟨rfl, trivial⟩
  | ask q next =>
    obtain ⟨hq, hnext⟩ := h
    have heq : answer' q = answer q := hagree q rfl hq
    refine ⟨?_, ?_⟩
    · show (next (answer' q)).alone answer = (next (answer q)).alone answer
      rw [heq]
    · show (next (answer' q)).Along answer P
      rw [heq]
      exact hnext

end Reads
