import Mathlib.Tactic.Common

/-!
# Deterministic machines

A machine answers every input with an output and moves to a new state. Two
rules are stated once here and instantiated by each component:

1. `Machine.Reach.invariant`: a property of the start states that every step
   allowed by a guard preserves holds in every state reached by guarded steps.
2. `Machine.Simulates.outputs_eq`: two states related by a simulation give the
   same outputs on every later sequence of inputs.
-/

/-- A deterministic machine with states `σ`, inputs `ι` and outputs `ο`. -/
structure Machine (σ ι ο : Type*) where
  init : σ → Prop
  step : σ → ι → σ
  out : σ → ι → ο

namespace Machine

variable {σ ι ο : Type*}

/-- `M.Reach G s`: the state `s` is reached from a start state by steps that
all satisfy the guard `G`, a condition on the state before the step and on the
input. -/
inductive Reach (M : Machine σ ι ο) (G : σ → ι → Prop) : σ → Prop
  | init {s : σ} : M.init s → Reach M G s
  | step {s : σ} (i : ι) : Reach M G s → G s i → Reach M G (M.step s i)

/-- The states reached with no restriction on the steps. -/
abbrev Reachable (M : Machine σ ι ο) : σ → Prop := M.Reach fun _ _ => True

/-- The state after a list of inputs. -/
def run (M : Machine σ ι ο) (s : σ) (is : List ι) : σ := is.foldl M.step s

/-- The outputs of a list of inputs, in order. -/
def outputs (M : Machine σ ι ο) : σ → List ι → List ο
  | _, [] => []
  | s, i :: is => M.out s i :: M.outputs (M.step s i) is

/-- The same machine, started in a given state. -/
def startingAt (M : Machine σ ι ο) (s₀ : σ) : Machine σ ι ο := { M with init := fun s => s = s₀ }

/-- Every step of the run satisfies the guard. -/
def Follows (M : Machine σ ι ο) (G : σ → ι → Prop) : σ → List ι → Prop
  | _, [] => True
  | s, i :: is => G s i ∧ M.Follows G (M.step s i) is

variable {M : Machine σ ι ο} {G : σ → ι → Prop}

@[simp] theorem run_nil (s : σ) : M.run s [] = s := rfl

@[simp] theorem run_cons (s : σ) (i : ι) (is : List ι) :
    M.run s (i :: is) = M.run (M.step s i) is := rfl

theorem run_append (s : σ) (is js : List ι) : M.run s (is ++ js) = M.run (M.run s is) js :=
  List.foldl_append

/-- A run over a numbered list of inputs, one input longer. -/
theorem run_map_range (s : σ) (f : ℕ → ι) (n : ℕ) : M.run s ((List.range (n + 1)).map f)
    = M.step (M.run s ((List.range n).map f)) (f n) := by
  rw [List.range_succ, List.map_append, run_append]
  rfl

/-- The invariant rule. The step case may use that the state before the step
is reached, so invariants already proved can be used for the next one. -/
theorem Reach.invariant {P : σ → Prop} (hinit : ∀ s, M.init s → P s)
    (hstep : ∀ s i, M.Reach G s → G s i → P s → P (M.step s i)) {s : σ} (h : M.Reach G s) :
    P s := by
  induction h with
  | init h => exact hinit _ h
  | step i hr hg ih => exact hstep _ i hr hg ih

theorem Reach.mono {G' : σ → ι → Prop} (hG : ∀ s i, G s i → G' s i) {s : σ}
    (h : M.Reach G s) : M.Reach G' s := by
  induction h with
  | init h => exact .init h
  | step i _ hg ih => exact .step i ih (hG _ _ hg)

theorem Reach.reachable {s : σ} (h : M.Reach G s) : M.Reachable s :=
  h.mono fun _ _ _ => trivial

theorem Reachable.step {s : σ} (h : M.Reachable s) (i : ι) : M.Reachable (M.step s i) :=
  Reach.step i h trivial

theorem Reachable.run {s : σ} (h : M.Reachable s) (is : List ι) : M.Reachable (M.run s is) := by
  induction is generalizing s with
  | nil => exact h
  | cons i is ih => exact ih (h.step i)

theorem follows_append (s : σ) (is js : List ι) :
    M.Follows G s (is ++ js) ↔ M.Follows G s is ∧ M.Follows G (M.run s is) js := by
  induction is generalizing s with
  | nil => exact (iff_of_eq (true_and _)).symm
  | cons i is ih => exact (and_congr_right fun _ => ih (M.step s i)).trans and_assoc.symm

/-- A guarded run leads from a reached state to reached ones. -/
theorem Reach.run {s : σ} (h : M.Reach G s) {is : List ι} (his : M.Follows G s is) :
    M.Reach G (M.run s is) := by
  induction is generalizing s with
  | nil => exact h
  | cons i is ih => exact ih (.step i h his.1) his.2

/-- A step of a run from a given state. -/
theorem Reach.step_startingAt {s₀ s : σ} (i : ι) (h : (M.startingAt s₀).Reach G s) (hg : G s i) :
    (M.startingAt s₀).Reach G (M.step s i) := .step i h hg

/-- `R` relates states that answer every input alike and stay related. -/
structure Simulates (M : Machine σ ι ο) (R : σ → σ → Prop) : Prop where
  out : ∀ s t i, R s t → M.out s i = M.out t i
  step : ∀ s t i, R s t → R (M.step s i) (M.step t i)

theorem Simulates.outputs_eq {R : σ → σ → Prop} (hR : M.Simulates R) {s t : σ} (h : R s t)
    (is : List ι) : M.outputs s is = M.outputs t is := by
  induction is generalizing s t with
  | nil => rfl
  | cons i is ih =>
    simp only [outputs]
    rw [hR.out s t i h, ih (hR.step s t i h)]

end Machine
