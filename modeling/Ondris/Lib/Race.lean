import Mathlib.Logic.Function.Basic
import Ondris.Lib.Machine

/-!
# Racing searches

Workers that go through sequences of candidates of their own until one of them has found
a good one. Whoever finds one writes it down first and raises a flag afterwards; the
others look at the flag before each attempt, and what they see may be out of date.

Results:
1. `reach_inv`: what is written down is good, and no worker passes a good candidate.
2. `Inv.winner`: when all workers have stopped, a good candidate is written down, the
   first one of some worker.
3. `stops_in_time`, `all_stop`: a worker stops a bounded number of turns before or at a good
   candidate of its own, and the others soon after they see the flag.
-/

namespace Race

/-! ## Definitions -/

/-- What a worker does next. -/
inductive Pc
  | check
  | attempt
  | publish
  | raise
  | stopped
deriving DecidableEq

structure Worker where
  position : ℕ
  pc : Pc

structure State (τ α : Type*) where
  workers : τ → Worker
  found : Bool
  result : Option α

/-- A worker takes its turn; `sees` is what it sees should it look at the flag. -/
structure Turn (τ : Type*) where
  worker : τ
  sees : Bool

section Machine

variable {τ α : Type*} [DecidableEq τ] (candidate : τ → ℕ → α) (good : α → Bool)

/-- What becomes of the worker that takes its turn. -/
def Worker.next (good : α → Bool) (own : ℕ → α) (sees : Bool) (w : Worker) : Worker :=
  match w.pc with
  | .check => ⟨w.position, if sees then .stopped else .attempt⟩
  | .attempt => if good (own w.position) then ⟨w.position, .publish⟩ else ⟨w.position + 1, .check⟩
  | .publish => ⟨w.position, .raise⟩
  | .raise => ⟨w.position, .stopped⟩
  | .stopped => w

/-- The worker writes its candidate down before it raises the flag. -/
def State.next (s : State τ α) (i : Turn τ) : State τ α :=
  let w := s.workers i.worker
  { workers := Function.update s.workers i.worker (w.next good (candidate i.worker) i.sees)
    found := s.found || w.pc = .raise
    result := if w.pc = .publish then some (candidate i.worker w.position) else s.result }

def machine : Machine (State τ α) (Turn τ) Unit where
  init s := s = ⟨fun _ => ⟨0, .check⟩, false, none⟩
  step := State.next candidate good
  out _ _ := ()

/-- The flag is not seen before it is raised. -/
def Seen (s : State τ α) (i : Turn τ) : Prop := i.sees = true → s.found = true

/-- A worker that has passed no good candidate, and stops at a good one or at the flag. -/
structure Worker.Inv (s : State τ α) (t : τ) (w : Worker) : Prop where
  passed : ∀ j < w.position, good (candidate t j) = false
  hit : w.pc = .publish → good (candidate t w.position) = true
  written : w.pc = .raise → s.result.isSome = true
  stopped : w.pc = .stopped → s.found = true

structure Inv (s : State τ α) : Prop where
  workers : ∀ t, (s.workers t).Inv candidate good s t
  flag : s.found = true → s.result.isSome = true
  result : ∀ x, s.result = some x →
    ∃ t k, x = candidate t k ∧ good x = true ∧ ∀ j < k, good (candidate t j) = false

end Machine

/-- The turns that a worker takes at most until it stops, if its candidate `k` is good. -/
def Worker.remaining (k : ℕ) (w : Worker) : ℕ :=
  match w.pc with
  | .check => 2 * (k - w.position) + 4
  | .attempt => 2 * (k - w.position) + 3
  | .publish => 2
  | .raise => 1
  | .stopped => 0

/-- The turns that a worker takes at most until it stops, if it sees the flag. -/
def Worker.patience (w : Worker) : ℕ :=
  match w.pc with
  | .check => 1
  | .attempt => 3
  | .publish => 2
  | .raise => 1
  | .stopped => 0

section Steps

variable {τ α : Type*} [DecidableEq τ] {candidate : τ → ℕ → α} {good : α → Bool} {s : State τ α}

/-! ## Steps -/

theorem workers_next_self (s : State τ α) (i : Turn τ) :
    (s.next candidate good i).workers i.worker
      = (s.workers i.worker).next good (candidate i.worker) i.sees := Function.update_self ..

theorem workers_next_of_ne (s : State τ α) {i : Turn τ} {u : τ} (h : u ≠ i.worker) :
    (s.next candidate good i).workers u = s.workers u := Function.update_of_ne h ..

theorem found_next (s : State τ α) (i : Turn τ) : (s.next candidate good i).found = true ↔
    s.found = true ∨ (s.workers i.worker).pc = .raise := by
  show (s.found || decide ((s.workers i.worker).pc = .raise)) = true ↔ _
  rw [Bool.or_eq_true, decide_eq_true_iff]

theorem result_next (s : State τ α) (i : Turn τ) : (s.next candidate good i).result
    = if (s.workers i.worker).pc = .publish then some (candidate i.worker (s.workers i.worker).position)
      else s.result := rfl

/-- What is written down may be overwritten, but not lost. -/
theorem isSome_result_next {i : Turn τ} (h : s.result.isSome = true) :
    (s.next candidate good i).result.isSome = true := by
  rw [result_next]
  split
  · rfl
  · exact h

/-- The others only see more of what is shared. -/
theorem Worker.Inv.frame {t : τ} {w : Worker} (h : w.Inv candidate good s t) (i : Turn τ) :
    w.Inv candidate good (s.next candidate good i) t where
  passed := h.passed
  hit := h.hit
  written hpc := isSome_result_next (h.written hpc)
  stopped hpc := (found_next s i).mpr (.inl (h.stopped hpc))

/-- The worker that takes its turn. -/
theorem Worker.Inv.step {i : Turn τ} (h : (s.workers i.worker).Inv candidate good s i.worker)
    (hseen : Seen s i) : ((s.workers i.worker).next good (candidate i.worker) i.sees).Inv
      candidate good (s.next candidate good i) i.worker := by
  unfold Worker.next
  cases hpc : (s.workers i.worker).pc with
  | check =>
    cases hsees : i.sees with
    | true => exact ⟨h.passed, nofun, nofun, fun _ => (found_next s i).mpr (.inl (hseen hsees))⟩
    | false => exact ⟨h.passed, nofun, nofun, nofun⟩
  | attempt =>
    cases hgood : good (candidate i.worker (s.workers i.worker).position) with
    | true =>
      simp only [if_true]
      exact ⟨h.passed, fun _ => hgood, nofun, nofun⟩
    | false =>
      simp only [Bool.false_eq_true, if_false]
      refine ⟨fun j hj => ?_, nofun, nofun, nofun⟩
      rcases Nat.lt_succ_iff_lt_or_eq.mp hj with hj | rfl
      · exact h.passed j hj
      · exact hgood
  | publish =>
    refine ⟨h.passed, nofun, fun _ => ?_, nofun⟩
    rw [result_next, if_pos hpc]
    rfl
  | raise => exact ⟨h.passed, nofun, nofun, fun _ => (found_next s i).mpr (.inr hpc)⟩
  | stopped => exact h.frame i

theorem Inv.step (h : Inv candidate good s) {i : Turn τ} (hseen : Seen s i) :
    Inv candidate good (s.next candidate good i) where
  workers t := by
    by_cases ht : t = i.worker
    · subst ht
      rw [workers_next_self]
      exact (h.workers i.worker).step hseen
    · rw [workers_next_of_ne s ht]
      exact (h.workers t).frame i
  flag hfound := by
    rcases (found_next s i).mp hfound with hfound | hraise
    · exact isSome_result_next (h.flag hfound)
    · exact isSome_result_next ((h.workers i.worker).written hraise)
  result x hx := by
    rw [result_next] at hx
    split at hx
    · next hpc =>
      obtain rfl := Option.some.inj hx
      exact ⟨i.worker, _, rfl, (h.workers i.worker).hit hpc, (h.workers i.worker).passed⟩
    · exact h.result x hx

theorem reach_inv (hs : (machine candidate good).Reach Seen s) : Inv candidate good s := by
  refine Machine.Reach.invariant (fun s hinit => ?_) (fun s i _ hi h => h.step hi) hs
  obtain rfl : s = _ := hinit
  exact ⟨fun t => ⟨fun j hj => absurd hj (Nat.not_lt_zero j), nofun, nofun, nofun⟩, nofun, nofun⟩

end Steps

/-! ## The end of a race -/

section End

variable {τ α : Type*} {candidate : τ → ℕ → α} {good : α → Bool} {s : State τ α}

/-- When all workers have stopped, a good candidate is written down, the first one of some
worker. -/
theorem Inv.winner [Nonempty τ] (h : Inv candidate good s)
    (hall : ∀ t, (s.workers t).pc = .stopped) :
    ∃ t k, s.result = some (candidate t k) ∧ good (candidate t k) = true ∧
      ∀ j < k, good (candidate t j) = false := by
  obtain ⟨t⟩ := ‹Nonempty τ›
  obtain ⟨x, hx⟩ := Option.isSome_iff_exists.mp (h.flag ((h.workers t).stopped (hall t)))
  obtain ⟨u, k, rfl, hgood, hfirst⟩ := h.result x hx
  exact ⟨u, k, hx, hgood, hfirst⟩

/-- No worker passes a good candidate. -/
theorem Inv.position_le (h : Inv candidate good s) {t : τ} {k : ℕ}
    (hgood : good (candidate t k) = true) : (s.workers t).position ≤ k := by
  by_contra hlt
  rw [(h.workers t).passed k (Nat.not_le.mp hlt)] at hgood
  cases hgood

/-- A turn brings the worker closer to its end. -/
theorem Worker.remaining_next {own : ℕ → α} {w : Worker} {k : ℕ} (hgood : good (own k) = true)
    (hle : w.position ≤ k) (sees : Bool) :
    (w.next good own sees).remaining k ≤ w.remaining k - 1 := by
  unfold Worker.next
  cases hpc : w.pc with
  | check => cases sees <;> simp [Worker.remaining, hpc]
  | attempt =>
    by_cases hhit : good (own w.position) = true
    · simp [Worker.remaining, hpc, hhit]
    · have hne : w.position ≠ k := fun heq => hhit (heq ▸ hgood)
      simp only [Worker.remaining, hpc, if_neg hhit]
      omega
  | publish => simp [Worker.remaining, hpc]
  | raise => simp [Worker.remaining, hpc]
  | stopped => simp [Worker.remaining, hpc]

theorem Worker.patience_next (good : α → Bool) (own : ℕ → α) (w : Worker) :
    (w.next good own true).patience ≤ w.patience - 1 := by
  unfold Worker.next
  cases hpc : w.pc with
  | attempt => by_cases hhit : good (own w.position) = true <;> simp [Worker.patience, hpc, hhit]
  | check => simp [Worker.patience, hpc]
  | publish => simp [Worker.patience, hpc]
  | raise => simp [Worker.patience, hpc]
  | stopped => simp [Worker.patience, hpc]

theorem Worker.stopped_of_remaining {w : Worker} {k : ℕ} (h : w.remaining k = 0) :
    w.pc = .stopped := by
  cases hpc : w.pc <;> simp [Worker.remaining, hpc] at h ⊢

theorem Worker.stopped_of_patience {w : Worker} (h : w.patience = 0) : w.pc = .stopped := by
  cases hpc : w.pc <;> simp [Worker.patience, hpc] at h ⊢

theorem Worker.patience_le (w : Worker) : w.patience ≤ 3 := by
  cases hpc : w.pc <;> simp [Worker.patience, hpc]

variable [DecidableEq τ]

/-- The turns of the others do not matter. -/
theorem remaining_run (hs : (machine candidate good).Reach Seen s) {t : τ} {k : ℕ}
    (hgood : good (candidate t k) = true) {is : List (Turn τ)}
    (his : (machine candidate good).Follows Seen s is) :
    (((machine candidate good).run s is).workers t).remaining k
      ≤ (s.workers t).remaining k - is.countP (·.worker = t) := by
  induction is generalizing s with
  | nil => exact Nat.le_refl _
  | cons i is ih =>
    refine Nat.le_trans (ih (.step i hs his.1) his.2) ?_
    show ((s.next candidate good i).workers t).remaining k - _ ≤ _
    by_cases ht : t = i.worker
    · subst ht
      rw [workers_next_self, List.countP_cons_of_pos (by simp)]
      have hnext := Worker.remaining_next hgood ((reach_inv hs).position_le hgood) i.sees
      omega
    · refine Nat.le_of_eq ?_
      rw [workers_next_of_ne s ht, List.countP_cons_of_neg (by simpa using Ne.symm ht)]

/-- A worker that gets enough turns to reach a good candidate stops. -/
theorem stops_in_time (hs : (machine candidate good).Reach Seen s) {t : τ} {k : ℕ}
    (hgood : good (candidate t k) = true) {is : List (Turn τ)}
    (his : (machine candidate good).Follows Seen s is)
    (hturns : (s.workers t).remaining k ≤ is.countP (·.worker = t)) :
    (((machine candidate good).run s is).workers t).pc = .stopped := by
  have hrun := remaining_run hs hgood his
  exact Worker.stopped_of_remaining (k := k) (by omega)

/-- Workers that see the flag stop. -/
theorem all_stop (s : State τ α) {is : List (Turn τ)} (hsees : ∀ i ∈ is, i.sees = true) {t : τ}
    (hturns : 3 ≤ is.countP (·.worker = t)) :
    (((machine candidate good).run s is).workers t).pc = .stopped := by
  have hrun : ∀ (is : List (Turn τ)) (s : State τ α), (∀ i ∈ is, i.sees = true) →
      (((machine candidate good).run s is).workers t).patience
        ≤ (s.workers t).patience - is.countP (·.worker = t) := by
    intro is
    induction is with
    | nil => exact fun s _ => Nat.le_refl _
    | cons i is ih =>
      intro s hsees
      refine Nat.le_trans (ih _ fun j hj => hsees j (List.mem_cons_of_mem i hj)) ?_
      show ((s.next candidate good i).workers t).patience - _ ≤ _
      by_cases ht : t = i.worker
      · subst ht
        rw [workers_next_self, hsees i List.mem_cons_self, List.countP_cons_of_pos (by simp)]
        have hnext := (s.workers i.worker).patience_next good (candidate i.worker)
        omega
      · refine Nat.le_of_eq ?_
        rw [workers_next_of_ne s ht, List.countP_cons_of_neg (by simpa using Ne.symm ht)]
  have hle := hrun is s hsees
  have hstart := (s.workers t).patience_le
  exact Worker.stopped_of_patience (by omega)

end End

end Race
