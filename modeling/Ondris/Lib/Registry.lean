import Mathlib.Logic.Function.Basic
import Mathlib.Tactic.Common

/-!
# Registries with one entry a key

Members join a registry under a key and leave it again. The registry has one entry a
key: who joins overwrites it, and who leaves removes it, whoever is named there. A
member may also be lost: it is gone, and its entry stays.

Results:
1. `Owned.step`, `Exact.step`: safe moves keep the entries those of the members.
2. `exact_step_iff`: a move that is not safe does not.
3. `entry_leave`: who leaves safely removes no entry of another member.
-/

namespace Registry

/-- How far a member has come. -/
inductive Status
  | out
  | joined
  | left
  | lost
deriving DecidableEq

/-- What a member does. -/
inductive Move
  | join
  | leave
  | lose
deriving DecidableEq

/-- The state of who moves, before the move. -/
def Move.before : Move → Status
  | join => .out
  | leave => .joined
  | lose => .joined

/-- The state of who has moved. -/
def Move.after : Move → Status
  | join => .joined
  | leave => .left
  | lose => .lost

end Registry

/-- The members' states and the entries of the keys. -/
structure Registry (ι κ : Type*) where
  status : ι → Registry.Status
  entry : κ → Option ι

namespace Registry

variable {ι κ : Type*} [DecidableEq ι] [DecidableEq κ] (key : ι → κ)

/-- A new state of a member and a new entry of its key. -/
def set (R : Registry ι κ) (i : ι) (status : Status) (entry : Option ι) : Registry ι κ :=
  ⟨Function.update R.status i status, Function.update R.entry (key i) entry⟩

def step (R : Registry ι κ) (i : ι) : Move → Registry ι κ
  | .join => R.set key i .joined (some i)
  | .leave => R.set key i .left none
  | .lose => { R with status := Function.update R.status i .lost }

/-- Nobody is lost, and nobody leaves while another member is there under the same key. -/
def Safe (R : Registry ι κ) (i : ι) : Move → Prop
  | .join => True
  | .leave => ∀ j, j ≠ i → key j = key i → R.status j ≠ .joined
  | .lose => False

/-- A key has an entry exactly if a member is there under it, and nobody is lost. -/
structure Exact (R : Registry ι κ) : Prop where
  present : ∀ k, (R.entry k).isSome ↔ ∃ i, key i = k ∧ R.status i = .joined
  kept : ∀ i, R.status i ≠ .lost

/-- The entries name members that are there. -/
def Owned (R : Registry ι κ) : Prop :=
  ∀ k i, R.entry k = some i → key i = k ∧ R.status i = .joined

variable {key} {R : Registry ι κ} {move : Move} {i j : ι} {k : κ} {status : Status}
  {entry : Option ι}

/-! ## One member -/

/-- Under another key nothing changes. -/
theorem set_of_ne (hk : k ≠ key i) : (R.set key i status entry).entry k = R.entry k ∧
    ∀ j, key j = k → (R.set key i status entry).status j = R.status j := by
  refine ⟨Function.update_of_ne hk .., fun j hkey => Function.update_of_ne ?_ ..⟩
  rintro rfl
  exact hk hkey.symm

theorem Owned.set (h : R.Owned key) (hentry : ∀ j, entry = some j → j = i ∧ status = .joined) :
    (R.set key i status entry).Owned key := by
  intro k j hj
  by_cases hk : k = key i
  · subst hk
    have hnew : (R.set key i status entry).entry (key i) = entry := Function.update_self ..
    obtain ⟨rfl, rfl⟩ := hentry j (hnew.symm.trans hj)
    exact ⟨rfl, Function.update_self ..⟩
  · obtain ⟨hsame, hothers⟩ := R.set_of_ne hk
    rw [hsame] at hj
    obtain ⟨hkey, hjoined⟩ := h k j hj
    exact ⟨hkey, (hothers j hkey).trans hjoined⟩

theorem Exact.set (h : R.Exact key) (hstatus : status ≠ .lost)
    (hentry : entry.isSome ↔
      ∃ j, key j = key i ∧ (R.set key i status entry).status j = .joined) :
    (R.set key i status entry).Exact key := by
  refine ⟨fun k => ?_, fun j => ?_⟩
  · by_cases hk : k = key i
    · subst hk
      have hnew : (R.set key i status entry).entry (key i) = entry := Function.update_self ..
      rw [hnew]
      exact hentry
    · obtain ⟨hsame, hothers⟩ := R.set_of_ne hk
      rw [hsame, h.present k]
      exact exists_congr fun j => and_congr_right fun hkey => by rw [hothers j hkey]
  · by_cases hj : j = i
    · subst hj
      exact (Function.update_self ..).trans_ne hstatus
    · exact (Function.update_of_ne hj ..).trans_ne (h.kept j)

/-! ## Moves -/

theorem status_step : (R.step key i move).status = Function.update R.status i move.after := by
  cases move <;> rfl

theorem Owned.step (h : R.Owned key) (hsafe : R.Safe key i move) :
    (R.step key i move).Owned key := by
  cases move with
  | join => exact h.set fun j hj => ⟨(Option.some.inj hj).symm, rfl⟩
  | leave => exact h.set fun j hj => nomatch hj
  | lose => exact hsafe.elim

theorem Exact.step (h : R.Exact key) (hsafe : R.Safe key i move) :
    (R.step key i move).Exact key := by
  cases move with
  | join =>
    refine h.set (fun hlost => nomatch hlost) (iff_of_true rfl ⟨i, rfl, ?_⟩)
    exact Function.update_self ..
  | leave =>
    refine h.set (fun hlost => nomatch hlost) (iff_of_false (fun hsome => nomatch hsome) ?_)
    rintro ⟨j, hkey, hjoined⟩
    by_cases hj : j = i
    · subst hj
      cases (Function.update_self ..).symm.trans hjoined
    · exact hsafe j hj hkey ((Function.update_of_ne hj ..).symm.trans hjoined)
  | lose => exact hsafe.elim

/-- Only safe moves keep the registry exact. -/
theorem exact_step_iff (h : R.Exact key) : (R.step key i move).Exact key ↔ R.Safe key i move := by
  refine ⟨fun h' => ?_, h.step⟩
  cases move with
  | join => trivial
  | leave =>
    intro j hj hkey hjoined
    have hstill : (R.step key i .leave).status j = .joined :=
      (Function.update_of_ne hj ..).trans hjoined
    have hsome := (h'.present (key i)).mpr ⟨j, hkey, hstill⟩
    have hnone : (R.step key i .leave).entry (key i) = none := Function.update_self ..
    rw [hnone] at hsome
    cases hsome
  | lose => exact h'.kept i (Function.update_self ..)

/-- Who leaves safely removes no entry of another member. -/
theorem entry_leave (h : R.Owned key) (hsafe : R.Safe key i .leave) (hj : j ≠ i)
    (hentry : R.entry k = some j) : (R.step key i .leave).entry k = some j := by
  obtain ⟨hkey, hjoined⟩ := h k j hentry
  have hk : k ≠ key i := by
    rintro rfl
    exact hsafe j hj hkey hjoined
  rw [← hentry]
  exact Function.update_of_ne hk ..

end Registry
