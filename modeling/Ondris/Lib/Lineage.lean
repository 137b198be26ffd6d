import Mathlib.Data.List.Infix
import Mathlib.Data.List.Nodup
import Mathlib.Logic.Function.Basic
import Mathlib.Tactic.Common

/-!
# Lineages in a parent-pointer store

A store maps keys to nodes and every node names its parent. `Lineage get parent
root h l` says that `l` lists the keys and nodes met on the way from `h` up to
the root, both included.

Results:
1. `Lineage.unique`: a key has at most one lineage.
2. `Lineage.mono`: a lineage survives every growth of the store.
3. `Lineage.of_append`: a tail of a lineage is the lineage of its first key.
4. `Lineage.nodup`: no key occurs twice in a lineage.
5. `Lineage.update_cases`: storing one node adds one lineage.
6. `Lineage.meet`: two lineages split into two disjoint parts and a common
   tail that contains the root.
-/

/-- `Lineage get parent root h l`: `l` is the path from `h` to `root`. -/
inductive Lineage {H N : Type*} (get : H → Option N) (parent : N → H) (root : H) :
    H → List (H × N) → Prop
  | root {n : N} : get root = some n → Lineage get parent root root [(root, n)]
  | step {h : H} {n : N} {l : List (H × N)} :
      h ≠ root → get h = some n → Lineage get parent root (parent n) l →
      Lineage get parent root h ((h, n) :: l)

namespace Lineage

variable {H N : Type*} {get get' : H → Option N} {parent : N → H} {root h : H}
  {l l' : List (H × N)}

theorem ne_nil (hl : Lineage get parent root h l) : l ≠ [] := by
  cases hl <;> simp

theorem length_pos (hl : Lineage get parent root h l) : 0 < l.length :=
  List.length_pos_iff.mpr hl.ne_nil

/-- The first entry is the key itself with its node. -/
theorem head (hl : Lineage get parent root h l) :
    ∃ n t, get h = some n ∧ l = (h, n) :: t := by
  cases hl with
  | root hg => exact ⟨_, [], hg, rfl⟩
  | step _ hg _ => exact ⟨_, _, hg, rfl⟩

theorem get_isSome (hl : Lineage get parent root h l) : (get h).isSome := by
  obtain ⟨n, _, hg, _⟩ := hl.head
  simp [hg]

theorem tail {n : N} {t : List (H × N)} (hne : h ≠ root)
    (hl : Lineage get parent root h ((h, n) :: t)) :
    get h = some n ∧ Lineage get parent root (parent n) t := by
  cases hl with
  | root _ => exact absurd rfl hne
  | step _ hg ht => exact ⟨hg, ht⟩

theorem root_eq (hl : Lineage get parent root root l) : ∃ n, get root = some n ∧ l = [(root, n)] := by
  cases hl with
  | root hg => exact ⟨_, hg, rfl⟩
  | step hne _ _ => exact absurd rfl hne

theorem unique (hl : Lineage get parent root h l) (hl' : Lineage get parent root h l') :
    l = l' := by
  induction hl generalizing l' with
  | root hg =>
    obtain ⟨n, hg', rfl⟩ := hl'.root_eq
    rw [hg] at hg'
    cases hg'
    rfl
  | step hne hg _ ih =>
    obtain ⟨n', t, hg', rfl⟩ := hl'.head
    rw [hg] at hg'
    cases hg'
    rw [ih (hl'.tail hne).2]

theorem mono (hg : ∀ k n, get k = some n → get' k = some n)
    (hl : Lineage get parent root h l) : Lineage get' parent root h l := by
  induction hl with
  | root h => exact .root (hg _ _ h)
  | step hne h _ ih => exact .step hne (hg _ _ h) ih

/-- Every entry of a lineage is stored. -/
theorem mem_get (hl : Lineage get parent root h l) {k : H} {n : N} (hm : (k, n) ∈ l) :
    get k = some n := by
  induction hl with
  | root hg =>
    simp only [List.mem_singleton, Prod.mk.injEq] at hm
    rw [hm.1, hm.2, hg]
  | step _ hg _ ih =>
    rcases List.mem_cons.mp hm with heq | hm
    · cases heq
      exact hg
    · exact ih hm

theorem root_mem (hl : Lineage get parent root h l) : ∃ n, (root, n) ∈ l := by
  induction hl with
  | root _ => exact ⟨_, List.mem_singleton.mpr rfl⟩
  | step _ _ _ ih =>
    obtain ⟨n, hn⟩ := ih
    exact ⟨n, List.mem_cons_of_mem _ hn⟩

/-- A tail of a lineage that starts with key `k` is the lineage of `k`. -/
theorem of_append {pre t : List (H × N)} {k : H} {n : N}
    (hl : Lineage get parent root h (pre ++ (k, n) :: t)) :
    Lineage get parent root k ((k, n) :: t) := by
  induction pre generalizing h with
  | nil =>
    obtain ⟨m, s, _, heq⟩ := hl.head
    simp only [List.nil_append, List.cons.injEq, Prod.mk.injEq] at heq
    obtain ⟨⟨rfl, rfl⟩, rfl⟩ := heq
    exact hl
  | cons p pre ih =>
    by_cases hne : h = root
    · subst hne
      obtain ⟨m, _, heq⟩ := hl.root_eq
      simp at heq
    · obtain ⟨m, s, _, heq⟩ := hl.head
      simp only [List.cons_append, List.cons.injEq] at heq
      obtain ⟨rfl, -⟩ := heq
      exact ih (hl.tail hne).2

theorem of_append_ne_nil (pre : List (H × N)) {t : List (H × N)}
    (hl : Lineage get parent root h (pre ++ t)) (ht : t ≠ []) : ∃ k, Lineage get parent root k t := by
  obtain ⟨⟨k, n⟩, t, rfl⟩ := List.exists_cons_of_ne_nil ht
  exact ⟨k, hl.of_append⟩

theorem of_mem (hl : Lineage get parent root h l) {k : H} {n : N} (hm : (k, n) ∈ l) :
    ∃ pre t, l = pre ++ (k, n) :: t ∧ Lineage get parent root k ((k, n) :: t) := by
  obtain ⟨pre, t, rfl⟩ := List.append_of_mem hm
  exact ⟨pre, t, rfl, hl.of_append⟩

/-- No key occurs twice: a second occurrence would have the same lineage, so
the same length, as the first. -/
theorem nodup (hl : Lineage get parent root h l) : (l.map Prod.fst).Nodup := by
  induction hl with
  | root _ => simp
  | @step h n t hne hg ht ih =>
    rw [List.map_cons, List.nodup_cons]
    refine ⟨fun hm => ?_, ih⟩
    obtain ⟨⟨k, m⟩, hkm, rfl⟩ := List.mem_map.mp hm
    obtain ⟨pre, s, heq, hk⟩ := ht.of_mem hkm
    have hlen := congrArg List.length (hk.unique (.step hne hg ht))
    rw [heq] at hlen
    simp at hlen
    omega

/-- Storing a node under a new key adds that node's lineage and no other. The
parents of the nodes stored before are stored, so none of them is the new key. -/
theorem update_cases [DecidableEq H] {k : H} {m : N} (hnew : get k = none)
    (hroot : (get root).isSome)
    (hclosed : ∀ j n, get j = some n → j ≠ root → (get (parent n)).isSome)
    (hparent : (get (parent m)).isSome)
    (hl : Lineage (Function.update get k (some m)) parent root h l) :
    Lineage get parent root h l ∨
      (h = k ∧ ∃ t, l = (k, m) :: t ∧ Lineage get parent root (parent m) t) := by
  have hne : ∀ {j}, (get j).isSome → j ≠ k := by
    rintro j hj rfl
    simp [hnew] at hj
  induction hl with
  | @root n hg =>
    rw [Function.update_of_ne (hne hroot)] at hg
    exact .inl (.root hg)
  | @step h n t hroot' hg ht ih =>
    by_cases hk : h = k
    · subst hk
      rw [Function.update_self] at hg
      cases hg
      -- the rest of the new node's lineage was there before
      rcases ih with ih | ⟨heq, -⟩
      · exact .inr ⟨rfl, t, rfl, ih⟩
      · exact absurd heq (hne hparent)
    · rw [Function.update_of_ne hk] at hg
      rcases ih with ih | ⟨heq, -⟩
      · exact .inl (.step hroot' hg ih)
      · exact absurd heq (hne (hclosed h n hg hroot'))

/-- Two lineages meet: each is a part of its own followed by a common tail, and
the two parts share no key. -/
theorem meet [DecidableEq H] {h' : H} (hl : Lineage get parent root h l)
    (hl' : Lineage get parent root h' l') :
    ∃ a b c, l = a ++ c ∧ l' = b ++ c ∧ c ≠ [] ∧
      ∀ k ∈ a.map Prod.fst, k ∉ b.map Prod.fst := by
  induction hl with
  | @root n hg =>
    obtain ⟨m, hm⟩ := hl'.root_mem
    obtain ⟨pre, t, rfl, ht⟩ := hl'.of_mem hm
    obtain ⟨m', hg', heq⟩ := ht.root_eq
    rw [hg] at hg'
    cases hg'
    exact ⟨[], pre, [(root, n)], rfl, by rw [heq], by simp, by simp⟩
  | @step h n t hne hg ht ih =>
    -- the first key that the other lineage has starts the common tail
    by_cases hmem : h ∈ l'.map Prod.fst
    · obtain ⟨⟨k, m⟩, hm, rfl⟩ := List.mem_map.mp hmem
      obtain ⟨pre, s, rfl, hs⟩ := hl'.of_mem hm
      refine ⟨[], pre, (k, m) :: s, ?_, rfl, by simp, by simp⟩
      exact (Lineage.step hne hg ht).unique hs
    · obtain ⟨a, b, c, rfl, rfl, hc, hdis⟩ := ih
      refine ⟨(h, n) :: a, b, c, rfl, rfl, hc, ?_⟩
      intro k hk
      rcases List.mem_cons.mp hk with rfl | hk
      · exact fun hb => hmem (by simp only [List.map_append, List.mem_append]; exact .inl hb)
      · exact hdis k hk

end Lineage
