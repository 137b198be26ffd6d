import Mathlib.Algebra.Order.Ring.Nat
import Mathlib.Data.List.Infix
import Mathlib.Data.List.Nodup
import Mathlib.Tactic.Common

/-!
# Pairwise reduction of a list

`reduce f l` combines neighbours with `f` until one element is left. An element
without a neighbour is combined with itself. The reduction is the fold of a
binary tree (`treeOf`), whose leaves are the list followed by repetitions of
some of its elements (`padded`).

Results:
1. `reduce_map_fold`: the reduction is the fold of the tree.
2. `prefix_padded`, `mem_padded`: the padding only repeats elements of the list.
3. `fold_injective`: where `f` is injective on the pairs it combines and never
   yields a leaf, the fold determines the tree.
4. `padded_eq_iff_treeOf_eq`: the tree and its leaves determine each other.
5. `eq_of_padded_eq`, `eq_of_padded_eq_of_nodup`: the padded leaves determine
   the list among lists of one length, and among lists without repetition.
-/

/-- Binary trees with values at the leaves. -/
inductive BinTree (α : Type*)
  | leaf (a : α)
  | node (l r : BinTree α)

namespace BinTree

variable {α : Type*}

def fold (f : α → α → α) : BinTree α → α
  | leaf a => a
  | node l r => f (l.fold f) (r.fold f)

def leaves : BinTree α → List α
  | leaf a => [a]
  | node l r => l.leaves ++ r.leaves

/-- The pairs that `fold f` combines. -/
def pairs (f : α → α → α) : BinTree α → List (α × α)
  | leaf _ => []
  | node l r => (l.fold f, r.fold f) :: (l.pairs f ++ r.pairs f)

def map {β : Type*} (φ : α → β) : BinTree α → BinTree β
  | leaf a => leaf (φ a)
  | node l r => node (l.map φ) (r.map φ)

theorem leaves_map {β : Type*} (φ : α → β) (t : BinTree α) :
    (t.map φ).leaves = t.leaves.map φ := by
  induction t with
  | leaf a => rfl
  | node l r ihl ihr => simp [map, leaves, ihl, ihr]

/-- All leaves are at depth `d`. -/
def Perfect : ℕ → BinTree α → Prop
  | 0, leaf _ => True
  | 0, node _ _ => False
  | _ + 1, leaf _ => False
  | d + 1, node l r => l.Perfect d ∧ r.Perfect d

theorem Perfect.length_leaves {d : ℕ} {t : BinTree α} (h : t.Perfect d) :
    t.leaves.length = 2 ^ d := by
  induction d generalizing t with
  | zero =>
    cases t with
    | leaf => rfl
    | node => exact h.elim
  | succ d ih =>
    cases t with
    | leaf => exact h.elim
    | node l r =>
      rw [leaves, List.length_append, ih h.1, ih h.2, Nat.pow_succ]
      omega

/-- A perfect tree is determined by its depth and its leaves. -/
theorem Perfect.eq_of_leaves_eq {d : ℕ} {t t' : BinTree α} (h : t.Perfect d) (h' : t'.Perfect d)
    (hl : t.leaves = t'.leaves) : t = t' := by
  induction d generalizing t t' with
  | zero =>
    cases t <;> cases t' <;> simp_all [Perfect, leaves]
  | succ d ih =>
    cases t with
    | leaf => exact h.elim
    | node l r =>
      cases t' with
      | leaf => exact h'.elim
      | node l' r' =>
        have hlen : l.leaves.length = l'.leaves.length := by
          rw [h.1.length_leaves, h'.1.length_leaves]
        obtain ⟨hll, hrr⟩ := List.append_inj hl hlen
        rw [ih h.1 h'.1 hll, ih h.2 h'.2 hrr]

/-- The fold determines the tree when `f` is injective on the pairs combined in
either tree and no leaf is itself a combination of such a pair. -/
theorem fold_injective {f : α → α → α} {P : α × α → Prop} {Q : α → Prop}
    (hinj : ∀ p q, P p → P q → f p.1 p.2 = f q.1 q.2 → p = q)
    (hsep : ∀ a p, Q a → P p → a ≠ f p.1 p.2) {t t' : BinTree α}
    (hP : ∀ p ∈ t.pairs f, P p) (hP' : ∀ p ∈ t'.pairs f, P p)
    (hQ : ∀ a ∈ t.leaves, Q a) (hQ' : ∀ a ∈ t'.leaves, Q a)
    (h : t.fold f = t'.fold f) : t = t' := by
  induction t generalizing t' with
  | leaf a =>
    cases t' with
    | leaf b =>
      simp only [fold] at h
      rw [h]
    | node l r =>
      -- a leaf is never the image of a pair
      have hp : P (l.fold f, r.fold f) := hP' _ (by simp [pairs])
      exact absurd h (hsep a _ (hQ a (by simp [leaves])) hp)
  | node l r ihl ihr =>
    have hp : P (l.fold f, r.fold f) := hP _ (by simp [pairs])
    cases t' with
    | leaf b => exact absurd h.symm (hsep b _ (hQ' b (by simp [leaves])) hp)
    | node l' r' =>
      have hp' : P (l'.fold f, r'.fold f) := hP' _ (by simp [pairs])
      have heq := hinj _ _ hp hp' h
      simp only [Prod.mk.injEq] at heq
      have hl : l = l' := ihl (fun p hm => hP p (by simp [pairs, hm]))
        (fun p hm => hP' p (by simp [pairs, hm])) (fun a hm => hQ a (by simp [leaves, hm]))
        (fun a hm => hQ' a (by simp [leaves, hm])) heq.1
      have hr : r = r' := ihr (fun p hm => hP p (by simp [pairs, hm]))
        (fun p hm => hP' p (by simp [pairs, hm])) (fun a hm => hQ a (by simp [leaves, hm]))
        (fun a hm => hQ' a (by simp [leaves, hm])) heq.2
      rw [hl, hr]

end BinTree

namespace MerkleTree

open BinTree

variable {α β : Type*}

/-! ## The reduction -/

/-- One level: neighbours combined, a last element without neighbour combined
with itself. -/
def pairUp (f : α → α → α) : List α → List α
  | [] => []
  | [a] => [f a a]
  | a :: b :: t => f a b :: pairUp f t

theorem length_pairUp (f : α → α → α) (l : List α) :
    (pairUp f l).length = (l.length + 1) / 2 := by
  induction l using pairUp.induct with
  | case1 => simp [pairUp]
  | case2 a => simp [pairUp]
  | case3 a b t ih =>
    simp only [pairUp, List.length_cons, ih]
    omega

/-- Levels are formed until one element is left. -/
def reduce (f : α → α → α) : List α → Option α
  | [] => none
  | [a] => some a
  | a :: b :: t => reduce f (f a b :: pairUp f t)
termination_by l => l.length
decreasing_by
  simp only [List.length_cons, length_pairUp]
  omega

/-- The tree that `reduce` folds. -/
def treeOf (l : List α) : Option (BinTree α) := reduce node (l.map leaf)

/-- The leaves of the tree: the list and the repetitions that fill it up. -/
def padded (l : List α) : List α := ((treeOf l).map leaves).getD []

/-- A map that carries `f` to `g` carries the reduction along. -/
theorem pairUp_map {f : α → α → α} {g : β → β → β} {φ : α → β}
    (hφ : ∀ a b, φ (f a b) = g (φ a) (φ b)) (l : List α) :
    pairUp g (l.map φ) = (pairUp f l).map φ := by
  induction l using pairUp.induct with
  | case1 => rfl
  | case2 a => simp [pairUp, hφ]
  | case3 a b t ih => simp [pairUp, hφ, ih]

theorem reduce_map {f : α → α → α} {g : β → β → β} (φ : α → β)
    (hφ : ∀ a b, φ (f a b) = g (φ a) (φ b)) (l : List α) :
    reduce g (l.map φ) = (reduce f l).map φ := by
  induction l using (reduce.induct f) with
  | case1 => simp [reduce]
  | case2 a => simp [reduce]
  | case3 a b t ih =>
    simp only [List.map_cons, reduce] at ih ⊢
    rw [← hφ, pairUp_map hφ]
    exact ih

/-- The reduction of a list is the fold of its tree. -/
theorem reduce_map_fold (f : α → α → α) (l : List α) :
    reduce f l = (treeOf l).map (fold f) := by
  have h := reduce_map (f := node) (g := f) (fold f) (fun _ _ => rfl) (l.map leaf)
  rw [List.map_map] at h
  have hid : l.map (fold f ∘ leaf) = l := by
    conv_rhs => rw [← List.map_id l]
    rfl
  rw [hid] at h
  exact h

theorem treeOf_isSome {l : List α} (hl : l ≠ []) : ∃ t, treeOf l = some t := by
  have hred : ∀ ts : List (BinTree α), ts ≠ [] → ∃ t, reduce node ts = some t := by
    intro ts
    induction ts using (reduce.induct node) with
    | case1 => simp
    | case2 a => simp [reduce]
    | case3 a b t ih =>
      intro _
      rw [reduce]
      exact ih (by simp)
  exact hred _ (by simpa using hl)

/-! ## The padding -/

/-- What one level does to the leaves: they stay in front, and whatever follows
them was among them. -/
theorem leaves_pairUp (ts : List (BinTree α)) :
    ts.flatMap leaves <+: (pairUp node ts).flatMap leaves ∧
    ∀ a ∈ (pairUp node ts).flatMap leaves, a ∈ ts.flatMap leaves := by
  induction ts using pairUp.induct with
  | case1 => simp [pairUp]
  | case2 t => simp [pairUp, leaves]
  | case3 t u ts ih =>
    obtain ⟨hpre, hmem⟩ := ih
    simp only [pairUp, List.flatMap_cons, leaves, List.append_assoc]
    refine ⟨(List.prefix_append_right_inj _).mpr ((List.prefix_append_right_inj _).mpr hpre), ?_⟩
    intro a ha
    simp only [List.mem_append] at ha ⊢
    exact ha.imp_right (Or.imp_right (hmem a))

theorem perfect_pairUp {d : ℕ} {ts : List (BinTree α)} (h : ∀ t ∈ ts, t.Perfect d) :
    ∀ t ∈ pairUp node ts, t.Perfect (d + 1) := by
  induction ts using pairUp.induct with
  | case1 => simp [pairUp]
  | case2 t => simpa [pairUp, BinTree.Perfect] using h
  | case3 t u ts ih =>
    intro v hv
    rcases List.mem_cons.mp hv with rfl | hv
    · exact ⟨h t (by simp), h u (by simp)⟩
    · exact ih (fun w hw => h w (by simp [hw])) v hv

/-- The reduction of perfect trees of one depth is perfect, starts with their
leaves and has no others. -/
theorem reduce_node {d : ℕ} {ts : List (BinTree α)} (h : ∀ t ∈ ts, t.Perfect d) {t : BinTree α}
    (ht : reduce node ts = some t) :
    (∃ e, t.Perfect e) ∧ ts.flatMap leaves <+: t.leaves ∧
    ∀ a ∈ t.leaves, a ∈ ts.flatMap leaves := by
  induction ts using (reduce.induct node) generalizing d with
  | case1 => simp [reduce] at ht
  | case2 u =>
    simp only [reduce, Option.some.injEq] at ht
    subst ht
    exact ⟨⟨d, h _ (by simp)⟩, by simp, by simp⟩
  | case3 u v ts ih =>
    rw [reduce] at ht
    obtain ⟨hperf, hpre, hmem⟩ := ih (perfect_pairUp h) ht
    obtain ⟨hpre', hmem'⟩ := leaves_pairUp (u :: v :: ts)
    exact ⟨hperf, hpre'.trans hpre, fun a ha => hmem' a (hmem a ha)⟩

theorem treeOf_spec {l : List α} {t : BinTree α} (ht : treeOf l = some t) :
    (∃ d, t.Perfect d) ∧ l <+: t.leaves ∧ ∀ a ∈ t.leaves, a ∈ l := by
  have hleaf : ∀ u ∈ l.map leaf, u.Perfect 0 := by
    intro u hu
    obtain ⟨a, -, rfl⟩ := List.mem_map.mp hu
    trivial
  have hflat : (l.map leaf).flatMap leaves = l := by
    rw [List.flatMap_map]
    exact List.flatMap_singleton' l
  have h := reduce_node hleaf ht
  rwa [hflat] at h

theorem padded_of_treeOf {l : List α} {t : BinTree α} (ht : treeOf l = some t) :
    padded l = t.leaves := by
  simp [padded, ht]

@[simp] theorem padded_nil : padded ([] : List α) = [] := by simp [padded, treeOf, reduce]

/-- Padding commutes with a map of the leaves. -/
theorem padded_map {β : Type*} (φ : α → β) (l : List α) :
    padded (l.map φ) = (padded l).map φ := by
  have htree : treeOf (l.map φ) = (treeOf l).map (BinTree.map φ) := by
    have h := reduce_map (f := node) (g := node) (BinTree.map φ) (fun _ _ => rfl) (l.map leaf)
    rw [treeOf, treeOf, ← h, List.map_map, List.map_map]
    rfl
  rw [padded, padded, htree]
  cases treeOf l with
  | none => rfl
  | some t => exact leaves_map φ t

theorem prefix_padded (l : List α) : l <+: padded l := by
  by_cases hl : l = []
  · simp [hl]
  · obtain ⟨t, ht⟩ := treeOf_isSome hl
    rw [padded_of_treeOf ht]
    exact (treeOf_spec ht).2.1

theorem mem_padded {l : List α} {a : α} (h : a ∈ padded l) : a ∈ l := by
  by_cases hl : l = []
  · simp [hl] at h
  · obtain ⟨t, ht⟩ := treeOf_isSome hl
    rw [padded_of_treeOf ht] at h
    exact (treeOf_spec ht).2.2 a h

theorem padded_ne_nil {l : List α} (hl : l ≠ []) : padded l ≠ [] := by
  intro h
  have hpre := prefix_padded l
  rw [h] at hpre
  exact hl (List.prefix_nil.mp hpre)

/-- The tree and its leaves determine each other. -/
theorem padded_eq_iff_treeOf_eq {l l' : List α} :
    padded l = padded l' ↔ treeOf l = treeOf l' := by
  constructor
  · intro h
    by_cases hl : l = []
    · by_cases hl' : l' = []
      · rw [hl, hl']
      · rw [hl, padded_nil] at h
        exact absurd h.symm (padded_ne_nil hl')
    · by_cases hl' : l' = []
      · rw [hl', padded_nil] at h
        exact absurd h (padded_ne_nil hl)
      · obtain ⟨t, ht⟩ := treeOf_isSome hl
        obtain ⟨t', ht'⟩ := treeOf_isSome hl'
        obtain ⟨d, hd⟩ := (treeOf_spec ht).1
        obtain ⟨d', hd'⟩ := (treeOf_spec ht').1
        rw [padded_of_treeOf ht, padded_of_treeOf ht'] at h
        have hlen : 2 ^ d = 2 ^ d' := by rw [← hd.length_leaves, ← hd'.length_leaves, h]
        obtain rfl := Nat.pow_right_injective (le_refl 2) hlen
        rw [ht, ht', hd.eq_of_leaves_eq hd' h]
  · intro h
    rw [padded, padded, h]

theorem eq_of_padded_eq {l l' : List α} (h : padded l = padded l') (hlen : l.length = l'.length) :
    l = l' := by
  have hpre : l <+: padded l' := h ▸ prefix_padded l
  exact List.prefix_of_prefix_length_le hpre (prefix_padded l') (le_of_eq hlen)
    |>.eq_of_length hlen

/-- Without a repetition in the longer list the lists agree: what it has beyond
the shorter one would be a repetition. -/
theorem eq_of_padded_eq_of_nodup {l l' : List α} (h : padded l = padded l')
    (hle : l.length ≤ l'.length) (hnd : l'.Nodup) : l = l' := by
  have hpre : l <+: padded l' := h ▸ prefix_padded l
  obtain ⟨s, rfl⟩ := List.prefix_of_prefix_length_le hpre (prefix_padded l') hle
  cases s with
  | nil => simp
  | cons a s =>
    have ha : a ∈ padded (l ++ a :: s) := (prefix_padded _).subset (by simp)
    rw [← h] at ha
    have hdis := (List.nodup_append.mp hnd).2.2
    exact absurd rfl (hdis a (mem_padded ha) a (by simp))

end MerkleTree
