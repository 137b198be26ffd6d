import Mathlib.Data.Set.Insert
import Mathlib.Logic.Relation
import Ondris.Lib.Machine

/-!
# Flooding

Nodes that keep every item they see and pass it on when they see it for the first time,
over links that deliver in order. Items depend on other items; a node takes an item in of
its own only when it has what the item depends on.

Results:
1. `Ordered.append`: an item may be put at the end of a link when what it depends on is
   at the other side or on its way there.
2. `reach_inv`: on every link each item comes after what it depends on, and everything a
   node has is at its neighbours or on its way there.
3. `Inv.ready`, `Inv.agree`: an item that arrives finds what it depends on, and once the
   links are empty connected nodes have the same items.
-/

namespace Flooding

/-! ## Definitions -/

structure State (V ι : Type*) where
  has : V → Set ι
  /-- What is on its way from one node to another, oldest first. -/
  queue : V → V → List ι

inductive Input (V ι : Type*)
  | publish (v : V) (i : ι)
  | deliver (v w : V)

section Machine

variable {V ι : Type*} [DecidableEq V] (dep : ι → ι → Prop) (copies : V → V → ℕ)

/-- The node takes the item in and passes it on, in as many copies as it has links. -/
def State.take (s : State V ι) (v : V) (i : ι) : State V ι where
  has := Function.update s.has v (insert i (s.has v))
  queue := Function.update s.queue v fun w => s.queue v w ++ List.replicate (copies v w) i

/-- The oldest item of a link is gone. -/
def State.pop (s : State V ι) (v w : V) : State V ι :=
  { s with queue := Function.update s.queue v (Function.update (s.queue v) w (s.queue v w).tail) }

open Classical in
/-- The nodes start with the same items, all that these depend on, and nothing on its
way. -/
noncomputable def machine : Machine (State V ι) (Input V ι) Unit where
  init s := (∀ v w, s.has v = s.has w) ∧ (∀ v w, s.queue v w = []) ∧
    ∀ v, ∀ i ∈ s.has v, ∀ d, dep i d → d ∈ s.has v
  step
    | s, .publish v i => if i ∈ s.has v then s else s.take copies v i
    | s, .deliver v w =>
      match s.queue v w with
      | [] => s
      | i :: _ => if i ∈ s.has w then s.pop v w else (s.pop v w).take copies w i
  out _ _ := ()

end Machine

section Invariant

variable {V ι : Type*} (dep : ι → ι → Prop)

/-- The node has what the item depends on. -/
def Allowed (s : State V ι) : Input V ι → Prop
  | .publish v i => ∀ d, dep i d → d ∈ s.has v
  | .deliver _ _ => True

/-- Every item of the list comes after what it depends on, for a reader who knows `known`. -/
def Ordered : Set ι → List ι → Prop
  | _, [] => True
  | known, i :: q => (∀ d, dep i d → d ∈ known) ∧ Ordered (insert i known) q

structure Inv (copies : V → V → ℕ) (s : State V ι) : Prop where
  closed : ∀ v, ∀ i ∈ s.has v, ∀ d, dep i d → d ∈ s.has v
  ordered : ∀ v w, Ordered dep (s.has w) (s.queue v w)
  covered : ∀ v w, 0 < copies v w → ∀ i ∈ s.has v, i ∈ s.has w ∨ i ∈ s.queue v w

end Invariant

variable {V ι : Type*} {dep : ι → ι → Prop} {copies : V → V → ℕ} {s : State V ι}

/-! ## Links in order -/

theorem Ordered.mono {known known' : Set ι} (hsub : known ⊆ known') {q : List ι}
    (h : Ordered dep known q) : Ordered dep known' q := by
  induction q generalizing known known' with
  | nil => trivial
  | cons i q ih => exact ⟨fun d hd => hsub (h.1 d hd), ih (Set.insert_subset_insert hsub) h.2⟩

/-- An item goes to the end when what it depends on is known or comes before. -/
theorem Ordered.append {known : Set ι} {q : List ι} {i : ι} (h : Ordered dep known q)
    (hi : ∀ d, dep i d → d ∈ known ∨ d ∈ q) : Ordered dep known (q ++ [i]) := by
  induction q generalizing known with
  | nil => exact ⟨fun d hd => (hi d hd).resolve_right List.not_mem_nil, trivial⟩
  | cons j q ih =>
    refine ⟨h.1, ih h.2 fun d hd => ?_⟩
    rcases hi d hd with hd | hd
    · exact .inl (Set.mem_insert_of_mem j hd)
    · rcases List.mem_cons.mp hd with rfl | hd
      · exact .inl (Set.mem_insert d known)
      · exact .inr hd

theorem Ordered.append_replicate {known : Set ι} {q : List ι} {i : ι} (h : Ordered dep known q)
    (n : ℕ) (hi : 0 < n → ∀ d, dep i d → d ∈ known ∨ d ∈ q) :
    Ordered dep known (q ++ List.replicate n i) := by
  induction n with
  | zero => rwa [List.replicate_zero, List.append_nil]
  | succ n ih =>
    rw [List.replicate_succ', ← List.append_assoc]
    refine (ih fun _ => hi (Nat.succ_pos n)).append fun d hd => ?_
    rcases hi (Nat.succ_pos n) d hd with hd | hd
    · exact .inl hd
    · exact .inr (List.mem_append_left _ hd)

/-! ## What the invariant gives -/

/-- An item that arrives finds what it depends on. -/
theorem Inv.ready (h : Inv dep copies s) {v w : V} {i : ι} {q : List ι} (hq : s.queue v w = i :: q)
    {d : ι} (hd : dep i d) : d ∈ s.has w := by
  have hordered := h.ordered v w
  rw [hq] at hordered
  exact hordered.1 d hd

/-- Once the links are empty, what a node has every node has that it is connected to. -/
theorem Inv.agree (h : Inv dep copies s) (hempty : ∀ v w, s.queue v w = [])
    (hsymm : ∀ v w, 0 < copies v w → 0 < copies w v) {v w : V}
    (hpath : Relation.ReflTransGen (fun v w => 0 < copies v w) v w) : s.has v = s.has w := by
  have hsub : ∀ v w, 0 < copies v w → s.has v ⊆ s.has w := by
    intro v w hpos i hi
    rcases h.covered v w hpos i hi with hi | hi
    · exact hi
    · rw [hempty] at hi
      cases hi
  induction hpath with
  | refl => rfl
  | tail _ hlink ih => rw [ih, Set.Subset.antisymm (hsub _ _ hlink) (hsub _ _ (hsymm _ _ hlink))]

/-! ## Steps -/

variable [DecidableEq V]

theorem has_take_self (s : State V ι) (v : V) (i : ι) :
    (s.take copies v i).has v = insert i (s.has v) := Function.update_self ..

theorem has_take_of_ne (s : State V ι) {v w : V} (hw : w ≠ v) (i : ι) :
    (s.take copies v i).has w = s.has w := Function.update_of_ne hw ..

theorem queue_take_self (s : State V ι) (v w : V) (i : ι) :
    (s.take copies v i).queue v w = s.queue v w ++ List.replicate (copies v w) i := by
  show Function.update s.queue v _ v w = _
  rw [Function.update_self]

theorem queue_take_of_ne (s : State V ι) {v w : V} (hw : w ≠ v) (x : V) (i : ι) :
    (s.take copies v i).queue w x = s.queue w x := congrFun (Function.update_of_ne hw ..) x

theorem queue_pop {v w : V} {i : ι} {q : List ι} (hq : s.queue v w = i :: q) (x y : V) :
    (s.pop v w).queue x y = if x = v ∧ y = w then q else s.queue x y := by
  show Function.update s.queue v (Function.update (s.queue v) w (s.queue v w).tail) x y = _
  by_cases hx : x = v
  · subst hx
    rw [Function.update_self]
    by_cases hy : y = w
    · subst hy
      rw [Function.update_self, hq, if_pos ⟨rfl, rfl⟩, List.tail_cons]
    · rw [Function.update_of_ne hy, if_neg fun h => hy h.2]
  · rw [Function.update_of_ne hx, if_neg fun h => hx h.1]

/-- An item that is taken in goes to the end of links, so the oldest may go before or
after. -/
theorem take_pop {v w : V} {i : ι} {q : List ι} (hq : s.queue v w = i :: q) (u : V) (j : ι) :
    (s.pop v w).take copies u j = (s.take copies u j).pop v w := by
  have hlink : (s.take copies u j).queue v w
      = i :: (q ++ if v = u then List.replicate (copies u w) j else []) := by
    by_cases hu : v = u
    · subst hu
      rw [queue_take_self, hq, if_pos rfl, List.cons_append]
    · rw [queue_take_of_ne s hu, hq, if_neg hu, List.append_nil]
  have hqueue : ((s.pop v w).take copies u j).queue = ((s.take copies u j).pop v w).queue := by
    funext x y
    rw [queue_pop hlink]
    by_cases hx : x = u
    · subst hx
      rw [queue_take_self, queue_take_self, queue_pop hq]
      split
      · next heq => rw [if_pos heq.1.symm, heq.2]
      · rfl
    · rw [queue_take_of_ne _ hx, queue_take_of_ne s hx, queue_pop hq]
      split
      · next heq =>
        rw [if_neg fun h => hx (heq.1.trans h), List.append_nil]
      · rfl
  rw [State.mk.injEq]
  exact ⟨rfl, hqueue⟩

theorem mem_has_take {v w : V} {i j : ι} (h : j ∈ s.has w) : j ∈ (s.take copies v i).has w := by
  by_cases hw : w = v
  · subst hw
    rw [has_take_self]
    exact Set.mem_insert_of_mem i h
  · rwa [has_take_of_ne s hw]

/-- A node may take in an item when it has what the item depends on. -/
theorem Inv.take (h : Inv dep copies s) {v : V} {i : ι} (hi : ∀ d, dep i d → d ∈ s.has v) :
    Inv dep copies (s.take copies v i) where
  closed w j hj d hd := by
    refine mem_has_take ?_
    by_cases hw : w = v
    · subst hw
      rw [has_take_self] at hj
      rcases Set.mem_insert_iff.mp hj with rfl | hj
      · exact hi d hd
      · exact h.closed w j hj d hd
    · rw [has_take_of_ne s hw] at hj
      exact h.closed w j hj d hd
  ordered w x := by
    have hold : Ordered dep ((s.take copies v i).has x) (s.queue w x) :=
      (h.ordered w x).mono fun j hj => mem_has_take hj
    by_cases hw : w = v
    · subst hw
      rw [queue_take_self]
      refine hold.append_replicate _ fun hpos d hd => ?_
      rcases h.covered w x hpos d (hi d hd) with hd | hd
      · exact .inl (mem_has_take hd)
      · exact .inr hd
    · rwa [queue_take_of_ne s hw]
  covered w x hpos j hj := by
    have hold : j ∈ s.has w → j ∈ (s.take copies v i).has x ∨ j ∈ s.queue w x :=
      fun hj => (h.covered w x hpos j hj).imp_left mem_has_take
    by_cases hw : w = v
    · subst hw
      rw [queue_take_self, List.mem_append]
      rw [has_take_self] at hj
      rcases Set.mem_insert_iff.mp hj with rfl | hj
      · exact .inr (.inr (List.mem_replicate.mpr ⟨hpos.ne', rfl⟩))
      · exact (hold hj).imp_right .inl
    · rw [queue_take_of_ne s hw]
      rw [has_take_of_ne s hw] at hj
      exact hold hj

/-- An item that the other side has can go. -/
theorem Inv.pop (h : Inv dep copies s) {v w : V} {i : ι} {q : List ι} (hq : s.queue v w = i :: q)
    (hi : i ∈ s.has w) : Inv dep copies (s.pop v w) where
  closed := h.closed
  ordered x y := by
    rw [queue_pop hq]
    split
    · next heq =>
      obtain ⟨rfl, rfl⟩ := heq
      have hordered := h.ordered x y
      rw [hq] at hordered
      have hrest := hordered.2
      rwa [Set.insert_eq_of_mem hi] at hrest
    · exact h.ordered x y
  covered x y hpos j hj := by
    have hold := h.covered x y hpos j hj
    rw [queue_pop hq]
    split
    · next heq =>
      obtain ⟨rfl, rfl⟩ := heq
      rw [hq, List.mem_cons] at hold
      rcases hold with hold | rfl | hold
      · exact .inl hold
      · exact .inl hi
      · exact .inr hold
    · exact hold

theorem step_publish {v : V} {i : ι} (hi : i ∉ s.has v) :
    (machine dep copies).step s (.publish v i) = s.take copies v i := if_neg hi

theorem step_deliver_known {v w : V} {i : ι} {q : List ι} (hq : s.queue v w = i :: q)
    (hi : i ∈ s.has w) : (machine dep copies).step s (.deliver v w) = s.pop v w := by
  simp only [machine, hq, if_pos hi]

theorem step_deliver_new {v w : V} {i : ι} {q : List ι} (hq : s.queue v w = i :: q)
    (hi : i ∉ s.has w) :
    (machine dep copies).step s (.deliver v w) = (s.pop v w).take copies w i := by
  simp only [machine, hq, if_neg hi]

theorem Inv.step (h : Inv dep copies s) {i : Input V ι} (hi : Allowed dep s i) :
    Inv dep copies ((machine dep copies).step s i) := by
  cases i with
  | publish v i =>
    by_cases hmem : i ∈ s.has v
    · have hstep : (machine dep copies).step s (.publish v i) = s := if_pos hmem
      rwa [hstep]
    · rw [step_publish hmem]
      exact h.take hi
  | deliver v w =>
    cases hq : s.queue v w with
    | nil =>
      have hstep : (machine dep copies).step s (.deliver v w) = s := by
        simp only [machine, hq]
      rwa [hstep]
    | cons i q =>
      by_cases hmem : i ∈ s.has w
      · rw [step_deliver_known hq hmem]
        exact h.pop hq hmem
      · rw [step_deliver_new hq hmem, take_pop hq]
        have htake := h.take fun d hd => h.ready hq hd
        have hself : i ∈ (s.take copies w i).has w := by
          rw [has_take_self]
          exact Set.mem_insert i _
        by_cases hv : v = w
        · subst hv
          refine htake.pop (q := q ++ List.replicate (copies v v) i) ?_ hself
          rw [queue_take_self, hq, List.cons_append]
        · refine htake.pop (q := q) ?_ hself
          rw [queue_take_of_ne s hv, hq]

/-- The invariant of all runs in which nodes publish what they have the dependencies of. -/
theorem reach_inv (hs : (machine dep copies).Reach (Allowed dep) s) : Inv dep copies s := by
  refine Machine.Reach.invariant (fun s hinit => ?_) (fun s i _ hi ih => ih.step hi) hs
  obtain ⟨hsame, hempty, hclosed⟩ := hinit
  refine ⟨hclosed, fun v w => ?_, fun v w _ i hi => .inl ?_⟩
  · rw [hempty v w]
    trivial
  · rwa [hsame w v]

end Flooding
