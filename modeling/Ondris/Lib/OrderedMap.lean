import Mathlib.Data.List.Basic
import Mathlib.Logic.Function.Basic
import Mathlib.Order.Defs.Unbundled
import Mathlib.Tactic.Common

/-!
# Maps kept in the order of their keys

A map is the list of its entries in ascending order, which is how an iteration gives them. An
insertion goes before the first greater key.

Results:
1. `ordered_insertEntry`: an insertion keeps the order.
2. `get_insert`, `get_remove`: what is found after a change.
3. `Encodes.insert`, `Encodes.remove`: a map of encoded entries follows the function that
   it encodes.
-/

/-- A map with its entries in the order of their keys, each key once. -/
structure OrderedMap (κ β : Type*) [LT κ] where
  entries : List (κ × β)
  ordered : entries.Pairwise fun e f => e.1 < f.1

namespace OrderedMap

variable {κ β : Type*} [DecidableEq κ] [LT κ] [DecidableLT κ]

/-! ## Entries -/

/-- The value of the first entry under a key. -/
def find (k : κ) : List (κ × β) → Option β
  | [] => none
  | e :: es => if k = e.1 then some e.2 else find k es

/-- An entry under the same key is overwritten. -/
def insertEntry (k : κ) (v : β) : List (κ × β) → List (κ × β)
  | [] => [(k, v)]
  | e :: es =>
    if k = e.1 then (k, v) :: es
    else if k < e.1 then (k, v) :: e :: es
    else e :: insertEntry k v es

def removeEntry (k : κ) (es : List (κ × β)) : List (κ × β) := es.filter fun e => e.1 ≠ k

theorem mem_insertEntry {k : κ} {v : β} {e : κ × β} {es : List (κ × β)}
    (he : e ∈ insertEntry k v es) : e = (k, v) ∨ e ∈ es := by
  induction es with
  | nil => exact .inl (List.mem_singleton.mp he)
  | cons f es ih =>
    unfold insertEntry at he
    split at he
    · exact (List.mem_cons.mp he).imp_right (List.mem_cons_of_mem f)
    · split at he
      · exact List.mem_cons.mp he
      · rcases List.mem_cons.mp he with rfl | he
        · exact .inr List.mem_cons_self
        · exact (ih he).imp_right (List.mem_cons_of_mem f)

theorem ordered_insertEntry [IsTrans κ (· < ·)] [Std.Trichotomous (fun a b : κ => a < b)] {k : κ}
    {v : β} {es : List (κ × β)} (h : es.Pairwise fun e f => e.1 < f.1) :
    (insertEntry k v es).Pairwise fun e f => e.1 < f.1 := by
  induction es with
  | nil => exact List.pairwise_singleton _ _
  | cons e es ih =>
    obtain ⟨hall, hes⟩ := List.pairwise_cons.mp h
    unfold insertEntry
    split
    · next heq =>
      exact List.pairwise_cons.mpr ⟨fun f hf => heq ▸ hall f hf, hes⟩
    · next hne =>
      split
      · next hlt =>
        refine List.pairwise_cons.mpr ⟨fun f hf => ?_, h⟩
        rcases List.mem_cons.mp hf with rfl | hf
        · exact hlt
        · exact IsTrans.trans k e.1 f.1 hlt (hall f hf)
      · next hge =>
        have hgt : e.1 < k := by
          by_contra hle
          exact hne (Std.Trichotomous.trichotomous (r := fun a b : κ => a < b) k e.1 hge hle)
        refine List.pairwise_cons.mpr ⟨fun f hf => ?_, ih hes⟩
        rcases mem_insertEntry hf with rfl | hf
        · exact hgt
        · exact hall f hf

omit [LT κ] [DecidableLT κ] in
theorem find_cons (k : κ) (e : κ × β) (es : List (κ × β)) :
    find k (e :: es) = if k = e.1 then some e.2 else find k es := rfl

theorem find_insertEntry (k k' : κ) (v : β) (es : List (κ × β)) :
    find k' (insertEntry k v es) = if k' = k then some v else find k' es := by
  induction es with
  | nil => rfl
  | cons e es ih =>
    unfold insertEntry
    split
    · next heq =>
      subst heq
      rw [find_cons, find_cons]
      split <;> rfl
    · next hne =>
      split
      · rfl
      · rw [find_cons, find_cons, ih]
        by_cases hk : k' = e.1
        · rw [if_pos hk, if_neg fun h => hne (h.symm.trans hk), if_pos hk]
        · rw [if_neg hk, if_neg hk]

omit [LT κ] [DecidableLT κ] in
theorem find_removeEntry (k k' : κ) (es : List (κ × β)) :
    find k' (removeEntry k es) = if k' = k then none else find k' es := by
  induction es with
  | nil => exact (ite_self none).symm
  | cons e es ih =>
    unfold removeEntry at ih ⊢
    rw [List.filter_cons]
    split
    · next hne =>
      rw [find_cons, find_cons, ih]
      by_cases hk : k' = e.1
      · rw [if_pos hk, if_neg fun h => of_decide_eq_true hne (hk.symm.trans h), if_pos hk]
      · rw [if_neg hk, if_neg hk]
    · next heq =>
      have hkey : e.1 = k := by simpa using heq
      rw [ih, find_cons, hkey]
      split <;> rfl

/-! ## Operations -/

def empty : OrderedMap κ β := ⟨[], .nil⟩

def get (k : κ) (m : OrderedMap κ β) : Option β := find k m.entries

def remove (k : κ) (m : OrderedMap κ β) : OrderedMap κ β :=
  ⟨removeEntry k m.entries, m.ordered.filter _⟩

variable [IsTrans κ (· < ·)] [Std.Trichotomous (fun a b : κ => a < b)]

def insert (k : κ) (v : β) (m : OrderedMap κ β) : OrderedMap κ β :=
  ⟨insertEntry k v m.entries, ordered_insertEntry m.ordered⟩

theorem get_insert (m : OrderedMap κ β) (k k' : κ) (v : β) :
    (m.insert k v).get k' = if k' = k then some v else m.get k' :=
  find_insertEntry k k' v m.entries

omit [DecidableLT κ] [IsTrans κ (· < ·)] [Std.Trichotomous (fun a b : κ => a < b)] in
theorem get_remove (m : OrderedMap κ β) (k k' : κ) :
    (m.remove k).get k' = if k' = k then none else m.get k' :=
  find_removeEntry k k' m.entries

/-! ## Encoded entries -/

section Encode

variable {α γ : Type*} {key : α → κ} {value : γ → β}

/-- The map holds what `f` gives, with keys and values encoded. -/
def Encodes (key : α → κ) (value : γ → β) (f : α → Option γ) (m : OrderedMap κ β) : Prop :=
  ∀ a, m.get (key a) = (f a).map value

omit [DecidableLT κ] [IsTrans κ (· < ·)] [Std.Trichotomous (fun a b : κ => a < b)] in
theorem encodes_empty : Encodes key value (fun _ => none) (empty : OrderedMap κ β) := fun _ => rfl

variable [DecidableEq α] {f : α → Option γ} {m : OrderedMap κ β}

theorem Encodes.insert (hkey : Function.Injective key) (h : Encodes key value f m) (a : α) (v : γ) :
    Encodes key value (Function.update f a (some v)) (m.insert (key a) (value v)) := by
  intro b
  rw [get_insert]
  by_cases hb : b = a
  · rw [hb, if_pos rfl, Function.update_self, Option.map_some]
  · rw [if_neg (hkey.ne hb), Function.update_of_ne hb, h b]

omit [DecidableLT κ] [IsTrans κ (· < ·)] [Std.Trichotomous (fun a b : κ => a < b)] in
theorem Encodes.remove (hkey : Function.Injective key) (h : Encodes key value f m) (a : α) :
    Encodes key value (Function.update f a none) (m.remove (key a)) := by
  intro b
  rw [get_remove]
  by_cases hb : b = a
  · rw [hb, if_pos rfl, Function.update_self, Option.map_none]
  · rw [if_neg (hkey.ne hb), Function.update_of_ne hb, h b]

end Encode

end OrderedMap
