import Mathlib.Tactic.Common

/-!
# Worklists

A loop that takes keys off a queue, handles the items that wait under each key,
and puts the keys that handling an item names at the end of the queue. Items may
be put back while others are handled, so the queue can grow: what bounds the loop
is the number of keys and items together.

Results:
1. `Worklist.loop_run`: the loop in the form of small steps, one item at a time,
   with the list of the items it handles.
2. `Loop.invariant`, `Loop.calls_invariant`: what every step preserves holds at the
   end and whenever an item is handled.
3. `Loop.forall_calls`: if a fault of any step would still show at the end, and
   does not, no step was faulty.
-/

/-- The two operations of a worklist: `take` hands out what waits under a key,
`call` handles an item and may name a key. -/
structure Worklist (σ κ ι : Type*) where
  take : σ → κ → σ × List ι
  call : σ → ι → σ × Option κ
  /-- The number of items that wait. -/
  size : σ → ℕ
  size_take : ∀ s k, size (take s k).1 + (take s k).2.length ≤ size s
  size_call : ∀ s i, size (call s i).1 + (call s i).2.toList.length ≤ size s + 1

namespace Worklist

variable {σ κ ι : Type*} (W : Worklist σ κ ι)

/-- Handles an item; a key it names goes to the end of the queue. -/
def handle (acc : σ × List κ) (i : ι) : σ × List κ :=
  let r := W.call acc.1 i
  (r.1, acc.2 ++ r.2.toList)

/-- Handles the items of a list in order. -/
def handleAll : σ × List κ → List ι → σ × List κ
  | acc, [] => acc
  | acc, i :: items => handleAll (W.handle acc i) items

theorem size_handle (acc : σ × List κ) (i : ι) :
    (W.handle acc i).2.length + W.size (W.handle acc i).1
      ≤ acc.2.length + W.size acc.1 + 1 := by
  have hcall := W.size_call acc.1 i
  simp only [handle, List.length_append]
  omega

theorem size_handleAll (acc : σ × List κ) (items : List ι) :
    (W.handleAll acc items).2.length + W.size (W.handleAll acc items).1
      ≤ acc.2.length + W.size acc.1 + items.length := by
  induction items generalizing acc with
  | nil => simp [handleAll]
  | cons i items ih =>
    have hhead := W.size_handle acc i
    have htail := ih (W.handle acc i)
    rw [handleAll, List.length_cons]
    omega

/-- Handling what waits under a key leaves fewer keys and items. -/
theorem size_pop (s : σ) (k : κ) (queue : List κ) :
    (W.handleAll ((W.take s k).1, queue) (W.take s k).2).2.length +
        W.size (W.handleAll ((W.take s k).1, queue) (W.take s k).2).1
      < (k :: queue).length + W.size s := by
  have hall := W.size_handleAll ((W.take s k).1, queue) (W.take s k).2
  have htake := W.size_take s k
  rw [List.length_cons]
  simp only at hall
  omega

/-- The loop. -/
def run (s : σ) (queue : List κ) : σ :=
  match queue with
  | [] => s
  | k :: queue =>
    let t := W.take s k
    let r := W.handleAll (t.1, queue) t.2
    run r.1 r.2
termination_by queue.length + W.size s
decreasing_by exact W.size_pop s k queue

/-- The items handled by a pass over a list, each with the state before it. -/
def passCalls : σ × List κ → List ι → List (σ × ι)
  | _, [] => []
  | acc, i :: items => (acc.1, i) :: passCalls (W.handle acc i) items

/-- The items the loop handles, each with the state before it. -/
def calls (s : σ) (queue : List κ) : List (σ × ι) :=
  match queue with
  | [] => []
  | k :: queue =>
    let t := W.take s k
    let r := W.handleAll (t.1, queue) t.2
    W.passCalls (t.1, queue) t.2 ++ calls r.1 r.2
termination_by queue.length + W.size s
decreasing_by exact W.size_pop s k queue

/-- `W.Loop s items queue s' cs`: with the items and then the queue still to be
handled, the loop ends in `s'` and handles the items `cs`. -/
inductive Loop : σ → List ι → List κ → σ → List (σ × ι) → Prop
  | done {s : σ} : Loop s [] [] s []
  | pop {s s' : σ} {k : κ} {queue : List κ} {cs : List (σ × ι)} :
      Loop (W.take s k).1 (W.take s k).2 queue s' cs → Loop s [] (k :: queue) s' cs
  | call {s s' : σ} {i : ι} {items : List ι} {queue : List κ} {cs : List (σ × ι)} :
      Loop (W.call s i).1 items (queue ++ (W.call s i).2.toList) s' cs →
      Loop s (i :: items) queue s' ((s, i) :: cs)

variable {W}

/-- A pass over a list of items, before the rest of the loop. -/
theorem Loop.pass {s s' : σ} {queue : List κ} {cs : List (σ × ι)} (items : List ι)
    (h : W.Loop (W.handleAll (s, queue) items).1 [] (W.handleAll (s, queue) items).2 s' cs) :
    W.Loop s items queue s' (W.passCalls (s, queue) items ++ cs) := by
  induction items generalizing s queue with
  | nil => exact h
  | cons i items ih => exact .call (ih h)

/-- The loop in small steps. -/
theorem loop_run (s : σ) (queue : List κ) : W.Loop s [] queue (W.run s queue) (W.calls s queue) := by
  induction s, queue using run.induct W with
  | case1 s =>
    rw [run, calls]
    exact .done
  | case2 s k queue t r ih =>
    rw [run, calls]
    exact .pop (.pass _ ih)

/-- What handling an item and taking a key preserve holds at the end. -/
theorem Loop.invariant {I : σ → List ι → List κ → Prop} {Q : σ × ι → Prop}
    (hcall : ∀ s i items queue, Q (s, i) → I s (i :: items) queue →
      I (W.call s i).1 items (queue ++ (W.call s i).2.toList))
    (hpop : ∀ s k queue, I s [] (k :: queue) → I (W.take s k).1 (W.take s k).2 queue)
    {s s' : σ} {items : List ι} {queue : List κ} {cs : List (σ × ι)}
    (h : W.Loop s items queue s' cs) (hQ : ∀ c ∈ cs, Q c) (hI : I s items queue) : I s' [] [] := by
  induction h with
  | done => exact hI
  | pop _ ih => exact ih hQ (hpop _ _ _ hI)
  | call _ ih =>
    exact ih (fun c hc => hQ c (List.mem_cons_of_mem _ hc))
      (hcall _ _ _ _ (hQ _ List.mem_cons_self) hI)

/-- What every step preserves holds whenever an item is handled. -/
theorem Loop.calls_invariant {I : σ → List ι → List κ → Prop}
    (hcall : ∀ s i items queue, I s (i :: items) queue →
      I (W.call s i).1 items (queue ++ (W.call s i).2.toList))
    (hpop : ∀ s k queue, I s [] (k :: queue) → I (W.take s k).1 (W.take s k).2 queue)
    {s s' : σ} {items : List ι} {queue : List κ} {cs : List (σ × ι)}
    (h : W.Loop s items queue s' cs) (hI : I s items queue) :
    ∀ c ∈ cs, ∃ items queue, I c.1 (c.2 :: items) queue := by
  induction h with
  | done => exact fun c hc => (nomatch hc)
  | pop _ ih => exact ih (hpop _ _ _ hI)
  | @call s s' i items queue cs _ ih =>
    intro c hc
    rcases List.mem_cons.mp hc with rfl | hc
    · exact ⟨items, queue, hI⟩
    · exact ih (hcall _ _ _ _ hI) c hc

/-- A fault `B` that handling an item that is not `Q` brings about, and that nothing
undoes, is there at the end if any item is not `Q`. -/
theorem Loop.forall_calls {J : σ → List κ → Prop} {B : σ → List κ → Prop} {Q : σ × ι → Prop}
    (hcallJ : ∀ s i queue, J s queue → J (W.call s i).1 (queue ++ (W.call s i).2.toList))
    (hpopJ : ∀ s k queue, J s (k :: queue) → J (W.take s k).1 queue)
    (hcallB : ∀ s i queue, J s queue → B s queue ∨ ¬ Q (s, i) →
      B (W.call s i).1 (queue ++ (W.call s i).2.toList))
    (hpopB : ∀ s k queue, J s (k :: queue) → B s (k :: queue) → B (W.take s k).1 queue)
    {s s' : σ} {items : List ι} {queue : List κ} {cs : List (σ × ι)}
    (h : W.Loop s items queue s' cs) (hJ : J s queue) (hend : ¬ B s' []) :
    ¬ B s queue ∧ ∀ c ∈ cs, Q c := by
  induction h with
  | done => exact ⟨hend, fun c hc => nomatch hc⟩
  | pop _ ih =>
    obtain ⟨hB, hQ⟩ := ih (hpopJ _ _ _ hJ) hend
    exact ⟨fun hbad => hB (hpopB _ _ _ hJ hbad), hQ⟩
  | @call s s' i items queue cs _ ih =>
    obtain ⟨hB, hQ⟩ := ih (hcallJ _ _ _ hJ) hend
    refine ⟨fun hbad => hB (hcallB _ _ _ hJ (.inl hbad)), fun c hc => ?_⟩
    rcases List.mem_cons.mp hc with rfl | hc
    · -- otherwise the fault would be there at the end
      by_contra hnot
      exact hB (hcallB _ _ _ hJ (.inr hnot))
    · exact hQ c hc

end Worklist
