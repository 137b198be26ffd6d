import Mathlib.Algebra.BigOperators.Group.Finset.Basic
import Mathlib.Algebra.BigOperators.Group.Finset.Piecewise
import Mathlib.Algebra.Order.BigOperators.Group.Finset
import Mathlib.Tactic.Ring

/-!
# Exact account ledgers

A ledger gives every account a balance and a sequence number, both natural
numbers, so no operation overflows. A page is a list of payments followed by a
reward to its beneficiary. `post` applies a page and fails on the first payment
that is out of sequence or not covered.

Results:
1. `unpay_pay`: taking a payment back undoes exactly what it did.
2. `supply_pay`, `supply_post`, `supply_replay`: a payment destroys its fee, a
   page creates its reward and destroys its fees.
3. `replayFits_of_supply`: a small supply is enough for arithmetic that stops at a
   cap to replay pages exactly.
4. `seq_post`, `seq_replay`: no sequence number grows by more than the number
   of payments.
-/

/-- What one account owns: its balance and the sequence number its next payment
must carry. -/
@[ext] structure Holding where
  balance : ℕ
  seq : ℕ
deriving DecidableEq, Repr

/-- A payment of `amount` with a fee that goes to nobody. -/
structure Payment (A : Type*) where
  sender : A
  recipient : A
  amount : ℕ
  fee : ℕ
  seq : ℕ

/-- Payments posted together and the reward paid after them. -/
structure Page (A : Type*) where
  payments : List (Payment A)
  beneficiary : A
  reward : ℕ

/-- A ledger over the accounts `A`. -/
abbrev Ledger (A : Type*) := A → Holding

namespace Ledger

variable {A : Type*} [DecidableEq A]

/-! ## Operations -/

def credit (L : Ledger A) (a : A) (r : ℕ) : Ledger A :=
  Function.update L a ⟨(L a).balance + r, (L a).seq⟩

def withdraw (L : Ledger A) (a : A) (r : ℕ) : Ledger A :=
  Function.update L a ⟨(L a).balance - r, (L a).seq⟩

/-- The sender's side of a payment: amount and fee leave, the sequence number
advances. -/
def charge (L : Ledger A) (p : Payment A) : Ledger A :=
  Function.update L p.sender ⟨(L p.sender).balance - (p.amount + p.fee), (L p.sender).seq + 1⟩

/-- The inverse of `charge`. -/
def refund (L : Ledger A) (p : Payment A) : Ledger A :=
  Function.update L p.sender ⟨(L p.sender).balance + (p.amount + p.fee), (L p.sender).seq - 1⟩

/-- A payment goes through when it is next in its sender's sequence and the
sender can cover amount and fee. -/
def Payable (L : Ledger A) (p : Payment A) : Prop :=
  p.seq = (L p.sender).seq ∧ p.amount + p.fee ≤ (L p.sender).balance

instance (L : Ledger A) (p : Payment A) : Decidable (Payable L p) :=
  inferInstanceAs (Decidable (_ ∧ _))

def pay (L : Ledger A) (p : Payment A) : Option (Ledger A) :=
  if Payable L p then some (credit (charge L p) p.recipient p.amount) else none

def unpay (L : Ledger A) (p : Payment A) : Ledger A :=
  refund (withdraw L p.recipient p.amount) p

def post (L : Ledger A) (P : Page A) : Option (Ledger A) :=
  (P.payments.foldlM pay L).map fun M => credit M P.beneficiary P.reward

/-- The pages of a chain, posted in order. -/
def replay (L : Ledger A) (Ps : List (Page A)) : Option (Ledger A) := Ps.foldlM post L

/-- Pages without payments can always be posted. -/
theorem isSome_replay {L : Ledger A} {Ps : List (Page A)} (h : ∀ P ∈ Ps, P.payments = []) :
    (replay L Ps).isSome := by
  induction Ps generalizing L with
  | nil => rfl
  | cons P Ps ih =>
    have hpost : post L P = some (credit L P.beneficiary P.reward) := by
      rw [post, h P List.mem_cons_self]
      rfl
    rw [replay, List.foldlM_cons, hpost]
    exact ih fun Q hQ => h Q (List.mem_cons_of_mem _ hQ)

/-! ## Undoing -/

@[simp] theorem withdraw_credit (L : Ledger A) (a : A) (r : ℕ) :
    withdraw (credit L a r) a r = L := by
  funext b
  by_cases hb : b = a
  · subst hb
    ext <;> simp [withdraw, credit]
  · simp [withdraw, credit, hb]

theorem refund_charge {L : Ledger A} {p : Payment A} (h : p.amount + p.fee ≤ (L p.sender).balance) :
    refund (charge L p) p = L := by
  funext b
  by_cases hb : b = p.sender
  · subst hb
    ext
    · simp [refund, charge, Nat.sub_add_cancel h]
    · simp [refund, charge]
  · simp [refund, charge, hb]

theorem pay_eq_some {L L' : Ledger A} {p : Payment A} (h : pay L p = some L') :
    Payable L p ∧ L' = credit (charge L p) p.recipient p.amount := by
  unfold pay at h
  split at h
  · next hp => exact ⟨hp, (Option.some.inj h).symm⟩
  · cases h

theorem unpay_pay {L L' : Ledger A} {p : Payment A} (h : pay L p = some L') : unpay L' p = L := by
  obtain ⟨hp, rfl⟩ := pay_eq_some h
  rw [unpay, withdraw_credit, refund_charge hp.2]

theorem post_eq_some {L L' : Ledger A} {P : Page A} (h : post L P = some L') :
    ∃ M, P.payments.foldlM pay L = some M ∧ L' = credit M P.beneficiary P.reward := by
  obtain ⟨M, hM, rfl⟩ := Option.map_eq_some_iff.mp h
  exact ⟨M, hM, rfl⟩

theorem replay_append (L : Ledger A) (Ps Qs : List (Page A)) :
    replay L (Ps ++ Qs) = (replay L Ps).bind fun M => replay M Qs :=
  List.foldlM_append

theorem replay_cons (L : Ledger A) (P : Page A) (Ps : List (Page A)) :
    replay L (P :: Ps) = (post L P).bind fun M => replay M Ps :=
  List.foldlM_cons

/-! ## Caps -/

/-- `P` holds of every element that is reached, in the state that reaches it. -/
def Along {σ ε : Type*} (act : σ → ε → Option σ) (P : σ → ε → Prop) : List ε → σ → Prop
  | [], _ => True
  | e :: es, s => P s e ∧ ∀ s', act s e = some s' → Along act P es s'

/-- No account holds more than `M`. -/
def Bounded (M : ℕ) (L : Ledger A) : Prop := ∀ a, (L a).balance ≤ M

/-- Arithmetic that stops at `M` carries the payment out as `pay` does: it takes it for
covered only if it is, and no account goes above `M`. -/
structure PayFits (M : ℕ) (L : Ledger A) (p : Payment A) : Prop where
  covered : p.seq = (L p.sender).seq → min (p.amount + p.fee) M ≤ (L p.sender).balance →
    p.amount + p.fee ≤ (L p.sender).balance
  bounded : ∀ L', pay L p = some L' → Bounded M L'

/-- The same for a page. -/
structure PostFits (M : ℕ) (L : Ledger A) (P : Page A) : Prop where
  payments : Along pay (PayFits M) P.payments L
  bounded : ∀ L', post L P = some L' → Bounded M L'

/-- The same for pages that are posted in order. -/
def ReplayFits (M : ℕ) (L : Ledger A) (Ps : List (Page A)) : Prop := Along post (PostFits M) Ps L

omit [DecidableEq A] in
theorem along_append {σ ε : Type*} {act : σ → ε → Option σ} {P : σ → ε → Prop} {es fs : List ε}
    {s : σ} : Along act P (es ++ fs) s ↔
      Along act P es s ∧ ∀ s', es.foldlM act s = some s' → Along act P fs s' := by
  induction es generalizing s with
  | nil => simp [Along]
  | cons e es ih =>
    simp only [List.cons_append, Along, List.foldlM_cons, Option.bind_eq_bind,
      Option.bind_eq_some_iff]
    constructor
    · rintro ⟨he, hall⟩
      refine ⟨⟨he, fun t ht => (ih.mp (hall t ht)).1⟩, ?_⟩
      rintro s' ⟨t, ht, hes⟩
      exact (ih.mp (hall t ht)).2 s' hes
    · rintro ⟨⟨he, hall⟩, hrest⟩
      exact ⟨he, fun t ht => ih.mpr ⟨hall t ht, fun s' hes => hrest s' ⟨t, ht, hes⟩⟩⟩

theorem Bounded.replay {M : ℕ} {L L' : Ledger A} {Ps : List (Page A)} (hL : Bounded M L)
    (hfits : ReplayFits M L Ps) (h : replay L Ps = some L') : Bounded M L' := by
  induction Ps generalizing L with
  | nil =>
    simp only [Ledger.replay, List.foldlM_nil, Option.pure_def, Option.some.injEq] at h
    exact h ▸ hL
  | cons P Ps ih =>
    rw [replay_cons] at h
    obtain ⟨M', hM', hPs⟩ := Option.bind_eq_some_iff.mp h
    exact ih (hfits.1.bounded M' hM') (hfits.2 M' hM') hPs

/-! ## Supply -/

section Supply

variable [Fintype A]

/-- The sum of all balances. -/
def supply (L : Ledger A) : ℕ := ∑ a, (L a).balance

omit [DecidableEq A] in
theorem balance_le_supply (L : Ledger A) (a : A) : (L a).balance ≤ supply L :=
  Finset.single_le_sum (f := fun b => (L b).balance) (fun _ _ => Nat.zero_le _)
    (Finset.mem_univ a)

/-- Two different accounts together hold at most the supply. -/
theorem balance_add_le_supply (L : Ledger A) {a b : A} (h : a ≠ b) :
    (L a).balance + (L b).balance ≤ supply L := by
  have hpair : ∑ c ∈ {a, b}, (L c).balance = (L a).balance + (L b).balance := Finset.sum_pair h
  rw [← hpair]
  exact Finset.sum_le_sum_of_subset (Finset.subset_univ _)

/-- Replacing one holding moves the supply by the difference of the balances. -/
theorem supply_update (L : Ledger A) (a : A) (x : Holding) :
    supply (Function.update L a x) + (L a).balance = supply L + x.balance := by
  have hrest : ∀ M : Ledger A, supply M = (M a).balance + ∑ b ∈ Finset.univ.erase a, (M b).balance :=
    fun M => (Finset.add_sum_erase _ (fun b => (M b).balance) (Finset.mem_univ a)).symm
  have hsame : ∑ b ∈ Finset.univ.erase a, (Function.update L a x b).balance
      = ∑ b ∈ Finset.univ.erase a, (L b).balance :=
    Finset.sum_congr rfl fun b hb => by
      rw [Function.update_of_ne (Finset.ne_of_mem_erase hb)]
  rw [hrest (Function.update L a x), hrest L, hsame, Function.update_self]
  ring

theorem supply_credit (L : Ledger A) (a : A) (r : ℕ) : supply (credit L a r) = supply L + r := by
  have h := supply_update L a ⟨(L a).balance + r, (L a).seq⟩
  simp only [credit] at h ⊢
  omega

theorem supply_charge {L : Ledger A} {p : Payment A}
    (hp : p.amount + p.fee ≤ (L p.sender).balance) :
    supply (charge L p) + (p.amount + p.fee) = supply L := by
  have h := supply_update L p.sender
    ⟨(L p.sender).balance - (p.amount + p.fee), (L p.sender).seq + 1⟩
  simp only [charge] at h ⊢
  omega

/-- A payment destroys its fee and nothing else. -/
theorem supply_pay {L L' : Ledger A} {p : Payment A} (h : pay L p = some L') :
    supply L' + p.fee = supply L := by
  obtain ⟨hp, rfl⟩ := pay_eq_some h
  have hcharge := supply_charge hp.2
  rw [supply_credit]
  omega

/-- The fees of a list of payments. -/
def fees (ps : List (Payment A)) : ℕ := (ps.map (·.fee)).sum

theorem supply_payAll {L L' : Ledger A} {ps : List (Payment A)}
    (h : ps.foldlM pay L = some L') : supply L' + fees ps = supply L := by
  induction ps generalizing L with
  | nil =>
    simp only [List.foldlM_nil, Option.pure_def, Option.some.injEq] at h
    simp [h, fees]
  | cons p ps ih =>
    rw [List.foldlM_cons] at h
    obtain ⟨M, hM, hps⟩ := Option.bind_eq_some_iff.mp h
    have hhead := supply_pay hM
    have htail := ih hps
    simp only [fees, List.map_cons, List.sum_cons] at htail ⊢
    omega

theorem supply_post {L L' : Ledger A} {P : Page A} (h : post L P = some L') :
    supply L' + fees P.payments = supply L + P.reward := by
  obtain ⟨M, hM, rfl⟩ := post_eq_some h
  have hpay := supply_payAll hM
  rw [supply_credit]
  omega

/-- Over a run of pages the supply gains the rewards and loses the fees. -/
theorem supply_replay {L L' : Ledger A} {Ps : List (Page A)} (h : replay L Ps = some L') :
    supply L' + (Ps.map fun P => fees P.payments).sum = supply L + (Ps.map (·.reward)).sum := by
  induction Ps generalizing L with
  | nil =>
    simp only [replay, List.foldlM_nil, Option.pure_def, Option.some.injEq] at h
    simp [h]
  | cons P Ps ih =>
    rw [replay_cons] at h
    obtain ⟨M, hM, hPs⟩ := Option.bind_eq_some_iff.mp h
    have hhead := supply_post hM
    have htail := ih hPs
    simp only [List.map_cons, List.sum_cons]
    omega

omit [DecidableEq A] in
/-- A supply below the cap leaves every account below it. -/
theorem bounded_of_supply {M : ℕ} {L : Ledger A} (h : supply L ≤ M) : Bounded M L :=
  fun a => (balance_le_supply L a).trans h

theorem payFits_of_supply {M : ℕ} {L : Ledger A} (h : supply L < M) (p : Payment A) :
    PayFits M L p where
  covered _ hcap := by
    have hbal := balance_le_supply L p.sender
    omega
  bounded L' hpay := by
    have hsup := supply_pay hpay
    exact bounded_of_supply (by omega)

theorem paysFit_of_supply {M : ℕ} {L : Ledger A} (h : supply L < M) (ps : List (Payment A)) :
    Along pay (PayFits M) ps L := by
  induction ps generalizing L with
  | nil => trivial
  | cons p ps ih =>
    refine ⟨payFits_of_supply h p, fun L' hpay => ih ?_⟩
    have hsup := supply_pay hpay
    omega

theorem postFits_of_supply {M : ℕ} {L : Ledger A} {P : Page A} (h : supply L + P.reward < M) :
    PostFits M L P where
  payments := paysFit_of_supply (by omega) P.payments
  bounded L' hpost := by
    have hsup := supply_post hpost
    exact bounded_of_supply (by omega)

/-- What there is and what is still to come stay below the cap together. -/
theorem replayFits_of_supply {M : ℕ} {L : Ledger A} {Ps : List (Page A)}
    (h : supply L + (Ps.map (·.reward)).sum < M) : ReplayFits M L Ps := by
  induction Ps generalizing L with
  | nil => trivial
  | cons P Ps ih =>
    simp only [List.map_cons, List.sum_cons] at h
    refine ⟨postFits_of_supply (by omega), fun L' hpost => ih ?_⟩
    have hsup := supply_post hpost
    omega

end Supply

/-! ## Sequence numbers -/

theorem seq_pay {L L' : Ledger A} {p : Payment A} (h : pay L p = some L') (a : A) :
    (L' a).seq ≤ (L a).seq + 1 := by
  obtain ⟨-, rfl⟩ := pay_eq_some h
  have hcharge : (charge L p a).seq ≤ (L a).seq + 1 := by
    by_cases ha : a = p.sender
    · simp [charge, ha]
    · simp [charge, ha]
  by_cases ha : a = p.recipient
  · subst ha
    simpa [credit] using hcharge
  · simpa [credit, ha] using hcharge

theorem seq_payAll {L L' : Ledger A} {ps : List (Payment A)} (h : ps.foldlM pay L = some L')
    (a : A) : (L' a).seq ≤ (L a).seq + ps.length := by
  induction ps generalizing L with
  | nil =>
    simp only [List.foldlM_nil, Option.pure_def, Option.some.injEq] at h
    simp [h]
  | cons p ps ih =>
    rw [List.foldlM_cons] at h
    obtain ⟨M, hM, hps⟩ := Option.bind_eq_some_iff.mp h
    have hhead := seq_pay hM a
    have htail := ih hps
    simp only [List.length_cons]
    omega

@[simp] theorem seq_credit (L : Ledger A) (a b : A) (r : ℕ) :
    (credit L a r b).seq = (L b).seq := by
  by_cases hb : b = a
  · simp [credit, hb]
  · simp [credit, hb]

theorem seq_post {L L' : Ledger A} {P : Page A} (h : post L P = some L') (a : A) :
    (L' a).seq ≤ (L a).seq + P.payments.length := by
  obtain ⟨M, hM, rfl⟩ := post_eq_some h
  rw [seq_credit]
  exact seq_payAll hM a

theorem seq_replay {L L' : Ledger A} {Ps : List (Page A)} (h : replay L Ps = some L') (a : A) :
    (L' a).seq ≤ (L a).seq + (Ps.map (·.payments.length)).sum := by
  induction Ps generalizing L with
  | nil =>
    simp only [replay, List.foldlM_nil, Option.pure_def, Option.some.injEq] at h
    simp [h]
  | cons P Ps ih =>
    rw [replay_cons] at h
    obtain ⟨M, hM, hPs⟩ := Option.bind_eq_some_iff.mp h
    have hhead := seq_post hM a
    have htail := ih hPs
    simp only [List.map_cons, List.sum_cons]
    omega

end Ledger
