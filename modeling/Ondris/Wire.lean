import Ondris.Commitment
import Ondris.Transport

/-!
# What the bytes of a connection say

`serde_json` writes the messages, `write_message` puts lengths in front, and `noise.rs` cuts
the result into frames. Whoever can read the frames finds one sequence of messages in them.

Results:
1. `blockJson_injective`, `Message.toJson_injective`: the JSON of a block and of a message has
   one reading.
2. `wire_determines`: so have the bytes of a connection.
-/

namespace Ondris

open Encoding

/-! ## Blocks -/

/-- The list of transactions and the end of the block. -/
def txsJson (txs : List Transaction) : Bytes :=
  (ascii ",").intercalate (txs.map Transaction.toJson) ++ ascii "]\x7d"

theorem txsJson_cons_cons (tx tx' : Transaction) (txs : List Transaction) :
    txsJson (tx :: tx' :: txs) = tx.toJson ++ (ascii "," ++ txsJson (tx' :: txs)) := by
  unfold txsJson
  simp [List.intercalate]

theorem txsJson_single (tx : Transaction) : txsJson [tx] = tx.toJson ++ ascii "]\x7d" := by
  unfold txsJson
  simp [List.intercalate]

/-- The list goes on after a comma, and otherwise ends. -/
theorem txsJson_injective {txs txs' : List Transaction} (h : txsJson txs = txsJson txs') :
    txs = txs' := by
  have hopen : ∀ (tx : Transaction) txs, txsJson [] ≠ txsJson (tx :: txs) := by
    intro tx txs heq
    cases txs with
    | nil =>
      rw [txsJson_single] at heq
      exact absurd (List.cons.inj heq).1 (by decide)
    | cons tx' txs =>
      rw [txsJson_cons_cons] at heq
      exact absurd (List.cons.inj heq).1 (by decide)
  induction txs generalizing txs' with
  | nil =>
    cases txs' with
    | nil => rfl
    | cons tx' txs' => exact absurd h (hopen tx' txs')
  | cons tx txs ih =>
    cases txs' with
    | nil => exact absurd h.symm (hopen tx txs)
    | cons tx' txs' =>
      cases txs with
      | nil =>
        cases txs' with
        | nil =>
          rw [txsJson_single, txsJson_single] at h
          rw [(toJson_append_inj h).1]
        | cons y ys =>
          rw [txsJson_single, txsJson_cons_cons] at h
          exact absurd (List.cons.inj (toJson_append_inj h).2).1 (by decide)
      | cons x xs =>
        cases txs' with
        | nil =>
          rw [txsJson_single, txsJson_cons_cons] at h
          exact absurd (List.cons.inj (toJson_append_inj h).2).1 (by decide)
        | cons y ys =>
          rw [txsJson_cons_cons, txsJson_cons_cons] at h
          obtain ⟨rfl, hrest⟩ := toJson_append_inj h
          rw [ih (List.append_inj hrest rfl).2]

theorem length_jsonHash (h : Hash256) : (Network.jsonHash h).length = 66 := by
  simp [Network.jsonHash, ascii]

theorem jsonHash_append_inj {hash hash' : Hash256} {r r' : Bytes}
    (h : Network.jsonHash hash ++ r = Network.jsonHash hash' ++ r') : hash = hash' ∧ r = r' := by
  obtain ⟨hquoted, hrest⟩ := List.append_inj h (by rw [length_jsonHash, length_jsonHash])
  have hhex := (List.append_inj (List.append_inj_left' hquoted rfl) rfl).2
  exact ⟨Hash256.asBytes_injective (hexEncode_injective hhex), hrest⟩

theorem headerJson_append_inj {hd hd' : BlockHeader} {r r' : Bytes}
    (h : Network.headerJson hd ++ r = Network.headerJson hd' ++ r') : hd = hd' ∧ r = r' := by
  unfold Network.headerJson at h
  simp only [List.append_assoc] at h
  have hcomma : (44 : UInt8) < 48 ∨ 57 < (44 : UInt8) := by decide
  have hbrace : (125 : UInt8) < 48 ∨ 57 < (125 : UInt8) := by decide
  obtain ⟨-, h⟩ := List.append_inj h rfl
  obtain ⟨hheight, h⟩ := decimal_append_inj hcomma h
  obtain ⟨-, h⟩ := List.append_inj h rfl
  obtain ⟨hprev, h⟩ := jsonHash_append_inj h
  obtain ⟨-, h⟩ := List.append_inj h rfl
  obtain ⟨hroot, h⟩ := jsonHash_append_inj h
  obtain ⟨-, h⟩ := List.append_inj h rfl
  obtain ⟨htime, h⟩ := decimal_append_inj hcomma h
  obtain ⟨-, h⟩ := List.append_inj h rfl
  obtain ⟨hdiff, h⟩ := decimal_append_inj hcomma h
  obtain ⟨-, h⟩ := List.append_inj h rfl
  obtain ⟨hminer, h⟩ := List.append_inj h (by simp [Address.display])
  obtain ⟨-, h⟩ := List.append_inj h rfl
  obtain ⟨hnonce, hrest⟩ := decimal_append_inj hbrace h
  have hminer' := (List.append_inj hminer rfl).2
  refine ⟨?_, hrest⟩
  cases hd
  cases hd'
  simp only at hheight hprev hroot htime hdiff hminer' hnonce
  rw [UInt64.toNat_inj.mp hheight, hprev, hroot, UInt64.toNat_inj.mp htime,
    UInt64.toNat_inj.mp hdiff, Address.asBytes_injective (hexEncode_injective hminer'),
    UInt64.toNat_inj.mp hnonce]

theorem blockJson_injective : Function.Injective Network.blockJson := by
  intro b b' h
  unfold Network.blockJson at h
  simp only [List.append_assoc] at h
  obtain ⟨-, h⟩ := List.append_inj h rfl
  obtain ⟨hheader, h⟩ := headerJson_append_inj h
  obtain ⟨-, h⟩ := List.append_inj h rfl
  have htxs : b.transactions.val = b'.transactions.val := txsJson_injective h
  cases b
  cases b'
  simp only at hheader htxs
  rw [hheader, Subtype.ext htxs]

/-! ## Strings -/

namespace Network

/-- The byte that stands after a backslash, but for `u`. -/
def unescape (e : UInt8) : UInt8 :=
  if e = 98 then 8
  else if e = 116 then 9
  else if e = 110 then 10
  else if e = 102 then 12
  else if e = 114 then 13
  else e

/-- The first byte of an escaped string, and what follows. -/
def readChar : Bytes → Option (UInt8 × Bytes)
  | [] => none
  | c :: s =>
    if c ≠ 92 then some (c, s)
    else match s with
      | [] => none
      | e :: s =>
        if e = 117 then
          (hexDecode ((s.drop 2).take 2)).toOption.bind fun bs => bs.head?.map fun c => (c, s.drop 4)
        else some (unescape e, s)

theorem readChar_escapeByte (c : UInt8) (rest : Bytes) :
    readChar (escapeByte c ++ rest) = some (c, rest) := by
  unfold escapeByte
  split
  · next h => rw [h]; rfl
  split
  · next h => rw [h]; rfl
  split
  · next h => rw [h]; rfl
  split
  · next h => rw [h]; rfl
  split
  · next h => rw [h]; rfl
  split
  · next h => rw [h]; rfl
  split
  · next h => rw [h]; rfl
  split
  · show (hexDecode (hexEncode [c])).toOption.bind (fun bs => bs.head?.map fun c => (c, rest)) = _
    rw [hexDecode_hexEncode]
    rfl
  · exact if_pos ‹¬ c = 92›

theorem escapeByte_append_inj {c c' : UInt8} {r r' : Bytes}
    (h : escapeByte c ++ r = escapeByte c' ++ r') : c = c' ∧ r = r' := by
  have hread := congrArg readChar h
  rw [readChar_escapeByte, readChar_escapeByte] at hread
  exact Prod.mk.inj (Option.some.inj hread)

/-- A quote within a string is escaped. -/
theorem escapeByte_ne_quote (c : UInt8) (r r' : Bytes) : escapeByte c ++ r ≠ 34 :: r' := by
  intro h
  have hread := congrArg readChar h
  rw [readChar_escapeByte] at hread
  obtain rfl : c = 34 := (Prod.mk.inj (Option.some.inj hread)).1
  exact absurd (List.cons.inj h).1 (by decide)

theorem escaped_append_inj {s s' : Bytes} {r r' : Bytes}
    (h : s.flatMap escapeByte ++ 34 :: r = s'.flatMap escapeByte ++ 34 :: r') :
    s = s' ∧ r = r' := by
  induction s generalizing s' with
  | nil =>
    cases s' with
    | nil => exact ⟨rfl, (List.cons.inj h).2⟩
    | cons c' s' =>
      rw [List.flatMap_cons, List.append_assoc] at h
      exact absurd h.symm (escapeByte_ne_quote c' _ _)
  | cons c s ih =>
    rw [List.flatMap_cons, List.append_assoc] at h
    cases s' with
    | nil => exact absurd h (escapeByte_ne_quote c _ _)
    | cons c' s' =>
      rw [List.flatMap_cons, List.append_assoc] at h
      obtain ⟨rfl, hrest⟩ := escapeByte_append_inj h
      obtain ⟨rfl, hr⟩ := ih hrest
      exact ⟨rfl, hr⟩

theorem jsonString_append_inj {s s' : Bytes} {r r' : Bytes}
    (h : jsonString s ++ r = jsonString s' ++ r') : s = s' ∧ r = r' := by
  unfold jsonString at h
  simp only [List.append_assoc] at h
  obtain ⟨-, h⟩ := List.append_inj h rfl
  exact escaped_append_inj h

/-! ## Messages -/

/-- Which variant it is. -/
def Message.kind : Message → ℕ
  | .handshake .. => 0
  | .newBlock _ => 1
  | .newTransaction _ => 2
  | .getBlock _ => 3
  | .blockResponse _ => 4
  | .ping => 5
  | .pong => 6

/-- The variant, from two letters of its name. -/
def kindOf (bs : Bytes) : ℕ :=
  if bs[2]? = some 72 then 0
  else if bs[2]? = some 78 then if bs[5]? = some 66 then 1 else 2
  else if bs[2]? = some 71 then 3
  else if bs[2]? = some 66 then 4
  else if bs[2]? = some 105 then 5
  else 6

theorem kindOf_toJson (msg : Message) : kindOf msg.toJson = msg.kind := by
  cases msg with
  | blockResponse block => cases block <;> rfl
  | _ => rfl

theorem Message.toJson_injective : Function.Injective Message.toJson := by
  intro m m' h
  have hkind : m.kind = m'.kind := by
    rw [← kindOf_toJson, ← kindOf_toJson, h]
  have hcomma : (44 : UInt8) < 48 ∨ 57 < (44 : UInt8) := by decide
  have hbrace : (125 : UInt8) < 48 ∨ 57 < (125 : UInt8) := by decide
  cases m with
  | handshake version network height =>
    cases m' with
    | handshake version' network' height' =>
      unfold Message.toJson at h
      simp only [List.append_assoc] at h
      obtain ⟨-, h⟩ := List.append_inj h rfl
      obtain ⟨hversion, h⟩ := decimal_append_inj hcomma h
      obtain ⟨-, h⟩ := List.append_inj h rfl
      obtain ⟨hnetwork, h⟩ := jsonString_append_inj h
      obtain ⟨-, h⟩ := List.append_inj h rfl
      obtain ⟨hheight, -⟩ := decimal_append_inj hbrace h
      rw [UInt32.toNat_inj.mp hversion, hnetwork, UInt64.toNat_inj.mp hheight]
    | _ => exact absurd hkind (by simp [Message.kind])
  | newBlock block =>
    cases m' with
    | newBlock block' =>
      have hblock := (List.append_inj (List.append_inj_left' h rfl) rfl).2
      rw [blockJson_injective hblock]
    | _ => exact absurd hkind (by simp [Message.kind])
  | newTransaction tx =>
    cases m' with
    | newTransaction tx' =>
      have htx := (List.append_inj (List.append_inj_left' h rfl) rfl).2
      rw [Ondris.toJson_injective htx]
    | _ => exact absurd hkind (by simp [Message.kind])
  | getBlock hash =>
    cases m' with
    | getBlock hash' =>
      unfold Message.toJson at h
      simp only [List.append_assoc] at h
      obtain ⟨-, h⟩ := List.append_inj h rfl
      rw [(jsonHash_append_inj h).1]
    | _ => exact absurd hkind (by simp [Message.kind])
  | blockResponse block =>
    cases m' with
    | blockResponse block' =>
      have hnull : ∀ b, Message.toJson (.blockResponse none)
          ≠ Message.toJson (.blockResponse (some b)) := fun b heq => by
        have hletter := congrArg (·[17]?) heq
        exact absurd (Option.some.inj hletter) (by decide)
      cases block with
      | none =>
        cases block' with
        | none => rfl
        | some b' => exact absurd h (hnull b')
      | some b =>
        cases block' with
        | none => exact absurd h.symm (hnull b)
        | some b' =>
          have hblock := (List.append_inj (List.append_inj_left' h rfl) rfl).2
          rw [blockJson_injective hblock]
    | _ => exact absurd hkind (by simp [Message.kind])
  | ping =>
    cases m' with
    | ping => rfl
    | _ => exact absurd hkind (by simp [Message.kind])
  | pong =>
    cases m' with
    | pong => rfl
    | _ => exact absurd hkind (by simp [Message.kind])

/-! ## Connections -/

variable {S : NoiseSession}

/-- Frames have one reading: each gives its own length, and decrypts to its chunk. -/
theorem frames_prefix (hS : S.Lawful) {i : ℕ} {cs cs' : List Bytes}
    (hcs : ∀ c ∈ cs, c.length ≤ maxNoisePlaintext) (hcs' : ∀ c ∈ cs', c.length ≤ maxNoisePlaintext)
    (h : frames S i cs <+: frames S i cs') : cs <+: cs' := by
  have hfits : ∀ (i : ℕ) (c : Bytes), c.length ≤ maxNoisePlaintext →
      (S.encrypt i c).length < 2 ^ 16 := by
    intro i c hc
    rw [hS.length_encrypt i c hc]
    unfold maxNoisePlaintext at hc
    omega
  induction cs generalizing i cs' with
  | nil => exact List.nil_prefix
  | cons c cs ih =>
    obtain ⟨rest, h⟩ := h
    have hc := hcs c List.mem_cons_self
    cases cs' with
    | nil =>
      have hlen := congrArg List.length h
      simp [frames, writeFrame] at hlen
    | cons c' cs' =>
      have hc' := hcs' c' List.mem_cons_self
      rw [frames, frames, List.append_assoc] at h
      have hread := congrArg readFrame h
      rw [readFrame_writeFrame (hfits i c hc), readFrame_writeFrame (hfits i c' hc')] at hread
      obtain ⟨hframe, hrest⟩ := Prod.mk.inj (Except.ok.inj hread)
      have hchunk : some c = some c' := by
        rw [← hS.decrypt_encrypt i c hc, hframe, hS.decrypt_encrypt i c' hc']
      obtain rfl : c = c' := Option.some.inj hchunk
      have htail := ih (fun d hd => hcs d (List.mem_cons_of_mem c hd))
        (fun d hd => hcs' d (List.mem_cons_of_mem c hd)) ⟨rest, hrest⟩
      exact (List.prefix_cons_inj c).mpr htail

/-- The length in front of a message marks its end. -/
theorem framed_append_inj {msg msg' : Message} {r r' : Bytes} (hfits : msg.toJson.length < 2 ^ 32)
    (hfits' : msg'.toJson.length < 2 ^ 32) (h : msg.framed ++ r = msg'.framed ++ r') :
    msg = msg' ∧ r = r' := by
  unfold Message.framed at h
  rw [List.append_assoc, List.append_assoc] at h
  obtain ⟨hhead, h⟩ := List.append_inj h (by rw [length_beBytes, length_beBytes])
  have hlen := congrArg beNat hhead
  rw [Nat.mod_eq_of_lt hfits, Nat.mod_eq_of_lt hfits', beNat_beBytes hfits,
    beNat_beBytes hfits'] at hlen
  obtain ⟨hjson, hrest⟩ := List.append_inj h hlen
  exact ⟨Message.toJson_injective hjson, hrest⟩

theorem framed_prefix {msgs msgs' : List Message}
    (hfits : ∀ msg ∈ msgs, msg.toJson.length < 2 ^ 32)
    (hfits' : ∀ msg ∈ msgs', msg.toJson.length < 2 ^ 32)
    (h : msgs.flatMap Message.framed <+: msgs'.flatMap Message.framed) : msgs <+: msgs' := by
  induction msgs generalizing msgs' with
  | nil => exact List.nil_prefix
  | cons msg msgs ih =>
    obtain ⟨rest, h⟩ := h
    cases msgs' with
    | nil =>
      have hlen := congrArg List.length h
      simp [Message.framed] at hlen
    | cons msg' msgs' =>
      rw [List.flatMap_cons, List.flatMap_cons, List.append_assoc] at h
      obtain ⟨rfl, hrest⟩ := framed_append_inj (hfits msg List.mem_cons_self)
        (hfits' msg' List.mem_cons_self) h
      have htail := ih (fun m hm => hfits m (List.mem_cons_of_mem msg hm))
        (fun m hm => hfits' m (List.mem_cons_of_mem msg hm)) ⟨rest, hrest⟩
      exact (List.prefix_cons_inj msg).mpr htail

/-- What is written right after the handshake. -/
theorem written_writeMessages (S : NoiseSession) (msgs : List Message) :
    (EncryptedWriter.start.writeMessages S msgs).written
      = frames S 0 (chunksOf (msgs.map Message.framed)) := by
  rw [writeMessages_eq, writeAlls_eq]
  rfl

/-- **The bytes of a connection determine its messages.** What is written for some messages
begins what is written for others exactly if the messages do. -/
theorem wire_determines (hS : S.Lawful) {msgs msgs' : List Message}
    (hfits : ∀ msg ∈ msgs, msg.toJson.length < 2 ^ 32)
    (hfits' : ∀ msg ∈ msgs', msg.toJson.length < 2 ^ 32) :
    (EncryptedWriter.start.writeMessages S msgs).written
      <+: (EncryptedWriter.start.writeMessages S msgs').written ↔ msgs <+: msgs' := by
  rw [written_writeMessages, written_writeMessages]
  constructor
  · intro h
    obtain ⟨cs, hcs⟩ := frames_prefix hS (fun c hc => (bound_of_mem_chunksOf hc).2)
      (fun c hc => (bound_of_mem_chunksOf hc).2) h
    refine framed_prefix hfits hfits' ⟨cs.flatten, ?_⟩
    calc msgs.flatMap Message.framed ++ cs.flatten
        = (chunksOf (msgs.map Message.framed) ++ cs).flatten := by
          rw [List.flatten_append, flatten_chunksOf, List.flatMap_def]
      _ = msgs'.flatMap Message.framed := by rw [hcs, flatten_chunksOf, List.flatMap_def]
  · rintro ⟨more, rfl⟩
    have hchunks : chunksOf ((msgs ++ more).map Message.framed)
        = chunksOf (msgs.map Message.framed) ++ chunksOf (more.map Message.framed) := by
      rw [List.map_append]
      exact List.flatMap_append
    rw [hchunks, frames_append]
    exact List.prefix_append _ _

/-- A block with three transactions, and nothing or a pong after it. -/
theorem wire_determines_block :
    (EncryptedWriter.start.writeMessages plainSession [.newBlock threeTxs]).written
      <+: (EncryptedWriter.start.writeMessages plainSession [.newBlock threeTxs, .pong]).written ↔
    [Message.newBlock threeTxs] <+: [.newBlock threeTxs, .pong] :=
  wire_determines plainSession_lawful (by decide +kernel) (by decide +kernel)

end Network

end Ondris
