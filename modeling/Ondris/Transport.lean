import Mathlib.Data.List.SplitLengths
import Ondris.Lib.Chunks
import Ondris.Block

/-!
# Peer messages on the wire

`write_message` and `read_message` of `ondris-network` over the encrypted stream of
`noise.rs`. A message is JSON under a 4-byte length; this plaintext goes out in
chunks, each as one ciphertext frame under a 2-byte length. The Noise session and the
JSON parser are parameters. A stream is the list of the bytes that TCP delivers, in
order: a read that would wait for more bytes finds the end of the stream.

Results:
1. `readExact_holds`: reads do not see the frames.
2. `stream_independent`: neither do they see how the bytes were cut into writes and reads.
3. `readExact_deliver`: a read does not depend on what arrives after its last frame.
4. `transport_lossless`: messages of at most 64 MiB arrive as they were sent.
5. `not_lossless_large`: a larger one is sent and then refused.
-/

namespace Ondris

namespace Network

open Encoding Chunks

/-! ## Messages -/

inductive Message
  | handshake (version : UInt32) (network : Bytes) (height : UInt64)
  | newBlock (block : Block)
  | newTransaction (tx : Transaction)
  | getBlock (hash : Hash256)
  | blockResponse (block : Option Block)
  | ping
  | pong
deriving DecidableEq

/-- One byte of a JSON string: quotes, backslashes and control characters are
escaped. -/
def escapeByte (c : UInt8) : Bytes :=
  if c = 34 then ascii "\\\""
  else if c = 92 then ascii "\\\\"
  else if c = 8 then ascii "\\b"
  else if c = 9 then ascii "\\t"
  else if c = 10 then ascii "\\n"
  else if c = 12 then ascii "\\f"
  else if c = 13 then ascii "\\r"
  else if c < 32 then ascii "\\u00" ++ hexEncode [c]
  else [c]

/-- A JSON string. -/
def jsonString (s : Bytes) : Bytes := ascii "\"" ++ s.flatMap escapeByte ++ ascii "\""

/-- A hash as a JSON string. -/
def jsonHash (h : Hash256) : Bytes := ascii "\"" ++ hexEncode h.asBytes ++ ascii "\""

def headerJson (h : BlockHeader) : Bytes :=
  ascii "\x7b\"height\":" ++ decimal h.height.toNat ++
  ascii ",\"prev_hash\":" ++ jsonHash h.prevHash ++
  ascii ",\"tx_root\":" ++ jsonHash h.txRoot ++
  ascii ",\"timestamp\":" ++ decimal h.timestamp.toNat ++
  ascii ",\"difficulty\":" ++ decimal h.difficulty.toNat ++
  ascii ",\"miner\":\"" ++ h.miner.display ++
  ascii "\",\"nonce\":" ++ decimal h.nonce.toNat ++ ascii "\x7d"

def blockJson (b : Block) : Bytes :=
  ascii "\x7b\"header\":" ++ headerJson b.header ++
  ascii ",\"transactions\":[" ++
    (ascii ",").intercalate (b.transactions.val.map Transaction.toJson) ++ ascii "]\x7d"

/-- `serde_json::to_vec`: the variant's name is the key of its content. -/
def Message.toJson : Message → Bytes
  | .handshake version network height =>
    ascii "\x7b\"Handshake\":\x7b\"version\":" ++ decimal version.toNat ++
    ascii ",\"network\":" ++ jsonString network ++
    ascii ",\"height\":" ++ decimal height.toNat ++ ascii "\x7d\x7d"
  | .newBlock block => ascii "\x7b\"NewBlock\":" ++ blockJson block ++ ascii "\x7d"
  | .newTransaction tx => ascii "\x7b\"NewTransaction\":" ++ tx.toJson ++ ascii "\x7d"
  | .getBlock hash => ascii "\x7b\"GetBlock\":" ++ jsonHash hash ++ ascii "\x7d"
  | .blockResponse none => ascii "\x7b\"BlockResponse\":null\x7d"
  | .blockResponse (some block) => ascii "\x7b\"BlockResponse\":" ++ blockJson block ++ ascii "\x7d"
  | .ping => ascii "\"Ping\""
  | .pong => ascii "\"Pong\""

/-! ## The encrypted stream -/

/-- `MAX_NOISE_PLAINTEXT`. -/
def maxNoisePlaintext : ℕ := 65535 - 16

/-- One direction of an established Noise session: what `write_message` makes of the
plaintext number `i`, and `read_message` of the ciphertext number `i`. -/
structure NoiseSession where
  encrypt : ℕ → Bytes → Bytes
  decrypt : ℕ → Bytes → Option Bytes

/-- The other side decrypts what was encrypted; a ciphertext is longer by its tag. -/
structure NoiseSession.Lawful (S : NoiseSession) : Prop where
  length_encrypt : ∀ i p, p.length ≤ maxNoisePlaintext → (S.encrypt i p).length = p.length + 16
  decrypt_encrypt : ∀ i p, p.length ≤ maxNoisePlaintext → S.decrypt i (S.encrypt i p) = some p

/-- The errors of reading. -/
inductive TransportError
  | endOfStream
  | decryption
  | tooLarge (len : ℕ)
  | json
deriving DecidableEq

/-- The text of an error of `ondris-network`; the others come from libraries. -/
def TransportError.message : TransportError → Option String
  | tooLarge len => some ("received message too large (" ++ toString len ++ " bytes)")
  | _ => none

/-- `write_frame`: the bytes it adds to the stream. The length is cast to a `u16`. -/
def writeFrame (data : Bytes) : Bytes := beBytes 2 (data.length % 2 ^ 16) ++ data

/-- `AsyncReadExt::read_exact`: the next `n` bytes of a stream and what follows them. -/
def takeExact (n : ℕ) (stream : Bytes) : Except TransportError (Bytes × Bytes) :=
  if n ≤ stream.length then .ok (stream.take n, stream.drop n) else .error .endOfStream

/-- `read_frame`. -/
def readFrame (stream : Bytes) : Except TransportError (Bytes × Bytes) :=
  match takeExact 2 stream with
  | .error e => .error e
  | .ok (lenBuf, stream) => takeExact (beNat lenBuf) stream

/-- `EncryptedWriter`: the bytes written so far and the number of frames. -/
structure EncryptedWriter where
  written : Bytes
  count : ℕ

/-- `EncryptedReader`: the bytes still to be read, the number of frames read, and the
decrypted bytes that were not asked for yet. -/
structure EncryptedReader where
  stream : Bytes
  count : ℕ
  leftover : Bytes

section Stream

variable (S : NoiseSession)

/-- `EncryptedWriter::write_all`. -/
def EncryptedWriter.writeAll (w : EncryptedWriter) (plaintext : Bytes) : EncryptedWriter :=
  (chunks maxNoisePlaintext plaintext).foldl
    (fun w chunk => ⟨w.written ++ writeFrame (S.encrypt w.count chunk), w.count + 1⟩) w

/-- `write_all` called with one byte string after another. -/
def EncryptedWriter.writeAlls (w : EncryptedWriter) (ws : List Bytes) : EncryptedWriter :=
  ws.foldl (EncryptedWriter.writeAll S) w

theorem takeExact_ok {n : ℕ} {stream bs rest : Bytes} (h : takeExact n stream = .ok (bs, rest)) :
    rest.length + n = stream.length := by
  unfold takeExact at h
  split at h
  · next hle =>
    simp only [Except.ok.injEq, Prod.mk.injEq] at h
    rw [← h.2, List.length_drop]
    omega
  · cases h

theorem readFrame_ok {stream ct rest : Bytes} (h : readFrame stream = .ok (ct, rest)) :
    rest.length < stream.length := by
  unfold readFrame at h
  cases hlen : takeExact 2 stream with
  | error e =>
    rw [hlen] at h
    cases h
  | ok p =>
    rw [hlen] at h
    have hhead := takeExact_ok hlen
    have hbody := takeExact_ok h
    omega

/-- `EncryptedReader::read_exact`. -/
def EncryptedReader.readExact (r : EncryptedReader) (n : ℕ) :
    Except TransportError (Bytes × EncryptedReader) :=
  if r.leftover.length < n then
    match _hframe : readFrame r.stream with
    | .error e => .error e
    | .ok (ct, stream) =>
      match S.decrypt r.count ct with
      | none => .error .decryption
      | some pt => EncryptedReader.readExact ⟨stream, r.count + 1, r.leftover ++ pt⟩ n
  else .ok (r.leftover.take n, { r with leftover := r.leftover.drop n })
termination_by r.stream.length
decreasing_by exact readFrame_ok _hframe

/-- `read_exact` called with one size after another. -/
def EncryptedReader.readExacts :
    List ℕ → EncryptedReader → Except TransportError (List Bytes × EncryptedReader)
  | [], r => .ok ([], r)
  | n :: ns, r =>
    match r.readExact S n with
    | .error e => .error e
    | .ok (bs, r) =>
      match readExacts ns r with
      | .error e => .error e
      | .ok (reads, r) => .ok (bs :: reads, r)

/-- More bytes arrive. -/
def EncryptedReader.deliver (r : EncryptedReader) (more : Bytes) : EncryptedReader :=
  { r with stream := r.stream ++ more }

/-! ## Messages on the stream -/

/-- The largest message that is read. -/
def maxMessage : ℕ := 64 * 1024 * 1024

/-- `write_message`: the length is cast to a `u32`. -/
def EncryptedWriter.writeMessage (w : EncryptedWriter) (msg : Message) : EncryptedWriter :=
  let bytes := msg.toJson
  w.writeAll S (beBytes 4 (bytes.length % 2 ^ 32) ++ bytes)

/-- `read_message`; `fromSlice` is `serde_json::from_slice`. -/
def EncryptedReader.readMessage (fromSlice : Bytes → Option Message) (r : EncryptedReader) :
    Except TransportError (Message × EncryptedReader) :=
  match r.readExact S 4 with
  | .error e => .error e
  | .ok (lenBytes, r) =>
    let len := beNat lenBytes
    if len ≤ maxMessage then
      match r.readExact S len with
      | .error e => .error e
      | .ok (buf, r) =>
        match fromSlice buf with
        | none => .error .json
        | some msg => .ok (msg, r)
    else .error (.tooLarge len)

/-- Messages written one after another. -/
def EncryptedWriter.writeMessages (w : EncryptedWriter) (msgs : List Message) : EncryptedWriter :=
  msgs.foldl (EncryptedWriter.writeMessage S) w

/-- `k` messages read one after another. -/
def EncryptedReader.readMessages (fromSlice : Bytes → Option Message) :
    ℕ → EncryptedReader → Except TransportError (List Message × EncryptedReader)
  | 0, r => .ok ([], r)
  | k + 1, r =>
    match r.readMessage S fromSlice with
    | .error e => .error e
    | .ok (msg, r) =>
      match readMessages fromSlice k r with
      | .error e => .error e
      | .ok (msgs, r) => .ok (msg :: msgs, r)

/-- Both ends of a connection right after its Noise handshake. -/
def EncryptedWriter.start : EncryptedWriter := ⟨[], 0⟩

/-- The reading end once the other one has written `written`. -/
def EncryptedReader.start (written : Bytes) : EncryptedReader := ⟨written, 0, []⟩

/-- The frames of a list of chunks, from number `i` on. -/
def frames : ℕ → List Bytes → Bytes
  | _, [] => []
  | i, c :: cs => writeFrame (S.encrypt i c) ++ frames (i + 1) cs

/-- The bytes `p` are still to be read: some are decrypted, the others are in the
stream, cut into chunks. -/
structure EncryptedReader.Holds (r : EncryptedReader) (p : Bytes) (cs : List Bytes) : Prop where
  stream : r.stream = frames S r.count cs
  content : r.leftover ++ cs.flatten = p
  bound : ∀ c ∈ cs, c ≠ [] ∧ c.length ≤ maxNoisePlaintext

end Stream

variable {S : NoiseSession} {fromSlice : Bytes → Option Message}

/-! ## Frames -/

theorem readFrame_writeFrame {data : Bytes} (hlen : data.length < 2 ^ 16) (rest : Bytes) :
    readFrame (writeFrame data ++ rest) = .ok (data, rest) := by
  have htwo : takeExact 2 (writeFrame data ++ rest)
      = .ok (beBytes 2 (data.length % 2 ^ 16), data ++ rest) := by
    rw [takeExact, writeFrame, List.append_assoc, if_pos (by simp),
      List.take_left' (length_beBytes _ _), List.drop_left' (length_beBytes _ _)]
  have hread : beNat (beBytes 2 (data.length % 2 ^ 16)) = data.length := by
    rw [Nat.mod_eq_of_lt hlen]
    exact beNat_beBytes hlen
  rw [readFrame, htwo]
  simp only
  rw [hread, takeExact, if_pos (by simp), List.take_left, List.drop_left]

theorem frames_append (i : ℕ) (cs ds : List Bytes) :
    frames S i (cs ++ ds) = frames S i cs ++ frames S (i + cs.length) ds := by
  induction cs generalizing i with
  | nil => rfl
  | cons c cs ih =>
    rw [List.cons_append, frames, frames, ih, List.append_assoc, List.length_cons, Nat.add_assoc,
      Nat.add_comm 1]

/-- Writing adds the frames of the chunks. -/
theorem writeAll_eq (w : EncryptedWriter) (plaintext : Bytes) : w.writeAll S plaintext
    = ⟨w.written ++ frames S w.count (chunks maxNoisePlaintext plaintext),
        w.count + (chunks maxNoisePlaintext plaintext).length⟩ := by
  unfold EncryptedWriter.writeAll
  induction chunks maxNoisePlaintext plaintext generalizing w with
  | nil => rw [List.foldl_nil, frames, List.append_nil, List.length_nil, Nat.add_zero]
  | cons c cs ih =>
    rw [List.foldl_cons, ih, frames, List.append_assoc, List.length_cons, Nat.add_assoc,
      Nat.add_comm 1]

section Turn

variable {r : EncryptedReader} {n : ℕ} {ct rest : Bytes}

/-- One turn of the loop of `read_exact`: a frame is read and decrypted. -/
theorem readExact_frame (hless : r.leftover.length < n) (hframe : readFrame r.stream = .ok (ct, rest))
    {pt : Bytes} (hpt : S.decrypt r.count ct = some pt) :
    r.readExact S n = EncryptedReader.readExact S ⟨rest, r.count + 1, r.leftover ++ pt⟩ n := by
  rw [EncryptedReader.readExact, if_pos hless]
  split
  · next e he =>
    rw [hframe] at he
    cases he
  · next ct' rest' hok =>
    obtain ⟨rfl, rfl⟩ := Prod.mk.inj (Except.ok.inj (hframe.symm.trans hok))
    rw [hpt]

/-- The leftover has enough. -/
theorem readExact_enough (hge : n ≤ r.leftover.length) :
    r.readExact S n = .ok (r.leftover.take n, { r with leftover := r.leftover.drop n }) := by
  rw [EncryptedReader.readExact, if_neg (Nat.not_lt.mpr hge)]

theorem readExact_stuck (hless : r.leftover.length < n) {e : TransportError}
    (hframe : readFrame r.stream = .error e) : r.readExact S n = .error e := by
  rw [EncryptedReader.readExact, if_pos hless]
  split
  · next e' he =>
    rw [hframe] at he
    rw [Except.error.inj he]
  · next ct' rest' hok =>
    rw [hframe] at hok
    cases hok

theorem readExact_refused (hless : r.leftover.length < n)
    (hframe : readFrame r.stream = .ok (ct, rest)) (hpt : S.decrypt r.count ct = none) :
    r.readExact S n = .error .decryption := by
  rw [EncryptedReader.readExact, if_pos hless]
  split
  · next e he =>
    rw [hframe] at he
    cases he
  · next ct' rest' hok =>
    obtain ⟨rfl, rfl⟩ := Prod.mk.inj (Except.ok.inj (hframe.symm.trans hok))
    rw [hpt]

end Turn

/-- Reading does not see how the bytes were cut into frames. -/
theorem readExact_holds (hS : S.Lawful) {r : EncryptedReader} {p : Bytes} {cs : List Bytes}
    (h : r.Holds S p cs) {n : ℕ} (hn : n ≤ p.length) :
    ∃ r' cs', r.readExact S n = .ok (p.take n, r') ∧ r'.Holds S (p.drop n) cs' := by
  induction cs generalizing r with
  | nil =>
    obtain ⟨hstream, hcontent, hbound⟩ := h
    rw [List.flatten_nil, List.append_nil] at hcontent
    subst hcontent
    rw [readExact_enough hn]
    exact ⟨_, [], rfl, hstream, by simp, hbound⟩
  | cons c cs ih =>
    obtain ⟨hstream, hcontent, hbound⟩ := h
    rcases Nat.lt_or_ge r.leftover.length n with hless | hge
    · -- one more frame
      obtain ⟨-, hc⟩ := hbound c List.mem_cons_self
      have hmax : maxNoisePlaintext = 65519 := rfl
      have hframe : readFrame r.stream = .ok (S.encrypt r.count c, frames S (r.count + 1) cs) := by
        rw [hstream, frames, readFrame_writeFrame]
        rw [hS.length_encrypt _ _ hc]
        omega
      have hnext : EncryptedReader.Holds S ⟨frames S (r.count + 1) cs, r.count + 1, r.leftover ++ c⟩
          p cs := by
        refine ⟨rfl, ?_, fun d hd => hbound d (List.mem_cons_of_mem _ hd)⟩
        rw [← hcontent, List.flatten_cons, List.append_assoc]
      obtain ⟨r', cs', hread, hrest⟩ := ih hnext
      refine ⟨r', cs', ?_, hrest⟩
      rw [readExact_frame hless hframe (hS.decrypt_encrypt _ _ hc)]
      exact hread
    · rw [readExact_enough hge]
      refine ⟨{ r with leftover := r.leftover.drop n }, c :: cs, ?_, hstream, ?_, hbound⟩
      · rw [← hcontent, List.take_append_of_le_length hge]
      · rw [← hcontent, List.drop_append_of_le_length hge]

/-! ## Writes and reads -/

theorem maxNoisePlaintext_pos : 0 < maxNoisePlaintext := by decide

/-- The chunks of one byte string after another. -/
def chunksOf (ws : List Bytes) : List Bytes := ws.flatMap (chunks maxNoisePlaintext)

theorem flatten_chunksOf (ws : List Bytes) : (chunksOf ws).flatten = ws.flatten := by
  induction ws with
  | nil => rfl
  | cons w ws ih =>
    rw [chunksOf, List.flatMap_cons, List.flatten_append, flatten_chunks maxNoisePlaintext_pos,
      ← chunksOf, ih, List.flatten_cons]

theorem bound_of_mem_chunksOf {ws : List Bytes} {c : Bytes} (h : c ∈ chunksOf ws) :
    c ≠ [] ∧ c.length ≤ maxNoisePlaintext := by
  obtain ⟨w, -, hc⟩ := List.mem_flatMap.mp h
  exact ⟨ne_nil_of_mem_chunks maxNoisePlaintext_pos hc, length_le_of_mem_chunks hc⟩

theorem writeAlls_eq (S : NoiseSession) (w : EncryptedWriter) (ws : List Bytes) :
    w.writeAlls S ws
      = ⟨w.written ++ frames S w.count (chunksOf ws), w.count + (chunksOf ws).length⟩ := by
  induction ws generalizing w with
  | nil => simp [EncryptedWriter.writeAlls, chunksOf, frames]
  | cons plaintext ws ih =>
    have hstep : w.writeAlls S (plaintext :: ws) = (w.writeAll S plaintext).writeAlls S ws := rfl
    have hchunks : chunksOf (plaintext :: ws)
        = chunks maxNoisePlaintext plaintext ++ chunksOf ws := rfl
    rw [hstep, ih, writeAll_eq, hchunks, frames_append, List.append_assoc, List.length_append,
      Nat.add_assoc]

/-- What was written from the start is what there is to read. -/
theorem holds_writeAlls (S : NoiseSession) (ws : List Bytes) :
    EncryptedReader.Holds S (.start (EncryptedWriter.start.writeAlls S ws).written) ws.flatten
      (chunksOf ws) := by
  rw [writeAlls_eq]
  exact ⟨rfl, flatten_chunksOf ws, fun _ => bound_of_mem_chunksOf⟩

/-- Reads cut the bytes at their own sizes. -/
theorem readExacts_holds (hS : S.Lawful) {ns : List ℕ} {r : EncryptedReader} {p : Bytes}
    {cs : List Bytes} (h : r.Holds S p cs) (hsum : ns.sum ≤ p.length) :
    ∃ r' cs', r.readExacts S ns = .ok (ns.splitLengths p, r') ∧ r'.Holds S (p.drop ns.sum) cs' := by
  induction ns generalizing r p cs with
  | nil => exact ⟨r, cs, rfl, h⟩
  | cons n ns ih =>
    rw [List.sum_cons] at hsum
    obtain ⟨r₁, cs₁, hread, h₁⟩ := readExact_holds (n := n) hS h (by omega)
    obtain ⟨r₂, cs₂, hreads, h₂⟩ := ih h₁ (by rw [List.length_drop]; omega)
    rw [List.drop_drop] at h₂
    refine ⟨r₂, cs₂, ?_, h₂⟩
    rw [EncryptedReader.readExacts, hread]
    simp only [hreads, List.splitLengths_cons]

/-- The parts of a list put together again. -/
theorem flatten_splitLengths_take (ns : List ℕ) (p : Bytes) :
    (ns.splitLengths p).flatten = p.take ns.sum := by
  induction ns generalizing p with
  | nil => rfl
  | cons n ns ih => rw [List.splitLengths_cons, List.flatten_cons, ih, List.sum_cons, List.take_add]

/-- What reads of the given sizes return, and what is left, after the given writes. -/
structure StreamIndependent (S : NoiseSession) (ws : List Bytes) (ns : List ℕ)
    (reads : List Bytes) (r : EncryptedReader) : Prop where
  returned : EncryptedReader.readExacts S ns (.start (EncryptedWriter.start.writeAlls S ws).written)
    = .ok (reads, r)
  content : reads.flatten = ws.flatten.take ns.sum
  sizes : reads.map List.length = ns
  rest : ∃ r', r.readExact S (ws.flatten.length - ns.sum) = .ok (ws.flatten.drop ns.sum, r')
  written : (EncryptedWriter.start.writeAlls S ws).written = frames S 0 (chunksOf ws)
  untruncated : ∀ i c, (chunksOf ws)[i]? = some c →
    (S.encrypt i c).length % 2 ^ 16 = (S.encrypt i c).length

/-- **The stream is independent of chunking.** -/
theorem stream_independent (hS : S.Lawful) (ws : List Bytes) (ns : List ℕ)
    (hsum : ns.sum ≤ ws.flatten.length) :
    ∃ reads r, StreamIndependent S ws ns reads r := by
  obtain ⟨r, cs, hreads, hrest⟩ := readExacts_holds hS (holds_writeAlls S ws) hsum
  obtain ⟨r', cs', hread, -⟩ := readExact_holds (n := ws.flatten.length - ns.sum) hS hrest
    (by rw [List.length_drop])
  rw [List.take_of_length_le (by rw [List.length_drop])] at hread
  refine ⟨_, r, hreads, flatten_splitLengths_take ns _, List.map_splitLengths_length _ _ hsum,
    ⟨r', hread⟩, ?_, fun i c hc => ?_⟩
  · rw [writeAlls_eq]
    rfl
  · have hbound := (bound_of_mem_chunksOf (List.mem_of_getElem? hc)).2
    have hmax : maxNoisePlaintext = 65519 := rfl
    exact Nat.mod_eq_of_lt (by rw [hS.length_encrypt i c hbound]; omega)

theorem takeExact_deliver {n : ℕ} {stream bs rest : Bytes} (more : Bytes)
    (h : takeExact n stream = .ok (bs, rest)) :
    takeExact n (stream ++ more) = .ok (bs, rest ++ more) := by
  unfold takeExact at *
  split at h
  · next hle =>
    obtain ⟨rfl, rfl⟩ := Prod.mk.inj (Except.ok.inj h)
    rw [if_pos (by rw [List.length_append]; omega), List.take_append_of_le_length hle,
      List.drop_append_of_le_length hle]
  · cases h

theorem readFrame_deliver {stream ct rest : Bytes} (more : Bytes)
    (h : readFrame stream = .ok (ct, rest)) :
    readFrame (stream ++ more) = .ok (ct, rest ++ more) := by
  unfold readFrame at *
  cases hlen : takeExact 2 stream with
  | error e =>
    rw [hlen] at h
    cases h
  | ok p =>
    rw [hlen] at h
    rw [takeExact_deliver more hlen]
    exact takeExact_deliver more h

/-- A read that need not wait does not depend on what arrives later. -/
theorem readExact_deliver {r r' : EncryptedReader} {n : ℕ} {bs : Bytes} (more : Bytes)
    (h : r.readExact S n = .ok (bs, r')) :
    (r.deliver more).readExact S n = .ok (bs, r'.deliver more) := by
  induction r using EncryptedReader.readExact.induct S n with
  | case1 r hless e he =>
    rw [readExact_stuck hless he] at h
    cases h
  | case2 r hless ct stream hframe hpt =>
    rw [readExact_refused hless hframe hpt] at h
    cases h
  | case3 r hless ct stream hframe pt hpt ih =>
    rw [readExact_frame hless hframe hpt] at h
    have hmore : (r.deliver more).readExact S n
        = (EncryptedReader.deliver ⟨stream, r.count + 1, r.leftover ++ pt⟩ more).readExact S n :=
      readExact_frame (r := r.deliver more) hless (readFrame_deliver more hframe) hpt
    rw [hmore]
    exact ih h
  | case4 r hge =>
    rw [readExact_enough (Nat.not_lt.mp hge)] at h
    obtain ⟨rfl, rfl⟩ := Prod.mk.inj (Except.ok.inj h)
    exact readExact_enough (r := r.deliver more) (Nat.not_lt.mp hge)

/-! ## Messages -/

/-- The plaintext of a message. -/
def Message.framed (msg : Message) : Bytes :=
  beBytes 4 (msg.toJson.length % 2 ^ 32) ++ msg.toJson

theorem writeMessages_eq (S : NoiseSession) (w : EncryptedWriter) (msgs : List Message) :
    w.writeMessages S msgs = w.writeAlls S (msgs.map Message.framed) := by
  rw [EncryptedWriter.writeAlls, List.foldl_map]
  rfl

/-- The length in front of a message. -/
theorem readExact_length (hS : S.Lawful) {r : EncryptedReader} {msg : Message} {rest : Bytes}
    {cs : List Bytes} (h : r.Holds S (msg.framed ++ rest) cs) :
    ∃ r' cs', r.readExact S 4 = .ok (beBytes 4 (msg.toJson.length % 2 ^ 32), r') ∧
      r'.Holds S (msg.toJson ++ rest) cs' := by
  obtain ⟨r', cs', hread, hrest⟩ := readExact_holds (n := 4) hS h (by simp [Message.framed])
  rw [Message.framed, List.append_assoc, List.take_left' (length_beBytes _ _)] at hread
  rw [Message.framed, List.append_assoc, List.drop_left' (length_beBytes _ _)] at hrest
  exact ⟨r', cs', hread, hrest⟩

/-- A message within the limit is read as it was written. -/
theorem readMessage_ok (hS : S.Lawful) {msg : Message} (hjson : fromSlice msg.toJson = some msg)
    (hsize : msg.toJson.length ≤ maxMessage) {r : EncryptedReader} {rest : Bytes} {cs : List Bytes}
    (h : r.Holds S (msg.framed ++ rest) cs) :
    ∃ r' cs', r.readMessage S fromSlice = .ok (msg, r') ∧ r'.Holds S rest cs' := by
  have hmax : maxMessage = 67108864 := rfl
  obtain ⟨r₁, cs₁, hlen, h₁⟩ := readExact_length hS h
  obtain ⟨r₂, cs₂, hbody, h₂⟩ := readExact_holds (n := msg.toJson.length) hS h₁ (by simp)
  rw [List.take_left] at hbody
  rw [List.drop_left] at h₂
  have hdecode : beNat (beBytes 4 (msg.toJson.length % 2 ^ 32)) = msg.toJson.length := by
    rw [Nat.mod_eq_of_lt (by omega)]
    exact beNat_beBytes (by omega)
  refine ⟨r₂, cs₂, ?_, h₂⟩
  rw [EncryptedReader.readMessage, hlen]
  simp only [hdecode, if_pos hsize, hbody, hjson]

/-- A message above the limit is refused, as long as its length fits the prefix. -/
theorem readMessage_tooLarge (hS : S.Lawful) {msg : Message} (hlarge : maxMessage < msg.toJson.length)
    (hfits : msg.toJson.length < 2 ^ 32) {r : EncryptedReader} {rest : Bytes} {cs : List Bytes}
    (h : r.Holds S (msg.framed ++ rest) cs) :
    r.readMessage S fromSlice = .error (.tooLarge msg.toJson.length) := by
  obtain ⟨r₁, cs₁, hlen, h₁⟩ := readExact_length hS h
  have hdecode : beNat (beBytes 4 (msg.toJson.length % 2 ^ 32)) = msg.toJson.length := by
    rw [Nat.mod_eq_of_lt hfits]
    exact beNat_beBytes hfits
  rw [EncryptedReader.readMessage, hlen]
  simp only [hdecode, if_neg (Nat.not_le_of_gt hlarge)]

theorem readMessages_ok (hS : S.Lawful) {msgs : List Message}
    (hjson : ∀ msg ∈ msgs, fromSlice msg.toJson = some msg)
    (hsize : ∀ msg ∈ msgs, msg.toJson.length ≤ maxMessage) {r : EncryptedReader} {cs : List Bytes}
    (h : r.Holds S (msgs.flatMap Message.framed) cs) :
    ∃ r' cs', r.readMessages S fromSlice msgs.length = .ok (msgs, r') ∧ r'.Holds S [] cs' := by
  induction msgs generalizing r cs with
  | nil => exact ⟨r, cs, rfl, h⟩
  | cons msg msgs ih =>
    rw [List.flatMap_cons] at h
    obtain ⟨r₁, cs₁, hread, h₁⟩ :=
      readMessage_ok hS (hjson msg List.mem_cons_self) (hsize msg List.mem_cons_self) h
    obtain ⟨r₂, cs₂, hreads, h₂⟩ := ih (fun m hm => hjson m (List.mem_cons_of_mem _ hm))
      (fun m hm => hsize m (List.mem_cons_of_mem _ hm)) h₁
    refine ⟨r₂, cs₂, ?_, h₂⟩
    rw [List.length_cons, EncryptedReader.readMessages, hread]
    simp only [hreads]

/-- Nothing is left in a reader from which nothing is to be read. -/
theorem EncryptedReader.Holds.empty {r : EncryptedReader} {cs : List Bytes} (h : r.Holds S [] cs) :
    r.stream = [] ∧ r.leftover = [] := by
  obtain ⟨hstream, hcontent, hbound⟩ := h
  obtain ⟨hleft, hflat⟩ := List.append_eq_nil_iff.mp hcontent
  refine ⟨?_, hleft⟩
  cases cs with
  | nil => exact hstream
  | cons c cs =>
    rw [List.flatten_cons] at hflat
    exact absurd (List.append_eq_nil_iff.mp hflat).1 (hbound c List.mem_cons_self).1

/-- What messages leave to be read. -/
theorem holds_start (S : NoiseSession) (msgs : List Message) :
    ∃ cs, EncryptedReader.Holds S (.start (EncryptedWriter.start.writeMessages S msgs).written)
      (msgs.flatMap Message.framed) cs := by
  rw [writeMessages_eq, List.flatMap_def]
  exact ⟨_, holds_writeAlls S _⟩

/-- **Transport is lossless for messages within the reader's limit.** -/
theorem transport_lossless (hS : S.Lawful) (msgs : List Message)
    (hjson : ∀ msg ∈ msgs, fromSlice msg.toJson = some msg)
    (hsize : ∀ msg ∈ msgs, msg.toJson.length ≤ maxMessage) :
    ∃ r, EncryptedReader.readMessages S fromSlice msgs.length
        (.start (EncryptedWriter.start.writeMessages S msgs).written) = .ok (msgs, r) ∧
      r.stream = [] ∧ r.leftover = [] := by
  obtain ⟨cs, h⟩ := holds_start S msgs
  obtain ⟨r, cs', hread, hrest⟩ := readMessages_ok hS hjson hsize h
  exact ⟨r, hread, hrest.empty⟩

/-- A message above the limit, alone on a connection. -/
theorem readMessages_tooLarge (hS : S.Lawful) {msg : Message}
    (hlarge : maxMessage < msg.toJson.length) (hfits : msg.toJson.length < 2 ^ 32) :
    EncryptedReader.readMessages S fromSlice 1
      (.start (EncryptedWriter.start.writeMessages S [msg]).written)
        = .error (.tooLarge msg.toJson.length) := by
  obtain ⟨cs, h⟩ := holds_start S [msg]
  rw [List.flatMap_cons] at h
  rw [EncryptedReader.readMessages, readMessage_tooLarge hS hlarge hfits h]

/-! ## Examples of sessions and messages -/

/-- A session that encrypts nothing and appends a tag of zeros. -/
def plainSession : NoiseSession where
  encrypt _ p := p ++ List.replicate 16 0
  decrypt _ ct := if 16 ≤ ct.length then some (ct.take (ct.length - 16)) else none

theorem plainSession_lawful : plainSession.Lawful where
  length_encrypt _ _ _ := by simp [plainSession]
  decrypt_encrypt _ _ _ := by simp [plainSession]

theorem stream_independent_small : ∃ reads r,
    StreamIndependent plainSession [[1, 2, 3], [], [4, 5]] [1, 0, 3] reads r :=
  stream_independent plainSession_lawful _ _ (by decide)

def smallMessages : List Message :=
  [.handshake 1 (ascii "small") 0, .getBlock Hash256.zero, .blockResponse none, .ping]

/-- A parser that knows the texts of the given messages. -/
def parserOf (msgs : List Message) (bs : Bytes) : Option Message :=
  msgs.find? fun msg => msg.toJson = bs

theorem transport_lossless_small : ∃ r, EncryptedReader.readMessages plainSession
      (parserOf smallMessages) smallMessages.length
      (.start (EncryptedWriter.start.writeMessages plainSession smallMessages).written)
        = .ok (smallMessages, r) ∧ r.stream = [] ∧ r.leftover = [] :=
  transport_lossless plainSession_lawful smallMessages (by decide) (by decide)

/-- A transaction without a signature. -/
def plainTx : Transaction where
  fromKey := ⟨List.Vector.replicate 32 0⟩
  toAddr := ⟨List.Vector.replicate 20 0⟩
  amount := 0
  fee := 0
  accountNonce := 0
  signature := none

/-- A block of half a million transactions. -/
def largeBlock : Block where
  header :=
    { height := 1, prevHash := Hash256.zero, txRoot := Hash256.zero, timestamp := 0, difficulty := 1
      miner := ⟨List.Vector.replicate 20 0⟩, nonce := 0 }
  transactions := ⟨List.replicate (2 ^ 19) plainTx, by rw [List.length_replicate]; decide⟩

theorem length_intercalate_replicate (sep x : Bytes) (n : ℕ) :
    (sep.intercalate (List.replicate (n + 1) x)).length = n * (x.length + sep.length) + x.length := by
  induction n with
  | zero => simp [List.intercalate]
  | succ n ih =>
    rw [List.replicate_succ, List.replicate_succ, List.intercalate_cons_cons,
      ← List.replicate_succ, List.length_append, List.length_append, ih]
    ring

theorem length_plainTx_toJson : plainTx.toJson.length = 181 := by decide +kernel

theorem length_newBlock_toJson (block : Block) :
    ((ascii ",").intercalate (block.transactions.val.map Transaction.toJson)).length
      ≤ (Message.newBlock block).toJson.length ∧
    (Message.newBlock block).toJson.length ≤ (headerJson block.header).length +
      ((ascii ",").intercalate (block.transactions.val.map Transaction.toJson)).length + 42 := by
  have hopen : (ascii "\x7b\"NewBlock\":").length = 12 := by decide +kernel
  have hheader : (ascii "\x7b\"header\":").length = 10 := by decide +kernel
  have htxs : (ascii ",\"transactions\":[").length = 17 := by decide +kernel
  have hend : (ascii "]\x7d").length = 2 := by decide +kernel
  have hclose : (ascii "\x7d").length = 1 := by decide +kernel
  unfold Message.toJson blockJson
  simp only [List.length_append, hopen, hheader, htxs, hend, hclose]
  omega

/-- 95 MB of transactions. -/
theorem length_largeBlock_transactions :
    ((ascii ",").intercalate (largeBlock.transactions.val.map Transaction.toJson)).length
      = 524287 * 182 + 181 := by
  have hn : (2 : ℕ) ^ 19 = 524287 + 1 := by decide
  rw [largeBlock, List.map_replicate, hn, length_intercalate_replicate, length_plainTx_toJson]
  rfl

theorem length_largeBlock_header : (headerJson largeBlock.header).length ≤ 500 := by decide +kernel

theorem parserOf_singleton (msg : Message) : parserOf [msg] msg.toJson = some msg :=
  List.find?_cons_of_pos (decide_eq_true rfl)

/-- A block whose JSON exceeds the reader's limit is written, and refused. -/
theorem not_lossless_large :
    plainSession.Lawful ∧
    parserOf [.newBlock largeBlock] (Message.newBlock largeBlock).toJson
      = some (.newBlock largeBlock) ∧
    ∃ len, EncryptedReader.readMessages plainSession (parserOf [.newBlock largeBlock]) 1
      (.start (EncryptedWriter.start.writeMessages plainSession [.newBlock largeBlock]).written)
        = .error (.tooLarge len) := by
  obtain ⟨hlower, hupper⟩ := length_newBlock_toJson largeBlock
  rw [length_largeBlock_transactions] at hlower hupper
  have hheader := length_largeBlock_header
  have hmax : maxMessage = 67108864 := rfl
  generalize largeBlock = block at *
  exact ⟨plainSession_lawful, parserOf_singleton _, _,
    readMessages_tooLarge plainSession_lawful (by omega) (by omega)⟩

end Network

end Ondris
