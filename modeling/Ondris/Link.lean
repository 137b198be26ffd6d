import Ondris.Connection

/-!
# One direction of a connection

What an end of a connection queues for its peer, and what the peer makes of it. The writer
task sends the queue after the `Handshake`, the read loop of the peer turns what it reads
into events, and `Ping` is answered on the same queue. Ends stop at any point.

Results:
1. `Link.act_writer`, `Link.act_reader`: what was queued is what the peer has heard, what is
   on the wire and what is still queued, in this order.
2. `link_in_order`: the events of an end are those of a prefix of what the other end has
   queued, and nothing is missing while the writer task runs.
-/

namespace Ondris

namespace Network

/-! ## Definitions -/

/-- The event that the read loop emits for a message. -/
def Message.emitted (peerAddr : SocketAddr) : Message → Option NetworkEvent
  | .newBlock block => some (.newBlock block)
  | .newTransaction tx => some (.newTransaction tx)
  | .getBlock hash => some (.getBlockRequest peerAddr hash)
  | .blockResponse block => some (.blockResponse block)
  | _ => none

/-- The messages that a step of an end adds to its queue. -/
def Endpoint.queued (e : Endpoint) (incoming : List Message) : Action → List Message
  | .send msg => if e.inPeerMap then [msg] else []
  | .read ok =>
    if ok ∧ e.stage = .open ∧ incoming.head? = some .ping ∧ e.inPeerMap then [.pong] else []
  | _ => []

/-- The messages that a side queues in a run. -/
def Connection.said (side : Side) : Connection → List (Side × Action) → List Message
  | _, [] => []
  | c, i :: is =>
    (if i.1 = side then (c.ends side).queued (c.wire side.other) i.2 else [])
      ++ said side (c.step i) is

/-- Of what the writer has said it has written `data` after a `greeting`, and not `rest`; of
what it has written the reader has heard `heard`. -/
structure LinkParts (writer : Endpoint) (wire : List Message) (reader : Endpoint)
    (said greeting data heard rest : List Message) : Prop where
  written : greeting ++ data = heard ++ wire
  said : said = data ++ rest
  opened : (greeting = [] ∧ data = []) ∨
    ∃ height, greeting = [.handshake protocolVersion writer.networkName height]
  early : writer.stage.early = true → greeting = [] ∧ writer.writing = false
  started : writer.writing = true → greeting ≠ []
  live : writer.stage.early = true ∨ writer.writing = true → rest = writer.queue
  events : reader.events.filter carriesMessage = heard.filterMap (Message.emitted reader.peerAddr)

/-- What holds of a wire, its two ends and what was queued for it. -/
def Link (writer : Endpoint) (wire : List Message) (reader : Endpoint) (said : List Message) : Prop :=
  ∃ greeting data heard rest, LinkParts writer wire reader said greeting data heard rest

/-! ## Steps of an end -/

/-- What an end keeps at a step that moves no message, while `said` is queued. -/
structure Endpoint.Waits (e : Endpoint) (said : List Message) (e' : Endpoint) : Prop where
  networkName : e'.networkName = e.networkName
  peerAddr : e'.peerAddr = e.peerAddr
  early : e'.stage.early = true → e.stage.early = true
  writing : e'.writing = true → e.writing = true
  queue : (e.stage.early = true → e.writing = false) →
    e'.stage.early = true ∨ e'.writing = true → e'.queue = e.queue ++ said
  events : e'.events.filter carriesMessage = e.events.filter carriesMessage

variable {writer reader : Endpoint} {wire incoming outgoing said : List Message}

theorem Endpoint.Waits.refl (e : Endpoint) : e.Waits [] e where
  networkName := rfl
  peerAddr := rfl
  early := id
  writing := id
  queue _ _ := (List.append_nil _).symm
  events := rfl

theorem sendTo_queue (e : Endpoint) (msg : Message) :
    e.sendTo msg = { e with queue := e.queue ++ if e.inPeerMap then [msg] else [] } := by
  unfold Endpoint.sendTo
  split
  · rfl
  · rw [List.append_nil]

/-- What the body of the read loop does: it queues an answer, emits an event, or stops. -/
theorem handle_link {e : Endpoint} (hstage : e.stage = .open) (msg : Message) (rest : List Message) :
    (e.handle msg).networkName = e.networkName ∧ (e.handle msg).peerAddr = e.peerAddr ∧
      (e.handle msg).writing = e.writing ∧ (e.handle msg).stage.early = false ∧
      (e.handle msg).queue = e.queue ++ e.queued (msg :: rest) (.read true) ∧
      (e.handle msg).events.filter carriesMessage
        = e.events.filter carriesMessage ++ (msg.emitted e.peerAddr).toList := by
  have hearly : e.stage.early = false := by rw [hstage]; rfl
  have hqueued : e.queued (msg :: rest) (.read true)
      = if msg = .ping ∧ e.inPeerMap then [.pong] else [] := by
    simp [Endpoint.queued, hstage]
  rw [hqueued]
  cases msg with
  | handshake version network height =>
    have hhandle : e.handle (.handshake version network height) = if network = e.networkName
        then e else { e with stage := .leaving (.differentNetwork network) } := rfl
    rw [hhandle]
    split
    · exact ⟨rfl, rfl, rfl, hearly, (List.append_nil _).symm, (List.append_nil _).symm⟩
    · exact ⟨rfl, rfl, rfl, rfl, (List.append_nil _).symm, (List.append_nil _).symm⟩
  | newBlock block =>
    exact ⟨rfl, rfl, rfl, hearly, (List.append_nil _).symm, List.filter_append ..⟩
  | newTransaction tx =>
    exact ⟨rfl, rfl, rfl, hearly, (List.append_nil _).symm, List.filter_append ..⟩
  | getBlock hash =>
    exact ⟨rfl, rfl, rfl, hearly, (List.append_nil _).symm, List.filter_append ..⟩
  | blockResponse block =>
    exact ⟨rfl, rfl, rfl, hearly, (List.append_nil _).symm, List.filter_append ..⟩
  | ping =>
    have hsend : e.handle .ping = e.sendTo .pong := rfl
    rw [hsend, sendTo_queue]
    refine ⟨rfl, rfl, rfl, hearly, ?_, (List.append_nil _).symm⟩
    simp
  | pong => exact ⟨rfl, rfl, rfl, hearly, (List.append_nil _).symm, (List.append_nil _).symm⟩

/-- A step moves no message, writes the `Handshake`, writes the head of the queue, or reads. -/
theorem act_link_cases (e : Endpoint) (action : Action) :
    ((e.act incoming outgoing action).2 = (incoming, outgoing) ∧
      e.Waits (e.queued incoming action) (e.act incoming outgoing action).1) ∨
    (∃ height, e.stage = .registered ∧ e.queued incoming action = [] ∧
      e.act incoming outgoing action = ({ e with stage := .open, writing := true }, incoming,
        outgoing ++ [.handshake protocolVersion e.networkName height])) ∨
    (∃ msg queue, e.writing = true ∧ e.queue = msg :: queue ∧ e.queued incoming action = [] ∧
      e.act incoming outgoing action = ({ e with queue }, incoming, outgoing ++ [msg])) ∨
    ∃ msg rest, e.stage = .open ∧ incoming = msg :: rest ∧ action = .read true ∧
      e.act incoming outgoing action = (e.handle msg, rest, outgoing) := by
  have hsame : e.Waits [] e := .refl e
  cases action with
  | noise ok =>
    simp only [Endpoint.act]
    split
    · next hstage =>
      refine .inl ⟨rfl, rfl, rfl, fun _ => by rw [hstage]; rfl, id, ?_, rfl⟩
      exact fun _ _ => (List.append_nil _).symm
    · exact .inl ⟨rfl, hsame⟩
  | register =>
    simp only [Endpoint.act]
    split
    · next hstage =>
      refine .inl ⟨rfl, rfl, rfl, fun _ => by rw [hstage]; rfl, id, ?_, ?_⟩
      · exact fun _ _ => (List.append_nil _).symm
      · exact (List.filter_append ..).trans (List.append_nil _)
    · exact .inl ⟨rfl, hsame⟩
  | writeHandshake height ok =>
    simp only [Endpoint.act]
    split
    · next hstage =>
      split
      · exact .inr (.inl ⟨height, hstage, rfl, rfl⟩)
      · refine .inl ⟨rfl, rfl, rfl, fun h => absurd h Bool.false_ne_true, id, ?_, rfl⟩
        exact fun _ _ => (List.append_nil _).symm
    · exact .inl ⟨rfl, hsame⟩
  | send msg =>
    simp only [Endpoint.act, sendTo_queue]
    exact .inl ⟨trivial, rfl, rfl, id, id, fun _ _ => rfl, rfl⟩
  | displaced =>
    refine .inl ⟨rfl, rfl, rfl, id, id, ?_, rfl⟩
    exact fun _ _ => (List.append_nil _).symm
  | write ok =>
    simp only [Endpoint.act]
    split
    · next msg queue hwriting hqueue =>
      split
      · exact .inr (.inr (.inl ⟨msg, queue, hwriting, hqueue, rfl, rfl⟩))
      · refine .inl ⟨rfl, rfl, rfl, id, fun h => absurd h Bool.false_ne_true,
          fun hearly h => ?_, rfl⟩
        rcases h with h | h
        · exact absurd (hwriting.symm.trans (hearly h)) Bool.false_ne_true.symm
        · cases h
    · exact .inl ⟨rfl, hsame⟩
  | read ok =>
    simp only [Endpoint.act]
    split
    · next hstage =>
      cases ok with
      | true =>
        cases incoming with
        | nil =>
          have hqueued : e.queued [] (.read true) = [] := if_neg fun h =>
            absurd h.2.2.1.symm (Option.some_ne_none _)
          rw [hqueued]
          exact .inl ⟨rfl, hsame⟩
        | cons msg incoming => exact .inr (.inr (.inr ⟨msg, incoming, hstage, rfl, rfl, rfl⟩))
      | false =>
        refine .inl ⟨rfl, rfl, rfl, fun h => absurd h Bool.false_ne_true, id, ?_, rfl⟩
        exact fun _ _ => (List.append_nil _).symm
    · next hstage =>
      have hqueued : e.queued incoming (.read ok) = [] := if_neg fun h => hstage h.2.1
      rw [hqueued]
      exact .inl ⟨rfl, hsame⟩
  | unregister =>
    simp only [Endpoint.act]
    split
    · refine .inl ⟨rfl, rfl, rfl, fun h => absurd h Bool.false_ne_true,
        fun h => absurd h Bool.false_ne_true, fun _ h => ?_, ?_⟩
      · rcases h with h | h <;> cases h
      · exact (List.filter_append ..).trans (List.append_nil _)
    · exact .inl ⟨rfl, hsame⟩

/-! ## Steps of a link -/

/-- The writing end takes a step. -/
theorem Link.act_writer (h : Link writer wire reader said) (action : Action) :
    Link (writer.act incoming wire action).1 (writer.act incoming wire action).2.2 reader
      (said ++ writer.queued incoming action) := by
  obtain ⟨greeting, data, heard, rest, hlink⟩ := h
  rcases @act_link_cases incoming wire writer action with
    ⟨hwires, hwaits⟩ | ⟨height, hstage, hqueued, hact⟩ | ⟨msg, queue, hwriting, hqueue, hqueued, hact⟩ |
    ⟨msg, rest', hstage, hcons, rfl, hact⟩
  · rw [hwires]
    refine ⟨greeting, data, heard, rest ++ writer.queued incoming action, hlink.written, ?_, ?_, ?_,
      fun hw => hlink.started (hwaits.writing hw), fun hlive => ?_, hlink.events⟩
    · rw [hlink.said, List.append_assoc]
    · rw [hwaits.networkName]
      exact hlink.opened
    · intro hearly
      obtain ⟨hnone, hidle⟩ := hlink.early (hwaits.early hearly)
      refine ⟨hnone, Bool.eq_false_iff.mpr fun hw => ?_⟩
      exact absurd (hidle.symm.trans (hwaits.writing hw)) Bool.false_ne_true
    · rw [hwaits.queue (fun hearly => (hlink.early hearly).2) hlive,
        hlink.live (hlive.imp hwaits.early hwaits.writing)]
  · -- nothing was written before
    have hearly : writer.stage.early = true := by rw [hstage]; rfl
    obtain ⟨rfl, -⟩ := hlink.early hearly
    have hdata : data = [] := by
      rcases hlink.opened with ⟨-, hdata⟩ | ⟨height, hgreeting⟩
      · exact hdata
      · cases hgreeting
    subst hdata
    rw [hact, hqueued]
    refine ⟨[.handshake protocolVersion writer.networkName height], [], heard, rest, ?_, ?_,
      .inr ⟨height, rfl⟩, fun h => absurd h Bool.false_ne_true, fun _ => List.cons_ne_nil _ _,
      fun _ => hlink.live (.inl hearly), hlink.events⟩
    · rw [← List.append_assoc, ← hlink.written]
      rfl
    · rw [List.append_nil]
      exact hlink.said
  · -- the head of the queue goes out
    have hrest : rest = msg :: queue := (hlink.live (.inr hwriting)).trans hqueue
    rw [hact, hqueued]
    refine ⟨greeting, data ++ [msg], heard, queue, ?_, ?_, ?_, fun hearly => ?_, hlink.started,
      fun _ => rfl, hlink.events⟩
    · rw [← List.append_assoc, hlink.written, List.append_assoc]
    · rw [List.append_nil, hlink.said, hrest, List.append_assoc]
      rfl
    · rcases hlink.opened with ⟨hnone, -⟩ | hsome
      · exact absurd hnone (hlink.started hwriting)
      · exact .inr hsome
    · exact absurd ((hlink.early hearly).2.symm.trans hwriting) Bool.false_ne_true
  · -- the writing end reads, and may answer
    subst hcons
    obtain ⟨hname, -, hwriting, hearly, hqueue, -⟩ := handle_link hstage msg rest'
    rw [hact]
    refine ⟨greeting, data, heard, rest ++ writer.queued (msg :: rest') (.read true), hlink.written,
      ?_, ?_, fun hnew => ?_, fun hw => hlink.started (hwriting.symm.trans hw), fun hlive => ?_,
      hlink.events⟩
    · rw [hlink.said, List.append_assoc]
    · rw [hname]
      exact hlink.opened
    · exact absurd (hearly.symm.trans hnew) Bool.false_ne_true
    · have hw : writer.writing = true := by
        rcases hlive with hnew | hw
        · exact absurd (hearly.symm.trans hnew) Bool.false_ne_true
        · exact hwriting.symm.trans hw
      rw [hqueue, hlink.live (.inr hw)]

/-- The reading end takes a step. -/
theorem Link.act_reader (h : Link writer wire reader said) (action : Action) :
    Link writer (reader.act wire outgoing action).2.1 (reader.act wire outgoing action).1 said := by
  obtain ⟨greeting, data, heard, rest, hlink⟩ := h
  rcases @act_link_cases wire outgoing reader action with
    ⟨hwires, hwaits⟩ | ⟨height, hstage, -, hact⟩ | ⟨msg, queue, -, -, -, hact⟩ |
    ⟨msg, rest', hstage, rfl, rfl, hact⟩
  · rw [hwires]
    refine ⟨greeting, data, heard, rest, hlink.written, hlink.said, hlink.opened, hlink.early,
      hlink.started, hlink.live, ?_⟩
    rw [hwaits.events, hwaits.peerAddr]
    exact hlink.events
  · rw [hact]
    exact ⟨greeting, data, heard, rest, hlink.written, hlink.said, hlink.opened, hlink.early,
      hlink.started, hlink.live, hlink.events⟩
  · rw [hact]
    exact ⟨greeting, data, heard, rest, hlink.written, hlink.said, hlink.opened, hlink.early,
      hlink.started, hlink.live, hlink.events⟩
  · -- the head of the wire is heard
    obtain ⟨-, hpeer, -, -, -, hevents⟩ := handle_link hstage msg rest'
    rw [hact]
    refine ⟨greeting, data, heard ++ [msg], rest, ?_, hlink.said, hlink.opened, hlink.early,
      hlink.started, hlink.live, ?_⟩
    · rw [hlink.written, List.append_assoc]
      rfl
    · have hemitted : (msg.emitted reader.peerAddr).toList
          = [msg].filterMap (Message.emitted reader.peerAddr) := by cases msg <;> rfl
      rw [hevents, hpeer, hlink.events, List.filterMap_append, hemitted]

namespace Connection

variable {c : Connection}

theorem link_step {side : Side}
    (h : Link (c.ends side) (c.wire side) (c.ends side.other) said) (i : Side × Action) :
    Link ((c.step i).ends side) ((c.step i).wire side) ((c.step i).ends side.other)
      (said ++ if i.1 = side then (c.ends side).queued (c.wire side.other) i.2 else []) := by
  obtain ⟨mover, action⟩ := i
  obtain ⟨hself, hother, hwrite, hread⟩ := c.step_eq mover action
  rcases mover.eq_or_eq_other side with rfl | rfl
  · rw [hself, hother, hwrite, if_pos rfl]
    exact h.act_writer action
  · rw [if_neg mover.other_ne.symm, List.append_nil, hother, hread]
    rw [mover.other_other] at h ⊢
    rw [hself]
    exact h.act_reader action

theorem link_run {side : Side} (h : Link (c.ends side) (c.wire side) (c.ends side.other) said)
    (is : List (Side × Action)) :
    Link ((connection.run c is).ends side) ((connection.run c is).wire side)
      ((connection.run c is).ends side.other) (said ++ c.said side is) := by
  induction is generalizing c said with
  | nil =>
    rw [Connection.said, List.append_nil]
    exact h
  | cons i is ih =>
    rw [Connection.said, ← List.append_assoc]
    exact ih (link_step h i)

theorem IsStart.link (h : c.IsStart) (side : Side) :
    Link (c.ends side) (c.wire side) (c.ends side.other) [] := by
  obtain ⟨hwire, name, addr, hwriter⟩ := h side
  obtain ⟨-, name', addr', hreader⟩ := h side.other
  rw [hwire, hwriter, hreader]
  exact ⟨[], [], [], [], rfl, rfl, .inl ⟨rfl, rfl⟩, fun _ => ⟨rfl, rfl⟩,
    fun h => absurd h Bool.false_ne_true, fun _ => rfl, rfl⟩

end Connection

/-- **A connection delivers in order.** Whatever is queued and whenever tasks run or fail, the
events that an end emits for messages of the other are those of the first messages that the other
has queued, each once and in order. As long as the writer task runs and has nothing left to write
or on the wire, they are those of all. -/
theorem link_in_order {c : Connection} (h : c.IsStart) (is : List (Side × Action)) (side : Side) :
    ∃ heard rest, c.said side is = heard ++ rest ∧
      ((connection.run c is).ends side.other).events.filter carriesMessage
        = heard.filterMap (Message.emitted ((connection.run c is).ends side.other).peerAddr) ∧
      (((connection.run c is).ends side).writing = true →
        ((connection.run c is).ends side).queue = [] → (connection.run c is).wire side = [] →
        rest = []) := by
  obtain ⟨greeting, data, heard, rest, hlink⟩ := Connection.link_run (h.link side) is
  rw [List.nil_append] at hlink
  rcases hlink.opened with ⟨rfl, rfl⟩ | ⟨height, rfl⟩
  · -- nothing was written
    have hnone : heard = [] := (List.append_eq_nil_iff.mp hlink.written.symm).1
    subst hnone
    refine ⟨[], rest, hlink.said, hlink.events, fun hwriting => ?_⟩
    exact absurd rfl (hlink.started hwriting)
  · cases heard with
    | nil =>
      refine ⟨[], data ++ rest, hlink.said, hlink.events, fun _ _ hwire => ?_⟩
      have hwritten := hlink.written
      rw [hwire] at hwritten
      cases hwritten
    | cons first heard =>
      -- the `Handshake` is heard first, and emits nothing
      obtain ⟨rfl, hdata⟩ := List.cons.inj hlink.written
      refine ⟨heard, (connection.run c is).wire side ++ rest, ?_, hlink.events, fun hw hq hwire => ?_⟩
      · rw [hlink.said, ← List.append_assoc]
        exact congrArg (· ++ rest) hdata
      · rw [hwire, hlink.live (.inr hw), hq]
        rfl

/-- Between nodes of one network a transaction that was queued before the handshake. -/
theorem link_in_order_small : ∃ heard rest,
    (opened (ascii "main") (ascii "main")).said .initiator smallSchedule = heard ++ rest ∧
    [.newTransaction plainTx] = heard.filterMap (Message.emitted ⟨[127, 0, 0, 1], 1⟩) ∧ rest = [] := by
  obtain ⟨heard, rest, hsaid, hevents, hall⟩ :=
    link_in_order (isStart_opened (ascii "main") (ascii "main")) smallSchedule .initiator
  exact ⟨heard, rest, hsaid, hevents, hall rfl rfl rfl⟩

end Network

end Ondris
