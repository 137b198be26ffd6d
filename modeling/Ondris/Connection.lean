import Ondris.Lib.Machine
import Ondris.Node
import Ondris.Transport

/-!
# One connection

`Network::handle_connection` on both ends of one connection. Each end registers the
peer, writes its `Handshake`, and then runs a writer task and a read loop side by side.
Any task of the node may queue messages for the peer as soon as it is registered. A
schedule decides which end moves, which of its tasks does, and whether a read or a write
fails. A wire carries whole messages, in the order of `readMessage_ok`: what a failed
write leaves behind is never read as a message.

Results:
1. `HandshakeFirst.step`: the first message on a wire is the `Handshake` of the end that
   writes to it, and it is still there until the other end has read it.
2. `networks_separate`: ends of different networks never see each other's messages.
-/

namespace Ondris

namespace Network

/-! ## The two ends -/

/-- `PROTOCOL_VERSION`. -/
def protocolVersion : UInt32 := 1

/-- Why `handle_connection` returned. -/
inductive ConnectionError
  | noise
  | write
  | read
  | differentNetwork (network : Bytes)
deriving DecidableEq

/-- The text of the error that `handle_connection` makes itself. -/
def ConnectionError.message : ConnectionError → Option Bytes
  | differentNetwork network => some (ascii "different network: " ++ network)
  | _ => none

/-- How far `handle_connection` has come. -/
inductive Stage
  /-- The Noise handshake runs. -/
  | connecting
  /-- The Noise handshake is complete. -/
  | encrypted
  /-- The sender is in the peer map, and `PeerConnected` was emitted. -/
  | registered
  /-- The `Handshake` was written: the writer task and the read loop run. -/
  | open
  /-- The read loop has ended, and the peer is not removed yet. -/
  | leaving (error : ConnectionError)
  | ended (error : ConnectionError)
deriving DecidableEq

/-- One end of a connection. -/
structure Endpoint where
  networkName : Bytes
  /-- The address of the other end. -/
  peerAddr : SocketAddr
  stage : Stage
  /-- The peer map holds the sender of this connection. -/
  inPeerMap : Bool
  /-- What was sent to `rx` and not taken by the writer task. -/
  queue : List Message
  /-- The writer task runs. -/
  writing : Bool
  /-- The events emitted for this connection. -/
  events : List NetworkEvent

/-- Steps of one end. A flag `ok` tells whether the operation succeeds. -/
inductive Action
  | noise (ok : Bool)
  | register
  /-- The `Handshake` is written, with the height the node announces at that moment. -/
  | writeHandshake (height : UInt64) (ok : Bool)
  /-- `send_to` or `broadcast` in any task of the node. -/
  | send (msg : Message)
  /-- Another connection to the same address takes the place in the peer map, or the
  address is removed with it. -/
  | displaced
  /-- One turn of the writer task. -/
  | write (ok : Bool)
  /-- One turn of the read loop. -/
  | read (ok : Bool)
  | unregister
deriving DecidableEq

namespace Endpoint

def start (networkName : Bytes) (peerAddr : SocketAddr) : Endpoint :=
  { networkName, peerAddr, stage := .connecting, inPeerMap := false, queue := [], writing := false
    events := [] }

def emit (e : Endpoint) (event : NetworkEvent) : Endpoint := { e with events := e.events ++ [event] }

/-- `send_to`: the message is queued if the peer map has a sender. -/
def sendTo (e : Endpoint) (msg : Message) : Endpoint :=
  if e.inPeerMap then { e with queue := e.queue ++ [msg] } else e

/-- The body of the read loop. -/
def handle (e : Endpoint) : Message → Endpoint
  | .handshake _ network _ =>
    if network = e.networkName then e else { e with stage := .leaving (.differentNetwork network) }
  | .newBlock block => e.emit (.newBlock block)
  | .newTransaction tx => e.emit (.newTransaction tx)
  | .getBlock hash => e.emit (.getBlockRequest e.peerAddr hash)
  | .blockResponse block => e.emit (.blockResponse block)
  | .ping => e.sendTo .pong
  | .pong => e

/-- The step of an end: what becomes of it, of the wire it reads and of the wire it
writes. An action that is not possible at the stage changes nothing. -/
def act (e : Endpoint) (incoming outgoing : List Message) :
    Action → Endpoint × List Message × List Message
  | .noise ok =>
    match e.stage with
    | .connecting =>
      ({ e with stage := if ok then .encrypted else .ended .noise }, incoming, outgoing)
    | _ => (e, incoming, outgoing)
  | .register =>
    match e.stage with
    | .encrypted =>
      ({ e with stage := .registered, inPeerMap := true }.emit (.peerConnected e.peerAddr), incoming,
        outgoing)
    | _ => (e, incoming, outgoing)
  | .writeHandshake height ok =>
    match e.stage with
    | .registered =>
      if ok then
        ({ e with stage := .open, writing := true }, incoming,
          outgoing ++ [.handshake protocolVersion e.networkName height])
      else ({ e with stage := .ended .write }, incoming, outgoing)
    | _ => (e, incoming, outgoing)
  | .send msg => (e.sendTo msg, incoming, outgoing)
  | .displaced => ({ e with inPeerMap := false }, incoming, outgoing)
  | .write ok =>
    match e.writing, e.queue with
    | true, msg :: queue =>
      if ok then ({ e with queue }, incoming, outgoing ++ [msg])
      else ({ e with queue, writing := false }, incoming, outgoing)
    | _, _ => (e, incoming, outgoing)
  | .read ok =>
    match e.stage with
    | .open =>
      if ok then
        match incoming with
        | [] => (e, incoming, outgoing)
        | msg :: incoming => (e.handle msg, incoming, outgoing)
      else ({ e with stage := .leaving .read }, incoming, outgoing)
    | _ => (e, incoming, outgoing)
  | .unregister =>
    match e.stage with
    | .leaving error =>
      ({ e with stage := .ended error, inPeerMap := false, writing := false }.emit
        (.peerDisconnected e.peerAddr), incoming, outgoing)
    | _ => (e, incoming, outgoing)

end Endpoint

/-- The two ends of a connection. -/
inductive Side
  | initiator
  | responder
deriving DecidableEq

def Side.other : Side → Side
  | initiator => responder
  | responder => initiator

/-- A connection. The wire of a side carries what that side wrote and the other one has
not read. -/
structure Connection where
  ends : Side → Endpoint
  wire : Side → List Message

namespace Connection

/-- A connection between two nodes that was just opened. -/
def IsStart (c : Connection) : Prop :=
  ∀ side, c.wire side = [] ∧ ∃ name addr, c.ends side = .start name addr

def step (c : Connection) (i : Side × Action) : Connection :=
  let (side, action) := i
  let (e, incoming, outgoing) := (c.ends side).act (c.wire side.other) (c.wire side) action
  { ends := Function.update c.ends side e
    wire := Function.update (Function.update c.wire side.other incoming) side outgoing }

end Connection

/-- The connection as a machine; its outputs are not used. -/
def connection : Machine Connection (Side × Action) Unit where
  init := Connection.IsStart
  step := Connection.step
  out _ _ := ()

/-- An event that carries what the other end said. -/
def carriesMessage : NetworkEvent → Bool
  | .newBlock _ => true
  | .newTransaction _ => true
  | .getBlockRequest _ _ => true
  | .blockResponse _ => true
  | .peerConnected _ => false
  | .peerDisconnected _ => false

/-! ## The handshake comes first -/

/-- The end has not written its `Handshake` and still may. -/
def Stage.early : Stage → Bool
  | connecting => true
  | encrypted => true
  | registered => true
  | _ => false

/-- The read loop has ended, or never starts. -/
def Stage.over : Stage → Bool
  | leaving _ => true
  | ended _ => true
  | _ => false

/-- What holds of a wire and its two ends as long as their networks differ. -/
structure HandshakeFirst (writer : Endpoint) (wire : List Message) (reader : Endpoint) : Prop where
  early : writer.stage.early = true → writer.writing = false ∧ wire = []
  first : reader.stage.over = false →
    (writer.writing = false ∧ wire = []) ∨
    ∃ height rest, wire = .handshake protocolVersion writer.networkName height :: rest
  silent : ∀ event ∈ reader.events, carriesMessage event = false

/-- What an end keeps at a step that leaves both wires alone. -/
structure Endpoint.Quiet (e e' : Endpoint) : Prop where
  networkName : e'.networkName = e.networkName
  early : e'.stage.early = true → e.stage.early = true
  live : e'.stage.over = false → e.stage.over = false
  writing : e.writing = false → e'.writing = false
  events : ∀ event ∈ e'.events, event ∈ e.events ∨ carriesMessage event = false

variable {writer reader : Endpoint} {wire incoming outgoing : List Message}

theorem Endpoint.Quiet.refl (e : Endpoint) : e.Quiet e := ⟨rfl, id, id, id, fun _ => .inl⟩

/-- Queueing a message changes nothing but the queue. -/
theorem sendTo_frame (e : Endpoint) (msg : Message) : ∃ queue, e.sendTo msg = { e with queue } := by
  unfold Endpoint.sendTo
  split
  · exact ⟨_, rfl⟩
  · exact ⟨e.queue, rfl⟩

/-- The body of the read loop ends it, or queues a message and emits events. -/
theorem handle_frame (e : Endpoint) (msg : Message) :
    (∃ error, e.handle msg = { e with stage := .leaving error }) ∨
    ∃ queue events, e.handle msg = { e with queue, events } := by
  cases msg with
  | handshake version network height =>
    simp only [Endpoint.handle]
    split
    · exact .inr ⟨e.queue, e.events, rfl⟩
    · exact .inl ⟨_, rfl⟩
  | ping =>
    obtain ⟨queue, hsend⟩ := sendTo_frame e .pong
    exact .inr ⟨queue, e.events, hsend⟩
  | newBlock block => exact .inr ⟨e.queue, _, rfl⟩
  | newTransaction tx => exact .inr ⟨e.queue, _, rfl⟩
  | getBlock hash => exact .inr ⟨e.queue, _, rfl⟩
  | blockResponse block => exact .inr ⟨e.queue, _, rfl⟩
  | pong => exact .inr ⟨e.queue, e.events, rfl⟩

/-- What is emitted besides a message. -/
theorem mem_emit {e : Endpoint} {event new : NetworkEvent} (hnew : carriesMessage new = false)
    (h : event ∈ (e.emit new).events) : event ∈ e.events ∨ carriesMessage event = false := by
  rcases List.mem_append.mp h with h | h
  · exact .inl h
  · rw [List.mem_singleton.mp h]
    exact .inr hnew

/-- What a step of an end can do: leave both wires alone, write its `Handshake`, write a
queued message, or handle the next one. -/
theorem act_cases (e : Endpoint) (action : Action) :
    ((e.act incoming outgoing action).2 = (incoming, outgoing) ∧
      e.Quiet (e.act incoming outgoing action).1) ∨
    (∃ height, e.stage = .registered ∧
      e.act incoming outgoing action = ({ e with stage := .open, writing := true }, incoming,
        outgoing ++ [.handshake protocolVersion e.networkName height])) ∨
    (∃ msg queue, e.writing = true ∧
      e.act incoming outgoing action = ({ e with queue }, incoming, outgoing ++ [msg])) ∨
    ∃ msg rest, e.stage = .open ∧ incoming = msg :: rest ∧
      e.act incoming outgoing action = (e.handle msg, rest, outgoing) := by
  cases action with
  | noise ok =>
    simp only [Endpoint.act]
    split
    · next hstage =>
      exact .inl ⟨rfl, rfl, fun _ => by rw [hstage]; rfl, fun _ => by rw [hstage]; rfl, id,
        fun _ => .inl⟩
    · exact .inl ⟨rfl, .refl e⟩
  | register =>
    simp only [Endpoint.act]
    split
    · next hstage =>
      exact .inl ⟨rfl, rfl, fun _ => by rw [hstage]; rfl, fun _ => by rw [hstage]; rfl, id,
        fun _ => mem_emit rfl⟩
    · exact .inl ⟨rfl, .refl e⟩
  | writeHandshake height ok =>
    simp only [Endpoint.act]
    split
    · next hstage =>
      split
      · exact .inr (.inl ⟨height, hstage, rfl⟩)
      · exact .inl ⟨rfl, rfl, (nomatch ·), (nomatch ·), id, fun _ => .inl⟩
    · exact .inl ⟨rfl, .refl e⟩
  | send msg =>
    obtain ⟨queue, hsend⟩ := sendTo_frame e msg
    simp only [Endpoint.act, hsend]
    exact .inl ⟨trivial, rfl, id, id, id, fun _ => .inl⟩
  | displaced => exact .inl ⟨rfl, rfl, id, id, id, fun _ => .inl⟩
  | write ok =>
    simp only [Endpoint.act]
    split
    · next msg queue hwriting hqueue =>
      split
      · exact .inr (.inr (.inl ⟨msg, queue, hwriting, rfl⟩))
      · exact .inl ⟨rfl, rfl, id, id, fun _ => rfl, fun _ => .inl⟩
    · exact .inl ⟨rfl, .refl e⟩
  | read ok =>
    simp only [Endpoint.act]
    split
    · next hstage =>
      split
      · cases incoming with
        | nil => exact .inl ⟨rfl, .refl e⟩
        | cons msg incoming => exact .inr (.inr (.inr ⟨msg, incoming, hstage, rfl, rfl⟩))
      · exact .inl ⟨rfl, rfl, (nomatch ·), (nomatch ·), id, fun _ => .inl⟩
    · exact .inl ⟨rfl, .refl e⟩
  | unregister =>
    simp only [Endpoint.act]
    split
    · exact .inl ⟨rfl, rfl, (nomatch ·), (nomatch ·), fun _ => rfl, fun _ => mem_emit rfl⟩
    · exact .inl ⟨rfl, .refl e⟩

theorem act_networkName (e : Endpoint) (action : Action) :
    (e.act incoming outgoing action).1.networkName = e.networkName := by
  rcases @act_cases incoming outgoing e action with
    ⟨-, hquiet⟩ | ⟨height, -, hact⟩ | ⟨msg, queue, -, hact⟩ | ⟨msg, rest, -, -, hact⟩
  · exact hquiet.networkName
  · rw [hact]
  · rw [hact]
  · rw [hact]
    rcases handle_frame e msg with ⟨error, hhandle⟩ | ⟨queue, events, hhandle⟩
    · rw [hhandle]
    · rw [hhandle]

/-- A step of the writing end that writes nothing. -/
theorem HandshakeFirst.quiet_writer (h : HandshakeFirst writer wire reader) {writer' : Endpoint}
    (hname : writer'.networkName = writer.networkName)
    (hearly : writer'.stage.early = true → writer.stage.early = true)
    (hwriting : writer.writing = false → writer'.writing = false) :
    HandshakeFirst writer' wire reader where
  early hnew := ⟨hwriting (h.early (hearly hnew)).1, (h.early (hearly hnew)).2⟩
  first hover := by
    rw [hname]
    exact (h.first hover).imp_left fun hnone => ⟨hwriting hnone.1, hnone.2⟩
  silent := h.silent

/-- A step of the reading end that reads nothing. -/
theorem HandshakeFirst.quiet_reader (h : HandshakeFirst writer wire reader) {reader' : Endpoint}
    (hover : reader'.stage.over = false → reader.stage.over = false)
    (hsilent : ∀ event ∈ reader'.events, event ∈ reader.events ∨ carriesMessage event = false) :
    HandshakeFirst writer wire reader' where
  early := h.early
  first hnew := h.first (hover hnew)
  silent event hevent := (hsilent event hevent).elim (h.silent event) id

/-- The writing end takes a step. -/
theorem HandshakeFirst.act_writer (h : HandshakeFirst writer wire reader) (action : Action) :
    HandshakeFirst (writer.act incoming wire action).1 (writer.act incoming wire action).2.2
      reader := by
  rcases @act_cases incoming wire writer action with
    ⟨hwires, hquiet⟩ | ⟨height, hstage, hact⟩ | ⟨msg, queue, hwriting, hact⟩ | ⟨msg, rest, -, -, hact⟩
  · rw [hwires]
    exact h.quiet_writer hquiet.networkName hquiet.early hquiet.writing
  · -- nothing was written before
    obtain ⟨-, hwire⟩ := h.early (by rw [hstage]; rfl)
    rw [hact]
    exact ⟨(nomatch ·), fun _ => .inr ⟨height, [], by rw [hwire]; rfl⟩, h.silent⟩
  · -- the writer task runs, so the `Handshake` is in front, or was read
    rw [hact]
    refine ⟨fun hearly => ?_, fun hover => ?_, h.silent⟩
    · exact absurd ((h.early hearly).1.symm.trans hwriting) Bool.false_ne_true
    · rcases h.first hover with ⟨hnone, -⟩ | ⟨height, rest, hwire⟩
      · exact absurd (hnone.symm.trans hwriting) Bool.false_ne_true
      · exact .inr ⟨height, rest ++ [msg], by rw [hwire]; rfl⟩
  · rw [hact]
    rcases handle_frame writer msg with ⟨error, hhandle⟩ | ⟨queue, events, hhandle⟩
    · rw [hhandle]
      exact h.quiet_writer rfl (nomatch ·) id
    · rw [hhandle]
      exact h.quiet_writer rfl id id

/-- The reading end takes a step. The first message it reads ends the read loop. -/
theorem HandshakeFirst.act_reader (hdiff : writer.networkName ≠ reader.networkName)
    (h : HandshakeFirst writer wire reader) (action : Action) :
    HandshakeFirst writer (reader.act wire outgoing action).2.1
      (reader.act wire outgoing action).1 := by
  rcases @act_cases wire outgoing reader action with
    ⟨hwires, hquiet⟩ | ⟨height, hstage, hact⟩ | ⟨msg, queue, -, hact⟩ | ⟨msg, rest, hstage, hcons, hact⟩
  · rw [hwires]
    exact h.quiet_reader hquiet.live hquiet.events
  · rw [hact]
    exact h.quiet_reader (fun _ => by rw [hstage]; rfl) fun _ => .inl
  · rw [hact]
    exact h.quiet_reader id fun _ => .inl
  · rw [hact]
    rcases h.first (by rw [hstage]; rfl) with ⟨-, hnone⟩ | ⟨height, later, hwire⟩
    · rw [hnone] at hcons
      cases hcons
    · -- the message is the `Handshake` of another network
      obtain ⟨rfl, rfl⟩ := List.cons.inj (hcons.symm.trans hwire)
      simp only [Endpoint.handle, if_neg hdiff]
      refine ⟨fun hearly => ?_, (nomatch ·), h.silent⟩
      have hnone := (h.early hearly).2
      rw [hcons] at hnone
      cases hnone

/-! ## Runs of a connection -/

theorem Side.other_ne (side : Side) : side.other ≠ side := by cases side <;> decide

theorem Side.other_other (side : Side) : side.other.other = side := by cases side <;> rfl

theorem Side.eq_or_eq_other (side a : Side) : a = side ∨ a = side.other := by
  cases side <;> cases a <;> decide

namespace Connection

/-- Both directions of a connection between two networks. -/
structure Separate (c : Connection) : Prop where
  names : ∀ side, (c.ends side).networkName ≠ (c.ends side.other).networkName
  wires : ∀ side, HandshakeFirst (c.ends side) (c.wire side) (c.ends side.other)

variable {c : Connection}

/-- One step concerns the wire that the end writes and the wire that it reads. -/
theorem step_eq (c : Connection) (side : Side) (action : Action) :
    let next := (c.ends side).act (c.wire side.other) (c.wire side) action
    (c.step (side, action)).ends side = next.1 ∧
    (c.step (side, action)).ends side.other = c.ends side.other ∧
    (c.step (side, action)).wire side = next.2.2 ∧
    (c.step (side, action)).wire side.other = next.2.1 := by
  refine ⟨Function.update_self .., Function.update_of_ne side.other_ne .., Function.update_self ..,
    ?_⟩
  exact (Function.update_of_ne side.other_ne ..).trans (Function.update_self ..)

theorem Separate.step (h : c.Separate) (i : Side × Action) : (c.step i).Separate := by
  obtain ⟨mover, action⟩ := i
  obtain ⟨hself, hother, hwrite, hread⟩ := c.step_eq mover action
  refine ⟨fun side => ?_, fun side => ?_⟩
  · rcases mover.eq_or_eq_other side with rfl | rfl
    · rw [hself, hother, act_networkName]
      exact h.names side
    · rw [mover.other_other, hself, hother, act_networkName]
      exact (h.names mover).symm
  · rcases mover.eq_or_eq_other side with rfl | rfl
    · rw [hself, hother, hwrite]
      exact (h.wires side).act_writer action
    · have hwire := h.wires mover.other
      rw [mover.other_other] at hwire ⊢
      rw [hself, hother, hread]
      exact hwire.act_reader (h.names mover).symm action

theorem IsStart.separate (h : c.IsStart)
    (hdiff : (c.ends .initiator).networkName ≠ (c.ends .responder).networkName) : c.Separate := by
  refine ⟨fun side => ?_, fun side => ?_⟩
  · cases side with
    | initiator => exact hdiff
    | responder => exact hdiff.symm
  · obtain ⟨hwire, name, addr, hwriter⟩ := h side
    obtain ⟨-, name', addr', hreader⟩ := h side.other
    rw [hwire, hwriter, hreader]
    exact ⟨fun _ => ⟨rfl, rfl⟩, fun _ => .inl ⟨rfl, rfl⟩, fun _ hevent => nomatch hevent⟩

theorem step_networkName (i : Side × Action) (side : Side) :
    ((c.step i).ends side).networkName = (c.ends side).networkName := by
  obtain ⟨mover, action⟩ := i
  obtain ⟨hself, hother, -, -⟩ := c.step_eq mover action
  rcases mover.eq_or_eq_other side with rfl | rfl
  · rw [hself, act_networkName]
  · rw [hother]

/-- In every run between two networks, the first message of each direction is a
`Handshake`. -/
theorem separate (h : connection.Reachable c)
    (hdiff : (c.ends .initiator).networkName ≠ (c.ends .responder).networkName) : c.Separate := by
  refine h.invariant (P := fun c : Connection =>
    (c.ends .initiator).networkName ≠ (c.ends .responder).networkName → c.Separate)
    (fun _ hinit => IsStart.separate hinit) (fun c i _ _ ih hdiff => ?_) hdiff
  have hnames : (c.ends .initiator).networkName ≠ (c.ends .responder).networkName := by
    rw [← step_networkName i .initiator, ← step_networkName i .responder]
    exact hdiff
  exact (ih hnames).step i

end Connection

/-- **Networks stay separate.** Whatever the nodes queue and whenever their tasks run,
neither end of a connection between two networks emits an event for a message of the
other. -/
theorem networks_separate {c : Connection} (h : connection.Reachable c)
    (hdiff : (c.ends .initiator).networkName ≠ (c.ends .responder).networkName) (side : Side) :
    ∀ event ∈ (c.ends side).events, carriesMessage event = false := by
  have hwire := (Connection.separate h hdiff).wires side.other
  rw [side.other_other] at hwire
  exact hwire.silent

/-- Two ends that were just opened. -/
def opened (left right : Bytes) : Connection where
  ends
    | .initiator => .start left ⟨[127, 0, 0, 1], 2⟩
    | .responder => .start right ⟨[127, 0, 0, 1], 1⟩
  wire _ := []

theorem isStart_opened (left right : Bytes) : (opened left right).IsStart := by
  rintro (_ | _)
  · exact ⟨rfl, _, _, rfl⟩
  · exact ⟨rfl, _, _, rfl⟩

/-- A run in which the initiator has queued a transaction before its handshake, and the
responder reads what arrives. -/
def smallSchedule : List (Side × Action) :=
  [(.initiator, .noise true), (.responder, .noise true), (.initiator, .register),
    (.initiator, .send (.newTransaction plainTx)), (.initiator, .writeHandshake 7 true),
    (.initiator, .write true), (.responder, .register), (.responder, .writeHandshake 0 true),
    (.responder, .read true), (.responder, .read true), (.responder, .unregister)]

theorem networks_separate_small :
    ((connection.run (opened (ascii "main") (ascii "test")) smallSchedule).ends .responder).stage
        = .ended (.differentNetwork (ascii "main")) ∧
    ∀ event ∈ ((connection.run (opened (ascii "main") (ascii "test")) smallSchedule).ends
      .responder).events, carriesMessage event = false :=
  ⟨by decide, networks_separate
    (Machine.Reachable.run (.init (isStart_opened _ _)) smallSchedule) (by decide) .responder⟩

/-- Between nodes of one network the transaction arrives. -/
example : .newTransaction plainTx ∈
    ((connection.run (opened (ascii "main") (ascii "main")) smallSchedule).ends .responder).events := by
  decide

end Network

end Ondris
