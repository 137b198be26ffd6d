import Ondris.Lib.Registry
import Ondris.Connection

/-!
# The peer map

All runs of `handle_connection` of one node, inbound and outbound ones, over the peer map
that they share. Each run is an `Endpoint`; what another connection to the same address
does to it is now a step of that connection: registering puts its own sender in the place
of another one, and removing an address drops the sender that is filed there. What has
arrived on a connection is arbitrary.

Results:
1. `registry_step`: a step of the connections is a move of a registry with one entry an
   address, or none.
2. `filed`: what an `Endpoint` knows of the peer map is what the map says.
3. `peers_exact_iff`: the peer map and the events are those of the live connections as
   long as no first write fails and no connection leaves before another one to its address.
-/

namespace Ondris

namespace Network

/-! ## Definitions -/

/-- The connections of a node. The address of a connection is that of its other end. -/
structure Connections (ι : Type) where
  ends : ι → Endpoint
  /-- `peers`: the connection whose sender is filed under an address. -/
  peers : SocketAddr → Option ι
  /-- What has arrived on a connection and was not read. -/
  incoming : ι → List Message

/-- Turns of `handle_connection` and of its writer task. -/
inductive Turn
  | noise (ok : Bool)
  | register
  | writeHandshake (height : UInt64) (ok : Bool)
  | write (ok : Bool)
  | read (ok : Bool)
  | unregister

def Turn.action : Turn → Action
  | noise ok => .noise ok
  | register => .register
  | writeHandshake height ok => .writeHandshake height ok
  | write ok => .write ok
  | read ok => .read ok
  | unregister => .unregister

inductive ConnectionInput (ι : Type)
  /-- A message arrives on a connection. -/
  | arrive (i : ι) (msg : Message)
  | turn (i : ι) (t : Turn)
  /-- `send_to`, in any task of the node. -/
  | sendTo (addr : SocketAddr) (msg : Message)
  /-- `broadcast`, in any task of the node. -/
  | broadcast (msg : Message)

namespace Connections

variable {ι : Type} [DecidableEq ι]

/-- The address of a connection, the key of the peer map. -/
def addr (s : Connections ι) (i : ι) : SocketAddr := (s.ends i).peerAddr

def setEnd (s : Connections ι) (i : ι) (e : Endpoint) : Connections ι :=
  { s with ends := Function.update s.ends i e }

/-- The sender filed under an address is dropped. -/
def displace (s : Connections ι) (addr : SocketAddr) : Connections ι :=
  match s.peers addr with
  | none => s
  | some j => s.setEnd j ((s.ends j).act [] [] .displaced).1

/-- `Network::send_to`. -/
def sendTo (s : Connections ι) (addr : SocketAddr) (msg : Message) : Connections ι :=
  match s.peers addr with
  | none => s
  | some j => s.setEnd j ((s.ends j).sendTo msg)

/-- `Network::broadcast`. -/
def broadcast (s : Connections ι) (msg : Message) : Connections ι :=
  { s with ends := fun i =>
      if s.peers (s.addr i) = some i then (s.ends i).sendTo msg else s.ends i }

/-- A turn of a connection, with its effect on the peer map. -/
def turn (s : Connections ι) (i : ι) (t : Turn) : Connections ι :=
  let (e, incoming, _) := (s.ends i).act (s.incoming i) [] t.action
  match t, (s.ends i).stage with
  | .register, .encrypted =>
    -- `insert` drops the sender that was filed before
    { (s.displace (s.addr i)).setEnd i e with
      peers := Function.update s.peers (s.addr i) (some i) }
  | .unregister, .leaving _ =>
    -- `remove` drops whatever sender is filed
    { (s.displace (s.addr i)).setEnd i e with peers := Function.update s.peers (s.addr i) none }
  | .read true, .open =>
    -- a `Pong` goes to the connection that is filed under the address
    let answered := if (s.incoming i).head? = some .ping ∧ s.peers (s.addr i) ≠ some i then
      s.sendTo (s.addr i) .pong else s
    { answered.setEnd i e with incoming := Function.update s.incoming i incoming }
  | _, _ => s.setEnd i e

def step (s : Connections ι) : ConnectionInput ι → Connections ι
  | .arrive i msg => { s with incoming := Function.update s.incoming i (s.incoming i ++ [msg]) }
  | .turn i t => s.turn i t
  | .sendTo addr msg => s.sendTo addr msg
  | .broadcast msg => s.broadcast msg

/-- No connection has made its Noise handshake, and the peer map is empty. -/
def IsStart (s : Connections ι) : Prop :=
  (∃ name, ∀ i, ∃ addr, s.ends i = .start name addr) ∧ ∀ addr, s.peers addr = none

end Connections

/-- The connections as a machine; its outputs are not used. -/
def connections (ι : Type) [DecidableEq ι] : Machine (Connections ι) (ConnectionInput ι) Unit where
  init := Connections.IsStart
  step := Connections.step
  out _ _ := ()

/-! ## The registry of a node -/

/-- The connection has registered and not ended: its Noise handshake is complete, and it has
neither removed its address nor returned. -/
def Stage.live : Stage → Bool
  | registered => true
  | .open => true
  | leaving _ => true
  | _ => false

/-- How a registry sees a stage. A connection that ends before its own `Handshake` is
written has not left. -/
def Stage.status : Stage → Registry.Status
  | connecting => .out
  | encrypted => .out
  | registered => .joined
  | .open => .joined
  | leaving _ => .joined
  | ended .noise => .out
  | ended .write => .lost
  | ended .read => .left
  | ended (.differentNetwork _) => .left

/-- The errors that end the read loop. -/
def ConnectionError.ofLoop : ConnectionError → Bool
  | read => true
  | differentNetwork _ => true
  | _ => false

/-- What a turn means for the registry. -/
def Turn.move : Turn → Stage → Option Registry.Move
  | .register, .encrypted => some .join
  | .writeHandshake _ false, .registered => some .lose
  | .unregister, .leaving _ => some .leave
  | _, _ => none

/-- The events `PeerConnected` and `PeerDisconnected` of a connection. -/
def Endpoint.presence (e : Endpoint) : List NetworkEvent := e.events.filter (!carriesMessage ·)

/-- What a connection has announced. -/
def announcements (addr : SocketAddr) : Registry.Status → List NetworkEvent
  | .out => []
  | .joined => [.peerConnected addr]
  | .lost => [.peerConnected addr]
  | .left => [.peerConnected addr, .peerDisconnected addr]

/-- What holds of an end in every run. -/
structure Endpoint.Sound (e : Endpoint) : Prop where
  presence : e.presence = announcements e.peerAddr e.stage.status
  leaving : ∀ error, e.stage = .leaving error → error.ofLoop = true

namespace Connections

variable {ι : Type} [DecidableEq ι]

def registry (s : Connections ι) : Registry ι SocketAddr :=
  ⟨fun i => (s.ends i).stage.status, s.peers⟩

/-- The connection that moves, and how. -/
def move (s : Connections ι) : ConnectionInput ι → Option (ι × Registry.Move)
  | .turn i t => (t.move (s.ends i).stage).map (i, ·)
  | _ => none

/-- The peer map holds the addresses of the live connections, and every connection that has
ended and had announced itself has announced its end. -/
structure PeersExact (s : Connections ι) : Prop where
  present : ∀ addr, (s.peers addr).isSome ↔ ∃ i, s.addr i = addr ∧ (s.ends i).stage.live = true
  connected : ∀ i, (s.ends i).stage.live = true →
    (s.ends i).presence = [.peerConnected (s.addr i)]
  disconnected : ∀ i error, (s.ends i).stage = .ended error → (s.ends i).presence = [] ∨
    (s.ends i).presence = [.peerConnected (s.addr i), .peerDisconnected (s.addr i)]

/-- The connection ends at the step. -/
def EndsAt (s : Connections ι) (input : ConnectionInput ι) (i : ι) : Prop :=
  (∀ error, (s.ends i).stage ≠ .ended error) ∧ ∃ error, ((s.step input).ends i).stage = .ended error

/-- A connection that ends removes no sender of another one. -/
def KeepsOthers (s : Connections ι) (input : ConnectionInput ι) : Prop :=
  ∀ i, s.EndsAt input i → ∀ addr j, j ≠ i → s.peers addr = some j →
    (s.step input).peers addr = some j

/-- The first write of a connection that has registered does not fail, and a connection
removes its address only when no other one to that address is live. -/
structure SafeTurn (s : Connections ι) (input : ConnectionInput ι) : Prop where
  written : ∀ i height, input = .turn i (.writeHandshake height false) →
    (s.ends i).stage ≠ .registered
  alone : ∀ i error, input = .turn i .unregister → (s.ends i).stage = .leaving error →
    ∀ j, j ≠ i → s.addr j = s.addr i → (s.ends j).stage.live = false

end Connections

/-! ## Turns that are moves -/

theorem Turn.of_move {t : Turn} {stage : Stage} {move : Registry.Move}
    (h : t.move stage = some move) : match move with
      | .join => t = .register ∧ stage = .encrypted
      | .leave => t = .unregister ∧ ∃ error, stage = .leaving error
      | .lose => (∃ height, t = .writeHandshake height false) ∧ stage = .registered := by
  unfold Turn.move at h
  split at h
  · obtain rfl := Option.some.inj h
    exact ⟨rfl, rfl⟩
  · obtain rfl := Option.some.inj h
    exact ⟨⟨_, rfl⟩, rfl⟩
  · obtain rfl := Option.some.inj h
    exact ⟨rfl, _, rfl⟩
  · cases h

/-! ## One end -/

theorem live_iff {stage : Stage} : stage.live = true ↔ stage.status = .joined := by
  cases stage with
  | connecting => exact iff_of_false Bool.false_ne_true (nomatch ·)
  | encrypted => exact iff_of_false Bool.false_ne_true (nomatch ·)
  | registered => exact iff_of_true rfl rfl
  | «open» => exact iff_of_true rfl rfl
  | leaving error => exact iff_of_true rfl rfl
  | ended error => cases error <;> exact iff_of_false Bool.false_ne_true (nomatch ·)

theorem ended_of_lost {stage : Stage} (h : stage.status = .lost) : stage = .ended .write := by
  cases stage with
  | connecting => cases h
  | encrypted => cases h
  | registered => cases h
  | «open» => cases h
  | leaving error => cases h
  | ended error =>
    cases error with
    | noise => cases h
    | write => rfl
    | read => cases h
    | differentNetwork network => cases h

variable {e : Endpoint} {incoming outgoing : List Message}

@[simp] theorem presence_emit_message {event : NetworkEvent} (h : carriesMessage event = true) :
    (e.emit event).presence = e.presence := by
  simp [Endpoint.presence, Endpoint.emit, h]

@[simp] theorem presence_emit {event : NetworkEvent} (h : carriesMessage event = false) :
    (e.emit event).presence = e.presence ++ [event] := by
  simp [Endpoint.presence, Endpoint.emit, h]

/-- What a turn of an end keeps where it is no move. -/
structure Endpoint.Still (e e' : Endpoint) : Prop where
  peerAddr : e'.peerAddr = e.peerAddr
  inPeerMap : e'.inPeerMap = e.inPeerMap
  status : e'.stage.status = e.stage.status
  presence : e'.presence = e.presence
  leaving : ∀ error, e'.stage = .leaving error → e.stage = .leaving error ∨ error.ofLoop = true

theorem Endpoint.Still.refl (e : Endpoint) : e.Still e := ⟨rfl, rfl, rfl, rfl, fun _ => .inl⟩

theorem still_sendTo (e : Endpoint) (msg : Message) : e.Still (e.sendTo msg) := by
  obtain ⟨queue, hsend⟩ := sendTo_frame e msg
  rw [hsend]
  exact ⟨rfl, rfl, rfl, rfl, fun _ => .inl⟩

/-- The body of the read loop, which runs while the connection is open. -/
theorem still_handle (hstage : e.stage = .open) (msg : Message) : e.Still (e.handle msg) := by
  cases msg with
  | handshake version network height =>
    simp only [Endpoint.handle]
    split
    · exact .refl e
    · refine ⟨rfl, rfl, by rw [hstage]; rfl, rfl, fun error h => ?_⟩
      obtain rfl := Stage.leaving.inj h
      exact .inr rfl
  | newBlock block => exact ⟨rfl, rfl, rfl, presence_emit_message rfl, fun _ => .inl⟩
  | newTransaction tx => exact ⟨rfl, rfl, rfl, presence_emit_message rfl, fun _ => .inl⟩
  | getBlock hash => exact ⟨rfl, rfl, rfl, presence_emit_message rfl, fun _ => .inl⟩
  | blockResponse block => exact ⟨rfl, rfl, rfl, presence_emit_message rfl, fun _ => .inl⟩
  | ping => exact still_sendTo e .pong
  | pong => exact .refl e

/-- What a move announces. -/
def announced (addr : SocketAddr) : Registry.Move → List NetworkEvent
  | .join => [.peerConnected addr]
  | .leave => [.peerDisconnected addr]
  | .lose => []

structure Endpoint.Moves (move : Registry.Move) (e e' : Endpoint) : Prop where
  peerAddr : e'.peerAddr = e.peerAddr
  inPeerMap : e'.inPeerMap = match move with
    | .join => true
    | .leave => false
    | .lose => e.inPeerMap
  before : e.stage.status = move.before
  status : e'.stage.status = move.after
  presence : e'.presence = e.presence ++ announced e.peerAddr move
  leaving : ∀ error, e'.stage ≠ .leaving error

/-- A turn that is no move. -/
theorem act_still {t : Turn} (h : t.move e.stage = none) :
    e.Still (e.act incoming outgoing t.action).1 := by
  cases t with
  | noise ok =>
    simp only [Turn.action, Endpoint.act]
    split
    · next hstage =>
      cases ok with
      | true => exact ⟨rfl, rfl, by rw [hstage]; rfl, rfl, fun error h => by cases h⟩
      | false => exact ⟨rfl, rfl, by rw [hstage]; rfl, rfl, fun error h => by cases h⟩
    · exact .refl e
  | register =>
    simp only [Turn.action, Endpoint.act]
    split
    · next hstage =>
      rw [hstage] at h
      cases h
    · exact .refl e
  | writeHandshake height ok =>
    simp only [Turn.action, Endpoint.act]
    split
    · next hstage =>
      cases ok with
      | true => exact ⟨rfl, rfl, by rw [hstage]; rfl, rfl, fun error h => by cases h⟩
      | false =>
        rw [hstage] at h
        cases h
    · exact .refl e
  | write ok =>
    simp only [Turn.action, Endpoint.act]
    split
    · split
      · exact ⟨rfl, rfl, rfl, rfl, fun _ => .inl⟩
      · exact ⟨rfl, rfl, rfl, rfl, fun _ => .inl⟩
    · exact .refl e
  | read ok =>
    simp only [Turn.action, Endpoint.act]
    split
    · next hstage =>
      cases ok with
      | true =>
        cases incoming with
        | nil => exact .refl e
        | cons msg rest => exact still_handle hstage msg
      | false =>
        refine ⟨rfl, rfl, by rw [hstage]; rfl, rfl, fun error h => ?_⟩
        obtain rfl := Stage.leaving.inj h
        exact .inr rfl
    · exact .refl e
  | unregister =>
    simp only [Turn.action, Endpoint.act]
    split
    · next hstage =>
      rw [hstage] at h
      cases h
    · exact .refl e

/-- A turn that is a move. -/
theorem act_moves (hsound : e.Sound) {t : Turn} {move : Registry.Move}
    (h : t.move e.stage = some move) :
    e.Moves move (e.act incoming outgoing t.action).1 := by
  cases move with
  | join =>
    obtain ⟨rfl, hstage⟩ := Turn.of_move h
    simp only [Turn.action, Endpoint.act, hstage]
    exact ⟨rfl, rfl, by rw [hstage]; rfl, rfl, presence_emit rfl, fun error h => by cases h⟩
  | leave =>
    obtain ⟨rfl, error, hstage⟩ := Turn.of_move h
    have hloop := hsound.leaving error hstage
    have hstatus : (Stage.ended error).status = .left := by
      cases error with
      | noise => cases hloop
      | write => cases hloop
      | read => rfl
      | differentNetwork network => rfl
    simp only [Turn.action, Endpoint.act, hstage]
    exact ⟨rfl, rfl, by rw [hstage]; rfl, hstatus, presence_emit rfl, fun error h => by cases h⟩
  | lose =>
    obtain ⟨⟨height, rfl⟩, hstage⟩ := Turn.of_move h
    simp only [Turn.action, Endpoint.act, hstage]
    exact ⟨rfl, rfl, by rw [hstage]; rfl, rfl, (List.append_nil _).symm, fun error h => by cases h⟩

theorem Endpoint.Sound.still (h : e.Sound) {e' : Endpoint} (hstill : e.Still e') : e'.Sound := by
  refine ⟨?_, fun error herror => ?_⟩
  · rw [hstill.presence, hstill.peerAddr, hstill.status]
    exact h.presence
  · rcases hstill.leaving error herror with hold | hloop
    · exact h.leaving error hold
    · exact hloop

theorem Endpoint.Sound.moves (h : e.Sound) {move : Registry.Move} {e' : Endpoint}
    (hmoves : e.Moves move e') : e'.Sound := by
  refine ⟨?_, fun error herror => absurd herror (hmoves.leaving error)⟩
  rw [hmoves.presence, h.presence, hmoves.before, hmoves.peerAddr, hmoves.status]
  cases move with
  | join => rfl
  | leave => rfl
  | lose => rfl

/-! ## The steps of all connections -/

namespace Connections

variable {ι : Type} {s s' : Connections ι} {i j : ι}

/-- What a step keeps where no connection moves. -/
structure Stays (s s' : Connections ι) : Prop where
  peers : s'.peers = s.peers
  ends : ∀ j, (s.ends j).Still (s'.ends j)

theorem Stays.addr (h : s.Stays s') : s'.addr = s.addr := funext fun j => (h.ends j).peerAddr

theorem Stays.registry (h : s.Stays s') : s'.registry = s.registry :=
  congrArg₂ Registry.mk (funext fun j => (h.ends j).status) h.peers

/-- The flag of an end says whether the peer map holds its sender. -/
structure Filed (s : Connections ι) : Prop where
  key : ∀ a i, s.peers a = some i → s.addr i = a
  flag : ∀ i, (s.ends i).inPeerMap = true ↔ s.peers (s.addr i) = some i

theorem Stays.filed (h : s.Stays s') (hfiled : s.Filed) : s'.Filed := by
  refine ⟨fun a i hi => ?_, fun i => ?_⟩
  · rw [h.addr]
    rw [h.peers] at hi
    exact hfiled.key a i hi
  · rw [(h.ends i).inPeerMap, h.peers, h.addr]
    exact hfiled.flag i

theorem IsStart.sound (h : s.IsStart) (i : ι) : (s.ends i).Sound := by
  obtain ⟨⟨name, hstart⟩, -⟩ := h
  obtain ⟨addr, hi⟩ := hstart i
  rw [hi]
  exact ⟨rfl, fun error herror => nomatch herror⟩

theorem IsStart.exact (h : s.IsStart) : s.registry.Exact s.addr ∧ s.registry.Owned s.addr := by
  obtain ⟨⟨name, hstart⟩, hpeers⟩ := h
  have hout : ∀ i, s.registry.status i = .out := by
    intro i
    obtain ⟨addr, hi⟩ := hstart i
    exact congrArg (·.stage.status) hi
  refine ⟨⟨fun a => ?_, fun i => ?_⟩, fun a i hentry => ?_⟩
  · refine iff_of_false (fun hsome => ?_) ?_
    · rw [show s.registry.entry a = none from hpeers a] at hsome
      cases hsome
    · rintro ⟨i, -, hjoined⟩
      cases (hout i).symm.trans hjoined
  · rw [hout i]
    exact fun hlost => nomatch hlost
  · cases (hpeers a).symm.trans hentry

variable [DecidableEq ι] {t : Turn} {a : SocketAddr} {msg : Message} {move : Registry.Move}
  {input : ConnectionInput ι}

theorem setEnd_self : (s.setEnd i e).ends i = e := Function.update_self ..

theorem setEnd_of_ne (h : j ≠ i) : (s.setEnd i e).ends j = s.ends j := Function.update_of_ne h ..

/-! ### Queueing a message -/

@[simp] theorem peers_send : (s.sendTo a msg).peers = s.peers := by
  unfold sendTo
  split <;> rfl

theorem still_send (s : Connections ι) (a : SocketAddr) (msg : Message) (j : ι) :
    (s.ends j).Still ((s.sendTo a msg).ends j) := by
  unfold sendTo
  split
  · exact .refl _
  · next i hi =>
    by_cases hj : j = i
    · subst hj
      rw [setEnd_self]
      exact still_sendTo _ msg
    · rw [setEnd_of_ne hj]
      exact .refl _

theorem still_broadcast (s : Connections ι) (msg : Message) (j : ι) :
    (s.ends j).Still ((s.broadcast msg).ends j) := by
  simp only [broadcast]
  split
  · exact still_sendTo _ msg
  · exact .refl _

/-! ### Dropping a sender -/

@[simp] theorem peers_displace : (s.displace a).peers = s.peers := by
  unfold displace
  split <;> rfl

theorem ends_displace (s : Connections ι) (a : SocketAddr) (j : ι) :
    (s.displace a).ends j =
      if s.peers a = some j then { s.ends j with inPeerMap := false } else s.ends j := by
  unfold displace
  split
  · next hnone => rw [hnone, if_neg (fun h => nomatch h)]
  · next i hi =>
    by_cases hj : j = i
    · subst hj
      rw [if_pos hi]
      exact setEnd_self
    · rw [if_neg fun h => hj (Option.some.inj (h.symm.trans hi))]
      exact setEnd_of_ne hj

/-! ### Turns -/

/-- The connection whose turn it is acts as an `Endpoint`. -/
theorem turn_self (s : Connections ι) (i : ι) (t : Turn) :
    (s.turn i t).ends i = ((s.ends i).act (s.incoming i) [] t.action).1 := by
  simp only [turn]
  split
  · exact setEnd_self
  · exact setEnd_self
  · exact setEnd_self
  · exact setEnd_self

/-- What a step does where a connection moves. -/
structure Moves (i : ι) (move : Registry.Move) (s s' : Connections ι) : Prop where
  peers : s'.peers = (s.registry.step s.addr i move).entry
  mover : (s.ends i).Moves move (s'.ends i)
  others : ∀ j, j ≠ i →
    s'.ends j = (if move = .lose then s else s.displace (s.addr i)).ends j

theorem turn_stays (h : t.move (s.ends i).stage = none) : s.Stays (s.turn i t) := by
  have hself : (s.ends i).Still ((s.turn i t).ends i) := by
    rw [turn_self]
    exact act_still h
  have hothers : (s.turn i t).peers = s.peers ∧
      ∀ j, j ≠ i → (s.ends j).Still ((s.turn i t).ends j) := by
    simp only [turn]
    split
    · next hstage =>
      rw [hstage] at h
      cases h
    · next error hstage =>
      rw [hstage] at h
      cases h
    · -- a `Pong` may go to another connection
      split
      · refine ⟨peers_send, fun j hj => ?_⟩
        exact (setEnd_of_ne hj).symm ▸ s.still_send _ _ j
      · exact ⟨rfl, fun j hj => (setEnd_of_ne hj).symm ▸ .refl _⟩
    · exact ⟨rfl, fun j hj => (setEnd_of_ne hj).symm ▸ .refl _⟩
  refine ⟨hothers.1, fun j => ?_⟩
  by_cases hj : j = i
  · subst hj
    exact hself
  · exact hothers.2 j hj

theorem turn_moves (hsound : (s.ends i).Sound) (h : t.move (s.ends i).stage = some move) :
    s.Moves i move (s.turn i t) := by
  have hmover : (s.ends i).Moves move ((s.turn i t).ends i) := by
    rw [turn_self]
    exact act_moves hsound h
  cases move with
  | join =>
    obtain ⟨rfl, hstage⟩ := Turn.of_move h
    refine ⟨?_, hmover, fun j hj => ?_⟩
    · simp only [turn, hstage]
      rfl
    · simp only [turn, hstage]
      exact setEnd_of_ne hj
  | leave =>
    obtain ⟨rfl, error, hstage⟩ := Turn.of_move h
    refine ⟨?_, hmover, fun j hj => ?_⟩
    · simp only [turn, hstage]
      rfl
    · simp only [turn, hstage]
      exact setEnd_of_ne hj
  | lose =>
    obtain ⟨⟨height, rfl⟩, hstage⟩ := Turn.of_move h
    refine ⟨?_, hmover, fun j hj => ?_⟩
    · simp only [turn]
      rfl
    · simp only [turn]
      exact setEnd_of_ne hj

theorem step_stays (h : s.move input = none) : s.Stays (s.step input) := by
  cases input with
  | arrive i msg => exact ⟨rfl, fun j => .refl _⟩
  | sendTo a msg => exact ⟨peers_send, s.still_send a msg⟩
  | broadcast msg => exact ⟨rfl, s.still_broadcast msg⟩
  | turn i t => exact turn_stays (Option.map_eq_none_iff.mp h)

theorem step_moves (hsound : ∀ i, (s.ends i).Sound) (h : s.move input = some (i, move)) :
    s.Moves i move (s.step input) := by
  cases input with
  | arrive i msg => cases h
  | sendTo a msg => cases h
  | broadcast msg => cases h
  | turn k t =>
    obtain ⟨m, hmove, heq⟩ := Option.map_eq_some_iff.mp h
    obtain ⟨rfl, rfl⟩ := Prod.mk.inj heq
    exact turn_moves (hsound k) hmove

/-- Another connection may lose its sender, and nothing else. -/
theorem Moves.frame (h : s.Moves i move s') (hj : j ≠ i) :
    ∃ inPeerMap, s'.ends j = { s.ends j with inPeerMap } := by
  rw [h.others j hj]
  split
  · exact ⟨_, rfl⟩
  · rw [ends_displace]
    split
    · exact ⟨_, rfl⟩
    · exact ⟨_, rfl⟩

theorem Moves.addr (h : s.Moves i move s') : s'.addr = s.addr := by
  funext j
  by_cases hj : j = i
  · subst hj
    exact h.mover.peerAddr
  · obtain ⟨inPeerMap, hframe⟩ := h.frame hj
    simp only [Connections.addr, hframe]

theorem Moves.registry (h : s.Moves i move s') :
    s'.registry = s.registry.step s.addr i move := by
  refine congrArg₂ Registry.mk (Eq.trans ?_ Registry.status_step.symm) h.peers
  funext j
  by_cases hj : j = i
  · subst hj
    rw [Function.update_self]
    exact h.mover.status
  · obtain ⟨inPeerMap, hframe⟩ := h.frame hj
    rw [Function.update_of_ne hj, hframe]
    rfl

/-- A step of the connections is a move of the registry, or none. -/
theorem registry_step (hsound : ∀ i, (s.ends i).Sound) (input : ConnectionInput ι) :
    (s.step input).addr = s.addr ∧
    (s.step input).registry = match s.move input with
      | none => s.registry
      | some (i, move) => s.registry.step s.addr i move := by
  cases hmove : s.move input with
  | none => exact ⟨(step_stays hmove).addr, (step_stays hmove).registry⟩
  | some who =>
    have hmoves := step_moves hsound hmove
    exact ⟨hmoves.addr, hmoves.registry⟩

theorem sound_step (hsound : ∀ i, (s.ends i).Sound) (input : ConnectionInput ι) (j : ι) :
    ((s.step input).ends j).Sound := by
  cases hmove : s.move input with
  | none => exact (hsound j).still ((step_stays hmove).ends j)
  | some who =>
    have hmoves := step_moves hsound hmove
    by_cases hj : j = who.1
    · subst hj
      exact (hsound _).moves hmoves.mover
    · obtain ⟨inPeerMap, hframe⟩ := hmoves.frame hj
      rw [hframe]
      exact ⟨(hsound j).presence, (hsound j).leaving⟩

/-! ## Runs of the connections -/

theorem sound (h : (connections ι).Reachable s) : ∀ i, (s.ends i).Sound :=
  h.invariant (P := fun s : Connections ι => ∀ i, (s.ends i).Sound)
    (fun _ hinit => IsStart.sound hinit) fun _ input _ _ hsound => sound_step hsound input

/-- A connection puts a new entry under its address, and the sender filed there is dropped. -/
theorem Filed.set (hfiled : s.Filed) {entry : Option ι} (hentry : ∀ j, entry = some j → j = i)
    (haddr : s'.addr = s.addr) (hpeers : s'.peers = Function.update s.peers (s.addr i) entry)
    (hself : (s'.ends i).inPeerMap = true ↔ entry = some i)
    (hothers : ∀ j, j ≠ i → s'.ends j = (s.displace (s.addr i)).ends j) : s'.Filed := by
  have hnew : s'.peers (s.addr i) = entry := by
    rw [hpeers]
    exact Function.update_self ..
  have hold : ∀ a, a ≠ s.addr i → s'.peers a = s.peers a := by
    intro a ha
    rw [hpeers]
    exact Function.update_of_ne ha ..
  refine ⟨fun a j hj => ?_, fun j => ?_⟩
  · rw [haddr]
    by_cases ha : a = s.addr i
    · subst ha
      rw [hentry j (hnew.symm.trans hj)]
    · exact hfiled.key a j ((hold a ha).symm.trans hj)
  · rw [haddr]
    by_cases hj : j = i
    · subst hj
      rw [hnew]
      exact hself
    · rw [hothers j hj, ends_displace]
      by_cases ha : s.addr j = s.addr i
      · -- the entry of the address is not `j`, and if it was, the sender is dropped
        rw [ha, hnew]
        refine iff_of_false (fun hflag => ?_) fun hsome => hj (hentry j hsome)
        split at hflag
        · cases hflag
        · next hne =>
          rw [hfiled.flag j, ha] at hflag
          exact hne hflag
      · rw [hold _ ha, if_neg fun hsome => ha (hfiled.key _ j hsome)]
        exact hfiled.flag j

theorem Moves.filed (h : s.Moves i move s') (hfiled : s.Filed) : s'.Filed := by
  cases move with
  | join =>
    exact hfiled.set (fun j hj => (Option.some.inj hj).symm) h.addr h.peers
      (iff_of_true h.mover.inPeerMap rfl) h.others
  | leave =>
    have hnone : ∀ j, (none : Option ι) = some j → j = i := fun j hj => nomatch hj
    have hself : (s'.ends i).inPeerMap ≠ true := by
      rw [h.mover.inPeerMap]
      exact Bool.false_ne_true
    exact hfiled.set hnone h.addr h.peers (iff_of_false hself fun hsome => nomatch hsome) h.others
  | lose =>
    have hpeers : s'.peers = s.peers := h.peers
    refine ⟨fun a j hj => ?_, fun j => ?_⟩
    · rw [h.addr]
      exact hfiled.key a j (hpeers ▸ hj)
    · have hflag : (s'.ends j).inPeerMap = (s.ends j).inPeerMap := by
        by_cases hj : j = i
        · subst hj
          exact h.mover.inPeerMap
        · rw [h.others j hj]
          rfl
      rw [hflag, hpeers, h.addr]
      exact hfiled.flag j

/-- In every run, the flag `inPeerMap` of a connection is what the peer map says. -/
theorem filed (h : (connections ι).Reachable s) : s.Filed := by
  refine h.invariant (P := Filed) (fun s hinit => ?_) fun s input hreach _ hfiled => ?_
  · obtain ⟨⟨name, hstart⟩, hpeers⟩ := hinit
    refine ⟨fun a i hi => ?_, fun i => ?_⟩
    · cases (hpeers a).symm.trans hi
    · obtain ⟨addr, hi⟩ := hstart i
      rw [hi, hpeers]
      exact iff_of_false Bool.false_ne_true fun hnone => nomatch hnone
  · cases hmove : s.move input with
    | none => exact (step_stays hmove).filed hfiled
    | some who => exact (step_moves (sound hreach) hmove).filed hfiled

/-! ### The peer map -/

omit [DecidableEq ι] in
/-- What the peer map and the events should be is what the registry should be. -/
theorem peersExact_iff (hsound : ∀ i, (s.ends i).Sound) :
    s.PeersExact ↔ s.registry.Exact s.addr := by
  have hlive : ∀ i, (s.ends i).stage.live = true ↔ s.registry.status i = .joined :=
    fun i => live_iff
  have hpresent : ∀ a, (∃ i, s.addr i = a ∧ (s.ends i).stage.live = true) ↔
      ∃ i, s.addr i = a ∧ s.registry.status i = .joined :=
    fun a => exists_congr fun i => and_congr_right fun _ => hlive i
  refine ⟨fun h => ⟨fun a => (h.present a).trans (hpresent a), fun i hlost => ?_⟩,
    fun h => ⟨fun a => (h.present a).trans (hpresent a).symm, fun i hi => ?_, fun i error hi => ?_⟩⟩
  · -- a lost connection has ended and announced its start alone
    have hstage : (s.ends i).stage = .ended .write := ended_of_lost hlost
    have hpresence := (hsound i).presence
    rw [hstage] at hpresence
    rcases h.disconnected i .write hstage with hnone | hboth
    · cases hpresence.symm.trans hnone
    · cases hpresence.symm.trans hboth
  · rw [(hsound i).presence, live_iff.mp hi]
    rfl
  · have hkept : (s.ends i).stage.status ≠ .lost := h.kept i
    rw [(hsound i).presence]
    rw [hi] at hkept ⊢
    cases error with
    | noise => exact .inl rfl
    | write => cases hkept rfl
    | read => exact .inr rfl
    | differentNetwork network => exact .inr rfl

omit [DecidableEq ι] in
/-- Safe turns are safe moves. -/
theorem safeTurn_iff : s.SafeTurn input ↔
    ∀ i move, s.move input = some (i, move) → s.registry.Safe s.addr i move := by
  refine ⟨fun h i move hmove => ?_, fun h => ⟨fun i height hinput hstage => ?_,
    fun i error hinput hstage j hj haddr => ?_⟩⟩
  · cases input with
    | arrive i msg => cases hmove
    | sendTo a msg => cases hmove
    | broadcast msg => cases hmove
    | turn k t =>
      obtain ⟨m, hm, heq⟩ := Option.map_eq_some_iff.mp hmove
      obtain ⟨rfl, rfl⟩ := Prod.mk.inj heq
      cases m with
      | join => trivial
      | leave =>
        obtain ⟨rfl, error, hstage⟩ := Turn.of_move hm
        intro j hj haddr hjoined
        have hlive := h.alone k error rfl hstage j hj haddr
        rw [live_iff.mpr hjoined] at hlive
        cases hlive
      | lose =>
        obtain ⟨⟨height, rfl⟩, hstage⟩ := Turn.of_move hm
        exact h.written k height rfl hstage
  · subst hinput
    exact h i .lose (by simp [move, hstage, Turn.move])
  · subst hinput
    have hsafe := h i .leave (by simp [move, hstage, Turn.move])
    exact Bool.eq_false_iff.mpr fun hlive => hsafe j hj haddr (live_iff.mp hlive)

/-- Safe turns keep the entries of the peer map those of the live connections. -/
theorem exact_owned (h : (connections ι).Reach SafeTurn s) :
    s.registry.Exact s.addr ∧ s.registry.Owned s.addr := by
  refine h.invariant (P := fun s : Connections ι =>
    s.registry.Exact s.addr ∧ s.registry.Owned s.addr)
    (fun _ hinit => IsStart.exact hinit) fun s input hreach hsafe ⟨hexact, howned⟩ => ?_
  obtain ⟨haddr, hregistry⟩ := registry_step (sound hreach.reachable) input
  change (s.step input).registry.Exact (s.step input).addr ∧
    (s.step input).registry.Owned (s.step input).addr
  rw [haddr, hregistry]
  cases hmove : s.move input with
  | none => exact ⟨hexact, howned⟩
  | some who =>
    have hmoved := safeTurn_iff.mp hsafe who.1 who.2 hmove
    exact ⟨hexact.step hmoved, howned.step hmoved⟩

/-- A step keeps the registry exact if it is safe, and only then. -/
theorem exact_step_iff (hsound : ∀ i, (s.ends i).Sound) (hexact : s.registry.Exact s.addr) :
    (s.step input).registry.Exact (s.step input).addr ↔ s.SafeTurn input := by
  obtain ⟨haddr, hregistry⟩ := registry_step hsound input
  rw [haddr, hregistry, safeTurn_iff]
  cases hmove : s.move input with
  | none => exact iff_of_true hexact fun i move h => nomatch h
  | some who =>
    refine (Registry.exact_step_iff hexact).trans ⟨fun h i move heq => ?_, fun h => h _ _ rfl⟩
    obtain rfl := Option.some.inj heq
    exact h

theorem keepsOthers (hsound : ∀ i, (s.ends i).Sound) (howned : s.registry.Owned s.addr)
    (hsafe : s.SafeTurn input) : s.KeepsOthers input := by
  intro i hends a j hj hentry
  obtain ⟨hbefore, error, hafter⟩ := hends
  cases hmove : s.move input with
  | none =>
    rw [(step_stays hmove).peers]
    exact hentry
  | some who =>
    obtain ⟨k, move⟩ := who
    have hmoves := step_moves hsound hmove
    have hsafe := safeTurn_iff.mp hsafe k move hmove
    have hk : i = k := by
      by_contra hne
      obtain ⟨inPeerMap, hframe⟩ := hmoves.frame hne
      rw [hframe] at hafter
      exact hbefore error hafter
    subst hk
    rw [hmoves.peers]
    cases move with
    | join =>
      have hjoined := hmoves.mover.status
      rw [hafter] at hjoined
      cases live_iff.mpr hjoined
    | leave => exact Registry.entry_leave howned hsafe hj hentry
    | lose => exact hsafe.elim

end Connections

/-- **The peer map.** In every run in which no first write of a registered connection fails
and no connection removes its address while another one to it is live, the peer map is that
of the live connections, the events are theirs, and no connection that ends removes the
sender of another one. A step that is not of this kind breaks it. -/
theorem peers_exact_iff {ι : Type} [DecidableEq ι] {s : Connections ι}
    (h : (connections ι).Reach Connections.SafeTurn s) (input : ConnectionInput ι) :
    s.PeersExact ∧ ((s.step input).PeersExact ∧ s.KeepsOthers input ↔ s.SafeTurn input) := by
  have hsound := Connections.sound h.reachable
  obtain ⟨hexact, howned⟩ := Connections.exact_owned h
  refine ⟨(Connections.peersExact_iff hsound).mpr hexact, ?_⟩
  rw [Connections.peersExact_iff (Connections.sound_step hsound input),
    Connections.exact_step_iff hsound hexact]
  exact and_iff_left_of_imp (Connections.keepsOthers hsound howned)

/-- Two connections to one address that were just opened. -/
def twice : Connections Bool where
  ends _ := .start (ascii "main") ⟨[127, 0, 0, 1], 9000⟩
  peers _ := none
  incoming _ := []

theorem isStart_twice : twice.IsStart := ⟨⟨_, fun _ => ⟨_, rfl⟩⟩, fun _ => rfl⟩

/-- One connection opens, and its peer closes it. -/
def closed : List (ConnectionInput Bool) :=
  [.turn false (.noise true), .turn false .register, .turn false (.writeHandshake 7 true),
    .turn false (.read false)]

theorem reach_closed :
    (connections Bool).Reach Connections.SafeTurn ((connections Bool).run twice closed) := by
  refine .step _ (.step _ (.step _ (.step _ (.init isStart_twice) ?_) ?_) ?_) ?_
  · exact ⟨fun i height h => (nomatch h), fun i error h => (nomatch h)⟩
  · exact ⟨fun i height h => (nomatch h), fun i error h => (nomatch h)⟩
  · exact ⟨fun i height h => (nomatch h), fun i error h => (nomatch h)⟩
  · exact ⟨fun i height h => (nomatch h), fun i error h => (nomatch h)⟩

theorem peers_exact_closed :
    ((connections Bool).run twice closed).PeersExact ∧
    (((connections Bool).run twice closed).step (.turn false .unregister)).PeersExact ∧
    ((connections Bool).run twice closed).KeepsOthers (.turn false .unregister) := by
  obtain ⟨hexact, hsafe⟩ := peers_exact_iff reach_closed (.turn false .unregister)
  refine ⟨hexact, hsafe.mpr ⟨fun i height h => (nomatch h), fun i error hinput _ j hj _ => ?_⟩⟩
  obtain rfl : false = i := (ConnectionInput.turn.inj hinput).1
  obtain rfl := Bool.eq_true_of_not_eq_false hj
  rfl

/-- The first write of a connection fails. -/
def failedWrite : List (ConnectionInput Bool) :=
  [.turn false (.noise true), .turn false .register, .turn false (.writeHandshake 7 false)]

/-- Both connections are live, and one of them is about to leave. -/
def overlapping : List (ConnectionInput Bool) :=
  [.turn false (.noise true), .turn false .register, .turn true (.noise true),
    .turn true .register, .turn false (.writeHandshake 7 true), .turn false (.read false)]

/-- After a failed first write the address stays in the map, with no live connection. A
connection that leaves removes the sender of another one to its address. -/
theorem not_peers_exact :
    (connections Bool).Reachable ((connections Bool).run twice failedWrite) ∧
    ¬ ((connections Bool).run twice failedWrite).PeersExact ∧
    (connections Bool).Reachable ((connections Bool).run twice overlapping) ∧
    ¬ ((connections Bool).run twice overlapping).KeepsOthers (.turn false .unregister) := by
  have hstart := Machine.Reach.init (M := connections Bool) (G := fun _ _ => True) isStart_twice
  refine ⟨Machine.Reachable.run hstart failedWrite, fun h => ?_,
    Machine.Reachable.run hstart overlapping, fun h => ?_⟩
  · obtain ⟨i, -, hlive⟩ := (h.present ⟨[127, 0, 0, 1], 9000⟩).mp rfl
    cases i with
    | false => cases hlive
    | true => cases hlive
  · have hends : ((connections Bool).run twice overlapping).EndsAt (.turn false .unregister) false :=
      ⟨fun error hstage => (nomatch hstage), .read, rfl⟩
    have hkept := h false hends ⟨[127, 0, 0, 1], 9000⟩ true (Bool.noConfusion ·) rfl
    cases hkept

end Network

end Ondris
