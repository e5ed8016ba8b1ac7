import RedisServer.Replication.ReplicaTable
import RedisServer.Replication.Backlog

/-! The loop of `start_server` over the events of `epoll_wait`, with the life of the
clients: who is allocated and registered, for what, and who handles an event. A batch
of events holds the addresses of clients, and a handler may free its client. So it
matters that nothing else in the batch still refers to it. -/
namespace RedisServer

open Machine

def epollin : BitVec 32 := 0x001
def epollout : BitVec 32 := 0x004
def epollerr : BitVec 32 := 0x008
def epollhup : BitVec 32 := 0x010

/-- A test such as `events & EPOLLIN`. -/
def Has (mask bit : BitVec 32) : Prop := mask &&& bit ≠ 0

instance (mask bit : BitVec 32) : Decidable (Has mask bit) := inferInstanceAs (Decidable (_ ≠ _))

/-- What the loop depends on in a client. -/
structure LoopClient where
  type : ClientType
  epollEvents : BitVec 32
  masterReplState : MasterReplicaState
  replClientState : ReplicaClientState

structure ReadyEvent where
  ptr : Option Nat
  events : BitVec 32

/-- The allocated clients by their addresses, the registrations of the descriptors
under the same addresses, the array of replicas, the rest of the batch, and the client
whose `EPOLLOUT` has still to be handled. -/
structure EventLoop where
  clients : Nat → Option LoopClient
  interest : Nat → Option (BitVec 32)
  replicas : List Nat
  events : List ReadyEvent
  out : Option Nat

/-- What the parser passes on in a read and the loop depends on: a `PSYNC`, which finds
its offset in the backlog or does not, and an answer in the buffer of the handler. -/
inductive LoopCommand where
  | psync (args : List Bytes) (partialResync : Bool)
  | simpleString (buf : Bytes) (bufUsed bufSize : Nat)

/-- The passes of `process_client_input`. The last one returns without a read or finds
the end of the stream. A read that is propagated comes with the replicas that have room
for it. -/
inductive Reading where
  | returns
  | closes
  | reads (commands : List LoopCommand) (propagated : Option (Nat → Bool)) (next : Reading)

/-- What a handler meets: on the socket, in the snapshot that is received or sent, in
the backlog, and for a new connection the address of its client and what lies there. -/
structure LoopTurn where
  reading : Reading
  headerRead : Bool
  snapshotReceived : Bool
  snapshotSent : Bool
  psync : PsyncChoice
  accepted : Option (Nat × LoopClient)

namespace LoopClient

/-- `end_simple_string_handler`. -/
def endSimpleString (c : LoopClient) (buf : Bytes) (bufUsed bufSize : Nat) : LoopClient :=
  { c with
    replClientState := (CommandHandler.endSimpleStringHandler
      { createCommandHandler ⟨c.type, c.replClientState, false, ()⟩ 256 10 with
        buf := buf
        bufUsed := bufUsed
        bufSize := bufSize }).client.replClientState }

/-- The states in which `replica_handle_master_data` reads and parses. -/
def ExpectsInput (c : LoopClient) : Prop :=
  c.replClientState = .sentPing ∨ c.replClientState = .sentReplconfPort ∨
    c.replClientState = .sentReplconfCapa ∨ c.replClientState = .sentPsync ∨
    c.replClientState = .ready

instance (c : LoopClient) : Decidable c.ExpectsInput := inferInstanceAs (Decidable (_ ∨ _))

end LoopClient

namespace EventLoop

variable (s : EventLoop) (client : Nat)

def setClient (c : Option LoopClient) : EventLoop :=
  { s with clients := Function.update s.clients client c }

/-- The three functions that change what a client is monitored for. A descriptor that
is not registered ends the process. -/
def monitor (change : BitVec 32 → BitVec 32) : Option EventLoop := do
  let c ← s.clients client
  let _ ← s.interest client
  let mask := change c.epollEvents
  some { s.setClient client (some { c with epollEvents := mask }) with
    interest := Function.update s.interest client (some mask) }

def clientEnableReadEvents : Option EventLoop := s.monitor client (· ||| epollin)

def clientEnableWriteEvents : Option EventLoop := s.monitor client (· ||| epollout)

def clientDisableWriteEvents : Option EventLoop := s.monitor client (· &&& ~~~epollout)

/-- There is no result after a write outside the array. -/
def addReplica : Option EventLoop := do
  let c ← s.clients client
  if s.replicas.length < maxReplicas then
    some { s.setClient client (some { c with type := .replica }) with
      replicas := s.replicas ++ [client] }
  else none

def removeReplica : Option EventLoop :=
  if client ∈ s.replicas then
    some { s with replicas := swapRemove s.replicas (s.replicas.idxOf client) }
  else none

def handleClientDisconnection : Option EventLoop := do
  let c ← s.clients client
  let s := { s with interest := Function.update s.interest client none }
  let s ← if c.type = .replica then s.removeReplica client else some s
  some (s.setClient client none)

/-- Either resynchronisation attaches the client and monitors it for output. -/
def handlePsync (args : List Bytes) (partialResync : Bool) : Option EventLoop :=
  if args.length < 3 then some s
  else do
    let s ← s.addReplica client
    let c ← s.clients client
    let state : MasterReplicaState := if partialResync then .psync else .sendingRdbData
    (s.setClient client (some { c with masterReplState := state })).clientEnableWriteEvents client

def runCommand : LoopCommand → Option EventLoop
  | .psync args partialResync => s.handlePsync client args partialResync
  | .simpleString buf bufUsed bufSize => do
      let c ← s.clients client
      some (s.setClient client (some (c.endSimpleString buf bufUsed bufSize)))

/-- The loop over the array. Without room for the bytes, the client that has sent them
is freed, and it is used when the loop has ended. -/
def propagateTo (room : Nat → Bool) : List Nat → EventLoop → Option EventLoop
  | [], s => some s
  | replica :: rest, s => do
      let _ ← s.clients replica
      if room replica then
        let s ← s.clientEnableWriteEvents replica
        propagateTo room rest s
      else none

def propagate : Option (Nat → Bool) → Option EventLoop
  | none => some s
  | some room => propagateTo room s.replicas s

def processClientInput (client : Nat) : Reading → EventLoop → Option EventLoop
  | .returns, s => some s
  | .closes, s => s.handleClientDisconnection client
  | .reads commands propagated next, s => do
      let s ← commands.foldlM (fun s command => s.runCommand client command) s
      let s ← s.propagate propagated
      processClientInput client next s

def setReplClientState (state : ReplicaClientState) : Option EventLoop := do
  let c ← s.clients client
  some (s.setClient client (some { c with replClientState := state }))

def replicaReceiveRdbSnapshot (t : LoopTurn) : Option EventLoop :=
  if t.snapshotReceived then do
    let s ← s.setReplClientState client .ready
    s.clientEnableReadEvents client
  else some s

def replicaHandleMasterData (t : LoopTurn) : Option EventLoop := do
  let c ← s.clients client
  match c.replClientState with
  | .connecting => s.setReplClientState client .sentPing
  | .sentPing | .sentReplconfPort | .sentReplconfCapa | .sentPsync | .ready =>
      processClientInput client t.reading s
  | .receivedPong => s.setReplClientState client .sentReplconfPort
  | .receivedReplconfPortOk => s.setReplClientState client .sentReplconfCapa
  | .receivedReplconfCapaOk => s.setReplClientState client .sentPsync
  | .receivedFullresyncResponse =>
      if t.headerRead then do
        let s ← s.setReplClientState client .receivingRdbData
        s.replicaReceiveRdbSnapshot client t
      else some s
  | .receivingRdbData => s.replicaReceiveRdbSnapshot client t
  | .none | .error => some s

def setMasterReplState (state : MasterReplicaState) : Option EventLoop := do
  let c ← s.clients client
  some (s.setClient client (some { c with masterReplState := state }))

/-- A slice of the backlog is copied over the record of the output ring, its cursors and
its address, and over what lies behind. There is no result after that. -/
def continuePsync : PsyncChoice → Option EventLoop
  | .caughtUp => do
      let s ← s.setMasterReplState client .propagate
      s.clientDisableWriteEvents client
  | .ahead | .outside => s.handleClientDisconnection client
  | .nothing => some s
  | .copies _ _ => none

def masterHandleReplicaOut (t : LoopTurn) : Option EventLoop := do
  let c ← s.clients client
  match c.masterReplState with
  | .propagate => some s
  | .sendingRdbData =>
      if t.snapshotSent then do
        let s ← s.clientDisableWriteEvents client
        s.setMasterReplState client .propagate
      else some s
  | .psync => s.continuePsync client t.psync

/-- A connection is accepted. `create_client` leaves most of the memory as it is. An
address that is in use is not given out. -/
def connect (accepted : Option (Nat × LoopClient)) : Option EventLoop := do
  let (client, garbage) ← accepted
  match s.clients client with
  | some _ => some s
  | none =>
      let s := s.setClient client (some { garbage with type := .regular, epollEvents := 0 })
      { s with interest := Function.update s.interest client (some epollin) }.clientEnableReadEvents
        client

/-- The branches for `EPOLLIN`. -/
def handleInput (t : LoopTurn) : Option EventLoop := do
  let c ← s.clients client
  match c.type with
  | .regular => processClientInput client t.reading s
  | .master => s.replicaHandleMasterData client t
  | .replica => some s

/-- The branches for `EPOLLOUT`. A flush leaves everything here as it is. -/
def handleOutput (t : LoopTurn) : Option EventLoop := do
  let c ← s.clients client
  match c.type with
  | .replica => s.masterHandleReplicaOut client t
  | .master => s.replicaHandleMasterData client t
  | .regular => some s

/-- One turn: what is left to do for the last event, or the first test of the next one.
The operator `&` binds closer than `|`. -/
def turn (t : LoopTurn) : Option EventLoop :=
  match s.out, s.events with
  | some client, _ => { s with out := none }.handleOutput client t
  | none, [] => some s
  | none, event :: rest =>
      let s := { s with events := rest }
      match event.ptr with
      | none => s.connect t.accepted
      | some client =>
          if event.events &&& epollin ||| epollout ≠ 0 then do
            let s ← if Has event.events epollin then s.handleInput client t else some s
            some (if Has event.events epollout then { s with out := some client } else s)
          else if event.events &&& epollhup ||| epollerr ≠ 0 then
            s.handleClientDisconnection client
          else some s

/-- What is not asked for is not reported, errors and hangups apart. -/
def Reports (mask events : BitVec 32) : Prop :=
  (Has events epollin → Has mask epollin) ∧ (Has events epollout → Has mask epollout)

instance (mask events : BitVec 32) : Decidable (Reports mask events) :=
  inferInstanceAs (Decidable (_ ∧ _))

/-- A descriptor that is not registered reports nothing. -/
def Registered : Option (BitVec 32) → BitVec 32 → Prop
  | some mask, events => Reports mask events
  | none, _ => False

instance : (registered : Option (BitVec 32)) → (events : BitVec 32) →
    Decidable (Registered registered events)
  | some mask, events => inferInstanceAs (Decidable (Reports mask events))
  | none, _ => isFalse id

/-- What `epoll_wait` can return: one event for a descriptor. -/
def Ready (events : List ReadyEvent) : Prop :=
  (events.map ReadyEvent.ptr).Nodup ∧
    ∀ event ∈ events, ∀ client ∈ event.ptr, Registered (s.interest client) event.events

instance (events : List ReadyEvent) : Decidable (s.Ready events) :=
  inferInstanceAs (Decidable (_ ∧ _))

end EventLoop

/-- What happens: a batch is waited for, a turn is taken, or a handler writes to a
connection that its other end has closed, and the signal that comes of it, which nothing
catches, ends the process. -/
inductive LoopLabel where
  | wait (events : List ReadyEvent)
  | turn (t : LoopTurn)
  | sigpipe

namespace EventLoop

/-- The next batch is waited for when the last one has been handled. Only handlers write. -/
def step : Option EventLoop → LoopLabel → Option EventLoop × Unit
  | none, _ => (none, ())
  | some s, .wait events =>
      (some (if s.out = none ∧ s.events = [] ∧ s.Ready events then { s with events := events }
        else s), ())
  | some s, .turn t => (s.turn t, ())
  | some s, .sigpipe => (if s.out = none ∧ s.events = [] then some s else none, ())

/-- The server when the loop begins. A replica has the link to its master by then, which
is monitored for output. -/
def start (link : Option (Nat × MasterReplicaState)) : EventLoop where
  clients client := link.bind fun (master, state) =>
    if client = master then some ⟨.master, 0 ||| epollout, state, .connecting⟩ else none
  interest client := link.bind fun (master, _) =>
    if client = master then some (0 ||| epollout) else none
  replicas := []
  events := []
  out := none

end EventLoop

section Bits

variable {m : BitVec 32}

theorem has_twoPow (m : BitVec 32) (i : Nat) : Has m (BitVec.twoPow 32 i) ↔
    m.getLsbD i = true ∧ i < 32 := by
  unfold Has
  rw [BitVec.and_twoPow]
  split
  · rename_i hBit
    have hLt : i < 32 := by
      by_contra hLarge
      rw [BitVec.getLsbD_of_ge m i (by omega)] at hBit
      cases hBit
    refine iff_of_true (fun hZero => ?_) ⟨hBit, hLt⟩
    have hSet : (BitVec.twoPow 32 i).getLsbD i = true := by simp [hLt]
    rw [hZero] at hSet
    simp at hSet
  · rename_i hBit
    exact iff_of_false (fun h => h rfl) fun h => hBit h.1

theorem has_epollin : Has m epollin ↔ m.getLsbD 0 = true := by
  have hBit : epollin = BitVec.twoPow 32 0 := by decide
  rw [hBit, has_twoPow]
  simp

theorem has_epollout : Has m epollout ↔ m.getLsbD 2 = true := by
  have hBit : epollout = BitVec.twoPow 32 2 := by decide
  rw [hBit, has_twoPow]
  simp

@[simp] theorem has_epollin_or_epollin : Has (m ||| epollin) epollin := by
  rw [has_epollin, BitVec.getLsbD_or]
  simp [epollin]

@[simp] theorem has_epollout_or_epollout : Has (m ||| epollout) epollout := by
  rw [has_epollout, BitVec.getLsbD_or]
  simp [epollout]

@[simp] theorem has_epollout_or_epollin : Has (m ||| epollin) epollout ↔ Has m epollout := by
  rw [has_epollout, has_epollout, BitVec.getLsbD_or]
  simp [epollin]

@[simp] theorem has_epollin_or_epollout : Has (m ||| epollout) epollin ↔ Has m epollin := by
  rw [has_epollin, has_epollin, BitVec.getLsbD_or]
  simp [epollout]

@[simp] theorem has_epollin_disable : Has (m &&& ~~~epollout) epollin ↔ Has m epollin := by
  rw [has_epollin, has_epollin, BitVec.getLsbD_and]
  simp [epollout]

/-- The test that was meant to be `events & (EPOLLIN | EPOLLOUT)`. -/
theorem first_test_ne_zero (m : BitVec 32) : m &&& epollin ||| epollout ≠ 0 := by
  intro hZero
  have hBit : (m &&& epollin ||| epollout).getLsbD 2 = true := by
    rw [BitVec.getLsbD_or]
    simp [epollout]
  rw [hZero] at hBit
  simp at hBit

end Bits

end RedisServer
