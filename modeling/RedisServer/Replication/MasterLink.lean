import RedisServer.Protocol.ClientInput

/-! The link of a replica to its master, after `replica_handle_master_data`.
Three loops read on this link: the one of `process_client_input`, inside it the
one of `parser_parse`, and the one of `replica_receive_rdb_snapshot`. A step is
one iteration of the loop the code is in, so that every intermediate state of
a run is a state here, also when a loop does not end. Nothing on this link
depends on the propagation of what the master sends. -/
namespace RedisServer

open Machine

/-- What a `read` from a socket finds. No bytes are the end of the stream. -/
inductive ReadResult where
  | bytes (b : Bytes)
  | wouldBlock
  | interrupted
  | failed

/-- A `read` of at most `len` bytes, and what later ones find. The rest of a
longer chunk stays in the socket. Beyond what is listed the socket blocks. -/
def readSocket (len : Nat) : List ReadResult → ReadResult × List ReadResult
  | [] => (.wouldBlock, [])
  | .bytes b :: rest =>
      (.bytes (b.take len), if b.length ≤ len then rest else .bytes (b.drop len) :: rest)
  | result :: rest => (result, rest)

/-- The range between the two ends that `process_client_input` gives to the
parser, with the rest of the double mapping behind it. -/
def RingBuffer.readRange (rb : RingBuffer) : Option Range := do
  let (ptr, len) ← rbReadable rb
  if h : len.toNat ≤ 2 * rb.size.toNat - ptr then
    some ⟨rb.load ptr (2 * rb.size.toNat - ptr), len.toNat, by rw [load, window_length]; exact h⟩
  else none

/-- Where the code is: between two events, or at the head of one of its loops.
`short` tells that the last read did not fill the room in the ring, and
`bytesRead` is not set before the first read. After a failed assertion, an
access outside the mapping, a use of a variable that was not set, or the end of
the connection the link is `stopped`. -/
inductive Control where
  | idle
  | input
  | parse (r : Range) (begin : Int) (short : Bool)
  | receive (bytesRead : Option Int)
  | stopped

/-- The replica that has the link: its commands, its port, and what loading a
snapshot file does to the rest of the world. -/
structure ReplicaServer (ρ : Type) where
  cmds : Commands ρ
  port : Bytes
  rdbLoadDataFromFile : Bytes → ρ → ρ

/-- The client that stands for the master. `tmpRdb` is the content of the
temporary file from when it is opened, `socket` what the next reads find, and
`sent` are the commands that the send helpers have put into the output. -/
structure MasterLink (ρ : Type) where
  inputBuffer : RingBuffer
  parser : Parser
  handler : CommandHandler ρ
  rdbExpectedBytes : Int
  rdbReceivedBytes : Int
  rdbWrittenBytes : Int
  tmpRdb : Option Bytes
  socket : List ReadResult
  sent : List (List Bytes)
  control : Control

/-- The connection to the master as it is set up at the start. -/
def connectMaster {ρ : Type} (rb : RingBuffer) (rest : ρ) : MasterLink ρ where
  inputBuffer := rb
  parser := parserInit
  handler := createCommandHandler ⟨.master, .connecting, false, rest⟩ 256 10
  rdbExpectedBytes := 0
  rdbReceivedBytes := 0
  rdbWrittenBytes := 0
  tmpRdb := none
  socket := []
  sent := []
  control := .idle

/-- The position of the first line end. -/
def crlfPos : Bytes → Option Nat
  | a :: b :: rest => if a = 13 ∧ b = 10 then some 0 else (crlfPos (b :: rest)).map (· + 1)
  | _ => none

namespace MasterLink

variable {ρ : Type}

def replClientState (s : MasterLink ρ) : ReplicaClientState := s.handler.client.replClientState

def setReplClientState (s : MasterLink ρ) (state : ReplicaClientState) : MasterLink ρ :=
  { s with handler := { s.handler with client := { s.handler.client with replClientState := state } } }

/-- Queue a command for the master, flush, and note that it was sent. -/
def sendCommand (command : List Bytes) (state : ReplicaClientState) (s : MasterLink ρ) :
    MasterLink ρ :=
  { s with sent := s.sent ++ [command] }.setReplClientState state

def pingCommand : List Bytes := [text "PING"]

def replconfListeningPortCommand (port : Bytes) : List Bytes :=
  [text "REPLCONF", text "listening-port", port]

def replconfCapaCommand : List Bytes := [text "REPLCONF", text "capa", text "psync2"]

def psyncCommand : List Bytes := [text "PSYNC", text "?", text "-1"]

def sendPingCommand : MasterLink ρ → MasterLink ρ := sendCommand pingCommand .sentPing

def sendReplconfListeningPortCommand (port : Bytes) : MasterLink ρ → MasterLink ρ :=
  sendCommand (replconfListeningPortCommand port) .sentReplconfPort

def sendReplconfCapaCommand : MasterLink ρ → MasterLink ρ :=
  sendCommand replconfCapaCommand .sentReplconfCapa

def sendPsyncCommand : MasterLink ρ → MasterLink ρ := sendCommand psyncCommand .sentPsync

/-- The start of `replica_receive_rdb_snapshot`: a file that is not open yet is
opened, and is empty then. -/
def beginReceive (s : MasterLink ρ) : MasterLink ρ :=
  { s with tmpRdb := some (s.tmpRdb.getD []), control := .receive none }

/-- The scan for the header of the snapshot. It looks at the ring alone. A
header that does not start with a dollar or has no digits is only reported. -/
def receiveHeader (s : MasterLink ρ) : MasterLink ρ :=
  match rbReadable s.inputBuffer with
  | none => { s with control := .stopped }
  | some (readBuf, readableLen) =>
      if readableLen.toNat < 4 then s
      else
        match crlfPos (s.inputBuffer.load readBuf readableLen.toNat) with
        | none => s
        | some pos =>
            let mem := s.inputBuffer.load readBuf (2 * s.inputBuffer.size.toNat - readBuf)
            match rbRead s.inputBuffer (UInt64.ofNat (pos + 2)) with
            | none => { s with control := .stopped }
            | some (ring, code) =>
                if code ≠ 0 then { s with inputBuffer := ring }
                else
                  (setReplClientState { s with
                    inputBuffer := ring
                    rdbExpectedBytes := (strtol (mem.drop 1)).value
                    rdbReceivedBytes := 0 } .receivingRdbData).beginReceive

/-- An event on the link. Between two events every other loop has ended. -/
def replicaHandleMasterData (srv : ReplicaServer ρ) (s : MasterLink ρ) : MasterLink ρ :=
  match s.replClientState with
  | .connecting => s.sendPingCommand
  | .sentPing | .sentReplconfPort | .sentReplconfCapa | .sentPsync => { s with control := .input }
  | .receivedPong => s.sendReplconfListeningPortCommand srv.port
  | .receivedReplconfPortOk => s.sendReplconfCapaCommand
  | .receivedReplconfCapaOk => s.sendPsyncCommand
  | .receivedFullresyncResponse => s.receiveHeader
  | .receivingRdbData => s.beginReceive
  | .ready => { s with control := .input }
  | .none | .error => s

/-- The read of `process_client_input`. At the end of the stream the client is
disconnected and freed. -/
def inputStep (s : MasterLink ρ) : MasterLink ρ :=
  match rbWritable s.inputBuffer with
  | none => { s with control := .stopped }
  | some (writeBuf, writableLen) =>
      if writableLen.toNat = 0 then { s with control := .idle }
      else
        let (result, socket) := readSocket writableLen.toNat s.socket
        let s := { s with socket := socket }
        match result with
        | .wouldBlock | .failed => { s with control := .idle }
        | .interrupted => s
        | .bytes b =>
            if b = [] then { s with control := .stopped }
            else
              match rbWrite (s.inputBuffer.memcpy writeBuf b) (UInt64.ofNat b.length) with
              | none => { s with control := .stopped }
              | some (ring, code) =>
                  let s := { s with inputBuffer := ring }
                  if code ≠ 0 then { s with control := .idle }
                  else
                    match ring.readRange with
                    | none => { s with control := .stopped }
                    | some r =>
                        { s with control := .parse r 0 (decide (b.length < writableLen.toNat)) }

/-- The end of an iteration of `process_client_input`: the parser has returned
this position. -/
def consume (begin : Int) (short : Bool) (s : MasterLink ρ) : MasterLink ρ :=
  match rbRead s.inputBuffer (UInt64.ofNat (toSize begin)) with
  | none => { s with control := .stopped }
  | some (ring, code) =>
      { s with
        inputBuffer := ring
        control := if code ≠ 0 ∨ short = true then .idle else .input }

/-- One iteration of `parser_parse`. -/
def parseStep (srv : ReplicaServer ρ) (r : Range) (begin : Int) (short : Bool)
    (s : MasterLink ρ) : MasterLink ρ :=
  let (run, keepGoing) := parserStep (createHandler srv.cmds) r ⟨s.parser, s.handler, begin⟩
  let s := { s with parser := run.parser, handler := run.handler }
  if run.handler.status ≠ .running then { s with control := .stopped }
  else if keepGoing = true then { s with control := .parse r run.begin short }
  else s.consume run.begin short

/-- The number of bytes that the parser returns, when the iteration that comes
next is its last one. -/
def bytesParsed (srv : ReplicaServer ρ) (s : MasterLink ρ) : Option Nat :=
  match s.control with
  | .parse r begin _ =>
      let (run, keepGoing) := parserStep (createHandler srv.cmds) r ⟨s.parser, s.handler, begin⟩
      if run.handler.status = .running ∧ keepGoing = false then some (toSize run.begin) else none
  | _ => none

/-- The second half of an iteration of `replica_receive_rdb_snapshot`. As many
bytes as were read last go from the ring to the file, however many there are. -/
def drain (srv : ReplicaServer ρ) (bytesRead : Int) (s : MasterLink ρ) : MasterLink ρ :=
  match rbReadable s.inputBuffer with
  | none => { s with control := .stopped }
  | some (readBuf, _) =>
      let len := toSize bytesRead
      if 2 * s.inputBuffer.size.toNat < readBuf + len then { s with control := .stopped }
      else
        match rbRead s.inputBuffer (UInt64.ofNat len) with
        | none => { s with control := .stopped }
        | some (ring, _) =>
            let file := s.tmpRdb.getD [] ++ s.inputBuffer.load readBuf len
            let s := { s with
              inputBuffer := ring
              tmpRdb := some file
              rdbWrittenBytes := s.rdbWrittenBytes + len }
            if s.rdbWrittenBytes = s.rdbExpectedBytes then
              { s with
                handler := { s.handler with client := { s.handler.client with
                  replClientState := .ready
                  rest := srv.rdbLoadDataFromFile file s.handler.client.rest } }
                control := .idle }
            else { s with control := .receive (some bytesRead) }

/-- One iteration of `replica_receive_rdb_snapshot`. The size of the read is
what is missing of the snapshot, not the room in the ring. -/
def receiveStep (srv : ReplicaServer ρ) (bytesRead : Option Int) (s : MasterLink ρ) :
    MasterLink ρ :=
  if s.rdbReceivedBytes < s.rdbExpectedBytes then
    match rbWritable s.inputBuffer with
    | none => { s with control := .stopped }
    | some (writeBuf, writableLen) =>
        if writableLen.toNat = 0 then { s with control := .idle }
        else
          let remainingBytesToRead := toSize (s.rdbExpectedBytes - s.rdbReceivedBytes)
          let (result, socket) := readSocket remainingBytesToRead s.socket
          let s := { s with socket := socket }
          match result with
          | .wouldBlock | .failed => { s with control := .idle }
          | .interrupted => { s with control := .receive (some (-1)) }
          | .bytes b =>
              if b = [] then { s with control := .idle }
              else if 2 * s.inputBuffer.size.toNat < writeBuf + b.length then
                { s with control := .stopped }
              else
                match rbWrite (s.inputBuffer.memcpy writeBuf b) (UInt64.ofNat b.length) with
                | none => { s with control := .stopped }
                | some (ring, _) =>
                    drain srv b.length { s with
                      inputBuffer := ring
                      rdbReceivedBytes := s.rdbReceivedBytes + b.length }
  else
    match bytesRead with
    | none => { s with control := .stopped }
    | some n => drain srv n s

/-- One iteration of the loop the code is in. -/
def tick (srv : ReplicaServer ρ) (s : MasterLink ρ) : MasterLink ρ :=
  match s.control with
  | .idle | .stopped => s
  | .input => s.inputStep
  | .parse r begin short => s.parseStep srv r begin short
  | .receive bytesRead => s.receiveStep srv bytesRead

/-- An event of either kind. A `PSYNC` from the master makes it a replica, for
which there are other handlers. -/
def wake (srv : ReplicaServer ρ) (s : MasterLink ρ) : MasterLink ρ :=
  match s.control with
  | .idle => if s.handler.client.type = .master then s.replicaHandleMasterData srv else s
  | _ => s

end MasterLink

/-- What can happen on the link: bytes arrive, the event loop calls the handler
for a read or a write event, or the code that was called goes on. -/
inductive MasterLinkEvent where
  | deliver (results : List ReadResult)
  | wake
  | tick

def MasterLink.step {ρ : Type} (srv : ReplicaServer ρ) (s : MasterLink ρ) :
    MasterLinkEvent → MasterLink ρ × Unit
  | .deliver results => ({ s with socket := s.socket ++ results }, ())
  | .wake => (s.wake srv, ())
  | .tick => (s.tick srv, ())

end RedisServer
