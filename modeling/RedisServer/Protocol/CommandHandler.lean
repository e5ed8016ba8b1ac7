import RedisServer.Protocol.Resp

/-! The command handler of `command_handler.c`: the callbacks that gather the
arguments of a command in one buffer, and the dispatch. The bodies of the
commands are a parameter. Sizes are computed as `size_t` values; a write
outside a block and a second `free` have no defined effect, and after them,
as after `exit`, callbacks do nothing. -/
namespace RedisServer

open Machine

inductive ClientType where
  | regular
  | replica
  | master
  deriving DecidableEq

inductive ReplicaClientState where
  | none
  | connecting
  | sentPing
  | receivedPong
  | sentReplconfPort
  | receivedReplconfPortOk
  | sentReplconfCapa
  | receivedReplconfCapaOk
  | sentPsync
  | receivedFullresyncResponse
  | receivingRdbData
  | ready
  | error
  deriving DecidableEq

inductive CommandType where
  | ping
  | echo
  | set
  | get
  | exist
  | del
  | incr
  | decr
  | lpush
  | rpush
  | lrange
  | config
  | save
  | dbsize
  | info
  | unknown
  | replconf
  | psync
  deriving DecidableEq

/-- The names in the order of the tests. -/
def commandNames : List (Bytes × CommandType) :=
  [(ascii ['P', 'I', 'N', 'G'], .ping), (ascii ['E', 'C', 'H', 'O'], .echo),
    (ascii ['S', 'E', 'T'], .set), (ascii ['G', 'E', 'T'], .get),
    (ascii ['E', 'X', 'I', 'S', 'T'], .exist), (ascii ['D', 'E', 'L'], .del),
    (ascii ['I', 'N', 'C', 'R'], .incr), (ascii ['D', 'E', 'C', 'R'], .decr),
    (ascii ['L', 'P', 'U', 'S', 'H'], .lpush), (ascii ['R', 'P', 'U', 'S', 'H'], .rpush),
    (ascii ['L', 'R', 'A', 'N', 'G', 'E'], .lrange), (ascii ['C', 'O', 'N', 'F', 'I', 'G'], .config),
    (ascii ['S', 'A', 'V', 'E'], .save), (ascii ['D', 'B', 'S', 'I', 'Z', 'E'], .dbsize),
    (ascii ['I', 'N', 'F', 'O'], .info),
    (ascii ['R', 'E', 'P', 'L', 'C', 'O', 'N', 'F'], .replconf),
    (ascii ['P', 'S', 'Y', 'N', 'C'], .psync)]

def getCommandType (command : Bytes) : CommandType :=
  ((commandNames.find? (fun entry => entry.1 = cString command)).map Prod.snd).getD .unknown

/-- The fields of a client that the parser and the dispatch look at, and the
rest of the world that command bodies act on. -/
structure Client (ρ : Type) where
  type : ClientType
  replClientState : ReplicaClientState
  shouldPropogateCommand : Bool
  rest : ρ

/-- What comes next from the master is the snapshot, not a request. -/
def Client.AwaitingSnapshot {ρ : Type} (client : Client ρ) : Prop :=
  client.type = .master ∧ client.replClientState = .receivedFullresyncResponse

instance {ρ : Type} (client : Client ρ) : Decidable client.AwaitingSnapshot :=
  inferInstanceAs (Decidable (_ ∧ _))

/-- The command bodies, and what a read through `args[0]` finds when no
argument was stored there. -/
structure Commands (ρ : Type) where
  body : CommandType → List Bytes → ρ → ρ
  stale : Bytes

/-- The dispatch. A `PSYNC` with its arguments makes the client a replica. -/
def handleCommand {ρ : Type} (cmds : Commands ρ) (args : List Bytes) (client : Client ρ) :
    Client ρ :=
  let commandType := getCommandType (args.headD cmds.stale)
  { type := if commandType = .psync ∧ 3 ≤ args.length then .replica else client.type
    replClientState := client.replClientState
    shouldPropogateCommand := decide (commandType = .set)
    rest := cmds.body commandType args client.rest }

/-- Whether the handler can go on. -/
inductive Status where
  | running
  | exited
  | undefined
  deriving DecidableEq

/-- `args` and `ends` are the used parts of their blocks, so `arg_count` and
`ends_size` are their lengths; `buf` has the bytes stored in its block so far.
`freed` tells that the arguments have been freed and are still counted, and
`invocations` are the argument vectors `handle_command` was called with. -/
structure CommandHandler (ρ : Type) where
  buf : Bytes
  bufSize : Nat
  bufUsed : Nat
  args : List Bytes
  argCapacity : Nat
  ends : List Nat
  endsCapacity : Nat
  client : Client ρ
  freed : Bool
  status : Status
  invocations : List (List Bytes)

def createCommandHandler {ρ : Type} (client : Client ρ) (initialBufSize initialArgCapacity : Nat) :
    CommandHandler ρ where
  buf := []
  bufSize := initialBufSize
  bufUsed := 0
  args := []
  argCapacity := initialArgCapacity
  ends := []
  endsCapacity := initialArgCapacity
  client := client
  freed := false
  status := .running
  invocations := []

/-- A request for more than `PTRDIFF_MAX` bytes is the one that fails. -/
def AllocFails (size : Nat) : Prop := 2 ^ 63 ≤ size

instance (size : Nat) : Decidable (AllocFails size) := inferInstanceAs (Decidable (_ ≤ _))

namespace CommandHandler

variable {ρ : Type}

/-- The two growth steps compare the announced length as an unsigned number. -/
def beginArrayHandler (ch : CommandHandler ρ) (len : Int) : CommandHandler ρ :=
  let ch := { ch with bufUsed := 0, args := [], freed := false, ends := [] }
  let bytes := 8 * toSize len % 2 ^ 64
  if ch.argCapacity < toSize len ∧ AllocFails bytes then
    { ch with argCapacity := toSize len, status := .exited }
  else
    let ch := { ch with argCapacity := max ch.argCapacity (toSize len) }
    if ch.endsCapacity < toSize len ∧ AllocFails bytes then
      { ch with endsCapacity := toSize len, status := .exited }
    else { ch with endsCapacity := max ch.endsCapacity (toSize len) }

def beginBulkStringHandler (ch : CommandHandler ρ) (len : Int) : CommandHandler ρ :=
  let requiredSize := toSize (ch.bufUsed + len)
  if ch.bufSize < requiredSize then
    { ch with
      bufSize := requiredSize
      status := if AllocFails requiredSize then .exited else ch.status }
  else ch

def endBulkStringHandler (ch : CommandHandler ρ) : CommandHandler ρ :=
  if ch.endsCapacity ≤ ch.ends.length then { ch with status := .undefined }
  else { ch with ends := ch.ends ++ [ch.bufUsed] }

/-- Copy `last - first` bytes of the memory the parser is reading. -/
def charsHandler (ch : CommandHandler ρ) (mem : Bytes) (first last : Int) : CommandHandler ρ :=
  let len := toSize (last - first)
  if ch.bufSize < ch.bufUsed + len then { ch with status := .undefined }
  else
    { ch with
      buf := ch.buf.take ch.bufUsed ++ (mem.drop first.toNat).take len ++
        ch.buf.drop (ch.bufUsed + len)
      bufUsed := ch.bufUsed + len }

/-- Cut the buffer at the ends. The loop stops where an allocation fails, with
the arguments made so far. -/
def splitArgs (buf : Bytes) : Nat → List Nat → List Bytes × Bool
  | _, [] => ([], true)
  | begin, stop :: ends =>
      let len := toSize ((stop : Int) - begin)
      if AllocFails ((len + 1) % 2 ^ 64) then ([], false)
      else
        let rest := splitArgs buf stop ends
        ((buf.drop begin).take len :: rest.1, rest.2)

/-- An end one byte in front of the last one: a block of no bytes is asked for,
and more is copied than there is memory. -/
def overruns : Nat → List Nat → Bool
  | _, [] => false
  | begin, stop :: ends =>
      let len := toSize ((stop : Int) - begin)
      if AllocFails ((len + 1) % 2 ^ 64) then false
      else decide (len + 1 = 2 ^ 64) || overruns stop ends

/-- Arguments are appended to those still counted from an earlier command,
which are freed a second time. -/
def endArrayHandler (cmds : Commands ρ) (ch : CommandHandler ρ) : CommandHandler ρ :=
  let split := splitArgs ch.buf 0 ch.ends
  let args := ch.args ++ split.1
  if ch.argCapacity < args.length ∨ overruns 0 ch.ends = true then
    { ch with status := .undefined }
  else if split.2 = false then { ch with args := args }
  else if ch.freed = true ∧ ch.args ≠ [] then { ch with status := .undefined }
  else
    { ch with
      args := args
      freed := true
      client := handleCommand cmds args ch.client
      invocations := ch.invocations ++ [args] }

def beginSimpleStringHandler (ch : CommandHandler ρ) : CommandHandler ρ := { ch with bufUsed := 0 }

/-- The answers a replica waits for in the handshake with its master. -/
def handleSimpleStringReply (ch : CommandHandler ρ) : CommandHandler ρ :=
  let reply := cString ch.buf
  let expect (text : Bytes) (next : ReplicaClientState) : CommandHandler ρ :=
    { ch with client := { ch.client with replClientState := if reply = text then next else .error } }
  if ch.client.type = .master then
    match ch.client.replClientState with
    | .sentPing => expect (ascii ['P', 'O', 'N', 'G']) .receivedPong
    | .sentReplconfPort => expect (ascii ['O', 'K']) .receivedReplconfPortOk
    | .sentReplconfCapa => expect (ascii ['O', 'K']) .receivedReplconfCapaOk
    | .sentPsync =>
        { ch with client := { ch.client with
            replClientState :=
              if reply.take 9 = ascii ['F', 'U', 'L', 'L', 'R', 'E', 'S', 'Y', 'N'] then
                .receivedFullresyncResponse
              else .error } }
    | _ => ch
  else ch

def endSimpleStringHandler (ch : CommandHandler ρ) : CommandHandler ρ :=
  if ch.bufUsed < ch.bufSize then
    handleSimpleStringReply
      { ch with buf := ch.buf.take ch.bufUsed ++ 0 :: ch.buf.drop (ch.bufUsed + 1) }
  else { ch with client := { ch.client with replClientState := .error } }

/-- The table of `create_handler`. Errors and integers are not implemented. -/
def react (cmds : Commands ρ) (mem : Bytes) (ch : CommandHandler ρ) : Callback → CommandHandler ρ
  | .beginArray len => ch.beginArrayHandler len
  | .endArray => endArrayHandler cmds ch
  | .beginBulkString len => ch.beginBulkStringHandler len
  | .endBulkString => ch.endBulkStringHandler
  | .chars first last => ch.charsHandler mem first last
  | .beginSimpleString => ch.beginSimpleStringHandler
  | .endSimpleString => ch.endSimpleStringHandler
  | .beginError | .endError | .beginInteger | .endInteger => ch

def handle (cmds : Commands ρ) (mem : Bytes) (ch : CommandHandler ρ) (call : Callback) :
    CommandHandler ρ :=
  if ch.status = .running then react cmds mem ch call else ch

end CommandHandler

/-- The handler the server creates. -/
def createHandler {ρ : Type} (cmds : Commands ρ) : Handler (CommandHandler ρ) where
  handle := CommandHandler.handle cmds
  awaitingSnapshot ch := decide ch.client.AwaitingSnapshot

/-- Commands that do nothing, and a client to send them, for concrete runs. -/
def idleCommands : Commands Unit := ⟨fun _ _ _ => (), []⟩

def idleClient : Client Unit := ⟨.regular, .none, false, ()⟩

end RedisServer
