import RedisServer.Protocol.Replies
import RedisServer.Snapshot.Rdb

/-! The command bodies of `commands.c`. A body changes the store and passes
replies to the helpers, which tell it nothing about the output ring; here it
reports its replies in order. The members of a value's union are read through
functions that have no result when another member was stored. -/
namespace RedisServer

open Machine

inductive ValueType where
  | string
  | list
  deriving DecidableEq

namespace RedisData

def type : RedisData → ValueType
  | .str _ => .string
  | .list _ => .list

/-- The member `str` of the union. -/
def strMember : RedisData → Option Bytes
  | .str s => some s
  | .list _ => none

/-- The member `list` of the union. -/
def listMember : RedisData → Option (List Bytes)
  | .str _ => none
  | .list xs => some xs

end RedisData

/-- The value is dropped by the store, which frees the text of a string. -/
def RedisValue.drop (v : RedisValue) : Option Unit :=
  if v.data.type = .string then v.data.strMember.map fun _ => () else some ()

/-- `delete` frees lists as well. -/
def RedisValue.destroy (v : RedisValue) : Option Unit :=
  if v.data.type = .string then v.data.strMember.map fun _ => ()
  else if v.data.type = .list then v.data.listMember.map fun _ => ()
  else some ()

inductive ServerRole where
  | master
  | slave
  deriving DecidableEq

structure ServerConfig where
  dir : Bytes
  dbfilename : Bytes

/-- What the master does next with a replica. -/
inductive MasterReplicaState where
  | psync
  | sendingRdbData
  | propagate
  deriving DecidableEq

/-- The fields of a client that its master uses once it is a replica. -/
structure ReplicaFields where
  masterReplState : MasterReplicaState
  replOffset : Int
  rdbFileOffset : Int
  rdbFileSize : Int
  deriving DecidableEq

/-- What a body passes to the writers: a reply, or the header of the snapshot
that will follow it. -/
inductive Output where
  | reply (r : Reply)
  | bulkHeader (len : Int)
  deriving DecidableEq

/-- The client and the globals as a body sees them. The readings of the clock
are those still to come; `dump` is the file of the last save, and `replica` is
there once the client is one of the replicas. -/
structure World where
  db : RedisDb
  clock : Nat → Int
  shouldReply : Bool
  config : ServerConfig
  role : ServerRole
  masterReplOffset : Int
  replBacklogBaseOffset : Int
  dump : Bytes
  replica : Option ReplicaFields
  outputs : List Output

/-- The identifier is never changed. -/
def masterReplid : Bytes := text "8371b4fb1155b71f4a04d3e1bc3e18c4a990aeeb"

namespace World

/-- One reading of the clock has been taken. -/
def tick (s : World) : World := { s with clock := fun n => s.clock (n + 1) }

def answer (s : World) (r : Reply) : World := { s with outputs := s.outputs ++ [.reply r] }

/-- The replies that a client may be spared. -/
def answerIf (s : World) (r : Reply) : World := if s.shouldReply then s.answer r else s

/-- `redis_db_set` as a body calls it. The value it replaces is dropped. -/
def set (s : World) (key : Bytes) (data : RedisData) (expiration : Int) : Option World := do
  match s.db.h.lookup key with
  | some old => old.drop
  | none => some ()
  some { s with db := s.db.set key data expiration }

/-- `redis_db_get` as a body calls it. An expired value is dropped. -/
def get (s : World) (key : Bytes) : Option (World × Option RedisValue) := do
  let now := s.clock 0
  match s.db.h.lookup key with
  | some value => if value.Expired now then value.drop else some ()
  | none => some ()
  let result := redisDbGet s.db key now
  some ({ s.tick with db := result.1 }, result.2)

def delete (s : World) (key : Bytes) : Option World := do
  match s.db.h.lookup key with
  | some value => value.destroy
  | none => some ()
  some { s with db := redisDbDelete s.db key }

/-- The two pushes of `database.c`, which test the type before they take the
list. -/
def push (side : List Bytes → Bytes → List Bytes × Int) (created : Int) (s : World)
    (key item : Bytes) : Option (World × Except DbError Int) := do
  let (s, existingValue) ← s.get key
  match existingValue with
  | some value =>
      if value.data.type ≠ .list then some (s, .error .typeMismatch)
      else
        let list ← value.data.listMember
        let pushed := side list item
        some ({ s with db := s.db.setList key value pushed.1 }, .ok pushed.2)
  | none =>
      let s ← s.set key (.list []) created
      let pushed := side [] item
      some ({ s with db := s.db.setList key ⟨.list [], created⟩ pushed.1 }, .ok pushed.2)

/-- `redis_db_lrange`, with the same test. -/
def lrange (s : World) (key : Bytes) (start stop : Int) :
    Option (World × Except DbError (Option (List Bytes) × Int)) := do
  let (s, existingValue) ← s.get key
  match existingValue with
  | some value =>
      if value.data.type ≠ .list then some (s, .error .typeMismatch)
      else
        let list ← value.data.listMember
        some (s, .ok (RedisServer.lrange list start stop))
  | none => some (s, .error .keyNotFound)

end World

/-- The results of `parse_integer` and `parse_set_options` other than success. -/
inductive ParseError where
  | syntaxErr
  | valueErr
  deriving DecidableEq

def parseInteger (str : Bytes) : Except ParseError Int :=
  let number := strtol str
  if number.stop = 0 ∨ byteAt str number.stop ≠ 0 ∨ number.erange = true then .error .valueErr
  else .ok number.value

structure SetOptions where
  expiration : Int
  nx : Bool
  xx : Bool
  keepttl : Bool
  get : Bool

/-- The options of `SET` that take a deadline. -/
inductive DeadlineOption where
  | ex
  | px
  | exat
  | pxat

def deadlineOption (arg : Bytes) : Option DeadlineOption :=
  if arg = text "EX" then some .ex
  else if arg = text "PX" then some .px
  else if arg = text "EXAT" then some .exat
  else if arg = text "PXAT" then some .pxat
  else none

/-- The deadline in milliseconds. The relative ones read the clock. -/
def DeadlineOption.expiration (option : DeadlineOption) (n now : Int) : Int :=
  match option with
  | .ex => toInt64 (now + toInt64 (n * 1000))
  | .px => toInt64 (now + n)
  | .exat => toInt64 (n * 1000)
  | .pxat => n

def DeadlineOption.readsClock : DeadlineOption → Bool
  | .ex | .px => true
  | .exat | .pxat => false

/-- The loop over the options, with the readings of the clock. An option that
is not known is skipped, and so is a deadline option without an argument. -/
def parseSetOptions :
    List Bytes → SetOptions → (Nat → Int) → Except ParseError (SetOptions × (Nat → Int))
  | [], options, clock => .ok (options, clock)
  | arg :: args, options, clock =>
      if arg = text "NX" then
        if options.xx then .error .syntaxErr
        else parseSetOptions args { options with nx := true } clock
      else if arg = text "XX" then
        if options.nx then .error .syntaxErr
        else parseSetOptions args { options with xx := true } clock
      else if arg = text "GET" then parseSetOptions args { options with get := true } clock
      else if arg = text "KEEPTTL" then
        if options.expiration ≠ 0 then .error .syntaxErr
        else parseSetOptions args { options with keepttl := true } clock
      else
        match deadlineOption arg, args with
        | some option, nextArg :: args =>
            if options.expiration ≠ 0 ∨ options.keepttl then .error .syntaxErr
            else
              match parseInteger nextArg with
              | .error e => .error e
              | .ok n =>
                  parseSetOptions args
                    { options with expiration := option.expiration n (clock 0) }
                    (if option.readsClock then fun i => clock (i + 1) else clock)
        | _, args => parseSetOptions args options clock

section Bodies

/-- `ERR_TYPE_MISMATCH` as the client gets to see it. -/
def wrongKind : Reply := .error (text "ERR Operation against a key holding the wrong kind of value")

def handlePing (args : List Bytes) (s : World) : Option World :=
  match args with
  | [_] => some (s.answer (.simpleString (text "PONG")))
  | [_, message] => some (s.answer (.simpleString message))
  | _ => some (s.answer (.error (text "ERR wrong number of arguments for 'ping' command")))

def handleEcho (args : List Bytes) (s : World) : Option World :=
  match args with
  | [_, message] => some (s.answer (.simpleString message))
  | _ => some (s.answer (.error (text "ERR wrong number of arguments for 'echo' command")))

/-- The existing value is looked up only when an option asks for it. -/
def existingForSet (key : Bytes) (options : SetOptions) (s : World) :
    Option (World × Option RedisValue) :=
  if options.nx ∨ options.xx ∨ options.get ∨ options.keepttl then s.get key else some (s, none)

/-- The old value for the option `GET` is taken out of the union without a look
at its type. -/
def oldValue (options : SetOptions) : Option RedisValue → Option (Option Bytes)
  | some existing => if options.get then existing.data.strMember.map some else some none
  | none => some none

def keptExpiration (options : SetOptions) : Option RedisValue → Int
  | some existing => if options.keepttl then existing.expiration else options.expiration
  | none => options.expiration

def setAnswer (options : SetOptions) (old : Option Bytes) : Reply :=
  if options.get then
    match old with
    | some old => .bulkString old
    | none => .null
  else .simpleString (text "OK")

/-- `SET` once its options are known. -/
def applySet (key value : Bytes) (options : SetOptions) (s : World) : Option World := do
  let (s, existingValue) ← existingForSet key options s
  if (options.nx ∧ existingValue.isSome) ∨ (options.xx ∧ ¬existingValue.isSome) then
    some (s.answerIf .null)
  else
    let old ← oldValue options existingValue
    let s ← s.set key (.str value) (keptExpiration options existingValue)
    some (s.answerIf (setAnswer options old))

def handleSet (args : List Bytes) (s : World) : Option World :=
  match args with
  | _ :: key :: value :: rest =>
      match parseSetOptions rest ⟨0, false, false, false, false⟩ s.clock with
      | .error .syntaxErr => some (s.answerIf (.error (text "ERR syntax error")))
      | .error .valueErr =>
          some (s.answerIf (.error (text "ERR value is not an integer or out of range")))
      | .ok (options, clock) =>
          if options.expiration < 0 then
            some ({ s with clock := clock }.answerIf
              (.error (text "ERR expiration must be a non-negative integer")))
          else applySet key value options { s with clock := clock }
  | _ => some (s.answer (.error (text "ERR wrong number of arguments for 'set' command")))

def handleGet (args : List Bytes) (s : World) : Option World :=
  match args with
  | [_, key] => do
      let (s, redisValue) ← s.get key
      match redisValue with
      | none => some (s.answerIf .null)
      | some value =>
          if value.data.type ≠ .string then some (s.answerIf wrongKind)
          else
            let str ← value.data.strMember
            some (s.answerIf (.bulkString str))
  | _ => some (s.answerIf (.error (text "ERR wrong number of arguments for 'get' command")))

def handleExist (args : List Bytes) (s : World) : Option World :=
  if args.length < 2 then
    some (s.answer (.error (text "ERR wrong number of arguments for 'exist' command")))
  else some (s.answer (.integer (toInt32 ((args.drop 1).countP (redisDbExist s.db)))))

def handleDelete (args : List Bytes) (s : World) : Option World :=
  if args.length < 2 then
    some (s.answer (.error (text "ERR wrong number of arguments for 'delete' command")))
  else do
    let s ← (args.drop 1).foldlM World.delete s
    some (s.answerIf (.simpleString (text "OK")))

/-- The text of a present value is taken out of the union without a look at
its type. -/
def handleIncrDecr (increment : Int) (args : List Bytes) (s : World) : Option World :=
  match args with
  | _ :: key :: _ => do
      let (s, redisValue) ← s.get key
      let currentValue ←
        match redisValue with
        | some value => value.data.strMember.map parseInteger
        | none => some (.ok 0)
      match currentValue with
      | .error _ => some (s.answerIf (.error (text "ERR value is not an integer")))
      | .ok n =>
          let newValue := toInt64 (n + increment)
          let s ← s.set key (.str (intText newValue)) 0
          some (s.answerIf (.integer (toInt32 newValue)))
  | _ =>
      some (s.answerIf (.error (text "ERR wrong number of arguments for 'incr/decr' command")))

def handleIncr : List Bytes → World → Option World := handleIncrDecr 1

def handleDecr : List Bytes → World → Option World := handleIncrDecr (-1)

/-- The loop over the items, with the length that the last push stored. -/
def pushItems (side : List Bytes → Bytes → List Bytes × Int) (created : Int) (key : Bytes) :
    List Bytes → Int → World → Option World
  | [], length, s => some (s.answerIf (.integer length))
  | item :: items, _, s => do
      let (s, result) ← s.push side created key item
      match result with
      | .error _ => some (s.answerIf wrongKind)
      | .ok length => pushItems side created key items length s

def handleLpush (args : List Bytes) (s : World) : Option World :=
  match args with
  | _ :: key :: item :: items => pushItems lpush (-1) key (item :: items) 0 s
  | _ => some (s.answerIf (.error (text "ERR wrong number of arguments for 'lpush' command")))

def handleRpush (args : List Bytes) (s : World) : Option World :=
  match args with
  | _ :: key :: item :: items => pushItems rpush 0 key (item :: items) 0 s
  | _ => some (s.answerIf (.error (text "ERR wrong number of arguments for 'rpush' command")))

/-- An index that is no number stays 0. For a key that is not there the range
is left unset and its length is 0. -/
def handleLrange (args : List Bytes) (s : World) : Option World :=
  match args with
  | _ :: key :: first :: last :: _ => do
      let start := (parseInteger first).toOption.getD 0
      let stop := (parseInteger last).toOption.getD 0
      let (s, result) ← s.lrange key (toInt32 start) (toInt32 stop)
      match result with
      | .error .typeMismatch => some (s.answer wrongKind)
      | .error .keyNotFound => some (s.answer (.array []))
      | .ok (range, _) => some (s.answer (.array (range.getD [])))
  | _ => some (s.answer (.error (text "ERR wrong number of arguments for 'rpush' command")))

/-- The parameters that are known, with their values. -/
def configParams (config : ServerConfig) : List Bytes → Option (List Bytes)
  | [] => some []
  | param :: params =>
      if param = text "dir" then
        (configParams config params).map ([text "dir", config.dir] ++ ·)
      else if param = text "dbfilename" then
        (configParams config params).map ([text "dbfilename", config.dbfilename] ++ ·)
      else none

/-- Only `CONFIG GET` is answered once there are enough arguments. -/
def handleConfig (args : List Bytes) (s : World) : Option World :=
  match args with
  | _ :: sub :: param :: params =>
      if sub = text "GET" then
        match configParams s.config (param :: params) with
        | some response => some (s.answer (.array response))
        | none => some (s.answer (.error (text "ERR Unknown config parameter")))
      else some s
  | _ => some (s.answer (.error (text "ERR wrong number of arguments for 'config get' command")))

/-- A wrong number of arguments is answered, and then the command is run. -/
def handleSave (args : List Bytes) (s : World) : Option World :=
  let s :=
    if args.length ≠ 1 then
      s.answer (.error (text "ERR wrong number of arguments for 'save' command"))
    else s
  some ({ s with dump := rdbSaveDataToFile s.db }.answer (.simpleString (text "OK")))

def handleDbsize (_args : List Bytes) (s : World) : Option World :=
  some (s.answer (.integer (toInt32 (redisDbDbsize s.db).toNat)))

def infoText (s : World) : Bytes :=
  text "# Replication" ++ crlf ++
    text "role:" ++ (match s.role with | .master => text "master" | .slave => text "slave") ++ crlf ++
    text "master_replid:" ++ masterReplid ++ crlf ++
    text "master_repl_offset:" ++ intText s.masterReplOffset ++ crlf

def handleInfo (_args : List Bytes) (s : World) : Option World :=
  some (s.answer (.bulkString (infoText s)))

def handleReplconf (args : List Bytes) (s : World) : Option World :=
  match args with
  | _ :: option :: value :: _ =>
      if option = text "GETACK" ∧ value = text "*" then
        some (s.answer (.array [text "REPLCONF", text "ACK", intText s.masterReplOffset]))
      else some (s.answer (.simpleString (text "OK")))
  | _ => some (s.answer (.simpleString (text "OK")))

/-- The replica can go on from its offset: it knows the identifier, and the
offset is a number inside the window of the backlog. -/
def PartialResync (masterReplOffset replBacklogBaseOffset : Int) (replid offsetStr : Bytes) :
    Prop :=
  let number := strtol offsetStr
  replid.head? ≠ some 63 ∧ replid = masterReplid ∧ byteAt offsetStr number.stop = 0 ∧
    replBacklogBaseOffset ≤ number.value ∧ number.value ≤ masterReplOffset

instance (masterReplOffset replBacklogBaseOffset : Int) (replid offsetStr : Bytes) :
    Decidable (PartialResync masterReplOffset replBacklogBaseOffset replid offsetStr) :=
  inferInstanceAs (Decidable (_ ∧ _ ∧ _ ∧ _ ∧ _))

def fullresyncText (s : World) : Bytes :=
  text "FULLRESYNC " ++ masterReplid ++ text " " ++ intText s.masterReplOffset

/-- The client becomes a replica, and gets no more of the replies that can be
spared. -/
def handlePsync (args : List Bytes) (s : World) : Option World :=
  match args with
  | _ :: replid :: offsetStr :: _ =>
      let s := { s with shouldReply := false }
      if PartialResync s.masterReplOffset s.replBacklogBaseOffset replid offsetStr then
        some { s.answer (.simpleString (text "CONTINUE")) with
          replica := some ⟨.psync, (strtol offsetStr).value, 0, 0⟩ }
      else
        let s := s.answer (.simpleString (fullresyncText s))
        let dump := rdbSaveDataToFile s.db
        some { s with
          dump := dump
          replica := some ⟨.sendingRdbData, 0, 0, dump.length⟩
          outputs := s.outputs ++ [.bulkHeader dump.length] }
  | _ => some (s.answer (.error (text "ERR wrong number of arguments for 'psync' command")))

/-- The switch of `handle_command`. -/
def commandBody : CommandType → List Bytes → World → Option World
  | .ping => handlePing
  | .echo => handleEcho
  | .set => handleSet
  | .get => handleGet
  | .exist => handleExist
  | .del => handleDelete
  | .incr => handleIncr
  | .decr => handleDecr
  | .lpush => handleLpush
  | .rpush => handleRpush
  | .lrange => handleLrange
  | .config => handleConfig
  | .save => handleSave
  | .dbsize => handleDbsize
  | .info => handleInfo
  | .replconf => handleReplconf
  | .psync => handlePsync
  | .unknown => fun _ s => some (s.answer (.error (text "ERR unknown command")))

end Bodies

/-- The bodies behind the dispatch of `handle_command`. Arguments are used as
C strings; the result is `none` after a read of the wrong member. -/
def redisCommands (stale : Bytes) : Commands (Option World) where
  body commandType args world := world.bind (commandBody commandType (args.map cString))
  stale := stale

/-- One command of a client, with the outputs of this command alone. -/
def executeCommand (args : List Bytes) (s : World) : Option World :=
  commandBody (getCommandType (args.headD [])) (args.map cString) { s with outputs := [] }

section Members

variable (s : World) (key item : Bytes)

theorem RedisValue.drop_eq (v : RedisValue) : v.drop = some () := by
  rcases v with ⟨⟨⟩, expiration⟩ <;> rfl

theorem RedisValue.destroy_eq (v : RedisValue) : v.destroy = some () := by
  rcases v with ⟨⟨⟩, expiration⟩ <;> rfl

/-- The store never reads the wrong member, so its operations always have a
result, and it is that of the store by itself. -/
@[simp] theorem World.set_eq (data : RedisData) (expiration : Int) :
    s.set key data expiration = some { s with db := s.db.set key data expiration } := by
  unfold World.set
  split <;> simp [RedisValue.drop_eq]

@[simp] theorem World.get_eq : s.get key =
    some ({ s.tick with db := (redisDbGet s.db key (s.clock 0)).1 },
      (redisDbGet s.db key (s.clock 0)).2) := by
  unfold World.get
  dsimp only
  split
  · split <;> simp [RedisValue.drop_eq]
  · simp

@[simp] theorem World.delete_eq :
    s.delete key = some { s with db := redisDbDelete s.db key } := by
  unfold World.delete
  split <;> simp [RedisValue.destroy_eq]

@[simp] theorem World.push_eq (side : List Bytes → Bytes → List Bytes × Int) (created : Int) :
    s.push side created key item =
      some ({ s.tick with db := (s.db.push side created key item (s.clock 0)).1 },
        (s.db.push side created key item (s.clock 0)).2) := by
  simp only [World.push, World.get_eq, World.set_eq, RedisDb.push, Option.bind_eq_bind,
    Option.bind_some]
  rcases redisDbGet s.db key (s.clock 0) with ⟨db, value⟩
  cases value with
  | none => rfl
  | some value => rcases value with ⟨⟨⟩, expiration⟩ <;> rfl

@[simp] theorem World.lrange_eq (start stop : Int) :
    s.lrange key start stop =
      some ({ s.tick with db := (redisDbLrange s.db key start stop (s.clock 0)).1 },
        (redisDbLrange s.db key start stop (s.clock 0)).2) := by
  simp only [World.lrange, World.get_eq, redisDbLrange, Option.bind_eq_bind, Option.bind_some,
    redisDbGet]
  rcases s.db.get key (s.clock 0) with ⟨db, value⟩
  cases value with
  | none => rfl
  | some value => rcases value with ⟨⟨⟩, expiration⟩ <;> rfl

end Members

end RedisServer
