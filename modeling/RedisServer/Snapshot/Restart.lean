import RedisServer.Commands.Expiry

/-! The life of a server, after `start_server`: its arguments, the store it
starts with, the commands that it serves, and the snapshot that it leaves when
it is stopped. A comment says that the snapshot is loaded unless the server is
a replica; the test is the other way round, and a master starts empty. -/
namespace RedisServer

open Machine

/-- The contents of the files, by their paths. -/
abbrev Files := Bytes → Option Bytes

/-- The byte that is compared with a slash is the terminator. -/
def constructFilePath (dir filename : Bytes) : Bytes :=
  if byteAt dir dir.length = 47 then dir ++ filename else dir ++ 47 :: filename

/-- What the arguments decide about the store. -/
structure Settings where
  config : ServerConfig
  role : ServerRole

def defaultSettings : Settings := ⟨⟨text "/tmp/redis-data", text "dump.rdb"⟩, .master⟩

/-- The loop over the arguments. An option without its values is passed over. -/
def parseArgs : List Bytes → Settings → Settings
  | [], s => s
  | arg :: args, s =>
      if arg = text "--dir" then
        match args with
        | [] => s
        | dir :: args => parseArgs args { s with config := { s.config with dir := dir.take 255 } }
      else if arg = text "--dbfilename" then
        match args with
        | [] => s
        | dbfilename :: args =>
            parseArgs args { s with config := { s.config with dbfilename := dbfilename.take 255 } }
      else if arg = text "--port" then
        match args with
        | [] => s
        | _ :: args => parseArgs args s
      else if arg = text "--replicaof" then
        match args with
        | _ :: _ :: args => parseArgs args { s with role := .slave }
        | args => parseArgs args s
      else parseArgs args s

/-- The server when it has started, as its first client will see it. -/
def startServer (args : List Bytes) (files : Files) (clock : Nat → Int) : World :=
  let settings := parseArgs args defaultSettings
  let dump := files (constructFilePath settings.config.dir settings.config.dbfilename)
  { db :=
      if settings.role = .slave then (rdbLoadDataFromFile redisDbCreate dump).1
      else redisDbCreate
    clock := clock
    shouldReply := true
    config := settings.config
    role := settings.role
    masterReplOffset := 0
    replBacklogBaseOffset := 0
    dump := dump.getD []
    replica := none
    outputs := [] }

/-- A command of some client, with what its body finds in this client, and in
the offsets, which propagation has moved. -/
structure Turn where
  shouldReply : Bool
  replica : Option ReplicaFields
  masterReplOffset : Int
  replBacklogBaseOffset : Int
  args : List Bytes

namespace World

def turn (s : World) (t : Turn) : Option World :=
  executeCommand t.args { s with
    shouldReply := t.shouldReply
    replica := t.replica
    masterReplOffset := t.masterReplOffset
    replBacklogBaseOffset := t.replBacklogBaseOffset }

/-- The end of the server: the store is saved. -/
def shutdown (s : World) (files : Files) : Files :=
  Function.update files (constructFilePath s.config.dir s.config.dbfilename)
    (some (rdbSaveDataToFile s.db))

/-- What a `GET` of a new client is answered at a time. -/
def answerGet (s : World) (key : Bytes) (t : Int) : Option (List Output) :=
  (handleGet [text "GET", key] { s with
    clock := fun _ => t
    shouldReply := true
    outputs := [] }).map outputs

end World

/-- A server runs, is stopped, and is started again with other arguments: it,
as it would have gone on, and the new one. -/
def restartServer (args again : List Bytes) (files : Files) (clock : Nat → Int)
    (turns : List Turn) : Option (World × World) := do
  let s ← turns.foldlM World.turn (startServer args files clock)
  some (s, startServer again (s.shutdown files) s.clock)

section Answers

/-- The answer to `GET` for what a lookup finds. -/
def getReply : Option RedisValue → Reply
  | none => .null
  | some ⟨.str s, _⟩ => .bulkString s
  | some ⟨.list _, _⟩ => wrongKind

theorem getReply_eq_null_iff (found : Option RedisValue) : getReply found = .null ↔ found = none := by
  rcases found with - | ⟨s | xs, expiration⟩
  · exact iff_of_true rfl rfl
  · simp [getReply]
  · simp [getReply, wrongKind]

theorem World.answerGet_eq (s : World) (key : Bytes) (t : Int) :
    s.answerGet key t = some [.reply (getReply (s.db.toMap.live t key))] := by
  have hFound := (s.db.get_spec key t).2
  rw [KeyMap.dropExpired_self] at hFound
  unfold World.answerGet handleGet
  simp only [World.get_eq, redisDbGet, Option.bind_eq_bind, Option.bind_some, hFound]
  rcases s.db.toMap.live t key with - | ⟨x | xs, expiration⟩
  all_goals rfl

/-- A server that holds nothing answers like one whose entries have expired. -/
theorem World.answerGet_empty_iff {s fresh : World} (hEmpty : fresh.db = redisDbCreate)
    (key : Bytes) (t : Int) :
    fresh.answerGet key t = s.answerGet key t ↔ s.db.toMap.live t key = none := by
  have hNone : fresh.db.toMap.live t key = none := by
    rw [hEmpty]
    rfl
  rw [World.answerGet_eq, World.answerGet_eq, hNone, ← getReply_eq_null_iff]
  simp only [getReply, Option.some.injEq, List.cons.injEq, Output.reply.injEq, and_true]
  exact eq_comm

theorem KeyMap.live_eq_none_iff (m : KeyMap) (t : Int) (key : Bytes) :
    m.live t key = none ↔ ∀ v, m key = some v → v.Expired t := by
  unfold KeyMap.live
  cases hFind : m key with
  | none => simp
  | some v => simp [Option.filter]

end Answers

/-- A restart as a master keeps what clients can read exactly if there is
nothing to keep: every entry that is left has expired. -/
theorem restart_preserves_iff {args again : List Bytes} {files : Files} {clock : Nat → Int}
    {turns : List Turn} {old fresh : World}
    (h : restartServer args again files clock turns = some (old, fresh))
    (hMaster : fresh.role = .master) (now : Int) :
    (∀ key t, now ≤ t → fresh.answerGet key t = old.answerGet key t) ↔
      ∀ key v, old.db.h.lookup key = some v → v.Expired now := by
  have hEmpty : fresh.db = redisDbCreate := by
    simp only [restartServer, Option.bind_eq_bind, Option.bind_eq_some_iff, Option.some.injEq,
      Prod.mk.injEq] at h
    obtain ⟨s, -, -, rfl⟩ := h
    have hRole : (parseArgs again defaultSettings).role = .master := hMaster
    simp only [startServer, hRole, reduceCtorEq, ↓reduceIte]
  simp only [World.answerGet_empty_iff hEmpty, KeyMap.live_eq_none_iff]
  constructor
  · intro hAll key v hFind
    exact hAll key now le_rfl v hFind
  · intro hAll key t ht v hFind
    exact KeyMap.expired_mono (hAll key v hFind) ht

/-- A client sends one command to a master that has just started. -/
def oneTurn (args : List Bytes) : List Turn := [⟨true, none, 0, 0, args⟩]

/-- `SET k v PXAT 1`, and a restart at 5. -/
theorem restart_preserves_expired :
    ∃ old fresh, restartServer [] [] (fun _ => none) (fun _ => 0)
        (oneTurn [text "SET", text "k", text "v", text "PXAT", text "1"]) = some (old, fresh) ∧
      ∀ key t, 5 ≤ t → fresh.answerGet key t = old.answerGet key t := by
  obtain ⟨old, fresh, hRun, hDb, hRole⟩ : ∃ old fresh, restartServer [] [] (fun _ => none)
      (fun _ => 0) (oneTurn [text "SET", text "k", text "v", text "PXAT", text "1"]) =
        some (old, fresh) ∧
      old.db = redisDbCreate.set (text "k") (.str (text "v")) 1 ∧ fresh.role = .master :=
    ⟨_, _, rfl, rfl, rfl⟩
  refine ⟨old, fresh, hRun, (restart_preserves_iff hRun hRole 5).mpr fun key v hFind => ?_⟩
  rw [hDb, RedisDb.lookup_set] at hFind
  split at hFind
  · cases hFind
    decide
  · cases hFind

/-- `SET k v`, and a restart. -/
theorem restart_loses_key :
    ¬∀ turns old fresh, restartServer [] [] (fun _ => none) (fun _ => 0) turns = some (old, fresh) →
      Table.size old.db.h ≤ 255 →
      (∀ e ∈ old.db.h.entries, e.2.isString = true ∧ EntrySurvives e) →
      ∀ key t, 0 ≤ t → fresh.answerGet key t = old.answerGet key t := by
  intro h
  have hSame := h (oneTurn [text "SET", text "k", text "v"]) _ _ rfl (by decide) (by decide)
    (text "k") 0 le_rfl
  rw [World.answerGet_empty_iff rfl] at hSame
  cases hSame

end RedisServer
