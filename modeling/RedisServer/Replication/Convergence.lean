import RedisServer.Commands.ListCommands
import RedisServer.Replication.Sequential

/-! What replication is for: a replica that has taken the stream of its master has
the data of its master. The stream has the bytes of the commands, which the replica
runs at another time. So a deadline must not decide what a command does, and no
command that is not sent may change the data. -/
namespace RedisServer

open Machine

/-- Nothing that is stored has a deadline. -/
def RedisDb.Undated (db : RedisDb) : Prop := ∀ key, db.Lasting key

/-- A command after which replicas can still agree. A write of a string is sent to
them and has no deadline; the commands that are not sent leave the data alone. -/
def Replicable (xs : List Bytes) : Prop :=
  xs ≠ [] ∧
    (getCommandType (xs.headD []) = .set →
      ∀ option ∈ xs.drop 3, deadlineOption (cString option) = none) ∧
    getCommandType (xs.headD []) ∉ [CommandType.del, .incr, .decr, .lpush, .rpush]

instance (xs : List Bytes) : Decidable (Replicable xs) := inferInstanceAs (Decidable (_ ∧ _ ∧ _))

/-- Two servers with the same data. -/
structure World.Agrees (m r : World) : Prop where
  same : m.db.toMap = r.db.toMap
  undated : m.db.Undated

section Bodies

variable {m r s : World}

theorem RedisDb.Undated.get {db : RedisDb} (h : db.Undated) (key : Bytes) (now : Int) :
    db.get key now = (db, db.toMap key) := by
  cases hFind : db.toMap key with
  | none =>
      rw [RedisDb.get]
      change db.h.lookup key = none at hFind
      simp only [hFind]
  | some v => exact db.get_of_lasting hFind (h key v hFind) now

theorem RedisDb.Undated.set {db : RedisDb} (h : db.Undated) (key : Bytes) (data : RedisData)
    {expiration : Int} (hNone : expiration ≤ 0) : (db.set key data expiration).Undated := by
  intro other
  refine (h other).update (db.toMap_set key data expiration) ?_
  rintro - v ⟨⟩
  exact hNone

theorem World.Agrees.undated_right (h : m.Agrees r) : r.db.Undated := by
  intro key v hv
  rw [← h.same] at hv
  exact h.undated key v hv

/-- Only the data of the two worlds matter. -/
theorem World.Agrees.of_db {m' r' : World} (h : m.Agrees r) (hm : m'.db = m.db)
    (hr : r'.db = r.db) : m'.Agrees r' := by
  refine ⟨?_, ?_⟩
  · rw [hm, hr]
    exact h.same
  · rw [hm]
    exact h.undated

/-- Without an option for a deadline the clock is not read. -/
theorem parseSetOptions_undated {args : List Bytes} (h : ∀ arg ∈ args, deadlineOption arg = none)
    (options : SetOptions) :
    ∃ result : Except ParseError SetOptions,
      (∀ clock, parseSetOptions args options clock = result.map fun options => (options, clock)) ∧
      ∀ parsed, result = .ok parsed → parsed.expiration = options.expiration := by
  induction args generalizing options with
  | nil =>
      refine ⟨.ok options, fun clock => rfl, ?_⟩
      rintro parsed ⟨⟩
      rfl
  | cons arg args ih =>
      have hRest : ∀ other ∈ args, deadlineOption other = none :=
        fun other hOther => h other (List.mem_cons_of_mem arg hOther)
      have hArg := h arg List.mem_cons_self
      have hError : ∃ result : Except ParseError SetOptions,
          (∀ clock : Nat → Int, (.error .syntaxErr : Except ParseError (SetOptions × (Nat → Int))) =
            result.map fun options => (options, clock)) ∧
          ∀ parsed, result = .ok parsed → parsed.expiration = options.expiration :=
        ⟨.error .syntaxErr, fun _ => rfl, fun _ hOk => by cases hOk⟩
      have hStep : ∀ clock, parseSetOptions (arg :: args) options clock =
          if arg = text "NX" then
            if options.xx then .error .syntaxErr
            else parseSetOptions args { options with nx := true } clock
          else if arg = text "XX" then
            if options.nx then .error .syntaxErr
            else parseSetOptions args { options with xx := true } clock
          else if arg = text "GET" then parseSetOptions args { options with get := true } clock
          else if arg = text "KEEPTTL" then
            if options.expiration ≠ 0 then .error .syntaxErr
            else parseSetOptions args { options with keepttl := true } clock
          else parseSetOptions args options clock := by
        intro clock
        rw [parseSetOptions.eq_def]
        simp only [hArg]
      simp only [hStep]
      split_ifs
      · exact hError
      · exact ih hRest { options with nx := true }
      · exact hError
      · exact ih hRest { options with xx := true }
      · exact ih hRest { options with get := true }
      · exact hError
      · exact ih hRest { options with keepttl := true }
      · exact ih hRest options

theorem existingForSet_undated (h : s.db.Undated) (key : Bytes) (options : SetOptions) :
    ∃ s', existingForSet key options s = some (s',
        if options.nx ∨ options.xx ∨ options.get ∨ options.keepttl then s.db.toMap key else none) ∧
      s'.db = s.db := by
  rw [existingForSet]
  split
  · refine ⟨{ s.tick with db := s.db }, ?_, rfl⟩
    rw [World.get_eq, redisDbGet, h.get]
  · exact ⟨s, rfl, rfl⟩

theorem keptExpiration_nonpos (h : s.db.Undated) {key : Bytes} {options : SetOptions}
    (hNone : options.expiration = 0) {existing : Option RedisValue}
    (hExisting : ∀ v, existing = some v → s.db.toMap key = some v) :
    keptExpiration options existing ≤ 0 := by
  cases existing with
  | none => exact hNone.le
  | some v =>
      rw [keptExpiration]
      split
      · exact h key v (hExisting v rfl)
      · exact hNone.le

/-- The same write on both sides. -/
theorem World.Agrees.applySet (h : m.Agrees r) {key value : Bytes} {options : SetOptions}
    (hNone : options.expiration = 0) {m' : World} (hm : applySet key value options m = some m') :
    ∃ r', RedisServer.applySet key value options r = some r' ∧ m'.Agrees r' := by
  obtain ⟨m₁, hMaster, hDb⟩ := existingForSet_undated h.undated key options
  obtain ⟨r₁, hReplica, hDb'⟩ := existingForSet_undated h.undated_right key options
  rw [← h.same] at hReplica
  have h₁ : m₁.Agrees r₁ := h.of_db hDb hDb'
  have hExisting : ∀ v, (if options.nx ∨ options.xx ∨ options.get ∨ options.keepttl then
      m.db.toMap key else none) = some v → m₁.db.toMap key = some v := by
    intro v hv
    rw [hDb]
    split at hv
    · exact hv
    · cases hv
  simp only [RedisServer.applySet, hMaster, hReplica, Option.bind_eq_bind, Option.bind_some] at hm ⊢
  generalize (if options.nx ∨ options.xx ∨ options.get ∨ options.keepttl then
      m.db.toMap key else none) = existing at hm hExisting ⊢
  split at hm
  · rename_i hRefused
    cases hm
    rw [if_pos hRefused]
    exact ⟨_, rfl, h₁.of_db (answerIf_db _ _) (answerIf_db _ _)⟩
  · rename_i hAllowed
    rw [if_neg hAllowed]
    cases hOld : oldValue options existing with
    | none =>
        rw [hOld] at hm
        cases hm
    | some old =>
        rw [hOld] at hm
        simp only [Option.bind_some, World.set_eq] at hm ⊢
        cases hm
        refine ⟨_, rfl, ?_, ?_⟩
        · rw [answerIf_db, answerIf_db, RedisDb.toMap_set, RedisDb.toMap_set, h₁.same]
        · rw [answerIf_db]
          exact h₁.undated.set key _ (keptExpiration_nonpos h₁.undated hNone hExisting)

theorem World.Agrees.handleSet (h : m.Agrees r) {args : List Bytes}
    (hNone : ∀ option ∈ args.drop 3, deadlineOption option = none) {m' : World}
    (hm : handleSet args m = some m') :
    ∃ r', RedisServer.handleSet args r = some r' ∧ m'.Agrees r' := by
  match args with
  | [] | [_] | [_, _] =>
      cases hm
      exact ⟨_, rfl, h.of_db rfl rfl⟩
  | command :: key :: value :: rest =>
      have hRest : ∀ option ∈ rest, deadlineOption option = none := hNone
      obtain ⟨result, hParse, hZero⟩ :=
        parseSetOptions_undated hRest ⟨0, false, false, false, false⟩
      simp only [RedisServer.handleSet, hParse] at hm ⊢
      cases result with
      | error e =>
          cases e <;>
          · cases hm
            exact ⟨_, rfl, h.of_db (answerIf_db _ _) (answerIf_db _ _)⟩
      | ok options =>
          have hOptions := hZero options rfl
          simp only [Except.map, hOptions, lt_irrefl, if_false] at hm ⊢
          exact World.Agrees.applySet (h.of_db rfl rfl) hOptions hm

/-- A command that is not a write leaves the data alone. -/
theorem commandBody_reads (h : s.db.Undated) {type : CommandType}
    (hType : type ∉ [CommandType.set, .del, .incr, .decr, .lpush, .rpush]) (args : List Bytes) :
    ∃ s', commandBody type args s = some s' ∧ s'.db = s.db := by
  cases type with
  | set | del | incr | decr | lpush | rpush => exact absurd (by decide) hType
  | ping =>
      rw [commandBody, handlePing.eq_def]
      split <;> exact ⟨_, rfl, rfl⟩
  | echo =>
      rw [commandBody, handleEcho.eq_def]
      split <;> exact ⟨_, rfl, rfl⟩
  | get =>
      rw [commandBody, handleGet.eq_def]
      split
      · rename_i key
        simp only [World.get_eq, redisDbGet, h.get, Option.bind_eq_bind, Option.bind_some]
        cases s.db.toMap key with
        | none => exact ⟨_, rfl, answerIf_db _ _⟩
        | some value =>
            obtain ⟨⟨⟩, expiration⟩ := value
            · exact ⟨_, rfl, answerIf_db _ _⟩
            · exact ⟨_, rfl, answerIf_db _ _⟩
      · exact ⟨_, rfl, answerIf_db _ _⟩
  | exist =>
      rw [commandBody, handleExist]
      split <;> exact ⟨_, rfl, rfl⟩
  | lrange =>
      rw [commandBody, handleLrange.eq_def]
      split
      · rename_i key first last rest
        simp only [World.lrange_eq, redisDbLrange, h.get, Option.bind_eq_bind, Option.bind_some]
        cases s.db.toMap key with
        | none => exact ⟨_, rfl, rfl⟩
        | some value =>
            obtain ⟨⟨⟩, expiration⟩ := value
            · exact ⟨_, rfl, rfl⟩
            · exact ⟨_, rfl, rfl⟩
      · exact ⟨_, rfl, rfl⟩
  | config =>
      rw [commandBody, handleConfig.eq_def]
      split
      · split
        · split <;> exact ⟨_, rfl, rfl⟩
        · exact ⟨_, rfl, rfl⟩
      · exact ⟨_, rfl, rfl⟩
  | save =>
      rw [commandBody, handleSave]
      split <;> exact ⟨_, rfl, rfl⟩
  | dbsize => exact ⟨_, rfl, rfl⟩
  | info => exact ⟨_, rfl, rfl⟩
  | unknown => exact ⟨_, rfl, rfl⟩
  | replconf =>
      rw [commandBody, handleReplconf.eq_def]
      split
      · split <;> exact ⟨_, rfl, rfl⟩
      · exact ⟨_, rfl, rfl⟩
  | psync =>
      rw [commandBody, handlePsync.eq_def]
      split
      · dsimp only
        split <;> exact ⟨_, rfl, rfl⟩
      · exact ⟨_, rfl, rfl⟩

end Bodies

section Streams

variable {m r : World} {stale : Bytes}

theorem runCommands_cons (stale : Bytes) (world : Option World) (xs : List Bytes)
    (commands : List (List Bytes)) :
    runCommands (redisCommands stale) world (xs :: commands) =
      runCommands (redisCommands stale)
        (world.bind (commandBody (getCommandType (xs.headD stale)) (xs.map cString))) commands := rfl

theorem runCommands_none (stale : Bytes) (commands : List (List Bytes)) :
    runCommands (redisCommands stale) none commands = none := by
  induction commands with
  | nil => rfl
  | cons xs commands ih => exact ih

theorem headD_eq {xs : List Bytes} (h : xs ≠ []) (stale : Bytes) : xs.headD stale = xs.headD [] := by
  cases xs with
  | nil => exact absurd rfl h
  | cons x xs => rfl

theorem Replicable.options {xs : List Bytes} (h : Replicable xs)
    (hSet : getCommandType (xs.headD []) = .set) :
    ∀ option ∈ (xs.map cString).drop 3, deadlineOption option = none := by
  rw [← List.map_drop]
  intro option hOption
  obtain ⟨x, hx, rfl⟩ := List.mem_map.mp hOption
  exact h.2.1 hSet x hx

theorem Replicable.reads {xs : List Bytes} (h : Replicable xs)
    (hSet : getCommandType (xs.headD []) ≠ .set) :
    getCommandType (xs.headD []) ∉ [CommandType.set, .del, .incr, .decr, .lpush, .rpush] :=
  fun hMem => (List.mem_cons.mp hMem).elim hSet h.2.2

/-- A command that the replica is not sent. -/
theorem World.Agrees.skip (h : m.Agrees r) {xs : List Bytes} (hReplicable : Replicable xs)
    (hSet : getCommandType (xs.headD stale) ≠ .set) {m' : World}
    (hm : commandBody (getCommandType (xs.headD stale)) (xs.map cString) m = some m') :
    m'.Agrees r := by
  rw [headD_eq hReplicable.1] at hSet hm
  obtain ⟨s', hRun, hDb⟩ := commandBody_reads h.undated (hReplicable.reads hSet) (xs.map cString)
  cases hm.symm.trans hRun
  exact h.of_db hDb rfl

/-- A command that both run. -/
theorem World.Agrees.both (h : m.Agrees r) {xs : List Bytes} (hReplicable : Replicable xs)
    (stale' : Bytes) {m' : World}
    (hm : commandBody (getCommandType (xs.headD stale)) (xs.map cString) m = some m') :
    ∃ r', commandBody (getCommandType (xs.headD stale')) (xs.map cString) r = some r' ∧
      m'.Agrees r' := by
  rw [headD_eq hReplicable.1] at hm ⊢
  by_cases hSet : getCommandType (xs.headD []) = .set
  · rw [hSet] at hm ⊢
    exact h.handleSet (hReplicable.options hSet) hm
  · obtain ⟨r', hRun, hDb⟩ :=
      commandBody_reads h.undated_right (hReplicable.reads hSet) (xs.map cString)
    obtain ⟨s', hRun', hDb'⟩ :=
      commandBody_reads h.undated (hReplicable.reads hSet) (xs.map cString)
    cases hm.symm.trans hRun'
    exact ⟨r', hRun, h.of_db hDb' hDb⟩

/-- The replica runs some of the commands of the master, all writes among them. -/
theorem World.Agrees.run {sent executed : List (List Bytes)} (hSent : sent.Sublist executed)
    (hSets : sent.filter (fun xs => IsSet (redisCommands stale) xs) =
      executed.filter fun xs => IsSet (redisCommands stale) xs)
    (hAll : ∀ xs ∈ executed, Replicable xs) (stale' : Bytes) (h : m.Agrees r) {m' : World}
    (hm : runCommands (redisCommands stale) (some m) executed = some m') :
    ∃ r', runCommands (redisCommands stale') (some r) sent = some r' ∧ m'.Agrees r' := by
  induction hSent generalizing m r with
  | slnil =>
      cases hm
      exact ⟨r, rfl, h⟩
  | @cons sent executed xs hSent ih =>
      have hOthers : ∀ ys ∈ executed, Replicable ys :=
        fun ys hys => hAll ys (List.mem_cons_of_mem xs hys)
      -- A write that is left out would make the two lists of writes differ in length.
      have hSet : ¬IsSet (redisCommands stale) xs := by
        intro hSet
        have hLess := (hSent.filter fun ys => IsSet (redisCommands stale) ys).length_le
        rw [hSets, List.filter_cons_of_pos (by simpa using hSet), List.length_cons] at hLess
        omega
      rw [List.filter_cons_of_neg (by simpa using hSet)] at hSets
      rw [runCommands_cons, Option.bind_some] at hm
      cases hStep : commandBody (getCommandType (xs.headD stale)) (xs.map cString) m with
      | none =>
          rw [hStep, runCommands_none] at hm
          cases hm
      | some m₁ =>
          rw [hStep] at hm
          exact ih hSets hOthers (h.skip (hAll xs List.mem_cons_self) hSet hStep) hm
  | @cons_cons sent executed xs hSent ih =>
      have hOthers : ∀ ys ∈ executed, Replicable ys :=
        fun ys hys => hAll ys (List.mem_cons_of_mem xs hys)
      have hRest : sent.filter (fun xs => IsSet (redisCommands stale) xs) =
          executed.filter fun xs => IsSet (redisCommands stale) xs := by
        by_cases hSet : IsSet (redisCommands stale) xs
        · rw [List.filter_cons_of_pos (by simpa using hSet),
            List.filter_cons_of_pos (by simpa using hSet)] at hSets
          exact (List.cons.inj hSets).2
        · rw [List.filter_cons_of_neg (by simpa using hSet),
            List.filter_cons_of_neg (by simpa using hSet)] at hSets
          exact hSets
      rw [runCommands_cons, Option.bind_some] at hm ⊢
      cases hStep : commandBody (getCommandType (xs.headD stale)) (xs.map cString) m with
      | none =>
          rw [hStep, runCommands_none] at hm
          cases hm
      | some m₁ =>
          rw [hStep] at hm
          obtain ⟨r₁, hReplica, h₁⟩ := h.both (hAll xs List.mem_cons_self) stale' hStep
          rw [hReplica]
          exact ih hRest hOthers h₁ hm

end Streams

section Servers

variable {ρ : Type} {cmds : Commands ρ} {streams : Nat → List (List Bytes)} {start s : Server ρ}
  {events : List Event}

/-- A run has passed through a state after each of its events. -/
theorem Serves.before {before after : List Event} (hSplit : events = before ++ after)
    (hRun : Serves cmds start events (some s)) : ∃ t, Serves cmds start before (some t) := by
  generalize hNext : some s = result at hRun
  induction hRun generalizing s after with
  | nil =>
      obtain ⟨rfl, -⟩ := List.append_eq_nil_iff.mp hSplit.symm
      exact ⟨_, .nil _⟩
  | @snoc middle events event next hBefore hStep ih =>
      rcases List.eq_nil_or_concat after with rfl | ⟨earlier, last, rfl⟩
      · rw [List.append_nil] at hSplit
        subst hSplit hNext
        exact ⟨s, hBefore.snoc hStep⟩
      · rw [List.concat_eq_append, ← List.append_assoc] at hSplit
        exact ih (List.append_inj_left' hSplit rfl) rfl

theorem cutNoPayload_of_respects
    (hOk : ∀ before event after s, events = before ++ event :: after →
      Serves cmds start before (some s) → Respects cmds streams before s event)
    (hRun : Serves cmds start events (some s)) : CutNoPayload streams events := by
  intro before i bytes after hSplit
  obtain ⟨t, hBefore⟩ := hRun.before hSplit
  exact (hOk before _ after t hSplit hBefore).1

/-- A server only runs commands of its clients. -/
theorem OneByOne.mem_streams (h : OneByOne cmds streams start events s)
    (hStreams : ∀ i, received events i <+: encodeCommands (streams i)) {xs : List Bytes}
    (hxs : xs ∈ s.executed) : ∃ i, xs ∈ streams i := by
  obtain ⟨order, hAll, hEach⟩ := h.order
  rw [← hAll] at hxs
  obtain ⟨⟨i, ys⟩, hMem, rfl⟩ := List.mem_map.mp hxs
  have hMine : ys ∈ (s.clients i).handler.invocations := by
    rw [← hEach i]
    exact List.mem_map.mpr ⟨(i, ys), List.mem_filter.mpr ⟨hMem, by simp⟩, rfl⟩
  obtain ⟨future, hFuture⟩ := hStreams i
  obtain ⟨steps, hBetween⟩ := (h.clients i future hFuture).between
  refine ⟨i, ?_⟩
  rw [← hBetween.ran]
  exact List.mem_append_left _ hMine

/-- A link on which the whole stream of some commands has come has run them. -/
theorem Session.rest_eq {link : Client ρ} {pageSize : UInt64} {fd : Int} {mapped : Bool}
    {rb : RingBuffer} (hCreate : rbCreate pageSize 65536 fd mapped = some rb)
    (hListening : ¬link.AwaitingSnapshot) {commands : List (List Bytes)} {reads : List Bytes}
    {c : Connection ρ} (hSession : Session cmds (connect rb link) reads c) {future : Bytes}
    (hStream : reads.flatten ++ future = encodeCommands commands)
    (hTotal : (encodeCommands commands).length < 2 ^ 64)
    (hClean : ∀ before after, reads = before ++ after →
      ¬CutsPayload commands before.flatten.length) :
    ∃ steps, Between commands c future reads.flatten.length steps ∧ c.inputBuffer.size = 65536 ∧
      c.handler.client.rest = runCommands cmds link.rest c.handler.invocations := by
  have hRing : rb.Queues [] 0 := RingBuffer.queues_create hCreate (by decide)
  induction hSession generalizing future with
  | nil =>
      have hNone : Session cmds (connect rb link) [] (connect rb link) := .nil _
      obtain ⟨steps, hBetween⟩ := session_between hRing hListening hNone hStream hTotal hClean
      exact ⟨steps, hBetween, rbCreate_size hCreate, rfl⟩
  | @snoc middle next reads bytes filled r last _ hRead ih =>
      rw [List.flatten_append, List.flatten_singleton, List.append_assoc] at hStream
      obtain ⟨steps, hMiddle, hSize, hRest⟩ := ih hStream (fun before after hSplit =>
        hClean before (after ++ [bytes]) (by rw [hSplit, List.append_assoc]))
      have hLengths := congrArg List.length hStream
      simp only [List.length_append] at hLengths
      obtain ⟨hne, hFit⟩ := hRead.fills.fits
      have hHere := hClean (reads ++ [bytes]) [] (List.append_nil _).symm
      rw [List.flatten_append, List.flatten_singleton, List.length_append] at hHere ⊢
      obtain ⟨filled', r', last', next', more, ran, hSame, hNext, hRan, -⟩ :=
        hMiddle.receive cmds hne hFit hLengths hTotal hHere
      have hKeep := hRead.size
      obtain ⟨-, -, rfl⟩ := hRead.unique hSame
      refine ⟨more, hNext, hKeep.trans hSize, ?_⟩
      rw [hRan.rest_eq, hRest, hRan.invocations, runCommands_append]

end Servers

/-- The commands of the clients are writes of strings without a deadline, with any
other options, and commands that change nothing. For every order of their reads
that lets the writes reach the replicas, a replica that started with the data of
the master and has taken what was put into its output ring, in any reads, has the
data of the master. -/
theorem replica_converges (stale stale' : Bytes) (streams : Nat → List (List Bytes))
    (hCommands : ∀ i, ∀ xs ∈ streams i, Replicable xs)
    (start : Server (Option World)) (hStart : Starts start) (events : List Event)
    (hStreams : ∀ i, received events i <+: encodeCommands (streams i))
    (hTotal : ∀ i, (encodeCommands (streams i)).length < 2 ^ 64)
    (hOk : ∀ before event after s, events = before ++ event :: after →
      Serves (redisCommands stale) start before (some s) →
      Respects (redisCommands stale) streams before s event)
    {s : Server (Option World)} (hRun : Serves (redisCommands stale) start events (some s))
    {m₀ m r₀ : World} (hFirst : start.world = some m₀) (hMaster : s.world = some m)
    (hAgrees : m₀.Agrees r₀) {rep : Replica} (hRep : rep ∈ s.info.replicas)
    (hLength : rep.appended.length < 2 ^ 64) {pageSize : UInt64} {fd : Int} {mapped : Bool}
    {rb : RingBuffer} (hCreate : rbCreate pageSize 65536 fd mapped = some rb)
    {link : Client (Option World)} (hListening : ¬link.AwaitingSnapshot)
    (hLink : link.rest = some r₀) {reads : List Bytes} {c : Connection (Option World)}
    (hSession : Session (redisCommands stale') (connect rb link) reads c)
    (hReads : reads.flatten = rep.appended)
    (hClean : ∀ commands, encodeCommands commands = rep.appended →
      ∀ before after, reads = before ++ after → ¬CutsPayload commands before.flatten.length) :
    ∃ r, c.handler.client.rest = some r ∧ r.db.toMap = m.db.toMap := by
  obtain ⟨_, ⟨⟩, hIn⟩ := hRun.inStep hStart hStreams hTotal hOk
  have hOrder := hRun.oneByOne hStart hStreams hTotal (cutNoPayload_of_respects hOk hRun)
  obtain ⟨sent, hSent, hSets, -, hEach⟩ := hIn.reach
  have hAppended := hEach rep hRep
  have hWorld := hOrder.world
  rw [hMaster, hFirst] at hWorld
  obtain ⟨r, hReplica, hDone⟩ := hAgrees.run hSent hSets
    (fun xs hxs => (hOrder.mem_streams hStreams hxs).elim fun i hi => hCommands i xs hi) stale'
    hWorld.symm
  obtain ⟨steps, hBetween, hSize, hRest⟩ := hSession.rest_eq hCreate hListening
    ((List.append_nil _).trans (hReads.trans hAppended)) (hAppended ▸ hLength)
    (hClean sent hAppended.symm)
  have hAll : c.handler.invocations = sent := by
    rw [hReads, hAppended] at hBetween
    rw [← hBetween.completed_eq hSize (Nat.add_zero _), completed_length]
  refine ⟨r, ?_, hDone.same.symm⟩
  rw [hRest, hAll, hLink, hReplica]

theorem not_cutsPayload_zero (commands : List (List Bytes)) : ¬CutsPayload commands 0 := by
  rintro ⟨_, _, _, _, _, -, -, hLow, -⟩
  exact absurd hLow (Nat.not_lt_zero _)

/-- A first read that brings a whole stream. -/
theorem exists_first_read {ρ : Type} (cmds : Commands ρ) {pageSize : UInt64} {fd : Int}
    {mapped : Bool} {rb : RingBuffer} (hCreate : rbCreate pageSize 65536 fd mapped = some rb)
    (client : Client ρ) (hListening : ¬client.AwaitingSnapshot) {stream : List (List Bytes)}
    (hne : encodeCommands stream ≠ []) (hFit : (encodeCommands stream).length ≤ 65536) :
    ∃ filled r last c, Receives cmds (connect rb client) (encodeCommands stream) filled r last c ∧
      Ran cmds (connect rb client).handler c.handler stream ∧
      r.mem.take (toSize last.begin) = encodeCommands stream := by
  have hRing : rb.Queues [] 0 := RingBuffer.queues_create hCreate (by decide)
  have hSize : rb.size.toNat = 65536 := by
    rw [rbCreate_size hCreate]
    rfl
  have hRoom := hRing.writableLen
  rw [List.length_nil, Nat.add_zero, hSize] at hRoom
  have hNone : Session cmds (connect rb client) [] (connect rb client) := .nil _
  have hUncut : ∀ before after : List Bytes, [] = before ++ after →
      ¬CutsPayload stream before.flatten.length := by
    intro before after hSplit
    obtain ⟨rfl, -⟩ := List.append_eq_nil_iff.mp hSplit.symm
    exact not_cutsPayload_zero stream
  obtain ⟨steps, hStart, -⟩ := hNone.rest_eq hCreate hListening
    (show ([] : List Bytes).flatten ++ (encodeCommands stream ++ []) = encodeCommands stream by simp)
    (by omega) hUncut
  obtain ⟨filled, r, last, c, more, ran, hRead, hNext, hRan, hParsed⟩ :=
    hStart.receive cmds hne (show _ ≤ rb.writableLen.toNat by omega)
      (by simp) (by omega) (by
        rw [show ([] : List Bytes).flatten.length = 0 from rfl, Nat.zero_add]
        exact not_cutsPayload_length stream)
  have hWritten : ([] : List Bytes).flatten.length + (encodeCommands stream).length =
      (encodeCommands stream).length := Nat.zero_add _
  rw [hWritten] at hNext
  have hKeep : c.inputBuffer.size = 65536 := hRead.size.trans (rbCreate_size hCreate)
  have hAll : c.handler.invocations = stream := by
    rw [← hNext.completed_eq hKeep (Nat.add_zero _), completed_length]
  obtain rfl : ran = stream := by
    rw [← hAll, hRan.invocations]
    rfl
  obtain ⟨todo, hIdle⟩ := hNext.idle_of_atBoundary hKeep (Nat.add_zero _)
    (congrArg (fun xs => (encodeCommands xs).length) (completed_length ran))
  have hNil := hNext.queue_nil_of_idle (Nat.add_zero _) hIdle
  refine ⟨filled, r, last, c, hRead, hRan, ?_⟩
  obtain ⟨q, hQueue, hRest, -⟩ := hStart.queue
  obtain rfl : q = [] := List.length_eq_zero_iff.mp (Nat.le_zero.mp hQueue.length_le)
  rw [hRest, hIdle, List.nil_append, List.append_nil] at hParsed
  change encodeCommands ran = _ ++ encodeCommands todo at hParsed
  rw [hNil, List.append_nil] at hParsed
  exact hParsed.symm

/-- A master with one replica and an empty store. -/
def emptyMaster : Server (Option World) where
  info := oneReplica.info
  world := some emptyWorld
  clients := fun _ =>
    connect ⟨0, 0, fun _ => 0, 65536, 3⟩ ⟨.regular, .none, false, some emptyWorld⟩
  executed := []

theorem starts_emptyMaster : Starts emptyMaster where
  clients := fun _ => ⟨4096, 3, true, _, _, rfl, rfl, rfl, rfl⟩
  executed := rfl
  appended := by simp [emptyMaster, oneReplica]

/-- The link of a replica that is ready, and what comes on it. -/
def readyClient : Client (Option World) := ⟨.master, .ready, false, some emptyWorld⟩

/-- `SET a b` of a client is sent to the replica. -/
theorem exists_serves_emptyMaster :
    ∃ s m, Serves (redisCommands []) emptyMaster [.read 0 (encodeCommands [setCommand])] (some s) ∧
      s.world = some m ∧ ∃ rep ∈ s.info.replicas, rep.appended = encodeCommands [setCommand] := by
  obtain ⟨filled, r, last, c, hRead, hRan, hBytes⟩ := exists_first_read (redisCommands [])
    RingBuffer.rbCreate_client ⟨.regular, .none, false, some emptyWorld⟩
    (by simp [Client.AwaitingSnapshot]) (show encodeCommands [setCommand] ≠ [] by decide) (by decide)
  have hType : c.handler.client.type = .regular := hRan.type_eq (by decide)
  have hFlag : last.handler.client.shouldPropogateCommand = true := by
    rw [← hRead.handler, hRan.client]
    decide
  obtain ⟨info, hPropagates⟩ := exists_propagates oneReplica.info (encodeCommands [setCommand])
    (RingBuffer.queues_create (show rbCreate 4096 1048576 5 true = _ from rfl) (by decide))
    (by decide) (by decide)
    (by
      intro rep hRep
      obtain rfl := List.mem_singleton.mp hRep
      exact ⟨[], 0, RingBuffer.queues_create (show rbCreate 4096 65536 4 true = _ from rfl) (by decide),
        by decide, by decide⟩)
  have hInfo : if last.handler.client.shouldPropogateCommand then
      Propagates emptyMaster.info (r.mem.take (toSize last.begin)) (some info)
      else some info = some emptyMaster.info := by
    rw [hFlag, hBytes]
    exact hPropagates
  have hServes := (Serves.nil emptyMaster).snoc (.read (i := 0) hRead hType hInfo)
  refine ⟨_, _, hServes, hRan.rest_eq, ?_⟩
  generalize hSome : some info = result at hPropagates
  cases hPropagates with
  | freed => cases hSome
  | sent hCopied hBacklog hReplicas =>
      cases hSome
      obtain ⟨rep, rest, hHead, -, rfl⟩ := List.forall₂_cons_left_iff.mp hReplicas
      exact ⟨rep, List.mem_cons_self, hHead.2⟩

theorem replica_converges_set :
    ∃ s m c r, Serves (redisCommands []) emptyMaster [.read 0 (encodeCommands [setCommand])]
        (some s) ∧ s.world = some m ∧
      Session (redisCommands []) (connect ⟨0, 0, fun _ => 0, 65536, 3⟩ readyClient)
        [encodeCommands [setCommand]] c ∧
      c.handler.client.rest = some r ∧ r.db.toMap = m.db.toMap := by
  obtain ⟨s, m, hRun, hMaster, rep, hRep, hAppended⟩ := exists_serves_emptyMaster
  obtain ⟨filled, ra, last, c, hRead, -⟩ := exists_first_read (redisCommands [])
    RingBuffer.rbCreate_client readyClient (by decide)
    (show encodeCommands [setCommand] ≠ [] by decide) (by decide)
  have hSession := session_single_iff.mpr ⟨filled, ra, last, hRead⟩
  obtain ⟨r, hReplica, hSame⟩ := replica_converges [] []
    (fun i => if i = 0 then [setCommand] else []) (by
      intro i xs hxs
      split at hxs
      · obtain rfl := List.mem_singleton.mp hxs
        decide
      · cases hxs)
    emptyMaster starts_emptyMaster [.read 0 (encodeCommands [setCommand])] (by
      intro i
      by_cases hi : i = 0
      · subst hi
        exact ⟨[], by decide⟩
      · simp [received, Ne.symm hi])
    (by
      intro i
      split <;> decide)
    (by
      intro before event after s hSplit hServes
      obtain ⟨rfl, hEvent⟩ : before = [] ∧ [Event.read 0 (encodeCommands [setCommand])] =
          event :: after := by
        cases before with
        | nil => exact ⟨rfl, hSplit⟩
        | cons => simp at hSplit
      obtain ⟨rfl, -⟩ := List.cons.inj hEvent
      obtain rfl := hServes.eq_of_nil
      refine ⟨not_cutsPayload_length [setCommand], fun _ => ⟨by decide, by decide, ?_⟩,
        fun hNot => absurd ⟨_, rfl, by decide⟩ hNot⟩
      intro rep hRep
      obtain rfl := List.mem_singleton.mp hRep
      decide)
    hRun rfl hMaster ⟨rfl, fun key v hv => by cases hv⟩ hRep (by rw [hAppended]; decide)
    RingBuffer.rbCreate_client (by decide) rfl hSession
    ((List.append_nil _).trans hAppended.symm) (by
      intro commands hWhole before after hSplit
      rcases before with _ | ⟨first, _ | ⟨second, rest⟩⟩
      · exact not_cutsPayload_zero commands
      · cases hSplit
        rw [List.flatten_singleton, ← hAppended, ← hWhole]
        exact not_cutsPayload_length commands
      · simp at hSplit)
  exact ⟨s, m, c, r, hRun, hMaster, hSession, hReplica, hSame⟩

end RedisServer
