import RedisServer.Protocol.Completed

/-! The propagation of writes to the attached replicas, after
`process_client_input`. Each client has one flag that every command overwrites;
after a read the flag decides about all bytes that the read made the parser
take. So a write reaches the replicas when it is the last command of its read
and the read consists of whole commands. -/
namespace RedisServer

open Machine

/-- An attached replica. `appended` are all bytes that propagation has put
into its output ring. -/
structure Replica where
  outputBuffer : RingBuffer
  appended : Bytes

/-- The fields of `g_server_info` that propagation uses. -/
structure ServerInfo where
  masterReplOffset : Int
  replBacklog : RingBuffer
  replBacklogBaseOffset : Int
  replicas : List Replica

/-- The bytes fit into the output ring of the replica and are queued there. -/
def Replica.Appends (rep : Replica) (bytes : Bytes) (next : Replica) : Prop :=
  rep.outputBuffer.Stores bytes next.outputBuffer ∧ next.appended = rep.appended ++ bytes

/-- The backlog takes as many bytes and drops its oldest ones for them. What is
copied is memory from the address of the input ring's own record on, so its
content is left open here. -/
def ServerInfo.BacklogTakes (info : ServerInfo) (copied : Bytes) (next : ServerInfo) : Prop :=
  ∃ ptr len, rbWritable info.replBacklog = some (ptr, len) ∧
    if copied.length ≤ len.toNat then
      ∃ backlog code, rbWrite (info.replBacklog.memcpy ptr copied) (UInt64.ofNat copied.length) =
          some (backlog, code) ∧
        next = { info with replBacklog := backlog }
    else
      ∃ shorter backlog code, rbRead info.replBacklog (UInt64.ofNat (copied.length - len.toNat)) =
          some (shorter, code) ∧
        rbWrite (shorter.memcpy ptr copied) (UInt64.ofNat copied.length) = some (backlog, 0) ∧
        next = { info with
          replBacklog := backlog
          replBacklogBaseOffset :=
            info.replBacklogBaseOffset + ((copied.length - len.toNat : Nat) : Int) }

/-- What the server does with the bytes of a read when the flag is set. If some
replica has no room for them, the writing client is disconnected in its place
and is used after it was freed; there is no state after that. -/
inductive Propagates : ServerInfo → Bytes → Option ServerInfo → Prop where
  | sent {info middle : ServerInfo} {bytes copied : Bytes} {replicas : List Replica}
      (hCopied : copied.length = bytes.length)
      (hBacklog : ServerInfo.BacklogTakes
        { info with masterReplOffset := info.masterReplOffset + bytes.length } copied middle)
      (hReplicas : List.Forall₂ (fun rep next => rep.Appends bytes next) info.replicas replicas) :
      Propagates info bytes (some { middle with replicas := replicas })
  | freed {info : ServerInfo} {bytes : Bytes} {rep : Replica} (hRep : rep ∈ info.replicas)
      (hRoom : rep.outputBuffer.writableLen.toNat < bytes.length) : Propagates info bytes none

/-- The server with its clients. The command bodies act on one `world` that all
clients share; `executed` are the commands of all of them in the order they
were run in. -/
structure Server (ρ : Type) where
  info : ServerInfo
  world : ρ
  clients : Nat → Connection ρ
  executed : List (List Bytes)

inductive Event where
  | read (client : Nat) (bytes : Bytes)
  | drain (replica : Nat) (n : Nat)

section Runs

variable {ρ : Type}

/-- The connection with the world as the other clients left it. -/
def Connection.seeing (c : Connection ρ) (world : ρ) : Connection ρ :=
  { c with handler := { c.handler with client := { c.handler.client with rest := world } } }

/-- One read of a client that stays a regular one, or a replica's socket taking
bytes from its output ring. -/
inductive ServerStep (cmds : Commands ρ) : Server ρ → Event → Option (Server ρ) → Prop where
  | read {s : Server ρ} {i : Nat} {bytes : Bytes} {filled : RingBuffer} {r : Range}
      {last : ParserRun (CommandHandler ρ)} {c : Connection ρ} {info : Option ServerInfo}
      (hRead : Receives cmds ((s.clients i).seeing s.world) bytes filled r last c)
      (hRegular : c.handler.client.type = .regular)
      (hPropagates :
        if last.handler.client.shouldPropogateCommand then
          Propagates s.info (r.mem.take (toSize last.begin)) info
        else info = some s.info) :
      ServerStep cmds s (.read i bytes) (info.map fun info =>
        { info := info
          world := c.handler.client.rest
          clients := Function.update s.clients i c
          executed := s.executed ++
            c.handler.invocations.drop (s.clients i).handler.invocations.length })
  | drain {s : Server ρ} {j n : Nat} {rep : Replica} {ring : RingBuffer}
      (hRep : s.info.replicas[j]? = some rep) (hLength : n ≤ rep.outputBuffer.readableLen.toNat)
      (hRead : rbRead rep.outputBuffer (UInt64.ofNat n) = some (ring, 0)) :
      ServerStep cmds s (.drain j n) (some { s with
        info := { s.info with
          replicas := s.info.replicas.set j { rep with outputBuffer := ring } } })

inductive Serves (cmds : Commands ρ) : Server ρ → List Event → Option (Server ρ) → Prop where
  | nil (s : Server ρ) : Serves cmds s [] (some s)
  | snoc {s middle : Server ρ} {events : List Event} {event : Event} {next : Option (Server ρ)}
      (hBefore : Serves cmds s events (some middle)) (hStep : ServerStep cmds middle event next) :
      Serves cmds s (events ++ [event]) next

def IsSet (cmds : Commands ρ) (xs : List Bytes) : Prop :=
  getCommandType (xs.headD cmds.stale) = .set

instance (cmds : Commands ρ) (xs : List Bytes) : Decidable (IsSet cmds xs) :=
  inferInstanceAs (Decidable (_ = _))

def LastIsSet (cmds : Commands ρ) (commands : List (List Bytes)) : Prop :=
  ∃ xs ∈ commands.getLast?, IsSet cmds xs

/-- The server goes on, and what it has given to each replica, as much as it
has advanced the offset, is a number of complete commands among those executed,
with all writes of them. -/
def WritesReach (cmds : Commands ρ) (start : Server ρ) : Option (Server ρ) → Prop
  | none => False
  | some s => ∃ sent : List (List Bytes), sent.Sublist s.executed ∧
      sent.filter (fun xs => IsSet cmds xs) = s.executed.filter (fun xs => IsSet cmds xs) ∧
      s.info.masterReplOffset = start.info.masterReplOffset + (encodeCommands sent).length ∧
      ∀ rep ∈ s.info.replicas, rep.appended = encodeCommands sent

/-- All clients have just connected. -/
structure Starts (s : Server ρ) : Prop where
  clients : ∀ i, ∃ pageSize fd mapped rb client, rbCreate pageSize 65536 fd mapped = some rb ∧
    s.clients i = connect rb client ∧ client.type = .regular ∧
    client.shouldPropogateCommand = false
  executed : s.executed = []
  appended : ∀ rep ∈ s.info.replicas, rep.appended = []

/-- The bytes a client has sent. -/
def received (events : List Event) (i : Nat) : Bytes :=
  events.flatMap fun
    | .read j bytes => if j = i then bytes else []
    | .drain _ _ => []

/-- The condition on an event, in the state `s` after the events before it. A
read ends in no payload. If the last command that its client has completed
after it is a write, the read starts and ends between two commands and every
replica has room for it; otherwise it completes no write. -/
def Respects (cmds : Commands ρ) (streams : Nat → List (List Bytes)) (before : List Event)
    (s : Server ρ) : Event → Prop
  | .drain _ _ => True
  | .read i bytes =>
      let start := (received before i).length
      let stop := start + bytes.length
      ¬CutsPayload (streams i) stop ∧
        (LastIsSet cmds (completed (streams i) stop) →
          AtBoundary (streams i) start ∧ AtBoundary (streams i) stop ∧
            ∀ rep ∈ s.info.replicas, bytes.length ≤ rep.outputBuffer.writableLen.toNat) ∧
        (¬LastIsSet cmds (completed (streams i) stop) →
          ∀ xs ∈ (completed (streams i) stop).drop (completed (streams i) start).length,
            ¬IsSet cmds xs)

end Runs

section Clients

variable {ρ : Type} {cmds : Commands ρ} {stream : List (List Bytes)} {c : Connection ρ}
  {future : Bytes} {written : Nat}

theorem Stage.holds_of_client {st : Stage} {ch : CommandHandler ρ} (h : st.Holds ch)
    (client : Client ρ) : st.Holds { ch with client := client } := by
  have hGathering : ∀ {done : List Bytes} {count : Nat}, Stage.Gathering ch done count →
      Stage.Gathering { ch with client := client } done count := by
    rintro done count ⟨⟨h₁, h₂, h₃, h₄, h₅, h₆, h₇, h₈, h₉⟩, hFew, hShort⟩
    exact ⟨⟨h₁, h₂, h₃, h₄, h₅, h₆, h₇, h₈, h₉⟩, hFew, hShort⟩
  cases st with
  | idle todo => exact h
  | header xs todo => exact h
  | array done xs todo => exact hGathering h
  | element done x xs todo => exact hGathering h
  | bulkHeader done x xs todo => exact hGathering h
  | payload done x xs todo => exact ⟨hGathering h.1, h.2⟩

theorem Between.seeing {steps : Nat} (h : Between stream c future written steps) (world : ρ) :
    Between stream (c.seeing world) future written steps where
  queue := h.queue
  parser := h.parser
  holds := Stage.holds_of_client h.holds _
  listening := h.listening
  ran := h.ran
  before := h.before

/-- The flag after some commands is that of the last one. -/
theorem Ran.flag_iff {ch next : CommandHandler ρ} {ran : List (List Bytes)}
    (h : Ran cmds ch next ran)
    (hFlag : ch.client.shouldPropogateCommand = true ↔ LastIsSet cmds ch.invocations) :
    next.client.shouldPropogateCommand = true ↔ LastIsSet cmds next.invocations := by
  rw [h.client, h.invocations]
  rcases List.eq_nil_or_concat ran with rfl | ⟨before, xs, rfl⟩
  · rw [List.append_nil]
    exact hFlag
  · rw [List.concat_eq_append, List.foldl_concat, ← List.append_assoc]
    simp [handleCommand, LastIsSet, IsSet]

/-- A client whose bytes so far are a part of the stream, between two reads. -/
structure Follows (cmds : Commands ρ) (stream : List (List Bytes)) (c : Connection ρ)
    (future : Bytes) (written : Nat) : Prop where
  between : ∃ steps, Between stream c future written steps
  size : c.inputBuffer.size = 65536
  flag : c.handler.client.shouldPropogateCommand = true ↔ LastIsSet cmds c.handler.invocations
  length : written + future.length = (encodeCommands stream).length

theorem Follows.completed_eq (h : Follows cmds stream c future written) :
    completed stream written = c.handler.invocations := by
  obtain ⟨steps, hBetween⟩ := h.between
  exact hBetween.completed_eq h.size h.length

theorem Receives.size {bytes : Bytes} {filled : RingBuffer} {r : Range}
    {last : ParserRun (CommandHandler ρ)} {next : Connection ρ}
    (h : Receives cmds c bytes filled r last next) : next.inputBuffer.size = c.inputBuffer.size := by
  obtain ⟨code, hConsumes⟩ := h.consumes
  exact (rbRead_size hConsumes).trans h.fills.size

/-- A read that ends in no payload. When it goes from one end of a command to
another, the bytes it makes the parser take are those of the commands it
completes. -/
theorem Follows.receive {bytes : Bytes} {filled : RingBuffer} {r : Range}
    {last : ParserRun (CommandHandler ρ)} {next : Connection ρ} {world : ρ}
    (h : Follows cmds stream c (bytes ++ future) written)
    (hTotal : (encodeCommands stream).length < 2 ^ 64)
    (hClean : ¬CutsPayload stream (written + bytes.length))
    (hRead : Receives cmds (c.seeing world) bytes filled r last next) :
    Follows cmds stream next future (written + bytes.length) ∧
      ∃ ran, next.handler.invocations = c.handler.invocations ++ ran ∧
        (AtBoundary stream written → AtBoundary stream (written + bytes.length) →
          r.mem.take (toSize last.begin) = encodeCommands ran) := by
  obtain ⟨steps, hBetween⟩ := h.between
  have hLength := h.length
  rw [List.length_append] at hLength
  obtain ⟨hne, hFit⟩ := hRead.fills.fits
  obtain ⟨filled', r', last', next', more, ran, hSame, hNext, hRan, hParsed⟩ :=
    (hBetween.seeing world).receive cmds hne hFit hLength hTotal hClean
  obtain ⟨rfl, rfl, rfl⟩ := hRead.unique hSame
  have hAfter : Follows cmds stream next future (written + bytes.length) :=
    ⟨⟨more, hNext⟩, hRead.size.trans h.size, hRan.flag_iff h.flag, by omega⟩
  refine ⟨hAfter, ran, hRan.invocations, fun hStart hStop => ?_⟩
  obtain ⟨todo, hIdle⟩ := hBetween.idle_of_atBoundary h.size h.length hStart
  obtain ⟨todo', hIdle'⟩ := hNext.idle_of_atBoundary hAfter.size hAfter.length hStop
  have hPending := hBetween.ran.trans hNext.ran.symm
  rw [hIdle, hIdle', hRan.invocations] at hPending
  rw [hIdle, hIdle'] at hParsed
  change encodeCommands todo = _ ++ encodeCommands todo' at hParsed
  have hTodo : todo = ran ++ todo' := by
    change c.handler.invocations ++ todo = (c.handler.invocations ++ ran) ++ todo' at hPending
    rw [List.append_assoc] at hPending
    exact List.append_cancel_left hPending
  rw [hTodo, encodeCommands_append] at hParsed
  exact (List.append_cancel_right hParsed).symm

end Clients

section Servers

variable {ρ : Type} {cmds : Commands ρ} {streams : Nat → List (List Bytes)} {start s : Server ρ}
  {events : List Event}

theorem received_append (events more : List Event) (i : Nat) :
    received (events ++ more) i = received events i ++ received more i := List.flatMap_append

theorem ServerInfo.BacklogTakes.offset {info next : ServerInfo} {copied : Bytes}
    (h : info.BacklogTakes copied next) : next.masterReplOffset = info.masterReplOffset := by
  obtain ⟨ptr, len, -, h⟩ := h
  split at h
  · obtain ⟨backlog, code, -, rfl⟩ := h
    rfl
  · obtain ⟨shorter, backlog, code, -, -, rfl⟩ := h
    rfl

/-- Some of the commands that were run are added to what the replicas get, all
writes among them. -/
theorem WritesReach.step {next : Server ρ} (ran more : List (List Bytes))
    (h : WritesReach cmds start (some s)) (hExecuted : next.executed = s.executed ++ ran)
    (hMore : more.Sublist ran)
    (hWrites : more.filter (fun xs => IsSet cmds xs) = ran.filter (fun xs => IsSet cmds xs))
    (hOffset : next.info.masterReplOffset =
      s.info.masterReplOffset + (encodeCommands more).length)
    (hReplicas : ∀ rep ∈ next.info.replicas, ∃ old ∈ s.info.replicas,
      rep.appended = old.appended ++ encodeCommands more) :
    WritesReach cmds start (some next) := by
  obtain ⟨sent, hSent, hSets, hAll, hEach⟩ := h
  refine ⟨sent ++ more, ?_, ?_, ?_, ?_⟩
  · rw [hExecuted]
    exact hSent.append hMore
  · rw [hExecuted, List.filter_append, List.filter_append, hSets, hWrites]
  · rw [hOffset, hAll, encodeCommands_append, List.length_append]
    push_cast
    omega
  · intro rep hRep
    obtain ⟨old, hOld, hSame⟩ := hReplicas rep hRep
    rw [hSame, hEach old hOld, encodeCommands_append]

/-- The invariant of a run. -/
structure InStep (cmds : Commands ρ) (streams : Nat → List (List Bytes)) (start : Server ρ)
    (events : List Event) (s : Server ρ) : Prop where
  clients : ∀ i future, received events i ++ future = encodeCommands (streams i) →
    Follows cmds (streams i) (s.clients i) future (received events i).length
  reach : WritesReach cmds start (some s)

theorem inStep_start (cmds : Commands ρ) (streams : Nat → List (List Bytes)) (h : Starts start) :
    InStep cmds streams start [] start where
  clients := by
    intro i future hStream
    obtain ⟨pageSize, fd, mapped, rb, client, hCreate, hClient, hRegular, hFlag⟩ := h.clients i
    rw [hClient]
    refine ⟨⟨0, ⟨[], RingBuffer.queues_create hCreate (by decide), hStream.symm, Or.inl rfl⟩, rfl, rfl,
      ?_, rfl, fun j hj => absurd hj (Nat.not_lt_zero j)⟩, rbCreate_size hCreate, ?_, ?_⟩
    · simp [connect, createCommandHandler, Client.AwaitingSnapshot, hRegular]
    · simp [connect, createCommandHandler, hFlag, LastIsSet]
    · rw [← hStream, List.length_append]
  reach := by
    refine ⟨[], List.nil_sublist _, by rw [h.executed], by simp [encodeCommands], ?_⟩
    intro rep hRep
    rw [h.appended rep hRep]
    rfl

theorem InStep.drain (h : InStep cmds streams start events s) {j n : Nat}
    {next : Option (Server ρ)} (hStep : ServerStep cmds s (.drain j n) next) :
    ∃ t, next = some t ∧ InStep cmds streams start (events ++ [.drain j n]) t := by
  cases hStep with
  | @drain _ _ rep ring hRep hLength hRead =>
      refine ⟨_, rfl, ?_, ?_⟩
      · intro i future hStream
        rw [received_append, show received [.drain j n] i = [] from rfl, List.append_nil] at hStream ⊢
        exact h.clients i future hStream
      · refine h.reach.step [] [] (by simp) (List.Sublist.refl _) rfl
          (by simp [encodeCommands]) ?_
        intro other hOther
        obtain hSame | rfl := List.mem_or_eq_of_mem_set hOther
        · exact ⟨other, hSame, by simp [encodeCommands]⟩
        · exact ⟨rep, List.mem_of_getElem? hRep, by simp [encodeCommands]⟩

theorem exists_of_forall₂ {bytes : Bytes} {replicas others : List Replica}
    (h : List.Forall₂ (fun rep next => rep.Appends bytes next) replicas others) :
    ∀ rep ∈ others, ∃ old ∈ replicas, rep.appended = old.appended ++ bytes := by
  induction h with
  | nil => exact fun rep hRep => by cases hRep
  | cons hHead _ ih =>
      intro rep hRep
      rcases List.mem_cons.mp hRep with rfl | hRep
      · exact ⟨_, List.mem_cons_self .., hHead.2⟩
      · obtain ⟨old, hOld, hSame⟩ := ih rep hRep
        exact ⟨old, List.mem_cons_of_mem _ hOld, hSame⟩

/-- The step of the invariant: a read that respects the condition. -/
theorem InStep.read (h : InStep cmds streams start events s) {i : Nat} {bytes : Bytes}
    {next : Option (Server ρ)} (hStep : ServerStep cmds s (.read i bytes) next)
    (hOk : Respects cmds streams events s (.read i bytes))
    (hStream : ∃ future, received (events ++ [.read i bytes]) i ++ future = encodeCommands (streams i))
    (hTotal : (encodeCommands (streams i)).length < 2 ^ 64) :
    ∃ t, next = some t ∧ InStep cmds streams start (events ++ [.read i bytes]) t := by
  have hMine : received [Event.read i bytes] i = bytes := by simp [received]
  obtain ⟨future, hStream⟩ := hStream
  rw [received_append, hMine, List.append_assoc] at hStream
  obtain ⟨hClean, hSet, hNoSet⟩ := hOk
  have hBefore := h.clients i _ hStream
  cases hStep with
  | @read _ _ filled r last c info hRead hRegular hPropagates =>
      obtain ⟨hAfter, ran, hRan, hParsed⟩ := hBefore.receive hTotal hClean hRead
      have hFlag : last.handler.client.shouldPropogateCommand = true ↔
          LastIsSet cmds c.handler.invocations := by
        rw [← hRead.handler]
        exact hAfter.flag
      have hDrop : c.handler.invocations.drop (s.clients i).handler.invocations.length = ran := by
        rw [hRan, List.drop_left]
      rw [hAfter.completed_eq] at hSet hNoSet
      rw [hBefore.completed_eq, hDrop] at hNoSet
      have hClients : ∀ j future, received (events ++ [.read i bytes]) j ++ future =
          encodeCommands (streams j) →
          Follows cmds (streams j) (Function.update s.clients i c j) future
            (received (events ++ [.read i bytes]) j).length := by
        intro j rest hRest
        by_cases hj : j = i
        · subst hj
          rw [received_append, hMine, List.append_assoc] at hRest
          obtain rfl : future = rest := List.append_cancel_left
            (List.append_cancel_left (hStream.trans hRest.symm))
          rw [Function.update_self, received_append, hMine, List.length_append]
          exact hAfter
        · have hOther : received [Event.read i bytes] j = [] := by
            simp [received, Ne.symm hj]
          rw [received_append, hOther, List.append_nil] at hRest ⊢
          rw [Function.update_of_ne hj]
          exact h.clients j rest hRest
      by_cases hLast : LastIsSet cmds c.handler.invocations
      · rw [if_pos (hFlag.mpr hLast)] at hPropagates
        obtain ⟨hStart, hStop, hRoom⟩ := hSet hLast
        rw [hParsed hStart hStop] at hPropagates
        have hWhole : (encodeCommands ran).length = bytes.length := by
          rw [AtBoundary, hBefore.completed_eq] at hStart
          rw [AtBoundary, hAfter.completed_eq, hRan, encodeCommands_append, List.length_append] at hStop
          omega
        cases hPropagates with
        | sent hCopied hBacklog hReplicas =>
            refine ⟨_, rfl, hClients, h.reach.step ran ran (by rw [hDrop])
              (List.Sublist.refl _) rfl ?_ ?_⟩
            · exact hBacklog.offset
            · exact exists_of_forall₂ hReplicas
        | freed hRep hShort =>
            have := hRoom _ hRep
            omega
      · rw [if_neg (fun hTrue => hLast (hFlag.mp hTrue))] at hPropagates
        subst hPropagates
        refine ⟨_, rfl, hClients, h.reach.step ran [] (by rw [hDrop])
          (List.nil_sublist _) ?_ (by simp [encodeCommands]) ?_⟩
        · rw [List.filter_nil, eq_comm, List.filter_eq_nil_iff]
          simpa using hNoSet hLast
        · exact fun rep hRep => ⟨rep, hRep, by simp [encodeCommands]⟩

theorem Serves.inStep {next : Option (Server ρ)} (hStart : Starts start)
    (hStreams : ∀ i, received events i <+: encodeCommands (streams i))
    (hTotal : ∀ i, (encodeCommands (streams i)).length < 2 ^ 64)
    (hOk : ∀ before event after s, events = before ++ event :: after →
      Serves cmds start before (some s) → Respects cmds streams before s event)
    (hRun : Serves cmds start events next) :
    ∃ s, next = some s ∧ InStep cmds streams start events s := by
  induction hRun with
  | nil => exact ⟨_, rfl, inStep_start cmds streams hStart⟩
  | @snoc middle events event next hBefore hStep ih =>
      obtain ⟨s, hSome, hIn⟩ := ih
        (fun i => (received_append events [event] i ▸ List.prefix_append _ _).trans (hStreams i))
        (fun before other after s hSplit => hOk before other (after ++ [event]) s (by simp [hSplit]))
      cases hSome
      cases event with
      | drain j n => exact hIn.drain hStep
      | read i bytes =>
          exact hIn.read hStep (hOk events _ [] middle rfl hBefore) (hStreams i) (hTotal i)

/-- When every read respects the condition, in every state that is reached the
replicas have been given complete commands, all writes among them, and the
server has not gone wrong. -/
theorem writes_reach_replicas (cmds : Commands ρ) (streams : Nat → List (List Bytes))
    (start : Server ρ) (hStart : Starts start) (events : List Event)
    (hStreams : ∀ i, received events i <+: encodeCommands (streams i))
    (hTotal : ∀ i, (encodeCommands (streams i)).length < 2 ^ 64)
    (hOk : ∀ before event after s, events = before ++ event :: after →
      Serves cmds start before (some s) → Respects cmds streams before s event) :
    ∀ before after next, events = before ++ after → Serves cmds start before next →
      WritesReach cmds start next := by
  rintro before after next rfl hRun
  obtain ⟨s, rfl, hIn⟩ := hRun.inStep hStart
    (fun i => (received_append before after i ▸ List.prefix_append _ _).trans (hStreams i)) hTotal
    (fun first event rest s hSplit => hOk first event (rest ++ after) s (by simp [hSplit]))
  exact hIn.reach

theorem Serves.eq_of_nil (h : Serves cmds start [] (some s)) : s = start := by
  generalize hEvents : ([] : List Event) = events at h
  cases h with
  | nil => rfl
  | snoc => simp at hEvents

theorem not_cutsPayload_length (commands : List (List Bytes)) :
    ¬CutsPayload commands (encodeCommands commands).length := by
  rintro ⟨before, done, x, xs, after, rfl, -, -, hHigh⟩
  simp only [encodeCommands, encodeCommand, encodeBulkString, List.flatMap_append, List.flatMap_cons,
    List.length_append, List.length_cons, List.length_nil] at hHigh
  omega

/-- A `PSYNC` that makes its client a replica. -/
def Attaches (cmds : Commands ρ) (xs : List Bytes) : Prop :=
  getCommandType (xs.headD cmds.stale) = .psync ∧ 3 ≤ xs.length

instance (cmds : Commands ρ) (xs : List Bytes) : Decidable (Attaches cmds xs) :=
  inferInstanceAs (Decidable (_ ∧ _))

theorem Ran.type_eq {ch next : CommandHandler ρ} {ran : List (List Bytes)} (h : Ran cmds ch next ran)
    (hNone : ∀ xs ∈ ran, ¬Attaches cmds xs) : next.client.type = ch.client.type := by
  have hFold : ∀ (ran : List (List Bytes)) (client : Client ρ), (∀ xs ∈ ran, ¬Attaches cmds xs) →
      (ran.foldl (fun client xs => handleCommand cmds xs client) client).type = client.type := by
    intro ran
    induction ran with
    | nil => exact fun _ _ => rfl
    | cons xs ran ih =>
        intro client hNone
        rw [List.foldl_cons, ih _ (fun ys hys => hNone ys (List.mem_cons_of_mem _ hys)), handleCommand]
        exact if_neg (hNone xs (List.mem_cons_self ..))
  rw [h.client]
  exact hFold ran ch.client hNone

/-- Every read that the ring has room for is processed, and a client that does
not attach itself stays what it is. -/
theorem Follows.exists_receives {stream : List (List Bytes)} {c : Connection ρ}
    {bytes future : Bytes} {written : Nat} (h : Follows cmds stream c (bytes ++ future) written)
    (hTotal : (encodeCommands stream).length < 2 ^ 64)
    (hClean : ¬CutsPayload stream (written + bytes.length)) (hne : bytes ≠ [])
    (hFit : bytes.length ≤ c.inputBuffer.writableLen.toNat)
    (hNone : ∀ xs ∈ stream, ¬Attaches cmds xs) (world : ρ) :
    ∃ filled r last next, Receives cmds (c.seeing world) bytes filled r last next ∧
      next.handler.client.type = c.handler.client.type := by
  obtain ⟨steps, hBetween⟩ := h.between
  have hLength := h.length
  rw [List.length_append] at hLength
  obtain ⟨filled, r, last, next, more, ran, hRead, hNext, hRan, -⟩ :=
    (hBetween.seeing world).receive cmds hne hFit hLength hTotal hClean
  refine ⟨filled, r, last, next, hRead, hRan.type_eq fun xs hxs => hNone xs ?_⟩
  rw [← hNext.ran, hRan.invocations]
  exact List.mem_append_left _ (List.mem_append_right _ hxs)

end Servers

theorem exists_forall₂_appends {bytes : Bytes} {replicas : List Replica}
    (h : ∀ rep ∈ replicas, ∃ q written, rep.outputBuffer.Queues q written ∧
      bytes.length ≤ rep.outputBuffer.writableLen.toNat ∧ written + bytes.length < 2 ^ 64) :
    ∃ others, List.Forall₂ (fun rep next => rep.Appends bytes next) replicas others := by
  induction replicas with
  | nil => exact ⟨[], .nil⟩
  | cons rep replicas ih =>
      obtain ⟨q, written, hQueue, hFit, hTotal⟩ := h rep (List.mem_cons_self ..)
      obtain ⟨ring, hStores, -⟩ := hQueue.stores hFit hTotal
      obtain ⟨others, hOthers⟩ := ih (fun rep hRep => h rep (List.mem_cons_of_mem _ hRep))
      exact ⟨⟨ring, rep.appended ++ bytes⟩ :: others, .cons ⟨hStores, rfl⟩ hOthers⟩

/-- With room everywhere the bytes are propagated. -/
theorem exists_propagates (info : ServerInfo) (bytes : Bytes) {q : Bytes} {written : Nat}
    (hBacklog : info.replBacklog.Queues q written)
    (hFit : bytes.length ≤ info.replBacklog.writableLen.toNat)
    (hTotal : written + bytes.length < 2 ^ 64)
    (hReplicas : ∀ rep ∈ info.replicas, ∃ q written, rep.outputBuffer.Queues q written ∧
      bytes.length ≤ rep.outputBuffer.writableLen.toNat ∧ written + bytes.length < 2 ^ 64) :
    ∃ next, Propagates info bytes (some next) := by
  obtain ⟨backlog, ⟨ptr, len, hWritable, hRoom, hWrite⟩, -⟩ := hBacklog.stores hFit hTotal
  obtain ⟨others, hOthers⟩ := exists_forall₂_appends hReplicas
  exact ⟨_, .sent rfl ⟨ptr, len, hWritable, by rw [if_pos hRoom]; exact ⟨backlog, 0, hWrite, rfl⟩⟩
    hOthers⟩

/-- A server with one attached replica, and clients that have just connected. -/
def oneReplica : Server Unit where
  info := ⟨0, ⟨0, 0, fun _ => 0, 1048576, 5⟩, 0, [⟨⟨0, 0, fun _ => 0, 65536, 4⟩, []⟩]⟩
  world := ()
  clients := fun _ => connect ⟨0, 0, fun _ => 0, 65536, 3⟩ idleClient
  executed := []

def setCommand : List Bytes := [ascii ['S', 'E', 'T'], ascii ['a'], ascii ['b']]

def getCommand : List Bytes := [ascii ['G', 'E', 'T'], ascii ['a']]

theorem starts_oneReplica : Starts oneReplica where
  clients := fun _ => ⟨4096, 3, true, ⟨0, 0, fun _ => 0, 65536, 3⟩, idleClient, rfl, rfl, rfl, rfl⟩
  executed := rfl
  appended := by simp [oneReplica]

/-- The start of a client with a stream of its own. -/
theorem follows_oneReplica (stream : List (List Bytes)) (i : Nat) :
    Follows idleCommands stream (oneReplica.clients i) (encodeCommands stream) 0 :=
  (inStep_start idleCommands (fun _ => stream) starts_oneReplica).clients i
    (encodeCommands stream) rfl

/-- The first read of a client brings its whole stream. -/
theorem exists_receives_whole {stream : List (List Bytes)} (hne : encodeCommands stream ≠ [])
    (hFit : (encodeCommands stream).length ≤ 65536)
    (hNone : ∀ xs ∈ stream, ¬Attaches idleCommands xs) :
    ∃ filled r last c,
      Receives idleCommands ((oneReplica.clients 0).seeing ()) (encodeCommands stream) filled r
        last c ∧
      c.handler.client.type = .regular ∧ c.handler.invocations = stream ∧
      (last.handler.client.shouldPropogateCommand = true ↔ LastIsSet idleCommands stream) ∧
      r.mem.take (toSize last.begin) = encodeCommands stream := by
  have hStart := follows_oneReplica stream 0
  rw [← List.append_nil (encodeCommands stream)] at hStart
  have hClean : ¬CutsPayload stream (0 + (encodeCommands stream).length) := by
    rw [Nat.zero_add]
    exact not_cutsPayload_length stream
  obtain ⟨filled, r, last, c, hRead, hType⟩ :=
    hStart.exists_receives (by omega) hClean hne hFit hNone ()
  obtain ⟨hAfter, ran, hRan, hParsed⟩ := hStart.receive (by omega) hClean hRead
  rw [Nat.zero_add] at hAfter hParsed
  have hCompleted := completed_length stream
  have hExecuted : c.handler.invocations = stream := hAfter.completed_eq.symm.trans hCompleted
  refine ⟨filled, r, last, c, hRead, hType, hExecuted, ?_, ?_⟩
  · rw [← hRead.handler, hAfter.flag, hExecuted]
  · rw [hParsed (atBoundary_zero stream) (congrArg (fun xs => (encodeCommands xs).length) hCompleted)]
    exact congrArg encodeCommands (hRan.symm.trans hExecuted)

/-- Both commands in one read: the second one clears the flag, and the write
does not reach the replica. -/
theorem set_then_get_not_propagated :
    ∃ s, Serves idleCommands oneReplica [.read 0 (encodeCommands [setCommand, getCommand])] (some s) ∧
      ¬WritesReach idleCommands oneReplica (some s) := by
  obtain ⟨filled, r, last, c, hRead, hType, hExecuted, hSet, -⟩ :=
    exists_receives_whole (show encodeCommands [setCommand, getCommand] ≠ [] by decide)
      (by decide) (by decide)
  have hFlag : last.handler.client.shouldPropogateCommand = false := by
    rw [Bool.eq_false_iff]
    intro hTrue
    obtain ⟨xs, ⟨⟩, hLast⟩ := hSet.mp hTrue
    exact absurd hLast (by decide)
  have hInfo : if last.handler.client.shouldPropogateCommand then
      Propagates oneReplica.info (r.mem.take (toSize last.begin)) (some oneReplica.info)
      else some oneReplica.info = some oneReplica.info := by
    rw [hFlag]
    rfl
  refine ⟨_, (Serves.nil _).snoc (.read hRead hType hInfo), ?_⟩
  · rintro ⟨sent, -, hSets, -, hAll⟩
    have hNone : sent = [] := by
      have hNothing := hAll _ (List.mem_singleton_self _)
      cases sent with
      | nil => rfl
      | cons xs sent => simp [encodeCommands, encodeCommand] at hNothing
    subst hNone
    have hWrites : c.handler.invocations.filter (fun xs => IsSet idleCommands xs) = [] := hSets.symm
    rw [hExecuted] at hWrites
    exact absurd hWrites (by decide)

/-- The write alone in a read does. -/
theorem set_propagated :
    ∃ s, Serves idleCommands oneReplica [.read 0 (encodeCommands [setCommand])] (some s) ∧
      s.executed = [setCommand] ∧ WritesReach idleCommands oneReplica (some s) := by
  obtain ⟨filled, r, last, c, hRead, hType, hExecuted, hSet, hBytes⟩ :=
    exists_receives_whole (show encodeCommands [setCommand] ≠ [] by decide) (by decide) (by decide)
  have hFlag : last.handler.client.shouldPropogateCommand = true :=
    hSet.mpr ⟨_, rfl, by decide⟩
  obtain ⟨info, hPropagates⟩ := exists_propagates oneReplica.info
    (encodeCommands [setCommand])
    (RingBuffer.queues_create (show rbCreate 4096 1048576 5 true = _ from rfl) (by decide))
    (by decide) (by decide)
    (by
      intro rep hRep
      obtain rfl := List.mem_singleton.mp hRep
      exact ⟨[], 0, RingBuffer.queues_create (show rbCreate 4096 65536 4 true = _ from rfl) (by decide),
        by decide, by decide⟩)
  have hInfo : if last.handler.client.shouldPropogateCommand then
      Propagates oneReplica.info (r.mem.take (toSize last.begin)) (some info)
      else some info = some oneReplica.info := by
    rw [hFlag, hBytes]
    exact hPropagates
  have hRun : Serves idleCommands oneReplica [.read 0 (encodeCommands [setCommand])] _ :=
    (Serves.nil _).snoc (.read hRead hType hInfo)
  refine ⟨_, hRun, hExecuted, writes_reach_replicas idleCommands
    (fun i => if i = 0 then [setCommand] else []) oneReplica starts_oneReplica
    [.read 0 (encodeCommands [setCommand])] ?_ ?_ ?_ _ [] _ (List.append_nil _).symm hRun⟩
  · intro i
    by_cases hi : i = 0
    · subst hi
      exact List.prefix_rfl
    · simp [received, Ne.symm hi]
  · intro i
    split <;> decide
  · intro before event after s hSplit hServes
    obtain ⟨rfl, hEvent⟩ : before = [] ∧ [Event.read 0 (encodeCommands [setCommand])] =
        event :: after := by
      cases before with
      | nil => exact ⟨rfl, hSplit⟩
      | cons => simp at hSplit
    obtain ⟨rfl, -⟩ := List.cons.inj hEvent
    obtain rfl := hServes.eq_of_nil
    refine ⟨not_cutsPayload_length [setCommand], fun _ => ⟨by decide, by decide, ?_⟩,
      fun hNot => absurd ?_ hNot⟩
    · intro rep hRep
      obtain rfl := List.mem_singleton.mp hRep
      decide
    · exact ⟨_, rfl, by decide⟩

end RedisServer
