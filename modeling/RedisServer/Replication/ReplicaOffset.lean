import RedisServer.Replication.SnapshotReception
import RedisServer.Replication.Propagation
import RedisServer.Commands.Handlers

/-! The offset of a replica. It is advanced by two statements at the end of a
read: one for the link to the master, whose condition compares the type of the
client with a state of the link and is never true, and one for writes that are
propagated, of the master or of anyone else. -/
namespace RedisServer

open Machine

/-- The enumerators as the numbers that C compares. -/
def ClientType.number : ClientType → Nat
  | .regular => 0
  | .replica => 1
  | .master => 2

def ReplicaClientState.number : ReplicaClientState → Nat
  | .none => 0
  | .connecting => 1
  | .sentPing => 2
  | .receivedPong => 3
  | .sentReplconfPort => 4
  | .receivedReplconfPortOk => 5
  | .sentReplconfCapa => 6
  | .receivedReplconfCapaOk => 7
  | .sentPsync => 8
  | .receivedFullresyncResponse => 9
  | .receivingRdbData => 10
  | .ready => 11
  | .error => 12

/-- The two statements on `master_repl_offset` at the end of a read. -/
def advanceOffset (role : ServerRole) (type : ClientType) (shouldPropogateCommand : Bool)
    (bytesParsed : Nat) (offset : Int) : Int :=
  let offset :=
    if role = .slave ∧ type = .master ∧ type.number = ReplicaClientState.ready.number then
      toInt64 (offset + bytesParsed)
    else offset
  if shouldPropogateCommand then toInt64 (offset + bytesParsed) else offset

/-- A replica with its offset. `consumed` counts the bytes that the parser has
taken from the master. -/
structure OffsetLink (ρ : Type) where
  link : MasterLink ρ
  masterReplOffset : Int
  consumed : Nat

/-- Something happens on the link, or a read of another client is parsed, which
leaves the world as it is given here. -/
inductive OffsetEvent (ρ : Type) where
  | link (event : MasterLinkEvent)
  | other (bytesParsed : UInt64) (shouldPropogateCommand : Bool) (rest : ρ)

namespace OffsetLink

variable {ρ : Type}

/-- The end of a read on the link. -/
def endRead (s : OffsetLink ρ) (link : MasterLink ρ) (bytesParsed : Nat) : OffsetLink ρ where
  link := link
  masterReplOffset := advanceOffset .slave link.handler.client.type
    link.handler.client.shouldPropogateCommand bytesParsed s.masterReplOffset
  consumed := s.consumed + bytesParsed

def step (srv : ReplicaServer ρ) (s : OffsetLink ρ) : OffsetEvent ρ → OffsetLink ρ × Unit
  | .link .tick =>
      match s.link.bytesParsed srv with
      | some n => (s.endRead (s.link.tick srv) n, ())
      | none => ({ s with link := s.link.tick srv }, ())
  | .link event => ({ s with link := (s.link.step srv event).1 }, ())
  | .other n propagates rest =>
      ({ s with
        link := { s.link with handler := { s.link.handler with
          client := { s.link.handler.client with rest := rest } } }
        masterReplOffset :=
          advanceOffset .slave .regular propagates n.toNat s.masterReplOffset }, ())

/-- A read on the link from which the parser takes bytes leaves a write as the
last command, and the offset can count them; nobody else has a write propagated. -/
def Counted (srv : ReplicaServer ρ) (s : OffsetLink ρ) : OffsetEvent ρ → Prop
  | .link .tick => ∀ n, s.link.bytesParsed srv = some n → n = 0 ∨
      LastIsSet srv.cmds (s.link.tick srv).handler.invocations ∧ s.masterReplOffset + n < 2 ^ 63
  | .link _ => True
  | .other n propagates _ => propagates = true → n = 0

end OffsetLink

section Flag

variable {ρ : Type} {cmds : Commands ρ} {ch : CommandHandler ρ}

/-- The flag tells whether the last command was a write. -/
def CommandHandler.Noted (cmds : Commands ρ) (ch : CommandHandler ρ) : Prop :=
  ch.client.shouldPropogateCommand = true ↔ LastIsSet cmds ch.invocations

/-- A handler with the same flag and the same commands behind it. -/
theorem CommandHandler.Noted.of_same {other : CommandHandler ρ} (h : ch.Noted cmds)
    (hFlag : other.client.shouldPropogateCommand = ch.client.shouldPropogateCommand)
    (hLog : other.invocations = ch.invocations) : other.Noted cmds := by
  rw [CommandHandler.Noted, hFlag, hLog]
  exact h

theorem endSimpleStringHandler_log (ch : CommandHandler ρ) :
    ch.endSimpleStringHandler.client.shouldPropogateCommand = ch.client.shouldPropogateCommand ∧
      ch.endSimpleStringHandler.invocations = ch.invocations := by
  unfold CommandHandler.endSimpleStringHandler
  split
  · unfold CommandHandler.handleSimpleStringReply
    dsimp only
    split
    · split <;> exact ⟨rfl, rfl⟩
    · exact ⟨rfl, rfl⟩
  · exact ⟨rfl, rfl⟩

/-- Only the end of an array runs a command. -/
theorem CommandHandler.Noted.react (h : ch.Noted cmds) (mem : Bytes) (call : Callback) :
    (ch.react cmds mem call).Noted cmds := by
  cases call with
  | endArray =>
      simp only [CommandHandler.react, CommandHandler.endArrayHandler]
      split_ifs
      · exact h
      · exact h
      · exact h
      · simp [CommandHandler.Noted, handleCommand, LastIsSet, IsSet]
  | beginArray len =>
      simp only [CommandHandler.react, CommandHandler.beginArrayHandler]
      split_ifs <;> exact h
  | beginBulkString len =>
      simp only [CommandHandler.react, CommandHandler.beginBulkStringHandler]
      split_ifs <;> exact h
  | endBulkString =>
      simp only [CommandHandler.react, CommandHandler.endBulkStringHandler]
      split_ifs <;> exact h
  | chars first last =>
      simp only [CommandHandler.react, CommandHandler.charsHandler]
      split_ifs <;> exact h
  | endSimpleString =>
      obtain ⟨hFlag, hLog⟩ := endSimpleStringHandler_log ch
      exact h.of_same hFlag hLog
  | beginSimpleString | beginError | endError | beginInteger | endInteger => exact h

theorem CommandHandler.Noted.handle (h : ch.Noted cmds) (mem : Bytes) (call : Callback) :
    (ch.handle cmds mem call).Noted cmds := by
  unfold CommandHandler.handle
  split
  · exact h.react mem call
  · exact h

theorem CommandHandler.Noted.foldl_handle (h : ch.Noted cmds) (mem : Bytes) (calls : List Callback) :
    (calls.foldl (CommandHandler.handle cmds mem) ch).Noted cmds := by
  induction calls generalizing ch with
  | nil => exact h
  | cons call calls ih => exact ih (h.handle mem call)

theorem CommandHandler.Noted.parserStep {r : Range} {a : ParserRun (CommandHandler ρ)}
    (h : a.handler.Noted cmds) :
    (RedisServer.parserStep (createHandler cmds) r a).1.handler.Noted cmds := by
  unfold RedisServer.parserStep
  split
  · exact h
  · exact h.foldl_handle _ _

theorem CommandHandler.Noted.ends {r : Range} {a b : ParserRun (CommandHandler ρ)}
    (h : a.handler.Noted cmds) (hEnds : Ends (RedisServer.parserStep (createHandler cmds) r) a b) :
    b.handler.Noted cmds := by
  obtain ⟨m, hVisits, hLast⟩ := ends_iff.mp hEnds
  have hm : m.handler.Noted cmds := by
    clear hLast
    induction hVisits with
    | refl => exact h
    | tail _ hNext ih =>
        have hb := CommandHandler.Noted.parserStep (r := r) ih
        rw [Continues] at hNext
        rwa [hNext] at hb
  have hb := CommandHandler.Noted.parserStep (r := r) hm
  rwa [hLast] at hb

end Flag

namespace MasterLink

variable {ρ : Type} {srv : ReplicaServer ρ} {s : MasterLink ρ}

/-- Nothing that happens on the link makes the flag disagree with the commands. -/
theorem noted_step (h : s.handler.Noted srv.cmds) (event : MasterLinkEvent) :
    (s.step srv event).1.handler.Noted srv.cmds := by
  cases step_handlerMoves srv s event with
  | stays hHandler =>
      rw [hHandler]
      exact h
  | moves state hNot hHandler =>
      rw [hHandler]
      exact h
  | parses r begin hHandler =>
      rw [hHandler]
      exact CommandHandler.Noted.parserStep h
  | loads file hFile hHandler =>
      rw [hHandler]
      exact h

/-- From the start of a connection on. -/
theorem noted_throughout (srv : ReplicaServer ρ) (rb : RingBuffer) (rest : ρ)
    (events : List MasterLinkEvent) :
    Throughout (step srv) (fun s => s.handler.Noted srv.cmds) (connectMaster rb rest) events := by
  refine throughout_of_allSteps (P := fun _ _ => True) (fun s event h _ => noted_step h event) ?_
    (allSteps_true _ events)
  simp [CommandHandler.Noted, connectMaster, createCommandHandler, LastIsSet]

end MasterLink

section Offset

/-- The first of the two statements is never executed. -/
theorem advanceOffset_eq (role : ServerRole) (type : ClientType) (propagates : Bool) (n : Nat)
    (offset : Int) :
    advanceOffset role type propagates n offset =
      if propagates then toInt64 (offset + n) else offset := by
  have hNever : ¬(role = .slave ∧ type = .master ∧
      type.number = ReplicaClientState.ready.number) := by
    rintro ⟨-, rfl, hNumber⟩
    cases hNumber
  unfold advanceOffset
  rw [if_neg hNever]

theorem advanceOffset_range (role : ServerRole) (type : ClientType) (propagates : Bool) (n : Nat)
    {offset : Int} (h : -2 ^ 63 ≤ offset ∧ offset < 2 ^ 63) :
    -2 ^ 63 ≤ advanceOffset role type propagates n offset ∧
      advanceOffset role type propagates n offset < 2 ^ 63 := by
  rw [advanceOffset_eq]
  split
  · exact toInt64_range _
  · exact h

/-- When a propagated read is counted right. -/
theorem toInt64_add_eq_iff {offset : Int} (hLow : -2 ^ 63 ≤ offset) (n : Nat) :
    toInt64 (offset + n) = offset + n ↔ offset + n < 2 ^ 63 := by
  have hRange := toInt64_range (offset + n)
  constructor
  · omega
  · exact fun hHigh => toInt64_of_small (by omega) hHigh

namespace OffsetLink

variable {ρ : Type} {srv : ReplicaServer ρ} {s : OffsetLink ρ} {start : Int}

/-- The offset is what it was at the start, and all the bytes taken since. -/
def Right (start : Int) (s : OffsetLink ρ) : Prop := s.masterReplOffset = start + s.consumed

/-- The invariant, with what the flag means and what the offset can hold. -/
structure Kept (srv : ReplicaServer ρ) (start : Int) (s : OffsetLink ρ) : Prop where
  right : s.Right start
  noted : s.link.handler.Noted srv.cmds
  range : -2 ^ 63 ≤ s.masterReplOffset ∧ s.masterReplOffset < 2 ^ 63

/-- The end of a read, for a link whose flag agrees with its commands. -/
theorem Kept.endRead_iff (h : s.Kept srv start) {link : MasterLink ρ}
    (hNoted : link.handler.Noted srv.cmds) (n : Nat) :
    (s.endRead link n).Right start ↔
      n = 0 ∨ LastIsSet srv.cmds link.handler.invocations ∧ s.masterReplOffset + n < 2 ^ 63 := by
  have hRight : s.masterReplOffset = start + s.consumed := h.right
  by_cases hSet : LastIsSet srv.cmds link.handler.invocations
  · have hNext : (s.endRead link n).Right start ↔
        toInt64 (s.masterReplOffset + n) = s.masterReplOffset + n := by
      rw [Right, endRead, advanceOffset_eq, if_pos (hNoted.mpr hSet)]
      push_cast
      rw [← add_assoc, ← hRight]
    rw [hNext, toInt64_add_eq_iff h.range.1]
    have hHigh := h.range.2
    constructor
    · exact fun hFits => Or.inr ⟨hSet, hFits⟩
    · rintro (rfl | ⟨-, hFits⟩)
      · simpa using hHigh
      · exact hFits
  · have hNext : (s.endRead link n).Right start ↔ n = 0 := by
      rw [Right, endRead, advanceOffset_eq, if_neg fun hFlag => hSet (hNoted.mp hFlag)]
      push_cast
      rw [hRight]
      omega
    rw [hNext]
    exact ⟨Or.inl, fun h => h.resolve_right fun hBoth => hSet hBoth.1⟩

/-- A read of another client. -/
theorem Kept.other_iff (h : s.Kept srv start) (n : UInt64) (propagates : Bool) (rest : ρ) :
    (s.step srv (.other n propagates rest)).1.Right start ↔ (propagates = true → n = 0) := by
  have hRight : s.masterReplOffset = start + s.consumed := h.right
  cases propagates with
  | false =>
      refine iff_of_true ?_ (fun hFlag => by cases hFlag)
      simpa only [Right, step, advanceOffset_eq, Bool.false_eq_true, ↓reduceIte] using hRight
  | true =>
      have hNext : (s.step srv (.other n true rest)).1.Right start ↔
          toInt64 (s.masterReplOffset + n.toNat) = s.masterReplOffset := by
        simp only [Right, step, advanceOffset_eq, ↓reduceIte]
        rw [← hRight]
      have hZero : n = 0 ↔ n.toNat = 0 := ⟨fun h => by rw [h]; rfl, fun h => UInt64.toNat_inj.mp h⟩
      have hSize := n.toNat_lt
      have hRange := h.range
      rw [hNext, forall_prop_of_true rfl, hZero, toInt64, Int.bmod_def]
      norm_num
      omega

/-- One event, and what is left of the invariant after it. -/
theorem Kept.step_iff (h : s.Kept srv start) (event : OffsetEvent ρ) :
    ((s.step srv event).1.Right start ↔ s.Counted srv event) ∧
      (s.Counted srv event → (s.step srv event).1.Kept srv start) := by
  have hNoted := MasterLink.noted_step h.noted .tick
  cases event with
  | link event =>
      cases event with
      | deliver results =>
          exact ⟨iff_of_true h.right trivial, fun _ => ⟨h.right, h.noted, h.range⟩⟩
      | wake =>
          exact ⟨iff_of_true h.right trivial,
            fun _ => ⟨h.right, MasterLink.noted_step h.noted .wake, h.range⟩⟩
      | tick =>
          cases hParsed : s.link.bytesParsed srv with
          | none =>
              have hStep : (s.step srv (.link .tick)).1 = { s with link := s.link.tick srv } := by
                simp only [step, hParsed]
              rw [hStep]
              refine ⟨iff_of_true h.right fun n hn => ?_, fun _ => ⟨h.right, hNoted, h.range⟩⟩
              rw [hParsed] at hn
              cases hn
          | some n =>
              have hStep : (s.step srv (.link .tick)).1 = s.endRead (s.link.tick srv) n := by
                simp only [step, hParsed]
              have hCounted : s.Counted srv (.link .tick) ↔ n = 0 ∨
                  LastIsSet srv.cmds (s.link.tick srv).handler.invocations ∧
                    s.masterReplOffset + n < 2 ^ 63 := by
                simp only [Counted, hParsed, Option.some.injEq, forall_eq']
              rw [hStep, hCounted]
              have hIff := h.endRead_iff hNoted n
              exact ⟨hIff, fun hYes => ⟨hIff.mpr hYes, hNoted, advanceOffset_range _ _ _ _ h.range⟩⟩
  | other n propagates rest =>
      have hIff := h.other_iff n propagates rest
      exact ⟨hIff, fun hYes => ⟨hIff.mpr hYes, h.noted, advanceOffset_range _ _ _ _ h.range⟩⟩

/-- Exactly which runs keep the offset of a replica: those in which every read on
the link that takes bytes leaves a write as the last command, and nobody else
has a write propagated. -/
theorem replica_offset_iff {link : MasterLink ρ} (hNoted : link.handler.Noted srv.cmds)
    (hStart : -2 ^ 63 ≤ start ∧ start < 2 ^ 63) (events : List (OffsetEvent ρ)) :
    Throughout (step srv) (Right start) ⟨link, start, 0⟩ events ↔
      AllSteps (step srv) (Counted srv) ⟨link, start, 0⟩ events := by
  refine throughout_iff_allSteps_of_inv (J := Kept srv start) (fun s h => h.right)
    (fun s event h => (h.step_iff event).1) (fun s event h => (h.step_iff event).2) ?_ events
  exact ⟨by simp [Right], hNoted, hStart⟩

/-- Iterations of the parser that are not the last one leave the offset alone. -/
theorem exists_run_parsesOn {m : MasterLink ρ}
    (h : Relation.ReflTransGen (MasterLink.ParsesOn srv) s.link m) (events : List (OffsetEvent ρ)) :
    ∃ ticks, (run (step srv) s (List.replicate ticks (.link .tick) ++ events)).1 =
        (run (step srv) { s with link := m } events).1 ∧
      (AllSteps (step srv) (Counted srv) { s with link := m } events →
        AllSteps (step srv) (Counted srv) s (List.replicate ticks (.link .tick) ++ events)) := by
  generalize hLink : s.link = link at h
  induction h using Relation.ReflTransGen.head_induction_on generalizing s with
  | refl =>
      subst hLink
      exact ⟨0, rfl, id⟩
  | head hStep _ ih =>
      subst hLink
      obtain ⟨ticks, hTicks, hAll⟩ := ih (s := { s with link := s.link.tick srv }) hStep.next
      have hNext : (step srv s (.link .tick)).1 = { s with link := s.link.tick srv } := by
        simp only [step, hStep.more]
      have hCounted : s.Counted srv (.link .tick) := by
        intro n hn
        rw [hStep.more] at hn
        cases hn
      refine ⟨ticks + 1, ?_, fun hEvents => ?_⟩
      · rw [List.replicate_succ, List.cons_append, run, hNext]
        exact hTicks
      · rw [List.replicate_succ, List.cons_append, AllSteps, hNext]
        exact ⟨hCounted, hAll hEvents⟩

/-- A parse that ends is run to its end, and its bytes are counted once. -/
theorem exists_run_parse {r : Range} {begin : Int} {short : Bool}
    {last : ParserRun (CommandHandler ρ)} (hControl : s.link.control = .parse r begin short)
    (hParse : Ends (parserStep (createHandler srv.cmds) r)
      ⟨s.link.parser, s.link.handler, begin⟩ last)
    (hRun : last.handler.status = .running) :
    ∃ ticks link, (run (step srv) s (List.replicate ticks (.link .tick))).1 =
        s.endRead link (toSize last.begin) ∧ link.handler = last.handler ∧
      (LastIsSet srv.cmds last.handler.invocations →
        s.masterReplOffset + toSize last.begin < 2 ^ 63 →
          AllSteps (step srv) (Counted srv) s (List.replicate ticks (.link .tick))) := by
  obtain ⟨m, -, hPath, -, -, hParsed, hDone⟩ :=
    MasterLink.exists_last_iteration hControl hParse hRun
  obtain ⟨ticks, hTicks, hAll⟩ := exists_run_parsesOn hPath [.link .tick]
  have hLast : (m.tick srv).handler = last.handler := by
    rw [hDone, (MasterLink.consume_frame _ _ _).1]
  refine ⟨ticks + 1, m.tick srv, ?_, hLast, fun hSet hFits => ?_⟩
  · rw [List.replicate_succ', hTicks]
    simp only [run, step, hParsed]
    rfl
  · rw [List.replicate_succ']
    refine hAll ⟨fun n hn => Or.inr ?_, trivial⟩
    cases hParsed.symm.trans hn
    exact ⟨hLast ▸ hSet, hFits⟩

/-- A stream of commands that comes in one read, on a link where nothing has
been parsed before: the end of the read counts it as a whole, and rightly so if it
ends with a write. -/
theorem exists_run_read (srv : ReplicaServer ρ) {commands : List (List Bytes)} {client : Client ρ}
    {bufSize argCapacity written : Nat} {rest : List ReadResult}
    (hControl : s.link.control = .input) (hParser : s.link.parser = parserInit)
    (hHandler : s.link.handler = createCommandHandler client bufSize argCapacity)
    (hClient : ¬client.AwaitingSnapshot) (hNoted : s.link.handler.Noted srv.cmds)
    (hQueue : s.link.inputBuffer.Queues [] written) (hSize : s.link.inputBuffer.size = 65536)
    (hSocket : s.link.socket = .bytes (encodeCommands commands) :: rest)
    (hSome : encodeCommands commands ≠ []) (hRoom : (encodeCommands commands).length < 65536)
    (hTotal : written + (encodeCommands commands).length < 2 ^ 64) :
    ∃ ticks link, (run (step srv) s (List.replicate ticks (.link .tick))).1 =
        s.endRead link (encodeCommands commands).length ∧
      link.handler.Noted srv.cmds ∧ link.handler.invocations = commands ∧
      (LastIsSet srv.cmds commands →
        s.masterReplOffset + (encodeCommands commands).length < 2 ^ 63 →
          AllSteps (step srv) (Counted srv) s (List.replicate ticks (.link .tick))) := by
  obtain ⟨ring, r, hInput, -, -, hStop, hMem⟩ :=
    MasterLink.inputStep_bytes hQueue hSize hSocket hSome (by simpa using hRoom) hTotal
  rw [List.nil_append, Nat.zero_add] at hStop
  rw [List.nil_append, List.drop_zero, ← hStop] at hMem
  obtain ⟨last, hParse, hBegin, -, hRun, hRan⟩ := ends_whole srv.cmds
    (createCommandHandler client bufSize argCapacity) rfl hClient hMem (by omega)
  rw [← hParser, ← hHandler] at hParse
  have hCount : toSize last.begin = (encodeCommands commands).length := by
    rw [hBegin, hStop]
    exact toSize_natCast (by omega)
  have hTick : (step srv s (.link .tick)).1 = { s with link := s.link.inputStep } := by
    simp only [step, MasterLink.bytesParsed, MasterLink.tick, hControl]
  obtain ⟨ticks, link, hTicks, hLast, hAll⟩ := exists_run_parse
    (s := { s with link := s.link.inputStep }) (congrArg MasterLink.control hInput)
    (by rw [hInput]; exact hParse) hRun
  refine ⟨ticks + 1, link, ?_, ?_, ?_, fun hSet hFits => ?_⟩
  · rw [hCount] at hTicks
    rw [List.replicate_succ, run, hTick]
    exact hTicks
  · rw [hLast]
    exact hNoted.ends hParse
  · rw [hLast]
    exact hRan.invocations
  · rw [List.replicate_succ, AllSteps, hTick]
    refine ⟨fun n hn => ?_, hAll (hRan.invocations ▸ hSet) (by rw [hCount]; exact hFits)⟩
    simp only [MasterLink.bytesParsed, hControl] at hn
    cases hn

/-- The link of a replica that has loaded its snapshot. -/
def readyLink : MasterLink Unit :=
  (connectMaster ⟨0, 0, fun _ => 0, 65536, 3⟩ ()).setReplClientState .ready

theorem noted_readyLink : readyLink.handler.Noted idleCommands := by
  simp [CommandHandler.Noted, readyLink, connectMaster, createCommandHandler,
    MasterLink.setReplClientState, LastIsSet]

/-- The same link when a command has come. -/
def askedLink (command : List Bytes) : OffsetLink Unit :=
  ⟨{ readyLink with
    socket := [.bytes (encodeCommands [command])]
    control := .input }, 0, 0⟩

/-- The first command on the link is a write, and its bytes are counted. -/
theorem replica_offset_counts_set : ∃ ticks,
    (run (step MasterLink.idleReplica) (askedLink setCommand)
      (List.replicate ticks (.link .tick))).1.masterReplOffset = 27 ∧
    Throughout (step MasterLink.idleReplica) (Right 0) ⟨readyLink, 0, 0⟩
      (.link (.deliver [.bytes (encodeCommands [setCommand])]) :: .link .wake ::
        List.replicate ticks (.link .tick)) := by
  obtain ⟨ticks, link, hEnd, hNoted, hRan, hCounted⟩ := exists_run_read MasterLink.idleReplica
    (s := askedLink setCommand) rfl rfl rfl
    (show ¬readyLink.handler.client.AwaitingSnapshot by decide)
    noted_readyLink RingBuffer.queues_client rfl rfl (by decide) (by decide) (by decide)
  have hSet : LastIsSet idleCommands [setCommand] := ⟨setCommand, rfl, by decide⟩
  refine ⟨ticks, ?_, (replica_offset_iff noted_readyLink (by decide) _).mpr
    ⟨trivial, trivial, hCounted hSet (by decide)⟩⟩
  rw [hEnd, endRead, advanceOffset_eq, if_pos (hNoted.mpr (hRan ▸ hSet))]
  change toInt64 (0 + (encodeCommands [setCommand]).length) = 27
  decide

/-- The first command on the link is a `PING`, and its bytes are not counted. -/
theorem replica_offset_misses_ping :
    readyLink.replClientState = .ready ∧ ∃ ticks,
      ¬Throughout (step MasterLink.idleReplica) (Right 0) ⟨readyLink, 0, 0⟩
        (.link (.deliver [.bytes (encodeCommands [MasterLink.pingCommand])]) :: .link .wake ::
          List.replicate ticks (.link .tick)) := by
  obtain ⟨ticks, link, hEnd, hNoted, hRan, -⟩ := exists_run_read MasterLink.idleReplica
    (s := askedLink MasterLink.pingCommand) rfl rfl rfl
    (show ¬readyLink.handler.client.AwaitingSnapshot by decide)
    noted_readyLink RingBuffer.queues_client rfl rfl (by decide) (by decide) (by decide)
  have hNot : ¬LastIsSet idleCommands link.handler.invocations := by
    rw [hRan]
    rintro ⟨xs, hxs, hSet⟩
    cases hxs
    revert hSet
    decide
  refine ⟨rfl, ticks, fun h => ?_⟩
  have hRight : (run (step MasterLink.idleReplica) (askedLink MasterLink.pingCommand)
      (List.replicate ticks (.link .tick))).1.Right 0 := h.last
  rw [hEnd, Right, endRead, advanceOffset_eq, if_neg fun hFlag => hNot (hNoted.mp hFlag)] at hRight
  have hCount : (0 : Int) = 0 + ((0 + (encodeCommands [MasterLink.pingCommand]).length : Nat) : Int) :=
    hRight
  revert hCount
  decide

end OffsetLink

end Offset

end RedisServer
