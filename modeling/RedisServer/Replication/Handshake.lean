import RedisServer.Protocol.ParserBounds
import RedisServer.Replication.MasterLink

/-! The order of the handshake of a replica with its master. The state is moved
by the event handler, by the send helpers, and by the answers that complete
inside the parser loop, of which one read may have many. What one step of the
link can do to the state is said once for each of these places. -/
namespace RedisServer

open Machine

namespace ReplicaClientState

/-- The state that comes next in the handshake. -/
def successor : ReplicaClientState → Option ReplicaClientState
  | .connecting => some .sentPing
  | .sentPing => some .receivedPong
  | .receivedPong => some .sentReplconfPort
  | .sentReplconfPort => some .receivedReplconfPortOk
  | .receivedReplconfPortOk => some .sentReplconfCapa
  | .sentReplconfCapa => some .receivedReplconfCapaOk
  | .receivedReplconfCapaOk => some .sentPsync
  | .sentPsync => some .receivedFullresyncResponse
  | .receivedFullresyncResponse => some .receivingRdbData
  | .receivingRdbData => some .ready
  | .none | .ready | .error => Option.none

/-- A step along the handshake, or to the error state, which has no next one. -/
def Advances (before after : ReplicaClientState) : Prop :=
  after = before ∨ before.successor = some after ∨ after = .error

/-- The states that an answer of the master leads to. -/
def Received (state : ReplicaClientState) : Prop :=
  state = .receivedPong ∨ state = .receivedReplconfPortOk ∨ state = .receivedReplconfCapaOk ∨
    state = .receivedFullresyncResponse

instance (state : ReplicaClientState) : Decidable state.Received :=
  inferInstanceAs (Decidable (_ ∨ _))

/-- The answers that are accepted for what was sent last. Of the answer to
`PSYNC` nine bytes are compared. -/
def Accepts : ReplicaClientState → Bytes → Prop
  | .sentPing, reply => reply = text "PONG"
  | .sentReplconfPort, reply | .sentReplconfCapa, reply => reply = text "OK"
  | .sentPsync, reply => reply.take 9 = text "FULLRESYN"
  | _, _ => False

end ReplicaClientState

open ReplicaClientState

/-- The commands of the handshake, in the order in which they are sent. -/
def handshakeCommands (port : Bytes) : List (List Bytes) :=
  [MasterLink.pingCommand, MasterLink.replconfListeningPortCommand port,
    MasterLink.replconfCapaCommand, MasterLink.psyncCommand]

/-- How many of the commands have been sent when the link gets to a state. -/
def ReplicaClientState.sentCount : ReplicaClientState → Nat
  | .none | .connecting => 0
  | .sentPing | .receivedPong => 1
  | .sentReplconfPort | .receivedReplconfPortOk => 2
  | .sentReplconfCapa | .receivedReplconfCapaOk => 3
  | _ => 4

section Answers

variable {ρ : Type}

/-- The handler is about to complete a simple string, and its text is one that
is accepted for what was sent last. -/
def CommandHandler.Answered (ch : CommandHandler ρ) : Prop :=
  ch.bufUsed < ch.bufSize ∧ ch.client.replClientState.Accepts (cString (ch.buf.take ch.bufUsed))

theorem cString_terminated (bytes rest : Bytes) : cString (bytes ++ 0 :: rest) = cString bytes := by
  induction bytes with
  | nil => rfl
  | cons c bytes ih =>
      simp only [cString, List.cons_append, List.takeWhile_cons] at ih ⊢
      rw [ih]

/-- A completed simple string leaves the state, moves it on by an accepted
answer, or makes it the error state. -/
theorem endSimpleStringHandler_state (ch : CommandHandler ρ) :
    ch.endSimpleStringHandler.client.replClientState = ch.client.replClientState ∨
    ch.endSimpleStringHandler.client.replClientState = .error ∨
    ch.client.replClientState.successor =
        some ch.endSimpleStringHandler.client.replClientState ∧ ch.Answered := by
  unfold CommandHandler.endSimpleStringHandler
  split
  · rename_i hRoom
    unfold CommandHandler.handleSimpleStringReply
    dsimp only
    rw [cString_terminated]
    split
    · split
      all_goals first | exact Or.inl rfl | skip
      all_goals
        rename_i hState
        dsimp only
        split
        · rename_i hReply
          refine Or.inr (Or.inr ⟨by rw [hState]; rfl, hRoom, ?_⟩)
          rw [hState]
          exact hReply
        · exact Or.inr (Or.inl rfl)
    · exact Or.inl rfl
  · exact Or.inr (Or.inl rfl)

/-- No other callback touches the state. -/
theorem react_state (cmds : Commands ρ) (mem : Bytes) (ch : CommandHandler ρ) {call : Callback}
    (h : call ≠ .endSimpleString) :
    (ch.react cmds mem call).client.replClientState = ch.client.replClientState := by
  cases call with
  | endSimpleString => exact absurd rfl h
  | beginArray len =>
      simp only [CommandHandler.react, CommandHandler.beginArrayHandler]
      split_ifs <;> rfl
  | endArray =>
      simp only [CommandHandler.react, CommandHandler.endArrayHandler]
      split_ifs <;> rfl
  | beginBulkString len =>
      simp only [CommandHandler.react, CommandHandler.beginBulkStringHandler]
      split_ifs <;> rfl
  | endBulkString =>
      simp only [CommandHandler.react, CommandHandler.endBulkStringHandler]
      split_ifs <;> rfl
  | chars first last =>
      simp only [CommandHandler.react, CommandHandler.charsHandler]
      split_ifs <;> rfl
  | beginSimpleString | beginError | endError | beginInteger | endInteger => rfl

theorem handle_state (cmds : Commands ρ) (mem : Bytes) (ch : CommandHandler ρ) {call : Callback}
    (h : call ≠ .endSimpleString) :
    (ch.handle cmds mem call).client.replClientState = ch.client.replClientState := by
  unfold CommandHandler.handle
  split
  · exact react_state cmds mem ch h
  · rfl

theorem foldl_handle_state (cmds : Commands ρ) (mem : Bytes) (ch : CommandHandler ρ)
    {calls : List Callback} (h : .endSimpleString ∉ calls) :
    (calls.foldl (CommandHandler.handle cmds mem) ch).client.replClientState =
      ch.client.replClientState := by
  induction calls generalizing ch with
  | nil => rfl
  | cons call calls ih =>
      rw [List.mem_cons, not_or] at h
      obtain ⟨hCall, hCalls⟩ := h
      rw [List.foldl_cons, ih _ hCalls, handle_state cmds mem ch (Ne.symm hCall)]

/-- Callbacks of which only the last may complete a simple string. -/
theorem foldl_handle_answers (cmds : Commands ρ) (mem : Bytes) (ch : CommandHandler ρ)
    {before last : List Callback} (hBefore : .endSimpleString ∉ before)
    (hLast : last = [] ∨ last = [.endSimpleString]) :
    let stored := before.foldl (CommandHandler.handle cmds mem) ch
    let next := (before ++ last).foldl (CommandHandler.handle cmds mem) ch
    next.client.replClientState = ch.client.replClientState ∨
    next.client.replClientState = .error ∨
    ch.client.replClientState.successor = some next.client.replClientState ∧
      last = [.endSimpleString] ∧ stored.Answered ∧
      stored.client.replClientState = ch.client.replClientState := by
  intro stored next
  have hSame : stored.client.replClientState = ch.client.replClientState :=
    foldl_handle_state cmds mem ch hBefore
  rcases hLast with rfl | rfl
  · refine Or.inl ?_
    rw [← hSame]
    simp only [next, stored, List.append_nil]
  · have hNext : next = stored.handle cmds mem .endSimpleString := by
      simp only [next, stored, List.foldl_append, List.foldl_cons, List.foldl_nil]
    unfold CommandHandler.handle at hNext
    split at hNext
    · have hState : next.client.replClientState =
          stored.endSimpleStringHandler.client.replClientState := by rw [hNext]; rfl
      rcases endSimpleStringHandler_state stored with hStay | hError | ⟨hSucc, hAnswer⟩
      · exact Or.inl (hState.trans (hStay.trans hSame))
      · exact Or.inr (Or.inl (hState.trans hError))
      · rw [hSame, ← hState] at hSucc
        exact Or.inr (Or.inr ⟨hSucc, rfl, hAnswer, hSame⟩)
    · -- A handler that is not running ignores the callback.
      exact Or.inl (by rw [hNext, hSame])

end Answers

section OneAnswer

theorem not_mem_inlineTokens (line : Bytes) (fuel start : Nat) :
    Callback.endSimpleString ∉ inlineTokens line fuel start := by
  induction fuel generalizing start with
  | zero => simp [inlineTokens]
  | succ fuel ih =>
      obtain hNone | ⟨first, last, next, -, -, -, -, hTokens⟩ := inlineTokens_cases line fuel start
      · simp [hNone]
      · simp [hTokens, tokenCalls, ih]

/-- A parse function completes at most one simple string, as the last thing
that it does. -/
theorem parse_answers (p : Parser) (begin : Bytes) (avail : Int) :
    ∃ before last, (p.parse begin avail).calls = before ++ last ∧ .endSimpleString ∉ before ∧
      (last = [] ∨ last = [.endSimpleString]) := by
  have hNone : ∀ calls : List Callback, .endSimpleString ∉ calls →
      ∃ before last, calls = before ++ last ∧ .endSimpleString ∉ before ∧
        (last = [] ∨ last = [Callback.endSimpleString]) := fun calls h =>
    ⟨calls, [], (List.append_nil _).symm, h, Or.inl rfl⟩
  unfold Parser.parse
  split
  · apply hNone
    unfold Parser.parseInitial
    dsimp only
    split_ifs <;> simp [Parser.wait]
  · unfold Parser.parseSimple
    dsimp only
    split_ifs
    · exact hNone _ (by simp [Parser.wait])
    · exact hNone _ (by simp)
    · -- The end of the line calls what the stack entry says.
      by_cases hEnd : p.top.endCallback = some .endSimpleString
      · exact ⟨[.chars 0 (scanCr begin avail)], [.endSimpleString], by rw [hEnd]; rfl, by simp,
          Or.inr rfl⟩
      · apply hNone
        simp [hEnd]
    · exact hNone _ (by simp)
  · apply hNone
    unfold Parser.parseLength
    dsimp only
    split_ifs <;> simp [Parser.wait]
  · apply hNone
    unfold Parser.parseBulkString
    dsimp only
    split_ifs <;> simp [Parser.wait]
  · apply hNone
    unfold Parser.parseArray
    dsimp only
    split_ifs <;> simp
  · apply hNone
    unfold Parser.parseInlineCommand
    dsimp only
    split_ifs
    · simp [Parser.wait]
    · simp [not_mem_inlineTokens]
    · simp [Parser.wait]

end OneAnswer

namespace MasterLink

variable {ρ : Type} {srv : ReplicaServer ρ} {s t : MasterLink ρ}

/-- The parse function whose turn it is completes a simple string, and in the
state that the link is in this is an accepted answer. -/
def Completes (srv : ReplicaServer ρ) (s : MasterLink ρ) : Prop :=
  ∃ r begin short before, s.control = .parse r begin short ∧
    (ParserRun.outcome r ⟨s.parser, s.handler, begin⟩).calls = before ++ [.endSimpleString] ∧
    (before.foldl (CommandHandler.handle srv.cmds (r.suffix begin)) s.handler).Answered ∧
    (before.foldl (CommandHandler.handle srv.cmds (r.suffix begin))
      s.handler).client.replClientState = s.replClientState

/-- What a step can do to the state and to the commands that were sent. -/
inductive Moves (srv : ReplicaServer ρ) (s t : MasterLink ρ) : Prop where
  | stays (hState : t.replClientState = s.replClientState) (hSent : t.sent = s.sent)
  | fails (hState : t.replClientState = .error) (hSent : t.sent = s.sent)
  | sends (command : List Bytes) (hState : s.replClientState.successor = some t.replClientState)
      (hCommand : (handshakeCommands srv.port)[s.replClientState.sentCount]? = some command)
      (hNext : ¬t.replClientState.Received) (hSent : t.sent = s.sent ++ [command])
  | answered (hState : s.replClientState.successor = some t.replClientState)
      (hAnswer : s.Completes srv) (hSent : t.sent = s.sent)
  | proceeds (hState : s.replClientState.successor = some t.replClientState)
      (hFour : s.replClientState.sentCount = 4) (hNext : ¬t.replClientState.Received)
      (hSent : t.sent = s.sent)

/-- The snapshot is received in its own state only. -/
def ReceivesInState (s : MasterLink ρ) : Prop :=
  ∀ bytesRead, s.control = .receive bytesRead → s.replClientState = .receivingRdbData

theorem inputStep_frame (s : MasterLink ρ) :
    s.inputStep.handler = s.handler ∧ s.inputStep.sent = s.sent ∧
      (s.control = .input → s.inputStep.ReceivesInState) := by
  unfold inputStep
  split
  · exact ⟨rfl, rfl, fun _ _ h => by cases h⟩
  · dsimp only
    split
    · exact ⟨rfl, rfl, fun _ _ h => by cases h⟩
    · split
      · exact ⟨rfl, rfl, fun _ _ h => by cases h⟩
      · exact ⟨rfl, rfl, fun _ _ h => by cases h⟩
      · refine ⟨rfl, rfl, fun hControl bytesRead h => ?_⟩
        rw [show s.control = .receive bytesRead from h] at hControl
        cases hControl
      · split
        · exact ⟨rfl, rfl, fun _ _ h => by cases h⟩
        · split
          · exact ⟨rfl, rfl, fun _ _ h => by cases h⟩
          · split
            · exact ⟨rfl, rfl, fun _ _ h => by cases h⟩
            · split
              · exact ⟨rfl, rfl, fun _ _ h => by cases h⟩
              · exact ⟨rfl, rfl, fun _ _ h => by cases h⟩

theorem consume_frame (begin : Int) (short : Bool) (s : MasterLink ρ) :
    (s.consume begin short).handler = s.handler ∧ (s.consume begin short).sent = s.sent ∧
      (s.consume begin short).ReceivesInState := by
  unfold consume
  split
  · exact ⟨rfl, rfl, fun _ h => by cases h⟩
  · refine ⟨rfl, rfl, fun bytesRead h => ?_⟩
    dsimp only at h
    split at h <;> cases h

theorem parseStep_moves {r : Range} {begin : Int} {short : Bool}
    (hControl : s.control = .parse r begin short) :
    Moves srv s (s.parseStep srv r begin short) ∧
      (s.parseStep srv r begin short).ReceivesInState := by
  obtain ⟨before, last, hCalls, hBefore, hLast⟩ :=
    parse_answers s.parser (r.suffix begin) (r.stop - begin)
  have hRun : ∀ t : MasterLink ρ, t.sent = s.sent →
      t.handler = (parserStep (createHandler srv.cmds) r
        ⟨s.parser, s.handler, begin⟩).1.handler → Moves srv s t := by
    intro t hSent hHandler
    unfold parserStep at hHandler
    dsimp only at hHandler
    split at hHandler
    · exact .stays (by unfold replClientState; rw [hHandler]) hSent
    · dsimp only [ParserRun.outcome] at hHandler
      rw [hCalls] at hHandler
      have hState : t.replClientState = ((before ++ last).foldl (CommandHandler.handle srv.cmds
          (r.suffix begin)) s.handler).client.replClientState := by
        unfold replClientState
        rw [hHandler]
        rfl
      rcases foldl_handle_answers srv.cmds (r.suffix begin) s.handler hBefore hLast with
        hStay | hError | ⟨hSucc, rfl, hAnswer, hSame⟩
      · exact .stays (hState.trans hStay) hSent
      · exact .fails (hState.trans hError) hSent
      · rw [← hState] at hSucc
        exact .answered hSucc ⟨r, begin, short, before, hControl, hCalls, hAnswer, hSame⟩ hSent
  unfold parseStep
  dsimp only
  split
  · exact ⟨hRun _ rfl rfl, fun _ h => by cases h⟩
  · split
    · exact ⟨hRun _ rfl rfl, fun _ h => by cases h⟩
    · obtain ⟨hHandler, hSent, hReceives⟩ := consume_frame (parserStep (createHandler srv.cmds) r
        ⟨s.parser, s.handler, begin⟩).1.begin short { s with
          parser := (parserStep (createHandler srv.cmds) r ⟨s.parser, s.handler, begin⟩).1.parser
          handler := (parserStep (createHandler srv.cmds) r ⟨s.parser, s.handler, begin⟩).1.handler }
      exact ⟨hRun _ hSent hHandler, hReceives⟩

theorem drain_moves (srv : ReplicaServer ρ) (bytesRead : Int) {m : MasterLink ρ}
    (hState : s.replClientState = .receivingRdbData) (hSame : m.handler = s.handler)
    (hSent : m.sent = s.sent) :
    Moves srv s (m.drain srv bytesRead) ∧ (m.drain srv bytesRead).ReceivesInState := by
  have hKept : m.replClientState = s.replClientState := by unfold replClientState; rw [hSame]
  unfold drain
  split
  · exact ⟨.stays hKept hSent, fun _ h => by cases h⟩
  · dsimp only
    split
    · exact ⟨.stays hKept hSent, fun _ h => by cases h⟩
    · split
      · exact ⟨.stays hKept hSent, fun _ h => by cases h⟩
      · split
        · refine ⟨.proceeds ?_ ?_ ?_ hSent, fun _ h => by cases h⟩
          · rw [hState]
            rfl
          · rw [hState]
            rfl
          · change ¬Received .ready
            decide
        · exact ⟨.stays hKept hSent, fun _ _ => hKept.trans hState⟩

theorem receiveStep_moves (srv : ReplicaServer ρ) (bytesRead : Option Int)
    (hState : s.replClientState = .receivingRdbData) :
    Moves srv s (s.receiveStep srv bytesRead) ∧ (s.receiveStep srv bytesRead).ReceivesInState := by
  unfold receiveStep
  split
  · split
    · exact ⟨.stays rfl rfl, fun _ h => by cases h⟩
    · dsimp only
      split
      · exact ⟨.stays rfl rfl, fun _ h => by cases h⟩
      · split
        · exact ⟨.stays rfl rfl, fun _ h => by cases h⟩
        · exact ⟨.stays rfl rfl, fun _ h => by cases h⟩
        · exact ⟨.stays rfl rfl, fun _ _ => hState⟩
        · split
          · exact ⟨.stays rfl rfl, fun _ h => by cases h⟩
          · split
            · exact ⟨.stays rfl rfl, fun _ h => by cases h⟩
            · split
              · exact ⟨.stays rfl rfl, fun _ h => by cases h⟩
              · exact drain_moves srv _ hState rfl rfl
  · split
    · exact ⟨.stays rfl rfl, fun _ h => by cases h⟩
    · exact drain_moves srv _ hState rfl rfl

theorem receiveHeader_moves (srv : ReplicaServer ρ)
    (hState : s.replClientState = .receivedFullresyncResponse) (hReceives : s.ReceivesInState) :
    Moves srv s s.receiveHeader ∧ s.receiveHeader.ReceivesInState := by
  unfold receiveHeader
  split
  · exact ⟨.stays rfl rfl, fun _ h => by cases h⟩
  · split
    · exact ⟨.stays rfl rfl, hReceives⟩
    · split
      · exact ⟨.stays rfl rfl, hReceives⟩
      · dsimp only
        split
        · exact ⟨.stays rfl rfl, fun _ h => by cases h⟩
        · split
          · exact ⟨.stays rfl rfl, hReceives⟩
          · refine ⟨.proceeds ?_ ?_ ?_ rfl, fun _ _ => rfl⟩
            · rw [hState]
              rfl
            · rw [hState]
              rfl
            · change ¬Received .receivingRdbData
              decide

theorem sendCommand_moves (srv : ReplicaServer ρ) {command : List Bytes}
    {state : ReplicaClientState} (hNext : s.replClientState.successor = some state)
    (hCommand : (handshakeCommands srv.port)[s.replClientState.sentCount]? = some command)
    (hOther : ¬state.Received) (hIdle : s.control = .idle) :
    Moves srv s (s.sendCommand command state) ∧ (s.sendCommand command state).ReceivesInState := by
  refine ⟨.sends command hNext hCommand hOther rfl, fun bytesRead h => ?_⟩
  rw [show s.control = .receive bytesRead from h] at hIdle
  cases hIdle

/-- Every event handler and every iteration of a loop is one of these moves. -/
theorem replicaHandleMasterData_moves (srv : ReplicaServer ρ) (hReceives : s.ReceivesInState)
    (hIdle : s.control = .idle) :
    Moves srv s (s.replicaHandleMasterData srv) ∧
      (s.replicaHandleMasterData srv).ReceivesInState := by
  unfold replicaHandleMasterData
  split
  case h_1 hState =>
    exact sendCommand_moves srv (by rw [hState]; rfl) (by rw [hState]; rfl)
      (by decide) hIdle
  case h_6 hState =>
    exact sendCommand_moves srv (by rw [hState]; rfl) (by rw [hState]; rfl)
      (by decide) hIdle
  case h_7 hState =>
    exact sendCommand_moves srv (by rw [hState]; rfl) (by rw [hState]; rfl)
      (by decide) hIdle
  case h_8 hState =>
    exact sendCommand_moves srv (by rw [hState]; rfl) (by rw [hState]; rfl)
      (by decide) hIdle
  case h_9 hState => exact receiveHeader_moves srv hState hReceives
  case h_10 hState => exact ⟨.stays rfl rfl, fun _ _ => hState⟩
  case h_12 | h_13 => exact ⟨.stays rfl rfl, hReceives⟩
  all_goals exact ⟨.stays rfl rfl, fun _ h => by cases h⟩

theorem step_moves (srv : ReplicaServer ρ) (hReceives : s.ReceivesInState)
    (e : MasterLinkEvent) : Moves srv s (s.step srv e).1 ∧ (s.step srv e).1.ReceivesInState := by
  cases e with
  | deliver results => exact ⟨.stays rfl rfl, hReceives⟩
  | wake =>
      dsimp only [step, wake]
      split
      · rename_i hIdle
        split
        · exact replicaHandleMasterData_moves srv hReceives hIdle
        · exact ⟨.stays rfl rfl, hReceives⟩
      · exact ⟨.stays rfl rfl, hReceives⟩
  | tick =>
      dsimp only [step, tick]
      split
      · exact ⟨.stays rfl rfl, hReceives⟩
      · exact ⟨.stays rfl rfl, hReceives⟩
      · rename_i hControl
        obtain ⟨hHandler, hSent, hNext⟩ := inputStep_frame s
        exact ⟨.stays (by unfold replClientState; rw [hHandler]) hSent, hNext hControl⟩
      · rename_i hControl
        exact parseStep_moves hControl
      · rename_i hControl
        exact receiveStep_moves srv _ (hReceives _ hControl)

/-- What a step can do to the handler: leave it, move the state, run the parser,
or load the snapshot, which is how the link gets ready. -/
inductive HandlerMoves (srv : ReplicaServer ρ) (s t : MasterLink ρ) : Prop where
  | stays (hHandler : t.handler = s.handler)
  | moves (state : ReplicaClientState) (hNot : state ≠ .ready)
      (hHandler : t.handler = (s.setReplClientState state).handler)
  | parses (r : Range) (begin : Int) (hHandler : t.handler =
      (parserStep (createHandler srv.cmds) r ⟨s.parser, s.handler, begin⟩).1.handler)
  | loads (file : Bytes) (hFile : t.tmpRdb = some file)
      (hHandler : t.handler = { s.handler with client := { s.handler.client with
        replClientState := .ready
        rest := srv.rdbLoadDataFromFile file s.handler.client.rest } })

theorem drain_handlerMoves (bytesRead : Int) {m : MasterLink ρ} (hSame : m.handler = s.handler) :
    HandlerMoves srv s (m.drain srv bytesRead) := by
  unfold drain
  split
  · exact .stays hSame
  · dsimp only
    split
    · exact .stays hSame
    · split
      · exact .stays hSame
      · split
        · exact .loads _ rfl (by rw [hSame])
        · exact .stays hSame

theorem receiveStep_handlerMoves (bytesRead : Option Int) :
    HandlerMoves srv s (s.receiveStep srv bytesRead) := by
  unfold receiveStep
  split
  · split
    · exact .stays rfl
    · dsimp only
      split
      · exact .stays rfl
      · split
        · exact .stays rfl
        · exact .stays rfl
        · exact .stays rfl
        · split
          · exact .stays rfl
          · split
            · exact .stays rfl
            · split
              · exact .stays rfl
              · exact drain_handlerMoves _ rfl
  · split
    · exact .stays rfl
    · exact drain_handlerMoves _ rfl

theorem parseStep_handlerMoves (r : Range) (begin : Int) (short : Bool) :
    HandlerMoves srv s (s.parseStep srv r begin short) := by
  refine .parses r begin ?_
  unfold parseStep
  dsimp only
  split
  · rfl
  · split
    · rfl
    · exact (consume_frame _ short _).1

theorem receiveHeader_handlerMoves : HandlerMoves srv s s.receiveHeader := by
  unfold receiveHeader
  split
  · exact .stays rfl
  · split
    · exact .stays rfl
    · split
      · exact .stays rfl
      · dsimp only
        split
        · exact .stays rfl
        · split
          · exact .stays rfl
          · exact .moves .receivingRdbData (by decide) rfl

theorem replicaHandleMasterData_handlerMoves :
    HandlerMoves srv s (s.replicaHandleMasterData srv) := by
  unfold replicaHandleMasterData
  split
  case h_1 => exact .moves .sentPing (by decide) rfl
  case h_6 => exact .moves .sentReplconfPort (by decide) rfl
  case h_7 => exact .moves .sentReplconfCapa (by decide) rfl
  case h_8 => exact .moves .sentPsync (by decide) rfl
  case h_9 => exact receiveHeader_handlerMoves
  all_goals exact .stays rfl

theorem step_handlerMoves (srv : ReplicaServer ρ) (s : MasterLink ρ) (e : MasterLinkEvent) :
    HandlerMoves srv s (s.step srv e).1 := by
  cases e with
  | deliver results => exact .stays rfl
  | wake =>
      dsimp only [step, wake]
      split
      · split
        · exact replicaHandleMasterData_handlerMoves
        · exact .stays rfl
      · exact .stays rfl
  | tick =>
      dsimp only [step, tick]
      split
      · exact .stays rfl
      · exact .stays rfl
      · exact .stays (inputStep_frame s).1
      · exact parseStep_handlerMoves _ _ _
      · exact receiveStep_handlerMoves _

/-- The commands that were sent are those that belong to the state. -/
structure InHandshake (srv : ReplicaServer ρ) (s : MasterLink ρ) : Prop where
  receives : s.ReceivesInState
  inOrder : s.sent <+: handshakeCommands srv.port
  sent : s.replClientState ≠ .error →
    s.sent = (handshakeCommands srv.port).take s.replClientState.sentCount

theorem inHandshake_connectMaster (srv : ReplicaServer ρ) (rb : RingBuffer) (rest : ρ) :
    InHandshake srv (connectMaster rb rest) :=
  ⟨fun _ h => (by cases h), List.nil_prefix, fun _ => rfl⟩

/-- An answer changes nothing about what has been sent. -/
theorem sentCount_of_accepts {state next : ReplicaClientState} {reply : Bytes}
    (h : state.Accepts reply) (hNext : state.successor = some next) :
    next.sentCount = state.sentCount := by
  cases state <;> cases hNext <;> first | rfl | exact False.elim h

/-- A state that is reached by sending counts one command more. -/
theorem sentCount_of_sends {state next : ReplicaClientState} {commands : List (List Bytes)}
    (hFour : commands.length = 4) (hNext : state.successor = some next)
    (hOther : ¬next.Received) (hCount : state.sentCount < commands.length) :
    next.sentCount = state.sentCount + 1 := by
  unfold Received at hOther
  rw [hFour] at hCount
  cases state <;> cases hNext <;> simp [sentCount] at hOther hCount ⊢

theorem InHandshake.step (h : InHandshake srv s) (e : MasterLinkEvent) :
    InHandshake srv (s.step srv e).1 := by
  obtain ⟨hMoves, hReceives⟩ := step_moves srv h.receives e
  generalize (s.step srv e).1 = t at hMoves hReceives
  have hNotError : ∀ {state next : ReplicaClientState}, state.successor = some next →
      state ≠ .error := by
    rintro state next hNext rfl
    cases hNext
  cases hMoves with
  | stays hState hSent =>
      refine ⟨hReceives, hSent ▸ h.inOrder, fun hOk => ?_⟩
      rw [hState] at hOk ⊢
      exact hSent.trans (h.sent hOk)
  | fails hState hSent => exact ⟨hReceives, hSent ▸ h.inOrder, fun hOk => absurd hState hOk⟩
  | sends command hState hCommand hNext hSent =>
      have hBefore := h.sent (hNotError hState)
      obtain ⟨hCount, hGet⟩ := List.getElem?_eq_some_iff.mp hCommand
      have hTake : t.sent = (handshakeCommands srv.port).take t.replClientState.sentCount := by
        rw [hSent, hBefore, sentCount_of_sends rfl hState hNext hCount, List.take_add_one, hCommand]
        rfl
      exact ⟨hReceives, hTake ▸ List.take_prefix .., fun _ => hTake⟩
  | answered hState hAnswer hSent =>
      obtain ⟨r, begin, short, before, -, -, ⟨-, hAccepts⟩, hSame⟩ := hAnswer
      rw [hSame] at hAccepts
      refine ⟨hReceives, hSent ▸ h.inOrder, fun _ => ?_⟩
      rw [hSent, sentCount_of_accepts hAccepts hState]
      exact h.sent (hNotError hState)
  | proceeds hState hFour hNext hSent =>
      refine ⟨hReceives, hSent ▸ h.inOrder, fun _ => ?_⟩
      have hLast : t.replClientState.sentCount = 4 := by
        revert hState hFour hNext
        generalize s.replClientState = state
        generalize t.replClientState = next
        intro hState hFour hNext
        cases state <;> cases hState <;> first | rfl | cases hFour
      rw [hSent, h.sent (hNotError hState), hFour, hLast]

/-- The state moves only as the loops are run. -/
theorem tick_of_completes {e : MasterLinkEvent} (h : s.Completes srv)
    (hMoved : (s.step srv e).1.replClientState ≠ s.replClientState) : e = .tick := by
  obtain ⟨r, begin, short, before, hControl, -⟩ := h
  cases e with
  | deliver results => exact absurd rfl hMoved
  | wake =>
      dsimp only [MasterLink.step, wake] at hMoved
      rw [hControl] at hMoved
      exact absurd rfl hMoved
  | tick => rfl

/-- A step from a state of the handshake: the state stays, moves on or fails,
and a state that is entered by an answer is entered by an accepted one. -/
theorem InHandshake.step_spec (h : InHandshake srv s) (e : MasterLinkEvent) :
    s.replClientState.Advances (s.step srv e).1.replClientState ∧
    ((s.step srv e).1.replClientState.Received →
      (s.step srv e).1.replClientState ≠ s.replClientState →
      e = .tick ∧ s.Completes srv ∧
        s.replClientState.successor = some (s.step srv e).1.replClientState) := by
  obtain ⟨hMoves, -⟩ := step_moves srv h.receives e
  cases hMoves with
  | stays hState hSent => exact ⟨Or.inl hState, fun _ hMoved => absurd hState hMoved⟩
  | fails hState hSent =>
      refine ⟨Or.inr (Or.inr hState), fun hReceived => ?_⟩
      rw [hState] at hReceived
      exact absurd hReceived (by decide)
  | sends command hState hCommand hNext hSent =>
      exact ⟨Or.inr (Or.inl hState), fun hReceived => absurd hReceived hNext⟩
  | answered hState hAnswer hSent =>
      exact ⟨Or.inr (Or.inl hState),
        fun _ hMoved => ⟨tick_of_completes hAnswer hMoved, hAnswer, hState⟩⟩
  | proceeds hState hFour hNext hSent =>
      exact ⟨Or.inr (Or.inl hState), fun hReceived => absurd hReceived hNext⟩

/-- Whatever the master sends and however the events fall: the state goes
through the handshake in order or fails for good, the commands are sent once
each and in order, and an answer counts only in the state that waits for it,
when its command and none after it has been sent. -/
theorem handshake_in_order (srv : ReplicaServer ρ) (rb : RingBuffer) (rest : ρ)
    (events : List MasterLinkEvent) :
    AllSteps (MasterLink.step srv) (fun s e =>
      s.replClientState.Advances (s.step srv e).1.replClientState ∧
      ((s.step srv e).1.replClientState.Received →
        (s.step srv e).1.replClientState ≠ s.replClientState →
        e = .tick ∧ s.Completes srv ∧
          s.replClientState.successor = some (s.step srv e).1.replClientState))
      (connectMaster rb rest) events ∧
    Throughout (MasterLink.step srv) (fun s =>
      s.sent <+: handshakeCommands srv.port ∧
      (s.replClientState ≠ .error →
        s.sent = (handshakeCommands srv.port).take s.replClientState.sentCount))
      (connectMaster rb rest) events := by
  have hStart := inHandshake_connectMaster srv rb rest
  constructor
  · exact allSteps_of_inv (I := InHandshake srv) (fun s e h => InHandshake.step h e)
      (fun s e h => h.step_spec e) hStart events
  · have hAlways : Throughout (MasterLink.step srv) (InHandshake srv) (connectMaster rb rest)
        events :=
      throughout_of_allSteps (fun s e h _ => InHandshake.step h e) hStart
        (allSteps_true _ events)
    exact hAlways.imp fun s h => ⟨h.inOrder, h.sent⟩

end MasterLink

end RedisServer
