import RedisServer.Protocol.Gathering
import RedisServer.Protocol.ParserBounds
import RedisServer.Replication.Handshake

/-! The answer to `PSYNC` on the link to the master, read in any pieces. The
parser stores what has come of the line and leaves nothing in the ring but a
carriage return that waits for its line feed. When the line is complete it
stops, and the rest of the last read stays in the ring. -/
namespace RedisServer

open Machine

/-- The bytes that a result brings. -/
def ReadResult.content : ReadResult → Bytes
  | .bytes b => b
  | _ => []

def contents (results : List ReadResult) : Bytes := results.flatMap ReadResult.content

/-- Neither an error nor the end of the stream. -/
def ReadResult.Quiet : ReadResult → Prop
  | .bytes b => b ≠ []
  | .wouldBlock | .interrupted => True
  | .failed => False

/-- The event loop as this link sees it. The write event stays enabled from the
start, so the handler is called again whenever it has returned. -/
def MasterLink.serve {ρ : Type} (srv : ReplicaServer ρ) (s : MasterLink ρ) : MasterLink ρ × Bool :=
  match s.control with
  | .idle => (s.wake srv, true)
  | .stopped => (s, false)
  | _ => (s.tick srv, true)

section Loops

variable {ρ : Type} (srv : ReplicaServer ρ) {s : MasterLink ρ}

theorem CommandHandler.foldl_handle_stopped (cmds : Commands ρ) (mem : Bytes)
    {ch : CommandHandler ρ} (h : ch.status ≠ .running) (calls : List Callback) :
    calls.foldl (CommandHandler.handle cmds mem) ch = ch := by
  induction calls with
  | nil => rfl
  | cons call calls ih => rw [List.foldl_cons, CommandHandler.handle, if_neg h, ih]

theorem running_of_parserStep {cmds : Commands ρ} {r : Range} {a : ParserRun (CommandHandler ρ)}
    (h : (parserStep (createHandler cmds) r a).1.handler.status = .running) :
    a.handler.status = .running := by
  by_contra hNot
  unfold parserStep at h
  split at h
  · exact hNot h
  · change (List.foldl (CommandHandler.handle cmds (r.suffix a.begin)) a.handler
      (a.outcome r).calls).status = .running at h
    rw [CommandHandler.foldl_handle_stopped cmds _ hNot] at h
    exact hNot h

theorem running_of_ends {cmds : Commands ρ} {r : Range} {a b : ParserRun (CommandHandler ρ)}
    (h : Ends (parserStep (createHandler cmds) r) a b) (hRun : b.handler.status = .running) :
    a.handler.status = .running := by
  obtain ⟨m, hVisits, hLast⟩ := ends_iff.mp h
  have hm : m.handler.status = .running := running_of_parserStep (r := r) (by rw [hLast]; exact hRun)
  clear hLast h
  induction hVisits using Relation.ReflTransGen.head_induction_on with
  | refl => exact hm
  | head hNext _ ih =>
      rw [Continues] at hNext
      exact running_of_parserStep (r := r) (by rw [hNext]; exact ih)

namespace MasterLink

theorem continues_input (h : s.control = .input) : Continues (serve srv) s s.inputStep := by
  unfold Continues serve tick
  rw [h]

theorem continues_parse {r : Range} {begin : Int} {short : Bool}
    (h : s.control = .parse r begin short) : Continues (serve srv) s (s.tick srv) := by
  unfold Continues serve
  rw [h]

theorem continues_receive {bytesRead : Option Int} (h : s.control = .receive bytesRead) :
    Continues (serve srv) s (s.receiveStep srv bytesRead) := by
  unfold Continues serve tick
  rw [h]

theorem continues_wake (h : s.control = .idle) (hType : s.handler.client.type = .master) :
    Continues (serve srv) s (s.replicaHandleMasterData srv) := by
  unfold Continues serve wake
  rw [h]
  simp only [hType, ↓reduceIte]

/-- An iteration on the way to the end of the line. The ring gives up what the
parser takes, and at the end of a read the flag for writes is `flag`. -/
structure Takes (srv : ReplicaServer ρ) (flag : Bool) (s t : MasterLink ρ) : Prop where
  next : Continues (serve srv) s t
  waits : s.control = .idle → s.replClientState = .sentPsync
  taken : t.inputBuffer.readIndex.toNat =
    s.inputBuffer.readIndex.toNat + (s.bytesParsed srv).getD 0
  flag : s.bytesParsed srv ≠ none → t.handler.client.shouldPropogateCommand = flag

/-- Several of them. -/
def Advances (srv : ReplicaServer ρ) (flag : Bool) : MasterLink ρ → MasterLink ρ → Prop :=
  Relation.ReflTransGen (Takes srv flag)

variable {srv} {flag : Bool} {t : MasterLink ρ}

theorem Advances.visits (h : Advances srv flag s t) : Visits (serve srv) s t :=
  Relation.ReflTransGen.mono (fun _ _ (hStep : Takes srv flag _ _) => hStep.next) s t h

/-- An iteration at whose end no read ends. -/
theorem Takes.of_none (hNext : Continues (serve srv) s t)
    (hWaits : s.control = .idle → s.replClientState = .sentPsync)
    (hNone : s.bytesParsed srv = none)
    (hSame : t.inputBuffer.readIndex.toNat = s.inputBuffer.readIndex.toNat) :
    Takes srv flag s t := by
  refine ⟨hNext, hWaits, ?_, fun hSome => absurd hNone hSome⟩
  rw [hNone, hSame]
  rfl

/-- An iteration of the parser after which there is another one. -/
structure ParsesOn (srv : ReplicaServer ρ) (s t : MasterLink ρ) : Prop where
  parsing : ∃ r begin short, s.control = .parse r begin short
  more : s.bytesParsed srv = none
  next : s.tick srv = t
  ring : t.inputBuffer = s.inputBuffer

/-- The way of a parse that ends to its last iteration. -/
theorem exists_last_iteration {r : Range} {begin : Int} {short : Bool}
    {last : ParserRun (CommandHandler ρ)} (hControl : s.control = .parse r begin short)
    (hParse : Ends (parserStep (createHandler srv.cmds) r) ⟨s.parser, s.handler, begin⟩ last)
    (hRun : last.handler.status = .running) :
    ∃ m pos, Relation.ReflTransGen (ParsesOn srv) s m ∧ m.control = .parse r pos short ∧
      m.inputBuffer = s.inputBuffer ∧ m.bytesParsed srv = some (toSize last.begin) ∧
      m.tick srv =
        { s with parser := last.parser, handler := last.handler }.consume last.begin short := by
  obtain ⟨final, hVisits, hLast⟩ := ends_iff.mp hParse
  generalize hFirst : (⟨s.parser, s.handler, begin⟩ : ParserRun (CommandHandler ρ)) = first at *
  induction hVisits using Relation.ReflTransGen.head_induction_on generalizing s begin with
  | refl =>
      refine ⟨s, begin, .refl, hControl, rfl, ?_, ?_⟩
      · simp only [bytesParsed, hControl, hFirst, hLast, hRun, and_self, ↓reduceIte]
      · simp only [tick, parseStep, hControl, hFirst, hLast, hRun, ne_eq, not_true_eq_false,
          ↓reduceIte, Bool.false_eq_true]
  | @head a b hNext hRest ih =>
      have hEnds : Ends (parserStep (createHandler srv.cmds) r) b last :=
        ends_iff.mpr ⟨final, hRest, hLast⟩
      have hOn := running_of_ends hEnds hRun
      rw [Continues] at hNext
      have hMore : s.bytesParsed srv = none := by
        simp only [bytesParsed, hControl, hFirst, hNext, Bool.true_eq_false, and_false, ↓reduceIte]
      have hTick : s.tick srv = { s with
          parser := b.parser
          handler := b.handler
          control := .parse r b.begin short } := by
        simp only [tick, parseStep, hControl, hFirst, hNext, hOn, ne_eq, not_true_eq_false,
          ↓reduceIte]
      obtain ⟨m, pos, hPath, hPlace, hRing, hParsed, hDone⟩ := ih (s := { s with
        parser := b.parser
        handler := b.handler
        control := .parse r b.begin short }) rfl rfl hEnds
      exact ⟨m, pos, hPath.head ⟨⟨r, begin, short, hControl⟩, hMore, hTick, rfl⟩, hPlace, hRing,
        hParsed, hDone⟩

/-- A parse that ends is run to its end by the event loop. -/
theorem advances_consume {r : Range} {begin : Int} {short : Bool}
    {last : ParserRun (CommandHandler ρ)} (hControl : s.control = .parse r begin short)
    (hParse : Ends (parserStep (createHandler srv.cmds) r) ⟨s.parser, s.handler, begin⟩ last)
    (hRun : last.handler.status = .running)
    (hFlag : last.handler.client.shouldPropogateCommand = flag)
    (hTaken : ({ s with parser := last.parser, handler := last.handler }.consume last.begin
      short).inputBuffer.readIndex.toNat = s.inputBuffer.readIndex.toNat + toSize last.begin) :
    Advances srv flag s
      ({ s with parser := last.parser, handler := last.handler }.consume last.begin short) := by
  obtain ⟨m, pos, hPath, hPlace, hRing, hParsed, hDone⟩ :=
    exists_last_iteration hControl hParse hRun
  have hWaits : ∀ {t : MasterLink ρ}, (∃ r begin short, t.control = .parse r begin short) →
      t.control = .idle → t.replClientState = .sentPsync := by
    rintro t ⟨r, begin, short, hParsing⟩ hIdle
    rw [hParsing] at hIdle
    cases hIdle
  have hBefore : Advances srv flag s m := by
    refine Relation.ReflTransGen.mono (fun a b (hStep : ParsesOn srv a b) => ?_) s m hPath
    refine .of_none ?_ (hWaits hStep.parsing) hStep.more (by rw [hStep.ring])
    obtain ⟨r, begin, short, hParsing⟩ := hStep.parsing
    rw [← hStep.next]
    exact continues_parse srv hParsing
  refine hBefore.tail ⟨?_, hWaits ⟨r, pos, short, hPlace⟩, ?_, fun _ => ?_⟩
  · rw [← hDone]
    exact continues_parse srv hPlace
  · rw [hParsed, hTaken, hRing]
    rfl
  · rw [(consume_frame _ _ _).1]
    exact hFlag

end MasterLink

end Loops

section Line

variable {ρ : Type} (cmds : Commands ρ) {ch : CommandHandler ρ} {stored more rest : Bytes}
  {r : Range} {pos : Nat}

namespace CommandHandler

/-- This much of a simple string has been stored. -/
structure Storing (ch : CommandHandler ρ) (stored : Bytes) : Prop where
  running : ch.status = .running
  used : ch.bufUsed = stored.length
  holds : ch.buf.take ch.bufUsed = stored

theorem storing_begin (mem : Bytes) (hRun : ch.status = .running) :
    (ch.handle cmds mem .beginSimpleString).Storing [] := by
  rw [handle_of_running hRun]
  exact ⟨hRun, rfl, rfl⟩

theorem Storing.chars (h : ch.Storing stored) {mem : Bytes} (hMem : mem.take more.length = more)
    (hRoom : stored.length + more.length < ch.bufSize) (hLen : more.length < 2 ^ 63) :
    (ch.handle cmds mem (.chars 0 more.length)).Storing (stored ++ more) ∧
      (ch.handle cmds mem (.chars 0 more.length)).client = ch.client ∧
      (ch.handle cmds mem (.chars 0 more.length)).bufSize = ch.bufSize := by
  have hUsed := h.used
  have hSize : toSize ((more.length : Int) - 0) = more.length := by
    rw [Int.sub_zero]
    exact toSize_natCast (by omega)
  rw [handle_of_running h.running]
  simp only [react, charsHandler, hSize]
  rw [if_neg (by omega)]
  refine ⟨⟨h.running, ?_, ?_⟩, rfl, rfl⟩
  · rw [hUsed, List.length_append]
  · have hLength : (ch.buf.take ch.bufUsed ++ more).length = ch.bufUsed + more.length := by
      rw [h.holds, List.length_append, hUsed]
    rw [Int.toNat_zero, List.drop_zero, hMem, ← hLength, List.take_left, h.holds]

/-- The end of the answer to `PSYNC`. -/
theorem Storing.endSimpleString (h : ch.Storing stored) (mem : Bytes)
    (hRoom : stored.length < ch.bufSize) (hType : ch.client.type = .master)
    (hState : ch.client.replClientState = .sentPsync)
    (hText : stored.take 9 = text "FULLRESYN") :
    (ch.handle cmds mem .endSimpleString).status = .running ∧
      (ch.handle cmds mem .endSimpleString).client =
        { ch.client with replClientState := .receivedFullresyncResponse } := by
  have hReply : (cString stored).take 9 = text "FULLRESYN" := by
    have hZero : (0 : UInt8) ∉ stored.take 9 := by rw [hText]; decide
    have hSplit : stored = stored.take 9 ++ stored.drop 9 := (List.take_append_drop 9 stored).symm
    have hNine : (stored.take 9).length = 9 := by rw [hText]; decide
    have hAll : ∀ c ∈ stored.take 9, decide (c ≠ 0) = true :=
      fun c hc => decide_eq_true (fun h0 => hZero (h0 ▸ hc))
    rw [hSplit, cString, List.takeWhile_append_of_pos hAll, List.take_append_of_le_length
      (by rw [hNine]), List.take_of_length_le (by rw [hNine])]
    exact hText
  rw [handle_of_running h.running]
  simp only [react, endSimpleStringHandler]
  rw [if_pos (by rw [h.used]; exact hRoom)]
  simp only [handleSimpleStringReply, hType, hState, ↓reduceIte, h.holds, cString_terminated]
  rw [if_pos (show _ = ascii ['F', 'U', 'L', 'L', 'R', 'E', 'S', 'Y', 'N'] from hReply)]
  exact ⟨h.running, rfl⟩

end CommandHandler

/-- The state in which the parser reads a simple string. -/
def simpleParser : Parser := .within (simpleInfo .endSimpleString) []

theorem Range.suffix_natCast (r : Range) (pos : Nat) : r.suffix pos = r.mem.drop pos := by
  rw [Range.suffix, if_neg (by omega), Int.toNat_natCast]

theorem not_awaiting_of_sentPsync (hState : ch.client.replClientState = .sentPsync) :
    (createHandler cmds).awaitingSnapshot ch = false := by
  refine decide_eq_false fun h => ?_
  rw [h.2] at hState
  cases hState

/-- The bytes of the range from a position on. -/
def Range.At (r : Range) (pos : Nat) (bytes : Bytes) : Prop :=
  r.stop = pos + bytes.length ∧ (r.mem.drop pos).take bytes.length = bytes

/-- Some of the line, without its end. -/
theorem parserStep_part (h : ch.Storing stored) (hState : ch.client.replClientState = .sentPsync)
    (hAt : r.At pos (more ++ rest)) (hMore : 13 ∉ more) (hRest : rest = [] ∨ rest = [13])
    (hRoom : stored.length + more.length < ch.bufSize) (hLen : more.length < 2 ^ 63) :
    ∃ next, parserStep (createHandler cmds) r ⟨simpleParser, ch, pos⟩ =
        (⟨simpleParser, next, (pos + more.length : Nat)⟩, false) ∧
      next.Storing (stored ++ more) ∧ next.client = ch.client ∧ next.bufSize = ch.bufSize := by
  obtain ⟨hStop, hMem⟩ := hAt
  have hAvail : (r.stop : Int) - (pos : Nat) = ((more ++ rest).length : Nat) := by omega
  rw [parserStep_of_not_awaiting (not_awaiting_of_sentPsync cmds hState)]
  unfold ParserRun.outcome simpleParser
  dsimp only
  rw [r.suffix_natCast, hAvail, Parser.parse_simple]
  by_cases hEmpty : more ++ rest = []
  · obtain ⟨rfl, rfl⟩ := List.append_eq_nil_iff.mp hEmpty
    refine ⟨ch, ?_, ?_, rfl, rfl⟩
    · simp [Parser.wait]
    · rw [List.append_nil]
      exact h
  · have hScan := scanCr_eq (more ++ rest).length hMem hMore (by
      rcases hRest with rfl | rfl
      · exact Or.inl rfl
      · exact Or.inr rfl)
    have hPart : (r.mem.drop pos).take more.length = more := by
      have hShort := congrArg (List.take more.length) hMem
      rw [List.take_take, Nat.min_eq_left (by rw [List.length_append]; omega), List.take_left] at hShort
      exact hShort
    have hPositive := List.length_pos_iff.mpr hEmpty
    rw [if_neg (by omega), hScan, if_neg (by
      rintro ⟨hTwo, -⟩
      rw [List.length_append] at hTwo
      rcases hRest with rfl | rfl <;> simp at hTwo)]
    obtain ⟨hNext, hClient, hSize⟩ := h.chars cmds hPart hRoom hLen
    refine ⟨_, ?_, hNext, hClient, hSize⟩
    rw [Nat.cast_add]
    rfl

/-- The end of the line: the next iteration leaves the rest alone. -/
theorem ends_line (h : ch.Storing stored) (hType : ch.client.type = .master)
    (hState : ch.client.replClientState = .sentPsync)
    (hAt : r.At pos (more ++ 13 :: 10 :: rest)) (hMore : 13 ∉ more)
    (hRoom : stored.length + more.length < ch.bufSize) (hLen : more.length < 2 ^ 63)
    (hText : (stored ++ more).take 9 = text "FULLRESYN") :
    ∃ next, Ends (parserStep (createHandler cmds) r) ⟨simpleParser, ch, pos⟩
        ⟨parserInit, next, (pos + more.length + 2 : Nat)⟩ ∧
      next.status = .running ∧
      next.client = { ch.client with replClientState := .receivedFullresyncResponse } := by
  obtain ⟨hStop, hMem⟩ := hAt
  have hAvail : (r.stop : Int) - (pos : Nat) = ((more ++ 13 :: 10 :: rest).length : Nat) := by omega
  have hScan := scanCr_eq (more ++ 13 :: 10 :: rest).length hMem hMore (Or.inr rfl)
  have hShort := congrArg (List.take more.length) hMem
  rw [List.take_take, Nat.min_eq_left (by rw [List.length_append]; omega), List.take_left] at hShort
  have hFeed : byteAt (r.mem.drop pos) (more.length + 1) = 10 := by
    have hGet := congrArg (fun bytes => bytes[more.length + 1]?) hMem
    simp only [List.getElem?_take] at hGet
    rw [if_pos (by simp), List.getElem?_append_right (by omega)] at hGet
    rw [byteAt, List.getD_eq_getElem?_getD, hGet]
    simp
  obtain ⟨hStored, hClient, hSize⟩ := h.chars cmds hShort hRoom hLen
  obtain ⟨hRun, hAnswer⟩ := hStored.endSimpleString cmds (r.mem.drop pos)
    (by rw [hSize, List.length_append]; exact hRoom) (by rw [hClient]; exact hType)
    (by rw [hClient]; exact hState) hText
  rw [hClient] at hAnswer
  have hStep : Continues (parserStep (createHandler cmds) r) ⟨simpleParser, ch, pos⟩
      ⟨parserInit, CommandHandler.handle cmds (r.mem.drop pos) (CommandHandler.handle cmds
        (r.mem.drop pos) ch (.chars 0 more.length)) .endSimpleString,
        (pos + more.length + 2 : Nat)⟩ := by
    rw [Continues, parserStep_of_not_awaiting (not_awaiting_of_sentPsync cmds hState)]
    unfold ParserRun.outcome simpleParser
    dsimp only
    rw [r.suffix_natCast, hAvail, Parser.parse_simple, if_neg (by simp; omega), hScan,
      if_pos ⟨by rw [List.length_append, List.length_cons, List.length_cons]; omega, hFeed⟩]
    rw [show ((pos + more.length + 2 : Nat) : Int) = (pos : Int) + ((more.length : Int) + 2) by omega]
    rfl
  refine ⟨_, Ends.of_continues hStep (Ends.of_stop ?_), hRun, hAnswer⟩
  -- The answer has put the link into the state in which the parser stops.
  unfold parserStep
  rw [if_pos]
  refine decide_eq_true ⟨?_, ?_⟩
  · change (CommandHandler.handle _ _ _ _).client.type = _
    rw [hAnswer]
    exact hType
  · change (CommandHandler.handle _ _ _ _).client.replClientState = _
    rw [hAnswer]

theorem Range.At.append {first second : Bytes} (h : r.At pos (first ++ second)) :
    r.At (pos + first.length) second := by
  obtain ⟨hStop, hMem⟩ := h
  refine ⟨by rw [hStop, List.length_append]; omega, ?_⟩
  have hDrop := congrArg (List.drop first.length) hMem
  rw [List.drop_left, List.length_append, List.drop_take, Nat.add_sub_cancel_left,
    List.drop_drop] at hDrop
  exact hDrop

/-- The first byte of a simple string. -/
theorem continues_plus (hRun : ch.status = .running)
    (hState : ch.client.replClientState = .sentPsync) (hAt : r.At 0 (43 :: rest)) :
    ∃ next, Continues (parserStep (createHandler cmds) r) ⟨parserInit, ch, 0⟩
        ⟨simpleParser, next, (1 : Nat)⟩ ∧
      next.Storing [] ∧ next.client = ch.client ∧ next.bufSize = ch.bufSize := by
  obtain ⟨hStop, hMem⟩ := hAt
  have hFirst : byteAt (r.suffix 0) 0 = 43 := by
    have hGet := congrArg (fun bytes => bytes[0]?) hMem
    simp only [List.getElem?_take] at hGet
    rw [if_pos (by simp)] at hGet
    rw [show (0 : Int) = ((0 : Nat) : Int) from rfl, r.suffix_natCast, byteAt,
      List.getD_eq_getElem?_getD, hGet]
    rfl
  refine ⟨_, ?_, CommandHandler.storing_begin cmds (r.suffix 0) hRun, ?_, ?_⟩
  · rw [Continues, parserStep_of_not_awaiting (not_awaiting_of_sentPsync cmds hState)]
    unfold ParserRun.outcome
    dsimp only
    rw [show parserInit = Parser.resume [] from rfl, Parser.parse_terminal, if_neg (by
      rw [hStop, List.length_cons]; omega), hFirst]
    rfl
  · rw [CommandHandler.handle_of_running hRun]
    rfl
  · rw [CommandHandler.handle_of_running hRun]
    rfl

/-- What the parser has taken of the line: nothing yet, or its first byte and
the text that is stored. -/
structure Taking (p : Parser) (ch : CommandHandler ρ) (taken : Bytes) : Prop where
  running : ch.status = .running
  master : ch.client.type = .master
  state : ch.client.replClientState = .sentPsync
  room : 256 ≤ ch.bufSize
  clean : 13 ∉ taken
  place : taken = [] ∧ p = parserInit ∨
    ∃ stored, taken = 43 :: stored ∧ p = simpleParser ∧ ch.Storing stored

variable {p : Parser} {taken unread body : Bytes}

/-- A read that does not complete the line. -/
theorem Taking.part (h : Taking p ch taken) (hAt : r.At 0 unread) (hSome : unread ≠ [])
    (hText : taken ++ unread = 43 :: body ++ rest) (hRest : rest = [] ∨ rest = [13])
    (hBody : 13 ∉ body) (hLen : body.length < 256) :
    ∃ front last, unread = front ++ rest ∧ ParserParse (createHandler cmds) r p ch last ∧
      last.begin = front.length ∧ last.handler.client = ch.client ∧
      Taking last.parser last.handler (43 :: body) := by
  have hRoom := h.room
  have hClean : 13 ∉ 43 :: body := by simpa using hBody
  rcases h.place with ⟨rfl, rfl⟩ | ⟨stored, rfl, rfl, hStoring⟩
  · rw [List.nil_append] at hText
    subst hText
    obtain ⟨next, hFirst, hEmpty, hClient, hSize⟩ :=
      continues_plus cmds h.running h.state hAt
    have hNext : r.At 1 (body ++ rest) :=
      Range.At.append (show r.At 0 ([43] ++ (body ++ rest)) from hAt)
    obtain ⟨last, hStep, hStored, hKeep, hSame⟩ := parserStep_part cmds hEmpty
      (by rw [hClient]; exact h.state) hNext hBody hRest
      (by rw [hSize, List.length_nil]; omega) (by omega)
    refine ⟨43 :: body, _, rfl, Ends.of_continues hFirst (Ends.of_stop hStep), ?_,
      hKeep.trans hClient, hStored.running, ?_, ?_, ?_, hClean, Or.inr ⟨body, rfl, rfl, hStored⟩⟩
    · rw [List.length_cons, Nat.add_comm]
    · exact (congrArg Client.type (hKeep.trans hClient)).trans h.master
    · exact (congrArg Client.replClientState (hKeep.trans hClient)).trans h.state
    · rw [hSame, hSize]
      exact hRoom
  · have hSplit : ∃ more, body = stored ++ more ∧ unread = more ++ rest := by
      rw [List.cons_append, List.cons_append, List.cons.injEq] at hText
      rcases List.append_eq_append_iff.mp hText.2 with ⟨more, hMore, hUnread⟩ | ⟨extra, hExtra, hUnread⟩
      · exact ⟨more, hMore, hUnread⟩
      · -- The bytes in the ring are at most the carriage return, so nothing extra is stored.
        have hNone : extra = [] := by
          have hLengths := congrArg List.length hUnread
          have hPositive := List.length_pos_iff.mpr hSome
          rw [List.length_append] at hLengths
          rw [← List.length_eq_zero_iff]
          rcases hRest with rfl | rfl <;> simp at hLengths <;> omega
        subst hNone
        exact ⟨[], by rw [hExtra, List.append_nil, List.append_nil], hUnread.symm⟩
    obtain ⟨more, rfl, rfl⟩ := hSplit
    rw [List.mem_append, not_or] at hBody
    rw [List.length_append] at hLen
    obtain ⟨last, hStep, hStored, hKeep, hSame⟩ := parserStep_part cmds hStoring
      h.state hAt hBody.2 hRest (by omega) (by omega)
    refine ⟨more, _, rfl, Ends.of_stop hStep, ?_, hKeep, hStored.running, ?_, ?_, ?_, hClean,
      Or.inr ⟨_, rfl, rfl, hStored⟩⟩
    · rw [Nat.zero_add]
    · exact (congrArg Client.type hKeep).trans h.master
    · exact (congrArg Client.replClientState hKeep).trans h.state
    · rw [hSame]
      exact hRoom

/-- The read that completes the line. -/
theorem Taking.line (h : Taking p ch taken) (hAt : r.At 0 unread)
    (hText : taken ++ unread = 43 :: body ++ 13 :: 10 :: rest) (hBody : 13 ∉ body)
    (hLen : body.length < 256) (hAnswer : body.take 9 = text "FULLRESYN") :
    ∃ front next, unread = front ++ rest ∧
      ParserParse (createHandler cmds) r p ch ⟨parserInit, next, front.length⟩ ∧
      next.status = .running ∧
      next.client = { ch.client with replClientState := .receivedFullresyncResponse } := by
  have hRoom := h.room
  rcases h.place with ⟨rfl, rfl⟩ | ⟨stored, rfl, rfl, hStoring⟩
  · rw [List.nil_append] at hText
    subst hText
    obtain ⟨next, hFirst, hEmpty, hClient, hSize⟩ :=
      continues_plus cmds h.running h.state hAt
    have hNext : r.At 1 (body ++ 13 :: 10 :: rest) :=
      Range.At.append (show r.At 0 ([43] ++ (body ++ 13 :: 10 :: rest)) from hAt)
    obtain ⟨last, hEnds, hRun, hLast⟩ := ends_line cmds hEmpty
      (by rw [hClient]; exact h.master) (by rw [hClient]; exact h.state) hNext hBody
      (by rw [hSize, List.length_nil]; omega) (by omega) hAnswer
    refine ⟨43 :: body ++ [13, 10], last, by simp, ?_, hRun, by rw [hLast, hClient]⟩
    rw [show (43 :: body ++ [13, 10] : Bytes).length = 1 + body.length + 2 by simp; omega]
    exact Ends.of_continues hFirst hEnds
  · have hSplit : ∃ more, body = stored ++ more ∧ unread = more ++ 13 :: 10 :: rest := by
      rw [List.cons_append, List.cons_append, List.cons.injEq] at hText
      rcases List.append_eq_append_iff.mp hText.2 with ⟨more, hMore, hUnread⟩ | ⟨extra, hExtra, hUnread⟩
      · exact ⟨more, hMore, hUnread⟩
      · cases extra with
        | nil => exact ⟨[], by rw [hExtra, List.append_nil, List.append_nil], hUnread.symm⟩
        | cons c extra =>
            -- The next byte of the line is its carriage return, which is never stored.
            rw [List.cons_append, List.cons.injEq] at hUnread
            refine absurd ?_ h.clean
            rw [hExtra, ← hUnread.1]
            simp
    obtain ⟨more, rfl, rfl⟩ := hSplit
    rw [List.mem_append, not_or] at hBody
    rw [List.length_append] at hLen
    obtain ⟨last, hEnds, hRun, hLast⟩ := ends_line cmds hStoring h.master h.state hAt
      hBody.2 (by omega) (by omega) hAnswer
    refine ⟨more ++ [13, 10], last, by simp, ?_, hRun, hLast⟩
    rw [show (more ++ [13, 10] : Bytes).length = 0 + more.length + 2 by simp]
    exact hEnds

end Line

section Reads

variable {ρ : Type} (srv : ReplicaServer ρ) {s : MasterLink ρ} {queue b : Bytes}
  {rest : List ReadResult} {written : Nat}

theorem RingBuffer.Queues.readRange {rb : RingBuffer} (h : rb.Queues queue written) :
    ∃ r, rb.readRange = some r ∧ r.At 0 queue := by
  obtain ⟨r, hShows⟩ := h.exists_shows
  obtain ⟨hStop, hQueue⟩ := h.shows hShows
  obtain ⟨ptr, len, hReadable, hMem, hLen⟩ := hShows
  have hFits := r.fits
  rw [hMem, RingBuffer.load, window_length, hLen] at hFits
  refine ⟨r, ?_, by rw [hStop, Nat.zero_add], by rw [List.drop_zero, ← hStop]; exact hQueue⟩
  simp only [RingBuffer.readRange, hReadable, Option.bind_eq_bind, Option.bind_some, hFits,
    ↓reduceDIte]
  cases r
  subst hMem hLen
  rfl

namespace MasterLink

/-- A read that leaves room in the ring is taken whole. -/
theorem inputStep_bytes (hQueue : s.inputBuffer.Queues queue written)
    (hSize : s.inputBuffer.size = 65536) (hSocket : s.socket = .bytes b :: rest) (hSome : b ≠ [])
    (hRoom : b.length + queue.length < 65536) (hTotal : written + b.length < 2 ^ 64) :
    ∃ ring r, s.inputStep =
        { s with inputBuffer := ring, socket := rest, control := .parse r 0 true } ∧
      ring.Queues (queue ++ b) (written + b.length) ∧ ring.size = 65536 ∧ r.At 0 (queue ++ b) := by
  have hFree := hQueue.writableLen
  have hBytes : s.inputBuffer.size.toNat = 65536 := by rw [hSize]; rfl
  rw [hBytes] at hFree
  obtain ⟨ring, ⟨ptr, len, hWritable, hFit, hWrite⟩, hNext, hSame⟩ :=
    hQueue.stores (show b.length ≤ _ by omega) hTotal
  obtain ⟨r, hRange, hAt⟩ := hNext.readRange
  have hLen : len = s.inputBuffer.writableLen := by
    rw [hQueue.rbWritable] at hWritable
    cases hWritable
    rfl
  have hShort : b.length < len.toNat := by rw [hLen]; omega
  refine ⟨ring, r, ?_, hNext, hSame.trans hSize, hAt⟩
  unfold inputStep
  simp only [hWritable, hSocket, readSocket]
  rw [if_neg (by omega), List.take_of_length_le hFit]
  simp only [hFit, ↓reduceIte, hSome, hWrite, ne_eq, not_true_eq_false, hRange, hShort, decide_true]

theorem consume_short (hQueue : s.inputBuffer.Queues queue written) {n : Nat}
    (hn : n ≤ queue.length) :
    ∃ ring, s.consume n true = { s with inputBuffer := ring, control := .idle } ∧
      ring.Queues (queue.drop n) written ∧ ring.size = s.inputBuffer.size := by
  have hRoom := hQueue.writableLen
  have hSmall := s.inputBuffer.size.toNat_lt
  obtain ⟨ring, hRead, hNext, hSame⟩ := hQueue.rbRead hn
  refine ⟨ring, ?_, hNext, hSame⟩
  unfold consume
  rw [toSize_natCast (by omega), hRead]
  simp only [or_true, ↓reduceIte]

/-- The link reads the line. `got` is what has come of it. -/
structure InLine (s : MasterLink ρ) (got : Bytes) (written : Nat) : Prop where
  control : s.control = .input
  size : s.inputBuffer.size = 65536
  fresh : s.tmpRdb = none ∧ s.rdbWrittenBytes = 0
  place : ∃ taken pending, got = taken ++ pending ∧ (pending = [] ∨ pending = [13]) ∧
    Taking s.parser s.handler taken ∧ s.inputBuffer.Queues pending written

/-- The line has been answered, and this is left in the ring. -/
structure AtHeader (s : MasterLink ρ) (queue : Bytes) (written : Nat) : Prop where
  control : s.control = .idle
  master : s.handler.client.type = .master
  state : s.replClientState = .receivedFullresyncResponse
  size : s.inputBuffer.size = 65536
  fresh : s.tmpRdb = none ∧ s.rdbWrittenBytes = 0
  queue : s.inputBuffer.Queues queue written

variable {got body : Bytes}

/-- In this state an event makes the handler read. -/
theorem continues_sentPsync (hControl : s.control = .idle)
    (hMaster : s.handler.client.type = .master) (hState : s.replClientState = .sentPsync) :
    Continues (serve srv) s { s with control := .input } := by
  have hWake := continues_wake srv hControl hMaster
  rw [replicaHandleMasterData, hState] at hWake
  exact hWake

theorem takes_sentPsync (flag : Bool) (hControl : s.control = .idle)
    (hMaster : s.handler.client.type = .master) (hState : s.replClientState = .sentPsync) :
    Takes srv flag s { s with control := .input } :=
  .of_none (continues_sentPsync srv hControl hMaster hState) (fun _ => hState)
    (by rw [bytesParsed, hControl]) rfl

/-- The read of an iteration. -/
theorem takes_input {flag : Bool} {t : MasterLink ρ} (hControl : s.control = .input)
    (hInput : s.inputStep = t)
    (hSame : t.inputBuffer.readIndex.toNat = s.inputBuffer.readIndex.toNat) :
    Takes srv flag s t := by
  refine .of_none (hInput ▸ continues_input srv hControl) (fun hIdle => ?_)
    (by rw [bytesParsed, hControl]) hSame
  rw [hControl] at hIdle
  cases hIdle

/-- A read that goes through the parser leaves the ring without what was taken. -/
theorem advances_read {flag : Bool} {ring : RingBuffer} {r : Range} {front : Bytes} {queue' : Bytes}
    {last : ParserRun (CommandHandler ρ)} (hControl : s.control = .input)
    (hQueue : s.inputBuffer.Queues queue written)
    (hInput : s.inputStep = { s with
      inputBuffer := ring, socket := rest, control := .parse r 0 true })
    (hNext : ring.Queues (front ++ queue') (written + b.length))
    (hLength : (front ++ queue').length = queue.length + b.length)
    (hParse : ParserParse (createHandler srv.cmds) r s.parser s.handler last)
    (hBegin : last.begin = front.length) (hRun : last.handler.status = .running)
    (hFlag : last.handler.client.shouldPropogateCommand = flag) :
    ∃ left, Advances srv flag s { s with
        inputBuffer := left, socket := rest, control := .idle
        parser := last.parser, handler := last.handler } ∧
      left.Queues queue' (written + b.length) ∧ left.size = ring.size := by
  obtain ⟨left, hConsume, hLeft, hLeftSize⟩ := consume_short (s := { s with
    inputBuffer := ring, socket := rest, control := .parse r 0 true, parser := last.parser,
    handler := last.handler }) hNext (List.length_append ▸ Nat.le_add_right ..)
  rw [List.drop_left] at hLeft
  have hBefore := hQueue.readCursor
  have hMiddle := hNext.readCursor
  have hAfter := hLeft.readCursor
  have hSmall := hNext.length_le
  have hCount := hNext.cursor
  have hBound := ring.writeIndex.toNat_lt
  rw [List.length_append] at hLength hMiddle hSmall
  have hSize : toSize last.begin = front.length := by
    rw [hBegin]
    exact toSize_natCast (by omega)
  have hAdvances := advances_consume (s := { s with
    inputBuffer := ring, socket := rest, control := .parse r 0 true }) rfl hParse hRun hFlag (by
      rw [hSize, hBegin, hConsume]
      dsimp only
      omega)
  rw [hBegin, hConsume] at hAdvances
  refine ⟨left, hAdvances.head (takes_input srv hControl hInput ?_), hLeft, hLeftSize⟩
  dsimp only
  omega

/-- A read of some of the line. -/
theorem InLine.part (h : InLine s got written) (hSocket : s.socket = .bytes b :: rest)
    (hSome : b ≠ []) (hRoom : b.length < 65535) (hTotal : written + b.length < 2 ^ 64)
    {stored pending : Bytes} (hText : got ++ b = 43 :: stored ++ pending)
    (hPending : pending = [] ∨ pending = [13]) (hStored : 13 ∉ stored)
    (hLen : stored.length < 256) :
    ∃ t, Advances srv s.handler.client.shouldPropogateCommand s t ∧
      InLine t (got ++ b) (written + b.length) ∧ t.socket = rest ∧
      t.handler.client = s.handler.client := by
  obtain ⟨taken, before, rfl, hBefore, hTaking, hQueue⟩ := h.place
  have hOne : before.length ≤ 1 := by rcases hBefore with rfl | rfl <;> simp
  obtain ⟨ring, r, hInput, hNext, hSize, hAt⟩ :=
    inputStep_bytes hQueue h.size hSocket hSome (by omega) hTotal
  rw [List.append_assoc] at hText
  have hUnread : before ++ b ≠ [] := by simp [hSome]
  obtain ⟨front, last, hFront, hParse, hBegin, hClient, hTook⟩ :=
    hTaking.part srv.cmds hAt hUnread hText hPending hStored hLen
  rw [hFront] at hNext
  obtain ⟨left, hAdvances, hLeft, hLeftSize⟩ := advances_read srv h.control hQueue hInput hNext
    (by rw [← hFront, List.length_append]) hParse hBegin hTook.running
    (congrArg Client.shouldPropogateCommand hClient)
  have hWake := takes_sentPsync srv s.handler.client.shouldPropogateCommand (s := { s with
    inputBuffer := left, socket := rest, control := .idle, parser := last.parser,
    handler := last.handler }) rfl hTook.master hTook.state
  refine ⟨_, hAdvances.tail hWake, ⟨rfl, hLeftSize.trans hSize, h.fresh, ?_⟩, rfl, hClient⟩
  exact ⟨43 :: stored, pending, by rw [List.append_assoc, hText], hPending, hTook, hLeft⟩

/-- The read that brings the end of the line. -/
theorem InLine.line (h : InLine s got written) (hSocket : s.socket = .bytes b :: rest)
    (hSome : b ≠ []) (hRoom : b.length < 65535) (hTotal : written + b.length < 2 ^ 64)
    (hText : got ++ b = 43 :: body ++ 13 :: 10 :: queue) (hBody : 13 ∉ body)
    (hLen : body.length < 256) (hAnswer : body.take 9 = text "FULLRESYN") :
    ∃ t, Advances srv s.handler.client.shouldPropogateCommand s t ∧
      AtHeader t queue (written + b.length) ∧ t.socket = rest := by
  obtain ⟨taken, before, rfl, hBefore, hTaking, hQueue⟩ := h.place
  have hOne : before.length ≤ 1 := by rcases hBefore with rfl | rfl <;> simp
  obtain ⟨ring, r, hInput, hNext, hSize, hAt⟩ :=
    inputStep_bytes hQueue h.size hSocket hSome (by omega) hTotal
  rw [List.append_assoc] at hText
  obtain ⟨front, next, hFront, hParse, hRun, hClient⟩ :=
    hTaking.line srv.cmds hAt hText hBody hLen hAnswer
  rw [hFront] at hNext
  obtain ⟨left, hAdvances, hLeft, hLeftSize⟩ := advances_read srv h.control hQueue hInput hNext
    (by rw [← hFront, List.length_append]) hParse rfl hRun
    (congrArg Client.shouldPropogateCommand hClient)
  refine ⟨_, hAdvances, ⟨rfl, ?_, ?_, hLeftSize.trans hSize, h.fresh, hLeft⟩, rfl⟩
  · exact (congrArg Client.type hClient).trans hTaking.master
  · exact congrArg Client.replClientState hClient

/-- A part of a line: some of its text, and maybe the carriage return. -/
theorem exists_pending {line part : Bytes} (h : part <+: line ++ [13, 10])
    (hShort : part.length < (line ++ [13, 10]).length) :
    ∃ pending, part = line.take part.length ++ pending ∧ (pending = [] ∨ pending = [13]) := by
  refine ⟨([13, 10] : Bytes).take (part.length - line.length), ?_, ?_⟩
  · rw [← List.take_append]
    exact List.prefix_iff_eq_take.mp h
  · simp only [List.length_append, List.length_cons, List.length_nil] at hShort
    have hCases : part.length - line.length = 0 ∨ part.length - line.length = 1 := by omega
    rcases hCases with hZero | hOne
    · exact Or.inl (by rw [hZero]; rfl)
    · exact Or.inr (by rw [hOne]; rfl)

/-- A part of the line that is not empty starts with its first byte. -/
theorem exists_part {part : Bytes} (h : part <+: 43 :: body ++ [13, 10]) (hSome : part ≠ [])
    (hShort : part.length < (43 :: body ++ [13, 10]).length) :
    ∃ stored pending, part = 43 :: stored ++ pending ∧ (pending = [] ∨ pending = [13]) ∧
      stored <+: body := by
  obtain ⟨pending, hPart, hPending⟩ := exists_pending h hShort
  obtain ⟨k, hk⟩ := Nat.exists_eq_succ_of_ne_zero (List.length_pos_iff.mpr hSome).ne'
  rw [hk, List.take_succ_cons] at hPart
  exact ⟨body.take k, pending, hPart, hPending, List.take_prefix ..⟩

/-- Reads that bring some of the line, with whatever comes between them. -/
theorem InLine.advances (hLen : body.length < 256) (hBody : 13 ∉ body) {before : List ReadResult}
    (h : InLine s got written) (hSocket : s.socket = before ++ rest)
    (hQuiet : ∀ result ∈ before, result.Quiet)
    (hText : got ++ contents before <+: 43 :: body ++ [13, 10])
    (hShort : (got ++ contents before).length < (43 :: body ++ [13, 10]).length)
    (hTotal : written + (contents before).length < 2 ^ 64) :
    ∃ t, Advances srv s.handler.client.shouldPropogateCommand s t ∧
      InLine t (got ++ contents before) (written + (contents before).length) ∧ t.socket = rest ∧
      t.handler.client = s.handler.client := by
  induction before generalizing s got written with
  | nil =>
      refine ⟨s, .refl, ?_, hSocket, rfl⟩
      rw [contents, List.flatMap_nil, List.append_nil]
      exact h
  | cons result before ih =>
      have hOthers : ∀ other ∈ before, other.Quiet :=
        fun other hOther => hQuiet other (List.mem_cons_of_mem _ hOther)
      obtain ⟨taken, pending, hGot, hPending, hTaking, hQueue⟩ := h.place
      have hFree := hQueue.writableLen
      have hBytes : s.inputBuffer.size.toNat = 65536 := by rw [h.size]; rfl
      have hOne : pending.length ≤ 1 := by rcases hPending with rfl | rfl <;> simp
      cases result with
      | bytes b =>
          have hSome : b ≠ [] := hQuiet (.bytes b) (List.mem_cons_self ..)
          have hContents : contents (.bytes b :: before) = b ++ contents before := rfl
          rw [hContents, ← List.append_assoc] at hText hShort
          rw [hContents, List.length_append] at hTotal
          rw [List.length_append] at hShort
          have hLine : (43 :: body ++ [13, 10]).length = body.length + 3 := by simp
          obtain ⟨stored, more, hPart, hMore, hStored⟩ :=
            exists_part ((List.prefix_append ..).trans hText) (by simp [hSome]) (by omega)
          have hGot := congrArg List.length hPart
          obtain ⟨t, hReads, hNext, hLeft, hClient⟩ := h.part srv hSocket hSome (by
              rw [List.length_append] at hShort
              omega) (by omega) hPart hMore (fun h13 => hBody (hStored.subset h13))
            (Nat.lt_of_le_of_lt hStored.length_le hLen)
          obtain ⟨u, hReads', hLast, hDone, hClient'⟩ := ih hNext hLeft hOthers hText
            (by rw [List.length_append]; exact hShort) (by omega)
          rw [hClient] at hReads'
          refine ⟨u, hReads.trans hReads', ?_, hDone, hClient'.trans hClient⟩
          rw [hContents, ← List.append_assoc, List.length_append, ← Nat.add_assoc]
          exact hLast
      | wouldBlock =>
          have hInput : s.inputStep = { s with socket := before ++ rest, control := .idle } := by
            unfold inputStep
            simp only [hQueue.rbWritable, hSocket, List.cons_append, readSocket]
            rw [if_neg (by omega)]
          have hWake := takes_sentPsync srv s.handler.client.shouldPropogateCommand (s := { s with
            socket := before ++ rest, control := .idle }) rfl hTaking.master hTaking.state
          obtain ⟨u, hReads, hLast, hDone, hClient⟩ := ih (s := { s with
            socket := before ++ rest, control := .input })
            ⟨rfl, h.size, h.fresh, taken, pending, hGot, hPending, hTaking, hQueue⟩ rfl hOthers
            hText hShort hTotal
          exact ⟨u, (hReads.head hWake).head (takes_input srv h.control hInput rfl), hLast, hDone,
            hClient⟩
      | interrupted =>
          have hInput : s.inputStep = { s with socket := before ++ rest } := by
            unfold inputStep
            simp only [hQueue.rbWritable, hSocket, List.cons_append, readSocket]
            rw [if_neg (by omega)]
          obtain ⟨u, hReads, hLast, hDone, hClient⟩ := ih (s := { s with socket := before ++ rest })
            ⟨h.control, h.size, h.fresh, taken, pending, hGot, hPending, hTaking, hQueue⟩ rfl
            hOthers hText hShort hTotal
          exact ⟨u, hReads.head (takes_input srv h.control hInput rfl), hLast, hDone, hClient⟩
      | failed => exact (hQuiet .failed (List.mem_cons_self ..)).elim

end MasterLink

end Reads

end RedisServer
