import RedisServer.Replication.ReplicaOffset

/-! What a replica learns from the answer to `PSYNC`. The master writes its id
and its offset into the line. The replica scans a constant instead of the line,
with its own id as the format, so nothing of the line gets into its fields. -/
namespace RedisServer

open Machine

/-- `add_fullresync_reply`, with its buffer of 80 bytes. -/
def fullresyncReply (masterReplid : Bytes) (masterReplOffset : Int) : Reply :=
  .simpleString (snprintf 80
    (text "FULLRESYNC " ++ cString masterReplid ++ text " " ++ intText masterReplOffset))

/-- The fields of `g_server_info` that the answer is about. -/
structure ReplicaInfo where
  masterReplid : Bytes
  masterReplOffset : Int
  deriving DecidableEq

/-- Whether `sscanf` gets to a percent sign of the format. Before it a blank
takes blanks, and every other byte must be the next one of the text. -/
def reachesConversion : Bytes → Bytes → Bool
  | [], _ => false
  | c :: format, str =>
      if c = 37 then true
      else if isSpace c then reachesConversion format (str.dropWhile isSpace)
      else
        match str with
        | [] => false
        | d :: str => if d = c then reachesConversion format str else false

/-- The call of `sscanf`. Its text is the format that was meant, its format is
the id, and the offset stands where an address is expected: a conversion in the
id has no defined effect, and without one nothing is stored. -/
def ReplicaInfo.scan (info : ReplicaInfo) : Option ReplicaInfo :=
  if reachesConversion (cString info.masterReplid) (text "FULLRESYNC %40s %lld") then none
  else some info

namespace CommandHandler

variable {ρ : Type}

/-- What `handle_simple_string_reply` does to the two fields. -/
def noteReply (ch : CommandHandler ρ) (info : ReplicaInfo) : Option ReplicaInfo :=
  if ch.client.type = .master ∧ ch.client.replClientState = .sentPsync ∧
      (cString ch.buf).take 9 = text "FULLRESYN" then
    info.scan
  else some info

/-- The callback that is the end of a simple string is the only one that gets to
the two fields. -/
def note (ch : CommandHandler ρ) (info : Option ReplicaInfo) : Callback → Option ReplicaInfo
  | .endSimpleString =>
      if ch.status = .running ∧ ch.bufUsed < ch.bufSize then
        info.bind (noteReply
          { ch with buf := ch.buf.take ch.bufUsed ++ 0 :: ch.buf.drop (ch.bufUsed + 1) })
      else info
  | _ => info

end CommandHandler

/-- The handler the server creates, with the two fields. -/
def createInfoHandler {ρ : Type} (cmds : Commands ρ) :
    Handler (CommandHandler ρ × Option ReplicaInfo) where
  handle mem state call := (state.1.handle cmds mem call, state.1.note state.2 call)
  awaitingSnapshot state := (createHandler cmds).awaitingSnapshot state.1

/-- The link with the two fields. They are `none` after something that has no
defined effect on them. -/
structure ResyncLink (ρ : Type) where
  link : MasterLink ρ
  info : Option ReplicaInfo

namespace ResyncLink

variable {ρ : Type}

/-- The fields after an iteration of the event loop. At the end of a read the
offset may be advanced. -/
def infoAfter (srv : ReplicaServer ρ) (s : ResyncLink ρ) : Option ReplicaInfo :=
  match s.link.control with
  | .parse r begin _ =>
      let info := (parserStep (createInfoHandler srv.cmds) r
        ⟨s.link.parser, (s.link.handler, s.info), begin⟩).1.handler.2
      match s.link.bytesParsed srv with
      | some n =>
          let client := (s.link.tick srv).handler.client
          info.map fun info => { info with
            masterReplOffset := advanceOffset .slave client.type client.shouldPropogateCommand n
              info.masterReplOffset }
      | none => info
  | _ => s.info

def serve (srv : ReplicaServer ρ) (s : ResyncLink ρ) : ResyncLink ρ × Bool :=
  (⟨(s.link.serve srv).1, s.infoAfter srv⟩, (s.link.serve srv).2)

/-- The answer to `PSYNC` has been handled, and the replica has this id and this
offset. -/
def Learns (srv : ReplicaServer ρ) (s : ResyncLink ρ) (id : Bytes) (offset : Int) : Prop :=
  ∃ t, Visits (serve srv) s t ∧ t.link.control = .idle ∧
    t.link.replClientState = .receivedFullresyncResponse ∧ t.info = some ⟨id, offset⟩

end ResyncLink

section Scan

variable {ρ : Type} {cmds : Commands ρ} {own : Int}

/-- The id starts with a digit, the scanned text does not. -/
theorem scan_masterReplid (own : Int) :
    (ReplicaInfo.mk masterReplid own).scan = some ⟨masterReplid, own⟩ := by
  have hNone : reachesConversion (cString masterReplid) (text "FULLRESYNC %40s %lld") = false := by
    decide
  rw [ReplicaInfo.scan, hNone]
  rfl

/-- No callback changes the fields. -/
theorem note_masterReplid (ch : CommandHandler ρ) (own : Int) (call : Callback) :
    ch.note (some ⟨masterReplid, own⟩) call = some ⟨masterReplid, own⟩ := by
  cases call with
  | endSimpleString =>
      simp only [CommandHandler.note, CommandHandler.noteReply, Option.bind_some,
        scan_masterReplid, ite_self]
  | _ => rfl

/-- Beside the fields, the handler is the one of the link. -/
theorem foldl_createInfoHandler (mem : Bytes) (ch : CommandHandler ρ) (own : Int)
    (calls : List Callback) :
    calls.foldl ((createInfoHandler cmds).handle mem) (ch, some ⟨masterReplid, own⟩) =
      (calls.foldl (CommandHandler.handle cmds mem) ch, some ⟨masterReplid, own⟩) := by
  induction calls generalizing ch with
  | nil => rfl
  | cons call calls ih =>
      rw [List.foldl_cons, List.foldl_cons, ← ih]
      simp only [createInfoHandler, note_masterReplid]

theorem parserStep_createInfoHandler (r : Range) (p : Parser) (ch : CommandHandler ρ) (own : Int)
    (begin : Int) :
    (parserStep (createInfoHandler cmds) r ⟨p, (ch, some ⟨masterReplid, own⟩), begin⟩).1.handler =
      ((parserStep (createHandler cmds) r ⟨p, ch, begin⟩).1.handler, some ⟨masterReplid, own⟩) := by
  have hPair : (createInfoHandler cmds).awaitingSnapshot (ch, some ⟨masterReplid, own⟩) =
      (createHandler cmds).awaitingSnapshot ch := rfl
  unfold parserStep
  dsimp only
  rw [hPair]
  split
  · rfl
  · exact foldl_createInfoHandler _ ch own _

end Scan

section Line

variable {id : Bytes} {offset : Int}

theorem natText_length_le {n k : Nat} (hSome : 0 < k) (h : n < 10 ^ k) :
    (natText n).length ≤ k := by
  unfold natText
  split
  · exact hSome
  · rw [List.length_map, List.length_reverse]
    exact (Nat.digits_length_le_iff (by decide) n).mpr h

/-- The id and the offset of a master: 40 characters without a blank, and a
number that is not negative. -/
structure Announced (id : Bytes) (offset : Int) : Prop where
  length : id.length = 40
  chars : ∀ c ∈ id, c ≠ 0 ∧ isSpace c = false
  range : 0 ≤ offset ∧ offset < 2 ^ 63

theorem Announced.offset_length (h : Announced id offset) : (intText offset).length ≤ 20 := by
  have hRange := h.range
  rw [intText, if_neg (by omega)]
  exact (natText_length_le (k := 19) (by decide) (by omega)).trans (by decide)

theorem Announced.replid (h : Announced id offset) : id.length ≤ 40 ∧ 13 ∉ id :=
  ⟨h.length.le, fun hMem => absurd (h.chars 13 hMem).2 (by decide)⟩

theorem Announced.line_length (h : Announced id offset) :
    (resyncLine id (intText offset)).length < 80 := by
  have hWord : (text "FULLRESYNC ").length = 11 := by decide
  have hLength := h.offset_length
  simp only [resyncLine, resyncText, List.length_append, List.length_cons, List.length_nil, hWord,
    h.length]
  omega

/-- The buffer holds the whole text, and the line is one that the replica takes
for the answer. -/
theorem Announced.encode_eq (h : Announced id offset) :
    (fullresyncReply id offset).encode = resyncLine id (intText offset) := by
  have hZero : (0 : UInt8) ∉ id := fun hMem => (h.chars 0 hMem).1 rfl
  have hOffset : (0 : UInt8) ∉ intText offset :=
    (cString_eq_self_iff _).mp (Reply.cString_intText offset)
  have hText : text "FULLRESYNC " ++ cString id ++ text " " ++ intText offset =
      resyncText id (intText offset) := by
    rw [cString_eq_self hZero, resyncText, List.append_assoc]
    rfl
  have hFits : (resyncText id (intText offset)).length ≤ 80 - 1 := by
    have hLine := h.line_length
    rw [resyncLine, List.length_append, List.length_cons] at hLine
    omega
  have hClean : (0 : UInt8) ∉ resyncText id (intText offset) := by
    unfold resyncText
    simp only [List.mem_append, List.mem_cons, not_or]
    exact ⟨⟨by decide, hZero⟩, by decide, hOffset⟩
  rw [fullresyncReply, Reply.encode, snprintf, hText, List.take_of_length_le hFits,
    cString_terminated, cString_eq_self hClean]
  rfl

theorem announced_masterReplid (h : 0 ≤ offset ∧ offset < 2 ^ 63) :
    Announced masterReplid offset :=
  ⟨by decide, by decide +kernel, h⟩

end Line

/-- The offset after `n` bytes that are counted if the flag says so. -/
def countBytes (flag : Bool) (n : Nat) (offset : Int) : Int :=
  if flag then toInt64 (offset + n) else offset

theorem countBytes_zero (flag : Bool) {offset : Int} (h : -2 ^ 63 ≤ offset ∧ offset < 2 ^ 63) :
    countBytes flag 0 offset = offset := by
  unfold countBytes
  split
  · rw [Nat.cast_zero, add_zero]
    exact toInt64_of_small h.1 h.2
  · rfl

theorem countBytes_countBytes (flag : Bool) (n k : Nat) (offset : Int) :
    countBytes flag k (countBytes flag n offset) = countBytes flag (n + k) offset := by
  unfold countBytes
  split
  · rw [toInt64, toInt64, Int.bmod_add_bmod, Nat.cast_add, add_assoc, toInt64]
  · rfl

namespace ResyncLink

variable {ρ : Type} {srv : ReplicaServer ρ} {flag : Bool} {s t : MasterLink ρ} {own : Int}

theorem continues_iff {s t : ResyncLink ρ} : Continues (serve srv) s t ↔
    Continues (MasterLink.serve srv) s.link t.link ∧ t.info = s.infoAfter srv := by
  obtain ⟨link, info⟩ := t
  simp only [Continues, serve, Prod.ext_iff, mk.injEq]
  constructor
  · rintro ⟨⟨hLink, hInfo⟩, hOn⟩
    exact ⟨⟨hLink, hOn⟩, hInfo.symm⟩
  · rintro ⟨⟨hLink, hOn⟩, hInfo⟩
    exact ⟨⟨hLink, hInfo.symm⟩, hOn⟩

/-- What an iteration does to the fields: the id stays, and the end of a read
advances the offset by the flag. -/
theorem infoAfter_eq (hNext : Continues (MasterLink.serve srv) s t) (own : Int) :
    infoAfter srv ⟨s, some ⟨masterReplid, own⟩⟩ = some ⟨masterReplid,
      match s.bytesParsed srv with
      | some n => countBytes t.handler.client.shouldPropogateCommand n own
      | none => own⟩ := by
  unfold infoAfter
  dsimp only
  cases hControl : s.control with
  | parse r begin short =>
      have hTick : s.tick srv = t := by
        rw [Continues, MasterLink.serve, hControl] at hNext
        exact (Prod.mk.inj hNext).1
      simp only [parserStep_createInfoHandler, hTick]
      cases s.bytesParsed srv with
      | none => rfl
      | some n =>
          simp only [Option.map_some, advanceOffset_eq]
          rfl
  | _ => simp only [MasterLink.bytesParsed, hControl]

/-- An iteration on the way to the end of the line: the id stays, and the offset
counts what the ring gives up. -/
theorem continues_takes (h : MasterLink.Takes srv flag s t)
    (hOwn : -2 ^ 63 ≤ own ∧ own < 2 ^ 63) :
    Continues (serve srv) ⟨s, some ⟨masterReplid, own⟩⟩
      ⟨t, some ⟨masterReplid, countBytes flag
        (t.inputBuffer.readIndex.toNat - s.inputBuffer.readIndex.toNat) own⟩⟩ := by
  refine continues_iff.mpr ⟨h.next, ?_⟩
  rw [infoAfter_eq h.next, h.taken, Nat.add_sub_cancel_left]
  cases hParsed : s.bytesParsed srv with
  | none => rw [Option.getD_none, countBytes_zero flag hOwn]
  | some n => rw [Option.getD_some, h.flag (by rw [hParsed]; exact Option.some_ne_none n)]

theorem countBytes_range (flag : Bool) (n : Nat) (hOwn : -2 ^ 63 ≤ own ∧ own < 2 ^ 63) :
    -2 ^ 63 ≤ countBytes flag n own ∧ countBytes flag n own < 2 ^ 63 := by
  unfold countBytes
  split
  · exact toInt64_range _
  · exact hOwn

/-- The way to the end of the line, with the fields. A state on it that is between
two events still waits for the answer. -/
theorem advances_spec (h : MasterLink.Advances srv flag s t)
    (hOwn : -2 ^ 63 ≤ own ∧ own < 2 ^ 63) :
    ∃ n, t.inputBuffer.readIndex.toNat = s.inputBuffer.readIndex.toNat + n ∧
      Visits (serve srv) ⟨s, some ⟨masterReplid, own⟩⟩
        ⟨t, some ⟨masterReplid, countBytes flag n own⟩⟩ ∧
      ∀ seen, Visits (serve srv) ⟨s, some ⟨masterReplid, own⟩⟩ seen →
        seen.link.control = .idle →
        seen.link.replClientState = .receivedFullresyncResponse →
        Visits (serve srv) ⟨t, some ⟨masterReplid, countBytes flag n own⟩⟩ seen := by
  induction h using Relation.ReflTransGen.head_induction_on generalizing own with
  | refl =>
      refine ⟨0, rfl, ?_⟩
      rw [countBytes_zero flag hOwn]
      exact ⟨.refl, fun seen hSeen _ _ => hSeen⟩
  | @head s m hStep _ ih =>
      have hTaken := hStep.taken
      have hNext := continues_takes hStep hOwn
      rw [hTaken, Nat.add_sub_cancel_left] at hNext
      obtain ⟨n, hLater, hVisits, hSeen⟩ := ih (countBytes_range flag _ hOwn)
      rw [countBytes_countBytes] at hVisits hSeen
      refine ⟨(s.bytesParsed srv).getD 0 + n, by omega, hVisits.head hNext,
        fun seen hVisit hIdle hState => ?_⟩
      rcases hVisit.of_continues hNext with rfl | hRest
      · rw [hStep.waits hIdle] at hState
        cases hState
      · exact hSeen seen hRest hIdle hState

/-- Behind the line there is nothing, and the link stays where it is. -/
theorem eq_of_visits_atHeader {written : Nat} (h : s.AtHeader [] written) {info : Option ReplicaInfo}
    {seen : ResyncLink ρ} (hSeen : Visits (serve srv) ⟨s, info⟩ seen) : seen = ⟨s, info⟩ := by
  refine hSeen.invariant (I := fun t => t = ⟨s, info⟩) (fun a b ha hNext => ?_) rfl
  subst ha
  obtain ⟨hLink, hInfo⟩ := continues_iff.mp hNext
  have hSame : b.link = s := h.stuck (n := 0) List.nil_prefix (by decide) hLink
  rw [infoAfter, h.control] at hInfo
  cases b
  subst hSame hInfo
  rfl

/-- The last of the reads that bring something. -/
theorem exists_last_read {results : List ReadResult} (h : contents results ≠ [])
    (hQuiet : ∀ result ∈ results, result.Quiet) :
    ∃ before c after, results = before ++ .bytes c :: after ∧ c ≠ [] ∧ contents after = [] := by
  induction results with
  | nil => exact absurd rfl h
  | cons result results ih =>
      by_cases hLater : contents results = []
      · cases result with
        | bytes c => exact ⟨[], c, results, rfl, hQuiet _ (List.mem_cons_self ..), hLater⟩
        | _ => exact absurd hLater h
      · obtain ⟨before, c, after, rfl, hSome, hAfter⟩ :=
          ih hLater fun other hOther => hQuiet other (List.mem_cons_of_mem _ hOther)
        exact ⟨result :: before, c, after, rfl, hSome, hAfter⟩

/-- The replica gets the answer in any pieces, and nothing else. -/
structure Answered (s : MasterLink ρ) (written : Nat) (own : Int) (id : Bytes) (offset : Int) :
    Prop where
  awaits : s.AwaitsResync written
  own : -2 ^ 63 ≤ own ∧ own < 2 ^ 63
  announced : Announced id offset
  quiet : ∀ result ∈ s.socket, result.Quiet
  line : contents s.socket = (fullresyncReply id offset).encode
  total : written + (contents s.socket).length < 2 ^ 64

variable {written : Nat} {id : Bytes} {offset : Int}

/-- The line is handled, and the fields are what they were, but for bytes that
are counted. -/
theorem Answered.visits (srv : ReplicaServer ρ) (h : Answered s written own id offset) :
    ∃ t, t.AtHeader [] (written + (contents s.socket).length) ∧
      Visits (serve srv) ⟨s, some ⟨masterReplid, own⟩⟩ ⟨t, some ⟨masterReplid,
        countBytes s.handler.client.shouldPropogateCommand (contents s.socket).length own⟩⟩ ∧
      ∀ seen, Visits (serve srv) ⟨s, some ⟨masterReplid, own⟩⟩ seen →
        seen.link.control = .idle →
        seen.link.replClientState = .receivedFullresyncResponse →
        seen = ⟨t, some ⟨masterReplid,
          countBytes s.handler.client.shouldPropogateCommand (contents s.socket).length own⟩⟩ := by
  have hLine := h.line
  rw [h.announced.encode_eq] at hLine
  obtain ⟨before, c, after, hSocket, hSome, hAfter⟩ :=
    exists_last_read (by rw [hLine]; exact List.cons_ne_nil _ _) h.quiet
  have hContents : contents s.socket = contents before ++ c := by
    rw [hSocket, contents, List.flatMap_append, List.flatMap_cons]
    change contents before ++ (c ++ contents after) = _
    rw [hAfter, List.append_nil]
  have hTotal := h.total
  have hShort := h.announced.line_length
  have hPositive := List.length_pos_iff.mpr hSome
  have hLengths := congrArg List.length (hContents.symm.trans hLine)
  rw [hContents] at hTotal
  rw [List.length_append] at hLengths
  have hOffset : (intText offset).length ≤ 20 ∧ 13 ∉ intText offset :=
    ⟨h.announced.offset_length, (oneLine_intText offset).1⟩
  have hQuiet : ∀ result ∈ before ++ [.bytes c], result.Quiet := by
    intro result hResult
    refine h.quiet result ?_
    rw [hSocket, List.append_cons]
    exact List.mem_append_left _ hResult
  obtain ⟨t, hReads, hAt, -⟩ := h.awaits.advances_atHeader srv h.announced.replid hOffset hSocket
    hQuiet (by omega) ((hContents.symm.trans hLine).trans (List.append_nil _).symm) (by omega) hTotal
  rw [← hContents] at hAt
  obtain ⟨n, hIndex, hVisits, hSeen⟩ := advances_spec hReads h.own
  have hStart := h.awaits.queue.readCursor
  have hEnd := hAt.queue.readCursor
  have hCount : n = (contents s.socket).length := by
    rw [List.length_nil] at hStart hEnd
    omega
  subst hCount
  exact ⟨t, hAt, hVisits, fun seen hVisit hIdle hState =>
    eq_of_visits_atHeader hAt (hSeen seen hVisit hIdle hState)⟩

/-- What the replica has when the answer has been handled: the id that is built
in, and its own offset, with the line counted if the last command on the link
was a write. -/
theorem fullresync_line_learned (srv : ReplicaServer ρ) (h : Answered s written own id offset) :
    Learns srv ⟨s, some ⟨masterReplid, own⟩⟩ id offset ↔
      id = masterReplid ∧ offset =
        if s.handler.client.shouldPropogateCommand then
          toInt64 (own + (contents s.socket).length)
        else own := by
  obtain ⟨t, hAt, hVisits, hOnly⟩ := h.visits srv
  constructor
  · rintro ⟨seen, hSeen, hIdle, hState, hInfo⟩
    rw [hOnly seen hSeen hIdle hState, Option.some.injEq, ReplicaInfo.mk.injEq] at hInfo
    exact ⟨hInfo.1.symm, hInfo.2.symm⟩
  · rintro ⟨rfl, hOffset⟩
    exact ⟨_, hVisits, hAt.control, hAt.state, by rw [hOffset]; rfl⟩

/-- A replica that has just started, and the line of a master with this offset. -/
def lineLink (offset : Int) : MasterLink Unit :=
  MasterLink.awaitingLink [.bytes (fullresyncReply masterReplid offset).encode]

theorem answered_lineLink (h : 0 ≤ offset ∧ offset < 2 ^ 63) :
    Answered (lineLink offset) 0 0 masterReplid offset where
  awaits := MasterLink.awaitsResync_awaitingLink _
  own := by decide
  announced := announced_masterReplid h
  quiet := by
    intro result hResult
    rcases List.mem_singleton.mp hResult with rfl
    exact List.cons_ne_nil _ _
  line := List.append_nil _
  total := by
    have hLength := (announced_masterReplid h).line_length
    change 0 + ((fullresyncReply masterReplid offset).encode ++ []).length < _
    rw [List.append_nil, (announced_masterReplid h).encode_eq]
    omega

/-- A new replica keeps its offset 0 when the master announces 5. -/
theorem fullresync_line_lost : Answered (lineLink 5) 0 0 masterReplid 5 ∧
    ¬Learns MasterLink.idleReplica ⟨lineLink 5, some ⟨masterReplid, 0⟩⟩ masterReplid 5 := by
  have hAnswered := answered_lineLink (show (0 : Int) ≤ 5 ∧ (5 : Int) < 2 ^ 63 by decide)
  refine ⟨hAnswered, ?_⟩
  rintro ⟨seen, hSeen, hIdle, hState, hInfo⟩
  obtain ⟨t, -, -, hOnly⟩ := hAnswered.visits MasterLink.idleReplica
  rw [hOnly seen hSeen hIdle hState, Option.some.injEq, ReplicaInfo.mk.injEq] at hInfo
  exact absurd hInfo.2 (by decide)

/-- A master that announces 0 finds that the new replica has it. -/
theorem fullresync_line_learned_zero :
    Learns MasterLink.idleReplica ⟨lineLink 0, some ⟨masterReplid, 0⟩⟩ masterReplid 0 :=
  (fullresync_line_learned MasterLink.idleReplica (answered_lineLink (by decide))).mpr ⟨rfl, rfl⟩

end ResyncLink

end RedisServer
