import RedisServer.Protocol.ClientInput

/-! How a stream of commands is cut into reads. A bulk string keeps its
announced length when only a part of the payload has come, and then takes that
many bytes again; so the reads matter when one of them ends inside a payload
or between a payload and the end of its line. All other cuts, in headers and
between elements, are harmless. -/
namespace RedisServer

open Machine

/-- The read that ends at this offset of the stream goes through a payload
that is not empty, or through the line end behind it. -/
def CutsPayload (commands : List (List Bytes)) (offset : Nat) : Prop :=
  ∃ before done x xs after, commands = before ++ (done ++ x :: xs) :: after ∧ x ≠ [] ∧
    (encodeCommands before).length + (1 + (lengthText (done ++ x :: xs).length).length) +
        (done.flatMap encodeBulkString).length + (1 + (lengthText x.length).length) < offset ∧
    offset < (encodeCommands before).length + (1 + (lengthText (done ++ x :: xs).length).length) +
        (done.flatMap encodeBulkString).length + (1 + (lengthText x.length).length) + x.length + 2

namespace Stage

theorem pending_iterate (st : Stage) (k : Nat) :
    ∃ ran, st.pending = ran ++ (next^[k] st).pending := by
  induction k generalizing st with
  | zero => exact ⟨[], rfl⟩
  | succ k ih =>
      obtain ⟨ran, hRan⟩ := ih st.next
      refine ⟨st.executes ++ ran, ?_⟩
      rw [Function.iterate_succ_apply, st.pending_eq, hRan, List.append_assoc]

theorem rest_iterate (st : Stage) (k : Nat) :
    ∃ n ≤ st.rest.length, (next^[k] st).rest = st.rest.drop n := by
  induction k generalizing st with
  | zero => exact ⟨0, Nat.zero_le _, rfl⟩
  | succ k ih =>
      obtain ⟨n, hn, hRest⟩ := ih st.next
      have hNeed := st.need_le
      rw [← rest_drop_need, List.length_drop] at hn
      refine ⟨st.need + n, by omega, ?_⟩
      rw [Function.iterate_succ_apply, hRest, ← rest_drop_need, List.drop_drop]

/-- A cut of the stream that goes through no payload is clean in every stage. -/
theorem clean_of_not_cutsPayload {commands : List (List Bytes)} {late : Nat}
    (h : ¬CutsPayload commands ((encodeCommands commands).length - late)) (k : Nat) :
    (next^[k] (idle commands)).Clean ((next^[k] (idle commands)).rest.length - late) := by
  obtain ⟨ran, hPending⟩ := (idle commands).pending_iterate k
  generalize next^[k] (idle commands) = st at hPending
  cases st with
  | payload done x xs todo =>
      by_cases hNil : x = []
      · exact Or.inl hNil
      by_contra hCut
      simp only [Clean, not_or] at hCut
      have hWhole : commands = ran ++ (done ++ x :: xs) :: todo := hPending
      have hLength : (encodeCommands commands).length =
          (encodeCommands ran).length + (1 + (lengthText (done ++ x :: xs).length).length) +
            (done.flatMap encodeBulkString).length + (1 + (lengthText x.length).length) +
            (payload done x xs todo).rest.length := by
        rw [hWhole]
        simp only [rest, encodeCommands, encodeCommand, encodeBulkString, List.flatMap_append,
          List.flatMap_cons, List.length_append, List.length_cons, List.length_nil]
        omega
      have hRest : x.length + 2 ≤ (payload done x xs todo).rest.length :=
        (payload done x xs todo).need_le
      exact h ⟨ran, done, x, xs, todo, hWhole, hNil, by omega, by omega⟩
  | _ => trivial

/-- The first stage with no step is reached by one number of steps only. -/
theorem first_last_unique {st : Stage} {j k : Nat} (hj : (next^[j] st).Last)
    (hk : (next^[k] st).Last) (hBeforeJ : ∀ i < j, ¬(next^[i] st).Last)
    (hBeforeK : ∀ i < k, ¬(next^[i] st).Last) : j = k := by
  rcases Nat.lt_trichotomy j k with h | h | h
  · exact absurd hj (hBeforeK j h)
  · exact h
  · exact absurd hk (hBeforeJ k h)

end Stage

section Sessions

variable {ρ : Type} {cmds : Commands ρ} {commands : List (List Bytes)} {future : Bytes}
  {c : Connection ρ}

/-- Between two reads: the parser is in the stage that the queued bytes and the
`future` ones determine, `steps` steps from the start of the stream. -/
structure Between (commands : List (List Bytes)) (c : Connection ρ) (future : Bytes)
    (written steps : Nat) : Prop where
  queue : ∃ q, c.inputBuffer.Queues q written ∧
    (Stage.next^[steps] (.idle commands)).rest = q ++ future ∧
    (written = 0 ∨ (Stage.next^[steps] (.idle commands)).Last ∨
      q.length < (Stage.next^[steps] (.idle commands)).need)
  parser : c.parser = (Stage.next^[steps] (.idle commands)).parser
  holds : (Stage.next^[steps] (.idle commands)).Holds c.handler
  listening : ¬c.handler.client.AwaitingSnapshot
  ran : c.handler.invocations ++ (Stage.next^[steps] (.idle commands)).pending = commands
  before : ∀ j < steps, ¬(Stage.next^[j] (.idle commands)).Last

/-- What is left of the stream is what was not parsed. -/
theorem Stopped.rest_eq {r : Range} {st : Stage} {ch : CommandHandler ρ}
    {t : ParserRun (CommandHandler ρ)} {k : Nat} {ran : List (List Bytes)} {whole : Bytes}
    (h : Stopped cmds r future.length st ch t k ran) (hStop : r.stop = whole.length)
    (hRest : st.rest = whole ++ future) :
    (Stage.next^[k] st).rest = whole.drop t.begin.toNat ++ future := by
  obtain ⟨n, hn, hDrop⟩ := st.rest_iterate k
  have hLow := h.inStage.low
  have hHigh := h.inStage.high
  have hLength := h.inStage.length
  rw [hRest] at hDrop hn
  have hSame : n = t.begin.toNat := by
    rw [hDrop, List.length_drop] at hLength
    rw [List.length_append, ← hStop] at hLength hn
    omega
  rw [hDrop, hSame, List.drop_append_of_le_length (by omega)]

/-- The call on the bytes that were left and those that have come. -/
theorem Between.parse (cmds : Commands ρ) {r : Range} {available all : Bytes} {written steps : Nat}
    (h : Between commands c all written steps)
    (hRest : (Stage.next^[steps] (.idle commands)).rest = available ++ future)
    (hStop : r.stop = available.length) (hMem : r.mem.take r.stop = available)
    (hClean : ¬CutsPayload commands ((encodeCommands commands).length - future.length)) :
    ∃ t k ran, ParserParse (createHandler cmds) r c.parser c.handler t ∧
      Stopped cmds r future.length (Stage.next^[steps] (.idle commands)) c.handler t k ran := by
  have hStart : InStage r future.length
      (⟨c.parser, c.handler, 0⟩ : ParserRun (CommandHandler ρ))
      (Stage.next^[steps] (.idle commands)) := by
    refine ⟨h.parser, h.holds, h.listening, le_rfl, by dsimp only; omega, ?_, ?_⟩
    · rw [hRest, List.length_append, ← hStop]
      dsimp only
      omega
    · change (r.mem.drop 0).take (r.stop - 0) = List.take (r.stop - 0) _
      rw [List.drop_zero, Nat.sub_zero, hMem, hRest, List.take_left' hStop.symm]
  refine hStart.ends cmds (fun k => ?_)
  rw [← Function.iterate_add_apply]
  exact Stage.clean_of_not_cutsPayload hClean _

/-- One more read, which may end anywhere but in a payload. -/
theorem Between.receive (cmds : Commands ρ) {bytes : Bytes} {written steps : Nat}
    (h : Between commands c (bytes ++ future) written steps) (hne : bytes ≠ [])
    (hFit : bytes.length ≤ c.inputBuffer.writableLen.toNat)
    (hLength : written + (bytes.length + future.length) = (encodeCommands commands).length)
    (hTotal : (encodeCommands commands).length < 2 ^ 64)
    (hClean : ¬CutsPayload commands (written + bytes.length)) :
    ∃ filled r last next more ran, Receives cmds c bytes filled r last next ∧
      Between commands next future (written + bytes.length) more ∧
      Ran cmds c.handler next.handler ran ∧
      (Stage.next^[steps] (.idle commands)).rest =
        r.mem.take (toSize last.begin) ++ (Stage.next^[more] (.idle commands)).rest := by
  obtain ⟨q, hQueue, hRest, -⟩ := h.queue
  rw [← List.append_assoc] at hRest
  have hOffset : (encodeCommands commands).length - future.length = written + bytes.length := by
    omega
  obtain ⟨filled, r, t, ring, hReceives, hStop, ⟨hMem, k, ran, hStopped⟩, hLeft, -⟩ :=
    exists_receives cmds hQueue hne hFit (by omega)
      (P := fun r t => r.mem.take r.stop = q ++ bytes ∧ ∃ k ran,
        Stopped cmds r future.length (Stage.next^[steps] (.idle commands)) c.handler t k ran)
      (by
        intro r hStop hMem
        obtain ⟨t, k, ran, hParse, hStopped⟩ := h.parse cmds hRest hStop hMem (hOffset ▸ hClean)
        exact ⟨t, hParse, hStopped.inStage.low, hStopped.inStage.high, hMem, k, ran, hStopped⟩)
  have hTail := hStopped.rest_eq hStop hRest
  obtain ⟨hIn, hNone, hEnd, hSteps, hPending⟩ := hStopped
  rw [← Function.iterate_add_apply] at hIn hEnd hPending hTail
  refine ⟨filled, r, t, _, k + steps, ran, hReceives, ⟨⟨_, hLeft, hTail, ?_⟩, hIn.parser, hIn.holds,
    hIn.listening, ?_, ?_⟩, hSteps, ?_⟩
  · rw [List.length_drop, ← hStop]
    exact Or.inr hEnd
  · rw [hSteps.invocations, List.append_assoc, ← hPending]
    exact h.ran
  · intro j hj
    by_cases hFirst : j < steps
    · exact h.before j hFirst
    · have hLater := hNone (j - steps) (by omega)
      rw [← Function.iterate_add_apply, Nat.sub_add_cancel (by omega)] at hLater
      exact hLater
  · have hLow := hIn.low
    have hHigh := hIn.high
    have hSmall := hReceives.stop_lt
    rw [hTail, hRest, ← List.append_assoc, toSize_of_nonneg hLow (by omega), ← hMem,
      ← Nat.min_eq_left (show t.begin.toNat ≤ r.stop by omega), ← List.take_take,
      Nat.min_eq_left (show t.begin.toNat ≤ r.stop by omega), List.take_append_drop]

theorem Receives.unique {bytes : Bytes} {filled filled' : RingBuffer} {r r' : Range}
    {last last' : ParserRun (CommandHandler ρ)} {next next' : Connection ρ}
    (h : Receives cmds c bytes filled r last next)
    (h' : Receives cmds c bytes filled' r' last' next') :
    r = r' ∧ last = last' ∧ next = next' := by
  obtain rfl := h.fills.unique h'.fills
  obtain ⟨ptr, len, hReadable, hMem, hStop⟩ := h.shows
  obtain ⟨ptr', len', hReadable', hMem', hStop'⟩ := h'.shows
  rw [hReadable] at hReadable'
  cases hReadable'
  obtain ⟨mem, stop, fits⟩ := r
  obtain ⟨mem', stop', fits'⟩ := r'
  dsimp only at hMem hStop hMem' hStop'
  subst hMem hStop hMem' hStop'
  obtain rfl := Ends.unique h.parses h'.parses
  obtain ⟨code, hRead⟩ := h.consumes
  obtain ⟨code', hRead'⟩ := h'.consumes
  rw [hRead] at hRead'
  obtain ⟨ring, parser, handler⟩ := next
  obtain ⟨ring', parser', handler'⟩ := next'
  have hp := h.parser.trans h'.parser.symm
  have hh := h.handler.trans h'.handler.symm
  dsimp only at hp hh
  cases hRead'
  exact ⟨rfl, rfl, by rw [hp, hh]⟩

/-- The invariant of a session whose reads cut no payload. -/
theorem session_between {rb : RingBuffer} {client : Client ρ} {reads : List Bytes}
    (hRing : rb.Queues [] 0) (hClient : ¬client.AwaitingSnapshot)
    (hSession : Session cmds (connect rb client) reads c) {future : Bytes}
    (hStream : reads.flatten ++ future = encodeCommands commands)
    (hTotal : (encodeCommands commands).length < 2 ^ 64)
    (hClean : ∀ before after, reads = before ++ after →
      ¬CutsPayload commands before.flatten.length) :
    ∃ steps, Between commands c future reads.flatten.length steps := by
  induction hSession generalizing future with
  | nil =>
      refine ⟨0, ⟨[], hRing, ?_, Or.inl rfl⟩, rfl, rfl, hClient, rfl, ?_⟩
      · exact hStream.symm
      · exact fun j hj => absurd hj (Nat.not_lt_zero j)
  | @snoc middle next reads bytes filled r last _ hRead ih =>
      rw [List.flatten_append, List.flatten_singleton, List.append_assoc] at hStream
      obtain ⟨steps, hMiddle⟩ := ih hStream (fun before after hSplit =>
        hClean before (after ++ [bytes]) (by rw [hSplit, List.append_assoc]))
      have hLengths := congrArg List.length hStream
      simp only [List.length_append] at hLengths
      obtain ⟨hne, hFit⟩ := hRead.fills.fits
      have hHere := hClean (reads ++ [bytes]) [] (List.append_nil _).symm
      rw [List.flatten_append, List.flatten_singleton, List.length_append] at hHere ⊢
      obtain ⟨filled', r', last', next', more, -, hSame, hNext, -⟩ :=
        hMiddle.receive cmds hne hFit hLengths hTotal hHere
      obtain ⟨-, -, rfl⟩ := hRead.unique hSame
      exact ⟨more, hNext⟩

/-- A session over these reads makes the same calls of `handle_command`, with
the same arguments, as one call of the parser on the whole stream. -/
def DecodesAsWhole (cmds : Commands ρ) (rb : RingBuffer) (client : Client ρ)
    (commands : List (List Bytes)) (reads : List Bytes) : Prop :=
  ∀ c, Session cmds (connect rb client) reads c → ∀ r whole,
    r.mem.take r.stop = encodeCommands commands →
    ParserParse (createHandler cmds) r parserInit (createCommandHandler client 256 10) whole →
    c.handler.invocations = whole.handler.invocations

/-- Once the stream is complete the parser is in a stage with no step. -/
theorem Between.last {written steps : Nat} (h : Between commands c [] written steps)
    (hWritten : written = (encodeCommands commands).length) :
    (Stage.next^[steps] (.idle commands)).Last := by
  obtain ⟨q, -, hRest, hNone | hLast | hShort⟩ := h.queue
  · have hNil : commands = [] := by
      cases commands with
      | nil => rfl
      | cons xs todo =>
          simp only [encodeCommands, List.flatMap_cons, encodeCommand, List.length_append,
            List.length_cons] at hWritten
          omega
    subst hNil
    rw [Function.iterate_fixed rfl]
    rfl
  · exact hLast
  · have hNeed := (Stage.next^[steps] (.idle commands)).need_le
    rw [hRest, List.append_nil] at hNeed
    omega

/-- When no read ends in a payload, the reads do not matter: what is executed
is what one call would execute. The single call returns, and every read of the
stream that the ring has room for is processed. -/
theorem chunked_decodes_as_whole (cmds : Commands ρ) (client : Client ρ)
    (hClient : ¬client.AwaitingSnapshot) {pageSize : UInt64} {fd : Int} {mapped : Bool}
    {rb : RingBuffer} (hCreate : rbCreate pageSize 65536 fd mapped = some rb)
    (commands : List (List Bytes)) (reads : List Bytes)
    (hStream : reads.flatten = encodeCommands commands)
    (hTotal : (encodeCommands commands).length < 2 ^ 64)
    (hClean : ∀ before after, reads = before ++ after →
      ¬CutsPayload commands before.flatten.length) :
    DecodesAsWhole cmds rb client commands reads ∧
      (∀ r : Range, r.mem.take r.stop = encodeCommands commands →
        ∃ whole, ParserParse (createHandler cmds) r parserInit
          (createCommandHandler client 256 10) whole) ∧
      ∀ before bytes after c, reads = before ++ bytes :: after →
        Session cmds (connect rb client) before c → bytes ≠ [] →
        bytes.length ≤ c.inputBuffer.writableLen.toNat →
        ∃ filled r last next, Receives cmds c bytes filled r last next := by
  have hRing : rb.Queues [] 0 := RingBuffer.queues_create hCreate (by decide)
  refine ⟨?_, ?_, ?_⟩
  · intro c hSession r whole hBytes hWhole
    obtain ⟨steps, hEnd⟩ := session_between hRing hClient hSession
      ((List.append_nil _).trans hStream) hTotal hClean
    obtain ⟨same, k, ran, hSame, -, hBefore, hLast, hRan, hAll⟩ :=
      exists_whole cmds (createCommandHandler client 256 10) rfl hClient hBytes
    obtain rfl := Ends.unique hWhole hSame
    obtain rfl := Stage.first_last_unique (hEnd.last (by rw [hStream])) hLast hEnd.before hBefore
    exact (List.append_cancel_right (hEnd.ran.trans hAll.symm)).trans hRan.invocations.symm
  · intro r hBytes
    obtain ⟨whole, -, -, hWhole, -⟩ :=
      exists_whole cmds (createCommandHandler client 256 10) rfl hClient hBytes
    exact ⟨whole, hWhole⟩
  · intro before bytes after c hSplit hSession hne hFit
    subst hSplit
    rw [List.flatten_append, List.flatten_cons] at hStream
    have hLengths := congrArg List.length hStream
    simp only [List.length_append] at hLengths
    obtain ⟨steps, hMiddle⟩ := session_between hRing hClient hSession hStream hTotal
      (fun first second hFirst => hClean first (second ++ bytes :: after)
        (by rw [hFirst, List.append_assoc]))
    have hHere := hClean (before ++ [bytes]) after (by simp)
    rw [List.flatten_append, List.flatten_singleton, List.length_append] at hHere
    obtain ⟨filled, r, last, next, -, -, hRead, -⟩ :=
      hMiddle.receive cmds hne hFit hLengths hTotal hHere
    exact ⟨filled, r, last, next, hRead⟩

/-- A part of a payload is copied, but the state keeps the announced length. -/
theorem parserStep_short_payload (cmds : Commands ρ) {r : Range}
    {s : ParserRun (CommandHandler ρ)} {len avail : Nat} {lens : List Int}
    (hParser : s.parser = .within (bulkStringInfo len) lens)
    (hListening : ¬s.handler.client.AwaitingSnapshot) (hAvail : (r.stop : Int) - s.begin = avail)
    (hSome : 0 < avail) (hShort : avail < len + 2) (hLen : len < 2 ^ 31) :
    parserStep (createHandler cmds) r s =
      (⟨s.parser, CommandHandler.handle cmds (r.suffix s.begin) s.handler
        (.chars 0 (min len avail : Nat)), s.begin + (min len avail : Nat)⟩, false) := by
  have hOutput : toInt32 (min (len : Int) avail) = ((min len avail : Nat) : Int) := by
    rw [← Nat.cast_min]
    exact toInt32_of_small (by omega) (by omega)
  have hOutcome : s.outcome r = ⟨s.parser, [.chars 0 (min len avail : Nat)], false,
      (min len avail : Nat)⟩ := by
    rw [ParserRun.outcome, hAvail, hParser, Parser.parse_bulkString, if_neg (by omega),
      if_neg (by omega), hOutput, if_neg (by omega)]
  have hNot : (createHandler cmds).awaitingSnapshot s.handler = false := decide_eq_false hListening
  rw [parserStep_of_not_awaiting hNot, hOutcome]
  rfl

theorem CommandHandler.handle_chars_keeps (cmds : Commands ρ) (ch : CommandHandler ρ) (mem : Bytes)
    (first last : Int) :
    (handle cmds mem ch (.chars first last)).client = ch.client ∧
      (handle cmds mem ch (.chars first last)).invocations = ch.invocations := by
  unfold handle
  split
  · simp only [react, charsHandler]
    split <;> exact ⟨rfl, rfl⟩
  · exact ⟨rfl, rfl⟩

/-- One command, cut after the first byte of its payload. -/
def cutCommand : List (List Bytes) := [[ascii ['a', 'b', 'c']]]

def cutReads : List Bytes :=
  [ascii ['*', '1', '\r', '\n', '$', '3', '\r', '\n', 'a'], ascii ['b', 'c', '\r', '\n']]

/-- The first of these reads leaves the parser in the payload, with one byte of
it copied and nothing executed. -/
theorem cutReads_first (cmds : Commands ρ) {client : Client ρ}
    (hClient : ¬client.AwaitingSnapshot) {r : Range} (hStop : r.stop = 9)
    (hMem : r.mem.take r.stop = ascii ['*', '1', '\r', '\n', '$', '3', '\r', '\n', 'a']) :
    ∃ last, ParserParse (createHandler cmds) r parserInit (createCommandHandler client 256 10) last ∧
      last.begin = 9 ∧ last.parser = .within (bulkStringInfo 3) [0] ∧
      last.handler.client = client ∧ last.handler.invocations = [] := by
  have hStart : InStage r 4 ⟨parserInit, createCommandHandler client 256 10, 0⟩
      (.idle cutCommand) := by
    refine inStage_start rfl hClient (by rw [hStop]; decide) ?_
    rw [hMem, hStop]
    decide
  obtain ⟨s, ran, hVisits, hIn, hRan, hPending⟩ := hStart.visits cmds 5 (by
    intro j hj
    interval_cases j <;> decide)
  have hNone : ran = [] := List.append_left_eq_self.mp hPending.symm
  subst hNone
  have hUnread := hIn.unread_eq
  have hLow := hIn.low
  have hHigh := hIn.high
  have hAvail : (r.stop : Int) - s.begin = (1 : Nat) := by
    change unread r s = 1 at hUnread
    unfold unread at hUnread
    omega
  have hStep := parserStep_short_payload cmds hIn.parser hIn.listening hAvail
    (by decide) (by decide) (by decide)
  obtain ⟨hKeep, hNothing⟩ := CommandHandler.handle_chars_keeps cmds s.handler
    (r.suffix s.begin) 0 1
  refine ⟨_, ends_iff.mpr ⟨s, hVisits, hStep⟩, ?_, hIn.parser, ?_, ?_⟩
  · change s.begin + 1 = 9
    omega
  · exact hKeep.trans hRan.client
  · exact hNothing.trans hRan.invocations

/-- The second read should complete the command, but its bytes are counted
from the start of the payload again. -/
theorem cutReads_second (cmds : Commands ρ) {ch : CommandHandler ρ}
    (hClient : ¬ch.client.AwaitingSnapshot) {r : Range}
    (hStop : r.stop = 4) :
    ∃ last, ParserParse (createHandler cmds) r (.within (bulkStringInfo 3) [0]) ch last ∧
      last.begin = 3 ∧ last.handler.invocations = ch.invocations := by
  have hStep := parserStep_short_payload cmds (r := r)
    (s := ⟨.within (bulkStringInfo 3) [0], ch, 0⟩) rfl hClient
    (show (r.stop : Int) - 0 = (4 : Nat) by omega) (by decide) (by decide) (by decide)
  exact ⟨_, Ends.of_stop hStep, rfl, (CommandHandler.handle_chars_keeps cmds ch _ 0 3).2⟩

/-- So the two reads execute nothing. -/
theorem exists_cutReads_session {rb : RingBuffer} {client : Client ρ} (hRing : rb.Queues [] 0)
    (hSize : rb.size = 65536) (hClient : ¬client.AwaitingSnapshot) :
    ∃ c, Session cmds (connect rb client) cutReads c ∧ c.handler.invocations = [] := by
  have hRoom := hRing.writableLen
  have hBytes : rb.size.toNat = 65536 := by rw [hSize]; rfl
  rw [List.length_nil] at hRoom
  obtain ⟨filled, r, last, ring, hFirst, -, ⟨hBegin, hParser, hKeep, hNone⟩, hQueue, hSame⟩ :=
    exists_receives cmds (c := connect rb client) hRing
      (show ascii ['*', '1', '\r', '\n', '$', '3', '\r', '\n', 'a'] ≠ [] by decide)
      (show 9 ≤ rb.writableLen.toNat by omega) (by decide)
      (P := fun _ last => last.begin = 9 ∧ last.parser = .within (bulkStringInfo 3) [0] ∧
        last.handler.client = client ∧ last.handler.invocations = [])
      (by
        intro r hStop hMem
        obtain ⟨last, hParse, hBegin, hRest⟩ := cutReads_first cmds hClient hStop hMem
        have hNine : r.stop = 9 := hStop
        exact ⟨last, hParse, by omega, by omega, hBegin, hRest⟩)
  rw [hBegin] at hQueue
  have hRoomLeft := hQueue.writableLen
  have hBytesLeft : ring.size.toNat = 65536 := by rw [hSame]; exact hBytes
  change ring.writableLen.toNat + 0 = _ at hRoomLeft
  obtain ⟨filled', r', last', ring', hSecond, -, hNothing, -, -⟩ :=
    exists_receives cmds (c := ⟨ring, last.parser, last.handler⟩) hQueue
      (show ascii ['b', 'c', '\r', '\n'] ≠ [] by decide)
      (show 4 ≤ ring.writableLen.toNat by omega) (by decide)
      (P := fun _ last => last.handler.invocations = [])
      (by
        intro r hStop _
        have hFour : r.stop = 4 := hStop
        obtain ⟨last', hParse, hBegin, hSame⟩ := cutReads_second cmds
          (show ¬last.handler.client.AwaitingSnapshot by rw [hKeep]; exact hClient) hFour
        rw [hParser]
        exact ⟨last', hParse, by omega, by omega, hSame.trans hNone⟩)
  exact ⟨_, ((Session.nil _).snoc hFirst).snoc hSecond, hNothing⟩

/-- One call on the whole stream executes the command. -/
theorem cutReads_not_as_whole :
    ∃ rb, rbCreate 4096 65536 3 true = some rb ∧ cutReads.flatten = encodeCommands cutCommand ∧
      ¬DecodesAsWhole idleCommands rb idleClient cutCommand
        cutReads := by
  have hClient : ¬idleClient.AwaitingSnapshot := by decide
  refine ⟨_, RingBuffer.rbCreate_client, by decide, fun hSame => ?_⟩
  obtain ⟨c, hSession, hNone⟩ := exists_cutReads_session
    RingBuffer.queues_client rfl hClient
  obtain ⟨whole, k, ran, hWhole, hIn, -, hLast, hRan, hAll⟩ := exists_whole idleCommands
    (r := ⟨encodeCommands cutCommand, 13, by decide⟩) (createCommandHandler idleClient 256 10) rfl
    hClient
    (show (encodeCommands cutCommand).take 13 = encodeCommands cutCommand by decide)
  have hLow := hIn.low
  have hLength : _ = (13 : Int) - whole.begin + 0 := hIn.length
  have hNoneRan : [] = ran := by
    rw [← hNone, hSame c hSession _ _ (by decide) hWhole]
    exact hRan.invocations
  rw [← hNoneRan, Stage.eq_idle_of_last hLast (by omega)] at hAll
  exact absurd hAll (by decide)

theorem cutsPayload_cutCommand {offset : Nat} (h : CutsPayload cutCommand offset) :
    8 < offset ∧ offset < 13 := by
  obtain ⟨before, done, x, xs, after, hCommands, -, hLow, hHigh⟩ := h
  cases before with
  | cons _ before => simp [cutCommand] at hCommands
  | nil =>
      cases done with
      | cons _ done => simp [cutCommand] at hCommands
      | nil =>
          obtain ⟨⟨rfl, rfl⟩, rfl⟩ : (x = ascii ['a', 'b', 'c'] ∧ xs = []) ∧ after = [] := by
            simpa [cutCommand, eq_comm] using hCommands
          exact ⟨hLow, hHigh⟩

/-- A cut in the header of the payload is harmless. -/
theorem chunked_decodes_as_whole_header :
    ∃ rb, rbCreate 4096 65536 3 true = some rb ∧
      DecodesAsWhole idleCommands rb idleClient cutCommand
        [ascii ['*', '1', '\r', '\n', '$'], ascii ['3', '\r', '\n', 'a', 'b', 'c', '\r', '\n']] := by
  refine ⟨_, RingBuffer.rbCreate_client, (chunked_decodes_as_whole _ _ (by decide) RingBuffer.rbCreate_client _ _ (by decide) (by decide)
    ?_).1⟩
  intro before after hSplit hCuts
  obtain ⟨hLow, hHigh⟩ := cutsPayload_cutCommand hCuts
  rcases before with _ | ⟨first, _ | ⟨second, before⟩⟩
  · cases hLow
  · obtain ⟨rfl, -⟩ := List.cons.inj hSplit
    exact absurd hLow (by decide)
  · obtain ⟨rfl, hRest⟩ := List.cons.inj hSplit
    obtain ⟨rfl, -⟩ := List.cons.inj hRest
    rw [List.flatten_cons, List.flatten_cons, List.length_append, List.length_append] at hHigh
    simp [ascii] at hHigh
    omega

end Sessions

end RedisServer
