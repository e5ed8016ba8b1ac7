import RedisServer.Protocol.ClientInput
import Mathlib.Data.List.GetD

/-! The length headers of arrays and bulk strings. `strtol` is not told where the
range ends and may run on into bytes of older commands. A header is accepted
only if its number and its line end are in the range, and then what lies behind
the range had no part in it. A header that is not accepted is read again. -/
namespace RedisServer

open Machine

namespace Parser

section Header

variable {range : Bytes}

theorem byteAt_append (rest : Bytes) {i : Nat} (h : i < range.length) :
    byteAt (range ++ rest) i = byteAt range i :=
  List.getD_append _ _ _ _ h

/-- A header that is ready with something behind the range is ready without it. -/
theorem HeaderReady.of_append {stale : Bytes}
    (h : HeaderReady (range ++ stale) range.length) :
    HeaderReady range range.length ∧ strtol (range ++ stale) = strtol range := by
  obtain ⟨hSome, hRoom, hRange, hCr, hLf, hLow, hHigh⟩ := h
  have hNumber : strtol (range ++ stale) = strtol range := strtol_of_append hSome (by omega)
  rw [hNumber] at hSome hRoom hRange hCr hLf hLow hHigh
  rw [byteAt_append _ (by omega)] at hCr hLf
  exact ⟨⟨hSome, hRoom, hRange, hCr, hLf, hLow, hHigh⟩, hNumber⟩

/-- It is ready in every longer piece of memory and with every later end. -/
theorem HeaderReady.append (rest : Bytes) {avail : Int} (h : HeaderReady range range.length)
    (hAvail : range.length ≤ avail) :
    HeaderReady (range ++ rest) avail ∧ strtol (range ++ rest) = strtol range := by
  obtain ⟨hSome, hRoom, hRange, hCr, hLf, hLow, hHigh⟩ := h
  have hNumber : strtol (range ++ rest) = strtol range := strtol_append rest hSome (by omega)
  refine ⟨?_, hNumber⟩
  unfold HeaderReady
  rw [hNumber, byteAt_append rest (by omega), byteAt_append rest (by omega)]
  exact ⟨hSome, by omega, hRange, hCr, hLf, hLow, hHigh⟩

theorem headerReady_append_iff (range stale : Bytes) :
    HeaderReady (range ++ stale) range.length ↔ HeaderReady range range.length :=
  ⟨fun h => h.of_append.1, fun h => (h.append stale le_rfl).1⟩

end Header

section Results

variable (p : Parser) (range : Bytes)

/-- What lies behind the range has no part in the result. -/
theorem parseLength_append (stale : Bytes) :
    p.parseLength (range ++ stale) range.length = p.parseLength range range.length := by
  rw [parseLength_eq, parseLength_eq]
  by_cases h : HeaderReady range range.length
  · rw [(h.append stale le_rfl).2]
    simp only [headerReady_append_iff]
  · simp only [headerReady_append_iff, h, and_false, ↓reduceIte]

variable {p range}

/-- The header is ready when it is accepted. -/
theorem headerReady_of_parseLength {begin : Bytes} {avail : Int}
    (h : (p.parseLength begin avail).keepGoing = true) : HeaderReady begin avail := by
  rw [parseLength_eq] at h
  split at h
  · rename_i hReady
    exact hReady.2
  · cases h

/-- Where it is not accepted, nothing has happened. -/
theorem parseLength_of_refused {begin : Bytes} {avail : Int}
    (h : (p.parseLength begin avail).keepGoing = false) : p.parseLength begin avail = p.wait := by
  rw [parseLength_eq] at h ⊢
  split_ifs at h ⊢
  · rfl
  · rfl

/-- An accepted header is accepted with the same result when there is more. -/
theorem parseLength_extend (more : Bytes)
    (h : (p.parseLength range range.length).keepGoing = true) :
    p.parseLength (range ++ more) (range ++ more).length = p.parseLength range range.length := by
  have hReady := headerReady_of_parseLength h
  have hRoom := hReady.2.1
  have hLonger : (range.length : Int) ≤ ((range ++ more).length : Nat) := by
    rw [List.length_append]
    omega
  obtain ⟨hMore, hNumber⟩ := hReady.append more hLonger
  have hShort : (range.length : Int) ≠ 0 ∧ HeaderReady range range.length := ⟨by omega, hReady⟩
  have hLong : ((range ++ more).length : Int) ≠ 0 ∧
      HeaderReady (range ++ more) (range ++ more).length := ⟨by omega, hMore⟩
  rw [parseLength_eq, parseLength_eq, if_pos hShort, if_pos hLong, hNumber]

end Results

end Parser

section Retry

variable {ρ : Type} {cmds : Commands ρ} {c next : Connection ρ} {q first more : Bytes}
  {written : Nat}

/-- The connection waits for a length header, and what has come of it with this
read is not accepted. -/
structure Refuses (c : Connection ρ) (q first : Bytes) (written : Nat) : Prop where
  parser : c.parser.top.parse = .length
  queue : c.inputBuffer.Queues q written
  refused : (c.parser.parseLength (q ++ first) (q ++ first).length).keepGoing = false

/-- The parser returns at once and has taken nothing. -/
theorem Refuses.parses (h : Refuses c q first written) {r : Range}
    (hStop : r.stop = (q ++ first).length) (hMem : r.mem.take r.stop = q ++ first) :
    ParserParse (createHandler cmds) r c.parser c.handler ⟨c.parser, c.handler, 0⟩ := by
  have hSplit : r.mem = (q ++ first) ++ r.mem.drop r.stop := by
    rw [← hMem, List.take_append_drop]
  have hOutcome : ParserRun.outcome r (⟨c.parser, c.handler, 0⟩ : ParserRun (CommandHandler ρ)) =
      c.parser.wait := by
    change c.parser.parse (r.mem.drop 0) (r.stop - 0) = _
    rw [Parser.parse_length _ _ _ h.parser, List.drop_zero, hSplit, Int.sub_zero, hStop,
      Parser.parseLength_append]
    exact Parser.parseLength_of_refused h.refused
  apply Ends.of_stop
  cases hAwait : (createHandler cmds).awaitingSnapshot c.handler with
  | true => rw [parserStep, if_pos hAwait]
  | false =>
      rw [parserStep_of_not_awaiting hAwait, hOutcome]
      rfl

theorem rbRead_zero {rb : RingBuffer} (h : rb.Queues q written) :
    rbRead rb (UInt64.ofNat (toSize 0)) = some (rb, 0) := by
  obtain ⟨f, hf, -, -⟩ := h
  have hState := hf.assertState
  have hZero : UInt64.ofNat (toSize 0) = 0 := rfl
  have hAll : ¬(0 : UInt64) > rb.readableLen := by
    rw [gt_iff_lt, UInt64.lt_iff_toNat_lt]
    exact Nat.not_lt_zero _
  rw [hZero, rbRead, if_neg (not_not.mpr hState), if_neg hAll]
  simp only [UInt64.add_zero]
  rw [if_pos hState]

/-- A read that does not complete the header only fills the ring. -/
theorem Refuses.receives_iff (h : Refuses c q first written) :
    (∃ filled r last, Receives cmds c first filled r last next) ↔
      ∃ filled, c.inputBuffer.FillsTo first filled ∧ next = ⟨filled, c.parser, c.handler⟩ := by
  constructor
  · rintro ⟨filled, r, last, hRead⟩
    obtain ⟨-, hQueue, -⟩ := h.queue.of_fillsTo hRead.fills
    obtain ⟨hStop, hMem⟩ := hQueue.shows hRead.shows
    obtain rfl := Ends.unique hRead.parses (h.parses hStop hMem)
    obtain ⟨code, hTaken⟩ := hRead.consumes
    rw [rbRead_zero hQueue] at hTaken
    refine ⟨filled, hRead.fills, ?_⟩
    obtain ⟨ring, parser, handler⟩ := next
    have hRing : filled = ring := (Prod.mk.inj (Option.some.inj hTaken)).1
    have hParser : parser = c.parser := hRead.parser
    have hHandler : handler = c.handler := hRead.handler
    rw [hRing, hParser, hHandler]
  · rintro ⟨filled, hFills, rfl⟩
    obtain ⟨-, hQueue, -⟩ := h.queue.of_fillsTo hFills
    obtain ⟨r, hShows⟩ := hQueue.exists_shows
    obtain ⟨hStop, hMem⟩ := hQueue.shows hShows
    exact ⟨filled, r, _, hFills, hShows, h.parses hStop hMem, ⟨0, rbRead_zero hQueue⟩, rfl, rfl⟩

/-- The read after it has the outcome that both of them together would have had. -/
theorem Refuses.session_iff (h : Refuses c q first written) (hFirst : first ≠ [])
    (hMore : more ≠ []) :
    Session cmds c [first, more] next ↔ Session cmds c [first ++ more] next := by
  have hTwo : ([first, more] : List Bytes) = [first] ++ [more] := rfl
  rw [hTwo, session_snoc_iff, session_single_iff]
  constructor
  · rintro ⟨middle, filled, r, last, hBefore, hRead⟩
    obtain ⟨before, hFills, rfl⟩ := h.receives_iff.mp (session_single_iff.mp hBefore)
    exact ⟨filled, r, last, (h.queue.fillsTo_append_iff hFirst hMore).mp ⟨before, hFills, hRead.fills⟩,
      hRead.shows, hRead.parses, hRead.consumes, hRead.parser, hRead.handler⟩
  · rintro ⟨filled, r, last, hRead⟩
    obtain ⟨before, hFills, hLast⟩ := (h.queue.fillsTo_append_iff hFirst hMore).mpr hRead.fills
    exact ⟨⟨before, c.parser, c.handler⟩, filled, r, last,
      session_single_iff.mpr (h.receives_iff.mpr ⟨before, hFills, rfl⟩),
      hLast, hRead.shows, hRead.parses, hRead.consumes, hRead.parser, hRead.handler⟩

end Retry

/-- A length header is read from the range alone, it stays accepted when the
range grows, and one that is not accepted is left as it is for the next read. -/
theorem length_header_stable (p : Parser) (range : Bytes) :
    (∀ stale stale', p.parseLength (range ++ stale) range.length =
      p.parseLength (range ++ stale') range.length) ∧
    (∀ stale more stale', (p.parseLength (range ++ stale) range.length).keepGoing = true →
      p.parseLength (range ++ more ++ stale') (range ++ more).length =
        p.parseLength (range ++ stale) range.length) ∧
    (∀ stale, (p.parseLength (range ++ stale) range.length).keepGoing = false →
      p.parseLength (range ++ stale) range.length = ⟨p, [], false, 0⟩) ∧
    ∀ (ρ : Type) (cmds : Commands ρ) (c : Connection ρ) (q first more stale : Bytes) (written : Nat),
      c.parser = p → p.top.parse = .length → c.inputBuffer.Queues q written → range = q ++ first →
      first ≠ [] → more ≠ [] → (p.parseLength (range ++ stale) range.length).keepGoing = false →
      ∀ next, Session cmds c [first, more] next ↔ Session cmds c [first ++ more] next := by
  refine ⟨fun stale stale' => ?_, fun stale more stale' h => ?_, fun stale h => ?_, ?_⟩
  · rw [p.parseLength_append, p.parseLength_append]
  · rw [p.parseLength_append] at h ⊢
    rw [p.parseLength_append]
    exact Parser.parseLength_extend more h
  · exact Parser.parseLength_of_refused h
  · rintro ρ cmds c q first more stale written rfl hTop hQueue rfl hFirst hMore hRefused next
    rw [Parser.parseLength_append] at hRefused
    exact Refuses.session_iff ⟨hTop, hQueue, hRefused⟩ hFirst hMore

/-- A header of three bytes that is read in two pieces, over a ring in which
digits follow. -/
theorem length_header_stable_array :
    (Parser.within arrayLengthInfo []).parseLength (text "2\r\n" ++ text "77") 3 =
        ⟨.resume [2], [.beginArray 2], true, 3⟩ ∧
      (Parser.within arrayLengthInfo []).parseLength (text "2\r\n" ++ text "$1" ++ text "77") 5 =
        ⟨.resume [2], [.beginArray 2], true, 3⟩ ∧
      ∀ next, Session idleCommands
          ⟨⟨0, 0, fun _ => 55, 65536, 3⟩, .within arrayLengthInfo [],
            createCommandHandler idleClient 256 10⟩ [text "2", text "\r\n"] next ↔
        Session idleCommands
          ⟨⟨0, 0, fun _ => 55, 65536, 3⟩, .within arrayLengthInfo [],
            createCommandHandler idleClient 256 10⟩ [text "2" ++ text "\r\n"] next := by
  obtain ⟨hSame, hLonger, -, -⟩ :=
    length_header_stable (.within arrayLengthInfo []) (text "2\r\n")
  obtain ⟨-, -, -, hRetry⟩ := length_header_stable (.within arrayLengthInfo []) (text "2")
  refine ⟨(hSame (text "77") []).trans rfl, (hLonger [] (text "$1") (text "77") rfl).trans rfl, ?_⟩
  exact hRetry Unit idleCommands _ [] (text "2") (text "\r\n") (text "7") 0 rfl rfl
    (RingBuffer.queues_of_assertState (by decide) (by decide)) rfl (by decide) (by decide) rfl

end RedisServer
