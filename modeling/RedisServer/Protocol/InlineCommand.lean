import RedisServer.Protocol.Pipeline
import RedisServer.Protocol.InlineTokens

/-! Inline commands. A line of well written tokens is the same command as the
array of their contents. The count that is announced for a line is taken up to
the next NUL, behind the end of the line, so it may be larger than needed. -/
namespace RedisServer

open Machine

/-- A token as it is written in a line: bare, or between two equal quotes. -/
inductive InlineToken where
  | bare (c : UInt8) (text : Bytes) (hText : ∀ b ∈ c :: text, b ∉ [32, 34, 39, 13, 0])
  | quoted (quote : UInt8) (text : Bytes) (hQuote : IsQuote quote)
      (hText : ∀ b ∈ text, b ∉ [quote, 13, 0])

namespace InlineToken

def content : InlineToken → Bytes
  | bare c text _ => c :: text
  | quoted _ text _ _ => text

def written : InlineToken → Bytes
  | bare c text _ => c :: text
  | quoted quote text _ _ => quote :: (text ++ [quote])

theorem length_content_le (token : InlineToken) : token.content.length ≤ token.written.length := by
  cases token with
  | bare c text hText => exact le_rfl
  | quoted quote text hQuote hText =>
      simp only [content, written, List.length_cons, List.length_append, List.length_nil]
      omega

theorem written_ne_nil (token : InlineToken) : token.written ≠ [] := by
  cases token <;> simp [written]

theorem not_mem_written (token : InlineToken) : 13 ∉ token.written ∧ 0 ∉ token.written := by
  cases token with
  | bare c text hText =>
      exact ⟨fun h => hText 13 h (by simp), fun h => hText 0 h (by simp)⟩
  | quoted quote text hQuote hText =>
      have hLine : 13 ∉ text := fun h => hText 13 h (by simp)
      have hNul : 0 ∉ text := fun h => hText 0 h (by simp)
      rcases hQuote with rfl | rfl
      · simp [written, hLine, hNul]
      · simp [written, hLine, hNul]

end InlineToken

/-- Further tokens, each behind a space and `gap` more, and the spaces at the
end of the line. -/
def moreTokens : List (Nat × InlineToken) → Nat → Bytes
  | [], trail => List.replicate trail 32
  | (gap, token) :: more, trail =>
      32 :: (List.replicate gap 32 ++ (token.written ++ moreTokens more trail))

/-- A line of at least one token. -/
structure InlineLine where
  lead : Nat
  first : InlineToken
  more : List (Nat × InlineToken)
  trail : Nat

namespace InlineLine

def text (line : InlineLine) : Bytes :=
  List.replicate line.lead 32 ++ (line.first.written ++ moreTokens line.more line.trail)

/-- The arguments that the line stands for. -/
def contents (line : InlineLine) : List Bytes :=
  line.first.content :: line.more.map fun entry => entry.2.content

end InlineLine

section Texts

theorem not_mem_spaces {c : UInt8} (hc : c ≠ 32) (n : Nat) : c ∉ List.replicate n 32 :=
  fun h => hc (List.eq_of_mem_replicate h)

theorem not_mem_moreTokens (more : List (Nat × InlineToken)) (trail : Nat) :
    13 ∉ moreTokens more trail ∧ 0 ∉ moreTokens more trail := by
  induction more with
  | nil => exact ⟨not_mem_spaces (by decide) trail, not_mem_spaces (by decide) trail⟩
  | cons entry more ih =>
      have hToken := entry.2.not_mem_written
      have hLine := not_mem_spaces (c := 13) (by decide) entry.1
      have hNul := not_mem_spaces (c := 0) (by decide) entry.1
      simp [moreTokens, hToken, hLine, hNul, ih]

theorem InlineLine.not_mem_text (line : InlineLine) : 13 ∉ line.text ∧ 0 ∉ line.text := by
  have hFirst := line.first.not_mem_written
  have hMore := not_mem_moreTokens line.more line.trail
  have hLine := not_mem_spaces (c := 13) (by decide) line.lead
  have hNul := not_mem_spaces (c := 0) (by decide) line.lead
  simp [text, hFirst, hMore, hLine, hNul]

theorem length_contents_le_moreTokens (more : List (Nat × InlineToken)) (trail : Nat) :
    (more.map fun entry => entry.2.content).flatten.length ≤ (moreTokens more trail).length := by
  induction more with
  | nil => exact Nat.zero_le _
  | cons entry more ih =>
      have hToken := entry.2.length_content_le
      simp only [List.map_cons, List.flatten_cons, moreTokens, List.length_append, List.length_cons]
      omega

theorem InlineLine.flatten_contents_le (line : InlineLine) :
    line.contents.flatten.length ≤ line.text.length := by
  have hToken := line.first.length_content_le
  have hMore := length_contents_le_moreTokens line.more line.trail
  rw [contents, text, List.flatten_cons, List.length_append, List.length_append, List.length_append]
  omega

/-- Behind a token the line goes on with a space. -/
theorem head_moreTokens (more : List (Nat × InlineToken)) (trail : Nat) :
    ∀ c ∈ (moreTokens more trail).head?, c = 32 := by
  cases more with
  | nil =>
      intro c hc
      cases trail with
      | zero => cases hc
      | succ trail => exact (Option.some.inj hc).symm
  | cons entry more =>
      intro c hc
      exact (Option.some.inj hc).symm

end Texts

section Tokens

variable {line : Bytes} {start n : Nat} {tail : Bytes}

/-- A well written token is handed out with its content, and what comes next is
what stands behind the space that ends it. -/
theorem inlineTokens_token (fuel : Nat) (token : InlineToken)
    (h : line.drop start = List.replicate n 32 ++ (token.written ++ tail))
    (hTail : ∀ c ∈ tail.head?, c = 32) :
    ∃ first next, inlineTokens line (fuel + 1) start =
        tokenCalls first (first + token.content.length) ++ inlineTokens line fuel next ∧
      (line.drop first).take token.content.length = token.content ∧
      first + token.content.length ≤ line.length ∧ line.drop next = tail.drop 1 := by
  cases token with
  | bare c text hText =>
      have hRest : line.drop start = List.replicate n 32 ++ c :: (text ++ tail) := h
      have hFirst : c ≠ 32 := fun hc => hText c (List.mem_cons_self ..) (by simp [hc])
      have hPlain : ¬IsQuote c := by
        rintro (hc | hc)
        · exact hText c (List.mem_cons_self ..) (by simp [hc])
        · exact hText c (List.mem_cons_self ..) (by simp [hc])
      have hSpace : 32 ∉ text := fun hMem => hText 32 (List.mem_cons_of_mem _ hMem) (by simp)
      have hLength := length_line hRest
      have hHere : line.drop (start + n) = (c :: text) ++ tail := drop_spaces hRest
      have hLast : start + n + (c :: text).length = start + n + 1 + text.length := by
        rw [List.length_cons]
        omega
      refine ⟨start + n, start + n + 1 + text.length + 1, ?_, ?_, ?_, drop_behind hRest 1⟩
      · rw [InlineToken.content, hLast]
        exact inlineTokens_bare hRest hFirst hPlain hSpace hTail
      · rw [hHere]
        exact List.take_left
      · rw [InlineToken.content, hLast]
        omega
  | quoted quote text hQuote hText =>
      have hRest : line.drop start = List.replicate n 32 ++ quote :: (text ++ quote :: tail) := by
        rw [h, InlineToken.written, List.cons_append, List.append_assoc]
        rfl
      have hInside : quote ∉ text := fun hMem => hText quote hMem (by simp)
      have hLength := length_line hRest
      refine ⟨start + n + 1, start + n + 1 + text.length + 2,
        inlineTokens_quoted hRest hQuote hInside (by simp), ?_, ?_, drop_behind hRest 2⟩
      · rw [drop_first hRest]
        exact List.take_left
      · rw [InlineToken.content]
        omega

end Tokens

section Gathering

open CommandHandler

variable {ρ : Type} (cmds : Commands ρ) {mem line : Bytes} {ch : CommandHandler ρ} {n : Nat}
  {xs : List Bytes}

/-- The callbacks of one token add one argument. -/
theorem CommandHandler.Gathered.token (h : Gathered ch n xs) {x : Bytes} {first : Nat}
    (hMem : (mem.drop first).take x.length = x) (hTotal : xs.flatten.length + x.length < 2 ^ 63)
    (hn : xs.length < n) :
    Gathered ((tokenCalls first (first + x.length)).foldl (handle cmds mem) ch) n (xs ++ [x]) ∧
      Ran cmds ch ((tokenCalls first (first + x.length)).foldl (handle cmds mem) ch) [] := by
  have hLen : ((first + x.length - first : Nat) : Int) = x.length := by omega
  obtain ⟨hBegun, hRoom, hClient₁, hLog₁⟩ := h.beginBulkString cmds mem hTotal
  obtain ⟨hEnded, hClient₂, hLog₂⟩ := hBegun.chars_endBulkString cmds mem hRoom
    (show ((first + x.length : Nat) : Int) - (first : Nat) = x.length by omega) hMem (by omega) hn
  rw [tokenCalls, hLen]
  exact ⟨hEnded, (hLog₂.trans hLog₁).trans (List.append_nil _).symm, hClient₂.trans hClient₁⟩

/-- The tokens of a line from one of them on are gathered as their contents. -/
theorem CommandHandler.Gathered.inlineTokens {gap trail start : Nat} {token : InlineToken}
    (fuel : Nat) (more : List (Nat × InlineToken)) (h : Gathered ch n xs)
    (hMem : mem.take line.length = line)
    (hLine : line.drop start =
      List.replicate gap 32 ++ (token.written ++ moreTokens more trail))
    (hFuel : (line.drop start).length < fuel)
    (hTotal : xs.flatten.length + (line.drop start).length < 2 ^ 63)
    (hn : xs.length + (more.length + 1) ≤ n) :
    Gathered ((RedisServer.inlineTokens line fuel start).foldl (handle cmds mem) ch) n
        (xs ++ token.content :: more.map fun entry => entry.2.content) ∧
      Ran cmds ch ((RedisServer.inlineTokens line fuel start).foldl (handle cmds mem) ch) [] := by
  induction fuel generalizing ch xs gap token more start with
  | zero => exact absurd hFuel (Nat.not_lt_zero _)
  | succ fuel ih =>
      obtain ⟨first, next, hTokens, hText, hFits, hNext⟩ :=
        inlineTokens_token fuel token hLine (head_moreTokens more trail)
      have hLength := congrArg List.length hLine
      rw [List.length_append, List.length_append] at hLength
      have hContent := token.length_content_le
      have hWritten := List.length_pos_iff.mpr token.written_ne_nil
      have hRead : (mem.drop first).take token.content.length = token.content := by
        rw [← hMem, List.drop_take, List.take_take, Nat.min_eq_left (by omega)] at hText
        exact hText
      obtain ⟨hToken, hRan⟩ := h.token cmds hRead (by omega) (by omega)
      have hShorter : (line.drop next).length ≤ (moreTokens more trail).length := by
        rw [hNext, List.length_drop]
        exact Nat.sub_le _ _
      rw [hTokens, List.foldl_append]
      cases more with
      | nil =>
          rw [inlineTokens_blank (hNext.trans (List.drop_replicate ..))]
          exact ⟨hToken, hRan⟩
      | cons entry more =>
          obtain ⟨gap, token⟩ := entry
          obtain ⟨hAll, hRanRest⟩ := ih more hToken hNext (by omega)
            (by rw [List.flatten_append, List.length_append, List.flatten_singleton]; omega)
            (by rw [List.length_append, List.length_singleton]
                rw [List.length_cons] at hn
                omega)
          refine ⟨?_, hRan.trans hRanRest⟩
          rw [List.append_assoc] at hAll
          exact hAll

end Gathering

section Counting

theorem TokenCount.foldl_spaces (count n : Nat) (inToken : Bool) :
    (List.replicate (n + 1) 32).foldl TokenCount.next ⟨count, inToken, 0⟩ = ⟨count, false, 0⟩ := by
  induction n generalizing inToken with
  | zero => rfl
  | succ n ih =>
      rw [List.replicate_succ, List.foldl_cons]
      exact ih false

/-- Bytes that change nothing inside quotes or inside a token. -/
theorem TokenCount.foldl_same {t : TokenCount} {bytes : Bytes} (h : ∀ c ∈ bytes, t.next c = t) :
    bytes.foldl TokenCount.next t = t := by
  induction bytes with
  | nil => rfl
  | cons c bytes ih =>
      rw [List.foldl_cons, h c (List.mem_cons_self ..)]
      exact ih fun b hb => h b (List.mem_cons_of_mem _ hb)

/-- A well written token is counted once. -/
theorem TokenCount.foldl_written (token : InlineToken) (count : Nat) :
    token.written.foldl TokenCount.next ⟨count, false, 0⟩ = ⟨count + 1, true, 0⟩ := by
  cases token with
  | bare c text hText =>
      have hPlain : ∀ b ∈ c :: text, ¬(b = 39 ∨ b = 34) ∧ b ≠ 32 := by
        intro b hb
        have := hText b hb
        simp only [List.mem_cons, List.not_mem_nil, or_false, not_or] at this
        tauto
      have hFirst : next ⟨count, false, 0⟩ c = ⟨count + 1, true, 0⟩ := by
        obtain ⟨hQuote, hSpace⟩ := hPlain c (List.mem_cons_self ..)
        simp [next, hQuote, hSpace]
      rw [InlineToken.written, List.foldl_cons, hFirst]
      refine foldl_same fun b hb => ?_
      obtain ⟨hQuote, hSpace⟩ := hPlain b (List.mem_cons_of_mem _ hb)
      simp [next, hQuote, hSpace]
  | quoted quote text hQuote hText =>
      have hNonzero : quote ≠ 0 := by
        rcases hQuote with rfl | rfl <;> decide
      have hFirst : next ⟨count, false, 0⟩ quote = ⟨count + 1, true, quote⟩ := by
        simp [next, hQuote.symm]
      have hInside : text.foldl TokenCount.next ⟨count + 1, true, quote⟩ =
          ⟨count + 1, true, quote⟩ := by
        refine foldl_same fun b hb => ?_
        have hOther : b ≠ quote := fun h => hText b hb (by simp [h])
        simp [next, hNonzero, hOther]
      rw [InlineToken.written, List.foldl_cons, hFirst, List.foldl_append, hInside]
      simp [next, hNonzero]

theorem TokenCount.foldl_moreTokens (more : List (Nat × InlineToken)) (trail count : Nat) :
    count + more.length ≤
      ((moreTokens more trail).foldl TokenCount.next ⟨count, true, 0⟩).tokenCount := by
  induction more generalizing count with
  | nil => exact le_foldl (moreTokens [] trail) ⟨count, true, 0⟩
  | cons entry more ih =>
      obtain ⟨gap, token⟩ := entry
      have hRest := ih (count + 1)
      have hText : moreTokens ((gap, token) :: more) trail =
          List.replicate (gap + 1) 32 ++ (token.written ++ moreTokens more trail) := rfl
      rw [hText, List.foldl_append, foldl_spaces, List.foldl_append, foldl_written, List.length_cons]
      omega

/-- The announced count is enough for the tokens of the line, whatever stands
behind it. -/
theorem InlineLine.length_contents_le (line : InlineLine) (after : Bytes) :
    line.contents.length ≤ countTokens (line.text ++ after) := by
  have hText : cString (line.text ++ after) = line.text ++ cString after := by
    refine List.takeWhile_append_of_pos fun c hc => ?_
    exact decide_eq_true fun h0 => line.not_mem_text.2 (h0 ▸ hc)
  have hLead : (List.replicate line.lead 32).foldl TokenCount.next ⟨0, false, 0⟩ =
      ⟨0, false, 0⟩ :=
    TokenCount.foldl_same fun c hc => by rw [List.eq_of_mem_replicate hc]; rfl
  have hMore := TokenCount.foldl_moreTokens line.more line.trail 1
  have hRest := TokenCount.le_foldl (cString after) (line.text.foldl TokenCount.next ⟨0, false, 0⟩)
  rw [countTokens, hText, List.foldl_append]
  refine Nat.le_trans ?_ hRest
  rw [text, List.foldl_append, hLead, List.foldl_append, TokenCount.foldl_written, contents,
    List.length_cons, List.length_map, Nat.zero_add]
  omega

end Counting

section Calls

variable {ρ : Type} {cmds : Commands ρ} {r : Range} {ch : CommandHandler ρ}

/-- The call is idle again at the position `pos`, and has run this command and
no other. Where the range ends there, the call returns. -/
structure RunsOne (cmds : Commands ρ) (r : Range) (ch : CommandHandler ρ) (pos : Nat)
    (args : List Bytes) (next : ParserRun (CommandHandler ρ)) : Prop where
  visits : Visits (parserStep (createHandler cmds) r) ⟨parserInit, ch, 0⟩ next
  idle : next.parser = parserInit
  consumed : next.begin = pos
  running : next.handler.status = .running
  ran : Ran cmds ch next.handler [args]
  returns : r.stop = pos → ParserParse (createHandler cmds) r parserInit ch next

/-- The line announces at least this many tokens. -/
def Announces (begin : Bytes) (avail : Int) (tokens : Nat) : Prop :=
  ∃ (count : Nat) (calls : List Callback),
    ((Parser.within inlineCommandInfo []).parse begin avail).calls = .beginArray count :: calls ∧
      tokens ≤ count

variable {line : InlineLine} {after : Bytes}

theorem InlineLine.text_ne_nil (line : InlineLine) : line.text ≠ [] := by
  simp [text, line.first.written_ne_nil]

/-- The callbacks for a line with this count. -/
def InlineLine.calls (line : InlineLine) (count : Nat) : List Callback :=
  .beginArray count :: inlineTokens line.text (line.text.length + 1) 0 ++ [.endArray]

/-- What the parse function of a line makes of it. -/
theorem parse_inlineLine (hMem : r.mem = line.text ++ 13 :: 10 :: after)
    (hInside : line.text.length + 2 ≤ r.stop) :
    (Parser.within inlineCommandInfo []).parse r.mem r.stop =
      ⟨parserInit, line.calls (countTokens r.mem), true, line.text.length + 2⟩ := by
  rw [hMem]
  exact Parser.parse_line line.not_mem_text.1 after [] hInside

/-- The callbacks of a line run one command on its contents. -/
theorem foldl_inlineLine (cmds : Commands ρ) (hMem : r.mem = line.text ++ 13 :: 10 :: after)
    (hSize : r.mem.length < 2 ^ 60) (hRun : ch.status = .running) :
    ((line.calls (countTokens r.mem)).foldl (CommandHandler.handle cmds r.mem) ch).status =
        .running ∧
      Ran cmds ch ((line.calls (countTokens r.mem)).foldl (CommandHandler.handle cmds r.mem) ch)
        [line.contents] := by
  have hCount := countTokens_le r.mem
  have hEnough : line.contents.length ≤ countTokens r.mem := by
    rw [hMem]
    exact line.length_contents_le _
  have hLine : r.mem.take line.text.length = line.text := by
    rw [hMem, List.take_left]
  have hLength : line.text.length ≤ r.mem.length := by
    rw [hMem, List.length_append]
    omega
  have hFlat := line.flatten_contents_le
  obtain ⟨hBegun, hClient, hLog⟩ := CommandHandler.handle_beginArray cmds r.mem hRun
    (show countTokens r.mem < 2 ^ 60 by omega)
  have hBegin : Ran cmds ch (CommandHandler.handle cmds r.mem ch (.beginArray (countTokens r.mem)))
      [] := ⟨hLog.trans (List.append_nil _).symm, hClient⟩
  obtain ⟨hAll, hRan⟩ := hBegun.inlineTokens cmds (line.text.length + 1) line.more hLine
    (List.drop_zero.trans rfl) (by rw [List.drop_zero]; exact Nat.lt_succ_self _)
    (by rw [List.drop_zero, List.flatten_nil, List.length_nil]; omega)
    (by simpa [InlineLine.contents] using hEnough)
  obtain ⟨hStatus, hServed, hLogged⟩ := hAll.endArray cmds r.mem hEnough
    (show line.contents.flatten.length < 2 ^ 63 - 1 by omega)
  rw [InlineLine.calls, List.cons_append, List.foldl_cons, List.foldl_append, List.foldl_cons,
    List.foldl_nil]
  exact ⟨hStatus, (hBegin.trans hRan).trans ⟨hLogged, hServed⟩⟩

/-- The first iteration sees that the range begins with a line. -/
theorem continues_inlineLine (cmds : Commands ρ) (hMem : r.mem = line.text ++ 13 :: 10 :: after)
    (hFirst : ∀ c ∈ line.text.head?, c ∉ [43, 45, 58, 36, 42])
    (hInside : line.text.length + 2 ≤ r.stop) (hClient : ¬ch.client.AwaitingSnapshot) :
    Continues (parserStep (createHandler cmds) r) ⟨parserInit, ch, 0⟩
      ⟨.within inlineCommandInfo [], ch, 0⟩ := by
  have hOutcome : (ParserRun.mk parserInit ch 0).outcome r =
      ⟨.within inlineCommandInfo [], [], true, 0⟩ := by
    obtain ⟨c, text, hText⟩ := List.exists_cons_of_ne_nil line.text_ne_nil
    have hByte : byteAt (r.suffix 0) 0 = c := by
      change byteAt r.mem 0 = c
      rw [hMem, hText]
      rfl
    have hPlain := hFirst c (by rw [hText]; rfl)
    simp only [List.mem_cons, List.not_mem_nil, or_false, not_or] at hPlain
    change (Parser.resume []).parse (r.suffix 0) (r.stop - 0) = _
    rw [Parser.parse_terminal, if_neg (by omega), hByte]
    simp [Parser.dispatch, hPlain]
  rw [Continues, parserStep_of_not_awaiting (decide_eq_false hClient), hOutcome]
  rfl

/-- The second one reads the line. -/
theorem exists_runsOne (cmds : Commands ρ) (hMem : r.mem = line.text ++ 13 :: 10 :: after)
    (hFirst : ∀ c ∈ line.text.head?, c ∉ [43, 45, 58, 36, 42])
    (hInside : line.text.length + 2 ≤ r.stop) (hSize : r.mem.length < 2 ^ 60)
    (hRun : ch.status = .running) (hClient : ¬ch.client.AwaitingSnapshot) :
    ∃ next, RunsOne cmds r ch (line.text.length + 2) line.contents next := by
  have hSees := continues_inlineLine cmds hMem hFirst hInside hClient
  obtain ⟨hStatus, hRan⟩ := foldl_inlineLine cmds hMem hSize hRun
  generalize hNext : (line.calls (countTokens r.mem)).foldl (CommandHandler.handle cmds r.mem) ch =
    next at hStatus hRan
  have hReads : Continues (parserStep (createHandler cmds) r) ⟨.within inlineCommandInfo [], ch, 0⟩
      ⟨parserInit, next, (line.text.length + 2 : Nat)⟩ := by
    have hOutcome : (ParserRun.mk (.within inlineCommandInfo []) ch 0).outcome r =
        ⟨parserInit, line.calls (countTokens r.mem), true, line.text.length + 2⟩ := by
      rw [ParserRun.outcome, Int.sub_zero]
      exact parse_inlineLine hMem hInside
    have hPos : (0 : Int) + (line.text.length + 2) = (line.text.length + 2 : Nat) := by omega
    rw [Continues, parserStep_of_not_awaiting (decide_eq_false hClient), hOutcome, ← hNext]
    exact congrArg (fun pos => (ParserRun.mk parserInit _ pos, true)) hPos
  refine ⟨_, .head hSees (.head hReads .refl), rfl, rfl, hStatus, hRan, fun hStop => ?_⟩
  have hEnd : parserStep (createHandler cmds) r
      ⟨parserInit, next, (line.text.length + 2 : Nat)⟩ =
        (⟨parserInit, next, (line.text.length + 2 : Nat)⟩, false) := by
    have hOutcome : (ParserRun.mk parserInit next (line.text.length + 2 : Nat)).outcome r =
        parserInit.wait := by
      rw [ParserRun.outcome, hStop, Int.sub_self]
      rfl
    rw [parserStep_of_not_awaiting (decide_eq_false (hRan.not_awaiting hClient)), hOutcome]
    exact congrArg (fun pos => (ParserRun.mk parserInit next pos, false)) (Int.add_zero _)
  exact ((Ends.of_stop hEnd).of_continues hReads).of_continues hSees

/-- A line of tokens, and the array of their contents, are the same one command
for every handler. The line is consumed with its CRLF, and the count announced
for it is large enough, whatever stands behind it in memory. -/
theorem inline_command_as_array (cmds : Commands ρ) (line : InlineLine) (after : Bytes) (r : Range)
    (ch : CommandHandler ρ) (hMem : r.mem = line.text ++ 13 :: 10 :: after)
    (hFirst : ∀ c ∈ line.text.head?, c ∉ [43, 45, 58, 36, 42])
    (hInside : line.text.length + 2 ≤ r.stop) (hSize : r.mem.length < 2 ^ 60)
    (hRun : ch.status = .running) (hClient : ¬ch.client.AwaitingSnapshot) :
    Announces r.mem r.stop line.contents.length ∧
      ∃ next, RunsOne cmds r ch (line.text.length + 2) line.contents next ∧
        ∀ array : Range, array.mem.take array.stop = encodeCommand line.contents →
          array.stop < 2 ^ 31 →
            ∃ last, ParserParse (createHandler cmds) array parserInit ch last ∧
              last.begin = array.stop ∧
              last.handler.invocations = next.handler.invocations ∧
              last.handler.client = next.handler.client := by
  constructor
  · rw [Announces, parse_inlineLine hMem hInside]
    refine ⟨_, _, rfl, ?_⟩
    rw [hMem]
    exact line.length_contents_le _
  · obtain ⟨next, hNext⟩ := exists_runsOne cmds hMem hFirst hInside hSize hRun hClient
    refine ⟨next, hNext, fun array hBytes hLength => ?_⟩
    have hCommands : array.mem.take array.stop = encodeCommands [line.contents] := by
      rw [hBytes, encodeCommands, List.flatMap_singleton]
    obtain ⟨last, hParse, hBegin, -, -, hRan⟩ := ends_whole cmds ch hRun hClient hCommands hLength
    exact ⟨last, hParse, hBegin, hRan.invocations.trans hNext.ran.invocations.symm,
      hRan.client.trans hNext.ran.client.symm⟩

end Calls

/-- The line ` SET 'a b'  "" `. -/
def setLine : InlineLine where
  lead := 1
  first := .bare 83 [69, 84] (by decide +kernel)
  more := [(0, .quoted 39 [97, 32, 98] (by decide) (by decide +kernel)),
    (1, .quoted 34 [] (by decide) (by simp))]
  trail := 1

/-- Behind the line there are an open quote and half a word. -/
theorem inline_command_set :
    ∃ next, RunsOne idleCommands ⟨setLine.text ++ 13 :: 10 :: [34, 97], 17, by decide⟩
        (createCommandHandler idleClient 256 10) 17 [[83, 69, 84], [97, 32, 98], []] next ∧
      next.handler.invocations = [[[83, 69, 84], [97, 32, 98], []]] := by
  obtain ⟨-, next, hNext, -⟩ := inline_command_as_array idleCommands setLine [34, 97]
    ⟨setLine.text ++ 13 :: 10 :: [34, 97], 17, by decide⟩ (createCommandHandler idleClient 256 10)
    rfl (by decide +kernel) (by decide) (by decide) rfl (by decide)
  exact ⟨next, hNext, hNext.ran.invocations⟩

end RedisServer
