import RedisServer.Protocol.HandlerBounds

/-! Input that the command handler is made for. A step of the parser is benign
when it respects what the handler relies on; the invariant of the loop says how
much room the arrays on the stack still have. -/
namespace RedisServer

open Machine

/-- The step goes on with an array that is open. -/
def Parser.InArray (p : Parser) : Prop := p.top.type = .array ∨ 2 ≤ p.stackTop

section Steps

variable {ρ : Type} {cmds : Commands ρ} {ch next : CommandHandler ρ} {begin : Bytes} {avail : Int}

/-- The steps that respect what the handler relies on, told by the state before
them. No array goes on with the arguments of a finished command still counted.
A simple string comes when no end is recorded and finds room, a string outside
of arrays finds a free end. Announced lengths give sizes that are not negative,
a payload is there completely or not at all, and a line has no more tokens than
are counted or there is room for. -/
def Benign (p : Parser) (ch : CommandHandler ρ) (begin : Bytes) (avail : Int) : Prop :=
  (p.InArray → ch.args = []) ∧
    match p.top.parse with
    | .initial =>
        avail ≠ 0 → (byteAt begin 0 = 43 → ∀ e ∈ ch.ends, e = 0) ∧
          (byteAt begin 0 = 36 → ¬p.InArray → ch.ends.length < ch.endsCapacity)
    | .simple => ch.bufUsed + scanCr begin avail ≤ ch.bufSize
    | .length =>
        Parser.HeaderReady begin avail →
          if p.top.type = .arrayLength then 0 ≤ (strtol begin).value
          else 0 ≤ ch.bufUsed + (strtol begin).value ∧
            ch.bufUsed + (strtol begin).value < 2 ^ 63 - 1
    | .bulkString =>
        p.top.length = -1 ∨ avail = 0 ∨ p.top.length = 0 ∨
          (0 < p.top.length ∧ p.top.length + 2 ≤ avail)
    | .array => True
    | .inlineCommand =>
        (scanCr begin avail : Int) ≠ avail →
          scanCr begin avail + 1 < avail ∧
            (inlineTokens (begin.take (scanCr begin avail)) (scanCr begin avail + 1) 0).count
              .endBulkString ≤ max (countTokens begin) ch.endsCapacity

/-- Room for the elements that the open arrays still announce, the innermost
first, and for `extra` more. -/
structure Room (ch : CommandHandler ρ) (lens : List Int) (extra : Nat) : Prop where
  each : ∀ len ∈ lens, 0 ≤ len ∧ len ≤ ch.endsCapacity
  inner : ch.args = [] → ∀ len ∈ lens.head?, (ch.ends.length : Int) + len + extra ≤ ch.endsCapacity

theorem Room.keeps {lens : List Int} {extra : Nat} (h : Room ch lens extra)
    (hKeeps : CommandHandler.Keeps ch next) : Room next lens extra where
  each := by rw [hKeeps.capacity]; exact h.each
  inner := by rw [hKeeps.args, hKeeps.ends, hKeeps.capacity]; exact h.inner

theorem Room.less {lens : List Int} (h : Room ch lens 1) : Room ch lens 0 where
  each := h.each
  inner := by
    intro hArgs len hLen
    have := h.inner hArgs len hLen
    omega

/-- After a command has run, the arrays around it can go on if it left no
arguments. -/
theorem Room.ended {lens : List Int} (hEach : ∀ len ∈ lens, 0 ≤ len ∧ len ≤ ch.endsCapacity)
    (hNone : ch.args = [] → ch.ends = []) : Room ch lens 0 where
  each := hEach
  inner := by
    intro hArgs len hLen
    have hBound := (hEach len (List.mem_of_mem_head? hLen)).2
    rw [hNone hArgs]
    simpa using hBound

/-- The stacks and what the handler has ready for them. -/
inductive Stacked (ch : CommandHandler ρ) : Parser → Prop where
  | resume (lens : List Int) (h : lens.length ≤ 31) (hRoom : Room ch lens 0) :
      Stacked ch (.resume lens)
  | element (lens : List Int) (hne : lens ≠ []) (h : lens.length < 31) (hRoom : Room ch lens 1) :
      Stacked ch (.within initialInfo lens)
  | simple (cb : Callback) (hcb : cb ∈ Parser.simpleEnds) (lens : List Int) (h : lens.length < 31)
      (hRoom : Room ch lens 1) : Stacked ch (.within (simpleInfo cb) lens)
  | arrayLength (lens : List Int) (h : lens.length < 31) (hRoom : Room ch lens 1) :
      Stacked ch (.within arrayLengthInfo lens)
  | inlineCommand (lens : List Int) (h : lens.length < 31) (hRoom : Room ch lens 1) :
      Stacked ch (.within inlineCommandInfo lens)
  | bulkStringLength (lens : List Int) (h : lens.length < 31) (hRoom : Room ch lens 1)
      (hBare : lens = [] → ch.ends.length < ch.endsCapacity) :
      Stacked ch (.within bulkStringLengthInfo lens)
  | bulkString (len : Int) (lens : List Int) (h : lens.length < 31) (hRoom : Room ch lens 1)
      (hBare : lens = [] → ch.ends.length < ch.endsCapacity) (hHigh : len ≤ 2 ^ 31 - 1)
      (hSize : 0 ≤ len → ch.bufUsed + len ≤ ch.bufSize) :
      Stacked ch (.within (bulkStringInfo len) lens)

/-- A step whose callbacks are safe and leave everything ready for the next. -/
structure Orderly (cmds : Commands ρ) (begin : Bytes) (ch : CommandHandler ρ)
    (out : ParseOutcome) : Prop where
  safe : CommandHandler.Safe cmds begin ch out.calls
  steady : (out.calls.foldl (CommandHandler.handle cmds begin) ch).Steady
  stacked : Stacked (out.calls.foldl (CommandHandler.handle cmds begin) ch) out.parser

theorem Orderly.of_no_calls {p : Parser} {go : Bool} {n : Int} (h : ch.Steady)
    (hp : Stacked ch p) : Orderly cmds begin ch ⟨p, [], go, n⟩ := ⟨trivial, h, hp⟩

theorem Parser.inArray_within {top : StateInfo} {lens : List Int} (hne : lens ≠ []) :
    (Parser.within top lens).InArray := by
  right
  rw [Parser.stackTop_within]
  exact Nat.succ_le_succ (List.length_pos_iff.mpr hne)

theorem room_nil (extra : Nat) : Room ch [] extra := ⟨by simp, by simp⟩

theorem Orderly.of_idle_call {p : Parser} {call : Callback} {go : Bool} {n : Int} (h : ch.Steady)
    (hp : Stacked ch p) (hSound : ch.Sound call)
    (hCall : CommandHandler.handle cmds begin ch call = ch) :
    Orderly cmds begin ch ⟨p, [call], go, n⟩ := by
  have hFold : [call].foldl (CommandHandler.handle cmds begin) ch = ch := hCall
  refine ⟨⟨hSound, ?_, trivial⟩, ?_, ?_⟩
  · rw [hCall]
    exact h.toInBounds
  · rw [hFold]
    exact h
  · rw [hFold]
    exact hp

theorem orderly_dispatch {lens : List Int} {c : UInt8} (h : ch.Steady) (hLens : lens.length < 31)
    (hRoom : Room ch lens 1) (hSimple : c = 43 → ∀ e ∈ ch.ends, e = 0)
    (hBare : c = 36 → lens = [] → ch.ends.length < ch.endsCapacity) :
    Orderly cmds begin ch (Parser.dispatch lens c) := by
  unfold Parser.dispatch
  split_ifs with hc
  · obtain ⟨hNext, hKeeps⟩ := h.beginSimpleString cmds begin (hSimple hc)
    exact ⟨⟨trivial, hNext.toInBounds, trivial⟩, hNext,
      .simple _ (by decide) lens hLens (hRoom.keeps hKeeps)⟩
  · exact .of_idle_call h (.simple _ (by decide) lens hLens hRoom) trivial
      (CommandHandler.handle_of_running h.running _)
  · exact .of_idle_call h (.simple _ (by decide) lens hLens hRoom) trivial
      (CommandHandler.handle_of_running h.running _)
  · exact .of_no_calls h (.bulkStringLength lens hLens hRoom (hBare ‹_›))
  · exact .of_no_calls h (.arrayLength lens hLens hRoom)
  · exact .of_no_calls h (.inlineCommand lens hLens hRoom)

theorem orderly_array {len : Int} {lens : List Int} (h : ch.Steady)
    (hLens : (len :: lens).length ≤ 31) (hRoom : Room ch (len :: lens) 0) (hArgs : ch.args = []) :
    Orderly cmds begin ch ((Parser.resume (len :: lens)).parse begin avail) := by
  rw [List.length_cons] at hLens
  obtain ⟨hLow, hHigh⟩ := hRoom.each len (List.mem_cons_self ..)
  have hInner := hRoom.inner hArgs len rfl
  have hRest : ∀ l ∈ lens, 0 ≤ l ∧ l ≤ ch.endsCapacity := fun l hl =>
    hRoom.each l (List.mem_cons_of_mem _ hl)
  have hEach : ∀ l ∈ (len - 1) :: lens, len ≠ 0 → 0 ≤ l ∧ l ≤ ch.endsCapacity := by
    intro l hl hPos
    rcases List.mem_cons.mp hl with rfl | hl
    · omega
    · exact hRest l hl
  rw [Parser.parse_array]
  split_ifs with hEnd hDeep
  · obtain ⟨hNext, hEnds, hCapacity, hNone⟩ := h.endArray cmds begin hArgs
    refine ⟨⟨trivial, hNext.toInBounds, trivial⟩, hNext, .resume lens (by omega) (.ended ?_ ?_)⟩
    · change ∀ l ∈ lens, 0 ≤ l ∧
        l ≤ ((CommandHandler.handle cmds begin ch .endArray).endsCapacity : Int)
      rw [hCapacity]
      exact hRest
    · exact fun hArgs => hEnds.trans (hNone hArgs)
  · refine .of_no_calls h (.element _ (by simp) (by simp; omega) ⟨?_, ?_⟩)
    · exact fun l hl => hEach l hl (fun h0 => hEnd (Or.inl h0))
    · rintro - l ⟨⟩
      push_cast
      omega
  · refine .of_no_calls h (.resume _ (by simp; omega) ⟨?_, ?_⟩)
    · exact fun l hl => hEach l hl (fun h0 => hEnd (Or.inl h0))
    · rintro - l ⟨⟩
      omega

theorem Stacked.endRoom {lens : List Int} (hRoom : Room ch lens 1)
    (hBare : lens = [] → ch.ends.length < ch.endsCapacity) (hArgs : lens ≠ [] → ch.args = []) :
    ch.ends.length < ch.endsCapacity := by
  cases lens with
  | nil => exact hBare rfl
  | cons len lens =>
      have hLow := (hRoom.each len (List.mem_cons_self ..)).1
      have hInner := hRoom.inner (hArgs (by simp)) len rfl
      push_cast at hInner
      omega

/-- The end of a string takes the room that was kept for it. -/
theorem orderly_endBulkString {lens : List Int} {go : Bool} {n : Int} (h : ch.Steady)
    (hLens : lens.length < 31) (hRoom : Room ch lens 1)
    (hEnd : ch.ends.length < ch.endsCapacity) :
    Orderly cmds begin ch ⟨.resume lens, [.endBulkString], go, n⟩ := by
  obtain ⟨hNext, hArgs, hCount, hCapacity, -⟩ := h.endBulkString cmds begin hEnd
  refine ⟨⟨trivial, hNext.toInBounds, trivial⟩, hNext, .resume lens (by omega) ⟨?_, ?_⟩⟩
  · dsimp only [List.foldl_cons, List.foldl_nil]
    rw [hCapacity]
    exact hRoom.each
  · dsimp only [List.foldl_cons, List.foldl_nil]
    rw [hCapacity, hCount, hArgs]
    intro hNone len hLen
    have := hRoom.inner hNone len hLen
    push_cast at this ⊢
    omega

/-- Copying bytes that fit changes nothing for the callbacks behind it. -/
theorem Orderly.chars {p : Parser} {first last : Int} {calls : List Callback} {go : Bool} {n : Int}
    (h : ch.Steady) (hOrder : first ≤ last)
    (hFit : (ch.bufUsed : Int) + (last - first) ≤ ch.bufSize)
    (hRest : ∀ next : CommandHandler ρ, next.Steady → CommandHandler.Keeps ch next →
      next.bufUsed = ch.bufUsed + (last - first).toNat → next.bufSize = ch.bufSize →
      Orderly cmds begin next ⟨p, calls, go, n⟩) :
    Orderly cmds begin ch ⟨p, .chars first last :: calls, go, n⟩ := by
  obtain ⟨hSound, hNext, hKeeps, hUsed, hSame⟩ :=
    h.chars cmds begin hOrder hFit
  obtain ⟨hSafe, hSteady, hStacked⟩ := hRest _ hNext hKeeps hUsed hSame
  exact ⟨⟨hSound, hNext.toInBounds, hSafe⟩, hSteady, hStacked⟩

theorem orderly_bulkString {len : Int} {lens : List Int} (h : ch.Steady) (hAvail : 0 ≤ avail)
    (hLens : lens.length < 31) (hRoom : Room ch lens 1)
    (hBare : lens = [] → ch.ends.length < ch.endsCapacity) (hHigh : len ≤ 2 ^ 31 - 1)
    (hSize : 0 ≤ len → ch.bufUsed + len ≤ ch.bufSize) (hArgs : lens ≠ [] → ch.args = [])
    (hWhole : len = -1 ∨ avail = 0 ∨ len = 0 ∨ (0 < len ∧ len + 2 ≤ avail)) :
    Orderly cmds begin ch ((Parser.within (bulkStringInfo len) lens).parse begin avail) := by
  have hEnd := Stacked.endRoom hRoom hBare hArgs
  rw [Parser.parse_bulkString]
  by_cases hNull : len = -1
  · rw [if_pos hNull]
    exact orderly_endBulkString h hLens hRoom hEnd
  rw [if_neg hNull]
  by_cases hNone : avail = 0
  · rw [if_pos hNone]
    exact .of_no_calls h (.bulkString len lens hLens hRoom hBare hHigh hSize)
  rw [if_neg hNone]
  have hLow : 0 ≤ len := by omega
  have hOutput : toInt32 (min len avail) = len := by
    rw [min_eq_left (by omega)]
    exact toInt32_of_small (by omega) (by omega)
  rw [hOutput]
  have hFit := hSize hLow
  split_ifs with hComplete
  · refine .chars h hLow (by omega) (fun next hNext hKeeps hUsed hSame => ?_)
    refine orderly_endBulkString hNext hLens (hRoom.keeps hKeeps) ?_
    rw [hKeeps.ends, hKeeps.capacity]
    exact hEnd
  · have hZero : len = 0 := by omega
    subst hZero
    refine .chars h le_rfl (by omega) (fun next hNext hKeeps hUsed hSame => ?_)
    refine .of_no_calls hNext (.bulkString 0 lens hLens (hRoom.keeps hKeeps) ?_ hHigh ?_)
    · rw [hKeeps.ends, hKeeps.capacity]
      exact hBare
    · rw [hUsed, hSame]
      exact fun _ => by simpa using h.buf

theorem orderly_simple {cb : Callback} {lens : List Int} (h : ch.Steady)
    (hcb : cb ∈ Parser.simpleEnds) (hLens : lens.length < 31) (hRoom : Room ch lens 1)
    (hFit : ch.bufUsed + scanCr begin avail ≤ ch.bufSize) :
    Orderly cmds begin ch ((Parser.within (simpleInfo cb) lens).parse begin avail) := by
  rw [Parser.parse_simple]
  split_ifs
  · exact .of_no_calls h (.simple cb hcb lens hLens hRoom)
  · refine .chars h (by omega) (by omega) (fun next hNext hKeeps _ _ => ?_)
    obtain ⟨hSound, hLast, hSame⟩ := hNext.simpleEnd cmds begin hcb
    exact ⟨⟨hSound, hLast.toInBounds, trivial⟩, hLast,
      .resume lens (by omega) ((hRoom.keeps hKeeps).keeps hSame).less⟩
  · refine .chars h (by omega) (by omega) (fun next hNext hKeeps _ _ => ?_)
    exact .of_no_calls hNext (.simple cb hcb lens hLens (hRoom.keeps hKeeps))

theorem Room.beginArray {lens : List Int} {len : Int} (hRoom : Room ch lens 1) (hLow : 0 ≤ len)
    (hEnds : next.ends = []) (hCapacity : next.endsCapacity = max ch.endsCapacity len.toNat) :
    Room next (len :: lens) 0 where
  each := by
    intro l hl
    rcases List.mem_cons.mp hl with rfl | hl
    · omega
    · have := hRoom.each l hl
      omega
  inner := by
    rintro - l ⟨⟩
    rw [hEnds, List.length_nil]
    omega

theorem orderly_arrayLength {lens : List Int} (h : ch.Steady) (hLens : lens.length < 31)
    (hRoom : Room ch lens 1)
    (hLow : Parser.HeaderReady begin avail → 0 ≤ (strtol begin).value) :
    Orderly cmds begin ch ((Parser.within arrayLengthInfo lens).parse begin avail) := by
  rw [Parser.parse_arrayLength begin avail hLens]
  split_ifs with hReady
  · obtain ⟨-, -, -, -, -, -, hHigh⟩ := hReady.2
    obtain ⟨hSound, hNext, -, hEnds, -, hCapacity⟩ := h.beginArray cmds begin
      (hLow hReady.2) (by omega)
    exact ⟨⟨hSound, hNext.toInBounds, trivial⟩, hNext,
      .resume (_ :: lens) hLens (hRoom.beginArray (hLow hReady.2) hEnds hCapacity)⟩
  · exact .of_no_calls h (.arrayLength lens hLens hRoom)

theorem orderly_bulkStringLength {lens : List Int} (h : ch.Steady) (hLens : lens.length < 31)
    (hRoom : Room ch lens 1) (hBare : lens = [] → ch.ends.length < ch.endsCapacity)
    (hLen : Parser.HeaderReady begin avail → 0 ≤ ch.bufUsed + (strtol begin).value ∧
      ch.bufUsed + (strtol begin).value < 2 ^ 63 - 1) :
    Orderly cmds begin ch ((Parser.within bulkStringLengthInfo lens).parse begin avail) := by
  rw [Parser.parse_bulkStringLength begin avail hLens]
  split_ifs with hReady
  · obtain ⟨-, -, -, -, -, -, hHigh⟩ := hReady.2
    obtain ⟨hLow, hSmall⟩ := hLen hReady.2
    obtain ⟨hSound, hNext, hKeeps, hUsed, hSize⟩ :=
      h.beginBulkString cmds begin hLow hSmall
    refine ⟨⟨hSound, hNext.toInBounds, trivial⟩, hNext,
      .bulkString _ lens hLens (hRoom.keeps hKeeps) ?_ hHigh ?_⟩
    · intro hNil
      dsimp only [List.foldl_cons, List.foldl_nil]
      rw [hKeeps.ends, hKeeps.capacity]
      exact hBare hNil
    · intro _
      dsimp only [List.foldl_cons, List.foldl_nil]
      rw [hUsed]
      exact hSize
  · exact .of_no_calls h (.bulkStringLength lens hLens hRoom hBare)

theorem orderly_inlineCommand {lens : List Int} (h : ch.Steady) (hLens : lens.length < 31)
    (hMem : begin.length < 2 ^ 60) (hRoom : Room ch lens 1)
    (hTokens : (scanCr begin avail : Int) ≠ avail →
      (inlineTokens (begin.take (scanCr begin avail)) (scanCr begin avail + 1) 0).count
        .endBulkString ≤ max (countTokens begin) ch.endsCapacity) :
    Orderly cmds begin ch ((Parser.within inlineCommandInfo lens).parse begin avail) := by
  rw [Parser.parse_inlineCommand]
  split_ifs with hLine
  · have hCount := countTokens_le begin
    obtain ⟨hSound, hFirst, hNoArgs, hNoEnds, hUsed, hCapacity⟩ :=
      h.beginArray cmds begin (show 0 ≤ (countTokens begin : Int) by omega) (by omega)
    have hGathers := hFirst.inlineTokens cmds begin
      (begin.take (scanCr begin avail)) (by rw [List.length_take]; omega) (scanCr begin avail + 1) 0
      (by rw [hUsed])
      (by
        have := hTokens hLine.2
        rw [hNoEnds, hCapacity, List.length_nil]
        omega)
    obtain ⟨hLast, hEnds, hSame, hNone⟩ := hGathers.steady.endArray cmds begin
      (hGathers.args.trans hNoArgs)
    refine ⟨⟨hSound, hFirst.toInBounds,
      CommandHandler.safe_append hGathers.safe ⟨trivial, hLast.toInBounds, trivial⟩⟩, ?_, ?_⟩
    · rw [List.cons_append, List.foldl_cons, List.foldl_append, List.foldl_cons, List.foldl_nil]
      exact hLast
    · rw [List.cons_append, List.foldl_cons, List.foldl_append, List.foldl_cons, List.foldl_nil]
      refine .resume lens (by omega) (.ended ?_ ?_)
      · intro l hl
        have hBound := hRoom.each l hl
        have hSize := hSame.trans (hGathers.capacity.trans hCapacity)
        rw [hSize]
        omega
      · intro hArgs
        exact hEnds.trans (hNone hArgs)
  · exact .of_no_calls h (.inlineCommand lens hLens hRoom)

/-- Every benign step is orderly. -/
theorem Stacked.orderly {p : Parser} (hp : Stacked ch p) (h : ch.Steady) (hAvail : 0 ≤ avail)
    (hMem : begin.length < 2 ^ 60) (hOk : Benign p ch begin avail) :
    Orderly cmds begin ch (p.parse begin avail) := by
  obtain ⟨hNested, hOk⟩ := hOk
  cases hp with
  | resume lens hLens hRoom =>
      cases lens with
      | nil =>
          rw [Parser.parse_terminal]
          split
          · exact .of_no_calls h (.resume [] hLens hRoom)
          · rename_i hSome
            obtain ⟨hSimple, hBare⟩ := hOk hSome
            exact orderly_dispatch h (by decide) (room_nil 1) hSimple
              (fun hc _ => hBare hc (by unfold Parser.InArray; decide))
      | cons len lens => exact orderly_array h hLens hRoom (hNested (Or.inl rfl))
  | element lens hne hLens hRoom =>
      rw [Parser.parse_initial begin avail hLens]
      split
      · exact .of_no_calls h (.element lens hne hLens hRoom)
      · rename_i hSome
        exact orderly_dispatch h hLens hRoom (hOk hSome).1 (fun _ hNil => absurd hNil hne)
  | simple cb hcb lens hLens hRoom => exact orderly_simple h hcb hLens hRoom hOk
  | arrayLength lens hLens hRoom => exact orderly_arrayLength h hLens hRoom hOk
  | inlineCommand lens hLens hRoom =>
      exact orderly_inlineCommand h hLens hMem hRoom (fun hLine => (hOk hLine).2)
  | bulkStringLength lens hLens hRoom hBare =>
      exact orderly_bulkStringLength h hLens hRoom hBare hOk
  | bulkString len lens hLens hRoom hBare hHigh hSize =>
      exact orderly_bulkString h hAvail hLens hRoom hBare hHigh hSize
        (fun hne => hNested (Parser.inArray_within hne)) hOk

/-- A benign step is none of the three that leave the range. -/
theorem Stacked.not_misstep {p : Parser} (hp : Stacked ch p) (hOk : Benign p ch begin avail) :
    ¬p.Misstep begin avail := by
  obtain ⟨-, hOk⟩ := hOk
  rintro (⟨hTop, hCr⟩ | ⟨hTop, -, hNegative⟩ | ⟨hTop, hNegative, hSome⟩)
  · rw [hTop] at hOk
    have := (hOk (by omega)).1
    omega
  · cases hp with
    | resume lens hLens hRoom =>
        cases lens with
        | nil => cases hTop
        | cons len lens =>
            have hLow := (hRoom.each len (List.mem_cons_self ..)).1
            have hLen : len < -1 := hNegative
            omega
    | _ => cases hTop
  · rw [hTop] at hOk
    dsimp only at hOk
    omega

end Steps

section Runs

variable {ρ : Type} {cmds : Commands ρ} {r : Range} {s t : ParserRun (CommandHandler ρ)}

/-- The iteration leaves the input alone or is benign. -/
def BenignStep (cmds : Commands ρ) (r : Range) (s : ParserRun (CommandHandler ρ)) : Prop :=
  (createHandler cmds).awaitingSnapshot s.handler = false →
    Benign s.parser s.handler (r.suffix s.begin) (r.stop - s.begin)

/-- The iteration leaves the input alone or makes only callbacks that are
safe. -/
def SafeStep (cmds : Commands ρ) (r : Range) (s : ParserRun (CommandHandler ρ)) : Prop :=
  (createHandler cmds).awaitingSnapshot s.handler = false →
    CommandHandler.Safe cmds (r.suffix s.begin) s.handler (s.outcome r).calls

/-- The invariant of the loop. -/
structure InOrder (r : Range) (s : ParserRun (CommandHandler ρ)) : Prop extends OnTrack r s where
  steady : s.handler.Steady
  stacked : Stacked s.handler s.parser

theorem Range.suffix_length_le (r : Range) (pos : Int) : (r.suffix pos).length ≤ r.mem.length := by
  unfold Range.suffix
  split
  · exact Nat.zero_le _
  · rw [List.length_drop]
    exact Nat.sub_le _ _

theorem InOrder.orderly (h : InOrder r s) (hMem : r.mem.length < 2 ^ 60)
    (hOk : Benign s.parser s.handler (r.suffix s.begin) (r.stop - s.begin)) :
    Orderly cmds (r.suffix s.begin) s.handler (s.outcome r) := by
  have hHigh := h.high
  exact h.stacked.orderly h.steady (by omega)
    (Nat.lt_of_le_of_lt (r.suffix_length_le s.begin) hMem) hOk

theorem InOrder.next (h : InOrder r s) (hMem : r.mem.length < 2 ^ 60)
    (hOk : BenignStep cmds r s) : InOrder r (parserStep (createHandler cmds) r s).1 := by
  have hTrack := h.toOnTrack.next (h := createHandler cmds)
    (fun hListening => h.stacked.not_misstep (hOk hListening))
  cases hAwait : (createHandler cmds).awaitingSnapshot s.handler with
  | true =>
      rw [parserStep, if_pos hAwait]
      exact h
  | false =>
      have hOrderly : Orderly cmds (r.suffix s.begin) s.handler (s.outcome r) :=
        h.orderly hMem (hOk hAwait)
      rw [parserStep_of_not_awaiting hAwait] at hTrack ⊢
      exact ⟨hTrack, hOrderly.steady, hOrderly.stacked⟩

/-- The invariant holds in every iteration of a call with benign steps. -/
theorem InOrder.visits (h : InOrder r s) (hMem : r.mem.length < 2 ^ 60)
    (hOk : ∀ t, Visits (parserStep (createHandler cmds) r) s t → BenignStep cmds r t)
    (hVisits : Visits (parserStep (createHandler cmds) r) s t) : InOrder r t := by
  have hBoth : Visits (parserStep (createHandler cmds) r) s t ∧ InOrder r t := by
    refine hVisits.invariant
      (I := fun t => Visits (parserStep (createHandler cmds) r) s t ∧ InOrder r t) ?_
      ⟨Relation.ReflTransGen.refl, h⟩
    rintro m n ⟨hm, hIn⟩ hNext
    have hStep := hIn.next hMem (hOk m hm)
    rw [Continues] at hNext
    rw [hNext] at hStep
    exact ⟨hm.tail hNext, hStep⟩
  exact hBoth.2

/-- And when it returns. -/
theorem InOrder.ends (h : InOrder r s) (hMem : r.mem.length < 2 ^ 60)
    (hOk : ∀ t, Visits (parserStep (createHandler cmds) r) s t → BenignStep cmds r t)
    (hEnds : Ends (parserStep (createHandler cmds) r) s t) : InOrder r t := by
  obtain ⟨m, hVisits, hLast⟩ := ends_iff.mp hEnds
  have hStep := (h.visits hMem hOk hVisits).next hMem (hOk m hVisits)
  rw [hLast] at hStep
  exact hStep

end Runs

section Sessions

variable {ρ : Type} {cmds : Commands ρ}

/-- The iterations that `parser_parse` makes while the reads are processed. -/
def Takes (cmds : Commands ρ) (c : Connection ρ) (reads : List Bytes) (r : Range)
    (s : ParserRun (CommandHandler ρ)) : Prop :=
  ∃ before bytes after middle filled, reads = before ++ bytes :: after ∧
    Session cmds c before middle ∧ middle.inputBuffer.FillsTo bytes filled ∧ filled.Shows r ∧
    Visits (parserStep (createHandler cmds) r) ⟨middle.parser, middle.handler, 0⟩ s

theorem Takes.append {c : Connection ρ} {reads : List Bytes} {r : Range}
    {s : ParserRun (CommandHandler ρ)} (h : Takes cmds c reads r s) (more : List Bytes) :
    Takes cmds c (reads ++ more) r s := by
  obtain ⟨before, bytes, after, middle, filled, rfl, hRest⟩ := h
  exact ⟨before, bytes, after ++ more, middle, filled, by simp, hRest⟩

/-- The invariant between two reads. -/
structure InOrderBetween (c : Connection ρ) : Prop where
  size : c.inputBuffer.size = 65536
  shaped : Parser.Shaped c.parser
  steady : c.handler.Steady
  stacked : Stacked c.handler c.parser

theorem InOrderBetween.start {c : Connection ρ} (h : InOrderBetween c) (r : Range) :
    InOrder r (⟨c.parser, c.handler, 0⟩ : ParserRun (CommandHandler ρ)) :=
  ⟨⟨h.shaped, le_rfl, by dsimp only; omega⟩, h.steady, h.stacked⟩

theorem RingBuffer.Shows.mem_length_lt {rb : RingBuffer} {r : Range} (h : rb.Shows r)
    (hSize : rb.size = 65536) : r.mem.length < 2 ^ 60 := by
  obtain ⟨ptr, len, -, hMem, -⟩ := h
  rw [hMem, RingBuffer.load, window_length, hSize]
  have hBytes : (65536 : UInt64).toNat = 65536 := rfl
  omega

theorem session_inOrder {rb : RingBuffer} {client : Client ρ} {reads : List Bytes}
    {c : Connection ρ} (hSize : rb.size = 65536)
    (hSession : Session cmds (connect rb client) reads c)
    (hOk : ∀ r s, Takes cmds (connect rb client) reads r s → BenignStep cmds r s) :
    InOrderBetween c := by
  induction hSession with
  | nil =>
      exact ⟨hSize, Parser.shaped_parserInit, CommandHandler.steady_create client,
        .resume [] (by decide) (room_nil 0)⟩
  | @snoc middle next reads bytes filled r last hBefore hRead ih =>
      have hMiddle := ih (fun r s hTakes => hOk r s (hTakes.append [bytes]))
      have hFilled : filled.size = 65536 := hRead.fills.size.trans hMiddle.size
      have hEnd := (hMiddle.start r).ends (hRead.shows.mem_length_lt hFilled)
        (fun s hVisits => hOk r s
          ⟨reads, bytes, [], middle, filled, rfl, hBefore, hRead.fills, hRead.shows, hVisits⟩)
        hRead.parses
      obtain ⟨code, hConsumes⟩ := hRead.consumes
      refine ⟨(rbRead_size hConsumes).trans hFilled, ?_, ?_, ?_⟩
      · rw [hRead.parser]
        exact hEnd.shaped
      · rw [hRead.handler]
        exact hEnd.steady
      · rw [hRead.parser, hRead.handler]
        exact hEnd.stacked

/-- If every iteration that the parser makes on what a client sends, in
whatever reads, is benign, then every callback is safe: it stays within the
blocks, wraps no size, and leaves the handler in bounds. -/
theorem handler_stays_in_bounds (cmds : Commands ρ) (client : Client ρ) {pageSize : UInt64}
    {fd : Int} {mapped : Bool} {rb : RingBuffer}
    (hCreate : rbCreate pageSize 65536 fd mapped = some rb) (reads : List Bytes)
    (hOk : ∀ r s, Takes cmds (connect rb client) reads r s → BenignStep cmds r s) :
    ∀ r s, Takes cmds (connect rb client) reads r s → SafeStep cmds r s := by
  rintro r s hTakes hListening
  have hHere := hOk r s hTakes hListening
  obtain ⟨before, bytes, after, middle, filled, rfl, hSession, hFills, hShows, hVisits⟩ := hTakes
  have hMiddle := session_inOrder (rbCreate_size hCreate) hSession
    (fun r s hTakes => hOk r s (hTakes.append (bytes :: after)))
  have hMem := hShows.mem_length_lt (hFills.size.trans hMiddle.size)
  have hIn := (hMiddle.start r).visits hMem
    (fun s hVisits => hOk r s
      ⟨before, bytes, after, middle, filled, rfl, hSession, hFills, hShows, hVisits⟩) hVisits
  exact (hIn.orderly hMem hHere).safe

/-- The iterations on one read are those of a call on its bytes. -/
theorem takes_single {rb : RingBuffer} {client : Client ρ} {bytes : Bytes} {r : Range}
    {s : ParserRun (CommandHandler ρ)} (hRing : rb.Queues [] 0)
    (h : Takes cmds (connect rb client) [bytes] r s) :
    r.stop = bytes.length ∧ r.mem.take r.stop = bytes ∧
      Visits (parserStep (createHandler cmds) r)
        ⟨parserInit, createCommandHandler client 256 10, 0⟩ s := by
  obtain ⟨before, read, after, middle, filled, hSplit, hSession, hFills, hShows, hVisits⟩ := h
  obtain ⟨rfl, hRest⟩ : before = [] ∧ [bytes] = read :: after := by
    cases before with
    | nil => exact ⟨rfl, hSplit⟩
    | cons => simp at hSplit
  obtain ⟨rfl, -⟩ := List.cons.inj hRest
  obtain rfl := hSession.eq_of_nil
  obtain ⟨hne, hFit⟩ := hFills.fits
  have hSmall := rb.writableLen.toNat_lt
  obtain ⟨same, hSame, hQueue, -⟩ := hRing.fillsTo hne hFit (by
    change bytes.length ≤ rb.writableLen.toNat at hFit
    omega)
  obtain rfl := hFills.unique hSame
  obtain ⟨hStop, hMem⟩ := hQueue.shows hShows
  exact ⟨hStop, hMem, hVisits⟩

/-- And such a call is made on every read that fits. -/
theorem exists_takes_single (cmds : Commands ρ) (client : Client ρ) {rb : RingBuffer}
    {bytes : Bytes} (hRing : rb.Queues [] 0) (hne : bytes ≠ [])
    (hFit : bytes.length ≤ rb.size.toNat) :
    ∃ r : Range, r.stop = bytes.length ∧ r.mem.take r.stop = bytes ∧
      ∀ s, Visits (parserStep (createHandler cmds) r)
        ⟨parserInit, createCommandHandler client 256 10, 0⟩ s →
          Takes cmds (connect rb client) [bytes] r s := by
  have hRoom := hRing.writableLen
  have hSmall := rb.size.toNat_lt
  rw [List.length_nil] at hRoom
  obtain ⟨filled, hFills, hQueue, -⟩ := hRing.fillsTo hne (by omega) (by omega)
  obtain ⟨r, hShows⟩ := hQueue.exists_shows
  obtain ⟨hStop, hMem⟩ := hQueue.shows hShows
  exact ⟨r, hStop, hMem, fun s hVisits =>
    ⟨[], bytes, [], connect rb client, filled, rfl, .nil _, hFills, hShows, hVisits⟩⟩

/-- The first byte of a read is dispatched. -/
theorem continues_dispatch (cmds : Commands ρ) (ch : CommandHandler ρ) {r : Range} {c : UInt8}
    (hAwait : (createHandler cmds).awaitingSnapshot ch = false) (hSome : r.stop ≠ 0)
    (hByte : byteAt r.mem 0 = c) (hCalls : (Parser.dispatch [] c).calls = [])
    (hGo : (Parser.dispatch [] c).keepGoing = true) :
    Continues (parserStep (createHandler cmds) r) ⟨parserInit, ch, 0⟩
      ⟨(Parser.dispatch [] c).parser, ch, (Parser.dispatch [] c).newBegin⟩ := by
  have hOutcome : ParserRun.outcome r (⟨parserInit, ch, 0⟩ : ParserRun (CommandHandler ρ)) =
      Parser.dispatch [] c := by
    change (Parser.resume []).parse (r.mem.drop 0) (r.stop - 0) = _
    rw [Parser.parse_terminal, if_neg (by omega), List.drop_zero, hByte]
  rw [Continues, parserStep_of_not_awaiting hAwait, hOutcome, hCalls, hGo, Int.zero_add]
  rfl

theorem continues_of_outcome (cmds : Commands ρ) {r : Range}
    {s : ParserRun (CommandHandler ρ)} {p : Parser} {calls : List Callback} {n : Int}
    (hAwait : (createHandler cmds).awaitingSnapshot s.handler = false)
    (hOutcome : s.outcome r = ⟨p, calls, true, n⟩) :
    Continues (parserStep (createHandler cmds) r) s
      ⟨p, calls.foldl (CommandHandler.handle cmds (r.suffix s.begin)) s.handler, s.begin + n⟩ := by
  rw [Continues, parserStep_of_not_awaiting hAwait, hOutcome]
  rfl

/-- At the end of the range, outside of a message, the loop stops. -/
theorem parserStep_wait {r : Range} {ch : CommandHandler ρ} {pos : Int} (hEnd : pos = r.stop) :
    parserStep (createHandler cmds) r ⟨.resume [], ch, pos⟩ = (⟨.resume [], ch, pos⟩, false) := by
  unfold parserStep
  split
  · rfl
  · dsimp only [ParserRun.outcome]
    rw [Parser.parse_terminal, if_pos (by omega)]
    simp [Parser.wait]

theorem Range.exists_tail {r : Range} {bytes : Bytes} (h : r.mem.take r.stop = bytes) :
    ∃ tail, r.mem = bytes ++ tail :=
  ⟨r.mem.drop r.stop, by rw [← h, List.take_append_drop]⟩

/-- The null array of the protocol is announced to the handler as a length, and
the size that the handler computes from it is wrapped. -/
theorem null_array_not_safe :
    ∃ rb, rbCreate 4096 65536 3 true = some rb ∧
      ∃ r s, Takes idleCommands (connect rb idleClient)
          [ascii ['*', '-', '1', '\r', '\n']] r s ∧
        ¬SafeStep idleCommands r s := by
  refine ⟨_, RingBuffer.rbCreate_client, ?_⟩
  obtain ⟨r, hStop, hMem, hTakes⟩ := exists_takes_single idleCommands idleClient
    RingBuffer.queues_client
    (show ascii ['*', '-', '1', '\r', '\n'] ≠ [] by decide) (by decide)
  have hFive : r.stop = 5 := hStop
  obtain ⟨tail, hText⟩ := Range.exists_tail hMem
  have hFirst := continues_dispatch idleCommands (createCommandHandler idleClient 256 10) rfl
    (show r.stop ≠ 0 by omega) (show byteAt r.mem 0 = 42 by rw [hText]; rfl) rfl rfl
  refine ⟨r, _, hTakes _ (Relation.ReflTransGen.single hFirst), fun hSafe => ?_⟩
  have hRest : r.suffix 1 = 45 :: 49 :: 13 :: 10 :: tail := by
    rw [Range.suffix, if_neg (by decide), hText]
    rfl
  have hNumber : strtol (r.suffix 1) = ⟨-1, 2, false⟩ := by
    rw [hRest]
    rfl
  have hReady : Parser.HeaderReady (r.suffix 1) (r.stop - 1) := by
    unfold Parser.HeaderReady
    rw [hNumber, hRest]
    refine ⟨by decide, ?_, rfl, rfl, rfl, by decide, by decide⟩
    dsimp only
    omega
  have hCalls := hSafe rfl
  change CommandHandler.Safe _ (r.suffix 1) _
    ((Parser.within arrayLengthInfo []).parse (r.suffix 1) (r.stop - 1)).calls at hCalls
  rw [Parser.parse_arrayLength _ _ (by decide), if_pos ⟨by omega, hReady⟩, hNumber] at hCalls
  exact absurd hCalls.1.1 (by decide)

/-- An inline line in one read is benign. -/
theorem ping_line_safe :
    ∃ rb, rbCreate 4096 65536 3 true = some rb ∧
      ∀ r s, Takes idleCommands (connect rb idleClient)
          [ascii ['P', 'I', 'N', 'G', '\r', '\n']] r s →
        SafeStep idleCommands r s := by
  refine ⟨_, RingBuffer.rbCreate_client, handler_stays_in_bounds _ _ RingBuffer.rbCreate_client _ ?_⟩
  intro r s hTakes
  obtain ⟨hStop, hMem, hVisits⟩ :=
    takes_single RingBuffer.queues_client hTakes
  have hSix : r.stop = 6 := hStop
  obtain ⟨tail, hText⟩ := Range.exists_tail hMem
  have hFirst := continues_dispatch idleCommands (createCommandHandler idleClient 256 10) rfl
    (show r.stop ≠ 0 by omega) (show byteAt r.mem 0 = 80 by rw [hText]; rfl) rfl rfl
  have hScan : scanCr (r.suffix 0) (r.stop - 0) = 4 := by
    rw [Range.suffix, if_neg (by decide), hSix, hText]
    rfl
  have hLine : (r.suffix 0).take 4 = ascii ['P', 'I', 'N', 'G'] := by
    rw [Range.suffix, if_neg (by decide), hText]
    rfl
  obtain ⟨calls, hOutcome⟩ : ∃ calls, ParserRun.outcome r
      ⟨.within inlineCommandInfo [], createCommandHandler idleClient 256 10, 0⟩ =
        ⟨.resume [], calls, true, 6⟩ := by
    refine ⟨.beginArray (countTokens (r.suffix 0)) ::
      inlineTokens (ascii ['P', 'I', 'N', 'G']) 5 0 ++ [.endArray], ?_⟩
    rw [ParserRun.outcome]
    dsimp only
    rw [Parser.parse_inlineCommand, hScan, if_pos (by omega), hLine]
    rfl
  have hSecond := continues_of_outcome idleCommands rfl hOutcome
  have hNoArray : ¬(Parser.resume []).InArray := by unfold Parser.InArray; decide
  rcases hVisits.of_continues hFirst with rfl | hVisits
  · have hByte : byteAt (r.suffix 0) 0 = 80 := by
      rw [Range.suffix, if_neg (by decide), hText]
      rfl
    refine fun _ => ⟨fun h => absurd h hNoArray, fun _ => ?_⟩
    rw [hByte]
    exact ⟨fun h => absurd h (by decide), fun h => absurd h (by decide)⟩
  rcases hVisits.of_continues hSecond with rfl | hVisits
  · refine fun _ => ⟨fun h => absurd h (by unfold Parser.InArray; decide), fun _ => ?_⟩
    change (scanCr (r.suffix 0) (r.stop - 0) : Int) + 1 < r.stop - 0 ∧
      (inlineTokens ((r.suffix 0).take (scanCr (r.suffix 0) (r.stop - 0)))
        (scanCr (r.suffix 0) (r.stop - 0) + 1) 0).count .endBulkString ≤ _
    rw [hScan, hLine]
    exact ⟨by omega, Nat.le_trans (by decide) (Nat.le_max_right _ 10)⟩
  · obtain rfl := hVisits.of_stop (parserStep_wait (by dsimp only; omega))
    exact fun _ => ⟨fun h => absurd h hNoArray, fun hSome => absurd (by dsimp only; omega) hSome⟩

end Sessions

end RedisServer
