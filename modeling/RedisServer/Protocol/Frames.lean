import RedisServer.Protocol.Resp

/-! The stacks the parser can build. Over the terminal state lie array states
and over those at most one state of another kind, so a stack is told by the
lengths of its arrays and its top. Every parse function is described here once,
as a function of these. -/
namespace RedisServer

open Machine

section Infos

def terminalInfo : StateInfo := ⟨.initialTerminal, 0, .initial, none⟩

def initialInfo : StateInfo := ⟨.initial, 0, .initial, none⟩

def arrayInfo (len : Int) : StateInfo := ⟨.array, len, .array, some .endArray⟩

def bulkStringInfo (len : Int) : StateInfo := ⟨.bulkString, len, .bulkString, some .endBulkString⟩

def arrayLengthInfo : StateInfo := ⟨.arrayLength, 0, .length, some .endArray⟩

def bulkStringLengthInfo : StateInfo := ⟨.bulkStringLength, 0, .length, some .endBulkString⟩

def simpleInfo (endCallback : Callback) : StateInfo := ⟨.simple, 0, .simple, some endCallback⟩

def inlineCommandInfo : StateInfo := ⟨.inlineCommand, 0, .inlineCommand, none⟩

end Infos

namespace Parser

/-- Open arrays over the terminal state, the innermost first. -/
def arrays (lens : List Int) : List StateInfo := lens.map arrayInfo ++ [terminalInfo]

/-- The stack of the open arrays alone. -/
def resume : List Int → Parser
  | [] => ⟨terminalInfo, []⟩
  | len :: lens => ⟨arrayInfo len, arrays lens⟩

/-- The stack of the open arrays with one more state on it. -/
def within (top : StateInfo) (lens : List Int) : Parser := ⟨top, arrays lens⟩

@[simp] theorem arrays_length (lens : List Int) : (arrays lens).length = lens.length + 1 := by
  simp [arrays]

@[simp] theorem stackTop_resume (lens : List Int) : (resume lens).stackTop = lens.length := by
  cases lens with
  | nil => rfl
  | cons len lens => exact arrays_length lens

@[simp] theorem stackTop_within (top : StateInfo) (lens : List Int) :
    (within top lens).stackTop = lens.length + 1 := arrays_length lens

@[simp] theorem popState_within (top : StateInfo) (lens : List Int) :
    (within top lens).popState = resume lens := by
  cases lens <;> rfl

@[simp] theorem popState_resume_cons (len : Int) (lens : List Int) :
    (resume (len :: lens)).popState = resume lens := popState_within _ lens

theorem pushState_resume {lens : List Int} (h : lens.length < 31) (state : ParserState)
    (length : Int) (parse : ParseFunc) (endCallback : Option Callback) :
    (resume lens).pushState state length parse endCallback =
      within ⟨state, length, parse, endCallback⟩ lens := by
  unfold pushState
  rw [if_pos (by simpa [maxStackDepth] using h)]
  cases lens <;> rfl

theorem pushState_resume_full {lens : List Int} (h : 31 ≤ lens.length) (state : ParserState)
    (length : Int) (parse : ParseFunc) (endCallback : Option Callback) :
    (resume lens).pushState state length parse endCallback = resume lens := by
  unfold pushState
  rw [if_neg (by simpa [maxStackDepth] using h)]

/-- The first byte of an element decides what is pushed over the arrays. -/
def dispatch (lens : List Int) (c : UInt8) : ParseOutcome :=
  if c = 43 then ⟨within (simpleInfo .endSimpleString) lens, [.beginSimpleString], true, 1⟩
  else if c = 45 then ⟨within (simpleInfo .endError) lens, [.beginError], true, 1⟩
  else if c = 58 then ⟨within (simpleInfo .endInteger) lens, [.beginInteger], true, 1⟩
  else if c = 36 then ⟨within bulkStringLengthInfo lens, [], true, 1⟩
  else if c = 42 then ⟨within arrayLengthInfo lens, [], true, 1⟩
  else ⟨within inlineCommandInfo lens, [], true, 0⟩

section Equations

variable (begin : Bytes) (avail : Int) {lens : List Int} {len : Int}

theorem parse_terminal : (resume []).parse begin avail =
    if avail = 0 then (resume []).wait else dispatch [] (byteAt begin 0) := rfl

theorem parse_initial (h : lens.length < 31) : (within initialInfo lens).parse begin avail =
    if avail = 0 then (within initialInfo lens).wait else dispatch lens (byteAt begin 0) := by
  change (within initialInfo lens).parseInitial begin avail = _
  have hPop : (within initialInfo lens).top.type = .initial := rfl
  simp only [parseInitial, hPop, ↓reduceIte, popState_within, pushState_resume h]
  rfl

theorem parse_array : (resume (len :: lens)).parse begin avail =
    if len = 0 ∨ len = -1 then ⟨resume lens, [.endArray], true, 0⟩
    else if lens.length < 30 then ⟨within initialInfo ((len - 1) :: lens), [], true, 0⟩
    else ⟨resume ((len - 1) :: lens), [], true, 0⟩ := by
  change (resume (len :: lens)).parseArray begin avail = _
  have hTop : (resume (len :: lens)).top.length = len := rfl
  have hLess : ({ resume (len :: lens) with
      top := { (resume (len :: lens)).top with length := len - 1 } } : Parser) =
        resume ((len - 1) :: lens) := rfl
  simp only [parseArray, hTop, popState_resume_cons, hLess]
  split
  · rfl
  · split
    · rw [pushState_resume (by simp; omega)]
      rfl
    · rw [pushState_resume_full (by simp; omega)]

theorem parse_bulkString : (within (bulkStringInfo len) lens).parse begin avail =
    if len = -1 then ⟨resume lens, [.endBulkString], true, 0⟩
    else if avail = 0 then (within (bulkStringInfo len) lens).wait
    else if len - toInt32 (min len avail) = 0 ∧ toInt32 (min len avail) + 2 ≤ avail then
      ⟨resume lens, [.chars 0 (toInt32 (min len avail)), .endBulkString], true,
        toInt32 (min len avail) + 2⟩
    else
      ⟨within (bulkStringInfo len) lens, [.chars 0 (toInt32 (min len avail))], false,
        toInt32 (min len avail)⟩ := by
  change (within (bulkStringInfo len) lens).parseBulkString begin avail = _
  have hTop : (within (bulkStringInfo len) lens).top.length = len := rfl
  simp only [parseBulkString, hTop, popState_within]

/-- The header of an array or a bulk string is complete in the range. -/
def HeaderReady (begin : Bytes) (avail : Int) : Prop :=
  (strtol begin).stop ≠ 0 ∧ (strtol begin).stop + 1 < avail ∧ (strtol begin).erange = false ∧
    byteAt begin (strtol begin).stop = 13 ∧ byteAt begin ((strtol begin).stop + 1) = 10 ∧
    -2 ^ 31 ≤ (strtol begin).value ∧ (strtol begin).value ≤ 2 ^ 31 - 1

instance : Decidable (HeaderReady begin avail) :=
  inferInstanceAs (Decidable (_ ∧ _ ∧ _ ∧ _ ∧ _ ∧ _ ∧ _))

theorem parseLength_eq (p : Parser) :
    p.parseLength begin avail =
      if avail ≠ 0 ∧ HeaderReady begin avail then
        if p.top.type = .arrayLength then
          ⟨p.popState.pushState .array (strtol begin).value .array (some .endArray),
            [.beginArray (strtol begin).value], true, (strtol begin).stop + 2⟩
        else if p.top.type = .bulkStringLength then
          ⟨p.popState.pushState .bulkString (strtol begin).value .bulkString (some .endBulkString),
            [.beginBulkString (strtol begin).value], true, (strtol begin).stop + 2⟩
        else p.wait
      else p.wait := by
  unfold parseLength
  by_cases hZero : avail = 0
  · simp [hZero]
  rw [if_neg hZero]
  dsimp only
  by_cases hReady : HeaderReady begin avail
  · have hBoth : avail ≠ 0 ∧ HeaderReady begin avail := ⟨hZero, hReady⟩
    obtain ⟨hSome, hRoom, hRange, hCr, hLf, hLow, hHigh⟩ := hReady
    rw [if_pos hBoth, if_neg (by simp only [hRange, Bool.false_eq_true, or_false]; omega),
      if_neg (by simp only [hCr, hLf, ne_eq, not_true_eq_false, or_self, not_false_eq_true]),
      if_neg (by omega)]
  · have hNot : ¬(avail ≠ 0 ∧ HeaderReady begin avail) := fun h => hReady h.2
    rw [if_neg hNot]
    split
    · rfl
    · rename_i hNumber
      split
      · rfl
      · rename_i hCrlf
        split
        · rfl
        · rename_i hInt
          refine absurd ⟨?_, ?_, ?_, ?_, ?_, ?_, ?_⟩ hReady
          · exact fun h => hNumber (Or.inl h)
          · omega
          · exact Bool.eq_false_iff.mpr fun h => hNumber (Or.inr (Or.inr h))
          · exact by_contra fun h => hCrlf (Or.inl h)
          · exact by_contra fun h => hCrlf (Or.inr h)
          · omega
          · omega

theorem parse_length (p : Parser) (hp : p.top.parse = .length) :
    p.parse begin avail = p.parseLength begin avail := by
  rw [parse, hp]

theorem parse_arrayLength (h : lens.length < 31) :
    (within arrayLengthInfo lens).parse begin avail =
      if avail ≠ 0 ∧ HeaderReady begin avail then
        ⟨resume ((strtol begin).value :: lens), [.beginArray (strtol begin).value], true,
          (strtol begin).stop + 2⟩
      else (within arrayLengthInfo lens).wait := by
  rw [parse_length begin avail _ rfl, parseLength_eq, popState_within, pushState_resume h]
  rfl

theorem parse_bulkStringLength (h : lens.length < 31) :
    (within bulkStringLengthInfo lens).parse begin avail =
      if avail ≠ 0 ∧ HeaderReady begin avail then
        ⟨within (bulkStringInfo (strtol begin).value) lens, [.beginBulkString (strtol begin).value],
          true, (strtol begin).stop + 2⟩
      else (within bulkStringLengthInfo lens).wait := by
  rw [parse_length begin avail _ rfl, parseLength_eq, popState_within]
  simp only [pushState_resume h]
  rfl

theorem parse_simple (cb : Callback) :
    (within (simpleInfo cb) lens).parse begin avail =
      if avail = 0 then (within (simpleInfo cb) lens).wait
      else if 2 ≤ avail - scanCr begin avail ∧ byteAt begin (scanCr begin avail + 1) = 10 then
        ⟨resume lens, [.chars 0 (scanCr begin avail), cb], true, scanCr begin avail + 2⟩
      else
        ⟨within (simpleInfo cb) lens, [.chars 0 (scanCr begin avail)], false,
          scanCr begin avail⟩ := by
  change (within (simpleInfo cb) lens).parseSimple begin avail = _
  unfold parseSimple
  split
  · rfl
  · dsimp only
    rw [popState_within]
    by_cases hShort : avail - scanCr begin avail < 2
    · rw [if_pos hShort, if_neg (by omega)]
    · rw [if_neg hShort]
      by_cases hLf : byteAt begin (scanCr begin avail + 1) = 10
      · rw [if_pos hLf, if_pos ⟨by omega, hLf⟩]
        rfl
      · rw [if_neg hLf, if_neg (fun h => hLf h.2)]

theorem parse_inlineCommand :
    (within inlineCommandInfo lens).parse begin avail =
      if avail ≠ 0 ∧ (scanCr begin avail : Int) ≠ avail then
        ⟨resume lens,
          .beginArray (countTokens begin) ::
            inlineTokens (begin.take (scanCr begin avail)) (scanCr begin avail + 1) 0 ++ [.endArray],
          true, scanCr begin avail + 2⟩
      else (within inlineCommandInfo lens).wait := by
  change (within inlineCommandInfo lens).parseInlineCommand begin avail = _
  unfold parseInlineCommand
  rw [popState_within]
  by_cases hZero : avail = 0
  · simp [hZero]
  · rw [if_neg hZero]
    simp [hZero]

end Equations

/-- The end callbacks of a simple state. -/
def simpleEnds : List Callback := [.endSimpleString, .endError, .endInteger]

/-- The states that lie on top of the arrays other than the one that waits for
an element. A bulk string keeps a length that fits an `int`. -/
inductive Leaf : StateInfo → Prop where
  | simple (cb : Callback) (h : cb ∈ simpleEnds) : Leaf (simpleInfo cb)
  | arrayLength : Leaf arrayLengthInfo
  | bulkStringLength : Leaf bulkStringLengthInfo
  | bulkString (len : Int) (hLow : -2 ^ 31 ≤ len) (hHigh : len ≤ 2 ^ 31 - 1) :
      Leaf (bulkStringInfo len)
  | inlineCommand : Leaf inlineCommandInfo

/-- The stacks that occur. -/
inductive Shaped : Parser → Prop where
  | resume (lens : List Int) (h : lens.length ≤ 31) : Shaped (resume lens)
  | element (lens : List Int) (hne : lens ≠ []) (h : lens.length < 31) :
      Shaped (within initialInfo lens)
  | leaf (top : StateInfo) (lens : List Int) (hTop : Leaf top) (h : lens.length < 31) :
      Shaped (within top lens)

theorem shaped_parserInit : Shaped parserInit := Shaped.resume [] (by decide)

theorem shaped_dispatch {lens : List Int} (h : lens.length < 31) (c : UInt8) :
    Shaped (dispatch lens c).parser := by
  unfold dispatch
  split_ifs
  · exact .leaf _ lens (.simple _ (by decide)) h
  · exact .leaf _ lens (.simple _ (by decide)) h
  · exact .leaf _ lens (.simple _ (by decide)) h
  · exact .leaf _ lens .bulkStringLength h
  · exact .leaf _ lens .arrayLength h
  · exact .leaf _ lens .inlineCommand h

/-- No parse function leads out of the shape, on any input. -/
theorem Shaped.parse {p : Parser} (hp : Shaped p) (begin : Bytes) (avail : Int) :
    Shaped (p.parse begin avail).parser := by
  cases hp with
  | resume lens h =>
      cases lens with
      | nil =>
          rw [parse_terminal]
          split
          · exact .resume [] h
          · exact shaped_dispatch (by decide) _
      | cons len lens =>
          rw [List.length_cons] at h
          rw [parse_array]
          split
          · exact .resume lens (by omega)
          · split
            · exact .element _ (by simp) (by simp; omega)
            · exact .resume ((len - 1) :: lens) h
  | element lens hne h =>
      rw [parse_initial begin avail h]
      split
      · exact .element lens hne h
      · exact shaped_dispatch h _
  | leaf top lens hTop h =>
      have hSelf : Shaped (within top lens) := .leaf top lens hTop h
      have hPop : Shaped (Parser.resume lens) := .resume lens (by omega)
      cases hTop with
      | simple cb hcb =>
          rw [parse_simple]
          split_ifs <;> assumption
      | arrayLength =>
          rw [parse_arrayLength begin avail h]
          split_ifs
          · exact .resume (_ :: lens) h
          · exact hSelf
      | bulkStringLength =>
          rw [parse_bulkStringLength begin avail h]
          split
          · rename_i hReady
            obtain ⟨-, -, -, -, -, -, hLow, hHigh⟩ := hReady
            exact .leaf _ lens (.bulkString _ hLow hHigh) h
          · exact hSelf
      | bulkString len hLow hHigh =>
          rw [parse_bulkString]
          split_ifs <;> assumption
      | inlineCommand =>
          rw [parse_inlineCommand]
          split_ifs <;> assumption

end Parser

end RedisServer
