import RedisServer.Protocol.Gathering
import RedisServer.Protocol.ParserBounds

/-! Well-formed requests. Between two bytes of a stream of commands the parser
is in a stage that the bytes still to come determine; each step takes the stage
to the next one or waits for the bytes it needs. A whole stream in one buffer is
therefore decoded exactly. -/
namespace RedisServer

open Machine

section Encoding

/-- The header of an array or a bulk string, without the first byte. -/
def lengthText (n : Nat) : Bytes := natText n ++ [13, 10]

def encodeBulkString (x : Bytes) : Bytes := 36 :: (lengthText x.length ++ (x ++ [13, 10]))

def encodeCommand (xs : List Bytes) : Bytes :=
  42 :: (lengthText xs.length ++ xs.flatMap encodeBulkString)

def encodeCommands (commands : List (List Bytes)) : Bytes := commands.flatMap encodeCommand

theorem lengthText_length (n : Nat) : (lengthText n).length = (natText n).length + 2 := by
  simp [lengthText]

end Encoding

section Header

variable {begin more : Bytes} {avail n : Nat}

/-- With the digits and the carriage return in the range, the number is read
as it was written. -/
theorem strtol_header (hMem : begin.take avail = (lengthText n ++ more).take avail)
    (h : (natText n).length < avail) :
    strtol begin =
      ⟨min (2 ^ 63 - 1) n, (natText n).length, decide ((2 : Int) ^ 63 - 1 < n)⟩ := by
  have hPrefix : begin = natText n ++ (13 :: (begin.drop ((natText n).length + 1))) := by
    have hTake : begin.take ((natText n).length + 1) = natText n ++ [13] := by
      have hCut := congrArg (List.take ((natText n).length + 1)) hMem
      rw [List.take_take, List.take_take, Nat.min_eq_left (by omega), lengthText,
        show natText n ++ [13, 10] ++ more = (natText n ++ [13]) ++ (10 :: more) by simp] at hCut
      rw [hCut, List.take_left' (by simp)]
    conv_lhs => rw [← List.take_append_drop ((natText n).length + 1) begin, hTake]
    simp
  rw [hPrefix]
  refine strtol_natText n _ ?_
  rintro c hc
  obtain rfl : (13 : UInt8) = c := by simpa using hc
  decide

theorem byteAt_eq_of_take {other : Bytes} (hMem : begin.take avail = other.take avail) {i : Nat}
    (hi : i < avail) : byteAt begin i = byteAt other i := by
  have hGet : ∀ xs : Bytes, byteAt xs i = byteAt (xs.take avail) i := by
    intro xs
    simp only [byteAt, List.getD_eq_getElem?_getD, List.getElem?_take, hi, ↓reduceIte]
  rw [hGet begin, hGet other, hMem]

/-- A header is ready once it is completely there, unless its number is too
large; what lies behind the range does not matter. -/
theorem headerReady_iff (hMem : begin.take avail = (lengthText n ++ more).take avail)
    (hFits : avail ≤ begin.length) :
    Parser.HeaderReady begin avail ↔ (lengthText n).length ≤ avail ∧ n < 2 ^ 31 := by
  rw [lengthText_length]
  by_cases hDigits : (natText n).length < avail
  · have hNumber := strtol_header hMem hDigits
    unfold Parser.HeaderReady
    simp only [hNumber]
    constructor
    · rintro ⟨-, hRoom, -, -, -, -, hHigh⟩
      constructor <;> omega
    · rintro ⟨hRoom, hSmall⟩
      have hCr : byteAt begin (natText n).length = 13 := by
        rw [byteAt_eq_of_take hMem hDigits]
        simp [byteAt, lengthText]
      have hLf : byteAt begin ((natText n).length + 1) = 10 := by
        rw [byteAt_eq_of_take hMem (by omega)]
        simp [byteAt, lengthText]
      refine ⟨?_, by omega, by simp; omega, hCr, hLf, by omega, by omega⟩
      exact fun h => natText_ne_nil n (List.length_eq_zero_iff.mp h)
  · constructor
    · rintro ⟨hSome, hRoom, -⟩
      exfalso
      have hStart : begin.take avail = (natText n).take avail := by
        rw [hMem, lengthText, List.append_assoc, List.take_append_of_le_length (by omega)]
      have hDigitsOnly : ∀ c ∈ begin.take avail, isDigit c = true := fun c hc =>
        isDigit_of_mem_natText (List.mem_of_mem_take (hStart ▸ hc))
      have hStop := le_stop_strtol (begin.drop avail) hDigitsOnly
        (by
          intro hNil
          have hLength := congrArg List.length hNil
          rw [List.length_take] at hLength
          simp only [List.length_nil] at hLength
          omega)
      rw [List.take_append_drop, List.length_take] at hStop
      omega
    · rintro ⟨hRoom, -⟩
      omega

end Header

/-- Where in a stream of commands the parser stands. Within a command `done`
are the arguments that have come, `xs` those that follow; `todo` are the
commands behind it. -/
inductive Stage where
  | idle (todo : List (List Bytes))
  | header (xs : List Bytes) (todo : List (List Bytes))
  | array (done xs : List Bytes) (todo : List (List Bytes))
  | element (done : List Bytes) (x : Bytes) (xs : List Bytes) (todo : List (List Bytes))
  | bulkHeader (done : List Bytes) (x : Bytes) (xs : List Bytes) (todo : List (List Bytes))
  | payload (done : List Bytes) (x : Bytes) (xs : List Bytes) (todo : List (List Bytes))

namespace Stage

/-- The bytes still to come. -/
def rest : Stage → Bytes
  | idle todo => encodeCommands todo
  | header xs todo => lengthText xs.length ++ (xs.flatMap encodeBulkString ++ encodeCommands todo)
  | array _ xs todo => xs.flatMap encodeBulkString ++ encodeCommands todo
  | element _ x xs todo =>
      encodeBulkString x ++ (xs.flatMap encodeBulkString ++ encodeCommands todo)
  | bulkHeader _ x xs todo =>
      lengthText x.length ++ (x ++ [13, 10] ++ (xs.flatMap encodeBulkString ++ encodeCommands todo))
  | payload _ x xs todo =>
      x ++ [13, 10] ++ (xs.flatMap encodeBulkString ++ encodeCommands todo)

def parser : Stage → Parser
  | idle _ => .resume []
  | header _ _ => .within arrayLengthInfo []
  | array _ xs _ => .resume [(xs.length : Int)]
  | element _ _ xs _ => .within initialInfo [(xs.length : Int)]
  | bulkHeader _ _ xs _ => .within bulkStringLengthInfo [(xs.length : Int)]
  | payload _ x xs _ => .within (bulkStringInfo x.length) [(xs.length : Int)]

/-- The commands that have not been executed. -/
def pending : Stage → List (List Bytes)
  | idle todo => todo
  | header xs todo => xs :: todo
  | array done xs todo => (done ++ xs) :: todo
  | element done x xs todo => (done ++ x :: xs) :: todo
  | bulkHeader done x xs todo => (done ++ x :: xs) :: todo
  | payload done x xs todo => (done ++ x :: xs) :: todo

/-- How many bytes the step from here takes. -/
def need : Stage → Nat
  | idle [] => 0
  | idle (_ :: _) => 1
  | header xs _ => (lengthText xs.length).length
  | array _ _ _ => 0
  | element _ _ _ _ => 1
  | bulkHeader _ x _ _ => (lengthText x.length).length
  | payload _ x _ _ => x.length + 2

def next : Stage → Stage
  | idle [] => idle []
  | idle (xs :: todo) => header xs todo
  | header xs todo => array [] xs todo
  | array _ [] todo => idle todo
  | array done (x :: xs) todo => element done x xs todo
  | element done x xs todo => bulkHeader done x xs todo
  | bulkHeader done x xs todo => payload done x xs todo
  | payload done x xs todo => array (done ++ [x]) xs todo

/-- The stages with no step: the end of the stream, and a length that does not
fit an `int`, at which the parser waits for ever. -/
def Last : Stage → Prop
  | idle todo => todo = []
  | header xs _ => 2 ^ 31 ≤ xs.length
  | bulkHeader _ x _ _ => 2 ^ 31 ≤ x.length
  | _ => False

instance : (st : Stage) → Decidable st.Last
  | idle todo => inferInstanceAs (Decidable (todo = []))
  | header xs _ => inferInstanceAs (Decidable (2 ^ 31 ≤ xs.length))
  | bulkHeader _ x _ _ => inferInstanceAs (Decidable (2 ^ 31 ≤ x.length))
  | array _ _ _ => isFalse fun h => h
  | element _ _ _ _ => isFalse fun h => h
  | payload _ _ _ _ => isFalse fun h => h

/-- The cut after `avail` more bytes does not go through a payload. -/
def Clean (avail : Nat) : Stage → Prop
  | payload _ x _ _ => x = [] ∨ avail = 0 ∨ x.length + 2 ≤ avail
  | _ => True

theorem rest_drop_need (st : Stage) : st.rest.drop st.need = st.next.rest := by
  cases st with
  | idle todo =>
      cases todo with
      | nil => rfl
      | cons xs todo => simp [rest, need, next, encodeCommands, encodeCommand]
  | header xs todo => exact List.drop_left
  | array done xs todo =>
      cases xs with
      | nil => simp [rest, need, next]
      | cons x xs => simp [rest, need, next]
  | element done x xs todo => simp [rest, need, next, encodeBulkString]
  | bulkHeader done x xs todo => exact List.drop_left
  | payload done x xs todo => exact List.drop_left' (by simp [need])

theorem need_le (st : Stage) : st.need ≤ st.rest.length := by
  cases st with
  | idle todo =>
      cases todo with
      | nil => exact Nat.zero_le _
      | cons xs todo => simp [rest, need, encodeCommands, encodeCommand]
  | header xs todo => simp [rest, need]
  | array done xs todo => exact Nat.zero_le _
  | element done x xs todo => simp [rest, need, encodeBulkString]
  | bulkHeader done x xs todo => simp [rest, need]
  | payload done x xs todo => simp [rest, need]

section Handlers

variable {ρ : Type}

/-- A command of fewer than 2^31 arguments is being gathered, and none of them
had too long a payload. -/
structure Gathering (ch : CommandHandler ρ) (done : List Bytes) (count : Nat) : Prop where
  gathered : ch.Gathered (done.length + count) done
  few : done.length + count < 2 ^ 31
  short : ∀ x ∈ done, x.length < 2 ^ 31

/-- What the handler has when the parser is in the stage. -/
def Holds (ch : CommandHandler ρ) : Stage → Prop
  | idle _ => ch.status = .running
  | header _ _ => ch.status = .running
  | array done xs _ => Gathering ch done xs.length
  | element done _ xs _ => Gathering ch done (xs.length + 1)
  | bulkHeader done _ xs _ => Gathering ch done (xs.length + 1)
  | payload done x xs _ => Gathering ch done (xs.length + 1) ∧ x.length < 2 ^ 31 ∧
      done.flatten.length + x.length ≤ ch.bufSize

theorem flatten_length_le {xs : List Bytes} (h : ∀ x ∈ xs, x.length < 2 ^ 31) :
    xs.flatten.length ≤ xs.length * 2 ^ 31 := by
  induction xs with
  | nil => simp
  | cons x xs ih =>
      have hHead := h x (List.mem_cons_self ..)
      have hRest := ih (fun y hy => h y (List.mem_cons_of_mem _ hy))
      rw [List.flatten_cons, List.length_append, List.length_cons, Nat.succ_mul]
      omega

theorem Gathering.total {ch : CommandHandler ρ} {done : List Bytes} {count : Nat}
    (h : Gathering ch done count) : done.flatten.length < 2 ^ 62 := by
  have hSum := flatten_length_le h.short
  have hFew := h.few
  omega

end Handlers

/-- The command that the step from here executes, if any. -/
def executes : Stage → List (List Bytes)
  | array done [] _ => [done]
  | _ => []

theorem pending_eq (st : Stage) : st.pending = st.executes ++ st.next.pending := by
  cases st with
  | idle todo => cases todo <;> rfl
  | header xs todo => rfl
  | array done xs todo => cases xs <;> simp [pending, executes, next]
  | element done x xs todo => rfl
  | bulkHeader done x xs todo => rfl
  | payload done x xs todo => simp [pending, executes, next]

section Steps

variable {ρ : Type} {cmds : Commands ρ} {st : Stage} {ch : CommandHandler ρ} {begin : Bytes}
  {avail : Nat}

/-- A step from the stage to the next one: where the parser moves and what the
handler makes of the callbacks. -/
structure Advances (cmds : Commands ρ) (st : Stage) (ch : CommandHandler ρ) (begin : Bytes)
    (out : ParseOutcome) : Prop where
  parser : out.parser = st.next.parser
  keepGoing : out.keepGoing = true
  newBegin : out.newBegin = st.need
  holds : st.next.Holds (out.calls.foldl (CommandHandler.handle cmds begin) ch)
  client : (out.calls.foldl (CommandHandler.handle cmds begin) ch).client =
    st.executes.foldl (fun client xs => handleCommand cmds xs client) ch.client
  invocations : (out.calls.foldl (CommandHandler.handle cmds begin) ch).invocations =
    ch.invocations ++ st.executes

theorem advances_idle {xs : List Bytes} {todo : List (List Bytes)} (hRun : ch.status = .running)
    (hNeed : 1 ≤ avail)
    (hMem : begin.take avail = (encodeCommands (xs :: todo)).take avail) :
    Advances cmds (idle (xs :: todo)) ch begin ((Parser.resume []).parse begin avail) := by
  have hByte : byteAt begin 0 = 42 := by
    rw [byteAt_eq_of_take hMem hNeed]
    rfl
  rw [Parser.parse_terminal, if_neg (by omega), hByte]
  exact ⟨rfl, rfl, rfl, hRun, rfl, (List.append_nil _).symm⟩

theorem advances_header {xs : List Bytes} {todo : List (List Bytes)} (hRun : ch.status = .running)
    (hSmall : xs.length < 2 ^ 31) (hNeed : (lengthText xs.length).length ≤ avail)
    (hMem : begin.take avail = (header xs todo).rest.take avail) (hFits : avail ≤ begin.length) :
    Advances cmds (header xs todo) ch begin ((header xs todo).parser.parse begin avail) := by
  have hReady := (headerReady_iff hMem hFits).mpr ⟨hNeed, hSmall⟩
  rw [lengthText_length] at hNeed
  have hNumber := strtol_header hMem (by omega)
  have hValue : (strtol begin).value = xs.length := by
    rw [hNumber]
    dsimp only
    omega
  have hStop : (strtol begin).stop = (natText xs.length).length := by rw [hNumber]
  obtain ⟨hGathered, hClient, hLog⟩ := CommandHandler.handle_beginArray cmds begin hRun
    (show xs.length < 2 ^ 60 by omega)
  change Advances cmds _ ch begin ((Parser.within arrayLengthInfo []).parse begin avail)
  rw [Parser.parse_arrayLength begin avail (by decide), if_pos ⟨by omega, hReady⟩, hValue, hStop]
  refine ⟨rfl, rfl, ?_, ?_, hClient, hLog.trans (List.append_nil _).symm⟩
  · simp [need, lengthText_length]
  · exact ⟨by simpa using hGathered, by simpa using hSmall, by simp⟩

theorem advances_array_end {done : List Bytes} {todo : List (List Bytes)}
    (h : Gathering ch done 0) :
    Advances cmds (array done [] todo) ch begin
      ((array done [] todo).parser.parse begin avail) := by
  have hTotal := h.total
  obtain ⟨hRun, hClient, hLog⟩ := h.gathered.endArray cmds begin (by omega) (by omega)
  change Advances cmds _ ch begin ((Parser.resume [((0 : Nat) : Int)]).parse begin avail)
  rw [Parser.parse_array, if_pos (by simp)]
  exact ⟨rfl, rfl, rfl, hRun, hClient, hLog⟩

theorem advances_array_element {done : List Bytes} {x : Bytes} {xs : List Bytes}
    {todo : List (List Bytes)} (h : Gathering ch done (xs.length + 1)) :
    Advances cmds (array done (x :: xs) todo) ch begin
      ((array done (x :: xs) todo).parser.parse begin avail) := by
  change Advances cmds _ ch begin ((Parser.resume [((xs.length + 1 : Nat) : Int)]).parse begin avail)
  rw [Parser.parse_array, if_neg (by omega), if_pos (by decide)]
  refine ⟨?_, rfl, rfl, h, rfl, (List.append_nil _).symm⟩
  change Parser.within initialInfo [((xs.length + 1 : Nat) : Int) - 1] = _
  rw [Nat.cast_succ, Int.add_sub_cancel]
  rfl

theorem advances_element {done : List Bytes} {x : Bytes} {xs : List Bytes}
    {todo : List (List Bytes)} (h : Gathering ch done (xs.length + 1)) (hNeed : 1 ≤ avail)
    (hMem : begin.take avail = (element done x xs todo).rest.take avail) :
    Advances cmds (element done x xs todo) ch begin
      ((element done x xs todo).parser.parse begin avail) := by
  have hByte : byteAt begin 0 = 36 := by
    rw [byteAt_eq_of_take hMem hNeed]
    rfl
  change Advances cmds _ ch begin ((Parser.within initialInfo [(xs.length : Int)]).parse begin avail)
  rw [Parser.parse_initial begin avail (by simp), if_neg (by omega), hByte]
  exact ⟨rfl, rfl, rfl, h, rfl, (List.append_nil _).symm⟩

theorem advances_bulkHeader {done : List Bytes} {x : Bytes} {xs : List Bytes}
    {todo : List (List Bytes)} (h : Gathering ch done (xs.length + 1)) (hSmall : x.length < 2 ^ 31)
    (hNeed : (lengthText x.length).length ≤ avail)
    (hMem : begin.take avail = (bulkHeader done x xs todo).rest.take avail)
    (hFits : avail ≤ begin.length) :
    Advances cmds (bulkHeader done x xs todo) ch begin
      ((bulkHeader done x xs todo).parser.parse begin avail) := by
  have hReady := (headerReady_iff hMem hFits).mpr ⟨hNeed, hSmall⟩
  rw [lengthText_length] at hNeed
  have hNumber := strtol_header hMem (by omega)
  have hValue : (strtol begin).value = x.length := by
    rw [hNumber]
    dsimp only
    omega
  have hStop : (strtol begin).stop = (natText x.length).length := by rw [hNumber]
  have hTotal := h.total
  obtain ⟨hGathered, hRoom, hClient, hLog⟩ := h.gathered.beginBulkString cmds begin
    (show done.flatten.length + x.length < 2 ^ 63 by omega)
  change Advances cmds _ ch begin
    ((Parser.within bulkStringLengthInfo [(xs.length : Int)]).parse begin avail)
  rw [Parser.parse_bulkStringLength begin avail (by simp), if_pos ⟨by omega, hReady⟩, hValue,
    hStop]
  refine ⟨rfl, rfl, ?_, ⟨⟨hGathered, h.few, h.short⟩, hSmall, hRoom⟩, hClient,
    hLog.trans (List.append_nil _).symm⟩
  simp [need, lengthText_length]

theorem advances_payload {done : List Bytes} {x : Bytes} {xs : List Bytes}
    {todo : List (List Bytes)} (h : Gathering ch done (xs.length + 1)) (hSmall : x.length < 2 ^ 31)
    (hRoom : done.flatten.length + x.length ≤ ch.bufSize) (hNeed : x.length + 2 ≤ avail)
    (hMem : begin.take avail = (payload done x xs todo).rest.take avail) :
    Advances cmds (payload done x xs todo) ch begin
      ((payload done x xs todo).parser.parse begin avail) := by
  have hText : begin.take x.length = x := by
    have hCut := congrArg (List.take x.length) hMem
    rw [List.take_take, List.take_take, Nat.min_eq_left (by omega), rest, List.append_assoc,
      List.take_left] at hCut
    exact hCut
  have hOutput : toInt32 (min (x.length : Int) avail) = x.length := by
    rw [min_eq_left (by omega)]
    exact toInt32_of_small (by omega) (by omega)
  obtain ⟨hGathered, hClient, hLog⟩ := h.gathered.chars_endBulkString cmds begin hRoom
    (Int.sub_zero _) hText (by omega) (by omega)
  change Advances cmds _ ch begin
    ((Parser.within (bulkStringInfo x.length) [(xs.length : Int)]).parse begin avail)
  rw [Parser.parse_bulkString, if_neg (by omega), if_neg (by omega), hOutput,
    if_pos ⟨by omega, by omega⟩]
  refine ⟨rfl, rfl, ?_, ?_, hClient, hLog.trans (List.append_nil _).symm⟩
  · simp [need]
  · have hFew := h.few
    have hCount : (done ++ [x]).length + xs.length = done.length + (xs.length + 1) := by
      simp only [List.length_append, List.length_singleton]
      omega
    refine ⟨by rw [hCount]; exact hGathered, by omega, ?_⟩
    intro y hy
    rcases List.mem_append.mp hy with hy | hy
    · exact h.short y hy
    · exact List.mem_singleton.mp hy ▸ hSmall

/-- Every stage but the last ones advances as soon as its bytes are there,
whatever lies behind them. -/
theorem advances (hHolds : st.Holds ch) (hLast : ¬st.Last) (hNeed : st.need ≤ avail)
    (hMem : begin.take avail = st.rest.take avail) (hFits : avail ≤ begin.length) :
    Advances cmds st ch begin (st.parser.parse begin avail) := by
  cases st with
  | idle todo =>
      cases todo with
      | nil => exact absurd rfl hLast
      | cons xs todo => exact advances_idle hHolds hNeed hMem
  | header xs todo => exact advances_header hHolds (Nat.lt_of_not_le hLast) hNeed hMem hFits
  | array done xs todo =>
      cases xs with
      | nil => exact advances_array_end hHolds
      | cons x xs => exact advances_array_element hHolds
  | element done x xs todo => exact advances_element hHolds hNeed hMem
  | bulkHeader done x xs todo =>
      exact advances_bulkHeader hHolds (Nat.lt_of_not_le hLast) hNeed hMem hFits
  | payload done x xs todo => exact advances_payload hHolds.1 hHolds.2.1 hHolds.2.2 hNeed hMem

end Steps

section Waiting

variable {ρ : Type} {cmds : Commands ρ} {st : Stage} {ch : CommandHandler ρ} {begin : Bytes}
  {avail : Nat}

/-- The parser stops in the stage and nothing has changed. -/
structure Waits (cmds : Commands ρ) (st : Stage) (ch : CommandHandler ρ) (begin : Bytes)
    (out : ParseOutcome) : Prop where
  parser : out.parser = st.parser
  keepGoing : out.keepGoing = false
  newBegin : out.newBegin = 0
  handler : out.calls.foldl (CommandHandler.handle cmds begin) ch = ch

theorem waits_wait : Waits cmds st ch begin st.parser.wait := ⟨rfl, rfl, rfl, rfl⟩

theorem waits_header {n : Nat} {more : Bytes} (hp : st.parser.top.parse = .length)
    (hMem : begin.take avail = (lengthText n ++ more).take avail) (hFits : avail ≤ begin.length)
    (hStop : 2 ^ 31 ≤ n ∨ avail < (lengthText n).length) :
    Waits cmds st ch begin (st.parser.parse begin avail) := by
  have hNot : ¬Parser.HeaderReady begin avail := by
    rw [headerReady_iff hMem hFits]
    omega
  rw [Parser.parse_length begin avail _ hp, Parser.parseLength_eq, if_neg (fun h => hNot h.2)]
  exact waits_wait

theorem waits_payload {done : List Bytes} {x : Bytes} {xs : List Bytes}
    {todo : List (List Bytes)} (h : Gathering ch done (xs.length + 1)) (hStop : avail < x.length + 2)
    (hClean : x = [] ∨ avail = 0 ∨ x.length + 2 ≤ avail) :
    Waits cmds (payload done x xs todo) ch begin
      ((payload done x xs todo).parser.parse begin avail) := by
  change Waits cmds _ ch begin
    ((Parser.within (bulkStringInfo x.length) [(xs.length : Int)]).parse begin avail)
  rw [Parser.parse_bulkString, if_neg (by omega)]
  split
  · exact waits_wait
  · obtain rfl : x = [] := by
      rcases hClean with hNil | hZero | hAll
      · exact hNil
      · omega
      · omega
    have hOutput : toInt32 (min (([] : Bytes).length : Int) avail) = 0 := by
      rw [min_eq_left (by simp)]
      rfl
    rw [hOutput, if_neg (by simp at hStop ⊢; omega)]
    exact ⟨rfl, rfl, rfl, h.gathered.chars_nil cmds begin⟩

/-- Without the bytes for its step a stage waits, if the range does not end in
the middle of a payload. -/
theorem waits (hHolds : st.Holds ch) (hStop : st.Last ∨ avail < st.need) (hClean : st.Clean avail)
    (hMem : begin.take avail = st.rest.take avail) (hFits : avail ≤ begin.length)
    (hRest : avail ≤ st.rest.length) : Waits cmds st ch begin (st.parser.parse begin avail) := by
  cases st with
  | idle todo =>
      have hZero : avail = 0 := by
        rcases hStop with hNil | hShort
        · rw [Last] at hNil
          subst hNil
          simpa [rest, encodeCommands] using hRest
        · cases todo with
          | nil => cases hShort
          | cons xs todo => exact Nat.lt_one_iff.mp hShort
      subst hZero
      exact waits_wait
  | header xs todo => exact waits_header rfl hMem hFits hStop
  | array done xs todo =>
      rcases hStop with hFalse | hShort
      · exact hFalse.elim
      · cases hShort
  | element done x xs todo =>
      have hZero : avail = 0 := by
        rcases hStop with hFalse | hShort
        · exact hFalse.elim
        · exact Nat.lt_one_iff.mp hShort
      subst hZero
      exact waits_wait
  | bulkHeader done x xs todo => exact waits_header rfl hMem hFits hStop
  | payload done x xs todo =>
      exact waits_payload hHolds.1 (hStop.resolve_left (fun h => h)) hClean

end Waiting

/-- Arrays step on without input, everything else takes at least one byte. -/
def weight (st : Stage) : Nat :=
  2 * st.rest.length +
    match st with
    | array _ _ _ => 1
    | _ => 0

theorem weight_next_lt {st : Stage} (h : ¬st.Last) : st.next.weight < st.weight := by
  have hRest : st.next.rest.length = st.rest.length - st.need := by
    rw [← rest_drop_need, List.length_drop]
  have hNeed := st.need_le
  cases st with
  | idle todo =>
      cases todo with
      | nil => exact absurd rfl h
      | cons xs todo =>
          simp only [next, need, weight] at hRest hNeed ⊢
          omega
  | header xs todo =>
      simp only [next, need, weight, lengthText_length] at hRest hNeed ⊢
      omega
  | array done xs todo =>
      cases xs <;> simp [next, weight, rest]
  | element done x xs todo =>
      simp only [next, need, weight] at hRest hNeed ⊢
      omega
  | bulkHeader done x xs todo =>
      simp only [next, need, weight, lengthText_length] at hRest hNeed ⊢
      omega
  | payload done x xs todo =>
      simp only [next, need, weight] at hRest hNeed ⊢
      omega

end Stage

section Calls

variable {ρ : Type} {cmds : Commands ρ} {r : Range} {late : Nat} {s : ParserRun (CommandHandler ρ)}
  {st : Stage}

/-- The handler `next` has run the commands `ran` since it was `ch`. -/
structure Ran (cmds : Commands ρ) (ch next : CommandHandler ρ) (ran : List (List Bytes)) : Prop where
  invocations : next.invocations = ch.invocations ++ ran
  client : next.client = ran.foldl (fun client xs => handleCommand cmds xs client) ch.client

theorem Ran.refl (ch : CommandHandler ρ) : Ran cmds ch ch [] := ⟨(List.append_nil _).symm, rfl⟩

theorem Ran.trans {ch next last : CommandHandler ρ} {first second : List (List Bytes)}
    (h₁ : Ran cmds ch next first) (h₂ : Ran cmds next last second) :
    Ran cmds ch last (first ++ second) where
  invocations := by rw [h₂.invocations, h₁.invocations, List.append_assoc]
  client := by rw [h₂.client, h₁.client, List.foldl_append]

theorem handleCommand_not_awaiting {client : Client ρ} (h : ¬client.AwaitingSnapshot)
    (xs : List Bytes) : ¬(handleCommand cmds xs client).AwaitingSnapshot := by
  rintro ⟨hType, hState⟩
  simp only [handleCommand] at hType
  split at hType
  · cases hType
  · exact h ⟨hType, hState⟩

theorem Ran.not_awaiting {ch next : CommandHandler ρ} {ran : List (List Bytes)}
    (h : Ran cmds ch next ran) (hClient : ¬ch.client.AwaitingSnapshot) :
    ¬next.client.AwaitingSnapshot := by
  have hFold : ∀ (ran : List (List Bytes)) (client : Client ρ), ¬client.AwaitingSnapshot →
      ¬(ran.foldl (fun client xs => handleCommand cmds xs client) client).AwaitingSnapshot := by
    intro ran
    induction ran with
    | nil => exact fun _ hClient => hClient
    | cons xs ran ih =>
        exact fun client hClient => ih _ (handleCommand_not_awaiting hClient xs)
  rw [h.client]
  exact hFold ran ch.client hClient

/-- The loop is in the stage: the unread bytes of the range are the next ones
of the stream, and the last `late` bytes of the stream have not come yet. -/
structure InStage (r : Range) (late : Nat) (s : ParserRun (CommandHandler ρ)) (st : Stage) :
    Prop where
  parser : s.parser = st.parser
  holds : st.Holds s.handler
  listening : ¬s.handler.client.AwaitingSnapshot
  low : 0 ≤ s.begin
  high : s.begin ≤ r.stop
  length : (st.rest.length : Int) = r.stop - s.begin + late
  bytes : (r.mem.drop s.begin.toNat).take (r.stop - s.begin.toNat) =
    st.rest.take (r.stop - s.begin.toNat)

/-- How many unread bytes there are. -/
def unread (r : Range) (s : ParserRun (CommandHandler ρ)) : Nat := r.stop - s.begin.toNat

/-- A call that started in the stage `st`, with the handler `ch`, has come `k`
stages further and has no bytes for another one. -/
structure Stopped (cmds : Commands ρ) (r : Range) (late : Nat) (st : Stage) (ch : CommandHandler ρ)
    (t : ParserRun (CommandHandler ρ)) (k : Nat) (ran : List (List Bytes)) : Prop where
  inStage : InStage r late t (Stage.next^[k] st)
  before : ∀ j < k, ¬(Stage.next^[j] st).Last
  waits : (Stage.next^[k] st).Last ∨ unread r t < (Stage.next^[k] st).need
  executed : Ran cmds ch t.handler ran
  pending : st.pending = ran ++ (Stage.next^[k] st).pending

namespace InStage

theorem outcome_eq (h : InStage r late s st) :
    s.outcome r = st.parser.parse (r.mem.drop s.begin.toNat) (unread r s) := by
  have hLow := h.low
  have hHigh := h.high
  have hAvail : (r.stop : Int) - s.begin = ((unread r s : Nat) : Int) := by
    unfold unread
    omega
  rw [ParserRun.outcome, Range.suffix, if_neg (by omega), hAvail, h.parser]

theorem suffix_eq (h : InStage r late s st) : r.suffix s.begin = r.mem.drop s.begin.toNat := by
  have hLow := h.low
  rw [Range.suffix, if_neg (by omega)]

theorem not_awaiting (h : InStage r late s st) :
    (createHandler cmds).awaitingSnapshot s.handler = false :=
  decide_eq_false h.listening

theorem fits (h : InStage r late s st) : unread r s ≤ (r.mem.drop s.begin.toNat).length := by
  have hHigh := h.high
  have hFits := r.fits
  rw [List.length_drop]
  unfold unread
  omega

theorem unread_le (h : InStage r late s st) : unread r s ≤ st.rest.length := by
  have hLow := h.low
  have hHigh := h.high
  have hLength := h.length
  unfold unread
  omega

theorem unread_eq (h : InStage r late s st) : unread r s = st.rest.length - late := by
  have hLow := h.low
  have hHigh := h.high
  have hLength := h.length
  unfold unread
  omega

variable (cmds)

/-- With the bytes for the step there, the loop goes on in the next stage. -/
theorem continues (h : InStage r late s st) (hLast : ¬st.Last) (hNeed : st.need ≤ unread r s) :
    ∃ t, Continues (parserStep (createHandler cmds) r) s t ∧ InStage r late t st.next ∧
      Ran cmds s.handler t.handler st.executes := by
  have hStep : Stage.Advances cmds st s.handler (r.mem.drop s.begin.toNat) (s.outcome r) := by
    rw [h.outcome_eq]
    exact Stage.advances h.holds hLast hNeed h.bytes h.fits
  have hNext : Continues (parserStep (createHandler cmds) r) s
      ⟨st.next.parser, (s.outcome r).calls.foldl
        (CommandHandler.handle cmds (r.mem.drop s.begin.toNat)) s.handler, s.begin + st.need⟩ := by
    rw [Continues, parserStep_of_not_awaiting h.not_awaiting, hStep.parser, hStep.newBegin,
      hStep.keepGoing, h.suffix_eq]
    rfl
  have hRan : Ran cmds s.handler ((s.outcome r).calls.foldl
      (CommandHandler.handle cmds (r.mem.drop s.begin.toNat)) s.handler) st.executes :=
    ⟨hStep.invocations, hStep.client⟩
  have hLow := h.low
  have hHigh := h.high
  have hLength := h.length
  have hRest := st.need_le
  have hDrop : st.next.rest.length = st.rest.length - st.need := by
    rw [← Stage.rest_drop_need, List.length_drop]
  unfold unread at hNeed
  refine ⟨_, hNext, ⟨rfl, hStep.holds, hRan.not_awaiting h.listening, ?_, ?_, ?_, ?_⟩, hRan⟩
  · dsimp only
    omega
  · dsimp only
    omega
  · dsimp only
    omega
  · dsimp only
    have hBegin : (s.begin + st.need).toNat = s.begin.toNat + st.need := by omega
    have hCut := congrArg (List.drop st.need) h.bytes
    rw [List.drop_take, List.drop_take, List.drop_drop, Stage.rest_drop_need] at hCut
    rw [hBegin, Nat.sub_add_eq]
    exact hCut

/-- The loop comes to a later stage if all bytes up to there have come. -/
theorem visits (h : InStage r late s st) (k : Nat)
    (hSteps : ∀ j < k, ¬(Stage.next^[j] st).Last ∧
      (Stage.next^[j] st).need ≤ (Stage.next^[j] st).rest.length - late) :
    ∃ t ran, Visits (parserStep (createHandler cmds) r) s t ∧
      InStage r late t (Stage.next^[k] st) ∧ Ran cmds s.handler t.handler ran ∧
      st.pending = ran ++ (Stage.next^[k] st).pending := by
  induction k generalizing s st with
  | zero => exact ⟨s, [], Relation.ReflTransGen.refl, h, Ran.refl _, rfl⟩
  | succ k ih =>
      obtain ⟨hLast, hNeed⟩ := hSteps 0 (Nat.succ_pos k)
      obtain ⟨m, hNext, hIn, hRan⟩ := h.continues cmds hLast
        (by rw [h.unread_eq]; exact hNeed)
      obtain ⟨t, ran, hVisits, hThere, hRanRest, hPending⟩ :=
        ih hIn (fun j hj => hSteps (j + 1) (Nat.succ_lt_succ hj))
      refine ⟨t, st.executes ++ ran, hVisits.head hNext, hThere, hRan.trans hRanRest, ?_⟩
      rw [st.pending_eq, hPending, List.append_assoc]
      rfl

/-- Otherwise it stops where it is. -/
theorem stops (h : InStage r late s st) (hStop : st.Last ∨ unread r s < st.need)
    (hClean : st.Clean (unread r s)) :
    parserStep (createHandler cmds) r s = (s, false) := by
  have hWaits : Stage.Waits cmds st s.handler (r.mem.drop s.begin.toNat) (s.outcome r) := by
    rw [h.outcome_eq]
    exact Stage.waits h.holds hStop hClean h.bytes h.fits h.unread_le
  rw [parserStep_of_not_awaiting h.not_awaiting, hWaits.parser, hWaits.newBegin, hWaits.keepGoing,
    h.suffix_eq]
  change (ParserRun.mk _ ((s.outcome r).calls.foldl
    (CommandHandler.handle cmds (r.mem.drop s.begin.toNat)) s.handler) _, false) = _
  rw [hWaits.handler, ← h.parser, Int.add_zero]

/-- The call runs through the stages until one lacks its bytes. -/
theorem ends (h : InStage r late s st)
    (hClean : ∀ k, (Stage.next^[k] st).Clean ((Stage.next^[k] st).rest.length - late)) :
    ∃ t k ran, Ends (parserStep (createHandler cmds) r) s t ∧
      Stopped cmds r late st s.handler t k ran := by
  induction hWeight : st.weight using Nat.strong_induction_on generalizing s st with
  | _ weight ih =>
      by_cases hStop : st.Last ∨ unread r s < st.need
      · have hHere : st.Clean (unread r s) := by
          rw [h.unread_eq]
          exact hClean 0
        exact ⟨s, 0, [], Ends.of_stop (h.stops cmds hStop hHere), h,
          fun j hj => absurd hj (Nat.not_lt_zero j), hStop, Ran.refl _, rfl⟩
      · obtain ⟨hLast, hNeed⟩ := not_or.mp hStop
        obtain ⟨t, hNext, hIn, hRan⟩ := h.continues cmds hLast (Nat.le_of_not_lt hNeed)
        obtain ⟨u, k, ran, hEnds, hStopped⟩ :=
          ih _ (hWeight ▸ Stage.weight_next_lt hLast) hIn
            (fun k => by simpa only [Function.iterate_succ_apply] using hClean (k + 1)) rfl
        refine ⟨u, k + 1, st.executes ++ ran, hEnds.of_continues hNext, hStopped.inStage, ?_,
          hStopped.waits, hRan.trans hStopped.executed, ?_⟩
        · intro j hj
          cases j with
          | zero => exact hLast
          | succ j => exact hStopped.before j (Nat.lt_of_succ_lt_succ hj)
        · rw [st.pending_eq, hStopped.pending, List.append_assoc]
          rfl

end InStage

/-- An idle parser stands at the start of any stream. -/
theorem inStage_start {commands : List (List Bytes)} {ch : CommandHandler ρ}
    (hRun : ch.status = .running) (hClient : ¬ch.client.AwaitingSnapshot)
    (hRest : (encodeCommands commands).length = r.stop + late)
    (hBytes : r.mem.take r.stop = (encodeCommands commands).take r.stop) :
    InStage r late ⟨parserInit, ch, 0⟩ (.idle commands) where
  parser := rfl
  holds := hRun
  listening := hClient
  low := le_rfl
  high := by dsimp only; omega
  length := by
    change ((encodeCommands commands).length : Int) = _
    rw [hRest]
    dsimp only
    omega
  bytes := hBytes

theorem length_le_flatMap_encodeBulkString (xs : List Bytes) :
    xs.length ≤ (xs.flatMap encodeBulkString).length := by
  induction xs with
  | nil => exact le_rfl
  | cons x xs ih =>
      rw [List.flatMap_cons, List.length_append, List.length_cons, encodeBulkString,
        List.length_cons]
      omega

/-- Every stage that has all its bytes and is not too long for the parser to
read is followed by another one, down to the end of the stream. -/
theorem Stage.eq_idle_of_last {st : Stage} (hLast : st.Last) (hLength : st.rest.length < 2 ^ 31) :
    st = .idle [] := by
  cases st with
  | idle todo => exact congrArg Stage.idle hLast
  | header xs todo =>
      have hMany : 2 ^ 31 ≤ xs.length := hLast
      have hBytes := length_le_flatMap_encodeBulkString xs
      simp only [rest, List.length_append] at hLength
      omega
  | bulkHeader done x xs todo =>
      have hLong : 2 ^ 31 ≤ x.length := hLast
      simp only [rest, List.length_append] at hLength
      omega
  | array done xs todo => exact hLast.elim
  | element done x xs todo => exact hLast.elim
  | payload done x xs todo => exact hLast.elim

/-- With nothing late no stage is cut. -/
theorem Stage.clean_whole (st : Stage) : st.Clean (st.rest.length - 0) := by
  cases st with
  | payload done x xs todo =>
      right
      right
      simp [rest]
  | _ => trivial

/-- A call on a whole stream ends in the first stage with no step. -/
theorem exists_whole (cmds : Commands ρ) {commands : List (List Bytes)} (ch : CommandHandler ρ)
    (hRun : ch.status = .running) (hClient : ¬ch.client.AwaitingSnapshot)
    (hBytes : r.mem.take r.stop = encodeCommands commands) :
    ∃ whole k ran, ParserParse (createHandler cmds) r parserInit ch whole ∧
      InStage r 0 whole (Stage.next^[k] (.idle commands)) ∧
      (∀ j < k, ¬(Stage.next^[j] (.idle commands)).Last) ∧
      (Stage.next^[k] (.idle commands)).Last ∧ Ran cmds ch whole.handler ran ∧
      ran ++ (Stage.next^[k] (.idle commands)).pending = commands := by
  have hRest : (encodeCommands commands).length = r.stop + 0 := by
    rw [← hBytes, List.length_take, Nat.min_eq_left r.fits, Nat.add_zero]
  have hStart : InStage r 0 ⟨parserInit, ch, 0⟩ (.idle commands) :=
    inStage_start hRun hClient hRest (by rw [← hBytes, List.take_take, Nat.min_self])
  obtain ⟨whole, k, ran, hEnds, hIn, hBefore, hStop, hRan, hPending⟩ :=
    hStart.ends cmds (fun k => Stage.clean_whole _)
  refine ⟨whole, k, ran, hEnds, hIn, hBefore, hStop.resolve_right (Nat.not_lt_of_le ?_), hRan,
    hPending.symm⟩
  have hLow := hIn.low
  have hHigh := hIn.high
  have hAll := hIn.length
  have hNeed := (Stage.next^[k] (.idle commands)).need_le
  unfold unread
  omega

/-- Such a call ends at the end of the range and has run every command. -/
theorem ends_whole (cmds : Commands ρ) {commands : List (List Bytes)} (ch : CommandHandler ρ)
    (hRun : ch.status = .running) (hClient : ¬ch.client.AwaitingSnapshot)
    (hBytes : r.mem.take r.stop = encodeCommands commands) (hLength : r.stop < 2 ^ 31) :
    ∃ last, ParserParse (createHandler cmds) r parserInit ch last ∧
      last.begin = r.stop ∧ last.parser.stackTop = 0 ∧ last.handler.status = .running ∧
      Ran cmds ch last.handler commands := by
  obtain ⟨last, k, ran, hEnds, hIn, -, hLast, hRan, hAllRan⟩ :=
    exists_whole cmds ch hRun hClient hBytes
  have hLow := hIn.low
  have hAll := hIn.length
  have hIdle := Stage.eq_idle_of_last hLast (by omega)
  rw [hIdle] at hIn hAll hAllRan
  obtain rfl : ran = commands := (List.append_nil ran).symm.trans hAllRan
  refine ⟨last, hEnds, ?_, ?_, hIn.holds, hRan⟩
  · simp only [Stage.rest, encodeCommands, List.flatMap_nil, List.length_nil] at hAll
    omega
  · rw [hIn.parser]
    rfl

/-- A stream of commands that lies completely in the range is decoded exactly:
the call ends at the end of the range with only the terminal state on the
stack, and each command has been run once, in order, on its payloads. -/
theorem pipelined_decode_exact (cmds : Commands ρ) (client : Client ρ)
    (hRegular : client.type = .regular) (bufSize argCapacity : Nat)
    (commands : List (List Bytes)) (r : Range)
    (hBytes : r.mem.take r.stop = encodeCommands commands) (hLength : r.stop < 2 ^ 31) :
    ∃ last, ParserParse (createHandler cmds) r parserInit
        (createCommandHandler client bufSize argCapacity) last ∧
      last.begin = r.stop ∧ last.parser.stackTop = 0 ∧ last.handler.status = .running ∧
      last.handler.invocations = commands := by
  have hClient : ¬client.AwaitingSnapshot := by simp [Client.AwaitingSnapshot, hRegular]
  obtain ⟨last, hEnds, hBegin, hStack, hRunning, hRan⟩ :=
    ends_whole cmds (createCommandHandler client bufSize argCapacity) rfl hClient hBytes hLength
  exact ⟨last, hEnds, hBegin, hStack, hRunning, hRan.invocations⟩

/-- Two commands in one buffer, the second with a line break in a payload, and
the start of a third behind the range. -/
theorem pipelined_decode_two :
    ∃ last, ParserParse (createHandler idleCommands)
        ⟨ascii ['*', '1', '\r', '\n', '$', '4', '\r', '\n', 'P', 'I', 'N', 'G', '\r', '\n', '*', '2',
          '\r', '\n', '$', '4', '\r', '\n', 'E', 'C', 'H', 'O', '\r', '\n', '$', '3', '\r', '\n', 'a',
          '\r', '\n', '\r', '\n', '*'], 37, by decide⟩
        parserInit (createCommandHandler idleClient 256 10) last ∧
      last.begin = (37 : Nat) ∧ last.parser.stackTop = 0 ∧ last.handler.status = .running ∧
      last.handler.invocations =
        [[ascii ['P', 'I', 'N', 'G']],
          [ascii ['E', 'C', 'H', 'O'], ascii ['a', '\r', '\n']]] :=
  pipelined_decode_exact _ _ rfl 256 10 _ _ (by decide) (by decide)

end Calls

end RedisServer
