import RedisServer.Machine.CText
import RedisServer.Machine.Loop

/-! The request parser of `resp.c`: a stack of states, each with the function
that reads on from it. A parse function sees the memory from its `begin` on,
which reaches past `end`, and the number of bytes before `end`; positions are
counted from its own `begin`. It reports the handler callbacks it makes, in
order, and never looks at what they did. -/
namespace RedisServer

open Machine

inductive ParserState where
  | initialTerminal
  | initial
  | simple
  | arrayLength
  | bulkStringLength
  | bulkString
  | array
  | error
  | integer
  | inlineCommand
  deriving DecidableEq

/-- The function a stack entry points to. -/
inductive ParseFunc where
  | initial
  | simple
  | length
  | bulkString
  | array
  | inlineCommand
  deriving DecidableEq

/-- The callbacks of the handler. `chars` has the two ends of its range. -/
inductive Callback where
  | beginArray (len : Int)
  | endArray
  | beginBulkString (len : Int)
  | endBulkString
  | chars (first last : Int)
  | beginSimpleString
  | endSimpleString
  | beginError
  | endError
  | beginInteger
  | endInteger
  deriving DecidableEq

/-- The end callback is `none` for the null pointer. -/
structure StateInfo where
  type : ParserState
  length : Int
  parse : ParseFunc
  endCallback : Option Callback
  deriving DecidableEq

def maxStackDepth : Nat := 32

/-- The used part of the stack: its top entry and those below it. -/
structure Parser where
  top : StateInfo
  below : List StateInfo
  deriving DecidableEq

namespace Parser

def stackTop (p : Parser) : Nat := p.below.length

/-- A push on a full stack is dropped without notice. -/
def pushState (p : Parser) (state : ParserState) (length : Int) (parse : ParseFunc)
    (endCallback : Option Callback) : Parser :=
  if p.stackTop < maxStackDepth - 1 then ⟨⟨state, length, parse, endCallback⟩, p.top :: p.below⟩
  else p

def popState (p : Parser) : Parser :=
  match p.below with
  | [] => p
  | top :: below => ⟨top, below⟩

end Parser

def parserInit : Parser := ⟨⟨.initialTerminal, 0, .initial, none⟩, []⟩

/-- What a parse function leaves behind: the parser, the callbacks it made, and
its `ParseResult`. -/
structure ParseOutcome where
  parser : Parser
  calls : List Callback
  keepGoing : Bool
  newBegin : Int

/-- The byte at a position; past the end of memory there is a NUL. -/
def byteAt (begin : Bytes) (i : Nat) : UInt8 := begin.getD i 0

/-- Where a scan for a carriage return stops: at one, or at `end`. -/
def scanCr (begin : Bytes) (avail : Int) : Nat :=
  ((begin.take avail.toNat).takeWhile (· ≠ 13)).length

namespace Parser

/-- Return without progress and wait for more input. -/
def wait (p : Parser) : ParseOutcome := ⟨p, [], false, 0⟩

def parseInitial (p : Parser) (begin : Bytes) (avail : Int) : ParseOutcome :=
  if avail = 0 then p.wait
  else
    let p := if p.top.type = .initial then p.popState else p
    let c := byteAt begin 0
    if c = 43 then
      ⟨p.pushState .simple 0 .simple (some .endSimpleString), [.beginSimpleString], true, 1⟩
    else if c = 45 then ⟨p.pushState .simple 0 .simple (some .endError), [.beginError], true, 1⟩
    else if c = 58 then ⟨p.pushState .simple 0 .simple (some .endInteger), [.beginInteger], true, 1⟩
    else if c = 36 then
      ⟨p.pushState .bulkStringLength 0 .length (some .endBulkString), [], true, 1⟩
    else if c = 42 then ⟨p.pushState .arrayLength 0 .length (some .endArray), [], true, 1⟩
    else ⟨p.pushState .inlineCommand 0 .inlineCommand none, [], true, 0⟩

def parseSimple (p : Parser) (begin : Bytes) (avail : Int) : ParseOutcome :=
  if avail = 0 then p.wait
  else
    let pos := scanCr begin avail
    if avail - pos < 2 then ⟨p, [.chars 0 pos], false, pos⟩
    else if byteAt begin (pos + 1) = 10 then
      ⟨p.popState, .chars 0 pos :: p.top.endCallback.toList, true, pos + 2⟩
    else ⟨p, [.chars 0 pos], false, pos⟩

def parseLength (p : Parser) (begin : Bytes) (avail : Int) : ParseOutcome :=
  if avail = 0 then p.wait
  else
    let number := strtol begin
    if number.stop = 0 ∨ avail - 1 ≤ number.stop ∨ number.erange = true then p.wait
    else if byteAt begin number.stop ≠ 13 ∨ byteAt begin (number.stop + 1) ≠ 10 then p.wait
    else if 2 ^ 31 - 1 < number.value ∨ number.value < -2 ^ 31 then p.wait
    else if p.top.type = .arrayLength then
      ⟨p.popState.pushState .array number.value .array (some .endArray),
        [.beginArray number.value], true, number.stop + 2⟩
    else if p.top.type = .bulkStringLength then
      ⟨p.popState.pushState .bulkString number.value .bulkString (some .endBulkString),
        [.beginBulkString number.value], true, number.stop + 2⟩
    else p.wait

/-- The length that is left is a local variable of the source: the stack entry
keeps the announced length even when only a part of the payload was there. -/
def parseBulkString (p : Parser) (_begin : Bytes) (avail : Int) : ParseOutcome :=
  let length := p.top.length
  if length = -1 then ⟨p.popState, [.endBulkString], true, 0⟩
  else if avail = 0 then p.wait
  else
    let outputLength := toInt32 (min length avail)
    if length - outputLength = 0 ∧ outputLength + 2 ≤ avail then
      ⟨p.popState, [.chars 0 outputLength, .endBulkString], true, outputLength + 2⟩
    else ⟨p, [.chars 0 outputLength], false, outputLength⟩

def parseArray (p : Parser) (_begin : Bytes) (_avail : Int) : ParseOutcome :=
  let length := p.top.length
  if length = 0 ∨ length = -1 then ⟨p.popState, [.endArray], true, 0⟩
  else
    let p : Parser := { p with top := { p.top with length := length - 1 } }
    ⟨p.pushState .initial 0 .initial none, [], true, 0⟩

end Parser

/-- The locals of `count_tokens`; the quote is 0 outside quotes. -/
structure TokenCount where
  tokenCount : Nat
  inToken : Bool
  quoteChar : UInt8

def TokenCount.next (t : TokenCount) (c : UInt8) : TokenCount :=
  if t.quoteChar ≠ 0 then if c = t.quoteChar then { t with quoteChar := 0 } else t
  else if c = 39 ∨ c = 34 then
    { tokenCount := if t.inToken then t.tokenCount else t.tokenCount + 1
      inToken := true
      quoteChar := c }
  else if c = 32 then { t with inToken := false }
  else if t.inToken then t
  else { t with tokenCount := t.tokenCount + 1, inToken := true }

/-- The count goes on to the next NUL, beyond the end of the line. -/
def countTokens (str : Bytes) : Nat := ((cString str).foldl TokenCount.next ⟨0, false, 0⟩).tokenCount

/-- The tokens of an inline command as callbacks. The line ends before its
carriage return. After a closing quote one more byte is skipped. -/
def inlineTokens (line : Bytes) : Nat → Nat → List Callback
  | 0, _ => []
  | fuel + 1, start =>
      let tokenStart := start + ((line.drop start).takeWhile (· = 32)).length
      if line.length ≤ tokenStart then []
      else
        let c := byteAt line tokenStart
        if c = 34 ∨ c = 39 then
          let first := tokenStart + 1
          let last := first + ((line.drop first).takeWhile (· ≠ c)).length
          let next := if last < line.length then last + 1 else last
          .beginBulkString (last - first : Nat) :: .chars first last :: .endBulkString ::
            inlineTokens line fuel (next + 1)
        else
          let last := tokenStart + ((line.drop tokenStart).takeWhile (· ≠ 32)).length
          let next := if last < line.length then last + 1 else last
          .beginBulkString (last - tokenStart : Nat) :: .chars tokenStart last :: .endBulkString ::
            inlineTokens line fuel next

namespace Parser

def parseInlineCommand (p : Parser) (begin : Bytes) (avail : Int) : ParseOutcome :=
  if avail = 0 then p.wait
  else
    let pos := scanCr begin avail
    if (pos : Int) ≠ avail then
      ⟨p.popState,
        .beginArray (countTokens begin) :: inlineTokens (begin.take pos) (pos + 1) 0 ++ [.endArray],
        true, pos + 2⟩
    else p.wait

/-- Call the function of the top entry. -/
def parse (p : Parser) (begin : Bytes) (avail : Int) : ParseOutcome :=
  match p.top.parse with
  | .initial => p.parseInitial begin avail
  | .simple => p.parseSimple begin avail
  | .length => p.parseLength begin avail
  | .bulkString => p.parseBulkString begin avail
  | .array => p.parseArray begin avail
  | .inlineCommand => p.parseInlineCommand begin avail

end Parser

/-- The memory from `begin` on, of which the first `stop` bytes are the range
that `parser_parse` is given. What lies behind them is whatever was there. -/
structure Range where
  mem : Bytes
  stop : Nat
  fits : stop ≤ mem.length

/-- The memory from a position on. In front of the range nothing is known. -/
def Range.suffix (r : Range) (pos : Int) : Bytes := if pos < 0 then [] else r.mem.drop pos.toNat

/-- How the callbacks act on the handler, given the memory their positions
refer to, and when the loop leaves the input to the snapshot receiver. -/
structure Handler (σ : Type) where
  handle : Bytes → σ → Callback → σ
  awaitingSnapshot : σ → Bool

/-- The variables of the loop: `begin` is a position in the range. -/
structure ParserRun (σ : Type) where
  parser : Parser
  handler : σ
  begin : Int

section Parse

variable {σ : Type} (h : Handler σ) (r : Range)

/-- What the top parse function does in this iteration. -/
def ParserRun.outcome (s : ParserRun σ) : ParseOutcome :=
  s.parser.parse (r.suffix s.begin) (r.stop - s.begin)

/-- One iteration of the loop of `parser_parse`. -/
def parserStep (s : ParserRun σ) : ParserRun σ × Bool :=
  if h.awaitingSnapshot s.handler then (s, false)
  else
    let out := s.outcome r
    (⟨out.parser, out.calls.foldl (h.handle (r.suffix s.begin)) s.handler, s.begin + out.newBegin⟩,
      out.keepGoing)

/-- `parser_parse` on a range, started with this parser and handler, returns
in this state. -/
def ParserParse (p : Parser) (ch : σ) (last : ParserRun σ) : Prop :=
  Ends (parserStep h r) ⟨p, ch, 0⟩ last

end Parse

end RedisServer
