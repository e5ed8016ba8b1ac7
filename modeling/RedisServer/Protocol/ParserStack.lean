import RedisServer.Protocol.Frames

/-! The stack of the parser as the array it is. What a parse function does to it
is a sequence of pushes and pops, which depends on the top entry and the input
alone. The array refines the list of its used entries, on which the parse
functions were described. -/
namespace RedisServer

open Machine

/-- The calls of `push_state` and `pop_state`, and the `length--` of an array. -/
inductive StackOp where
  | push (info : StateInfo)
  | pop
  | countDown

/-- The state that is pushed for the first byte of a message. -/
def messageInfo (c : UInt8) : StateInfo :=
  if c = 43 then simpleInfo .endSimpleString
  else if c = 45 then simpleInfo .endError
  else if c = 58 then simpleInfo .endInteger
  else if c = 36 then bulkStringLengthInfo
  else if c = 42 then arrayLengthInfo
  else inlineCommandInfo

/-- What the parse function of this entry does to the stack, in order. -/
def stackOps (top : StateInfo) (begin : Bytes) (avail : Int) : List StackOp :=
  match top.parse with
  | .initial =>
      if avail = 0 then []
      else if top.type = .initial then [.pop, .push (messageInfo (byteAt begin 0))]
      else [.push (messageInfo (byteAt begin 0))]
  | .simple =>
      if avail = 0 ∨ avail - scanCr begin avail < 2 then []
      else if byteAt begin (scanCr begin avail + 1) = 10 then [.pop]
      else []
  | .length =>
      if avail ≠ 0 ∧ Parser.HeaderReady begin avail then
        if top.type = .arrayLength then [.pop, .push (arrayInfo (strtol begin).value)]
        else if top.type = .bulkStringLength then
          [.pop, .push (bulkStringInfo (strtol begin).value)]
        else []
      else []
  | .bulkString =>
      if top.length = -1 then [.pop]
      else if avail = 0 then []
      else if top.length - toInt32 (min top.length avail) = 0 ∧
          toInt32 (min top.length avail) + 2 ≤ avail then [.pop]
      else []
  | .array =>
      if top.length = 0 ∨ top.length = -1 then [.pop] else [.countDown, .push initialInfo]
  | .inlineCommand => if avail ≠ 0 ∧ (scanCr begin avail : Int) ≠ avail then [.pop] else []

namespace Parser

def apply (p : Parser) : StackOp → Parser
  | .push info => p.pushState info.type info.length info.parse info.endCallback
  | .pop => p.popState
  | .countDown => { p with top := { p.top with length := p.top.length - 1 } }

/-- The parse functions do nothing else to the stack. -/
theorem parse_eq_foldl_apply (p : Parser) (begin : Bytes) (avail : Int) :
    (p.parse begin avail).parser = (stackOps p.top begin avail).foldl apply p := by
  unfold parse stackOps
  cases hParse : p.top.parse with
  | initial =>
      simp only [parseInitial, messageInfo]
      split_ifs <;> rfl
  | simple =>
      simp only [parseSimple]
      split_ifs <;> first | rfl | omega
  | length =>
      dsimp only
      rw [parseLength_eq]
      split_ifs <;> rfl
  | bulkString =>
      simp only [parseBulkString]
      split_ifs <;> rfl
  | array =>
      simp only [parseArray]
      split_ifs <;> rfl
  | inlineCommand =>
      simp only [parseInlineCommand]
      split_ifs <;> first | rfl | omega

/-- Any number of calls, each on its own input. -/
def parses (p : Parser) (inputs : List (Bytes × Int)) : Parser :=
  inputs.foldl (fun p input => (p.parse input.1 input.2).parser) p

end Parser

/-- The two fields of the parser. Above `stackTop` there is what was left there. -/
structure ParserArray where
  stack : Nat → StateInfo
  stackTop : Int

namespace ParserArray

/-- `parser_init` on memory that was not set. -/
def init (memory : Nat → StateInfo) : ParserArray := ⟨Function.update memory 0 terminalInfo, 0⟩

def top (a : ParserArray) : StateInfo := a.stack a.stackTop.toNat

def pushState (a : ParserArray) (info : StateInfo) : ParserArray :=
  if a.stackTop < maxStackDepth - 1 then
    ⟨Function.update a.stack (a.stackTop + 1).toNat info, a.stackTop + 1⟩
  else a

def popState (a : ParserArray) : ParserArray :=
  if a.stackTop > 0 then { a with stackTop := a.stackTop - 1 } else a

def apply (a : ParserArray) : StackOp → ParserArray
  | .push info => a.pushState info
  | .pop => a.popState
  | .countDown => { a with
      stack := Function.update a.stack a.stackTop.toNat { a.top with length := a.top.length - 1 } }

/-- One call of the parse function of the top entry. -/
def parse (a : ParserArray) (begin : Bytes) (avail : Int) : ParserArray :=
  (stackOps a.top begin avail).foldl apply a

def parses (a : ParserArray) (inputs : List (Bytes × Int)) : ParserArray :=
  inputs.foldl (fun a input => a.parse input.1 input.2) a

/-- The used part of the array, from the bottom to the top. -/
def used (a : ParserArray) : List StateInfo := (List.range (a.stackTop.toNat + 1)).map a.stack

/-- The array holds the entries of this stack. -/
structure Represents (a : ParserArray) (p : Parser) : Prop where
  stackTop : a.stackTop = p.stackTop
  used : a.used = (p.top :: p.below).reverse

section Operations

variable {a : ParserArray} {p : Parser}

theorem used_eq (a : ParserArray) :
    a.used = (List.range a.stackTop.toNat).map a.stack ++ [a.top] := by
  rw [used, List.range_succ, List.map_append]
  rfl

theorem Represents.split (h : a.Represents p) :
    a.stackTop = p.below.length ∧ (List.range p.below.length).map a.stack = p.below.reverse ∧
      a.top = p.top := by
  have hTop : a.stackTop = p.below.length := h.stackTop
  have hUsed := h.used
  rw [used_eq, List.reverse_cons, hTop, Int.toNat_natCast] at hUsed
  obtain ⟨hBelow, hLast⟩ := List.append_inj' hUsed rfl
  exact ⟨hTop, hBelow, List.singleton_inj.mp hLast⟩

theorem Represents.of_split (hTop : a.stackTop = p.below.length)
    (hBelow : (List.range p.below.length).map a.stack = p.below.reverse)
    (hLast : a.stack p.below.length = p.top) : a.Represents p := by
  refine ⟨hTop, ?_⟩
  rw [used_eq, hTop, Int.toNat_natCast, hBelow, List.reverse_cons, top, hTop, Int.toNat_natCast,
    hLast]

/-- An entry above the range that is looked at does not matter. -/
theorem map_range_update (f : Nat → StateInfo) {n i : Nat} (h : n ≤ i) (info : StateInfo) :
    (List.range n).map (Function.update f i info) = (List.range n).map f := by
  apply List.map_congr_left
  intro j hj
  rw [List.mem_range] at hj
  exact Function.update_of_ne (by omega) _ _

theorem represents_init (memory : Nat → StateInfo) : (init memory).Represents parserInit := by
  refine .of_split rfl rfl ?_
  exact Function.update_self 0 terminalInfo memory

theorem Represents.apply (h : a.Represents p) (op : StackOp) :
    (a.apply op).Represents (p.apply op) := by
  obtain ⟨hTop, hBelow, hLast⟩ := h.split
  cases op with
  | push info =>
      have hSame : a.stackTop < maxStackDepth - 1 ↔ p.stackTop < maxStackDepth - 1 := by
        rw [hTop, Parser.stackTop, maxStackDepth]
        omega
      simp only [ParserArray.apply, Parser.apply, pushState, Parser.pushState]
      by_cases hRoom : p.stackTop < maxStackDepth - 1
      · rw [if_pos (hSame.mpr hRoom), if_pos hRoom]
        have hNext : (a.stackTop + 1).toNat = p.below.length + 1 := by omega
        rw [hNext]
        refine .of_split (by simp [hTop]) ?_ (Function.update_self ..)
        rw [List.length_cons, map_range_update _ le_rfl, List.range_succ, List.map_append, hBelow,
          List.reverse_cons, ← hLast, ParserArray.top, hTop, Int.toNat_natCast]
        rfl
      · rw [if_neg (hSame.not.mpr hRoom), if_neg hRoom]
        exact h
  | pop =>
      simp only [ParserArray.apply, Parser.apply, popState, Parser.popState]
      cases hList : p.below with
      | nil =>
          rw [if_neg (by rw [hTop, hList]; simp)]
          exact h
      | cons top below =>
          rw [hList] at hTop hBelow
          rw [List.length_cons] at hTop hBelow
          rw [if_pos (by omega)]
          rw [List.range_succ, List.map_append, List.reverse_cons] at hBelow
          obtain ⟨hRest, hEntry⟩ := List.append_inj' hBelow rfl
          refine .of_split ?_ hRest (List.singleton_inj.mp hEntry)
          dsimp only
          omega
  | countDown =>
      simp only [ParserArray.apply, Parser.apply, hLast]
      rw [hTop, Int.toNat_natCast]
      refine .of_split rfl ?_ (Function.update_self ..)
      rw [map_range_update _ le_rfl, hBelow]

theorem Represents.foldl (h : a.Represents p) (ops : List StackOp) :
    (ops.foldl ParserArray.apply a).Represents (ops.foldl Parser.apply p) := by
  induction ops generalizing a p with
  | nil => exact h
  | cons op ops ih => exact ih (h.apply op)

/-- The array goes where the list goes. -/
theorem Represents.parse (h : a.Represents p) (begin : Bytes) (avail : Int) :
    (a.parse begin avail).Represents (p.parse begin avail).parser := by
  rw [p.parse_eq_foldl_apply, ParserArray.parse, h.split.2.2]
  exact h.foldl _

end Operations

/-- The function that belongs to a state. No entry is made for the last two. -/
def ownParseFunc : ParserState → Option ParseFunc
  | .initialTerminal | .initial => some .initial
  | .simple => some .simple
  | .arrayLength | .bulkStringLength => some .length
  | .bulkString => some .bulkString
  | .array => some .array
  | .inlineCommand => some .inlineCommand
  | .error | .integer => none

theorem eq_of_ownParseFunc_length {state : ParserState}
    (h : ownParseFunc state = some .length) : state = .arrayLength ∨ state = .bulkStringLength := by
  cases state with
  | arrayLength => exact .inl rfl
  | bulkStringLength => exact .inr rfl
  | _ => cases h

theorem eq_of_ownParseFunc_simple {state : ParserState}
    (h : ownParseFunc state = some .simple) : state = .simple := by
  cases state with
  | simple => rfl
  | _ => cases h

structure Shape (a : ParserArray) : Prop where
  low : 0 ≤ a.stackTop
  high : a.stackTop ≤ 31
  bottom : a.stack 0 = terminalInfo
  between : ∀ i : Nat, 0 < i → i < a.stackTop → (a.stack i).type = .array
  function : ownParseFunc a.top.type = some a.top.parse
  callback : ∀ i : Nat, i ≤ a.stackTop → (a.stack i).type = .simple →
    (a.stack i).endCallback ≠ none

/-- What the next call does not do: pop the bottom entry, find a state that
`parse_length` does not expect, or call a callback that is not there. -/
structure Faultless (a : ParserArray) (begin : Bytes) (avail : Int) : Prop where
  bottom : ∀ before after, stackOps a.top begin avail = before ++ .pop :: after →
    0 < (before.foldl apply a).stackTop
  expected : a.top.parse = .length → a.top.type = .arrayLength ∨ a.top.type = .bulkStringLength
  callback : a.top.parse = .simple → a.top.endCallback ≠ none

section Shapes

variable {a : ParserArray} {p : Parser}

/-- A state that can lie on top of the terminal state and the arrays. -/
structure TopEntry (top : StateInfo) : Prop where
  function : ownParseFunc top.type = some top.parse
  callback : top.type = .simple → top.endCallback ≠ none

theorem topEntry_of_shaped (hp : Parser.Shaped p) : TopEntry p.top := by
  cases hp with
  | resume lens h =>
      cases lens with
      | nil => exact ⟨rfl, fun h => by cases h⟩
      | cons len lens => exact ⟨rfl, fun h => by cases h⟩
  | element lens hne h => exact ⟨rfl, fun h => by cases h⟩
  | leaf top lens hTop h =>
      cases hTop with
      | simple cb hcb => exact ⟨rfl, fun _ h => by cases h⟩
      | arrayLength => exact ⟨rfl, fun h => by cases h⟩
      | bulkStringLength => exact ⟨rfl, fun h => by cases h⟩
      | bulkString len hLow hHigh => exact ⟨rfl, fun h => by cases h⟩
      | inlineCommand => exact ⟨rfl, fun h => by cases h⟩

/-- Below the top entry there are arrays over the terminal state, or nothing. -/
theorem below_of_shaped (hp : Parser.Shaped p) :
    p = parserInit ∨ ∃ lens : List Int, lens.length < 31 ∧ p.below = Parser.arrays lens := by
  cases hp with
  | resume lens h =>
      cases lens with
      | nil => exact .inl rfl
      | cons len lens => exact .inr ⟨lens, h, rfl⟩
  | element lens hne h => exact .inr ⟨lens, h, rfl⟩
  | leaf top lens hTop h => exact .inr ⟨lens, h, rfl⟩

/-- After any calls the array still holds the stack of the parser, which has kept
its shape. -/
theorem Represents.parses (h : a.Represents p) (hp : Parser.Shaped p)
    (inputs : List (Bytes × Int)) :
    (a.parses inputs).Represents (p.parses inputs) ∧ Parser.Shaped (p.parses inputs) := by
  induction inputs generalizing a p with
  | nil => exact ⟨h, hp⟩
  | cons input inputs ih => exact ih (h.parse input.1 input.2) (hp.parse input.1 input.2)

theorem Represents.entry (h : a.Represents p) {i : Nat} (hi : i < p.below.length) :
    p.below.reverse[i]? = some (a.stack i) := by
  rw [← h.split.2.1, List.getElem?_map, List.getElem?_range hi]
  rfl

theorem Represents.shape (h : a.Represents p) (hp : Parser.Shaped p) : a.Shape := by
  obtain ⟨hTop, hBelow, hLast⟩ := h.split
  obtain ⟨hFunction, hCallback⟩ := topEntry_of_shaped hp
  rw [← hLast] at hFunction hCallback
  have hAtTop : ∀ i : Nat, (i : Int) = a.stackTop → a.stack i = a.top := by
    intro i hi
    rw [top, ← hi, Int.toNat_natCast]
  rcases below_of_shaped hp with rfl | ⟨lens, hLens, hList⟩
  · have hZero : a.stackTop = 0 := hTop
    refine ⟨by omega, by omega, (hAtTop 0 hZero.symm).trans hLast, fun i _ hi => by omega, hFunction,
      fun i hi => ?_⟩
    rw [hAtTop i (by omega)]
    exact hCallback
  · have hCount : p.below.length = lens.length + 1 := by rw [hList, Parser.arrays_length]
    have hEntries : p.below.reverse = terminalInfo :: (lens.map arrayInfo).reverse := by
      rw [hList, Parser.arrays, List.reverse_append]
      rfl
    have hArray : ∀ i : Nat, 0 < i → i < p.below.length → ∃ len, a.stack i = arrayInfo len := by
      intro i hPos hi
      have hEntry := h.entry hi
      obtain ⟨j, rfl⟩ := Nat.exists_eq_add_of_lt hPos
      rw [hEntries, Nat.zero_add, List.getElem?_cons_succ] at hEntry
      obtain ⟨len, -, hLen⟩ := List.mem_map.mp (List.mem_reverse.mp (List.mem_of_getElem? hEntry))
      exact ⟨len, by rw [Nat.zero_add, hLen]⟩
    have hBottom : a.stack 0 = terminalInfo := by
      have hEntry := h.entry (show 0 < p.below.length by omega)
      rw [hEntries] at hEntry
      exact (Option.some.inj hEntry).symm
    refine ⟨by omega, by omega, hBottom, fun i hPos hi => ?_, hFunction, fun i hi => ?_⟩
    · obtain ⟨len, hLen⟩ := hArray i hPos (by omega)
      rw [hLen]
      rfl
    · rcases Nat.eq_zero_or_pos i with rfl | hPos
      · rw [hBottom]
        intro h
        cases h
      rcases hi.lt_or_eq with hi | hi
      · obtain ⟨len, hLen⟩ := hArray i hPos (by omega)
        rw [hLen]
        intro h
        cases h
      · rw [hAtTop i hi]
        exact hCallback

/-- A parse function pops first, if it pops at all. -/
theorem eq_nil_of_stackOps {top : StateInfo} {begin : Bytes} {avail : Int}
    {before after : List StackOp} (h : stackOps top begin avail = before ++ .pop :: after) :
    before = [] := by
  cases before with
  | nil => rfl
  | cons op before =>
      unfold stackOps at h
      split at h <;> split_ifs at h <;> simp [List.cons_eq_append_iff] at h

theorem Represents.faultless (h : a.Represents p) (hp : Parser.Shaped p) (begin : Bytes)
    (avail : Int) : a.Faultless begin avail := by
  obtain ⟨hTop, -, hLast⟩ := h.split
  obtain ⟨hFunction, hCallback⟩ := topEntry_of_shaped hp
  rw [← hLast] at hFunction hCallback
  refine ⟨fun before after hOps => ?_, fun hLength => ?_, fun hSimple => hCallback ?_⟩
  · obtain rfl := eq_nil_of_stackOps hOps
    rcases below_of_shaped hp with rfl | ⟨lens, -, hList⟩
    · -- over the terminal state alone there is nothing but a push
      have hPush : stackOps terminalInfo begin avail =
          if avail = 0 then [] else [.push (messageInfo (byteAt begin 0))] := rfl
      rw [show a.top = terminalInfo from hLast, hPush] at hOps
      split at hOps
      · cases hOps
      · cases hOps
    · change 0 < a.stackTop
      rw [hTop, hList, Parser.arrays_length]
      omega
  · rw [hLength] at hFunction
    exact eq_of_ownParseFunc_length hFunction
  · rw [hSimple] at hFunction
    exact eq_of_ownParseFunc_simple hFunction

/-- The shape of the stack, and what follows from it for every further call,
after any calls on any input. The stack may have been full in between. -/
theorem stack_shape (memory : Nat → StateInfo) (inputs : List (Bytes × Int)) :
    ((init memory).parses inputs).Shape ∧
      ∀ begin avail, ((init memory).parses inputs).Faultless begin avail := by
  obtain ⟨hRepresents, hShaped⟩ :=
    (represents_init memory).parses Parser.shaped_parserInit inputs
  exact ⟨hRepresents.shape hShaped, hRepresents.faultless hShaped⟩

end Shapes

end ParserArray

end RedisServer
