import RedisServer.Protocol.HandlerBounds

/-! Which commands are dispatched for which part of the stream. A frame is what
the parser reads from one idle state to the next. The handler knows nothing of
frames: every end of an array executes what is in the buffer, also the end of
an array inside another, of one without strings, and of a blank line. -/
namespace RedisServer

open Machine

/-- The loop of `parser_parse` with the callbacks it has made in the frame it
is in. They are kept until the next frame begins. -/
structure Framed (ρ : Type) where
  run : ParserRun (CommandHandler ρ)
  calls : List Callback

/-- The callbacks that mark the end of an element. -/
def elementEnds : List Callback := [.endBulkString, .endSimpleString, .endError, .endInteger]

namespace Framed

variable {ρ : Type}

/-- A new connection. -/
def start (client : Client ρ) : Framed ρ :=
  ⟨⟨parserInit, createCommandHandler client 256 10, 0⟩, []⟩

/-- The callbacks of the frame that the next iteration belongs to. -/
def earlier (f : Framed ρ) : List Callback := if f.run.parser = parserInit then [] else f.calls

/-- One iteration of the loop. -/
def step (cmds : Commands ρ) (r : Range) (f : Framed ρ) : Framed ρ × Bool :=
  let (run, keepGoing) := parserStep (createHandler cmds) r f.run
  let calls :=
    if (createHandler cmds).awaitingSnapshot f.run.handler then [] else (f.run.outcome r).calls
  (⟨run, f.earlier ++ calls⟩, keepGoing)

def invocations (f : Framed ρ) : List (List Bytes) := f.run.handler.invocations

/-- A command is dispatched as it should be: the frame is complete, and if it
is an array, all announced elements have been read; the frame has ended one
array and no more; and the arguments are as many as the frame has strings, and
at least one. -/
structure Serves (before after : Framed ρ) (args : List Bytes) : Prop where
  complete : after.run.parser = parserInit
  elements : before.run.parser.top.parse = .array → ∃ len calls,
    after.calls = .beginArray len :: calls ∧ (calls.countP (· ∈ elementEnds) : Int) = len
  once : after.calls.count .endArray = 1
  some : 1 ≤ args.length
  strings : args.length = after.calls.count .endBulkString

/-- An iteration dispatches nothing, or one command as it should be. -/
def Dispatches (before after : Framed ρ) : Prop :=
  after.invocations = before.invocations ∨
    ∃ args, after.invocations = before.invocations ++ [args] ∧ before.Serves after args

/-- An array that ends is not inside another one, and has a string among its
elements; an inline command is not inside an array, and has a token. -/
def EndsWell (f : Framed ρ) (r : Range) : Prop :=
  let begin := r.suffix f.run.begin
  let avail := r.stop - f.run.begin
  match f.run.parser.top.parse with
  | .array =>
      f.run.parser.top.length = 0 ∨ f.run.parser.top.length = -1 →
        f.run.parser.stackTop = 1 ∧ .endBulkString ∈ f.calls
  | .inlineCommand =>
      avail ≠ 0 ∧ (scanCr begin avail : Int) ≠ avail →
        f.run.parser.stackTop = 1 ∧
          inlineTokens (begin.take (scanCr begin avail)) (scanCr begin avail + 1) 0 ≠ []
  | _ => True

instance (f : Framed ρ) (r : Range) : Decidable (f.EndsWell r) :=
  match h : f.run.parser.top.parse with
  | .array => decidable_of_iff (_ → _ ∧ _) (by rw [EndsWell, h])
  | .inlineCommand => decidable_of_iff (_ → _ ∧ _) (by rw [EndsWell, h])
  | .initial | .simple | .length | .bulkString => isTrue (by rw [EndsWell, h]; trivial)

end Framed

section PlainCalls

variable {ρ : Type} (cmds : Commands ρ) (mem : Bytes) (ch : CommandHandler ρ)

/-- Callbacks that neither begin nor end an array. -/
def Callback.IsPlain : Callback → Prop
  | .beginArray _ | .endArray => False
  | _ => True

def PlainCalls (calls : List Callback) : Prop := ∀ call ∈ calls, call.IsPlain

/-- What such callbacks do to the lists of the handler. -/
theorem CommandHandler.handle_plain {call : Callback} (h : call.IsPlain) :
    (ch.handle cmds mem call).args = ch.args ∧ (ch.handle cmds mem call).freed = ch.freed ∧
      (ch.handle cmds mem call).invocations = ch.invocations ∧
      ((ch.handle cmds mem call).status = .running → ch.status = .running ∧
        (ch.handle cmds mem call).ends.length =
          ch.ends.length + [call].count .endBulkString) := by
  by_cases hRun : ch.status = .running
  swap
  · have hSame : ch.handle cmds mem call = ch := if_neg hRun
    rw [hSame]
    exact ⟨rfl, rfl, rfl, fun h => absurd h hRun⟩
  rw [handle_of_running hRun]
  cases call with
  | beginArray len => exact h.elim
  | endArray => exact h.elim
  | beginBulkString len =>
      simp only [react, beginBulkStringHandler]
      split <;> exact ⟨rfl, rfl, rfl, fun _ => ⟨hRun, rfl⟩⟩
  | endBulkString =>
      simp only [react, endBulkStringHandler]
      split
      · exact ⟨rfl, rfl, rfl, fun h => by cases h⟩
      · exact ⟨rfl, rfl, rfl, fun _ => ⟨hRun, List.length_append⟩⟩
  | chars first last =>
      simp only [react, charsHandler]
      split
      · exact ⟨rfl, rfl, rfl, fun h => by cases h⟩
      · exact ⟨rfl, rfl, rfl, fun _ => ⟨hRun, rfl⟩⟩
  | endSimpleString =>
      obtain ⟨buf, client, hSame⟩ := exists_endSimpleStringHandler ch
      rw [show react cmds mem ch .endSimpleString = _ from hSame]
      exact ⟨rfl, rfl, rfl, fun _ => ⟨hRun, rfl⟩⟩
  | beginSimpleString | beginError | endError | beginInteger | endInteger =>
      exact ⟨rfl, rfl, rfl, fun _ => ⟨hRun, rfl⟩⟩

theorem CommandHandler.foldl_plain {calls : List Callback} (h : PlainCalls calls) :
    let next := calls.foldl (CommandHandler.handle cmds mem) ch
    next.args = ch.args ∧ next.freed = ch.freed ∧ next.invocations = ch.invocations ∧
      (next.status = .running → ch.status = .running ∧
        next.ends.length = ch.ends.length + calls.count .endBulkString) := by
  induction calls generalizing ch with
  | nil => exact ⟨rfl, rfl, rfl, fun hRun => ⟨hRun, rfl⟩⟩
  | cons call calls ih =>
      obtain ⟨hArgs, hFreed, hInvoked, hOne⟩ :=
        CommandHandler.handle_plain cmds mem ch (h call (List.mem_cons_self ..))
      obtain ⟨hArgs', hFreed', hInvoked', hRest⟩ :=
        ih (ch.handle cmds mem call) (fun other hOther => h other (List.mem_cons_of_mem _ hOther))
      refine ⟨hArgs'.trans hArgs, hFreed'.trans hFreed, hInvoked'.trans hInvoked, fun hRun => ?_⟩
      obtain ⟨hMiddle, hLater⟩ := hRest hRun
      obtain ⟨hFirst, hHere⟩ := hOne hMiddle
      have hCount : (call :: calls).count .endBulkString =
          [call].count .endBulkString + calls.count .endBulkString := by
        rw [← List.count_append]
        rfl
      exact ⟨hFirst, hLater.trans (by rw [hHere, hCount, Nat.add_assoc])⟩

theorem CommandHandler.handle_beginArray_lists (len : Int) :
    (ch.handle cmds mem (.beginArray len)).invocations = ch.invocations ∧
      ((ch.handle cmds mem (.beginArray len)).status = .running →
        (ch.handle cmds mem (.beginArray len)).args = [] ∧
        (ch.handle cmds mem (.beginArray len)).ends = []) := by
  by_cases hRun : ch.status = .running
  · rw [handle_of_running hRun]
    simp only [react, beginArrayHandler]
    split_ifs
    · exact ⟨rfl, fun h => by cases h⟩
    · exact ⟨rfl, fun h => by cases h⟩
    · exact ⟨rfl, fun _ => ⟨rfl, rfl⟩⟩
  · have hSame : ch.handle cmds mem (.beginArray len) = ch := if_neg hRun
    rw [hSame]
    exact ⟨rfl, fun h => absurd h hRun⟩

theorem CommandHandler.splitArgs_length (buf : Bytes) (begin : Nat) (ends : List Nat)
    (h : (splitArgs buf begin ends).2 = true) :
    (splitArgs buf begin ends).1.length = ends.length := by
  induction ends generalizing begin with
  | nil => rfl
  | cons stop ends ih =>
      unfold splitArgs at h ⊢
      dsimp only at h ⊢
      split at h
      · cases h
      · rename_i hAlloc
        rw [if_neg hAlloc]
        exact congrArg Nat.succ (ih stop h)

/-- The end of an array invokes nothing, or the command with one more argument
for each recorded end. -/
theorem CommandHandler.handle_endArray_lists :
    (ch.handle cmds mem .endArray).invocations = ch.invocations ∨
      ch.status = .running ∧ ∃ args,
        (ch.handle cmds mem .endArray).invocations = ch.invocations ++ [args] ∧
        args.length = ch.args.length + ch.ends.length := by
  by_cases hRun : ch.status = .running
  · rw [handle_of_running hRun]
    simp only [react, endArrayHandler]
    split
    · exact Or.inl rfl
    · split
      · exact Or.inl rfl
      · rename_i hSplit
        split
        · exact Or.inl rfl
        · refine Or.inr ⟨hRun, _, rfl, ?_⟩
          rw [List.length_append, splitArgs_length _ _ _ (Bool.eq_true_of_not_eq_false hSplit)]
  · have hSame : ch.handle cmds mem .endArray = ch := if_neg hRun
    rw [hSame]
    exact Or.inl rfl

end PlainCalls

section Tracking

variable {ρ : Type} (cmds : Commands ρ) (mem : Bytes) {ch : CommandHandler ρ}
  {calls more : List Callback} {left : Int}

/-- The frame is an array of which `left` elements are still to come, and the
handler has an end for each of its strings. -/
def InFrame (ch : CommandHandler ρ) (calls : List Callback) (left : Int) : Prop :=
  ∃ len rest, calls = .beginArray len :: rest ∧ .endArray ∉ rest ∧
    (rest.countP (· ∈ elementEnds) : Int) + left = len ∧
    (ch.status = .running → ch.args = [] ∧ ch.ends.length = rest.count .endBulkString)

/-- The stacks, and what is known of the frame in each. Inside an inner array
nothing is, since from there the loop comes back only by ending it. -/
inductive Tracks (ch : CommandHandler ρ) (calls : List Callback) : Parser → Prop where
  | idle : Tracks ch calls (.resume [])
  | top (top : StateInfo) (hTop : Parser.Leaf top)
      (hCalls : top.parse = .inlineCommand ∨ top.type = .arrayLength → calls = []) :
      Tracks ch calls (.within top [])
  | between (left : Int) (hFrame : InFrame ch calls left)
      (hNull : left = -1 → .endBulkString ∉ calls) : Tracks ch calls (.resume [left])
  | element (left : Int) (hFrame : InFrame ch calls (left + 1)) (hLeft : left ≠ -1) :
      Tracks ch calls (.within initialInfo [left])
  | leaf (top : StateInfo) (hTop : Parser.Leaf top) (left : Int)
      (hFrame : InFrame ch calls (left + 1)) (hLeft : left ≠ -1) :
      Tracks ch calls (.within top [left])
  | inner (lens : List Int) (hDeep : 2 ≤ lens.length) (h : lens.length ≤ 31) :
      Tracks ch calls (.resume lens)
  | innerElement (lens : List Int) (hDeep : 2 ≤ lens.length) (h : lens.length < 31) :
      Tracks ch calls (.within initialInfo lens)
  | innerLeaf (top : StateInfo) (hTop : Parser.Leaf top) (lens : List Int)
      (hDeep : 2 ≤ lens.length) (h : lens.length < 31) : Tracks ch calls (.within top lens)

theorem InFrame.append (h : InFrame ch calls left) (hPlain : PlainCalls more) :
    InFrame (more.foldl (CommandHandler.handle cmds mem) ch) (calls ++ more)
      (left - more.countP (· ∈ elementEnds)) := by
  obtain ⟨len, rest, rfl, hEnd, hCount, hLists⟩ := h
  obtain ⟨hArgs, -, -, hRest⟩ := CommandHandler.foldl_plain cmds mem ch hPlain
  refine ⟨len, rest ++ more, rfl, ?_, ?_, ?_⟩
  · rw [List.mem_append, not_or]
    exact ⟨hEnd, fun hMem => hPlain _ hMem⟩
  · rw [List.countP_append]
    omega
  · intro hRun
    obtain ⟨hFirst, hLength⟩ := hRest hRun
    obtain ⟨hNone, hEnds⟩ := hLists hFirst
    exact ⟨hArgs.trans hNone, by rw [hLength, hEnds, List.count_append]⟩

theorem plain_nil : PlainCalls [] := by
  intro call hCall
  cases hCall

theorem PlainCalls.cons {call : Callback} (h : call.IsPlain) (hRest : PlainCalls calls) :
    PlainCalls (call :: calls) := by
  intro other hOther
  rcases List.mem_cons.mp hOther with rfl | hOther
  · exact h
  · exact hRest other hOther

theorem isPlain_of_simpleEnds {cb : Callback} (h : cb ∈ Parser.simpleEnds) : cb.IsPlain := by
  simp only [Parser.simpleEnds, List.mem_cons, List.not_mem_nil, or_false] at h
  rcases h with rfl | rfl | rfl <;> trivial

/-- The first byte of an element makes no mark in the lists. -/
theorem plain_dispatch (lens : List Int) (c : UInt8) :
    PlainCalls (Parser.dispatch lens c).calls ∧
      (Parser.dispatch lens c).calls.countP (· ∈ elementEnds) = 0 := by
  unfold Parser.dispatch
  split_ifs
  · exact ⟨PlainCalls.cons trivial plain_nil, rfl⟩
  · exact ⟨PlainCalls.cons trivial plain_nil, rfl⟩
  · exact ⟨PlainCalls.cons trivial plain_nil, rfl⟩
  · exact ⟨plain_nil, rfl⟩
  · exact ⟨plain_nil, rfl⟩
  · exact ⟨plain_nil, rfl⟩

/-- The state that the first byte pushes. -/
theorem exists_parser_dispatch (lens : List Int) (c : UInt8) :
    ∃ top, Parser.Leaf top ∧ (Parser.dispatch lens c).parser = .within top lens ∧
      (top.parse = .inlineCommand ∨ top.type = .arrayLength →
        (Parser.dispatch lens c).calls = []) := by
  unfold Parser.dispatch
  split_ifs
  · exact ⟨_, .simple _ (by decide), rfl, by decide⟩
  · exact ⟨_, .simple _ (by decide), rfl, by decide⟩
  · exact ⟨_, .simple _ (by decide), rfl, by decide⟩
  · exact ⟨_, .bulkStringLength, rfl, fun _ => rfl⟩
  · exact ⟨_, .arrayLength, rfl, fun _ => rfl⟩
  · exact ⟨_, .inlineCommand, rfl, fun _ => rfl⟩

theorem plain_inlineTokens (line : Bytes) (fuel start : Nat) :
    PlainCalls (inlineTokens line fuel start) ∧
      (inlineTokens line fuel start ≠ [] → .endBulkString ∈ inlineTokens line fuel start) := by
  have hToken : ∀ (len : Nat) (first last : Int) (rest : List Callback), PlainCalls rest →
      PlainCalls (.beginBulkString len :: .chars first last :: .endBulkString :: rest) :=
    fun len first last rest hRest =>
      PlainCalls.cons trivial (PlainCalls.cons trivial (PlainCalls.cons trivial hRest))
  induction fuel generalizing start with
  | zero => exact ⟨plain_nil, fun h => absurd rfl h⟩
  | succ fuel ih =>
      simp only [inlineTokens]
      split
      · exact ⟨plain_nil, fun h => absurd rfl h⟩
      · split
        · exact ⟨hToken _ _ _ _ (ih _).1, fun _ => by simp⟩
        · exact ⟨hToken _ _ _ _ (ih _).1, fun _ => by simp⟩

/-- What a state on top of the arrays can do: stay or wait for the rest of a
string, complete an element, open an array, or execute a line. -/
theorem Parser.Leaf.parse_cases {top : StateInfo} (hTop : Parser.Leaf top) {lens : List Int}
    (h : lens.length < 31) (begin : Bytes) (avail : Int) :
    (∃ next, Parser.Leaf next ∧ ((Parser.within top lens).parse begin avail).parser =
        .within next lens ∧ PlainCalls ((Parser.within top lens).parse begin avail).calls ∧
      ((Parser.within top lens).parse begin avail).calls.countP (· ∈ elementEnds) = 0 ∧
      (next.parse = .inlineCommand ∨ next.type = .arrayLength →
        next = top ∧ ((Parser.within top lens).parse begin avail).calls = [])) ∨
    (((Parser.within top lens).parse begin avail).parser = .resume lens ∧
      PlainCalls ((Parser.within top lens).parse begin avail).calls ∧
      ((Parser.within top lens).parse begin avail).calls.countP (· ∈ elementEnds) = 1) ∨
    (∃ len, top.type = .arrayLength ∧
      ((Parser.within top lens).parse begin avail).parser = .resume (len :: lens) ∧
      ((Parser.within top lens).parse begin avail).calls = [.beginArray len]) ∨
    (top.parse = .inlineCommand ∧ (avail ≠ 0 ∧ (scanCr begin avail : Int) ≠ avail) ∧
      ((Parser.within top lens).parse begin avail).parser = .resume lens ∧
      ((Parser.within top lens).parse begin avail).calls = .beginArray (countTokens begin) ::
        inlineTokens (begin.take (scanCr begin avail)) (scanCr begin avail + 1) 0 ++
          [.endArray]) := by
  have hWait : ∃ next, Parser.Leaf next ∧ (Parser.within top lens).wait.parser =
      .within next lens ∧ PlainCalls (Parser.within top lens).wait.calls ∧
      (Parser.within top lens).wait.calls.countP (· ∈ elementEnds) = 0 ∧
      (next.parse = .inlineCommand ∨ next.type = .arrayLength →
        next = top ∧ (Parser.within top lens).wait.calls = []) :=
    ⟨top, hTop, rfl, plain_nil, rfl, fun _ => ⟨rfl, rfl⟩⟩
  cases hTop with
  | simple cb hcb =>
      rw [Parser.parse_simple]
      split_ifs
      · exact Or.inl hWait
      · refine Or.inr (Or.inl ⟨rfl,
          PlainCalls.cons trivial (PlainCalls.cons (isPlain_of_simpleEnds hcb) plain_nil), ?_⟩)
        simp only [Parser.simpleEnds, List.mem_cons, List.not_mem_nil, or_false] at hcb
        rcases hcb with rfl | rfl | rfl <;> simp [elementEnds]
      · exact Or.inl ⟨_, .simple cb hcb, rfl, PlainCalls.cons trivial plain_nil, by simp [elementEnds],
          by simp [simpleInfo]⟩
  | arrayLength =>
      rw [Parser.parse_arrayLength begin avail h]
      split_ifs
      · exact Or.inr (Or.inr (Or.inl ⟨_, rfl, rfl, rfl⟩))
      · exact Or.inl hWait
  | bulkStringLength =>
      rw [Parser.parse_bulkStringLength begin avail h]
      split
      · rename_i hReady
        obtain ⟨-, -, -, -, -, -, hLow, hHigh⟩ := hReady
        exact Or.inl ⟨_, .bulkString _ hLow hHigh, rfl, PlainCalls.cons trivial plain_nil,
          by simp [elementEnds], by simp [bulkStringInfo]⟩
      · exact Or.inl hWait
  | bulkString len hLow hHigh =>
      rw [Parser.parse_bulkString]
      split_ifs
      · exact Or.inr (Or.inl ⟨rfl, PlainCalls.cons trivial plain_nil, by simp [elementEnds]⟩)
      · exact Or.inl hWait
      · exact Or.inr (Or.inl ⟨rfl, PlainCalls.cons trivial (PlainCalls.cons trivial plain_nil),
          by simp [elementEnds]⟩)
      · exact Or.inl ⟨_, .bulkString len hLow hHigh, rfl, PlainCalls.cons trivial plain_nil,
          by simp [elementEnds], by simp [bulkStringInfo]⟩
  | inlineCommand =>
      rw [Parser.parse_inlineCommand]
      split
      · rename_i hLine
        exact Or.inr (Or.inr (Or.inr ⟨rfl, hLine, rfl, rfl⟩))
      · exact Or.inl hWait

end Tracking

namespace Framed

variable {ρ : Type} (cmds : Commands ρ) {f : Framed ρ} {r : Range}

/-- What an iteration with this outcome leaves behind. -/
def after (f : Framed ρ) (begin : Bytes) (out : ParseOutcome) : Framed ρ :=
  ⟨⟨out.parser, out.calls.foldl (CommandHandler.handle cmds begin) f.run.handler,
    f.run.begin + out.newBegin⟩, f.earlier ++ out.calls⟩

/-- The frame is tracked. -/
def Tracked (f : Framed ρ) : Prop := Tracks f.run.handler f.calls f.run.parser

theorem earlier_within {top : StateInfo} {lens : List Int}
    (h : f.run.parser = .within top lens) : f.earlier = f.calls := by
  rw [earlier, if_neg]
  rw [h]
  intro hSame
  cases lens <;> cases hSame

theorem earlier_resume {len : Int} {lens : List Int}
    (h : f.run.parser = .resume (len :: lens)) : f.earlier = f.calls := by
  rw [earlier, if_neg]
  rw [h]
  intro hSame
  cases hSame

/-- An iteration without a mark for an array dispatches nothing. -/
theorem dispatches_of_plain {begin : Bytes} {out : ParseOutcome} (h : PlainCalls out.calls) :
    f.Dispatches (f.after cmds begin out) :=
  Or.inl (CommandHandler.foldl_plain cmds begin f.run.handler h).2.2.1

/-- The end of an array that is no element of another one, and has strings. -/
theorem serves_array {left : Int} (hParser : f.run.parser = .resume [left])
    (hLeft : left = 0) (hFrame : InFrame f.run.handler f.calls left)
    (hSome : .endBulkString ∈ f.calls) (begin : Bytes) (newBegin : Int) :
    f.Dispatches (f.after cmds begin ⟨.resume [], [.endArray], true, newBegin⟩) := by
  obtain ⟨len, rest, hCalls, hEnd, hCount, hLists⟩ := hFrame
  rcases CommandHandler.handle_endArray_lists cmds begin f.run.handler with
    hNone | ⟨hRun, args, hInvoked, hLength⟩
  · exact Or.inl hNone
  · obtain ⟨hArgs, hEnds⟩ := hLists hRun
    rw [hArgs, hEnds, List.length_nil, Nat.zero_add] at hLength
    have hAfter : (f.after cmds begin ⟨.resume [], [.endArray], true, newBegin⟩).calls =
        .beginArray len :: (rest ++ [.endArray]) := by
      change f.earlier ++ [.endArray] = _
      rw [earlier_resume hParser, hCalls, List.cons_append]
    have hStrings : args.length = (Callback.beginArray len :: (rest ++ [.endArray])).count
        .endBulkString := by
      rw [hLength, List.count_cons_of_ne (by simp), List.count_append]
      rfl
    refine Or.inr ⟨args, hInvoked, rfl, fun _ => ⟨len, _, hAfter, ?_⟩, ?_, ?_, ?_⟩
    · rw [List.countP_append]
      simp [elementEnds] at hCount ⊢
      omega
    · rw [hAfter, List.count_cons_of_ne (by simp), List.count_append, List.count_eq_zero.mpr hEnd]
      rfl
    · rw [hCalls] at hSome
      rw [hLength]
      exact List.count_pos_iff.mpr (List.mem_of_ne_of_mem (by simp) hSome)
    · rw [hAfter]
      exact hStrings

/-- A line at the top with a token. -/
theorem serves_line {top : StateInfo} (hParser : f.run.parser = .within top [])
    (hTop : top.parse = .inlineCommand) (hCalls : f.calls = []) {tokens : List Callback}
    (hPlain : PlainCalls tokens) (hSome : .endBulkString ∈ tokens) (len : Int) (begin : Bytes)
    (newBegin : Int) :
    f.Dispatches (f.after cmds begin
      ⟨.resume [], .beginArray len :: tokens ++ [.endArray], true, newBegin⟩) := by
  have hFold : (Callback.beginArray len :: tokens ++ [Callback.endArray]).foldl
      (CommandHandler.handle cmds begin) f.run.handler =
      (tokens.foldl (CommandHandler.handle cmds begin)
        (f.run.handler.handle cmds begin (.beginArray len))).handle cmds begin .endArray := by
    rw [List.cons_append, List.foldl_cons, List.foldl_append]
    rfl
  obtain ⟨hBegun, hFirst⟩ := CommandHandler.handle_beginArray_lists cmds begin f.run.handler len
  obtain ⟨hArgs, -, hInvoked, hTokens⟩ := CommandHandler.foldl_plain cmds begin
    (f.run.handler.handle cmds begin (.beginArray len)) hPlain
  have hBefore := hInvoked.trans hBegun
  have hAfter : (f.after cmds begin
      ⟨.resume [], .beginArray len :: tokens ++ [.endArray], true, newBegin⟩).calls =
      .beginArray len :: (tokens ++ [.endArray]) := by
    change f.earlier ++ _ = _
    rw [earlier_within hParser, hCalls]
    rfl
  rcases CommandHandler.handle_endArray_lists cmds begin (tokens.foldl
    (CommandHandler.handle cmds begin) (f.run.handler.handle cmds begin (.beginArray len))) with
    hNone | ⟨hRun, args, hLast, hLength⟩
  · refine Or.inl ?_
    change CommandHandler.invocations (List.foldl _ _ _) = _
    rw [hFold, hNone, hBefore]
    rfl
  · obtain ⟨hMiddle, hEnds⟩ := hTokens hRun
    obtain ⟨hNone, hNoEnds⟩ := hFirst hMiddle
    rw [hArgs, hNone, hEnds, hNoEnds, List.length_nil, Nat.zero_add, List.length_nil,
      Nat.zero_add] at hLength
    refine Or.inr ⟨args, ?_, rfl, ?_, ?_, ?_, ?_⟩
    · change CommandHandler.invocations (List.foldl _ _ _) = _
      rw [hFold, hLast, hBefore]
      rfl
    · intro hArray
      rw [hParser] at hArray
      change top.parse = .array at hArray
      rw [hTop] at hArray
      cases hArray
    · rw [hAfter, List.count_cons_of_ne (by simp), List.count_append,
        List.count_eq_zero.mpr fun hEnd => (hPlain .endArray hEnd : False)]
      rfl
    · rw [hLength]
      exact List.count_pos_iff.mpr hSome
    · rw [hAfter, hLength, List.count_cons_of_ne (by simp), List.count_append]
      rfl

/-- The frame stays tracked, and what is dispatched is dispatched as it should
be. -/
def Proceeds (f : Framed ρ) (begin : Bytes) (out : ParseOutcome) : Prop :=
  (f.after cmds begin out).Tracked ∧ f.Dispatches (f.after cmds begin out)

theorem proceeds_of_plain {begin : Bytes} {out : ParseOutcome} (hPlain : PlainCalls out.calls)
    (hTracks : Tracks (out.calls.foldl (CommandHandler.handle cmds begin) f.run.handler)
      (f.earlier ++ out.calls) out.parser) : Proceeds cmds f begin out :=
  ⟨hTracks, dispatches_of_plain cmds hPlain⟩

variable (begin : Bytes) (avail : Int)

theorem proceeds_idle (hParser : f.run.parser = .resume []) :
    Proceeds cmds f begin ((Parser.resume []).parse begin avail) := by
  have hEarlier : f.earlier = [] := by rw [earlier, hParser]; rfl
  rw [Parser.parse_terminal]
  split
  · exact proceeds_of_plain cmds plain_nil Tracks.idle
  · obtain ⟨top, hTop, hNext, hCalls⟩ := exists_parser_dispatch [] (byteAt begin 0)
    refine proceeds_of_plain cmds (plain_dispatch [] (byteAt begin 0)).1 ?_
    rw [hNext]
    refine Tracks.top top hTop fun hKind => ?_
    rw [hCalls hKind, hEarlier]
    rfl

theorem proceeds_top {top : StateInfo} (hParser : f.run.parser = .within top [])
    (hTop : Parser.Leaf top)
    (hCalls : top.parse = .inlineCommand ∨ top.type = .arrayLength → f.calls = [])
    (hWell : top.parse = .inlineCommand → avail ≠ 0 ∧ (scanCr begin avail : Int) ≠ avail →
      inlineTokens (begin.take (scanCr begin avail)) (scanCr begin avail + 1) 0 ≠ []) :
    Proceeds cmds f begin ((Parser.within top []).parse begin avail) := by
  have hEarlier := earlier_within hParser
  rcases hTop.parse_cases (show ([] : List Int).length < 31 by decide) begin avail with
    ⟨next, hNext, hLater, hPlain, -, hSame⟩ | ⟨hLater, hPlain, -⟩ |
    ⟨len, hType, hLater, hBegin⟩ | ⟨hLine, hComplete, hLater, hAll⟩
  · refine proceeds_of_plain cmds hPlain ?_
    rw [hLater, hEarlier]
    refine Tracks.top next hNext fun hKind => ?_
    obtain ⟨rfl, hNone⟩ := hSame hKind
    rw [hNone, hCalls hKind]
    rfl
  · refine proceeds_of_plain cmds hPlain ?_
    rw [hLater]
    exact Tracks.idle
  · obtain ⟨hInvoked, hLists⟩ :=
      CommandHandler.handle_beginArray_lists cmds begin f.run.handler len
    refine ⟨?_, Or.inl (by rw [invocations, after, hBegin]; exact hInvoked)⟩
    unfold Tracked after
    dsimp only
    rw [hLater, hBegin, hEarlier, hCalls (Or.inr hType)]
    refine Tracks.between len ⟨len, [], rfl, by simp, by simp, fun hRun => ?_⟩ fun _ => by simp
    obtain ⟨hArgs, hEnds⟩ := hLists hRun
    exact ⟨hArgs, congrArg List.length hEnds⟩
  · obtain ⟨hPlain, hSome⟩ := plain_inlineTokens (begin.take (scanCr begin avail))
      (scanCr begin avail + 1) 0
    have hServes := serves_line cmds hParser hLine (hCalls (Or.inl hLine)) hPlain
      (hSome (hWell hLine hComplete)) (countTokens begin) begin
      ((Parser.within top []).parse begin avail).newBegin
    refine ⟨?_, ?_⟩
    · unfold Tracked after
      dsimp only
      rw [hLater]
      exact Tracks.idle
    · unfold after at hServes ⊢
      rw [hAll, hLater]
      exact hServes

theorem proceeds_between {left : Int} (hParser : f.run.parser = .resume [left])
    (hFrame : InFrame f.run.handler f.calls left) (hNull : left = -1 → .endBulkString ∉ f.calls)
    (hWell : left = 0 ∨ left = -1 → .endBulkString ∈ f.calls) :
    Proceeds cmds f begin ((Parser.resume [left]).parse begin avail) := by
  rw [Parser.parse_array]
  split
  · rename_i hEnd
    have hZero : left = 0 := by
      rcases hEnd with hZero | hMinus
      · exact hZero
      · exact absurd (hWell (Or.inr hMinus)) (hNull hMinus)
    exact ⟨Tracks.idle, serves_array cmds hParser hZero hFrame (hWell hEnd) begin 0⟩
  · rename_i hMore
    rw [if_pos (by decide)]
    refine proceeds_of_plain cmds plain_nil ?_
    rw [earlier_resume hParser, List.append_nil]
    refine Tracks.element (left - 1) ?_ (by omega)
    rw [Int.sub_add_cancel]
    exact hFrame

theorem proceeds_element {left : Int} (hParser : f.run.parser = .within initialInfo [left])
    (hFrame : InFrame f.run.handler f.calls (left + 1)) (hLeft : left ≠ -1) :
    Proceeds cmds f begin ((Parser.within initialInfo [left]).parse begin avail) := by
  rw [Parser.parse_initial begin avail (by simp)]
  split
  · refine proceeds_of_plain cmds plain_nil ?_
    rw [earlier_within hParser, show Parser.wait _ = ⟨_, [], false, 0⟩ from rfl, List.append_nil]
    exact Tracks.element left hFrame hLeft
  · obtain ⟨top, hTop, hNext, -⟩ := exists_parser_dispatch [left] (byteAt begin 0)
    obtain ⟨hPlain, hCount⟩ := plain_dispatch [left] (byteAt begin 0)
    refine proceeds_of_plain cmds hPlain ?_
    have hLater := hFrame.append cmds begin hPlain
    rw [hCount, Nat.cast_zero, Int.sub_zero] at hLater
    rw [hNext, earlier_within hParser]
    exact Tracks.leaf top hTop left hLater hLeft

theorem proceeds_leaf {top : StateInfo} {left : Int} (hParser : f.run.parser = .within top [left])
    (hTop : Parser.Leaf top) (hFrame : InFrame f.run.handler f.calls (left + 1)) (hLeft : left ≠ -1)
    (hWell : top.parse = .inlineCommand → ¬(avail ≠ 0 ∧ (scanCr begin avail : Int) ≠ avail)) :
    Proceeds cmds f begin ((Parser.within top [left]).parse begin avail) := by
  have hEarlier := earlier_within hParser
  rcases hTop.parse_cases (show [left].length < 31 by simp) begin avail with
    ⟨next, hNext, hLater, hPlain, hCount, -⟩ | ⟨hLater, hPlain, hCount⟩ |
    ⟨len, hType, hLater, hBegin⟩ | ⟨hLine, hComplete, -⟩
  · refine proceeds_of_plain cmds hPlain ?_
    have hSame := hFrame.append cmds begin hPlain
    rw [hCount, Nat.cast_zero, Int.sub_zero] at hSame
    rw [hLater, hEarlier]
    exact Tracks.leaf next hNext left hSame hLeft
  · refine proceeds_of_plain cmds hPlain ?_
    have hLess := hFrame.append cmds begin hPlain
    rw [hCount, Nat.cast_one, Int.add_sub_cancel] at hLess
    rw [hLater, hEarlier]
    exact Tracks.between left hLess fun hMinus => absurd hMinus hLeft
  · obtain ⟨hInvoked, -⟩ := CommandHandler.handle_beginArray_lists cmds begin f.run.handler len
    refine ⟨?_, Or.inl (by rw [invocations, after, hBegin]; exact hInvoked)⟩
    unfold Tracked after
    dsimp only
    rw [hLater]
    exact Tracks.inner _ (by simp) (by simp)
  · exact absurd hComplete (hWell hLine)

theorem proceeds_inner {lens : List Int} (hDeep : 2 ≤ lens.length) (hLens : lens.length ≤ 31)
    (hWell : ∀ len ∈ lens.head?, ¬(len = 0 ∨ len = -1)) :
    Proceeds cmds f begin ((Parser.resume lens).parse begin avail) := by
  cases lens with
  | nil => cases hDeep
  | cons len lens =>
      rw [Parser.parse_array, if_neg (hWell len rfl)]
      rw [List.length_cons] at hDeep hLens
      split
      · refine proceeds_of_plain cmds plain_nil ?_
        exact Tracks.innerElement ((len - 1) :: lens) (by rw [List.length_cons]; omega)
          (by rw [List.length_cons]; omega)
      · refine proceeds_of_plain cmds plain_nil ?_
        exact Tracks.inner ((len - 1) :: lens) (by rw [List.length_cons]; omega)
          (by rw [List.length_cons]; omega)

theorem proceeds_innerElement {lens : List Int} (hDeep : 2 ≤ lens.length)
    (hLens : lens.length < 31) :
    Proceeds cmds f begin ((Parser.within initialInfo lens).parse begin avail) := by
  rw [Parser.parse_initial begin avail hLens]
  split
  · exact proceeds_of_plain cmds plain_nil (Tracks.innerElement _ hDeep hLens)
  · obtain ⟨top, hTop, hNext, -⟩ := exists_parser_dispatch lens (byteAt begin 0)
    refine proceeds_of_plain cmds (plain_dispatch lens (byteAt begin 0)).1 ?_
    rw [hNext]
    exact Tracks.innerLeaf top hTop lens hDeep hLens

theorem proceeds_innerLeaf {top : StateInfo} {lens : List Int} (hTop : Parser.Leaf top)
    (hDeep : 2 ≤ lens.length) (hLens : lens.length < 31)
    (hWell : top.parse = .inlineCommand → ¬(avail ≠ 0 ∧ (scanCr begin avail : Int) ≠ avail)) :
    Proceeds cmds f begin ((Parser.within top lens).parse begin avail) := by
  rcases hTop.parse_cases hLens begin avail with
    ⟨next, hNext, hLater, hPlain, -⟩ | ⟨hLater, hPlain, -⟩ |
    ⟨len, -, hLater, hBegin⟩ | ⟨hLine, hComplete, -⟩
  · refine proceeds_of_plain cmds hPlain ?_
    rw [hLater]
    exact Tracks.innerLeaf next hNext lens hDeep hLens
  · refine proceeds_of_plain cmds hPlain ?_
    rw [hLater]
    exact Tracks.inner lens hDeep hLens.le
  · obtain ⟨hInvoked, -⟩ := CommandHandler.handle_beginArray_lists cmds begin f.run.handler len
    refine ⟨?_, Or.inl (by rw [invocations, after, hBegin]; exact hInvoked)⟩
    unfold Tracked after
    dsimp only
    rw [hLater]
    exact Tracks.inner _ (by rw [List.length_cons]; omega) (by rw [List.length_cons]; omega)
  · exact absurd hComplete (hWell hLine)

/-- One iteration that ends well what it ends. -/
theorem Tracked.proceeds (h : f.Tracked) (hWell : f.EndsWell r) :
    Proceeds cmds f (r.suffix f.run.begin) (f.run.outcome r) := by
  unfold EndsWell at hWell
  dsimp only at hWell
  unfold ParserRun.outcome
  generalize hParser : f.run.parser = p at *
  unfold Tracked at h
  rw [hParser] at h
  cases h with
  | idle => exact proceeds_idle cmds _ _ hParser
  | top top hTop hCalls =>
      refine proceeds_top cmds _ _ hParser hTop hCalls fun hLine hComplete => ?_
      rw [show (Parser.within top []).top.parse = _ from hLine] at hWell
      exact (hWell hComplete).2
  | between left hFrame hNull =>
      exact proceeds_between cmds _ _ hParser hFrame hNull fun hEnd => (hWell hEnd).2
  | element left hFrame hLeft => exact proceeds_element cmds _ _ hParser hFrame hLeft
  | leaf top hTop left hFrame hLeft =>
      refine proceeds_leaf cmds _ _ hParser hTop hFrame hLeft fun hLine hComplete => ?_
      rw [show (Parser.within top [left]).top.parse = _ from hLine] at hWell
      have hDepth := (hWell hComplete).1
      rw [Parser.stackTop_within] at hDepth
      cases hDepth
  | inner lens hDeep hLens =>
      refine proceeds_inner cmds _ _ hDeep hLens fun len hLen hEnd => ?_
      cases lens with
      | nil => cases hDeep
      | cons first lens =>
          cases hLen
          have hDepth := (hWell hEnd).1
          rw [Parser.stackTop_resume] at hDepth
          omega
  | innerElement lens hDeep hLens => exact proceeds_innerElement cmds _ _ hDeep hLens
  | innerLeaf top hTop lens hDeep hLens =>
      refine proceeds_innerLeaf cmds _ _ hTop hDeep hLens fun hLine hComplete => ?_
      rw [show (Parser.within top lens).top.parse = _ from hLine] at hWell
      have hDepth := (hWell hComplete).1
      rw [Parser.stackTop_within] at hDepth
      omega

theorem step_of_not_awaiting
    (h : (createHandler cmds).awaitingSnapshot f.run.handler = false) :
    step cmds r f = (f.after cmds (r.suffix f.run.begin) (f.run.outcome r),
      (f.run.outcome r).keepGoing) := by
  unfold step
  rw [parserStep_of_not_awaiting h]
  simp only [h, Bool.false_eq_true, ↓reduceIte]
  rfl

/-- An iteration keeps track of the frame. -/
theorem Tracked.step (h : f.Tracked) (hWell : f.EndsWell r) :
    (Framed.step cmds r f).1.Tracked ∧ f.Dispatches (Framed.step cmds r f).1 := by
  cases hAwait : (createHandler cmds).awaitingSnapshot f.run.handler with
  | false =>
      rw [step_of_not_awaiting cmds hAwait]
      exact h.proceeds cmds hWell
  | true =>
      have hStep : Framed.step cmds r f = (⟨f.run, f.earlier⟩, false) := by
        unfold Framed.step parserStep
        simp only [hAwait, ↓reduceIte, List.append_nil]
      rw [hStep]
      refine ⟨?_, Or.inl rfl⟩
      change Tracks f.run.handler f.earlier f.run.parser
      rw [earlier]
      split
      · rename_i hIdle
        rw [hIdle]
        exact Tracks.idle
      · exact h

theorem tracked_of_visits {client : Client ρ}
    (hWell : ∀ f, Visits (Framed.step cmds r) (start client) f → f.EndsWell r)
    (hVisits : Visits (Framed.step cmds r) (start client) f) : f.Tracked := by
  induction hVisits with
  | refl => exact Tracks.idle
  | @tail f next hBefore hNext ih =>
      have hStep := (ih.step cmds (hWell f hBefore)).1
      rw [Continues] at hNext
      rw [hNext] at hStep
      exact hStep

theorem shaped_of_visits {client : Client ρ}
    (hVisits : Visits (Framed.step cmds r) (start client) f) : f.run.parser.Shaped := by
  refine hVisits.invariant (I := fun f => f.run.parser.Shaped) (fun f next hf hNext => ?_)
    Parser.shaped_parserInit
  have hShape := shaped_parserStep (h := createHandler cmds) (r := r) hf
  have hRun : (Framed.step cmds r f).1.run = (parserStep (createHandler cmds) r f.run).1 := rfl
  rw [Continues] at hNext
  rw [← hRun, hNext] at hShape
  exact hShape

theorem resume_eq_parserInit {lens : List Int} (h : Parser.resume lens = parserInit) :
    lens = [] := by
  cases lens with
  | nil => rfl
  | cons len lens => cases h

/-- The end of an array that does not end well, if it invokes a command. -/
theorem not_serves_array {len : Int} {lens : List Int} {args : List Bytes}
    (hParser : f.run.parser = .resume (len :: lens))
    (hBad : ¬(lens = [] ∧ .endBulkString ∈ f.calls)) (begin : Bytes) (newBegin : Int) :
    ¬f.Serves (f.after cmds begin ⟨.resume lens, [.endArray], true, newBegin⟩) args := by
  intro hServes
  have hTop : lens = [] := resume_eq_parserInit hServes.complete
  have hNone : .endBulkString ∉ f.calls := fun hMem => hBad ⟨hTop, hMem⟩
  have hSome := hServes.some
  have hStrings := hServes.strings
  change args.length = (f.earlier ++ [Callback.endArray]).count .endBulkString at hStrings
  rw [earlier_resume hParser, List.count_append, List.count_eq_zero.mpr hNone,
    List.count_eq_zero.mpr (by simp)] at hStrings
  omega

/-- The end of a line that does not end well, if it invokes a command. -/
theorem not_serves_line {lens : List Int} {tokens : List Callback} {args : List Bytes}
    (hBad : ¬(lens = [] ∧ tokens ≠ [])) (len : Int) (begin : Bytes) (newBegin : Int)
    (hInvoked : (f.after cmds begin ⟨.resume lens, .beginArray len :: tokens ++ [.endArray], true,
      newBegin⟩).invocations = f.invocations ++ [args]) :
    ¬f.Serves (f.after cmds begin
      ⟨.resume lens, .beginArray len :: tokens ++ [.endArray], true, newBegin⟩) args := by
  intro hServes
  have hTop : lens = [] := resume_eq_parserInit hServes.complete
  have hSome := hServes.some
  obtain rfl : tokens = [] := by
    by_contra hTokens
    exact hBad ⟨hTop, hTokens⟩
  obtain ⟨hBegun, hLists⟩ := CommandHandler.handle_beginArray_lists cmds begin f.run.handler len
  change ((f.run.handler.handle cmds begin (.beginArray len)).handle cmds begin
    .endArray).invocations = f.run.handler.invocations ++ [args] at hInvoked
  rcases CommandHandler.handle_endArray_lists cmds begin
    (f.run.handler.handle cmds begin (.beginArray len)) with hNone | ⟨hRun, found, hFound, hLength⟩
  · rw [hNone, hBegun] at hInvoked
    exact List.cons_ne_nil _ _ (List.self_eq_append_right.mp hInvoked)
  · obtain ⟨hArgs, hEnds⟩ := hLists hRun
    rw [hFound, hBegun, List.append_cancel_left_eq, List.singleton_inj] at hInvoked
    rw [hInvoked, hArgs, hEnds] at hLength
    rw [hLength] at hSome
    cases hSome

/-- An end that is not as it should be, and that invokes a command all the
same, is no dispatch of a frame. -/
theorem not_dispatches (hShaped : f.run.parser.Shaped) (hBad : ¬f.EndsWell r)
    (hInvokes : (Framed.step cmds r f).1.invocations ≠ f.invocations) :
    ¬f.Dispatches (Framed.step cmds r f).1 := by
  have hListens : (createHandler cmds).awaitingSnapshot f.run.handler = false := by
    by_contra hAwait
    refine hInvokes ?_
    unfold Framed.step parserStep
    rw [if_pos (Bool.eq_true_of_not_eq_false hAwait)]
    rfl
  rintro (hNone | ⟨args, hInvoked, hServes⟩)
  · exact hInvokes hNone
  rw [step_of_not_awaiting cmds hListens, ParserRun.outcome] at hInvoked hServes
  unfold EndsWell at hBad
  dsimp only at hBad
  generalize hParser : f.run.parser = p at *
  cases hShaped with
  | resume lens hLens =>
      cases lens with
      | nil => exact hBad trivial
      | cons len lens =>
          rw [show (Parser.resume (len :: lens)).top.parse = .array from rfl] at hBad
          obtain ⟨hEnd, hNot⟩ := Classical.not_imp.mp hBad
          rw [Parser.parse_array, if_pos (show len = 0 ∨ len = -1 from hEnd)] at hServes
          refine not_serves_array cmds hParser (fun hWell => hNot ?_) _ _ hServes
          rw [Parser.stackTop_resume, hWell.1]
          exact ⟨rfl, hWell.2⟩
  | element lens hne hLens => exact hBad trivial
  | leaf top lens hTop hLens =>
      cases hTop with
      | simple cb hcb => exact hBad trivial
      | arrayLength => exact hBad trivial
      | bulkStringLength => exact hBad trivial
      | bulkString len hLow hHigh => exact hBad trivial
      | inlineCommand =>
          rw [show (Parser.within inlineCommandInfo lens).top.parse = .inlineCommand from rfl] at hBad
          obtain ⟨hEnd, hNot⟩ := Classical.not_imp.mp hBad
          rw [Parser.parse_inlineCommand, if_pos hEnd] at hServes hInvoked
          refine not_serves_line cmds (fun hWell => hNot ?_) _ _ _ hInvoked hServes
          rw [Parser.stackTop_within, hWell.1]
          exact ⟨rfl, hWell.2⟩

/-- Every iteration of a call of the parser, on any bytes: where all arrays and
lines end as they should, each command that is dispatched is that of one
complete frame, with its strings as arguments; and an end that is not so, and
invokes a command, breaks this. -/
theorem one_dispatch_per_frame (client : Client ρ) (r : Range) :
    ((∀ f, Visits (Framed.step cmds r) (start client) f → f.EndsWell r) →
      ∀ f, Visits (Framed.step cmds r) (start client) f →
        f.Dispatches (Framed.step cmds r f).1) ∧
    (∀ f, Visits (Framed.step cmds r) (start client) f → ¬f.EndsWell r →
      (Framed.step cmds r f).1.invocations ≠ f.invocations →
        ¬f.Dispatches (Framed.step cmds r f).1) := by
  constructor
  · intro hWell f hVisits
    exact ((tracked_of_visits cmds hWell hVisits).step cmds (hWell f hVisits)).2
  · intro f hVisits hBad hInvokes
    exact not_dispatches cmds (shaped_of_visits cmds hVisits) hBad hInvokes

def pingRange : Range :=
  ⟨ascii ['*', '1', '\r', '\n', '$', '4', '\r', '\n', 'P', 'I', 'N', 'G', '\r', '\n'], 14, by decide⟩

/-- One array with one string is one command. -/
theorem one_dispatch_ping :
    ∃ f, Visits (Framed.step idleCommands pingRange) (start idleClient) f ∧
      (Framed.step idleCommands pingRange f).1.invocations = [[ascii ['P', 'I', 'N', 'G']]] ∧
      f.Dispatches (Framed.step idleCommands pingRange f).1 := by
  have hWell : ∀ f, Visits (Framed.step idleCommands pingRange) (start idleClient) f →
      f.EndsWell pingRange := by
    have hAll : ∀ f ∈ visited (Framed.step idleCommands pingRange) 8 (start idleClient),
        f.EndsWell pingRange := by decide
    intro f hVisits
    exact hAll f (hVisits.mem_visited rfl)
  have hVisits : Visits (Framed.step idleCommands pingRange) (start idleClient) _ :=
    .head rfl (.head rfl (.head rfl (.head rfl (.head rfl (.head rfl .refl)))))
  exact ⟨_, hVisits, rfl,
    (one_dispatch_per_frame idleCommands idleClient pingRange).1 hWell _ hVisits⟩

def emptyArrayRange : Range := ⟨ascii ['*', '0', '\r', '\n'], 4, by decide⟩

/-- An array of no elements is dispatched as a command of no arguments. -/
theorem empty_array_dispatched :
    ∃ f, Visits (Framed.step idleCommands emptyArrayRange) (start idleClient) f ∧
      (Framed.step idleCommands emptyArrayRange f).1.invocations = f.invocations ++ [[]] ∧
      ¬f.Dispatches (Framed.step idleCommands emptyArrayRange f).1 := by
  have hVisits : Visits (Framed.step idleCommands emptyArrayRange) (start idleClient) _ :=
    .head rfl (.head rfl .refl)
  refine ⟨_, hVisits, rfl, ?_⟩
  rintro (hNone | ⟨args, hInvoked, hServes⟩)
  · exact absurd hNone (by decide)
  · obtain rfl : [] = args := List.singleton_inj.mp hInvoked
    exact absurd hServes.some (by decide)

end Framed

end RedisServer
