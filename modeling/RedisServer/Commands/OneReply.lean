import RedisServer.Commands.ValueTypes

/-! One reply for one command. A client that sends several commands tells the
replies apart by reading them one after the other, so a body that says nothing,
or more than one thing, shifts all that follow. -/
namespace RedisServer

open Machine

def Output.encode : Output → Bytes
  | .reply r => r.encode
  | .bulkHeader len => Piece.bytes (.bulkHeader len)

def addOutput (rb : RingBuffer) : Output → Option RingBuffer
  | .reply r => addReply rb r
  | .bulkHeader len => writeBeginBulkString rb len

/-- One command of a client: the body, and its replies into the output ring. -/
def serveCommand (args : List Bytes) (s : World) (rb : RingBuffer) :
    Option (World × RingBuffer) := do
  let next ← executeCommand args s
  let rb ← next.outputs.foldlM addOutput rb
  some (next, rb)

/-- The commands of a pipeline, with the outputs of each. -/
def servePipeline : List (List Bytes) → World → RingBuffer →
    Option (World × RingBuffer × List (List Output))
  | [], s, rb => some (s, rb, [])
  | args :: commands, s, rb => do
      let (next, rb) ← serveCommand args s rb
      let (last, rb, outputs) ← servePipeline commands next rb
      some (last, rb, next.outputs :: outputs)

/-- The replies of the command fit into the ring, and the write cursor does not
run out of its 64 bits. -/
def HasRoom (args : List Bytes) (s : World) (rb : RingBuffer) : Prop :=
  ∀ next, executeCommand args s = some next →
    (next.outputs.flatMap Output.encode).length ≤ rb.writableLen.toNat ∧
      rb.writeIndex.toNat + (next.outputs.flatMap Output.encode).length < 2 ^ 64

/-- A command other than `PSYNC`, with room for what it replies. -/
structure Servable (args : List Bytes) (s : World) (rb : RingBuffer) : Prop where
  notPsync : getCommandType (args.headD []) ≠ .psync
  room : HasRoom args s rb

/-- What the command adds to the ring is one value. -/
def AppendsOneReply (args : List Bytes) (s : World) (rb : RingBuffer) : Prop :=
  ∃ next rb' bytes r, serveCommand args s rb = some (next, rb') ∧
    rb'.unread = rb.unread.map (· ++ bytes) ∧ readReply bytes = some (r, [])

/-- The arguments for which a body has one thing to say, and says it in a line
where that is the kind of its reply. -/
def OneThing : CommandType → List Bytes → Prop
  | .ping, [_, message] => OneLine message
  | .echo, [_, message] => OneLine message
  | .config, _ :: sub :: _ :: _ => sub = text "GET"
  | .save, args => args.length = 1
  | _, _ => True

/-- `LRANGE` is about to answer with the empty array. -/
def EmptyRange (args : List Bytes) (s : World) : Prop :=
  getCommandType (args.headD []) = .lrange ∧ SelectsNothing (args.map cString) s

/-- The commands that are answered as they should be. The header of the empty
array needs a byte for the NUL of its `snprintf`. -/
structure Answerable (args : List Bytes) (s : World) (rb : RingBuffer) : Prop where
  fitting : ¬(TakesText args ∧ Mismatch args s)
  single : OneThing (getCommandType (args.headD [])) (args.map cString)
  nul : EmptyRange args s → 4 < rb.writableLen.toNat

/-- Every command of the pipeline is one of these when its turn comes. -/
def AllAnswerable : List (List Bytes) → World → RingBuffer → Prop
  | [], _, _ => True
  | args :: commands, s, rb =>
      Servable args s rb ∧ Answerable args s rb ∧
        ∀ next rb', serveCommand args s rb = some (next, rb') → AllAnswerable commands next rb'

section Bodies

variable {args : List Bytes} {s next : World}

theorem cString_cString (bytes : Bytes) : cString (cString bytes) = cString bytes := by
  apply cString_eq_self
  intro h
  exact absurd (List.mem_takeWhile_imp h) (by decide)

theorem World.Answers.imp {ok ok' : Reply → Prop} {result : Option World}
    (h : s.Answers ok result) (hImp : ∀ r, ok r → ok' r) : s.Answers ok' result := by
  obtain ⟨next, r, hResult, hOk, hRest⟩ := h
  exact ⟨next, r, hResult, hImp r hOk, hRest⟩

/-- A command that says one thing passes one reply on. -/
theorem executeCommand_answers (hPsync : getCommandType (args.headD []) ≠ .psync)
    (hFitting : ¬(TakesText args ∧ Mismatch args s))
    (hSingle : OneThing (getCommandType (args.headD [])) (args.map cString)) :
    { s with outputs := [] }.Answers
      (fun r => r.WellFormed ∧ (r = Reply.array [] ↔ EmptyRange args s))
      (executeCommand args s) := by
  have hPlain : getCommandType (args.headD []) ≠ .lrange → ∀ r, Plain r →
      r.WellFormed ∧ (r = Reply.array [] ↔ EmptyRange args s) := by
    intro hOther r hr
    exact ⟨hr.1, ⟨fun h => absurd h hr.2, fun h => absurd h.1 hOther⟩⟩
  have hTypes := fitting_of_not_mismatch hFitting
  have hLine : ∀ command message, args.map cString = [command, message] → OneLine message →
      OneLine (cString message) := by
    intro command message hArgs hMessage
    have hMember : message ∈ args.map cString := by simp [hArgs]
    obtain ⟨arg, -, rfl⟩ := List.mem_map.mp hMember
    rwa [cString_cString]
  unfold TakesText at hTypes
  unfold executeCommand
  cases hCommand : getCommandType (args.headD []) with
  | ping =>
      rw [hCommand] at hPlain hSingle
      refine (handlePing_answers _ fun command message hArgs => ?_).imp (hPlain (by decide))
      rw [hArgs] at hSingle
      exact hLine command message hArgs hSingle
  | echo =>
      rw [hCommand] at hPlain hSingle
      refine (handleEcho_answers _ fun command message hArgs => ?_).imp (hPlain (by decide))
      rw [hArgs] at hSingle
      exact hLine command message hArgs hSingle
  | set =>
      rw [hCommand] at hPlain hTypes
      refine World.Answers.imp ?_ (hPlain (by decide))
      refine handleSet_answers fun key type now value hNeeds => ?_
      exact hTypes (by decide) key type now value (needs_outputs .set _ s [] ▸ hNeeds)
  | incr =>
      rw [hCommand] at hPlain hTypes
      refine World.Answers.imp ?_ (hPlain (by decide))
      refine handleIncrDecr_answers 1 fun command key rest value hArgs hValue => ?_
      exact hTypes (by decide) key .string (s.clock 0) value (by rw [hArgs]; rfl) hValue
  | decr =>
      rw [hCommand] at hPlain hTypes
      refine World.Answers.imp ?_ (hPlain (by decide))
      refine handleIncrDecr_answers (-1) fun command key rest value hArgs hValue => ?_
      exact hTypes (by decide) key .string (s.clock 0) value (by rw [hArgs]; rfl) hValue
  | config =>
      rw [hCommand] at hPlain hSingle
      refine (handleConfig_answers _ fun command sub param params hArgs => ?_).imp
        (hPlain (by decide))
      rw [hArgs] at hSingle
      exact hSingle
  | save =>
      rw [hCommand] at hPlain hSingle
      exact (handleSave_answers _ hSingle).imp (hPlain (by decide))
  | lrange =>
      refine (handleLrange_answers _ _).imp fun r hr => ⟨hr.1, hr.2.trans ?_⟩
      exact ⟨fun h => ⟨hCommand, h⟩, fun h => h.2⟩
  | psync => exact absurd hCommand hPsync
  | get => exact (handleGet_answers _ _).imp (hPlain (by rw [hCommand]; decide))
  | exist => exact (handleExist_answers _ _).imp (hPlain (by rw [hCommand]; decide))
  | del => exact (handleDelete_answers _ _).imp (hPlain (by rw [hCommand]; decide))
  | lpush => exact (handleLpush_answers _ _).imp (hPlain (by rw [hCommand]; decide))
  | rpush => exact (handleRpush_answers _ _).imp (hPlain (by rw [hCommand]; decide))
  | dbsize => exact (handleDbsize_answers _ (args.map cString)).imp (hPlain (by rw [hCommand]; decide))
  | info => exact (handleInfo_answers _ (args.map cString)).imp (hPlain (by rw [hCommand]; decide))
  | replconf => exact (handleReplconf_answers _ _).imp (hPlain (by rw [hCommand]; decide))
  | unknown => exact (unknown_answers _ (args.map cString)).imp (hPlain (by rw [hCommand]; decide))

/-- What is said by a command that does not say one thing. -/
theorem executeCommand_not_oneThing
    (h : ¬OneThing (getCommandType (args.headD [])) (args.map cString))
    (hRun : executeCommand args s = some next) :
    next.outputs = [] ∨
      (∃ message, ¬OneLine (cString message) ∧ next.outputs = [.reply (.simpleString message)]) ∨
      ∃ message, OneLine (cString message) ∧
        next.outputs = [.reply (.error message), .reply (.simpleString (text "OK"))] := by
  have hLine : ∀ command message, args.map cString = [command, message] → ¬OneLine message →
      ¬OneLine (cString message) := by
    intro command message hArgs hMessage
    have hMember : message ∈ args.map cString := by simp [hArgs]
    obtain ⟨arg, -, rfl⟩ := List.mem_map.mp hMember
    rwa [cString_cString]
  unfold executeCommand at hRun
  cases hCommand : getCommandType (args.headD []) with
  | ping =>
      rw [hCommand] at h hRun
      generalize hArgs : args.map cString = cArgs at h hRun
      match cArgs, h with
      | [command, message], h =>
          cases hRun
          exact Or.inr (Or.inl ⟨message, hLine command message hArgs h, rfl⟩)
      | [], h => exact absurd trivial h
      | [_], h => exact absurd trivial h
      | _ :: _ :: _ :: _, h => exact absurd trivial h
  | echo =>
      rw [hCommand] at h hRun
      generalize hArgs : args.map cString = cArgs at h hRun
      match cArgs, h with
      | [command, message], h =>
          cases hRun
          exact Or.inr (Or.inl ⟨message, hLine command message hArgs h, rfl⟩)
      | [], h => exact absurd trivial h
      | [_], h => exact absurd trivial h
      | _ :: _ :: _ :: _, h => exact absurd trivial h
  | config =>
      rw [hCommand] at h hRun
      generalize args.map cString = cArgs at h hRun
      match cArgs, h with
      | command :: sub :: param :: params, h =>
          simp only [commandBody, handleConfig] at hRun
          rw [if_neg (by exact h)] at hRun
          cases hRun
          exact Or.inl rfl
      | [], h => exact absurd trivial h
      | [_], h => exact absurd trivial h
      | [_, _], h => exact absurd trivial h
  | save =>
      rw [hCommand] at h hRun
      simp only [commandBody, handleSave] at hRun
      rw [if_pos (by exact h)] at hRun
      cases hRun
      exact Or.inr (Or.inr ⟨_, by decide +kernel, rfl⟩)
  | _ =>
      rw [hCommand] at h
      exact absurd trivial h

end Bodies

section Rings

variable {args : List Bytes} {s : World} {rb rb' : RingBuffer} {q : Bytes} {w : Nat}

/-- An output with room for it is queued. -/
theorem addOutput_queues (hRing : rb.Queues q w) (hSize : rb.size = 65536) (output : Output)
    (hNul : output = .reply (.array []) → 4 < rb.writableLen.toNat)
    (hHeader : output ≠ .bulkHeader (-1))
    (hRoom : output.encode.length ≤ rb.writableLen.toNat)
    (hTotal : w + output.encode.length < 2 ^ 64) :
    ∃ rb', addOutput rb output = some rb' ∧
      rb'.Queues (q ++ output.encode) (w + output.encode.length) ∧ rb'.size = rb.size := by
  cases output with
  | reply r =>
      refine Reply.Fits.queues hRing hSize ⟨hRoom, fun hEmpty => ?_, by rw [hRing.cursor]; exact hTotal⟩
      rw [hEmpty]
      exact hNul (congrArg Output.reply hEmpty)
  | bulkHeader len =>
      refine Piece.write_exact (p := .bulkHeader len) hRing hRoom (fun hNull => ?_) hSize hTotal
      exact absurd (congrArg Output.bulkHeader hNull) hHeader

/-- Replies with room for all of them are queued one after the other. -/
theorem addOutput_all (replies : List Reply) (hRing : rb.Queues q w) (hSize : rb.size = 65536)
    (hNul : ∀ r ∈ replies, r = .array [] → 4 < rb.writableLen.toNat ∧ replies = [r])
    (hRoom : (replies.flatMap Reply.encode).length ≤ rb.writableLen.toNat)
    (hTotal : w + (replies.flatMap Reply.encode).length < 2 ^ 64) :
    ∃ rb', (replies.map Output.reply).foldlM addOutput rb = some rb' ∧
      rb'.Queues (q ++ replies.flatMap Reply.encode) (w + (replies.flatMap Reply.encode).length) ∧
      rb'.size = rb.size := by
  induction replies generalizing rb q w with
  | nil => exact ⟨rb, rfl, by simpa using hRing, rfl⟩
  | cons r replies ih =>
      rw [List.flatMap_cons, List.length_append] at hRoom hTotal
      obtain ⟨middle, hAdd, hMiddle, hSame⟩ := addOutput_queues hRing hSize (.reply r)
        (fun hEmpty => (hNul r (List.mem_cons_self ..) (Output.reply.inj hEmpty)).1) (by simp)
        (show r.encode.length ≤ _ by omega) (show w + r.encode.length < _ by omega)
      simp only [Output.encode] at hMiddle
      have hBefore := hRing.writableLen
      have hAfter := hMiddle.writableLen
      rw [hSame, List.length_append] at hAfter
      obtain ⟨rb', hRest, hQueues, hSame'⟩ := ih hMiddle (hSame.trans hSize) (by
        intro other hOther hEmpty
        have hOnly := (hNul other (List.mem_cons_of_mem _ hOther) hEmpty).2
        obtain rfl : replies = [] := (List.cons.inj hOnly).2
        cases hOther) (by omega) (by omega)
      refine ⟨rb', ?_, ?_, hSame'.trans hSame⟩
      · rw [List.map_cons, List.foldlM_cons, hAdd]
        exact hRest
      · rw [List.flatMap_cons, List.length_append, ← List.append_assoc, ← Nat.add_assoc]
        exact hQueues

theorem serveCommand_eq_some {next : World} (h : serveCommand args s rb = some (next, rb')) :
    executeCommand args s = some next ∧ next.outputs.foldlM addOutput rb = some rb' := by
  obtain ⟨other, hRun, h⟩ := Option.bind_eq_some_iff.mp h
  obtain ⟨otherRing, hAdd, h⟩ := Option.bind_eq_some_iff.mp h
  cases h
  exact ⟨hRun, hAdd⟩

/-- A command that is answered as it should be adds one well formed reply. -/
theorem Answerable.serves (h : Answerable args s rb) (hServable : Servable args s rb)
    (hReply : s.shouldReply = true) (hRing : rb.Queues q w) (hSize : rb.size = 65536) :
    ∃ next rb' r, serveCommand args s rb = some (next, rb') ∧ next.outputs = [.reply r] ∧
      r.WellFormed ∧ next.shouldReply = true ∧
      rb'.Queues (q ++ r.encode) (w + r.encode.length) ∧ rb'.size = 65536 := by
  obtain ⟨next, r, hRun, ⟨hForm, hEmpty⟩, hSame, hOutputs⟩ :=
    executeCommand_answers hServable.notPsync h.fitting h.single
  have hOne : next.outputs = [.reply r] := by
    rcases hOutputs with hOutputs | ⟨hQuiet, -⟩
    · exact hOutputs
    · exact absurd (hReply.symm.trans hQuiet) (by decide)
  obtain ⟨hRoom, hTotal⟩ := hServable.room next hRun
  have hEncode : next.outputs.flatMap Output.encode = [r].flatMap Reply.encode := by
    rw [hOne]
    rfl
  rw [hEncode] at hRoom hTotal
  rw [hRing.cursor] at hTotal
  obtain ⟨rb', hAdd, hQueues, hSize'⟩ := addOutput_all [r] hRing hSize (by
    intro other hOther hArray
    obtain rfl := List.mem_singleton.mp hOther
    exact ⟨h.nul (hEmpty.mp hArray), rfl⟩) hRoom hTotal
  rw [List.flatMap_singleton] at hQueues
  refine ⟨next, rb', r, ?_, hOne, hForm, hSame.trans hReply, hQueues, hSize'.trans hSize⟩
  simp only [serveCommand, hRun, Option.bind_eq_bind, Option.bind_some, hOne]
  rw [List.map_singleton] at hAdd
  rw [hAdd]
  rfl

/-- The other direction: a command that adds one value is one of these. -/
theorem AppendsOneReply.answerable (h : AppendsOneReply args s rb)
    (hServable : Servable args s rb) (hReply : s.shouldReply = true) (hRing : rb.Queues q w)
    (hSize : rb.size = 65536) : Answerable args s rb := by
  obtain ⟨next, rb', bytes, value, hServe, hUnread, hRead⟩ := h
  obtain ⟨hRun, hAdd⟩ := serveCommand_eq_some hServe
  obtain ⟨hRoom, hTotal⟩ := hServable.room next hRun
  rw [hRing.cursor] at hTotal
  rw [hRing.unread, Option.map_some] at hUnread
  -- what the replies amount to is what was added
  have hBytes : ∀ replies : List Reply, next.outputs = replies.map Output.reply →
      (∀ r ∈ replies, r ≠ .array []) → bytes = replies.flatMap Reply.encode := by
    intro replies hReplies hPlain
    have hEncode : next.outputs.flatMap Output.encode = replies.flatMap Reply.encode := by
      rw [hReplies, List.flatMap_map]
      rfl
    rw [hEncode] at hRoom hTotal
    obtain ⟨same, hSame, hQueues, -⟩ := addOutput_all replies hRing hSize
      (fun r hr hArray => absurd hArray (hPlain r hr)) hRoom hTotal
    rw [hReplies, hSame] at hAdd
    cases hAdd
    rw [hQueues.unread] at hUnread
    exact (List.append_cancel_left (Option.some.inj hUnread)).symm
  have hFitting : ¬(TakesText args ∧ Mismatch args s) := by
    rintro ⟨hText, hMismatch⟩
    rw [executeCommand_list hText hMismatch] at hRun
    cases hRun
  have hSingle : OneThing (getCommandType (args.headD [])) (args.map cString) := by
    by_contra hNot
    rcases executeCommand_not_oneThing hNot hRun with
      hNone | ⟨message, hLine, hOne⟩ | ⟨message, hLine, hTwo⟩
    · rw [hBytes [] hNone (by simp)] at hRead
      cases hRead
    · rw [hBytes [.simpleString message] hOne (by simp)] at hRead
      simp only [List.flatMap_cons, List.flatMap_nil, List.append_nil, Reply.encode,
        List.cons_append, readReply] at hRead
      obtain ⟨⟨line, rest⟩, hLineRead, hValue⟩ := Option.bind_eq_some_iff.mp hRead
      cases hValue
      exact hLine (oneLine_of_readLine hLineRead)
    · rw [hBytes [.error message, .simpleString (text "OK")] hTwo (by simp), List.flatMap_cons,
        readReply_encode (r := .error message) hLine] at hRead
      cases hRead
  refine ⟨hFitting, hSingle, fun hEmpty => ?_⟩
  by_contra hFull
  obtain ⟨same, r, hSame, ⟨-, hArray⟩, -, hOutputs⟩ :=
    executeCommand_answers hServable.notPsync hFitting hSingle
  rw [hRun] at hSame
  cases hSame
  obtain rfl := hArray.mpr hEmpty
  have hOne : next.outputs = [.reply (.array [])] := by
    rcases hOutputs with hOutputs | ⟨hQuiet, -⟩
    · exact hOutputs
    · exact absurd (hReply.symm.trans hQuiet) (by decide)
  rw [hOne] at hRoom hAdd
  have hFour : rb.writableLen.toNat = 4 := by
    change 4 ≤ _ at hRoom
    omega
  have hArrayAdd : addReply rb (.array []) = some rb' := by simpa [addOutput] using hAdd
  rw [addReply_empty_array hRing hFour hArrayAdd] at hUnread
  rw [← List.append_cancel_left (Option.some.inj hUnread)] at hRead
  cases hRead

/-- A pipeline of commands that are answered as they should be queues one
reply for each, in order. -/
theorem servePipeline_replies (commands : List (List Bytes)) (hReply : s.shouldReply = true)
    (hRing : rb.Queues q w) (hSize : rb.size = 65536) (h : AllAnswerable commands s rb) :
    ∃ last rb', ∃ replies : List Reply,
      servePipeline commands s rb = some (last, rb', replies.map fun r => [Output.reply r]) ∧
      replies.length = commands.length ∧ (∀ r ∈ replies, r.WellFormed) ∧
      rb'.unread = some (q ++ replies.flatMap Reply.encode) := by
  induction commands generalizing s rb q w with
  | nil =>
      refine ⟨s, rb, [], rfl, rfl, by simp, ?_⟩
      rw [hRing.unread, List.flatMap_nil, List.append_nil]
  | cons args commands ih =>
      obtain ⟨hServable, hAnswerable, hRest⟩ := h
      obtain ⟨next, middle, r, hServe, hOne, hForm, hNextReply, hMiddle, hMiddleSize⟩ :=
        hAnswerable.serves hServable hReply hRing hSize
      obtain ⟨last, rb', replies, hPipeline, hLength, hForms, hUnread⟩ :=
        ih hNextReply hMiddle hMiddleSize (hRest next middle hServe)
      refine ⟨last, rb', r :: replies, ?_, by rw [List.length_cons, hLength, List.length_cons],
        ?_, ?_⟩
      · simp only [servePipeline, hServe, hPipeline, Option.bind_eq_bind, Option.bind_some, hOne,
          List.map_cons]
      · intro other hOther
        rcases List.mem_cons.mp hOther with rfl | hOther
        · exact hForm
        · exact hForms other hOther
      · rw [hUnread, List.flatMap_cons, List.append_assoc]

/-- Exactly which commands add one value to the ring; and a pipeline of such
commands is read by its client as that many replies. -/
theorem one_reply_per_command_iff (hReply : s.shouldReply = true) (hRing : rb.Queues q w)
    (hSize : rb.size = 65536) :
    (∀ args, Servable args s rb → (AppendsOneReply args s rb ↔ Answerable args s rb)) ∧
      ∀ commands, AllAnswerable commands s rb → ∃ last rb' stream, ∃ replies : List Reply,
        servePipeline commands s rb = some (last, rb', replies.map fun r => [Output.reply r]) ∧
        rb'.unread = some (q ++ stream) ∧
        readReplies commands.length stream = some (replies.map Reply.said) := by
  constructor
  · intro args hServable
    constructor
    · intro h
      exact h.answerable hServable hReply hRing hSize
    · intro h
      obtain ⟨next, rb', r, hServe, -, hForm, -, hQueues, -⟩ :=
        h.serves hServable hReply hRing hSize
      refine ⟨next, rb', r.encode, r.said, hServe, ?_, ?_⟩
      · rw [hQueues.unread, hRing.unread, Option.map_some]
      · have hRead := readReply_encode hForm []
        rwa [List.append_nil] at hRead
  · intro commands h
    obtain ⟨last, rb', replies, hPipeline, hLength, hForms, hUnread⟩ :=
      servePipeline_replies commands hReply hRing hSize h
    refine ⟨last, rb', _, replies, hPipeline, hUnread, ?_⟩
    rw [← hLength]
    exact readReplies_encode replies hForms

end Rings

/-- `PING` on a fresh connection. -/
theorem one_reply_per_command_ping :
    ∃ rb, rbCreate 4096 65536 3 true = some rb ∧ AppendsOneReply [text "PING"] emptyWorld rb := by
  have hServable : Servable [text "PING"] emptyWorld ⟨0, 0, fun _ => 0, 65536, 3⟩ := by
    refine ⟨by decide +kernel, fun next hRun => ?_⟩
    cases hRun
    exact ⟨by decide +kernel, by decide +kernel⟩
  refine ⟨_, RingBuffer.rbCreate_client, ((one_reply_per_command_iff rfl
    RingBuffer.queues_client rfl).1 _ hServable).mpr ⟨?_, ?_, ?_⟩⟩
  · rintro ⟨hText, -⟩
    exact absurd hText (by unfold TakesText; decide +kernel)
  · exact trivial
  · rintro ⟨hRange, -⟩
    exact absurd hRange (by decide +kernel)

/-- `CONFIG SET dir x` is not answered at all. -/
theorem config_set_unanswered :
    ∃ rb, rbCreate 4096 65536 3 true = some rb ∧
      Servable [text "CONFIG", text "SET", text "dir", text "x"] emptyWorld rb ∧
      ¬AppendsOneReply [text "CONFIG", text "SET", text "dir", text "x"] emptyWorld rb := by
  have hServable : Servable [text "CONFIG", text "SET", text "dir", text "x"] emptyWorld
      ⟨0, 0, fun _ => 0, 65536, 3⟩ := by
    refine ⟨by decide +kernel, fun next hRun => ?_⟩
    cases hRun
    exact ⟨by decide +kernel, by decide +kernel⟩
  refine ⟨_, RingBuffer.rbCreate_client, hServable, fun h => ?_⟩
  have hSingle := (h.answerable hServable rfl
    RingBuffer.queues_client rfl).single
  exact absurd hSingle (by change ¬text "SET" = text "GET"; decide +kernel)

end RedisServer
