import RedisServer.Storage.LiveKeys
import RedisServer.Commands.OneReply

/-! `SET` and `GET` on the wire. The parser takes any bytes between the two
ends of a bulk string, and so does the splitter of the arguments; from there on
keys and values are C strings, up to the reply that measures the value anew. -/
namespace RedisServer

open Machine

section Exchange

variable (stale : Bytes) (client : Client (Option World)) (rb : RingBuffer)

/-- The commands in one buffer of the client add these bytes to its output
ring. -/
def Replies (commands : List (List Bytes)) (bytes : Bytes) : Prop :=
  ∀ r : Range, r.mem.take r.stop = encodeCommands commands →
    ∃ last next rb', ParserParse (createHandler (redisCommands stale)) r parserInit
        (createCommandHandler client 256 10) last ∧
      last.handler.client.rest = some next ∧ next.outputs.foldlM addOutput rb = some rb' ∧
      rb'.unread = rb.unread.map (· ++ bytes)

def setArgs (key value : Bytes) : List Bytes := [text "SET", key, value]

def getArgs (key : Bytes) : List Bytes := [text "GET", key]

def okReply : Bytes := Reply.encode (.simpleString (text "OK"))

/-- A value that was set is the reply to `GET`, byte for byte, also after
another key has been set. -/
def BinarySafe (k v k' v' : Bytes) : Prop :=
  Replies stale client rb [setArgs k v, getArgs k] (okReply ++ encodeBulkString v) ∧
    (k' ≠ k → Replies stale client rb [setArgs k v, setArgs k' v', getArgs k]
      (okReply ++ okReply ++ encodeBulkString v))

/-- The commands fit the input ring, and either value fits the output ring
behind the two other replies. -/
structure FitsRings (k v k' v' : Bytes) : Prop where
  input : (encodeCommands [setArgs k v, setArgs k' v', getArgs k]).length ≤ 65536
  output : ∀ x ∈ [v, v'], 10 + (encodeBulkString x).length ≤ rb.writableLen.toNat
  cursor : ∀ x ∈ [v, v'], rb.writeIndex.toNat + (10 + (encodeBulkString x).length) < 2 ^ 64

end Exchange

section Encoding

theorem encodeBulkString_length (x : Bytes) :
    (encodeBulkString x).length = (natText x.length).length + x.length + 5 := by
  simp only [encodeBulkString, lengthText, List.length_cons, List.length_append, List.length_nil]
  omega

theorem encodeBulkString_length_mono {x y : Bytes} (h : x.length ≤ y.length) :
    (encodeBulkString x).length ≤ (encodeBulkString y).length := by
  have hText := natText_length_mono h
  rw [encodeBulkString_length, encodeBulkString_length]
  omega

/-- The length comes first, so that nothing inside the text can end it. -/
theorem encodeBulkString_injective : Function.Injective encodeBulkString := by
  intro x y h
  have hTotal := congrArg List.length h
  rw [encodeBulkString_length, encodeBulkString_length] at hTotal
  have hLength : x.length = y.length := by
    rcases Nat.le_total x.length y.length with hLe | hLe
    · have hText := natText_length_mono hLe
      omega
    · have hText := natText_length_mono hLe
      omega
  rw [encodeBulkString, encodeBulkString, hLength, List.cons_inj_right, List.append_cancel_left_eq,
    List.append_cancel_right_eq] at h
  exact h

end Encoding

section Bodies

variable {s : World} {key value : Bytes}

/-- `SET` without options. -/
theorem handleSet_plain (command key value : Bytes) (s : World) :
    handleSet [command, key, value] s =
      some (({ s with db := s.db.set key (.str value) 0 } : World).answerIf
        (.simpleString (text "OK"))) := by
  simp [handleSet, parseSetOptions, applySet, existingForSet, oldValue, keptExpiration, setAnswer]

/-- `GET` of a text without a deadline. -/
theorem handleGet_held (command : Bytes) (h : s.db.toMap key = some ⟨.str value, 0⟩) :
    handleGet [command, key] s = some (s.tick.answerIf (.bulkString value)) := by
  have hGet : redisDbGet s.db key (s.clock 0) = (s.db, some ⟨.str value, 0⟩) :=
    s.db.get_of_lasting h le_rfl _
  simp only [handleGet, World.get_eq, hGet, Option.bind_eq_bind, Option.bind_some]
  rfl

/-- What the client holds after the commands is what the bodies make of it, one
after the other. -/
theorem foldl_handleCommand_rest (stale : Bytes) (commands : List (List Bytes))
    (client : Client (Option World)) :
    (commands.foldl (fun client args => handleCommand (redisCommands stale) args client)
        client).rest =
      commands.foldl (fun world args => world.bind
        (commandBody (getCommandType (args.headD stale)) (args.map cString))) client.rest := by
  induction commands generalizing client with
  | nil => rfl
  | cons args commands ih => exact ih _

/-- The world after a key and a value have been set. -/
def World.afterSet (s : World) (entry : Bytes × Bytes) : World :=
  ({ s with db := s.db.set (cString entry.1) (.str (cString entry.2)) 0 } : World).answer
    (.simpleString (text "OK"))

theorem commandBody_setArgs (stale : Bytes) (entry : Bytes × Bytes)
    (hReply : s.shouldReply = true) :
    commandBody (getCommandType ((setArgs entry.1 entry.2).headD stale))
      ((setArgs entry.1 entry.2).map cString) s = some (s.afterSet entry) := by
  have hType : getCommandType ((setArgs entry.1 entry.2).headD stale) = .set := by
    change getCommandType (text "SET") = .set
    decide +kernel
  rw [hType]
  refine (handleSet_plain (cString (text "SET")) _ _ _).trans ?_
  exact congrArg some (if_pos hReply)

theorem commandBody_getArgs (stale : Bytes) (hReply : s.shouldReply = true)
    (h : s.db.toMap (cString key) = some ⟨.str value, 0⟩) :
    commandBody (getCommandType ((getArgs key).headD stale)) ((getArgs key).map cString) s =
      some (s.tick.answer (.bulkString value)) := by
  have hType : getCommandType ((getArgs key).headD stale) = .get := by
    change getCommandType (text "GET") = .get
    decide +kernel
  rw [hType]
  refine (handleGet_held (cString (text "GET")) h).trans ?_
  exact congrArg some (if_pos hReply)

/-- Any number of `SET`s. -/
theorem foldl_setArgs (stale : Bytes) (entries : List (Bytes × Bytes))
    (hReply : s.shouldReply = true) :
    (entries.map fun entry => setArgs entry.1 entry.2).foldl (fun world args => world.bind
        (commandBody (getCommandType (args.headD stale)) (args.map cString))) (some s) =
      some (entries.foldl World.afterSet s) ∧
    (entries.foldl World.afterSet s).shouldReply = true ∧
    (entries.foldl World.afterSet s).outputs =
      s.outputs ++ (List.replicate entries.length (.simpleString (text "OK"))).map Output.reply := by
  induction entries generalizing s with
  | nil => exact ⟨rfl, hReply, (List.append_nil _).symm⟩
  | cons entry entries ih =>
      obtain ⟨hRun, hSame, hOutputs⟩ := ih (s := s.afterSet entry) hReply
      refine ⟨?_, hSame, ?_⟩
      · rw [List.map_cons, List.foldl_cons, Option.bind_some, commandBody_setArgs stale entry hReply]
        exact hRun
      · rw [List.foldl_cons, hOutputs]
        simp [World.afterSet, World.answer, List.replicate_succ]

/-- Any number of `SET`s and then a `GET`. -/
theorem exists_sets_get (stale : Bytes) {client : Client (Option World)} {world : World}
    (entries : List (Bytes × Bytes)) (hRest : client.rest = some world)
    (hOutputs : world.outputs = []) (hReply : world.shouldReply = true)
    (hHeld : (entries.foldl World.afterSet world).db.toMap (cString key) = some ⟨.str value, 0⟩) :
    ∃ next, (((entries.map fun entry => setArgs entry.1 entry.2) ++ [getArgs key]).foldl
        (fun client args => handleCommand (redisCommands stale) args client) client).rest =
          some next ∧
      next.outputs = (List.replicate entries.length (Reply.simpleString (text "OK")) ++
        [Reply.bulkString value]).map Output.reply := by
  obtain ⟨hRun, hSame, hAll⟩ := foldl_setArgs stale entries hReply
  rw [hOutputs, List.nil_append] at hAll
  refine ⟨(entries.foldl World.afterSet world).tick.answer (.bulkString value), ?_, ?_⟩
  · rw [foldl_handleCommand_rest, hRest, List.foldl_append, hRun, List.foldl_cons, List.foldl_nil,
      Option.bind_some]
    exact commandBody_getArgs stale hSame hHeld
  · rw [List.map_append, ← hAll]
    rfl

end Bodies

section Exchanges

variable {stale : Bytes} {client : Client (Option World)} {rb : RingBuffer} {q : Bytes} {w : Nat}

/-- Replies that fit the ring are all that a client gets. -/
theorem replies_iff {commands : List (List Bytes)} {next : World} {replies : List Reply}
    {bytes : Bytes} (hClient : ¬client.AwaitingSnapshot)
    (hSmall : (encodeCommands commands).length < 2 ^ 31)
    (hNext : (commands.foldl (fun client args => handleCommand (redisCommands stale) args client)
      client).rest = some next)
    (hOutputs : next.outputs = replies.map Output.reply) (hPlain : .array [] ∉ replies)
    (hRing : rb.Queues q w) (hSize : rb.size = 65536)
    (hRoom : (replies.flatMap Reply.encode).length ≤ rb.writableLen.toNat)
    (hTotal : w + (replies.flatMap Reply.encode).length < 2 ^ 64) :
    Replies stale client rb commands bytes ↔ bytes = replies.flatMap Reply.encode := by
  obtain ⟨rb', hAdd, hQueues, -⟩ := addOutput_all replies hRing hSize
    (fun r hr hEmpty => absurd (hEmpty ▸ hr) hPlain) hRoom hTotal
  constructor
  · intro h
    have hBytes : (encodeCommands commands).take (encodeCommands commands).length =
        encodeCommands commands := List.take_length
    obtain ⟨last, other, otherRing, hParse, hOther, hAdded, hUnread⟩ :=
      h ⟨encodeCommands commands, (encodeCommands commands).length, Nat.le_refl _⟩ hBytes
    obtain ⟨same, hSame, -, -, -, hRan⟩ := ends_whole (redisCommands stale)
      (r := ⟨encodeCommands commands, (encodeCommands commands).length, Nat.le_refl _⟩)
      (createCommandHandler client 256 10) rfl hClient hBytes hSmall
    obtain rfl := Ends.unique hParse hSame
    obtain rfl : other = next := by
      rw [hRan.client] at hOther
      exact Option.some.inj (hOther.symm.trans hNext)
    obtain rfl : otherRing = rb' := by
      rw [hOutputs] at hAdded
      exact Option.some.inj (hAdded.symm.trans hAdd)
    rw [hQueues.unread, hRing.unread, Option.map_some, Option.some_inj,
      List.append_cancel_left_eq] at hUnread
    exact hUnread.symm
  · rintro rfl r hBytes
    have hStop : r.stop = (encodeCommands commands).length := by
      rw [← hBytes, List.length_take, Nat.min_eq_left r.fits]
    obtain ⟨last, hParse, -, -, -, hRan⟩ := ends_whole (redisCommands stale)
      (createCommandHandler client 256 10) rfl hClient hBytes (by omega)
    refine ⟨last, next, rb', hParse, ?_, ?_, ?_⟩
    · rw [hRan.client]
      exact hNext
    · rw [hOutputs]
      exact hAdd
    · rw [hQueues.unread, hRing.unread, Option.map_some]

/-- What a `GET` after some `SET`s replies is the text held at its key. -/
theorem replies_sets_get_iff {world : World} (stale : Bytes) (entries : List (Bytes × Bytes))
    (key value said : Bytes) (hClient : ¬client.AwaitingSnapshot) (hRest : client.rest = some world)
    (hOutputs : world.outputs = []) (hReply : world.shouldReply = true)
    (hHeld : (entries.foldl World.afterSet world).db.toMap (cString key) =
      some ⟨.str (cString value), 0⟩)
    (hSmall : (encodeCommands ((entries.map fun entry => setArgs entry.1 entry.2) ++
      [getArgs key])).length < 2 ^ 31)
    (hRing : rb.Queues q w) (hSize : rb.size = 65536)
    (hRoom : 5 * entries.length + (encodeBulkString value).length ≤ rb.writableLen.toNat)
    (hTotal : w + (5 * entries.length + (encodeBulkString value).length) < 2 ^ 64) :
    Replies stale client rb ((entries.map fun entry => setArgs entry.1 entry.2) ++ [getArgs key])
        ((List.replicate entries.length okReply).flatten ++ encodeBulkString said) ↔
      said = cString value := by
  obtain ⟨next, hNext, hAll⟩ := exists_sets_get stale entries hRest hOutputs hReply hHeld
  have hEncode : (List.replicate entries.length (Reply.simpleString (text "OK")) ++
      [Reply.bulkString (cString value)]).flatMap Reply.encode =
        (List.replicate entries.length okReply).flatten ++ encodeBulkString (cString value) := by
    rw [List.flatMap_append, List.flatMap_singleton, List.flatMap, List.map_replicate]
    simp only [okReply, Reply.encode, cString_cString]
  have hOk : okReply.length = 5 := by decide +kernel
  have hLength : ((List.replicate entries.length okReply).flatten ++
      encodeBulkString (cString value)).length ≤
        5 * entries.length + (encodeBulkString value).length := by
    have hShort := encodeBulkString_length_mono (cString_length_le value)
    rw [List.length_append, List.length_flatten, List.map_replicate, List.sum_replicate, hOk,
      smul_eq_mul]
    omega
  rw [← hEncode] at hLength
  rw [replies_iff hClient hSmall hNext hAll (by simp) hRing hSize (by omega) (by omega), hEncode,
    List.append_cancel_left_eq]
  exact encodeBulkString_injective.eq_iff

/-- The reply to `GET` right after `SET`. -/
theorem replies_set_get_iff {world : World} (stale k v : Bytes) (hClient : ¬client.AwaitingSnapshot)
    (hRest : client.rest = some world) (hOutputs : world.outputs = [])
    (hReply : world.shouldReply = true) (hRing : rb.Queues q w) (hSize : rb.size = 65536)
    (hInput : (encodeCommands [setArgs k v, getArgs k]).length ≤ 65536)
    (hRoom : 10 + (encodeBulkString v).length ≤ rb.writableLen.toNat)
    (hTotal : w + (10 + (encodeBulkString v).length) < 2 ^ 64) :
    Replies stale client rb [setArgs k v, getArgs k] (okReply ++ encodeBulkString v) ↔
      cString v = v := by
  have hIff := replies_sets_get_iff stale [(k, v)] k v v hClient hRest hOutputs hReply
    (by simp [World.afterSet, World.answer, RedisDb.toMap_set])
    (Nat.lt_of_le_of_lt hInput (by omega)) hRing hSize (by simp; omega) (by simp; omega)
  simpa [eq_comm] using hIff

/-- The reply to `GET` after another key has been set too. The two keys are one
if they are the same string. -/
theorem replies_set_set_get_iff {world : World} (stale k v k' v' : Bytes)
    (hClient : ¬client.AwaitingSnapshot) (hRest : client.rest = some world)
    (hOutputs : world.outputs = []) (hReply : world.shouldReply = true) (hRing : rb.Queues q w)
    (hSize : rb.size = 65536)
    (hInput : (encodeCommands [setArgs k v, setArgs k' v', getArgs k]).length ≤ 65536)
    (hRoom : ∀ x ∈ [v, v'], 10 + (encodeBulkString x).length ≤ rb.writableLen.toNat)
    (hTotal : ∀ x ∈ [v, v'], w + (10 + (encodeBulkString x).length) < 2 ^ 64) :
    Replies stale client rb [setArgs k v, setArgs k' v', getArgs k]
        (okReply ++ okReply ++ encodeBulkString v) ↔
      (if cString k' = cString k then cString v' else cString v) = v := by
  have hIff := fun (x : Bytes) (hx : x ∈ [v, v']) hHeld =>
    replies_sets_get_iff stale [(k, v), (k', v')] k x v hClient hRest hOutputs hReply hHeld
      (Nat.lt_of_le_of_lt hInput (by omega)) hRing hSize (hRoom x hx) (hTotal x hx)
  split
  · rename_i hSame
    simpa [eq_comm] using hIff v' (by simp)
      (by simp [World.afterSet, World.answer, RedisDb.toMap_set, hSame])
  · rename_i hOther
    simpa [eq_comm] using hIff v (by simp)
      (by simp [World.afterSet, World.answer, RedisDb.toMap_set, Ne.symm hOther])

/-- Exactly which values come back as they were sent: those without a NUL. And
another key is another key where the two differ before their first NUL. -/
theorem binary_safe_iff {world : World} {k v k' v' : Bytes} (hClient : client.type = .regular)
    (hRest : client.rest = some world) (hOutputs : world.outputs = [])
    (hReply : world.shouldReply = true) (hRing : rb.Queues q w) (hSize : rb.size = 65536)
    (hFits : FitsRings rb k v k' v') :
    BinarySafe stale client rb k v k' v' ↔
      (0 : UInt8) ∉ v ∧ (k' ≠ k → cString k' = cString k → cString v' = v) := by
  obtain ⟨hInput, hOutput, hCursor⟩ := hFits
  rw [hRing.cursor] at hCursor
  have hAwait : ¬client.AwaitingSnapshot := fun h => by cases hClient.symm.trans h.1
  have hShorter : (encodeCommands [setArgs k v, getArgs k]).length ≤
      (encodeCommands [setArgs k v, setArgs k' v', getArgs k]).length := by
    simp only [encodeCommands, List.flatMap_cons, List.length_append]
    omega
  rw [BinarySafe, replies_set_get_iff stale k v hAwait hRest hOutputs hReply hRing hSize
      (hShorter.trans hInput) (hOutput v (by simp)) (hCursor v (by simp)),
    replies_set_set_get_iff stale k v k' v' hAwait hRest hOutputs hReply hRing hSize hInput hOutput
      hCursor, ← cString_eq_self_iff]
  refine and_congr_right fun hSelf => forall_congr' fun _ => ?_
  split
  · rename_i hSame
    simp [hSame]
  · rename_i hOther
    simp [hOther, hSelf]

end Exchanges

/-- A new client of an empty store. -/
def freshClient : Client (Option World) := ⟨.regular, .none, false, some emptyWorld⟩

/-- A value of CR, LF and a byte that is no text. -/
theorem binary_safe_line_end :
    ∃ rb, rbCreate 4096 65536 3 true = some rb ∧
      BinarySafe [] freshClient rb (text "k") [13, 10, 255] (text "j") (text "v") := by
  refine ⟨_, RingBuffer.rbCreate_client, (binary_safe_iff rfl rfl rfl rfl
    RingBuffer.queues_client rfl ⟨?_, ?_, ?_⟩).mpr ⟨by decide, ?_⟩⟩
  · decide +kernel
  · decide +kernel
  · decide +kernel
  · exact fun _ hSame => absurd hSame (by decide +kernel)

/-- Of a value with a NUL only what stands before it comes back. -/
theorem binary_value_cut :
    ∃ rb, rbCreate 4096 65536 3 true = some rb ∧
      FitsRings rb (text "k") [97, 0, 98] (text "j") (text "v") ∧
      ¬BinarySafe [] freshClient rb (text "k") [97, 0, 98] (text "j") (text "v") := by
  refine ⟨_, RingBuffer.rbCreate_client, ⟨?_, ?_, ?_⟩, fun h => ?_⟩
  · decide +kernel
  · decide +kernel
  · decide +kernel
  · obtain ⟨hAlone, -⟩ := h
    have hWhole : cString [97, 0, 98] = [97, 0, 98] :=
      (replies_set_get_iff [] (text "k") [97, 0, 98] (by decide) rfl rfl rfl
        RingBuffer.queues_client rfl (by decide +kernel) (by decide +kernel)
        (by decide +kernel)).mp hAlone
    exact absurd hWhole (by decide)

end RedisServer
