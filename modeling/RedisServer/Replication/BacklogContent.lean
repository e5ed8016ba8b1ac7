import RedisServer.Machine.ByteCodec
import RedisServer.Replication.Backlog

/-! What the backlog holds. The replicas are given the bytes that the parser
has taken, but the backlog is filled from the address of the input ring's own
record, so the two agree only as far as that memory happens to repeat the
command. -/
namespace RedisServer

open Machine

/-- The memory from the address of a ring on: its two cursors, then the rest of
the record and whatever lies behind it. -/
def RingBuffer.record (rb : RingBuffer) (beyond : Bytes) : Bytes :=
  littleEndian 8 rb.readIndex.toNat ++ littleEndian 8 rb.writeIndex.toNat ++ beyond

/-- A read whose parsed bytes are propagated, with the input ring of its client
and the memory behind the cursors of that ring. No more is parsed than the ring
can hold, and there is memory to copy. -/
structure PropagatedRead where
  input : RingBuffer
  beyond : Bytes
  bytesParsed : Nat
  parsed_le : bytesParsed ≤ 65536
  mapped : bytesParsed ≤ (input.record beyond).length

namespace PropagatedRead

/-- The bytes that the parser has taken. -/
def range (r : PropagatedRead) : Bytes :=
  r.input.load (r.input.readIndex % r.input.size).toNat r.bytesParsed

/-- The bytes that the backlog is given. -/
def copied (r : PropagatedRead) : Bytes := (r.input.record r.beyond).take r.bytesParsed

theorem range_length (r : PropagatedRead) : r.range.length = r.bytesParsed := by
  rw [range, RingBuffer.load, window_length]

theorem copied_length (r : PropagatedRead) : r.copied.length = r.bytesParsed := by
  rw [copied, List.length_take, Nat.min_eq_left r.mapped]

end PropagatedRead

/-- The copy for one replica. Without room the writing client is freed in place
of the replica, and its memory is used after that. -/
def Replica.append (rep : Replica) (bytes : Bytes) : Option Replica := do
  let (ptr, len) ← rbWritable rep.outputBuffer
  if bytes.length ≤ len.toNat then
    let (outputBuffer, _) ← rbWrite (rep.outputBuffer.memcpy ptr bytes) (UInt64.ofNat bytes.length)
    some ⟨outputBuffer, rep.appended ++ bytes⟩
  else none

def appendAll (bytes : Bytes) : List Replica → Option (List Replica)
  | [] => some []
  | rep :: replicas => do
      let rep ← rep.append bytes
      let replicas ← appendAll bytes replicas
      some (rep :: replicas)

/-- A master with the stream that it has propagated so far. -/
structure Streaming where
  info : ServerInfo
  stream : Bytes

/-- A read is propagated, or the socket of a replica takes some bytes. -/
inductive StreamEvent where
  | propagate (r : PropagatedRead)
  | drain (replica n : Nat)

namespace Streaming

def propagate (s : Streaming) (r : PropagatedRead) : Option Streaming := do
  let (info, codes) ← updateBacklog s.info r.copied
  if (codes.map Prod.snd).getD 0 ≠ 0 then none
  else
    let replicas ← appendAll r.range info.replicas
    some ⟨{ info with replicas := replicas }, s.stream ++ r.range⟩

def drain (s : Streaming) (j n : Nat) : Option Streaming :=
  match s.info.replicas[j]? with
  | none => some s
  | some rep => do
      let (outputBuffer, _) ← rbRead rep.outputBuffer (UInt64.ofNat n)
      some { s with
        info := { s.info with
          replicas := s.info.replicas.set j { rep with outputBuffer := outputBuffer } } }

/-- The state is `none` when the server is gone. -/
def step : Option Streaming → StreamEvent → Option Streaming × Unit
  | none, _ => (none, ())
  | some s, .propagate r => (s.propagate r, ())
  | some s, .drain j n => (s.drain j n, ())

/-- Byte number `o` of the stream sits at position `o - base` of the backlog,
up to the end of both; and every replica was given the whole stream. -/
def ContentRight : Option Streaming → Prop
  | none => False
  | some s =>
      0 ≤ s.info.replBacklogBaseOffset ∧
      s.info.replBacklogBaseOffset ≤ s.info.masterReplOffset ∧
      s.info.replBacklog.unread = some (s.stream.drop s.info.replBacklogBaseOffset.toNat) ∧
      s.info.masterReplOffset = s.stream.length ∧
      (∀ rep ∈ s.info.replicas, rep.appended = s.stream)

/-- The memory at the ring's record repeats the parsed bytes, every replica has
room for them, and the offset can count them. -/
def Repeats : Option Streaming → StreamEvent → Prop
  | some s, .propagate r =>
      r.copied = r.range ∧
      (∀ rep ∈ s.info.replicas, r.bytesParsed ≤ rep.outputBuffer.writableLen.toNat) ∧
      s.stream.length + r.bytesParsed < 2 ^ 63
  | _, _ => True

end Streaming

section Replicas

variable {rep : Replica} {bytes q : Bytes} {w : Nat}

theorem Replica.append_of_room (h : rep.outputBuffer.Queues q w)
    (hRoom : bytes.length ≤ rep.outputBuffer.writableLen.toNat) (hTotal : w + bytes.length < 2 ^ 64) :
    ∃ next, rep.append bytes = some next ∧ next.appended = rep.appended ++ bytes ∧
      next.outputBuffer.Queues (q ++ bytes) (w + bytes.length) := by
  obtain ⟨ring, hWrite, hNext, -⟩ :=
    h.put (show bytes.length + ([] : Bytes).length ≤ _ from hRoom) hTotal
  rw [List.append_nil] at hWrite
  refine ⟨⟨ring, rep.appended ++ bytes⟩, ?_, rfl, hNext⟩
  simp only [Replica.append, h.rbWritable, Option.bind_eq_bind, Option.bind_some]
  rw [if_pos hRoom, hWrite]
  rfl

theorem Replica.room_of_append {next : Replica} (h : rep.append bytes = some next) :
    bytes.length ≤ rep.outputBuffer.writableLen.toNat := by
  obtain ⟨⟨ptr, len⟩, hWritable, h⟩ := Option.bind_eq_some_iff.mp h
  unfold rbWritable at hWritable
  split at hWritable
  · cases hWritable
    dsimp only at h
    split at h
    · rename_i hRoom
      exact hRoom
    · cases h
  · cases hWritable

theorem appendAll_of_forall (bytes : Bytes) (replicas : List Replica) {P : Replica → Prop}
    (h : ∀ rep ∈ replicas, ∃ next, rep.append bytes = some next ∧ P next) :
    ∃ nexts, appendAll bytes replicas = some nexts ∧ ∀ next ∈ nexts, P next := by
  induction replicas with
  | nil => exact ⟨[], rfl, by simp⟩
  | cons rep replicas ih =>
      obtain ⟨next, hNext, hP⟩ := h rep (List.mem_cons_self ..)
      obtain ⟨nexts, hNexts, hAll⟩ := ih fun rep hRep => h rep (List.mem_cons_of_mem _ hRep)
      refine ⟨next :: nexts, ?_, ?_⟩
      · rw [appendAll, hNext, hNexts]
        rfl
      · intro other hOther
        rcases List.mem_cons.mp hOther with rfl | hOther
        · exact hP
        · exact hAll other hOther

theorem append_of_appendAll {replicas nexts : List Replica}
    (h : appendAll bytes replicas = some nexts) :
    ∀ rep ∈ replicas, ∃ next, rep.append bytes = some next := by
  induction replicas generalizing nexts with
  | nil => simp
  | cons rep replicas ih =>
      obtain ⟨next, hNext, h⟩ := Option.bind_eq_some_iff.mp h
      obtain ⟨rest, hRest, -⟩ := Option.bind_eq_some_iff.mp h
      intro other hOther
      rcases List.mem_cons.mp hOther with rfl | hOther
      · exact ⟨next, hNext⟩
      · exact ih hRest other hOther

end Replicas

namespace Streaming

/-- The invariant: the backlog keeps an end of the stream, and the rings of the
replicas have not come near the end of their counters. -/
structure Right (s : Streaming) : Prop where
  content : ∃ content, Keeps s.info content s.stream.length ∧ content <:+ s.stream
  replicas : ∀ rep ∈ s.info.replicas, rep.appended = s.stream ∧
    ∃ q w, rep.outputBuffer.Queues q w ∧ w < 2 ^ 63 + s.stream.length
  small : s.stream.length < 2 ^ 63

variable {s : Streaming}

theorem Right.contentRight (h : Right s) : ContentRight (some s) := by
  obtain ⟨content, hKeeps, hSuffix⟩ := h.content
  have hBase := hKeeps.base
  have hOffset := hKeeps.offset
  have hLength := hKeeps.queue.length_le
  refine ⟨by omega, by omega, ?_, hOffset, fun rep hRep => (h.replicas rep hRep).1⟩
  rw [hKeeps.queue.unread, show s.info.replBacklogBaseOffset.toNat =
    s.stream.length - content.length by omega, ← List.suffix_iff_eq_drop.mp hSuffix]

/-- A step that repeats the parsed bytes keeps the invariant. -/
theorem Right.propagate (h : Right s) {r : PropagatedRead}
    (hRepeats : Repeats (some s) (.propagate r)) :
    ∃ next, s.propagate r = some next ∧ Right next := by
  obtain ⟨hCopied, hRoom, hTotal⟩ := hRepeats
  obtain ⟨content, hKeeps, hSuffix⟩ := h.content
  have hLength := r.range_length
  obtain ⟨info, codes, hUpdate, hCodes, hSame, hNext⟩ := hKeeps.update
    r.copied (by rw [r.copied_length]; exact r.parsed_le)
    (by rw [r.copied_length]; exact hTotal)
  obtain ⟨replicas, hAppend, hReplicas⟩ := appendAll_of_forall r.range info.replicas
    (P := fun next => next.appended = s.stream ++ r.range ∧
      ∃ q w, next.outputBuffer.Queues q w ∧ w < 2 ^ 63 + (s.stream ++ r.range).length) (by
      rw [hSame]
      intro rep hRep
      obtain ⟨hAppended, q, w, hQueues, hw⟩ := h.replicas rep hRep
      have hSmall := h.small
      obtain ⟨next, hNext, hNextAppended, hNextQueues⟩ := Replica.append_of_room hQueues
        (show r.range.length ≤ _ by rw [hLength]; exact hRoom rep hRep) (by omega)
      refine ⟨next, hNext, by rw [hNextAppended, hAppended], _, _, hNextQueues, ?_⟩
      rw [List.length_append]
      omega)
  refine ⟨⟨{ info with replicas := replicas }, s.stream ++ r.range⟩, ?_, ?_⟩
  · simp only [Streaming.propagate, hUpdate, exit_of_codes hCodes, Option.bind_eq_bind, Option.bind_some, ne_eq,
      not_true_eq_false, ↓reduceIte, hAppend]
  · rw [hCopied, ← @List.length_append _ s.stream] at hNext
    refine ⟨⟨_, ⟨hNext.queue, hNext.size, hNext.offset, hNext.base⟩, ?_⟩, hReplicas, ?_⟩
    · obtain ⟨before, hBefore⟩ := hSuffix
      refine (List.drop_suffix _ _).trans ⟨before, ?_⟩
      rw [← List.append_assoc, hBefore]
    · rw [List.length_append, hLength]
      exact hTotal

theorem Right.drain (h : Right s) (j n : Nat) : ∃ next, s.drain j n = some next ∧ Right next := by
  unfold Streaming.drain
  split
  · exact ⟨s, rfl, h⟩
  · rename_i rep hRep
    obtain ⟨hAppended, q, w, hQueues, hw⟩ := h.replicas rep (List.mem_of_getElem? hRep)
    obtain ⟨ring, code, q', hRead, hNext⟩ := hQueues.rbRead_any (UInt64.ofNat n)
    rw [hRead]
    refine ⟨_, rfl, ?_, ?_, h.small⟩
    · obtain ⟨content, hKeeps, hSuffix⟩ := h.content
      exact ⟨content, ⟨hKeeps.queue, hKeeps.size, hKeeps.offset, hKeeps.base⟩, hSuffix⟩
    · intro other hOther
      rcases List.mem_or_eq_of_mem_set hOther with hOld | rfl
      · exact h.replicas other hOld
      · exact ⟨hAppended, q', w, hNext, hw⟩

/-- A step after which the content is right has repeated the parsed bytes: the
backlog ends with what was copied, and the stream with what was parsed. -/
theorem Right.repeats (h : Right s) {r : PropagatedRead}
    (hRight : ContentRight (s.propagate r)) : Repeats (some s) (.propagate r) := by
  have hRange := r.range_length
  have hCopied := r.copied_length
  have hParsed := r.parsed_le
  have hSmall := h.small
  cases hPropagate : s.propagate r with
  | none =>
      rw [hPropagate] at hRight
      exact absurd hRight id
  | some next =>
      rw [hPropagate] at hRight
      obtain ⟨hLow, hHigh, hUnread, hOffset, -⟩ := hRight
      obtain ⟨⟨info, codes⟩, hUpdate, hPropagate⟩ := Option.bind_eq_some_iff.mp hPropagate
      dsimp only at hPropagate
      split at hPropagate
      · cases hPropagate
      · obtain ⟨replicas, hAppend, hPropagate⟩ := Option.bind_eq_some_iff.mp hPropagate
        cases hPropagate
        obtain ⟨content, hKeeps, -⟩ := h.content
        have hMaster := updateBacklog_offset hUpdate
        have hBounds := toInt64_range (s.info.masterReplOffset + r.copied.length)
        rw [← hMaster] at hBounds
        change info.masterReplOffset = _ at hOffset
        rw [List.length_append] at hOffset
        have hTotal : s.stream.length + r.bytesParsed < 2 ^ 63 := by omega
        obtain ⟨info', codes', hUpdate', -, hSame, hNext⟩ :=
          hKeeps.update r.copied (by omega) (by omega)
        rw [hUpdate] at hUpdate'
        cases hUpdate'
        have hRoom : ∀ rep ∈ s.info.replicas,
            r.bytesParsed ≤ rep.outputBuffer.writableLen.toNat := by
          intro rep hRep
          obtain ⟨next, hNext⟩ := append_of_appendAll hAppend rep (by rw [hSame]; exact hRep)
          rw [← hRange]
          exact Replica.room_of_append hNext
        refine ⟨?_, hRoom, hTotal⟩
        -- both are the last bytes of what the backlog holds
        change info.replBacklog.unread =
          some ((s.stream ++ r.range).drop info.replBacklogBaseOffset.toNat) at hUnread
        change 0 ≤ info.replBacklogBaseOffset at hLow
        change info.replBacklogBaseOffset ≤ info.masterReplOffset at hHigh
        rw [hNext.queue.unread] at hUnread
        have hContent := Option.some.inj hUnread
        have hLength := congrArg List.length hContent
        rw [List.length_drop, List.length_drop, List.length_append, List.length_append] at hLength
        rw [List.drop_append_of_le_length (by omega), List.drop_append_of_le_length (by omega)]
          at hContent
        exact List.append_inj_right' hContent (by omega)

/-- The server has just started to propagate. The rings of the replicas may
have been used before. -/
structure Fresh (s : Streaming) : Prop where
  backlog : ∃ pageSize fd mapped, rbCreate pageSize 1048576 fd mapped = some s.info.replBacklog
  offset : s.info.masterReplOffset = 0
  base : s.info.replBacklogBaseOffset = 0
  stream : s.stream = []
  replicas : ∀ rep ∈ s.info.replicas, rep.appended = [] ∧
    ∃ q w, rep.outputBuffer.Queues q w ∧ w < 2 ^ 63

theorem Fresh.right (h : Fresh s) : Right s := by
  obtain ⟨pageSize, fd, mapped, hCreate⟩ := h.backlog
  refine ⟨⟨[], ?_, List.nil_suffix⟩, ?_, ?_⟩
  · rw [h.stream]
    exact ⟨RingBuffer.queues_create hCreate (by decide), rbCreate_size hCreate, h.offset,
      by rw [h.base]; rfl⟩
  · rw [h.stream]
    exact h.replicas
  · rw [h.stream]
    decide

end Streaming

/-- Along every run, the content is right in all states exactly when every
propagated read finds its bytes repeated at the record of the input ring and
all replicas have room for them. -/
theorem backlog_content_throughout_iff {s : Streaming} (hStart : s.Fresh)
    (events : List StreamEvent) :
    Throughout Streaming.step Streaming.ContentRight (some s) events ↔
      AllSteps Streaming.step Streaming.Repeats (some s) events := by
  refine throughout_iff_allSteps_of_inv (J := fun s => ∃ t, s = some t ∧ t.Right) ?_ ?_ ?_
    ⟨s, rfl, hStart.right⟩ events
  · rintro _ ⟨t, rfl, hRight⟩
    exact hRight.contentRight
  · rintro _ event ⟨t, rfl, hRight⟩
    cases event with
    | propagate r =>
        constructor
        · exact hRight.repeats
        · intro hRepeats
          obtain ⟨next, hNext, hNextRight⟩ := hRight.propagate hRepeats
          change Streaming.ContentRight (t.propagate r)
          rw [hNext]
          exact hNextRight.contentRight
    | drain j n =>
        obtain ⟨next, hNext, hNextRight⟩ := hRight.drain j n
        refine iff_of_true ?_ trivial
        change Streaming.ContentRight (t.drain j n)
        rw [hNext]
        exact hNextRight.contentRight
  · rintro _ event ⟨t, rfl, hRight⟩ hRepeats
    cases event with
    | propagate r => exact hRight.propagate hRepeats
    | drain j n => exact hRight.drain j n

/-- A master without replicas. -/
def Streaming.first : Streaming := ⟨⟨0, ⟨0, 0, fun _ => 0, 1048576, 3⟩, 0, []⟩, []⟩

theorem Streaming.fresh_first : Streaming.first.Fresh where
  backlog := ⟨4096, 3, true, rfl⟩
  offset := rfl
  base := rfl
  stream := rfl
  replicas := by
    intro rep hRep
    cases hRep

/-- The line end of a payload that arrives by itself when the read cursor is
2573, which is a line end too when it is stored in memory. -/
theorem backlog_content_line_end :
    ∃ r : PropagatedRead, r.range = crlf ∧
      Throughout Streaming.step Streaming.ContentRight (some .first) [.propagate r] := by
  let r : PropagatedRead := ⟨⟨2573, 2575, fun i => if i = 2573 then 13 else 10, 65536, 3⟩,
    List.replicate 24 0, 2, by decide, by decide⟩
  refine ⟨r, by decide, (backlog_content_throughout_iff Streaming.fresh_first _).mpr ⟨?_, trivial⟩⟩
  refine ⟨by decide, ?_, by decide⟩
  intro rep hRep
  cases hRep

/-- `SET a b` as the first bytes of a client: the backlog starts with the read
cursor instead. -/
theorem backlog_content_wrong :
    ∃ rb ring, rbCreate 4096 65536 4 true = some rb ∧
      rb.Stores (encodeCommand [text "SET", text "a", text "b"]) ring ∧
      ∃ r : PropagatedRead, r.input = ring ∧ r.bytesParsed = 27 ∧
        ¬Throughout Streaming.step Streaming.ContentRight (some .first) [.propagate r] := by
  have hCreate : rbCreate 4096 65536 4 true = some ⟨0, 0, fun _ => 0, 65536, 4⟩ := by rfl
  obtain ⟨ring, hStores, hRing, -⟩ := (RingBuffer.queues_create hCreate (by decide)).stores
    (show (encodeCommand [text "SET", text "a", text "b"]).length ≤ _ by decide +kernel)
    (by decide +kernel)
  let r : PropagatedRead := ⟨ring, List.replicate 24 0, 27, by decide, by
    simp [RingBuffer.record]⟩
  refine ⟨_, ring, hCreate, hStores, r, rfl, rfl, fun h => ?_⟩
  have hRepeats : r.copied = r.range := (Streaming.fresh_first.right.repeats h.2).1
  have hRange : r.range = encodeCommand [text "SET", text "a", text "b"] := by
    obtain ⟨f, hf, hQueue, -⟩ := hRing
    have hLoad := hf.load_readable
    rw [hQueue] at hLoad
    exact hLoad
  have hCursor : ring.readIndex.toNat = 0 := by
    obtain ⟨f, hf, hQueue, hWritten⟩ := hRing
    have hRead := hf.read_eq
    rw [hQueue, hWritten] at hRead
    change _ + 27 = 27 at hRead
    omega
  rw [hRange] at hRepeats
  have hHead := congrArg List.head? hRepeats
  simp only [PropagatedRead.copied, RingBuffer.record, r, hCursor] at hHead
  change some (0 : UInt8) = some 42 at hHead
  exact absurd hHead (by decide)

end RedisServer
