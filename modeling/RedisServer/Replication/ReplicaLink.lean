import RedisServer.Commands.OneReply
import RedisServer.Replication.BacklogContent

/-! A master and one of its replicas. What the replica's socket accepts comes
from three places: the output ring, the snapshot file, and the backlog. Which
of them is used when the socket is ready depends on the state of the replica
alone. -/
namespace RedisServer

open Machine

/-- What a `write` to a socket reports. -/
inductive WriteResult where
  | sent (n : Nat)
  | interrupted
  | wouldBlock
  | failed

/-- `flush_client_output`, with what the socket has accepted and the number
that is returned. When no more results are given, the socket blocks. -/
def flushClientOutput (rb : RingBuffer) (totalBytesSent : Nat) :
    List WriteResult → Option (RingBuffer × Bytes × UInt64)
  | [] => some (rb, [], UInt64.ofNat totalBytesSent)
  | result :: results => do
      let (outputBuf, readableLen) ← rbReadable rb
      if readableLen.toNat = 0 then some (rb, [], UInt64.ofNat totalBytesSent)
      else
        match result with
        | .interrupted => flushClientOutput rb totalBytesSent results
        | .wouldBlock => some (rb, [], UInt64.ofNat totalBytesSent)
        | .failed => some (rb, [], -1)
        | .sent n =>
            let bytesSent := min n readableLen.toNat
            if bytesSent = 0 then some (rb, [], UInt64.ofNat totalBytesSent)
            else
              let (next, _) ← rbRead rb (UInt64.ofNat bytesSent)
              let (last, more, returned) ←
                flushClientOutput next (totalBytesSent + bytesSent) results
              some (last, rb.load outputBuf bytesSent ++ more, returned)

/-- The loop of `master_send_rdb_snapshot`: the offset it ends with, what the
socket has accepted, and whether it left by an error. The number of bytes that
is asked for does not change; at the end of the file nothing is sent. -/
def sendRdb (file : Bytes) (remainingBytes : Nat) :
    Nat → List WriteResult → Nat × Bytes × Bool
  | rdbFileOffset, [] => (rdbFileOffset, [], false)
  | rdbFileOffset, .wouldBlock :: _ => (rdbFileOffset, [], false)
  | rdbFileOffset, .failed :: _ => (rdbFileOffset, [], true)
  | rdbFileOffset, .interrupted :: results => sendRdb file remainingBytes rdbFileOffset results
  | rdbFileOffset, .sent n :: results =>
      let bytesSent := min n (min remainingBytes (file.length - rdbFileOffset))
      if bytesSent = 0 then (rdbFileOffset, [], false)
      else
        let (last, more, error) := sendRdb file remainingBytes (rdbFileOffset + bytesSent) results
        (last, (file.drop rdbFileOffset).take bytesSent ++ more, error)

def masterSendRdbSnapshot (file : Bytes) (fields : ReplicaFields) (results : List WriteResult) :
    ReplicaFields × Bytes :=
  let remainingBytes := toSize (fields.rdbFileSize - fields.rdbFileOffset)
  let (offset, sent, error) := sendRdb file remainingBytes fields.rdbFileOffset.toNat results
  let fields := { fields with rdbFileOffset := offset }
  if error then (fields, sent)
  else if fields.rdbFileOffset = fields.rdbFileSize then
    ({ fields with masterReplState := .propagate }, sent)
  else (fields, sent)

/-- A copy to the address of a ring goes over its cursors. A longer one would
change the address of the region, and then memory that is not the ring's. -/
def RingBuffer.overwriteRecord (rb : RingBuffer) (bytes : Bytes) : Option RingBuffer :=
  if bytes.length ≤ 16 then
    let image := bytes ++ (rb.record []).drop bytes.length
    some { rb with
      readIndex := UInt64.ofNat (fromLittleEndian (image.take 8))
      writeIndex := UInt64.ofNat (fromLittleEndian (image.drop 8)) }
  else none

/-- The master as one replica depends on it. The other replicas are those of
`info`; `stream` are all bytes propagated so far and `accepted` those that the
socket of this replica has accepted since its `PSYNC`. After a disconnection
there is no `replica`. -/
structure Link where
  info : ServerInfo
  stream : Bytes
  dump : Bytes
  outputBuffer : RingBuffer
  replica : Option ReplicaFields
  accepted : Bytes

/-- What can happen to a replica: a read of another client is propagated, its
socket is ready, the other replicas change, or the database is saved for some
other client. -/
inductive LinkEvent where
  | propagate (r : PropagatedRead)
  | epollout (results : List WriteResult)
  | others (replicas : List Replica)
  | save (dump : Bytes)

namespace Link

/-- The client has sent its `PSYNC`: the command, and the flush at the end of
the read it came with. There is room for sixteen replicas. -/
def attach (info : ServerInfo) (stream : Bytes) (world : World) (rb : RingBuffer)
    (args : List Bytes) (results : List WriteResult) : Option Link := do
  let next ← handlePsync args { world with
    masterReplOffset := info.masterReplOffset
    replBacklogBaseOffset := info.replBacklogBaseOffset
    replica := none
    outputs := [] }
  let fields ← next.replica
  if 16 ≤ info.replicas.length then none
  else
    let rb ← next.outputs.foldlM addOutput rb
    let (rb, accepted, _) ← flushClientOutput rb 0 results
    some ⟨info, stream, next.dump, rb, some fields, accepted⟩

def flush (s : Link) (results : List WriteResult) : Option Link := do
  let (outputBuffer, accepted, _) ← flushClientOutput s.outputBuffer 0 results
  some { s with outputBuffer := outputBuffer, accepted := s.accepted ++ accepted }

/-- `continue_psync`. The slice of the backlog is copied to the address of the
output ring, and whatever the flush sends is counted. -/
def continuePsync (s : Link) (fields : ReplicaFields) (results : List WriteResult) :
    Option Link := do
  match ← RedisServer.continuePsync s.info fields.replOffset with
  | .caughtUp => some { s with replica := some { fields with masterReplState := .propagate } }
  | .ahead | .outside => some { s with replica := none }
  | .nothing => some s
  | .copies relativeOffset bytesToSend =>
      let (readBuf, _) ← rbReadable s.info.replBacklog
      let slice := s.info.replBacklog.load (readBuf + relativeOffset) bytesToSend
      let outputBuffer ← s.outputBuffer.overwriteRecord slice
      let (outputBuffer, accepted, bytesSent) ← flushClientOutput outputBuffer 0 results
      some { s with
        outputBuffer := outputBuffer
        accepted := s.accepted ++ accepted
        replica := some { fields with
          replOffset :=
            if 0 < bytesSent then toInt64 (fields.replOffset + bytesSent.toNat)
            else fields.replOffset } }

/-- `master_handle_replica_out`. -/
def epollout (s : Link) (results : List WriteResult) : Option Link :=
  match s.replica with
  | none => some s
  | some fields =>
      match fields.masterReplState with
      | .propagate => s.flush results
      | .sendingRdbData =>
          let (fields, sent) := masterSendRdbSnapshot s.dump fields results
          some { s with replica := some fields, accepted := s.accepted ++ sent }
      | .psync => s.continuePsync fields results

/-- The bytes go to the backlog, to the other replicas and to this one. A
replica without room makes the server free the writing client and use it. -/
def propagate (s : Link) (r : PropagatedRead) : Option Link := do
  let (info, codes) ← updateBacklog s.info r.copied
  if (codes.map Prod.snd).getD 0 ≠ 0 then none
  else
    let replicas ← appendAll r.range info.replicas
    let s := { s with info := { info with replicas := replicas }, stream := s.stream ++ r.range }
    match s.replica with
    | none => some s
    | some _ => do
        let rep ← (Replica.mk s.outputBuffer []).append r.range
        some { s with outputBuffer := rep.outputBuffer }

def step : Option Link → LinkEvent → Option Link × Unit
  | none, _ => (none, ())
  | some s, .propagate r => (s.propagate r, ())
  | some s, .epollout results => (s.epollout results, ())
  | some s, .others replicas =>
      (if replicas.length < 16 then
        some { s with info := { s.info with replicas := replicas } }
      else none, ())
  | some s, .save dump => (some { s with dump := dump }, ())

end Link

section Flush

variable {rb : RingBuffer} {q : Bytes} {w : Nat}

/-- A flush moves some of the queue to the socket. -/
theorem RingBuffer.Queues.flush (h : rb.Queues q w) (total : Nat) (results : List WriteResult) :
    ∃ next k returned, flushClientOutput rb total results = some (next, q.take k, returned) ∧
      next.Queues (q.drop k) w ∧ next.size = rb.size := by
  induction results generalizing rb q total with
  | nil => exact ⟨rb, 0, _, rfl, h, rfl⟩
  | cons result results ih =>
      simp only [flushClientOutput, h.rbReadable, Option.bind_eq_bind, Option.bind_some,
        h.readableLen]
      split
      · exact ⟨rb, 0, _, rfl, h, rfl⟩
      · cases result with
        | interrupted => exact ih h total
        | wouldBlock => exact ⟨rb, 0, _, rfl, h, rfl⟩
        | failed => exact ⟨rb, 0, _, rfl, h, rfl⟩
        | sent n =>
            dsimp only
            split
            · exact ⟨rb, 0, _, rfl, h, rfl⟩
            · obtain ⟨next, hRead, hNext, hSame⟩ := h.rbRead (Nat.min_le_right n q.length)
              obtain ⟨last, k, returned, hFlush, hLast, hSame'⟩ :=
                ih hNext (total + min n q.length)
              refine ⟨last, min n q.length + k, returned, ?_, ?_, hSame'.trans hSame⟩
              · simp only [hRead, Option.bind_some, hFlush]
                rw [h.load_take (Nat.min_le_right n q.length), List.take_add]
              · rw [← List.drop_drop]
                exact hLast

/-- The loop over `sendfile` sends the file from its offset on. -/
theorem sendRdb_eq (file : Bytes) (remaining offset : Nat) (results : List WriteResult)
    (hOffset : offset ≤ file.length) :
    ∃ k error, sendRdb file remaining offset results =
        (offset + k, (file.drop offset).take k, error) ∧ offset + k ≤ file.length := by
  induction results generalizing offset with
  | nil => exact ⟨0, false, rfl, hOffset⟩
  | cons result results ih =>
      cases result with
      | interrupted => exact ih offset hOffset
      | wouldBlock => exact ⟨0, false, rfl, hOffset⟩
      | failed => exact ⟨0, true, rfl, hOffset⟩
      | sent n =>
          simp only [sendRdb]
          split
          · exact ⟨0, false, rfl, hOffset⟩
          · obtain ⟨k, error, hRest, hEnd⟩ :=
              ih (offset + min n (min remaining (file.length - offset))) (by omega)
            refine ⟨min n (min remaining (file.length - offset)) + k, error, ?_, by omega⟩
            rw [hRest, List.take_add, List.drop_drop, Nat.add_assoc]

end Flush

/-- What `handle_psync` makes of a client that becomes a replica. -/
theorem handlePsync_replica {args : List Bytes} {world next : World} {fields : ReplicaFields}
    (h : handlePsync args { world with replica := none, outputs := [] } = some next)
    (hFields : next.replica = some fields) :
    (∃ command replid offsetStr rest, args = command :: replid :: offsetStr :: rest ∧
      PartialResync world.masterReplOffset world.replBacklogBaseOffset replid offsetStr ∧
      fields = ⟨.psync, (strtol offsetStr).value, 0, 0⟩ ∧ next.dump = world.dump ∧
      next.outputs = [.reply (.simpleString (text "CONTINUE"))]) ∨
    (fields = ⟨.sendingRdbData, 0, 0, next.dump.length⟩ ∧
      next.dump = rdbSaveDataToFile world.db ∧
      next.outputs = [.reply (.simpleString (fullresyncText world)),
        .bulkHeader next.dump.length]) := by
  unfold handlePsync at h
  split at h
  · rename_i command replid offsetStr rest
    dsimp only at h
    split at h
    · rename_i hPartial
      cases h
      cases hFields
      exact Or.inl ⟨command, replid, offsetStr, rest, rfl, hPartial, rfl, rfl, rfl⟩
    · cases h
      cases hFields
      exact Or.inr ⟨rfl, rfl, rfl⟩
  · cases h
    cases hFields

namespace Link

variable {s : Link} {queue : Bytes}

/-- The client as `handle_psync` finds it. -/
def asking (info : ServerInfo) (world : World) : World :=
  { world with
    masterReplOffset := info.masterReplOffset
    replBacklogBaseOffset := info.replBacklogBaseOffset }

theorem attach_eq_some {info : ServerInfo} {stream : Bytes} {world : World} {rb : RingBuffer}
    {args : List Bytes} {results : List WriteResult}
    (h : attach info stream world rb args results = some s) :
    ∃ next fields filled returned,
      handlePsync args { asking info world with replica := none, outputs := [] } = some next ∧
      next.replica = some fields ∧ next.outputs.foldlM addOutput rb = some filled ∧
      flushClientOutput filled 0 results = some (s.outputBuffer, s.accepted, returned) ∧
      s.info = info ∧ s.stream = stream ∧ s.dump = next.dump ∧ s.replica = some fields := by
  obtain ⟨next, hPsync, h⟩ := Option.bind_eq_some_iff.mp h
  obtain ⟨fields, hFields, h⟩ := Option.bind_eq_some_iff.mp h
  split at h
  · cases h
  · obtain ⟨filled, hFilled, h⟩ := Option.bind_eq_some_iff.mp h
    obtain ⟨⟨ring, accepted, returned⟩, hFlush, h⟩ := Option.bind_eq_some_iff.mp h
    cases h
    exact ⟨next, fields, filled, returned, hPsync, hFields, hFilled, hFlush, rfl, rfl, rfl, rfl⟩

/-- The counters of the backlog are in order. -/
def InOrder (s : Link) : Prop :=
  s.stream.length < 2 ^ 63 ∧ ∃ content, Keeps s.info content s.stream.length

/-- The output ring holds these bytes, and its counter is not near its end. -/
def Holds (s : Link) (queue : Bytes) : Prop :=
  s.outputBuffer.size = 65536 ∧
    ∃ w, s.outputBuffer.Queues queue w ∧ w < 2 ^ 63 + s.stream.length

/-- The flush at the end of the read with the `PSYNC`. -/
theorem holds_of_flush {filled : RingBuffer} {q : Bytes} {w : Nat} {results : List WriteResult}
    {returned : UInt64}
    (hFlush : flushClientOutput filled 0 results = some (s.outputBuffer, s.accepted, returned))
    (hFilled : filled.Queues q w) (hSize : filled.size = 65536) (hw : w < 2 ^ 63 + s.stream.length) :
    ∃ k, s.accepted = q.take k ∧ s.Holds (q.drop k) := by
  obtain ⟨ring, k, returned', hSame, hRest, hRestSize⟩ := hFilled.flush 0 results
  rw [hFlush] at hSame
  simp only [Option.some.injEq, Prod.mk.injEq] at hSame
  obtain ⟨hBuffer, hAccepted, -⟩ := hSame
  rw [← hBuffer] at hRest hRestSize
  exact ⟨k, hAccepted, hRestSize.trans hSize, w, hRest, hw⟩

/-- The bytes of the read can be counted and copied, to the other replicas and
to this one. -/
def Copies (s : Link) (r : PropagatedRead) : Prop :=
  s.stream.length + r.bytesParsed < 2 ^ 63 ∧
    (∀ rep ∈ s.info.replicas, ∃ next, rep.append r.range = some next) ∧
    (s.replica.isSome → r.bytesParsed ≤ s.outputBuffer.writableLen.toNat)

/-- A read that can be copied is propagated: nothing but the stream and the
ring of an attached replica changes for this link. -/
theorem InOrder.propagate (h : s.InOrder) {r : PropagatedRead} (hCopies : s.Copies r)
    (hQueue : s.replica.isSome → s.Holds queue) :
    ∃ next, s.propagate r = some next ∧ next.InOrder ∧ next.stream = s.stream ++ r.range ∧
      next.dump = s.dump ∧ next.replica = s.replica ∧ next.accepted = s.accepted ∧
      (s.replica.isSome → next.Holds (queue ++ r.range)) := by
  obtain ⟨hSmall, content, hKeeps⟩ := h
  obtain ⟨hTotal, hOthers, hRoom⟩ := hCopies
  have hLength := r.range_length
  have hCopied := r.copied_length
  have hParsed := r.parsed_le
  obtain ⟨info, codes, hUpdate, hCodes, hSame, hNext⟩ :=
    hKeeps.update r.copied (by omega) (by omega)
  obtain ⟨replicas, hAppend, -⟩ := appendAll_of_forall r.range info.replicas
    (P := fun _ => True) (by
      rw [hSame]
      intro rep hRep
      obtain ⟨next, hAppend⟩ := hOthers rep hRep
      exact ⟨next, hAppend, trivial⟩)
  have hStream : (s.stream ++ r.range).length = s.stream.length + r.bytesParsed := by
    rw [List.length_append, hLength]
  rw [hCopied, ← hStream] at hNext
  have hKeeps' : Keeps { info with replicas := replicas }
      ((content ++ r.copied).drop (content.length + r.bytesParsed - 1048576))
      (s.stream ++ r.range).length := ⟨hNext.queue, hNext.size, hNext.offset, hNext.base⟩
  simp only [Link.propagate, hUpdate, exit_of_codes hCodes, Option.bind_eq_bind, Option.bind_some, ne_eq,
    not_true_eq_false, ↓reduceIte, hAppend]
  cases hReplica : s.replica with
  | none =>
      refine ⟨_, rfl, ⟨by rw [hStream]; exact hTotal, _, hKeeps'⟩, rfl, rfl, rfl, rfl, ?_⟩
      intro hSome
      cases hSome
  | some fields =>
      rw [hReplica] at hQueue hRoom
      obtain ⟨hSize, w, hQueues, hw⟩ := hQueue rfl
      have hFit := hRoom rfl
      obtain ⟨ring, hWrite, hRing, hRingSize⟩ := hQueues.put
        (show r.range.length + ([] : Bytes).length ≤ _ by rw [List.length_nil]; omega) (by omega)
      rw [List.append_nil] at hWrite
      have hOwn : (Replica.mk s.outputBuffer []).append r.range = some ⟨ring, r.range⟩ := by
        simp only [Replica.append, hQueues.rbWritable, Option.bind_eq_bind, Option.bind_some]
        rw [if_pos (by omega), hWrite]
        rfl
      simp only [hOwn, Option.bind_some]
      refine ⟨_, rfl, ⟨by rw [hStream]; exact hTotal, _, hKeeps'⟩, rfl, rfl, rfl, rfl, ?_⟩
      intro _
      refine ⟨hRingSize.trans hSize, _, hRing, ?_⟩
      change w + _ < 2 ^ 63 + (s.stream ++ r.range).length
      omega

theorem Holds.flush (h : s.Holds queue) (results : List WriteResult) :
    ∃ next k, s.flush results = some next ∧ next.info = s.info ∧ next.stream = s.stream ∧
      next.replica = s.replica ∧ next.accepted = s.accepted ++ queue.take k ∧
      next.Holds (queue.drop k) := by
  obtain ⟨hSize, w, hQueues, hw⟩ := h
  obtain ⟨ring, k, returned, hFlush, hRing, hRingSize⟩ := hQueues.flush 0 results
  refine ⟨{ s with outputBuffer := ring, accepted := s.accepted ++ queue.take k }, k, ?_,
    rfl, rfl, rfl, rfl, hRingSize.trans hSize, w, hRing, hw⟩
  simp only [Link.flush, hFlush, Option.bind_eq_bind, Option.bind_some]

end Link

end RedisServer
