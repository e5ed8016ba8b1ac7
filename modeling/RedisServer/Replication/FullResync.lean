import RedisServer.Replication.PartialResync

/-! The full resynchronisation of a replica. The reply and the header of the
snapshot are queued in the output ring, the snapshot goes out from its file.
Nothing makes the second wait for the first. -/
namespace RedisServer

open Machine

/-- `+FULLRESYNC <replid> <offset>`. -/
def fullresyncLine (offset : Int) : Bytes :=
  text "+FULLRESYNC " ++ masterReplid ++ text " " ++ intText offset ++ crlf

/-- `$<n>`. -/
def snapshotHeader (n : Nat) : Bytes := text "$" ++ natText n ++ crlf

/-- What comes before the snapshot. -/
def resyncHead (offset : Int) (snapshot : Bytes) : Bytes :=
  fullresyncLine offset ++ snapshotHeader snapshot.length

theorem fullresyncLine_eq (s : World) :
    (Reply.simpleString (fullresyncText s)).encode = fullresyncLine s.masterReplOffset := by
  have hText : cString (fullresyncText s) = fullresyncText s := by
    apply cString_eq_self
    have hFixed : (0 : UInt8) ∉ text "FULLRESYNC " ++ masterReplid ++ text " " := by decide +kernel
    have hOffset : (0 : UInt8) ∉ intText s.masterReplOffset := by
      intro h
      have hText := Reply.cString_intText s.masterReplOffset
      rw [← hText] at h
      exact absurd (List.mem_takeWhile_imp h) (by decide)
    rw [fullresyncText, List.mem_append, not_or]
    exact ⟨hFixed, hOffset⟩
  rw [Reply.encode, hText, fullresyncText, fullresyncLine]
  rfl

theorem snapshotHeader_eq (n : Nat) : Output.encode (.bulkHeader n) = snapshotHeader n := by
  have hNull : (n : Int) ≠ -1 := by omega
  rw [Output.encode, Piece.bytes, if_pos hNull, Reply.intText_natCast]
  rfl

namespace Link

/-- After what was queued `before`, the socket has accepted part of the head, the
snapshot and the stream from byte `start` on, in this order. -/
def ServedInOrder (before : Bytes) (offset : Int) (snapshot : Bytes) (start : Nat) :
    Option Link → Prop
  | none => False
  | some s => s.accepted <+: before ++ resyncHead offset snapshot ++ snapshot ++ s.stream.drop start

/-- The condition: reads can be copied to all replicas, of which there are at
most sixteen; the socket is not ready for the snapshot before it has accepted
the whole head; and the file is not given another content while it is sent. -/
def Orderly (before head : Bytes) : Option Link → LinkEvent → Prop
  | some s, .propagate r => s.Copies r
  | some s, .epollout _ =>
      ∀ fields, s.replica = some fields → fields.masterReplState = .sendingRdbData →
        (before ++ head).length ≤ s.accepted.length
  | some _, .others replicas => replicas.length < 16
  | some s, .save dump =>
      ∀ fields, s.replica = some fields → fields.masterReplState = .sendingRdbData →
        dump = s.dump
  | none, _ => True

variable {s : Link} {before head snapshot : Bytes} {start : Nat}

/-- Part of the head has been accepted, and nothing of the snapshot. -/
def Heading (before head : Bytes) (start k : Nat) (queue : Bytes) (s : Link) : Prop :=
  k = 0 ∧ s.accepted <+: before ++ head ∧ s.accepted ++ queue = before ++ head ++ s.stream.drop start

/-- All of the head has been accepted, and the snapshot up to an offset. -/
def Sending (before head snapshot : Bytes) (start k : Nat) (queue : Bytes) (s : Link) : Prop :=
  s.accepted = before ++ head ++ snapshot.take k ∧ queue = s.stream.drop start

/-- The invariant of a full resynchronisation that was asked for when the
stream had `start` bytes. -/
structure Serves (before head snapshot : Bytes) (start : Nat) (s : Link) : Prop where
  inOrder : s.InOrder
  high : start ≤ s.stream.length
  phase : ∃ fields queue, s.replica = some fields ∧ s.Holds queue ∧
    ((fields.masterReplState = .propagate ∧
        s.accepted ++ queue = before ++ head ++ snapshot ++ s.stream.drop start) ∨
      (fields.masterReplState = .sendingRdbData ∧ s.dump = snapshot ∧
        fields.rdbFileSize = snapshot.length ∧ ∃ k : Nat, fields.rdbFileOffset = k ∧
          k ≤ snapshot.length ∧ (s.Heading before head start k queue ∨
            s.Sending before head snapshot start k queue)))

theorem Serves.accepted (h : s.Serves before head snapshot start) :
    s.accepted <+: before ++ head ++ snapshot ++ s.stream.drop start := by
  obtain ⟨fields, queue, -, -, ⟨-, hAll⟩ | ⟨-, -, -, k, -, -, ⟨-, hHead, -⟩ | ⟨hSent, -⟩⟩⟩ := h.phase
  · exact ⟨queue, hAll⟩
  · rw [List.append_assoc (before ++ head)]
    exact hHead.trans (List.prefix_append ..)
  · rw [hSent, List.append_assoc (before ++ head)]
    exact (List.prefix_append_right_inj _).mpr
      ((List.take_prefix ..).trans (List.prefix_append ..))

theorem Serves.propagate (h : s.Serves before head snapshot start) {r : PropagatedRead}
    (hCopies : s.Copies r) :
    ∃ next, s.propagate r = some next ∧ next.Serves before head snapshot start := by
  have hHigh := h.high
  obtain ⟨fields, queue, hReplica, hHolds, hPhase⟩ := h.phase
  obtain ⟨next, hNext, hOrder, hStream, hDump, hSame, hAccepted, hQueue⟩ :=
    h.inOrder.propagate hCopies fun _ => hHolds
  have hDrop : next.stream.drop start = s.stream.drop start ++ r.range := by
    rw [hStream, drop_append_range _ hHigh]
  refine ⟨next, hNext, hOrder, by rw [hStream, List.length_append]; omega, fields,
    queue ++ r.range, hSame.trans hReplica, hQueue (by rw [hReplica]; rfl), ?_⟩
  rcases hPhase with ⟨hState, hAll⟩ | ⟨hState, hFile, hSize, k, hk, hLow, hPart⟩
  · refine Or.inl ⟨hState, ?_⟩
    rw [hAccepted, hDrop, ← List.append_assoc, hAll, List.append_assoc]
  · refine Or.inr ⟨hState, hDump.trans hFile, hSize, k, hk, hLow, ?_⟩
    rcases hPart with ⟨hZero, hHead, hAll⟩ | ⟨hSent, hRest⟩
    · refine Or.inl ⟨hZero, by rw [hAccepted]; exact hHead, ?_⟩
      rw [hAccepted, hDrop, ← List.append_assoc, hAll, List.append_assoc]
    · exact Or.inr ⟨hAccepted.trans hSent, by rw [hDrop, hRest]⟩

/-- Once the whole head has been accepted, only the stream is queued. -/
theorem Heading.sending {k : Nat} {queue : Bytes} (h : s.Heading before head start k queue)
    (hLength : (before ++ head).length ≤ s.accepted.length) :
    s.Sending before head snapshot start k queue := by
  obtain ⟨rfl, hHead, hAll⟩ := h
  have hWhole : s.accepted = before ++ head := hHead.eq_of_length_le hLength
  refine ⟨by rw [hWhole, List.take_zero, List.append_nil], ?_⟩
  rw [hWhole] at hAll
  exact List.append_cancel_left hAll

theorem Serves.epollout (h : s.Serves before head snapshot start) {results : List WriteResult}
    (hOrderly : Orderly before head (some s) (.epollout results)) :
    ∃ next, s.epollout results = some next ∧ next.Serves before head snapshot start := by
  have hHigh := h.high
  obtain ⟨fields, queue, hReplica, hHolds, hPhase⟩ := h.phase
  rcases hPhase with ⟨hState, hAll⟩ | ⟨hState, hFile, hSize, k, hk, hLow, hPart⟩
  · obtain ⟨next, n, hFlush, hInfo, hStream, hSame, hAccepted, hQueue⟩ := hHolds.flush results
    refine ⟨next, ?_, ?_, by rw [hStream]; exact hHigh, fields, queue.drop n,
      hSame.trans hReplica, hQueue, Or.inl ⟨hState, ?_⟩⟩
    · simp only [Link.epollout, hReplica, hState]
      exact hFlush
    · rw [InOrder, hInfo, hStream]
      exact h.inOrder
    · rw [hAccepted, hStream, List.append_assoc, List.take_append_drop]
      exact hAll
  · have hSending : s.Sending before head snapshot start k queue := by
      rcases hPart with hHeading | hSending
      · exact hHeading.sending (hOrderly fields hReplica hState)
      · exact hSending
    obtain ⟨hSent, hRest⟩ := hSending
    obtain ⟨n, error, hSend, hEnd⟩ := sendRdb_eq snapshot
      (toSize (fields.rdbFileSize - fields.rdbFileOffset)) k results hLow
    have hNext : s.accepted ++ (snapshot.drop k).take n =
        before ++ head ++ snapshot.take (k + n) := by
      rw [hSent, List.append_assoc, ← List.take_add]
    have hOffset : fields.rdbFileOffset.toNat = k := by omega
    simp only [Link.epollout, hReplica, hState, masterSendRdbSnapshot, hFile, hOffset, hSend]
    refine ⟨_, rfl, h.inOrder, hHigh, ?_⟩
    by_cases hError : error = true
    · rw [if_pos hError]
      exact ⟨_, queue, rfl, hHolds, Or.inr ⟨rfl, rfl, hSize, k + n, rfl, hEnd,
        Or.inr ⟨hNext, hRest⟩⟩⟩
    · rw [if_neg hError]
      by_cases hDone : ((k + n : Nat) : Int) = fields.rdbFileSize
      · rw [if_pos hDone]
        refine ⟨_, queue, rfl, hHolds, Or.inl ⟨rfl, ?_⟩⟩
        change s.accepted ++ (snapshot.drop k).take n ++ queue = _
        rw [hNext, hRest, List.take_of_length_le (by omega)]
      · rw [if_neg hDone]
        exact ⟨_, queue, rfl, hHolds, Or.inr ⟨rfl, rfl, hSize, k + n, rfl, hEnd,
          Or.inr ⟨hNext, hRest⟩⟩⟩

theorem Serves.step (h : s.Serves before head snapshot start) {event : LinkEvent}
    (hOrderly : Orderly before head (some s) event) :
    ∃ next, (Link.step (some s) event).1 = some next ∧ next.Serves before head snapshot start := by
  cases event with
  | propagate r => exact h.propagate hOrderly
  | epollout results => exact h.epollout hOrderly
  | others replicas =>
      obtain ⟨hSmall, content, hKeeps⟩ := h.inOrder
      exact ⟨_, if_pos hOrderly, ⟨hSmall, content, hKeeps.queue, hKeeps.size, hKeeps.offset,
        hKeeps.base⟩, h.high, h.phase⟩
  | save dump =>
      obtain ⟨fields, queue, hReplica, hHolds, hPhase⟩ := h.phase
      refine ⟨_, rfl, h.inOrder, h.high, fields, queue, hReplica, hHolds, ?_⟩
      rcases hPhase with hDone | ⟨hState, hFile, hRest⟩
      · exact Or.inl hDone
      · exact Or.inr ⟨hState, (hOrderly fields hReplica hState).trans hFile, hRest⟩

/-- A client that gets a full resynchronisation, after the flush that ends the
read of its request. -/
theorem serves_of_attach {info : ServerInfo} {stream content : Bytes} {world : World}
    {rb : RingBuffer} {args : List Bytes} {results : List WriteResult} {w : Nat}
    {fields : ReplicaFields} (hRing : rb.Queues before w) (hSize : rb.size = 65536)
    (hKeeps : Keeps info content stream.length) (hSmall : stream.length < 2 ^ 63)
    (hHead : head = resyncHead info.masterReplOffset (rdbSaveDataToFile world.db))
    (hRoom : head.length ≤ rb.writableLen.toNat) (hCursor : w + head.length < 2 ^ 63)
    (hAttach : attach info stream world rb args results = some s)
    (hFields : s.replica = some fields) (hState : fields.masterReplState = .sendingRdbData) :
    s.Serves before head (rdbSaveDataToFile world.db) stream.length := by
  obtain ⟨next, fields', filled, returned, hPsync, hReplica, hFilled, hFlush, hInfo, hStream, hDump,
    hSame⟩ := attach_eq_some hAttach
  rw [hFields] at hSame
  cases hSame
  rcases handlePsync_replica hPsync hReplica with
    ⟨command, replid, offsetStr, rest, -, -, rfl, -, -⟩ | ⟨rfl, hSaved, hOutputs⟩
  · cases hState
  · change next.dump = rdbSaveDataToFile world.db at hSaved
    rw [hSaved] at hOutputs hDump
    have hLine : Output.encode (.reply (.simpleString (fullresyncText (asking info world)))) =
        fullresyncLine info.masterReplOffset := fullresyncLine_eq (asking info world)
    have hHeader := snapshotHeader_eq (rdbSaveDataToFile world.db).length
    rw [hHead, resyncHead, List.length_append] at hRoom hCursor
    obtain ⟨first, hFirst, hFirstQueue, hFirstSize⟩ := addOutput_queues hRing hSize
      (.reply (.simpleString (fullresyncText (asking info world)))) (by simp) (by simp)
      (by rw [hLine]; omega) (by rw [hLine]; omega)
    rw [hLine] at hFirstQueue
    have hBefore := hRing.writableLen
    have hAfter := hFirstQueue.writableLen
    rw [hFirstSize, List.length_append] at hAfter
    obtain ⟨second, hSecond, hQueue, hSecondSize⟩ := addOutput_queues hFirstQueue
      (hFirstSize.trans hSize) (.bulkHeader (rdbSaveDataToFile world.db).length) (by simp)
      (by simp) (by rw [hHeader]; omega) (by rw [hHeader]; omega)
    rw [hHeader, List.append_assoc, ← resyncHead, ← hHead] at hQueue
    have hFilled' : filled = second := by
      rw [hOutputs, List.foldlM_cons, hFirst] at hFilled
      change (addOutput first _).bind some = _ at hFilled
      rw [hSecond] at hFilled
      cases hFilled
      rfl
    subst hFilled'
    obtain ⟨k, hAccepted, hHolds⟩ := holds_of_flush hFlush hQueue
      ((hSecondSize.trans hFirstSize).trans hSize) (by omega)
    refine ⟨⟨by rw [hStream]; exact hSmall, content, ?_⟩, by rw [hStream], _, _, hFields, hHolds,
      Or.inr ⟨rfl, hDump, ?_, 0, rfl, Nat.zero_le _, Or.inl ⟨rfl, ?_, ?_⟩⟩⟩
    · rw [hInfo, hStream]
      exact hKeeps
    · change ((next.dump).length : Int) = _
      rw [hSaved]
    · rw [hAccepted]
      exact List.take_prefix ..
    · rw [hAccepted, List.take_append_drop, hStream, List.drop_length, List.append_nil]

end Link

/-- Along every run that meets the condition, a replica that gets a full
resynchronisation is sent the reply, the header, the snapshot that was saved
for it and the stream from then on, in this order. -/
theorem full_resync_in_order {info : ServerInfo} {stream content before : Bytes} {world : World}
    {rb : RingBuffer} {args : List Bytes} {results : List WriteResult} {w : Nat} {s : Link}
    {fields : ReplicaFields} (hRing : rb.Queues before w) (hSize : rb.size = 65536)
    (hKeeps : Keeps info content stream.length) (hSmall : stream.length < 2 ^ 63)
    (hRoom : (resyncHead info.masterReplOffset (rdbSaveDataToFile world.db)).length ≤
      rb.writableLen.toNat)
    (hCursor : w + (resyncHead info.masterReplOffset (rdbSaveDataToFile world.db)).length < 2 ^ 63)
    (hAttach : Link.attach info stream world rb args results = some s)
    (hFields : s.replica = some fields) (hState : fields.masterReplState = .sendingRdbData)
    (events : List LinkEvent)
    (h : AllSteps Link.step (Link.Orderly before
      (resyncHead info.masterReplOffset (rdbSaveDataToFile world.db))) (some s) events) :
    Throughout Link.step (Link.ServedInOrder before info.masterReplOffset
      (rdbSaveDataToFile world.db) stream.length) (some s) events := by
  have hStart :=
    Link.serves_of_attach hRing hSize hKeeps hSmall rfl hRoom hCursor hAttach hFields hState
  have hRun := throughout_of_allSteps
    (I := fun s => ∃ t, s = some t ∧ t.Serves before
      (resyncHead info.masterReplOffset (rdbSaveDataToFile world.db))
      (rdbSaveDataToFile world.db) stream.length)
    (P := Link.Orderly before (resyncHead info.masterReplOffset (rdbSaveDataToFile world.db)))
    (by
      rintro _ event ⟨t, rfl, hServes⟩ hOrderly
      exact hServes.step hOrderly) ⟨s, rfl, hStart⟩ h
  refine hRun.imp ?_
  rintro _ ⟨t, rfl, hServes⟩
  exact hServes.accepted

section Requests

/-- A client without a past asks for a full resynchronisation. -/
def asksForAll (results : List WriteResult) : Option Link :=
  Link.attach setInfo setStream emptyWorld pongRing [text "PSYNC", text "?", text "-1"] results

/-- The socket takes the head at once, and then all of the snapshot. -/
theorem full_resync_sent :
    ∃ s, asksForAll [.sent 1000] = some s ∧
      Throughout Link.step (Link.ServedInOrder [] 27 (rdbSaveDataToFile redisDbCreate) 27)
        (some s) [.epollout [.sent 1000]] := by
  have hSome : (asksForAll [.sent 1000]).isSome = true := by decide +kernel
  obtain ⟨s, hs⟩ := Option.isSome_iff_exists.mp hSome
  have hFields : (asksForAll [.sent 1000]).map (·.replica) =
      some (some ⟨.sendingRdbData, 0, 0, (rdbSaveDataToFile redisDbCreate).length⟩) := by
    decide +kernel
  have hLength : (asksForAll [.sent 1000]).map (·.accepted.length) =
      some (resyncHead 27 (rdbSaveDataToFile redisDbCreate)).length := by decide +kernel
  rw [hs] at hFields hLength
  have hReplica : s.replica =
      some ⟨.sendingRdbData, 0, 0, (rdbSaveDataToFile redisDbCreate).length⟩ :=
    Option.some.inj hFields
  have hAccepted : s.accepted.length =
      (resyncHead 27 (rdbSaveDataToFile redisDbCreate)).length := Option.some.inj hLength
  refine ⟨s, hs, full_resync_in_order queues_pongRing rfl keeps_setInfo (by decide +kernel)
    (by decide +kernel) (by decide +kernel) hs hReplica rfl _ ⟨?_, trivial⟩⟩
  intro fields _ _
  rw [List.nil_append]
  exact hAccepted.ge

/-- The socket blocks when the read of the request ends. Its next bytes are
those of the snapshot. -/
theorem full_resync_out_of_order :
    ∃ s, asksForAll [.wouldBlock] = some s ∧
      ¬Throughout Link.step (Link.ServedInOrder [] 27 (rdbSaveDataToFile redisDbCreate) 27)
        (some s) [.epollout [.sent 5]] := by
  have hSome : (asksForAll [.wouldBlock]).isSome = true := by decide +kernel
  obtain ⟨s, hs⟩ := Option.isSome_iff_exists.mp hSome
  have hSent : (Link.step (asksForAll [.wouldBlock]) (.epollout [.sent 5])).1.map
      (fun s => (s.accepted, s.stream)) = some (text "REDIS", setStream) := by decide +kernel
  rw [hs] at hSent
  refine ⟨s, hs, fun h => ?_⟩
  have hLast := h.last
  change Link.ServedInOrder [] 27 _ 27 (Link.step (some s) (.epollout [.sent 5])).1 at hLast
  obtain ⟨last, hNext, hPair⟩ := Option.map_eq_some_iff.mp hSent
  obtain ⟨hBytes, hStream⟩ := Prod.mk.inj hPair
  rw [hNext] at hLast
  change last.accepted <+: _ ++ last.stream.drop 27 at hLast
  rw [hBytes, hStream] at hLast
  exact absurd hLast (by decide +kernel)

end Requests

end RedisServer
