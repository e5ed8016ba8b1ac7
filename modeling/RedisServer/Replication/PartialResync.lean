import RedisServer.Replication.ReplicaLink

/-! The partial resynchronisation of a replica. It is right for a replica that
has missed nothing when its socket is ready for the first time; for any other
the part of the stream that it lacks is copied over the record of its output
ring. -/
namespace RedisServer

open Machine

/-- The reply that opens a partial resynchronisation. -/
def continueLine : Bytes := (Reply.simpleString (text "CONTINUE")).encode

namespace Link

/-- After what was queued `before`, the socket has accepted the line and part of
the stream from byte `o` on. -/
def Delivers (before : Bytes) (o : Nat) : Option Link → Prop
  | none => False
  | some s => s.accepted <+: before ++ continueLine ++ s.stream.drop o

/-- The condition: reads can be copied to all replicas, of which there are at
most sixteen, and a replica that is still to be served from the backlog has
missed nothing or more than the backlog holds. -/
def Undisturbed : Option Link → LinkEvent → Prop
  | some s, .propagate r => s.Copies r
  | some s, .epollout _ =>
      ∀ fields, s.replica = some fields → fields.masterReplState = .psync →
        fields.replOffset = s.info.masterReplOffset ∨
          (s.info.replBacklog.readableLen.toNat : Int) <
            s.info.masterReplOffset - fields.replOffset
  | some _, .others replicas => replicas.length < 16
  | _, _ => True

variable {s : Link} {before : Bytes} {o start : Nat}

/-- A replica that follows the stream: what it has accepted and what is queued
for it are the line and the stream from byte `o` on. -/
def Following (before : Bytes) (o : Nat) (s : Link) : Prop :=
  ∃ fields queue, s.replica = some fields ∧ fields.masterReplState = .propagate ∧
    s.Holds queue ∧ s.accepted ++ queue = before ++ continueLine ++ s.stream.drop o

/-- A replica that waits for its first turn: beyond the line, only bytes from
byte `start` on are queued, and none of them has been accepted. -/
def Waiting (before : Bytes) (o start : Nat) (s : Link) : Prop :=
  ∃ fields queue, s.replica = some fields ∧ fields.masterReplState = .psync ∧
    fields.replOffset = o ∧ s.Holds queue ∧ s.accepted <+: before ++ continueLine ∧
    s.accepted ++ queue = before ++ continueLine ++ s.stream.drop start

def Gone (before : Bytes) (o : Nat) (s : Link) : Prop :=
  s.replica = none ∧ s.accepted <+: before ++ continueLine ++ s.stream.drop o

/-- The invariant of a partial resynchronisation from byte `o`, which was asked
for when the stream had `start` bytes. -/
structure Resyncs (before : Bytes) (o start : Nat) (s : Link) : Prop where
  inOrder : s.InOrder
  low : o ≤ start
  high : start ≤ s.stream.length
  phase : s.Waiting before o start ∨ s.Following before o ∨ s.Gone before o

theorem Resyncs.delivers (h : s.Resyncs before o start) : Delivers before o (some s) := by
  rcases h.phase with ⟨-, queue, -, -, -, -, hLine, -⟩ | ⟨-, queue, -, -, -, hAll⟩ | ⟨-, hGone⟩
  · exact hLine.trans (List.prefix_append ..)
  · exact ⟨queue, hAll⟩
  · exact hGone

theorem drop_append_range {stream : Bytes} (range : Bytes) {n : Nat} (h : n ≤ stream.length) :
    (stream ++ range).drop n = stream.drop n ++ range := List.drop_append_of_le_length h

theorem Resyncs.propagate (h : s.Resyncs before o start) {r : PropagatedRead}
    (hCopies : s.Copies r) :
    ∃ next, s.propagate r = some next ∧ next.Resyncs before o start := by
  have hLow := h.low
  have hHigh := h.high
  rcases h.phase with ⟨fields, queue, hReplica, hState, hOffset, hHolds, hLine, hAll⟩ |
    ⟨fields, queue, hReplica, hState, hHolds, hAll⟩ | ⟨hReplica, hGone⟩
  · obtain ⟨next, hNext, hOrder, hStream, -, hSame, hAccepted, hQueue⟩ :=
      h.inOrder.propagate hCopies fun _ => hHolds
    refine ⟨next, hNext, hOrder, hLow, by rw [hStream, List.length_append]; omega, Or.inl ?_⟩
    refine ⟨fields, queue ++ r.range, hSame.trans hReplica, hState, hOffset,
      hQueue (by rw [hReplica]; rfl), by rw [hAccepted]; exact hLine, ?_⟩
    rw [hAccepted, hStream, drop_append_range _ hHigh, ← List.append_assoc, hAll, List.append_assoc]
  · obtain ⟨next, hNext, hOrder, hStream, -, hSame, hAccepted, hQueue⟩ :=
      h.inOrder.propagate hCopies fun _ => hHolds
    refine ⟨next, hNext, hOrder, hLow, by rw [hStream, List.length_append]; omega,
      Or.inr (Or.inl ?_)⟩
    refine ⟨fields, queue ++ r.range, hSame.trans hReplica, hState,
      hQueue (by rw [hReplica]; rfl), ?_⟩
    rw [hAccepted, hStream, drop_append_range _ (by omega), ← List.append_assoc, hAll,
      List.append_assoc]
  · obtain ⟨next, hNext, hOrder, hStream, -, hSame, hAccepted, -⟩ :=
      h.inOrder.propagate hCopies (show s.replica.isSome → s.Holds [] from fun hSome => by
        rw [hReplica] at hSome
        cases hSome)
    refine ⟨next, hNext, hOrder, hLow, by rw [hStream, List.length_append]; omega,
      Or.inr (Or.inr ⟨hSame.trans hReplica, ?_⟩)⟩
    rw [hAccepted, hStream, drop_append_range _ (by omega), ← List.append_assoc]
    exact hGone.trans (List.prefix_append ..)

/-- A turn of the replica. The first one finds it caught up, or disconnects it. -/
theorem Resyncs.epollout (h : s.Resyncs before o start) {results : List WriteResult}
    (hUndisturbed : Undisturbed (some s) (.epollout results)) :
    ∃ next, s.epollout results = some next ∧ next.Resyncs before o start := by
  have hLow := h.low
  have hHigh := h.high
  rcases h.phase with ⟨fields, queue, hReplica, hState, hOffset, hHolds, hLine, hAll⟩ |
    ⟨fields, queue, hReplica, hState, hHolds, hAll⟩ | hGone
  · obtain ⟨hSmall, content, hKeeps⟩ := h.inOrder
    have hMaster := hKeeps.offset
    simp only [Link.epollout, hReplica, hState, Link.continuePsync]
    rcases hUndisturbed fields hReplica hState with hCaught | hOutside
    · have hChoice : RedisServer.continuePsync s.info fields.replOffset = some .caughtUp := by
        rw [RedisServer.continuePsync, if_pos hCaught]
      rw [hChoice]
      refine ⟨_, rfl, ⟨hSmall, content, hKeeps⟩, hLow, hHigh, Or.inr (Or.inl ?_)⟩
      refine ⟨_, queue, rfl, rfl, hHolds, ?_⟩
      obtain rfl : o = start := by omega
      exact hAll
    · have hChoice : RedisServer.continuePsync s.info fields.replOffset = some .outside := by
        have hBytes : toInt64 (s.info.masterReplOffset - fields.replOffset) =
            s.info.masterReplOffset - fields.replOffset := toInt64_of_small (by omega) (by omega)
        rw [RedisServer.continuePsync, if_neg (by omega)]
        simp only [hBytes]
        rw [if_neg (by omega), if_neg (by omega)]
        simp only [hKeeps.queue.rbReadable, Option.bind_eq_bind, Option.bind_some]
        rw [if_pos hOutside]
      rw [hChoice]
      refine ⟨_, rfl, ⟨hSmall, content, hKeeps⟩, hLow, hHigh, Or.inr (Or.inr ⟨rfl, ?_⟩)⟩
      exact hLine.trans (List.prefix_append ..)
  · obtain ⟨next, k, hFlush, hInfo, hStream, hSame, hAccepted, hQueue⟩ := hHolds.flush results
    refine ⟨next, ?_, ?_⟩
    · simp only [Link.epollout, hReplica, hState]
      exact hFlush
    · refine ⟨?_, hLow, by rw [hStream]; exact hHigh, Or.inr (Or.inl ?_)⟩
      · rw [InOrder, hInfo, hStream]
        exact h.inOrder
      · refine ⟨fields, queue.drop k, hSame.trans hReplica, hState, hQueue, ?_⟩
        rw [hAccepted, hStream, List.append_assoc, List.take_append_drop]
        exact hAll
  · refine ⟨s, ?_, h⟩
    simp only [Link.epollout, hGone.1]

/-- Nothing that the other clients do to the dump or to each other matters. -/
theorem Resyncs.frame (h : s.Resyncs before o start) (replicas : List Replica) (dump : Bytes) :
    ({ s with info := { s.info with replicas := replicas }, dump := dump }).Resyncs
      before o start := by
  obtain ⟨hSmall, content, hKeeps⟩ := h.inOrder
  exact ⟨⟨hSmall, content, hKeeps.queue, hKeeps.size, hKeeps.offset, hKeeps.base⟩, h.low, h.high,
    h.phase⟩

theorem Resyncs.step (h : s.Resyncs before o start) {event : LinkEvent}
    (hUndisturbed : Undisturbed (some s) event) :
    ∃ next, (Link.step (some s) event).1 = some next ∧ next.Resyncs before o start := by
  cases event with
  | propagate r => exact h.propagate hUndisturbed
  | epollout results => exact h.epollout hUndisturbed
  | others replicas => exact ⟨_, if_pos hUndisturbed, h.frame replicas s.dump⟩
  | save dump => exact ⟨_, rfl, h.frame s.info.replicas dump⟩

/-- A client whose request is accepted waits for its first turn. -/
theorem resyncs_of_attach {info : ServerInfo} {stream content : Bytes} {world : World}
    {rb : RingBuffer} {args : List Bytes} {results : List WriteResult} {w : Nat}
    {fields : ReplicaFields} (hRing : rb.Queues before w) (hSize : rb.size = 65536)
    (hKeeps : Keeps info content stream.length) (hSmall : stream.length < 2 ^ 63)
    (hRoom : continueLine.length ≤ rb.writableLen.toNat) (hCursor : w + continueLine.length < 2 ^ 63)
    (hAttach : attach info stream world rb args results = some s)
    (hFields : s.replica = some fields) (hState : fields.masterReplState = .psync) :
    0 ≤ fields.replOffset ∧ s.Resyncs before fields.replOffset.toNat stream.length := by
  obtain ⟨next, fields', filled, returned, hPsync, hReplica, hFilled, hFlush, hInfo, hStream, -,
    hSame⟩ := attach_eq_some hAttach
  rw [hFields] at hSame
  cases hSame
  have hLength := hKeeps.queue.length_le
  have hBase := hKeeps.base
  have hMaster := hKeeps.offset
  rcases handlePsync_replica hPsync hReplica with
    ⟨command, replid, offsetStr, rest, -, hPartial, rfl, -, hOutputs⟩ | ⟨rfl, -, -⟩
  · obtain ⟨-, -, -, hLow, hHigh⟩ := hPartial
    change info.replBacklogBaseOffset ≤ _ at hLow
    change _ ≤ info.masterReplOffset at hHigh
    have hOffset : 0 ≤ (strtol offsetStr).value := by omega
    obtain ⟨line, hAdd, hLine, hLineSize⟩ := addOutput_queues hRing hSize
      (.reply (.simpleString (text "CONTINUE"))) (by simp) (by simp) hRoom
      (show w + continueLine.length < 2 ^ 64 by omega)
    change line.Queues (before ++ continueLine) (w + continueLine.length) at hLine
    have hFilled' : filled = line := by
      rw [hOutputs, List.foldlM_cons, hAdd] at hFilled
      cases hFilled
      rfl
    subst hFilled'
    obtain ⟨k, hAccepted, hHolds⟩ :=
      holds_of_flush hFlush hLine (hLineSize.trans hSize) (by omega)
    refine ⟨hOffset, ⟨by rw [hStream]; exact hSmall, content, ?_⟩, ?_, by rw [hStream], Or.inl ?_⟩
    · rw [hInfo, hStream]
      exact hKeeps
    · change (strtol offsetStr).value.toNat ≤ _
      omega
    · refine ⟨_, (before ++ continueLine).drop k, hFields, rfl, ?_, hHolds, ?_, ?_⟩
      · exact (Int.toNat_of_nonneg hOffset).symm
      · rw [hAccepted]
        exact List.take_prefix ..
      · rw [hAccepted, List.take_append_drop, hStream, List.drop_length, List.append_nil]
  · cases hState

end Link

/-- Along every run that meets the condition, a replica whose request for byte
`o` was accepted gets the line and the stream from byte `o` on. -/
theorem partial_resync_delivers {info : ServerInfo} {stream content before : Bytes} {world : World}
    {rb : RingBuffer} {args : List Bytes} {results : List WriteResult} {w : Nat} {s : Link}
    {fields : ReplicaFields} (hRing : rb.Queues before w) (hSize : rb.size = 65536)
    (hKeeps : Keeps info content stream.length) (hSmall : stream.length < 2 ^ 63)
    (hRoom : continueLine.length ≤ rb.writableLen.toNat) (hCursor : w + continueLine.length < 2 ^ 63)
    (hAttach : Link.attach info stream world rb args results = some s)
    (hFields : s.replica = some fields) (hState : fields.masterReplState = .psync)
    (events : List LinkEvent) (h : AllSteps Link.step Link.Undisturbed (some s) events) :
    Throughout Link.step (Link.Delivers before fields.replOffset.toNat) (some s) events := by
  obtain ⟨-, hStart⟩ :=
    Link.resyncs_of_attach hRing hSize hKeeps hSmall hRoom hCursor hAttach hFields hState
  have hRun := throughout_of_allSteps
    (I := fun s => ∃ t, s = some t ∧ t.Resyncs before fields.replOffset.toNat stream.length)
    (P := Link.Undisturbed) (by
      rintro _ event ⟨t, rfl, hResyncs⟩ hUndisturbed
      exact hResyncs.step hUndisturbed) ⟨s, rfl, hStart⟩ h
  refine hRun.imp ?_
  rintro _ ⟨t, rfl, hResyncs⟩
  exact hResyncs.delivers

section Requests

/-- A master that has propagated `SET a b`, to no replica so far. -/
def setStream : Bytes := encodeCommand [text "SET", text "a", text "b"]

def setInfo : ServerInfo := ⟨27, ⟨0, 27, fun i => setStream.getD i 0, 1048576, 3⟩, 0, []⟩

/-- The output ring of a client that has been sent `+PONG`. -/
def pongRing : RingBuffer := ⟨7, 7, fun i => (text "+PONG" ++ crlf).getD i 0, 65536, 4⟩

/-- The client asks for a partial resynchronisation, and the socket takes the
whole reply. -/
def asksFor (offset : Bytes) : Option Link :=
  Link.attach setInfo setStream emptyWorld pongRing [text "PSYNC", masterReplid, offset] [.sent 11]

theorem keeps_setInfo : Keeps setInfo setStream setStream.length where
  queue := RingBuffer.queues_of_assertState (show setInfo.replBacklog.AssertState by decide)
    (by decide)
  size := rfl
  offset := rfl
  base := rfl

theorem queues_pongRing : pongRing.Queues [] 7 :=
  RingBuffer.queues_of_assertState (show pongRing.AssertState by decide) (by decide)

/-- A replica that has missed nothing. -/
theorem partial_resync_caught_up :
    ∃ s, asksFor (text "27") = some s ∧
      Throughout Link.step (Link.Delivers [] 27) (some s) [.epollout [.sent 3]] := by
  have hSome : (asksFor (text "27")).isSome = true := by decide +kernel
  obtain ⟨s, hs⟩ := Option.isSome_iff_exists.mp hSome
  have hFields : (asksFor (text "27")).map (·.replica) = some (some ⟨.psync, 27, 0, 0⟩) := by
    decide +kernel
  have hOffset : (asksFor (text "27")).map (·.info.masterReplOffset) = some 27 := by
    decide +kernel
  rw [hs] at hFields hOffset
  have hReplica : s.replica = some ⟨.psync, 27, 0, 0⟩ := Option.some.inj hFields
  have hMaster : s.info.masterReplOffset = 27 := Option.some.inj hOffset
  refine ⟨s, hs, partial_resync_delivers queues_pongRing rfl keeps_setInfo (by decide +kernel)
    (by decide +kernel) (by decide +kernel) hs hReplica rfl _ ⟨?_, trivial⟩⟩
  intro fields hSame _
  rw [hReplica] at hSame
  cases hSame
  exact Or.inl hMaster.symm

/-- A replica that lacks the last byte, a line feed. It becomes the read cursor
of the replica's ring, and part of the reply is sent again. -/
theorem partial_resync_repeats :
    setInfo.replBacklog.unread = some setStream ∧ pongRing.unread = some [] ∧
      ∃ s, asksFor (text "26") = some s ∧ s.replica = some ⟨.psync, 26, 0, 0⟩ ∧
        ¬Throughout Link.step (Link.Delivers [] 26) (some s) [.epollout [.sent 100]] := by
  have hSome : (asksFor (text "26")).isSome = true := by decide +kernel
  obtain ⟨s, hs⟩ := Option.isSome_iff_exists.mp hSome
  have hFields : (asksFor (text "26")).map (·.replica) = some (some ⟨.psync, 26, 0, 0⟩) := by
    decide +kernel
  have hAccepted : (Link.step (asksFor (text "26")) (.epollout [.sent 100])).1.map
      (fun s => (s.accepted, s.stream)) =
        some (continueLine ++ text "NTINUE" ++ crlf, setStream) := by
    decide +kernel
  rw [hs] at hFields hAccepted
  refine ⟨keeps_setInfo.queue.unread, queues_pongRing.unread, s, hs, Option.some.inj hFields, ?_⟩
  intro h
  have hLast := h.last
  change Link.Delivers [] 26 (Link.step (some s) (.epollout [.sent 100])).1 at hLast
  obtain ⟨last, hNext, hPair⟩ := Option.map_eq_some_iff.mp hAccepted
  obtain ⟨hBytes, hStream⟩ := Prod.mk.inj hPair
  rw [hNext] at hLast
  change last.accepted <+: _ ++ last.stream.drop 26 at hLast
  rw [hBytes, hStream] at hLast
  exact absurd hLast (by decide +kernel)

end Requests

end RedisServer
