import RedisServer.Protocol.ClientInput
import RedisServer.Replication.ReplicaTable

/-! The loop of `process_client_input` that copies a propagated read to the
replicas. A replica that cannot keep up is meant to be disconnected; what is
disconnected is the client that sent the write, whose input is read from and
consumed after that. -/
namespace RedisServer

open Machine

/-- The clients, their output rings, and the replicas that the loop has served
so far. -/
structure Outgoing where
  table : ReplicaTable
  outputBuffer : Nat → RingBuffer
  served : List Nat

/-- The read that is propagated: the input ring of the writer, and how much of it
the parser has taken. -/
structure WriterRead where
  input : RingBuffer
  bytesParsed : UInt64

/-- The bytes from `begin` on that are copied. -/
def WriterRead.range (r : WriterRead) : Bytes :=
  r.input.load (r.input.readIndex % r.input.size).toNat r.bytesParsed.toNat

theorem WriterRead.range_length (r : WriterRead) : r.range.length = r.bytesParsed.toNat := by
  rw [range, RingBuffer.load, window_length]

/-- How the loop ends: at the end of the array, with the writer freed while it is
still in use, or in a failed assertion. -/
inductive LoopResult where
  | ended (s : Outgoing)
  | freed (table : Option ReplicaTable)
  | aborted

/-- The loop over the array, for a read of `writer`. -/
def serveReplicas (writer : Nat) (bytes : Bytes) : List Nat → Outgoing → LoopResult
  | [], s => .ended s
  | client :: clients, s =>
      match rbWritable (s.outputBuffer client) with
      | none => .aborted
      | some (ptr, len) =>
          if bytes.length ≤ len.toNat then
            match rbWrite ((s.outputBuffer client).memcpy ptr bytes) (UInt64.ofNat bytes.length) with
            | none => .aborted
            | some (ring, code) =>
                serveReplicas writer bytes clients
                  { s with
                    outputBuffer := Function.update s.outputBuffer client ring
                    served := if code = 0 then s.served ++ [client] else s.served }
          else .freed (s.table.handleClientDisconnection writer)

/-- The loop for a read, from the state in which it is entered. -/
def propagateToReplicas (writer : Nat) (r : WriterRead) (s : Outgoing) : LoopResult :=
  serveReplicas writer r.range s.table.replicas { s with served := [] }

/-- Whoever is still attached was given all bytes of the read, a replica without
room is gone, every other one was served once, and the writer is still there
with its input consumed by what was parsed. -/
structure ServedRight (writer : Nat) (r : WriterRead) (s next : Outgoing) : Prop where
  appended : ∀ client ∈ next.table.replicas, ∃ queue,
    (s.outputBuffer client).unread = some queue ∧
      (next.outputBuffer client).unread = some (queue ++ r.range)
  dropped : ∀ client ∈ s.table.replicas,
    (s.outputBuffer client).writableLen.toNat < r.bytesParsed.toNat →
      client ∉ next.table.replicas ∧ next.table.clients client = none
  once : ∀ client ∈ s.table.replicas, r.bytesParsed.toNat ≤ (s.outputBuffer client).writableLen.toNat →
    client ∈ next.table.replicas ∧ next.served.count client = 1
  writer : next.table.clients writer ≠ none
  consumed : ∃ queue ring, r.input.unread = some queue ∧ r.bytesParsed.toNat ≤ queue.length ∧
    rbRead r.input r.bytesParsed = some (ring, 0) ∧
    ring.unread = some (queue.drop r.bytesParsed.toNat)

def PropagationRight (writer : Nat) (r : WriterRead) (s : Outgoing) : Prop :=
  ∃ next, propagateToReplicas writer r s = .ended next ∧ ServedRight writer r s next

section Loop

variable {writer client : Nat} {bytes : Bytes} {s next : Outgoing} {clients : List Nat}

/-- The state after an entry was served. -/
def Outgoing.serve (s : Outgoing) (client : Nat) (ring : RingBuffer) : Outgoing :=
  { s with
    outputBuffer := Function.update s.outputBuffer client ring
    served := s.served ++ [client] }

@[simp] theorem Outgoing.serve_outputBuffer (s : Outgoing) (client : Nat) (ring : RingBuffer) :
    (s.serve client ring).outputBuffer = Function.update s.outputBuffer client ring := rfl

theorem rbWrite_code {rb ring : RingBuffer} {n : UInt64} {code : Int}
    (h : rbWrite rb n = some (ring, code)) (hFits : n ≤ rb.writableLen) : code = 0 := by
  unfold rbWrite at h
  split at h
  · cases h
  · split at h
    · rename_i hOver
      exact absurd hFits (UInt64.not_le.mpr hOver)
    · dsimp only at h
      split at h
      · cases h
        rfl
      · cases h

/-- The loop goes past an entry only by serving it. -/
theorem serveReplicas_cons_ended (hSmall : bytes.length < 2 ^ 64)
    (h : serveReplicas writer bytes (client :: clients) s = .ended next) :
    bytes.length ≤ (s.outputBuffer client).writableLen.toNat ∧
      ∃ ring, (s.outputBuffer client).Stores bytes ring ∧
        serveReplicas writer bytes clients (s.serve client ring) = .ended next := by
  rw [serveReplicas] at h
  cases hWritable : rbWritable (s.outputBuffer client) with
  | none =>
      rw [hWritable] at h
      cases h
  | some room =>
      obtain ⟨ptr, len⟩ := room
      have hLen : len = (s.outputBuffer client).writableLen := by
        unfold rbWritable at hWritable
        split at hWritable
        · cases hWritable
          rfl
        · cases hWritable
      rw [hWritable] at h
      dsimp only at h
      split at h
      · rename_i hFits
        cases hWrite : rbWrite ((s.outputBuffer client).memcpy ptr bytes)
            (UInt64.ofNat bytes.length) with
        | none =>
            rw [hWrite] at h
            cases h
        | some result =>
            obtain ⟨ring, code⟩ := result
            have hCode : code = 0 := by
              refine rbWrite_code hWrite ?_
              change UInt64.ofNat bytes.length ≤ (s.outputBuffer client).writableLen
              rw [← hLen, UInt64.le_iff_toNat_le, UInt64.toNat_ofNat_of_lt' hSmall]
              exact hFits
            subst hCode
            rw [hWrite] at h
            exact ⟨hLen ▸ hFits, ring, ⟨ptr, len, hWritable, hFits, hWrite⟩, h⟩
      · cases h

/-- A loop that reaches the end has served every entry, and nobody else. -/
theorem serveReplicas_ended (hSmall : bytes.length < 2 ^ 64)
    (h : serveReplicas writer bytes clients s = .ended next) :
    next.table = s.table ∧ next.served = s.served ++ clients ∧
      ∀ client, client ∉ clients → next.outputBuffer client = s.outputBuffer client := by
  induction clients generalizing s with
  | nil =>
      cases h
      exact ⟨rfl, (List.append_nil _).symm, fun _ _ => rfl⟩
  | cons head clients ih =>
      obtain ⟨-, ring, -, hRest⟩ := serveReplicas_cons_ended hSmall h
      obtain ⟨hTable, hServed, hFrame⟩ := ih hRest
      refine ⟨hTable, ?_, fun client hNot => ?_⟩
      · rw [hServed, Outgoing.serve, List.append_assoc]
        rfl
      · rw [List.mem_cons, not_or] at hNot
        rw [hFrame client hNot.2, Outgoing.serve_outputBuffer, Function.update_of_ne hNot.1]

/-- In a loop that reaches the end, each of a number of different entries took
the bytes into the ring it had at the start. -/
theorem stores_of_ended (hSmall : bytes.length < 2 ^ 64) (hDistinct : clients.Nodup)
    (h : serveReplicas writer bytes clients s = .ended next) :
    ∀ client ∈ clients, (s.outputBuffer client).Stores bytes (next.outputBuffer client) := by
  induction clients generalizing s with
  | nil => simp
  | cons head clients ih =>
      obtain ⟨hNew, hDistinct⟩ := List.nodup_cons.mp hDistinct
      obtain ⟨-, ring, hStores, hRest⟩ := serveReplicas_cons_ended hSmall h
      intro client hClient
      by_cases hSame : client = head
      · have hFrame := (serveReplicas_ended hSmall hRest).2.2 head hNew
        rw [hSame, hFrame, Outgoing.serve_outputBuffer, Function.update_self]
        exact hStores
      · have hMem := (List.mem_cons.mp hClient).resolve_left hSame
        have hLater := ih hDistinct hRest client hMem
        rw [Outgoing.serve_outputBuffer, Function.update_of_ne hSame] at hLater
        exact hLater

/-- The loop reaches the end when there is room for each of the different
entries. -/
theorem serveReplicas_of_stores (writer : Nat) (hDistinct : clients.Nodup)
    (h : ∀ client ∈ clients, ∃ ring, (s.outputBuffer client).Stores bytes ring) :
    ∃ next, serveReplicas writer bytes clients s = .ended next := by
  induction clients generalizing s with
  | nil => exact ⟨s, rfl⟩
  | cons head clients ih =>
      obtain ⟨hNew, hDistinct⟩ := List.nodup_cons.mp hDistinct
      obtain ⟨ring, ptr, len, hWritable, hFits, hWrite⟩ := h head (List.mem_cons_self ..)
      have hRest : ∀ client ∈ clients, ∃ ring',
          ((s.serve head ring).outputBuffer client).Stores bytes ring' := by
        intro client hClient
        have hOther : client ≠ head := fun hSame => hNew (hSame ▸ hClient)
        rw [Outgoing.serve_outputBuffer, Function.update_of_ne hOther]
        exact h client (List.mem_cons_of_mem _ hClient)
      obtain ⟨next, hNext⟩ := ih hDistinct hRest
      refine ⟨next, ?_⟩
      simp only [serveReplicas, hWritable, hWrite]
      rw [if_pos hFits]
      exact hNext

end Loop

section Rings

variable {rb : RingBuffer} {queue bytes : Bytes} {w : Nat}

/-- When a ring can take some bytes. Beyond its counter they fail an assertion. -/
theorem RingBuffer.Queues.stores_iff (h : rb.Queues queue w) :
    (∃ ring, rb.Stores bytes ring) ↔
      bytes.length ≤ rb.writableLen.toNat ∧ rb.writeIndex.toNat + bytes.length < 2 ^ 64 := by
  rw [h.cursor]
  constructor
  · rintro ⟨ring, ptr, len, hWritable, hFits, hWrite⟩
    rw [h.rbWritable] at hWritable
    cases hWritable
    obtain ⟨other, hOther, -⟩ := h.memcpy (rb.writeIndex % rb.size).toNat bytes
    exact ⟨hFits, (hOther.write_some hFits hWrite).1⟩
  · rintro ⟨hFits, hTotal⟩
    obtain ⟨ring, hStores, -⟩ := h.stores hFits hTotal
    exact ⟨ring, hStores⟩

theorem RingBuffer.Queues.unread_of_stores {ring : RingBuffer} (h : rb.Queues queue w)
    (hStores : rb.Stores bytes ring) : ring.unread = some (queue ++ bytes) := by
  obtain ⟨hFits, hTotal⟩ := h.stores_iff.mp ⟨ring, hStores⟩
  rw [h.cursor] at hTotal
  obtain ⟨same, hSame, hNext, -⟩ := h.stores hFits hTotal
  obtain ⟨ptr, len, hWritable, -, hWrite⟩ := hStores
  obtain ⟨ptr', len', hWritable', -, hWrite'⟩ := hSame
  rw [hWritable] at hWritable'
  cases hWritable'
  rw [hWrite] at hWrite'
  cases hWrite'
  exact hNext.unread

end Rings

/-- A ring with its mapping, at any fill level. -/
def RingBuffer.Mapped (rb : RingBuffer) : Prop := rb.AssertState ∧ 0 < rb.size.toNat

instance (rb : RingBuffer) : Decidable rb.Mapped := inferInstanceAs (Decidable (_ ∧ _))

section Propagation

variable {writer : Nat} {r : WriterRead} {s next : Outgoing}

/-- What follows when the loop has done its work. -/
theorem servedRight_of_ended (hWriter : s.table.clients writer ≠ none)
    (hRings : ∀ client ∈ s.table.replicas, (s.outputBuffer client).Mapped)
    (hInput : r.input.Mapped) (hDistinct : s.table.replicas.Nodup)
    (hRoom : ∀ client ∈ s.table.replicas,
      r.bytesParsed.toNat ≤ (s.outputBuffer client).writableLen.toNat)
    (hParsed : r.bytesParsed.toNat ≤ r.input.readableLen.toNat)
    (h : propagateToReplicas writer r s = .ended next) : ServedRight writer r s next := by
  have hSmall : r.range.length < 2 ^ 64 := r.range_length ▸ r.bytesParsed.toNat_lt
  obtain ⟨hTable, hServed, -⟩ := serveReplicas_ended hSmall h
  have hStores := stores_of_ended hSmall hDistinct h
  refine ⟨fun client hClient => ?_, fun client hClient hFull => ?_, fun client hClient _ => ?_, ?_, ?_⟩
  · rw [hTable] at hClient
    have hQueue := RingBuffer.queues_of_assertState (hRings client hClient).1 (hRings client hClient).2
    exact ⟨_, hQueue.unread, hQueue.unread_of_stores (hStores client hClient)⟩
  · have hFits := hRoom client hClient
    omega
  · rw [hTable, hServed, List.nil_append]
    exact ⟨hClient, List.count_eq_one_of_mem hDistinct hClient⟩
  · rw [hTable]
    exact hWriter
  · have hQueue := RingBuffer.queues_of_assertState hInput.1 hInput.2
    rw [hQueue.readableLen] at hParsed
    obtain ⟨ring, hRead, hNext, -⟩ := hQueue.rbRead hParsed
    rw [UInt64.ofNat_toNat] at hRead
    exact ⟨_, ring, hQueue.unread, hParsed, hRead, hNext.unread⟩

/-- Exactly when only a replica that cannot keep up is dropped: there is none,
the entries of the array are different, and no more was parsed than was read. -/
theorem propagation_right_iff (hWriter : s.table.clients writer ≠ none)
    (hRings : ∀ client ∈ s.table.replicas, (s.outputBuffer client).Mapped)
    (hInput : r.input.Mapped) :
    PropagationRight writer r s ↔
      s.table.replicas.Nodup ∧
        (∀ client ∈ s.table.replicas,
          r.bytesParsed.toNat ≤ (s.outputBuffer client).writableLen.toNat ∧
            (s.outputBuffer client).writeIndex.toNat + r.bytesParsed.toNat < 2 ^ 64) ∧
        r.bytesParsed.toNat ≤ r.input.readableLen.toNat := by
  have hSmall : r.range.length < 2 ^ 64 := r.range_length ▸ r.bytesParsed.toNat_lt
  have hQueues : ∀ client ∈ s.table.replicas, ∃ queue w, (s.outputBuffer client).Queues queue w :=
    fun client hClient =>
      ⟨_, _, RingBuffer.queues_of_assertState (hRings client hClient).1 (hRings client hClient).2⟩
  constructor
  · rintro ⟨next, hEnded, hRight⟩
    obtain ⟨hTable, hServed, -⟩ := serveReplicas_ended hSmall hEnded
    -- a replica without room would have to be gone, and nobody is
    have hFits : ∀ client ∈ s.table.replicas,
        r.bytesParsed.toNat ≤ (s.outputBuffer client).writableLen.toNat := by
      intro client hClient
      by_contra hFull
      exact (hRight.dropped client hClient (by omega)).1 (hTable ▸ hClient)
    have hDistinct : s.table.replicas.Nodup := by
      rw [List.nodup_iff_count_le_one]
      intro client
      by_cases hClient : client ∈ s.table.replicas
      · have hOnce := (hRight.once client hClient (hFits client hClient)).2
        rw [hServed, List.nil_append] at hOnce
        omega
      · rw [List.count_eq_zero_of_not_mem hClient]
        omega
    refine ⟨hDistinct, fun client hClient => ⟨hFits client hClient, ?_⟩, ?_⟩
    · obtain ⟨queue, w, hQueue⟩ := hQueues client hClient
      have hStores := stores_of_ended hSmall hDistinct hEnded client hClient
      have hTotal := (hQueue.stores_iff.mp ⟨_, hStores⟩).2
      rw [r.range_length] at hTotal
      exact hTotal
    · obtain ⟨queue, ring, hUnread, hParsed, -⟩ := hRight.consumed
      have hQueue := RingBuffer.queues_of_assertState hInput.1 hInput.2
      rw [hQueue.unread] at hUnread
      cases hUnread
      rw [hQueue.readableLen]
      exact hParsed
  · rintro ⟨hDistinct, hRoom, hParsed⟩
    have hStores : ∀ client ∈ s.table.replicas, ∃ ring,
        (s.outputBuffer client).Stores r.range ring := by
      intro client hClient
      obtain ⟨queue, w, hQueue⟩ := hQueues client hClient
      rw [hQueue.stores_iff, r.range_length]
      exact hRoom client hClient
    obtain ⟨next, hEnded⟩ := serveReplicas_of_stores writer
      (s := { s with served := [] }) hDistinct hStores
    exact ⟨next, hEnded, servedRight_of_ended hWriter hRings hInput hDistinct
      (fun client hClient => (hRoom client hClient).1) hParsed hEnded⟩

end Propagation

/-- A ring that holds some bytes from its start on. -/
def ringOf (bytes : Bytes) : RingBuffer :=
  ⟨0, UInt64.ofNat bytes.length, fun i => bytes.getD i 0, 65536, 3⟩

/-- A read of `SET k v`. -/
def setRead : WriterRead := ⟨ringOf (text "*3\r\n$3\r\nSET\r\n$1\r\nk\r\n$1\r\nv\r\n"), 27⟩

/-- Client 1 is a regular one and client 2 a replica, whose output holds `n`
bytes. -/
def behindBy (n : Nat) : Outgoing where
  table :=
    { clients := fun client =>
        if client = 1 then some .regular else if client = 2 then some .replica else none
      replicas := [2] }
  outputBuffer _ := ⟨0, UInt64.ofNat n, fun _ => 0, 65536, 3⟩
  served := []

theorem propagation_right_with_room : PropagationRight 1 setRead (behindBy 100) :=
  (propagation_right_iff (by decide) (by decide) (by decide)).mpr ⟨by decide, by decide, by decide⟩

/-- The replica has no room: the writer is gone and the replica is still there. -/
theorem propagation_drops_writer :
    propagateToReplicas 1 setRead (behindBy 65536) =
        .freed (some ((behindBy 65536).table.setClient 1 none)) ∧
      ¬PropagationRight 1 setRead (behindBy 65536) := by
  have hFreed : propagateToReplicas 1 setRead (behindBy 65536) =
      .freed (some ((behindBy 65536).table.setClient 1 none)) := rfl
  refine ⟨hFreed, ?_⟩
  rintro ⟨next, hEnded, -⟩
  rw [hFreed] at hEnded
  cases hEnded

end RedisServer
