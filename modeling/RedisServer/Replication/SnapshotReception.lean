import RedisServer.Replication.FullResync
import RedisServer.Replication.ResyncLine

/-! The snapshot on the replica's side. The header is looked for in the ring
alone, and what lies behind it in the ring is not counted as received: as many
bytes as the snapshot has are then read from the socket, and the ring runs
behind by what it held before. The snapshot is complete in the end only if that
much more than the snapshot arrives. -/
namespace RedisServer

open Machine

section Header

theorem snapshotHeader_eq_cons (n : Nat) : snapshotHeader n = 36 :: natText n ++ [13, 10] := rfl

theorem crlfPos_cons {a : UInt8} (h : a ≠ 13) (rest : Bytes) :
    crlfPos (a :: rest) = (crlfPos rest).map (· + 1) := by
  cases rest with
  | nil => rfl
  | cons b rest => rw [crlfPos, if_neg (fun both => h both.1)]

theorem crlfPos_append {line : Bytes} (h : 13 ∉ line) (rest : Bytes) :
    crlfPos (line ++ rest) = (crlfPos rest).map (· + line.length) := by
  induction line with
  | nil => simp
  | cons a line ih =>
      rw [List.mem_cons, not_or] at h
      rw [List.cons_append, crlfPos_cons (Ne.symm h.1), ih h.2, Option.map_map]
      rfl

theorem cr_not_mem_header (n : Nat) : 13 ∉ (36 :: natText n : Bytes) := by
  rw [List.mem_cons, not_or]
  refine ⟨by decide, fun h => ?_⟩
  have hDigit := isDigit_of_mem_natText h
  revert hDigit
  decide

end Header

namespace MasterLink

section Receive

variable {ρ : Type} (srv : ReplicaServer ρ) {s : MasterLink ρ} {n : Nat}
  {file ahead snapshot tail : Bytes} {written : Nat}

/-- The snapshot of `n` bytes is being received. `file` has been written and
`ahead` lies in the ring. -/
structure Receiving (s : MasterLink ρ) (n : Nat) (file ahead : Bytes) (written : Nat) : Prop where
  control : ∃ bytesRead, s.control = .receive bytesRead
  master : s.handler.client.type = .master
  state : s.replClientState = .receivingRdbData
  size : s.inputBuffer.size = 65536
  expected : s.rdbExpectedBytes = n
  received : s.rdbReceivedBytes = file.length
  counted : s.rdbWrittenBytes = file.length
  tmpRdb : s.tmpRdb = some file
  queue : s.inputBuffer.Queues ahead written

/-- A header that is whole in the ring starts the reception. What lies behind
it is not counted. -/
theorem AtHeader.receive (h : AtHeader s (snapshotHeader n ++ ahead) written) (hn : n < 2 ^ 63) :
    ∃ t, Continues (serve srv) s t ∧ Receiving t n [] ahead written ∧ t.socket = s.socket := by
  have hWake := continues_wake srv h.control h.master
  obtain ⟨r, hShows⟩ := h.queue.exists_shows
  obtain ⟨hStop, hMem⟩ := h.queue.shows hShows
  obtain ⟨ptr, len, hReadable, hAll, hLen⟩ := hShows
  have hLoad : s.inputBuffer.load ptr len.toNat = snapshotHeader n ++ ahead := by
    have hUnread := h.queue.unread
    simp only [RingBuffer.unread, hReadable, Option.map_some, Option.some.injEq] at hUnread
    exact hUnread
  have hHeader : (snapshotHeader n).length = (natText n).length + 3 := by
    simp [snapshotHeader_eq_cons]
  have hDigits := List.length_pos_iff.mpr (natText_ne_nil n)
  have hPos : crlfPos (snapshotHeader n ++ ahead) = some (natText n).length.succ := by
    rw [snapshotHeader_eq_cons, List.append_assoc, crlfPos_append (cr_not_mem_header n)]
    simp [crlfPos]
  obtain ⟨ring, hRead, hNext, hSame⟩ := h.queue.rbRead
    (show (natText n).length.succ + 2 ≤ _ by rw [List.length_append]; omega)
  have hValue : (strtol (r.mem.drop 1)).value = n := by
    have hSplit : r.mem = snapshotHeader n ++ (ahead ++ r.mem.drop r.stop) := by
      rw [← List.append_assoc, ← hMem, List.take_append_drop]
    rw [hSplit, snapshotHeader_eq_cons, List.append_assoc, List.cons_append, List.drop_succ_cons,
      List.drop_zero, strtol_natText n _ (by
      intro c hc
      cases hc
      rfl)]
    dsimp only
    omega
  rw [replicaHandleMasterData, h.state] at hWake
  unfold receiveHeader at hWake
  simp only [hReadable, hLoad, hPos, hRead, ne_eq, not_true_eq_false, ↓reduceIte, ← hAll,
    hValue] at hWake
  rw [if_neg (by rw [← hLen, hStop, List.length_append]; omega)] at hWake
  refine ⟨_, hWake, ⟨⟨none, rfl⟩, h.master, rfl, hSame.trans h.size, rfl, rfl, h.fresh.2, ?_, ?_⟩,
    rfl⟩
  · change some (s.tmpRdb.getD []) = _
    rw [h.fresh.1]
    rfl
  · have hDrop : (snapshotHeader n ++ ahead).drop ((natText n).length.succ + 2) = ahead := by
      rw [show (natText n).length.succ + 2 = (snapshotHeader n).length by omega, List.drop_left]
    rw [hDrop] at hNext
    exact hNext

/-- The snapshot has arrived: the file is the snapshot, and what is left for
the parser, in the ring and in the socket, is the tail. -/
def Arrived (s : MasterLink ρ) (snapshot tail : Bytes) : Prop :=
  s.replClientState = .ready ∧ s.tmpRdb = some snapshot ∧
    ∃ queue, s.inputBuffer.unread = some queue ∧ queue ++ contents s.socket = tail

/-- The reads that bring the missing bytes never ask for more than fits. -/
def FitReads (room : Nat) : Nat → List ReadResult → Prop
  | _, [] => True
  | missing, .bytes b :: rest => min b.length missing ≤ room ∧ FitReads room (missing - b.length) rest
  | missing, _ :: rest => FitReads room missing rest

/-- As many bytes as were read move on from the ring to the file. -/
theorem drain_spec {queue : Bytes} {k : Nat} (hQueue : s.inputBuffer.Queues queue written)
    (hSize : s.inputBuffer.size = 65536) (hFile : s.tmpRdb = some file) (hk : k ≤ queue.length) :
    ∃ ring, ring.Queues (queue.drop k) written ∧ ring.size = 65536 ∧
      s.drain srv k =
        if s.rdbWrittenBytes + k = s.rdbExpectedBytes then
          { s with
            inputBuffer := ring
            tmpRdb := some (file ++ queue.take k)
            rdbWrittenBytes := s.rdbWrittenBytes + k
            handler := { s.handler with client := { s.handler.client with
              replClientState := .ready
              rest := srv.rdbLoadDataFromFile (file ++ queue.take k) s.handler.client.rest } }
            control := .idle }
        else
          { s with
            inputBuffer := ring
            tmpRdb := some (file ++ queue.take k)
            rdbWrittenBytes := s.rdbWrittenBytes + k
            control := .receive (some k) } := by
  have hRoom := hQueue.writableLen
  have hBytes : s.inputBuffer.size.toNat = 65536 := by rw [hSize]; rfl
  obtain ⟨ring, hRead, hNext, hSame⟩ := hQueue.rbRead hk
  have hPtr : (s.inputBuffer.readIndex % s.inputBuffer.size).toNat < 65536 := by
    rw [UInt64.toNat_mod, hBytes]
    exact Nat.mod_lt _ (by decide)
  refine ⟨ring, hNext, hSame.trans hSize, ?_⟩
  unfold drain
  simp only [hQueue.rbReadable, toSize_natCast (show k < 2 ^ 64 by omega), hRead,
    hQueue.load_take hk, hFile, Option.getD_some]
  rw [if_neg (by omega)]

/-- The read of an iteration, when it fits into the ring: not more is asked for
than is missing of the snapshot. -/
theorem Receiving.receiveStep_bytes (h : Receiving s n file ahead written) {b : Bytes}
    {rest : List ReadResult} (hSocket : s.socket = .bytes b :: rest) (hSome : b ≠ [])
    (hMissing : file.length < n) (hn : n < 2 ^ 63) (hAhead : ahead.length < 65536)
    (hFit : min b.length (n - file.length) ≤ 65536 - ahead.length)
    (hTotal : written + b.length < 2 ^ 64) (bytesRead : Option Int) :
    ∃ ring, ring.Queues (ahead ++ b.take (n - file.length))
        (written + (b.take (n - file.length)).length) ∧ ring.size = 65536 ∧
      s.receiveStep srv bytesRead = drain srv (b.take (n - file.length)).length { s with
        socket := if b.length ≤ n - file.length then rest
          else .bytes (b.drop (n - file.length)) :: rest
        inputBuffer := ring
        rdbReceivedBytes := s.rdbReceivedBytes + (b.take (n - file.length)).length } := by
  have hBytes : s.inputBuffer.size.toNat = 65536 := by rw [h.size]; rfl
  have hFree := h.queue.writableLen
  have hAsked : toSize (s.rdbExpectedBytes - s.rdbReceivedBytes) = n - file.length := by
    rw [h.expected, h.received, ← Nat.cast_sub hMissing.le]
    exact toSize_natCast (by omega)
  have hPositive := List.length_pos_iff.mpr hSome
  generalize hTaken : b.take (n - file.length) = taken at *
  have hLength : taken.length = min b.length (n - file.length) := by
    rw [← hTaken, List.length_take, Nat.min_comm]
  have hTakenSome : taken ≠ [] := List.ne_nil_of_length_pos (by omega)
  obtain ⟨ring, ⟨ptr, len, hWritable, -, hWrite⟩, hQueue, hSize⟩ :=
    h.queue.stores (show taken.length ≤ _ by omega) (by omega)
  have hPtr : ptr < 65536 := by
    rw [h.queue.rbWritable] at hWritable
    cases hWritable
    rw [UInt64.toNat_mod, hBytes]
    exact Nat.mod_lt _ (by decide)
  have hLen : len.toNat = s.inputBuffer.writableLen.toNat := by
    rw [h.queue.rbWritable] at hWritable
    cases hWritable
    rfl
  refine ⟨ring, hQueue, hSize.trans h.size, ?_⟩
  unfold receiveStep
  rw [if_pos (by rw [h.expected, h.received]; omega)]
  simp only [hWritable, hSocket, readSocket, hAsked, hTaken, hTakenSome, hWrite, ↓reduceIte]
  rw [if_neg (by omega), if_neg (by omega)]

/-- A read that fits into the ring. The file grows by as much as was read, from
the front of the ring. -/
theorem Receiving.read (h : Receiving s n file ahead written) {b : Bytes} {rest : List ReadResult}
    (hSocket : s.socket = .bytes b :: rest) (hSome : b ≠ []) (hMissing : file.length < n)
    (hn : n < 2 ^ 63) (hAhead : ahead.length < 65536)
    (hFit : min b.length (n - file.length) ≤ 65536 - ahead.length)
    (hTotal : written + b.length < 2 ^ 64) :
    ∃ t next left, Continues (serve srv) s t ∧
      next ++ left = ahead ++ b.take (n - file.length) ∧ left.length = ahead.length ∧
      t.socket = (if b.length ≤ n - file.length then rest
        else .bytes (b.drop (n - file.length)) :: rest) ∧
      t.tmpRdb = some (file ++ next) ∧
      t.inputBuffer.Queues left (written + (b.take (n - file.length)).length) ∧
      if file.length + next.length = n then t.replClientState = .ready
      else Receiving t n (file ++ next) left (written + (b.take (n - file.length)).length) := by
  obtain ⟨bytesRead, hControl⟩ := h.control
  have hStep := continues_receive srv hControl
  obtain ⟨ring, hQueue, hSize, hRead⟩ :=
    h.receiveStep_bytes srv hSocket hSome hMissing hn hAhead hFit hTotal bytesRead
  generalize b.take (n - file.length) = taken at *
  obtain ⟨left, hLeft, hLeftSize, hDrain⟩ := drain_spec srv (s := { s with
    socket := if b.length ≤ n - file.length then rest
      else .bytes (b.drop (n - file.length)) :: rest
    inputBuffer := ring
    rdbReceivedBytes := s.rdbReceivedBytes + taken.length }) hQueue hSize h.tmpRdb
    (show taken.length ≤ _ by rw [List.length_append]; omega)
  have hNext : ((ahead ++ taken).take taken.length).length = taken.length := by
    rw [List.length_take, List.length_append]
    omega
  have hBehind : ((ahead ++ taken).drop taken.length).length = ahead.length := by
    rw [List.length_drop, List.length_append]
    omega
  rw [hRead, hDrain] at hStep
  dsimp only at hStep
  rw [h.counted, h.expected] at hStep
  by_cases hLast : file.length + taken.length = n
  · rw [if_pos (by omega)] at hStep
    refine ⟨_, (ahead ++ taken).take taken.length, (ahead ++ taken).drop taken.length, hStep,
      List.take_append_drop .., hBehind, rfl, rfl, hLeft, ?_⟩
    rw [hNext, if_pos hLast]
    rfl
  · rw [if_neg (by omega)] at hStep
    refine ⟨_, (ahead ++ taken).take taken.length, (ahead ++ taken).drop taken.length, hStep,
      List.take_append_drop .., hBehind, rfl, rfl, hLeft, ?_⟩
    rw [hNext, if_neg hLast]
    refine ⟨⟨_, rfl⟩, h.master, h.state, hLeftSize, rfl, ?_, ?_, rfl, hLeft⟩
    · change s.rdbReceivedBytes + _ = _
      rw [h.received, List.length_append, hNext]
      omega
    · change (file.length : Int) + _ = _
      rw [List.length_append, hNext]
      omega

theorem continues_receivingRdbData (hControl : s.control = .idle)
    (hMaster : s.handler.client.type = .master) (hState : s.replClientState = .receivingRdbData) :
    Continues (serve srv) s s.beginReceive := by
  have hWake := continues_wake srv hControl hMaster
  rw [replicaHandleMasterData, hState] at hWake
  exact hWake

/-- A reception in which the socket blocks goes on with the next event. -/
theorem Receiving.resume (h : Receiving s n file ahead written) (rest : List ReadResult) :
    ∃ t, Continues (serve srv) { s with socket := rest, control := .idle } t ∧
      Receiving t n file ahead written ∧ t.socket = rest := by
  have hWake := continues_receivingRdbData srv (s := { s with socket := rest, control := .idle })
    rfl h.master h.state
  refine ⟨_, hWake, ⟨⟨none, rfl⟩, h.master, h.state, h.size, h.expected, h.received, h.counted, ?_,
    h.queue⟩, rfl⟩
  change some (s.tmpRdb.getD []) = _
  rw [h.tmpRdb]
  rfl

/-- A read that brings nothing. A socket that would block is left until it is
polled again, and an interrupted read is repeated at once. -/
theorem Receiving.retry (h : Receiving s n file ahead written) {result : ReadResult}
    {rest : List ReadResult} (hSocket : s.socket = result :: rest)
    (hNone : result = .wouldBlock ∨ result = .interrupted) (hMissing : file.length < n)
    (hAhead : ahead.length < 65536) :
    ∃ t, Visits (serve srv) s t ∧ Receiving t n file ahead written ∧ t.socket = rest := by
  obtain ⟨bytesRead, hControl⟩ := h.control
  have hStep := continues_receive srv hControl
  have hFree := h.queue.writableLen
  have hBytes : s.inputBuffer.size.toNat = 65536 := by rw [h.size]; rfl
  have hLess : s.rdbReceivedBytes < s.rdbExpectedBytes := by
    rw [h.expected, h.received]
    omega
  unfold receiveStep at hStep
  rcases hNone with rfl | rfl
  · simp only [hLess, ↓reduceIte, h.queue.rbWritable, hSocket, readSocket] at hStep
    rw [if_neg (by omega)] at hStep
    obtain ⟨t, hWake, hNext, hRest⟩ := h.resume srv rest
    exact ⟨t, (Relation.ReflTransGen.single hWake).head hStep, hNext, hRest⟩
  · simp only [hLess, ↓reduceIte, h.queue.rbWritable, hSocket, readSocket] at hStep
    rw [if_neg (by omega)] at hStep
    refine ⟨_, Relation.ReflTransGen.single hStep, ⟨⟨_, rfl⟩, h.master, h.state, h.size, h.expected,
      h.received, h.counted, h.tmpRdb, h.queue⟩, rfl⟩

/-- What a read takes and what it leaves is what was there. -/
theorem readSocket_contents (len : Nat) (socket : List ReadResult) :
    (readSocket len socket).1.content ++ contents (readSocket len socket).2 = contents socket := by
  cases socket with
  | nil => rfl
  | cons result rest =>
      cases result with
      | bytes b =>
          simp only [readSocket, ReadResult.content]
          split
          · rename_i hAll
            rw [List.take_of_length_le hAll]
            rfl
          · change b.take len ++ (b.drop len ++ contents rest) = b ++ contents rest
            rw [← List.append_assoc, List.take_append_drop]
      | wouldBlock | interrupted | failed => rfl

/-- Where the reads fit and enough bytes come, the snapshot arrives. -/
theorem Receiving.visits_arrived {results : List ReadResult}
    (h : Receiving s n file ahead written) (hSocket : s.socket = results)
    (hQuiet : ∀ result ∈ results, result.Quiet) (hMissing : file.length < n) (hn : n < 2 ^ 63)
    (hAhead : ahead.length < 65536)
    (hFits : FitReads (65536 - ahead.length) (n - file.length) results)
    (hStream : file ++ ahead ++ contents results = snapshot ++ tail)
    (hLength : snapshot.length = n) (hTail : ahead.length ≤ tail.length)
    (hTotal : written + (contents results).length < 2 ^ 64) :
    ∃ t, Visits (serve srv) s t ∧ Arrived t snapshot tail := by
  induction results generalizing s file ahead written with
  | nil =>
      -- All bytes have been read, and the file and the ring hold too few.
      have hLengths := congrArg List.length hStream
      simp only [contents, List.flatMap_nil, List.append_nil, List.length_append] at hLengths
      omega
  | cons result rest ih =>
      have hOthers : ∀ other ∈ rest, other.Quiet :=
        fun other hOther => hQuiet other (List.mem_cons_of_mem _ hOther)
      cases result with
      | bytes b =>
          have hContents : contents (.bytes b :: rest) = b ++ contents rest := rfl
          rw [hContents] at hStream
          rw [hContents, List.length_append] at hTotal
          obtain ⟨t, next, left, hNext, hMoved, hLeft, hRest, hFile, hQueue, hState⟩ :=
            h.read srv hSocket (hQuiet (.bytes b) (List.mem_cons_self ..)) hMissing hn hAhead hFits.1
              (by omega)
          have hCount : next.length = min b.length (n - file.length) := by
            have hLengths := congrArg List.length hMoved
            rw [List.length_append, List.length_append, List.length_take] at hLengths
            omega
          split at hState
          · rename_i hLast
            -- The last bytes of the snapshot: the rest of the chunk stays in the socket.
            have hLater : b.take (n - file.length) ++ contents t.socket = b ++ contents rest := by
              rw [hRest]
              exact readSocket_contents (n - file.length) (.bytes b :: rest)
            have hWhole : (file ++ next) ++ (left ++ contents t.socket) = snapshot ++ tail := by
              rw [← hStream, ← hLater, List.append_assoc, ← List.append_assoc next, hMoved]
              simp only [List.append_assoc]
            obtain ⟨rfl, hTail'⟩ := List.append_inj hWhole
              (by rw [List.length_append, hLength]; exact hLast)
            exact ⟨t, Relation.ReflTransGen.single hNext, hState, hFile, left, hQueue.unread, hTail'⟩
          · rename_i hMore
            have hAll : b.length ≤ n - file.length := by omega
            rw [if_pos hAll] at hRest
            rw [List.take_of_length_le hAll] at hMoved hState
            have hFits' := hFits.2
            obtain ⟨u, hVisits, hDone⟩ := ih hState hRest hOthers
              (by rw [List.length_append]; omega) (by omega)
              (by rw [hLeft, List.length_append, hCount, Nat.min_eq_left hAll, Nat.sub_add_eq]
                  exact hFits')
              (by rw [List.append_assoc file, hMoved, ← hStream]
                  simp only [List.append_assoc])
              (by omega) (by omega)
            exact ⟨u, hVisits.head hNext, hDone⟩
      | wouldBlock =>
          obtain ⟨t, hAgain, hNext, hRest⟩ := h.retry srv hSocket (.inl rfl) hMissing hAhead
          obtain ⟨u, hVisits, hDone⟩ :=
            ih hNext hRest hOthers hMissing hAhead hFits hStream hTail hTotal
          exact ⟨u, hAgain.trans hVisits, hDone⟩
      | interrupted =>
          obtain ⟨t, hAgain, hNext, hRest⟩ := h.retry srv hSocket (.inr rfl) hMissing hAhead
          obtain ⟨u, hVisits, hDone⟩ :=
            ih hNext hRest hOthers hMissing hAhead hFits hStream hTail hTotal
          exact ⟨u, hAgain.trans hVisits, hDone⟩
      | failed => exact (hQuiet .failed (List.mem_cons_self ..)).elim

end Receive

section TooFew

variable {ρ : Type} {srv : ReplicaServer ρ} {s t : MasterLink ρ}

/-- Less will come than is still expected. -/
structure Short (s : MasterLink ρ) : Prop where
  control : s.control = .idle ∨ ∃ bytesRead, s.control = .receive bytesRead
  counted : s.rdbWrittenBytes = s.rdbReceivedBytes
  missing : s.rdbReceivedBytes + (contents s.socket).length < s.rdbExpectedBytes
  small : s.rdbExpectedBytes < 2 ^ 63 ∧ 0 ≤ s.rdbReceivedBytes

def TooFew (s : MasterLink ρ) : Prop :=
  s.replClientState = .receivingRdbData ∧ (s.control = .stopped ∨ s.Short)

theorem Short.drain {k : Nat} (hState : s.replClientState = .receivingRdbData)
    (hCounted : s.rdbWrittenBytes + k = s.rdbReceivedBytes)
    (hMissing : s.rdbReceivedBytes + (contents s.socket).length < s.rdbExpectedBytes)
    (hSmall : s.rdbExpectedBytes < 2 ^ 63 ∧ 0 ≤ s.rdbReceivedBytes) (hk : k < 2 ^ 63) :
    TooFew (s.drain srv k) := by
  have hCount : toSize (k : Int) = k := toSize_natCast (by omega)
  unfold MasterLink.drain
  split
  · exact ⟨hState, Or.inl rfl⟩
  · dsimp only
    rw [hCount]
    split
    · exact ⟨hState, Or.inl rfl⟩
    · split
      · exact ⟨hState, Or.inl rfl⟩
      · rw [if_neg (by omega)]
        exact ⟨hState, Or.inr ⟨Or.inr ⟨_, rfl⟩, hCounted, hMissing, hSmall⟩⟩

/-- A reception that will get too little stays one, whatever is in the ring. -/
theorem TooFew.continues (h : TooFew s) (hNext : Continues (serve srv) s t) : TooFew t := by
  obtain ⟨hState, hStopped | ⟨hIdle | ⟨bytesRead, hReceive⟩, hCounted, hMissing, hSmall⟩⟩ := h
  · unfold Continues serve at hNext
    rw [hStopped] at hNext
    cases hNext
  · unfold Continues serve wake at hNext
    simp only [hIdle, Prod.mk.injEq, and_true] at hNext
    subst hNext
    split
    · rw [replicaHandleMasterData, hState]
      exact ⟨hState, Or.inr ⟨Or.inr ⟨none, rfl⟩, hCounted, hMissing, hSmall⟩⟩
    · exact ⟨hState, Or.inr ⟨Or.inl hIdle, hCounted, hMissing, hSmall⟩⟩
  · have hStep := continues_receive srv hReceive
    have hSame : (t, true) = (_, true) := hNext.symm.trans hStep
    cases hSame
    unfold receiveStep
    rw [if_pos (by omega)]
    split
    · exact ⟨hState, Or.inl rfl⟩
    · rename_i ptr len hWritable
      split
      · exact ⟨hState, Or.inr ⟨Or.inl rfl, hCounted, hMissing, hSmall⟩⟩
      · have hContents := congrArg List.length
          (readSocket_contents (toSize (s.rdbExpectedBytes - s.rdbReceivedBytes)) s.socket)
        rw [List.length_append] at hContents
        dsimp only
        generalize readSocket (toSize (s.rdbExpectedBytes - s.rdbReceivedBytes)) s.socket = found
          at hContents
        obtain ⟨result, socket⟩ := found
        dsimp only at hContents ⊢
        have hLater : s.rdbReceivedBytes + (contents socket).length < s.rdbExpectedBytes := by
          omega
        cases result with
        | wouldBlock | failed => exact ⟨hState, Or.inr ⟨Or.inl rfl, hCounted, hLater, hSmall⟩⟩
        | interrupted => exact ⟨hState, Or.inr ⟨Or.inr ⟨_, rfl⟩, hCounted, hLater, hSmall⟩⟩
        | bytes b =>
            dsimp only [ReadResult.content] at hContents ⊢
            split
            · exact ⟨hState, Or.inr ⟨Or.inl rfl, hCounted, hLater, hSmall⟩⟩
            · split
              · exact ⟨hState, Or.inl rfl⟩
              · split
                · exact ⟨hState, Or.inl rfl⟩
                · refine Short.drain (s := { s with
                    socket := socket
                    inputBuffer := _
                    rdbReceivedBytes := s.rdbReceivedBytes + b.length }) hState ?_ ?_ ?_ ?_
                  · change s.rdbWrittenBytes + _ = s.rdbReceivedBytes + _
                    rw [hCounted]
                  · change s.rdbReceivedBytes + b.length + (contents socket).length <
                      s.rdbExpectedBytes
                    omega
                  · exact ⟨hSmall.1, by change 0 ≤ s.rdbReceivedBytes + b.length; omega⟩
                  · omega

end TooFew

section Reception

variable {ρ : Type} {srv : ReplicaServer ρ} {s t : MasterLink ρ} {written : Nat}

theorem receivesInState_of_continues (h : s.ReceivesInState) (hNext : Continues (serve srv) s t) :
    t.ReceivesInState ∧ Moves srv s t := by
  have hWake := step_moves srv h .wake
  have hTick := step_moves srv h .tick
  unfold Continues serve at hNext
  split at hNext
  · cases hNext
    exact ⟨hWake.2, hWake.1⟩
  · cases hNext
  · cases hNext
    exact ⟨hTick.2, hTick.1⟩

/-- A snapshot that has arrived is not waited for again. -/
theorem not_visits_of_ready {m : MasterLink ρ} (h : t.ReceivesInState)
    (hReady : t.replClientState = .ready) (hVisits : Visits (serve srv) t m) :
    m.replClientState = .ready ∨ m.replClientState = .error := by
  have hInv : m.ReceivesInState ∧
      (m.replClientState = .ready ∨ m.replClientState = .error) := by
    refine hVisits.invariant (I := fun m => m.ReceivesInState ∧
      (m.replClientState = .ready ∨ m.replClientState = .error)) ?_ ⟨h, Or.inl hReady⟩
    rintro a b ⟨ha, hEnd⟩ hNext
    obtain ⟨hb, hMoves⟩ := receivesInState_of_continues ha hNext
    refine ⟨hb, ?_⟩
    have hLast : a.replClientState.successor = none := by
      rcases hEnd with hEnd | hEnd
      all_goals
        rw [hEnd]
        rfl
    cases hMoves with
    | stays hState hSent => rw [hState]; exact hEnd
    | fails hState hSent => exact Or.inr hState
    | sends command hState hCommand hNext hSent => rw [hLast] at hState; cases hState
    | answered hState hAnswer hSent => rw [hLast] at hState; cases hState
    | proceeds hState hFour hNext hSent => rw [hLast] at hState; cases hState
  exact hInv.2

/-- The snapshot arrives at some time. -/
def Arrives (srv : ReplicaServer ρ) (s : MasterLink ρ) (snapshot tail : Bytes) : Prop :=
  ∃ t, Visits (serve srv) s t ∧ Arrived t snapshot tail

/-- A run that gets to a place it never leaves, before the snapshot has
arrived, does not see it arrive. -/
theorem not_arrives {m : MasterLink ρ} {J : MasterLink ρ → Prop} {snapshot tail : Bytes}
    (h : s.ReceivesInState) (hVisits : Visits (serve srv) s m) (hm : J m)
    (hStay : ∀ a b, J a → Continues (serve srv) a b → J b)
    (hNot : ∀ a, J a → a.replClientState ≠ .ready ∧ a.replClientState ≠ .error) :
    ¬Arrives srv s snapshot tail := by
  rintro ⟨t, ht, hReady, -⟩
  have hUnique : Relator.RightUnique (Continues (serve srv)) := by
    intro a b c hb hc
    have hSame : (b, true) = (c, true) := hb.symm.trans hc
    cases hSame
    rfl
  rcases Relation.ReflTransGen.total_of_right_unique hUnique ht hVisits with hLater | hEarlier
  · have hReceives : t.ReceivesInState :=
      ht.invariant (fun a b ha hNext => (receivesInState_of_continues ha hNext).1) h
    rcases not_visits_of_ready hReceives hReady hLater with hEnd | hEnd
    · exact (hNot m hm).1 hEnd
    · exact (hNot m hm).2 hEnd
  · have hThere : J t := Visits.invariant hStay hm hEarlier
    exact (hNot t hThere).1 hReady

end Reception

end MasterLink

/-- The answer of the master to `PSYNC`, without its line end. -/
def resyncText (id off : Bytes) : Bytes := text "FULLRESYNC " ++ id ++ 32 :: off

def resyncLine (id off : Bytes) : Bytes := 43 :: resyncText id off ++ [13, 10]

/-- The master of this repository sends such a line. -/
theorem fullresyncLine_eq_resyncLine (offset : Int) :
    fullresyncLine offset = resyncLine masterReplid (intText offset) := by
  simp [fullresyncLine, resyncLine, resyncText, crlf, text, ascii]

namespace MasterLink

section Resync

variable {ρ : Type} {srv : ReplicaServer ρ} {s : MasterLink ρ} {written : Nat}
  {id off snapshot tail c : Bytes} {before after : List ReadResult}

/-- The replica has sent its `PSYNC` and waits for the answer. -/
structure AwaitsResync (s : MasterLink ρ) (written : Nat) : Prop where
  control : s.control = .idle
  master : s.handler.client.type = .master
  state : s.replClientState = .sentPsync
  running : s.handler.status = .running
  bufSize : 256 ≤ s.handler.bufSize
  parser : s.parser = parserInit
  size : s.inputBuffer.size = 65536
  fresh : s.tmpRdb = none ∧ s.rdbWrittenBytes = 0
  queue : s.inputBuffer.Queues [] written

/-- The stream of a full resynchronisation in any pieces. `c` is the read that
brings the end of the first line. -/
structure Resync (s : MasterLink ρ) (written : Nat) (id off snapshot tail : Bytes)
    (before : List ReadResult) (c : Bytes) (after : List ReadResult) : Prop where
  awaits : AwaitsResync s written
  replid : id.length ≤ 40 ∧ 13 ∉ id
  offset : off.length ≤ 20 ∧ 13 ∉ off
  some : snapshot ≠ []
  socket : s.socket = before ++ .bytes c :: after
  quiet : ∀ result ∈ s.socket, result.Quiet
  stream : contents s.socket =
    resyncLine id off ++ snapshotHeader snapshot.length ++ snapshot ++ tail
  first : (contents before).length < (resyncLine id off).length
  last : (resyncLine id off).length ≤ (contents before ++ c).length
  small : written + (contents s.socket).length < 2 ^ 63

/-- The header is whole in the ring when the line has been answered. -/
def WholeHeader (id off : Bytes) (n : Nat) (got : Bytes) : Prop :=
  (resyncLine id off ++ snapshotHeader n).length ≤ got.length

/-- How much the last read of the line brings from behind the header. -/
def aheadLength (id off : Bytes) (n : Nat) (got : Bytes) : Nat :=
  got.length - (resyncLine id off ++ snapshotHeader n).length

theorem AwaitsResync.advances (srv : ReplicaServer ρ) (h : AwaitsResync s written) :
    ∃ t, Advances srv s.handler.client.shouldPropogateCommand s t ∧ InLine t [] written ∧
      t.socket = s.socket ∧ t.handler.client = s.handler.client :=
  ⟨_, .single (takes_sentPsync srv _ h.control h.master h.state),
    ⟨rfl, h.size, h.fresh, [], [], rfl, Or.inl rfl,
      ⟨h.running, h.master, h.state, h.bufSize, by simp, Or.inl ⟨rfl, h.parser⟩⟩, h.queue⟩, rfl, rfl⟩

/-- The line in any pieces, when a read brings its end and maybe more. -/
theorem AwaitsResync.advances_atHeader (srv : ReplicaServer ρ) (h : AwaitsResync s written)
    (hId : id.length ≤ 40 ∧ 13 ∉ id) (hOff : off.length ≤ 20 ∧ 13 ∉ off)
    (hSocket : s.socket = before ++ .bytes c :: after)
    (hQuiet : ∀ result ∈ before ++ [.bytes c], result.Quiet)
    (hFirst : (contents before).length < (resyncLine id off).length) {queue : Bytes}
    (hQueue : contents before ++ c = resyncLine id off ++ queue) (hRoom : c.length < 65535)
    (hTotal : written + (contents before ++ c).length < 2 ^ 64) :
    ∃ t, Advances srv s.handler.client.shouldPropogateCommand s t ∧
      AtHeader t queue (written + (contents before ++ c).length) ∧ t.socket = after := by
  obtain ⟨m, hAwait, hLine, hSame, hClient⟩ := h.advances srv
  have hBody : 13 ∉ resyncText id off := by
    unfold resyncText
    simp only [List.mem_append, List.mem_cons, not_or]
    exact ⟨⟨by decide, hId.2⟩, by decide, hOff.2⟩
  have hLength : (resyncText id off).length < 256 := by
    have hWord : (text "FULLRESYNC ").length = 11 := by decide
    unfold resyncText
    rw [List.length_append, List.length_append, List.length_cons, hWord]
    omega
  have hPart : contents before <+: resyncLine id off := by
    refine List.prefix_of_prefix_length_le ?_ (List.prefix_append _ queue) hFirst.le
    rw [← hQueue]
    exact List.prefix_append ..
  rw [List.length_append] at hTotal ⊢
  obtain ⟨u, hReads, hInLine, hRest, hClient'⟩ := hLine.advances srv hLength hBody
    (hSame.trans hSocket)
    (fun result hResult => hQuiet result (List.mem_append_left _ hResult)) hPart hFirst (by omega)
  rw [List.nil_append] at hInLine
  have hSome : c ≠ [] := hQuiet (.bytes c) (by simp)
  have hText : contents before ++ c = 43 :: resyncText id off ++ 13 :: 10 :: queue := by
    rw [hQueue]
    simp [resyncLine]
  obtain ⟨t, hReads', hAt, hAfter⟩ := hInLine.line srv hRest hSome hRoom (by omega) hText hBody
    hLength (by
      unfold resyncText
      rw [List.append_assoc, List.take_append_of_le_length (by decide)]
      decide)
  rw [hClient'] at hReads'
  rw [hClient] at hReads hReads'
  rw [← Nat.add_assoc]
  exact ⟨t, (hAwait.trans hReads).trans hReads', hAt, hAfter⟩

/-- When the line has been answered, the ring holds what came behind it. -/
theorem Resync.visits_atHeader (srv : ReplicaServer ρ)
    (h : Resync s written id off snapshot tail before c after)
    (hRoom : c.length < 65535) :
    ∃ t queue, Visits (serve srv) s t ∧ contents before ++ c = resyncLine id off ++ queue ∧
      AtHeader t queue (written + (contents before ++ c).length) ∧ t.socket = after := by
  have hContents : contents s.socket = contents before ++ c ++ contents after := by
    rw [h.socket]
    simp [contents, ReadResult.content]
  have hStream := hContents.symm.trans h.stream
  have hTotal := h.small
  rw [hContents, List.length_append] at hTotal
  obtain ⟨queue, hQueue⟩ : resyncLine id off <+: contents before ++ c := by
    refine List.prefix_of_prefix_length_le ?_ (List.prefix_append _ (contents after)) h.last
    rw [hStream, List.append_assoc, List.append_assoc]
    exact List.prefix_append ..
  have hQuiet : ∀ result ∈ before ++ [.bytes c], result.Quiet := by
    intro result hResult
    refine h.quiet result ?_
    rw [h.socket, List.append_cons]
    exact List.mem_append_left _ hResult
  obtain ⟨t, hReads, hAt, hAfter⟩ := h.awaits.advances_atHeader srv h.replid h.offset h.socket
    hQuiet h.first hQueue.symm hRoom (by omega)
  exact ⟨t, queue, hReads.visits, hQueue.symm, hAt, hAfter⟩

/-- What the ring holds when the line has been answered is the start of what
follows the line. -/
theorem Resync.behind_line (h : Resync s written id off snapshot tail before c after)
    {queue : Bytes} (hQueue : contents before ++ c = resyncLine id off ++ queue) :
    queue ++ contents after = snapshotHeader snapshot.length ++ (snapshot ++ tail) := by
  have hContents : contents s.socket = contents before ++ c ++ contents after := by
    rw [h.socket]
    simp [contents, ReadResult.content]
  have hStream := hContents.symm.trans h.stream
  rw [hQueue, List.append_assoc, List.append_assoc, List.append_assoc] at hStream
  exact List.append_cancel_left hStream

/-- The snapshot arrives if the header is whole, as much more than the snapshot
comes as lies behind the header, and the reads fit. -/
theorem Resync.arrives (srv : ReplicaServer ρ)
    (h : Resync s written id off snapshot tail before c after) (hRoom : c.length < 65535)
    (hWhole : WholeHeader id off snapshot.length (contents before ++ c))
    (hEnough : aheadLength id off snapshot.length (contents before ++ c) ≤ tail.length)
    (hFits : FitReads (65536 - aheadLength id off snapshot.length (contents before ++ c))
      snapshot.length after) :
    Arrives srv s snapshot tail := by
  obtain ⟨m, queue, hVisits, hQueue, hAt, hAfter⟩ := h.visits_atHeader srv hRoom
  have hBehind := h.behind_line hQueue
  have hFirst := h.first
  have hSmall := h.small
  have hLengths := congrArg List.length hQueue
  have hAll := congrArg List.length hBehind
  simp only [List.length_append] at hLengths hAll
  rw [h.socket] at hSmall
  simp only [contents, List.flatMap_append, List.flatMap_cons, List.length_append,
    ReadResult.content] at hSmall
  change _ + ((contents before).length + (c.length + (contents after).length)) < _ at hSmall
  unfold WholeHeader at hWhole
  unfold aheadLength at hEnough hFits
  rw [List.length_append, List.length_append] at hWhole hEnough hFits
  obtain ⟨ahead, rfl⟩ : snapshotHeader snapshot.length <+: queue :=
    List.prefix_of_prefix_length_le (List.prefix_append ..) (hBehind ▸ List.prefix_append ..)
      (by omega)
  rw [List.append_assoc, List.append_cancel_left_eq] at hBehind
  rw [List.length_append] at hLengths hAll
  obtain ⟨u, hNext, hReceiving, hSocket⟩ := hAt.receive srv (by omega)
  have hAhead : (contents before).length + c.length -
      ((resyncLine id off).length + (snapshotHeader snapshot.length).length) = ahead.length := by
    omega
  rw [hAhead] at hEnough hFits
  have hSome := List.length_pos_iff.mpr h.some
  obtain ⟨t, hLater, hArrived⟩ := hReceiving.visits_arrived srv (hSocket.trans hAfter)
    (fun result hResult => h.quiet result (by
      rw [h.socket]
      exact List.mem_append_right _ (List.mem_cons_of_mem _ hResult)))
    hSome (by omega) (by omega) hFits hBehind rfl hEnough
    (by rw [List.length_append]; omega)
  exact ⟨t, (hVisits.tail hNext).trans hLater, hArrived⟩

/-- A header that is cut is never completed. -/
theorem AtHeader.stuck {m : MasterLink ρ} {queue : Bytes} {n : Nat} (h : AtHeader m queue written)
    (hPart : queue <+: snapshotHeader n) (hShort : queue.length < (snapshotHeader n).length)
    {b : MasterLink ρ} (hNext : Continues (serve srv) m b) : b = m := by
  have hWake := continues_wake srv h.control h.master
  have hSame : (b, true) = (_, true) := hNext.symm.trans hWake
  cases hSame
  rw [snapshotHeader_eq_cons] at hPart hShort
  obtain ⟨pending, hQueue, hPending⟩ := exists_pending hPart hShort
  have hNone : crlfPos queue = none := by
    have hClean : 13 ∉ (36 :: natText n : Bytes).take queue.length :=
      fun h13 => cr_not_mem_header n (List.mem_of_mem_take h13)
    rw [hQueue, crlfPos_append hClean]
    rcases hPending with rfl | rfl <;> rfl
  have hUnread := h.queue.unread
  simp only [RingBuffer.unread, h.queue.rbReadable, Option.map_some, Option.some.injEq] at hUnread
  rw [replicaHandleMasterData, h.state]
  unfold receiveHeader
  simp only [h.queue.rbReadable, hUnread, hNone, ite_self]

/-- The snapshot arrives only if the header is whole and as much more than the
snapshot comes as lies behind the header. -/
theorem Resync.of_arrives (h : Resync s written id off snapshot tail before c after)
    (hRoom : c.length < 65535) (hArrives : Arrives srv s snapshot tail) :
    WholeHeader id off snapshot.length (contents before ++ c) ∧
      aheadLength id off snapshot.length (contents before ++ c) ≤ tail.length := by
  obtain ⟨m, queue, hVisits, hQueue, hAt, hAfter⟩ := h.visits_atHeader srv hRoom
  have hBehind := h.behind_line hQueue
  have hSmall := h.small
  have hStart : s.ReceivesInState := by
    intro bytesRead hControl
    rw [h.awaits.control] at hControl
    cases hControl
  have hLengths := congrArg List.length hQueue
  have hAll := congrArg List.length hBehind
  simp only [List.length_append] at hLengths hAll
  have hn : snapshot.length < 2 ^ 63 := by
    rw [h.stream] at hSmall
    simp only [List.length_append] at hSmall
    omega
  have hWhole : WholeHeader id off snapshot.length (contents before ++ c) := by
    by_contra hNot
    unfold WholeHeader at hNot
    rw [List.length_append, List.length_append] at hNot
    refine not_arrives (J := fun a => a = m) hStart hVisits rfl ?_ ?_ hArrives
    · rintro a b rfl hNext
      exact hAt.stuck (List.prefix_of_prefix_length_le (hBehind ▸ List.prefix_append ..)
        (List.prefix_append ..) (by omega)) (by omega) hNext
    · rintro a rfl
      rw [hAt.state]
      decide
  refine ⟨hWhole, ?_⟩
  by_contra hMore
  unfold WholeHeader at hWhole
  unfold aheadLength at hMore
  rw [List.length_append, List.length_append] at hWhole hMore
  obtain ⟨ahead, rfl⟩ : snapshotHeader snapshot.length <+: queue :=
    List.prefix_of_prefix_length_le (List.prefix_append ..) (hBehind ▸ List.prefix_append ..)
      (by omega)
  rw [List.length_append] at hLengths hAll
  obtain ⟨u, hNext, hReceiving, hSocket⟩ := hAt.receive srv hn
  refine not_arrives (J := TooFew) hStart (hVisits.tail hNext) ?_
    (fun a b ha hStep => ha.continues hStep) ?_ hArrives
  · refine ⟨hReceiving.state, Or.inr ⟨Or.inr hReceiving.control, ?_, ?_, ?_⟩⟩
    · rw [hReceiving.counted, hReceiving.received]
    · rw [hReceiving.received, hReceiving.expected, hSocket, hAfter, List.length_nil]
      omega
    · rw [hReceiving.received, hReceiving.expected, List.length_nil]
      omega
  · rintro a ⟨hState, -⟩
    rw [hState]
    decide

/-- Reception of a snapshot in any pieces. It works where the read that ends
the first line brings the whole header and leaves room, as many bytes come
behind the snapshot as this read brings from behind the header, and the later
reads fit; of these, the first and the third are also necessary. -/
theorem snapshot_reception (srv : ReplicaServer ρ)
    (h : Resync s written id off snapshot tail before c after) :
    (c.length < 65535 ∧ WholeHeader id off snapshot.length (contents before ++ c) ∧
        aheadLength id off snapshot.length (contents before ++ c) ≤ tail.length ∧
        FitReads (65536 - aheadLength id off snapshot.length (contents before ++ c))
          snapshot.length after →
      Arrives srv s snapshot tail) ∧
    (c.length < 65535 → Arrives srv s snapshot tail →
      WholeHeader id off snapshot.length (contents before ++ c) ∧
        aheadLength id off snapshot.length (contents before ++ c) ≤ tail.length) :=
  ⟨fun ⟨hRoom, hWhole, hEnough, hFits⟩ => h.arrives srv hRoom hWhole hEnough hFits,
    fun hRoom hArrives => h.of_arrives hRoom hArrives⟩

end Resync

section Requests

/-- A replica whose commands do nothing. -/
def idleReplica : ReplicaServer Unit := ⟨idleCommands, text "6380", fun _ _ => ()⟩

/-- Its link when the handshake has been sent, with what the socket will give. -/
def awaitingLink (results : List ReadResult) : MasterLink Unit :=
  { connectMaster ⟨0, 0, fun _ => 0, 65536, 3⟩ () with
    handler := createCommandHandler ⟨.master, .sentPsync, false, ()⟩ 256 10
    socket := results
    sent := handshakeCommands idleReplica.port }

theorem awaitsResync_awaitingLink (results : List ReadResult) :
    AwaitsResync (awaitingLink results) 0 where
  control := rfl
  master := rfl
  state := rfl
  running := rfl
  bufSize := Nat.le_refl 256
  parser := rfl
  size := rfl
  fresh := ⟨rfl, rfl⟩
  queue := RingBuffer.queues_client

/-- What the master sends before a snapshot of one byte. -/
def oneByteHead : Bytes := resyncHead 0 (text "X")

theorem oneByteHead_eq :
    oneByteHead = resyncLine masterReplid (text "0") ++ snapshotHeader (text "X").length := by
  rw [oneByteHead, resyncHead, fullresyncLine_eq_resyncLine]
  rfl

/-- The head and the snapshot come in two reads. -/
theorem resync_two_reads : Resync (awaitingLink [.bytes oneByteHead, .bytes (text "X")]) 0
    masterReplid (text "0") (text "X") [] [] oneByteHead [.bytes (text "X")] where
  awaits := awaitsResync_awaitingLink _
  replid := by decide
  offset := by decide
  some := by decide
  socket := rfl
  quiet := by
    intro result hResult
    rcases List.mem_pair.mp hResult with rfl | rfl
    · change oneByteHead ≠ []
      decide
    · change text "X" ≠ []
      decide
  stream := by
    rw [← oneByteHead_eq]
    rfl
  first := by decide
  last := by decide
  small := by decide

/-- The head and the snapshot come in one read. -/
theorem resync_one_read : Resync (awaitingLink [.bytes (oneByteHead ++ text "X")]) 0
    masterReplid (text "0") (text "X") [] [] (oneByteHead ++ text "X") [] where
  awaits := awaitsResync_awaitingLink _
  replid := by decide
  offset := by decide
  some := by decide
  socket := rfl
  quiet := by
    intro result hResult
    rcases List.mem_singleton.mp hResult with rfl
    change oneByteHead ++ text "X" ≠ []
    decide
  stream := by
    rw [← oneByteHead_eq]
    rfl
  first := by decide
  last := by decide
  small := by decide

theorem snapshot_reception_two_reads :
    Arrives idleReplica (awaitingLink [.bytes oneByteHead, .bytes (text "X")]) (text "X") [] :=
  (snapshot_reception idleReplica resync_two_reads).1
    ⟨by decide, by unfold WholeHeader; decide, by decide, by decide, trivial⟩

/-- In one read, the snapshot lies in the ring and is waited for. -/
theorem snapshot_not_received :
    Resync (awaitingLink [.bytes (oneByteHead ++ text "X")]) 0 masterReplid (text "0") (text "X") []
        [] (oneByteHead ++ text "X") [] ∧
      ¬Arrives idleReplica (awaitingLink [.bytes (oneByteHead ++ text "X")]) (text "X") [] := by
  refine ⟨resync_one_read, fun hArrives => ?_⟩
  have hEnough := (resync_one_read.of_arrives (by decide) hArrives).2
  revert hEnough
  decide

end Requests

end MasterLink

end RedisServer
