import RedisServer.Protocol.Pipeline
import RedisServer.Storage.RingBuffer

/-! The input side of a client, after `process_client_input`: bytes from the
socket go into the input ring, the parser is run on all that is readable, and
what it reports is taken out of the ring. -/
namespace RedisServer

open Machine

namespace RingBuffer

/-- Bytes that there is room for are put in at the write pointer and queued. -/
def Stores (rb : RingBuffer) (bytes : Bytes) (next : RingBuffer) : Prop :=
  ∃ ptr len, rbWritable rb = some (ptr, len) ∧ bytes.length ≤ len.toNat ∧
    rbWrite (rb.memcpy ptr bytes) (UInt64.ofNat bytes.length) = some (next, 0)

/-- A `read` from the socket that returned these bytes and made the ring
`next`. No more bytes come than there is room for. -/
def FillsTo (rb : RingBuffer) (bytes : Bytes) (next : RingBuffer) : Prop :=
  bytes ≠ [] ∧ Stores rb bytes next

/-- The range the parser is given: the readable bytes, and behind them the rest
of the double mapping. -/
def Shows (rb : RingBuffer) (r : Range) : Prop :=
  ∃ ptr len, rbReadable rb = some (ptr, len) ∧ r.mem = rb.load ptr (2 * rb.size.toNat - ptr) ∧
    r.stop = len.toNat

/-- The unread content of a ring. -/
def unread (rb : RingBuffer) : Option Bytes :=
  (rbReadable rb).map fun (ptr, len) => rb.load ptr len.toNat

/-- The ring holds these bytes, after `written` bytes in all. -/
def Queues (rb : RingBuffer) (queue : Bytes) (written : Nat) : Prop :=
  ∃ f, Refines rb f ∧ f.queue = queue ∧ f.written = written

section Queue

variable {rb next : RingBuffer} {queue : Bytes} {written : Nat}

theorem Queues.writableLen (h : Queues rb queue written) :
    rb.writableLen.toNat + queue.length = rb.size.toNat := by
  obtain ⟨f, hf, rfl, -⟩ := h
  have hFree := hf.writableLen_toNat
  have hCapacity := hf.capacity_eq
  unfold Fifo.capacity at hCapacity
  omega

theorem Queues.unread (h : Queues rb queue written) : rb.unread = some queue := by
  obtain ⟨f, hf, rfl, rfl⟩ := h
  simp only [RingBuffer.unread, rbReadable, hf.assertState, ↓reduceIte, Option.map_some,
    hf.readableLen_toNat, hf.load_readable]

theorem Queues.rbWritable (h : Queues rb queue written) :
    RedisServer.rbWritable rb = some ((rb.writeIndex % rb.size).toNat, rb.writableLen) := by
  obtain ⟨f, hf, rfl, rfl⟩ := h
  rw [RedisServer.rbWritable, if_pos hf.assertState]

theorem Queues.rbReadable (h : Queues rb queue written) :
    RedisServer.rbReadable rb = some ((rb.readIndex % rb.size).toNat, rb.readableLen) := by
  obtain ⟨f, hf, rfl, rfl⟩ := h
  rw [RedisServer.rbReadable, if_pos hf.assertState]

theorem Queues.readableLen (h : Queues rb queue written) :
    rb.readableLen.toNat = queue.length := by
  obtain ⟨f, hf, rfl, rfl⟩ := h
  exact hf.readableLen_toNat

theorem Queues.length_le (h : Queues rb queue written) : queue.length ≤ written := by
  obtain ⟨f, hf, rfl, rfl⟩ := h
  have hRead := hf.read_eq
  omega

theorem Queues.cursor (h : Queues rb queue written) : rb.writeIndex.toNat = written := by
  obtain ⟨f, hf, -, rfl⟩ := h
  exact hf.write_eq

theorem Queues.readCursor (h : Queues rb queue written) :
    rb.readIndex.toNat + queue.length = written := by
  obtain ⟨f, hf, rfl, rfl⟩ := h
  exact hf.read_eq

theorem Queues.load_take (h : Queues rb queue written) {n : Nat} (hn : n ≤ queue.length) :
    rb.load (rb.readIndex % rb.size).toNat n = queue.take n := by
  obtain ⟨f, hf, rfl, rfl⟩ := h
  have hLoad := hf.load_readable
  rw [load] at hLoad ⊢
  rw [← hLoad, window_take _ _ _ _ _ hn]

theorem memcpy_mod (rb : RingBuffer) (ptr : Nat) (bytes : Bytes) :
    rb.memcpy (ptr % rb.size.toNat) bytes = rb.memcpy ptr bytes := by
  rw [memcpy, memcpy, storeAt_mod]

/-- Bytes stored anywhere leave the cursors alone. -/
theorem Queues.memcpy (h : Queues rb queue written) (ptr : Nat) (bytes : Bytes) :
    ∃ other, Queues (rb.memcpy ptr bytes) other written ∧ other.length = queue.length := by
  obtain ⟨f, hf, rfl, rfl⟩ := h
  let cells := storeAt rb.region rb.size.toNat ptr bytes
  have hCells : Refines (rb.memcpy ptr bytes)
      ⟨window cells rb.size.toNat rb.readIndex.toNat f.queue.length,
        window cells rb.size.toNat rb.writeIndex.toNat f.free.length, f.written⟩ := by
    refine ⟨hf.open_fd, hf.size_pos, hf.write_eq, ?_, ?_, ?_, ?_⟩
    · simp only [window_length]
      exact hf.read_eq
    · simp only [Fifo.capacity, window_length]
      exact hf.capacity_eq
    · simp only [window_length]
      rfl
    · simp only [window_length]
      rfl
  exact ⟨_, ⟨_, hCells, rfl, rfl⟩, window_length ..⟩

/-- What is queued beyond the first turn of the counter fails an assertion. -/
theorem Queues.write_some (h : Queues rb queue written) {n : Nat} {code : Int}
    (hn : n ≤ rb.writableLen.toNat) (hWrite : rbWrite rb (UInt64.ofNat n) = some (next, code)) :
    written + n < 2 ^ 64 ∧ ∃ more, more.length = n ∧ Queues next (queue ++ more) (written + n) ∧
      next.size = rb.size := by
  obtain ⟨f, hf, rfl, rfl⟩ := h
  have hFree := hf.writableLen_toNat
  have hSmall := rb.writableLen.toNat_lt
  have hCount : (UInt64.ofNat n).toNat = n :=
    UInt64.toNat_ofNat_of_lt' (by change _ < 2 ^ 64; omega)
  have hTotal : f.written + n < 2 ^ 64 := by
    have hIndex := hf.write_eq
    have hRead := hf.read_eq
    have hCapacity := hf.capacity_eq
    have hSize := rb.size.toNat_lt
    unfold Fifo.capacity at hCapacity
    unfold rbWrite at hWrite
    rw [if_neg (not_not.mpr hf.assertState), if_neg] at hWrite
    · dsimp only at hWrite
      split at hWrite
      · rename_i hState
        have hOrder : rb.readIndex.toNat ≤ (rb.writeIndex + UInt64.ofNat n).toNat :=
          UInt64.le_iff_toNat_le.mp hState.2.1
        by_contra hWrap
        rw [UInt64.toNat_add, hCount, hIndex] at hOrder
        have hCounter := rb.writeIndex.toNat_lt
        rw [Nat.mod_eq_sub_mod (by omega), Nat.mod_eq_of_lt (by omega)] at hOrder
        omega
      · cases hWrite
    · rw [gt_iff_lt, UInt64.lt_iff_toNat_lt, hCount]
      omega
  have hEnough : n ≤ f.free.length := by omega
  have hQueued : f.write n =
      (⟨f.queue ++ f.free.take n, f.free.drop n, f.written + n⟩, true) := by
    simp only [Fifo.write, hEnough, ↓reduceIte]
  have hNext := hf.write (UInt64.ofNat n)
  rw [hCount, hQueued] at hNext
  obtain ⟨same, hSame, hRefines⟩ := hNext hTotal
  rw [hWrite] at hSame
  cases hSame
  exact ⟨hTotal, f.free.take n, List.length_take_of_le hEnough, ⟨_, hRefines, rfl, rfl⟩,
    rbWrite_size hWrite⟩

/-- What does not fit is refused. -/
theorem Queues.write_refused (h : Queues rb queue written) {n : Nat} (hSmall : n < 2 ^ 64)
    (hn : rb.writableLen.toNat < n) : rbWrite rb (UInt64.ofNat n) = some (rb, -1) := by
  obtain ⟨f, hf, rfl, rfl⟩ := h
  have hCount : (UInt64.ofNat n).toNat = n := UInt64.toNat_ofNat_of_lt' hSmall
  rw [rbWrite, if_neg (not_not.mpr hf.assertState), if_pos]
  rw [gt_iff_lt, UInt64.lt_iff_toNat_lt, hCount]
  exact hn

/-- A text that fits is stored, maybe with some bytes behind it, and queued. -/
theorem Queues.put (h : Queues rb queue written) {text extra : Bytes}
    (hFit : text.length + extra.length ≤ rb.writableLen.toNat)
    (hTotal : written + text.length < 2 ^ 64) :
    ∃ next, rbWrite (rb.memcpy (rb.writeIndex % rb.size).toNat (text ++ extra))
        (UInt64.ofNat text.length) = some (next, 0) ∧
      Queues next (queue ++ text) (written + text.length) ∧ next.size = rb.size := by
  obtain ⟨f, hf, rfl, rfl⟩ := h
  have hFree := hf.writableLen_toNat
  have hStored := hf.memcpy_writable (text ++ extra)
  rw [List.take_of_length_le (by rw [List.length_append]; omega)] at hStored
  have hCount : (UInt64.ofNat text.length).toNat = text.length :=
    UInt64.toNat_ofNat_of_lt' (by change _ < 2 ^ 64; omega)
  have hWrite : (f.store (text ++ extra)).write text.length =
      (⟨f.queue ++ text, extra ++ f.free.drop (text.length + extra.length),
        f.written + text.length⟩, true) := by
    have hTake : (text ++ extra).take f.free.length = text ++ extra :=
      List.take_of_length_le (by rw [List.length_append]; omega)
    unfold Fifo.write
    rw [if_pos (by rw [Fifo.store_free_length]; omega)]
    simp only [Fifo.store, hTake, List.append_assoc, List.take_left, List.drop_left,
      List.length_append]
  have hNext := hStored.write (UInt64.ofNat text.length)
  rw [hCount, hWrite] at hNext
  obtain ⟨next, hResult, hRefines⟩ := hNext hTotal
  exact ⟨next, hResult, ⟨_, hRefines, rfl, rfl⟩, (rbWrite_size hResult).trans rfl⟩

/-- Bytes that fit are appended to the queue. -/
theorem Queues.stores (h : Queues rb queue written) {bytes : Bytes}
    (hFit : bytes.length ≤ rb.writableLen.toNat) (hTotal : written + bytes.length < 2 ^ 64) :
    ∃ next, Stores rb bytes next ∧ Queues next (queue ++ bytes) (written + bytes.length) ∧
      next.size = rb.size := by
  obtain ⟨next, hWrite, hQueue, hSame⟩ := h.put (show bytes.length + ([] : Bytes).length ≤ _ from hFit) hTotal
  rw [List.append_nil] at hWrite
  exact ⟨next, ⟨_, _, h.rbWritable, hFit, hWrite⟩, hQueue, hSame⟩

theorem Queues.fillsTo (h : Queues rb queue written) {bytes : Bytes} (hne : bytes ≠ [])
    (hFit : bytes.length ≤ rb.writableLen.toNat) (hTotal : written + bytes.length < 2 ^ 64) :
    ∃ next, FillsTo rb bytes next ∧ Queues next (queue ++ bytes) (written + bytes.length) ∧
      next.size = rb.size := by
  obtain ⟨next, hStores, hNext⟩ := h.stores hFit hTotal
  exact ⟨next, ⟨hne, hStores⟩, hNext⟩

theorem FillsTo.unique {bytes : Bytes} {other : RingBuffer} (h : FillsTo rb bytes next)
    (hOther : FillsTo rb bytes other) : next = other := by
  obtain ⟨-, ptr, len, hWritable, -, hWrite⟩ := h
  obtain ⟨-, ptr', len', hWritable', -, hWrite'⟩ := hOther
  rw [hWritable] at hWritable'
  cases hWritable'
  rw [hWrite] at hWrite'
  cases hWrite'
  rfl

theorem FillsTo.fits {bytes : Bytes} (h : FillsTo rb bytes next) :
    bytes ≠ [] ∧ bytes.length ≤ rb.writableLen.toNat := by
  obtain ⟨hne, ptr, len, hWritable, hFit, -⟩ := h
  unfold rbWritable at hWritable
  split at hWritable
  · cases hWritable
    exact ⟨hne, hFit⟩
  · cases hWritable

theorem FillsTo.size {bytes : Bytes} (h : FillsTo rb bytes next) : next.size = rb.size := by
  obtain ⟨-, ptr, len, -, -, hWrite⟩ := h
  exact (rbWrite_size hWrite).trans rfl

/-- What a read from the socket leaves in the ring. -/
theorem FillsTo.eq {bytes : Bytes} (h : FillsTo rb bytes next) :
    next = { rb with
      region := storeAt rb.region rb.size.toNat rb.writeIndex.toNat bytes
      writeIndex := rb.writeIndex + UInt64.ofNat bytes.length } := by
  obtain ⟨-, ptr, len, hWritable, -, hWrite⟩ := h
  unfold RedisServer.rbWritable at hWritable
  split at hWritable
  · cases hWritable
    unfold rbWrite at hWrite
    dsimp only at hWrite
    split_ifs at hWrite
    · cases hWrite
    · have hNext := (Prod.mk.inj (Option.some.inj hWrite)).1
      rw [UInt64.toNat_mod, memcpy_mod] at hNext
      exact hNext.symm
  · cases hWritable

/-- The content of a ring that was filled. -/
theorem Queues.of_fillsTo (h : Queues rb queue written) {bytes : Bytes} (hFills : FillsTo rb bytes next) :
    written + bytes.length < 2 ^ 64 ∧ Queues next (queue ++ bytes) (written + bytes.length) ∧
      next.size = rb.size := by
  obtain ⟨hne, hFit⟩ := hFills.fits
  have hTotal : written + bytes.length < 2 ^ 64 := by
    obtain ⟨-, ptr, len, -, -, hWrite⟩ := hFills
    obtain ⟨other, hOther, hSame⟩ := h.memcpy ptr bytes
    exact (hOther.write_some hFit hWrite).1
  obtain ⟨other, hOther, hQueue, hSize⟩ := h.fillsTo hne hFit hTotal
  obtain rfl := hFills.unique hOther
  exact ⟨hTotal, hQueue, hSize⟩

/-- Two reads that nothing is taken from in between are one read. -/
theorem Queues.fillsTo_append_iff (h : Queues rb queue written) {first more : Bytes}
    (hFirst : first ≠ []) (hMore : more ≠ []) :
    (∃ filled, FillsTo rb first filled ∧ FillsTo filled more next) ↔
      FillsTo rb (first ++ more) next := by
  have hRoom := h.writableLen
  have hBoth : first ++ more ≠ [] := by simp [hFirst]
  have hSame : ∀ {filled last whole : RingBuffer}, FillsTo rb first filled →
      FillsTo filled more last → FillsTo rb (first ++ more) whole → last = whole := by
    intro filled last whole hFilled hLast hWhole
    obtain ⟨hSmall, -, -⟩ := h.of_fillsTo hWhole
    obtain ⟨hFilledSmall, -, -⟩ := h.of_fillsTo hFilled
    have hCursor := h.cursor
    have hLength : (UInt64.ofNat first.length).toNat = first.length :=
      UInt64.toNat_ofNat_of_lt' (by change _ < 2 ^ 64; omega)
    have hStart : (rb.writeIndex + UInt64.ofNat first.length).toNat =
        rb.writeIndex.toNat + first.length := by
      rw [UInt64.toNat_add, hLength, Nat.mod_eq_of_lt (by omega)]
    rw [hLast.eq, hWhole.eq, hFilled.eq]
    dsimp only
    rw [hStart, storeAt_append, List.length_append, UInt64.ofNat_add, UInt64.add_assoc]
  constructor
  · rintro ⟨filled, hFilled, hLast⟩
    obtain ⟨hSmall, hQueue, hSize⟩ := h.of_fillsTo hFilled
    obtain ⟨hTotal, -, -⟩ := hQueue.of_fillsTo hLast
    have hLeft := hQueue.writableLen
    have hFit := hLast.fits.2
    rw [hSize, List.length_append] at hLeft
    obtain ⟨whole, hWhole, -, -⟩ := h.fillsTo hBoth (by rw [List.length_append]; omega)
      (by rw [List.length_append]; omega)
    rw [hSame hFilled hLast hWhole]
    exact hWhole
  · intro hWhole
    obtain ⟨hTotal, -, -⟩ := h.of_fillsTo hWhole
    have hFit := hWhole.fits.2
    rw [List.length_append] at hFit hTotal
    obtain ⟨filled, hFilled, hQueue, hSize⟩ := h.fillsTo hFirst (by omega) (by omega)
    have hLeft := hQueue.writableLen
    rw [hSize, List.length_append] at hLeft
    obtain ⟨last, hLast, -, -⟩ := hQueue.fillsTo hMore (by omega) (by omega)
    rw [← hSame hFilled hLast hWhole]
    exact ⟨filled, hFilled, hLast⟩

/-- The range starts with exactly the queued bytes. -/
theorem Queues.shows (h : Queues rb queue written) {r : Range} (hShows : Shows rb r) :
    r.stop = queue.length ∧ r.mem.take r.stop = queue := by
  obtain ⟨f, hf, rfl, rfl⟩ := h
  obtain ⟨ptr, len, hReadable, hMem, hStop⟩ := hShows
  rw [RedisServer.rbReadable, if_pos hf.assertState] at hReadable
  cases hReadable
  have hLen := hf.readableLen_toNat
  have hLoad := hf.load_readable
  rw [hLen] at hStop
  have hFits := r.fits
  rw [hMem, load, window_length, hStop] at hFits
  refine ⟨hStop, ?_⟩
  rw [hMem, hStop, load, window_take _ _ _ _ _ hFits]
  exact hLoad

theorem Queues.exists_shows (h : Queues rb queue written) : ∃ r, Shows rb r := by
  obtain ⟨f, hf, rfl, rfl⟩ := h
  have hLen := hf.readableLen_toNat
  have hCapacity := hf.capacity_eq
  unfold Fifo.capacity at hCapacity
  have hPos := hf.size_pos
  have hPtr : (rb.readIndex % rb.size).toNat < rb.size.toNat := by
    rw [UInt64.toNat_mod]
    exact Nat.mod_lt _ hPos
  refine ⟨⟨rb.load (rb.readIndex % rb.size).toNat
    (2 * rb.size.toNat - (rb.readIndex % rb.size).toNat), rb.readableLen.toNat, ?_⟩, _, _, ?_, rfl, rfl⟩
  · rw [load, window_length]
    omega
  · rw [RedisServer.rbReadable, if_pos hf.assertState]

/-- Queued bytes can be taken out. -/
theorem Queues.rbRead (h : Queues rb queue written) {n : Nat} (hn : n ≤ queue.length) :
    ∃ next, RedisServer.rbRead rb (UInt64.ofNat n) = some (next, 0) ∧
      Queues next (queue.drop n) written ∧ next.size = rb.size := by
  obtain ⟨f, hf, rfl, rfl⟩ := h
  have hLen := hf.readableLen_toNat
  have hSmall := rb.readableLen.toNat_lt
  have hCount : (UInt64.ofNat n).toNat = n :=
    UInt64.toNat_ofNat_of_lt' (by change _ < 2 ^ 64; omega)
  obtain ⟨next, hRead, hNext⟩ := hf.read (UInt64.ofNat n)
  have hTake : f.read n = (⟨f.queue.drop n, f.free ++ f.queue.take n, f.written⟩, true) := by
    simp only [Fifo.read, hn, ↓reduceIte]
  rw [hCount, hTake] at hRead hNext
  exact ⟨next, hRead, ⟨_, hNext, rfl, rfl⟩, rbRead_size hRead⟩

/-- Whatever is asked for, the ring goes on. -/
theorem Queues.rbRead_any (h : Queues rb queue written) (n : UInt64) :
    ∃ next code rest, RedisServer.rbRead rb n = some (next, code) ∧ Queues next rest written := by
  have hLength := h.readableLen
  by_cases hn : n.toNat ≤ queue.length
  · obtain ⟨next, hRead, hNext, -⟩ := h.rbRead hn
    rw [UInt64.ofNat_toNat] at hRead
    exact ⟨next, 0, _, hRead, hNext⟩
  · obtain ⟨f, hf, hQueue, hWritten⟩ := h
    refine ⟨rb, -1, queue, ?_, f, hf, hQueue, hWritten⟩
    rw [RedisServer.rbRead, if_neg (not_not.mpr hf.assertState), if_pos]
    rw [gt_iff_lt, UInt64.lt_iff_toNat_lt]
    omega

/-- Any ring that passes its assertions is a queue. -/
theorem queues_of_assertState (h : rb.AssertState) (hSize : 0 < rb.size.toNat) :
    Queues rb (rb.load (rb.readIndex % rb.size).toNat rb.readableLen.toNat)
      rb.writeIndex.toNat := by
  obtain ⟨hOpen, hOrder, hFits⟩ := h
  have hOrder' := UInt64.le_iff_toNat_le.mp hOrder
  have hLength : rb.readableLen.toNat = rb.writeIndex.toNat - rb.readIndex.toNat :=
    UInt64.toNat_sub_of_le _ _ hOrder
  have hFits' : rb.readableLen.toNat ≤ rb.size.toNat := UInt64.le_iff_toNat_le.mp hFits
  have hQueue : (rb.load (rb.readIndex % rb.size).toNat rb.readableLen.toNat).length =
      rb.readableLen.toNat := by rw [load, window_length]
  have hRefines : Refines rb ⟨rb.load (rb.readIndex % rb.size).toNat rb.readableLen.toNat,
      window rb.region rb.size.toNat rb.writeIndex.toNat
        (rb.size.toNat - rb.readableLen.toNat), rb.writeIndex.toNat⟩ := by
    refine ⟨hOpen, hSize, rfl, ?_, ?_, ?_, ?_⟩
    · rw [hQueue]
      change _ = rb.writeIndex.toNat
      omega
    · rw [Fifo.capacity, hQueue, window_length]
      omega
    · rw [hQueue, load, UInt64.toNat_mod, window_mod]
    · rw [window_length]
  exact ⟨_, hRefines, rfl, rfl⟩

theorem queues_create {pageSize size : UInt64} {fd : Int} {mapped : Bool}
    (hCreate : rbCreate pageSize size fd mapped = some rb) (hSize : 0 < size) : Queues rb [] 0 :=
  ⟨_, (refines_emptyFifo hCreate hSize).1, rfl, rfl⟩

/-- The rings of a client that connects, on a system that has pages of 4096
bytes. -/
theorem rbCreate_client : rbCreate 4096 65536 3 true = some ⟨0, 0, fun _ => 0, 65536, 3⟩ := rfl

theorem queues_client : Queues ⟨0, 0, fun _ => 0, 65536, 3⟩ [] 0 :=
  queues_create rbCreate_client (by decide)

end Queue

end RingBuffer

/-- The fields of a client that its input goes through. -/
structure Connection (ρ : Type) where
  inputBuffer : RingBuffer
  parser : Parser
  handler : CommandHandler ρ

section Connections

variable {ρ : Type}

/-- A connection as the server sets it up, over a ring it has created. -/
def connect (rb : RingBuffer) (client : Client ρ) : Connection ρ :=
  ⟨rb, parserInit, createCommandHandler client 256 10⟩

/-- One iteration of `process_client_input` that received these bytes: `filled`
is the ring before, and `last` the state in which `parser_parse` returned. A
position that is not one of the range makes `rb_read` refuse. -/
structure Receives (cmds : Commands ρ) (c : Connection ρ) (bytes : Bytes) (filled : RingBuffer)
    (r : Range) (last : ParserRun (CommandHandler ρ)) (next : Connection ρ) : Prop where
  fills : c.inputBuffer.FillsTo bytes filled
  shows : filled.Shows r
  parses : ParserParse (createHandler cmds) r c.parser c.handler last
  consumes : ∃ code, rbRead filled (UInt64.ofNat (toSize last.begin)) = some (next.inputBuffer, code)
  parser : next.parser = last.parser
  handler : next.handler = last.handler

theorem Receives.stop_lt {cmds : Commands ρ} {c next : Connection ρ} {bytes : Bytes}
    {filled : RingBuffer} {r : Range} {last : ParserRun (CommandHandler ρ)}
    (h : Receives cmds c bytes filled r last next) : r.stop < 2 ^ 64 := by
  obtain ⟨ptr, len, -, -, hStop⟩ := h.shows
  rw [hStop]
  exact len.toNat_lt

/-- The reads of a client, one after the other. -/
inductive Session (cmds : Commands ρ) : Connection ρ → List Bytes → Connection ρ → Prop where
  | nil (c : Connection ρ) : Session cmds c [] c
  | snoc {c middle next : Connection ρ} {reads : List Bytes} {bytes : Bytes} {filled : RingBuffer}
      {r : Range} {last : ParserRun (CommandHandler ρ)} (hBefore : Session cmds c reads middle)
      (hRead : Receives cmds middle bytes filled r last next) :
      Session cmds c (reads ++ [bytes]) next

theorem Session.eq_of_nil {cmds : Commands ρ} {c next : Connection ρ}
    (h : Session cmds c [] next) : next = c := by
  generalize hReads : ([] : List Bytes) = reads at h
  cases h with
  | nil => rfl
  | snoc => simp at hReads

/-- The last read of a session. -/
theorem session_snoc_iff {cmds : Commands ρ} {c next : Connection ρ} {reads : List Bytes}
    {bytes : Bytes} : Session cmds c (reads ++ [bytes]) next ↔
      ∃ middle filled r last, Session cmds c reads middle ∧
        Receives cmds middle bytes filled r last next := by
  constructor
  · intro h
    generalize hReads : reads ++ [bytes] = all at h
    cases h with
    | nil => simp at hReads
    | @snoc middle _ _ _ filled r last hBefore hRead =>
        obtain ⟨rfl, hBytes⟩ := List.append_inj' hReads rfl
        obtain rfl := List.singleton_inj.mp hBytes
        exact ⟨middle, filled, r, last, hBefore, hRead⟩
  · rintro ⟨middle, filled, r, last, hBefore, hRead⟩
    exact .snoc hBefore hRead

theorem session_single_iff {cmds : Commands ρ} {c next : Connection ρ} {bytes : Bytes} :
    Session cmds c [bytes] next ↔ ∃ filled r last, Receives cmds c bytes filled r last next := by
  rw [← List.nil_append [bytes], session_snoc_iff]
  constructor
  · rintro ⟨middle, filled, r, last, hBefore, hRead⟩
    obtain rfl := hBefore.eq_of_nil
    exact ⟨filled, r, last, hRead⟩
  · rintro ⟨filled, r, last, hRead⟩
    exact ⟨c, filled, r, last, .nil c, hRead⟩

/-- A read that fits, on which the parser returns a position of its range, is
an iteration that leaves the rest of the bytes in the ring. -/
theorem exists_receives (cmds : Commands ρ) {c : Connection ρ} {q bytes : Bytes} {written : Nat}
    (hQueue : c.inputBuffer.Queues q written) (hne : bytes ≠ [])
    (hFit : bytes.length ≤ c.inputBuffer.writableLen.toNat)
    (hTotal : written + bytes.length < 2 ^ 64) {P : Range → ParserRun (CommandHandler ρ) → Prop}
    (hParse : ∀ r : Range, r.stop = (q ++ bytes).length → r.mem.take r.stop = q ++ bytes →
      ∃ last, ParserParse (createHandler cmds) r c.parser c.handler last ∧ 0 ≤ last.begin ∧
        last.begin ≤ r.stop ∧ P r last) :
    ∃ filled r last ring, Receives cmds c bytes filled r last ⟨ring, last.parser, last.handler⟩ ∧
      r.stop = (q ++ bytes).length ∧ P r last ∧
      ring.Queues ((q ++ bytes).drop last.begin.toNat) (written + bytes.length) ∧
      ring.size = c.inputBuffer.size := by
  obtain ⟨filled, hFills, hFilled, hKeep⟩ := hQueue.fillsTo hne hFit hTotal
  obtain ⟨r, hShows⟩ := hFilled.exists_shows
  obtain ⟨hStop, hMem⟩ := hFilled.shows hShows
  obtain ⟨last, hEnds, hLow, hHigh, hP⟩ := hParse r hStop hMem
  have hSize : toSize last.begin = last.begin.toNat := by
    have hSmall : filled.size.toNat < 2 ^ 64 := filled.size.toNat_lt
    have hRoom := hFilled.writableLen
    exact toSize_of_nonneg hLow (by omega)
  obtain ⟨ring, hRead, hLeft, hSame⟩ := hFilled.rbRead (n := last.begin.toNat) (by omega)
  exact ⟨filled, r, last, ring,
    ⟨hFills, hShows, hEnds, ⟨0, by rw [hSize]; exact hRead⟩, rfl, rfl⟩, hStop, hP, hLeft,
    hSame.trans hKeep⟩

end Connections

end RedisServer
