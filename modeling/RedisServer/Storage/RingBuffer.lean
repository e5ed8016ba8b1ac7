import RedisServer.Machine.Circular
import RedisServer.Machine.Run
import Mathlib.Algebra.Order.Ring.Nat

/-! The byte ring of `ring_buffer.c` and its refinement of a bounded queue.
The two cursors are the `uint64_t` counters of the source, which are never
reduced; the double mapping appears only in how a position of the region is
turned into a byte of the shared memory object. -/
namespace RedisServer

open Machine

/-- `region` lists the bytes of the shared memory object. It is mapped twice
in a row, so position `i` of the mapped region, for `i < 2 * size`, is byte
`i % size` of the object. -/
structure RingBuffer where
  readIndex : UInt64
  writeIndex : UInt64
  region : Nat → UInt8
  size : UInt64
  fd : Int

namespace RingBuffer

/-- The state assertions. The two pointers of the source are not null by
construction here. -/
def AssertState (rb : RingBuffer) : Prop :=
  rb.fd ≠ -1 ∧ rb.readIndex ≤ rb.writeIndex ∧ rb.writeIndex - rb.readIndex ≤ rb.size

instance (rb : RingBuffer) : Decidable rb.AssertState :=
  inferInstanceAs (Decidable (_ ∧ _ ∧ _))

def readableLen (rb : RingBuffer) : UInt64 := rb.writeIndex - rb.readIndex

def writableLen (rb : RingBuffer) : UInt64 := rb.size - rb.readableLen

end RingBuffer

open RingBuffer

/-- `fd` is what `shm_open` returned and `mapped` says that unlinking, sizing
and mapping the object all succeeded. A fresh object is filled with zeros. -/
def rbCreate (pageSize size : UInt64) (fd : Int) (mapped : Bool) : Option RingBuffer :=
  if size % pageSize ≠ 0 then none
  else if fd = -1 then none
  else if !mapped then none
  else
    let rb : RingBuffer := ⟨0, 0, fun _ => 0, size, fd⟩
    if rb.AssertState then some rb else none

/-- A pointer into the region is its offset from the start of the region. A
failed assertion aborts the process, which is the result `none`. -/
def rbReadable (rb : RingBuffer) : Option (Nat × UInt64) :=
  if rb.AssertState then some ((rb.readIndex % rb.size).toNat, rb.readableLen) else none

def rbWritable (rb : RingBuffer) : Option (Nat × UInt64) :=
  if rb.AssertState then some ((rb.writeIndex % rb.size).toNat, rb.writableLen) else none

def rbRead (rb : RingBuffer) (len : UInt64) : Option (RingBuffer × Int) :=
  if ¬rb.AssertState then none
  else if len > rb.readableLen then some (rb, -1)
  else
    let advanced := { rb with readIndex := rb.readIndex + len }
    if advanced.AssertState then some (advanced, 0) else none

def rbWrite (rb : RingBuffer) (len : UInt64) : Option (RingBuffer × Int) :=
  if ¬rb.AssertState then none
  else if len > rb.writableLen then some (rb, -1)
  else
    let advanced := { rb with writeIndex := rb.writeIndex + len }
    if advanced.AssertState then some (advanced, 0) else none

/-- No operation changes the size. -/
theorem rbCreate_size {pageSize size : UInt64} {fd : Int} {mapped : Bool} {rb : RingBuffer}
    (h : rbCreate pageSize size fd mapped = some rb) : rb.size = size := by
  unfold rbCreate at h
  dsimp only at h
  split_ifs at h
  cases h
  rfl

theorem rbRead_size {rb next : RingBuffer} {len : UInt64} {code : Int}
    (h : rbRead rb len = some (next, code)) : next.size = rb.size := by
  unfold rbRead at h
  dsimp only at h
  split_ifs at h <;> cases h <;> rfl

theorem rbWrite_size {rb next : RingBuffer} {len : UInt64} {code : Int}
    (h : rbWrite rb len = some (next, code)) : next.size = rb.size := by
  unfold rbWrite at h
  dsimp only at h
  split_ifs at h <;> cases h <;> rfl

namespace RingBuffer

/-- The bytes a caller finds at offset `ptr` of the region. -/
def load (rb : RingBuffer) (ptr len : Nat) : List UInt8 :=
  window rb.region rb.size.toNat ptr len

/-- A caller's `memcpy` or `read` into the region at offset `ptr`. -/
def memcpy (rb : RingBuffer) (ptr : Nat) (bytes : List UInt8) : RingBuffer :=
  { rb with region := storeAt rb.region rb.size.toNat ptr bytes }

/-- One use of the ring. A producer stores at most as many bytes as it was
offered and then asks for any amount to be queued, a consumer looks at the
readable bytes and then asks for any amount to be dropped. -/
inductive Action where
  | produce (bytes : List UInt8) (n : UInt64)
  | consume (m : UInt64)

/-- What the caller of one use gets to see. -/
inductive Outcome where
  | aborted
  | produced (len : UInt64) (code : Int)
  | consumed (bytes : List UInt8) (code : Int)
  deriving DecidableEq

/-- The state is `none` after a failed assertion. -/
def step : Option RingBuffer → Action → Option RingBuffer × Outcome
  | none, _ => (none, .aborted)
  | some rb, .produce bytes n =>
      match rbWritable rb with
      | none => (none, .aborted)
      | some (ptr, len) =>
          match rbWrite (rb.memcpy ptr (bytes.take len.toNat)) n with
          | none => (none, .aborted)
          | some (next, code) => (some next, .produced len code)
  | some rb, .consume m =>
      match rbReadable rb with
      | none => (none, .aborted)
      | some (ptr, len) =>
          match rbRead rb m with
          | none => (none, .aborted)
          | some (next, code) => (some next, .consumed (rb.load ptr len.toNat) code)

/-- The same use of the bounded queue. -/
def fifoStep (f : Fifo UInt8) : Action → Fifo UInt8 × Outcome
  | .produce bytes n =>
      let result := (f.store bytes).write n.toNat
      (result.1, .produced (UInt64.ofNat f.free.length) (if result.2 then 0 else -1))
  | .consume m =>
      let result := f.read m.toNat
      (result.1, .consumed f.queue (if result.2 then 0 else -1))

/-- An empty queue over `size` zero bytes. -/
def emptyFifo (size : UInt64) : Fifo UInt8 := ⟨[], List.replicate size.toNat 0, 0⟩

/-- The ring shows the queue at its read cursor and the free cells at its
write cursor. The write cursor counts all bytes ever queued, so the equation
for it also excludes a wrapped counter. -/
structure Refines (rb : RingBuffer) (f : Fifo UInt8) : Prop where
  open_fd : rb.fd ≠ -1
  size_pos : 0 < rb.size.toNat
  write_eq : rb.writeIndex.toNat = f.written
  read_eq : rb.readIndex.toNat + f.queue.length = f.written
  capacity_eq : f.capacity = rb.size.toNat
  queue_eq : f.queue = window rb.region rb.size.toNat rb.readIndex.toNat f.queue.length
  free_eq : f.free = window rb.region rb.size.toNat rb.writeIndex.toNat f.free.length

namespace Refines

variable {rb : RingBuffer} {f : Fifo UInt8}

theorem readableLen_toNat (h : Refines rb f) : rb.readableLen.toNat = f.queue.length := by
  have hr := h.read_eq
  have hw := h.write_eq
  have hle : rb.readIndex ≤ rb.writeIndex := by rw [UInt64.le_iff_toNat_le]; omega
  rw [readableLen, UInt64.toNat_sub_of_le _ _ hle]
  omega

theorem readableLen_le (h : Refines rb f) : rb.readableLen ≤ rb.size := by
  have hc := h.capacity_eq
  rw [UInt64.le_iff_toNat_le, h.readableLen_toNat]
  unfold Fifo.capacity at hc
  omega

theorem writableLen_toNat (h : Refines rb f) : rb.writableLen.toNat = f.free.length := by
  have hc := h.capacity_eq
  rw [writableLen, UInt64.toNat_sub_of_le _ _ h.readableLen_le, h.readableLen_toNat]
  unfold Fifo.capacity at hc
  omega

theorem assertState (h : Refines rb f) : rb.AssertState := by
  refine ⟨h.open_fd, ?_, h.readableLen_le⟩
  have hr := h.read_eq
  have hw := h.write_eq
  rw [UInt64.le_iff_toNat_le]
  omega

/-- What a consumer finds at `rb_readable`'s pointer. -/
theorem load_readable (h : Refines rb f) :
    rb.load (rb.readIndex % rb.size).toNat f.queue.length = f.queue := by
  rw [load, UInt64.toNat_mod, window_mod]
  exact h.queue_eq.symm

/-- Storing into the offered bytes changes free cells only. -/
theorem memcpy_writable (h : Refines rb f) (bytes : List UInt8) :
    Refines (rb.memcpy (rb.writeIndex % rb.size).toNat (bytes.take f.free.length))
      (f.store bytes) := by
  have hc := h.capacity_eq
  unfold Fifo.capacity at hc
  have hr := h.read_eq
  have hw := h.write_eq
  have hTake : (bytes.take f.free.length).length ≤ f.free.length := List.length_take_le _ _
  have hRegion : (rb.memcpy (rb.writeIndex % rb.size).toNat (bytes.take f.free.length)).region =
      storeAt rb.region rb.size.toNat rb.writeIndex.toNat (bytes.take f.free.length) := by
    simp only [memcpy, UInt64.toNat_mod, storeAt_mod]
  refine ⟨h.open_fd, h.size_pos, h.write_eq, h.read_eq, ?_, ?_, ?_⟩
  · simp only [Fifo.capacity, Fifo.store_queue, Fifo.store_free_length]
    exact hc
  · rw [hRegion, Fifo.store_queue]
    have hStart : rb.writeIndex.toNat = rb.readIndex.toNat + f.queue.length + 0 := by omega
    change f.queue = window _ rb.size.toNat rb.readIndex.toNat _
    rw [hStart, window_storeAt_before _ _ _ _ _ _ (by omega)]
    exact h.queue_eq
  · rw [hRegion, Fifo.store_free_length]
    change _ = window _ rb.size.toNat rb.writeIndex.toNat _
    rw [window_storeAt_self _ _ _ _ _ hTake (by omega), ← h.free_eq, Fifo.store]
    simp only [List.length_take]
    congr 1
    rcases Nat.le_total bytes.length f.free.length with hle | hle
    · rw [Nat.min_eq_right hle]
    · rw [Nat.min_eq_left hle, List.drop_of_length_le hle, List.drop_of_length_le (Nat.le_refl _)]

/-- Queueing `n` offered bytes, for a total that a 64-bit counter can hold. -/
theorem write (h : Refines rb f) (n : UInt64) (hTotal : (f.write n.toNat).1.written < 2 ^ 64) :
    ∃ next, rbWrite rb n = some (next, if (f.write n.toNat).2 then 0 else -1) ∧
      Refines next (f.write n.toNat).1 := by
  have hLen := h.writableLen_toNat
  have hGuard : n > rb.writableLen ↔ ¬n.toNat ≤ f.free.length := by
    rw [gt_iff_lt, UInt64.lt_iff_toNat_lt, hLen, Nat.not_le]
  unfold rbWrite
  rw [if_neg (not_not.mpr h.assertState)]
  by_cases hn : n.toNat ≤ f.free.length
  · have hWrite : f.write n.toNat =
        (⟨f.queue ++ f.free.take n.toNat, f.free.drop n.toNat, f.written + n.toNat⟩, true) := by
      simp only [Fifo.write, hn, ↓reduceIte]
    rw [hWrite] at hTotal ⊢
    rw [if_neg (mt hGuard.mp (not_not.mpr hn))]
    have hc := h.capacity_eq
    unfold Fifo.capacity at hc
    have hr := h.read_eq
    have hw := h.write_eq
    have hIndex : (rb.writeIndex + n).toNat = f.written + n.toNat := by
      rw [UInt64.toNat_add, hw]
      exact Nat.mod_eq_of_lt hTotal
    have hNext : Refines { rb with writeIndex := rb.writeIndex + n }
        ⟨f.queue ++ f.free.take n.toNat, f.free.drop n.toNat, f.written + n.toNat⟩ := by
      refine ⟨h.open_fd, h.size_pos, hIndex, ?_, ?_, ?_, ?_⟩
      · simp only [List.length_append, List.length_take]
        omega
      · simp only [Fifo.capacity, List.length_append, List.length_take, List.length_drop]
        omega
      · have hSum : rb.readIndex.toNat + f.queue.length = rb.writeIndex.toNat := by omega
        simp only [List.length_append, List.length_take, Nat.min_eq_left hn]
        rw [window_add, hSum, ← h.queue_eq]
        congr 1
        rw [← window_take _ _ _ _ _ hn, ← h.free_eq]
      · simp only [List.length_drop]
        rw [hIndex, ← hw, ← window_drop _ _ _ _ _ hn, ← h.free_eq]
    simp only [hNext.assertState, ↓reduceIte]
    exact ⟨_, rfl, hNext⟩
  · have hWrite : f.write n.toNat = (f, false) := by simp only [Fifo.write, hn, ↓reduceIte]
    rw [hWrite, if_pos (hGuard.mpr hn)]
    exact ⟨rb, rfl, h⟩

/-- Dropping `m` queued bytes. Their cells follow the other free ones because
the end of the free cells is the read cursor one turn later. -/
theorem read (h : Refines rb f) (m : UInt64) :
    ∃ next, rbRead rb m = some (next, if (f.read m.toNat).2 then 0 else -1) ∧
      Refines next (f.read m.toNat).1 := by
  have hLen := h.readableLen_toNat
  have hGuard : m > rb.readableLen ↔ ¬m.toNat ≤ f.queue.length := by
    rw [gt_iff_lt, UInt64.lt_iff_toNat_lt, hLen, Nat.not_le]
  unfold rbRead
  rw [if_neg (not_not.mpr h.assertState)]
  by_cases hm : m.toNat ≤ f.queue.length
  · have hRead : f.read m.toNat =
        (⟨f.queue.drop m.toNat, f.free ++ f.queue.take m.toNat, f.written⟩, true) := by
      simp only [Fifo.read, hm, ↓reduceIte]
    rw [hRead, if_neg (mt hGuard.mp (not_not.mpr hm))]
    have hc := h.capacity_eq
    unfold Fifo.capacity at hc
    have hr := h.read_eq
    have hw := h.write_eq
    have hIndex : (rb.readIndex + m).toNat = rb.readIndex.toNat + m.toNat := by
      rw [UInt64.toNat_add]
      have := rb.writeIndex.toNat_lt
      exact Nat.mod_eq_of_lt (by omega)
    have hNext : Refines { rb with readIndex := rb.readIndex + m }
        ⟨f.queue.drop m.toNat, f.free ++ f.queue.take m.toNat, f.written⟩ := by
      refine ⟨h.open_fd, h.size_pos, hw, ?_, ?_, ?_, ?_⟩
      · simp only [List.length_drop]
        omega
      · simp only [Fifo.capacity, List.length_append, List.length_take, List.length_drop]
        omega
      · simp only [List.length_drop]
        rw [hIndex, ← window_drop _ _ _ _ _ hm, ← h.queue_eq]
      · have hTurn : rb.writeIndex.toNat + f.free.length = rb.readIndex.toNat + rb.size.toNat := by
          omega
        simp only [List.length_append, List.length_take, Nat.min_eq_left hm]
        rw [window_add, ← h.free_eq, hTurn, window_add_size]
        congr 1
        rw [← window_take _ _ _ _ _ hm, ← h.queue_eq]
    simp only [hNext.assertState, ↓reduceIte]
    exact ⟨_, rfl, hNext⟩
  · have hRead : f.read m.toNat = (f, false) := by simp only [Fifo.read, hm, ↓reduceIte]
    rw [hRead, if_pos (hGuard.mpr hm)]
    exact ⟨rb, rfl, h⟩

end Refines

theorem refines_emptyFifo {pageSize size : UInt64} {fd : Int} {mapped : Bool} {rb : RingBuffer}
    (hCreate : rbCreate pageSize size fd mapped = some rb) (hSize : 0 < size) :
    Refines rb (emptyFifo size) ∧ (emptyFifo size).capacity = size.toNat := by
  have hSize : 0 < size.toNat := by simpa [UInt64.lt_iff_toNat_lt] using hSize
  unfold rbCreate at hCreate
  split at hCreate
  · cases hCreate
  split at hCreate
  · cases hCreate
  rename_i hfd
  split at hCreate
  · cases hCreate
  dsimp only at hCreate
  split at hCreate
  · obtain rfl := Option.some.inj hCreate
    have hCapacity : (emptyFifo size).capacity = size.toNat := by simp [Fifo.capacity, emptyFifo]
    refine ⟨⟨hfd, hSize, rfl, rfl, hCapacity, rfl, ?_⟩, hCapacity⟩
    simp [emptyFifo, window, List.map_const']
  · cases hCreate

/-- One use of a ring that refines a queue does to the ring what it does to
the queue, and no assertion fails. -/
theorem Refines.step {rb : RingBuffer} {f : Fifo UInt8} (h : Refines rb f) (a : Action)
    (hTotal : (fifoStep f a).1.written < 2 ^ 64) :
    ∃ next, RingBuffer.step (some rb) a = (some next, (fifoStep f a).2) ∧
      Refines next (fifoStep f a).1 := by
  cases a with
  | produce bytes n =>
      have hStored := h.memcpy_writable bytes
      obtain ⟨next, hWrite, hNext⟩ := hStored.write n hTotal
      have hLen : UInt64.ofNat f.free.length = rb.writableLen := by
        rw [← h.writableLen_toNat, UInt64.ofNat_toNat]
      refine ⟨next, ?_, hNext⟩
      simp only [RingBuffer.step, rbWritable, h.assertState, ↓reduceIte, h.writableLen_toNat,
        hWrite, fifoStep, hLen]
  | consume m =>
      obtain ⟨next, hRead, hNext⟩ := h.read m
      refine ⟨next, ?_, hNext⟩
      simp only [RingBuffer.step, rbReadable, h.assertState, ↓reduceIte, h.readableLen_toNat,
        hRead, fifoStep, h.load_readable]

theorem written_le_fifoStep (f : Fifo UInt8) (a : Action) : f.written ≤ (fifoStep f a).1.written := by
  cases a with
  | produce bytes n => exact (f.store bytes).le_write_written n.toNat
  | consume m => exact Nat.le_of_eq (f.read_written m.toNat).symm

theorem fifoStep_capacity (f : Fifo UInt8) (a : Action) : (fifoStep f a).1.capacity = f.capacity := by
  cases a with
  | produce bytes n => simp [fifoStep]
  | consume m => simp [fifoStep]

/-- No assertion has failed and the ring refines the queue at this capacity. -/
def Tracks (size : UInt64) (o : Option RingBuffer) (f : Fifo UInt8) : Prop :=
  ∃ rb, o = some rb ∧ Refines rb f ∧ f.capacity = size.toNat

theorem Tracks.step {size : UInt64} (o : Option RingBuffer) (f : Fifo UInt8) (a : Action)
    (h : Tracks size o f) (hTotal : (fifoStep f a).1.written < 2 ^ 64) :
    Tracks size (RingBuffer.step o a).1 (fifoStep f a).1 ∧
      (RingBuffer.step o a).2 = (fifoStep f a).2 := by
  obtain ⟨rb, rfl, hRefines, hKept⟩ := h
  obtain ⟨next, hNext, hRefines⟩ := hRefines.step a hTotal
  rw [hNext]
  exact ⟨⟨next, rfl, hRefines, (fifoStep_capacity f a).trans hKept⟩, rfl⟩

/-- Since the total only grows, a bound on it at the end of the run is a bound
at every step. -/
theorem allSteps_written (f : Fifo UInt8) (actions : List Action)
    (h : (run fifoStep f actions).1.written < 2 ^ 64) :
    AllSteps fifoStep (fun f a => (fifoStep f a).1.written < 2 ^ 64) f actions ∧
      f.written < 2 ^ 64 := by
  induction actions generalizing f with
  | nil => exact ⟨trivial, h⟩
  | cons a actions ih =>
      obtain ⟨hRest, hNext⟩ := ih _ h
      exact ⟨⟨hNext, hRest⟩, Nat.lt_of_le_of_lt (written_le_fifoStep f a) hNext⟩

/-- The free cells and the queued bytes are different bytes of the object. -/
theorem Refines.disjoint {rb : RingBuffer} {f : Fifo UInt8} (h : Refines rb f) (i j : Nat)
    (hi : i < f.queue.length) (hj : j < f.free.length) :
    ((rb.readIndex % rb.size).toNat + i) % rb.size.toNat ≠
      ((rb.writeIndex % rb.size).toNat + j) % rb.size.toNat := by
  have hc := h.capacity_eq
  unfold Fifo.capacity at hc
  have hr := h.read_eq
  have hw := h.write_eq
  rw [UInt64.toNat_mod, UInt64.toNat_mod, Nat.mod_add_mod, Nat.mod_add_mod]
  exact mod_ne_of_lt_of_sub_lt (by omega) (by omega)

/-- Every run of uses from a fresh ring returns what the bounded queue
returns, fails no assertion, and ends with the queue readable at the read
pointer. The bytes offered to a producer are as many as the queue has free
cells and none of them is a queued one. -/
theorem ring_refines_bounded_fifo (pageSize size : UInt64) (fd : Int) (mapped : Bool)
    (rb : RingBuffer) (hCreate : rbCreate pageSize size fd mapped = some rb) (hSize : 0 < size)
    (actions : List Action)
    (hTotal : (run fifoStep (emptyFifo size) actions).1.written < 2 ^ 64) :
    let f := (run fifoStep (emptyFifo size) actions).1
    (run step (some rb) actions).2 = (run fifoStep (emptyFifo size) actions).2 ∧
    ∃ last, (run step (some rb) actions).1 = some last ∧ last.AssertState ∧
      last.writeIndex.toNat = f.written ∧
      last.readIndex.toNat + f.queue.length = f.written ∧
      ∃ readPtr readLen writePtr writeLen,
        rbReadable last = some (readPtr, readLen) ∧ rbWritable last = some (writePtr, writeLen) ∧
        readLen.toNat = f.queue.length ∧ writeLen.toNat = size.toNat - f.queue.length ∧
        last.load readPtr readLen.toNat = f.queue ∧
        ∀ i < readLen.toNat, ∀ j < writeLen.toNat,
          (readPtr + i) % size.toNat ≠ (writePtr + j) % size.toNat := by
  obtain ⟨hStart, hCapacity⟩ := refines_emptyFifo hCreate hSize
  have hTracks : Tracks size (some rb) (emptyFifo size) := ⟨rb, rfl, hStart, hCapacity⟩
  obtain ⟨⟨last, hLast, h, hKept⟩, hResults⟩ :=
    run_simulation Tracks.step hTracks (allSteps_written _ _ hTotal).1
  have hSize : last.size.toNat = size.toNat := h.capacity_eq.symm.trans hKept
  refine ⟨hResults, last, hLast, h.assertState, h.write_eq, h.read_eq,
    (last.readIndex % last.size).toNat, last.readableLen,
    (last.writeIndex % last.size).toNat, last.writableLen, ?_, ?_, h.readableLen_toNat, ?_, ?_, ?_⟩
  · simp only [rbReadable, h.assertState, ↓reduceIte]
  · simp only [rbWritable, h.assertState, ↓reduceIte]
  · rw [h.writableLen_toNat, ← hKept, Fifo.capacity]
    omega
  · rw [h.readableLen_toNat]
    exact h.load_readable
  · intro i hi j hj
    rw [← hSize]
    exact h.disjoint i j (h.readableLen_toNat ▸ hi) (h.writableLen_toNat ▸ hj)

/-- A page-sized ring, a producer that queues more than it stored, and a
consumer that first asks for too much. -/
theorem ring_refines_bounded_fifo_page :
    ∃ rb, rbCreate 4096 4096 3 true = some rb ∧
      (run step (some rb) [.produce [1, 2, 3] 4, .consume 5, .consume 2]).2 =
        [.produced 4096 0, .consumed [1, 2, 3, 0] (-1), .consumed [1, 2, 3, 0] 0] := by
  have hCreate : rbCreate 4096 4096 3 true = some ⟨0, 0, fun _ => 0, 4096, 3⟩ := by rfl
  refine ⟨_, hCreate, ?_⟩
  rw [(ring_refines_bounded_fifo 4096 4096 3 true _ hCreate (by decide)
    [.produce [1, 2, 3] 4, .consume 5, .consume 2] (by decide +kernel)).1]
  decide +kernel

end RingBuffer

end RedisServer
