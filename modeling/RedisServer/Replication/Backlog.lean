import RedisServer.Replication.Propagation
import RedisServer.Commands.Handlers

/-! The replication backlog of a master: a ring with the latest bytes of the
stream that goes to the replicas. Two counters say which bytes these are, and
a replica that asks for a partial resynchronisation is served from a slice that
is computed from them. -/
namespace RedisServer

open Machine

/-- The part of `process_client_input` that keeps the backlog, for a read with
as many parsed bytes as are copied. On the overwrite path the codes of its
`rb_read` and its `rb_write` are reported. The result is `none` after a failed
assertion. -/
def updateBacklog (info : ServerInfo) (copied : Bytes) :
    Option (ServerInfo × Option (Int × Int)) := do
  let info := { info with masterReplOffset := toInt64 (info.masterReplOffset + copied.length) }
  let (ptr, len) ← rbWritable info.replBacklog
  if copied.length ≤ len.toNat then
    let (backlog, _) ← rbWrite (info.replBacklog.memcpy ptr copied) (UInt64.ofNat copied.length)
    some ({ info with replBacklog := backlog }, none)
  else
    let bytesToOverwrite := copied.length - len.toNat
    let (shorter, readCode) ← rbRead info.replBacklog (UInt64.ofNat bytesToOverwrite)
    let (backlog, writeCode) ← rbWrite (shorter.memcpy ptr copied) (UInt64.ofNat copied.length)
    some ({ info with
      replBacklog := backlog
      replBacklogBaseOffset := toInt64 (info.replBacklogBaseOffset + bytesToOverwrite) },
      some (readCode, writeCode))

/-- What `continue_psync` decides to do. -/
inductive PsyncChoice where
  | caughtUp
  | ahead
  | nothing
  | outside
  | copies (relativeOffset bytesToSend : Nat)
  deriving DecidableEq

/-- `continue_psync` up to its copy, for a replica at this offset. A replica
that is ahead is disconnected without a return, which is harmless because there
is nothing to send to it then. -/
def continuePsync (info : ServerInfo) (replicaOffset : Int) : Option PsyncChoice :=
  if replicaOffset = info.masterReplOffset then some .caughtUp
  else
    let bytesToSend := toInt64 (info.masterReplOffset - replicaOffset)
    if bytesToSend ≤ 0 then
      some (if info.masterReplOffset ≤ replicaOffset then .ahead else .nothing)
    else if info.masterReplOffset ≤ replicaOffset then none
    else do
      let (_, len) ← rbReadable info.replBacklog
      if (len.toNat : Int) < bytesToSend then some .outside
      else
        some (.copies (toSize (replicaOffset - info.replBacklogBaseOffset)) bytesToSend.toNat)

/-- A master with the offsets of the replicas that it serves from the backlog. -/
structure Master where
  info : ServerInfo
  replOffset : Nat → Option Int

/-- What happens on a master: the parsed bytes of a read are propagated, a
client asks for its synchronisation, or a replica's socket is ready. `flushed`
is what `flush_client_output` returns there. -/
inductive MasterEvent where
  | propagate (copied : Bytes)
  | psync (client : Nat) (replid offsetStr : Bytes)
  | epollout (client : Nat) (flushed : UInt64)

/-- The process goes on, or it has left by the `exit` of the overwrite path or
by a failed assertion. -/
inductive MasterProcess where
  | running (m : Master)
  | exited
  | aborted

namespace Master

def psync (m : Master) (client : Nat) (replid offsetStr : Bytes) : Master :=
  { m with
    replOffset := Function.update m.replOffset client
      (if PartialResync m.info.masterReplOffset m.info.replBacklogBaseOffset
          (cString replid) (cString offsetStr) then
        some (strtol (cString offsetStr)).value
      else none) }

/-- The replica after its `continue_psync`: it has caught up or is gone, or what
its socket took is counted. -/
def served (m : Master) (client : Nat) (offset : Int) (flushed : UInt64) : PsyncChoice → Master
  | .copies _ _ =>
      { m with
        replOffset := Function.update m.replOffset client
          (some (if 0 < flushed then toInt64 (offset + flushed.toNat) else offset)) }
  | .nothing => m
  | _ => { m with replOffset := Function.update m.replOffset client none }

end Master

def MasterProcess.step : MasterProcess → MasterEvent → MasterProcess × Unit
  | .running m, .propagate copied =>
      match updateBacklog m.info copied with
      | none => (.aborted, ())
      | some (info, codes) =>
          if (codes.map Prod.snd).getD 0 ≠ 0 then (.exited, ())
          else (.running { m with info := info }, ())
  | .running m, .psync client replid offsetStr => (.running (m.psync client replid offsetStr), ())
  | .running m, .epollout client flushed =>
      match m.replOffset client with
      | none => (.running m, ())
      | some offset =>
          match continuePsync m.info offset with
          | none => (.aborted, ())
          | some choice => (.running (m.served client offset flushed choice), ())
  | other, _ => (other, ())

/-- The server as it starts, with a fresh backlog. -/
def MasterProcess.start (backlog : RingBuffer) : MasterProcess :=
  .running ⟨⟨0, backlog, 0, []⟩, fun _ => none⟩

def MasterEvent.bytes : MasterEvent → Nat
  | .propagate copied => copied.length
  | _ => 0

/-- The readable length of the backlog is the distance of the two offsets. -/
def BacklogWindow (info : ServerInfo) : Prop :=
  ∃ ptr len, rbReadable info.replBacklog = some (ptr, len) ∧
    (len.toNat : Int) = info.masterReplOffset - info.replBacklogBaseOffset ∧
    0 ≤ info.replBacklogBaseOffset ∧ info.replBacklogBaseOffset ≤ info.masterReplOffset ∧
    len.toNat ≤ 1048576

def MasterProcess.InWindow : MasterProcess → Prop
  | .running m => BacklogWindow m.info
  | _ => False

/-- The calls of the overwrite path succeed, and a slice that is copied starts
inside the readable bytes and stops where they do. -/
def MasterProcess.Sound : MasterProcess → MasterEvent → Prop
  | .running m, .propagate copied =>
      ∃ next codes, updateBacklog m.info copied = some (next, codes) ∧ ∀ c ∈ codes, c = (0, 0)
  | .running m, .epollout client _ =>
      ∀ offset relative n, m.replOffset client = some offset →
        continuePsync m.info offset = some (.copies relative n) →
        (relative : Int) = offset - m.info.replBacklogBaseOffset ∧ 0 < n ∧
          relative + n = m.info.replBacklog.readableLen.toNat
  | .running _, .psync _ _ _ => True
  | _, _ => False

section Window

variable {info : ServerInfo} {content : Bytes} {total : Nat}

/-- The invariant: `content` is what the backlog holds after `total` bytes. -/
structure Keeps (info : ServerInfo) (content : Bytes) (total : Nat) : Prop where
  queue : info.replBacklog.Queues content total
  size : info.replBacklog.size = 1048576
  offset : info.masterReplOffset = total
  base : info.replBacklogBaseOffset + content.length = total

theorem Keeps.window (h : Keeps info content total) : BacklogWindow info := by
  have hLength := h.queue.length_le
  have hRoom := h.queue.writableLen
  have hReadable := h.queue.readableLen
  have hOffset := h.offset
  have hBase := h.base
  rw [h.size] at hRoom
  change _ = 1048576 at hRoom
  exact ⟨_, _, h.queue.rbReadable, by omega, by omega, by omega, by omega⟩

/-- One update. The bytes are added, and the oldest ones go if the ring is too
small for all of them. -/
theorem Keeps.update (h : Keeps info content total) (copied : Bytes)
    (hCopied : copied.length ≤ 65536) (hTotal : total + copied.length < 2 ^ 63) :
    ∃ next codes, updateBacklog info copied = some (next, codes) ∧
      (∀ c ∈ codes, c = (0, 0)) ∧ next.replicas = info.replicas ∧
      Keeps next ((content ++ copied).drop (content.length + copied.length - 1048576))
        (total + copied.length) := by
  have hLength := h.queue.length_le
  have hRoom := h.queue.writableLen
  have hOffset := h.offset
  have hBase := h.base
  rw [h.size] at hRoom
  change _ = 1048576 at hRoom
  have hMaster : toInt64 (info.masterReplOffset + copied.length) =
      ((total + copied.length : Nat) : Int) := by
    rw [toInt64_of_small (by omega) (by omega), hOffset, Nat.cast_add]
  simp only [updateBacklog, h.queue.rbWritable, Option.bind_eq_bind, Option.bind_some]
  by_cases hFit : copied.length ≤ info.replBacklog.writableLen.toNat
  · obtain ⟨backlog, hWrite, hNext, hSame⟩ := h.queue.put
      (show copied.length + ([] : Bytes).length ≤ _ from hFit) (by omega)
    rw [List.append_nil] at hWrite
    rw [if_pos hFit, hWrite]
    refine ⟨_, none, rfl, by simp, rfl, ?_⟩
    rw [show content.length + copied.length - 1048576 = 0 by omega, List.drop_zero]
    refine ⟨hNext, hSame.trans h.size, hMaster, ?_⟩
    rw [List.length_append]
    push_cast
    omega
  · have hOver : copied.length - info.replBacklog.writableLen.toNat ≤ content.length := by omega
    obtain ⟨shorter, hRead, hShorter, hSame⟩ := h.queue.rbRead hOver
    have hShort := hShorter.writableLen
    rw [hSame, h.size, List.length_drop] at hShort
    change _ = 1048576 at hShort
    obtain ⟨backlog, hWrite, hNext, hSame'⟩ := hShorter.put
      (show copied.length + ([] : Bytes).length ≤ _ by rw [List.length_nil]; omega) (by omega)
    -- the write pointer was taken before the read cursor moved, and is still right
    have hPtr : shorter.writeIndex % shorter.size =
        info.replBacklog.writeIndex % info.replBacklog.size := by
      have hIndex : shorter.writeIndex = info.replBacklog.writeIndex :=
        UInt64.toNat_inj.mp (hShorter.cursor.trans h.queue.cursor.symm)
      rw [hSame, hIndex]
    rw [List.append_nil, hPtr] at hWrite
    rw [if_neg hFit, hRead, Option.bind_some, hWrite]
    refine ⟨_, some (0, 0), rfl, by simp, rfl, ?_⟩
    have hDrop : (content ++ copied).drop (content.length + copied.length - 1048576) =
        content.drop (copied.length - info.replBacklog.writableLen.toNat) ++ copied := by
      have hCount : content.length + copied.length - 1048576 =
          copied.length - info.replBacklog.writableLen.toNat := by omega
      rw [hCount, List.drop_append_of_le_length hOver]
    rw [hDrop]
    refine ⟨hNext, (hSame'.trans hSame).trans h.size, hMaster, ?_⟩
    rw [List.length_append, List.length_drop]
    change toInt64 (info.replBacklogBaseOffset + _) + _ = _
    rw [toInt64_of_small (by omega) (by omega)]
    push_cast
    omega

/-- Codes without a failure do not end the process. -/
theorem exit_of_codes {codes : Option (Int × Int)} (h : ∀ c ∈ codes, c = (0, 0)) :
    (codes.map Prod.snd).getD 0 = 0 := by
  cases codes with
  | none => rfl
  | some c =>
      rw [h c rfl]
      rfl

/-- The slice of a replica at any offset that a `long long` can hold. -/
theorem Keeps.slice (h : Keeps info content total) (hTotal : total < 2 ^ 63) {offset : Int}
    (hLow : -2 ^ 63 ≤ offset) {relative n : Nat}
    (hChoice : continuePsync info offset = some (.copies relative n)) :
    (relative : Int) = offset - info.replBacklogBaseOffset ∧ 0 < n ∧
      relative + n = content.length := by
  have hLength := h.queue.length_le
  have hRoom := h.queue.writableLen
  have hOffset := h.offset
  have hBase := h.base
  have hReadable := h.queue.readableLen
  rw [h.size] at hRoom
  change _ = 1048576 at hRoom
  unfold continuePsync at hChoice
  split at hChoice
  · cases hChoice
  · dsimp only at hChoice
    split at hChoice
    · split at hChoice <;> cases hChoice
    · rename_i hPositive
      split at hChoice
      · cases hChoice
      · rename_i hBehind
        simp only [h.queue.rbReadable, Option.bind_eq_bind, Option.bind_some] at hChoice
        split at hChoice
        · cases hChoice
        · rename_i hInside
          simp only [Option.some.injEq, PsyncChoice.copies.injEq] at hChoice
          obtain ⟨rfl, rfl⟩ := hChoice
          have hBytes : toInt64 (info.masterReplOffset - offset) = info.masterReplOffset - offset := by
            rw [toInt64] at hPositive hInside ⊢
            rw [Int.bmod_def] at hPositive hInside ⊢
            norm_num at hPositive hInside ⊢
            split at hPositive <;> omega
          rw [hBytes] at hPositive hInside ⊢
          rw [toSize_of_nonneg (by omega) (by omega)]
          omega

end Window

section Runs

variable {m : Master} {total : Nat}

/-- The offsets of the replicas are numbers that a `long long` can hold. -/
def Master.OffsetsInRange (m : Master) : Prop :=
  ∀ client offset, m.replOffset client = some offset → -2 ^ 63 ≤ offset ∧ offset < 2 ^ 63

theorem Master.OffsetsInRange.update (h : m.OffsetsInRange) (client : Nat) {changed : Option Int}
    (hChanged : ∀ offset, changed = some offset → -2 ^ 63 ≤ offset ∧ offset < 2 ^ 63) :
    ({ m with replOffset := Function.update m.replOffset client changed }).OffsetsInRange := by
  intro other offset hOffset
  change Function.update m.replOffset client changed other = some offset at hOffset
  rw [Function.update_apply] at hOffset
  split at hOffset
  · exact hChanged offset hOffset
  · exact h other offset hOffset

theorem Master.OffsetsInRange.psync (h : m.OffsetsInRange) (client : Nat)
    (replid offsetStr : Bytes) : (m.psync client replid offsetStr).OffsetsInRange := by
  refine h.update client fun offset hOffset => ?_
  split at hOffset
  · cases hOffset
    exact strtol_range _
  · cases hOffset

theorem Master.OffsetsInRange.served (h : m.OffsetsInRange) {client : Nat} {offset : Int}
    (hOffset : m.replOffset client = some offset) (flushed : UInt64) (choice : PsyncChoice) :
    (m.served client offset flushed choice).OffsetsInRange := by
  have hGone := h.update client fun offset (hOffset : none = some offset) => by cases hOffset
  cases choice with
  | copies relative n =>
      refine h.update client fun offset' hChanged => ?_
      cases hChanged
      split
      · exact toInt64_range _
      · exact h client offset hOffset
  | nothing => exact h
  | caughtUp => exact hGone
  | ahead => exact hGone
  | outside => exact hGone

theorem Master.served_info (m : Master) (client : Nat) (offset : Int) (flushed : UInt64)
    (choice : PsyncChoice) : (m.served client offset flushed choice).info = m.info := by
  cases choice <;> rfl

theorem Keeps.continuePsync_isSome {info : ServerInfo} {content : Bytes}
    (h : Keeps info content total) (hTotal : total < 2 ^ 63) {offset : Int}
    (hOffset : -2 ^ 63 ≤ offset ∧ offset < 2 ^ 63) :
    ∃ choice, continuePsync info offset = some choice := by
  have hMaster := h.offset
  unfold continuePsync
  split
  · exact ⟨_, rfl⟩
  · dsimp only
    split
    · exact ⟨_, rfl⟩
    · rename_i hPositive
      rw [if_neg]
      · simp only [h.queue.rbReadable, Option.bind_eq_bind, Option.bind_some]
        split
        · exact ⟨_, rfl⟩
        · exact ⟨_, rfl⟩
      · intro hAhead
        rw [toInt64_of_small (by omega) (by omega)] at hPositive
        omega

/-- One event: the process goes on with the invariant, and what the event does
is sound. -/
theorem MasterProcess.step_sound {content : Bytes} (hKeeps : Keeps m.info content total)
    (hRange : m.OffsetsInRange) (event : MasterEvent) (hBytes : event.bytes ≤ 65536)
    (hTotal : total + event.bytes < 2 ^ 63) :
    (running m).Sound event ∧ ∃ next content', ((running m).step event).1 = running next ∧
      Keeps next.info content' (total + event.bytes) ∧ next.OffsetsInRange := by
  cases event with
  | propagate copied =>
      obtain ⟨info, codes, hUpdate, hCodes, -, hNext⟩ := hKeeps.update copied hBytes hTotal
      refine ⟨⟨info, codes, hUpdate, hCodes⟩, { m with info := info }, _, ?_, hNext, hRange⟩
      simp only [step, hUpdate, exit_of_codes hCodes, ne_eq, not_true_eq_false, ↓reduceIte]
  | psync client replid offsetStr =>
      exact ⟨trivial, _, content, rfl, hKeeps, hRange.psync client replid offsetStr⟩
  | epollout client flushed =>
      have hSmall : total < 2 ^ 63 := hTotal
      constructor
      · intro offset relative n hOffset hChoice
        rw [hKeeps.queue.readableLen]
        exact hKeeps.slice hSmall (hRange client offset hOffset).1 hChoice
      · cases hOffset : m.replOffset client with
        | none => exact ⟨m, content, by simp only [step, hOffset], hKeeps, hRange⟩
        | some offset =>
            obtain ⟨choice, hChoice⟩ :=
              hKeeps.continuePsync_isSome hSmall (hRange client offset hOffset)
            refine ⟨m.served client offset flushed choice, content, ?_, ?_,
              hRange.served hOffset flushed choice⟩
            · simp only [step, hOffset, hChoice]
            · rw [Master.served_info]
              exact hKeeps

theorem MasterProcess.run_sound (events : List MasterEvent) {content : Bytes}
    (hKeeps : Keeps m.info content total) (hRange : m.OffsetsInRange)
    (hBytes : ∀ event ∈ events, event.bytes ≤ 65536)
    (hTotal : total + (events.map MasterEvent.bytes).sum < 2 ^ 63) :
    Throughout step InWindow (running m) events ∧ AllSteps step Sound (running m) events := by
  induction events generalizing m content total with
  | nil => exact ⟨hKeeps.window, trivial⟩
  | cons event events ih =>
      rw [List.map_cons, List.sum_cons] at hTotal
      obtain ⟨hSound, next, content', hNext, hKeeps', hRange'⟩ :=
        step_sound hKeeps hRange event (hBytes event (List.mem_cons_self ..)) (by omega)
      obtain ⟨hWindow, hAll⟩ := ih hKeeps' hRange'
        (fun event hEvent => hBytes event (List.mem_cons_of_mem _ hEvent)) (by omega)
      rw [← hNext] at hWindow hAll
      exact ⟨⟨hKeeps.window, hWindow⟩, hSound, hAll⟩

end Runs

/-- As long as fewer than 2^63 bytes have been propagated, the window is right
in every state, no call of the overwrite path fails, and every slice that is
copied lies at the end of the readable bytes. -/
theorem backlog_window_throughout {pageSize : UInt64} {fd : Int} {mapped : Bool}
    {backlog : RingBuffer} (hCreate : rbCreate pageSize 1048576 fd mapped = some backlog)
    (events : List MasterEvent) (hBytes : ∀ event ∈ events, event.bytes ≤ 65536)
    (hTotal : (events.map MasterEvent.bytes).sum < 2 ^ 63) :
    Throughout MasterProcess.step MasterProcess.InWindow (.start backlog) events ∧
      AllSteps MasterProcess.step MasterProcess.Sound (.start backlog) events := by
  have hStart : Keeps ⟨0, backlog, 0, []⟩ [] 0 :=
    ⟨RingBuffer.queues_create hCreate (by decide), rbCreate_size hCreate, rfl, rfl⟩
  refine MasterProcess.run_sound events hStart ?_ hBytes (by omega)
  intro client offset hOffset
  cases hOffset

/-- A write, a partial resynchronisation from the start and its first service. -/
theorem backlog_window_first_write :
    ∃ backlog, rbCreate 4096 1048576 3 true = some backlog ∧
      Throughout MasterProcess.step MasterProcess.InWindow (.start backlog)
        [.propagate (text "PING"), .psync 0 masterReplid (text "0"), .epollout 0 11] := by
  have hCreate : rbCreate 4096 1048576 3 true = some ⟨0, 0, fun _ => 0, 1048576, 3⟩ := by rfl
  refine ⟨_, hCreate, (backlog_window_throughout hCreate _ ?_ ?_).1⟩
  · decide
  · decide

section Overflow

theorem updateBacklog_offset {info next : ServerInfo} {copied : Bytes} {codes : Option (Int × Int)}
    (h : updateBacklog info copied = some (next, codes)) :
    next.masterReplOffset = toInt64 (info.masterReplOffset + copied.length) := by
  obtain ⟨⟨ptr, len⟩, -, h⟩ := Option.bind_eq_some_iff.mp h
  dsimp only at h
  split at h
  · obtain ⟨⟨backlog, code⟩, -, h⟩ := Option.bind_eq_some_iff.mp h
    cases h
    rfl
  · obtain ⟨⟨shorter, readCode⟩, -, h⟩ := Option.bind_eq_some_iff.mp h
    obtain ⟨⟨backlog, writeCode⟩, -, h⟩ := Option.bind_eq_some_iff.mp h
    cases h
    rfl

theorem MasterProcess.step_offset {m next : Master} {event : MasterEvent}
    (h : ((running m).step event).1 = running next) {x : Int}
    (hm : m.info.masterReplOffset = toInt64 x) :
    next.info.masterReplOffset = toInt64 (x + event.bytes) := by
  cases event with
  | propagate copied =>
      simp only [step] at h
      split at h
      · cases h
      · rename_i info codes hUpdate
        split at h
        · cases h
        · cases h
          change info.masterReplOffset = _
          rw [updateBacklog_offset hUpdate, hm, toInt64, toInt64, toInt64, Int.bmod_add_bmod]
          rfl
  | psync client replid offsetStr =>
      cases h
      change m.info.masterReplOffset = toInt64 (x + (0 : Nat))
      rw [hm, Nat.cast_zero, Int.add_zero]
  | epollout client flushed =>
      have hSame : next.info = m.info := by
        simp only [step] at h
        split at h
        · cases h
          rfl
        · split at h
          · cases h
          · cases h
            exact Master.served_info ..
      rw [hSame, hm]
      change _ = toInt64 (x + (0 : Nat))
      rw [Nat.cast_zero, Int.add_zero]

/-- Wherever a run is still going, the offset has counted its bytes modulo 2^64. -/
theorem MasterProcess.run_offset (events : List MasterEvent) {p : MasterProcess} {x : Int}
    (hp : ∀ m, p = running m → m.info.masterReplOffset = toInt64 x) {last : Master}
    (h : (run step p events).1 = running last) :
    last.info.masterReplOffset = toInt64 (x + ((events.map MasterEvent.bytes).sum : Nat)) := by
  induction events generalizing p x with
  | nil =>
      rw [hp last h, List.map_nil, List.sum_nil, Nat.cast_zero, Int.add_zero]
  | cons event events ih =>
      have hNext : ∀ next, (p.step event).1 = running next →
          next.info.masterReplOffset = toInt64 (x + event.bytes) := by
        intro next hStep
        cases p with
        | running m => exact step_offset hStep (hp m rfl)
        | exited => cases event <;> cases hStep
        | aborted => cases event <;> cases hStep
      rw [ih hNext h, List.map_cons, List.sum_cons, Nat.cast_add, Int.add_assoc]

/-- The window is lost when the signed offset overflows. -/
theorem MasterProcess.not_inWindow_of_overflow {backlog : RingBuffer} {events : List MasterEvent}
    (hTotal : (events.map MasterEvent.bytes).sum = 2 ^ 63) :
    ¬Throughout step InWindow (start backlog) events := by
  intro h
  have hLast := h.last
  cases hRun : (run step (start backlog) events).1 with
  | running last =>
      have hOffset := run_offset events (x := 0) (fun m hm => by cases hm; rfl) hRun
      rw [hTotal] at hOffset
      rw [hRun] at hLast
      obtain ⟨-, -, -, -, hLow, hHigh, -⟩ := hLast
      have hNegative : toInt64 (0 + ((2 ^ 63 : Nat) : Int)) < 0 := by decide
      omega
  | exited =>
      rw [hRun] at hLast
      exact hLast
  | aborted =>
      rw [hRun] at hLast
      exact hLast

end Overflow

/-- 2^47 reads of 65536 bytes each. -/
theorem backlog_window_lost :
    ∃ backlog events, rbCreate 4096 1048576 3 true = some backlog ∧
      (∀ event ∈ events, event.bytes ≤ 65536) ∧
      ¬Throughout MasterProcess.step MasterProcess.InWindow (.start backlog) events := by
  have hCreate : rbCreate 4096 1048576 3 true = some ⟨0, 0, fun _ => 0, 1048576, 3⟩ := by rfl
  have hBytes : (MasterEvent.propagate (List.replicate 65536 0)).bytes = 65536 :=
    List.length_replicate
  refine ⟨_, List.replicate (2 ^ 47) (.propagate (List.replicate 65536 0)), hCreate, ?_, ?_⟩
  · intro event hEvent
    rw [List.eq_of_mem_replicate hEvent, hBytes]
  · apply MasterProcess.not_inWindow_of_overflow
    rw [List.map_replicate, List.sum_replicate, hBytes]
    norm_num

end RedisServer
