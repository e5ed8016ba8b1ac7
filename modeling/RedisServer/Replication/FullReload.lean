import RedisServer.Snapshot.Restart
import RedisServer.Snapshot.RdbRoundTrip
import RedisServer.Replication.SnapshotReception

/-! What a full resync does to the store of the replica. The snapshot is loaded
record by record into the store that is there, which holds what the replica
found in its own snapshot when it started and what its clients have written,
and nothing is removed before. -/
namespace RedisServer

open Machine

/-- A replica with the commands of this repository. -/
def redisReplica (stale port : Bytes) : ReplicaServer (Option World) where
  cmds := redisCommands stale
  port := port
  rdbLoadDataFromFile file world := world.map fun s =>
    { s with db := (rdbLoadDataFromFile s.db (some file)).1 }

/-- Something happens on the link, or other clients of the replica have left
the world like this. -/
inductive ReplicaEvent (ρ : Type) where
  | link (event : MasterLinkEvent)
  | other (rest : ρ)

def MasterLink.stepAmong {ρ : Type} (srv : ReplicaServer ρ) (s : MasterLink ρ) :
    ReplicaEvent ρ → MasterLink ρ × Unit
  | .link event => s.step srv event
  | .other rest =>
      ({ s with handler := { s.handler with client := { s.handler.client with rest := rest } } }, ())

section Ready

variable {ρ : Type} {srv : ReplicaServer ρ} {s : MasterLink ρ}

/-- No answer of the master makes the link ready. -/
theorem ready_of_parserStep {cmds : Commands ρ} {r : Range} {a : ParserRun (CommandHandler ρ)}
    (h : (parserStep (createHandler cmds) r a).1.handler.client.replClientState = .ready) :
    a.handler.client.replClientState = .ready := by
  obtain ⟨before, last, hCalls, hBefore, hLast⟩ :=
    parse_answers a.parser (r.suffix a.begin) (r.stop - a.begin)
  unfold parserStep at h
  split at h
  · exact h
  · change (List.foldl (CommandHandler.handle cmds (r.suffix a.begin)) a.handler
      (a.parser.parse (r.suffix a.begin) (r.stop - a.begin)).calls).client.replClientState = .ready
      at h
    rw [hCalls] at h
    rcases foldl_handle_answers cmds (r.suffix a.begin) a.handler hBefore hLast with
      hStay | hError | ⟨hSucc, -, hAnswer, hSame⟩
    · exact hStay.symm.trans h
    · rw [h] at hError
      cases hError
    · have hAccepts := hAnswer.2
      rw [h] at hSucc
      rw [hSame] at hAccepts
      -- The state before the last one has no answer to wait for.
      revert hSucc hAccepts
      cases a.handler.client.replClientState <;>
        simp [ReplicaClientState.successor, ReplicaClientState.Accepts]

/-- The link gets ready only by loading the file. -/
theorem MasterLink.loads_of_ready {event : MasterLinkEvent} (hBefore : s.replClientState ≠ .ready)
    (hAfter : (s.step srv event).1.replClientState = .ready) :
    ∃ file, (s.step srv event).1.tmpRdb = some file ∧
      (s.step srv event).1.handler.client.rest =
        srv.rdbLoadDataFromFile file s.handler.client.rest := by
  unfold MasterLink.replClientState at hBefore hAfter
  cases MasterLink.step_handlerMoves srv s event with
  | stays hHandler =>
      rw [hHandler] at hAfter
      exact absurd hAfter hBefore
  | moves state hNot hHandler =>
      rw [hHandler] at hAfter
      exact absurd hAfter hNot
  | parses r begin hHandler =>
      rw [hHandler] at hAfter
      exact absurd (ready_of_parserStep hAfter) hBefore
  | loads file hFile hHandler => exact ⟨file, hFile, by rw [hHandler]⟩

end Ready

section Reload

/-- The count byte in the snapshot is enough for its strings. -/
def CountCovers (db : RedisDb) : Prop :=
  Table.count RedisValue.isString db.h ≤ Table.size db.h % 256

instance (db : RedisDb) : Decidable (CountCovers db) := inferInstanceAs (Decidable (_ ≤ _))

/-- At most 255 keys, and all of them strings. -/
theorem countCovers_of_strings {db : RedisDb} (hStrings : ∀ e ∈ db.h.entries, e.2.isString = true)
    (hSize : Table.size db.h ≤ 255) : CountCovers db := by
  have hCount : Table.count RedisValue.isString db.h = Table.size db.h :=
    List.countP_eq_length.mpr hStrings
  rw [CountCovers, hCount, Nat.mod_eq_of_lt (by omega)]

/-- Every key of the store has a string in the snapshot. -/
def HoldsOnly (master db : RedisDb) : Prop :=
  ∀ key, (master.h.lookup key).filter RedisValue.isString = none → db.h.lookup key = none

variable {master : RedisDb}

/-- Loading a snapshot into a store that has none of its missing keys. -/
theorem restored_load (hReach : master.Reachable)
    (hSurvives : ∀ e ∈ master.h.entries, EntrySurvives e) (hCount : CountCovers master)
    {db : RedisDb} (hOnly : HoldsOnly master db) :
    Restored master (rdbLoadDataFromFile db (some (rdbSaveDataToFile master))).1 := by
  obtain ⟨hKeys, hStored⟩ := hReach.spec
  rw [load_saved_fst db hStored hSurvives hKeys hCount]
  intro key
  have hFind : List.dlookup key master.h.entries = master.h.lookup key := rfl
  rw [foldl_restore_lookup master.h.entries master.h.nodupKeys, hFind]
  cases hKey : (master.h.lookup key).filter RedisValue.isString with
  | none =>
      rw [hOnly key hKey]
      rfl
  | some v => rfl

/-- No key goes away when records are stored. -/
theorem lookup_of_foldl_store (rs : List RdbRecord) {db : RedisDb} {key : Bytes}
    (h : (rs.foldl RedisDb.store db).h.lookup key = none) : db.h.lookup key = none := by
  induction rs generalizing db with
  | nil => exact h
  | cons r rs ih =>
      have hNext := ih h
      rw [RedisDb.store, redisDbSet, RedisDb.lookup_set] at hNext
      split at hNext
      · cases hNext
      · exact hNext

/-- Whatever is loaded, the keys from before are still there. -/
theorem holdsOnly_of_restored {file : Bytes} {db : RedisDb}
    (h : Restored master (rdbLoadDataFromFile db (some file)).1) : HoldsOnly master db := by
  intro key hNone
  have hAfter := h key
  rw [hNone, Option.map_none, Option.map_eq_none_iff, rdbLoadDataFromFile_eq] at hAfter
  exact lookup_of_foldl_store _ hAfter

/-- A store that holds nothing gets the whole snapshot only if the count byte is enough.
This is left open for deadlines in the first 2^32 milliseconds of the epoch. -/
theorem countCovers_of_restored (hReach : master.Reachable)
    (hSurvives : ∀ e ∈ master.h.entries, EntrySurvives e)
    (hLate : ∀ e ∈ master.h.entries, e.2.LateDeadline) {db : RedisDb} (hNothing : db.h.entries = [])
    (h : Restored master (rdbLoadDataFromFile db (some (rdbSaveDataToFile master))).1) :
    CountCovers master := by
  obtain ⟨hKeys, hStored⟩ := hReach.spec
  by_contra hFew
  exact not_restored_of_too_few hNothing hKeys hStored hSurvives hLate (not_le.mp hFew) h

/-- The replica gets ready with the snapshot of this store. -/
structure Resynced (master : RedisDb) (s t : MasterLink (Option World)) : Prop where
  before : s.replClientState ≠ .ready
  after : t.replClientState = .ready
  file : t.tmpRdb = some (rdbSaveDataToFile master)

/-- What the replica of a link holds. -/
def MasterLink.Holding (P : RedisDb → Prop) (s : MasterLink (Option World)) : Prop :=
  ∀ world, s.handler.client.rest = some world → P world.db

/-- What the replica holds then is what the snapshot makes of what it held before. -/
theorem Resynced.holding_iff {stale port : Bytes} {s : MasterLink (Option World)}
    {event : ReplicaEvent (Option World)}
    (h : Resynced master s (s.stepAmong (redisReplica stale port) event).1) (P : RedisDb → Prop) :
    (s.stepAmong (redisReplica stale port) event).1.Holding P ↔
      s.Holding fun db => P (rdbLoadDataFromFile db (some (rdbSaveDataToFile master))).1 := by
  obtain ⟨hBefore, hAfter, hFile⟩ := h
  cases event with
  | other rest => exact absurd hAfter hBefore
  | link event =>
      obtain ⟨file, hSame, hRest⟩ := MasterLink.loads_of_ready hBefore hAfter
      obtain rfl : rdbSaveDataToFile master = file := Option.some.inj (hFile.symm.trans hSame)
      unfold MasterLink.Holding
      change (∀ world, (s.step (redisReplica stale port) event).1.handler.client.rest = some world →
        P world.db) ↔ _
      rw [hRest]
      cases s.handler.client.rest with
      | none => exact iff_of_true (fun _ h => by cases h) (fun _ h => by cases h)
      | some world => simp only [redisReplica, Option.map_some, Option.some.injEq, forall_eq']

/-- In every run of a replica, whoever else writes to it, a full resync leaves exactly
the entries of the snapshot when the store had no other keys before and the count byte
of the snapshot is enough for its strings. The first is needed whatever the count byte
is. Without the second the loader misses strings, which then have to be in the store
before. -/
theorem full_reload_replaces (stale port : Bytes) (hReach : master.Reachable)
    (hSurvives : ∀ e ∈ master.h.entries, EntrySurvives e)
    (s : MasterLink (Option World)) (events : List (ReplicaEvent (Option World))) :
    (AllSteps (MasterLink.stepAmong (redisReplica stale port)) (fun s event =>
        Resynced master s (s.stepAmong (redisReplica stale port) event).1 →
          s.Holding fun db => CountCovers master ∧ HoldsOnly master db) s events →
      AllSteps (MasterLink.stepAmong (redisReplica stale port)) (fun s event =>
        Resynced master s (s.stepAmong (redisReplica stale port) event).1 →
          (s.stepAmong (redisReplica stale port) event).1.Holding (Restored master)) s events) ∧
    (AllSteps (MasterLink.stepAmong (redisReplica stale port)) (fun s event =>
        Resynced master s (s.stepAmong (redisReplica stale port) event).1 →
          (s.stepAmong (redisReplica stale port) event).1.Holding (Restored master)) s events →
      AllSteps (MasterLink.stepAmong (redisReplica stale port)) (fun s event =>
        Resynced master s (s.stepAmong (redisReplica stale port) event).1 →
          s.Holding fun db => HoldsOnly master db ∧
            (CountCovers master ∨ db.h.entries ≠ [] ∨
              ∃ e ∈ master.h.entries, ¬e.2.LateDeadline)) s events) := by
  refine ⟨fun hAll => hAll.imp ?_, fun hAll => hAll.imp ?_⟩
  · intro s event hBefore hResynced
    rw [hResynced.holding_iff]
    intro world hWorld
    obtain ⟨hCount, hOnly⟩ := hBefore hResynced world hWorld
    exact restored_load hReach hSurvives hCount hOnly
  · intro s event hAfter hResynced world hWorld
    have hRestored := (hResynced.holding_iff _).mp (hAfter hResynced) world hWorld
    refine ⟨holdsOnly_of_restored hRestored, ?_⟩
    by_cases hLate : ∀ e ∈ master.h.entries, e.2.LateDeadline
    · by_cases hNothing : world.db.h.entries = []
      · exact Or.inl (countCovers_of_restored hReach hSurvives hLate hNothing hRestored)
      · exact Or.inr (Or.inl hNothing)
    · obtain ⟨e, he⟩ := not_forall.mp hLate
      exact Or.inr (Or.inr ⟨e, Classical.not_imp.mp he⟩)

/-- The link of a replica that has read the header of a snapshot, which has come
in one piece. -/
def receivingLink (world : World) (snapshot : Bytes) : MasterLink (Option World) :=
  { connectMaster ⟨0, 0, fun _ => 0, 65536, 3⟩ (some world) with
    handler := createCommandHandler ⟨.master, .receivingRdbData, false, some world⟩ 256 10
    rdbExpectedBytes := snapshot.length
    tmpRdb := some []
    socket := [.bytes snapshot]
    control := .receive none }

theorem resynced_receivingLink (master : RedisDb) (stale port : Bytes) (world : World)
    (hFits : (rdbSaveDataToFile master).length ≤ 65536) :
    Resynced master (receivingLink world (rdbSaveDataToFile master))
      ((receivingLink world (rdbSaveDataToFile master)).stepAmong (redisReplica stale port)
        (.link .tick)).1 := by
  have hSome : rdbSaveDataToFile master ≠ [] := by simp [rdbSaveDataToFile]
  have hPositive := List.length_pos_iff.mpr hSome
  have hReceiving : MasterLink.Receiving (receivingLink world (rdbSaveDataToFile master))
      (rdbSaveDataToFile master).length [] [] 0 :=
    ⟨⟨none, rfl⟩, rfl, rfl, rfl, rfl, rfl, rfl, rfl, RingBuffer.queues_client⟩
  obtain ⟨t, next, left, hNext, hBytes, hLeft, -, hFile, -, hEnd⟩ :=
    hReceiving.read (redisReplica stale port) rfl hSome hPositive (by omega) (by simp) (by simpa using hFits)
      (by omega)
  obtain rfl := List.length_eq_zero_iff.mp hLeft
  have hAll : next = rdbSaveDataToFile master := by simpa using hBytes
  subst hAll
  have hTick : t = ((receivingLink world (rdbSaveDataToFile master)).stepAmong
      (redisReplica stale port) (.link .tick)).1 := by
    have hSame : ((receivingLink world (rdbSaveDataToFile master)).tick (redisReplica stale port),
      true) = (t, true) := hNext
    exact (congrArg Prod.fst hSame).symm
  rw [List.length_nil, Nat.zero_add, if_pos rfl] at hEnd
  rw [← hTick]
  exact ⟨ReplicaClientState.noConfusion, hEnd, hFile⟩

/-- A master with one key. -/
def copiedDb : RedisDb := (run RedisDb.step redisDbCreate [.set [98] [121] 0]).1

theorem reachable_copiedDb : copiedDb.Reachable :=
  ⟨[.set [98] [121] 0], by decide, List.Perm.refl _, rfl, rfl⟩

/-- A replica that holds nothing. -/
theorem full_reload_empty :
    AllSteps (MasterLink.stepAmong (redisReplica [] [])) (fun s event =>
        Resynced copiedDb s (s.stepAmong (redisReplica [] []) event).1 →
          (s.stepAmong (redisReplica [] []) event).1.Holding (Restored copiedDb))
      (receivingLink emptyWorld (rdbSaveDataToFile copiedDb)) [.link .tick] := by
  refine (full_reload_replaces [] [] reachable_copiedDb (by decide) _ _).1 ⟨?_, trivial⟩
  intro hResynced world hWorld
  cases hWorld
  exact ⟨countCovers_of_strings (by decide) (by decide), fun key hNone => rfl⟩

/-- A replica that finds a snapshot of its own when it starts. -/
def replicaWorld : World :=
  startServer [text "--replicaof", text "localhost", text "6379"]
    (fun _ => some (rdbSaveDataToFile (run RedisDb.step redisDbCreate [.set [97] [120] 0]).1))
    (fun _ => 0)

/-- The key of the replica survives. -/
theorem full_reload_keeps_key :
    copiedDb.Reachable ∧ (∀ e ∈ copiedDb.h.entries, e.2.isString = true ∧ EntrySurvives e) ∧
      Table.size copiedDb.h ≤ 255 ∧
      ¬AllSteps (MasterLink.stepAmong (redisReplica [] [])) (fun s event =>
          Resynced copiedDb s (s.stepAmong (redisReplica [] []) event).1 →
            (s.stepAmong (redisReplica [] []) event).1.Holding (Restored copiedDb))
        (receivingLink replicaWorld (rdbSaveDataToFile copiedDb)) [.link .tick] := by
  refine ⟨reachable_copiedDb, by decide, by decide, fun h => ?_⟩
  have hResynced := resynced_receivingLink copiedDb [] [] replicaWorld (by decide)
  have hRestored := (hResynced.holding_iff _).mp (h.1 hResynced) replicaWorld rfl
  have hNone := holdsOnly_of_restored hRestored [97] (by decide)
  revert hNone
  decide

end Reload

end RedisServer
