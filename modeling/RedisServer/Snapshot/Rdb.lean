import RedisServer.Snapshot.RdbString
import RedisServer.Storage.Counters

/-! Saving and loading the store, after `rdb.c`. The file is its bytes. The
loader takes the number of records from one byte of the file, which the saver
fills with the low byte of the key counter, lists included; this module says
when that is good enough for a round trip. -/
namespace RedisServer

open Machine

/-- Skip the pairs of the metadata section. The argument bounds the number of
iterations; each takes a byte, so the length of the file is enough. -/
def loadMetadata : Nat → Bytes → Option Bytes
  | _, [] => none
  | 0, _ => none
  | fuel + 1, next :: file =>
      if next = 0xFE then some file
      else
        match readRdbString (next :: file) with
        | (none, file) => some file
        | (some _, file) =>
            match readRdbString file with
            | (none, file) => some file
            | (some _, file) => loadMetadata fuel file

/-- The optional expiry in front of a record: its milliseconds and what
follows. The seconds are multiplied in 32 bits. -/
def loadExpiry : Bytes → Option (Nat × Bytes)
  | [] => none
  | type :: file =>
      if type = 0xFD then
        if file.length < 4 then none
        else some (fromLittleEndian (file.take 4) * 1000 % 2 ^ 32, file.drop 4)
      else if type = 0xFC then
        if file.length < 8 then none
        else some (fromLittleEndian (file.take 8), file.drop 8)
      else some (0, type :: file)

/-- One iteration of the loop over key-value pairs. A type other than string
is reported and skipped, and so is the end of the file after an expiry. -/
def loadPair (db : RedisDb) (file : Bytes) : Option (RedisDb × Bytes) :=
  match loadExpiry file with
  | none => none
  | some (_, []) => some (db, [])
  | some (expireTime, type :: file) =>
      if type = 0x00 then
        match readRdbString file with
        | (none, _) => none
        | (some key, file) =>
            match readRdbString file with
            | (none, _) => none
            | (some value, file) =>
                some (redisDbSet db key value ((expireTime : Int).bmod (2 ^ 64)), file)
      else some (db, file)

def loadPairs : Nat → RedisDb → Bytes → RedisDb × Option Bytes
  | 0, db, file => (db, some file)
  | count + 1, db, file =>
      match loadPair db file with
      | none => (db, none)
      | some (db, file) => loadPairs count db file

/-- The loop over the sections of the file, with the bound of `loadMetadata`.
The database selector falls through to the end of the file. -/
def loadSections : Nat → RedisDb → Bytes → RedisDb × Int
  | _, db, [] => (db, 0)
  | 0, db, _ => (db, 0)
  | fuel + 1, db, opcode :: file =>
      if opcode = 0xFA then
        match loadMetadata file.length file with
        | none => (db, 1)
        | some file => loadSections fuel db file
      else if opcode = 0xFB then
        match file with
        | kvSize :: _ :: file =>
            match loadPairs kvSize.toNat db file with
            | (db, none) => (db, 1)
            | (db, some file) => loadSections fuel db file
        | _ => (db, 1)
      else if opcode = 0xFE then
        match file with
        | [] => (db, 1)
        | _ :: _ => (db, 0)
      else if opcode = 0xFF then (db, 0)
      else loadSections fuel db file

/-- The magic string and the version. -/
def rdbHeader : Bytes := ascii ['R', 'E', 'D', 'I', 'S', '0', '0', '1', '2']

/-- The file is `none` when it cannot be opened. -/
def rdbLoadDataFromFile (db : RedisDb) (file : Option Bytes) : RedisDb × Int :=
  match file with
  | none => (db, -1)
  | some file =>
      if file.length < 9 then (db, 1)
      else if file.take 9 ≠ rdbHeader then (db, 1)
      else loadSections file.length db (file.drop 9)

/-- What the saver writes for one bucket. A list leaves nothing but the
deadline it may have. -/
def saveValue (key : Bytes) (val : RedisValue) : Bytes :=
  (if val.expiration > 0 then 0xFC :: littleEndian 8 val.expiration else []) ++
    match val.data with
    | .str s => 0x00 :: (writeRdbString key).1 ++ (writeRdbString s).1
    | .list _ => []

/-- The contents of the saved file, bucket by bucket. -/
def rdbSaveDataToFile (db : RedisDb) : Bytes :=
  rdbHeader ++ [0xFA, 0xFE, 0xFB, lowByte db.keyCount.toNat, lowByte db.expiryCount.toNat] ++
    db.h.entries.flatMap (fun e => saveValue e.1 e.2) ++ [0xFF]

/-- Keys and string values for which the string codec is a round trip. -/
def Survives (s : Bytes) : Prop := readRdbString (writeRdbString s).1 = (some s, [])

instance (s : Bytes) : Decidable (Survives s) := inferInstanceAs (Decidable (_ = _))

/-- A bucket whose key survives, and its value if that is a string. -/
def EntrySurvives (e : Sigma fun _ : Bytes => RedisValue) : Prop :=
  Survives e.1 ∧
    match e.2.data with
    | .str s => Survives s
    | .list _ => True

instance (e : Sigma fun _ : Bytes => RedisValue) : Decidable (EntrySurvives e) :=
  match e with
  | ⟨key, .str s, _⟩ => inferInstanceAs (Decidable (Survives key ∧ Survives s))
  | ⟨key, .list _, _⟩ => inferInstanceAs (Decidable (Survives key ∧ True))

/-- What a reader of the store sees of a value: a deadline that is not
positive is none. -/
def RedisValue.visible (v : RedisValue) : RedisData × Option Int :=
  (v.data, if 0 < v.expiration then some v.expiration else none)

def RedisValue.isString (v : RedisValue) : Bool :=
  match v.data with
  | .str _ => true
  | .list _ => false

/-- The loaded store has exactly the string entries of the saved one. -/
def Restored (db loaded : RedisDb) : Prop :=
  ∀ key, (loaded.h.lookup key).map RedisValue.visible =
    ((db.h.lookup key).filter RedisValue.isString).map RedisValue.visible

/-- The values calls can put into the store: a deadline fits its field, and a
list has none. -/
structure RedisValue.Stored (v : RedisValue) : Prop where
  range : v.expiration < 2 ^ 63
  list : v.isString = false → v.expiration ≤ 0

/-- The expiration of a call is a signed 64-bit number. -/
def DbCall.InRange : DbCall → Prop
  | .set _ _ expiration => -2 ^ 63 ≤ expiration ∧ expiration < 2 ^ 63
  | _ => True

instance (call : DbCall) : Decidable call.InRange :=
  match call with
  | .set _ _ _ => inferInstanceAs (Decidable (_ ∧ _))
  | .get _ _ | .exist _ | .delete _ | .lpush _ _ _ | .rpush _ _ _ | .lrange _ _ _ _ =>
      inferInstanceAs (Decidable True)

/-- A store that a run of calls leads to, up to the order of its buckets. -/
def RedisDb.Reachable (db : RedisDb) : Prop :=
  ∃ calls : List DbCall, (∀ call ∈ calls, call.InRange) ∧
    db.h.entries.Perm (run RedisDb.step redisDbCreate calls).1.h.entries ∧
    db.keyCount = (run RedisDb.step redisDbCreate calls).1.keyCount ∧
    db.expiryCount = (run RedisDb.step redisDbCreate calls).1.expiryCount

namespace RedisDb

section Values

variable {db : RedisDb}

def AllStored (db : RedisDb) : Prop := ∀ key v, db.h.lookup key = some v → v.Stored

theorem AllStored.insert (h : db.AllStored) (key : Bytes) {v : RedisValue} (hv : v.Stored) :
    ∀ key' v', (db.h.insert key v).lookup key' = some v' → v'.Stored := by
  intro key' v' hFind
  by_cases hKey : key' = key
  · subst hKey
    rw [AList.lookup_insert] at hFind
    exact Option.some.inj hFind ▸ hv
  · rw [AList.lookup_insert_ne hKey] at hFind
    exact h key' v' hFind

theorem AllStored.erase (h : db.AllStored) (key : Bytes) :
    ∀ key' v', (db.h.erase key).lookup key' = some v' → v'.Stored := by
  intro key' v' hFind
  by_cases hKey : key' = key
  · subst hKey
    rw [AList.lookup_erase] at hFind
    cases hFind
  · rw [AList.lookup_erase_ne hKey] at hFind
    exact h key' v' hFind

theorem AllStored.set (h : db.AllStored) (key : Bytes) {data : RedisData} {expiration : Int}
    (hv : RedisValue.Stored ⟨data, expiration⟩) : (db.set key data expiration).AllStored := by
  unfold RedisDb.set
  split
  · exact h.insert key hv
  · exact h.insert key hv

theorem AllStored.get (h : db.AllStored) (key : Bytes) (now : Int) :
    (db.get key now).1.AllStored := by
  unfold RedisDb.get
  split
  · split
    · exact h.erase key
    · exact h
  · exact h

theorem AllStored.delete (h : db.AllStored) (key : Bytes) : (db.delete key).AllStored := by
  unfold RedisDb.delete
  split
  · exact h.erase key
  · exact h

theorem AllStored.step (h : db.AllStored) {call : DbCall} (hCall : call.InRange) :
    (db.step call).1.AllStored := by
  have hPush := fun side created (hCreated : created ≤ 0) =>
    push_preserves (I := AllStored) created (fun _ key now h => h.get key now)
      (fun _ key h _ => h.set key ⟨by dsimp only; omega, fun _ => hCreated⟩)
      (fun _ key _ _ xs h hFind => h.insert key ⟨(h key _ hFind).range, (h key _ hFind).list⟩)
      side db
  cases call with
  | set key value expiration => exact h.set key ⟨hCall.2, fun hList => by cases hList⟩
  | get key now => exact h.get key now
  | exist key => exact h
  | delete key => exact h.delete key
  | lpush key item now => exact hPush lpush (-1) (by omega) key item now h
  | rpush key item now => exact hPush rpush 0 (by omega) key item now h
  | lrange key start stop now =>
      change (redisDbLrange db key start stop now).1.AllStored
      rw [lrange_fst]
      exact h.get key now

end Values

section Reached

variable {db : RedisDb}

theorem Reachable.spec (h : db.Reachable) :
    db.KeyCounted ∧ ∀ e ∈ db.h.entries, e.2.Stored := by
  obtain ⟨calls, hRange, hPerm, hCount, -⟩ := h
  have hStart : redisDbCreate.KeyCounted ∧ redisDbCreate.AllStored :=
    ⟨rfl, fun key v hFind => by rw [redisDbCreate, AList.lookup_empty] at hFind; cases hFind⟩
  have hRun : Throughout step (fun db => db.KeyCounted ∧ db.AllStored) redisDbCreate calls :=
    throughout_of_allSteps (fun _ call h hCall => ⟨h.1.step call, h.2.step hCall⟩) hStart
      (allSteps_of_forall hRange _)
  obtain ⟨hKeys, hValues⟩ := hRun.last
  constructor
  · rw [KeyCounted, hCount, hKeys, Table.size, Table.size, hPerm.length_eq]
  · intro e he
    exact hValues e.1 e.2 (AList.mem_lookup_iff.mpr (hPerm.mem_iff.mp he))

theorem Reachable.allStored (h : db.Reachable) : db.AllStored := by
  intro key v hFind
  exact h.spec.2 ⟨key, v⟩ (AList.mem_lookup_iff.mp hFind)

end Reached

end RedisDb

section Records

/-- What loading the record of one bucket does to the store. -/
def restore (db : RedisDb) (e : Sigma fun _ : Bytes => RedisValue) : RedisDb :=
  match e.2.data with
  | .str s => redisDbSet db e.1 s (max e.2.expiration 0)
  | .list _ => db

/-- The prefix of a value that has a deadline carries the deadline. -/
theorem loadExpiry_deadline (rest : Bytes) {v : Int} (hPos : 0 < v) (hRange : v < 2 ^ 63) :
    loadExpiry (0xFC :: littleEndian 8 v ++ rest) = some (v.toNat, rest) := by
  have hValue := fromLittleEndian_littleEndian 8 v
  rw [Int.emod_eq_of_lt (by omega) (by omega)] at hValue
  have hNat : fromLittleEndian (littleEndian 8 v) = v.toNat := by omega
  simp [loadExpiry, hNat]

/-- One iteration of the loader on the record of a string. -/
theorem loadPair_saveValue (db : RedisDb) (rest : Bytes) {key s : Bytes} {v : RedisValue}
    (hStored : v.Stored) (hKey : Survives key) (hData : v.data = .str s) (hStr : Survives s) :
    loadPair db (saveValue key v ++ rest) = some (restore db ⟨key, v⟩, rest) := by
  have hRead : ∀ rest, readRdbString ((writeRdbString key).1 ++ rest) = (some key, rest) :=
    fun rest => readRdbString_extend rest hKey
  have hReadStr : ∀ rest, readRdbString ((writeRdbString s).1 ++ rest) = (some s, rest) :=
    fun rest => readRdbString_extend rest hStr
  by_cases hPos : 0 < v.expiration
  · have hBytes : saveValue key v ++ rest = 0xFC :: littleEndian 8 v.expiration ++
        (0x00 :: ((writeRdbString key).1 ++ ((writeRdbString s).1 ++ rest))) := by
      simp [saveValue, hData, hPos]
    have hSame : ((v.expiration.toNat : Nat) : Int).bmod (2 ^ 64) = max v.expiration 0 := by
      have := hStored.range
      rw [Int.bmod_eq_of_le (by omega) (by omega)]
      omega
    rw [hBytes, loadPair, loadExpiry_deadline _ hPos hStored.range]
    simp only [↓reduceIte, hRead, hReadStr, hSame, restore, hData]
  · have hBytes : saveValue key v ++ rest =
        0x00 :: ((writeRdbString key).1 ++ ((writeRdbString s).1 ++ rest)) := by
      simp [saveValue, hData, hPos]
    have hSame : ((0 : Nat) : Int).bmod (2 ^ 64) = max v.expiration 0 := by
      rw [max_eq_right (by omega)]
      rfl
    have hExpiry : ∀ file, loadExpiry (0x00 :: file) = some (0, 0x00 :: file) := fun _ => rfl
    rw [hBytes, loadPair, hExpiry]
    simp only [↓reduceIte, hRead, hReadStr, hSame, restore, hData]

/-- The loader takes the records of the strings one by one; a list has none. -/
theorem loadPairs_saveValue (es : List (Sigma fun _ : Bytes => RedisValue)) (db : RedisDb)
    (count : Nat) (rest : Bytes) (hStored : ∀ e ∈ es, e.2.Stored)
    (hSurvives : ∀ e ∈ es, EntrySurvives e) :
    loadPairs (es.countP (fun e => e.2.isString) + count) db
        (es.flatMap (fun e => saveValue e.1 e.2) ++ rest) =
      loadPairs count (es.foldl restore db) rest := by
  induction es generalizing db with
  | nil => simp
  | cons e es ih =>
      have hRest := fun db => ih db (fun e he => hStored e (List.mem_cons_of_mem _ he))
        (fun e he => hSurvives e (List.mem_cons_of_mem _ he))
      obtain ⟨key, data, deadline⟩ := e
      obtain ⟨hKey, hStr⟩ := hSurvives _ (List.mem_cons_self ..)
      have hHead := hStored _ (List.mem_cons_self ..)
      rw [List.flatMap_cons, List.append_assoc, List.countP_cons, List.foldl_cons]
      cases data with
      | list xs =>
          have hEmpty : saveValue key ⟨.list xs, deadline⟩ = [] := by
            have hNone : deadline ≤ 0 := hHead.list rfl
            simp only [saveValue, List.append_nil, ite_eq_right_iff]
            intro hPos
            omega
          dsimp only at hEmpty ⊢
          rw [hEmpty]
          exact hRest db
      | str s =>
          have hCount : List.countP (fun e => e.2.isString) es +
              (if RedisValue.isString ⟨.str s, deadline⟩ = true then 1 else 0) + count =
              (List.countP (fun e => e.2.isString) es + count) + 1 := by
            simp [RedisValue.isString]
            omega
          dsimp only at hCount ⊢
          rw [hCount, loadPairs, loadPair_saveValue db _ hHead hKey rfl hStr]
          exact hRest _

/-- What the store holds after the records of buckets with distinct keys. -/
theorem foldl_restore_lookup (es : List (Sigma fun _ : Bytes => RedisValue))
    (hKeys : es.NodupKeys) (db : RedisDb) (key : Bytes) :
    ((es.foldl restore db).h.lookup key).map RedisValue.visible =
      (((es.dlookup key).filter RedisValue.isString).map RedisValue.visible).or
        ((db.h.lookup key).map RedisValue.visible) := by
  induction es generalizing db with
  | nil => simp
  | cons e es ih =>
      obtain ⟨k, data, deadline⟩ := e
      obtain ⟨hNot, hRest⟩ := List.nodupKeys_cons.mp hKeys
      rw [List.foldl_cons, ih hRest]
      by_cases hKey : key = k
      · subst hKey
        rw [List.dlookup_cons_eq, List.dlookup_eq_none.mpr hNot]
        cases data with
        | list xs => rw [Option.filter_some_neg (by simp [RedisValue.isString])]; rfl
        | str s =>
            have hVisible : RedisValue.visible ⟨.str s, max deadline 0⟩ =
                RedisValue.visible ⟨.str s, deadline⟩ := by
              simp only [RedisValue.visible, Prod.mk.injEq, true_and]
              by_cases hPos : 0 < deadline
              · rw [max_eq_left hPos.le]
              · rw [max_eq_right (by omega), if_neg (by omega), if_neg hPos]
            rw [Option.filter_some_pos (by rfl)]
            simp [restore, redisDbSet, RedisDb.lookup_set, hVisible]
      · rw [List.dlookup_cons_ne _ _ (by simpa using hKey)]
        cases data with
        | list xs => rfl
        | str s => simp [restore, redisDbSet, RedisDb.lookup_set, hKey]

end Records

section File

variable (db loaded : RedisDb)

/-- The record part of the saved file. -/
def savedRecords : Bytes := db.h.entries.flatMap (fun e => saveValue e.1 e.2)

/-- The loader on a saved file, after the header and the two counts. -/
theorem rdbLoadDataFromFile_saved :
    rdbLoadDataFromFile loaded (some (rdbSaveDataToFile db)) =
      match loadPairs (lowByte db.keyCount.toNat).toNat loaded (savedRecords db ++ [0xFF]) with
      | (loaded, none) => (loaded, 1)
      | (loaded, some file) => loadSections ((savedRecords db).length + 13) loaded file := by
  have hBytes : rdbSaveDataToFile db = rdbHeader ++ (0xFA :: 0xFE :: 0xFB ::
      lowByte db.keyCount.toNat :: lowByte db.expiryCount.toNat ::
        (savedRecords db ++ [0xFF])) := by
    simp [rdbSaveDataToFile, savedRecords]
  have hHeader : rdbHeader.length = 9 := rfl
  have hLength : (rdbSaveDataToFile db).length = (savedRecords db).length + 13 + 1 + 1 := by
    simp only [hBytes, List.length_append, List.length_cons, List.length_nil, hHeader]
    omega
  unfold rdbLoadDataFromFile
  dsimp only
  rw [if_neg (by omega), hLength, hBytes]
  rw [List.take_left' hHeader, List.drop_left' hHeader, if_neg (by simp)]
  rfl

/-- The count byte that makes the loader take all the strings and then end:
it counts them exactly, or one list with them, for which the loader takes the
end marker as a record of unknown type and stops at the end of the file. -/
def CountFits (db : RedisDb) : Prop :=
  let strings := Table.count RedisValue.isString db.h
  Table.size db.h % 256 = strings ∨ Table.size db.h % 256 = strings + 1

instance : Decidable (CountFits db) := inferInstanceAs (Decidable (_ ∨ _))

variable {db}

theorem kvSize_eq (h : db.KeyCounted) :
    (lowByte db.keyCount.toNat).toNat = Table.size db.h % 256 := by
  have hByte := lowByte_toNat db.keyCount.toNat
  have hCount : db.keyCount.toNat = Table.size db.h % 2 ^ 64 := by
    rw [h]
    simp
  omega

variable (hStored : ∀ e ∈ db.h.entries, e.2.Stored)
  (hSurvives : ∀ e ∈ db.h.entries, EntrySurvives e)

include hStored hSurvives

/-- Loading with enough records counted: the strings are all there. -/
theorem loadPairs_saved (extra : Nat) :
    loadPairs (Table.count RedisValue.isString db.h + extra) loaded (savedRecords db ++ [0xFF]) =
      loadPairs extra (db.h.entries.foldl restore loaded) [0xFF] :=
  loadPairs_saveValue db.h.entries loaded extra [0xFF] hStored hSurvives

theorem load_saved_of_countFits (hCount : db.KeyCounted) (h : CountFits db) :
    rdbLoadDataFromFile loaded (some (rdbSaveDataToFile db)) =
      (db.h.entries.foldl restore loaded, 0) := by
  rw [rdbLoadDataFromFile_saved, kvSize_eq hCount]
  rcases h with h | h
  · rw [h, ← Nat.add_zero (Table.count _ _), loadPairs_saved loaded hStored hSurvives]
    rfl
  · rw [h, loadPairs_saved loaded hStored hSurvives]
    rfl

/-- Too large a count does no harm to what is loaded. -/
theorem load_saved_fst (hCount : db.KeyCounted)
    (h : Table.count RedisValue.isString db.h ≤ Table.size db.h % 256) :
    (rdbLoadDataFromFile loaded (some (rdbSaveDataToFile db))).1 =
      db.h.entries.foldl restore loaded := by
  obtain ⟨extra, hExtra⟩ := Nat.exists_eq_add_of_le h
  rw [rdbLoadDataFromFile_saved, kvSize_eq hCount, hExtra, loadPairs_saved loaded hStored hSurvives]
  rcases extra with - | - | extra
  · rfl
  · rfl
  · rfl

/-- With two or more records missing the loader runs into the end of the file
and reports a failure. -/
theorem load_saved_of_too_many (hCount : db.KeyCounted)
    (h : Table.count RedisValue.isString db.h + 2 ≤ Table.size db.h % 256) :
    (rdbLoadDataFromFile loaded (some (rdbSaveDataToFile db))).2 = 1 := by
  obtain ⟨extra, hExtra⟩ := Nat.exists_eq_add_of_le h
  rw [rdbLoadDataFromFile_saved, kvSize_eq hCount, hExtra, Nat.add_assoc,
    loadPairs_saved loaded hStored hSurvives, Nat.add_comm 2 extra]
  rfl

end File

end RedisServer
