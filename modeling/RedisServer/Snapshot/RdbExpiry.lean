import RedisServer.Snapshot.RdbRecords

/-! The two forms in which a record carries its expiry. The seconds are
multiplied in 32 bits, so from 4294968 seconds after the epoch on the two forms
say different things. Two loads are compared that differ in one expiry. -/
namespace RedisServer

open Machine

/-- The records that are still to come, and the sections after them. -/
def parseFrom (count : Nat) (file : Bytes) : List RdbRecord × Int :=
  match parsePairs count file with
  | (rs, none) => (rs, 1)
  | (rs, some file) =>
      (rs ++ (parseSections file.length file).1, (parseSections file.length file).2)

/-- After these bytes the loader is about to take an opcode, whatever follows,
and has taken the records `before`. -/
def AtSection (start : Bytes) (before : List RdbRecord) : Prop :=
  ∀ rest, parseFile (start ++ rest) =
    (before ++ (parseSections rest.length rest).1, (parseSections rest.length rest).2)

/-- After these bytes the loader is about to take a record, with `count` more
to come after it. -/
def AtRecord (start : Bytes) (before : List RdbRecord) (count : Nat) : Prop :=
  ∀ rest, parseFile (start ++ rest) =
    (before ++ (parseFrom (count + 1) rest).1, (parseFrom (count + 1) rest).2)

section Positions

variable {start bytes file : Bytes} {before : List RdbRecord} {count : Nat}

theorem parseFrom_succ (count : Nat) (file : Bytes) :
    parseFrom (count + 1) file =
      match parsePair file with
      | none => ([], 1)
      | some (r, file) => (r.toList ++ (parseFrom count file).1, (parseFrom count file).2) := by
  unfold parseFrom
  simp only [parsePairs]
  cases parsePair file with
  | none => rfl
  | some found =>
      obtain ⟨r, file⟩ := found
      dsimp only
      rcases parsePairs count file with ⟨rs, - | rest⟩
      · rfl
      · simp

theorem atSection_header : AtSection rdbHeader [] := by
  intro rest
  have hHeader : rdbHeader.length = 9 := rfl
  unfold parseFile
  rw [if_neg (by simp [hHeader]), if_neg (by simp [List.take_left' hHeader]),
    List.drop_left' hHeader, parseSections_eq rest (by simp)]
  rfl

/-- A metadata section without pairs, as the saver writes it. -/
theorem AtSection.metadata (h : AtSection start before) :
    AtSection (start ++ [0xFA, 0xFE]) before := by
  intro rest
  have hSkip : parseSections (rest.length + 2) (0xFA :: 0xFE :: rest) =
      parseSections (rest.length + 1) rest := rfl
  rw [List.append_assoc, h]
  change (before ++ (parseSections (rest.length + 2) (0xFA :: 0xFE :: rest)).1,
    (parseSections (rest.length + 2) (0xFA :: 0xFE :: rest)).2) = _
  rw [hSkip, parseSections_enough rest le_rfl]

/-- The counts of a table, and the records that are counted. -/
theorem AtSection.parseFile_table (h : AtSection start before) (kvSize expSize : UInt8)
    (rest : Bytes) : parseFile (start ++ 0xFB :: kvSize :: expSize :: rest) =
      (before ++ (parseFrom kvSize.toNat rest).1, (parseFrom kvSize.toNat rest).2) := by
  have hTable : parseSections (rest.length + 3) (0xFB :: kvSize :: expSize :: rest) =
      parseFrom kvSize.toNat rest := by
    have hOpcode : ¬(0xFB : UInt8) = 0xFA := by decide
    rw [parseSections, if_neg hOpcode, if_pos rfl]
    dsimp only [parseFrom]
    cases hPairs : parsePairs kvSize.toNat rest with
    | mk rs left =>
        cases left with
        | none => rfl
        | some file =>
            have hLength := parsePairs_length_le hPairs
            dsimp only
            rw [parseSections_eq file (by omega)]
  rw [h]
  change (before ++ (parseSections (rest.length + 3) (0xFB :: kvSize :: expSize :: rest)).1,
    (parseSections (rest.length + 3) (0xFB :: kvSize :: expSize :: rest)).2) = _
  rw [hTable]

theorem AtSection.table (h : AtSection start before) {kvSize : UInt8} (hPos : kvSize ≠ 0)
    (expSize : UInt8) : AtRecord (start ++ [0xFB, kvSize, expSize]) before (kvSize.toNat - 1) := by
  intro rest
  have hCount : kvSize.toNat - 1 + 1 = kvSize.toNat := by
    have : kvSize.toNat ≠ 0 := fun h0 => hPos (UInt8.toNat_inj.mp h0)
    omega
  rw [List.append_assoc, hCount]
  exact h.parseFile_table kvSize expSize rest

/-- One record further. -/
theorem AtRecord.next {r : Option RdbRecord} (h : AtRecord start before (count + 1))
    (hPair : ∀ rest, parsePair (bytes ++ rest) = some (r, rest)) :
    AtRecord (start ++ bytes) (before ++ r.toList) count := by
  intro rest
  rw [List.append_assoc, h, parseFrom_succ, hPair]
  simp

end Positions

section Twins

/-- An entry with its value hidden if it is the entry of the key. -/
def maskEntry (key : Bytes) (e : Sigma fun _ : Bytes => RedisValue) :
    Sigma fun _ : Bytes => RedisValue :=
  ⟨e.1, if e.1 = key then ⟨.str [], 0⟩ else e.2⟩

/-- Two stores that differ in the value of one key at most, the counter of
deadlines apart. -/
structure Twins (key : Bytes) (db db' : RedisDb) : Prop where
  entries : db.h.entries.map (maskEntry key) = db'.h.entries.map (maskEntry key)
  keyCount : db.keyCount = db'.keyCount

variable {key : Bytes} {db db' : RedisDb}

theorem RedisDb.store_entries (db : RedisDb) (r : RdbRecord) :
    (db.store r).h.entries =
      ⟨r.key, .str r.value, r.expiration⟩ :: db.h.entries.kerase r.key := by
  rw [RedisDb.store, redisDbSet, RedisDb.set_h]
  rfl

theorem RedisDb.toMap_store (db : RedisDb) (r : RdbRecord) :
    (db.store r).toMap =
      Function.update db.toMap r.key (some ⟨.str r.value, r.expiration⟩) :=
  db.toMap_set r.key _ _

/-- The counters move when the key is new. -/
theorem RedisDb.store_counts (db : RedisDb) (r : RdbRecord) :
    (db.store r).keyCount = (if (db.toMap r.key).isSome then db.keyCount else db.keyCount + 1) ∧
      (db.store r).expiryCount =
        if (db.toMap r.key).isSome then db.expiryCount
        else if 0 < r.expiration then db.expiryCount + 1 else db.expiryCount := by
  unfold RedisDb.store redisDbSet RedisDb.set RedisDb.toMap
  cases db.h.lookup r.key with
  | none => exact ⟨rfl, rfl⟩
  | some v => exact ⟨rfl, rfl⟩

theorem kerase_map_mask (key other : Bytes) (es : List (Sigma fun _ : Bytes => RedisValue)) :
    (es.map (maskEntry key)).kerase other = (es.kerase other).map (maskEntry key) := by
  unfold List.kerase
  rw [List.eraseP_map]
  rfl

/-- Twins have the same keys. -/
theorem Twins.present (h : Twins key db db') (other : Bytes) :
    (db.toMap other).isSome = (db'.toMap other).isSome := by
  have hKeys : db.h.keys = db'.h.keys := by
    have hFst := congrArg (List.map Sigma.fst) h.entries
    rw [List.map_map, List.map_map] at hFst
    exact hFst
  have hMem : ∀ d : RedisDb, (d.toMap other).isSome = true ↔ other ∈ d.h.keys := by
    intro d
    exact AList.lookup_isSome.trans AList.mem_keys
  rw [Bool.eq_iff_iff, hMem, hMem, hKeys]

theorem Twins.store (h : Twins key db db') (r : RdbRecord) :
    Twins key (db.store r) (db'.store r) where
  entries := by
    rw [RedisDb.store_entries, RedisDb.store_entries, List.map_cons, List.map_cons,
      ← kerase_map_mask, ← kerase_map_mask, h.entries]
  keyCount := by
    rw [(db.store_counts r).1, (db'.store_counts r).1, h.present, h.keyCount]

/-- A record that stores the key again makes the tables equal. -/
theorem Twins.store_same (h : Twins key db db') {r : RdbRecord} (hKey : r.key = key) :
    (db.store r).h = (db'.store r).h := by
  have hHidden : ∀ d : RedisDb, (d.h.entries.kerase key).map (maskEntry key) =
      d.h.entries.kerase key := by
    intro d
    nth_rewrite 2 [← List.map_id (d.h.entries.kerase key)]
    apply List.map_congr_left
    intro e he
    have hOther : e.1 ≠ key := by
      intro hEq
      have hMem := List.mem_keys_of_mem he
      rw [hEq] at hMem
      exact List.notMem_keys_kerase key d.h.nodupKeys hMem
    rw [maskEntry, if_neg hOther]
    rfl
  apply AList.ext
  rw [RedisDb.store_entries, RedisDb.store_entries, hKey, ← hHidden db, ← hHidden db',
    ← kerase_map_mask, ← kerase_map_mask, h.entries]

theorem Twins.expiryCount_store (h : Twins key db db') (r : RdbRecord) :
    (db.store r).expiryCount = (db'.store r).expiryCount ↔ db.expiryCount = db'.expiryCount := by
  rw [(db.store_counts r).2, (db'.store_counts r).2, h.present]
  split
  · exact Iff.rfl
  split
  · exact UInt64.add_left_inj 1
  · exact Iff.rfl

theorem Twins.foldl_store (h : Twins key db db') (rs : List RdbRecord) :
    Twins key (rs.foldl RedisDb.store db) (rs.foldl RedisDb.store db') ∧
      ((rs.foldl RedisDb.store db).expiryCount = (rs.foldl RedisDb.store db').expiryCount ↔
        db.expiryCount = db'.expiryCount) ∧
      (db.h = db'.h ∨ key ∈ rs.map RdbRecord.key →
        (rs.foldl RedisDb.store db).h = (rs.foldl RedisDb.store db').h) := by
  induction rs generalizing db db' with
  | nil => exact ⟨h, Iff.rfl, fun hSame => hSame.resolve_right (by simp)⟩
  | cons r rs ih =>
      obtain ⟨hTwins, hCount, hTables⟩ := ih (h.store r)
      refine ⟨hTwins, hCount.trans (h.expiryCount_store r), fun hSame => hTables ?_⟩
      rw [List.map_cons, List.mem_cons] at hSame
      rcases hSame with hSame | hKey | hLater
      · left
        apply AList.ext
        rw [RedisDb.store_entries, RedisDb.store_entries, hSame]
      · exact .inl (h.store_same hKey.symm)
      · exact .inr hLater

theorem toMap_foldl_store_of_not_mem (db : RedisDb) {rs : List RdbRecord}
    (h : key ∉ rs.map RdbRecord.key) : (rs.foldl RedisDb.store db).toMap key = db.toMap key := by
  induction rs generalizing db with
  | nil => rfl
  | cons r rs ih =>
      rw [List.map_cons, List.mem_cons, not_or] at h
      rw [List.foldl_cons, ih _ h.2, RedisDb.toMap_store, Function.update_of_ne h.1]

theorem isSome_foldl_store (db : RedisDb) (rs : List RdbRecord) :
    ((rs.foldl RedisDb.store db).toMap key).isSome = true ↔
      (db.toMap key).isSome = true ∨ key ∈ rs.map RdbRecord.key := by
  induction rs generalizing db with
  | nil => simp
  | cons r rs ih =>
      rw [List.foldl_cons, ih, RedisDb.toMap_store, List.map_cons, List.mem_cons]
      by_cases hKey : key = r.key
      · simp [hKey]
      · rw [Function.update_of_ne hKey]
        simp [hKey]

/-- Two records that differ in their deadlines, and the same records after
them. -/
theorem foldl_store_eq_iff (db : RedisDb) (key value : Bytes) {e e' : Int} (hNe : e ≠ e')
    (hPos : 0 < e') (after : List RdbRecord) :
    after.foldl RedisDb.store (db.store ⟨key, value, e⟩) =
        after.foldl RedisDb.store (db.store ⟨key, value, e'⟩) ↔
      key ∈ after.map RdbRecord.key ∧ (0 < e ∨ (db.toMap key).isSome = true) := by
  have hTwins : Twins key (db.store ⟨key, value, e⟩) (db.store ⟨key, value, e'⟩) := by
    constructor
    · rw [RedisDb.store_entries, RedisDb.store_entries, List.map_cons, List.map_cons]
      simp [maskEntry]
    · rw [(db.store_counts _).1, (db.store_counts _).1]
  obtain ⟨hAll, hCount, hTables⟩ := hTwins.foldl_store after
  have hStart : (db.store ⟨key, value, e⟩).expiryCount = (db.store ⟨key, value, e'⟩).expiryCount ↔
      0 < e ∨ (db.toMap key).isSome = true := by
    rw [(db.store_counts _).2, (db.store_counts _).2]
    dsimp only
    cases (db.toMap key).isSome with
    | true => simp
    | false =>
        by_cases hSome : 0 < e
        · simp [hSome, hPos]
        · have hDiffer : db.expiryCount ≠ db.expiryCount + 1 := by
            intro hEq
            simp at hEq
          simp [hSome, hPos, hDiffer]
  constructor
  · intro hEq
    refine ⟨?_, ?_⟩
    · by_contra hLater
      have hMap := congrFun (congrArg RedisDb.toMap hEq) key
      rw [toMap_foldl_store_of_not_mem _ hLater, toMap_foldl_store_of_not_mem _ hLater,
        RedisDb.toMap_store, RedisDb.toMap_store, Function.update_self, Function.update_self] at hMap
      simp only [Option.some.injEq, RedisValue.mk.injEq, true_and] at hMap
      exact hNe hMap
    · rw [← hStart, ← hCount, hEq]
  · rintro ⟨hLater, hCounted⟩
    have hExpiry := hCount.mpr (hStart.mpr hCounted)
    have hTable := hTables (.inr hLater)
    have hKeys := hAll.keyCount
    generalize after.foldl RedisDb.store (db.store ⟨key, value, e⟩) = final at *
    generalize after.foldl RedisDb.store (db.store ⟨key, value, e'⟩) = final' at *
    rcases final with ⟨h, keyCount, expiryCount⟩
    rcases final' with ⟨h', keyCount', expiryCount'⟩
    simp only [RedisDb.mk.injEq]
    exact ⟨hTable, hKeys, hExpiry⟩

end Twins

section Forms

/-- The record with its expiry in seconds, and with the same one in
milliseconds. -/
def inSeconds (seconds : Nat) (post : Bytes) : Bytes := 0xFD :: littleEndian 4 seconds ++ post

def inMilliseconds (seconds : Nat) (post : Bytes) : Bytes :=
  0xFC :: littleEndian 8 (1000 * seconds) ++ post

/-- Both files give the same store, and where the record decides about its key
the deadline is that of the seconds. -/
def ExpiryFormsAgree (db : RedisDb) (start : Bytes) (count seconds : Nat) (post : Bytes) : Prop :=
  (rdbLoadDataFromFile db (some (start ++ inSeconds seconds post))).1 =
      (rdbLoadDataFromFile db (some (start ++ inMilliseconds seconds post))).1 ∧
    ∀ key value file, parseStrings post = some (some (key, value), file) →
      key ∉ (parseFrom count file).1.map RdbRecord.key →
      (rdbLoadDataFromFile db (some (start ++ inSeconds seconds post))).1.toMap key =
        some ⟨.str value, 1000 * seconds⟩

/-- The product stays below 32 bits, or the record is not stored, or a later one
takes its place and it is counted the same in both forms. -/
def ExpiryKept (db : RedisDb) (before : List RdbRecord) (count seconds : Nat) (post : Bytes) : Prop :=
  1000 * seconds < 2 ^ 32 ∨
    match parseStrings post with
    | some (some (key, _), file) =>
        key ∈ (parseFrom count file).1.map RdbRecord.key ∧
          (¬2 ^ 29 ∣ seconds ∨ (db.toMap key).isSome = true ∨ key ∈ before.map RdbRecord.key)
    | _ => True

variable {start post : Bytes} {before : List RdbRecord} {count seconds : Nat}

theorem parsePair_inSeconds (hs : seconds < 2 ^ 32) (post : Bytes) :
    parsePair (inSeconds seconds post) = (parseStrings post).map fun r =>
      (r.1.map fun p => ⟨p.1, p.2, (1000 * seconds % 2 ^ 32 : Nat)⟩, r.2) := by
  have hValue := fromLittleEndian_littleEndian 4 seconds
  have hNat : fromLittleEndian (littleEndian 4 seconds) = seconds := by omega
  have hSmall : ((seconds * 1000 % 2 ^ 32 : Nat) : Int).bmod (2 ^ 64) =
      (1000 * seconds % 2 ^ 32 : Nat) := by
    rw [Nat.mul_comm]
    exact Int.bmod_eq_of_le (by omega) (by omega)
  have hExpiry : loadExpiry (inSeconds seconds post) = some (seconds * 1000 % 2 ^ 32, post) := by
    simp [loadExpiry, inSeconds, hNat]
  simp only [parsePair, hExpiry, Option.bind_eq_bind, Option.bind_some, hSmall]
  cases parseStrings post <;> rfl

theorem parsePair_inMilliseconds (hs : seconds < 2 ^ 32) (post : Bytes) :
    parsePair (inMilliseconds seconds post) = (parseStrings post).map fun r =>
      (r.1.map fun p => ⟨p.1, p.2, 1000 * seconds⟩, r.2) := by
  have hValue := fromLittleEndian_littleEndian 8 (1000 * seconds)
  have hNat : fromLittleEndian (littleEndian 8 (1000 * seconds)) = 1000 * seconds := by omega
  have hSmall : ((1000 * seconds : Nat) : Int).bmod (2 ^ 64) = 1000 * seconds :=
    Int.bmod_eq_of_le (by omega) (by omega)
  have hExpiry : loadExpiry (inMilliseconds seconds post) = some (1000 * seconds, post) := by
    simp [loadExpiry, inMilliseconds, hNat]
  simp only [parsePair, hExpiry, Option.bind_eq_bind, Option.bind_some, hSmall]
  cases parseStrings post <;> rfl

/-- The seconds that the product makes 0. -/
theorem product_pos_iff :
    (0 : Int) < (1000 * seconds % 2 ^ 32 : Nat) ↔ ¬2 ^ 29 ∣ seconds := by
  omega

/-- The two forms of an expiry agree exactly where the product of the seconds
stays below 32 bits, or the record leaves no trace. -/
theorem expiry_forms_agree_iff (db : RedisDb) (post : Bytes) (hAt : AtRecord start before count)
    (hs : seconds < 2 ^ 32) :
    ExpiryFormsAgree db start count seconds post ↔ ExpiryKept db before count seconds post := by
  unfold ExpiryFormsAgree ExpiryKept
  simp only [rdbLoadDataFromFile_eq, hAt _, parseFrom_succ, parsePair_inSeconds hs,
    parsePair_inMilliseconds hs, List.foldl_append]
  cases hStrings : parseStrings post with
  | none => simp
  | some found =>
      obtain ⟨strings, file⟩ := found
      cases strings with
      | none => simp
      | some pair =>
          obtain ⟨key, value⟩ := pair
          have hBefore : ((before.foldl RedisDb.store db).toMap key).isSome = true ↔
              (db.toMap key).isSome = true ∨ key ∈ before.map RdbRecord.key :=
            isSome_foldl_store db before
          simp only [Option.map_some, Option.toList_some, List.singleton_append, List.foldl_cons]
          rw [← hBefore]
          generalize before.foldl RedisDb.store db = reached
          by_cases hSmall : 1000 * seconds < 2 ^ 32
          · -- nothing is cut off, and the two records are the same
            have hSame : ((1000 * seconds % 2 ^ 32 : Nat) : Int) = 1000 * seconds := by
              rw [Nat.mod_eq_of_lt hSmall]
              push_cast
              rfl
            rw [hSame]
            refine iff_of_true ⟨rfl, ?_⟩ (.inl hSmall)
            intro key' value' file' hFound hLast
            cases hFound
            rw [toMap_foldl_store_of_not_mem _ hLast, RedisDb.toMap_store, Function.update_self]
          · have hDiffer : ((1000 * seconds % 2 ^ 32 : Nat) : Int) ≠ 1000 * seconds := by omega
            rw [foldl_store_eq_iff reached key value hDiffer (by omega), product_pos_iff]
            constructor
            · exact fun h => .inr h.1
            · intro h
              have hKept := h.resolve_left hSmall
              refine ⟨hKept, fun key' value' file' hFound hLast => ?_⟩
              cases hFound
              exact absurd hKept.1 hLast

/-- The start of a file as the saver writes it, up to its first record. -/
theorem atRecord_saved {kvSize : UInt8} (h : kvSize ≠ 0) (expSize : UInt8) :
    AtRecord (rdbHeader ++ [0xFA, 0xFE] ++ [0xFB, kvSize, expSize]) [] (kvSize.toNat - 1) :=
  atSection_header.metadata.table h expSize

/-- The record of the key `k` with the value `v`, and the end of the file. -/
def lastRecord : Bytes := [0x00, 1, 107, 1, 118, 0xFF]

theorem parsePair_plain (rest : Bytes) :
    parsePair ([0x00, 1, 97, 1, 98] ++ rest) = some (some ⟨[97], [98], 0⟩, rest) := by
  rfl

/-- The second of two records, at the last second that is not cut. -/
theorem expiry_forms_agree_small :
    ExpiryFormsAgree redisDbCreate
      (rdbHeader ++ [0xFA, 0xFE] ++ [0xFB, 2, 1] ++ [0x00, 1, 97, 1, 98]) 0 4294967 lastRecord :=
  (expiry_forms_agree_iff redisDbCreate lastRecord
    ((atRecord_saved (by decide) 1).next parsePair_plain) (by decide)).mpr (.inl (by decide))

/-- An expiry of 1700000000 seconds, which is in November 2023: the seconds are
read as a deadline in February 1970. -/
theorem expiry_forms_differ :
    ¬ExpiryFormsAgree redisDbCreate (rdbHeader ++ [0xFA, 0xFE] ++ [0xFB, 1, 1]) 0 1700000000
      lastRecord := by
  rintro ⟨hSame, -⟩
  have hMap := congrArg (fun db => (db.toMap [107]).map RedisValue.expiration) hSame
  revert hMap
  decide

end Forms

end RedisServer
