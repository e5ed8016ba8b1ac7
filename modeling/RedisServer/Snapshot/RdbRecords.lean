import RedisServer.Snapshot.Rdb

/-! What the loader takes from a file, apart from the store it puts it into.
The store decides nothing about how a file is read, so two files can be
compared by the records that are read from them. -/
namespace RedisServer

open Machine

/-- A string with its key and its deadline, as it is stored. -/
structure RdbRecord where
  key : Bytes
  value : Bytes
  expiration : Int
  deriving DecidableEq

def RedisDb.store (db : RedisDb) (r : RdbRecord) : RedisDb :=
  redisDbSet db r.key r.value r.expiration

/-- A record after its expiry: a key and a value, or nothing where the type is
not that of a string. There is no result when a string cannot be read. -/
def parseStrings : Bytes → Option (Option (Bytes × Bytes) × Bytes)
  | [] => some (none, [])
  | type :: file =>
      if type = 0x00 then
        match readRdbString file with
        | (none, _) => none
        | (some key, file) =>
            match readRdbString file with
            | (none, _) => none
            | (some value, file) => some (some (key, value), file)
      else some (none, file)

def parsePair (file : Bytes) : Option (Option RdbRecord × Bytes) := do
  let (expireTime, file) ← loadExpiry file
  let (strings, file) ← parseStrings file
  some (strings.map fun s => ⟨s.1, s.2, (expireTime : Int).bmod (2 ^ 64)⟩, file)

def parsePairs : Nat → Bytes → List RdbRecord × Option Bytes
  | 0, file => ([], some file)
  | count + 1, file =>
      match parsePair file with
      | none => ([], none)
      | some (r, file) => (r.toList ++ (parsePairs count file).1, (parsePairs count file).2)

def parseSections : Nat → Bytes → List RdbRecord × Int
  | _, [] => ([], 0)
  | 0, _ => ([], 0)
  | fuel + 1, opcode :: file =>
      if opcode = 0xFA then
        match loadMetadata file.length file with
        | none => ([], 1)
        | some file => parseSections fuel file
      else if opcode = 0xFB then
        match file with
        | kvSize :: _ :: file =>
            match parsePairs kvSize.toNat file with
            | (rs, none) => (rs, 1)
            | (rs, some file) => (rs ++ (parseSections fuel file).1, (parseSections fuel file).2)
        | _ => ([], 1)
      else if opcode = 0xFE then
        match file with
        | [] => ([], 1)
        | _ :: _ => ([], 0)
      else if opcode = 0xFF then ([], 0)
      else parseSections fuel file

def parseFile (file : Bytes) : List RdbRecord × Int :=
  if file.length < 9 then ([], 1)
  else if file.take 9 ≠ rdbHeader then ([], 1)
  else parseSections file.length (file.drop 9)

section Stores

theorem loadPair_eq (db : RedisDb) (file : Bytes) :
    loadPair db file = (parsePair file).map fun r => (r.1.toList.foldl RedisDb.store db, r.2) := by
  unfold loadPair parsePair
  cases loadExpiry file with
  | none => rfl
  | some found =>
      obtain ⟨expireTime, file⟩ := found
      cases file with
      | nil => rfl
      | cons type file =>
          simp only [parseStrings, Option.bind_eq_bind, Option.bind_some]
          split
          · rcases readRdbString file with ⟨- | key, file⟩
            · rfl
            · dsimp only
              rcases readRdbString file with ⟨- | value, file⟩
              · rfl
              · simp [RedisDb.store]
          · rfl

theorem loadPairs_eq (count : Nat) (db : RedisDb) (file : Bytes) :
    loadPairs count db file =
      ((parsePairs count file).1.foldl RedisDb.store db, (parsePairs count file).2) := by
  induction count generalizing db file with
  | zero => rfl
  | succ count ih =>
      simp only [loadPairs, parsePairs, loadPair_eq]
      cases parsePair file with
      | none => rfl
      | some found =>
          obtain ⟨r, file⟩ := found
          simp only [Option.map_some, ih, List.foldl_append]

/-- The sections store the records that are read from them. -/
theorem loadSections_eq (fuel : Nat) (db : RedisDb) (file : Bytes) :
    loadSections fuel db file =
      ((parseSections fuel file).1.foldl RedisDb.store db, (parseSections fuel file).2) := by
  induction fuel generalizing db file with
  | zero => cases file <;> rfl
  | succ fuel ih =>
      cases file with
      | nil => rfl
      | cons opcode file =>
          simp only [loadSections, parseSections]
          split
          · cases loadMetadata file.length file with
            | none => rfl
            | some file => exact ih db file
          split
          · rcases file with - | ⟨kvSize, - | ⟨expSize, file⟩⟩
            · rfl
            · rfl
            · simp only [loadPairs_eq]
              rcases parsePairs kvSize.toNat file with ⟨rs, - | file⟩
              · rfl
              · simp only [ih, List.foldl_append]
          split
          · cases file <;> rfl
          split
          · rfl
          · exact ih db file

theorem rdbLoadDataFromFile_eq (db : RedisDb) (file : Bytes) :
    rdbLoadDataFromFile db (some file) =
      ((parseFile file).1.foldl RedisDb.store db, (parseFile file).2) := by
  simp only [rdbLoadDataFromFile, parseFile]
  split
  · rfl
  split
  · rfl
  · exact loadSections_eq _ db _

end Stores

section Progress

theorem readRdbBody_length_le (len : Int) (file : Bytes) :
    (readRdbBody len file).2.length ≤ file.length := by
  unfold readRdbBody
  split_ifs <;> simp

theorem readRdbInteger_length_le (width : Nat) (file : Bytes) :
    (readRdbInteger width file).2.length ≤ file.length := by
  unfold readRdbInteger
  split_ifs <;> simp

theorem readRdbLength_length_le (count : Nat) (len : Int) (file : Bytes) :
    (readRdbLength count len file).2.length ≤ file.length := by
  induction count generalizing len file with
  | zero => exact le_rfl
  | succ count ih =>
      cases file with
      | nil => exact le_rfl
      | cons byte file =>
          rw [readRdbLength_cons, List.length_cons]
          split
          · exact Nat.le_succ _
          · exact (ih _ _).trans (Nat.le_succ _)

/-- A string read takes at least one byte, whether it succeeds or not. -/
theorem readRdbString_length_le (first : UInt8) (file : Bytes) :
    (readRdbString (first :: file)).2.length ≤ file.length := by
  simp only [readRdbString]
  split
  · exact readRdbBody_length_le _ _
  split
  · cases file with
    | nil => exact le_rfl
    | cons second file => exact (readRdbBody_length_le _ _).trans (Nat.le_succ _)
  split
  · have hLength := readRdbLength_length_le 4 0 file
    generalize readRdbLength 4 0 file = found at hLength
    obtain ⟨len, body⟩ := found
    cases len with
    | none => exact hLength
    | some len => exact (readRdbBody_length_le _ _).trans hLength
  split
  · exact readRdbInteger_length_le _ _
  split
  · exact readRdbInteger_length_le _ _
  split
  · exact readRdbInteger_length_le _ _
  · exact le_rfl

theorem readRdbString_rest_le (file : Bytes) : (readRdbString file).2.length ≤ file.length := by
  cases file with
  | nil => exact le_rfl
  | cons first file => exact (readRdbString_length_le first file).trans (Nat.le_succ _)

theorem loadMetadata_length_le {fuel : Nat} {file file' : Bytes}
    (h : loadMetadata fuel file = some file') : file'.length ≤ file.length := by
  induction fuel generalizing file with
  | zero => cases file <;> cases h
  | succ fuel ih =>
      cases file with
      | nil => cases h
      | cons next file =>
          have hKey := readRdbString_length_le next file
          simp only [loadMetadata] at h
          split at h
          · cases h
            exact Nat.le_succ _
          · generalize readRdbString (next :: file) = key at h hKey
            obtain ⟨key, rest⟩ := key
            cases key with
            | none =>
                cases h
                exact hKey.trans (Nat.le_succ _)
            | some key =>
                have hValue := readRdbString_rest_le rest
                dsimp only at h hKey
                generalize readRdbString rest = value at h hValue
                obtain ⟨value, rest'⟩ := value
                rw [List.length_cons]
                cases value with
                | none =>
                    cases h
                    dsimp only at hValue
                    omega
                | some value =>
                    have := ih h
                    dsimp only at hValue
                    omega

theorem loadExpiry_length_le {file file' : Bytes} {expireTime : Nat}
    (h : loadExpiry file = some (expireTime, file')) : file'.length ≤ file.length := by
  cases file with
  | nil => cases h
  | cons type file =>
      simp only [loadExpiry] at h
      split_ifs at h
      · cases h
        simp only [List.length_drop, List.length_cons]
        omega
      · cases h
        simp only [List.length_drop, List.length_cons]
        omega
      · cases h
        exact le_rfl

theorem parseStrings_length_le {file file' : Bytes} {strings : Option (Bytes × Bytes)}
    (h : parseStrings file = some (strings, file')) : file'.length ≤ file.length := by
  cases file with
  | nil =>
      cases h
      exact le_rfl
  | cons type file =>
      simp only [parseStrings] at h
      split at h
      · have hKey := readRdbString_rest_le file
        generalize readRdbString file = found at h hKey
        obtain ⟨- | key, rest⟩ := found
        · cases h
        · have hValue := readRdbString_rest_le rest
          dsimp only at h hKey
          generalize readRdbString rest = found at h hValue
          obtain ⟨- | value, rest'⟩ := found
          · cases h
          · cases h
            exact (hValue.trans hKey).trans (Nat.le_succ _)
      · cases h
        exact Nat.le_succ _

theorem parsePairs_length_le {count : Nat} {file file' : Bytes} {rs : List RdbRecord}
    (h : parsePairs count file = (rs, some file')) : file'.length ≤ file.length := by
  induction count generalizing file rs with
  | zero =>
      cases h
      exact le_rfl
  | succ count ih =>
      unfold parsePairs parsePair at h
      cases hExpiry : loadExpiry file with
      | none =>
          rw [hExpiry] at h
          cases h
      | some found =>
          obtain ⟨expireTime, body⟩ := found
          simp only [hExpiry, Option.bind_eq_bind, Option.bind_some] at h
          cases hStrings : parseStrings body with
          | none =>
              rw [hStrings] at h
              cases h
          | some found =>
              obtain ⟨strings, rest⟩ := found
              simp only [hStrings, Option.bind_some, Prod.mk.injEq] at h
              have hRest := ih (Prod.ext rfl h.2)
              exact hRest.trans ((parseStrings_length_le hStrings).trans (loadExpiry_length_le hExpiry))

/-- The bound on the number of sections is never reached. -/
theorem parseSections_enough (file : Bytes) {fuel : Nat} (h : file.length ≤ fuel) :
    parseSections (fuel + 1) file = parseSections fuel file := by
  induction fuel generalizing file with
  | zero =>
      obtain rfl := List.length_eq_zero_iff.mp (Nat.le_zero.mp h)
      rfl
  | succ fuel ih =>
      cases file with
      | nil => rfl
      | cons opcode file =>
          rw [List.length_cons] at h
          have hFile : file.length ≤ fuel := by omega
          simp only [parseSections]
          split
          · cases hMeta : loadMetadata file.length file with
            | none => rfl
            | some rest => exact ih rest ((loadMetadata_length_le hMeta).trans hFile)
          split
          · rcases file with - | ⟨kvSize, - | ⟨expSize, file⟩⟩
            · rfl
            · rfl
            · cases hPairs : parsePairs kvSize.toNat file with
              | mk rs rest =>
                  cases rest with
                  | none => simp only [hPairs]
                  | some rest =>
                      have hLength := parsePairs_length_le hPairs
                      rw [List.length_cons, List.length_cons] at hFile
                      simp only [hPairs, ih rest (hLength.trans (by omega))]
          split
          · rfl
          split
          · rfl
          · exact ih file hFile

/-- Sections read with any sufficient bound. -/
theorem parseSections_eq (file : Bytes) {fuel : Nat} (h : file.length ≤ fuel) :
    parseSections fuel file = parseSections file.length file := by
  induction fuel, h using Nat.le_induction with
  | base => rfl
  | succ fuel h ih => rw [parseSections_enough file h, ih]

end Progress

end RedisServer
