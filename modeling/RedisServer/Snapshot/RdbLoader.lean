import RedisServer.Machine.Loop
import RedisServer.Snapshot.RdbRecords

/-! The loops of the loader, one turn at a time. Nothing bounds the number of
turns here: the loops end because each turn takes bytes from the file, also
where a byte was put back before it or where a string could not be read. The
loader that was given a bound is what they compute. -/
namespace RedisServer

open Machine

/-- The next byte of a stream, or its end, which stays. -/
def fgetc : Bytes → Option UInt8 × Bytes
  | [] => (none, [])
  | c :: file => (some c, file)

/-- Put a byte back. -/
def ungetc (c : UInt8) (file : Bytes) : Bytes := c :: file

/-- The loop the loader is in: over the opcodes, over the metadata, or over the
key-value pairs, of which it has read `i`; or the code it has returned. -/
inductive LoaderControl where
  | sections
  | metadata
  | pairs (i kvSize : Nat)
  | returned (code : Int)
  deriving DecidableEq

/-- The loader with the bytes of the file that it has not read. -/
structure Loader where
  db : RedisDb
  file : Bytes
  control : LoaderControl

namespace Loader

/-- A turn of the loop over the opcodes, or the part of it that comes before an
inner loop. The database selector falls through to the end of the file. -/
def sectionTurn (s : Loader) : Loader :=
  match fgetc s.file with
  | (none, file) => { s with file := file, control := .returned 0 }
  | (some opcode, file) =>
      if opcode = 0xFA then { s with file := file, control := .metadata }
      else if opcode = 0xFB then
        let (kvSize, file) := fgetc file
        let (expSize, file) := fgetc file
        match kvSize, expSize with
        | some kvSize, some _ => { s with file := file, control := .pairs 0 kvSize.toNat }
        | _, _ => { s with file := file, control := .returned 1 }
      else if opcode = 0xFE then
        match fgetc file with
        | (none, file) => { s with file := file, control := .returned 1 }
        | (some _, file) => { s with file := file, control := .returned 0 }
      else if opcode = 0xFF then { s with file := file, control := .returned 0 }
      else { s with file := file }

/-- A turn of the loop over the metadata. A string that cannot be read leaves
this loop only. -/
def metadataTurn (s : Loader) : Loader :=
  match fgetc s.file with
  | (none, file) => { s with file := file, control := .returned 1 }
  | (some next, file) =>
      if next = 0xFE then { s with file := file, control := .sections }
      else
        match readRdbString (ungetc next file) with
        | (none, file) => { s with file := file, control := .sections }
        | (some _, file) =>
            match readRdbString file with
            | (none, file) => { s with file := file, control := .sections }
            | (some _, file) => { s with file := file }

/-- A turn of the loop over the key-value pairs. -/
def pairTurn (i kvSize : Nat) (s : Loader) : Loader :=
  if i < kvSize then
    match loadPair s.db s.file with
    | none => { s with control := .returned 1 }
    | some (db, file) => ⟨db, file, .pairs (i + 1) kvSize⟩
  else { s with control := .sections }

def turn (s : Loader) : Loader :=
  match s.control with
  | .sections => s.sectionTurn
  | .metadata => s.metadataTurn
  | .pairs i kvSize => s.pairTurn i kvSize
  | .returned _ => s

def running (s : Loader) : Bool :=
  match s.control with
  | .returned _ => false
  | _ => true

/-- One turn, and whether there is another one. -/
def step (s : Loader) : Loader × Bool := (s.turn, s.turn.running)

/-- The loader when it has read the header of a file. -/
def start (db : RedisDb) (file : Bytes) : Loader :=
  if file.length < 9 then ⟨db, [], .returned 1⟩
  else ⟨db, file.drop 9, if file.take 9 ≠ rdbHeader then .returned 1 else .sections⟩

section Turns

variable {s t : Loader}

theorem continues_iff : Continues step s t ↔ s.turn = t ∧ t.running = true := by
  rw [Continues, step, Prod.mk.injEq]
  constructor
  · rintro ⟨rfl, hRunning⟩
    exact ⟨rfl, hRunning⟩
  · rintro ⟨rfl, hRunning⟩
    exact ⟨rfl, hRunning⟩

/-- A turn of the opcode loop that goes on, or goes into an inner loop, has
taken the opcode. -/
theorem sectionTurn_length (s : Loader) (h : s.sectionTurn.running = true) :
    s.sectionTurn.file.length < s.file.length := by
  unfold sectionTurn at h ⊢
  cases hFile : s.file with
  | nil =>
      rw [hFile] at h
      cases h
  | cons opcode file =>
      rw [hFile] at h
      simp only [fgetc] at h ⊢
      split
      · exact Nat.lt_succ_self _
      split
      · rcases file with - | ⟨kvSize, - | ⟨expSize, file⟩⟩
        · simp
        · simp
        · simp only [List.length_cons]
          omega
      split
      · rcases file with - | ⟨index, file⟩
        · simp
        · simp only [List.length_cons]
          omega
      split
      · exact Nat.lt_succ_self _
      · exact Nat.lt_succ_self _

/-- A turn of the metadata loop that does not end the loader has taken a byte:
the one that was put back is read again. -/
theorem metadataTurn_length (s : Loader) (h : s.metadataTurn.running = true) :
    s.metadataTurn.file.length < s.file.length := by
  unfold metadataTurn at h ⊢
  cases hFile : s.file with
  | nil =>
      rw [hFile] at h
      cases h
  | cons next file =>
      have hKey := readRdbString_length_le next file
      simp only [fgetc, ungetc]
      split
      · exact Nat.lt_succ_self _
      · generalize readRdbString (next :: file) = found at hKey ⊢
        obtain ⟨- | key, rest⟩ := found
        · exact Nat.lt_succ_of_le hKey
        · have hValue := readRdbString_rest_le rest
          dsimp only at hKey ⊢
          generalize readRdbString rest = found at hValue ⊢
          obtain ⟨- | value, rest'⟩ := found
          · exact Nat.lt_succ_of_le (hValue.trans hKey)
          · exact Nat.lt_succ_of_le (hValue.trans hKey)

/-- A record that was read has taken its type at least. -/
theorem loadPair_length_lt {db db' : RedisDb} {file file' : Bytes}
    (h : loadPair db file = some (db', file')) : file'.length < file.length := by
  unfold loadPair at h
  cases hExpiry : loadExpiry file with
  | none =>
      rw [hExpiry] at h
      cases h
  | some found =>
      obtain ⟨expireTime, body⟩ := found
      have hBody := loadExpiry_length_le hExpiry
      rw [hExpiry] at h
      cases body with
      | nil =>
          cases h
          cases file with
          | nil => cases hExpiry
          | cons type file => exact Nat.succ_pos _
      | cons type body =>
          rw [List.length_cons] at hBody
          dsimp only at h
          split at h
          · have hKey := readRdbString_rest_le body
            generalize readRdbString body = found at h hKey
            obtain ⟨- | key, rest⟩ := found
            · cases h
            · have hValue := readRdbString_rest_le rest
              dsimp only at h hKey
              generalize readRdbString rest = found at h hValue
              obtain ⟨- | value, rest'⟩ := found
              · cases h
              · cases h
                exact Nat.lt_of_le_of_lt (hValue.trans hKey) hBody
          · cases h
            exact hBody

theorem pairTurn_length {i kvSize : Nat} (h : i < kvSize) (s : Loader)
    (hOn : (s.pairTurn i kvSize).running = true) :
    (s.pairTurn i kvSize).file.length < s.file.length := by
  unfold pairTurn at hOn ⊢
  rw [if_pos h] at hOn ⊢
  cases hPair : loadPair s.db s.file with
  | none =>
      rw [hPair] at hOn
      cases hOn
  | some found => exact loadPair_length_lt hPair

/-- What a turn that is not the last one does: it takes bytes, or it leaves the
loop over the pairs. -/
theorem turn_cases (hOn : s.turn.running = true) :
    s.turn.file.length < s.file.length ∨
      ∃ i kvSize, s.control = .pairs i kvSize ∧ s.turn = { s with control := .sections } := by
  unfold turn at hOn ⊢
  cases hControl : s.control with
  | sections =>
      rw [hControl] at hOn
      exact .inl (s.sectionTurn_length hOn)
  | metadata =>
      rw [hControl] at hOn
      exact .inl (s.metadataTurn_length hOn)
  | pairs i kvSize =>
      rw [hControl] at hOn
      by_cases hMore : i < kvSize
      · exact .inl (s.pairTurn_length hMore hOn)
      · exact .inr ⟨i, kvSize, rfl, if_neg hMore⟩
  | returned code =>
      simp only [hControl, running] at hOn
      cases hOn

theorem length_le_of_continues (h : Continues step s t) : t.file.length ≤ s.file.length := by
  obtain ⟨rfl, hOn⟩ := continues_iff.mp h
  rcases turn_cases hOn with hLess | ⟨i, kvSize, -, hTurn⟩
  · exact hLess.le
  · rw [hTurn]

theorem length_le_of_visits (h : Visits step s t) : t.file.length ≤ s.file.length := by
  induction h with
  | refl => exact le_rfl
  | tail _ hNext ih => exact (length_le_of_continues hNext).trans ih

/-- From one turn of the opcode loop to a later one, through the inner loops. -/
theorem length_lt_of_sections (hControl : s.control = .sections)
    (h : Relation.TransGen (Continues step) s t) : t.file.length < s.file.length := by
  obtain ⟨m, hFirst, hRest⟩ := Relation.TransGen.head'_iff.mp h
  have hLess : m.file.length < s.file.length := by
    obtain ⟨rfl, hOn⟩ := continues_iff.mp hFirst
    rcases turn_cases hOn with hLess | ⟨i, kvSize, hPairs, -⟩
    · exact hLess
    · rw [hControl] at hPairs
      cases hPairs
  exact Nat.lt_of_le_of_lt (length_le_of_visits hRest) hLess

end Turns

section Results

variable {db : RedisDb} {file : Bytes}

theorem continues_of_turn {s t : Loader} (h : s.turn = t) (hOn : t.running = true) :
    Continues step s t := continues_iff.mpr ⟨h, hOn⟩

theorem ends_of_turn {s t : Loader} (h : s.turn = t) (hOff : t.running = false) :
    Ends step s t := by
  apply Ends.of_stop
  rw [step, h, hOff]

/-- The metadata loop computes what the bounded one computes. -/
theorem metadata_spec (db : RedisDb) {fuel : Nat} (hFuel : file.length ≤ fuel) :
    match loadMetadata fuel file with
    | none => ∃ rest, Ends step ⟨db, file, .metadata⟩ ⟨db, rest, .returned 1⟩
    | some rest => Visits step ⟨db, file, .metadata⟩ ⟨db, rest, .sections⟩ := by
  induction fuel generalizing file with
  | zero =>
      obtain rfl := List.length_eq_zero_iff.mp (Nat.le_zero.mp hFuel)
      exact ⟨[], ends_of_turn rfl rfl⟩
  | succ fuel ih =>
      cases file with
      | nil => exact ⟨[], ends_of_turn rfl rfl⟩
      | cons next file =>
          have hKey := readRdbString_length_le next file
          have hTurn : turn ⟨db, next :: file, .metadata⟩ =
              metadataTurn ⟨db, next :: file, .metadata⟩ := rfl
          simp only [metadataTurn, fgetc, ungetc] at hTurn
          simp only [loadMetadata]
          rw [List.length_cons] at hFuel
          split at hTurn
          · rename_i hEnd
            rw [if_pos hEnd]
            exact Relation.ReflTransGen.single (continues_of_turn hTurn rfl)
          · rename_i hEnd
            rw [if_neg hEnd]
            generalize readRdbString (next :: file) = found at hTurn hKey ⊢
            obtain ⟨- | key, rest⟩ := found
            · exact Relation.ReflTransGen.single (continues_of_turn hTurn rfl)
            · have hValue := readRdbString_rest_le rest
              dsimp only at hTurn hKey ⊢
              generalize readRdbString rest = found at hTurn hValue ⊢
              obtain ⟨- | value, rest'⟩ := found
              · exact Relation.ReflTransGen.single (continues_of_turn hTurn rfl)
              · have hNext := continues_of_turn hTurn rfl
                dsimp only at hValue hNext ⊢
                have hRest := ih (show rest'.length ≤ fuel by omega)
                generalize loadMetadata fuel rest' = result at hRest ⊢
                cases result with
                | none =>
                    obtain ⟨last, hLast⟩ := hRest
                    exact ⟨last, hLast.of_continues hNext⟩
                | some last => exact hRest.head hNext

/-- The loop over the pairs that are left. -/
theorem pairs_spec (db : RedisDb) (file : Bytes) (count i : Nat) :
    match loadPairs count db file with
    | (next, none) => ∃ rest, Ends step ⟨db, file, .pairs i (i + count)⟩ ⟨next, rest, .returned 1⟩
    | (next, some rest) => Visits step ⟨db, file, .pairs i (i + count)⟩ ⟨next, rest, .sections⟩ := by
  induction count generalizing db file i with
  | zero =>
      have hTurn : turn ⟨db, file, .pairs i (i + 0)⟩ = ⟨db, file, .sections⟩ :=
        if_neg (Nat.lt_irrefl i)
      exact Relation.ReflTransGen.single (continues_of_turn hTurn rfl)
  | succ count ih =>
      have hTurn : turn ⟨db, file, .pairs i (i + (count + 1))⟩ =
          match loadPair db file with
          | none => ⟨db, file, .returned 1⟩
          | some (db, file) => ⟨db, file, .pairs (i + 1) (i + (count + 1))⟩ :=
        if_pos (by omega)
      rw [loadPairs]
      cases hPair : loadPair db file with
      | none =>
          rw [hPair] at hTurn
          exact ⟨file, ends_of_turn hTurn rfl⟩
      | some found =>
          obtain ⟨next, body⟩ := found
          rw [hPair] at hTurn
          have hNext := continues_of_turn hTurn rfl
          have hRest := ih next body (i + 1)
          rw [Nat.add_right_comm, Nat.add_assoc] at hRest
          dsimp only at hNext ⊢
          generalize loadPairs count next body = result at hRest ⊢
          obtain ⟨last, - | rest⟩ := result
          · obtain ⟨rest, hLast⟩ := hRest
            exact ⟨rest, hLast.of_continues hNext⟩
          · exact hRest.head hNext

/-- The loader ends from here, with this store and this code. -/
def Returns (s : Loader) (result : RedisDb × Int) : Prop :=
  ∃ rest, Ends step s ⟨result.1, rest, .returned result.2⟩

theorem Returns.of_continues {s t : Loader} {result : RedisDb × Int} (hNext : Continues step s t)
    (h : t.Returns result) : s.Returns result := by
  obtain ⟨rest, hLast⟩ := h
  exact ⟨rest, hLast.of_continues hNext⟩

theorem Returns.of_visits {s t : Loader} {result : RedisDb × Int} (hVisits : Visits step s t)
    (h : t.Returns result) : s.Returns result := by
  obtain ⟨rest, hLast⟩ := h
  exact ⟨rest, Ends.of_visits hVisits hLast⟩

/-- The metadata loop, and whatever the opcode loop does behind it. -/
theorem returns_metadata (db : RedisDb) {next : Bytes → RedisDb × Int}
    (hNext : ∀ rest, rest.length ≤ file.length → Returns ⟨db, rest, .sections⟩ (next rest)) :
    Returns ⟨db, file, .metadata⟩
      (match loadMetadata file.length file with
        | none => (db, 1)
        | some rest => next rest) := by
  have hInner := metadata_spec db (le_refl file.length)
  cases hLoad : loadMetadata file.length file with
  | none =>
      rw [hLoad] at hInner
      exact hInner
  | some rest =>
      rw [hLoad] at hInner
      exact (hNext rest (loadMetadata_length_le hLoad)).of_visits hInner

/-- The loop over the pairs, and whatever the opcode loop does behind it. -/
theorem returns_pairs (db : RedisDb) (file : Bytes) (count : Nat)
    {next : RedisDb → Bytes → RedisDb × Int}
    (hNext : ∀ db' rest, rest.length ≤ file.length →
      Returns ⟨db', rest, .sections⟩ (next db' rest)) :
    Returns ⟨db, file, .pairs 0 count⟩
      (match loadPairs count db file with
        | (db', none) => (db', 1)
        | (db', some rest) => next db' rest) := by
  have hInner := pairs_spec db file count 0
  rw [Nat.zero_add] at hInner
  generalize loadPairs count db file = found at hInner ⊢
  obtain ⟨db', - | rest⟩ := found
  · exact hInner
  · exact (hNext db' rest (length_le_of_visits hInner)).of_visits hInner

/-- The opcode loop returns what the bounded one computes. -/
theorem sections_spec (db : RedisDb) {fuel : Nat} (hFuel : file.length ≤ fuel) :
    Returns ⟨db, file, .sections⟩ (loadSections fuel db file) := by
  induction fuel generalizing db file with
  | zero =>
      obtain rfl := List.length_eq_zero_iff.mp (Nat.le_zero.mp hFuel)
      exact ⟨[], ends_of_turn rfl rfl⟩
  | succ fuel ih =>
      cases file with
      | nil => exact ⟨[], ends_of_turn rfl rfl⟩
      | cons opcode file =>
          have hTurn : turn ⟨db, opcode :: file, .sections⟩ =
              sectionTurn ⟨db, opcode :: file, .sections⟩ := rfl
          simp only [sectionTurn, fgetc] at hTurn
          simp only [loadSections]
          rw [List.length_cons] at hFuel
          split at hTurn
          · rename_i hMeta
            rw [if_pos hMeta]
            refine (returns_metadata db fun rest hLength => ih db ?_).of_continues
              (continues_of_turn hTurn rfl)
            omega
          rename_i hMeta
          rw [if_neg hMeta]
          split at hTurn
          · rename_i hTable
            rw [if_pos hTable]
            rcases file with - | ⟨kvSize, - | ⟨expSize, file⟩⟩
            · exact ⟨[], ends_of_turn hTurn rfl⟩
            · exact ⟨[], ends_of_turn hTurn rfl⟩
            · simp only [List.length_cons] at hFuel
              refine (returns_pairs db file kvSize.toNat fun db' rest hLength =>
                ih db' ?_).of_continues (continues_of_turn hTurn rfl)
              omega
          rename_i hTable
          rw [if_neg hTable]
          split at hTurn
          · rename_i hSelector
            rw [if_pos hSelector]
            rcases file with - | ⟨index, file⟩
            · exact ⟨[], ends_of_turn hTurn rfl⟩
            · exact ⟨file, ends_of_turn hTurn rfl⟩
          rename_i hSelector
          rw [if_neg hSelector]
          split at hTurn
          · rename_i hEnd
            rw [if_pos hEnd]
            exact ⟨file, ends_of_turn hTurn rfl⟩
          · rename_i hEnd
            rw [if_neg hEnd]
            exact (ih db (show file.length ≤ fuel by omega)).of_continues
              (continues_of_turn hTurn rfl)

end Results

end Loader

/-- The loader finishes on every file, with the code and the store of
`rdbLoadDataFromFile`. A turn of the opcode loop, with the loops inside of it,
and a turn of the metadata loop leave the loop or take bytes from the file. -/
theorem rdb_loader_terminates (db : RedisDb) (file : Bytes) :
    (∃ last code, Ends Loader.step (.start db file) last ∧ last.control = .returned code ∧
      rdbLoadDataFromFile db (some file) = (last.db, code)) ∧
    (∀ s t : Loader, s.control = .sections → t.control = .sections →
      Relation.TransGen (Continues Loader.step) s t → t.file.length < s.file.length) ∧
    ∀ s : Loader, s.control = .metadata →
      s.turn.control ≠ .metadata ∨ s.turn.file.length < s.file.length := by
  refine ⟨?_, fun s t hs _ h => Loader.length_lt_of_sections hs h, fun s hs => ?_⟩
  · unfold Loader.start
    simp only [rdbLoadDataFromFile]
    split
    · exact ⟨_, _, Loader.ends_of_turn rfl rfl, rfl, rfl⟩
    split
    · exact ⟨_, _, Loader.ends_of_turn rfl rfl, rfl, rfl⟩
    · have hLength : (file.drop 9).length ≤ file.length := by
        rw [List.length_drop]
        omega
      obtain ⟨rest, hLast⟩ := Loader.sections_spec db hLength
      exact ⟨_, _, hLast, rfl, rfl⟩
  · by_cases hStays : s.turn.control = .metadata
    · right
      have hOn : s.turn.running = true := by rw [Loader.running, hStays]
      rcases Loader.turn_cases hOn with hLess | ⟨i, kvSize, hPairs, -⟩
      · exact hLess
      · rw [hs] at hPairs
        cases hPairs
    · exact .inl hStays

/-- A file whose metadata ends in a string of a form that is not read: the string
takes its first byte, and the opcode loop goes on behind it. -/
theorem rdb_loader_terminates_unread :
    (∃ last code, Ends Loader.step (.start redisDbCreate (rdbHeader ++ [0xFA, 1, 97, 0xC3, 7])) last ∧
      last.control = .returned code ∧
      rdbLoadDataFromFile redisDbCreate (some (rdbHeader ++ [0xFA, 1, 97, 0xC3, 7])) =
        (last.db, code)) ∧
    (⟨redisDbCreate, [7], .sections⟩ : Loader).file.length <
      (⟨redisDbCreate, [7, 7], .sections⟩ : Loader).file.length ∧
    ((⟨redisDbCreate, [1, 97, 0xC3, 7], .metadata⟩ : Loader).turn.control ≠ .metadata ∨
      (⟨redisDbCreate, [1, 97, 0xC3, 7], .metadata⟩ : Loader).turn.file.length <
        (⟨redisDbCreate, [1, 97, 0xC3, 7], .metadata⟩ : Loader).file.length) :=
  ⟨(rdb_loader_terminates redisDbCreate (rdbHeader ++ [0xFA, 1, 97, 0xC3, 7])).1,
    (rdb_loader_terminates redisDbCreate []).2.1 ⟨redisDbCreate, [7, 7], .sections⟩
      ⟨redisDbCreate, [7], .sections⟩ rfl rfl
      (.single (Loader.continues_of_turn rfl rfl)),
    (rdb_loader_terminates redisDbCreate []).2.2 ⟨redisDbCreate, [1, 97, 0xC3, 7], .metadata⟩ rfl⟩

end RedisServer
