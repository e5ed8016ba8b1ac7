import RedisServer.Snapshot.RdbExpiry

/-! Files that end too early. The loader reports the end of the file from
within a record, but not where it looks for the next section, and not after the
expiry of the last record that is counted. -/
namespace RedisServer

open Machine

/-- What a `char *` whose length is an `int`, with the terminator, can be. -/
structure IsText (s : Bytes) : Prop where
  nul : (0 : UInt8) ∉ s
  length : s.length < 2 ^ 31 - 1

/-- The strings that the codec can read back at all. -/
def Readable (s : Bytes) : Prop :=
  IntegerCoded s ∨ s.length < 16384 ∨ (0xFF : UInt8) ∉ bigEndian 4 s.length

section Strings

variable {s : Bytes}

theorem read_of_readable (hs : IsText s) (h : Readable s) :
    ∃ t, ∀ rest, readRdbString ((writeRdbString s).1 ++ rest) = (some t, rest) := by
  have hLength := hs.length
  by_cases hCoded : IntegerCoded s
  · exact ⟨_, fun rest => readRdbString_of_integerCoded rest hCoded⟩
  · refine ⟨s, fun rest => ?_⟩
    rw [writeRdbString_of_text (by omega) hCoded]
    split
    · rename_i hShort
      exact readRdbString_short rest hs.nul hShort
    split
    · rename_i hMedium
      exact readRdbString_medium rest hs.nul hMedium
    · rename_i hLong
      have hFF : (0xFF : UInt8) ∉ bigEndian 4 s.length := by
        rcases h with h | h | h
        · exact absurd h hCoded
        · omega
        · exact h
      exact readRdbString_long rest hs.nul (by omega) hFF

theorem read_of_not_readable (hs : IsText s) (h : ¬Readable s) (rest : Bytes) :
    (readRdbString ((writeRdbString s).1 ++ rest)).1 = none := by
  have hLength := hs.length
  unfold Readable at h
  rw [not_or, not_or, not_not] at h
  obtain ⟨hCoded, hLong, hFF⟩ := h
  rw [writeRdbString_of_text (by omega) hCoded, if_neg (by omega), if_neg (by omega)]
  exact readRdbString_long_of_mem rest hFF

/-- A string that is cut is not read: what was read could be read on with the
rest, and would then leave that rest unread. -/
theorem read_of_cut (hs : IsText s) {m : Nat} (h : m < (writeRdbString s).1.length) :
    (readRdbString ((writeRdbString s).1.take m)).1 = none := by
  have hLength := hs.length
  cases hRead : readRdbString ((writeRdbString s).1.take m) with
  | mk found file =>
      cases found with
      | none => rfl
      | some t =>
          have hAll := readRdbString_extend ((writeRdbString s).1.drop m) hRead
          rw [List.take_append_drop] at hAll
          have hNil : file ++ (writeRdbString s).1.drop m = [] :=
            (readRdbString_written [] hs.nul (by omega) (by rw [List.append_nil]; exact hAll)).1
          have hDrop := congrArg List.length (List.append_eq_nil_iff.mp hNil).2
          rw [List.length_drop, List.length_nil] at hDrop
          omega

end Strings

/-- A string with its key, after the expiry. -/
def stringRecord (key s : Bytes) : Bytes := 0x00 :: (writeRdbString key).1 ++ (writeRdbString s).1

section Records

variable {key s : Bytes}

theorem parseStrings_whole (hKey : IsText key) (hs : IsText s) (rest : Bytes) :
    (Readable key ∧ Readable s → ∃ found, parseStrings (stringRecord key s ++ rest) =
        some (some found, rest)) ∧
      (¬(Readable key ∧ Readable s) → parseStrings (stringRecord key s ++ rest) = none) := by
  have hBytes : stringRecord key s ++ rest =
      0x00 :: ((writeRdbString key).1 ++ ((writeRdbString s).1 ++ rest)) := by
    simp [stringRecord]
  rw [hBytes]
  simp only [parseStrings, ↓reduceIte]
  by_cases hKeyRead : Readable key
  · obtain ⟨k, hk⟩ := read_of_readable hKey hKeyRead
    rw [hk]
    dsimp only
    by_cases hRead : Readable s
    · obtain ⟨t, ht⟩ := read_of_readable hs hRead
      rw [ht]
      exact ⟨fun _ => ⟨(k, t), rfl⟩, fun h => absurd ⟨hKeyRead, hRead⟩ h⟩
    · have hNone := read_of_not_readable hs hRead rest
      generalize readRdbString ((writeRdbString s).1 ++ rest) = found at hNone
      obtain ⟨t, file⟩ := found
      cases hNone
      exact ⟨fun h => absurd h.2 hRead, fun _ => rfl⟩
  · have hNone := read_of_not_readable hKey hKeyRead ((writeRdbString s).1 ++ rest)
    generalize readRdbString ((writeRdbString key).1 ++ ((writeRdbString s).1 ++ rest)) = found at hNone
    obtain ⟨t, file⟩ := found
    cases hNone
    exact ⟨fun h => absurd h.1 hKeyRead, fun _ => rfl⟩

/-- The end of the file in the place of the type is taken as a type of its own. -/
theorem parseStrings_cut (hKey : IsText key) (hs : IsText s) {m : Nat}
    (h : m < (stringRecord key s).length) :
    parseStrings ((stringRecord key s).take m) = if m = 0 then some (none, []) else none := by
  cases m with
  | zero => rfl
  | succ m =>
      have hLength : m < (writeRdbString key).1.length + (writeRdbString s).1.length := by
        rw [stringRecord, List.cons_append, List.length_cons, List.length_append] at h
        omega
      rw [if_neg (Nat.succ_ne_zero m), stringRecord, List.cons_append, List.take_succ_cons]
      simp only [parseStrings, ↓reduceIte]
      by_cases hInKey : m < (writeRdbString key).1.length
      · have hNone := read_of_cut hKey hInKey
        rw [List.take_append_of_le_length hInKey.le]
        generalize readRdbString ((writeRdbString key).1.take m) = found at hNone
        obtain ⟨t, file⟩ := found
        cases hNone
        rfl
      · have hTake : ((writeRdbString key).1 ++ (writeRdbString s).1).take m =
            (writeRdbString key).1 ++
              (writeRdbString s).1.take (m - (writeRdbString key).1.length) := by
          rw [List.take_append, List.take_of_length_le (by omega)]
        rw [hTake]
        by_cases hRead : Readable key
        · obtain ⟨k, hk⟩ := read_of_readable hKey hRead
          have hNone := read_of_cut hs (m := m - (writeRdbString key).1.length) (by omega)
          rw [hk]
          dsimp only
          generalize readRdbString ((writeRdbString s).1.take _) = found at hNone
          obtain ⟨t, file⟩ := found
          cases hNone
          rfl
        · have hNone := read_of_not_readable hKey hRead
            ((writeRdbString s).1.take (m - (writeRdbString key).1.length))
          generalize readRdbString ((writeRdbString key).1 ++ _) = found at hNone
          obtain ⟨t, file⟩ := found
          cases hNone
          rfl

/-- The bytes of an expiry and of nothing else. -/
def expiryBytes (expiration : Int) : Bytes :=
  if expiration > 0 then 0xFC :: littleEndian 8 expiration else []

theorem saveValue_str (key s : Bytes) (expiration : Int) :
    saveValue key ⟨.str s, expiration⟩ = expiryBytes expiration ++ stringRecord key s := by
  simp [saveValue, expiryBytes, stringRecord]

theorem length_expiryBytes (expiration : Int) :
    (expiryBytes expiration).length = if 0 < expiration then 9 else 0 := by
  unfold expiryBytes
  split <;> simp

/-- The expiry of a record that is there at least up to its type. -/
theorem loadExpiry_whole (key s : Bytes) (expiration : Int) (rest : Bytes) :
    ∃ expireTime, loadExpiry (expiryBytes expiration ++ (stringRecord key s ++ rest)) =
      some (expireTime, stringRecord key s ++ rest) := by
  unfold expiryBytes
  split
  · exact ⟨fromLittleEndian (littleEndian 8 expiration), by simp [loadExpiry]⟩
  · exact ⟨0, rfl⟩

theorem parsePair_whole (hKey : IsText key) (hs : IsText s) (expiration : Int) (rest : Bytes) :
    (Readable key ∧ Readable s → ∃ r, parsePair (saveValue key ⟨.str s, expiration⟩ ++ rest) =
        some (r, rest)) ∧
      (¬(Readable key ∧ Readable s) →
        parsePair (saveValue key ⟨.str s, expiration⟩ ++ rest) = none) := by
  obtain ⟨expireTime, hExpiry⟩ := loadExpiry_whole key s expiration rest
  obtain ⟨hRead, hNot⟩ := parseStrings_whole hKey hs rest
  rw [saveValue_str, List.append_assoc]
  simp only [parsePair, hExpiry, Option.bind_eq_bind, Option.bind_some]
  constructor
  · intro h
    obtain ⟨found, hFound⟩ := hRead h
    rw [hFound]
    exact ⟨_, rfl⟩
  · intro h
    rw [hNot h]
    rfl

/-- A record that is cut is refused, except for one that ends with its expiry. -/
theorem parsePair_cut (hKey : IsText key) (hs : IsText s) {expiration : Int} {m : Nat}
    (h : m < (saveValue key ⟨.str s, expiration⟩).length) :
    parsePair ((saveValue key ⟨.str s, expiration⟩).take m) =
      if 0 < expiration ∧ m = 9 then some (none, []) else none := by
  have hCount := length_expiryBytes expiration
  rw [saveValue_str, List.length_append] at h
  rw [saveValue_str]
  by_cases hPos : 0 < expiration
  · rw [if_pos hPos] at hCount
    have hBytes : expiryBytes expiration = 0xFC :: littleEndian 8 expiration := if_pos hPos
    rw [hBytes] at hCount ⊢
    by_cases hInside : m < 9
    · -- the end of the file is in the expiry
      have hNone : loadExpiry ((0xFC :: littleEndian 8 expiration ++ stringRecord key s).take m) =
          none := by
        cases m with
        | zero => rfl
        | succ m =>
            have hShort : ((littleEndian 8 expiration ++ stringRecord key s).take m).length < 8 := by
              rw [List.length_take]
              omega
            rw [List.cons_append, List.take_succ_cons]
            simp only [loadExpiry, hShort, ↓reduceIte]
            rfl
      rw [if_neg (by omega), parsePair, hNone]
      rfl
    · have hTake : (0xFC :: littleEndian 8 expiration ++ stringRecord key s).take m =
          0xFC :: littleEndian 8 expiration ++ (stringRecord key s).take (m - 9) := by
        rw [List.take_append, List.take_of_length_le (by omega), hCount]
      have hExpiry : loadExpiry (0xFC :: littleEndian 8 expiration ++
          (stringRecord key s).take (m - 9)) =
          some (fromLittleEndian (littleEndian 8 expiration), (stringRecord key s).take (m - 9)) := by
        simp [loadExpiry]
      rw [hTake, parsePair, hExpiry]
      simp only [Option.bind_eq_bind, Option.bind_some]
      rw [hBytes, hCount] at h
      rw [parseStrings_cut hKey hs (by omega)]
      by_cases hEnd : m = 9
      · rw [if_pos (by omega), if_pos ⟨hPos, hEnd⟩]
        rfl
      · rw [if_neg (by omega), if_neg (fun h => hEnd h.2)]
        rfl
  · rw [if_neg hPos] at hCount
    have hBytes : expiryBytes expiration = [] := if_neg hPos
    rw [hBytes, List.nil_append, if_neg (fun h => hPos h.1)]
    cases m with
    | zero => rfl
    | succ m =>
        have hNone := parseStrings_cut hKey hs (m := m + 1) (by omega)
        rw [if_neg (Nat.succ_ne_zero m)] at hNone
        have hExpiry : loadExpiry ((stringRecord key s).take (m + 1)) =
            some (0, (stringRecord key s).take (m + 1)) := rfl
        rw [parsePair, hExpiry]
        simp only [Option.bind_eq_bind, Option.bind_some, hNone, Option.bind_none]

end Records

section Loop

/-- Key and value of an entry, if that is a string, have the property. -/
def EachString (P : Bytes → Prop) (e : Sigma fun _ : Bytes => RedisValue) : Prop :=
  P e.1 ∧
    match e.2.data with
    | .str s => P s
    | .list _ => True

def savedBytes (es : List (Sigma fun _ : Bytes => RedisValue)) : Bytes :=
  es.flatMap fun e => saveValue e.1 e.2

variable {es : List (Sigma fun _ : Bytes => RedisValue)} {n m : Nat} {file : Bytes}

theorem savedBytes_cons (e : Sigma fun _ : Bytes => RedisValue)
    (es : List (Sigma fun _ : Bytes => RedisValue)) :
    savedBytes (e :: es) = saveValue e.1 e.2 ++ savedBytes es := List.flatMap_cons ..

/-- The loop has taken its `n` records whole, and leaves the rest. -/
def EndsWhole (es : List (Sigma fun _ : Bytes => RedisValue)) (n m : Nat) (file : Bytes) : Prop :=
  n ≤ es.length ∧ (∀ e ∈ es.take n, EachString Readable e) ∧ (savedBytes (es.take n)).length ≤ m ∧
    file = (savedBytes (es.drop n)).take (m - (savedBytes (es.take n)).length)

/-- The bytes end with the expiry of the last of the `n` records. -/
def EndsInLast (es : List (Sigma fun _ : Bytes => RedisValue)) (n m : Nat) : Prop :=
  ∃ before e after, es = before ++ e :: after ∧ before.length + 1 = n ∧
    (∀ b ∈ before, EachString Readable b) ∧ 0 < e.2.expiration ∧ m = (savedBytes before).length + 9

theorem endsWhole_zero : EndsWhole es 0 m file ↔ file = (savedBytes es).take m := by
  simp [EndsWhole, savedBytes]

theorem not_endsInLast_zero : ¬EndsInLast es 0 m := by
  rintro ⟨before, e, after, -, hCount, -⟩
  exact absurd hCount (Nat.succ_ne_zero _)

/-- Both after the first record, where that is whole. -/
theorem endsWhole_cons {e : Sigma fun _ : Bytes => RedisValue}
    (h : (saveValue e.1 e.2).length ≤ m) :
    EndsWhole (e :: es) (n + 1) m file ↔
      EachString Readable e ∧ EndsWhole es n (m - (saveValue e.1 e.2).length) file := by
  unfold EndsWhole
  rw [List.take_succ_cons, List.drop_succ_cons, savedBytes_cons, List.length_append,
    List.length_cons, List.forall_mem_cons, Nat.sub_add_eq]
  constructor
  · rintro ⟨hCount, ⟨hFirst, hRest⟩, hLength, hFile⟩
    exact ⟨hFirst, by omega, hRest, by omega, hFile⟩
  · rintro ⟨hFirst, hCount, hRest, hLength, hFile⟩
    exact ⟨by omega, ⟨hFirst, hRest⟩, by omega, hFile⟩

theorem endsInLast_cons {e : Sigma fun _ : Bytes => RedisValue}
    (h : (saveValue e.1 e.2).length ≤ m) (hMore : 0 < e.2.expiration → m ≠ 9) :
    EndsInLast (e :: es) (n + 1) m ↔
      EachString Readable e ∧ EndsInLast es n (m - (saveValue e.1 e.2).length) := by
  constructor
  · rintro ⟨before, e', after, hSplit, hCount, hRead, hPos, hm⟩
    cases before with
    | nil =>
        cases hSplit
        exact absurd hm (hMore hPos)
    | cons b before =>
        cases hSplit
        rw [List.forall_mem_cons] at hRead
        rw [savedBytes_cons, List.length_append] at hm
        exact ⟨hRead.1, before, e', after, rfl, by simpa using hCount, hRead.2, hPos, by omega⟩
  · rintro ⟨hFirst, before, e', after, rfl, hCount, hRead, hPos, hm⟩
    refine ⟨e :: before, e', after, rfl, by simpa using hCount, ?_, hPos, ?_⟩
    · rw [List.forall_mem_cons]
      exact ⟨hFirst, hRead⟩
    · rw [savedBytes_cons, List.length_append]
      omega

/-- Both within the first record. -/
theorem not_endsWhole_cons {e : Sigma fun _ : Bytes => RedisValue}
    (h : m < (saveValue e.1 e.2).length) : ¬EndsWhole (e :: es) (n + 1) m file := by
  rintro ⟨-, -, hLength, -⟩
  rw [List.take_succ_cons, savedBytes_cons, List.length_append] at hLength
  omega

theorem endsInLast_first {e : Sigma fun _ : Bytes => RedisValue}
    (h : m < (saveValue e.1 e.2).length) :
    EndsInLast (e :: es) (n + 1) m ↔ (0 < e.2.expiration ∧ m = 9) ∧ n = 0 := by
  constructor
  · rintro ⟨before, e', after, hSplit, hCount, -, hPos, hm⟩
    cases before with
    | nil =>
        cases hSplit
        exact ⟨⟨hPos, hm⟩, by simpa using hCount.symm⟩
    | cons b before =>
        cases hSplit
        rw [savedBytes_cons, List.length_append] at hm
        omega
  · rintro ⟨⟨hPos, rfl⟩, rfl⟩
    exact ⟨[], e, es, rfl, rfl, by simp, hPos, rfl⟩

/-- The loop on a part of the first record: the deadline of the last one. -/
theorem parsePairs_cut_first {key s : Bytes} {expiration : Int} (hKey : IsText key) (hs : IsText s)
    (hCut : m < (saveValue key ⟨.str s, expiration⟩).length) :
    (parsePairs (n + 1) ((saveValue key ⟨.str s, expiration⟩).take m)).2 = some file ↔
      ((0 < expiration ∧ m = 9) ∧ n = 0) ∧ file = [] := by
  rw [parsePairs, parsePair_cut hKey hs hCut]
  by_cases hEnd : 0 < expiration ∧ m = 9
  · rw [if_pos hEnd, and_iff_right hEnd]
    cases n with
    | zero => simp [parsePairs, eq_comm]
    | succ n => simp [parsePairs, parsePair, loadExpiry]
  · rw [if_neg hEnd]
    exact iff_of_false (by simp) (fun h => hEnd h.1.1)

/-- A record goes on behind its deadline. -/
theorem lt_length_saveValue {key s : Bytes} {expiration : Int} (hPos : 0 < expiration) :
    9 < (saveValue key ⟨.str s, expiration⟩).length := by
  have hCount := length_expiryBytes expiration
  rw [if_pos hPos] at hCount
  rw [saveValue_str, List.length_append, hCount, stringRecord, List.cons_append, List.length_cons]
  omega

/-- What the loop over `n` records makes of the first `m` bytes of the records. -/
theorem parsePairs_cut (hText : ∀ e ∈ es, EachString IsText e)
    (hString : ∀ e ∈ es, e.2.isString = true) (hm : m ≤ (savedBytes es).length) :
    (parsePairs n ((savedBytes es).take m)).2 = some file ↔
      EndsWhole es n m file ∨ EndsInLast es n m ∧ file = [] := by
  induction es generalizing n m with
  | nil =>
      cases n with
      | zero => simp [parsePairs, endsWhole_zero, not_endsInLast_zero, eq_comm]
      | succ n =>
          obtain rfl : m = 0 := Nat.le_zero.mp hm
          have hNone : (parsePairs (n + 1) ((savedBytes []).take 0)).2 = none := rfl
          rw [hNone]
          refine iff_of_false (by simp) ?_
          rintro (⟨hCount, -⟩ | ⟨⟨before, e, after, hSplit, -⟩, -⟩)
          · simp at hCount
          · simp at hSplit
  | cons e es ih =>
      obtain ⟨key, data, expiration⟩ := e
      cases data with
      | list xs => simp [RedisValue.isString] at hString
      | str s =>
          cases n with
          | zero => simp [parsePairs, endsWhole_zero, not_endsInLast_zero, eq_comm]
          | succ n =>
              obtain ⟨hKey, hs⟩ := hText _ (List.mem_cons_self ..)
              rw [List.forall_mem_cons] at hText hString
              rw [savedBytes_cons, List.length_append] at hm
              rw [savedBytes_cons]
              dsimp only at hm ⊢
              by_cases hCut : m < (saveValue key ⟨.str s, expiration⟩).length
              · have hWhole : ¬EndsWhole (⟨key, .str s, expiration⟩ :: es) (n + 1) m file :=
                  not_endsWhole_cons (e := ⟨key, .str s, expiration⟩) hCut
                have hLast : EndsInLast (⟨key, .str s, expiration⟩ :: es) (n + 1) m ↔
                    (0 < expiration ∧ m = 9) ∧ n = 0 :=
                  endsInLast_first (e := ⟨key, .str s, expiration⟩) hCut
                rw [List.take_append_of_le_length hCut.le, parsePairs_cut_first hKey hs hCut, hLast,
                  or_iff_right hWhole]
              · have hLength := Nat.le_of_not_lt hCut
                have hMore : 0 < expiration → m ≠ 9 := fun hPos =>
                  (Nat.lt_of_lt_of_le (lt_length_saveValue hPos) hLength).ne'
                rw [List.take_append, List.take_of_length_le hLength, parsePairs,
                  endsWhole_cons (e := ⟨key, .str s, expiration⟩) hLength,
                  endsInLast_cons (e := ⟨key, .str s, expiration⟩) hLength hMore]
                obtain ⟨hRead, hNot⟩ := parsePair_whole hKey hs expiration
                  ((savedBytes es).take (m - (saveValue key ⟨.str s, expiration⟩).length))
                by_cases hBoth : Readable key ∧ Readable s
                · obtain ⟨r, hr⟩ := hRead hBoth
                  have hFirst : EachString Readable ⟨key, .str s, expiration⟩ := hBoth
                  rw [hr]
                  dsimp only
                  rw [ih hText.2 hString.2 (by omega)]
                  simp [hFirst]
                · have hFirst : ¬EachString Readable ⟨key, .str s, expiration⟩ := hBoth
                  rw [hNot hBoth]
                  exact iff_of_false (by simp) (by simp [hFirst])

end Loop

section Sections

/-- Bytes that pass for the sections of a file: the file ends where an opcode is
looked for, or at an opcode that closes it. -/
inductive PassesForSections : Bytes → Prop where
  | ended : PassesForSections []
  | closed (file : Bytes) : PassesForSections (0xFF :: file)
  | selected (index : UInt8) (file : Bytes) : PassesForSections (0xFE :: index :: file)
  | metadata {file rest : Bytes} (pairs : loadMetadata file.length file = some rest)
      (after : PassesForSections rest) : PassesForSections (0xFA :: file)
  | table {kvSize expSize : UInt8} {file rest : Bytes}
      (records : (parsePairs kvSize.toNat file).2 = some rest) (after : PassesForSections rest) :
      PassesForSections (0xFB :: kvSize :: expSize :: file)
  | skipped {opcode : UInt8} {file : Bytes} (other : opcode ∉ [0xFA, 0xFB, 0xFE, 0xFF])
      (after : PassesForSections file) : PassesForSections (opcode :: file)

theorem passesForSections_of_code {fuel : Nat} {file : Bytes} (hFuel : file.length ≤ fuel)
    (h : (parseSections fuel file).2 = 0) : PassesForSections file := by
  induction fuel generalizing file with
  | zero =>
      obtain rfl := List.length_eq_zero_iff.mp (Nat.le_zero.mp hFuel)
      exact .ended
  | succ fuel ih =>
      cases file with
      | nil => exact .ended
      | cons opcode file =>
          rw [List.length_cons] at hFuel
          have hFile : file.length ≤ fuel := by omega
          simp only [parseSections] at h
          split at h
          · rename_i hOpcode
            subst hOpcode
            cases hMeta : loadMetadata file.length file with
            | none => simp [hMeta] at h
            | some rest =>
                rw [hMeta] at h
                exact .metadata hMeta (ih ((loadMetadata_length_le hMeta).trans hFile) h)
          split at h
          · rename_i hOpcode
            subst hOpcode
            rcases file with - | ⟨kvSize, - | ⟨expSize, file⟩⟩
            · cases h
            · cases h
            · rw [List.length_cons, List.length_cons] at hFile
              rcases hPairs : parsePairs kvSize.toNat file with ⟨rs, - | rest⟩
              · simp [hPairs] at h
              · have hLength := parsePairs_length_le hPairs
                simp only [hPairs] at h
                exact .table (by rw [hPairs]) (ih (by omega) h)
          split at h
          · rename_i hOpcode
            subst hOpcode
            rcases file with - | ⟨index, file⟩
            · cases h
            · exact .selected index file
          split at h
          · rename_i hOpcode
            subst hOpcode
            exact .closed file
          · rename_i hMeta hTable hSelector hEnd
            exact .skipped (by simp [hMeta, hTable, hSelector, hEnd]) (ih hFile h)

theorem PassesForSections.code {file : Bytes} (h : PassesForSections file) {fuel : Nat}
    (hFuel : file.length ≤ fuel) : (parseSections fuel file).2 = 0 := by
  induction h generalizing fuel with
  | ended => rw [parseSections]
  | closed file =>
      obtain ⟨fuel, rfl⟩ := Nat.exists_eq_add_of_lt hFuel
      rfl
  | selected index file =>
      obtain ⟨fuel, rfl⟩ := Nat.exists_eq_add_of_lt hFuel
      rfl
  | @metadata file rest pairs after ih =>
      obtain ⟨fuel, rfl⟩ := Nat.exists_eq_add_of_lt hFuel
      have hLength := loadMetadata_length_le pairs
      simp only [parseSections, if_true, pairs]
      exact ih (by omega)
  | @table kvSize expSize file rest records after ih =>
      obtain ⟨fuel, rfl⟩ := Nat.exists_eq_add_of_lt hFuel
      rcases hPairs : parsePairs kvSize.toNat file with ⟨rs, found⟩
      rw [hPairs] at records
      dsimp only at records
      subst records
      have hLength := parsePairs_length_le hPairs
      rw [parseSections, if_neg (by decide), if_pos rfl]
      simp only [hPairs]
      rw [List.length_cons, List.length_cons]
      exact ih (by omega)
  | @skipped opcode file other after ih =>
      obtain ⟨fuel, rfl⟩ := Nat.exists_eq_add_of_lt hFuel
      simp only [List.mem_cons, List.not_mem_nil, or_false, not_or] at other
      obtain ⟨hMeta, hTable, hSelector, hEnd⟩ := other
      simp only [parseSections, if_neg hMeta, if_neg hTable, if_neg hSelector, if_neg hEnd]
      exact ih (by omega)

end Sections

section Cuts

variable (db : RedisDb)

/-- The entries for which the saver writes a record. -/
def storedStrings : List (Sigma fun _ : Bytes => RedisValue) :=
  db.h.entries.filter fun e => e.2.isString

/-- How many records the count byte announces. -/
def countedRecords : Nat := Table.size db.h % 256

/-- The cuts that the loader does not report: where it looks for a section, after
the expiry of the last record that is counted, and from the end of that record
on, where what is left of the uncounted records passes for sections. Nothing is
left of them at the end of the last counted record. -/
def Unnoticed (cut : Nat) : Prop :=
  cut = 9 ∨ cut = 11 ∨
    (∃ before e after, storedStrings db = before ++ e :: after ∧
      before.length + 1 = countedRecords db ∧ (∀ b ∈ before, EachString Readable b) ∧
      0 < e.2.expiration ∧ cut = 14 + (savedBytes before).length + 9) ∨
    (countedRecords db ≤ (storedStrings db).length ∧
      (∀ e ∈ (storedStrings db).take (countedRecords db), EachString Readable e) ∧
      let counted := savedBytes ((storedStrings db).take (countedRecords db))
      let uncounted := savedBytes ((storedStrings db).drop (countedRecords db))
      14 + counted.length ≤ cut ∧
        PassesForSections (uncounted.take (cut - 14 - counted.length)))

variable {db}

/-- A list has no record, since it has no deadline either. -/
theorem savedRecords_eq (hStored : ∀ e ∈ db.h.entries, e.2.Stored) :
    savedRecords db = savedBytes (storedStrings db) := by
  unfold savedRecords savedBytes storedStrings
  generalize db.h.entries = es at hStored
  induction es with
  | nil => rfl
  | cons e es ih =>
      rw [List.forall_mem_cons] at hStored
      obtain ⟨key, data, expiration⟩ := e
      rw [List.flatMap_cons, ih hStored.2]
      cases data with
      | str s => simp [RedisValue.isString]
      | list xs =>
          have hNone : expiration ≤ 0 := hStored.1.list rfl
          have hEmpty : saveValue key ⟨.list xs, expiration⟩ = [] := by
            simp only [saveValue, List.append_nil, ite_eq_right_iff]
            intro hPos
            omega
          rw [hEmpty]
          simp [RedisValue.isString]

theorem parseFrom_snd (count : Nat) (file : Bytes) :
    (parseFrom count file).2 =
      match (parsePairs count file).2 with
      | none => 1
      | some file => (parseSections file.length file).2 := by
  unfold parseFrom
  rcases parsePairs count file with ⟨rs, - | file⟩
  · rfl
  · rfl

/-- The loader on a saved file that is cut among its records. -/
theorem parseFile_cut (hReach : db.Reachable) {cut : Nat} (h : 14 ≤ cut)
    (hCut : cut < (rdbSaveDataToFile db).length) :
    (parseFile ((rdbSaveDataToFile db).take cut)).2 =
      (parseFrom (countedRecords db)
        ((savedBytes (storedStrings db)).take (cut - 14))).2 := by
  have hBytes : rdbSaveDataToFile db = rdbHeader ++ [0xFA, 0xFE] ++
      0xFB :: lowByte db.keyCount.toNat :: lowByte db.expiryCount.toNat ::
        (savedBytes (storedStrings db) ++ [0xFF]) := by
    rw [← savedRecords_eq hReach.spec.2]
    simp [rdbSaveDataToFile, savedRecords]
  have hCount : (lowByte db.keyCount.toNat).toNat = countedRecords db := kvSize_eq hReach.spec.1
  have hStart : (rdbHeader ++ [0xFA, 0xFE]).length = 11 := rfl
  have hRecords : cut - 14 ≤ (savedBytes (storedStrings db)).length := by
    rw [hBytes, List.length_append, hStart] at hCut
    simp only [List.length_cons, List.length_append, List.length_nil] at hCut
    omega
  have hTake : (rdbSaveDataToFile db).take cut = rdbHeader ++ [0xFA, 0xFE] ++
      0xFB :: lowByte db.keyCount.toNat :: lowByte db.expiryCount.toNat ::
        (savedBytes (storedStrings db)).take (cut - 14) := by
    have hPast : cut - 11 = cut - 14 + 1 + 1 + 1 := by omega
    rw [hBytes, List.take_append, List.take_of_length_le (by omega), hStart, hPast,
      List.take_succ_cons, List.take_succ_cons, List.take_succ_cons,
      List.take_append_of_le_length hRecords]
  rw [hTake, atSection_header.metadata.parseFile_table, hCount]

/-- The loader on a saved file that is cut before its records. -/
theorem parseFile_cut_early (db : RedisDb) {cut : Nat} (h : cut < 14) :
    (parseFile ((rdbSaveDataToFile db).take cut)).2 = if cut = 9 ∨ cut = 11 then 0 else 1 := by
  have hTake : (rdbSaveDataToFile db).take cut =
      (rdbHeader ++ [0xFA, 0xFE, 0xFB, lowByte db.keyCount.toNat, lowByte db.expiryCount.toNat]).take
        cut := by
    rw [rdbSaveDataToFile, List.append_assoc]
    exact List.take_append_of_le_length (by simp [rdbHeader, ascii]; omega)
  rw [hTake]
  interval_cases cut <;> rfl

theorem unnoticed_early {cut : Nat} (h : cut < 14) : Unnoticed db cut ↔ cut = 9 ∨ cut = 11 := by
  constructor
  · rintro (h | h | ⟨before, e, after, -, -, -, -, h⟩ | ⟨-, -, h, -⟩)
    · exact .inl h
    · exact .inr h
    · omega
    · omega
  · exact fun hPlace => hPlace.imp_right .inl

/-- The records that are counted are read before anything else is, and the rest
of the file is taken for sections. -/
theorem parseFrom_cut (hReach : db.Reachable) (hText : ∀ e ∈ db.h.entries, EachString IsText e)
    {cut : Nat} (h : 14 ≤ cut) (hCut : cut < (rdbSaveDataToFile db).length) :
    (parseFrom (countedRecords db) ((savedBytes (storedStrings db)).take (cut - 14))).2 = 0 ↔
      Unnoticed db cut := by
  have hTexts : ∀ e ∈ storedStrings db, EachString IsText e :=
    fun e he => hText e (List.mem_of_mem_filter he)
  have hStrings : ∀ e ∈ storedStrings db, e.2.isString = true :=
    fun e he => by simpa using (List.mem_filter.mp he).2
  have hRecords : cut - 14 ≤ (savedBytes (storedStrings db)).length := by
    have hLength : (rdbSaveDataToFile db).length = 14 + (savedRecords db).length + 1 := by
      simp only [rdbSaveDataToFile, savedRecords, List.length_append, List.length_cons,
        List.length_nil, rdbHeader, ascii, List.length_map]
    rw [hLength, savedRecords_eq hReach.spec.2] at hCut
    omega
  have hLoop : ∀ file, (parsePairs (countedRecords db)
      ((savedBytes (storedStrings db)).take (cut - 14))).2 = some file ↔ _ :=
    fun file => parsePairs_cut hTexts hStrings hRecords
  rw [parseFrom_snd]
  constructor
  · intro hCode
    cases hRest : (parsePairs (countedRecords db)
        ((savedBytes (storedStrings db)).take (cut - 14))).2 with
    | none =>
        rw [hRest] at hCode
        cases hCode
    | some file =>
        rw [hRest] at hCode
        rcases (hLoop file).mp hRest with ⟨hCount, hRead, hLength, hFile⟩ | ⟨hLast, -⟩
        · have hPasses := passesForSections_of_code le_rfl hCode
          rw [hFile] at hPasses
          exact .inr (.inr (.inr ⟨hCount, hRead, by omega, hPasses⟩))
        · obtain ⟨before, e, after, hSplit, hCount, hRead, hPos, hm⟩ := hLast
          exact .inr (.inr (.inl ⟨before, e, after, hSplit, hCount, hRead, hPos, by omega⟩))
  · rintro (h | h | ⟨before, e, after, hSplit, hCount, hRead, hPos, hm⟩ |
      ⟨hCount, hRead, hPast, hPasses⟩)
    · omega
    · omega
    · have hRest := (hLoop []).mpr
        (.inr ⟨⟨before, e, after, hSplit, hCount, hRead, hPos, by omega⟩, rfl⟩)
      rw [hRest]
      rfl
    · have hRest := (hLoop _).mpr (.inl ⟨hCount, hRead, by omega, rfl⟩)
      rw [hRest]
      exact hPasses.code le_rfl

/-- A cut in a saved file is reported by the loader just when it is none of
those. -/
theorem truncated_refused_iff (loaded : RedisDb) {cut : Nat} (hReach : db.Reachable)
    (hText : ∀ e ∈ db.h.entries, EachString IsText e)
    (hCut : cut < (rdbSaveDataToFile db).length) :
    (rdbLoadDataFromFile loaded (some ((rdbSaveDataToFile db).take cut))).2 ≠ 0 ↔
      ¬Unnoticed db cut := by
  rw [rdbLoadDataFromFile_eq]
  dsimp only
  rw [not_iff_not]
  by_cases hEarly : cut < 14
  · rw [parseFile_cut_early db hEarly, unnoticed_early hEarly]
    split
    · rename_i hPlace
      exact iff_of_true rfl hPlace
    · rename_i hPlace
      exact iff_of_false one_ne_zero hPlace
  · have hLate : 14 ≤ cut := by omega
    rw [parseFile_cut hReach hLate hCut]
    exact parseFrom_cut hReach hText hLate hCut

/-- A store with one string. -/
def oneString : RedisDb := redisDbSet redisDbCreate [107] [118] 0

theorem oneString_reachable : oneString.Reachable :=
  ⟨[.set [107] [118] 0], by simp [DbCall.InRange], List.Perm.refl _, rfl, rfl⟩

/-- A cut between the two counts of the table. -/
theorem truncated_refused_counts :
    (rdbLoadDataFromFile redisDbCreate (some ((rdbSaveDataToFile oneString).take 13))).2 ≠ 0 := by
  have hText : ∀ e ∈ oneString.h.entries, EachString IsText e := by
    intro e he
    have hEntry : e = ⟨[107], .str [118], 0⟩ := List.mem_singleton.mp he
    subst hEntry
    exact ⟨⟨by decide, by decide⟩, ⟨by decide, by decide⟩⟩
  refine (truncated_refused_iff redisDbCreate oneString_reachable hText (by decide)).mpr ?_
  rw [unnoticed_early (by decide)]
  decide

/-- The file of one string, cut after its header, after its metadata and before
its last byte, is reported as loaded each time. -/
theorem truncated_accepted :
    oneString.Reachable ∧ (rdbSaveDataToFile oneString).length = 20 ∧
      ∀ cut ∈ [9, 11, 19],
        (rdbLoadDataFromFile redisDbCreate (some ((rdbSaveDataToFile oneString).take cut))).2 = 0 := by
  refine ⟨oneString_reachable, rfl, ?_⟩
  intro cut hCut
  simp only [List.mem_cons, List.not_mem_nil, or_false] at hCut
  rcases hCut with rfl | rfl | rfl
  · rfl
  · rfl
  · rfl

end Cuts

end RedisServer
