import RedisServer.Machine.ByteCodec

/-! The string codec of `rdb.c`. A file is the list of its unread bytes when it
is read and the list of the bytes put into it when it is written. The codec is
not a round trip: some spellings of integers and some lengths do not survive. -/
namespace RedisServer

open Machine

/-- The text part of a string: a buffer of `len + 1` bytes, `fread` and the
terminator. A negative length asks for more than there is address space. -/
def readRdbBody (len : Int) (file : Bytes) : Option Bytes × Bytes :=
  if len < 0 then (none, file)
  else if file.length < len.toNat then (none, [])
  else (some (cString (file.take len.toNat)), file.drop len.toNat)

/-- The four bytes of a long length, most significant first. Each is read into
a `char`, where the byte 0xFF is equal to `EOF` and ends the read. -/
def readRdbLength : Nat → Int → Bytes → Option Int × Bytes
  | 0, len, file => (some len, file)
  | _ + 1, _, [] => (none, [])
  | count + 1, len, byte :: file =>
      if byte = 0xFF then (none, file)
      else readRdbLength count (toInt32 (len * 256 + byte.toNat)) file

/-- A string stored as a signed little-endian integer of `width` bytes. -/
def readRdbInteger (width : Nat) (file : Bytes) : Option Bytes × Bytes :=
  if file.length < width then (none, [])
  else
    (some (intText ((fromLittleEndian (file.take width) : Int).bmod (256 ^ width))),
      file.drop width)

/-- The result is `none` for the null pointer. -/
def readRdbString : Bytes → Option Bytes × Bytes
  | [] => (none, [])
  | first :: file =>
      let type := first.toNat / 64
      let low := first.toNat % 64
      if type = 0 then readRdbBody low file
      else if type = 1 then
        match file with
        | [] => (none, [])
        | second :: file => readRdbBody (low * 256 + second.toNat) file
      else if type = 2 then
        match readRdbLength 4 0 file with
        | (some len, file) => readRdbBody len file
        | (none, file) => (none, file)
      else if low = 0 then readRdbInteger 1 file
      else if low = 1 then readRdbInteger 2 file
      else if low = 2 then readRdbInteger 4 file
      else (none, file)

/-- `strtoll` takes all of the string and the value fits 32 bits, which is
when the string is stored as an integer. The empty string is such a string:
no digit is found in it, and its end is its start. -/
def IntegerCoded (str : Bytes) : Prop :=
  (strtol str).stop = str.length ∧ -2 ^ 31 ≤ (strtol str).value ∧ (strtol str).value ≤ 2 ^ 31 - 1

instance (str : Bytes) : Decidable (IntegerCoded str) :=
  inferInstanceAs (Decidable (_ ∧ _ ∧ _))

/-- The bytes written and the number of them that is returned. -/
def writeRdbString (str : Bytes) : Bytes × Int :=
  let len : Int := toInt32 str.length
  let value := (strtol str).value
  if (strtol str).stop = str.length ∧ -2 ^ 7 ≤ value ∧ value ≤ 2 ^ 7 - 1 then
    (0xC0 :: littleEndian 1 value, 2)
  else if (strtol str).stop = str.length ∧ -2 ^ 15 ≤ value ∧ value ≤ 2 ^ 15 - 1 then
    (0xC1 :: littleEndian 2 value, 3)
  else if (strtol str).stop = str.length ∧ -2 ^ 31 ≤ value ∧ value ≤ 2 ^ 31 - 1 then
    (0xC2 :: littleEndian 4 value, 5)
  else if len ≤ 63 then
    (lowByte len :: str.take len.toNat, 1 + len)
  else if len ≤ 16383 then
    (lowByte ((16384 + len) / 256) :: lowByte (16384 + len) :: str.take len.toNat, 2 + len)
  else
    (0x80 :: bigEndian 4 len ++ str.take len.toNat, 5 + len)

section Reading

variable (rest : Bytes)

theorem readRdbBody_append (str : Bytes) (h : (0 : UInt8) ∉ str) :
    readRdbBody str.length (str ++ rest) = (some str, rest) := by
  unfold readRdbBody
  rw [if_neg (by omega), if_neg (by simp)]
  simp [cString_eq_self h]

/-- An integer in the range of its width is read back as its decimal text. -/
theorem readRdbInteger_littleEndian (width : Nat) (v : Int)
    (hLow : -((256 ^ width : Nat) / 2 : Int) ≤ v)
    (hHigh : v < (((256 ^ width : Nat) : Int) + 1) / 2) :
    readRdbInteger width (littleEndian width v ++ rest) = (some (intText v), rest) := by
  have hValue := fromLittleEndian_littleEndian width v
  have hMod : (v % 256 ^ width).bmod (256 ^ width) = v := by
    have hCast : (256 : Int) ^ width = ((256 ^ width : Nat) : Int) := by norm_cast
    rw [hCast, Int.emod_bmod]
    exact Int.bmod_eq_of_le hLow hHigh
  unfold readRdbInteger
  rw [if_neg (by simp)]
  simp [hValue, hMod]

theorem readRdbLength_cons (count : Nat) (len : Int) (byte : UInt8) (file : Bytes) :
    readRdbLength (count + 1) len (byte :: file) =
      if byte = 0xFF then (none, file)
      else readRdbLength count (toInt32 (len * 256 + byte.toNat)) file := rfl

/-- The value of a long length, when no byte of it ends the read. -/
theorem readRdbLength_of_not_mem (bytes : Bytes) (len : Nat) (hFF : (0xFF : UInt8) ∉ bytes)
    (hLen : len * 256 ^ bytes.length + fromLittleEndian bytes.reverse < 2 ^ 31) :
    readRdbLength bytes.length len (bytes ++ rest) =
      (some ((len * 256 ^ bytes.length + fromLittleEndian bytes.reverse : Nat) : Int), rest) := by
  induction bytes generalizing len with
  | nil => simp [readRdbLength, fromLittleEndian]
  | cons byte bytes ih =>
      have hByte : byte ≠ 0xFF := fun h => hFF (h ▸ List.mem_cons_self ..)
      have hValue : len * 256 ^ (byte :: bytes).length + fromLittleEndian (byte :: bytes).reverse =
          (len * 256 + byte.toNat) * 256 ^ bytes.length + fromLittleEndian bytes.reverse := by
        rw [List.reverse_cons, fromLittleEndian_concat, List.length_cons, List.length_reverse]
        ring
      rw [hValue] at hLen ⊢
      have hPow : 1 ≤ 256 ^ bytes.length := Nat.one_le_two_pow.trans (Nat.pow_le_pow_left (by omega) _)
      have hSmall : len * 256 + byte.toNat < 2 ^ 31 := by nlinarith
      have hStep : toInt32 ((len : Int) * 256 + byte.toNat) = ((len * 256 + byte.toNat : Nat) : Int) := by
        rw [toInt32_of_small (by omega) (by omega)]
        norm_cast
      rw [List.length_cons, List.cons_append, readRdbLength_cons, if_neg hByte, hStep]
      exact ih _ (fun h => hFF (List.mem_cons_of_mem _ h)) hLen

/-- A byte 0xFF ends the read. -/
theorem readRdbLength_of_mem (bytes : Bytes) (len : Int) (hFF : (0xFF : UInt8) ∈ bytes) :
    (readRdbLength bytes.length len (bytes ++ rest)).1 = none := by
  induction bytes generalizing len with
  | nil => simp at hFF
  | cons byte bytes ih =>
      rw [List.length_cons, List.cons_append, readRdbLength_cons]
      split
      · rfl
      · rename_i hByte
        have hRest : (0xFF : UInt8) ∈ bytes := by
          rcases List.mem_cons.mp hFF with h | h
          · exact absurd h.symm hByte
          · exact h
        exact ih _ hRest

end Reading

section RoundTrip

variable {str : Bytes} (rest : Bytes)

/-- An integer-coded string comes back as the decimal text of its value. -/
theorem readRdbString_of_integerCoded (h : IntegerCoded str) :
    readRdbString ((writeRdbString str).1 ++ rest) = (some (intText (strtol str).value), rest) := by
  obtain ⟨hStop, hLow, hHigh⟩ := h
  unfold writeRdbString
  dsimp only
  split
  · rename_i h8
    exact readRdbInteger_littleEndian rest 1 _ (by norm_num; omega) (by norm_num; omega)
  · split
    · rename_i h16
      exact readRdbInteger_littleEndian rest 2 _ (by norm_num; omega) (by norm_num; omega)
    · rw [if_pos ⟨hStop, hLow, hHigh⟩]
      exact readRdbInteger_littleEndian rest 4 _ (by norm_num; omega) (by norm_num; omega)

/-- The bytes of a string that is not stored as an integer. -/
theorem writeRdbString_of_text (hLength : str.length < 2 ^ 31) (h : ¬IntegerCoded str) :
    (writeRdbString str).1 =
      if str.length ≤ 63 then lowByte str.length :: str
      else if str.length ≤ 16383 then
        lowByte ((16384 + str.length : Int) / 256) :: lowByte (16384 + str.length) :: str
      else 0x80 :: bigEndian 4 str.length ++ str := by
  have hLen : toInt32 str.length = str.length := toInt32_of_small (by omega) (by omega)
  unfold IntegerCoded at h
  unfold writeRdbString
  simp only [hLen]
  rw [if_neg (by omega), if_neg (by omega), if_neg (by omega)]
  simp only [Int.toNat_natCast, List.take_length]
  by_cases h63 : str.length ≤ 63
  · rw [if_pos h63, if_pos (by omega)]
  · rw [if_neg h63, if_neg (by omega)]
    by_cases h14 : str.length ≤ 16383
    · rw [if_pos h14, if_pos (by omega)]
    · rw [if_neg h14, if_neg (by omega)]

theorem readRdbString_short (hNul : (0 : UInt8) ∉ str) (h : str.length ≤ 63) :
    readRdbString (lowByte str.length :: str ++ rest) = (some str, rest) := by
  have hByte := lowByte_toNat str.length
  have hType : (lowByte str.length).toNat / 64 = 0 := by omega
  have hLow : (lowByte str.length).toNat % 64 = str.length := by omega
  simp only [List.cons_append, readRdbString, hType, hLow, ↓reduceIte]
  exact readRdbBody_append rest str hNul

theorem readRdbString_medium (hNul : (0 : UInt8) ∉ str) (h : str.length ≤ 16383) :
    readRdbString (lowByte ((16384 + str.length : Int) / 256) :: lowByte (16384 + str.length) ::
      str ++ rest) = (some str, rest) := by
  have hFirst := lowByte_toNat ((16384 + str.length : Int) / 256)
  have hSecond := lowByte_toNat (16384 + str.length)
  have hType : (lowByte ((16384 + str.length : Int) / 256)).toNat / 64 = 1 := by omega
  have hLow : (((lowByte ((16384 + str.length : Int) / 256)).toNat % 64 : Nat) : Int) * 256 +
      (lowByte (16384 + str.length)).toNat = str.length := by omega
  simp only [List.cons_append, readRdbString, hType, ↓reduceIte, one_ne_zero, hLow]
  exact readRdbBody_append rest str hNul

theorem readRdbString_long (hNul : (0 : UInt8) ∉ str) (hLength : str.length < 2 ^ 31)
    (hFF : (0xFF : UInt8) ∉ bigEndian 4 str.length) :
    readRdbString (0x80 :: bigEndian 4 str.length ++ str ++ rest) = (some str, rest) := by
  have hValue : fromLittleEndian (bigEndian 4 str.length).reverse = str.length := by
    have h := fromLittleEndian_littleEndian 4 str.length
    rw [bigEndian, List.reverse_reverse]
    omega
  have hRead := readRdbLength_of_not_mem (str ++ rest) (bigEndian 4 str.length) 0 hFF
    (by rw [hValue]; omega)
  rw [hValue, Nat.zero_mul, Nat.zero_add, bigEndian_length] at hRead
  rw [List.cons_append, List.cons_append, List.append_assoc]
  change (match readRdbLength 4 (0 : Nat) _ with
    | (some len, file) => readRdbBody len file
    | (none, file) => (none, file)) = _
  rw [hRead]
  exact readRdbBody_append rest str hNul

theorem readRdbString_long_of_mem (hFF : (0xFF : UInt8) ∈ bigEndian 4 str.length) :
    (readRdbString (0x80 :: bigEndian 4 str.length ++ str ++ rest)).1 = none := by
  have hRead := readRdbLength_of_mem (str ++ rest) (bigEndian 4 str.length) (0 : Nat) hFF
  rw [bigEndian_length] at hRead
  rw [List.cons_append, List.cons_append, List.append_assoc]
  change (match readRdbLength 4 (0 : Nat) _ with
    | (some len, file) => readRdbBody len file
    | (none, file) => (none, file)).1 = _
  split <;> simp_all

/-- The codec gives the string back exactly when a string that reads as a
32-bit integer is spelled as `printf` spells one, and a string that does not,
when it is too long for a two-byte header, has no byte 0xFF in its length. The
empty string, leading zeros and blanks, a plus sign and a minus zero all fall
under the first condition; 16639 is the least length that falls under the
second. -/
theorem readRdbString_writeRdbString_iff (hNul : (0 : UInt8) ∉ str)
    (hLength : str.length < 2 ^ 30) :
    readRdbString ((writeRdbString str).1 ++ rest) = (some str, rest) ↔
      (IntegerCoded str → ∃ v, str = intText v) ∧
        (¬IntegerCoded str → 16384 ≤ str.length → (0xFF : UInt8) ∉ bigEndian 4 str.length) := by
  by_cases hCoded : IntegerCoded str
  · rw [readRdbString_of_integerCoded rest hCoded]
    constructor
    · intro h
      exact ⟨fun _ => ⟨_, (Option.some.inj (congrArg Prod.fst h)).symm⟩, fun h => absurd hCoded h⟩
    · rintro ⟨hText, -⟩
      obtain ⟨v, rfl⟩ := hText hCoded
      obtain ⟨-, hLow, hHigh⟩ := hCoded
      have hValue := (strtol_intText v).2
      have hSame : (strtol (intText v)).value = v := by omega
      rw [hSame]
  · rw [writeRdbString_of_text (by omega) hCoded]
    split
    · rename_i h63
      exact iff_of_true (readRdbString_short rest hNul h63)
        ⟨fun h => absurd h hCoded, fun _ _ => by omega⟩
    · split
      · rename_i h14
        exact iff_of_true (readRdbString_medium rest hNul h14)
          ⟨fun h => absurd h hCoded, fun _ _ => by omega⟩
      · rename_i h14
        constructor
        · intro h
          refine ⟨fun hc => absurd hc hCoded, fun _ _ hFF => ?_⟩
          have hNone := readRdbString_long_of_mem rest hFF
          rw [h] at hNone
          cases hNone
        · rintro ⟨-, hFF⟩
          exact readRdbString_long rest hNul (by omega) (hFF hCoded (by omega))

/-- A text, and an integer in its usual spelling, survive. -/
theorem readRdbString_writeRdbString_plain :
    readRdbString ((writeRdbString (ascii ['-', '1', '2', '9', ' ', 'a'])).1 ++ [0xFF]) =
        (some (ascii ['-', '1', '2', '9', ' ', 'a']), [0xFF]) ∧
      readRdbString ((writeRdbString (ascii ['-', '1', '2', '9'])).1 ++ [0xFF]) =
        (some (ascii ['-', '1', '2', '9']), [0xFF]) :=
  ⟨(readRdbString_writeRdbString_iff [0xFF] (by decide) (by decide)).mpr
      ⟨fun h => absurd h (by decide), fun _ h => absurd h (by decide)⟩,
    (readRdbString_writeRdbString_iff [0xFF] (by decide) (by decide)).mpr
      ⟨fun _ => ⟨-129, by decide⟩, fun _ h => absurd h (by decide)⟩⟩

/-- `"007"` is saved as the integer 7 and comes back as `"7"`. -/
theorem readRdbString_respells :
    ¬∀ str : Bytes, (0 : UInt8) ∉ str → str.length < 2 ^ 30 → ∀ rest : Bytes,
      readRdbString ((writeRdbString str).1 ++ rest) = (some str, rest) := by
  intro h
  have hSeven := h (ascii ['0', '0', '7']) (by decide) (by decide) []
  revert hSeven
  decide

end RoundTrip

section Extension

variable {file file' : Bytes} {s : Bytes} (rest : Bytes)

theorem readRdbBody_extend {len : Int} (h : readRdbBody len file = (some s, file')) :
    readRdbBody len (file ++ rest) = (some s, file' ++ rest) := by
  unfold readRdbBody at h ⊢
  split at h
  · cases h
  · split at h
    · cases h
    · rename_i hNonneg hEnough
      cases h
      have hTake : len.toNat ≤ file.length := by omega
      rw [if_neg hNonneg, if_neg (by simp; omega), List.take_append_of_le_length hTake,
        List.drop_append_of_le_length hTake]

theorem readRdbInteger_extend {width : Nat} (h : readRdbInteger width file = (some s, file')) :
    readRdbInteger width (file ++ rest) = (some s, file' ++ rest) := by
  unfold readRdbInteger at h ⊢
  split at h
  · cases h
  · rename_i hEnough
    cases h
    have hTake : width ≤ file.length := by omega
    rw [if_neg (by simp; omega), List.take_append_of_le_length hTake,
      List.drop_append_of_le_length hTake]

theorem readRdbLength_extend {count : Nat} {acc len : Int}
    (h : readRdbLength count acc file = (some len, file')) :
    readRdbLength count acc (file ++ rest) = (some len, file' ++ rest) := by
  induction count generalizing acc file with
  | zero =>
      simp only [readRdbLength, Prod.mk.injEq, Option.some.injEq] at h ⊢
      exact ⟨h.1, congrArg (· ++ rest) h.2⟩
  | succ count ih =>
      cases file with
      | nil => cases h
      | cons byte file =>
          rw [List.cons_append, readRdbLength_cons]
          rw [readRdbLength_cons] at h
          split at h
          · cases h
          · rename_i hByte
            rw [if_neg hByte]
            exact ih h

/-- A string that was read completely is read the same when more follows. -/
theorem readRdbString_extend (h : readRdbString file = (some s, file')) :
    readRdbString (file ++ rest) = (some s, file' ++ rest) := by
  cases file with
  | nil => cases h
  | cons first file =>
      simp only [readRdbString, List.cons_append] at h ⊢
      split at h
      · rename_i hType
        rw [if_pos hType]
        exact readRdbBody_extend rest h
      rename_i hShort
      rw [if_neg hShort]
      split at h
      · rename_i hType
        rw [if_pos hType]
        cases file with
        | nil => cases h
        | cons second file => exact readRdbBody_extend rest h
      rename_i hMedium
      rw [if_neg hMedium]
      split at h
      · rename_i hType
        rw [if_pos hType]
        cases hRead : readRdbLength 4 0 file with
        | mk len body =>
            rw [hRead] at h
            cases len with
            | none => cases h
            | some len =>
                rw [readRdbLength_extend rest hRead]
                exact readRdbBody_extend rest h
      rename_i hLong
      rw [if_neg hLong]
      split at h
      · rename_i hLow
        rw [if_pos hLow]
        exact readRdbInteger_extend rest h
      rename_i hByte
      rw [if_neg hByte]
      split at h
      · rename_i hLow
        rw [if_pos hLow]
        exact readRdbInteger_extend rest h
      rename_i hWord
      rw [if_neg hWord]
      split at h
      · rename_i hLow
        rw [if_pos hLow]
        exact readRdbInteger_extend rest h
      · cases h

end Extension

section Canonical

variable {str t file : Bytes}

/-- The number that is returned is the number of bytes written. -/
theorem writeRdbString_length (hLength : str.length < 2 ^ 30) :
    ((writeRdbString str).1.length : Int) = (writeRdbString str).2 := by
  have hLen : toInt32 str.length = str.length := toInt32_of_small (by omega) (by omega)
  unfold writeRdbString
  simp only [hLen, Int.toNat_natCast, List.take_length]
  split
  · simp
  split
  · simp
  split
  · simp
  split
  · rw [List.length_cons]
    omega
  split
  · rw [List.length_cons, List.length_cons]
    omega
  · rw [List.length_append, List.length_cons, bigEndian_length]
    omega

/-- The text of an integer takes the same branch as the string it was read
from. -/
theorem writeRdbString_intText (h : IntegerCoded str) :
    writeRdbString (intText (strtol str).value) = writeRdbString str := by
  obtain ⟨hStop, hLow, hHigh⟩ := h
  have hValue : max (-2 ^ 63) (min (2 ^ 63 - 1) (strtol str).value) = (strtol str).value := by omega
  unfold writeRdbString
  simp only [strtol_intText_eq, hValue, hStop, true_and]
  split
  · rfl
  split
  · rfl
  rw [if_pos ⟨hLow, hHigh⟩, if_pos ⟨hLow, hHigh⟩]

/-- What is read back is the string, or the text of the integer it stands for. -/
theorem readRdbString_written (rest : Bytes) (hNul : (0 : UInt8) ∉ str)
    (hLength : str.length < 2 ^ 31)
    (hRead : readRdbString ((writeRdbString str).1 ++ rest) = (some t, file)) :
    file = rest ∧ (IntegerCoded str ∧ t = intText (strtol str).value ∨
      ¬IntegerCoded str ∧ t = str) := by
  by_cases hCoded : IntegerCoded str
  · rw [readRdbString_of_integerCoded rest hCoded] at hRead
    cases hRead
    exact ⟨rfl, .inl ⟨hCoded, rfl⟩⟩
  · rw [writeRdbString_of_text hLength hCoded] at hRead
    split at hRead
    · rename_i hShort
      rw [readRdbString_short rest hNul hShort] at hRead
      cases hRead
      exact ⟨rfl, .inr ⟨hCoded, rfl⟩⟩
    split at hRead
    · rename_i hMedium
      rw [readRdbString_medium rest hNul hMedium] at hRead
      cases hRead
      exact ⟨rfl, .inr ⟨hCoded, rfl⟩⟩
    by_cases hFF : (0xFF : UInt8) ∈ bigEndian 4 str.length
    · have hNone := readRdbString_long_of_mem rest hFF
      rw [hRead] at hNone
      cases hNone
    · rw [readRdbString_long rest hNul hLength hFF] at hRead
      cases hRead
      exact ⟨rfl, .inr ⟨hCoded, rfl⟩⟩

/-- One save and load of a string by itself. -/
def rdbStringTrip (str : Bytes) : Option Bytes := (readRdbString (writeRdbString str).1).1

/-- The first trip may respell a string; what it comes out as is written as the
same bytes and stays as it is. -/
theorem rdb_string_canonical (rest : Bytes) (hNul : (0 : UInt8) ∉ str) (hLength : str.length < 2 ^ 30)
    (hRead : readRdbString ((writeRdbString str).1 ++ rest) = (some t, file)) :
    file = rest ∧ ((writeRdbString str).1.length : Int) = (writeRdbString str).2 ∧
      writeRdbString t = writeRdbString str ∧
      (∀ rest', readRdbString ((writeRdbString t).1 ++ rest') = (some t, rest')) ∧
      ∀ n, (fun str => str.bind rdbStringTrip)^[n] (some t) = some t := by
  obtain ⟨hFile, hCase⟩ := readRdbString_written rest hNul (by omega) hRead
  subst hFile
  have hWrite : writeRdbString t = writeRdbString str := by
    rcases hCase with ⟨hCoded, rfl⟩ | ⟨-, rfl⟩
    · exact writeRdbString_intText hCoded
    · rfl
  have hAgain : ∀ rest', readRdbString ((writeRdbString t).1 ++ rest') = (some t, rest') := by
    intro rest'
    rw [hWrite]
    rcases hCase with ⟨hCoded, rfl⟩ | ⟨hCoded, rfl⟩
    · exact readRdbString_of_integerCoded rest' hCoded
    · have hSame := (readRdbString_writeRdbString_iff _ hNul hLength).mp hRead
      exact (readRdbString_writeRdbString_iff rest' hNul hLength).mpr hSame
  refine ⟨rfl, writeRdbString_length hLength, hWrite, hAgain, fun n => ?_⟩
  apply Function.iterate_fixed
  have hTrip := hAgain []
  rw [List.append_nil] at hTrip
  simp [rdbStringTrip, hTrip]

theorem rdb_string_canonical_seven :
    writeRdbString (ascii ['7']) = writeRdbString (ascii ['+', '0', '7']) ∧
      readRdbString ((writeRdbString (ascii ['7'])).1 ++ [1]) = (some (ascii ['7']), [1]) := by
  have hRead : readRdbString ((writeRdbString (ascii ['+', '0', '7'])).1 ++ []) =
      (some (ascii ['7']), []) := by decide
  obtain ⟨-, -, hWrite, hAgain, -⟩ := rdb_string_canonical [] (by decide) (by decide) hRead
  exact ⟨hWrite, hAgain [1]⟩

end Canonical

end RedisServer
