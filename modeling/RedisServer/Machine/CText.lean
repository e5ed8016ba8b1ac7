import Mathlib.Data.List.TakeWhile
import Mathlib.Data.Nat.Digits.Lemmas
import Mathlib.Tactic.IntervalCases

/-! Bytes, decimal text and the integer conversions of C on a 64-bit target.
A piece of memory is a list of bytes; reading past its last byte finds the NUL
that terminates it. -/
namespace Machine

abbrev Bytes := List UInt8

/-- The bytes of a literal. -/
def ascii (chars : List Char) : Bytes := chars.map fun c => UInt8.ofNat c.toNat

/-- The bytes of a message. -/
def text (message : String) : Bytes := ascii message.toList

/-- A literal matches this without being decoded. -/
theorem text_ofList (chars : List Char) : text (String.ofList chars) = ascii chars := by
  rw [text, String.toList_ofList]

/-- What a `char *` means as a string: the bytes before the first NUL. -/
def cString (bytes : Bytes) : Bytes := bytes.takeWhile (· ≠ 0)

theorem cString_eq_self {bytes : Bytes} (h : (0 : UInt8) ∉ bytes) : cString bytes = bytes := by
  rw [cString, List.takeWhile_eq_self_iff]
  intro c hc
  exact decide_eq_true (fun h0 => h (h0 ▸ hc))

theorem cString_eq_self_iff (bytes : Bytes) : cString bytes = bytes ↔ (0 : UInt8) ∉ bytes := by
  constructor
  · intro h hZero
    rw [← h] at hZero
    have hNot := List.mem_takeWhile_imp hZero
    simp at hNot
  · exact cString_eq_self

theorem cString_length_le (bytes : Bytes) : (cString bytes).length ≤ bytes.length :=
  (List.takeWhile_prefix _).length_le

/-- Conversion to the unsigned `size_t`. -/
def toSize (x : Int) : Nat := (x % 2 ^ 64).toNat

/-- Conversion to the signed `int`. -/
def toInt32 (x : Int) : Int := x.bmod (2 ^ 32)

/-- Conversion to the signed `long`, and what its arithmetic wraps to. -/
def toInt64 (x : Int) : Int := x.bmod (2 ^ 64)

theorem toSize_of_nonneg {x : Int} (h : 0 ≤ x) (hx : x < 2 ^ 64) : toSize x = x.toNat := by
  rw [toSize, Int.emod_eq_of_lt h hx]

/-- A sum taken as `size_t` and converted to `int`. -/
theorem toInt32_toSize (x : Int) : toInt32 (toSize x) = toInt32 x := by
  have hNat : (toSize x : Int) = x % 2 ^ 64 := Int.toNat_of_nonneg (Int.emod_nonneg x (by decide))
  have hMod : x % 2 ^ 64 % (2 ^ 32 : Nat) = x % (2 ^ 32 : Nat) := Int.emod_emod_of_dvd x (by decide)
  rw [toInt32, toInt32, hNat, ← Int.emod_bmod, hMod, Int.emod_bmod]

theorem toInt32_of_small {x : Int} (hLow : -2 ^ 31 ≤ x) (hHigh : x < 2 ^ 31) : toInt32 x = x :=
  Int.bmod_eq_of_le (by norm_num; omega) (by norm_num; omega)

theorem toInt64_of_small {x : Int} (hLow : -2 ^ 63 ≤ x) (hHigh : x < 2 ^ 63) : toInt64 x = x :=
  Int.bmod_eq_of_le (by norm_num; omega) (by norm_num; omega)

theorem toInt64_range (x : Int) : -2 ^ 63 ≤ toInt64 x ∧ toInt64 x < 2 ^ 63 := by
  have hLow := Int.le_bmod (x := x) (m := 2 ^ 64) (by decide)
  have hHigh := Int.bmod_lt (x := x) (m := 2 ^ 64) (by decide)
  norm_num at hLow hHigh
  exact ⟨hLow, hHigh⟩

theorem toInt32_range (x : Int) : -2 ^ 31 ≤ toInt32 x ∧ toInt32 x < 2 ^ 31 := by
  have hLow := Int.le_bmod (x := x) (m := 2 ^ 32) (by decide)
  have hHigh := Int.bmod_lt (x := x) (m := 2 ^ 32) (by decide)
  norm_num at hLow hHigh
  exact ⟨hLow, hHigh⟩

def isSpace (c : UInt8) : Bool := c = 32 || (9 ≤ c && c ≤ 13)

def isDigit (c : UInt8) : Bool := 48 ≤ c && c ≤ 57

/-- `printf`'s decimal text of a natural number. -/
def natText (n : Nat) : Bytes :=
  if n = 0 then [48] else (Nat.digits 10 n).reverse.map fun d => UInt8.ofNat (48 + d)

/-- `printf`'s decimal text of an integer. -/
def intText (i : Int) : Bytes := if i < 0 then 45 :: natText i.natAbs else natText i.natAbs

def digitsValue (digits : Bytes) : Nat := digits.foldl (fun v c => 10 * v + (c.toNat - 48)) 0

/-- What `strtol` and `strtoll` report: the value, how many bytes were taken
(none when there was no number) and whether it was clamped. -/
structure Number where
  value : Int
  stop : Nat
  erange : Bool
  deriving DecidableEq

/-- The sign, if there is one, is one byte. -/
def signLength (text : Bytes) : Nat :=
  if text.head? = some 45 ∨ text.head? = some 43 then 1 else 0

/-- `strtol` in base ten: blanks, an optional sign, digits. -/
def strtol (text : Bytes) : Number :=
  let body := text.dropWhile isSpace
  let digits := (body.drop (signLength body)).takeWhile isDigit
  if digits = [] then ⟨0, 0, false⟩
  else
    let value : Int := if body.head? = some 45 then -digitsValue digits else digitsValue digits
    ⟨max (-2 ^ 63) (min (2 ^ 63 - 1) value),
      (text.takeWhile isSpace).length + signLength body + digits.length,
      decide (value < -2 ^ 63 ∨ 2 ^ 63 - 1 < value)⟩

theorem strtol_range (str : Bytes) : -2 ^ 63 ≤ (strtol str).value ∧ (strtol str).value < 2 ^ 63 := by
  unfold strtol
  dsimp only
  split
  · exact ⟨by norm_num, by norm_num⟩
  · dsimp only
    omega

theorem isDigit_iff {c : UInt8} : isDigit c = true ↔ 48 ≤ c.toNat ∧ c.toNat ≤ 57 := by
  simp [isDigit, UInt8.le_iff_toNat_le]

theorem digit_not_space {c : UInt8} (h : isDigit c = true) : isSpace c = false := by
  rw [isDigit_iff] at h
  simp only [isSpace, UInt8.le_iff_toNat_le, ← UInt8.toNat_inj]
  simp
  omega

theorem digit_ne_sign {c : UInt8} (h : isDigit c = true) : c ≠ 45 ∧ c ≠ 43 := by
  rw [isDigit_iff] at h
  constructor
  · rintro rfl
    simp at h
  · rintro rfl
    simp at h

section Text

theorem natText_ne_nil (n : Nat) : natText n ≠ [] := by
  unfold natText
  split
  · simp
  · rename_i h
    simpa [Nat.digits_eq_nil_iff_eq_zero] using h

theorem isDigit_ofNat {d : Nat} (h : d < 10) : isDigit (UInt8.ofNat (48 + d)) = true := by
  interval_cases d <;> decide

theorem isDigit_of_mem_natText {n : Nat} {c : UInt8} (h : c ∈ natText n) : isDigit c = true := by
  unfold natText at h
  split at h
  · obtain rfl := List.mem_singleton.mp h
    decide
  · obtain ⟨d, hd, rfl⟩ := List.mem_map.mp h
    exact isDigit_ofNat (Nat.digits_lt_base (by decide) (List.mem_reverse.mp hd))

theorem digitsValue_append (digits : Bytes) (c : UInt8) :
    digitsValue (digits ++ [c]) = 10 * digitsValue digits + (c.toNat - 48) := by
  simp [digitsValue, List.foldl_append]

/-- The text of a number read digit by digit gives the number back. -/
theorem digitsValue_natText (n : Nat) : digitsValue (natText n) = n := by
  have hDigits : ∀ ds : List Nat, (∀ d ∈ ds, d < 10) →
      digitsValue (ds.reverse.map fun d => UInt8.ofNat (48 + d)) = Nat.ofDigits 10 ds := by
    intro ds
    induction ds with
    | nil => intro _; rfl
    | cons d ds ih =>
        intro h
        have hd : d < 10 := h d (List.mem_cons_self ..)
        have hByte : (UInt8.ofNat (48 + d)).toNat - 48 = d := by
          rw [UInt8.toNat_ofNat_of_lt' (by change 48 + d < 256; omega)]
          omega
        rw [List.reverse_cons, List.map_append, List.map_singleton, digitsValue_append,
          ih (fun x hx => h x (List.mem_cons_of_mem _ hx)), hByte, Nat.ofDigits_cons]
        omega
  unfold natText
  split
  · subst n
    rfl
  · rw [hDigits _ (fun d hd => Nat.digits_lt_base (by decide) hd), Nat.ofDigits_digits]

theorem natText_length_mono {m n : Nat} (h : m ≤ n) : (natText m).length ≤ (natText n).length := by
  by_cases hm : m = 0
  · subst hm
    exact List.length_pos_iff.mpr (natText_ne_nil n)
  · rw [natText, natText, if_neg hm, if_neg (by omega), List.length_map, List.length_map,
      List.length_reverse, List.length_reverse]
    exact Nat.le_length_digits_le 10 m n h

theorem natText_injective : Function.Injective natText := by
  intro m n h
  rw [← digitsValue_natText m, h, digitsValue_natText]

/-- A sign is no digit, so the text tells the sign as well. -/
theorem intText_injective : Function.Injective intText := by
  have hSign : ∀ m n : Nat, 45 :: natText m ≠ natText n := by
    intro m n h
    have hDigit : isDigit 45 = true := isDigit_of_mem_natText (h ▸ List.mem_cons_self ..)
    exact absurd hDigit (by decide)
  intro a b h
  unfold intText at h
  split at h
  · split at h
    · have hAbs := natText_injective (List.cons.inj h).2
      omega
    · exact absurd h (hSign _ _)
  · split at h
    · exact absurd h.symm (hSign _ _)
    · have hAbs := natText_injective h
      omega

end Text

section Scan

/-- A digit is neither blank nor sign, so a number that starts with one is
read from its first byte. -/
theorem strtol_of_digit {text : Bytes} {c : UInt8} (hc : text.head? = some c)
    (hDigit : isDigit c = true) :
    strtol text =
      ⟨min (2 ^ 63 - 1) (digitsValue (text.takeWhile isDigit)), (text.takeWhile isDigit).length,
        decide ((2 : Int) ^ 63 - 1 < digitsValue (text.takeWhile isDigit))⟩ := by
  cases text with
  | nil => simp at hc
  | cons a rest =>
      obtain rfl : a = c := by simpa using hc
      have hSpace := digit_not_space hDigit
      have hSign := digit_ne_sign hDigit
      have hBody : (a :: rest).dropWhile isSpace = a :: rest := by simp [List.dropWhile, hSpace]
      have hLength : signLength (a :: rest) = 0 := by simp [signLength, hSign.1, hSign.2]
      have hSome : (a :: rest).takeWhile isDigit ≠ [] := by simp [List.takeWhile, hDigit]
      have hBlank : (a :: rest).takeWhile isSpace = [] := by simp [List.takeWhile, hSpace]
      have hMinus : ¬(a :: rest).head? = some 45 := by simpa using hSign.1
      unfold strtol
      simp only [hBody, hLength, List.drop_zero, hSome, ↓reduceIte, hBlank, hMinus,
        List.length_nil, Nat.zero_add]
      congr 1
      · omega
      · congr 1
        apply propext
        constructor
        · rintro (h | h)
          · omega
          · exact h
        · exact Or.inr

/-- A digit run at the start is taken whole, whatever follows it. -/
theorem le_stop_strtol {digits : Bytes} (rest : Bytes) (h : ∀ c ∈ digits, isDigit c = true)
    (hne : digits ≠ []) : digits.length ≤ (strtol (digits ++ rest)).stop := by
  obtain ⟨c, cs, rfl⟩ := List.exists_cons_of_ne_nil hne
  rw [strtol_of_digit rfl (h c (List.mem_cons_self ..)), List.takeWhile_append_of_pos h]
  simp

/-- The text of a number, followed by something that is not a digit. -/
theorem strtol_natText (n : Nat) (rest : Bytes) (hRest : ∀ c ∈ rest.head?, isDigit c = false) :
    strtol (natText n ++ rest) =
      ⟨min (2 ^ 63 - 1) n, (natText n).length, decide ((2 : Int) ^ 63 - 1 < n)⟩ := by
  have hAll : ∀ c ∈ natText n, isDigit c = true := fun c hc => isDigit_of_mem_natText hc
  have hTake : (natText n ++ rest).takeWhile isDigit = natText n := by
    rw [List.takeWhile_append_of_pos hAll]
    cases rest with
    | nil => simp
    | cons c rest => simp [List.takeWhile, hRest c (by simp)]
  obtain ⟨c, cs, hText⟩ := List.exists_cons_of_ne_nil (natText_ne_nil n)
  rw [strtol_of_digit (c := c) (by simp [hText]) (hAll c (by simp [hText])), hTake,
    digitsValue_natText]

/-- The text of an integer is taken whole; its value is clamped to 64 bits. -/
theorem strtol_intText_eq (v : Int) :
    strtol (intText v) =
      ⟨max (-2 ^ 63) (min (2 ^ 63 - 1) v), (intText v).length,
        decide (v < -2 ^ 63 ∨ 2 ^ 63 - 1 < v)⟩ := by
  have hAll : ∀ c ∈ natText v.natAbs, isDigit c = true := fun c hc => isDigit_of_mem_natText hc
  have hTake : (natText v.natAbs).takeWhile isDigit = natText v.natAbs :=
    List.takeWhile_eq_self_iff.mpr hAll
  have hValue := digitsValue_natText v.natAbs
  unfold intText
  split
  · rename_i hNeg
    have hBody : (45 :: natText v.natAbs).dropWhile isSpace = 45 :: natText v.natAbs := by
      simp [List.dropWhile, isSpace]
    have hBlank : (45 :: natText v.natAbs).takeWhile isSpace = [] := by
      simp [List.takeWhile, isSpace]
    have hAbs : -(v.natAbs : Int) = v := by omega
    unfold strtol
    simp only [hBody, hBlank, signLength, List.head?_cons, true_or, ↓reduceIte, List.drop_succ_cons,
      List.drop_zero, hTake, natText_ne_nil, hValue, List.length_nil, List.length_cons, hAbs]
    rw [Nat.zero_add, Nat.add_comm]
  · rename_i hNonneg
    obtain ⟨c, cs, hText⟩ := List.exists_cons_of_ne_nil (natText_ne_nil v.natAbs)
    have hAbs : (v.natAbs : Int) = v := by omega
    have hClamp : max (-2 ^ 63) (min (2 ^ 63 - 1) v) = min (2 ^ 63 - 1) v := by omega
    have hRange : (v < -2 ^ 63 ∨ 2 ^ 63 - 1 < v) ↔ (2 : Int) ^ 63 - 1 < v := by omega
    rw [strtol_of_digit (c := c) (by simp [hText]) (hAll c (by simp [hText])), hTake, hValue, hAbs,
      hClamp]
    simp only [hRange]

theorem strtol_intText (v : Int) :
    (strtol (intText v)).stop = (intText v).length ∧
      (strtol (intText v)).value = max (-2 ^ 63) (min (2 ^ 63 - 1) v) := by
  rw [strtol_intText_eq]
  exact ⟨rfl, rfl⟩

/-- A scan that stops inside of a list does not see what follows the list. -/
theorem takeWhile_append_of_lt {p : UInt8 → Bool} {text : Bytes} (rest : Bytes)
    (h : (text.takeWhile p).length < text.length) :
    (text ++ rest).takeWhile p = text.takeWhile p ∧
      (text ++ rest).dropWhile p = text.dropWhile p ++ rest := by
  constructor
  · rw [List.takeWhile_append, if_neg h.ne]
  · have hSome : text.dropWhile p ≠ [] := by
      intro hNil
      have hAll := congrArg List.length (List.takeWhile_append_dropWhile (p := p) (l := text))
      rw [hNil, List.append_nil] at hAll
      omega
    rw [List.dropWhile_append, if_neg (by simpa using hSome)]

theorem length_takeWhile_lt_of_append {p : UInt8 → Bool} {text : Bytes} (rest : Bytes)
    (h : ((text ++ rest).takeWhile p).length < text.length) :
    (text.takeWhile p).length < text.length := by
  rw [List.takeWhile_append] at h
  split at h
  · rw [List.length_append] at h
    omega
  · exact h

theorem signLength_append {body : Bytes} (rest : Bytes) (h : body ≠ []) :
    signLength (body ++ rest) = signLength body := by
  obtain ⟨c, cs, rfl⟩ := List.exists_cons_of_ne_nil h
  rfl

/-- The blanks and the digits of a number end inside of the text. -/
theorem strtol_append_of_inside {text : Bytes} (rest : Bytes)
    (hBlanks : (text.takeWhile isSpace).length < text.length)
    (hDigits : (((text.dropWhile isSpace).drop (signLength (text.dropWhile isSpace))).takeWhile
      isDigit).length < ((text.dropWhile isSpace).drop (signLength (text.dropWhile isSpace))).length) :
    strtol (text ++ rest) = strtol text := by
  obtain ⟨hTake, hDrop⟩ := takeWhile_append_of_lt rest hBlanks
  have hSome : text.dropWhile isSpace ≠ [] := by
    intro hNil
    rw [hNil] at hDigits
    simp at hDigits
  have hSign := signLength_append rest hSome
  have hHead : (text.dropWhile isSpace ++ rest).head? = (text.dropWhile isSpace).head? :=
    List.head?_append_of_ne_nil _ hSome
  have hLength : signLength (text.dropWhile isSpace) ≤ (text.dropWhile isSpace).length := by
    rw [List.length_drop] at hDigits
    omega
  unfold strtol
  simp only [hDrop, hSign, hHead, hTake, List.drop_append_of_le_length hLength,
    (takeWhile_append_of_lt rest hDigits).1]

theorem length_blanks_add (text : Bytes) :
    (text.takeWhile isSpace).length + (text.dropWhile isSpace).length = text.length := by
  rw [← List.length_append, List.takeWhile_append_dropWhile]

/-- A number that ends inside of a text is the same in every longer text. -/
theorem strtol_append {text : Bytes} (rest : Bytes) (hSome : (strtol text).stop ≠ 0)
    (hStop : (strtol text).stop < text.length) : strtol (text ++ rest) = strtol text := by
  have hParts := length_blanks_add text
  unfold strtol at hSome hStop
  dsimp only at hSome hStop
  split at hSome
  · exact absurd rfl hSome
  · rename_i hDigits
    rw [if_neg hDigits] at hStop
    apply strtol_append_of_inside
    · dsimp only at hStop
      omega
    · have hPos := List.length_pos_iff.mpr hDigits
      have hSub := (List.takeWhile_prefix (l := (text.dropWhile isSpace).drop
        (signLength (text.dropWhile isSpace))) isDigit).length_le
      dsimp only at hStop
      rw [List.length_drop] at hSub ⊢
      omega

/-- A number that ends before what follows a text is the number of the text. -/
theorem strtol_of_append {text rest : Bytes} (hSome : (strtol (text ++ rest)).stop ≠ 0)
    (hStop : (strtol (text ++ rest)).stop < text.length) :
    strtol (text ++ rest) = strtol text := by
  have hParts := length_blanks_add text
  unfold strtol at hSome hStop
  dsimp only at hSome hStop
  split at hSome
  · exact absurd rfl hSome
  · rename_i hDigits
    rw [if_neg hDigits] at hStop
    dsimp only at hStop
    have hBlanks : (text.takeWhile isSpace).length < text.length :=
      length_takeWhile_lt_of_append rest (by omega)
    obtain ⟨hTake, hDrop⟩ := takeWhile_append_of_lt rest hBlanks
    have hBody : text.dropWhile isSpace ≠ [] := List.length_pos_iff.mp (by omega)
    have hLength : signLength (text.dropWhile isSpace) ≤ (text.dropWhile isSpace).length := by
      have hPos := List.length_pos_iff.mpr hBody
      unfold signLength
      split <;> omega
    rw [hTake, hDrop, signLength_append rest hBody, List.drop_append_of_le_length hLength] at hStop
    apply strtol_append_of_inside rest hBlanks
    apply length_takeWhile_lt_of_append rest
    rw [List.length_drop]
    omega

end Scan

end Machine
