import RedisServer.Protocol.Frames

/-! How `parse_inline_command` cuts a line into tokens, read from the bytes of
the line instead of from positions in it. -/
namespace RedisServer

open Machine

/-- The callbacks of one token of a line. -/
def tokenCalls (first last : Nat) : List Callback :=
  [.beginBulkString (last - first : Nat), .chars first last, .endBulkString]

def IsQuote (c : UInt8) : Prop := c = 34 ∨ c = 39

instance (c : UInt8) : Decidable (IsQuote c) := inferInstanceAs (Decidable (_ ∨ _))

/-- What the rest of a line begins with: spaces, and then a token unless it is
at its end. A token in quotes goes on to the next such quote, any other to the
next space. -/
inductive NextToken : Bytes → Prop where
  | blank (n : Nat) : NextToken (List.replicate n 32)
  | quoted (n : Nat) (quote : UInt8) (text tail : Bytes) (hQuote : IsQuote quote)
      (hText : quote ∉ text) (hTail : ∀ c ∈ tail.head?, c = quote) :
      NextToken (List.replicate n 32 ++ quote :: (text ++ tail))
  | bare (n : Nat) (c : UInt8) (text tail : Bytes) (hFirst : c ≠ 32) (hPlain : ¬IsQuote c)
      (hText : 32 ∉ text) (hTail : ∀ c ∈ tail.head?, c = 32) :
      NextToken (List.replicate n 32 ++ c :: (text ++ tail))

section Bytes

/-- A text up to the first occurrence of a byte. -/
theorem exists_until (stop : UInt8) (bytes : Bytes) :
    ∃ text tail, bytes = text ++ tail ∧ stop ∉ text ∧ ∀ c ∈ tail.head?, c = stop := by
  refine ⟨bytes.takeWhile (· ≠ stop), bytes.dropWhile (· ≠ stop),
    List.takeWhile_append_dropWhile.symm, ?_, ?_⟩
  · intro hStop
    have hNot := List.mem_takeWhile_imp hStop
    simp at hNot
  · intro c hc
    have hNot := List.head?_dropWhile_not (· ≠ stop) bytes
    rw [hc] at hNot
    simpa using hNot

theorem takeWhile_until {stop : UInt8} {text tail : Bytes} (hText : stop ∉ text)
    (hTail : ∀ c ∈ tail.head?, c = stop) : (text ++ tail).takeWhile (· ≠ stop) = text := by
  have hAll : ∀ c ∈ text, decide (c ≠ stop) = true := fun c hc =>
    decide_eq_true fun hStop => hText (hStop ▸ hc)
  rw [List.takeWhile_append_of_pos hAll]
  cases tail with
  | nil => simp
  | cons c tail => simp [hTail c rfl]

theorem takeWhile_spaces (n : Nat) {rest : Bytes} (hRest : ∀ c ∈ rest.head?, c ≠ 32) :
    (List.replicate n 32 ++ rest).takeWhile (· = 32) = List.replicate n 32 := by
  rw [List.takeWhile_append_of_pos (by simp)]
  cases rest with
  | nil => simp
  | cons c rest => simp [hRest c rfl]

/-- Every rest of a line begins in one of the three ways. -/
theorem nextToken (rest : Bytes) : NextToken rest := by
  have hSpaces : rest.takeWhile (· = 32) =
      List.replicate (rest.takeWhile (· = 32)).length 32 := by
    rw [List.eq_replicate_iff]
    refine ⟨rfl, fun c hc => ?_⟩
    simpa using List.mem_takeWhile_imp hc
  have hSplit : rest = List.replicate (rest.takeWhile (· = 32)).length 32 ++
      rest.dropWhile (· = 32) := by
    rw [← hSpaces, List.takeWhile_append_dropWhile]
  have hHead := List.head?_dropWhile_not (· = 32) rest
  rw [hSplit]
  generalize (rest.takeWhile (· = 32)).length = n
  generalize rest.dropWhile (· = 32) = word at hHead
  cases word with
  | nil =>
      rw [List.append_nil]
      exact .blank n
  | cons c word =>
      have hFirst : c ≠ 32 := by simpa using hHead
      by_cases hQuote : IsQuote c
      · obtain ⟨text, tail, rfl, hText, hTail⟩ := exists_until c word
        exact .quoted n c text tail hQuote hText hTail
      · obtain ⟨text, tail, rfl, hText, hTail⟩ := exists_until 32 word
        exact .bare n c text tail hFirst hQuote hText hTail

end Bytes

section Tokens

variable {line : Bytes} {fuel start n : Nat}

/-- The line is as long as what has been read of it, a token and what stands
behind it. -/
theorem length_line {c : UInt8} {text tail : Bytes}
    (h : line.drop start = List.replicate n 32 ++ c :: (text ++ tail)) :
    line.length = start + n + 1 + text.length + tail.length := by
  have hLength := congrArg List.length h
  simp only [List.length_drop, List.length_append, List.length_replicate, List.length_cons] at hLength
  omega

theorem drop_spaces {rest : Bytes} (h : line.drop start = List.replicate n 32 ++ rest) :
    line.drop (start + n) = rest := by
  rw [← List.drop_drop, h]
  simp

theorem drop_first {c : UInt8} {rest : Bytes}
    (h : line.drop start = List.replicate n 32 ++ c :: rest) : line.drop (start + n + 1) = rest := by
  rw [← List.drop_drop, drop_spaces h, List.drop_one, List.tail_cons]

theorem byteAt_drop (bytes : Bytes) (i k : Nat) : byteAt (bytes.drop i) k = byteAt bytes (i + k) := by
  simp [byteAt, List.getD_eq_getElem?_getD, List.getElem?_drop]

/-- The byte behind the first spaces. -/
theorem byteAt_spaces {c : UInt8} {rest : Bytes}
    (h : line.drop start = List.replicate n 32 ++ c :: rest) : byteAt line (start + n) = c := by
  rw [← Nat.add_zero (start + n), ← byteAt_drop, drop_spaces h]
  rfl

/-- What stands behind the first token of the rest of a line. -/
theorem drop_behind {c : UInt8} {text tail : Bytes}
    (h : line.drop start = List.replicate n 32 ++ c :: (text ++ tail)) (k : Nat) :
    line.drop (start + n + 1 + text.length + k) = tail.drop k := by
  rw [← List.drop_drop, ← List.drop_drop, drop_first h, List.drop_left]

theorem inlineTokens_of_le (h : line.length ≤ start) : inlineTokens line fuel start = [] := by
  cases fuel with
  | zero => rfl
  | succ fuel =>
      unfold inlineTokens
      dsimp only
      rw [if_pos (Nat.le_add_right_of_le h)]

theorem inlineTokens_blank (h : line.drop start = List.replicate n 32) :
    inlineTokens line fuel start = [] := by
  cases fuel with
  | zero => rfl
  | succ fuel =>
      have hLength := congrArg List.length h
      rw [List.length_drop, List.length_replicate] at hLength
      unfold inlineTokens
      dsimp only
      rw [h, List.takeWhile_eq_self_iff.mpr (by simp), List.length_replicate, if_pos (by omega)]

/-- A token in quotes. The byte behind the closing quote is skipped. -/
theorem inlineTokens_quoted {quote : UInt8} {text tail : Bytes}
    (h : line.drop start = List.replicate n 32 ++ quote :: (text ++ tail)) (hQuote : IsQuote quote)
    (hText : quote ∉ text) (hTail : ∀ c ∈ tail.head?, c = quote) :
    inlineTokens line (fuel + 1) start =
      tokenCalls (start + n + 1) (start + n + 1 + text.length) ++
        inlineTokens line fuel (start + n + 1 + text.length + 2) := by
  have hLength := length_line h
  have hSpace : quote ≠ 32 := by
    rintro rfl
    exact absurd hQuote (by decide)
  have hByte := byteAt_spaces h
  rw [inlineTokens]
  dsimp only
  rw [h, takeWhile_spaces n (by simpa using hSpace), List.length_replicate, if_neg (by omega), hByte,
    if_pos (show quote = 34 ∨ quote = 39 from hQuote), drop_first h, takeWhile_until hText hTail]
  split
  · rfl
  · rw [inlineTokens_of_le (show line.length ≤ start + n + 1 + text.length + 1 by omega),
      inlineTokens_of_le (show line.length ≤ start + n + 1 + text.length + 2 by omega)]
    rfl

/-- A token without quotes. The space behind it is skipped. -/
theorem inlineTokens_bare {c : UInt8} {text tail : Bytes}
    (h : line.drop start = List.replicate n 32 ++ c :: (text ++ tail)) (hFirst : c ≠ 32)
    (hPlain : ¬IsQuote c) (hText : 32 ∉ text) (hTail : ∀ c ∈ tail.head?, c = 32) :
    inlineTokens line (fuel + 1) start =
      tokenCalls (start + n) (start + n + 1 + text.length) ++
        inlineTokens line fuel (start + n + 1 + text.length + 1) := by
  have hLength := length_line h
  have hByte := byteAt_spaces h
  have hDrop : line.drop (start + n) = (c :: text) ++ tail := drop_spaces h
  rw [inlineTokens]
  dsimp only
  rw [h, takeWhile_spaces n (by simpa using hFirst), List.length_replicate, if_neg (by omega), hByte,
    if_neg (show ¬(c = 34 ∨ c = 39) from hPlain), hDrop,
    takeWhile_until (by simp [hText, Ne.symm hFirst]) hTail, List.length_cons,
    Nat.add_comm text.length 1, ← Nat.add_assoc]
  split
  · rfl
  · rw [inlineTokens_of_le (show line.length ≤ start + n + 1 + text.length by omega),
      inlineTokens_of_le (show line.length ≤ start + n + 1 + text.length + 1 by omega)]
    rfl

/-- The line is at its end, or a token of it comes and then the tokens behind
it. -/
theorem inlineTokens_cases (line : Bytes) (fuel start : Nat) :
    inlineTokens line (fuel + 1) start = [] ∨
      ∃ first last next, start ≤ first ∧ first ≤ last ∧ last ≤ line.length ∧ last ≤ next ∧
        inlineTokens line (fuel + 1) start =
          tokenCalls first last ++ inlineTokens line fuel next := by
  generalize hRest : line.drop start = rest
  cases nextToken rest with
  | blank n => exact Or.inl (inlineTokens_blank hRest)
  | quoted n quote text tail hQuote hText hTail =>
      have hLength := length_line hRest
      exact Or.inr ⟨_, _, _, by omega, by omega, by omega, by omega,
        inlineTokens_quoted hRest hQuote hText hTail⟩
  | bare n c text tail hFirst hPlain hText hTail =>
      have hLength := length_line hRest
      exact Or.inr ⟨_, _, _, by omega, by omega, by omega, by omega,
        inlineTokens_bare hRest hFirst hPlain hText hTail⟩

theorem chars_mem_tokenCalls {first last : Nat} {begin stop : Int} :
    .chars begin stop ∈ tokenCalls first last ↔ begin = first ∧ stop = last := by
  simp [tokenCalls]

/-- The tokens lie in the line, behind where they are looked for. -/
theorem chars_mem_inlineTokens {first last : Int}
    (h : .chars first last ∈ inlineTokens line fuel start) :
    start ≤ first ∧ first ≤ last ∧ last ≤ line.length := by
  induction fuel generalizing start with
  | zero => cases h
  | succ fuel ih =>
      obtain hNone | ⟨begin, stop, next, hBegin, hOrder, hStop, hNext, hTokens⟩ :=
        inlineTokens_cases line fuel start
      · rw [hNone] at h
        cases h
      · rw [hTokens, List.mem_append, chars_mem_tokenCalls] at h
        rcases h with ⟨rfl, rfl⟩ | h
        · omega
        · have hLater := ih h
          omega

end Tokens

section Counts

/-- The count never goes down. -/
theorem TokenCount.le_foldl (bytes : Bytes) (t : TokenCount) :
    t.tokenCount ≤ (bytes.foldl TokenCount.next t).tokenCount := by
  induction bytes generalizing t with
  | nil => exact le_rfl
  | cons c bytes ih =>
      refine Nat.le_trans ?_ (ih (t.next c))
      unfold next
      split_ifs <;> simp

/-- Each byte is counted at most once. -/
theorem TokenCount.foldl_le (bytes : Bytes) (t : TokenCount) :
    (bytes.foldl TokenCount.next t).tokenCount ≤ t.tokenCount + bytes.length := by
  induction bytes generalizing t with
  | nil => exact le_rfl
  | cons c bytes ih =>
      have hNext : (t.next c).tokenCount ≤ t.tokenCount + 1 := by
        unfold next
        split_ifs <;> simp
      have hRest := ih (t.next c)
      rw [List.foldl_cons, List.length_cons]
      omega

theorem countTokens_le (str : Bytes) : countTokens str ≤ str.length := by
  have hFold := TokenCount.foldl_le (cString str) ⟨0, false, 0⟩
  rw [Nat.zero_add] at hFold
  exact hFold.trans (cString_length_le str)

end Counts

section Lines

variable {more rest : Bytes}

/-- A scan stops at the first carriage return, or at the end of the range. -/
theorem scanCr_eq {begin : Bytes} (avail : Nat) (hText : begin.take avail = more ++ rest)
    (hMore : 13 ∉ more) (hRest : rest = [] ∨ rest.head? = some 13) :
    scanCr begin avail = more.length := by
  have hTail : ∀ c ∈ rest.head?, c = 13 := by
    rintro c hc
    rcases hRest with rfl | hRest
    · cases hc
    · exact Option.some.inj (hc.symm.trans hRest)
  rw [scanCr, Int.toNat_natCast, hText, takeWhile_until hMore hTail]

/-- A line that has come with its CRLF is read as a whole, whatever stands
behind it. -/
theorem Parser.parse_line {line : Bytes} (hLine : 13 ∉ line) (after : Bytes) (lens : List Int)
    {avail : Nat} (hInside : line.length + 2 ≤ avail) :
    (within inlineCommandInfo lens).parse (line ++ 13 :: 10 :: after) avail =
      ⟨resume lens, .beginArray (countTokens (line ++ 13 :: 10 :: after)) ::
        inlineTokens line (line.length + 1) 0 ++ [.endArray], true, line.length + 2⟩ := by
  have hTake : (line ++ 13 :: 10 :: after).take avail =
      line ++ (13 :: 10 :: after).take (avail - line.length) := by
    rw [List.take_append, List.take_of_length_le (by omega)]
  obtain ⟨k, hk⟩ : ∃ k, avail - line.length = k + 1 := ⟨avail - line.length - 1, by omega⟩
  have hScan : scanCr (line ++ 13 :: 10 :: after) avail = line.length :=
    scanCr_eq avail hTake hLine (Or.inr (by rw [hk]; rfl))
  rw [parse_inlineCommand, hScan, List.take_left, if_pos (by omega)]

end Lines

end RedisServer
