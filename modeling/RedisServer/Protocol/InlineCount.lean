import RedisServer.Protocol.InlineTokens

/-! The two scanners of an inline command. `count_tokens` says how many tokens
there are, and the loop behind it hands them out. They see different tokens: a
quote inside a word matters to the first one only, and so does a NUL; after a
closing quote the second one skips a byte without looking at it. -/
namespace RedisServer

open Machine

/-- Where the loop that hands out tokens is in a line. -/
inductive Place where
  | between
  | bare
  | quoted (quote : UInt8)
  | closed
  deriving DecidableEq

namespace Place

def next : Place → UInt8 → Place
  | between, c => if c = 32 then between else if IsQuote c then quoted c else bare
  | bare, c => if c = 32 then between else bare
  | quoted quote, c => if c = quote then closed else quoted quote
  | closed, _ => between

/-- A token begins with this byte. -/
def Begins (place : Place) (c : UInt8) : Prop := place = between ∧ c ≠ 32

instance (place : Place) (c : UInt8) : Decidable (place.Begins c) :=
  inferInstanceAs (Decidable (_ ∧ _))

/-- How many tokens begin. -/
def begun : Place → Bytes → Nat
  | _, [] => 0
  | place, c :: rest => (if place.Begins c then 1 else 0) + begun (place.next c) rest

/-- Every closing quote is followed by a space, or is the last byte. -/
def Tidy : Place → Bytes → Prop
  | _, [] => True
  | place, c :: rest => (place = closed → c = 32) ∧ Tidy (place.next c) rest

instance : ∀ (place : Place) (bytes : Bytes), Decidable (place.Tidy bytes)
  | _, [] => isTrue trivial
  | place, c :: rest =>
      have := instDecidableTidy (place.next c) rest
      inferInstanceAs (Decidable (_ ∧ _))

end Place

/-- Both scanners at one byte of a line. The counter is done at a NUL. -/
structure TwoScans where
  place : Place
  counter : TokenCount
  live : Bool

namespace TwoScans

def start : TwoScans := ⟨.between, ⟨0, false, 0⟩, true⟩

/-- The counter reads this byte outside of quotes. -/
def Looks (s : TwoScans) (c : UInt8) : Prop := s.live = true ∧ c ≠ 0 ∧ s.counter.quoteChar = 0

instance (s : TwoScans) (c : UInt8) : Decidable (s.Looks c) := inferInstanceAs (Decidable (_ ∧ _))

def next (s : TwoScans) (c : UInt8) : TwoScans where
  place := s.place.next c
  counter := if s.live = true ∧ c ≠ 0 then s.counter.next c else s.counter
  live := s.live && decide (c ≠ 0)

/-- How many tokens begin inside of what the counter takes for quotes, or where
it is done. -/
def hidden : TwoScans → Bytes → Nat
  | _, [] => 0
  | s, c :: rest =>
      (if s.place.Begins c ∧ ¬s.Looks c then 1 else 0) + hidden (s.next c) rest

/-- The counter begins a word here. -/
def Counts (s : TwoScans) (c : UInt8) : Prop := s.Looks c ∧ s.counter.inToken = false ∧ c ≠ 32

instance (s : TwoScans) (c : UInt8) : Decidable (s.Counts c) := inferInstanceAs (Decidable (_ ∧ _))

/-- How many words the counter begins inside of quoted tokens, and whether it
takes the carriage return for one. -/
def exposed : TwoScans → Bytes → Nat
  | s, [] => if s.Counts 13 then 1 else 0
  | s, c :: rest =>
      (if s.Counts c ∧ s.place ≠ .between then 1 else 0) + exposed (s.next c) rest

end TwoScans

section Coverage

variable (line : Bytes) (calls : List Callback) (i : Nat)

/-- The byte is part of a token. -/
def InToken : Prop := ∃ first last : Nat, .chars first last ∈ calls ∧ first ≤ i ∧ i < last

/-- The quote before a token, at the beginning of a word. -/
def OpensToken : Prop :=
  IsQuote (byteAt line i) ∧ (i = 0 ∨ byteAt line (i - 1) = 32) ∧
    ∃ last : Nat, .chars (i + 1 : Nat) last ∈ calls

/-- The quote behind a token, the same as the one before it. -/
def ClosesToken : Prop :=
  IsQuote (byteAt line i) ∧ ∃ first : Nat, .chars (first + 1 : Nat) i ∈ calls ∧
    byteAt line first = byteAt line i

/-- The byte is part of a token, or stands between tokens for a reason. -/
def KeepsAt : Prop :=
  InToken calls i ∨ byteAt line i = 32 ∨ OpensToken line calls i ∨ ClosesToken line calls i

/-- Nothing is left out but spaces and the quotes around tokens. -/
def KeepsLine : Prop := ∀ i < line.length, KeepsAt line calls i

/-- The count announced for the line is enough for its tokens, and they leave
nothing of it out, whatever stands behind it in memory. -/
def CoversLine : Prop :=
  ∀ (after : Bytes) (lens : List Int) (avail : Nat), line.length + 2 ≤ avail →
    ∃ (count : Nat) (tokens : List Callback),
      ((Parser.within inlineCommandInfo lens).parse (line ++ 13 :: 10 :: after) avail).calls =
        .beginArray count :: tokens ++ [.endArray] ∧
      tokens.count .endBulkString ≤ count ∧ KeepsLine line tokens

end Coverage

section Walks

namespace Place

variable {place : Place} {n : Nat} {quote c : UInt8} {text tail : Bytes}

theorem quoted_stays (hText : quote ∉ text) :
    ∀ c ∈ text, next (quoted quote) c = quoted quote := by
  intro c hc
  exact if_neg fun h : c = quote => hText (h ▸ hc)

theorem bare_stays (hText : 32 ∉ text) : ∀ c ∈ text, next bare c = bare := by
  intro c hc
  exact if_neg fun h : c = 32 => hText (h ▸ hc)

theorem next_between_quote (h : IsQuote c) : next between c = quoted c := by
  have hSpace : c ≠ 32 := by
    rintro rfl
    exact absurd h (by decide)
  simp [next, hSpace, h]

theorem next_between_bare (hFirst : c ≠ 32) (hPlain : ¬IsQuote c) : next between c = bare := by
  simp [next, hFirst, hPlain]

theorem begun_spaces (n : Nat) (rest : Bytes) :
    begun between (List.replicate n 32 ++ rest) = begun between rest := by
  induction n with
  | zero => rfl
  | succ n ih =>
      rw [List.replicate_succ, List.cons_append, begun, if_neg fun h => h.2 rfl, Nat.zero_add]
      exact ih

theorem tidy_spaces (n : Nat) (rest : Bytes) :
    Tidy between (List.replicate n 32 ++ rest) ↔ Tidy between rest := by
  induction n with
  | zero => rfl
  | succ n ih =>
      rw [List.replicate_succ, List.cons_append, Tidy, and_iff_right (by simp)]
      exact ih

/-- In the middle of a token nothing begins and nothing is skipped. -/
theorem begun_inside (hInside : place ≠ between) (hStays : ∀ c ∈ text, place.next c = place)
    (rest : Bytes) : begun place (text ++ rest) = begun place rest := by
  induction text with
  | nil => rfl
  | cons c text ih =>
      rw [List.cons_append, begun, if_neg fun h => hInside h.1, Nat.zero_add,
        hStays c (List.mem_cons_self ..)]
      exact ih fun b hb => hStays b (List.mem_cons_of_mem _ hb)

theorem tidy_inside (hInside : place ≠ closed) (hStays : ∀ c ∈ text, place.next c = place)
    (rest : Bytes) : Tidy place (text ++ rest) ↔ Tidy place rest := by
  induction text with
  | nil => rfl
  | cons c text ih =>
      rw [List.cons_append, Tidy, hStays c (List.mem_cons_self ..),
        and_iff_right fun h => absurd h hInside]
      exact ih fun b hb => hStays b (List.mem_cons_of_mem _ hb)

theorem begun_quoted (n : Nat) (hQuote : IsQuote quote) (hText : quote ∉ text)
    (hTail : ∀ c ∈ tail.head?, c = quote) :
    begun between (List.replicate n 32 ++ quote :: (text ++ tail)) =
      1 + begun between (tail.drop 2) := by
  have hSpace : quote ≠ 32 := by
    rintro rfl
    exact absurd hQuote (by decide)
  have hBehind : begun (quoted quote) tail = begun between (tail.drop 2) := by
    match tail with
    | [] => rfl
    | [c] => simp [begun, Begins]
    | c :: d :: tail =>
        obtain rfl := hTail c rfl
        simp [begun, Begins, next]
  rw [begun_spaces, begun, if_pos ⟨rfl, hSpace⟩, next_between_quote hQuote,
    begun_inside (by simp) (quoted_stays hText), hBehind]

theorem begun_bare (n : Nat) (hFirst : c ≠ 32) (hPlain : ¬IsQuote c) (hText : 32 ∉ text)
    (hTail : ∀ c ∈ tail.head?, c = 32) :
    begun between (List.replicate n 32 ++ c :: (text ++ tail)) =
      1 + begun between (tail.drop 1) := by
  have hBehind : begun bare tail = begun between (tail.drop 1) := by
    cases tail with
    | nil => rfl
    | cons d tail =>
        obtain rfl := hTail d rfl
        simp [begun, Begins, next]
  rw [begun_spaces, begun, if_pos ⟨rfl, hFirst⟩, next_between_bare hFirst hPlain,
    begun_inside (by simp) (bare_stays hText), hBehind]

theorem tidy_quoted (n : Nat) (hQuote : IsQuote quote) (hText : quote ∉ text)
    (hTail : ∀ c ∈ tail.head?, c = quote) :
    Tidy between (List.replicate n 32 ++ quote :: (text ++ tail)) ↔
      (∀ c ∈ (tail.drop 1).head?, c = 32) ∧ Tidy between (tail.drop 2) := by
  have hBehind : Tidy (quoted quote) tail ↔
      (∀ c ∈ (tail.drop 1).head?, c = 32) ∧ Tidy between (tail.drop 2) := by
    match tail with
    | [] => simp [Tidy]
    | [c] => simp [Tidy]
    | c :: d :: tail =>
        obtain rfl := hTail c rfl
        simp [Tidy, next]
  rw [tidy_spaces, Tidy, next_between_quote hQuote, and_iff_right (by simp),
    tidy_inside (by simp) (quoted_stays hText), hBehind]

theorem tidy_bare (n : Nat) (hFirst : c ≠ 32) (hPlain : ¬IsQuote c) (hText : 32 ∉ text)
    (hTail : ∀ c ∈ tail.head?, c = 32) :
    Tidy between (List.replicate n 32 ++ c :: (text ++ tail)) ↔ Tidy between (tail.drop 1) := by
  have hBehind : Tidy bare tail ↔ Tidy between (tail.drop 1) := by
    cases tail with
    | nil => rfl
    | cons d tail =>
        obtain rfl := hTail d rfl
        simp [Tidy, next]
  rw [tidy_spaces, Tidy, next_between_bare hFirst hPlain, and_iff_right (by simp),
    tidy_inside (by simp) (bare_stays hText), hBehind]

end Place

end Walks

section Tokens

variable {line : Bytes} {fuel start : Nat}

/-- The loop hands out the tokens that begin in the rest of the line. -/
theorem count_inlineTokens (hFuel : (line.drop start).length < fuel) :
    (inlineTokens line fuel start).count .endBulkString =
      Place.begun .between (line.drop start) := by
  induction fuel generalizing start with
  | zero => exact absurd hFuel (Nat.not_lt_zero _)
  | succ fuel ih =>
      have hOne : ∀ first last, (tokenCalls first last).count .endBulkString = 1 := by
        intro first last
        simp [tokenCalls]
      generalize hRest : line.drop start = rest at hFuel ⊢
      cases nextToken rest with
      | blank n =>
          have hNone := Place.begun_spaces n []
          rw [List.append_nil] at hNone
          rw [inlineTokens_blank hRest, hNone]
          rfl
      | quoted n quote text tail hQuote hText hTail =>
          simp only [List.length_append, List.length_replicate, List.length_cons] at hFuel
          have hNext := drop_behind hRest 2
          rw [inlineTokens_quoted hRest hQuote hText hTail, List.count_append, hOne,
            ih (by rw [hNext, List.length_drop]; omega), hNext,
            Place.begun_quoted n hQuote hText hTail]
      | bare n c text tail hFirst hPlain hText hTail =>
          simp only [List.length_append, List.length_replicate, List.length_cons] at hFuel
          have hNext := drop_behind hRest 1
          rw [inlineTokens_bare hRest hFirst hPlain hText hTail, List.count_append, hOne,
            ih (by rw [hNext, List.length_drop]; omega), hNext,
            Place.begun_bare n hFirst hPlain hText hTail]

end Tokens

section Balance

theorem TokenCount.tokenCount_next (t : TokenCount) (c : UInt8) :
    (t.next c).tokenCount =
      t.tokenCount + if t.quoteChar = 0 ∧ t.inToken = false ∧ c ≠ 32 then 1 else 0 := by
  by_cases hQuotes : t.quoteChar = 0
  · by_cases hSpace : c = 32
    · subst hSpace
      simp [next, hQuotes]
    · by_cases hQuote : c = 39 ∨ c = 34
      · cases hToken : t.inToken <;> simp [next, hQuotes, hSpace, hQuote, hToken]
      · cases hToken : t.inToken <;> simp [next, hQuotes, hSpace, hQuote, hToken]
  · simp only [next, hQuotes, ne_eq, not_false_eq_true, ↓reduceIte, false_and]
    split <;> simp

theorem TokenCount.isQuote_next {t : TokenCount} (h : t.quoteChar = 0 ∨ IsQuote t.quoteChar)
    (c : UInt8) : (t.next c).quoteChar = 0 ∨ IsQuote (t.next c).quoteChar := by
  unfold next
  split
  · split
    · exact Or.inl rfl
    · exact h
  · split
    · rename_i hOpens
      exact Or.inr hOpens.symm
    · split
      · exact h
      · split <;> exact h

/-- Quotes are only left at a quote. -/
theorem TokenCount.quoteChar_next_ne {t : TokenCount} (h : IsQuote t.quoteChar) {c : UInt8}
    (hc : ¬IsQuote c) : (t.next c).quoteChar ≠ 0 := by
  have hQuotes : t.quoteChar ≠ 0 := by
    intro hNone
    rw [hNone] at h
    exact absurd h (by decide)
  have hOther : c ≠ t.quoteChar := fun hSame => hc (hSame ▸ h)
  simp [next, hQuotes, hOther]

/-- After a space the counter is in no word, unless it is inside of quotes. -/
theorem TokenCount.inToken_space {t : TokenCount} (h : t.quoteChar = 0 ∨ IsQuote t.quoteChar)
    (hAfter : (t.next 32).quoteChar = 0) : (t.next 32).inToken = false := by
  rcases h with h | h
  · simp [next, h]
  · exact absurd hAfter (quoteChar_next_ne h (by decide))

/-- The carriage return is a word, or part of one. -/
theorem TokenCount.inToken_return {t : TokenCount} (h : t.quoteChar = 0 ∨ IsQuote t.quoteChar)
    (hAfter : (t.next 13).quoteChar = 0) : (t.next 13).inToken = true := by
  rcases h with h | h
  · cases hToken : t.inToken <;> simp [next, h, hToken]
  · exact absurd hAfter (quoteChar_next_ne h (by decide))

namespace Place

/-- Between two tokens there is a space. -/
theorem eq_space_of_next {place : Place} {c : UInt8} (hTidy : place = closed → c = 32)
    (h : place.next c = between) : c = 32 := by
  cases place with
  | between =>
      by_contra hSpace
      simp only [next, hSpace, ↓reduceIte] at h
      split at h
      · cases h
      · cases h
  | bare =>
      by_contra hSpace
      simp [next, hSpace] at h
  | quoted quote =>
      simp only [next] at h
      split at h
      · cases h
      · cases h
  | closed => exact hTidy rfl

end Place

namespace TwoScans

variable {s : TwoScans}

/-- The scanners have come here on a tidy line: where the loop is between two
tokens, the counter is in no word, unless it is done or inside of quotes. -/
structure Aligned (s : TwoScans) : Prop where
  quote : s.counter.quoteChar = 0 ∨ IsQuote s.counter.quoteChar
  between : s.live = true → s.place = .between → s.counter.quoteChar = 0 →
    s.counter.inToken = false

theorem aligned_start : start.Aligned := ⟨Or.inl rfl, fun _ _ _ => rfl⟩

theorem Aligned.next (h : s.Aligned) {c : UInt8} (hTidy : s.place = .closed → c = 32) :
    (s.next c).Aligned := by
  refine ⟨?_, fun hLive hPlace hQuotes => ?_⟩
  · dsimp only [TwoScans.next]
    split
    · exact TokenCount.isQuote_next h.quote c
    · exact h.quote
  · obtain rfl : c = 32 := Place.eq_space_of_next hTidy hPlace
    have hBefore : s.live = true := by simpa [TwoScans.next] using hLive
    have hCounter : (s.next 32).counter = s.counter.next 32 := if_pos ⟨hBefore, by decide⟩
    rw [hCounter] at hQuotes ⊢
    exact TokenCount.inToken_space h.quote hQuotes

theorem tokenCount_next (s : TwoScans) (c : UInt8) :
    (s.next c).counter.tokenCount = s.counter.tokenCount + if s.Counts c then 1 else 0 := by
  dsimp only [TwoScans.next]
  by_cases hReads : s.live = true ∧ c ≠ 0
  · rw [if_pos hReads, TokenCount.tokenCount_next]
    simp [Counts, Looks, hReads]
  · have hNot : ¬s.Counts c := fun h => hReads ⟨h.1.1, h.1.2.1⟩
    rw [if_neg hReads, if_neg hNot, Nat.add_zero]

/-- What one byte adds to both sides. -/
theorem Aligned.balance_next (h : s.Aligned) (c : UInt8) :
    (s.next c).counter.tokenCount + (if s.place.Begins c ∧ ¬s.Looks c then 1 else 0) =
      s.counter.tokenCount + (if s.place.Begins c then 1 else 0) +
        (if s.Counts c ∧ s.place ≠ .between then 1 else 0) := by
  rw [tokenCount_next]
  by_cases hPlace : s.place = .between
  · by_cases hSpace : c = 32
    · simp [Place.Begins, Counts, hSpace]
    · by_cases hLooks : s.Looks c
      · have hToken := h.between hLooks.1 hPlace hLooks.2.2
        simp [Place.Begins, Counts, hPlace, hSpace, hLooks, hToken]
      · simp [Place.Begins, Counts, hPlace, hSpace, hLooks]
  · simp [Place.Begins, hPlace]

/-- Where the scanners are at the end of the bytes. -/
def run (s : TwoScans) (bytes : Bytes) : TwoScans := bytes.foldl TwoScans.next s

/-- How many words the counter begins outside of the places where tokens do. -/
def extra : TwoScans → Bytes → Nat
  | _, [] => 0
  | s, c :: rest => (if s.Counts c ∧ s.place ≠ .between then 1 else 0) + extra (s.next c) rest

theorem exposed_eq (s : TwoScans) (bytes : Bytes) :
    s.exposed bytes = s.extra bytes + if (s.run bytes).Counts 13 then 1 else 0 := by
  induction bytes generalizing s with
  | nil => exact (Nat.zero_add _).symm
  | cons c rest ih =>
      rw [exposed, extra, ih, Nat.add_assoc]
      rfl

/-- On a tidy line the counter misses the hidden tokens, and no others. -/
theorem Aligned.balance (h : s.Aligned) {bytes : Bytes} (hTidy : s.place.Tidy bytes) :
    (s.run bytes).counter.tokenCount + s.hidden bytes =
      s.counter.tokenCount + s.place.begun bytes + s.extra bytes := by
  induction bytes generalizing s with
  | nil => rfl
  | cons c rest ih =>
      obtain ⟨hHere, hThere⟩ := hTidy
      have hStep := h.balance_next c
      have hRest := ih (h.next hHere) hThere
      rw [hidden, Place.begun, extra]
      change ((s.next c).run rest).counter.tokenCount + _ = _
      change _ = _ + (s.place.next c).begun rest + _ at hRest
      omega

theorem Aligned.run (h : s.Aligned) {bytes : Bytes} (hTidy : s.place.Tidy bytes) :
    (s.run bytes).Aligned := by
  induction bytes generalizing s with
  | nil => exact h
  | cons c rest ih => exact ih (h.next hTidy.1) hTidy.2

/-- A counter that is done stays as it is. -/
theorem run_done (hDone : s.live = false) (bytes : Bytes) :
    (s.run bytes).live = false ∧ (s.run bytes).counter = s.counter := by
  induction bytes generalizing s with
  | nil => exact ⟨hDone, rfl⟩
  | cons c rest ih =>
      obtain ⟨hLive, hSame⟩ := ih (s := s.next c) (by simp [TwoScans.next, hDone])
      exact ⟨hLive, hSame.trans (by simp [TwoScans.next, hDone])⟩

/-- What the counter has counted is what it finds up to the first NUL. -/
theorem foldl_cString (hLive : s.live = true) (line more : Bytes) :
    (cString (line ++ more)).foldl TokenCount.next s.counter =
      if (s.run line).live = true then (cString more).foldl TokenCount.next (s.run line).counter
      else (s.run line).counter := by
  induction line generalizing s with
  | nil => exact (if_pos hLive).symm
  | cons c rest ih =>
      by_cases hNul : c = 0
      · subst hNul
        obtain ⟨hDone, hSame⟩ := run_done (s := s.next 0) (by simp [TwoScans.next]) rest
        have hText : cString ((0 :: rest) ++ more) = [] := by simp [cString]
        change _ = if ((s.next 0).run rest).live = true then _ else ((s.next 0).run rest).counter
        rw [hText, hDone, if_neg (by decide), hSame]
        simp [TwoScans.next]
      · have hText : cString ((c :: rest) ++ more) = c :: cString (rest ++ more) := by
          simp [cString, hNul]
        have hCounter : (s.next c).counter = s.counter.next c := if_pos ⟨hLive, hNul⟩
        rw [hText, List.foldl_cons, ← hCounter]
        exact ih (by simp [TwoScans.next, hLive, hNul])

end TwoScans

section Total

/-- The count up to a NUL behind these bytes. -/
theorem countTokens_append (bytes more : Bytes) :
    countTokens (bytes ++ more) =
      (if (TwoScans.start.run bytes).live = true then
        (cString more).foldl TokenCount.next (TwoScans.start.run bytes).counter
      else (TwoScans.start.run bytes).counter).tokenCount :=
  congrArg TokenCount.tokenCount (TwoScans.foldl_cString (s := TwoScans.start) rfl bytes more)

variable (line : Bytes)

/-- The count goes on behind the line, at least with the carriage return. -/
theorem le_countTokens (after : Bytes) :
    (TwoScans.start.run line).counter.tokenCount +
        (if (TwoScans.start.run line).Counts 13 then 1 else 0) ≤
      countTokens (line ++ 13 :: 10 :: after) := by
  have hText : line ++ 13 :: 10 :: after = (line ++ [13]) ++ 10 :: after := by simp
  have hRun : TwoScans.start.run (line ++ [13]) = (TwoScans.start.run line).next 13 :=
    List.foldl_append
  rw [← TwoScans.tokenCount_next, hText, countTokens_append, hRun]
  split
  · exact TokenCount.le_foldl _ _
  · exact le_rfl

/-- With a NUL right behind it nothing else is counted. -/
theorem countTokens_line (hTidy : Place.Tidy .between line) :
    countTokens (line ++ [13, 10]) = (TwoScans.start.run line).counter.tokenCount +
      if (TwoScans.start.run line).Counts 13 then 1 else 0 := by
  have hAligned := TwoScans.aligned_start.run hTidy
  have hRun : TwoScans.start.run (line ++ [13, 10]) = ((TwoScans.start.run line).next 13).next 10 :=
    List.foldl_append
  have hNone : ¬((TwoScans.start.run line).next 13).Counts 10 := by
    generalize TwoScans.start.run line = u at hAligned
    rintro ⟨⟨hLive, -, hQuotes⟩, hToken, -⟩
    have hBefore : u.live = true := by simpa [TwoScans.next] using hLive
    have hCounter : (u.next 13).counter = u.counter.next 13 := if_pos ⟨hBefore, by decide⟩
    rw [hCounter] at hQuotes hToken
    rw [TokenCount.inToken_return hAligned.quote hQuotes] at hToken
    cases hToken
  rw [← TwoScans.tokenCount_next, ← List.append_nil (line ++ [13, 10]), countTokens_append, hRun]
  have hLast := ((TwoScans.start.run line).next 13).tokenCount_next 10
  rw [if_neg hNone] at hLast
  split
  · exact hLast
  · exact hLast

end Total

end Balance

section Kept

variable {line : Bytes} {fuel start n : Nat} {c : UInt8} {text tail : Bytes}

/-- What is kept by some of the callbacks is kept by all of them. -/
theorem KeepsAt.mono {calls more : List Callback} {i : Nat} (h : KeepsAt line calls i)
    (hSub : calls ⊆ more) : KeepsAt line more i := by
  rcases h with ⟨first, last, hMem, hIn⟩ | hSpace | ⟨hQuote, hWord, last, hMem⟩ |
    ⟨hQuote, first, hMem, hSame⟩
  · exact Or.inl ⟨first, last, hSub hMem, hIn⟩
  · exact Or.inr (Or.inl hSpace)
  · exact Or.inr (Or.inr (Or.inl ⟨hQuote, hWord, last, hSub hMem⟩))
  · exact Or.inr (Or.inr (Or.inr ⟨hQuote, first, hSub hMem, hSame⟩))

theorem byteAt_behind (h : line.drop start = List.replicate n 32 ++ c :: (text ++ tail))
    (k : Nat) : byteAt line (start + n + 1 + text.length + k) = byteAt tail k := by
  have hTail := drop_behind h 0
  rw [List.drop_zero, Nat.add_zero] at hTail
  rw [← byteAt_drop, hTail]

theorem byteAt_head {bytes : Bytes} {d : UInt8} (h : ∀ c ∈ bytes.head?, c = d)
    (hSome : 0 < bytes.length) : byteAt bytes 0 = d := by
  cases bytes with
  | nil => cases hSome
  | cons c bytes => exact h c rfl

theorem byteAt_space_of_lt {rest : Bytes} (h : line.drop start = List.replicate n 32 ++ rest)
    {i : Nat} (hFrom : start ≤ i) (hTo : i < start + n) : byteAt line i = 32 := by
  obtain ⟨k, rfl⟩ := Nat.exists_eq_add_of_le hFrom
  have hk : k < n := by omega
  rw [← byteAt_drop, h, byteAt, List.getD_eq_getElem?_getD, List.getElem?_append_left (by simpa)]
  simp [hk]

/-- The bytes up to the one behind the closing quote of a token. -/
theorem keepsAt_quoted {quote : UInt8}
    (h : line.drop start = List.replicate n 32 ++ quote :: (text ++ tail)) (hQuote : IsQuote quote)
    (hTail : ∀ c ∈ tail.head?, c = quote) (hTidy : ∀ c ∈ (tail.drop 1).head?, c = 32)
    (hWord : start = 0 ∨ byteAt line (start - 1) = 32) {i : Nat} (hFrom : start ≤ i)
    (hTo : i < start + n + 1 + text.length + 2) (hLine : i < line.length) :
    KeepsAt line (tokenCalls (start + n + 1) (start + n + 1 + text.length)) i := by
  have hLength := length_line h
  have hOpening := byteAt_spaces h
  rcases Nat.lt_or_ge i (start + n) with hSpaces | hSpaces
  · exact Or.inr (Or.inl (byteAt_space_of_lt h hFrom hSpaces))
  rcases Nat.eq_or_lt_of_le hSpaces with rfl | hOpen
  · refine Or.inr (Or.inr (Or.inl ⟨by rw [hOpening]; exact hQuote, ?_, _,
      chars_mem_tokenCalls.mpr ⟨rfl, rfl⟩⟩))
    cases n with
    | zero => exact hWord
    | succ n => exact Or.inr (byteAt_space_of_lt h (by omega) (by omega))
  rcases Nat.lt_or_ge i (start + n + 1 + text.length) with hInside | hInside
  · exact Or.inl ⟨_, _, chars_mem_tokenCalls.mpr ⟨rfl, rfl⟩, hOpen, hInside⟩
  rcases Nat.eq_or_lt_of_le hInside with rfl | hBehind
  · have hClosing : byteAt line (start + n + 1 + text.length) = quote := by
      have hByte := byteAt_behind h 0
      rw [Nat.add_zero] at hByte
      rw [hByte]
      exact byteAt_head hTail (by omega)
    refine Or.inr (Or.inr (Or.inr ⟨by rw [hClosing]; exact hQuote, start + n,
      chars_mem_tokenCalls.mpr ⟨rfl, rfl⟩, by rw [hOpening, hClosing]⟩))
  · obtain rfl : i = start + n + 1 + text.length + 1 := by omega
    refine Or.inr (Or.inl ?_)
    have hHead := byteAt_head hTidy (by rw [List.length_drop]; omega)
    rw [byteAt_behind h, ← hHead, byteAt_drop]

/-- The bytes up to the space behind a token. -/
theorem keepsAt_bare (h : line.drop start = List.replicate n 32 ++ c :: (text ++ tail))
    (hTail : ∀ c ∈ tail.head?, c = 32) {i : Nat} (hFrom : start ≤ i)
    (hTo : i < start + n + 1 + text.length + 1) (hLine : i < line.length) :
    KeepsAt line (tokenCalls (start + n) (start + n + 1 + text.length)) i := by
  have hLength := length_line h
  rcases Nat.lt_or_ge i (start + n) with hSpaces | hSpaces
  · exact Or.inr (Or.inl (byteAt_space_of_lt h hFrom hSpaces))
  rcases Nat.lt_or_ge i (start + n + 1 + text.length) with hInside | hInside
  · exact Or.inl ⟨_, _, chars_mem_tokenCalls.mpr ⟨rfl, rfl⟩, hSpaces, hInside⟩
  · obtain rfl : i = start + n + 1 + text.length := by omega
    have hByte := byteAt_behind h 0
    rw [Nat.add_zero] at hByte
    refine Or.inr (Or.inl ?_)
    rw [hByte]
    exact byteAt_head hTail (by omega)

/-- A tidy rest of a line is kept. -/
theorem keepsAt_of_tidy (hFuel : (line.drop start).length < fuel)
    (hTidy : Place.Tidy .between (line.drop start))
    (hWord : start = 0 ∨ byteAt line (start - 1) = 32) {i : Nat} (hFrom : start ≤ i)
    (hTo : i < line.length) : KeepsAt line (inlineTokens line fuel start) i := by
  induction fuel generalizing start with
  | zero => exact absurd hFuel (Nat.not_lt_zero _)
  | succ fuel ih =>
      generalize hRest : line.drop start = rest at hFuel hTidy
      cases nextToken rest with
      | blank n =>
          have hLength := congrArg List.length hRest
          rw [List.length_drop, List.length_replicate] at hLength
          rw [← List.append_nil (List.replicate n 32)] at hRest
          exact Or.inr (Or.inl (byteAt_space_of_lt hRest hFrom (by omega)))
      | quoted n quote text tail hQuote hText hTail =>
          simp only [List.length_append, List.length_replicate, List.length_cons] at hFuel
          obtain ⟨hSpace, hBehind⟩ := (Place.tidy_quoted n hQuote hText hTail).mp hTidy
          have hNext := drop_behind hRest 2
          rw [inlineTokens_quoted hRest hQuote hText hTail]
          rcases Nat.lt_or_ge i (start + n + 1 + text.length + 2) with hHere | hThere
          · exact (keepsAt_quoted hRest hQuote hTail hSpace hWord hFrom hHere hTo).mono
              (List.subset_append_left _ _)
          · refine (ih (by rw [hNext, List.length_drop]; omega) (by rw [hNext]; exact hBehind)
              (Or.inr ?_) hThere).mono (List.subset_append_right _ _)
            have hLength := length_line hRest
            have hHead := byteAt_head hSpace (by rw [List.length_drop]; omega)
            exact (byteAt_behind hRest 1).trans (by rw [← hHead, byteAt_drop])
      | bare n c text tail hFirst hPlain hText hTail =>
          simp only [List.length_append, List.length_replicate, List.length_cons] at hFuel
          have hBehind := (Place.tidy_bare n hFirst hPlain hText hTail).mp hTidy
          have hNext := drop_behind hRest 1
          rw [inlineTokens_bare hRest hFirst hPlain hText hTail]
          rcases Nat.lt_or_ge i (start + n + 1 + text.length + 1) with hHere | hThere
          · exact (keepsAt_bare hRest hTail hFrom hHere hTo).mono (List.subset_append_left _ _)
          · refine (ih (by rw [hNext, List.length_drop]; omega) (by rw [hNext]; exact hBehind)
              (Or.inr ?_) hThere).mono (List.subset_append_right _ _)
            have hLength := length_line hRest
            exact (byteAt_behind hRest 0).trans (byteAt_head hTail (by omega))

/-- Every token is in front of the byte or behind it. -/
def Misses (calls : List Callback) (i : Nat) : Prop :=
  ∀ first last : Int, .chars first last ∈ calls → last < i ∨ i < first

theorem Misses.token {first last i : Nat} {more : List Callback} (hLast : last < i)
    (h : Misses more i) : Misses (tokenCalls first last ++ more) i := by
  intro begin stop hMem
  rcases List.mem_append.mp hMem with hHere | hThere
  · obtain ⟨rfl, rfl⟩ := chars_mem_tokenCalls.mp hHere
    exact Or.inl (by omega)
  · exact h begin stop hThere

/-- The byte behind a closing quote, if it is no space. -/
theorem byteAt_lost {quote : UInt8}
    (h : line.drop start = List.replicate n 32 ++ quote :: (text ++ tail)) (hQuote : IsQuote quote)
    (hTail : ∀ c ∈ tail.head?, c = quote) (hSpace : ¬∀ c ∈ (tail.drop 1).head?, c = 32) :
    start + n + 1 + text.length + 1 < line.length ∧
      byteAt line (start + n + 1 + text.length + 1) ≠ 32 ∧
      byteAt line (start + n + 1 + text.length) ≠ 32 := by
  have hLength := length_line h
  have hLost := byteAt_behind h 1
  have hClosing := byteAt_behind h 0
  match tail, hTail, hSpace with
  | [], _, hSpace => exact absurd (by simp) hSpace
  | [d], _, hSpace => exact absurd (by simp) hSpace
  | d :: e :: tail, hTail, hSpace =>
      obtain rfl := hTail d rfl
      refine ⟨by simp only [List.length_cons] at hLength; omega, ?_, ?_⟩
      · rw [hLost]
        simpa [byteAt] using hSpace
      · rintro hSame
        rw [Nat.add_zero, hSame] at hClosing
        obtain rfl : d = 32 := hClosing.symm
        exact absurd hQuote (by decide)

/-- The byte behind a closing quote is skipped, and if it is no space it is lost. -/
theorem exists_lost (hFuel : (line.drop start).length < fuel)
    (hTidy : ¬Place.Tidy .between (line.drop start)) :
    ∃ i, start ≤ i ∧ i < line.length ∧ 0 < i ∧ byteAt line i ≠ 32 ∧ byteAt line (i - 1) ≠ 32 ∧
      Misses (inlineTokens line fuel start) i := by
  induction fuel generalizing start with
  | zero => exact absurd hFuel (Nat.not_lt_zero _)
  | succ fuel ih =>
      generalize hRest : line.drop start = rest at hFuel hTidy
      cases nextToken rest with
      | blank n =>
          have hBlank := (Place.tidy_spaces n []).mpr trivial
          rw [List.append_nil] at hBlank
          exact absurd hBlank hTidy
      | quoted n quote text tail hQuote hText hTail =>
          simp only [List.length_append, List.length_replicate, List.length_cons] at hFuel
          have hNext := drop_behind hRest 2
          rw [inlineTokens_quoted hRest hQuote hText hTail]
          by_cases hSpace : ∀ c ∈ (tail.drop 1).head?, c = 32
          · have hBehind : ¬Place.Tidy .between (tail.drop 2) := fun h =>
              hTidy ((Place.tidy_quoted n hQuote hText hTail).mpr ⟨hSpace, h⟩)
            obtain ⟨i, hFrom, hTo, hPos, hByte, hBefore, hMisses⟩ :=
              ih (by rw [hNext, List.length_drop]; omega) (by rw [hNext]; exact hBehind)
            exact ⟨i, by omega, hTo, hPos, hByte, hBefore, hMisses.token (by omega)⟩
          · obtain ⟨hTo, hByte, hBefore⟩ := byteAt_lost hRest hQuote hTail hSpace
            refine ⟨_, by omega, hTo, by omega, hByte, hBefore, Misses.token (by omega) ?_⟩
            intro first last hMem
            have hLater := (chars_mem_inlineTokens hMem).1
            exact Or.inr (by omega)
      | bare n c text tail hFirst hPlain hText hTail =>
          simp only [List.length_append, List.length_replicate, List.length_cons] at hFuel
          have hNext := drop_behind hRest 1
          have hBehind : ¬Place.Tidy .between (tail.drop 1) := fun h =>
            hTidy ((Place.tidy_bare n hFirst hPlain hText hTail).mpr h)
          rw [inlineTokens_bare hRest hFirst hPlain hText hTail]
          obtain ⟨i, hFrom, hTo, hPos, hByte, hBefore, hMisses⟩ :=
            ih (by rw [hNext, List.length_drop]; omega) (by rw [hNext]; exact hBehind)
          exact ⟨i, by omega, hTo, hPos, hByte, hBefore, hMisses.token (by omega)⟩

/-- The tokens leave nothing of the line out exactly when it is tidy. -/
theorem keepsLine_iff (line : Bytes) :
    KeepsLine line (inlineTokens line (line.length + 1) 0) ↔ Place.Tidy .between line := by
  have hFuel : (line.drop 0).length < line.length + 1 := Nat.lt_succ_self _
  constructor
  · intro h
    by_contra hTidy
    obtain ⟨i, -, hTo, hPos, hByte, hBefore, hMisses⟩ := exists_lost hFuel hTidy
    rcases h i hTo with ⟨first, last, hMem, hFrom, hIn⟩ | hSpace | ⟨-, hWord, -⟩ |
      ⟨-, first, hMem, -⟩
    · have := hMisses _ _ hMem
      omega
    · exact hByte hSpace
    · rcases hWord with rfl | hWord
      · exact absurd hPos (Nat.lt_irrefl 0)
      · exact hBefore hWord
    · have hOrder := (chars_mem_inlineTokens hMem).2.1
      have := hMisses _ _ hMem
      omega
  · intro hTidy i hTo
    exact keepsAt_of_tidy hFuel hTidy (Or.inl rfl) (Nat.zero_le i) hTo

end Kept

/-- What is asked of a line when a NUL follows it. -/
theorem CoversLine.before_nul {line : Bytes} (h : CoversLine line) (hLine : 13 ∉ line) :
    (inlineTokens line (line.length + 1) 0).count .endBulkString ≤
        countTokens (line ++ [13, 10]) ∧
      KeepsLine line (inlineTokens line (line.length + 1) 0) := by
  obtain ⟨count, tokens, hCalls, hCount, hKeeps⟩ := h [] [] (line.length + 2) le_rfl
  rw [Parser.parse_line hLine [] [] le_rfl] at hCalls
  obtain ⟨hSame, hRest⟩ := List.cons.inj hCalls
  obtain rfl := List.append_cancel_right hRest
  have hAnnounced : countTokens (line ++ [13, 10]) = count := by
    exact_mod_cast Callback.beginArray.inj hSame
  exact ⟨by rw [hAnnounced]; exact hCount, hKeeps⟩

/-- A carriage return inside of the line ends it for the loop, and is lost with what
stands behind it. -/
theorem CoversLine.no_return {line : Bytes} (h : CoversLine line) : 13 ∉ line := by
  intro hMem
  obtain ⟨more, rest, rfl, hMore⟩ := List.eq_append_cons_of_mem hMem
  obtain ⟨count, tokens, hCalls, -, hKeeps⟩ := h [] [] ((more ++ 13 :: rest).length + 2) le_rfl
  have hAll : ((more ++ 13 :: rest) ++ [13, 10]).take ((more ++ 13 :: rest).length + 2) =
      more ++ 13 :: (rest ++ [13, 10]) := by
    rw [List.take_of_length_le (by rw [List.length_append]; rfl), List.append_assoc,
      List.cons_append]
  have hScan := scanCr_eq ((more ++ 13 :: rest).length + 2) hAll hMore (Or.inr rfl)
  have hLength : (more ++ 13 :: rest).length = more.length + (rest.length + 1) := by simp
  rw [Parser.parse_inlineCommand, hScan, if_pos (by omega), List.append_assoc, List.take_left]
    at hCalls
  obtain rfl := List.append_cancel_right (List.cons.inj hCalls).2
  have hByte : byteAt (more ++ 13 :: rest) more.length = 13 := by simp [byteAt]
  have hPlain : ¬IsQuote (byteAt (more ++ 13 :: rest) more.length) := by
    rw [hByte]
    decide
  rcases hKeeps more.length (by omega) with ⟨first, last, hToken, -, hIn⟩ | hSpace | ⟨hQuote, -⟩ |
    ⟨hQuote, -⟩
  · have hOrder := (chars_mem_inlineTokens hToken).2.2
    omega
  · rw [hByte] at hSpace
    exact absurd hSpace (by decide)
  · exact hPlain hQuote
  · exact hPlain hQuote

/-- Exactly which lines are covered by their count and their tokens: there is no carriage
return in them, every closing quote is followed by a space or the end of the line, and
the tokens that the counter does not see are not more than the words that it sees
elsewhere. -/
theorem inline_line_covered_iff (line : Bytes) :
    CoversLine line ↔ 13 ∉ line ∧ Place.Tidy .between line ∧
      TwoScans.start.hidden line ≤ TwoScans.start.exposed line := by
  have hTokens : (inlineTokens line (line.length + 1) 0).count .endBulkString =
      Place.begun .between line :=
    count_inlineTokens (show (line.drop 0).length < line.length + 1 from Nat.lt_succ_self _)
  have hExposed := TwoScans.start.exposed_eq line
  constructor
  · intro h
    have hLine := h.no_return
    obtain ⟨hCount, hKeeps⟩ := h.before_nul hLine
    have hTidy := (keepsLine_iff line).mp hKeeps
    have hBalance := TwoScans.aligned_start.balance hTidy
    change _ = 0 + Place.begun .between line + _ at hBalance
    rw [countTokens_line line hTidy] at hCount
    exact ⟨hLine, hTidy, by omega⟩
  · rintro ⟨hLine, hTidy, hSeen⟩ after lens avail hInside
    refine ⟨_, _, by rw [Parser.parse_line hLine after lens hInside], ?_,
      (keepsLine_iff line).mpr hTidy⟩
    have hBalance := TwoScans.aligned_start.balance hTidy
    change _ = 0 + Place.begun .between line + _ at hBalance
    have hAtLeast := le_countTokens line after
    omega

/-- The quotes of the last token are closed in it. -/
theorem inline_line_covered_set : CoversLine (text "SET 'a b' it\"s\"") :=
  (inline_line_covered_iff _).mpr
    ⟨by decide +kernel, by decide +kernel, by decide +kernel⟩

/-- One token is announced for this line, and three are handed out. -/
theorem inline_line_not_covered : ¬CoversLine (text "it's a b") := by
  intro h
  exact absurd (h.before_nul (by decide +kernel)).1 (by decide +kernel)

/-- A byte of this line is lost. -/
example : ¬KeepsLine (text "\"a\"b") (inlineTokens (text "\"a\"b") 5 0) := by
  intro h
  exact absurd ((keepsLine_iff _).mp h) (by decide +kernel)

end RedisServer
