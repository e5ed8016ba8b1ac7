import RedisServer.Protocol.Replies

/-! The client's end of the reply stream: a reader of one value that hands back
the bytes behind it. It accepts exactly what the protocol allows, so a line
with a stray carriage return or line feed is no value. -/
namespace RedisServer

open Machine

/-- The bytes up to the next line end, and what follows it. -/
def readLine : Bytes → Option (Bytes × Bytes)
  | [] => none
  | c :: rest =>
      if c = 13 then if rest.head? = some 10 then some ([], rest.drop 1) else none
      else if c = 10 then none
      else (readLine rest).map fun (line, rest) => (c :: line, rest)

def readNat (line : Bytes) : Option Nat :=
  if line ≠ [] ∧ line.all isDigit = true then some (digitsValue line) else none

def readInt (line : Bytes) : Option Int :=
  if line.head? = some 45 then (readNat (line.drop 1)).map fun (n : Nat) => -(n : Int)
  else (readNat line).map fun (n : Nat) => (n : Int)

/-- A payload of known length with the line end behind it. -/
def readPayload (n : Nat) (bytes : Bytes) : Option (Bytes × Bytes) :=
  if n ≤ bytes.length ∧ (bytes.drop n).take 2 = crlf then
    some (bytes.take n, bytes.drop (n + 2))
  else none

def readBulk : Bytes → Option (Bytes × Bytes)
  | 36 :: bytes => do
      let (line, bytes) ← readLine bytes
      let n ← readNat line
      readPayload n bytes
  | _ => none

def readItems : Nat → Bytes → Option (List Bytes × Bytes)
  | 0, bytes => some ([], bytes)
  | n + 1, bytes => do
      let (item, bytes) ← readBulk bytes
      let (items, bytes) ← readItems n bytes
      some (item :: items, bytes)

/-- One value of the kinds that a server replies with. -/
def readReply : Bytes → Option (Reply × Bytes)
  | [] => none
  | mark :: bytes => do
      let (line, bytes) ← readLine bytes
      if mark = 43 then some (.simpleString line, bytes)
      else if mark = 45 then some (.error line, bytes)
      else if mark = 58 then (readInt line).map (.integer ·, bytes)
      else if mark = 36 then
        if line = ascii ['-', '1'] then some (.null, bytes)
        else
          let n ← readNat line
          (readPayload n bytes).map fun (payload, bytes) => (.bulkString payload, bytes)
      else if mark = 42 then
        let n ← readNat line
        (readItems n bytes).map fun (items, bytes) => (.array items, bytes)
      else none

/-- A stream of exactly so many values. -/
def readReplies : Nat → Bytes → Option (List Reply)
  | 0, bytes => if bytes = [] then some [] else none
  | k + 1, bytes => do
      let (r, bytes) ← readReply bytes
      (readReplies k bytes).map (r :: ·)

/-- A text that is one line. -/
def OneLine (str : Bytes) : Prop := (13 : UInt8) ∉ str ∧ (10 : UInt8) ∉ str

instance (str : Bytes) : Decidable (OneLine str) := inferInstanceAs (Decidable (_ ∧ _))

theorem oneLine_text {chars : List Char} (h : OneLine (ascii chars)) :
    OneLine (cString (text (String.ofList chars))) := by
  rw [text_ofList]
  exact ⟨fun hMem => h.1 (List.takeWhile_subset _ hMem),
    fun hMem => h.2 (List.takeWhile_subset _ hMem)⟩

namespace Reply

/-- The texts of the line kinds are lines. -/
def WellFormed : Reply → Prop
  | .simpleString str | .error str => OneLine (cString str)
  | _ => True

/-- What a reply says: its texts are C strings. -/
def said : Reply → Reply
  | .simpleString str => .simpleString (cString str)
  | .bulkString str => .bulkString (cString str)
  | .null => .null
  | .error str => .error (cString str)
  | .integer i => .integer i
  | .array items => .array (items.map cString)

end Reply

section RoundTrip

theorem readLine_append {line : Bytes} (h : OneLine line) (rest : Bytes) :
    readLine (line ++ crlf ++ rest) = some (line, rest) := by
  induction line with
  | nil => rfl
  | cons c line ih =>
      obtain ⟨hCr, hLf⟩ := h
      rw [List.mem_cons, not_or] at hCr hLf
      rw [List.cons_append, List.cons_append, readLine, if_neg (Ne.symm hCr.1),
        if_neg (Ne.symm hLf.1), ih ⟨hCr.2, hLf.2⟩]
      rfl

/-- A text is read to its own end only when it is one line. -/
theorem oneLine_of_readLine {str line : Bytes} (h : readLine (str ++ crlf) = some (line, [])) :
    OneLine str := by
  induction str generalizing line with
  | nil => exact ⟨List.not_mem_nil, List.not_mem_nil⟩
  | cons c str ih =>
      rw [List.cons_append, readLine] at h
      split at h
      · -- a line end inside the text leaves the real one behind
        split at h
        · have hRest := congrArg (fun result => (result.2 : Bytes).length) (Option.some.inj h)
          simp [crlf] at hRest
        · cases h
      · rename_i hCr
        split at h
        · cases h
        · rename_i hLf
          obtain ⟨⟨rest, tail⟩, hRead, hLine⟩ := Option.map_eq_some_iff.mp h
          cases hLine
          obtain ⟨hNoCr, hNoLf⟩ := ih hRead
          constructor
          · rw [List.mem_cons, not_or]
            exact ⟨Ne.symm hCr, hNoCr⟩
          · rw [List.mem_cons, not_or]
            exact ⟨Ne.symm hLf, hNoLf⟩

theorem oneLine_of_digits {line : Bytes} (h : ∀ c ∈ line, isDigit c = true) : OneLine line := by
  constructor
  · intro hc
    exact absurd (h _ hc) (by decide)
  · intro hc
    exact absurd (h _ hc) (by decide)

theorem readNat_natText (n : Nat) : readNat (natText n) = some n := by
  have hDigits : (natText n).all isDigit = true :=
    List.all_eq_true.mpr fun c hc => isDigit_of_mem_natText hc
  rw [readNat, if_pos ⟨natText_ne_nil n, hDigits⟩, digitsValue_natText]

theorem readInt_intText (i : Int) : readInt (intText i) = some i := by
  unfold intText
  split
  · rename_i hNegative
    rw [readInt, if_pos (by rfl), List.drop_succ_cons, List.drop_zero, readNat_natText,
      Option.map_some]
    congr 1
    omega
  · rename_i hNonneg
    obtain ⟨c, cs, hText⟩ := List.exists_cons_of_ne_nil (natText_ne_nil i.natAbs)
    have hDigit : isDigit c = true := isDigit_of_mem_natText (by rw [hText]; simp)
    have hMinus : c ≠ 45 := (digit_ne_sign hDigit).1
    rw [readInt, if_neg (by simp [hText, hMinus]), readNat_natText, Option.map_some]
    congr 1
    omega

theorem oneLine_intText (i : Int) : OneLine (intText i) := by
  have hDigits := oneLine_of_digits (fun c hc => isDigit_of_mem_natText (n := i.natAbs) hc)
  unfold intText
  split
  · exact ⟨by simp [hDigits.1], by simp [hDigits.2]⟩
  · exact hDigits

theorem readLine_lengthText (n : Nat) (rest : Bytes) :
    readLine (lengthText n ++ rest) = some (natText n, rest) :=
  readLine_append (oneLine_of_digits fun _ hc => isDigit_of_mem_natText hc) rest

theorem readPayload_append (x rest : Bytes) :
    readPayload x.length (x ++ [13, 10] ++ rest) = some (x, rest) := by
  have hTail : (x ++ [13, 10] ++ rest).drop (x.length + 2) = rest := by
    rw [List.drop_left' (by rw [List.length_append]; rfl)]
  rw [readPayload, hTail]
  rw [List.append_assoc]
  rw [if_pos ⟨by simp, by rw [List.drop_left]; rfl⟩, List.take_left]

theorem readBulk_encode (x rest : Bytes) :
    readBulk (encodeBulkString x ++ rest) = some (x, rest) := by
  rw [encodeBulkString, List.cons_append, readBulk, List.append_assoc, readLine_lengthText]
  simp only [Option.bind_eq_bind, Option.bind_some, readNat_natText]
  exact readPayload_append x rest

theorem readItems_encode (items : List Bytes) (rest : Bytes) :
    readItems items.length (items.flatMap encodeBulkString ++ rest) = some (items, rest) := by
  induction items with
  | nil => rfl
  | cons item items ih =>
      rw [List.length_cons, readItems, List.flatMap_cons, List.append_assoc, readBulk_encode]
      simp only [Option.bind_eq_bind, Option.bind_some, ih]

/-- A length is never taken for the mark of the null string. -/
theorem natText_ne_minus (n : Nat) : natText n ≠ ascii ['-', '1'] := by
  intro h
  have hDigit : isDigit 45 = true := isDigit_of_mem_natText (n := n) (by rw [h]; decide)
  exact absurd hDigit (by decide)

/-- A well formed reply is read back, and nothing behind it is touched. -/
theorem readReply_encode {r : Reply} (h : r.WellFormed) (rest : Bytes) :
    readReply (r.encode ++ rest) = some (r.said, rest) := by
  cases r with
  | simpleString str =>
      rw [Reply.encode, List.cons_append, List.cons_append, readReply, readLine_append h]
      rfl
  | error str =>
      rw [Reply.encode, List.cons_append, List.cons_append, readReply, readLine_append h]
      rfl
  | integer i =>
      rw [Reply.encode, List.cons_append, List.cons_append, readReply,
        readLine_append (oneLine_intText i)]
      simp [readInt_intText, Reply.said]
  | null => rfl
  | bulkString str =>
      rw [Reply.encode, encodeBulkString, List.cons_append, readReply, List.append_assoc,
        readLine_lengthText]
      have hPayload := readPayload_append (cString str) rest
      simp only [List.append_assoc, List.cons_append, List.nil_append] at hPayload
      simp [readNat_natText, hPayload, Reply.said, natText_ne_minus]
  | array items =>
      rw [Reply.encode, encodeCommand, List.cons_append, readReply, List.append_assoc,
        readLine_lengthText]
      have hItems := readItems_encode (items.map cString) rest
      rw [List.length_map] at hItems
      simp [readNat_natText, hItems, Reply.said]

/-- The encodings of a list of replies are read as that many values. -/
theorem readReplies_encode (replies : List Reply) (h : ∀ r ∈ replies, r.WellFormed) :
    readReplies replies.length (replies.flatMap Reply.encode) = some (replies.map Reply.said) := by
  induction replies with
  | nil => rfl
  | cons r replies ih =>
      rw [List.length_cons, readReplies, List.flatMap_cons,
        readReply_encode (h r (List.mem_cons_self ..))]
      simp only [Option.bind_eq_bind, Option.bind_some]
      rw [ih (fun r hr => h r (List.mem_cons_of_mem _ hr))]
      rfl

end RoundTrip

end RedisServer
