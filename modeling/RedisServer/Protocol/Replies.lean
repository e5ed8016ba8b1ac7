import RedisServer.Protocol.ClientInput

/-! The reply side of a client: the writers of `resp.c` and the helpers of
`commands.c` that put a reply together from them. Every writer tests the room
in the output ring on its own and tells its caller nothing, so a reply is
queued as a whole only when the ring has room for all of it. -/
namespace RedisServer

open Machine

def crlf : Bytes := [13, 10]

/-- What `snprintf` stores of a text: as much as leaves a byte for the NUL. -/
def snprintf (size : Nat) (text : Bytes) : Bytes := text.take (size - 1) ++ [0]

section Writers

variable (rb : RingBuffer)

/-- The writers of a fixed text. They return at once when it does not fit. -/
def writeFixed (text : Bytes) : Option RingBuffer := do
  let (outputBuf, writableLen) ← rbWritable rb
  if writableLen.toNat < text.length then some rb
  else (rbWrite (rb.memcpy outputBuf text) (UInt64.ofNat text.length)).map Prod.fst

def writeBeginSimpleString : Option RingBuffer := writeFixed rb [43]

def writeEndSimpleString : Option RingBuffer := writeFixed rb crlf

def writeBeginError : Option RingBuffer := writeFixed rb [45]

def writeEndError : Option RingBuffer := writeFixed rb crlf

def writeBeginInteger : Option RingBuffer := writeFixed rb [58]

def writeEndInteger : Option RingBuffer := writeFixed rb crlf

def writeEndBulkString : Option RingBuffer := writeFixed rb crlf

/-- The header of a null string has no line end of its own, and then only its
own three bytes are asked for, although `snprintf` wants one more. -/
def writeBeginBulkString (len : Int) : Option RingBuffer := do
  let (outputBuf, writableLen) ← rbWritable rb
  let text := 36 :: intText len
  if writableLen.toNat < text.length + (if len ≠ -1 then 2 else 0) then some rb
  else
    let (rb, _) ← rbWrite (rb.memcpy outputBuf (snprintf writableLen.toNat text))
      (UInt64.ofNat text.length)
    if len ≠ -1 then (rbWrite (rb.memcpy (outputBuf + text.length) crlf) 2).map Prod.fst
    else some rb

def writeBeginArray (len : Int) : Option RingBuffer := do
  let (outputBuf, writableLen) ← rbWritable rb
  let text := 42 :: intText len ++ crlf
  if writableLen.toNat < text.length then some rb
  else
    (rbWrite (rb.memcpy outputBuf (snprintf writableLen.toNat text))
      (UInt64.ofNat text.length)).map Prod.fst

def writeEndArray : Option RingBuffer := some rb

/-- The one writer that goes on after its complaint: the text is stored in any
case, over unread bytes if need be, and then `rb_write` refuses to queue it.
Behind the double mapping there is no memory to store it in. -/
def writeChars (str : Bytes) : Option RingBuffer := do
  let (outputBuf, _) ← rbWritable rb
  let text := cString str
  if outputBuf + text.length ≤ 2 * rb.size.toNat then
    (rbWrite (rb.memcpy outputBuf text) (UInt64.ofNat text.length)).map Prod.fst
  else none

end Writers

/-- The replies that the helpers produce. -/
inductive Reply where
  | simpleString (str : Bytes)
  | bulkString (str : Bytes)
  | null
  | error (str : Bytes)
  | integer (i : Int)
  | array (items : List Bytes)
  deriving DecidableEq

section Helpers

variable (rb : RingBuffer)

def addSimpleStringReply (str : Bytes) : Option RingBuffer := do
  let rb ← writeBeginSimpleString rb
  let rb ← writeChars rb str
  writeEndSimpleString rb

def addBulkStringReply (str : Bytes) : Option RingBuffer := do
  let rb ← writeBeginBulkString rb (cString str).length
  let rb ← writeChars rb str
  writeEndBulkString rb

/-- A null array comes with length 0, which is the empty list here. -/
def addArrayReply (array : List Bytes) : Option RingBuffer := do
  let rb ← writeBeginArray rb array.length
  let rb ← array.foldlM addBulkStringReply rb
  writeEndArray rb

def addNullReply : Option RingBuffer := do
  let rb ← writeBeginBulkString rb (-1)
  writeEndBulkString rb

def addErrorReply (str : Bytes) : Option RingBuffer := do
  let rb ← writeBeginError rb
  let rb ← writeChars rb str
  writeEndError rb

def addIntegerReply (integer : Int) : Option RingBuffer := do
  let rb ← writeBeginInteger rb
  let rb ← writeChars rb (intText integer)
  writeEndInteger rb

def addReply : Reply → Option RingBuffer
  | .simpleString str => addSimpleStringReply rb str
  | .bulkString str => addBulkStringReply rb str
  | .null => addNullReply rb
  | .error str => addErrorReply rb str
  | .integer i => addIntegerReply rb i
  | .array items => addArrayReply rb items

end Helpers

/-- The pieces of a reply, each of which is one call of a writer. -/
inductive Piece where
  | fixed (text : Bytes)
  | bulkHeader (len : Int)
  | arrayHeader (len : Int)
  | chars (str : Bytes)

namespace Piece

def write (rb : RingBuffer) : Piece → Option RingBuffer
  | .fixed text => writeFixed rb text
  | .bulkHeader len => writeBeginBulkString rb len
  | .arrayHeader len => writeBeginArray rb len
  | .chars str => writeChars rb str

def bytes : Piece → Bytes
  | .fixed text => text
  | .bulkHeader len => 36 :: intText len ++ if len ≠ -1 then crlf else []
  | .arrayHeader len => 42 :: intText len ++ crlf
  | .chars str => cString str

/-- The piece that ends with the text of an `snprintf`, which needs one byte
more than it queues. -/
def Printed : Piece → Prop
  | .fixed _ | .chars _ => False
  | .bulkHeader len => len = -1
  | .arrayHeader _ => True

end Piece

namespace Reply

def bulkPieces (str : Bytes) : List Piece :=
  [.bulkHeader (cString str).length, .chars str, .fixed crlf]

def pieces : Reply → List Piece
  | .simpleString str => [.fixed [43], .chars str, .fixed crlf]
  | .bulkString str => bulkPieces str
  | .null => [.bulkHeader (-1), .fixed crlf]
  | .error str => [.fixed [45], .chars str, .fixed crlf]
  | .integer i => [.fixed [58], .chars (intText i), .fixed crlf]
  | .array items => .arrayHeader items.length :: items.flatMap bulkPieces

/-- The complete encoding. -/
def encode : Reply → Bytes
  | .simpleString str => 43 :: cString str ++ crlf
  | .bulkString str => encodeBulkString (cString str)
  | .null => ascii ['$', '-', '1', '\r', '\n']
  | .error str => 45 :: cString str ++ crlf
  | .integer i => 58 :: intText i ++ crlf
  | .array items => encodeCommand (items.map cString)

theorem intText_natCast (n : Nat) : intText n = natText n := by
  rw [intText, if_neg (by omega), Int.natAbs_natCast]

theorem bulkPieces_bytes (str : Bytes) :
    (bulkPieces str).flatMap Piece.bytes = encodeBulkString (cString str) := by
  have hLength : ((cString str).length : Int) ≠ -1 := by omega
  simp [bulkPieces, Piece.bytes, encodeBulkString, lengthText, crlf, intText_natCast, hLength]

theorem cString_intText (i : Int) : cString (intText i) = intText i := by
  apply cString_eq_self
  intro h
  have hZero : ¬isDigit 0 = true := by decide
  unfold intText at h
  split at h
  · rcases List.mem_cons.mp h with h | h
    · cases h
    · exact hZero (isDigit_of_mem_natText h)
  · exact hZero (isDigit_of_mem_natText h)

theorem encode_eq_pieces (reply : Reply) : reply.encode = reply.pieces.flatMap Piece.bytes := by
  cases reply with
  | simpleString str => simp [encode, pieces, Piece.bytes]
  | bulkString str => exact (bulkPieces_bytes str).symm
  | null => decide +kernel
  | error str => simp [encode, pieces, Piece.bytes]
  | integer i => simp [encode, pieces, Piece.bytes, cString_intText]
  | array items =>
      simp [encode, pieces, Piece.bytes, encodeCommand, lengthText, crlf, intText_natCast,
        List.flatMap_assoc, List.flatMap_map, bulkPieces_bytes]

/-- A helper makes the calls of its pieces in order. -/
theorem addBulkStringReply_eq (rb : RingBuffer) (str : Bytes) :
    addBulkStringReply rb str = (bulkPieces str).foldlM Piece.write rb := by
  simp [addBulkStringReply, bulkPieces, Piece.write, writeEndBulkString]

theorem addReply_eq (rb : RingBuffer) (reply : Reply) :
    addReply rb reply = reply.pieces.foldlM Piece.write rb := by
  cases reply with
  | array items =>
      have hItems : ∀ rb : RingBuffer, items.foldlM addBulkStringReply rb =
          (items.flatMap bulkPieces).foldlM Piece.write rb := by
        induction items with
        | nil => exact fun _ => rfl
        | cons item items ih =>
            intro rb
            rw [List.foldlM_cons, List.flatMap_cons, List.foldlM_append, addBulkStringReply_eq]
            exact congrArg _ (funext ih)
      simp only [addReply, addArrayReply, pieces, List.foldlM_cons, hItems, writeEndArray]
      simp [Piece.write]
  | bulkString str => exact addBulkStringReply_eq rb str
  | _ => simp [addReply, addSimpleStringReply, addNullReply, addErrorReply, addIntegerReply,
      writeBeginSimpleString, writeEndSimpleString, writeEndBulkString, writeBeginError,
      writeEndError, writeBeginInteger, writeEndInteger, pieces, Piece.write]

end Reply

section Pieces

variable {rb next : RingBuffer} {q : Bytes} {w : Nat} {p : Piece}

namespace Piece

/-- What a piece does that there is no room for: only the texts are stored. -/
def overwrite (rb : RingBuffer) : Piece → Option RingBuffer
  | .chars str =>
      if (rb.writeIndex % rb.size).toNat + (cString str).length ≤ 2 * rb.size.toNat then
        some (rb.memcpy (rb.writeIndex % rb.size).toNat (cString str))
      else none
  | _ => some rb

theorem snprintf_of_room {room : Nat} {text : Bytes} (h : text.length < room) :
    snprintf room text = text ++ [0] := by
  rw [snprintf, List.take_of_length_le (by omega)]

/-- The header of a bulk string is two writes, and the terminator of the first
is overwritten by the second. -/
theorem write_bulkHeader (h : rb.Queues q w) {len : Int} (hLen : len ≠ -1)
    (hFit : (36 :: intText len).length + 2 ≤ rb.writableLen.toNat)
    (hTotal : w + ((36 :: intText len).length + 2) < 2 ^ 64) :
    ∃ next, write rb (.bulkHeader len) = some next ∧
      next.Queues (q ++ (36 :: intText len ++ crlf)) (w + ((36 :: intText len).length + 2)) ∧
      next.size = rb.size := by
  have hRoom := h.writableLen
  have hCrlf : crlf.length = 2 := rfl
  obtain ⟨middle, hWrite, hMiddle, hSame⟩ :=
    h.put (show (36 :: intText len).length + [(0 : UInt8)].length ≤ _ by
      rw [List.length_singleton]; omega) (by omega)
  have hMiddleRoom := hMiddle.writableLen
  rw [hSame, List.length_append] at hMiddleRoom
  obtain ⟨next, hWrite', hNext, hSame'⟩ :=
    hMiddle.put (show crlf.length + ([] : Bytes).length ≤ _ by
      rw [hCrlf, List.length_nil]; omega) (by rw [hCrlf]; omega)
  rw [List.append_nil, hCrlf] at hWrite'
  refine ⟨next, ?_, ?_, hSame'.trans hSame⟩
  · have hPtr : middle.memcpy ((rb.writeIndex % rb.size).toNat + (36 :: intText len).length)
        crlf = middle.memcpy (middle.writeIndex % middle.size).toNat crlf := by
      obtain ⟨f, hf, -, hWritten⟩ := h
      obtain ⟨g, hg, -, hWritten'⟩ := hMiddle
      rw [← RingBuffer.memcpy_mod, UInt64.toNat_mod, UInt64.toNat_mod, hSame,
        Nat.mod_add_mod, hf.write_eq, hg.write_eq, hWritten, hWritten']
    simp only [write, writeBeginBulkString, h.rbWritable, Option.bind_eq_bind, Option.bind_some]
    rw [if_neg (by rw [if_pos hLen]; omega), snprintf_of_room (by omega), hWrite, Option.bind_some,
      if_pos hLen, hPtr]
    change (rbWrite _ (UInt64.ofNat 2)).map _ = _
    rw [hWrite']
    rfl
  · rw [List.append_assoc, Nat.add_assoc, hCrlf] at hNext
    exact hNext

/-- The text of the length -1 has no line end of its own. -/
theorem write_nullHeader (h : rb.Queues q w)
    (hFit : (36 :: intText (-1)).length < rb.writableLen.toNat)
    (hTotal : w + (36 :: intText (-1)).length < 2 ^ 64) :
    ∃ next, write rb (.bulkHeader (-1)) = some next ∧
      next.Queues (q ++ 36 :: intText (-1)) (w + (36 :: intText (-1)).length) ∧
      next.size = rb.size := by
  obtain ⟨next, hWrite, hNext⟩ :=
    h.put (show (36 :: intText (-1)).length + [(0 : UInt8)].length ≤ _ from hFit) hTotal
  refine ⟨next, ?_, hNext⟩
  simp only [write, writeBeginBulkString, h.rbWritable, Option.bind_eq_bind, Option.bind_some]
  rw [if_neg (by rw [if_neg (by simp)]; omega), snprintf_of_room hFit, hWrite]
  simp

/-- A piece that fits is queued. One that `snprintf` ends needs a byte more. -/
theorem write_exact (h : rb.Queues q w) (hFit : p.bytes.length ≤ rb.writableLen.toNat)
    (hPrinted : p.Printed → p.bytes.length < rb.writableLen.toNat)
    (hMapped : rb.size = 65536) (hTotal : w + p.bytes.length < 2 ^ 64) :
    ∃ next, p.write rb = some next ∧ next.Queues (q ++ p.bytes) (w + p.bytes.length) ∧
      next.size = rb.size := by
  cases p with
  | fixed text =>
      obtain ⟨next, hWrite, hNext⟩ :=
        h.put (show text.length + ([] : Bytes).length ≤ _ from hFit) hTotal
      rw [List.append_nil] at hWrite
      refine ⟨next, ?_, hNext⟩
      simp only [write, writeFixed, h.rbWritable, Option.bind_eq_bind, Option.bind_some]
      rw [if_neg (by exact Nat.not_lt.mpr hFit), hWrite]
      rfl
  | chars str =>
      obtain ⟨next, hWrite, hNext⟩ :=
        h.put (show (cString str).length + ([] : Bytes).length ≤ _ from hFit) hTotal
      have hRoom := h.writableLen
      rw [List.append_nil] at hWrite
      refine ⟨next, ?_, hNext⟩
      have hPtr : (rb.writeIndex % rb.size).toNat < rb.size.toNat := by
        rw [UInt64.toNat_mod, hMapped]
        exact Nat.mod_lt _ (by decide)
      simp only [bytes] at hFit
      simp only [write, writeChars, h.rbWritable, Option.bind_eq_bind, Option.bind_some]
      rw [if_pos (by omega), hWrite]
      rfl
  | arrayHeader len =>
      have hRoom : (bytes (.arrayHeader len)).length < rb.writableLen.toNat := hPrinted trivial
      obtain ⟨next, hWrite, hNext⟩ :=
        h.put (show (bytes (.arrayHeader len)).length + [(0 : UInt8)].length ≤ _ from hRoom) hTotal
      refine ⟨next, ?_, hNext⟩
      simp only [write, writeBeginArray, h.rbWritable, Option.bind_eq_bind, Option.bind_some]
      change (if rb.writableLen.toNat < (bytes (.arrayHeader len)).length then _ else
        (rbWrite (rb.memcpy _ (snprintf _ (bytes (.arrayHeader len))))
          (UInt64.ofNat (bytes (.arrayHeader len)).length)).map Prod.fst) = _
      rw [if_neg (by omega), snprintf_of_room hRoom, hWrite]
      rfl
  | bulkHeader len =>
      by_cases hNull : len = -1
      · subst hNull
        exact write_nullHeader h (hPrinted rfl) hTotal
      · have hBytes : bytes (.bulkHeader len) = 36 :: intText len ++ crlf := by
          rw [bytes, if_pos hNull]
        have hLength : (bytes (.bulkHeader len)).length = (36 :: intText len).length + 2 := by
          rw [hBytes, List.length_append]
          rfl
        rw [hLength] at hFit hTotal ⊢
        rw [hBytes]
        exact write_bulkHeader h hNull hFit hTotal

theorem bulkHeader_length (len : Int) : (bytes (.bulkHeader len)).length =
    (36 :: intText len).length + if len ≠ -1 then 2 else 0 := by
  rw [bytes, List.length_append]
  split
  · rfl
  · rfl

/-- A piece that does not fit, and the empty one. -/
theorem write_eq_overwrite (h : rb.Queues q w) (hMapped : rb.size = 65536)
    (hp : p.bytes = [] ∨ rb.writableLen.toNat < p.bytes.length) : p.write rb = p.overwrite rb := by
  have hNothing : rbWrite (rb.memcpy (rb.writeIndex % rb.size).toNat []) (UInt64.ofNat 0) =
      some (rb, 0) := by
    obtain ⟨f, hf, -, -⟩ := h
    change rbWrite rb 0 = _
    have hGuard : ¬(0 : UInt64) > rb.writableLen := by simp [UInt64.lt_iff_toNat_lt]
    rw [rbWrite, if_neg (not_not.mpr hf.assertState), if_neg hGuard]
    simp only [UInt64.add_zero, hf.assertState, ↓reduceIte]
  cases p with
  | fixed text =>
      simp only [write, writeFixed, h.rbWritable, Option.bind_eq_bind, Option.bind_some, overwrite]
      rcases hp with hp | hp
      · change text = [] at hp
        subst hp
        rw [if_neg (by simp), List.length_nil, hNothing]
        rfl
      · exact if_pos hp
  | bulkHeader len =>
      rw [bulkHeader_length] at hp
      simp only [write, writeBeginBulkString, h.rbWritable, Option.bind_eq_bind, Option.bind_some,
        overwrite]
      rcases hp with hp | hp
      · simp [bytes] at hp
      · exact if_pos hp
  | arrayHeader len =>
      simp only [write, writeBeginArray, h.rbWritable, Option.bind_eq_bind, Option.bind_some,
        overwrite]
      rcases hp with hp | hp
      · simp [bytes] at hp
      · exact if_pos hp
  | chars str =>
      simp only [bytes] at hp
      simp only [write, writeChars, h.rbWritable, Option.bind_eq_bind, Option.bind_some, overwrite]
      split
      · rename_i hInside
        rcases hp with hp | hp
        · rw [hp, List.length_nil, hNothing]
          rfl
        · obtain ⟨other, hStored, -⟩ := h.memcpy (rb.writeIndex % rb.size).toNat (cString str)
          rw [hMapped] at hInside
          change _ ≤ 2 * 65536 at hInside
          rw [hStored.write_refused (by omega) hp]
          rfl
      · rfl

/-- A piece that fits advances the write cursor by its length. -/
theorem write_some (h : rb.Queues q w) (hFit : p.bytes.length ≤ rb.writableLen.toNat)
    (hWrite : p.write rb = some next) :
    w + p.bytes.length < 2 ^ 64 ∧ ∃ q', next.Queues q' (w + p.bytes.length) ∧
      q'.length = q.length + p.bytes.length ∧ next.size = rb.size := by
  have hOne : ∀ {stored : Bytes} {n : Nat} {ptr : Nat}, n ≤ rb.writableLen.toNat →
      (rbWrite (rb.memcpy ptr stored) (UInt64.ofNat n)).map Prod.fst = some next →
      w + n < 2 ^ 64 ∧ ∃ q', next.Queues q' (w + n) ∧ q'.length = q.length + n ∧
        next.size = rb.size := by
    intro stored n ptr hn hSome
    obtain ⟨⟨other, code⟩, hResult, rfl⟩ := Option.map_eq_some_iff.mp hSome
    obtain ⟨q', hStored, hLength⟩ := h.memcpy ptr stored
    obtain ⟨hTotal, more, hMore, hNext, hSame⟩ := hStored.write_some hn hResult
    exact ⟨hTotal, q' ++ more, hNext, by rw [List.length_append, hLength, hMore], hSame.trans rfl⟩
  cases p with
  | fixed text =>
      simp only [bytes] at hFit
      simp only [write, writeFixed, h.rbWritable, Option.bind_eq_bind, Option.bind_some] at hWrite
      rw [if_neg (by omega)] at hWrite
      exact hOne hFit hWrite
  | chars str =>
      simp only [bytes] at hFit
      simp only [write, writeChars, h.rbWritable, Option.bind_eq_bind, Option.bind_some] at hWrite
      split at hWrite
      · exact hOne hFit hWrite
      · cases hWrite
  | arrayHeader len =>
      simp only [write, writeBeginArray, h.rbWritable, Option.bind_eq_bind, Option.bind_some]
        at hWrite
      rw [if_neg (by exact Nat.not_lt.mpr hFit)] at hWrite
      exact hOne hFit hWrite
  | bulkHeader len =>
      rw [bulkHeader_length] at hFit ⊢
      simp only [write, writeBeginBulkString, h.rbWritable, Option.bind_eq_bind, Option.bind_some]
        at hWrite
      rw [if_neg (by omega)] at hWrite
      obtain ⟨⟨middle, code⟩, hFirst, hSecond⟩ := Option.bind_eq_some_iff.mp hWrite
      obtain ⟨q', hStored, hLength⟩ := h.memcpy (rb.writeIndex % rb.size).toNat
        (snprintf rb.writableLen.toNat (36 :: intText len))
      obtain ⟨hTotal, more, hMore, hMiddle, hSame⟩ := hStored.write_some (by
        change _ ≤ rb.writableLen.toNat
        omega) hFirst
      dsimp only at hSecond
      split at hSecond
      · rename_i hNull
        rw [if_pos hNull] at hFit ⊢
        obtain ⟨⟨last, code'⟩, hResult, rfl⟩ := Option.map_eq_some_iff.mp hSecond
        have hRoom := h.writableLen
        have hMiddleRoom := hMiddle.writableLen
        rw [hSame, List.length_append, hMore, hLength] at hMiddleRoom
        change _ = rb.size.toNat at hMiddleRoom
        obtain ⟨q'', hStored', hLength'⟩ := hMiddle.memcpy
          ((rb.writeIndex % rb.size).toNat + (36 :: intText len).length) crlf
        obtain ⟨hTotal', more', hMore', hLast, hSame'⟩ := hStored'.write_some (n := 2) (by
          change _ ≤ middle.writableLen.toNat
          omega) hResult
        refine ⟨by omega, q'' ++ more', hLast, ?_, (hSame'.trans rfl).trans hSame⟩
        rw [List.length_append, hLength', List.length_append, hLength, hMore, hMore', Nat.add_assoc]
      · rename_i hNull
        rw [if_neg hNull, Nat.add_zero]
        cases hSecond
        exact ⟨hTotal, q' ++ more, hMiddle, by rw [List.length_append, hLength, hMore],
          hSame.trans rfl⟩

/-- Overwriting leaves the cursors alone. -/
theorem overwrite_some (h : rb.Queues q w) (hWrite : p.overwrite rb = some next) :
    (∃ q', next.Queues q' w ∧ q'.length = q.length) ∧ next.size = rb.size ∧
      next.writableLen = rb.writableLen := by
  cases p with
  | chars str =>
      simp only [overwrite] at hWrite
      split at hWrite
      · cases hWrite
        exact ⟨h.memcpy _ _, rfl, rfl⟩
      · cases hWrite
  | _ =>
      cases hWrite
      exact ⟨⟨q, h, rfl⟩, rfl, rfl⟩

/-- Pieces that fit are queued one after the other. -/
theorem write_all (pieces : List Piece) (h : rb.Queues q w) (hMapped : rb.size = 65536)
    (hPlain : ∀ p ∈ pieces, ¬p.Printed)
    (hFit : (pieces.flatMap bytes).length ≤ rb.writableLen.toNat)
    (hTotal : w + (pieces.flatMap bytes).length < 2 ^ 64) :
    ∃ next, pieces.foldlM write rb = some next ∧
      next.Queues (q ++ pieces.flatMap bytes) (w + (pieces.flatMap bytes).length) ∧
      next.size = rb.size := by
  induction pieces generalizing rb q w with
  | nil => exact ⟨rb, rfl, by simpa using h, rfl⟩
  | cons p pieces ih =>
      rw [List.flatMap_cons, List.length_append] at hFit hTotal
      obtain ⟨middle, hWrite, hMiddle, hSame⟩ := write_exact h (by omega)
        (fun hp => absurd hp (hPlain p (List.mem_cons_self ..))) hMapped (by omega)
      have hRoom := h.writableLen
      have hMiddleRoom := hMiddle.writableLen
      rw [hSame, List.length_append] at hMiddleRoom
      obtain ⟨next, hRest, hNext, hSame'⟩ := ih hMiddle (hSame.trans hMapped)
        (fun p hp => hPlain p (List.mem_cons_of_mem _ hp)) (by omega) (by omega)
      refine ⟨next, ?_, ?_, hSame'.trans hSame⟩
      · rw [List.foldlM_cons, hWrite]
        exact hRest
      · rw [List.flatMap_cons, List.length_append, ← List.append_assoc, ← Nat.add_assoc]
        exact hNext

/-- Pieces none of which fits leave the cursors where they are. -/
theorem write_none (pieces : List Piece) (h : rb.Queues q w) (hMapped : rb.size = 65536)
    (hMiss : ∀ p ∈ pieces, p.bytes = [] ∨ rb.writableLen.toNat < p.bytes.length) :
    pieces.foldlM write rb = pieces.foldlM overwrite rb := by
  induction pieces generalizing rb q w with
  | nil => rfl
  | cons p pieces ih =>
      rw [List.foldlM_cons, List.foldlM_cons,
        write_eq_overwrite h hMapped (hMiss p (List.mem_cons_self ..))]
      cases hWrite : p.overwrite rb with
      | none => rfl
      | some middle =>
          obtain ⟨⟨q', hMiddle, -⟩, hSame, hRoom⟩ := overwrite_some h hWrite
          refine ih hMiddle (hSame.trans hMapped) (fun p hp => ?_)
          rw [hRoom]
          exact hMiss p (List.mem_cons_of_mem _ hp)

/-- However many of the pieces fit, the cursor counts them; when it has not
moved, none of them did. -/
theorem write_counts (pieces : List Piece) (h : rb.Queues q w) (hMapped : rb.size = 65536)
    (hWrite : pieces.foldlM write rb = some next) :
    ∃ q' n, next.Queues q' (w + n) ∧ q'.length = q.length + n ∧ n ≤ rb.writableLen.toNat ∧
      (n = 0 → ∀ p ∈ pieces, p.bytes = [] ∨ rb.writableLen.toNat < p.bytes.length) := by
  induction pieces generalizing rb q w with
  | nil =>
      cases hWrite
      exact ⟨q, 0, h, rfl, Nat.zero_le _, fun _ p hp => absurd hp List.not_mem_nil⟩
  | cons p pieces ih =>
      rw [List.foldlM_cons] at hWrite
      obtain ⟨middle, hFirst, hRest⟩ := Option.bind_eq_some_iff.mp hWrite
      by_cases hFit : p.bytes.length ≤ rb.writableLen.toNat
      · obtain ⟨-, q', hMiddle, hLength, hSame⟩ := write_some h hFit hFirst
        have hRoom := h.writableLen
        have hMiddleRoom := hMiddle.writableLen
        rw [hSame] at hMiddleRoom
        obtain ⟨last, n, hLast, hLastLength, hn, hNone⟩ :=
          ih hMiddle (hSame.trans hMapped) hRest
        refine ⟨last, p.bytes.length + n, by rwa [← Nat.add_assoc], by omega, by omega, ?_⟩
        intro hZero other hOther
        have hEmpty : p.bytes = [] := List.length_eq_zero_iff.mp (by omega)
        rcases List.mem_cons.mp hOther with rfl | hOther
        · exact Or.inl hEmpty
        · have hMissed := hNone (by omega) other hOther
          rwa [show middle.writableLen.toNat = rb.writableLen.toNat by omega] at hMissed
      · rw [write_eq_overwrite h hMapped (Or.inr (by omega))] at hFirst
        obtain ⟨⟨q', hMiddle, hLength⟩, hSame, hRoom⟩ := overwrite_some h hFirst
        obtain ⟨last, n, hLast, hLastLength, hn, hNone⟩ :=
          ih hMiddle (hSame.trans hMapped) hRest
        rw [hRoom] at hn hNone
        refine ⟨last, n, hLast, by omega, hn, fun hZero other hOther => ?_⟩
        rcases List.mem_cons.mp hOther with rfl | hOther
        · exact Or.inr (by omega)
        · exact hNone hZero other hOther

end Piece

end Pieces

section Replies

variable {rb next : RingBuffer} {q : Bytes} {w : Nat} {reply : Reply}

/-- The reply is queued as a whole, or nothing has changed. -/
def AllOrNothing (rb : RingBuffer) (reply : Reply) : Prop :=
  ∃ next, addReply rb reply = some next ∧
    (next.unread = rb.unread.map (· ++ reply.encode) ∨ next.unread = rb.unread)

namespace Reply

/-- There is room for all of the reply. The header of an array is printed with
a NUL behind it, for which the empty array has no other byte. -/
def Fits (rb : RingBuffer) (reply : Reply) : Prop :=
  reply.encode.length ≤ rb.writableLen.toNat ∧
    (reply = .array [] → reply.encode.length < rb.writableLen.toNat) ∧
    rb.writeIndex.toNat + reply.encode.length < 2 ^ 64

/-- There is no room for any piece of the reply. -/
def Misses (rb : RingBuffer) (reply : Reply) : Prop :=
  ∀ p ∈ reply.pieces, p.bytes = [] ∨ rb.writableLen.toNat < p.bytes.length

/-- The texts of the reply, stored at the write pointer one after the other,
repeat the unread bytes that they are stored over. -/
def Repeats (rb : RingBuffer) (reply : Reply) : Prop :=
  ∃ next, reply.pieces.foldlM Piece.overwrite rb = some next ∧ next.unread = rb.unread

/-- Only the first piece of a reply may be one that `snprintf` ends. -/
theorem exists_pieces (reply : Reply) : ∃ p rest, reply.pieces = p :: rest ∧
    (∀ p ∈ rest, ¬p.Printed) ∧
    (p.Printed → reply = .array [] ∨ p.bytes.length < reply.encode.length) := by
  have hCrlf : crlf.length = 2 := rfl
  have hBulk : ∀ str, ∀ p ∈ bulkPieces str, ¬p.Printed := by
    intro str p hp hPrinted
    simp only [bulkPieces, List.mem_cons, List.not_mem_nil, or_false] at hp
    rcases hp with rfl | rfl | rfl
    · simp only [Piece.Printed] at hPrinted
      omega
    · exact hPrinted
    · exact hPrinted
  have hText : ∀ str, ∀ p ∈ [Piece.chars str, .fixed crlf], ¬p.Printed := by
    intro str p hp
    simp only [List.mem_cons, List.not_mem_nil, or_false] at hp
    rcases hp with rfl | rfl
    · exact id
    · exact id
  cases reply with
  | simpleString str => exact ⟨_, _, rfl, hText str, fun h => absurd h id⟩
  | error str => exact ⟨_, _, rfl, hText str, fun h => absurd h id⟩
  | integer i => exact ⟨_, _, rfl, hText _, fun h => absurd h id⟩
  | bulkString str =>
      refine ⟨_, _, rfl, fun p hp => hBulk str p (List.mem_cons_of_mem _ hp), fun h => ?_⟩
      exact absurd h (hBulk str _ (List.mem_cons_self ..))
  | null =>
      refine ⟨_, _, rfl, ?_, fun _ => Or.inr (by decide +kernel)⟩
      intro p hp
      obtain rfl := List.mem_singleton.mp hp
      exact id
  | array items =>
      refine ⟨_, _, rfl, ?_, fun _ => ?_⟩
      · intro p hp
        obtain ⟨str, -, hp⟩ := List.mem_flatMap.mp hp
        exact hBulk str p hp
      · cases items with
        | nil => exact Or.inl rfl
        | cons item items =>
            right
            rw [encode_eq_pieces]
            simp only [pieces, bulkPieces, Piece.bytes, List.flatMap_cons, List.length_append,
              List.length_cons, List.cons_append]
            omega

/-- A reply that fits is queued. -/
theorem Fits.queues (h : rb.Queues q w) (hMapped : rb.size = 65536) (hFits : reply.Fits rb) :
    ∃ next, addReply rb reply = some next ∧
      next.Queues (q ++ reply.encode) (w + reply.encode.length) ∧ next.size = rb.size := by
  obtain ⟨hRoom, hEmpty, hTotal⟩ := hFits
  obtain ⟨p, rest, hPieces, hPlain, hPrinted⟩ := reply.exists_pieces
  have hCursor := h.cursor
  rw [hCursor] at hTotal
  rw [addReply_eq, hPieces]
  have hFirst : p.Printed → p.bytes.length < rb.writableLen.toNat := by
    intro hp
    rcases hPrinted hp with hArray | hLonger
    · have hStrict := hEmpty hArray
      rw [encode_eq_pieces, hPieces, List.flatMap_cons, List.length_append] at hStrict
      omega
    · omega
  rw [encode_eq_pieces, hPieces, List.flatMap_cons, List.length_append] at hRoom hTotal ⊢
  obtain ⟨middle, hWrite, hMiddle, hSame⟩ :=
    Piece.write_exact h (by omega) hFirst hMapped (by omega)
  have hBefore := h.writableLen
  have hAfter := hMiddle.writableLen
  rw [hSame, List.length_append] at hAfter
  obtain ⟨next, hRest, hNext, hSame'⟩ :=
    Piece.write_all rest hMiddle (hSame.trans hMapped) hPlain (by omega) (by omega)
  refine ⟨next, ?_, ?_, hSame'.trans hSame⟩
  · rw [List.foldlM_cons, hWrite]
    exact hRest
  · rw [← List.append_assoc, ← Nat.add_assoc]
    exact hNext

/-- A reply that stays whole fits as a whole or not at all. -/
theorem length_or_misses (h : rb.Queues q w) (hMapped : rb.size = 65536)
    (hAdd : addReply rb reply = some next)
    (hUnread : next.unread = rb.unread.map (· ++ reply.encode) ∨ next.unread = rb.unread) :
    reply.encode.length ≤ rb.writableLen.toNat ∧ w + reply.encode.length < 2 ^ 64 ∨
      reply.Misses rb ∧ next.unread = rb.unread := by
  rw [addReply_eq] at hAdd
  obtain ⟨q', n, hNext, hLength, hn, hNone⟩ := Piece.write_counts _ h hMapped hAdd
  rw [hNext.unread, h.unread] at hUnread
  rcases hUnread with hAll | hNothing
  · obtain rfl := Option.some.inj hAll
    rw [List.length_append] at hLength
    left
    refine ⟨by omega, ?_⟩
    obtain ⟨f, hf, -, hWritten⟩ := hNext
    have hCounter := next.writeIndex.toNat_lt
    rw [hf.write_eq, hWritten] at hCounter
    omega
  · obtain rfl := Option.some.inj hNothing
    exact Or.inr ⟨hNone (by omega), hNext.unread.trans h.unread.symm⟩

end Reply

/-- The empty array with exactly its four bytes of room loses its line feed. -/
theorem addReply_empty_array (h : rb.Queues q w) (hRoom : rb.writableLen.toNat = 4)
    (hAdd : addReply rb (.array []) = some next) :
    next.unread = some (q ++ ascii ['*', '0', '\r', '\x00']) := by
  have hText : snprintf rb.writableLen.toNat (Piece.bytes (.arrayHeader 0)) =
      ascii ['*', '0', '\r', '\x00'] := by
    rw [hRoom]
    rfl
  have hWrite : (rbWrite (rb.memcpy (rb.writeIndex % rb.size).toNat
      (ascii ['*', '0', '\r', '\x00'])) (UInt64.ofNat 4)).map Prod.fst = some next := by
    simp only [addReply, addArrayReply, writeBeginArray, writeEndArray, h.rbWritable,
      Option.bind_eq_bind, Option.bind_some, List.foldlM_nil, Option.pure_def,
      Option.bind_fun_some, List.length_nil] at hAdd
    rw [if_neg (by rw [hRoom]; decide)] at hAdd
    change (rbWrite (rb.memcpy _ (snprintf _ (Piece.bytes (.arrayHeader 0))))
      (UInt64.ofNat 4)).map Prod.fst = some next at hAdd
    rwa [hText] at hAdd
  obtain ⟨⟨other, code⟩, hResult, rfl⟩ := Option.map_eq_some_iff.mp hWrite
  obtain ⟨q', hStored, -⟩ := h.memcpy (rb.writeIndex % rb.size).toNat
    (ascii ['*', '0', '\r', '\x00'])
  obtain ⟨hTotal, -⟩ := hStored.write_some (n := 4) (by change 4 ≤ rb.writableLen.toNat; omega) hResult
  obtain ⟨same, hSame, hNext, -⟩ :=
    h.put (show (ascii ['*', '0', '\r', '\x00']).length + ([] : Bytes).length ≤ _ by
      rw [hRoom]; decide) hTotal
  rw [List.append_nil] at hSame
  change rbWrite _ (UInt64.ofNat 4) = _ at hSame
  rw [hResult] at hSame
  cases hSame
  exact hNext.unread

/-- Exactly when a reply is queued as a whole or not at all: it fits, or no
piece of it does and what is stored over unread bytes repeats them. -/
theorem reply_all_or_nothing_iff (hRing : rb.Queues q w) (hSize : rb.size = 65536)
    (reply : Reply) :
    AllOrNothing rb reply ↔ reply.Fits rb ∨ reply.Misses rb ∧ reply.Repeats rb := by
  have hCursor := hRing.cursor
  constructor
  · rintro ⟨next, hAdd, hUnread⟩
    rcases Reply.length_or_misses hRing hSize hAdd hUnread with
      ⟨hRoom, hTotal⟩ | ⟨hMisses, hSame⟩
    · by_cases hStrict : reply = .array [] → reply.encode.length < rb.writableLen.toNat
      · exact Or.inl ⟨hRoom, hStrict, hCursor ▸ hTotal⟩
      · obtain ⟨rfl, hExact⟩ := Classical.not_imp.mp hStrict
        have hFour : rb.writableLen.toNat = 4 := by
          change 4 ≤ _ at hRoom
          change ¬4 < _ at hExact
          omega
        rw [addReply_empty_array hRing hFour hAdd, hRing.unread] at hUnread
        rcases hUnread with hAll | hNothing
        · have hBytes := List.append_cancel_left (Option.some.inj hAll)
          exact absurd hBytes (by decide)
        · have hBytes := congrArg List.length (Option.some.inj hNothing)
          simp [ascii] at hBytes
    · rw [Reply.addReply_eq, Piece.write_none _ hRing hSize hMisses] at hAdd
      exact Or.inr ⟨hMisses, next, hAdd, hSame⟩
  · rintro (hFits | ⟨hMisses, next, hStored, hSame⟩)
    · obtain ⟨next, hAdd, hNext, -⟩ := hFits.queues hRing hSize
      exact ⟨next, hAdd, Or.inl (by rw [hNext.unread, hRing.unread]; rfl)⟩
    · refine ⟨next, ?_, Or.inr hSame⟩
      rw [Reply.addReply_eq, Piece.write_none _ hRing hSize hMisses]
      exact hStored

/-- A reply on a fresh ring. -/
theorem reply_all_or_nothing_ok :
    ∃ rb, rbCreate 4096 65536 3 true = some rb ∧
      AllOrNothing rb (.simpleString (ascii ['O', 'K'])) := by
  exact ⟨_, RingBuffer.rbCreate_client, (reply_all_or_nothing_iff
    RingBuffer.queues_client rfl _).mpr (Or.inl ⟨by decide, by decide, by decide⟩)⟩

/-- With one byte of room the mark is queued and the text is not, but it is
stored over the oldest unread bytes. -/
theorem reply_torn_when_full :
    ∃ fresh rb, rbCreate 4096 65536 3 true = some fresh ∧
      fresh.Stores (List.replicate 65535 46) rb ∧
      ¬AllOrNothing rb (.simpleString (ascii ['O', 'K'])) := by
  obtain ⟨rb, hStores, hRing, hSame⟩ := RingBuffer.queues_client.stores
    (show (List.replicate 65535 (46 : UInt8)).length ≤ _ by rw [List.length_replicate]; decide)
    (by rw [List.length_replicate]; decide)
  refine ⟨_, rb, RingBuffer.rbCreate_client, hStores, ?_⟩
  rintro ⟨next, hAdd, hUnread⟩
  have hRoom := hRing.writableLen
  rw [hSame, List.nil_append, List.length_replicate] at hRoom
  change _ = 65536 at hRoom
  rcases Reply.length_or_misses hRing hSame hAdd hUnread with ⟨hFits, -⟩ | ⟨hMisses, -⟩
  · change 5 ≤ _ at hFits
    omega
  · rcases hMisses (.fixed [43]) (List.mem_cons_self ..) with hEmpty | hLonger
    · cases hEmpty
    · change _ < 1 at hLonger
      omega

end Replies

end RedisServer
