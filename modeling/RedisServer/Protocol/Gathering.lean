import RedisServer.Protocol.CommandHandler

/-! What the callbacks of one command add up to: the arguments lie one after
the other in the buffer, the ends cut them apart again, and the end of the
array hands exactly them to `handle_command`. -/
namespace RedisServer

open Machine

/-- Where strings laid one after the other from `begin` on end. -/
def cuts : Nat → List Bytes → List Nat
  | _, [] => []
  | begin, x :: xs => (begin + x.length) :: cuts (begin + x.length) xs

@[simp] theorem cuts_length (begin : Nat) (xs : List Bytes) : (cuts begin xs).length = xs.length := by
  induction xs generalizing begin with
  | nil => rfl
  | cons x xs ih => simp [cuts, ih]

theorem cuts_concat (begin : Nat) (xs : List Bytes) (x : Bytes) :
    cuts begin (xs ++ [x]) = cuts begin xs ++ [begin + (xs.flatten.length + x.length)] := by
  induction xs generalizing begin with
  | nil => simp [cuts]
  | cons y xs ih =>
      simp only [List.cons_append, cuts, ih, List.flatten_cons, List.length_append]
      congr 3
      omega

theorem toSize_natCast {n : Nat} (h : n < 2 ^ 64) : toSize n = n := by
  rw [toSize_of_nonneg (by omega) (by omega)]
  exact Int.toNat_natCast n

namespace CommandHandler

/-- Cutting at the ends gives the strings back. -/
theorem splitArgs_cuts (before : Bytes) (xs : List Bytes) (after : Bytes)
    (h : (before.length + xs.flatten.length) < 2 ^ 63 - 1) :
    splitArgs (before ++ xs.flatten ++ after) before.length (cuts before.length xs) = (xs, true) := by
  induction xs generalizing before with
  | nil => rfl
  | cons x xs ih =>
      rw [List.flatten_cons, List.length_append] at h
      have hLen : toSize (((before.length + x.length : Nat) : Int) - before.length) = x.length := by
        rw [show (((before.length + x.length : Nat) : Int) - before.length) = (x.length : Int) by omega]
        exact toSize_natCast (by omega)
      have hRest := ih (before ++ x) (by rw [List.length_append]; omega)
      rw [List.length_append] at hRest
      have hText : before ++ (x :: xs).flatten ++ after = before ++ x ++ xs.flatten ++ after := by
        simp
      unfold cuts splitArgs
      simp only [hLen]
      rw [if_neg (by unfold AllocFails; omega), hText, hRest]
      simp

/-- Ends that do not go back are copied as they lie. -/
theorem overruns_eq_false {begin : Nat} {ends : List Nat} (hOrder : (begin :: ends).Pairwise (· ≤ ·))
    (hBelow : ∀ e ∈ ends, e < 2 ^ 63) : overruns begin ends = false := by
  induction ends generalizing begin with
  | nil => rfl
  | cons stop ends ih =>
      have hStop : stop < 2 ^ 63 := hBelow stop (List.mem_cons_self ..)
      have hFirst : begin ≤ stop := List.rel_of_pairwise_cons hOrder (List.mem_cons_self ..)
      have hLen : toSize ((stop : Int) - begin) = stop - begin :=
        (toSize_of_nonneg (by omega) (by omega)).trans (by omega)
      unfold overruns
      simp only [hLen]
      split
      · rfl
      · rw [ih hOrder.of_cons (fun e he => hBelow e (List.mem_cons_of_mem _ he)),
          decide_eq_false (by omega)]
        rfl

theorem pairwise_cuts (begin : Nat) (xs : List Bytes) :
    (begin :: cuts begin xs).Pairwise (· ≤ ·) ∧
      ∀ e ∈ cuts begin xs, begin ≤ e ∧ e ≤ begin + xs.flatten.length := by
  induction xs generalizing begin with
  | nil => exact ⟨List.pairwise_singleton _ _, by simp [cuts]⟩
  | cons x xs ih =>
      obtain ⟨hOrder, hBounds⟩ := ih (begin + x.length)
      have hAll : ∀ e ∈ cuts begin (x :: xs),
          begin ≤ e ∧ e ≤ begin + (x :: xs).flatten.length := by
        intro e he
        rw [List.flatten_cons, List.length_append]
        rcases List.mem_cons.mp he with rfl | he
        · omega
        · have := hBounds e he
          omega
      exact ⟨List.pairwise_cons.mpr ⟨fun e he => (hAll e he).1, hOrder⟩, hAll⟩

variable {ρ : Type} {cmds : Commands ρ} {mem : Bytes} {ch : CommandHandler ρ} {n : Nat}
  {xs : List Bytes}

/-- A command of `n` arguments has been announced, and `xs` have come. -/
structure Gathered (ch : CommandHandler ρ) (n : Nat) (xs : List Bytes) : Prop where
  running : ch.status = .running
  args : ch.args = []
  freed : ch.freed = false
  used : ch.bufUsed = xs.flatten.length
  fits : ch.bufUsed ≤ ch.bufSize
  text : ch.buf.take ch.bufUsed = xs.flatten
  ends : ch.ends = cuts 0 xs
  argRoom : n ≤ ch.argCapacity
  endRoom : n ≤ ch.endsCapacity

theorem handle_of_running (hRun : ch.status = .running) (call : Callback) :
    handle cmds mem ch call = react cmds mem ch call := if_pos hRun

variable (cmds mem)

theorem handle_beginArray (hRun : ch.status = .running) (hn : n < 2 ^ 60) :
    Gathered (handle cmds mem ch (.beginArray n)) n [] ∧
      (handle cmds mem ch (.beginArray n)).client = ch.client ∧
      (handle cmds mem ch (.beginArray n)).invocations = ch.invocations := by
  have hSize : toSize n = n := toSize_natCast (by omega)
  have hAlloc : ¬AllocFails (8 * n % 2 ^ 64) := by
    unfold AllocFails
    omega
  rw [handle_of_running hRun]
  simp only [react, beginArrayHandler, hSize, hAlloc, and_false, ↓reduceIte]
  exact ⟨⟨hRun, rfl, rfl, rfl, Nat.zero_le _, rfl, rfl, Nat.le_max_right _ _, Nat.le_max_right _ _⟩,
    trivial, trivial⟩

/-- Announcing a string makes room for it. -/
theorem Gathered.beginBulkString (h : Gathered ch n xs) {len : Nat}
    (hLen : xs.flatten.length + len < 2 ^ 63) :
    Gathered (handle cmds mem ch (.beginBulkString len)) n xs ∧
      xs.flatten.length + len ≤ (handle cmds mem ch (.beginBulkString len)).bufSize ∧
      (handle cmds mem ch (.beginBulkString len)).client = ch.client ∧
      (handle cmds mem ch (.beginBulkString len)).invocations = ch.invocations := by
  have hUsed := h.used
  have hFits := h.fits
  have hSize : toSize ((ch.bufUsed : Int) + len) = ch.bufUsed + len := by
    rw [← Nat.cast_add]
    exact toSize_natCast (by omega)
  rw [handle_of_running h.running]
  simp only [react, beginBulkStringHandler, hSize]
  split
  · have hAlloc : ¬AllocFails (ch.bufUsed + len) := by
      unfold AllocFails
      omega
    rw [if_neg hAlloc]
    exact ⟨⟨h.running, h.args, h.freed, h.used, Nat.le_add_right _ _, h.text, h.ends, h.argRoom,
      h.endRoom⟩, by rw [hUsed], rfl, rfl⟩
  · exact ⟨h, by omega, rfl, rfl⟩

/-- The bytes of a string and its end add one argument. -/
theorem Gathered.chars_endBulkString (h : Gathered ch n xs) {x : Bytes} {first last : Int}
    (hRoom : xs.flatten.length + x.length ≤ ch.bufSize) (hSpan : last - first = x.length)
    (hMem : (mem.drop first.toNat).take x.length = x) (hLen : x.length < 2 ^ 63)
    (hn : xs.length < n) :
    Gathered (handle cmds mem (handle cmds mem ch (.chars first last)) .endBulkString) n
        (xs ++ [x]) ∧
      (handle cmds mem (handle cmds mem ch (.chars first last)) .endBulkString).client = ch.client ∧
      (handle cmds mem (handle cmds mem ch (.chars first last)) .endBulkString).invocations =
        ch.invocations := by
  have hUsed := h.used
  have hSize : toSize (last - first) = x.length := by
    rw [hSpan]
    exact toSize_natCast (by omega)
  have hChars : handle cmds mem ch (.chars first last) =
      { ch with
        buf := ch.buf.take ch.bufUsed ++ x ++ ch.buf.drop (ch.bufUsed + x.length)
        bufUsed := ch.bufUsed + x.length } := by
    rw [handle_of_running h.running]
    simp only [react, charsHandler, hSize]
    rw [if_neg (by omega), hMem]
  have hEnds : ¬ch.endsCapacity ≤ ch.ends.length := by
    have := h.endRoom
    rw [h.ends, cuts_length]
    omega
  have hTotal : (xs ++ [x]).flatten.length = ch.bufUsed + x.length := by
    simp [hUsed]
  have hText : (ch.buf.take ch.bufUsed ++ x ++ ch.buf.drop (ch.bufUsed + x.length)).take
      (ch.bufUsed + x.length) = (xs ++ [x]).flatten := by
    have hPrefix : (ch.buf.take ch.bufUsed ++ x).length = ch.bufUsed + x.length := by
      rw [h.text, List.length_append, hUsed]
    rw [← hPrefix, List.take_left, h.text]
    simp
  have hCuts : ch.ends ++ [ch.bufUsed + x.length] = cuts 0 (xs ++ [x]) := by
    rw [cuts_concat, h.ends, hUsed, Nat.zero_add]
  have hEnd : ∀ next : CommandHandler ρ, next.status = .running →
      handle cmds mem next .endBulkString = next.endBulkStringHandler :=
    fun next hNext => handle_of_running hNext _
  rw [hChars, hEnd]
  swap
  · exact h.running
  simp only [endBulkStringHandler, hEnds, ↓reduceIte]
  exact ⟨⟨h.running, h.args, h.freed, hTotal.symm, by rw [← hTotal]; simpa using hRoom, hText, hCuts,
    h.argRoom, h.endRoom⟩, trivial, trivial⟩

/-- The end of the array runs the command on exactly the gathered arguments. -/
theorem Gathered.endArray (h : Gathered ch n xs) (hn : xs.length ≤ n)
    (hTotal : xs.flatten.length < 2 ^ 63 - 1) :
    (handle cmds mem ch .endArray).status = .running ∧
      (handle cmds mem ch .endArray).client = handleCommand cmds xs ch.client ∧
      (handle cmds mem ch .endArray).invocations = ch.invocations ++ [xs] := by
  have hSplit : splitArgs ch.buf 0 ch.ends = (xs, true) := by
    have hBuf : ch.buf = [] ++ xs.flatten ++ ch.buf.drop ch.bufUsed := by
      rw [List.nil_append, ← h.text, List.take_append_drop]
    have hCut := splitArgs_cuts [] xs (ch.buf.drop ch.bufUsed) (by simpa using hTotal)
    rw [← hBuf] at hCut
    rw [h.ends]
    exact hCut
  have hRoom := h.argRoom
  have hCopied : overruns 0 ch.ends = false := by
    obtain ⟨hOrder, hBounds⟩ := pairwise_cuts 0 xs
    rw [h.ends]
    refine overruns_eq_false hOrder fun e he => ?_
    have := hBounds e he
    omega
  rw [handle_of_running h.running]
  simp only [react, endArrayHandler, hSplit, h.args, h.freed, List.nil_append, hCopied,
    Bool.false_eq_true, or_false]
  rw [if_neg (by omega), if_neg (by simp), if_neg (by simp)]
  exact ⟨h.running, rfl, rfl⟩

/-- Copying nothing changes nothing. -/
theorem Gathered.chars_nil (h : Gathered ch n xs) : handle cmds mem ch (.chars 0 0) = ch := by
  have hFits := h.fits
  have hSize : toSize ((0 : Int) - 0) = 0 := rfl
  rw [handle_of_running h.running]
  simp only [react, charsHandler, hSize, Nat.add_zero]
  rw [if_neg (by omega)]
  simp

end CommandHandler

end RedisServer
