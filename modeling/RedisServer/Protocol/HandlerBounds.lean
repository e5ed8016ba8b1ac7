import RedisServer.Protocol.ClientInput
import RedisServer.Protocol.InlineTokens

/-! The bounds of the command handler. Its three blocks are sized by what the
parser announces, so the bounds hold as long as an array is announced before
the strings in it, a payload is delivered once, and no announced length is
negative. The parser checks none of this. -/
namespace RedisServer

open Machine

namespace CommandHandler

section Callbacks

variable {ρ : Type} {cmds : Commands ρ} {mem : Bytes} {ch : CommandHandler ρ}

/-- Used parts do not exceed their blocks and the ends are ordered positions
of the buffer. -/
structure InBounds (ch : CommandHandler ρ) : Prop where
  running : ch.status = .running
  buf : ch.bufUsed ≤ ch.bufSize
  ends : ch.ends.length ≤ ch.endsCapacity
  args : ch.args.length ≤ ch.argCapacity
  ordered : ch.ends.Pairwise (· ≤ ·)
  below : ∀ e ∈ ch.ends, e ≤ ch.bufUsed

/-- What a callback needs: a copy goes forward and fits, and the sizes that an
announced length leads to are not wrapped. -/
def Sound (ch : CommandHandler ρ) : Callback → Prop
  | .chars first last => first ≤ last ∧ (ch.bufUsed : Int) + (last - first) ≤ ch.bufSize
  | .beginArray len => (toSize len : Int) = len ∧ 8 * toSize len < 2 ^ 64
  | .beginBulkString len => (toSize (ch.bufUsed + len) : Int) = ch.bufUsed + len
  | _ => True

/-- Callbacks made one after the other. -/
def Safe (cmds : Commands ρ) (mem : Bytes) : CommandHandler ρ → List Callback → Prop
  | _, [] => True
  | ch, call :: calls =>
      ch.Sound call ∧ (handle cmds mem ch call).InBounds ∧ Safe cmds mem (handle cmds mem ch call) calls

/-- Both lists have room for as many entries, and the buffer is smaller than
the address space. -/
structure Steady (ch : CommandHandler ρ) : Prop extends InBounds ch where
  same : ch.endsCapacity = ch.argCapacity
  small : ch.bufSize < 2 ^ 63 - 1

theorem steady_create (client : Client ρ) : (createCommandHandler client 256 10).Steady :=
  ⟨⟨rfl, Nat.zero_le _, Nat.zero_le _, Nat.zero_le _, .nil, by simp [createCommandHandler]⟩, rfl,
    show 256 < 2 ^ 63 - 1 by decide⟩

/-- A callback that leaves both lists as they are. -/
structure Keeps (ch next : CommandHandler ρ) : Prop where
  args : next.args = ch.args
  ends : next.ends = ch.ends
  capacity : next.endsCapacity = ch.endsCapacity

variable (cmds mem)

theorem Steady.beginArray (h : ch.Steady) {len : Int} (hLow : 0 ≤ len) (hHigh : len < 2 ^ 60) :
    ch.Sound (.beginArray len) ∧ (handle cmds mem ch (.beginArray len)).Steady ∧
      (handle cmds mem ch (.beginArray len)).args = [] ∧
      (handle cmds mem ch (.beginArray len)).ends = [] ∧
      (handle cmds mem ch (.beginArray len)).bufUsed = 0 ∧
      (handle cmds mem ch (.beginArray len)).endsCapacity = max ch.endsCapacity len.toNat := by
  have hSize : toSize len = len.toNat := toSize_of_nonneg hLow (by omega)
  have hAlloc : ¬AllocFails (8 * len.toNat % 2 ^ 64) := by
    unfold AllocFails
    omega
  refine ⟨⟨by rw [hSize]; omega, by rw [hSize]; omega⟩, ?_⟩
  rw [handle_of_running h.running]
  simp only [react, beginArrayHandler, hSize, hAlloc, and_false, ↓reduceIte]
  exact ⟨⟨⟨h.running, Nat.zero_le _, Nat.zero_le _, Nat.zero_le _, .nil, by simp⟩,
    by rw [h.same], h.small⟩, trivial, trivial, trivial, trivial⟩

theorem Steady.beginBulkString (h : ch.Steady) {len : Int} (hLow : 0 ≤ ch.bufUsed + len)
    (hHigh : ch.bufUsed + len < 2 ^ 63 - 1) :
    ch.Sound (.beginBulkString len) ∧ (handle cmds mem ch (.beginBulkString len)).Steady ∧
      Keeps ch (handle cmds mem ch (.beginBulkString len)) ∧
      (handle cmds mem ch (.beginBulkString len)).bufUsed = ch.bufUsed ∧
      ch.bufUsed + len ≤ (handle cmds mem ch (.beginBulkString len)).bufSize := by
  have hSize : toSize (ch.bufUsed + len) = (ch.bufUsed + len).toNat := toSize_of_nonneg hLow (by omega)
  have hUsed := h.buf
  refine ⟨by rw [Sound, hSize]; omega, ?_⟩
  rw [handle_of_running h.running]
  simp only [react, beginBulkStringHandler, hSize]
  split
  · have hAlloc : ¬AllocFails (ch.bufUsed + len).toNat := by
      unfold AllocFails
      omega
    rw [if_neg hAlloc]
    refine ⟨⟨⟨h.running, ?_, h.ends, h.args, h.ordered, h.below⟩, h.same, ?_⟩,
      ⟨rfl, rfl, rfl⟩, rfl, ?_⟩
    · dsimp only
      omega
    · dsimp only
      omega
    · dsimp only
      omega
  · exact ⟨h, ⟨rfl, rfl, rfl⟩, rfl, by omega⟩

theorem Steady.chars (h : ch.Steady) {first last : Int} (hOrder : first ≤ last)
    (hRoom : (ch.bufUsed : Int) + (last - first) ≤ ch.bufSize) :
    ch.Sound (.chars first last) ∧ (handle cmds mem ch (.chars first last)).Steady ∧
      Keeps ch (handle cmds mem ch (.chars first last)) ∧
      (handle cmds mem ch (.chars first last)).bufUsed = ch.bufUsed + (last - first).toNat ∧
      (handle cmds mem ch (.chars first last)).bufSize = ch.bufSize := by
  have hSmall := h.small
  have hSize : toSize (last - first) = (last - first).toNat :=
    toSize_of_nonneg (by omega) (by omega)
  refine ⟨⟨hOrder, hRoom⟩, ?_⟩
  rw [handle_of_running h.running]
  simp only [react, charsHandler, hSize]
  rw [if_neg (by omega)]
  refine ⟨⟨⟨h.running, ?_, h.ends, h.args, h.ordered, ?_⟩, h.same, h.small⟩,
    ⟨rfl, rfl, rfl⟩, rfl, rfl⟩
  · dsimp only
    omega
  · exact fun e he => Nat.le_add_right_of_le (h.below e he)

theorem Steady.endBulkString (h : ch.Steady) (hRoom : ch.ends.length < ch.endsCapacity) :
    (handle cmds mem ch .endBulkString).Steady ∧
      (handle cmds mem ch .endBulkString).args = ch.args ∧
      (handle cmds mem ch .endBulkString).ends.length = ch.ends.length + 1 ∧
      (handle cmds mem ch .endBulkString).endsCapacity = ch.endsCapacity ∧
      (handle cmds mem ch .endBulkString).bufUsed = ch.bufUsed := by
  rw [handle_of_running h.running]
  simp only [react, endBulkStringHandler]
  rw [if_neg (by omega)]
  refine ⟨⟨⟨h.running, h.buf, ?_, h.args, ?_, ?_⟩, h.same, h.small⟩, rfl, ?_, rfl, rfl⟩
  · rw [List.length_append]
    exact hRoom
  · rw [List.pairwise_append]
    refine ⟨h.ordered, List.pairwise_singleton _ _, fun e he stop hStop => ?_⟩
    rw [List.mem_singleton.mp hStop]
    exact h.below e he
  · intro e he
    rcases List.mem_append.mp he with he | he
    · exact h.below e he
    · exact Nat.le_of_eq (List.mem_singleton.mp he)
  · simp

theorem splitArgs_length_le (buf : Bytes) (begin : Nat) (ends : List Nat) :
    (splitArgs buf begin ends).1.length ≤ ends.length := by
  induction ends generalizing begin with
  | nil => exact le_rfl
  | cons stop ends ih =>
      unfold splitArgs
      dsimp only
      split
      · exact Nat.zero_le _
      · exact Nat.succ_le_succ (ih stop)

/-- With no arguments left from before, the end of an array stays in bounds,
and leaves none only if there were none. -/
theorem Steady.endArray (h : ch.Steady) (hArgs : ch.args = []) :
    (handle cmds mem ch .endArray).Steady ∧
      (handle cmds mem ch .endArray).ends = ch.ends ∧
      (handle cmds mem ch .endArray).endsCapacity = ch.endsCapacity ∧
      ((handle cmds mem ch .endArray).args = [] → ch.ends = []) := by
  have hCount := splitArgs_length_le ch.buf 0 ch.ends
  have hRoom : (splitArgs ch.buf 0 ch.ends).1.length ≤ ch.argCapacity :=
    hCount.trans (h.ends.trans (Nat.le_of_eq h.same))
  have hFirst : (splitArgs ch.buf 0 ch.ends).1 = [] → ch.ends = [] := by
    intro hNil
    cases hEnds : ch.ends with
    | nil => rfl
    | cons stop ends =>
        have hStop : stop ≤ ch.bufUsed := h.below stop (by rw [hEnds]; exact List.mem_cons_self ..)
        have hUsed := h.buf
        have hSmall := h.small
        have hSize : toSize ((stop : Int) - (0 : Nat)) = stop :=
          (toSize_of_nonneg (by omega) (by omega)).trans (by omega)
        have hAlloc : ¬AllocFails ((stop + 1) % 2 ^ 64) := by
          unfold AllocFails
          omega
        rw [hEnds] at hNil
        unfold splitArgs at hNil
        simp only [hSize, hAlloc, ↓reduceIte] at hNil
        cases hNil
  have hCopied : overruns 0 ch.ends = false := by
    have hUsed := h.buf
    have hSmall := h.small
    refine overruns_eq_false (List.pairwise_cons.mpr ⟨fun e _ => Nat.zero_le e, h.ordered⟩)
      fun e he => ?_
    have := h.below e he
    omega
  rw [handle_of_running h.running]
  simp only [react, endArrayHandler, hArgs, List.nil_append, ne_eq, not_true_eq_false, and_false,
    ↓reduceIte, hCopied, Bool.false_eq_true, or_false]
  rw [if_neg (by omega)]
  split <;>
    exact ⟨⟨⟨h.running, h.buf, h.ends, hRoom, h.ordered, h.below⟩, h.same, h.small⟩, rfl, rfl, hFirst⟩

theorem Steady.beginSimpleString (h : ch.Steady) (hEnds : ∀ e ∈ ch.ends, e = 0) :
    (handle cmds mem ch .beginSimpleString).Steady ∧
      Keeps ch (handle cmds mem ch .beginSimpleString) := by
  rw [handle_of_running h.running]
  exact ⟨⟨⟨h.running, Nat.zero_le _, h.ends, h.args, h.ordered,
    fun e he => Nat.le_of_eq (hEnds e he)⟩, h.same, h.small⟩, rfl, rfl, rfl⟩

theorem Steady.with_client (h : ch.Steady) (buf : Bytes) (client : Client ρ) :
    ({ ch with buf := buf, client := client } : CommandHandler ρ).Steady :=
  ⟨⟨h.running, h.buf, h.ends, h.args, h.ordered, h.below⟩, h.same, h.small⟩

theorem exists_endSimpleStringHandler (ch : CommandHandler ρ) :
    ∃ buf client, ch.endSimpleStringHandler = { ch with buf := buf, client := client } := by
  unfold endSimpleStringHandler
  split
  · unfold handleSimpleStringReply
    dsimp only
    split
    · split <;> exact ⟨_, _, rfl⟩
    · exact ⟨_, _, rfl⟩
  · exact ⟨_, _, rfl⟩

/-- The three ends of a simple string change at most the client. -/
theorem Steady.simpleEnd (h : ch.Steady) {cb : Callback} (hcb : cb ∈ Parser.simpleEnds) :
    ch.Sound cb ∧ (handle cmds mem ch cb).Steady ∧ Keeps ch (handle cmds mem ch cb) := by
  rw [handle_of_running h.running]
  simp only [Parser.simpleEnds, List.mem_cons, List.not_mem_nil, or_false] at hcb
  rcases hcb with rfl | rfl | rfl
  · obtain ⟨buf, client, hEnd⟩ := exists_endSimpleStringHandler ch
    rw [react, hEnd]
    exact ⟨trivial, h.with_client buf client, rfl, rfl, rfl⟩
  · exact ⟨trivial, h, rfl, rfl, rfl⟩
  · exact ⟨trivial, h, rfl, rfl, rfl⟩

end Callbacks

section Lists

variable {ρ : Type} {cmds : Commands ρ} {mem : Bytes} {ch : CommandHandler ρ}

theorem safe_append {first second : List Callback} (hFirst : Safe cmds mem ch first)
    (hSecond : Safe cmds mem (first.foldl (handle cmds mem) ch) second) :
    Safe cmds mem ch (first ++ second) := by
  induction first generalizing ch with
  | nil => exact hSecond
  | cons call first ih => exact ⟨hFirst.1, hFirst.2.1, ih hFirst.2.2 hSecond⟩

/-- Callbacks that stay in bounds and add ends at most. -/
structure Gathers (cmds : Commands ρ) (mem : Bytes) (ch : CommandHandler ρ)
    (calls : List Callback) : Prop where
  safe : Safe cmds mem ch calls
  steady : (calls.foldl (handle cmds mem) ch).Steady
  args : (calls.foldl (handle cmds mem) ch).args = ch.args
  capacity : (calls.foldl (handle cmds mem) ch).endsCapacity = ch.endsCapacity

theorem Gathers.append {first second : List Callback} (h₁ : Gathers cmds mem ch first)
    (h₂ : Gathers cmds mem (first.foldl (handle cmds mem) ch) second) :
    Gathers cmds mem ch (first ++ second) where
  safe := safe_append h₁.safe h₂.safe
  steady := by rw [List.foldl_append]; exact h₂.steady
  args := by rw [List.foldl_append]; exact h₂.args.trans h₁.args
  capacity := by rw [List.foldl_append]; exact h₂.capacity.trans h₁.capacity

variable (cmds mem)

theorem Steady.token (h : ch.Steady) {first last : Nat} (hOrder : first ≤ last)
    (hUsed : ch.bufUsed ≤ first) (hLast : last < 2 ^ 62) (hRoom : ch.ends.length < ch.endsCapacity) :
    Gathers cmds mem ch (tokenCalls first last) ∧
      ((tokenCalls first last).foldl (handle cmds mem) ch).ends.length = ch.ends.length + 1 ∧
      ((tokenCalls first last).foldl (handle cmds mem) ch).bufUsed ≤ last := by
  have hLen : ((last - first : Nat) : Int) = (last : Int) - first := by omega
  obtain ⟨hSound₁, h₁, hKeeps₁, hUsed₁, hSize₁⟩ := h.beginBulkString cmds mem
    (show 0 ≤ (ch.bufUsed : Int) + (last - first : Nat) by omega) (by omega)
  obtain ⟨hSound₂, h₂, hKeeps₂, hUsed₂, -⟩ := h₁.chars cmds mem
    (show (first : Int) ≤ last by omega) (by rw [hUsed₁, ← hLen]; exact hSize₁)
  obtain ⟨h₃, hArgs, hEnds, hCapacity, hUsed₃⟩ := h₂.endBulkString cmds mem
    (by rw [hKeeps₂.ends, hKeeps₁.ends, hKeeps₂.capacity, hKeeps₁.capacity]; exact hRoom)
  refine ⟨⟨⟨hSound₁, h₁.toInBounds, hSound₂, h₂.toInBounds, trivial, h₃.toInBounds, trivial⟩, h₃,
    hArgs.trans (hKeeps₂.args.trans hKeeps₁.args),
    hCapacity.trans (hKeeps₂.capacity.trans hKeeps₁.capacity)⟩, ?_, ?_⟩
  · refine hEnds.trans ?_
    rw [hKeeps₂.ends, hKeeps₁.ends]
  · refine Nat.le_trans (Nat.le_of_eq hUsed₃) ?_
    rw [hUsed₂, hUsed₁]
    omega

/-- The tokens of a line lie behind each other, so together they are not longer
than the line. -/
theorem Steady.inlineTokens (line : Bytes) (hLine : line.length < 2 ^ 62) (fuel start : Nat)
    (h : ch.Steady) (hUsed : ch.bufUsed ≤ start)
    (hRoom : ch.ends.length + (inlineTokens line fuel start).count .endBulkString ≤
      ch.endsCapacity) :
    Gathers cmds mem ch (inlineTokens line fuel start) := by
  induction fuel generalizing ch start with
  | zero => exact ⟨trivial, h, rfl, rfl⟩
  | succ fuel ih =>
      obtain hNone | ⟨first, last, next, hFirst, hOrder, hLast, hNext, hTokens⟩ :=
        inlineTokens_cases line fuel start
      · rw [hNone]
        exact ⟨trivial, h, rfl, rfl⟩
      · have hOne : (tokenCalls first last).count .endBulkString = 1 := by simp [tokenCalls]
        rw [hTokens, List.count_append, hOne] at hRoom
        obtain ⟨hToken, hEnds, hEnd⟩ := h.token cmds mem hOrder (by omega) (by omega) (by omega)
        rw [hTokens]
        exact hToken.append (ih next hToken.steady (by omega)
          (by rw [hEnds, hToken.capacity]; omega))

end Lists

end CommandHandler

end RedisServer
