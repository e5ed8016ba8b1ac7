import RedisServer.Machine.Probing
import Mathlib.Data.Multiset.MapFold
import Mathlib.Tactic.IntervalCases

/-! The hash table of `khash.h`. The buckets lie in three arrays: two bits of
state for each, its key and its value. A key is looked for from the bucket of
its hash on, in steps that grow by one. A table that is too full is hashed again
in place, where an entry that is in the way is taken out and placed next.
Numbers are those of `khint_t`. The loops have no bound of their own, so they
are given one, and come back without a result when it was too small. That the
blocks can be allocated is assumed. -/
namespace RedisServer

open Machine

/-- Sixteen buckets share a word. Of the two bits of a bucket, the higher one
tells that it is empty and the lower one that its entry was deleted. -/
structure KhashFlags where
  words : Nat → BitVec 32

namespace KhashFlags

def bits (flags : KhashFlags) (i : Nat) : BitVec 32 :=
  flags.words (i >>> 4) >>> ((i &&& 0xf) <<< 1)

def acIsempty (flags : KhashFlags) (i : Nat) : Bool := flags.bits i &&& 2#32 ≠ 0#32

def acIsdel (flags : KhashFlags) (i : Nat) : Bool := flags.bits i &&& 1#32 ≠ 0#32

def acIseither (flags : KhashFlags) (i : Nat) : Bool := flags.bits i &&& 3#32 ≠ 0#32

/-- Take bits away from the word of a bucket. -/
def clear (b : BitVec 32) (flags : KhashFlags) (i : Nat) : KhashFlags :=
  ⟨Function.update flags.words (i >>> 4)
    (flags.words (i >>> 4) &&& ~~~(b <<< ((i &&& 0xf) <<< 1)))⟩

def acSetIsemptyFalse : KhashFlags → Nat → KhashFlags := clear 2#32

def acSetIsbothFalse : KhashFlags → Nat → KhashFlags := clear 3#32

def acSetIsdelTrue (flags : KhashFlags) (i : Nat) : KhashFlags :=
  ⟨Function.update flags.words (i >>> 4)
    (flags.words (i >>> 4) ||| (1#32 <<< ((i &&& 0xf) <<< 1)))⟩

/-- What `memset` with 0xaa makes of the words: every bucket is empty. -/
def fresh : KhashFlags := ⟨fun _ => 0xaaaaaaaa#32⟩

section Bits

variable (flags : KhashFlags) (i j : Nat) {e : Nat}

/-- The bits of a bucket in its word: 0 for deleted, 1 for empty. -/
def bit (flags : KhashFlags) (i e : Nat) : Bool :=
  (flags.words (i / 16)).getLsbD (2 * (i % 16) + e)

theorem shift_eq : (i &&& 0xf) <<< 1 = 2 * (i % 16) := by
  rw [Nat.shiftLeft_eq, Nat.mul_comm, show (0xf : Nat) = 2 ^ 4 - 1 from rfl,
    Nat.and_two_pow_sub_one_eq_mod]

theorem word_eq : i >>> 4 = i / 16 := Nat.shiftRight_eq_div_pow i 4

theorem getLsbD_bits (e : Nat) : (flags.bits i).getLsbD e = flags.bit i e := by
  rw [bits, BitVec.getLsbD_ushiftRight, shift_eq, word_eq, bit]

theorem and_twoPow_ne_zero (w : BitVec 32) {e : Nat} (he : e < 32) :
    decide (w &&& BitVec.twoPow 32 e ≠ 0#32) = w.getLsbD e := by
  rw [BitVec.and_twoPow]
  cases w.getLsbD e with
  | false => simp
  | true =>
      have hPow : BitVec.twoPow 32 e ≠ 0#32 := by
        intro hZero
        have hBit := congrArg (fun v => v.getLsbD e) hZero
        simp [he] at hBit
      simp [hPow]

theorem acIsempty_eq : flags.acIsempty i = flags.bit i 1 := by
  rw [← getLsbD_bits, ← and_twoPow_ne_zero _ (by decide)]
  rfl

theorem acIsdel_eq : flags.acIsdel i = flags.bit i 0 := by
  rw [← getLsbD_bits, ← and_twoPow_ne_zero _ (by decide)]
  rfl

theorem acIseither_eq : flags.acIseither i = (flags.acIsempty i || flags.acIsdel i) := by
  have hSplit : flags.bits i &&& 3#32 = (flags.bits i &&& 2#32) ||| (flags.bits i &&& 1#32) := by
    rw [← BitVec.and_or_distrib_left]
    rfl
  rw [acIseither, acIsempty, acIsdel, hSplit, ← Bool.decide_or]
  refine decide_eq_decide.mpr ?_
  rw [ne_eq, BitVec.or_eq_zero_iff, not_and_or]

/-- The bits that a change of one bucket is about, seen from a bucket. -/
theorem getLsbD_shift (b : BitVec 32) (hb : ∀ k, 2 ≤ k → b.getLsbD k = false) (he : e < 2) :
    (b <<< (2 * (i % 16))).getLsbD (2 * (j % 16) + e) =
      if i % 16 = j % 16 then b.getLsbD e else false := by
  have hj := Nat.mod_lt j (show 0 < 16 by decide)
  rw [BitVec.getLsbD_shiftLeft]
  split
  · rename_i hSame
    rw [hSame, Nat.add_sub_cancel_left]
    have hWidth : 2 * (j % 16) + e < 32 := by omega
    simp [hWidth]
  · rename_i hOther
    by_cases hLow : 2 * (j % 16) + e < 2 * (i % 16)
    · simp [hLow]
    · rw [hb _ (by omega), Bool.and_false]

theorem decide_eq_word : decide (i = j) = decide (i / 16 = j / 16 ∧ i % 16 = j % 16) :=
  decide_eq_decide.mpr (by omega)

theorem bit_clear (b : BitVec 32) (hb : ∀ k, 2 ≤ k → b.getLsbD k = false) (he : e < 2) :
    (clear b flags i).bit j e = (flags.bit j e && !(decide (i = j) && b.getLsbD e)) := by
  have hj := Nat.mod_lt j (show 0 < 16 by decide)
  have hWidth : 2 * (j % 16) + e < 32 := by omega
  rw [clear, bit, bit, word_eq, shift_eq, decide_eq_word]
  dsimp only
  by_cases hWord : i / 16 = j / 16
  · rw [hWord, Function.update_self, BitVec.getLsbD_and, BitVec.getLsbD_not,
      getLsbD_shift i j b hb he]
    by_cases hSame : i % 16 = j % 16 <;> simp [hSame, hWidth]
  · rw [Function.update_of_ne (Ne.symm hWord)]
    simp [hWord]

theorem bit_acSetIsdelTrue (he : e < 2) :
    (flags.acSetIsdelTrue i).bit j e = (flags.bit j e || (decide (i = j) && decide (e = 0))) := by
  have hOne : ∀ k, (1#32).getLsbD k = decide (k = 0) := by
    intro k
    exact BitVec.getLsbD_one.trans (by simp)
  rw [acSetIsdelTrue, bit, bit, word_eq, shift_eq, decide_eq_word]
  dsimp only
  by_cases hWord : i / 16 = j / 16
  · rw [hWord, Function.update_self, BitVec.getLsbD_or,
      getLsbD_shift i j 1#32 (fun k hk => by rw [hOne]; simp; omega) he, hOne]
    by_cases hSame : i % 16 = j % 16 <;> simp [hSame]
  · rw [Function.update_of_ne (Ne.symm hWord)]
    simp [hWord]

/-- Each mask has only bits of its own bucket. -/
theorem mask_high {m : Nat} (hm : m < 4) (k : Nat) (hk : 2 ≤ k) :
    (BitVec.ofNat 32 m).getLsbD k = false := by
  have hLess : m < 2 ^ k := lt_of_lt_of_le hm (Nat.pow_le_pow_right (n := 2) Nat.two_pos hk)
  rw [BitVec.getLsbD_ofNat, Nat.testBit_lt_two_pow hLess, Bool.and_false]

end Bits

section States

variable (flags : KhashFlags) (i j : Nat)

theorem acIsempty_acSetIsemptyFalse :
    (flags.acSetIsemptyFalse i).acIsempty j = (flags.acIsempty j && !decide (i = j)) := by
  rw [acIsempty_eq, acIsempty_eq, acSetIsemptyFalse,
    bit_clear flags i j 2#32 (mask_high (by decide)) (by decide)]
  simp

theorem acIsdel_acSetIsemptyFalse :
    (flags.acSetIsemptyFalse i).acIsdel j = flags.acIsdel j := by
  rw [acIsdel_eq, acIsdel_eq, acSetIsemptyFalse,
    bit_clear flags i j 2#32 (mask_high (by decide)) (by decide)]
  simp

theorem acIsempty_acSetIsbothFalse :
    (flags.acSetIsbothFalse i).acIsempty j = (flags.acIsempty j && !decide (i = j)) := by
  rw [acIsempty_eq, acIsempty_eq, acSetIsbothFalse,
    bit_clear flags i j 3#32 (mask_high (by decide)) (by decide)]
  simp

theorem acIsdel_acSetIsbothFalse :
    (flags.acSetIsbothFalse i).acIsdel j = (flags.acIsdel j && !decide (i = j)) := by
  rw [acIsdel_eq, acIsdel_eq, acSetIsbothFalse,
    bit_clear flags i j 3#32 (mask_high (by decide)) (by decide)]
  simp

theorem acIsempty_acSetIsdelTrue : (flags.acSetIsdelTrue i).acIsempty j = flags.acIsempty j := by
  rw [acIsempty_eq, acIsempty_eq, bit_acSetIsdelTrue flags i j (by decide)]
  simp

theorem acIsdel_acSetIsdelTrue :
    (flags.acSetIsdelTrue i).acIsdel j = (flags.acIsdel j || decide (i = j)) := by
  rw [acIsdel_eq, acIsdel_eq, bit_acSetIsdelTrue flags i j (by decide)]
  simp

theorem acIsempty_fresh : fresh.acIsempty i = true := by
  have hi := Nat.mod_lt i (show 0 < 16 by decide)
  rw [acIsempty_eq, bit, fresh]
  dsimp only
  generalize i % 16 = k at hi
  interval_cases k <;> rfl

theorem acIsdel_fresh : fresh.acIsdel i = false := by
  have hi := Nat.mod_lt i (show 0 < 16 by decide)
  rw [acIsdel_eq, bit, fresh]
  dsimp only
  generalize i % 16 = k at hi
  interval_cases k <;> rfl

end States

section Slots

variable (flags : KhashFlags) {n i : Nat}

/-- The buckets that are not empty. -/
def used (flags : KhashFlags) (n : Nat) : Finset Nat :=
  (Finset.range n).filter fun i => flags.acIsempty i = false

/-- The buckets with an entry. -/
def live (flags : KhashFlags) (n : Nat) : Finset Nat :=
  (Finset.range n).filter fun i => flags.acIseither i = false

theorem mem_used : i ∈ flags.used n ↔ i < n ∧ flags.acIsempty i = false := by
  rw [used, Finset.mem_filter, Finset.mem_range]

theorem mem_live :
    i ∈ flags.live n ↔ i < n ∧ flags.acIsempty i = false ∧ flags.acIsdel i = false := by
  rw [live, Finset.mem_filter, Finset.mem_range, acIseither_eq, Bool.or_eq_false_iff]

theorem live_subset_used : flags.live n ⊆ flags.used n := by
  intro i hi
  obtain ⟨hLess, hFull, -⟩ := flags.mem_live.mp hi
  exact flags.mem_used.mpr ⟨hLess, hFull⟩

theorem used_fresh : fresh.used n = ∅ := by
  refine Finset.eq_empty_of_forall_notMem fun i hi => ?_
  have hEmpty := acIsempty_fresh i
  rw [(fresh.mem_used.mp hi).2] at hEmpty
  cases hEmpty

theorem used_acSetIsemptyFalse (hi : i < n) :
    (flags.acSetIsemptyFalse i).used n = insert i (flags.used n) := by
  ext j
  rw [mem_used, acIsempty_acSetIsemptyFalse, Finset.mem_insert, mem_used]
  by_cases hSame : i = j
  · subst hSame
    simp [hi]
  · simp [hSame, Ne.symm hSame]

theorem used_acSetIsbothFalse (hi : i < n) :
    (flags.acSetIsbothFalse i).used n = insert i (flags.used n) := by
  ext j
  rw [mem_used, acIsempty_acSetIsbothFalse, Finset.mem_insert, mem_used]
  by_cases hSame : i = j
  · subst hSame
    simp [hi]
  · simp [hSame, Ne.symm hSame]

theorem live_acSetIsbothFalse (hi : i < n) :
    (flags.acSetIsbothFalse i).live n = insert i (flags.live n) := by
  ext j
  rw [mem_live, acIsempty_acSetIsbothFalse, acIsdel_acSetIsbothFalse, Finset.mem_insert, mem_live]
  by_cases hSame : i = j
  · subst hSame
    simp [hi]
  · simp [hSame, Ne.symm hSame]

theorem used_acSetIsdelTrue : (flags.acSetIsdelTrue i).used n = flags.used n := by
  ext j
  rw [mem_used, mem_used, acIsempty_acSetIsdelTrue]

theorem live_acSetIsdelTrue : (flags.acSetIsdelTrue i).live n = (flags.live n).erase i := by
  ext j
  rw [Finset.mem_erase, mem_live, mem_live, acIsempty_acSetIsdelTrue, acIsdel_acSetIsdelTrue]
  by_cases hSame : i = j
  · simp [hSame]
  · simp [hSame, Ne.symm hSame]

end Slots

end KhashFlags

/-- The next power of two. -/
def kroundup32 (x : BitVec 32) : BitVec 32 :=
  let x := x - 1#32
  let x := x ||| (x >>> 1)
  let x := x ||| (x >>> 2)
  let x := x ||| (x >>> 4)
  let x := x ||| (x >>> 8)
  let x := x ||| (x >>> 16)
  x + 1#32

/-- `n * 0.77 + 0.5`, cut to an integer. For a power of two the product is at
least a fiftieth away from the numbers at which the cut would change. -/
def acHashUpper (n : Nat) : Nat := (77 * n + 50) / 100

/-- The table. Of the two arrays the first `nBuckets` cells are its own. -/
structure Khash (Key Value : Type) where
  nBuckets : Nat
  size : Nat
  nOccupied : Nat
  upperBound : Nat
  flags : KhashFlags
  keys : Nat → Key
  vals : Nat → Value

/-- An empty table, with whatever is in the memory it will get. -/
def khInit {Key Value : Type} (keys : Nat → Key) (vals : Nat → Value) : Khash Key Value :=
  ⟨0, 0, 0, 0, ⟨fun _ => 0#32⟩, keys, vals⟩

/-- The index after this many steps. -/
def nextIndex (mask i step : Nat) : Nat := (i + step) % 2 ^ 32 &&& mask

/-- The loop over the new flags: the first empty bucket. -/
def findEmpty (newFlags : KhashFlags) (newMask : Nat) : Nat → Nat → Nat → Option Nat
  | 0, _, _ => none
  | fuel + 1, i, step =>
      if newFlags.acIsempty i = false then
        findEmpty newFlags newMask fuel (nextIndex newMask i (step + 1)) (step + 1)
      else some i

/-- What the loops of `kh_resize` change. -/
structure Rehash (Key Value : Type) where
  flags : KhashFlags
  newFlags : KhashFlags
  keys : Nat → Key
  vals : Nat → Value

section Operations

variable {Key Value : Type} (hash : Key → Nat)

/-- The kick-out process. An entry of the old table that lies where the entry in
hand belongs gives way, and is in hand next. -/
def kickOut (nBuckets newMask bound : Nat) :
    Nat → Rehash Key Value → Key → Value → Option (Rehash Key Value)
  | 0, _, _, _ => none
  | fuel + 1, s, key, val =>
      match findEmpty s.newFlags newMask bound (hash key &&& newMask) 0 with
      | none => none
      | some i =>
          let placed : Rehash Key Value :=
            { s with
              newFlags := s.newFlags.acSetIsemptyFalse i
              keys := Function.update s.keys i key
              vals := Function.update s.vals i val }
          if i < nBuckets ∧ s.flags.acIseither i = false then
            kickOut nBuckets newMask bound fuel { placed with flags := s.flags.acSetIsdelTrue i }
              (s.keys i) (s.vals i)
          else some placed

/-- One bucket of the old table. -/
def rehashBucket (nBuckets newMask fuel : Nat) (s : Rehash Key Value) (j : Nat) :
    Option (Rehash Key Value) :=
  if s.flags.acIseither j = false then
    kickOut hash nBuckets newMask fuel fuel { s with flags := s.flags.acSetIsdelTrue j }
      (s.keys j) (s.vals j)
  else some s

/-- The new number of buckets for a request. -/
def resizeTo (newNBuckets : BitVec 32) : Nat :=
  let n := (kroundup32 newNBuckets).toNat
  if n < 4 then 4 else n

/-- A request for a size that is too small for the entries is ignored. -/
def khResize (fuel : Nat) (h : Khash Key Value) (newNBuckets : BitVec 32) :
    Option (Khash Key Value) :=
  let n := resizeTo newNBuckets
  if acHashUpper n ≤ h.size then some h
  else
    ((List.range h.nBuckets).foldlM (rehashBucket hash h.nBuckets (n - 1) fuel)
        ⟨h.flags, .fresh, h.keys, h.vals⟩).map fun s =>
      { nBuckets := n
        size := h.size
        nOccupied := h.size
        upperBound := acHashUpper n
        flags := s.newFlags
        keys := s.keys
        vals := s.vals }

/-- The first part of `kh_put`. A full table whose buckets are mostly deleted ones
is hashed again, another one gets more buckets. -/
def khMakeRoom (fuel : Nat) (h : Khash Key Value) : Option (Khash Key Value) :=
  if h.upperBound ≤ h.nOccupied then
    if (h.size <<< 1) % 2 ^ 32 < h.nBuckets then
      khResize hash fuel h (BitVec.ofNat 32 h.nBuckets - 1#32)
    else khResize hash fuel h (BitVec.ofNat 32 h.nBuckets + 1#32)
  else some h

variable [DecidableEq Key]

/-- The loop of `kh_get` and `kh_put`: on to an empty bucket or to the key. It
remembers the last deleted bucket, and tells whether it has come round to the
bucket it started from. -/
def search (h : Khash Key Value) (key : Key) (last : Nat) :
    Nat → Nat → Nat → Nat → Option (Nat × Nat × Bool)
  | 0, _, _, _ => none
  | fuel + 1, i, step, site =>
      if h.flags.acIsempty i = false ∧ (h.flags.acIsdel i = true ∨ h.keys i ≠ key) then
        let site := if h.flags.acIsdel i = true then i else site
        let i := nextIndex (h.nBuckets - 1) i (step + 1)
        if i = last then some (i, site, true) else search h key last fuel i (step + 1) site
      else some (i, site, false)

/-- The bucket of the key, or the number of buckets. -/
def khGet (fuel : Nat) (h : Khash Key Value) (key : Key) : Option Nat :=
  if h.nBuckets = 0 then some 0
  else
    let i := hash key &&& (h.nBuckets - 1)
    (search h key i fuel i 0 h.nBuckets).map fun (i, _, round) =>
      if round = true ∨ h.flags.acIseither i = true then h.nBuckets else i

/-- The bucket that `kh_put` takes for a key. A deleted one on the way to an
empty one is used again. -/
def putIndex (fuel : Nat) (h : Khash Key Value) (key : Key) : Option Nat :=
  let i := hash key &&& (h.nBuckets - 1)
  if h.flags.acIsempty i = true then some i
  else
    (search h key i fuel i 0 h.nBuckets).map fun (i, site, round) =>
      if round = true ∧ site ≠ h.nBuckets then site
      else if h.flags.acIsempty i = true ∧ site ≠ h.nBuckets then site
      else i

/-- The bucket, and what was there: nothing (1), a deleted entry (2), or the key
(0), which is left alone then. -/
def khPut (fuel : Nat) (h : Khash Key Value) (key : Key) : Option (Khash Key Value × Nat × Int) := do
  let h ← khMakeRoom hash fuel h
  let x ← putIndex hash fuel h key
  if h.flags.acIsempty x = true then
    some ({ h with
      keys := Function.update h.keys x key
      flags := h.flags.acSetIsbothFalse x
      size := h.size + 1
      nOccupied := h.nOccupied + 1 }, x, 1)
  else if h.flags.acIsdel x = true then
    some ({ h with
      keys := Function.update h.keys x key
      flags := h.flags.acSetIsbothFalse x
      size := h.size + 1 }, x, 2)
  else some (h, x, 0)

end Operations

/-- Delete the entry of a bucket, if there is one. -/
def khDel {Key Value : Type} (h : Khash Key Value) (x : Nat) : Khash Key Value :=
  if x ≠ h.nBuckets ∧ h.flags.acIseither x = false then
    { h with flags := h.flags.acSetIsdelTrue x, size := h.size - 1 }
  else h

namespace Khash

variable {Key Value : Type} (h : Khash Key Value)

/-- The loop from `kh_begin` to `kh_end` over the buckets that `kh_exist` accepts. -/
def entries : List (Key × Value) :=
  ((List.range h.nBuckets).filter fun i => h.flags.acIseither i = false).map fun i =>
    (h.keys i, h.vals i)

/-- Assignments to `kh_key` and `kh_value` of a bucket. -/
def write (x : Nat) (key : Key) (val : Value) : Khash Key Value :=
  { h with keys := Function.update h.keys x key, vals := Function.update h.vals x val }

end Khash

end RedisServer
