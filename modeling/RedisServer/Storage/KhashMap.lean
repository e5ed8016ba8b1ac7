import RedisServer.Storage.KhashResize
import RedisServer.Machine.Table

/-! The table of `khash.h` as a finite map. Each operation ends, keeps where the
entries may lie, and changes the entries as the map does. -/
namespace RedisServer

open Machine

section Rounding

theorem resizeTo_first : resizeTo (BitVec.ofNat 32 0 + 1#32) = 2 ^ 2 := by decide

/-- One bucket fewer is rounded up to as many as there are. -/
theorem resizeTo_same {k : Nat} (h2 : 2 ≤ k) (hk : k ≤ 31) :
    resizeTo (BitVec.ofNat 32 (2 ^ k) - 1#32) = 2 ^ k := by
  interval_cases k <;> decide

/-- One bucket more is rounded up to twice as many. -/
theorem resizeTo_double {k : Nat} (h2 : 2 ≤ k) (hk : k ≤ 30) :
    resizeTo (BitVec.ofNat 32 (2 ^ k) + 1#32) = 2 ^ (k + 1) := by
  interval_cases k <;> decide

end Rounding

namespace Khash

variable {Key Value : Type} {hash : Key → Nat} {h : Khash Key Value} {fuel : Nat}

/-- There is room for one more entry afterwards. With fewer than `2 ^ 30` entries
the number of buckets stays one of 32 bits. It grows only when half of the
buckets have an entry. -/
theorem Sound.khMakeRoom_spec (hSound : h.Sound hash) (hSize : h.size < 2 ^ 30)
    (hFuel : 2 ^ 31 ≤ fuel) :
    ∃ h', khMakeRoom hash fuel h = some h' ∧ h'.Sound hash ∧ h'.content = h.content ∧
      (∃ k, 2 ≤ k ∧ k ≤ 31 ∧ h'.nBuckets = 2 ^ k) ∧ h'.nOccupied < h'.upperBound ∧
      h'.nBuckets ≤ max h.nBuckets (max 4 (4 * h.size)) := by
  have hDouble : (h.size <<< 1) % 2 ^ 32 = 2 * h.size := by
    rw [Nat.shiftLeft_eq]
    omega
  rw [khMakeRoom, hDouble]
  by_cases hFull : h.upperBound ≤ h.nOccupied
  · rw [if_pos hFull]
    rcases hSound.buckets with hZero | ⟨k, h2, hk, hn⟩
    · have hEmpty : h.size = 0 := by
        have hLe := hSound.size_le
        have hRoom := hSound.room
        rw [hSound.upper_eq, hZero, acHashUpper] at hRoom
        omega
      obtain ⟨h', hRun, hDone, hContent, hBuckets, hRoom⟩ :=
        hSound.khResize_spec (le_refl 2) (by decide) resizeTo_first (by rw [hEmpty]; decide) hFuel
      rw [hZero, if_neg (Nat.not_lt_zero _)]
      exact ⟨h', hRun, hDone, hContent, ⟨2, le_refl 2, by decide, hBuckets⟩, hRoom, by omega⟩
    · have hFour := four_le_two_pow h2
      rw [hn]
      by_cases hSparse : 2 * h.size < 2 ^ k
      · have hEnough : h.size < acHashUpper (2 ^ k) := by
          rw [acHashUpper]
          omega
        obtain ⟨h', hRun, hDone, hContent, hBuckets, hRoom⟩ :=
          hSound.khResize_spec h2 hk (resizeTo_same h2 hk) hEnough hFuel
        rw [if_pos hSparse]
        exact ⟨h', hRun, hDone, hContent, ⟨k, h2, hk, hBuckets⟩, hRoom, by omega⟩
      · have hk30 : k ≤ 30 := by
          by_contra hMore
          have hLarge : 2 ^ 31 ≤ 2 ^ k := Nat.pow_le_pow_right (n := 2) Nat.two_pos (by omega)
          omega
        have hEnough : h.size < acHashUpper (2 ^ (k + 1)) := by
          have hLe := hSound.size_le
          have hRoom := hSound.room
          rw [hSound.upper_eq, hn, acHashUpper] at hRoom
          rw [acHashUpper, pow_succ]
          omega
        obtain ⟨h', hRun, hDone, hContent, hBuckets, hRoom⟩ :=
          hSound.khResize_spec (by omega) (by omega) (resizeTo_double h2 hk30) hEnough hFuel
        rw [if_neg hSparse]
        refine ⟨h', hRun, hDone, hContent, ⟨k + 1, by omega, by omega, hBuckets⟩, hRoom, ?_⟩
        rw [hBuckets, pow_succ]
        omega
  · rw [if_neg hFull]
    refine ⟨h, rfl, hSound, rfl, ?_, Nat.lt_of_not_le hFull, le_max_left _ _⟩
    refine hSound.buckets.resolve_left fun hZero => hFull ?_
    rw [hSound.upper_eq, hZero, acHashUpper]
    omega

/-- A new entry in a bucket without one. Its value is what was there before. -/
theorem Sound.add {x : Nat} {key : Key} (hSound : h.Sound hash) {k : Nat} (h2 : 2 ≤ k) (hk : k ≤ 31)
    (hn : h.nBuckets = 2 ^ k) (hx : x < h.nBuckets) (hDead : x ∉ h.live)
    (hMeets : Meets (khashProbe hash h.nBuckets) h.used key x) {occupied : Nat}
    (hOccupied : occupied = (insert x h.used).card) (hRoom : occupied ≤ h.upperBound) :
    let h' : Khash Key Value :=
      { h with
        keys := Function.update h.keys x key
        flags := h.flags.acSetIsbothFalse x
        size := h.size + 1
        nOccupied := occupied }
    h'.Sound hash ∧ x ∈ h'.live ∧ h'.keys x = key ∧ h'.content = (key, h.vals x) ::ₘ h.content := by
  intro h'
  have hUsed : h'.used = insert x h.used := h.flags.used_acSetIsbothFalse hx
  have hLive : h'.live = insert x h.live := h.flags.live_acSetIsbothFalse hx
  refine ⟨⟨Or.inr ⟨k, h2, hk, hn⟩, hSound.upper_eq, ?_, ?_, hRoom, ?_⟩, ?_, ?_, ?_⟩
  · rw [hLive, Finset.card_insert_of_notMem hDead, ← hSound.size_eq]
  · rw [hUsed, ← hOccupied]
  · rw [hUsed, hLive]
    exact hSound.placed.add hDead hMeets
  · rw [hLive]
    exact Finset.mem_insert_self x h.live
  · exact Function.update_self x key h.keys
  · have hAdd : entriesAt (insert x h.live) h'.keys (Function.update h.vals x (h.vals x)) =
        (key, h.vals x) ::ₘ h.content := entriesAt_update_insert hDead key (h.vals x)
    rw [Function.update_eq_self] at hAdd
    rw [content, hLive]
    exact hAdd

theorem nBuckets_khDel (h : Khash Key Value) (x : Nat) : (khDel h x).nBuckets = h.nBuckets := by
  rw [khDel]
  split <;> rfl

/-- `kh_del` takes an entry away. -/
theorem Sound.khDel_spec (hSound : h.Sound hash) {x : Nat} (hx : x ∈ h.live) :
    (khDel h x).Sound hash ∧ h.content = (h.keys x, h.vals x) ::ₘ (khDel h x).content := by
  have hBoth : x ≠ h.nBuckets ∧ h.flags.acIseither x = false := by
    refine ⟨?_, (Finset.mem_filter.mp hx).2⟩
    have hLess := (h.flags.mem_live.mp hx).1
    omega
  have hUsed : (khDel h x).used = h.used := by
    rw [khDel, if_pos hBoth]
    exact h.flags.used_acSetIsdelTrue
  have hLive : (khDel h x).live = h.live.erase x := by
    rw [khDel, if_pos hBoth]
    exact h.flags.live_acSetIsdelTrue
  have hSize : (khDel h x).size = h.size - 1 := by rw [khDel, if_pos hBoth]
  have hRest : (khDel h x).upperBound = h.upperBound ∧ (khDel h x).nOccupied = h.nOccupied ∧
      (khDel h x).keys = h.keys ∧ (khDel h x).vals = h.vals := by
    rw [khDel, if_pos hBoth]
    exact ⟨rfl, rfl, rfl, rfl⟩
  obtain ⟨hUpper, hOccupied, hKeys, hVals⟩ := hRest
  have hn := nBuckets_khDel h x
  refine ⟨⟨?_, ?_, ?_, ?_, ?_, ?_⟩, ?_⟩
  · rw [hn]
    exact hSound.buckets
  · rw [hUpper, hn, hSound.upper_eq]
  · rw [hSize, hLive, Finset.card_erase_of_mem hx, hSound.size_eq]
  · rw [hOccupied, hUsed, hSound.occupied_eq]
  · rw [hOccupied, hUpper]
    exact hSound.room
  · rw [hn, hUsed, hLive, hKeys]
    exact hSound.placed.remove x
  · rw [content, content, hLive, hKeys, hVals]
    exact entriesAt_erase hx

theorem sound_khInit (hash : Key → Nat) (keys : Nat → Key) (vals : Nat → Value) :
    (khInit keys vals).Sound hash where
  buckets := Or.inl rfl
  upper_eq := (by decide : 0 = acHashUpper 0)
  size_eq := rfl
  occupied_eq := rfl
  room := le_refl 0
  placed := ⟨fun _ hi => hi, fun i hi => absurd hi (Finset.notMem_empty i)⟩

theorem coe_entries (h : Khash Key Value) : (h.entries : Multiset (Key × Value)) = h.content := by
  rw [entries, ← Multiset.map_coe, ← Multiset.filter_coe]
  exact congrArg _ (Multiset.filter_congr fun i _ => Iff.rfl)

/-- A new value in the bucket of a key. -/
theorem Sound.write (hSound : h.Sound hash) {x : Nat} {key : Key} (hx : x ∈ h.live)
    (hKey : h.keys x = key) (val : Value) :
    (h.write x key val).Sound hash ∧
      ∀ rest, h.content = (key, h.vals x) ::ₘ rest →
        (h.write x key val).content = (key, val) ::ₘ rest := by
  subst hKey
  have hKeys : (h.write x (h.keys x) val).keys = h.keys := Function.update_eq_self x h.keys
  refine ⟨⟨hSound.buckets, hSound.upper_eq, hSound.size_eq, hSound.occupied_eq, hSound.room, ?_⟩, ?_⟩
  · rw [hKeys]
    exact hSound.placed
  · intro rest hContent
    have hRest : entriesAt (h.live.erase x) h.keys h.vals = rest := by
      rw [content, entriesAt_erase hx] at hContent
      exact (Multiset.cons_inj_right _).mp hContent
    rw [← hRest]
    refine Eq.trans ?_ (entriesAt_update_insert (Finset.notMem_erase x h.live) (h.keys x) val)
    rw [Finset.insert_erase hx]
    rfl

variable [DecidableEq Key]

/-- `kh_put` ends with a bucket of the key. A key that was absent is added. -/
theorem Sound.khPut_spec (hSound : h.Sound hash) (hSize : h.size < 2 ^ 30) (hFuel : 2 ^ 31 ≤ fuel)
    (key : Key) :
    ∃ h' x ret, khPut hash fuel h key = some (h', x, ret) ∧ h'.Sound hash ∧ x ∈ h'.live ∧
      h'.keys x = key ∧ h'.nBuckets ≤ max h.nBuckets (max 4 (4 * h.size)) ∧
      (ret = 0 ∧ h'.content = h.content ∨
        ret ≠ 0 ∧ (∀ e ∈ h.content, e.1 ≠ key) ∧ h'.content = (key, h'.vals x) ::ₘ h.content) := by
  obtain ⟨r, hRun, hRoomy, hContent, ⟨k, h2, hk, hn⟩, hRoom, hMost⟩ :=
    hSound.khMakeRoom_spec hSize hFuel
  obtain ⟨x, hIndex, hx, hCases⟩ := hRoomy.putIndex_spec h2 hk hn hFuel key
  rw [khPut, hRun]
  simp only [Option.bind_eq_bind, Option.bind_some, hIndex]
  rcases hCases with ⟨hLive, hKey⟩ | ⟨hDead, hAbsent, hMeets⟩
  · obtain ⟨-, hFull, hDel⟩ := r.flags.mem_live.mp hLive
    rw [if_neg (by rw [hFull]; decide), if_neg (by rw [hDel]; decide)]
    exact ⟨r, x, 0, rfl, hRoomy, hLive, hKey, hMost, Or.inl ⟨rfl, hContent⟩⟩
  · have hNew : ∀ e ∈ h.content, e.1 ≠ key := by
      rw [← hContent]
      intro e he
      obtain ⟨i, hi, rfl⟩ := mem_entriesAt.mp he
      exact hAbsent i hi
    by_cases hEmpty : r.flags.acIsempty x = true
    · have hUnused : x ∉ r.used := by
        intro hUsed
        rw [(r.flags.mem_used.mp hUsed).2] at hEmpty
        cases hEmpty
      have hCard : r.nOccupied + 1 = (insert x r.used).card := by
        rw [Finset.card_insert_of_notMem hUnused, hRoomy.occupied_eq]
      obtain ⟨hDone, hIn, hKey, hMore⟩ := hRoomy.add h2 hk hn hx hDead hMeets hCard hRoom
      rw [if_pos hEmpty]
      exact ⟨_, x, 1, rfl, hDone, hIn, hKey, hMost, Or.inr ⟨by decide, hNew, hContent ▸ hMore⟩⟩
    · have hUsed : x ∈ r.used := r.flags.mem_used.mpr ⟨hx, Bool.eq_false_of_not_eq_true hEmpty⟩
      have hDel : r.flags.acIsdel x = true := by
        by_contra hNot
        exact hDead (r.flags.mem_live.mpr
          ⟨hx, Bool.eq_false_of_not_eq_true hEmpty, Bool.eq_false_of_not_eq_true hNot⟩)
      have hCard : r.nOccupied = (insert x r.used).card := by
        rw [Finset.insert_eq_of_mem hUsed, hRoomy.occupied_eq]
      obtain ⟨hDone, hIn, hKey, hMore⟩ := hRoomy.add h2 hk hn hx hDead hMeets hCard hRoom.le
      rw [if_neg hEmpty, if_pos hDel]
      exact ⟨_, x, 2, rfl, hDone, hIn, hKey, hMost, Or.inr ⟨by decide, hNew, hContent ▸ hMore⟩⟩

section Lookup

variable {t : Table Key Value} (hContent : h.content = Table.listing t)
include hContent

theorem lookup_of_live {i : Nat} (hi : i ∈ h.live) : t.lookup (h.keys i) = some (h.vals i) := by
  rw [← Table.mem_listing, ← hContent]
  exact mem_entriesAt.mpr ⟨i, hi, rfl⟩

theorem lookup_eq_none {key : Key} (hAbsent : ∀ e ∈ h.content, e.1 ≠ key) : t.lookup key = none := by
  cases hFind : t.lookup key with
  | none => rfl
  | some v =>
      rw [← Table.mem_listing, ← hContent] at hFind
      exact absurd rfl (hAbsent (key, v) hFind)

theorem Sound.khGet_lookup (hSound : h.Sound hash) (hFuel : 2 ^ 31 ≤ fuel) (key : Key) :
    ∃ i, khGet hash fuel h key = some i ∧
      (i ∈ h.live ∧ h.keys i = key ∧ t.lookup key = some (h.vals i) ∨
        i = h.nBuckets ∧ t.lookup key = none) := by
  obtain ⟨i, hGet, hCases⟩ := hSound.khGet_spec hFuel key
  refine ⟨i, hGet, ?_⟩
  rcases hCases with ⟨hi, rfl⟩ | ⟨hEnd, hAbsent⟩
  · exact Or.inl ⟨hi, rfl, lookup_of_live hContent hi⟩
  · refine Or.inr ⟨hEnd, lookup_eq_none hContent fun e he => ?_⟩
    obtain ⟨j, hj, rfl⟩ := mem_entriesAt.mp he
    exact hAbsent j hj

/-- A put and the two assignments after it are an insertion. -/
theorem Sound.khPut_insert (hSound : h.Sound hash) (hSize : h.size < 2 ^ 30)
    (hFuel : 2 ^ 31 ≤ fuel) (key : Key) (val : Value) :
    ∃ h' x ret, khPut hash fuel h key = some (h', x, ret) ∧ (h'.write x key val).Sound hash ∧
      (h'.write x key val).content = Table.listing (t.insert key val) ∧ x ∈ h'.live ∧
      h'.nBuckets ≤ max h.nBuckets (max 4 (4 * h.size)) ∧ (ret = 0 ↔ (t.lookup key).isSome) := by
  obtain ⟨h', x, ret, hPut, hDone, hx, hKey, hMost, hCases⟩ := hSound.khPut_spec hSize hFuel key
  obtain ⟨hWritten, hWrite⟩ := hDone.write hx hKey val
  refine ⟨h', x, ret, hPut, hWritten, ?_, hx, hMost, ?_⟩
  · rw [Table.listing_insert]
    apply hWrite
    rcases hCases with ⟨-, hSame⟩ | ⟨-, hAbsent, hAdded⟩
    · have hFound := lookup_of_live (hSame.trans hContent) hx
      rw [hKey] at hFound
      rw [hSame, hContent, Table.listing_erase hFound]
    · rw [hAdded, hContent, Table.erase_of_lookup_eq_none (lookup_eq_none hContent hAbsent)]
  · rcases hCases with ⟨rfl, hSame⟩ | ⟨hRet, hAbsent, -⟩
    · have hFound := lookup_of_live (hSame.trans hContent) hx
      rw [hKey] at hFound
      simp [hFound]
    · simp [hRet, lookup_eq_none hContent hAbsent]

theorem Sound.khDel_erase (hSound : h.Sound hash) {x : Nat} (hx : x ∈ h.live) :
    (khDel h x).Sound hash ∧ (khDel h x).content = Table.listing (t.erase (h.keys x)) := by
  obtain ⟨hDone, hLess⟩ := hSound.khDel_spec hx
  refine ⟨hDone, (Multiset.cons_inj_right (h.keys x, h.vals x)).mp ?_⟩
  rw [← hLess, hContent]
  exact Table.listing_erase (lookup_of_live hContent hx)

end Lookup

end Khash

end RedisServer
