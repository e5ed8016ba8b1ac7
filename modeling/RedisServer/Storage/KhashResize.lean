import RedisServer.Storage.KhashSearch
import Mathlib.Algebra.Order.Group.Multiset
import Mathlib.Tactic.Abel

/-! `kh_resize`. The entries that the loops have not reached yet lie in the old
buckets, the others where the search among the new ones meets them. No bucket is
both, so that together with the entry in hand they are always the entries of the
table: an entry that is written over was taken in hand before. -/
namespace RedisServer

open Machine

namespace Rehash

variable {Key Value : Type}

/-- In the middle of the loops, from `n` to `m` buckets, with these entries in hand. -/
structure Sound (hash : Key → Nat) (n m : Nat) (content : Multiset (Key × Value))
    (hand : Multiset (Key × Value)) (s : Rehash Key Value) : Prop where
  clean : ∀ i, s.newFlags.acIsdel i = false
  apart : Disjoint (s.flags.live n) (s.newFlags.used m)
  content_eq :
    entriesAt (s.flags.live n) s.keys s.vals + entriesAt (s.newFlags.used m) s.keys s.vals + hand =
      content
  meets : ∀ i ∈ s.newFlags.used m, Meets (khashProbe hash m) (s.newFlags.used m) (s.keys i) i

variable {hash : Key → Nat} {n k : Nat} {content : Multiset (Key × Value)} {s : Rehash Key Value}
  {key : Key} {val : Value}

theorem Sound.card_live_le {m : Nat} {hand : Multiset (Key × Value)}
    (hSound : Sound hash n m content hand s) : (s.flags.live n).card ≤ content.card := by
  have hCard := congrArg Multiset.card hSound.content_eq
  rw [Multiset.card_add, Multiset.card_add, card_entriesAt] at hCard
  omega

/-- With an entry in hand there are fewer new buckets in use than entries. -/
theorem Sound.card_used_lt {m : Nat} (hSound : Sound hash n m content {(key, val)} s) :
    (s.newFlags.used m).card < content.card := by
  have hCard := congrArg Multiset.card hSound.content_eq
  rw [Multiset.card_add, Multiset.card_add, card_entriesAt, card_entriesAt,
    Multiset.card_singleton] at hCard
  omega

/-- The entry in hand is written to an unused bucket that the search for it meets.
An entry that was there is taken in hand. -/
theorem Sound.write {m i : Nat} {kicked : Multiset (Key × Value)} {flags : KhashFlags}
    (hSound : Sound hash n m content {(key, val)} s) (hi : i < m) (hUnused : i ∉ s.newFlags.used m)
    (hMeets : Meets (khashProbe hash m) (s.newFlags.used m) key i)
    (hFlags : flags.live n = (s.flags.live n).erase i)
    (hKicked : entriesAt (s.flags.live n) s.keys s.vals =
      entriesAt ((s.flags.live n).erase i) s.keys s.vals + kicked) :
    Sound hash n m content kicked
      ⟨flags, s.newFlags.acSetIsemptyFalse i, Function.update s.keys i key,
        Function.update s.vals i val⟩ where
  clean := fun j => by rw [KhashFlags.acIsdel_acSetIsemptyFalse, hSound.clean]
  apart := by
    rw [hFlags, KhashFlags.used_acSetIsemptyFalse _ hi, Finset.disjoint_insert_right]
    exact ⟨Finset.notMem_erase i _, hSound.apart.mono_left (Finset.erase_subset i _)⟩
  content_eq := by
    have hContent := hSound.content_eq
    rw [hFlags, KhashFlags.used_acSetIsemptyFalse _ hi, entriesAt_update_insert hUnused,
      entriesAt_update (Finset.notMem_erase i _)]
    rw [hKicked] at hContent
    rw [← hContent, ← Multiset.singleton_add]
    abel
  meets := by
    have hPlaced : Placed (khashProbe hash m) (s.newFlags.used m) (s.newFlags.used m) s.keys :=
      ⟨Finset.Subset.refl _, hSound.meets⟩
    rw [KhashFlags.used_acSetIsemptyFalse _ hi]
    exact (hPlaced.add hUnused hMeets).meets

/-- The kick-out process ends with empty hands. Each entry that is taken out
leaves one fewer in the old buckets. -/
theorem Sound.kickOut_spec {bound fuel : Nat} (hk : k ≤ 31) (hRoom : content.card < 2 ^ k)
    (hBound : 2 ^ k ≤ bound) (hSound : Sound hash n (2 ^ k) content {(key, val)} s)
    (hFuel : (s.flags.live n).card < fuel) :
    ∃ s', kickOut hash n (2 ^ k - 1) bound fuel s key val = some s' ∧
      Sound hash n (2 ^ k) content 0 s' ∧ s'.flags.live n ⊆ s.flags.live n := by
  induction fuel generalizing s key val with
  | zero => omega
  | succ fuel ih =>
      obtain ⟨stop, hStop, hEmpty⟩ := exists_triangleProbe_not_mem k (hash key)
        (lt_trans hSound.card_used_lt hRoom)
      obtain ⟨i, hFind, hi, hUnused, hMeets⟩ := findEmpty_spec hash key hk hStop hEmpty
        (Nat.zero_le stop) (show stop < 0 + bound by omega)
        fun t' ht' => absurd ht' (Nat.not_lt_zero t')
      rw [kickOut, khashProbe_zero, hFind]
      simp only
      by_cases hThere : i < n ∧ s.flags.acIseither i = false
      · have hLive : i ∈ s.flags.live n := by
          rw [KhashFlags.live, Finset.mem_filter, Finset.mem_range]
          exact hThere
        have hFlags := s.flags.live_acSetIsdelTrue (n := n) (i := i)
        have hKicked : entriesAt (s.flags.live n) s.keys s.vals =
            entriesAt ((s.flags.live n).erase i) s.keys s.vals + {(s.keys i, s.vals i)} := by
          rw [entriesAt_erase hLive, ← Multiset.singleton_add, add_comm]
        have hNext := hSound.write hi hUnused hMeets hFlags hKicked
        have hLess : ((s.flags.acSetIsdelTrue i).live n).card < fuel := by
          rw [hFlags, Finset.card_erase_of_mem hLive]
          have hPos := Finset.card_pos.mpr ⟨i, hLive⟩
          omega
        obtain ⟨s', hRun, hDone, hSubset⟩ := ih hNext hLess
        rw [if_pos hThere]
        refine ⟨s', hRun, hDone, hSubset.trans ?_⟩
        rw [hFlags]
        exact Finset.erase_subset i _
      · have hNot : i ∉ s.flags.live n := by
          rw [KhashFlags.live, Finset.mem_filter, Finset.mem_range]
          exact hThere
        have hErase := Finset.erase_eq_of_notMem hNot
        rw [if_neg hThere]
        refine ⟨_, rfl, hSound.write hi hUnused hMeets hErase.symm ?_, Finset.Subset.refl _⟩
        rw [hErase, add_zero]

/-- After its turn an old bucket has no entry. -/
theorem Sound.rehashBucket_spec {fuel : Nat} (hk : k ≤ 31) (hRoom : content.card < 2 ^ k)
    (hBound : 2 ^ k ≤ fuel) (hSound : Sound hash n (2 ^ k) content 0 s) {j : Nat} (hj : j < n) :
    ∃ s', rehashBucket hash n (2 ^ k - 1) fuel s j = some s' ∧
      Sound hash n (2 ^ k) content 0 s' ∧ s'.flags.live n ⊆ (s.flags.live n).erase j := by
  rw [rehashBucket]
  by_cases hThere : s.flags.acIseither j = false
  · have hLive : j ∈ s.flags.live n := by
      rw [KhashFlags.live, Finset.mem_filter, Finset.mem_range]
      exact ⟨hj, hThere⟩
    have hFlags := s.flags.live_acSetIsdelTrue (n := n) (i := j)
    have hTaken : Sound hash n (2 ^ k) content {(s.keys j, s.vals j)}
        { s with flags := s.flags.acSetIsdelTrue j } := by
      refine ⟨hSound.clean, ?_, ?_, hSound.meets⟩
      · rw [hFlags]
        exact hSound.apart.mono_left (Finset.erase_subset j _)
      · have hContent := hSound.content_eq
        rw [entriesAt_erase hLive, ← Multiset.singleton_add] at hContent
        rw [hFlags, ← hContent]
        abel
    obtain ⟨s', hRun, hDone, hSubset⟩ := hTaken.kickOut_spec hk hRoom hBound
      (lt_of_le_of_lt hTaken.card_live_le (hRoom.trans_le hBound))
    rw [if_pos hThere]
    refine ⟨s', hRun, hDone, ?_⟩
    rw [← hFlags]
    exact hSubset
  · rw [if_neg hThere]
    refine ⟨s, rfl, hSound, fun i hi => Finset.mem_erase.mpr ⟨?_, hi⟩⟩
    rintro rfl
    exact hThere (Finset.mem_filter.mp hi).2

/-- The loop over the old buckets. -/
theorem Sound.foldlM_rehashBucket {fuel : Nat} (hk : k ≤ 31) (hRoom : content.card < 2 ^ k)
    (hBound : 2 ^ k ≤ fuel) (hSound : Sound hash n (2 ^ k) content 0 s) (js : List Nat)
    (hjs : ∀ j ∈ js, j < n) :
    ∃ s', js.foldlM (rehashBucket hash n (2 ^ k - 1) fuel) s = some s' ∧
      Sound hash n (2 ^ k) content 0 s' ∧ s'.flags.live n ⊆ s.flags.live n ∧
      ∀ j ∈ js, j ∉ s'.flags.live n := by
  induction js generalizing s with
  | nil => exact ⟨s, rfl, hSound, Finset.Subset.refl _, fun j hj => absurd hj List.not_mem_nil⟩
  | cons j js ih =>
      obtain ⟨m, hFirst, hMiddle, hLess⟩ :=
        hSound.rehashBucket_spec hk hRoom hBound (hjs j List.mem_cons_self)
      obtain ⟨s', hRest, hDone, hSubset, hGone⟩ :=
        ih hMiddle fun j' hj' => hjs j' (List.mem_cons_of_mem j hj')
      refine ⟨s', ?_, hDone, hSubset.trans (hLess.trans (Finset.erase_subset j _)), ?_⟩
      · rw [List.foldlM_cons, hFirst]
        exact hRest
      · intro j' hj'
        rcases List.mem_cons.mp hj' with rfl | hLater
        · exact fun hLive => Finset.notMem_erase j' _ (hLess (hSubset hLive))
        · exact hGone j' hLater

/-- What the loops start with. -/
theorem sound_start (hash : Key → Nat) (m : Nat) (h : Khash Key Value) :
    Sound hash h.nBuckets m h.content 0 ⟨h.flags, .fresh, h.keys, h.vals⟩ where
  clean := KhashFlags.acIsdel_fresh
  apart := by
    rw [KhashFlags.used_fresh]
    exact Finset.disjoint_empty_right _
  content_eq := by
    rw [KhashFlags.used_fresh, add_zero]
    exact add_zero _
  meets := by
    intro i hi
    rw [KhashFlags.used_fresh] at hi
    exact absurd hi (Finset.notMem_empty i)

end Rehash

namespace Khash

variable {Key Value : Type} {hash : Key → Nat} {h : Khash Key Value}

/-- Without deleted buckets, those in use have an entry. -/
theorem live_eq_used {flags : KhashFlags} (hClean : ∀ i, flags.acIsdel i = false) (n : Nat) :
    flags.live n = flags.used n := by
  ext i
  rw [flags.mem_live, flags.mem_used]
  simp [hClean i]

/-- A resize to enough buckets ends, keeps the entries and clears the deleted
buckets. -/
theorem Sound.khResize_spec (hSound : h.Sound hash) {k : Nat} (h2 : 2 ≤ k) (hk : k ≤ 31)
    {request : BitVec 32} (hTo : resizeTo request = 2 ^ k) (hEnough : h.size < acHashUpper (2 ^ k))
    {fuel : Nat} (hFuel : 2 ^ 31 ≤ fuel) :
    ∃ h', khResize hash fuel h request = some h' ∧ h'.Sound hash ∧ h'.content = h.content ∧
      h'.nBuckets = 2 ^ k ∧ h'.nOccupied < h'.upperBound := by
  have hPow : 2 ^ k ≤ 2 ^ 31 := Nat.pow_le_pow_right (n := 2) Nat.two_pos hk
  have hRoom : h.content.card < 2 ^ k := by
    rw [hSound.card_content]
    exact hEnough.trans (acHashUpper_lt (four_le_two_pow h2))
  obtain ⟨s, hRun, hDone, -, hGone⟩ := (Rehash.sound_start hash (2 ^ k) h).foldlM_rehashBucket hk
    hRoom (hPow.trans hFuel) (List.range h.nBuckets) fun j hj => List.mem_range.mp hj
  have hOld : s.flags.live h.nBuckets = ∅ := by
    refine Finset.eq_empty_of_forall_notMem fun j hj => ?_
    exact hGone j (List.mem_range.mpr (s.flags.mem_live.mp hj).1) hj
  have hLive := live_eq_used hDone.clean (2 ^ k)
  have hContent : entriesAt (s.newFlags.live (2 ^ k)) s.keys s.vals = h.content := by
    have hAll := hDone.content_eq
    rw [hOld, add_zero] at hAll
    rw [hLive, ← hAll]
    exact (zero_add _).symm
  have hCard : (s.newFlags.used (2 ^ k)).card = h.size := by
    rw [← hSound.card_content, ← hContent, card_entriesAt, hLive]
  rw [khResize, hTo, if_neg (Nat.not_le.mpr hEnough), hRun]
  refine ⟨_, rfl, ⟨Or.inr ⟨k, h2, hk, rfl⟩, rfl, ?_, hCard.symm, hEnough.le, ?_⟩, hContent, rfl,
    hEnough⟩
  · exact hCard.symm.trans (congrArg Finset.card hLive.symm)
  · refine ⟨KhashFlags.live_subset_used _, fun i hi => ?_⟩
    exact hDone.meets i (hLive ▸ hi)

end Khash

end RedisServer
