import RedisServer.Storage.Khash

/-! Where the entries of a `khash.h` table lie. Every entry is met by the search
for its key before an empty bucket is, and there always is an empty bucket. So
the loop of `kh_get` and `kh_put` ends, and it ends at the key if it is there. -/
namespace RedisServer

open Machine

/-- The buckets that the search for a key goes through, among `n`. -/
def khashProbe {Key : Type} (hash : Key → Nat) (n : Nat) (key : Key) (t : Nat) : Nat :=
  triangleProbe n (hash key) t

section Probe

variable {Key : Type} (hash : Key → Nat) (key : Key)

theorem khashProbe_zero (k : Nat) : hash key &&& (2 ^ k - 1) = khashProbe hash (2 ^ k) key 0 := by
  rw [Nat.and_two_pow_sub_one_eq_mod, khashProbe, triangleProbe, triangle, Nat.add_zero]

theorem khashProbe_lt (k t : Nat) : khashProbe hash (2 ^ k) key t < 2 ^ k :=
  triangleProbe_lt (Nat.two_pow_pos k) _ _

theorem nextIndex_khashProbe {k : Nat} (hk : k ≤ 31) (t : Nat) :
    nextIndex (2 ^ k - 1) (khashProbe hash (2 ^ k) key t) (t + 1) =
      khashProbe hash (2 ^ k) key (t + 1) := by
  have hDvd : 2 ^ k ∣ 2 ^ 32 := Nat.pow_dvd_pow 2 (by omega)
  rw [nextIndex, Nat.and_two_pow_sub_one_eq_mod, Nat.mod_mod_of_dvd _ hDvd, khashProbe, khashProbe,
    triangleProbe_succ]

/-- The loop that looks for an empty bucket finds the first one. -/
theorem findEmpty_spec {newFlags : KhashFlags} {k stop : Nat} (hk : k ≤ 31) (hStop : stop < 2 ^ k)
    (hEmpty : khashProbe hash (2 ^ k) key stop ∉ newFlags.used (2 ^ k)) {fuel t : Nat}
    (ht : t ≤ stop) (hFuel : stop < t + fuel)
    (hBefore : ∀ t' < t, khashProbe hash (2 ^ k) key t' ∈ newFlags.used (2 ^ k)) :
    ∃ i, findEmpty newFlags (2 ^ k - 1) fuel (khashProbe hash (2 ^ k) key t) t = some i ∧
      i < 2 ^ k ∧ i ∉ newFlags.used (2 ^ k) ∧
      Meets (khashProbe hash (2 ^ k)) (newFlags.used (2 ^ k)) key i := by
  induction fuel generalizing t with
  | zero => omega
  | succ fuel ih =>
      have hLess := khashProbe_lt hash key k t
      rw [findEmpty]
      by_cases hFull : newFlags.acIsempty (khashProbe hash (2 ^ k) key t) = false
      · have hUsed := newFlags.mem_used.mpr ⟨hLess, hFull⟩
        have hNot : t ≠ stop := by
          rintro rfl
          exact hEmpty hUsed
        rw [if_pos hFull, nextIndex_khashProbe hash key hk]
        refine ih (by omega) (by omega) fun t' ht' => ?_
        rcases Nat.lt_succ_iff_lt_or_eq.mp ht' with hOld | rfl
        · exact hBefore t' hOld
        · exact hUsed
      · rw [if_neg hFull]
        refine ⟨_, rfl, hLess, fun hUsed => hFull (newFlags.mem_used.mp hUsed).2, t, rfl, hBefore⟩

end Probe

namespace Khash

variable {Key Value : Type} (h : Khash Key Value)

def used : Finset Nat := h.flags.used h.nBuckets

def live : Finset Nat := h.flags.live h.nBuckets

def content : Multiset (Key × Value) := entriesAt h.live h.keys h.vals

/-- What every operation keeps. -/
structure Sound (hash : Key → Nat) (h : Khash Key Value) : Prop where
  buckets : h.nBuckets = 0 ∨ ∃ k, 2 ≤ k ∧ k ≤ 31 ∧ h.nBuckets = 2 ^ k
  upper_eq : h.upperBound = acHashUpper h.nBuckets
  size_eq : h.size = h.live.card
  occupied_eq : h.nOccupied = h.used.card
  room : h.nOccupied ≤ h.upperBound
  placed : Placed (khashProbe hash h.nBuckets) h.used h.live h.keys

variable {h} {hash : Key → Nat} {key : Key}

theorem Sound.size_le (hSound : h.Sound hash) : h.size ≤ h.nOccupied := by
  rw [hSound.size_eq, hSound.occupied_eq]
  exact Finset.card_le_card hSound.placed.subset

theorem Sound.card_content (hSound : h.Sound hash) : h.content.card = h.size := by
  rw [content, card_entriesAt, hSound.size_eq]

theorem acHashUpper_lt {n : Nat} (hn : 4 ≤ n) : acHashUpper n < n := by
  rw [acHashUpper]
  omega

theorem four_le_two_pow {k : Nat} (hk : 2 ≤ k) : 4 ≤ 2 ^ k :=
  Nat.pow_le_pow_right (n := 2) Nat.two_pos hk

theorem Sound.card_used_lt (hSound : h.Sound hash) {k : Nat} (hk : 2 ≤ k) (hn : h.nBuckets = 2 ^ k) :
    h.used.card < 2 ^ k := by
  have hUpper := acHashUpper_lt (four_le_two_pow hk)
  have hRoom := hSound.room
  rw [hSound.occupied_eq, hSound.upper_eq, hn] at hRoom
  omega

/-- A bucket to put the key in: none yet, or one whose entry was deleted and that
the search for the key meets. -/
def Reusable (hash : Key → Nat) (h : Khash Key Value) (key : Key) (site : Nat) : Prop :=
  site = h.nBuckets ∨
    site ∈ h.used ∧ site ∉ h.live ∧ Meets (khashProbe hash h.nBuckets) h.used key site

variable [DecidableEq Key]

/-- The loop, from a bucket to which the search for the key has come. -/
theorem search_spec {k stop : Nat} (hk : k ≤ 31) (hn : h.nBuckets = 2 ^ k) (hStop : stop < 2 ^ k)
    (hEmpty : khashProbe hash (2 ^ k) key stop ∉ h.used) {fuel t site : Nat} (ht : t ≤ stop)
    (hFuel : stop < t + fuel) (hSite : Reusable hash h key site)
    (hPassed : Passed (khashProbe hash (2 ^ k)) h.used h.live h.keys key t) :
    ∃ t' site', search h key (khashProbe hash (2 ^ k) key 0) fuel (khashProbe hash (2 ^ k) key t) t
        site = some (khashProbe hash (2 ^ k) key t', site', false) ∧
      Reusable hash h key site' ∧
      Passed (khashProbe hash (2 ^ k)) h.used h.live h.keys key t' ∧
      (khashProbe hash (2 ^ k) key t' ∈ h.used →
        khashProbe hash (2 ^ k) key t' ∈ h.live ∧ h.keys (khashProbe hash (2 ^ k) key t') = key) := by
  induction fuel generalizing t site with
  | zero => omega
  | succ fuel ih =>
      have hLess : khashProbe hash (2 ^ k) key t < h.nBuckets := hn ▸ khashProbe_lt hash key k t
      have hMeets := hPassed.meets (Nat.le_refl t)
      rw [search]
      split
      · rename_i hGo
        obtain ⟨hFull, hOther⟩ := hGo
        have hUsed : khashProbe hash (2 ^ k) key t ∈ h.used := h.flags.mem_used.mpr ⟨hLess, hFull⟩
        have hNot : t ≠ stop := by
          rintro rfl
          exact hEmpty hUsed
        -- The first bucket comes again only after as many steps as there are.
        have hRound : khashProbe hash (2 ^ k) key (t + 1) ≠ khashProbe hash (2 ^ k) key 0 :=
          (triangleProbe_ne (Nat.succ_pos t) (by omega)).symm
        have hDeleted : h.flags.acIsdel (khashProbe hash (2 ^ k) key t) = true →
            khashProbe hash (2 ^ k) key t ∉ h.live := by
          intro hDel hLive
          rw [(h.flags.mem_live.mp hLive).2.2] at hDel
          cases hDel
        have hNext : Reusable hash h key
            (if h.flags.acIsdel (khashProbe hash (2 ^ k) key t) = true then
              khashProbe hash (2 ^ k) key t else site) := by
          split
          · rename_i hDel
            refine Or.inr ⟨hUsed, hDeleted hDel, ?_⟩
            rw [hn]
            exact hMeets
          · exact hSite
        have hStep : Passed (khashProbe hash (2 ^ k)) h.used h.live h.keys key (t + 1) := by
          refine hPassed.succ hUsed fun hHere => ?_
          rcases hOther with hDel | hKey
          · exact hDeleted hDel hHere.1
          · exact hKey hHere.2
        simp only [hn, nextIndex_khashProbe hash key hk]
        rw [if_neg hRound]
        exact ih (by omega) (by omega) hNext hStep
      · rename_i hEnd
        refine ⟨t, site, rfl, hSite, hPassed, fun hUsed => ?_⟩
        have hFull := (h.flags.mem_used.mp hUsed).2
        rw [not_and_or, not_or, not_not] at hEnd
        obtain ⟨hDel, hKey⟩ := hEnd.resolve_left (not_not_intro hFull)
        exact ⟨h.flags.mem_live.mpr ⟨hLess, hFull, Bool.eq_false_of_not_eq_true hDel⟩, hKey⟩

/-- The loop from the start, with a bound that is enough for every table. -/
theorem Sound.search_start (hSound : h.Sound hash) {k : Nat} (h2 : 2 ≤ k) (hk : k ≤ 31)
    (hn : h.nBuckets = 2 ^ k) {fuel : Nat} (hFuel : 2 ^ 31 ≤ fuel) (key : Key) :
    ∃ t site, search h key (hash key &&& (h.nBuckets - 1)) fuel (hash key &&& (h.nBuckets - 1)) 0
        h.nBuckets = some (khashProbe hash h.nBuckets key t, site, false) ∧
      Reusable hash h key site ∧
      Passed (khashProbe hash h.nBuckets) h.used h.live h.keys key t ∧
      (khashProbe hash h.nBuckets key t ∈ h.used →
        khashProbe hash h.nBuckets key t ∈ h.live ∧
          h.keys (khashProbe hash h.nBuckets key t) = key) := by
  obtain ⟨stop, hStop, hEmpty⟩ :=
    exists_triangleProbe_not_mem k (hash key) (hSound.card_used_lt h2 hn)
  have hPow : 2 ^ k ≤ 2 ^ 31 := Nat.pow_le_pow_right (n := 2) Nat.two_pos hk
  have hSearch := search_spec hk hn hStop hEmpty (Nat.zero_le stop)
    (show stop < 0 + fuel by omega) (Or.inl rfl : Reusable hash h key h.nBuckets) passed_zero
  rw [← khashProbe_zero, ← hn] at hSearch
  exact hSearch

/-- `kh_get` ends, with the bucket of the key or with none when it is absent. -/
theorem Sound.khGet_spec (hSound : h.Sound hash) {fuel : Nat} (hFuel : 2 ^ 31 ≤ fuel) (key : Key) :
    ∃ i, khGet hash fuel h key = some i ∧
      (i ∈ h.live ∧ h.keys i = key ∨ i = h.nBuckets ∧ ∀ j ∈ h.live, h.keys j ≠ key) := by
  rcases hSound.buckets with hZero | ⟨k, h2, hk, hn⟩
  · refine ⟨0, by rw [khGet, if_pos hZero], Or.inr ⟨hZero.symm, fun j hj => ?_⟩⟩
    have hLess := (h.flags.mem_live.mp hj).1
    omega
  · have hPos : h.nBuckets ≠ 0 := by
      rw [hn]
      exact (Nat.two_pow_pos k).ne'
    obtain ⟨t, site, hSearch, -, hPassed, hFound⟩ := hSound.search_start h2 hk hn hFuel key
    have hLess : khashProbe hash h.nBuckets key t < h.nBuckets := by
      rw [hn]
      exact khashProbe_lt hash key k t
    rw [khGet, if_neg hPos]
    simp only [hSearch, Option.map_some]
    by_cases hUsed : khashProbe hash h.nBuckets key t ∈ h.used
    · obtain ⟨hLive, hKey⟩ := hFound hUsed
      refine ⟨_, rfl, Or.inl ?_⟩
      have hNeither : h.flags.acIseither (khashProbe hash h.nBuckets key t) = false :=
        (Finset.mem_filter.mp hLive).2
      simp only [hNeither, Bool.false_eq_true, or_self, if_false]
      exact ⟨hLive, hKey⟩
    · refine ⟨_, rfl, Or.inr ⟨?_, hSound.placed.not_mem_of_passed hPassed hUsed⟩⟩
      have hEmpty : h.flags.acIsempty (khashProbe hash h.nBuckets key t) = true := by
        by_contra hFull
        exact hUsed (h.flags.mem_used.mpr ⟨hLess, Bool.eq_false_of_not_eq_true hFull⟩)
      rw [if_pos (Or.inr (by rw [h.flags.acIseither_eq, hEmpty, Bool.true_or]))]

/-- The bucket that `kh_put` takes has the key already, or the key is absent and
the search for it meets the bucket. -/
theorem Sound.putIndex_spec (hSound : h.Sound hash) {k : Nat} (h2 : 2 ≤ k) (hk : k ≤ 31)
    (hn : h.nBuckets = 2 ^ k) {fuel : Nat} (hFuel : 2 ^ 31 ≤ fuel) (key : Key) :
    ∃ x, putIndex hash fuel h key = some x ∧ x < h.nBuckets ∧
      (x ∈ h.live ∧ h.keys x = key ∨
        x ∉ h.live ∧ (∀ j ∈ h.live, h.keys j ≠ key) ∧
          Meets (khashProbe hash h.nBuckets) h.used key x) := by
  have hLess : ∀ t, khashProbe hash h.nBuckets key t < h.nBuckets := by
    rw [hn]
    exact khashProbe_lt hash key k
  have hUnused : ∀ {x}, h.flags.acIsempty x = true → x ∉ h.used := by
    intro x hEmpty hUsed
    rw [(h.flags.mem_used.mp hUsed).2] at hEmpty
    cases hEmpty
  rw [putIndex]
  by_cases hFirst : h.flags.acIsempty (hash key &&& (h.nBuckets - 1)) = true
  · have hZero : hash key &&& (h.nBuckets - 1) = khashProbe hash h.nBuckets key 0 := by
      rw [hn]
      exact khashProbe_zero hash key k
    simp only [if_pos hFirst]
    rw [hZero] at hFirst ⊢
    refine ⟨_, rfl, hLess 0, Or.inr ⟨?_, ?_, ?_⟩⟩
    · exact fun hLive => hUnused hFirst (hSound.placed.subset hLive)
    · exact hSound.placed.not_mem_of_passed passed_zero (hUnused hFirst)
    · exact ⟨0, rfl, fun t' ht' => absurd ht' (Nat.not_lt_zero t')⟩
  · obtain ⟨t, site, hSearch, hSite, hPassed, hFound⟩ := hSound.search_start h2 hk hn hFuel key
    simp only [if_neg hFirst, hSearch, Option.map_some, Bool.false_eq_true, false_and, if_false]
    refine ⟨_, rfl, ?_⟩
    by_cases hEmpty : h.flags.acIsempty (khashProbe hash h.nBuckets key t) = true
    · have hAbsent := hSound.placed.not_mem_of_passed hPassed (hUnused hEmpty)
      by_cases hNone : site = h.nBuckets
      · rw [if_neg fun hBoth => hBoth.2 hNone]
        refine ⟨hLess t, Or.inr ⟨fun hLive => ?_, hAbsent, hPassed.meets (Nat.le_refl t)⟩⟩
        exact hUnused hEmpty (hSound.placed.subset hLive)
      · obtain ⟨hUsed, hDead, hMeets⟩ := hSite.resolve_left hNone
        rw [if_pos ⟨hEmpty, hNone⟩]
        exact ⟨(h.flags.mem_used.mp hUsed).1, Or.inr ⟨hDead, hAbsent, hMeets⟩⟩
    · rw [if_neg fun hBoth => hEmpty hBoth.1]
      have hUsed : khashProbe hash h.nBuckets key t ∈ h.used :=
        h.flags.mem_used.mpr ⟨hLess t, Bool.eq_false_of_not_eq_true hEmpty⟩
      exact ⟨hLess t, Or.inl (hFound hUsed)⟩

end Khash

end RedisServer
