import Mathlib.Algebra.Order.Ring.Nat
import Mathlib.Data.Finset.Card
import Mathlib.Data.Finset.Image
import Mathlib.Data.Nat.ModEq
import Mathlib.Data.Nat.Prime.Basic
import Mathlib.Logic.Function.Basic
import Mathlib.Tactic.Linarith
import Mathlib.Tactic.Ring

/-! Open addressing. A key is looked for along its own sequence of slots, which
ends at a slot that was never used. The first part is about the sequence whose
steps grow by one: over a power of two it meets every slot. The second part says
where entries may lie so that a search finds them, whatever the sequences are. -/
namespace Machine

/-- The sum of the first `t` steps. -/
def triangle : Nat → Nat
  | 0 => 0
  | t + 1 => triangle t + (t + 1)

theorem two_mul_triangle (t : Nat) : 2 * triangle t = t * (t + 1) := by
  induction t with
  | zero => rfl
  | succ t ih =>
      rw [triangle, Nat.mul_add, ih]
      ring

/-- The slot that is looked at after `t` steps, among `n`. -/
def triangleProbe (n start t : Nat) : Nat := (start + triangle t) % n

theorem triangleProbe_succ (n start t : Nat) :
    triangleProbe n start (t + 1) = (triangleProbe n start t + (t + 1)) % n := by
  rw [triangleProbe, triangleProbe, triangle, Nat.mod_add_mod, Nat.add_assoc]

theorem triangleProbe_lt {n : Nat} (hn : 0 < n) (start t : Nat) : triangleProbe n start t < n :=
  Nat.mod_lt _ hn

/-- Two different steps of the first `2 ^ k` differ by a product of an odd number
and a smaller one than `2 ^ (k + 1)`. -/
theorem triangle_not_dvd {k a b : Nat} (hab : a < b) (hb : b < 2 ^ k) :
    ¬2 ^ k ∣ triangle b - triangle a := by
  rintro ⟨c, hc⟩
  have hA := two_mul_triangle a
  have hB := two_mul_triangle b
  obtain ⟨d, rfl⟩ := Nat.exists_eq_add_of_lt hab
  have hProduct : (d + 1) * (2 * a + d + 2) = 2 ^ (k + 1) * c := by
    have hLess : triangle (a + d + 1) = triangle a + 2 ^ k * c := by
      have hMono : triangle a ≤ triangle (a + d + 1) := by nlinarith
      omega
    rw [pow_succ]
    nlinarith
  have hDvd : 2 ^ (k + 1) ∣ (d + 1) * (2 * a + d + 2) := ⟨c, hProduct⟩
  have hPower : 2 ^ (k + 1) = 2 * 2 ^ k := by rw [pow_succ, Nat.mul_comm]
  rcases Nat.even_or_odd (d + 1) with hEven | hOdd
  · have hOther : Nat.Coprime (2 ^ (k + 1)) (2 * a + d + 2) := by
      apply Nat.Coprime.pow_left
      rw [Nat.coprime_two_left]
      obtain ⟨e, he⟩ := hEven
      exact ⟨a + e, by omega⟩
    have hSmall := Nat.le_of_dvd (by omega) (hOther.dvd_of_dvd_mul_right hDvd)
    omega
  · have hOther : Nat.Coprime (2 ^ (k + 1)) (d + 1) := by
      apply Nat.Coprime.pow_left
      rwa [Nat.coprime_two_left]
    have hSmall := Nat.le_of_dvd (by omega) (hOther.dvd_of_dvd_mul_left hDvd)
    omega

theorem triangle_mono {a b : Nat} (h : a ≤ b) : triangle a ≤ triangle b := by
  have hA := two_mul_triangle a
  have hB := two_mul_triangle b
  nlinarith

theorem triangleProbe_ne {k start a b : Nat} (hab : a < b) (hb : b < 2 ^ k) :
    triangleProbe (2 ^ k) start a ≠ triangleProbe (2 ^ k) start b := by
  intro hSame
  apply triangle_not_dvd hab hb
  have hDvd := (Nat.modEq_iff_dvd' (Nat.add_le_add_left (triangle_mono hab.le) start)).mp hSame
  rwa [Nat.add_sub_add_left] at hDvd

theorem triangleProbe_injOn (k start : Nat) :
    Set.InjOn (triangleProbe (2 ^ k) start) (Finset.range (2 ^ k)) := by
  intro a ha b hb hSame
  rw [Finset.coe_range, Set.mem_Iio] at ha hb
  rcases Nat.lt_trichotomy a b with hLess | rfl | hMore
  · exact absurd hSame (triangleProbe_ne hLess hb)
  · rfl
  · exact absurd hSame.symm (triangleProbe_ne hMore ha)

/-- Every slot is met within as many steps as there are slots. -/
theorem exists_triangleProbe (k start : Nat) {i : Nat} (hi : i < 2 ^ k) :
    ∃ t < 2 ^ k, triangleProbe (2 ^ k) start t = i := by
  have hImage : (Finset.range (2 ^ k)).image (triangleProbe (2 ^ k) start) =
      Finset.range (2 ^ k) := by
    refine Finset.eq_of_subset_of_card_le ?_ ?_
    · intro j hj
      obtain ⟨t, -, rfl⟩ := Finset.mem_image.mp hj
      exact Finset.mem_range.mpr (triangleProbe_lt (Nat.two_pow_pos k) start t)
    · rw [Finset.card_image_of_injOn (triangleProbe_injOn k start)]
  have hMem : i ∈ (Finset.range (2 ^ k)).image (triangleProbe (2 ^ k) start) := by
    rw [hImage]
    exact Finset.mem_range.mpr hi
  obtain ⟨t, ht, hSlot⟩ := Finset.mem_image.mp hMem
  exact ⟨t, Finset.mem_range.mp ht, hSlot⟩

/-- As long as not all slots are in use, the search comes to one that is not. -/
theorem exists_triangleProbe_not_mem (k start : Nat) {used : Finset Nat}
    (hRoom : used.card < 2 ^ k) : ∃ t < 2 ^ k, triangleProbe (2 ^ k) start t ∉ used := by
  have hMore : used.card < (Finset.range (2 ^ k)).card := by rwa [Finset.card_range]
  obtain ⟨i, hi, hUnused⟩ := Finset.exists_mem_notMem_of_card_lt_card hMore
  obtain ⟨t, ht, rfl⟩ := exists_triangleProbe k start (Finset.mem_range.mp hi)
  exact ⟨t, ht, hUnused⟩

section Slots

variable {Key : Type*} {probe : Key → Nat → Nat} {used live : Finset Nat} {keys : Nat → Key}
  {key : Key} {i t : Nat}

/-- The search for the key comes to this slot, and not to an unused one before. -/
def Meets (probe : Key → Nat → Nat) (used : Finset Nat) (key : Key) (i : Nat) : Prop :=
  ∃ t, probe key t = i ∧ ∀ t' < t, probe key t' ∈ used

theorem Meets.mono {more : Finset Nat} (h : Meets probe used key i) (hMore : used ⊆ more) :
    Meets probe more key i := by
  obtain ⟨t, hSlot, hBefore⟩ := h
  exact ⟨t, hSlot, fun t' ht' => hMore (hBefore t' ht')⟩

/-- The slots in use, those that still have an entry, and their keys: each entry
is met by the search for its key. -/
structure Placed (probe : Key → Nat → Nat) (used live : Finset Nat) (keys : Nat → Key) : Prop where
  subset : live ⊆ used
  meets : ∀ i ∈ live, Meets probe used (keys i) i

/-- The search has gone past these slots: they are in use, and none of them has
the key. -/
def Passed (probe : Key → Nat → Nat) (used live : Finset Nat) (keys : Nat → Key) (key : Key)
    (t : Nat) : Prop :=
  ∀ t' < t, probe key t' ∈ used ∧ ¬(probe key t' ∈ live ∧ keys (probe key t') = key)

theorem passed_zero : Passed probe used live keys key 0 := fun _ h => absurd h (Nat.not_lt_zero _)

theorem Passed.succ (h : Passed probe used live keys key t) (hUsed : probe key t ∈ used)
    (hNot : ¬(probe key t ∈ live ∧ keys (probe key t) = key)) :
    Passed probe used live keys key (t + 1) := by
  intro t' ht'
  rcases Nat.lt_succ_iff_lt_or_eq.mp ht' with hLess | rfl
  · exact h t' hLess
  · exact ⟨hUsed, hNot⟩

theorem Passed.meets {t' : Nat} (h : Passed probe used live keys key t) (hLess : t' ≤ t) :
    Meets probe used key (probe key t') :=
  ⟨t', rfl, fun t'' ht'' => (h t'' (Nat.lt_of_lt_of_le ht'' hLess)).1⟩

/-- A search that comes to an unused slot has not missed the key. -/
theorem Placed.not_mem_of_passed (h : Placed probe used live keys)
    (hPassed : Passed probe used live keys key t) (hEnd : probe key t ∉ used) :
    ∀ i ∈ live, keys i ≠ key := by
  rintro i hi rfl
  obtain ⟨t', hSlot, hBefore⟩ := h.meets i hi
  rcases Nat.lt_trichotomy t' t with hLess | rfl | hMore
  · exact (hPassed t' hLess).2 ⟨hSlot.symm ▸ hi, by rw [hSlot]⟩
  · exact hEnd (hSlot.symm ▸ h.subset hi)
  · exact hEnd (hBefore t hMore)

/-- A new entry in a slot that the search for it meets. -/
theorem Placed.add (h : Placed probe used live keys) (hi : i ∉ live)
    (hMeets : Meets probe used key i) :
    Placed probe (insert i used) (insert i live) (Function.update keys i key) where
  subset := Finset.insert_subset_insert i h.subset
  meets := by
    intro j hj
    have hMore : used ⊆ insert i used := Finset.subset_insert i used
    rcases Finset.mem_insert.mp hj with rfl | hOld
    · rw [Function.update_self]
      exact hMeets.mono hMore
    · have hOther : j ≠ i := by
        rintro rfl
        exact hi hOld
      rw [Function.update_of_ne hOther]
      exact (h.meets j hOld).mono hMore

/-- An entry is removed, its slot stays in use. -/
theorem Placed.remove (h : Placed probe used live keys) (i : Nat) :
    Placed probe used (live.erase i) keys where
  subset := (Finset.erase_subset i live).trans h.subset
  meets := fun j hj => h.meets j (Finset.mem_of_mem_erase hj)

end Slots

section Entries

variable {Key Value : Type*} {slots : Finset Nat} {keys : Nat → Key} {vals : Nat → Value} {i : Nat}

/-- The entries in these slots, in no order. -/
def entriesAt (slots : Finset Nat) (keys : Nat → Key) (vals : Nat → Value) : Multiset (Key × Value) :=
  slots.val.map fun i => (keys i, vals i)

theorem mem_entriesAt {e : Key × Value} :
    e ∈ entriesAt slots keys vals ↔ ∃ i ∈ slots, (keys i, vals i) = e := Multiset.mem_map

theorem card_entriesAt : (entriesAt slots keys vals).card = slots.card := Multiset.card_map _ _

theorem entriesAt_insert (hi : i ∉ slots) :
    entriesAt (insert i slots) keys vals = (keys i, vals i) ::ₘ entriesAt slots keys vals := by
  rw [entriesAt, Finset.insert_val_of_notMem hi, Multiset.map_cons]
  rfl

theorem entriesAt_erase (hi : i ∈ slots) :
    entriesAt slots keys vals = (keys i, vals i) ::ₘ entriesAt (slots.erase i) keys vals := by
  rw [← entriesAt_insert (Finset.notMem_erase i slots), Finset.insert_erase hi]

/-- What is written to another slot does not matter. -/
theorem entriesAt_update (hi : i ∉ slots) (key : Key) (val : Value) :
    entriesAt slots (Function.update keys i key) (Function.update vals i val) =
      entriesAt slots keys vals := by
  refine Multiset.map_congr rfl fun j hj => ?_
  have hOther : j ≠ i := by
    rintro rfl
    exact hi hj
  rw [Function.update_of_ne hOther, Function.update_of_ne hOther]

theorem entriesAt_update_insert (hi : i ∉ slots) (key : Key) (val : Value) :
    entriesAt (insert i slots) (Function.update keys i key) (Function.update vals i val) =
      (key, val) ::ₘ entriesAt slots keys vals := by
  rw [entriesAt_insert hi, entriesAt_update hi, Function.update_self, Function.update_self]

end Entries

end Machine
