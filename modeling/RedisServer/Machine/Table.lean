import Mathlib.Data.List.AList
import Mathlib.Data.Set.Card

/-! Finite tables with one entry for each key, and how counts of their entries
change. The lookup, insertion and erasure laws are those of `AList`. At the end
there are arrays that lose an entry to the last one, which takes its place. -/
namespace Machine

abbrev Table (Key Value : Type*) := AList fun _ : Key => Value

namespace Table

variable {Key Value : Type*}

/-- How many entries have a value that `p` accepts. -/
def count (p : Value → Bool) (t : Table Key Value) : Nat :=
  t.entries.countP fun e => p e.2

def size (t : Table Key Value) : Nat := t.entries.length

theorem size_eq_count (t : Table Key Value) : t.size = count (fun _ => true) t := by
  simp [size, count, List.countP_true]

variable [DecidableEq Key]

theorem erase_of_lookup_eq_none {t : Table Key Value} {a : Key} (h : t.lookup a = none) :
    t.erase a = t := by
  apply AList.ext
  exact List.kerase_of_notMem_keys (AList.lookup_eq_none.mp h)

/-- Removing an entry lowers exactly the counts that included it. -/
theorem count_erase_of_lookup (p : Value → Bool) {t : Table Key Value} {a : Key} {b : Value}
    (h : t.lookup a = some b) :
    count p t = count p (t.erase a) + if p b then 1 else 0 := by
  have hKey : a ∈ t.entries.keys := AList.lookup_isSome.mp (by simp [h])
  obtain ⟨b', before, after, hBefore, hSplit, hErase⟩ := List.exists_of_kerase hKey
  have hb : b' = b := by
    have hMem : (⟨a, b'⟩ : Sigma fun _ : Key => Value) ∈ t.entries := by rw [hSplit]; simp
    have := AList.mem_lookup_iff.mpr hMem
    rw [h] at this
    exact (Option.some.inj this).symm
  subst b'
  have hErased : (t.erase a).entries = before ++ after := hErase
  simp only [count, hErased, hSplit, List.countP_append, List.countP_cons]
  omega

theorem count_insert (p : Value → Bool) (t : Table Key Value) (a : Key) (b : Value) :
    count p (t.insert a b) = count p (t.erase a) + if p b then 1 else 0 := by
  rw [count, AList.entries_insert, List.countP_cons]
  rfl

/-- The number of entries is the number of keys that have one. -/
theorem size_eq_ncard (t : Table Key Value) :
    t.size = Set.ncard {a | (t.lookup a).isSome} := by
  have hSet : {a | (t.lookup a).isSome} = (t.keys.toFinset : Set Key) := by
    ext a
    simp [AList.lookup_isSome, AList.mem_keys]
  rw [hSet, Set.ncard_coe_finset, List.toFinset_card_of_nodup t.keys_nodup]
  simp [size, AList.keys, List.keys]

/-- The entries as pairs, in no order. -/
def listing (t : Table Key Value) : Multiset (Key × Value) := t.entries.map fun e => (e.1, e.2)

theorem mem_listing {t : Table Key Value} {a : Key} {b : Value} :
    (a, b) ∈ listing t ↔ t.lookup a = some b := by
  rw [listing, Multiset.mem_coe, List.mem_map, ← Option.mem_def, AList.mem_lookup_iff]
  constructor
  · rintro ⟨e, he, hPair⟩
    obtain ⟨rfl, rfl⟩ := Prod.mk.inj hPair
    exact he
  · exact fun he => ⟨⟨a, b⟩, he, rfl⟩

theorem listing_insert (t : Table Key Value) (a : Key) (b : Value) :
    listing (t.insert a b) = (a, b) ::ₘ listing (t.erase a) := by
  rw [listing, AList.entries_insert, List.map_cons]
  rfl

theorem listing_erase {t : Table Key Value} {a : Key} {b : Value} (h : t.lookup a = some b) :
    listing t = (a, b) ::ₘ listing (t.erase a) := by
  rw [← listing_insert, listing, listing, Multiset.coe_eq_coe]
  refine (List.lookup_ext t.nodupKeys (t.insert a b).nodupKeys fun x y => ?_).map _
  by_cases hx : x = a
  · subst hx
    exact (by rw [h, AList.lookup_insert] : y ∈ t.lookup x ↔ y ∈ (t.insert x b).lookup x)
  · exact (by rw [AList.lookup_insert_ne hx] : y ∈ t.lookup x ↔ y ∈ (t.insert a b).lookup x)

end Table

section Arrays

variable {α : Type*}

/-- The last entry is moved into the place of the removed one. -/
def swapRemove (entries : List α) (pos : Nat) : List α :=
  match entries.getLast? with
  | some last => (entries.set pos last).dropLast
  | none => entries

theorem swapRemove_perm (before after : List α) (x : α) :
    (swapRemove (before ++ x :: after) before.length).Perm (before ++ after) := by
  unfold swapRemove
  rcases List.eq_nil_or_concat after with rfl | ⟨middle, last, rfl⟩
  · simp
  · rw [List.concat_eq_append]
    have hLast : (before ++ x :: (middle ++ [last])).getLast? = some last := by
      rw [← List.cons_append, ← List.append_assoc, List.getLast?_concat]
    have hSet : (before ++ x :: (middle ++ [last])).set before.length last =
        (before ++ last :: middle) ++ [last] := by simp
    simp only [hLast, hSet, List.dropLast_concat]
    exact (List.perm_append_left_iff before).mpr (List.perm_append_singleton last middle).symm

/-- Removing by the position of an entry is erasing the entry, up to order. -/
theorem swapRemove_perm_erase [DecidableEq α] {entries : List α} {x : α} (h : x ∈ entries) :
    (swapRemove entries (entries.idxOf x)).Perm (entries.erase x) := by
  obtain ⟨before, after, hNot, hSplit, hErase⟩ := List.exists_erase_eq h
  have hPos : entries.idxOf x = before.length := by
    rw [hSplit, List.idxOf_append_of_notMem hNot, List.idxOf_cons_self, Nat.add_zero]
  rw [hErase, hPos, hSplit]
  exact swapRemove_perm before after x

/-- An entry that is also the last one: only the end of the array is lost. -/
theorem swapRemove_concat [DecidableEq α] (entries : List α) (x : α) :
    swapRemove (entries ++ [x]) ((entries ++ [x]).idxOf x) = entries := by
  have hMem : x ∈ entries ++ [x] := List.mem_append_right _ (List.mem_singleton_self x)
  have hLt : (entries ++ [x]).idxOf x < (entries ++ [x]).length := List.idxOf_lt_length_iff.mpr hMem
  have hSame : (entries ++ [x]).set ((entries ++ [x]).idxOf x) x = entries ++ [x] := by
    have hSelf := List.set_getElem_self hLt
    rw [List.getElem_idxOf hLt] at hSelf
    exact hSelf
  simp only [swapRemove, List.getLast?_concat, hSame, List.dropLast_concat]

end Arrays

end Machine
