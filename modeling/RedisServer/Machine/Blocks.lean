import Mathlib.Algebra.Order.Group.Multiset
import Mathlib.Data.Finset.Insert
import Mathlib.Data.Finset.Card
import Mathlib.Data.Multiset.Bind

/-! Blocks that are allocated and freed. A block that is not allocated cannot be
freed: a second `free` has no result. The accounting rules say which blocks are
allocated, as a multiset in which no block occurs twice, so that what is known to
be two parts of it is known to be apart. -/
namespace Machine

/-- The blocks in use. A new one is none of them. -/
structure Memory where
  next : Nat
  live : Finset Nat
  bounded : ∀ b ∈ live, b < next

namespace Memory

def empty : Memory := ⟨0, ∅, fun b hb => absurd hb (Finset.notMem_empty b)⟩

def alloc (m : Memory) : Memory × Nat :=
  (⟨m.next + 1, insert m.next m.live, fun b hb => by
    rcases Finset.mem_insert.mp hb with hNew | hOld
    · exact hNew.trans_lt (Nat.lt_succ_self m.next)
    · exact Nat.lt_succ_of_lt (m.bounded b hOld)⟩, m.next)

/-- Several blocks, one after the other. -/
def allocs : Nat → Memory → Memory × List Nat
  | 0, m => (m, [])
  | n + 1, m =>
      let first := m.alloc
      let rest := allocs n first.1
      (rest.1, first.2 :: rest.2)

def free (m : Memory) (b : Nat) : Option Memory :=
  if b ∈ m.live then
    some ⟨m.next, m.live.erase b, fun c hc => m.bounded c (Finset.mem_of_mem_erase hc)⟩
  else none

def freeAll (m : Memory) (blocks : List Nat) : Option Memory := blocks.foldlM free m

/-- Exactly these blocks are in use. -/
def Holds (m : Memory) (blocks : Multiset Nat) : Prop := m.live.val = blocks

variable {m : Memory} {blocks : Multiset Nat}

theorem holds_empty : empty.Holds 0 := rfl

theorem Holds.card (h : m.Holds blocks) : m.live.card = blocks.card := by
  rw [← h]
  rfl

theorem Holds.alloc (h : m.Holds blocks) : m.alloc.1.Holds (m.alloc.2 ::ₘ blocks) := by
  have hFresh : m.next ∉ m.live := fun hMem => (m.bounded _ hMem).false
  change (insert m.next m.live).val = m.next ::ₘ blocks
  rw [Finset.insert_val_of_notMem hFresh, h]

theorem Holds.allocs (h : m.Holds blocks) (n : Nat) :
    (m.allocs n).1.Holds ((m.allocs n).2 + blocks) ∧ (m.allocs n).2.length = n := by
  induction n generalizing m blocks with
  | zero => exact ⟨by rw [Memory.allocs]; exact h.trans (zero_add blocks).symm, rfl⟩
  | succ n ih =>
      obtain ⟨hRest, hLength⟩ := ih h.alloc
      refine ⟨?_, congrArg (· + 1) hLength⟩
      refine hRest.trans ?_
      rw [Memory.allocs, ← Multiset.cons_coe, Multiset.cons_add, Multiset.add_cons]

theorem Holds.free {b : Nat} (h : m.Holds (b ::ₘ blocks)) :
    ∃ m', m.free b = some m' ∧ m'.Holds blocks := by
  have hMem : b ∈ m.live := by
    rw [← Finset.mem_val, h]
    exact Multiset.mem_cons_self b blocks
  refine ⟨_, by rw [Memory.free, if_pos hMem], ?_⟩
  change (m.live.erase b).val = blocks
  rw [Finset.erase_val, h, Multiset.erase_cons_head]

theorem Holds.freeAll {bs : List Nat} (h : m.Holds (bs + blocks)) :
    ∃ m', m.freeAll bs = some m' ∧ m'.Holds blocks := by
  induction bs generalizing m with
  | nil => exact ⟨m, rfl, h.trans (zero_add blocks)⟩
  | cons b bs ih =>
      rw [← Multiset.cons_coe, Multiset.cons_add] at h
      obtain ⟨first, hFree, hFirst⟩ := h.free
      obtain ⟨m', hRest, hDone⟩ := ih hFirst
      refine ⟨m', ?_, hDone⟩
      rw [Memory.freeAll, List.foldlM_cons, hFree]
      exact hRest

/-- A walk that frees the blocks of each thing it meets. -/
theorem Holds.freeEach {α : Type*} {f : α → List Nat} {xs : List α}
    (h : m.Holds ((xs.flatMap f : List Nat) + blocks)) :
    ∃ m', xs.foldlM (fun m x => m.freeAll (f x)) m = some m' ∧ m'.Holds blocks := by
  induction xs generalizing m with
  | nil => exact ⟨m, rfl, h.trans (zero_add blocks)⟩
  | cons x xs ih =>
      rw [List.flatMap_cons, ← Multiset.coe_add, add_assoc] at h
      obtain ⟨first, hFirst, hLeft⟩ := h.freeAll
      obtain ⟨m', hRest, hDone⟩ := ih hLeft
      refine ⟨m', ?_, hDone⟩
      rw [List.foldlM_cons, hFirst]
      exact hRest

end Memory

end Machine
