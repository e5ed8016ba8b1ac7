import Mathlib.Data.List.Basic
import Mathlib.Data.List.Nodup

/-! Nodes that point to one another. A pointer of a node leads to another node
or to null, which is `none`. Nothing here fixes what the nodes are or where
they are kept. -/
namespace Machine

variable {α : Type*}

/-- From `p` the pointers lead through exactly these nodes, in this order, and
then to `q`. -/
def Path (step : α → Option α) (q : Option α) : Option α → List α → Prop
  | p, [] => p = q
  | p, a :: nodes => p = some a ∧ Path step q (step a) nodes

section Paths

variable {step step' : α → Option α} {p q r : Option α} {nodes : List α}

theorem path_append {before after : List α} :
    Path step r p (before ++ after) ↔ ∃ q, Path step q p before ∧ Path step r q after := by
  induction before generalizing p with
  | nil => simp [Path]
  | cons a before ih =>
      simp only [List.cons_append, Path, ih]
      constructor
      · rintro ⟨rfl, q, hBefore, hAfter⟩
        exact ⟨q, ⟨rfl, hBefore⟩, hAfter⟩
      · rintro ⟨q, ⟨rfl, hBefore⟩, hAfter⟩
        exact ⟨rfl, q, hBefore, hAfter⟩

/-- Only the pointers of the nodes on the way matter. -/
theorem Path.congr (h : Path step q p nodes) (hSame : ∀ a ∈ nodes, step' a = step a) :
    Path step' q p nodes := by
  induction nodes generalizing p with
  | nil => exact h
  | cons a nodes ih =>
      refine ⟨h.1, ?_⟩
      rw [hSame a (List.mem_cons_self ..)]
      exact ih h.2 (fun b hb => hSame b (List.mem_cons_of_mem _ hb))

theorem Path.head_eq (h : Path step none p nodes) : p = nodes.head? := by
  cases nodes with
  | nil => exact h
  | cons a nodes => exact h.1

end Paths

/-- The two pointers of each node lead through the nodes in opposite orders. -/
structure Linked (next prev : α → Option α) (first last : Option α) (nodes : List α) : Prop where
  nodup : nodes.Nodup
  forward : Path next none first nodes
  backward : Path prev none last nodes.reverse

section Ends

variable {next prev next' prev' : α → Option α} {first last : Option α} {nodes : List α} {a new : α}

theorem Linked.mirror (h : Linked next prev first last nodes) :
    Linked prev next last first nodes.reverse where
  nodup := List.nodup_reverse.mpr h.nodup
  forward := h.backward
  backward := by
    rw [List.reverse_reverse]
    exact h.forward

theorem linked_nil : Linked next prev none none ([] : List α) := ⟨List.nodup_nil, rfl, rfl⟩

theorem linked_singleton (hNext : next a = none) (hPrev : prev a = none) :
    Linked next prev (some a) (some a) [a] :=
  ⟨List.nodup_singleton a, ⟨rfl, hNext⟩, ⟨rfl, hPrev⟩⟩

/-- A node is put in front of the first one. Only the pointer back from the
old first node changes. -/
theorem Linked.cons (h : Linked next prev first last (a :: nodes)) (hNew : new ∉ a :: nodes)
    (hNext : ∀ b ∈ a :: nodes, next' b = next b) (hPrev : ∀ b ∈ nodes, prev' b = prev b)
    (hNewNext : next' new = first) (hNewPrev : prev' new = none) (hBack : prev' a = some new) :
    Linked next' prev' (some new) last (new :: a :: nodes) where
  nodup := List.nodup_cons.mpr ⟨hNew, h.nodup⟩
  forward := by
    refine ⟨rfl, ?_⟩
    rw [hNewNext]
    exact h.forward.congr hNext
  backward := by
    have hOld := h.backward
    rw [List.reverse_cons, path_append] at hOld
    obtain ⟨q, hRest, hq, -⟩ := hOld
    rw [List.reverse_cons, List.reverse_cons, List.append_assoc, path_append]
    refine ⟨q, hRest.congr fun b hb => hPrev b (List.mem_reverse.mp hb), hq, hBack, hNewPrev⟩

end Ends

end Machine
