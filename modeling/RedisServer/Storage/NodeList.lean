import RedisServer.Machine.Links
import RedisServer.Storage.LinkedList

/-! The nodes behind the list values. `linked_list.c` keeps a doubly linked
list with a count of its elements, and mixes `int` indices with the `size_t`
count. Here the list and its nodes are what the pointers say, and the sequence
of `LinkedList` is what they mean. A result is missing when a pointer is
followed that leads to no node. -/
namespace RedisServer

open Machine

structure Node where
  data : Bytes
  prev : Option Nat
  next : Option Nat
  deriving DecidableEq

/-- The same node with its pointers exchanged. -/
def Node.mirror (node : Node) : Node := ⟨node.data, node.next, node.prev⟩

/-- The nodes at their addresses, of this list and of others. -/
abbrev Heap := Nat → Option Node

def Heap.write (heap : Heap) (address : Nat) (node : Node) : Heap :=
  fun other => if other = address then some node else heap other

/-- The members `prev` and `next` as maps from node to node. -/
def Heap.prev (heap : Heap) (address : Nat) : Option Nat := (heap address).bind Node.prev

def Heap.next (heap : Heap) (address : Nat) : Option Nat := (heap address).bind Node.next

def Heap.data (heap : Heap) (address : Nat) : Option Bytes := (heap address).map Node.data

/-- The `list_struct`, in the memory that has its nodes. -/
structure NodeList where
  heap : Heap
  head : Option Nat
  tail : Option Nat
  length : UInt64

namespace NodeList

/-- The count is not set: it is whatever the memory held. -/
def createList (heap : Heap) (unset : UInt64) : NodeList := ⟨heap, none, none, unset⟩

/-- The first node of an empty list, on either side. -/
def pushFirst (list : NodeList) (data : Bytes) (newNode : Nat) : NodeList where
  heap := list.heap.write newNode ⟨data, none, none⟩
  head := some newNode
  tail := some newNode
  length := 1

/-- What is stored through the caller's pointer to an `int`. -/
def reported (list : NodeList) : Int := toInt32 list.length.toNat

/-- `malloc` returned `newNode`. -/
def lpush (list : NodeList) (data : Bytes) (newNode : Nat) : Option (NodeList × Int) :=
  if list.head = none ∧ list.tail = none then
    let list := list.pushFirst data newNode
    some (list, list.reported)
  else do
    let heap := list.heap.write newNode ⟨data, none, list.head⟩
    let head ← list.head
    let node ← heap head
    let list : NodeList :=
      { heap := heap.write head { node with prev := some newNode }
        head := some newNode
        tail := list.tail
        length := list.length + 1 }
    some (list, list.reported)

def rpush (list : NodeList) (data : Bytes) (newNode : Nat) : Option (NodeList × Int) :=
  if list.head = none ∧ list.tail = none then
    let list := list.pushFirst data newNode
    some (list, list.reported)
  else do
    let heap := list.heap.write newNode ⟨data, list.tail, none⟩
    let tail ← list.tail
    let node ← heap tail
    let list : NodeList :=
      { heap := heap.write tail { node with next := some newNode }
        head := list.head
        tail := some newNode
        length := list.length + 1 }
    some (list, list.reported)

/-- The first loop of `lrange`: at most this many nodes further. -/
def skipNodes (heap : Heap) : Nat → Option Nat → Option (Option Nat)
  | 0, cur => some cur
  | _ + 1, none => some none
  | n + 1, some cur => do
      let node ← heap cur
      skipNodes heap n node.next

/-- The second loop: the data of at most this many nodes, and where it
stopped. -/
def copyNodes (heap : Heap) : Nat → Option Nat → Option (List Bytes × Option Nat)
  | 0, cur => some ([], cur)
  | _ + 1, none => some ([], none)
  | n + 1, some cur => do
      let node ← heap cur
      let (rest, cur) ← copyNodes heap n node.next
      some (node.data :: rest, cur)

/-- A sum with the count is a `size_t`, and so is an index that is compared
with it. -/
def lrange (list : NodeList) (start stop : Int) : Option (Option (List Bytes) × Int) :=
  let length : Int := list.length.toNat
  let start := if start < 0 then toInt32 (toSize (length + start)) else start
  let stop := if stop < 0 then toInt32 (toSize (length + stop)) else stop
  if start < 0 ∨ (toSize start : Int) ≥ length ∨ stop < start then some (none, 0)
  else do
    let stop := if (toSize stop : Int) ≥ length then toInt32 (toSize (length - 1)) else stop
    let count := toInt32 (stop - start + 1)
    let cur ← skipNodes list.heap start.toNat list.head
    let (range, cur) ← copyNodes list.heap count.toNat cur
    some (some range, if cur = none ∧ range.length < count then range.length else count)

/-- The pointers lead through these nodes, whose data is the sequence. An
empty list has not set its count yet. -/
structure Holds (list : NodeList) (nodes : List Nat) (xs : List Bytes) : Prop where
  linked : Linked list.heap.next list.heap.prev list.head list.tail nodes
  data : nodes.map list.heap.data = xs.map some
  length : xs ≠ [] → list.length.toNat = xs.length

section Writes

variable (heap : Heap) {address other : Nat} (node : Node)

theorem write_same : heap.write address node address = some node := if_pos rfl

theorem write_other (h : other ≠ address) : heap.write address node other = heap other := if_neg h

end Writes

section Sides

variable {list : NodeList} {nodes : List Nat} {xs : List Bytes} (data : Bytes) {newNode : Nat}

theorem Holds.head_eq (h : list.Holds nodes xs) : list.head = nodes.head? := h.linked.forward.head_eq

theorem Holds.tail_eq (h : list.Holds nodes xs) : list.tail = nodes.reverse.head? :=
  h.linked.backward.head_eq

theorem Holds.length_nodes (h : list.Holds nodes xs) : nodes.length = xs.length := by
  have hLength := congrArg List.length h.data
  simpa using hLength

/-- Every node of the list is there. -/
theorem Holds.node (h : list.Holds nodes xs) {a : Nat} (ha : a ∈ nodes) :
    ∃ node, list.heap a = some node := by
  have hMem : list.heap.data a ∈ xs.map some := by
    rw [← h.data]
    exact List.mem_map_of_mem ha
  obtain ⟨x, -, hx⟩ := List.mem_map.mp hMem
  obtain ⟨node, hNode, -⟩ := Option.map_eq_some_iff.mp hx.symm
  exact ⟨node, hNode⟩

theorem pushFirst_holds (h : list.Holds [] xs) :
    (list.pushFirst data newNode).Holds [newNode] (data :: xs) := by
  have hNil : xs = [] := by simpa using h.length_nodes.symm
  subst hNil
  constructor
  · apply linked_singleton
    · simp [Heap.next, pushFirst, write_same]
    · simp [Heap.prev, pushFirst, write_same]
  · simp [Heap.data, pushFirst, write_same]
  · intro _
    rfl

/-- The step of `lpush` on the pointers and on the sequence. -/
theorem lpush_holds (h : list.Holds nodes xs) (hNew : newNode ∉ nodes)
    (hSize : xs.length + 1 < 2 ^ 64) :
    ∃ pushed, list.lpush data newNode = some (pushed, (RedisServer.lpush xs data).2) ∧
      pushed.Holds (newNode :: nodes) (RedisServer.lpush xs data).1 := by
  cases nodes with
  | nil =>
      have hNil : xs = [] := by simpa using h.length_nodes.symm
      refine ⟨list.pushFirst data newNode, ?_, pushFirst_holds data h⟩
      rw [lpush, if_pos ⟨h.head_eq, h.tail_eq⟩, hNil]
      simp [reported, pushFirst, RedisServer.lpush]
  | cons a nodes =>
      have hHead : list.head = some a := h.head_eq
      obtain ⟨node, hNode⟩ := h.node (List.mem_cons_self ..)
      have hne : newNode ≠ a := fun hEq => hNew (by simp [hEq])
      have hCount : (list.length + 1).toNat = xs.length + 1 := by
        have hLength := h.length (by
          intro hNil
          have := h.length_nodes
          simp [hNil] at this)
        rw [UInt64.toNat_add, hLength]
        exact Nat.mod_eq_of_lt hSize
      let heap := (list.heap.write newNode ⟨data, none, some a⟩).write a
        { node with prev := some newNode }
      have hFirst : heap a = some { node with prev := some newNode } := write_same _ _
      have hNewNode : heap newNode = some ⟨data, none, some a⟩ := by
        rw [show heap newNode = _ from write_other _ _ hne, write_same]
      have hRest : ∀ b ∈ nodes, heap b = list.heap b := by
        intro b hb
        have hFresh : b ≠ newNode := fun hEq => hNew (by simp [← hEq, hb])
        have hLater : b ≠ a := fun hEq => (List.nodup_cons.mp h.linked.nodup).1 (hEq ▸ hb)
        rw [show heap b = _ from write_other _ _ hLater, write_other _ _ hFresh]
      refine ⟨⟨heap, some newNode, list.tail, list.length + 1⟩, ?_, ?_, ?_, ?_⟩
      · rw [lpush, if_neg (by simp [hHead])]
        simp only [hHead, Option.bind_eq_bind, Option.bind_some, write_other _ _ hne.symm, hNode,
          reported, hCount, RedisServer.lpush, heap]
        simp
      · apply h.linked.cons hNew
        · intro b hb
          rcases List.mem_cons.mp hb with rfl | hb
          · simp [Heap.next, hFirst, hNode]
          · simp [Heap.next, hRest b hb]
        · intro b hb
          simp [Heap.prev, hRest b hb]
        · simp [Heap.next, hNewNode, hHead]
        · simp [Heap.prev, hNewNode]
        · simp [Heap.prev, hFirst]
      · have hData := h.data
        have hSame : (a :: nodes).map heap.data = (a :: nodes).map list.heap.data := by
          apply List.map_congr_left
          intro b hb
          rcases List.mem_cons.mp hb with rfl | hb
          · simp [Heap.data, hFirst, hNode]
          · simp [Heap.data, hRest b hb]
        simp only [RedisServer.lpush, List.map_cons (a := newNode), List.map_cons (a := data)]
        rw [hSame, hData]
        simp [Heap.data, hNewNode]
      · intro _
        simpa [RedisServer.lpush] using hCount

/-- The same list seen from its other end. -/
def mirror (list : NodeList) : NodeList where
  heap a := (list.heap a).map Node.mirror
  head := list.tail
  tail := list.head
  length := list.length

theorem mirror_write (heap : Heap) (a : Nat) (node : Node) :
    (fun b => (heap.write a node b).map Node.mirror) =
      Heap.write (fun b => (heap b).map Node.mirror) a node.mirror := by
  funext b
  unfold Heap.write
  split <;> rfl

theorem mirror_mirror (list : NodeList) : list.mirror.mirror = list := by
  have hNode : Node.mirror ∘ Node.mirror = id := rfl
  have hHeap : list.mirror.mirror.heap = list.heap := by
    funext a
    simp [mirror, hNode]
  rcases list with ⟨heap, head, tail, length⟩
  simpa [mirror] using hHeap

theorem mirror_next (list : NodeList) : list.mirror.heap.next = list.heap.prev := by
  funext a
  cases h : list.heap a <;> simp [Heap.next, Heap.prev, mirror, Node.mirror, h]

theorem mirror_prev (list : NodeList) : list.mirror.heap.prev = list.heap.next := by
  rw [← mirror_next, mirror_mirror]

theorem mirror_data (list : NodeList) : list.mirror.heap.data = list.heap.data := by
  funext a
  cases h : list.heap a <;> simp [Heap.data, mirror, Node.mirror, h]

theorem Holds.mirror (h : list.Holds nodes xs) : list.mirror.Holds nodes.reverse xs.reverse where
  linked := by
    rw [mirror_next, mirror_prev]
    exact h.linked.mirror
  data := by
    rw [mirror_data, List.map_reverse, h.data, List.map_reverse]
  length := by
    intro hne
    rw [List.length_reverse]
    exact h.length (by simpa using hne)

theorem mirror_pushFirst (list : NodeList) (newNode : Nat) :
    (list.pushFirst data newNode).mirror = list.mirror.pushFirst data newNode := by
  simp only [mirror, pushFirst, mirror_write]
  rfl

/-- `rpush` is `lpush` with the two ends and the two pointers exchanged. -/
theorem rpush_eq_mirror (list : NodeList) (data : Bytes) (newNode : Nat) :
    list.rpush data newNode =
      (list.mirror.lpush data newNode).map fun result => (result.1.mirror, result.2) := by
  have hWrite : ∀ node : Node, list.mirror.heap.write newNode node.mirror =
      fun b => (list.heap.write newNode node b).map Node.mirror :=
    fun node => (mirror_write list.heap newNode node).symm
  unfold rpush lpush
  by_cases hEmpty : list.head = none ∧ list.tail = none
  · have hMirror : list.mirror.head = none ∧ list.mirror.tail = none := hEmpty.symm
    rw [if_pos hEmpty, if_pos hMirror, ← mirror_pushFirst]
    simp only [Option.map_some, mirror_mirror]
    rfl
  · have hMirror : ¬(list.mirror.head = none ∧ list.mirror.tail = none) := fun h => hEmpty h.symm
    rw [if_neg hEmpty, if_neg hMirror]
    cases hTail : list.tail with
    | none => simp [mirror, hTail]
    | some tail =>
        have hHead : list.mirror.head = some tail := hTail
        have hNew := hWrite ⟨data, some tail, none⟩
        simp only [Node.mirror] at hNew
        simp only [hHead, hNew, Option.bind_eq_bind, Option.bind_some]
        cases hNode : list.heap.write newNode ⟨data, some tail, none⟩ tail with
        | none => simp
        | some node =>
            simp only [Option.map_some, Option.bind_some, Node.mirror, Option.some.injEq,
              Prod.mk.injEq]
            refine ⟨?_, rfl⟩
            rw [← mirror_mirror (NodeList.mk _ _ _ _)]
            congr 1
            simp only [mirror, mirror_write]
            rfl

/-- The step of `rpush`. -/
theorem rpush_holds (h : list.Holds nodes xs) (hNew : newNode ∉ nodes)
    (hSize : xs.length + 1 < 2 ^ 64) :
    ∃ pushed, list.rpush data newNode = some (pushed, (RedisServer.rpush xs data).2) ∧
      pushed.Holds (nodes ++ [newNode]) (RedisServer.rpush xs data).1 := by
  obtain ⟨pushed, hPushed, hHolds⟩ := lpush_holds data h.mirror
    (by simpa using hNew) (by simpa using hSize)
  refine ⟨pushed.mirror, ?_, ?_⟩
  · rw [rpush_eq_mirror, hPushed]
    simp [RedisServer.lpush, RedisServer.rpush]
  · have hBack := hHolds.mirror
    simpa [RedisServer.lpush, RedisServer.rpush] using hBack

end Sides

section Loops

variable {heap : Heap} {p : Option Nat} {nodes : List Nat} {xs : List Bytes}

theorem heap_of_data {a : Nat} {x : Bytes} (h : heap.data a = some x) :
    ∃ node, heap a = some node ∧ node.data = x ∧ heap.next a = node.next := by
  obtain ⟨node, hNode, rfl⟩ := Option.map_eq_some_iff.mp h
  exact ⟨node, hNode, rfl, by simp [Heap.next, hNode]⟩

/-- The first loop stops at the node with this number, or at the end. -/
theorem skipNodes_eq (h : Path heap.next none p nodes) (hData : nodes.map heap.data = xs.map some)
    (n : Nat) :
    ∃ cur, skipNodes heap n p = some cur ∧ Path heap.next none cur (nodes.drop n) := by
  induction n generalizing p nodes xs with
  | zero => exact ⟨p, rfl, h⟩
  | succ n ih =>
      cases nodes with
      | nil =>
          obtain rfl : p = none := h
          exact ⟨none, rfl, rfl⟩
      | cons a nodes =>
          cases xs with
          | nil => simp at hData
          | cons x xs =>
              obtain ⟨rfl, hRest⟩ := h
              rw [List.map_cons, List.map_cons, List.cons.injEq] at hData
              obtain ⟨node, hNode, -, hNext⟩ := heap_of_data hData.1
              rw [hNext] at hRest
              simpa [skipNodes, hNode] using ih hRest hData.2

/-- The second loop takes the data of the nodes it passes. -/
theorem copyNodes_eq (h : Path heap.next none p nodes) (hData : nodes.map heap.data = xs.map some)
    (n : Nat) : ∃ cur, copyNodes heap n p = some (xs.take n, cur) := by
  induction n generalizing p nodes xs with
  | zero => exact ⟨p, by simp [copyNodes]⟩
  | succ n ih =>
      cases nodes with
      | nil =>
          obtain rfl : p = none := h
          have hNil : xs = [] := by simpa using hData.symm
          exact ⟨none, by simp [copyNodes, hNil]⟩
      | cons a nodes =>
          cases xs with
          | nil => simp at hData
          | cons x xs =>
              obtain ⟨rfl, hRest⟩ := h
              rw [List.map_cons, List.map_cons, List.cons.injEq] at hData
              obtain ⟨node, hNode, hx, hNext⟩ := heap_of_data hData.1
              rw [hNext] at hRest
              obtain ⟨cur, hCur⟩ := ih hRest hData.2
              exact ⟨cur, by simp [copyNodes, hNode, hCur, hx]⟩

end Loops

/-- The walk over the nodes returns what the sequence has. No conversion
between `int` and `size_t` changes a value, and the second loop is not cut
short. -/
theorem Holds.lrange_eq {list : NodeList} {nodes : List Nat} {xs : List Bytes}
    (h : list.Holds nodes xs) (hne : xs ≠ []) (hSize : xs.length ≤ 2 ^ 31 - 1) {start stop : Int}
    (hStart : -2 ^ 31 ≤ start ∧ start < 2 ^ 31) (hStop : -2 ^ 31 ≤ stop ∧ stop < 2 ^ 31) :
    list.lrange start stop = some (RedisServer.lrange xs start stop) := by
  have hLength := h.length hne
  have hIndex : ∀ i : Int, (if i < 0 then toInt32 (toSize (xs.length + i)) else i) =
      if i < 0 then toInt32 (xs.length + i) else i := by
    intro i
    rw [toInt32_toSize]
  unfold lrange RedisServer.lrange
  simp only [hLength, hIndex]
  have hFirst : (if start < 0 then toInt32 (xs.length + start) else start) < 2 ^ 31 := by
    split
    · rw [toInt32_of_small (by omega) (by omega)]
      omega
    · exact hStart.2
  have hLast : (if stop < 0 then toInt32 (xs.length + stop) else stop) < 2 ^ 31 := by
    split
    · rw [toInt32_of_small (by omega) (by omega)]
      omega
    · exact hStop.2
  generalize (if start < 0 then toInt32 (xs.length + start) else start) = first at *
  generalize (if stop < 0 then toInt32 (xs.length + stop) else stop) = last at *
  -- an index that reaches a comparison with the count is not negative there
  have hOutside : (first < 0 ∨ (toSize first : Int) ≥ xs.length ∨ last < first) ↔
      (first < 0 ∨ first ≥ xs.length ∨ last < first) := by
    by_cases hNeg : first < 0
    · simp [hNeg]
    · rw [toSize_of_nonneg (by omega) (by omega), Int.toNat_of_nonneg (by omega)]
  by_cases hOut : first < 0 ∨ first ≥ xs.length ∨ last < first
  · rw [if_pos (hOutside.mpr hOut), if_pos hOut]
  · rw [if_neg (fun h => hOut (hOutside.mp h)), if_neg hOut]
    rw [toSize_of_nonneg (x := last) (by omega) (by omega), Int.toNat_of_nonneg (by omega),
      toInt32_toSize]
    have hEnd : (if last ≥ xs.length then toInt32 (xs.length - 1) else last) =
        min last (xs.length - 1) := by
      split
      · rw [toInt32_of_small (by omega) (by omega)]
        omega
      · omega
    rw [hEnd]
    rw [toInt32_of_small (x := min last (xs.length - 1) - first + 1) (by omega) (by omega)]
    obtain ⟨cur, hCur, hPath⟩ := skipNodes_eq h.linked.forward h.data first.toNat
    have hData : (nodes.drop first.toNat).map list.heap.data = (xs.drop first.toNat).map some := by
      rw [List.map_drop, h.data, List.map_drop]
    obtain ⟨stopped, hStopped⟩ :=
      copyNodes_eq hPath hData (min last (xs.length - 1) - first + 1).toNat
    have hCount : ((List.take (min last (xs.length - 1) - first + 1).toNat
        (xs.drop first.toNat)).length : Int) = min last (xs.length - 1) - first + 1 := by
      rw [List.length_take, List.length_drop]
      omega
    simp only [hCur, hStopped, Option.bind_eq_bind, Option.bind_some, hCount, lt_irrefl, and_false,
      ↓reduceIte]

/-- One call, with the node that `malloc` returns to it. -/
structure PushCall where
  side : Side
  data : Bytes
  newNode : Nat

def push (list : NodeList) (call : PushCall) : Option (NodeList × Int) :=
  match call.side with
  | .left => list.lpush call.data call.newNode
  | .right => list.rpush call.data call.newNode

/-- The calls in order, with the length that the last one reported. -/
def pushAll : List PushCall → NodeList → Int → Option (NodeList × Int)
  | [], list, length => some (list, length)
  | call :: calls, list, _ => do
      let (list, length) ← list.push call
      pushAll calls list length

/-- The same call on the sequence. -/
def PushCall.apply (xs : List Bytes) (call : PushCall) : List Bytes :=
  (call.side.push xs call.data).1

/-- The sequence that the calls build from nothing. -/
def sequenceOf (calls : List PushCall) : List Bytes := calls.foldl PushCall.apply []

section Runs

variable {list : NodeList} {nodes : List Nat} {xs : List Bytes}

theorem PushCall.length_apply (xs : List Bytes) (call : PushCall) :
    (call.apply xs).length = xs.length + 1 :=
  (call.side.push_length xs call.data).1

theorem push_holds (h : list.Holds nodes xs) {call : PushCall} (hNew : call.newNode ∉ nodes)
    (hSize : xs.length + 1 < 2 ^ 64) :
    ∃ pushed nodes', list.push call = some (pushed, toInt32 (xs.length + 1)) ∧
      pushed.Holds nodes' (call.apply xs) ∧ ∀ a ∈ nodes', a = call.newNode ∨ a ∈ nodes := by
  have hReported := (call.side.push_length xs call.data).2
  unfold push PushCall.apply
  rw [← hReported]
  cases call.side with
  | left =>
      obtain ⟨pushed, hPushed, hHolds⟩ := lpush_holds call.data h hNew hSize
      exact ⟨pushed, _, hPushed, hHolds, fun a ha => List.mem_cons.mp ha⟩
  | right =>
      obtain ⟨pushed, hPushed, hHolds⟩ := rpush_holds call.data h hNew hSize
      refine ⟨pushed, _, hPushed, hHolds, fun a ha => ?_⟩
      rcases List.mem_append.mp ha with ha | ha
      · exact .inr ha
      · exact .inl (List.mem_singleton.mp ha)

theorem pushAll_holds {calls : List PushCall} {length : Int} (h : list.Holds nodes xs)
    (hNodup : (calls.map PushCall.newNode).Nodup)
    (hNew : ∀ call ∈ calls, call.newNode ∉ nodes)
    (hSize : xs.length + calls.length < 2 ^ 64) (hLength : xs ≠ [] → length = toInt32 xs.length) :
    ∃ built nodes' reported, pushAll calls list length = some (built, reported) ∧
      built.Holds nodes' (calls.foldl PushCall.apply xs) ∧
      (calls.foldl PushCall.apply xs ≠ [] →
        reported = toInt32 (calls.foldl PushCall.apply xs).length) := by
  induction calls generalizing list nodes xs length with
  | nil => exact ⟨list, nodes, length, rfl, h, hLength⟩
  | cons call calls ih =>
      rw [List.length_cons] at hSize
      rw [List.map_cons, List.nodup_cons] at hNodup
      obtain ⟨pushed, nodes', hPushed, hHolds, hNodes⟩ :=
        push_holds h (hNew call (List.mem_cons_self ..)) (by omega)
      have hLater : ∀ other ∈ calls, other.newNode ∉ nodes' := by
        intro other hOther hMem
        rcases hNodes _ hMem with hEq | hMem
        · exact hNodup.1 (hEq ▸ List.mem_map_of_mem hOther)
        · exact hNew other (List.mem_cons_of_mem _ hOther) hMem
      have hCount := call.length_apply xs
      simp only [pushAll, hPushed, Option.bind_eq_bind, Option.bind_some, List.foldl_cons]
      exact ih hHolds hNodup.2 hLater (by omega) (fun _ => by rw [hCount]; rfl)

theorem length_foldl_apply (calls : List PushCall) (xs : List Bytes) :
    (calls.foldl PushCall.apply xs).length = xs.length + calls.length := by
  induction calls generalizing xs with
  | nil => rfl
  | cons call calls ih =>
      rw [List.foldl_cons, ih, PushCall.length_apply, List.length_cons]
      omega

end Runs

/-- A list that was created and pushed to is the sequence of its pushes, read
from either end, and `lrange` selects from that sequence. The nodes are those
of `malloc`, so they differ from one another. -/
theorem node_list_refines_sequence (heap : Heap) (unset : UInt64) (calls : List PushCall)
    (hne : calls ≠ []) (hNodes : (calls.map PushCall.newNode).Nodup)
    (hSize : calls.length ≤ 2 ^ 31 - 1) :
    ∃ list length, pushAll calls (createList heap unset) 0 = some (list, length) ∧
      let xs := sequenceOf calls
      (∃ nodes, Path list.heap.next none list.head nodes ∧
        Path list.heap.prev none list.tail nodes.reverse ∧
        nodes.map list.heap.data = xs.map some) ∧
      xs.length = calls.length ∧ list.length.toNat = xs.length ∧ length = xs.length ∧
      ∀ start stop : Int, -2 ^ 31 ≤ start ∧ start < 2 ^ 31 → -2 ^ 31 ≤ stop ∧ stop < 2 ^ 31 →
        let first := listPosition xs.length start
        let last := min (listPosition xs.length stop) (xs.length - 1)
        list.lrange start stop = some (RedisServer.lrange xs start stop) ∧
        (0 ≤ first ∧ first < xs.length ∧ first ≤ listPosition xs.length stop →
          list.lrange start stop =
            some (some (elementsBetween xs first last), last - first + 1) ∧
          (elementsBetween xs first last).length = last - first + 1) ∧
        (¬(0 ≤ first ∧ first < xs.length ∧ first ≤ listPosition xs.length stop) →
          list.lrange start stop = some (none, 0)) := by
  have hStart : (createList heap unset).Holds [] [] :=
    ⟨linked_nil, rfl, fun h => absurd rfl h⟩
  have hNone : ([] : List Bytes) ≠ [] → (0 : Int) = toInt32 ([] : List Bytes).length :=
    fun h => absurd rfl h
  obtain ⟨list, nodes, length, hRun, hHolds, hReported⟩ := pushAll_holds hStart hNodes
    (fun _ _ => List.not_mem_nil) (by simp; omega) hNone
  have hCount : (sequenceOf calls).length = calls.length := by
    simpa [sequenceOf] using length_foldl_apply calls []
  change list.Holds nodes (sequenceOf calls) at hHolds
  have hSome : sequenceOf calls ≠ [] := by
    intro hNil
    rw [hNil] at hCount
    exact hne (List.length_eq_zero_iff.mp hCount.symm)
  refine ⟨list, length, hRun, ⟨nodes, hHolds.linked.forward, hHolds.linked.backward, hHolds.data⟩,
    hCount, hHolds.length hSome, ?_, ?_⟩
  · rw [hReported hSome]
    exact toInt32_of_small (by omega) (by change ((sequenceOf calls).length : Int) < _; omega)
  · intro start stop hFrom hTo
    have hSmall : (sequenceOf calls).length ≤ 2 ^ 31 - 1 := hCount.trans_le hSize
    have hWalk := hHolds.lrange_eq hSome hSmall hFrom hTo
    have hRange := RedisServer.lrange_eq hSmall hFrom hTo
    dsimp only at hRange ⊢
    refine ⟨hWalk, fun hInside => ?_, fun hOutside => ?_⟩
    · rw [elementsBetween_min, hWalk, hRange, if_pos hInside]
      exact ⟨rfl, length_elementsBetween _ _ _ hInside.1 hInside.2.1 hInside.2.2⟩
    · rw [hWalk, hRange, if_neg hOutside]

theorem node_list_refines_sequence_pushed :
    ∃ list length, pushAll [⟨.left, [98], 1⟩, ⟨.right, [99], 7⟩, ⟨.left, [97], 4⟩]
        (createList (fun _ => none) 12) 0 = some (list, length) ∧
      length = 3 ∧ list.lrange (-2) 9 = some (some [[98], [99]], 2) := by
  obtain ⟨list, length, hRun, -, -, -, hLength, hRange⟩ := node_list_refines_sequence (fun _ => none)
    12 [⟨.left, [98], 1⟩, ⟨.right, [99], 7⟩, ⟨.left, [97], 4⟩] (by decide) (by decide) (by decide)
  exact ⟨list, length, hRun, hLength, (hRange (-2) 9 (by decide) (by decide)).1⟩

end NodeList

end RedisServer
