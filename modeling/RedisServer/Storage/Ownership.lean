import RedisServer.Machine.Blocks
import RedisServer.Storage.KeyMap
import Mathlib.Tactic.Abel

/-! Who frees what in `database.c` and `linked_list.c`. An entry owns the copy of
its key, its `RedisValue`, and the text of a string or the list with its nodes and
their texts. Not every path gives all of them back: a list that is overwritten, the
key of an entry that is found expired and the array of a range are lost. The blocks
of the table itself are left out. -/
namespace RedisServer

open Machine

/-- A node of a list, with the block of its text. -/
structure OwnedNode where
  node : Nat
  data : Nat
  text : Bytes

inductive OwnedData where
  | str (block : Nat) (s : Bytes)
  | list (block : Nat) (nodes : List OwnedNode)

/-- An entry of the table: the copy of its key, its value, and what it points to. -/
structure OwnedValue where
  key : Nat
  value : Nat
  data : OwnedData
  expiration : Int

namespace OwnedData

def toData : OwnedData → RedisData
  | .str _ s => .str s
  | .list _ nodes => .list (nodes.map OwnedNode.text)

/-- What `destroy_list` frees for a list, in its order, and the text of a string. -/
def blocks : OwnedData → List Nat
  | .str block _ => [block]
  | .list block nodes => nodes.flatMap (fun n => [n.data, n.node]) ++ [block]

/-- What is freed where only strings are thought of. -/
def textBlocks : OwnedData → List Nat
  | .str block _ => [block]
  | .list _ _ => []

end OwnedData

namespace OwnedValue

def toValue (v : OwnedValue) : RedisValue := ⟨v.data.toData, v.expiration⟩

def blocks (v : OwnedValue) : List Nat := v.key :: (v.data.blocks ++ [v.value])

end OwnedValue

structure OwnedDb where
  h : Table Bytes OwnedValue
  keyCount : UInt64
  expiryCount : UInt64
  memory : Memory

/-- `strdup` of a string value. -/
def strdupData (s : Bytes) (memory : Memory) : Memory × OwnedData :=
  (memory.alloc.1, .str memory.alloc.2 s)

/-- A list is stored as the pointer that is given. -/
def listData (block : Nat) (memory : Memory) : Memory × OwnedData := (memory, .list block [])

def Side.pushNode : Side → List OwnedNode → OwnedNode → List OwnedNode
  | .left, nodes, n => n :: nodes
  | .right, nodes, n => nodes ++ [n]

namespace OwnedDb

variable (db : OwnedDb) (key : Bytes)

def create : OwnedDb := ⟨∅, 0, 0, .empty⟩

/-- Of a value that `set` replaces the text is freed, if it has one. -/
def freeReplaced : Option Memory :=
  match db.h.lookup key with
  | some old => db.memory.freeAll (old.data.textBlocks ++ [old.key, old.value])
  | none => some db.memory

/-- The static `set`. -/
def set (store : Memory → Memory × OwnedData) (expiration : Int) : Option OwnedDb := do
  let memory ← db.freeReplaced key
  let present := (db.h.lookup key).isSome
  let (memory, keyCopy) := memory.alloc
  let (memory, value) := memory.alloc
  let (memory, data) := store memory
  some
    { h := db.h.insert key ⟨keyCopy, value, data, expiration⟩
      keyCount := if present then db.keyCount else db.keyCount + 1
      expiryCount :=
        if present then db.expiryCount
        else if expiration > 0 then db.expiryCount + 1 else db.expiryCount
      memory := memory }

/-- The static `get`. An entry that is found expired is removed, and its key stays
allocated. -/
def get (now : Int) : Option (OwnedDb × Option OwnedValue) :=
  match db.h.lookup key with
  | some value =>
      if value.toValue.Expired now then do
        let memory ← db.memory.freeAll (value.data.textBlocks ++ [value.value])
        some ({ h := db.h.erase key
                keyCount := db.keyCount - 1
                expiryCount := db.expiryCount - 1
                memory := memory }, none)
      else some (db, some value)
  | none => some (db, none)

def delete : Option OwnedDb :=
  match db.h.lookup key with
  | some value => do
      let memory ← db.memory.freeAll (value.data.blocks ++ [value.value, value.key])
      some { db with h := db.h.erase key, keyCount := db.keyCount - 1, memory := memory }
  | none => some db

/-- The end of a push: a node and its text are added to the list of the entry. -/
def pushItem (side : Side) (value : OwnedValue) (block : Nat) (nodes : List OwnedNode)
    (item : Bytes) : OwnedDb × Int :=
  let (memory, node) := db.memory.alloc
  let (memory, data) := memory.alloc
  ({ db with
     h := db.h.insert key
       { value with data := .list block (side.pushNode nodes ⟨node, data, item⟩) }
     memory := memory }, toInt32 (nodes.length + 1))

def push (side : Side) (created : Int) (item : Bytes) (now : Int) :
    Option (OwnedDb × Except DbError Int) := do
  let (db, found) ← db.get key now
  match found with
  | some value =>
      match value.data with
      | .list block nodes =>
          let (db, length) := db.pushItem key side value block nodes item
          some (db, .ok length)
      | .str _ _ => some (db, .error .typeMismatch)
  | none =>
      let (memory, block) := db.memory.alloc
      let db ← { db with memory := memory }.set key (listData block) created
      match db.h.lookup key with
      | some value =>
          let (db, length) := db.pushItem key side value block [] item
          some (db, .ok length)
      | none => none

/-- A range is copied into an array of new texts. The caller frees the texts when it
has sent them, but not the array. -/
def range (start stop now : Int) :
    Option (OwnedDb × Except DbError (Option (List Bytes) × Int)) := do
  let (db, found) ← db.get key now
  match found with
  | some value =>
      match value.data with
      | .list _ nodes =>
          let result := lrange (nodes.map OwnedNode.text) start stop
          match result.1 with
          | some range => do
              let (memory, _) := db.memory.alloc
              let (memory, texts) := memory.allocs range.length
              let memory ← memory.freeAll texts
              some ({ db with memory := memory }, .ok result)
          | none => some (db, .ok result)
      | .str _ _ => some (db, .error .typeMismatch)
  | none => some (db, .error .keyNotFound)

def step (db : OwnedDb) : DbCall → Option (OwnedDb × DbResult)
  | .set key value expiration => do
      let db ← db.set key (strdupData value) expiration
      some (db, .done)
  | .get key now => do
      let (db, found) ← db.get key now
      some (db, .value (found.map OwnedValue.toValue))
  | .exist key => some (db, .present (db.h.lookup key).isSome)
  | .delete key => do
      let db ← db.delete key
      some (db, .done)
  | .lpush key item now => do
      let (db, pushed) ← db.push key .left (-1) item now
      some (db, .pushed pushed)
  | .rpush key item now => do
      let (db, pushed) ← db.push key .right 0 item now
      some (db, .pushed pushed)
  | .lrange key start stop now => do
      let (db, range) ← db.range key start stop now
      some (db, .range range)

/-- The walk of `destroy_redis_hash` over the table. -/
def destroyRedisHash : Option Memory :=
  db.h.entries.foldlM (fun memory e => memory.freeAll e.2.blocks) db.memory

end OwnedDb

section Leaks

/-- The blocks of a list: its own, its nodes and their texts. -/
def RedisData.listBlocks : RedisData → Nat
  | .str _ => 0
  | .list xs => 1 + 2 * xs.length

/-- What a lookup loses when it finds the entry expired. -/
def RedisDb.lookupLeaks (db : RedisDb) (key : Bytes) (now : Int) : Nat :=
  match db.h.lookup key with
  | some v => if v.Expired now then 1 + v.data.listBlocks else 0
  | none => 0

/-- What a call loses in this state of the store. -/
def DbCall.leaks (db : RedisDb) : DbCall → Nat
  | .set key _ _ =>
      match db.h.lookup key with
      | some v => v.data.listBlocks
      | none => 0
  | .get key now | .lpush key _ now | .rpush key _ now => db.lookupLeaks key now
  | .exist _ | .delete _ => 0
  | .lrange key start stop now =>
      db.lookupLeaks key now +
        match (redisDbLrange db key start stop now).2 with
        | .ok (some _, _) => 1
        | _ => 0

/-- What the calls of a run lose, each in the state it finds. -/
def RedisDb.leaks (db : RedisDb) : List DbCall → Nat
  | [] => 0
  | call :: calls => call.leaks db + RedisDb.leaks (db.step call).1 calls

end Leaks

section Blocks

variable {v : OwnedValue} {h : Table Bytes OwnedValue} {key : Bytes}

/-- The blocks of a list that `set` and `get` forget. -/
def OwnedData.forgotten : OwnedData → List Nat
  | .str _ _ => []
  | .list block nodes => (OwnedData.list block nodes).blocks

theorem OwnedData.blocks_eq (data : OwnedData) :
    data.blocks = data.textBlocks ++ data.forgotten := by
  cases data <;> rfl

theorem OwnedData.forgotten_length (data : OwnedData) :
    data.forgotten.length = data.toData.listBlocks := by
  cases data with
  | str => rfl
  | list block nodes =>
      have hNodes : (nodes.flatMap fun n => [n.data, n.node]).length = 2 * nodes.length := by
        induction nodes with
        | nil => rfl
        | cons n nodes ih =>
            rw [List.flatMap_cons, List.length_append, ih, List.length_cons]
            exact Nat.add_comm 2 _
      rw [forgotten, blocks, toData, RedisData.listBlocks, List.length_append, hNodes,
        List.length_map]
      exact Nat.add_comm _ 1

/-- All blocks that the entries of a table own. -/
def entryBlocks (h : Table Bytes OwnedValue) : Multiset Nat :=
  (Table.listing h).bind fun e => e.2.blocks

theorem entryBlocks_eq (h : Table Bytes OwnedValue) :
    entryBlocks h = (h.entries.flatMap fun e => e.2.blocks : List Nat) := by
  rw [entryBlocks, Table.listing, Multiset.coe_bind, List.flatMap_map]

theorem entryBlocks_insert (h : Table Bytes OwnedValue) (key : Bytes) (v : OwnedValue) :
    entryBlocks (h.insert key v) = v.blocks + entryBlocks (h.erase key) := by
  rw [entryBlocks, Table.listing_insert, Multiset.cons_bind]
  rfl

theorem entryBlocks_erase (hFind : h.lookup key = some v) :
    entryBlocks h = v.blocks + entryBlocks (h.erase key) := by
  rw [entryBlocks, Table.listing_erase hFind, Multiset.cons_bind]
  rfl

theorem OwnedValue.coe_blocks (v : OwnedValue) :
    (v.blocks : Multiset Nat) = v.key ::ₘ v.value ::ₘ (v.data.blocks : Multiset Nat) := by
  rw [OwnedValue.blocks, ← Multiset.cons_coe, ← Multiset.coe_add, Multiset.cons_inj_right]
  exact (Multiset.add_comm _ _).trans (Multiset.singleton_add _ _)

theorem OwnedValue.coe_blocks_text (v : OwnedValue) :
    (v.blocks : Multiset Nat) =
      (v.data.textBlocks ++ [v.key, v.value] : List Nat) + (v.data.forgotten : Multiset Nat) := by
  have hPair : (([v.key, v.value] : List Nat) : Multiset Nat) = {v.key} + {v.value} := rfl
  rw [v.coe_blocks, v.data.blocks_eq, ← Multiset.coe_add, ← Multiset.coe_add, hPair,
    ← Multiset.singleton_add, ← Multiset.singleton_add]
  abel

theorem Side.map_text_pushNode (side : Side) (nodes : List OwnedNode) (n : OwnedNode) :
    (side.pushNode nodes n).map OwnedNode.text =
      (side.push (nodes.map OwnedNode.text) n.text).1 := by
  cases side with
  | left => rfl
  | right => exact List.map_append

theorem Side.coe_blocks_pushNode (side : Side) (block : Nat) (nodes : List OwnedNode)
    (n : OwnedNode) :
    ((OwnedData.list block (side.pushNode nodes n)).blocks : Multiset Nat) =
      n.data ::ₘ n.node ::ₘ ((OwnedData.list block nodes).blocks : Multiset Nat) := by
  cases side with
  | left => rfl
  | right =>
      rw [Side.pushNode, OwnedData.blocks, OwnedData.blocks, List.flatMap_append,
        Multiset.cons_coe, Multiset.cons_coe, List.append_assoc]
      exact Multiset.coe_eq_coe.mpr (List.perm_append_comm_assoc _ [n.data, n.node] _)

end Blocks

namespace OwnedDb

variable {db : OwnedDb} {lost taken : Multiset Nat} {key : Bytes}

/-- The list that `set` loses when it replaces one. -/
def replaced (db : OwnedDb) (key : Bytes) : Multiset Nat :=
  match db.h.lookup key with
  | some old => old.data.forgotten
  | none => 0

theorem freeReplaced_spec (hMemory : db.memory.Holds (entryBlocks db.h + lost)) (key : Bytes) :
    ∃ memory, db.freeReplaced key = some memory ∧
      memory.Holds (entryBlocks (db.h.erase key) + db.replaced key + lost) := by
  unfold freeReplaced replaced
  cases hFind : db.h.lookup key with
  | none =>
      refine ⟨db.memory, rfl, ?_⟩
      rw [Table.erase_of_lookup_eq_none hFind, add_zero]
      exact hMemory
  | some old =>
      rw [entryBlocks_erase hFind, old.coe_blocks_text] at hMemory
      have hSplit : db.memory.Holds ((old.data.textBlocks ++ [old.key, old.value] : List Nat) +
          (entryBlocks (db.h.erase key) + (old.data.forgotten : Multiset Nat) + lost)) := by
        refine hMemory.trans ?_
        abel
      exact hSplit.freeAll

/-- The memory of `set`: `store` makes the blocks `taken` a part of the value. -/
theorem set_memory {store : Memory → Memory × OwnedData}
    (hStore : ∀ {m : Memory} {rest : Multiset Nat}, m.Holds (taken + rest) →
      (store m).1.Holds ((store m).2.blocks + rest))
    (hMemory : db.memory.Holds (entryBlocks db.h + (taken + lost))) (key : Bytes)
    (expiration : Int) :
    ∃ memory m keyCopy value, db.set key store expiration = some
        { h := db.h.insert key ⟨keyCopy, value, (store m).2, expiration⟩
          keyCount := if (db.h.lookup key).isSome then db.keyCount else db.keyCount + 1
          expiryCount :=
            if (db.h.lookup key).isSome then db.expiryCount
            else if expiration > 0 then db.expiryCount + 1 else db.expiryCount
          memory := memory } ∧
      memory.Holds (entryBlocks (db.h.insert key ⟨keyCopy, value, (store m).2, expiration⟩) +
        (db.replaced key + lost)) := by
  obtain ⟨memory, hRun, hLeft⟩ := freeReplaced_spec hMemory key
  have hData := hStore (hLeft.alloc.alloc.trans (show _ = taken + ({memory.alloc.1.alloc.2} +
      ({memory.alloc.2} + (entryBlocks (db.h.erase key) + db.replaced key + lost))) by
    rw [← Multiset.singleton_add, ← Multiset.singleton_add]
    abel))
  refine ⟨_, memory.alloc.1.alloc.1, memory.alloc.2, memory.alloc.1.alloc.2, ?_, hData.trans ?_⟩
  · rw [OwnedDb.set, hRun]
    rfl
  · rw [entryBlocks_insert, OwnedValue.coe_blocks, ← Multiset.singleton_add,
      ← Multiset.singleton_add]
    abel

/-- The store with a finite table that this one stands for, and the blocks that
nobody owns any more. -/
structure Accounts (db : OwnedDb) (a : RedisDb) (lost : Multiset Nat) : Prop where
  lookup_eq : ∀ key, a.h.lookup key = (db.h.lookup key).map OwnedValue.toValue
  keyCount_eq : db.keyCount = a.keyCount
  expiryCount_eq : db.expiryCount = a.expiryCount
  memory : db.memory.Holds (entryBlocks db.h + lost)

variable {a : RedisDb}

theorem lookup_insert_map {t : Table Bytes OwnedValue} {u : Table Bytes RedisValue}
    (h : ∀ key, u.lookup key = (t.lookup key).map OwnedValue.toValue) (key : Bytes) {v : OwnedValue}
    {w : RedisValue} (hValue : v.toValue = w) (other : Bytes) :
    (u.insert key w).lookup other = ((t.insert key v).lookup other).map OwnedValue.toValue := by
  by_cases hKey : other = key
  · subst hKey
    rw [AList.lookup_insert, AList.lookup_insert, Option.map_some, hValue]
  · rw [AList.lookup_insert_ne hKey, AList.lookup_insert_ne hKey, h]

theorem lookup_erase_map {t : Table Bytes OwnedValue} {u : Table Bytes RedisValue}
    (h : ∀ key, u.lookup key = (t.lookup key).map OwnedValue.toValue) (key other : Bytes) :
    (u.erase key).lookup other = ((t.erase key).lookup other).map OwnedValue.toValue := by
  by_cases hKey : other = key
  · subst hKey
    rw [AList.lookup_erase, AList.lookup_erase]
    rfl
  · rw [AList.lookup_erase_ne hKey, AList.lookup_erase_ne hKey, h]

theorem Accounts.replaced_card (h : db.Accounts a lost) (key : Bytes) :
    (db.replaced key).card = match a.h.lookup key with
      | some v => v.data.listBlocks
      | none => 0 := by
  rw [h.lookup_eq, replaced]
  cases db.h.lookup key with
  | none => rfl
  | some v => exact v.data.forgotten_length

theorem Accounts.set {store : Memory → Memory × OwnedData} {data : RedisData}
    (hStore : ∀ {m : Memory} {rest : Multiset Nat}, m.Holds (taken + rest) →
      (store m).1.Holds ((store m).2.blocks + rest))
    (hData : ∀ m, (store m).2.toData = data) (h : db.Accounts a (taken + lost)) (key : Bytes)
    (expiration : Int) :
    ∃ db' v m, db.set key store expiration = some db' ∧
      db'.Accounts (a.set key data expiration) (db.replaced key + lost) ∧
      db'.h.lookup key = some v ∧ v.toValue = ⟨data, expiration⟩ ∧ v.data = (store m).2 := by
  obtain ⟨memory, m, keyCopy, value, hSet, hHolds⟩ := set_memory hStore h.memory key expiration
  have hValue : (⟨keyCopy, value, (store m).2, expiration⟩ : OwnedValue).toValue =
      ⟨data, expiration⟩ := by
    rw [OwnedValue.toValue, hData]
  refine ⟨_, _, m, hSet, ⟨?_, ?_, ?_, hHolds⟩, AList.lookup_insert _, hValue, rfl⟩
  · intro other
    rw [RedisDb.set_h]
    exact lookup_insert_map h.lookup_eq key hValue other
  · rw [RedisDb.set, h.lookup_eq]
    cases db.h.lookup key with
    | none => exact congrArg (· + 1) h.keyCount_eq
    | some v => exact h.keyCount_eq
  · rw [RedisDb.set, h.lookup_eq]
    cases db.h.lookup key with
    | none =>
        dsimp only [Option.map_none, Option.isSome_none]
        rw [h.expiryCount_eq]
        rfl
    | some v => exact h.expiryCount_eq

/-- A lookup that finds an expired entry loses its key. -/
theorem Accounts.get (h : db.Accounts a lost) (key : Bytes) (now : Int) :
    ∃ db' found more, db.get key now = some (db', found) ∧
      db'.Accounts (a.get key now).1 (more + lost) ∧ more.card = a.lookupLeaks key now ∧
      found.map OwnedValue.toValue = (a.get key now).2 ∧
      db'.h.lookup key = found := by
  have hLookup := h.lookup_eq key
  rw [OwnedDb.get, RedisDb.get, RedisDb.lookupLeaks]
  cases hFind : db.h.lookup key with
  | none =>
      rw [hFind, Option.map_none] at hLookup
      simp only [hLookup]
      refine ⟨db, none, 0, rfl, ?_, rfl, rfl, hFind⟩
      rw [zero_add]
      exact h
  | some v =>
      rw [hFind, Option.map_some] at hLookup
      simp only [hLookup]
      by_cases hExpired : v.toValue.Expired now
      · have hMemory := h.memory
        rw [entryBlocks_erase hFind, v.coe_blocks, v.data.blocks_eq, ← Multiset.coe_add] at hMemory
        have hSplit : db.memory.Holds ((v.data.textBlocks ++ [v.value] : List Nat) +
            (entryBlocks (db.h.erase key) + ({v.key} + v.data.forgotten + lost))) := by
          refine hMemory.trans ?_
          rw [← Multiset.coe_add, Multiset.coe_singleton, ← Multiset.singleton_add,
            ← Multiset.singleton_add]
          abel
        obtain ⟨memory, hFree, hLeft⟩ := hSplit.freeAll
        rw [if_pos hExpired, if_pos hExpired, if_pos hExpired, hFree]
        refine ⟨_, none, _, rfl, ⟨lookup_erase_map h.lookup_eq key, ?_, ?_, hLeft⟩, ?_, rfl,
          AList.lookup_erase _ _⟩
        · exact congrArg (· - 1) h.keyCount_eq
        · exact congrArg (· - 1) h.expiryCount_eq
        · rw [Multiset.card_add, Multiset.card_singleton, Multiset.coe_card]
          exact congrArg (1 + ·) v.data.forgotten_length
      · rw [if_neg hExpired, if_neg hExpired, if_neg hExpired]
        refine ⟨db, some v, 0, rfl, ?_, rfl, rfl, hFind⟩
        rw [zero_add]
        exact h

theorem Accounts.delete (h : db.Accounts a lost) (key : Bytes) :
    ∃ db', db.delete key = some db' ∧ db'.Accounts (a.delete key) lost := by
  have hLookup := h.lookup_eq key
  rw [OwnedDb.delete, RedisDb.delete]
  cases hFind : db.h.lookup key with
  | none =>
      rw [hFind, Option.map_none] at hLookup
      simp only [hLookup]
      exact ⟨db, rfl, h⟩
  | some v =>
      rw [hFind, Option.map_some] at hLookup
      simp only [hLookup]
      have hMemory := h.memory
      rw [entryBlocks_erase hFind, v.coe_blocks] at hMemory
      have hSplit : db.memory.Holds ((v.data.blocks ++ [v.value, v.key] : List Nat) +
          (entryBlocks (db.h.erase key) + lost)) := by
        have hPair : (([v.value, v.key] : List Nat) : Multiset Nat) = {v.value} + {v.key} := rfl
        refine hMemory.trans ?_
        rw [← Multiset.coe_add, hPair, ← Multiset.singleton_add, ← Multiset.singleton_add]
        abel
      obtain ⟨memory, hFree, hLeft⟩ := hSplit.freeAll
      rw [hFree]
      exact ⟨_, rfl, ⟨lookup_erase_map h.lookup_eq key, congrArg (· - 1) h.keyCount_eq,
        h.expiryCount_eq, hLeft⟩⟩

/-- A push adds a node and its text to what the entry owns. -/
theorem Accounts.pushItem (h : db.Accounts a lost) {v : OwnedValue}
    (hFind : db.h.lookup key = some v) {block : Nat} {nodes : List OwnedNode}
    (hData : v.data = .list block nodes) (side : Side)
    (item : Bytes) :
    (db.pushItem key side v block nodes item).1.Accounts
        (a.setList key v.toValue (side.push (nodes.map OwnedNode.text) item).1) lost ∧
      (db.pushItem key side v block nodes item).2 =
        (side.push (nodes.map OwnedNode.text) item).2 := by
  refine ⟨⟨?_, h.keyCount_eq, h.expiryCount_eq, ?_⟩, ?_⟩
  · intro other
    refine lookup_insert_map h.lookup_eq key ?_ other
    rw [← Side.map_text_pushNode side nodes ⟨_, _, item⟩]
    rfl
  · have hMemory := h.memory
    rw [entryBlocks_erase hFind, v.coe_blocks, hData] at hMemory
    refine hMemory.alloc.alloc.trans ?_
    rw [OwnedDb.pushItem, entryBlocks_insert, OwnedValue.coe_blocks, Side.coe_blocks_pushNode]
    simp only [← Multiset.singleton_add]
    abel
  · have hLength := (side.push_length (nodes.map OwnedNode.text) item).2.symm
    simp only [List.length_map] at hLength
    simpa only [OwnedDb.pushItem] using hLength

/-- A list that is created becomes the value of its key. -/
theorem Accounts.setNewList (h : db.Accounts a lost) (hNone : db.h.lookup key = none)
    (created : Int) :
    ∃ db' v, { db with memory := db.memory.alloc.1 }.set key (listData db.memory.alloc.2) created =
        some db' ∧
      db'.Accounts (a.set key (.list []) created) lost ∧ db'.h.lookup key = some v ∧
      v.toValue = ⟨.list [], created⟩ ∧ v.data = .list db.memory.alloc.2 [] := by
  have hAlloc : { db with memory := db.memory.alloc.1 }.Accounts a
      ({db.memory.alloc.2} + lost) := by
    refine ⟨h.lookup_eq, h.keyCount_eq, h.expiryCount_eq, h.memory.alloc.trans ?_⟩
    rw [← Multiset.singleton_add]
    abel
  have hStore : ∀ {m : Memory} {rest : Multiset Nat}, m.Holds ({db.memory.alloc.2} + rest) →
      (listData db.memory.alloc.2 m).1.Holds ((listData db.memory.alloc.2 m).2.blocks + rest) :=
    fun hm => hm
  obtain ⟨db', v, m, hSet, hDone, hFind, hValue, hList⟩ :=
    hAlloc.set hStore (fun _ => rfl) key created
  have hReplaced : { db with memory := db.memory.alloc.1 }.replaced key = 0 := by
    rw [replaced, hNone]
  rw [hReplaced, zero_add] at hDone
  exact ⟨db', v, hSet, hDone, hFind, hValue, hList⟩

theorem Accounts.push (h : db.Accounts a lost) (key : Bytes) (side : Side) (created : Int)
    (item : Bytes) (now : Int) :
    ∃ db' more, db.push key side created item now =
        some (db', (a.push side.push created key item now).2) ∧
      db'.Accounts (a.push side.push created key item now).1 (more + lost) ∧
      more.card = a.lookupLeaks key now := by
  obtain ⟨m, found, more, hGet, hKept, hMore, hValue, hFound⟩ := h.get key now
  rw [OwnedDb.push, hGet, RedisDb.push, redisDbGet]
  simp only [Option.bind_eq_bind, Option.bind_some]
  generalize a.get key now = b at hKept hValue
  obtain ⟨b, value⟩ := b
  subst hValue
  cases found with
  | some v =>
      cases hData : v.data with
      | str block s =>
          have hStr : v.toValue.data = .str s := by rw [OwnedValue.toValue, hData]; rfl
          simp only [Option.map_some, hData, hStr]
          exact ⟨m, more, rfl, hKept, hMore⟩
      | list block nodes =>
          have hList : v.toValue.data = .list (nodes.map OwnedNode.text) := by
            rw [OwnedValue.toValue, hData]
            rfl
          obtain ⟨hPushed, hLength⟩ := hKept.pushItem hFound hData side item
          simp only [Option.map_some, hData, hList, ← hLength]
          exact ⟨_, more, rfl, hPushed, hMore⟩
  | none =>
      obtain ⟨n, v, hSet, hNew, hFind, hValue, hData⟩ := hKept.setNewList hFound created
      obtain ⟨hPushed, hLength⟩ := hNew.pushItem hFind hData side item
      rw [hValue] at hPushed
      simp only [Option.map_none, hSet, Option.bind_some, hFind]
      rw [List.map_nil] at hPushed hLength
      rw [← hLength]
      exact ⟨_, more, rfl, hPushed, hMore⟩

theorem Accounts.range (h : db.Accounts a lost) (key : Bytes) (start stop now : Int) :
    ∃ db' more, db.range key start stop now =
        some (db', (redisDbLrange a key start stop now).2) ∧
      db'.Accounts (redisDbLrange a key start stop now).1 (more + lost) ∧
      more.card = (DbCall.lrange key start stop now).leaks a := by
  obtain ⟨m, found, more, hGet, hKept, hMore, hValue, -⟩ := h.get key now
  rw [OwnedDb.range, hGet, DbCall.leaks, ← hMore, redisDbLrange]
  simp only [Option.bind_eq_bind, Option.bind_some]
  generalize a.get key now = b at hKept hValue
  obtain ⟨b, value⟩ := b
  subst hValue
  cases found with
  | none => exact ⟨m, more, rfl, hKept, rfl⟩
  | some v =>
      cases hData : v.data with
      | str block s =>
          have hStr : v.toValue.data = .str s := by rw [OwnedValue.toValue, hData]; rfl
          simp only [Option.map_some, hData, hStr]
          exact ⟨m, more, rfl, hKept, rfl⟩
      | list block nodes =>
          have hList : v.toValue.data = .list (nodes.map OwnedNode.text) := by
            rw [OwnedValue.toValue, hData]
            rfl
          simp only [Option.map_some, hData, hList]
          obtain ⟨range, length⟩ := lrange (nodes.map OwnedNode.text) start stop
          cases range with
          | none => exact ⟨m, more, rfl, hKept, rfl⟩
          | some range =>
              obtain ⟨memory, hFree, hLeft⟩ :=
                (hKept.memory.alloc.allocs range.length).1.freeAll
              simp only [hFree, Option.bind_some]
              refine ⟨_, {m.memory.alloc.2} + more, rfl,
                ⟨hKept.lookup_eq, hKept.keyCount_eq, hKept.expiryCount_eq, hLeft.trans ?_⟩, ?_⟩
              · rw [← Multiset.singleton_add]
                abel
              · rw [Multiset.card_add, Multiset.card_singleton, add_comm]

/-- A call returns what the store returns, and loses as many blocks as it is said to. -/
theorem Accounts.step (h : db.Accounts a lost) (call : DbCall) :
    ∃ db' more, db.step call = some (db', (a.step call).2) ∧
      db'.Accounts (a.step call).1 (more + lost) ∧ more.card = call.leaks a := by
  cases call with
  | set key value expiration =>
      have hStore : ∀ {m : Memory} {rest : Multiset Nat}, m.Holds (0 + rest) →
          (strdupData value m).1.Holds ((strdupData value m).2.blocks + rest) := by
        intro m rest hm
        refine hm.alloc.trans ?_
        rw [zero_add]
        exact (Multiset.singleton_add ..).symm
      rw [← zero_add lost] at h
      obtain ⟨db', v, m, hRun, hDone, -⟩ := h.set hStore (fun _ => rfl) key expiration
      exact ⟨db', _, by rw [OwnedDb.step, hRun]; rfl, hDone, h.replaced_card key⟩
  | get key now =>
      obtain ⟨db', found, more, hRun, hDone, hMore, hValue, -⟩ := h.get key now
      refine ⟨db', more, ?_, hDone, hMore⟩
      rw [OwnedDb.step, hRun]
      exact congrArg (fun v => some (db', DbResult.value v)) hValue
  | exist key =>
      refine ⟨db, 0, ?_, ?_, rfl⟩
      · rw [OwnedDb.step, RedisDb.step, redisDbExist, RedisDb.exist, h.lookup_eq, Option.isSome_map]
      · rw [zero_add]
        exact h
  | delete key =>
      obtain ⟨db', hRun, hDone⟩ := h.delete key
      rw [← zero_add lost] at hDone
      exact ⟨db', 0, by rw [OwnedDb.step, hRun]; rfl, hDone, rfl⟩
  | lpush key item now =>
      obtain ⟨db', more, hRun, hDone, hMore⟩ := h.push key .left (-1) item now
      exact ⟨db', more, by rw [OwnedDb.step, hRun]; rfl, hDone, hMore⟩
  | rpush key item now =>
      obtain ⟨db', more, hRun, hDone, hMore⟩ := h.push key .right 0 item now
      exact ⟨db', more, by rw [OwnedDb.step, hRun]; rfl, hDone, hMore⟩
  | lrange key start stop now =>
      obtain ⟨db', more, hRun, hDone, hMore⟩ := h.range key start stop now
      exact ⟨db', more, by rw [OwnedDb.step, hRun]; rfl, hDone, hMore⟩

theorem Accounts.run (h : db.Accounts a lost) (calls : List DbCall) :
    ∃ db' more, runOption OwnedDb.step db calls = some (db', (run RedisDb.step a calls).2) ∧
      db'.Accounts (run RedisDb.step a calls).1 (more + lost) ∧ more.card = a.leaks calls := by
  induction calls generalizing db a lost with
  | nil => exact ⟨db, 0, rfl, by rw [zero_add]; exact h, rfl⟩
  | cons call calls ih =>
      obtain ⟨m, first, hNext, hKept, hFirst⟩ := h.step call
      obtain ⟨db', more, hRest, hDone, hMore⟩ := ih hKept
      refine ⟨db', more + first, ?_, ?_, ?_⟩
      · simp only [runOption, hNext, Option.bind_some, hRest, Option.map_some, Machine.run]
      · rw [add_assoc]
        exact hDone
      · rw [Multiset.card_add, hFirst, hMore, RedisDb.leaks, add_comm]

theorem accounts_create : create.Accounts redisDbCreate 0 where
  lookup_eq := fun _ => rfl
  keyCount_eq := rfl
  expiryCount_eq := rfl
  memory := Memory.holds_empty

/-- In every run no block is freed twice, and the calls return what the store
returns. When the store is destroyed after the run, the blocks that are still
allocated are those that the calls have lost, and no others. -/
theorem run_destroy (calls : List DbCall) :
    ∃ db memory, runOption OwnedDb.step create calls =
        some (db, (run RedisDb.step redisDbCreate calls).2) ∧
      db.destroyRedisHash = some memory ∧
      memory.live.card = redisDbCreate.leaks calls := by
  obtain ⟨db, more, hRun, hDone, hMore⟩ := accounts_create.run calls
  rw [add_zero] at hDone
  have hMemory := hDone.memory
  rw [entryBlocks_eq] at hMemory
  obtain ⟨memory, hDestroy, hLeft⟩ := hMemory.freeEach
  exact ⟨db, memory, hRun, hDestroy, by rw [hLeft.card, hMore]⟩

/-- A list of two elements that a `SET` replaces: the list, two nodes, two texts. -/
example : redisDbCreate.leaks [.rpush [97] [1] 0, .rpush [97] [2] 0, .set [97] [3] 0] = 5 := by
  decide

end OwnedDb

end RedisServer
