import RedisServer.Storage.KhashMap
import RedisServer.Storage.Database

/-! `database.c` over the hash table that it really uses, with its hash function.
A pointer to a value is the bucket that has it. The store with a finite table is
an abstraction of this one: the calls return the same, and the buckets have the
entries of the table in some order. -/
namespace RedisServer

open Machine

/-- The cast of a `char`, which is signed. -/
def khintOfChar (c : UInt8) : BitVec 32 := c.toBitVec.signExtend 32

/-- The bytes are those of a string, before its terminator. -/
def acX31HashString : Bytes → Nat
  | [] => 0
  | c :: cs =>
      (cs.foldl (fun (h : BitVec 32) c => (h <<< 5) - h + khintOfChar c) (khintOfChar c)).toNat

structure KhashDb where
  h : Khash Bytes RedisValue
  keyCount : UInt64
  expiryCount : UInt64

namespace KhashDb

/-- The table is allocated with zeroes, and its arrays only when they are needed:
what is in these first does not matter. -/
def create (keys : Nat → Bytes) (vals : Nat → RedisValue) : KhashDb := ⟨khInit keys vals, 0, 0⟩

section Operations

variable (fuel : Nat) (db : KhashDb) (key : Bytes)

/-- The static `set`, with the bucket it wrote. The first lookup is for the old
key, which is freed. -/
def set (data : RedisData) (expiration : Int) : Option (KhashDb × Nat) := do
  let _ ← khGet acX31HashString fuel db.h key
  let (h, k, ret) ← khPut acX31HashString fuel db.h key
  let h := h.write k key ⟨data, expiration⟩
  if ret = 0 then some ({ db with h := h }, k)
  else
    some ({ h := h
            keyCount := db.keyCount + 1
            expiryCount := if expiration > 0 then db.expiryCount + 1 else db.expiryCount }, k)

def get (now : Int) : Option (KhashDb × Option Nat) := do
  let k ← khGet acX31HashString fuel db.h key
  if k ≠ db.h.nBuckets then
    if (db.h.vals k).Expired now then
      some ({ h := khDel db.h k
              keyCount := db.keyCount - 1
              expiryCount := db.expiryCount - 1 }, none)
    else some (db, some k)
  else some (db, none)

def exist : Option Bool := do
  let k ← khGet acX31HashString fuel db.h key
  some (decide (k ≠ db.h.nBuckets) && !db.h.flags.acIseither k)

def delete : Option KhashDb := do
  let k ← khGet acX31HashString fuel db.h key
  if k ≠ db.h.nBuckets then some { db with h := khDel db.h k, keyCount := db.keyCount - 1 }
  else some db

/-- Change the list of a value through its pointer. -/
def setList (k : Nat) (xs : List Bytes) : KhashDb :=
  { db with
    h := db.h.write k (db.h.keys k) { db.h.vals k with data := .list xs } }

def push (side : List Bytes → Bytes → List Bytes × Int) (created : Int) (item : Bytes) (now : Int) :
    Option (KhashDb × Except DbError Int) := do
  let (db, found) ← db.get fuel key now
  match found with
  | some k =>
      match (db.h.vals k).data with
      | .list xs => some (db.setList k (side xs item).1, .ok (side xs item).2)
      | .str _ => some (db, .error .typeMismatch)
  | none =>
      let (db, k) ← db.set fuel key (.list []) created
      some (db.setList k (side [] item).1, .ok (side [] item).2)

def range (start stop now : Int) :
    Option (KhashDb × Except DbError (Option (List Bytes) × Int)) := do
  let (db, found) ← db.get fuel key now
  match found with
  | some k =>
      match (db.h.vals k).data with
      | .list xs => some (db, .ok (lrange xs start stop))
      | .str _ => some (db, .error .typeMismatch)
  | none => some (db, .error .keyNotFound)

end Operations

def step (fuel : Nat) (db : KhashDb) : DbCall → Option (KhashDb × DbResult)
  | .set key value expiration => do
      let (db, _) ← db.set fuel key (.str value) expiration
      some (db, .done)
  | .get key now => do
      let (db, found) ← db.get fuel key now
      some (db, .value (found.map db.h.vals))
  | .exist key => do
      let present ← db.exist fuel key
      some (db, .present present)
  | .delete key => do
      let db ← db.delete fuel key
      some (db, .done)
  | .lpush key item now => do
      let (db, pushed) ← db.push fuel key lpush (-1) item now
      some (db, .pushed pushed)
  | .rpush key item now => do
      let (db, pushed) ← db.push fuel key rpush 0 item now
      some (db, .pushed pushed)
  | .lrange key start stop now => do
      let (db, range) ← db.range fuel key start stop now
      some (db, .range range)

/-- The store with a finite table that this one stands for. The number of buckets
is bounded by the number of keys that it may have had at a time. -/
structure Refines (most : Nat) (db : KhashDb) (a : RedisDb) : Prop where
  sound : db.h.Sound acX31HashString
  content_eq : db.h.content = Table.listing a.h
  keyCount_eq : db.keyCount = a.keyCount
  expiryCount_eq : db.expiryCount = a.expiryCount
  buckets_le : db.h.nBuckets ≤ max 4 (4 * most)

theorem Refines.size_eq {most : Nat} {db : KhashDb} {a : RedisDb} (h : db.Refines most a) :
    db.h.size = Table.size a.h := by
  rw [← h.sound.card_content, h.content_eq, Table.listing, Multiset.coe_card, List.length_map]
  rfl

section Steps

variable {fuel most : Nat} (hFuel : 2 ^ 31 ≤ fuel) (hMost : most < 2 ^ 30) {db : KhashDb}
  {a : RedisDb} (h : Refines most db a) (key : Bytes)

include hFuel h

include hMost in
theorem Refines.set (hSize : db.h.size ≤ most) (data : RedisData) (expiration : Int) :
    ∃ db' k, db.set fuel key data expiration = some (db', k) ∧
      Refines most db' (a.set key data expiration) ∧ k ∈ db'.h.live ∧ db'.h.keys k = key ∧
      db'.h.vals k = ⟨data, expiration⟩ := by
  obtain ⟨i, hGet, -⟩ := h.sound.khGet_spec hFuel key
  obtain ⟨h', k, ret, hPut, hSound, hContent, hk, hGrown, hRet⟩ :=
    Khash.Sound.khPut_insert h.content_eq h.sound (lt_of_le_of_lt hSize hMost) hFuel key
      ⟨data, expiration⟩
  have hBuckets : h'.nBuckets ≤ max 4 (4 * most) := by
    have hBefore := h.buckets_le
    omega
  have hKey : (h'.write k key ⟨data, expiration⟩).keys k = key := Function.update_self ..
  have hVal : (h'.write k key ⟨data, expiration⟩).vals k = ⟨data, expiration⟩ :=
    Function.update_self ..
  rw [KhashDb.set, hGet, hPut]
  simp only [Option.bind_eq_bind, Option.bind_some]
  rw [RedisDb.set]
  cases hFind : a.h.lookup key with
  | some v =>
      rw [if_pos (hRet.mpr (by rw [hFind]; rfl))]
      exact ⟨_, k, rfl, ⟨hSound, hContent, h.keyCount_eq, h.expiryCount_eq, hBuckets⟩, hk, hKey, hVal⟩
  | none =>
      have hNew : ret ≠ 0 := by
        intro hZero
        have hThere := hRet.mp hZero
        rw [hFind] at hThere
        cases hThere
      rw [if_neg hNew]
      refine ⟨_, k, rfl, ⟨hSound, hContent, ?_, ?_, hBuckets⟩, hk, hKey, hVal⟩
      · exact congrArg (· + 1) h.keyCount_eq
      · dsimp only
        rw [h.expiryCount_eq]

/-- A value that is found is given by its bucket. -/
theorem Refines.get (now : Int) :
    ∃ db' found, db.get fuel key now = some (db', found) ∧ Refines most db' (a.get key now).1 ∧
      db'.h.size ≤ db.h.size ∧ found.map db'.h.vals = (a.get key now).2 ∧
      ∀ k ∈ found, k ∈ db'.h.live ∧ db'.h.keys k = key := by
  obtain ⟨i, hGet, hCases⟩ := Khash.Sound.khGet_lookup h.content_eq h.sound hFuel key
  rw [KhashDb.get, hGet]
  simp only [Option.bind_eq_bind, Option.bind_some]
  rw [RedisDb.get]
  rcases hCases with ⟨hi, hKey, hFind⟩ | ⟨hEnd, hFind⟩
  · have hThere : i ≠ db.h.nBuckets := by
      have hLess := (db.h.flags.mem_live.mp hi).1
      omega
    simp only [hFind]
    rw [if_pos hThere]
    by_cases hExpired : (db.h.vals i).Expired now
    · obtain ⟨hSound, hContent⟩ := Khash.Sound.khDel_erase h.content_eq h.sound hi
      rw [if_pos hExpired, if_pos hExpired]
      rw [hKey] at hContent
      refine ⟨_, none, rfl, ⟨hSound, hContent, ?_, ?_, ?_⟩, ?_, rfl, fun k hk => by cases hk⟩
      · exact congrArg (· - 1) h.keyCount_eq
      · exact congrArg (· - 1) h.expiryCount_eq
      · rw [Khash.nBuckets_khDel]
        exact h.buckets_le
      · have hCard := congrArg Multiset.card (h.sound.khDel_spec hi).2
        rw [Multiset.card_cons, h.sound.card_content, hSound.card_content] at hCard
        dsimp only
        omega
    · rw [if_neg hExpired, if_neg hExpired]
      refine ⟨db, some i, rfl, h, le_refl _, rfl, fun k hk => ?_⟩
      obtain rfl := Option.mem_some.mp hk
      exact ⟨hi, hKey⟩
  · simp only [hFind]
    rw [if_neg (not_not_intro hEnd)]
    exact ⟨db, none, rfl, h, le_refl _, rfl, fun k hk => by cases hk⟩

theorem Refines.exist : db.exist fuel key = some (a.exist key) := by
  obtain ⟨i, hGet, hCases⟩ := Khash.Sound.khGet_lookup h.content_eq h.sound hFuel key
  rw [KhashDb.exist, hGet, RedisDb.exist]
  simp only [Option.bind_eq_bind, Option.bind_some]
  rcases hCases with ⟨hi, -, hFind⟩ | ⟨hEnd, hFind⟩
  · have hThere : i ≠ db.h.nBuckets := by
      have hLess := (db.h.flags.mem_live.mp hi).1
      omega
    have hNeither : db.h.flags.acIseither i = false := (Finset.mem_filter.mp hi).2
    simp [hFind, hThere, hNeither]
  · simp [hFind, hEnd]

theorem Refines.delete :
    ∃ db', db.delete fuel key = some db' ∧ Refines most db' (a.delete key) := by
  obtain ⟨i, hGet, hCases⟩ := Khash.Sound.khGet_lookup h.content_eq h.sound hFuel key
  rw [KhashDb.delete, hGet, RedisDb.delete]
  simp only [Option.bind_eq_bind, Option.bind_some]
  rcases hCases with ⟨hi, hKey, hFind⟩ | ⟨hEnd, hFind⟩
  · have hThere : i ≠ db.h.nBuckets := by
      have hLess := (db.h.flags.mem_live.mp hi).1
      omega
    obtain ⟨hSound, hContent⟩ := Khash.Sound.khDel_erase h.content_eq h.sound hi
    rw [hKey] at hContent
    simp only [hFind]
    rw [if_pos hThere]
    refine ⟨_, rfl, ⟨hSound, hContent, congrArg (· - 1) h.keyCount_eq, h.expiryCount_eq, ?_⟩⟩
    rw [Khash.nBuckets_khDel]
    exact h.buckets_le
  · simp only [hFind]
    rw [if_neg (not_not_intro hEnd)]
    exact ⟨db, rfl, h⟩

omit hFuel in
/-- Writing through the pointer to a value replaces the value of its key. -/
theorem Refines.setList {k : Nat} (hk : k ∈ db.h.live) (xs : List Bytes) :
    Refines most (db.setList k xs) (a.setList (db.h.keys k) (db.h.vals k) xs) := by
  obtain ⟨hSound, hWrite⟩ := h.sound.write hk rfl { db.h.vals k with data := .list xs }
  refine ⟨hSound, ?_, h.keyCount_eq, h.expiryCount_eq, h.buckets_le⟩
  have hFound := Khash.lookup_of_live h.content_eq hk
  refine (hWrite (Table.listing (a.h.erase (db.h.keys k))) ?_).trans (Table.listing_insert ..).symm
  rw [h.content_eq]
  exact Table.listing_erase hFound

include hMost in
theorem Refines.push (hSize : db.h.size ≤ most)
    (side : List Bytes → Bytes → List Bytes × Int) (created : Int) (item : Bytes) (now : Int) :
    ∃ db', db.push fuel key side created item now = some (db', (a.push side created key item now).2) ∧
      Refines most db' (a.push side created key item now).1 := by
  obtain ⟨m, found, hGet, hRefines, hLess, hValue, hBucket⟩ := h.get hFuel key now
  rw [KhashDb.push, hGet, RedisDb.push, redisDbGet]
  simp only [Option.bind_eq_bind, Option.bind_some]
  generalize a.get key now = b at hRefines hValue
  obtain ⟨b, value⟩ := b
  subst hValue
  cases found with
  | some k =>
      obtain ⟨hk, rfl⟩ := hBucket k rfl
      simp only [Option.map_some]
      cases hData : (m.h.vals k).data with
      | list xs => exact ⟨_, rfl, hRefines.setList hk _⟩
      | str s => exact ⟨m, rfl, hRefines⟩
  | none =>
      obtain ⟨n, k, hSet, hNew, hk, rfl, hVal⟩ :=
        hRefines.set hFuel hMost key (hLess.trans hSize) (.list []) created
      have hList := hNew.setList hk (side [] item).1
      rw [hVal] at hList
      simp only [Option.map_none, hSet, Option.bind_some]
      exact ⟨_, rfl, hList⟩

theorem Refines.range (start stop now : Int) :
    ∃ db', db.range fuel key start stop now = some (db', (redisDbLrange a key start stop now).2) ∧
      Refines most db' (redisDbLrange a key start stop now).1 := by
  obtain ⟨m, found, hGet, hRefines, -, hValue, -⟩ := h.get hFuel key now
  rw [KhashDb.range, hGet, redisDbLrange]
  simp only [Option.bind_eq_bind, Option.bind_some]
  generalize a.get key now = b at hRefines hValue
  obtain ⟨b, value⟩ := b
  subst hValue
  cases found with
  | some k =>
      simp only [Option.map_some]
      cases hData : (m.h.vals k).data with
      | list xs => exact ⟨m, rfl, hRefines⟩
      | str s => exact ⟨m, rfl, hRefines⟩
  | none => exact ⟨m, rfl, hRefines⟩

include hMost in
/-- Each call returns what the store with a finite table returns. -/
theorem Refines.step (call : DbCall) (hSize : Table.size a.h ≤ most) :
    ∃ db', db.step fuel call = some (db', (a.step call).2) ∧ Refines most db' (a.step call).1 := by
  rw [← h.size_eq] at hSize
  cases call with
  | set key value expiration =>
      obtain ⟨db', k, hRun, hDone, -⟩ := h.set hFuel hMost key hSize (.str value) expiration
      exact ⟨db', by rw [KhashDb.step, hRun]; rfl, hDone⟩
  | get key now =>
      obtain ⟨db', found, hRun, hDone, -, hValue, -⟩ := h.get hFuel key now
      refine ⟨db', ?_, hDone⟩
      rw [KhashDb.step, hRun]
      exact congrArg (fun v => some (db', DbResult.value v)) hValue
  | exist key => exact ⟨db, by rw [KhashDb.step, h.exist hFuel key]; rfl, h⟩
  | delete key =>
      obtain ⟨db', hRun, hDone⟩ := h.delete hFuel key
      exact ⟨db', by rw [KhashDb.step, hRun]; rfl, hDone⟩
  | lpush key item now =>
      obtain ⟨db', hRun, hDone⟩ := h.push hFuel hMost key hSize lpush (-1) item now
      exact ⟨db', by rw [KhashDb.step, hRun]; rfl, hDone⟩
  | rpush key item now =>
      obtain ⟨db', hRun, hDone⟩ := h.push hFuel hMost key hSize rpush 0 item now
      exact ⟨db', by rw [KhashDb.step, hRun]; rfl, hDone⟩
  | lrange key start stop now =>
      obtain ⟨db', hRun, hDone⟩ := h.range hFuel key start stop now
      exact ⟨db', by rw [KhashDb.step, hRun]; rfl, hDone⟩

end Steps

theorem refines_create (most : Nat) (keys : Nat → Bytes) (vals : Nat → RedisValue) :
    Refines most (create keys vals) redisDbCreate where
  sound := Khash.sound_khInit acX31HashString keys vals
  content_eq := rfl
  keyCount_eq := rfl
  expiryCount_eq := rfl
  buckets_le := Nat.zero_le _

/-- Before each call of the run there are at most this many keys. -/
def AtMost (most : Nat) (calls : List DbCall) : Prop :=
  AllSteps RedisDb.step (fun db _ => Table.size db.h ≤ most) redisDbCreate calls

theorem run_refines {fuel most : Nat} (hFuel : 2 ^ 31 ≤ fuel) (hMost : most < 2 ^ 30)
    {calls : List DbCall} (hCalls : AtMost most calls) (keys : Nat → Bytes)
    (vals : Nat → RedisValue) :
    ∃ db, runOption (KhashDb.step fuel) (create keys vals) calls =
        some (db, (run RedisDb.step redisDbCreate calls).2) ∧
      Refines most db (run RedisDb.step redisDbCreate calls).1 :=
  runOption_simulation (fun _ _ call h hSize => h.step hFuel hMost call hSize)
    (refines_create most keys vals) hCalls

/-- As long as there are fewer than `2 ^ 30` keys, every call comes back, with what
the store with a finite table returns. The counters are the same, and a walk over
the buckets meets the entries of the table, each once. -/
theorem run_step_eq {fuel most : Nat} (hFuel : 2 ^ 31 ≤ fuel) (hMost : most < 2 ^ 30)
    {calls : List DbCall} (hCalls : AtMost most calls) (keys : Nat → Bytes)
    (vals : Nat → RedisValue) :
    ∃ db, runOption (KhashDb.step fuel) (create keys vals) calls =
        some (db, (run RedisDb.step redisDbCreate calls).2) ∧
      db.h.entries.Perm
        ((run RedisDb.step redisDbCreate calls).1.h.entries.map fun e => (e.1, e.2)) ∧
      db.keyCount = (run RedisDb.step redisDbCreate calls).1.keyCount ∧
      db.expiryCount = (run RedisDb.step redisDbCreate calls).1.expiryCount := by
  obtain ⟨db, hRun, hDone⟩ := run_refines hFuel hMost hCalls keys vals
  refine ⟨db, hRun, ?_, hDone.keyCount_eq, hDone.expiryCount_eq⟩
  rw [← Multiset.coe_eq_coe, Khash.coe_entries]
  exact hDone.content_eq

/-- Keys that are set, deleted and set again. -/
def reusedKeys : List DbCall :=
  [.set [97] [1] 0, .delete [97], .rpush [98] [2] 5, .set [97] [3] 9, .get [97] 10]

theorem atMost_reusedKeys : AtMost 2 reusedKeys :=
  ⟨by decide, by decide, by decide, by decide, by decide, trivial⟩

theorem run_step_eq_reusedKeys :
    ∃ db, runOption (KhashDb.step (2 ^ 31)) (create (fun _ => []) fun _ => ⟨.str [], 0⟩) reusedKeys =
        some (db, (run RedisDb.step redisDbCreate reusedKeys).2) ∧
      db.h.entries.Perm
        ((run RedisDb.step redisDbCreate reusedKeys).1.h.entries.map fun e => (e.1, e.2)) ∧
      db.keyCount = (run RedisDb.step redisDbCreate reusedKeys).1.keyCount ∧
      db.expiryCount = (run RedisDb.step redisDbCreate reusedKeys).1.expiryCount :=
  run_step_eq (le_refl _) (by decide) atMost_reusedKeys _ _

/-- The number of buckets is bounded by four times the largest number of keys that
the store had at a time: deleted buckets do not make the table grow. At most 77
percent of the buckets are in use, deleted ones included. -/
theorem nBuckets_le_of_atMost {fuel most : Nat} (hFuel : 2 ^ 31 ≤ fuel) (hMost : most < 2 ^ 30)
    {calls : List DbCall} (hCalls : AtMost most calls) (keys : Nat → Bytes)
    (vals : Nat → RedisValue) :
    ∃ db results, runOption (KhashDb.step fuel) (create keys vals) calls = some (db, results) ∧
      db.h.nBuckets ≤ max 4 (4 * most) ∧
      100 * (db.h.flags.used db.h.nBuckets).card ≤ 77 * db.h.nBuckets + 50 := by
  obtain ⟨db, hRun, hDone⟩ := run_refines hFuel hMost hCalls keys vals
  refine ⟨db, _, hRun, hDone.buckets_le, ?_⟩
  have hRoom := hDone.sound.room
  rw [hDone.sound.occupied_eq, hDone.sound.upper_eq, acHashUpper] at hRoom
  rw [Khash.used] at hRoom
  omega

theorem nBuckets_le_reusedKeys :
    ∃ db results, runOption (KhashDb.step (2 ^ 31)) (create (fun _ => []) fun _ => ⟨.str [], 0⟩)
        reusedKeys = some (db, results) ∧
      db.h.nBuckets ≤ max 4 (4 * 2) ∧
      100 * (db.h.flags.used db.h.nBuckets).card ≤ 77 * db.h.nBuckets + 50 :=
  nBuckets_le_of_atMost (le_refl _) (by decide) atMost_reusedKeys _ _

end KhashDb

end RedisServer
