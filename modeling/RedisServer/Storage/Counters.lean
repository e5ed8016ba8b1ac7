import RedisServer.Storage.KeyMap

/-! The two hand-maintained counters of the store. The key counter is right in
every reachable state. The expiry counter is right exactly as long as no call
changes whether a stored key has a deadline, or deletes a key that has one. -/
namespace RedisServer

open Machine

theorem ofNat_succ_sub_one (n : Nat) : UInt64.ofNat (n + 1) - 1 = UInt64.ofNat n := by
  rw [UInt64.ofNat_add]
  exact UInt64.add_sub_cancel _ _

/-- Counts that differ by at most one are told apart by a 64-bit counter. -/
theorem ofNat_add_eq_iff (n a b : Nat) (ha : a ≤ 1) (hb : b ≤ 1) :
    UInt64.ofNat (n + a) = UInt64.ofNat (n + b) ↔ a = b := by
  constructor
  · intro h
    have hMod : (n + a) % 2 ^ 64 = (n + b) % 2 ^ 64 := by
      simpa using congrArg UInt64.toNat h
    omega
  · rintro rfl
    rfl

/-- The condition under which an entry counts as one with an expiry. -/
def RedisValue.hasDeadline (v : RedisValue) : Bool := decide (0 < v.expiration)

namespace RedisDb

def KeyCounted (db : RedisDb) : Prop := db.keyCount = UInt64.ofNat (Table.size db.h)

def ExpiryCounted (db : RedisDb) : Prop :=
  db.expiryCount = UInt64.ofNat (Table.count RedisValue.hasDeadline db.h)

instance (db : RedisDb) : Decidable db.ExpiryCounted := inferInstanceAs (Decidable (_ = _))

section Counts

variable {db : RedisDb} {key : Bytes} {v w : RedisValue} (p : RedisValue → Bool)

theorem count_insert_new (h : db.h.lookup key = none) :
    Table.count p (db.h.insert key v) = Table.count p db.h + if p v then 1 else 0 := by
  rw [Table.count_insert, Table.erase_of_lookup_eq_none h]

theorem size_insert_new (h : db.h.lookup key = none) :
    Table.size (db.h.insert key v) = Table.size db.h + 1 := by
  rw [Table.size_eq_count, Table.size_eq_count, count_insert_new _ h]
  rfl

theorem size_insert_present (h : db.h.lookup key = some w) :
    Table.size (db.h.insert key v) = Table.size db.h := by
  rw [Table.size_eq_count, Table.size_eq_count, Table.count_insert,
    Table.count_erase_of_lookup _ h]

theorem size_erase_present (h : db.h.lookup key = some w) :
    Table.size db.h = Table.size (db.h.erase key) + 1 := by
  rw [Table.size_eq_count, Table.size_eq_count, Table.count_erase_of_lookup _ h]
  rfl

end Counts

section KeyCount

variable {db : RedisDb}

theorem KeyCounted.set (h : db.KeyCounted) (key : Bytes) (data : RedisData) (expiration : Int) :
    (db.set key data expiration).KeyCounted := by
  unfold RedisDb.set KeyCounted
  cases hFind : db.h.lookup key with
  | some w => exact h.trans (congrArg UInt64.ofNat (size_insert_present hFind).symm)
  | none =>
      dsimp only
      rw [size_insert_new hFind, h, UInt64.ofNat_add]
      rfl

theorem KeyCounted.delete (h : db.KeyCounted) (key : Bytes) : (db.delete key).KeyCounted := by
  unfold RedisDb.delete KeyCounted
  cases hFind : db.h.lookup key with
  | some w =>
      dsimp only
      rw [h, size_erase_present hFind, ofNat_succ_sub_one]
  | none => exact h

theorem KeyCounted.get (h : db.KeyCounted) (key : Bytes) (now : Int) :
    (db.get key now).1.KeyCounted := by
  unfold RedisDb.get
  cases hFind : db.h.lookup key with
  | none => exact h
  | some w =>
      dsimp only
      split
      · unfold KeyCounted
        dsimp only
        rw [h, size_erase_present hFind, ofNat_succ_sub_one]
      · exact h

theorem KeyCounted.setList (h : db.KeyCounted) {key : Bytes} {w : RedisValue}
    (hFind : db.h.lookup key = some w) (value : RedisValue) (xs : List Bytes) :
    (db.setList key value xs).KeyCounted :=
  h.trans (congrArg UInt64.ofNat (size_insert_present hFind).symm)

end KeyCount

section ExpiryCount

variable {db : RedisDb}

/-- Storing over a key whose deadline status stays the same keeps the count.
Every other overwrite leaves the counter one off. -/
theorem ExpiryCounted.set_iff (h : db.ExpiryCounted) (key : Bytes) (data : RedisData)
    (expiration : Int) :
    (db.set key data expiration).ExpiryCounted ↔
      ∀ v, db.h.lookup key = some v → (0 < v.expiration ↔ 0 < expiration) := by
  unfold RedisDb.set
  cases hFind : db.h.lookup key with
  | none =>
      refine iff_of_true ?_ (by simp)
      unfold ExpiryCounted
      dsimp only
      rw [count_insert_new _ hFind]
      by_cases hPos : 0 < expiration
      · simp only [RedisValue.hasDeadline, hPos, decide_true, ↓reduceIte]
        rw [h, UInt64.ofNat_add]
        rfl
      · simp only [RedisValue.hasDeadline, hPos, decide_false, ↓reduceIte,
          Bool.false_eq_true, Nat.add_zero]
        exact h
  | some v =>
      unfold ExpiryCounted
      dsimp only
      rw [h, Table.count_insert, Table.count_erase_of_lookup _ hFind,
        ofNat_add_eq_iff _ _ _ (by split <;> omega) (by split <;> omega)]
      simp only [RedisValue.hasDeadline, decide_eq_true_eq, Option.some.injEq, forall_eq']
      by_cases hv : 0 < v.expiration <;> by_cases he : 0 < expiration <;> simp [hv, he]

theorem ExpiryCounted.delete_iff (h : db.ExpiryCounted) (key : Bytes) :
    (db.delete key).ExpiryCounted ↔ ∀ v, db.h.lookup key = some v → ¬0 < v.expiration := by
  unfold RedisDb.delete
  cases hFind : db.h.lookup key with
  | none => exact iff_of_true h (by simp)
  | some v =>
      unfold ExpiryCounted
      dsimp only
      have hErase := Table.count_erase_of_lookup RedisValue.hasDeadline hFind
      have hKeep := ofNat_add_eq_iff (Table.count RedisValue.hasDeadline (db.h.erase key))
        (if v.hasDeadline then 1 else 0) 0 (by split <;> omega) (by omega)
      rw [h, hErase]
      rw [Nat.add_zero] at hKeep
      rw [hKeep]
      simp [RedisValue.hasDeadline]

/-- An expired entry has a deadline, so removing it lowers the count by the
one that the lookup subtracts. -/
theorem ExpiryCounted.get (h : db.ExpiryCounted) (key : Bytes) (now : Int) :
    (db.get key now).1.ExpiryCounted := by
  unfold RedisDb.get
  cases hFind : db.h.lookup key with
  | none => exact h
  | some v =>
      dsimp only
      split
      · rename_i hExpired
        have hDeadline : v.hasDeadline = true := decide_eq_true hExpired.1
        have hErase := Table.count_erase_of_lookup RedisValue.hasDeadline hFind
        rw [hDeadline] at hErase
        unfold ExpiryCounted
        dsimp only
        rw [h, hErase]
        exact ofNat_succ_sub_one _
      · exact h

theorem ExpiryCounted.setList (h : db.ExpiryCounted) {key : Bytes} {value : RedisValue}
    (hFind : db.h.lookup key = some value) (xs : List Bytes) :
    (db.setList key value xs).ExpiryCounted := by
  unfold RedisDb.setList ExpiryCounted
  dsimp only
  rw [h, Table.count_insert, Table.count_erase_of_lookup _ hFind]
  rfl

end ExpiryCount

/-- The value a lookup returns is the one in the table it leaves behind. -/
theorem lookup_of_get {db next : RedisDb} {key : Bytes} {now : Int} {value : Option RedisValue}
    (h : db.get key now = (next, value)) : next.h.lookup key = value := by
  have hSpec := db.get_spec key now
  rw [h] at hSpec
  exact (congrFun hSpec.1 key).trans hSpec.2.symm

/-- What is kept by a lookup, by creating a list under a fresh key and by
changing a stored list is kept by a push. -/
theorem push_preserves {I : RedisDb → Prop} (created : Int)
    (hGet : ∀ db key now, I db → I (db.get key now).1)
    (hCreate : ∀ db key, I db → db.h.lookup key = none → I (db.set key (.list []) created))
    (hList : ∀ db key old deadline xs, I db → db.h.lookup key = some ⟨.list old, deadline⟩ →
      I (db.setList key ⟨.list old, deadline⟩ xs))
    (side : List Bytes → Bytes → List Bytes × Int) (db : RedisDb) (key item : Bytes) (now : Int)
    (h : I db) : I (db.push side created key item now).1 := by
  have hNext := hGet db key now h
  unfold push redisDbGet
  generalize hFound : db.get key now = found at hNext
  obtain ⟨next, value⟩ := found
  have hLookup := lookup_of_get hFound
  cases value with
  | none =>
      apply hList _ _ _ _ _ (hCreate next key hNext hLookup)
      exact (congrFun (next.toMap_set key (.list []) created) key).trans (Function.update_self ..)
  | some value =>
      obtain ⟨data, deadline⟩ := value
      cases data with
      | str s => exact hNext
      | list xs => exact hList _ _ _ _ _ hNext hLookup

theorem lrange_fst (db : RedisDb) (key : Bytes) (start stop now : Int) :
    (redisDbLrange db key start stop now).1 = (db.get key now).1 := by
  unfold redisDbLrange
  generalize db.get key now = found
  obtain ⟨next, value⟩ := found
  cases value with
  | none => rfl
  | some value =>
      obtain ⟨data, deadline⟩ := value
      cases data <;> rfl

theorem KeyCounted.step {db : RedisDb} (h : db.KeyCounted) (call : DbCall) :
    (db.step call).1.KeyCounted := by
  have hPush := fun side created => push_preserves (I := KeyCounted) created
    (fun _ key now h => h.get key now) (fun _ key h _ => h.set key (.list []) created)
    (fun _ _ _ _ xs h hFind => h.setList hFind _ xs) side db
  cases call with
  | set key value expiration => exact h.set key _ expiration
  | get key now => exact h.get key now
  | exist key => exact h
  | delete key => exact h.delete key
  | lpush key item now => exact hPush lpush (-1) key item now h
  | rpush key item now => exact hPush rpush 0 key item now h
  | lrange key start stop now =>
      change (redisDbLrange db key start stop now).1.KeyCounted
      rw [lrange_fst]
      exact h.get key now

/-- The calls that leave the expiry counter right: a `set` that does not
change whether the key has a deadline, a `delete` of a key without one, and
every call of the other kinds. -/
def KeepsExpiryCount (db : RedisDb) : DbCall → Prop
  | .set key _ expiration => ∀ v, db.h.lookup key = some v → (0 < v.expiration ↔ 0 < expiration)
  | .delete key => ∀ v, db.h.lookup key = some v → ¬0 < v.expiration
  | _ => True

theorem expiryCounted_step_iff (db : RedisDb) (call : DbCall) (h : db.ExpiryCounted) :
    (db.step call).1.ExpiryCounted ↔ db.KeepsExpiryCount call := by
  have hPush := fun side created (hCreated : created ≤ 0) =>
    push_preserves (I := ExpiryCounted) created
      (fun _ key now h => h.get key now)
      (fun _ key h hFind => (h.set_iff key (.list []) created).mpr (by simp [hFind]))
      (fun _ _ _ _ xs h hFind => h.setList hFind xs) side db
  cases call with
  | set key value expiration => exact h.set_iff key _ expiration
  | get key now => exact iff_of_true (h.get key now) trivial
  | exist key => exact iff_of_true h trivial
  | delete key => exact h.delete_iff key
  | lpush key item now => exact iff_of_true (hPush lpush (-1) (by omega) key item now h) trivial
  | rpush key item now => exact iff_of_true (hPush rpush 0 (by omega) key item now h) trivial
  | lrange key start stop now =>
      refine iff_of_true ?_ trivial
      change (redisDbLrange db key start stop now).1.ExpiryCounted
      rw [lrange_fst]
      exact h.get key now

/-- Every run of calls from the empty store answers as the map with lazy
expiry does and ends in a store that stands for the same map, with the key
counter equal to the number of its entries. -/
theorem store_refines_map (calls : List DbCall) :
    let last := (run step redisDbCreate calls).1
    (run step redisDbCreate calls).2 = (run KeyMap.step (fun _ => none) calls).2 ∧
      last.toMap = (run KeyMap.step (fun _ => none) calls).1 ∧
      redisDbDbsize last =
        UInt64.ofNat (Set.ncard {key | ((run KeyMap.step (fun _ => none) calls).1 key).isSome}) := by
  have hStart : redisDbCreate.toMap = (fun _ => none) ∧ redisDbCreate.KeyCounted :=
    ⟨funext fun key => AList.lookup_empty key, rfl⟩
  have hStep : ∀ (db : RedisDb) (m : KeyMap) (call : DbCall),
      (db.toMap = m ∧ db.KeyCounted) → True →
        ((db.step call).1.toMap = (m.step call).1 ∧ (db.step call).1.KeyCounted) ∧
          (db.step call).2 = (m.step call).2 := by
    rintro db m call ⟨rfl, hCount⟩ -
    obtain ⟨hMap, hResult⟩ := db.step_toMap call
    exact ⟨⟨hMap, hCount.step call⟩, hResult⟩
  obtain ⟨⟨hMap, hCount⟩, hResults⟩ :=
    run_simulation (P := fun _ _ => True) hStep hStart (allSteps_true _ calls)
  refine ⟨hResults, hMap, ?_⟩
  rw [redisDbDbsize, hCount, Table.size_eq_ncard, ← hMap]
  rfl

/-- In a run from the empty store the expiry counter is right in every state
exactly when each call, in the state in which it is made, is one of those that
keep it. -/
theorem expiryCount_throughout_iff (calls : List DbCall) :
    Throughout step ExpiryCounted redisDbCreate calls ↔
      AllSteps step KeepsExpiryCount redisDbCreate calls := by
  have hStart : redisDbCreate.ExpiryCounted := rfl
  exact throughout_iff_allSteps expiryCounted_step_iff hStart calls

/-- Setting a key with a deadline and deleting it leaves a count of one. -/
theorem expiryCount_wrong_after_delete :
    ¬Throughout step ExpiryCounted redisDbCreate [.set [107] [118] 5, .delete [107]] := by
  intro h
  exact absurd h.last (by decide)

end RedisDb

end RedisServer
