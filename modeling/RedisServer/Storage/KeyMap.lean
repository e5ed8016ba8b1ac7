import RedisServer.Storage.Database

/-! What the store is for: a map from keys to values in which an entry whose
deadline has passed is dropped when it is next looked at. The store refines
this map, and its two counters are compared with the entries they count. -/
namespace RedisServer

open Machine

abbrev KeyMap := Bytes → Option RedisValue

namespace KeyMap

/-- Forget the entry at `key` if its deadline has passed. -/
def dropExpired (m : KeyMap) (key : Bytes) (now : Int) : KeyMap :=
  match m key with
  | some v => if v.Expired now then Function.update m key none else m
  | none => m

/-- Extend the list at `key`, or start one with deadline `created`. -/
def push (extend : List Bytes → List Bytes) (created : Int) (m : KeyMap) (key : Bytes) (now : Int) :
    KeyMap × Except DbError Int :=
  let m := m.dropExpired key now
  match m key with
  | none => (Function.update m key (some ⟨.list (extend []), created⟩), .ok 1)
  | some ⟨.list xs, deadline⟩ =>
      (Function.update m key (some ⟨.list (extend xs), deadline⟩), .ok (toInt32 (xs.length + 1)))
  | some ⟨.str _, _⟩ => (m, .error .typeMismatch)

/-- The `int` in which a position is held. -/
def position (length : Nat) (index : Int) : Int :=
  if index < 0 then toInt32 (listPosition length index) else index

/-- The elements at the positions from `start` to `stop`, and how many they are. Positions
and the number of elements are held in `int`s. -/
def range (xs : List Bytes) (start stop : Int) : Option (List Bytes) × Int :=
  let first := position xs.length start
  let stop := position xs.length stop
  if 0 ≤ first ∧ first < xs.length ∧ first ≤ stop then
    let last := if stop < xs.length then stop else toInt32 (xs.length - 1)
    let elements := elementsBetween xs first (first + toInt32 (last - first + 1) - 1)
    (some elements, elements.length)
  else (none, 0)

def step (m : KeyMap) : DbCall → KeyMap × DbResult
  | .set key value expiration => (Function.update m key (some ⟨.str value, expiration⟩), .done)
  | .get key now => (m.dropExpired key now, .value (m.dropExpired key now key))
  | .exist key => (m, .present (m key).isSome)
  | .delete key => (Function.update m key none, .done)
  | .lpush key item now =>
      let pushed := m.push (fun xs => item :: xs) (-1) key now
      (pushed.1, .pushed pushed.2)
  | .rpush key item now =>
      let pushed := m.push (fun xs => xs ++ [item]) 0 key now
      (pushed.1, .pushed pushed.2)
  | .lrange key start stop now =>
      let m := m.dropExpired key now
      (m, .range (match m key with
        | none => .error .keyNotFound
        | some ⟨.list xs, _⟩ => .ok (range xs start stop)
        | some ⟨.str _, _⟩ => .error .typeMismatch))

section Ranges

variable (xs : List Bytes) (start stop : Int)

/-- What `lrange` selects are the elements between two positions. -/
theorem lrange_eq_range : lrange xs start stop = range xs start stop := by
  have hPosition (index : Int) : (if index < 0 then toInt32 (xs.length + index) else index) =
      position xs.length index := by
    unfold position listPosition
    split <;> rfl
  unfold lrange range
  simp only [hPosition]
  generalize position xs.length start = first
  generalize position xs.length stop = stop
  by_cases hInside : 0 ≤ first ∧ first < xs.length ∧ first ≤ stop
  · have hLast : (if stop ≥ xs.length then toInt32 (xs.length - 1) else stop) =
        if stop < xs.length then stop else toInt32 (xs.length - 1) := by
      by_cases hEnd : stop < xs.length
      · rw [if_neg (by omega), if_pos hEnd]
      · rw [if_pos (by omega), if_neg hEnd]
    rw [if_neg (by omega), if_pos hInside, hLast]
    generalize toInt32 ((if stop < xs.length then stop else toInt32 (xs.length - 1)) - first + 1) =
      count
    have hCount : first + count - 1 - first + 1 = count := by omega
    rw [elementsBetween_eq xs first _ hInside.1, hCount]
  · rw [if_neg hInside, if_pos (by omega)]

/-- In a list whose length an `int` can hold, the positions are those of the list. -/
theorem range_eq (hSize : xs.length ≤ 2 ^ 31 - 1) (hStart : -2 ^ 31 ≤ start ∧ start < 2 ^ 31)
    (hStop : -2 ^ 31 ≤ stop ∧ stop < 2 ^ 31) :
    range xs start stop =
      let first := listPosition xs.length start
      let last := listPosition xs.length stop
      if 0 ≤ first ∧ first < xs.length ∧ first ≤ last then
        (some (elementsBetween xs first last), min last (xs.length - 1) - first + 1)
      else (none, 0) := by
  rw [← lrange_eq_range, lrange_eq hSize hStart hStop]

end Ranges

end KeyMap

namespace RedisDb

/-- The map a table stands for. -/
def toMap (db : RedisDb) : KeyMap := fun key => db.h.lookup key

section Operations

variable (db : RedisDb) (key : Bytes)

theorem set_h (data : RedisData) (expiration : Int) :
    (db.set key data expiration).h = db.h.insert key ⟨data, expiration⟩ := by
  unfold set
  split <;> rfl

theorem toMap_set (data : RedisData) (expiration : Int) :
    (db.set key data expiration).toMap =
      Function.update db.toMap key (some ⟨data, expiration⟩) := by
  funext other
  rw [toMap, set_h]
  by_cases h : other = key
  · subst other
    simp
  · rw [AList.lookup_insert_ne h, Function.update_of_ne h]
    rfl

theorem toMap_erase (a b : UInt64) :
    (⟨db.h.erase key, a, b⟩ : RedisDb).toMap = Function.update db.toMap key none := by
  funext other
  by_cases h : other = key
  · subst other
    simp [toMap]
  · rw [Function.update_of_ne h]
    exact AList.lookup_erase_ne h

theorem lookup_set (data : RedisData) (expiration : Int) (other : Bytes) :
    (db.set key data expiration).h.lookup other =
      if other = key then some ⟨data, expiration⟩ else db.h.lookup other := by
  refine (congrFun (db.toMap_set key data expiration) other).trans ?_
  rw [Function.update_apply]
  rfl

theorem toMap_setList (value : RedisValue) (xs : List Bytes) :
    (db.setList key value xs).toMap =
      Function.update db.toMap key (some ⟨.list xs, value.expiration⟩) := by
  funext other
  by_cases h : other = key
  · subst other
    simp [toMap, setList]
  · rw [Function.update_of_ne h]
    exact AList.lookup_insert_ne h

theorem toMap_delete : (db.delete key).toMap = Function.update db.toMap key none := by
  unfold delete
  cases h : db.h.lookup key with
  | some v => exact db.toMap_erase key _ _
  | none =>
      funext other
      by_cases ho : other = key
      · subst other
        simpa [toMap] using h
      · rw [Function.update_of_ne ho]

/-- A lookup is a drop followed by a plain read. -/
theorem get_spec (now : Int) :
    (db.get key now).1.toMap = db.toMap.dropExpired key now ∧
      (db.get key now).2 = db.toMap.dropExpired key now key := by
  unfold get KeyMap.dropExpired
  cases h : db.h.lookup key with
  | none =>
      have hMap : db.toMap key = none := h
      simp only [hMap, and_self]
  | some v =>
      have hMap : db.toMap key = some v := h
      simp only [hMap]
      split
      · exact ⟨db.toMap_erase key _ _, by simp⟩
      · exact ⟨rfl, hMap.symm⟩

/-- A push is a lookup followed by a change of one entry. The side enters
only through the elements it produces and the length it reports. -/
theorem push_spec (side : List Bytes → Bytes → List Bytes × Int) (created : Int) (item : Bytes)
    (now : Int) (hLength : ∀ xs, (side xs item).2 = toInt32 (xs.length + 1)) :
    (db.push side created key item now).1.toMap =
        (db.toMap.push (fun xs => (side xs item).1) created key now).1 ∧
      (db.push side created key item now).2 =
        (db.toMap.push (fun xs => (side xs item).1) created key now).2 := by
  obtain ⟨hMap, hValue⟩ := db.get_spec key now
  unfold push redisDbGet KeyMap.push
  generalize hGet : db.get key now = found at hMap hValue
  obtain ⟨next, value⟩ := found
  dsimp only at hMap hValue ⊢
  rw [← hValue]
  cases value with
  | none =>
      refine ⟨?_, ?_⟩
      · dsimp only
        rw [toMap_setList, toMap_set, hMap, Function.update_idem]
      · exact congrArg Except.ok (hLength [])
  | some value =>
      obtain ⟨data, deadline⟩ := value
      cases data with
      | str s => exact ⟨hMap, rfl⟩
      | list xs =>
          refine ⟨?_, congrArg Except.ok (hLength xs)⟩
          dsimp only
          rw [toMap_setList, hMap]

theorem lrange_spec (start stop now : Int) :
    (redisDbLrange db key start stop now).1.toMap = db.toMap.dropExpired key now ∧
      (redisDbLrange db key start stop now).2 =
        (match db.toMap.dropExpired key now key with
        | none => .error .keyNotFound
        | some ⟨.list xs, _⟩ => .ok (lrange xs start stop)
        | some ⟨.str _, _⟩ => .error .typeMismatch) := by
  obtain ⟨hMap, hValue⟩ := db.get_spec key now
  unfold redisDbLrange
  generalize hGet : db.get key now = found at hMap hValue
  obtain ⟨next, value⟩ := found
  dsimp only at hMap hValue ⊢
  rw [← hValue]
  cases value with
  | none => exact ⟨hMap, rfl⟩
  | some value =>
      obtain ⟨data, deadline⟩ := value
      cases data with
      | str s => exact ⟨hMap, rfl⟩
      | list xs => exact ⟨hMap, rfl⟩

end Operations

/-- Each call changes the map, and answers, as the specification says. -/
theorem step_toMap (db : RedisDb) (call : DbCall) :
    (db.step call).1.toMap = (db.toMap.step call).1 ∧ (db.step call).2 = (db.toMap.step call).2 := by
  cases call with
  | set key value expiration => exact ⟨db.toMap_set key _ expiration, rfl⟩
  | get key now =>
      obtain ⟨hMap, hValue⟩ := db.get_spec key now
      exact ⟨hMap, congrArg DbResult.value hValue⟩
  | exist key => exact ⟨rfl, rfl⟩
  | delete key => exact ⟨db.toMap_delete key, rfl⟩
  | lpush key item now =>
      obtain ⟨hMap, hResult⟩ := db.push_spec key lpush (-1) item now (by simp [RedisServer.lpush])
      exact ⟨hMap, congrArg DbResult.pushed hResult⟩
  | rpush key item now =>
      obtain ⟨hMap, hResult⟩ := db.push_spec key rpush 0 item now (by simp [RedisServer.rpush])
      exact ⟨hMap, congrArg DbResult.pushed hResult⟩
  | lrange key start stop now =>
      obtain ⟨hMap, hResult⟩ := db.lrange_spec key start stop now
      simp only [KeyMap.lrange_eq_range] at hResult
      exact ⟨hMap, congrArg DbResult.range hResult⟩

end RedisDb

end RedisServer
