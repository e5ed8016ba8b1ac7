import RedisServer.Machine.Run
import RedisServer.Machine.Table
import RedisServer.Storage.LinkedList

/-! The key-value store of `database.c`. The hash table is a finite table on
string contents; the order of its entries stands for the order of its buckets,
on which no operation here depends. Strings are their bytes without the
terminator. The clock of `current_time_millis` is an argument. -/
namespace RedisServer

open Machine

/-- The union of a `RedisValue` together with its tag. -/
inductive RedisData where
  | str (s : Bytes)
  | list (xs : List Bytes)
  deriving DecidableEq

structure RedisValue where
  data : RedisData
  expiration : Int
  deriving DecidableEq

/-- The two counters are `size_t` fields that the operations adjust by hand. -/
structure RedisDb where
  h : Table Bytes RedisValue
  keyCount : UInt64
  expiryCount : UInt64

def redisDbCreate : RedisDb := ⟨∅, 0, 0⟩

/-- The lookup test of `get`: the deadline is set and has passed. -/
def RedisValue.Expired (v : RedisValue) (now : Int) : Prop :=
  0 < v.expiration ∧ v.expiration < now

instance (v : RedisValue) (now : Int) : Decidable (v.Expired now) :=
  inferInstanceAs (Decidable (_ ∧ _))

namespace RedisDb

/-- The static `set`. The counters move only when the key was not present. -/
def set (db : RedisDb) (key : Bytes) (data : RedisData) (expiration : Int) : RedisDb :=
  match db.h.lookup key with
  | some _ => { db with h := db.h.insert key ⟨data, expiration⟩ }
  | none =>
      { h := db.h.insert key ⟨data, expiration⟩
        keyCount := db.keyCount + 1
        expiryCount := if expiration > 0 then db.expiryCount + 1 else db.expiryCount }

/-- The static `get`, which removes an entry it finds expired. -/
def get (db : RedisDb) (key : Bytes) (now : Int) : RedisDb × Option RedisValue :=
  match db.h.lookup key with
  | some value =>
      if value.Expired now then
        ({ h := db.h.erase key
           keyCount := db.keyCount - 1
           expiryCount := db.expiryCount - 1 }, none)
      else (db, some value)
  | none => (db, none)

def exist (db : RedisDb) (key : Bytes) : Bool := (db.h.lookup key).isSome

/-- The static `delete`. It leaves the expiry counter alone. -/
def delete (db : RedisDb) (key : Bytes) : RedisDb :=
  match db.h.lookup key with
  | some _ => { db with h := db.h.erase key, keyCount := db.keyCount - 1 }
  | none => db

/-- Change the list that the entry at `key` points to. -/
def setList (db : RedisDb) (key : Bytes) (value : RedisValue) (xs : List Bytes) : RedisDb :=
  { db with h := db.h.insert key { value with data := .list xs } }

end RedisDb

/-- The negative results of the store. -/
inductive DbError where
  | typeMismatch
  | keyNotFound
  deriving DecidableEq

def redisDbSet (db : RedisDb) (key value : Bytes) (expiration : Int) : RedisDb :=
  db.set key (.str value) expiration

def redisDbGet (db : RedisDb) (key : Bytes) (now : Int) : RedisDb × Option RedisValue :=
  db.get key now

def redisDbExist (db : RedisDb) (key : Bytes) : Bool := db.exist key

def redisDbDelete (db : RedisDb) (key : Bytes) : RedisDb := db.delete key

/-- The common part of the two pushes. A list that was not there is first
stored empty, with the deadline of the side that creates it. -/
def RedisDb.push (side : List Bytes → Bytes → List Bytes × Int) (created : Int) (db : RedisDb)
    (key item : Bytes) (now : Int) : RedisDb × Except DbError Int :=
  match redisDbGet db key now with
  | (db, some value) =>
      match value.data with
      | .list xs =>
          let pushed := side xs item
          (db.setList key value pushed.1, .ok pushed.2)
      | .str _ => (db, .error .typeMismatch)
  | (db, none) =>
      let db := db.set key (.list []) created
      let pushed := side [] item
      (db.setList key ⟨.list [], created⟩ pushed.1, .ok pushed.2)

def redisDbLpush (db : RedisDb) (key item : Bytes) (now : Int) : RedisDb × Except DbError Int :=
  db.push lpush (-1) key item now

def redisDbRpush (db : RedisDb) (key item : Bytes) (now : Int) : RedisDb × Except DbError Int :=
  db.push rpush 0 key item now

def redisDbLrange (db : RedisDb) (key : Bytes) (start stop : Int) (now : Int) :
    RedisDb × Except DbError (Option (List Bytes) × Int) :=
  match db.get key now with
  | (db, some value) =>
      match value.data with
      | .list xs => (db, .ok (lrange xs start stop))
      | .str _ => (db, .error .typeMismatch)
  | (db, none) => (db, .error .keyNotFound)

def redisDbDbsize (db : RedisDb) : UInt64 := db.keyCount

/-- One call into the store, with the clock reading it makes. -/
inductive DbCall where
  | set (key value : Bytes) (expiration : Int)
  | get (key : Bytes) (now : Int)
  | exist (key : Bytes)
  | delete (key : Bytes)
  | lpush (key item : Bytes) (now : Int)
  | rpush (key item : Bytes) (now : Int)
  | lrange (key : Bytes) (start stop now : Int)

inductive DbResult where
  | done
  | value (v : Option RedisValue)
  | present (b : Bool)
  | pushed (r : Except DbError Int)
  | range (r : Except DbError (Option (List Bytes) × Int))

namespace RedisDb

def step (db : RedisDb) : DbCall → RedisDb × DbResult
  | .set key value expiration => (redisDbSet db key value expiration, .done)
  | .get key now => ((redisDbGet db key now).1, .value (redisDbGet db key now).2)
  | .exist key => (db, .present (redisDbExist db key))
  | .delete key => (redisDbDelete db key, .done)
  | .lpush key item now => ((redisDbLpush db key item now).1, .pushed (redisDbLpush db key item now).2)
  | .rpush key item now => ((redisDbRpush db key item now).1, .pushed (redisDbRpush db key item now).2)
  | .lrange key start stop now =>
      ((redisDbLrange db key start stop now).1, .range (redisDbLrange db key start stop now).2)

end RedisDb

end RedisServer
