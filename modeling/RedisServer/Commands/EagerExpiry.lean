import RedisServer.Commands.Expiry

/-! Expiry is lazy: an entry stays in the table until a lookup finds that its
deadline has passed. A server that looks at every key before each command, and so
never keeps an expired entry, gives the same replies in every run, as long as the
clock does not go back. Only the commands that go past the lookup can tell. -/
namespace RedisServer

open Machine

/-- Every key of the table is looked at once. -/
def RedisDb.dropAllExpired (db : RedisDb) (now : Int) : RedisDb :=
  db.h.keys.foldl (fun db key => (redisDbGet db key now).1) db

/-- A command, the time it comes at and the readings of the clock it takes. -/
structure Request where
  args : List Bytes
  time : Int
  clock : Nat → Int
  later : ∀ n, time ≤ clock n

/-- The commands that see entries only through the lookup, or none at all. -/
def Request.LooksUp (r : Request) : Prop :=
  getCommandType (r.args.headD []) ∉ [CommandType.exist, .dbsize, .save, .psync]

instance (r : Request) : Decidable r.LooksUp := inferInstanceAs (Decidable (_ ∉ _))

namespace World

/-- The request as it is served, with its replies. -/
def serve (s : World) (r : Request) : Option (World × List Output) :=
  (executeCommand r.args { s with clock := r.clock }).map fun next => (next, next.outputs)

/-- The same after a look at every key. -/
def serveEager (s : World) (r : Request) : Option (World × List Output) :=
  { s with db := s.db.dropAllExpired r.time }.serve r

end World

section Maps

variable {m : KeyMap} {now t : Int}

theorem KeyMap.live_live (h : now ≤ t) : (m.live now).live t = m.live t := by
  funext key
  simp only [KeyMap.live]
  cases m key with
  | none => rfl
  | some v =>
      by_cases hNow : v.Expired now
      · simp [Option.filter, hNow, KeyMap.expired_mono hNow h]
      · simp [Option.filter, hNow]

/-- The keys that have been looked at show what is live. -/
theorem toMap_foldl_get (keys : List Bytes) (db : RedisDb) (now : Int) (key : Bytes) :
    (keys.foldl (fun db key => (redisDbGet db key now).1) db).toMap key =
      if key ∈ keys then db.toMap.live now key else db.toMap key := by
  induction keys generalizing db with
  | nil => rw [List.foldl_nil, if_neg List.not_mem_nil]
  | cons first keys ih =>
      rw [List.foldl_cons, ih]
      have hMap : (redisDbGet db first now).1.toMap = db.toMap.dropExpired first now :=
        (db.get_spec first now).1
      rw [hMap, KeyMap.live_dropExpired_of_le _ _ le_rfl]
      by_cases hFirst : key = first
      · subst hFirst
        rw [if_pos List.mem_cons_self, KeyMap.dropExpired_self, ite_self]
      · simp only [List.mem_cons, hFirst, false_or, KeyMap.dropExpired_of_ne _ _ _ hFirst]

/-- What is left is what is live. -/
theorem RedisDb.toMap_dropAllExpired (db : RedisDb) (now : Int) :
    (db.dropAllExpired now).toMap = db.toMap.live now := by
  funext key
  rw [RedisDb.dropAllExpired, toMap_foldl_get]
  split
  · rfl
  · rename_i hAbsent
    have hNone : db.toMap key = none := AList.lookup_eq_none.mpr (mt AList.mem_keys.mpr hAbsent)
    rw [hNone, KeyMap.live, hNone]
    rfl

end Maps

section Runs

variable {s s' : World} {now : Int} {r : Request} {requests : List Request}

/-- The two servers differ in entries that nobody sees from `now` on. -/
def World.Hides (now : Int) (s s' : World) : Prop :=
  ∃ db, s' = { s with db := db } ∧ KeyMap.Alike now s.db.toMap db.toMap

theorem World.Alike.hides (h : s.Alike now s') : s.Hides now s' := by
  obtain ⟨db, hSame, hMaps, -⟩ := h
  exact ⟨db, hSame, hMaps⟩

/-- A request that comes later finds them alike, also after the look at every key. -/
theorem World.Hides.alike (h : s.Hides now s') (hLater : now ≤ r.time) :
    World.Alike r.time { s with clock := r.clock, outputs := [] }
      { s' with db := s'.db.dropAllExpired r.time, clock := r.clock, outputs := [] } := by
  obtain ⟨db, rfl, hMaps⟩ := h
  refine ⟨db.dropAllExpired r.time, rfl, ?_, r.later⟩
  intro t ht
  rw [RedisDb.toMap_dropAllExpired, KeyMap.live_live ht]
  exact hMaps t (hLater.trans ht)

theorem commandBody_alike {command : CommandType} (h : s.Alike now s')
    (hCommand : command ∉ [CommandType.exist, .dbsize, .save, .psync]) (args : List Bytes) :
    Option.Rel (World.Alike now) (commandBody command args s) (commandBody command args s') := by
  cases command with
  | exist | dbsize | save | psync => exact absurd (by decide) hCommand
  | get => exact handleGet_alike h args
  | set => exact handleSet_alike h args
  | del => exact handleDelete_alike h args
  | incr => exact handleIncrDecr_alike h 1 args
  | decr => exact handleIncrDecr_alike h (-1) args
  | lpush => exact handleLpush_alike h args
  | rpush => exact handleRpush_alike h args
  | lrange => exact handleLrange_alike h args
  | ping =>
      rw [commandBody, handlePing.eq_def, handlePing.eq_def]
      split <;> exact .some (h.answer _)
  | echo =>
      rw [commandBody, handleEcho.eq_def, handleEcho.eq_def]
      split <;> exact .some (h.answer _)
  | config =>
      have hConfig : s'.config = s.config := by
        obtain ⟨db, rfl, -, -⟩ := h
        rfl
      rw [commandBody, handleConfig.eq_def, handleConfig.eq_def, hConfig]
      split
      · split
        · split <;> exact .some (h.answer _)
        · exact .some h
      · exact .some (h.answer _)
  | info =>
      have hInfo : infoText s' = infoText s := by
        obtain ⟨db, rfl, -, -⟩ := h
        rfl
      rw [commandBody, handleInfo, handleInfo, hInfo]
      exact .some (h.answer _)
  | replconf =>
      have hOffset : s'.masterReplOffset = s.masterReplOffset := by
        obtain ⟨db, rfl, -, -⟩ := h
        rfl
      rw [commandBody, handleReplconf.eq_def, handleReplconf.eq_def, hOffset]
      split
      · split <;> exact .some (h.answer _)
      · exact .some (h.answer _)
  | unknown => exact .some (h.answer _)

/-- One request. -/
theorem World.Hides.serve (h : s.Hides now s') (hLater : now ≤ r.time) (hLooks : r.LooksUp) :
    Option.Rel (fun a b => a.2 = b.2 ∧ a.1.Hides r.time b.1) (s.serve r) (s'.serveEager r) := by
  have hBody := commandBody_alike (h.alike hLater) hLooks (r.args.map cString)
  unfold World.serveEager World.serve executeCommand
  revert hBody
  generalize commandBody _ _ _ = result
  generalize commandBody _ _ _ = result'
  rintro (hNext | -)
  · exact .some ⟨hNext.outputs_eq.symm, hNext.hides⟩
  · exact .none

/-- A run of requests that come one after the other. -/
theorem World.Hides.run (h : s.Hides now s') (hFirst : ∀ r ∈ requests, now ≤ r.time)
    (hTimes : requests.Pairwise fun a b => a.time ≤ b.time) (hLooks : ∀ r ∈ requests, r.LooksUp) :
    Option.Rel (fun a b => a.2 = b.2 ∧ ∃ last, (last = now ∨ ∃ r ∈ requests, last = r.time) ∧
        a.1.Hides last b.1)
      (runOption World.serve s requests) (runOption World.serveEager s' requests) := by
  induction requests generalizing s s' now with
  | nil => exact .some ⟨rfl, now, Or.inl rfl, h⟩
  | cons r requests ih =>
      obtain ⟨hBehind, hTimes⟩ := List.pairwise_cons.mp hTimes
      have hHead := h.serve (hFirst r List.mem_cons_self) (hLooks r List.mem_cons_self)
      rw [runOption, runOption]
      revert hHead
      generalize s.serve r = result
      generalize s'.serveEager r = result'
      rintro (⟨hReplies, hNext⟩ | -)
      · have hRest := ih hNext hBehind hTimes fun r' hr' => hLooks r' (List.mem_cons_of_mem r hr')
        simp only [Option.bind_some]
        revert hRest
        generalize runOption World.serve _ requests = rest
        generalize runOption World.serveEager _ requests = rest'
        rintro (⟨hSame, last, hLast, hAlike⟩ | -)
        · refine .some ⟨?_, last, ?_, hAlike⟩
          · dsimp only
            rw [hReplies, hSame]
          · rcases hLast with rfl | ⟨r', hr', rfl⟩
            · exact Or.inr ⟨r, List.mem_cons_self, rfl⟩
            · exact Or.inr ⟨r', List.mem_cons_of_mem r hr', rfl⟩
        · exact .none
      · exact .none

/-- For every store and every run of requests whose times do not go back, the server
and one that drops every expired entry before each request give the same replies, and
from the last request on they show the same entries. -/
theorem eager_expiry_unobservable (s : World) (requests : List Request)
    (hTimes : requests.Pairwise fun a b => a.time ≤ b.time) (hLooks : ∀ r ∈ requests, r.LooksUp) :
    Option.Rel (fun a b => a.2 = b.2 ∧ ∀ t, (∀ r ∈ requests, r.time ≤ t) →
        a.1.db.toMap.live t = b.1.db.toMap.live t)
      (runOption World.serve s requests) (runOption World.serveEager s requests) := by
  cases requests with
  | nil => exact .some ⟨rfl, fun _ _ => rfl⟩
  | cons r requests =>
      have hStart : s.Hides r.time s := ⟨s.db, rfl, fun _ _ => rfl⟩
      have hFirst : ∀ r' ∈ r :: requests, r.time ≤ r'.time := by
        intro r' hr'
        rcases List.mem_cons.mp hr' with rfl | hr'
        · exact le_rfl
        · exact (List.pairwise_cons.mp hTimes).1 r' hr'
      have hRun := hStart.run hFirst hTimes hLooks
      revert hRun
      generalize runOption World.serve s (r :: requests) = result
      generalize runOption World.serveEager s (r :: requests) = result'
      rintro (⟨hReplies, last, hLast, db, hSame, hMaps⟩ | -)
      · refine .some ⟨hReplies, fun t ht => ?_⟩
        rw [hSame]
        refine hMaps t ?_
        rcases hLast with rfl | ⟨r', hr', rfl⟩
        · exact ht r List.mem_cons_self
        · exact ht r' hr'
      · exact .none

end Runs

/-- A key that lives for five milliseconds, and a look at it after ten. -/
def shortLived : List Request :=
  [⟨[text "SET", text "a", text "b", text "PX", text "5"], 100, fun _ => 100, fun _ => le_rfl⟩,
    ⟨[text "GET", text "a"], 110, fun _ => 110, fun _ => le_rfl⟩]

theorem eager_expiry_shortLived :
    (∃ s, runOption World.serve emptyWorld shortLived =
        some (s, [[.reply (.simpleString (text "OK"))], [.reply .null]])) ∧
      Option.Rel (fun a b => a.2 = b.2 ∧ ∀ t, (∀ r ∈ shortLived, r.time ≤ t) →
          a.1.db.toMap.live t = b.1.db.toMap.live t)
        (runOption World.serve emptyWorld shortLived)
        (runOption World.serveEager emptyWorld shortLived) := by
  refine ⟨⟨_, rfl⟩, eager_expiry_unobservable emptyWorld shortLived ?_ ?_⟩
  · simp [shortLived]
  · decide +kernel

end RedisServer
