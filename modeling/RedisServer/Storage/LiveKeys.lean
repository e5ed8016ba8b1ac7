import RedisServer.Storage.KeyMap

/-! What a client can see of the store at a given time. Expiry is lazy, so an
entry stays in the table after its deadline; two tables that differ in such
entries alone are told apart only by an operation that does not look at the
deadline. -/
namespace RedisServer

open Machine

namespace KeyMap

/-- The entries whose deadline has not passed. -/
def live (m : KeyMap) (t : Int) : KeyMap := fun key => (m key).filter fun v => ¬v.Expired t

/-- From `now` on nobody sees a difference. -/
def Alike (now : Int) (m m' : KeyMap) : Prop := ∀ t, now ≤ t → m.live t = m'.live t

section Live

variable (m : KeyMap) (key : Bytes) {now t : Int}

theorem expired_mono {v : RedisValue} (h : v.Expired now) (hLe : now ≤ t) : v.Expired t :=
  ⟨h.1, lt_of_lt_of_le h.2 hLe⟩

theorem not_expired_of_lasting {v : RedisValue} (h : v.expiration ≤ 0) (now : Int) :
    ¬v.Expired now :=
  fun hExpired => absurd hExpired.1 (not_lt.mpr h)

/-- An entry without a deadline is seen at all times. -/
theorem live_of_lasting {v : RedisValue} (hFind : m key = some v) (h : v.expiration ≤ 0)
    (now : Int) : m.live now key = some v := by
  rw [live, hFind, Option.filter_eq_some_iff, decide_eq_true_eq]
  exact ⟨rfl, not_expired_of_lasting h now⟩

theorem live_update (entry : Option RedisValue) (t : Int) :
    live (Function.update m key entry) t =
      Function.update (m.live t) key (entry.filter fun v => ¬v.Expired t) := by
  funext other
  by_cases h : other = key
  · subst other
    simp [live]
  · simp [live, Function.update_of_ne h]

/-- What a lookup finds is the live entry. -/
theorem dropExpired_self (now : Int) : m.dropExpired key now key = m.live now key := by
  unfold dropExpired live
  cases hFind : m key with
  | none => simp [hFind]
  | some v =>
      by_cases hExpired : v.Expired now
      · simp [hExpired, Option.filter]
      · simp [hExpired, hFind, Option.filter]

theorem dropExpired_of_ne (now : Int) {other : Bytes} (h : other ≠ key) :
    m.dropExpired key now other = m other := by
  unfold dropExpired
  cases m key with
  | none => rfl
  | some v =>
      dsimp only
      split
      · exact Function.update_of_ne h _ _
      · rfl

/-- A lookup drops an entry from the view exactly if it does so when it is
given the view alone. -/
theorem live_dropExpired (now t : Int) :
    (m.dropExpired key now).live t = (m.live t).dropExpired key now := by
  unfold dropExpired
  cases hFind : m key with
  | none =>
      have hLive : m.live t key = none := by simp [live, hFind]
      simp only [hLive]
  | some v =>
      by_cases hNow : v.Expired now
      · dsimp only
        rw [if_pos hNow, live_update]
        by_cases hLater : v.Expired t
        · have hLive : m.live t key = none := by simp [live, hFind, hLater]
          simp only [hLive, Option.filter_none]
          rw [← hLive, Function.update_eq_self]
        · have hLive : m.live t key = some v := by simp [live, hFind, hLater]
          simp only [hLive, hNow, ↓reduceIte, Option.filter_none]
      · dsimp only
        rw [if_neg hNow]
        cases hLive : m.live t key with
        | none => rfl
        | some w =>
            have hSame : w = v := by
              simp only [live, hFind, Option.filter_eq_some_iff] at hLive
              exact (Option.some.inj hLive.1).symm
            subst hSame
            simp only [hNow, ↓reduceIte]

/-- What a lookup drops is not visible from then on. -/
theorem live_dropExpired_of_le (h : now ≤ t) : (m.dropExpired key now).live t = m.live t := by
  rw [live_dropExpired, dropExpired]
  cases hLive : m.live t key with
  | none => rfl
  | some v =>
      have hNot : ¬v.Expired now := by
        simp only [live, Option.filter_eq_some_iff, decide_eq_true_eq] at hLive
        exact fun hExpired => hLive.2 (expired_mono hExpired h)
      simp only [hNot, ↓reduceIte]

end Live

section Alike

variable {m m' : KeyMap} {now r : Int}

/-- An entry that has expired may as well be absent. -/
theorem alike_update_none {key : Bytes} {v : RedisValue} (hFind : m key = some v)
    (h : v.Expired now) : Alike now m (Function.update m key none) := by
  intro t ht
  have hLive : m.live t key = none := by simp [live, hFind, expired_mono h ht]
  rw [live_update, Option.filter_none, ← hLive, Function.update_eq_self]

theorem Alike.lookup (h : Alike now m m') (key : Bytes) (hr : now ≤ r) :
    m.dropExpired key r key = m'.dropExpired key r key := by
  rw [dropExpired_self, dropExpired_self, h r hr]

theorem Alike.dropExpired (h : Alike now m m') (key : Bytes) (r : Int) :
    Alike now (m.dropExpired key r) (m'.dropExpired key r) := by
  intro t ht
  rw [live_dropExpired, live_dropExpired, h t ht]

theorem Alike.update (h : Alike now m m') (key : Bytes) (entry : Option RedisValue) :
    Alike now (Function.update m key entry) (Function.update m' key entry) := by
  intro t ht
  rw [live_update, live_update, h t ht]

theorem Alike.push (h : Alike now m m') (extend : List Bytes → List Bytes) (created : Int)
    (key : Bytes) (hr : now ≤ r) :
    Alike now (m.push extend created key r).1 (m'.push extend created key r).1 ∧
      (m.push extend created key r).2 = (m'.push extend created key r).2 := by
  have hDropped := h.dropExpired key r
  unfold KeyMap.push
  dsimp only
  rw [h.lookup key hr]
  rcases m'.dropExpired key r key with - | ⟨⟨⟩ | ⟨⟩, deadline⟩
  · exact ⟨hDropped.update key _, rfl⟩
  · exact ⟨hDropped, rfl⟩
  · exact ⟨hDropped.update key _, rfl⟩

end Alike

end KeyMap

/-- A lookup leaves an entry without a deadline in place. -/
theorem RedisDb.get_of_lasting (db : RedisDb) {key : Bytes} {v : RedisValue}
    (hFind : db.toMap key = some v) (h : v.expiration ≤ 0) (now : Int) :
    redisDbGet db key now = (db, some v) := by
  have hLookup : db.h.lookup key = some v := hFind
  rw [redisDbGet, RedisDb.get, hLookup]
  exact if_neg (KeyMap.not_expired_of_lasting h now)

end RedisServer
