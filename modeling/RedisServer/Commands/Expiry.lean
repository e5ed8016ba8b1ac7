import RedisServer.Storage.LiveKeys
import RedisServer.Commands.SetOptions

/-! Expired keys as the commands see them. The bodies that go through the
lookup cannot tell an expired entry from an absent one, whatever their options
are. `EXIST` asks the table itself. -/
namespace RedisServer

open Machine

/-- Two servers that differ in entries which nobody sees from `now` on, when it
is not before `now` any more. -/
def World.Alike (now : Int) (s s' : World) : Prop :=
  ∃ db, s' = { s with db := db } ∧ KeyMap.Alike now s.db.toMap db.toMap ∧ ∀ n, now ≤ s.clock n

namespace World.Alike

section Operations

variable {now : Int} {s s' : World}

theorem answer (h : s.Alike now s') (r : Reply) : (s.answer r).Alike now (s'.answer r) := by
  obtain ⟨db, rfl, hMaps, hClock⟩ := h
  exact ⟨db, rfl, hMaps, hClock⟩

theorem answerIf (h : s.Alike now s') (r : Reply) : (s.answerIf r).Alike now (s'.answerIf r) := by
  have hReply : s'.shouldReply = s.shouldReply := by
    obtain ⟨db, rfl, -, -⟩ := h
    rfl
  unfold World.answerIf
  rw [hReply]
  split
  · exact h.answer r
  · exact h

theorem get (h : s.Alike now s') (key : Bytes) :
    ∃ t t' v, s.get key = some (t, v) ∧ s'.get key = some (t', v) ∧ t.Alike now t' := by
  obtain ⟨db, rfl, hMaps, hClock⟩ := h
  obtain ⟨hDb, hValue⟩ := s.db.get_spec key (s.clock 0)
  obtain ⟨hDb', hValue'⟩ := db.get_spec key (s.clock 0)
  have hSame : (db.get key (s.clock 0)).2 = (s.db.get key (s.clock 0)).2 := by
    rw [hValue, hValue', hMaps.lookup key (hClock 0)]
  have hGet : World.get { s with db := db } key =
      some ({ s.tick with db := (db.get key (s.clock 0)).1 }, (s.db.get key (s.clock 0)).2) := by
    rw [World.get_eq, ← hSame]
    rfl
  refine ⟨_, _, _, World.get_eq s key, hGet, _, rfl, ?_, fun n => hClock (n + 1)⟩
  change KeyMap.Alike now (s.db.get key (s.clock 0)).1.toMap (db.get key (s.clock 0)).1.toMap
  rw [hDb, hDb']
  exact hMaps.dropExpired key (s.clock 0)

theorem set (h : s.Alike now s') (key : Bytes) (data : RedisData) (expiration : Int) :
    ∃ t t', s.set key data expiration = some t ∧ s'.set key data expiration = some t' ∧
      t.Alike now t' := by
  obtain ⟨db, rfl, hMaps, hClock⟩ := h
  refine ⟨_, _, World.set_eq s key data expiration, World.set_eq _ key data expiration,
    ⟨_, rfl, ?_, hClock⟩⟩
  dsimp only
  rw [RedisDb.toMap_set, RedisDb.toMap_set]
  exact hMaps.update key _

theorem delete (h : s.Alike now s') (key : Bytes) :
    ∃ t t', s.delete key = some t ∧ s'.delete key = some t' ∧ t.Alike now t' := by
  obtain ⟨db, rfl, hMaps, hClock⟩ := h
  refine ⟨_, _, World.delete_eq s key, World.delete_eq _ key, ⟨_, rfl, ?_, hClock⟩⟩
  dsimp only [redisDbDelete]
  rw [RedisDb.toMap_delete, RedisDb.toMap_delete]
  exact hMaps.update key none

theorem push (h : s.Alike now s') (side : List Bytes → Bytes → List Bytes × Int) (created : Int)
    (key item : Bytes) (hLength : ∀ xs, (side xs item).2 = toInt32 (xs.length + 1)) :
    ∃ t t' r, s.push side created key item = some (t, r) ∧
      s'.push side created key item = some (t', r) ∧ t.Alike now t' := by
  obtain ⟨db, rfl, hMaps, hClock⟩ := h
  obtain ⟨hDb, hResult⟩ := s.db.push_spec key side created item (s.clock 0) hLength
  obtain ⟨hDb', hResult'⟩ := db.push_spec key side created item (s.clock 0) hLength
  obtain ⟨hPushed, hSame⟩ := hMaps.push (fun xs => (side xs item).1) created key (hClock 0)
  have hPush : World.push side created { s with db := db } key item =
      some ({ s.tick with db := (db.push side created key item (s.clock 0)).1 },
        (s.db.push side created key item (s.clock 0)).2) := by
    rw [World.push_eq, hResult, hSame, ← hResult']
    rfl
  refine ⟨_, _, _, World.push_eq s key item side created, hPush, _, rfl, ?_,
    fun n => hClock (n + 1)⟩
  dsimp only
  rw [hDb, hDb']
  exact hPushed

theorem lrange (h : s.Alike now s') (key : Bytes) (start stop : Int) :
    ∃ t t' r, s.lrange key start stop = some (t, r) ∧ s'.lrange key start stop = some (t', r) ∧
      t.Alike now t' := by
  obtain ⟨db, rfl, hMaps, hClock⟩ := h
  obtain ⟨hDb, hResult⟩ := s.db.lrange_spec key start stop (s.clock 0)
  obtain ⟨hDb', hResult'⟩ := db.lrange_spec key start stop (s.clock 0)
  have hRange : World.lrange { s with db := db } key start stop =
      some ({ s.tick with db := (redisDbLrange db key start stop (s.clock 0)).1 },
        (redisDbLrange s.db key start stop (s.clock 0)).2) := by
    rw [World.lrange_eq, hResult, hMaps.lookup key (hClock 0), ← hResult']
    rfl
  refine ⟨_, _, _, World.lrange_eq s key start stop, hRange, _, rfl, ?_, fun n => hClock (n + 1)⟩
  dsimp only
  rw [hDb, hDb']
  exact hMaps.dropExpired key (s.clock 0)

theorem shift (h : s.Alike now s') {clock : Nat → Int} (hClock : ∃ k, clock = fun i => s.clock (i + k)) :
    World.Alike now { s with clock := clock } { s' with clock := clock } := by
  obtain ⟨db, rfl, hMaps, hLate⟩ := h
  obtain ⟨k, rfl⟩ := hClock
  exact ⟨db, rfl, hMaps, fun n => hLate (n + k)⟩

theorem clock_eq (h : s.Alike now s') : s'.clock = s.clock := by
  obtain ⟨db, rfl, -, -⟩ := h
  rfl

theorem outputs_eq (h : s.Alike now s') : s'.outputs = s.outputs := by
  obtain ⟨db, rfl, -, -⟩ := h
  rfl

theorem toMap_alike (h : s.Alike now s') : KeyMap.Alike now s.db.toMap s'.db.toMap := by
  obtain ⟨db, rfl, hMaps, -⟩ := h
  exact hMaps

end Operations

end World.Alike

section Bodies

variable {now : Int} {s s' : World}

theorem handleGet_alike (h : s.Alike now s') (args : List Bytes) :
    Option.Rel (World.Alike now) (handleGet args s) (handleGet args s') := by
  unfold handleGet
  split
  · rename_i command key
    obtain ⟨t, t', found, hGet, hGet', hNext⟩ := h.get key
    simp only [hGet, hGet', Option.bind_eq_bind, Option.bind_some]
    cases found with
    | none => exact .some (hNext.answerIf _)
    | some value =>
        dsimp only
        split
        · exact .some (hNext.answerIf _)
        · cases value.data.strMember with
          | none => exact .none
          | some str => exact .some (hNext.answerIf _)
  · exact .some (h.answerIf _)

theorem foldlM_delete_alike (h : s.Alike now s') (keys : List Bytes) :
    ∃ t t', keys.foldlM World.delete s = some t ∧ keys.foldlM World.delete s' = some t' ∧
      t.Alike now t' := by
  induction keys generalizing s s' with
  | nil => exact ⟨s, s', rfl, rfl, h⟩
  | cons key keys ih =>
      obtain ⟨t, t', hDelete, hDelete', hNext⟩ := h.delete key
      rw [List.foldlM_cons, List.foldlM_cons, hDelete, hDelete']
      exact ih hNext

theorem handleDelete_alike (h : s.Alike now s') (args : List Bytes) :
    Option.Rel (World.Alike now) (handleDelete args s) (handleDelete args s') := by
  unfold handleDelete
  split
  · exact .some (h.answer _)
  · obtain ⟨t, t', hDelete, hDelete', hNext⟩ := foldlM_delete_alike h (args.drop 1)
    rw [hDelete, hDelete']
    exact .some (hNext.answerIf _)

theorem handleIncrDecr_alike (h : s.Alike now s') (increment : Int) (args : List Bytes) :
    Option.Rel (World.Alike now) (handleIncrDecr increment args s)
      (handleIncrDecr increment args s') := by
  unfold handleIncrDecr
  split
  · rename_i command key rest
    obtain ⟨t, t', found, hGet, hGet', hNext⟩ := h.get key
    have hStore : ∀ n, Option.Rel (World.Alike now)
        ((t.set key (.str (intText n)) 0).bind fun t => some (t.answerIf (.integer (toInt32 n))))
        ((t'.set key (.str (intText n)) 0).bind fun t => some (t.answerIf (.integer (toInt32 n)))) := by
      intro n
      obtain ⟨u, u', hSet, hSet', hLast⟩ := hNext.set key (.str (intText n)) 0
      rw [hSet, hSet']
      exact .some (hLast.answerIf _)
    simp only [hGet, hGet', Option.bind_eq_bind, Option.bind_some]
    cases found with
    | none => exact hStore _
    | some value =>
        dsimp only
        cases value.data.strMember with
        | none => exact .none
        | some str =>
            rw [Option.map_some, Option.bind_some, Option.bind_some]
            cases parseInteger str with
            | error e => exact .some (hNext.answerIf _)
            | ok n => exact hStore _
  · exact .some (h.answerIf _)

theorem pushItems_alike (h : s.Alike now s') (side : List Bytes → Bytes → List Bytes × Int)
    (created : Int) (key : Bytes) (items : List Bytes) (length : Int)
    (hLength : ∀ xs item, (side xs item).2 = toInt32 (xs.length + 1)) :
    Option.Rel (World.Alike now) (pushItems side created key items length s)
      (pushItems side created key items length s') := by
  induction items generalizing length s s' with
  | nil => exact .some (h.answerIf _)
  | cons item items ih =>
      obtain ⟨t, t', result, hPush, hPush', hNext⟩ :=
        h.push side created key item fun xs => hLength xs item
      simp only [pushItems, hPush, hPush', Option.bind_eq_bind, Option.bind_some]
      cases result with
      | error e => exact .some (hNext.answerIf _)
      | ok length => exact ih hNext length

theorem handleLpush_alike (h : s.Alike now s') (args : List Bytes) :
    Option.Rel (World.Alike now) (handleLpush args s) (handleLpush args s') := by
  unfold handleLpush
  split
  · exact pushItems_alike h lpush (-1) _ _ 0 fun xs item => by simp [lpush]
  · exact .some (h.answerIf _)

theorem handleRpush_alike (h : s.Alike now s') (args : List Bytes) :
    Option.Rel (World.Alike now) (handleRpush args s) (handleRpush args s') := by
  unfold handleRpush
  split
  · exact pushItems_alike h rpush 0 _ _ 0 fun xs item => by simp [rpush]
  · exact .some (h.answerIf _)

theorem handleLrange_alike (h : s.Alike now s') (args : List Bytes) :
    Option.Rel (World.Alike now) (handleLrange args s) (handleLrange args s') := by
  unfold handleLrange
  split
  · rename_i command key first last rest
    obtain ⟨t, t', result, hRange, hRange', hNext⟩ :=
      h.lrange key (toInt32 ((parseInteger first).toOption.getD 0))
        (toInt32 ((parseInteger last).toOption.getD 0))
    simp only [hRange, hRange', Option.bind_eq_bind, Option.bind_some]
    rcases result with (- | -) | ⟨range, length⟩
    · exact .some (hNext.answer _)
    · exact .some (hNext.answer _)
    · exact .some (hNext.answer _)
  · exact .some (h.answer _)

theorem existingForSet_alike (h : s.Alike now s') (key : Bytes) (options : SetOptions) :
    ∃ t t' found, existingForSet key options s = some (t, found) ∧
      existingForSet key options s' = some (t', found) ∧ t.Alike now t' := by
  unfold existingForSet
  split
  · exact h.get key
  · exact ⟨s, s', none, rfl, rfl, h⟩

theorem applySet_alike (h : s.Alike now s') (key value : Bytes) (options : SetOptions) :
    Option.Rel (World.Alike now) (applySet key value options s) (applySet key value options s') := by
  obtain ⟨t, t', found, hFound, hFound', hNext⟩ := existingForSet_alike h key options
  simp only [applySet, hFound, hFound', Option.bind_eq_bind, Option.bind_some]
  split
  · exact .some (hNext.answerIf _)
  · cases oldValue options found with
    | none => exact .none
    | some old =>
        obtain ⟨u, u', hSet, hSet', hLast⟩ :=
          hNext.set key (.str value) (keptExpiration options found)
        simp only [hSet, hSet', Option.bind_some]
        exact .some (hLast.answerIf _)

theorem handleSet_alike (h : s.Alike now s') (args : List Bytes) :
    Option.Rel (World.Alike now) (handleSet args s) (handleSet args s') := by
  unfold handleSet
  split
  · rename_i command key value rest
    rw [h.clock_eq]
    cases hParse : parseSetOptions rest ⟨0, false, false, false, false⟩ s.clock with
    | error e =>
        cases e with
        | syntaxErr => exact .some (h.answerIf _)
        | valueErr => exact .some (h.answerIf _)
    | ok result =>
        obtain ⟨options, clock⟩ := result
        have hShift := h.shift (parseSetOptions_spec hParse).2
        dsimp only
        split
        · exact .some (hShift.answerIf _)
        · exact applySet_alike hShift key value options
  · exact .some (h.answer _)

end Bodies

/-- The key of a command that is about one key only. -/
def singleKey : CommandType → List Bytes → Option Bytes
  | .get, [_, key] => some key
  | .exist, [_, key] => some key
  | .del, [_, key] => some key
  | .set, _ :: key :: _ :: _ => some key
  | .incr, _ :: key :: _ => some key
  | .decr, _ :: key :: _ => some key
  | .lpush, _ :: key :: _ :: _ => some key
  | .rpush, _ :: key :: _ :: _ => some key
  | .lrange, _ :: key :: _ :: _ :: _ => some key
  | _, _ => none

/-- The command answers, and leaves to be seen, what it would if the entry had
been removed first. -/
def AsAbsent (args : List Bytes) (key : Bytes) (now : Int) (s : World) : Prop :=
  ∃ next next', executeCommand args s = some next ∧
    executeCommand args { s with db := redisDbDelete s.db key } = some next' ∧
    next.outputs = next'.outputs ∧ KeyMap.Alike now next.db.toMap next'.db.toMap

/-- No lookup from now on finds an entry that has expired. -/
theorem redisDbGet_expired {db : RedisDb} {key : Bytes} {v : RedisValue} {now t : Int}
    (hFind : db.h.lookup key = some v) (h : v.Expired now) (hLe : now ≤ t) :
    (redisDbGet db key t).2 = none := by
  have hLater : v.Expired t := KeyMap.expired_mono h hLe
  simp only [redisDbGet, RedisDb.get, hFind]
  rw [if_pos hLater]

section Expired

variable {args : List Bytes} {key : Bytes} {now : Int} {s : World} {v : RedisValue}

/-- The key of a command is the one whose type matters to it, and it is looked
up by one of the readings of the clock. -/
theorem needs_singleKey {command : CommandType} {needed : Bytes} {type : ValueType} {t : Int}
    (hKey : singleKey command args = some key) (h : needs command args s = some (needed, type, t)) :
    needed = key ∧ ∃ n, t = s.clock n := by
  cases command with
  | get =>
      obtain ⟨word, rfl, rfl, rfl⟩ := needs_get h
      exact ⟨Option.some.inj hKey, 0, rfl⟩
  | set =>
      obtain ⟨word, value, rest, options, clock, rfl, hParse, -, rfl, rfl⟩ := needs_set h
      obtain ⟨-, k, rfl⟩ := parseSetOptions_spec hParse
      exact ⟨Option.some.inj hKey, 0 + k, rfl⟩
  | incr =>
      obtain ⟨word, rest, rfl, rfl, rfl⟩ := needs_count (Or.inl rfl) h
      exact ⟨Option.some.inj hKey, 0, rfl⟩
  | decr =>
      obtain ⟨word, rest, rfl, rfl, rfl⟩ := needs_count (Or.inr rfl) h
      exact ⟨Option.some.inj hKey, 0, rfl⟩
  | lpush =>
      obtain ⟨word, item, rest, rfl, rfl, rfl⟩ := needs_push (Or.inl rfl) h
      exact ⟨Option.some.inj hKey, 0, rfl⟩
  | rpush =>
      obtain ⟨word, item, rest, rfl, rfl, rfl⟩ := needs_push (Or.inr rfl) h
      exact ⟨Option.some.inj hKey, 0, rfl⟩
  | lrange =>
      obtain ⟨word, first, last, rest, rfl, rfl, rfl⟩ := needs_lrange h
      exact ⟨Option.some.inj hKey, 0, rfl⟩
  | _ => cases h

theorem singleKey_runs
    (hKey : singleKey (getCommandType (args.headD [])) (args.map cString) = some key)
    (hFind : s.db.h.lookup key = some v) (h : v.Expired now) (hClock : ∀ n, now ≤ s.clock n) :
    ∃ next, executeCommand args s = some next := by
  refine executeCommand_runs ?_
  rintro ⟨-, needed, type, t, value, hNeeds, hValue, -⟩
  obtain ⟨rfl, n, rfl⟩ := needs_singleKey hKey hNeeds
  rw [redisDbGet_expired hFind h (hClock n)] at hValue
  cases hValue

/-- The commands that go through the lookup. -/
theorem executeCommand_alike {s' : World} (h : s.Alike now s')
    (hKey : singleKey (getCommandType (args.headD [])) (args.map cString) = some key)
    (hCommand : getCommandType (args.headD []) ≠ .exist) :
    Option.Rel (World.Alike now) (executeCommand args s) (executeCommand args s') := by
  have hStart : World.Alike now { s with outputs := [] } { s' with outputs := [] } := by
    obtain ⟨db, rfl, hMaps, hClock⟩ := h
    exact ⟨db, rfl, hMaps, hClock⟩
  unfold executeCommand
  cases hType : getCommandType (args.headD []) with
  | get => exact handleGet_alike hStart _
  | set => exact handleSet_alike hStart _
  | del => exact handleDelete_alike hStart _
  | incr => exact handleIncrDecr_alike hStart 1 _
  | decr => exact handleIncrDecr_alike hStart (-1) _
  | lpush => exact handleLpush_alike hStart _
  | rpush => exact handleRpush_alike hStart _
  | lrange => exact handleLrange_alike hStart _
  | exist => exact absurd hType hCommand
  | _ =>
      rw [hType] at hKey
      cases hKey

theorem exist_singleKey {s : World} {word : Bytes} :
    handleExist [word, key] s =
      some (s.answer (.integer (if redisDbExist s.db key then 1 else 0))) := by
  rw [handleExist, if_neg (by simp)]
  simp only [List.drop_succ_cons, List.drop_zero, List.countP_singleton]
  cases redisDbExist s.db key with
  | false => rfl
  | true => rfl

/-- Exactly which commands take an expired entry for an absent one: all of those
on a single key but `EXIST`. -/
theorem expired_as_absent_iff
    (hKey : singleKey (getCommandType (args.headD [])) (args.map cString) = some key)
    (hFind : s.db.h.lookup key = some v) (hExpired : v.Expired now)
    (hClock : ∀ n, now ≤ s.clock n) :
    AsAbsent args key now s ↔ getCommandType (args.headD []) ≠ .exist := by
  constructor
  · rintro ⟨next, next', hRun, hRun', hOutputs, -⟩ hExist
    rw [hExist] at hKey
    obtain ⟨word, hArgs⟩ : ∃ word, args.map cString = [word, key] := by
      rcases hSplit : args.map cString with - | ⟨word, - | ⟨other, - | ⟨third, rest⟩⟩⟩
      all_goals rw [hSplit] at hKey
      · cases hKey
      · cases hKey
      · cases hKey
        exact ⟨word, rfl⟩
      · cases hKey
    have hPresent : redisDbExist s.db key = true := by
      rw [redisDbExist, RedisDb.exist, hFind]
      rfl
    have hAbsent : redisDbExist (redisDbDelete s.db key) key = false := by
      have hNone := congrFun (s.db.toMap_delete key) key
      rw [Function.update_self] at hNone
      rw [redisDbExist, RedisDb.exist]
      exact Option.isSome_eq_false_iff.mpr (Option.isNone_iff_eq_none.mpr hNone)
    simp only [executeCommand, hExist, commandBody, hArgs, exist_singleKey, hPresent, hAbsent]
      at hRun hRun'
    cases hRun
    cases hRun'
    simp [World.answer] at hOutputs
  · intro hCommand
    obtain ⟨next, hRun⟩ := singleKey_runs hKey hFind hExpired hClock
    have hAlike : s.Alike now { s with db := redisDbDelete s.db key } := by
      refine ⟨_, rfl, ?_, hClock⟩
      rw [redisDbDelete, RedisDb.toMap_delete]
      exact KeyMap.alike_update_none hFind hExpired
    have hRel := executeCommand_alike hAlike hKey hCommand
    rw [hRun] at hRel
    cases hRun' : executeCommand args { s with db := redisDbDelete s.db key } with
    | none =>
        rw [hRun'] at hRel
        cases hRel
    | some next' =>
        rw [hRun'] at hRel
        cases hRel with
        | some hNext => exact ⟨next, next', hRun, hRun', hNext.outputs_eq.symm, hNext.toMap_alike⟩

end Expired

/-- A server with one key, which expired at 1, when the clock stands at 5. -/
def expiredWorld : World :=
  { emptyWorld with
    db := redisDbCreate.set (text "k") (.str (text "v")) 1
    clock := fun _ => 5 }

theorem expired_get_as_absent :
    (∃ v, expiredWorld.db.h.lookup (text "k") = some v ∧ v.Expired 5) ∧
      AsAbsent [text "GET", text "k"] (text "k") 5 expiredWorld :=
  ⟨⟨_, rfl, by decide⟩,
    (expired_as_absent_iff (v := ⟨.str (text "v"), 1⟩) rfl rfl (by decide)
      (fun _ => le_refl 5)).mpr (by decide)⟩

/-- `SET k v PXAT 1`, and `EXIST k` at 5: it answers 1. -/
theorem exist_sees_expired :
    ∃ s, executeCommand [text "SET", text "k", text "v", text "PXAT", text "1"] emptyWorld =
        some s ∧
      { s with clock := fun _ => 5, outputs := [] } = expiredWorld ∧
      ¬AsAbsent [text "EXIST", text "k"] (text "k") 5 expiredWorld := by
  refine ⟨_, rfl, rfl, ?_⟩
  rintro ⟨next, next', hRun, hRun', hOutputs, -⟩
  cases hRun
  cases hRun'
  revert hOutputs
  decide

end RedisServer
