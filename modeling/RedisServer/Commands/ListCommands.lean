import RedisServer.Commands.OneReply
import RedisServer.Commands.Errors

/-! The list commands. A push looks its key up once for every item, and lists
never have a deadline, so the items of one command end up in one list whatever
the clock says in between. `LRANGE` reads its indices as `long`s and hands them
on as `int`s. -/
namespace RedisServer

open Machine

/-- The list that a push finds at the next reading of the clock. -/
def World.heldList (s : World) (key : Bytes) : Option (List Bytes) :=
  match s.db.toMap.live (s.clock 0) key with
  | none => some []
  | some ⟨.list xs, _⟩ => some xs
  | some ⟨.str _, _⟩ => none

namespace Side

/-- The deadline of a list that a side creates. -/
def created : Side → Int
  | .left => -1
  | .right => 0

def commandType : Side → CommandType
  | .left => .lpush
  | .right => .rpush

/-- The list after all items have been pushed. -/
def extend (side : Side) (xs items : List Bytes) : List Bytes :=
  match side with
  | .left => items.reverse ++ xs
  | .right => xs ++ items

theorem created_nonpos (side : Side) : side.created ≤ 0 := by cases side <;> decide

theorem extend_nil (side : Side) (xs : List Bytes) : side.extend xs [] = xs := by
  cases side <;> simp [extend]

theorem extend_cons (side : Side) (xs : List Bytes) (item : Bytes) (items : List Bytes) :
    side.extend (side.push xs item).1 items = side.extend xs (item :: items) := by
  cases side with
  | left => simp [extend, push, lpush]
  | right => simp [extend, push, rpush]

theorem length_extend (side : Side) (xs items : List Bytes) :
    (side.extend xs items).length = xs.length + items.length := by
  cases side with
  | left => simp [extend, Nat.add_comm]
  | right => simp [extend]

end Side

section Pushes

variable {db : RedisDb} {key : Bytes} {xs : List Bytes}

/-- One push on what is found at the key. -/
theorem RedisDb.push_list (side : Side) (key item : Bytes) (now : Int) {deadline : Int}
    (h : db.toMap key = some ⟨.list xs, deadline⟩) (hDeadline : deadline ≤ 0) :
    (db.push side.push side.created key item now).1.toMap =
        Function.update db.toMap key (some ⟨.list (side.push xs item).1, deadline⟩) ∧
      (db.push side.push side.created key item now).1.keyCount = db.keyCount ∧
      (db.push side.push side.created key item now).2 = .ok (side.push xs item).2 := by
  have hGet : redisDbGet db key now = (db, some ⟨.list xs, deadline⟩) :=
    db.get_of_lasting h hDeadline now
  simp only [RedisDb.push, hGet]
  exact ⟨db.toMap_setList key _ _, rfl, trivial⟩

/-- A push on a key where nothing is to be seen creates the list. An expired
entry is uncounted first. -/
theorem RedisDb.push_absent (side : Side) (key item : Bytes) (now : Int)
    (h : db.toMap.live now key = none) :
    (db.push side.push side.created key item now).1.toMap =
        Function.update db.toMap key (some ⟨.list (side.push [] item).1, side.created⟩) ∧
      (db.push side.push side.created key item now).1.keyCount =
        (if (db.toMap key).isSome then db.keyCount else db.keyCount + 1) ∧
      (db.push side.push side.created key item now).2 = .ok (side.push [] item).2 := by
  have hFound : (redisDbGet db key now).2 = none := by
    rw [redisDbGet, (db.get_spec key now).2, KeyMap.dropExpired_self]
    exact h
  have hCount : (redisDbGet db key now).1.h.lookup key = none ∧
      (redisDbGet db key now).1.keyCount + 1 =
        (if (db.toMap key).isSome then db.keyCount else db.keyCount + 1) := by
    simp only [redisDbGet, RedisDb.get] at hFound ⊢
    cases hFind : db.h.lookup key with
    | none =>
        have hMap : db.toMap key = none := hFind
        simp only [hMap, Option.isSome_none, Bool.false_eq_true, ↓reduceIte, and_true]
        exact hFind
    | some v =>
        have hMap : db.toMap key = some v := hFind
        simp only [hFind] at hFound
        split at hFound
        · rename_i hExpired
          simp only [hExpired, hMap, Option.isSome_some, ↓reduceIte, AList.lookup_erase, true_and]
          exact UInt64.sub_add_cancel _ _
        · cases hFound
  have hOthers : Function.update (redisDbGet db key now).1.toMap key = Function.update db.toMap key := by
    funext entry other
    by_cases hOther : other = key
    · rw [hOther, Function.update_self, Function.update_self]
    · rw [Function.update_of_ne hOther, Function.update_of_ne hOther, redisDbGet,
        (db.get_spec key now).1, KeyMap.dropExpired_of_ne _ _ _ hOther]
  unfold RedisDb.push
  generalize redisDbGet db key now = found at hFound hCount hOthers ⊢
  obtain ⟨next, value⟩ := found
  cases hFound
  refine ⟨?_, ?_, rfl⟩
  · dsimp only
    rw [RedisDb.toMap_setList, RedisDb.toMap_set, Function.update_idem]
    exact congrFun hOthers _
  · rw [← hCount.2]
    change (RedisDb.set next key (.list []) side.created).keyCount = _
    simp only [RedisDb.set, hCount.1]

/-- One round of the loop. The length that it starts with is not used. -/
theorem pushItems_cons (side : Side) {item : Bytes} {s : World} {length : Int}
    (h : (s.db.push side.push side.created key item (s.clock 0)).2 = .ok length)
    (items : List Bytes) (unused : Int) :
    pushItems side.push side.created key (item :: items) unused s =
      pushItems side.push side.created key items length
        { s.tick with db := (s.db.push side.push side.created key item (s.clock 0)).1 } := by
  simp only [pushItems, World.push_eq, Option.bind_eq_bind, Option.bind_some, h]

/-- The loop over the items, once there is a list. -/
theorem pushItems_list (side : Side) (items : List Bytes) {s : World} {deadline : Int}
    (h : s.db.toMap key = some ⟨.list xs, deadline⟩) (hDeadline : deadline ≤ 0)
    (hQuiet : s.outputs = []) :
    ∃ next, (∀ length, (items = [] → length = toInt32 xs.length) →
        pushItems side.push side.created key items length s = some next) ∧
      next.db.toMap =
        Function.update s.db.toMap key (some ⟨.list (side.extend xs items), deadline⟩) ∧
      next.db.keyCount = s.db.keyCount ∧
      next.outputs =
        if s.shouldReply then [.reply (.integer (toInt32 (xs.length + items.length)))] else [] := by
  induction items generalizing s xs with
  | nil =>
      refine ⟨s.answerIf (.integer (toInt32 xs.length)), fun length h => ?_, ?_, ?_, ?_⟩
      · rw [pushItems, h rfl]
      · rw [Side.extend_nil, answerIf_db, ← h, Function.update_eq_self]
      · rw [answerIf_db]
      · cases hReply : s.shouldReply with
        | false => simp [World.answerIf, hReply, hQuiet]
        | true => simp [World.answerIf, World.answer, hReply, hQuiet]
  | cons item items ih =>
      obtain ⟨hMap, hCount, hResult⟩ := s.db.push_list side key item (s.clock 0) h hDeadline
      obtain ⟨hLength, hReported⟩ := side.push_length xs item
      obtain ⟨next, hRun, hNext, hKeys, hOutputs⟩ := ih (s := { s.tick with
        db := (s.db.push side.push side.created key item (s.clock 0)).1 }) (by
          dsimp only
          rw [hMap, Function.update_self]) hQuiet
      refine ⟨next, fun length _ => ?_, ?_, ?_, ?_⟩
      · rw [pushItems_cons side hResult]
        exact hRun _ fun _ => by rw [hReported, hLength]; rfl
      · rw [hNext]
        dsimp only
        rw [hMap, Function.update_idem, Side.extend_cons]
      · exact hKeys.trans hCount
      · have hTotal : ((xs.length + 1 : Nat) : Int) + items.length =
            xs.length + ((item :: items).length : Nat) := by
          rw [List.length_cons]
          push_cast
          ring
        rw [hOutputs, hLength, hTotal]
        rfl

/-- All items of a command, from what the first of them finds. -/
theorem pushItems_held (side : Side) (item : Bytes) (items : List Bytes) {s : World}
    (hStored : s.db.AllStored) (hHeld : s.heldList key = some xs) (hQuiet : s.outputs = []) :
    ∃ next deadline, pushItems side.push side.created key (item :: items) 0 s = some next ∧
      deadline ≤ 0 ∧
      next.db.toMap =
        Function.update s.db.toMap key (some ⟨.list (side.extend xs (item :: items)), deadline⟩) ∧
      next.db.keyCount =
        (if (s.db.toMap key).isSome then s.db.keyCount else s.db.keyCount + 1) ∧
      next.outputs =
        if s.shouldReply then [.reply (.integer (toInt32 (xs.length + (item :: items).length)))]
        else [] := by
  unfold World.heldList at hHeld
  cases hLive : s.db.toMap.live (s.clock 0) key with
  | none =>
      rw [hLive] at hHeld
      cases hHeld
      obtain ⟨hMap, hCount, hResult⟩ := s.db.push_absent side key item (s.clock 0) hLive
      obtain ⟨hLength, hReported⟩ := side.push_length [] item
      obtain ⟨next, hRun, hNext, hKeys, hOutputs⟩ := pushItems_list side items
        (s := { s.tick with db := (s.db.push side.push side.created key item (s.clock 0)).1 })
        (by dsimp only; rw [hMap, Function.update_self]) side.created_nonpos hQuiet
      refine ⟨next, side.created, ?_, side.created_nonpos, ?_, hKeys.trans hCount, ?_⟩
      · rw [pushItems_cons side hResult]
        exact hRun _ fun _ => by rw [hReported, hLength]; rfl
      · rw [hNext]
        dsimp only
        rw [hMap, Function.update_idem, Side.extend_cons]
      · rw [hOutputs, hLength, List.length_cons, List.length_nil, Nat.cast_add, Nat.cast_add,
          add_right_comm, add_assoc]
        rfl
  | some value =>
      obtain ⟨data, deadline⟩ := value
      rw [hLive] at hHeld
      cases data with
      | str digits => cases hHeld
      | list ys =>
          cases hHeld
          have hEntry : s.db.toMap key = some ⟨.list xs, deadline⟩ := by
            simp only [KeyMap.live, Option.filter_eq_some_iff] at hLive
            exact hLive.1
          have hDeadline : deadline ≤ 0 := (hStored key _ hEntry).list rfl
          obtain ⟨next, hRun, hNext, hKeys, hOutputs⟩ :=
            pushItems_list side (item :: items) hEntry hDeadline hQuiet
          refine ⟨next, deadline, hRun 0 (fun h => absurd h (List.cons_ne_nil _ _)), hDeadline, hNext, ?_, hOutputs⟩
          rw [hKeys, hEntry]
          rfl

end Pushes

section Lasting

/-- What is stored at the key has no deadline. -/
def RedisDb.Lasting (key : Bytes) (db : RedisDb) : Prop :=
  ∀ v, db.toMap key = some v → v.expiration ≤ 0

variable {db : RedisDb} {key : Bytes}

theorem RedisDb.Lasting.get (h : db.Lasting key) (other : Bytes) (now : Int) :
    (db.get other now).1.Lasting key := by
  intro v hv
  rw [(db.get_spec other now).1] at hv
  by_cases hKey : key = other
  · subst hKey
    rw [KeyMap.dropExpired_self, KeyMap.live, Option.filter_eq_some_iff] at hv
    exact h v hv.1
  · rw [KeyMap.dropExpired_of_ne _ _ _ hKey] at hv
    exact h v hv

theorem RedisDb.Lasting.update (h : db.Lasting key) {next : RedisDb} {other : Bytes}
    {entry : Option RedisValue} (hNext : next.toMap = Function.update db.toMap other entry)
    (hEntry : key = other → ∀ v, entry = some v → v.expiration ≤ 0) : next.Lasting key := by
  intro v hv
  rw [hNext] at hv
  by_cases hKey : key = other
  · subst hKey
    rw [Function.update_self] at hv
    exact hEntry rfl v hv
  · rw [Function.update_of_ne hKey] at hv
    exact h v hv

/-- Only a `SET` of the key can give it a deadline. -/
theorem RedisDb.Lasting.step (h : db.Lasting key) {call : DbCall}
    (hCall : ∀ value expiration, call ≠ .set key value expiration) :
    (db.step call).1.Lasting key := by
  have hPush : ∀ side : Side, ∀ other item now,
      (db.push side.push side.created other item now).1.Lasting key := by
    intro side other item now
    refine push_preserves (I := RedisDb.Lasting key) side.created
      (fun _ other now h => h.get other now) (fun db other h _ => ?_)
      (fun db other old deadline xs h hFind => ?_) side.push db other item now h
    · refine h.update (db.toMap_set other _ _) fun _ v hv => ?_
      cases hv
      exact side.created_nonpos
    · refine h.update (db.toMap_setList other _ _) fun hKey v hv => ?_
      cases hv
      subst hKey
      exact h ⟨.list old, deadline⟩ hFind
  cases call with
  | set other value expiration =>
      refine h.update (db.toMap_set other _ _) fun hKey => ?_
      subst hKey
      exact absurd rfl (hCall value expiration)
  | get other now => exact h.get other now
  | exist other => exact h
  | delete other => exact h.update (db.toMap_delete other) fun _ v hv => by cases hv
  | lpush other item now => exact hPush .left other item now
  | rpush other item now => exact hPush .right other item now
  | lrange other start stop now =>
      change (redisDbLrange db other start stop now).1.Lasting key
      rw [lrange_fst]
      exact h.get other now

theorem RedisDb.Lasting.throughout (h : db.Lasting key) {calls : List DbCall}
    (hCalls : ∀ call ∈ calls, ∀ value expiration, call ≠ .set key value expiration) :
    Throughout RedisDb.step (RedisDb.Lasting key) db calls :=
  throughout_of_allSteps (fun _ _ h hCall => h.step hCall) h (allSteps_of_forall hCalls _)

end Lasting

section Ranges

variable {args : List Bytes} {command key first last : Bytes} {rest xs : List Bytes} {s : World}
  {deadline start stop : Int}

/-- `LRANGE` of a list, with indices that are numbers. -/
theorem executeCommand_lrange (hType : getCommandType (args.headD []) = .lrange)
    (hArgs : args.map cString = command :: key :: first :: last :: rest)
    (hEntry : s.db.toMap.live (s.clock 0) key = some ⟨.list xs, deadline⟩)
    (hFirst : parseInteger first = .ok start) (hLast : parseInteger last = .ok stop) :
    ∃ next, executeCommand args s = some next ∧
      next.outputs = [.reply (.array ((lrange xs (toInt32 start) (toInt32 stop)).1.getD []))] := by
  have hRange : (redisDbLrange s.db key (toInt32 start) (toInt32 stop) (s.clock 0)).2 =
      .ok (lrange xs (toInt32 start) (toInt32 stop)) := by
    rw [(s.db.lrange_spec key _ _ _).2, KeyMap.dropExpired_self, hEntry]
  unfold executeCommand
  rw [hType, hArgs]
  simp only [commandBody, handleLrange, hFirst, hLast, Except.toOption, Option.getD_some,
    World.lrange_eq, Option.bind_eq_bind, Option.bind_some, hRange]
  exact ⟨_, rfl, rfl⟩

/-- The whole list, from its first element to its last. -/
theorem lrange_whole (hne : xs ≠ []) (hSize : xs.length ≤ 2 ^ 31 - 1) :
    (lrange xs 0 (-1)).1 = some xs := by
  have hLength : 0 < xs.length := List.length_pos_iff.mpr hne
  have hFirst : listPosition xs.length 0 = 0 := rfl
  have hLast : listPosition xs.length (-1) = xs.length + -1 := rfl
  rw [lrange_eq hSize (by decide) (by decide)]
  dsimp only
  rw [hFirst, hLast, if_pos (by omega), elementsBetween_eq _ _ _ le_rfl]
  simp

/-- One reply that fits is what the client is sent. -/
theorem serveCommand_reply {rb : RingBuffer} {q : Bytes} {w : Nat} {next : World} {r : Reply}
    (hRun : executeCommand args s = some next) (hOutputs : next.outputs = [.reply r])
    (hRing : rb.Queues q w) (hMapped : rb.size = 65536) (hFits : r.Fits rb) :
    ∃ rb', serveCommand args s rb = some (next, rb') ∧
      rb'.Queues (q ++ r.encode) (w + r.encode.length) := by
  obtain ⟨rb', hAdd, hQueues, -⟩ := hFits.queues hRing hMapped
  refine ⟨rb', ?_, hQueues⟩
  simp only [serveCommand, hRun, Option.bind_eq_bind, Option.bind_some, hOutputs, List.foldlM_cons,
    addOutput, hAdd, List.foldlM_nil]
  rfl

/-- The range over all of a list reads it back. -/
theorem serveCommand_whole_range (hType : getCommandType (args.headD []) = .lrange)
    (hArgs : args.map cString = command :: key :: text "0" :: text "-1" :: rest)
    (hEntry : s.db.toMap key = some ⟨.list xs, deadline⟩) (hDeadline : deadline ≤ 0)
    (hne : xs ≠ []) (hSize : xs.length ≤ 2 ^ 31 - 1) {rb : RingBuffer} {q : Bytes} {w : Nat}
    (hRing : rb.Queues q w) (hMapped : rb.size = 65536) (hFits : (Reply.array xs).Fits rb) :
    ∃ next rb', serveCommand args s rb = some (next, rb') ∧
      next.outputs = [.reply (.array xs)] ∧
      rb'.Queues (q ++ (Reply.array xs).encode) (w + (Reply.array xs).encode.length) := by
  have hLive : s.db.toMap.live (s.clock 0) key = some ⟨.list xs, deadline⟩ :=
    KeyMap.live_of_lasting _ _ hEntry hDeadline _
  have hZero : parseInteger (text "0") = .ok 0 := rfl
  have hLast : parseInteger (text "-1") = .ok (-1) := rfl
  have hWhole : (lrange xs (toInt32 0) (toInt32 (-1))).1 = some xs := lrange_whole hne hSize
  obtain ⟨next, hRun, hReply⟩ := executeCommand_lrange hType hArgs hLive hZero hLast
  rw [hWhole] at hReply
  obtain ⟨rb', hServe, hQueues⟩ := serveCommand_reply hRun hReply hRing hMapped hFits
  exact ⟨next, rb', hServe, hReply, hQueues⟩

end Ranges

/-- A push of one or more items, on a key with a list or with nothing to be
seen, and the range that reads the result back. -/
theorem push_semantics (side : Side) (args : List Bytes) (s : World) {command key : Bytes}
    {items xs : List Bytes} (hReach : s.db.Reachable)
    (hType : getCommandType (args.headD []) = side.commandType)
    (hArgs : args.map cString = command :: key :: items) (hItems : items ≠ [])
    (hHeld : s.heldList key = some xs) (hSize : xs.length + items.length ≤ 2 ^ 31 - 1) :
    ∃ next, executeCommand args s = some next ∧
      (∃ deadline, next.db.toMap key = some ⟨.list (side.extend xs items), deadline⟩) ∧
      next.outputs =
        (if s.shouldReply then [.reply (.integer (xs.length + items.length))] else []) ∧
      (∀ calls : List DbCall,
        (∀ call ∈ calls, ∀ value expiration, call ≠ .set key value expiration) →
        Throughout RedisDb.step (fun db => ∀ v now, db.toMap key = some v → ¬v.Expired now)
          next.db calls) ∧
      next.db.keyCount = (if (s.db.toMap key).isSome then s.db.keyCount else s.db.keyCount + 1) ∧
      (∀ other, other ≠ key → next.db.toMap other = s.db.toMap other) ∧
      ∀ (t : World) (range : List Bytes) (word : Bytes) (rest : List Bytes), t.db = next.db →
        getCommandType (range.headD []) = .lrange →
        range.map cString = word :: key :: text "0" :: text "-1" :: rest →
        ∀ (rb : RingBuffer) (q : Bytes) (w : Nat), rb.Queues q w → rb.size = 65536 →
          (Reply.array (side.extend xs items)).Fits rb →
          ∃ t' rb', serveCommand range t rb = some (t', rb') ∧
            t'.outputs = [.reply (.array (side.extend xs items))] ∧
            rb'.Queues (q ++ (Reply.array (side.extend xs items)).encode)
              (w + (Reply.array (side.extend xs items)).encode.length) := by
  obtain ⟨item, items, rfl⟩ := List.exists_cons_of_ne_nil hItems
  obtain ⟨next, deadline, hRun, hDeadline, hMap, hCount, hOutputs⟩ :=
    pushItems_held side item items (s := { s with outputs := [] }) hReach.allStored hHeld rfl
  have hEntry : next.db.toMap key = some ⟨.list (side.extend xs (item :: items)), deadline⟩ := by
    rw [hMap, Function.update_self]
  have hTotal : toInt32 (xs.length + (item :: items).length) = xs.length + (item :: items).length :=
    toInt32_of_small (by omega) (by omega)
  rw [hTotal] at hOutputs
  refine ⟨next, ?_, ⟨deadline, hEntry⟩, hOutputs, fun calls hCalls => ?_, hCount, ?_, ?_⟩
  · rw [executeCommand, hType, hArgs]
    cases side with
    | left => exact hRun
    | right => exact hRun
  · have hLasting : next.db.Lasting key := by
      intro v hv
      rw [hEntry] at hv
      cases hv
      exact hDeadline
    refine (hLasting.throughout hCalls).imp fun db h v now hv => ?_
    exact KeyMap.not_expired_of_lasting (h v hv) now
  · intro other hOther
    rw [hMap, Function.update_of_ne hOther]
  · intro t range word rest hDb hRangeType hRangeArgs rb q w hRing hMapped hFits
    have hLength := side.length_extend xs (item :: items)
    have hne : side.extend xs (item :: items) ≠ [] := by
      intro hNil
      rw [hNil, List.length_nil, List.length_cons] at hLength
      omega
    rw [← hDb] at hEntry
    exact serveCommand_whole_range hRangeType hRangeArgs hEntry hDeadline hne (by omega) hRing
      hMapped hFits

/-- `LPUSH k b c` on a list of one element, with a clock that goes backwards. -/
theorem push_semantics_left :
    ∃ next, executeCommand [text "LPUSH", text "k", text "b", text "c"]
        { emptyWorld with
          db := (redisDbRpush redisDbCreate (text "k") (text "a") 5).1
          clock := fun n => 9 - n } = some next ∧
      next.outputs = [.reply (.integer 3)] ∧
      ∃ deadline, next.db.toMap (text "k") = some ⟨.list [text "c", text "b", text "a"], deadline⟩ := by
  obtain ⟨next, hRun, hEntry, hOutputs, -⟩ := push_semantics .left
    [text "LPUSH", text "k", text "b", text "c"]
    { emptyWorld with
      db := (redisDbRpush redisDbCreate (text "k") (text "a") 5).1
      clock := fun n => 9 - n }
    ⟨[.rpush (text "k") (text "a") 5], by simp [DbCall.InRange], List.Perm.refl _, rfl, rfl⟩
    rfl rfl (by decide) rfl (by decide)
  exact ⟨next, hRun, hOutputs, hEntry⟩

section Indices

/-- The elements that two indices ask for, in unbounded numbers. -/
def wantedRange (xs : List Bytes) (start stop : Int) : List Bytes :=
  let first := listPosition xs.length start
  let last := listPosition xs.length stop
  if first < 0 ∨ first ≥ xs.length ∨ last < first then [] else elementsBetween xs first last

/-- `LRANGE` answers with what its indices ask for, and a client whose output
ring has room for that is sent it. -/
def RangeExact (args xs : List Bytes) (start stop : Int) (s : World) : Prop :=
  ∃ next, executeCommand args s = some next ∧
    next.outputs = [.reply (.array (wantedRange xs start stop))] ∧
    ∀ (rb : RingBuffer) (q : Bytes) (w : Nat), rb.Queues q w → rb.size = 65536 →
      (Reply.array (wantedRange xs start stop)).Fits rb →
      ∃ rb', serveCommand args s rb = some (next, rb') ∧
        rb'.Queues (q ++ (Reply.array (wantedRange xs start stop)).encode)
          (w + (Reply.array (wantedRange xs start stop)).encode.length)

def FitsInt (i : Int) : Prop := -2 ^ 31 ≤ i ∧ i < 2 ^ 31

instance (i : Int) : Decidable (FitsInt i) := inferInstanceAs (Decidable (_ ∧ _))

/-- The indices that a list of this length can take: `int`s, or numbers that
are cut to `int`s which ask for the same. -/
def IndicesKept (length : Nat) (start stop : Int) : Prop :=
  let first := listPosition length (toInt32 start)
  let last := listPosition length (toInt32 stop)
  if FitsInt start then
    FitsInt stop ∨ ¬(0 ≤ first ∧ first < length) ∨
      (0 ≤ stop ∧ length - 1 ≤ last) ∨ (stop < 0 ∧ last < first)
  else ¬(0 ≤ first ∧ first < length ∧ first ≤ last)

variable {xs : List Bytes} {start stop : Int}

theorem wantedRange_toInt32 (hSize : xs.length ≤ 2 ^ 31 - 1) :
    (lrange xs (toInt32 start) (toInt32 stop)).1.getD [] =
      wantedRange xs (toInt32 start) (toInt32 stop) := by
  rw [lrange_eq hSize (toInt32_range start) (toInt32_range stop)]
  unfold wantedRange
  dsimp only
  by_cases hOut : listPosition xs.length (toInt32 start) < 0 ∨
      listPosition xs.length (toInt32 start) ≥ xs.length ∨
      listPosition xs.length (toInt32 stop) < listPosition xs.length (toInt32 start)
  · rw [if_pos hOut, if_neg (by omega)]
    rfl
  · rw [if_neg hOut, if_pos (by omega)]
    rfl

/-- How many elements there are between two positions. -/
theorem length_wantedRange (xs : List Bytes) (start stop : Int) :
    ((wantedRange xs start stop).length : Int) =
      let first := listPosition xs.length start
      let last := listPosition xs.length stop
      if first < 0 ∨ first ≥ xs.length ∨ last < first then 0
      else min last (xs.length - 1) - first + 1 := by
  unfold wantedRange
  dsimp only
  split
  · rfl
  · rw [length_elementsBetween _ _ _ (by omega) (by omega) (by omega)]

theorem wantedRange_eq_nil_iff (xs : List Bytes) (start stop : Int) :
    wantedRange xs start stop = [] ↔
      ¬(0 ≤ listPosition xs.length start ∧ listPosition xs.length start < xs.length ∧
        listPosition xs.length start ≤ listPosition xs.length stop) := by
  have hLength := length_wantedRange xs start stop
  dsimp only at hLength
  rw [← List.length_eq_zero_iff]
  split at hLength <;> omega

/-- Positions past the end make no difference. -/
theorem wantedRange_congr_last {other : Int} (h : xs.length - 1 ≤ listPosition xs.length stop)
    (hOther : xs.length - 1 ≤ listPosition xs.length other) :
    wantedRange xs start stop = wantedRange xs start other := by
  unfold wantedRange
  dsimp only
  rw [← elementsBetween_min xs _ (listPosition xs.length stop),
    ← elementsBetween_min xs _ (listPosition xs.length other), min_eq_right h, min_eq_right hOther]
  by_cases hInside : 0 ≤ listPosition xs.length start ∧ listPosition xs.length start < xs.length
  · rw [if_neg (by omega), if_neg (by omega)]
  · rw [if_pos (by omega), if_pos (by omega)]

/-- A number that is no `int` stands for a position outside of every list. -/
theorem listPosition_outside {length : Nat} {i : Int} (hSize : length ≤ 2 ^ 31 - 1)
    (h : ¬FitsInt i) :
    0 ≤ i ∧ length ≤ listPosition length i ∨ i < 0 ∧ listPosition length i < 0 := by
  unfold FitsInt at h
  unfold listPosition
  split
  · exact .inr (by omega)
  · exact .inl (by omega)

/-- Cutting the indices either keeps the range or changes its length. -/
theorem wantedRange_kept_iff (hSize : xs.length ≤ 2 ^ 31 - 1) :
    wantedRange xs (toInt32 start) (toInt32 stop) = wantedRange xs start stop ↔
      IndicesKept xs.length start stop := by
  unfold IndicesKept
  dsimp only
  by_cases hStart : FitsInt start
  · rw [if_pos hStart, toInt32_of_small hStart.1 hStart.2]
    by_cases hStop : FitsInt stop
    · rw [toInt32_of_small hStop.1 hStop.2]
      exact iff_of_true rfl (.inl hStop)
    · by_cases hFirst : 0 ≤ listPosition xs.length start ∧ listPosition xs.length start < xs.length
      · have hCut := wantedRange_eq_nil_iff xs start (toInt32 stop)
        have hCutLength := length_wantedRange xs start (toInt32 stop)
        simp only [hStop, false_or]
        rcases listPosition_outside hSize hStop with ⟨hPos, hLast⟩ | ⟨hNeg, hLast⟩
        · -- the last index asks for all that follows
          have hLength := length_wantedRange xs start stop
          dsimp only at hCutLength hLength
          rw [if_neg (by omega)] at hLength
          constructor
          · intro hSame
            rw [hSame, hLength] at hCutLength
            split at hCutLength <;> omega
          · intro hKept
            apply wantedRange_congr_last
            · omega
            · omega
        · -- the last index is before the list
          have hNil : wantedRange xs start stop = [] := by
            rw [wantedRange_eq_nil_iff]
            omega
          rw [hNil, hCut]
          omega
      · have hNil : ∀ last, wantedRange xs start last = [] := by
          intro last
          rw [wantedRange_eq_nil_iff]
          omega
        rw [hNil, hNil]
        exact iff_of_true rfl (.inr (.inl hFirst))
  · have hNil : wantedRange xs start stop = [] := by
      rw [wantedRange_eq_nil_iff]
      rcases listPosition_outside hSize hStart with ⟨-, hFirst⟩ | ⟨-, hFirst⟩
      · omega
      · omega
    rw [if_neg hStart, hNil, wantedRange_eq_nil_iff]

/-- `LRANGE` of a list honours its indices just when they are `int`s or are cut
to `int`s that ask for the same. -/
theorem lrange_honours_iff {args : List Bytes} {command key first last : Bytes} {rest : List Bytes}
    {s : World} {deadline : Int} (hReach : s.db.Reachable)
    (hType : getCommandType (args.headD []) = .lrange)
    (hArgs : args.map cString = command :: key :: first :: last :: rest)
    (hEntry : s.db.toMap key = some ⟨.list xs, deadline⟩) (hSize : xs.length ≤ 2 ^ 31 - 1)
    (hFirst : parseInteger first = .ok start) (hLast : parseInteger last = .ok stop) :
    RangeExact args xs start stop s ↔ IndicesKept xs.length start stop := by
  have hNone : deadline ≤ 0 := (hReach.allStored key _ hEntry).list rfl
  have hLive : s.db.toMap.live (s.clock 0) key = some ⟨.list xs, deadline⟩ :=
    KeyMap.live_of_lasting _ _ hEntry hNone _
  obtain ⟨next, hRun, hOutputs⟩ := executeCommand_lrange hType hArgs hLive hFirst hLast
  rw [wantedRange_toInt32 hSize] at hOutputs
  rw [← wantedRange_kept_iff hSize]
  constructor
  · rintro ⟨other, hOther, hWanted, -⟩
    obtain rfl : next = other := Option.some.inj (hRun.symm.trans hOther)
    rw [hOutputs] at hWanted
    simpa using hWanted
  · intro hSame
    rw [hSame] at hOutputs
    refine ⟨next, hRun, hOutputs, fun rb q w hRing hMapped hFits => ?_⟩
    exact serveCommand_reply hRun hOutputs hRing hMapped hFits

/-- A server with the list `a b` at `k`. -/
def listWorld : World :=
  { emptyWorld with
    db := (run RedisDb.step redisDbCreate
      [.rpush (text "k") (text "a") 0, .rpush (text "k") (text "b") 0]).1 }

theorem listWorld_reachable : listWorld.db.Reachable :=
  ⟨[.rpush (text "k") (text "a") 0, .rpush (text "k") (text "b") 0], by simp [DbCall.InRange],
    List.Perm.refl _, rfl, rfl⟩

theorem lrange_honours_ints :
    RangeExact [text "LRANGE", text "k", text "-1", text "5"] [text "a", text "b"] (-1) 5 listWorld := by
  refine (lrange_honours_iff listWorld_reachable rfl rfl rfl (by decide) rfl rfl).mpr ?_
  exact .inl (by decide)

/-- `LRANGE k 4294967296 0` asks for nothing and is answered with the first
element. -/
theorem lrange_cuts_index :
    listWorld.db.Reachable ∧
      parseInteger (text "4294967296") = .ok 4294967296 ∧
      wantedRange [text "a", text "b"] 4294967296 0 = [] ∧
      (executeCommand [text "LRANGE", text "k", text "4294967296", text "0"] listWorld).map
        World.outputs = some [.reply (.array [text "a"])] ∧
      ¬RangeExact [text "LRANGE", text "k", text "4294967296", text "0"] [text "a", text "b"]
        4294967296 0 listWorld := by
  refine ⟨listWorld_reachable, rfl, rfl, rfl, ?_⟩
  rintro ⟨next, hRun, hOutputs, -⟩
  have hReply : (executeCommand [text "LRANGE", text "k", text "4294967296", text "0"] listWorld).map
      World.outputs = some [.reply (.array [text "a"])] := rfl
  rw [hRun, Option.map_some, hOutputs] at hReply
  cases hReply

end Indices

end RedisServer
