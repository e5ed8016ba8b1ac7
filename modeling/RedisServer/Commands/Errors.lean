import RedisServer.Storage.LiveKeys
import RedisServer.Commands.SetOptions

/-! Commands that fail. An error is reported before the store is written; the
lookups on the way drop expired entries only. A push of several items tests the
type for each of them, and what keeps it from failing in the middle is that a
list never has a deadline. -/
namespace RedisServer

open Machine

/-- On the way through a body: some readings of the clock have been taken,
nothing has been answered, and there is nothing to be seen of a change. -/
structure World.Intact (s t : World) (k : Nat) : Prop where
  clock : t.clock = fun i => s.clock (i + k)
  outputs : t.outputs = []
  live : ∀ time, (∀ i < k, s.clock i ≤ time) → t.db.toMap.live time = s.db.toMap.live time

/-- The body has run to its end. If there is an error among the replies, the
entries that can be seen from then on are those that were there before. -/
def World.Reports (s : World) (result : Option World) : Prop :=
  ∃ next k, result = some next ∧ (next.clock = fun i => s.clock (i + k)) ∧
    ∀ message, .reply (.error message) ∈ next.outputs →
      ∀ time, (∀ i < k, s.clock i ≤ time) → next.db.toMap.live time = s.db.toMap.live time

section Reports

variable {s t : World} {k : Nat}

/-- One reading of the clock more. -/
theorem World.tick_clock (h : t.clock = fun i => s.clock (i + k)) :
    t.tick.clock = fun i => s.clock (i + (k + 1)) := by
  simp only [World.tick, h]
  funext i
  rw [Nat.add_right_comm, Nat.add_assoc]

theorem World.Intact.refl (h : s.outputs = []) : s.Intact s 0 := ⟨rfl, h, fun _ _ => rfl⟩

theorem World.Intact.get (h : s.Intact t k) (key : Bytes) :
    s.Intact { t.tick with db := (redisDbGet t.db key (t.clock 0)).1 } (k + 1) := by
  have hNow : t.clock 0 = s.clock k := by simp only [h.clock, Nat.zero_add]
  refine ⟨World.tick_clock h.clock, h.outputs, fun time hTime => ?_⟩
  have hDropped := (t.db.get_spec key (t.clock 0)).1
  dsimp only [redisDbGet]
  rw [hDropped, KeyMap.live_dropExpired_of_le _ key (by rw [hNow]; exact hTime k (by omega))]
  exact h.live time fun i hi => hTime i (by omega)

/-- Any answer will do when nothing has changed. -/
theorem World.Intact.answer (h : s.Intact t k) (r : Reply) : s.Reports (some (t.answer r)) :=
  ⟨_, k, rfl, h.clock, fun _ _ => h.live⟩

theorem World.Intact.answerIf (h : s.Intact t k) (r : Reply) : s.Reports (some (t.answerIf r)) := by
  unfold World.answerIf
  split
  · exact h.answer r
  · exact ⟨t, k, rfl, h.clock, fun _ _ => h.live⟩

/-- The reply is not an error. -/
def Reply.Fine (r : Reply) : Prop := ∀ message, r ≠ .error message

/-- Any change will do when the answer is not an error. -/
theorem World.reports_answer (hClock : t.clock = fun i => s.clock (i + k)) (hOutputs : t.outputs = [])
    {r : Reply} (hr : r.Fine) : s.Reports (some (t.answer r)) := by
  refine ⟨_, k, rfl, hClock, fun message hMem => ?_⟩
  simp only [World.answer, hOutputs, List.nil_append, List.mem_singleton, Output.reply.injEq] at hMem
  exact absurd hMem.symm (hr message)

theorem World.reports_answerIf (hClock : t.clock = fun i => s.clock (i + k))
    (hOutputs : t.outputs = []) {r : Reply} (hr : r.Fine) : s.Reports (some (t.answerIf r)) := by
  unfold World.answerIf
  split
  · exact World.reports_answer hClock hOutputs hr
  · refine ⟨t, k, rfl, hClock, fun message hMem => ?_⟩
    rw [hOutputs] at hMem
    cases hMem

theorem setAnswer_fine (options : SetOptions) (old : Option Bytes) : (setAnswer options old).Fine := by
  intro message
  unfold setAnswer
  split
  · cases old <;> simp
  · simp

end Reports

section Pushes

/-- The key holds a list, without a deadline. -/
def RedisDb.Listed (db : RedisDb) (key : Bytes) : Prop :=
  ∃ xs deadline, db.h.lookup key = some ⟨.list xs, deadline⟩ ∧ deadline ≤ 0

variable {db : RedisDb} {key : Bytes} (side : List Bytes → Bytes → List Bytes × Int) (created : Int)
  (item : Bytes) (now : Int)

theorem RedisDb.listed_setList (db : RedisDb) (key : Bytes) {value : RedisValue}
    (h : value.expiration ≤ 0) (xs : List Bytes) : (db.setList key value xs).Listed key :=
  ⟨xs, value.expiration, AList.lookup_insert _, h⟩

/-- A list stays a list, whatever the time is. -/
theorem RedisDb.Listed.push (h : db.Listed key) :
    (db.push side created key item now).1.Listed key ∧
      ∃ length, (db.push side created key item now).2 = .ok length := by
  obtain ⟨xs, deadline, hFind, hNone⟩ := h
  have hGet : redisDbGet db key now = (db, some ⟨.list xs, deadline⟩) :=
    db.get_of_lasting hFind hNone now
  simp only [RedisDb.push, hGet]
  exact ⟨db.listed_setList key hNone _, _, rfl⟩

/-- A push that succeeds leaves a list without a deadline behind. -/
theorem RedisDb.push_listed (key : Bytes) (h : db.AllStored) (hCreated : created ≤ 0) :
    (db.push side created key item now).2 = .error .typeMismatch ∧
        (db.push side created key item now).1 = (redisDbGet db key now).1 ∨
      (db.push side created key item now).1.Listed key ∧
        ∃ length, (db.push side created key item now).2 = .ok length := by
  unfold RedisDb.push
  cases hGet : redisDbGet db key now with
  | mk next found =>
      rcases found with - | ⟨⟨⟩ | ⟨xs⟩, deadline⟩
      · exact Or.inr ⟨RedisDb.listed_setList _ key hCreated _, _, rfl⟩
      · exact Or.inl ⟨rfl, rfl⟩
      · have hNone : deadline ≤ 0 := by
          have hAll := h.get key now
          rw [show db.get key now = (next, some ⟨.list xs, deadline⟩) from hGet] at hAll
          exact (hAll key _ (lookup_of_get hGet)).list rfl
        exact Or.inr ⟨RedisDb.listed_setList next key hNone _, _, rfl⟩

end Pushes

section Bodies

variable {s : World}

/-- Once the key holds a list, the rest of the items are pushed. -/
theorem pushItems_listed {t : World} {k : Nat} {key : Bytes}
    (side : List Bytes → Bytes → List Bytes × Int) (created : Int) (items : List Bytes) (length : Int)
    (h : t.db.Listed key) (hClock : t.clock = fun i => s.clock (i + k)) (hOutputs : t.outputs = []) :
    s.Reports (pushItems side created key items length t) := by
  induction items generalizing t k length with
  | nil => exact World.reports_answerIf hClock hOutputs fun message => by simp
  | cons item items ih =>
      obtain ⟨hListed, next, hResult⟩ := h.push side created item (t.clock 0)
      simp only [pushItems, World.push_eq, Option.bind_eq_bind, Option.bind_some, hResult]
      exact ih (k := k + 1) next hListed (World.tick_clock hClock) hOutputs

/-- Only the first item can fail. -/
theorem pushItems_reports (side : List Bytes → Bytes → List Bytes × Int) {created : Int}
    (hCreated : created ≤ 0) (key : Bytes) (items : List Bytes) (length : Int)
    (h : s.db.AllStored) (hOutputs : s.outputs = []) :
    s.Reports (pushItems side created key items length s) := by
  have hIntact := World.Intact.refl hOutputs
  cases items with
  | nil => exact hIntact.answerIf _
  | cons item items =>
      simp only [pushItems, World.push_eq, Option.bind_eq_bind, Option.bind_some]
      rcases RedisDb.push_listed side created item (s.clock 0) key h hCreated with
        ⟨hError, hDb⟩ | ⟨hListed, next, hResult⟩
      · simp only [hError, hDb]
        exact (hIntact.get key).answerIf _
      · simp only [hResult]
        exact pushItems_listed side created items next hListed (k := 1) rfl hOutputs

theorem handleLpush_reports (args : List Bytes) (h : s.db.AllStored) (hOutputs : s.outputs = []) :
    s.Reports (handleLpush args s) := by
  unfold handleLpush
  split
  · exact pushItems_reports lpush (by omega) _ _ 0 h hOutputs
  · exact (World.Intact.refl hOutputs).answerIf _

theorem handleRpush_reports (args : List Bytes) (h : s.db.AllStored) (hOutputs : s.outputs = []) :
    s.Reports (handleRpush args s) := by
  unfold handleRpush
  split
  · exact pushItems_reports rpush le_rfl _ _ 0 h hOutputs
  · exact (World.Intact.refl hOutputs).answerIf _

theorem handleGet_reports (args : List Bytes) (hOutputs : s.outputs = []) :
    s.Reports (handleGet args s) := by
  have hIntact := World.Intact.refl hOutputs
  unfold handleGet
  split
  · rename_i command key
    simp only [World.get_eq, Option.bind_eq_bind, Option.bind_some]
    rcases (redisDbGet s.db key (s.clock 0)).2 with - | ⟨⟨⟩ | ⟨⟩, deadline⟩
    · exact (hIntact.get key).answerIf _
    · exact (hIntact.get key).answerIf _
    · exact (hIntact.get key).answerIf _
  · exact hIntact.answerIf _

theorem handleLrange_reports (args : List Bytes) (hOutputs : s.outputs = []) :
    s.Reports (handleLrange args s) := by
  have hIntact := World.Intact.refl hOutputs
  unfold handleLrange
  split
  · rename_i command key first last rest
    have hDb : ∀ start stop, (redisDbLrange s.db key start stop (s.clock 0)).1 =
        (redisDbGet s.db key (s.clock 0)).1 := fun start stop => RedisDb.lrange_fst ..
    simp only [World.lrange_eq, Option.bind_eq_bind, Option.bind_some, hDb]
    split
    · exact (hIntact.get key).answer _
    · exact (hIntact.get key).answer _
    · exact (hIntact.get key).answer _
  · exact hIntact.answer _

theorem foldlM_delete_frame (keys : List Bytes) (s : World) :
    ∃ t, keys.foldlM World.delete s = some t ∧ t.clock = s.clock ∧ t.outputs = s.outputs := by
  induction keys generalizing s with
  | nil => exact ⟨s, rfl, rfl, rfl⟩
  | cons key keys ih =>
      rw [List.foldlM_cons, World.delete_eq]
      exact ih { s with db := redisDbDelete s.db key }

theorem handleDelete_reports (args : List Bytes) (hOutputs : s.outputs = []) :
    s.Reports (handleDelete args s) := by
  unfold handleDelete
  split
  · exact (World.Intact.refl hOutputs).answer _
  · obtain ⟨t, hDelete, hClock, hSame⟩ := foldlM_delete_frame (args.drop 1) s
    rw [hDelete]
    refine World.reports_answerIf (k := 0) hClock (hSame.trans hOutputs) ?_
    exact fun message => by simp

theorem handleIncrDecr_reports (increment : Int) {args : List Bytes} (hOutputs : s.outputs = [])
    (h : ∀ command key rest value, args = command :: key :: rest →
      (redisDbGet s.db key (s.clock 0)).2 = some value → value.data.type = .string) :
    s.Reports (handleIncrDecr increment args s) := by
  have hIntact := World.Intact.refl hOutputs
  unfold handleIncrDecr
  split
  · rename_i command key rest
    simp only [World.get_eq, World.set_eq, Option.bind_eq_bind, Option.bind_some]
    cases hValue : (redisDbGet s.db key (s.clock 0)).2 with
    | none =>
        apply World.reports_answerIf (k := 1)
        · rfl
        · exact hOutputs
        · exact fun message => by simp
    | some value =>
        have hString := h command key rest value rfl hValue
        rcases value with ⟨⟨str⟩ | ⟨⟩, deadline⟩
        · simp only [RedisData.strMember, Option.map_some, Option.bind_some]
          split
          · exact (hIntact.get key).answerIf _
          · apply World.reports_answerIf (k := 1)
            · rfl
            · exact hOutputs
            · exact fun message => by simp
        · cases hString
  · exact hIntact.answerIf _

/-- Past its options `SET` has no error to report. -/
theorem applySet_reports {t : World} {k : Nat} (key value : Bytes) (options : SetOptions)
    (hClock : t.clock = fun i => s.clock (i + k)) (hOutputs : t.outputs = [])
    (h : ∀ old, options.get = true → ¬options.nx = true →
      (redisDbGet t.db key (t.clock 0)).2 = some old → old.data.type = .string) :
    s.Reports (applySet key value options t) := by
  obtain ⟨u, existing, hExisting, hLater, hSame, hFound⟩ :
      ∃ u existing, existingForSet key options t = some (u, existing) ∧
        (∃ k, u.clock = fun i => s.clock (i + k)) ∧ u.outputs = [] ∧
        ∀ old, existing = some old → (redisDbGet t.db key (t.clock 0)).2 = some old := by
    unfold existingForSet
    split
    · exact ⟨_, _, World.get_eq t key, ⟨k + 1, World.tick_clock hClock⟩, hOutputs,
        fun old hOld => hOld⟩
    · exact ⟨t, none, rfl, ⟨k, hClock⟩, hOutputs, fun old hOld => by cases hOld⟩
  obtain ⟨n, hLater⟩ := hLater
  simp only [applySet, hExisting, Option.bind_eq_bind, Option.bind_some, World.set_eq]
  split
  · exact World.reports_answerIf hLater hSame fun message => by simp
  · rename_i hGoesOn
    obtain ⟨old, hOld⟩ : ∃ old, oldValue options existing = some old := by
      refine oldValue_some fun old hOption hSome => ?_
      refine h old hOption (fun hNx => hGoesOn (Or.inl ⟨hNx, ?_⟩)) (hFound old hSome)
      rw [hSome]
      rfl
    rw [hOld, Option.bind_some]
    apply World.reports_answerIf (k := n)
    · exact hLater
    · exact hSame
    · exact setAnswer_fine options old

theorem handleSet_reports {args : List Bytes} (hOutputs : s.outputs = [])
    (h : ∀ key type now value, needs .set args s = some (key, type, now) →
      (redisDbGet s.db key now).2 = some value → value.data.type = type) :
    s.Reports (handleSet args s) := by
  have hIntact := World.Intact.refl hOutputs
  unfold handleSet
  split
  · rename_i command key value rest
    cases hParse : parseSetOptions rest ⟨0, false, false, false, false⟩ s.clock with
    | error e =>
        cases e with
        | syntaxErr => exact hIntact.answerIf _
        | valueErr => exact hIntact.answerIf _
    | ok result =>
        obtain ⟨options, clock⟩ := result
        obtain ⟨-, k, hClock⟩ := parseSetOptions_spec hParse
        dsimp only
        split
        · have hLater : s.Intact { s with clock := clock } k := ⟨hClock, hOutputs, fun _ _ => rfl⟩
          exact hLater.answerIf _
        · rename_i hLow
          refine applySet_reports key value options hClock hOutputs fun old hGet hNx hOld => ?_
          refine h key .string (clock 0) old ?_ hOld
          simp only [needs, hParse]
          rw [if_pos ⟨hGet, hNx, by omega⟩]
  · exact hIntact.answer _

end Bodies

/-- A command that reports an error leaves the entries that can be seen as they
were, for everyone who looks when it is over. -/
theorem errors_leave_live_entries (args : List Bytes) (s : World) (hReach : s.db.Reachable)
    (hText : ¬(TakesText args ∧ Mismatch args s)) : s.Reports (executeCommand args s) := by
  change World.Reports { s with outputs := [] } (executeCommand args s)
  have hStored : s.db.AllStored := hReach.allStored
  have hIntact : World.Intact { s with outputs := [] } { s with outputs := [] } 0 :=
    World.Intact.refl rfl
  have hFitting := fitting_of_not_mismatch hText
  unfold TakesText at hFitting
  unfold executeCommand
  cases hCommand : getCommandType (args.headD []) with
  | ping =>
      simp only [commandBody, handlePing]
      split
      · exact hIntact.answer _
      · exact hIntact.answer _
      · exact hIntact.answer _
  | echo =>
      simp only [commandBody, handleEcho]
      split
      · exact hIntact.answer _
      · exact hIntact.answer _
  | set =>
      rw [hCommand] at hFitting
      refine handleSet_reports rfl fun key type now value hNeeds => ?_
      exact hFitting (by decide) key type now value (needs_outputs .set _ s [] ▸ hNeeds)
  | get => exact handleGet_reports _ rfl
  | exist =>
      simp only [commandBody, handleExist]
      split
      · exact hIntact.answer _
      · exact hIntact.answer _
  | del => exact handleDelete_reports _ rfl
  | incr =>
      rw [hCommand] at hFitting
      refine handleIncrDecr_reports 1 rfl fun command key rest value hArgs hValue => ?_
      exact hFitting (by decide) key .string (s.clock 0) value (by rw [hArgs]; rfl) hValue
  | decr =>
      rw [hCommand] at hFitting
      refine handleIncrDecr_reports (-1) rfl fun command key rest value hArgs hValue => ?_
      exact hFitting (by decide) key .string (s.clock 0) value (by rw [hArgs]; rfl) hValue
  | lpush => exact handleLpush_reports _ hStored rfl
  | rpush => exact handleRpush_reports _ hStored rfl
  | lrange => exact handleLrange_reports _ rfl
  | config =>
      simp only [commandBody, handleConfig]
      split
      · split
        · split
          · exact hIntact.answer _
          · exact hIntact.answer _
        · exact ⟨_, 0, rfl, rfl, fun _ _ _ _ => rfl⟩
      · exact hIntact.answer _
  | save =>
      simp only [commandBody, handleSave]
      split
      · exact ⟨_, 0, rfl, rfl, fun _ _ _ _ => rfl⟩
      · exact ⟨_, 0, rfl, rfl, fun _ _ _ _ => rfl⟩
  | dbsize => exact hIntact.answer _
  | info => exact hIntact.answer _
  | replconf =>
      simp only [commandBody, handleReplconf]
      split
      · split
        · exact hIntact.answer _
        · exact hIntact.answer _
      · exact hIntact.answer _
  | psync =>
      simp only [commandBody, handlePsync]
      split
      · split
        · exact ⟨_, 0, rfl, rfl, fun _ _ _ _ => rfl⟩
        · exact ⟨_, 0, rfl, rfl, fun _ _ _ _ => rfl⟩
      · exact hIntact.answer _
  | unknown => exact hIntact.answer _

/-- `LPUSH k a b` on a text. -/
theorem errors_leave_live_entries_lpush :
    World.Reports { emptyWorld with db := redisDbSet redisDbCreate (text "k") (text "v") 0 }
      (executeCommand [text "LPUSH", text "k", text "a", text "b"]
        { emptyWorld with db := redisDbSet redisDbCreate (text "k") (text "v") 0 }) := by
  apply errors_leave_live_entries
  · exact ⟨[.set (text "k") (text "v") 0], by decide, List.Perm.refl _, rfl, rfl⟩
  · rintro ⟨hText, -⟩
    revert hText
    unfold TakesText
    decide

end RedisServer
