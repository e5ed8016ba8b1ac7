import RedisServer.Commands.Answers

/-! The types of values. Every body that takes a value apart tests its type
first, with the exception of `INCR`, `DECR` and `SET` with the option `GET`,
which read the text of whatever they find. -/
namespace RedisServer

open Machine

/-- The key of a command that can run on one type of value only, with the type
and the reading of the clock for which the key is looked up. `SET` looks at an
existing value for `GET`, but with `NX` the existence is all it asks for. -/
def needs : CommandType → List Bytes → World → Option (Bytes × ValueType × Int)
  | .get, [_, key], s => some (key, .string, s.clock 0)
  | .incr, _ :: key :: _, s => some (key, .string, s.clock 0)
  | .decr, _ :: key :: _, s => some (key, .string, s.clock 0)
  | .set, _ :: key :: _ :: rest, s =>
      match parseSetOptions rest ⟨0, false, false, false, false⟩ s.clock with
      | .ok (options, clock) =>
          if options.get ∧ ¬options.nx ∧ 0 ≤ options.expiration then some (key, .string, clock 0)
          else none
      | .error _ => none
  | .lpush, _ :: key :: _ :: _, s => some (key, .list, s.clock 0)
  | .rpush, _ :: key :: _ :: _, s => some (key, .list, s.clock 0)
  | .lrange, _ :: key :: _ :: _ :: _, s => some (key, .list, s.clock 0)
  | _, _, _ => none

/-- The live entry of the key has the other type. -/
def Mismatch (args : List Bytes) (s : World) : Prop :=
  ∃ key type now value,
    needs (getCommandType (args.headD [])) (args.map cString) s = some (key, type, now) ∧
    (redisDbGet s.db key now).2 = some value ∧ value.data.type ≠ type

/-- The command reads no member but the stored one, and a value of the wrong
type is reported and left alone. -/
def Disciplined (args : List Bytes) (s : World) : Prop :=
  ∃ next, executeCommand args s = some next ∧
    (Mismatch args s →
      (next.outputs = [.reply wrongKind] ∨ s.shouldReply = false ∧ next.outputs = []) ∧
        next.db = s.db)

section Lookup

variable {db : RedisDb} {key : Bytes} {now : Int} {value : RedisValue}

theorem redisDbGet_live (h : (redisDbGet db key now).2 = some value) :
    redisDbGet db key now = (db, some value) := by
  simp only [redisDbGet, RedisDb.get] at h ⊢
  split at h
  · split at h
    · cases h
    · rename_i hLive
      rw [if_neg hLive]
      cases h
      rfl
  · cases h

theorem push_mismatch {side : List Bytes → Bytes → List Bytes × Int} {created : Int} {item : Bytes}
    (h : (redisDbGet db key now).2 = some value) (hType : value.data.type ≠ .list) :
    db.push side created key item now = (db, .error .typeMismatch) := by
  rw [RedisDb.push, redisDbGet_live h]
  rcases value with ⟨⟨⟩, expiration⟩
  · rfl
  · exact absurd rfl hType

theorem lrange_mismatch {start stop : Int} (h : (redisDbGet db key now).2 = some value)
    (hType : value.data.type ≠ .list) :
    redisDbLrange db key start stop now = (db, .error .typeMismatch) := by
  have hGet : db.get key now = (db, some value) := redisDbGet_live h
  rw [redisDbLrange, hGet]
  rcases value with ⟨⟨⟩, expiration⟩
  · rfl
  · exact absurd rfl hType

end Lookup

section Outputs

variable {s : World}

theorem answerIf_outputs (s : World) (h : s.outputs = []) (r : Reply) :
    (s.answerIf r).outputs = [.reply r] ∨ s.shouldReply = false ∧ (s.answerIf r).outputs = [] := by
  unfold World.answerIf
  split
  · exact Or.inl (by simp [World.answer, h])
  · rename_i hQuiet
    exact Or.inr ⟨by simpa using hQuiet, h⟩

theorem answerIf_db (s : World) (r : Reply) : (s.answerIf r).db = s.db := by
  unfold World.answerIf
  split <;> rfl

/-- The first item of a push already finds out. -/
theorem pushItems_mismatch (side : List Bytes → Bytes → List Bytes × Int) (created : Int)
    {key : Bytes} (item : Bytes) (items : List Bytes) (length : Int) {value : RedisValue}
    (h : (redisDbGet s.db key (s.clock 0)).2 = some value) (hType : value.data.type ≠ .list) :
    pushItems side created key (item :: items) length s = some (s.tick.answerIf wrongKind) := by
  simp only [pushItems, World.push_eq, Option.bind_eq_bind, Option.bind_some,
    push_mismatch h hType]
  rfl

end Outputs

section Bodies

variable {s : World}

theorem existingForSet_some (key : Bytes) (options : SetOptions) (s : World) :
    ∃ t existing, existingForSet key options s = some (t, existing) ∧
      t.outputs = s.outputs ∧ t.shouldReply = s.shouldReply ∧
      ∀ old, existing = some old → (redisDbGet s.db key (s.clock 0)).2 = some old := by
  unfold existingForSet
  split
  · exact ⟨_, _, World.get_eq s key, rfl, rfl, fun old hOld => hOld⟩
  · exact ⟨s, none, rfl, rfl, rfl, fun old hOld => by cases hOld⟩

theorem oldValue_some {options : SetOptions} {existing : Option RedisValue}
    (h : ∀ old, options.get = true → existing = some old → old.data.type = .string) :
    ∃ old, oldValue options existing = some old := by
  cases existing with
  | none => exact ⟨none, rfl⟩
  | some existing =>
      rw [oldValue]
      split
      · rename_i hGet
        have hString := h _ hGet rfl
        rcases existing with ⟨⟨⟩, expiration⟩
        · exact ⟨_, rfl⟩
        · cases hString
      · exact ⟨none, rfl⟩

theorem plain_setAnswer (options : SetOptions) (old : Option Bytes) :
    Plain (setAnswer options old) := by
  unfold setAnswer
  split
  · cases old with
    | none => exact plain_null
    | some old => exact plain_bulkString old
  · exact (plain_message (oneLine_text (by decide))).1

/-- Past its options `SET` runs into a live list only by way of `GET`, and with
`NX` it does not come that far. -/
theorem applySet_answers (key value : Bytes) (options : SetOptions) (s : World)
    (h : ∀ old, options.get = true → ¬options.nx = true →
      (redisDbGet s.db key (s.clock 0)).2 = some old → old.data.type = .string) :
    s.Answers Plain (applySet key value options s) := by
  obtain ⟨t, existing, hGet, hOutputs, hReply, hExisting⟩ := existingForSet_some key options s
  simp only [applySet, hGet, Option.bind_eq_bind, Option.bind_some, World.set_eq]
  split
  · exact World.answers_answerIf plain_null hOutputs hReply
  · rename_i hGoesOn
    obtain ⟨old, hOld⟩ : ∃ old, oldValue options existing = some old := by
      refine oldValue_some fun old hOption hSome => ?_
      refine h old hOption (fun hNx => hGoesOn (Or.inl ⟨hNx, ?_⟩)) (hExisting old hSome)
      rw [hSome]
      rfl
    rw [hOld]
    exact World.answers_answerIf (plain_setAnswer options old) hOutputs hReply

/-- With `GET` on a live list, `SET` reads the list as a text. -/
theorem applySet_list {key value : Bytes} {options : SetOptions} {old : RedisValue}
    (hGet : options.get = true) (hNx : ¬options.nx = true)
    (hOld : (redisDbGet s.db key (s.clock 0)).2 = some old) (hList : old.data.type ≠ .string) :
    applySet key value options s = none := by
  have hFound : existingForSet key options s = some (s.tick, some old) := by
    rw [existingForSet, if_pos (by simp [hGet]), World.get_eq, redisDbGet_live hOld]
    rfl
  have hMember : oldValue options (some old) = none := by
    rcases old with ⟨⟨⟩, expiration⟩
    · exact absurd rfl hList
    · rw [oldValue, if_pos hGet]
      rfl
  simp only [applySet, hFound, Option.bind_eq_bind, Option.bind_some]
  rw [if_neg (by simp [hNx]), hMember]
  rfl

theorem handleIncrDecr_answers (increment : Int) {args : List Bytes}
    (h : ∀ command key rest value, args = command :: key :: rest →
      (redisDbGet s.db key (s.clock 0)).2 = some value → value.data.type = .string) :
    s.Answers Plain (handleIncrDecr increment args s) := by
  unfold handleIncrDecr
  split
  · rename_i command key rest
    simp only [World.get_eq, World.set_eq, Option.bind_eq_bind, Option.bind_some]
    cases hValue : (redisDbGet s.db key (s.clock 0)).2 with
    | none => exact World.answers_answerIf (plain_integer _) rfl rfl
    | some value =>
        have hString := h command key rest value rfl hValue
        rcases value with ⟨⟨⟩, expiration⟩
        · simp only [RedisData.strMember, Option.map_some, Option.bind_some]
          split
          · exact World.answers_answerIf (plain_message (oneLine_text (by decide))).2 rfl rfl
          · exact World.answers_answerIf (plain_integer _) rfl rfl
        · cases hString
  · exact World.answers_answerIf (plain_message (oneLine_text (by decide))).2 rfl rfl

theorem handleIncrDecr_list (increment : Int) (command : Bytes) {key : Bytes} (rest : List Bytes)
    {value : RedisValue} (h : (redisDbGet s.db key (s.clock 0)).2 = some value)
    (hList : value.data.type ≠ .string) :
    handleIncrDecr increment (command :: key :: rest) s = none := by
  simp only [handleIncrDecr, World.get_eq, Option.bind_eq_bind, Option.bind_some, h]
  rcases value with ⟨⟨⟩, expiration⟩
  · exact absurd rfl hList
  · rfl

end Bodies

/-- The commands that take the text of a value without a look at its type. -/
def TakesText (args : List Bytes) : Prop :=
  getCommandType (args.headD []) ∈ [CommandType.set, .incr, .decr]

section Commands

variable {args : List Bytes} {s : World} {key : Bytes} {type : ValueType} {now : Int}

theorem needs_outputs (command : CommandType) (args : List Bytes) (s : World)
    (outputs : List Output) : needs command args { s with outputs := outputs } =
      needs command args s := by
  unfold needs
  split <;> rfl

theorem needs_set (h : needs .set args s = some (key, type, now)) :
    ∃ command value rest options clock, args = command :: key :: value :: rest ∧
      parseSetOptions rest ⟨0, false, false, false, false⟩ s.clock = .ok (options, clock) ∧
      (options.get = true ∧ ¬options.nx = true ∧ 0 ≤ options.expiration) ∧
      type = .string ∧ now = clock 0 := by
  rcases args with - | ⟨command, - | ⟨key', - | ⟨value, rest⟩⟩⟩
  · cases h
  · cases h
  · cases h
  · simp only [needs] at h
    split at h
    · rename_i options clock hOptions
      split at h
      · rename_i hGet
        cases h
        exact ⟨command, value, rest, options, clock, rfl, hOptions, hGet, rfl, rfl⟩
      · cases h
    · cases h

theorem needs_get (h : needs .get args s = some (key, type, now)) :
    ∃ command, args = [command, key] ∧ type = .string ∧ now = s.clock 0 := by
  rcases args with - | ⟨command, - | ⟨key', - | ⟨other, rest⟩⟩⟩
  · cases h
  · cases h
  · cases h
    exact ⟨command, rfl, rfl, rfl⟩
  · cases h

theorem needs_push {push : CommandType} (hPush : push = .lpush ∨ push = .rpush)
    (h : needs push args s = some (key, type, now)) :
    ∃ command item rest, args = command :: key :: item :: rest ∧ type = .list ∧
      now = s.clock 0 := by
  rcases hPush with rfl | rfl
  all_goals
    rcases args with - | ⟨command, - | ⟨key', - | ⟨item, rest⟩⟩⟩
    · cases h
    · cases h
    · cases h
    · cases h
      exact ⟨command, item, rest, rfl, rfl, rfl⟩

theorem needs_lrange (h : needs .lrange args s = some (key, type, now)) :
    ∃ command first last rest, args = command :: key :: first :: last :: rest ∧ type = .list ∧
      now = s.clock 0 := by
  rcases args with - | ⟨command, - | ⟨key', - | ⟨first, - | ⟨last, rest⟩⟩⟩⟩
  · cases h
  · cases h
  · cases h
  · cases h
  · cases h
    exact ⟨command, first, last, rest, rfl, rfl, rfl⟩

theorem needs_count {count : CommandType} (hCount : count = .incr ∨ count = .decr)
    (h : needs count args s = some (key, type, now)) :
    ∃ command rest, args = command :: key :: rest ∧ type = .string ∧ now = s.clock 0 := by
  rcases hCount with rfl | rfl
  all_goals
    rcases args with - | ⟨command, - | ⟨key', rest⟩⟩
    · cases h
    · cases h
    · cases h
      exact ⟨command, rest, rfl, rfl, rfl⟩

/-- What such a command does to a live list. -/
theorem executeCommand_list (hText : TakesText args) (h : Mismatch args s) :
    executeCommand args s = none := by
  obtain ⟨key, type, now, value, hNeeds, hValue, hType⟩ := h
  simp only [TakesText, List.mem_cons, List.not_mem_nil, or_false] at hText
  unfold executeCommand
  rcases hText with hText | hText | hText
  · rw [hText] at hNeeds ⊢
    obtain ⟨command, new, rest, options, clock, hArgs, hOptions, ⟨hGet, hNx, hLow⟩, rfl, rfl⟩ :=
      needs_set hNeeds
    simp only [hArgs, commandBody, handleSet, hOptions]
    rw [if_neg (by omega)]
    exact applySet_list hGet hNx hValue hType
  · rw [hText] at hNeeds ⊢
    obtain ⟨command, rest, hArgs, rfl, rfl⟩ := needs_count (Or.inl rfl) hNeeds
    rw [hArgs]
    exact handleIncrDecr_list 1 command rest hValue hType
  · rw [hText] at hNeeds ⊢
    obtain ⟨command, rest, hArgs, rfl, rfl⟩ := needs_count (Or.inr rfl) hNeeds
    rw [hArgs]
    exact handleIncrDecr_list (-1) command rest hValue hType

theorem handleSet_answers (h : ∀ key type now value, needs .set args s = some (key, type, now) →
    (redisDbGet s.db key now).2 = some value → value.data.type = type) :
    s.Answers Plain (handleSet args s) := by
  unfold handleSet
  split
  · rename_i command key value rest
    cases hOptions : parseSetOptions rest ⟨0, false, false, false, false⟩ s.clock with
    | error e =>
        cases e with
        | syntaxErr => exact World.answers_answerIf (plain_message (oneLine_text (by decide))).2 rfl rfl
        | valueErr => exact World.answers_answerIf (plain_message (oneLine_text (by decide))).2 rfl rfl
    | ok result =>
        obtain ⟨options, clock⟩ := result
        dsimp only
        split
        · exact World.answers_answerIf (plain_message (oneLine_text (by decide))).2 rfl rfl
        · rename_i hLow
          refine applySet_answers key value options { s with clock := clock } ?_
          intro old hGet hNx hOld
          refine h key .string (clock 0) old ?_ hOld
          simp only [needs, hOptions]
          rw [if_pos ⟨hGet, hNx, by omega⟩]
  · exact World.answers_answer (plain_message (oneLine_text (by decide))).2 rfl rfl

theorem World.Answers.runs {ok : Reply → Prop} {result : Option World} (h : s.Answers ok result) :
    ∃ next, result = some next := by
  obtain ⟨next, -, hResult, -⟩ := h
  exact ⟨next, hResult⟩

theorem fitting_of_not_mismatch (h : ¬(TakesText args ∧ Mismatch args s)) (hText : TakesText args) :
    ∀ key type now value,
      needs (getCommandType (args.headD [])) (args.map cString) s = some (key, type, now) →
      (redisDbGet s.db key now).2 = some value → value.data.type = type := by
  intro key type now value hNeeds hValue
  by_contra hType
  exact h ⟨hText, key, type, now, value, hNeeds, hValue, hType⟩

/-- Only the commands that take a text run into a value they cannot read. -/
theorem executeCommand_runs (h : ¬(TakesText args ∧ Mismatch args s)) :
    ∃ next, executeCommand args s = some next := by
  have hFitting := fitting_of_not_mismatch h
  unfold TakesText at hFitting
  unfold executeCommand
  cases hCommand : getCommandType (args.headD []) with
  | ping =>
      simp only [commandBody, handlePing]
      split
      · exact ⟨_, rfl⟩
      · exact ⟨_, rfl⟩
      · exact ⟨_, rfl⟩
  | echo =>
      simp only [commandBody, handleEcho]
      split
      · exact ⟨_, rfl⟩
      · exact ⟨_, rfl⟩
  | set =>
      rw [hCommand] at hFitting
      refine (handleSet_answers fun key type now value hNeeds => ?_).runs
      exact hFitting (by decide) key type now value (needs_outputs .set _ s [] ▸ hNeeds)
  | get => exact (handleGet_answers _ _).runs
  | exist => exact (handleExist_answers _ _).runs
  | del => exact (handleDelete_answers _ _).runs
  | incr =>
      rw [hCommand] at hFitting
      refine (handleIncrDecr_answers 1 fun command key rest value hArgs hValue => ?_).runs
      exact hFitting (by decide) key .string (s.clock 0) value (by rw [hArgs]; rfl) hValue
  | decr =>
      rw [hCommand] at hFitting
      refine (handleIncrDecr_answers (-1) fun command key rest value hArgs hValue => ?_).runs
      exact hFitting (by decide) key .string (s.clock 0) value (by rw [hArgs]; rfl) hValue
  | lpush => exact (handleLpush_answers _ _).runs
  | rpush => exact (handleRpush_answers _ _).runs
  | lrange => exact (handleLrange_answers _ _).runs
  | config =>
      simp only [commandBody, handleConfig]
      split
      · split
        · split
          · exact ⟨_, rfl⟩
          · exact ⟨_, rfl⟩
        · exact ⟨_, rfl⟩
      · exact ⟨_, rfl⟩
  | save => exact ⟨_, rfl⟩
  | dbsize => exact ⟨_, rfl⟩
  | info => exact ⟨_, rfl⟩
  | replconf => exact (handleReplconf_answers _ _).runs
  | psync =>
      simp only [commandBody, handlePsync]
      split
      · split
        · exact ⟨_, rfl⟩
        · exact ⟨_, rfl⟩
      · exact ⟨_, rfl⟩
  | unknown => exact ⟨_, rfl⟩

/-- The commands that look at the type first. -/
theorem executeCommand_mismatch (hText : ¬TakesText args) (h : Mismatch args s) :
    ∃ next, executeCommand args s = some next ∧
      (next.outputs = [.reply wrongKind] ∨ s.shouldReply = false ∧ next.outputs = []) ∧
      next.db = s.db := by
  obtain ⟨key, type, now, value, hNeeds, hValue, hType⟩ := h
  unfold TakesText at hText
  unfold executeCommand
  cases hCommand : getCommandType (args.headD []) with
  | get =>
      rw [hCommand] at hNeeds
      obtain ⟨command, hArgs, rfl, rfl⟩ := needs_get hNeeds
      simp only [hArgs, commandBody, handleGet, World.get_eq, Option.bind_eq_bind,
        Option.bind_some, redisDbGet_live hValue]
      rw [if_pos hType]
      exact ⟨_, rfl, answerIf_outputs _ rfl wrongKind, answerIf_db _ wrongKind⟩
  | lpush =>
      rw [hCommand] at hNeeds
      obtain ⟨command, item, rest, hArgs, rfl, rfl⟩ := needs_push (Or.inl rfl) hNeeds
      simp only [hArgs, commandBody, handleLpush]
      rw [pushItems_mismatch (s := { s with outputs := [] }) lpush (-1) item rest 0 hValue hType]
      exact ⟨_, rfl, answerIf_outputs _ rfl wrongKind, answerIf_db _ wrongKind⟩
  | rpush =>
      rw [hCommand] at hNeeds
      obtain ⟨command, item, rest, hArgs, rfl, rfl⟩ := needs_push (Or.inr rfl) hNeeds
      simp only [hArgs, commandBody, handleRpush]
      rw [pushItems_mismatch (s := { s with outputs := [] }) rpush 0 item rest 0 hValue hType]
      exact ⟨_, rfl, answerIf_outputs _ rfl wrongKind, answerIf_db _ wrongKind⟩
  | lrange =>
      rw [hCommand] at hNeeds
      obtain ⟨command, first, last, rest, hArgs, rfl, rfl⟩ := needs_lrange hNeeds
      simp only [hArgs, commandBody, handleLrange, World.lrange_eq, Option.bind_eq_bind,
        Option.bind_some, lrange_mismatch hValue hType]
      exact ⟨_, rfl, Or.inl rfl, rfl⟩
  | set => exact absurd (by rw [hCommand]; decide) hText
  | incr => exact absurd (by rw [hCommand]; decide) hText
  | decr => exact absurd (by rw [hCommand]; decide) hText
  | _ =>
      rw [hCommand] at hNeeds
      cases hNeeds

end Commands

/-- Exactly when a command respects the types of values: it is not one of those
that take a text, or it finds no list under the key. -/
theorem value_types_respected_iff (args : List Bytes) (s : World) :
    Disciplined args s ↔ ¬(TakesText args ∧ Mismatch args s) := by
  constructor
  · rintro ⟨next, hRun, -⟩ ⟨hText, hMismatch⟩
    rw [executeCommand_list hText hMismatch] at hRun
    cases hRun
  · intro h
    by_cases hMismatch : Mismatch args s
    · have hText : ¬TakesText args := fun hText => h ⟨hText, hMismatch⟩
      obtain ⟨next, hRun, hReport⟩ := executeCommand_mismatch hText hMismatch
      exact ⟨next, hRun, fun _ => hReport⟩
    · obtain ⟨next, hRun⟩ := executeCommand_runs h
      exact ⟨next, hRun, fun hOther => absurd hOther hMismatch⟩

/-- A client's first view of an empty server. -/
def emptyWorld : World where
  db := redisDbCreate
  clock := fun _ => 0
  shouldReply := true
  config := ⟨[], []⟩
  role := .master
  masterReplOffset := 0
  replBacklogBaseOffset := 0
  dump := []
  replica := none
  outputs := []

/-- `LPUSH a b` and then `INCR a`: the list is read as a text. -/
theorem incr_reads_list :
    ∃ s, executeCommand [text "LPUSH", text "a", text "b"] emptyWorld = some s ∧
      s.outputs = [.reply (.integer 1)] ∧ ¬Disciplined [text "INCR", text "a"] s := by
  refine ⟨_, rfl, rfl, ?_⟩
  rintro ⟨next, hRun, -⟩
  cases hRun

end RedisServer
