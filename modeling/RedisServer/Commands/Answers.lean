import RedisServer.Commands.Handlers
import RedisServer.Protocol.ReplyReader

/-! What the bodies answer. A body that runs to its end passes on one reply,
unless the client is spared it; the exceptions are `CONFIG` with another
subcommand than `GET`, `SAVE` with arguments and the two resynchronisations. -/
namespace RedisServer

open Machine

/-- The body has run to its end with one reply of the kind wanted. -/
def World.Answers (s : World) (ok : Reply → Prop) (result : Option World) : Prop :=
  ∃ next r, result = some next ∧ ok r ∧ next.shouldReply = s.shouldReply ∧
    (next.outputs = s.outputs ++ [.reply r] ∨ s.shouldReply = false ∧ next.outputs = s.outputs)

/-- A well formed reply that is not the empty array. -/
def Plain (r : Reply) : Prop := r.WellFormed ∧ r ≠ .array []

section Answers

variable {s t : World} {ok : Reply → Prop} {r : Reply}

theorem World.answers_answer (h : ok r) (hOutputs : t.outputs = s.outputs)
    (hReply : t.shouldReply = s.shouldReply) : s.Answers ok (some (t.answer r)) :=
  ⟨_, r, rfl, h, hReply, Or.inl (by rw [World.answer, hOutputs])⟩

theorem World.answers_answerIf (h : ok r) (hOutputs : t.outputs = s.outputs)
    (hReply : t.shouldReply = s.shouldReply) : s.Answers ok (some (t.answerIf r)) := by
  unfold World.answerIf
  split
  · exact World.answers_answer h hOutputs hReply
  · rename_i hQuiet
    refine ⟨t, r, rfl, h, hReply, Or.inr ⟨?_, hOutputs⟩⟩
    rw [← hReply]
    simpa using hQuiet

theorem plain_message {message : Bytes} (h : OneLine (cString message)) :
    Plain (.simpleString message) ∧ Plain (.error message) :=
  ⟨⟨h, by simp⟩, ⟨h, by simp⟩⟩

theorem plain_null : Plain .null := ⟨trivial, by simp⟩

theorem plain_bulkString (str : Bytes) : Plain (.bulkString str) := ⟨trivial, by simp⟩

theorem plain_integer (i : Int) : Plain (.integer i) := ⟨trivial, by simp⟩

theorem plain_wrongKind : Plain wrongKind := (plain_message (oneLine_text (by decide))).2

theorem plain_array {items : List Bytes} (h : items ≠ []) : Plain (.array items) :=
  ⟨trivial, by simpa using h⟩

end Answers

section Bodies

variable (s : World)

/-- `PING` and `ECHO` repeat their argument as a line. -/
theorem handlePing_answers {args : List Bytes}
    (h : ∀ command message, args = [command, message] → OneLine (cString message)) :
    s.Answers Plain (handlePing args s) := by
  unfold handlePing
  split
  · exact World.answers_answer (plain_message (oneLine_text (by decide))).1 rfl rfl
  · exact World.answers_answer (plain_message (h _ _ rfl)).1 rfl rfl
  · exact World.answers_answer (plain_message (oneLine_text (by decide))).2 rfl rfl

theorem handleEcho_answers {args : List Bytes}
    (h : ∀ command message, args = [command, message] → OneLine (cString message)) :
    s.Answers Plain (handleEcho args s) := by
  unfold handleEcho
  split
  · exact World.answers_answer (plain_message (h _ _ rfl)).1 rfl rfl
  · exact World.answers_answer (plain_message (oneLine_text (by decide))).2 rfl rfl

theorem handleGet_answers (args : List Bytes) : s.Answers Plain (handleGet args s) := by
  unfold handleGet
  split
  · simp only [World.get_eq, Option.bind_eq_bind, Option.bind_some]
    split
    · exact World.answers_answerIf plain_null rfl rfl
    · rename_i value hValue
      rcases value with ⟨⟨str⟩ | ⟨xs⟩, expiration⟩
      · exact World.answers_answerIf (plain_bulkString str) rfl rfl
      · exact World.answers_answerIf plain_wrongKind rfl rfl
  · exact World.answers_answerIf (plain_message (oneLine_text (by decide))).2 rfl rfl

theorem handleExist_answers (args : List Bytes) : s.Answers Plain (handleExist args s) := by
  unfold handleExist
  split
  · exact World.answers_answer (plain_message (oneLine_text (by decide))).2 rfl rfl
  · exact World.answers_answer (plain_integer _) rfl rfl

theorem foldlM_delete (keys : List Bytes) (s : World) :
    ∃ next, keys.foldlM World.delete s = some next ∧ next.outputs = s.outputs ∧
      next.shouldReply = s.shouldReply := by
  induction keys generalizing s with
  | nil => exact ⟨s, rfl, rfl, rfl⟩
  | cons key keys ih =>
      rw [List.foldlM_cons, World.delete_eq]
      exact ih _

theorem handleDelete_answers (args : List Bytes) : s.Answers Plain (handleDelete args s) := by
  unfold handleDelete
  split
  · exact World.answers_answer (plain_message (oneLine_text (by decide))).2 rfl rfl
  · obtain ⟨next, hDelete, hOutputs, hReply⟩ := foldlM_delete (args.drop 1) s
    rw [hDelete]
    exact World.answers_answerIf (plain_message (oneLine_text (by decide))).1 hOutputs hReply

/-- A push stops at the first item that finds the wrong type. -/
theorem pushItems_answers (side : List Bytes → Bytes → List Bytes × Int) (created : Int)
    (key : Bytes) (items : List Bytes) (length : Int) (s : World) :
    s.Answers Plain (pushItems side created key items length s) := by
  induction items generalizing length s with
  | nil => exact World.answers_answerIf (plain_integer _) rfl rfl
  | cons item items ih =>
      simp only [pushItems, World.push_eq, Option.bind_eq_bind, Option.bind_some]
      split
      · exact World.answers_answerIf plain_wrongKind rfl rfl
      · exact ih _ _

theorem handleLpush_answers (args : List Bytes) : s.Answers Plain (handleLpush args s) := by
  unfold handleLpush
  split
  · exact pushItems_answers _ _ _ _ _ s
  · exact World.answers_answerIf (plain_message (oneLine_text (by decide))).2 rfl rfl

theorem handleRpush_answers (args : List Bytes) : s.Answers Plain (handleRpush args s) := by
  unfold handleRpush
  split
  · exact pushItems_answers _ _ _ _ _ s
  · exact World.answers_answerIf (plain_message (oneLine_text (by decide))).2 rfl rfl

theorem handleDbsize_answers (args : List Bytes) : s.Answers Plain (handleDbsize args s) :=
  World.answers_answer (plain_integer _) rfl rfl

theorem handleInfo_answers (args : List Bytes) : s.Answers Plain (handleInfo args s) :=
  World.answers_answer (plain_bulkString _) rfl rfl

theorem handleReplconf_answers (args : List Bytes) :
    s.Answers Plain (handleReplconf args s) := by
  unfold handleReplconf
  split
  · split
    · exact World.answers_answer (plain_array (by simp)) rfl rfl
    · exact World.answers_answer (plain_message (oneLine_text (by decide))).1 rfl rfl
  · exact World.answers_answer (plain_message (oneLine_text (by decide))).1 rfl rfl

theorem unknown_answers (args : List Bytes) : s.Answers Plain (commandBody .unknown args s) :=
  World.answers_answer (plain_message (oneLine_text (by decide))).2 rfl rfl

/-- Parameters that are all known make an answer with two items for each. -/
theorem configParams_ne_nil {config : ServerConfig} {param : Bytes} {params response : List Bytes}
    (h : configParams config (param :: params) = some response) : response ≠ [] := by
  rw [configParams] at h
  split at h
  · obtain ⟨rest, -, rfl⟩ := Option.map_eq_some_iff.mp h
    simp
  · split at h
    · obtain ⟨rest, -, rfl⟩ := Option.map_eq_some_iff.mp h
      simp
    · cases h

theorem handleConfig_answers {args : List Bytes}
    (h : ∀ command sub param params, args = command :: sub :: param :: params → sub = text "GET") :
    s.Answers Plain (handleConfig args s) := by
  unfold handleConfig
  split
  · rw [if_pos (h _ _ _ _ rfl)]
    split
    · rename_i response hResponse
      exact World.answers_answer (plain_array (configParams_ne_nil hResponse)) rfl rfl
    · exact World.answers_answer (plain_message (oneLine_text (by decide))).2 rfl rfl
  · exact World.answers_answer (plain_message (oneLine_text (by decide))).2 rfl rfl

theorem handleSave_answers {args : List Bytes} (h : args.length = 1) :
    s.Answers Plain (handleSave args s) := by
  unfold handleSave
  rw [if_neg (not_not.mpr h)]
  exact World.answers_answer (plain_message (oneLine_text (by decide))).1 rfl rfl

/-- The range of `LRANGE` has no items, or there is no list to take it from. -/
def SelectsNothing (args : List Bytes) (s : World) : Prop :=
  match args with
  | _ :: key :: first :: last :: _ =>
      match (redisDbLrange s.db key (toInt32 ((parseInteger first).toOption.getD 0))
          (toInt32 ((parseInteger last).toOption.getD 0)) (s.clock 0)).2 with
      | .error .typeMismatch => False
      | .error .keyNotFound => True
      | .ok (range, _) => range.getD [] = []
  | _ => False

theorem handleLrange_answers (args : List Bytes) :
    s.Answers (fun r => r.WellFormed ∧ (r = .array [] ↔ SelectsNothing args s))
      (handleLrange args s) := by
  have hUsage : s.Answers (fun r => r.WellFormed ∧ (r = .array [] ↔ False)) (some (s.answer
      (.error (text "ERR wrong number of arguments for 'rpush' command")))) := by
    refine World.answers_answer ?_ rfl rfl
    exact ⟨(plain_message (oneLine_text (by decide))).2.1, by simp⟩
  rcases args with - | ⟨command, - | ⟨key, - | ⟨first, - | ⟨last, rest⟩⟩⟩⟩
  · exact hUsage
  · exact hUsage
  · exact hUsage
  · exact hUsage
  · simp only [handleLrange, SelectsNothing, World.lrange_eq, Option.bind_eq_bind, Option.bind_some]
    generalize redisDbLrange s.db _ _ _ _ = found
    rcases found with ⟨db, ⟨⟨⟩⟩ | ⟨range, length⟩⟩
    · refine World.answers_answer ?_ rfl rfl
      exact ⟨plain_wrongKind.1, by simp [wrongKind]⟩
    · refine World.answers_answer ?_ rfl rfl
      exact ⟨trivial, by simp⟩
    · refine World.answers_answer ?_ rfl rfl
      exact ⟨trivial, by simp⟩

end Bodies

end RedisServer
