import RedisServer.Protocol.Chunking

/-! What a part of a stream completes. Between two reads that cut no payload
the commands executed are those that lie completely in the bytes received, and
the parser is between two commands exactly when the bytes end there. -/
namespace RedisServer

open Machine

/-- The commands that end in the first `offset` bytes of the stream. -/
def completed : List (List Bytes) → Nat → List (List Bytes)
  | [], _ => []
  | xs :: commands, offset =>
      if (encodeCommand xs).length ≤ offset then
        xs :: completed commands (offset - (encodeCommand xs).length)
      else []

/-- The offset is the end of a command or the start of the stream. -/
def AtBoundary (commands : List (List Bytes)) (offset : Nat) : Prop :=
  (encodeCommands (completed commands offset)).length = offset

instance (commands : List (List Bytes)) (offset : Nat) : Decidable (AtBoundary commands offset) :=
  inferInstanceAs (Decidable (_ = _))

theorem encodeCommands_append (before after : List (List Bytes)) :
    encodeCommands (before ++ after) = encodeCommands before ++ encodeCommands after :=
  List.flatMap_append

theorem encodeCommands_cons_length (xs : List Bytes) (commands : List (List Bytes)) :
    (encodeCommands (xs :: commands)).length =
      (encodeCommand xs).length + (encodeCommands commands).length := by
  simp [encodeCommands]

theorem completed_eq {before pending : List (List Bytes)} {offset : Nat}
    (hLow : (encodeCommands before).length ≤ offset)
    (hHigh : ∀ xs ∈ pending.head?,
      offset < (encodeCommands before).length + (encodeCommand xs).length) :
    completed (before ++ pending) offset = before := by
  induction before generalizing offset with
  | nil =>
      cases pending with
      | nil => rfl
      | cons xs pending =>
          have hCut := hHigh xs rfl
          rw [List.nil_append, completed, if_neg]
          simpa [encodeCommands] using hCut
  | cons xs before ih =>
      rw [encodeCommands_cons_length] at hLow hHigh
      rw [List.cons_append, completed, if_pos (by omega), ih (by omega)]
      intro ys hys
      have := hHigh ys hys
      omega

theorem completed_length (commands : List (List Bytes)) :
    completed commands (encodeCommands commands).length = commands := by
  have hAll := @completed_eq commands [] _ (Nat.le_refl _) (by simp)
  rwa [List.append_nil] at hAll

theorem atBoundary_zero (commands : List (List Bytes)) : AtBoundary commands 0 := by
  cases commands with
  | nil => rfl
  | cons xs commands => simp [AtBoundary, completed, encodeCommand, encodeCommands]

namespace Stage

/-- Inside a command at least one byte of it is gone, and what the next step
needs belongs to it; a length that cannot be read is followed by as many
bytes. -/
theorem inside {st : Stage} (h : ∀ todo, st ≠ idle todo) :
    ∃ xs todo, st.pending = xs :: todo ∧
      st.need + (encodeCommands todo).length ≤ st.rest.length ∧
      st.rest.length < (encodeCommand xs).length + (encodeCommands todo).length ∧
      (st.Last → 2 ^ 31 + (encodeCommands todo).length ≤ st.rest.length) := by
  cases st with
  | idle todo => exact absurd rfl (h todo)
  | header xs todo =>
      refine ⟨_, _, rfl, ?_, ?_, fun hLast => ?_⟩
      · simp only [need, rest, List.length_append]
        omega
      · simp only [rest, encodeCommand, List.length_append, List.length_cons]
        omega
      · have hMany : 2 ^ 31 ≤ xs.length := hLast
        have hBytes := length_le_flatMap_encodeBulkString xs
        simp only [rest, List.length_append]
        omega
  | array done xs todo =>
      refine ⟨_, _, rfl, ?_, ?_, fun hLast => hLast.elim⟩
      · simp only [need, rest, List.length_append]
        omega
      · simp only [rest, encodeCommand, List.flatMap_append, List.length_append, List.length_cons]
        omega
  | element done x xs todo =>
      refine ⟨_, _, rfl, ?_, ?_, fun hLast => hLast.elim⟩
      · simp only [need, rest, encodeBulkString, List.length_append, List.length_cons]
        omega
      · simp only [rest, encodeCommand, List.flatMap_append, List.flatMap_cons, List.length_append,
          List.length_cons]
        omega
  | bulkHeader done x xs todo =>
      refine ⟨_, _, rfl, ?_, ?_, fun hLast => ?_⟩
      · simp only [need, rest, List.length_append]
        omega
      · simp only [rest, encodeCommand, encodeBulkString, List.flatMap_append, List.flatMap_cons,
          List.length_append, List.length_cons]
        omega
      · have hLong : 2 ^ 31 ≤ x.length := hLast
        simp only [rest, List.length_append]
        omega
  | payload done x xs todo =>
      refine ⟨_, _, rfl, ?_, ?_, fun hLast => hLast.elim⟩
      · simp only [need, rest, List.length_append, List.length_cons, List.length_nil]
        omega
      · simp only [rest, encodeCommand, encodeBulkString, List.flatMap_append, List.flatMap_cons,
          List.length_append, List.length_cons]
        omega

end Stage

section Between

variable {ρ : Type} {commands : List (List Bytes)} {c : Connection ρ} {future : Bytes}
  {written steps : Nat}

theorem Between.lengths (h : Between commands c future written steps) :
    (encodeCommands c.handler.invocations).length +
      (encodeCommands (Stage.next^[steps] (.idle commands)).pending).length =
        (encodeCommands commands).length := by
  conv_rhs => rw [← h.ran]
  rw [encodeCommands_append, List.length_append]

/-- Between two commands nothing waits in the ring. -/
theorem Between.queue_nil_of_idle (h : Between commands c future written steps)
    (hWritten : written + future.length = (encodeCommands commands).length)
    {todo : List (List Bytes)} (hIdle : Stage.next^[steps] (.idle commands) = .idle todo) :
    encodeCommands todo = future := by
  have hLengths := h.lengths
  obtain ⟨q, -, hRest, hWait⟩ := h.queue
  rw [hIdle] at hLengths hRest hWait
  change encodeCommands todo = q ++ future at hRest
  change _ + (encodeCommands todo).length = _ at hLengths
  have hSum := congrArg List.length hRest
  rw [List.length_append] at hSum
  have hNone : q.length = 0 := by
    rcases hWait with hZero | hLast | hShort
    · omega
    · obtain rfl : todo = [] := hLast
      change 0 = _ at hSum
      omega
    · cases todo with
      | nil => cases hShort
      | cons xs todo => exact Nat.lt_one_iff.mp hShort
  rw [hRest, List.length_eq_zero_iff.mp hNone, List.nil_append]

/-- The commands that have been executed are those that have come. -/
theorem Between.completed_eq (h : Between commands c future written steps)
    (hSize : c.inputBuffer.size = 65536)
    (hWritten : written + future.length = (encodeCommands commands).length) :
    completed commands written = c.handler.invocations := by
  have hLengths := h.lengths
  have hIdleRest : ∀ todo, Stage.next^[steps] (.idle commands) = .idle todo →
      encodeCommands todo = future := fun _ hIdle => h.queue_nil_of_idle hWritten hIdle
  obtain ⟨q, hQueue, hRest, hWait⟩ := h.queue
  have hRoom := hQueue.writableLen
  rw [hSize, show (65536 : UInt64).toNat = 65536 from rfl] at hRoom
  have hSum := congrArg List.length hRest
  rw [List.length_append] at hSum
  conv_lhs => rw [← h.ran]
  generalize Stage.next^[steps] (.idle commands) = st at hLengths hWait hSum hIdleRest
  by_cases hIdle : ∃ todo, st = .idle todo
  · obtain ⟨todo, rfl⟩ := hIdle
    have hFuture := congrArg List.length (hIdleRest todo rfl)
    change _ + (encodeCommands todo).length = _ at hLengths
    refine RedisServer.completed_eq (by omega) ?_
    intro xs _
    rw [encodeCommand, List.length_cons]
    omega
  · obtain ⟨xs, todo, hPending, hNeed, hLess, hLong⟩ := Stage.inside (not_exists.mp hIdle)
    rw [hPending] at hLengths ⊢
    rw [encodeCommands_cons_length] at hLengths
    have hCut : (encodeCommands todo).length < future.length := by
      rcases hWait with hZero | hLast | hShort
      · omega
      · have := hLong hLast
        omega
      · omega
    refine RedisServer.completed_eq (by omega) ?_
    rintro ys ⟨⟩
    omega

/-- At the end of a command the parser is between two commands. -/
theorem Between.idle_of_atBoundary (h : Between commands c future written steps)
    (hSize : c.inputBuffer.size = 65536)
    (hWritten : written + future.length = (encodeCommands commands).length)
    (hEnd : AtBoundary commands written) :
    ∃ todo, Stage.next^[steps] (.idle commands) = .idle todo := by
  by_contra hIdle
  have hLengths := h.lengths
  obtain ⟨q, -, hRest, -⟩ := h.queue
  have hSum := congrArg List.length hRest
  rw [AtBoundary, h.completed_eq hSize hWritten] at hEnd
  obtain ⟨xs, todo, hPending, -, hLess, -⟩ := Stage.inside (not_exists.mp hIdle)
  rw [List.length_append] at hSum
  rw [hPending, encodeCommands_cons_length] at hLengths
  omega

end Between

end RedisServer
