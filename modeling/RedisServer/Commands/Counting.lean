import RedisServer.Snapshot.Restart

/-! Counters. `INCR` and `DECR` compute with a `long`, store its text and
answer with an `int`. The store wraps around at 64 bits and the answer at 32,
so a count is right as long as the number answered fits into an `int`. -/
namespace RedisServer

open Machine

/-- The number that a key counts as at the next reading of the clock. -/
def World.counterValue (s : World) (key : Bytes) : Option Int :=
  match s.db.toMap.live (s.clock 0) key with
  | none => some 0
  | some ⟨.str digits, _⟩ => (parseInteger digits).toOption
  | some ⟨.list _, _⟩ => none

namespace Turn

def commandType (t : Turn) : CommandType := getCommandType (t.args.headD [])

/-- The turn is an `INCR` or a `DECR` of this key. -/
def Counts (t : Turn) (key : Bytes) : Prop :=
  (t.args.map cString)[1]? = some key ∧ (t.commandType = .incr ∨ t.commandType = .decr)

def increment (t : Turn) : Int := if t.commandType = .incr then 1 else -1

/-- The numbers that a turn can store and, where it is answered, answer with. -/
def Fits (t : Turn) (n : Int) : Prop :=
  (-2 ^ 63 ≤ n ∧ n < 2 ^ 63) ∧ (t.shouldReply = true → -2 ^ 31 ≤ n ∧ n < 2 ^ 31)

/-- What the client of this turn is told, if it is told anything. -/
def told (t : Turn) (r : Reply) : List Output := if t.shouldReply then [.reply r] else []

end Turn

/-- The turn leaves the entry as it was and answers with an error, or it stores
the text of the next number, answers with that number, and from then on `GET`
is answered with its text. -/
def CountsExactly (key : Bytes) (t : Turn) (s : World) : Prop :=
  ∀ v, s.counterValue key = some v → ∃ next, s.turn t = some next ∧
    ((∃ message, next.outputs = t.told (.error message)) ∧
        next.db.toMap.live (s.clock 0) key = s.db.toMap.live (s.clock 0) key ∨
      (∃ deadline, next.db.toMap key = some ⟨.str (intText (v + t.increment)), deadline⟩) ∧
        next.outputs = t.told (.integer (v + t.increment)) ∧
        ∀ now, next.answerGet key now = some [.reply (.bulkString (intText (v + t.increment)))])

/-- Each turn of a run counts exactly, in the state in which it is taken. -/
def EachExact (key : Bytes) : List Turn → World → Prop
  | [], _ => True
  | t :: turns, s => CountsExactly key t s ∧ ∀ next, s.turn t = some next → EachExact key turns next

/-- Each number on the way from `v` fits. -/
def EachFits : List Turn → Int → Prop
  | [], _ => True
  | t :: turns, v => t.Fits (v + t.increment) ∧ EachFits turns (v + t.increment)

section Steps

theorem parseInteger_intText {n : Int} (hLow : -2 ^ 63 ≤ n) (hHigh : n < 2 ^ 63) :
    parseInteger (intText n) = .ok n := by
  have hStop : (intText n).length ≠ 0 := by
    unfold intText
    split
    · simp
    · simpa using natText_ne_nil n.natAbs
  have hEnd : byteAt (intText n) (intText n).length = 0 := by simp [byteAt]
  have hIn : ¬(n < -2 ^ 63 ∨ 2 ^ 63 - 1 < n) := by omega
  have hValue : max (-2 ^ 63) (min (2 ^ 63 - 1) n) = n := by omega
  simp only [parseInteger, strtol_intText_eq, hStop, hEnd, hIn, hValue, decide_false,
    Bool.false_eq_true, ne_eq, not_true_eq_false, or_self, ↓reduceIte]

variable {key : Bytes} {t : Turn} {s : World} {v : Int}

/-- What the two bodies do to a key that counts as a number. -/
theorem handleIncrDecr_counts (increment : Int) (command : Bytes) (rest : List Bytes)
    (hv : s.counterValue key = some v) :
    handleIncrDecr increment (command :: key :: rest) s =
      some (World.answerIf
        { s.tick with
          db := (redisDbGet s.db key (s.clock 0)).1.set key (.str (intText (toInt64 (v + increment)))) 0 }
        (.integer (toInt32 (toInt64 (v + increment))))) := by
  have hFound := (s.db.get_spec key (s.clock 0)).2
  rw [KeyMap.dropExpired_self] at hFound
  unfold World.counterValue at hv
  unfold handleIncrDecr
  simp only [World.get_eq, redisDbGet, Option.bind_eq_bind, Option.bind_some, hFound]
  cases hLive : s.db.toMap.live (s.clock 0) key with
  | none =>
      rw [hLive] at hv
      cases hv
      simp only [Option.bind_some, World.set_eq]
  | some value =>
      obtain ⟨data, deadline⟩ := value
      rw [hLive] at hv
      cases data with
      | list xs => cases hv
      | str digits =>
          cases hParse : parseInteger digits with
          | error e =>
              simp only [hParse] at hv
              cases hv
          | ok n =>
              simp only [hParse] at hv
              cases hv
              simp only [RedisData.strMember, Option.map_some, hParse, Option.bind_some,
                World.set_eq]

/-- A turn of a counter. It is never refused. -/
theorem turn_counter (ht : t.Counts key) (hv : s.counterValue key = some v) :
    ∃ next, s.turn t = some next ∧
      next.db.toMap key = some ⟨.str (intText (toInt64 (v + t.increment))), 0⟩ ∧
      next.outputs = t.told (.integer (toInt32 (toInt64 (v + t.increment)))) := by
  obtain ⟨hKey, hType⟩ := ht
  obtain ⟨command, rest, hArgs⟩ : ∃ command rest, t.args.map cString = command :: key :: rest := by
    match hArgs : t.args.map cString, hKey with
    | command :: key' :: rest, hKey =>
        cases hKey
        exact ⟨command, rest, rfl⟩
  have hBody : ∀ s : World, commandBody t.commandType (t.args.map cString) s =
      handleIncrDecr t.increment (command :: key :: rest) s := by
    intro s
    rw [hArgs]
    rcases hType with hType | hType
    · rw [hType, Turn.increment, if_pos hType]
      rfl
    · rw [hType, Turn.increment, if_neg (by rw [hType]; decide)]
      rfl
  refine ⟨_, (hBody _).trans (handleIncrDecr_counts t.increment command rest (v := v) hv), ?_, ?_⟩
  · rw [World.answerIf]
    split
    all_goals
      refine (congrFun (RedisDb.toMap_set _ key _ 0) key).trans ?_
      rw [Function.update_self]
  · cases hReply : t.shouldReply with
    | false => simp [World.answerIf, Turn.told, World.tick, hReply]
    | true => simp [World.answerIf, World.answer, Turn.told, World.tick, hReply]

/-- A key that was counted can be counted on. -/
theorem counterValue_of_stored {n : Int} (hStored : s.db.toMap key = some ⟨.str (intText n), 0⟩)
    (hLow : -2 ^ 63 ≤ n) (hHigh : n < 2 ^ 63) : s.counterValue key = some n := by
  have hLive : s.db.toMap.live (s.clock 0) key = some ⟨.str (intText n), 0⟩ :=
    KeyMap.live_of_lasting _ _ hStored le_rfl _
  simp only [World.counterValue, hLive, parseInteger_intText hLow hHigh]
  rfl

theorem answerGet_of_stored {n : Int} (hStored : s.db.toMap key = some ⟨.str (intText n), 0⟩)
    (now : Int) : s.answerGet key now = some [.reply (.bulkString (intText n))] := by
  have hLive : s.db.toMap.live now key = some ⟨.str (intText n), 0⟩ :=
    KeyMap.live_of_lasting _ _ hStored le_rfl _
  rw [World.answerGet_eq, hLive]
  rfl

/-- A turn counts exactly if the number fits, and otherwise either the text or
the answer is that of another number. -/
theorem countsExactly_iff (ht : t.Counts key) (hv : s.counterValue key = some v) :
    CountsExactly key t s ↔ t.Fits (v + t.increment) := by
  obtain ⟨next, hRun, hStored, hOutputs⟩ := turn_counter ht hv
  constructor
  · intro hExact
    obtain ⟨other, hOther, hCase⟩ := hExact v hv
    obtain rfl : next = other := Option.some.inj (hRun.symm.trans hOther)
    have hRange := toInt64_range (v + t.increment)
    rcases hCase with ⟨⟨message, hError⟩, hSame⟩ | ⟨⟨deadline, hText⟩, hAnswer, -⟩
    · -- the entry has changed, even where nothing is answered
      exfalso
      have hLive : next.db.toMap.live (s.clock 0) key =
          some ⟨.str (intText (toInt64 (v + t.increment))), 0⟩ :=
        KeyMap.live_of_lasting _ _ hStored le_rfl _
      rw [hLive] at hSame
      have hCount : s.counterValue key = some (toInt64 (v + t.increment)) := by
        simp only [World.counterValue, ← hSame, parseInteger_intText hRange.1 hRange.2]
        rfl
      have hFixed : v = toInt64 (v + t.increment) := Option.some.inj (hv.symm.trans hCount)
      have hMod : toInt64 (v + t.increment) % 2 ^ 64 = (v + t.increment) % 2 ^ 64 := Int.bmod_emod
      rw [← hFixed] at hMod
      have hStep : t.increment = 1 ∨ t.increment = -1 := by
        unfold Turn.increment
        split
        · exact .inl rfl
        · exact .inr rfl
      omega
    · have hExactText : toInt64 (v + t.increment) = v + t.increment := by
        rw [hStored] at hText
        simp only [Option.some.injEq, RedisValue.mk.injEq, RedisData.str.injEq] at hText
        exact intText_injective hText.1
      rw [hExactText] at hRange hOutputs
      refine ⟨hRange, fun hReply => ?_⟩
      rw [hOutputs] at hAnswer
      simp only [Turn.told, hReply, ↓reduceIte, List.cons.injEq, Output.reply.injEq,
        Reply.integer.injEq, and_true] at hAnswer
      rw [← hAnswer]
      exact toInt32_range _
  · rintro ⟨⟨hLow, hHigh⟩, hInt⟩ w hw
    obtain rfl : v = w := Option.some.inj (hv.symm.trans hw)
    rw [toInt64_of_small hLow hHigh] at hStored hOutputs
    refine ⟨next, hRun, Or.inr ⟨⟨0, hStored⟩, ?_, answerGet_of_stored hStored⟩⟩
    rw [hOutputs]
    unfold Turn.told
    split
    · rename_i hReply
      rw [toInt32_of_small (hInt hReply).1 (hInt hReply).2]
    · rfl

end Steps

section Runs

variable {key : Bytes}

/-- In a run that fits, every turn counts on from the number before it. -/
theorem turn_fits {t : Turn} {s : World} {v : Int} (ht : t.Counts key)
    (hv : s.counterValue key = some v) (hFits : t.Fits (v + t.increment)) :
    ∃ next, s.turn t = some next ∧ next.counterValue key = some (v + t.increment) ∧
      ∀ now, next.answerGet key now = some [.reply (.bulkString (intText (v + t.increment)))] := by
  obtain ⟨next, hRun, hStored, -⟩ := turn_counter ht hv
  rw [toInt64_of_small hFits.1.1 hFits.1.2] at hStored
  exact ⟨next, hRun, counterValue_of_stored hStored hFits.1.1 hFits.1.2,
    answerGet_of_stored hStored⟩

theorem eachExact_iff {turns : List Turn} {s : World} {v : Int} (h : ∀ t ∈ turns, t.Counts key)
    (hv : s.counterValue key = some v) : EachExact key turns s ↔ EachFits turns v := by
  induction turns generalizing s v with
  | nil => exact Iff.rfl
  | cons t turns ih =>
      have ht := h t (List.mem_cons_self ..)
      have hRest := fun t' ht' => h t' (List.mem_cons_of_mem t ht')
      rw [EachExact, EachFits, countsExactly_iff ht hv]
      refine and_congr_right fun hFits => ?_
      obtain ⟨next, hRun, hNext, -⟩ := turn_fits ht hv hFits
      rw [← ih hRest hNext]
      constructor
      · exact fun hAll => hAll next hRun
      · intro hAll other hOther
        obtain rfl : next = other := Option.some.inj (hRun.symm.trans hOther)
        exact hAll

/-- What a run adds up to. -/
def netCount (turns : List Turn) : Int :=
  turns.countP (fun t => t.commandType = .incr) - turns.countP (fun t => t.commandType = .decr)

theorem netCount_cons {t : Turn} (ht : t.Counts key) (turns : List Turn) :
    netCount (t :: turns) = t.increment + netCount turns := by
  unfold netCount Turn.increment
  rcases ht.2 with hType | hType
  · simp only [List.countP_cons, hType, reduceCtorEq, decide_true, decide_false, ↓reduceIte,
      Bool.false_eq_true]
    push_cast
    ring
  · simp only [List.countP_cons, hType, reduceCtorEq, decide_true, decide_false, ↓reduceIte,
      Bool.false_eq_true]
    push_cast
    ring

theorem run_counts {turns : List Turn} {s : World} {v : Int} (h : ∀ t ∈ turns, t.Counts key)
    (hv : s.counterValue key = some v) (hFits : EachFits turns v) :
    ∃ final, turns.foldlM World.turn s = some final ∧
      final.counterValue key = some (v + netCount turns) ∧
      (turns ≠ [] → ∀ now,
        final.answerGet key now = some [.reply (.bulkString (intText (v + netCount turns)))]) := by
  induction turns generalizing s v with
  | nil => exact ⟨s, rfl, by simpa [netCount] using hv, fun hne => absurd rfl hne⟩
  | cons t turns ih =>
      have ht := h t (List.mem_cons_self ..)
      obtain ⟨next, hRun, hNext, hGet⟩ := turn_fits ht hv hFits.1
      obtain ⟨final, hRest, hFinal, hAnswer⟩ :=
        ih (fun t' ht' => h t' (List.mem_cons_of_mem t ht')) hNext hFits.2
      rw [add_assoc, ← netCount_cons ht turns] at hFinal hAnswer
      refine ⟨final, ?_, hFinal, fun _ now => ?_⟩
      · rw [List.foldlM_cons, hRun]
        exact hRest
      · cases turns with
        | nil =>
            cases hRest
            rw [netCount_cons ht]
            simpa [netCount] using hGet now
        | cons t' turns => exact hAnswer (List.cons_ne_nil _ _) now

/-- Counting is exact in just the runs in which each number fits, and such a run
leaves the starting value with the `INCR`s added and the `DECR`s subtracted. -/
theorem counting_exact_iff (key : Bytes) (turns : List Turn) (s : World) (v : Int)
    (h : ∀ t ∈ turns, t.Counts key) (hv : s.counterValue key = some v) :
    (EachExact key turns s ↔ EachFits turns v) ∧
      (EachFits turns v → ∃ final, turns.foldlM World.turn s = some final ∧
        final.counterValue key =
          some (v + turns.countP (fun t => t.commandType = .incr) -
            turns.countP (fun t => t.commandType = .decr)) ∧
        (turns ≠ [] → ∀ now, final.answerGet key now =
          some [.reply (.bulkString (intText
            (v + turns.countP (fun t => t.commandType = .incr) -
              turns.countP (fun t => t.commandType = .decr))))])) := by
  refine ⟨eachExact_iff h hv, fun hFits => ?_⟩
  have hNet : v + turns.countP (fun t => t.commandType = .incr) -
      turns.countP (fun t => t.commandType = .decr) = v + netCount turns := by
    rw [netCount, add_sub_assoc]
  rw [hNet]
  exact run_counts h hv hFits

/-- `INCR k` and `DECR k` of a client that is answered. -/
def incrTurn : Turn := ⟨true, none, 0, 0, [text "INCR", text "k"]⟩

def decrTurn : Turn := ⟨true, none, 0, 0, [text "DECR", text "k"]⟩

theorem incrTurn_counts : incrTurn.Counts (text "k") := ⟨rfl, .inl rfl⟩

theorem decrTurn_counts : decrTurn.Counts (text "k") := ⟨rfl, .inr rfl⟩

/-- A server with one counter. -/
def counterWorld (digits : Bytes) : World :=
  { emptyWorld with db := redisDbSet redisDbCreate (text "k") digits 0 }

theorem counterWorld_reachable (digits : Bytes) : (counterWorld digits).db.Reachable :=
  ⟨[.set (text "k") digits 0], by simp [DbCall.InRange], List.Perm.refl _, rfl, rfl⟩

theorem counting_exact_twice :
    ∃ final, [incrTurn, decrTurn, incrTurn].foldlM World.turn (counterWorld (text "10")) = some final ∧
      final.counterValue (text "k") = some 11 := by
  have hCounts : ∀ t ∈ [incrTurn, decrTurn, incrTurn], t.Counts (text "k") := by
    intro t ht
    simp only [List.mem_cons, List.not_mem_nil, or_false] at ht
    rcases ht with rfl | rfl | rfl
    · exact incrTurn_counts
    · exact decrTurn_counts
    · exact incrTurn_counts
  obtain ⟨-, hRun⟩ := counting_exact_iff (text "k") [incrTurn, decrTurn, incrTurn]
    (counterWorld (text "10")) 10 hCounts rfl
  obtain ⟨final, hFinal, hValue, -⟩ := hRun (by
    refine ⟨⟨by decide, fun _ => by decide⟩, ⟨by decide, fun _ => by decide⟩,
      ⟨by decide, fun _ => by decide⟩, trivial⟩)
  exact ⟨final, hFinal, hValue⟩

/-- `INCR` of 2147483647 stores 2147483648 and answers with -2147483648. -/
theorem incr_past_int :
    (counterWorld (text "2147483647")).db.Reachable ∧
      ∃ next, (counterWorld (text "2147483647")).turn incrTurn = some next ∧
        next.outputs = [.reply (.integer (-2147483648))] ∧
        next.answerGet (text "k") 0 = some [.reply (.bulkString (text "2147483648"))] ∧
        ¬CountsExactly (text "k") incrTurn (counterWorld (text "2147483647")) := by
  refine ⟨counterWorld_reachable _, _, rfl, rfl, rfl, fun hExact => ?_⟩
  have hFits := (countsExactly_iff (v := 2147483647) incrTurn_counts rfl).mp hExact
  exact absurd (hFits.2 rfl).2 (by decide)

end Runs

end RedisServer
