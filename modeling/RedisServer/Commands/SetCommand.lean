import RedisServer.Storage.LiveKeys
import RedisServer.Commands.SetOptions

/-! What `SET` does with options that were accepted. The existing entry is
looked up only when an option asks for it, and decides whether there is a write
at all, with which deadline, and what is answered. The deadline itself comes out
of 64-bit arithmetic in which 0 stands for none. -/
namespace RedisServer

open Machine

section Semantics

/-- The condition of `NX` or of `XX` is not met. -/
def Blocked (options : SetOptions) (old : Option RedisValue) : Prop :=
  (options.nx = true ∧ old.isSome = true) ∨ (options.xx = true ∧ old = none)

/-- Nothing is written: null is the answer, and there is no change to be seen. -/
structure SetSkips (s next : World) (now : Int) : Prop where
  outputs : next.outputs = (s.answerIf .null).outputs
  live : ∀ t, now ≤ t → next.db.toMap.live t = s.db.toMap.live t

/-- The value is written. The deadline is that of the old entry if `KEEPTTL` was
given and there is one, and `GET` is answered with the old text. -/
structure SetWrites (s next : World) (key value : Bytes) (options : SetOptions)
    (old : Option RedisValue) : Prop where
  entry : ∃ deadline, next.db.toMap key = some ⟨.str value, deadline⟩ ∧
    (∀ v, options.keepttl = true → old = some v → deadline = v.expiration) ∧
    (options.keepttl = false ∨ old = none → deadline = options.expiration)
  others : ∀ other, other ≠ key → next.db.toMap other = s.db.toMap other
  outputs : options.get = false → next.outputs = (s.answerIf (.simpleString (text "OK"))).outputs
  oldText : ∀ str deadline, options.get = true → old = some ⟨.str str, deadline⟩ →
    next.outputs = (s.answerIf (.bulkString str)).outputs
  noText : options.get = true → old = none → next.outputs = (s.answerIf .null).outputs

/-- The lookup, which is made only if an option asks for it. -/
structure SetLooks (s t : World) (key : Bytes) (options : SetOptions) (found : Option RedisValue) :
    Prop where
  outputs : t.outputs = s.outputs
  shouldReply : t.shouldReply = s.shouldReply
  others : ∀ other, other ≠ key → t.db.toMap other = s.db.toMap other
  live : ∀ time, s.clock 0 ≤ time → t.db.toMap.live time = s.db.toMap.live time
  asked : options.nx = true ∨ options.xx = true ∨ options.get = true ∨ options.keepttl = true →
    found = s.db.toMap.live (s.clock 0) key
  unasked : ¬(options.nx = true ∨ options.xx = true ∨ options.get = true ∨ options.keepttl = true) →
    found = none

variable {s t : World} {key value : Bytes} {options : SetOptions} {found : Option RedisValue}

theorem existingForSet_spec (key : Bytes) (options : SetOptions) (s : World) :
    ∃ t found, existingForSet key options s = some (t, found) ∧ SetLooks s t key options found := by
  unfold existingForSet
  split
  · rename_i hAsked
    obtain ⟨hDropped, hFound⟩ := s.db.get_spec key (s.clock 0)
    refine ⟨_, _, World.get_eq s key, rfl, rfl, ?_, ?_, ?_, fun hNot => absurd hAsked hNot⟩
    · intro other hOther
      dsimp only [redisDbGet]
      rw [hDropped, KeyMap.dropExpired_of_ne _ key _ hOther]
    · intro time hTime
      dsimp only [redisDbGet]
      rw [hDropped, KeyMap.live_dropExpired_of_le _ key hTime]
    · intro _
      rw [redisDbGet, hFound, KeyMap.dropExpired_self]
  · rename_i hNot
    exact ⟨s, none, rfl, rfl, rfl, fun _ _ => rfl, fun _ _ => rfl, fun hAsked => absurd hAsked hNot,
      fun _ => rfl⟩

theorem SetLooks.blocked_iff (h : SetLooks s t key options found) :
    ((options.nx = true ∧ found.isSome = true) ∨ (options.xx = true ∧ ¬found.isSome = true)) ↔
      Blocked options (s.db.toMap.live (s.clock 0) key) := by
  by_cases hAsked :
      options.nx = true ∨ options.xx = true ∨ options.get = true ∨ options.keepttl = true
  · rw [h.asked hAsked, Blocked, Option.not_isSome_iff_eq_none]
  · have hFlags : ¬options.nx = true ∧ ¬options.xx = true := by tauto
    simp [Blocked, hFlags]

theorem answerIf_outputs_eq (hOutputs : t.outputs = s.outputs) (hReply : t.shouldReply = s.shouldReply)
    (r : Reply) : (t.answerIf r).outputs = (s.answerIf r).outputs := by
  unfold World.answerIf
  rw [hReply]
  split
  · simp only [World.answer, hOutputs]
  · exact hOutputs

theorem answerIf_clock_outputs (s : World) (clock : Nat → Int) (r : Reply) :
    (World.answerIf { s with clock := clock } r).outputs = (s.answerIf r).outputs :=
  answerIf_outputs_eq (t := { s with clock := clock }) (s := s) rfl rfl r

theorem applySet_blocked (value : Bytes)
    (h : Blocked options (s.db.toMap.live (s.clock 0) key)) :
    ∃ next, applySet key value options s = some next ∧ SetSkips s next (s.clock 0) := by
  obtain ⟨t, found, hFound, hLooks⟩ := existingForSet_spec key options s
  simp only [applySet, hFound, Option.bind_eq_bind, Option.bind_some]
  rw [if_pos (hLooks.blocked_iff.mpr h)]
  refine ⟨_, rfl, answerIf_outputs_eq hLooks.outputs hLooks.shouldReply .null, ?_⟩
  rw [answerIf_db]
  exact hLooks.live

theorem applySet_writes (value : Bytes) (h : ¬Blocked options (s.db.toMap.live (s.clock 0) key))
    (hText : options.get = true → ∀ v, s.db.toMap.live (s.clock 0) key = some v →
      v.data.type = .string) :
    ∃ next, applySet key value options s = some next ∧
      SetWrites s next key value options (s.db.toMap.live (s.clock 0) key) := by
  obtain ⟨t, found, hFound, hLooks⟩ := existingForSet_spec key options s
  obtain ⟨old, hOld⟩ : ∃ old, oldValue options found = some old := by
    refine oldValue_some fun v hGet hSome => hText hGet v ?_
    rw [← hSome, hLooks.asked (by tauto)]
  simp only [applySet, hFound, Option.bind_eq_bind, Option.bind_some, World.set_eq, hOld]
  rw [if_neg fun hBlocked => h (hLooks.blocked_iff.mp hBlocked)]
  have hAnswer := fun r => answerIf_outputs_eq (t := { t with
    db := t.db.set key (.str value) (keptExpiration options found) })
    hLooks.outputs hLooks.shouldReply r
  refine ⟨_, rfl, ?_, ?_, ?_, ?_, ?_⟩
  · rw [answerIf_db]
    refine ⟨_, by rw [RedisDb.toMap_set, Function.update_self], ?_, ?_⟩
    · intro v hKeep hSome
      rw [← hLooks.asked (by tauto)] at hSome
      rw [hSome, keptExpiration, if_pos hKeep]
    · rintro (hKeep | hNone)
      · cases found <;> simp [keptExpiration, hKeep]
      · by_cases hAsked :
          options.nx = true ∨ options.xx = true ∨ options.get = true ∨ options.keepttl = true
        · rw [hLooks.asked hAsked, hNone]
          rfl
        · rw [hLooks.unasked hAsked]
          rfl
  · intro other hOther
    rw [answerIf_db, RedisDb.toMap_set, Function.update_of_ne hOther, hLooks.others other hOther]
  · intro hGet
    simp only [hAnswer, setAnswer, hGet, Bool.false_eq_true, ↓reduceIte]
  · intro str deadline hGet hSome
    rw [← hLooks.asked (by tauto)] at hSome
    rw [hSome, oldValue, if_pos hGet] at hOld
    cases hOld
    simp only [hAnswer, setAnswer, hGet, ↓reduceIte]
  · intro hGet hNone
    rw [← hLooks.asked (by tauto)] at hNone
    rw [hNone] at hOld
    cases hOld
    simp only [hAnswer, setAnswer, hGet, ↓reduceIte]

/-- `SET` with options that are accepted and a deadline that is not negative.
The entry is judged by the first reading of the clock after the options. -/
theorem set_semantics (command : Bytes) {rest : List Bytes} {clock : Nat → Int}
    (hParse : parseSetOptions rest noOptions s.clock = .ok (options, clock))
    (hDeadline : 0 ≤ options.expiration)
    (hText : options.get = true → ∀ v, s.db.toMap.live (clock 0) key = some v →
      v.data.type = .string) :
    noOptions.Given (clauses rest) s.clock options ∧
      ∃ next, handleSet (command :: key :: value :: rest) s = some next ∧
        (Blocked options (s.db.toMap.live (clock 0) key) → SetSkips s next (clock 0)) ∧
        (¬Blocked options (s.db.toMap.live (clock 0) key) →
          SetWrites s next key value options (s.db.toMap.live (clock 0) key)) := by
  have hBody : handleSet (command :: key :: value :: rest) s =
      applySet key value options { s with clock := clock } := by
    unfold noOptions at hParse
    simp only [handleSet, hParse]
    rw [if_neg (by omega)]
  have hAnswer := answerIf_clock_outputs s clock
  refine ⟨(parseSetOptions_spec hParse).1, ?_⟩
  rw [hBody]
  by_cases hBlocked : Blocked options (s.db.toMap.live (clock 0) key)
  · obtain ⟨next, hRun, hSkips⟩ := applySet_blocked value
      (s := { s with clock := clock }) hBlocked
    exact ⟨next, hRun, fun _ => ⟨hSkips.outputs.trans (hAnswer _), hSkips.live⟩,
      fun hNot => absurd hBlocked hNot⟩
  · obtain ⟨next, hRun, hWrites⟩ := applySet_writes value
      (s := { s with clock := clock }) hBlocked hText
    refine ⟨next, hRun, fun hYes => absurd hYes hBlocked, fun _ => ?_⟩
    exact ⟨hWrites.entry, hWrites.others, fun hGet => (hWrites.outputs hGet).trans (hAnswer _),
      fun str deadline hGet hOld => (hWrites.oldText str deadline hGet hOld).trans (hAnswer _),
      fun hGet hNone => (hWrites.noText hGet hNone).trans (hAnswer _)⟩

/-- `SET k w KEEPTTL GET` on a key with a deadline. -/
theorem set_semantics_keepttl :
    ∃ next, handleSet [text "SET", text "k", text "w", text "KEEPTTL", text "GET"]
        { emptyWorld with db := redisDbSet redisDbCreate (text "k") (text "v") 10 } = some next ∧
      SetWrites { emptyWorld with db := redisDbSet redisDbCreate (text "k") (text "v") 10 } next
        (text "k") (text "w") ⟨0, false, false, true, true⟩ (some ⟨.str (text "v"), 10⟩) := by
  have hParse : parseSetOptions [text "KEEPTTL", text "GET"] noOptions (fun _ => 0) =
      .ok (⟨0, false, false, true, true⟩, fun _ => 0) := rfl
  obtain ⟨-, next, hRun, -, hWrites⟩ := @set_semantics
    { emptyWorld with db := redisDbSet redisDbCreate (text "k") (text "v") 10 }
    (text "k") (text "w") _ (text "SET") _ _ hParse le_rfl (by
      intro _ v hLive
      cases hLive
      rfl)
  refine ⟨next, hRun, hWrites ?_⟩
  rintro (⟨hNx, -⟩ | ⟨hXx, -⟩)
  · cases hNx
  · cases hXx

end Semantics

section Deadlines

/-- The deadline that an option means, in unbounded numbers. -/
def DeadlineOption.meant (option : DeadlineOption) (n now : Int) : Int :=
  match option with
  | .ex => now + 1000 * n
  | .px => now + n
  | .exat => 1000 * n
  | .pxat => n

/-- An error is answered and the store left alone, or the key is made visible to
`GET` up to the deadline and no longer. -/
def DeadlineExact (command key value number : Bytes) (option : DeadlineOption) (deadline : Int)
    (s : World) : Prop :=
  ∃ next, handleSet [command, key, value, option.word, number] s = some next ∧
    ((∃ message, next.outputs = s.outputs ++ [.reply (.error message)]) ∧ next.db = s.db ∨
      ∀ t, (redisDbGet next.db key t).2.isSome = true ↔ t ≤ deadline)

variable {option : DeadlineOption} {number : Bytes} {n : Int}

theorem toInt64_add_toInt64 (x y : Int) : toInt64 (x + toInt64 y) = toInt64 (x + y) :=
  Int.add_bmod_bmod

/-- The arithmetic of the options wraps around once, at its end. -/
theorem expiration_eq (option : DeadlineOption) (now : Int) (hn : -2 ^ 63 ≤ n ∧ n < 2 ^ 63) :
    option.expiration n now = toInt64 (option.meant n now) := by
  cases option with
  | ex => rw [DeadlineOption.expiration, toInt64_add_toInt64, DeadlineOption.meant, mul_comm]
  | px => rfl
  | exat => rw [DeadlineOption.expiration, DeadlineOption.meant, mul_comm]
  | pxat => rw [DeadlineOption.expiration, DeadlineOption.meant, toInt64_of_small hn.1 hn.2]

theorem parseInteger_range (h : parseInteger number = .ok n) : -2 ^ 63 ≤ n ∧ n < 2 ^ 63 := by
  unfold parseInteger at h
  dsimp only at h
  split at h
  · cases h
  · cases h
    exact strtol_range number

theorem parseSetOptions_deadline (option : DeadlineOption) (h : parseInteger number = .ok n)
    (clock : Nat → Int) :
    parseSetOptions [option.word, number] noOptions clock =
      .ok ({ noOptions with expiration := option.expiration n (clock 0) },
        if option.readsClock then fun i => clock (i + 1) else clock) := by
  have hClauses := clauses_words (.deadline option number) ⟨n, h⟩ []
  have hParse := (scan_spec ((Clause.deadline option number).words ++ [])).2 noOptions clock
  rw [hClauses] at hParse
  refine hParse.trans ?_
  simp only [clauses, applyClauses, Clause.apply, noOptions, h]
  rfl

/-- With no other option the value is written, unless its deadline comes out
negative. -/
theorem handleSet_deadline (command key value : Bytes) (option : DeadlineOption)
    (h : parseInteger number = .ok n) (s : World) :
    ∃ next, handleSet [command, key, value, option.word, number] s = some next ∧
      (option.expiration n (s.clock 0) < 0 →
        (∃ message, next.outputs = (s.answerIf (.error message)).outputs) ∧ next.db = s.db) ∧
      (0 ≤ option.expiration n (s.clock 0) →
        next.outputs = (s.answerIf (.simpleString (text "OK"))).outputs ∧
          next.db = s.db.set key (.str value) (option.expiration n (s.clock 0))) := by
  have hParse := parseSetOptions_deadline option h s.clock
  unfold noOptions at hParse
  simp only [handleSet, hParse]
  split
  · rename_i hNegative
    refine ⟨_, rfl, fun _ => ⟨⟨_, answerIf_clock_outputs s _ _⟩, answerIf_db _ _⟩, fun hLow => ?_⟩
    omega
  · rename_i hLow
    simp only [applySet, existingForSet, Bool.false_eq_true, or_self, ↓reduceIte, oldValue,
      keptExpiration, false_and, World.set_eq, setAnswer, Option.bind_eq_bind, Option.bind_some]
    refine ⟨_, rfl, fun hNegative => absurd hNegative hLow, fun _ => ⟨?_, answerIf_db _ _⟩⟩
    apply answerIf_outputs_eq
    · rfl
    · rfl

/-- A key is visible up to a time and no longer exactly if this is its deadline,
and it has one. -/
theorem visible_until_iff (db : RedisDb) (key : Bytes) (deadline : Int) :
    (∀ t, (redisDbGet db key t).2.isSome = true ↔ t ≤ deadline) ↔
      ∃ v, db.h.lookup key = some v ∧ v.expiration = deadline ∧ 0 < deadline := by
  have hSome : ∀ t v, db.h.lookup key = some v →
      ((redisDbGet db key t).2.isSome = true ↔ ¬v.Expired t) := by
    intro t v hFind
    simp only [redisDbGet, RedisDb.get, hFind]
    split
    · simpa using ‹_›
    · simpa using ‹_›
  constructor
  · intro h
    cases hFind : db.h.lookup key with
    | none =>
        have hLast := (h deadline).mpr le_rfl
        simp [redisDbGet, RedisDb.get, hFind] at hLast
    | some v =>
        have hIff : ∀ t, ¬v.Expired t ↔ t ≤ deadline := fun t => (hSome t v hFind).symm.trans (h t)
        have hLast := (hIff deadline).mpr le_rfl
        have hNext := (hIff (deadline + 1)).not.mpr (by omega)
        refine ⟨v, rfl, ?_⟩
        unfold RedisValue.Expired at hLast hNext
        omega
  · rintro ⟨v, hFind, hSame, hPos⟩ t
    rw [hSome t v hFind, RedisValue.Expired]
    omega

theorem toInt64_neg_iff (d : Int) : toInt64 d < 0 ↔ 2 ^ 63 ≤ d % 2 ^ 64 := by
  rw [toInt64, Int.bmod_def]
  norm_num
  omega

/-- A deadline in its place after the arithmetic. -/
theorem toInt64_eq_iff (d : Int) : toInt64 d = d ∧ 0 < d ↔ 0 < d ∧ d < 2 ^ 63 := by
  have hRange := toInt64_range d
  constructor
  · rintro ⟨hSame, hPos⟩
    omega
  · rintro ⟨hPos, hHigh⟩
    exact ⟨toInt64_of_small (by omega) hHigh, hPos⟩

/-- Exactly which deadlines are exact: those that fit into 64 bits and are
positive, and for a client that is answered also those that come out negative. -/
theorem set_deadline_exact_iff (command key value : Bytes) (option : DeadlineOption) {s : World}
    (hReach : s.db.Reachable) (hNumber : parseInteger number = .ok n) :
    DeadlineExact command key value number option (option.meant n (s.clock 0)) s ↔
      (s.shouldReply = true ∧ 2 ^ 63 ≤ option.meant n (s.clock 0) % 2 ^ 64) ∨
        (0 < option.meant n (s.clock 0) ∧ option.meant n (s.clock 0) < 2 ^ 63) := by
  obtain ⟨next, hRun, hRefused, hWritten⟩ := handleSet_deadline command key value option hNumber s
  rw [expiration_eq option _ (parseInteger_range hNumber)] at hRefused hWritten
  generalize option.meant n (s.clock 0) = d at hRefused hWritten ⊢
  have hExact : DeadlineExact command key value number option d s ↔
      (∃ message, next.outputs = s.outputs ++ [.reply (.error message)]) ∧ next.db = s.db ∨
        ∃ v, next.db.h.lookup key = some v ∧ v.expiration = d ∧ 0 < d := by
    rw [← visible_until_iff]
    constructor
    · rintro ⟨other, hOther, h⟩
      rw [hRun] at hOther
      cases hOther
      exact h
    · exact fun h => ⟨next, hRun, h⟩
  rw [hExact, ← toInt64_neg_iff, ← toInt64_eq_iff]
  by_cases hNegative : toInt64 d < 0
  · obtain ⟨⟨message, hOutputs⟩, hDb⟩ := hRefused hNegative
    cases hReply : s.shouldReply with
    | true =>
        refine iff_of_true (Or.inl ⟨⟨message, ?_⟩, hDb⟩) (Or.inl ⟨rfl, hNegative⟩)
        rw [hOutputs, World.answerIf, if_pos hReply]
        rfl
    | false =>
        rw [World.answerIf, if_neg (by simp [hReply])] at hOutputs
        apply iff_of_false
        · rintro (⟨⟨other, hError⟩, -⟩ | ⟨v, hFind, rfl, hPos⟩)
          · simp [hOutputs] at hError
          · -- a deadline that is stored fits its field, so it would not have come out negative
            rw [hDb] at hFind
            have hSmall := (hReach.allStored key v hFind).range
            rw [toInt64_of_small (by omega) hSmall] at hNegative
            omega
        · rintro (⟨hOther, -⟩ | ⟨hSame, hPos⟩)
          · cases hOther
          · omega
  · obtain ⟨hOutputs, hDb⟩ := hWritten (by omega)
    have hNoError : ¬∃ message, next.outputs = s.outputs ++ [.reply (.error message)] := by
      rintro ⟨message, hError⟩
      rw [hOutputs, World.answerIf] at hError
      split at hError
      · simp [World.answer] at hError
      · simp at hError
    rw [hDb, RedisDb.lookup_set, if_pos rfl]
    simp only [hNoError, hNegative, false_and, and_false, false_or, Option.some.injEq, exists_eq_left']

theorem set_deadline_exact_px :
    DeadlineExact (text "SET") (text "k") (text "v") (text "5") .px 1700000000005
      { emptyWorld with clock := fun _ => 1700000000000 } :=
  (set_deadline_exact_iff (n := 5) (text "SET") (text "k") (text "v") .px
    (s := { emptyWorld with clock := fun _ => 1700000000000 })
    ⟨[], by simp, List.Perm.refl _, rfl, rfl⟩ rfl).mpr (Or.inr ⟨by decide, by decide⟩)

/-- `SET k v PXAT 0` makes a key that stays, and the deadline of
`SET k v EX 9223372036854775807` is a second ago. -/
theorem set_deadline_wraps :
    ¬DeadlineExact (text "SET") (text "k") (text "v") (text "0") .pxat 0 emptyWorld ∧
      ¬DeadlineExact (text "SET") (text "k") (text "v") (text "9223372036854775807") .ex
        (1700000000000 + 1000 * 9223372036854775807)
        { emptyWorld with clock := fun _ => 1700000000000 } := by
  constructor
  · rintro ⟨next, hRun, h⟩
    cases hRun
    rcases h with ⟨⟨message, hError⟩, -⟩ | hVisible
    · cases hError
    · have hLater := (hVisible 1).mp rfl
      omega
  · rintro ⟨next, hRun, h⟩
    cases hRun
    rcases h with ⟨⟨message, hError⟩, -⟩ | hVisible
    · cases hError
    · have hNow := (hVisible 1700000000000).mpr (by norm_num)
      cases hNow

end Deadlines

end RedisServer
