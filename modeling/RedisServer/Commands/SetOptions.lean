import RedisServer.Commands.ValueTypes

/-! The options of `SET`. The scan of `parse_set_options` is read as a list of
clauses first. It remembers a deadline by its value alone, and it says nothing
about words that it does not know, so it accepts more than the clauses allow. -/
namespace RedisServer

open Machine

/-- The word of an option with a deadline. -/
def DeadlineOption.word : DeadlineOption → Bytes
  | .ex => text "EX"
  | .px => text "PX"
  | .exat => text "EXAT"
  | .pxat => text "PXAT"

/-- One step of the scan. A word is skipped when it is not known, or when it
wants a number and there is none. -/
inductive Clause where
  | nx
  | xx
  | get
  | keepttl
  | deadline (option : DeadlineOption) (number : Bytes)
  | skipped (word : Bytes)

namespace Clause

def words : Clause → List Bytes
  | .nx => [text "NX"]
  | .xx => [text "XX"]
  | .get => [text "GET"]
  | .keepttl => [text "KEEPTTL"]
  | .deadline option number => [option.word, number]
  | .skipped word => [word]

/-- A clause with a deadline. -/
def isDeadline : Clause → Bool
  | .deadline _ _ => true
  | .nx | .xx | .get | .keepttl | .skipped _ => false

/-- A clause of the grammar: a known word, with a number where it wants one. -/
def Proper : Clause → Prop
  | .deadline _ number => ∃ n, parseInteger number = .ok n
  | .skipped _ => False
  | .nx | .xx | .get | .keepttl => True

/-- The deadline that a clause stands for, and 0 when it has none. -/
def value (now : Int) : Clause → Int
  | .deadline option number =>
      match parseInteger number with
      | .ok n => option.expiration n now
      | .error _ => 0
  | _ => 0

/-- The readings of the clock that are left. -/
def rest (clock : Nat → Int) : Clause → Nat → Int
  | .deadline option _ => if option.readsClock then fun i => clock (i + 1) else clock
  | _ => clock

/-- What the scan does with a clause. -/
def apply (options : SetOptions) (now : Int) : Clause → Except ParseError SetOptions
  | .nx => if options.xx then .error .syntaxErr else .ok { options with nx := true }
  | .xx => if options.nx then .error .syntaxErr else .ok { options with xx := true }
  | .get => .ok { options with get := true }
  | .keepttl =>
      if options.expiration ≠ 0 then .error .syntaxErr else .ok { options with keepttl := true }
  | .deadline option number =>
      if options.expiration ≠ 0 ∨ options.keepttl then .error .syntaxErr
      else
        match parseInteger number with
        | .error e => .error e
        | .ok n => .ok { options with expiration := option.expiration n now }
  | .skipped _ => .ok options

end Clause

/-- The clauses as the scan comes upon them. -/
def clauses : List Bytes → List Clause
  | [] => []
  | arg :: args =>
      if arg = text "NX" then .nx :: clauses args
      else if arg = text "XX" then .xx :: clauses args
      else if arg = text "GET" then .get :: clauses args
      else if arg = text "KEEPTTL" then .keepttl :: clauses args
      else
        match deadlineOption arg, args with
        | some option, number :: args => .deadline option number :: clauses args
        | _, args => .skipped arg :: clauses args

/-- The clauses one after the other, with the readings of the clock. -/
def applyClauses :
    List Clause → SetOptions → (Nat → Int) → Except ParseError (SetOptions × (Nat → Int))
  | [], options, clock => .ok (options, clock)
  | c :: cs, options, clock =>
      match c.apply options (clock 0) with
      | .error e => .error e
      | .ok options => applyClauses cs options (c.rest clock)

theorem word_of_deadlineOption {arg : Bytes} {option : DeadlineOption}
    (h : deadlineOption arg = some option) : arg = option.word := by
  unfold deadlineOption at h
  split_ifs at h with hEx hPx hExat hPxat
  · cases h
    exact hEx
  · cases h
    exact hPx
  · cases h
    exact hExat
  · cases h
    exact hPxat

/-- The scan takes the words of the clause off the list. -/
structure Scans (args : List Bytes) (c : Clause) (tail : List Bytes) : Prop where
  words : args = c.words ++ tail
  clauses : clauses args = c :: clauses tail
  parse : ∀ options clock, parseSetOptions args options clock =
    match c.apply options (clock 0) with
    | .error e => .error e
    | .ok options => parseSetOptions tail options (c.rest clock)

section Scan

variable {arg : Bytes} (args : List Bytes)

theorem scans_flag (h : arg ∈ [text "NX", text "XX", text "GET", text "KEEPTTL"]) :
    ∃ c, Scans (arg :: args) c args := by
  by_cases hNx : arg = text "NX"
  · refine ⟨.nx, by rw [hNx]; rfl, ?_, fun options clock => ?_⟩
    · exact (clauses.eq_def _).trans (if_pos hNx)
    · refine (parseSetOptions.eq_def _ _ _).trans ((if_pos hNx).trans ?_)
      rw [Clause.apply]
      split <;> rfl
  by_cases hXx : arg = text "XX"
  · refine ⟨.xx, by rw [hXx]; rfl, ?_, fun options clock => ?_⟩
    · exact (clauses.eq_def _).trans ((if_neg hNx).trans (if_pos hXx))
    · refine (parseSetOptions.eq_def _ _ _).trans ((if_neg hNx).trans ((if_pos hXx).trans ?_))
      rw [Clause.apply]
      split <;> rfl
  by_cases hGet : arg = text "GET"
  · refine ⟨.get, by rw [hGet]; rfl, ?_, fun options clock => ?_⟩
    · exact (clauses.eq_def _).trans ((if_neg hNx).trans ((if_neg hXx).trans (if_pos hGet)))
    · exact (parseSetOptions.eq_def _ _ _).trans
        ((if_neg hNx).trans ((if_neg hXx).trans (if_pos hGet)))
  have hKeep : arg = text "KEEPTTL" := by simpa [hNx, hXx, hGet] using h
  refine ⟨.keepttl, by rw [hKeep]; rfl, ?_, fun options clock => ?_⟩
  · exact (clauses.eq_def _).trans
      ((if_neg hNx).trans ((if_neg hXx).trans ((if_neg hGet).trans (if_pos hKeep))))
  · refine (parseSetOptions.eq_def _ _ _).trans
      ((if_neg hNx).trans ((if_neg hXx).trans ((if_neg hGet).trans ((if_pos hKeep).trans ?_))))
    rw [Clause.apply]
    split <;> rfl

/-- A word that is no flag, up to the look at its number. -/
theorem scan_other (h : arg ∉ [text "NX", text "XX", text "GET", text "KEEPTTL"]) :
    clauses (arg :: args) =
        (match deadlineOption arg, args with
        | some option, number :: args => .deadline option number :: clauses args
        | _, args => .skipped arg :: clauses args) ∧
      ∀ options clock, parseSetOptions (arg :: args) options clock =
        (match deadlineOption arg, args with
        | some option, nextArg :: args =>
            if options.expiration ≠ 0 ∨ options.keepttl then .error .syntaxErr
            else
              match parseInteger nextArg with
              | .error e => .error e
              | .ok n =>
                  parseSetOptions args
                    { options with expiration := option.expiration n (clock 0) }
                    (if option.readsClock then fun i => clock (i + 1) else clock)
        | _, args => parseSetOptions args options clock) := by
  simp only [List.mem_cons, List.not_mem_nil, or_false, not_or] at h
  obtain ⟨hNx, hXx, hGet, hKeep⟩ := h
  constructor
  · exact (clauses.eq_def _).trans
      ((if_neg hNx).trans ((if_neg hXx).trans ((if_neg hGet).trans (if_neg hKeep))))
  · intro options clock
    exact (parseSetOptions.eq_def _ _ _).trans
      ((if_neg hNx).trans ((if_neg hXx).trans ((if_neg hGet).trans (if_neg hKeep))))

/-- One step of the scan. -/
theorem exists_scans (arg : Bytes) (args : List Bytes) : ∃ c tail, Scans (arg :: args) c tail := by
  by_cases hFlag : arg ∈ [text "NX", text "XX", text "GET", text "KEEPTTL"]
  · obtain ⟨c, hScans⟩ := scans_flag args hFlag
    exact ⟨c, args, hScans⟩
  obtain ⟨hClauses, hParse⟩ := scan_other args hFlag
  cases hOption : deadlineOption arg with
  | none =>
      simp only [hOption] at hClauses hParse
      exact ⟨.skipped arg, args, rfl, hClauses, hParse⟩
  | some option =>
      cases args with
      | nil =>
          simp only [hOption] at hClauses hParse
          exact ⟨.skipped arg, [], rfl, hClauses, hParse⟩
      | cons number tail =>
          simp only [hOption] at hClauses hParse
          refine ⟨.deadline option number, tail, ?_, hClauses, fun options clock => ?_⟩
          · rw [word_of_deadlineOption hOption]
            rfl
          · rw [hParse, Clause.apply]
            split
            · rfl
            · cases parseInteger number with
              | error e => rfl
              | ok n => rfl

end Scan

theorem Clause.words_length (c : Clause) : 1 ≤ c.words.length := by
  cases c <;> simp [Clause.words]

/-- The scan is the clauses taken in order, and they are all its words. -/
theorem scan_spec (args : List Bytes) :
    (clauses args).flatMap Clause.words = args ∧
      ∀ options clock, parseSetOptions args options clock =
        applyClauses (clauses args) options clock := by
  induction hLength : args.length using Nat.strong_induction_on generalizing args with
  | _ n ih =>
      cases args with
      | nil => exact ⟨rfl, fun options clock => rfl⟩
      | cons arg args =>
          obtain ⟨c, tail, hWords, hClauses, hParse⟩ := exists_scans arg args
          have hPos := c.words_length
          have hShort : tail.length < n := by
            rw [← hLength, hWords, List.length_append]
            omega
          obtain ⟨hRest, hApply⟩ := ih tail.length hShort tail rfl
          constructor
          · rw [hClauses, List.flatMap_cons, hRest, hWords]
          · intro options clock
            rw [hParse, hClauses, applyClauses]
            cases c.apply options (clock 0) with
            | error e => rfl
            | ok options => exact hApply options (c.rest clock)

section Faults

/-- The clauses with the deadlines they stand for. -/
def valued : List Clause → (Nat → Int) → List (Clause × Int)
  | [], _ => []
  | c :: cs, clock => (c, c.value (clock 0)) :: valued cs (c.rest clock)

/-- A clause of the expiry family. -/
def Clause.InFamily (c : Clause) : Prop := c = .keepttl ∨ c.isDeadline = true

/-- Two clauses of the expiry family, of which the scan remembers the first
when it comes to the second. -/
def Conflict (first second : Clause × Int) : Prop :=
  (first.1 = .keepttl ∧ second.1.isDeadline = true) ∨
    (first.1.isDeadline = true ∧ first.2 ≠ 0 ∧ second.1.InFamily)

/-- Two clauses of the expiry family, of which the first is a deadline of 0. -/
def Masked (first second : Clause × Int) : Prop :=
  first.1.isDeadline = true ∧ first.2 = 0 ∧ second.1.InFamily

/-- There is a fault in the list that the scan finds. -/
def Faulty (args : List Bytes) (clock : Nat → Int) : Prop :=
  (.nx ∈ clauses args ∧ .xx ∈ clauses args) ∨
    (∃ option number e, .deadline option number ∈ clauses args ∧ parseInteger number = .error e) ∨
    ¬(valued (clauses args) clock).Pairwise fun first second => ¬Conflict first second

/-- There is a word that is not known or lacks its number, or a deadline of 0
in front of another clause of its family. -/
def Missed (args : List Bytes) (clock : Nat → Int) : Prop :=
  (∃ word, .skipped word ∈ clauses args) ∨
    ¬(valued (clauses args) clock).Pairwise fun first second => ¬Masked first second

/-- The lists of the grammar: clauses in any order, with numbers that are
accepted, not both `NX` and `XX`, at most one deadline, and none together with
`KEEPTTL`. -/
def OptionGrammar (args : List Bytes) : Prop :=
  ∃ cs : List Clause, cs.flatMap Clause.words = args ∧ (∀ c ∈ cs, c.Proper) ∧
    ¬(.nx ∈ cs ∧ .xx ∈ cs) ∧ cs.countP Clause.isDeadline ≤ 1 ∧
    (.keepttl ∈ cs → ∀ c ∈ cs, c.isDeadline = false)

theorem map_fst_valued (cs : List Clause) (clock : Nat → Int) :
    (valued cs clock).map Prod.fst = cs := by
  induction cs generalizing clock with
  | nil => rfl
  | cons c cs ih => rw [valued, List.map_cons, ih]

theorem forall_valued (P : Clause → Prop) (cs : List Clause) (clock : Nat → Int) :
    (∀ d ∈ valued cs clock, P d.1) ↔ ∀ c ∈ cs, P c := by
  nth_rewrite 2 [← map_fst_valued cs clock]
  rw [List.forall_mem_map]

/-- What a first clause asks of those behind it. -/
theorem forall_not_conflict (c : Clause) (v : Int) (cs : List Clause) (clock : Nat → Int) :
    (∀ d ∈ valued cs clock, ¬Conflict (c, v) d) ↔
      (c = .keepttl → ∀ d ∈ cs, ¬d.isDeadline = true) ∧
        (c.isDeadline = true ∧ v ≠ 0 → ∀ d ∈ cs, ¬d.InFamily) := by
  unfold Conflict
  dsimp only
  rw [forall_valued (fun d => ¬(c = .keepttl ∧ d.isDeadline = true ∨
    c.isDeadline = true ∧ v ≠ 0 ∧ d.InFamily))]
  constructor
  · intro h
    exact ⟨fun hKeep d hd hLater => h d hd (Or.inl ⟨hKeep, hLater⟩),
      fun hFirst d hd hLater => h d hd (Or.inr ⟨hFirst.1, hFirst.2, hLater⟩)⟩
  · rintro ⟨hKeep, hFirst⟩ d hd (⟨hc, hLater⟩ | ⟨hc, hv, hLater⟩)
    · exact hKeep hc d hd hLater
    · exact hFirst ⟨hc, hv⟩ d hd hLater

/-- What keeps the scan going from these options on. -/
def Passes (cs : List Clause) (options : SetOptions) (clock : Nat → Int) : Prop :=
  ¬((options.nx = true ∨ .nx ∈ cs) ∧ (options.xx = true ∨ .xx ∈ cs)) ∧
    (∀ option number e, .deadline option number ∈ cs → parseInteger number ≠ .error e) ∧
    (options.expiration ≠ 0 → ∀ c ∈ cs, ¬c.InFamily) ∧
    (options.keepttl = true → ∀ c ∈ cs, ¬c.isDeadline = true) ∧
    (valued cs clock).Pairwise fun first second => ¬Conflict first second

/-- The first clause and those behind it. -/
theorem passes_cons (c : Clause) (cs : List Clause) (options : SetOptions) (clock : Nat → Int) :
    Passes (c :: cs) options clock ↔
      ∃ next, c.apply options (clock 0) = .ok next ∧ Passes cs next (c.rest clock) := by
  unfold Passes
  rw [valued, List.pairwise_cons, forall_not_conflict]
  cases c with
  | nx =>
      simp only [Clause.apply, Clause.rest, List.mem_cons, reduceCtorEq, false_or, true_or, or_true,
        Clause.InFamily, Clause.isDeadline, Bool.false_eq_true, true_and, false_and, false_imp_iff]
      cases options.xx <;> simp
  | xx =>
      simp only [Clause.apply, Clause.rest, List.mem_cons, reduceCtorEq, false_or, true_or, or_true,
        Clause.InFamily, Clause.isDeadline, Bool.false_eq_true, true_and, false_and, false_imp_iff]
      cases options.nx <;> simp
  | get => simp [Clause.apply, Clause.rest, Clause.InFamily, Clause.isDeadline]
  | keepttl =>
      simp only [Clause.apply, Clause.rest, Clause.InFamily, Clause.isDeadline]
      by_cases hZero : options.expiration = 0 <;> simp_all
  | deadline option number =>
      have hHead : Clause.deadline option number ∈ Clause.deadline option number :: cs :=
        List.mem_cons_self ..
      have hOther : ∀ c : Clause, c.isDeadline = false →
          (c ∈ Clause.deadline option number :: cs ↔ c ∈ cs) := by
        intro c hc
        rw [List.mem_cons, or_iff_right]
        rintro rfl
        cases hc
      rw [hOther .nx rfl, hOther .xx rfl]
      by_cases hTaken : options.expiration ≠ 0 ∨ options.keepttl = true
      · rw [Clause.apply, if_pos hTaken]
        refine iff_of_false ?_ (by rintro ⟨next, hNext, -⟩; cases hNext)
        rintro ⟨-, -, hFree, hKeep, -⟩
        rcases hTaken with hTaken | hTaken
        · exact hFree hTaken _ hHead (Or.inr rfl)
        · exact hKeep hTaken _ hHead rfl
      · rw [Clause.apply, if_neg hTaken]
        obtain ⟨hFree, hKeep⟩ := not_or.mp hTaken
        cases hNumber : parseInteger number with
        | error e =>
            refine iff_of_false ?_ (by rintro ⟨next, hNext, -⟩; cases hNext)
            rintro ⟨-, hNumbers, -⟩
            exact hNumbers option number e hHead hNumber
        | ok n =>
            have hValue : Clause.value (clock 0) (.deadline option number) =
                option.expiration n (clock 0) := by simp only [Clause.value, hNumber]
            rw [hValue]
            constructor
            · rintro ⟨hFlags, hNumbers, -, -, hFirst, hRest⟩
              refine ⟨_, rfl, hFlags, ?_, fun hNew => hFirst.2 ⟨rfl, hNew⟩,
                fun hNew => absurd hNew hKeep, hRest⟩
              exact fun option number e hMem => hNumbers option number e (List.mem_cons_of_mem _ hMem)
            · rintro ⟨next, hNext, hFlags, hNumbers, hFirst, -, hRest⟩
              cases hNext
              refine ⟨hFlags, ?_, fun hNew => absurd hNew hFree, fun hNew => absurd hNew hKeep,
                ⟨fun hSame => (by cases hSame), fun hNew => hFirst hNew.2⟩, hRest⟩
              intro other number' e hMem hError
              rcases List.mem_cons.mp hMem with hSame | hMem
              · cases hSame
                rw [hNumber] at hError
                cases hError
              · exact hNumbers other number' e hMem hError
  | skipped word => simp [Clause.apply, Clause.rest, Clause.InFamily, Clause.isDeadline]

/-- The scan never has both of `NX` and `XX`. -/
theorem Clause.apply_flags {c : Clause} {options next : SetOptions} {now : Int}
    (h : ¬(options.nx = true ∧ options.xx = true)) (hApply : c.apply options now = .ok next) :
    ¬(next.nx = true ∧ next.xx = true) := by
  cases c <;> simp only [Clause.apply] at hApply <;> grind

theorem applyClauses_ok_iff (cs : List Clause) (options : SetOptions) (clock : Nat → Int)
    (h : ¬(options.nx = true ∧ options.xx = true)) :
    (∃ r, applyClauses cs options clock = .ok r) ↔ Passes cs options clock := by
  induction cs generalizing options clock with
  | nil =>
      refine iff_of_true ⟨_, rfl⟩ ?_
      simpa [Passes, valued] using h
  | cons c cs ih =>
      rw [passes_cons, applyClauses]
      cases hApply : c.apply options (clock 0) with
      | error e =>
          refine iff_of_false ?_ ?_
          · rintro ⟨r, hr⟩
            cases hr
          · rintro ⟨next, hNext, -⟩
            cases hNext
      | ok next =>
          rw [ih next (c.rest clock) (Clause.apply_flags h hApply)]
          constructor
          · exact fun hRest => ⟨next, rfl, hRest⟩
          · rintro ⟨same, hSame, hRest⟩
            cases hSame
            exact hRest

/-- Nothing has been seen of the options yet. -/
def noOptions : SetOptions := ⟨0, false, false, false, false⟩

theorem parseSetOptions_ok_iff (args : List Bytes) (clock : Nat → Int) :
    (∃ r, parseSetOptions args noOptions clock = .ok r) ↔ ¬Faulty args clock := by
  rw [(scan_spec args).2, applyClauses_ok_iff _ _ _ (by simp [noOptions])]
  unfold Passes Faulty noOptions
  simp only [not_or, not_exists, not_and, not_not]
  constructor
  · rintro ⟨hFlags, hNumbers, -, -, hPairs⟩
    exact ⟨fun hNx => (hFlags (Or.inr hNx)).2, hNumbers, hPairs⟩
  · rintro ⟨hFlags, hNumbers, hPairs⟩
    refine ⟨?_, hNumbers, fun h => absurd rfl h, fun h => (by cases h), hPairs⟩
    rintro (hNx | hNx)
    · cases hNx
    · exact ⟨Bool.false_ne_true, hFlags hNx⟩

theorem clauses_words (c : Clause) (h : c.Proper) (tail : List Bytes) :
    clauses (c.words ++ tail) = c :: clauses tail := by
  have hWord : ∀ option : DeadlineOption,
      option.word ∉ [text "NX", text "XX", text "GET", text "KEEPTTL"] ∧
        deadlineOption option.word = some option := by
    rintro (- | - | - | -)
    · exact ⟨by decide, rfl⟩
    · exact ⟨by decide, rfl⟩
    · exact ⟨by decide, rfl⟩
    · exact ⟨by decide, rfl⟩
  cases c with
  | nx => rfl
  | xx => rfl
  | get => rfl
  | keepttl => rfl
  | deadline option number =>
      obtain ⟨hFlag, hOption⟩ := hWord option
      refine (scan_other (number :: tail) hFlag).1.trans ?_
      rw [hOption]
  | skipped word => exact h.elim

/-- The words of proper clauses are scanned as these clauses. -/
theorem clauses_flatMap_words {cs : List Clause} (h : ∀ c ∈ cs, c.Proper) :
    clauses (cs.flatMap Clause.words) = cs := by
  induction cs with
  | nil => rfl
  | cons c cs ih =>
      rw [List.flatMap_cons, clauses_words c (h c (List.mem_cons_self ..)),
        ih fun d hd => h d (List.mem_cons_of_mem _ hd)]

theorem countP_le_one_iff {α : Type} (p : α → Bool) (l : List α) :
    l.countP p ≤ 1 ↔ l.Pairwise fun a b => ¬(p a = true ∧ p b = true) := by
  induction l with
  | nil => simp
  | cons a l ih =>
      rw [List.pairwise_cons, List.countP_cons, ← ih]
      cases ha : p a with
      | false => simp
      | true =>
          have hNone : l.countP p + 1 ≤ 1 ↔ l.countP p = 0 := by omega
          simp only [true_and, ↓reduceIte]
          rw [hNone, List.countP_eq_zero]
          refine (and_iff_left_of_imp fun h => ?_).symm
          rw [List.countP_eq_zero.mpr h]
          exact Nat.zero_le 1

/-- `KEEPTTL` and a deadline. -/
def Clause.Excludes (first second : Clause) : Prop :=
  (first = .keepttl ∧ second.isDeadline = true) ∨ (first.isDeadline = true ∧ second = .keepttl)

theorem pairwise_not_excludes_iff (cs : List Clause) :
    (cs.Pairwise fun first second => ¬first.Excludes second) ↔
      (.keepttl ∈ cs → ∀ c ∈ cs, c.isDeadline = false) := by
  constructor
  · intro hPairs hKeep c hc
    have hSymm : Std.Symm fun first second : Clause => ¬first.Excludes second :=
      ⟨fun first second h hOther => h (hOther.symm.imp And.symm And.symm)⟩
    have hSelf : ∀ c ∈ cs, ¬c.Excludes c := by
      rintro c - (⟨rfl, hDeadline⟩ | ⟨hDeadline, rfl⟩)
      · cases hDeadline
      · cases hDeadline
    have hApart := List.Pairwise.forall_of_forall hSelf hPairs hKeep hc
    exact Bool.eq_false_iff.mpr fun hDeadline => hApart (Or.inl ⟨rfl, hDeadline⟩)
  · intro h
    refine List.pairwise_of_forall_mem_list fun first hFirst second hSecond hExcludes => ?_
    rcases hExcludes with ⟨rfl, hDeadline⟩ | ⟨hDeadline, rfl⟩
    · rw [h hFirst second hSecond] at hDeadline
      cases hDeadline
    · rw [h hSecond first hFirst] at hDeadline
      cases hDeadline

/-- Two clauses that stand together in a list of the grammar. -/
theorem not_conflict_not_masked_iff (first second : Clause × Int) :
    ¬Conflict first second ∧ ¬Masked first second ↔
      ¬(first.1.isDeadline = true ∧ second.1.isDeadline = true) ∧
        ¬first.1.Excludes second.1 := by
  unfold Conflict Masked Clause.Excludes Clause.InFamily
  by_cases hZero : first.2 = 0
  · simp only [hZero, ne_eq, not_true_eq_false, false_and, and_false, or_false, true_and]
    tauto
  · simp only [hZero, ne_eq, not_false_eq_true, true_and, false_and, and_false, and_true]
    tauto

/-- The faults of the expiry family, found or not, are those of the grammar. -/
theorem family_iff (cs : List Clause) (clock : Nat → Int) :
    ((valued cs clock).Pairwise (fun first second => ¬Conflict first second) ∧
      (valued cs clock).Pairwise fun first second => ¬Masked first second) ↔
      cs.countP Clause.isDeadline ≤ 1 ∧ (.keepttl ∈ cs → ∀ c ∈ cs, c.isDeadline = false) := by
  rw [countP_le_one_iff, ← pairwise_not_excludes_iff, ← List.pairwise_and_iff,
    ← List.pairwise_and_iff]
  simp only [not_conflict_not_masked_iff]
  nth_rewrite 2 [← map_fst_valued cs clock]
  rw [List.pairwise_map]

theorem proper_iff (cs : List Clause) : (∀ c ∈ cs, c.Proper) ↔
    (∀ option number e, .deadline option number ∈ cs → ¬parseInteger number = .error e) ∧
      ∀ word, .skipped word ∉ cs := by
  constructor
  · intro h
    refine ⟨fun option number e hMem hError => ?_, fun word hMem => h _ hMem⟩
    obtain ⟨n, hn⟩ := h _ hMem
    rw [hError] at hn
    cases hn
  · rintro ⟨hNumbers, hKnown⟩ c hc
    cases c with
    | deadline option number =>
        cases hNumber : parseInteger number with
        | error e => exact absurd hNumber (hNumbers option number e hc)
        | ok n => exact ⟨n, hNumber⟩
    | skipped word => exact absurd hc (hKnown word)
    | nx | xx | get | keepttl => trivial

theorem optionGrammar_iff (args : List Bytes) (clock : Nat → Int) :
    OptionGrammar args ↔ ¬Faulty args clock ∧ ¬Missed args clock := by
  have hOwn : OptionGrammar args ↔ (∀ c ∈ clauses args, c.Proper) ∧
      ¬(.nx ∈ clauses args ∧ .xx ∈ clauses args) ∧
      (clauses args).countP Clause.isDeadline ≤ 1 ∧
      (.keepttl ∈ clauses args → ∀ c ∈ clauses args, c.isDeadline = false) := by
    constructor
    · rintro ⟨cs, rfl, hProper, hRest⟩
      rw [clauses_flatMap_words hProper]
      exact ⟨hProper, hRest⟩
    · exact fun h => ⟨clauses args, (scan_spec args).1, h⟩
  rw [hOwn, proper_iff, ← family_iff (clauses args) clock]
  unfold Faulty Missed
  simp only [not_or, not_exists, not_and, not_not]
  tauto

end Faults

section Options

variable {cs : List Clause} {options next : SetOptions} {clock later : Nat → Int}

/-- The deadline of the last clause that has one, and before such a clause the one that
was there. -/
def givenDeadline (expiration : Int) (cs : List (Clause × Int)) : Int :=
  cs.foldl (fun expiration c => if c.1.isDeadline then c.2 else expiration) expiration

/-- The options say which of the clauses were there, and what the deadline is. -/
structure SetOptions.Given (options : SetOptions) (cs : List Clause) (clock : Nat → Int)
    (next : SetOptions) : Prop where
  nx : next.nx = true ↔ options.nx = true ∨ .nx ∈ cs
  xx : next.xx = true ↔ options.xx = true ∨ .xx ∈ cs
  get : next.get = true ↔ options.get = true ∨ .get ∈ cs
  keepttl : next.keepttl = true ↔ options.keepttl = true ∨ .keepttl ∈ cs
  expiration : next.expiration = givenDeadline options.expiration (valued cs clock)

theorem Clause.apply_given {c : Clause} (h : c.apply options (clock 0) = .ok next) :
    options.Given [c] clock next := by
  cases c with
  | nx | xx | get | keepttl | skipped word =>
      simp only [Clause.apply] at h
      refine ⟨?_, ?_, ?_, ?_, ?_⟩ <;> grind [givenDeadline, valued, isDeadline]
  | deadline option number =>
      rw [Clause.apply] at h
      split at h
      · cases h
      · cases hNumber : parseInteger number with
        | error e =>
            rw [hNumber] at h
            cases h
        | ok n =>
            rw [hNumber] at h
            cases h
            refine ⟨by simp, by simp, by simp, by simp, ?_⟩
            simp [givenDeadline, valued, isDeadline, value, hNumber]

theorem SetOptions.Given.trans {middle : SetOptions} {c : Clause}
    (h : options.Given [c] clock middle) (hRest : middle.Given cs (c.rest clock) next) :
    options.Given (c :: cs) clock next := by
  have hMem : ∀ d, d ∈ c :: cs ↔ d ∈ [c] ∨ d ∈ cs := by
    intro d
    rw [List.mem_cons, List.mem_singleton]
  refine ⟨?_, ?_, ?_, ?_, ?_⟩
  · rw [hRest.nx, h.nx, hMem, or_assoc]
  · rw [hRest.xx, h.xx, hMem, or_assoc]
  · rw [hRest.get, h.get, hMem, or_assoc]
  · rw [hRest.keepttl, h.keepttl, hMem, or_assoc]
  · rw [hRest.expiration, h.expiration]
    rfl

/-- What the scan leaves behind: the options given, and the readings of the
clock that it has not taken. -/
theorem applyClauses_spec (h : applyClauses cs options clock = .ok (next, later)) :
    options.Given cs clock next ∧ ∃ k, later = fun i => clock (i + k) := by
  induction cs generalizing options clock with
  | nil =>
      cases h
      exact ⟨⟨by simp, by simp, by simp, by simp, rfl⟩, 0, rfl⟩
  | cons c cs ih =>
      rw [applyClauses] at h
      cases hApply : c.apply options (clock 0) with
      | error e =>
          rw [hApply] at h
          cases h
      | ok middle =>
          rw [hApply] at h
          obtain ⟨hGiven, k, hLater⟩ := ih h
          refine ⟨(Clause.apply_given hApply).trans hGiven, ?_⟩
          have hShift : c.rest clock = clock ∨ c.rest clock = fun i => clock (i + 1) := by
            cases c with
            | deadline option number =>
                rw [Clause.rest]
                split
                · exact Or.inr rfl
                · exact Or.inl rfl
            | nx | xx | get | keepttl | skipped word => exact Or.inl rfl
          rcases hShift with hShift | hShift
          · exact ⟨k, by rw [hLater, hShift]⟩
          · exact ⟨k + 1, by rw [hLater, hShift]; rfl⟩

theorem parseSetOptions_spec {args : List Bytes}
    (h : parseSetOptions args options clock = .ok (next, later)) :
    options.Given (clauses args) clock next ∧ ∃ k, later = fun i => clock (i + k) := by
  rw [(scan_spec args).2] at h
  exact applyClauses_spec h

end Options

/-- The scan accepts exactly the lists of the grammar, and for every other list
`SET` answers with an error and changes nothing. -/
def GrammarKept (command key value : Bytes) (rest : List Bytes) (s : World) : Prop :=
  ((∃ r, parseSetOptions rest noOptions s.clock = .ok r) ↔ OptionGrammar rest) ∧
    (¬OptionGrammar rest → ∃ message,
      handleSet (command :: key :: value :: rest) s = some (s.answerIf (.error message)))

theorem handleSet_of_faulty (command key value : Bytes) {rest : List Bytes} {s : World}
    (h : Faulty rest s.clock) : ∃ message,
      handleSet (command :: key :: value :: rest) s = some (s.answerIf (.error message)) := by
  cases hParse : parseSetOptions rest noOptions s.clock with
  | ok r => exact absurd h ((parseSetOptions_ok_iff rest s.clock).mp ⟨r, hParse⟩)
  | error e =>
      unfold noOptions at hParse
      cases e with
      | syntaxErr =>
          refine ⟨text "ERR syntax error", ?_⟩
          simp only [handleSet, hParse]
      | valueErr =>
          refine ⟨text "ERR value is not an integer or out of range", ?_⟩
          simp only [handleSet, hParse]

/-- Exactly when the options are held to the grammar: there is a fault that the
scan finds, or none of those that it passes over. -/
theorem set_options_grammar_iff (command key value : Bytes) (rest : List Bytes) (s : World) :
    GrammarKept command key value rest s ↔ Faulty rest s.clock ∨ ¬Missed rest s.clock := by
  unfold GrammarKept
  rw [parseSetOptions_ok_iff, optionGrammar_iff rest s.clock]
  constructor
  · rintro ⟨hSame, -⟩
    by_cases hFaulty : Faulty rest s.clock
    · exact Or.inl hFaulty
    · exact Or.inr (hSame.mp hFaulty).2
  · intro h
    have hSame : ¬Faulty rest s.clock ↔ ¬Faulty rest s.clock ∧ ¬Missed rest s.clock :=
      ⟨fun hFaulty => ⟨hFaulty, h.resolve_left hFaulty⟩, And.left⟩
    refine ⟨hSame, fun hOther => handleSet_of_faulty command key value ?_⟩
    exact not_not.mp fun hFaulty => hOther (hSame.mp hFaulty)

/-- An unknown word, and a second deadline behind one of 0, are both accepted. -/
theorem set_options_unknown_word :
    ¬GrammarKept (text "SET") (text "k") (text "v") [text "FOO"] emptyWorld ∧
      ¬GrammarKept (text "SET") (text "k") (text "v")
        [text "PXAT", text "0", text "PXAT", text "5"] emptyWorld := by
  constructor
  · rintro ⟨hSame, -⟩
    have hGrammar := hSame.mp ⟨_, rfl⟩
    refine ((optionGrammar_iff _ emptyWorld.clock).mp hGrammar).2 (Or.inl ⟨text "FOO", ?_⟩)
    exact List.mem_cons_self ..
  · rintro ⟨hSame, -⟩
    have hGrammar := hSame.mp ⟨_, rfl⟩
    refine ((optionGrammar_iff _ emptyWorld.clock).mp hGrammar).2 (Or.inr fun hPairs => ?_)
    exact (List.pairwise_cons.mp hPairs).1 _ (List.mem_cons_self ..) ⟨rfl, rfl, Or.inr rfl⟩

end RedisServer
