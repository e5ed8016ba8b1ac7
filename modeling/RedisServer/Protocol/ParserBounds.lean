import RedisServer.Protocol.InlineTokens

/-! Where the parse functions stay inside the range they are given, and why
the loop of `parser_parse` ends. Three steps go wrong: an inline command whose
carriage return is the last byte, an array of negative length on a full stack,
and a bulk string of negative length. Without them a call returns a position
of the range and hands out nothing but bytes of it. -/
namespace RedisServer

open Machine

namespace Parser

/-- The three steps that go wrong, told by the state before them. -/
def Misstep (p : Parser) (begin : Bytes) (avail : Int) : Prop :=
  (p.top.parse = .inlineCommand ∧ (scanCr begin avail : Int) + 1 = avail) ∨
    (p.top.parse = .array ∧ p.stackTop = maxStackDepth - 1 ∧ p.top.length < -1) ∨
    (p.top.parse = .bulkString ∧ p.top.length < -1 ∧ avail ≠ 0)

instance (p : Parser) (begin : Bytes) (avail : Int) : Decidable (p.Misstep begin avail) :=
  inferInstanceAs (Decidable (_ ∨ _ ∨ _))

/-- Every range handed to the handler lies before `end`. -/
def CharsInRange (calls : List Callback) (avail : Int) : Prop :=
  ∀ first last, .chars first last ∈ calls → 0 ≤ first ∧ first ≤ last ∧ last ≤ avail

/-- How many arrays are open. -/
def arrayDepth (p : Parser) : Nat := (p.top :: p.below).countP (fun f => f.parse = .array)

/-- What decreases when neither the input nor the open arrays do. -/
def rank (p : Parser) : Nat :=
  match p.top.parse with
  | .initial => 1
  | .array => if p.stackTop = maxStackDepth - 1 then 3 + p.top.length.toNat else 2
  | .bulkString => 3
  | .simple | .length | .inlineCommand => 0

/-- The stack got smaller without input. -/
def Below (q p : Parser) : Prop :=
  q.arrayDepth < p.arrayDepth ∨ q.arrayDepth = p.arrayDepth ∧ q.rank < p.rank

section Measures

variable (lens : List Int)

theorem countP_arrays : (arrays lens).countP (fun f => f.parse = .array) = lens.length := by
  induction lens with
  | nil => rfl
  | cons len lens ih =>
      change (arrayInfo len :: arrays lens).countP _ = _
      rw [List.countP_cons_of_pos (by rfl), ih]
      rfl

theorem arrayDepth_resume : (resume lens).arrayDepth = lens.length := by
  cases lens with
  | nil => rfl
  | cons len lens =>
      change (arrayInfo len :: arrays lens).countP _ = _
      rw [List.countP_cons_of_pos (by rfl), countP_arrays]
      rfl

theorem arrayDepth_within {top : StateInfo} (h : top.parse ≠ .array) :
    (within top lens).arrayDepth = lens.length := by
  change (top :: arrays lens).countP _ = _
  rw [List.countP_cons_of_neg (by simpa using h), countP_arrays]

/-- Below a full stack an array or the terminal state ranks low. -/
theorem rank_resume_le (h : lens.length < 31) : (resume lens).rank ≤ 2 := by
  cases lens with
  | nil => exact Nat.le_succ 1
  | cons len lens =>
      have hTop : (resume (len :: lens)).stackTop ≠ maxStackDepth - 1 := by
        rw [stackTop_resume]
        exact Nat.ne_of_lt h
      change (if (resume (len :: lens)).stackTop = maxStackDepth - 1 then _ else 2) ≤ 2
      rw [if_neg hTop]

end Measures

section Scan

variable {begin : Bytes} {avail : Int}

theorem scanCr_le (begin : Bytes) (h : 0 ≤ avail) : (scanCr begin avail : Int) ≤ avail := by
  have hPrefix := (List.takeWhile_prefix (l := begin.take avail.toNat) (· ≠ 13)).length_le
  rw [List.length_take] at hPrefix
  unfold scanCr
  omega

end Scan

/-- A step inside the range: where it moves, what it hands out, and that it
makes progress when it goes on. -/
structure Safe (p : Parser) (out : ParseOutcome) (avail : Int) : Prop where
  low : 0 ≤ out.newBegin
  high : out.newBegin ≤ avail
  chars : CharsInRange out.calls avail
  progress : out.keepGoing = true → 0 < out.newBegin ∨ Below out.parser p

theorem Safe.wait {p q : Parser} {avail : Int} (h : 0 ≤ avail) : Safe p q.wait avail where
  low := le_rfl
  high := h
  chars := by
    intro first last hMem
    cases hMem
  progress := by
    intro hGo
    cases hGo

/-- The dispatch takes a byte or puts an inline command on top. -/
theorem safe_dispatch {p : Parser} {lens : List Int} {avail : Int} (h : 1 ≤ avail)
    (hDepth : p.arrayDepth = lens.length) (hRank : p.rank = 1) (c : UInt8) :
    Safe p (dispatch lens c) avail := by
  have hByte : ∀ top calls, CharsInRange calls avail →
      Safe p ⟨within top lens, calls, true, 1⟩ avail := fun top calls hCalls =>
    ⟨Int.one_pos.le, h, hCalls, fun _ => Or.inl Int.one_pos⟩
  have hInline : Below (within inlineCommandInfo lens) p :=
    Or.inr ⟨by rw [arrayDepth_within lens (by decide), hDepth], by rw [hRank]; exact Nat.one_pos⟩
  unfold dispatch
  split_ifs
  · exact hByte _ _ (by simp [CharsInRange])
  · exact hByte _ _ (by simp [CharsInRange])
  · exact hByte _ _ (by simp [CharsInRange])
  · exact hByte _ _ (by simp [CharsInRange])
  · exact hByte _ _ (by simp [CharsInRange])
  · refine ⟨le_rfl, ?_, by simp [CharsInRange], fun _ => Or.inr hInline⟩
    change 0 ≤ avail
    omega

section Steps

variable {begin : Bytes} {avail : Int} {lens : List Int} {len : Int}

theorem safe_array (h : 0 ≤ avail) (hLens : lens.length < 31)
    (hOk : ¬Misstep (resume (len :: lens)) begin avail) :
    Safe (resume (len :: lens)) ((resume (len :: lens)).parse begin avail) avail := by
  have hDepth := arrayDepth_resume (len :: lens)
  rw [List.length_cons] at hDepth
  rw [parse_array]
  split
  · refine ⟨le_rfl, h, by simp [CharsInRange], fun _ => Or.inr (Or.inl ?_)⟩
    rw [arrayDepth_resume, hDepth]
    exact Nat.lt_succ_self _
  · rename_i hLen
    split
    · rename_i hRoom
      refine ⟨le_rfl, h, by simp [CharsInRange], fun _ => Or.inr (Or.inr ⟨?_, ?_⟩)⟩
      · rw [arrayDepth_within _ (by decide), hDepth, List.length_cons]
      · have hNot : (resume (len :: lens)).stackTop ≠ maxStackDepth - 1 := by
          rw [stackTop_resume, List.length_cons]
          exact Nat.ne_of_lt (Nat.succ_lt_succ hRoom)
        change 1 < if (resume (len :: lens)).stackTop = maxStackDepth - 1 then _ else 2
        rw [if_neg hNot]
        exact Nat.one_lt_two
    · rename_i hRoom
      have hFull : ∀ len, (resume (len :: lens)).stackTop = maxStackDepth - 1 := by
        intro len
        rw [stackTop_resume, List.length_cons, maxStackDepth]
        omega
      have hPos : 0 < len := by
        by_contra hNeg
        exact hOk (Or.inr (Or.inl ⟨rfl, hFull len, by change len < -1; omega⟩))
      have hRank : ∀ len, (resume (len :: lens)).rank = 3 + len.toNat := by
        intro len
        change (if (resume (len :: lens)).stackTop = maxStackDepth - 1 then _ else 2) = _
        rw [if_pos (hFull len)]
        rfl
      refine ⟨le_rfl, h, by simp [CharsInRange], fun _ => Or.inr (Or.inr ⟨?_, ?_⟩)⟩
      · rw [arrayDepth_resume, hDepth, List.length_cons]
      · rw [hRank, hRank]
        omega

theorem safe_bulkString (h : 0 ≤ avail) (hLens : lens.length < 31)
    (hHigh : len ≤ 2 ^ 31 - 1) (hOk : ¬Misstep (within (bulkStringInfo len) lens) begin avail) :
    Safe (within (bulkStringInfo len) lens) ((within (bulkStringInfo len) lens).parse begin avail)
      avail := by
  rw [parse_bulkString]
  split
  · refine ⟨le_rfl, h, by simp [CharsInRange], fun _ => Or.inr (Or.inr ⟨?_, ?_⟩)⟩
    · rw [arrayDepth_resume, arrayDepth_within lens (fun hParse => by cases hParse)]
    · exact Nat.lt_succ_of_le (rank_resume_le lens hLens)
  · rename_i hNull
    split
    · exact Safe.wait h
    · rename_i hSome
      have hLow : 0 ≤ len := by
        by_contra hNeg
        exact hOk (Or.inr (Or.inr ⟨rfl, by change len < -1; omega, hSome⟩))
      have hOutput : toInt32 (min len avail) = min len avail :=
        toInt32_of_small (by omega) (by omega)
      rw [hOutput]
      split
      · refine ⟨by dsimp only; omega, by dsimp only; omega, ?_, fun _ => Or.inl (by dsimp only; omega)⟩
        intro first last hMem
        simp only [List.mem_cons, Callback.chars.injEq, reduceCtorEq, List.not_mem_nil,
          or_false] at hMem
        omega
      · refine ⟨by dsimp only; omega, by dsimp only; omega, ?_, fun hGo => by cases hGo⟩
        intro first last hMem
        simp only [List.mem_singleton, Callback.chars.injEq] at hMem
        omega

theorem safe_simple (h : 0 ≤ avail) (cb : Callback) (hcb : cb ∈ simpleEnds) :
    Safe (within (simpleInfo cb) lens) ((within (simpleInfo cb) lens).parse begin avail) avail := by
  have hScan := scanCr_le begin h
  rw [parse_simple]
  split
  · exact Safe.wait h
  split
  · rename_i hLine
    refine ⟨by dsimp only; omega, by dsimp only; omega, ?_, fun _ => Or.inl (by dsimp only; omega)⟩
    intro first last hMem
    simp only [List.mem_cons, Callback.chars.injEq, List.not_mem_nil, or_false] at hMem
    rcases hMem with hMem | hMem
    · omega
    · rw [← hMem] at hcb
      simp [simpleEnds] at hcb
  · refine ⟨by dsimp only; omega, by dsimp only; omega, ?_, fun hGo => by cases hGo⟩
    intro first last hMem
    simp only [List.mem_singleton, Callback.chars.injEq] at hMem
    omega

theorem safe_inlineCommand (h : 0 ≤ avail) (hMem : avail ≤ begin.length)
    (hOk : ¬Misstep (within inlineCommandInfo lens) begin avail) :
    Safe (within inlineCommandInfo lens) ((within inlineCommandInfo lens).parse begin avail)
      avail := by
  have hScan := scanCr_le begin h
  rw [parse_inlineCommand]
  split
  · rename_i hLine
    have hRoom : (scanCr begin avail : Int) + 1 ≠ avail := fun hLast => hOk (Or.inl ⟨rfl, hLast⟩)
    refine ⟨by dsimp only; omega, by dsimp only; omega, ?_, fun _ => Or.inl (by dsimp only; omega)⟩
    intro first last hCall
    have hToken : .chars first last ∈
        inlineTokens (begin.take (scanCr begin avail)) (scanCr begin avail + 1) 0 := by
      simpa using hCall
    have hBounds := chars_mem_inlineTokens hToken
    rw [List.length_take] at hBounds
    omega
  · exact Safe.wait h

theorem safe_length {p q : Parser} {calls : List Callback} (h : HeaderReady begin avail)
    (hCalls : CharsInRange calls avail) :
    Safe p ⟨q, calls, true, (strtol begin).stop + 2⟩ avail := by
  obtain ⟨-, hRoom, -⟩ := h
  exact ⟨by dsimp only; omega, by dsimp only; omega, hCalls, fun _ => Or.inl (by dsimp only; omega)⟩

/-- Every step that is none of the three stays in the range. -/
theorem Shaped.safe {p : Parser} (hp : Shaped p) (h : 0 ≤ avail) (hMem : avail ≤ begin.length)
    (hOk : ¬p.Misstep begin avail) : Safe p (p.parse begin avail) avail := by
  cases hp with
  | resume lens hLens =>
      cases lens with
      | nil =>
          rw [parse_terminal]
          split
          · exact Safe.wait h
          · exact safe_dispatch (by omega) rfl rfl _
      | cons len lens => exact safe_array h hLens hOk
  | element lens hne hLens =>
      rw [parse_initial begin avail hLens]
      split
      · exact Safe.wait h
      · exact safe_dispatch (by omega) (arrayDepth_within lens (by decide)) rfl _
  | leaf top lens hTop hLens =>
      cases hTop with
      | simple cb hcb => exact safe_simple h cb hcb
      | arrayLength =>
          rw [parse_arrayLength begin avail hLens]
          split
          · rename_i hReady
            exact safe_length hReady.2 (by simp [CharsInRange])
          · exact Safe.wait h
      | bulkStringLength =>
          rw [parse_bulkStringLength begin avail hLens]
          split
          · rename_i hReady
            exact safe_length hReady.2 (by simp [CharsInRange])
          · exact Safe.wait h
      | bulkString len hLow hHigh => exact safe_bulkString h hLens hHigh hOk
      | inlineCommand => exact safe_inlineCommand h hMem hOk

end Steps

end Parser

section Calls

variable {σ : Type} {h : Handler σ} {r : Range} {p : Parser} {ch : σ} {s t : ParserRun σ}

/-- The parsers that calls on any input, with any handler state at each call,
lead to. -/
inductive Reached (h : Handler σ) : Parser → Prop where
  | init : Reached h parserInit
  | call {p : Parser} {ch : σ} {r : Range} {last : ParserRun σ} (hp : Reached h p)
      (hCall : ParserParse h r p ch last) : Reached h last.parser

/-- What an iteration does when the loop does not leave the input alone. -/
theorem parserStep_of_not_awaiting (hs : h.awaitingSnapshot s.handler = false) :
    parserStep h r s =
      (⟨(s.outcome r).parser, (s.outcome r).calls.foldl (h.handle (r.suffix s.begin)) s.handler,
        s.begin + (s.outcome r).newBegin⟩, (s.outcome r).keepGoing) := by
  rw [parserStep, if_neg (by rw [hs]; exact Bool.false_ne_true)]

theorem not_awaiting_of_continues (hNext : Continues (parserStep h r) s t) :
    h.awaitingSnapshot s.handler = false := by
  rw [Continues, parserStep] at hNext
  split at hNext
  · cases hNext
  · rename_i hs
    exact Bool.eq_false_iff.mpr hs

theorem shaped_parserStep (hs : Parser.Shaped s.parser) :
    Parser.Shaped (parserStep h r s).1.parser := by
  unfold parserStep
  split
  · exact hs
  · exact hs.parse _ _

theorem Reached.shaped (hp : Reached h p) : Parser.Shaped p := by
  induction hp with
  | init => exact Parser.shaped_parserInit
  | @call p ch r last _ hCall ih =>
      obtain ⟨m, hVisits, hLast⟩ := ends_iff.mp hCall
      have hm : Parser.Shaped m.parser :=
        hVisits.invariant (I := fun s => Parser.Shaped s.parser)
          (fun s t hs hNext => by
            have hStep := shaped_parserStep (h := h) (r := r) hs
            rw [Continues] at hNext
            rw [hNext] at hStep
            exact hStep) ih
      have hStep := shaped_parserStep (h := h) (r := r) hm
      rw [hLast] at hStep
      exact hStep

/-- The bounds of one iteration: the handler gets bytes of the range only, and
the kind of a message is decided from a byte of it. -/
structure StepBounded (r : Range) (s : ParserRun σ) : Prop where
  chars : Parser.CharsInRange (s.outcome r).calls (r.stop - s.begin)
  kind : s.parser.top.parse = .initial → (r.stop : Int) - s.begin ≠ 0 →
    0 < (r.stop : Int) - s.begin

/-- The call returns a position of the range, and every iteration of it that
reaches a parse function is bounded. -/
def Bounded (h : Handler σ) (r : Range) (p : Parser) (ch : σ) : Prop :=
  (∃ last, ParserParse h r p ch last ∧ 0 ≤ last.begin ∧ last.begin ≤ r.stop) ∧
    ∀ s, Visits (parserStep h r) ⟨p, ch, 0⟩ s → h.awaitingSnapshot s.handler = false →
      StepBounded r s

/-- None of the iterations of the call is one of the three that go wrong. -/
def NoMisstep (h : Handler σ) (r : Range) (p : Parser) (ch : σ) : Prop :=
  ∀ s, Visits (parserStep h r) ⟨p, ch, 0⟩ s → h.awaitingSnapshot s.handler = false →
    ¬s.parser.Misstep (r.suffix s.begin) (r.stop - s.begin)

/-- The stack has its shape and the position is in the range. -/
structure OnTrack (r : Range) (s : ParserRun σ) : Prop where
  shaped : Parser.Shaped s.parser
  low : 0 ≤ s.begin
  high : s.begin ≤ r.stop

theorem OnTrack.safe (hs : OnTrack r s)
    (hOk : ¬s.parser.Misstep (r.suffix s.begin) (r.stop - s.begin)) :
    Parser.Safe s.parser (s.outcome r) (r.stop - s.begin) := by
  have hLow := hs.low
  have hHigh := hs.high
  have hFits := r.fits
  refine hs.shaped.safe (by omega) ?_ hOk
  rw [Range.suffix, if_neg (by omega), List.length_drop]
  omega

theorem OnTrack.next (hs : OnTrack r s)
    (hOk : h.awaitingSnapshot s.handler = false →
      ¬s.parser.Misstep (r.suffix s.begin) (r.stop - s.begin)) :
    OnTrack r (parserStep h r s).1 := by
  have hShape := shaped_parserStep (h := h) (r := r) hs.shaped
  cases hAwait : h.awaitingSnapshot s.handler with
  | true =>
      rw [parserStep, if_pos hAwait]
      exact hs
  | false =>
      have hSafe := hs.safe (hOk hAwait)
      have hLow := hs.low
      have h1 := hSafe.low
      have h2 := hSafe.high
      rw [parserStep_of_not_awaiting hAwait] at hShape ⊢
      exact ⟨hShape, by dsimp only; omega, by dsimp only; omega⟩

theorem OnTrack.stepBounded (hs : OnTrack r s)
    (hOk : ¬s.parser.Misstep (r.suffix s.begin) (r.stop - s.begin)) : StepBounded r s where
  chars := (hs.safe hOk).chars
  kind := by
    intro _ hSome
    have := hs.high
    omega

/-- Bytes left, open arrays, rank of the top: each iteration that goes on
moves down in the lexicographic order of the three. -/
def measure (r : Range) (s : ParserRun σ) : Nat × Nat × Nat :=
  ((r.stop - s.begin).toNat, s.parser.arrayDepth, s.parser.rank)

def measureLt : Nat × Nat × Nat → Nat × Nat × Nat → Prop :=
  Prod.Lex (· < ·) (Prod.Lex (· < ·) (· < ·))

theorem OnTrack.measure_lt (hs : OnTrack r s)
    (hOk : ¬s.parser.Misstep (r.suffix s.begin) (r.stop - s.begin))
    (hNext : Continues (parserStep h r) s t) : measureLt (measure r t) (measure r s) := by
  have hSafe := hs.safe hOk
  rw [Continues, parserStep_of_not_awaiting (not_awaiting_of_continues hNext)] at hNext
  obtain ⟨rfl, hGo⟩ := Prod.mk.inj hNext
  have h0 := hSafe.low
  have h1 := hSafe.high
  by_cases hMove : 0 < (s.outcome r).newBegin
  · refine Prod.Lex.left _ _ ?_
    dsimp only
    omega
  · have hStay : (s.outcome r).newBegin = 0 := by omega
    unfold measure measureLt
    dsimp only
    rw [hStay, Int.add_zero]
    refine Prod.Lex.right _ ?_
    rcases (hSafe.progress hGo).resolve_left hMove with hLess | ⟨hSame, hLess⟩
    · exact Prod.Lex.left _ _ hLess
    · rw [hSame]
      exact Prod.Lex.right _ hLess

/-- Without a misstep the call ends inside the range and stays bounded. -/
theorem NoMisstep.bounded (hOk : NoMisstep h r p ch) (hp : Parser.Shaped p) :
    Bounded h r p ch := by
  have hStart : OnTrack r (⟨p, ch, 0⟩ : ParserRun σ) := ⟨hp, le_rfl, by dsimp only; omega⟩
  have hKeep : ∀ s t, (Visits (parserStep h r) ⟨p, ch, 0⟩ s ∧ OnTrack r s) →
      Continues (parserStep h r) s t →
        (Visits (parserStep h r) ⟨p, ch, 0⟩ t ∧ OnTrack r t) ∧
          measureLt (measure r t) (measure r s) := by
    rintro s t ⟨hVisit, hs⟩ hNext
    have hStep := hs.next (h := h) (hOk s hVisit)
    rw [Continues] at hNext
    rw [hNext] at hStep
    exact ⟨⟨hVisit.tail hNext, hStep⟩,
      hs.measure_lt (hOk s hVisit (not_awaiting_of_continues hNext)) hNext⟩
  have hTrack : ∀ s, Visits (parserStep h r) ⟨p, ch, 0⟩ s → OnTrack r s := fun s hVisit =>
    (hVisit.invariant (fun s t hs hNext => (hKeep s t hs hNext).1)
      ⟨Relation.ReflTransGen.refl, hStart⟩).2
  have hWf : WellFounded measureLt :=
    WellFounded.prod_lex Nat.lt_wfRel.wf (WellFounded.prod_lex Nat.lt_wfRel.wf Nat.lt_wfRel.wf)
  obtain ⟨last, hEnds⟩ := exists_ends_of_wf hWf (measure r) hKeep
    ⟨Relation.ReflTransGen.refl, hStart⟩
  obtain ⟨m, hVisit, hLast⟩ := ends_iff.mp hEnds
  have hStep := (hTrack m hVisit).next (h := h) (hOk m hVisit)
  rw [hLast] at hStep
  exact ⟨⟨last, hEnds, hStep.low, hStep.high⟩,
    fun s hVisit hAwait => (hTrack s hVisit).stepBounded (hOk s hVisit hAwait)⟩

end Calls

section Missteps

variable {σ : Type} {h : Handler σ} {r : Range} {p : Parser} {ch : σ} {s : ParserRun σ}

/-- Behind the end of the range, about to read the next message. -/
def Overrun (r : Range) (s : ParserRun σ) : Prop :=
  s.begin = r.stop + 1 ∧ ∃ lens, s.parser = .resume lens ∨
    lens.length < 31 ∧ s.parser = .within initialInfo lens

/-- An overrun can only close and open arrays: the next message would be
decided from a byte behind the end. -/
theorem Overrun.continues (hs : Overrun r s) (hBounded : StepBounded r s)
    (hAwait : h.awaitingSnapshot s.handler = false) :
    ∃ t, Continues (parserStep h r) s t ∧ Overrun r t := by
  obtain ⟨parser, ch, begin⟩ := s
  obtain ⟨hBegin, lens, rfl | ⟨hLens, rfl⟩⟩ := hs
  · cases lens with
    | nil =>
        have hKind := hBounded.kind rfl (by dsimp only at hBegin ⊢; omega)
        dsimp only at hBegin hKind
        omega
    | cons len lens =>
        refine ⟨_, (parserStep_of_not_awaiting hAwait).trans (Prod.ext rfl ?_), ?_, ?_⟩
        · simp only [ParserRun.outcome, Parser.parse_array]
          split_ifs <;> rfl
        · simp only [ParserRun.outcome, Parser.parse_array]
          split_ifs <;> exact (Int.add_zero _).trans hBegin
        · simp only [ParserRun.outcome, Parser.parse_array]
          split_ifs with hDone hRoom
          · exact ⟨lens, Or.inl rfl⟩
          · exact ⟨(len - 1) :: lens, Or.inr ⟨by simp only [List.length_cons]; omega, rfl⟩⟩
          · exact ⟨(len - 1) :: lens, Or.inl rfl⟩
  · have hKind := hBounded.kind rfl (by dsimp only at hBegin ⊢; omega)
    dsimp only at hBegin hKind
    omega

/-- An array of negative length on a full stack: its elements cannot be
pushed, and the length only moves away from the end. -/
def Spinning (h : Handler σ) (s : ParserRun σ) : Prop :=
  h.awaitingSnapshot s.handler = false ∧
    ∃ len lens, s.parser = .resume (len :: lens) ∧ lens.length = 30 ∧ len < -1

theorem Spinning.continues (hs : Spinning h s) :
    ∃ t, Continues (parserStep h r) s t ∧ Spinning h t := by
  obtain ⟨parser, ch, begin⟩ := s
  obtain ⟨hAwait, len, lens, rfl, hLens, hLen⟩ := hs
  have hOut : (ParserRun.mk (.resume (len :: lens)) ch begin).outcome r =
      ⟨.resume ((len - 1) :: lens), [], true, 0⟩ := by
    simp only [ParserRun.outcome, Parser.parse_array]
    rw [if_neg (by omega), if_neg (by omega)]
  have hNext : Continues (parserStep h r) ⟨.resume (len :: lens), ch, begin⟩
      ⟨.resume ((len - 1) :: lens), ch, begin + 0⟩ := by
    rw [Continues, parserStep_of_not_awaiting hAwait, hOut]
    rfl
  exact ⟨_, hNext, hAwait, len - 1, lens, rfl, hLens, by omega⟩

/-- A misstep on a stack of the right shape, with the position in the range,
shows which state is on top. -/
theorem Parser.Misstep.cases {begin : Bytes} {avail : Int} (hMis : p.Misstep begin avail)
    (hp : Parser.Shaped p) :
    (∃ lens, p = .within inlineCommandInfo lens ∧ lens.length < 31 ∧
        (scanCr begin avail : Int) + 1 = avail) ∨
      (∃ len lens, p = .resume (len :: lens) ∧ lens.length = 30 ∧ len < -1) ∨
      (∃ len lens, p = .within (bulkStringInfo len) lens ∧ -2 ^ 31 ≤ len ∧ len < -1 ∧
        avail ≠ 0) := by
  cases hp with
  | resume lens hLens =>
      rcases hMis with ⟨hTop, -⟩ | ⟨-, hFull, hLen⟩ | ⟨hTop, -⟩
      · cases lens <;> cases hTop
      · cases lens with
        | nil => cases hFull
        | cons len lens =>
            rw [Parser.stackTop_resume, List.length_cons] at hFull
            exact Or.inr (Or.inl ⟨len, lens, rfl, Nat.succ_injective hFull, hLen⟩)
      · cases lens <;> cases hTop
  | element lens hne hLens =>
      rcases hMis with ⟨hTop, -⟩ | ⟨hTop, -⟩ | ⟨hTop, -⟩ <;> cases hTop
  | leaf top lens hTop hLens =>
      cases hTop with
      | inlineCommand =>
          rcases hMis with ⟨-, hLast⟩ | ⟨hTop, -⟩ | ⟨hTop, -⟩
          · exact Or.inl ⟨lens, rfl, hLens, hLast⟩
          · cases hTop
          · cases hTop
      | bulkString len hLow hHigh =>
          rcases hMis with ⟨hTop, -⟩ | ⟨hTop, -⟩ | ⟨-, hLen, hSome⟩
          · cases hTop
          · cases hTop
          · exact Or.inr (Or.inr ⟨len, lens, rfl, hLow, hLen, hSome⟩)
      | simple cb hcb =>
          rcases hMis with ⟨hTop, -⟩ | ⟨hTop, -⟩ | ⟨hTop, -⟩ <;> cases hTop
      | arrayLength =>
          rcases hMis with ⟨hTop, -⟩ | ⟨hTop, -⟩ | ⟨hTop, -⟩ <;> cases hTop
      | bulkStringLength =>
          rcases hMis with ⟨hTop, -⟩ | ⟨hTop, -⟩ | ⟨hTop, -⟩ <;> cases hTop

/-- In a bounded call no visited iteration is a misstep. -/
theorem Bounded.not_misstep (hb : Bounded h r p ch)
    (hVisit : Visits (parserStep h r) ⟨p, ch, 0⟩ s) (hs : OnTrack r s)
    (hAwait : h.awaitingSnapshot s.handler = false) :
    ¬s.parser.Misstep (r.suffix s.begin) (r.stop - s.begin) := by
  obtain ⟨⟨last, hEnds, hLow, hHigh⟩, hSteps⟩ := hb
  intro hMis
  have hFrom := hEnds.from_visited hVisit
  obtain ⟨parser, handler, begin⟩ := s
  have h0 := hs.low
  have h1 := hs.high
  dsimp only at h0 h1
  rcases hMis.cases hs.shaped with ⟨lens, hp, hLens, hLast⟩ | ⟨len, lens, hp, hLens, hLen⟩ |
    ⟨len, lens, hp, hMin, hLen, hSome⟩
  · dsimp only at hp hLast
    subst hp
    have hNext : Continues (parserStep h r) ⟨.within inlineCommandInfo lens, handler, begin⟩
        (parserStep h r ⟨.within inlineCommandInfo lens, handler, begin⟩).1 := by
      refine Prod.ext rfl ?_
      rw [parserStep_of_not_awaiting hAwait]
      simp only [ParserRun.outcome, Parser.parse_inlineCommand]
      rw [if_pos (by omega)]
    have hOver : Overrun r (parserStep h r ⟨.within inlineCommandInfo lens, handler, begin⟩).1 := by
      rw [parserStep_of_not_awaiting hAwait]
      simp only [Overrun, ParserRun.outcome, Parser.parse_inlineCommand]
      rw [if_pos (by omega)]
      exact ⟨by dsimp only; omega, lens, Or.inl rfl⟩
    refine not_ends_of_forever
      (I := fun u => Visits (parserStep h r) ⟨p, ch, 0⟩ u ∧ Overrun r u) ?_
      ⟨hVisit.tail hNext, hOver⟩ (hEnds.from_visited (hVisit.tail hNext))
    rintro u ⟨huVisit, hu⟩
    cases hu' : h.awaitingSnapshot u.handler with
    | true =>
        have hStop : Ends (parserStep h r) u u := Ends.of_stop (by rw [parserStep, if_pos hu'])
        have hSame := hStop.unique (hEnds.from_visited huVisit)
        rw [← hSame, hu.1] at hHigh
        omega
    | false =>
        obtain ⟨t, ht, htOver⟩ := hu.continues (hSteps u huVisit hu') hu'
        exact ⟨t, ht, huVisit.tail ht, htOver⟩
  · exact not_ends_of_forever (fun u hu => Spinning.continues hu)
      ⟨hAwait, len, lens, hp, hLens, hLen⟩ hFrom
  · dsimp only at hp hSome
    subst hp
    have hChars := (hSteps _ hVisit hAwait).chars 0 (toInt32 (min len (r.stop - begin)))
      (by
        simp only [ParserRun.outcome, Parser.parse_bulkString]
        rw [if_neg (by omega), if_neg hSome]
        split_ifs <;> simp)
    have hOutput : toInt32 (min len (r.stop - begin)) = len := by
      rw [min_eq_left (by omega)]
      exact toInt32_of_small (by omega) (by omega)
    omega

theorem Bounded.noMisstep (hb : Bounded h r p ch) (hp : Parser.Shaped p) :
    NoMisstep h r p ch := by
  have hStart : OnTrack r (⟨p, ch, 0⟩ : ParserRun σ) := ⟨hp, le_rfl, by dsimp only; omega⟩
  intro s hVisit
  have hTrack := hVisit.invariant
    (I := fun s => Visits (parserStep h r) ⟨p, ch, 0⟩ s ∧ OnTrack r s)
    (fun s t hs hNext => by
      have hStep := hs.2.next (h := h) (hb.not_misstep hs.1 hs.2)
      rw [Continues] at hNext
      rw [hNext] at hStep
      exact ⟨hs.1.tail hNext, hStep⟩)
    ⟨Relation.ReflTransGen.refl, hStart⟩
  exact hb.not_misstep hVisit hTrack.2

/-- A call on a reachable parser ends, stays inside its range and returns a
position of it, exactly when none of its iterations takes one of the three
wrong steps. -/
theorem parserParse_bounded_iff (hp : Reached h p) (r : Range) (ch : σ) :
    Bounded h r p ch ↔ NoMisstep h r p ch :=
  ⟨fun hb => hb.noMisstep hp.shaped, fun hOk => hOk.bounded hp.shaped⟩

/-- A handler that looks at nothing. -/
def idleHandler : Handler Unit := ⟨fun _ ch _ => ch, fun _ => false⟩

/-- A complete inline command, in front of a stale byte. -/
def pingLine : Range := ⟨ascii ['P', 'I', 'N', 'G', '\r', '\n', '*'], 6, by decide⟩

/-- The same bytes before the line feed has come. -/
def pingCut : Range := ⟨ascii ['P', 'I', 'N', 'G', '\r', '\n', '*'], 5, by decide⟩

theorem pingLine_bounded : Bounded idleHandler pingLine parserInit () := by
  refine (parserParse_bounded_iff Reached.init pingLine ()).mpr ?_
  intro s hVisit _
  have h₁ : Continues (parserStep idleHandler pingLine) ⟨parserInit, (), 0⟩
      ⟨.within inlineCommandInfo [], (), 0⟩ := rfl
  have h₂ : Continues (parserStep idleHandler pingLine) ⟨.within inlineCommandInfo [], (), 0⟩
      ⟨parserInit, (), 6⟩ := rfl
  have h₃ : parserStep idleHandler pingLine ⟨parserInit, (), 6⟩ = (⟨parserInit, (), 6⟩, false) := rfl
  rcases hVisit.of_continues h₁ with rfl | hVisit
  · decide
  rcases hVisit.of_continues h₂ with rfl | hVisit
  · decide
  rw [hVisit.of_stop h₃]
  decide

/-- With the carriage return as the last byte of the range, the line is taken
to end behind the range. -/
theorem pingCut_unbounded :
    ¬∀ (p : Parser) (r : Range), Reached idleHandler p → Bounded idleHandler r p () := by
  intro h
  have hOk := (h parserInit pingCut Reached.init).noMisstep Parser.shaped_parserInit
  have hNext : Continues (parserStep idleHandler pingCut) ⟨parserInit, (), 0⟩
      ⟨.within inlineCommandInfo [], (), 0⟩ := rfl
  exact hOk _ (Relation.ReflTransGen.single hNext) rfl (by decide)

end Missteps

end RedisServer
