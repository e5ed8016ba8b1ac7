import Mathlib.Data.List.Basic

/-! Deterministic labelled systems and their finite runs. A step may return a
result beside the next state. Nothing here fixes what the states, the labels
or the results are. -/
namespace Machine

variable {State Spec Label Event Result Answer : Type*}

/-- Take the labels in order and keep what each step returned. -/
def run (step : State → Label → State × Result) : State → List Label → State × List Result
  | s, [] => (s, [])
  | s, l :: ls =>
      let next := step s l
      let rest := run step next.1 ls
      (rest.1, next.2 :: rest.2)

/-- The same for steps that may not come back. -/
def runOption (step : State → Label → Option (State × Result)) :
    State → List Label → Option (State × List Result)
  | s, [] => some (s, [])
  | s, l :: ls =>
      (step s l).bind fun next =>
        (runOption step next.1 ls).map fun rest => (rest.1, next.2 :: rest.2)

/-- Each label of the run meets `P` in the very state in which it is taken. -/
def AllSteps (step : State → Label → State × Result) (P : State → Label → Prop) :
    State → List Label → Prop
  | _, [] => True
  | s, l :: ls => P s l ∧ AllSteps step P (step s l).1 ls

/-- `I` holds in every state of the run, the first and the last included. -/
def Throughout (step : State → Label → State × Result) (I : State → Prop) :
    State → List Label → Prop
  | s, [] => I s
  | s, l :: ls => I s ∧ Throughout step I (step s l).1 ls

/-- The events that the steps of a run stand for, those of one step after those of
another. -/
def translate (step : State → Label → State × Result) (shows : State → Label → List Event) :
    State → List Label → List Event
  | _, [] => []
  | s, l :: ls => shows s l ++ translate step shows (step s l).1 ls

section Runs

variable {step : State → Label → State × Result} {P Q : State → Label → Prop}
  {I : State → Prop}

theorem allSteps_true (s : State) (ls : List Label) : AllSteps step (fun _ _ => True) s ls := by
  induction ls generalizing s with
  | nil => trivial
  | cons l ls ih => exact ⟨trivial, ih _⟩

theorem AllSteps.imp {s : State} {ls : List Label} (h : AllSteps step P s ls)
    (hImp : ∀ s l, P s l → Q s l) : AllSteps step Q s ls := by
  induction ls generalizing s with
  | nil => trivial
  | cons l ls ih => exact ⟨hImp s l h.1, ih h.2⟩

/-- A condition on the labels alone. -/
theorem allSteps_of_forall {Q : Label → Prop} {ls : List Label} (h : ∀ l ∈ ls, Q l) (s : State) :
    AllSteps step (fun _ l => Q l) s ls := by
  induction ls generalizing s with
  | nil => trivial
  | cons l ls ih =>
      exact ⟨h l (List.mem_cons_self ..), ih (fun l' hl' => h l' (List.mem_cons_of_mem _ hl')) _⟩

theorem Throughout.first {s : State} {ls : List Label} (h : Throughout step I s ls) : I s := by
  cases ls with
  | nil => exact h
  | cons l ls => exact h.1

theorem Throughout.last {s : State} {ls : List Label} (h : Throughout step I s ls) :
    I (run step s ls).1 := by
  induction ls generalizing s with
  | nil => exact h
  | cons l ls ih => exact ih h.2

theorem Throughout.imp {J : State → Prop} {s : State} {ls : List Label}
    (h : Throughout step I s ls) (hImp : ∀ s, I s → J s) : Throughout step J s ls := by
  induction ls generalizing s with
  | nil => exact hImp s h
  | cons l ls ih => exact ⟨hImp s h.1, ih h.2⟩

/-- The invariant rule, with a condition on the steps of the run. The
condition is only required of labels that are actually taken. -/
theorem throughout_of_allSteps (hStep : ∀ s l, I s → P s l → I (step s l).1)
    {s : State} {ls : List Label} (hStart : I s) (h : AllSteps step P s ls) :
    Throughout step I s ls := by
  induction ls generalizing s with
  | nil => exact hStart
  | cons l ls ih => exact ⟨hStart, ih (hStep s l hStart h.1) h.2⟩

/-- What holds of every step from a state in `I` holds of every step of a run. -/
theorem allSteps_of_inv (hKeep : ∀ s l, I s → I (step s l).1) (hStep : ∀ s l, I s → P s l)
    {s : State} (hStart : I s) (ls : List Label) : AllSteps step P s ls := by
  induction ls generalizing s with
  | nil => trivial
  | cons l ls ih => exact ⟨hStep s l hStart, ih (hKeep s l hStart)⟩

/-- The same for the steps of a run that meet a condition, which may be needed to
stay in `I`. -/
theorem AllSteps.imp_of_inv (hKeep : ∀ s l, I s → P s l → I (step s l).1)
    (hStep : ∀ s l, I s → P s l → Q s l) {s : State} (hStart : I s) {ls : List Label}
    (h : AllSteps step P s ls) : AllSteps step Q s ls := by
  induction ls generalizing s with
  | nil => trivial
  | cons l ls ih => exact ⟨hStep s l hStart h.1, ih (hKeep s l hStart h.1) h.2⟩

/-- When a step keeps `I` exactly under `P`, a run stays inside `I` exactly
when every one of its steps meets `P`. One bad step cannot be made good by a
later one, because the state between the two is a state of the run. The steps
may rely on a stronger `J` that good steps keep. -/
theorem throughout_iff_allSteps_of_inv {J : State → Prop} (hInv : ∀ s, J s → I s)
    (hStep : ∀ s l, J s → (I (step s l).1 ↔ P s l)) (hKeep : ∀ s l, J s → P s l → J (step s l).1)
    {s : State} (hStart : J s) (ls : List Label) :
    Throughout step I s ls ↔ AllSteps step P s ls := by
  induction ls generalizing s with
  | nil => exact iff_of_true (hInv s hStart) trivial
  | cons l ls ih =>
      constructor
      · rintro ⟨-, hRest⟩
        have hl := (hStep s l hStart).mp hRest.first
        exact ⟨hl, (ih (hKeep s l hStart hl)).mp hRest⟩
      · rintro ⟨hl, hRest⟩
        exact ⟨hInv s hStart, (ih (hKeep s l hStart hl)).mpr hRest⟩

theorem throughout_iff_allSteps (hStep : ∀ s l, I s → (I (step s l).1 ↔ P s l))
    {s : State} (hStart : I s) (ls : List Label) :
    Throughout step I s ls ↔ AllSteps step P s ls :=
  throughout_iff_allSteps_of_inv (fun _ h => h) hStep (fun s l h => (hStep s l h).mpr) hStart ls

theorem run_append (s : State) (ls ls' : List Label) :
    (run step s (ls ++ ls')).1 = (run step (run step s ls).1 ls').1 := by
  induction ls generalizing s with
  | nil => rfl
  | cons l ls ih => exact ih _

end Runs

section Ending

variable {step : Option State → Label → Option State × Result} {P : Option State → Label → Prop}

/-- Once there is no state any more, there is none at the end of the run. -/
theorem run_none (hNone : ∀ l, (step none l).1 = none) (ls : List Label) :
    (run step none ls).1 = none := by
  induction ls with
  | nil => rfl
  | cons l ls ih =>
      change (run step (step none l).1 ls).1 = none
      rw [hNone]
      exact ih

/-- What every step relates is related by a run that has a state at its end. -/
theorem run_relates {R : State → State → Prop} (hNone : ∀ l, (step none l).1 = none)
    (hRefl : ∀ s, R s s) (hTrans : ∀ s m t, R s m → R m t → R s t)
    (hStep : ∀ s l t, P (some s) l → (step (some s) l).1 = some t → R s t) {s t : State}
    {ls : List Label} (hAll : AllSteps step P (some s) ls)
    (h : (run step (some s) ls).1 = some t) : R s t := by
  induction ls generalizing s with
  | nil =>
      cases h
      exact hRefl _
  | cons l ls ih =>
      change (run step (step (some s) l).1 ls).1 = some t at h
      cases hNext : (step (some s) l).1 with
      | none =>
          rw [hNext, run_none hNone] at h
          cases h
      | some m =>
          have hRest := hAll.2
          rw [hNext] at h hRest
          exact hTrans s m t (hStep s l m hAll.1 hNext) (ih hRest h)

/-- The simulation rule for steps that each stand for a run of the specification, under
a refinement mapping. -/
theorem run_translate {spec : Spec → Event → Spec × Answer} (view : State → Spec)
    {shows : Option State → Label → List Event} (hNone : ∀ l, (step none l).1 = none)
    (hStep : ∀ s l t, (step (some s) l).1 = some t →
      (run spec (view s) (shows (some s) l)).1 = view t) {s t : State} {ls : List Label}
    (h : (run step (some s) ls).1 = some t) :
    (run spec (view s) (translate step shows (some s) ls)).1 = view t := by
  induction ls generalizing s with
  | nil =>
      cases h
      rfl
  | cons l ls ih =>
      change (run step (step (some s) l).1 ls).1 = some t at h
      cases hNext : (step (some s) l).1 with
      | none =>
          rw [hNext, run_none hNone] at h
          cases h
      | some m =>
          rw [hNext] at h
          rw [translate, hNext, run_append, hStep s l m hNext]
          exact ih h

end Ending

/-- The simulation rule. Related states stay related and return the same
results, as long as the labels meet `P` along the specification's own run. -/
theorem run_simulation {step : State → Label → State × Result}
    {spec : Spec → Label → Spec × Result} {R : State → Spec → Prop}
    {P : Spec → Label → Prop}
    (hStep : ∀ s a l, R s a → P a l →
      R (step s l).1 (spec a l).1 ∧ (step s l).2 = (spec a l).2)
    {s : State} {a : Spec} {ls : List Label} (hStart : R s a) (h : AllSteps spec P a ls) :
    R (run step s ls).1 (run spec a ls).1 ∧ (run step s ls).2 = (run spec a ls).2 := by
  induction ls generalizing s a with
  | nil => exact ⟨hStart, rfl⟩
  | cons l ls ih =>
      obtain ⟨hNext, hResult⟩ := hStep s a l hStart h.1
      obtain ⟨hLast, hResults⟩ := ih hNext h.2
      exact ⟨hLast, by simp only [run, hResult, hResults]⟩

/-- The simulation rule for steps that may not come back. -/
theorem runOption_simulation {step : State → Label → Option (State × Result)}
    {spec : Spec → Label → Spec × Result} {R : State → Spec → Prop} {P : Spec → Label → Prop}
    (hStep : ∀ s a l, R s a → P a l →
      ∃ s', step s l = some (s', (spec a l).2) ∧ R s' (spec a l).1)
    {s : State} {a : Spec} {ls : List Label} (hStart : R s a) (h : AllSteps spec P a ls) :
    ∃ s', runOption step s ls = some (s', (run spec a ls).2) ∧ R s' (run spec a ls).1 := by
  induction ls generalizing s a with
  | nil => exact ⟨s, rfl, hStart⟩
  | cons l ls ih =>
      obtain ⟨m, hNext, hRel⟩ := hStep s a l hStart h.1
      obtain ⟨s', hRest, hLast⟩ := ih hRel h.2
      refine ⟨s', ?_, hLast⟩
      simp only [runOption, hNext, Option.bind_some, hRest, Option.map_some, run]

end Machine
