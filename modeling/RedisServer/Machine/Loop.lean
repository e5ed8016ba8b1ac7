import Mathlib.Logic.Relation
import Mathlib.Order.WellFounded

/-! Loops of the form `while (goOn)`. The body returns the next state and
whether there is another iteration. Nothing here assumes that a loop ends: a
run with a bound on the iterations may come back without a result. -/
namespace Machine

variable {State : Type*} (body : State → State × Bool)

/-- At most `fuel` iterations; `none` when they were not enough. -/
def loop : Nat → State → Option State
  | 0, _ => none
  | fuel + 1, s => if (body s).2 then loop fuel (body s).1 else some (body s).1

/-- One iteration after which there is another. -/
def Continues (s t : State) : Prop := body s = (t, true)

/-- The states in which some iteration starts. -/
def Visits : State → State → Prop := Relation.ReflTransGen (Continues body)

/-- The states in which the first iterations start. -/
def visited : Nat → State → List State
  | 0, _ => []
  | fuel + 1, s => s :: if (body s).2 then visited fuel (body s).1 else []

/-- The loop ends in `t`: every bound from some number on is enough. -/
def Ends (s t : State) : Prop := ∃ enough, ∀ fuel, enough ≤ fuel → loop body fuel s = some t

variable {body} {s m t u : State}

theorem Ends.of_stop (h : body s = (t, false)) : Ends body s t := by
  refine ⟨1, fun fuel hFuel => ?_⟩
  obtain ⟨fuel, rfl⟩ := Nat.exists_eq_add_of_le' hFuel
  simp [loop, h]

theorem Ends.of_continues (h : Continues body s m) (hEnds : Ends body m t) : Ends body s t := by
  obtain ⟨enough, hEnough⟩ := hEnds
  refine ⟨enough + 1, fun fuel hFuel => ?_⟩
  obtain ⟨fuel, rfl⟩ := Nat.exists_eq_add_of_le' (Nat.le_of_add_left_le hFuel)
  rw [Continues] at h
  simp only [loop, h, ↓reduceIte]
  exact hEnough fuel (by omega)

theorem Ends.of_visits (h : Visits body s m) (hEnds : Ends body m t) : Ends body s t := by
  induction h using Relation.ReflTransGen.head_induction_on with
  | refl => exact hEnds
  | head hStep _ ih => exact ih.of_continues hStep

theorem Ends.unique (ht : Ends body s t) (hu : Ends body s u) : t = u := by
  obtain ⟨n, hn⟩ := ht
  obtain ⟨k, hk⟩ := hu
  have hSame := (hn (n + k) (by omega)).symm.trans (hk (n + k) (by omega))
  exact Option.some.inj hSame

/-- A result of the bounded loop is the result of the loop: its last iteration
starts in a visited state. -/
theorem exists_last_of_loop {fuel : Nat} (h : loop body fuel s = some t) :
    ∃ m, Visits body s m ∧ body m = (t, false) := by
  induction fuel generalizing s with
  | zero => cases h
  | succ fuel ih =>
      simp only [loop] at h
      split at h
      · rename_i hOn
        obtain ⟨m, hVisits, hLast⟩ := ih h
        exact ⟨m, hVisits.head (Prod.ext rfl hOn), hLast⟩
      · rename_i hOff
        refine ⟨s, Relation.ReflTransGen.refl, ?_⟩
        exact Prod.ext (Option.some.inj h) (Bool.eq_false_iff.mpr hOff)

theorem ends_iff : Ends body s t ↔ ∃ m, Visits body s m ∧ body m = (t, false) := by
  constructor
  · rintro ⟨enough, hEnough⟩
    exact exists_last_of_loop (hEnough enough le_rfl)
  · rintro ⟨m, hVisits, hLast⟩
    exact Ends.of_visits hVisits (Ends.of_stop hLast)

/-- The rest of a loop that ends, from any state it visits. -/
theorem Ends.from_visited (hEnds : Ends body s t) (h : Visits body s m) : Ends body m t := by
  induction h with
  | refl => exact hEnds
  | tail _ hStep ih =>
      obtain ⟨last, hVisits, hLast⟩ := ends_iff.mp ih
      rcases hVisits.cases_head with rfl | ⟨next, hNext, hRest⟩
      · rw [Continues] at hStep
        rw [hStep] at hLast
        cases hLast
      · have hSame : (next, true) = (_, true) := hNext.symm.trans hStep
        cases hSame
        exact ends_iff.mpr ⟨last, hRest, hLast⟩

/-- What every iteration that goes on preserves holds in every visited state. -/
theorem Visits.invariant {I : State → Prop} (hStep : ∀ s t, I s → Continues body s t → I t)
    (hStart : I s) (h : Visits body s t) : I t := by
  induction h with
  | refl => exact hStart
  | tail _ hNext ih => exact hStep _ _ ih hNext

theorem Visits.of_continues (hNext : Continues body s m) (h : Visits body s t) :
    t = s ∨ Visits body m t := by
  rcases h.cases_head with rfl | ⟨next, hFirst, hRest⟩
  · exact Or.inl rfl
  · have hSame : (next, true) = (m, true) := hFirst.symm.trans hNext
    cases hSame
    exact Or.inr hRest

theorem Visits.of_stop (hStop : body s = (m, false)) (h : Visits body s t) : t = s := by
  rcases h.cases_head with rfl | ⟨next, hFirst, -⟩
  · rfl
  · rw [Continues, hStop] at hFirst
    cases hFirst

/-- A loop that ends within the bound visits no other states. -/
theorem Visits.mem_visited {fuel : Nat} (hLoop : loop body fuel s = some u)
    (h : Visits body s t) : t ∈ visited body fuel s := by
  induction fuel generalizing s with
  | zero => cases hLoop
  | succ fuel ih =>
      simp only [loop] at hLoop
      rw [visited]
      cases hOn : (body s).2 with
      | true =>
          have hNext : Continues body s (body s).1 := Prod.ext rfl hOn
          rw [if_pos hOn] at hLoop
          rcases h.of_continues hNext with rfl | hRest
          · exact List.mem_cons_self ..
          · exact List.mem_cons_of_mem _ (ih hLoop hRest)
      | false =>
          have hStop : body s = ((body s).1, false) := Prod.ext rfl hOn
          obtain rfl := h.of_stop hStop
          exact List.mem_cons_self ..

/-- A loop that can always go on does not end. -/
theorem not_ends_of_forever {I : State → Prop} (hStep : ∀ s, I s → ∃ t, Continues body s t ∧ I t)
    (hStart : I s) : ¬Ends body s t := by
  intro hEnds
  obtain ⟨m, hVisits, hLast⟩ := ends_iff.mp hEnds
  have hm : I m := hVisits.invariant (fun s t hs hNext => by
    obtain ⟨t', hNext', ht'⟩ := hStep s hs
    have hSame : (t, true) = (t', true) := hNext.symm.trans hNext'
    cases hSame
    exact ht') hStart
  obtain ⟨t', hNext, -⟩ := hStep m hm
  rw [Continues, hLast] at hNext
  cases hNext

/-- The variant rule: a loop ends when each iteration that goes on keeps `I`
and moves down in a well-founded order. -/
theorem exists_ends_of_wf {α : Type*} {r : α → α → Prop} (hWf : WellFounded r)
    (measure : State → α) {I : State → Prop}
    (hStep : ∀ s t, I s → Continues body s t → I t ∧ r (measure t) (measure s))
    (hStart : I s) : ∃ t, Ends body s t := by
  induction hRank : measure s using hWf.induction generalizing s with
  | _ rank ih =>
      subst hRank
      cases hOn : (body s).2 with
      | false => exact ⟨(body s).1, Ends.of_stop (Prod.ext rfl hOn)⟩
      | true =>
          have hNext : Continues body s (body s).1 := Prod.ext rfl hOn
          obtain ⟨hKeep, hLess⟩ := hStep s _ hStart hNext
          obtain ⟨t, hEnds⟩ := ih _ hLess hKeep rfl
          exact ⟨t, hEnds.of_continues hNext⟩

end Machine
