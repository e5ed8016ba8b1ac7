import RedisServer.Events.LoopHandlers

/-! Whole runs of the event loop. Between `epoll_wait` and the last event of its batch,
the clients that are still in the batch stay allocated, because each handler frees at
most the client of its own event. The one place left is the second test of an event. -/
namespace RedisServer

open Machine

namespace EventLoop

/-- Each event of the rest of the batch is for an allocated client, and no two are for
the same one. What is reported, the client is monitored for. -/
structure Waits (s : EventLoop) : Prop where
  pending : ∀ event ∈ s.events, ∀ client, event.ptr = some client →
    ∃ c, s.clients client = some c ∧ Reports c.epollEvents event.events
  distinct : (s.events.map ReadyEvent.ptr).Nodup

/-- The invariant of the loop. The client that has still to be tested for `EPOLLOUT` has
not been freed. -/
structure Safe (s : EventLoop) : Prop extends s.Sound, s.Waits where
  last : ∀ client, s.out = some client →
    some client ∉ s.events.map ReadyEvent.ptr ∧ ∃ c, s.clients client = some c

/-- The process has not been ended, and has not used a client that is freed. -/
def Intact : Option EventLoop → Prop
  | some s => s.Safe
  | none => False

/-- The condition on each turn. A connection can be accepted, and what is read fits. The
link to the master is not closed by an event that also reports it ready for output. No
output ring is written over, and no handler writes to a connection that is closed. -/
def Orderly : Option EventLoop → LoopLabel → Prop
  | some s, .turn t =>
      match s.out, s.events with
      | some client, _ => ∀ c, s.clients client = some c → s.OutputFits client c t
      | none, [] => True
      | none, event :: _ =>
          match event.ptr with
          | none => t.accepted ≠ none
          | some client => Has event.events epollin → ∀ c, s.clients client = some c → Reads c →
              t.reading.Fits client s.replicas ∧
                (c.type = .master → Has event.events epollout → ¬t.reading.Closes)
  | some s, .sigpipe => s.out = none ∧ s.events = []
  | _, _ => True

section Turns

variable {s t : EventLoop} {client : Nat} {c : LoopClient}

/-- A handler of a client that is not in the rest of the batch. -/
theorem Waits.of_spares (h : s.Waits) (hSpares : Spares client s t)
    (hNot : some client ∉ s.events.map ReadyEvent.ptr) : t.Waits := by
  refine ⟨fun event hEvent other hOther => ?_, by rw [hSpares.events]; exact h.distinct⟩
  rw [hSpares.events] at hEvent
  obtain ⟨c, hc, hReports⟩ := h.pending event hEvent other hOther
  have hNe : other ≠ client := by
    rintro rfl
    exact hNot (hOther ▸ List.mem_map_of_mem hEvent)
  obtain ⟨d, hd, hReports'⟩ := hSpares.others other hNe c hc
  exact ⟨d, hd, hReports'.trans hReports⟩

theorem Waits.safe (hWaits : s.Waits) (h : s.Sound) (hOut : s.out = none) : s.Safe := by
  refine { h, hWaits with last := fun client hClient => ?_ }
  rw [hOut] at hClient
  cases hClient

theorem connect_new {garbage : LoopClient} (hFresh : s.clients client = none) :
    s.connect (some (client, garbage)) = some (s.put client
      { garbage with type := .regular, epollEvents := 0 ||| epollin }) := by
  unfold EventLoop.connect
  rw [Option.bind_eq_bind, Option.bind_some]
  dsimp only
  rw [hFresh]
  dsimp only
  rw [clientEnableReadEvents, monitor_eq (Function.update_self ..) (by simp [setClient])]
  simp [EventLoop.put, setClient]

theorem Waits.connect (hWaits : s.Waits) (h : s.Sound) (hOut : s.out = none)
    (accepted : Option (Nat × LoopClient)) :
    Intact (s.connect accepted) ↔ accepted ≠ none := by
  cases accepted with
  | none => simp [EventLoop.connect, Intact]
  | some new =>
      obtain ⟨client, garbage⟩ := new
      refine iff_of_true ?_ (by simp)
      cases hFresh : s.clients client with
      | some c =>
          have hStay : s.connect (some (client, garbage)) = some s := by
            unfold EventLoop.connect
            rw [Option.bind_eq_bind, Option.bind_some]
            dsimp only
            rw [hFresh]
          rw [hStay]
          exact hWaits.safe h hOut
      | none =>
          have hNot : some client ∉ s.events.map ReadyEvent.ptr := by
            intro hMem
            obtain ⟨event, hEvent, hPtr⟩ := List.mem_map.mp hMem
            obtain ⟨c, hc, -⟩ := hWaits.pending event hEvent client hPtr
            cases hFresh.symm.trans hc
          rw [connect_new hFresh]
          refine (hWaits.of_spares (spares_put ..) hNot).safe (h.put_of_entry ?_ ?_) hOut
          · rw [h.entries, hFresh]
            simp
          · exact ⟨has_epollin_or_epollin, by rw [has_epollout_or_epollin]; decide⟩

/-- A handler for the last event that was taken. -/
theorem Handles.intact_iff {result : Option EventLoop} {P closes : Prop}
    (h : Handles client s result P closes) (hWaits : s.Waits) (hOut : s.out = none)
    (hNot : some client ∉ s.events.map ReadyEvent.ptr) : Intact result ↔ P := by
  constructor
  · intro hIntact
    by_contra hBad
    cases hResult : result with
    | none =>
        rw [hResult] at hIntact
        exact hIntact
    | some t =>
        rw [hResult] at hIntact
        exact h.bad hBad t hResult hIntact.toSound
  · intro hP
    obtain ⟨t, hResult, ht, hSpares, -⟩ := h.good hP
    rw [hResult]
    exact (hWaits.of_spares hSpares hNot).safe ht (hSpares.out.trans hOut)

/-- The same when the client has still to be tested for `EPOLLOUT`. -/
theorem Handles.intact_out_iff {result : Option EventLoop} {P closes : Prop}
    (h : Handles client s result P closes) (hWaits : s.Waits)
    (hNot : some client ∉ s.events.map ReadyEvent.ptr) :
    Intact (result.map fun t => { t with out := some client }) ↔ P ∧ ¬closes := by
  constructor
  · intro hIntact
    cases hResult : result with
    | none =>
        rw [hResult] at hIntact
        exact hIntact.elim
    | some t =>
        rw [hResult] at hIntact
        have hSafe : Safe { t with out := some client } := hIntact
        have ht : t.Sound := ⟨hSafe.interest, hSafe.monitored, hSafe.few, hSafe.entries⟩
        have hP : P := by
          by_contra hBad
          exact h.bad hBad t hResult ht
        refine ⟨hP, fun hCloses => ?_⟩
        obtain ⟨u, hu, -, -, hFreed⟩ := h.good hP
        cases hResult.symm.trans hu
        obtain ⟨-, c, hc⟩ := hSafe.last client rfl
        cases (hFreed.mp hCloses).symm.trans hc
  · rintro ⟨hP, hOpen⟩
    obtain ⟨t, hResult, ht, hSpares, hFreed⟩ := h.good hP
    have hNext := hWaits.of_spares hSpares hNot
    rw [hResult]
    refine ⟨⟨ht.interest, ht.monitored, ht.few, ht.entries⟩, ⟨hNext.pending, hNext.distinct⟩, ?_⟩
    intro other hOther
    cases hOther
    refine ⟨by rw [hSpares.events]; exact hNot, ?_⟩
    exact Option.ne_none_iff_exists'.mp fun hNone => hOpen (hFreed.mpr hNone)

/-- A client that is read from while output is reported is the link to the master. -/
theorem master_of_reads (hMonitored : c.Monitored) (hOut : Has c.epollEvents epollout)
    (hReads : Reads c) : c.type = .master := by
  rcases hReads with hRegular | ⟨hMaster, -⟩
  · unfold LoopClient.Monitored at hMonitored
    rw [hRegular] at hMonitored
    exact absurd hOut hMonitored.2
  · exact hMaster

/-- The state in which the first event of the rest of the batch is handled. -/
theorem Safe.rest (h : s.Safe) {event : ReadyEvent} {rest : List ReadyEvent}
    (hEvents : s.events = event :: rest) :
    Sound { s with events := rest, out := none } ∧ Waits { s with events := rest, out := none } ∧
      event.ptr ∉ rest.map ReadyEvent.ptr := by
  have hDistinct := h.distinct
  rw [hEvents, List.map_cons, List.nodup_cons] at hDistinct
  refine ⟨⟨h.interest, h.monitored, h.few, h.entries⟩, ⟨fun other hOther => ?_, hDistinct.2⟩,
    hDistinct.1⟩
  exact h.pending other (hEvents ▸ List.mem_cons_of_mem _ hOther)

/-- The event of a client. The branch for a hangup is never reached. -/
theorem Safe.turn_event_iff (h : s.Safe) (hOut : s.out = none) {event : ReadyEvent}
    {rest : List ReadyEvent} (hEvents : s.events = event :: rest) (hPtr : event.ptr = some client)
    (t : LoopTurn) :
    Intact (s.turn t) ↔ (Has event.events epollin → ∀ c, s.clients client = some c → Reads c →
      t.reading.Fits client s.replicas ∧
        (c.type = .master → Has event.events epollout → ¬t.reading.Closes)) := by
  obtain ⟨hSound, hWaits, hNot⟩ := h.rest hEvents
  rw [hPtr] at hNot
  obtain ⟨c, hc, hReports⟩ := h.pending event (hEvents ▸ List.mem_cons_self ..) client hPtr
  have hOnly (P : LoopClient → Prop) : (∀ d, s.clients client = some d → P d) ↔ P c := by
    rw [hc]
    simp
  have hMap (result : Option EventLoop) :
      (result.bind fun t => some { t with out := some client }) =
        result.map fun t => { t with out := some client } := by
    cases result <;> rfl
  have hHandles := hSound.handleInput hc t
  have hNone : Handles client { s with events := rest, out := none }
      (some { s with events := rest, out := none }) True False :=
    handles_some hSound (.refl ..) hc trivial id
  rw [hOnly]
  simp only [EventLoop.turn, hOut, hEvents, hPtr, if_pos (first_test_ne_zero event.events)]
  by_cases hIn : Has event.events epollin
  · by_cases hReported : Has event.events epollout
    · simp only [if_pos hIn, if_pos hReported, Option.bind_eq_bind, hMap]
      rw [hHandles.intact_out_iff hWaits hNot]
      constructor
      · rintro ⟨hFits, hOpen⟩ - hReads
        exact ⟨hFits hReads, fun _ _ hCloses => hOpen ⟨hReads, hCloses⟩⟩
      · intro hAll
        refine ⟨fun hReads => (hAll hIn hReads).1, fun ⟨hReads, hCloses⟩ => ?_⟩
        have hMaster :=
          master_of_reads (h.monitored client c hc) (hReports.2 hReported) hReads
        exact (hAll hIn hReads).2 hMaster hReported hCloses
    · simp only [if_pos hIn, if_neg hReported, Option.bind_eq_bind, Option.bind_fun_some]
      rw [hHandles.intact_iff hWaits rfl hNot]
      refine ⟨fun hFits _ hReads => ⟨hFits hReads, fun _ hYes => absurd hYes hReported⟩, ?_⟩
      exact fun hAll hReads => (hAll hIn hReads).1
  · refine iff_of_true ?_ fun hYes => absurd hYes hIn
    by_cases hReported : Has event.events epollout
    · simp only [if_neg hIn, if_pos hReported, Option.bind_eq_bind, Option.bind_some]
      exact (hNone.intact_out_iff hWaits hNot).mpr ⟨trivial, id⟩
    · simp only [if_neg hIn, if_neg hReported, Option.bind_eq_bind, Option.bind_some]
      exact (hNone.intact_iff hWaits rfl hNot).mpr trivial

/-- What one turn comes to. -/
theorem Safe.turn_iff (h : s.Safe) (t : LoopTurn) :
    Intact (s.turn t) ↔ Orderly (some s) (.turn t) := by
  cases hOut : s.out with
  | some client =>
      obtain ⟨hNot, c, hc⟩ := h.last client hOut
      have hSound : Sound { s with out := none } := ⟨h.interest, h.monitored, h.few, h.entries⟩
      have hWaits : Waits { s with out := none } := ⟨h.pending, h.distinct⟩
      have hIff := (hSound.handleOutput hc t).intact_iff hWaits rfl hNot
      simp only [EventLoop.turn, Orderly, hOut]
      rw [hIff]
      refine ⟨fun hFits d hd => ?_, fun hAll => hAll c hc⟩
      cases hc.symm.trans hd
      exact hFits
  | none =>
      cases hEvents : s.events with
      | nil =>
          simp only [EventLoop.turn, Orderly, hOut, hEvents]
          exact iff_of_true h trivial
      | cons event rest =>
          cases hPtr : event.ptr with
          | some client =>
              rw [h.turn_event_iff hOut hEvents hPtr t]
              simp only [Orderly, hOut, hEvents, hPtr]
          | none =>
              obtain ⟨hSound, hWaits, -⟩ := h.rest hEvents
              simp only [EventLoop.turn, Orderly, hOut, hEvents, hPtr]
              exact hWaits.connect hSound rfl t.accepted

theorem Safe.wait (h : s.Safe) (events : List ReadyEvent) :
    Intact (step (some s) (.wait events)).1 := by
  unfold step
  dsimp only
  split
  · rename_i hReady
    obtain ⟨hOut, -, hDistinct, hReports⟩ := hReady
    have hSound : Sound { s with events := events } := ⟨h.interest, h.monitored, h.few, h.entries⟩
    refine Waits.safe ⟨fun event hEvent client hPtr => ?_, hDistinct⟩ hSound hOut
    have hReported := hReports event hEvent client hPtr
    rw [h.interest] at hReported
    cases hc : s.clients client with
    | none =>
        rw [hc] at hReported
        exact hReported.elim
    | some c =>
        rw [hc] at hReported
        exact ⟨c, rfl, hReported⟩
  · exact h

theorem Safe.sigpipe_iff (h : s.Safe) :
    Intact (step (some s) .sigpipe).1 ↔ Orderly (some s) .sigpipe := by
  unfold step Orderly
  dsimp only
  split
  · rename_i hIdle
    exact iff_of_true h hIdle
  · rename_i hBusy
    exact iff_of_false id hBusy

theorem start_some (master : Nat) (state : MasterReplicaState) :
    start (some (master, state)) =
      (start none).put master ⟨.master, 0 ||| epollout, state, .connecting⟩ := by
  unfold start EventLoop.put
  simp only [Option.bind_some, Option.bind_none, EventLoop.mk.injEq, and_true]
  refine ⟨funext fun client => ?_, funext fun client => ?_⟩
  · by_cases hSame : client = master
    · simp [hSame]
    · simp [hSame]
  · by_cases hSame : client = master
    · simp [hSame]
    · simp [hSame]

theorem safe_start (link : Option (Nat × MasterReplicaState)) : (start link).Safe := by
  have hNone : (start none).Sound := by
    refine ⟨fun client => rfl, fun client c hc => ?_, Nat.zero_le _, fun client => ?_⟩
    · cases hc
    · simp [start]
  cases link with
  | none => exact Waits.safe ⟨by simp [start], by simp [start]⟩ hNone rfl
  | some new =>
      obtain ⟨master, state⟩ := new
      have hSound : (start (some (master, state))).Sound := by
        rw [start_some]
        refine hNone.put_of_entry (by simp [start]) ⟨has_epollout_or_epollout, by simp, ?_⟩
        exact fun hIn => absurd (has_epollin_or_epollout.mp hIn) (by decide)
      exact Waits.safe ⟨by simp [start], by simp [start]⟩ hSound rfl

end Turns

/-- Exactly which runs of the event loop are safe: in these, every batch is handled
without the use of a client that has been freed, every client is registered for what it
has to be monitored for, and the array has the replicas. -/
theorem event_loop_iff (link : Option (Nat × MasterReplicaState)) (labels : List LoopLabel) :
    Throughout step Intact (some (start link)) labels ↔
      AllSteps step Orderly (some (start link)) labels := by
  have hStart : Intact (some (start link)) := safe_start link
  refine throughout_iff_allSteps (fun p label h => ?_) hStart labels
  cases p with
  | none => exact h.elim
  | some s =>
      cases label with
      | wait events => exact iff_of_true (Safe.wait h events) trivial
      | turn t => exact Safe.turn_iff h t
      | sigpipe => exact Safe.sigpipe_iff h

end EventLoop

end RedisServer
