import RedisServer.Events.LoopHandlers

/-! The event loop and the array of replicas. As far as the array and the types of the
clients go, a turn of the loop is a connection, an input or a disconnection, and which one
it is can be told from the turn and its client. So the loop has no runs that the array
alone does not have. What is reported of a replica's own socket never costs it its entry. -/
namespace RedisServer

open Machine

/-- The arguments of each `PSYNC`. -/
def psyncsOf (commands : List LoopCommand) : List (List Bytes) :=
  commands.filterMap fun
    | .psync args _ => some args
    | .simpleString .. => none

def Reading.psyncs : Reading → List (List Bytes)
  | .returns | .closes => []
  | .reads commands _ next => psyncsOf commands ++ next.psyncs

/-- An input, and a disconnection when it comes to the end of the stream. -/
def Reading.events (client : Nat) (reading : Reading) : List TableEvent :=
  .input client reading.psyncs :: if reading.Closes then [.disconnect client] else []

namespace EventLoop

/-- The array and the types of the clients. -/
def table (s : EventLoop) : ReplicaTable where
  clients client := (s.clients client).map LoopClient.type
  replicas := s.replicas

def connectEvents (s : EventLoop) : Option (Nat × LoopClient) → List TableEvent
  | none => []
  | some (client, _) =>
      match s.clients client with
      | some _ => []
      | none => [.connect client]

def inputEvents (s : EventLoop) (client : Nat) (t : LoopTurn) : List TableEvent :=
  match s.clients client with
  | some c => if Reads c then t.reading.events client else []
  | none => []

def outputEvents (s : EventLoop) (client : Nat) (t : LoopTurn) : List TableEvent :=
  match s.clients client with
  | some c =>
      if c.type = .replica ∧ Refuses c t.psync then [.disconnect client]
      else if c.type = .master ∧ c.ExpectsInput then t.reading.events client
      else []
  | none => []

/-- What a turn is for the array: what it reads from the client of its event, the client
that connects, or the replica that `continue_psync` refuses. -/
def turnEvents (s : EventLoop) (t : LoopTurn) : List TableEvent :=
  match s.out, s.events with
  | some client, _ => s.outputEvents client t
  | none, [] => []
  | none, event :: _ =>
      match event.ptr with
      | none => s.connectEvents t.accepted
      | some client => if Has event.events epollin then s.inputEvents client t else []

/-- Only turns change the array. -/
def tableEvents : Option EventLoop → LoopLabel → List TableEvent
  | some s, .turn t => s.turnEvents t
  | _, _ => []

section Projection

variable {s t : EventLoop} {client : Nat} {c d : LoopClient}

theorem table_setClient (s : EventLoop) (client : Nat) (c : Option LoopClient) :
    (s.setClient client c).table = s.table.setClient client (c.map LoopClient.type) := by
  simp only [ReplicaTable.setClient, table, setClient, ReplicaTable.mk.injEq, and_true]
  funext other
  by_cases hSame : other = client
  · subst hSame
    simp
  · rw [Function.update_of_ne hSame, Function.update_of_ne hSame]

theorem table_setClient_same (hc : s.clients client = some c) (hType : d.type = c.type) :
    (s.setClient client (some d)).table = s.table := by
  have hThere : s.table.clients client = (some d).map LoopClient.type := by
    simp [table, hc, hType]
  rw [table_setClient, ← hThere, ReplicaTable.setClient, Function.update_eq_self]

theorem table_of_monitor {change : BitVec 32 → BitVec 32} (h : s.monitor client change = some t) :
    t.table = s.table := by
  obtain ⟨c, hc, h⟩ := Option.bind_eq_some_iff.mp h
  obtain ⟨mask, -, h⟩ := Option.bind_eq_some_iff.mp h
  cases h
  exact table_setClient_same (d := { c with epollEvents := change c.epollEvents }) hc rfl

theorem table_of_setReplClientState {state : ReplicaClientState}
    (h : s.setReplClientState client state = some t) : t.table = s.table := by
  obtain ⟨c, hc, h⟩ := Option.bind_eq_some_iff.mp h
  cases h
  exact table_setClient_same (d := { c with replClientState := state }) hc rfl

theorem table_of_setMasterReplState {state : MasterReplicaState}
    (h : s.setMasterReplState client state = some t) : t.table = s.table := by
  obtain ⟨c, hc, h⟩ := Option.bind_eq_some_iff.mp h
  cases h
  exact table_setClient_same (d := { c with masterReplState := state }) hc rfl

theorem table_of_addReplica (h : s.addReplica client = some t) :
    s.table.addReplica client = some t.table := by
  obtain ⟨c, hc, h⟩ := Option.bind_eq_some_iff.mp h
  unfold ReplicaTable.addReplica
  split at h
  · rename_i hRoom
    cases h
    have hSame := table_setClient s client (some { c with type := .replica })
    refine (if_pos hRoom).trans (congrArg some ?_)
    exact congrArg (fun t : ReplicaTable => { t with replicas := s.replicas ++ [client] }) hSame.symm
  · cases h

theorem table_of_disconnection (h : s.handleClientDisconnection client = some t) :
    s.table.clients client ≠ none ∧ s.table.handleClientDisconnection client = some t.table := by
  obtain ⟨c, hc, h⟩ := Option.bind_eq_some_iff.mp h
  have hType : s.table.clients client = some c.type := by simp [table, hc]
  have hFreed (replicas : List Nat) :
      (ReplicaTable.mk s.table.clients replicas).setClient client none =
        (setClient { s with
          interest := Function.update s.interest client none
          replicas := replicas } client none).table := by
    rw [table_setClient]
    rfl
  refine ⟨by rw [hType]; simp, ?_⟩
  unfold ReplicaTable.handleClientDisconnection
  rw [hType]
  dsimp only at h
  split at h
  · rename_i hReplica
    obtain ⟨m, hm, h⟩ := Option.bind_eq_some_iff.mp h
    cases h
    unfold removeReplica at hm
    split at hm
    · rename_i hMem
      cases hm
      rw [if_pos (congrArg some hReplica), ReplicaTable.removeReplica,
        if_pos (show client ∈ s.table.replicas from hMem), Option.bind_eq_bind, Option.bind_some]
      exact congrArg some (hFreed _)
    · cases hm
  · rename_i hOther
    cases h
    rw [if_neg (by simpa using hOther), Option.bind_eq_bind, Option.bind_some]
    exact congrArg some (hFreed s.replicas)

theorem table_of_handlePsync {args : List Bytes} {partialResync : Bool}
    (h : s.handlePsync client args partialResync = some t) :
    ReplicaTable.handlePsync client s.table args = some t.table := by
  unfold handlePsync at h
  unfold ReplicaTable.handlePsync
  split at h
  · rename_i hArgs
    cases h
    exact if_pos hArgs
  · rename_i hArgs
    obtain ⟨m, hm, h⟩ := Option.bind_eq_some_iff.mp h
    obtain ⟨c, hc, h⟩ := Option.bind_eq_some_iff.mp h
    have hSame := table_of_monitor h
    rw [table_setClient_same hc (by rfl)] at hSame
    rw [if_neg hArgs, table_of_addReplica hm, hSame]

theorem table_of_runCommands {commands : List LoopCommand}
    (h : commands.foldlM (fun s command => s.runCommand client command) s = some t) :
    (psyncsOf commands).foldlM (ReplicaTable.handlePsync client) s.table = some t.table := by
  induction commands generalizing s with
  | nil =>
      cases h
      rfl
  | cons command commands ih =>
      rw [List.foldlM_cons] at h
      obtain ⟨m, hm, h⟩ := Option.bind_eq_some_iff.mp h
      have hRest := ih h
      cases command with
      | psync args partialResync =>
          have hHead := table_of_handlePsync hm
          change (args :: psyncsOf commands).foldlM (ReplicaTable.handlePsync client) s.table = _
          rw [List.foldlM_cons, hHead]
          exact hRest
      | simpleString buf bufUsed bufSize =>
          obtain ⟨c, hc, hm⟩ := Option.bind_eq_some_iff.mp hm
          cases hm
          rw [table_setClient_same hc (by rfl)] at hRest
          exact hRest

theorem table_of_propagateTo {room : Nat → Bool} {replicas : List Nat}
    (h : propagateTo room replicas s = some t) : t.table = s.table := by
  induction replicas generalizing s with
  | nil =>
      cases h
      rfl
  | cons replica rest ih =>
      obtain ⟨c, -, h⟩ := Option.bind_eq_some_iff.mp h
      split at h
      · obtain ⟨m, hm, h⟩ := Option.bind_eq_some_iff.mp h
        exact (ih h).trans (table_of_monitor hm)
      · cases h

theorem table_of_propagate {propagated : Option (Nat → Bool)}
    (h : s.propagate propagated = some t) : t.table = s.table := by
  cases propagated with
  | none =>
      cases h
      rfl
  | some room => exact table_of_propagateTo h

/-- A reading is an input, after which the client is disconnected if it has closed. -/
theorem table_of_processClientInput {reading : Reading}
    (h : processClientInput client reading s = some t) :
    ∃ m, reading.psyncs.foldlM (ReplicaTable.handlePsync client) s.table = some m ∧
      if reading.Closes then
        m.clients client ≠ none ∧ m.handleClientDisconnection client = some t.table
      else m = t.table := by
  induction reading generalizing s with
  | returns =>
      cases h
      exact ⟨_, rfl, (if_neg id).mpr rfl⟩
  | closes => exact ⟨s.table, rfl, (if_pos trivial).mpr (table_of_disconnection h)⟩
  | reads commands propagated next ih =>
      obtain ⟨m, hm, h⟩ := Option.bind_eq_some_iff.mp h
      obtain ⟨u, hu, h⟩ := Option.bind_eq_some_iff.mp h
      obtain ⟨last, hLast, hEnd⟩ := ih h
      refine ⟨last, ?_, hEnd⟩
      rw [Reading.psyncs, List.foldlM_append, table_of_runCommands hm, ← table_of_propagate hu]
      exact hLast

theorem table_of_replicaReceiveRdbSnapshot {turn : LoopTurn}
    (h : s.replicaReceiveRdbSnapshot client turn = some t) : t.table = s.table := by
  unfold replicaReceiveRdbSnapshot at h
  split at h
  · obtain ⟨m, hm, h⟩ := Option.bind_eq_some_iff.mp h
    exact (table_of_monitor h).trans (table_of_setReplClientState hm)
  · cases h
    rfl

/-- The link to the master is read from where it expects input, and elsewhere nothing of
this changes. -/
theorem table_of_replicaHandleMasterData {turn : LoopTurn} (hc : s.clients client = some c)
    (h : s.replicaHandleMasterData client turn = some t) :
    if c.ExpectsInput then processClientInput client turn.reading s = some t
    else t.table = s.table := by
  unfold replicaHandleMasterData at h
  rw [hc, Option.bind_eq_bind, Option.bind_some] at h
  have hStay {P : Prop} (hNot : ¬c.ExpectsInput) (hSame : t.table = s.table) :
      if c.ExpectsInput then P else t.table = s.table := by
    rw [if_neg hNot]
    exact hSame
  cases hState : c.replClientState with
  | none | error =>
      rw [hState] at h
      cases h
      exact hStay (by simp [LoopClient.ExpectsInput, hState]) rfl
  | connecting | receivedPong | receivedReplconfPortOk | receivedReplconfCapaOk =>
      rw [hState] at h
      exact hStay (by simp [LoopClient.ExpectsInput, hState]) (table_of_setReplClientState h)
  | receivedFullresyncResponse =>
      rw [hState] at h
      refine hStay (by simp [LoopClient.ExpectsInput, hState]) ?_
      dsimp only at h
      split at h
      · obtain ⟨m, hm, h⟩ := Option.bind_eq_some_iff.mp h
        exact (table_of_replicaReceiveRdbSnapshot h).trans (table_of_setReplClientState hm)
      · cases h
        rfl
  | receivingRdbData =>
      rw [hState] at h
      exact hStay (by simp [LoopClient.ExpectsInput, hState]) (table_of_replicaReceiveRdbSnapshot h)
  | sentPing | sentReplconfPort | sentReplconfCapa | sentPsync | ready =>
      rw [hState] at h
      rw [if_pos (by simp [LoopClient.ExpectsInput, hState])]
      exact h

/-- A replica that is refused is disconnected, and otherwise nothing of this changes. -/
theorem table_of_masterHandleReplicaOut {turn : LoopTurn} (hc : s.clients client = some c)
    (h : s.masterHandleReplicaOut client turn = some t) :
    if Refuses c turn.psync then s.handleClientDisconnection client = some t
    else t.table = s.table := by
  unfold masterHandleReplicaOut at h
  rw [hc, Option.bind_eq_bind, Option.bind_some] at h
  cases hState : c.masterReplState with
  | propagate =>
      rw [hState] at h
      cases h
      rw [if_neg (by simp [Refuses, hState])]
  | sendingRdbData =>
      rw [hState] at h
      rw [if_neg (by simp [Refuses, hState])]
      dsimp only at h
      split at h
      · obtain ⟨m, hm, h⟩ := Option.bind_eq_some_iff.mp h
        exact (table_of_setMasterReplState h).trans (table_of_monitor hm)
      · cases h
        rfl
  | psync =>
      rw [hState] at h
      dsimp only at h
      cases hChoice : turn.psync with
      | caughtUp =>
          rw [hChoice] at h
          rw [if_neg (by simp [Refuses])]
          obtain ⟨m, hm, h⟩ := Option.bind_eq_some_iff.mp h
          exact (table_of_monitor h).trans (table_of_setMasterReplState hm)
      | ahead =>
          rw [hChoice] at h
          rw [if_pos ⟨hState, Or.inl rfl⟩]
          exact h
      | outside =>
          rw [hChoice] at h
          rw [if_pos ⟨hState, Or.inr rfl⟩]
          exact h
      | nothing =>
          rw [hChoice] at h
          cases h
          rw [if_neg (by simp [Refuses])]
      | copies relativeOffset bytesToSend =>
          rw [hChoice] at h
          cases h

end Projection

/-- What a turn that stands for these events can do to the array and the types: nothing, a
connection, an input after which the client may be disconnected, or that `continue_psync`
disconnects the replica that is ready for output. -/
inductive TurnEffect (s : EventLoop) (turn : LoopTurn) (next : ReplicaTable) :
    List TableEvent → Prop where
  | nothing (h : next = s.table) : TurnEffect s turn next []
  | connects (client : Nat) (hFresh : s.table.clients client = none)
      (h : next = s.table.setClient client (some .regular)) :
      TurnEffect s turn next [.connect client]
  | input (client : Nat) (middle : ReplicaTable) (hReads : s.table.Reads client)
      (hInput : turn.reading.psyncs.foldlM (ReplicaTable.handlePsync client) s.table = some middle)
      (h : if turn.reading.Closes then
          middle.clients client ≠ none ∧ middle.handleClientDisconnection client = some next
        else middle = next) :
      TurnEffect s turn next (turn.reading.events client)
  | refuses (client : Nat) (c : LoopClient) (hOut : s.out = some client)
      (hc : s.clients client = some c) (hType : c.type = .replica) (hRefuses : Refuses c turn.psync)
      (hThere : s.table.clients client ≠ none)
      (h : s.table.handleClientDisconnection client = some next) :
      TurnEffect s turn next [.disconnect client]

section Effects

variable {s t : EventLoop} {client : Nat} {c : LoopClient} {turn : LoopTurn}

/-- The rest of the batch plays no part. -/
theorem TurnEffect.of_table {m : EventLoop} {next : ReplicaTable} {events : List TableEvent}
    (h : TurnEffect m turn next events) (hTable : m.table = s.table) (hOut : m.out = none) :
    TurnEffect s turn next events := by
  cases h with
  | nothing h => exact .nothing (h.trans hTable)
  | connects client hFresh h => exact .connects client (hTable ▸ hFresh) (hTable ▸ h)
  | input client middle hReads hInput h =>
      exact .input client middle (hTable ▸ hReads) (hTable ▸ hInput) h
  | refuses client c hSome => cases hOut.symm.trans hSome

theorem turnEffect_of_reading (hReads : s.table.Reads client)
    (h : processClientInput client turn.reading s = some t) :
    TurnEffect s turn t.table (turn.reading.events client) := by
  obtain ⟨middle, hInput, hEnd⟩ := table_of_processClientInput h
  exact .input client middle hReads hInput hEnd

theorem turnEffect_of_masterData (hc : s.clients client = some c) (hType : c.type = .master)
    (h : s.replicaHandleMasterData client turn = some t) :
    TurnEffect s turn t.table (if c.ExpectsInput then turn.reading.events client else []) := by
  have hCases := table_of_replicaHandleMasterData hc h
  split at hCases
  · rename_i hExpects
    rw [if_pos hExpects]
    exact turnEffect_of_reading (Or.inr (by simp [table, hc, hType])) hCases
  · rename_i hNot
    rw [if_neg hNot]
    exact .nothing hCases

theorem turnEffect_of_handleInput (h : s.handleInput client turn = some t) :
    TurnEffect s turn t.table (s.inputEvents client turn) := by
  obtain ⟨c, hc, h⟩ := Option.bind_eq_some_iff.mp h
  unfold inputEvents
  rw [hc]
  dsimp only
  cases hType : c.type with
  | regular =>
      rw [hType] at h
      rw [if_pos (show Reads c from Or.inl hType)]
      exact turnEffect_of_reading (Or.inl (by simp [table, hc, hType])) h
  | master =>
      rw [hType] at h
      have hReads : Reads c ↔ c.ExpectsInput := by simp [Reads, hType]
      simp only [hReads]
      exact turnEffect_of_masterData hc hType h
  | replica =>
      rw [hType] at h
      cases h
      rw [if_neg (by simp [Reads, hType])]
      exact .nothing rfl

theorem turnEffect_of_connect (h : s.connect turn.accepted = some t) :
    TurnEffect s turn t.table (s.connectEvents turn.accepted) := by
  obtain ⟨⟨client, garbage⟩, hAccepted, h⟩ := Option.bind_eq_some_iff.mp h
  rw [hAccepted]
  unfold connectEvents
  dsimp only at h ⊢
  cases hEntry : s.clients client with
  | some c =>
      rw [hEntry] at h
      cases h
      exact .nothing rfl
  | none =>
      rw [hEntry] at h
      refine .connects client (by simp [table, hEntry]) ?_
      rw [table_of_monitor h]
      exact table_setClient s client _

/-- A replica is refused only by the handler for its own output. -/
theorem turnEffect_of_handleOutput (hOut : s.out = some client)
    (h : handleOutput { s with out := none } client turn = some t) :
    TurnEffect s turn t.table (s.outputEvents client turn) := by
  obtain ⟨c, hc, h⟩ := Option.bind_eq_some_iff.mp h
  have hHere : s.clients client = some c := hc
  unfold outputEvents
  rw [hHere]
  dsimp only
  cases hType : c.type with
  | regular =>
      rw [hType] at h
      cases h
      exact .nothing rfl
  | master =>
      rw [hType] at h
      simp only [reduceCtorEq, false_and, if_false, true_and]
      exact (turnEffect_of_masterData hc hType h).of_table rfl rfl
  | replica =>
      rw [hType] at h
      have hCases := table_of_masterHandleReplicaOut hc h
      simp only [reduceCtorEq, false_and, if_false, true_and]
      split at hCases
      · rename_i hRefuses
        obtain ⟨hThere, hNext⟩ := table_of_disconnection hCases
        rw [if_pos hRefuses]
        exact .refuses client c hOut hHere hType hRefuses hThere hNext
      · rename_i hNot
        rw [if_neg hNot]
        exact .nothing hCases

theorem turnEffect_of_turn (h : s.turn turn = some t) :
    TurnEffect s turn t.table (s.turnEvents turn) := by
  unfold EventLoop.turn at h
  unfold turnEvents
  cases hOut : s.out with
  | some client =>
      simp only [hOut] at h
      exact turnEffect_of_handleOutput hOut h
  | none =>
      cases hEvents : s.events with
      | nil =>
          simp only [hOut, hEvents] at h
          cases h
          exact .nothing rfl
      | cons event rest =>
          simp only [hOut, hEvents] at h
          dsimp only
          cases hPtr : event.ptr with
          | none =>
              simp only [hPtr] at h
              exact (turnEffect_of_connect h).of_table rfl rfl
          | some client =>
              simp only [hPtr, if_pos (first_test_ne_zero event.events)] at h
              have hTable {m : EventLoop} (hEnd : some (if Has event.events epollout then
                  { m with out := some client } else m) = some t) : t.table = m.table := by
                cases hEnd
                split <;> rfl
              dsimp only
              split at h
              · rename_i hIn
                obtain ⟨m, hm, h⟩ := Option.bind_eq_some_iff.mp h
                rw [hTable h, if_pos hIn]
                exact (turnEffect_of_handleInput hm).of_table rfl rfl
              · rename_i hNot
                rw [Option.bind_eq_bind, Option.bind_some] at h
                rw [if_neg hNot]
                exact .nothing (hTable (m := { s with events := rest, out := none }) h)

end Effects

section Runs

variable {s t : EventLoop}

/-- One turn, in the model of the array. -/
theorem TurnEffect.run_eq {turn : LoopTurn} {next : ReplicaTable} {events : List TableEvent}
    (h : TurnEffect s turn next events) :
    (run ReplicaTable.step (some s.table) events).1 = some next := by
  cases h with
  | nothing h => exact congrArg some h.symm
  | connects client hFresh h =>
      rw [h]
      exact congrArg some (if_pos hFresh)
  | input client middle hReads hInput h =>
      have hFirst : (ReplicaTable.step (some s.table) (.input client turn.reading.psyncs)).1 =
          some middle := (if_pos hReads).trans hInput
      unfold Reading.events
      rw [run, hFirst]
      split at h
      · rename_i hCloses
        rw [if_pos hCloses]
        exact (if_pos h.1).trans h.2
      · rename_i hOpen
        rw [if_neg hOpen]
        exact congrArg some h
  | refuses client c hOut hc hType hRefuses hThere h => exact (if_pos hThere).trans h

theorem table_start (link : Option (Nat × MasterReplicaState)) :
    (start link).table = ReplicaTable.start (link.map Prod.fst) := by
  unfold table ReplicaTable.start start
  simp only [ReplicaTable.mk.injEq, and_true]
  funext client
  cases link with
  | none => rfl
  | some new =>
      by_cases hSame : client = new.1
      · simp [hSame]
      · have hOther : new.1 ≠ client := fun h => hSame h.symm
        simp [hSame, hOther]

theorem table_of_wait (s : EventLoop) (events : List ReadyEvent) :
    ∃ t, (step (some s) (.wait events)).1 = some t ∧ t.table = s.table := by
  unfold step
  dsimp only
  split
  · exact ⟨_, rfl, rfl⟩
  · exact ⟨_, rfl, rfl⟩

theorem table_of_sigpipe (h : (step (some s) .sigpipe).1 = some t) : t = s := by
  unfold step at h
  dsimp only at h
  split at h
  · exact (Option.some.inj h).symm
  · cases h

/-- A run of the event loop is a run of the array alone. Its labels stand for events of the
array, label by label, and these lead to the array and the types of the clients that the
loop has at its end. -/
theorem event_loop_refines_table (link : Option (Nat × MasterReplicaState))
    (labels : List LoopLabel) (h : (run step (some (start link)) labels).1 = some t) :
    (run ReplicaTable.step (some (ReplicaTable.start (link.map Prod.fst)))
      (translate step tableEvents (some (start link)) labels)).1 = some t.table := by
  rw [← table_start]
  refine run_translate (fun s => some s.table) (fun _ => rfl) ?_ h
  intro s label t hNext
  cases label with
  | wait events =>
      obtain ⟨m, hm, hTable⟩ := table_of_wait s events
      cases hm.symm.trans hNext
      exact congrArg some hTable.symm
  | turn turn => exact (turnEffect_of_turn hNext).run_eq
  | sigpipe =>
      rw [table_of_sigpipe hNext]
      rfl

/-- An input whose client is disconnected has no entries left of those it had made. -/
theorem replicas_of_input {first middle next : ReplicaTable} {client : Nat}
    {psyncs : List (List Bytes)} (hReads : first.Reads client)
    (hInput : psyncs.foldlM (ReplicaTable.handlePsync client) first = some middle)
    (h : middle.handleClientDisconnection client = some next) :
    first.replicas <+: next.replicas := by
  have hEntries := ReplicaTable.replicas_of_foldlM hInput
  unfold ReplicaTable.handleClientDisconnection at h
  split at h
  · rename_i hReplica
    obtain ⟨last, hLast, hNext⟩ := Option.bind_eq_some_iff.mp h
    cases hNext
    rw [ReplicaTable.setClient_replicas]
    cases hCount : ReplicaTable.attaches psyncs with
    | zero =>
        rw [ReplicaTable.foldlM_handlePsync_zero first hCount] at hInput
        cases hInput
        rcases hReads with hRegular | hMaster
        · cases hRegular.symm.trans hReplica
        · cases hMaster.symm.trans hReplica
    | succ n =>
        rw [hCount, List.replicate_succ', ← List.append_assoc] at hEntries
        unfold ReplicaTable.removeReplica at hLast
        split at hLast
        · cases hLast
          dsimp only
          rw [hEntries, swapRemove_concat]
          exact List.prefix_append ..
        · cases hLast
  · cases h
    rw [ReplicaTable.setClient_replicas, hEntries]
    exact List.prefix_append ..

/-- Only `continue_psync` takes entries out of the array. -/
theorem TurnEffect.keeps {turn : LoopTurn} {next : ReplicaTable} {events : List TableEvent}
    (h : TurnEffect s turn next events)
    (hPatient : ∀ client c, s.out = some client → s.clients client = some c → c.type = .replica →
      ¬Refuses c turn.psync) : s.replicas <+: next.replicas := by
  cases h with
  | nothing h =>
      rw [h]
      exact List.prefix_rfl
  | connects client hFresh h =>
      rw [h]
      exact List.prefix_rfl
  | input client middle hReads hInput h =>
      split at h
      · exact replicas_of_input hReads hInput h.2
      · rw [← h, ReplicaTable.replicas_of_foldlM hInput]
        exact List.prefix_append ..
  | refuses client c hOut hc hType hRefuses =>
      exact absurd hRefuses (hPatient client c hOut hc hType)

/-- The replica that is ready for output is not found ahead of the master or outside the
backlog. -/
def Patient : Option EventLoop → LoopLabel → Prop
  | some s, .turn turn => ∀ client c, s.out = some client → s.clients client = some c →
      c.type = .replica → ¬Refuses c turn.psync
  | _, _ => True

/-- An entry of the array is for ever, except for replicas that `continue_psync` refuses:
no end of a stream, hangup or error that is reported makes room in the array. -/
theorem replicas_never_leave (labels : List LoopLabel)
    (hPatient : AllSteps step Patient (some s) labels)
    (h : (run step (some s) labels).1 = some t) : s.replicas <+: t.replicas := by
  refine run_relates (R := fun s t => s.replicas <+: t.replicas) (fun _ => rfl)
    (fun s => List.prefix_rfl) (fun _ _ _ => List.IsPrefix.trans) ?_ hPatient h
  intro s label t hLabel hNext
  cases label with
  | wait events =>
      obtain ⟨m, hm, hTable⟩ := table_of_wait s events
      cases hm.symm.trans hNext
      have hSame : t.replicas = s.replicas := congrArg ReplicaTable.replicas hTable
      rw [hSame]
  | turn turn => exact (turnEffect_of_turn hNext).keeps hLabel
  | sigpipe =>
      rw [table_of_sigpipe hNext]

/-- A handler that meets nothing. -/
def idleTurn : LoopTurn := ⟨.returns, false, false, false, .nothing, none⟩

/-- A client connects and asks for a full resynchronisation. -/
def oneAttaches : List LoopLabel :=
  [.wait [⟨none, epollin⟩],
    .turn { idleTurn with accepted := some (1, ⟨.regular, 0, .propagate, .none⟩) },
    .wait [⟨some 1, epollin⟩],
    .turn { idleTurn with
      reading := .reads [.psync [text "PSYNC", text "?", text "-1"] false] none .returns }]

theorem event_loop_refines_attach : ∃ t,
    (run step (some (start none)) oneAttaches).1 = some t ∧
      translate step tableEvents (some (start none)) oneAttaches =
        [.connect 1, .input 1 [[text "PSYNC", text "?", text "-1"]]] ∧
      (run ReplicaTable.step (some (ReplicaTable.start none))
        (translate step tableEvents (some (start none)) oneAttaches)).1 = some t.table := by
  have hSome : (run step (some (start none)) oneAttaches).1.isSome = true := by decide +kernel
  obtain ⟨t, ht⟩ := Option.isSome_iff_exists.mp hSome
  exact ⟨t, ht, by decide +kernel, event_loop_refines_table none oneAttaches ht⟩

/-- The replica hangs up. -/
def oneHangsUp : List LoopLabel :=
  [.wait [⟨some 1, epollin ||| epollout ||| epollhup⟩], .turn idleTurn, .turn idleTurn]

theorem replicas_never_leave_hangup : ∃ s t,
    (run step (some (start none)) oneAttaches).1 = some s ∧ s.replicas = [1] ∧
      (run step (some s) oneHangsUp).1 = some t ∧ s.replicas <+: t.replicas := by
  have hAttached : (run step (some (start none)) oneAttaches).1.map (·.replicas) = some [1] := by
    decide +kernel
  have hEnd :
      (run step (run step (some (start none)) oneAttaches).1 oneHangsUp).1.isSome = true := by
    decide +kernel
  have hPatient :
      AllSteps step Patient (run step (some (start none)) oneAttaches).1 oneHangsUp := by
    have hIdle (p : Option EventLoop) : Patient p (.turn idleTurn) := by
      cases p with
      | none => trivial
      | some s => simp [Patient, Refuses, idleTurn]
    refine ⟨?_, hIdle _, hIdle _, trivial⟩
    cases (run step (some (start none)) oneAttaches).1 <;> trivial
  generalize (run step (some (start none)) oneAttaches).1 = p at hAttached hEnd hPatient
  obtain ⟨s, rfl, hReplicas⟩ := Option.map_eq_some_iff.mp hAttached
  obtain ⟨t, ht⟩ := Option.isSome_iff_exists.mp hEnd
  exact ⟨s, t, rfl, hReplicas, ht, replicas_never_leave oneHangsUp hPatient ht⟩

end Runs

end EventLoop

end RedisServer
