import RedisServer.Events.EventLoop

/-! The handlers of the event loop, one client at a time. Each of them keeps the
allocated clients and their registrations in agreement, under a condition on what it
meets, and reaches into no other client than by monitoring a replica for output. -/
namespace RedisServer

open Machine

/-- How often a read attaches its client. -/
def attachments (commands : List LoopCommand) : Nat :=
  commands.countP fun
    | .psync args _ => 3 ≤ args.length
    | .simpleString .. => false

namespace Reading

/-- The end of the stream is found. -/
def Closes : Reading → Prop
  | .returns => False
  | .closes => True
  | .reads _ _ next => next.Closes

instance : ∀ reading : Reading, Decidable reading.Closes
  | .returns => isFalse id
  | .closes => isTrue trivial
  | .reads _ _ next =>
      have := instDecidableCloses next
      inferInstanceAs (Decidable next.Closes)

/-- The condition on what a client sends, with the array as it is before: the array
takes its entries, each replica has room for what is propagated, and a client that
closes has at most one entry. -/
def Fits (client : Nat) : List Nat → Reading → Prop
  | _, .returns => True
  | replicas, .closes => replicas.count client ≤ 1
  | replicas, .reads commands propagated next =>
      (replicas ++ List.replicate (attachments commands) client).length ≤ maxReplicas ∧
        (∀ room ∈ propagated, ∀ replica ∈ replicas ++ List.replicate (attachments commands) client,
          room replica = true) ∧
        Fits client (replicas ++ List.replicate (attachments commands) client) next

end Reading

/-- What a client is monitored for. A regular one is never monitored for output; a
replica is as long as its resynchronisation goes on; the link to the master always is,
and for input from when it is ready. -/
def LoopClient.Monitored (c : LoopClient) : Prop :=
  match c.type with
  | .regular => Has c.epollEvents epollin ∧ ¬Has c.epollEvents epollout
  | .replica => c.masterReplState ≠ .propagate → Has c.epollEvents epollout
  | .master => Has c.epollEvents epollout ∧
      (c.replClientState = .ready → Has c.epollEvents epollin) ∧
      (Has c.epollEvents epollin → c.replClientState = .ready ∨ c.replClientState = .error)

namespace EventLoop

/-- Every allocated client is registered for what it says, and is monitored for what it
needs. The entries of the array are the replicas. -/
structure Sound (s : EventLoop) : Prop where
  interest : ∀ client, s.interest client = (s.clients client).map LoopClient.epollEvents
  monitored : ∀ client c, s.clients client = some c → c.Monitored
  few : s.replicas.length ≤ maxReplicas
  entries : ∀ client, client ∈ s.replicas ↔ ∃ c, s.clients client = some c ∧ c.type = .replica

/-- A handler of one client leaves the others allocated, and monitored for at least what
they were monitored for. -/
structure Spares (client : Nat) (s t : EventLoop) : Prop where
  events : t.events = s.events
  out : t.out = s.out
  others : ∀ other, other ≠ client → ∀ c, s.clients other = some c →
    ∃ d, t.clients other = some d ∧ Reports d.epollEvents c.epollEvents

/-- A client and its registration. -/
def put (s : EventLoop) (client : Nat) (d : LoopClient) : EventLoop :=
  { s with
    clients := Function.update s.clients client (some d)
    interest := Function.update s.interest client (some d.epollEvents) }

section Put

variable {s t u : EventLoop} {client other : Nat} {c d e : LoopClient}

theorem Reports.refl (mask : BitVec 32) : Reports mask mask := ⟨id, id⟩

theorem Reports.trans {mask middle events : BitVec 32} (h : Reports mask middle)
    (h' : Reports middle events) : Reports mask events :=
  ⟨fun hIn => h.1 (h'.1 hIn), fun hOut => h.2 (h'.2 hOut)⟩

theorem Spares.refl (client : Nat) (s : EventLoop) : Spares client s s :=
  ⟨rfl, rfl, fun _ _ c hc => ⟨c, hc, .refl _⟩⟩

theorem Spares.trans (h : Spares client s t) (h' : Spares client t u) : Spares client s u := by
  refine ⟨h'.events.trans h.events, h'.out.trans h.out, fun other hOther c hc => ?_⟩
  obtain ⟨d, hd, hReports⟩ := h.others other hOther c hc
  obtain ⟨e, he, hReports'⟩ := h'.others other hOther d hd
  exact ⟨e, he, hReports'.trans hReports⟩

@[simp] theorem put_clients_self : (s.put client d).clients client = some d :=
  Function.update_self ..

@[simp] theorem put_interest_self : (s.put client d).interest client = some d.epollEvents :=
  Function.update_self ..

@[simp] theorem put_replicas : (s.put client d).replicas = s.replicas := rfl

@[simp] theorem put_put : (s.put client d).put client e = s.put client e := by
  simp [put]

theorem spares_put (client : Nat) (s : EventLoop) (d : LoopClient) :
    Spares client s (s.put client d) := by
  refine ⟨rfl, rfl, fun other hOther c hc => ⟨c, ?_, .refl _⟩⟩
  exact (Function.update_of_ne hOther ..).trans hc

theorem setClient_eq_put (h : s.interest client = some d.epollEvents) :
    s.setClient client (some d) = s.put client d := by
  have hSame : Function.update s.interest client (some d.epollEvents) = s.interest :=
    Function.update_eq_self_iff.mpr h.symm
  unfold setClient put
  rw [hSame]

theorem monitor_eq (hc : s.clients client = some c) (hRegistered : s.interest client ≠ none)
    (change : BitVec 32 → BitVec 32) :
    s.monitor client change =
      some (s.put client { c with epollEvents := change c.epollEvents }) := by
  obtain ⟨mask, hMask⟩ := Option.ne_none_iff_exists'.mp hRegistered
  unfold monitor
  simp only [hc, hMask, Option.bind_eq_bind, Option.bind_some]
  rfl

theorem Sound.registered (h : s.Sound) (hc : s.clients client = some c) :
    s.interest client = some c.epollEvents := by
  rw [h.interest, hc]
  rfl

theorem Sound.setReplClientState (h : s.Sound) (hc : s.clients client = some c)
    (state : ReplicaClientState) :
    s.setReplClientState client state =
      some (s.put client { c with replClientState := state }) := by
  unfold EventLoop.setReplClientState
  have hMask := h.registered hc
  rw [hc]
  exact congrArg some (setClient_eq_put hMask)

theorem Sound.setMasterReplState (h : s.Sound) (hc : s.clients client = some c)
    (state : MasterReplicaState) :
    s.setMasterReplState client state =
      some (s.put client { c with masterReplState := state }) := by
  unfold EventLoop.setMasterReplState
  have hMask := h.registered hc
  rw [hc]
  exact congrArg some (setClient_eq_put hMask)

/-- A client that has an entry exactly if it is a replica. -/
theorem Sound.put_of_entry (h : s.Sound) (hType : d.type = .replica ↔ client ∈ s.replicas)
    (hd : d.Monitored) : (s.put client d).Sound := by
  refine ⟨fun other => ?_, fun other e he => ?_, h.few, fun other => ?_⟩
  all_goals by_cases hSame : other = client
  · subst hSame
    simp
  · simp only [EventLoop.put, Function.update_of_ne hSame]
    exact h.interest other
  · subst hSame
    rw [put_clients_self] at he
    cases he
    exact hd
  · simp only [EventLoop.put, Function.update_of_ne hSame] at he
    exact h.monitored other e he
  · subst hSame
    rw [put_replicas, put_clients_self]
    simp [hType]
  · rw [put_replicas, h.entries]
    simp only [EventLoop.put, Function.update_of_ne hSame]

/-- A change of a client that stays what it is. -/
theorem Sound.put (h : s.Sound) (hc : s.clients client = some c)
    (hType : d.type = .replica ↔ c.type = .replica) (hd : d.Monitored) :
    (s.put client d).Sound := by
  refine h.put_of_entry ?_ hd
  rw [h.entries, hc]
  simp [hType]

end Put

section Handlers

variable {s t : EventLoop} {client : Nat} {c d : LoopClient}

/-- A client gets one more entry. -/
theorem Sound.attach (h : s.Sound) (hRoom : s.replicas.length < maxReplicas)
    (hType : d.type = .replica) (hd : d.Monitored) :
    ({ s with replicas := s.replicas ++ [client] }.put client d).Sound := by
  refine ⟨fun other => ?_, fun other e he => ?_, ?_, fun other => ?_⟩
  · by_cases hSame : other = client
    · subst hSame
      simp
    · simp only [EventLoop.put, Function.update_of_ne hSame]
      exact h.interest other
  · by_cases hSame : other = client
    · subst hSame
      rw [put_clients_self] at he
      cases he
      exact hd
    · simp only [EventLoop.put, Function.update_of_ne hSame] at he
      exact h.monitored other e he
  · rw [put_replicas, List.length_append]
    exact hRoom
  · rw [put_replicas, List.mem_append, List.mem_singleton]
    by_cases hSame : other = client
    · subst hSame
      simp [hType]
    · simp only [EventLoop.put, Function.update_of_ne hSame, hSame, or_false]
      exact h.entries other

theorem Sound.handlePsync (h : s.Sound) (hc : s.clients client = some c) {args : List Bytes}
    (hArgs : ¬args.length < 3) (partialResync : Bool) :
    s.handlePsync client args partialResync =
      if s.replicas.length < maxReplicas then
        some ({ s with replicas := s.replicas ++ [client] }.put client
          { c with
            type := .replica
            masterReplState := if partialResync then .psync else .sendingRdbData
            epollEvents := c.epollEvents ||| epollout })
      else none := by
  have hMask := h.registered hc
  unfold EventLoop.handlePsync addReplica
  simp only [if_neg hArgs, hc, Option.bind_eq_bind, Option.bind_some]
  split
  · rw [Option.bind_some]
    simp only [setClient, Function.update_self, Option.bind_some, Function.update_idem,
      clientEnableWriteEvents]
    rw [monitor_eq (Function.update_self ..) (by rw [hMask]; simp)]
    simp [EventLoop.put]
  · rfl

/-- A client is freed with the array as it then is. -/
theorem Sound.forget_iff (h : s.Sound) {replicas : List Nat}
    (hOthers : ∀ other, other ≠ client → (other ∈ replicas ↔ other ∈ s.replicas))
    (hLength : replicas.length ≤ s.replicas.length) :
    Sound { s with
      clients := Function.update s.clients client none
      interest := Function.update s.interest client none
      replicas := replicas } ↔ client ∉ replicas := by
  constructor
  · intro hSound hMem
    obtain ⟨d, hd, -⟩ := (hSound.entries client).mp hMem
    simp at hd
  · intro hNot
    refine ⟨fun other => ?_, fun other d hd => ?_, hLength.trans h.few, fun other => ?_⟩
    all_goals by_cases hSame : other = client
    · subst hSame
      simp
    · simp only [Function.update_of_ne hSame]
      exact h.interest other
    · subst hSame
      simp at hd
    · simp only [Function.update_of_ne hSame] at hd
      exact h.monitored other d hd
    · subst hSame
      simp [hNot]
    · simp only [Function.update_of_ne hSame]
      rw [hOthers other hSame]
      exact h.entries other

/-- A disconnection is right unless the client has more entries than one. -/
theorem Sound.handleClientDisconnection (h : s.Sound) (hc : s.clients client = some c) :
    ∃ t, s.handleClientDisconnection client = some t ∧ Spares client s t ∧
      t.clients client = none ∧ (t.Sound ↔ s.replicas.count client ≤ 1) := by
  have hSpares (replicas : List Nat) : Spares client s { s with
      clients := Function.update s.clients client none
      interest := Function.update s.interest client none
      replicas := replicas } := by
    refine ⟨rfl, rfl, fun other hOther d hd => ⟨d, ?_, .refl _⟩⟩
    exact (Function.update_of_ne hOther ..).trans hd
  unfold EventLoop.handleClientDisconnection
  simp only [hc, Option.bind_eq_bind, Option.bind_some]
  by_cases hType : c.type = .replica
  · have hMem : client ∈ s.replicas := (h.entries client).mpr ⟨c, hc, hType⟩
    have hPerm := swapRemove_perm_erase hMem
    simp only [if_pos hType, removeReplica, if_pos hMem, Option.bind_some]
    refine ⟨_, rfl, hSpares _, Function.update_self .., ?_⟩
    refine (h.forget_iff (fun other hOther => ?_) ?_).trans ?_
    · rw [hPerm.mem_iff, List.mem_erase_of_ne hOther]
    · rw [hPerm.length_eq]
      exact List.length_erase_le ..
    · rw [← List.count_eq_zero, hPerm.count_eq, List.count_erase_self]
      omega
  · have hNot : client ∉ s.replicas := by
      intro hMem
      obtain ⟨d, hd, hReplica⟩ := (h.entries client).mp hMem
      cases hc.symm.trans hd
      exact hType hReplica
    simp only [if_neg hType]
    refine ⟨_, rfl, hSpares _, Function.update_self .., ?_⟩
    refine (h.forget_iff (fun _ _ => Iff.rfl) (Nat.le_refl _)).trans (iff_of_true hNot ?_)
    rw [List.count_eq_zero_of_not_mem hNot]
    exact Nat.zero_le 1

/-- No answer makes the link ready, and none makes a ready link expect another one. -/
theorem endSimpleString_ready (c : LoopClient) (buf : Bytes) (bufUsed bufSize : Nat) :
    ((c.endSimpleString buf bufUsed bufSize).replClientState = .ready →
        c.replClientState = .ready) ∧
      (c.replClientState = .ready ∨ c.replClientState = .error →
        (c.endSimpleString buf bufUsed bufSize).replClientState = .ready ∨
          (c.endSimpleString buf bufUsed bufSize).replClientState = .error) := by
  unfold LoopClient.endSimpleString CommandHandler.endSimpleStringHandler
  dsimp only
  split
  · unfold CommandHandler.handleSimpleStringReply
    dsimp only
    split
    · split
      all_goals
        rename_i hState
        simp only [createCommandHandler] at hState ⊢
      · rw [hState]
        refine ⟨?_, by simp⟩
        split <;> simp
      · rw [hState]
        refine ⟨?_, by simp⟩
        split <;> simp
      · rw [hState]
        refine ⟨?_, by simp⟩
        split <;> simp
      · rw [hState]
        refine ⟨?_, by simp⟩
        split <;> simp
      · exact ⟨id, id⟩
    · exact ⟨id, id⟩
  · exact ⟨fun h => (by cases h), fun _ => Or.inr rfl⟩

theorem monitored_endSimpleString (h : c.Monitored) (buf : Bytes) (bufUsed bufSize : Nat) :
    (c.endSimpleString buf bufUsed bufSize).Monitored := by
  obtain ⟨hReady, hEnd⟩ := endSimpleString_ready c buf bufUsed bufSize
  unfold LoopClient.Monitored at h ⊢
  change match c.type with
    | .regular => _
    | .replica => _
    | .master => _
  cases hType : c.type with
  | regular =>
      rw [hType] at h
      exact h
  | replica =>
      rw [hType] at h
      exact h
  | master =>
      rw [hType] at h
      exact ⟨h.1, fun hNow => h.2.1 (hReady hNow), fun hIn => hEnd (h.2.2 hIn)⟩

end Handlers

section Passes

variable {s t : EventLoop} {client : Nat} {c d : LoopClient}

theorem attachments_cons (command : LoopCommand) (commands : List LoopCommand) :
    attachments (command :: commands) = attachments [command] + attachments commands := by
  unfold attachments
  rw [List.countP_cons, List.countP_singleton, Nat.add_comm]

theorem Sound.runCommand (h : s.Sound) (hc : s.clients client = some c) (command : LoopCommand) :
    (s.replicas.length + attachments [command] ≤ maxReplicas →
      ∃ t d, s.runCommand client command = some t ∧ t.Sound ∧ Spares client s t ∧
        t.clients client = some d ∧
        t.replicas = s.replicas ++ List.replicate (attachments [command]) client) ∧
    (¬s.replicas.length + attachments [command] ≤ maxReplicas →
      s.runCommand client command = none) := by
  have hMonitored := h.monitored client c hc
  have hFew := h.few
  cases command with
  | simpleString buf bufUsed bufSize =>
      have hMask := h.registered hc
      have hNone : attachments [.simpleString buf bufUsed bufSize] = 0 := rfl
      rw [hNone]
      refine ⟨fun _ => ⟨s.put client (c.endSimpleString buf bufUsed bufSize), _, ?_, ?_,
        spares_put .., put_clients_self, by simp⟩, fun hFull => absurd hFew (by simpa using hFull)⟩
      · unfold EventLoop.runCommand
        rw [hc]
        exact congrArg some (setClient_eq_put hMask)
      · exact h.put hc Iff.rfl (monitored_endSimpleString hMonitored buf bufUsed bufSize)
  | psync args partialResync =>
      by_cases hArgs : args.length < 3
      · have hNone : attachments [.psync args partialResync] = 0 := by
          simp [attachments, hArgs]
        rw [hNone]
        refine ⟨fun _ => ⟨s, c, ?_, h, .refl .., hc, by simp⟩,
          fun hFull => absurd hFew (by simpa using hFull)⟩
        exact if_pos hArgs
      · have hOne : attachments [.psync args partialResync] = 1 := by
          simp [attachments, Nat.not_lt.mp hArgs]
        have hRun := h.handlePsync hc hArgs partialResync
        rw [hOne]
        refine ⟨fun hRoom => ?_, fun hFull => ?_⟩
        · rw [if_pos (show s.replicas.length < maxReplicas from hRoom)] at hRun
          refine ⟨_, _, hRun, ?_, ?_, put_clients_self, rfl⟩
          · exact h.attach hRoom rfl fun _ => has_epollout_or_epollout
          · have hSpares := spares_put client { s with replicas := s.replicas ++ [client] }
            exact ⟨rfl, rfl, (hSpares _).others⟩
        · rw [if_neg (show ¬s.replicas.length < maxReplicas from hFull)] at hRun
          exact hRun

/-- The commands of one read. -/
theorem Sound.runCommands (h : s.Sound) (hc : s.clients client = some c)
    (commands : List LoopCommand) :
    (s.replicas.length + attachments commands ≤ maxReplicas →
      ∃ t d, commands.foldlM (fun s command => s.runCommand client command) s = some t ∧ t.Sound ∧
        Spares client s t ∧ t.clients client = some d ∧
        t.replicas = s.replicas ++ List.replicate (attachments commands) client) ∧
    (¬s.replicas.length + attachments commands ≤ maxReplicas →
      commands.foldlM (fun s command => s.runCommand client command) s = none) := by
  induction commands generalizing s c with
  | nil =>
      refine ⟨fun _ => ⟨s, c, rfl, h, .refl .., hc, by simp [attachments]⟩, fun hFull => ?_⟩
      exact absurd h.few (by simpa [attachments] using hFull)
  | cons command commands ih =>
      obtain ⟨hGood, hBad⟩ := h.runCommand hc command
      rw [attachments_cons, List.foldlM_cons]
      by_cases hRoom : s.replicas.length + attachments [command] ≤ maxReplicas
      · obtain ⟨m, d, hRun, hm, hSpares, hd, hReplicas⟩ := hGood hRoom
        obtain ⟨hGood', hBad'⟩ := ih hm hd
        rw [hReplicas, List.length_append, List.length_replicate, Nat.add_assoc] at hGood' hBad'
        rw [hRun]
        refine ⟨fun hAll => ?_, fun hFull => hBad' hFull⟩
        obtain ⟨t, e, hRest, ht, hSpares', he, hReplicas'⟩ := hGood' hAll
        refine ⟨t, e, hRest, ht, hSpares.trans hSpares', he, ?_⟩
        rw [hReplicas', List.append_assoc, List.replicate_append_replicate]
      · rw [hBad hRoom]
        refine ⟨fun hAll => absurd hAll (by omega), fun _ => rfl⟩

theorem spares_put_other (client : Nat) {replica : Nat} (hc : s.clients replica = some c)
    (hReports : Reports d.epollEvents c.epollEvents) : Spares client s (s.put replica d) := by
  refine ⟨rfl, rfl, fun other _ e he => ?_⟩
  by_cases hSame : other = replica
  · subst hSame
    cases hc.symm.trans he
    exact ⟨d, put_clients_self, hReports⟩
  · exact ⟨e, (Function.update_of_ne hSame ..).trans he, .refl _⟩

theorem put_live {replica : Nat} (hc : s.clients client = some c) :
    ∃ e, (s.put replica d).clients client = some e := by
  by_cases hSame : client = replica
  · subst hSame
    exact ⟨d, put_clients_self⟩
  · exact ⟨c, (Function.update_of_ne hSame ..).trans hc⟩

/-- What is read is copied to the replicas. -/
theorem Sound.propagateTo (h : s.Sound) (hc : s.clients client = some c) (room : Nat → Bool)
    {replicas : List Nat} (hReplicas : ∀ replica ∈ replicas, replica ∈ s.replicas) :
    ((∀ replica ∈ replicas, room replica = true) →
      ∃ t d, propagateTo room replicas s = some t ∧ t.Sound ∧ Spares client s t ∧
        t.clients client = some d ∧ t.replicas = s.replicas) ∧
    ((¬∀ replica ∈ replicas, room replica = true) → propagateTo room replicas s = none) := by
  induction replicas generalizing s c with
  | nil => exact ⟨fun _ => ⟨s, c, rfl, h, .refl .., hc, rfl⟩, fun hNot => absurd (by simp) hNot⟩
  | cons replica rest ih =>
      obtain ⟨e, he, hType⟩ := (h.entries replica).mp (hReplicas replica (List.mem_cons_self ..))
      have hMask := h.registered he
      unfold EventLoop.propagateTo
      rw [he, Option.bind_eq_bind, Option.bind_some]
      by_cases hRoom : room replica = true
      · rw [if_pos hRoom, clientEnableWriteEvents, monitor_eq he (by rw [hMask]; simp)]
        have hNext :
            (s.put replica { e with epollEvents := e.epollEvents ||| epollout }).Sound := by
          refine h.put he Iff.rfl ?_
          unfold LoopClient.Monitored
          rw [hType]
          exact fun _ => has_epollout_or_epollout
        obtain ⟨f, hf⟩ : ∃ f,
            (s.put replica { e with epollEvents := e.epollEvents ||| epollout }).clients client =
              some f := put_live hc
        obtain ⟨hGood, hBad⟩ := ih hNext hf fun other hOther =>
          hReplicas other (List.mem_cons_of_mem _ hOther)
        rw [Option.bind_eq_bind, Option.bind_some, List.forall_mem_cons]
        refine ⟨fun hAll => ?_, fun hNot => hBad fun hRest => hNot ⟨hRoom, hRest⟩⟩
        obtain ⟨t, d, hRun, ht, hSpares, hd, hSame⟩ := hGood hAll.2
        refine ⟨t, d, hRun, ht, .trans (spares_put_other client he ?_) hSpares, hd, hSame⟩
        exact ⟨fun hIn => has_epollin_or_epollout.mpr hIn, fun _ => has_epollout_or_epollout⟩
      · rw [if_neg hRoom]
        exact ⟨fun hAll => absurd (hAll replica (List.mem_cons_self ..)) hRoom, fun _ => rfl⟩

theorem Sound.propagate (h : s.Sound) (hc : s.clients client = some c)
    (propagated : Option (Nat → Bool)) :
    ((∀ room ∈ propagated, ∀ replica ∈ s.replicas, room replica = true) →
      ∃ t d, s.propagate propagated = some t ∧ t.Sound ∧ Spares client s t ∧
        t.clients client = some d ∧ t.replicas = s.replicas) ∧
    ((¬∀ room ∈ propagated, ∀ replica ∈ s.replicas, room replica = true) →
      s.propagate propagated = none) := by
  cases propagated with
  | none => exact ⟨fun _ => ⟨s, c, rfl, h, .refl .., hc, rfl⟩, fun hNot => absurd (by simp) hNot⟩
  | some room =>
      simp only [Option.mem_def, Option.some.injEq, forall_eq']
      exact h.propagateTo hc room fun _ h => h

/-- What becomes of a handler of this client: exactly under `P` the loop stays sound,
and the client is freed exactly if it `closes`. -/
structure Handles (client : Nat) (s : EventLoop) (result : Option EventLoop) (P closes : Prop) :
    Prop where
  good : P → ∃ t, result = some t ∧ t.Sound ∧ Spares client s t ∧
    (closes ↔ t.clients client = none)
  bad : ¬P → ∀ t, result = some t → ¬t.Sound

theorem Sound.processClientInput (h : s.Sound) (hc : s.clients client = some c)
    (reading : Reading) :
    Handles client s (processClientInput client reading s) (reading.Fits client s.replicas)
      reading.Closes := by
  induction reading generalizing s c with
  | returns =>
      refine ⟨fun _ => ⟨s, rfl, h, .refl .., ?_⟩, fun hNot => absurd trivial hNot⟩
      exact iff_of_false id (by rw [hc]; simp)
  | closes =>
      obtain ⟨t, hRun, hSpares, hFreed, hSound⟩ := h.handleClientDisconnection hc
      refine ⟨fun hFits => ⟨t, hRun, hSound.mpr hFits, hSpares, iff_of_true trivial hFreed⟩, ?_⟩
      intro hNot u hu hu'
      cases hRun.symm.trans hu
      exact hNot (hSound.mp hu')
  | reads commands propagated next ih =>
      obtain ⟨hGood, hBad⟩ := h.runCommands hc commands
      unfold EventLoop.processClientInput Reading.Fits
      rw [List.length_append, List.length_replicate]
      by_cases hRoom : s.replicas.length + attachments commands ≤ maxReplicas
      · obtain ⟨m, d, hRun, hm, hSpares, hd, hReplicas⟩ := hGood hRoom
        obtain ⟨hGood', hBad'⟩ := hm.propagate hd propagated
        rw [hReplicas] at hGood' hBad'
        rw [hRun, Option.bind_eq_bind, Option.bind_some]
        by_cases hCopies : ∀ room ∈ propagated,
            ∀ replica ∈ s.replicas ++ List.replicate (attachments commands) client,
              room replica = true
        · obtain ⟨u, e, hRun', hu, hSpares', he, hSame⟩ := hGood' hCopies
          obtain ⟨hGood'', hBad''⟩ := ih hu he
          rw [hSame] at hGood'' hBad''
          rw [hRun', Option.bind_some]
          refine ⟨fun hFits => ?_, fun hNot => hBad'' fun hRest => hNot ⟨hRoom, hCopies, hRest⟩⟩
          obtain ⟨t, hRest, ht, hSpares'', hClosed⟩ := hGood'' hFits.2.2
          exact ⟨t, hRest, ht, (hSpares.trans hSpares').trans hSpares'', hClosed⟩
        · rw [hBad' hCopies]
          exact ⟨fun hFits => absurd hFits.2.1 hCopies, fun _ t ht => by cases ht⟩
      · rw [hBad hRoom]
        exact ⟨fun hFits => absurd hFits.1 hRoom, fun _ t ht => by cases ht⟩

end Passes

section Calls

variable {s t : EventLoop} {client : Nat} {c d : LoopClient} {P Q closes : Prop}

/-- A handler that frees nothing and cannot go wrong. -/
theorem handles_some (ht : t.Sound) (hSpares : Spares client s t)
    (hc : t.clients client = some c) (hP : P) (hNot : ¬closes) :
    Handles client s (some t) P closes :=
  ⟨fun _ => ⟨t, rfl, ht, hSpares, iff_of_false hNot (by rw [hc]; simp)⟩, fun h => absurd hP h⟩

theorem handles_put (h : s.Sound) (hc : s.clients client = some c)
    (hType : d.type = .replica ↔ c.type = .replica) (hd : d.Monitored) (hP : P) (hNot : ¬closes) :
    Handles client s (some (s.put client d)) P closes :=
  handles_some (h.put hc hType hd) (spares_put ..) put_clients_self hP hNot

/-- A state of the handshake is left for another one. -/
theorem monitored_setReplClientState (h : c.Monitored) (hType : c.type = .master)
    {state : ReplicaClientState} (hBefore : c.replClientState ≠ .ready ∧ c.replClientState ≠ .error)
    (hAfter : state ≠ .ready) : LoopClient.Monitored { c with replClientState := state } := by
  unfold LoopClient.Monitored at h ⊢
  rw [hType] at h ⊢
  refine ⟨h.1, fun hReady => absurd hReady hAfter, fun hIn => ?_⟩
  rcases h.2.2 hIn with hReady | hError
  · exact absurd hReady hBefore.1
  · exact absurd hError hBefore.2

theorem Sound.replicaReceiveRdbSnapshot (h : s.Sound) (hc : s.clients client = some c)
    (hType : c.type = .master) (t : LoopTurn) (hP : P) (hNot : ¬closes) :
    Handles client s (s.replicaReceiveRdbSnapshot client t) P closes := by
  have hMonitored := h.monitored client c hc
  unfold EventLoop.replicaReceiveRdbSnapshot
  split
  · rw [h.setReplClientState hc, Option.bind_eq_bind, Option.bind_some, clientEnableReadEvents,
      monitor_eq put_clients_self (by simp), put_put]
    refine handles_put h hc Iff.rfl ?_ hP hNot
    unfold LoopClient.Monitored at hMonitored ⊢
    rw [hType] at hMonitored ⊢
    exact ⟨has_epollout_or_epollin.mpr hMonitored.1, fun _ => has_epollin_or_epollin,
      fun _ => Or.inl rfl⟩
  · exact handles_some h (.refl ..) hc hP hNot

theorem Handles.of_spares {m : EventLoop} {result : Option EventLoop} (h : Spares client s m)
    (hHandles : Handles client m result P closes) : Handles client s result P closes := by
  refine ⟨fun hP => ?_, hHandles.bad⟩
  obtain ⟨t, hRun, ht, hSpares, hClosed⟩ := hHandles.good hP
  exact ⟨t, hRun, ht, h.trans hSpares, hClosed⟩

theorem Sound.replicaHandleMasterData (h : s.Sound) (hc : s.clients client = some c)
    (hType : c.type = .master) (t : LoopTurn) :
    Handles client s (s.replicaHandleMasterData client t)
      (c.ExpectsInput → t.reading.Fits client s.replicas) (c.ExpectsInput ∧ t.reading.Closes) := by
  have hMonitored := h.monitored client c hc
  have hReading (hExpects : c.ExpectsInput) :
      Handles client s (EventLoop.processClientInput client t.reading s)
        (c.ExpectsInput → t.reading.Fits client s.replicas)
        (c.ExpectsInput ∧ t.reading.Closes) := by
    have hFits : (c.ExpectsInput → t.reading.Fits client s.replicas) ↔
        t.reading.Fits client s.replicas := forall_prop_of_true hExpects
    rw [hFits, and_iff_right hExpects]
    exact h.processClientInput hc t.reading
  have hSend {state : ReplicaClientState} (hNot : ¬c.ExpectsInput)
      (hBefore : c.replClientState ≠ .ready ∧ c.replClientState ≠ .error)
      (hAfter : state ≠ .ready) :
      Handles client s (some (s.put client { c with replClientState := state }))
        (c.ExpectsInput → t.reading.Fits client s.replicas)
        (c.ExpectsInput ∧ t.reading.Closes) :=
    handles_put h hc Iff.rfl (monitored_setReplClientState hMonitored hType hBefore hAfter)
      (fun hExpects => absurd hExpects hNot) fun hBoth => hNot hBoth.1
  have hStay (hNot : ¬c.ExpectsInput) :
      Handles client s (some s) (c.ExpectsInput → t.reading.Fits client s.replicas)
        (c.ExpectsInput ∧ t.reading.Closes) :=
    handles_some h (.refl ..) hc (fun hExpects => absurd hExpects hNot) fun hBoth => hNot hBoth.1
  have hOther (state : ReplicaClientState) (hState : c.replClientState = state)
      (hNone : state ≠ .sentPing ∧ state ≠ .sentReplconfPort ∧ state ≠ .sentReplconfCapa ∧
        state ≠ .sentPsync ∧ state ≠ .ready) : ¬c.ExpectsInput := by
    unfold LoopClient.ExpectsInput
    rw [hState]
    simp [hNone]
  unfold EventLoop.replicaHandleMasterData
  rw [hc, Option.bind_eq_bind, Option.bind_some]
  cases hState : c.replClientState with
  | none => exact hStay (hOther _ hState (by simp))
  | connecting =>
      dsimp only
      rw [h.setReplClientState hc]
      exact hSend (hOther _ hState (by simp)) (by simp [hState]) (by simp)
  | sentPing => exact hReading (Or.inl hState)
  | receivedPong =>
      dsimp only
      rw [h.setReplClientState hc]
      exact hSend (hOther _ hState (by simp)) (by simp [hState]) (by simp)
  | sentReplconfPort => exact hReading (Or.inr (Or.inl hState))
  | receivedReplconfPortOk =>
      dsimp only
      rw [h.setReplClientState hc]
      exact hSend (hOther _ hState (by simp)) (by simp [hState]) (by simp)
  | sentReplconfCapa => exact hReading (Or.inr (Or.inr (Or.inl hState)))
  | receivedReplconfCapaOk =>
      dsimp only
      rw [h.setReplClientState hc]
      exact hSend (hOther _ hState (by simp)) (by simp [hState]) (by simp)
  | sentPsync => exact hReading (Or.inr (Or.inr (Or.inr (Or.inl hState))))
  | receivedFullresyncResponse =>
      dsimp only
      split
      · rw [h.setReplClientState hc, Option.bind_eq_bind, Option.bind_some]
        have hNot := hOther _ hState (by simp)
        have hNext : (s.put client { c with replClientState := .receivingRdbData }).Sound :=
          h.put hc Iff.rfl
            (monitored_setReplClientState hMonitored hType (by simp [hState]) (by simp))
        have hReceives := hNext.replicaReceiveRdbSnapshot put_clients_self hType t
          (show c.ExpectsInput → t.reading.Fits client s.replicas from
            fun hExpects => absurd hExpects hNot)
          (fun hBoth : c.ExpectsInput ∧ t.reading.Closes => hNot hBoth.1)
        exact .of_spares (spares_put ..) hReceives
      · exact hStay (hOther _ hState (by simp))
  | receivingRdbData =>
      exact h.replicaReceiveRdbSnapshot hc hType t
        (fun hExpects => absurd hExpects (hOther _ hState (by simp)))
        fun hBoth => hOther _ hState (by simp) hBoth.1
  | ready => exact hReading (Or.inr (Or.inr (Or.inr (Or.inr hState))))
  | error => exact hStay (hOther _ hState (by simp))

theorem put_setMasterReplState (s : EventLoop) (client : Nat) (d : LoopClient)
    (state : MasterReplicaState) :
    (s.put client d).setMasterReplState client state =
      some (s.put client { d with masterReplState := state }) := by
  unfold EventLoop.setMasterReplState
  rw [put_clients_self, Option.bind_eq_bind, Option.bind_some]
  simp [EventLoop.put, setClient]

/-- `continue_psync` disconnects the replica. -/
def Refuses (c : LoopClient) (psync : PsyncChoice) : Prop :=
  c.masterReplState = .psync ∧ (psync = .ahead ∨ psync = .outside)

instance (c : LoopClient) (psync : PsyncChoice) : Decidable (Refuses c psync) :=
  inferInstanceAs (Decidable (_ ∧ _))

/-- `continue_psync` writes over the output ring of the replica. -/
def Overwrites (c : LoopClient) (psync : PsyncChoice) : Prop :=
  c.masterReplState = .psync ∧ ∃ relativeOffset bytesToSend, psync = .copies relativeOffset bytesToSend

/-- The condition on `continue_psync`. -/
def PsyncFits (s : EventLoop) (client : Nat) (c : LoopClient) (psync : PsyncChoice) : Prop :=
  ¬Overwrites c psync ∧ (Refuses c psync → s.replicas.count client ≤ 1)

theorem psyncFits_of_state (s : EventLoop) (client : Nat) (psync : PsyncChoice)
    (h : c.masterReplState ≠ .psync) : s.PsyncFits client c psync ∧ ¬Refuses c psync :=
  ⟨⟨fun hYes => h hYes.1, fun hYes => absurd hYes.1 h⟩, fun hYes => h hYes.1⟩

theorem Sound.continuePsync (h : s.Sound) (hc : s.clients client = some c)
    (hType : c.type = .replica) (hState : c.masterReplState = .psync) (psync : PsyncChoice) :
    Handles client s (s.continuePsync client psync) (s.PsyncFits client c psync)
      (Refuses c psync) := by
  have hDisconnect (hWhole : ¬Overwrites c psync) (hYes : Refuses c psync) :
      Handles client s (s.handleClientDisconnection client) (s.PsyncFits client c psync)
        (Refuses c psync) := by
    obtain ⟨t, hRun, hSpares, hFreed, hSound⟩ := h.handleClientDisconnection hc
    refine ⟨fun hFits => ⟨t, hRun, hSound.mpr (hFits.2 hYes), hSpares, iff_of_true hYes hFreed⟩, ?_⟩
    intro hNot u hu hu'
    cases hRun.symm.trans hu
    exact hNot ⟨hWhole, fun _ => hSound.mp hu'⟩
  cases psync with
  | caughtUp =>
      have hNot : ¬Refuses c .caughtUp := by simp [Refuses]
      unfold EventLoop.continuePsync
      rw [h.setMasterReplState hc, Option.bind_eq_bind, Option.bind_some, clientDisableWriteEvents,
        monitor_eq put_clients_self (by simp), put_put]
      refine handles_put h hc Iff.rfl ?_ ⟨by simp [Overwrites], fun hYes => absurd hYes hNot⟩ hNot
      unfold LoopClient.Monitored
      rw [hType]
      exact fun hOther => absurd rfl hOther
  | ahead => exact hDisconnect (by simp [Overwrites]) ⟨hState, Or.inl rfl⟩
  | outside => exact hDisconnect (by simp [Overwrites]) ⟨hState, Or.inr rfl⟩
  | nothing =>
      have hNot : ¬Refuses c .nothing := by simp [Refuses]
      exact handles_some h (.refl ..) hc ⟨by simp [Overwrites], fun hYes => absurd hYes hNot⟩ hNot
  | copies relativeOffset bytesToSend =>
      refine ⟨fun hFits => absurd ⟨hState, _, _, rfl⟩ hFits.1, fun _ t ht => ?_⟩
      cases ht

theorem Sound.masterHandleReplicaOut (h : s.Sound) (hc : s.clients client = some c)
    (hType : c.type = .replica) (t : LoopTurn) :
    Handles client s (s.masterHandleReplicaOut client t) (s.PsyncFits client c t.psync)
      (Refuses c t.psync) := by
  have hMask := h.registered hc
  unfold EventLoop.masterHandleReplicaOut
  rw [hc, Option.bind_eq_bind, Option.bind_some]
  cases hState : c.masterReplState with
  | psync => exact h.continuePsync hc hType hState t.psync
  | propagate =>
      obtain ⟨hFits, hNot⟩ := psyncFits_of_state s client t.psync (c := c) (by simp [hState])
      exact handles_some h (.refl ..) hc hFits hNot
  | sendingRdbData =>
      obtain ⟨hFits, hNot⟩ := psyncFits_of_state s client t.psync (c := c) (by simp [hState])
      dsimp only
      split
      · rw [clientDisableWriteEvents, monitor_eq hc (by rw [hMask]; simp), Option.bind_eq_bind,
          Option.bind_some, put_setMasterReplState]
        refine handles_put h hc Iff.rfl ?_ hFits hNot
        unfold LoopClient.Monitored
        rw [hType]
        exact fun hOther => absurd rfl hOther
      · exact handles_some h (.refl ..) hc hFits hNot

/-- The event makes the server read from the client. -/
def Reads (c : LoopClient) : Prop := c.type = .regular ∨ c.type = .master ∧ c.ExpectsInput

instance (c : LoopClient) : Decidable (Reads c) := inferInstanceAs (Decidable (_ ∨ _))

theorem Sound.handleInput (h : s.Sound) (hc : s.clients client = some c) (t : LoopTurn) :
    Handles client s (s.handleInput client t)
      (Reads c → t.reading.Fits client s.replicas) (Reads c ∧ t.reading.Closes) := by
  unfold EventLoop.handleInput
  rw [hc, Option.bind_eq_bind, Option.bind_some]
  cases hType : c.type with
  | regular =>
      have hReads : Reads c := Or.inl hType
      have hFits : (Reads c → t.reading.Fits client s.replicas) ↔
        t.reading.Fits client s.replicas := forall_prop_of_true hReads
      rw [hFits, and_iff_right hReads]
      exact h.processClientInput hc t.reading
  | master =>
      have hReads : Reads c ↔ c.ExpectsInput := by simp [Reads, hType]
      rw [hReads]
      exact h.replicaHandleMasterData hc hType t
  | replica =>
      have hNot : ¬Reads c := by simp [Reads, hType]
      exact handles_some h (.refl ..) hc (fun hYes => absurd hYes hNot) fun hBoth => hNot hBoth.1

/-- The condition for `EPOLLOUT`. -/
def OutputFits (s : EventLoop) (client : Nat) (c : LoopClient) (t : LoopTurn) : Prop :=
  (c.type = .master → c.ExpectsInput → t.reading.Fits client s.replicas) ∧
    (c.type = .replica → s.PsyncFits client c t.psync)

theorem Sound.handleOutput (h : s.Sound) (hc : s.clients client = some c) (t : LoopTurn) :
    Handles client s (s.handleOutput client t) (s.OutputFits client c t)
      (c.type = .master ∧ c.ExpectsInput ∧ t.reading.Closes ∨
        c.type = .replica ∧ Refuses c t.psync) := by
  unfold EventLoop.handleOutput OutputFits
  rw [hc, Option.bind_eq_bind, Option.bind_some]
  cases hType : c.type with
  | regular => exact handles_some h (.refl ..) hc (by simp) (by simp)
  | master => simpa using h.replicaHandleMasterData hc hType t
  | replica => simpa using h.masterHandleReplicaOut hc hType t

end Calls

end EventLoop

end RedisServer
