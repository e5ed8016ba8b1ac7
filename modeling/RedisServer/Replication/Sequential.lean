import RedisServer.Replication.Propagation

/-! Several clients at a time. The server works on one read after the other, and
a command that a read completes is run to its end. So the world that the clients
share is the one that the commands make of it one by one, in an order in which
each client finds its own commands as it has sent them. -/
namespace RedisServer

open Machine

section Worlds

variable {ρ : Type} {cmds : Commands ρ}

/-- The bodies of the commands, one after the other. -/
def runCommands (cmds : Commands ρ) (world : ρ) (commands : List (List Bytes)) : ρ :=
  commands.foldl (fun world xs => cmds.body (getCommandType (xs.headD cmds.stale)) xs world) world

theorem runCommands_append (world : ρ) (before after : List (List Bytes)) :
    runCommands cmds world (before ++ after) =
      runCommands cmds (runCommands cmds world before) after := List.foldl_append

theorem rest_foldl_handleCommand (commands : List (List Bytes)) (client : Client ρ) :
    (commands.foldl (fun client xs => handleCommand cmds xs client) client).rest =
      runCommands cmds client.rest commands := by
  induction commands generalizing client with
  | nil => rfl
  | cons xs commands ih => exact ih (handleCommand cmds xs client)

theorem Ran.rest_eq {ch next : CommandHandler ρ} {ran : List (List Bytes)}
    (h : Ran cmds ch next ran) : next.client.rest = runCommands cmds ch.client.rest ran := by
  rw [h.client]
  exact rest_foldl_handleCommand ran ch.client

/-- The commands that a read completes act on the world as it is then. -/
theorem Follows.receive_rest {stream : List (List Bytes)} {c next : Connection ρ}
    {bytes future : Bytes} {written : Nat} {filled : RingBuffer} {r : Range}
    {last : ParserRun (CommandHandler ρ)} {world : ρ}
    (h : Follows cmds stream c (bytes ++ future) written)
    (hTotal : (encodeCommands stream).length < 2 ^ 64)
    (hClean : ¬CutsPayload stream (written + bytes.length))
    (hRead : Receives cmds (c.seeing world) bytes filled r last next) :
    ∃ ran, next.handler.invocations = c.handler.invocations ++ ran ∧
      next.handler.client.rest = runCommands cmds world ran := by
  obtain ⟨steps, hBetween⟩ := h.between
  have hLength := h.length
  rw [List.length_append] at hLength
  obtain ⟨hne, hFit⟩ := hRead.fills.fits
  obtain ⟨filled', r', last', next', more, ran, hSame, -, hRan, -⟩ :=
    (hBetween.seeing world).receive cmds hne hFit hLength hTotal hClean
  obtain ⟨-, -, rfl⟩ := hRead.unique hSame
  exact ⟨ran, hRan.invocations, hRan.rest_eq⟩

end Worlds

section Servers

variable {ρ : Type} {cmds : Commands ρ} {streams : Nat → List (List Bytes)} {start s : Server ρ}
  {events : List Event}

/-- No read ends in a payload. -/
def CutNoPayload (streams : Nat → List (List Bytes)) (events : List Event) : Prop :=
  ∀ before i bytes after, events = before ++ .read i bytes :: after →
    ¬CutsPayload (streams i) ((received before i).length + bytes.length)

/-- The commands that were run, each with its client: those of a client are its
own ones, and the world is what they make of it. -/
structure OneByOne (cmds : Commands ρ) (streams : Nat → List (List Bytes)) (start : Server ρ)
    (events : List Event) (s : Server ρ) : Prop where
  clients : ∀ i future, received events i ++ future = encodeCommands (streams i) →
    Follows cmds (streams i) (s.clients i) future (received events i).length
  order : ∃ order : List (Nat × List Bytes), order.map Prod.snd = s.executed ∧
    ∀ i, (order.filter fun e => e.1 = i).map Prod.snd = (s.clients i).handler.invocations
  world : s.world = runCommands cmds start.world s.executed

theorem oneByOne_start (cmds : Commands ρ) (streams : Nat → List (List Bytes)) (h : Starts start) :
    OneByOne cmds streams start [] start where
  clients := (inStep_start cmds streams h).clients
  order := by
    refine ⟨[], h.executed.symm, fun i => ?_⟩
    obtain ⟨pageSize, fd, mapped, rb, client, -, hClient, -⟩ := h.clients i
    rw [hClient]
    rfl
  world := by
    rw [h.executed]
    rfl

theorem filter_map_pair (ran : List (List Bytes)) (i j : Nat) :
    ((ran.map fun xs => (i, xs)).filter fun e => e.1 = j).map Prod.snd =
      if i = j then ran else [] := by
  induction ran with
  | nil => simp
  | cons xs ran ih =>
      rw [List.map_cons, List.filter_cons]
      by_cases hSame : i = j
      · simpa [hSame] using ih
      · simp [hSame]

theorem OneByOne.step (h : OneByOne cmds streams start events s) {event : Event} {next : Server ρ}
    (hStep : ServerStep cmds s event (some next))
    (hStream : ∀ i, received (events ++ [event]) i <+: encodeCommands (streams i))
    (hTotal : ∀ i, (encodeCommands (streams i)).length < 2 ^ 64)
    (hClean : CutNoPayload streams (events ++ [event])) :
    OneByOne cmds streams start (events ++ [event]) next := by
  generalize hNext : some next = result at hStep
  cases hStep with
  | @drain j n rep ring hRep hLength hRead =>
      cases hNext
      refine ⟨fun i future hAll => ?_, h.order, h.world⟩
      rw [received_append, show received [.drain j n] i = [] from rfl, List.append_nil] at hAll ⊢
      exact h.clients i future hAll
  | @read i bytes filled r last c info hRead hRegular hPropagates =>
      cases info with
      | none => cases hNext
      | some info =>
          cases hNext
          have hMine : received [Event.read i bytes] i = bytes := by simp [received]
          obtain ⟨future, hFuture⟩ := hStream i
          rw [received_append, hMine, List.append_assoc] at hFuture
          have hBefore := h.clients i _ hFuture
          have hCut := hClean events i bytes [] rfl
          obtain ⟨hAfter, -⟩ := hBefore.receive (hTotal i) hCut hRead
          obtain ⟨ran, hRan, hWorld⟩ := hBefore.receive_rest (hTotal i) hCut hRead
          have hDrop : c.handler.invocations.drop (s.clients i).handler.invocations.length = ran := by
            rw [hRan, List.drop_left]
          refine ⟨fun j rest hRest => ?_, ?_, ?_⟩
          · dsimp only
            by_cases hj : j = i
            · subst hj
              rw [received_append, hMine, List.append_assoc] at hRest
              obtain rfl : future = rest := List.append_cancel_left
                (List.append_cancel_left (hFuture.trans hRest.symm))
              rw [Function.update_self, received_append, hMine, List.length_append]
              exact hAfter
            · have hOther : received [Event.read i bytes] j = [] := by
                simp [received, Ne.symm hj]
              rw [received_append, hOther, List.append_nil] at hRest ⊢
              rw [Function.update_of_ne hj]
              exact h.clients j rest hRest
          · obtain ⟨order, hAll, hEach⟩ := h.order
            refine ⟨order ++ ran.map fun xs => (i, xs), ?_, fun j => ?_⟩
            · rw [List.map_append, hAll, List.map_map, hDrop]
              congr 1
              exact List.map_id ran
            · rw [List.filter_append, List.map_append, hEach, filter_map_pair]
              dsimp only
              by_cases hj : i = j
              · subst hj
                rw [if_pos rfl, Function.update_self, hRan]
              · rw [if_neg hj, Function.update_of_ne (Ne.symm hj), List.append_nil]
          · dsimp only
            rw [hDrop, runCommands_append, ← h.world, hWorld]

theorem Serves.oneByOne {s : Server ρ} (hStart : Starts start)
    (hStreams : ∀ i, received events i <+: encodeCommands (streams i))
    (hTotal : ∀ i, (encodeCommands (streams i)).length < 2 ^ 64)
    (hClean : CutNoPayload streams events) (hRun : Serves cmds start events (some s)) :
    OneByOne cmds streams start events s := by
  generalize hNext : some s = result at hRun
  induction hRun generalizing s with
  | nil =>
      cases hNext
      exact oneByOne_start cmds streams hStart
  | @snoc middle events event next hBefore hStep ih =>
      subst hNext
      have hIn := ih
        (fun i => (received_append events [event] i ▸ List.prefix_append _ _).trans (hStreams i))
        (fun before i bytes after hSplit =>
          hClean before i bytes (after ++ [event]) (by simp [hSplit])) rfl
      exact hIn.step hStep hStreams hTotal hClean

/-- For every number of clients and every order of their reads, the commands have
been run one by one on the shared world, and those of a client are the ones it has
completed, in the order it has sent them. -/
theorem serves_sequentially (cmds : Commands ρ) (streams : Nat → List (List Bytes))
    (start : Server ρ) (hStart : Starts start) (events : List Event)
    (hStreams : ∀ i, received events i <+: encodeCommands (streams i))
    (hTotal : ∀ i, (encodeCommands (streams i)).length < 2 ^ 64)
    (hClean : CutNoPayload streams events) {s : Server ρ}
    (hRun : Serves cmds start events (some s)) :
    ∃ order : List (Nat × List Bytes),
      s.world = runCommands cmds start.world (order.map Prod.snd) ∧
      ∀ i, (order.filter fun e => e.1 = i).map Prod.snd =
        completed (streams i) (received events i).length := by
  have hIn := hRun.oneByOne hStart hStreams hTotal hClean
  obtain ⟨order, hAll, hEach⟩ := hIn.order
  refine ⟨order, by rw [hAll, hIn.world], fun i => ?_⟩
  obtain ⟨future, hFuture⟩ := hStreams i
  rw [hEach, (hIn.clients i future hFuture).completed_eq]

end Servers

/-- Two clients of the server ask for the same key. -/
def twoReads : List Event :=
  [.read 0 (encodeCommands [getCommand]), .read 1 (encodeCommands [getCommand])]

theorem exists_serves_twoReads : ∃ s, Serves idleCommands oneReplica twoReads (some s) := by
  obtain ⟨filled, r, last, c, hRead, hType, -, hSet, -⟩ :=
    exists_receives_whole (show encodeCommands [getCommand] ≠ [] by decide) (by decide) (by decide)
  have hFlag : last.handler.client.shouldPropogateCommand = false := by
    rw [Bool.eq_false_iff]
    intro hTrue
    obtain ⟨xs, ⟨⟩, hLast⟩ := hSet.mp hTrue
    exact absurd hLast (by decide)
  have hInfo : ∀ info : ServerInfo, if last.handler.client.shouldPropogateCommand then
      Propagates info (r.mem.take (toSize last.begin)) (some info) else some info = some info := by
    intro info
    rw [hFlag]
    rfl
  let middle : Server Unit :=
    { info := oneReplica.info
      world := ()
      clients := Function.update oneReplica.clients 0 c
      executed := c.handler.invocations }
  have hFirst : Serves idleCommands oneReplica [.read 0 (encodeCommands [getCommand])]
      (some middle) := (Serves.nil oneReplica).snoc (.read hRead hType (hInfo oneReplica.info))
  -- The second client is still as it was, and so is the world.
  have hSecond : Receives idleCommands ((middle.clients 1).seeing middle.world)
      (encodeCommands [getCommand]) filled r last c := hRead
  exact ⟨_, hFirst.snoc (.read (s := middle) hSecond hType (hInfo middle.info))⟩

theorem serves_sequentially_twoReads :
    ∃ s, Serves idleCommands oneReplica twoReads (some s) ∧
      ∃ order : List (Nat × List Bytes),
        s.world = runCommands idleCommands oneReplica.world (order.map Prod.snd) ∧
        ∀ i, (order.filter fun e => e.1 = i).map Prod.snd =
          completed ((fun i => if i < 2 then [getCommand] else []) i) (received twoReads i).length := by
  obtain ⟨s, hRun⟩ := exists_serves_twoReads
  refine ⟨s, hRun, serves_sequentially idleCommands _ oneReplica starts_oneReplica twoReads ?_ ?_ ?_
    hRun⟩
  · intro i
    rcases i with _ | _ | i
    · exact ⟨[], by decide⟩
    · exact ⟨[], by decide⟩
    · simp [received, twoReads, encodeCommands]
  · intro i
    split <;> decide
  · have hWhole := not_cutsPayload_length [getCommand]
    intro before i bytes after hSplit
    rcases before with _ | ⟨first, _ | ⟨second, rest⟩⟩
    · cases hSplit
      simpa [received] using hWhole
    · cases hSplit
      simpa [received] using hWhole
    · simp [twoReads] at hSplit

end RedisServer
