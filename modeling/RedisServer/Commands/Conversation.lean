import RedisServer.Replication.ReplicaLink
import RedisServer.Replication.Sequential

/-! The clients and their replies. The commands of a read are run on the world
that all clients share, their replies are queued in the output ring of the client,
and the socket takes as much of the ring as it likes, now or after a later read.
What a client has got so far is always the beginning of the replies to its own
commands, in the order of the commands. -/
namespace RedisServer

open Machine

/-- The bodies, with their replies going to the output ring of the client. -/
def servedCommands (stale : Bytes) : Commands (Option (World × RingBuffer)) where
  body commandType args state := state.bind fun (s, rb) => do
    let next ← commandBody commandType (args.map cString) { s with outputs := [] }
    let rb ← next.outputs.foldlM addOutput rb
    some (next, rb)
  stale := stale

/-- What the event loop does: a read of a client with the flush behind it, a flush
of a client whose socket is ready, or a replica's socket taking bytes. -/
inductive FrontTurn where
  | read (client : Nat) (bytes : Bytes) (results : List WriteResult)
  | flush (client : Nat) (results : List WriteResult)
  | drain (replica n : Nat)

/-- The server with its regular clients. `accepted` is what the socket of a client
has taken. -/
structure Front where
  info : ServerInfo
  world : World
  clients : Nat → Connection (Option (World × RingBuffer))
  outputBuffers : Nat → RingBuffer
  accepted : Nat → Bytes

namespace Front

/-- The world with the offsets as propagation has left them. -/
def worldNow (s : Front) : World :=
  { s.world with
    masterReplOffset := s.info.masterReplOffset
    replBacklogBaseOffset := s.info.replBacklogBaseOffset }

/-- The server as it works for one of its clients. -/
def serverFor (s : Front) (i : Nat) : Server (Option (World × RingBuffer)) where
  info := s.info
  world := some (s.worldNow, s.outputBuffers i)
  clients := s.clients
  executed := []

/-- The socket of a client has taken some bytes of its ring. -/
def sends (s : Front) (i : Nat) (rb : RingBuffer) (bytes : Bytes) : Front :=
  { s with
    outputBuffers := Function.update s.outputBuffers i rb
    accepted := Function.update s.accepted i (s.accepted i ++ bytes) }

/-- A turn that goes well: no client is freed and no body reads a wrong member. -/
inductive Step (stale : Bytes) : Front → FrontTurn → Front → Prop where
  | read {s : Front} {i : Nat} {bytes sent : Bytes} {results : List WriteResult} {world : World}
      {rb next : RingBuffer} {t : Server (Option (World × RingBuffer))} {returned : UInt64}
      (hServe : ServerStep (servedCommands stale) (s.serverFor i) (.read i bytes) (some t))
      (hWorld : t.world = some (world, rb))
      (hFlush : flushClientOutput rb 0 results = some (next, sent, returned)) :
      Step stale s (.read i bytes results)
        ({ s with info := t.info, world := world, clients := t.clients }.sends i next sent)
  | flush {s : Front} {i : Nat} {sent : Bytes} {results : List WriteResult} {next : RingBuffer}
      {returned : UInt64}
      (hFlush : flushClientOutput (s.outputBuffers i) 0 results = some (next, sent, returned)) :
      Step stale s (.flush i results) (s.sends i next sent)
  | drain {s : Front} {i j n : Nat} {t : Server (Option (World × RingBuffer))}
      (hServe : ServerStep (servedCommands stale) (s.serverFor i) (.drain j n) (some t)) :
      Step stale s (.drain j n) { s with info := t.info }

inductive Runs (stale : Bytes) : Front → List FrontTurn → Front → Prop where
  | nil (s : Front) : Runs stale s [] s
  | snoc {s middle next : Front} {turns : List FrontTurn} {turn : FrontTurn}
      (hBefore : Runs stale s turns middle) (hStep : Step stale middle turn next) :
      Runs stale s (turns ++ [turn]) next

/-- All clients have just connected, and get replies. -/
structure Starts (s : Front) : Prop where
  clients : ∀ i, ∃ pageSize fd mapped rb client, rbCreate pageSize 65536 fd mapped = some rb ∧
    s.clients i = connect rb client ∧ client.type = .regular ∧
    client.shouldPropogateCommand = false
  outputBuffers : ∀ i, ∃ pageSize fd mapped,
    rbCreate pageSize 65536 fd mapped = some (s.outputBuffers i)
  accepted : ∀ i, s.accepted i = []
  shouldReply : s.world.shouldReply = true

end Front

/-- The bytes that a client has sent. -/
def sentBy (turns : List FrontTurn) (i : Nat) : Bytes :=
  turns.flatMap fun
    | .read j bytes _ => if j = i then bytes else []
    | .flush _ _ | .drain _ _ => []

/-- The socket of the client takes all that is in its ring. -/
def FrontTurn.TakesAll (i : Nat) : FrontTurn → Prop
  | .read j _ (.sent n :: _) | .flush j (.sent n :: _) => j = i ∧ 65536 ≤ n
  | _ => False

/-- The commands that a read completes. -/
def completedBy (stream : List (List Bytes)) (start stop : Nat) : List (List Bytes) :=
  (completed stream stop).drop (completed stream start).length

/-- The condition on a turn, in the state `s` after the turns before it. A read ends
in no payload, and the commands it completes are answerable when their turn comes,
with room for the replies. -/
def Front.Respects (streams : Nat → List (List Bytes)) (before : List FrontTurn) (s : Front) :
    FrontTurn → Prop
  | .read i bytes _ =>
      let start := (sentBy before i).length
      let stop := start + bytes.length
      ¬CutsPayload (streams i) stop ∧
        AllAnswerable (completedBy (streams i) start stop) s.worldNow (s.outputBuffers i)
  | .flush _ _ | .drain _ _ => True

/-- A command of a client and the reply to it. -/
structure Exchange where
  client : Nat
  command : List Bytes
  reply : Reply

/-- The commands are run one by one on one world. Between them only the offsets of
the replication change. -/
inductive Conversation : World → List Exchange → World → Prop where
  | nil (s : World) : Conversation s [] s
  | offsets {s last : World} {talk : List Exchange} (masterReplOffset replBacklogBaseOffset : Int)
      (hRest : Conversation { s with
        masterReplOffset := masterReplOffset
        replBacklogBaseOffset := replBacklogBaseOffset } talk last) : Conversation s talk last
  | exchange {s next last : World} {e : Exchange} {talk : List Exchange}
      (hRun : executeCommand e.command s = some next) (hReply : next.outputs = [.reply e.reply])
      (hRest : Conversation next talk last) : Conversation s (e :: talk) last

/-- The part of one client. -/
def Exchange.of (talk : List Exchange) (i : Nat) : List Exchange :=
  talk.filter fun e => e.client = i

/-- The bytes of the replies. -/
def Exchange.encode (talk : List Exchange) : Bytes := talk.flatMap fun e => e.reply.encode

section Talks

variable {stale : Bytes} {s middle last : World} {rb : RingBuffer} {q : Bytes} {w : Nat}

theorem Conversation.append {talk more : List Exchange} (h : Conversation s talk middle)
    (hMore : Conversation middle more last) : Conversation s (talk ++ more) last := by
  induction h with
  | nil => exact hMore
  | offsets a b _ ih => exact .offsets a b (ih hMore)
  | exchange hRun hReply _ ih => exact .exchange hRun hReply (ih hMore)

theorem Exchange.of_append (talk more : List Exchange) (i : Nat) :
    Exchange.of (talk ++ more) i = Exchange.of talk i ++ Exchange.of more i :=
  List.filter_append ..

theorem Exchange.encode_append (talk more : List Exchange) :
    Exchange.encode (talk ++ more) = Exchange.encode talk ++ Exchange.encode more :=
  List.flatMap_append

/-- Exchanges of one client. -/
theorem Exchange.of_eq {talk : List Exchange} {i : Nat} (h : ∀ e ∈ talk, e.client = i) (j : Nat) :
    Exchange.of talk j = if j = i then talk else [] := by
  by_cases hj : j = i
  · rw [if_pos hj, Exchange.of, List.filter_eq_self]
    intro e he
    rw [hj]
    exact decide_eq_true (h e he)
  · rw [if_neg hj, Exchange.of, List.filter_eq_nil_iff]
    intro e he hSame
    exact hj ((of_decide_eq_true hSame).symm.trans (h e he))

theorem servedCommands_body {args : List Bytes} (hne : args ≠ []) :
    (servedCommands stale).body (getCommandType (args.headD stale)) args (some (s, rb)) =
      serveCommand args s rb := by
  cases args with
  | nil => exact absurd rfl hne
  | cons arg args => rfl

/-- Commands that are answerable when their turn comes get one reply each. -/
theorem exists_conversation (stale : Bytes) (i : Nat) (commands : List (List Bytes))
    (hne : ∀ xs ∈ commands, xs ≠ []) (hReply : s.shouldReply = true) (hRing : rb.Queues q w)
    (hSize : rb.size = 65536) (h : AllAnswerable commands s rb) :
    ∃ last rb' w', ∃ talk : List Exchange,
      runCommands (servedCommands stale) (some (s, rb)) commands = some (last, rb') ∧
      Conversation s talk last ∧ talk.map Exchange.command = commands ∧
      (∀ e ∈ talk, e.client = i) ∧ (∀ e ∈ talk, e.reply.WellFormed) ∧
      last.shouldReply = true ∧ rb'.Queues (q ++ Exchange.encode talk) w' ∧ rb'.size = 65536 := by
  induction commands generalizing s rb q w with
  | nil =>
      refine ⟨s, rb, w, [], rfl, .nil s, rfl, by simp, by simp, hReply, ?_, hSize⟩
      rw [Exchange.encode, List.flatMap_nil, List.append_nil]
      exact hRing
  | cons args commands ih =>
      obtain ⟨hServable, hAnswerable, hRest⟩ := h
      obtain ⟨next, middle, r, hServe, hOne, hForm, hNextReply, hMiddle, hMiddleSize⟩ :=
        hAnswerable.serves hServable hReply hRing hSize
      obtain ⟨last, rb', w', talk, hRun, hTalk, hCommands, hClient, hForms, hLast, hQueues,
          hSize'⟩ :=
        ih (fun xs hxs => hne xs (List.mem_cons_of_mem _ hxs)) hNextReply hMiddle hMiddleSize
          (hRest next middle hServe)
      refine ⟨last, rb', w', ⟨i, args, r⟩ :: talk, ?_, ?_, ?_, ?_, ?_, hLast, ?_, hSize'⟩
      · rw [runCommands, List.foldl_cons]
        change runCommands (servedCommands stale) ((servedCommands stale).body
          (getCommandType (args.headD stale)) args (some (s, rb))) commands = _
        rw [servedCommands_body (hne args (List.mem_cons_self ..)), hServe]
        exact hRun
      · exact .exchange (serveCommand_eq_some hServe).1 hOne hTalk
      · rw [List.map_cons, hCommands]
      · intro e he
        rcases List.mem_cons.mp he with rfl | he
        · rfl
        · exact hClient e he
      · intro e he
        rcases List.mem_cons.mp he with rfl | he
        · exact hForm
        · exact hForms e he
      · rw [List.append_assoc] at hQueues
        exact hQueues

/-- A flush takes from the ring what the socket accepts. -/
theorem RingBuffer.Queues.accepted_flush {next : RingBuffer} {accepted sent : Bytes}
    {results : List WriteResult} {returned : UInt64} (h : rb.Queues q w)
    (hFlush : flushClientOutput rb 0 results = some (next, sent, returned)) :
    ∃ q', next.Queues q' w ∧ next.size = rb.size ∧ (accepted ++ sent) ++ q' = accepted ++ q := by
  obtain ⟨next', k, returned', hSame, hNext, hSize⟩ := h.flush 0 results
  rw [hFlush] at hSame
  cases hSame
  refine ⟨q.drop k, hNext, hSize, ?_⟩
  rw [List.append_assoc, List.take_append_drop]

/-- A socket that takes enough leaves nothing in the ring. -/
theorem RingBuffer.Queues.flush_all {next : RingBuffer} {sent : Bytes} {n : Nat}
    {results : List WriteResult} {returned : UInt64} (h : rb.Queues q w)
    (hSize : rb.size.toNat ≤ n)
    (hFlush : flushClientOutput rb 0 (.sent n :: results) = some (next, sent, returned)) :
    next.Queues [] w := by
  have hWritable := h.writableLen
  have hLength : min n q.length = q.length := Nat.min_eq_right (by omega)
  simp only [flushClientOutput, h.rbReadable, Option.bind_eq_bind, Option.bind_some, h.readableLen,
    hLength] at hFlush
  split at hFlush
  · rename_i hEmpty
    cases hFlush
    rw [List.length_eq_zero_iff.mp hEmpty] at h
    exact h
  · obtain ⟨middle, hRead, hMiddle, -⟩ := h.rbRead (le_refl q.length)
    rw [List.drop_length] at hMiddle
    obtain ⟨last, k, returned', hRest, hLast, -⟩ := hMiddle.flush (0 + q.length) results
    simp only [hRead, Option.bind_some, hRest] at hFlush
    cases hFlush
    rw [List.drop_nil] at hLast
    exact hLast

end Talks

section Runs

variable {stale : Bytes} {streams : Nat → List (List Bytes)} {start s next : Front}
  {turns : List FrontTurn} {talk : List Exchange}

theorem sentBy_append (turns more : List FrontTurn) (i : Nat) :
    sentBy (turns ++ more) i = sentBy turns i ++ sentBy more i := List.flatMap_append

/-- The invariant of a run: what a client has got and what waits in its ring are the
replies of its exchanges, and these are its own commands. -/
structure Talking (stale : Bytes) (streams : Nat → List (List Bytes)) (start : Front)
    (turns : List FrontTurn) (s : Front) (talk : List Exchange) : Prop where
  clients : ∀ i future, sentBy turns i ++ future = encodeCommands (streams i) →
    Follows (servedCommands stale) (streams i) (s.clients i) future (sentBy turns i).length
  commands : ∀ i, (Exchange.of talk i).map Exchange.command = (s.clients i).handler.invocations
  rings : ∀ i, ∃ q w, (s.outputBuffers i).Queues q w ∧ (s.outputBuffers i).size = 65536 ∧
    s.accepted i ++ q = Exchange.encode (Exchange.of talk i)
  conversation : Conversation start.world talk s.world
  wellFormed : ∀ e ∈ talk, e.reply.WellFormed
  shouldReply : s.world.shouldReply = true
  emptied : ∀ turn ∈ turns.getLast?, ∀ i, turn.TakesAll i → (s.outputBuffers i).unread = some []

theorem talking_start (stale : Bytes) (streams : Nat → List (List Bytes)) (h : start.Starts) :
    Talking stale streams start [] start [] where
  clients := by
    have hServer : Starts { start.serverFor 0 with info := { start.info with replicas := [] } } :=
      ⟨h.clients, rfl, by simp⟩
    exact (inStep_start (servedCommands stale) streams hServer).clients
  commands := by
    intro i
    obtain ⟨pageSize, fd, mapped, rb, client, -, hClient, -⟩ := h.clients i
    rw [hClient]
    rfl
  rings := by
    intro i
    obtain ⟨pageSize, fd, mapped, hCreate⟩ := h.outputBuffers i
    refine ⟨[], 0, RingBuffer.queues_create hCreate (by decide), rbCreate_size hCreate, ?_⟩
    rw [h.accepted]
    rfl
  conversation := .nil _
  wellFormed := by simp
  shouldReply := h.shouldReply
  emptied := by simp

theorem emptied_sends {s : Front} {i j n : Nat} {rb next : RingBuffer} {q sent : Bytes} {w : Nat}
    {results : List WriteResult} {returned : UInt64} (hRing : rb.Queues q w)
    (hSize : rb.size = 65536) (hAll : i = j ∧ 65536 ≤ n)
    (hFlush : flushClientOutput rb 0 (.sent n :: results) = some (next, sent, returned)) :
    ((s.sends i next sent).outputBuffers j).unread = some [] := by
  obtain ⟨rfl, hn⟩ := hAll
  have hRoom : rb.size.toNat ≤ n := by
    rw [hSize]
    exact hn
  change (Function.update s.outputBuffers i next i).unread = some []
  rw [Function.update_self]
  exact (hRing.flush_all hRoom hFlush).unread

/-- The ring of one client is flushed; the other rings stay. -/
theorem rings_sends {s : Front} {i : Nat} {rb next : RingBuffer} {q sent : Bytes} {w : Nat}
    {results : List WriteResult} {returned : UInt64} (hRing : rb.Queues q w)
    (hSize : rb.size = 65536) (hAll : s.accepted i ++ q = Exchange.encode (Exchange.of talk i))
    (hFlush : flushClientOutput rb 0 results = some (next, sent, returned))
    (hOthers : ∀ j, j ≠ i → ∃ q w, (s.outputBuffers j).Queues q w ∧
      (s.outputBuffers j).size = 65536 ∧ s.accepted j ++ q = Exchange.encode (Exchange.of talk j))
    (j : Nat) :
    ∃ q w, ((s.sends i next sent).outputBuffers j).Queues q w ∧
      ((s.sends i next sent).outputBuffers j).size = 65536 ∧
      (s.sends i next sent).accepted j ++ q = Exchange.encode (Exchange.of talk j) := by
  simp only [Front.sends]
  by_cases hj : j = i
  · subst hj
    obtain ⟨q', hNext, hSame, hAccepted⟩ := hRing.accepted_flush hFlush
    rw [Function.update_self, Function.update_self]
    exact ⟨q', w, hNext, hSame.trans hSize, hAccepted.trans hAll⟩
  · rw [Function.update_of_ne hj, Function.update_of_ne hj]
    exact hOthers j hj

theorem Talking.flush (h : Talking stale streams start turns s talk) {i : Nat}
    {results : List WriteResult} {rb : RingBuffer} {sent : Bytes} {returned : UInt64}
    (hFlush : flushClientOutput (s.outputBuffers i) 0 results = some (rb, sent, returned)) :
    Talking stale streams start (turns ++ [.flush i results]) (s.sends i rb sent) talk where
  clients := by
    intro j future hAll
    rw [sentBy_append, show sentBy [.flush i results] j = [] from rfl, List.append_nil] at hAll ⊢
    exact h.clients j future hAll
  commands := h.commands
  rings := by
    obtain ⟨q, w, hRing, hSize, hAll⟩ := h.rings i
    exact rings_sends hRing hSize hAll hFlush fun j _ => h.rings j
  conversation := h.conversation
  wellFormed := h.wellFormed
  shouldReply := h.shouldReply
  emptied := by
    intro turn hLast j hTakes
    rw [List.getLast?_concat] at hLast
    cases hLast
    obtain ⟨q, w, hRing, hSize, -⟩ := h.rings i
    match results, hTakes with
    | .sent n :: results, hTakes => exact emptied_sends hRing hSize hTakes hFlush

theorem Talking.drain (h : Talking stale streams start turns s talk) (j n : Nat)
    (info : ServerInfo) :
    Talking stale streams start (turns ++ [.drain j n]) { s with info := info } talk where
  clients := by
    intro i future hAll
    rw [sentBy_append, show sentBy [.drain j n] i = [] from rfl, List.append_nil] at hAll ⊢
    exact h.clients i future hAll
  commands := h.commands
  rings := h.rings
  conversation := h.conversation
  wellFormed := h.wellFormed
  shouldReply := h.shouldReply
  emptied := by
    intro turn hLast i hTakes
    rw [List.getLast?_concat] at hLast
    cases hLast
    exact hTakes.elim

theorem completed_subset (commands : List (List Bytes)) (offset : Nat) :
    completed commands offset ⊆ commands := by
  induction commands generalizing offset with
  | nil => exact List.Subset.refl []
  | cons xs commands ih =>
      rw [completed]
      split
      · exact List.cons_subset_cons xs (ih _)
      · exact List.nil_subset _

/-- A read runs the commands that it completes, and nothing else. -/
theorem Talking.read (h : Talking stale streams start turns s talk) {i : Nat} {bytes : Bytes}
    {results : List WriteResult}
    (hNext : Front.Step stale s (.read i bytes results) next)
    (hOk : s.Respects streams turns (.read i bytes results))
    (hStream : sentBy (turns ++ [.read i bytes results]) i <+: encodeCommands (streams i))
    (hNonempty : ∀ xs ∈ streams i, xs ≠ [])
    (hTotal : (encodeCommands (streams i)).length < 2 ^ 64) :
    ∃ more, Talking stale streams start (turns ++ [.read i bytes results]) next (talk ++ more) := by
  obtain ⟨hClean, hAnswerable⟩ := hOk
  have hMine : sentBy [FrontTurn.read i bytes results] i = bytes := by simp [sentBy]
  obtain ⟨future, hFuture⟩ := hStream
  rw [sentBy_append, hMine, List.append_assoc] at hFuture
  have hBefore := h.clients i _ hFuture
  cases hNext with
  | @read _ _ sent _ world rb ring t returned hServe hWorld hFlush =>
  generalize hServed : some t = result at hServe
  cases hServe with
  | @read _ _ filled r last c info hRead hRegular hPropagates =>
  cases info with
  | none => cases hServed
  | some info =>
  cases hServed
  obtain ⟨hAfter, -⟩ := hBefore.receive hTotal hClean hRead
  obtain ⟨ran, hRan, hRest⟩ := hBefore.receive_rest hTotal hClean hRead
  have hCompleted : completedBy (streams i) (sentBy turns i).length
      ((sentBy turns i).length + bytes.length) = ran := by
    rw [completedBy, hAfter.completed_eq, hBefore.completed_eq, hRan, List.drop_left]
  rw [hCompleted] at hAnswerable
  have hRanNonempty : ∀ xs ∈ ran, xs ≠ [] := by
    intro xs hxs
    refine hNonempty xs (completed_subset _ ((sentBy turns i).length + bytes.length) ?_)
    rw [hAfter.completed_eq, hRan]
    exact List.mem_append_right _ hxs
  obtain ⟨q, w, hRing, hSize, hAll⟩ := h.rings i
  obtain ⟨after, rb', w', more, hRun, hTalk, hCommands, hClient, hForms, hReply, hQueues, hSize'⟩ :=
    exists_conversation stale i ran hRanNonempty
      (show s.worldNow.shouldReply = true from h.shouldReply) hRing hSize hAnswerable
  have hSame : some (after, rb') = some (world, rb) := hRun.symm.trans (hRest.symm.trans hWorld)
  cases hSame
  have hPart := Exchange.of_eq hClient
  refine ⟨more, ⟨?_, ?_, ?_, ?_, ?_, hReply, ?_⟩⟩
  · intro j rest hAllBytes
    change Follows _ _ (Function.update s.clients i c j) _ _
    by_cases hj : j = i
    · subst hj
      rw [sentBy_append, hMine, List.append_assoc] at hAllBytes
      obtain rfl : future = rest := List.append_cancel_left
        (List.append_cancel_left (hFuture.trans hAllBytes.symm))
      rw [Function.update_self, sentBy_append, hMine, List.length_append]
      exact hAfter
    · have hOther : sentBy [FrontTurn.read i bytes results] j = [] := by simp [sentBy, Ne.symm hj]
      rw [sentBy_append, hOther, List.append_nil] at hAllBytes ⊢
      rw [Function.update_of_ne hj]
      exact h.clients j rest hAllBytes
  · intro j
    change _ = (Function.update s.clients i c j).handler.invocations
    rw [Exchange.of_append, List.map_append, h.commands, hPart]
    by_cases hj : j = i
    · subst hj
      rw [if_pos rfl, hCommands, Function.update_self, hRan]
    · rw [if_neg hj, Function.update_of_ne hj, List.map_nil, List.append_nil]
  · refine rings_sends hQueues hSize' ?_ hFlush fun j hj => ?_
    · rw [Exchange.of_append, Exchange.encode_append, ← hAll, hPart, if_pos rfl, List.append_assoc]
    · rw [Exchange.of_append, hPart, if_neg hj, List.append_nil]
      exact h.rings j
  · exact h.conversation.append
      (.offsets s.info.masterReplOffset s.info.replBacklogBaseOffset hTalk)
  · intro e he
    exact (List.mem_append.mp he).elim (h.wellFormed e) (hForms e)
  · intro turn hLast j hTakes
    rw [List.getLast?_concat] at hLast
    cases hLast
    match results, hTakes with
    | .sent n :: results, hTakes => exact emptied_sends hQueues hSize' hTakes hFlush

theorem Front.Runs.talking (hStart : start.Starts)
    (hStreams : ∀ i, sentBy turns i <+: encodeCommands (streams i))
    (hNonempty : ∀ i, ∀ xs ∈ streams i, xs ≠ [])
    (hTotal : ∀ i, (encodeCommands (streams i)).length < 2 ^ 64)
    (hOk : ∀ before turn after s, turns = before ++ turn :: after →
      Front.Runs stale start before s → s.Respects streams before turn)
    (hRun : Front.Runs stale start turns s) : ∃ talk, Talking stale streams start turns s talk := by
  induction hRun with
  | nil => exact ⟨[], talking_start stale streams hStart⟩
  | @snoc middle next turns turn hBefore hStep ih =>
      obtain ⟨talk, hTalking⟩ := ih
        (fun i => (sentBy_append turns [turn] i ▸ List.prefix_append _ _).trans (hStreams i))
        (fun before other after s hSplit => hOk before other (after ++ [turn]) s (by simp [hSplit]))
      cases turn with
      | read i bytes results =>
          obtain ⟨more, hMore⟩ := hTalking.read hStep (hOk turns _ [] middle rfl hBefore)
            (hStreams i) (hNonempty i) (hTotal i)
          exact ⟨_, hMore⟩
      | flush i results =>
          cases hStep with
          | flush hFlush => exact ⟨talk, hTalking.flush hFlush⟩
      | drain j n =>
          cases hStep with
          | drain hServe => exact ⟨talk, hTalking.drain j n _⟩

/-- For any number of clients and every order of their reads, with their bytes cut
into reads and their replies cut into writes in any way: the commands are run one
by one on the shared world, those of a client in the order it has sent them, and
what a client has got, together with what waits in its ring, is one reply for each
command it has completed, in the same order. Nothing waits after a turn in which its
socket takes all. -/
theorem replies_reach_clients (stale : Bytes) (streams : Nat → List (List Bytes))
    (start : Front) (hStart : start.Starts) (turns : List FrontTurn)
    (hStreams : ∀ i, sentBy turns i <+: encodeCommands (streams i))
    (hNonempty : ∀ i, ∀ xs ∈ streams i, xs ≠ [])
    (hTotal : ∀ i, (encodeCommands (streams i)).length < 2 ^ 64)
    (hOk : ∀ before turn after s, turns = before ++ turn :: after →
      Front.Runs stale start before s → s.Respects streams before turn)
    {s : Front} (hRun : Front.Runs stale start turns s) :
    ∃ talk : List Exchange, Conversation start.world talk s.world ∧
      ∀ i, (Exchange.of talk i).map Exchange.command =
          completed (streams i) (sentBy turns i).length ∧
        ∃ waiting, (s.outputBuffers i).unread = some waiting ∧
          s.accepted i ++ waiting = Exchange.encode (Exchange.of talk i) ∧
          readReplies (Exchange.of talk i).length (s.accepted i ++ waiting) =
            some ((Exchange.of talk i).map fun e => e.reply.said) ∧
          ∀ turn ∈ turns.getLast?, turn.TakesAll i → waiting = [] := by
  obtain ⟨talk, h⟩ := hRun.talking hStart hStreams hNonempty hTotal hOk
  refine ⟨talk, h.conversation, fun i => ?_⟩
  obtain ⟨future, hFuture⟩ := hStreams i
  obtain ⟨q, w, hRing, -, hAll⟩ := h.rings i
  refine ⟨by rw [h.commands, (h.clients i future hFuture).completed_eq], q, hRing.unread, hAll, ?_,
    ?_⟩
  · have hForms : ∀ r ∈ (Exchange.of talk i).map Exchange.reply, r.WellFormed := by
      intro r hr
      obtain ⟨e, he, rfl⟩ := List.mem_map.mp hr
      exact h.wellFormed e (List.mem_of_mem_filter he)
    have hRead := readReplies_encode _ hForms
    rw [List.length_map, List.flatMap_map, List.map_map] at hRead
    rw [hAll]
    exact hRead
  · intro turn hLast hTakes
    have hEmpty := h.emptied turn hLast i hTakes
    rw [hRing.unread] at hEmpty
    exact Option.some.inj hEmpty

end Runs

/-- Clients that have just connected to an empty server. -/
def newFront : Front where
  info := ⟨0, ⟨0, 0, fun _ => 0, 1048576, 5⟩, 0, []⟩
  world := emptyWorld
  clients := fun _ => connect ⟨0, 0, fun _ => 0, 65536, 3⟩
    ⟨.regular, .none, false, none⟩
  outputBuffers := fun _ => ⟨0, 0, fun _ => 0, 65536, 3⟩
  accepted := fun _ => []

theorem starts_newFront : newFront.Starts where
  clients := fun _ => ⟨4096, 3, true, _, _, rfl, rfl, rfl, rfl⟩
  outputBuffers := fun _ => ⟨4096, 3, true, rfl⟩
  accepted := fun _ => rfl
  shouldReply := rfl

def pingTurn : FrontTurn := .read 0 (encodeCommands [[text "PING"]]) [.sent 65536]

def pingStream (i : Nat) : List (List Bytes) := if i = 0 then [[text "PING"]] else []

theorem answerable_ping : AllAnswerable [[text "PING"]] newFront.worldNow
    (newFront.outputBuffers 0) := by
  refine ⟨⟨by decide +kernel, fun next hRun => ?_⟩, ⟨?_, trivial, ?_⟩, fun _ _ _ => trivial⟩
  · cases hRun
    exact ⟨by decide +kernel, by decide +kernel⟩
  · rintro ⟨hText, -⟩
    exact absurd hText (by unfold TakesText; decide +kernel)
  · rintro ⟨hRange, -⟩
    exact absurd hRange (by decide +kernel)

theorem respects_ping (before : List FrontTurn) (turn : FrontTurn) (after : List FrontTurn)
    (s : Front) (hSplit : [pingTurn] = before ++ turn :: after)
    (hRun : Front.Runs [] newFront before s) :
    s.Respects pingStream before turn := by
  match before, hSplit with
  | [], hSplit =>
      cases hSplit
      generalize hTurns : ([] : List FrontTurn) = turns at hRun
      cases hRun with
      | nil =>
          have hCompleted : completedBy (pingStream 0) 0
              (0 + (encodeCommands [[text "PING"]]).length) = [[text "PING"]] := by decide +kernel
          refine ⟨?_, ?_⟩
          · change ¬CutsPayload (pingStream 0) (0 + (encodeCommands [[text "PING"]]).length)
            rw [Nat.zero_add]
            exact not_cutsPayload_length [[text "PING"]]
          · change AllAnswerable (completedBy (pingStream 0) 0
              (0 + (encodeCommands [[text "PING"]]).length)) _ _
            rw [hCompleted]
            exact answerable_ping
      | snoc => simp at hTurns
  | _ :: _, hSplit => simp at hSplit

theorem exists_runs_ping : ∃ s, Front.Runs [] newFront [pingTurn] s := by
  have hStart := (talking_start [] pingStream starts_newFront).clients 0
    (encodeCommands [[text "PING"]]) rfl
  rw [← List.append_nil (encodeCommands [[text "PING"]])] at hStart
  have hClean : ¬CutsPayload (pingStream 0) (0 + (encodeCommands [[text "PING"]]).length) := by
    rw [Nat.zero_add]
    exact not_cutsPayload_length [[text "PING"]]
  obtain ⟨filled, r, last, c, hRead, hType⟩ := hStart.exists_receives (by decide +kernel) hClean
    (by decide +kernel) (by decide +kernel) (by decide +kernel)
    (some (newFront.worldNow, newFront.outputBuffers 0))
  obtain ⟨hAfter, -⟩ := hStart.receive (by decide +kernel) hClean hRead
  obtain ⟨ran, hRan, hRest⟩ := hStart.receive_rest (by decide +kernel) hClean hRead
  have hInvocations := hAfter.completed_eq
  rw [show completed (pingStream 0) _ = [[text "PING"]] by decide +kernel] at hInvocations
  obtain rfl : ran = [[text "PING"]] := by
    rw [hRan] at hInvocations
    exact hInvocations.symm
  have hFlag : last.handler.client.shouldPropogateCommand = false := by
    rw [Bool.eq_false_iff, ← hRead.handler, Ne, hAfter.flag, ← hInvocations]
    rintro ⟨xs, ⟨⟩, hLast⟩
    exact absurd hLast (by decide +kernel)
  obtain ⟨world, rb, w, talk, hTalk, -, -, -, -, -, hQueues, -⟩ :=
    exists_conversation [] 0 [[text "PING"]] (by decide +kernel)
      (show newFront.worldNow.shouldReply = true from rfl) RingBuffer.queues_client rfl
      answerable_ping
  obtain ⟨next, k, returned, hFlush, -⟩ := hQueues.flush 0 [.sent 65536]
  have hInfo : if last.handler.client.shouldPropogateCommand then
      Propagates newFront.info (r.mem.take (toSize last.begin)) (some newFront.info)
      else some newFront.info = some newFront.info := by
    rw [hFlag]
    rfl
  have hServe := ServerStep.read (s := newFront.serverFor 0) (i := 0) hRead hType hInfo
  exact ⟨_, (Front.Runs.nil newFront).snoc (.read hServe (hRest.trans hTalk) hFlush)⟩

theorem replies_reach_clients_ping :
    ∃ s, Front.Runs [] newFront [pingTurn] s ∧
      ∃ talk : List Exchange, Conversation newFront.world talk s.world ∧
        ∀ i, (Exchange.of talk i).map Exchange.command =
            completed (pingStream i) (sentBy [pingTurn] i).length ∧
          ∃ waiting, (s.outputBuffers i).unread = some waiting ∧
            s.accepted i ++ waiting = Exchange.encode (Exchange.of talk i) ∧
            readReplies (Exchange.of talk i).length (s.accepted i ++ waiting) =
              some ((Exchange.of talk i).map fun e => e.reply.said) ∧
            ∀ turn ∈ [pingTurn].getLast?, turn.TakesAll i → waiting = [] := by
  obtain ⟨s, hRun⟩ := exists_runs_ping
  refine ⟨s, hRun, replies_reach_clients [] pingStream newFront starts_newFront [pingTurn] ?_ ?_ ?_
    respects_ping hRun⟩
  · intro i
    by_cases hi : i = 0
    · subst hi
      exact ⟨[], by decide +kernel⟩
    · simp [sentBy, pingTurn, Ne.symm hi]
  · intro i xs hxs
    unfold pingStream at hxs
    split at hxs
    · simp_all
    · simp at hxs
  · intro i
    unfold pingStream
    split <;> decide +kernel

end RedisServer
