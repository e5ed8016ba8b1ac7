import RedisServer.Replication.FullResync
import RedisServer.Replication.FullReload
import RedisServer.Replication.ResyncReply

/-! A full resynchronisation from one end to the other. What the socket of the master
has accepted is what the socket of the replica gives, in other pieces. Between the two
ends lie the save, the output ring, the snapshot that is sent from the file, the line
and the header that the replica reads, the file it fills and the load. -/
namespace RedisServer

open Machine

namespace MasterLink

section Reception

variable {ρ : Type} {srv : ReplicaServer ρ} {s t : MasterLink ρ} {world : ρ}

/-- The line has been answered, and the snapshot has not been loaded. -/
structure Untouched (world : ρ) (s : MasterLink ρ) : Prop where
  state : s.replClientState = .receivedFullresyncResponse ∨ s.replClientState = .receivingRdbData
  control : s.control = .idle ∨ s.control = .stopped ∨ ∃ bytesRead, s.control = .receive bytesRead
  world : s.handler.client.rest = world

/-- The snapshot has just been loaded into the world as it was. -/
structure LoadsInto (srv : ReplicaServer ρ) (world : ρ) (file : Bytes) (s : MasterLink ρ) :
    Prop where
  ready : s.replClientState = .ready
  tmpRdb : s.tmpRdb = some file
  world : s.handler.client.rest = srv.rdbLoadDataFromFile file world

theorem Untouched.drain (h : Untouched world s) (bytesRead : Int) :
    Untouched world (s.drain srv bytesRead) ∨
      ∃ file, LoadsInto srv world file (s.drain srv bytesRead) := by
  unfold MasterLink.drain
  split
  · exact Or.inl ⟨h.state, Or.inr (Or.inl rfl), h.world⟩
  · dsimp only
    split
    · exact Or.inl ⟨h.state, Or.inr (Or.inl rfl), h.world⟩
    · split
      · exact Or.inl ⟨h.state, Or.inr (Or.inl rfl), h.world⟩
      · split
        · refine Or.inr ⟨_, rfl, rfl, ?_⟩
          dsimp only
          rw [h.world]
        · exact Or.inl ⟨h.state, Or.inr (Or.inr ⟨_, rfl⟩), h.world⟩

theorem Untouched.receiveStep (h : Untouched world s) (bytesRead : Option Int) :
    Untouched world (s.receiveStep srv bytesRead) ∨
      ∃ file, LoadsInto srv world file (s.receiveStep srv bytesRead) := by
  unfold MasterLink.receiveStep
  split
  · split
    · exact Or.inl ⟨h.state, Or.inr (Or.inl rfl), h.world⟩
    · split
      · exact Or.inl ⟨h.state, Or.inl rfl, h.world⟩
      · dsimp only
        split
        · exact Or.inl ⟨h.state, Or.inl rfl, h.world⟩
        · exact Or.inl ⟨h.state, Or.inl rfl, h.world⟩
        · exact Or.inl ⟨h.state, Or.inr (Or.inr ⟨_, rfl⟩), h.world⟩
        · split
          · exact Or.inl ⟨h.state, Or.inl rfl, h.world⟩
          · split
            · exact Or.inl ⟨h.state, Or.inr (Or.inl rfl), h.world⟩
            · split
              · exact Or.inl ⟨h.state, Or.inr (Or.inl rfl), h.world⟩
              · apply Untouched.drain
                exact ⟨h.state, h.control, h.world⟩
  · split
    · exact Or.inl ⟨h.state, Or.inr (Or.inl rfl), h.world⟩
    · exact h.drain _

theorem Untouched.receiveHeader (h : Untouched world s) : Untouched world s.receiveHeader := by
  unfold MasterLink.receiveHeader
  split
  · exact ⟨h.state, Or.inr (Or.inl rfl), h.world⟩
  · split
    · exact h
    · split
      · exact h
      · dsimp only
        split
        · exact ⟨h.state, Or.inr (Or.inl rfl), h.world⟩
        · split
          · exact ⟨h.state, h.control, h.world⟩
          · exact ⟨Or.inr rfl, Or.inr (Or.inr ⟨_, rfl⟩), h.world⟩

/-- No command of the master is run before the snapshot is loaded. -/
theorem Untouched.continues (h : Untouched world s) (hNext : Continues (serve srv) s t) :
    Untouched world t ∨ ∃ file, LoadsInto srv world file t := by
  unfold Continues serve at hNext
  rcases h.control with hControl | hControl | ⟨bytesRead, hControl⟩
  · rw [hControl] at hNext
    cases hNext
    left
    unfold wake
    rw [hControl]
    dsimp only
    split
    · unfold replicaHandleMasterData
      rcases h.state with hState | hState
      · rw [hState]
        exact h.receiveHeader
      · rw [hState]
        exact ⟨Or.inr hState, Or.inr (Or.inr ⟨_, rfl⟩), h.world⟩
    · exact h
  · rw [hControl] at hNext
    cases hNext
  · rw [hControl] at hNext
    cases hNext
    unfold tick
    rw [hControl]
    exact h.receiveStep bytesRead

theorem inputStep_tmpRdb (s : MasterLink ρ) : s.inputStep.tmpRdb = s.tmpRdb := by
  unfold inputStep
  split
  · rfl
  · split
    · rfl
    · dsimp only
      split
      · rfl
      · rfl
      · rfl
      · split
        · rfl
        · split
          · rfl
          · split
            · rfl
            · split <;> rfl

theorem parseStep_tmpRdb (srv : ReplicaServer ρ) (r : Range) (begin : Int) (short : Bool)
    (s : MasterLink ρ) : (s.parseStep srv r begin short).tmpRdb = s.tmpRdb := by
  unfold parseStep
  dsimp only
  split
  · rfl
  · split
    · rfl
    · unfold consume
      split <;> rfl

/-- Once it is ready, the link leaves the file alone. -/
theorem tmpRdb_of_continues (hReceives : s.ReceivesInState)
    (hEnd : s.replClientState = .ready ∨ s.replClientState = .error)
    (hNext : Continues (serve srv) s t) : t.tmpRdb = s.tmpRdb := by
  unfold Continues serve at hNext
  cases hControl : s.control with
  | idle =>
      rw [hControl] at hNext
      cases hNext
      unfold wake
      rw [hControl]
      dsimp only
      split
      · unfold replicaHandleMasterData
        rcases hEnd with hEnd | hEnd <;> rw [hEnd]
      · rfl
  | stopped =>
      rw [hControl] at hNext
      cases hNext
  | input =>
      rw [hControl] at hNext
      cases hNext
      unfold tick
      rw [hControl]
      exact inputStep_tmpRdb s
  | parse r begin short =>
      rw [hControl] at hNext
      cases hNext
      unfold tick
      rw [hControl]
      exact parseStep_tmpRdb srv r begin short s
  | receive bytesRead =>
      have hState := hReceives bytesRead hControl
      rcases hEnd with hEnd | hEnd
      · cases hState.symm.trans hEnd
      · cases hState.symm.trans hEnd

/-- A link that is seen ready has loaded the file it shows. -/
theorem Untouched.visits (h : Untouched world s) (hReceives : s.ReceivesInState)
    (hVisits : Visits (serve srv) s t) (hReady : t.replClientState = .ready) :
    ∃ b file, Visits (serve srv) s b ∧ LoadsInto srv world file b ∧ t.tmpRdb = some file := by
  have hInv : t.ReceivesInState ∧ (Untouched world t ∨
      ∃ b file, Visits (serve srv) s b ∧ LoadsInto srv world file b ∧ b.ReceivesInState ∧
        Visits (serve srv) b t ∧ t.tmpRdb = some file) := by
    clear hReady
    induction hVisits with
    | refl => exact ⟨hReceives, Or.inl h⟩
    | @tail a next hPath hNext ih =>
        obtain ⟨ha, hCases⟩ := ih
        obtain ⟨hb, -⟩ := receivesInState_of_continues ha hNext
        refine ⟨hb, ?_⟩
        rcases hCases with hUntouched | ⟨b, file, hThere, hLoads, hFirst, hLater, hFile⟩
        · rcases hUntouched.continues hNext with hStays | ⟨file, hLoads⟩
          · exact Or.inl hStays
          · exact Or.inr ⟨next, file, hPath.tail hNext, hLoads, hb, .refl, hLoads.tmpRdb⟩
        · have hEnd := not_visits_of_ready hFirst hLoads.ready hLater
          have hSame := tmpRdb_of_continues ha hEnd hNext
          exact Or.inr ⟨b, file, hThere, hLoads, hFirst, hLater.tail hNext, hSame.trans hFile⟩
  rcases hInv.2 with hUntouched | ⟨b, file, hThere, hLoads, -, -, hFile⟩
  · rcases hUntouched.state with hState | hState
    · cases hState.symm.trans hReady
    · cases hState.symm.trans hReady
  · exact ⟨b, file, hThere, hLoads, hFile⟩

end Reception

section Line

variable {ρ : Type} {s : MasterLink ρ} {written : Nat} {id off snapshot tail c : Bytes}
  {before after : List ReadResult}

/-- The read that brings the end of the line runs no command. -/
theorem InLine.line_world (srv : ReplicaServer ρ) {got b body queue : Bytes}
    {rest : List ReadResult} (h : InLine s got written) (hSocket : s.socket = .bytes b :: rest)
    (hSome : b ≠ [])
    (hRoom : b.length < 65535) (hTotal : written + b.length < 2 ^ 64)
    (hText : got ++ b = 43 :: body ++ 13 :: 10 :: queue) (hBody : 13 ∉ body)
    (hLen : body.length < 256) (hAnswer : body.take 9 = text "FULLRESYN") :
    ∃ t, Visits (serve srv) s t ∧ AtHeader t queue (written + b.length) ∧ t.socket = rest ∧
      t.handler.client.rest = s.handler.client.rest := by
  obtain ⟨taken, pending, rfl, hPending, hTaking, hQueue⟩ := h.place
  have hOne : pending.length ≤ 1 := by rcases hPending with rfl | rfl <;> simp
  obtain ⟨ring, r, hInput, hNext, hSize, hAt⟩ :=
    inputStep_bytes hQueue h.size hSocket hSome (by omega) hTotal
  rw [List.append_assoc] at hText
  obtain ⟨front, next, hFront, hParse, hRun, hClient⟩ :=
    hTaking.line srv.cmds hAt hText hBody hLen hAnswer
  rw [hFront] at hNext
  obtain ⟨left, hAdvances, hLeft, hLeftSize⟩ := advances_read srv h.control hQueue hInput hNext
    (by rw [← hFront, List.length_append]) hParse rfl hRun rfl
  refine ⟨_, hAdvances.visits, ⟨rfl, ?_, ?_, hLeftSize.trans hSize, h.fresh, hLeft⟩, rfl, ?_⟩
  · exact (congrArg Client.type hClient).trans hTaking.master
  · exact congrArg Client.replClientState hClient
  · have hRest := congrArg Client.rest hClient
    exact hRest

/-- The line in any pieces runs no command. -/
theorem Resync.visits_untouched (srv : ReplicaServer ρ)
    (h : Resync s written id off snapshot tail before c after) (hRoom : c.length < 65535) :
    ∃ t, Visits (serve srv) s t ∧ t.ReceivesInState ∧ Untouched s.handler.client.rest t := by
  obtain ⟨-, queue, -, hQueue, -, -⟩ := h.visits_atHeader srv hRoom
  have hBody : 13 ∉ resyncText id off := by
    unfold resyncText
    simp only [List.mem_append, List.mem_cons, not_or]
    exact ⟨⟨by decide, h.replid.2⟩, by decide, h.offset.2⟩
  have hLength : (resyncText id off).length < 256 := by
    have hWord : (text "FULLRESYNC ").length = 11 := by decide
    have hId := h.replid.1
    have hOff := h.offset.1
    unfold resyncText
    rw [List.length_append, List.length_append, List.length_cons, hWord]
    omega
  have hPart : contents before <+: resyncLine id off := by
    refine List.prefix_of_prefix_length_le ?_ (List.prefix_append _ queue) h.first.le
    rw [← hQueue]
    exact List.prefix_append ..
  have hSmall := h.small
  rw [h.socket] at hSmall
  simp only [contents, List.flatMap_append, List.flatMap_cons, List.length_append,
    ReadResult.content] at hSmall
  change _ + ((contents before).length + (c.length + (contents after).length)) < _ at hSmall
  obtain ⟨m, hAwait, hLine, hSame, hClient⟩ := h.awaits.advances srv
  obtain ⟨u, hReads, hInLine, hRest, hClient'⟩ := hLine.advances srv hLength hBody
    (hSame.trans h.socket)
    (fun result hResult => h.quiet result (by
      rw [h.socket]
      exact List.mem_append_left _ hResult)) hPart h.first (by omega)
  have hSome : c ≠ [] := h.quiet (.bytes c) (by rw [h.socket]; simp)
  have hText : contents before ++ c = 43 :: resyncText id off ++ 13 :: 10 :: queue := by
    rw [hQueue]
    simp [resyncLine]
  obtain ⟨t, hLast, hAt, -, hWorld⟩ := hInLine.line_world srv hRest hSome hRoom (by omega)
    hText hBody hLength (by
      unfold resyncText
      rw [List.append_assoc, List.take_append_of_le_length (by decide)]
      decide)
  refine ⟨t, (hAwait.visits.trans hReads.visits).trans hLast, ?_, Or.inl hAt.state,
    Or.inl hAt.control, ?_⟩
  · intro bytesRead hControl
    rw [hAt.control] at hControl
    cases hControl
  · rw [hWorld, hClient', hClient]

/-- A snapshot that is received is loaded into the world as it was before. -/
theorem Resync.loads (srv : ReplicaServer ρ)
    (h : Resync s written id off snapshot tail before c after) (hRoom : c.length < 65535)
    (hWhole : WholeHeader id off snapshot.length (contents before ++ c))
    (hEnough : aheadLength id off snapshot.length (contents before ++ c) ≤ tail.length)
    (hFits : FitReads (65536 - aheadLength id off snapshot.length (contents before ++ c))
      snapshot.length after) :
    ∃ b, Visits (serve srv) s b ∧ LoadsInto srv s.handler.client.rest snapshot b := by
  obtain ⟨m, hHeader, hReceives, hUntouched⟩ := h.visits_untouched srv hRoom
  obtain ⟨t, hArrives, hReady, hFile, -⟩ := h.arrives srv hRoom hWhole hEnough hFits
  have hUnique : Relator.RightUnique (Continues (serve srv)) := by
    intro a b c hb hc
    have hSame : (b, true) = (c, true) := hb.symm.trans hc
    cases hSame
    rfl
  have hLater : Visits (serve srv) m t := by
    have hOrder := Relation.ReflTransGen.total_of_right_unique hUnique hHeader hArrives
    rcases hOrder with hLater | hEarlier
    · exact hLater
    · have hStart : s.ReceivesInState := by
        intro bytesRead hControl
        rw [h.awaits.control] at hControl
        cases hControl
      have hThere : t.ReceivesInState :=
        hArrives.invariant (fun a b ha hNext => (receivesInState_of_continues ha hNext).1) hStart
      rcases not_visits_of_ready hThere hReady hEarlier with hEnd | hEnd
      all_goals
        rcases hUntouched.state with hState | hState
        all_goals cases hState.symm.trans hEnd
  obtain ⟨b, file, hVisits, hLoads, hSame⟩ := hUntouched.visits hReceives hLater hReady
  cases hFile.symm.trans hSame
  exact ⟨b, hHeader.trans hVisits, hLoads⟩

end Line

end MasterLink

/-- A client with nothing in its ring has asked for a full resynchronisation, and this
is the link after some events that are in order. -/
inductive Link.FullyServed (offset : Int) (world : World) (t : Link) : Prop where
  | intro {info : ServerInfo} {stream content : Bytes} {rb : RingBuffer} {args : List Bytes}
      {results : List WriteResult} {w : Nat} {s : Link} {fields : ReplicaFields}
      {events : List LinkEvent} (hOffset : info.masterReplOffset = offset)
      (hRing : rb.Queues [] w) (hSize : rb.size = 65536)
      (hKeeps : Keeps info content stream.length) (hSmall : stream.length < 2 ^ 63)
      (hRoom : (resyncHead offset (rdbSaveDataToFile world.db)).length ≤ rb.writableLen.toNat)
      (hCursor : w + (resyncHead offset (rdbSaveDataToFile world.db)).length < 2 ^ 63)
      (hAttach : Link.attach info stream world rb args results = some s)
      (hFields : s.replica = some fields) (hState : fields.masterReplState = .sendingRdbData)
      (hOrderly : AllSteps Link.step
        (Link.Orderly [] (resyncHead offset (rdbSaveDataToFile world.db))) (some s) events)
      (hRun : (run Link.step (some s) events).1 = some t) : FullyServed offset world t

/-- The replica has sent its `PSYNC`, and its socket gives what the one of the master
has accepted, in any pieces; `c` is the one that brings the end of the line. -/
structure MasterLink.Hears (s : MasterLink (Option World)) (written : Nat) (line accepted : Bytes)
    (before : List ReadResult) (c : Bytes) (after : List ReadResult) : Prop where
  awaits : s.AwaitsResync written
  socket : s.socket = before ++ .bytes c :: after
  quiet : ∀ result ∈ s.socket, result.Quiet
  channel : contents s.socket = accepted
  first : (contents before).length < line.length
  last : line.length ≤ (contents before ++ c).length
  small : written + accepted.length < 2 ^ 63

/-- The whole snapshot has been accepted, and the reads of the replica are such that
it is received. -/
structure MasterLink.FitsReads (head snapshot accepted : Bytes) (before : List ReadResult)
    (c : Bytes) (after : List ReadResult) : Prop where
  all : head.length + snapshot.length ≤ accepted.length
  room : c.length < 65535
  whole : head.length ≤ (contents before ++ c).length
  enough : (contents before ++ c).length - head.length ≤
    accepted.length - (head.length + snapshot.length)
  fits : MasterLink.FitReads (65536 - ((contents before ++ c).length - head.length))
    snapshot.length after

section Ends

variable {offset : Int} {world mine : World} {t : Link} {s : MasterLink (Option World)}
  {written : Nat} {c : Bytes} {before after : List ReadResult}

theorem Link.FullyServed.accepted (h : t.FullyServed offset world) :
    (0 ≤ offset ∧ offset < 2 ^ 63) ∧ ∃ stream, t.accepted <+:
      resyncHead offset (rdbSaveDataToFile world.db) ++ rdbSaveDataToFile world.db ++ stream := by
  obtain ⟨rfl, hRing, hSize, hKeeps, hSmall, hRoom, hCursor, hAttach, hFields, hState, hOrderly,
    hRun⟩ := h
  rename_i info stream content rb args results w s fields events
  have hServes :=
    Link.serves_of_attach hRing hSize hKeeps hSmall rfl hRoom hCursor hAttach hFields hState
  have hAll := throughout_of_allSteps
    (I := fun s => ∃ t, s = some t ∧ t.Serves []
      (resyncHead info.masterReplOffset (rdbSaveDataToFile world.db))
      (rdbSaveDataToFile world.db) stream.length)
    (P := Link.Orderly [] (resyncHead info.masterReplOffset (rdbSaveDataToFile world.db)))
    (by
      rintro _ event ⟨t, rfl, hServes⟩ hOrderly
      exact hServes.step hOrderly) ⟨s, rfl, hServes⟩ hOrderly
  obtain ⟨last, hLast, hDone⟩ := hAll.last
  rw [hRun] at hLast
  cases hLast
  have hOffset := hKeeps.offset
  have hServed := hDone.accepted
  rw [List.nil_append] at hServed
  exact ⟨⟨by omega, by omega⟩, t.stream.drop stream.length, hServed⟩

theorem MasterLink.Hears.resync {id off snapshot tail : Bytes}
    (h : s.Hears written (resyncLine id off)
      (resyncLine id off ++ snapshotHeader snapshot.length ++ snapshot ++ tail) before c after)
    (hId : id.length ≤ 40 ∧ 13 ∉ id) (hOff : off.length ≤ 20 ∧ 13 ∉ off) (hSome : snapshot ≠ []) :
    s.Resync written id off snapshot tail before c after where
  awaits := h.awaits
  replid := hId
  offset := hOff
  some := hSome
  socket := h.socket
  quiet := h.quiet
  stream := h.channel
  first := h.first
  last := h.last
  small := by
    rw [h.channel]
    exact h.small

/-- A replica that holds nothing of its own and asks for a full resynchronisation gets
ready with the data that its master had when it was asked. -/
theorem full_resync_end_to_end (stale port : Bytes) (hMaster : t.FullyServed offset world)
    (hHears : s.Hears written (fullresyncLine offset) t.accepted before c after)
    (hReads : MasterLink.FitsReads (resyncHead offset (rdbSaveDataToFile world.db))
      (rdbSaveDataToFile world.db) t.accepted before c after)
    (hReach : world.db.Reachable) (hSurvives : ∀ e ∈ world.db.h.entries, EntrySurvives e)
    (hCount : CountCovers world.db) (hMine : s.handler.client.rest = some mine)
    (hOnly : HoldsOnly world.db mine.db) :
    ∃ b copy, Visits (MasterLink.serve (redisReplica stale port)) s b ∧
      b.replClientState = .ready ∧ b.handler.client.rest = some copy ∧
      Restored world.db copy.db := by
  obtain ⟨hOffset, stream, hAccepted⟩ := hMaster.accepted
  have hAnnounced := announced_masterReplid hOffset
  have hSome : rdbSaveDataToFile world.db ≠ [] := by simp [rdbSaveDataToFile]
  -- What was accepted is the head, the snapshot, and something behind it.
  obtain ⟨tail, hTail⟩ : resyncHead offset (rdbSaveDataToFile world.db) ++
      rdbSaveDataToFile world.db <+: t.accepted := by
    refine List.prefix_of_prefix_length_le (List.prefix_append _ stream) hAccepted ?_
    rw [List.length_append]
    exact hReads.all
  have hHead : resyncHead offset (rdbSaveDataToFile world.db) =
      resyncLine masterReplid (intText offset) ++
        snapshotHeader (rdbSaveDataToFile world.db).length := by
    rw [resyncHead, fullresyncLine_eq_resyncLine]
  rw [← hTail, fullresyncLine_eq_resyncLine, hHead] at hHears
  rw [← hTail, hHead] at hReads
  have hResync := hHears.resync hAnnounced.replid
    ⟨hAnnounced.offset_length, (oneLine_intText offset).1⟩ hSome
  have hEnough : MasterLink.aheadLength masterReplid (intText offset)
      (rdbSaveDataToFile world.db).length (contents before ++ c) ≤ tail.length := by
    have hAhead := hReads.enough
    simp only [List.length_append] at hAhead
    unfold MasterLink.aheadLength
    simp only [List.length_append]
    omega
  obtain ⟨b, hVisits, hLoads⟩ := hResync.loads (redisReplica stale port) hReads.room hReads.whole
    hEnough hReads.fits
  have hWorld := hLoads.world
  rw [hMine] at hWorld
  exact ⟨b, _, hVisits, hLoads.ready, hWorld,
    restored_load hReach hSurvives hCount hOnly⟩

end Ends

section Requests

/-- The world of a master with one key. -/
def copiedWorld : World := { emptyWorld with db := copiedDb }

/-- What the master sends before the snapshot of its key. -/
def copiedHead : Bytes := resyncHead 27 (rdbSaveDataToFile copiedDb)

/-- A client without a past asks for the key. -/
def asksForKey : Option Link :=
  Link.attach setInfo setStream copiedWorld pongRing [text "PSYNC", text "?", text "-1"]
    [.sent 1000]

/-- The socket takes the head, and then the snapshot. -/
theorem fullyServed_asksForKey : ∃ t : Link, t.FullyServed 27 copiedWorld ∧
    t.accepted = copiedHead ++ rdbSaveDataToFile copiedDb := by
  have hSome : asksForKey.isSome = true := by decide +kernel
  obtain ⟨s, hs⟩ := Option.isSome_iff_exists.mp hSome
  have hFields : asksForKey.map (·.replica) =
      some (some ⟨.sendingRdbData, 0, 0, (rdbSaveDataToFile copiedDb).length⟩) := by
    decide +kernel
  have hLength : asksForKey.map (·.accepted.length) = some copiedHead.length := by decide +kernel
  have hSent : (run Link.step asksForKey [.epollout [.sent 1000]]).1.map (·.accepted) =
      some (copiedHead ++ rdbSaveDataToFile copiedDb) := by decide +kernel
  rw [hs] at hFields hLength hSent
  obtain ⟨t, hRun, hAccepted⟩ := Option.map_eq_some_iff.mp hSent
  have hOrderly : AllSteps Link.step (Link.Orderly [] copiedHead) (some s)
      [.epollout [.sent 1000]] := by
    refine ⟨?_, trivial⟩
    intro fields _ _
    rw [List.nil_append]
    exact (Option.some.inj hLength).ge
  exact ⟨t, .intro rfl queues_pongRing rfl keeps_setInfo (by decide +kernel) (by decide +kernel)
    (by decide +kernel) hs (Option.some.inj hFields) rfl hOrderly hRun, hAccepted⟩

/-- The link of an empty replica that has sent its `PSYNC`. -/
def newReplica (results : List ReadResult) : MasterLink (Option World) :=
  { connectMaster ⟨0, 0, fun _ => 0, 65536, 3⟩ (some emptyWorld) with
    handler := createCommandHandler ⟨.master, .sentPsync, false, some emptyWorld⟩ 256 10
    socket := results }

/-- The replica reads the head, and then the snapshot. -/
theorem hears_newReplica :
    (newReplica [.bytes copiedHead, .bytes (rdbSaveDataToFile copiedDb)]).Hears 0
      (fullresyncLine 27) (copiedHead ++ rdbSaveDataToFile copiedDb) [] copiedHead
      [.bytes (rdbSaveDataToFile copiedDb)] where
  awaits := ⟨rfl, rfl, rfl, rfl, Nat.le_refl 256, rfl, rfl, ⟨rfl, rfl⟩, RingBuffer.queues_client⟩
  socket := rfl
  quiet := by
    intro result hResult
    rcases List.mem_pair.mp hResult with rfl | rfl
    · change copiedHead ≠ []
      decide +kernel
    · change rdbSaveDataToFile copiedDb ≠ []
      decide +kernel
  channel := by decide +kernel
  first := by decide +kernel
  last := by decide +kernel
  small := by decide +kernel

/-- The key of the master arrives at the replica. -/
theorem full_resync_copies_key : ∃ b copy, Visits (MasterLink.serve (redisReplica [] []))
      (newReplica [.bytes copiedHead, .bytes (rdbSaveDataToFile copiedDb)]) b ∧
    b.replClientState = .ready ∧ b.handler.client.rest = some copy ∧
    Restored copiedDb copy.db := by
  obtain ⟨t, hServed, hAccepted⟩ := fullyServed_asksForKey
  have hHears := hears_newReplica
  rw [← hAccepted] at hHears
  refine full_resync_end_to_end [] [] hServed hHears ?_ reachable_copiedDb (by decide)
    (countCovers_of_strings (by decide) (by decide)) rfl fun key _ => rfl
  rw [hAccepted]
  exact ⟨by decide +kernel, by decide +kernel, by decide +kernel, by decide +kernel,
    by decide +kernel, trivial⟩

end Requests

end RedisServer
