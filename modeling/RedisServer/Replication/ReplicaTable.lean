import RedisServer.Machine.Run
import RedisServer.Machine.Table
import RedisServer.Protocol.CommandHandler
import Mathlib.Logic.Function.Basic

/-! The array of attached replicas, after `add_replica` and `remove_replica`.
Neither of them looks at the bounds of the array or asks whether the client is
in it already, so it is left to what the clients send that an entry is added at
most once and only while there is room. -/
namespace RedisServer

open Machine

/-- `MAX_REPLICAS`. -/
def maxReplicas : Nat := 16

/-- The connected clients with their types, by their addresses, and the entries
of the array that are in use. -/
structure ReplicaTable where
  clients : Nat → Option ClientType
  replicas : List Nat

namespace ReplicaTable

def setClient (t : ReplicaTable) (client : Nat) (type : Option ClientType) : ReplicaTable :=
  { t with clients := Function.update t.clients client type }

@[simp] theorem setClient_clients (t : ReplicaTable) (client : Nat) (type : Option ClientType) :
    (t.setClient client type).clients = Function.update t.clients client type := rfl

@[simp] theorem setClient_replicas (t : ReplicaTable) (client : Nat) (type : Option ClientType) :
    (t.setClient client type).replicas = t.replicas := rfl

/-- Behind the last entry of the array lies the counter of its entries. There is
no result after a write there. -/
def addReplica (t : ReplicaTable) (client : Nat) : Option ReplicaTable :=
  let t := t.setClient client (some .replica)
  if t.replicas.length < maxReplicas then some { t with replicas := t.replicas ++ [client] }
  else none

/-- For a client that is not found, the position stays -1 and is written to. -/
def removeReplica (t : ReplicaTable) (client : Nat) : Option ReplicaTable :=
  if client ∈ t.replicas then
    some { t with replicas := swapRemove t.replicas (t.replicas.idxOf client) }
  else none

/-- `PSYNC` attaches its client, whichever of the two resynchronisations it
comes to. -/
def handlePsync (client : Nat) (t : ReplicaTable) (args : List Bytes) : Option ReplicaTable :=
  if args.length < 3 then some t else t.addReplica client

def handleClientDisconnection (t : ReplicaTable) (client : Nat) : Option ReplicaTable := do
  let t ← if t.clients client = some .replica then t.removeReplica client else some t
  some (t.setClient client none)

end ReplicaTable

/-- A client connects, the input of a client is processed, or a client is
disconnected. Of the commands that the input completes only those named `PSYNC`
matter here, and they are given with their arguments. -/
inductive TableEvent where
  | connect (client : Nat)
  | input (client : Nat) (psyncs : List (List Bytes))
  | disconnect (client : Nat)
  deriving DecidableEq

/-- The event loop reads from a client only while it is not a replica. -/
def ReplicaTable.Reads (t : ReplicaTable) (client : Nat) : Prop :=
  t.clients client = some .regular ∨ t.clients client = some .master

instance (t : ReplicaTable) (client : Nat) : Decidable (t.Reads client) :=
  inferInstanceAs (Decidable (_ ∨ _))

namespace ReplicaTable

/-- A client that is there does not connect, and one that is not there does
nothing else. -/
def step : Option ReplicaTable → TableEvent → Option ReplicaTable × Unit
  | none, _ => (none, ())
  | some t, .connect client =>
      (some (if t.clients client = none then t.setClient client (some .regular) else t), ())
  | some t, .input client psyncs =>
      (if t.Reads client then psyncs.foldlM (handlePsync client) t else some t, ())
  | some t, .disconnect client =>
      (if t.clients client ≠ none then t.handleClientDisconnection client else some t, ())

/-- The server at its start. A replica has the link to its master by then. -/
def start (masterLink : Option Nat) : ReplicaTable where
  clients client := if masterLink = some client then some .master else none
  replicas := []

/-- The entries fit into the array, and are different clients that are connected
as replicas. -/
structure Kept (t : ReplicaTable) : Prop where
  few : t.replicas.length ≤ maxReplicas
  distinct : t.replicas.Nodup
  connected : ∀ client ∈ t.replicas, t.clients client = some .replica

/-- There was no write outside the array, and the entries are right. -/
def Intact : Option ReplicaTable → Prop
  | some t => t.Kept
  | none => False

/-- A client that is disconnected has no entry any more, and every other one
that had an entry still has one, and only one. -/
def Forgets : Option ReplicaTable → TableEvent → Prop
  | some t, .disconnect client =>
      ∃ next, (step (some t) (.disconnect client)).1 = some next ∧ client ∉ next.replicas ∧
        ∀ other ∈ t.replicas, other ≠ client → next.replicas.count other = 1
  | _, _ => True

/-- The number of times that an input attaches its client. -/
def attaches (psyncs : List (List Bytes)) : Nat := psyncs.countP fun args => 3 ≤ args.length

/-- An input attaches its client at most once, and only to an array that is not
full. -/
def Orderly : Option ReplicaTable → TableEvent → Prop
  | some t, .input client psyncs =>
      t.Reads client → attaches psyncs = 0 ∨ attaches psyncs = 1 ∧ t.replicas.length < maxReplicas
  | _, _ => True

/-- The invariant, with the clients that are replicas in both directions. -/
structure Complete (t : ReplicaTable) : Prop extends t.Kept where
  attached : ∀ client, t.clients client = some .replica → client ∈ t.replicas

section Steps

variable {t next : ReplicaTable} {client : Nat}

theorem complete_start (masterLink : Option Nat) : (start masterLink).Complete := by
  refine ⟨⟨Nat.zero_le _, List.nodup_nil, by simp [start]⟩, fun client hClient => ?_⟩
  simp only [start] at hClient
  split at hClient <;> cases hClient

/-- A change of a client that is no replica before or after. -/
theorem Complete.setClient (h : t.Complete) {type : Option ClientType}
    (hBefore : t.clients client ≠ some .replica) (hAfter : type ≠ some .replica) :
    (t.setClient client type).Complete := by
  refine ⟨⟨h.few, h.distinct, fun other hOther => ?_⟩, fun other hOther => ?_⟩
  · have hNe : other ≠ client := fun hSame => hBefore (hSame ▸ h.connected other hOther)
    rw [setClient_clients, Function.update_of_ne hNe]
    exact h.connected other hOther
  · by_cases hSame : other = client
    · rw [setClient_clients, hSame, Function.update_self] at hOther
      exact absurd hOther hAfter
    · rw [setClient_clients, Function.update_of_ne hSame] at hOther
      exact h.attached other hOther

theorem Complete.not_mem_of_reads (h : t.Complete) (hReads : t.Reads client) :
    client ∉ t.replicas := by
  intro hMem
  rw [ReplicaTable.Reads, h.connected client hMem] at hReads
  simp at hReads

/-- A client that had no entry is attached. -/
theorem Complete.addReplica (h : t.Complete) (hNew : client ∉ t.replicas)
    (hRoom : t.replicas.length < maxReplicas) :
    ∃ next, t.addReplica client = some next ∧ next.Complete ∧
      next.replicas = t.replicas ++ [client] := by
  refine ⟨_, if_pos hRoom, ⟨⟨?_, ?_, fun other hOther => ?_⟩, fun other hOther => ?_⟩, rfl⟩
  · rw [setClient_replicas, List.length_append]
    exact hRoom
  · rw [setClient_replicas]
    exact List.nodup_append_comm.mp (List.nodup_cons.mpr ⟨hNew, h.distinct⟩)
  · dsimp only [setClient_clients, setClient_replicas] at hOther ⊢
    by_cases hSame : other = client
    · rw [hSame, Function.update_self]
    · rw [Function.update_of_ne hSame]
      rcases List.mem_append.mp hOther with hMem | hMem
      · exact h.connected other hMem
      · exact absurd (List.mem_singleton.mp hMem) hSame
  · dsimp only [setClient_clients, setClient_replicas] at hOther ⊢
    by_cases hSame : other = client
    · exact List.mem_append_right _ (List.mem_singleton.mpr hSame)
    · rw [Function.update_of_ne hSame] at hOther
      exact List.mem_append_left _ (h.attached other hOther)

/-- A replica that is disconnected loses its entry, and the others keep theirs. -/
theorem Complete.disconnect_replica (h : t.Complete) (hReplica : t.clients client = some .replica) :
    ∃ next, t.handleClientDisconnection client = some next ∧ next.Complete ∧
      next.replicas.Perm (t.replicas.erase client) := by
  have hMem := h.attached client hReplica
  have hPerm := swapRemove_perm_erase hMem
  simp only [handleClientDisconnection, removeReplica, if_pos hReplica, if_pos hMem,
    Option.bind_eq_bind, Option.bind_some]
  refine ⟨_, rfl, ⟨⟨?_, ?_, fun other hOther => ?_⟩, fun other hOther => ?_⟩, hPerm⟩
  · have hLength := hPerm.length_eq
    have hFew := h.few
    rw [List.length_erase_of_mem hMem] at hLength
    dsimp only [setClient_replicas]
    omega
  · exact hPerm.nodup_iff.mpr (h.distinct.erase client)
  · have hOld := (h.distinct.mem_erase_iff).mp (hPerm.mem_iff.mp hOther)
    rw [setClient_clients, Function.update_of_ne hOld.1]
    exact h.connected other hOld.2
  · by_cases hSame : other = client
    · rw [setClient_clients, hSame, Function.update_self] at hOther
      cases hOther
    · rw [setClient_clients, Function.update_of_ne hSame] at hOther
      exact hPerm.mem_iff.mpr ((h.distinct.mem_erase_iff).mpr ⟨hSame, h.attached other hOther⟩)

/-- Any other client that is disconnected has no entry to lose. -/
theorem Complete.disconnect_other (h : t.Complete) (hOther : t.clients client ≠ some .replica) :
    ∃ next, t.handleClientDisconnection client = some next ∧ next.Complete ∧
      next.replicas = t.replicas ∧ client ∉ t.replicas := by
  simp only [handleClientDisconnection, if_neg hOther, Option.bind_eq_bind, Option.bind_some]
  exact ⟨_, rfl, h.setClient hOther (by simp), rfl, fun hMem => hOther (h.connected client hMem)⟩

theorem Complete.forgets (h : t.Complete) (event : TableEvent) : Forgets (some t) event := by
  cases event with
  | connect client => trivial
  | input client psyncs => trivial
  | disconnect client =>
      have hCount : ∀ other ∈ t.replicas, t.replicas.count other = 1 :=
        fun other hOther => List.count_eq_one_of_mem h.distinct hOther
      by_cases hThere : t.clients client = none
      · refine ⟨t, if_neg (not_not.mpr hThere), fun hMem => ?_, fun other hOther _ => hCount other hOther⟩
        rw [h.connected client hMem] at hThere
        cases hThere
      · have hStep : (step (some t) (.disconnect client)).1 = t.handleClientDisconnection client :=
          if_pos hThere
        by_cases hReplica : t.clients client = some .replica
        · obtain ⟨next, hNext, -, hPerm⟩ := h.disconnect_replica hReplica
          refine ⟨next, hStep.trans hNext, fun hMem => ?_, fun other hOther hNe => ?_⟩
          · exact h.distinct.not_mem_erase (hPerm.mem_iff.mp hMem)
          · rw [hPerm.count_eq, List.count_erase_of_ne hNe]
            exact hCount other hOther
        · obtain ⟨next, hNext, -, hSame, hNot⟩ := h.disconnect_other hReplica
          refine ⟨next, hStep.trans hNext, hSame ▸ hNot, fun other hOther _ => ?_⟩
          rw [hSame]
          exact hCount other hOther

end Steps

section Inputs

variable {t next : ReplicaTable} {client : Nat} {psyncs : List (List Bytes)}

theorem attaches_cons (args : List Bytes) (psyncs : List (List Bytes)) :
    attaches (args :: psyncs) = attaches psyncs + if args.length < 3 then 0 else 1 := by
  rw [attaches, List.countP_cons, attaches]
  by_cases hShort : args.length < 3
  · simp [hShort]
  · simp [hShort, Nat.not_lt.mp hShort]

/-- Without enough arguments nothing is done. -/
theorem foldlM_handlePsync_zero (t : ReplicaTable) (h : attaches psyncs = 0) :
    psyncs.foldlM (handlePsync client) t = some t := by
  induction psyncs with
  | nil => rfl
  | cons args psyncs ih =>
      rw [attaches_cons] at h
      split at h
      · rename_i hShort
        rw [List.foldlM_cons, handlePsync, if_pos hShort]
        exact ih h
      · omega

theorem foldlM_handlePsync_one (t : ReplicaTable) (h : attaches psyncs = 1) :
    psyncs.foldlM (handlePsync client) t = t.addReplica client := by
  induction psyncs with
  | nil => cases h
  | cons args psyncs ih =>
      rw [attaches_cons] at h
      split at h
      · rename_i hShort
        rw [List.foldlM_cons, handlePsync, if_pos hShort]
        exact ih h
      · rename_i hEnough
        rw [List.foldlM_cons, handlePsync, if_neg hEnough]
        cases hAdd : t.addReplica client with
        | none => rfl
        | some next => exact foldlM_handlePsync_zero next (by omega)

/-- Each of the others adds one more entry for the same client. -/
theorem replicas_of_foldlM (h : psyncs.foldlM (handlePsync client) t = some next) :
    next.replicas = t.replicas ++ List.replicate (attaches psyncs) client := by
  induction psyncs generalizing t with
  | nil =>
      cases h
      simp [attaches]
  | cons args psyncs ih =>
      rw [List.foldlM_cons] at h
      obtain ⟨middle, hHead, hRest⟩ := Option.bind_eq_some_iff.mp h
      rw [ih hRest, attaches_cons]
      rw [handlePsync] at hHead
      split at hHead
      · rename_i hShort
        cases hHead
        rw [if_pos hShort, Nat.add_zero]
      · rename_i hEnough
        rw [addReplica] at hHead
        split at hHead
        · cases hHead
          rw [if_neg hEnough, List.replicate_succ, setClient_replicas, List.append_assoc]
          rfl
        · cases hHead

/-- An input is harmless exactly if it attaches its client at most once, and
only to an array that is not full. -/
theorem Complete.input_iff (h : t.Complete) (hReads : t.Reads client) :
    Intact (psyncs.foldlM (handlePsync client) t) ↔
      attaches psyncs = 0 ∨ attaches psyncs = 1 ∧ t.replicas.length < maxReplicas := by
  constructor
  · intro hIntact
    cases hNext : psyncs.foldlM (handlePsync client) t with
    | none =>
        rw [hNext] at hIntact
        exact hIntact.elim
    | some next =>
        rw [hNext] at hIntact
        have hReplicas := replicas_of_foldlM hNext
        have hFew := hIntact.few
        have hOnce := List.Nodup.of_append_right (hReplicas ▸ hIntact.distinct)
        rw [List.nodup_replicate] at hOnce
        rw [hReplicas, List.length_append, List.length_replicate] at hFew
        omega
  · rintro (hNone | ⟨hOne, hRoom⟩)
    · rw [foldlM_handlePsync_zero t hNone]
      exact h.toKept
    · rw [foldlM_handlePsync_one t hOne]
      obtain ⟨next, hNext, hComplete, -⟩ := h.addReplica (h.not_mem_of_reads hReads) hRoom
      rw [hNext]
      exact hComplete.toKept

end Inputs

/-- The invariant of the process. -/
def Whole : Option ReplicaTable → Prop
  | some t => t.Complete
  | none => False

theorem Whole.intact {p : Option ReplicaTable} (h : Whole p) : Intact p := by
  cases p with
  | none => exact h
  | some t => exact Complete.toKept h

theorem step_whole {p : Option ReplicaTable} (event : TableEvent) (h : Whole p) :
    (Intact (step p event).1 ↔ Orderly p event) ∧ (Orderly p event → Whole (step p event).1) := by
  cases p with
  | none => exact h.elim
  | some t =>
      have h : t.Complete := h
      cases event with
      | connect client =>
          have hNext : Whole (step (some t) (.connect client)).1 := by
            unfold step
            dsimp only
            split
            · rename_i hNone
              exact h.setClient (by simp [hNone]) (by simp)
            · exact h
          exact ⟨iff_of_true hNext.intact trivial, fun _ => hNext⟩
      | input client psyncs =>
          by_cases hReads : t.Reads client
          · have hStep : (step (some t) (.input client psyncs)).1 =
                psyncs.foldlM (handlePsync client) t := if_pos hReads
            rw [hStep]
            have hOrderly : Orderly (some t) (.input client psyncs) ↔ attaches psyncs = 0 ∨
                attaches psyncs = 1 ∧ t.replicas.length < maxReplicas := forall_prop_of_true hReads
            rw [hOrderly, h.input_iff hReads]
            refine ⟨Iff.rfl, ?_⟩
            rintro (hNone | ⟨hOne, hRoom⟩)
            · rw [foldlM_handlePsync_zero t hNone]
              exact h
            · rw [foldlM_handlePsync_one t hOne]
              obtain ⟨next, hNext, hComplete, -⟩ :=
                h.addReplica (h.not_mem_of_reads hReads) hRoom
              rw [hNext]
              exact hComplete
          · have hStep : (step (some t) (.input client psyncs)).1 = some t := if_neg hReads
            rw [hStep]
            exact ⟨iff_of_true h.toKept fun hOther => absurd hOther hReads, fun _ => h⟩
      | disconnect client =>
          have hNext : Whole (step (some t) (.disconnect client)).1 := by
            unfold step
            dsimp only
            split
            · by_cases hReplica : t.clients client = some .replica
              · obtain ⟨next, hNext, hComplete, -⟩ := h.disconnect_replica hReplica
                rw [hNext]
                exact hComplete
              · obtain ⟨next, hNext, hComplete, -⟩ := h.disconnect_other hReplica
                rw [hNext]
                exact hComplete
            · exact h
          exact ⟨iff_of_true hNext.intact trivial, fun _ => hNext⟩

/-- Exactly which runs keep the array in order: those in which every input
attaches its client at most once, and only while the array is not full. -/
theorem replica_table_iff (masterLink : Option Nat) (events : List TableEvent) :
    Throughout step Intact (some (start masterLink)) events ∧
        AllSteps step Forgets (some (start masterLink)) events ↔
      AllSteps step Orderly (some (start masterLink)) events := by
  have hStart : Whole (some (start masterLink)) := complete_start masterLink
  have hIntact : Throughout step Intact (some (start masterLink)) events ↔
      AllSteps step Orderly (some (start masterLink)) events := by
    refine throughout_iff_allSteps_of_inv (J := Whole) (fun p h => h.intact) ?_ ?_ hStart events
    · exact fun p event h => (step_whole event h).1
    · exact fun p event h => (step_whole event h).2
  have hForgets : AllSteps step Orderly (some (start masterLink)) events →
      AllSteps step Forgets (some (start masterLink)) events := by
    refine AllSteps.imp_of_inv (I := Whole) (fun p event h => (step_whole event h).2) ?_ hStart
    intro p event h _
    cases p with
    | none => exact h.elim
    | some t => exact Complete.forgets h event
  exact ⟨fun h => hIntact.mp h.1, fun h => ⟨hIntact.mpr h, hForgets h⟩⟩

/-- A client sends `PSYNC ? -1` twice in one piece, and leaves. The second entry
still refers to it. -/
theorem replica_table_psync_twice :
    ¬Throughout step Intact (some (start none))
        [.connect 1, .input 1 [[text "PSYNC", text "?", text "-1"], [text "PSYNC", text "?", text "-1"]],
          .disconnect 1] ∧
      ((run step (some (start none))
        [.connect 1, .input 1 [[text "PSYNC", text "?", text "-1"], [text "PSYNC", text "?", text "-1"]],
          .disconnect 1]).1.map fun t => (t.replicas, t.clients 1)) = some ([1], none) := by
  constructor
  · rintro ⟨-, -, hTwice, -⟩
    have hDistinct := hTwice.distinct
    revert hDistinct
    decide
  · rfl

end ReplicaTable

end RedisServer
