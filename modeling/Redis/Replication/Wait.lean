import Redis.Lib.Runs
import Mathlib.Data.List.Basic
import Mathlib.Data.Int.Basic

/-! # Clients blocked in WAIT

A pass over the blocked clients remembers the last one it unblocked, and gives its number
of replicas to the clients behind it that ask for no later offset and no more replicas. -/
namespace Redis.Replication.Wait
open List Lib

structure Slave where
  online : Bool
  replAckOff : Int

/-- A blocked client, with the number it asked for and the one kept in `bpop`. -/
structure Waiting where
  id : Nat
  requested : Int
  reploffset : Int
  numreplicas : Int

/-- A client unblocked by acknowledgements, and the replicas at that moment. -/
structure Reply where
  client : Waiting
  number : Int
  slaves : List Slave

structure Server where
  slaves : List Slave
  clientsWaitingAcks : List Waiting
  replies : List Reply

def replicationCountAcksByOffset (slaves : List Slave) (offset : Int) : Int :=
  slaves.countP fun s => s.online && decide (s.replAckOff ≥ offset)

/-- A `long` assigned to an `int`. -/
def intOfLong (n : Int) : Int := n.bmod 4294967296

/-- A client that is not served at once is put at the head of the list. -/
def waitCommand (s : Server) (id : Nat) (woff numreplicas : Int) (multi : Bool) : Server :=
  if replicationCountAcksByOffset s.slaves woff ≥ numreplicas ∨ multi then s
  else
    { s with clientsWaitingAcks :=
        ⟨id, numreplicas, woff, intOfLong numreplicas⟩ :: s.clientsWaitingAcks }

/-- The loop of `processClientsWaitingReplicas`: who still waits, and the replies. -/
def processLoop (slaves : List Slave) : Int → Int → List Waiting → List Waiting × List Reply
  | _, _, [] => ([], [])
  | lastOffset, lastNumreplicas, c :: cs =>
    if lastOffset ≠ 0 ∧ lastOffset ≥ c.reploffset ∧ lastNumreplicas ≥ c.numreplicas then
      let r := processLoop slaves lastOffset lastNumreplicas cs
      (r.1, ⟨c, lastNumreplicas, slaves⟩ :: r.2)
    else
      let numreplicas := replicationCountAcksByOffset slaves c.reploffset
      if numreplicas ≥ c.numreplicas then
        let r := processLoop slaves c.reploffset numreplicas cs
        (r.1, ⟨c, numreplicas, slaves⟩ :: r.2)
      else
        let r := processLoop slaves lastOffset lastNumreplicas cs
        (c :: r.1, r.2)

def processClientsWaitingReplicas (s : Server) : Server :=
  let r := processLoop s.slaves 0 0 s.clientsWaitingAcks
  { s with clientsWaitingAcks := r.1, replies := s.replies ++ r.2 }

inductive Event where
  | wait (id : Nat) (woff numreplicas : Int) (multi : Bool)
  /-- Acknowledgements arrive, and replicas come, go or get online. -/
  | replicas (slaves : List Slave)
  /-- The timeout of a client is over, or it disconnects. -/
  | leave (id : Nat)
  | process

def step (s : Server) : Event → Option Server
  | .wait id woff numreplicas multi => some (waitCommand s id woff numreplicas multi)
  | .replicas slaves => some { s with slaves }
  | .leave id =>
    some { s with clientsWaitingAcks := s.clientsWaitingAcks.filter (·.id ≠ id) }
  | .process => some (processClientsWaitingReplicas s)

/-- Where the number of a satisfied client serves another one, it is also the other's. -/
def Agree (slaves : List Slave) (cs : List Waiting) : Prop :=
  ∀ a ∈ cs, ∀ c ∈ cs, c.reploffset ≤ a.reploffset →
    a.numreplicas ≤ replicationCountAcksByOffset slaves a.reploffset →
    c.numreplicas ≤ replicationCountAcksByOffset slaves a.reploffset →
    replicationCountAcksByOffset slaves c.reploffset =
      replicationCountAcksByOffset slaves a.reploffset

/-- The number asked for is an `int`, and a pass takes no number for another. -/
def Fits (s : Server) : Event → Prop
  | .wait _ _ numreplicas _ => numreplicas < 2147483648
  | .process => Agree s.slaves s.clientsWaitingAcks
  | _ => True

def Reply.Exact (r : Reply) : Prop :=
  r.number = replicationCountAcksByOffset r.slaves r.client.reploffset ∧
    r.client.requested ≤ r.number

structure Inv (s : Server) : Prop where
  kept : ∀ c ∈ s.clientsWaitingAcks, c.requested = c.numreplicas
  exact : ∀ r ∈ s.replies, r.Exact

lemma processLoop_spec {slaves all} (hagree : Agree slaves all) :
    ∀ (cs : List Waiting) (lastOffset lastNumreplicas : Int), cs ⊆ all →
      (lastOffset = 0 ∨ ∃ a ∈ all, a.reploffset = lastOffset ∧
        replicationCountAcksByOffset slaves a.reploffset = lastNumreplicas ∧
        a.numreplicas ≤ lastNumreplicas) →
      (processLoop slaves lastOffset lastNumreplicas cs).1 ⊆ all ∧
        ∀ r ∈ (processLoop slaves lastOffset lastNumreplicas cs).2, r.client ∈ all ∧
          r.number = replicationCountAcksByOffset r.slaves r.client.reploffset ∧
          r.client.numreplicas ≤ r.number
  | [], _, _, _, _ => ⟨nil_subset _, by simp [processLoop]⟩
  | c :: cs, lastOffset, lastNumreplicas, hcs, hlast => by
    obtain ⟨hc, hcs⟩ := cons_subset.mp hcs
    rw [processLoop]
    split
    · rename_i hreuse
      obtain ⟨a, ha, rfl, rfl, hle⟩ := hlast.resolve_left hreuse.1
      obtain ⟨hwait, hrest⟩ := processLoop_spec hagree cs _ _ hcs hlast
      refine ⟨hwait, forall_mem_cons.mpr ⟨⟨hc, ?_, hreuse.2.2⟩, hrest⟩⟩
      exact (hagree a ha c hc hreuse.2.1 hle hreuse.2.2).symm
    dsimp only
    split
    · rename_i henough
      obtain ⟨hwait, hrest⟩ := processLoop_spec hagree cs c.reploffset _ hcs
        (.inr ⟨c, hc, rfl, rfl, henough⟩)
      exact ⟨hwait, forall_mem_cons.mpr ⟨⟨hc, rfl, henough⟩, hrest⟩⟩
    · obtain ⟨hwait, hrest⟩ := processLoop_spec hagree cs _ _ hcs hlast
      exact ⟨cons_subset.mpr ⟨hc, hwait⟩, hrest⟩

lemma step_inv (s : Server) (e : Event) (s' : Server) (h : Inv s) (he : Fits s e)
    (hstep : step s e = some s') : Inv s' := by
  cases e with
  | wait id woff numreplicas multi =>
    cases hstep
    rw [waitCommand]
    split
    · exact h
    refine ⟨forall_mem_cons.mpr ⟨?_, h.kept⟩, h.exact⟩
    have hcount : 0 ≤ replicationCountAcksByOffset s.slaves woff := Int.natCast_nonneg _
    have hfits : numreplicas < 2147483648 := he
    have hint : intOfLong numreplicas = numreplicas := Int.bmod_eq_of_le (by omega) (by omega)
    exact hint.symm
  | replicas slaves =>
    cases hstep
    exact ⟨h.kept, h.exact⟩
  | leave id =>
    cases hstep
    exact ⟨fun c hc => h.kept c (mem_of_mem_filter hc), h.exact⟩
  | process =>
    cases hstep
    obtain ⟨hwait, hreplies⟩ := processLoop_spec he _ 0 0 (Subset.refl _) (.inl rfl)
    refine ⟨fun c hc => h.kept c (hwait hc), forall_mem_append.mpr ⟨h.exact, ?_⟩⟩
    intro r hr
    obtain ⟨hmem, hnumber, hle⟩ := hreplies r hr
    exact ⟨hnumber, h.kept _ hmem ▸ hle⟩

def start : Server := { slaves := [], clientsWaitingAcks := [], replies := [] }

/-- Along every run that meets the condition, the replies are exact. -/
theorem wait_replies_exact {events t} (hfits : Lib.Runs.Along step Fits events start)
    (hrun : Lib.Runs.run step events start = some t) : ∀ r ∈ t.replies, r.Exact :=
  (Lib.Runs.invariant_run step_inv events start t ⟨by simp [start], by simp [start]⟩ hfits hrun).exact

instance (s : Server) : (e : Event) → Decidable (Fits s e)
  | .wait .. => inferInstanceAs (Decidable (_ < _))
  | .process => inferInstanceAs (Decidable (∀ a ∈ _, ∀ c ∈ _, _))
  | .replicas _ => .isTrue trivial
  | .leave _ => .isTrue trivial

instance (r : Reply) : Decidable r.Exact := inferInstanceAs (Decidable (_ ∧ _))

/-- Client 2 asks for a later offset than client 1, and then two replicas acknowledge. -/
def twoClients (woff : Int) : List Event :=
  [.wait 1 50 1 false, .wait 2 woff 1 false, .replicas [⟨true, 150⟩, ⟨true, 60⟩], .process]

/-- Both replicas have reached both offsets: the number remembered for client 2 is also
that of client 1. -/
theorem wait_replies_exact_reused : ∃ t, Lib.Runs.run step (twoClients 60) start = some t ∧
    t.replies.map (fun r => (r.client.id, r.number)) = [(2, 2), (1, 2)] ∧
    ∀ r ∈ t.replies, r.Exact :=
  ⟨_, rfl, by decide, wait_replies_exact (Lib.Runs.along_of_along?
    (p := fun s e => decide (Fits s e)) (fun _ _ => of_decide_eq_true) (twoClients 60) start
    (by decide)) rfl⟩

/-- With the offset 100 the one replica of client 2 is the number that client 1 is replied.
A client that asks for 2^32 + 1 replicas waits for one. -/
theorem wait_replies_inexact : (∃ t, Lib.Runs.run step (twoClients 100) start = some t ∧
      t.replies.map (fun r => (r.client.id, r.number)) = [(2, 1), (1, 1)] ∧
      ¬ ∀ r ∈ t.replies, r.Exact) ∧
    ∃ t, Lib.Runs.run step [.wait 1 50 4294967297 false, .replicas [⟨true, 150⟩, ⟨true, 60⟩],
        .process] start = some t ∧
      t.replies.map (fun r => (r.client.requested, r.number)) = [(4294967297, 2)] ∧
      ¬ ∀ r ∈ t.replies, r.Exact :=
  ⟨⟨_, rfl, by decide, by decide⟩, ⟨_, rfl, by decide, by decide⟩⟩

end Redis.Replication.Wait
