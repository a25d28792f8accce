import Redis.Cluster.Routing
import Redis.Lib.Runs

/-! # A slot on the move between two nodes

While the slot is `MIGRATING` on the source and `IMPORTING` on the target, each of the two
nodes decides on its own which commands it executes. What makes the decisions agree is that
the source creates no key of the slot: a key it has not is never there again, and only for
such keys does a client learn of the target. -/
namespace Redis.Cluster.Migration
open Function Option Slots Routing Lib.Runs

inductive Side where
  | source
  | target
  deriving DecidableEq, Repr

/-- A command as it was answered, and the two nodes at that moment. -/
structure Event (ν κ : Type) where
  side : Side
  query : Query κ
  route : Route ν
  source : Server ν κ
  target : Server ν κ

structure System (ν κ : Type) where
  source : Server ν κ
  target : Server ν κ
  /-- The keys of the commands that the source has answered with `ASK`. -/
  redirected : List κ
  events : List (Event ν κ)

inductive Action (κ : Type) where
  /-- A client sends a command to one of the nodes. `after` says which of its keys exist once
  the command has been executed, if it is. -/
  | command (side : Side) (q : Query κ) (after : κ → Bool)
  /-- A key expires or is evicted. -/
  | delete (side : Side) (k : κ)
  /-- `MIGRATE` at the source, which moves the keys of the slot that it finds; without
  `REPLACE` the target keeps a key it has. -/
  | migrate (q : Query κ) (replace : Bool)
  /-- The node takes the cluster to be up or down. -/
  | clusterState (side : Side) (ok : Bool)

variable {ν κ : Type} [DecidableEq ν] [DecidableEq κ] {k : κ}

/-- The keys of an executed command exist or not as the command leaves them. -/
def execute (s : Server ν κ) (q : Query κ) (after : κ → Bool) : Server ν κ :=
  { s with holds := fun k => if k ∈ q.request.keys then after k else s.holds k }

/-- An executed command changes its keys; the keys of a shard channel command are channels. -/
def answer (s : Server ν κ) (q : Query κ) (after : κ → Bool) (route : Route ν) : Server ν κ :=
  if route = .serve ∧ q.isPubsubshard = false then execute s q after else s

def System.record (s : System ν κ) (side : Side) (q : Query κ) (route : Route ν) :
    List (Event ν κ) :=
  ⟨side, q, route, s.source, s.target⟩ :: s.events

/-- A client flags a command with `ASKING` at the target only after the source has sent it
there. -/
def mayAsk (s : System ν κ) (q : Query κ) : Bool :=
  !(q.clientAsking || q.cmdAsking) || q.request.keys.all (· ∈ s.redirected)

def moves (slotOf : κ → Slot) (slot : Slot) (s : System ν κ) (q : Query κ) (replace : Bool)
    (k : κ) : Bool :=
  decide (k ∈ q.request.keys) && decide (slotOf k = slot) && s.source.holds k &&
    (replace || !s.target.holds k)

def step (slotOf : κ → Slot) (slot : Slot) (s : System ν κ) : Action κ → Option (System ν κ)
  | .command .source q after =>
    if q.isMigrate then none
    else
      let route := getNodeByQuery s.source slotOf q
      some { s with
        source := answer s.source q after route
        redirected :=
          if route = .ask s.target.myself ∧ q.isPubsubshard = false then
            q.request.keys ++ s.redirected
          else s.redirected
        events := s.record .source q route }
  | .command .target q after =>
    if q.isMigrate || !mayAsk s q then none
    else
      let route := getNodeByQuery s.target slotOf q
      some { s with
        target := answer s.target q after route
        events := s.record .target q route }
  | .delete .source k =>
    some { s with source := { s.source with holds := update s.source.holds k false } }
  | .delete .target k =>
    some { s with target := { s.target with holds := update s.target.holds k false } }
  | .migrate q replace =>
    if q.isMigrate && decide (getNodeByQuery s.source slotOf q = .serve) then
      some { s with
        source := { s.source with
          holds := fun k => s.source.holds k && !moves slotOf slot s q replace k }
        target := { s.target with
          holds := fun k => s.target.holds k || moves slotOf slot s q replace k } }
    else none
  | .clusterState .source ok => some { s with source := { s.source with stateOk := ok } }
  | .clusterState .target ok => some { s with target := { s.target with stateOk := ok } }

/-! ## What is kept -/

/-- The node on the given side, and the other one. -/
def Event.node (e : Event ν κ) : Server ν κ :=
  match e.side with
  | .source => e.source
  | .target => e.target

def Event.other (e : Event ν κ) : Server ν κ :=
  match e.side with
  | .source => e.target
  | .target => e.source

def Exclusive (slotOf : κ → Slot) (slot : Slot) (a b : Server ν κ) : Prop :=
  ∀ k, slotOf k = slot → ¬ (a.holds k = true ∧ b.holds k = true)

/-- The answer to a command about the slot. -/
structure Consistent (slotOf : κ → Slot) (slot : Slot) (e : Event ν κ) : Prop where
  /-- A command is not executed while the other node holds one of its keys. -/
  exclusive : e.route = .serve → ∀ k ∈ e.query.request.keys, slotOf k = slot →
    e.other.holds k = false
  /-- A command on several keys is executed only by a node that holds them all. -/
  complete : e.route = .serve →
    ∀ k ∈ e.query.request.keys, ∀ k' ∈ e.query.request.keys, slotOf k = slot → k ≠ k' →
      e.node.holds k = true ∧ e.node.holds k' = true
  /-- Every other command on keys of the slot is redirected or to be tried again, unless the
  cluster is down. -/
  refused : e.query.request.keys ≠ [] → (∀ k ∈ e.query.request.keys, slotOf k = slot) →
    e.route ≠ .serve →
      e.route = .tryAgain ∨ e.route = .ask e.target.myself ∨ e.route = .moved e.source.myself ∨
        (e.node.stateOk = false ∧ (e.route = .downState ∨ e.route = .downRoState))

structure Migrating (slotOf : κ → Slot) (slot : Slot) (s : System ν κ) : Prop where
  source : OpenSource s.source slot s.target.myself
  target : OpenTarget s.target slot s.source.myself
  exclusive : Exclusive slotOf slot s.source s.target
  /-- What a client has been redirected for is gone from the source. -/
  gone : ∀ k ∈ s.redirected, slotOf k = slot → s.source.holds k = false
  consistent : ∀ e ∈ s.events, e.query.isPubsubshard = false → Consistent slotOf slot e

/-! ## One step -/

section Nodes
variable {slotOf : κ → Slot} {slot : Slot} {s : Server ν κ} {n : ν} {q : Query κ} (after : κ → Bool)

lemma answer_eq (s : Server ν κ) (q : Query κ) (after : κ → Bool) (route : Route ν) :
    answer s q after route = { s with holds := (answer s q after route).holds } := by
  unfold answer
  split <;> rfl

lemma answer_holds {route} (h : (answer s q after route).holds k = true) : s.holds k = true ∨
      (route = .serve ∧ q.isPubsubshard = false ∧ k ∈ q.request.keys) := by
  unfold answer at h
  split at h
  · rename_i hserve
    by_cases hk : k ∈ q.request.keys
    · exact .inr ⟨hserve.1, hserve.2, hk⟩
    left
    simpa [execute, hk] using h
  · exact .inl h

lemma source_holds (h : OpenSource s slot n) (hmigrate : q.isMigrate = false) (hk : slotOf k = slot)
    (hafter : (answer s q after (getNodeByQuery s slotOf q)).holds k = true) :
    s.holds k = true := by
  rcases answer_holds after hafter with hheld | ⟨hserve, hshard, hmem⟩
  · exact hheld
  · exact (h.of_serve hmigrate hshard ⟨k, hmem, hk⟩ hserve k hmem).2

/-- The target creates only keys that the client was sent there for. -/
lemma target_holds (h : OpenTarget s slot n) (hmigrate : q.isMigrate = false) (hk : slotOf k = slot)
    (hafter : (answer s q after (getNodeByQuery s slotOf q)).holds k = true) :
    s.holds k = true ∨ ((q.clientAsking || q.cmdAsking) = true ∧ k ∈ q.request.keys) := by
  rcases answer_holds after hafter with hheld | ⟨hserve, hshard, hmem⟩
  · exact .inl hheld
  · exact .inr ⟨(h.of_serve hmigrate hshard ⟨k, hmem, hk⟩ hserve).1, hmem⟩

end Nodes

section Steps
variable {slotOf : κ → Slot} {slot : Slot} {s : System ν κ} {q : Query κ} {t : System ν κ}

section
variable (h : Migrating slotOf slot s)
include h

omit [DecidableEq ν] in
lemma gone_of_asking (hmay : mayAsk s q = true)
    (hasking : (q.clientAsking || q.cmdAsking) = true) (hk : slotOf k = slot)
    (hmem : k ∈ q.request.keys) : s.source.holds k = false := by
  unfold mayAsk at hmay
  rw [hasking] at hmay
  have hall : ∀ x ∈ q.request.keys, x ∈ s.redirected := by simpa using hmay
  exact h.gone k (hall k hmem) hk

section
variable (hmigrate : q.isMigrate = false)
include hmigrate

lemma source_consistent (hshard : q.isPubsubshard = false) :
    Consistent slotOf slot ⟨.source, q, getNodeByQuery s.source slotOf q, s.source, s.target⟩ := by
  refine ⟨?_, ?_, ?_⟩
  · intro hserve k hmem hk
    have hheld := (h.source.of_serve hmigrate hshard ⟨k, hmem, hk⟩ hserve k hmem).2
    exact Bool.eq_false_iff.mpr fun hboth => h.exclusive k hk ⟨hheld, hboth⟩
  · intro hserve k hmem k' hmem' hk _
    have hall := h.source.of_serve hmigrate hshard ⟨k, hmem, hk⟩ hserve
    exact ⟨(hall k hmem).2, (hall k' hmem').2⟩
  intro hne hin hserve
  obtain ⟨k, hmem⟩ := List.exists_mem_of_ne_nil _ hne
  rcases h.source.route hmigrate hshard ⟨k, hmem, hin k hmem⟩ with
    (⟨_, x, hx, hout⟩ | ⟨hdown, hok⟩) | ⟨hr, _⟩ | ⟨hr, _⟩ | hr
  · exact absurd (hin x hx) hout
  · exact .inr (.inr (.inr ⟨hok, hdown⟩))
  · exact absurd hr hserve
  · exact .inr (.inl hr)
  · exact .inl hr

lemma target_consistent
    (hmay : mayAsk s q = true) (hshard : q.isPubsubshard = false) :
    Consistent slotOf slot ⟨.target, q, getNodeByQuery s.target slotOf q, s.source, s.target⟩ := by
  refine ⟨?_, ?_, ?_⟩
  · intro hserve k hmem hk
    have hasking := (h.target.of_serve hmigrate hshard ⟨k, hmem, hk⟩ hserve).1
    exact gone_of_asking h hmay hasking hk hmem
  · intro hserve k hmem k' hmem' hk hne
    rcases (h.target.of_serve hmigrate hshard ⟨k, hmem, hk⟩ hserve).2.1 with hsame | hall
    · exact absurd (hsame k hmem k' hmem') hne
    · exact ⟨hall k hmem, hall k' hmem'⟩
  intro hne hin hserve
  obtain ⟨k, hmem⟩ := List.exists_mem_of_ne_nil _ hne
  rcases h.target.route hmigrate hshard ⟨k, hmem, hin k hmem⟩ with
    (⟨_, x, hx, hout⟩ | ⟨hdown, hok⟩) | ⟨hr, _⟩ | hr | hr
  · exact absurd (hin x hx) hout
  · exact .inr (.inr (.inr ⟨hok, hdown⟩))
  · exact absurd hr hserve
  · exact .inl hr
  · exact .inr (.inr (.inl hr))

lemma command_source
    (after : κ → Bool) (ht : step slotOf slot s (.command .source q after) = some t) :
    Migrating slotOf slot t := by
  simp only [step, hmigrate, Bool.false_eq_true, if_false, some.injEq] at ht
  subst ht
  have hshrinks := fun k (hk : slotOf k = slot) =>
    source_holds after h.source hmigrate hk
  rw [answer_eq]
  refine ⟨{ h.source with }, h.target, ?_, ?_, ?_⟩
  · intro k hk hboth
    exact h.exclusive k hk ⟨hshrinks k hk hboth.1, hboth.2⟩
  · intro k hmem hk
    refine Bool.eq_false_iff.mpr fun hafter => ?_
    have hheld := hshrinks k hk hafter
    split at hmem
    · rename_i hask
      rcases List.mem_append.mp hmem with hmem | hmem
      · have hgone := (h.source.of_ask hmigrate hask.2 ⟨k, hmem, hk⟩ hask.1 k hmem).2
        simp [hgone] at hheld
      · simp [h.gone k hmem hk] at hheld
    · simp [h.gone k hmem hk] at hheld
  · intro e he hshard
    rcases List.mem_cons.mp he with rfl | he
    · exact source_consistent h hmigrate hshard
    · exact h.consistent e he hshard

lemma command_target (hmay : mayAsk s q = true) (after : κ → Bool)
    (ht : step slotOf slot s (.command .target q after) = some t) : Migrating slotOf slot t := by
  simp only [step, hmigrate, hmay, Bool.not_true, Bool.or_self, Bool.false_eq_true, if_false,
    some.injEq] at ht
  subst ht
  have hgrows := fun k (hk : slotOf k = slot) =>
    target_holds after h.target hmigrate hk
  rw [answer_eq]
  refine ⟨h.source, { h.target with }, ?_, h.gone, ?_⟩
  · intro k hk hboth
    rcases hgrows k hk hboth.2 with hheld | ⟨hasking, hmem⟩
    · exact h.exclusive k hk ⟨hboth.1, hheld⟩
    have hgone := gone_of_asking h hmay hasking hk hmem
    simp [hgone] at hboth
  intro e he hshard
  rcases List.mem_cons.mp he with rfl | he
  · exact target_consistent h hmigrate hmay hshard
  · exact h.consistent e he hshard

end

omit [DecidableEq ν] [DecidableEq κ] in
/-- Losing keys on either side, and believing the cluster up or down, keeps the invariant. -/
lemma Migrating.shrink (a b : κ → Bool) (aok bok : Bool)
    (ha : ∀ k, a k = true → s.source.holds k = true)
    (hb : ∀ k, b k = true → s.target.holds k = true) :
    Migrating slotOf slot { s with
      source := { s.source with holds := a, stateOk := aok }
      target := { s.target with holds := b, stateOk := bok } } := by
  refine ⟨{ h.source with }, { h.target with }, ?_, ?_, h.consistent⟩
  · intro k hk hboth
    exact h.exclusive k hk ⟨ha k hboth.1, hb k hboth.2⟩
  intro k hmem hk
  exact Bool.eq_false_iff.mpr fun hafter => by simpa [h.gone k hmem hk] using ha k hafter

omit [DecidableEq ν] in
/-- A moved key is taken from the source as it is given to the target. -/
lemma Migrating.move (q : Query κ) (replace : Bool) :
    Migrating slotOf slot { s with
      source := { s.source with
        holds := fun k => s.source.holds k && !moves slotOf slot s q replace k }
      target := { s.target with
        holds := fun k => s.target.holds k || moves slotOf slot s q replace k } } := by
  refine ⟨{ h.source with }, { h.target with }, ?_, ?_, h.consistent⟩
  · intro k hk hboth
    obtain ⟨hleft, hright⟩ := hboth
    simp only [Bool.and_eq_true, Bool.not_eq_true', Bool.or_eq_true] at hleft hright
    rcases hright with hheld | hmoved
    · exact h.exclusive k hk ⟨hleft.1, hheld⟩
    rw [hleft.2] at hmoved
    cases hmoved
  · intro k hmem hk
    simp [h.gone k hmem hk]

lemma step_migrating (a : Action κ)
    (ht : step slotOf slot s a = some t) : Migrating slotOf slot t := by
  cases a with
  | command side q after =>
    cases side with
    | source =>
      cases hmigrate : q.isMigrate with
      | true => simp [step, hmigrate] at ht
      | false => exact command_source h hmigrate after ht
    | target =>
      cases hmigrate : q.isMigrate with
      | true => simp [step, hmigrate] at ht
      | false =>
        cases hmay : mayAsk s q with
        | false => simp [step, hmay] at ht
        | true => exact command_target h hmigrate hmay after ht
  | delete side k =>
    have hupdate : ∀ (f : κ → Bool) (x : κ), update f k false x = true → f x = true := by
      intro f x hx
      by_cases heq : x = k
      · subst heq
        simp at hx
      · rwa [update_of_ne heq] at hx
    cases side with
    | source =>
      cases ht
      exact h.shrink _ _ s.source.stateOk s.target.stateOk (hupdate _) (fun _ hx => hx)
    | target =>
      cases ht
      exact h.shrink _ _ s.source.stateOk s.target.stateOk (fun _ hx => hx) (hupdate _)
  | migrate q replace =>
    obtain ⟨_, rfl⟩ := Lib.Runs.of_guarded ht
    exact h.move q replace
  | clusterState side ok =>
    cases side with
    | source =>
      cases ht
      exact h.shrink s.source.holds s.target.holds ok s.target.stateOk (fun _ hx => hx)
        (fun _ hx => hx)
    | target =>
      cases ht
      exact h.shrink s.source.holds s.target.holds s.source.stateOk ok (fun _ hx => hx)
        (fun _ hx => hx)

end

end Steps

/-! ## Whole migrations -/

/-- While the slot moves, no key of it is held by both nodes and every command was answered
consistently, whatever the clients, the expiry and the moves of the keys have been doing. -/
theorem slot_migration_consistent (slotOf : κ → Slot) (slot : Slot) (s t : System ν κ)
    (as : List (Action κ)) (hsource : OpenSource s.source slot s.target.myself)
    (htarget : OpenTarget s.target slot s.source.myself)
    (hexclusive : Exclusive slotOf slot s.source s.target) (hredirected : s.redirected = [])
    (hevents : s.events = []) (hrun : run (step slotOf slot) as s = some t) :
    Exclusive slotOf slot t.source t.target ∧
      ∀ e ∈ t.events, e.query.isPubsubshard = false → Consistent slotOf slot e := by
  have hstart : Migrating slotOf slot s :=
    ⟨hsource, htarget, hexclusive, by simp [hredirected], by simp [hevents]⟩
  have hend := invariant_run_of_step (fun s a t h ht => step_migrating h a ht) as s t hstart hrun
  exact ⟨hend.exclusive, hend.consistent⟩

/-- A node of a cluster with one open slot. -/
def openNode (name : Bool) (migrating importing : Option Bool) (keys : List Nat) :
    Server Bool Nat :=
  { myself := name, slots := fun _ => some true
    migratingTo := fun _ => migrating, importingFrom := fun _ => importing
    slaveof := none, stateOk := true, allowReadsWhenDown := false
    allowPubsubshardWhenDown := true, noRedirection := false
    holds := fun k => decide (k ∈ keys) }

def plainQuery (request : Request Nat) (isMigrate asking : Bool) : Query Nat :=
  { request, isMigrate, isPubsubshard := false, isWrite := true, queuedWrite := false
    cmdAsking := false, clientAsking := asking, clientReadonly := false }

def opened : System Bool Nat :=
  { source := openNode true (some false) none [1, 2]
    target := openNode false none (some true) [], redirected := [], events := [] }

/-- Key 3 is created at the target after a redirection, key 1 is moved, a command on the keys
1 and 2 has to be tried again and key 2 is deleted by a transaction at the source. -/
def moving : List (Action Nat) :=
  [.command .source (plainQuery (.command [3]) false false) (fun _ => true),
    .command .target (plainQuery (.command [3]) false true) (fun _ => true),
    .migrate (plainQuery (.command [1]) true false) false,
    .command .source (plainQuery (.command [1, 2]) false false) (fun _ => true),
    .command .source (plainQuery (.exec [[2], [2]]) false false) (fun _ => false)]

theorem slot_migration_consistent_moving : ∃ t, run (step (fun _ => 0) 0) moving opened = some t ∧
      t.events.map (fun e => (e.side, e.route)) = [(.source, .serve), (.source, .tryAgain),
        (.target, .serve), (.source, .ask false)] ∧
      Exclusive (fun _ => 0) 0 t.source t.target ∧
      ∀ e ∈ t.events, e.query.isPubsubshard = false → Consistent (fun _ => 0) 0 e := by
  have hevents : (run (step (fun _ => 0) 0) moving opened).map
      (fun t => t.events.map (fun e => (e.side, e.route))) =
      some [(.source, .serve), (.source, .tryAgain), (.target, .serve), (.source, .ask false)] := by
    decide
  obtain ⟨t, ht, hlog⟩ := map_eq_some_iff.mp hevents
  refine ⟨t, ht, hlog, ?_⟩
  exact slot_migration_consistent (fun _ => 0) 0 opened t moving ⟨rfl, rfl, rfl⟩
    ⟨rfl, rfl, by decide, rfl, rfl⟩ (by simp [Exclusive, opened, openNode]) rfl rfl ht

end Redis.Cluster.Migration
