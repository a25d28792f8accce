import Redis.Cluster.Election

/-! # At most one replica is elected in an epoch

A voting master grants an epoch at most once, because it only votes for an epoch above the
last one it voted for. A replica counts acknowledgements without looking at who sent them:
the counter stands for distinct votes of its own election only where no acknowledgement is
counted a second time and none is counted between the reset of the counter and the next
request, while `failover_auth_epoch` is still that of the previous attempt. -/
namespace Redis.Cluster.ElectionSafety
open Function Option List Lib Lib.Voting Election

variable {n m : Nat} {r : Fin m} {vs : List (Fin n)} {x : Replica} {acks : Votes n (Fin m)}

/-! ## What one call does -/

/-- The call leaves the election as it was. -/
structure SameElection (r x : Replica) : Prop where
  currentEpoch : r.currentEpoch ≤ x.currentEpoch
  epoch : x.failoverAuthEpoch = r.failoverAuthEpoch
  count : x.failoverAuthCount = r.failoverAuthCount
  sent : x.failoverAuthSent = r.failoverAuthSent

lemma SameElection.refl (r : Replica) : SameElection r r := ⟨le_rfl, rfl, rfl, rfl⟩

lemma sameElection_updateRank (view : ReplicaView) (r : Replica) :
    SameElection r (updateRank view r) := by
  unfold updateRank
  split
  · exact ⟨le_rfl, rfl, rfl, rfl⟩
  · exact SameElection.refl r

lemma sameElection_updateCurrentEpoch (r : Replica) (epoch : Nat) :
    SameElection r (r.updateCurrentEpoch epoch) := by
  unfold Replica.updateCurrentEpoch
  split
  · next h => exact ⟨h.le, rfl, rfl, rfl⟩
  · exact SameElection.refl r

/-- The four things `clusterHandleSlaveFailover` can do to an election. -/
inductive Failover (size : Nat) (r x : Replica) : FailoverAction → Prop where
  | kept (same : SameElection r x) : Failover size r x .wait
  | scheduled (currentEpoch : x.currentEpoch = r.currentEpoch)
      (epoch : x.failoverAuthEpoch = r.failoverAuthEpoch) (count : x.failoverAuthCount = 0)
      (sent : x.failoverAuthSent = false) : Failover size r x .wait
  | requested (unsent : r.failoverAuthSent = false)
      (currentEpoch : x.currentEpoch = r.currentEpoch + 1)
      (epoch : x.failoverAuthEpoch = r.currentEpoch + 1)
      (count : x.failoverAuthCount = r.failoverAuthCount)
      (sent : x.failoverAuthSent = true) : Failover size r x .requestAuth
  | won (same : SameElection r x) (quorum : size / 2 + 1 ≤ r.failoverAuthCount) :
      Failover size r x .replaceMaster

lemma scheduleElection_spec (size : Nat) (view : ReplicaView) (r : Replica) :
    Failover size r (scheduleElection view r) .wait := by
  unfold scheduleElection
  split <;> exact .scheduled rfl rfl rfl rfl

lemma failover_spec (size : Nat) (view : ReplicaView) (r : Replica) :
    Failover size r (clusterHandleSlaveFailover size view r).1
      (clusterHandleSlaveFailover size view r).2 := by
  have hrank := sameElection_updateRank view r
  have hepoch : (updateRank view r).currentEpoch = r.currentEpoch := by
    unfold updateRank
    split <;> rfl
  unfold clusterHandleSlaveFailover
  dsimp only
  split
  · exact .kept (SameElection.refl r)
  split
  · exact .kept (SameElection.refl r)
  split
  · exact scheduleElection_spec size view r
  split
  · exact .kept hrank
  split
  · exact .kept hrank
  split
  · next hsent =>
    exact .requested (hrank.sent ▸ hsent) (by rw [hepoch]) (by rw [hepoch]) hrank.count rfl
  split
  · next hquorum =>
    exact .won { hrank with } (hrank.count ▸ hquorum)
  · exact .kept hrank

lemma updateCurrentEpoch_le (v : Voter) (epoch : Nat) :
    epoch ≤ (v.updateCurrentEpoch epoch).currentEpoch ∧
      v.currentEpoch ≤ (v.updateCurrentEpoch epoch).currentEpoch ∧
      (v.updateCurrentEpoch epoch).lastVoteEpoch = v.lastVoteEpoch := by
  unfold Voter.updateCurrentEpoch
  split
  · next h => exact ⟨le_rfl, h.le, rfl⟩
  · next h => exact ⟨Nat.le_of_not_lt h, le_rfl, rfl⟩

/-- A voter grants its current epoch, which is that of the request and not the last one it
voted for. -/
lemma auth_spec (view : VoterView) (request : AuthRequest m) (v : Voter) :
    clusterSendFailoverAuthIfNeeded view request v = (v, false) ∨
    (v.currentEpoch ≤ request.currentEpoch ∧ v.lastVoteEpoch ≠ v.currentEpoch ∧
      clusterSendFailoverAuthIfNeeded view request v =
        ({ v with lastVoteEpoch := v.currentEpoch, votedTime := view.mstime }, true)) := by
  unfold clusterSendFailoverAuthIfNeeded
  split
  · exact .inl rfl
  next hepoch =>
  split
  · exact .inl rfl
  next hlast =>
  split
  · exact .inl rfl
  split
  · exact .inl rfl
  split
  · exact .inl rfl
  · exact .inr ⟨Nat.le_of_not_lt hepoch, hlast, rfl⟩

/-! ## The invariant -/

/-- The counter of a replica stands for the voters `vs`, all of which granted it the epoch
of its election. -/
structure Tally (acks : Votes n (Fin m)) (requests : List (AuthRequest m)) (r : Fin m)
    (x : Replica) (vs : List (Fin n)) : Prop where
  epoch : x.failoverAuthEpoch ≤ x.currentEpoch
  count : x.failoverAuthCount = vs.length
  nodup : vs.Nodup
  granted : ∀ v ∈ vs, (v, r, x.failoverAuthEpoch) ∈ acks
  unsent : x.failoverAuthSent = false → vs = []
  ceiling : ∀ v e, (v, r, e) ∈ acks → e ≤ x.failoverAuthEpoch
  asked : ∀ q ∈ requests, q.src = r → q.currentEpoch ≤ x.failoverAuthEpoch

/-- A voter has granted nothing above the last epoch it voted for. -/
structure Granting (acks : Votes n (Fin m)) (v : Fin n) (x : Voter) : Prop where
  behind : x.lastVoteEpoch ≤ x.currentEpoch
  recorded : ∀ r e, (v, r, e) ∈ acks → e ≤ x.lastVoteEpoch

structure Sound (s : State n m) : Prop where
  voters : ∀ v, Granting s.acks v (s.voters v)
  replicas : ∀ r, Tally s.acks s.requests r (s.replicas r) (s.counted r)
  onePerEpoch : OnePerTerm s.acks
  elected : ∀ r e, (r, e) ∈ s.elected → Majority s.acks r e

lemma sound_initial (failoverAuthSent : Fin m → Bool) : Sound (initial n m failoverAuthSent) where
  voters _ := ⟨le_rfl, nofun⟩
  replicas _ := ⟨le_rfl, rfl, nodup_nil, nofun,
    fun _ => rfl, nofun, nofun⟩
  onePerEpoch := OnePerTerm.nil
  elected _ _ h := (nomatch h)

lemma Tally.same {requests y} (h : Tally acks requests r x vs)
    (hsame : SameElection x y) : Tally acks requests r y vs where
  epoch := hsame.epoch ▸ Nat.le_trans h.epoch hsame.currentEpoch
  count := hsame.count.trans h.count
  nodup := h.nodup
  granted := hsame.epoch ▸ h.granted
  unsent hy := h.unsent (hsame.sent ▸ hy)
  ceiling := hsame.epoch ▸ h.ceiling
  asked := hsame.epoch ▸ h.asked

variable {s : State n m} {v : Fin n} {s' : State n m}

lemma Sound.setReplica (h : Sound s) (hx : Tally s.acks s.requests r x vs) :
    Sound { s.setReplica r x with counted := update s.counted r vs } where
  voters := h.voters
  replicas r' := by
    by_cases hr : r' = r
    · subst hr
      simpa only [State.setReplica, update_self] using hx
    · simpa only [State.setReplica, update_of_ne hr] using h.replicas r'
  onePerEpoch := h.onePerEpoch
  elected := h.elected

lemma Sound.same (h : Sound s)
    (hsame : SameElection (s.replicas r) x) : Sound (s.setReplica r x) := by
  have hset := h.setReplica ((h.replicas r).same hsame)
  rwa [update_eq_self] at hset

lemma Sound.setVoter (h : Sound s) {x} (hx : Granting s.acks v x) : Sound (s.setVoter v x) where
  voters := (forall_update_iff _ _).mpr ⟨hx, fun w _ => h.voters w⟩
  replicas := h.replicas
  onePerEpoch := h.onePerEpoch
  elected := h.elected

lemma Granting.learn {x y} (h : Granting acks v x) (hepoch : x.currentEpoch ≤ y.currentEpoch)
    (hlast : y.lastVoteEpoch = x.lastVoteEpoch) : Granting acks v y where
  behind := hlast ▸ Nat.le_trans h.behind hepoch
  recorded r e he := hlast ▸ h.recorded r e he

lemma Granting.fresh {x e} (h : Granting acks v x) (hnew : x.lastVoteEpoch < e) :
    ∀ r e', (v, r, e') ∈ acks → e' < e :=
  fun r e' he => Nat.lt_of_le_of_lt (h.recorded r e' he) hnew

/-- A vote for an epoch the voter has not reached before; the candidate asked for it, so it
is not above the epoch of the candidate's election. -/
lemma Sound.grant (h : Sound s) {x q}
    (hq : q ∈ s.requests) (hepoch : x.currentEpoch ≤ q.currentEpoch)
    (hlast : x.lastVoteEpoch = x.currentEpoch)
    (hnew : (s.voters v).lastVoteEpoch < x.currentEpoch) :
    Sound { s.setVoter v x with acks := (v, q.src, x.currentEpoch) :: s.acks } where
  voters := by
    refine (forall_update_iff _ _).mpr ⟨⟨hlast.le, ?_⟩, fun w hw => ⟨(h.voters w).behind, ?_⟩⟩
    · rw [hlast]
      exact fun r e he => le_of_mem_cons_self ((h.voters v).fresh hnew) he
    · exact fun r e he => (h.voters w).recorded r e (mem_of_mem_cons_other hw he)
  replicas r := by
    have hr := h.replicas r
    refine ⟨hr.epoch, hr.count, hr.nodup, fun w hw => mem_cons_of_mem _ (hr.granted w hw),
      hr.unsent, ?_, hr.asked⟩
    intro w e he
    rcases mem_cons.mp he with he | he
    · simp only [Prod.mk.injEq] at he
      obtain ⟨-, hsrc, rfl⟩ := he
      exact hepoch.trans (hr.asked q hq hsrc.symm)
    · exact hr.ceiling w e he
  onePerEpoch := h.onePerEpoch.cons ((h.voters v).fresh hnew)
  elected r e he := (h.elected r e he).mono fun _ hx => mem_cons_of_mem _ hx

/-! ## Steps -/

/-- An acknowledgement that the replica counts is counted for the first time since the
counter was reset, and after the request was sent. -/
def Orderly (s : State n m) : Step n m → Prop
  | .deliverAck v r epoch senderServesSlots =>
    (s.replicas r).accepts senderServesSlots epoch = true →
      (s.replicas r).failoverAuthSent = true ∧ v ∉ s.counted r
  | _ => True

instance (s : State n m) : (a : Step n m) → Decidable (Orderly s a)
  | .deliverAck v r epoch senderServesSlots => inferInstanceAs
      (Decidable ((s.replicas r).accepts senderServesSlots epoch = true →
        (s.replicas r).failoverAuthSent = true ∧ v ∉ s.counted r))
  | .failover .. | .deliverRequest .. | .pingVoter _ | .pingReplica _ | .deliverToVoter ..
  | .deliverToReplica .. | .bumpVoter _ | .bumpReplica _ | .demote _ => .isTrue trivial

lemma sound_failover (h : Sound s) (r : Fin m) (view : ReplicaView)
    {action} (hx : Failover n (s.replicas r) x action) :
    Sound ((s.setReplica r x).act r view x action) := by
  have hr := h.replicas r
  cases hx with
  | kept same =>
    simp only [State.act]
    split
    · next hzero =>
      have hnil : s.counted r = [] := length_eq_zero_iff.mp (hr.count ▸ same.count ▸ hzero)
      have ht := hr.same same
      rw [hnil] at ht
      exact h.setReplica ht
    · exact h.same same
  | scheduled currentEpoch epoch count sent =>
    simp only [State.act, if_pos count]
    refine h.setReplica ⟨?_, count, nodup_nil, nofun, fun _ => rfl, ?_, ?_⟩
    · rw [epoch, currentEpoch]
      exact hr.epoch
    · rw [epoch]
      exact hr.ceiling
    rw [epoch]
    exact hr.asked
  | requested unsent currentEpoch epoch count sent =>
    -- The counter was 0, so that no vote of an earlier epoch is carried over.
    have hnil := hr.unsent unsent
    have hle : (s.replicas r).failoverAuthEpoch ≤ x.failoverAuthEpoch := by
      rw [epoch]
      exact Nat.le_succ_of_le hr.epoch
    have ht : Tally s.acks s.requests r x (s.counted r) := by
      refine ⟨Nat.le_of_eq (epoch.trans currentEpoch.symm), count.trans hr.count, hr.nodup,
        ?_, fun hf => absurd (sent.symm.trans hf) (by decide), ?_, ?_⟩
      · rw [hnil]
        exact nofun
      · exact fun v e he => Nat.le_trans (hr.ceiling v e he) hle
      · exact fun q hq hsrc => Nat.le_trans (hr.asked q hq hsrc) hle
    have hset := h.setReplica ht
    rw [update_eq_self] at hset
    refine { hset with replicas := ?_ }
    intro r'
    have hr' := hset.replicas r'
    refine { hr' with asked := ?_ }
    intro q hq hsrc
    rcases mem_cons.mp hq with rfl | hq
    · subst hsrc
      simp only [State.act, State.setReplica, update_self]
      exact Nat.le_of_eq (currentEpoch.trans epoch.symm)
    · exact hr'.asked q hq hsrc
  | won same quorum =>
    have hset := h.same same
    refine { hset with elected := ?_ }
    intro r' e he
    rcases mem_cons.mp he with he | he
    · simp only [Prod.mk.injEq] at he
      obtain ⟨rfl, rfl⟩ := he
      rw [same.epoch]
      exact ⟨s.counted r', hr.nodup, hr.count ▸ quorum, hr.granted⟩
    · exact hset.elected r' e he

lemma accepts_updateCurrentEpoch (x : Replica) (e : Nat) (senderServesSlots : Bool) (epoch : Nat) :
    (x.updateCurrentEpoch e).accepts senderServesSlots epoch = x.accepts senderServesSlots epoch := by
  unfold Replica.accepts
  rw [(sameElection_updateCurrentEpoch x e).epoch]

/-- A counted acknowledgement is for the epoch of the election: it is not below, as the
code checks, and the replica has asked for none above. -/
lemma Tally.count_ack {requests}
    (h : Tally acks requests r x vs) {e senderServesSlots} (hack : (v, r, e) ∈ acks)
    (haccepts : x.accepts senderServesSlots e = true) (hsent : x.failoverAuthSent = true)
    (hnew : v ∉ vs) :
    Tally acks requests r { x with failoverAuthCount := x.failoverAuthCount + 1 } (v :: vs) where
  epoch := h.epoch
  count := by rw [h.count, length_cons]
  nodup := nodup_cons.mpr ⟨hnew, h.nodup⟩
  granted w hw := by
    rcases mem_cons.mp hw with rfl | hw
    · unfold Replica.accepts at haccepts
      simp only [Bool.and_eq_true, decide_eq_true_eq] at haccepts
      have he : e = x.failoverAuthEpoch := Nat.le_antisymm (h.ceiling w e hack) haccepts.2
      exact he ▸ hack
    · exact h.granted w hw
  unsent hf := absurd (hsent.symm.trans hf) (by decide)
  ceiling := h.ceiling
  asked := h.asked

lemma sound_deliverAck (h : Sound s) {e senderServesSlots} (hok : Orderly s (.deliverAck v r e senderServesSlots))
    (hs : step s (.deliverAck v r e senderServesSlots) = some s') : Sound s' := by
  obtain ⟨hack, rfl⟩ := Runs.of_guarded hs
  have hsame := sameElection_updateCurrentEpoch (s.replicas r) e
  unfold Replica.processAuthAck
  simp only [accepts_updateCurrentEpoch]
  split
  · next haccepts =>
    obtain ⟨hsent, hnew⟩ := hok haccepts
    exact h.setReplica (((h.replicas r).same hsame).count_ack hack
      ((accepts_updateCurrentEpoch _ _ _ _).trans haccepts) (hsame.sent.trans hsent) hnew)
  · exact h.same hsame

lemma sound_deliverRequest (h : Sound s) {q view} (hs : step s (.deliverRequest q v view) = some s') : Sound s' := by
  simp only [step, ite_none_right_eq_some, some.injEq] at hs
  obtain ⟨hq, rfl⟩ := hs
  obtain ⟨-, hle, hlast⟩ := updateCurrentEpoch_le (s.voters v) q.currentEpoch
  have hlearn := (h.voters v).learn hle hlast
  rcases auth_spec view q ((s.voters v).updateCurrentEpoch q.currentEpoch) with
    hdeny | ⟨hepoch, hne, hgrant⟩
  · rw [hdeny]
    exact h.setVoter hlearn
  rw [hgrant]
  refine h.grant hq hepoch rfl ?_
  rw [← hlast]
  exact Nat.lt_of_le_of_ne hlearn.behind hne

/-- Packets that carry nothing but an epoch, and changes of a node's own epoch or role. -/
lemma sound_step {a} (h : Sound s) (hok : Orderly s a) (hs : step s a = some s') : Sound s' := by
  cases a with
  | failover r view =>
    cases hs
    exact sound_failover h r view (failover_spec n view (s.replicas r))
  | deliverRequest q v view => exact sound_deliverRequest h hs
  | deliverAck v r e senderServesSlots => exact sound_deliverAck h hok hs
  | pingVoter v | pingReplica r =>
    cases hs
    exact { h with }
  | deliverToVoter e v =>
    obtain ⟨-, rfl⟩ := Runs.of_guarded hs
    obtain ⟨-, hle, hlast⟩ := updateCurrentEpoch_le (s.voters v) e
    exact h.setVoter ((h.voters v).learn hle hlast)
  | deliverToReplica e r =>
    obtain ⟨-, rfl⟩ := Runs.of_guarded hs
    exact h.same (sameElection_updateCurrentEpoch _ _)
  | bumpVoter v =>
    cases hs
    exact h.setVoter ((h.voters v).learn (Nat.le_succ _) rfl)
  | bumpReplica r =>
    cases hs
    exact h.same ⟨Nat.le_succ _, rfl, rfl, rfl⟩
  | demote r =>
    cases hs
    exact h.same ⟨le_rfl, rfl, rfl, rfl⟩

/-- Along every run in which no acknowledgement is counted twice or before the request, at
most one replica takes over with a given epoch. -/
theorem elected_unique (failoverAuthSent : Fin m → Bool) (steps : List (Step n m))
    (s : State n m) (hrun : Runs.run step steps (initial n m failoverAuthSent) = some s)
    (hok : Runs.Along step Orderly steps (initial n m failoverAuthSent)) (e : Nat)
    (r r' : Fin m) (hr : (r, e) ∈ s.elected) (hr' : (r', e) ∈ s.elected) : r = r' := by
  have hsound : Sound s := Runs.invariant_run (fun _ _ _ h hok hs => sound_step h hok hs) steps _ s
      (sound_initial failoverAuthSent) hok hrun
  exact Majority.unique hsound.onePerEpoch (hsound.elected r e hr) (hsound.elected r' e hr')

/-! ## Runs of two replicas and three voters -/

def electionView (mstime : Int) : ReplicaView where
  mstime := mstime
  clusterNodeTimeout := 1000
  random := 0
  slaveRank := 0
  mfEnd := false
  mfCanStart := false
  masterKnown := true
  masterFailed := true
  masterConfigEpoch := 0
  masterSlots := [0]
  slaveNoFailover := false
  dataAge := 0
  replPingSlavePeriod := 10
  slaveValidityFactor := 10

def votingView (mstime : Int) : VoterView where
  mstime := mstime
  clusterNodeTimeout := 1000
  nodeIsMaster := false
  masterKnown := true
  masterFailed := true
  slotEpoch _ := some 0

def electionRequest (r : Fin 2) (epoch : Nat) : AuthRequest 2 := ⟨r, epoch, 0, [0], false⟩

/-- A replica asks for an epoch, and two voters grant it. -/
def granted (r : Fin 2) (epoch : Nat) (mstime : Int) (v w : Fin 3) : List (Step 3 2) :=
  [.failover r (electionView mstime),
    .deliverRequest (electionRequest r epoch) v (votingView mstime),
    .deliverRequest (electionRequest r epoch) w (votingView mstime)]

/-- The acknowledgements arrive, and the replica takes over. -/
def counted (r : Fin 2) (epoch : Nat) (mstime : Int) (v w : Fin 3) : List (Step 3 2) :=
  [.deliverAck v r epoch true, .deliverAck w r epoch true, .failover r (electionView mstime)]

def orderlyRun : List (Step 3 2) :=
  .failover 0 (electionView 10000) :: (granted 0 1 10500 0 1 ++ counted 0 1 10500 0 1)

theorem elected_unique_orderlyRun :
    ∃ s, Runs.run step orderlyRun (initial 3 2 fun _ => false) = some s ∧ (0, 1) ∈ s.elected ∧
      ∀ r, (r, 1) ∈ s.elected → r = 0 := by
  have helected : (Runs.run step orderlyRun (initial 3 2 fun _ => false)).map (·.elected) =
      some [(0, 1)] := by decide
  obtain ⟨s, hs, hel⟩ := map_eq_some_iff.mp helected
  have hmem : (0, 1) ∈ s.elected := hel ▸ mem_singleton_self _
  have hok : Runs.Along step Orderly orderlyRun (initial 3 2 fun _ => false) :=
    Runs.along_of_along? (fun s a h => of_decide_eq_true h) _ _
      (by decide : Runs.along? step (fun s a => decide (Orderly s a)) _ _ = true)
  exact ⟨s, hs, hmem, fun r hr => elected_unique _ orderlyRun s hs hok 1 r 0 hr hmem⟩

/-- The first replica's acknowledgements for epoch 1 arrive after it gave up that attempt
and before it starts the next: they are counted for epoch 2, which the voters then grant to
the second replica. -/
def lateAcks : List (Step 3 2) := .failover 0 (electionView 10000) :: granted 0 1 10500 0 1 ++
    [.failover 0 (electionView 15000), .deliverAck 0 0 1 true, .deliverAck 1 0 1 true,
      .pingReplica 0, .failover 1 (electionView 15000), .deliverToReplica 1 1,
      .failover 0 (electionView 15500), .failover 0 (electionView 15500)] ++
    granted 1 2 15600 0 1 ++ counted 1 2 15600 0 1

/-- One acknowledgement that is delivered twice gives the first replica its majority; the
other two voters grant the same epoch to the second. -/
def repeatedAck : List (Step 3 2) :=
  [.failover 0 (electionView 10000), .failover 1 (electionView 10000)] ++
    granted 0 1 10500 0 0 ++ counted 0 1 10500 0 0 ++
    granted 1 1 10500 1 2 ++ counted 1 1 10500 1 2

theorem two_replicas_elected : (∃ s, Runs.run step lateAcks (initial 3 2 fun _ => false) = some s ∧
      (0, 2) ∈ s.elected ∧ (1, 2) ∈ s.elected) ∧
    (∃ s, Runs.run step repeatedAck (initial 3 2 fun _ => false) = some s ∧
      (0, 1) ∈ s.elected ∧ (1, 1) ∈ s.elected) := by
  have hlate : (Runs.run step lateAcks (initial 3 2 fun _ => false)).map (·.elected) =
      some [(1, 2), (0, 2)] := by decide +kernel
  have hrepeated : (Runs.run step repeatedAck (initial 3 2 fun _ => false)).map (·.elected) =
      some [(1, 1), (0, 1)] := by decide +kernel
  obtain ⟨s, hs, hel⟩ := map_eq_some_iff.mp hlate
  obtain ⟨t, ht, helt⟩ := map_eq_some_iff.mp hrepeated
  refine ⟨⟨s, hs, ?_⟩, ⟨t, ht, ?_⟩⟩
  · rw [hel]
    decide
  rw [helt]
  decide

/-! ## Votes -/

/-- What holds of the votes in every order of the packets. -/
structure Cast (s : State n m) : Prop where
  voters : ∀ v, Granting s.acks v (s.voters v)
  onePerEpoch : OnePerTerm s.acks

lemma Cast.setVoter (h : Cast s) {x} (hx : Granting s.acks v x) : Cast (s.setVoter v x) :=
  ⟨(forall_update_iff _ _).mpr ⟨hx, fun w _ => h.voters w⟩, h.onePerEpoch⟩

lemma cast_deliverRequest (h : Cast s) {q view}
    (hs : step s (.deliverRequest q v view) = some s') : Cast s' := by
  simp only [step, ite_none_right_eq_some, some.injEq] at hs
  obtain ⟨-, rfl⟩ := hs
  obtain ⟨-, hle, hlast⟩ := updateCurrentEpoch_le (s.voters v) q.currentEpoch
  have hlearn := (h.voters v).learn hle hlast
  rcases auth_spec view q ((s.voters v).updateCurrentEpoch q.currentEpoch) with
    hdeny | ⟨-, hne, hgrant⟩
  · rw [hdeny]
    exact h.setVoter hlearn
  rw [hgrant]
  have hfresh := hlearn.fresh (Nat.lt_of_le_of_ne hlearn.behind hne)
  refine ⟨(forall_update_iff _ _).mpr ⟨⟨le_rfl, fun r e => le_of_mem_cons_self hfresh⟩,
    fun w hw => ⟨(h.voters w).behind, fun r e he => ?_⟩⟩, h.onePerEpoch.cons hfresh⟩
  exact (h.voters w).recorded r e (mem_of_mem_cons_other hw he)

lemma cast_act (h : Cast s) (r : Fin m) (view : ReplicaView) (x : Replica) :
    ∀ action, Cast ((s.setReplica r x).act r view x action)
  | .wait => by
    rw [State.act]
    split <;> exact ⟨h.voters, h.onePerEpoch⟩
  | .requestAuth | .replaceMaster => ⟨h.voters, h.onePerEpoch⟩

lemma cast_step (s : State n m) (a : Step n m) (s' : State n m) (h : Cast s)
    (hs : step s a = some s') : Cast s' := by
  cases a with
  | failover r view =>
    cases hs
    exact cast_act h ..
  | deliverRequest q v view => exact cast_deliverRequest h hs
  | deliverAck v r e senderServesSlots =>
    obtain ⟨-, rfl⟩ := Runs.of_guarded hs
    split <;> exact ⟨h.voters, h.onePerEpoch⟩
  | deliverToVoter e v =>
    obtain ⟨-, rfl⟩ := Runs.of_guarded hs
    obtain ⟨-, hle, hlast⟩ := updateCurrentEpoch_le (s.voters v) e
    exact h.setVoter ((h.voters v).learn hle hlast)
  | deliverToReplica e r =>
    obtain ⟨-, rfl⟩ := Runs.of_guarded hs
    exact ⟨h.voters, h.onePerEpoch⟩
  | bumpVoter v =>
    cases hs
    exact h.setVoter ((h.voters v).learn (Nat.le_succ _) rfl)
  | pingVoter _ | pingReplica _ | bumpReplica _ | demote _ =>
    cases hs
    exact ⟨h.voters, h.onePerEpoch⟩

/-- However the packets are lost, repeated and reordered, a master grants an epoch to one
replica only and never one above its last vote, so no two replicas are granted it by a majority. -/
theorem votes_unique (failoverAuthSent : Fin m → Bool) (steps : List (Step n m)) (s : State n m)
    (hrun : Runs.run step steps (initial n m failoverAuthSent) = some s) :
    (∀ v, Granting s.acks v (s.voters v)) ∧ OnePerTerm s.acks ∧
      ∀ e r r', Majority s.acks r e → Majority s.acks r' e → r = r' := by
  have h := Runs.invariant_run_of_step cast_step steps _ s ⟨(sound_initial failoverAuthSent).voters,
    OnePerTerm.nil⟩ hrun
  exact ⟨h.voters, h.onePerEpoch, fun _ _ _ => Majority.unique h.onePerEpoch⟩

theorem votes_unique_lateAcks :
    ∃ s, Runs.run step lateAcks (initial 3 2 fun _ => false) = some s ∧ OnePerTerm s.acks := by
  obtain ⟨s, hs⟩ := isSome_iff_exists.mp (by decide +kernel :
    (Runs.run step lateAcks (initial 3 2 fun _ => false)).isSome = true)
  exact ⟨s, hs, (votes_unique _ lateAcks s hs).2.1⟩

end Redis.Cluster.ElectionSafety
