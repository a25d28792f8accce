import Redis.Sentinel.Election

/-! # At most one Sentinel is elected for a failover epoch

A Sentinel votes at most once in an epoch, and every vote that another one reports or
remembers was given. The votes that are counted are those of the current epoch: where that
is still the epoch of the failover, a majority of them elects at most one Sentinel. Where a
hello message has moved it on, the votes of the later epoch elect a leader for the earlier
one. -/
namespace Redis.Sentinel.ElectionSafety
open Function Option List Lib Lib.Voting Election

variable {n : Nat} {i : Fin n} {s : SentinelState n} {st : State n}

/-! ## Counting -/

lemma others_eq_erase (i : Fin n) : others i = (List.finRange n).erase i := by
  rw [List.Nodup.erase_eq_filter (nodup_finRange n)]
  refine filter_congr ?_
  intro p _
  by_cases h : p = i <;> simp [h]

lemma others_length (i : Fin n) : (others i).length + 1 = n := by
  rw [others_eq_erase, length_erase_of_mem (mem_finRange i), length_finRange]
  exact Nat.sub_add_cancel (Nat.one_le_of_lt i.isLt)

def reporting (i : Fin n) (s : SentinelState n) (c : Fin n) (e : Nat) : List (Fin n) :=
  (others i).filter fun p => (s.peers p).leader = some c ∧ (s.peers p).leaderEpoch = e

lemma countPeer_apply (e : Nat) (counters : Fin n → Nat) (peer : Peer n) (c : Fin n) :
    countPeer e counters peer c =
      counters c + if peer.leader = some c ∧ peer.leaderEpoch = e then 1 else 0 := by
  unfold countPeer sentinelLeaderIncr
  cases hl : peer.leader with
  | none => simp
  | some l =>
    by_cases he : peer.leaderEpoch = e
    · by_cases hc : c = l
      · subst hc
        simp [he]
      have hne : some l ≠ some c := fun h => hc (Option.some.inj h).symm
      simp [he, hc, hne]
    · simp [he]

lemma countPeers_eq (i : Fin n) (s : SentinelState n) (c : Fin n) :
    countPeers i s c = (reporting i s c s.currentEpoch).length := by
  have hfold : ∀ (ps : List (Fin n)) (counters : Fin n → Nat),
      ps.foldl (fun counters p => countPeer s.currentEpoch counters (s.peers p)) counters c =
        counters c + (ps.filter fun p => (s.peers p).leader = some c ∧
          (s.peers p).leaderEpoch = s.currentEpoch).length := by
    intro ps
    induction ps with
    | nil => exact fun _ => rfl
    | cons p ps ih =>
      intro counters
      rw [foldl_cons, ih, countPeer_apply]
      split
      · next h => simp [h]; omega
      · next h => simp [h]
  unfold countPeers reporting
  rw [hfold, Nat.zero_add]

/-- The winner so far has the votes that its counter says. -/
def Fair (counters : Fin n → Nat) (best : Best n) : Prop :=
  ∀ w, best.winner = some w → best.maxVotes = counters w

lemma Fair.take {counters : Fin n → Nat} {best} (h : Fair counters best)
    (c : Fin n) : Fair counters (best.take counters c) := by
  unfold Best.take
  split
  · intro w hw
    cases hw
    rfl
  · exact h

lemma fair_bestOf (order : Equiv.Perm (Fin n)) (counters : Fin n → Nat) :
    Fair counters (bestOf order counters) := by
  have hfold : ∀ (cs : List (Fin n)) (best : Best n), Fair counters best →
      Fair counters (cs.foldl (Best.take counters) best) := by
    intro cs
    induction cs with
    | nil => exact fun _ h => h
    | cons c cs ih => exact fun best h => ih _ (h.take c)
  exact hfold _ _ nofun

/-! ## A vote -/

/-- A request leaves the vote as it is, or gives it for the epoch of the request, which is
above that of the last vote. -/
lemma voteLeader_spec (view : View n) (i : Fin n) (e : Nat) (c : Fin n) (s : SentinelState n) :
    ∃ s', sentinelVoteLeader view i e c s = s' ∧ s.currentEpoch ≤ s'.currentEpoch ∧
      s'.failoverState = s.failoverState ∧ s'.failoverEpoch = s.failoverEpoch ∧
      s'.forceFailover = s.forceFailover ∧ s'.peers = s.peers ∧
      ((s'.leader = s.leader ∧ s'.leaderEpoch = s.leaderEpoch) ∨
        (s'.leader = some c ∧ s'.leaderEpoch = e ∧ s'.currentEpoch = e ∧ s.leaderEpoch < e)) := by
  refine ⟨_, rfl, ?_⟩
  unfold sentinelVoteLeader
  by_cases hnew : e > s.currentEpoch
  · simp only [if_pos hnew]
    split
    · next h => exact ⟨hnew.le, rfl, rfl, rfl, rfl, .inr ⟨rfl, rfl, rfl, h.1⟩⟩
    · exact ⟨hnew.le, rfl, rfl, rfl, rfl, .inl ⟨rfl, rfl⟩⟩
  simp only [if_neg hnew]
  split
  · next h =>
    have he : s.currentEpoch = e := Nat.le_antisymm h.2 (Nat.le_of_not_lt hnew)
    exact ⟨le_rfl, rfl, rfl, rfl, rfl, .inr ⟨rfl, he, he, h.1⟩⟩
  · exact ⟨le_rfl, rfl, rfl, rfl, rfl, .inl ⟨rfl, rfl⟩⟩

/-! ## The invariant -/

/-- The Sentinel `i` has voted for nothing above its last vote, and what it says about its
own vote and remembers of the others' was voted. -/
structure Honest (votes : Votes n (Fin n)) (i : Fin n) (s : SentinelState n) : Prop where
  behind : s.leaderEpoch ≤ s.currentEpoch
  recorded : ∀ c e, (i, c, e) ∈ votes → e ≤ s.leaderEpoch
  own : ∀ c, s.leader = some c → (i, c, s.leaderEpoch) ∈ votes
  reported : ∀ p c, (s.peers p).leader = some c → (p, c, (s.peers p).leaderEpoch) ∈ votes
  unforced : s.forceFailover = false

structure Sound (st : State n) : Prop where
  sentinels : ∀ i, Honest st.votes i (st.sentinels i)
  replies : ∀ r ∈ st.replies, ∀ c, r.leader = some c → (r.src, c, r.leaderEpoch) ∈ st.votes
  onePerEpoch : OnePerTerm st.votes
  elected : ∀ i e, (i, e) ∈ st.elected → Majority st.votes i e

lemma sound_initial : Sound (initial n) where
  sentinels _ := ⟨le_rfl, fun _ _ h => absurd h not_mem_nil, nofun,
    nofun, rfl⟩
  replies _ h := absurd h not_mem_nil
  onePerEpoch := OnePerTerm.nil
  elected _ _ h := absurd h not_mem_nil

lemma Sound.set (h : Sound st) (hs : Honest st.votes i s) : Sound (st.set i s) where
  sentinels := (forall_update_iff _ _).mpr ⟨hs, fun j _ => h.sentinels j⟩
  replies := h.replies
  onePerEpoch := h.onePerEpoch
  elected := h.elected

def RunsElected (st : State n) : Prop := ∀ i, (st.sentinels i).failoverState = .running →
    (i, (st.sentinels i).failoverEpoch) ∈ st.elected

/-- The failover that runs in `s'` ran in `s`. -/
def KeepsRunning (s s' : SentinelState n) : Prop :=
  s'.failoverState = .running → s.failoverState = .running ∧ s'.failoverEpoch = s.failoverEpoch

lemma RunsElected.set (h : RunsElected st) (hs : KeepsRunning (st.sentinels i) s) :
    RunsElected (st.set i s) := by
  refine (forall_update_iff st.sentinels fun j s => s.failoverState = .running →
    (j, s.failoverEpoch) ∈ st.elected).mpr ⟨fun hrun => ?_, fun j _ => h j⟩
  obtain ⟨hrun, hepoch⟩ := hs hrun
  rw [hepoch]
  exact h i hrun

structure Inv (st : State n) : Prop extends Sound st where
  runs : RunsElected st

lemma Inv.set (h : Inv st) (hs : Honest st.votes i s) (hruns : KeepsRunning (st.sentinels i) s) :
    Inv (st.set i s) :=
  ⟨h.toSound.set hs, h.runs.set hruns⟩

variable {s' : SentinelState n} {votes : Votes n (Fin n)} {c : Fin n} {e : Nat} {view : View n}

/-- Changes of the failover itself, and a later current epoch, do not touch votes. -/
lemma Honest.same (h : Honest votes i s) (hepoch : s.currentEpoch ≤ s'.currentEpoch)
    (hleader : s'.leader = s.leader ∨ s'.leader = none)
    (hleaderEpoch : s'.leaderEpoch = s.leaderEpoch) (hpeers : s'.peers = s.peers)
    (hforce : s'.forceFailover = false) : Honest votes i s' where
  behind := hleaderEpoch ▸ Nat.le_trans h.behind hepoch
  recorded := hleaderEpoch ▸ h.recorded
  own c hc := by
    rcases hleader with hl | hl
    · rw [hleaderEpoch]
      exact h.own c (hl ▸ hc)
    rw [hl] at hc
    cases hc
  reported := hpeers ▸ h.reported
  unforced := hforce

lemma Honest.fresh (h : Honest votes i s) (hlt : s.leaderEpoch < e) :
    ∀ c' e', (i, c', e') ∈ votes → e' < e :=
  fun c' e' hmem => Nat.lt_of_le_of_lt (h.recorded c' e' hmem) hlt

lemma Honest.other {j : Fin n} (h : Honest votes i s) (hne : i ≠ j) (c : Fin n) (e : Nat) :
    Honest ((j, c, e) :: votes) i s where
  behind := h.behind
  recorded c' e' hmem := h.recorded c' e' (mem_of_mem_cons_other hne hmem)
  own c' hc := mem_cons_of_mem _ (h.own c' hc)
  reported p c' hc := mem_cons_of_mem _ (h.reported p c' hc)
  unforced := h.unforced

lemma recordVote_same (votes : Votes n (Fin n))
    (h : s'.leaderEpoch = s.leaderEpoch) : recordVote i s s' votes = votes := by
  unfold recordVote
  rw [h]
  split
  · exact if_neg (Nat.lt_irrefl _)
  · rfl

lemma recordVote_mono {x : Fin n × Fin n × Nat} (h : x ∈ votes) : x ∈ recordVote i s s' votes := by
  unfold recordVote
  split
  · split
    · exact mem_cons_of_mem _ h
    · exact h
  · exact h

lemma recordVote_new
    (votes : Votes n (Fin n)) (hleader : s'.leader = some c) (hepoch : s'.leaderEpoch = e)
    (hlt : s.leaderEpoch < e) : recordVote i s s' votes = (i, c, e) :: votes := by
  unfold recordVote
  rw [hleader, hepoch]
  exact if_pos hlt

lemma Sound.newVote (h : Sound st)
    (hepoch : s'.currentEpoch = e) (hpeers : s'.peers = (st.sentinels i).peers)
    (hforce : s'.forceFailover = false) (hleader : s'.leader = some c)
    (hleaderEpoch : s'.leaderEpoch = e) (hlt : (st.sentinels i).leaderEpoch < e) :
    Sound { st.set i s' with votes := (i, c, e) :: st.votes } where
  sentinels := by
    refine (forall_update_iff _ _).mpr ⟨?_, fun j hj => (h.sentinels j).other hj c e⟩
    refine ⟨Nat.le_of_eq (hleaderEpoch.trans hepoch.symm), ?_, ?_, ?_, hforce⟩
    · rw [hleaderEpoch]
      exact fun c' e' hmem => le_of_mem_cons_self ((h.sentinels i).fresh hlt) hmem
    · intro c' hc
      rw [hleader] at hc
      cases hc
      rw [hleaderEpoch]
      exact mem_cons_self
    · intro p c' hc
      rw [hpeers] at hc ⊢
      exact mem_cons_of_mem _ ((h.sentinels i).reported p c' hc)
  replies r hr c' hc := mem_cons_of_mem _ (h.replies r hr c' hc)
  onePerEpoch := h.onePerEpoch.cons ((h.sentinels i).fresh hlt)
  elected j e' hmem := (h.elected j e' hmem).mono fun _ hx => mem_cons_of_mem _ hx

/-- Only what `s` says of its failover may differ from what `t` says. -/
structure SameVote (s t : SentinelState n) : Prop where
  leader : s.leader = t.leader
  leaderEpoch : s.leaderEpoch = t.leaderEpoch
  currentEpoch : s.currentEpoch = t.currentEpoch
  peers : s.peers = t.peers

lemma Sound.vote (h : Sound st)
    (hvote : SameVote s' (sentinelVoteLeader view i e c (st.sentinels i)))
    (hforce : s'.forceFailover = false) :
    Sound { st.set i s' with votes := recordVote i (st.sentinels i) s' st.votes } := by
  obtain ⟨hl, hle, hce, hp⟩ := hvote
  obtain ⟨t, ht, hepoch, -, -, -, hpeers, hcase⟩ := voteLeader_spec view i e c (st.sentinels i)
  rw [ht] at hl hle hce hp
  rcases hcase with ⟨hsame, hsameEpoch⟩ | ⟨hnew, hnewEpoch, hcur, hlt⟩
  · rw [recordVote_same st.votes (hle.trans hsameEpoch)]
    exact h.set ((h.sentinels i).same (hce ▸ hepoch) (.inl (hl.trans hsame))
      (hle.trans hsameEpoch) (hp.trans hpeers) hforce)
  rw [recordVote_new st.votes (hl.trans hnew) (hle.trans hnewEpoch) hlt]
  exact h.newVote (hce.trans hcur) (hp.trans hpeers) hforce (hl.trans hnew)
    (hle.trans hnewEpoch) hlt

/-! ## Electing a leader -/

lemma nodup_reporting (i : Fin n) (s : SentinelState n) (c : Fin n) (e : Nat) :
    (reporting i s c e).Nodup :=
  ((nodup_finRange n).filter _).filter _

lemma not_mem_reporting_self (i : Fin n) (s : SentinelState n) (c : Fin n) (e : Nat) :
    i ∉ reporting i s c e := by
  simp [reporting, others]

/-- Different Sentinels that voted for `w`: those that reported a vote in the current epoch,
and perhaps `i` itself, which is in the state `s'` and voted in `epoch`. -/
def Backers (i : Fin n) (epoch : Nat) (s s' : SentinelState n) (w : Fin n) (vs : List (Fin n)) :
    Prop :=
  vs.Nodup ∧ ∀ v ∈ vs, v ∈ reporting i s w s.currentEpoch ∨
    (v = i ∧ s'.leader = some w ∧ s'.leaderEpoch = epoch)

lemma countOwn_backers {w : Fin n} {epoch best} (hfair : Fair (countPeers i s) best)
    (hw : (best.countOwn (countPeers i s) epoch s').winner = some w) :
    ∃ vs, Backers i epoch s s' w vs ∧
      vs.length = (best.countOwn (countPeers i s) epoch s').maxVotes := by
  -- Where the own vote changes nothing, the counter of the winner is the number of reports.
  have hreports : ∀ b : Best n, b = best → b.winner = some w →
      ∃ vs, Backers i epoch s s' w vs ∧ vs.length = b.maxVotes := by
    intro b hb hwb
    refine ⟨reporting i s w s.currentEpoch, ⟨nodup_reporting i s w _, fun v hv => .inl hv⟩, ?_⟩
    rw [← countPeers_eq, hb, hfair w (hb ▸ hwb)]
  generalize hb : best.countOwn (countPeers i s) epoch s' = b at hw ⊢
  unfold Best.countOwn Best.take at hb
  split at hb
  · next myvote hl =>
    split at hb
    · next he =>
      split at hb
      · subst hb
        cases hw
        refine ⟨i :: reporting i s w s.currentEpoch, ⟨nodup_cons.mpr
          ⟨not_mem_reporting_self i s w _, nodup_reporting i s w _⟩, ?_⟩, ?_⟩
        · exact forall_mem_cons.mpr ⟨.inr ⟨rfl, hl, he⟩, fun v hv => .inl hv⟩
        rw [length_cons, ← countPeers_eq]
        simp only [sentinelLeaderIncr, update_self]
      · exact hreports b hb.symm hw
    · exact hreports b hb.symm hw
  · exact hreports b hb.symm hw

lemma getLeader_votes {epoch} {w : Fin n} (h : sentinelGetLeader view i epoch s = (s', some w)) :
    ∃ vs, Backers i epoch s s' w vs ∧ n / 2 + 1 ≤ vs.length := by
  unfold sentinelGetLeader at h
  simp only [others_length, Prod.mk.injEq] at h
  obtain ⟨hs', hwin⟩ := h
  rw [hs'] at hwin
  split at hwin
  · cases hwin
  next hq =>
  obtain ⟨vs, hvs, hlen⟩ := countOwn_backers (fair_bestOf view.order (countPeers i s)) hwin
  refine ⟨vs, hvs, ?_⟩
  rw [hlen]
  exact Nat.le_of_not_lt fun hlt => hq (.inl hlt)

/-- What `sentinelFailoverWaitStart` does where no failover is forced: the Sentinel votes,
and goes on only as the leader for the epoch of its failover. -/
lemma waitStart_spec (view : View n) (i : Fin n) (s : SentinelState n)
    (hforce : s.forceFailover = false) :
    ∃ c s', sentinelVoteLeader view i s.failoverEpoch c s = s' ∧
      SameVote (sentinelFailoverWaitStart view i s).1 s' ∧
      (sentinelFailoverWaitStart view i s).1.forceFailover = false ∧
      (sentinelFailoverWaitStart view i s).1.failoverEpoch = s.failoverEpoch ∧
      ((sentinelFailoverWaitStart view i s).2 = true →
        sentinelGetLeader view i s.failoverEpoch s = (s', some i)) := by
  obtain ⟨c, hc⟩ : ∃ c, (sentinelGetLeader view i s.failoverEpoch s).1 =
      sentinelVoteLeader view i s.failoverEpoch c s := ⟨_, rfl⟩
  obtain ⟨s', hs', -, -, hfe, hff, -, -⟩ := voteLeader_spec view i s.failoverEpoch c s
  refine ⟨c, s', hs', ?_⟩
  rw [hs'] at hc
  rw [hforce] at hff
  unfold sentinelFailoverWaitStart
  generalize hleader : (sentinelGetLeader view i s.failoverEpoch s).2 = leader
  have hpair : sentinelGetLeader view i s.failoverEpoch s = (s', leader) := Prod.ext hc hleader
  rw [hpair]
  dsimp only
  split
  · split
    · exact ⟨⟨rfl, rfl, rfl, rfl⟩, rfl, hfe, nofun⟩
    · exact ⟨⟨rfl, rfl, rfl, rfl⟩, hff, hfe, nofun⟩
  next hlead =>
  refine ⟨⟨rfl, rfl, rfl, rfl⟩, hff, hfe, fun _ => ?_⟩
  have : leader = some i := by
    by_contra hne
    exact hlead ⟨hne, hff⟩
  rw [this]

/-! ## Steps -/

/-- A Sentinel that is elected counted the votes while its current epoch was that of the
failover. -/
def CountsOwnEpoch (st : State n) : Step n → Prop
  | .timer i view =>
    ((st.start i view).sentinels i).failoverState = .waitStart →
      (sentinelFailoverWaitStart view i ((st.start i view).sentinels i)).2 = true →
      ((st.start i view).sentinels i).failoverEpoch = ((st.start i view).sentinels i).currentEpoch
  | _ => True

instance (st : State n) : (a : Step n) → Decidable (CountsOwnEpoch st a)
  | .timer i view => inferInstanceAs (Decidable
      (((st.start i view).sentinels i).failoverState = .waitStart →
        (sentinelFailoverWaitStart view i ((st.start i view).sentinels i)).2 = true →
        ((st.start i view).sentinels i).failoverEpoch =
          ((st.start i view).sentinels i).currentEpoch))
  | .promoted _ | .endFailover .. | .startOther _ | .sendHello _ | .deliverHello ..
  | .deliverRequest .. | .deliverReply .. => .isTrue trivial

lemma Honest.setPeers (h : Honest votes i s) {peers : Fin n → Peer n}
    (hpeers : ∀ p c, (peers p).leader = some c → (p, c, (peers p).leaderEpoch) ∈ votes) :
    Honest votes i { s with peers := peers } :=
  { h with reported := hpeers }

lemma inv_ask (h : Inv st) (i : Fin n) (view : View n) (forced : Bool) :
    Inv (st.ask i view forced) := by
  have hs : Honest st.votes i
      { st.sentinels i with peers := fun p => forgetOldVote view ((st.sentinels i).peers p) } := by
    refine (h.sentinels i).setPeers ?_
    intro p c hc
    unfold forgetOldVote at hc ⊢
    split at hc
    · cases hc
    next hold =>
    rw [if_neg hold]
    exact (h.sentinels i).reported p c hc
  have hset := h.set hs fun hrun => ⟨hrun, rfl⟩
  exact { hset with }

lemma startFailover_spec (view : View n) (s : SentinelState n) :
    sentinelStartFailoverIfNeeded view s = (s, false) ∨
    sentinelStartFailoverIfNeeded view s = ({ s with
      failoverState := .waitStart
      currentEpoch := s.currentEpoch + 1
      failoverEpoch := s.currentEpoch + 1
      failoverStartTime := view.desynced }, true) := by
  unfold sentinelStartFailoverIfNeeded
  split
  · exact .inl rfl
  split
  · exact .inl rfl
  split
  · exact .inl rfl
  · exact .inr rfl

lemma inv_start (h : Inv st) (i : Fin n) (view : View n) : Inv (st.start i view) := by
  have hi := h.sentinels i
  unfold State.start
  rcases startFailover_spec view (st.sentinels i) with hno | hyes
  · rw [hno]
    exact h.set hi fun hrun => ⟨hrun, rfl⟩
  rw [hyes]
  refine inv_ask (h.set ?_ ?_) i view true
  · exact hi.same (Nat.le_succ _) (.inl rfl) rfl rfl hi.unforced
  · exact nofun

/-- The majority that elects a Sentinel voted in the current epoch, or is its own vote for
the epoch of the failover. -/
lemma sound_waitStart (h : Sound st) (i : Fin n) (view : View n)
    (hown : (st.sentinels i).failoverState = .waitStart →
      (sentinelFailoverWaitStart view i (st.sentinels i)).2 = true →
      (st.sentinels i).failoverEpoch = (st.sentinels i).currentEpoch) :
    Sound (st.waitStart i view) := by
  unfold State.waitStart
  split
  · next hwait =>
    have hi := h.sentinels i
    obtain ⟨c, s', hs', hsame, hff, hfe, hlead⟩ :=
      waitStart_spec view i (st.sentinels i) hi.unforced
    have hown := hown hwait
    have hvote := h.vote (hs' ▸ hsame) hff
    refine { hvote with elected := ?_ }
    intro j e hmem
    dsimp only at hmem ⊢
    split at hmem
    · next helected =>
      rcases mem_cons.mp hmem with heq | hmem
      · simp only [Prod.mk.injEq] at heq
        obtain ⟨rfl, rfl⟩ := heq
        obtain ⟨vs, ⟨hnd, hback⟩, hlen⟩ := getLeader_votes (hlead helected)
        refine ⟨vs, hnd, hlen, ?_⟩
        intro v hv
        have hself := (hvote.sentinels j).own j
        simp only [State.set, update_self] at hself
        rcases hback v hv with hrep | ⟨rfl, hown', hepoch⟩
        · -- A report: an old vote, for the current epoch.
          obtain ⟨-, hq⟩ := mem_filter.mp hrep
          simp only [decide_eq_true_eq] at hq
          have hold := hi.reported v j hq.1
          rw [hq.2, ← hown helected, ← hfe] at hold
          exact recordVote_mono hold
        · have hmine := hself (hsame.leader.trans hown')
          rwa [hsame.leaderEpoch, hepoch, ← hfe] at hmine
      · exact hvote.elected j e hmem
    · exact hvote.elected j e hmem
  · exact h

lemma runsElected_waitStart (h : RunsElected st) (i : Fin n) (view : View n) :
    RunsElected (st.waitStart i view) := by
  unfold State.waitStart
  split
  · next hwait =>
    generalize hout : sentinelFailoverWaitStart view i (st.sentinels i) = out
    have hstate : out.1.failoverState = .running → out.2 = true := by
      obtain ⟨s', hs', -, hstate, -⟩ := voteLeader_spec view i (st.sentinels i).failoverEpoch
        ((bestOf view.order (countPeers i (st.sentinels i))).winner.getD i) (st.sentinels i)
      have hleader : (sentinelGetLeader view i (st.sentinels i).failoverEpoch
        (st.sentinels i)).1 = s' := hs'
      rw [← hout]
      unfold sentinelFailoverWaitStart
      dsimp only
      rw [hleader]
      split
      · split
        · exact nofun
        intro hrun
        rw [hstate, hwait] at hrun
        cases hrun
      · exact fun _ => rfl
    dsimp only
    refine (forall_update_iff st.sentinels fun j s => s.failoverState = .running →
      (j, s.failoverEpoch) ∈ _).mpr ⟨fun hrun => ?_, fun j _ hrun => ?_⟩
    · rw [if_pos (hstate hrun)]
      exact mem_cons_self
    split
    · exact mem_cons_of_mem _ (h j hrun)
    · exact h j hrun
  · exact h

variable {st' : State n}

lemma inv_deliverRequest (h : Inv st) {r}
    (hs : step st (.deliverRequest r view) = some st') : Inv st' := by
  simp only [step, ite_none_right_eq_some, some.injEq] at hs
  obtain ⟨-, rfl⟩ := hs
  have hi := h.sentinels r.dst
  unfold isMasterDownByAddr
  split
  · obtain ⟨s', hs', -, hstate, hepoch, hff, -, -⟩ :=
      voteLeader_spec view r.dst r.reqEpoch r.src (st.sentinels r.dst)
    have hvote : Sound { st.set r.dst s' with
        votes := recordVote r.dst (st.sentinels r.dst) s' st.votes } :=
      h.vote (by rw [hs']; exact ⟨rfl, rfl, rfl, rfl⟩) (hff.trans hi.unforced)
    rw [hs']
    refine ⟨⟨hvote.sentinels, ?_, hvote.onePerEpoch, hvote.elected⟩,
      h.runs.set fun hrun => ⟨hstate ▸ hrun, hepoch⟩⟩
    intro q hq c hc
    rcases mem_cons.mp hq with rfl | hq
    · have hself := (hvote.sentinels r.dst).own c
      simp only [State.set, update_self] at hself
      exact hself hc
    · exact hvote.replies q hq c hc
  have hset := h.set hi fun hrun => ⟨hrun, rfl⟩
  rw [recordVote_same st.votes rfl]
  refine ⟨⟨hset.sentinels, ?_, hset.onePerEpoch, hset.elected⟩, hset.runs⟩
  intro q hq c hc
  rcases mem_cons.mp hq with rfl | hq
  · cases hc
  · exact hset.replies q hq c hc

lemma inv_deliverReply (h : Inv st) {r}
    (hs : step st (.deliverReply r view) = some st') : Inv st' := by
  obtain ⟨hr, rfl⟩ := Runs.of_guarded hs
  refine h.set ((h.sentinels r.dst).setPeers ?_) fun hrun => ⟨hrun, rfl⟩
  have hi := h.sentinels r.dst
  refine (forall_update_iff _ fun p (peer : Peer n) => ∀ c, peer.leader = some c →
    (p, c, peer.leaderEpoch) ∈ st.votes).mpr ⟨fun c hc => ?_, fun p _ => hi.reported p⟩
  unfold sentinelReceiveIsMasterDownReply at hc ⊢
  cases hl : r.leader with
  | none =>
    rw [hl] at hc
    exact hi.reported r.src c hc
  | some l =>
    rw [hl] at hc
    cases hc
    exact h.replies r hr c hl

lemma honest_reset (h : Honest votes i s) : Honest votes i (sentinelResetMaster s) :=
  h.same le_rfl (.inr rfl) rfl rfl rfl

/-- A hello message moves the current epoch forward and may end the failover. -/
lemma hello_spec (hello : Hello) (addrChanged : Bool) (s : SentinelState n) :
    ∃ s', sentinelProcessHelloMessage hello addrChanged s = s' ∧
      s.currentEpoch ≤ s'.currentEpoch ∧ s'.leaderEpoch = s.leaderEpoch ∧ s'.peers = s.peers ∧
      s'.failoverEpoch = s.failoverEpoch ∧
      ((s'.leader = s.leader ∧ s'.failoverState = s.failoverState ∧
          s'.forceFailover = s.forceFailover) ∨
        (s'.leader = none ∧ s'.failoverState = .none ∧ s'.forceFailover = false)) := by
  obtain ⟨t, ht⟩ : ∃ t, t = if hello.currentEpoch > s.currentEpoch then
      { s with currentEpoch := hello.currentEpoch } else s := ⟨_, rfl⟩
  have hepoch : ∃ e, s.currentEpoch ≤ e ∧ t = { s with currentEpoch := e } := by
    rw [ht]
    split
    · next hnew => exact ⟨_, hnew.le, rfl⟩
    · exact ⟨_, le_rfl, rfl⟩
  obtain ⟨e, hle, hte⟩ := hepoch
  refine ⟨_, rfl, ?_⟩
  unfold sentinelProcessHelloMessage
  rw [← ht, hte]
  dsimp only
  split
  · split
    · exact ⟨hle, rfl, rfl, rfl, .inr ⟨rfl, rfl, rfl⟩⟩
    · exact ⟨hle, rfl, rfl, rfl, .inl ⟨rfl, rfl, rfl⟩⟩
  · exact ⟨hle, rfl, rfl, rfl, .inl ⟨rfl, rfl, rfl⟩⟩

lemma inv_hello (h : Inv st) (i : Fin n) (hello : Hello) (addrChanged : Bool) :
    Inv (st.set i (sentinelProcessHelloMessage hello addrChanged (st.sentinels i))) := by
  have hi := h.sentinels i
  obtain ⟨s', hs', hepoch, hle, hp, hfe, ⟨hl, hstate, hff⟩ | ⟨hl, hstate, hff⟩⟩ :=
    hello_spec hello addrChanged (st.sentinels i)
  · rw [hs']
    exact h.set (hi.same hepoch (.inl hl) hle hp (hff.trans hi.unforced)) fun hrun =>
      ⟨hstate ▸ hrun, hfe⟩
  rw [hs']
  exact h.set (hi.same hepoch (.inr hl) hle hp hff) fun hrun => (nomatch hstate ▸ hrun)

lemma inv_step (st : State n) (a : Step n) (st' : State n) (h : Inv st)
    (hown : CountsOwnEpoch st a) (hs : step st a = some st') : Inv st' := by
  cases a with
  | timer i view =>
    cases hs
    have hstart := inv_start h i view
    exact inv_ask ⟨sound_waitStart hstart.toSound i view hown,
      runsElected_waitStart hstart.runs i view⟩ i view false
  | promoted i =>
    obtain ⟨-, rfl⟩ := Runs.of_guarded hs
    have hi := h.sentinels i
    exact h.set (hi.same le_rfl (.inl rfl) rfl rfl hi.unforced) fun hrun => ⟨hrun, rfl⟩
  | endFailover i switched =>
    obtain ⟨-, rfl⟩ := Runs.of_guarded hs
    have hi := h.sentinels i
    split
    · exact h.set (honest_reset hi) nofun
    · exact h.set (hi.same le_rfl (.inl rfl) rfl rfl rfl) nofun
  | startOther i =>
    cases hs
    have hi := h.sentinels i
    exact h.set (hi.same (Nat.le_succ _) (.inl rfl) rfl rfl hi.unforced) fun hrun => ⟨hrun, rfl⟩
  | sendHello i =>
    cases hs
    exact { h with }
  | deliverHello i hello addrChanged =>
    obtain ⟨-, rfl⟩ := Runs.of_guarded hs
    exact inv_hello h i hello addrChanged
  | deliverRequest r view => exact inv_deliverRequest h hs
  | deliverReply r view => exact inv_deliverReply h hs

/-- Along every run in which a Sentinel is only elected while its current epoch is that of
its failover, at most one Sentinel is elected for a failover epoch, and two that run a
failover of the master carry different epochs. -/
theorem leader_unique (steps : List (Step n)) (st : State n)
    (hrun : Runs.run step steps (initial n) = some st)
    (hown : Runs.Along step CountsOwnEpoch steps (initial n)) :
    (∀ e i j, (i, e) ∈ st.elected → (j, e) ∈ st.elected → i = j) ∧
    (∀ i j, (st.sentinels i).failoverState = .running → (st.sentinels j).failoverState = .running →
      (st.sentinels i).failoverEpoch = (st.sentinels j).failoverEpoch → i = j) := by
  have hinv := Runs.invariant_run inv_step steps _ st
    ⟨sound_initial, nofun⟩ hown hrun
  have hunique : ∀ e i j, (i, e) ∈ st.elected → (j, e) ∈ st.elected → i = j := fun e i j hi hj =>
    Majority.unique hinv.onePerEpoch (hinv.elected i e hi) (hinv.elected j e hj)
  refine ⟨hunique, ?_⟩
  intro i j hi hj he
  have hmem := hinv.runs i hi
  rw [he] at hmem
  exact hunique _ i j hmem (hinv.runs j hj)

/-! ## Runs of three Sentinels -/

def downView (mstime : Int) : View 3 where
  mstime := mstime
  rand := 0
  quorum := 2
  failoverTimeout := 10000
  sentinelAskPeriod := 1000
  sentinelElectionTimeout := 10000
  sDown := true
  oDown := true
  connected _ := true
  order := Equiv.refl _

/-- The request of `i` for the vote of `j`, and the reply with a vote for `i`. -/
def exchange (i j : Fin 3) (epoch : Nat) (mstime : Int) : List (Step 3) :=
  [.deliverRequest ⟨i, j, epoch, true⟩ (downView mstime),
    .deliverReply ⟨j, i, some i, epoch⟩ (downView mstime)]

/-- Two Sentinels start a failover in epoch 1; the second gets the vote of the third. -/
def secondElected (a b c : Fin 3) : List (Step 3) :=
  [.timer a (downView 100000), .timer b (downView 100000)] ++ exchange b c 1 100100 ++
    [.timer b (downView 100200)]

theorem leader_unique_secondElected :
    ∃ st, Runs.run step (secondElected 0 1 2) (initial 3) = some st ∧ (1, 1) ∈ st.elected ∧
      ∀ i, (i, 1) ∈ st.elected → i = 1 := by
  have helected : (Runs.run step (secondElected 0 1 2) (initial 3)).map (·.elected) = some [(1, 1)] := by
    decide +kernel
  obtain ⟨st, hst, hel⟩ := map_eq_some_iff.mp helected
  have hmem : (1, 1) ∈ st.elected := hel ▸ mem_singleton_self _
  have hown : Runs.Along step CountsOwnEpoch (secondElected 0 1 2) (initial 3) :=
    Runs.along_of_along? (fun s a h => of_decide_eq_true h) _ _
      (by decide +kernel : Runs.along? step (fun s a => decide (CountsOwnEpoch s a)) _ _ = true)
  exact ⟨st, hst, hmem, fun i hi => (leader_unique (secondElected 0 1 2) st hst hown).1 1 i 1 hi hmem⟩

/-- Then the third starts a failover of another master, and its hello message moves the
first to epoch 2. The first now asks for votes in epoch 2, gets them and counts them for
its failover in epoch 1. -/
def firstElectedToo (a b c : Fin 3) : List (Step 3) := secondElected a b c ++
    [.startOther c, .sendHello c, .deliverHello a ⟨2, 0⟩ false, .timer a (downView 101500)] ++
    exchange a b 2 101600 ++ exchange a c 2 101600 ++ [.timer a (downView 102600)]

theorem two_sentinels_elected : ∃ st, Runs.run step (firstElectedToo 0 1 2) (initial 3) = some st ∧
      (0, 1) ∈ st.elected ∧ (1, 1) ∈ st.elected ∧
      (st.sentinels 0).failoverState = .running ∧ (st.sentinels 1).failoverState = .running ∧
      (st.sentinels 0).failoverEpoch = 1 ∧ (st.sentinels 1).failoverEpoch = 1 := by
  have hrun : (Runs.run step (firstElectedToo 0 1 2) (initial 3)).map
      (fun st => (st.elected, (st.sentinels 0).failoverState, (st.sentinels 1).failoverState,
        (st.sentinels 0).failoverEpoch, (st.sentinels 1).failoverEpoch)) =
      some ([(0, 1), (1, 1)], .running, .running, 1, 1) := by decide +kernel
  obtain ⟨st, hst, hout⟩ := map_eq_some_iff.mp hrun
  simp only [Prod.mk.injEq] at hout
  obtain ⟨hel, h0, h1, he0, he1⟩ := hout
  refine ⟨st, hst, ?_, ?_, h0, h1, he0, he1⟩
  · rw [hel]
    decide
  rw [hel]
  decide

end Redis.Sentinel.ElectionSafety
