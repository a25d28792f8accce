import Redis.Lib.Runs
import Redis.Lib.Voting

/-! # Electing the Sentinel that runs a failover

The Sentinels that monitor a master ask each other for votes with
`SENTINEL IS-MASTER-DOWN-BY-ADDR`, remember the last vote each of the others reported and
count what they remember. The epoch they count by is `sentinel.current_epoch`, which hello
messages move at any time; the epoch of the failover is the one it was started with. The
Sentinels know each other, and the messages between them may be delayed and lost. -/
namespace Redis.Sentinel.Election
open Lib

variable {n : Nat}

/-! ## A Sentinel and the master it monitors -/

/-- What a Sentinel remembers of another one: the vote in its last reply, and when that
reply came. -/
structure Peer (n : Nat) where
  leader : Option (Fin n)
  leaderEpoch : Nat
  lastMasterDownReplyTime : Int
  deriving DecidableEq, Repr

inductive FailoverState where
  | none
  | waitStart
  /-- `SENTINEL_FAILOVER_STATE_SELECT_SLAVE` and the states after it. -/
  | running
  deriving DecidableEq, Repr

/-- `leader` and `leaderEpoch` are the Sentinel's own last vote about the master. -/
structure SentinelState (n : Nat) where
  currentEpoch : Nat
  configEpoch : Nat
  leader : Option (Fin n)
  leaderEpoch : Nat
  failoverState : FailoverState
  failoverEpoch : Nat
  failoverStartTime : Int
  forceFailover : Bool
  peers : Fin n → Peer n

/-- The clock, the random number, the configuration and what the Sentinel knows about the
master and its links when the timer fires or a message arrives. `order` is the order in
which the dictionary of the counters is traversed. -/
structure View (n : Nat) where
  mstime : Int
  rand : Nat
  quorum : Nat
  failoverTimeout : Int
  sentinelAskPeriod : Int
  sentinelElectionTimeout : Int
  sDown : Bool
  oDown : Bool
  connected : Fin n → Bool
  order : Equiv.Perm (Fin n)

/-- `mstime()+rand()%SENTINEL_MAX_DESYNC`. -/
def View.desynced (view : View n) : Int := view.mstime + (view.rand % 1000 : Nat)

/-- The Sentinel after the request for a vote; its answer is what is then in `leader` and
`leaderEpoch`. -/
def sentinelVoteLeader (view : View n) (myid : Fin n) (reqEpoch : Nat) (reqRunid : Fin n)
    (s : SentinelState n) : SentinelState n :=
  let s := if reqEpoch > s.currentEpoch then { s with currentEpoch := reqEpoch } else s
  if s.leaderEpoch < reqEpoch ∧ s.currentEpoch ≤ reqEpoch then
    { s with
      leader := some reqRunid
      leaderEpoch := s.currentEpoch
      failoverStartTime := if reqRunid ≠ myid then view.desynced else s.failoverStartTime }
  else s

/-! ## Counting the votes -/

def sentinelLeaderIncr (counters : Fin n → Nat) (runid : Fin n) : Fin n → Nat :=
  Function.update counters runid (counters runid + 1)

def others (myid : Fin n) : List (Fin n) := (List.finRange n).filter (· ≠ myid)

/-- One turn of the loop over the other Sentinels. -/
def countPeer (currentEpoch : Nat) (counters : Fin n → Nat) (peer : Peer n) : Fin n → Nat :=
  match peer.leader with
  | some leader => if peer.leaderEpoch = currentEpoch then sentinelLeaderIncr counters leader
      else counters
  | none => counters

def countPeers (myid : Fin n) (s : SentinelState n) : Fin n → Nat :=
  (others myid).foldl (fun counters p => countPeer s.currentEpoch counters (s.peers p)) fun _ => 0

/-- The winner so far and its votes. -/
structure Best (n : Nat) where
  maxVotes : Nat
  winner : Option (Fin n)
  deriving DecidableEq, Repr

def Best.take (counters : Fin n → Nat) (best : Best n) (runid : Fin n) : Best n :=
  if counters runid > best.maxVotes then ⟨counters runid, some runid⟩ else best

/-- The loop over the counters. Who has no counter has no votes and changes nothing. -/
def bestOf (order : Equiv.Perm (Fin n)) (counters : Fin n → Nat) : Best n :=
  ((List.finRange n).map order).foldl (Best.take counters) ⟨0, none⟩

/-- The Sentinel's own vote, if it is for `epoch`. -/
def Best.countOwn (counters : Fin n → Nat) (epoch : Nat) (s : SentinelState n) (best : Best n) :
    Best n :=
  match s.leader with
  | some myvote => if s.leaderEpoch = epoch then
      best.take (sentinelLeaderIncr counters myvote) myvote else best
  | none => best

/-- The Sentinel after its own vote, and the leader for `epoch` if there is one. -/
def sentinelGetLeader (view : View n) (myid : Fin n) (epoch : Nat) (s : SentinelState n) :
    SentinelState n × Option (Fin n) :=
  let voters := (others myid).length + 1
  let counters := countPeers myid s
  let best := bestOf view.order counters
  let s := sentinelVoteLeader view myid epoch (best.winner.getD myid) s
  let best := best.countOwn counters epoch s
  let votersQuorum := voters / 2 + 1
  (s, if best.maxVotes < votersQuorum ∨ best.maxVotes < view.quorum then none else best.winner)

/-! ## The failover -/

/-- Whether a failover was started; the Sentinel then has a new epoch. -/
def sentinelStartFailoverIfNeeded (view : View n) (s : SentinelState n) : SentinelState n × Bool :=
  if !view.oDown then (s, false)
  else if s.failoverState ≠ .none then (s, false)
  else if view.mstime - s.failoverStartTime < view.failoverTimeout * 2 then (s, false)
  else
    ({ s with
      failoverState := .waitStart
      currentEpoch := s.currentEpoch + 1
      failoverEpoch := s.currentEpoch + 1
      failoverStartTime := view.desynced }, true)

def sentinelFailoverWaitStart (view : View n) (myid : Fin n) (s : SentinelState n) :
    SentinelState n × Bool :=
  let (s, leader) := sentinelGetLeader view myid s.failoverEpoch s
  if leader ≠ some myid ∧ s.forceFailover = false then
    if view.mstime - s.failoverStartTime > min view.sentinelElectionTimeout view.failoverTimeout
    then ({ s with failoverState := .none, forceFailover := false }, false)
    else (s, false)
  else ({ s with failoverState := .running }, true)

/-- A Sentinel forgets what another one reported too long ago. -/
def forgetOldVote (view : View n) (peer : Peer n) : Peer n :=
  if view.mstime - peer.lastMasterDownReplyTime > view.sentinelAskPeriod * 5 then
    { peer with leader := none }
  else peer

def asks (view : View n) (forced : Bool) (s : SentinelState n) (p : Fin n) : Bool :=
  view.sDown && view.connected p &&
    (forced || view.sentinelAskPeriod ≤ view.mstime - (s.peers p).lastMasterDownReplyTime)

/-- The request `is-master-down-by-addr`. It carries the current epoch of the sender, and
asks for a vote where a failover is in progress. -/
structure Request (n : Nat) where
  src : Fin n
  dst : Fin n
  reqEpoch : Nat
  seeksVote : Bool
  deriving DecidableEq, Repr

def sentinelAskMasterStateToOtherSentinels (view : View n) (myid : Fin n) (forced : Bool)
    (s : SentinelState n) : SentinelState n × List (Request n) :=
  let peers := fun p => forgetOldVote view (s.peers p)
  let s := { s with peers := peers }
  (s, ((others myid).filter (asks view forced s)).map fun p =>
    ⟨myid, p, s.currentEpoch, s.failoverState ≠ .none⟩)

/-! ## Messages -/

/-- The answer to a request: the last vote of the sender, or none if no vote was asked for
or none was ever given. -/
structure Reply (n : Nat) where
  src : Fin n
  dst : Fin n
  leader : Option (Fin n)
  leaderEpoch : Nat
  deriving DecidableEq, Repr

/-- The branch of `sentinelCommand` for a request. -/
def isMasterDownByAddr (view : View n) (r : Request n) (s : SentinelState n) :
    SentinelState n × Reply n :=
  if r.seeksVote then
    let s := sentinelVoteLeader view r.dst r.reqEpoch r.src s
    (s, ⟨r.dst, r.src, s.leader, s.leaderEpoch⟩)
  else (s, ⟨r.dst, r.src, none, 0⟩)

def sentinelReceiveIsMasterDownReply (view : View n) (r : Reply n) (peer : Peer n) : Peer n :=
  let peer := { peer with lastMasterDownReplyTime := view.mstime }
  match r.leader with
  | some leader => { peer with leader := some leader, leaderEpoch := r.leaderEpoch }
  | none => peer

structure Hello where
  currentEpoch : Nat
  masterConfigEpoch : Nat
  deriving DecidableEq, Repr

/-- `sentinelResetMaster`, which keeps the other Sentinels and what they reported. -/
def sentinelResetMaster (s : SentinelState n) : SentinelState n :=
  { s with leader := none, failoverState := .none, failoverStartTime := 0, forceFailover := false }

/-- `addrChanged` says that the message names another address for the master. -/
def sentinelProcessHelloMessage (hello : Hello) (addrChanged : Bool) (s : SentinelState n) :
    SentinelState n :=
  let s := if hello.currentEpoch > s.currentEpoch then
    { s with currentEpoch := hello.currentEpoch } else s
  if s.configEpoch < hello.masterConfigEpoch then
    let s := { s with configEpoch := hello.masterConfigEpoch }
    if addrChanged then sentinelResetMaster s else s
  else s

/-! ## All the Sentinels -/

/-- The Sentinels and every message that was ever sent. `votes` and `elected` only record
what happened: who voted for whom in which epoch, and who was elected for which failover
epoch. -/
structure State (n : Nat) where
  sentinels : Fin n → SentinelState n
  requests : List (Request n)
  replies : List (Reply n)
  hellos : List Hello
  votes : Voting.Votes n (Fin n)
  elected : List (Fin n × Nat)

inductive Step (n : Nat) where
  /-- `sentinelHandleRedisInstance` for the master. -/
  | timer (i : Fin n) (view : View n)
  /-- The promoted replica reports that it is a master now. -/
  | promoted (i : Fin n)
  /-- The failover is aborted, or ends with the switch to the promoted replica. -/
  | endFailover (i : Fin n) (switched : Bool)
  /-- The Sentinel starts a failover of another master. -/
  | startOther (i : Fin n)
  | sendHello (i : Fin n)
  | deliverHello (i : Fin n) (hello : Hello) (addrChanged : Bool)
  | deliverRequest (r : Request n) (view : View n)
  | deliverReply (r : Reply n) (view : View n)

def State.set (st : State n) (i : Fin n) (s : SentinelState n) : State n :=
  { st with sentinels := Function.update st.sentinels i s }

def recordVote (i : Fin n) (s s' : SentinelState n) (votes : Voting.Votes n (Fin n)) :
    Voting.Votes n (Fin n) :=
  match s'.leader with
  | some leader => if s.leaderEpoch < s'.leaderEpoch then (i, leader, s'.leaderEpoch) :: votes
      else votes
  | none => votes

/-- `sentinelAskMasterStateToOtherSentinels` for all to see. -/
def State.ask (st : State n) (i : Fin n) (view : View n) (forced : Bool) : State n :=
  let (s, requests) := sentinelAskMasterStateToOtherSentinels view i forced (st.sentinels i)
  { st.set i s with requests := requests ++ st.requests }

def State.start (st : State n) (i : Fin n) (view : View n) : State n :=
  let (s, started) := sentinelStartFailoverIfNeeded view (st.sentinels i)
  if started then (st.set i s).ask i view true else st.set i s

/-- `sentinelFailoverStateMachine` in the state in which the votes are counted. -/
def State.waitStart (st : State n) (i : Fin n) (view : View n) : State n :=
  if (st.sentinels i).failoverState = .waitStart then
    let (s, elected) := sentinelFailoverWaitStart view i (st.sentinels i)
    { st.set i s with
      votes := recordVote i (st.sentinels i) s st.votes
      elected := if elected then (i, s.failoverEpoch) :: st.elected else st.elected }
  else st

def step (st : State n) : Step n → Option (State n)
  | .timer i view => some (((st.start i view).waitStart i view).ask i view false)
  | .promoted i =>
    let s := st.sentinels i
    if s.failoverState = .running then some (st.set i { s with configEpoch := s.failoverEpoch })
    else none
  | .endFailover i switched =>
    let s := st.sentinels i
    if s.failoverState = .running then
      some (st.set i (if switched then sentinelResetMaster s
        else { s with failoverState := .none, forceFailover := false }))
    else none
  | .startOther i =>
    let s := st.sentinels i
    some (st.set i { s with currentEpoch := s.currentEpoch + 1 })
  | .sendHello i =>
    let s := st.sentinels i
    some { st with hellos := ⟨s.currentEpoch, s.configEpoch⟩ :: st.hellos }
  | .deliverHello i hello addrChanged =>
    if hello ∈ st.hellos then
      some (st.set i (sentinelProcessHelloMessage hello addrChanged (st.sentinels i)))
    else none
  | .deliverRequest r view =>
    if r ∈ st.requests then
      let s := st.sentinels r.dst
      let (s', reply) := isMasterDownByAddr view r s
      some { st.set r.dst s' with
        replies := reply :: st.replies
        votes := recordVote r.dst s s' st.votes }
    else none
  | .deliverReply r view =>
    if r ∈ st.replies then
      let s := st.sentinels r.dst
      let peer := sentinelReceiveIsMasterDownReply view r (s.peers r.src)
      some (st.set r.dst { s with peers := Function.update s.peers r.src peer })
    else none

def initial (n : Nat) : State n where
  sentinels _ := ⟨0, 0, none, 0, .none, 0, 0, false, fun _ => ⟨none, 0, 0⟩⟩
  requests := []
  replies := []
  hellos := []
  votes := []
  elected := []

end Redis.Sentinel.Election
