import Redis.Lib.Runs
import Redis.Lib.Voting

/-! # Electing a replica of a failed master

A replica whose master failed asks the masters that serve slots for their votes and takes
over when a majority granted them. Packets may be lost, delayed, delivered out of order and
delivered more than once; each node reads its own clock. The set of voting masters is
fixed, and no node loses its state. -/
namespace Redis.Cluster.Election
open Function Lib

/-! ## The voting masters -/

/-- What a voting master keeps between elections. `votedTime` is the field of the failed
master that all the replicas share. -/
structure Voter where
  currentEpoch : Nat
  lastVoteEpoch : Nat
  votedTime : Int
  deriving DecidableEq, Repr

/-- The packet `CLUSTERMSG_TYPE_FAILOVER_AUTH_REQUEST`. The configuration epoch and the
slots are those of the sender's master. -/
structure AuthRequest (m : Nat) where
  src : Fin m
  currentEpoch : Nat
  configEpoch : Nat
  slots : List Nat
  forceAck : Bool
  deriving DecidableEq, Repr

/-- How a voting master sees the cluster and its clock while it handles a request.
`slotEpoch` is the configuration epoch of the node it knows to serve a slot. -/
structure VoterView where
  mstime : Int
  clusterNodeTimeout : Int
  nodeIsMaster : Bool
  masterKnown : Bool
  masterFailed : Bool
  slotEpoch : Nat → Option Nat

/-- The epoch in the header of every packet from a known node. -/
def Voter.updateCurrentEpoch (v : Voter) (senderCurrentEpoch : Nat) : Voter :=
  if senderCurrentEpoch > v.currentEpoch then { v with currentEpoch := senderCurrentEpoch }
  else v

/-- Some claimed slot is served by a node with a greater configuration epoch. -/
def VoterView.slotRefused (view : VoterView) (requestConfigEpoch slot : Nat) : Bool :=
  match view.slotEpoch slot with
  | none => false
  | some configEpoch => requestConfigEpoch < configEpoch

/-- The voter after a request, and whether it sends an acknowledgement. The voters are the
masters with slots, so that the first check of the code passes. -/
def clusterSendFailoverAuthIfNeeded {m : Nat} (view : VoterView) (request : AuthRequest m)
    (v : Voter) : Voter × Bool :=
  if request.currentEpoch < v.currentEpoch then (v, false)
  else if v.lastVoteEpoch = v.currentEpoch then (v, false)
  else if view.nodeIsMaster || !view.masterKnown || (!view.masterFailed && !request.forceAck)
  then (v, false)
  else if view.mstime - v.votedTime < view.clusterNodeTimeout * 2 then (v, false)
  else if request.slots.any (view.slotRefused request.configEpoch) then (v, false)
  else ({ v with lastVoteEpoch := v.currentEpoch, votedTime := view.mstime }, true)

/-! ## The replicas -/

structure Replica where
  isMaster : Bool
  currentEpoch : Nat
  configEpoch : Nat
  failoverAuthTime : Int
  failoverAuthCount : Nat
  failoverAuthSent : Bool
  failoverAuthRank : Nat
  failoverAuthEpoch : Nat
  deriving DecidableEq, Repr

/-- What `clusterHandleSlaveFailover` reads besides the state of the election. `dataAge` is
the time since the replica last heard from its master. -/
structure ReplicaView where
  mstime : Int
  clusterNodeTimeout : Int
  random : Nat
  slaveRank : Nat
  mfEnd : Bool
  mfCanStart : Bool
  masterKnown : Bool
  masterFailed : Bool
  masterConfigEpoch : Nat
  masterSlots : List Nat
  slaveNoFailover : Bool
  dataAge : Int
  replPingSlavePeriod : Int
  slaveValidityFactor : Int
  deriving DecidableEq, Repr

/-- What the replica does besides changing its own state. -/
inductive FailoverAction where
  | wait
  | requestAuth
  | replaceMaster
  deriving DecidableEq, Repr

def ReplicaView.manualFailover (view : ReplicaView) : Bool := view.mfEnd && view.mfCanStart

def ReplicaView.authTimeout (view : ReplicaView) : Int :=
  if view.clusterNodeTimeout * 2 < 2000 then 2000 else view.clusterNodeTimeout * 2

def ReplicaView.authRetryTime (view : ReplicaView) : Int := view.authTimeout * 2

def ReplicaView.cantFailover (view : ReplicaView) (r : Replica) : Bool :=
  r.isMaster || !view.masterKnown || (!view.masterFailed && !view.manualFailover) ||
    (view.slaveNoFailover && !view.manualFailover) || view.masterSlots.length = 0

/-- The baseline is the time after which a silent master is flagged as failed. -/
def ReplicaView.adjustedDataAge (view : ReplicaView) : Int :=
  if view.dataAge > view.clusterNodeTimeout then view.dataAge - view.clusterNodeTimeout
  else view.dataAge

def ReplicaView.dataTooOld (view : ReplicaView) : Bool :=
  view.slaveValidityFactor ≠ 0 && view.adjustedDataAge >
      view.replPingSlavePeriod * 1000 + view.clusterNodeTimeout * view.slaveValidityFactor &&
    !view.manualFailover

/-- A new attempt. `failover_auth_epoch` keeps the epoch of the previous one. -/
def scheduleElection (view : ReplicaView) (r : Replica) : Replica :=
  let r := { r with
    failoverAuthTime := view.mstime + 500 + (view.random % 500 : Nat) + view.slaveRank * 1000
    failoverAuthCount := 0
    failoverAuthSent := false
    failoverAuthRank := view.slaveRank }
  if view.mfEnd then { r with failoverAuthTime := view.mstime, failoverAuthRank := 0 } else r

def updateRank (view : ReplicaView) (r : Replica) : Replica :=
  if r.failoverAuthSent = false ∧ view.mfEnd = false ∧ view.slaveRank > r.failoverAuthRank then
    { r with
      failoverAuthTime := r.failoverAuthTime + (view.slaveRank - r.failoverAuthRank : Nat) * 1000
      failoverAuthRank := view.slaveRank }
  else r

def clusterFailoverReplaceYourMaster (r : Replica) : Replica := { r with isMaster := true }

/-- `size` is the number of masters that serve slots. -/
def clusterHandleSlaveFailover (size : Nat) (view : ReplicaView) (r : Replica) :
    Replica × FailoverAction :=
  let authAge := view.mstime - r.failoverAuthTime
  let neededQuorum := size / 2 + 1
  if view.cantFailover r then (r, .wait)
  else if view.dataTooOld then (r, .wait)
  else if authAge > view.authRetryTime then (scheduleElection view r, .wait)
  else
    let r := updateRank view r
    if view.mstime < r.failoverAuthTime then (r, .wait)
    else if authAge > view.authTimeout then (r, .wait)
    else if r.failoverAuthSent = false then
      ({ r with
        currentEpoch := r.currentEpoch + 1
        failoverAuthEpoch := r.currentEpoch + 1
        failoverAuthSent := true }, .requestAuth)
    else if r.failoverAuthCount ≥ neededQuorum then
      (clusterFailoverReplaceYourMaster
        { r with configEpoch := max r.configEpoch r.failoverAuthEpoch }, .replaceMaster)
    else (r, .wait)

def Replica.updateCurrentEpoch (r : Replica) (senderCurrentEpoch : Nat) : Replica :=
  if senderCurrentEpoch > r.currentEpoch then { r with currentEpoch := senderCurrentEpoch }
  else r

/-- `clusterProcessPacket` counts an acknowledgement. -/
def Replica.accepts (r : Replica) (senderServesSlots : Bool) (senderCurrentEpoch : Nat) : Bool :=
  senderServesSlots && r.failoverAuthEpoch ≤ senderCurrentEpoch

/-- The branch of `clusterProcessPacket` for `CLUSTERMSG_TYPE_FAILOVER_AUTH_ACK`. It looks
neither at `failover_auth_sent` nor at who voted before. -/
def Replica.processAuthAck (r : Replica) (senderServesSlots : Bool) (senderCurrentEpoch : Nat) :
    Replica :=
  let r := r.updateCurrentEpoch senderCurrentEpoch
  if r.accepts senderServesSlots senderCurrentEpoch then
    { r with failoverAuthCount := r.failoverAuthCount + 1 }
  else r

/-! ## The cluster -/

/-- All the nodes, and every packet that was ever sent: a packet is lost when it is never
delivered and duplicated when it is delivered again. `counted` and `elected` only record
what happened: the voters whose acknowledgements a replica has counted since its counter
was last reset, and who took over with which epoch. -/
structure State (n m : Nat) where
  voters : Fin n → Voter
  replicas : Fin m → Replica
  requests : List (AuthRequest m)
  acks : Voting.Votes n (Fin m)
  pings : List Nat
  counted : Fin m → List (Fin n)
  elected : List (Fin m × Nat)

inductive Step (n m : Nat) where
  /-- `clusterCron` or `clusterBeforeSleep` runs the failover of a replica. -/
  | failover (r : Fin m) (view : ReplicaView)
  | deliverRequest (request : AuthRequest m) (v : Fin n) (view : VoterView)
  /-- An acknowledgement reaches the replica it is for. -/
  | deliverAck (v : Fin n) (r : Fin m) (epoch : Nat) (senderServesSlots : Bool)
  /-- Any other packet, of which only the epoch in the header matters. -/
  | pingVoter (v : Fin n)
  | pingReplica (r : Fin m)
  | deliverToVoter (epoch : Nat) (v : Fin n)
  | deliverToReplica (epoch : Nat) (r : Fin m)
  /-- `clusterHandleConfigEpochCollision` or `clusterBumpConfigEpochWithoutConsensus`. -/
  | bumpVoter (v : Fin n)
  | bumpReplica (r : Fin m)
  | demote (r : Fin m)

variable {n m : Nat}

def State.setVoter (s : State n m) (v : Fin n) (x : Voter) : State n m :=
  { s with voters := update s.voters v x }

def State.setReplica (s : State n m) (r : Fin m) (x : Replica) : State n m :=
  { s with replicas := update s.replicas r x }

/-- What the rest of the cluster sees of `clusterHandleSlaveFailover`. -/
def State.act (s : State n m) (r : Fin m) (view : ReplicaView) (x : Replica) :
    FailoverAction → State n m
  | .wait =>
    if x.failoverAuthCount = 0 then { s with counted := update s.counted r [] } else s
  | .requestAuth => { s with
      requests := ⟨r, x.currentEpoch, view.masterConfigEpoch, view.masterSlots, view.mfEnd⟩ ::
        s.requests }
  | .replaceMaster => { s with elected := (r, x.failoverAuthEpoch) :: s.elected }

def step (s : State n m) : Step n m → Option (State n m)
  | .failover r view =>
    let (x, action) := clusterHandleSlaveFailover n view (s.replicas r)
    some ((s.setReplica r x).act r view x action)
  | .deliverRequest request v view =>
    if request ∈ s.requests then
      let (x, granted) := clusterSendFailoverAuthIfNeeded view request
        ((s.voters v).updateCurrentEpoch request.currentEpoch)
      let s := s.setVoter v x
      some (if granted then { s with acks := (v, request.src, x.currentEpoch) :: s.acks } else s)
    else none
  | .deliverAck v r epoch senderServesSlots =>
    if (v, r, epoch) ∈ s.acks then
      let x := s.replicas r
      let s' := s.setReplica r (x.processAuthAck senderServesSlots epoch)
      some (if x.accepts senderServesSlots epoch then
        { s' with counted := update s.counted r (v :: s.counted r) } else s')
    else none
  | .pingVoter v => some { s with pings := (s.voters v).currentEpoch :: s.pings }
  | .pingReplica r => some { s with pings := (s.replicas r).currentEpoch :: s.pings }
  | .deliverToVoter epoch v =>
    if epoch ∈ s.pings then some (s.setVoter v ((s.voters v).updateCurrentEpoch epoch)) else none
  | .deliverToReplica epoch r =>
    if epoch ∈ s.pings then some (s.setReplica r ((s.replicas r).updateCurrentEpoch epoch))
    else none
  | .bumpVoter v =>
    some (s.setVoter v { s.voters v with currentEpoch := (s.voters v).currentEpoch + 1 })
  | .bumpReplica r =>
    some (s.setReplica r { s.replicas r with currentEpoch := (s.replicas r).currentEpoch + 1 })
  | .demote r => some (s.setReplica r { s.replicas r with isMaster := false })

/-- `clusterInit`, which leaves `failover_auth_sent` as it finds it. -/
def initial (n m : Nat) (failoverAuthSent : Fin m → Bool) : State n m where
  voters _ := ⟨0, 0, 0⟩
  replicas r := ⟨false, 0, 0, 0, 0, failoverAuthSent r, 0, 0⟩
  requests := []
  acks := []
  pings := []
  counted _ := []
  elected := []

end Redis.Cluster.Election
