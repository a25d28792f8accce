import Redis.Lib.Outcome
import Mathlib.Data.List.FinRange

/-! # Who serves a slot, as one node sees it

Every packet on the cluster bus carries the configuration epoch of its sender, and the
packets that announce a node also the slots its master claims. A node binds a slot to a
master that claims it with a greater configuration epoch than the one it knows of the
current owner. -/
namespace Redis.Cluster.Slots
open Function Lib

/-- `CLUSTER_SLOTS` is 16384. -/
abbrev Slot := Fin 16384

def allSlots : List Slot := List.finRange 16384

lemma mem_allSlots (j : Slot) : j ∈ allSlots := List.mem_finRange j

/-- What a node keeps of another one, or of itself. -/
structure Node (ν : Type) where
  isMaster : Bool
  slaveof : Option ν
  configEpoch : Nat
  deriving DecidableEq, Repr

/-- A node's view of the cluster. Nodes are their names, which the code compares; the bitmap
of a node has the bits of the slots that the table binds to it. -/
structure View (ν : Type) where
  myself : ν
  nodes : ν → Node ν
  slots : Slot → Option ν
  importing : Slot → Bool
  keysInSlot : Slot → Nat
  currentEpoch : Nat
  allowReplicaMigration : Bool
  noRedirection : Bool

inductive Body (ν : Type) where
  /-- `PING`, `PONG` or `MEET`: the sender's master, if it is a replica, and the slots that the
  sender or its master claims. -/
  | announce (slaveof : Option ν) (claims : Slot → Bool)
  /-- `UPDATE`: what the sender knows of another node. -/
  | update (about : ν) (configEpoch : Nat) (claims : Slot → Bool)
  | other

structure Packet (ν : Type) where
  src : ν
  currentEpoch : Nat
  configEpoch : Nat
  body : Body ν

variable {ν : Type} [LinearOrder ν]

def View.setNode (v : View ν) (n : ν) (x : Node ν) : View ν :=
  { v with nodes := update v.nodes n x }

@[simp] lemma View.setNode_self (v : View ν) (n : ν) (x : Node ν) :
    (v.setNode n x).nodes n = x := update_self _ _ _

lemma View.setNode_ne (v : View ν) {n m} (x : Node ν) (h : m ≠ n) :
    (v.setNode n x).nodes m = v.nodes m := update_of_ne h _ _

@[simp] lemma View.setNode_myself (v : View ν) (n : ν) (x : Node ν) :
    (v.setNode n x).myself = v.myself := rfl

/-- `numslots` is 0. -/
def View.noSlots (v : View ν) (n : ν) : Bool := allSlots.all fun j => v.slots j ≠ some n

/-- `memcmp` of the bitmap of a node with the one in the packet. -/
def View.dirtySlots (v : View ν) (n : ν) (claims : Slot → Bool) : Bool :=
  allSlots.any fun j => decide (v.slots j = some n) ≠ claims j

/-! ## Roles -/

def clusterSetNodeAsMaster (v : View ν) (n : ν) : View ν :=
  if (v.nodes n).isMaster then v
  else v.setNode n { v.nodes n with isMaster := true, slaveof := none }

def clusterDelNodeSlots (v : View ν) (n : ν) : View ν :=
  { v with slots := fun j => if v.slots j = some n then none else v.slots j }

def clusterSetMaster (v : View ν) (n : ν) : Outcome (View ν) := do
  check (n ≠ v.myself)
  check (v.noSlots v.myself = true)
  let me := v.nodes v.myself
  let v := if me.isMaster then { v with importing := fun _ => false } else v
  .ok (v.setNode v.myself { me with isMaster := false, slaveof := some n })

/-! ## Claims -/

/-- What the loop over the slots has found so far. -/
structure Scan (ν : Type) where
  slots : Slot → Option ν
  newmaster : Bool
  senderSlots : Nat
  migratedOurSlots : Nat
  dirtySlots : List Slot

/-- The slot is unassigned or its owner has a smaller configuration epoch. -/
def View.claimWins (v : View ν) (senderConfigEpoch : Nat) : Option ν → Bool
  | none => true
  | some owner => (v.nodes owner).configEpoch < senderConfigEpoch

def rebind (v : View ν) (sender : ν) (curmaster : Option ν) (acc : Scan ν) (j : Slot) : Scan ν :=
  let acc := if acc.slots j = some v.myself ∧ v.keysInSlot j ≠ 0 then
    { acc with dirtySlots := acc.dirtySlots ++ [j] } else acc
  let acc := if acc.slots j = curmaster then
    { acc with newmaster := true, migratedOurSlots := acc.migratedOurSlots + 1 } else acc
  { acc with slots := update acc.slots j (some sender) }

/-- One turn of the loop. -/
def scanSlot (v : View ν) (sender : ν) (senderConfigEpoch : Nat) (claims : Slot → Bool)
    (curmaster : Option ν) (acc : Scan ν) (j : Slot) : Scan ν :=
  if claims j then
    let acc := { acc with senderSlots := acc.senderSlots + 1 }
    if acc.slots j = some sender then acc
    else if v.importing j then acc
    else if v.claimWins senderConfigEpoch (acc.slots j) then rebind v sender curmaster acc j
    else acc
  else acc

def scanSlots (v : View ν) (sender : ν) (senderConfigEpoch : Nat) (claims : Slot → Bool)
    (curmaster : Option ν) : Scan ν :=
  allSlots.foldl (scanSlot v sender senderConfigEpoch claims curmaster) ⟨v.slots, false, 0, 0, []⟩

/-- The master of this node's master, if it is another node. -/
def View.grandmaster (v : View ν) : Option ν :=
  match (v.nodes v.myself).slaveof with
  | none => none
  | some m => match (v.nodes m).slaveof with
    | none => none
    | some g => if g = v.myself then none else some g

def clusterUpdateSlotsConfigWith (v : View ν) (sender : ν) (senderConfigEpoch : Nat)
    (claims : Slot → Bool) : Outcome (View ν) :=
  let me := v.nodes v.myself
  let curmaster := if me.isMaster then some v.myself else me.slaveof
  if sender = v.myself then .ok v
  else
    let scan := scanSlots v sender senderConfigEpoch claims curmaster
    let v := { v with slots := scan.slots }
    if v.noRedirection then .ok v
    else match scan.newmaster, curmaster with
      | true, none => .error .null
      | newmaster, _ =>
        if newmaster && (curmaster.all v.noSlots) &&
            (v.allowReplicaMigration || scan.senderSlots = scan.migratedOurSlots) then
          clusterSetMaster v sender
        else match v.grandmaster with
          | some g => clusterSetMaster v g
          | none => .ok { v with
              keysInSlot := fun j => if j ∈ scan.dirtySlots then 0 else v.keysInSlot j }

/-! ## Packets -/

/-- The epochs in the header of a packet. -/
def View.updateEpochs (v : View ν) (p : Packet ν) : View ν :=
  let v := if p.currentEpoch > v.currentEpoch then { v with currentEpoch := p.currentEpoch } else v
  if p.configEpoch > (v.nodes p.src).configEpoch then
    v.setNode p.src { v.nodes p.src with configEpoch := p.configEpoch }
  else v

/-- The sender may have turned from master to replica or back. -/
def View.updateRole (v : View ν) (sender : ν) : Option ν → View ν
  | none => clusterSetNodeAsMaster v sender
  | some master =>
    let v := if (v.nodes sender).isMaster then
      (clusterDelNodeSlots v sender).setNode sender { v.nodes sender with isMaster := false }
      else v
    v.setNode sender { v.nodes sender with slaveof := some master }

def clusterHandleConfigEpochCollision (v : View ν) (sender : ν) : View ν :=
  if (v.nodes sender).configEpoch ≠ (v.nodes v.myself).configEpoch ∨
      ¬(v.nodes sender).isMaster ∨ ¬(v.nodes v.myself).isMaster then v
  else if sender ≤ v.myself then v
  else
    let v := { v with currentEpoch := v.currentEpoch + 1 }
    v.setNode v.myself { v.nodes v.myself with configEpoch := v.currentEpoch }

/-- The part of `clusterProcessPacket` that announcements reach. -/
def View.processAnnounce (v : View ν) (sender : ν) (senderConfigEpoch : Nat)
    (slaveof : Option ν) (claims : Slot → Bool) : Outcome (View ν) := do
  let v := v.updateRole sender slaveof
  let v ← if (v.nodes sender).isMaster && v.dirtySlots sender claims then
    clusterUpdateSlotsConfigWith v sender senderConfigEpoch claims else .ok v
  if (v.nodes v.myself).isMaster && (v.nodes sender).isMaster &&
      senderConfigEpoch = (v.nodes v.myself).configEpoch then
    .ok (clusterHandleConfigEpochCollision v sender)
  else .ok v

def View.processUpdate (v : View ν) (n : ν) (reportedConfigEpoch : Nat) (claims : Slot → Bool) :
    Outcome (View ν) :=
  if (v.nodes n).configEpoch ≥ reportedConfigEpoch then .ok v
  else
    let v := if (v.nodes n).isMaster then v else clusterSetNodeAsMaster v n
    let v := v.setNode n { v.nodes n with configEpoch := reportedConfigEpoch }
    clusterUpdateSlotsConfigWith v n reportedConfigEpoch claims

def clusterProcessPacket (v : View ν) (p : Packet ν) : Outcome (View ν) :=
  let v := v.updateEpochs p
  match p.body with
  | .announce slaveof claims => v.processAnnounce p.src p.configEpoch slaveof claims
  | .update n configEpoch claims => v.processUpdate n configEpoch claims
  | .other => .ok v

end Redis.Cluster.Slots
