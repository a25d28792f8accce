import Mathlib.Data.Fintype.Card
import Redis.Cluster.Slots

/-! # The slot table and the bitmaps of the nodes

`server.cluster->slots` names the owner of a slot, and every node has a bitmap of the slots it
serves with their number. The handlers edit both, slot by slot. -/
namespace Redis.Cluster.SlotTable
open Function Lib Outcome Slots

/-- `clusterNode` is its name; a node that is not there has no bits. -/
structure Table (ν : Type) where
  slots : Slot → Option ν
  bitmap : ν → Slot → Bool
  numslots : ν → Nat

abbrev Edit (ν : Type) := Table ν → Outcome (Table ν)

variable {ν : Type} [DecidableEq ν] {t : Table ν}

/-- Write a bit, keep the count and return the old bit. -/
def writeSlotBit (b : Bool) (t : Table ν) (n : ν) (j : Slot) : Table ν × Bool :=
  let old := t.bitmap n j
  let count := if b then t.numslots n + 1 else t.numslots n - 1
  ({ t with
    bitmap := update t.bitmap n (update (t.bitmap n) j b)
    numslots := if old = b then t.numslots else update t.numslots n count }, old)

def clusterNodeSetSlotBit : Table ν → ν → Slot → Table ν × Bool := writeSlotBit true

def clusterNodeClearSlotBit : Table ν → ν → Slot → Table ν × Bool := writeSlotBit false

/-- Returns whether it is `C_OK`. -/
def clusterAddSlot (t : Table ν) (n : ν) (j : Slot) : Table ν × Bool :=
  if (t.slots j).isSome then (t, false)
  else
    let t := (clusterNodeSetSlotBit t n j).1
    ({ t with slots := update t.slots j (some n) }, true)

def clusterDelSlot (t : Table ν) (j : Slot) : Outcome (Table ν × Bool) :=
  match t.slots j with
  | none => .ok (t, false)
  | some n => do
    let (t, old) := clusterNodeClearSlotBit t n j
    check (old = true)
    .ok ({ t with slots := update t.slots j none }, true)

/-- `clusterDelSlot`, and `clusterAddSlot` where there is a new owner. -/
def rebind (owner : Option ν) (t : Table ν) (j : Slot) : Outcome (Table ν) := do
  let (t, _) ← clusterDelSlot t j
  .ok (owner.elim t fun n => (clusterAddSlot t n j).1)

/-- The loop over all slots, which looks at the table as it is by then. -/
def forSlots (p : Table ν → Slot → Bool) (owner : Option ν) : Edit ν :=
  allSlots.foldlM fun t j => if p t j then rebind owner t j else .ok t

def clusterDelNodeSlots (n : ν) : Edit ν := forSlots (fun t j => t.bitmap n j) none

/-- `slots` is the bitmap that was received. -/
def clusterUpdateSlotsConfigWith (myself sender : ν) (senderConfigEpoch : Nat)
    (slots importing : Slot → Bool) (configEpoch : ν → Nat) (t : Table ν) : Outcome (Table ν) :=
  if sender = myself then .ok t
  else forSlots (fun t j => slots j && t.slots j ≠ some sender && !importing j &&
    (t.slots j).all fun n => configEpoch n < senderConfigEpoch) (some sender) t

def clusterFailoverReplaceYourMaster (myself oldmaster : ν) : Edit ν :=
  forSlots (fun t j => t.bitmap oldmaster j) (some myself)

def clusterDelNode (delnode : ν) : Edit ν := forSlots (fun t j => t.slots j = some delnode) none

/-- `clusterReset`, with the nodes other than this one. -/
def clusterReset (others : List ν) (t : Table ν) : Outcome (Table ν) := do
  let t ← forSlots (fun _ _ => true) none t
  others.foldlM (fun t n => clusterDelNode n t) t

/-- What edits the slots. `add` is `ADDSLOTS` and the loading of a configuration, `del` is
`DELSLOTS` and `setslot` is `SETSLOT` with `NODE`. -/
inductive Handler : Edit ν → Prop
  | add (n : ν) (j : Slot) : Handler fun t => .ok (clusterAddSlot t n j).1
  | del (j : Slot) : Handler (rebind none · j)
  | setslot (n : ν) (j : Slot) : Handler (rebind (some n) · j)
  | delNodeSlots (n : ν) : Handler (clusterDelNodeSlots n)
  | update (myself sender : ν) (epoch : Nat) (slots importing : Slot → Bool)
      (configEpoch : ν → Nat) :
    Handler (clusterUpdateSlotsConfigWith myself sender epoch slots importing configEpoch)
  | failover (myself oldmaster : ν) : Handler (clusterFailoverReplaceYourMaster myself oldmaster)
  | delNode (n : ν) : Handler (clusterDelNode n)
  | reset (others : List ν) : Handler (clusterReset others)

/-! ## Agreement -/

def popcount (bitmap : Slot → Bool) : Nat := (Finset.univ.filter (bitmap · = true)).card

structure Agree (t : Table ν) : Prop where
  bits : ∀ n j, t.bitmap n j = true ↔ t.slots j = some n
  count : ∀ n, t.numslots n = popcount (t.bitmap n)

lemma popcount_set {f : Slot → Bool} {j} (h : f j = false) :
    popcount (update f j true) = popcount f + 1 := by
  have hset : Finset.univ.filter (update f j true · = true) =
      insert j (Finset.univ.filter (f · = true)) := by
    ext i
    by_cases hi : i = j <;> simp [hi]
  rw [popcount, hset, Finset.card_insert_of_notMem (by simp [h])]
  rfl

/-- A slot that is in no other bitmap gets or loses its owner. -/
lemma agree_write (h : Agree t) (b : Bool) {n j} (hn : t.bitmap n j = !b)
    (hm : ∀ m ≠ n, t.bitmap m j = false) : Agree { (writeSlotBit b t n j).1 with
      slots := update t.slots j (if b then some n else none) } := by
  refine ⟨fun m i => ?_, fun m => ?_⟩
  · rcases eq_or_ne m n with rfl | hne <;> by_cases hi : i = j
    · cases b <;> simp [writeSlotBit, hi]
    · simp [writeSlotBit, hi, h.bits]
    · cases b <;> simp [writeSlotBit, hne, hne.symm, hi, hm]
    · simp [writeSlotBit, hne, hi, h.bits]
  rcases eq_or_ne m n with rfl | hne
  · cases b with
    | true => simp [writeSlotBit, hn, popcount_set, h.count]
    | false =>
      have hsame : update (t.bitmap m) j true = t.bitmap m := by
        have hbit : t.bitmap m j = true := hn
        rw [← hbit, update_eq_self]
      have hcard := popcount_set (update_self j false (t.bitmap m))
      rw [update_idem, hsame] at hcard
      simp [writeSlotBit, hn, h.count, hcard]
  · simp [writeSlotBit, hne, hn, h.count]

lemma agree_add (h : Agree t) (n : ν) (j : Slot) : Agree (clusterAddSlot t n j).1 := by
  unfold clusterAddSlot
  split
  · exact h
  rename_i hfree
  have hbit : ∀ m, t.bitmap m j = false := fun m => by
    have hm := h.bits m j
    simp_all
  exact agree_write h true (hbit n) fun m _ => hbit m

lemma agree_del (h : Agree t) (j : Slot) : ∃ t' r, clusterDelSlot t j = .ok (t', r) ∧ Agree t' := by
  unfold clusterDelSlot
  cases hj : t.slots j with
  | none => exact ⟨t, false, rfl, h⟩
  | some n =>
    have hbit := (h.bits n j).mpr hj
    dsimp only
    rw [check_pos (by exact hbit)]
    refine ⟨_, true, rfl, agree_write h false hbit fun m hm => ?_⟩
    simp [← Bool.not_eq_true, h.bits, hj, hm.symm]

lemma agree_rebind (h : Agree t) (owner : Option ν) (j : Slot) :
    ∃ t', rebind owner t j = .ok t' ∧ Agree t' := by
  obtain ⟨t', r, hrun, h'⟩ := agree_del h j
  rw [rebind, hrun]
  cases owner with
  | none => exact ⟨t', rfl, h'⟩
  | some n => exact ⟨_, rfl, agree_add h' n j⟩

lemma agree_forSlots (p : Table ν → Slot → Bool) (owner : Option ν) (t : Table ν) (h : Agree t) :
    ∃ t', forSlots p owner t = .ok t' ∧ Agree t' := by
  refine foldlM_keeps (fun t j h => ?_) allSlots t h
  split
  · exact agree_rebind h owner j
  · exact ⟨t, rfl, h⟩

lemma Handler.agree {f : Edit ν} (hf : Handler f) (h : Agree t) :
    ∃ t', f t = .ok t' ∧ Agree t' := by
  cases hf with
  | add n j => exact ⟨_, rfl, agree_add h n j⟩
  | del j => exact agree_rebind h none j
  | setslot n j => exact agree_rebind h (some n) j
  | delNodeSlots => exact agree_forSlots _ _ t h
  | update =>
    unfold clusterUpdateSlotsConfigWith
    split
    · exact ⟨t, rfl, h⟩
    · exact agree_forSlots _ _ t h
  | failover => exact agree_forSlots _ _ t h
  | delNode => exact agree_forSlots _ _ t h
  | reset others =>
    obtain ⟨t', hrun, h'⟩ := agree_forSlots (fun _ _ => true) none t h
    rw [clusterReset, hrun]
    exact foldlM_keeps (fun t n h => agree_forSlots _ _ t h) others t' h'

/-- After every sequence of edits the table and the bitmaps agree, and no assertion has failed. -/
theorem tables_agree (edits : List { f : Edit ν // Handler f }) :
    ∃ t, edits.foldlM (fun t f => f.1 t) ⟨fun _ => none, fun _ _ => false, fun _ => 0⟩ = .ok t ∧
      Agree t ∧ ∀ n m j, t.bitmap n j = true → t.bitmap m j = true → n = m := by
  obtain ⟨t, hrun, h⟩ := foldlM_keeps (fun _ f => f.2.agree) edits
    ⟨fun _ => none, fun _ _ => false, fun _ => 0⟩ ⟨by simp, by simp [popcount]⟩
  refine ⟨t, hrun, h, fun n m j hn hm => ?_⟩
  have hown := (h.bits n j).mp hn
  rw [(h.bits m j).mp hm] at hown
  exact (Option.some.inj hown).symm

end Redis.Cluster.SlotTable
