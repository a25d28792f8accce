import Redis.Cluster.Slots
import Redis.Lib.Runs

/-! # Slots end up bound to the masters that claim them

A node rebinds a slot only to a claim that outranks the owner it has recorded, with the
configuration epoch the owner has by now, even where the owner no longer claims the slot.
While every recorded owner of a slot is outranked by the master that claims the slot now, one
announcement of that master is enough. -/
namespace Redis.Cluster.SlotConvergence
open List Lib Outcome Slots

variable {ν : Type} {v : View ν}

/-! ## What one call keeps -/

/-- The node knows its own role: a replica has a master and serves no slots. Its own
configuration epoch is not above the current epoch. -/
structure Placed (v : View ν) : Prop where
  epoch : (v.nodes v.myself).configEpoch ≤ v.currentEpoch
  role : (v.nodes v.myself).isMaster = true ↔ (v.nodes v.myself).slaveof = none
  empty : (v.nodes v.myself).isMaster = false → ∀ j, v.slots j ≠ some v.myself

/-- Configuration epochs only grow, and no slot is set to be imported. -/
structure Keeps (v v' : View ν) : Prop where
  myself : v'.myself = v.myself
  epochs : ∀ n, (v.nodes n).configEpoch ≤ (v'.nodes n).configEpoch
  importing : ∀ j, v.importing j = false → v'.importing j = false

lemma Keeps.refl (v : View ν) : Keeps v v := ⟨rfl, fun _ => le_rfl, fun _ h => h⟩

lemma Keeps.trans {u w} (h : Keeps u v) (h' : Keeps v w) : Keeps u w :=
  ⟨h'.myself.trans h.myself, fun n => Nat.le_trans (h.epochs n) (h'.epochs n),
    fun j hj => h'.importing j (h.importing j hj)⟩

lemma Placed.setSlots (h : Placed v) {slots : Slot → Option ν}
    (hs : ∀ j, slots j = some v.myself → v.slots j = some v.myself) :
    Placed { v with slots := slots } :=
  ⟨h.epoch, h.role, fun hr j hj => h.empty hr j (hs j hj)⟩

variable [LinearOrder ν] {claims : Slot → Bool} {n : ν} {v' : View ν} {p : Packet ν}

/-! ## The loop over the slots -/

/-- What the loop does to one slot. -/
def Rebinds (v : View ν) (sender : ν) (e : Nat) (claims : Slot → Bool) (j : Slot) : Prop :=
  claims j = true ∧ v.slots j ≠ some sender ∧ v.importing j = false ∧
    v.claimWins e (v.slots j) = true

instance (v : View ν) (sender : ν) (e : Nat) (claims : Slot → Bool) (j : Slot) :
    Decidable (Rebinds v sender e claims j) :=
  inferInstanceAs (Decidable (_ ∧ _ ∧ _ ∧ _))

lemma rebind_slots (v : View ν) (sender : ν) (curmaster : Option ν) (acc : Scan ν) (j : Slot) :
    (rebind v sender curmaster acc j).slots = Function.update acc.slots j (some sender) := by
  unfold rebind
  dsimp only
  split <;> split <;> rfl

/-- A turn changes nothing but its own slot, and that one as `Rebinds` says. -/
lemma scanSlot_slots (v : View ν) (sender : ν) (e : Nat) (claims : Slot → Bool)
    (curmaster : Option ν) (acc : Scan ν) (j : Slot) (hj : acc.slots j = v.slots j) (i : Slot) :
    (scanSlot v sender e claims curmaster acc j).slots i =
      if i = j ∧ Rebinds v sender e claims j then some sender else acc.slots i := by
  unfold scanSlot Rebinds
  dsimp only
  split
  · next hclaim =>
    split
    · next hsame => rw [if_neg fun h => h.2.2.1 (hj ▸ hsame)]
    next hother =>
    split
    · next himp => rw [if_neg fun h => Bool.false_ne_true (h.2.2.2.1.symm.trans himp)]
    next himp =>
    split
    · next hwins =>
      rw [rebind_slots]
      by_cases hi : i = j
      · subst hi
        rw [Function.update_self, if_pos]
        exact ⟨rfl, hclaim, hj ▸ hother, Bool.eq_false_iff.mpr himp, hj ▸ hwins⟩
      · rw [Function.update_of_ne hi, if_neg fun h => hi h.1]
    · next hwins => rw [if_neg fun h => hwins (hj ▸ h.2.2.2.2)]
  · next hclaim => rw [if_neg fun h => hclaim h.2.1]

lemma foldl_scanSlot_slots (v : View ν) (sender : ν) (e : Nat) (claims : Slot → Bool)
    (curmaster : Option ν) (js : List Slot) :
    ∀ acc : Scan ν, js.Nodup → (∀ j ∈ js, acc.slots j = v.slots j) → ∀ i,
      (js.foldl (scanSlot v sender e claims curmaster) acc).slots i =
        if i ∈ js ∧ Rebinds v sender e claims i then some sender else acc.slots i := by
  induction js with
  | nil =>
    intro acc _ _ i
    rfl
  | cons j js ih =>
    intro acc hnd hacc i
    obtain ⟨hj, hnd⟩ := nodup_cons.mp hnd
    have hturn := scanSlot_slots v sender e claims curmaster acc j (hacc j mem_cons_self)
    have hrest : ∀ k ∈ js, (scanSlot v sender e claims curmaster acc j).slots k = v.slots k := by
      intro k hk
      have hne : k ≠ j := fun he => hj (he ▸ hk)
      rw [hturn, if_neg fun h => hne h.1]
      exact hacc k (mem_cons_of_mem _ hk)
    rw [foldl_cons, ih _ hnd hrest, hturn]
    by_cases hi : i = j
    · subst hi
      rw [if_neg fun h => hj h.1]
      simp only [mem_cons_self]
    · simp only [hi, mem_cons, false_or, false_and, if_false]

lemma scanSlots_slots (v : View ν) (sender : ν) (e : Nat) (claims : Slot → Bool)
    (curmaster : Option ν) (i : Slot) :
    (scanSlots v sender e claims curmaster).slots i =
      if Rebinds v sender e claims i then some sender else v.slots i := by
  unfold scanSlots
  rw [foldl_scanSlot_slots v sender e claims curmaster allSlots _ (nodup_finRange _) fun _ _ => rfl]
  simp only [mem_allSlots, true_and]

lemma noSlots_iff (v : View ν) (n : ν) : v.noSlots n = true ↔ ∀ j, v.slots j ≠ some n := by
  unfold View.noSlots
  rw [all_eq_true]
  constructor
  · intro h j
    exact of_decide_eq_true (h j (mem_allSlots j))
  intro h j _
  exact decide_eq_true (h j)

lemma dirtySlots_eq_false (h : v.dirtySlots n claims = false) {j} (hj : claims j = true) :
    v.slots j = some n := by
  have hj' := any_eq_false.mp h j (mem_allSlots j)
  by_contra hne
  apply hj'
  rw [decide_eq_false hne, hj]
  decide

/-! ## Roles and epochs -/

lemma keeps_setNode {x}
    (h : (v.nodes n).configEpoch ≤ x.configEpoch) : Keeps v (v.setNode n x) := by
  refine ⟨rfl, fun m => ?_, fun _ hj => hj⟩
  by_cases hm : m = n
  · subst hm
    rw [View.setNode_self]
    exact h
  · rw [View.setNode_ne v x hm]

lemma Placed.setNode (h : Placed v) (x : Node ν) (hn : n ≠ v.myself) : Placed (v.setNode n x) := by
  have hme : (v.setNode n x).nodes v.myself = v.nodes v.myself := View.setNode_ne v x (Ne.symm hn)
  exact ⟨hme.symm ▸ h.epoch, hme.symm ▸ h.role, hme.symm ▸ h.empty⟩

lemma setMaster_spec (hn : n ≠ v.myself) (hepoch : (v.nodes v.myself).configEpoch ≤ v.currentEpoch)
    (hempty : ∀ j, v.slots j ≠ some v.myself) :
    ∃ v', clusterSetMaster v n = .ok v' ∧ Placed v' ∧ Keeps v v' ∧ v'.slots = v.slots ∧
      ∀ m ≠ v.myself, v'.nodes m = v.nodes m := by
  obtain ⟨w, hw⟩ : ∃ w, w = if (v.nodes v.myself).isMaster = true then
      { v with importing := fun _ => false } else v := ⟨_, rfl⟩
  have hw' : w.nodes = v.nodes ∧ w.slots = v.slots ∧ w.myself = v.myself ∧
      w.currentEpoch = v.currentEpoch ∧ Keeps v w := by
    rw [hw]
    split
    · exact ⟨rfl, rfl, rfl, rfl, rfl, fun _ => le_rfl, fun _ _ => rfl⟩
    · exact ⟨rfl, rfl, rfl, rfl, Keeps.refl v⟩
  obtain ⟨hnodes, hslots, hmyself, hcurrent, hkeeps⟩ := hw'
  obtain ⟨x, hx⟩ : ∃ x, x = { v.nodes v.myself with isMaster := false, slaveof := some n } :=
    ⟨_, rfl⟩
  have hrun : clusterSetMaster v n = .ok (w.setNode w.myself x) := by
    unfold clusterSetMaster
    rw [check_pos hn, bind_ok, check_pos ((noSlots_iff v v.myself).mpr hempty), bind_ok, hw, hx]
  refine ⟨_, hrun, ⟨?_, ?_, ?_⟩, hkeeps.trans (keeps_setNode ?_), hslots, ?_⟩
  · rw [View.setNode_myself, View.setNode_self, hx]
    exact hcurrent ▸ hepoch
  · rw [View.setNode_myself, View.setNode_self, hx]
    exact ⟨nofun, nofun⟩
  · intro _ j hj
    change w.slots j = some w.myself at hj
    rw [hslots, hmyself] at hj
    exact hempty j hj
  · rw [hnodes, hmyself, hx]
  · intro m hne
    rw [View.setNode_ne _ _ (hmyself ▸ hne), hnodes]

/-- The table after a claim of `sender`, and nothing else that matters. -/
structure Claimed (v v' : View ν) (sender : ν) (e : Nat) (claims : Slot → Bool) : Prop where
  placed : Placed v'
  keeps : Keeps v v'
  nodes : ∀ n ≠ v.myself, v'.nodes n = v.nodes n
  slots : ∀ j, v'.slots j =
    if sender ≠ v.myself ∧ Rebinds v sender e claims j then some sender else v.slots j

lemma Claimed.of_setMaster {slots : Slot → Option ν} {sender e} (hn : n ≠ v.myself)
    (hepoch : (v.nodes v.myself).configEpoch ≤ v.currentEpoch)
    (hempty : ∀ j, slots j ≠ some v.myself)
    (hslots : ∀ j, slots j = if sender ≠ v.myself ∧ Rebinds v sender e claims j then some sender
      else v.slots j)
    (h : clusterSetMaster { v with slots := slots } n = .ok v') : Claimed v v' sender e claims := by
  obtain ⟨w, hw, hp, hk, hs, hnodes⟩ := setMaster_spec (v := { v with slots := slots })
    hn hepoch hempty
  rw [h] at hw
  cases hw
  exact ⟨hp, ⟨hk.myself, hk.epochs, hk.importing⟩, hnodes, fun j => hs ▸ hslots j⟩

lemma grandmaster_spec {g} (h : v.grandmaster = some g) :
    g ≠ v.myself ∧ (v.nodes v.myself).slaveof ≠ none := by
  unfold View.grandmaster at h
  split at h
  · cases h
  next m hm =>
  split at h
  · cases h
  next g' _ =>
  split at h
  · cases h
  next hne =>
  cases h
  exact ⟨hne, fun hnone => (nomatch hm.symm.trans hnone)⟩

/-- A claim rebinds slots; the node itself may become a replica, of the claimer or of its
master's master. -/
lemma updateSlots_spec (hp : Placed v) (sender : ν) (e : Nat) (claims : Slot → Bool) :
    ∃ v', clusterUpdateSlotsConfigWith v sender e claims = .ok v' ∧
      Claimed v v' sender e claims := by
  unfold clusterUpdateSlotsConfigWith
  dsimp only
  by_cases hself : sender = v.myself
  · rw [if_pos hself]
    exact ⟨v, rfl, hp, Keeps.refl v, fun _ _ => rfl, fun j => (if_neg fun h => h.1 hself).symm⟩
  rw [if_neg hself]
  obtain ⟨curmaster, hcur⟩ : ∃ c, c = if (v.nodes v.myself).isMaster = true then
      some v.myself else (v.nodes v.myself).slaveof := ⟨_, rfl⟩
  obtain ⟨scan, hscan⟩ : ∃ s, s = scanSlots v sender e claims curmaster := ⟨_, rfl⟩
  have hslots : ∀ j, scan.slots j = if sender ≠ v.myself ∧ Rebinds v sender e claims j
      then some sender else v.slots j := by
    intro j
    rw [hscan, scanSlots_slots]
    simp only [ne_eq, hself, not_false_eq_true, true_and]
  have hmine : ∀ j, scan.slots j = some v.myself → v.slots j = some v.myself := by
    intro j hj
    rw [hslots] at hj
    split at hj
    · exact absurd (Option.some.inj hj) hself
    · exact hj
  have hkept : ∀ keys : Slot → Nat, Claimed v { v with slots := scan.slots, keysInSlot := keys }
      sender e claims := fun keys =>
    ⟨⟨hp.epoch, (hp.setSlots hmine).role, (hp.setSlots hmine).empty⟩,
      ⟨rfl, fun _ => le_rfl, fun _ h => h⟩, fun _ _ => rfl, hslots⟩
  have hsetMaster : ∀ n, n ≠ v.myself → (∀ j, scan.slots j ≠ some v.myself) →
      ∃ v', clusterSetMaster { v with slots := scan.slots } n = .ok v' ∧
        Claimed v v' sender e claims := by
    intro n hn hempty
    obtain ⟨v', hv', -⟩ := setMaster_spec (v := { v with slots := scan.slots }) hn hp.epoch hempty
    exact ⟨v', hv', Claimed.of_setMaster hn hp.epoch hempty hslots hv'⟩
  rw [← hcur, ← hscan]
  split
  · exact ⟨_, rfl, hkept v.keysInSlot⟩
  -- A replica has a master, so that the owner compared with is never missing.
  have hsome : curmaster ≠ none := by
    rw [hcur]
    split
    · exact nofun
    · next hrole => exact fun h => hrole (hp.role.mpr h)
  split
  · exact absurd rfl hsome
  split
  · next hnew =>
    refine hsetMaster sender hself ?_
    simp only [Bool.and_eq_true] at hnew
    by_cases hrole : (v.nodes v.myself).isMaster = true
    · rw [if_pos hrole] at hcur
      have hall := hnew.1.2
      rwa [hcur, Option.all_some, noSlots_iff] at hall
    · exact fun j hj => hp.empty (Bool.eq_false_iff.mpr hrole) j (hmine j hj)
  split
  · next g hg =>
    obtain ⟨hne, hslave⟩ := grandmaster_spec hg
    refine hsetMaster g hne fun j hj => ?_
    have hrole : (v.nodes v.myself).isMaster = false :=
      Bool.eq_false_iff.mpr fun h => hslave (hp.role.mp h)
    exact hp.empty hrole j (hmine j hj)
  · exact ⟨_, rfl, hkept _⟩

/-! ## One packet -/

/-- The node for which a packet claims slots, as a master, and with which epoch. -/
def claimOf (p : Packet ν) : Option (ν × Nat × (Slot → Bool)) :=
  match p.body with
  | .announce none claims => some (p.src, p.configEpoch, claims)
  | .announce (some _) _ => none
  | .update n e claims => some (n, e, claims)
  | .other => none

/-- The packet is not from the node that receives it, nor about it. -/
def Foreign (v : View ν) (p : Packet ν) : Prop :=
  p.src ≠ v.myself ∧ ∀ e claims, p.body ≠ .update v.myself e claims

lemma updateEpochs_spec (hp : Placed v) (hsrc : p.src ≠ v.myself) :
    ∃ v', v.updateEpochs p = v' ∧ Placed v' ∧ Keeps v v' ∧ v'.slots = v.slots ∧
      p.configEpoch ≤ (v'.nodes p.src).configEpoch ∧ v'.importing = v.importing ∧
      ∀ n, (v'.nodes n).isMaster = (v.nodes n).isMaster ∧ (n ≠ p.src → v'.nodes n = v.nodes n) := by
  obtain ⟨w, hw⟩ : ∃ w, w = if p.currentEpoch > v.currentEpoch then
      { v with currentEpoch := p.currentEpoch } else v := ⟨_, rfl⟩
  have hw' : w.nodes = v.nodes ∧ w.slots = v.slots ∧ w.myself = v.myself ∧
      w.importing = v.importing ∧ Placed w ∧ Keeps v w := by
    rw [hw]
    split
    · next hnew =>
      exact ⟨rfl, rfl, rfl, rfl, ⟨Nat.le_trans hp.epoch hnew.le, hp.role, hp.empty⟩,
        rfl, fun _ => le_rfl, fun _ h => h⟩
    · exact ⟨rfl, rfl, rfl, rfl, hp, Keeps.refl v⟩
  obtain ⟨hnodes, hslots, hmyself, himp, hplaced, hkeeps⟩ := hw'
  refine ⟨_, rfl, ?_⟩
  unfold View.updateEpochs
  rw [← hw]
  dsimp only
  split
  · next hnew =>
    refine ⟨hplaced.setNode _ (hmyself ▸ hsrc), hkeeps.trans (keeps_setNode hnew.le),
      hslots, ?_, himp, ?_⟩
    · rw [View.setNode_self]
    intro n
    by_cases hn : n = p.src
    · subst hn
      rw [View.setNode_self, hnodes]
      exact ⟨rfl, fun h => absurd rfl h⟩
    rw [View.setNode_ne _ _ hn, hnodes]
    exact ⟨rfl, fun _ => rfl⟩
  · next hold =>
    refine ⟨hplaced, hkeeps, hslots, Nat.le_of_not_gt hold, himp, fun n => ?_⟩
    rw [hnodes]
    exact ⟨rfl, fun _ => rfl⟩

lemma setNodeAsMaster_spec (hp : Placed v) (hn : n ≠ v.myself) :
    ∃ v', clusterSetNodeAsMaster v n = v' ∧ Placed v' ∧ Keeps v v' ∧ v'.slots = v.slots ∧
      v'.importing = v.importing ∧ (v'.nodes n).isMaster = true ∧
      ∀ m, (v'.nodes m).configEpoch = (v.nodes m).configEpoch := by
  refine ⟨_, rfl, ?_⟩
  unfold clusterSetNodeAsMaster
  split
  · next hmaster => exact ⟨hp, Keeps.refl v, rfl, rfl, hmaster, fun _ => rfl⟩
  refine ⟨hp.setNode _ hn, keeps_setNode le_rfl, rfl, rfl, ?_, ?_⟩
  · rw [View.setNode_self]
  intro m
  by_cases hm : m = n
  · subst hm
    rw [View.setNode_self]
  · rw [View.setNode_ne _ _ hm]

lemma collision_spec (hp : Placed v) (sender : ν) :
    ∃ v', clusterHandleConfigEpochCollision v sender = v' ∧ Placed v' ∧ Keeps v v' ∧
      v'.slots = v.slots := by
  refine ⟨_, rfl, ?_⟩
  unfold clusterHandleConfigEpochCollision
  split
  · exact ⟨hp, Keeps.refl v, rfl⟩
  split
  · exact ⟨hp, Keeps.refl v, rfl⟩
  refine ⟨⟨?_, ?_, ?_⟩, ?_, rfl⟩
  · rw [View.setNode_myself, View.setNode_self]
    exact le_rfl
  · rw [View.setNode_myself, View.setNode_self]
    exact hp.role
  · rw [View.setNode_myself, View.setNode_self]
    exact hp.empty
  have hbump : Keeps v { v with currentEpoch := v.currentEpoch + 1 } :=
    ⟨rfl, fun _ => le_rfl, fun _ h => h⟩
  exact hbump.trans (keeps_setNode (Nat.le_succ_of_le hp.epoch))

/-- A replica serves no slots: those of a master that turned into one are unassigned. -/
lemma updateRole_replica (hp : Placed v) (hn : n ≠ v.myself) (m : ν) :
    ∃ v', v.updateRole n (some m) = v' ∧ Placed v' ∧ Keeps v v' ∧
      (v'.nodes n).isMaster = false ∧ ∀ j, v'.slots j = v.slots j ∨ v.slots j = some n := by
  refine ⟨_, rfl, ?_⟩
  unfold View.updateRole
  dsimp only
  split
  · have hdel : Placed (clusterDelNodeSlots v n) := by
      refine hp.setSlots fun j hj => ?_
      split at hj
      · cases hj
      · exact hj
    have hkeeps : Keeps v (clusterDelNodeSlots v n) := ⟨rfl, fun _ => le_rfl, fun _ h => h⟩
    refine ⟨(hdel.setNode _ hn).setNode _ hn,
      (hkeeps.trans (keeps_setNode ?_)).trans (keeps_setNode le_rfl), ?_, ?_⟩
    · exact le_rfl
    · rw [View.setNode_self, View.setNode_self]
    intro j
    change (if v.slots j = some n then none else v.slots j) = v.slots j ∨ _
    split
    · next hj => exact .inr hj
    · exact .inl rfl
  · next hslave =>
    refine ⟨hp.setNode _ hn, keeps_setNode le_rfl, ?_, fun j => .inl rfl⟩
    rw [View.setNode_self]
    exact Bool.eq_false_iff.mpr hslave

/-- What a packet can do: a slot of a sender that is a replica may be unassigned, and a slot may
go to the node a packet claims it for, where that outranks the owner. -/
structure Processed (v v' : View ν) (p : Packet ν) : Prop where
  placed : Placed v'
  keeps : Keeps v v'
  slots : ∀ j, v'.slots j = v.slots j ∨
    (v.slots j = some p.src ∧ ∃ m claims, p.body = .announce (some m) claims) ∨
    (∃ n e claims, claimOf p = some (n, e, claims) ∧ claims j = true ∧ v'.slots j = some n ∧
      ∀ o, v.slots j = some o → (v.nodes o).configEpoch < e)

/-- A slot went to the node that claims it, which outranks the owner. -/
def Won (v v' : View ν) (n : ν) (e : Nat) (claims : Slot → Bool) (j : Slot) : Prop :=
  claims j = true ∧ v'.slots j = some n ∧ ∀ o, v.slots j = some o → (v.nodes o).configEpoch < e

/-- The claim is compared with what is known of the owner by then. -/
lemma claimed_slots {u sender e}
    (hk : Keeps u v) (hs : v.slots = u.slots) (h : Claimed v v' sender e claims) (j : Slot) :
    v'.slots j = u.slots j ∨ Won u v' sender e claims j := by
  rw [Won, h.slots j, hs]
  split
  · next hre =>
    obtain ⟨-, hclaim, -, -, hwins⟩ := hre
    refine .inr ⟨hclaim, rfl, fun o ho => ?_⟩
    rw [hs, ho] at hwins
    exact Nat.lt_of_le_of_lt (hk.epochs o) (of_decide_eq_true hwins)
  · exact .inl rfl

section
variable (hp : Placed v)
include hp

/-- The end of an announcement: a collision of epochs changes no slots. -/
lemma announceEnd_spec (sender : ν) (c : Bool) :
    ∃ v', (if c then .ok (clusterHandleConfigEpochCollision v sender) else .ok v :
        Outcome (View ν)) = .ok v' ∧ Placed v' ∧ Keeps v v' ∧ v'.slots = v.slots := by
  obtain ⟨w, hw, hpw, hkw, hsw⟩ := collision_spec hp sender
  cases c with
  | true => exact ⟨w, by rw [hw]; rfl, hpw, hkw, hsw⟩
  | false => exact ⟨v, rfl, hp, Keeps.refl v, rfl⟩

/-- An announcement by a master: its slots are compared with the table, and then claimed. -/
lemma processAnnounce_master (hn : n ≠ v.myself) (e : Nat) (claims : Slot → Bool) :
    ∃ v', v.processAnnounce n e none claims = .ok v' ∧ Placed v' ∧ Keeps v v' ∧
      (∀ j, v'.slots j = v.slots j ∨ Won v v' n e claims j) ∧
      ∀ j, claims j = true → v.importing j = false →
        (∀ o ≠ n, v.slots j = some o → (v.nodes o).configEpoch < e) → v'.slots j = some n := by
  obtain ⟨w, hw, hpw, hkw, hsw, hiw, hmaster, hew⟩ := setNodeAsMaster_spec hp hn
  unfold View.processAnnounce
  dsimp only [View.updateRole]
  rw [hw, hmaster, Bool.true_and]
  by_cases hdirty : w.dirtySlots n claims = true
  · obtain ⟨x, hx, hclaimed⟩ := updateSlots_spec hpw n e claims
    rw [if_pos hdirty, hx]
    obtain ⟨y, hy, hpy, hky, hsy⟩ := announceEnd_spec hclaimed.placed n _
    refine ⟨y, hy, hpy, (hkw.trans hclaimed.keeps).trans hky, ?_, ?_⟩
    · intro j
      rw [Won, hsy]
      exact claimed_slots hkw hsw hclaimed j
    intro j hj himp hout
    rw [hsy, hclaimed.slots j]
    by_cases hsame : w.slots j = some n
    · rw [hsame]
      exact ite_self _
    refine if_pos ⟨hkw.myself ▸ hn, hj, hsame, hiw ▸ himp, ?_⟩
    cases ho : w.slots j with
    | none => rfl
    | some o =>
      have hne : o ≠ n := fun h => hsame (h ▸ ho)
      refine decide_eq_true ?_
      rw [hew]
      exact hout o hne (hsw ▸ ho)
  · rw [if_neg hdirty]
    obtain ⟨y, hy, hpy, hky, hsy⟩ := announceEnd_spec hpw n _
    refine ⟨y, hy, hpy, hkw.trans hky, fun j => .inl (by rw [hsy, hsw]), ?_⟩
    intro j hj _ _
    rw [hsy]
    exact dirtySlots_eq_false (Bool.eq_false_iff.mpr hdirty) hj

lemma processAnnounce_replica (hn : n ≠ v.myself) (e : Nat)
    (m : ν) (claims : Slot → Bool) :
    ∃ v', v.processAnnounce n e (some m) claims = .ok v' ∧ Placed v' ∧ Keeps v v' ∧
      ∀ j, v'.slots j = v.slots j ∨ v.slots j = some n := by
  obtain ⟨w, hw, hpw, hkw, hslave, hsw⟩ := updateRole_replica hp hn m
  unfold View.processAnnounce
  rw [hw]
  dsimp only
  rw [hslave, Bool.false_and]
  obtain ⟨y, hy, hpy, hky, hsy⟩ := announceEnd_spec hpw n _
  exact ⟨y, hy, hpy, hkw.trans hky, fun j => by rw [hsy]; exact hsw j⟩

lemma processUpdate_spec (hn : n ≠ v.myself) (e : Nat) (claims : Slot → Bool) :
    ∃ v', v.processUpdate n e claims = .ok v' ∧ Placed v' ∧ Keeps v v' ∧
      ∀ j, v'.slots j = v.slots j ∨ Won v v' n e claims j := by
  unfold View.processUpdate
  split
  · exact ⟨v, rfl, hp, Keeps.refl v, fun _ => .inl rfl⟩
  next hnew =>
  obtain ⟨w, hw⟩ : ∃ w, w = if (v.nodes n).isMaster = true then v
      else clusterSetNodeAsMaster v n := ⟨_, rfl⟩
  obtain ⟨x, hx, hpx, hkx, hsx, -, -, hex⟩ := setNodeAsMaster_spec hp hn
  have hw' : Placed w ∧ Keeps v w ∧ w.slots = v.slots ∧
      (w.nodes n).configEpoch = (v.nodes n).configEpoch := by
    rw [hw]
    split
    · exact ⟨hp, Keeps.refl v, rfl, rfl⟩
    rw [hx]
    exact ⟨hpx, hkx, hsx, hex n⟩
  obtain ⟨hpw, hkw, hsw, hew⟩ := hw'
  have hle : (w.nodes n).configEpoch ≤ e := hew ▸ Nat.le_of_not_ge hnew
  obtain ⟨y, hy, hclaimed⟩ := updateSlots_spec
    (hpw.setNode { w.nodes n with configEpoch := e } (hkw.myself ▸ hn)) n e claims
  have hk : Keeps v (w.setNode n { w.nodes n with configEpoch := e }) :=
    hkw.trans (keeps_setNode hle)
  rw [← hw]
  exact ⟨y, hy, hclaimed.placed, hk.trans hclaimed.keeps, claimed_slots hk hsw hclaimed⟩

lemma processPacket_spec (hf : Foreign v p) :
    ∃ v', clusterProcessPacket v p = .ok v' ∧ Processed v v' p := by
  obtain ⟨w, hw, hpw, hkw, hsw, -, -, -⟩ := updateEpochs_spec hp hf.1
  have hn : p.src ≠ w.myself := hkw.myself ▸ hf.1
  unfold clusterProcessPacket
  rw [hw]
  -- The header is processed first; epochs known then are not below those known before.
  have hclaim : ∀ {v' n e claims}, Placed v' → Keeps w v' →
      (∀ j, v'.slots j = w.slots j ∨ Won w v' n e claims j) → claimOf p = some (n, e, claims) →
      Processed v v' p := by
    intro v' n e claims hp' hk' h hc
    refine ⟨hp', hkw.trans hk', fun j => ?_⟩
    rcases hsw ▸ h j with h | ⟨hj, hv', hout⟩
    · exact .inl h
    exact .inr (.inr ⟨n, e, claims, hc, hj, hv', fun o ho =>
      Nat.lt_of_le_of_lt (hkw.epochs o) (hout o (hsw ▸ ho))⟩)
  cases hb : p.body with
  | other =>
    exact ⟨w, rfl, hpw, hkw, fun j => .inl (by rw [hsw])⟩
  | update n e claims =>
    have hne : n ≠ w.myself := by
      rw [hkw.myself]
      exact fun h => hf.2 e claims (h ▸ hb)
    obtain ⟨x, hx, hpx, hkx, hsx⟩ := processUpdate_spec hpw hne e claims
    exact ⟨x, hx, hclaim hpx hkx hsx (by rw [claimOf, hb])⟩
  | announce slaveof claims =>
    cases slaveof with
    | none =>
      obtain ⟨x, hx, hpx, hkx, hsx, -⟩ := processAnnounce_master hpw hn p.configEpoch claims
      exact ⟨x, hx, hclaim hpx hkx hsx (by rw [claimOf, hb])⟩
    | some m =>
      obtain ⟨x, hx, hpx, hkx, hsx⟩ := processAnnounce_replica hpw hn p.configEpoch m claims
      refine ⟨x, hx, hpx, hkw.trans hkx, fun j => ?_⟩
      rcases hsx j with h | h
      · exact .inl (by rw [h, hsw])
      · exact .inr (.inl ⟨hsw ▸ h, m, claims, hb⟩)

/-- One announcement of a master binds the slots it claims, where it outranks their owners. -/
lemma processPacket_binds (hf : Foreign v p) (hb : p.body = .announce none claims)
    (hrun : clusterProcessPacket v p = .ok v') :
    p.configEpoch ≤ (v'.nodes p.src).configEpoch ∧
    ∀ j, claims j = true → v.importing j = false →
      (∀ o ≠ p.src, v.slots j = some o → (v.nodes o).configEpoch < p.configEpoch) →
      v'.slots j = some p.src := by
  obtain ⟨w, hw, hpw, hkw, hsw, hew, hiw, hnodes⟩ := updateEpochs_spec hp hf.1
  have hn : p.src ≠ w.myself := hkw.myself ▸ hf.1
  obtain ⟨x, hx, -, hkx, -, hbind⟩ := processAnnounce_master hpw hn p.configEpoch claims
  unfold clusterProcessPacket at hrun
  rw [hw, hb] at hrun
  dsimp only at hrun
  rw [hx] at hrun
  cases hrun
  refine ⟨hew.trans (hkx.epochs _), fun j hj himp hout => hbind j hj (hiw ▸ himp) ?_⟩
  intro o ho hslot
  rw [(hnodes o).2 ho]
  exact hout o ho (hsw ▸ hslot)

end

/-! ## Runs -/

/-- What a master claims now. -/
structure Claim where
  configEpoch : Nat
  slots : Slot → Bool

/-- All the slots of the claim are bound to `m`, with at least its epoch. -/
structure Bound (v : View ν) (m : ν) (c : Claim) : Prop where
  epoch : c.configEpoch ≤ (v.nodes m).configEpoch
  slots : ∀ j, c.slots j = true → v.slots j = some m

/-- Before the packet, a slot that `m` claims is neither imported nor bound to another node
whose recorded configuration epoch `m` does not outrank; and the packet claims no such slot
for another node with an epoch above that of `m`. -/
def Outranks (m : ν) (c : Claim) (v : View ν) (p : Packet ν) : Prop :=
  ∀ j, c.slots j = true → v.importing j = false ∧
    (∀ o ≠ m, v.slots j = some o → (v.nodes o).configEpoch < c.configEpoch) ∧
    (∀ n ≠ m, ∀ e claims, claimOf p = some (n, e, claims) → claims j = true → e ≤ c.configEpoch)

/-- The packet announces `m` as a replica. -/
def Demotes (m : ν) (p : Packet ν) : Prop :=
  p.src = m ∧ ∃ master claims, p.body = .announce (some master) claims

lemma Bound.step {v v' : View ν} {p : Packet ν} {m : ν} {c : Claim} (h : Bound v m c)
    (hstep : Processed v v' p) (hrank : Outranks m c v p) (hd : ¬Demotes m p) : Bound v' m c := by
  refine ⟨Nat.le_trans h.epoch (hstep.keeps.epochs m), fun j hj => ?_⟩
  have hslot := h.slots j hj
  rcases hstep.slots j with hsame | ⟨hsrc, hreplica⟩ | ⟨n, e, claims, hclaim, hcj, hn, hout⟩
  · rw [hsame, hslot]
  · rw [hslot] at hsrc
    exact absurd ⟨(Option.some.inj hsrc).symm, hreplica⟩ hd
  by_cases hne : n = m
  · rw [hn, hne]
  have hlt := hout m hslot
  have hle := (hrank j hj).2.2 n hne e claims hclaim hcj
  have hge := h.epoch
  omega

/-- The packet is the up-to-date announcement of `m`. -/
def Announces (m : ν) (c : Claim) (p : Packet ν) : Prop :=
  p.src = m ∧ p.configEpoch = c.configEpoch ∧ p.body = .announce none c.slots

/-- An up-to-date announcement of `m` is among the packets, and `m` does not announce itself
as a replica after it. -/
def Delivered (m : ν) (c : Claim) (ps : List (Packet ν)) : Prop :=
  ∃ before p after, ps = before ++ p :: after ∧ Announces m c p ∧ ∀ q ∈ after, ¬Demotes m q

def step (v : View ν) (p : Packet ν) : Option (View ν) := (clusterProcessPacket v p).toOption

lemma step_spec (hp : Placed v) (hf : Foreign v p) :
    ∃ v', clusterProcessPacket v p = .ok v' ∧ step v p = some v' ∧ Processed v v' p := by
  obtain ⟨v', hv', hproc⟩ := processPacket_spec hp hf
  exact ⟨v', hv', by rw [step, hv']; rfl, hproc⟩

/-- The claims of all masters outrank the owners that the node has recorded. -/
def OutranksAll (now : ν → Option Claim) (v : View ν) (p : Packet ν) : Prop :=
  ∀ m c, now m = some c → Outranks m c v p

variable {c : Claim}

lemma bound_of_announces (hp : Placed v) (hf : Foreign v p)
    {m} (ha : Announces m c p) (hrank : Outranks m c v p)
    (hrun : clusterProcessPacket v p = .ok v') : Bound v' m c := by
  obtain ⟨rfl, hepoch, hbody⟩ := ha
  obtain ⟨hknown, hbinds⟩ := processPacket_binds hp hf hbody hrun
  refine ⟨hepoch ▸ hknown, fun j hj => hbinds j hj (hrank j hj).1 ?_⟩
  rw [hepoch]
  exact (hrank j hj).2.1

/-- What is bound stays bound, and what is announced on the way gets bound. -/
lemma run_bound {now : ν → Option Claim} (ps : List (Packet ν)) :
    ∀ v : View ν, Placed v → (∀ p ∈ ps, Foreign v p) → Runs.Along step (OutranksAll now) ps v →
      ∃ v', Runs.run step ps v = some v' ∧ ∀ m c, now m = some c →
        (Bound v m c ∧ ∀ q ∈ ps, ¬Demotes m q) ∨ Delivered m c ps → Bound v' m c := by
  induction ps with
  | nil =>
    intro v _ _ _
    refine ⟨v, rfl, fun m c _ h => ?_⟩
    rcases h with h | ⟨before, p, after, hps, -⟩
    · exact h.1
    · exact absurd hps.symm (append_ne_nil_of_right_ne_nil before (cons_ne_nil p after))
  | cons p ps ih =>
    intro v hp hf halong
    have hfp := hf p mem_cons_self
    obtain ⟨w, hrun, hstep, hproc⟩ := step_spec hp hfp
    have hfw : ∀ q ∈ ps, Foreign w q := by
      intro q hq
      unfold Foreign
      rw [hproc.keeps.myself]
      exact hf q (mem_cons_of_mem _ hq)
    obtain ⟨v', hv', hbound⟩ := ih w hproc.placed hfw (halong.2 w hstep)
    refine ⟨v', ?_, fun m c hm h => hbound m c hm ?_⟩
    · rw [Runs.run, hstep]
      exact hv'
    have hrank := halong.1 m c hm
    rcases h with ⟨hb, hd⟩ | ⟨before, q, after, hps, ha, hd⟩
    · refine .inl ⟨hb.step hproc hrank (hd p mem_cons_self), fun q hq => ?_⟩
      exact hd q (mem_cons_of_mem _ hq)
    cases before with
    | nil =>
      obtain ⟨rfl, rfl⟩ := List.cons.inj hps
      exact .inl ⟨bound_of_announces hp hfp ha hrank hrun, hd⟩
    | cons b before =>
      obtain ⟨rfl, rfl⟩ := List.cons.inj hps
      exact .inr ⟨before, q, after, rfl, ha, hd⟩

/-- After an announcement of every other master, each slot is bound to the master that claims
it, where along the run the claims outrank the recorded owners. -/
theorem slots_converge (now : ν → Option Claim) (v : View ν) (ps : List (Packet ν))
    (hplaced : Placed v) (hforeign : ∀ p ∈ ps, Foreign v p)
    (hself : ∀ c, now v.myself = some c → Bound v v.myself c)
    (hdelivered : ∀ m c, now m = some c → m ≠ v.myself → Delivered m c ps)
    (hrank : Runs.Along step (OutranksAll now) ps v) :
    ∃ v', Runs.run step ps v = some v' ∧
      ∀ m c j, now m = some c → c.slots j = true → v'.slots j = some m := by
  obtain ⟨v', hv', hbound⟩ := run_bound ps v hplaced hforeign hrank
  refine ⟨v', hv', fun m c j hm hj => (hbound m c hm ?_).slots j hj⟩
  by_cases hme : m = v.myself
  · subst hme
    exact .inl ⟨hself c hm, fun q hq hd => (hforeign q hq).1 hd.1⟩
  · exact .inr (hdelivered m c hm hme)

/-! ## A master that gave up a slot -/

/-- The node 0, a master without slots, and what it knows of two other masters. -/
def viewOf (slots : Slot → Option Nat) (epochs : Nat → Nat) : View Nat where
  myself := 0
  nodes n := ⟨true, none, epochs n⟩
  slots := slots
  importing _ := false
  keysInSlot _ := 0
  currentEpoch := 20
  allowReplicaMigration := true
  noRedirection := false

def announcement (src epoch : Nat) (claims : Slot → Bool) : Packet Nat :=
  ⟨src, 20, epoch, .announce none claims⟩

lemma placed_viewOf {slots : Slot → Option Nat} {epochs : Nat → Nat} (h : epochs 0 ≤ 20) :
    Placed (viewOf slots epochs) :=
  ⟨h, ⟨fun _ => rfl, fun _ => rfl⟩, nofun⟩

lemma foreign_announcement {v src epoch}
    (h : src ≠ v.myself) : Foreign v (announcement src epoch claims) :=
  ⟨h, nofun⟩

def slotZero : Slot := ⟨0, by decide⟩

def slotOne : Slot := ⟨1, by decide⟩

/-- The slot 0 was bound to the master 1, and the master 2 claims it with a greater epoch. -/
def movedClaims : Nat → Option Claim
  | 1 => some ⟨5, fun _ => false⟩
  | 2 => some ⟨6, fun j => j = slotZero⟩
  | _ => none

lemma movedClaims_slots {m j} (hm : movedClaims m = some c)
    (hj : c.slots j = true) : m = 2 ∧ c.configEpoch = 6 ∧ j = 0 := by
  unfold movedClaims at hm
  split at hm
  · cases hm
    cases hj
  · cases hm
    exact ⟨rfl, rfl, of_decide_eq_true hj⟩
  · cases hm

theorem slots_converge_moved :
    ∃ v', Runs.run step [announcement 2 6 fun j => j = 0, announcement 1 5 fun _ => false]
        (viewOf (fun _ => some 1) fun n => if n = 1 then 5 else 0) = some v' ∧
      ∀ m c j, movedClaims m = some c → c.slots j = true → v'.slots j = some m := by
  refine slots_converge movedClaims _ _ (placed_viewOf (by decide)) ?_ ?_ ?_ ?_
  · exact forall_mem_cons.mpr ⟨foreign_announcement nofun,
      forall_mem_singleton.mpr (foreign_announcement nofun)⟩
  · exact nofun
  · intro m c hm hne
    unfold movedClaims at hm
    split at hm
    · cases hm
      exact ⟨[_], _, [], rfl, ⟨rfl, rfl, rfl⟩, nofun⟩
    · cases hm
      refine ⟨[], _, [_], rfl, ⟨rfl, rfl, rfl⟩, fun q hq hd => ?_⟩
      rcases mem_singleton.mp hq with rfl
      exact absurd hd.1 (by decide)
    · cases hm
  have hp : Placed (viewOf (fun _ => some 1) fun n => if n = 1 then 5 else 0) :=
    placed_viewOf (by decide)
  have hf : Foreign (viewOf (fun _ => some 1) fun n => if n = 1 then 5 else 0)
      (announcement 2 6 fun j => j = 0) := foreign_announcement nofun
  have hfirst : Outranks 2 ⟨6, fun j => j = 0⟩
      (viewOf (fun _ => some 1) fun n => if n = 1 then 5 else 0)
      (announcement 2 6 fun j => j = 0) := by
    intro j _
    refine ⟨rfl, fun o _ ho => ?_, fun n hn e claims hc => ?_⟩
    · cases ho
      decide
    cases hc
    exact absurd rfl hn
  have hmain : ∀ v : View Nat, ∀ p : Packet Nat, Outranks 2 ⟨6, fun j => j = 0⟩ v p →
      OutranksAll movedClaims v p := by
    intro v p h m c hm j hj
    obtain ⟨rfl, he, rfl⟩ := movedClaims_slots hm hj
    have h0 := h 0 rfl
    rw [he]
    exact h0
  refine ⟨hmain _ _ hfirst, fun v hv => ⟨hmain _ _ ?_, fun _ _ => trivial⟩⟩
  obtain ⟨w, hrun, hstep, hproc⟩ := step_spec hp hf
  rw [hstep] at hv
  cases hv
  have hb := bound_of_announces hp hf ⟨rfl, rfl, rfl⟩ hfirst hrun
  intro j hj
  refine ⟨hproc.keeps.importing j rfl, fun o ho hslot => ?_, fun n _ e claims hc hcj => ?_⟩
  · rw [hb.slots j hj] at hslot
    exact absurd (Option.some.inj hslot).symm ho
  cases hc
  cases hcj

/-- The master 1 gave the slot 0 to the master 2 and got a greater epoch afterwards. -/
def driftedClaims : Nat → Option Claim
  | 0 => some ⟨0, fun _ => false⟩
  | 1 => some ⟨10, fun j => j = slotOne⟩
  | 2 => some ⟨6, fun j => j = slotZero⟩
  | _ => none

/-- An announcement from before, and then one of each master. -/
def driftedPackets : List (Packet Nat) :=
  [announcement 1 5 fun j => j = slotZero || j = slotOne, announcement 1 10 fun j => j = slotOne,
    announcement 2 6 fun j => j = slotZero]

lemma foreign_driftedPackets {v} (hv : v.myself = 0) : ∀ p ∈ driftedPackets, Foreign v p := by
  intro p hp
  simp only [driftedPackets, mem_cons, not_mem_nil, or_false] at hp
  rcases hp with rfl | rfl | rfl <;>
    exact foreign_announcement (by rw [hv]; exact nofun)

lemma driftedClaims_disjoint {m m' c'} (hm : driftedClaims m = some c)
    (hm' : driftedClaims m' = some c') (hne : m ≠ m') :
    c.configEpoch ≠ c'.configEpoch ∧ ∀ j, ¬(c.slots j = true ∧ c'.slots j = true) := by
  unfold driftedClaims at hm hm'
  split at hm <;> split at hm' <;> cases hm <;> cases hm'
  all_goals first
    | exact absurd rfl hne
    | refine ⟨by decide, fun j hj => ?_⟩
  all_goals
    obtain ⟨h, h'⟩ := hj
    simp only [decide_eq_true_eq, Bool.false_eq_true] at h h'
  · exact absurd (h.symm.trans h') (by decide)
  · exact absurd (h.symm.trans h') (by decide)

theorem slot_stays_with_former_owner : Placed (viewOf (fun _ => none) fun _ => 0) ∧
    (∀ p ∈ driftedPackets, Foreign (viewOf (fun _ => none) fun _ => 0) p) ∧
    (∀ m m' c c', driftedClaims m = some c → driftedClaims m' = some c' → m ≠ m' →
      c.configEpoch ≠ c'.configEpoch ∧ ∀ j, ¬(c.slots j = true ∧ c'.slots j = true)) ∧
    (∀ m c, driftedClaims m = some c → m ≠ 0 → Delivered m c driftedPackets) ∧
    ∃ v c, Runs.run step driftedPackets (viewOf (fun _ => none) fun _ => 0) = some v ∧
      driftedClaims 2 = some c ∧ c.slots 0 = true ∧ v.slots 0 = some 1 := by
  have hp : Placed (viewOf (fun _ => none) fun _ => 0) := placed_viewOf (by decide)
  refine ⟨hp, foreign_driftedPackets rfl, fun _ _ _ _ => driftedClaims_disjoint, ?_, ?_⟩
  · intro m c hm hne
    unfold driftedClaims at hm
    split at hm
    · exact absurd rfl hne
    · cases hm
      refine ⟨[_], _, [_], rfl, ⟨rfl, rfl, rfl⟩, fun q hq hd => ?_⟩
      rcases mem_singleton.mp hq with rfl
      exact absurd hd.1 (by decide)
    · cases hm
      exact ⟨[_, _], _, [], rfl, ⟨rfl, rfl, rfl⟩, nofun⟩
    · cases hm
  have hmem : ∀ {v : View Nat} {p : Packet Nat}, v.myself = 0 → p ∈ driftedPackets →
      Foreign v p := fun hv => foreign_driftedPackets hv _
  have hf₁ := hmem (v := viewOf (fun _ => none) fun _ => 0) rfl mem_cons_self
  obtain ⟨v₁, hrun₁, hstep₁, hproc₁⟩ := step_spec hp hf₁
  have hf₂ := hmem hproc₁.keeps.myself (mem_cons_of_mem _ mem_cons_self)
  obtain ⟨v₂, hrun₂, hstep₂, hproc₂⟩ := step_spec hproc₁.placed hf₂
  have hf₃ := hmem (hproc₂.keeps.myself.trans hproc₁.keeps.myself)
    (mem_cons_of_mem _ (mem_cons_of_mem _ mem_cons_self))
  obtain ⟨v₃, -, hstep₃, hproc₃⟩ := step_spec hproc₂.placed hf₃
  refine ⟨v₃, _, ?_, rfl, rfl, ?_⟩
  · simp only [driftedPackets, Runs.run, hstep₁, hstep₂, hstep₃, Option.bind_some]
  -- The first packet binds the slot, the second only raises its owner's epoch.
  have h₁ : v₁.slots 0 = some 1 :=
    (processPacket_binds hp hf₁ rfl hrun₁).2 0 rfl rfl nofun
  have h₂ : v₂.slots 0 = some 1 := by
    rcases hproc₂.slots 0 with h | ⟨-, m, claims, hb⟩ | ⟨n, e, claims, hc, hj, -⟩
    · rw [h, h₁]
    · cases hb
    cases hc
    cases hj
  have hepoch : 10 ≤ (v₂.nodes 1).configEpoch := (processPacket_binds hproc₁.placed hf₂ rfl hrun₂).1
  rcases hproc₃.slots 0 with h | ⟨-, m, claims, hb⟩ | ⟨n, e, claims, hc, -, -, hout⟩
  · rw [h, h₂]
  · cases hb
  cases hc
  have hlt : (v₂.nodes 1).configEpoch < 6 := hout 1 h₂
  omega

end Redis.Cluster.SlotConvergence
