import Redis.Lib.Runs
import Redis.Streams.TrimReplication

/-! # Streams over their history

Entries are added above the last ID, deleted into tombstones and trimmed from the front.
The order of the IDs, tombstones included, is what a trim by ID relies on. `XSETID` moves the
last ID by hand, and compares it with the last live entry only. -/
namespace Redis.Streams.History
open List Lib Trim TrimCut TrimReplication

/-! ## Deleting entries -/

/-- The first live entry with the ID is marked; none where there is no such entry. -/
def markItem (id : StreamID) : List Item → Option (List Item)
  | [] => none
  | i :: is =>
    if i.id = id ∧ i.deleted = false then some ({ i with deleted := true } :: is)
    else (markItem id is).map (i :: ·)

/-- `streamIteratorRemoveEntry`: a node goes with its last live entry. -/
def removeEntry (id : StreamID) : List Node → Option (List Node)
  | [] => none
  | node :: rest =>
    match markItem id node.items with
    | some its =>
      if node.count = 1 then some rest
      else some (⟨node.count - 1, node.marked + 1, its⟩ :: rest)
    | none => (removeEntry id rest).map (node :: ·)

def streamDeleteItem (s : Stream) (id : StreamID) : Option Stream :=
  (removeEntry id s.nodes).map fun nodes => { s with nodes, length := s.length - 1 }

/-- The loop of `XDEL`: the stream, whether its first entry was deleted, and whether any was. -/
def deleteItems : List StreamID → Stream × Bool × Bool → Stream × Bool × Bool
  | [], r => r
  | id :: ids, r =>
    match streamDeleteItem r.1 id with
    | some s => deleteItems ids (s, r.2.1 || decide (streamCompareID id s.firstId = 0), true)
    | none => deleteItems ids r

def xdelCommand (s : Stream) (ids : List StreamID) : Stream :=
  let (s, firstEntry, deleted) := deleteItems ids (s, false, false)
  if deleted then
    if s.length = 0 then { s with firstId := .zero }
    else if firstEntry then { s with firstId := firstEdgeID s.nodes true }
    else s
  else s

/-! ## Setting the last ID -/

/-- `XSETID` with its options; `MAXDELETEDID` is `0-0` where it is not given. A refused one
changes nothing. -/
def xsetidCommand (s : Stream) (id : StreamID) (entriesAdded : Option Nat)
    (maxXdelId : StreamID) : Stream :=
  if streamCompareID id maxXdelId < 0 then s
  else if 0 < s.length ∧ (live s).getLast?.any (fun e => streamCompareID id e.1 < 0) then s
  else if 0 < s.length ∧ entriesAdded.any (· < s.length) then s
  else { s with lastId := id }

inductive Op where
  /-- `XADD` or `XTRIM`, under the limits in force by then. -/
  | command (c : Config) (mustObey : Bool) (now : UInt64) (cmd : Command)
  | xdel (ids : List StreamID)
  | xsetid (id : StreamID) (entriesAdded : Option Nat) (maxXdelId : StreamID)

def apply (s : Stream) : Op → Stream
  | .command c mustObey now cmd => (execute c mustObey now s cmd).1
  | .xdel ids => xdelCommand s ids
  | .xsetid id entriesAdded maxXdelId => xsetidCommand s id entriesAdded maxXdelId

def step (s : Stream) (op : Op) : Option Stream := some (apply s op)

def streamNew : Stream := { nodes := [], length := 0, firstId := .zero, lastId := .zero }

/-- No last ID is set below an ID that is still in a node, be it of a tombstone. -/
def KeepsOrder (s : Stream) : Op → Prop
  | .xsetid id _ _ => ∀ i ∈ items s.nodes, i.id.key ≤ id.key
  | _ => True

/-! ## The order is kept -/

lemma markItem_spec {id} : ∀ {its its' : List Item}, markItem id its = some its' →
    its'.map (·.id) = its.map (·.id) ∧ (liveItems its').length + 1 = (liveItems its).length
  | [], _, h => by cases h
  | i :: is, _, h => by
    rw [markItem] at h
    split at h
    · rename_i hi
      cases h
      rw [liveItems_cons_live hi.2]
      exact ⟨rfl, rfl⟩
    obtain ⟨is', hrest, rfl⟩ := Option.map_eq_some_iff.mp h
    obtain ⟨hids, hlive⟩ := markItem_spec hrest
    refine ⟨by rw [map_cons, map_cons, hids], ?_⟩
    cases hdel : i.deleted with
    | true => rw [liveItems_cons_deleted hdel, liveItems_cons_deleted hdel, hlive]
    | false =>
      rw [liveItems_cons_live hdel, liveItems_cons_live hdel, length_cons, length_cons, hlive]

lemma removeEntry_spec {id} : ∀ {nodes nodes' : List Node}, (∀ node ∈ nodes, Counted node) →
    removeEntry id nodes = some nodes' → (∀ node ∈ nodes', Counted node) ∧
      (items nodes').map (·.id) <+ (items nodes).map (·.id) ∧
      (liveItems (items nodes')).length + 1 = (liveItems (items nodes)).length
  | [], _, _, h => by cases h
  | node :: rest, _, hcounted, h => by
    obtain ⟨hnode, hrest⟩ := forall_mem_cons.mp hcounted
    rw [removeEntry] at h
    simp only [items_cons, map_append, liveItems_append, length_append]
    cases hmark : markItem id node.items with
    | some its =>
      obtain ⟨hids, hlive⟩ := markItem_spec hmark
      have hcount := hnode.count
      have hmarked := hnode.marked
      simp only [hmark] at h
      split at h
      · cases h
        exact ⟨hrest, sublist_append_right .., by omega⟩
      cases h
      have hsize := congrArg List.length hids
      simp only [length_map] at hsize
      have hits : its ≠ [] := length_pos_iff.mp (by omega)
      simp only [forall_mem_cons, items_cons, map_append, hids, liveItems_append, length_append]
      exact ⟨⟨⟨hits, by dsimp only; omega, by dsimp only; omega⟩, hrest⟩, Sublist.refl _, by omega⟩
    | none =>
      simp only [hmark] at h
      obtain ⟨rest', hremove, rfl⟩ := Option.map_eq_some_iff.mp h
      obtain ⟨hcounted', hids, hlive⟩ := removeEntry_spec hrest hremove
      simp only [forall_mem_cons, items_cons, map_append, liveItems_append, length_append]
      exact ⟨⟨hnode, hcounted'⟩, (Sublist.refl _).append hids, by omega⟩

variable {s : Stream}

lemma streamDeleteItem_wellFormed {id s'} (h : WellFormed s)
    (hdelete : streamDeleteItem s id = some s') : WellFormed s' := by
  obtain ⟨nodes, hremove, rfl⟩ := Option.map_eq_some_iff.mp hdelete
  obtain ⟨hcounted, hids, hlive⟩ := removeEntry_spec h.counted hremove
  refine ⟨hcounted, h.ascending.sublist hids, ?_, ?_⟩
  · have hlength := h.length
    unfold live at hlength ⊢
    dsimp only
    omega
  intro i hi
  obtain ⟨j, hj, hji⟩ := mem_map.mp (hids.subset (mem_map_of_mem hi))
  rw [← hji]
  exact h.bounded j hj

lemma deleteItems_wellFormed : ∀ (ids : List StreamID) {r : Stream × Bool × Bool},
    WellFormed r.1 → WellFormed (deleteItems ids r).1
  | [], _, h => h
  | id :: ids, r, h => by
    rw [deleteItems]
    split
    · rename_i s' hdelete
      exact deleteItems_wellFormed ids (streamDeleteItem_wellFormed h hdelete)
    · exact deleteItems_wellFormed ids h

lemma xdelCommand_wellFormed (h : WellFormed s) (ids : List StreamID) :
    WellFormed (xdelCommand s ids) := by
  have hdeleted := deleteItems_wellFormed ids (r := (s, false, false)) h
  unfold xdelCommand
  dsimp only
  repeat' split
  all_goals exact { hdeleted with }

lemma xsetidCommand_wellFormed (h : WellFormed s) {id : StreamID}
    (habove : ∀ i ∈ items s.nodes, i.id.key ≤ id.key) (entriesAdded : Option Nat)
    (maxXdelId : StreamID) : WellFormed (xsetidCommand s id entriesAdded maxXdelId) := by
  unfold xsetidCommand
  repeat' split
  all_goals first
    | exact h
    | exact { h with bounded := habove }

lemma execute_wellFormed (h : WellFormed s) (c : Config) (mustObey : Bool) (now : UInt64)
    (cmd : Command) : WellFormed (execute c mustObey now s cmd).1 := by
  cases cmd with
  | xadd arg fields trim =>
    simp only [execute, xaddCommand]
    repeat' split
    all_goals first
      | exact h
      | exact (streamAppendItem_spec h (by assumption)).1
      | exact streamTrim_wellFormed (streamAppendItem_spec h (by assumption)).1 _
  | xtrim o =>
    simp only [execute, xtrimCommand]
    repeat' split
    all_goals first
      | exact h
      | exact streamTrim_wellFormed h _

/-- One command keeps the order, if `XSETID` does not go below an ID that is in a node. -/
lemma step_wellFormed (s : Stream) (op : Op) (s' : Stream) (h : WellFormed s)
    (hop : KeepsOrder s op) (hstep : step s op = some s') : WellFormed s' := by
  cases hstep
  cases op with
  | command c mustObey now cmd => exact execute_wellFormed h c mustObey now cmd
  | xdel ids => exact xdelCommand_wellFormed h ids
  | xsetid id entriesAdded maxXdelId => exact xsetidCommand_wellFormed h hop ..

lemma streamNew_wellFormed : WellFormed streamNew :=
  ⟨by simp [streamNew], by decide, rfl, by simp [streamNew]⟩

lemma run_wellFormed {ops t} (hops : Runs.Along step KeepsOrder ops streamNew)
    (hrun : Runs.run step ops streamNew = some t) : WellFormed t :=
  Runs.invariant_run step_wellFormed ops streamNew t streamNew_wellFormed hops hrun

/-! ## Trimming in order -/

/-- After an exact trim by ID no live entry is below the ID, as long as the order was kept. -/
theorem xtrim_minid_clears {ops t} (hops : Runs.Along step KeepsOrder ops streamNew)
    (hrun : Runs.run step ops streamNew = some t) (c : Config) (mustObey : Bool) (id : StreamID) :
    ∀ e ∈ live (xtrimCommand c mustObey t ⟨.minid id, false, none⟩).1, id.key ≤ e.1.key := by
  have h := run_wellFormed hops hrun
  obtain ⟨removed, -, hcut⟩ := streamTrim_exact (a := ⟨.minid id, false, 0⟩) h rfl rfl
  have hparse : TrimOption.parse c mustObey ⟨.minid id, false, none⟩ =
      some ⟨.minid id, false, 0⟩ := by
    cases mustObey <;> rfl
  simp only [xtrimCommand, hparse]
  split
  · exact hcut.2
  · exact hcut.2

/-- Every command with a trim, rewritten for a replica that has the live entries in other
nodes and with other tombstones, leaves the same live entries and the same last ID, as long as
both kept the order. -/
theorem replica_trims_alike {mops rops m r} (hmops : Runs.Along step KeepsOrder mops streamNew)
    (hm : Runs.run step mops streamNew = some m) (hrops : Runs.Along step KeepsOrder rops streamNew)
    (hr : Runs.run step rops streamNew = some r) (hlive : live r = live m)
    (hlast : r.lastId = m.lastId) (cm cr : Config) (now now' : UInt64) (cmd : Command) :
    live (replay cr now' r (execute cm false now m cmd).2) = live (execute cm false now m cmd).1 ∧
      (replay cr now' r (execute cm false now m cmd).2).lastId =
        (execute cm false now m cmd).1.lastId := by
  have hrep := execute_replicates cm cr now now'
    ⟨run_wellFormed hmops hm, run_wellFormed hrops hr, hlive, hlast⟩ cmd
  exact ⟨hrep.live, hrep.lastId⟩

/-! ## Where `XSETID` breaks the order -/

instance (s : Stream) : (op : Op) → Decidable (KeepsOrder s op)
  | .command .. => .isTrue trivial
  | .xdel _ => .isTrue trivial
  | .xsetid .. => inferInstanceAs (Decidable (∀ i ∈ _, _))

def defaultNodes : Config := { nodeMaxBytes := 4096, nodeMaxEntries := 100, lpBytes := fun _ => 64 }

def addTo (c : Config) (ms seq : UInt64) : Op :=
  .command c false 9 (.xadd (.given ⟨ms, seq⟩) [([102], [118])] none)

def add : UInt64 → UInt64 → Op := addTo defaultNodes

/-- The entry 3-0 is deleted, and stays in its node when the last ID goes back to 2-0. -/
def strandedOps : List Op :=
  [add 1 0, add 2 0, add 3 0, .xdel [⟨3, 0⟩], .xsetid ⟨2, 0⟩ none .zero, add 2 5, add 4 0]

/-- The trim from 3-0 on stops at the tombstone, and leaves 2-5 behind it. -/
theorem xsetid_strands_entry : ∃ t, Runs.run step strandedOps streamNew = some t ∧
    ∃ e ∈ live (xtrimCommand defaultNodes false t ⟨.minid ⟨3, 0⟩, false, none⟩).1,
      e.1.key < StreamID.key ⟨3, 0⟩ :=
  ⟨_, rfl, by decide +kernel⟩

/-- The same commands with the last ID set to that of the tombstone. -/
def orderedOps : List Op :=
  [add 1 0, add 2 0, add 3 0, .xdel [⟨3, 0⟩], .xsetid ⟨3, 0⟩ none .zero, add 3 5, add 4 0]

lemma along_of_decide (ops : List Op)
    (h : Runs.along? step (fun s op => decide (KeepsOrder s op)) ops streamNew = true) :
    Runs.Along step KeepsOrder ops streamNew :=
  Runs.along_of_along? (fun _ _ => of_decide_eq_true) ops streamNew h

lemma orderedOps_along : Runs.Along step KeepsOrder orderedOps streamNew :=
  along_of_decide _ (by decide +kernel)

theorem xtrim_minid_clears_ordered : ∃ t, Runs.run step orderedOps streamNew = some t ∧
    ∀ e ∈ live (xtrimCommand defaultNodes false t ⟨.minid ⟨3, 0⟩, false, none⟩).1,
      StreamID.key ⟨3, 0⟩ ≤ e.1.key :=
  ⟨_, rfl, xtrim_minid_clears orderedOps_along rfl defaultNodes false ⟨3, 0⟩⟩

def smallNodes : Config := { defaultNodes with nodeMaxEntries := 2 }

/-- Two nodes, with a tombstone in the first one; the replica has one node without it. -/
def masterOps : List Op :=
  [addTo smallNodes 1 0, addTo smallNodes 2 0, addTo smallNodes 3 0, addTo smallNodes 4 0, .xdel [⟨2, 0⟩]]

theorem replica_trims_alike_nodes : ∃ m r : Stream, Runs.run step masterOps streamNew = some m ∧
    Runs.run step [add 1 0, add 3 0, add 4 0] streamNew = some r ∧
    (execute smallNodes false 9 m (.xtrim ⟨.minid ⟨3, 5⟩, true, none⟩)).2 =
      some (.xtrim ⟨.minid ⟨3, 0⟩, false, none⟩) ∧
    live (replay defaultNodes 9 r (execute smallNodes false 9 m
      (.xtrim ⟨.minid ⟨3, 5⟩, true, none⟩)).2) =
        live (execute smallNodes false 9 m (.xtrim ⟨.minid ⟨3, 5⟩, true, none⟩)).1 :=
  ⟨_, _, rfl, rfl, by decide +kernel, (replica_trims_alike
    (along_of_decide masterOps (by decide +kernel)) rfl
    (along_of_decide [add 1 0, add 3 0, add 4 0] (by decide +kernel)) rfl (by decide +kernel)
    (by decide +kernel) ..).1⟩

/-- The node of two tombstones is still there when the last ID goes back to 1-0. -/
def buriedOps : List Op :=
  [add 9 0, add 9 1, .xdel [⟨9, 1⟩], .command defaultNodes false 9 (.xtrim ⟨.minid ⟨9, 1⟩, false, none⟩),
    .xsetid ⟨1, 0⟩ none .zero, add 2 5, add 4 0]

def buriedTrim : Command := .xadd (.given ⟨5, 0⟩) [] (some ⟨.minid ⟨3, 0⟩, true, none⟩)

/-- The trim is rewritten with the ID of the first tombstone, and the replica, which does not
have it, drops everything. -/
theorem replica_drops_all : ∃ m r : Stream, Runs.run step buriedOps streamNew = some m ∧
    Runs.run step [add 2 5, add 4 0] streamNew = some r ∧ live r = live m ∧
    r.lastId = m.lastId ∧
    (live (execute defaultNodes false 9 m buriedTrim).1).map Prod.fst = [⟨2, 5⟩, ⟨4, 0⟩, ⟨5, 0⟩] ∧
    live (replay defaultNodes 9 r (execute defaultNodes false 9 m buriedTrim).2) = [] :=
  ⟨_, _, rfl, rfl, by decide +kernel⟩

/-! ## IDs are not used twice -/

/-- An entry that is accepted goes behind all others, those deleted since included. -/
theorem append_goes_last {ops t c now arg fields t' id}
    (hops : Runs.Along step KeepsOrder ops streamNew) (hrun : Runs.run step ops streamNew = some t)
    (happend : streamAppendItem c now t arg fields = some (t', id)) :
    (∀ i ∈ items t.nodes, i.id.key < id.key) ∧ live t' = live t ++ [(id, fields)] ∧
      t'.length = t.length + 1 ∧ t'.lastId = id := by
  have h := run_wellFormed hops hrun
  obtain ⟨h', hlive, hlast, hgreater, -⟩ := streamAppendItem_spec h happend
  refine ⟨fun i hi => (h.bounded i hi).trans_lt hgreater, hlive, ?_, hlast⟩
  rw [h'.length, hlive, length_append, h.length]
  rfl

theorem append_goes_last_ordered : ∃ t t' : Stream, Runs.run step orderedOps streamNew = some t ∧
    live t' = live t ++ [(⟨9, 0⟩, [])] ∧ t'.length = t.length + 1 :=
  have h := append_goes_last orderedOps_along rfl
    (rfl : streamAppendItem defaultNodes 9 _ .auto [] = some (_, ⟨9, 0⟩))
  ⟨_, _, rfl, h.2.1, h.2.2.1⟩

end Redis.Streams.History
