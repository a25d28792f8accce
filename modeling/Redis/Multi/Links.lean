import Redis.Multi.Locking

/-! # The dictionary of watched keys

Whatever becomes of the data, the lists of the clients and the dictionaries describe one relation.
The walk over the list of a key takes its nodes from the start: one that is gone is a fault. -/
namespace Redis.Multi.Links
open List Lib Outcome Model Watches Locking

variable {K V : Type} [DecidableEq K] {s s' : Server K V} {wk : WatchedKey K} {id : Nat}

/-- What reaches the watched keys. The data, the clock and the rest of a client change freely. -/
inductive Act (K V : Type) where
  | watch (c : Nat) (keys : List K)
  | unwatch (c : Nat)
  | touch (d : Nat) (key : K)
  | flush (emptied : Nat) (replacedWith : Option Nat)
  | free (c : Nat)
  | change (data : Nat → K → Option (Stored V)) (now : Nat) (clients : Nat → Client)

def act (s : Server K V) : Act K V → Outcome (Server K V)
  | .watch c keys => watchCommand s c keys
  | .unwatch c => unwatchCommand s c
  | .touch d key => touchWatchedKey s d key
  | .flush emptied replacedWith => touchAllWatchedKeysInDb emptied replacedWith s
  | .free c => freeClient s c
  | .change data now clients => .ok { s with
      db := fun d => { s.db d with dict := data d }
      clients := fun c => { clients c with watchedKeys := (s.clients c).watchedKeys }
      now }

/-- The code runs through and leaves consistent lists. -/
def Goes (o : Outcome (Server K V)) : Prop := ∃ s', o = .ok s' ∧ Linked s'

/-- A key that the client does not watch yet gets a cell. -/
lemma watchForKey_cases (h : Linked s) (c : Nat) (key : K) : ∃ s', watchForKey c s key = .ok s' ∧ Linked s' ∧
    (s' = s ∨ ∃ wk, s' = addWatched s wk ∧ About wk c (s.clients c).db key) := by
  obtain ⟨b, hrun, hb⟩ := search_spec rfl (alreadyWatched_cons (s.clients c).db key) _ fun id hid =>
    ((h.client c id).mp hid).imp fun _ hw => hw.1
  rw [watchForKey, hrun, bind_ok]
  cases b with
  | true => exact ⟨s, rfl, h, .inl rfl⟩
  | false =>
    refine ⟨_, rfl, linked_addWatched h ⟨key, _, c, keyIsExpired s _ key⟩ fun id wk hw ha => ?_,
      .inr ⟨⟨key, _, c, keyIsExpired s _ key⟩, rfl, rfl, rfl, rfl⟩⟩
    cases hb.mpr ⟨id, (h.client c id).mpr ⟨wk, hw, ha.client⟩, wk, hw, ha.db, ha.key⟩

/-- The client gets new flags after it has lost its keys. -/
lemma goes_unwatch (h : Linked s) (c : Nat) {f : Client → Client}
    (hf : ∀ client, (f client).watchedKeys = client.watchedKeys) :
    Goes (unwatchAllKeys s c >>= fun s => .ok (s.setClient c f)) := by
  obtain ⟨s', hrun, hd⟩ := unwatchAllKeys_dropped h c
  rw [hrun]
  exact ⟨_, rfl, (flags_setClient s' c hf).linked hd.linked⟩

lemma goes_act (s : Server K V) (a : Act K V) (h : Linked s) : Goes (act s a) := by
  cases a with
  | watch c keys =>
    rw [act, watchCommand]
    split
    · exact ⟨s, rfl, h⟩
    split
    · exact ⟨s, rfl, h⟩
    refine foldlM_keeps (fun s key h => ?_) keys s h
    obtain ⟨s', hrun, h', -⟩ := watchForKey_cases h c key
    exact ⟨s', hrun, h'⟩
  | unwatch c => exact goes_unwatch h c fun _ => rfl
  | touch d key =>
    obtain ⟨s', hrun, h', -⟩ := touchWatchedKey_spec h d key
    exact ⟨s', hrun, h'⟩
  | flush emptied replacedWith =>
    obtain ⟨s', hrun, ht⟩ := touchAll_spec h emptied replacedWith
    exact ⟨s', hrun, ht.linked⟩
  | free c => exact goes_unwatch h c fun _ => rfl
  | change data now clients => exact ⟨_, rfl, h.same rfl (fun _ => rfl) (fun _ => rfl) rfl⟩

/-! ## Lists of their own -/

/-- `db->watched_keys`: a key has a list or no entry at all. -/
def watchedDict (s : Server K V) (d : Nat) (key : K) : Option (List Nat) :=
  if clientsOf s d key = [] then none else some (clientsOf s d key)

/-- The end of `watchForKey`, with a new list for a key without one. -/
def addClient (dict : K → Option (List Nat)) (key : K) (id : Nat) : K → Option (List Nat) :=
  Function.update dict key (some ((dict key).getD [] ++ [id]))

/-- What one turn of `unwatchAllKeys` does to the dictionary. -/
def delClient (dict : K → Option (List Nat)) (key : K) (id : Nat) : Outcome (K → Option (List Nat)) :=
  match dict key with
  | none => .error .assertion
  | some clients =>
    if id ∈ clients then
      let clients := clients.erase id
      .ok (Function.update dict key (if clients = [] then none else some clients))
    else .error .null

lemma watchedDict_added (s : Server K V) (wk : WatchedKey K) :
    watchedDict (addWatched s wk) wk.db = addClient (watchedDict s wk.db) wk.key s.fresh := by
  have hlist : ∀ key, clientsOf (addWatched s wk) wk.db key =
      clientsOf s wk.db key ++ if wk.key = key then [s.fresh] else [] := by
    intro key
    by_cases hk : wk.key = key <;>
      simp [clientsOf, addWatched, Server.setWatched, Server.setDb, Server.setClient, hk]
  funext key
  rw [watchedDict, hlist, addClient]
  by_cases hk : wk.key = key
  · subst hk
    by_cases hn : clientsOf s wk.db wk.key = [] <;> simp [watchedDict, hn]
  · simp [Function.update_of_ne (Ne.symm hk), watchedDict, hk]

lemma watchedDict_unwatched {c} (h : Linked s) (hid : s.watched id = some wk)
    (hrun : unwatchKey c s id = .ok s') :
    delClient (watchedDict s wk.db) wk.key id = .ok (watchedDict s' wk.db) := by
  have hin : id ∈ clientsOf s wk.db wk.key := mem_clientsOf.mpr ((h.db _ _ _).mpr ⟨wk, hid, rfl, rfl⟩)
  have hne := ne_nil_of_mem hin
  rw [unwatchKey, watchedKey_of hid, bind_ok] at hrun
  dsimp only at hrun
  rw [check_pos hne, bind_ok, if_pos hin] at hrun
  have hlist : ∀ key, clientsOf s' wk.db key =
      if key = wk.key then (clientsOf s wk.db key).erase id else clientsOf s wk.db key := by
    intro key
    rw [← Except.ok.inj hrun, (nodup_clientsOf h _ _).erase_eq_filter, clientsOf, clientsOf]
    simp only [Server.setWatched, Server.setClient, Server.setDb, if_pos, (h.nodupDb _).erase_eq_filter,
      filter_map, filter_filter]
    split <;> refine congrArg _ (filter_congr fun x _ => ?_) <;> grind
  simp only [delClient, watchedDict, if_neg hne, if_pos hin]
  refine congrArg _ (funext fun key => ?_)
  rw [watchedDict, hlist]
  by_cases hk : key = wk.key
  · rw [hk, Function.update_self, if_pos rfl]
  · rw [Function.update_of_ne hk, if_neg hk, watchedDict]

/-- From any data, after any sequence of acts: no fault, one relation, and no list is empty. The
code's own dictionaries stay those of the relation, whichever key is watched or unwatched next. -/
theorem watches_agree (dbnum : Nat) (data : Nat → K → Option (Stored V)) (now : Nat)
    (acts : List (Act K V)) : ∃ s, acts.foldlM act (start dbnum data now) = .ok s ∧ Linked s ∧
      (∀ d key, watchedDict s d key ≠ some []) ∧
      (∀ c key, ∃ s', watchForKey c s key = .ok s' ∧ (s' = s ∨
        watchedDict s' (s.clients c).db = addClient (watchedDict s (s.clients c).db) key s.fresh)) ∧
      ∀ id wk, s.watched id = some wk → ∃ s', unwatchKey wk.client s id = .ok s' ∧
        delClient (watchedDict s wk.db) wk.key id = .ok (watchedDict s' wk.db) := by
  obtain ⟨s, hrun, h⟩ := foldlM_keeps goes_act acts _ (inv_start dbnum data now).linked
  refine ⟨s, hrun, h, fun d key => ?_, fun c key => ?_, fun id wk hid => ?_⟩
  · unfold watchedDict
    split
    · exact (Option.some_ne_none []).symm
    · rename_i hne
      exact fun he => hne (Option.some.inj he)
  · obtain ⟨s', hw, -, rfl | ⟨wk, rfl, rfl, hd, rfl⟩⟩ := watchForKey_cases h c key
    · exact ⟨_, hw, .inl rfl⟩
    · exact ⟨_, hw, .inr (hd ▸ watchedDict_added s wk)⟩
  · obtain ⟨s', hw, -⟩ := unwatchKey_spec h hid
    exact ⟨s', hw, watchedDict_unwatched h hid hw⟩

/-- A client that gives up its keys leaves their lists, and nobody else does. -/
theorem unwatch_leaves_others (dbnum : Nat) (data : Nat → K → Option (Stored V)) (now : Nat)
    (acts : List (Act K V)) (c : Nat) : ∃ s s', acts.foldlM act (start dbnum data now) = .ok s ∧
      unwatchAllKeys s c = .ok s' ∧ (s'.clients c).watchedKeys = [] ∧
      ∀ d key id, (key, id) ∈ (s'.db d).watchedKeys ↔
        (key, id) ∈ (s.db d).watchedKeys ∧ id ∉ (s.clients c).watchedKeys := by
  obtain ⟨s, hrun, h⟩ := foldlM_keeps goes_act acts _ (inv_start dbnum data now).linked
  obtain ⟨s', hunwatch, h', -, hleft⟩ := unwatchAllKeys_spec h c
  refine ⟨s, s', hrun, hunwatch, eq_nil_iff_forall_not_mem.mpr fun id hid => ?_, fun d key id => ?_⟩
  · obtain ⟨wk, hwk, hc⟩ := (h'.client c id).mp hid
    simp_all
  · rw [h'.db, h.db, h.client, hleft]
    simp only [Option.filter_eq_some_iff]
    grind

end Redis.Multi.Links
