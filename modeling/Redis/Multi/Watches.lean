import Mathlib.Data.List.Nodup
import Redis.Multi.Model

/-! # The lists of watched keys

Every watched key is in the list of its client and in the list of its key, and
touching a key goes through the second while it takes entries out of both. -/
namespace Redis.Multi.Watches
open Option List Lib Outcome Model

variable {K V : Type} {s : Server K V} {id : Nat} {wk : WatchedKey K} {key : K} {d : Nat}

/-! ## Consistent lists -/

/-- The two kinds of lists and the cells in memory agree, and a client watches a
key at most once. -/
structure Linked (s : Server K V) : Prop where
  client : ∀ c id, id ∈ (s.clients c).watchedKeys ↔ ∃ wk, s.watched id = some wk ∧ wk.client = c
  db : ∀ d key id, (key, id) ∈ (s.db d).watchedKeys ↔
    ∃ wk, s.watched id = some wk ∧ wk.db = d ∧ wk.key = key
  nodupClient : ∀ c, (s.clients c).watchedKeys.Nodup
  nodupDb : ∀ d, (s.db d).watchedKeys.Nodup
  fresh : ∀ id, s.fresh ≤ id → s.watched id = none
  unique : ∀ id id' wk wk', s.watched id = some wk → s.watched id' = some wk' →
    wk.client = wk'.client → wk.db = wk'.db → wk.key = wk'.key → id = id'

def bare (client : Client) : Client := { client with watchedKeys := [] }

/-- The data and the flags are the same. -/
structure Frame (s s' : Server K V) : Prop where
  dict : ∀ d, (s'.db d).dict = (s.db d).dict
  now : s'.now = s.now
  dbnum : s'.dbnum = s.dbnum
  clients : ∀ c, bare (s'.clients c) = bare (s.clients c)

lemma Frame.refl (s : Server K V) : Frame s s := ⟨fun _ => rfl, rfl, rfl, fun _ => rfl⟩

lemma Frame.trans {s1 s2} (h : Frame s s1) (h' : Frame s1 s2) : Frame s s2 :=
  ⟨fun d => (h'.dict d).trans (h.dict d), h'.now.trans h.now, h'.dbnum.trans h.dbnum,
    fun c => (h'.clients c).trans (h.clients c)⟩

lemma watchedKey_of (h : s.watched id = some wk) : s.watchedKey id = .ok wk := by
  rw [Server.watchedKey, h]

section
variable [DecidableEq K]

lemma mem_clientsOf : id ∈ clientsOf s d key ↔ (key, id) ∈ (s.db d).watchedKeys := by
  simp [clientsOf]

/-! ## Unwatching -/

lemma unwatchKey_spec (h : Linked s)
    (hid : s.watched id = some wk) : ∃ s', unwatchKey wk.client s id = .ok s' ∧ Linked s' ∧ Frame s s' ∧
      s'.watched = fun x => if x = id then none else s.watched x := by
  have hmem : (wk.key, id) ∈ (s.db wk.db).watchedKeys := (h.db _ _ _).mpr ⟨wk, hid, rfl, rfl⟩
  have hin : id ∈ clientsOf s wk.db wk.key := mem_clientsOf.mpr hmem
  obtain ⟨s', hs'⟩ : ∃ s' : Server K V, s' = ((s.setDb wk.db fun db =>
      { db with watchedKeys := db.watchedKeys.erase (wk.key, id) }).setClient wk.client fun client =>
      { client with watchedKeys := client.watchedKeys.erase id }).setWatched id none := ⟨_, rfl⟩
  have hwatched : s'.watched = fun x => if x = id then none else s.watched x := by rw [hs']; rfl
  have hsome : ∀ x wk', s'.watched x = some wk' ↔ x ≠ id ∧ s.watched x = some wk' := by
    intro x wk'
    rw [hwatched]
    by_cases hx : x = id <;> simp [hx]
  have hclient : ∀ c, (s'.clients c).watchedKeys =
      if c = wk.client then (s.clients c).watchedKeys.erase id else (s.clients c).watchedKeys := by
    intro c
    rw [hs']
    by_cases hc : c = wk.client <;>
      simp [Server.setWatched, Server.setClient, Server.setDb, hc]
  have hdb : ∀ d, (s'.db d).watchedKeys =
      if d = wk.db then (s.db d).watchedKeys.erase (wk.key, id) else (s.db d).watchedKeys := by
    intro d
    rw [hs']
    by_cases hd : d = wk.db <;>
      simp [Server.setWatched, Server.setClient, Server.setDb, hd]
  refine ⟨s', ?_, ?_, ?_, hwatched⟩
  · rw [unwatchKey, watchedKey_of hid, bind_ok]
    dsimp only
    rw [check_pos (ne_nil_of_mem hin), bind_ok, if_pos hin, hs']
  · refine ⟨fun c x => ?_, fun d key x => ?_, fun c => ?_, fun d => ?_, fun x hx => ?_, ?_⟩
    · rw [hclient]
      simp only [hsome]
      by_cases hc : c = wk.client
      · subst hc
        rw [if_pos rfl, (h.nodupClient _).mem_erase_iff, h.client]
        simp only [and_assoc, exists_and_left]
      rw [if_neg hc, h.client]
      refine exists_congr fun wk' => ⟨fun hw => ⟨⟨fun he => ?_, hw.1⟩, hw.2⟩, fun hw => ⟨hw.1.2, hw.2⟩⟩
      rw [he, hid] at hw
      exact hc (by rw [← hw.2, Option.some.inj hw.1])
    · rw [hdb]
      simp only [hsome]
      by_cases hd : d = wk.db
      · subst hd
        rw [if_pos rfl, (h.nodupDb _).mem_erase_iff, h.db]
        constructor
        · rintro ⟨hne, wk', hw, he, rfl⟩
          refine ⟨wk', ⟨fun hx => ?_, hw⟩, he, rfl⟩
          subst hx
          rw [hid] at hw
          cases hw
          exact hne rfl
        · rintro ⟨wk', ⟨hne, hw⟩, he, rfl⟩
          exact ⟨fun hx => hne (congrArg Prod.snd hx), wk', hw, he, rfl⟩
      · rw [if_neg hd, h.db]
        refine exists_congr fun wk' => ⟨fun hw => ⟨⟨fun he => ?_, hw.1⟩, hw.2⟩, fun hw => ⟨hw.1.2, hw.2⟩⟩
        rw [he, hid] at hw
        exact hd (by rw [← hw.2.1, Option.some.inj hw.1])
    · rw [hclient]
      split
      · exact (h.nodupClient c).erase _
      · exact h.nodupClient c
    · rw [hdb]
      split
      · exact (h.nodupDb d).erase _
      · exact h.nodupDb d
    · have hfresh : s'.fresh = s.fresh := by rw [hs']; rfl
      rw [hwatched]
      dsimp only
      split
      · rfl
      · exact h.fresh x (hfresh ▸ hx)
    · intro x x' wk1 wk2 h1 h2
      exact h.unique x x' wk1 wk2 ((hsome _ _).mp h1).2 ((hsome _ _).mp h2).2
  · subst hs'
    refine ⟨fun d => ?_, rfl, rfl, fun c => ?_⟩
    · by_cases hd : d = wk.db <;> simp [Server.setWatched, Server.setClient, Server.setDb, hd]
    by_cases hc : c = wk.client <;>
      simp [Server.setWatched, Server.setClient, Server.setDb, hc, bare]

lemma unwatchKeys_spec {c} : ∀ (ids : List Nat) (s : Server K V), Linked s → ids.Nodup →
    (∀ id ∈ ids, ∃ wk, s.watched id = some wk ∧ wk.client = c) →
    ∃ s', ids.foldlM (unwatchKey c) s = .ok s' ∧ Linked s' ∧ Frame s s' ∧
      s'.watched = fun x => if x ∈ ids then none else s.watched x := by
  intro ids
  induction ids with
  | nil => exact fun s h _ _ => ⟨s, rfl, h, Frame.refl s, by simp⟩
  | cons id ids ih =>
    intro s h hnodup hids
    obtain ⟨hnot, hnodup'⟩ := nodup_cons.mp hnodup
    obtain ⟨wk, hid, rfl⟩ := hids id mem_cons_self
    obtain ⟨s1, hrun, h1, hframe, hwatched⟩ := unwatchKey_spec h hid
    obtain ⟨s2, hrun', h2, hframe', hwatched'⟩ := ih s1 h1 hnodup' fun x hx => by
      obtain ⟨wk', hwk', hc⟩ := hids x (mem_cons_of_mem _ hx)
      refine ⟨wk', ?_, hc⟩
      rw [hwatched]
      exact (if_neg fun he : x = id => hnot (he ▸ hx)).trans hwk'
    refine ⟨s2, ?_, h2, hframe.trans hframe', ?_⟩
    · rw [foldlM_cons, hrun]
      exact hrun'
    rw [hwatched', hwatched]
    funext x
    by_cases hx : x = id
    · subst hx
      simp
    · simp [hx]

lemma unwatchAllKeys_spec (h : Linked s) (c : Nat) :
    ∃ s', unwatchAllKeys s c = .ok s' ∧ Linked s' ∧ Frame s s' ∧
      s'.watched = fun x => (s.watched x).filter fun wk => wk.client ≠ c := by
  obtain ⟨s', hrun, hlinked, hframe, hwatched⟩ := unwatchKeys_spec _ s h (h.nodupClient c)
    fun id hid => (h.client c id).mp hid
  refine ⟨s', hrun, hlinked, hframe, hwatched.trans (funext fun x => ?_)⟩
  simp only [h.client c x]
  cases hx : s.watched x with
  | none => simp
  | some wk => by_cases hc : wk.client = c <;> simp [Option.filter]

end

/-! ## Touching -/

/-- A step that marks clients as dirty and may change the flags of watched
keys. `f` is what becomes of a watched key, and `hit` tells that its client
gets dirty; a watched key is only lost to a client that is dirty. -/
structure Touch (f : Nat → WatchedKey K → WatchedKey K) (hit : Nat → WatchedKey K → Prop)
    (s s' : Server K V) : Prop where
  linked : Linked s'
  dict : ∀ d, (s'.db d).dict = (s.db d).dict
  now : s'.now = s.now
  dbnum : s'.dbnum = s.dbnum
  clients : ∀ c, { bare (s'.clients c) with dirtyCas := false } = { bare (s.clients c) with dirtyCas := false }
  dirty : ∀ c, (s.clients c).dirtyCas = true → (s'.clients c).dirtyCas = true
  hit : ∀ id wk, s.watched id = some wk → hit id wk → (s'.clients wk.client).dirtyCas = true
  origin : ∀ id wk', s'.watched id = some wk' → ∃ wk, s.watched id = some wk ∧ wk' = f id wk
  keep : ∀ id wk, s.watched id = some wk → (s'.clients wk.client).dirtyCas = false →
    s'.watched id = some (f id wk)

/-- Only the flag of a watched key changes. -/
def Keeps (f : Nat → WatchedKey K → WatchedKey K) : Prop :=
  ∀ id wk, (f id wk).client = wk.client ∧ (f id wk).db = wk.db ∧ (f id wk).key = wk.key

variable {f : Nat → WatchedKey K → WatchedKey K} {s' : Server K V}

lemma Touch.congr {f' : Nat → WatchedKey K → WatchedKey K} {hit hit' : Nat → WatchedKey K → Prop}
    (h : Touch f hit s s') (hf : ∀ id wk, s.watched id = some wk → f' id wk = f id wk)
    (hhit : ∀ id wk, s.watched id = some wk → hit' id wk → hit id wk) : Touch f' hit' s s' := by
  refine { h with
    hit := fun id wk hw hh => h.hit id wk hw (hhit id wk hw hh)
    origin := fun id wk' hw => ?_
    keep := fun id wk hw hd => ?_ }
  · obtain ⟨wk, hwk, rfl⟩ := h.origin id wk' hw
    exact ⟨wk, hwk, (hf id wk hwk).symm⟩
  rw [hf id wk hw]
  exact h.keep id wk hw hd

lemma Touch.trans {g : Nat → WatchedKey K → WatchedKey K} {hit hit' : Nat → WatchedKey K → Prop}
    {s1 s2} (hf : Keeps f) (h : Touch f hit s s1) (h' : Touch g hit' s1 s2) :
    Touch (fun id wk => g id (f id wk)) (fun id wk => hit id wk ∨ hit' id (f id wk)) s s2 := by
  have hkept : ∀ id wk, s.watched id = some wk → (s2.clients wk.client).dirtyCas = false →
      s1.watched id = some (f id wk) := fun id wk hw hd =>
    h.keep id wk hw (Bool.eq_false_iff.mpr fun ht => by rw [h'.dirty _ ht] at hd; cases hd)
  refine ⟨h'.linked, fun d => (h'.dict d).trans (h.dict d), h'.now.trans h.now, h'.dbnum.trans h.dbnum,
    fun c => (h'.clients c).trans (h.clients c), fun c hd => h'.dirty c (h.dirty c hd), ?_, ?_, ?_⟩
  · intro id wk hw hh
    cases hd : (s2.clients wk.client).dirtyCas with
    | true => rfl
    | false =>
      rcases hh with hh | hh
      · rw [h'.dirty _ (h.hit id wk hw hh)] at hd
        cases hd
      have := h'.hit id _ (hkept id wk hw hd) hh
      rw [(hf id wk).1, hd] at this
      cases this
  · intro id wk' hw
    obtain ⟨wk1, hwk1, rfl⟩ := h'.origin id wk' hw
    obtain ⟨wk, hwk, rfl⟩ := h.origin id wk1 hwk1
    exact ⟨wk, hwk, rfl⟩
  · intro id wk hw hd
    exact h'.keep id _ (hkept id wk hw hd) (by rw [(hf id wk).1]; exact hd)

lemma Touch.refl (h : Linked s) : Touch (fun _ wk => wk) (fun _ _ => False) s s :=
  ⟨h, fun _ => rfl, rfl, rfl, fun _ => rfl, fun _ h => h, fun _ _ _ h => h.elim,
    fun _ wk h => ⟨wk, h, rfl⟩, fun _ _ h _ => h⟩

lemma Linked.congr (h : Linked s)
    (hf : Keeps f) (hw : ∀ id, s'.watched id = (s.watched id).map (f id))
    (hc : ∀ c, (s'.clients c).watchedKeys = (s.clients c).watchedKeys)
    (hd : ∀ d, (s'.db d).watchedKeys = (s.db d).watchedKeys) (hfresh : s'.fresh = s.fresh) : Linked s' := by
  refine ⟨fun c id => ?_, fun d key id => ?_, fun c => ?_, fun d => ?_, fun id hid => ?_, ?_⟩
  · rw [hc, h.client, hw]
    cases s.watched id with
    | none => simp
    | some wk => simp [(hf id wk).1]
  · rw [hd, h.db, hw]
    cases s.watched id with
    | none => simp
    | some wk => simp [(hf id wk).2.1, (hf id wk).2.2]
  · rw [hc]
    exact h.nodupClient c
  · rw [hd]
    exact h.nodupDb d
  · rw [hw, h.fresh id (hfresh ▸ hid)]
    rfl
  · intro id id' wk wk' h1 h2
    rw [hw] at h1 h2
    obtain ⟨wk1, hwk1, rfl⟩ := map_eq_some_iff.mp h1
    obtain ⟨wk2, hwk2, rfl⟩ := map_eq_some_iff.mp h2
    rw [(hf id wk1).1, (hf id wk1).2.1, (hf id wk1).2.2, (hf id' wk2).1, (hf id' wk2).2.1, (hf id' wk2).2.2]
    exact h.unique id id' wk1 wk2 hwk1 hwk2

lemma keeps_id : Keeps fun _ (wk : WatchedKey K) => wk := fun _ _ => ⟨rfl, rfl, rfl⟩

lemma keeps_flag (p : Nat → WatchedKey K → Prop) [∀ x w, Decidable (p x w)]
    (b : WatchedKey K → Bool) : Keeps fun x w => if p x w then { w with expired := b w } else w := by
  intro x w
  dsimp only
  split <;> exact ⟨rfl, rfl, rfl⟩

lemma Linked.same (h : Linked s) (hw : s'.watched = s.watched)
    (hc : ∀ c, (s'.clients c).watchedKeys = (s.clients c).watchedKeys)
    (hd : ∀ d, (s'.db d).watchedKeys = (s.db d).watchedKeys) (hfresh : s'.fresh = s.fresh) : Linked s' :=
  h.congr keeps_id (fun id => by rw [hw]; simp) hc hd hfresh

lemma setDirtyCas_touch (h : Linked s) (c : Nat) :
    Touch (fun _ wk => wk) (fun _ wk => wk.client = c) s (setDirtyCas s c) := by
  have hclient : ∀ x, (setDirtyCas s c).clients x =
      if x = c then { s.clients x with dirtyCas := true } else s.clients x := fun _ => rfl
  refine ⟨h.same rfl (fun x => ?_) (fun _ => rfl) rfl, fun _ => rfl, rfl, rfl, fun x => ?_, fun x hx => ?_,
    fun id wk _ hc => ?_, fun id wk hw => ⟨wk, hw, rfl⟩, fun id wk hw _ => hw⟩
  · rw [hclient]; split <;> rfl
  · rw [hclient]; split <;> rfl
  · rw [hclient]; split
    · rfl
    · exact hx
  · rw [hclient, if_pos hc]

lemma setExpired_touch (h : Linked s) (hid : s.watched id = some wk) (b : Bool) :
    Touch (fun x w => if x = id then { w with expired := b } else w) (fun _ _ => False) s
      (setExpired s id wk b) := by
  have hkeeps := keeps_flag (fun x (_ : WatchedKey K) => x = id) fun _ => b
  have hwatched : ∀ x, (setExpired s id wk b).watched x =
      (s.watched x).map fun w => if x = id then { w with expired := b } else w := by
    intro x
    by_cases hx : x = id
    · subst hx
      simp [setExpired, Server.setWatched, hid]
    · simp [setExpired, Server.setWatched, hx]
  refine ⟨h.congr hkeeps hwatched (fun _ => rfl) (fun _ => rfl) rfl, fun _ => rfl, rfl, rfl, fun _ => rfl,
    fun _ hx => hx, fun _ _ _ hf => hf.elim, fun x w hw => ?_, fun x w hw _ => ?_⟩
  · rw [hwatched] at hw
    obtain ⟨w1, hw1, rfl⟩ := map_eq_some_iff.mp hw
    exact ⟨w1, hw1, rfl⟩
  rw [hwatched, hw]
  rfl

lemma unwatch_touch {c} (hd : (s.clients c).dirtyCas = true) (h : Linked s')
    (hf : Frame s s') (hw : s'.watched = fun x => (s.watched x).filter fun wk => wk.client ≠ c) :
    Touch (fun _ wk => wk) (fun _ _ => False) s s' := by
  have hdirty : ∀ x, (s'.clients x).dirtyCas = (s.clients x).dirtyCas := fun x => by
    show (bare (s'.clients x)).dirtyCas = (bare (s.clients x)).dirtyCas
    rw [hf.clients]
  refine ⟨h, hf.dict, hf.now, hf.dbnum, fun x => by rw [hf.clients], fun x hx => (hdirty x).trans hx,
    fun _ _ _ hx => hx.elim, fun id wk hid => ?_, fun id wk hid hx => ?_⟩
  · rw [hw] at hid
    obtain ⟨hid', _⟩ := filter_eq_some_iff.mp hid
    exact ⟨wk, hid', rfl⟩
  rw [hw]
  refine filter_eq_some_iff.mpr ⟨hid, decide_eq_true fun he => ?_⟩
  rw [hdirty, he, hd] at hx
  cases hx

section
variable [DecidableEq K]

/-- The loop over the clients of a key. Where no flag is set unless the key is
gone, it goes to its end. -/
lemma touchLoop_spec : ∀ (ids : List Nat) (s : Server K V), Linked s → ids.Nodup →
    (∀ id ∈ ids, ∃ wk, s.watched id = some wk ∧ wk.db = d ∧ wk.key = key) →
    ∃ s', touchLoop d key ids s = .ok s' ∧ Linked s' ∧
      ((∀ id ∈ ids, ∀ wk, s.watched id = some wk → wk.expired = true → (s.db d).dict key = none) →
        Touch (fun x wk => if x ∈ ids then { wk with expired := false } else wk)
          (fun x wk => x ∈ ids ∧ wk.expired = false) s s') := by
  intro ids
  induction ids with
  | nil =>
    intro s h _ _
    exact ⟨s, rfl, h, fun _ => (Touch.refl h).congr (by simp) (by simp)⟩
  | cons id ids ih =>
    intro s h hnodup hids
    obtain ⟨hnot, hnodup'⟩ := nodup_cons.mp hnodup
    obtain ⟨wk, hid, hd, hk⟩ := hids id mem_cons_self
    rw [touchLoop, watchedKey_of hid, bind_ok]
    cases he : wk.expired with
    | true =>
      rw [if_pos rfl]
      split
      swap
      · rename_i hn
        exact ⟨s, rfl, h, fun hexp => absurd ⟨hd.symm, hk.symm, hexp id mem_cons_self wk hid he⟩ hn⟩
      have ht := setExpired_touch h hid false
      have hsame : ∀ x ∈ ids, (setExpired s id wk false).watched x = s.watched x :=
        fun x hx => if_neg fun hxe : x = id => hnot (hxe ▸ hx)
      obtain ⟨s', hrun, hl', ht'⟩ := ih (setExpired s id wk false) ht.linked hnodup' fun x hx => by
        rw [hsame x hx]
        exact hids x (mem_cons_of_mem _ hx)
      refine ⟨s', hrun, hl', fun hexp => (ht.trans (keeps_flag (fun x _ => x = id) _)
        (ht' fun x hx wk' hwk' => ?_)).congr (fun x w hw => ?_) fun x w hw hh => ?_⟩
      · exact hexp x (mem_cons_of_mem _ hx) wk' ((hsame x hx).symm.trans hwk')
      · by_cases hx : x = id
        · subst hx
          simp
        · simp [hx]
      by_cases hx : x = id
      · subst hx
        rw [hid] at hw
        cases hw
        rw [he] at hh
        cases hh.2
      · have hmem := mem_of_ne_of_mem hx hh.1
        simp [hx, hmem, hh.2]
    | false =>
      have ht := setDirtyCas_touch h wk.client
      obtain ⟨s1, hrun, hlinked, hframe, hwatched⟩ := unwatchAllKeys_spec ht.linked wk.client
      have hdirty : ((setDirtyCas s wk.client).clients wk.client).dirtyCas = true := ht.hit id wk hid rfl
      have ht1 := ht.trans keeps_id (unwatch_touch hdirty hlinked hframe hwatched)
      obtain ⟨s', hrun', hl', ht'⟩ := ih s1 hlinked hnodup' fun x hx => by
        obtain ⟨wk', hwk', hd', hk'⟩ := hids x (mem_cons_of_mem _ hx)
        refine ⟨wk', ?_, hd', hk'⟩
        rw [hwatched]
        refine filter_eq_some_iff.mpr ⟨hwk', decide_eq_true fun hc => hnot ?_⟩
        have := h.unique x id wk' wk hwk' hid hc (hd'.trans hd.symm) (hk'.trans hk.symm)
        exact this ▸ hx
      refine ⟨s', ?_, hl', fun hexp => (ht1.trans keeps_id (ht' fun x hx wk' hwk' => ?_)).congr
        (fun x w hw => ?_) fun x w hw hh => ?_⟩
      · rw [hrun]
        exact hrun'
      · rw [hwatched] at hwk'
        rw [ht1.dict]
        exact hexp x (mem_cons_of_mem _ hx) wk' (filter_eq_some_iff.mp hwk').1
      · by_cases hx : x = id
        · subst hx
          rw [hid] at hw
          cases hw
          cases wk
          simp_all
        · simp [hx]
      by_cases hx : x = id
      · subst hx
        rw [hid] at hw
        cases hw
        exact .inl (.inl rfl)
      · exact .inr ⟨mem_of_ne_of_mem hx hh.1, hh.2⟩

lemma nodup_clientsOf (h : Linked s) (d : Nat) (key : K) : (clientsOf s d key).Nodup := by
  refine List.Nodup.map_on ?_ ((h.nodupDb d).filter _)
  rintro ⟨k1, i1⟩ h1 ⟨k2, i2⟩ h2 he
  have hk1 : k1 = key := by simpa using (mem_filter.mp h1).2
  have hk2 : k2 = key := by simpa using (mem_filter.mp h2).2
  exact Prod.ext (hk1.trans hk2.symm) he

/-- Touching a key marks every client that watches it as dirty, and takes back
the flags of those that watched it after it had expired. -/
lemma touchWatchedKey_spec (h : Linked s) (d : Nat) (key : K) :
    ∃ s', touchWatchedKey s d key = .ok s' ∧ Linked s' ∧
      ((∀ id wk, s.watched id = some wk → wk.db = d → wk.key = key → wk.expired = true →
        (s.db d).dict key = none) →
      Touch (fun _ wk => if wk.db = d ∧ wk.key = key then { wk with expired := false } else wk)
        (fun _ wk => wk.db = d ∧ wk.key = key ∧ wk.expired = false) s s') := by
  have hmem : ∀ id wk, s.watched id = some wk → (id ∈ clientsOf s d key ↔ wk.db = d ∧ wk.key = key) := by
    intro id wk hw
    rw [mem_clientsOf, h.db]
    constructor
    · rintro ⟨wk', hw', hrest⟩
      rw [hw] at hw'
      cases hw'
      exact hrest
    · exact fun hrest => ⟨wk, hw, hrest⟩
  obtain ⟨s', hrun, hl, ht⟩ := touchLoop_spec (clientsOf s d key) s h (nodup_clientsOf h d key)
    fun id hid => (h.db _ _ _).mp (mem_clientsOf.mp hid)
  refine ⟨s', hrun, hl, fun hexp => (ht fun id hid wk hw => ?_).congr (fun id wk hw => ?_)
    fun id wk hw hh => ?_⟩
  · have hat := (hmem id wk hw).mp hid
    exact hexp id wk hw hat.1 hat.2
  · simp only [hmem id wk hw]
  · exact ⟨(hmem id wk hw).mpr ⟨hh.1, hh.2.1⟩, hh.2.2⟩

end

/-! ## Touching a whole database -/

/-- What `touchAllWatchedKeysInDb` finds out about a key: whether it is in the
emptied database and in the one it is replaced with, and whether it is expired
there. -/
def look (s : Server K V) (emptied : Nat) (replacedWith : Option Nat) (key : K) : Bool × Bool × Bool :=
  (((s.db emptied).dict key).isSome, replacedWith.any fun r => ((s.db r).dict key).isSome,
    replacedWith.any fun r => keyIsExpired s r key)

/-- The flag of a watched key afterwards. -/
def expiredAfter : Bool × Bool × Bool → Bool → Bool
  | (e, r, _), true => r || !e
  | (e, _, x), false => !e && x

/-- The client of a watched key gets dirty. -/
def dirtyAfter : Bool × Bool × Bool → Bool → Bool
  | (_, r, x), true => r && !x
  | (e, r, x), false => (e || r) && (e || !x)

lemma look_congr (hdict : ∀ d, (s'.db d).dict = (s.db d).dict) (hnow : s'.now = s.now)
    (emptied : Nat) (replacedWith : Option Nat) (key : K) :
    look s' emptied replacedWith key = look s emptied replacedWith key := by
  simp only [look, keyIsExpired, hdict, hnow]

lemma isSome_of_expired (h : keyIsExpired s d key = true) : ((s.db d).dict key).isSome = true := by
  unfold keyIsExpired at h
  split at h
  · rename_i he
    rw [he]
    rfl
  · cases h

/-- What `l` makes of one watched key and its client. -/
def EntryTouched (id : Nat) (l : Bool × Bool × Bool) (expired : Bool) (s s' : Server K V) : Prop :=
  (∀ x, x ≠ id → s'.watched x = s.watched x) ∧
    Touch (fun x w => if x = id then { w with expired := expiredAfter l expired } else w)
      (fun x _ => x = id ∧ dirtyAfter l expired = true) s s'

lemma touchEntry_spec (h : Linked s) (emptied : Nat) (replacedWith : Option Nat)
    (hid : s.watched id = some wk) :
    ∃ s', touchEntry emptied replacedWith s (wk.key, id) = .ok s' ∧
      EntryTouched id (look s emptied replacedWith wk.key) wk.expired s s' := by
  generalize he : ((s.db emptied).dict wk.key).isSome = e
  generalize hr : (replacedWith.any fun r => ((s.db r).dict wk.key).isSome) = r
  generalize hx : (replacedWith.any fun r => keyIsExpired s r wk.key) = x
  have hxr : x = true → r = true := by
    rw [← hx, ← hr]
    cases replacedWith with
    | none => exact fun h => h
    | some d => exact isSome_of_expired
  -- one of three things happens to the watched key
  have hsame : ∀ {l}, expiredAfter l wk.expired = wk.expired → ∀ y w, s.watched y = some w →
      (if y = id then { w with expired := expiredAfter l wk.expired } else w) = w := by
    intro l hf y w hw
    rw [hf]
    split
    · rename_i hy
      rw [hy, hid] at hw
      cases hw
      rfl
    · rfl
  have hstay : ∀ l, dirtyAfter l wk.expired = false → expiredAfter l wk.expired = wk.expired →
      EntryTouched id l wk.expired s s := by
    intro l hd hf
    refine ⟨fun _ _ => rfl, (Touch.refl h).congr (hsame hf) fun y w _ hh => ?_⟩
    rw [hd] at hh
    cases hh.2
  have hmark : ∀ l, expiredAfter l wk.expired = wk.expired →
      EntryTouched id l wk.expired s (setDirtyCas s wk.client) := by
    intro l hf
    refine ⟨fun _ _ => rfl, (setDirtyCas_touch h wk.client).congr (hsame hf) fun y w hw hh => ?_⟩
    rw [hh.1, hid] at hw
    cases hw
    rfl
  have hflag : ∀ l b, dirtyAfter l wk.expired = false → expiredAfter l wk.expired = b →
      EntryTouched id l wk.expired s (setExpired s id wk b) := by
    rintro l b hd rfl
    refine ⟨fun y hy => if_neg hy, (setExpired_touch h hid _).congr (fun _ _ _ => rfl) fun y w _ hh => ?_⟩
    rw [hd] at hh
    cases hh.2
  rw [look, touchEntry, he, hr, hx, watchedKey_of hid, bind_ok]
  cases hexp : wk.expired <;> rw [hexp] at hstay hmark hflag <;> cases e <;> cases r <;> cases x
  all_goals first
    | exact absurd (hxr rfl) (by decide)
    | exact ⟨_, rfl, hstay _ rfl rfl⟩
    | exact ⟨_, rfl, hflag _ _ rfl rfl⟩
    | exact ⟨_, rfl, hmark _ rfl⟩

lemma touchEntries_spec (emptied : Nat) (replacedWith : Option Nat) : ∀ (entries : List (K × Nat))
    (s : Server K V), Linked s → (entries.map Prod.snd).Nodup →
    (∀ entry ∈ entries, ∃ wk, s.watched entry.2 = some wk ∧ wk.key = entry.1) →
    ∃ s', entries.foldlM (touchEntry emptied replacedWith) s = .ok s' ∧
      Touch (fun x w => if x ∈ entries.map Prod.snd then
          { w with expired := expiredAfter (look s emptied replacedWith w.key) w.expired } else w)
        (fun x w => x ∈ entries.map Prod.snd ∧
          dirtyAfter (look s emptied replacedWith w.key) w.expired = true) s s' := by
  intro entries
  induction entries with
  | nil =>
    intro s h _ _
    exact ⟨s, rfl, (Touch.refl h).congr (by simp) (by simp)⟩
  | cons entry entries ih =>
    intro s h hnodup hall
    obtain ⟨key, id⟩ := entry
    obtain ⟨hnot, hnodup'⟩ := nodup_cons.mp hnodup
    obtain ⟨wk, hid, rfl⟩ := hall (key, id) mem_cons_self
    obtain ⟨s1, hrun, hother, ht⟩ := touchEntry_spec h emptied replacedWith hid
    obtain ⟨s', hrun', ht'⟩ := ih s1 ht.linked hnodup' fun entry hentry => by
      obtain ⟨wk', hwk', hkey⟩ := hall entry (mem_cons_of_mem _ hentry)
      refine ⟨wk', (hother _ fun he => hnot ?_).trans hwk', hkey⟩
      exact he ▸ mem_map_of_mem hentry
    have hlook := look_congr ht.dict ht.now emptied replacedWith
    refine ⟨s', ?_, (ht.trans (keeps_flag (fun x _ => x = id) _) ht').congr (fun x w hw => ?_)
      fun x w hw hh => ?_⟩
    · rw [foldlM_cons, hrun]
      exact hrun'
    · by_cases hx : x = id
      · subst hx
        rw [hid] at hw
        cases hw
        simp [hnot]
      have hiff : x ∈ ((wk.key, id) :: entries).map Prod.snd ↔ x ∈ entries.map Prod.snd := by
        rw [map_cons, mem_cons, or_iff_right hx]
      simp only [hiff, if_neg hx, hlook]
    by_cases hx : x = id
    · subst hx
      rw [hid] at hw
      cases hw
      exact .inl ⟨rfl, hh.2⟩
    refine .inr ⟨mem_of_ne_of_mem hx hh.1, ?_⟩
    rw [if_neg hx, hlook]
    exact hh.2

lemma touchAll_spec (h : Linked s) (emptied : Nat) (replacedWith : Option Nat) :
    ∃ s', touchAllWatchedKeysInDb emptied replacedWith s = .ok s' ∧
      Touch (fun _ w => if w.db = emptied then
          { w with expired := expiredAfter (look s emptied replacedWith w.key) w.expired } else w)
        (fun _ w => w.db = emptied ∧ dirtyAfter (look s emptied replacedWith w.key) w.expired = true) s s' := by
  have hmem : ∀ id wk, s.watched id = some wk →
      (id ∈ ((s.db emptied).watchedKeys.map Prod.snd) ↔ wk.db = emptied) := by
    intro id wk hw
    constructor
    · intro hid
      obtain ⟨⟨key, id'⟩, hentry, rfl⟩ := mem_map.mp hid
      obtain ⟨wk', hw', hd, _⟩ := (h.db _ _ _).mp hentry
      rw [hw] at hw'
      cases hw'
      exact hd
    · exact fun hd => mem_map.mpr ⟨(wk.key, id), (h.db _ _ _).mpr ⟨wk, hw, hd, rfl⟩, rfl⟩
  have hnodup : ((s.db emptied).watchedKeys.map Prod.snd).Nodup := by
    refine List.Nodup.map_on ?_ (h.nodupDb emptied)
    rintro ⟨k1, i1⟩ h1 ⟨k2, i2⟩ h2 he
    obtain ⟨wk1, hw1, _, rfl⟩ := (h.db _ _ _).mp h1
    obtain ⟨wk2, hw2, _, rfl⟩ := (h.db _ _ _).mp h2
    dsimp only at he
    rw [← he, hw1] at hw2
    cases hw2
    exact Prod.ext rfl he
  obtain ⟨s', hrun, ht⟩ := touchEntries_spec emptied replacedWith _ s h hnodup fun entry hentry => by
    obtain ⟨wk, hw, _, hkey⟩ := (h.db emptied entry.1 entry.2).mp hentry
    exact ⟨wk, hw, hkey⟩
  refine ⟨s', hrun, ht.congr (fun id wk hw => ?_) fun id wk hw hh => ⟨(hmem id wk hw).mpr hh.1, hh.2⟩⟩
  simp only [hmem id wk hw]

end Redis.Multi.Watches
