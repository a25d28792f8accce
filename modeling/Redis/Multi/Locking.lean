import Redis.Lib.Simulation
import Redis.Multi.Watches

/-! # Optimistic locking

What a client saw when it watched a key is kept beside the server, with a mark
once the key had another value. A transaction that runs finds no mark, as long
as no key comes back to life under the flag of a watched key, and none that is
watched changes without being signalled. -/
namespace Redis.Multi.Locking
open List Lib Outcome Model Watches

variable {K V : Type} {d : Nat} {s : Server K V}

/-! ## The history of watched keys -/

/-- The value clients see: an expired key is absent. -/
def logical (s : Server K V) (d : Nat) (key : K) : Option V :=
  if keyIsExpired s d key then none else ((s.db d).dict key).map Stored.value

/-- A key with the value it had when it was watched, and whether it had another
one since. -/
structure Watch (K V : Type) where
  db : Nat
  key : K
  seen : Option V
  changed : Bool
deriving DecidableEq, Repr

abbrev History (K V : Type) := Nat → List (Watch K V)

def forget (g : History K V) (c : Nat) : History K V := fun x => if x = c then [] else g x

section
variable [DecidableEq K]

/-- A key is watched from the first `WATCH` on. -/
def note (s : Server K V) (d : Nat) (ws : List (Watch K V)) (key : K) : List (Watch K V) :=
  if ws.any fun w => w.db = d ∧ w.key = key then ws else ws ++ [⟨d, key, logical s d key, false⟩]

/-- What an operation does to the keys watched. -/
def observe (op : Op K V) (s : Server K V) (g : History K V) : History K V :=
  match op with
  | .watch c keys =>
    if (s.clients c).multi then g
    else fun x => if x = c then keys.foldl (note s (s.clients c).db) (g x) else g x
  | .unwatch c => forget g c
  | .free c => forget g c
  | .discard c => if (s.clients c).multi then forget g c else g
  | .exec c => if (s.clients c).multi then forget g c else g
  | _ => g

end

section
variable [DecidableEq V]

def Watch.refresh (s : Server K V) (w : Watch K V) : Watch K V :=
  { w with changed := w.changed || decide (logical s w.db w.key ≠ w.seen) }

/-- Look at the watched keys again. -/
def refresh (s : Server K V) (g : History K V) : History K V := fun c => (g c).map (Watch.refresh s)

end

/-! ## The condition -/

def Unwatched (s : Server K V) (d : Nat) (key : K) : Prop :=
  ∀ id wk, s.watched id = some wk → ¬ (wk.db = d ∧ wk.key = key)

/-- No key that a client watched after it had expired comes back to life
without being deleted first: by `RESTORE` with `REPLACE`, or out of the
other database of a `SWAPDB`. No watched key changes without being signalled. -/
def Clear (op : Op K V) (s : Server K V) : Prop :=
  match op with
  | .restoreReplace c key _ ttl => (∀ t, ttl = some t → s.now < t) → ∀ id wk, s.watched id = some wk →
      wk.db = (s.clients c).db → wk.key = key → wk.expired = false
  | .swapdb a b => ∀ id wk, s.watched id = some wk → wk.expired = true →
      (wk.db = a → logical s b wk.key = none) ∧ (wk.db = b → logical s a wk.key = none)
  | .changeStream c key _ => Unwatched s (s.clients c).db key
  | .delKeysInSlot key => Unwatched s 0 key
  | _ => True

/-- Along a sequence of operations, a transaction only runs when no key that
its client watches has changed. -/
def Locks [DecidableEq K] [DecidableEq V] : List (Op K V) → Server K V → History K V → Prop
  | [], _, _ => True
  | op :: ops, s, g => Clear op s → ∃ s' ran, step op s = .ok (s', ran) ∧
      (∀ c, op = .exec c → ran = true → ∀ w ∈ g c, w.changed = false) ∧
      Locks ops s' (refresh s' (observe op s g))

/-! ## The invariant -/

/-- What a watched key knows of the value seen: with the flag, that there was
none; else the value is still stored, and a change means that it expired. -/
structure Tracks (s : Server K V) (wk : WatchedKey K) (w : Watch K V) : Prop where
  flag : wk.expired = true → w.seen = none ∧ w.changed = false
  value : wk.expired = false → ((s.db wk.db).dict wk.key).map Stored.value = w.seen
  change : wk.expired = false → w.changed = true → keyIsExpired s wk.db wk.key = true

/-- A watched key and what is known of it are about the same key. -/
structure About (wk : WatchedKey K) (c d : Nat) (key : K) : Prop where
  client : wk.client = c
  db : wk.db = d
  key : wk.key = key

structure Inv (s : Server K V) (g : History K V) : Prop where
  linked : Linked s
  flagged : ∀ id wk, s.watched id = some wk → wk.expired = true → keyIsExpired s wk.db wk.key = true
  noted : ∀ id wk, s.watched id = some wk → ∃ w ∈ g wk.client, w.db = wk.db ∧ w.key = wk.key
  track : ∀ c, (s.clients c).dirtyCas = false → ∀ w ∈ g c, ∃ id wk, s.watched id = some wk ∧
    About wk c w.db w.key ∧ Tracks s wk w

lemma inv_start (dbnum : Nat) (data : Nat → K → Option (Stored V)) (now : Nat) :
    Inv (start dbnum data now) fun _ => [] := by
  refine ⟨⟨fun c id => ?_, fun d key id => ?_, fun _ => nodup_nil, fun _ => nodup_nil,
    fun _ _ => rfl, nofun⟩, nofun, nofun,
    nofun⟩
  · simp [start]
  · simp [start]

/-- A key that did not change has been there all the time. -/
lemma logical_eq {key} (h : keyIsExpired s d key = false) :
    logical s d key = ((s.db d).dict key).map Stored.value := by
  rw [logical, h]
  rfl

variable {w : Watch K V} {wk : WatchedKey K} {g : History K V} {s1 s' : Server K V} {c : Nat}

lemma Tracks.refresh [DecidableEq V] (h : Tracks s wk w)
    (hd : wk.db = w.db) (hk : wk.key = w.key) (hflag : wk.expired = true → keyIsExpired s wk.db wk.key = true) :
    Tracks s wk (w.refresh s) := by
  refine ⟨fun he => ⟨(h.flag he).1, ?_⟩, h.value, fun he hc => ?_⟩
  · have hexp := hflag he
    rw [hd, hk] at hexp
    simp [Watch.refresh, logical, hexp, h.flag he]
  rcases Bool.or_eq_true_iff.mp hc with hc | hc
  · exact h.change he hc
  refine Decidable.byContradiction fun hn => ?_
  have hn' : keyIsExpired s wk.db wk.key = false := by simpa using hn
  have hval := h.value he
  rw [← logical_eq hn', hd, hk] at hval
  exact of_decide_eq_true hc hval

lemma Inv.refresh [DecidableEq V] (h : Inv s g) : Inv s (Locking.refresh s g) := by
  refine ⟨h.linked, h.flagged, fun id wk hw => ?_, fun c hc w hw => ?_⟩
  · obtain ⟨w, hmem, hd, hk⟩ := h.noted id wk hw
    exact ⟨w.refresh s, mem_map_of_mem hmem, hd, hk⟩
  obtain ⟨w', hmem, rfl⟩ := mem_map.mp hw
  obtain ⟨id, wk, hwk, habout, htracks⟩ := h.track c hc w' hmem
  exact ⟨id, wk, hwk, habout, htracks.refresh habout.db habout.key (h.flagged id wk hwk)⟩

/-! ## Changes of the data -/

/-- From `s` to `s2` a watched key becomes `wk'`: a flag means that the key is expired,
and unless the client was `hit` it still knows what it saw. -/
def Carries (s s2 : Server K V) (wk wk' : WatchedKey K) (hit : Prop) : Prop :=
  (wk'.expired = true → keyIsExpired s2 wk.db wk.key = true) ∧
    ∀ w : Watch K V, ¬ hit → Tracks s wk w → Tracks s2 wk' w

/-- A change of the data around a touch: `s0` and `s2` may hold other data than
`s` and `s1`. -/
lemma Inv.touched {f : Nat → WatchedKey K → WatchedKey K} {hit : Nat → WatchedKey K → Prop}
    {s0 s2} (h : Inv s g) (hf : Keeps f) (ht : Touch f hit s0 s1)
    (hw0 : s0.watched = s.watched) (hc0 : s0.clients = s.clients) (hl : Linked s2)
    (hw2 : s2.watched = s1.watched) (hc2 : s2.clients = s1.clients)
    (hcarry : ∀ id wk, s.watched id = some wk → Carries s s2 wk (f id wk) (hit id wk)) : Inv s2 g := by
  refine ⟨hl, fun id wk' hw he => ?_, fun id wk' hw => ?_, fun c hc w hw => ?_⟩
  · rw [hw2] at hw
    obtain ⟨wk, hwk, rfl⟩ := ht.origin id wk' hw
    rw [(hf id wk).2.1, (hf id wk).2.2]
    exact (hcarry id wk (hw0 ▸ hwk)).1 he
  · rw [hw2] at hw
    obtain ⟨wk, hwk, rfl⟩ := ht.origin id wk' hw
    rw [(hf id wk).1, (hf id wk).2.1, (hf id wk).2.2]
    exact h.noted id wk (hw0 ▸ hwk)
  rw [hc2] at hc
  have hc' : (s.clients c).dirtyCas = false := Bool.eq_false_iff.mpr fun hd => by
    rw [← hc0] at hd
    rw [ht.dirty c hd] at hc
    cases hc
  obtain ⟨id, wk, hwk, habout, htr⟩ := h.track c hc' w hw
  have hcl : (s1.clients wk.client).dirtyCas = false := habout.client ▸ hc
  refine ⟨id, f id wk, ?_, ⟨?_, ?_, ?_⟩, (hcarry id wk hwk).2 w (fun hh => ?_) htr⟩
  · rw [hw2]
    exact ht.keep id wk (hw0 ▸ hwk) hcl
  · rw [(hf id wk).1, habout.client]
  · rw [(hf id wk).2.1, habout.db]
  · rw [(hf id wk).2.2, habout.key]
  · rw [ht.hit id wk (hw0 ▸ hwk) hh] at hcl
    cases hcl

lemma expired_congr {key} (hdict : (s'.db d).dict key = (s.db d).dict key) (hnow : s'.now = s.now) :
    keyIsExpired s' d key = keyIsExpired s d key := by
  rw [keyIsExpired, keyIsExpired, hdict, hnow]

lemma Tracks.congr (h : Tracks s wk w)
    (hdict : (s'.db wk.db).dict wk.key = (s.db wk.db).dict wk.key) (hnow : s'.now = s.now) :
    Tracks s' wk w :=
  ⟨h.flag, fun he => by rw [hdict]; exact h.value he,
    fun he hc => by rw [expired_congr hdict hnow]; exact h.change he hc⟩

lemma Inv.carries {id} {hit : Prop} (h : Inv s g) (hw : s.watched id = some wk)
    (hdict : (s'.db wk.db).dict wk.key = (s.db wk.db).dict wk.key) (hnow : s'.now = s.now) :
    Carries s s' wk wk hit := by
  refine ⟨fun he => ?_, fun w _ htr => htr.congr hdict hnow⟩
  rw [expired_congr hdict hnow]
  exact h.flagged id wk hw he

lemma tracks_absent (h : w.seen = none ∧ w.changed = false) (hdict : (s.db wk.db).dict wk.key = none) (he : wk.expired = false) :
    Tracks s wk w := by
  refine ⟨fun ht => ?_, fun _ => ?_, fun _ ht => ?_⟩
  · rw [he] at ht
    cases ht
  · rw [hdict, h.1]
    rfl
  rw [h.2] at ht
  cases ht

lemma tracks_flag (h : w.seen = none ∧ w.changed = false) (he : wk.expired = true) :
    Tracks s wk w := by
  refine ⟨fun _ => h, fun hf => ?_, fun hf => ?_⟩
  · rw [he] at hf
    cases hf
  rw [he] at hf
  cases hf

lemma Tracks.absent (h : Tracks s wk w)
    (hdict : (s.db wk.db).dict wk.key = none) : w.seen = none ∧ w.changed = false := by
  cases he : wk.expired with
  | true => exact h.flag he
  | false =>
    have hval := h.value he
    rw [hdict] at hval
    refine ⟨hval.symm, Bool.eq_false_iff.mpr fun hc => ?_⟩
    have hsome := isSome_of_expired (h.change he hc)
    rw [hdict] at hsome
    cases hsome

section
variable [DecidableEq K]

def NoFlag (s : Server K V) (d : Nat) (key : K) : Prop :=
  ∀ id wk, s.watched id = some wk → wk.db = d → wk.key = key → wk.expired = false

lemma dict_setDict (s : Server K V) (d : Nat) (key : K) (e : Option (Stored V)) (d' : Nat) (key' : K) :
    ((setDict s d key e).db d').dict key' =
      if d' = d ∧ key' = key then e else (s.db d').dict key' := by
  by_cases hd : d' = d
  · subst hd
    simp [setDict, Server.setDb]
  · simp [setDict, Server.setDb, hd]

lemma linked_setDict (h : Linked s) (d : Nat) (key : K) (e : Option (Stored V)) :
    Linked (setDict s d key e) := by
  refine h.same rfl (fun _ => rfl) (fun d' => ?_) rfl
  by_cases hd : d' = d <;> simp [setDict, Server.setDb, hd]

lemma Inv.changeKey (h : Inv s g) (d : Nat) (key : K)
    (e : Option (Stored V)) (hflag : e = none ∨ NoFlag s d key) :
    ∃ s', touchWatchedKey (setDict s d key e) d key = .ok s' ∧ Inv s' g ∧ NoFlag s' d key := by
  have hdict : ((setDict s d key e).db d).dict key = e := by rw [dict_setDict, if_pos ⟨rfl, rfl⟩]
  obtain ⟨s', hrun, -, ht⟩ := touchWatchedKey_spec (linked_setDict h.linked d key e) d key
  have ht := ht fun id wk hw hd hk he => by
    rcases hflag with rfl | hflag
    · exact hdict
    rw [hflag id wk hw hd hk] at he
    cases he
  have hother : ∀ wk : WatchedKey K, ¬ (wk.db = d ∧ wk.key = key) →
      (s'.db wk.db).dict wk.key = (s.db wk.db).dict wk.key := fun wk hn => by
    rw [ht.dict, dict_setDict, if_neg hn]
  have hnow : s'.now = s.now := ht.now
  refine ⟨s', hrun, ?_, fun id wk' hw hd hk => ?_⟩
  · refine h.touched (keeps_flag (fun _ wk => wk.db = d ∧ wk.key = key) _) ht rfl rfl ht.linked rfl rfl
      fun id wk hw => ?_
    by_cases hat : wk.db = d ∧ wk.key = key
    · rw [if_pos hat]
      refine ⟨nofun, fun w hh htr => ?_⟩
      -- the client stays clean, so it has the flag and the key is gone
      have he : wk.expired = true := Decidable.byContradiction fun he =>
        hh ⟨hat.1, hat.2, by simpa using he⟩
      have hnone : e = none := hflag.resolve_right fun hn => by
        rw [hn id wk hw hat.1 hat.2] at he
        cases he
      refine tracks_absent (htr.flag he) ?_ rfl
      rw [ht.dict, dict_setDict, if_pos hat, hnone]
    · rw [if_neg hat]
      exact h.carries hw (hother wk hat) hnow
  · obtain ⟨wk, hwk, rfl⟩ := ht.origin id wk' hw
    have hkeep := keeps_flag (fun _ (wk : WatchedKey K) => wk.db = d ∧ wk.key = key) (fun _ => false) id wk
    rw [hkeep.2.1] at hd
    rw [hkeep.2.2] at hk
    rw [if_pos ⟨hd, hk⟩]

lemma Inv.expireIfNeeded (h : Inv s g) (d : Nat) (key : K) :
    ∃ s', Model.expireIfNeeded s d key = .ok s' ∧ Inv s' g ∧ NoFlag s' d key := by
  unfold Model.expireIfNeeded
  split
  · exact h.changeKey d key none (.inl rfl)
  rename_i hexp
  refine ⟨s, rfl, h, fun id wk hw hd hk => Bool.eq_false_iff.mpr fun he => hexp ?_⟩
  rw [← hd, ← hk]
  exact h.flagged id wk hw he

lemma Inv.writeKey (h : Inv s g) (d : Nat) (key : K)
    (new : Option (Stored V)) : ∃ s', Model.writeKey s d key new = .ok s' ∧ Inv s' g := by
  obtain ⟨s1, hrun, h1, hflag⟩ := h.expireIfNeeded d key
  obtain ⟨s', hrun', h', _⟩ := h1.changeKey d key new (.inr hflag)
  refine ⟨s', ?_, h'⟩
  rw [Model.writeKey, hrun, bind_ok, hrun']

lemma Inv.delKey (h : Inv s g) (d : Nat) (key : K) :
    ∃ s', Model.delKey s d key = .ok s' ∧ Inv s' g := by
  obtain ⟨s1, hrun, h1, _⟩ := h.expireIfNeeded d key
  rw [Model.delKey, hrun, bind_ok]
  split
  · obtain ⟨s', hrun', h', _⟩ := h1.changeKey d key none (.inl rfl)
    exact ⟨s', hrun', h'⟩
  · exact ⟨s1, rfl, h1⟩

lemma Inv.restoreReplace (h : Inv s g) (d : Nat) (key : K) (value : V)
    (ttl : Option Nat) (hflag : (∀ t, ttl = some t → s.now < t) → NoFlag s d key) :
    ∃ s', Model.restoreReplace s d key value ttl = .ok s' ∧ Inv s' g := by
  unfold Model.restoreReplace
  split
  · split
    · obtain ⟨s', hrun, h', _⟩ := h.changeKey d key none (.inl rfl)
      exact ⟨s', hrun, h'⟩
    · exact ⟨s, rfl, h⟩
  rename_i hlive
  have hlate : ∀ t, ttl = some t → s.now < t := by
    rintro t rfl
    simpa using hlive
  obtain ⟨s', hrun, h', _⟩ := h.changeKey d key (some ⟨value, ttl⟩) (.inr (hflag hlate))
  exact ⟨s', hrun, h'⟩

lemma Inv.setDict (h : Inv s g) {key} (hno : Unwatched s d key) (e : Option (Stored V)) :
    Inv (Model.setDict s d key e) g :=
  h.touched (fun _ _ => ⟨rfl, rfl, rfl⟩) (Touch.refl h.linked) rfl rfl (linked_setDict h.linked d key e)
    rfl rfl fun id wk hw => h.carries hw (by rw [dict_setDict, if_neg (hno id wk hw)]) rfl

lemma Inv.changeStream (h : Inv s g) {key} (hno : Unwatched s d key) (f : V → V) :
    ∃ s', Model.changeStream s d key f = .ok s' ∧ Inv s' g := by
  unfold Model.changeStream
  split
  · obtain ⟨s', hrun, h', _⟩ := h.changeKey d key none (.inl rfl)
    exact ⟨s', hrun, h'⟩
  · exact ⟨_, rfl, h.setDict hno _⟩

end

/-! ## Whole databases -/

lemma touchDbs_spec : ∀ (dbs : List Nat) (s : Server K V), Linked s → dbs.Nodup →
    ∃ s', dbs.foldlM (fun s d => touchAllWatchedKeysInDb d none s) s = .ok s' ∧
      Touch (fun _ w => if w.db ∈ dbs then
          { w with expired := expiredAfter (look s w.db none w.key) w.expired } else w)
        (fun _ w => w.db ∈ dbs ∧ dirtyAfter (look s w.db none w.key) w.expired = true) s s' := by
  intro dbs
  induction dbs with
  | nil => exact fun s h _ => ⟨s, rfl, (Touch.refl h).congr (by simp) (by simp)⟩
  | cons d dbs ih =>
    intro s h hnodup
    obtain ⟨hnot, hnodup'⟩ := nodup_cons.mp hnodup
    obtain ⟨s1, hrun, ht⟩ := touchAll_spec h d none
    obtain ⟨s', hrun', ht'⟩ := ih s1 ht.linked hnodup'
    have hlook := fun d => look_congr ht.dict ht.now d none
    refine ⟨s', ?_, (ht.trans (keeps_flag (fun _ w => w.db = d) _) ht').congr (fun x w _ => ?_) fun x w _ hh => ?_⟩
    · rw [foldlM_cons, hrun]
      exact hrun'
    · by_cases hd : w.db = d
      · subst hd
        simp [hnot]
      · simp [hd, hlook]
    by_cases hd : w.db = d
    · subst hd
      exact .inl ⟨rfl, hh.2⟩
    refine .inr ?_
    rw [if_neg hd, hlook]
    exact ⟨mem_of_ne_of_mem hd hh.1, hh.2⟩

/-- The databases are empty, and nothing else has changed. -/
structure Emptied (dbs : List Nat) (s s' : Server K V) : Prop where
  watched : s'.watched = s.watched
  clients : s'.clients = s.clients
  fresh : s'.fresh = s.fresh
  now : s'.now = s.now
  lists : ∀ d, (s'.db d).watchedKeys = (s.db d).watchedKeys
  gone : ∀ d ∈ dbs, ∀ key, (s'.db d).dict key = none
  rest : ∀ d, d ∉ dbs → (s'.db d).dict = (s.db d).dict

lemma emptied_foldl (dbs : List Nat) : ∀ s : Server K V, Emptied dbs s (dbs.foldl emptyDb s) := by
  induction dbs with
  | nil => exact fun s => ⟨rfl, rfl, rfl, rfl, fun _ => rfl, nofun, fun _ _ => rfl⟩
  | cons d dbs ih =>
    intro s
    have h := ih (emptyDb s d)
    have hdb : ∀ x, (emptyDb s d).db x = if x = d then { s.db x with dict := fun _ => none } else s.db x :=
      fun _ => rfl
    refine ⟨h.watched, h.clients, h.fresh, h.now, fun x => (h.lists x).trans ?_, fun x hx key => ?_,
      fun x hx => ?_⟩
    · rw [hdb]
      split <;> rfl
    · by_cases hin : x ∈ dbs
      · exact h.gone x hin key
      have hxd : x = d := (mem_cons.mp hx).resolve_right hin
      rw [foldl_cons, h.rest x hin, hdb, if_pos hxd]
    · rw [mem_cons, not_or] at hx
      rw [foldl_cons, h.rest x hx.2, hdb, if_neg hx.1]

lemma Inv.emptyData (h : Inv s g) {dbs} (hnodup : dbs.Nodup) :
    ∃ s', Model.emptyData s dbs = .ok s' ∧ Inv s' g := by
  obtain ⟨s1, hrun, ht⟩ := touchDbs_spec dbs s h.linked hnodup
  obtain ⟨s2, hs2⟩ : ∃ s2, s2 = dbs.foldl emptyDb s1 := ⟨_, rfl⟩
  have hempty : Emptied dbs s1 s2 := hs2 ▸ emptied_foldl dbs s1
  have hlinked : Linked s2 := ht.linked.same hempty.watched (fun c => by rw [hempty.clients]) hempty.lists
    hempty.fresh
  have hnow : s2.now = s.now := hempty.now.trans ht.now
  have hrest : ∀ wk : WatchedKey K, wk.db ∉ dbs → (s2.db wk.db).dict wk.key = (s.db wk.db).dict wk.key :=
    fun wk hn => by rw [hempty.rest _ hn, ht.dict]
  -- a flag means that the key is there, and goes with it
  have hclear : ∀ id wk, s.watched id = some wk →
      expiredAfter (look s wk.db none wk.key) wk.expired = false := by
    intro id wk hw
    cases he : wk.expired with
    | true =>
      have hsome := isSome_of_expired (h.flagged id wk hw he)
      simp [look, hsome, expiredAfter]
    | false => simp [look, expiredAfter]
  refine ⟨s2, by rw [Model.emptyData, hrun, hs2]; rfl, h.touched
    (keeps_flag (fun _ w => w.db ∈ dbs) _) ht rfl rfl hlinked hempty.watched
    hempty.clients fun id wk hw => ?_⟩
  by_cases hin : wk.db ∈ dbs
  · rw [if_pos hin, hclear id wk hw]
    refine ⟨Bool.noConfusion, fun w hh htr => ?_⟩
    have hgone : (s2.db wk.db).dict wk.key = none := hempty.gone _ hin _
    cases he : wk.expired with
    | true => exact tracks_absent (htr.flag he) hgone rfl
    | false =>
      have hnone : (s.db wk.db).dict wk.key = none := by
        refine Option.not_isSome_iff_eq_none.mp fun hs => hh ⟨hin, ?_⟩
        rw [he]
        simp [look, hs, dirtyAfter]
      exact tracks_absent (htr.absent hnone) hgone rfl
  · rw [if_neg hin]
    exact h.carries hw (hrest wk hin) hnow

/-! ## Swapping -/

lemma swap_entry {s2 other} (hd : wk.db = d)
    (hdict : (s2.db d).dict = (s.db other).dict) (hnow : s2.now = s.now)
    (hflag : wk.expired = true → keyIsExpired s wk.db wk.key = true)
    (hclear : wk.expired = true → logical s other wk.key = none) :
    Carries s s2 wk { wk with expired := expiredAfter (look s d (some other) wk.key) wk.expired }
      (dirtyAfter (look s d (some other) wk.key) wk.expired = true) := by
  subst hd
  have hexp : keyIsExpired s2 wk.db wk.key = keyIsExpired s other wk.key := by
    rw [keyIsExpired, keyIsExpired, hdict, hnow]
  have hgone : ∀ b, ((s.db other).dict wk.key).isSome = false →
      (s2.db { wk with expired := b }.db).dict { wk with expired := b }.key = none := fun b hr => by
    rw [hdict]
    exact Option.not_isSome_iff_eq_none.mp (by rw [hr]; decide)
  rw [Carries, hexp, look, Option.any_some, Option.any_some]
  cases he : wk.expired with
  | true =>
    have hsome := isSome_of_expired (hflag he)
    rw [hsome]
    cases hr : ((s.db other).dict wk.key).isSome with
    | true =>
      refine ⟨fun _ => Decidable.byContradiction fun hx => ?_, fun w _ htr => ?_⟩
      · obtain ⟨v, hv⟩ := Option.isSome_iff_exists.mp hr
        have hlog := hclear he
        rw [logical_eq (by simpa using hx), hv] at hlog
        cases hlog
      · exact tracks_flag (htr.flag he) rfl
    | false =>
      exact ⟨Bool.noConfusion, fun w _ htr => tracks_absent (htr.flag he) (hgone _ hr) rfl⟩
  | false =>
    cases hs : ((s.db wk.db).dict wk.key).isSome with
    | true => exact ⟨Bool.noConfusion, fun w hn => absurd rfl hn⟩
    | false =>
      have hnone : (s.db wk.db).dict wk.key = none := Option.not_isSome_iff_eq_none.mp (by rw [hs]; decide)
      cases hx : keyIsExpired s other wk.key with
      | true =>
        exact ⟨fun _ => rfl, fun w _ htr => tracks_flag (htr.absent hnone) rfl⟩
      | false =>
        refine ⟨Bool.noConfusion, fun w hn htr => ?_⟩
        have hr : ((s.db other).dict wk.key).isSome = false := Bool.eq_false_iff.mpr fun hr => hn (by
          rw [hr]; rfl)
        exact tracks_absent (htr.absent hnone) (hgone _ hr) rfl

/-- A watched key after both databases of a swap were touched. -/
def swapFlag (s : Server K V) (a b : Nat) (w : WatchedKey K) : WatchedKey K :=
  if w.db = a then { w with expired := expiredAfter (look s a (some b) w.key) w.expired }
  else if w.db = b then { w with expired := expiredAfter (look s b (some a) w.key) w.expired }
  else w

def swapHit (s : Server K V) (a b : Nat) (w : WatchedKey K) : Prop :=
  (w.db = a ∧ dirtyAfter (look s a (some b) w.key) w.expired = true) ∨
    (w.db = b ∧ dirtyAfter (look s b (some a) w.key) w.expired = true)

lemma keeps_swapFlag (s : Server K V) (a b : Nat) : Keeps fun _ w => swapFlag s a b w := by
  intro x w
  dsimp only [swapFlag]
  split
  · exact ⟨rfl, rfl, rfl⟩
  · split <;> exact ⟨rfl, rfl, rfl⟩

lemma touchBoth_spec (h : Linked s) {a b} (hab : a ≠ b) :
    ∃ s1 s2, touchAllWatchedKeysInDb a (some b) s = .ok s1 ∧ touchAllWatchedKeysInDb b (some a) s1 = .ok s2 ∧
      Touch (fun _ w => swapFlag s a b w) (fun _ w => swapHit s a b w) s s2 := by
  obtain ⟨s1, hrun1, ht1⟩ := touchAll_spec h a (some b)
  obtain ⟨s2, hrun2, ht2⟩ := touchAll_spec ht1.linked b (some a)
  have hlook := look_congr ht1.dict ht1.now b (some a)
  refine ⟨s1, s2, hrun1, hrun2, (ht1.trans (keeps_flag (fun _ w => w.db = a) _) ht2).congr
    (fun x w _ => ?_) fun x w _ hh => ?_⟩
  · by_cases ha : w.db = a
    · simp [swapFlag, ha, hab]
    · simp [swapFlag, ha, hlook]
  rcases hh with hh | hh
  · exact .inl hh
  refine .inr ?_
  rw [if_neg (fun he => hab (he.symm.trans hh.1)), hlook]
  exact hh

lemma Inv.dbSwapDatabases (h : Inv s g) (a b : Nat)
    (hclear : ∀ id wk, s.watched id = some wk → wk.expired = true →
      (wk.db = a → logical s b wk.key = none) ∧ (wk.db = b → logical s a wk.key = none)) :
    ∃ s', Model.dbSwapDatabases s a b = .ok s' ∧ Inv s' g := by
  unfold Model.dbSwapDatabases
  split
  · exact ⟨s, rfl, h⟩
  rename_i hne
  have hab : a ≠ b := fun he => hne (.inr (.inr he))
  obtain ⟨s1, s2, hrun1, hrun2, ht⟩ := touchBoth_spec h.linked hab
  rw [hrun1, bind_ok, hrun2, bind_ok]
  obtain ⟨s3, hs3⟩ : ∃ s3, s3 = (s2.setDb a fun db => { db with dict := (s2.db b).dict }).setDb b fun db =>
    { db with dict := (s2.db a).dict } := ⟨_, rfl⟩
  have hdb : ∀ d, s3.db d = if d = b then { s2.db d with dict := (s2.db a).dict } else if d = a then
      { s2.db d with dict := (s2.db b).dict } else s2.db d := by
    intro d
    rw [hs3]
    by_cases hd : d = b
    · subst hd
      simp [Server.setDb]
    · simp [Server.setDb, hd]
  have hdicta : (s3.db a).dict = (s.db b).dict := by rw [hdb, if_neg hab, if_pos rfl, ← ht.dict]
  have hdictb : (s3.db b).dict = (s.db a).dict := by rw [hdb, if_pos rfl, ← ht.dict]
  have hdict : ∀ d, d ≠ a → d ≠ b → (s3.db d).dict = (s.db d).dict := fun d ha hb => by
    rw [hdb, if_neg hb, if_neg ha, ht.dict]
  have hnow : s3.now = s.now := by
    rw [hs3]
    exact ht.now
  have hw3 : s3.watched = s2.watched := by rw [hs3]; rfl
  have hc3 : s3.clients = s2.clients := by rw [hs3]; rfl
  have hlinked : Linked s3 := by
    refine ht.linked.same hw3 (fun c => by rw [hc3]) (fun d => ?_) (by rw [hs3]; rfl)
    rw [hdb]
    split
    · rfl
    · split <;> rfl
  refine ⟨s3, by rw [hs3], h.touched (keeps_swapFlag s a b) ht rfl rfl hlinked hw3 hc3
    fun id wk hw => ?_⟩
  have hflag := h.flagged id wk hw
  by_cases ha : wk.db = a
  · obtain ⟨h1, h2⟩ := swap_entry ha hdicta hnow hflag fun he => (hclear id wk hw he).1 ha
    rw [swapFlag, if_pos ha]
    exact ⟨h1, fun w hn htr => h2 w (fun hd => hn (.inl ⟨ha, hd⟩)) htr⟩
  by_cases hb : wk.db = b
  · obtain ⟨h1, h2⟩ := swap_entry hb hdictb hnow hflag fun he => (hclear id wk hw he).2 hb
    rw [swapFlag, if_neg ha, if_pos hb]
    exact ⟨h1, fun w hn htr => h2 w (fun hd => hn (.inr ⟨hb, hd⟩)) htr⟩
  rw [swapFlag, if_neg ha, if_neg hb]
  exact h.carries hw (by rw [hdict wk.db ha hb]) hnow

/-! ## Commands that end the watching -/

/-- The client watches nothing any more; all else is as before, up to its own
flags. -/
structure Dropped (c : Nat) (s s' : Server K V) : Prop where
  linked : Linked s'
  watched : s'.watched = fun x => (s.watched x).filter fun wk => wk.client ≠ c
  dict : ∀ d, (s'.db d).dict = (s.db d).dict
  now : s'.now = s.now
  dirty : ∀ x, x ≠ c → (s'.clients x).dirtyCas = (s.clients x).dirtyCas

lemma Inv.dropped (h : Inv s g) (hd : Dropped c s s') : Inv s' (forget g c) := by
  have horigin : ∀ {id wk}, s'.watched id = some wk → s.watched id = some wk ∧ wk.client ≠ c := by
    intro id wk hw
    rw [hd.watched] at hw
    obtain ⟨hw', hc⟩ := Option.filter_eq_some_iff.mp hw
    exact ⟨hw', of_decide_eq_true hc⟩
  refine ⟨hd.linked, fun id wk hw he => ?_, fun id wk hw => ?_, fun x hx w hwx => ?_⟩
  · rw [expired_congr (by rw [hd.dict]) hd.now]
    exact h.flagged id wk (horigin hw).1 he
  · rw [forget, if_neg (horigin hw).2]
    exact h.noted id wk (horigin hw).1
  have hxc : x ≠ c := fun he => by
    rw [forget, if_pos he] at hwx
    cases hwx
  rw [forget, if_neg hxc] at hwx
  obtain ⟨id, wk, hwk, habout, htr⟩ := h.track x ((hd.dirty x hxc).symm.trans hx) w hwx
  refine ⟨id, wk, ?_, habout, htr.congr (by rw [hd.dict]) hd.now⟩
  rw [hd.watched]
  exact Option.filter_eq_some_iff.mpr ⟨hwk, decide_eq_true (habout.client ▸ hxc)⟩

/-- A change of the flags of one client. -/
structure Flags (c : Nat) (s s' : Server K V) : Prop where
  linked : Linked s → Linked s'
  watched : s'.watched = s.watched
  dict : ∀ d, (s'.db d).dict = (s.db d).dict
  now : s'.now = s.now
  dirty : ∀ x, x ≠ c → (s'.clients x).dirtyCas = (s.clients x).dirtyCas

lemma flags_setClient (s : Server K V) (c : Nat) {f : Client → Client}
    (hf : ∀ client, (f client).watchedKeys = client.watchedKeys) : Flags c s (s.setClient c f) := by
  have hclient : ∀ x, (s.setClient c f).clients x = if x = c then f (s.clients x) else s.clients x :=
    fun _ => rfl
  refine ⟨fun h => h.same rfl (fun x => ?_) (fun _ => rfl) rfl, rfl, fun _ => rfl, rfl, fun x hx => ?_⟩
  · rw [hclient]
    split
    · exact hf _
    · rfl
  · rw [hclient, if_neg hx]

lemma Dropped.flags (h : Dropped c s s1) (hf : Flags c s1 s') : Dropped c s s' :=
  ⟨hf.linked h.linked, hf.watched.trans h.watched, fun d => (hf.dict d).trans (h.dict d),
    hf.now.trans h.now, fun x hx => (hf.dirty x hx).trans (h.dirty x hx)⟩

lemma Flags.dropped (hf : Flags c s s1) (h : Dropped c s1 s') : Dropped c s s' :=
  ⟨h.linked, by rw [h.watched, hf.watched], fun d => (h.dict d).trans (hf.dict d),
    h.now.trans hf.now, fun x hx => (h.dirty x hx).trans (hf.dirty x hx)⟩

lemma Dropped.trans (h : Dropped c s s1) (h' : Dropped c s1 s') : Dropped c s s' := by
  refine ⟨h'.linked, ?_, fun d => (h'.dict d).trans (h.dict d), h'.now.trans h.now,
    fun x hx => (h'.dirty x hx).trans (h.dirty x hx)⟩
  rw [h'.watched, h.watched]
  funext x
  dsimp only
  cases s.watched x with
  | none => rfl
  | some wk => simp

section
variable [DecidableEq K]

lemma unwatchAllKeys_dropped (h : Linked s) (c : Nat) :
    ∃ s', unwatchAllKeys s c = .ok s' ∧ Dropped c s s' := by
  obtain ⟨s', hrun, hl, hframe, hw⟩ := unwatchAllKeys_spec h c
  refine ⟨s', hrun, hl, hw, hframe.dict, hframe.now, fun x _ => ?_⟩
  show (bare (s'.clients x)).dirtyCas = (bare (s.clients x)).dirtyCas
  rw [hframe.clients]

lemma discardTransaction_dropped (h : Linked s) (c : Nat) :
    ∃ s', discardTransaction s c = .ok s' ∧ Dropped c s s' := by
  have hf : Flags c s _ := flags_setClient s c (f := fun client =>
    { client with multi := false, dirtyCas := false, dirtyExec := false }) fun _ => rfl
  obtain ⟨s', hrun, hd⟩ := unwatchAllKeys_dropped (hf.linked h) c
  exact ⟨s', hrun, hf.dropped hd⟩

omit [DecidableEq K] in
/-- A search among the keys of a client finds one exactly if there is one. -/
lemma search_spec {f : List Nat → Outcome Bool} {p : WatchedKey K → Prop} [DecidablePred p]
    (hnil : f [] = .ok false) (hcons : ∀ {id wk}, s.watched id = some wk → ∀ ids,
      f (id :: ids) = if p wk then .ok true else f ids) (ids : List Nat)
    (hall : ∀ id ∈ ids, ∃ wk, s.watched id = some wk) :
    ∃ b, f ids = .ok b ∧ (b = true ↔ ∃ id ∈ ids, ∃ wk, s.watched id = some wk ∧ p wk) := by
  induction ids with
  | nil => exact ⟨false, hnil, by simp⟩
  | cons id ids ih =>
    obtain ⟨⟨wk, hw⟩, hall⟩ := forall_mem_cons.mp hall
    obtain ⟨b, hrun, hb⟩ := ih hall
    rw [hcons hw]
    by_cases hp : p wk
    · rw [if_pos hp]
      exact ⟨true, rfl, fun _ => ⟨id, mem_cons_self, wk, hw, hp⟩, fun _ => rfl⟩
    rw [if_neg hp]
    refine ⟨b, hrun, hb.trans ⟨fun ⟨x, hx, hrest⟩ => ⟨x, mem_cons_of_mem _ hx, hrest⟩, ?_⟩⟩
    rintro ⟨x, hx, wk', hw', hp'⟩
    rcases mem_cons.mp hx with rfl | hx
    · rw [hw] at hw'
      cases hw'
      exact absurd hp' hp
    · exact ⟨x, hx, wk', hw', hp'⟩

omit [DecidableEq K] in
lemma anyExpired_cons {id} (hw : s.watched id = some wk) (ids : List Nat) : anyExpired s (id :: ids) =
    if wk.expired = false ∧ keyIsExpired s wk.db wk.key = true then .ok true
    else anyExpired s ids := by
  rw [anyExpired, watchedKey_of hw, bind_ok]
  cases wk.expired <;> simp

lemma alreadyWatched_cons (d : Nat) (key : K) {id} (hw : s.watched id = some wk) (ids : List Nat) :
    alreadyWatched s d key (id :: ids) =
      if wk.db = d ∧ wk.key = key then .ok true else alreadyWatched s d key ids := by
  rw [alreadyWatched, watchedKey_of hw, bind_ok]

omit [DecidableEq K] in
lemma Inv.watches (h : Inv s g) (c : Nat) :
    ∀ id ∈ (s.clients c).watchedKeys, ∃ wk, s.watched id = some wk := by
  intro id hid
  obtain ⟨wk, hw, _⟩ := (h.linked.client c id).mp hid
  exact ⟨wk, hw⟩

/-- A transaction runs only when no key has changed. -/
lemma Inv.execCommand (h : Inv s g) (c : Nat) :
    ∃ s' ran, Model.execCommand s c = .ok (s', ran) ∧ Inv s' (observe (.exec c) s g) ∧
      (ran = true → ∀ w ∈ g c, w.changed = false) := by
  rw [Model.execCommand, observe]
  by_cases hm : (s.clients c).multi = true
  · rw [if_pos hm]
    obtain ⟨b, hrun, hb⟩ := search_spec rfl anyExpired_cons _ (h.watches c)
    rw [isWatchedKeyExpired, hrun, bind_ok]
    obtain ⟨s1, hs1⟩ : ∃ s1, s1 = if b = true then setDirtyCas s c else s := ⟨_, rfl⟩
    have hf : Flags c s s1 := by
      rw [hs1]
      split
      · exact flags_setClient s c fun _ => rfl
      · exact ⟨id, rfl, fun _ => rfl, rfl, fun _ _ => rfl⟩
    rw [← hs1]
    dsimp only
    split
    · obtain ⟨s', hrun', hd⟩ := discardTransaction_dropped (hf.linked h.linked) c
      rw [hrun']
      exact ⟨s', false, rfl, h.dropped (hf.dropped hd), nofun⟩
    rename_i hclean
    obtain ⟨s2, hrun', hd⟩ := unwatchAllKeys_dropped (hf.linked h.linked) c
    obtain ⟨s3, hrun'', hd'⟩ := discardTransaction_dropped hd.linked c
    rw [hrun', bind_ok, hrun'']
    refine ⟨s3, true, rfl, h.dropped (hf.dropped (hd.trans hd')), fun _ w hw => ?_⟩
    -- neither dirty nor found expired
    have hb' : b = false := Bool.eq_false_iff.mpr fun ht => hclean (by
      rw [hs1, if_pos ht]
      simp [setDirtyCas, Server.setClient])
    have hdirty : (s.clients c).dirtyCas = false := by
      rw [hs1, hb', Bool.or_eq_true_iff, not_or] at hclean
      simpa using hclean.1
    obtain ⟨id, wk, hwk, habout, htr⟩ := h.track c hdirty w hw
    cases he : wk.expired with
    | true => exact (htr.flag he).2
    | false =>
      have hid := (h.linked.client c id).mpr ⟨wk, hwk, habout.client⟩
      exact Bool.eq_false_iff.mpr fun hc => by
        rw [hb.mpr ⟨id, hid, wk, hwk, he, htr.change he hc⟩] at hb'
        cases hb'
  · rw [if_neg hm, if_neg hm]
    exact ⟨s, false, rfl, h, nofun⟩

/-! ## Watching -/

def addWatched (s : Server K V) (wk : WatchedKey K) : Server K V :=
  let s1 := s.setClient wk.client fun client => { client with watchedKeys := client.watchedKeys ++ [s.fresh] }
  let s2 := s1.setDb wk.db fun db => { db with watchedKeys := db.watchedKeys ++ [(wk.key, s.fresh)] }
  { s2.setWatched s.fresh (some wk) with fresh := s.fresh + 1 }

omit [DecidableEq K] in
lemma watched_addWatched (h : Linked s) (wk : WatchedKey K) (id : Nat) (wk' : WatchedKey K) :
    (addWatched s wk).watched id = some wk' ↔ (id = s.fresh ∧ wk' = wk) ∨ s.watched id = some wk' := by
  have hw : (addWatched s wk).watched id = if id = s.fresh then some wk else s.watched id := rfl
  rw [hw]
  by_cases hid : id = s.fresh
  · rw [hid, h.fresh _ le_rfl]
    simp [eq_comm]
  simp [hid]

omit [DecidableEq K] in
lemma linked_addWatched (h : Linked s) (wk : WatchedKey K)
    (hnew : ∀ id wk', s.watched id = some wk' → ¬ About wk' wk.client wk.db wk.key) :
    Linked (addWatched s wk) := by
  have hsome := watched_addWatched h wk
  have hfresh : ∀ {id wk'}, s.watched id = some wk' → id ≠ s.fresh := by
    rintro id wk' hw rfl
    rw [h.fresh _ le_rfl] at hw
    cases hw
  have hclient : ∀ c, ((addWatched s wk).clients c).watchedKeys = if c = wk.client then
      (s.clients c).watchedKeys ++ [s.fresh] else (s.clients c).watchedKeys := fun c => by
    by_cases hc : c = wk.client <;>
      simp [addWatched, Server.setWatched, Server.setDb, Server.setClient, hc]
  have hdb : ∀ d, ((addWatched s wk).db d).watchedKeys = if d = wk.db then
      (s.db d).watchedKeys ++ [(wk.key, s.fresh)] else (s.db d).watchedKeys := fun d => by
    by_cases hd : d = wk.db <;>
      simp [addWatched, Server.setWatched, Server.setDb, Server.setClient, hd]
  refine ⟨fun c id => ?_, fun d key id => ?_, fun c => ?_, fun d => ?_, fun id hid => ?_, ?_⟩
  · simp only [hsome, or_and_right, exists_or, ← h.client]
    rw [hclient]
    by_cases hc : c = wk.client
    · simp [hc, or_comm]
    · simp [hc, Ne.symm hc]
  · simp only [hsome, or_and_right, exists_or, ← h.db]
    rw [hdb]
    by_cases hd : d = wk.db
    · subst hd
      simp [or_comm, and_comm, eq_comm]
    · simp [hd, Ne.symm hd]
  · rw [hclient]
    split
    · refine List.Nodup.append (h.nodupClient c) (nodup_singleton _) ?_
      intro x hx hx'
      obtain ⟨wk', hw, _⟩ := (h.client c x).mp hx
      exact hfresh hw (mem_singleton.mp hx')
    · exact h.nodupClient c
  · rw [hdb]
    split
    · refine List.Nodup.append (h.nodupDb d) (nodup_singleton _) ?_
      rintro ⟨key, x⟩ hx hx'
      obtain ⟨wk', hw, _⟩ := (h.db d key x).mp hx
      exact hfresh hw (congrArg Prod.snd (mem_singleton.mp hx'))
    · exact h.nodupDb d
  · have hlt : s.fresh < id := hid
    refine Option.eq_none_iff_forall_ne_some.mpr fun wk' hw => ?_
    rcases (hsome id wk').mp hw with ⟨rfl, _⟩ | hw
    · omega
    rw [h.fresh id (by omega)] at hw
    cases hw
  · intro id id' wk1 wk2 h1 h2 hc hd hk
    rcases (hsome _ _).mp h1 with ⟨hi1, he1⟩ | hw1 <;> rcases (hsome _ _).mp h2 with ⟨hi2, he2⟩ | hw2
    · rw [hi1, hi2]
    · exact absurd ⟨he1 ▸ hc.symm, he1 ▸ hd.symm, he1 ▸ hk.symm⟩ (hnew _ _ hw2)
    · exact absurd ⟨he2 ▸ hc, he2 ▸ hd, he2 ▸ hk⟩ (hnew _ _ hw1)
    · exact h.unique _ _ _ _ hw1 hw2 hc hd hk

def noteFor (s : Server K V) (c d : Nat) (g : History K V) (key : K) : History K V :=
  fun x => if x = c then note s d (g x) key else g x

lemma Inv.watchForKey (h : Inv s g) (hclean : (s.clients c).dirtyCas = false) (key : K) :
    ∃ s', Model.watchForKey c s key = .ok s' ∧ Inv s' (noteFor s c (s.clients c).db g key) ∧ Frame s s' := by
  generalize hd : (s.clients c).db = d
  obtain ⟨b, hrun, hb⟩ := search_spec rfl (alreadyWatched_cons d key) _ (h.watches c)
  -- the client watches the key exactly when it is noted
  have hiff : b = true ↔ ((g c).any fun w => w.db = d ∧ w.key = key) = true := by
    rw [hb, any_eq_true]
    constructor
    · rintro ⟨id, hid, wk, hw, hdb, hkey⟩
      obtain ⟨wk', hw', hc⟩ := (h.linked.client c id).mp hid
      rw [hw] at hw'
      cases hw'
      obtain ⟨w, hmem, hwd, hwk⟩ := h.noted id wk hw
      exact ⟨w, hc ▸ hmem, decide_eq_true ⟨hwd.trans hdb, hwk.trans hkey⟩⟩
    rintro ⟨w, hmem, hat⟩
    have hat := of_decide_eq_true hat
    obtain ⟨id, wk, hw, habout, _⟩ := h.track c hclean w hmem
    exact ⟨id, (h.linked.client c id).mpr ⟨wk, hw, habout.client⟩, wk, hw, habout.db.trans hat.1,
      habout.key.trans hat.2⟩
  rw [Model.watchForKey, hd]
  rw [hrun, bind_ok]
  cases hbv : b with
  | true =>
    have hsame : noteFor s c d g key = g := funext fun x => by
      by_cases hx : x = c
      · subst hx
        rw [noteFor, if_pos rfl, note, if_pos (hiff.mp hbv)]
      · rw [noteFor, if_neg hx]
    rw [hsame]
    exact ⟨s, rfl, h, Frame.refl s⟩
  | false =>
    have hnote : ∀ x, noteFor s c d g key x =
        if x = c then g x ++ [⟨d, key, logical s d key, false⟩] else g x := fun x => by
      by_cases hx : x = c
      · subst hx
        have hn : ¬ ((g x).any fun w => w.db = d ∧ w.key = key) = true := fun ht => by
          rw [hiff.mpr ht] at hbv
          cases hbv
        rw [noteFor, if_pos rfl, if_pos rfl, note, if_neg hn]
      · rw [noteFor, if_neg hx, if_neg hx]
    obtain ⟨wk, hwk⟩ : ∃ wk, wk = (⟨key, d, c, keyIsExpired s d key⟩ : WatchedKey K) := ⟨_, rfl⟩
    have hnew : ∀ id wk', s.watched id = some wk' → ¬ About wk' wk.client wk.db wk.key := by
      intro id wk' hw ha
      rw [hwk] at ha
      rw [hb.mpr ⟨id, (h.linked.client c id).mpr ⟨wk', hw, ha.client⟩, wk', hw, ha.db, ha.key⟩] at hbv
      cases hbv
    have hsome := watched_addWatched h.linked wk
    have hframe : Frame s (addWatched s wk) := by
      refine ⟨fun d' => ?_, rfl, rfl, fun c' => ?_⟩
      · by_cases hd' : d' = wk.db <;>
          simp [addWatched, Server.setWatched, Server.setDb, Server.setClient, hd']
      by_cases hc' : c' = wk.client <;>
        simp [addWatched, Server.setWatched, Server.setDb, Server.setClient, hc', bare]
    have hexp : ∀ d' key', keyIsExpired (addWatched s wk) d' key' = keyIsExpired s d' key' :=
      fun d' key' => expired_congr (by rw [hframe.dict]) hframe.now
    refine ⟨addWatched s wk, by rw [hwk]; rfl, ⟨linked_addWatched h.linked wk hnew, ?_, ?_, ?_⟩, hframe⟩
    · intro id wk' hw he
      rw [hexp]
      rcases (hsome id wk').mp hw with ⟨_, rfl⟩ | hw
      · rw [hwk] at he ⊢
        exact he
      · exact h.flagged id wk' hw he
    · intro id wk' hw
      rw [hnote]
      rcases (hsome id wk').mp hw with ⟨_, rfl⟩ | hw
      · rw [hwk, if_pos rfl]
        exact ⟨_, mem_append_right _ (mem_singleton.mpr rfl), rfl, rfl⟩
      obtain ⟨w, hmem, hrest⟩ := h.noted id wk' hw
      refine ⟨w, ?_, hrest⟩
      split
      · exact mem_append_left _ hmem
      · exact hmem
    intro x hx w hw
    have hx' : (s.clients x).dirtyCas = false := by
      have := congrArg Client.dirtyCas (hframe.clients x)
      exact this.symm.trans hx
    rw [hnote] at hw
    have hold : w ∈ g x → ∃ id wk', (addWatched s wk).watched id = some wk' ∧ About wk' x w.db w.key ∧
        Tracks (addWatched s wk) wk' w := fun hmem => by
      obtain ⟨id, wk', hw', habout, htr⟩ := h.track x hx' w hmem
      exact ⟨id, wk', (hsome id wk').mpr (.inr hw'), habout, htr.congr (by rw [hframe.dict]) hframe.now⟩
    by_cases hxc : x = c
    · rw [if_pos hxc] at hw
      rcases mem_append.mp hw with hmem | hmem
      · exact hold hmem
      obtain rfl := mem_singleton.mp hmem
      refine ⟨s.fresh, wk, (hsome _ _).mpr (.inl ⟨rfl, rfl⟩), by rw [hwk, hxc]; exact ⟨rfl, rfl, rfl⟩, ?_⟩
      cases he : keyIsExpired s d key with
      | true =>
        refine tracks_flag ⟨?_, rfl⟩ (by rw [hwk]; exact he)
        rw [logical, he]
        rfl
      | false =>
        refine ⟨fun ht => ?_, fun _ => ?_, fun _ hc => ?_⟩
        · rw [hwk, he] at ht
          cases ht
        · rw [hframe.dict, hwk]
          exact (logical_eq he).symm
        · cases hc
    · rw [if_neg hxc] at hw
      exact hold hw

lemma Inv.watchKeys : ∀ (keys : List K) (s : Server K V) (g : History K V), Inv s g →
    (s.clients c).dirtyCas = false →
    ∃ s', keys.foldlM (Model.watchForKey c) s = .ok s' ∧
      Inv s' fun x => if x = c then keys.foldl (note s (s.clients c).db) (g x) else g x := by
  intro keys
  induction keys with
  | nil => exact fun s g h _ => ⟨s, rfl, by simpa using h⟩
  | cons key keys ih =>
    intro s g h hclean
    obtain ⟨s1, hrun, h1, hframe⟩ := h.watchForKey hclean key
    have hbare := hframe.clients c
    have hclean1 : (s1.clients c).dirtyCas = false :=
      (show _ = (bare (s.clients c)).dirtyCas from congrArg Client.dirtyCas hbare).trans hclean
    have hdb : (s1.clients c).db = (s.clients c).db := by
      show (bare (s1.clients c)).db = (bare (s.clients c)).db
      rw [hbare]
    have hnote : ∀ d, note s1 d = note s d := fun d => by
      funext ws k
      rw [note, note, logical, logical, expired_congr (by rw [hframe.dict]) hframe.now, hframe.dict]
    obtain ⟨s', hrun', h'⟩ := ih s1 _ h1 hclean1
    refine ⟨s', ?_, ?_⟩
    · rw [foldlM_cons, hrun]
      exact hrun'
    rw [hdb, hnote] at h'
    have hg : (fun x => if x = c then (key :: keys).foldl (note s (s.clients c).db) (g x) else g x) =
        fun x => if x = c then keys.foldl (note s (s.clients c).db) (noteFor s c (s.clients c).db g key x)
          else noteFor s c (s.clients c).db g key x := by
      funext x
      by_cases hx : x = c <;> simp [noteFor, hx]
    rw [hg]
    exact h'

omit [DecidableEq K] in
/-- Keys noted for a dirty client do not matter. -/
lemma Inv.noteDirty {g'} (h : Inv s g)
    (hdirty : (s.clients c).dirtyCas = true) (hmono : ∀ w ∈ g c, w ∈ g' c) (hg : ∀ x, x ≠ c → g' x = g x) :
    Inv s g' := by
  refine ⟨h.linked, h.flagged, fun id wk hw => ?_, fun x hx w hw => ?_⟩
  · obtain ⟨w, hmem, hrest⟩ := h.noted id wk hw
    by_cases hc : wk.client = c
    · exact ⟨w, hc ▸ hmono w (hc ▸ hmem), hrest⟩
    · exact ⟨w, (hg _ hc).symm ▸ hmem, hrest⟩
  have hxc : x ≠ c := fun he => by
    rw [he, hdirty] at hx
    cases hx
  rw [hg x hxc] at hw
  exact h.track x hx w hw

lemma mem_foldl_note (s : Server K V) (d : Nat) (keys : List K) : ∀ (ws : List (Watch K V)), ∀ w ∈ ws,
    w ∈ keys.foldl (note s d) ws := by
  induction keys with
  | nil => exact fun ws w hw => hw
  | cons key keys ih =>
    intro ws w hw
    refine ih _ w ?_
    unfold note
    split
    · exact hw
    · exact mem_append_left _ hw

lemma Inv.watchCommand (h : Inv s g) (c : Nat) (keys : List K) :
    ∃ s', Model.watchCommand s c keys = .ok s' ∧ Inv s' (observe (.watch c keys) s g) := by
  rw [Model.watchCommand, observe]
  by_cases hm : (s.clients c).multi = true
  · rw [if_pos hm, if_pos hm]
    exact ⟨s, rfl, h⟩
  rw [if_neg hm, if_neg hm]
  cases hd : (s.clients c).dirtyCas with
  | true =>
    refine ⟨s, rfl, h.noteDirty hd (fun w hw => ?_) fun x hx => if_neg hx⟩
    rw [if_pos rfl]
    exact mem_foldl_note s _ keys _ w hw
  | false => exact h.watchKeys keys s g hd

/-! ## Every operation -/

omit [DecidableEq K] in
lemma Inv.tick (h : Inv s g) (n : Nat) : Inv { s with now := s.now + n } g := by
  have hexp : ∀ d key, keyIsExpired s d key = true → keyIsExpired { s with now := s.now + n } d key = true := by
    intro d key he
    rcases hdict : (s.db d).dict key with _ | ⟨v, _ | t⟩
    · simp [keyIsExpired, hdict] at he
    · simp [keyIsExpired, hdict] at he
    simp only [keyIsExpired, hdict, decide_eq_true_iff] at he ⊢
    omega
  refine ⟨h.linked.same rfl (fun _ => rfl) (fun _ => rfl) rfl, fun id wk hw he => ?_, h.noted, fun c hc w hw => ?_⟩
  · exact hexp _ _ (h.flagged id wk hw he)
  obtain ⟨id, wk, hwk, habout, htr⟩ := h.track c hc w hw
  exact ⟨id, wk, hwk, habout, htr.flag, htr.value, fun he hch => hexp _ _ (htr.change he hch)⟩

omit [DecidableEq K] in
lemma Inv.setClient (h : Inv s g) (c : Nat) {f : Client → Client}
    (hf : ∀ client, (f client).watchedKeys = client.watchedKeys)
    (hd : ∀ client, (f client).dirtyCas = client.dirtyCas) : Inv (s.setClient c f) g := by
  have hflags := flags_setClient s c hf
  have hdirty : ∀ x, ((s.setClient c f).clients x).dirtyCas = (s.clients x).dirtyCas := fun x => by
    by_cases hxc : x = c
    · simp [Server.setClient, hxc, hd]
    · exact hflags.dirty x hxc
  refine ⟨hflags.linked h.linked, h.flagged, h.noted, fun x hx w hw => ?_⟩
  obtain ⟨id, wk, hwk, habout, htr⟩ := h.track x ((hdirty x).symm.trans hx) w hw
  exact ⟨id, wk, hwk, habout, htr.congr rfl rfl⟩

lemma step_spec (op : Op K V) (h : Inv s g) (hclear : Clear op s) :
    ∃ s' ran, step op s = .ok (s', ran) ∧ Inv s' (observe op s g) ∧
      (∀ c, op = .exec c → ran = true → ∀ w ∈ g c, w.changed = false) := by
  -- all but `exec` come without a reply
  have hquiet : ∀ {op : Op K V} {o : Outcome (Server K V)}, (∀ c, op ≠ .exec c) →
      step op s = o.map (fun s => (s, false)) → (∃ s', o = .ok s' ∧ Inv s' (observe op s g)) →
      ∃ s' ran, step op s = .ok (s', ran) ∧ Inv s' (observe op s g) ∧
        (∀ c, op = .exec c → ran = true → ∀ w ∈ g c, w.changed = false) := by
    rintro op o hne hstep ⟨s', rfl, h'⟩
    exact ⟨s', false, hstep, h', fun c he => absurd he (hne c)⟩
  cases op with
  | exec c =>
    obtain ⟨s', ran, hrun, h', hlock⟩ := h.execCommand c
    refine ⟨s', ran, hrun, h', fun c' he => ?_⟩
    cases he
    exact hlock
  | select c d =>
    refine hquiet nofun rfl ⟨_, rfl, ?_⟩
    split
    · exact h.setClient c (fun _ => rfl) fun _ => rfl
    · exact h
  | watch c keys => exact hquiet nofun rfl (h.watchCommand c keys)
  | unwatch c =>
    obtain ⟨s1, hrun, hd⟩ := unwatchAllKeys_dropped h.linked c
    refine hquiet nofun rfl ⟨_, by rw [unwatchCommand, hrun]; rfl, h.dropped (hd.flags ?_)⟩
    exact flags_setClient s1 c fun _ => rfl
  | multi c =>
    refine hquiet nofun rfl ⟨multiCommand s c, rfl, ?_⟩
    exact h.setClient c (fun _ => rfl) fun _ => rfl
  | queueError c =>
    refine hquiet nofun rfl ⟨flagTransaction s c, rfl, ?_⟩
    exact h.setClient c (fun _ => rfl) fun _ => rfl
  | discard c =>
    refine hquiet nofun rfl ?_
    rw [discardCommand, observe]
    by_cases hm : (s.clients c).multi = true
    · obtain ⟨s', hrun, hd⟩ := discardTransaction_dropped h.linked c
      rw [if_pos hm, if_pos hm]
      exact ⟨s', hrun, h.dropped hd⟩
    rw [if_neg hm, if_neg hm]
    exact ⟨s, rfl, h⟩
  | free c =>
    obtain ⟨s1, hrun, hd⟩ := unwatchAllKeys_dropped h.linked c
    refine hquiet nofun rfl ⟨_, by rw [freeClient, hrun]; rfl, h.dropped (hd.flags ?_)⟩
    exact flags_setClient s1 c fun _ => rfl
  | write c key new => exact hquiet nofun rfl (h.writeKey (s.clients c).db key new)
  | del c key => exact hquiet nofun rfl (h.delKey (s.clients c).db key)
  | restoreReplace c key value ttl =>
    exact hquiet nofun rfl (h.restoreReplace (s.clients c).db key value ttl hclear)
  | changeStream c key f => exact hquiet nofun rfl (h.changeStream hclear f)
  | delKeysInSlot key => exact hquiet nofun rfl ⟨_, rfl, h.setDict hclear none⟩
  | flushdb c => exact hquiet nofun rfl (h.emptyData (nodup_singleton (s.clients c).db))
  | flushall => exact hquiet nofun rfl (h.emptyData nodup_range)
  | swapdb a b => exact hquiet nofun rfl (h.dbSwapDatabases a b hclear)
  | expire d key =>
    obtain ⟨s', hrun, h', _⟩ := h.expireIfNeeded d key
    exact hquiet nofun rfl ⟨s', hrun, h'⟩
  | tick n => exact hquiet nofun rfl ⟨_, rfl, h.tick n⟩

lemma locks_of_inv [DecidableEq V] (ops : List (Op K V)) : ∀ {s : Server K V} {g : History K V}, Inv s g →
    Locks ops s g := by
  induction ops with
  | nil => exact fun _ => trivial
  | cons op ops ih =>
    intro s g h hclear
    obtain ⟨s', ran, hrun, h', hlock⟩ := step_spec op h hclear
    exact ⟨s', ran, hrun, hlock, ih h'.refresh⟩

/-- From any data, under the condition. -/
theorem transactions_see_no_change [DecidableEq V] (dbnum : Nat) (data : Nat → K → Option (Stored V)) (now : Nat)
    (ops : List (Op K V)) : Locks ops (start dbnum data now) fun _ => [] :=
  locks_of_inv ops (inv_start dbnum data now)

end

/-- Key 7 of database 0 expired at 5, and key 7 of database 1 lives. -/
def sampleData : Nat → Nat → Option (Stored Nat)
  | 0, 7 => some ⟨1, some 5⟩
  | 1, 7 => some ⟨2, none⟩
  | _, _ => none

/-- A client watches the expired key and another one restores it. -/
def restoreScript : List (Op Nat Nat) := [.watch 0 [7], .multi 0, .restoreReplace 1 7 3 none]

/-- Client 0 watches the expired key, which a swap brings to life; client 1
watches it then, and client 2 writes it. -/
def swapScript : List (Op Nat Nat) :=
  [.watch 0 [7], .swapdb 0 1, .watch 1 [7], .multi 1, .write 2 7 (some ⟨4, none⟩)]

/-- Client 0 watches a key that `op` then changes without a signal. -/
def silentScript (op : Op Nat Nat) : List (Op Nat Nat) :=
  [.write 1 7 (some ⟨1, none⟩), .watch 0 [7], .multi 0, op]

/-- The value of key 7 in database 0 after these operations. -/
def valueAfter (ops : List (Op Nat Nat)) : Outcome (Option Nat) :=
  (Simulation.run step ops (start 2 sampleData 10)).map fun r => logical r.1 0 7

/-- The reply to `exec` after these operations. -/
def ranAfter (ops : List (Op Nat Nat)) (c : Nat) : Outcome (Option Bool) :=
  (Simulation.run step (ops ++ [.exec c]) (start 2 sampleData 10)).map fun r => r.2.getLast?

/-- The transaction of the client runs although the key it watches has changed. -/
theorem exec_misses_changes : (valueAfter [] = .ok none ∧ valueAfter restoreScript = .ok (some 3) ∧
      ranAfter restoreScript 0 = .ok (some true)) ∧
    (valueAfter (swapScript.take 2) = .ok (some 2) ∧ valueAfter swapScript = .ok (some 4) ∧
      ranAfter swapScript 1 = .ok (some true)) ∧
    (valueAfter (silentScript (.changeStream 1 7 (· + 8))) = .ok (some 9) ∧
      ranAfter (silentScript (.changeStream 1 7 (· + 8))) 0 = .ok (some true)) ∧
    (valueAfter (silentScript (.delKeysInSlot 7)) = .ok none ∧
      ranAfter (silentScript (.delKeysInSlot 7)) 0 = .ok (some true)) := by
  decide

end Redis.Multi.Locking
