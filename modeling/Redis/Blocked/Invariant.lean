import Redis.Blocked.Model
import Mathlib.Data.Finset.Card

/-! # What holds of the blocked clients

The queue of a key and the keys of a client describe the same relation, a signalled key is
in the table of its database as long as it waits for its round, and a key that holds a list
while clients wait for it is signalled. Each primitive of the keyspace keeps this. -/
namespace Redis.Blocked.Invariant
open List Lib Model

variable {δ κ ε γ : Type} {db : δ} {k : κ} {s : Server δ κ ε γ} {pending : List (δ × κ)}
  {exempt : δ → κ → Prop}

/-- The queues and the clients agree. -/
structure Queues (s : Server δ κ ε γ) : Prop where
  linked : ∀ db k c, c ∈ s.blockingKeys db k ↔ ∃ b, s.bpop c = some b ∧ b.db = db ∧ k ∈ b.keys
  nodup : ∀ db k, (s.blockingKeys db k).Nodup
  entries : ∀ db k, k ∈ s.blockingEntries db ↔ s.blockingKeys db k ≠ []
  keys : ∀ c b, s.bpop c = some b → b.keys ≠ [] ∧ b.keys.Nodup
  positive : ∀ c b side n, s.bpop c = some b → b.wait = .mpop side n → 0 < n
  counted : ∃ clients : Finset γ, (∀ c, c ∈ clients ↔ (s.bpop c).isSome = true) ∧
    clients.card = s.blockedLists

/-- The keys that wait to be served, `pending` in this round and the others in the next. -/
structure Ready (pending : List (δ × κ)) (s : Server δ κ ε γ) : Prop where
  table : ∀ db k, s.dbReadyKeys db k = true ↔ (db, k) ∈ pending ++ s.readyKeys
  nodup : (pending ++ s.readyKeys).Nodup

def NoEmptyList (s : Server δ κ ε γ) : Prop := ∀ db k xs, s.dict db k = some (.list xs) → xs ≠ []

/-- A key that holds a list while clients wait for it is signalled, unless it is one of the
keys `exempt`. -/
def Covered (pending : List (δ × κ)) (exempt : δ → κ → Prop) (s : Server δ κ ε γ) : Prop :=
  ∀ db k xs, s.dict db k = some (.list xs) → s.blockingKeys db k ≠ [] →
    (db, k) ∈ pending ++ s.readyKeys ∨ exempt db k

structure Inv (pending : List (δ × κ)) (exempt : δ → κ → Prop) (s : Server δ κ ε γ) : Prop where
  queues : Queues s
  ready : Ready pending s
  lists : NoEmptyList s
  covered : Covered pending exempt s

lemma Inv.exempt_mono {exempt exempt' : δ → κ → Prop} (h : Inv pending exempt s)
    (hsub : ∀ db k, exempt db k → exempt' db k) : Inv pending exempt' s :=
  { h with covered := fun db k xs hxs hwait =>
      (h.covered db k xs hxs hwait).imp_right (hsub db k) }

lemma Inv.log (h : Inv pending exempt s) (log : List (Served δ κ ε γ)) :
    Inv pending exempt { s with served := log } :=
  { h with queues := { h.queues with }, ready := { h.ready with } }

lemma Inv.settled {key : κ}
    (h : Inv pending (fun db' k' => exempt db' k' ∨ (db' = db ∧ k' = key)) s)
    (hdone : (∀ xs, s.dict db key ≠ some (.list xs)) ∨ s.blockingKeys db key = []) :
    Inv pending exempt s := by
  refine ⟨h.queues, h.ready, h.lists, ?_⟩
  intro db' k' xs hxs hwait
  rcases h.covered db' k' xs hxs hwait with hmem | hex | ⟨rfl, rfl⟩
  · exact .inl hmem
  · exact .inr hex
  rcases hdone with hnot | hnil
  · exact absurd hxs (hnot xs)
  · exact absurd hnil hwait

/-- A database that nobody waits for. -/
def start (dict : δ → κ → Option (Value ε)) : Server δ κ ε γ :=
  { dict, blockingKeys := fun _ _ => [], blockingEntries := fun _ => []
    dbReadyKeys := fun _ _ => false, readyKeys := [], bpop := fun _ => none
    blockedLists := 0, served := [] }

lemma start_inv {dict : δ → κ → Option (Value ε)} (hlists : ∀ db k, dict db k ≠ some (.list [])) :
    Inv [] exempt (start dict : Server δ κ ε γ) := by
  refine ⟨⟨?_, ?_, ?_, ?_, ?_, ?_⟩, ⟨?_, nodup_nil⟩, ?_, ?_⟩
  · simp [start]
  · simp [start]
  · simp [start]
  · simp [start]
  · simp [start]
  · exact ⟨∅, by simp [start], rfl⟩
  · simp [start]
  · rintro db k xs hxs rfl
    exact hlists db k hxs
  · exact fun db k xs _ hwait => absurd rfl hwait

structure SameClients (s s' : Server δ κ ε γ) : Prop where
  blockingKeys : s'.blockingKeys = s.blockingKeys
  blockingEntries : s'.blockingEntries = s.blockingEntries
  bpop : s'.bpop = s.bpop
  blockedLists : s'.blockedLists = s.blockedLists
  served : s'.served = s.served

lemma SameClients.refl (s : Server δ κ ε γ) : SameClients s s := ⟨rfl, rfl, rfl, rfl, rfl⟩

lemma SameClients.trans {s s' s'' : Server δ κ ε γ} (h : SameClients s s')
    (h' : SameClients s' s'') : SameClients s s'' :=
  ⟨h'.blockingKeys.trans h.blockingKeys, h'.blockingEntries.trans h.blockingEntries,
    h'.bpop.trans h.bpop, h'.blockedLists.trans h.blockedLists, h'.served.trans h.served⟩

lemma Queues.same {s s' : Server δ κ ε γ} (h : Queues s) (hs : SameClients s s') : Queues s' := by
  refine ⟨?_, ?_, ?_, ?_, ?_, ?_⟩
  · rw [hs.blockingKeys, hs.bpop]
    exact h.linked
  · rw [hs.blockingKeys]
    exact h.nodup
  · rw [hs.blockingKeys, hs.blockingEntries]
    exact h.entries
  · rw [hs.bpop]
    exact h.keys
  · rw [hs.bpop]
    exact h.positive
  · rw [hs.bpop, hs.blockedLists]
    exact h.counted

lemma Queues.waits (h : Queues s) {c : γ} {b : Bpop δ κ} (hb : s.bpop c = some b) :
    c ∈ s.blockingKeys db k ↔ b.db = db ∧ k ∈ b.keys := by
  rw [h.linked, hb]
  simp

lemma Queues.blockedLists_ne_zero (h : Queues s)
    (hwait : s.blockingKeys db k ≠ []) : s.blockedLists ≠ 0 := by
  obtain ⟨c, hc⟩ := exists_mem_of_ne_nil _ hwait
  obtain ⟨b, hb, _⟩ := (h.linked db k c).mp hc
  obtain ⟨clients, hmem, hcard⟩ := h.counted
  rw [← hcard]
  exact Finset.card_ne_zero_of_mem ((hmem c).mpr (by rw [hb]; rfl))

variable [DecidableEq δ] [DecidableEq κ] {v : Value ε}

lemma set₂_apply {α : Type} (f : δ → κ → α) (db db' : δ) (k k' : κ) (a : α) :
    set₂ f db k a db' k' = if db' = db ∧ k' = k then a else f db' k' := by
  unfold set₂
  by_cases hdb : db' = db
  · subst hdb
    by_cases hk : k' = k
    · subst hk
      simp
    · simp [hk]
  · simp [hdb]

@[simp] lemma set₂_self {α : Type} (f : δ → κ → α) (db : δ) (k : κ) (a : α) :
    set₂ f db k a db k = a := by
  simp [set₂_apply]

@[simp] lemma set₂_set₂ {α : Type} (f : δ → κ → α) (db : δ) (k : κ) (a b : α) :
    set₂ (set₂ f db k a) db k b = set₂ f db k b := by
  funext db' k'
  simp only [set₂_apply]
  split <;> rfl

/-! ## Primitives -/

lemma setVal_same (s : Server δ κ ε γ) (db : δ) (k : κ) (v : Option (Value ε)) :
    SameClients s (setVal s db k v) := ⟨rfl, rfl, rfl, rfl, rfl⟩

lemma signal_same (s : Server δ κ ε γ) (db : δ) (k : κ) (v : Value ε) :
    SameClients s (signalKeyAsReady s db k v) := by
  unfold signalKeyAsReady
  repeat' split
  all_goals exact ⟨rfl, rfl, rfl, rfl, rfl⟩

@[simp] lemma signal_dict (s : Server δ κ ε γ) (db : δ) (k : κ) (v : Value ε) :
    (signalKeyAsReady s db k v).dict = s.dict := by
  unfold signalKeyAsReady
  repeat' split
  all_goals rfl

lemma signal_readyKeys (s : Server δ κ ε γ) (db : δ) (k : κ) (v : Value ε) :
    (signalKeyAsReady s db k v = s) ∨ (s.dbReadyKeys db k = false ∧ signalKeyAsReady s db k v =
        { s with readyKeys := s.readyKeys ++ [(db, k)]
                 dbReadyKeys := set₂ s.dbReadyKeys db k true }) := by
  unfold signalKeyAsReady
  split
  · exact .inl rfl
  split
  · exact .inl rfl
  split
  · exact .inl rfl
  split
  · exact .inl rfl
  rename_i hready
  exact .inr ⟨by simpa using hready, rfl⟩

lemma Ready.signal (h : Ready pending s)
    (db : δ) (k : κ) (v : Value ε) : Ready pending (signalKeyAsReady s db k v) := by
  rcases signal_readyKeys s db k v with heq | ⟨hfresh, heq⟩
  · rw [heq]
    exact h
  rw [heq]
  have hnot : (db, k) ∉ pending ++ s.readyKeys := by
    rw [← h.table, hfresh]
    simp
  refine ⟨?_, ?_⟩
  · intro db' k'
    have hold := h.table db' k'
    dsimp only
    rw [set₂_apply]
    split
    · rename_i heq
      simp [heq.1, heq.2]
    rename_i hne
    rw [hold]
    simp only [mem_append, mem_singleton, Prod.mk.injEq]
    exact ⟨fun hm => hm.imp_right .inl, fun hm => hm.imp_right (·.resolve_right hne)⟩
  · rw [← append_assoc]
    exact nodup_append.mpr ⟨h.nodup, nodup_singleton _, fun a ha b hb heq =>
      hnot (by rwa [← mem_singleton.mp hb, ← heq])⟩

lemma readyKeys_subset_signal
    {p : δ × κ} (hp : p ∈ s.readyKeys) : p ∈ (signalKeyAsReady s db k v).readyKeys := by
  rcases signal_readyKeys s db k v with heq | ⟨_, heq⟩
  · rwa [heq]
  rw [heq]
  exact mem_append_left _ hp

lemma mem_ready_of_signal (hq : Queues s)
    (hr : Ready pending s) (hv : v.isList = true) (hwait : s.blockingKeys db k ≠ []) :
    (db, k) ∈ pending ++ (signalKeyAsReady s db k v).readyKeys := by
  unfold signalKeyAsReady
  rw [if_neg (by simp [hv]), if_neg (hq.blockedLists_ne_zero hwait), if_neg hwait]
  split
  · rename_i hready
    exact (hr.table db k).mp hready
  · simp

section Keeping
variable {pending : List (δ × κ)} {exempt : δ → κ → Prop} {s : Server δ κ ε γ}

section
variable (h : Inv pending exempt s)
include h

/-- Setting a value keeps the invariant if a list that is put there is not empty and is
signalled or exempt. -/
lemma Inv.set (db : δ) (k : κ) (v : Option (Value ε))
    (hne : ∀ xs, v = some (.list xs) → xs ≠ [])
    (hcov : ∀ xs, v = some (.list xs) → s.blockingKeys db k ≠ [] →
      (db, k) ∈ pending ++ s.readyKeys ∨ exempt db k) : Inv pending exempt (setVal s db k v) := by
  refine ⟨h.queues.same (setVal_same s db k v), ⟨h.ready.table, h.ready.nodup⟩, ?_, ?_⟩
  · intro db' k' xs hxs
    simp only [setVal, set₂_apply] at hxs
    split at hxs
    · exact hne xs hxs
    · exact h.lists db' k' xs hxs
  intro db' k' xs hxs hwait
  simp only [setVal, set₂_apply] at hxs
  split at hxs
  · rename_i heq
    rw [heq.1, heq.2] at hwait ⊢
    exact hcov xs hxs hwait
  · exact h.covered db' k' xs hxs hwait

lemma Inv.delete (db : δ) (k : κ) :
    Inv pending exempt (dbDelete s db k) :=
  h.set db k none (by simp) (by simp)

lemma Inv.setOther (db : δ) (k : κ)
    (hv : v.isList = false) : Inv pending exempt (setVal s db k (some v)) := by
  refine h.set db k (some v) ?_ ?_
  all_goals
    rintro xs ⟨⟩
    cases hv

lemma Inv.replaceList {xs ys : List ε}
    (hxs : s.dict db k = some (.list xs)) (hys : ys ≠ []) :
    Inv pending exempt (setVal s db k (some (.list ys))) := by
  refine h.set db k _ ?_ ?_
  · rintro zs ⟨⟩
    exact hys
  rintro zs ⟨⟩ hwait
  exact h.covered db k xs hxs hwait

end

lemma Inv.signal (h : Inv pending (fun db' k' => exempt db' k' ∨ (db' = db ∧ k' = k)) s)
    (hv : v.isList = true) : Inv pending exempt (signalKeyAsReady s db k v) := by
  have hsame := signal_same s db k v
  refine ⟨h.queues.same hsame, h.ready.signal db k v, ?_, ?_⟩
  · intro db' k' xs hxs
    rw [signal_dict] at hxs
    exact h.lists db' k' xs hxs
  intro db' k' xs hxs hwait
  rw [signal_dict] at hxs
  rw [hsame.blockingKeys] at hwait
  rcases h.covered db' k' xs hxs hwait with hmem | hex | ⟨rfl, rfl⟩
  · left
    rcases mem_append.mp hmem with hmem | hmem
    · exact mem_append_left _ hmem
    · exact mem_append_right _ (readyKeys_subset_signal hmem)
  · exact .inr hex
  · exact .inl (mem_ready_of_signal h.queues h.ready hv hwait)

lemma Inv.create (h : Inv pending exempt s) (db : δ) (k : κ) {xs : List ε} (hxs : xs ≠ [])
    (hv : v.isList = true) :
    Inv pending exempt (signalKeyAsReady (setVal s db k (some (.list xs))) db k v) := by
  have hexempt : Inv pending (fun db' k' => exempt db' k' ∨ (db' = db ∧ k' = k)) s :=
    h.exempt_mono fun _ _ => .inl
  refine Inv.signal (hexempt.set db k _ ?_ ?_) hv
  · rintro ys ⟨⟩
    exact hxs
  · exact fun _ _ _ => .inr (.inr ⟨rfl, rfl⟩)

end Keeping

/-! ## Blocking and unblocking -/

section Clients
variable [DecidableEq γ] {b : Bpop δ κ} {c : γ}

lemma unlinkKeys_spec (c : γ) (db : δ) :
    ∀ (ks : List κ) (queues : δ → κ → List γ), ks.Nodup → (∀ k ∈ ks, c ∈ queues db k) →
      ∃ queues', unlinkKeys c db ks queues = .ok queues' ∧ ∀ db' k', queues' db' k' =
          if db' = db ∧ k' ∈ ks then (queues db' k').erase c else queues db' k'
  | [], queues, _, _ => ⟨queues, rfl, by simp⟩
  | k :: ks, queues, hnodup, hlinked => by
    obtain ⟨hk, hnodup⟩ := nodup_cons.mp hnodup
    have hrest : ∀ k' ∈ ks, c ∈ set₂ queues db k ((queues db k).erase c) db k' := by
      intro k' hk'
      rw [set₂_apply, if_neg]
      · exact hlinked k' (mem_cons_of_mem k hk')
      rintro ⟨_, rfl⟩
      exact hk hk'
    obtain ⟨queues', hok, hqueues⟩ := unlinkKeys_spec c db ks _ hnodup hrest
    refine ⟨queues', ?_, ?_⟩
    · rw [unlinkKeys, check_pos (ne_nil_of_mem (hlinked k mem_cons_self))]
      exact hok
    intro db' k'
    rw [hqueues db' k', set₂_apply]
    by_cases hdb : db' = db
    · subst hdb
      by_cases hkk : k' = k
      · subst hkk
        simp [hk]
      · simp [hkk]
    · simp [hdb]

lemma unblockClient_spec (h : Queues s) (hb : s.bpop c = some b) :
    ∃ queues, unblockClient s c b = .ok (unlinked s c b queues) ∧
      ∀ db k, queues db k = (s.blockingKeys db k).erase c := by
  obtain ⟨hne, hnodup⟩ := h.keys c b hb
  obtain ⟨queues, hok, hqueues⟩ := unlinkKeys_spec c b.db b.keys s.blockingKeys hnodup
    fun k hk => (h.waits hb).mpr ⟨rfl, hk⟩
  refine ⟨queues, ?_, ?_⟩
  · unfold unblockClient
    rw [check_pos hne, hok]
    rfl
  intro db k
  rw [hqueues db k]
  split
  · rfl
  rename_i hnot
  refine (erase_of_not_mem fun hmem => ?_).symm
  obtain ⟨hdb, hk⟩ := (h.waits hb).mp hmem
  exact hnot ⟨hdb.symm, hk⟩

omit [DecidableEq κ] in
lemma Queues.unblock (h : Queues s) (hb : s.bpop c = some b) {queues : δ → κ → List γ}
    (hqueues : ∀ db k, queues db k = (s.blockingKeys db k).erase c) :
    Queues (unlinked s c b queues) := by
  have hother : ∀ {c' : γ} {b' : Bpop δ κ}, Function.update s.bpop c none c' = some b' →
      c' ≠ c ∧ s.bpop c' = some b' := by
    intro c' b' h'
    by_cases heq : c' = c
    · subst heq
      simp at h'
    rw [Function.update_of_ne heq] at h'
    exact ⟨heq, h'⟩
  refine ⟨?_, ?_, ?_, ?_, ?_, ?_⟩
  · intro db k c'
    dsimp only [unlinked]
    rw [hqueues, (h.nodup db k).mem_erase_iff, h.linked db k c']
    constructor
    · rintro ⟨hne, b', hb', hrest⟩
      exact ⟨b', by rwa [Function.update_of_ne hne], hrest⟩
    rintro ⟨b', hb', hrest⟩
    obtain ⟨hne, hb'⟩ := hother hb'
    exact ⟨hne, b', hb', hrest⟩
  · intro db k
    dsimp only [unlinked]
    rw [hqueues]
    exact (h.nodup db k).erase c
  · intro db k
    dsimp only [unlinked]
    have hstill : queues db k ≠ [] → s.blockingKeys db k ≠ [] := by
      intro hwait hnil
      rw [hqueues, hnil] at hwait
      exact hwait rfl
    by_cases hdb : db = b.db
    · subst hdb
      rw [Function.update_self, mem_filter, h.entries]
      simpa using hstill
    rw [Function.update_of_ne hdb, h.entries, hqueues, erase_of_not_mem]
    exact fun hmem => hdb ((h.waits hb).mp hmem).1.symm
  · exact fun c' b' h' => h.keys c' b' (hother h').2
  · exact fun c' b' side n h' => h.positive c' b' side n (hother h').2
  · obtain ⟨clients, hmem, hcard⟩ := h.counted
    have hc : c ∈ clients := (hmem c).mpr (by rw [hb]; rfl)
    refine ⟨clients.erase c, ?_, ?_⟩
    · intro c'
      dsimp only [unlinked]
      rw [Finset.mem_erase, hmem c']
      by_cases heq : c' = c
      · subst heq
        simp
      · simp [heq]
    · rw [Finset.card_erase_of_mem hc, hcard]
      rfl

omit [DecidableEq κ] in
lemma Inv.unblock (h : Inv pending exempt s) (hb : s.bpop c = some b)
    {queues : δ → κ → List γ} (hqueues : ∀ db k, queues db k = (s.blockingKeys db k).erase c) :
    Inv pending exempt (unlinked s c b queues) := by
  refine ⟨h.queues.unblock hb hqueues, ⟨h.ready.table, h.ready.nodup⟩, h.lists, ?_⟩
  intro db k xs hxs hwait
  refine h.covered db k xs hxs ?_
  dsimp only [unlinked] at hwait
  rw [hqueues] at hwait
  rintro hnil
  rw [hnil] at hwait
  exact hwait rfl

omit [DecidableEq γ] in
lemma linkKeys_spec (c : γ) (db : δ) : ∀ (ks seen : List κ) (queues : δ → κ → List γ),
      (∀ k, k ∈ (linkKeys c db ks seen queues).1 ↔ k ∈ seen ∨ k ∈ ks) ∧
      (seen.Nodup → (linkKeys c db ks seen queues).1.Nodup) ∧
      ∀ db' k', (linkKeys c db ks seen queues).2 db' k' =
        if db' = db ∧ k' ∈ ks ∧ k' ∉ seen then queues db' k' ++ [c] else queues db' k'
  | [], seen, queues => by simp [linkKeys]
  | k :: ks, seen, queues => by
    rw [linkKeys]
    split
    · rename_i hseen
      obtain ⟨hmem, hnodup, hqueues⟩ := linkKeys_spec c db ks seen queues
      refine ⟨?_, hnodup, ?_⟩
      · intro k'
        rw [hmem k', mem_cons]
        constructor
        · exact fun h => h.imp_right .inr
        rintro (h | rfl | h)
        · exact .inl h
        · exact .inl hseen
        · exact .inr h
      intro db' k'
      rw [hqueues db' k']
      by_cases hk : k' = k
      · simp [hk, hseen]
      · simp [hk]
    rename_i hseen
    obtain ⟨hmem, hnodup, hqueues⟩ := linkKeys_spec c db ks (seen ++ [k])
      (set₂ queues db k (queues db k ++ [c]))
    refine ⟨?_, ?_, ?_⟩
    · intro k'
      rw [hmem k', mem_append, mem_singleton, mem_cons, or_assoc]
    · intro hs
      refine hnodup (nodup_append.mpr ⟨hs, nodup_singleton k, ?_⟩)
      rintro a ha b hb rfl
      exact hseen (mem_singleton.mp hb ▸ ha)
    intro db' k'
    rw [hqueues db' k', set₂_apply]
    by_cases hdb : db' = db
    · by_cases hk : k' = k
      · simp [hdb, hk, hseen]
      · simp [hk]
    · simp [hdb]

lemma blockForKeys_queue (s : Server δ κ ε γ) (c : γ) (db : δ) (keys : List κ) (wait : Wait κ)
    (db' : δ) (k : κ) :
    (blockForKeys s c db keys wait).blockingKeys db' k =
      if db' = db ∧ k ∈ keys then s.blockingKeys db' k ++ [c] else s.blockingKeys db' k := by
  have hqueues := (linkKeys_spec c db keys [] s.blockingKeys).2.2 db' k
  simpa [blockForKeys] using hqueues

lemma Inv.block (h : Inv pending exempt s) (hc : s.bpop c = none) (db : δ) {keys : List κ}
    (hne : keys ≠ []) (wait : Wait κ) (hpos : ∀ side n, wait = .mpop side n → 0 < n)
    (hkeys : ∀ k ∈ keys, ∀ xs, s.dict db k ≠ some (.list xs)) :
    Inv pending exempt (blockForKeys s c db keys wait) := by
  obtain ⟨hmem, hnodup, _⟩ := linkKeys_spec c db keys [] s.blockingKeys
  have hqueue := blockForKeys_queue s c db keys wait
  have hnew : ∀ db' k, c ∉ s.blockingKeys db' k := by
    intro db' k hin
    obtain ⟨b, hb, _⟩ := (h.queues.linked db' k c).mp hin
    rw [hc] at hb
    cases hb
  have hold : ∀ {c' b'}, (blockForKeys s c db keys wait).bpop c' = some b' →
      b' = ⟨db, (linkKeys c db keys [] s.blockingKeys).1, wait⟩ ∨ s.bpop c' = some b' := by
    intro c' b' hb'
    by_cases heq : c' = c
    · subst heq
      exact .inl (by simpa [blockForKeys] using hb'.symm)
    · exact .inr (by simpa [blockForKeys, heq] using hb')
  refine ⟨⟨?_, ?_, ?_, ?_, ?_, ?_⟩, ⟨h.ready.table, h.ready.nodup⟩, h.lists, ?_⟩
  · intro db' k c'
    rw [hqueue]
    by_cases heq : c' = c
    · subst heq
      simp only [blockForKeys, Function.update_self, Option.some.injEq, exists_eq_left']
      rw [hmem]
      split
      · rename_i hin
        simp [hin.1, hin.2]
      rename_i hout
      simp only [hnew, not_mem_nil, false_or, false_iff]
      exact fun hin => hout ⟨hin.1.symm, hin.2⟩
    simp only [blockForKeys, Function.update_of_ne heq]
    rw [← h.queues.linked db' k c']
    split
    · simp [heq]
    · rfl
  · intro db' k
    rw [hqueue]
    split
    · refine nodup_append.mpr ⟨h.queues.nodup db' k, nodup_singleton c, ?_⟩
      rintro a ha b hb rfl
      exact hnew db' k (mem_singleton.mp hb ▸ ha)
    · exact h.queues.nodup db' k
  · intro db' k
    rw [hqueue]
    simp only [blockForKeys]
    by_cases hdb : db' = db
    · subst hdb
      simp only [Function.update_self, mem_append, mem_filter, hmem,
        h.queues.entries]
      by_cases hk : k ∈ keys
      · by_cases hwait : s.blockingKeys db' k = [] <;> simp [hk, hwait]
      · simp [hk]
    · rw [Function.update_of_ne hdb, h.queues.entries]
      simp [hdb]
  · intro c' b hb
    rcases hold hb with rfl | hb
    · obtain ⟨k, hk⟩ := exists_mem_of_ne_nil keys hne
      exact ⟨ne_nil_of_mem ((hmem k).mpr (.inr hk)), hnodup nodup_nil⟩
    · exact h.queues.keys c' b hb
  · intro c' b side n hb hw
    rcases hold hb with rfl | hb
    · exact hpos side n hw
    · exact h.queues.positive c' b side n hb hw
  · obtain ⟨clients, hclients, hcard⟩ := h.queues.counted
    have hout : c ∉ clients := by
      rw [hclients, hc]
      simp
    refine ⟨insert c clients, ?_, ?_⟩
    · intro c'
      rw [Finset.mem_insert, hclients]
      by_cases heq : c' = c
      · simp [blockForKeys, heq]
      · simp [blockForKeys, heq]
    · rw [Finset.card_insert_of_notMem hout, hcard]
      rfl
  · intro db' k xs hxs hwait
    rw [hqueue] at hwait
    split at hwait
    · rename_i hin
      obtain ⟨rfl, hk⟩ := hin
      exact absurd hxs (hkeys k hk xs)
    · exact h.covered db' k xs hxs hwait

end Clients

end Redis.Blocked.Invariant
