import Redis.Dictionary.SafeIterator

/-! # What the user of a safe iterator does to the walk

With the migration paused, every operation leaves the entries in their buckets: it pushes or
unlinks the entry of one key, or adds the empty buckets of a second table. -/
namespace Redis.Dictionary.SafeIterator
open List Lib Outcome Lib.ChainWalk
open Model Invariant Operations

variable {K V : Type} {d d' : Dict K V} {P : K → Prop} {ty : DictType K}

/-! ## With the migration paused -/

/-- No entry moves, and only entries of keys with `P` come or go. -/
structure Steady (P : K → Prop) (d d' : Dict K V) : Prop where
  change : Change P (chainKeys d) (chainKeys d')
  size0 : dicthtSize d.ht0.sizeExp ≠ 0 → d'.ht0.sizeExp = d.ht0.sizeExp

lemma Steady.refl (P : K → Prop) (d : Dict K V) : Steady P d d := ⟨.refl _, fun _ => rfl⟩

lemma Steady.trans {d''} (h : Steady P d d') (h' : Steady P d' d'') : Steady P d d'' where
  change := h.change.trans h'.change
  size0 hne := by
    have heq := h.size0 hne
    rw [h'.size0 (by rwa [heq]), heq]

lemma Steady.base (h : Steady P d d')
    (hne : dicthtSize d.ht0.sizeExp ≠ 0) (t : Bool) : base d' t = base d t := by
  unfold SafeIterator.base
  rw [h.size0 hne]

lemma chainKeys_setBucket (d : Dict K V) (t : Bool) {T bs i b} (hbs : (d.ht t).table = some bs) (hi : i < bs.length)
    (hT : T.table = some (bs.set i b)) :
    chainKeys (d.setHt t T) = (chainKeys d).set
      ((if t then (d.ht0.table.getD []).length else 0) + i) (b.map DictEntry.key) := by
  cases t with
  | false =>
    have hbs : d.ht0.table = some bs := hbs
    simp only [chainKeys, Dict.setHt, hT, hbs, Option.getD_some, Bool.false_eq_true, if_false,
      zero_add, map_append, map_set]
    rw [set_append_left _ _ (by simpa using hi)]
  | true =>
    have hbs : d.ht1.table = some bs := hbs
    simp only [chainKeys, Dict.setHt, hT, hbs, Option.getD_some, if_true, map_append, map_set]
    rw [set_append_right _ _ (by simp), length_map, Nat.add_sub_cancel_left]

lemma sizeExp0_setHt (d : Dict K V) (t : Bool) {T}
    (hT : T.sizeExp = (d.ht t).sizeExp) : (d.setHt t T).ht0.sizeExp = d.ht0.sizeExp := by
  cases t with
  | false => exact hT
  | true => rfl

lemma steady_setBucket (h : WellFormed ty d) {t i n b b'} (hb : (d.ht t).bucket i = .ok b)
    (hchange : ∀ cs : List (List K), ∀ g, cs[g]? = some (b.map DictEntry.key) →
      Change P cs (cs.set g (b'.map DictEntry.key))) :
    Steady P d (d.setHt t { (d.ht t).setBucket i b' with used := n }) := by
  have hne : d.ht t ≠ dictReset := fun hr => by
    rw [hr] at hb
    cases hb
  obtain ⟨bs, e, ha⟩ := (ht_ok h t).allocated hne
  have hload : bs[i]? = some b := by
    rw [Table.bucket, ha.table] at hb
    exact load_eq_ok.mp hb
  have hi : i < bs.length := (List.getElem?_eq_some_iff.mp hload).1
  refine ⟨?_, fun _ => sizeExp0_setHt d t rfl⟩
  rw [chainKeys_setBucket d t ha.table hi (by rw [Table.setBucket, ha.table]; rfl)]
  apply hchange
  have hsize : i < dicthtSize (d.ht t).sizeExp := by
    rw [ha.sizeExp, dicthtSize, ← ha.length]
    exact hi
  obtain ⟨b'', hb'', hchain⟩ := bucket_chain h hsize
  rw [hb] at hb''
  cases hb''
  rw [length_table h.ok0]
  exact hchain

lemma rehashStep_paused (ty : DictType K) (mode : DictResizeEnable)
    (hp : d.pauserehash ≠ 0) : dictRehashStep ty mode d = .ok d :=
  if_neg fun h => hp h.2

lemma steady_setupTable (h : WellFormed ty d)
    (hr : d.rehashidx = none) (P : K → Prop) (e : Nat) : Steady P d (dictSetupTable d e) := by
  have h1 := h.idle hr
  unfold dictSetupTable
  split
  · rename_i hnone
    have hkeys : chainKeys d = [] := by
      rw [chainKeys, hnone, h1]
      rfl
    refine ⟨?_, fun hne => ?_⟩
    · have : chainKeys { d with ht0 := ⟨some (List.replicate (2 ^ e) []), 0, some e⟩ } =
          chainKeys d ++ List.replicate (2 ^ e) [] := by
        rw [hkeys, chainKeys, h1]
        simp [dictReset]
      rw [this]
      exact .extend _ _
    have hlen := length_table h.ok0
    rw [hnone] at hlen
    exact absurd hlen.symm hne
  refine ⟨?_, fun _ => rfl⟩
  have : chainKeys { d with
      ht1 := ⟨some (List.replicate (2 ^ e) []), 0, some e⟩
      rehashidx := some 0 } = chainKeys d ++ List.replicate (2 ^ e) [] := by
    rw [chainKeys, chainKeys, h1]
    simp [dictReset]
  rw [this]
  exact .extend _ _

lemma steady_grown (h : WellFormed ty d) (P : K → Prop) (hg : Grown d d') : Steady P d d' := by
  obtain rfl | ⟨hr, e, -, rfl⟩ := hg
  · exact .refl P _
  · exact steady_setupTable h hr P e

lemma steady_setVal (h : WellFormed ty d) (P : K → Prop)
    {ref v} (hrun : dictSetVal d ref v = .ok d') : Steady P d d' := by
  simp only [dictSetVal, bind_eq_ok] at hrun
  obtain ⟨b, hb, he, hhe, heq⟩ := hrun
  cases heq
  have hpos := load_eq_ok.mp hhe
  have hkeys : (b.set ref.pos { he with val := some v }).map DictEntry.key =
      b.map DictEntry.key := by
    obtain ⟨hlt, rfl⟩ := List.getElem?_eq_some_iff.mp hpos
    rw [map_set]
    exact ext_getElem (by simp) fun i _ _ => by
      rw [getElem_set]
      split
      · rename_i hi
        subst hi
        simp
      · rfl
  refine steady_setBucket h hb fun cs g hg => ?_
  rw [hkeys]
  obtain ⟨hlt, hget⟩ := List.getElem?_eq_some_iff.mp hg
  rw [← hget, set_getElem_self]
  exact .refl cs

variable {mode : DictResizeEnable} {key : K}

section UserSpec
variable [DecidableEq K]

lemma steady_addRaw (h : WellFormed ty d) (hp : d.pauserehash ≠ 0) {entry existing}
    (hrun : dictAddRaw ty mode d key = .ok (d', entry, existing)) :
    Steady (fun x => entry.isSome = true ∧ x = key) d d' := by
  obtain ⟨hok, -⟩ := dictExpandIfNeeded_spec mode h
  have hgrown := grown_expandIfNeeded ty mode d
  obtain ⟨d₁, hd₁⟩ : ∃ d₁, dictExpandIfNeeded ty mode d = (d₁, true) := ⟨_, Prod.ext rfl hok⟩
  rw [hd₁] at hgrown
  have hexpand := steady_grown h (fun x => entry.isSome = true ∧ x = key) hgrown
  simp only [dictAddRaw, rehashStep_paused ty mode hp, bind_ok, dictKeyIndex, hd₁] at hrun
  cases hlook : lookupEntry ty d₁ key with
  | error e =>
    rw [hlook] at hrun
    cases hrun
  | ok res =>
    rw [hlook] at hrun
    cases res with
    | found ref he =>
      cases hrun
      exact hexpand
    | missing idx =>
      simp only [bind_ok, bind_eq_ok] at hrun
      obtain ⟨_, -, b, hb, heq⟩ := hrun
      cases heq
      refine hexpand.trans (steady_setBucket (hgrown.kept h).wf hb fun cs g hg => ?_)
      exact .push ⟨rfl, rfl⟩ hg

lemma steady_genericDelete (h : WellFormed ty d) (hp : d.pauserehash ≠ 0) {res}
    (hrun : dictGenericDelete ty mode d key = .ok (d', res)) : Steady (· = key) d d' := by
  unfold dictGenericDelete at hrun
  split at hrun
  · cases hrun
    exact .refl _ d
  rename_i hz
  simp only [rehashStep_paused ty mode hp] at hrun
  rcases lookupEntry_spec h (ht0_of_kept h hz (.refl h)) key with
    ⟨ref, he, hlook, hpt, hkey⟩ | ⟨hlook, -⟩
  · obtain ⟨bs, e, l, r, ha, hb, hload, hpos⟩ := hpt.split h
    simp only [hlook, bind_ok, hload, hpos, eraseIdx_middle] at hrun
    cases hrun
    refine steady_setBucket h hload fun cs g hg => ?_
    rw [map_append, map_cons, hkey] at hg
    rw [map_append]
    exact .unlink rfl hg
  · simp only [hlook, bind_ok] at hrun
    cases hrun
    exact .refl _ d

lemma find_paused (hp : d.pauserehash ≠ 0) {res}
    (hrun : dictFind ty mode d key = .ok (d', res)) : d' = d := by
  unfold dictFind at hrun
  split at hrun
  · cases hrun
    rfl
  simp only [rehashStep_paused ty mode hp, bind_ok, bind_eq_ok] at hrun
  obtain ⟨res', -, heq⟩ := hrun
  cases res' <;> cases heq <;> rfl

end UserSpec

/-! ## What a step of the user does -/

def keys (d : Dict K V) : List K := (chainKeys d).flatten

/-- A step of the user in which only keys with `P` come and go: an entry of such a key that is
there afterwards was allocated by the step. -/
structure UserStep (ty : DictType K) (P : K → Prop) (gens gens' : Allocations K)
    (d d' : Dict K V) : Prop where
  wf : WellFormed ty d'
  pause : d'.pauserehash = d.pauserehash
  same : ∀ x, ¬ P x → (x ∈ keys d' ↔ x ∈ keys d)
  fresh : ∀ x, P x → x ∈ keys d' → gens x < gens' x
  gens_same : ∀ x, ¬ P x → gens' x = gens x
  gens_le : ∀ x, gens x ≤ gens' x
  steady : d.pauserehash ≠ 0 → Steady P d d'

lemma mem_keys_perm (hp : (entries d').Perm (entries d)) (x : K) : x ∈ keys d' ↔ x ∈ keys d := by
  rw [keys, keys, flatten_chainKeys, flatten_chainKeys, (hp.map DictEntry.key).mem_iff]

lemma UserStep.kept (hk : Kept ty d d')
    (gens : Allocations K) (hsteady : d.pauserehash ≠ 0 → Steady (fun _ => False) d d') :
    UserStep ty (fun _ => False) gens gens d d' where
  wf := hk.wf
  pause := hk.pause
  same x _ := mem_keys_perm hk.perm x
  fresh _ hx := hx.elim
  gens_same _ _ := rfl
  gens_le _ := le_rfl
  steady := hsteady

section Users
variable [DecidableEq K]

lemma allocate_self (gens : Allocations K) (key : K) :
    allocate gens key true key = gens key + 1 := by
  simp [allocate]

lemma allocate_ne (gens : Allocations K) {x} (added : Bool)
    (h : ¬(added = true ∧ x = key)) : allocate gens key added x = gens x := by
  cases added with
  | false => rfl
  | true => simp [allocate, Function.update_of_ne fun hx => h ⟨rfl, hx⟩]

lemma le_allocate (gens : Allocations K) (key : K) (added : Bool) (x : K) :
    gens x ≤ allocate gens key added x := by
  by_cases h : added = true ∧ x = key
  · obtain ⟨rfl, rfl⟩ := h
    rw [allocate_self]
    exact Nat.le_succ _
  · rw [allocate_ne gens added h]

/-- An entry of `key` was added, or one was found and possibly given another value. -/
lemma UserStep.raw {added : Bool} (hwf : WellFormed ty d') (hpause : d'.pauserehash = d.pauserehash)
    (hkeys : ∀ x, ¬(added = true ∧ x = key) → (x ∈ keys d' ↔ x ∈ keys d)) (gens : Allocations K)
    (hsteady : d.pauserehash ≠ 0 → Steady (fun x => added = true ∧ x = key) d d') :
    UserStep ty (fun x => added = true ∧ x = key) gens (allocate gens key added) d d' where
  wf := hwf
  pause := hpause
  same := hkeys
  fresh x hx _ := by
    rw [hx.1, hx.2, allocate_self]
    exact Nat.lt_succ_self _
  gens_same x hx := allocate_ne gens added hx
  gens_le := le_allocate gens key added
  steady := hsteady

omit [DecidableEq K] in
lemma mem_keys_setVal {he v rest} (h : (entries d).Perm (he :: rest))
    (h' : (entries d').Perm (⟨he.key, v⟩ :: rest)) (x : K) : x ∈ keys d' ↔ x ∈ keys d := by
  rw [keys, keys, flatten_chainKeys, flatten_chainKeys, (h.map DictEntry.key).mem_iff,
    (h'.map DictEntry.key).mem_iff, map_cons, map_cons]

omit [DecidableEq K] in
lemma not_mem_keys (h : ∀ x ∈ entries d, x.key ≠ key) : key ∉ keys d := by
  rw [keys, flatten_chainKeys]
  intro hmem
  obtain ⟨x, hx, hxk⟩ := mem_map.mp hmem
  exact h x hx hxk

/-- There is no room for another entry in the address space. -/
def Full (d : Dict K V) : Prop := 2 ^ 64 ≤ ((entries d).length + 1) * sizeofDictEntry

section
variable (mode : DictResizeEnable) (h : WellFormed ty d) (key : K) (val : V) (gens : Allocations K)
include h

/-- `dictAddRaw` and the value set through the pointer it returns. -/
lemma addRaw_spec :
    (dictAddRaw ty mode d key = .error .memory ∧ Full d) ∨
    (∃ d₁ ref d', dictAddRaw ty mode d key = .ok (d₁, some ref, none) ∧
      dictSetVal d₁ ref val = .ok d' ∧ key ∉ keys d ∧
      UserStep ty (fun x => true = true ∧ x = key) gens (allocate gens key true) d d') ∨
    ∃ d₁ ref d', dictAddRaw ty mode d key = .ok (d₁, none, some ref) ∧
      dictSetVal d₁ ref val = .ok d' ∧ ∀ d₂, d₂ = d₁ ∨ d₂ = d' →
      UserStep ty (fun x => false = true ∧ x = key) gens (allocate gens key false) d d₂ := by
  rcases dictAddRaw_spec mode h key with ⟨hr, hfull⟩ | ⟨d₁, ref, hr, hw, hn, hp, hpt, hpause⟩ |
    ⟨d₁, ref, he, hr, hk, hpt, rfl⟩
  · exact .inl ⟨hr, hfull⟩
  · obtain ⟨d', rest, hset, hw', hp₁, hp₂, hpause'⟩ := dictSetVal_spec hw hpt val
    refine .inr (.inl ⟨d₁, ref, d', hr, hset, not_mem_keys hn, .raw hw' (hpause'.trans hpause)
      (fun x hx => ?_) gens fun hpaused => ?_⟩)
    · rw [mem_keys_setVal hp₁ hp₂, keys, keys, flatten_chainKeys, flatten_chainKeys,
        (hp.map DictEntry.key).mem_iff, map_cons, mem_cons]
      exact or_iff_right fun heq => hx ⟨rfl, heq⟩
    · exact (steady_addRaw h hpaused hr).trans (steady_setVal hw _ hset)
  obtain ⟨d', rest, hset, hw', hp₁, hp₂, hpause'⟩ := dictSetVal_spec hk.wf hpt val
  have hkeys := mem_keys_perm hk.perm
  refine .inr (.inr ⟨d₁, ref, d', hr, hset, ?_⟩)
  rintro d₂ (rfl | rfl)
  · exact .raw hk.wf hk.pause (fun x _ => hkeys x) gens fun hpaused => steady_addRaw h hpaused hr
  · exact .raw hw' (hpause'.trans hk.pause)
      (fun x _ => (mem_keys_setVal hp₁ hp₂ x).trans (hkeys x)) gens
      fun hpaused => (steady_addRaw h hpaused hr).trans (steady_setVal hk.wf _ hset)

/-- There is no room for the entry, or it was added, or another value was possibly assigned. -/
def Adds (ty : DictType K) (d : Dict K V) (key : K) (gens : Allocations K)
    (run : Outcome (Dict K V × Bool)) : Prop :=
  (run = .error .memory ∧ Full d) ∨
  ∃ d' added, run = .ok (d', added) ∧ (added = true → key ∉ keys d) ∧
    UserStep ty (fun x => added = true ∧ x = key) gens (allocate gens key added) d d'

lemma add_spec : Adds ty d key gens (dictAdd ty mode d key val) := by
  rcases addRaw_spec mode h key val gens with ⟨hr, hfull⟩ | ⟨d₁, ref, d', hr, hset, hn, hstep⟩ |
    ⟨d₁, ref, d', hr, _, hstep⟩
  · exact .inl ⟨by simp only [dictAdd, hr, bind_error], hfull⟩
  · exact .inr ⟨d', true, by simp only [dictAdd, hr, hset, bind_ok], fun _ => hn, hstep⟩
  · exact .inr ⟨d₁, false, by simp only [dictAdd, hr, bind_ok], Bool.noConfusion,
      hstep d₁ (.inl rfl)⟩

lemma replace_spec : Adds ty d key gens (dictReplace ty mode d key val) := by
  rcases addRaw_spec mode h key val gens with ⟨hr, hfull⟩ | ⟨d₁, ref, d', hr, hset, hn, hstep⟩ |
    ⟨d₁, ref, d', hr, hset, hstep⟩
  · exact .inl ⟨by simp only [dictReplace, hr, bind_error], hfull⟩
  · exact .inr ⟨d', true, by simp only [dictReplace, hr, hset, bind_ok], fun _ => hn, hstep⟩
  · exact .inr ⟨d', false, by simp only [dictReplace, hr, hset, bind_ok], Bool.noConfusion,
      hstep d' (.inr rfl)⟩

lemma find_spec : ∃ d' res, dictFind ty mode d key = .ok (d', res) ∧
      UserStep ty (fun _ => False) gens gens d d' := by
  obtain ⟨d', res, hr, hk, -⟩ := dictFind_spec mode h key
  refine ⟨d', res, hr, .kept hk gens fun hpaused => ?_⟩
  rw [find_paused hpaused hr]
  exact .refl _ d

lemma delete_spec : ∃ d' deleted, dictDelete ty mode d key = .ok (d', deleted) ∧
      UserStep ty (· = key) gens gens d d' := by
  have hgens : ∀ x, gens x ≤ gens x := fun x => le_rfl
  rcases dictGenericDelete_spec mode h key with ⟨d', hr, hk, hn⟩ | ⟨d', he, hr, hw, rfl, hp, hpause⟩
  · refine ⟨d', false, by simp only [dictDelete, hr]; rfl, hk.wf, hk.pause,
      fun x _ => mem_keys_perm hk.perm x, ?_, fun _ _ => rfl, hgens,
      fun hpaused => steady_genericDelete h hpaused hr⟩
    rintro x rfl hmem
    exact absurd ((mem_keys_perm hk.perm x).mp hmem) (not_mem_keys hn)
  have hkeys := hp.map DictEntry.key
  rw [map_cons] at hkeys
  refine ⟨d', true, by simp only [dictDelete, hr]; rfl, hw, hpause,
    fun x hx => ?_, ?_, fun _ _ => rfl, hgens, fun hpaused => steady_genericDelete h hpaused hr⟩
  · rw [keys, keys, flatten_chainKeys, flatten_chainKeys, hkeys.mem_iff, mem_cons]
    exact ⟨.inr, fun h => h.resolve_left hx⟩
  rintro x rfl hmem
  rw [keys, flatten_chainKeys] at hmem
  exact absurd hmem (nodup_cons.mp (hkeys.nodup_iff.mp h.nodup)).1

end

end Users

end Redis.Dictionary.SafeIterator
