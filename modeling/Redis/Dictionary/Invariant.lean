import Redis.Lib.Buckets
import Redis.Dictionary.Model

/-! # The representation invariant of a dict

`WellFormed` ties the two tables to the list of entries they hold: exact counts, every entry in
the bucket of its hash, nothing below `rehashidx`, no key twice. Each operation gets one lemma:
it returns, keeps the invariant, and does this to the entries, up to order. -/
namespace Redis.Dictionary.Invariant
open List Lib Outcome Lib.Buckets Model

variable {K V : Type} {d : Dict K V} {ty : DictType K} {e : Nat}

def tableEntries (t : Table K V) : List (DictEntry K V) := (t.table.getD []).flatten

def entries (d : Dict K V) : List (DictEntry K V) := tableEntries d.ht0 ++ tableEntries d.ht1

/-- An allocated table: `2 ^ e` buckets, each entry in the bucket of its
hash. -/
structure Allocated (ty : DictType K) (t : Table K V) (bs : List (Bucket K V)) (e : Nat) :
    Prop where
  table : t.table = some bs
  sizeExp : t.sizeExp = some e
  exp_lt : e < 64
  length : bs.length = 2 ^ e
  placed : Placed (fun x => hashIdx ty (some e) x.key) bs
  count : t.used = bs.flatten.length

def TableOk (ty : DictType K) (t : Table K V) : Prop := t = dictReset ∨ ∃ bs e, Allocated ty t bs e

structure WellFormed (ty : DictType K) (d : Dict K V) : Prop where
  ok0 : TableOk ty d.ht0
  ok1 : TableOk ty d.ht1
  idle : d.rehashidx = none → d.ht1 = dictReset
  rehashing : ∀ r, d.rehashidx = some r → d.ht0 ≠ dictReset ∧ d.ht1 ≠ dictReset ∧
    r ≤ dicthtSize d.ht0.sizeExp ∧ EmptyBetween (d.ht0.table.getD []) 0 r
  nodup : ((entries d).map DictEntry.key).Nodup
  fits : dictSize d * sizeofDictEntry < 2 ^ 64

/-- What migration and resizing may do: the entries stay, up to order. -/
structure Kept (ty : DictType K) (d d' : Dict K V) : Prop where
  wf : WellFormed ty d'
  perm : (entries d').Perm (entries d)
  pause : d'.pauserehash = d.pauserehash

lemma Kept.refl (h : WellFormed ty d) : Kept ty d d := ⟨h, List.Perm.refl _, rfl⟩

lemma Kept.trans {d' d''} (h : Kept ty d d') (h' : Kept ty d' d'') : Kept ty d d'' :=
  ⟨h'.wf, h'.perm.trans h.perm, h'.pause.trans h.pause⟩

/-! ## One table -/

lemma dicthtSizeMask_toNat (he : e < 64) : (dicthtSizeMask (some e)).toNat = 2 ^ e - 1 := by
  have hlt : 2 ^ e < 2 ^ 64 := Nat.pow_lt_pow_right (by omega) he
  have hpos : 0 < 2 ^ e := Nat.two_pow_pos e
  simp only [dicthtSizeMask, BitVec.toNat_sub, BitVec.toNat_ofNat]
  rw [show BitVec.toNat (1 : BitVec 64) = 1 from rfl]
  omega

lemma hashIdx_eq_mod (ty : DictType K) (he : e < 64) (k : K) :
    hashIdx ty (some e) k = (ty.hashFunction k).toNat % 2 ^ e := by
  rw [hashIdx, BitVec.toNat_and, dicthtSizeMask_toNat he, Nat.and_two_pow_sub_one_eq_mod]

lemma hashIdx_lt (ty : DictType K) (he : e < 64) (k : K) : hashIdx ty (some e) k < 2 ^ e := by
  rw [hashIdx_eq_mod ty he]
  exact Nat.mod_lt _ (Nat.two_pow_pos e)

variable {bs : List (Bucket K V)} {t : Table K V} {r : Nat}

lemma Allocated.ne_reset (h : Allocated ty t bs e) : t ≠ dictReset := by
  intro hr
  have := h.table
  rw [hr] at this
  cases this

lemma TableOk.allocated (h : TableOk ty t) (hn : t ≠ dictReset) : ∃ bs e, Allocated ty t bs e :=
  h.resolve_left hn

lemma TableOk.used_eq (h : TableOk ty t) : t.used = (tableEntries t).length := by
  rcases h with rfl | ⟨bs, e, h⟩
  · rfl
  · rw [tableEntries, h.table, h.count]; rfl

lemma Allocated.bucket (h : Allocated ty t bs e) {i} (hi : i < 2 ^ e) :
    ∃ b, bs[i]? = some b ∧ t.bucket i = .ok b := by
  have hlt : i < bs.length := by rw [h.length]; exact hi
  refine ⟨bs[i], getElem?_eq_getElem hlt, ?_⟩
  rw [Table.bucket, h.table]
  exact load_eq_ok.mpr (getElem?_eq_getElem hlt)

lemma Allocated.entries_eq (h : Allocated ty t bs e) : tableEntries t = bs.flatten := by
  rw [tableEntries, h.table]; rfl

lemma Allocated.setBucket (h : Allocated ty t bs e) {i n b}
    (hb : ∀ x ∈ b, hashIdx ty (some e) x.key = i) (hn : n = (bs.set i b).flatten.length) :
    Allocated ty { t.setBucket i b with used := n } (bs.set i b) e where
  table := by simp [Table.setBucket, h.table]
  sizeExp := h.sizeExp
  exp_lt := h.exp_lt
  length := by rw [length_set, h.length]
  placed := h.placed.set hb
  count := hn

lemma Allocated.push {ty : DictType K} {t : Table K V} {bs : List (Bucket K V)} {e : Nat}
    (h : Allocated ty t bs e) (x : DictEntry K V) :
    ∃ b, t.bucket (hashIdx ty (some e) x.key) = .ok b ∧ bs[hashIdx ty (some e) x.key]? = some b ∧
      Allocated ty { t.setBucket (hashIdx ty (some e) x.key) (x :: b) with used := t.used + 1 }
        (bs.set (hashIdx ty (some e) x.key) (x :: b)) e := by
  obtain ⟨b, hb, hl⟩ := h.bucket (hashIdx_lt ty h.exp_lt x.key)
  refine ⟨b, hl, hb, h.setBucket ?_ ?_⟩
  · exact forall_mem_cons.mpr ⟨rfl, h.placed _ b hb⟩
  · rw [(perm_push x hb).length_eq, length_cons, h.count]

/-! ## Migration -/

lemma moveChain_spec : ∀ (c : Bucket K V) (d : Dict K V)
    {bs : List (Bucket K V)} {e : Nat}, Allocated ty d.ht1 bs e →
    ∃ d' bs', moveChain ty d c = .ok d' ∧ Allocated ty d'.ht1 bs' e ∧
      bs'.flatten.Perm (c ++ bs.flatten) ∧
      d'.ht0 = { d.ht0 with used := d.ht0.used - c.length } ∧
      d'.rehashidx = d.rehashidx ∧ d'.pauserehash = d.pauserehash
  | [], d, bs, e, h => ⟨d, bs, rfl, h, List.Perm.refl _, rfl, rfl, rfl⟩
  | x :: c, d, bs, e, h => by
    obtain ⟨b, hl, hb, hp⟩ := h.push x
    obtain ⟨d', bs', hm, ha, hperm, h0, hr, hpa⟩ := moveChain_spec c
      { d with
        ht0 := { d.ht0 with used := d.ht0.used - 1 }
        ht1 := { d.ht1.setBucket (hashIdx ty (some e) x.key) (x :: b) with
          used := d.ht1.used + 1 } } hp
    refine ⟨d', bs', ?_, ha, ?_, ?_, hr, hpa⟩
    · simp only [moveChain, h.sizeExp, hl, bind_ok, hm]
    · exact hperm.trans (((perm_push x hb).append_left c).trans perm_middle)
    rw [h0]
    simp only [length_cons, Table.mk.injEq, true_and, and_true]
    omega

/-- The bucket scan stops inside the table as long as something is stored at
or after its start, and passes over empty buckets only. -/
lemma skipEmpty_spec (h : Allocated ty t bs e) : ∀ (left idx : Nat), StoredFrom bs idx →
    (∃ j, skipEmpty t left idx = .ok (.exhausted j) ∧ StoredFrom bs j ∧ EmptyBetween bs idx j) ∨
    (∃ j b l, skipEmpty t left idx = .ok (.found j b l) ∧ bs[j]? = some b ∧
      EmptyBetween bs idx j) := by
  intro left
  induction left with
  | zero =>
    intro idx hs
    obtain ⟨c, hc, hl⟩ := h.bucket (h.length ▸ hs.lt_length)
    cases c with
    | cons x c =>
      refine .inr ⟨idx, x :: c, 0, ?_, hc, emptyBetween_self bs idx⟩
      simp only [skipEmpty, hl, bind_ok, isEmpty_cons, Bool.false_eq_true, if_false]
    | nil =>
      refine .inl ⟨idx + 1, ?_, hs.succ hc, (emptyBetween_self bs _).cons hc⟩
      simp only [skipEmpty, hl, bind_ok, isEmpty_nil, if_true]
  | succ left ih =>
    intro idx hs
    obtain ⟨c, hc, hl⟩ := h.bucket (h.length ▸ hs.lt_length)
    cases c with
    | cons x c =>
      refine .inr ⟨idx, x :: c, left + 1, ?_, hc, emptyBetween_self bs idx⟩
      simp only [skipEmpty, hl, bind_ok, isEmpty_cons, Bool.false_eq_true, if_false]
    | nil =>
      have hstep : skipEmpty t (left + 1) idx = skipEmpty t left (idx + 1) := by
        simp only [skipEmpty, hl, bind_ok, isEmpty_nil, if_true]
      rw [hstep]
      rcases ih (idx + 1) (hs.succ hc) with ⟨j, hj, hsj, he⟩ | ⟨j, b, l, hj, hb, he⟩
      · exact .inl ⟨j, hj, hsj, he.cons hc⟩
      · exact .inr ⟨j, b, l, hj, hb, he.cons hc⟩

/-- The state the migration loop runs in: both tables allocated, nothing below
`rehashidx`. -/
structure Migrating (ty : DictType K) (d : Dict K V) (r : Nat) (bs bs' : List (Bucket K V))
    (e e' : Nat) : Prop where
  alloc0 : Allocated ty d.ht0 bs e
  alloc1 : Allocated ty d.ht1 bs' e'
  idx : d.rehashidx = some r
  le : r ≤ 2 ^ e
  empty : EmptyBetween bs 0 r

lemma WellFormed.migrating (h : WellFormed ty d)
    (hr : d.rehashidx = some r) : ∃ bs bs' e e', Migrating ty d r bs bs' e e' := by
  obtain ⟨h0, h1, hle, hemp⟩ := h.rehashing r hr
  obtain ⟨bs, e, ha⟩ := h.ok0.allocated h0
  obtain ⟨bs', e', ha'⟩ := h.ok1.allocated h1
  refine ⟨bs, bs', e, e', ha, ha', hr, ?_, ?_⟩
  · rwa [ha.sizeExp] at hle
  · rwa [ha.table] at hemp

lemma Migrating.wellFormed {d' bs' e'} (hm : Migrating ty d' r bs bs' e e')
    (h : WellFormed ty d) (hp : (entries d').Perm (entries d)) : WellFormed ty d' where
  ok0 := Or.inr ⟨bs, e, hm.alloc0⟩
  ok1 := Or.inr ⟨bs', e', hm.alloc1⟩
  idle := by rw [hm.idx]; exact nofun
  rehashing := by
    intro r' hr'
    rw [hm.idx] at hr'
    cases hr'
    refine ⟨hm.alloc0.ne_reset, hm.alloc1.ne_reset, ?_, ?_⟩
    · rw [hm.alloc0.sizeExp]; exact hm.le
    · rw [hm.alloc0.table]; exact hm.empty
  nodup := (hp.map _).nodup_iff.mpr h.nodup
  fits := by
    have hl := hp.length_eq
    simp only [entries, length_append] at hl
    have hf := h.fits
    rw [dictSize, h.ok0.used_eq, h.ok1.used_eq] at hf
    rw [dictSize, hm.alloc0.count, hm.alloc1.count, ← hm.alloc0.entries_eq,
      ← hm.alloc1.entries_eq, hl]
    exact hf

lemma rehashLoop_spec : ∀ (n left : Nat) (d : Dict K V) {r : Nat}
    {bs bs' : List (Bucket K V)} {e e' : Nat}, WellFormed ty d →
    Migrating ty d r bs bs' e e' →
    ∃ d' early, rehashLoop ty n left d = .ok (d', early) ∧ Kept ty d d' ∧
      ∃ r' cs cs', Migrating ty d' r' cs cs' e e' := by
  intro n
  induction n with
  | zero =>
    intro left d r bs bs' e e' h hm
    exact ⟨d, false, rfl, Kept.refl h, r, bs, bs', hm⟩
  | succ n ih =>
    intro left d r bs bs' e e' h hm
    by_cases hu : d.ht0.used = 0
    · exact ⟨d, false, by simp only [rehashLoop, hu, if_true], Kept.refl h, r, bs, bs', hm⟩
    have hne : bs.flatten ≠ [] := by
      intro hnil
      exact hu (by rw [hm.alloc0.count, hnil]; rfl)
    have hs := storedFrom_of_ne_nil hne hm.empty
    have hlt : r < dicthtSize d.ht0.sizeExp := by
      rw [hm.alloc0.sizeExp, dicthtSize, ← hm.alloc0.length]
      exact hs.lt_length
    rcases skipEmpty_spec hm.alloc0 left r hs with ⟨j, hj, hsj, hemp⟩ | ⟨j, b, l, hj, hb, hemp⟩
    · have hm' : Migrating ty { d with rehashidx := some j } j bs bs' e e' :=
        ⟨hm.alloc0, hm.alloc1, rfl, by
          have := hsj.lt_length
          rw [hm.alloc0.length] at this
          omega, hm.empty.append hemp⟩
      refine ⟨{ d with rehashidx := some j }, true, ?_,
        ⟨hm'.wellFormed h (List.Perm.refl _), List.Perm.refl _, rfl⟩, j, bs, bs', hm'⟩
      simp only [rehashLoop, hu, if_false, hm.idx, check_pos hlt, hj, bind_ok]
    obtain ⟨d1, cs', hmv, ha', hperm, h0, hr, hpa⟩ := moveChain_spec b d hm.alloc1
    have hjlt : j < bs.length := (List.getElem?_eq_some_iff.mp hb).1
    have hclr := perm_clear hb
    have ha0 : Allocated ty { d.ht0.setBucket j [] with used := d.ht0.used - b.length }
        (bs.set j []) e := by
      refine hm.alloc0.setBucket (nofun) ?_
      rw [hm.alloc0.count, hclr.length_eq, length_append]
      omega
    have hm' : Migrating ty { d1 with
        ht0 := d1.ht0.setBucket j []
        rehashidx := some (j + 1) } (j + 1) (bs.set j []) cs' e e' := by
      refine ⟨?_, ha', rfl, ?_, (hm.empty.append hemp).clear⟩
      · rw [h0]; exact ha0
      · rw [← hm.alloc0.length]; omega
    have hp : (entries { d1 with
        ht0 := d1.ht0.setBucket j []
        rehashidx := some (j + 1) }).Perm (entries d) := by
      rw [entries, entries, hm'.alloc0.entries_eq, hm'.alloc1.entries_eq,
        hm.alloc0.entries_eq, hm.alloc1.entries_eq]
      refine (hperm.append_left _).trans ?_
      refine (perm_append_comm_assoc _ _ _).trans ?_
      rw [← append_assoc]
      exact hclr.symm.append_right _
    have hwf := hm'.wellFormed h hp
    obtain ⟨d', early, hrun, hk, hmig⟩ := ih l _ hwf hm'
    refine ⟨d', early, ?_, Kept.trans ⟨hwf, hp, hpa⟩ hk, hmig⟩
    simp only [rehashLoop, hu, hm.idx, check_pos hlt, hj, bind_ok, hmv]
    exact hrun

lemma rehashFinish_spec {bs' e'} (h : WellFormed ty d)
    (hm : Migrating ty d r bs bs' e e') : Kept ty d (rehashFinish d).1 := by
  unfold rehashFinish
  split
  · rename_i hu
    have hnil : tableEntries d.ht0 = [] := by
      rw [hm.alloc0.entries_eq]
      exact length_eq_zero_iff.mp (hm.alloc0.count ▸ hu)
    have he : entries { d with ht0 := d.ht1, ht1 := dictReset, rehashidx := none } = entries d := by
      simp only [entries, hnil]
      simp [tableEntries, dictReset]
    refine ⟨⟨h.ok1, Or.inl rfl, fun _ => rfl, nofun, he ▸ h.nodup, ?_⟩,
      he ▸ List.Perm.refl _, rfl⟩
    have hf := h.fits
    rw [dictSize, hu] at hf
    simpa [dictSize, dictReset] using hf
  · exact Kept.refl h

/-- Migration never fails: in particular the assertion that `rehashidx` is
inside table 0 holds whenever it is evaluated. -/
lemma dictRehash_spec (mode : DictResizeEnable) (h : WellFormed ty d) (n : Nat) :
    ∃ d' b, dictRehash ty mode d n = .ok (d', b) ∧ Kept ty d d' := by
  unfold dictRehash
  split
  · exact ⟨d, false, rfl, Kept.refl h⟩
  rename_i hc
  have hre : dictIsRehashing d = true := by
    simp only [not_or] at hc
    simpa using hc.2
  split
  · exact ⟨d, false, rfl, Kept.refl h⟩
  obtain ⟨r, hr⟩ := Option.isSome_iff_exists.mp hre
  obtain ⟨bs, bs', e, e', hm⟩ := h.migrating hr
  obtain ⟨d', early, hrun, hk, r', cs, cs', hm'⟩ := rehashLoop_spec n (n * 10 - 1) d h hm
  rw [hrun]
  cases early with
  | true => exact ⟨d', true, rfl, hk⟩
  | false => exact ⟨_, _, rfl, hk.trans (rehashFinish_spec hk.wf hm')⟩

lemma dictRehashStep_spec (mode : DictResizeEnable)
    (h : WellFormed ty d) : ∃ d', dictRehashStep ty mode d = .ok d' ∧ Kept ty d d' := by
  unfold dictRehashStep
  split
  · obtain ⟨d', b, hrun, hk⟩ := dictRehash_spec mode h 1
    exact ⟨d', by rw [hrun]; rfl, hk⟩
  · exact ⟨d, rfl, Kept.refl h⟩

end Redis.Dictionary.Invariant
