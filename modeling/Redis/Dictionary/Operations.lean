import Redis.Dictionary.Invariant

/-! # What the dict operations do to the entries

One lemma per function of dict.c: it returns (or, for an insertion, the
address space is exhausted), keeps `WellFormed`, and changes the entries as
stated, up to order. -/
namespace Redis.Dictionary.Operations
open List Lib Outcome Lib.Buckets Model Invariant

variable {K V : Type} {d : Dict K V} {ty : DictType K} {e : Nat}

lemma size_eq (h : WellFormed ty d) : dictSize d = (entries d).length := by
  rw [dictSize, h.ok0.used_eq, h.ok1.used_eq, entries, length_append]

/-! ## Resizing -/

lemma nextExpFrom_ge (size : Nat) : ∀ (fuel e : Nat), size ≤ 2 ^ (e + fuel) →
    size ≤ 2 ^ nextExpFrom size fuel e
  | 0, e, h => h
  | fuel + 1, e, h => by
    rw [nextExpFrom]
    split
    · assumption
    · exact nextExpFrom_ge size fuel (e + 1) (by rwa [Nat.add_right_comm])

lemma nextExpFrom_le (size : Nat) : ∀ (fuel e k : Nat), e ≤ k → size ≤ 2 ^ k →
    k ≤ e + fuel → nextExpFrom size fuel e ≤ k
  | 0, e, k, hek, _, _ => hek
  | fuel + 1, e, k, hek, hs, hk => by
    rw [nextExpFrom]
    split
    · exact hek
    rename_i hlt
    have hne : e ≠ k := fun he => hlt (he ▸ hs)
    exact nextExpFrom_le size fuel (e + 1) k (by omega) hs (by omega)

lemma dictNextExp_lt (size : Nat) : dictNextExp size < 64 := by
  unfold dictNextExp
  split
  · omega
  rename_i h
  have := nextExpFrom_le size 64 dictHtInitialExp 63 (by decide) (by
    unfold longMax at h; omega) (by decide)
  omega

lemma dictNextExp_small {size} (h : size ≤ 2 ^ 60) :
    dictNextExp size ≤ 60 ∧ size ≤ 2 ^ dictNextExp size := by
  unfold dictNextExp
  rw [if_neg (by unfold longMax; omega)]
  exact ⟨nextExpFrom_le size 64 _ 60 (by decide) h (by decide),
    nextExpFrom_ge size 64 _ (h.trans (Nat.pow_le_pow_right (by decide) (by decide)))⟩

lemma allocated_new (ty : DictType K) (he : e < 64) :
    Allocated ty (⟨some (List.replicate (2 ^ e) []), 0, some e⟩ : Table K V)
      (List.replicate (2 ^ e) []) e :=
  ⟨rfl, rfl, he, length_replicate, placed_replicate_nil _ _, by simp⟩

/-- Starting a rehash (or the first allocation) moves nothing. The size may be
any power of two that fits a mask. -/
lemma dictSetupTable_spec (h : WellFormed ty d) (hr : d.rehashidx = none) (he : e < 64) :
    Kept ty d (dictSetupTable d e) ∧ (dictSetupTable d e).ht0 ≠ dictReset := by
  have hnew := allocated_new (V := V) ty he
  have hnil : (List.replicate (2 ^ e) ([] : Bucket K V)).flatten = [] := flatten_replicate_nil
  have h1 := h.idle hr
  have hf := h.fits
  unfold dictSetupTable
  split
  · rename_i ht
    have h0 : d.ht0 = dictReset := by
      rcases h.ok0 with h0 | ⟨bs, e', ha⟩
      · exact h0
      · rw [ha.table] at ht; cases ht
    have he0 : entries d = [] := by rw [entries, h0, h1]; rfl
    have he' : entries { d with ht0 := ⟨some (List.replicate (2 ^ e) []), 0, some e⟩ } = [] := by
      rw [entries, hnew.entries_eq, h1, hnil]; rfl
    refine ⟨⟨⟨.inr ⟨_, _, hnew⟩, h.ok1, h.idle, fun r hr' => ?_, ?_, ?_⟩, ?_, rfl⟩, hnew.ne_reset⟩
    · rw [hr] at hr'; cases hr'
    · rw [he']; exact nodup_nil
    · simp only [dictSize, h1, dictReset]; decide
    · rw [he', he0]
  rename_i ht
  obtain ⟨bs, e0, ha⟩ := h.ok0.allocated (fun h0 => ht (by rw [h0]; rfl))
  have he' : entries { d with
      ht1 := ⟨some (List.replicate (2 ^ e) []), 0, some e⟩
      rehashidx := some 0 } = entries d := by
    rw [entries, entries, hnew.entries_eq, h1, hnil]; rfl
  have hm : Migrating ty { d with
      ht1 := ⟨some (List.replicate (2 ^ e) []), 0, some e⟩
      rehashidx := some 0 } 0 bs (List.replicate (2 ^ e) []) e0 e :=
    ⟨ha, hnew, rfl, Nat.zero_le _, emptyBetween_self bs 0⟩
  exact ⟨⟨hm.wellFormed h (he' ▸ List.Perm.refl _), he' ▸ List.Perm.refl _, rfl⟩, ha.ne_reset⟩

/-- The dict as it was, or with a new table. -/
def Grown (d d' : Dict K V) : Prop :=
  d' = d ∨ d.rehashidx = none ∧ ∃ e < 64, d' = dictSetupTable d e

lemma Grown.kept {d' : Dict K V} (hg : Grown d d') (h : WellFormed ty d) : Kept ty d d' := by
  obtain rfl | ⟨hr, e, he, rfl⟩ := hg
  · exact Kept.refl h
  · exact (dictSetupTable_spec h hr he).1

lemma grown_expandAlloc (d : Dict K V) (size : Nat) (tryAlloc : Option Bool) :
    Grown d (dictExpandAlloc d size tryAlloc).1 := by
  unfold dictExpandAlloc
  split
  · exact .inl rfl
  rename_i hc
  have hr : d.rehashidx = none := by
    simp only [not_or, dictIsRehashing] at hc
    simpa using hc.1
  dsimp only
  split
  · exact .inl rfl
  split
  · exact .inl rfl
  split
  · exact .inl rfl
  · exact .inr ⟨hr, _, dictNextExp_lt size, rfl⟩

lemma grown_resize (mode : DictResizeEnable) (d : Dict K V) : Grown d (dictResize mode d).1 := by
  unfold dictResize
  split
  · exact .inl rfl
  · exact grown_expandAlloc d _ _

lemma grown_expandIfNeeded (ty : DictType K) (mode : DictResizeEnable) (d : Dict K V) :
    Grown d (dictExpandIfNeeded ty mode d).1 := by
  unfold dictExpandIfNeeded
  split
  · exact .inl rfl
  split
  · exact grown_expandAlloc d _ _
  split
  · exact .inl rfl
  split
  · exact grown_expandAlloc d _ _
  · exact .inl rfl

/-- With fewer than 2^60 entries an expansion to `used + 1` buckets that the
table is too small for is always carried out. -/
lemma dictExpand_grows (h : WellFormed ty d)
    (hr : d.rehashidx = none) {size} (hs : size ≤ 2 ^ 60) (hu : d.ht0.used ≤ size)
    (hlt : dicthtSize d.ht0.sizeExp < size) :
    (dictExpand d size).2 = true ∧ (dictExpand d size).1.ht0 ≠ dictReset := by
  obtain ⟨hle, hge⟩ := dictNextExp_small hs
  have hpow : 2 ^ dictNextExp size ≤ 2 ^ 60 := Nat.pow_le_pow_right (by decide) hle
  unfold dictExpand dictExpandAlloc
  rw [if_neg (by simp [dictIsRehashing, hr]; omega)]
  rw [if_neg (by unfold sizeofPtr; omega), if_neg ?_]
  · exact ⟨rfl, (dictSetupTable_spec h hr (dictNextExp_lt size)).2⟩
  intro he
  rw [← he, dicthtSize] at hlt
  omega

/-- `_dictKeyIndex` never gives up on the expansion, and afterwards table 0 is
allocated. -/
lemma dictExpandIfNeeded_spec (mode : DictResizeEnable) (h : WellFormed ty d) :
    (dictExpandIfNeeded ty mode d).2 = true ∧
      (dictExpandIfNeeded ty mode d).1.ht0 ≠ dictReset := by
  have hsmall : d.ht0.used + 1 ≤ 2 ^ 60 := by
    have := h.fits
    unfold dictSize sizeofDictEntry at this
    omega
  unfold dictExpandIfNeeded
  split
  · rename_i hre
    obtain ⟨r, hr⟩ := Option.isSome_iff_exists.mp hre
    exact ⟨rfl, (h.rehashing r hr).1⟩
  rename_i hre
  have hr : d.rehashidx = none := by simpa [dictIsRehashing] using hre
  split
  · rename_i hz
    have hu : d.ht0.used ≤ dictHtInitialSize := by
      rcases h.ok0 with h0 | ⟨bs, e, ha⟩
      · rw [h0]; exact Nat.zero_le _
      have := Nat.two_pow_pos e
      rw [ha.sizeExp, dicthtSize] at hz
      omega
    exact dictExpand_grows h hr (by decide) hu (by rw [hz]; decide)
  rename_i hz
  have h0 : d.ht0 ≠ dictReset := fun h0 => hz (by rw [h0]; rfl)
  split
  · exact ⟨rfl, h0⟩
  split
  · rename_i hc
    have hfull : dicthtSize d.ht0.sizeExp ≤ d.ht0.used := by
      rcases hc with ⟨_, hc⟩ | ⟨_, hc⟩
      · exact hc
      by_contra hlt
      rw [Nat.div_eq_of_lt (by omega)] at hc
      omega
    exact dictExpand_grows h hr hsmall (by omega) (by omega)
  · exact ⟨rfl, h0⟩

/-! ## Pointers to entries -/

def PointsTo (d : Dict K V) (ref : EntryRef) (he : DictEntry K V) : Prop :=
  ∃ b, ((d.ht ref.table).table.getD [])[ref.idx]? = some b ∧ b[ref.pos]? = some he

lemma entries_ht (d : Dict K V) (t : Bool) :
    ∃ other, (entries d).Perm (tableEntries (d.ht t) ++ other) ∧
      ∀ T, (entries (d.setHt t T)).Perm (tableEntries T ++ other) := by
  cases t with
  | false => exact ⟨tableEntries d.ht1, List.Perm.refl _, fun _ => List.Perm.refl _⟩
  | true => exact ⟨tableEntries d.ht0, perm_append_comm, fun _ => perm_append_comm⟩

variable {he : DictEntry K V} {ref : EntryRef}

lemma PointsTo.mem (h : PointsTo d ref he) : he ∈ entries d := by
  obtain ⟨b, hb, hp⟩ := h
  obtain ⟨other, hperm, -⟩ := entries_ht d ref.table
  refine hperm.mem_iff.mpr (mem_append_left _ ?_)
  exact mem_flatten.mpr ⟨b, mem_of_getElem? hb, mem_of_getElem? hp⟩

section
variable (h : WellFormed ty d)
include h

lemma setHt_wf {t T bs bs'} (ha : Allocated ty (d.ht t) bs e)
    (hT : Allocated ty T bs' e)
    (hemp : ∀ r, d.rehashidx = some r → EmptyBetween bs 0 r → t = false → EmptyBetween bs' 0 r)
    (hn : ((entries (d.setHt t T)).map DictEntry.key).Nodup)
    (hf : (entries (d.setHt t T)).length * sizeofDictEntry < 2 ^ 64) :
    WellFormed ty (d.setHt t T) := by
  have hsz : dictSize (d.setHt t T) = (entries (d.setHt t T)).length := by
    cases t with
    | false =>
      simp only [dictSize, entries, Dict.setHt, length_append, hT.count, hT.entries_eq,
        h.ok1.used_eq]
    | true =>
      simp only [dictSize, entries, Dict.setHt, length_append, hT.count, hT.entries_eq,
        h.ok0.used_eq]
  have hok : TableOk ty T := Or.inr ⟨bs', e, hT⟩
  cases t with
  | false =>
    refine ⟨hok, h.ok1, h.idle, fun r hr => ?_, hn, hsz ▸ hf⟩
    obtain ⟨_, h1, hle, he⟩ := h.rehashing r hr
    rw [show d.ht0.table = some bs from ha.table] at he
    rw [show d.ht0.sizeExp = some e from ha.sizeExp] at hle
    refine ⟨hT.ne_reset, h1, ?_, ?_⟩
    · simpa only [Dict.setHt, hT.sizeExp] using hle
    · simpa only [Dict.setHt, hT.table, Option.getD_some] using hemp r hr he rfl
  | true =>
    refine ⟨h.ok0, hok, fun hr => ?_, fun r hr => ?_, hn, hsz ▸ hf⟩
    · exact absurd (h.idle hr) ha.ne_reset
    obtain ⟨h0, _, hle, he⟩ := h.rehashing r hr
    exact ⟨h0, hT.ne_reset, hle, he⟩

lemma ht_ok (t : Bool) : TableOk ty (d.ht t) := by
  cases t
  · exact h.ok0
  · exact h.ok1

lemma PointsTo.split (hp : PointsTo d ref he) :
    ∃ bs e l r, Allocated ty (d.ht ref.table) bs e ∧ bs[ref.idx]? = some (l ++ he :: r) ∧
      (d.ht ref.table).bucket ref.idx = .ok (l ++ he :: r) ∧ ref.pos = l.length := by
  obtain ⟨b, hb, hpos⟩ := hp
  have hn : d.ht ref.table ≠ dictReset := by
    intro hr
    rw [hr] at hb
    cases hb
  obtain ⟨bs, e, ha⟩ := (ht_ok h ref.table).allocated hn
  rw [ha.table] at hb
  obtain ⟨hlt, hget⟩ := List.getElem?_eq_some_iff.mp hpos
  have hsplit : b = b.take ref.pos ++ he :: b.drop (ref.pos + 1) := by
    rw [← hget, getElem_cons_drop, take_append_drop]
  refine ⟨bs, e, b.take ref.pos, b.drop (ref.pos + 1), ha, hsplit ▸ hb, ?_, ?_⟩
  · rw [← hsplit, Table.bucket, ha.table]
    exact load_eq_ok.mpr hb
  · rw [length_take]; omega

lemma dictSetVal_spec (hp : PointsTo d ref he) (v : V) :
    ∃ d' rest, dictSetVal d ref v = .ok d' ∧ WellFormed ty d' ∧
      (entries d).Perm (he :: rest) ∧ (entries d').Perm (⟨he.key, some v⟩ :: rest) ∧
      d'.pauserehash = d.pauserehash := by
  obtain ⟨bs, e, l, r, ha, hb, hl, hpos⟩ := hp.split h
  obtain ⟨other, hd, hT⟩ := entries_ht d ref.table
  obtain ⟨rest, h1, h2⟩ := perm_replace (⟨he.key, some v⟩ : DictEntry K V) hb
  have hidx : ∀ x ∈ l ++ he :: r, hashIdx ty (some e) x.key = ref.idx := ha.placed _ _ hb
  have hnew : Allocated ty ((d.ht ref.table).setBucket ref.idx (l ++ ⟨he.key, some v⟩ :: r))
      (bs.set ref.idx (l ++ ⟨he.key, some v⟩ :: r)) e := by
    refine ha.setBucket (fun x hx => ?_) ?_
    · rcases mem_append.mp hx with hx | hx
      · exact hidx x (mem_append_left _ hx)
      rcases mem_cons.mp hx with rfl | hx
      · exact hidx he (by simp)
      · exact hidx x (by simp [hx])
    · rw [ha.count, h1.length_eq, h2.length_eq]
      rfl
  have hp1 : (entries d).Perm (he :: (rest ++ other)) :=
    hd.trans (by rw [ha.entries_eq]; exact h1.append_right other)
  have hp2 : (entries (d.setHt ref.table ((d.ht ref.table).setBucket ref.idx
      (l ++ ⟨he.key, some v⟩ :: r)))).Perm (⟨he.key, some v⟩ :: (rest ++ other)) :=
    (hT _).trans (by rw [hnew.entries_eq]; exact h2.append_right other)
  refine ⟨_, rest ++ other, ?_, ?_, hp1, hp2, ?_⟩
  · have hload : load (l ++ he :: r) ref.pos = .ok he := load_eq_ok.mpr (by simp [hpos])
    simp only [dictSetVal, hl, bind_ok, hload]
    simp [hpos]
  · refine setHt_wf h ha hnew (fun r' hr he' _ => ?_) ?_ ?_
    · exact he'.set hb (by simp)
    · have hn := (hp1.map DictEntry.key).nodup_iff.mp h.nodup
      exact (hp2.map DictEntry.key).nodup_iff.mpr hn
    have hl2 := hp2.length_eq
    have hl1 := hp1.length_eq
    have hf := h.fits
    rw [size_eq h] at hf
    rw [hl2]
    rwa [hl1] at hf
  · cases ref.table <;> rfl

/-! ## Lookup -/

lemma ht0_ne_reset (hne : entries d ≠ []) : d.ht0 ≠ dictReset := by
  intro h0
  cases hi : d.rehashidx with
  | none => exact hne (by rw [entries, h0, h.idle hi]; rfl)
  | some r => exact (h.rehashing r hi).1 h0

end

section Lookup
variable [DecidableEq K]

lemma chainFind_some {key} : ∀ {b : Bucket K V} {pos : Nat} {he : DictEntry K V},
    chainFind key b = some (pos, he) → b[pos]? = some he ∧ he.key = key
  | [], _, _, h => by simp [chainFind] at h
  | x :: b, pos, he, h => by
    rw [chainFind] at h
    split at h
    · rename_i hk
      cases h
      exact ⟨rfl, hk.symm⟩
    obtain ⟨⟨q, y⟩, hq, hr⟩ := Option.map_eq_some_iff.mp h
    cases hr
    exact chainFind_some (b := b) hq

lemma chainFind_none {key} : ∀ {b : Bucket K V}, chainFind key b = none → ∀ x ∈ b, x.key ≠ key
  | [], _, _, hx => by cases hx
  | y :: b, h, x, hx => by
    rw [chainFind] at h
    split at h
    · cases h
    rename_i hk
    rcases mem_cons.mp hx with rfl | hx
    · exact fun hk' => hk hk'.symm
    · exact chainFind_none (b := b) (Option.map_eq_none_iff.mp h) x hx

lemma lookupTable_spec (key : K) {t bs} (ha : Allocated ty (d.ht t) bs e) :
    (∃ ref he, lookupTable ty d key t = .ok (.found ref he) ∧ PointsTo d ref he ∧ he.key = key) ∨
    (lookupTable ty d key t = .ok (.missing (hashIdx ty (d.ht t).sizeExp key)) ∧
      ∀ x ∈ tableEntries (d.ht t), x.key ≠ key) := by
  obtain ⟨b, hb, hl⟩ := ha.bucket (hashIdx_lt ty ha.exp_lt key)
  cases hc : chainFind key b with
  | some r =>
    obtain ⟨hpos, hk⟩ := chainFind_some hc
    refine .inl ⟨⟨t, hashIdx ty (some e) key, r.1⟩, r.2, ?_, ⟨b, ?_, hpos⟩, hk⟩
    · simp only [lookupTable, ha.sizeExp, hl, bind_ok, hc]
    rw [ha.table]
    exact hb
  | none =>
    refine .inr ⟨?_, fun x hx hk => ?_⟩
    · simp only [lookupTable, ha.sizeExp, hl, bind_ok, hc]
    rw [ha.entries_eq] at hx
    obtain ⟨c, hc', hxc⟩ := ha.placed.mem_flatten.mp hx
    rw [hk, hb] at hc'
    cases hc'
    exact chainFind_none hc x hxc hk

section
variable (mode : DictResizeEnable) (h : WellFormed ty d)
include h

lemma lookupEntry_spec (h0 : d.ht0 ≠ dictReset) (key : K) :
    (∃ ref he, lookupEntry ty d key = .ok (.found ref he) ∧ PointsTo d ref he ∧ he.key = key) ∨
    (lookupEntry ty d key = .ok (.missing (hashIdx ty (d.ht (dictIsRehashing d)).sizeExp key)) ∧
      ∀ x ∈ entries d, x.key ≠ key) := by
  obtain ⟨bs, e, ha⟩ := h.ok0.allocated h0
  rcases lookupTable_spec (d := d) (t := false) key ha with ⟨ref, he, hr, hp, hk⟩ | ⟨hr, hne⟩
  · exact .inl ⟨ref, he, by rw [lookupEntry, hr]; rfl, hp, hk⟩
  cases hi : d.rehashidx with
  | none =>
    have hre : dictIsRehashing d = false := by rw [dictIsRehashing, hi]; rfl
    refine .inr ⟨by rw [lookupEntry, hr, hre]; rfl, fun x hx => ?_⟩
    rcases mem_append.mp hx with hx | hx
    · exact hne x hx
    · rw [h.idle hi] at hx; cases hx
  | some r =>
    have hre : dictIsRehashing d = true := by rw [dictIsRehashing, hi]; rfl
    have hrun : lookupEntry ty d key = lookupTable ty d key true := by
      rw [lookupEntry, hr, hre]; rfl
    obtain ⟨bs', e', ha'⟩ := h.ok1.allocated (h.rehashing r hi).2.1
    rw [hrun, hre]
    rcases lookupTable_spec (d := d) (t := true) key ha' with ⟨ref, he, hr', hp, hk⟩ | ⟨hr', hne'⟩
    · exact .inl ⟨ref, he, hr', hp, hk⟩
    refine .inr ⟨hr', fun x hx => ?_⟩
    rcases mem_append.mp hx with hx | hx
    · exact hne x hx
    · exact hne' x hx

omit [DecidableEq K] in
lemma key_ne_of_empty (hz : dictSize d = 0) (key : K) :
    ∀ x ∈ entries d, x.key ≠ key := by
  rw [size_eq h] at hz
  rw [length_eq_zero_iff.mp hz]
  exact fun _ hx => absurd hx not_mem_nil

omit [DecidableEq K] in
lemma ht0_of_kept {d' : Dict K V} (hz : dictSize d ≠ 0)
    (hk : Kept ty d d') : d'.ht0 ≠ dictReset := by
  refine ht0_ne_reset hk.wf fun hnil => hz ?_
  rw [size_eq h, ← hk.perm.length_eq, hnil]
  rfl

lemma dictFind_spec (key : K) :
    ∃ d' res, dictFind ty mode d key = .ok (d', res) ∧ Kept ty d d' ∧
      match res with
      | some (ref, he) => PointsTo d' ref he ∧ he.key = key
      | none => ∀ x ∈ entries d, x.key ≠ key := by
  unfold dictFind
  by_cases hz : dictSize d = 0
  · rw [if_pos hz]
    exact ⟨d, none, rfl, Kept.refl h, key_ne_of_empty h hz key⟩
  rw [if_neg hz]
  obtain ⟨d', hs, hk⟩ := dictRehashStep_spec mode h
  rw [hs]
  rcases lookupEntry_spec hk.wf (ht0_of_kept h hz hk) key with ⟨ref, he, hr, hp, hkey⟩ | ⟨hr, hn⟩
  · exact ⟨d', some (ref, he), by simp only [bind_ok, hr], hk, hp, hkey⟩
  refine ⟨d', none, by simp only [bind_ok, hr], hk, fun x hx => ?_⟩
  exact hn x (hk.perm.mem_iff.mpr hx)

/-! ## Insertion and deletion -/

/-- `dictAddRaw` adds an entry without value for a new key, points to the old
entry for a known one, and otherwise the address space is full. -/
lemma dictAddRaw_spec (key : K) :
    (dictAddRaw ty mode d key = .error .memory ∧
      2 ^ 64 ≤ ((entries d).length + 1) * sizeofDictEntry) ∨
    (∃ d' ref, dictAddRaw ty mode d key = .ok (d', some ref, none) ∧ WellFormed ty d' ∧
      (∀ x ∈ entries d, x.key ≠ key) ∧ (entries d').Perm (⟨key, none⟩ :: entries d) ∧
      PointsTo d' ref ⟨key, none⟩ ∧ d'.pauserehash = d.pauserehash) ∨
    (∃ d' ref he, dictAddRaw ty mode d key = .ok (d', none, some ref) ∧ Kept ty d d' ∧
      PointsTo d' ref he ∧ he.key = key) := by
  obtain ⟨d1, hs, hk1⟩ := dictRehashStep_spec mode h
  obtain ⟨hok, h0⟩ := dictExpandIfNeeded_spec mode hk1.wf
  have hk := hk1.trans ((grown_expandIfNeeded ty mode d1).kept hk1.wf)
  obtain ⟨d2, hd2⟩ : ∃ d2, dictExpandIfNeeded ty mode d1 = (d2, true) := ⟨_, Prod.ext rfl hok⟩
  rw [hd2] at hk h0
  rcases lookupEntry_spec hk.wf h0 key with ⟨ref, he, hr, hp, hkey⟩ | ⟨hr, hn⟩
  · refine .inr (.inr ⟨d2, ref, he, ?_, hk, hp, hkey⟩)
    simp only [dictAddRaw, hs, bind_ok, dictKeyIndex, hd2, hr]
  -- the table new entries go to is allocated, and nothing in it is below rehashidx
  obtain ⟨t, ht⟩ : ∃ t, t = dictIsRehashing d2 := ⟨_, rfl⟩
  have hnr : d2.ht t ≠ dictReset := by
    cases hi : d2.rehashidx with
    | none => rw [ht, dictIsRehashing, hi]; exact h0
    | some r => rw [ht, dictIsRehashing, hi]; exact (hk.wf.rehashing r hi).2.1
  obtain ⟨bs, e, ha⟩ := (ht_ok hk.wf _).allocated hnr
  obtain ⟨b, hl, hb, hnew⟩ := ha.push (⟨key, none⟩ : DictEntry K V)
  obtain ⟨other, hd, hperm⟩ := entries_ht d2 t
  generalize hT : ({ (d2.ht t).setBucket (hashIdx ty (some e) key) (⟨key, none⟩ :: b) with
    used := (d2.ht t).used + 1 } : Table K V) = T at hnew
  have hp : (entries (d2.setHt t T)).Perm (⟨key, none⟩ :: entries d) := by
    refine (hperm _).trans ?_
    rw [hnew.entries_eq]
    refine ((perm_push _ hb).append_right other).trans ?_
    refine List.Perm.cons _ (List.Perm.trans ?_ hk.perm)
    rw [← ha.entries_eq]
    exact hd.symm
  have hlen : (entries d2).length = (entries d).length := hk.perm.length_eq
  by_cases hf : ((entries d).length + 1) * sizeofDictEntry < 2 ^ 64
  · refine .inr (.inl ⟨d2.setHt t T, ⟨t, hashIdx ty (some e) key, 0⟩, ?_, ?_, ?_, hp, ?_, ?_⟩)
    · have hz : zmallocEntry d2 = .ok () := by
        rw [zmallocEntry, size_eq hk.wf, hlen, if_pos hf]
      simp only [dictAddRaw, hs, bind_ok, dictKeyIndex, hd2, hr, hz, ← ht, ha.sizeExp, hl, ← hT]
    · refine setHt_wf hk.wf ha hnew (fun r hi _ hfalse => ?_) ?_ ?_
      · rw [ht, dictIsRehashing, hi] at hfalse; cases hfalse
      · refine (hp.map DictEntry.key).nodup_iff.mpr ?_
        rw [map_cons, nodup_cons]
        refine ⟨fun hm => ?_, h.nodup⟩
        obtain ⟨x, hx, hxk⟩ := mem_map.mp hm
        exact hn x (hk.perm.mem_iff.mpr hx) hxk
      · rw [hp.length_eq]; exact hf
    · intro x hx
      exact hn x (hk.perm.mem_iff.mpr hx)
    · refine ⟨⟨key, none⟩ :: b, ?_, rfl⟩
      have hself : (d2.setHt t T).ht t = T := by cases t <;> rfl
      rw [hself, hnew.table]
      exact getElem?_set_self (List.getElem?_eq_some_iff.mp hb).1
    · rw [← hk.pause]
      cases t <;> rfl
  · refine .inl ⟨?_, Nat.le_of_not_lt hf⟩
    have hz : zmallocEntry d2 = .error .memory := by
      rw [zmallocEntry, size_eq hk.wf, hlen, if_neg hf]
    simp only [dictAddRaw, hs, bind_ok, dictKeyIndex, hd2, hr, hz, bind_error]

end

omit [DecidableEq K] in
lemma eraseIdx_middle (l : Bucket K V) (he : DictEntry K V) (r : Bucket K V) :
    (l ++ he :: r).eraseIdx l.length = l ++ r := by
  rw [eraseIdx_append_of_length_le le_rfl, Nat.sub_self]
  rfl

lemma dictGenericDelete_spec (mode : DictResizeEnable) (h : WellFormed ty d) (key : K) :
    (∃ d', dictGenericDelete ty mode d key = .ok (d', none) ∧ Kept ty d d' ∧
      ∀ x ∈ entries d, x.key ≠ key) ∨
    (∃ d' he, dictGenericDelete ty mode d key = .ok (d', some he) ∧ WellFormed ty d' ∧
      he.key = key ∧ (entries d).Perm (he :: entries d') ∧
      d'.pauserehash = d.pauserehash) := by
  by_cases hz : dictSize d = 0
  · exact .inl ⟨d, by rw [dictGenericDelete, if_pos hz], Kept.refl h, key_ne_of_empty h hz key⟩
  obtain ⟨d1, hs, hk⟩ := dictRehashStep_spec mode h
  rcases lookupEntry_spec hk.wf (ht0_of_kept h hz hk) key with ⟨ref, he, hr, hp, hkey⟩ | ⟨hr, hn⟩
  · obtain ⟨bs, e, l, r, ha, hb, hl, hpos⟩ := hp.split hk.wf
    obtain ⟨other, hd, hT⟩ := entries_ht d1 ref.table
    have hun := perm_unlink hb
    have hnew : Allocated ty { (d1.ht ref.table).setBucket ref.idx (l ++ r) with
        used := (d1.ht ref.table).used - 1 } (bs.set ref.idx (l ++ r)) e := by
      refine ha.setBucket (fun x hx => ?_) ?_
      · refine ha.placed _ _ hb x ?_
        rcases mem_append.mp hx with hx | hx
        · exact mem_append_left _ hx
        · exact mem_append_right _ (mem_cons_of_mem _ hx)
      · rw [ha.count, hun.length_eq, length_cons, Nat.add_sub_cancel]
    have hp1 : (entries d).Perm (he :: entries (d1.setHt ref.table
        { (d1.ht ref.table).setBucket ref.idx (l ++ r) with
          used := (d1.ht ref.table).used - 1 })) := by
      refine hk.perm.symm.trans (hd.trans ?_)
      rw [ha.entries_eq]
      refine (hun.append_right other).trans (List.Perm.cons _ ?_)
      rw [← hnew.entries_eq]
      exact (hT _).symm
    refine .inr ⟨_, he, ?_, ?_, hkey, hp1, ?_⟩
    · simp only [dictGenericDelete, hz, if_false, hs, bind_ok, hr, hl, hpos, eraseIdx_middle]
    · refine setHt_wf hk.wf ha hnew (fun r' _ he' _ => he'.set hb (by simp)) ?_ ?_
      · have hn := (hp1.map DictEntry.key).nodup_iff.mp h.nodup
        exact (nodup_cons.mp hn).2
      have hf := h.fits
      rw [size_eq h, hp1.length_eq, length_cons] at hf
      unfold sizeofDictEntry at hf ⊢
      omega
    · rw [← hk.pause]
      cases ref.table <;> rfl
  · refine .inl ⟨d1, ?_, hk, fun x hx => hn x (hk.perm.mem_iff.mpr hx)⟩
    simp only [dictGenericDelete, hz, if_false, hs, bind_ok, hr]

end Lookup

end Redis.Dictionary.Operations
