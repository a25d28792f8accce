import Redis.Lib.ReverseCursor
import Redis.Dictionary.Refinement

/-! # Stateless iteration: dictScan

A cursor is all a client keeps between two calls, and the dict may be resized
or be half migrated at the next call. The invariant that makes the iteration
complete is about the reversed cursor: an entry present all the time has been
reported, or its reversed hash is not below the reversed cursor. -/
namespace Redis.Dictionary.Scan
open List Lib Outcome Lib.Buckets Lib.ReverseCursor
open Model Invariant Operations
open Refinement

variable {K V : Type} {ty : DictType K}

/-! ## The code -/

/-- The loop of `rev`; the shift `s` starts at the word size, `2 ^ 6`, and is
halved until nothing is left of it. -/
def revLoop : (j : Nat) → (mask v : BitVec 64) → BitVec 64
  | 0, _, v => v
  | j + 1, mask, v =>
    let s := 2 ^ j
    let mask := mask ^^^ (mask <<< s)
    revLoop j mask (((v >>> s) &&& mask) ||| ((v <<< s) &&& ~~~mask))

def rev (v : BitVec 64) : BitVec 64 := revLoop 6 (BitVec.allOnes 64) v

/-- `v |= ~m; v = rev(v); v++; v = rev(v)`. -/
def nextCursor (m v : BitVec 64) : BitVec 64 := rev (rev (v ||| ~~~m) + 1)

/-- The `do ... while` over the buckets of the larger table that expand one
bucket of the smaller. -/
def scanLarger (t : Table K V) (m0 m1 : BitVec 64) :
    (fuel : Nat) → (v : BitVec 64) → Outcome (BitVec 64 × List (DictEntry K V))
  | 0, _ => .error .loop
  | fuel + 1, v => do
    let de ← t.bucket (v &&& m1).toNat
    let v := nextCursor m1 v
    if v &&& (m0 ^^^ m1) ≠ 0 then do
      let (v, rest) ← scanLarger t m0 m1 fuel v
      .ok (v, de ++ rest)
    else .ok (v, de)

/-- `dictScan`: the new cursor, and the entries given to the callback in
order. The pause around the body ends before it returns. -/
def dictScan (d : Dict K V) (v : BitVec 64) : Outcome (BitVec 64 × List (DictEntry K V)) :=
  if dictSize d = 0 then .ok (0, [])
  else if dictIsRehashing d = false then do
    let m0 := dicthtSizeMask d.ht0.sizeExp
    let de ← d.ht0.bucket (v &&& m0).toNat
    .ok (nextCursor m0 v, de)
  else do
    let swap := decide (dicthtSize d.ht1.sizeExp < dicthtSize d.ht0.sizeExp)
    let t0 := d.ht swap
    let t1 := d.ht (!swap)
    let m0 := dicthtSizeMask t0.sizeExp
    let m1 := dicthtSizeMask t1.sizeExp
    let de ← t0.bucket (v &&& m0).toNat
    let (v, rest) ← scanLarger t1 m0 m1 (dicthtSize t1.sizeExp) v
    .ok (v, de ++ rest)

/-! ## Bit reversal -/

/-- The mask of the round with shift `2 ^ j`. -/
def roundMask : Nat → BitVec 64
  | 0 => 0x5555555555555555
  | 1 => 0x3333333333333333
  | 2 => 0x0F0F0F0F0F0F0F0F
  | 3 => 0x00FF00FF00FF00FF
  | 4 => 0x0000FFFF0000FFFF
  | 5 => 0x00000000FFFFFFFF
  | _ => BitVec.allOnes 64

lemma roundMask_step : ∀ j < 6,
    roundMask (j + 1) ^^^ (roundMask (j + 1) <<< 2 ^ j) = roundMask j := by decide

lemma roundMask_getLsbD : ∀ j < 6, ∀ i < 64, (roundMask j).getLsbD i = !i.testBit j := by decide

lemma xor_pow_of_testBit : ∀ j < 6, ∀ i < 64,
    if i.testBit j then 2 ^ j ≤ i ∧ i - 2 ^ j = i ^^^ 2 ^ j
    else 2 ^ j + i = i ^^^ 2 ^ j ∧ 2 ^ j + i < 64 := by decide

/-- One round exchanges the bits whose places differ in bit `j`. -/
lemma round_getLsbD {j : Nat} (hj : j < 6) (v : BitVec 64) {i : Nat} (hi : i < 64) :
    (((v >>> 2 ^ j) &&& roundMask j) ||| ((v <<< 2 ^ j) &&& ~~~roundMask j)).getLsbD i =
      v.getLsbD (i ^^^ 2 ^ j) := by
  have hx := xor_pow_of_testBit j hj i hi
  simp only [BitVec.getLsbD_or, BitVec.getLsbD_and, BitVec.getLsbD_not,
    BitVec.getLsbD_shiftLeft, roundMask_getLsbD j hj i hi]
  cases hb : i.testBit j with
  | true =>
    rw [hb] at hx
    obtain ⟨hle, heq⟩ := hx
    simp [hi, Nat.not_lt.mpr hle, heq]
  | false =>
    rw [hb] at hx
    simp [hx.1]

/-- The places exchanged by the rounds from `2 ^ (j - 1)` down to 1. -/
def flips : Nat → Nat → Nat
  | 0, i => i
  | j + 1, i => flips j i ^^^ 2 ^ j

lemma flips_lt : ∀ j ≤ 6, ∀ i < 64, flips j i < 64 := by decide

lemma revLoop_getLsbD : ∀ (j : Nat), j ≤ 6 → ∀ (v : BitVec 64) (i : Nat), i < 64 →
    (revLoop j (roundMask j) v).getLsbD i = v.getLsbD (flips j i)
  | 0, _, _, _, _ => rfl
  | j + 1, hj, v, i, hi => by
    have hj' : j < 6 := hj
    rw [revLoop]
    simp only [roundMask_step j hj']
    rw [revLoop_getLsbD j hj'.le _ i hi, round_getLsbD hj' v (flips_lt j hj'.le i hi), flips]

lemma flips_six : ∀ i < 64, flips 6 i = 63 - i := by decide

lemma rev_eq_reverse (v : BitVec 64) : rev v = v.reverse := by
  apply BitVec.eq_of_getLsbD_eq
  intro i hi
  have hrun := revLoop_getLsbD 6 (Nat.le_refl 6) v i hi
  rw [flips_six i hi] at hrun
  rw [rev, show BitVec.allOnes 64 = roundMask 6 from rfl, hrun, BitVec.getLsbD_reverse,
    BitVec.getMsbD_eq_getLsbD]
  simp [hi]

lemma nextCursor_eq (m v : BitVec 64) : nextCursor m v = next m v := by
  rw [nextCursor, ReverseCursor.next, rev_eq_reverse, rev_eq_reverse]

/-! ## One call -/

def rank (ty : DictType K) (x : DictEntry K V) : Nat := order (ty.hashFunction x.key)

/-- The bucket at a cursor holds the entries of the table whose rank is in the
cursor's slot. -/
lemma slot_spec {t : Table K V} {bs : List (Bucket K V)} {e k : Nat}
    (ha : Allocated ty t bs e) (hk : e + k = 64) (v : BitVec 64) :
    ∃ b, t.bucket (v &&& dicthtSizeMask (some e)).toNat = .ok b ∧ (∀ x ∈ b, x ∈ tableEntries t) ∧
      ∀ x ∈ tableEntries t, rank ty x / 2 ^ k = order v / 2 ^ k → x ∈ b := by
  have hm := dicthtSizeMask_toNat ha.exp_lt
  have hlt : (v &&& dicthtSizeMask (some e)).toNat < 2 ^ e := by
    rw [BitVec.toNat_and, hm, Nat.and_two_pow_sub_one_eq_mod]
    exact Nat.mod_lt _ (Nat.two_pow_pos e)
  obtain ⟨b, hb, hl⟩ := ha.bucket hlt
  rw [ha.entries_eq]
  refine ⟨b, hl, fun x hx => mem_flatten.mpr ⟨b, mem_of_getElem? hb, hx⟩, ?_⟩
  intro x hx hr
  obtain ⟨c, hc, hxc⟩ := ha.placed.mem_flatten.mp hx
  rw [hashIdx, and_mask_eq hk hm hr, hb] at hc
  cases hc
  exact hxc

lemma scanLarger_spec {t : Table K V} {bs : List (Bucket K V)}
    {e0 e1 k0 k1 : Nat} (ha : Allocated ty t bs e1) (he0 : e0 < 64) (hle : e0 ≤ e1)
    (hk0 : e0 + k0 = 64) (hk1 : e1 + k1 = 64) : ∀ (fuel : Nat) (v : BitVec 64),
    2 ^ (e1 - e0) - order v / 2 ^ k1 % 2 ^ (e1 - e0) ≤ fuel →
    ∃ v' es, scanLarger t (dicthtSizeMask (some e0)) (dicthtSizeMask (some e1)) fuel v =
        .ok (v', es) ∧
      order v' = 2 ^ k0 * (order v / 2 ^ k0 + 1) % 2 ^ 64 ∧
      (∀ x ∈ es, x ∈ tableEntries t) ∧
      ∀ x ∈ tableEntries t, order v / 2 ^ k1 ≤ rank ty x / 2 ^ k1 →
        rank ty x / 2 ^ k0 = order v / 2 ^ k0 → x ∈ es := by
  have hm0 := dicthtSizeMask_toNat he0
  have hm1 := dicthtSizeMask_toNat ha.exp_lt
  have hD := Nat.two_pow_pos (e1 - e0)
  intro fuel
  induction fuel with
  | zero =>
    intro v hf
    omega
  | succ fuel ih =>
    intro v hf
    obtain ⟨b, hl, hsub, hb⟩ := slot_spec ha hk1 v
    have htest := and_xor_eq_zero_iff hk0 hk1 hm0 hm1 hle (order_next_mod hk1 hm1 v)
    simp only [scanLarger, hl, bind_ok, nextCursor_eq]
    rcases Nat.lt_or_ge (order v / 2 ^ k1 % 2 ^ (e1 - e0) + 1) (2 ^ (e1 - e0)) with hr | hr
    · obtain ⟨hslot, hsame, hmod, hne⟩ := next_inner hk0 hk1 hm1 hle hr
      obtain ⟨v', es, hrun, hv', hsub', hes⟩ := ih (next (dicthtSizeMask (some e1)) v) (by omega)
      rw [if_pos (fun h => hne (htest.mp h)), hrun]
      refine ⟨v', b ++ es, rfl, by rw [hv', hsame], ?_, ?_⟩
      · exact forall_mem_append.mpr ⟨hsub, hsub'⟩
      intro x hx hge hsm
      rcases Nat.eq_or_lt_of_le hge with heq | hlt
      · exact mem_append_left _ (hb x hx heq.symm)
      refine mem_append_right _ (hes x hx ?_ (hsm.trans hsame.symm))
      omega
    have hr' : order v / 2 ^ k1 % 2 ^ (e1 - e0) + 1 = 2 ^ (e1 - e0) := by omega
    obtain ⟨hord, hzero⟩ := next_last hk0 hk1 hm1 hle hr'
    rw [if_neg (fun h => h (htest.mpr hzero))]
    refine ⟨_, b, rfl, hord, hsub, fun x hx hge hsm => hb x hx ?_⟩
    -- the cursor is in the last of the slots its slot of the smaller mask expands to
    have hs := pow_split hk0 hk1 hle
    rw [hs, ← Nat.div_div_eq_div_mul, ← Nat.div_div_eq_div_mul] at hsm
    have h1 := Nat.div_add_mod (rank ty x / 2 ^ k1) (2 ^ (e1 - e0))
    have h2 := Nat.div_add_mod (order v / 2 ^ k1) (2 ^ (e1 - e0))
    rw [hsm] at h1
    omega

/-- A call reports every entry whose rank the cursor passes, and no entry that
is not in the dict. -/
lemma dictScan_spec {d : Dict K V} (h : WellFormed ty d) (v : BitVec 64) :
    ∃ v' es, dictScan d v = .ok (v', es) ∧ (∀ x ∈ es, x ∈ entries d) ∧
      ∀ x ∈ entries d, order v ≤ rank ty x → (order v' = 0 ∨ rank ty x < order v') → x ∈ es := by
  unfold dictScan
  by_cases hz : dictSize d = 0
  · rw [if_pos hz]
    rw [size_eq h, length_eq_zero_iff] at hz
    exact ⟨0, [], rfl, by simp, by simp [hz]⟩
  rw [if_neg hz]
  have hne : entries d ≠ [] := fun hnil => hz (by rw [size_eq h, hnil]; rfl)
  obtain ⟨bs0, f0, ha0⟩ := h.ok0.allocated (ht0_ne_reset h hne)
  cases hi : d.rehashidx with
  | none =>
    have hre : dictIsRehashing d = false := by rw [dictIsRehashing, hi]; rfl
    have hk : f0 + (64 - f0) = 64 := by have := ha0.exp_lt; omega
    have hent : entries d = tableEntries d.ht0 := by
      rw [entries, h.idle hi]
      exact append_nil _
    obtain ⟨b, hl, hsub, hb⟩ := slot_spec ha0 hk v
    rw [if_pos hre, hent, ha0.sizeExp]
    simp only [hl, nextCursor_eq]
    refine ⟨_, b, rfl, hsub, fun x hx hle hlt => hb x hx ?_⟩
    exact slot_of_between hk (order_next hk (dicthtSizeMask_toNat ha0.exp_lt) v) hle hlt
  | some r =>
    have hre : ¬ dictIsRehashing d = false := by rw [dictIsRehashing, hi]; simp
    obtain ⟨bs1, f1, ha1⟩ := h.ok1.allocated (h.rehashing r hi).2.1
    rw [if_neg hre]
    -- both choices of the smaller table lead to one statement about `t0` and `t1`
    obtain ⟨swap, hswap⟩ : ∃ swap, swap =
      decide (dicthtSize d.ht1.sizeExp < dicthtSize d.ht0.sizeExp) := ⟨_, rfl⟩
    have hsorted : ∃ e0 e1 cs0 cs1, e0 ≤ e1 ∧ Allocated ty (d.ht swap) cs0 e0 ∧
        Allocated ty (d.ht (!swap)) cs1 e1 := by
      rw [ha0.sizeExp, ha1.sizeExp] at hswap
      cases swap with
      | true =>
        refine ⟨f1, f0, bs1, bs0, ?_, ha1, ha0⟩
        have := of_decide_eq_true hswap.symm
        exact Nat.le_of_lt ((Nat.pow_lt_pow_iff_right (by omega)).mp this)
      | false =>
        refine ⟨f0, f1, bs0, bs1, ?_, ha0, ha1⟩
        have := of_decide_eq_false hswap.symm
        exact (Nat.pow_le_pow_iff_right (by omega)).mp (Nat.le_of_not_lt this)
    obtain ⟨e0, e1, cs0, cs1, hle, hb0, hb1⟩ := hsorted
    have hk0 : e0 + (64 - e0) = 64 := by have := hb0.exp_lt; omega
    have hk1 : e1 + (64 - e1) = 64 := by have := hb1.exp_lt; omega
    obtain ⟨b, hl, hsub, hb⟩ := slot_spec hb0 hk0 v
    obtain ⟨v', es, hrun, hv', hsub', hes⟩ := scanLarger_spec hb1 hb0.exp_lt hle hk0 hk1
      (2 ^ e1) v (Nat.le_trans (Nat.sub_le _ _) (Nat.pow_le_pow_right (by omega) (Nat.sub_le _ _)))
    have hmem : ∀ x, x ∈ entries d ↔ x ∈ tableEntries (d.ht swap) ∨
        x ∈ tableEntries (d.ht (!swap)) := by
      intro x
      rw [entries, mem_append]
      cases swap with
      | false => exact Iff.rfl
      | true => exact Or.comm
    rw [← hswap]
    simp only [hb0.sizeExp, hb1.sizeExp, hl, dicthtSize, hrun]
    refine ⟨v', b ++ es, rfl, ?_, fun x hx hge hlt => ?_⟩
    · exact forall_mem_append.mpr ⟨fun x hx => (hmem x).mpr (.inl (hsub x hx)),
        fun x hx => (hmem x).mpr (.inr (hsub' x hx))⟩
    have hslot : rank ty x / 2 ^ (64 - e0) = order v / 2 ^ (64 - e0) :=
      slot_of_between hk0 hv' hge hlt
    rcases (hmem x).mp hx with hx | hx
    · exact mem_append_left _ (hb x hx hslot)
    · exact mem_append_right _ (hes x hx (Nat.div_le_div_right hge) hslot)

/-! ## Complete iterations -/

/-- What may happen between two calls: any operation on the dict, and a resize
to any power of two. -/
inductive Change (K V : Type) where
  | op (o : Op K V)
  | resizeTo (e : Fin 64)

section Runs
variable [DecidableEq K] {s : State K V}

def Change.apply (ty : DictType K) : Change K V → State K V → Outcome (State K V)
  | .op o, s => do
    let (s, _) ← step ty o s
    .ok s
  | .resizeTo e, s =>
    if dictIsRehashing s.d then .ok s else .ok { s with d := dictSetupTable s.d e }

def applyAll (ty : DictType K) : List (Change K V) → State K V → Outcome (State K V)
  | [], s => .ok s
  | c :: cs, s => do
    let s ← c.apply ty s
    applyAll ty cs s

/-- One call of `dictScan`: the dict it saw and what it reported. -/
structure Call (K V : Type) where
  dict : Dict K V
  reported : List (DictEntry K V)

/-- The calls from a cursor on, with changes between them, up to the call that
returns 0. -/
inductive Iteration (ty : DictType K) : State K V → BitVec 64 → List (Call K V) → Prop where
  | last {s : State K V} {v : BitVec 64} {es : List (DictEntry K V)}
      (call : dictScan s.d v = .ok (0, es)) : Iteration ty s v [⟨s.d, es⟩]
  | more {s s' : State K V} {v v' : BitVec 64} {es : List (DictEntry K V)}
      {changes : List (Change K V)} {calls : List (Call K V)}
      (call : dictScan s.d v = .ok (v', es)) (cursor : v' ≠ 0)
      (between : applyAll ty changes s = .ok s') (rest : Iteration ty s' v' calls) :
      Iteration ty s v (⟨s.d, es⟩ :: calls)

lemma step_wf {op : Op K V} {s' : State K V} {r : Reply V}
    (h : WellFormed ty s.d) (hs : step ty op s = .ok (s', r)) : WellFormed ty s'.d := by
  -- any well formed dict stores some map, so the step lemma applies
  have hst : Stores s.d fun k => ((entries s.d).find? fun x => x.key = k).map DictEntry.val :=
    stores_find h
  rcases step_simulates ty _ op s _ ⟨h, hst, le_rfl⟩ with ⟨s'', hr, hrel⟩ | ⟨f, hr, _⟩
  · rw [hs] at hr
    cases hr
    exact hrel.wf
  rw [hs] at hr
  cases hr

lemma Change.apply_wf {c : Change K V} {s' : State K V}
    (h : WellFormed ty s.d) (hs : c.apply ty s = .ok s') : WellFormed ty s'.d := by
  cases c with
  | op o =>
    obtain ⟨⟨s1, r⟩, hstep, hret⟩ := bind_eq_ok.mp hs
    cases hret
    exact step_wf h hstep
  | resizeTo e =>
    rw [Change.apply] at hs
    split at hs
    · cases hs; exact h
    rename_i hre
    cases hs
    refine (dictSetupTable_spec h ?_ e.isLt).1.wf
    simpa [dictIsRehashing] using hre

lemma applyAll_wf : ∀ {cs : List (Change K V)} {s s' : State K V},
    WellFormed ty s.d → applyAll ty cs s = .ok s' → WellFormed ty s'.d
  | [], s, s', h, hs => by cases hs; exact h
  | c :: cs, s, s', h, hs => by
    obtain ⟨s1, h1, h2⟩ := bind_eq_ok.mp hs
    exact applyAll_wf (Change.apply_wf h h1) h2

/-- From any cursor: a key present at every call, whose rank is not below the
cursor, is reported. -/
lemma iteration_reports {v : BitVec 64} {calls : List (Call K V)} (run : Iteration ty s v calls) :
    WellFormed ty s.d → ∀ key : K, order v ≤ order (ty.hashFunction key) →
      (∀ c ∈ calls, ∃ x ∈ entries c.dict, x.key = key) →
      ∃ c ∈ calls, ∃ x ∈ c.reported, x ∈ entries c.dict ∧ x.key = key := by
  induction run with
  | @last s v es call =>
    intro h key hle hpres
    obtain ⟨x, hx, rfl⟩ := hpres _ (mem_singleton_self _)
    obtain ⟨v', es', hrun, hsub, hes⟩ := dictScan_spec h v
    rw [call] at hrun
    cases hrun
    exact ⟨_, mem_singleton_self _, x, hes x hx hle (.inl order_zero), hx, rfl⟩
  | @more s s' v v' es changes calls call cursor between rest ih =>
    intro h key hle hpres
    obtain ⟨x, hx, rfl⟩ := hpres _ mem_cons_self
    obtain ⟨v1, es1, hrun, hsub, hes⟩ := dictScan_spec h v
    rw [call] at hrun
    cases hrun
    -- either this call passes the rank, or the cursor is still not above it
    rcases Nat.lt_or_ge (rank ty x) (order v') with hlt | hge
    · exact ⟨_, mem_cons_self .., x, hes x hx hle (.inr hlt), hx, rfl⟩
    obtain ⟨c, hc, hrep⟩ := ih (applyAll_wf h between) x.key hge
      (forall_mem_cons.mp hpres).2
    exact ⟨c, mem_cons_of_mem _ hc, hrep⟩

/-- Every key that is in the dict at each call of a complete iteration from
cursor 0 is reported, with the entry it has then. -/
theorem scan_reports_every_key (ty : DictType K) {s : State K V} {calls : List (Call K V)}
    (h : WellFormed ty s.d) (run : Iteration ty s 0 calls) (key : K)
    (hpres : ∀ c ∈ calls, ∃ x ∈ entries c.dict, x.key = key) :
    ∃ c ∈ calls, ∃ x ∈ c.reported, x ∈ entries c.dict ∧ x.key = key :=
  iteration_reports run h key (by rw [order_zero]; exact Nat.zero_le _) hpres

end Runs

/-! A table of four buckets with one entry, in the second bucket. -/

def sampleType : DictType Bool := ⟨fun k => if k then 1 else 0, none⟩

def sampleState : State Bool Nat :=
  ⟨⟨⟨some [[], [⟨true, some 7⟩], [], []], 1, some 2⟩, dictReset, none, 0⟩, .enable⟩

lemma sampleState_wf : WellFormed sampleType sampleState.d where
  ok0 := by
    refine .inr ⟨_, 2, rfl, rfl, by decide, rfl, ?_, rfl⟩
    intro i b hb x hx
    match i with
    | 0 => cases hb; cases hx
    | 1 => cases hb; rw [mem_singleton.mp hx]; rfl
    | 2 => cases hb; cases hx
    | 3 => cases hb; cases hx
    | i + 4 => cases hb
  ok1 := Or.inl rfl
  idle := fun _ => rfl
  rehashing := nofun
  nodup := by decide
  fits := by decide

/-- After the first call the table starts to grow; the third call finds the entry in the old
table. -/
theorem scan_reports_every_key_sample :
    ∃ c ∈ ([⟨sampleState.d, []⟩, ⟨dictSetupTable sampleState.d 3, []⟩,
        ⟨dictSetupTable sampleState.d 3, [⟨true, some 7⟩]⟩, ⟨dictSetupTable sampleState.d 3, []⟩] :
        List (Call Bool Nat)), ∃ x ∈ c.reported, x ∈ entries c.dict ∧ x.key = true := by
  have first : dictScan sampleState.d 0 = .ok (2, []) := rfl
  have grow : applyAll sampleType [.resizeTo 3] sampleState =
      .ok { sampleState with d := dictSetupTable sampleState.d 3 } := rfl
  have second : dictScan (dictSetupTable sampleState.d 3) 2 = .ok (1, []) := rfl
  have third : dictScan (dictSetupTable sampleState.d 3) 1 = .ok (3, [⟨true, some 7⟩]) := rfl
  have fourth : dictScan (dictSetupTable sampleState.d 3) 3 = .ok (0, []) := rfl
  have still (s : State Bool Nat) : applyAll sampleType [] s = .ok s := rfl
  exact scan_reports_every_key sampleType sampleState_wf
    (.more first (by decide) grow (.more second (by decide) (still _)
      (.more third (by decide) (still _) (.last fourth)))) true (by decide)

end Redis.Dictionary.Scan
