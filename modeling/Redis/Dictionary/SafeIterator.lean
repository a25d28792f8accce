import Redis.Lib.ChainWalk
import Redis.Dictionary.Refinement
import Mathlib.Data.List.Pairwise

/-! # Safe iteration: dictNext

A safe iterator pauses the migration with its first step, so that between two steps an entry
stays in its bucket and only the ends of the tables change: a new entry goes on top of a chain,
and an expansion adds a table behind the first one. The iterator keeps the address of the next
entry, which its user must not delete. -/
namespace Redis.Dictionary.SafeIterator
open List Lib Lib.ChainWalk
open Model Invariant Operations

variable {K V : Type} {ty : DictType K} {d : Dict K V} {i : Nat}

/-! ## The code -/

/-- The address of an entry: no two entries of a dict have the same key, and `gen` tells the
entries apart that had the key one after the other. -/
structure Address (K : Type) where
  key : K
  gen : Nat
deriving DecidableEq, Repr

/-- How many entries were allocated for a key so far, which is the `gen` of the last one. -/
abbrev Allocations (K : Type) := K → Nat

def addressOf (gens : Allocations K) (key : K) : Address K := ⟨key, gens key⟩

/-- `dictIterator` with `safe` set; `index` is `none` for -1. -/
structure DictIterator (K : Type) where
  table : Bool
  index : Option Nat
  entry : Option (Address K)
  nextEntry : Option (Address K)
deriving DecidableEq, Repr

def dictGetSafeIterator : DictIterator K := ⟨false, none, none, none⟩

def int16 (n : Int) : Int := n.bmod (2 ^ 16)

def dictPauseRehashing (d : Dict K V) : Dict K V :=
  { d with pauserehash := int16 (d.pauserehash + 1) }

def dictResumeRehashing (d : Dict K V) : Dict K V :=
  { d with pauserehash := int16 (d.pauserehash - 1) }

/-- The keys of the chains of both tables, in the order of the buckets. -/
def chainKeys (d : Dict K V) : List (List K) :=
  (d.ht0.table.getD [] ++ d.ht1.table.getD []).map (·.map DictEntry.key)

section Next
variable [DecidableEq K]

def chainOf (d : Dict K V) (key : K) : Option (List K) :=
  (chainKeys d).find? fun chain => chain.contains key

def successor (key : K) : List K → Option K
  | [] => none
  | k :: chain => if k = key then chain.head? else successor key chain

/-- `entry->next`. The load fails where the entry was freed. -/
def entryNext (d : Dict K V) (gens : Allocations K) (p : Address K) :
    Outcome (Option (Address K)) :=
  match chainOf d p.key with
  | none => .error .bounds
  | some chain =>
    if gens p.key = p.gen then .ok ((successor p.key chain).map (addressOf gens))
    else .error .bounds

/-- The end of a round of `dictNext` with an entry in hand. -/
def returnEntry (d : Dict K V) (gens : Allocations K) (it : DictIterator K) (p : Address K) :
    Outcome (Dict K V × DictIterator K × Option (Address K)) := do
  let next ← entryNext d gens p
  .ok (d, { it with entry := some p, nextEntry := next }, some p)

/-- The next bucket, or `none` for the `break`. -/
def nextBucket (d : Dict K V) (table : Bool) (index : Nat) : Option (Bool × Nat) :=
  if dicthtSize (d.ht table).sizeExp ≤ index then
    if dictIsRehashing d ∧ table = false then some (true, 0) else none
  else some (table, index)

def startIteration (d : Dict K V) (it : DictIterator K) : Dict K V :=
  if it.index = none ∧ it.table = false then dictPauseRehashing d else d

def succIndex : Option Nat → Nat
  | none => 0
  | some i => i + 1

/-- The rounds of `dictNext` that find `entry` null, from bucket `index` of a table on. -/
def scanBuckets (gens : Allocations K) (d : Dict K V) (it : DictIterator K) :
    (rounds : Nat) → (table : Bool) → (index : Nat) →
    Outcome (Dict K V × DictIterator K × Option (Address K))
  | 0, _, _ => .error .loop
  | rounds + 1, table, index =>
    match nextBucket d table index with
    | none => .ok (d, { it with table, index := some index, entry := none }, none)
    | some (table, index) => do
      let b ← (d.ht table).bucket index
      match b with
      | [] => scanBuckets gens d it rounds table (index + 1)
      | he :: _ =>
        returnEntry d gens { it with table, index := some index } (addressOf gens he.key)

/-- `dictNext`. Only its first round can follow a saved entry, and no bucket is passed twice. -/
def dictNext (gens : Allocations K) (d : Dict K V) (it : DictIterator K) :
    Outcome (Dict K V × DictIterator K × Option (Address K)) :=
  match it.entry, it.nextEntry with
  | some _, some p => returnEntry d gens it p
  | _, _ =>
    scanBuckets gens (startIteration d it) it
      (dicthtSize d.ht0.sizeExp + dicthtSize d.ht1.sizeExp + 1) it.table (succIndex it.index)

end Next

def dictReleaseIterator (d : Dict K V) (it : DictIterator K) : Dict K V :=
  if it.index = none ∧ it.table = false then d else dictResumeRehashing d

/-! ## An iterator and its user -/

/-- A dict with the iterator, the number of other safe iterators that were advanced and not
released, and what the iterator returned so far. -/
structure World (K V : Type) where
  d : Dict K V
  gens : Allocations K
  it : DictIterator K
  others : Nat
  returned : List (Address K)
  exhausted : Bool

/-- What happens between two steps of the iterator, and such a step. `dict_can_resize` may be
another one each time. -/
inductive Event (K V : Type) where
  | next
  | add (mode : DictResizeEnable) (key : K) (val : V)
  | replace (mode : DictResizeEnable) (key : K) (val : V)
  | find (mode : DictResizeEnable) (key : K)
  | deleteReturned (mode : DictResizeEnable)
  | expand (size : Nat)
  | tryExpand (size : Nat) (allocated : Bool)
  | resize (mode : DictResizeEnable)
  | otherStarts
  | otherReleased

section Steps
variable [DecidableEq K]

def allocate (gens : Allocations K) (key : K) (added : Bool) : Allocations K :=
  if added then Function.update gens key (gens key + 1) else gens

def step (ty : DictType K) (w : World K V) : Event K V → Outcome (World K V)
  | .next => do
    let (d, it, entry) ← dictNext w.gens w.d w.it
    match entry with
    | none => .ok { w with d, it, exhausted := true }
    | some p => .ok { w with d, it, returned := p :: w.returned }
  | .add mode key val => do
    let (d, added) ← dictAdd ty mode w.d key val
    .ok { w with d, gens := allocate w.gens key added }
  | .replace mode key val => do
    let (d, added) ← dictReplace ty mode w.d key val
    .ok { w with d, gens := allocate w.gens key added }
  | .find mode key => do
    let (d, _) ← dictFind ty mode w.d key
    .ok { w with d }
  | .deleteReturned mode =>
    match w.it.entry with
    | none => .ok w
    | some p => do
      let (d, _) ← dictDelete ty mode w.d p.key
      .ok { w with d }
  | .expand size => .ok { w with d := (dictExpand w.d size).1 }
  | .tryExpand size allocated => .ok { w with d := dictTryExpand w.d size allocated }
  | .resize mode => .ok { w with d := (dictResize mode w.d).1 }
  | .otherStarts => .ok { w with d := dictPauseRehashing w.d, others := w.others + 1 }
  | .otherReleased => .ok { w with d := dictResumeRehashing w.d, others := w.others - 1 }

end Steps

/-! ## The chains of a well formed dict -/

/-- The buckets before those of a table, in the order of the walk. -/
def base (d : Dict K V) (table : Bool) : Nat := if table then dicthtSize d.ht0.sizeExp else 0

lemma length_table {t : Table K V} (h : TableOk ty t) :
    (t.table.getD []).length = dicthtSize t.sizeExp := by
  rcases h with rfl | ⟨bs, e, ha⟩
  · rfl
  · rw [ha.table, ha.sizeExp, Option.getD_some, ha.length, dicthtSize]

lemma length_chainKeys (h : WellFormed ty d) :
    (chainKeys d).length = dicthtSize d.ht0.sizeExp + dicthtSize d.ht1.sizeExp := by
  rw [chainKeys, length_map, length_append, length_table h.ok0, length_table h.ok1]

lemma flatten_chainKeys (d : Dict K V) : (chainKeys d).flatten = (entries d).map DictEntry.key := by
  simp only [chainKeys, entries, tableEntries, map_append, flatten_append, map_flatten]

lemma bucket_chain (h : WellFormed ty d) {t : Bool} (hi : i < dicthtSize (d.ht t).sizeExp) :
    ∃ b, (d.ht t).bucket i = .ok b ∧ (chainKeys d)[base d t + i]? = some (b.map DictEntry.key) := by
  have hok := ht_ok h t
  have hne : d.ht t ≠ dictReset := fun hr => by
    rw [hr] at hi
    exact Nat.not_lt_zero i hi
  obtain ⟨bs, e, ha⟩ := hok.allocated hne
  have hie : i < 2 ^ e := by rwa [ha.sizeExp] at hi
  obtain ⟨b, hb, hload⟩ := ha.bucket hie
  refine ⟨b, hload, ?_⟩
  have htable : (d.ht t).table.getD [] = bs := by rw [ha.table]; rfl
  have hlen0 := length_table h.ok0
  rw [chainKeys, getElem?_map]
  cases t with
  | false =>
    have hlt : i < (d.ht0.table.getD []).length := by rw [hlen0]; exact hi
    rw [base, if_neg (by decide), zero_add, getElem?_append_left hlt]
    change Option.map _ ((d.ht false).table.getD [])[i]? = _
    rw [htable, hb]
    rfl
  | true =>
    rw [base, if_pos rfl, ← hlen0, getElem?_append_right (Nat.le_add_right _ _),
      Nat.add_sub_cancel_left]
    change Option.map _ ((d.ht true).table.getD [])[i]? = _
    rw [htable, hb]
    rfl

lemma rehashing_of_bucket (h : WellFormed ty d)
    (hi : i < dicthtSize (d.ht true).sizeExp) : dictIsRehashing d = true := by
  cases hr : d.rehashidx with
  | some r => rw [dictIsRehashing, hr]; rfl
  | none =>
    rw [show d.ht true = d.ht1 from rfl, h.idle hr] at hi
    exact absurd hi (Nat.not_lt_zero i)

lemma nextBucket_spec (h : WellFormed ty d) {t : Bool} (hi : i ≤ dicthtSize (d.ht t).sizeExp) :
    (∃ t' i', nextBucket d t i = some (t', i') ∧ i' < dicthtSize (d.ht t').sizeExp ∧
      base d t' + i' = base d t + i) ∨
    (nextBucket d t i = none ∧ (chainKeys d).length ≤ base d t + i) := by
  rw [length_chainKeys h]
  unfold nextBucket
  by_cases hlt : i < dicthtSize (d.ht t).sizeExp
  · exact .inl ⟨t, i, if_neg (Nat.not_le.mpr hlt), hlt, rfl⟩
  have hend : i = dicthtSize (d.ht t).sizeExp := Nat.le_antisymm hi (Nat.not_lt.mp hlt)
  rw [if_pos (Nat.not_lt.mp hlt)]
  cases t with
  | true =>
    refine .inr ⟨if_neg (fun h => Bool.noConfusion h.2), ?_⟩
    rw [hend]
    exact le_rfl
  | false =>
    cases hr : d.rehashidx with
    | none =>
      refine .inr ⟨if_neg (fun h => by rw [dictIsRehashing, hr] at h; exact Bool.noConfusion h.1), ?_⟩
      rw [h.idle hr, hend]
      exact Nat.le_of_eq (add_comm _ _)
    | some r =>
      refine .inl ⟨true, 0, if_pos ⟨by rw [dictIsRehashing, hr]; rfl, rfl⟩, ?_, ?_⟩
      · obtain ⟨bs, e, ha⟩ := h.ok1.allocated (h.rehashing r hr).2.1
        rw [show d.ht true = d.ht1 from rfl, ha.sizeExp]
        exact Nat.two_pow_pos e
      rw [hend]
      exact add_comm _ _

/-! ## One step of the iterator -/

section NextSpec
variable [DecidableEq K] {k : K} {gens : Allocations K} {it : DictIterator K}

/-- An iterator that has returned `p` and stands at the cursor `c` of the walk. -/
structure Stands (d : Dict K V) (gens : Allocations K) (it : DictIterator K) (c : Cursor K)
    (p : Address K) : Prop where
  entry : it.entry = some p
  index : ∃ i, it.index = some i ∧ i < dicthtSize (d.ht it.table).sizeExp ∧
    c.chain = base d it.table + i
  next : it.nextEntry = c.next.map (addressOf gens)
  valid : Valid (chainKeys d) c
  ne : c.next ≠ some p.key

lemma chain_unique {cs : List (List K)} (h : cs.flatten.Nodup) {a b : List K}
    (ha : a ∈ cs) (hb : b ∈ cs) (hka : k ∈ a) (hkb : k ∈ b) : a = b := by
  by_contra hne
  have : Std.Symm (α := List K) List.Disjoint := ⟨fun _ _ h _ ha hb => h hb ha⟩
  exact (nodup_flatten.mp h).2.forall ha hb hne hka hkb

lemma chainOf_spec (hnodup : (chainKeys d).flatten.Nodup)
    {chain : List K} (hmem : chain ∈ chainKeys d) (hk : k ∈ chain) : chainOf d k = some chain := by
  unfold chainOf
  cases hf : (chainKeys d).find? fun chain => chain.contains k with
  | none => exact absurd hk (by simpa using find?_eq_none.mp hf _ hmem)
  | some chain' =>
    have hkc : k ∈ chain' := by simpa using find?_some hf
    rw [chain_unique hnodup (mem_of_find?_eq_some hf) hmem hkc hk]

lemma successor_cut {l r : List K} (h : k ∉ l) : successor k (l ++ k :: r) = r.head? := by
  induction l with
  | nil => exact if_pos rfl
  | cons x l ih =>
    have hx : x ≠ k := fun hx => h (hx ▸ mem_cons_self)
    rw [cons_append, successor, if_neg hx, ih fun hl => h (mem_cons_of_mem x hl)]

lemma entryNext_spec (hnodup : (chainKeys d).flatten.Nodup)
    (gens : Allocations K) {g : Nat} {l r : List K} (hg : (chainKeys d)[g]? = some (l ++ k :: r)) :
    entryNext d gens (addressOf gens k) = .ok (r.head?.map (addressOf gens)) := by
  have hmem : l ++ k :: r ∈ chainKeys d := mem_of_getElem? hg
  have hchain : (l ++ k :: r).Nodup := (nodup_flatten.mp hnodup).1 _ hmem
  have hkl : k ∉ l := fun h => (nodup_append.mp hchain).2.2 k h k mem_cons_self rfl
  have hof := chainOf_spec hnodup hmem (mem_append_right l mem_cons_self)
  simp only [entryNext, addressOf, hof, if_true, successor_cut hkl]

lemma returnEntry_spec {d : Dict K V} (hnodup : (chainKeys d).flatten.Nodup)
    (gens : Allocations K) {it : DictIterator K} {i : Nat} {k : K} {l r : List K}
    (hindex : it.index = some i) (hi : i < dicthtSize (d.ht it.table).sizeExp)
    (hg : (chainKeys d)[base d it.table + i]? = some (l ++ k :: r)) :
    ∃ it', returnEntry d gens it (addressOf gens k) = .ok (d, it', some (addressOf gens k)) ∧
      Stands d gens it' ⟨base d it.table + i, r.head?⟩ (addressOf gens k) := by
  have hchain : (l ++ k :: r).Nodup := (nodup_flatten.mp hnodup).1 _ (mem_of_getElem? hg)
  have hget : (chainKeys d).getD (base d it.table + i) [] = l ++ k :: r := by
    simp [hg]
  refine ⟨{ it with entry := some (addressOf gens k), nextEntry := r.head?.map (addressOf gens) },
    ?_, rfl, ⟨i, hindex, hi, rfl⟩, rfl, ⟨(List.getElem?_eq_some_iff.mp hg).1, fun a ha => ?_⟩,
    fun hk => ?_⟩
  · rw [returnEntry, entryNext_spec hnodup gens hg]
    rfl
  · rw [hget]
    exact mem_append_right l (mem_cons_of_mem k (mem_of_mem_head? ha))
  have hmem : k ∈ r := mem_of_mem_head? hk
  exact (nodup_cons.mp (nodup_append.mp hchain).2.1).1 hmem

lemma scanBuckets_spec (h : WellFormed ty d)
    (gens : Allocations K) (it : DictIterator K) : ∀ (rounds : Nat) (t : Bool) (i : Nat),
    i ≤ dicthtSize (d.ht t).sizeExp → (chainKeys d).length < rounds + (base d t + i) →
    (∃ it', scanBuckets gens d it rounds t i = .ok (d, it', none) ∧ it'.index ≠ none ∧
      ((chainKeys d).drop (base d t + i)).flatten = []) ∨
    (∃ it' c p, scanBuckets gens d it rounds t i = .ok (d, it', some p) ∧
      p.gen = gens p.key ∧ Stands d gens it' c p ∧
      ((chainKeys d).drop (base d t + i)).flatten = p.key :: rest (chainKeys d) (some c)) := by
  have hnodup : (chainKeys d).flatten.Nodup := flatten_chainKeys d ▸ h.nodup
  intro rounds
  induction rounds with
  | zero =>
    intro t i hi hrounds
    rw [length_chainKeys h] at hrounds
    have hbase : base d t + dicthtSize (d.ht t).sizeExp ≤
        dicthtSize d.ht0.sizeExp + dicthtSize d.ht1.sizeExp := by
      cases t with
      | false => exact Nat.le_trans (Nat.le_of_eq (zero_add _)) (Nat.le_add_right _ _)
      | true => exact le_rfl
    omega
  | succ rounds ih =>
    intro t i hi hrounds
    rcases nextBucket_spec h hi with ⟨t', i', hnext, hi', hplace⟩ | ⟨hnext, hend⟩
    · obtain ⟨b, hload, hchain⟩ := bucket_chain h hi'
      cases b with
      | nil =>
        -- an empty bucket, and on to the one behind it
        have hskip : ((chainKeys d).drop (base d t + i)).flatten =
            ((chainKeys d).drop (base d t' + (i' + 1))).flatten := by
          rw [← hplace, drop_flatten hchain]
          rfl
        have hrun : scanBuckets gens d it (rounds + 1) t i =
            scanBuckets gens d it rounds t' (i' + 1) := by
          simp only [scanBuckets, hnext, hload, Outcome.bind_ok]
        rw [hskip, hrun]
        exact ih t' (i' + 1) hi' (by omega)
      | cons he b =>
        obtain ⟨it', hret, hstands⟩ := @returnEntry_spec K V _ d hnodup gens
          { it with table := t', index := some i' } i' he.key [] (b.map DictEntry.key) rfl hi' hchain
        refine .inr ⟨it', _, _, ?_, rfl, hstands, ?_⟩
        · simp only [scanBuckets, hnext, hload]
          exact hret
        have hnd : (he.key :: b.map DictEntry.key).Nodup :=
          (nodup_flatten.mp hnodup).1 _ (mem_of_getElem? hchain)
        rw [← hplace]
        exact rest_first hchain hnd
    · refine .inl ⟨{ it with table := t, index := some i, entry := none }, ?_, by simp, ?_⟩
      · simp only [scanBuckets, hnext]
      rw [drop_eq_nil_of_le hend]
      rfl

/-- The place of an iterator in the walk: nowhere yet, or at a cursor. -/
inductive At (d : Dict K V) (gens : Allocations K) : DictIterator K → Option (Cursor K) → Prop where
  | fresh : At d gens dictGetSafeIterator none
  | stands {it c p} : Stands d gens it c p → At d gens it (some c)

omit [DecidableEq K] in
lemma At.eq_fresh (h : At d gens it none) : it = dictGetSafeIterator := by
  cases h
  rfl

omit [DecidableEq K] in
lemma At.exists_stands {c : Cursor K} (h : At d gens it (some c)) : ∃ p, Stands d gens it c p := by
  cases h with
  | stands hs => exact ⟨_, hs⟩

omit [DecidableEq K] in
lemma wellFormed_pause (h : WellFormed ty d) (n : Int) :
    WellFormed ty { d with pauserehash := n } :=
  { h with }

/-- `dictNext` returns the first entry of the rest, or finds that there is none. -/
lemma dictNext_spec (h : WellFormed ty d) {c : Option (Cursor K)} (hat : At d gens it c) :
    (∃ it', dictNext gens d it = .ok (startIteration d it, it', none) ∧ it'.index ≠ none ∧
      rest (chainKeys d) c = []) ∨
    (∃ it' c' p, dictNext gens d it = .ok (startIteration d it, it', some p) ∧
      p.gen = gens p.key ∧ Stands (startIteration d it) gens it' c' p ∧
      rest (chainKeys d) c = p.key :: rest (chainKeys d) (some c')) := by
  have hrounds := length_chainKeys h
  cases hat with
  | fresh =>
    have hwf : WellFormed ty (dictPauseRehashing d) := wellFormed_pause h _
    have hscan := scanBuckets_spec hwf gens dictGetSafeIterator
      (dicthtSize d.ht0.sizeExp + dicthtSize d.ht1.sizeExp + 1) false 0 (Nat.zero_le _)
      (by rw [length_chainKeys hwf]; exact Nat.lt_succ_self _)
    exact hscan
  | @stands _ c p hs =>
    obtain ⟨i, hindex, hi, hchain⟩ := hs.index
    have hstart : startIteration d it = d := if_neg (fun hn => by rw [hindex] at hn; cases hn.1)
    have hnodup : (chainKeys d).flatten.Nodup := flatten_chainKeys d ▸ h.nodup
    rw [hstart]
    obtain ⟨g, next⟩ := c
    subst hchain
    cases next with
    | none =>
      -- the chain is at its end
      have hrun : dictNext gens d it = scanBuckets gens d it
          (dicthtSize d.ht0.sizeExp + dicthtSize d.ht1.sizeExp + 1) it.table (i + 1) := by
        simp only [dictNext, hs.entry, hs.next, Option.map_none, hstart, hindex, succIndex]
      rw [hrun]
      exact scanBuckets_spec h gens it _ it.table (i + 1) hi (by omega)
    | some a =>
      obtain ⟨b, -, hb⟩ := bucket_chain h hi
      have hmem : a ∈ b.map DictEntry.key := by
        have hmem := hs.valid.mem a rfl
        simpa [hb] using hmem
      obtain ⟨l, r, hlr, -⟩ := eq_append_cons_of_mem hmem
      rw [hlr] at hb
      obtain ⟨it', hret, hstands⟩ := returnEntry_spec hnodup gens hindex hi hb
      refine .inr ⟨it', _, _, ?_, rfl, hstands, ?_⟩
      · simp only [dictNext, hs.entry, hs.next, Option.map_some, hret]
      · exact rest_next hb ((nodup_flatten.mp hnodup).1 _ (mem_of_getElem? hb))

end NextSpec

end Redis.Dictionary.SafeIterator
