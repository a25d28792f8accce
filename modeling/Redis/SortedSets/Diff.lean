import Redis.Lib.Decimal
import Redis.SortedSets.Sources

/-! # `ZDIFF`

The first algorithm looks the members of the first input up in the others. The second one
inserts them all and removes the members of the others, until its count of what is left, an
`int`, is zero. The other inputs stand in any order. -/
namespace Redis.SortedSets.Diff
open List Lib Lib.Decimal Sources

/-- The destination, its skiplist from the lowest element on. -/
structure Zset where
  zsl : List (Bytes × Score)
  dict : List (Bytes × Score)

/-- The order of a skiplist: by score, then by text. -/
def precedes (x e : Bytes × Score) : Bool := x.2.lt e.2 || (x.2 = e.2 && x.1 < e.1)

/-- No result is a failed assertion, here and below. -/
def zslInsert (zsl : List (Bytes × Score)) (e : Bytes × Score) : Option (List (Bytes × Score)) :=
  if e.2 = .nan then none
  else some (zsl.takeWhile (precedes · e) ++ e :: zsl.dropWhile (precedes · e))

def dictAdd (dict : List (Bytes × Score)) (e : Bytes × Score) : List (Bytes × Score) :=
  if dict.any fun x => x.1 = e.1 then dict else e :: dict

def insert (dst : Zset) (e : Bytes × Score) : Option Zset :=
  (zslInsert dst.zsl e).map fun zsl => ⟨zsl, dictAdd dst.dict e⟩

def zsetRemoveFromSkiplist (zs : Zset) (ele : Bytes) : Option (Zset × Bool) :=
  match zs.dict.find? fun e => e.1 = ele with
  | none => some (zs, false)
  | some e => if e ∈ zs.zsl then some (⟨zs.zsl.erase e, zs.dict.erase e⟩, true) else none

section
variable {κ : Type} [DecidableEq κ] (db : κ → Option Collection)

def zdiffAlgorithm1 (first : κ) (others : List κ) : Option Zset :=
  (elementsAt db first).foldlM (fun dst e =>
    if others.any fun k => subject db k = subject db first || (zuiFindAt db k e.1).isSome
    then some dst else insert dst (zuiSdsFromValue e.1, e.2)) ⟨[], []⟩

/-- A turn of the inner loop at input `j`. -/
def turn (j : Nat) (dst : Zset) (cardinality : BitVec 32) (e : OpVal × Score) :
    Option (Zset × BitVec 32) :=
  if j = 0 then
    (insert dst (zuiSdsFromValue e.1, e.2)).map fun dst => (dst, cardinality + 1)
  else (zsetRemoveFromSkiplist dst (zuiSdsFromValue e.1)).map fun r =>
    (r.1, if r.2 then cardinality - 1 else cardinality)

def elementLoop (j : Nat) : List (OpVal × Score) → Zset → BitVec 32 → Option (Zset × BitVec 32)
  | [], dst, cardinality => some (dst, cardinality)
  | e :: es, dst, cardinality => (turn j dst cardinality e).bind fun r =>
    if r.2 = 0 then some r else elementLoop j es r.1 r.2

def inputLoop : Nat → List κ → Zset → BitVec 32 → Option Zset
  | _, [], dst, _ => some dst
  | j, k :: ks, dst, cardinality =>
    if elementsAt db k = [] then inputLoop (j + 1) ks dst cardinality
    else (elementLoop j (elementsAt db k) dst cardinality).bind fun r =>
      if r.2 = 0 then some r.1 else inputLoop (j + 1) ks r.1 r.2

def zdiffAlgorithm2 (first : κ) (others : List κ) : Option Zset :=
  inputLoop db 0 (first :: others) ⟨[], []⟩ 0

/-- Which algorithm runs: none if the first input is subtracted from itself. -/
def zsetChooseDiffAlgorithm (first : κ) (others : List κ) : Nat :=
  if others.any fun k => subject db first = subject db k then 0
  else
    let algoOneWork := (others.length + 1) * (elementsAt db first).length
    let algoTwoWork := (first :: others).foldl (fun work k => work + (elementsAt db k).length) 0
    if algoOneWork / 2 ≤ algoTwoWork then 1 else 2

abbrev InNone (ks : List κ) (m : Bytes × Score) : Prop := ∀ k ∈ ks, ∀ e ∈ membersAt db k, m.1 ≠ e.1

def difference (first : κ) (others : List κ) : List (Bytes × Score) :=
  (membersAt db first).filter fun m => InNone db others m

end

/-! ## The destination -/

structure Holds (dst : Zset) (l : List (Bytes × Score)) : Prop where
  zsl : dst.zsl.Perm l
  dict : dst.dict.Perm l

variable {dst : Zset} {l : List (Bytes × Score)} {κ : Type} {db : κ → Option Collection}

lemma insert_holds (h : Holds dst l) {e} (he : e.2 ≠ .nan) (hnew : e.1 ∉ l.map Prod.fst) :
    ∃ dst', insert dst e = some dst' ∧ Holds dst' (l ++ [e]) := by
  have hfresh : ¬ (dst.dict.any fun x => x.1 = e.1) = true := fun hany => by
    obtain ⟨x, hx, hkey⟩ := any_eq_true.mp hany
    exact hnew (mem_map.mpr ⟨x, h.dict.mem_iff.mp hx, of_decide_eq_true hkey⟩)
  refine ⟨_, by rw [insert, zslInsert, if_neg he, Option.map_some], ?_, ?_⟩
  · refine perm_middle.trans (.trans (.cons e ?_) (perm_append_singleton e l).symm)
    rw [takeWhile_append_dropWhile]
    exact h.zsl
  rw [dictAdd, if_neg hfresh]
  exact (h.dict.cons e).trans (perm_append_singleton e l).symm

lemma erase_eq_filter (hl : (l.map Prod.fst).Nodup) {e} (he : e ∈ l) :
    l.erase e = l.filter fun m => m.1 ≠ e.1 := by
  rw [hl.of_map.erase_eq_filter]
  refine filter_congr fun x hx => ?_
  have hinj := inj_on_of_nodup_map hl hx he
  grind

lemma remove_holds (h : Holds dst l) (hl : (l.map Prod.fst).Nodup) (ele : Bytes) :
    ∃ dst' removed, zsetRemoveFromSkiplist dst ele = some (dst', removed) ∧
      Holds dst' (l.filter fun m => m.1 ≠ ele) ∧
      l.length = (l.filter fun m => m.1 ≠ ele).length + if removed then 1 else 0 := by
  unfold zsetRemoveFromSkiplist
  cases hfind : dst.dict.find? fun e => e.1 = ele with
  | none =>
    have hall : l.filter (fun m => m.1 ≠ ele) = l := filter_eq_self.mpr fun m hm => by
      simpa using find?_eq_none.mp hfind m (h.dict.mem_iff.mpr hm)
    rw [hall]
    exact ⟨dst, false, rfl, h, rfl⟩
  | some e =>
    obtain rfl : e.1 = ele := by simpa using find?_some hfind
    have he : e ∈ l := h.dict.mem_iff.mp (mem_of_find?_eq_some hfind)
    rw [← erase_eq_filter hl he]
    refine ⟨_, true, if_pos (h.zsl.mem_iff.mpr he), ⟨h.zsl.erase e, h.dict.erase e⟩, ?_⟩
    rw [length_erase_of_mem he, if_pos rfl, Nat.sub_add_cancel (length_pos_of_mem he)]

/-! ## The loops -/

def texts (es : List (OpVal × Score)) : List (Bytes × Score) :=
  es.map fun e => (zuiSdsFromValue e.1, e.2)

lemma ofNat_eq_zero {n : Nat} (h : n ≤ 2 ^ 32) : BitVec.ofNat 32 n = 0 ↔ n = 0 ∨ n = 2 ^ 32 := by
  rw [← BitVec.toNat_inj, BitVec.toNat_ofNat, show (0 : BitVec 32).toNat = 0 from rfl]
  omega

lemma nil_of_count (h : l.length < 2 ^ 32) (hzero : BitVec.ofNat 32 l.length = 0) : l = [] := by
  rw [ofNat_eq_zero h.le] at hzero
  exact eq_nil_of_length_eq_zero (by omega)

lemma not_mem_of_nodup {m : Bytes × Score} {r} (h : (((l ++ [m]) ++ r).map Prod.fst).Nodup) :
    m.1 ∉ l.map Prod.fst := by
  rw [append_assoc, map_append, nodup_append] at h
  exact fun hmem => h.2.2 _ hmem m.1 (by simp) rfl

/-- The first input: the count is zero again after 2^32 members. -/
lemma insertLoop_holds : ∀ {es dst l}, Holds dst l → ((l ++ texts es).map Prod.fst).Nodup →
    (∀ e ∈ texts es, e.2 ≠ .nan) → l.length < 2 ^ 32 →
    ∃ dst', elementLoop 0 es dst (BitVec.ofNat 32 l.length) =
        some (dst', BitVec.ofNat 32 ((l ++ texts es).take (2 ^ 32)).length) ∧
      Holds dst' ((l ++ texts es).take (2 ^ 32)) := by
  intro es
  induction es with
  | nil =>
    intro dst l h _ _ hlen
    rw [texts, map_nil, append_nil, take_of_length_le hlen.le]
    exact ⟨dst, rfl, h⟩
  | cons e es ih =>
    intro dst l h hnodup hnan hlen
    obtain ⟨m, hm⟩ : ∃ m, m = (zuiSdsFromValue e.1, e.2) := ⟨_, rfl⟩
    have hcons : l ++ texts (e :: es) = (l ++ [m]) ++ texts es := by simp [texts, hm]
    have hlast : (l ++ [m]).length = l.length + 1 := by simp
    rw [hcons] at hnodup ⊢
    obtain ⟨dst', hrun, h'⟩ := insert_holds h (hnan m (by simp [texts, hm]))
      (not_mem_of_nodup hnodup)
    have hturn : turn 0 dst (BitVec.ofNat 32 l.length) e =
        some (dst', BitVec.ofNat 32 (l ++ [m]).length) := by
      rw [turn, ← hm, hrun, hlast, BitVec.ofNat_add]
      rfl
    rw [elementLoop, hturn, Option.bind_some]
    by_cases hfull : l.length + 1 = 2 ^ 32
    · rw [if_pos ((ofNat_eq_zero (by omega)).mpr (by omega)), take_left' (hlast.trans hfull)]
      exact ⟨dst', rfl, h'⟩
    rw [if_neg ((ofNat_eq_zero (by omega)).not.mpr (by omega))]
    exact ih h' hnodup (forall_mem_cons.mp hnan).2 (by omega)

/-- Another input: the loop stops early only when nothing is left. -/
lemma removeLoop_holds (j : Nat) : ∀ {es dst l}, Holds dst l → (l.map Prod.fst).Nodup →
    l.length < 2 ^ 32 → ∃ dst', elementLoop (j + 1) es dst (BitVec.ofNat 32 l.length) =
        some (dst', BitVec.ofNat 32 (l.filter fun m => m.1 ∉ (texts es).map Prod.fst).length) ∧
      Holds dst' (l.filter fun m => m.1 ∉ (texts es).map Prod.fst) := by
  intro es
  induction es with
  | nil =>
    intro dst l h _ _
    simp only [texts, map_nil, not_mem_nil, not_false_eq_true, decide_true, filter_true]
    exact ⟨dst, rfl, h⟩
  | cons e es ih =>
    intro dst l h hnodup hlen
    obtain ⟨dst', removed, hrun, h', hcount⟩ := remove_holds h hnodup (zuiSdsFromValue e.1)
    have hrest : (l.filter fun m => m.1 ∉ (texts (e :: es)).map Prod.fst) =
        (l.filter fun m => m.1 ≠ zuiSdsFromValue e.1).filter
          fun m => m.1 ∉ (texts es).map Prod.fst := by
      rw [filter_filter]
      refine filter_congr fun m _ => Bool.eq_iff_iff.mpr ?_
      rw [Bool.and_eq_true, decide_eq_true_iff, decide_eq_true_iff]
      simp [texts, and_comm]
    obtain ⟨l', hl'⟩ : ∃ l', l' = l.filter fun m => m.1 ≠ zuiSdsFromValue e.1 := ⟨_, rfl⟩
    have hnodup' : (l'.map Prod.fst).Nodup := by
      rw [hl']
      exact (filter_sublist.map Prod.fst).nodup hnodup
    rw [← hl'] at h' hcount hrest
    rw [hrest]
    have hturn : turn (j + 1) dst (BitVec.ofNat 32 l.length) e =
        some (dst', BitVec.ofNat 32 l'.length) := by
      rw [turn, hrun, hcount]
      cases removed with
      | false => rfl
      | true =>
        rw [BitVec.ofNat_add]
        exact congrArg (fun n => some (dst', n)) (BitVec.add_sub_cancel ..)
    rw [elementLoop, hturn, Option.bind_some]
    have hlen' : l'.length < 2 ^ 32 := by omega
    split
    · rename_i hzero
      rw [nil_of_count hlen' hzero] at h' ⊢
      exact ⟨dst', rfl, h'⟩
    · exact ih h' hnodup' hlen'

lemma inNone_iff {ks : List κ} {m} :
    InNone db ks m ↔ ∀ k ∈ ks, m.1 ∉ (membersAt db k).map Prod.fst := by
  grind

lemma inputLoop_holds : ∀ {ks j dst l}, Holds dst l → (l.map Prod.fst).Nodup →
    l.length < 2 ^ 32 → ∃ dst', inputLoop db (j + 1) ks dst (BitVec.ofNat 32 l.length) = some dst' ∧
      Holds dst' (l.filter fun m => InNone db ks m) := by
  intro ks
  induction ks with
  | nil => exact fun h _ _ => ⟨_, rfl, by simpa [InNone] using h⟩
  | cons k ks ih =>
    intro j dst l h hnodup hlen
    obtain ⟨l', hl'⟩ : ∃ l', l' = l.filter fun m => m.1 ∉ (membersAt db k).map Prod.fst := ⟨_, rfl⟩
    have hrest : (l.filter fun m => InNone db (k :: ks) m) = l'.filter fun m => InNone db ks m := by
      rw [hl', filter_filter]
      refine filter_congr fun m _ => Bool.eq_iff_iff.mpr ?_
      rw [Bool.and_eq_true, decide_eq_true_iff, decide_eq_true_iff, decide_eq_true_iff]
      simp only [inNone_iff, forall_mem_cons, and_comm]
    rw [hrest, inputLoop]
    split
    · rename_i hnil
      have hsame : l' = l := by simp [hl', membersAt_eq, hnil]
      rw [hsame]
      exact ih h hnodup hlen
    obtain ⟨dst', hrun, h'⟩ := @removeLoop_holds j (elementsAt db k) dst l h hnodup hlen
    rw [texts, ← membersAt_eq, ← hl'] at hrun h'
    have hsub : l'.Sublist l := hl' ▸ filter_sublist
    have hlen' : l'.length < 2 ^ 32 := hsub.length_le.trans_lt hlen
    rw [hrun, Option.bind_some]
    split
    · rename_i hzero
      rw [nil_of_count hlen' hzero] at h' ⊢
      exact ⟨dst', rfl, h'⟩
    · exact ih h' ((hsub.map _).nodup hnodup) hlen'

lemma zdiffAlgorithm2_holds (first : κ) (others : List κ) :
    ∃ dst, zdiffAlgorithm2 db first others = some dst ∧
      Holds dst (if (membersAt db first).length < 2 ^ 32 then difference db first others
        else (membersAt db first).take (2 ^ 32)) := by
  have hnodup := @membersAt_nodup κ db first
  have hnan := @membersAt_numbers κ db first
  have hempty : Holds ⟨[], []⟩ [] := ⟨.nil, .nil⟩
  unfold zdiffAlgorithm2 inputLoop difference
  split
  · rename_i hnil
    have hmembers : membersAt db first = [] := by rw [membersAt_eq, hnil, map_nil]
    rw [hmembers]
    exact inputLoop_holds hempty nodup_nil (by simp)
  rename_i hsome
  have hmembers : texts (elementsAt db first) = membersAt db first := (membersAt_eq first).symm
  have hne : membersAt db first ≠ [] := by simpa [membersAt_eq] using hsome
  rw [← hmembers] at hnodup hnan
  obtain ⟨dst, hrun, h⟩ := insertLoop_holds hempty hnodup hnan (by simp)
  rw [nil_append, hmembers] at hrun h
  rw [hmembers] at hnodup
  generalize membersAt db first = ms at *
  erw [hrun]
  rw [Option.bind_some]
  by_cases hlen : ms.length < 2 ^ 32
  · have htake : ms.take (2 ^ 32) = ms := take_of_length_le hlen.le
    rw [htake] at h ⊢
    rw [if_pos hlen, if_neg fun hzero => hne (nil_of_count hlen hzero)]
    exact inputLoop_holds h hnodup hlen
  have htake : (ms.take (2 ^ 32)).length = 2 ^ 32 := length_take_of_le (Nat.le_of_not_lt hlen)
  rw [if_neg hlen, htake]
  exact ⟨dst, rfl, h⟩

lemma fold_holds (p : OpVal × Score → Bool) : ∀ {es dst l}, Holds dst l →
    ((l ++ texts es).map Prod.fst).Nodup → (∀ e ∈ texts es, e.2 ≠ .nan) →
    ∃ dst', es.foldlM (fun dst e =>
        if p e then some dst else insert dst (zuiSdsFromValue e.1, e.2)) dst = some dst' ∧
      Holds dst' (l ++ texts (es.filter fun e => !p e)) := by
  intro es
  induction es with
  | nil => exact fun h _ _ => ⟨_, rfl, by simpa [texts] using h⟩
  | cons e es ih =>
    intro dst l h hnodup hnan
    have hnan' : ∀ x ∈ texts es, x.2 ≠ .nan := (forall_mem_cons.mp hnan).2
    rw [foldlM_cons]
    cases hp : p e with
    | true =>
      rw [filter_cons_of_neg (by simp [hp])]
      refine ih h (Sublist.nodup ?_ hnodup) hnan'
      exact ((sublist_cons_self ..).append_left l).map Prod.fst
    | false =>
      obtain ⟨m, hm⟩ : ∃ m, m = (zuiSdsFromValue e.1, e.2) := ⟨_, rfl⟩
      have hcons : l ++ texts (e :: es) = (l ++ [m]) ++ texts es := by simp [texts, hm]
      rw [hcons] at hnodup
      obtain ⟨dst', hrun, h'⟩ := insert_holds h (hnan m (by simp [texts, hm]))
        (not_mem_of_nodup hnodup)
      rw [filter_cons_of_pos (by simp [hp]), show l ++ texts (e :: es.filter fun e => !p e) =
        (l ++ [m]) ++ texts (es.filter fun e => !p e) by simp [texts, hm], ← hm, hrun]
      exact ih h' hnodup hnan'

lemma found_iff {first : κ} {e} (he : e ∈ elementsAt db first) (k : κ) :
    (subject db k = subject db first ∨ (zuiFindAt db k e.1).isSome) ↔
      zuiSdsFromValue e.1 ∈ (membersAt db k).map Prod.fst := by
  have hfind : (zuiFindAt db k e.1).isSome ↔
      zuiSdsFromValue e.1 ∈ (membersAt db k).map Prod.fst := by
    simp [Option.isSome_iff_exists, zuiFindAt_eq_some]
  rw [hfind, or_iff_right_iff_imp]
  intro hsame
  obtain rfl : k = first := by
    unfold subject elementsAt at *
    cases hk : db k <;> cases hf : db first <;> simp_all
  rw [membersAt_eq, map_map]
  exact mem_map_of_mem he

variable [DecidableEq κ]

lemma zdiffAlgorithm1_holds (first : κ) (others : List κ) :
    ∃ dst, zdiffAlgorithm1 db first others = some dst ∧ Holds dst (difference db first others) := by
  have hmembers : texts (elementsAt db first) = membersAt db first := (membersAt_eq first).symm
  obtain ⟨dst, hrun, h⟩ := @fold_holds (fun e => others.any fun k =>
    subject db k = subject db first || (zuiFindAt db k e.1).isSome) (elementsAt db first)
    ⟨[], []⟩ [] ⟨.nil, .nil⟩ (by rw [hmembers]; exact membersAt_nodup first)
    (by rw [hmembers]; exact membersAt_numbers first)
  refine ⟨dst, hrun, ?_⟩
  have hkept : difference db first others = texts ((elementsAt db first).filter fun e =>
      !others.any fun k => subject db k = subject db first || (zuiFindAt db k e.1).isSome) := by
    rw [difference, membersAt_eq, filter_map]
    refine congrArg _ (filter_congr fun e he => Bool.eq_iff_iff.mpr ?_)
    rw [Function.comp_apply, decide_eq_true_iff, inNone_iff]
    simp [← found_iff he]
  rw [hkept]
  exact h

/-- Fewer than 2^32 members, or the loop stops just behind those that stay. -/
def CountFits (db : κ → Option Collection) (first : κ) (others : List κ) : Prop :=
  (membersAt db first).length < 2 ^ 32 ∨
    (∀ m ∈ (membersAt db first).take (2 ^ 32), InNone db others m) ∧
    ∀ m ∈ (membersAt db first).drop (2 ^ 32), ¬ InNone db others m

lemma take_perm_filter {α : Type} {l : List α} (hl : l.Nodup) (n : Nat) (p : α → Prop)
    [DecidablePred p] :
    (l.take n).Perm (l.filter p) ↔ (∀ m ∈ l.take n, p m) ∧ ∀ m ∈ l.drop n, ¬ p m := by
  constructor
  · intro hperm
    refine ⟨fun m hm => of_decide_eq_true (mem_filter.mp (hperm.mem_iff.mp hm)).2,
      fun m hm hp => ?_⟩
    have hkept : m ∈ l.filter p := mem_filter.mpr ⟨mem_of_mem_drop hm, decide_eq_true hp⟩
    exact disjoint_take_drop hl (Nat.le_refl n) (hperm.mem_iff.mpr hkept) hm
  rintro ⟨hkept, hgone⟩
  conv_rhs => rw [← take_append_drop n l, filter_append]
  rw [filter_eq_self.mpr fun m hm => decide_eq_true (hkept m hm),
    filter_eq_nil_iff.mpr fun m hm hp => hgone m hm (of_decide_eq_true hp), append_nil]

/-- The first algorithm is exact, the second one as long as its count does not come back to
zero. -/
theorem zdiff_exact_iff (first : κ) (others : List κ) :
    (∃ dst, zdiffAlgorithm1 db first others = some dst ∧ Holds dst (difference db first others)) ∧
    ((∃ dst, zdiffAlgorithm2 db first others = some dst ∧
      Holds dst (difference db first others)) ↔ CountFits db first others) := by
  refine ⟨zdiffAlgorithm1_holds first others, ?_⟩
  obtain ⟨dst, hrun, h⟩ := @zdiffAlgorithm2_holds κ db first others
  by_cases hlen : (membersAt db first).length < 2 ^ 32
  · rw [if_pos hlen] at h
    exact ⟨fun _ => .inl hlen, fun _ => ⟨dst, hrun, h⟩⟩
  rw [if_neg hlen] at h
  rw [CountFits, or_iff_right hlen, ← take_perm_filter (membersAt_nodup first).of_map]
  constructor
  · rintro ⟨dst', hrun', h'⟩
    obtain rfl := Option.some.inj (hrun.symm.trans hrun')
    exact h.zsl.symm.trans h'.zsl
  · exact fun hperm => ⟨dst, hrun, h.zsl.trans hperm, h.dict.trans hperm⟩

omit [DecidableEq κ] in
lemma mem_difference {first : κ} {others : List κ} {m : Bytes × Score} :
    m ∈ difference db first others ↔ m ∈ membersAt db first ∧
      ∀ k ∈ others, ∀ e ∈ membersAt db k, m.1 ≠ e.1 := by
  rw [difference, mem_filter, decide_eq_true_iff]

/-- A set of the numbers below `n`, in decimal, and one that has 0. -/
def countedDb (n : Nat) : Bool → Option Collection
  | false => some ⟨.hashtable ((range n).map decimal), by
      simp only [Encoded.members, Encoded.elements, map_map, zuiSdsFromValue]
      exact nodup_range.map (Function.LeftInverse.injective value_decimal),
      by simp [Encoded.members, Encoded.elements]⟩
  | true => some ⟨.hashtable [decimal 0], by simp [Encoded.members, Encoded.elements],
      by simp [Encoded.members, Encoded.elements]⟩

lemma membersAt_countedDb (n : Nat) :
    membersAt (countedDb n) false = (range n).map fun i => (decimal i, .fin 1) := by
  simp [membersAt, countedDb, Encoded.members, Encoded.elements, zuiSdsFromValue]

/-- The loop ends at the member where the count is zero again. -/
lemma countedDb_fails {n : Nat} (hn : n = 2 ^ 32) :
    zsetChooseDiffAlgorithm (countedDb n) false [true, true, true] = 2 ∧
    ∃ dst, zdiffAlgorithm2 (countedDb n) false [true, true, true] = some dst ∧
      ¬ Holds dst (difference (countedDb n) false [true, true, true]) := by
  constructor
  · have hwork : n + 1 + 1 + 1 < 4 * n / 2 := by omega
    simpa [zsetChooseDiffAlgorithm, subject, elementsAt, countedDb, Encoded.elements] using hwork
  obtain ⟨dst, hrun, h⟩ := @zdiffAlgorithm2_holds Bool (countedDb n) false [true, true, true]
  refine ⟨dst, hrun, fun h' => ?_⟩
  rw [← hn, if_neg (by simp [membersAt_countedDb]), membersAt_countedDb,
    take_of_length_le (by simp)] at h
  have hmem : (decimal 0, Score.fin 1) ∈ (range n).map fun i => (decimal i, Score.fin 1) :=
    mem_map.mpr ⟨0, mem_range.mpr (by omega), rfl⟩
  have hkept := (mem_difference.mp ((h.zsl.symm.trans h'.zsl).mem_iff.mp hmem)).2
  exact hkept true (by simp) (decimal 0, .fin 1)
    (by simp [membersAt, countedDb, Encoded.members, Encoded.elements, zuiSdsFromValue]) rfl

theorem zdiff_counts_out :
    zsetChooseDiffAlgorithm (countedDb (2 ^ 32)) false [true, true, true] = 2 ∧
    ∃ dst, zdiffAlgorithm2 (countedDb (2 ^ 32)) false [true, true, true] = some dst ∧
      ¬ Holds dst (difference (countedDb (2 ^ 32)) false [true, true, true]) :=
  countedDb_fails rfl

end Redis.SortedSets.Diff
