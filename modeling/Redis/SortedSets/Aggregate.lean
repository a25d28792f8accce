import Redis.SortedSets.Sources

/-! # Scores of unions and intersections

`ZUNION` collects one weighted value for a member from every input that holds it, with 0
for NaN. `ZINTER` does so for its first input only: the values of the others go into the
aggregate as they are. -/
namespace Redis.SortedSets.Aggregate
open Function Option List Lib Sources

inductive Aggregation where
  | sum
  | min
  | max
deriving DecidableEq

/-- `if (isnan(score)) score = 0`. -/
def normal (s : Score) : Score := if s = .nan then .fin 0 else s

def zunionInterAggregate (agg : Aggregation) (target val : Score) : Score :=
  match agg with
  | .sum => normal (target.add val)
  | .min => if val.lt target then val else target
  | .max => if target.lt val then val else target

section
variable {κ : Type} [DecidableEq κ] (db : κ → Option Collection) (agg : Aggregation)

/-- The loop over the other inputs; `none` when one of them lacks the element. -/
def interScore (first : κ) (zval : OpVal × Score) : List (κ × Score) → Score → Option Score
  | [], score => some score
  | (k, w) :: rest, score =>
    if subject db k = subject db first then
      interScore first zval rest (zunionInterAggregate agg score (zval.2.mul w))
    else (zuiFindAt db k zval.1).bind fun value =>
      interScore first zval rest (zunionInterAggregate agg score (value.mul w))

/-- One round of the `SET_OP_INTER` loop. -/
def interRound (k : κ) (w : Score) (rest : List (κ × Score)) (dst : Bytes → Option Score)
    (zval : OpVal × Score) : Bytes → Option Score :=
  match interScore db agg k zval rest (normal (w.mul zval.2)) with
  | none => dst
  | some score => fun m => if m = zuiSdsFromValue zval.1 then some score else dst m

/-- `SET_OP_INTER`, on the inputs as they are after sorting. -/
def zinter : List (κ × Score) → Bytes → Option Score
  | [] => fun _ => none
  | (k, w) :: rest => (elementsAt db k).foldl (interRound db agg k w rest) fun _ => none

/-- One round of the `SET_OP_UNION` loop, on the accumulator. -/
def unionRound (w : Score) (acc : Bytes → Option Score) (zval : OpVal × Score) :
    Bytes → Option Score :=
  let score := normal (w.mul zval.2)
  fun m => if m = zuiSdsFromValue zval.1 then
    some (((acc m).map fun t => zunionInterAggregate agg t score).getD score) else acc m

/-- `SET_OP_UNION`, on the inputs as they are after sorting. -/
def zunion (inputs : List (κ × Score)) : Bytes → Option Score :=
  inputs.foldl (fun acc i => (elementsAt db i.1).foldl (unionRound agg i.2) acc) fun _ => none

end

/-! ## What they compute -/

section
variable {κ : Type} {db : κ → Option Collection} {agg : Aggregation}

/-- The weighted value an input has for a member. -/
def value (db : κ → Option Collection) (m : Bytes) (i : κ × Score) : Option Score :=
  ((membersAt db i.1).find? fun e => e.1 = m).map fun e => i.2.mul e.2

lemma value_eq_some {m : Bytes} {i : κ × Score} {v : Score} :
    value db m i = some v ↔ ∃ s, (m, s) ∈ membersAt db i.1 ∧ i.2.mul s = v := by
  have hnodup : ((membersAt db i.1).map fun e => id e.1).Nodup := membersAt_nodup i.1
  have hfind : ∀ s, ((membersAt db i.1).find? fun e => e.1 = m).map Prod.snd = some s ↔
      (m, s) ∈ membersAt db i.1 := fun s =>
    (find?_key_eq_some hnodup).trans (by simp)
  simp only [value, ← hfind, map_eq_some_iff]
  grind

/-- Into an aggregate that may still be missing. -/
def combine (agg : Aggregation) (acc v : Option Score) : Option Score :=
  match acc, v with
  | none, v => v
  | some t, none => some t
  | some t, some v => some (zunionInterAggregate agg t v)

lemma foldl_unionRound (w : Score) (m : Bytes) : ∀ (es : List (OpVal × Score)) (acc : Bytes → Option Score),
    (es.map fun e => zuiSdsFromValue e.1).Nodup → es.foldl (unionRound agg w) acc m =
      combine agg (acc m) ((es.find? fun e => zuiSdsFromValue e.1 = m).map fun e => normal (w.mul e.2))
  | [], acc, _ => by cases h : acc m <;> simp [combine, h]
  | e :: es, acc, hnd => by
    obtain ⟨hnot, hrest⟩ := nodup_cons.mp hnd
    rw [foldl_cons, foldl_unionRound w m es _ hrest]
    by_cases he : zuiSdsFromValue e.1 = m
    · -- no other element of this input has the text
      have hnone : es.find? (fun e => zuiSdsFromValue e.1 = m) = none := by
        simp only [find?_eq_none, decide_eq_true_eq]
        exact fun x hx hm => hnot (mem_map.mpr ⟨x, hx, hm.trans he.symm⟩)
      cases hacc : acc m <;> simp [unionRound, he, hnone, hacc, combine]
    · simp [unionRound, Ne.symm he, he]

lemma nodup_elementsAt (k : κ) : ((elementsAt db k).map fun e => zuiSdsFromValue e.1).Nodup := by
  have h : ((membersAt db k).map Prod.fst).Nodup := membersAt_nodup k
  simpa [membersAt_eq, comp_def] using h

lemma zunion_eq (inputs : List (κ × Score)) (m : Bytes) : zunion db agg inputs m =
      (inputs.map fun i => (value db m i).map normal).foldl (combine agg) none := by
  suffices h : ∀ (inputs : List (κ × Score)) acc, inputs.foldl (fun acc i =>
      (elementsAt db i.1).foldl (unionRound agg i.2) acc) acc m =
      (inputs.map fun i => (value db m i).map normal).foldl (combine agg) (acc m) from h inputs _
  intro inputs
  induction inputs with
  | nil => exact fun acc => rfl
  | cons i inputs ih =>
    intro acc
    rw [foldl_cons, ih, foldl_unionRound i.2 m _ acc (nodup_elementsAt i.1), map_cons,
      value, membersAt_eq]
    simp [comp_def]

/-- The values of the other inputs into the score of the first. -/
def interFold (agg : Aggregation) : List (Option Score) → Score → Option Score
  | [], t => some t
  | v :: vs, t => v.bind fun v => interFold agg vs (zunionInterAggregate agg t v)

variable [DecidableEq κ]

lemma interScore_eq {k : κ} {zval : OpVal × Score} (hz : zval ∈ elementsAt db k)
    (rest : List (κ × Score)) : ∀ score, interScore db agg k zval rest score =
      interFold agg (rest.map (value db (zuiSdsFromValue zval.1))) score := by
  have hmem : (zuiSdsFromValue zval.1, zval.2) ∈ membersAt db k := by
    rw [membersAt_eq]
    exact mem_map.mpr ⟨zval, hz, rfl⟩
  have hsome : (db k).isSome := by
    cases hk : db k with
    | none => simp [elementsAt, hk] at hz
    | some c => rfl
  induction rest with
  | nil => exact fun _ => rfl
  | cons i rest ih =>
    intro score
    rw [interScore, map_cons, interFold]
    split
    · -- the object iterated holds the element itself
      rename_i hsame
      obtain ⟨c, hc⟩ := isSome_iff_exists.mp hsome
      simp only [subject, hc, map_some, map_eq_some_iff] at hsame
      obtain ⟨_, _, hi⟩ := hsame
      have hv : value db (zuiSdsFromValue zval.1) i = some (i.2.mul zval.2) :=
        value_eq_some.mpr ⟨zval.2, hi ▸ hmem, rfl⟩
      rw [hv, bind_some, ih, Score.mul_comm]
    cases hv : zuiFindAt db i.1 zval.1 with
    | none =>
      have hnone : value db (zuiSdsFromValue zval.1) i = none := by
        refine eq_none_iff_forall_ne_some.mpr fun v h => ?_
        obtain ⟨s, hs, _⟩ := value_eq_some.mp h
        rw [zuiFindAt_eq_some.mpr hs] at hv
        cases hv
      rw [hnone]
      rfl
    | some x =>
      rw [value_eq_some.mpr ⟨x, zuiFindAt_eq_some.mp hv, rfl⟩, bind_some, bind_some,
        ih, Score.mul_comm]

lemma interRound_apply (k : κ) (w : Score) (rest : List (κ × Score)) (dst : Bytes → Option Score)
    (e : OpVal × Score) (m : Bytes) : interRound db agg k w rest dst e m =
      if m = zuiSdsFromValue e.1 then
        (interScore db agg k e rest (normal (w.mul e.2))).or (dst m) else dst m := by
  rw [interRound]
  cases interScore db agg k e rest (normal (w.mul e.2)) <;> simp

lemma foldl_interRound {k : κ} {w : Score} {rest : List (κ × Score)} (m : Bytes) :
    ∀ (es : List (OpVal × Score)) (dst : Bytes → Option Score),
      (es.map fun e => zuiSdsFromValue e.1).Nodup → (∀ e ∈ es, e ∈ elementsAt db k) →
      es.foldl (interRound db agg k w rest) dst m =
        ((es.find? fun e => zuiSdsFromValue e.1 = m).bind fun e =>
          interFold agg (rest.map (value db m)) (normal (w.mul e.2))).or (dst m)
  | [], dst, _, _ => rfl
  | e :: es, dst, hnd, hin => by
    obtain ⟨hnot, hrest⟩ := nodup_cons.mp hnd
    rw [foldl_cons, foldl_interRound m es _ hrest (forall_mem_cons.mp hin).2,
      interRound_apply, interScore_eq (hin e mem_cons_self)]
    by_cases he : zuiSdsFromValue e.1 = m
    · have hnone : es.find? (fun e => zuiSdsFromValue e.1 = m) = none := by
        simp only [find?_eq_none, decide_eq_true_eq]
        exact fun x hx hm => hnot (mem_map.mpr ⟨x, hx, hm.trans he.symm⟩)
      simp [he, hnone]
    · simp [he, Ne.symm he]

/-- The intersection starts with the normalised value of the first input and takes the
others as they are. -/
lemma zinter_cons (k : κ) (w : Score) (rest : List (κ × Score)) (m : Bytes) :
    zinter db agg ((k, w) :: rest) m = (value db m (k, w)).bind fun p =>
      interFold agg (rest.map (value db m)) (normal p) := by
  rw [zinter, foldl_interRound m _ _ (nodup_elementsAt k) fun _ h => h, value, membersAt_eq,
    find?_map, Option.or_none]
  simp only [Option.bind_map, Function.comp_def]

end

/-! ## The laws -/

section
variable {agg : Aggregation} {neg : Bool} {t v x : Score}

/-- Not NaN, and for sums no other infinity than this one. -/
def Fine (agg : Aggregation) (neg : Bool) (s : Score) : Prop :=
  s ≠ .nan ∧ (agg = .sum → ∀ b, s = .inf b → b = neg)

lemma Fine.aggregate (ht : Fine agg neg t) (hv : Fine agg neg v) :
    Fine agg neg (zunionInterAggregate agg t v) := by
  cases agg <;> cases t <;> cases v <;>
    grind [Fine, zunionInterAggregate, normal, Score.add]

lemma aggregate_comm (ht : Fine agg neg t) (hv : Fine agg neg v) :
    zunionInterAggregate agg t v = zunionInterAggregate agg v t := by
  cases agg <;> cases t <;> cases v <;>
    grind [Fine, zunionInterAggregate, Score.add, Score.lt]

lemma aggregate_right_comm (ht : Fine agg neg t) (hv : Fine agg neg v) (hx : Fine agg neg x) :
    zunionInterAggregate agg (zunionInterAggregate agg t v) x =
      zunionInterAggregate agg (zunionInterAggregate agg t x) v := by
  cases agg <;> cases t <;> cases v <;> cases x <;>
    grind [Fine, zunionInterAggregate, normal, Score.add, Score.lt]

lemma aggregate_ne_nan (ht : t ≠ .nan) : zunionInterAggregate agg t v ≠ .nan := by
  cases agg <;> cases t <;> cases v <;> grind [zunionInterAggregate, normal, Score.lt]

lemma normal_ne_nan (s : Score) : normal s ≠ .nan := by
  unfold normal
  split <;> simp_all

lemma foldl_combine_perm {vs vs' : List (Option Score)} (hp : vs.Perm vs') :
    (∀ o ∈ vs, ∀ s, o = some s → Fine agg neg s) →
    ∀ acc : Option Score, (∀ s, acc = some s → Fine agg neg s) →
      vs.foldl (combine agg) acc = vs'.foldl (combine agg) acc := by
  have hkeep : ∀ a b : Option Score, (∀ s, a = some s → Fine agg neg s) →
      (∀ s, b = some s → Fine agg neg s) → ∀ s, combine agg a b = some s → Fine agg neg s := by
    rintro (_ | a) (_ | b) ha hb s hs
    · cases hs
    · exact hb s hs
    · exact ha s hs
    cases hs
    exact (ha a rfl).aggregate (hb b rfl)
  induction hp with
  | nil => exact fun _ _ _ => rfl
  | cons o _ ih =>
    intro h acc hacc
    exact ih (fun o' ho' => h o' (mem_cons_of_mem _ ho')) _ (hkeep acc o hacc (h o mem_cons_self))
  | swap a b l =>
    intro h acc hacc
    have ha := h a (by simp)
    have hb := h b (by simp)
    have hswap : combine agg (combine agg acc b) a = combine agg (combine agg acc a) b := by
      rcases acc with _ | t <;> rcases a with _ | a <;> rcases b with _ | b <;> try rfl
      · exact congrArg some (aggregate_comm (hb b rfl) (ha a rfl))
      · exact congrArg some (aggregate_right_comm (hacc t rfl) (hb b rfl) (ha a rfl))
    rw [foldl_cons, foldl_cons, foldl_cons, foldl_cons, hswap]
  | trans hp _ ih ih' =>
    intro h acc hacc
    exact (ih h acc hacc).trans (ih' (fun o ho => h o (hp.mem_iff.mpr ho)) acc hacc)

lemma interFold_ne_nan {vs : List (Option Score)} : ∀ {t s : Score}, t ≠ .nan →
    interFold agg vs t = some s → s ≠ .nan := by
  induction vs with
  | nil =>
    intro t s ht h
    cases h
    exact ht
  | cons o vs ih =>
    intro t s ht h
    obtain ⟨v, _, h⟩ := bind_eq_some_iff.mp h
    exact ih (aggregate_ne_nan ht) h

lemma foldl_combine_ne_nan {vs : List (Option Score)} (h : ∀ o ∈ vs, o ≠ some .nan) :
    ∀ acc : Option Score, acc ≠ some .nan → vs.foldl (combine agg) acc ≠ some .nan := by
  induction vs with
  | nil => exact fun _ hacc => hacc
  | cons o vs ih =>
    intro acc hacc
    refine ih (forall_mem_cons.mp h).2 _ ?_
    have ho := h o mem_cons_self
    rcases acc with _ | t <;> rcases o with _ | v
    · exact ho
    · exact ho
    · exact hacc
    · exact fun hn => aggregate_ne_nan (fun ht => hacc (congrArg some ht)) (Option.some.inj hn)

end

/-! ## Where both commands agree -/

/-- The aggregate of `ZINTER`: NaN is set to 0 in the first value only. -/
def interAggregate (agg : Aggregation) (v : Score) (vs : List Score) : Score :=
  vs.foldl (zunionInterAggregate agg) (normal v)

/-- The aggregate of `ZUNION`. -/
def unionAggregate (agg : Aggregation) (v : Score) (vs : List Score) : Score :=
  (vs.map normal).foldl (zunionInterAggregate agg) (normal v)

/-- On the side of 0 at which 0 does not change the aggregate. -/
def Beyond (agg : Aggregation) (u : Score) : Prop :=
  u = .fin 0 ∨ if agg = .min then u.lt (.fin 0) = true else Score.lt (.fin 0) u = true

def sign : Score → Option Bool
  | .inf neg => some neg
  | _ => none

/-- Added to the sum `t`, the values come to what they come to when added to 0: an infinity
takes along any finite sum, and an infinite one comes to the same when two infinities of one
sign follow each other, itself included. -/
def Absorbs (vs : List Score) : Score → Prop
  | .fin a => a = 0 ∨ ∃ neg, .inf neg ∈ vs
  | .inf neg => ¬ (neg :: vs.filterMap sign).IsChain (· ≠ ·)
  | .nan => False

/-- What NaN among the other values of a member does not disturb. -/
def Agrees (agg : Aggregation) (v : Score) (vs : List Score) : Prop :=
  if agg = .sum then
    ∀ pre post, vs = pre ++ .nan :: post → .nan ∉ post → Absorbs post (unionAggregate .sum v pre)
  else .nan ∈ vs → ∃ u ∈ normal v :: vs, Beyond agg u

section
variable {agg : Aggregation}

lemma aggregate_fin_zero (ht : t ≠ .nan) : zunionInterAggregate .sum t (.fin 0) = t := by
  cases t <;> simp_all [zunionInterAggregate, Score.add, normal]

lemma foldl_ne_nan {vs : List Score} (ht : t ≠ .nan) :
    vs.foldl (zunionInterAggregate agg) t ≠ .nan := by
  induction vs generalizing t with
  | nil => exact ht
  | cons u vs ih => exact ih (aggregate_ne_nan ht)

lemma map_normal {vs : List Score} (h : .nan ∉ vs) : vs.map normal = vs :=
  (map_congr_left fun _ hu => if_neg (ne_of_mem_of_not_mem hu h)).trans (map_id vs)

/-! ### Sums -/

lemma sum_fin (vs : List Score) (h : .nan ∉ vs) : ∀ a b : ℚ,
    vs.foldl (zunionInterAggregate .sum) (.fin a) = vs.foldl (zunionInterAggregate .sum) (.fin b) ↔
      a = b ∨ ∃ neg, .inf neg ∈ vs := by
  induction vs with
  | nil => simp
  | cons u vs ih =>
    intro a b
    obtain ⟨hu, hvs⟩ := not_or.mp (mt mem_cons.mpr h)
    cases u with
    | nan => exact absurd rfl hu
    | inf neg => simp [zunionInterAggregate, Score.add, normal]
    | fin c => simp [zunionInterAggregate, Score.add, normal, ih hvs]

lemma sum_inf (vs : List Score) (h : .nan ∉ vs) : ∀ (neg : Bool) (a : ℚ),
    vs.foldl (zunionInterAggregate .sum) (.inf neg) =
        vs.foldl (zunionInterAggregate .sum) (.fin a) ↔
      ¬ (neg :: vs.filterMap sign).IsChain (· ≠ ·) := by
  induction vs with
  | nil => simp
  | cons u vs ih =>
    intro neg a
    obtain ⟨hu, hvs⟩ := not_or.mp (mt mem_cons.mpr h)
    cases u with
    | nan => exact absurd rfl hu
    | fin c => exact ih hvs neg (a + c)
    | inf c =>
      -- the same infinity makes both alike, the other one swaps their parts
      by_cases hc : neg = c
      · simp [zunionInterAggregate, Score.add, normal, sign, hc]
      · have hswap := ih hvs c 0
        simp [zunionInterAggregate, Score.add, normal, sign, hc, ← hswap, eq_comm]

lemma absorbs_iff {vs : List Score} (h : .nan ∉ vs) (ht : t ≠ .nan) :
    vs.foldl (zunionInterAggregate .sum) (.fin 0) = vs.foldl (zunionInterAggregate .sum) t ↔
      Absorbs vs t := by
  cases t with
  | nan => exact absurd rfl ht
  | fin a => rw [eq_comm, sum_fin vs h, Absorbs]
  | inf neg => rw [eq_comm, sum_inf vs h, Absorbs]

lemma sum_agrees_iff (v : Score) (vs : List Score) :
    interAggregate .sum v vs = unionAggregate .sum v vs ↔ Agrees .sum v vs := by
  have hsplit : ∀ pre post, vs = pre ++ .nan :: post → .nan ∉ post →
      (interAggregate .sum v vs = unionAggregate .sum v vs ↔
        Absorbs post (unionAggregate .sum v pre)) := by
    rintro pre post rfl hpost
    have hzero (t : Score) : zunionInterAggregate .sum t .nan = .fin 0 := by
      cases t <;> rfl
    have hsum : unionAggregate .sum v pre ≠ .nan := foldl_ne_nan (normal_ne_nan v)
    rw [← absorbs_iff hpost hsum, interAggregate, unionAggregate, map_append, map_cons,
      map_normal hpost, foldl_append, foldl_cons, hzero, foldl_append, foldl_cons]
    exact Iff.of_eq (congrArg (_ = post.foldl _ ·) (aggregate_fin_zero hsum))
  rw [Agrees, if_pos rfl]
  by_cases hnan : .nan ∈ vs
  · obtain ⟨as, bs, hrev, hno⟩ := eq_append_cons_of_mem (mem_reverse.mpr hnan)
    have hvs : vs = bs.reverse ++ .nan :: as.reverse := by
      rw [← reverse_reverse vs, hrev]
      simp
    refine ⟨fun heq pre post h hpost => (hsplit pre post h hpost).mp heq, fun hall => ?_⟩
    have hpost : .nan ∉ as.reverse := mt mem_reverse.mp hno
    exact (hsplit _ _ hvs hpost).mpr (hall _ _ hvs hpost)
  · refine iff_of_true (by rw [interAggregate, unionAggregate, map_normal hnan]) ?_
    rintro pre post rfl
    exact absurd (mem_append_right _ mem_cons_self) hnan

/-! ### Minima and maxima -/

section
variable (hagg : agg ≠ .sum)
include hagg

lemma aggregate_nan : zunionInterAggregate agg t .nan = t := by
  cases agg <;> cases t <;> simp_all [zunionInterAggregate, Score.lt]

lemma foldl_aggregate {z : Score} (ht : t ≠ .nan) (hz : z ≠ .nan) (vs : List Score) :
    vs.foldl (zunionInterAggregate agg) (zunionInterAggregate agg t z) =
      zunionInterAggregate agg (vs.foldl (zunionInterAggregate agg) t) z := by
  induction vs generalizing t with
  | nil => rfl
  | cons u vs ih =>
    rw [foldl_cons, foldl_cons, ← ih (aggregate_ne_nan ht)]
    by_cases hu : u = .nan
    · rw [hu, aggregate_nan hagg, aggregate_nan hagg]
    · have hfine {x : Score} (hx : x ≠ .nan) : Fine agg false x := ⟨hx, fun h => absurd h hagg⟩
      rw [aggregate_right_comm (hfine ht) (hfine hz) (hfine hu)]

lemma foldl_normal (ht : t ≠ .nan) (vs : List Score) :
    (vs.map normal).foldl (zunionInterAggregate agg) t = if .nan ∈ vs then
      zunionInterAggregate agg (vs.foldl (zunionInterAggregate agg) t) (.fin 0)
    else vs.foldl (zunionInterAggregate agg) t := by
  induction vs generalizing t with
  | nil => rfl
  | cons u vs ih =>
    rw [map_cons, foldl_cons, foldl_cons, ih (aggregate_ne_nan ht)]
    by_cases hu : u = .nan
    · subst hu
      have htwice (x : Score) : zunionInterAggregate agg (zunionInterAggregate agg x (.fin 0))
          (.fin 0) = zunionInterAggregate agg x (.fin 0) := by
        cases agg <;> cases x <;> grind [zunionInterAggregate, Score.lt]
      have hzero : (.fin 0 : Score) ≠ .nan := nofun
      rw [aggregate_nan hagg, normal, if_pos rfl, foldl_aggregate hagg ht hzero,
        if_pos mem_cons_self, htwice, ite_self]
    · rw [normal, if_neg hu]
      simp [Ne.symm hu]

lemma beyond_foldl (vs : List Score) : ∀ t : Score, t ≠ .nan →
    (Beyond agg (vs.foldl (zunionInterAggregate agg) t) ↔ ∃ u ∈ t :: vs, Beyond agg u) := by
  induction vs with
  | nil => simp
  | cons u vs ih =>
    intro t ht
    have hstep : Beyond agg (zunionInterAggregate agg t u) ↔ Beyond agg t ∨ Beyond agg u := by
      cases agg <;> cases t <;> cases u <;> grind [Beyond, zunionInterAggregate, Score.lt]
    rw [foldl_cons, ih _ (aggregate_ne_nan ht), exists_mem_cons_iff, hstep, exists_mem_cons_iff,
      exists_mem_cons_iff]
    tauto

lemma extreme_agrees_iff (v : Score) (vs : List Score) :
    interAggregate agg v vs = unionAggregate agg v vs ↔ Agrees agg v vs := by
  rw [Agrees, if_neg hagg, ← beyond_foldl hagg vs _ (normal_ne_nan v), unionAggregate,
    foldl_normal hagg (normal_ne_nan v), interAggregate]
  generalize hx : vs.foldl (zunionInterAggregate agg) (normal v) = x
  have hne : x ≠ .nan := hx ▸ foldl_ne_nan (normal_ne_nan v)
  split
  · rename_i hnan
    cases agg <;> cases x <;> grind [Beyond, zunionInterAggregate, Score.lt]
  · rename_i hnan
    exact iff_of_true rfl fun h => absurd h hnan

end

end

section
variable {κ : Type} {db : κ → Option Collection} {agg : Aggregation}

/-- The member is in every input, with these weighted values. -/
def Values (db : κ → Option Collection) (m : Bytes) (inputs : List (κ × Score)) (v : Score)
    (vs : List Score) : Prop := inputs.map (value db m) = (v :: vs).map some

/-- At most one kind of infinity among the weighted values of the member. -/
def OneInfinity (db : κ → Option Collection) (m : Bytes) (inputs : List (κ × Score)) : Prop :=
  ∃ neg, ∀ i ∈ inputs, ∀ b, value db m i = some (.inf b) → b = neg

lemma zunion_perm {inputs inputs' : List (κ × Score)} {m : Bytes} (hp : inputs.Perm inputs')
    (hinf : agg = .sum → OneInfinity db m inputs) :
    zunion db agg inputs m = zunion db agg inputs' m := by
  obtain ⟨neg, hneg⟩ : ∃ neg, agg = .sum → ∀ i ∈ inputs, ∀ b, value db m i = some (.inf b) →
      b = neg := by
    by_cases hs : agg = .sum
    · obtain ⟨neg, h⟩ := hinf hs
      exact ⟨neg, fun _ => h⟩
    · exact ⟨false, fun h => absurd h hs⟩
  have hfine : ∀ o ∈ inputs.map (fun i => (value db m i).map normal), ∀ s, o = some s →
      Fine agg neg s := by
    intro o ho s hs
    obtain ⟨i, hi, rfl⟩ := mem_map.mp ho
    obtain ⟨v, hv, rfl⟩ := map_eq_some_iff.mp hs
    refine ⟨normal_ne_nan v, fun hsum b hb => ?_⟩
    grind [normal]
  rw [zunion_eq, zunion_eq]
  exact foldl_combine_perm (hp.map _) hfine none nofun

variable [DecidableEq κ]

lemma interFold_some : ∀ (vs : List Score) (t : Score),
    interFold agg (vs.map some) t = some (vs.foldl (zunionInterAggregate agg) t)
  | [], _ => rfl
  | _ :: vs, _ => interFold_some vs _

lemma foldl_combine_some : ∀ (vs : List Score) (t : Score),
    (vs.map some).foldl (combine agg) (some t) = some (vs.foldl (zunionInterAggregate agg) t)
  | [], _ => rfl
  | _ :: vs, _ => foldl_combine_some vs _

lemma zinter_eq_zunion_iff {inputs : List (κ × Score)} {m : Bytes} {v : Score} {vs : List Score}
    (h : Values db m inputs v vs) :
    zinter db agg inputs m = zunion db agg inputs m ↔ Agrees agg v vs := by
  have hunion : zunion db agg inputs m = some (unionAggregate agg v vs) := by
    have hmap : inputs.map (fun i => (value db m i).map normal) =
        some (normal v) :: (vs.map normal).map some := by
      have hmap := congrArg (map (Option.map normal)) h
      simpa [Function.comp_def] using hmap
    rw [zunion_eq, hmap]
    exact foldl_combine_some _ _
  have hinter : zinter db agg inputs m = some (interAggregate agg v vs) := by
    cases inputs with
    | nil => cases h
    | cons i rest =>
      obtain ⟨hv, hvs⟩ := cons_eq_cons.mp h
      rw [zinter_cons, hv, bind_some, hvs, interFold_some]
      rfl
  rw [hunion, hinter, some.injEq]
  by_cases hagg : agg = .sum
  · subst hagg
    exact sum_agrees_iff v vs
  · exact extreme_agrees_iff hagg v vs

/-- No score is NaN. For a member of all inputs the intersection has the score of the union
exactly where NaN among its values does not disturb; the union does not depend on the order of
the inputs, unless a sum meets both infinities, and nor does the intersection then. -/
theorem scores_of_zunion_zinter (db : κ → Option Collection) (agg : Aggregation)
    (inputs : List (κ × Score)) (m : Bytes) :
    zunion db agg inputs m ≠ some .nan ∧ zinter db agg inputs m ≠ some .nan ∧
    (∀ v vs, Values db m inputs v vs →
      (zinter db agg inputs m = zunion db agg inputs m ↔ Agrees agg v vs)) ∧
    ∀ inputs', inputs.Perm inputs' → (agg = .sum → OneInfinity db m inputs) →
      zunion db agg inputs m = zunion db agg inputs' m ∧
      ∀ v vs v' vs', Values db m inputs v vs → Values db m inputs' v' vs' → Agrees agg v vs →
        Agrees agg v' vs' → zinter db agg inputs m = zinter db agg inputs' m := by
  refine ⟨?_, ?_, fun v vs => zinter_eq_zunion_iff, fun inputs' hp hinf =>
    ⟨zunion_perm hp hinf, fun v vs v' vs' h h' ha ha' => ?_⟩⟩
  · rw [zunion_eq]
    refine foldl_combine_ne_nan (fun o ho => ?_) none (by simp)
    obtain ⟨i, _, rfl⟩ := mem_map.mp ho
    cases value db m i <;> simp [normal_ne_nan]
  · cases inputs with
    | nil => exact nofun
    | cons i rest =>
      rw [zinter_cons]
      intro h
      obtain ⟨p, _, h⟩ := bind_eq_some_iff.mp h
      exact interFold_ne_nan (normal_ne_nan p) h rfl
  · rw [(zinter_eq_zunion_iff h).mpr ha, (zinter_eq_zunion_iff h').mpr ha', zunion_perm hp hinf]

/-- One sorted set has `m` with score 1, the other with an infinite score. -/
def infiniteDb : Bool → Option Collection
  | false => some ⟨.skiplist [([109], .fin 1)], by decide, by decide⟩
  | true => some ⟨.skiplist [([110], .fin 0), ([109], .inf false)], by decide, by decide⟩

/-- With the weights 1 and 0 the second value is NaN: the union takes it for 0, in the
intersection it takes the sum along. -/
theorem zinter_ne_zunion :
    zunion infiniteDb .sum [(false, .fin 1), (true, .fin 0)] [109] = some (.fin 1) ∧
    zinter infiniteDb .sum [(false, .fin 1), (true, .fin 0)] [109] = some (.fin 0) := by
  decide +kernel

end

end Redis.SortedSets.Aggregate
