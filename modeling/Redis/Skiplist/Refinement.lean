import Redis.Lib.Simulation
import Redis.Skiplist.Ranges

/-! # The skiplist is a sorted list

Every operation keeps the links, spans and counters of the skiplist exact, for
every choice of levels, and acts on the scores and elements as on a sorted
list. -/
namespace Redis.Skiplist.Refinement
open List Lib Model Links Search
open Ordered Ranges

variable {S : Type} [LinearOrder S] {zsl : Zskiplist S} {l : List (Item S)} {a b : Bytes}

/-! ## The operations -/

/-- Calls into the skiplist. `draws` stands for the random numbers drawn by the
call. -/
inductive Op (S : Type) where
  | insert (draws : Nat) (score : S) (ele : Bytes)
  | delete (score : S) (ele : Bytes)
  | updateScore (draws : Nat) (curscore : S) (ele : Bytes) (newscore : S)
  | deleteRangeByScore (range : Zrangespec S)
  | deleteRangeByLex (range : Zlexrangespec)
  | deleteRangeByRank (start stop : Nat)

/-- What a call returns. A range deletion returns the number of nodes removed,
after it deleted their elements from the dict. -/
inductive Reply where
  | done
  | found (b : Bool)
  | removed (dict : List Bytes) (n : Nat)
deriving DecidableEq, Repr

/-- A dict that notes what is deleted from it. -/
def dictDelete (log : List Bytes) (ele : Bytes) : Outcome (List Bytes) := .ok (log ++ [ele])

def step (op : Op S) (zsl : Zskiplist S) : Outcome (Zskiplist S × Reply) :=
  match op with
  | .insert draws score ele => do
    let (zsl, _) ← zslInsert zsl (zslRandomLevel draws) score ele
    .ok (zsl, .done)
  | .delete score ele => do
    let (zsl, b) ← zslDelete zsl score ele
    .ok (zsl, .found b)
  | .updateScore draws curscore ele newscore => do
    let (zsl, _) ← zslUpdateScore zsl (zslRandomLevel draws) curscore ele newscore
    .ok (zsl, .done)
  | .deleteRangeByScore range => do
    let (zsl, dict, n) ← zslDeleteRangeByScore dictDelete zsl range []
    .ok (zsl, .removed dict n)
  | .deleteRangeByLex range => do
    let (zsl, dict, n) ← zslDeleteRangeByLex dictDelete zsl range []
    .ok (zsl, .removed dict n)
  | .deleteRangeByRank start stop => do
    let (zsl, dict, n) ← zslDeleteRangeByRank dictDelete zsl start stop []
    .ok (zsl, .removed dict n)

/-! ## The same operations on a sorted list -/

def inScoreRange (range : Zrangespec S) (a : Item S) : Bool :=
  zslValueGteMin a.1 range && zslValueLteMax a.1 range

omit [LinearOrder S] in
def inLexRange (range : Zlexrangespec) (a : Item S) : Bool :=
  zslLexValueGteMin a.2 range && zslLexValueLteMax a.2 range

/-- A list without the block `mid`, and the reply. -/
def removedReply (mid : List (Item S)) : Reply := .removed (mid.map Prod.snd) mid.length

def OneScore (l : List (Item S)) : Prop := ∀ a ∈ l, ∀ b ∈ l, a.1 = b.1

/-- What an operation does to a sorted list. The lexicographic deletion is only
specified for elements of one score; on others it still removes one block of
neighbours. -/
def Effect (op : Op S) (l l' : List (Item S)) (r : Reply) : Prop :=
  match op with
  | .insert _ score ele => l' = insertItem (score, ele) l ∧ r = .done
  | .delete score ele => l' = l.filter (· ≠ (score, ele)) ∧ r = .found (decide ((score, ele) ∈ l))
  | .updateScore _ curscore ele newscore => (curscore, ele) ∈ l ∧
      l' = insertItem (newscore, ele) (l.filter (· ≠ (curscore, ele))) ∧ r = .done
  | .deleteRangeByScore range => l' = l.filter (fun a => !inScoreRange range a) ∧
      r = removedReply (l.filter (inScoreRange range))
  | .deleteRangeByLex range =>
      (∃ pre mid rest, l = pre ++ (mid ++ rest) ∧ l' = pre ++ rest ∧ r = removedReply mid ∧
        Cut (fun a => !zslLexValueGteMin a.2 range) (fun a => zslLexValueLteMax a.2 range) pre mid rest) ∧
      (OneScore l → l' = l.filter (fun a => !inLexRange range a) ∧
        r = removedReply (l.filter (inLexRange range)))
  | .deleteRangeByRank start stop => l' = l.take (start - 1) ++ l.drop (max (start - 1) stop) ∧
      r = removedReply ((l.drop (start - 1)).take (stop - (start - 1)))

/-- No two nodes with the same score and element. -/
def Distinct (op : Op S) (l : List (Item S)) : Prop :=
  match op with
  | .insert _ score ele => (score, ele) ∉ l
  | .updateScore _ curscore ele newscore => (newscore, ele) ∉ l.filter (· ≠ (curscore, ele))
  | _ => True

/-- The caller of `zslUpdateScore` has the element and its score. -/
def Missing (op : Op S) (l : List (Item S)) : Prop :=
  match op with
  | .updateScore _ curscore ele _ => (curscore, ele) ∉ l
  | _ => False

/-- The skiplist is a well linked list of these items in order. -/
def Represents (zsl : Zskiplist S) (l : List (Item S)) : Prop := ∃ ts, Holds zsl ts ∧ items ts = l

/-- A sequence of operations goes as on the sorted list `l`, and the skiplist
represents the list all the way. -/
def Behaves : List (Op S) → List (Item S) → Zskiplist S → Prop
  | [], l, zsl => Represents zsl l
  | op :: ops, l, zsl => Represents zsl l ∧ (Distinct op l →
      Missing op l ∧ step op zsl = .error .assertion ∨
      ∃ zsl' l' r, step op zsl = .ok (zsl', r) ∧ Effect op l l' r ∧ Behaves ops l' zsl')

/-! ## Range deletions -/

omit [LinearOrder S] in
lemma dictDeleteAll_log (log : List Bytes) (ts : List (Tower S)) :
    dictDeleteAll dictDelete log ts = .ok (log ++ (items ts).map Prod.snd) := by
  induction ts generalizing log with
  | nil => rw [items, map_nil, map_nil, append_nil]; rfl
  | cons t ts ih =>
    rw [dictDeleteAll_cons, dictDelete, Outcome.bind_ok, ih, append_assoc]
    rfl

lemma deleteRange_holds {skip go : Nat → ZskiplistNode S → Bool} (hskip : Plain skip) (hgo : Plain go)
    {ts : List (Tower S)} (h : Holds zsl ts) :
    ∃ pre mid rest zsl', ts = pre ++ (mid ++ rest) ∧ Block skip go pre mid rest ∧
      Holds zsl' (pre ++ rest) ∧
      deleteRange dictDelete skip go zsl [] = .ok (zsl', (items mid).map Prod.snd, (items mid).length) := by
  obtain ⟨pre, mid, rest, zsl', rfl, hblock, hvalid, hrun⟩ :=
    deleteRange_spec dictDelete h.valid hskip hgo []
  refine ⟨pre, mid, rest, zsl', rfl, hblock, ⟨hvalid, h.sorted.sublist ?_⟩, ?_⟩
  · exact ((List.Sublist.refl pre).append (sublist_append_right mid rest)).map _
  · rw [hrun, dictDeleteAll_log, Outcome.bind_ok, nil_append, items, length_map]

lemma deleteRange_cut (p q : Item S → Bool)
    (h : Represents zsl l) : ∃ pre mid rest zsl', l = pre ++ (mid ++ rest) ∧ Cut p q pre mid rest ∧
      Represents zsl' (pre ++ rest) ∧
      deleteRange dictDelete (fun _ n => p (n.score, n.ele)) (fun _ n => q (n.score, n.ele)) zsl [] =
        .ok (zsl', mid.map Prod.snd, mid.length) := by
  obtain ⟨ts, hts, rfl⟩ := h
  have hplain : ∀ f : Item S → Bool, Plain fun _ n => f (n.score, n.ele) := fun _ _ _ _ _ => rfl
  obtain ⟨pre, mid, rest, zsl', rfl, hblock, hholds, hrun⟩ := deleteRange_holds (hplain p) (hplain q) hts
  refine ⟨items pre, items mid, items rest, zsl', ?_, ?_, ⟨_, hholds, map_append⟩, hrun⟩
  · simp only [items, map_append]
  · exact hblock.cut (fun _ _ => rfl) fun _ _ => rfl

lemma not_gteMin_mono {range : Zrangespec S} {a b : Item S} (h : Before a b)
    (hb : (!zslValueGteMin b.1 range) = true) : (!zslValueGteMin a.1 range) = true := by
  unfold zslValueGteMin at hb ⊢
  cases hex : range.minex
  · simp [hex] at hb ⊢
    exact lt_of_le_of_lt h.le hb
  simp [hex] at hb ⊢
  exact le_trans h.le hb

lemma lteMax_mono {range : Zrangespec S} {a b : Item S} (h : Before a b)
    (hb : zslValueLteMax b.1 range = true) : zslValueLteMax a.1 range = true := by
  unfold zslValueLteMax at hb ⊢
  cases hex : range.maxex
  · simp [hex] at hb ⊢
    exact le_trans h.le hb
  simp [hex] at hb ⊢
  exact lt_of_le_of_lt h.le hb

lemma Represents.sorted (h : Represents zsl l) : l.Pairwise Before := by
  obtain ⟨ts, hts, rfl⟩ := h
  exact hts.sorted

/-- A step that keeps the invariant and has its effect. -/
def Steps (op : Op S) (zsl : Zskiplist S) (l : List (Item S)) : Prop :=
  ∃ zsl' l' r, step op zsl = .ok (zsl', r) ∧ Effect op l l' r ∧ Represents zsl' l'

lemma deleteRangeByScore_steps (range : Zrangespec S)
    (h : Represents zsl l) : Steps (.deleteRangeByScore range) zsl l := by
  have hs := h.sorted
  obtain ⟨pre, mid, rest, zsl', rfl, hcut, hrep, hrun⟩ := deleteRange_cut
    (fun a => !zslValueGteMin a.1 range) (fun a => zslValueLteMax a.1 range) h
  obtain ⟨hkept, hremoved⟩ := hcut.filter (fun a b => not_gteMin_mono) (fun a b => lteMax_mono) hs
  simp only [Bool.not_not] at hkept hremoved
  refine ⟨zsl', _, removedReply mid, ?_, ⟨hkept, congrArg removedReply hremoved⟩, hrep⟩
  rw [step, zslDeleteRangeByScore, hrun]
  rfl

/-! ### Elements -/

lemma sdscmp_lt : sdscmp a b = .lt ↔ a < b := by
  unfold sdscmp
  split
  · simp [*]
  · split <;> simp [*]

lemma sdscmp_gt : sdscmp a b = .gt ↔ b < a := by
  unfold sdscmp
  split
  · rename_i h
    simp [List.lt_asymm h]
  split
  · rename_i h
    simp [h]
  rename_i h h'
  simp only [true_iff]
  exact Decidable.byContradiction fun hn =>
    h' (List.le_antisymm (List.not_lt.mp hn) (List.not_lt.mp h))

lemma not_lexGteMin_mono {range : Zlexrangespec} (h : a < b)
    (hb : (!zslLexValueGteMin b range) = true) : (!zslLexValueGteMin a range) = true := by
  unfold zslLexValueGteMin at hb ⊢
  cases hmin : range.min with
  | minstring => simp [hmin, sdscmplex] at hb
  | maxstring => simp [sdscmplex]
  | str m =>
    cases hex : range.minex
    · simp only [hmin, hex, sdscmplex, ne_eq, sdscmp_lt, Bool.false_eq_true, if_false, decide_not,
        Bool.not_not, decide_eq_true_iff] at hb ⊢
      exact List.lt_trans h hb
    simp only [hmin, hex, sdscmplex, sdscmp_gt, if_true, Bool.not_eq_true', decide_eq_false_iff_not] at hb ⊢
    exact fun hm => hb (List.lt_trans hm h)

lemma lexLteMax_mono {range : Zlexrangespec} (h : a < b)
    (hb : zslLexValueLteMax b range = true) : zslLexValueLteMax a range = true := by
  unfold zslLexValueLteMax at hb ⊢
  cases hmax : range.max with
  | minstring => simp [hmax, sdscmplex] at hb
  | maxstring => simp [sdscmplex]
  | str m =>
    cases hex : range.maxex
    · simp only [hmax, hex, sdscmplex, ne_eq, sdscmp_gt, Bool.false_eq_true, if_false,
        decide_eq_true_iff] at hb ⊢
      exact fun hm => hb (List.lt_trans hm h)
    simp only [hmax, hex, sdscmplex, sdscmp_lt, if_true, decide_eq_true_iff] at hb ⊢
    exact List.lt_trans h hb

lemma OneScore.sorted (h : OneScore l) (hs : l.Pairwise Before) :
    l.Pairwise fun a b => a.2 < b.2 := by
  refine hs.imp_of_mem fun {a b} ha hb hab => ?_
  rcases hab with hab | ⟨_, hab⟩
  · exact absurd (h a ha b hb) (ne_of_lt hab)
  · exact hab

lemma deleteRangeByLex_steps (range : Zlexrangespec)
    (h : Represents zsl l) : Steps (.deleteRangeByLex range) zsl l := by
  have hs := h.sorted
  obtain ⟨pre, mid, rest, zsl', rfl, hcut, hrep, hrun⟩ := deleteRange_cut
    (fun a => !zslLexValueGteMin a.2 range) (fun a => zslLexValueLteMax a.2 range) h
  refine ⟨zsl', _, removedReply mid, ?_, ⟨⟨pre, mid, rest, rfl, rfl, rfl, hcut⟩, fun hone => ?_⟩, hrep⟩
  · rw [step, zslDeleteRangeByLex, hrun]
    rfl
  obtain ⟨hkept, hremoved⟩ := hcut.filter (fun a b => not_lexGteMin_mono) (fun a b => lexLteMax_mono)
    (hone.sorted hs)
  simp only [Bool.not_not] at hkept hremoved
  exact ⟨hkept, congrArg removedReply hremoved⟩

/-! ### Ranks -/

lemma deleteRangeByRank_steps (start stop : Nat)
    (h : Represents zsl l) : Steps (.deleteRangeByRank start stop) zsl l := by
  obtain ⟨ts, hts, rfl⟩ := h
  have hplain : ∀ f : Nat → Bool, Plain (S := S) fun rank _ => f rank := fun _ _ _ _ _ => rfl
  obtain ⟨pre, mid, rest, zsl', rfl, hblock, hholds, hrun⟩ := deleteRange_holds
    (hplain fun rank => rank < start) (hplain fun traversed => traversed ≤ stop) hts
  obtain ⟨⟨h1, h2⟩, h3, h4⟩ := Block.rank hblock
  obtain ⟨htake, hdrop⟩ := items_take_drop h1 h2
  obtain ⟨htake', hdrop'⟩ := items_take_drop h3 h4
  refine ⟨zsl', items (pre ++ rest), removedReply (items mid), ?_, ⟨?_, ?_⟩, ⟨_, hholds, rfl⟩⟩
  · rw [step, zslDeleteRangeByRank, hrun]
    rfl
  · have hmax : max (start - 1) stop = start - 1 + (stop - (start - 1)) := by omega
    rw [hmax, ← drop_drop, htake, hdrop, hdrop']
    exact map_append
  · rw [hdrop, htake']

/-! ## Whole runs -/

lemma step_spec (op : Op S) (h : Represents zsl l)
    (hd : Distinct op l) : Missing op l ∧ step op zsl = .error .assertion ∨ Steps op zsl l := by
  cases op with
  | insert draws score ele =>
    obtain ⟨ts, hts, rfl⟩ := h
    obtain ⟨zsl', ts', hrun, hholds, hitems, _⟩ := zslInsert_spec hts draws hd
    refine .inr ⟨zsl', _, _, ?_, ⟨rfl, rfl⟩, ⟨ts', hholds, hitems⟩⟩
    rw [step, hrun]
    rfl
  | delete score ele =>
    obtain ⟨ts, hts, rfl⟩ := h
    obtain ⟨zsl', ts', hrun, hholds, hitems⟩ := zslDelete_spec hts (score, ele)
    refine .inr ⟨zsl', _, _, ?_, ⟨rfl, rfl⟩, ⟨ts', hholds, hitems⟩⟩
    rw [step, hrun]
    rfl
  | updateScore draws curscore ele newscore =>
    obtain ⟨ts, hts, rfl⟩ := h
    by_cases hmem : (curscore, ele) ∈ items ts
    · obtain ⟨zsl', ts', id, hrun, hholds, hitems⟩ := zslUpdateScore_spec hts draws hmem hd
      refine .inr ⟨zsl', _, _, ?_, ⟨hmem, rfl, rfl⟩, ⟨ts', hholds, hitems⟩⟩
      rw [step, hrun]
      rfl
    refine .inl ⟨hmem, ?_⟩
    rw [step, zslUpdateScore_missing hts _ newscore hmem]
    rfl
  | deleteRangeByScore range => exact .inr (deleteRangeByScore_steps range h)
  | deleteRangeByLex range => exact .inr (deleteRangeByLex_steps range h)
  | deleteRangeByRank start stop => exact .inr (deleteRangeByRank_steps start stop h)

lemma behaves_of_represents (ops : List (Op S)) : ∀ {zsl : Zskiplist S} {l : List (Item S)},
    Represents zsl l → Behaves ops l zsl := by
  induction ops with
  | nil => exact fun h => h
  | cons op ops ih =>
    refine fun {zsl l} h => ⟨h, fun hd => ?_⟩
    rcases step_spec op h hd with hm | ⟨zsl', l', r, hrun, heff, hrep⟩
    · exact .inl hm
    · exact .inr ⟨zsl', l', r, hrun, heff, ih hrep⟩

/-- From the empty skiplist, every sequence of operations goes as on a sorted
list. -/
theorem skiplist_refines_sorted_list (ops : List (Op S)) : Behaves ops [] zslCreate :=
  behaves_of_represents ops ⟨[], ⟨valid_create, List.Pairwise.nil⟩, rfl⟩

/-- The elements c, a and d with growing scores, and the deletion of the range
from b to z. -/
def lexScript (draws : Nat) : List (Op Nat) :=
  [.insert 0 1 [99], .insert draws 2 [97], .insert 0 3 [100],
    .deleteRangeByLex ⟨.str [98], .str [122], false, false⟩]

/-- Elements of different scores: what is removed depends on the levels, and
never is what lies in the range. -/
theorem deleteRangeByLex_depends_on_levels :
    (Simulation.run step (lexScript 0) zslCreate).map Prod.snd =
      .ok [.done, .done, .done, .removed [[99], [97], [100]] 3] ∧
    (Simulation.run step (lexScript 1) zslCreate).map Prod.snd =
      .ok [.done, .done, .done, .removed [[100]] 1] ∧
    [(1, [99]), (2, [97]), (3, [100])].filter
      (inLexRange (S := Nat) ⟨.str [98], .str [122], false, false⟩) = [(1, [99]), (3, [100])] := by
  decide

end Redis.Skiplist.Refinement
