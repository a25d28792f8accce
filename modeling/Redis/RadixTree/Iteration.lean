import Redis.RadixTree.Cursor
import Redis.RadixTree.Refinement

/-! # What an iterator returns

`raxSeek` goes to the nearest key that satisfies the operator, and from there
the iterator returns the keys of the tree in order. -/
namespace Redis.RadixTree.Iteration
open List Lib Outcome Model Entries Paths
open Insertion Iterator Cursor
open Refinement

variable {V : Type} {b : Bool} {c : UInt8} {head : RaxNode V} {n : RaxNode V} {e : Entry V}

/-! ## Steps -/

/-- At the first entry behind a gap, or at EOF. -/
def NextTo (head : RaxNode V) (b : Bool) (front rest : List (Entry V)) (it : RaxIterator V) : Prop :=
  (rest = [] ∧ it.eof = true) ∨ ∃ e es, rest = e :: es ∧ AtEntry head front e es b it

/-- At the last entry in front of a gap, or at EOF. -/
def PrevTo (head : RaxNode V) (b : Bool) (front rest : List (Entry V)) (it : RaxIterator V) : Prop :=
  (front = [] ∧ it.eof = true) ∨ ∃ es e, front = es ++ [e] ∧ AtEntry head es e rest b it

section
variable {t : Rax V} {it : RaxIterator V} {front rest : List (Entry V)} {e : Entry V} {noup : Bool}

lemma nextStep_of_reaches (hj : it.justSeeked = false) (he : it.eof = false)
    (h : ∃ r, nextLoop (t.head.nodes + 1) noup it = .ok r ∧ Reaches t.head false front rest r) :
    ∃ it', raxIteratorNextStep t it noup = .ok it' ∧ NextTo t.head false front rest it' := by
  obtain ⟨r, hrun, hr⟩ := h
  rw [raxIteratorNextStep, if_neg (by rw [he]; decide), if_neg (by rw [hj]; decide), hrun]
  cases r with
  | none => exact ⟨_, rfl, Or.inl ⟨hr, rfl⟩⟩
  | some it' => exact ⟨it', rfl, Or.inr hr⟩

lemma prevStep_of_reaches (hj : it.justSeeked = false) (he : it.eof = false)
    (h : ∃ r, prevLoop (t.head.nodes + 1) noup it = .ok r ∧ ReachesBack t.head false front rest r) :
    ∃ it', raxIteratorPrevStep t it noup = .ok it' ∧ PrevTo t.head false front rest it' := by
  obtain ⟨r, hrun, hr⟩ := h
  rw [raxIteratorPrevStep, if_neg (by rw [he]; decide), if_neg (by rw [hj]; decide), hrun]
  cases r with
  | none => exact ⟨_, rfl, Or.inl ⟨hr, rfl⟩⟩
  | some it' => exact ⟨it', rfl, Or.inr hr⟩

lemma eof_of_atEntry (h : AtEntry t.head front e rest b it) : it.eof = false := by
  obtain ⟨path, hat, _⟩ := h
  exact hat.eof

lemma fields_of_atEntry (h : AtEntry t.head front e rest b it) : (it.key, it.data) = e := by
  obtain ⟨_, _, _, _, _, he, _⟩ := h
  exact he

lemma atEntry_seeked {c : Bool} (h : AtEntry t.head front e rest b it) :
    AtEntry t.head front e rest c { it with justSeeked := c } := by
  obtain ⟨path, hat, hk, hd, hf, he, hr⟩ := h
  exact ⟨path, ⟨hat.on, hat.stack, hat.key, rfl, hat.eof⟩, hk, hd, hf, he, hr⟩

lemma next_of_atEntry (hw : WellFormed t.head) (h : AtEntry t.head front e rest false it) :
    ∃ it', raxIteratorNextStep t it false = .ok it' ∧
      NextTo t.head false (front ++ [e]) rest it' := by
  obtain ⟨path, hat, hk, hd, rfl, rfl, rfl⟩ := h
  refine nextStep_of_reaches hat.justSeeked hat.eof ?_
  have hgap := (gap_key path (hat.on.wf hw).shape hk).1
  rw [hd, hat.key, ← hgap]
  exact nextLoop_spec hw hat

lemma prev_of_atEntry (hw : WellFormed t.head) (h : AtEntry t.head front e rest false it) :
    ∃ it', raxIteratorPrevStep t it false = .ok it' ∧
      PrevTo t.head false front (e :: rest) it' := by
  obtain ⟨path, hat, hk, hd, rfl, rfl, rfl⟩ := h
  refine prevStep_of_reaches hat.justSeeked hat.eof ?_
  have hgap := (gap_key path (hat.on.wf hw).shape hk).2
  have hn := hat.nodes_le hw
  rw [hd, hat.key, ← hgap]
  exact prevLoop_spec hw _ hat (by omega)

lemma collect_next (hw : WellFormed t.head) : ∀ (rest : List (Entry V)) {it : RaxIterator V}
    {front : List (Entry V)} {e : Entry V} (rounds : Nat),
    AtEntry t.head front e rest false it → rest.length < rounds →
    collect (raxNext t) rounds it = .ok rest
  | rest, it, front, e, rounds + 1, h, hr => by
    obtain ⟨it', hrun, hto⟩ := next_of_atEntry hw h
    rw [collect, raxNext, hrun]
    simp only [bind_ok]
    rcases hto with ⟨rfl, heof⟩ | ⟨e', es, rfl, hat⟩
    · rw [heof]
      rfl
    rw [eof_of_atEntry hat, Bool.not_false, if_pos rfl,
      collect_next hw es rounds hat (Nat.lt_of_succ_lt_succ hr), bind_ok,
      fields_of_atEntry hat]

lemma collect_prev (hw : WellFormed t.head) : ∀ (rounds : Nat) {it : RaxIterator V}
    {front rest : List (Entry V)} {e : Entry V},
    AtEntry t.head front e rest false it → front.length < rounds →
    collect (raxPrev t) rounds it = .ok front.reverse
  | rounds + 1, it, front, rest, e, h, hr => by
    obtain ⟨it', hrun, hto⟩ := prev_of_atEntry hw h
    rw [collect, raxPrev, hrun]
    simp only [bind_ok]
    rcases hto with ⟨rfl, heof⟩ | ⟨es, e', rfl, hat⟩
    · rw [heof]
      rfl
    rw [length_append] at hr
    rw [eof_of_atEntry hat, Bool.not_false, collect_prev hw rounds hat (Nat.lt_of_succ_lt_succ hr), fields_of_atEntry hat, reverse_append]
    rfl

lemma collect_sought (hw : WellFormed t.head) (h : AtEntry t.head front e rest true it)
    {rounds : Nat} (hr : front.length + rest.length < rounds) :
    collect (raxNext t) (rounds + 1) it = .ok (e :: rest) ∧
      collect (raxPrev t) (rounds + 1) it = .ok (e :: front.reverse) := by
  have hj : it.justSeeked = true := by
    obtain ⟨_, hat, _⟩ := h
    exact hat.justSeeked
  have heof := eof_of_atEntry h
  have hmore : (!it.eof) = true := by rw [heof]; rfl
  have hat : AtEntry t.head front e rest false { it with justSeeked := false } := atEntry_seeked h
  constructor
  · rw [collect, raxNext, raxIteratorNextStep, if_neg (by rw [heof]; decide), if_pos hj]
    simp only [bind_ok]
    rw [if_pos hmore, collect_next hw rest rounds hat (by omega), bind_ok, fields_of_atEntry h]
  rw [collect, raxPrev, raxIteratorPrevStep, if_neg (by rw [heof]; decide), if_pos hj]
  simp only [bind_ok]
  rw [if_pos hmore, collect_prev hw rounds hat (by omega), bind_ok, fields_of_atEntry h]

lemma collect_eof (h : it.eof = true) (rounds : Nat) :
    collect (raxNext t) (rounds + 1) it = .ok [] ∧ collect (raxPrev t) (rounds + 1) it = .ok [] := by
  constructor
  · rw [collect, raxNext, raxIteratorNextStep, if_pos h]
    simp only [bind_ok, h]
    rfl
  rw [collect, raxPrev, raxIteratorPrevStep, if_pos h]
  simp only [bind_ok, h]
  rfl

end

/-! ## The gap a seek ends in -/

section
variable {path : List (Frame V)} {n : RaxNode V} {i : Nat} {r a : Bytes}

lemma forall_gapBefore {P : Bytes → Prop} (hb : ∀ d ∈ before path, P d.1)
    (hl : ∀ d ∈ left ⟨n, i⟩, P (pathKey path ++ d.1)) : ∀ d ∈ gapBefore path n i, P d.1 := by
  intro d hd
  rcases mem_append.mp hd with hd | hd
  · exact hb d hd
  obtain ⟨x, hx, rfl⟩ := mem_under.mp hd
  exact hl x hx

lemma forall_gapAfter {P : Bytes → Prop} (ha : ∀ d ∈ after path, P d.1)
    (hl : ∀ d ∈ belowFrom n i, P (pathKey path ++ d.1)) : ∀ d ∈ gapAfter path n i, P d.1 := by
  intro d hd
  rcases mem_append.mp hd with hd | hd
  · obtain ⟨x, hx, rfl⟩ := mem_under.mp hd
    exact hl x hx
  · exact ha d hd

lemma not_append_lt (p x : Bytes) : ¬ p ++ x < p := by
  cases x with
  | nil =>
    rw [append_nil]
    exact List.lt_irrefl _
  | cons c x =>
    have h : p ++ [] < p ++ c :: x := append_left_lt (nil_lt_cons ..)
    rw [append_nil] at h
    exact List.lt_asymm h

/-- The gap lies right at the string `r`: the entries of the node in front of it
are below the string and those behind it above. -/
structure Parts (n : RaxNode V) (i : Nat) (r : Bytes) : Prop where
  front : ∀ d ∈ left ⟨n, i⟩, d.1 < r
  rest : ∀ d ∈ belowFrom n i, r < d.1

lemma Parts.lt_key (h : Parts n i r) (hok : ∀ f ∈ path, FrameOk f) :
    ∀ d ∈ gapBefore path n i, d.1 < pathKey path ++ r :=
  forall_gapBefore (P := (· < pathKey path ++ r)) (fun _ hd => before_lt hok hd r) fun d hd => append_left_lt (h.front d hd)

lemma Parts.key_lt (h : Parts n i r) (hok : ∀ f ∈ path, FrameOk f) :
    ∀ d ∈ gapAfter path n i, pathKey path ++ r < d.1 :=
  forall_gapAfter (P := (pathKey path ++ r < ·)) (fun _ hd => lt_after hok hd r) fun d hd => append_left_lt (h.rest d hd)

lemma parts_of_missing (hi : n.iscompr = false) {d : Bytes} (hd : n.data = a ++ d)
    (ha : ∀ x ∈ a, x < c) (hc : ∀ x ∈ d, c < x) (s : Bytes) : Parts n a.length (c :: s) := by
  have hl : labels n = (a.map fun x => [x]) ++ d.map fun x => [x] := by
    rw [labels, if_neg (by rw [hi]; decide), hd, map_append]
  have hlen : (a.map fun x => [x]).length = a.length := length_map ..
  constructor
  · intro e he
    rcases mem_append.mp he with he | he
    · rw [(mem_own he).2]
      exact nil_lt_cons ..
    obtain ⟨l, hl', y, hy⟩ := mem_entriesAll he
    rw [hl, take_left' hlen] at hl'
    obtain ⟨x, hx, rfl⟩ := mem_map.mp hl'
    rw [hy]
    exact cons_lt_cons_iff.mpr (.inl (ha x hx))
  intro e he
  obtain ⟨l, hl', y, hy⟩ := mem_entriesAll he
  rw [hl, drop_left' hlen] at hl'
  obtain ⟨x, hx, rfl⟩ := mem_map.mp hl'
  rw [hy]
  exact cons_lt_cons_iff.mpr (.inl (hc x hx))

lemma belowFrom_compr (hc : n.iscompr = true) {e : Entry V} (he : e ∈ belowFrom n 0) :
    ∃ y, e.1 = n.data ++ y := by
  obtain ⟨l, hl, y, hy⟩ := mem_entriesAll he
  rw [labels, if_pos hc] at hl
  exact ⟨y, by rw [hy, mem_singleton.mp hl]⟩

lemma nil_lt_of_ne (h : a ≠ []) : [] < a := by
  cases a with
  | nil => exact absurd rfl h
  | cons c a => exact nil_lt_cons ..

lemma parts_above (hc : n.iscompr = true) (hr : r ≠ []) (h : ∀ y, r < n.data ++ y) :
    Parts n 0 r := by
  constructor
  · intro e he
    rw [left_zero] at he
    rw [(mem_own he).2]
    exact nil_lt_of_ne hr
  intro e he
  obtain ⟨y, hy⟩ := belowFrom_compr hc he
  rw [hy]
  exact h y

lemma parts_below (hs : Shape n) (hc : n.iscompr = true) (hr : r ≠ [])
    (h : ∀ y, n.data ++ y < r) : Parts n 1 r := by
  have h1 := (hs.compr hc).1
  have hnil := belowFrom_end hs (i := 1) h1.le
  constructor
  · have hsplit := left_append_belowFrom hs 1
    rw [hnil, append_nil, ← left_append_belowFrom hs 0, left_zero] at hsplit
    rw [hsplit]
    intro e he
    rcases mem_append.mp he with he | he
    · rw [(mem_own he).2]
      exact nil_lt_of_ne hr
    obtain ⟨y, hy⟩ := belowFrom_compr hc he
    rw [hy]
    exact h y
  · rw [hnil]
    exact nofun

/-- The string of a compressed node against a key that differs from it at
byte `j`. -/
lemma data_lt_or_lt {j : Nat} (hj : j < n.size) (s : Bytes) :
    (n.data.get ⟨j, hj⟩ < c → ∀ y, n.data ++ y < n.data.take j ++ c :: s) ∧
      (c < n.data.get ⟨j, hj⟩ → ∀ y, n.data.take j ++ c :: s < n.data ++ y) := by
  have hdata : n.data = n.data.take j ++ n.data.get ⟨j, hj⟩ :: n.data.drop (j + 1) := by
    rw [get_eq_getElem, getElem_cons_drop, take_append_drop]
  constructor
  · intro h y
    conv => lhs; rw [hdata, append_assoc]
    exact append_left_lt (cons_lt_cons_iff.mpr (.inl h))
  intro h y
  conv => rhs; rw [hdata, append_assoc]
  exact append_left_lt (cons_lt_cons_iff.mpr (.inl h))

lemma take_ne_nil {j : Nat} (hj : j < n.size) (h0 : j ≠ 0) : n.data.take j ≠ [] := by
  intro hnil
  have hlen := congrArg List.length hnil
  rw [length_take_of_le hj.le] at hlen
  exact h0 hlen

lemma take_lt_data {j : Nat} (hj : j < n.size) (y : Bytes) : n.data.take j < n.data ++ y := by
  have h0 : n.data.drop j ≠ [] := by
    rw [Ne, drop_eq_nil_iff]
    exact Nat.not_le.mpr hj
  have h : n.data.take j ++ [] < n.data.take j ++ (n.data.drop j ++ y) :=
    append_left_lt (nil_lt_append h0 y)
  rwa [append_nil, ← append_assoc, take_append_drop] at h

end

lemma gap_split {path : List (Frame V)} (h : OnPath head path n)
    (hw : WellFormed head) (i : Nat) : entries head = gapBefore path n i ++ gapAfter path n i := by
  rw [← h.plug_eq, plug_entries (h.ok hw), ← left_append_belowFrom (h.wf hw).shape i, under_append,
    gapBefore, gapAfter]
  simp only [append_assoc]

/-! ## Seeking near a key -/

section
variable {t : Rax V} {path : List (Frame V)} {it : RaxIterator V} {r rest : Bytes} {j : Nat}

lemma past_addChars (h : At head path b it) {x : Bytes}
    (hx : x.length = edgeSize it.node) : Past head path x b (raxIteratorAddChars it x) :=
  ⟨h.on, h.stack, by rw [raxIteratorAddChars, h.key], hx, h.justSeeked, h.eof⟩

lemma childAbove_compr (hs : Shape n) (hc : n.iscompr = true) (c : UInt8)
    (least : Nat) : childAbove n c least = if 1 < n.children.length then some 1 else none := by
  rw [childAbove, if_neg (by rw [hc]; simp), (hs.compr hc).1, if_neg (Nat.lt_irrefl 1)]

lemma childBelow_compr (hc : n.iscompr = true) (c : UInt8) (least : Nat) :
    childBelow n c least = if 0 < 0 then some (0 - 1) else none := by
  rw [childBelow, if_neg (by rw [hc]; simp), if_neg (Nat.lt_irrefl 0)]

lemma byte_gap (h : At head path b it) (hw : WellFormed head)
    (hi : it.node.iscompr = false) (hc : c ∉ it.node.data) (s : Bytes) :
    ∃ i, i ≤ it.node.children.length ∧ Parts it.node i (c :: s) ∧
      childAbove it.node c 0 = (if i < it.node.children.length then some i else none) ∧
      childBelow it.node c 0 = if 0 < i then some (i - 1) else none := by
  have hs := (h.on.wf hw).shape
  obtain ⟨hsize, hsorted⟩ := hs.normal hi
  obtain ⟨a, d, hd, _, ha, hb⟩ := split_at_byte hsorted hc
  have hlen : it.node.size = a.length + d.length := by rw [RaxNode.size, hd, length_append]
  refine ⟨a.length, by omega, parts_of_missing hi hd ha hb s,
    childAbove_eq 0 hs hi hd (fun x hx => UInt8.lt_asymm (ha x hx)) hb fun hne => ?_,
    childBelow_eq 0 hi hd ha (fun x hx => UInt8.lt_asymm (hb x hx)) fun hne => ?_⟩
  · have := length_pos_iff.mpr hne
    omega
  have := length_pos_iff.mpr hne
  omega

/-- In front of the entries above a key. -/
def NextAbove (head : RaxNode V) (k : Bytes) (it : RaxIterator V) : Prop :=
  ∃ front rest, entries head = front ++ rest ∧ NextTo head false front rest it ∧
    (∀ d ∈ front, ¬ k < d.1) ∧ ∀ d ∈ rest, k < d.1

/-- Behind the entries below a key. -/
def PrevBelow (head : RaxNode V) (k : Bytes) (it : RaxIterator V) : Prop :=
  ∃ front rest, entries head = front ++ rest ∧ PrevTo head false front rest it ∧
    (∀ d ∈ front, d.1 < k) ∧ ∀ d ∈ rest, ¬ d.1 < k

lemma next_of_parts {i : Nat} (hw : WellFormed head)
    (hp : OnPath head path n) (h : Parts n i r) {it' : RaxIterator V}
    (hto : NextTo head false (gapBefore path n i) (gapAfter path n i) it') :
    NextAbove head (pathKey path ++ r) it' :=
  ⟨_, _, gap_split hp hw i, hto, fun d hd => List.lt_asymm (h.lt_key (hp.ok hw) d hd),
    h.key_lt (hp.ok hw)⟩

lemma prev_of_parts {i : Nat} (hw : WellFormed head)
    (hp : OnPath head path n) (h : Parts n i r) {it' : RaxIterator V}
    (hto : PrevTo head false (gapBefore path n i) (gapAfter path n i) it') :
    PrevBelow head (pathKey path ++ r) it' :=
  ⟨_, _, gap_split hp hw i, hto, h.lt_key (hp.ok hw),
    fun d hd => List.lt_asymm (h.key_lt (hp.ok hw) d hd)⟩

/-- The entries at and below the end of a path are not below the key it spells. -/
lemma prevBelow_path (hw : WellFormed head) (hp : OnPath head path n)
    (hto : PrevTo head false (before path)
      (under (pathKey path) (entries n) ++ after path) it) : PrevBelow head (pathKey path) it := by
  have hok := hp.ok hw
  refine ⟨_, _, ?_, hto, fun d hd => ?_, fun d hd => ?_⟩
  · rw [← plug_entries hok, hp.plug_eq]
  · have := before_lt hok hd []
    rwa [append_nil] at this
  rcases mem_append.mp hd with hd | hd
  · obtain ⟨x, _, rfl⟩ := mem_under.mp hd
    exact not_append_lt _ x.1
  have := lt_after hok hd []
  rw [append_nil] at this
  exact List.lt_asymm this

/-- At the nearest entry on the side of a key that an operator asks for. -/
def Nearest (op : SeekOp) (head : RaxNode V) (k : Bytes) (it : RaxIterator V) : Prop :=
  if op.isLt then PrevBelow head k it else NextAbove head k it

/-- The step behind or in front of an edge that was added to the key. -/
lemma seekStep_past (op : SeekOp) {i : Nat} {x : Bytes} (hw : WellFormed t.head)
    (h : At t.head path false it) (hparts : Parts it.node i r) (hx : x.length = edgeSize it.node)
    (hc : x.getLast? = some c) (hle : i ≤ it.node.children.length)
    (habove : op.isLt = false → childAbove it.node c 0 =
      (if i < it.node.children.length then some i else none) ∧
        (i < it.node.children.length → it.node.iscompr = false))
    (hbelow : op.isLt = true → childBelow it.node c 0 = (if 0 < i then some (i - 1) else none) ∧
      (0 < i → it.node.iscompr = false)) :
    ∃ it', seekStep t op (raxIteratorAddChars it x) true = .ok it' ∧
      Nearest op t.head (pathKey path ++ r) it' := by
  have hpast := past_addChars h hx
  unfold seekStep Nearest
  cases hop : op.isLt with
  | true =>
    obtain ⟨hi, hcompr⟩ := hbelow hop
    obtain ⟨it', hrun, hto⟩ := prevStep_of_reaches hpast.justSeeked hpast.eof
      (prevLoop_noup hw hpast hc hi hle hcompr)
    exact ⟨it', hrun, prev_of_parts hw h.on hparts hto⟩
  | false =>
    obtain ⟨hi, hcompr⟩ := habove hop
    obtain ⟨it', hrun, hto⟩ := nextStep_of_reaches hpast.justSeeked hpast.eof
      (nextLoop_noup hw hpast hc hi hcompr)
    exact ⟨it', hrun, next_of_parts hw h.on hparts hto⟩

lemma seekNear_spec {op : SeekOp} (hw : WellFormed t.head)
    {w : Walk V} (h : At t.head w.path false it) (hnode : it.node = w.stop)
    (hstop : Stop w.stop r w.rest w.splitpos) :
    ∃ it', seekNear t op w it = .ok it' ∧ Nearest op t.head (pathKey w.path ++ r) it' := by
  obtain ⟨rest, stop, path, j⟩ := w
  dsimp only at h hnode hstop ⊢
  subst hnode
  have hs := (h.on.wf hw).shape
  obtain ⟨itn, hnext, hnextTo⟩ := nextStep_of_reaches h.justSeeked h.eof (nextLoop_spec hw h)
  have hn := h.nodes_le hw
  obtain ⟨itp, hprev, hprevTo⟩ := prevStep_of_reaches h.justSeeked h.eof
    (prevLoop_spec hw _ h (by omega))
  -- a byte that is in no edge of a normal node
  have hbyte : ∀ (c : UInt8) (s : Bytes), it.node.iscompr = false → c ∉ it.node.data →
      ∃ it', seekStep t op (raxIteratorAddChars it [c]) true = .ok it' ∧
        Nearest op t.head (pathKey path ++ c :: s) it' := by
    intro c s hi hc
    obtain ⟨i, hle, hparts, habove, hbelow⟩ := byte_gap h hw hi hc s
    exact seekStep_past op hw h hparts (by rw [edgeSize, if_neg (by rw [hi]; decide)]; rfl) rfl hle
      (fun _ => ⟨habove, fun _ => hi⟩) fun _ => ⟨hbelow, fun _ => hi⟩
  unfold seekNear
  cases hstop with
  | here =>
    rw [if_neg (by simp), seekStep]
    unfold Nearest
    cases op.isLt with
    | true =>
      rw [append_nil]
      exact ⟨itp, hprev, prevBelow_path hw h.on hprevTo⟩
    | false =>
      refine ⟨itn, hnext, _, _, gap_split h.on hw 0, hnextTo, ?_, ?_⟩
      · refine forall_gapBefore (P := (¬ pathKey path ++ [] < ·))
          (fun d hd => List.lt_asymm (before_lt (h.on.ok hw) hd [])) fun d hd => ?_
        rw [left_zero] at hd
        rw [(mem_own hd).2]
        exact List.lt_irrefl _
      refine forall_gapAfter (P := (pathKey path ++ [] < ·))
        (fun d hd => lt_after (h.on.ok hw) hd []) fun d hd => append_left_lt ?_
      obtain ⟨l, hl, y, hy⟩ := mem_entriesAll hd
      rw [hy]
      exact nil_lt_append (hs.labels_ne_nil l hl) y
  | leaf c s h0 =>
    have hi := hs.normal_of_leaf h0
    dsimp only
    rw [if_neg (by rw [hi]; decide)]
    exact hbyte c s hi (by rw [length_eq_zero_iff.mp h0]; exact not_mem_nil)
  | missing c s hi _ hc =>
    dsimp only
    rw [if_neg (by rw [hi]; decide)]
    exact hbyte c s hi hc
  | inside hi hj hne hd =>
    have h1 := (hs.compr hi).1
    -- the string of the node is above the key
    have habove : ∀ {r}, Parts it.node 0 r → NextAbove t.head (pathKey path ++ r) itn :=
      fun hparts => next_of_parts hw h.on hparts hnextTo
    cases rest with
    | nil =>
      have hparts := parts_above hi (take_ne_nil hj (hne rfl)) (take_lt_data hj)
      rw [append_nil]
      unfold seekStep Nearest
      cases hop : op.isLt with
      | false =>
        rw [if_neg (by simp)]
        exact ⟨itn, hnext, habove hparts⟩
      | true =>
        cases hk : it.node.iskey with
        | true =>
          rw [if_pos ⟨hi, rfl, hne rfl, rfl⟩]
          exact ⟨_, rfl, prev_of_parts hw h.on hparts (.inr ⟨_, _, (gap_key _ hs hk).1, h.entry hk⟩)⟩
        | false =>
          rw [if_neg (by simp)]
          obtain ⟨hb, ha⟩ := gap_zero path hs hk
          rw [← hb, ← ha] at hprevTo
          exact ⟨itp, hprev, prev_of_parts hw h.on hparts hprevTo⟩
    | cons c s =>
      have hnil : it.node.data.take j ++ c :: s ≠ [] := by simp
      obtain ⟨hlt, hgt⟩ := data_lt_or_lt hj (c := c) s
      have hget := getElem?_eq_getElem hj
      have hdata : it.node.data ≠ [] := ne_nil_of_length_pos (Nat.lt_of_le_of_lt (Nat.zero_le _) hj)
      have hlast := getLast?_eq_some_getLast hdata
      have hsize : it.node.data.length = edgeSize it.node := by rw [edgeSize, if_pos hi]; rfl
      dsimp only
      rw [if_pos hi, load_eq_ok.mpr hget, bind_ok]
      rcases UInt8.lt_or_lt_of_ne (a := c) (b := it.node.data[j])
        fun he => hd c rfl (by rw [hget, he]) with hcmp | hcmp
      · have hparts := parts_above hi hnil (hgt hcmp)
        by_cases hop : op.isLt = true
        · have hstep := seekStep_past op hw h hparts hsize hlast (Nat.zero_le _)
            (by simp [hop]) fun _ => ⟨childBelow_compr hi _ 0, fun h0 => absurd h0 (Nat.lt_irrefl 0)⟩
          rw [if_pos hop, if_neg (UInt8.lt_asymm hcmp)]
          rwa [seekStep, if_pos hop] at hstep
        · rw [if_neg hop, if_pos hcmp]
          exact ⟨itn, hnext, (if_neg hop).mpr (habove hparts)⟩
      · have hparts := parts_below hs hi hnil (hlt hcmp)
        by_cases hop : op.isLt = true
        · have hset : Settled it.node := fun h0 => by omega
          obtain ⟨it', es, e, hrun, _, hfront, hentry⟩ := raxSeekGreatest_spec hw h hset
          obtain ⟨hb, ha⟩ := gap_end path hs (Nat.le_of_eq h1)
          rw [← hb] at hfront
          rw [← ha] at hentry
          rw [if_pos hop, if_pos hcmp, hrun]
          refine ⟨_, rfl, (if_pos hop).mpr ?_⟩
          exact prev_of_parts hw h.on hparts (.inr ⟨es, e, hfront, hentry⟩)
        · have hstep := seekStep_past op hw h hparts hsize hlast h1.ge
            (fun _ => ⟨childAbove_compr hs hi _ 0, fun hlt => by omega⟩) (by simp [hop])
          rw [if_neg hop, if_neg (UInt8.lt_asymm hcmp)]
          rwa [seekStep, if_neg hop] at hstep

end

/-! ## Seeking -/

def satisfies : SeekOp → (s k : Bytes) → Prop
  | .gt, s, k => s < k
  | .ge, s, k => k = s ∨ s < k
  | .lt, s, k => k < s
  | .le, s, k => k = s ∨ k < s
  | .eq, s, k => k = s
  | .first, _, _ => True
  | .last, _, _ => True

instance (op : SeekOp) (s k : Bytes) : Decidable (satisfies op s k) := by
  cases op <;> dsimp only [satisfies] <;> infer_instance

/-- The operators that ask for the greatest such key. -/
def fromAbove : SeekOp → Bool
  | .lt | .le | .last => true
  | _ => false

/-- Where a seek ends: at the nearest entry that satisfies the operator, or at
EOF if there is none. -/
def Sought (t : Rax V) (op : SeekOp) (s : Bytes) (it : RaxIterator V) : Prop :=
  (it.eof = true ∧ ∀ d ∈ entries t.head, ¬ satisfies op s d.1) ∨
  ∃ front e rest, entries t.head = front ++ e :: rest ∧ AtEntry t.head front e rest true it ∧
    satisfies op s e.1 ∧ ∀ d ∈ if fromAbove op then rest else front, ¬ satisfies op s d.1

section
variable {t : Rax V} {it : RaxIterator V} {s : Bytes} {op : SeekOp} {front rest : List (Entry V)}

lemma sought_of_next (hop : fromAbove op = false) (h : NextAbove t.head s it)
    (hiff : ∀ d ∈ entries t.head, satisfies op s d.1 ↔ s < d.1) :
    Sought t op s { it with justSeeked := true } := by
  obtain ⟨front, rest, hsplit, hto, hfront, hrest⟩ := h
  have hno : ∀ d ∈ front, ¬ satisfies op s d.1 := fun d hd hsat =>
    hfront d hd ((hiff d (hsplit ▸ mem_append_left _ hd)).mp hsat)
  rcases hto with ⟨rfl, heof⟩ | ⟨e, es, rfl, hat⟩
  · rw [append_nil] at hsplit
    exact .inl ⟨heof, hsplit ▸ hno⟩
  refine .inr ⟨front, e, es, hsplit, atEntry_seeked hat, ?_, by rwa [hop]⟩
  exact (hiff e (hsplit ▸ mem_append_right _ mem_cons_self)).mpr (hrest e mem_cons_self)

lemma sought_of_prev (hop : fromAbove op = true) (h : PrevBelow t.head s it)
    (hiff : ∀ d ∈ entries t.head, satisfies op s d.1 ↔ d.1 < s) :
    Sought t op s { it with justSeeked := true } := by
  obtain ⟨front, rest, hsplit, hto, hfront, hrest⟩ := h
  have hno : ∀ d ∈ rest, ¬ satisfies op s d.1 := fun d hd hsat =>
    hrest d hd ((hiff d (hsplit ▸ mem_append_right _ hd)).mp hsat)
  rcases hto with ⟨rfl, heof⟩ | ⟨es, e, rfl, hat⟩
  · exact .inl ⟨heof, hsplit ▸ hno⟩
  have hmem : e ∈ es ++ [e] := mem_append_right _ (mem_singleton.mpr rfl)
  refine .inr ⟨es, e, rest, by rw [hsplit, append_assoc]; rfl, atEntry_seeked hat, ?_, by rwa [hop]⟩
  exact (hiff e (hsplit ▸ mem_append_left _ hmem)).mpr (hfront e hmem)

variable {k : Bytes} {es : List (Entry V)}

/-- Without the key itself in the tree, the comparisons that include it are
strict. -/
lemma satisfies_iff_lt (hgt : op.isGt = true) (hne : op.hasEq = true → k ≠ s) :
    satisfies op s k ↔ s < k := by
  cases op with
  | gt => exact .rfl
  | ge => exact or_iff_right (hne rfl)
  | _ => cases hgt

lemma satisfies_iff_gt (hlt : op.isLt = true) (hne : op.hasEq = true → k ≠ s) :
    satisfies op s k ↔ k < s := by
  cases op with
  | lt => exact .rfl
  | le => exact or_iff_right (hne rfl)
  | _ => cases hlt

lemma sorted_split (h : Sorted es)
    (hsplit : es = front ++ e :: rest) : (∀ d ∈ front, d.1 < e.1) ∧ ∀ d ∈ rest, e.1 < d.1 := by
  rw [hsplit] at h
  obtain ⟨_, h2, h3⟩ := pairwise_append.mp h
  exact ⟨fun d hd => h3 d hd e mem_cons_self, (pairwise_cons.mp h2).1⟩

lemma sought_of_hit (hw : WellFormed t.head) {path : List (Frame V)}
    (hp : OnPath t.head path n) (hk : n.iskey = true) (hop : op.hasEq = true) :
    Sought t op (pathKey path)
      ⟨true, false, pathKey path, raxGetData n, n, path.map Frame.node⟩ := by
  have hsplit := gap_split hp hw 0
  rw [(gap_key _ (hp.wf hw).shape hk).1, append_assoc] at hsplit
  obtain ⟨hlt, hgt⟩ := sorted_split hw.sorted hsplit
  refine .inr ⟨_, _, _, hsplit, ⟨path, ⟨hp, rfl, rfl, rfl, rfl⟩, hk, rfl, rfl, rfl, rfl⟩, ?_, ?_⟩
  · cases op with
    | ge | le => exact .inl rfl
    | eq => rfl
    | _ => cases hop
  cases op with
  | ge =>
    rintro d hd (he | hs)
    · exact absurd (hlt d hd) (he ▸ List.lt_irrefl _)
    · exact List.lt_asymm hs (hlt d hd)
  | le =>
    rintro d hd (he | hs)
    · exact absurd (hgt d hd) (he ▸ List.lt_irrefl _)
    · exact List.lt_asymm hs (hgt d hd)
  | eq =>
    intro d hd (he : d.1 = _)
    exact absurd (hlt d hd) (he ▸ List.lt_irrefl _)
  | _ => cases hop

lemma length_of_stop {r rest : Bytes} {j : Nat} (h : Stop n r rest j) :
    r.length = rest.length + j := by
  cases h with
  | here => rfl
  | leaf => rfl
  | missing => rfl
  | inside _ hj _ _ =>
    rw [length_append, length_take_of_le hj.le, add_comm]

lemma seekKey_spec (hw : WellFormed t.head) (op : SeekOp)
    (hop : op.hasEq = true ∨ op.isLt = true ∨ op.isGt = true)
    (s : Bytes) : ∃ it, seekKey t op s = .ok it ∧ Sought t op s it := by
  obtain ⟨w, r, hwalk, hp, rfl, hstop⟩ := raxLowWalk_spec hw s
  unfold seekKey
  rw [hwalk, bind_ok]
  dsimp only
  by_cases hhit : op.hasEq = true ∧ w.atNode ∧ w.stop.iskey = true
  · rw [if_pos hhit, hstop.atNode_iff.mp hhit.2.1, append_nil]
    exact ⟨_, rfl, sought_of_hit hw hp hhit.2.2 hhit.1⟩
  rw [if_neg hhit]
  have hne : op.hasEq = true → ∀ d ∈ entries t.head, d.1 ≠ pathKey w.path ++ r := by
    intro heq d hd he
    exact hstop.absent hp hw (fun h => hhit ⟨heq, h⟩) d.2 (he ▸ hd)
  have hkey : (pathKey w.path ++ r).take
      ((pathKey w.path ++ r).length - w.rest.length - w.splitpos) = pathKey w.path := by
    have hlen := length_of_stop hstop
    refine take_left' ?_
    rw [length_append]
    omega
  rw [hkey]
  have hat : At t.head w.path false
      ⟨false, false, pathKey w.path, none, w.stop, w.path.map Frame.node⟩ :=
    ⟨hp, rfl, rfl, rfl, rfl⟩
  obtain ⟨it, hrun, hto⟩ := @seekNear_spec _ _ _ _ op hw w hat rfl hstop
  unfold Nearest at hto
  cases hlt : op.isLt with
  | true =>
    have habove : fromAbove op = true := by
      cases op <;> first | rfl | cases hlt
    rw [hlt] at hto
    rw [hrun]
    exact ⟨_, rfl, sought_of_prev habove hto fun d hd =>
      satisfies_iff_gt hlt fun heq => hne heq d hd⟩
  | false =>
    cases hgt : op.isGt with
    | true =>
      have habove : fromAbove op = false := by
        cases op <;> first | rfl | cases hgt
      rw [hlt] at hto
      rw [hrun]
      exact ⟨_, rfl, sought_of_next habove hto fun d hd =>
        satisfies_iff_lt hgt fun heq => hne heq d hd⟩
    | false =>
      -- what is left is the operator `=`
      have heq : op = .eq := by
        cases op with
        | eq => rfl
        | _ => simp_all [SeekOp.hasEq, SeekOp.isLt, SeekOp.isGt]
      subst heq
      exact ⟨_, rfl, Or.inl ⟨rfl, hne rfl⟩⟩

lemma nil_le (k : Bytes) : satisfies .ge [] k := by
  cases k with
  | nil => exact .inl rfl
  | cons c k => exact .inr (nil_lt_cons ..)

lemma raxSeek_spec (hok : RaxOk t) (op : SeekOp) (s : Bytes) :
    ∃ it, raxSeek t op s = .ok it ∧ Sought t op s it := by
  unfold raxSeek
  by_cases h0 : t.numele = 0
  · rw [if_pos h0]
    refine ⟨_, rfl, Or.inl ⟨rfl, fun d hd => ?_⟩⟩
    rw [hok.numele, length_eq_zero_iff] at h0
    rw [h0] at hd
    cases hd
  rw [if_neg h0]
  cases op with
  | first =>
    obtain ⟨it, hrun, hs⟩ := seekKey_spec hok.wf .ge (.inl rfl) []
    refine ⟨it, hrun, ?_⟩
    rcases hs with ⟨heof, hnone⟩ | ⟨front, e, rest, hsplit, hat, _, hfront⟩
    · exact .inl ⟨heof, fun d hd _ => hnone d hd (nil_le d.1)⟩
    · exact .inr ⟨front, e, rest, hsplit, hat, trivial, fun d hd _ => hfront d hd (nil_le d.1)⟩
  | last =>
    have hat : At t.head [] true ⟨true, false, [], none, t.head, []⟩ := ⟨.head, rfl, rfl, rfl, rfl⟩
    have hset : Settled t.head := by
      intro hz
      rw [hok.numele, entries_of_leaf hok.wf.shape hz, own] at h0
      by_contra hk
      rw [if_neg hk] at h0
      exact h0 rfl
    obtain ⟨it, es, e, hrun, hk, hsplit, hentry⟩ := raxSeekGreatest_spec hok.wf hat hset
    rw [before, pathKey, under_empty] at hsplit
    rw [hrun, bind_ok, check_pos hk]
    exact ⟨_, rfl, Or.inr ⟨es, e, [], hsplit, hentry, trivial, fun d hd => absurd hd not_mem_nil⟩⟩
  | _ => exact seekKey_spec hok.wf _ (by decide) s

/-! ## The entries returned -/

/-- The entry a seek goes to: the least one that satisfies the operator, or for
`<`, `<=` and `$` the greatest. -/
def target (op : SeekOp) (s : Bytes) (es : List (Entry V)) : Option (Entry V) :=
  if fromAbove op then es.reverse.find? fun e => satisfies op s e.1
  else es.find? fun e => satisfies op s e.1

/-- That entry and those above it. -/
def ascending (op : SeekOp) (s : Bytes) (es : List (Entry V)) : List (Entry V) :=
  match target op s es with
  | none => []
  | some p => es.filter fun e => e.1 = p.1 ∨ p.1 < e.1

/-- That entry and those below it, from the greatest down. -/
def descending (op : SeekOp) (s : Bytes) (es : List (Entry V)) : List (Entry V) :=
  match target op s es with
  | none => []
  | some p => (es.filter fun e => e.1 = p.1 ∨ e.1 < p.1).reverse

lemma target_some (hsplit : es = front ++ e :: rest) (he : satisfies op s e.1)
    (hno : ∀ d ∈ if fromAbove op then rest else front, ¬ satisfies op s d.1) :
    target op s es = some e := by
  unfold target
  cases hop : fromAbove op with
  | true =>
    rw [hop] at hno
    rw [hsplit, reverse_append, reverse_cons, append_assoc]
    refine find?_eq_some_iff_append.mpr ⟨by simpa using he, rest.reverse, _, rfl, fun d hd => ?_⟩
    simpa using hno d (mem_reverse.mp hd)
  | false =>
    rw [hop] at hno
    rw [hsplit]
    exact find?_eq_some_iff_append.mpr
      ⟨by simpa using he, front, rest, rfl, fun d hd => by simpa using hno d hd⟩

lemma filter_rest {p : Entry V → Prop} [DecidablePred p] (hf : ∀ d ∈ front, ¬ p d)
    (hr : ∀ d ∈ rest, p d) : (front ++ rest).filter p = rest := by
  rw [filter_append, filter_eq_nil_iff.mpr fun d hd => by simpa using hf d hd, nil_append,
    filter_eq_self.mpr fun d hd => decide_eq_true (hr d hd)]

lemma filter_front {p : Entry V → Prop} [DecidablePred p] (hf : ∀ d ∈ front, p d) (he : p e)
    (hr : ∀ d ∈ rest, ¬ p d) : (front ++ e :: rest).filter p = front ++ [e] := by
  rw [filter_append, filter_eq_self.mpr fun d hd => decide_eq_true (hf d hd),
    filter_cons, if_pos (decide_eq_true he), filter_eq_nil_iff.mpr fun d hd => by simpa using hr d hd]

lemma ne_and_not_lt {k l : Bytes} (h : k < l) : ¬(k = l ∨ l < k) := by
  rintro (rfl | h')
  · exact List.lt_irrefl _ h
  · exact List.lt_asymm h h'

lemma filter_above (hs : Sorted es) (hsplit : es = front ++ e :: rest) :
    (es.filter fun d => d.1 = e.1 ∨ e.1 < d.1) = e :: rest := by
  obtain ⟨hlt, hgt⟩ := sorted_split hs hsplit
  rw [hsplit]
  exact filter_rest (fun d hd => ne_and_not_lt (hlt d hd))
    (forall_mem_cons.mpr ⟨.inl rfl, fun d hd => .inr (hgt d hd)⟩)

lemma filter_below (hs : Sorted es) (hsplit : es = front ++ e :: rest) :
    (es.filter fun d => d.1 = e.1 ∨ d.1 < e.1) = front ++ [e] := by
  obtain ⟨hlt, hgt⟩ := sorted_split hs hsplit
  rw [hsplit]
  refine filter_front (fun d hd => .inr (hlt d hd)) (.inl rfl) fun d hd => ?_
  rw [eq_comm]
  exact ne_and_not_lt (hgt d hd)

/-- The target of a search in a sorted list is an entry of it, with the entries
that do not satisfy the operator on the side it comes from. -/
lemma target_cases (op : SeekOp) (s : Bytes) (es : List (Entry V)) :
    (target op s es = none ∧ ∀ d ∈ es, ¬ satisfies op s d.1) ∨
    ∃ front e rest, es = front ++ e :: rest ∧ target op s es = some e ∧ satisfies op s e.1 ∧
      ∀ d ∈ if fromAbove op then rest else front, ¬ satisfies op s d.1 := by
  cases ht : target op s es with
  | none =>
    refine .inl ⟨rfl, fun d hd => ?_⟩
    unfold target at ht
    split at ht
    · simpa using find?_eq_none.mp ht d (mem_reverse.mpr hd)
    · simpa using find?_eq_none.mp ht d hd
  | some e =>
    right
    unfold target at ht
    split at ht
    · rename_i hop
      obtain ⟨he, xs, ys, hsplit, hno⟩ := find?_eq_some_iff_append.mp ht
      refine ⟨ys.reverse, e, xs.reverse, ?_, rfl, by simpa using he, ?_⟩
      · rw [← reverse_reverse es, hsplit, reverse_append, reverse_cons, append_assoc]
        rfl
      rw [if_pos hop]
      exact fun d hd => by simpa using hno d (mem_reverse.mp hd)
    rename_i hop
    obtain ⟨he, xs, ys, hsplit, hno⟩ := find?_eq_some_iff_append.mp ht
    refine ⟨xs, e, ys, hsplit, rfl, by simpa using he, ?_⟩
    rw [if_neg hop]
    exact fun d hd => by simpa using hno d hd

lemma target_none (h : ∀ d ∈ es, ¬ satisfies op s d.1) : target op s es = none := by
  rcases target_cases op s es with ⟨ht, _⟩ | ⟨front, e, rest, hsplit, _, he, _⟩
  · exact ht
  · exact absurd he (h e (hsplit ▸ mem_append_right _ mem_cons_self))

lemma seekAll_spec (hok : RaxOk t) (op : SeekOp) (s : Bytes) :
    seekNextAll t op s = .ok (ascending op s (entries t.head)) ∧
      seekPrevAll t op s = .ok (descending op s (entries t.head)) := by
  have hsorted := hok.wf.sorted
  obtain ⟨it, hrun, hs⟩ := raxSeek_spec hok op s
  unfold seekNextAll seekPrevAll ascending descending
  rw [hrun]
  rcases hs with ⟨heof, hnone⟩ | ⟨front, e, rest, hsplit, hat, he, hno⟩
  · rw [target_none hnone]
    exact collect_eof heof _
  have hlen : front.length + rest.length < t.numele := by
    rw [hok.numele, hsplit, length_append, length_cons]
    omega
  rw [target_some hsplit he hno]
  dsimp only
  rw [filter_above hsorted hsplit, filter_below hsorted hsplit, reverse_append]
  exact collect_sought hok.wf hat hlen

/-- Above a key that satisfies `>`, `>=` or `^`, every key does. -/
lemma satisfies_up (hop : fromAbove op = false) (heq : op ≠ .eq) {l : Bytes}
    (hk : satisfies op s k) (hl : k < l) : satisfies op s l := by
  cases op with
  | gt => exact List.lt_trans hk hl
  | ge =>
    rcases hk with rfl | hk
    · exact .inr hl
    · exact .inr (List.lt_trans hk hl)
  | eq => exact absurd rfl heq
  | first => trivial
  | _ => cases hop

lemma satisfies_down (hop : fromAbove op = true) {l : Bytes} (hk : satisfies op s k)
    (hl : l < k) : satisfies op s l := by
  cases op with
  | lt => exact List.lt_trans hl hk
  | le =>
    rcases hk with rfl | hk
    · exact .inr hl
    · exact .inr (List.lt_trans hl hk)
  | last => trivial
  | _ => cases hop

lemma ascending_eq_filter (hs : Sorted es) (hop : fromAbove op = false)
    (heq : op ≠ .eq) : ascending op s es = es.filter fun e => satisfies op s e.1 := by
  unfold ascending
  rcases target_cases op s es with ⟨ht, hno⟩ | ⟨front, e, rest, hsplit, ht, he, hno⟩
  · rw [ht]
    exact (filter_eq_nil_iff.mpr fun d hd => by simpa using hno d hd).symm
  rw [ht]
  dsimp only
  rw [hop, if_neg (by decide)] at hno
  have hgt := (sorted_split hs hsplit).2
  rw [filter_above hs hsplit, hsplit, filter_rest hno]
  exact forall_mem_cons.mpr ⟨he, fun d hd => satisfies_up hop heq he (hgt d hd)⟩

lemma descending_eq_filter (hs : Sorted es) (hop : fromAbove op = true) :
    descending op s es = (es.filter fun e => satisfies op s e.1).reverse := by
  unfold descending
  rcases target_cases op s es with ⟨ht, hno⟩ | ⟨front, e, rest, hsplit, ht, he, hno⟩
  · rw [ht, filter_eq_nil_iff.mpr fun d hd => by simpa using hno d hd]
    rfl
  rw [ht]
  dsimp only
  rw [hop, if_pos rfl] at hno
  have hlt := (sorted_split hs hsplit).1
  rw [filter_below hs hsplit, hsplit, filter_front _ he hno]
  exact fun d hd => satisfies_down hop he (hlt d hd)

end

/-! ## Trees built by insertions and removals -/

inductive Edit (V : Type) where
  | insert (key : Bytes) (data : Option V)
  | tryInsert (key : Bytes) (data : Option V)
  | remove (key : Bytes)

def edit (t : Rax V) : Edit V → Outcome (Rax V)
  | .insert key data => do
    let (t, _, _) ← raxInsert t key data
    .ok t
  | .tryInsert key data => do
    let (t, _, _) ← raxTryInsert t key data
    .ok t
  | .remove key => do
    let (t, _, _) ← raxRemove t key
    .ok t

/-- The tree after a sequence of edits. A removal that would write past the
node it allocates is no edit that ends in a tree. -/
def build : List (Edit V) → Rax V → Outcome (Rax V)
  | [], t => .ok t
  | e :: es, t => do
    let t ← edit t e
    build es t

def Map.edit (m : Map V) : Edit V → Map V
  | .insert key data => Function.update m key (some data)
  | .tryInsert key data => if m key = none then Function.update m key (some data) else m
  | .remove key => Function.update m key none

lemma edit_related {t t' : Rax V} {m : Map V} (h : Related t m) {e : Edit V}
    (hrun : edit t e = .ok t') : Related t' (Map.edit m e) := by
  cases e with
  | insert key data =>
    obtain ⟨t1, hins, hr⟩ := insert_simulates h key data true
    rw [edit, raxInsert, hins] at hrun
    cases hrun
    simpa [Map.edit] using hr
  | tryInsert key data =>
    obtain ⟨t1, hins, hr⟩ := insert_simulates h key data false
    rw [edit, raxTryInsert, hins] at hrun
    cases hrun
    simpa [Map.edit] using hr
  | remove key =>
    rcases remove_simulates h key with ⟨t1, hrem, hr⟩ | ⟨hrem, _⟩
    · rw [edit, hrem] at hrun
      cases hrun
      exact hr
    rw [edit, hrem] at hrun
    cases hrun

lemma build_related : ∀ (es : List (Edit V)) {t t' : Rax V} {m : Map V}, Related t m →
    build es t = .ok t' → Related t' (es.foldl Map.edit m)
  | [], t, t', m, h, hrun => by
    cases hrun
    exact h
  | e :: es, t, t', m, h, hrun => by
    obtain ⟨t1, h1, h2⟩ := bind_eq_ok.mp hrun
    exact build_related es (edit_related h h1) h2

/-- What the iterators of a tree return, in terms of the map. -/
structure Iterates (t : Rax V) (m : Map V) (es : List (Entry V)) : Prop where
  sorted : Sorted es
  mem_iff : ∀ k v, (k, v) ∈ es ↔ m k = some v
  next : ∀ op s, seekNextAll t op s = .ok (ascending op s es)
  prev : ∀ op s, seekPrevAll t op s = .ok (descending op s es)
  next_filter : ∀ op s, fromAbove op = false → op ≠ .eq →
    seekNextAll t op s = .ok (es.filter fun e => satisfies op s e.1)
  prev_filter : ∀ op s, fromAbove op = true →
    seekPrevAll t op s = .ok (es.filter fun e => satisfies op s e.1).reverse

/-- In every tree that edits build, a seek goes to the nearest key that
satisfies the operator, and the iterator returns the keys from there on, in
order and each with its value, up to the end. -/
theorem iterator_returns_entries (edits : List (Edit V)) (t : Rax V)
    (h : build edits raxNew = .ok t) :
    ∃ es, Iterates t (edits.foldl Map.edit fun _ => none) es := by
  have hr := build_related edits related_new h
  refine ⟨entries t.head, hr.1.wf.sorted, fun k v => (hr.2 k v).symm,
    fun op s => (seekAll_spec hr.1 op s).1, fun op s => (seekAll_spec hr.1 op s).2,
    fun op s hop heq => ?_, fun op s hop => ?_⟩
  · rw [(seekAll_spec hr.1 op s).1, ascending_eq_filter hr.1.wf.sorted hop heq]
  · rw [(seekAll_spec hr.1 op s).2, descending_eq_filter hr.1.wf.sorted hop]

/-- Two keys, one of them inside the compressed node of the other before it was
split. -/
def sampleEdits : List (Edit Nat) :=
  [.insert [102, 111, 111] (some 1), .insert [102] (some 2), .insert [103] none, .remove [103]]

def sampleTree : Rax Nat := ⟨⟨false, false, none, false, [102],
    [⟨true, false, some 2, true, [111, 111], [⟨true, false, some 1, false, [], []⟩]⟩]⟩, 2, 3⟩

theorem iterator_returns_entries_sample : build sampleEdits raxNew = .ok sampleTree ∧
      ∃ es, Iterates sampleTree (sampleEdits.foldl Map.edit fun _ => none) es :=
  ⟨rfl, iterator_returns_entries sampleEdits sampleTree rfl⟩

/-- The operator bounds the seek only: after `=` the iteration goes on to keys
that differ from the one sought. -/
theorem seek_eq_goes_on :
    ∃ t : Rax Nat, build [.insert [97] (some 1), .insert [98] (some 2)] raxNew = .ok t ∧
      seekNextAll t .eq [97] = .ok [([97], some 1), ([98], some 2)] ∧
      ¬ satisfies .eq [97] [98] :=
  ⟨_, rfl, rfl, by decide⟩

end Redis.RadixTree.Iteration
