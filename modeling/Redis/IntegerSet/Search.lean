import Redis.IntegerSet.Layout

/-! # Searching an intset -/
namespace Redis.IntegerSet.Search
open List Lib Outcome Model Layout

/-- The array holds `xs`, in increasing order and each in the width of the encoding. -/
structure Holds (is : Intset) (xs : List Int) : Prop where
  length : is.length = xs.length
  contents : is.contents = encodeAll is.encoding.width xs
  inRange : ∀ x ∈ xs, InRange is.encoding.width x
  increasing : xs.Pairwise (· < ·)

lemma holds_new : Holds intsetNew [] := ⟨rfl, rfl, nofun, List.Pairwise.nil⟩

variable {is : Intset} {xs : List Int} {i : Nat} {v : Int} {as bs : List Int}

lemma Holds.getAt (h : Holds is xs) (hi : i < xs.length) : intsetGetAt is i = .ok xs[i] := by
  have hsplit : xs = xs.take i ++ xs[i] :: xs.drop (i + 1) := by
    rw [getElem_cons_drop, take_append_drop]
  have hlen : (xs.take i).length = i := length_take_of_le hi.le
  have hc : is.contents = encodeAll is.encoding.width (xs.take i) ++
      (encode is.encoding.width xs[i] ++ encodeAll is.encoding.width (xs.drop (i + 1))) := by
    rw [← encodeAll_cons, ← encodeAll_append, ← hsplit, h.contents]
  have hget := getEncoded_at hc (h.inRange _ (getElem_mem hi))
  rwa [hlen] at hget

lemma getElem_lt_of_increasing (h : xs.Pairwise (· < ·)) {j : Nat}
    (hij : i < j) (hj : j < xs.length) : xs[i] < xs[j] :=
  pairwise_iff_getElem.mp h i j (hij.trans hj) hj hij

/-! ## The loop -/

/-- The elements before `lo` are below the value and those from `hi` on above it. -/
structure Window (xs : List Int) (v : Int) (lo hi : Nat) : Prop where
  le : lo ≤ hi
  top : hi ≤ xs.length
  below : ∀ i (h : i < xs.length), i < lo → xs[i] < v
  above : ∀ i (h : i < xs.length), hi ≤ i → v < xs[i]

lemma Window.right {lo hi mid : Nat} (h : Window xs v lo hi)
    (hs : xs.Pairwise (· < ·)) (hm : mid < hi) (hmid : mid < xs.length) (hlt : xs[mid] < v) :
    Window xs v (mid + 1) hi where
  le := hm
  top := h.top
  below i hi' hlo := by
    rcases Nat.lt_or_eq_of_le (Nat.le_of_lt_succ hlo) with hlt' | rfl
    · exact Int.lt_trans (getElem_lt_of_increasing hs hlt' hmid) hlt
    · exact hlt
  above := h.above

lemma Window.left {lo hi mid : Nat} (h : Window xs v lo hi)
    (hs : xs.Pairwise (· < ·)) (hlo : lo ≤ mid) (hmid : mid < xs.length) (hlt : v < xs[mid]) :
    Window xs v lo mid where
  le := hlo
  top := hmid.le
  below := h.below
  above i hi' hge := by
    rcases Nat.lt_or_eq_of_le hge with hlt' | rfl
    · exact Int.lt_trans hlt (getElem_lt_of_increasing hs hlt' hi')
    · exact hlt

lemma uint32_natCast {n : Nat} (h : n < 2 ^ 32) : uint32 n = n := by
  unfold uint32
  omega

/-- What the loop leaves behind: the value at `mid`, or an empty window at `min`. -/
def Found (xs : List Int) (v : Int) (out : Int × Int × Int) : Prop :=
  (out.2.2 = v ∧ ∃ i, out.2.1 = (i : Nat) ∧ xs[i]? = some v) ∨
  (out.2.2 ≠ v ∧ ∃ k, out.1 = (k : Nat) ∧ Window xs v k k)

lemma searchLoop_spec (h : Holds is xs) (v : Int) (hlen : xs.length < 2 ^ 31) :
    ∀ (fuel lo hi : Nat) (mid cur : Int), Window xs v lo hi → hi - lo < fuel → (lo = hi → cur ≠ v) →
      ∃ out, searchLoop is v fuel lo (hi - 1) mid cur = .ok out ∧ Found xs v out
  | 0, lo, hi, mid, cur, hw, hf, hcur => absurd hf (Nat.not_lt_zero _)
  | fuel + 1, lo, hi, mid, cur, hw, hf, hcur => by
    have hle := hw.le
    have htop := hw.top
    unfold searchLoop
    by_cases hempty : lo = hi
    · subst hempty
      rw [if_neg (by omega)]
      exact ⟨_, rfl, .inr ⟨hcur rfl, lo, rfl, hw⟩⟩
    -- Both ends are below 2^31, so that neither the sum nor the halving wraps.
    have hmid : ((uint32 lo + uint32 ((hi : Int) - 1)) % 2 ^ 32 / 2 : Nat) = (lo + (hi - 1)) / 2 := by
      have hcast : (hi : Int) - 1 = (hi - 1 : Nat) := by omega
      rw [hcast, uint32_natCast (by omega), uint32_natCast (by omega), Nat.mod_eq_of_lt (by omega)]
    rw [if_pos (by omega), hmid]
    generalize hm : (lo + (hi - 1)) / 2 = m
    have hmx : m < xs.length := by omega
    dsimp only
    rw [h.getAt hmx, bind_ok]
    split
    · next hgt =>
      have hw' := hw.right h.increasing (by omega) hmx hgt
      exact searchLoop_spec h v hlen fuel (m + 1) hi m xs[m] hw' (by omega)
        fun _ => Int.ne_of_lt hgt
    next hgt =>
    split
    · next hlt' =>
      have hw' := hw.left h.increasing (by omega) hmx hlt'
      exact searchLoop_spec h v hlen fuel lo m m xs[m] hw' (by omega) fun _ => Int.ne_of_gt hlt'
    next hnlt =>
    have heq : xs[m] = v := by omega
    exact ⟨_, rfl, .inl ⟨heq, m, rfl, by rw [getElem?_eq_getElem hmx, heq]⟩⟩

/-! ## The search -/

/-- The list cut where the value is or belongs. -/
inductive Cut (v : Int) (xs as bs : List Int) : Bool → Prop where
  | there (split : xs = as ++ v :: bs) (below : ∀ a ∈ as, a < v) (above : ∀ b ∈ bs, v < b) :
      Cut v xs as bs true
  | absent (split : xs = as ++ bs) (below : ∀ a ∈ as, a < v) (above : ∀ b ∈ bs, v < b) :
      Cut v xs as bs false

lemma Cut.mem_iff {found : Bool} (h : Cut v xs as bs found) : found = true ↔ v ∈ xs := by
  cases h with
  | there split below above => simp [split]
  | absent split below above =>
    refine ⟨nofun, fun hmem => ?_⟩
    rw [split] at hmem
    rcases mem_append.mp hmem with hmem | hmem
    · exact absurd (below v hmem) (Int.lt_irrefl v)
    · exact absurd (above v hmem) (Int.lt_irrefl v)

lemma Cut.split_absent (h : Cut v xs as bs false) : xs = as ++ bs := by
  cases h with
  | absent split _ _ => exact split

lemma Cut.split_there (h : Cut v xs as bs true) : xs = as ++ v :: bs := by
  cases h with
  | there split _ _ => exact split

lemma Window.cut {k : Nat} (h : Window xs v k k) : Cut v xs (xs.take k) (xs.drop k) false := by
  refine .absent (take_append_drop k xs).symm ?_ ?_
  · intro a ha
    obtain ⟨i, hi, rfl⟩ := mem_iff_getElem.mp ha
    rw [length_take] at hi
    rw [getElem_take]
    exact h.below i (by omega) (by omega)
  intro b hb
  obtain ⟨i, hi, rfl⟩ := mem_iff_getElem.mp hb
  rw [length_drop] at hi
  rw [getElem_drop]
  exact h.above (k + i) (by omega) (by omega)

lemma cut_getElem (hs : xs.Pairwise (· < ·))
    (hi : xs[i]? = some v) : Cut v xs (xs.take i) (xs.drop (i + 1)) true := by
  obtain ⟨hlt, rfl⟩ := List.getElem?_eq_some_iff.mp hi
  refine .there ?_ ?_ ?_
  · rw [getElem_cons_drop, take_append_drop]
  · intro a ha
    obtain ⟨j, hj, rfl⟩ := mem_iff_getElem.mp ha
    rw [length_take] at hj
    rw [getElem_take]
    exact getElem_lt_of_increasing hs (by omega) hlt
  intro b hb
  obtain ⟨j, hj, rfl⟩ := mem_iff_getElem.mp hb
  rw [length_drop] at hj
  rw [getElem_drop]
  exact getElem_lt_of_increasing hs (by omega) (by omega)

/-- The search tells whether the value is there, and how many elements are below it. -/
lemma search_spec (h : Holds is xs) (v : Int) (hlen : xs.length < 2 ^ 31) :
    ∃ found as bs, intsetSearch is v = .ok (found, as.length) ∧ Cut v xs as bs found := by
  have hempty : ∀ (k : Nat), k ≤ xs.length → Window xs v k k →
      Cut v xs (xs.take k) (xs.drop k) false ∧ (xs.take k).length = k :=
    fun k hk hw => ⟨hw.cut, length_take_of_le hk⟩
  unfold intsetSearch
  rw [h.length]
  split
  · next hzero =>
    obtain rfl : xs = [] := length_eq_zero_iff.mp hzero
    exact ⟨false, [], [], rfl, .absent rfl nofun nofun⟩
  next hne =>
  have hcast : (xs.length : Int) - 1 = (xs.length - 1 : Nat) := by omega
  have hlast : xs.length - 1 < xs.length := by omega
  have hfirst : 0 < xs.length := by omega
  have hget0 : intsetGetAt is 0 = .ok xs[0] := h.getAt hfirst
  dsimp only
  rw [hcast, h.getAt hlast, bind_ok]
  split
  · next hgt =>
    have hw : Window xs v xs.length xs.length := by
      refine ⟨le_rfl, le_rfl, fun i hi _ => ?_, fun i hi hge => by omega⟩
      rcases Nat.lt_or_eq_of_le (Nat.le_sub_one_of_lt hi) with hlt | rfl
      · exact Int.lt_trans (getElem_lt_of_increasing h.increasing hlt hlast) hgt
      · exact hgt
    obtain ⟨hcut, hk⟩ := hempty xs.length le_rfl hw
    exact ⟨false, _, _, by rw [hk], hcut⟩
  rw [hget0, bind_ok]
  split
  · next hlt =>
    have hw : Window xs v 0 0 := by
      refine ⟨le_rfl, Nat.zero_le _, fun i hi hlo => by omega, fun i hi _ => ?_⟩
      rcases Nat.eq_zero_or_pos i with rfl | hpos
      · exact hlt
      · exact Int.lt_trans hlt (getElem_lt_of_increasing h.increasing hpos hi)
    obtain ⟨hcut, hk⟩ := hempty 0 (Nat.zero_le _) hw
    exact ⟨false, _, _, by rw [hk], hcut⟩
  have hw : Window xs v 0 xs.length :=
    ⟨Nat.zero_le _, le_rfl, fun i hi hlo => by omega, fun i hi hge => by omega⟩
  obtain ⟨out, hout, hfound⟩ := searchLoop_spec h v hlen (xs.length + 1) 0 xs.length (-1) (-1)
    hw (by omega) (fun he => by omega)
  rw [← hcast]
  rw [Int.natCast_zero] at hout
  rw [hout, bind_ok]
  rcases hfound with ⟨hcur, i, hi, hget⟩ | ⟨hcur, k, hk, hwk⟩
  · obtain ⟨hilt, -⟩ := List.getElem?_eq_some_iff.mp hget
    rw [if_pos hcur.symm, hi, uint32_natCast (by omega)]
    refine ⟨true, _, _, ?_, cut_getElem h.increasing hget⟩
    rw [length_take_of_le hilt.le]
  have htop := hwk.top
  rw [if_neg (fun he => hcur he.symm), hk, uint32_natCast (by omega)]
  obtain ⟨hcut, hkl⟩ := hempty k htop hwk
  exact ⟨false, _, _, by rw [hkl], hcut⟩

end Redis.IntegerSet.Search
