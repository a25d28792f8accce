import Redis.Lib.Wildcards
import Redis.Util.Stdlib

/-! # Glob-style matching: stringmatchlen

`pattern` and `string` are what is left of the arguments from the two pointers on, so that
`patternLen` and `stringLen` are their lengths. The byte behind the pattern, which some tests
look at, is the terminator of the sds. -/
namespace Redis.Util.Glob
open List Lib Lib.Wildcards Stdlib

/-! ## The code -/

/-- A `char` as the `int` it is promoted to. -/
def charInt (b : UInt8) : Int := if b < 128 then b.toNat else (b.toNat : Int) - 256

/-- `tolower` of such an `int`. -/
def tolowerInt (c : Int) : Int := if 65 ≤ c ∧ c ≤ 90 then c + 32 else c

/-- The test of `string[0]` against a range; its ends are put in order before their case is
folded. -/
def inRange (nocase : Bool) (start stop c : UInt8) : Bool :=
  let lo := if charInt start > charInt stop then charInt stop else charInt start
  let hi := if charInt start > charInt stop then charInt start else charInt stop
  if nocase then tolowerInt lo ≤ tolowerInt (charInt c) ∧ tolowerInt (charInt c) ≤ tolowerInt hi
  else lo ≤ charInt c ∧ charInt c ≤ hi

def sameChar (nocase : Bool) (a c : UInt8) : Bool :=
  if nocase then tolower a == tolower c else a == c

/-- The loop over a class: `match`, and the pattern behind the class. A class that is not
closed ends with the pattern. -/
def classLoop (nocase : Bool) (c : UInt8) : Bytes → Bool → Bool × Bytes
  | [], found => (found, [])
  | [a], found => if a = 93 then (found, []) else (found || sameChar nocase a c, [])
  | [a, b], found =>
    if a = 92 then classLoop nocase c [] (found || b == c)
    else if a = 93 then (found, [b])
    else classLoop nocase c [b] (found || sameChar nocase a c)
  | a :: b :: x :: rest, found =>
    if a = 92 then classLoop nocase c (x :: rest) (found || b == c)
    else if a = 93 then (found, b :: x :: rest)
    else if b = 45 then classLoop nocase c rest (found || inRange nocase a x c)
    else classLoop nocase c (b :: x :: rest) (found || sameChar nocase a c)

/-- The cases of the `switch` other than `'*'`: `none` is `return 0`, otherwise the pattern
behind what was matched with the byte `c`. -/
def matchOne (nocase : Bool) (p0 : UInt8) (rest : Bytes) (c : UInt8) : Option Bytes :=
  if p0 = 63 then some rest
  else if p0 = 91 then
    let negated := decide (rest.head? = some 94)
    let (found, rest) := classLoop nocase c (if negated then rest.tail else rest) false
    if (if negated then !found else found) then some rest else none
  else if p0 = 92 then
    match rest with
    | b :: rest => if sameChar nocase b c then some rest else none
    | [] => if sameChar nocase p0 c then some [] else none
  else if sameChar nocase p0 c then some rest else none

def dropStars (pattern : Bytes) : Bytes := pattern.dropWhile (· = 42)

/-- `while(stringLen)` of the case `'*'`: the rest of the pattern is tried on every suffix of
the string. `skip` is `*skipLongerMatches`; without `cutOff` the loop does not look at it. -/
def starLoop (cutOff : Bool) (tryRest : Bytes → Bool → Bool × Bool) : Bytes → Bool → Bool × Bool
  | [], _ => (false, true)
  | c :: s, skip =>
    let (found, skip) := tryRest (c :: s) skip
    if found then (true, skip)
    else if cutOff && skip then (false, skip)
    else starLoop cutOff tryRest s skip

/-! ## The meaning of a pattern -/

inductive Item where
  | escaped (b : UInt8)
  | range (start stop : UInt8)
  | single (b : UInt8)

/-- The other case of a letter. -/
def otherCase (c : UInt8) : UInt8 :=
  if 65 ≤ c ∧ c ≤ 90 then c + 32 else if 97 ≤ c ∧ c ≤ 122 then c - 32 else c

/-- The bytes that are written down, for a range those between its ends in the order of `char`,
whichever of them stands first. -/
def Item.names : Item → UInt8 → Bool
  | escaped b, c => b == c
  | single b, c => b == c
  | range start stop, c => min (charInt start) (charInt stop) ≤ charInt c ∧
      charInt c ≤ max (charInt start) (charInt stop)

/-- Where the code has a reading of its own without regard to case: an escaped letter, and a
range with upper-case letters that has other bytes too but not all letters. -/
def Item.departs : Item → Bool
  | escaped b => otherCase b ≠ b
  | single _ => false
  | range start stop =>
    let lo := min (charInt start) (charInt stop)
    let hi := max (charInt start) (charInt stop)
    65 ≤ hi ∧ lo ≤ 90 ∧ ¬ (65 ≤ lo ∧ hi ≤ 90) ∧ ¬ (lo < 65 ∧ 122 ≤ hi)

/-- The bytes it stands for: those it names and, without regard to case, those whose other case
it names. Where the code departs from that, the escaped letter is taken as it is, and the range
is the one between the lower cases of its ends. -/
def Item.accepts (nocase : Bool) (item : Item) (c : UInt8) : Bool :=
  if nocase && item.departs then
    match item with
    | escaped b => b == c
    | single _ => false
    | range start stop =>
      tolowerInt (min (charInt start) (charInt stop)) ≤ tolowerInt (charInt c) ∧
        tolowerInt (charInt c) ≤ tolowerInt (max (charInt start) (charInt stop))
  else item.names c || nocase && item.names (otherCase c)

/-- The members of a class and the pattern behind it. -/
def readClass : Bytes → List Item × Bytes
  | [] => ([], [])
  | [a] => if a = 93 then ([], []) else ([.single a], [])
  | [a, b] =>
    if a = 92 then ([.escaped b], [])
    else if a = 93 then ([], [b])
    else (.single a :: (readClass [b]).1, (readClass [b]).2)
  | a :: b :: x :: rest =>
    if a = 92 then (.escaped b :: (readClass (x :: rest)).1, (readClass (x :: rest)).2)
    else if a = 93 then ([], b :: x :: rest)
    else if b = 45 then (.range a x :: (readClass rest).1, (readClass rest).2)
    else (.single a :: (readClass (b :: x :: rest)).1, (readClass (b :: x :: rest)).2)

/-- The class of bytes at the start of a pattern that does not start with a star, and the
pattern behind it. -/
def readAtom (nocase : Bool) (p0 : UInt8) (rest : Bytes) : (UInt8 → Bool) × Bytes :=
  if p0 = 63 then (fun _ => true, rest)
  else if p0 = 91 then
    if rest.head? = some 94 then
      (fun c => !(readClass rest.tail).1.any (·.accepts nocase c), (readClass rest.tail).2)
    else (fun c => (readClass rest).1.any (·.accepts nocase c), (readClass rest).2)
  else if p0 = 92 then
    match rest with
    | b :: rest => (sameChar nocase b, rest)
    | [] => (sameChar nocase p0, [])
  else (sameChar nocase p0, rest)

lemma readClass_length (p : Bytes) : (readClass p).2.length ≤ p.length := by
  fun_induction readClass p <;> simp_all <;> omega

lemma readAtom_length (nocase : Bool) (p0 : UInt8) (rest : Bytes) :
    (readAtom nocase p0 rest).2.length ≤ rest.length := by
  unfold readAtom
  split
  · exact le_rfl
  split
  · split
    · exact (readClass_length _).trans (by simp)
    · exact readClass_length _
  split
  · split
    · exact Nat.le_succ _
    · exact le_rfl
  · exact le_rfl

def atoms (nocase : Bool) : Bytes → List (Atom UInt8)
  | [] => []
  | p0 :: rest =>
    if p0 = 42 then .star :: atoms nocase rest
    else .one (readAtom nocase p0 rest).1 :: atoms nocase (readAtom nocase p0 rest).2
termination_by p => p.length
decreasing_by
  · simp
  · exact Nat.lt_succ_of_le (readAtom_length nocase p0 rest)

def globLanguage (nocase : Bool) (pattern : Bytes) : Language UInt8 :=
  language (atoms nocase pattern)

lemma charInt_otherCase (c : UInt8) : charInt (otherCase c) =
    if 65 ≤ charInt c ∧ charInt c ≤ 90 then charInt c + 32
    else if 97 ≤ charInt c ∧ charInt c ≤ 122 then charInt c - 32 else charInt c := by
  have hlt := c.toNat_lt
  simp only [otherCase, charInt, UInt8.le_iff_toNat_le, UInt8.lt_iff_toNat_lt,
    apply_ite UInt8.toNat, UInt8.toNat_add, UInt8.toNat_sub, UInt8.reduceToNat]
  split_ifs <;> omega

lemma folded_iff {lo hi : Int} (hle : lo ≤ hi)
    (h : ¬ (65 ≤ hi ∧ lo ≤ 90 ∧ ¬ (65 ≤ lo ∧ hi ≤ 90) ∧ ¬ (lo < 65 ∧ 122 ≤ hi))) (c : UInt8) :
    tolowerInt lo ≤ tolowerInt (charInt c) ∧ tolowerInt (charInt c) ≤ tolowerInt hi ↔
      (lo ≤ charInt c ∧ charInt c ≤ hi) ∨
        (lo ≤ charInt (otherCase c) ∧ charInt (otherCase c) ≤ hi) := by
  rw [charInt_otherCase]
  unfold tolowerInt
  split_ifs <;> omega

lemma inRange_eq (nocase : Bool) (start stop c : UInt8) :
    inRange nocase start stop c = (Item.range start stop).accepts nocase c := by
  have hlo (x y : Int) : (if x > y then y else x) = min x y := by omega
  have hhi (x y : Int) : (if x > y then x else y) = max x y := by omega
  simp only [inRange, hlo, hhi, Item.accepts]
  cases nocase with
  | false => simp [Item.names]
  | true =>
    cases hdep : (Item.range start stop).departs with
    | true => rfl
    | false =>
      rw [Bool.eq_iff_iff]
      simpa [Item.names] using folded_iff min_le_max (of_decide_eq_false hdep) c

lemma sameChar_eq (nocase : Bool) (b c : UInt8) :
    sameChar nocase b c = (Item.single b).accepts nocase c := by
  cases nocase <;> grind [sameChar, Item.accepts, Item.names, Item.departs, otherCase, tolower]

lemma escaped_eq (nocase : Bool) (b c : UInt8) :
    (b == c) = (Item.escaped b).accepts nocase c := by
  cases nocase <;> grind [Item.accepts, Item.names, Item.departs, otherCase]

/-- The readings do differ there. -/
lemma departs_iff (item : Item) : item.departs = true ↔
    ∃ c, item.accepts true c ≠ (item.names c || item.names (otherCase c)) := by
  constructor
  · intro h
    cases item with
    | escaped b =>
      refine ⟨otherCase b, ?_⟩
      grind [Item.accepts, Item.names, Item.departs, otherCase]
    | single b => cases h
    | range start stop =>
      simp only [Item.departs, Item.accepts, Item.names, charInt_otherCase, tolowerInt] at h ⊢
      have h90 : charInt 90 = 90 := rfl
      have h91 : charInt 91 = 91 := rfl
      generalize charInt start = lo, charInt stop = hi at h ⊢
      by_cases hz : max lo hi < 122 ∧ 90 < max lo hi ∧ min lo hi < 65
      · refine ⟨90, ?_⟩
        grind
      · refine ⟨91, ?_⟩
        grind
  · rintro ⟨c, hc⟩
    by_contra h
    simp [Item.accepts, h] at hc

lemma classLoop_eq (nocase : Bool) (c : UInt8) (p : Bytes) (found : Bool) :
    classLoop nocase c p found =
      (found || (readClass p).1.any (·.accepts nocase c), (readClass p).2) := by
  fun_induction classLoop nocase c p found <;>
    simp_all [readClass, inRange_eq, sameChar_eq, escaped_eq nocase, Bool.or_assoc]

lemma matchOne_eq (nocase : Bool) (p0 : UInt8) (rest : Bytes) (c : UInt8) :
    matchOne nocase p0 rest c =
      if (readAtom nocase p0 rest).1 c then some (readAtom nocase p0 rest).2 else none := by
  unfold matchOne readAtom
  split
  · rfl
  split
  · simp only [classLoop_eq]
    split <;> simp_all
  split
  · split <;> rfl
  · rfl

variable {nocase : Bool} {p0 : UInt8}

lemma matchOne_length {c rest rest'}
    (h : matchOne nocase p0 rest c = some rest') : rest'.length ≤ rest.length := by
  rw [matchOne_eq, Option.ite_none_right_eq_some] at h
  rw [← Option.some.inj h.2]
  exact readAtom_length nocase p0 rest

lemma dropStars_length (pattern : Bytes) : (dropStars pattern).length ≤ pattern.length :=
  (dropWhile_sublist _).length_le

/-! ## The matcher -/

/-- `stringmatchlen_impl`: the result and `*skipLongerMatches`. The source is the function
with `cutOff`. -/
def stringmatchlenImpl (cutOff nocase : Bool) (pattern string : Bytes) (skip : Bool) :
    Bool × Bool :=
  match pattern, string with
  | p0 :: rest, c :: s =>
    if p0 = 42 then
      if dropStars rest = [] then (true, skip)
      else starLoop cutOff
        (fun t skip => stringmatchlenImpl cutOff nocase (dropStars rest) t skip) (c :: s) skip
    else
      match _h : matchOne nocase p0 rest c with
      | none => (false, skip)
      | some rest' =>
        if s = [] then (decide (dropStars rest' = []), skip)
        else stringmatchlenImpl cutOff nocase rest' s skip
  | [], [] => (true, skip)
  | _, _ => (false, skip)
termination_by pattern.length
decreasing_by
  · exact Nat.lt_succ_of_le (dropStars_length rest)
  · exact Nat.lt_succ_of_le (matchOne_length _h)

def stringmatchlen (pattern string : Bytes) (nocase : Bool) : Bool :=
  (stringmatchlenImpl true nocase pattern string false).1

/-! ## Stars -/

lemma atoms_star (nocase : Bool) (rest : Bytes) :
    atoms nocase (42 :: rest) = .star :: atoms nocase rest := by
  rw [atoms, if_pos rfl]

lemma atoms_one (nocase : Bool) (hp : p0 ≠ 42) (rest : Bytes) : atoms nocase (p0 :: rest) =
      .one (readAtom nocase p0 rest).1 :: atoms nocase (readAtom nocase p0 rest).2 := by
  rw [atoms, if_neg hp]

lemma dropStars_eq_nil {pattern} : dropStars pattern = [] ↔ ∀ b ∈ pattern, b = 42 := by
  simp [dropStars]

lemma nil_mem_globLanguage {pattern} :
    [] ∈ globLanguage nocase pattern ↔ ∀ b ∈ pattern, b = 42 := by
  rw [globLanguage, nil_mem_language]
  induction pattern with
  | nil => simp [atoms]
  | cons p0 rest ih =>
    by_cases hp : p0 = 42
    · subst hp
      simp [atoms_star, ih]
    · simp [atoms_one nocase hp, hp]

lemma language_dropStars (nocase : Bool) (rest : Bytes) :
    language (.star :: atoms nocase (dropStars rest)) = language (.star :: atoms nocase rest) := by
  induction rest with
  | nil => rfl
  | cons p0 rest ih =>
    by_cases hp : p0 = 42
    · subst hp
      have hdrop : dropStars (42 :: rest) = dropStars rest := by simp [dropStars]
      rw [hdrop, ih, atoms_star, language_star_star]
    have hdrop : dropStars (p0 :: rest) = p0 :: rest := by simp [dropStars, hp]
    rw [hdrop]

lemma nil_not_mem_dropStars {rest} (h : dropStars rest ≠ []) :
    [] ∉ language (atoms nocase (dropStars rest)) := by
  intro hnil
  have hhead := nil_mem_globLanguage.mp hnil _ (head_mem h)
  have hstop := head_dropWhile_not (fun b : UInt8 => decide (b = 42)) h
  exact of_decide_eq_false hstop hhead

/-! ## What a call reports -/

/-- A call with the string `t` reports whether it is a word of `q`, and if it sets the flag,
no suffix of `t` is one. -/
def Reports (cutOff : Bool) (q : List (Atom UInt8)) (t : Bytes) (r : Bool × Bool) : Prop :=
  (r.1 = true ↔ t ∈ language q) ∧ (cutOff = true → r.2 = true → Excluded q t)

lemma Reports.congr {cutOff q q' t r}
    (h : Reports cutOff q t r) (hq : language q = language q') : Reports cutOff q' t r := by
  unfold Reports Excluded at *
  rwa [← hq]

/-- The loop reports for `*` in front of the rest of the pattern. -/
lemma starLoop_reports {cutOff q} {tryRest : Bytes → Bool → Bool × Bool} (hnil : [] ∉ language q)
    (htry : ∀ t skip, t ≠ [] → (cutOff = true → skip = false) →
      Reports cutOff q t (tryRest t skip)) :
    ∀ (s : Bytes) (skip : Bool), (cutOff = true → skip = false) →
      Reports cutOff (.star :: q) s (starLoop cutOff tryRest s skip) := by
  intro s
  suffices h : ∀ skip : Bool, (cutOff = true → skip = false) →
      ((starLoop cutOff tryRest s skip).1 = true ↔ ∃ t, t <:+ s ∧ t ∈ language q) ∧
      (cutOff = true → (starLoop cutOff tryRest s skip).2 = true → Excluded q s) by
    intro skip hskip
    obtain ⟨hfound, hflag⟩ := h skip hskip
    exact ⟨by rw [hfound, mem_language_star], fun hc hf => excluded_star (hflag hc hf)⟩
  induction s with
  | nil =>
    intro skip _
    simp [starLoop, hnil, Excluded]
  | cons c s ih =>
    intro skip hskip
    have hreport := htry (c :: s) skip (cons_ne_nil c s) hskip
    rw [starLoop]
    generalize tryRest (c :: s) skip = r at hreport ⊢
    obtain ⟨found, skip'⟩ := r
    obtain ⟨hfound, hflag⟩ := hreport
    cases found with
    | true =>
      refine ⟨?_, hflag⟩
      simp only [if_true, true_iff]
      exact ⟨c :: s, suffix_refl _, hfound.mp rfl⟩
    | false =>
      have hnot : c :: s ∉ language q := fun hmem => Bool.false_ne_true (hfound.mpr hmem)
      simp only [Bool.false_eq_true, if_false]
      split
      · rename_i hcut
        obtain ⟨hc, hs⟩ := Bool.and_eq_true_iff.mp hcut
        have hexcl := hflag hc hs
        refine ⟨?_, fun _ _ => hexcl⟩
        simp only [Bool.false_eq_true, false_iff]
        rintro ⟨t, ht, hmem⟩
        exact hexcl t ht hmem
      rename_i hcut
      obtain ⟨hrest, hrestFlag⟩ := ih skip' (fun hc => by simpa [hc] using hcut)
      refine ⟨hrest.trans ?_, fun hc hf => excluded_cons (hrestFlag hc hf) hnot⟩
      simp only [suffix_cons_iff, or_and_right, exists_or, exists_eq_left, hnot, false_or]

lemma impl_star (cutOff nocase : Bool) (rest : Bytes) (c : UInt8) (s : Bytes) (skip : Bool) :
    stringmatchlenImpl cutOff nocase (42 :: rest) (c :: s) skip =
      if dropStars rest = [] then (true, skip)
      else starLoop cutOff (stringmatchlenImpl cutOff nocase (dropStars rest)) (c :: s) skip := by
  rw [stringmatchlenImpl, if_pos rfl]

lemma impl_one (cutOff nocase : Bool) (hp : p0 ≠ 42) (rest : Bytes) (c : UInt8)
    (s : Bytes) (skip : Bool) :
    stringmatchlenImpl cutOff nocase (p0 :: rest) (c :: s) skip =
      if (readAtom nocase p0 rest).1 c then
        if s = [] then (decide (dropStars (readAtom nocase p0 rest).2 = []), skip)
        else stringmatchlenImpl cutOff nocase (readAtom nocase p0 rest).2 s skip
      else (false, skip) := by
  rw [stringmatchlenImpl, if_neg hp]
  have heq := matchOne_eq nocase p0 rest c
  split
  · rename_i hnone
    rw [hnone] at heq
    split at heq
    · cases heq
    · rw [if_neg ‹_›]
  rename_i rest' hsome
  rw [hsome] at heq
  split at heq
  · rename_i haccepts
    rw [Option.some.inj heq]
    simp only [haccepts, if_true]
  · cases heq

/-- A call with a string that is not empty reports for its pattern. The induction is on the
length of the pattern: every recursive call and every round is about a shorter one. -/
lemma impl_reports (cutOff nocase : Bool) (p s : Bytes) (skip : Bool) (hs : s ≠ [])
    (hskip : cutOff = true → skip = false) :
    Reports cutOff (atoms nocase p) s (stringmatchlenImpl cutOff nocase p s skip) := by
  induction hn : p.length using Nat.strong_induction_on generalizing p s skip with
  | _ n ih =>
    obtain ⟨c, s, rfl⟩ := exists_cons_of_ne_nil hs
    -- A result that leaves the flag alone.
    have hkeeps (r : Bool) (hr : r = true ↔ c :: s ∈ language (atoms nocase p)) :
        Reports cutOff (atoms nocase p) (c :: s) (r, skip) :=
      ⟨hr, fun hc hf => absurd (hskip hc) (by simpa using hf)⟩
    cases p with
    | nil =>
      rw [stringmatchlenImpl]
      · refine hkeeps false ?_
        simp [atoms, mem_language_nil]
      all_goals simp
    | cons p0 rest =>
      have hlen : rest.length < n := by simp [← hn]
      by_cases hp : p0 = 42
      · subst hp
        rw [impl_star]
        split
        · rename_i hstars
          refine hkeeps true ?_
          simp only [true_iff, atoms_star]
          exact mem_language_star.mpr ⟨[], nil_suffix,
            nil_mem_globLanguage.mpr (dropStars_eq_nil.mp hstars)⟩
        rename_i hne
        have hshort := lt_of_le_of_lt (dropStars_length rest) hlen
        have hloop := starLoop_reports (nil_not_mem_dropStars hne)
          (fun t k ht hk => ih _ hshort _ t k ht hk rfl) (c :: s) skip hskip
        rw [atoms_star]
        exact hloop.congr (language_dropStars nocase rest)
      rw [impl_one cutOff nocase hp]
      have hshort := lt_of_le_of_lt (readAtom_length nocase p0 rest) hlen
      split
      · rename_i haccepts
        split
        · rename_i hend
          refine hkeeps _ ?_
          rw [decide_eq_true_iff, atoms_one nocase hp, mem_language_one, hend, dropStars_eq_nil]
          simp only [haccepts, true_and]
          exact nil_mem_globLanguage.symm
        rename_i hmore
        obtain ⟨hfound, hflag⟩ := ih _ hshort _ s skip hmore hskip rfl
        rw [atoms_one nocase hp]
        refine ⟨?_, fun hc hf => excluded_one c (hflag hc hf)⟩
        rw [hfound, mem_language_one]
        simp only [haccepts, true_and]
      · rename_i hrejects
        refine hkeeps false ?_
        simp [atoms_one nocase hp, mem_language_one, hrejects]

lemma impl_nil (cutOff nocase : Bool) (p : Bytes) (skip : Bool) :
    (stringmatchlenImpl cutOff nocase p [] skip).1 = true ↔ p = [] := by
  cases p <;> simp [stringmatchlenImpl]

/-- The condition under which a string is not taken for the pattern: it is empty, and the
pattern is a star or several. -/
def StarsOnEmpty (pattern string : Bytes) : Prop :=
  string = [] ∧ pattern ≠ [] ∧ ∀ b ∈ pattern, b = 42

instance (pattern string : Bytes) : Decidable (StarsOnEmpty pattern string) :=
  inferInstanceAs (Decidable (_ ∧ _ ∧ _))

/-- The cut-off changes no result. -/
theorem cutOff_keeps_result (pattern string : Bytes) (nocase : Bool) :
    (stringmatchlenImpl true nocase pattern string false).1 =
      (stringmatchlenImpl false nocase pattern string false).1 := by
  rw [Bool.eq_iff_iff]
  by_cases hs : string = []
  · rw [hs, impl_nil, impl_nil]
  have hwith := (impl_reports true nocase pattern string false hs (fun _ => rfl)).1
  have hwithout := (impl_reports false nocase pattern string false hs (fun _ => rfl)).1
  rw [hwith, hwithout]

end Redis.Util.Glob
