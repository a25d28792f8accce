import Redis.Listpack.Traversal

/-! # Deep validation is sound

A buffer that `lpValidateIntegrity` accepts with `deep` set may have come from
anywhere. Its entries form a path, so every traversal of it stays inside the
buffer and passes the assertions on the way. -/
namespace Redis.Listpack.Integrity
open List Lib Outcome Model Traversal

variable {lp : Bytes} {ps : List Nat} {cb : Option (Nat → Nat → Bool)}

lemma validateLoop_path {numele} : ∀ {fuel p count q total : Nat},
      validateLoop lp lp.length numele cb fuel (some p) count = .ok (some (some q, total)) →
      ∃ ps, Path lp p ps q ∧ total = count + ps.length
  | 0, p, count, q, total, h => by cases h
  | fuel + 1, p, count, q, total, h => by
    obtain ⟨b, _, h⟩ := bind_eq_ok.mp h
    split at h
    · cases h
      exact ⟨[], .nil p, rfl⟩
    obtain ⟨r, hr, h⟩ := bind_eq_ok.mp h
    match r, hr, h with
    | none, _, h => cases h
    | some none, _, h =>
      dsimp only at h
      split at h
      · cases h
      · rw [validateLoop] at h; cases h
    | some (some p'), hr, h =>
      dsimp only at h
      split at h
      · cases h
      obtain ⟨n, b', entry, rfl⟩ := entry_of_validate hr
      obtain ⟨ps, hps, rfl⟩ := validateLoop_path h
      exact ⟨p :: ps, .cons entry hps, by rw [length_cons]; omega⟩

lemma valid_of_validate
    (h : lpValidateIntegrity lp lp.length true cb = .ok true) : ∃ ps, Valid lp ps := by
  unfold lpValidateIntegrity at h
  split at h
  · cases h
  obtain ⟨bytes, hbytes, h⟩ := bind_eq_ok.mp h
  split at h
  · cases h
  rename_i hsize
  obtain ⟨last, hlast, h⟩ := bind_eq_ok.mp h
  split at h
  · cases h
  rename_i heof
  obtain ⟨numele, hnum, h⟩ := bind_eq_ok.mp h
  obtain ⟨res, hres, hend⟩ := bind_eq_ok.mp h
  have hsize := Classical.not_not.mp hsize
  have heof := Classical.not_not.mp heof
  subst hsize heof
  match res, hres, hend with
  | none, _, hend => cases hend
  | some (p, count), hres, hend =>
    dsimp only at hend
    split at hend
    · cases hend
    rename_i hp
    split at hend
    · cases hend
    rename_i hcount
    have hp := Classical.not_not.mp hp
    subst hp
    obtain ⟨ps, hpath, hc⟩ := validateLoop_path hres
    refine ⟨ps, hbytes, hpath, hlast, numele, hnum, ?_⟩
    rw [zero_add] at hc
    subst hc
    by_cases hu : numele = lpHdrNumeleUnknown
    · exact .inl hu
    · exact .inr (Classical.not_not.mp fun hne => hcount ⟨hu, hne⟩)

/-! ## Arbitrary traversals -/

/-- The calls a reader can make. `next`, `prev` and `get` take the pointer
the last call returned; a reader whose pointer is NULL does not make them. -/
inductive Move where
  | first
  | last
  | next
  | prev
  | seek (index : Int)
  | get

def move (lp : Bytes) : Move → Option Nat → Outcome (Option Nat × Option LpValue)
  | .first, _ => do
    let p ← lpFirst lp
    .ok (p, none)
  | .last, _ => do
    let p ← lpLast lp
    .ok (p, none)
  | .seek index, _ => do
    let p ← lpSeek lp index
    .ok (p, none)
  | .next, some p => do
    let p ← lpNext lp p
    .ok (p, none)
  | .prev, some p => do
    let p ← lpPrev lp p
    .ok (p, none)
  | .get, some p => do
    let v ← lpGet lp p
    .ok (some p, some v)
  | .next, none => .ok (none, none)
  | .prev, none => .ok (none, none)
  | .get, none => .ok (none, none)

/-- The values a sequence of calls returns, from a pointer on. -/
def traverse (lp : Bytes) : List Move → Option Nat → Outcome (List LpValue)
  | [], _ => .ok []
  | m :: ms, p => do
    let (p, v) ← move lp m p
    let vs ← traverse lp ms p
    .ok (v.toList ++ vs)

/-- A string result lies inside the buffer. -/
def LpValue.Inside (lp : Bytes) : LpValue → Prop
  | .str off len => off + len ≤ lp.length
  | .int _ => True

lemma lpGet_inside (h : Valid lp ps) {p} (hp : p ∈ ps) :
    ∃ v, lpGet lp p = .ok v ∧ LpValue.Inside lp v := by
  obtain ⟨n, b, entry⟩ := h.entry hp
  obtain ⟨v, hv, hw⟩ := lpGet_entry entry
  have hin := entry.inside
  unfold nextOf at hin
  refine ⟨v, hv, ?_⟩
  cases v with
  | int _ => trivial
  | str off len =>
    have hend : off + len = p + n := hw.2
    unfold LpValue.Inside
    omega

lemma move_ok (h : Valid lp ps) (m : Move) {p} (hp : ∀ q, p = some q → q ∈ ps) :
    ∃ p' v, move lp m p = .ok (p', v) ∧ (∀ q, p' = some q → q ∈ ps) ∧
      ∀ w, v = some w → LpValue.Inside lp w := by
  have none_inside : ∀ w : LpValue, (none : Option LpValue) = some w → LpValue.Inside lp w :=
    nofun
  cases m with
  | first =>
    exact ⟨ps.head?, none, by rw [move, lpFirst_eq h]; rfl,
      fun q hq => mem_of_mem_head? hq, none_inside⟩
  | last =>
    exact ⟨ps.getLast?, none, by rw [move, lpLast_eq h]; rfl,
      fun q hq => mem_of_getLast? hq, none_inside⟩
  | seek i =>
    exact ⟨atIndex ps i, none, by rw [move, lpSeek_eq h]; rfl,
      fun q hq => mem_of_atIndex hq, none_inside⟩
  | next =>
    cases p with
    | none => exact ⟨none, none, rfl, hp, none_inside⟩
    | some p =>
      obtain ⟨a, c, rfl⟩ := append_of_mem (hp p rfl)
      refine ⟨c.head?, none, by rw [move, lpNext_eq h]; rfl, fun q hq => ?_, none_inside⟩
      exact mem_append_right _ (mem_cons_of_mem _ (mem_of_mem_head? hq))
  | prev =>
    cases p with
    | none => exact ⟨none, none, rfl, hp, none_inside⟩
    | some p =>
      obtain ⟨a, c, rfl⟩ := append_of_mem (hp p rfl)
      refine ⟨a.getLast?, none, by rw [move, lpPrev_eq h]; rfl, fun q hq => ?_, none_inside⟩
      exact mem_append_left _ (mem_of_getLast? hq)
  | get =>
    cases p with
    | none => exact ⟨none, none, rfl, hp, none_inside⟩
    | some p =>
      obtain ⟨v, hv, hin⟩ := lpGet_inside h (hp p rfl)
      refine ⟨some p, some v, by rw [move, hv]; rfl, hp, fun w hw => ?_⟩
      cases hw
      exact hin

lemma traverse_ok (h : Valid lp ps) :
    ∀ (ms : List Move) {p : Option Nat}, (∀ q, p = some q → q ∈ ps) →
      ∃ vs, traverse lp ms p = .ok vs ∧ ∀ v ∈ vs, LpValue.Inside lp v
  | [], _, _ => ⟨[], rfl, by simp⟩
  | m :: ms, p, hp => by
    obtain ⟨p', v, hm, hp', hv⟩ := move_ok h m hp
    obtain ⟨vs, hvs, hin⟩ := traverse_ok h ms hp'
    refine ⟨v.toList ++ vs, by simp only [traverse, hm, hvs, bind_ok], ?_⟩
    exact forall_mem_append.mpr ⟨fun w hw => hv w (Option.mem_toList.mp hw), hin⟩

/-- An accepted buffer can be read in any way: no traversal leaves it or fails
an assertion, the slices returned lie in it, the count in the header is right
unless it is unknown, and the two directions visit the same entries. -/
theorem lpValidateIntegrity_sound (lp : Bytes) (cb : Option (Nat → Nat → Bool))
    (h : lpValidateIntegrity lp lp.length true cb = .ok true) :
    (∀ ms, ∃ vs, traverse lp ms none = .ok vs ∧ ∀ v ∈ vs, LpValue.Inside lp v) ∧
    ∃ ps numele, walkForward lp = .ok ps ∧ walkBackward lp = .ok ps.reverse ∧
      lpGetNumElements lp = .ok numele ∧
      (numele ≠ lpHdrNumeleUnknown → ps.length = numele) := by
  obtain ⟨ps, hv⟩ := valid_of_validate h
  obtain ⟨numele, hn, hcount⟩ := hv.count
  refine ⟨fun ms => ?_, ps, numele, walkForward_eq hv, walkBackward_eq hv, hn,
    fun hu => (hcount.resolve_left hu).symm⟩
  exact traverse_ok hv ms nofun

/-- The elements 0 and "a"; the first back-length is written in a longer form
than this code would write. -/
theorem lpValidateIntegrity_sound_sample :
    lpValidateIntegrity [12, 0, 0, 0, 2, 0, 0, 0x81, 0x81, 97, 2, 0xFF] 12 true none = .ok true ∧
    ∃ ps numele, walkForward [12, 0, 0, 0, 2, 0, 0, 0x81, 0x81, 97, 2, 0xFF] = .ok ps ∧
      walkBackward [12, 0, 0, 0, 2, 0, 0, 0x81, 0x81, 97, 2, 0xFF] = .ok ps.reverse ∧
      lpGetNumElements [12, 0, 0, 0, 2, 0, 0, 0x81, 0x81, 97, 2, 0xFF] = .ok numele ∧
      (numele ≠ lpHdrNumeleUnknown → ps.length = numele) :=
  ⟨rfl, (lpValidateIntegrity_sound [12, 0, 0, 0, 2, 0, 0, 0x81, 0x81, 97, 2, 0xFF] none rfl).2⟩

end Redis.Listpack.Integrity
