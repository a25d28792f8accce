import Redis.Lib.Simulation
import Redis.Listpack.Ranges

/-! # A listpack is a list of byte strings

The callers of listpack.c keep their listpacks in variables, and `lpMerge`
takes two of them. `step` performs an operation on such a set of variables and
`spec` performs it on lists, which know nothing of bytes except that a listpack
of more than 2^32 - 1 of them is refused. -/
namespace Redis.Listpack.Refinement
open Function List Lib Outcome Lib.Simulation Util.Numbers
open Model Traversal Layout
open Mutation Ranges

/-- The variables that hold a listpack. -/
abbrev Vars (α : Type) := Nat → Option α

/-- An element as a caller passes it: bytes, or a `long long`. -/
inductive Element where
  | str (s : Bytes)
  | int (v : Int) (hmin : llongMin ≤ v) (hmax : v ≤ llongMax)

def Element.payload : Element → Payload
  | .str s => .str s
  | .int v _ _ => .int (lpEncodeIntegerGetType v)

def Element.text : Element → Bytes
  | .str s => s
  | .int v _ _ => signedDecimal v

/-- `lpInsertString` or `lpInsertInteger`. -/
def Element.insert (lp : Bytes) (p : Nat) (wh : Where) :
    Element → Outcome (Option (Bytes × Option Nat))
  | .str s => lpInsertString lp s p wh
  | .int v _ _ => lpInsertInteger lp v p wh

lemma Element.insert_eq (e : Element) (lp : Bytes) (p : Nat) (wh : Where) :
    e.insert lp p wh = lpInsert lp e.payload p wh := by
  cases e <;> rfl

lemma Element.stores (e : Element) : StoresElement e.payload e.text := by
  cases e with
  | str s => exact storesElement_str s
  | int v hmin hmax => exact storesElement_int hmin hmax

inductive Op where
  | create (v : Nat)
  | insert (v : Nat) (ele : Element) (index : Int) (wh : Where)
  | delete (v : Nat) (index : Int)
  | prepend (v : Nat) (ele : Element)
  | append (v : Nat) (ele : Element)
  | deleteRange (v : Nat) (index : Int) (num : Nat)
  | merge (first second : Nat)
  | length (v : Nat)
  | seek (v : Nat) (index : Int)
  | forward (v : Nat)
  | backward (v : Nat)

inductive Reply where
  | done
  | null
  | count (n : Nat)
  | element (x : Option Bytes)
  | elements (xs : List Bytes)

section Variables
variable {α β : Type}

/-- An operation on the contents of one variable. -/
def onVar (v : Nat) (s : Vars α) (f : α → Outcome (α × Reply)) : Outcome (Vars α × Reply) :=
  match s v with
  | none => .ok (s, .null)
  | some x => do
    let (x, r) ← f x
    .ok (update s v (some x), r)

/-- The variables hold related values. -/
def Holds (R : α → β → Prop) (s : Vars α) (a : Vars β) : Prop := ∀ v, Option.Rel R (s v) (a v)

lemma Holds.update {R : α → β → Prop} {s a} (h : Holds R s a) (v : Nat)
    {x y} (hxy : Option.Rel R x y) : Holds R (update s v x) (update a v y) := by
  intro w
  by_cases hw : w = v
  · subst hw
    rw [update_self, update_self]
    exact hxy
  rw [update_of_ne hw, update_of_ne hw]
  exact h w

lemma onVar_agree {R : α → β → Prop} {s a} (h : Holds R s a) (v : Nat)
    {f : α → Outcome (α × Reply)} {g : β → Outcome (β × Reply)}
    (hfg : ∀ x y, R x y → Agree R (f x) (g y)) : Agree (Holds R) (onVar v s f) (onVar v a g) := by
  have hv := h v
  unfold onVar
  generalize s v = x, a v = y at hv
  cases hv with
  | none => exact .ok _ h
  | some hxy =>
    have hf := hfg _ _ hxy
    dsimp only
    generalize f _ = x, g _ = y at hf
    cases hf with
    | error e => exact .error e
    | ok r hr => exact .ok r (h.update v (.some hr))

end Variables

/-! ## The code -/

/-- The caller keeps its listpack when a modification returns NULL. -/
def orKeep (lp : Bytes) (r : Outcome (Option (Bytes × Option Nat))) : Outcome (Bytes × Reply) := do
  match ← r with
  | none => .ok (lp, .null)
  | some (lp, _) => .ok (lp, .done)

/-- A modification at the entry `lpSeek` finds. -/
def atEntry (lp : Bytes) (index : Int) (f : Nat → Outcome (Option (Bytes × Option Nat))) :
    Outcome (Bytes × Reply) := do
  match ← lpSeek lp index with
  | none => .ok (lp, .null)
  | some p => orKeep lp (f p)

def step : Op → Vars Bytes → Outcome (Vars Bytes × Reply)
  | .create v, s => .ok (update s v (some lpNew), .done)
  | .insert v ele index wh, s =>
    onVar v s fun lp => atEntry lp index fun p => ele.insert lp p wh
  | .delete v index, s => onVar v s fun lp => atEntry lp index fun p => lpDelete lp p
  | .prepend v ele, s => onVar v s fun lp => orKeep lp (lpPrepend lp ele.payload)
  | .append v ele, s => onVar v s fun lp => orKeep lp (lpAppend lp ele.payload)
  | .deleteRange v index num, s => onVar v s fun lp => do
    let lp ← lpDeleteRange lp index num
    .ok (lp, .done)
  | .merge first second, s =>
    if first = second then .ok (s, .null)
    else do
      match ← lpMerge (s first) (s second) with
      | none => .ok (s, .null)
      | some (x, y) => .ok (update (update s first x) second y, .done)
  | .length v, s => onVar v s fun lp => do
    let (lp, n) ← lpLength lp
    .ok (lp, .count n)
  | .seek v index, s => onVar v s fun lp => do
    let x ← lpSeekString lp index
    .ok (lp, .element x)
  | .forward v, s => onVar v s fun lp => do
    let xs ← walkForward lp >>= readAll lp
    .ok (lp, .elements xs)
  | .backward v, s => onVar v s fun lp => do
    let xs ← walkBackward lp >>= readAll lp
    .ok (lp, .elements xs)

/-! ## The lists -/

/-- A change is refused when the listpack would not fit its size field. -/
def ifFits (xs ys : List Bytes) : Outcome (List Bytes × Reply) :=
  if uint32Max < lpSize ys then .ok (xs, .null) else .ok (ys, .done)

/-- The list with `x` before, after or instead of element `k`. -/
def placeAt (xs : List Bytes) (k : Nat) (x : Bytes) : Where → List Bytes
  | .before => xs.take k ++ x :: xs.drop k
  | .after => xs.take (k + 1) ++ x :: xs.drop (k + 1)
  | .replace => xs.take k ++ x :: xs.drop (k + 1)

def spec : Op → Vars (List Bytes) → Outcome (Vars (List Bytes) × Reply)
  | .create v, a => .ok (update a v (some []), .done)
  | .insert v ele index wh, a => onVar v a fun xs =>
    match normIndex xs.length index with
    | none => .ok (xs, .null)
    | some k => ifFits xs (placeAt xs k ele.text wh)
  | .delete v index, a => onVar v a fun xs =>
    match normIndex xs.length index with
    | none => .ok (xs, .null)
    | some k => .ok (xs.eraseIdx k, .done)
  | .prepend v ele, a => onVar v a fun xs => ifFits xs (ele.text :: xs)
  | .append v ele, a => onVar v a fun xs => ifFits xs (xs ++ [ele.text])
  | .deleteRange v index num, a => onVar v a fun xs => .ok (removeRange xs index num, .done)
  | .merge first second, a =>
    if first = second then .ok (a, .null)
    else match a first, a second with
      | some xs, some ys => do
        check (lpSize (xs ++ ys) < uint32Max)
        let (x, y) := if lpSize ys ≤ lpSize xs then (some (xs ++ ys), none) else (none, some (xs ++ ys))
        .ok (update (update a first x) second y, .done)
      | _, _ => .ok (a, .null)
  | .length v, a => onVar v a fun xs => .ok (xs, .count xs.length)
  | .seek v index, a => onVar v a fun xs => .ok (xs, .element (atIndex xs index))
  | .forward v, a => onVar v a fun xs => .ok (xs, .elements xs)
  | .backward v, a => onVar v a fun xs => .ok (xs, .elements xs.reverse)

/-! ## Simulation -/

variable {lp : Bytes} {xs : List Bytes}

lemma orKeep_agree {ys} (h : Represents lp xs) {r p} (hr : InsertResult r ys p) :
    Agree Represents (orKeep lp r) (ifFits xs ys) := by
  unfold InsertResult at hr
  unfold orKeep ifFits
  split at hr
  · rename_i hbig
    rw [hr, if_pos hbig]
    exact .ok _ h
  rename_i hfit
  obtain ⟨lp', hok, hrep⟩ := hr
  rw [hok, if_neg hfit]
  exact .ok _ hrep

lemma insert_agree (h : Represents lp xs) (ele : Element) (index : Int) (wh : Where) :
    Agree Represents (atEntry lp index fun p => ele.insert lp p wh)
      (match normIndex xs.length index with
        | none => .ok (xs, .null)
        | some k => ifFits xs (placeAt xs k ele.text wh)) := by
  simp only [Element.insert_eq]
  unfold atEntry
  rcases lpSeek_cases h index with ⟨hn, hseek⟩ | ⟨ys, y, zs, rfl, hn, hseek⟩
  · rw [hseek, hn]
    exact .ok _ h
  rw [hseek, hn]
  dsimp only [bind_ok]
  have hdrop : (ys ++ y :: zs).drop (ys.length + 1) = zs := by
    rw [drop_length_add_append]; rfl
  have htake : (ys ++ y :: zs).take (ys.length + 1) = ys ++ [y] := by
    rw [take_length_add_append]; rfl
  cases wh with
  | before =>
    rw [placeAt, take_left, drop_left]
    exact orKeep_agree h (lpInsert_before _ h ele.stores)
  | after =>
    rw [placeAt, hdrop, htake, ← append_cons]
    exact orKeep_agree h (lpInsert_after h ele.stores)
  | replace =>
    rw [placeAt, take_left, hdrop]
    exact orKeep_agree h (lpReplace_eq h ele.stores)

lemma delete_agree (h : Represents lp xs) (index : Int) :
    Agree Represents (atEntry lp index fun p => lpDelete lp p) (match normIndex xs.length index with
        | none => .ok (xs, .null)
        | some k => .ok (xs.eraseIdx k, .done)) := by
  unfold atEntry
  rcases lpSeek_cases h index with ⟨hn, hseek⟩ | ⟨ys, y, zs, rfl, hn, hseek⟩
  · rw [hseek, hn]
    exact .ok _ h
  obtain ⟨lp', hdel, hrep⟩ := lpDelete_eq h
  rw [hseek, hn]
  dsimp only [bind_ok]
  rw [hdel, eraseIdx_append_of_length_le le_rfl, Nat.sub_self]
  exact .ok _ hrep

lemma merge_agree {s a} (h : Holds Represents s a) (first second : Nat) :
    Agree (Holds Represents) (step (.merge first second) s) (spec (.merge first second) a) := by
  dsimp only [step, spec]
  split
  · exact .ok _ h
  have h1 := h first
  have h2 := h second
  generalize s first = x, a first = xs at h1
  generalize s second = y, a second = ys at h2
  cases h1 with
  | none => cases h2 <;> exact .ok _ h
  | some hx =>
    cases h2 with
    | none => exact .ok _ h
    | some hy =>
      have hmerge := mergeBytes_eq hx hy
      dsimp only [lpMerge]
      rw [lpBytes, lpBytes, hx.totalBytes, hy.totalBytes, bind_ok]
      split at hmerge
      · rename_i hfit
        obtain ⟨lp', hok, hrep⟩ := hmerge
        rw [hok, check_pos hfit, bind_ok, bind_ok, bind_ok]
        dsimp only
        split
        · exact .ok _ ((h.update first (.some hrep)).update second .none)
        · exact .ok _ ((h.update first .none).update second (.some hrep))
      · rename_i hbig
        rw [hmerge, check, if_neg hbig]
        exact .error _

lemma step_agrees (op : Op) (s : Vars Bytes) (a : Vars (List Bytes)) (h : Holds Represents s a) :
    Agree (Holds Represents) (step op s) (spec op a) := by
  cases op with
  | create v => exact .ok _ (h.update v (.some lpNew_represents))
  | insert v ele index wh => exact onVar_agree h v fun _ _ hr => insert_agree hr ele index wh
  | delete v index => exact onVar_agree h v fun _ _ hr => delete_agree hr index
  | prepend v ele => exact onVar_agree h v fun _ _ hr => orKeep_agree hr (lpPrepend_eq hr ele.stores)
  | append v ele => exact onVar_agree h v fun _ _ hr => orKeep_agree hr (lpAppend_eq hr ele.stores)
  | deleteRange v index num =>
    refine onVar_agree h v fun lp xs hr => ?_
    obtain ⟨lp', hok, hrep⟩ := lpDeleteRange_eq hr index num
    rw [hok]
    exact .ok _ hrep
  | merge first second => exact merge_agree h first second
  | length v =>
    refine onVar_agree h v fun lp xs hr => ?_
    obtain ⟨lp', hok, hrep⟩ := lpLength_eq hr
    rw [hok]
    exact .ok _ hrep
  | seek v index =>
    refine onVar_agree h v fun lp xs hr => ?_
    rw [hr.seek]
    exact .ok _ hr
  | forward v =>
    refine onVar_agree h v fun lp xs hr => ?_
    rw [hr.walk.1]
    exact .ok _ hr
  | backward v =>
    refine onVar_agree h v fun lp xs hr => ?_
    rw [hr.walk.2]
    exact .ok _ hr

/-- What a caller can see of the bytes, all in terms of the list. -/
structure Mirrors (lp : Bytes) (xs : List Bytes) : Prop where
  totalBytes : lpGetTotalBytes lp = .ok lp.length
  numElements : ∃ c, lpGetNumElements lp = .ok c ∧ (c = xs.length ∨ c = lpHdrNumeleUnknown)
  forward : (walkForward lp >>= readAll lp) = .ok xs
  backward : (walkBackward lp >>= readAll lp) = .ok xs.reverse
  length : ∃ lp', lpLength lp = .ok (lp', xs.length)
  seek : ∀ i, lpSeekString lp i = .ok (atIndex xs i)

lemma mirrors_of_represents (h : Represents lp xs) : Mirrors lp xs where
  totalBytes := by rw [h.totalBytes, h.length]
  numElements := by
    obtain ⟨c, rfl, hc, _⟩ := h
    exact ⟨c, lpGetNumElements_header _ hc.le, (hc.imp id And.left).symm⟩
  forward := h.walk.1
  backward := h.walk.2
  length := (lpLength_eq h).imp fun _ hl => hl.1
  seek := h.seek

/-- Every run on listpacks gives the replies of the run on lists, stops exactly
when that one stops, and leaves in every variable the bytes of its list. -/
theorem listpack_refines_list (ops : List Op) :
    Agree (Holds Mirrors) (run step ops fun _ => none) (run spec ops fun _ => none) := by
  have hrun := run_agrees step_agrees ops (fun _ => none) (fun _ => none) fun _ => .none
  refine hrun.mono fun s a h v => ?_
  have hv := h v
  generalize s v = x, a v = y at hv
  cases hv with
  | none => exact .none
  | some hr => exact .some (mirrors_of_represents hr)

end Redis.Listpack.Refinement
