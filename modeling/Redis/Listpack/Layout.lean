import Redis.Listpack.Encoding

/-! # The bytes of a list

`lpOf c xs` is the listpack holding the byte strings `xs` with `c` in the count
field of the header. It is valid at the offsets of its entries, and the text
read at each offset is the element. -/
namespace Redis.Listpack.Layout
open List
open Lib Outcome Util.Numbers Model Traversal Encoding

def body (xs : List Bytes) : Bytes := (xs.map entry).flatten

/-- Total bytes of a listpack with these elements. -/
def lpSize (xs : List Bytes) : Nat := lpHdrSize + (body xs).length + 1

def header (size c : Nat) : Bytes := le 4 size ++ le 2 c

def lpOf (c : Nat) (xs : List Bytes) : Bytes := header (lpSize xs) c ++ (body xs ++ [lpEOF])

/-- The count field: exact, or unknown. -/
def CountOk (c : Nat) (xs : List Bytes) : Prop :=
  c = lpHdrNumeleUnknown ∨ (c = xs.length ∧ c < lpHdrNumeleUnknown)

/-- The buffer is the listpack of `xs`, and its size fits the header. -/
def Represents (lp : Bytes) (xs : List Bytes) : Prop :=
  ∃ c, lp = lpOf c xs ∧ CountOk c xs ∧ lpSize xs ≤ uint32Max

def offset (ys : List Bytes) : Nat := lpHdrSize + (body ys).length

/-- The offsets of entries that start at `p`. -/
def offsets : Nat → List Bytes → List Nat
  | _, [] => []
  | p, x :: xs => p :: offsets (p + (entry x).length) xs

@[simp] lemma length_header (size c : Nat) : (header size c).length = lpHdrSize := by
  rfl

@[simp] lemma body_append (xs ys : List Bytes) : body (xs ++ ys) = body xs ++ body ys := by
  rw [body, map_append, flatten_append]; rfl

@[simp] lemma body_cons (x : Bytes) (xs : List Bytes) : body (x :: xs) = entry x ++ body xs := rfl

@[simp] lemma body_nil : body [] = [] := rfl

lemma length_lpOf (c : Nat) (xs : List Bytes) : (lpOf c xs).length = lpSize xs := by
  rw [lpOf, length_append, length_header, length_append, length_singleton, lpSize]
  omega

@[simp] lemma length_offsets (p : Nat) (xs : List Bytes) : (offsets p xs).length = xs.length := by
  induction xs generalizing p with
  | nil => rfl
  | cons x xs ih => rw [offsets, length_cons, ih, length_cons]

lemma offsets_append (p : Nat) (xs ys : List Bytes) :
    offsets p (xs ++ ys) = offsets p xs ++ offsets (p + (body xs).length) ys := by
  induction xs generalizing p with
  | nil => rfl
  | cons x xs ih =>
    rw [cons_append, offsets, ih, offsets, body_cons, length_append, cons_append, add_assoc]

/-! ## The header -/

variable {c : Nat} {xs : List Bytes} {lp : Bytes}

lemma lpGetTotalBytes_header {size} (rest : Bytes) (h : size ≤ uint32Max) :
    lpGetTotalBytes (header size c ++ rest) = .ok size := by
  exact loadLe_front _ (by unfold uint32Max at h; omega)

lemma lpGetNumElements_header {size} (rest : Bytes) (h : c ≤ lpHdrNumeleUnknown) :
    lpGetNumElements (header size c ++ rest) = .ok c := by
  have := loadLe_append (le 4 size) (le 2 c ++ rest) 0 2
  exact this.trans (loadLe_front _ (by unfold lpHdrNumeleUnknown at h; omega))

lemma lpSetTotalBytes_header (size c v : Nat) (rest : Bytes) :
    lpSetTotalBytes (header size c ++ rest) v = .ok (header v c ++ rest) := by
  exact memcpy_parts (a := []) (b := le 4 size) rfl (by rw [length_le, length_le])

lemma lpSetNumElements_header (size c v : Nat) (rest : Bytes) :
    lpSetNumElements (header size c ++ rest) v = .ok (header size v ++ rest) := by
  exact memcpy_parts (b := le 2 c) (length_le 4 size).symm (by rw [length_le, length_le])

lemma CountOk.le (h : CountOk c xs) : c ≤ lpHdrNumeleUnknown := by
  rcases h with h | h
  · exact h.le
  · exact Nat.le_of_lt h.2

/-! ## Entries of a layout -/

/-- An element whose encoding fits the header's size field is small enough for
its own length field. -/
lemma length_lt_of_encode {x} (h : (encode x).length ≤ uint32Max) : 5 + x.length < 2 ^ 32 := by
  unfold uint32Max at h
  unfold encode at h
  split at h
  · rename_i v hv
    unfold lpStringToInt64 longStrSize at hv
    split at hv
    · cases hv
    · omega
  rw [length_lpEncodeString] at h
  split at h
  · omega
  · split at h <;> omega

lemma length_encode_le_body {x} (h : x ∈ xs) : (encode x).length ≤ (body xs).length := by
  obtain ⟨ys, zs, rfl⟩ := append_of_mem h
  rw [body_append, body_cons, length_append, length_append, length_entry]
  omega

lemma small_of_size (h : lpSize xs ≤ uint32Max) : ∀ x ∈ xs, 5 + x.length < 2 ^ 32 := by
  intro x hx
  have := length_encode_le_body hx
  unfold lpSize at h
  exact length_lt_of_encode (by omega)

lemma path_body {post} (hpost : post ≠ []) : ∀ (xs : List Bytes) (a : Bytes),
    lpHdrSize ≤ a.length → (∀ x ∈ xs, 5 + x.length < 2 ^ 32) →
    Path (a ++ (body xs ++ post)) a.length (offsets a.length xs) (a.length + (body xs).length)
  | [], a, _, _ => .nil _
  | x :: xs, a, ha, hx => by
    have hne : body xs ++ post ≠ [] := fun h => hpost (append_eq_nil_iff.mp h).2
    obtain ⟨b, hentry⟩ := entryAt_append ha hne (hx x mem_cons_self)
    have hnext : nextOf a.length (encode x).length = (a ++ entry x).length := by
      rw [nextOf, length_append, length_entry]; omega
    have hrest := path_body hpost xs (a ++ entry x)
      (by rw [length_append]; omega) (forall_mem_cons.mp hx).2
    rw [body_cons, append_assoc]
    refine .cons hentry ?_
    rw [append_assoc, length_append] at hrest
    rw [hnext, length_append, length_append, ← add_assoc]
    exact hrest

lemma Represents.length (h : Represents lp xs) : lp.length = lpSize xs := by
  obtain ⟨c, rfl, _, _⟩ := h
  exact length_lpOf c xs

lemma Represents.size_le (h : Represents lp xs) : lpSize xs ≤ uint32Max := by
  obtain ⟨_, _, _, hs⟩ := h
  exact hs

lemma Represents.totalBytes (h : Represents lp xs) : lpGetTotalBytes lp = .ok (lpSize xs) := by
  obtain ⟨c, rfl, _, hs⟩ := h
  exact lpGetTotalBytes_header _ hs

lemma Represents.valid (h : Represents lp xs) : Valid lp (offsets lpHdrSize xs) := by
  obtain ⟨c, rfl, hc, hs⟩ := h
  have hlen := length_lpOf c xs
  have hend : (lpOf c xs).length - 1 = lpHdrSize + (body xs).length := by
    rw [hlen, lpSize]; omega
  refine ⟨?_, ?_, ?_, c, ?_, ?_⟩
  · rw [hlen]
    exact lpGetTotalBytes_header _ hs
  · have := path_body (cons_ne_nil lpEOF []) xs (header (lpSize xs) c)
      (by rw [length_header]) (small_of_size hs)
    rw [hend]
    rwa [length_header] at this
  · have := load_append (header (lpSize xs) c ++ body xs) [lpEOF] 0
    rw [length_append] at this
    rw [hend]
    exact this
  · exact lpGetNumElements_header _ hc.le
  · rw [length_offsets]
    exact hc.imp id And.left

/-! ## Reading the elements -/

def readAll (lp : Bytes) : List Nat → Outcome (List Bytes)
  | [] => .ok []
  | p :: ps => do
    let x ← lpGetString lp p
    let xs ← readAll lp ps
    .ok (x :: xs)

def Reads (lp : Bytes) : List Nat → List Bytes → Prop :=
  List.Forall₂ fun p x => lpGetString lp p = .ok x

lemma readAll_eq {ps} (h : Reads lp ps xs) : readAll lp ps = .ok xs := by
  induction h with
  | nil => rfl
  | cons hx _ ih => rw [readAll, hx, ih]; rfl

lemma reads_body (post : Bytes) : ∀ (xs : List Bytes) (a : Bytes),
    (∀ x ∈ xs, 5 + x.length < 2 ^ 32) → Reads (a ++ (body xs ++ post)) (offsets a.length xs) xs
  | [], _, _ => .nil
  | x :: xs, a, hx => by
    have hrest := reads_body post xs (a ++ entry x) (forall_mem_cons.mp hx).2
    rw [append_assoc, length_append] at hrest
    rw [body_cons, append_assoc]
    refine .cons ?_ hrest
    rw [lpGetString_append, entry, append_assoc]
    exact (encodes (hx x mem_cons_self)).text _

lemma Represents.reads (h : Represents lp xs) : Reads lp (offsets lpHdrSize xs) xs := by
  obtain ⟨c, rfl, _, hs⟩ := h
  have := reads_body [lpEOF] xs (header (lpSize xs) c) (small_of_size hs)
  rwa [length_header] at this

/-- Forward and backward walks, and every index, give the elements. -/
lemma Represents.walk (h : Represents lp xs) : (walkForward lp >>= readAll lp) = .ok xs ∧
      (walkBackward lp >>= readAll lp) = .ok xs.reverse := by
  rw [walkForward_eq h.valid, walkBackward_eq h.valid]
  exact ⟨readAll_eq h.reads, readAll_eq (List.forall₂_reverse_iff.mpr h.reads)⟩

/-- `lpSeek` followed by `lpGet`; `none` is NULL. -/
def lpSeekString (lp : Bytes) (index : Int) : Outcome (Option Bytes) := do
  match ← lpSeek lp index with
  | none => .ok none
  | some p => do
    let x ← lpGetString lp p
    .ok (some x)

lemma Represents.seek (h : Represents lp xs) (i : Int) :
    lpSeekString lp i = .ok (atIndex xs i) := by
  rw [lpSeekString, lpSeek_eq h.valid]
  have hrel := forall₂_atIndex h.reads i
  cases hp : atIndex (offsets lpHdrSize xs) i with
  | none =>
    rw [hp] at hrel
    cases hx : atIndex xs i with
    | none => rfl
    | some x => rw [hx] at hrel; cases hrel
  | some p =>
    rw [hp] at hrel
    cases hx : atIndex xs i with
    | none => rw [hx] at hrel; cases hrel
    | some x =>
      rw [hx] at hrel
      cases hrel with
      | some hget => simp only [hget, bind_ok]

end Redis.Listpack.Layout
