import Redis.Lib.Bytes
import Mathlib.Data.List.Basic
import Mathlib.Data.Int.Basic

/-! # Positions of an element in a list

`LPOS` scans the list from one end, skips matches up to its rank and replies the positions
of those that follow. The rank is negated for a scan from the tail, in a `long`. -/
namespace Redis.Lists.Lpos
open List Lib

inductive Reply where
  | null
  | position (i : Int)
  | array (is : List Int)
deriving DecidableEq

def longMin : Int := -9223372036854775808

/-- The value of a `long` after an operation that may wrap around. -/
def long (n : Int) : Int := n.bmod 18446744073709551616

/-- Whether the loop ends with this match: at once without COUNT. -/
def stops (rank : Int) (count : Option Int) (matches_ : Int) : Bool :=
  match count with
  | none => true
  | some count => decide (count ≠ 0 ∧ long (matches_ - rank + 1) ≥ count)

/-- The loop of `lposCommand`: the places of the matches to reply, from the end it starts at. -/
def scan (ele : Bytes) (rank : Int) (count : Option Int) (maxlen : Int) :
    (index matches_ : Int) → List Bytes → List Int
  | _, _, [] => []
  | index, matches_, x :: xs =>
    if maxlen = 0 ∨ index < maxlen then
      if x = ele then
        if matches_ + 1 ≥ rank then
          index :: if stops rank count (matches_ + 1) then []
            else scan ele rank count maxlen (index + 1) (matches_ + 1) xs
        else scan ele rank count maxlen (index + 1) (matches_ + 1) xs
      else scan ele rank count maxlen (index + 1) matches_ xs
    else []

def reply (count : Option Int) (found : List Int) : Reply :=
  match count, found with
  | some _, found => .array found
  | none, [] => .null
  | none, i :: _ => .position i

/-- `LPOS` of a key that holds the list, once its options are read. -/
def lposCommand (list : List Bytes) (ele : Bytes) (rank : Int) (count : Option Int)
    (maxlen : Int) : Reply :=
  reply count <|
    if rank < 0 then
      (scan ele (long (-rank)) count maxlen 0 0 list.reverse).map fun i => list.length - i - 1
    else scan ele rank count maxlen 0 0 list

/-! ## What is to be replied -/

/-- The places of the element, counted from `i` on. -/
def places (ele : Bytes) (xs : List Bytes) (i : Nat) : List Nat :=
  ((xs.zipIdx i).filter fun p => p.1 = ele).map Prod.snd

/-- How many results are asked for: one without COUNT, and all for zero. -/
def cap : Option Int → Option Nat
  | none => some 1
  | some count => if count = 0 then none else some count.toNat

def upTo : Option Nat → List Nat → List Nat
  | none, is => is
  | some k, is => is.take k

/-- The elements looked at. -/
def scanned (list : List Bytes) (rank maxlen : Int) : List Bytes :=
  let xs := if rank < 0 then list.reverse else list
  if maxlen = 0 then xs else xs.take maxlen.toNat

def positions (list : List Bytes) (ele : Bytes) (rank : Int) (count : Option Int)
    (maxlen : Int) : List Int :=
  (upTo (cap count) ((places ele (scanned list rank maxlen) 0).drop (rank.natAbs - 1))).map
    fun i : Nat => if rank < 0 then (list.length : Int) - i - 1 else i

variable {ele x : Bytes} {xs : List Bytes} {count : Option Int} {maxlen : Int}

lemma places_cons (i : Nat) : places ele (x :: xs) i =
    if x = ele then i :: places ele xs (i + 1) else places ele xs (i + 1) := by
  by_cases h : x = ele <;> simp [places, h]

lemma take_limit {i : Nat} (h : maxlen = 0 ∨ (i : Int) < maxlen) :
    (if maxlen = 0 then x :: xs else (x :: xs).take (maxlen.toNat - i)) =
      x :: if maxlen = 0 then xs else xs.take (maxlen.toNat - (i + 1)) := by
  split
  · rfl
  rw [show maxlen.toNat - i = maxlen.toNat - (i + 1) + 1 by omega, take_succ_cons]

lemma stops_iff {r e : Nat} (he : e + 1 < 9223372036854775808) (hcount : ∀ n ∈ count, 0 ≤ n) :
    stops (r + 1) count (r + e + 1) = true ↔ ∃ k ∈ cap count, k ≤ e + 1 := by
  cases count with
  | none => simp [stops, cap]
  | some n =>
    have hlong : long ((r : Int) + e + 1 - (r + 1) + 1) = e + 1 := by
      rw [long, Int.bmod_eq_of_le (by omega) (by omega)]
      omega
    simp only [stops, hlong, cap]
    split <;> simp <;> omega

/-- `m` matches are behind, `m - r` of them replied. -/
lemma scan_eq {r : Nat} (hcount : ∀ n ∈ count, 0 ≤ n) (hmax : 0 ≤ maxlen) :
    ∀ (xs : List Bytes) (i m : Nat), m + xs.length < 9223372036854775807 →
      (∀ k ∈ cap count, m - r < k) →
      scan ele (r + 1) count maxlen i m xs = (upTo ((cap count).map (· - (m - r)))
          ((places ele (if maxlen = 0 then xs else xs.take (maxlen.toNat - i)) i).drop
            (r - m))).map (↑)
  | [], i, m, _, _ => by cases cap count <;> simp [scan, places, upTo]
  | x :: xs, i, m, hlen, hgo => by
    rw [length_cons] at hlen
    rw [scan]
    by_cases hin : maxlen = 0 ∨ (i : Int) < maxlen
    · have hnext := scan_eq (r := r) hcount hmax xs (i + 1)
      rw [if_pos hin, take_limit hin, places_cons]
      by_cases hx : x = ele
      · rw [if_pos hx, if_pos hx]
        have hmatch := hnext (m + 1) (by omega)
        push_cast at hmatch
        by_cases hm : m < r
        · rw [if_neg (by omega), hmatch (by rwa [show m + 1 - r = m - r by omega]),
            show m + 1 - r = m - r by omega, show r - m = r - (m + 1) + 1 by omega, drop_succ_cons]
        · rw [if_pos (by omega), show r - m = 0 by omega]
          have hstop := @stops_iff count r (m - r) (by omega) hcount
          rw [show ((r : Int) + (m - r : Nat) + 1) = m + 1 by omega] at hstop
          cases hcap : cap count with
          | none =>
            rw [hcap] at hmatch hstop
            rw [if_neg (by rw [hstop]; simp), hmatch (by simp), show r - (m + 1) = 0 by omega]
            rfl
          | some k =>
            have hk := hgo k hcap
            rw [hcap] at hmatch hstop
            by_cases hlast : k ≤ m - r + 1
            · rw [if_pos (hstop.mpr ⟨k, rfl, hlast⟩), Option.map_some,
                show k - (m - r) = 1 by omega]
              rfl
            have hmore : ∀ k' ∈ some k, m + 1 - r < k' := by
              rintro k' ⟨⟩
              omega
            rw [if_neg (by rw [hstop]; simpa using hlast), hmatch hmore,
              show r - (m + 1) = 0 by omega, Option.map_some, Option.map_some,
              show k - (m - r) = k - (m + 1 - r) + 1 by omega]
            rfl
      · rw [if_neg hx, if_neg hx]
        exact hnext m (by omega) hgo
    · have hpast : maxlen.toNat - i = 0 := by omega
      rw [if_neg hin, if_neg (fun h => hin (.inl h)), hpast]
      cases cap count <;> simp [places, upTo]

/-- With the least rank, which is its own negation, the first match counts. -/
lemma scan_longMin : ∀ (xs : List Bytes) (i m : Nat), scan ele longMin count maxlen i m xs = [] ↔
      ele ∉ if maxlen = 0 then xs else xs.take (maxlen.toNat - i)
  | [], i, m => by simp [scan]
  | x :: xs, i, m => by
    rw [scan]
    by_cases hin : maxlen = 0 ∨ (i : Int) < maxlen
    · have hnext := scan_longMin xs (i + 1) m
      push_cast at hnext
      rw [if_pos hin, take_limit hin, mem_cons]
      by_cases hx : x = ele
      · rw [if_pos hx, if_pos (by rw [longMin]; omega)]
        simp [hx]
      · rw [if_neg hx, hnext, not_or]
        exact (and_iff_right (Ne.symm hx)).symm
    · rw [if_neg hin, if_neg (fun h => hin (.inl h)), show maxlen.toNat - i = 0 by omega]
      simp

lemma cap_pos (hcount : ∀ n ∈ count, 0 ≤ n) : ∀ k ∈ cap count, 0 < k := by
  cases count with
  | none => simp [cap]
  | some n =>
    have hn := hcount n rfl
    simp only [cap, Option.mem_def, Option.ite_none_left_eq_some, Option.some.injEq]
    omega

lemma reply_eq_nil {found : List Int} : reply count found = reply count [] ↔ found = [] := by
  cases count <;> cases found <;> simp [reply]

lemma length_places_le (i : Nat) : (places ele xs i).length ≤ xs.length := by
  rw [places, length_map]
  exact (length_filter_le ..).trans (by rw [length_zipIdx])

/-- `LPOS` replies the positions asked for, but with the least rank, where it is right only
if the element is not found. -/
theorem lpos_replies_iff (list : List Bytes) (ele : Bytes) (rank : Int) (count : Option Int)
    (maxlen : Int) (hlen : list.length < 9223372036854775807) (hrank : rank ≠ 0)
    (hmin : longMin ≤ rank) (hcount : ∀ n ∈ count, 0 ≤ n) (hmax : 0 ≤ maxlen) :
    lposCommand list ele rank count maxlen = reply count (positions list ele rank count maxlen) ↔
      rank ≠ longMin ∨ ele ∉ scanned list rank maxlen := by
  by_cases hleast : rank = longMin
  · subst hleast
    have hle := @length_places_le ele (scanned list longMin maxlen) 0
    have hscanned : (scanned list longMin maxlen).length ≤ list.length := by
      simp only [scanned, if_pos (show longMin < 0 by decide)]
      split
      · rw [length_reverse]
      · exact (length_take_le' ..).trans (length_reverse ..).le
    have hskip : longMin.natAbs - 1 = 9223372036854775807 := rfl
    have hnil : positions list ele longMin count maxlen = [] := by
      rw [positions, drop_eq_nil_of_le (by omega)]
      cases cap count <;> simp [upTo]
    rw [hnil, lposCommand, if_pos (by decide), reply_eq_nil, show long (-longMin) = longMin from rfl]
    simpa [scanned, show longMin < 0 from by decide] using
      @scan_longMin ele count maxlen list.reverse 0 0
  refine iff_of_true ?_ (.inl hleast)
  have hscan : ∀ (r : Nat) (xs : List Bytes), xs.length = list.length →
      scan ele (r + 1) count maxlen 0 0 xs = (upTo (cap count) ((places ele
        (if maxlen = 0 then xs else xs.take maxlen.toNat) 0).drop r)).map (↑) := by
    intro r xs hxs
    have hall := @scan_eq ele count maxlen r hcount hmax xs 0 0 (by omega)
      (by simpa using cap_pos hcount)
    simpa using hall
  rw [lposCommand, positions, scanned]
  split
  · have hlong : long (-rank) = (rank.natAbs - 1 : Nat) + 1 := by
      rw [long, Int.bmod_eq_of_le (by omega) (by rw [longMin] at hmin hleast; omega)]
      omega
    rw [hlong, hscan _ _ (length_reverse ..), map_map]
    rfl
  · obtain ⟨r, rfl⟩ : ∃ r : Nat, rank = r + 1 := ⟨rank.natAbs - 1, by omega⟩
    rw [hscan r list rfl, show ((r : Int) + 1).natAbs - 1 = r by omega]

theorem lpos_replies_from_tail :
    lposCommand [[97], [98], [97]] [97] (-1) (some 0) 0 = .array [2, 0] ∧
      lposCommand [[97], [98], [97]] [97] (-1) (some 0) 0 =
        reply (some 0) (positions [[97], [98], [97]] [97] (-1) (some 0) 0) :=
  ⟨by decide, (lpos_replies_iff _ _ _ _ _ (by decide) (by decide) (by decide)
    (by rintro n ⟨⟩; decide) (by decide)).mpr (.inl (by decide))⟩

/-- No element can match often enough, but the first match from the tail is replied. -/
theorem lpos_least_rank : lposCommand [[97]] [97] longMin none 0 = .position 0 ∧
    reply none (positions [[97]] [97] longMin none 0) = .null := by
  decide

end Redis.Lists.Lpos
