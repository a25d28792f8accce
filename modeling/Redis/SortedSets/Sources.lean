import Mathlib.Algebra.Order.Ring.Rat
import Mathlib.Data.List.Nodup
import Redis.Util.Numbers

/-! # The inputs of set operations on sorted sets

`ZUNION`, `ZINTER` and `ZDIFF` read sets and sorted sets in any encoding through one
iterator, the `zui` functions. Elements come as integers or as texts; an input is looked up
by the text, or by the number when it is an intset. -/
namespace Redis.SortedSets.Sources
open List Lib Util.Numbers

/-- A double without rounding. -/
inductive Score where
  | nan
  | inf (neg : Bool)
  | fin (q : ℚ)
deriving DecidableEq

namespace Score

def mul : Score → Score → Score
  | fin a, fin b => fin (a * b)
  | inf s, inf t => inf (s != t)
  | inf s, fin a => if a = 0 then nan else inf (s != decide (a < 0))
  | fin a, inf s => if a = 0 then nan else inf (s != decide (a < 0))
  | _, _ => nan

def add : Score → Score → Score
  | fin a, fin b => fin (a + b)
  | inf s, inf t => if s = t then inf s else nan
  | inf s, fin _ => inf s
  | fin _, inf s => inf s
  | _, _ => nan

/-- Every comparison with NaN fails. -/
def lt : Score → Score → Bool
  | fin a, fin b => a < b
  | inf s, inf t => s && !t
  | inf s, fin _ => s
  | fin _, inf s => !s
  | _, _ => false

lemma mul_comm (a b : Score) : a.mul b = b.mul a := by
  cases a <;> cases b <;> simp only [mul, Rat.mul_comm, bne_comm]

end Score

abbrev LongLong := { v : Int // llongMin ≤ v ∧ v ≤ llongMax }

/-- A `zsetopval`: `ell`, or the text at `ele` or `estr`. -/
inductive OpVal where
  | ell (v : LongLong)
  | str (s : Bytes)
deriving DecidableEq

def zuiSdsFromValue : OpVal → Bytes
  | .ell v => signedDecimal v
  | .str s => s

def zuiLongLongFromValue : OpVal → Option Int
  | .ell v => some v
  | .str s => string2ll s

/-- An object with its encoding; a hash table in the order it is iterated in, sorted sets
from the lowest element on. -/
inductive Encoded where
  | intset (is : List LongLong)
  | hashtable (ms : List Bytes)
  | listpack (es : List (OpVal × Score))
  | skiplist (es : List (Bytes × Score))

/-- What `zuiNext` returns one after the other; sorted sets are traversed from the end. -/
def Encoded.elements : Encoded → List (OpVal × Score)
  | .intset is => is.map fun v => (.ell v, .fin 1)
  | .hashtable ms => ms.map fun s => (.str s, .fin 1)
  | .listpack es => es.reverse
  | .skiplist es => es.reverse.map fun e => (.str e.1, e.2)

def zuiFind : Encoded → OpVal → Option Score
  | .intset is, v => (zuiLongLongFromValue v).bind fun ell =>
      if ell ∈ is.map Subtype.val then some (.fin 1) else none
  | .hashtable ms, v => if zuiSdsFromValue v ∈ ms then some (.fin 1) else none
  | .listpack es, v =>
      (es.find? fun e => zuiSdsFromValue e.1 = zuiSdsFromValue v).map Prod.snd
  | .skiplist es, v => (es.find? fun e => e.1 = zuiSdsFromValue v).map Prod.snd

def Encoded.members (c : Encoded) : List (Bytes × Score) :=
  c.elements.map fun e => (zuiSdsFromValue e.1, e.2)

/-- A set or sorted set: no member twice, and no score that is no number. -/
structure Collection where
  val : Encoded
  nodup : (val.members.map Prod.fst).Nodup
  numbers : ∀ e ∈ val.members, e.2 ≠ .nan

lemma zuiLongLong_eq (v : OpVal) : zuiLongLongFromValue v = string2ll (zuiSdsFromValue v) := by
  cases v with
  | ell v => exact (string2ll_signedDecimal v.2.1 v.2.2).symm
  | str s => rfl

lemma find?_key_eq_some {α β : Type} [DecidableEq β] {l : List (α × Score)} {key : α → β}
    (h : (l.map fun e => key e.1).Nodup) {m : β} {s : Score} :
    (l.find? fun e => key e.1 = m).map Prod.snd = some s ↔ ∃ x, (x, s) ∈ l ∧ key x = m := by
  induction l with
  | nil => simp
  | cons e l ih =>
    obtain ⟨hnot, hrest⟩ := nodup_cons.mp h
    by_cases he : key e.1 = m
    · rw [find?_cons_of_pos (by simpa using he), Option.map_some, Option.some.injEq]
      refine ⟨fun hs => ⟨e.1, by simp [← hs], he⟩, ?_⟩
      rintro ⟨x, hx, hkey⟩
      rcases mem_cons.mp hx with rfl | hx
      · rfl
      · exact absurd (mem_map.mpr ⟨(x, s), hx, hkey.trans he.symm⟩) hnot
    · grind

/-- `zuiFind` finds a value exactly when its text is a member, with the member's score. -/
lemma zuiFind_eq_some (c : Collection) (v : OpVal) (s : Score) :
    zuiFind c.val v = some s ↔ (zuiSdsFromValue v, s) ∈ c.val.members := by
  obtain ⟨c, hnodup, _⟩ := c
  cases c with
  | intset is =>
    simp only [zuiFind, zuiLongLong_eq, Option.bind_eq_some_iff, Option.ite_none_right_eq_some,
      Encoded.members, Encoded.elements, map_map, mem_map, Function.comp_apply,
      Prod.mk.injEq, Option.some.injEq]
    constructor
    · rintro ⟨ell, hell, ⟨v', hv', rfl⟩, rfl⟩
      exact ⟨v', hv', (string2ll_eq_some hell).2.2, rfl⟩
    rintro ⟨v', hv', htext, rfl⟩
    exact ⟨v', htext ▸ string2ll_signedDecimal v'.2.1 v'.2.2, ⟨v', hv', rfl⟩, rfl⟩
  | hashtable ms => grind [zuiFind, Encoded.members, Encoded.elements, zuiSdsFromValue]
  | listpack es =>
    have hkeys : (es.map fun e => zuiSdsFromValue e.1).Nodup := by
      simpa [Encoded.members, Encoded.elements, Function.comp_def] using hnodup
    rw [zuiFind, find?_key_eq_some hkeys]
    simp [Encoded.members, Encoded.elements]
  | skiplist es =>
    have hkeys : (es.map fun e => id e.1).Nodup := by
      simpa [Encoded.members, Encoded.elements, Function.comp_def, zuiSdsFromValue] using hnodup
    refine (find?_key_eq_some hkeys).trans ?_
    simp [Encoded.members, Encoded.elements, zuiSdsFromValue]

/-! ## The keys of a command -/

variable {κ : Type} (db : κ → Option Collection)

/-- The elements of the object at a key, none for a missing one. -/
def elementsAt (k : κ) : List (OpVal × Score) := ((db k).map fun c => c.val.elements).getD []

def zuiFindAt (k : κ) (v : OpVal) : Option Score := (db k).bind fun c => zuiFind c.val v

def membersAt (k : κ) : List (Bytes × Score) := ((db k).map fun c => c.val.members).getD []

/-- `src.subject`: each key has an object of its own. -/
def subject (k : κ) : Option κ := (db k).map fun _ => k

variable {db}

lemma zuiFindAt_eq_some {k : κ} {v : OpVal} {s : Score} :
    zuiFindAt db k v = some s ↔ (zuiSdsFromValue v, s) ∈ membersAt db k := by
  unfold zuiFindAt membersAt
  cases db k with
  | none => simp
  | some c => exact zuiFind_eq_some c v s

lemma membersAt_eq (k : κ) :
    membersAt db k = (elementsAt db k).map fun e => (zuiSdsFromValue e.1, e.2) := by
  unfold membersAt elementsAt
  cases db k <;> rfl

lemma membersAt_nodup (k : κ) : ((membersAt db k).map Prod.fst).Nodup := by
  unfold membersAt
  cases h : db k with
  | none => exact nodup_nil
  | some c => exact c.nodup

lemma membersAt_numbers (k : κ) : ∀ e ∈ membersAt db k, e.2 ≠ .nan := by
  unfold membersAt
  cases h : db k with
  | none => simp
  | some c => exact c.numbers

end Redis.SortedSets.Sources
