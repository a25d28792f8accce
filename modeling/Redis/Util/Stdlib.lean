import Redis.Sds.SplitArgs
import Redis.Util.Numbers
import Mathlib.Data.List.TakeWhile

/-! # C library functions of the file readers -/
namespace Redis.Util.Stdlib
open List Lib Lib.Decimal Sds.SplitArgs Numbers

def text (cs : List Char) : Bytes := cs.map fun c => c.toNat.toUInt8

/-- The C string a buffer holds: its bytes up to the terminator. -/
def cstr (s : Bytes) : Bytes := s.takeWhile (· ≠ 0)

def tolower (c : UInt8) : UInt8 := if 65 ≤ c ∧ c ≤ 90 then c + 32 else c

/-- `!strcasecmp(a,b)`. -/
def strcaseeq (a b : Bytes) : Bool := (cstr a).map tolower = (cstr b).map tolower

def newline : UInt8 := 10

/-- The bytes up to and with the first newline, or all of them. -/
def lineLength (stream : Bytes) : Nat :=
  min ((stream.takeWhile (· ≠ newline)).length + 1) stream.length

/-- `fgets` with a buffer of `size` bytes: what it reads and what is left, or
nothing at the end of the file. -/
def fgets (size : Nat) (stream : Bytes) : Option (Bytes × Bytes) :=
  if stream = [] then none
  else
    let n := min (lineLength stream) (size - 1)
    some (stream.take n, stream.drop n)

/-- The digits at the front of a text, as a number. -/
def leadingDigits (s : Bytes) : Nat := value 0 (s.takeWhile fun c => decide (IsDigit c))

def signedDigits : Bytes → Int
  | 45 :: rest => -(leadingDigits rest : Int)
  | 43 :: rest => leadingDigits rest
  | rest => leadingDigits rest

/-- `atoll` and `strtoll` with base 10, which stop at the limits of the type. -/
def atoll (s : Bytes) : Int := max llongMin (min llongMax (signedDigits (s.dropWhile isspace)))

variable {s line tail : Bytes}

lemma cstr_of_not_mem (h : 0 ∉ s) : cstr s = s :=
  takeWhile_eq_self_iff.mpr fun _ hc => decide_eq_true (ne_of_mem_of_not_mem hc h)

lemma lineLength_eq (hline : newline ∉ line) (rest : Bytes) :
    lineLength (line ++ newline :: rest) = line.length + 1 := by
  have htake : (line ++ newline :: rest).takeWhile (· ≠ newline) = line := by
    rw [takeWhile_append_of_pos (fun c hc => decide_eq_true (ne_of_mem_of_not_mem hc hline)),
      takeWhile_cons_of_neg (by decide), append_nil]
  rw [lineLength, htake, length_append, length_cons]
  omega

lemma fgets_line {rest : Bytes} {size : Nat} (hline : newline ∉ line)
    (hsize : line.length + 1 < size) :
    fgets size (line ++ newline :: rest) = some (line ++ [newline], rest) := by
  have hsplit : line ++ newline :: rest = (line ++ [newline]) ++ rest := by simp
  have hlen : line.length + 1 = (line ++ [newline]).length := by simp
  rw [fgets, if_neg (by simp)]
  dsimp only
  rw [lineLength_eq hline, Nat.min_eq_left (by omega), hsplit, hlen, take_left, drop_left]

/-- A line that does not fit is cut before its newline. -/
lemma fgets_cut {rest : Bytes} {size : Nat} (hline : newline ∉ line)
    (hsize : size ≤ line.length + 1) :
    fgets size (line ++ newline :: rest) =
      some (line.take (size - 1), line.drop (size - 1) ++ newline :: rest) := by
  rw [fgets, if_neg (by simp)]
  dsimp only
  rw [lineLength_eq hline, Nat.min_eq_right (by omega),
    take_append_of_le_length (by omega), drop_append_of_le_length (by omega)]

lemma takeWhile_digits (hs : ∀ c ∈ s, IsDigit c) (ht : ∀ c ∈ tail.head?, ¬IsDigit c) :
    (s ++ tail).takeWhile (fun c => decide (IsDigit c)) = s := by
  rw [takeWhile_append_of_pos (fun c hc => decide_eq_true (hs c hc))]
  cases tail with
  | nil => rw [takeWhile_nil, append_nil]
  | cons c tail =>
    rw [takeWhile_cons_of_neg (by simpa using ht c rfl), append_nil]

lemma not_isspace_of_isDigit {c : UInt8} (h : IsDigit c) : isspace c = false := by
  have h13 : ¬c ≤ 13 := by
    exact Nat.not_le_of_lt (Nat.lt_of_lt_of_le (by decide) h.1)
  have h32 : (c == 32) = false := by
    rw [beq_eq_false_iff_ne]
    rintro rfl
    exact absurd h (by decide)
  rw [isspace, h32, Bool.false_or, decide_eq_false h13, Bool.and_false]

lemma signedDigits_cons {c : UInt8} (h : IsDigit c) (rest : Bytes) :
    signedDigits (c :: rest) = leadingDigits (c :: rest) := by
  unfold signedDigits
  split
  · rename_i heq
    cases heq
    exact absurd h (by decide)
  · rename_i heq
    cases heq
    exact absurd h (by decide)
  · rfl

lemma atoll_digits (hs : ∀ c ∈ s, IsDigit c) (hne : s ≠ [])
    (h : (value 0 s : Int) ≤ llongMax) (ht : ∀ c ∈ tail.head?, ¬IsDigit c) :
    atoll (s ++ tail) = value 0 s := by
  have hdigits : leadingDigits (s ++ tail) = value 0 s := by
    rw [leadingDigits, takeWhile_digits hs ht]
  obtain ⟨c, rest, rfl⟩ := exists_cons_of_ne_nil hne
  have hc : IsDigit c := hs c mem_cons_self
  rw [cons_append] at hdigits ⊢
  rw [atoll, dropWhile_cons_of_neg (by simp [not_isspace_of_isDigit hc]),
    signedDigits_cons hc]
  have hmin : llongMin ≤ 0 := by decide
  omega

lemma atoll_decimal {n : Nat} (h : (n : Int) ≤ llongMax)
    (ht : ∀ c ∈ tail.head?, ¬IsDigit c) : atoll (decimal n ++ tail) = n := by
  rw [atoll_digits (fun c hc => isDigit_of_mem_decimal hc) (decimal_ne_nil n)
    (by rwa [value_decimal]) ht, value_decimal]

lemma atoll_nonneg (h : 45 ∉ s) : 0 ≤ atoll s := by
  have hsigned : 0 ≤ signedDigits (s.dropWhile isspace) := by
    unfold signedDigits
    split
    · rename_i rest heq
      refine absurd ((dropWhile_sublist isspace).mem ?_) h
      rw [heq]
      exact mem_cons_self
    · exact Int.natCast_nonneg _
    · exact Int.natCast_nonneg _
  have hmax : 0 ≤ llongMax := by decide
  rw [atoll]
  omega

end Redis.Util.Stdlib
