import Redis.IntegerSet.Refinement

/-! # Sizes of large sets of integers

The set code allows 2^30 entries, whose bytes a `uint32_t` does not count. -/
namespace Redis.IntegerSet.Sizes
open List Lib Model Search Refinement

/-- The bound of `setTypeAdd`: an intset with more entries becomes a hash table. -/
def maxEntries (setMaxIntsetEntries : Nat) : Nat :=
  if setMaxIntsetEntries ≥ 2 ^ 30 then 2 ^ 30 else setMaxIntsetEntries

/-- A set that stays an intset, with its entries in memory. -/
structure Allowed (setMaxIntsetEntries : Nat) (is : Intset) : Prop where
  length : is.length ≤ maxEntries setMaxIntsetEntries
  contents : is.length * is.encoding.width ≤ is.contents.length

/-- The number of bytes that `intsetMoveTail` moves. -/
def tailBytes (is : Intset) (src : Nat) : Nat :=
  uint32 (is.length - src) * is.encoding.width % 2 ^ 32

/-- `intsetMoveTail` without the limits of its types. -/
def moveWholeTail (is : Intset) (src dst : Nat) : Outcome Intset := do
  let w := is.encoding.width
  let contents ← memmove is.contents (dst * w) (src * w) ((is.length - src) * w)
  .ok { is with contents := contents }

variable {conf : Nat} {is : Intset}

lemma Allowed.le (h : Allowed conf is) : is.length ≤ 2 ^ 30 := by
  have hlen := h.length
  unfold maxEntries at hlen
  split at hlen <;> omega

lemma tailBytes_small (hconf : conf < 2 ^ 29) (h : Allowed conf is) {src : Nat}
    (hsrc : src ≤ is.length) : tailBytes is src = (is.length - src) * is.encoding.width := by
  have hlen := h.length
  have hcast : (is.length : Int) - src = (is.length - src : Nat) := by omega
  have hwidth := Nat.mul_le_mul_left (is.length - src) (width_le is.encoding)
  rw [maxEntries, if_neg (by omega)] at hlen
  rw [tailBytes, hcast, uint32_natCast (by omega), Nat.mod_eq_of_lt (by omega)]

/-- 2^29 entries of 8 bytes. -/
def large (contents : Bytes) : Intset := ⟨.int64, 536870912, contents⟩

lemma memmove_entry_ne {buf : Bytes} {n : Nat} (hlen : buf.length = 8 + n) (hn : 0 < n)
    (hne : buf[8]? ≠ buf[0]?) : memmove buf 8 0 n ≠ .ok buf := by
  have hmove : memmove buf 8 0 n = .ok (buf.take 8 ++ buf.take n ++ buf.drop (8 + n)) := by
    simp [memmove, memcpy, hlen]
  rw [hmove, Ne, Except.ok.injEq]
  intro heq
  refine hne ?_
  conv_lhs => rw [← heq]
  rw [append_assoc, getElem?_append_right (by simp), getElem?_append_left (by simp; omega)]
  simp [hlen, hn]

section
variable {contents : Bytes} (hlen : contents.length = 8 + 4294967296)
include hlen

lemma large_allowed (h : ¬ conf < 2 ^ 29) : Allowed conf (large contents) where
  length := by
    change 536870912 ≤ maxEntries conf
    unfold maxEntries
    split <;> omega
  contents := by
    change 536870912 * 8 ≤ contents.length
    omega

/-- None of the entries is moved, and with a byte in the second entry that the first one does
not have, that is not what was intended. -/
lemma moveTail_large : tailBytes (large contents) 0 = 0 ∧
    intsetMoveTail (large contents) 0 1 = .ok (large contents) ∧
    (contents[8]? ≠ contents[0]? →
      moveWholeTail (large contents) 0 1 ≠ .ok (large contents)) := by
  have hnone : memmove contents 8 0 0 = .ok contents := by simp [memmove, memcpy, hlen]
  have hwhole : moveWholeTail (large contents) 0 1 =
      (memmove contents 8 0 4294967296 >>= fun contents => .ok (large contents)) := by
    have hunfold : moveWholeTail (large contents) 0 1 = (memmove contents (1 * 8) (0 * 8)
      ((536870912 - 0) * 8) >>= fun contents => .ok (large contents)) := rfl
    rw [hunfold, one_mul, zero_mul, Nat.sub_zero]
  refine ⟨by simp [tailBytes, large, uint32, Encoding.width],
    by simp [intsetMoveTail, large, uint32, Encoding.width, hnone], fun hne h => ?_⟩
  rw [hwhole] at h
  obtain ⟨moved, hmove, heq⟩ := Outcome.bind_eq_ok.mp h
  have hsame : moved = contents := congrArg Intset.contents (Except.ok.inj heq)
  exact memmove_entry_ne hlen (by decide) hne (hsame ▸ hmove)

end

/-- Of 2^29 entries of 8 bytes with room for one more, none is moved. -/
theorem moveTail_moves_nothing : 536870912 ≤ maxEntries 1073741824 ∧
    ∀ contents : Bytes, contents.length = 8 + 4294967296 → contents[8]? ≠ contents[0]? →
      tailBytes (large contents) 0 = 0 ∧
      intsetMoveTail (large contents) 0 1 = .ok (large contents) ∧
      moveWholeTail (large contents) 0 1 ≠ .ok (large contents) :=
  ⟨by simp [maxEntries], fun _ hlen hne => ⟨(moveTail_large hlen).1, (moveTail_large hlen).2.1,
    (moveTail_large hlen).2.2 hne⟩⟩

lemma exists_contents {n : Nat} (hn : 0 < n) :
    ∃ contents : Bytes, contents.length = 8 + n ∧ contents[8]? ≠ contents[0]? :=
  ⟨replicate 8 0 ++ replicate n 1, by rw [length_append, length_replicate, length_replicate],
    by simp [replicate_succ, hn]⟩

/-- The bytes are counted and the entries moved exactly, for every set of a configuration, if
and only if it allows fewer than 2^29 entries. A resize is always exact. -/
theorem moveTail_whole_iff (conf : Nat) :
    ((∀ is src, Allowed conf is → src ≤ is.length →
        tailBytes is src = (is.length - src) * is.encoding.width) ↔ conf < 2 ^ 29) ∧
    ((∀ is src dst, Allowed conf is → src ≤ is.length →
        intsetMoveTail is src dst = moveWholeTail is src dst) ↔ conf < 2 ^ 29) ∧
    ∀ is, Allowed conf is →
      (is.length + 1) % 2 ^ 32 * is.encoding.width = (is.length + 1) * is.encoding.width ∧
      (is.length + 1) * is.encoding.width < 2 ^ 64 := by
  obtain ⟨contents, hlen, hne⟩ := @exists_contents 4294967296 (by decide)
  refine ⟨⟨fun h => ?_, fun hconf is src his => tailBytes_small hconf his⟩, ⟨fun h => ?_, ?_⟩, ?_⟩
  · by_contra hconf
    have hcount := h (large contents) 0 (large_allowed hlen hconf) (Nat.zero_le _)
    rw [(moveTail_large hlen).1] at hcount
    change 0 = (536870912 - 0) * 8 at hcount
    omega
  · by_contra hconf
    have hmove := h (large contents) 0 1 (large_allowed hlen hconf) (Nat.zero_le _)
    exact (moveTail_large hlen).2.2 hne (hmove ▸ (moveTail_large hlen).2.1)
  · intro hconf is src dst his hsrc
    unfold intsetMoveTail moveWholeTail
    dsimp only
    rw [← tailBytes_small hconf his hsrc]
    rfl
  · intro is his
    have hle := his.le
    have hwidth := Nat.mul_le_mul_left (is.length + 1) (width_le is.encoding)
    exact ⟨by rw [Nat.mod_eq_of_lt (by omega)], by omega⟩

end Redis.IntegerSet.Sizes
