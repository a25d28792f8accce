import Redis.Lib.Bytes

/-! # Buffers with a capacity

An allocation of `size` bytes whose first bytes are in use. Copies that do not fit
are `bounds` faults, so a buffer never holds more than it has room for. -/
namespace Redis.Lib

structure Buffer where
  size : Nat
  bytes : Bytes
  fits : bytes.length ≤ size
deriving DecidableEq, Repr

namespace Buffer

def used (b : Buffer) : Nat := b.bytes.length

def available (b : Buffer) : Nat := b.size - b.used

/-- `memcpy(b->buf + b->used, s, len)`. -/
def append (b : Buffer) (s : Bytes) : Outcome Buffer :=
  if h : (b.bytes ++ s).length ≤ b.size then .ok ⟨b.size, b.bytes ++ s, h⟩ else .error .bounds

/-- `memmove(b->buf + len, b->buf, b->used)`, then `s` in front. -/
def prepend (b : Buffer) (s : Bytes) : Outcome Buffer :=
  if h : (s ++ b.bytes).length ≤ b.size then .ok ⟨b.size, s ++ b.bytes, h⟩ else .error .bounds

/-- A fresh block of `size` bytes that holds `s`. -/
def create (size : Nat) (s : Bytes) : Outcome Buffer :=
  if h : s.length ≤ size then .ok ⟨size, s, h⟩ else .error .bounds

def reset (b : Buffer) : Buffer := ⟨b.size, [], Nat.zero_le _⟩

variable {s : Bytes}

lemma append_ok {b : Buffer} (h : s.length ≤ b.available) :
    ∃ b', b.append s = .ok b' ∧ b'.size = b.size ∧ b'.bytes = b.bytes ++ s := by
  have hfit := b.fits
  unfold available used at h
  have hroom : (b.bytes ++ s).length ≤ b.size := by
    rw [List.length_append]
    omega
  exact ⟨⟨b.size, b.bytes ++ s, hroom⟩, dif_pos hroom, rfl, rfl⟩

lemma prepend_ok {b : Buffer} (h : s.length ≤ b.available) :
    ∃ b', b.prepend s = .ok b' ∧ b'.size = b.size ∧ b'.bytes = s ++ b.bytes := by
  have hfit := b.fits
  unfold available used at h
  have hroom : (s ++ b.bytes).length ≤ b.size := by
    rw [List.length_append]
    omega
  exact ⟨⟨b.size, s ++ b.bytes, hroom⟩, dif_pos hroom, rfl, rfl⟩

lemma create_ok {size : Nat} (h : s.length ≤ size) : create size s = .ok ⟨size, s, h⟩ := dif_pos h

end Buffer
end Redis.Lib
