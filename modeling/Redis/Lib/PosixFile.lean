import Redis.Lib.Bytes
import Mathlib.Data.List.Basic

/-! # A file behind a descriptor

The descriptor has its own offset, which a truncation of the file leaves where it
is. A write behind the end of the file fills the gap with zero bytes; with
`O_APPEND` every write goes to the end. -/
namespace Redis.Lib
open List

@[ext] structure PosixFile where
  content : Bytes
  offset : Nat
  append : Bool
  deriving DecidableEq, Repr

namespace PosixFile

/-- `open` with `O_TRUNC`. -/
def created : PosixFile := ⟨[], 0, false⟩

/-- `open` of an existing file with `O_APPEND`. -/
def openedForAppend (content : Bytes) : PosixFile := ⟨content, 0, true⟩

/-- Where the next byte goes. -/
def position (f : PosixFile) : Nat := if f.append then f.content.length else f.offset

/-- A `write` that takes all of `data`. Without data nothing happens. -/
def write (f : PosixFile) (data : Bytes) : PosixFile :=
  if data = [] then f
  else { f with
    content := f.content.take f.position ++ List.replicate (f.position - f.content.length) 0 ++
      data ++ f.content.drop (f.position + data.length)
    offset := f.position + data.length }

def ftruncate (f : PosixFile) (size : Nat) : PosixFile :=
  { f with content := f.content.take size ++ List.replicate (size - f.content.length) 0 }

/-- The zero bytes a write leaves in front of its data. -/
def gap (f : PosixFile) : Bytes := List.replicate (f.position - f.content.length) 0

/-- The next byte goes to the end of the file or behind it. -/
def PastEnd (f : PosixFile) : Prop := f.content.length ≤ f.position

@[simp] lemma write_nil (f : PosixFile) : f.write [] = f := if_pos rfl

lemma write_append_flag (f : PosixFile) (data : Bytes) : (f.write data).append = f.append := by
  rw [write]
  split <;> rfl

variable {data : Bytes} {f : PosixFile}

lemma offset_write (f : PosixFile) (hne : data ≠ []) :
    (f.write data).offset = f.position + data.length := by
  rw [write, if_neg hne]

section
variable (h : f.PastEnd)
include h

lemma content_write (hne : data ≠ []) :
    (f.write data).content = f.content ++ f.gap ++ data := by
  have hdrop : f.content.drop (f.position + data.length) = [] :=
    drop_of_length_le (h.trans (Nat.le_add_right _ _))
  rw [write, if_neg hne]
  simp only [gap]
  rw [hdrop, append_nil, take_of_length_le h]

lemma position_write (hne : data ≠ []) :
    (f.write data).position = (f.write data).content.length := by
  have hlen : (f.write data).content.length = f.position + data.length := by
    have hle : f.content.length ≤ f.position := h
    rw [content_write h hne, length_append, length_append, gap, length_replicate]
    omega
  rw [position, hlen]
  split
  · rfl
  · rw [offset_write f hne]

lemma pastEnd_write (data : Bytes) : (f.write data).PastEnd := by
  by_cases hne : data = []
  · rwa [hne]
  · exact Nat.le_of_eq (position_write h hne).symm

lemma write_write (a b : Bytes) : (f.write a).write b = f.write (a ++ b) := by
  by_cases ha : a = []
  · rw [ha, write_nil, nil_append]
  by_cases hb : b = []
  · rw [hb, write_nil, append_nil]
  have hab : a ++ b ≠ [] := fun he => ha (append_eq_nil_iff.mp he).1
  have hend := position_write h ha
  have hgap : (f.write a).gap = [] := by rw [gap, hend, Nat.sub_self, replicate_zero]
  have hcontent : ((f.write a).write b).content = (f.write (a ++ b)).content := by
    rw [content_write (pastEnd_write h a) hb, content_write h ha, content_write h hab, hgap]
    simp only [append_assoc, nil_append]
  have hflag : ((f.write a).write b).append = (f.write (a ++ b)).append := by
    simp only [write_append_flag]
  have hoffset : ((f.write a).write b).offset = (f.write (a ++ b)).offset := by
    have hpos : (f.write a).position = f.position + a.length := by
      have hle : f.content.length ≤ f.position := h
      rw [hend, content_write h ha, length_append, length_append, gap, length_replicate]
      omega
    rw [offset_write _ hb, offset_write _ hab, hpos, length_append, add_assoc]
  exact PosixFile.ext hcontent hoffset hflag

lemma content_ftruncate_write (data : Bytes) :
    ((f.write data).ftruncate f.content.length).content = f.content := by
  by_cases hne : data = []
  · rw [hne, ftruncate]
    simp
  rw [ftruncate]
  simp only [content_write h hne, append_assoc, take_left', length_append]
  rw [show f.content.length - (f.content.length + (f.gap.length + data.length)) = 0 by omega,
    replicate_zero, append_nil]

lemma pastEnd_ftruncate_write (data : Bytes) :
    ((f.write data).ftruncate f.content.length).PastEnd := by
  rw [PastEnd, position, content_ftruncate_write h]
  have hle : f.content.length ≤ f.position := h
  by_cases hne : data = []
  · rw [hne]
    exact hle
  simp only [ftruncate, offset_write f hne]
  split
  · exact le_rfl
  · omega

lemma gap_eq_nil_iff :
    f.gap = [] ↔ f.append = true ∨ f.offset = f.content.length := by
  have hle : f.content.length ≤ f.position := h
  rw [gap, replicate_eq_nil_iff, position] at *
  split
  · rename_i happ
    simp [happ]
  rename_i happ
  rw [if_neg happ] at hle
  simp only [happ, Bool.false_eq_true, false_or]
  omega

end

end PosixFile

end Redis.Lib
