import Redis.Lib.Bytes

/-! # Sets of integers in one array

An intset is a header and an array of integers of one width, in increasing order. The width is
that of the widest element ever added: a wider value has the array rewritten in place, from its
end, and goes in front of or behind all the others. -/
namespace Redis.IntegerSet.Model
open Lib

inductive Encoding where
  | int16
  | int32
  | int64
  deriving DecidableEq, Repr

/-- `INTSET_ENC_INT16`, `INTSET_ENC_INT32` and `INTSET_ENC_INT64` are the sizes. -/
def Encoding.width : Encoding → Nat
  | .int16 => 2
  | .int32 => 4
  | .int64 => 8

/-- The fields are little-endian on every machine. -/
structure Intset where
  encoding : Encoding
  length : Nat
  contents : Bytes
  deriving DecidableEq, Repr

/-- A value stored in `w` bytes, as the conversion to a narrower type cuts it. -/
def encode (w : Nat) (v : Int) : Bytes := le w (v % (256 ^ w : Nat)).toNat

/-- The signed number that `w` bytes stand for. -/
def decode (w n : Nat) : Int :=
  if 2 * n < 256 ^ w then n else n - (256 ^ w : Nat)

def uint32 (v : Int) : Nat := (v % (2 ^ 32 : Nat)).toNat

def intsetValueEncoding (v : Int) : Encoding :=
  if v < -2 ^ 31 ∨ v > 2 ^ 31 - 1 then .int64
  else if v < -2 ^ 15 ∨ v > 2 ^ 15 - 1 then .int32
  else .int16

def intsetGetEncoded (is : Intset) (pos : Int) (enc : Encoding) : Outcome Int :=
  if pos < 0 then .error .bounds
  else do
    let n ← loadLe is.contents (pos.toNat * enc.width) enc.width
    .ok (decode enc.width n)

def intsetGetAt (is : Intset) (pos : Int) : Outcome Int := intsetGetEncoded is pos is.encoding

def intsetSet (is : Intset) (pos : Int) (value : Int) : Outcome Intset :=
  if pos < 0 then .error .bounds
  else do
    let contents ← memcpy is.contents (pos.toNat * is.encoding.width)
      (encode is.encoding.width value)
    .ok { is with contents := contents }

def intsetNew : Intset := ⟨.int16, 0, []⟩

def intsetResize (is : Intset) (len : Nat) : Intset :=
  { is with contents := resize is.contents (len * is.encoding.width) }

/-! ## Searching -/

/-- The `while(max >= min)` loop, with `mid` and `cur` of its last turn. -/
def searchLoop (is : Intset) (value : Int) :
    Nat → (min max mid cur : Int) → Outcome (Int × Int × Int)
  | 0, min, max, mid, cur => if max ≥ min then .error .loop else .ok (min, mid, cur)
  | fuel + 1, min, max, mid, cur =>
    if max ≥ min then do
      let mid : Int := ((uint32 min + uint32 max) % 2 ^ 32 / 2 : Nat)
      let cur ← intsetGetAt is mid
      if value > cur then searchLoop is value fuel (mid + 1) max mid cur
      else if value < cur then searchLoop is value fuel min (mid - 1) mid cur
      else .ok (min, mid, cur)
    else .ok (min, mid, cur)

/-- Whether the value is there, and its position or the one it would go to. -/
def intsetSearch (is : Intset) (value : Int) : Outcome (Bool × Nat) :=
  if is.length = 0 then .ok (false, 0)
  else do
    let max : Int := is.length - 1
    let last ← intsetGetAt is max
    if value > last then .ok (false, is.length)
    else do
      let first ← intsetGetAt is 0
      if value < first then .ok (false, 0)
      else do
        let (min, mid, cur) ← searchLoop is value (is.length + 1) 0 max (-1) (-1)
        if value = cur then .ok (true, uint32 mid) else .ok (false, uint32 min)

def intsetFind (is : Intset) (value : Int) : Outcome Bool :=
  if (intsetValueEncoding value).width ≤ is.encoding.width then do
    let (found, _) ← intsetSearch is value
    .ok found
  else .ok false

/-- The value at a position, if it is in range. -/
def intsetGet (is : Intset) (pos : Nat) : Outcome (Option Int) :=
  if pos < is.length then do
    let v ← intsetGetAt is pos
    .ok (some v)
  else .ok none

def intsetLen (is : Intset) : Nat := is.length

/-! ## Adding and removing -/

/-- The `while(length--)` loop: each element is read in the old encoding and written in the
new one. -/
def upgradeLoop (curenc : Encoding) (prepend : Nat) : Nat → Intset → Outcome Intset
  | 0, is => .ok is
  | length + 1, is => do
    let v ← intsetGetEncoded is length curenc
    let is ← intsetSet is (length + prepend : Nat) v
    upgradeLoop curenc prepend length is

def intsetUpgradeAndAdd (is : Intset) (value : Int) : Outcome Intset := do
  let curenc := is.encoding
  let prepend := if value < 0 then 1 else 0
  let is := intsetResize { is with encoding := intsetValueEncoding value }
    ((is.length + 1) % 2 ^ 32)
  let is ← upgradeLoop curenc prepend is.length is
  let is ← intsetSet is (if prepend = 1 then 0 else is.length) value
  .ok { is with length := (is.length + 1) % 2 ^ 32 }

/-- The number of bytes is a `uint32_t`. -/
def intsetMoveTail (is : Intset) (src dst : Nat) : Outcome Intset := do
  let w := is.encoding.width
  let bytes := uint32 (is.length - src) * w % 2 ^ 32
  let contents ← memmove is.contents (dst * w) (src * w) bytes
  .ok { is with contents := contents }

/-- The intset with the value, and whether it is new. -/
def intsetAdd (is : Intset) (value : Int) : Outcome (Intset × Bool) :=
  if (intsetValueEncoding value).width > is.encoding.width then do
    let is ← intsetUpgradeAndAdd is value
    .ok (is, true)
  else do
    let (found, pos) ← intsetSearch is value
    if found then .ok (is, false)
    else do
      let is := intsetResize is ((is.length + 1) % 2 ^ 32)
      let is ← if pos < is.length then intsetMoveTail is pos (pos + 1) else .ok is
      let is ← intsetSet is pos value
      .ok ({ is with length := (is.length + 1) % 2 ^ 32 }, true)

/-- The intset without the value, and whether it was there. -/
def intsetRemove (is : Intset) (value : Int) : Outcome (Intset × Bool) :=
  if (intsetValueEncoding value).width ≤ is.encoding.width then do
    let (found, pos) ← intsetSearch is value
    if found then do
      let len := is.length
      let is ← if pos < len - 1 then intsetMoveTail is (pos + 1) pos else .ok is
      let is := intsetResize is (len - 1)
      .ok ({ is with length := len - 1 }, true)
    else .ok (is, false)
  else .ok (is, false)

end Redis.IntegerSet.Model
