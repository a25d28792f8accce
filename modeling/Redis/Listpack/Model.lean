import Redis.Util.Numbers

/-! # Listpacks: listpack.c

A listpack is one buffer: six header bytes (total bytes, number of elements), the entries, and
an end marker. An entry is the encoded element followed by the length of that encoding, to be
read backwards. Pointers are offsets, and every load is checked against the end of the buffer,
which is the part of the allocation the header counts. -/
namespace Redis.Listpack.Model
open Lib Util.Numbers

def lpHdrSize : Nat := 6
def lpHdrNumeleUnknown : Nat := 65535
def lpEOF : UInt8 := 0xFF
def lpIntbufSize : Nat := 21
def uint32Max : Nat := 2 ^ 32 - 1
def uint16Max : Nat := 65535

/-! ## Header -/

def lpGetTotalBytes (lp : Bytes) : Outcome Nat := loadLe lp 0 4

def lpGetNumElements (lp : Bytes) : Outcome Nat := loadLe lp 4 2

def lpSetTotalBytes (lp : Bytes) (v : Nat) : Outcome Bytes := memcpy lp 0 (le 4 v)

def lpSetNumElements (lp : Bytes) (v : Nat) : Outcome Bytes := memcpy lp 4 (le 2 v)

def lpBytes (lp : Bytes) : Outcome Nat := lpGetTotalBytes lp

def lpNew : Bytes := le 4 (lpHdrSize + 1) ++ le 2 0 ++ [lpEOF]

/-! ## Entries -/

/-- The encodings told apart by the first byte. -/
inductive Encoding where
  | uint7
  | str6
  | int13
  | int16
  | int24
  | int32
  | int64
  | str12
  | str32
  | eof
  | invalid
deriving DecidableEq, Repr

/-- The `LP_ENCODING_IS_*` tests, in the order every user makes them. -/
def encodingOf (b : UInt8) : Encoding :=
  if b &&& 0x80 = 0 then .uint7
  else if b &&& 0xC0 = 0x80 then .str6
  else if b &&& 0xE0 = 0xC0 then .int13
  else if b = 0xF1 then .int16
  else if b = 0xF2 then .int24
  else if b = 0xF3 then .int32
  else if b = 0xF4 then .int64
  else if b &&& 0xF0 = 0xE0 then .str12
  else if b = 0xF0 then .str32
  else if b = lpEOF then .eof
  else .invalid

/-- The bytes `lpEncodeBacklen` stores; with a null buffer only their number is
used. -/
def lpEncodeBacklen (l : Nat) : Bytes :=
  if l ≤ 127 then [UInt8.ofNat l]
  else if l < 16383 then [UInt8.ofNat (l >>> 7), UInt8.ofNat (l &&& 127 ||| 128)]
  else if l < 2097151 then
    [UInt8.ofNat (l >>> 14), UInt8.ofNat ((l >>> 7) &&& 127 ||| 128),
      UInt8.ofNat (l &&& 127 ||| 128)]
  else if l < 268435455 then
    [UInt8.ofNat (l >>> 21), UInt8.ofNat ((l >>> 14) &&& 127 ||| 128),
      UInt8.ofNat ((l >>> 7) &&& 127 ||| 128), UInt8.ofNat (l &&& 127 ||| 128)]
  else
    [UInt8.ofNat (l >>> 28), UInt8.ofNat ((l >>> 21) &&& 127 ||| 128),
      UInt8.ofNat ((l >>> 14) &&& 127 ||| 128), UInt8.ofNat ((l >>> 7) &&& 127 ||| 128),
      UInt8.ofNat (l &&& 127 ||| 128)]

def backlenSize (l : Nat) : Nat := (lpEncodeBacklen l).length

/-- The loop of `lpDecodeBacklen`: `e` is one past the byte to read, and
`rounds` is what is left of the five bytes before `shift` passes 28. -/
def decodeBacklenLoop (lp : Bytes) : (rounds shift val e : Nat) → Outcome Nat
  | 0, _, _, _ => .ok uint64Max
  | rounds + 1, shift, val, e =>
    match e with
    | 0 => .error .bounds
    | p + 1 => do
      let b ← load lp p
      let val := val ||| ((b &&& 127).toNat <<< shift)
      if b &&& 128 = 0 then .ok val else decodeBacklenLoop lp rounds (shift + 7) val p

/-- `lpDecodeBacklen(e - 1)`. -/
def lpDecodeBacklen (lp : Bytes) (e : Nat) : Outcome Nat := decodeBacklenLoop lp 5 0 0 e

def lpCurrentEncodedSizeUnsafe (lp : Bytes) (p : Nat) : Outcome Nat := do
  let b ← load lp p
  match encodingOf b with
  | .uint7 => .ok 1
  | .str6 => .ok (1 + (b &&& 0x3F).toNat)
  | .int13 => .ok 2
  | .int16 => .ok 3
  | .int24 => .ok 4
  | .int32 => .ok 5
  | .int64 => .ok 9
  | .str12 => do
    let b1 ← load lp (p + 1)
    .ok (2 + ((b &&& 0xF).toNat <<< 8 ||| b1.toNat))
  | .str32 => do
    let len ← loadLe lp (p + 1) 4
    .ok ((5 + len) % 2 ^ 32)
  | .eof => .ok 1
  | .invalid => .ok 0

def lpCurrentEncodedSizeBytes (b : UInt8) : Nat :=
  match encodingOf b with
  | .str12 => 2
  | .str32 => 5
  | .invalid => 0
  | _ => 1

def lpSkip (lp : Bytes) (p : Nat) : Outcome Nat := do
  let entrylen ← lpCurrentEncodedSizeUnsafe lp p
  .ok (p + entrylen + backlenSize entrylen)

/-- `OUT_OF_RANGE` of `lpValidateNext`. -/
def OutOfRange (lpbytes p : Nat) : Prop := p < lpHdrSize ∨ lpbytes < p + 1

instance (lpbytes p : Nat) : Decidable (OutOfRange lpbytes p) := inferInstanceAs (Decidable (_ ∨ _))

/-- `lpValidateNext`: `none` is the return value 0; otherwise the new `*pp`. -/
def lpValidateNext (lp : Bytes) (lpbytes : Nat) : Option Nat → Outcome (Option (Option Nat))
  | none => .ok none
  | some p =>
    if OutOfRange lpbytes p then .ok none
    else do
      let b ← load lp p
      if b = lpEOF then .ok (some none)
      else
        let lenbytes := lpCurrentEncodedSizeBytes b
        if lenbytes = 0 then .ok none
        else if OutOfRange lpbytes (p + lenbytes) then .ok none
        else do
          let entrylen ← lpCurrentEncodedSizeUnsafe lp p
          let encodedBacklen := backlenSize entrylen
          let entrylen := entrylen + encodedBacklen
          if OutOfRange lpbytes (p + entrylen) then .ok none
          else do
            let prevlen ← lpDecodeBacklen lp (p + entrylen)
            if (prevlen + encodedBacklen) % 2 ^ 64 ≠ entrylen then .ok none
            else .ok (some (some (p + entrylen)))

def lpAssertValidEntry (lp : Bytes) (lpbytes p : Nat) : Outcome Unit := do
  let r ← lpValidateNext lp lpbytes (some p)
  check (r.isSome = true)

/-! ## Traversal -/

def lpNext (lp : Bytes) (p : Nat) : Outcome (Option Nat) := do
  let p ← lpSkip lp p
  let b ← load lp p
  if b = lpEOF then .ok none
  else do
    let bytes ← lpBytes lp
    lpAssertValidEntry lp bytes p
    .ok (some p)

/-- `lpPrev`. A target before the buffer fails the range test of
`lpAssertValidEntry`. -/
def lpPrev (lp : Bytes) (p : Nat) : Outcome (Option Nat) :=
  if p = lpHdrSize then .ok none
  else do
    let prevlen ← lpDecodeBacklen lp p
    let prevlen := (prevlen + backlenSize prevlen) % 2 ^ 64
    check (prevlen ≤ p)
    let bytes ← lpBytes lp
    lpAssertValidEntry lp bytes (p - prevlen)
    .ok (some (p - prevlen))

def lpFirst (lp : Bytes) : Outcome (Option Nat) := do
  let b ← load lp lpHdrSize
  if b = lpEOF then .ok none
  else do
    let bytes ← lpBytes lp
    lpAssertValidEntry lp bytes lpHdrSize
    .ok (some lpHdrSize)

def lpLast (lp : Bytes) : Outcome (Option Nat) := do
  let bytes ← lpGetTotalBytes lp
  lpPrev lp (bytes - 1)

/-- `while(p) count++`. -/
def lengthLoop (lp : Bytes) : (fuel count : Nat) → Option Nat → Outcome Nat
  | _, count, none => .ok count
  | 0, _, some _ => .error .loop
  | fuel + 1, count, some p => do
    let q ← lpNext lp p
    lengthLoop lp fuel (count + 1) q

/-- `lpLength`: the listpack, whose cached count may be refreshed, and the
number of elements. -/
def lpLength (lp : Bytes) : Outcome (Bytes × Nat) := do
  let numele ← lpGetNumElements lp
  if numele ≠ lpHdrNumeleUnknown then .ok (lp, numele)
  else do
    let p ← lpFirst lp
    let count ← lengthLoop lp lp.length 0 p
    if count < lpHdrNumeleUnknown then do
      let lp ← lpSetNumElements lp count
      .ok (lp, count)
    else .ok (lp, count)

/-- `while (index > 0 && ele)`. -/
def seekForward (lp : Bytes) : Nat → Option Nat → Outcome (Option Nat)
  | _, none => .ok none
  | 0, some p => .ok (some p)
  | n + 1, some p => do
    let q ← lpNext lp p
    seekForward lp n q

/-- `while (index < -1 && ele)`. -/
def seekBackward (lp : Bytes) : Nat → Option Nat → Outcome (Option Nat)
  | _, none => .ok none
  | 0, some p => .ok (some p)
  | n + 1, some p => do
    let q ← lpPrev lp p
    seekBackward lp n q

/-- The two scans at the end of `lpSeek`; a backward scan has a negative
index. -/
def seekScan (lp : Bytes) (forward : Bool) (index : Int) : Outcome (Option Nat) := do
  if forward then do
    let ele ← lpFirst lp
    seekForward lp index.toNat ele
  else do
    let ele ← lpLast lp
    seekBackward lp (-1 - index).toNat ele

def lpSeek (lp : Bytes) (index : Int) : Outcome (Option Nat) := do
  let numele ← lpGetNumElements lp
  if numele ≠ lpHdrNumeleUnknown then
    let index := if index < 0 then (numele : Int) + index else index
    if index < 0 then .ok none
    else if (numele : Int) ≤ index then .ok none
    else if (numele : Int) / 2 < index then seekScan lp false (index - numele)
    else seekScan lp true index
  else seekScan lp (decide (¬ index < 0)) index

/-- What `lpGet` returns without `intbuf`. -/
inductive LpValue where
  | str (off len : Nat)
  | int (val : Int)
deriving DecidableEq, Repr

/-- The conversion of `uval` at the end of `lpGetWithSize`. -/
def toSigned (uval negstart negmax : Nat) : Int :=
  if negstart ≤ uval then -((negmax - uval : Nat) : Int) - 1 else uval

def lpGet (lp : Bytes) (p : Nat) : Outcome LpValue := do
  let b ← load lp p
  match encodingOf b with
  | .uint7 => .ok (.int (toSigned (b &&& 0x7F).toNat uint64Max 0))
  | .str6 => .ok (.str (p + 1) (b &&& 0x3F).toNat)
  | .int13 => do
    let b1 ← load lp (p + 1)
    .ok (.int (toSigned ((b &&& 0x1F).toNat <<< 8 ||| b1.toNat) (2 ^ 12) 8191))
  | .int16 => do
    let uval ← loadLe lp (p + 1) 2
    .ok (.int (toSigned uval (2 ^ 15) (2 ^ 16 - 1)))
  | .int24 => do
    let uval ← loadLe lp (p + 1) 3
    .ok (.int (toSigned uval (2 ^ 23) (2 ^ 24 - 1)))
  | .int32 => do
    let uval ← loadLe lp (p + 1) 4
    .ok (.int (toSigned uval (2 ^ 31) (2 ^ 32 - 1)))
  | .int64 => do
    let uval ← loadLe lp (p + 1) 8
    .ok (.int (toSigned uval (2 ^ 63) (2 ^ 64 - 1)))
  | .str12 => do
    let b1 ← load lp (p + 1)
    .ok (.str (p + 2) ((b &&& 0xF).toNat <<< 8 ||| b1.toNat))
  | .str32 => do
    let len ← loadLe lp (p + 1) 4
    .ok (.str (p + 5) len)
  | .eof => .ok (.int (toSigned (12345678900000000 + b.toNat) uint64Max 0))
  | .invalid => .ok (.int (toSigned (12345678900000000 + b.toNat) uint64Max 0))

/-- `lpGet` with `intbuf`: the element as text. -/
def lpGetString (lp : Bytes) (p : Nat) : Outcome Bytes := do
  match ← lpGet lp p with
  | .str off len => loadSlice lp off len
  | .int val => .ok ((ll2string lpIntbufSize val).getD [])

/-! ## Validation -/

/-- The `while(p && p[0] != LP_EOF)` loop of `lpValidateIntegrity`; `none` is
`return 0`. The offsets only grow, so what a callback with a state answers in
one run is a function of the offset. -/
def validateLoop (lp : Bytes) (bytes numele : Nat) (entryCb : Option (Nat → Nat → Bool)) :
    (fuel : Nat) → Option Nat → (count : Nat) → Outcome (Option (Option Nat × Nat))
  | _, none, count => .ok (some (none, count))
  | 0, some _, _ => .error .loop
  | fuel + 1, some p, count => do
    let b ← load lp p
    if b = lpEOF then .ok (some (some p, count))
    else do
      match ← lpValidateNext lp bytes (some p) with
      | none => .ok none
      | some q =>
        if (entryCb.map fun cb => cb p numele) = some false then .ok none
        else validateLoop lp bytes numele entryCb fuel q (count + 1)

def lpValidateIntegrity (lp : Bytes) (size : Nat) (deep : Bool)
    (entryCb : Option (Nat → Nat → Bool)) : Outcome Bool :=
  if size < lpHdrSize + 1 then .ok false
  else do
    let bytes ← lpGetTotalBytes lp
    if bytes ≠ size then .ok false
    else do
      let last ← load lp (size - 1)
      if last ≠ lpEOF then .ok false
      else if deep = false then .ok true
      else do
        let numele ← lpGetNumElements lp
        match ← validateLoop lp bytes numele entryCb size (some lpHdrSize) 0 with
        | none => .ok false
        | some (p, count) =>
          if p ≠ some (size - 1) then .ok false
          else if numele ≠ lpHdrNumeleUnknown ∧ numele ≠ count then .ok false
          else .ok true

/-! ## Encoding -/

/-- The digit loop of `lpStringToInt64` from place `plen` on; `none` is an overflow. -/
def int64Digits (s : Bytes) : (rounds plen v : Nat) → Option (Nat × Nat)
  | 0, plen, v => some (plen, v)
  | rounds + 1, plen, v =>
    match s[plen]? with
    | none => some (plen, v)
    | some c =>
      if 48 ≤ c ∧ c ≤ 57 then
        if uint64Max / 10 < v then none
        else if uint64Max - (c.toNat - 48) < v * 10 then none
        else int64Digits s rounds (plen + 1) (v * 10 + (c.toNat - 48))
      else some (plen, v)

/-- The part of `lpStringToInt64` after the sign, which `plen` is past. -/
def int64Magnitude (s : Bytes) (plen limit : Nat) : Option Nat :=
  match s[plen]? with
  | none => none
  | some c =>
    if 49 ≤ c ∧ c ≤ 57 then
      match int64Digits s s.length (plen + 1) (c.toNat - 48) with
      | none => none
      | some (plen, v) =>
        if plen < s.length then none else if limit < v then none else some v
    else none

def lpStringToInt64 (s : Bytes) : Option Int :=
  if s.length = 0 ∨ longStrSize ≤ s.length then none
  else if s.length = 1 ∧ s[0]? = some 48 then some 0
  else if s[0]? = some 45 then
    if s.length = 1 then none
    else (int64Magnitude s 1 (2 ^ 63)).map fun v : Nat => -(v : Int)
  else (int64Magnitude s 0 (2 ^ 63 - 1)).map fun v : Nat => (v : Int)

/-- The bytes `intenc` of `lpEncodeIntegerGetType`; `enclen` is their number. -/
def lpEncodeIntegerGetType (v : Int) : Bytes :=
  if 0 ≤ v ∧ v ≤ 127 then [UInt8.ofNat v.toNat]
  else if -4096 ≤ v ∧ v ≤ 4095 then
    let v := (if v < 0 then 2 ^ 13 + v else v).toNat
    [UInt8.ofNat (v >>> 8 ||| 0xC0), UInt8.ofNat (v &&& 0xFF)]
  else if -32768 ≤ v ∧ v ≤ 32767 then
    0xF1 :: le 2 (if v < 0 then 2 ^ 16 + v else v).toNat
  else if -8388608 ≤ v ∧ v ≤ 8388607 then
    0xF2 :: le 3 (if v < 0 then 2 ^ 24 + v else v).toNat
  else if -2147483648 ≤ v ∧ v ≤ 2147483647 then
    0xF3 :: le 4 (if v < 0 then 2 ^ 32 + v else v).toNat
  else 0xF4 :: le 8 (v % 2 ^ 64).toNat

inductive EncType where
  | int (intenc : Bytes)
  | string (enclen : Nat)

def lpEncodeGetType (ele : Bytes) : EncType :=
  match lpStringToInt64 ele with
  | some v => .int (lpEncodeIntegerGetType v)
  | none =>
    if ele.length < 64 then .string (1 + ele.length)
    else if ele.length < 4096 then .string (2 + ele.length)
    else .string (5 + ele.length)

def lpEncodeString (s : Bytes) : Bytes :=
  if s.length < 64 then UInt8.ofNat (s.length ||| 0x80) :: s
  else if s.length < 4096 then
    UInt8.ofNat (s.length >>> 8 ||| 0xE0) :: UInt8.ofNat (s.length &&& 0xFF) :: s
  else 0xF0 :: le 4 s.length ++ s

/-! ## Modification -/

inductive Where where
  | before
  | after
  | replace
deriving DecidableEq, Repr

/-- The element arguments of `lpInsert`: `elestr` with its size, `eleint`
with the encoded integer, or neither. -/
inductive Payload where
  | str (elestr : Bytes)
  | int (eleint : Bytes)
  | delete

/-- What is stored, and the length `enclen` it is given. -/
def Payload.encoded : Payload → Bytes × Nat
  | .str s =>
    match lpEncodeGetType s with
    | .int intenc => (intenc, intenc.length)
    | .string enclen => (lpEncodeString s, enclen)
  | .int eleint => (eleint, eleint.length)
  | .delete => ([], 0)

def Payload.isDelete : Payload → Bool
  | .delete => true
  | _ => false

/-- `LP_AFTER` becomes `LP_BEFORE` the next entry. -/
def insertPlace (lp : Bytes) (p : Nat) : Where → Outcome (Nat × Where)
  | .after => do
    let p ← lpSkip lp p
    let bytes ← lpGetTotalBytes lp
    check (lpHdrSize ≤ p ∧ p < bytes)
    .ok (p, .before)
  | wh => .ok (p, wh)

def replacedLen (lp : Bytes) (p : Nat) : Where → Outcome Nat
  | .replace => do
    let len ← lpCurrentEncodedSizeUnsafe lp p
    let len := (len + backlenSize len) % 2 ^ 32
    let bytes ← lpGetTotalBytes lp
    check (lpHdrSize ≤ p ∧ p + len < bytes)
    .ok len
  | _ => .ok 0

/-- The header update of `lpInsert`. -/
def updateCount (lp : Bytes) (delete : Bool) (wh : Where) : Outcome Bytes :=
  if wh ≠ .replace ∨ delete then do
    let num ← lpGetNumElements lp
    if num ≠ lpHdrNumeleUnknown then
      if delete then lpSetNumElements lp ((num + 2 ^ 32 - 1) % 2 ^ 32)
      else lpSetNumElements lp (num + 1)
    else .ok lp
  else .ok lp

/-- The part of `lpInsert` that makes a gap of `len` bytes at `p`, where
`replaced` bytes go away: the buffer grows before the tail is moved, or
shrinks after it. -/
def makeRoom (lp : Bytes) (old new p len replaced : Nat) : Outcome Bytes := do
  let lp := if old < new then resize lp new else lp
  let lp ← memmove lp (p + len) (p + replaced) (old - p - replaced)
  .ok (if new < old then resize lp new else lp)

/-- `lpInsert` once `where` is `LP_BEFORE` or `LP_REPLACE`. -/
def lpInsertAt (lp : Bytes) (ele : Payload) (p : Nat) (wh : Where) :
    Outcome (Option (Bytes × Option Nat)) := do
  let delete := ele.isDelete
  let (enc, enclen) := ele.encoded
  let backlen := if delete then [] else lpEncodeBacklen enclen
  let old ← lpGetTotalBytes lp
  let replaced ← replacedLen lp p wh
  let new := old + enclen + backlen.length - replaced
  if uint32Max < new then .ok none
  else do
    let lp ← makeRoom lp old new p (enclen + backlen.length) replaced
    let b ← load lp p
    let newp := if delete ∧ b = lpEOF then none else some p
    let lp ← memcpy lp p enc
    let lp ← memcpy lp (p + enclen) backlen
    let lp ← updateCount lp delete wh
    let lp ← lpSetTotalBytes lp new
    .ok (some (lp, newp))

/-- `lpInsert`: `none` is NULL, otherwise the listpack and `*newp`. -/
def lpInsert (lp : Bytes) (ele : Payload) (p : Nat) (wh : Where) :
    Outcome (Option (Bytes × Option Nat)) := do
  let (p, wh) ← insertPlace lp p (if ele.isDelete then .replace else wh)
  lpInsertAt lp ele p wh

def lpInsertString (lp s : Bytes) (p : Nat) (wh : Where) :
    Outcome (Option (Bytes × Option Nat)) := lpInsert lp (.str s) p wh

def lpInsertInteger (lp : Bytes) (lval : Int) (p : Nat) (wh : Where) :
    Outcome (Option (Bytes × Option Nat)) := lpInsert lp (.int (lpEncodeIntegerGetType lval)) p wh

def lpAppend (lp : Bytes) (ele : Payload) : Outcome (Option (Bytes × Option Nat)) := do
  let bytes ← lpGetTotalBytes lp
  lpInsert lp ele (bytes - 1) .before

def lpPrepend (lp : Bytes) (ele : Payload) : Outcome (Option (Bytes × Option Nat)) := do
  match ← lpFirst lp with
  | none => lpAppend lp ele
  | some p => lpInsert lp ele p .before

def lpReplace (lp : Bytes) (p : Nat) (ele : Payload) : Outcome (Option (Bytes × Option Nat)) :=
  lpInsert lp ele p .replace

def lpDelete (lp : Bytes) (p : Nat) : Outcome (Option (Bytes × Option Nat)) :=
  lpInsert lp .delete p .replace

/-- The `while (num--)` loop of `lpDeleteRangeWithEntry`. -/
def deleteScan (lp : Bytes) (bytes : Nat) : (num tail deleted : Nat) → Outcome (Nat × Nat)
  | 0, tail, deleted => .ok (tail, deleted)
  | num + 1, tail, deleted => do
    let tail ← lpSkip lp tail
    let b ← load lp tail
    if b = lpEOF then .ok (tail, deleted + 1)
    else do
      lpAssertValidEntry lp bytes tail
      deleteScan lp bytes num tail (deleted + 1)

/-- The count update of `lpDeleteRangeWithEntry`. -/
def uncount (lp : Bytes) (deleted : Nat) : Outcome Bytes := do
  let numele ← lpGetNumElements lp
  if numele ≠ lpHdrNumeleUnknown then
    lpSetNumElements lp ((numele + 2 ^ 64 - deleted) % 2 ^ 64)
  else .ok lp

/-- `lpDeleteRangeWithEntry`: the listpack and the new `*p`. -/
def lpDeleteRangeWithEntry (lp : Bytes) (first num : Nat) : Outcome (Bytes × Option Nat) := do
  let bytes ← lpBytes lp
  if num = 0 then .ok (lp, some first)
  else do
    let (tail, deleted) ← deleteScan lp bytes num first 0
    let lp ← memmove lp first tail (bytes - 1 - tail + 1)
    let lp ← lpSetTotalBytes lp (bytes - (tail - first))
    let lp ← uncount lp deleted
    let lp := resize lp (bytes - (tail - first))
    let b ← load lp first
    .ok (lp, if b = lpEOF then none else some first)

def lpDeleteRange (lp : Bytes) (index : Int) (num : Nat) : Outcome Bytes := do
  let numele ← lpGetNumElements lp
  if num = 0 then .ok lp
  else do
    match ← lpSeek lp index with
    | none => .ok lp
    | some p =>
      let index := if numele ≠ lpHdrNumeleUnknown ∧ index < 0 then (numele : Int) + index else index
      if numele ≠ lpHdrNumeleUnknown ∧ (numele : Int) - index ≤ num then do
        let lp ← memcpy lp p [lpEOF]
        let lp ← lpSetTotalBytes lp (p + 1)
        let lp ← lpSetNumElements lp index.toNat
        .ok (resize lp (p + 1))
      else do
        let (lp, _) ← lpDeleteRangeWithEntry lp p num
        .ok lp

/-- The reallocation and the copies of `lpMerge`: the larger listpack grows, and
the other is appended or prepended. -/
def mergeInto (first second : Bytes) (firstBytes secondBytes lpbytes : Nat) : Outcome Bytes :=
  if secondBytes ≤ firstBytes then do
    let tail ← loadSlice second lpHdrSize (secondBytes - lpHdrSize)
    memcpy (resize first lpbytes) (firstBytes - 1) tail
  else do
    let target ← memmove (resize second lpbytes) (firstBytes - 1) lpHdrSize
      (secondBytes - lpHdrSize)
    let head ← loadSlice first 0 (firstBytes - 1)
    memcpy target 0 head

/-- The merged bytes of `lpMerge`, which take the place of the larger
listpack. -/
def mergeBytes (first second : Bytes) : Outcome Bytes := do
  let firstBytes ← lpBytes first
  let (first, firstLen) ← lpLength first
  let secondBytes ← lpBytes second
  let (second, secondLen) ← lpLength second
  let lpbytes := firstBytes + secondBytes - lpHdrSize - 1
  check (lpbytes < uint32Max)
  let lplength := if firstLen + secondLen < uint16Max then firstLen + secondLen else uint16Max
  let target ← mergeInto first second firstBytes secondBytes lpbytes
  let target ← lpSetNumElements target lplength
  lpSetTotalBytes target lpbytes

/-- `lpMerge` of two different pointers: the new `*first` and `*second`, of
which one is NULL; `none` is the return value NULL. -/
def lpMerge : Option Bytes → Option Bytes → Outcome (Option (Option Bytes × Option Bytes))
  | some first, some second => do
    let firstBytes ← lpBytes first
    let secondBytes ← lpBytes second
    let target ← mergeBytes first second
    .ok (some (if secondBytes ≤ firstBytes then (some target, none) else (none, some target)))
  | _, _ => .ok none

end Redis.Listpack.Model
