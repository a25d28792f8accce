import Redis.Util.Stdlib

/-! # BITFIELD

The functions of bitops.c behind the BITFIELD command: the fields of a string, the overflow
checks, the arguments and the loop over the operations. `uint64_t` and `int64_t` are both 64 bit
words, and a comparison says which of the two its operands are; signed arithmetic wraps. -/
namespace Redis.Bitops
open Lib Util.Numbers Util.Stdlib

abbrev Word := BitVec 64

/-! ## Fields of a string -/

/-- `setUnsignedBitfield`, with `left` bits of `value` still to write. -/
def setUnsignedBitfield (p : Bytes) (offset : Nat) : (left : Nat) → (value : Word) → Outcome Bytes
  | 0, _ => .ok p
  | left + 1, value => do
    let bitval : Word := if value &&& (1#64 <<< left) ≠ 0#64 then 1 else 0
    let byte := offset >>> 3
    let bit := 7 - (offset &&& 0x7)
    let b ← load p byte
    let byteval : Word := b.toBitVec.setWidth 64
    let byteval := byteval &&& ~~~(1#64 <<< bit)
    let byteval := byteval ||| (bitval <<< bit)
    setUnsignedBitfield (p.set byte ⟨byteval.setWidth 8⟩) (offset + 1) left value

def setSignedBitfield (p : Bytes) (offset bits : Nat) (value : Word) : Outcome Bytes :=
  setUnsignedBitfield p offset bits value

/-- The loop of `getUnsignedBitfield`, with `left` bits still to read. -/
def readBits (p : Bytes) : (offset left : Nat) → (value : Word) → Outcome Word
  | _, 0, value => .ok value
  | offset, left + 1, value => do
    let byte := offset >>> 3
    let bit := 7 - (offset &&& 0x7)
    let b ← load p byte
    let byteval : Word := b.toBitVec.setWidth 64
    let bitval := (byteval >>> bit) &&& 1
    readBits p (offset + 1) left ((value <<< 1) ||| bitval)

def getUnsignedBitfield (p : Bytes) (offset bits : Nat) : Outcome Word := readBits p offset bits 0

def getSignedBitfield (p : Bytes) (offset bits : Nat) : Outcome Word := do
  let value ← getUnsignedBitfield p offset bits
  if bits < 64 ∧ value &&& (1#64 <<< (bits - 1)) ≠ 0#64 then
    .ok (value ||| (BitVec.allOnes 64 <<< bits))
  else .ok value

/-! ## Overflow -/

/-- `BFOVERFLOW_WRAP`, `BFOVERFLOW_SAT` and `BFOVERFLOW_FAIL`. -/
inductive Owtype where
  | wrap
  | sat
  | fail
deriving DecidableEq, Repr

/-- The body of a branch that returns `ret`, with the end of the range it saturates at. The jump
to `handle_wrap` returns 1 from either branch. -/
def overflowBranch (owtype : Owtype) (ret : Int) (wrapped bound limit : Word) : Int × Word :=
  match owtype with
  | .wrap => (1, wrapped)
  | .sat => (ret, bound)
  | .fail => (ret, limit)

def unsignedMax (bits : Nat) : Word := if bits = 64 then BitVec.allOnes 64 else (1#64 <<< bits) - 1

/-- Under `handle_wrap` of the unsigned check. -/
def unsignedWrap (value incr : Word) (bits : Nat) : Word :=
  (value + incr) &&& ~~~(BitVec.allOnes 64 <<< bits)

/-- What is returned, and what `*limit` holds then. -/
def checkUnsignedBitfieldOverflow (value incr : Word) (bits : Nat) (owtype : Owtype)
    (limit : Word) : Int × Word :=
  let max := unsignedMax bits
  let maxincr := max - value
  let minincr := -value
  if max < value ∨ ((0#64).slt incr ∧ maxincr.slt incr) then
    overflowBranch owtype 1 (unsignedWrap value incr bits) max limit
  else if incr.slt 0 ∧ incr.slt minincr then
    overflowBranch owtype (-1) (unsignedWrap value incr bits) 0 limit
  else (0, limit)

def signedMax (bits : Nat) : Word :=
  if bits = 64 then BitVec.intMax 64 else (1#64 <<< (bits - 1)) - 1

/-- Under `handle_wrap` of the signed check. -/
def signedWrap (value incr : Word) (bits : Nat) : Word :=
  let msb := 1#64 <<< (bits - 1)
  let sum := value + incr
  if bits < 64 then
    let mask := BitVec.allOnes 64 <<< bits
    if sum &&& msb ≠ 0#64 then sum ||| mask else sum &&& ~~~mask
  else sum

def checkSignedBitfieldOverflow (value incr : Word) (bits : Nat) (owtype : Owtype)
    (limit : Word) : Int × Word :=
  let max := signedMax bits
  let min := -max - 1
  let maxincr := max - value
  let minincr := min - value
  if max.slt value ∨ (bits ≠ 64 ∧ maxincr.slt incr) ∨
      (¬ value.slt 0 ∧ (0#64).slt incr ∧ maxincr.slt incr) then
    overflowBranch owtype 1 (signedWrap value incr bits) max limit
  else if value.slt min ∨ (bits ≠ 64 ∧ incr.slt minincr) ∨
      (value.slt 0 ∧ incr.slt 0 ∧ incr.slt minincr) then
    overflowBranch owtype (-1) (signedWrap value incr bits) min limit
  else (0, limit)

/-! ## Arguments -/

inductive BitError where
  | bitOffset
  | bitfieldType
  | notAnInteger
  | invalidOverflow
  | syntaxErr
  | readonlyOnly
  | wrongType
deriving DecidableEq, Repr

def BitError.message : BitError → String
  | bitOffset => "ERR bit offset is not an integer or out of range"
  | bitfieldType => "ERR Invalid bitfield type. Use something like i16 u8. Note that u64 is not " ++
      "supported but i64 is."
  | notAnInteger => "ERR value is not an integer or out of range"
  | invalidOverflow => "ERR Invalid OVERFLOW type specified"
  | syntaxErr => "ERR syntax error"
  | readonlyOnly => "ERR BITFIELD_RO only supports the GET subcommand"
  | wrongType => "WRONGTYPE Operation against a key holding the wrong kind of value"

/-- A type `i<bits>` or `u<bits>`. -/
structure BitfieldType where
  sign : Bool
  bits : Nat
  pos : 1 ≤ bits
  le : bits ≤ if sign then 64 else 63
deriving DecidableEq

inductive Opcode where
  | get
  | set
  | incrby
deriving DecidableEq, Repr

structure BitfieldOp where
  offset : Nat
  i64 : Word
  opcode : Opcode
  owtype : Owtype
  type : BitfieldType
deriving DecidableEq

/-- What the argument checks read besides the arguments. -/
structure Limits where
  protoMaxBulkLen : Int
  mustObeyClient : Bool

def getBitOffsetFromArgument (limits : Limits) (o : Bytes) (hash : Bool) (bits : Nat) :
    Except BitError Nat :=
  let usehash : Bool := o.head? = some 35 ∧ hash ∧ 0 < bits
  match string2ll (if usehash then o.drop 1 else o) with
  | none => .error .bitOffset
  | some loffset =>
    let loffset := if usehash then (loffset * bits).bmod (2 ^ 64) else loffset
    if loffset < 0 ∨ (limits.mustObeyClient = false ∧ limits.protoMaxBulkLen ≤ loffset / 8) then
      .error .bitOffset
    else .ok loffset.toNat

/-- The width behind the sign, up to a null byte. -/
def getBitfieldTypeFromArgument (o : Bytes) : Except BitError BitfieldType :=
  if o.head? = some 105 ∨ o.head? = some 117 then
    let sign : Bool := o.head? = some 105
    match string2ll (cstr (o.drop 1)) with
    | none => .error .bitfieldType
    | some llbits =>
      if h : 1 ≤ llbits ∧ llbits ≤ if sign then 64 else 63 then
        .ok ⟨sign, llbits.toNat, by omega, by
          revert h
          cases sign <;> simp⟩
      else .error .bitfieldType
  else .error .bitfieldType

inductive Subcommand where
  | op (opcode : Opcode)
  | overflow
deriving DecidableEq, Repr

/-- A subcommand with enough arguments behind it. -/
def subcommandOf (subcmd : Bytes) (remargs : Nat) : Option Subcommand :=
  if strcaseeq subcmd (text "get".toList) ∧ 2 ≤ remargs then some (.op .get)
  else if strcaseeq subcmd (text "set".toList) ∧ 3 ≤ remargs then some (.op .set)
  else if strcaseeq subcmd (text "incrby".toList) ∧ 3 ≤ remargs then some (.op .incrby)
  else if strcaseeq subcmd (text "overflow".toList) ∧ 1 ≤ remargs then some .overflow
  else none

def owtypeOf (owtypename : Bytes) : Option Owtype :=
  if strcaseeq owtypename (text "wrap".toList) then some .wrap
  else if strcaseeq owtypename (text "sat".toList) then some .sat
  else if strcaseeq owtypename (text "fail".toList) then some .fail
  else none

def getLongLongFromObject (o : Bytes) : Except BitError Word :=
  match string2ll o with
  | none => .error .notAnInteger
  | some v => .ok (BitVec.ofInt 64 v)

/-- The first loop of `bitfieldGeneric`, over the arguments behind the key. -/
def parseOps (limits : Limits) : (owtype : Owtype) → (args : List Bytes) →
    Except BitError (List BitfieldOp)
  | _, [] => .ok []
  | owtype, subcmd :: rest =>
    match subcommandOf subcmd rest.length, rest with
    | some .overflow, owtypename :: more =>
      match owtypeOf owtypename with
      | none => .error .invalidOverflow
      | some owtype => parseOps limits owtype more
    | some (.op .get), ty :: off :: more => do
      let type ← getBitfieldTypeFromArgument ty
      let offset ← getBitOffsetFromArgument limits off true type.bits
      let ops ← parseOps limits owtype more
      .ok (⟨offset, 0, .get, owtype, type⟩ :: ops)
    | some (.op opcode), ty :: off :: val :: more => do
      let type ← getBitfieldTypeFromArgument ty
      let offset ← getBitOffsetFromArgument limits off true type.bits
      let i64 ← getLongLongFromObject val
      let ops ← parseOps limits owtype more
      .ok (⟨offset, i64, opcode, owtype, type⟩ :: ops)
    | _, _ => .error .syntaxErr

/-! ## The operations -/

inductive Reply where
  | int (v : Int)
  | nil
deriving DecidableEq, Repr

/-! The source has the code for signed and for unsigned types twice; the two differ in these
three functions. -/

def BitfieldType.getBitfield (type : BitfieldType) (p : Bytes) (offset : Nat) : Outcome Word :=
  if type.sign then getSignedBitfield p offset type.bits
  else getUnsignedBitfield p offset type.bits

def BitfieldType.setBitfield (type : BitfieldType) (p : Bytes) (offset : Nat) (value : Word) :
    Outcome Bytes :=
  if type.sign then setSignedBitfield p offset type.bits value
  else setUnsignedBitfield p offset type.bits value

def BitfieldType.checkOverflow (type : BitfieldType) (value incr : Word) (owtype : Owtype)
    (limit : Word) : Int × Word :=
  if type.sign then checkSignedBitfieldOverflow value incr type.bits owtype limit
  else checkUnsignedBitfieldOverflow value incr type.bits owtype limit

/-- The overflow, the new value and the returned one. `wrapped` is what the variable of that
name holds before the check sets it. -/
def newValue (op : BitfieldOp) (oldval wrapped : Word) : Int × Word × Word :=
  match op.opcode with
  | .incrby =>
    let (overflow, wrapped) := op.type.checkOverflow oldval op.i64 op.owtype wrapped
    let newval := if overflow ≠ 0 then wrapped else oldval + op.i64
    (overflow, newval, newval)
  | _ =>
    let (overflow, wrapped) := op.type.checkOverflow op.i64 0 op.owtype wrapped
    let newval := if overflow ≠ 0 then wrapped else op.i64
    (overflow, newval, oldval)

/-- The write and the reply, unless an overflow of type FAIL leaves the field alone. `res` is
the overflow, the new value and the returned one. -/
def storeNewValue (dirty : Bool) (s : Bytes) (op : BitfieldOp) (oldval : Word)
    (res : Int × Word × Word) : Outcome (Bytes × Reply × Nat) :=
  if res.1 ≠ 0 ∧ op.owtype = .fail then .ok (s, .nil, 0)
  else do
    let s ← op.type.setBitfield s op.offset res.2.1
    .ok (s, .int res.2.2.toInt, if dirty ∨ oldval ≠ res.2.1 then 1 else 0)

/-- SET and INCRBY: the string, the reply and the number of changes. -/
def fetchAndStore (wrapped : Word) (dirty : Bool) (s : Bytes) (op : BitfieldOp) :
    Outcome (Bytes × Reply × Nat) := do
  let oldval ← op.type.getBitfield s op.offset
  storeNewValue dirty s op oldval (newValue op oldval wrapped)

/-- The local buffer of GET: up to 9 bytes of the string, and zeroes. -/
def copyOut (s : Bytes) (byte : Nat) : Bytes :=
  let bytes := (s.drop byte).take 9
  bytes ++ List.replicate (9 - bytes.length) 0

def fetch (s : Bytes) (op : BitfieldOp) : Outcome Reply := do
  let byte := op.offset >>> 3
  let val ← op.type.getBitfield (copyOut s byte) (op.offset - byte * 8)
  .ok (.int val.toInt)

def processOp (wrapped : Word) (dirty : Bool) (s : Bytes) (op : BitfieldOp) :
    Outcome (Bytes × Reply × Nat) :=
  match op.opcode with
  | .get => do
    let r ← fetch s op
    .ok (s, r, 0)
  | _ => fetchAndStore wrapped dirty s op

/-- The second loop of `bitfieldGeneric`, from round `j` on; round `j` finds `stack j` in the
variable `wrapped`. -/
def processOps (stack : Nat → Word) (dirty : Bool) : (j : Nat) → Bytes → List BitfieldOp →
    Outcome (Bytes × List Reply × Nat)
  | _, s, [] => .ok (s, [], 0)
  | j, s, op :: ops => do
    let (s, r, changes) ← processOp (stack j) dirty s op
    let (s, rs, more) ← processOps stack dirty (j + 1) s ops
    .ok (s, r :: rs, changes + more)

/-! ## The command -/

/-- A string value: an integer of type `long`, or its bytes. -/
inductive StringObject where
  | int (v : Word)
  | raw (s : Bytes)
deriving DecidableEq, Repr

inductive Value where
  | string (o : StringObject)
  | other
deriving DecidableEq, Repr

/-- `getDecodedObject`. -/
def StringObject.decoded : StringObject → Bytes
  | int v => (ll2string 32 v.toInt).getD []
  | raw s => s

def getObjectReadOnlyString : Option StringObject → Bytes
  | none => []
  | some (.int v) => (ll2string longStrSize v.toInt).getD []
  | some (.raw s) => s

def sdsgrowzero (s : Bytes) (len : Nat) : Bytes := s ++ List.replicate (len - s.length) 0

/-- The string of a key with room up to bit `maxbit`, and whether that changed it. -/
def lookupStringForBitCommand (maxbit : Nat) : Option Value → Except BitError (Bytes × Bool)
  | some .other => .error .wrongType
  | none => .ok (List.replicate (maxbit >>> 3 + 1) 0, true)
  | some (.string o) =>
    let s := sdsgrowzero o.decoded (maxbit >>> 3 + 1)
    .ok (s, o.decoded.length ≠ s.length)

def raiseWriteOffset (highest : Nat) (op : BitfieldOp) : Nat :=
  if op.opcode ≠ .get ∧ highest < op.offset + op.type.bits - 1 then op.offset + op.type.bits - 1
  else highest

def highestWriteOffset (ops : List BitfieldOp) : Nat := ops.foldl raiseWriteOffset 0

inductive CommandReply where
  | error (message : String)
  | array (replies : List Reply)
deriving DecidableEq, Repr

/-- What a command leaves: the value of the key, the reply and the changes it counts. -/
structure Done where
  value : Option Value
  reply : CommandReply
  changes : Nat
deriving DecidableEq, Repr

def refuse (value : Option Value) (e : BitError) : Done := ⟨value, .error e.message, 0⟩

/-- The operations when all of them are GET. -/
def readOps (stack : Nat → Word) (ops : List BitfieldOp) : Option Value → Outcome Done
  | some .other => .ok (refuse (some .other) .wrongType)
  | none => do
    let (_, replies, _) ← processOps stack false 0 (getObjectReadOnlyString none) ops
    .ok ⟨none, .array replies, 0⟩
  | some (.string o) => do
    let (_, replies, _) ← processOps stack false 0 (getObjectReadOnlyString (some o)) ops
    .ok ⟨some (.string o), .array replies, 0⟩

def writeOps (stack : Nat → Word) (ops : List BitfieldOp) (value : Option Value) : Outcome Done :=
  match lookupStringForBitCommand (highestWriteOffset ops) value with
  | .error e => .ok (refuse value e)
  | .ok (s, dirty) => do
    let (s, replies, changes) ← processOps stack dirty 0 s ops
    .ok ⟨some (.string (.raw s)), .array replies, changes⟩

/-- `bitfieldGeneric`; `readonly` is `BITFIELD_FLAG_READONLY`. -/
def bitfieldGeneric (limits : Limits) (readonly : Bool) (stack : Nat → Word)
    (value : Option Value) (args : List Bytes) : Outcome Done :=
  match parseOps limits .wrap args with
  | .error e => .ok (refuse value e)
  | .ok ops =>
    if ops.all (·.opcode = .get) then readOps stack ops value
    else if readonly then .ok (refuse value .readonlyOnly)
    else writeOps stack ops value

end Redis.Bitops
