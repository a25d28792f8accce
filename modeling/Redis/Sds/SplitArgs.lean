import Redis.Lib.Bytes

/-! # Escaped strings of sds.c

`sdscatrepr` writes a string in quotes and `sdssplitargs` splits a line into
arguments. A pointer into the line is the memory from there on, so a load past
the allocation is a fault. -/
namespace Redis.Sds.SplitArgs
open Lib

/-! ## Characters -/

/-- `isprint` in the C locale, which is the one Redis runs in. -/
def isprint (c : UInt8) : Bool := 32 ≤ c && c ≤ 126

def isspace (c : UInt8) : Bool := c == 32 || (9 ≤ c && c ≤ 13)

def quote : UInt8 := 34

def apostrophe : UInt8 := 39

def backslash : UInt8 := 92

/-- A digit of `%02x`. -/
def hexDigit (n : Nat) : UInt8 := if n < 10 then 48 + n.toUInt8 else 87 + n.toUInt8

def isHexDigit (c : UInt8) : Bool := (48 ≤ c && c ≤ 57) || (97 ≤ c && c ≤ 102) || (65 ≤ c && c ≤ 70)

def hexDigitToInt (c : UInt8) : Nat :=
  if 48 ≤ c && c ≤ 57 then (c - 48).toNat
  else if 97 ≤ c && c ≤ 102 then (c - 87).toNat
  else if 65 ≤ c && c ≤ 70 then (c - 55).toNat
  else 0

/-! ## sdscatrepr -/

/-- One turn of the loop. -/
def reprByte (c : UInt8) : Bytes :=
  if c = backslash ∨ c = quote then [backslash, c]
  else if c = 10 then [backslash, 110]
  else if c = 13 then [backslash, 114]
  else if c = 9 then [backslash, 116]
  else if c = 7 then [backslash, 97]
  else if c = 8 then [backslash, 98]
  else if isprint c then [c]
  else [backslash, 120, hexDigit (c.toNat / 16), hexDigit (c.toNat % 16)]

def sdscatrepr (s p : Bytes) : Bytes := s ++ [quote] ++ p.flatMap reprByte ++ [quote]

/-- Whether a character of `sdsneedsrepr` is one that has to be escaped. -/
def needsEscape (c : UInt8) : Bool :=
  c = backslash || c = quote || c = 10 || c = 13 || c = 9 || c = 7 || c = 8 || !isprint c || isspace c

def sdsneedsrepr (s : Bytes) : Bool := s.any needsEscape

/-- `sdstrim`: the characters of `cset` leave both ends. -/
def sdstrim (s cset : Bytes) : Bytes :=
  ((s.dropWhile (cset.contains ·)).reverse.dropWhile (cset.contains ·)).reverse

/-! ## sdssplitargs -/

inductive Mode where
  | plain
  | inq
  | insq
deriving DecidableEq, Repr

/-- What one turn of the token loop does: go on in a mode with bytes appended to
the token, set `done`, or `goto err`. -/
inductive Turn where
  | next (mode : Mode) (add : Bytes) (p : Bytes)
  | done (p : Bytes)
  | err
deriving DecidableEq, Repr

/-- The test for `\x` and two hex digits, and the byte they stand for. -/
def hexEscape (p : Bytes) : Outcome (Option UInt8) := do
  if (← load p 0) = backslash then
    if (← load p 1) = 120 then
      let c2 ← load p 2
      if isHexDigit c2 then
        let c3 ← load p 3
        .ok (if isHexDigit c3 then some (hexDigitToInt c2 * 16 + hexDigitToInt c3).toUInt8 else none)
      else .ok none
    else .ok none
  else .ok none

/-- The character behind a backslash. -/
def unescape (c : UInt8) : UInt8 :=
  if c = 110 then 10
  else if c = 114 then 13
  else if c = 116 then 9
  else if c = 98 then 8
  else if c = 97 then 7
  else c

/-- The end of a quoted token: a blank or nothing has to follow. -/
def closing (p : Bytes) : Outcome Turn := do
  let c1 ← load p 1
  .ok (if c1 ≠ 0 && !isspace c1 then .err else .done p)

def quotedTurn (p : Bytes) : Outcome Turn := do
  match ← hexEscape p with
  | some byte => .ok (.next .inq [byte] (p.drop 3))
  | none => do
    let c ← load p 0
    let c1 ← if c = backslash then load p 1 else .ok 0
    if c1 ≠ 0 then .ok (.next .inq [unescape c1] (p.drop 1))
    else if c = quote then closing p
    else if c = 0 then .ok .err
    else .ok (.next .inq [c] p)

def singleQuotedTurn (p : Bytes) : Outcome Turn := do
  let c ← load p 0
  let c1 ← if c = backslash then load p 1 else .ok 0
  if c1 = apostrophe then .ok (.next .insq [apostrophe] (p.drop 1))
  else if c = apostrophe then closing p
  else if c = 0 then .ok .err
  else .ok (.next .insq [c] p)

def plainTurn (p : Bytes) : Outcome Turn := do
  let c ← load p 0
  if c = 32 ∨ c = 10 ∨ c = 13 ∨ c = 9 ∨ c = 0 then .ok (.done p)
  else if c = quote then .ok (.next .inq [] p)
  else if c = apostrophe then .ok (.next .insq [] p)
  else .ok (.next .plain [c] p)

def turn : Mode → Bytes → Outcome Turn
  | .plain => plainTurn
  | .inq => quotedTurn
  | .insq => singleQuotedTurn

/-- `if (*p) p++`. -/
def bump (p : Bytes) : Outcome Bytes := do
  let c ← load p 0
  .ok (if c = 0 then p else p.drop 1)

/-- `while(!done)`: the token and the place behind it, or nothing on `err`. -/
def token : (rounds : Nat) → Mode → (current p : Bytes) → Outcome (Option (Bytes × Bytes))
  | 0, _, _, _ => .error .loop
  | rounds + 1, mode, current, p => do
    match ← turn mode p with
    | .err => .ok none
    | .done p => do
      let p ← bump p
      .ok (some (current, p))
    | .next mode add p => do
      let p ← bump p
      token rounds mode (current ++ add) p

/-- `while(*p && isspace(*p)) p++`. -/
def skipBlanks : Bytes → Outcome Bytes
  | [] => .error .bounds
  | c :: p => if c ≠ 0 && isspace c then skipBlanks p else .ok (c :: p)

/-- `while(1)`, with the arguments found so far. -/
def splitLoop : (rounds : Nat) → (vector : List Bytes) → (p : Bytes) → Outcome (Option (List Bytes))
  | 0, _, _ => .error .loop
  | rounds + 1, vector, p => do
    let p ← skipBlanks p
    if (← load p 0) ≠ 0 then
      match ← token (p.length + 1) .plain [] p with
      | some (current, p) => splitLoop rounds (vector ++ [current]) p
      | none => .ok none
    else .ok (some vector)

/-- The arguments of a line, or nothing when its quotes do not match. -/
def sdssplitargs (line : Bytes) : Outcome (Option (List Bytes)) :=
  splitLoop (line.length + 1) [] line

end Redis.Sds.SplitArgs
