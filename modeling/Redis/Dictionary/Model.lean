import Redis.Lib.Outcome

/-! # The incremental hash table of dict.c

Two chained tables, the second only while entries migrate to it. Every lookup or update first
moves one bucket, so the functions return the changed dict with their result. Pointers to
entries are positions (`EntryRef`); `rehashidx` and the size exponents use `none` for the -1 of
the source. -/
namespace Redis.Dictionary.Model
open Lib

/-- `dictEntry`. The `next` chain is the list a bucket holds, and `val` is
`none` until the caller of `dictAddRaw` sets it. -/
structure DictEntry (K V : Type) where
  key : K
  val : Option V
deriving DecidableEq, Repr

abbrev Bucket (K V : Type) := List (DictEntry K V)

/-- `ht_table[i]`, `ht_used[i]` and `ht_size_exp[i]` of one table. -/
structure Table (K V : Type) where
  table : Option (List (Bucket K V))
  used : Nat
  sizeExp : Option Nat
deriving DecidableEq, Repr

/-- The members of `dictType` that decide where entries go and when tables
grow. `expandAllowed` gets the bytes of the new table and the used ratio as
the pair used, size. -/
structure DictType (K : Type) where
  hashFunction : K → BitVec 64
  expandAllowed : Option (Nat → Nat → Nat → Bool)

structure Dict (K V : Type) where
  ht0 : Table K V
  ht1 : Table K V
  rehashidx : Option Nat
  pauserehash : Int
deriving DecidableEq, Repr

/-- `dictResizeEnable`, the type of the global `dict_can_resize`. -/
inductive DictResizeEnable where
  | enable
  | avoid
  | forbid
deriving DecidableEq, Repr

def dictForceResizeRatio : Nat := 5
def dictHtInitialExp : Nat := 2
def dictHtInitialSize : Nat := 2 ^ dictHtInitialExp
def longMax : Nat := 2 ^ 63 - 1

/-- `sizeof(dictEntry)`: key, value and next pointers. -/
def sizeofDictEntry : Nat := 24

def sizeofPtr : Nat := 8

def dicthtSize : Option Nat → Nat
  | none => 0
  | some e => 2 ^ e

def dicthtSizeMask : Option Nat → BitVec 64
  | none => 0
  | some e => BitVec.ofNat 64 (2 ^ e) - 1

section Tables
variable {K V : Type}

def dictReset : Table K V := ⟨none, 0, none⟩

def dictCreate : Dict K V := ⟨dictReset, dictReset, none, 0⟩

def dictIsRehashing (d : Dict K V) : Bool := d.rehashidx.isSome

def dictSize (d : Dict K V) : Nat := d.ht0.used + d.ht1.used

/-- `hash & DICTHT_SIZE_MASK(exp)`. -/
def hashIdx (ty : DictType K) (exp : Option Nat) (key : K) : Nat :=
  (ty.hashFunction key &&& dicthtSizeMask exp).toNat

def Table.bucket (t : Table K V) (i : Nat) : Outcome (Bucket K V) :=
  match t.table with
  | none => .error .null
  | some bs => load bs i

def Table.setBucket (t : Table K V) (i : Nat) (b : Bucket K V) : Table K V :=
  { t with table := t.table.map (·.set i b) }

/-- `ht_table[i]` and its companions; `false` is table 0. -/
def Dict.ht (d : Dict K V) : Bool → Table K V
  | false => d.ht0
  | true => d.ht1

def Dict.setHt (d : Dict K V) : Bool → Table K V → Dict K V
  | false, t => { d with ht0 := t }
  | true, t => { d with ht1 := t }

end Tables

/-! ## Migration -/

section Rehash
variable {K V : Type} (ty : DictType K)

/-- The `while(de)` loop of `dictRehash`: every entry of the chain is pushed
on its bucket of the second table. -/
def moveChain (d : Dict K V) : Bucket K V → Outcome (Dict K V)
  | [] => .ok d
  | de :: nextde => do
    let h := hashIdx ty d.ht1.sizeExp de.key
    let b ← d.ht1.bucket h
    moveChain { d with
      ht0 := { d.ht0 with used := d.ht0.used - 1 }
      ht1 := { d.ht1.setBucket h (de :: b) with used := d.ht1.used + 1 } } nextde

/-- Where the scan for a non-empty bucket stops: with `empty_visits` used up,
or at a bucket. -/
inductive SkipEmpty (K V : Type) where
  | exhausted (idx : Nat)
  | found (idx : Nat) (de : Bucket K V) (left : Nat)

/-- `while(d->ht_table[0][d->rehashidx] == NULL)`; `left` is one less than
`empty_visits`, so the decrement that reaches zero is the step from 0. -/
def skipEmpty (t : Table K V) : (left idx : Nat) → Outcome (SkipEmpty K V)
  | 0, idx => do
    let b ← t.bucket idx
    if b.isEmpty then .ok (.exhausted (idx + 1)) else .ok (.found idx b 0)
  | left + 1, idx => do
    let b ← t.bucket idx
    if b.isEmpty then skipEmpty t left (idx + 1) else .ok (.found idx b (left + 1))

/-- The `while(n-- && d->ht_used[0] != 0)` loop; the flag is the early
`return 1`. -/
def rehashLoop : (n left : Nat) → Dict K V → Outcome (Dict K V × Bool)
  | 0, _, d => .ok (d, false)
  | n + 1, left, d =>
    if d.ht0.used = 0 then .ok (d, false)
    else match d.rehashidx with
      | none => .error .assertion
      | some r => do
        check (r < dicthtSize d.ht0.sizeExp)
        match ← skipEmpty d.ht0 left r with
        | .exhausted idx => .ok ({ d with rehashidx := some idx }, true)
        | .found idx de left => do
          let d ← moveChain ty d de
          rehashLoop n left { d with
            ht0 := d.ht0.setBucket idx []
            rehashidx := some (idx + 1) }

/-- The end of `dictRehash`: an empty table 0 is replaced by table 1. -/
def rehashFinish (d : Dict K V) : Dict K V × Bool :=
  if d.ht0.used = 0 then
    ({ d with ht0 := d.ht1, ht1 := dictReset, rehashidx := none }, false)
  else (d, true)

/-- `dictRehash`; the flag is its return value, whether keys are left. -/
def dictRehash (mode : DictResizeEnable) (d : Dict K V) (n : Nat) : Outcome (Dict K V × Bool) :=
  if mode = .forbid ∨ dictIsRehashing d = false then .ok (d, false)
  else if mode = .avoid ∧
      dicthtSize d.ht1.sizeExp / dicthtSize d.ht0.sizeExp < dictForceResizeRatio then
    .ok (d, false)
  else do
    let (d, early) ← rehashLoop ty n (n * 10 - 1) d
    if early then .ok (d, true) else .ok (rehashFinish d)

/-- `_dictRehashStep`, under the `dictIsRehashing` test of its callers. -/
def dictRehashStep (mode : DictResizeEnable) (d : Dict K V) : Outcome (Dict K V) :=
  if dictIsRehashing d ∧ d.pauserehash = 0 then do
    let (d, _) ← dictRehash ty mode d 1
    .ok d
  else .ok d

end Rehash

/-! ## Resizing -/

section Resize
variable {K V : Type}

/-- The `while(1)` loop of `_dictNextExp`. -/
def nextExpFrom (size : Nat) : (fuel e : Nat) → Nat
  | 0, e => e
  | fuel + 1, e => if size ≤ 2 ^ e then e else nextExpFrom size fuel (e + 1)

def dictNextExp (size : Nat) : Nat :=
  if longMax ≤ size then 63 else nextExpFrom size 64 dictHtInitialExp

/-- The part of `_dictExpand` after its checks: the new table becomes table 0
of an unallocated dict, and starts a rehash otherwise. -/
def dictSetupTable (d : Dict K V) (e : Nat) : Dict K V :=
  let t : Table K V := ⟨some (List.replicate (2 ^ e) []), 0, some e⟩
  if d.ht0.table = none then { d with ht0 := t }
  else { d with ht1 := t, rehashidx := some 0 }

/-- `_dictExpand`; `tryAlloc` is the outcome of `ztrycalloc` when the caller
passed `malloc_failed`. The flag is `DICT_OK`. -/
def dictExpandAlloc (d : Dict K V) (size : Nat) (tryAlloc : Option Bool) : Dict K V × Bool :=
  if dictIsRehashing d ∨ size < d.ht0.used then (d, false)
  else
    let e := dictNextExp size
    let newsize := 2 ^ e
    if newsize < size ∨ newsize * sizeofPtr % 2 ^ 64 < newsize then (d, false)
    else if some e = d.ht0.sizeExp then (d, false)
    else if tryAlloc = some false then (d, false)
    else (dictSetupTable d e, true)

def dictExpand (d : Dict K V) (size : Nat) : Dict K V × Bool := dictExpandAlloc d size none

/-- `dictTryExpand` reports only a failed allocation. -/
def dictTryExpand (d : Dict K V) (size : Nat) (allocated : Bool) : Dict K V :=
  (dictExpandAlloc d size (some allocated)).1

def dictResize (mode : DictResizeEnable) (d : Dict K V) : Dict K V × Bool :=
  if mode ≠ .enable ∨ dictIsRehashing d then (d, false)
  else
    let minimal := if d.ht0.used < dictHtInitialSize then dictHtInitialSize else d.ht0.used
    dictExpand d minimal

def dictTypeExpandAllowed (ty : DictType K) (d : Dict K V) : Bool :=
  match ty.expandAllowed with
  | none => true
  | some f => f (2 ^ dictNextExp (d.ht0.used + 1) * sizeofPtr) d.ht0.used
      (dicthtSize d.ht0.sizeExp)

def dictExpandIfNeeded (ty : DictType K) (mode : DictResizeEnable) (d : Dict K V) :
    Dict K V × Bool :=
  if dictIsRehashing d then (d, true)
  else if dicthtSize d.ht0.sizeExp = 0 then dictExpand d dictHtInitialSize
  else if dictTypeExpandAllowed ty d = false then (d, true)
  else if (mode = .enable ∧ dicthtSize d.ht0.sizeExp ≤ d.ht0.used) ∨
      (mode ≠ .forbid ∧ dictForceResizeRatio < d.ht0.used / dicthtSize d.ht0.sizeExp) then
    dictExpand d (d.ht0.used + 1)
  else (d, true)

end Resize

/-! ## Lookup and update -/

section Entries
variable {K V : Type} [DecidableEq K] (ty : DictType K)

/-- A pointer to an entry: table, bucket and place in the chain. -/
structure EntryRef where
  table : Bool
  idx : Nat
  pos : Nat
deriving DecidableEq, Repr

/-- What the search loop of `dictFind`, `dictGenericDelete` and
`_dictKeyIndex` ends with. -/
inductive Lookup (K V : Type) where
  | found (ref : EntryRef) (he : DictEntry K V)
  | missing (idx : Nat)

/-- The chain walk `while(he)` for `key`. -/
def chainFind (key : K) : Bucket K V → Option (Nat × DictEntry K V)
  | [] => none
  | he :: next =>
    if key = he.key then some (0, he)
    else (chainFind key next).map fun r => (r.1 + 1, r.2)

/-- One round of `for (table = 0; table <= 1; table++)`. -/
def lookupTable (d : Dict K V) (key : K) (table : Bool) : Outcome (Lookup K V) := do
  let idx := hashIdx ty (d.ht table).sizeExp key
  let b ← (d.ht table).bucket idx
  match chainFind key b with
  | some (pos, he) => .ok (.found ⟨table, idx, pos⟩ he)
  | none => .ok (.missing idx)

/-- The search over both tables; the second one only while rehashing. -/
def lookupEntry (d : Dict K V) (key : K) : Outcome (Lookup K V) := do
  match ← lookupTable ty d key false with
  | .found ref he => .ok (.found ref he)
  | .missing idx => if dictIsRehashing d then lookupTable ty d key true else .ok (.missing idx)

def dictFind (mode : DictResizeEnable) (d : Dict K V) (key : K) :
    Outcome (Dict K V × Option (EntryRef × DictEntry K V)) :=
  if dictSize d = 0 then .ok (d, none)
  else do
    let d ← dictRehashStep ty mode d
    match ← lookupEntry ty d key with
    | .found ref he => .ok (d, some (ref, he))
    | .missing _ => .ok (d, none)

/-- `_dictKeyIndex`: the free index, or `none` (the -1 of the source) with
`*existing`. -/
def dictKeyIndex (mode : DictResizeEnable) (d : Dict K V) (key : K) :
    Outcome (Dict K V × Option Nat × Option EntryRef) :=
  match dictExpandIfNeeded ty mode d with
  | (d, false) => .ok (d, none, none)
  | (d, true) => do
    match ← lookupEntry ty d key with
    | .found ref _ => .ok (d, none, some ref)
    | .missing idx => .ok (d, some idx, none)

/-- `zmalloc(sizeof(*entry))`: the process ends when the entries no longer fit
the address space. -/
def zmallocEntry (d : Dict K V) : Outcome Unit :=
  if (dictSize d + 1) * sizeofDictEntry < 2 ^ 64 then .ok () else .error .memory

/-- `dictAddRaw`: the new entry, or `NULL` and `*existing`. -/
def dictAddRaw (mode : DictResizeEnable) (d : Dict K V) (key : K) :
    Outcome (Dict K V × Option EntryRef × Option EntryRef) := do
  let d ← dictRehashStep ty mode d
  match ← dictKeyIndex ty mode d key with
  | (d, none, existing) => .ok (d, none, existing)
  | (d, some index, existing) =>
    let htidx := dictIsRehashing d
    zmallocEntry d
    let b ← (d.ht htidx).bucket index
    let t := { (d.ht htidx).setBucket index (⟨key, none⟩ :: b) with
      used := (d.ht htidx).used + 1 }
    .ok (d.setHt htidx t, some ⟨htidx, index, 0⟩, existing)

def dictSetVal (d : Dict K V) (ref : EntryRef) (val : V) : Outcome (Dict K V) := do
  let b ← (d.ht ref.table).bucket ref.idx
  let he ← load b ref.pos
  .ok (d.setHt ref.table
    ((d.ht ref.table).setBucket ref.idx (b.set ref.pos { he with val := some val })))

def dictAdd (mode : DictResizeEnable) (d : Dict K V) (key : K) (val : V) :
    Outcome (Dict K V × Bool) := do
  match ← dictAddRaw ty mode d key with
  | (d, none, _) => .ok (d, false)
  | (d, some entry, _) => do
    let d ← dictSetVal d entry val
    .ok (d, true)

/-- `dictReplace`: true when the key was added, false when its value was
replaced. The second case follows `existing` without a test. -/
def dictReplace (mode : DictResizeEnable) (d : Dict K V) (key : K) (val : V) :
    Outcome (Dict K V × Bool) := do
  match ← dictAddRaw ty mode d key with
  | (d, some entry, _) => do
    let d ← dictSetVal d entry val
    .ok (d, true)
  | (_, none, none) => .error .null
  | (d, none, some existing) => do
    let d ← dictSetVal d existing val
    .ok (d, false)

/-- `dictGenericDelete`: the unlinked entry. -/
def dictGenericDelete (mode : DictResizeEnable) (d : Dict K V) (key : K) :
    Outcome (Dict K V × Option (DictEntry K V)) :=
  if dictSize d = 0 then .ok (d, none)
  else do
    let d ← dictRehashStep ty mode d
    match ← lookupEntry ty d key with
    | .missing _ => .ok (d, none)
    | .found ref he => do
      let b ← (d.ht ref.table).bucket ref.idx
      let t := { (d.ht ref.table).setBucket ref.idx (b.eraseIdx ref.pos) with
        used := (d.ht ref.table).used - 1 }
      .ok (d.setHt ref.table t, some he)

def dictDelete (mode : DictResizeEnable) (d : Dict K V) (key : K) : Outcome (Dict K V × Bool) := do
  let (d, he) ← dictGenericDelete ty mode d key
  .ok (d, he.isSome)

def dictUnlink (mode : DictResizeEnable) (d : Dict K V) (key : K) :
    Outcome (Dict K V × Option (DictEntry K V)) :=
  dictGenericDelete ty mode d key

end Entries

end Redis.Dictionary.Model
