import Redis.Lib.Outcome

/-! # Clients that wait for a list

A blocking pop on keys that hold nothing puts the client into the queue of each key. A key that
comes into being is signalled if clients wait for it, and after the command or transaction the
clients of the signalled keys are served. A served `BLMOVE` pushes on another list, which may
bring a further key into being. -/
namespace Redis.Blocked.Model
open Function Lib

/-- The type of a value, and the elements of a list. -/
inductive Value (ε : Type) where
  | list (xs : List ε)
  | string
  | set
  | zset
  | hash
  | stream
  deriving DecidableEq, Repr

def Value.isList {ε : Type} : Value ε → Bool
  | .list _ => true
  | _ => false

/-- `LIST_HEAD` or `LIST_TAIL`. -/
inductive Side where
  | head
  | tail
  deriving DecidableEq, Repr

inductive Wait (κ : Type) where
  /-- `BLPOP` or `BRPOP`. -/
  | pop (wherefrom : Side)
  | mpop (wherefrom : Side) (count : Nat)
  /-- `BLMOVE` or `BRPOPLPUSH` with the destination. -/
  | move (target : κ) (wherefrom whereto : Side)
  deriving DecidableEq, Repr

/-- The blocking state of a client: its database, the dictionary of its keys and what it
does when one of them is ready. -/
structure Bpop (δ κ : Type) where
  db : δ
  keys : List κ
  wait : Wait κ
  deriving DecidableEq, Repr

inductive Reply (κ ε : Type) where
  | popped (key : κ) (elements : List ε)
  | moved (element : ε)
  | wrongType
  deriving DecidableEq, Repr

/-- One served client: on which key, and what it got. -/
structure Served (δ κ ε γ : Type) where
  client : γ
  db : δ
  key : κ
  reply : Reply κ ε

structure Server (δ κ ε γ : Type) where
  dict : δ → κ → Option (Value ε)
  /-- `db->blocking_keys`; a key without clients has no entry. -/
  blockingKeys : δ → κ → List γ
  /-- The keys that have an entry in `db->blocking_keys`. -/
  blockingEntries : δ → List κ
  dbReadyKeys : δ → κ → Bool
  readyKeys : List (δ × κ)
  bpop : γ → Option (Bpop δ κ)
  /-- `server.blocked_clients_by_type[BLOCKED_LIST]`. -/
  blockedLists : Nat
  /-- The clients served so far, the last one first. -/
  served : List (Served δ κ ε γ)

variable {δ κ ε γ : Type} [DecidableEq δ] [DecidableEq κ] [DecidableEq γ]

/-- A table with one entry replaced. -/
def set₂ {α : Type} (f : δ → κ → α) (db : δ) (k : κ) (a : α) : δ → κ → α :=
  update f db (update (f db) k a)

/-! ## Signalling -/

/-- Only list clients wait here, so a value of another type never finds blocked clients of
its type. -/
def signalKeyAsReady (s : Server δ κ ε γ) (db : δ) (k : κ) (v : Value ε) : Server δ κ ε γ :=
  if !v.isList then s
  else if s.blockedLists = 0 then s
  else if s.blockingKeys db k = [] then s
  else if s.dbReadyKeys db k then s
  else { s with
    readyKeys := s.readyKeys ++ [(db, k)]
    dbReadyKeys := set₂ s.dbReadyKeys db k true }

/-- The value of a key, as the object is changed in place. -/
def setVal (s : Server δ κ ε γ) (db : δ) (k : κ) (v : Option (Value ε)) : Server δ κ ε γ :=
  { s with dict := set₂ s.dict db k v }

def dbAdd (s : Server δ κ ε γ) (db : δ) (k : κ) (v : Value ε) : Outcome (Server δ κ ε γ) := do
  check ((s.dict db k).isNone = true)
  return signalKeyAsReady (setVal s db k (some v)) db k v

/-- Of a key that holds a stream the clients of the stream are signalled, and there are none. -/
def dbOverwrite (s : Server δ κ ε γ) (db : δ) (k : κ) (v : Value ε) : Outcome (Server δ κ ε γ) := do
  check ((s.dict db k).isSome = true)
  return setVal s db k (some v)

def dbDelete (s : Server δ κ ε γ) (db : δ) (k : κ) : Server δ κ ε γ := setVal s db k none

def setKey (s : Server δ κ ε γ) (db : δ) (k : κ) (v : Value ε) : Outcome (Server δ κ ε γ) :=
  if (s.dict db k).isSome then dbOverwrite s db k v else dbAdd s db k v

/-! ## Lists -/

def listPop (side : Side) : List ε → Option (ε × List ε)
  | [] => none
  | x :: xs =>
    match side with
    | .head => some (x, xs)
    | .tail => some ((x :: xs).getLast (List.cons_ne_nil x xs), (x :: xs).dropLast)

def listPush (side : Side) (x : ε) (xs : List ε) : List ε :=
  match side with
  | .head => x :: xs
  | .tail => xs ++ [x]

/-- The elements of a range from one end, in the order of the reply, and what is left. -/
def listPopRange (side : Side) (count : Nat) (xs : List ε) : List ε × List ε :=
  match side with
  | .head => (xs.take count, xs.drop count)
  | .tail => ((xs.drop (xs.length - count)).reverse, xs.take (xs.length - count))

/-- The list object of a key. A stale object is a fault. -/
def listAt (s : Server δ κ ε γ) (db : δ) (k : κ) : Outcome (List ε) :=
  match s.dict db k with
  | some (.list xs) => .ok xs
  | _ => .error .memory

/-- A list that a pop has emptied is deleted, in the database `rdb` of the client. -/
def deleteIfEmpty (s : Server δ κ ε γ) (db rdb : δ) (k : κ) : Outcome (Server δ κ ε γ × Bool) := do
  let xs ← listAt s db k
  return if xs.isEmpty then (dbDelete s rdb k, true) else (s, false)

/-- The push of `LMOVE`, given whether the destination was found. -/
def lmoveHandlePush (s : Server δ κ ε γ) (db : δ) (dst : κ) (found : Bool) (x : ε)
    (whereto : Side) : Outcome (Server δ κ ε γ) := do
  let s ← if found then pure s else dbAdd s db dst (.list [])
  let ys ← listAt s db dst
  return setVal s db dst (some (.list (listPush whereto x ys)))

/-! ## Blocking -/

/-- The client goes to the end of the queue of each key, once. -/
def linkKeys (c : γ) (db : δ) : List κ → List κ → (δ → κ → List γ) → List κ × (δ → κ → List γ)
  | [], seen, queues => (seen, queues)
  | k :: ks, seen, queues =>
    if k ∈ seen then linkKeys c db ks seen queues
    else linkKeys c db ks (seen ++ [k]) (set₂ queues db k (queues db k ++ [c]))

def blockForKeys (s : Server δ κ ε γ) (c : γ) (db : δ) (keys : List κ) (wait : Wait κ) :
    Server δ κ ε γ :=
  let linked := linkKeys c db keys [] s.blockingKeys
  let entries := s.blockingEntries db
  { s with
    blockingKeys := linked.2
    blockingEntries := update s.blockingEntries db (entries ++ linked.1.filter (· ∉ entries))
    bpop := update s.bpop c (some ⟨db, linked.1, wait⟩)
    blockedLists := s.blockedLists + 1 }

/-- The client leaves the queue of each of its keys. -/
def unlinkKeys (c : γ) (db : δ) : List κ → (δ → κ → List γ) → Outcome (δ → κ → List γ)
  | [], queues => .ok queues
  | k :: ks, queues => do
    check (queues db k ≠ [])
    unlinkKeys c db ks (set₂ queues db k ((queues db k).erase c))

/-- The state without the client, whose keys have no entry if nobody else waits for them. -/
def unlinked (s : Server δ κ ε γ) (c : γ) (b : Bpop δ κ) (queues : δ → κ → List γ) :
    Server δ κ ε γ :=
  { s with
    blockingKeys := queues
    blockingEntries := update s.blockingEntries b.db
      ((s.blockingEntries b.db).filter fun k => !(queues b.db k).isEmpty)
    bpop := update s.bpop c none
    blockedLists := s.blockedLists - 1 }

def unblockClient (s : Server δ κ ε γ) (c : γ) (b : Bpop δ κ) : Outcome (Server δ κ ε γ) := do
  check (b.keys ≠ [])
  let queues ← unlinkKeys c b.db b.keys s.blockingKeys
  return unlinked s c b queues

/-! ## Serving -/

/-- The pop of `BLPOP` or `BRPOP` from the list object. -/
def popOne (s : Server δ κ ε γ) (db : δ) (k : κ) (side : Side) : Outcome (ε × Server δ κ ε γ) := do
  let xs ← listAt s db k
  match listPop side xs with
  | none => .error .assertion
  | some (x, rest) => return (x, setVal s db k (some (.list rest)))

/-- Serve one client on a key that holds a list: the new state, whether the key is deleted,
and the reply. -/
def serveClientBlockedOnList (s : Server δ κ ε γ) (b : Bpop δ κ) (db : δ) (key : κ) :
    Outcome ((Server δ κ ε γ × Bool) × Reply κ ε) :=
  match b.wait with
  | .mpop side count => do
    check (0 < count)
    let xs ← listAt s db key
    check (0 < xs.length)
    let range := listPopRange side (min count xs.length) xs
    let r ← deleteIfEmpty (setVal s db key (some (.list range.2))) db b.db key
    return (r, .popped key range.1)
  | .pop side => do
    let (x, s) ← popOne s db key side
    let r ← deleteIfEmpty s db b.db key
    return (r, .popped key [x])
  | .move target wherefrom whereto => do
    let dstobj := s.dict b.db target
    if dstobj.any (fun v => !v.isList) then
      let r ← deleteIfEmpty s db b.db key
      return (r, .wrongType)
    else
      let (x, s) ← popOne s db key wherefrom
      let s ← lmoveHandlePush s b.db target dstobj.isSome x whereto
      let r ← deleteIfEmpty s db b.db key
      return (r, .moved x)

/-- The loop over the clients of a key, from the first blocked to the last. The iterator holds
the node after the current one, which must still be linked when its turn comes. -/
def serveLoop (db : δ) (key : κ) : List γ → Server δ κ ε γ → Outcome (Server δ κ ε γ)
  | [], s => .ok s
  | c :: cs, s =>
    if c ∉ s.blockingKeys db key then .error .memory
    else
      match s.bpop c with
      | none => serveLoop db key cs s
      | some b => do
        let r ← serveClientBlockedOnList s b db key
        let s' ← unblockClient r.1.1 c b
        let s' := { s' with served := ⟨c, db, key, r.2⟩ :: s'.served }
        if r.1.2 then return s' else serveLoop db key cs s'

def serveClientsBlockedOnListKey (s : Server δ κ ε γ) (db : δ) (key : κ) :
    Outcome (Server δ κ ε γ) :=
  if s.blockedLists = 0 then .ok s else serveLoop db key (s.blockingKeys db key) s

/-- The clients of a key are served by the type of its value; there are no others than those
that wait for a list. -/
def serveKey (s : Server δ κ ε γ) (db : δ) (k : κ) : Outcome (Server δ κ ε γ) :=
  match s.dict db k with
  | some (.list _) => serveClientsBlockedOnListKey s db k
  | _ => .ok s

/-- The loop over the keys of one round. -/
def serveReady : List (δ × κ) → Server δ κ ε γ → Outcome (Server δ κ ε γ)
  | [], s => .ok s
  | (db, k) :: rest, s => do
    let s ← serveKey { s with dbReadyKeys := set₂ s.dbReadyKeys db k false } db k
    serveReady rest s

/-- The rounds: while there are ready keys, they are taken off and served. -/
def handleRounds : Nat → Server δ κ ε γ → Outcome (Server δ κ ε γ)
  | 0, s => if s.readyKeys = [] then .ok s else .error .loop
  | n + 1, s =>
    if s.readyKeys = [] then .ok s
    else do
      let s ← serveReady s.readyKeys { s with readyKeys := [] }
      handleRounds n s

/-- A round that signals a key has served a client, so there is at most one round more than
there are clients. -/
def handleClientsBlockedOnKeys (s : Server δ κ ε γ) : Outcome (Server δ κ ε γ) :=
  handleRounds (s.blockedLists + 1) s

/-! ## Commands -/

inductive Command (δ κ ε γ : Type) where
  /-- `LPUSH`, `RPUSH` and, with `xx`, `LPUSHX` and `RPUSHX`. -/
  | push (db : δ) (k : κ) (side : Side) (xx : Bool) (x : ε) (xs : List ε)
  | pop (db : δ) (k : κ) (side : Side) (count : Option Nat)
  | lmove (db : δ) (src dst : κ) (wherefrom whereto : Side)
  | set (db : δ) (k : κ)
  /-- `DEL`, or a key that expires or is evicted. -/
  | del (db : δ) (k : κ)
  | rename (db : δ) (k newkey : κ) (nx : Bool)
  | move (db : δ) (k : κ) (dst : δ)
  | copy (db : δ) (k : κ) (dst : δ) (newkey : κ) (replace : Bool)
  /-- `RESTORE` of a value; with `expired` its time to live is over. -/
  | restore (db : δ) (k : κ) (v : Value ε) (replace expired : Bool)
  /-- `SORT` with `STORE`, given what was sorted. -/
  | sortStore (db : δ) (storekey : κ) (output : List ε)
  /-- `SWAPDB`, given the orders in which the iterators find the entries. -/
  | swapdb (db₁ db₂ : δ) (order₁ order₂ : List κ)
  /-- `BLPOP`, `BRPOP` and, with a count, `BLMPOP`. -/
  | blockingPop (c : γ) (db : δ) (k : κ) (ks : List κ) (side : Side) (count : Option Nat)
  /-- `BLMOVE` and `BRPOPLPUSH`. -/
  | blmove (c : γ) (db : δ) (src dst : κ) (wherefrom whereto : Side)
  /-- The client times out, is unblocked or is gone. -/
  | unblock (c : γ)

def pushGenericCommand (s : Server δ κ ε γ) (db : δ) (k : κ) (side : Side) (xx : Bool)
    (xs : List ε) : Outcome (Server δ κ ε γ) :=
  match s.dict db k with
  | some (.list ys) => .ok (setVal s db k (some (.list (xs.foldl (fun l x => listPush side x l) ys))))
  | some _ => .ok s
  | none =>
    if xx then .ok s
    else do
      let s ← dbAdd s db k (.list [])
      return setVal s db k (some (.list (xs.foldl (fun l x => listPush side x l) [])))

/-- A pop of one element or of a range, with the deletion of an empty list. -/
def popElements (s : Server δ κ ε γ) (db : δ) (k : κ) (side : Side) (count : Option Nat) :
    Outcome (Server δ κ ε γ) :=
  match count with
  | none => do
    let r ← popOne s db k side
    let r ← deleteIfEmpty r.2 db db k
    return r.1
  | some n => do
    let xs ← listAt s db k
    let range := listPopRange side (min n xs.length) xs
    let r ← deleteIfEmpty (setVal s db k (some (.list range.2))) db db k
    return r.1

def popGenericCommand (s : Server δ κ ε γ) (db : δ) (k : κ) (side : Side)
    (count : Option Nat) : Outcome (Server δ κ ε γ) :=
  match s.dict db k with
  | some (.list _) => if count = some 0 then .ok s else popElements s db k side count
  | _ => .ok s

def lmoveGenericCommand (s : Server δ κ ε γ) (db : δ) (src dst : κ) (wherefrom whereto : Side) :
    Outcome (Server δ κ ε γ) :=
  match s.dict db src with
  | some (.list xs) =>
    let dobj := s.dict db dst
    if xs.isEmpty then .ok s
    else if dobj.any (fun v => !v.isList) then .ok s
    else do
      let r ← popOne s db src wherefrom
      let s ← lmoveHandlePush r.2 db dst dobj.isSome r.1 whereto
      let r ← deleteIfEmpty s db db src
      return r.1
  | _ => .ok s

def renameGenericCommand (s : Server δ κ ε γ) (db : δ) (k newkey : κ) (nx : Bool) :
    Outcome (Server δ κ ε γ) :=
  match s.dict db k with
  | none => .ok s
  | some o =>
    if k = newkey then .ok s
    else if (s.dict db newkey).isSome && nx then .ok s
    else do
      let s := if (s.dict db newkey).isSome then dbDelete s db newkey else s
      let s ← dbAdd s db newkey o
      return dbDelete s db k

def moveCommand (s : Server δ κ ε γ) (db : δ) (k : κ) (dst : δ) : Outcome (Server δ κ ε γ) :=
  if db = dst then .ok s
  else
    match s.dict db k with
    | none => .ok s
    | some o =>
      if (s.dict dst k).isSome then .ok s
      else do
        let s ← dbAdd s dst k o
        return dbDelete s db k

def copyCommand (s : Server δ κ ε γ) (db : δ) (k : κ) (dst : δ) (newkey : κ) (replace : Bool) :
    Outcome (Server δ κ ε γ) :=
  if db = dst ∧ k = newkey then .ok s
  else
    match s.dict db k with
    | none => .ok s
    | some o =>
      if (s.dict dst newkey).isSome && !replace then .ok s
      else
        dbAdd (if (s.dict dst newkey).isSome then dbDelete s dst newkey else s) dst newkey o

/-- A payload with an empty list is bad data. -/
def restoreCommand (s : Server δ κ ε γ) (db : δ) (k : κ) (v : Value ε)
    (replace expired : Bool) : Outcome (Server δ κ ε γ) :=
  if !replace && (s.dict db k).isSome then .ok s
  else
    match v with
    | .list [] => .ok s
    | v =>
      let s := if replace then dbDelete s db k else s
      if expired then .ok s else dbAdd s db k v

/-- The end of `sortCommandGeneric`. -/
def sortStore (s : Server δ κ ε γ) (db : δ) (storekey : κ) (output : List ε) :
    Outcome (Server δ κ ε γ) :=
  if output.isEmpty then .ok (dbDelete s db storekey) else setKey s db storekey (.list output)

def scanDatabaseForReadyKeys (db : δ) : List κ → Server δ κ ε γ → Server δ κ ε γ
  | [], s => s
  | k :: ks, s =>
    match s.dict db k with
    | some v => scanDatabaseForReadyKeys db ks (signalKeyAsReady s db k v)
    | none => scanDatabaseForReadyKeys db ks s

/-- An iterator finds all entries, in some order. -/
def iteratorOrder (entries order : List κ) : List κ :=
  if order.isPerm entries then order else entries

def dbSwapDatabases (s : Server δ κ ε γ) (db₁ db₂ : δ) (order₁ order₂ : List κ) : Server δ κ ε γ :=
  if db₁ = db₂ then s
  else
    let s := { s with
      dict := update (update s.dict db₁ (s.dict db₂)) db₂ (s.dict db₁) }
    let s := scanDatabaseForReadyKeys db₁ (iteratorOrder (s.blockingEntries db₁) order₁) s
    scanDatabaseForReadyKeys db₂ (iteratorOrder (s.blockingEntries db₂) order₂) s

/-- The first key with something to pop; `none` if the client must block. -/
def blockingPopLoop (s : Server δ κ ε γ) (db : δ) (side : Side) (count : Option Nat) :
    List κ → Outcome (Option (Server δ κ ε γ))
  | [] => .ok none
  | k :: ks =>
    match s.dict db k with
    | none => blockingPopLoop s db side count ks
    | some (.list xs) =>
      if xs.isEmpty then blockingPopLoop s db side count ks
      else (popElements s db k side count).map some
    | some _ => .ok (some s)

/-- A client in a transaction must not block. -/
def blockingPopGenericCommand (s : Server δ κ ε γ) (denyBlocking : Bool) (c : γ) (db : δ)
    (keys : List κ) (side : Side) (count : Option Nat) : Outcome (Server δ κ ε γ) :=
  if count = some 0 then .ok s
  else do
    match ← blockingPopLoop s db side count keys with
    | some s => return s
    | none =>
      if denyBlocking then return s
      else
        return blockForKeys s c db keys (count.elim (.pop side) (.mpop side))

def blmoveGenericCommand (s : Server δ κ ε γ) (denyBlocking : Bool) (c : γ) (db : δ)
    (src dst : κ) (wherefrom whereto : Side) : Outcome (Server δ κ ε γ) :=
  match s.dict db src with
  | none =>
    if denyBlocking then .ok s
    else .ok (blockForKeys s c db [src] (.move dst wherefrom whereto))
  | some (.list xs) => do
    check (0 < xs.length)
    lmoveGenericCommand s db src dst wherefrom whereto
  | some _ => .ok s

end Redis.Blocked.Model
