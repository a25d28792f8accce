import Redis.Lib.Outcome

/-! # Transactions: multi.c

A `watchedKey` is in two lists: the one of its client and the one of its key in
the database. Both hold the address of one cell, so a flag set through one list
is seen through the other, and a cell that was freed is a fault to look at. -/
namespace Redis.Multi.Model
open Lib

variable {K V : Type}

/-! ## The server -/

structure WatchedKey (K : Type) where
  key : K
  db : Nat
  client : Nat
  expired : Bool
deriving DecidableEq, Repr

/-- A value with its entry in the dict `expires`. -/
structure Stored (V : Type) where
  value : V
  expire : Option Nat
deriving DecidableEq, Repr

/-- `redisDb`. The dict `watched_keys` maps keys to lists of watched keys; it is
the list of its pairs, and a key without a pair has no list. -/
structure RedisDb (K V : Type) where
  dict : K → Option (Stored V)
  watchedKeys : List (K × Nat)

/-- The flags, the selected database and the watched keys of a client. -/
structure Client where
  multi : Bool
  dirtyCas : Bool
  dirtyExec : Bool
  db : Nat
  watchedKeys : List Nat
deriving DecidableEq, Repr

structure Server (K V : Type) where
  db : Nat → RedisDb K V
  dbnum : Nat
  clients : Nat → Client
  watched : Nat → Option (WatchedKey K)
  fresh : Nat
  now : Nat

def Server.setClient (s : Server K V) (c : Nat) (f : Client → Client) : Server K V :=
  { s with clients := fun x => if x = c then f (s.clients x) else s.clients x }

def Server.setDb (s : Server K V) (d : Nat) (f : RedisDb K V → RedisDb K V) : Server K V :=
  { s with db := fun x => if x = d then f (s.db x) else s.db x }

def Server.setWatched (s : Server K V) (id : Nat) (wk : Option (WatchedKey K)) : Server K V :=
  { s with watched := fun x => if x = id then wk else s.watched x }

def Server.watchedKey (s : Server K V) (id : Nat) : Outcome (WatchedKey K) :=
  match s.watched id with
  | some wk => .ok wk
  | none => .error .memory

/-! ## Keys -/

def keyIsExpired (s : Server K V) (d : Nat) (key : K) : Bool :=
  match (s.db d).dict key with
  | some ⟨_, some when⟩ => when < s.now
  | _ => false

section
variable [DecidableEq K]

def setDict (s : Server K V) (d : Nat) (key : K) (e : Option (Stored V)) : Server K V :=
  s.setDb d fun db => { db with dict := fun k => if k = key then e else db.dict k }

/-! ## Watching -/

/-- `dictFetchValue(db->watched_keys, key)`. -/
def clientsOf (s : Server K V) (d : Nat) (key : K) : List Nat :=
  ((s.db d).watchedKeys.filter (·.1 = key)).map Prod.snd

/-- One turn of `unwatchAllKeys`. -/
def unwatchKey (c : Nat) (s : Server K V) (id : Nat) : Outcome (Server K V) := do
  let wk ← s.watchedKey id
  let clients := clientsOf s wk.db wk.key
  check (clients ≠ [])
  if id ∈ clients then
    let s := s.setDb wk.db fun db => { db with watchedKeys := db.watchedKeys.erase (wk.key, id) }
    let s := s.setClient c fun client => { client with watchedKeys := client.watchedKeys.erase id }
    .ok (s.setWatched id none)
  else .error .null

def unwatchAllKeys (s : Server K V) (c : Nat) : Outcome (Server K V) :=
  (s.clients c).watchedKeys.foldlM (unwatchKey c) s

/-- The loop that looks for the key among the keys watched by the client. -/
def alreadyWatched (s : Server K V) (d : Nat) (key : K) : List Nat → Outcome Bool
  | [] => .ok false
  | id :: ids => do
    let wk ← s.watchedKey id
    if wk.db = d ∧ wk.key = key then .ok true else alreadyWatched s d key ids

def watchForKey (c : Nat) (s : Server K V) (key : K) : Outcome (Server K V) := do
  let d := (s.clients c).db
  if ← alreadyWatched s d key (s.clients c).watchedKeys then .ok s
  else
    let id := s.fresh
    let wk := ⟨key, d, c, keyIsExpired s d key⟩
    let s := s.setClient c fun client => { client with watchedKeys := client.watchedKeys ++ [id] }
    let s := s.setDb d fun db => { db with watchedKeys := db.watchedKeys ++ [(key, id)] }
    .ok { s.setWatched id (some wk) with fresh := s.fresh + 1 }

/-- The loop of `isWatchedKeyExpired`. -/
def anyExpired (s : Server K V) : List Nat → Outcome Bool
  | [] => .ok false
  | id :: ids => do
    let wk ← s.watchedKey id
    if wk.expired then anyExpired s ids
    else if keyIsExpired s wk.db wk.key then .ok true
    else anyExpired s ids

def isWatchedKeyExpired (s : Server K V) (c : Nat) : Outcome Bool :=
  anyExpired s (s.clients c).watchedKeys

/-! ## Touching -/

def setDirtyCas (s : Server K V) (c : Nat) : Server K V :=
  s.setClient c fun client => { client with dirtyCas := true }

def setExpired (s : Server K V) (id : Nat) (wk : WatchedKey K) (expired : Bool) : Server K V :=
  s.setWatched id (some { wk with expired })

/-- The loop of `touchWatchedKey` over the rest of the list. -/
def touchLoop (d : Nat) (key : K) : List Nat → Server K V → Outcome (Server K V)
  | [], s => .ok s
  | id :: ids, s => do
    let wk ← s.watchedKey id
    if wk.expired then
      if d = wk.db ∧ key = wk.key ∧ (s.db d).dict key = none then
        touchLoop d key ids (setExpired s id wk false)
      else .ok s -- `break`
    else do
      let s ← unwatchAllKeys (setDirtyCas s wk.client) wk.client
      touchLoop d key ids s

def touchWatchedKey (s : Server K V) (d : Nat) (key : K) : Outcome (Server K V) :=
  touchLoop d key (clientsOf s d key) s

/-- One watched key of `touchAllWatchedKeysInDb`. -/
def touchEntry (emptied : Nat) (replacedWith : Option Nat) (s : Server K V) (entry : K × Nat) :
    Outcome (Server K V) := do
  let (key, id) := entry
  let existsInEmptied := ((s.db emptied).dict key).isSome
  let existsInReplaced := replacedWith.any fun r => ((s.db r).dict key).isSome
  let expiredInReplaced := replacedWith.any fun r => keyIsExpired s r key
  if existsInEmptied || existsInReplaced then do
    let wk ← s.watchedKey id
    if wk.expired then
      if !existsInReplaced then .ok (setExpired s id wk false)
      else if expiredInReplaced then .ok s
      else .ok (setDirtyCas s wk.client)
    else if !existsInEmptied && expiredInReplaced then .ok (setExpired s id wk true)
    else .ok (setDirtyCas s wk.client)
  else .ok s

def touchAllWatchedKeysInDb (emptied : Nat) (replacedWith : Option Nat) (s : Server K V) :
    Outcome (Server K V) :=
  (s.db emptied).watchedKeys.foldlM (touchEntry emptied replacedWith) s

/-! ## Commands -/

def discardTransaction (s : Server K V) (c : Nat) : Outcome (Server K V) :=
  unwatchAllKeys (s.setClient c fun client =>
    { client with multi := false, dirtyCas := false, dirtyExec := false }) c

/-- `execCommand` up to the queued commands: the server, and whether they are
run. They see no watched key of this client any more. -/
def execCommand (s : Server K V) (c : Nat) : Outcome (Server K V × Bool) :=
  if (s.clients c).multi then do
    let s := if ← isWatchedKeyExpired s c then setDirtyCas s c else s
    if (s.clients c).dirtyCas || (s.clients c).dirtyExec then do
      let s ← discardTransaction s c
      .ok (s, false)
    else do
      let s ← unwatchAllKeys s c
      let s ← discardTransaction s c
      .ok (s, true)
  else .ok (s, false)

def watchCommand (s : Server K V) (c : Nat) (keys : List K) : Outcome (Server K V) :=
  if (s.clients c).multi then .ok s
  else if (s.clients c).dirtyCas then .ok s
  else keys.foldlM (watchForKey c) s

def unwatchCommand (s : Server K V) (c : Nat) : Outcome (Server K V) := do
  let s ← unwatchAllKeys s c
  .ok (s.setClient c fun client => { client with dirtyCas := false })

def multiCommand (s : Server K V) (c : Nat) : Server K V :=
  s.setClient c fun client => { client with multi := true }

def discardCommand (s : Server K V) (c : Nat) : Outcome (Server K V) :=
  if (s.clients c).multi then discardTransaction s c else .ok s

def flagTransaction (s : Server K V) (c : Nat) : Server K V :=
  s.setClient c fun client => { client with dirtyExec := client.dirtyExec || client.multi }

/-- `freeClient`; the next client at this address is a new one. -/
def freeClient (s : Server K V) (c : Nat) : Outcome (Server K V) := do
  let s ← unwatchAllKeys s c
  .ok (s.setClient c fun client => ⟨false, false, false, 0, client.watchedKeys⟩)

/-! ## Changes of the data -/

/-- `deleteExpiredKeyAndPropagate`. -/
def deleteExpiredKey (s : Server K V) (d : Nat) (key : K) : Outcome (Server K V) :=
  touchWatchedKey (setDict s d key none) d key

/-- `expireIfNeeded` of a master, as called by the lookups of a key. -/
def expireIfNeeded (s : Server K V) (d : Nat) (key : K) : Outcome (Server K V) :=
  if keyIsExpired s d key then deleteExpiredKey s d key else .ok s

/-- A command that opens the key for writing, gives it a new value or takes it
away, and signals the key. -/
def writeKey (s : Server K V) (d : Nat) (key : K) (new : Option (Stored V)) : Outcome (Server K V) := do
  let s ← expireIfNeeded s d key
  touchWatchedKey (setDict s d key new) d key

/-- `delGenericCommand` for one key. -/
def delKey (s : Server K V) (d : Nat) (key : K) : Outcome (Server K V) := do
  let s ← expireIfNeeded s d key
  if ((s.db d).dict key).isSome then touchWatchedKey (setDict s d key none) d key else .ok s

/-- `RESTORE` with `REPLACE`: the old value goes without a look at its expire
time. A value that has expired already is not stored. -/
def restoreReplace (s : Server K V) (d : Nat) (key : K) (value : V) (ttl : Option Nat) :
    Outcome (Server K V) :=
  if ttl.any (· ≤ s.now) then
    if ((s.db d).dict key).isSome then touchWatchedKey (setDict s d key none) d key else .ok s
  else touchWatchedKey (setDict s d key (some ⟨value, ttl⟩)) d key

/-- XSETID, XACK, XCLAIM, XAUTOCLAIM, XREADGROUP and most forms of XGROUP: the stream they look
up changes, and `signalModifiedKey` is not called. -/
def changeStream (s : Server K V) (d : Nat) (key : K) (f : V → V) : Outcome (Server K V) :=
  if keyIsExpired s d key then deleteExpiredKey s d key
  else .ok (setDict s d key (((s.db d).dict key).map fun e => { e with value := f e.value }))

/-- `delKeysInSlot` for one key of a slot that the node lost; it does not signal the key. -/
def delKeysInSlot (s : Server K V) (key : K) : Server K V := setDict s 0 key none

def emptyDb (s : Server K V) (d : Nat) : Server K V :=
  s.setDb d fun db => { db with dict := fun _ => none }

/-- `emptyData` for these databases: all are touched before any is emptied. -/
def emptyData (s : Server K V) (dbs : List Nat) : Outcome (Server K V) := do
  let s ← dbs.foldlM (fun s d => touchAllWatchedKeysInDb d none s) s
  .ok (dbs.foldl emptyDb s)

def dbSwapDatabases (s : Server K V) (a b : Nat) : Outcome (Server K V) :=
  if s.dbnum ≤ a ∨ s.dbnum ≤ b ∨ a = b then .ok s
  else do
    let s ← touchAllWatchedKeysInDb a (some b) s
    let s ← touchAllWatchedKeysInDb b (some a) s
    let dictA := (s.db a).dict
    let dictB := (s.db b).dict
    .ok ((s.setDb a fun db => { db with dict := dictB }).setDb b fun db => { db with dict := dictA })

/-! ## Steps -/

/-- What clients and the clock do. The commands of a transaction follow its
`exec` as operations of their own. -/
inductive Op (K V : Type) where
  | select (c d : Nat)
  | watch (c : Nat) (keys : List K)
  | unwatch (c : Nat)
  | multi (c : Nat)
  | queueError (c : Nat)
  | discard (c : Nat)
  | exec (c : Nat)
  | free (c : Nat)
  | write (c : Nat) (key : K) (new : Option (Stored V))
  | del (c : Nat) (key : K)
  | restoreReplace (c : Nat) (key : K) (value : V) (ttl : Option Nat)
  | changeStream (c : Nat) (key : K) (f : V → V)
  | delKeysInSlot (key : K)
  | flushdb (c : Nat)
  | flushall
  | swapdb (a b : Nat)
  | expire (d : Nat) (key : K)
  | tick (n : Nat)

/-- One operation; the flag tells that an `exec` went on to its commands. -/
def step (op : Op K V) (s : Server K V) : Outcome (Server K V × Bool) :=
  let quiet (o : Outcome (Server K V)) : Outcome (Server K V × Bool) := o.map fun s => (s, false)
  match op with
  | .select c d => quiet (.ok (if d < s.dbnum then s.setClient c fun client => { client with db := d } else s))
  | .watch c keys => quiet (watchCommand s c keys)
  | .unwatch c => quiet (unwatchCommand s c)
  | .multi c => quiet (.ok (multiCommand s c))
  | .queueError c => quiet (.ok (flagTransaction s c))
  | .discard c => quiet (discardCommand s c)
  | .exec c => execCommand s c
  | .free c => quiet (freeClient s c)
  | .write c key new => quiet (writeKey s (s.clients c).db key new)
  | .del c key => quiet (delKey s (s.clients c).db key)
  | .restoreReplace c key value ttl => quiet (restoreReplace s (s.clients c).db key value ttl)
  | .changeStream c key f => quiet (changeStream s (s.clients c).db key f)
  | .delKeysInSlot key => quiet (.ok (delKeysInSlot s key))
  | .flushdb c => quiet (emptyData s [(s.clients c).db])
  | .flushall => quiet (emptyData s (List.range s.dbnum))
  | .swapdb a b => quiet (dbSwapDatabases s a b)
  | .expire d key => quiet (expireIfNeeded s d key)
  | .tick n => quiet (.ok { s with now := s.now + n })

/-- A server without clients that watch anything, with any data. -/
def start (dbnum : Nat) (data : Nat → K → Option (Stored V)) (now : Nat) : Server K V :=
  ⟨fun d => ⟨data d, []⟩, dbnum, fun _ => ⟨false, false, false, 0, []⟩, fun _ => none, 0, now⟩

end

end Redis.Multi.Model
