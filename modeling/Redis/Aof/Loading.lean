import Redis.Util.Stdlib
import Redis.Networking.Encoders

/-! # Loading an append-only file

`loadSingleAppendOnlyFile` reads commands from the file and runs them in a fake client. It
remembers how far they reach, now and before the last MULTI, and cuts the file there if it ends
too early. -/
namespace Redis.Aof.Loading
open Lib Util.Numbers Util.Stdlib

/-! ## Reading -/

def aofAnnotationLineMaxLen : Nat := 1024

/-- Why reading stops: `readerr` with and without the end of the file, `fmterr`, and an
argument length that is negative and cannot be allocated. -/
inductive ReadError where
  | unexpectedEof
  | unrecoverable
  | format
  | memory
  deriving DecidableEq, Repr

/-- `atoi`, which takes the low 32 bits. -/
def atoi (s : Bytes) : Int := (atoll s).bmod (2 ^ 32)

/-- One argument and what follows it. The two bytes behind it are not looked at. -/
def readArg (stream : Bytes) : Except ReadError (Bytes × Bytes) :=
  match fgets aofAnnotationLineMaxLen stream with
  | none => .error .unexpectedEof
  | some (buf, stream) =>
    if buf.head? ≠ some 36 then .error .format
    else
      let len := atoll (cstr (buf.drop 1))
      if len < 0 then .error .memory
      else if stream.length < len.toNat then .error .unexpectedEof
      else if (stream.drop len.toNat).length < 2 then .error .unexpectedEof
      else .ok (stream.take len.toNat, (stream.drop len.toNat).drop 2)

def readArgs : Nat → Bytes → Except ReadError (List Bytes × Bytes)
  | 0, stream => .ok ([], stream)
  | argc + 1, stream => do
    let (arg, stream) ← readArg stream
    let (args, stream) ← readArgs argc stream
    .ok (arg :: args, stream)

/-- What the file goes on with. -/
inductive Next where
  | eof
  | timestamp (stream : Bytes)
  | command (argv : List Bytes) (stream : Bytes)
  | stop (e : ReadError)
  deriving DecidableEq, Repr

def feofAfter (buf stream : Bytes) : Bool :=
  stream = [] ∧ newline ∉ buf ∧ buf.length < aofAnnotationLineMaxLen - 1

def readCommand (argc : Int) (stream : Bytes) : Next :=
  if argc < 1 then .stop .format
  else
    match readArgs argc.toNat stream with
    | .error e => .stop e
    | .ok (argv, stream) => .command argv stream

def readNext (stream : Bytes) : Next :=
  match fgets aofAnnotationLineMaxLen stream with
  | none => .eof
  | some (buf, stream) =>
    if buf.head? = some 35 then .timestamp stream
    else if buf.head? ≠ some 42 then .stop .format
    else if (buf.drop 1).headD 0 = 0 then
      .stop (if feofAfter buf stream then .unexpectedEof else .unrecoverable)
    else readCommand (atoi (cstr (buf.drop 1))) stream

/-! ## The fake client -/

/-- What the loader has to know of a command. The others work on the dataset only. -/
inductive CommandKind where
  | multi
  | exec
  | other
  deriving DecidableEq, Repr

def multiName : Bytes := text ['M', 'U', 'L', 'T', 'I']
def execName : Bytes := text ['E', 'X', 'E', 'C']

def lookupCommand (known : List Bytes → Bool) (argv : List Bytes) : Option CommandKind :=
  if strcaseeq (argv.headD []) multiName then some .multi
  else if strcaseeq (argv.headD []) execName then some .exec
  else if known argv then some .other
  else none

/-- The dataset, the commands queued since MULTI, and the two remembered offsets. -/
structure Client (δ : Type) where
  db : δ
  queue : Option (List (List Bytes))
  validUpTo : Nat
  validBeforeMulti : Nat

section
variable {δ : Type} (known : List Bytes → Bool) (proc : List Bytes → δ → δ)

/-- The commands of a transaction. A MULTI among them only gets an error reply. -/
def runQueued (queued : List (List Bytes)) (db : δ) : δ :=
  queued.foldl (fun db argv => if lookupCommand known argv = some .multi then db else proc argv db)
    db

/-- Queue a command, or run it. EXEC without MULTI gets an error reply. -/
def runCommand (kind : CommandKind) (argv : List Bytes) (c : Client δ) : Client δ :=
  match c.queue, kind with
  | some queued, .exec => { c with db := runQueued known proc queued c.db, queue := none }
  | some queued, _ => { c with queue := some (queued ++ [argv]) }
  | none, .multi => { c with queue := some [] }
  | none, .exec => c
  | none, .other => { c with db := proc argv c.db }

/-- A command that was found, with the offset behind it. -/
def loadCommand (aofLoadTruncated : Bool) (kind : CommandKind) (argv : List Bytes) (offset : Nat)
    (c : Client δ) : Client δ :=
  let c := if kind = .multi then { c with validBeforeMulti := c.validUpTo } else c
  let c := runCommand known proc kind argv c
  if aofLoadTruncated then { c with validUpTo := offset } else c

/-! ## The loop -/

inductive Status where
  | ok
  | truncated
  | empty
  | failed
  deriving DecidableEq, Repr

/-- What a load returns, and the dataset and the file it leaves. -/
structure Loaded (δ : Type) where
  status : Status
  db : δ
  file : Bytes

/-- The part behind the label `uxeof`, with a `truncate` that succeeds. -/
def unexpectedEnd (aofLoadTruncated : Bool) (content : Bytes) (db : δ) (validUpTo : Nat) :
    Loaded δ :=
  if aofLoadTruncated then ⟨.truncated, db, content.take validUpTo⟩ else ⟨.failed, db, content⟩

/-- The end of the file between two commands. -/
def cleanEnd (aofLoadTruncated : Bool) (content : Bytes) (c : Client δ) : Loaded δ :=
  if c.queue.isSome then unexpectedEnd aofLoadTruncated content c.db c.validBeforeMulti
  else ⟨.ok, c.db, content⟩

def loadLoop (aofLoadTruncated : Bool) (content : Bytes) :
    (rounds : Nat) → Bytes → Client δ → Loaded δ
  | 0, _, c => ⟨.failed, c.db, content⟩
  | rounds + 1, stream, c =>
    match readNext stream with
    | .eof => cleanEnd aofLoadTruncated content c
    | .timestamp stream => loadLoop aofLoadTruncated content rounds stream c
    | .stop .unexpectedEof => unexpectedEnd aofLoadTruncated content c.db c.validUpTo
    | .stop _ => ⟨.failed, c.db, content⟩
    | .command argv stream =>
      match lookupCommand known argv with
      | none => ⟨.failed, c.db, content⟩
      | some kind => loadLoop aofLoadTruncated content rounds stream
          (loadCommand known proc aofLoadTruncated kind argv (content.length - stream.length) c)

def rdbSignature : Bytes := text ['R', 'E', 'D', 'I', 'S']

/-- A file in RDB format is read by `rdbLoadRio`, which gives the dataset and how much
of the file it took, or fails, at the end of the file or before. -/
def loadSingleAppendOnlyFile (rdbLoadRio : Bytes → δ → Except Bool (δ × Nat))
    (aofLoadTruncated : Bool) (content : Bytes) (db : δ) : Loaded δ :=
  if content = [] then ⟨.empty, db, content⟩
  else if content.take 5 = rdbSignature then
    match rdbLoadRio content db with
    | .error true => unexpectedEnd aofLoadTruncated content db 0
    | .error false => ⟨.failed, db, content⟩
    | .ok (db, taken) => loadLoop known proc aofLoadTruncated content (content.length + 1)
        (content.drop taken) ⟨db, none, 0, 0⟩
  else loadLoop known proc aofLoadTruncated content (content.length + 1) content ⟨db, none, 0, 0⟩

end

end Redis.Aof.Loading
