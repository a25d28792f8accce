import Redis.Lib.Calls
import Redis.Aof.Manifest

/-! # Rewriting the append-only files

A rewrite first opens a new INCR file, which keeps what is appended from then on apart from the
new BASE file of the child. The files in use change in three steps: the new file appears in the
directory, a new manifest is renamed over the old one and the files no longer needed are
deleted. Every system call may fail. -/
namespace Redis.Aof.Rewrite
open Lib Lib.Decimal Util.Numbers Util.Stdlib Manifest

/-! ## The disk -/

inductive Dir where
  | aof
  | work
  deriving DecidableEq, Repr

structure Path where
  dir : Dir
  name : Bytes
  deriving DecidableEq, Repr

/-- What is in a file: a dataset as the child writes it, the bytes of commands, the lines
of a manifest, or something that was not written to its end. -/
inductive Content (δ : Type) where
  | snapshot (db : δ)
  | log (bytes : Bytes)
  | manifest (es : List AofInfo)
  | torn
  deriving DecidableEq, Repr

/-- The files, and all the bytes that were ever written through `aof_fd`. -/
structure Disk (δ : Type) where
  files : Path → Option (Content δ)
  written : Bytes

def Disk.set {δ : Type} (d : Disk δ) (path : Path) (content : Option (Content δ)) : Disk δ :=
  { d with files := fun p => if p = path then content else d.files p }

inductive Call (δ : Type) where
  /-- `open` with `O_TRUNC|O_CREAT`. -/
  | openTrunc (path : Path)
  /-- The loop around `write` for the text of a manifest. -/
  | writeManifest (path : Path) (es : List AofInfo)
  /-- `aofWrite` on the file that `aof_fd` refers to. -/
  | append (path : Path) (bytes : Bytes)
  | ftruncate (path : Path) (len : Nat)
  | fsync (path : Path)
  | fsyncDir
  | rename (src dst : Path)
  | unlink (path : Path)
  | mkdir
  | fork
  /-- The child writes a file and exits. -/
  | child (path : Path) (db : δ)

/-- A failed write may have written some bytes. -/
inductive Result where
  | ok
  | fail (n : Nat)
  deriving DecidableEq, Repr

section
variable {δ : Type}

def Result.taken (bytes : Bytes) : Result → Bytes
  | .ok => bytes
  | .fail n => bytes.take n

def appendTo (d : Disk δ) (path : Path) (bytes : Bytes) : Disk δ :=
  match d.files path with
  | some (.log old) =>
    { d.set path (some (.log (old ++ bytes))) with written := d.written ++ bytes }
  | _ => d

/-- The bytes that are cut off count as not written. -/
def truncateTo (d : Disk δ) (path : Path) (len : Nat) : Disk δ :=
  match d.files path with
  | some (.log old) =>
    { d.set path (some (.log (old.take len))) with
      written := d.written.take (d.written.length - (old.length - len)) }
  | _ => d

def renameTo (d : Disk δ) (src dst : Path) : Disk δ :=
  match d.files src with
  | some content => (d.set src none).set dst (some content)
  | none => d

def effect : Call δ → Result → Disk δ → Disk δ
  | .openTrunc path, .ok, d => d.set path (some (.log []))
  | .writeManifest path es, .ok, d => d.set path (some (.manifest es))
  | .writeManifest path _, .fail _, d => d.set path (some .torn)
  | .append path bytes, r, d => appendTo d path (r.taken bytes)
  | .ftruncate path len, .ok, d => truncateTo d path len
  | .rename src dst, .ok, d => renameTo d src dst
  | .unlink path, .ok, d => d.set path none
  | .child path db, .ok, d => d.set path (some (.snapshot db))
  | .child path _, .fail _, d => d.set path (some .torn)
  | _, _, d => d

/-- The results a call can return: a file that is not there cannot be renamed, and the
child that wrote its file has succeeded. -/
def returned : Call δ → Result → Disk δ → Bool
  | .rename src _, .ok, d => (d.files src).isSome
  | .append _ bytes, .fail n, _ => n < bytes.length
  | .child _ _, .fail _, _ => false
  | _, _, _ => true

end

/-! ## The server -/

structure Config where
  aofFilename : Bytes
  aofUseRdbPreamble : Bool
  aofDisableAutoGc : Bool
  aofFsyncAlways : Bool
  deriving DecidableEq, Repr

inductive AofState where
  | off
  | on
  | waitRewrite
  deriving DecidableEq, Repr

structure Child (δ : Type) where
  pid : Nat
  db : δ

structure Server (δ : Type) where
  data : δ
  aofManifest : AofManifest
  aofState : AofState
  /-- The file `aof_fd` refers to. -/
  aofFd : Option Path
  aofBuf : Bytes
  aofLastIncrSize : Nat
  aofSelectedDb : Option Nat
  child : Option (Child δ)
  aofRewriteScheduled : Bool

def aofPath (name : Bytes) : Path := ⟨.aof, name⟩

def getAofManifestFileName (cfg : Config) : Bytes := cfg.aofFilename ++ manifestNameSuffix

def getTempAofManifestFileName (cfg : Config) : Bytes :=
  tempFileNamePrefix ++ cfg.aofFilename ++ manifestNameSuffix

def getTempIncrAofName (cfg : Config) : Bytes :=
  tempFileNamePrefix ++ cfg.aofFilename ++ incrFileSuffix

def manifestPath (cfg : Config) : Path := aofPath (getAofManifestFileName cfg)
def tempManifestPath (cfg : Config) : Path := aofPath (getTempAofManifestFileName cfg)
def tempIncrPath (cfg : Config) : Path := aofPath (getTempIncrAofName cfg)

def rewriteName : Bytes :=
  text ['t', 'e', 'm', 'p', '-', 'r', 'e', 'w', 'r', 'i', 't', 'e', 'a', 'o', 'f', '-']

/-- `temp-rewriteaof-bg-%d.aof`, in the working directory. -/
def tmpfile (pid : Nat) : Path :=
  ⟨.work, rewriteName ++ text ['b', 'g', '-'] ++ decimal pid ++ aofFormatSuffix⟩

/-- The file that the child itself writes before it renames it. -/
def childTmpfile (pid : Nat) : Path := ⟨.work, rewriteName ++ decimal pid ++ aofFormatSuffix⟩

/-! ## The manifest on disk -/

section
variable {δ : Type}

/-- A call whose failure makes the function return an error. -/
def checked (c : Call δ) (next : Prog (Call δ) Result Bool) : Prog (Call δ) Result Bool :=
  .call c fun r => if r = .ok then next else .ret false

def writeAofManifestFile (cfg : Config) (es : List AofInfo) : Prog (Call δ) Result Bool :=
  checked (.openTrunc (tempManifestPath cfg)) <|
  checked (.writeManifest (tempManifestPath cfg) es) <|
  checked (.fsync (tempManifestPath cfg)) <|
  checked (.rename (tempManifestPath cfg) (manifestPath cfg)) <|
  checked .fsyncDir <|
  .ret true

/-- Whether it succeeded, and the manifest with its `dirty` flag. -/
def persistAofManifest (cfg : Config) (am : AofManifest) :
    Prog (Call δ) Result (Bool × AofManifest) :=
  if am.dirty then do
    let ok ← writeAofManifestFile cfg (entries am)
    return (ok, if ok then { am with dirty := false } else am)
  else return (true, am)

def unlinkAll : List Path → Prog (Call δ) Result Unit
  | [] => return ()
  | path :: paths => do
    let _ ← Prog.perform (.unlink path)
    unlinkAll paths

def aofDelHistoryFiles (cfg : Config) (s : Server δ) : Prog (Call δ) Result (Server δ) :=
  if cfg.aofDisableAutoGc || s.aofManifest.historyAofList.isEmpty then return s
  else do
    unlinkAll (s.aofManifest.historyAofList.map fun ai => aofPath ai.fileName)
    let (_, am) ← persistAofManifest cfg (Manifest.aofDelHistoryFiles s.aofManifest)
    return { s with aofManifest := am }

/-! ## Starting a rewrite -/

/-- A forced flush. After a short write the file is cut back to its last size, and
where that fails the bytes that were written leave the buffer. -/
def flushAppendOnlyFile (cfg : Config) (s : Server δ) : Prog (Call δ) Result (Server δ) :=
  if s.aofBuf = [] then return s
  else
    match s.aofFd with
    | none => if cfg.aofFsyncAlways then .exit else return s
    | some path => do
      let r ← Prog.perform (.append path s.aofBuf)
      match r with
      | .ok =>
        let s := { s with aofBuf := [], aofLastIncrSize := s.aofLastIncrSize + s.aofBuf.length }
        if cfg.aofFsyncAlways then do
          let r ← Prog.perform (.fsync path)
          if r = .ok then return s else .exit
        else return s
      | .fail 0 => if cfg.aofFsyncAlways then .exit else return s
      | .fail n => do
        let r ← Prog.perform (.ftruncate path s.aofLastIncrSize)
        if cfg.aofFsyncAlways then .exit
        else if r = .ok then return s
        else return { s with
          aofBuf := s.aofBuf.drop n, aofLastIncrSize := s.aofLastIncrSize + n }

/-- The new file has the descriptor `aof_fd`, and the old one is closed. -/
def useNewIncr (path : Path) (s : Server δ) : Server δ :=
  { s with aofFd := some path, aofLastIncrSize := 0 }

def openNewIncrAofForAppend (cfg : Config) (s : Server δ) :
    Prog (Call δ) Result (Bool × Server δ) :=
  match s.aofState with
  | .off => return (true, s)
  | .waitRewrite => do
    let r ← Prog.perform (.openTrunc (tempIncrPath cfg))
    if r = .ok then return (true, useNewIncr (tempIncrPath cfg) s) else return (false, s)
  | .on => do
    let (am, name) := getNewIncrAofName cfg.aofFilename s.aofManifest
    let r ← Prog.perform (.openTrunc (aofPath name))
    if r = .ok then do
      let (ok, am) ← persistAofManifest cfg am
      if ok then return (true, { useNewIncr (aofPath name) s with aofManifest := am })
      else return (false, s)
    else return (false, s)

/-- The child with the number `pid` gets the dataset of this moment. -/
def rewriteAppendOnlyFileBackground (cfg : Config) (pid : Nat) (s : Server δ) :
    Prog (Call δ) Result (Bool × Server δ) :=
  if s.child.isSome then return (false, s)
  else do
    let r ← Prog.perform .mkdir
    if r ≠ .ok then return (false, s)
    else do
      let s ← flushAppendOnlyFile cfg { s with aofSelectedDb := none }
      let (ok, s) ← openNewIncrAofForAppend cfg s
      if ok then do
        let r ← Prog.perform .fork
        if r = .ok then
          return (true, { s with child := some ⟨pid, s.data⟩, aofRewriteScheduled := false })
        else return (false, s)
      else return (false, s)

/-! ## The end of a rewrite -/

/-- The new BASE file, and the new INCR file if the AOF is being enabled, have their
names. Where the manifest cannot be written they are deleted again. -/
def installManifest (cfg : Config) (base : Path) (incr : Option Path) (am : AofManifest)
    (s : Server δ) : Prog (Call δ) Result (Server δ) := do
  let (ok, am) ← persistAofManifest cfg (markRewrittenIncrAofAsHistory s.aofFd.isSome am)
  if ok then do
    let s ← aofDelHistoryFiles cfg { s with aofManifest := am }
    return { s with aofState := if s.aofState = .waitRewrite then .on else s.aofState }
  else do
    unlinkAll (base :: incr.toList)
    return s

/-- The child succeeded. A descriptor stays with a file that is renamed. -/
def installRewrite (cfg : Config) (pid : Nat) (s : Server δ) : Prog (Call δ) Result (Server δ) :=
  let (am, baseName) :=
    getNewBaseFileNameAndMarkPreAsHistory cfg.aofFilename cfg.aofUseRdbPreamble s.aofManifest
  let base := aofPath baseName
  do
    let r ← Prog.perform (.rename (tmpfile pid) base)
    if r ≠ .ok then return s
    else if s.aofState = .waitRewrite then
      let (am, incrName) := getNewIncrAofName cfg.aofFilename am
      let incr := aofPath incrName
      do
        let r ← Prog.perform (.rename (tempIncrPath cfg) incr)
        if r ≠ .ok then do
          unlinkAll [base]
          return s
        else installManifest cfg base (some incr) am { s with aofFd := some incr }
    else installManifest cfg base none am s

inductive ChildExit where
  | success
  | error
  | signal
  deriving DecidableEq, Repr

def aofRemoveTempFile (pid : Nat) : Prog (Call δ) Result Unit :=
  unlinkAll [tmpfile pid, childTmpfile pid]

/-- The part behind the label `cleanup`. -/
def rewriteCleanup (cfg : Config) (pid : Nat) (s : Server δ) : Prog (Call δ) Result (Server δ) := do
  aofRemoveTempFile pid
  if s.aofState = .waitRewrite then do
    unlinkAll [tempIncrPath cfg]
    return { s with aofBuf := [], child := none, aofRewriteScheduled := true }
  else return { s with child := none }

/-- A child that succeeds has written its file before. -/
def backgroundRewriteDoneHandler (cfg : Config) (outcome : ChildExit) (child : Child δ)
    (s : Server δ) : Prog (Call δ) Result (Server δ) :=
  match outcome with
  | .success => do
    let _ ← Prog.perform (.child (tmpfile child.pid) child.db)
    let s ← installRewrite cfg child.pid s
    rewriteCleanup cfg child.pid s
  | _ => rewriteCleanup cfg child.pid s

/-! ## Enabling and disabling -/

def killAppendOnlyChild (s : Server δ) : Prog (Call δ) Result (Server δ) :=
  match s.child with
  | none => return s
  | some child => do
    aofRemoveTempFile child.pid
    return { s with child := none }

def stopAppendOnly (cfg : Config) (s : Server δ) : Prog (Call δ) Result (Server δ) := do
  let s ← flushAppendOnlyFile cfg s
  let s ← killAppendOnlyChild { s with
    aofFd := none, aofSelectedDb := none, aofState := .off, aofRewriteScheduled := false
    aofLastIncrSize := 0 }
  return { s with aofBuf := [] }

/-- With another child at work or in a transaction, the rewrite is only scheduled. -/
def startAppendOnly (cfg : Config) (busy : Bool) (pid : Nat) (s : Server δ) :
    Prog (Call δ) Result (Server δ) :=
  let s := { s with aofState := .waitRewrite }
  if busy then return { s with aofRewriteScheduled := true }
  else do
    let s ← killAppendOnlyChild s
    let (ok, s) ← rewriteAppendOnlyFileBackground cfg pid s
    return if ok then s else { s with aofState := .off }

/-! ## Runs -/

inductive Event (δ : Type) where
  /-- Commands are executed and fed to the buffer. -/
  | execute (data : δ) (bytes : Bytes) (selectedDb : Option Nat)
  | flush
  | rewrite (pid : Nat)
  | childDone (outcome : ChildExit)
  | stopAppendOnly
  | startAppendOnly (busy : Bool) (pid : Nat)

def handle (cfg : Config) (s : Server δ) : Event δ → Prog (Call δ) Result (Server δ)
  | .execute data bytes selectedDb =>
    return { s with data := data, aofBuf := s.aofBuf ++ bytes, aofSelectedDb := selectedDb }
  | .flush => flushAppendOnlyFile cfg s
  | .rewrite pid => do
    let (_, s) ← rewriteAppendOnlyFileBackground cfg pid s
    return s
  | .childDone outcome =>
    match s.child with
    | none => return s
    | some child => backgroundRewriteDoneHandler cfg outcome child s
  | .stopAppendOnly => if s.aofState = .off then return s else stopAppendOnly cfg s
  | .startAppendOnly busy pid =>
    if s.aofState = .off then startAppendOnly cfg busy pid s else return s

/-- One event after the other, with results that `Returned` allows. -/
inductive Run (cfg : Config) (Returned : Call δ → Result → Disk δ → Prop) (s₀ : Server δ)
    (d₀ : Disk δ) : Server δ → Disk δ → Prop
  | start : Run cfg Returned s₀ d₀ s₀ d₀
  | event (e : Event δ) {s s' : Server δ} {d d' : Disk δ} (h : Run cfg Returned s₀ d₀ s d)
      (he : (handle cfg s e).Ends effect Returned d s' d') : Run cfg Returned s₀ d₀ s' d'

def execRun (cfg : Config) (allowed : Call δ → Result → Disk δ → Bool) :
    List (Event δ × List Result) → Server δ → Disk δ → Option (Server δ × Disk δ)
  | [], s, d => some (s, d)
  | (e, rs) :: es, s, d =>
    ((handle cfg s e).exec effect allowed rs d).bind fun x => execRun cfg allowed es x.1 x.2

lemma run_of_execRun {cfg s₀ d₀} {allowed : Call δ → Result → Disk δ → Bool}
    {Returned : Call δ → Result → Disk δ → Prop}
    (hret : ∀ c r d, allowed c r d = true → Returned c r d) :
    ∀ (es : List (Event δ × List Result)) {s s' : Server δ} {d d' : Disk δ},
      Run cfg Returned s₀ d₀ s d → execRun cfg allowed es s d = some (s', d') →
      Run cfg Returned s₀ d₀ s' d' := by
  intro es
  induction es with
  | nil =>
    intro s s' d d' hrun h
    cases h
    exact hrun
  | cons x es ih =>
    intro s s' d d' hrun h
    obtain ⟨y, hy, hrest⟩ := Option.bind_eq_some_iff.mp h
    exact ih (.event x.1 hrun (Prog.ends_of_exec hret hy)) hrest

/-- A run to a state that passes a test. -/
lemma exists_run (cfg : Config) {allowed : Call δ → Result → Disk δ → Bool}
    {Returned : Call δ → Result → Disk δ → Prop}
    (hret : ∀ c r d, allowed c r d = true → Returned c r d)
    (es : List (Event δ × List Result)) (s : Server δ) (d : Disk δ)
    (test : Server δ × Disk δ → Bool) (h : (execRun cfg allowed es s d).any test = true) :
    ∃ x : Server δ × Disk δ, Run cfg Returned s d x.1 x.2 ∧ test x = true := by
  obtain ⟨x, hx, htest⟩ := (Option.any_eq_true _ _).mp h
  exact ⟨x, run_of_execRun hret es .start hx, htest⟩

end

end Redis.Aof.Rewrite
