import Redis.Util.Stdlib

/-! # The AOF manifest

Which files make up the append-only log: at most one BASE file, the INCR files
written after it and the HISTORY files a rewrite made superfluous. The manifest is a
text with one line for each file. -/
namespace Redis.Aof.Manifest
open Lib Sds.SplitArgs Util.Numbers Util.Stdlib

inductive AofFileType where
  | base
  | hist
  | incr
  deriving DecidableEq, Repr

def AofFileType.char : AofFileType → UInt8
  | .base => 98
  | .hist => 104
  | .incr => 105

structure AofInfo where
  fileName : Bytes
  fileSeq : Int
  fileType : AofFileType
  deriving DecidableEq, Repr

structure AofManifest where
  baseAofInfo : Option AofInfo
  historyAofList : List AofInfo
  incrAofList : List AofInfo
  currBaseFileSeq : Int
  currIncrFileSeq : Int
  dirty : Bool
  deriving DecidableEq, Repr

def aofManifestCreate : AofManifest := ⟨none, [], [], 0, 0, false⟩

/-! ## Writing -/

def keyFileName : Bytes := text ['f', 'i', 'l', 'e']
def keyFileSeq : Bytes := text ['s', 'e', 'q']
def keyFileType : Bytes := text ['t', 'y', 'p', 'e']

def blank : UInt8 := 32

/-- The file name as it stands in the line. -/
def writtenName (name : Bytes) : Bytes :=
  if sdsneedsrepr name then sdscatrepr [] name else name

/-- `"%s %s %s %lld %s %c\n"`. -/
def aofInfoFormat (buf : Bytes) (ai : AofInfo) : Bytes :=
  buf ++ (keyFileName ++ [blank] ++ writtenName ai.fileName ++ [blank] ++ keyFileSeq ++ [blank] ++
    signedDecimal ai.fileSeq ++ [blank] ++ keyFileType ++ [blank] ++ [ai.fileType.char] ++ [newline])

/-- The BASE file first, then the HISTORY and the INCR files. -/
def entries (am : AofManifest) : List AofInfo :=
  am.baseAofInfo.toList ++ am.historyAofList ++ am.incrAofList

def getAofManifestAsString (am : AofManifest) : Bytes := (entries am).foldl aofInfoFormat []

/-! ## Loading -/

/-- The errors that end `aofLoadManifestFromFile` with `exit(1)`. -/
inductive LoadError where
  | emptyManifest
  | tooLongLine
  | invalidFormat
  | notAFileName
  | duplicateBase
  | nonMonotonicSeq
  | unknownType
  /-- An access outside the line, which is no error the function reports. -/
  | fault (f : Fault)
  deriving DecidableEq, Repr

def manifestMaxLine : Nat := 1024

def pathIsBaseName (path : Bytes) : Bool := !path.contains 47 && !path.contains backslash

/-- The fields of an `aofInfo` while its line is read. -/
structure Draft where
  fileName : Option Bytes
  fileSeq : Int
  fileType : UInt8
  deriving DecidableEq, Repr

def setField (key value : Bytes) (ai : Draft) : Except LoadError Draft :=
  if strcaseeq key keyFileName then
    if pathIsBaseName (cstr value) then .ok { ai with fileName := some (cstr value) }
    else .error .notAFileName
  else if strcaseeq key keyFileSeq then .ok { ai with fileSeq := atoll (cstr value) }
  else if strcaseeq key keyFileType then .ok { ai with fileType := value.headD 0 }
  else .ok ai

def readFields : List Bytes → Draft → Except LoadError Draft
  | key :: value :: rest, ai => do
    let ai ← setField key value ai
    readFields rest ai
  | _, ai => .ok ai

/-- The arguments of a line, an even number of at least six. -/
def splitLine (line : Bytes) : Except LoadError (List Bytes) :=
  match sdssplitargs (line ++ [0]) with
  | .error f => .error (.fault f)
  | .ok none => .error .invalidFormat
  | .ok (some argv) =>
    if argv.length < 6 ∨ argv.length % 2 ≠ 0 then .error .invalidFormat else .ok argv

/-- An `aofInfo` as read, with any character for its type. -/
structure LineInfo where
  fileName : Bytes
  fileSeq : Int
  fileType : UInt8
  deriving DecidableEq, Repr

/-- All the information of a line has to be there. -/
def completeInfo (ai : Draft) : Except LoadError LineInfo :=
  match ai.fileName with
  | none => .error .invalidFormat
  | some name =>
    if ai.fileSeq = 0 ∨ ai.fileType = 0 then .error .invalidFormat
    else .ok ⟨name, ai.fileSeq, ai.fileType⟩

def parseLine (buf : Bytes) : Except LoadError LineInfo :=
  if newline ∉ cstr buf then .error .tooLongLine
  else
    let line := sdstrim (cstr buf) [32, 9, 13, 10]
    if line.length = 0 then .error .invalidFormat
    else do
      let argv ← splitLine line
      let ai ← readFields argv ⟨none, 0, 0⟩
      completeInfo ai

/-- The manifest and `maxseq` while the lines are read. -/
structure Loading where
  am : AofManifest
  maxseq : Int
  deriving DecidableEq, Repr

/-- Where the file of a line goes, by its type. -/
def addInfo (st : Loading) (ai : LineInfo) : Except LoadError Loading :=
  if ai.fileType = AofFileType.base.char then
    if st.am.baseAofInfo.isSome then .error .duplicateBase
    else .ok { st with am := { st.am with
      baseAofInfo := some ⟨ai.fileName, ai.fileSeq, .base⟩, currBaseFileSeq := ai.fileSeq } }
  else if ai.fileType = AofFileType.hist.char then
    .ok { st with am := { st.am with
      historyAofList := st.am.historyAofList ++ [⟨ai.fileName, ai.fileSeq, .hist⟩] } }
  else if ai.fileType = AofFileType.incr.char then
    if ai.fileSeq ≤ st.maxseq then .error .nonMonotonicSeq
    else .ok ⟨{ st.am with
      incrAofList := st.am.incrAofList ++ [⟨ai.fileName, ai.fileSeq, .incr⟩]
      currIncrFileSeq := ai.fileSeq }, ai.fileSeq⟩
  else .error .unknownType

def readLine (st : Loading) (buf : Bytes) : Except LoadError Loading := do
  let ai ← parseLine buf
  addInfo st ai

/-- `while (1)`, for a file whose reads succeed. -/
def loadLoop : (rounds linenum : Nat) → Bytes → Loading → Except LoadError AofManifest
  | 0, _, _, _ => .error (.fault .loop)
  | rounds + 1, linenum, stream, st =>
    match fgets (manifestMaxLine + 1) stream with
    | none => if linenum = 0 then .error .emptyManifest else .ok st.am
    | some (buf, stream) =>
      if buf.head? = some 35 then loadLoop rounds (linenum + 1) stream st
      else do
        let st ← readLine st buf
        loadLoop rounds (linenum + 1) stream st

def aofLoadManifestFromFile (content : Bytes) : Except LoadError AofManifest :=
  loadLoop (content.length + 1) 0 content ⟨aofManifestCreate, 0⟩

/-! ## Changing -/

def aofNumber (filename : Bytes) (seq : Int) : Bytes := filename ++ [46] ++ signedDecimal seq

def baseFileSuffix : Bytes := text ['.', 'b', 'a', 's', 'e']
def incrFileSuffix : Bytes := text ['.', 'i', 'n', 'c', 'r']
def rdbFormatSuffix : Bytes := text ['.', 'r', 'd', 'b']
def aofFormatSuffix : Bytes := text ['.', 'a', 'o', 'f']
def manifestNameSuffix : Bytes := text ['.', 'm', 'a', 'n', 'i', 'f', 'e', 's', 't']
def tempFileNamePrefix : Bytes := text ['t', 'e', 'm', 'p', '-']

def baseFileName (filename : Bytes) (aofUseRdbPreamble : Bool) (seq : Int) : Bytes :=
  aofNumber filename seq ++ baseFileSuffix ++
    (if aofUseRdbPreamble then rdbFormatSuffix else aofFormatSuffix)

def incrFileName (filename : Bytes) (seq : Int) : Bytes :=
  aofNumber filename seq ++ incrFileSuffix ++ aofFormatSuffix

/-- The new manifest; its BASE file has the name that is returned. -/
def getNewBaseFileNameAndMarkPreAsHistory (filename : Bytes) (aofUseRdbPreamble : Bool)
    (am : AofManifest) : AofManifest × Bytes :=
  let history := (am.baseAofInfo.map fun ai => { ai with fileType := AofFileType.hist }).toList
  let seq := am.currBaseFileSeq + 1
  let name := baseFileName filename aofUseRdbPreamble seq
  ({ am with
    baseAofInfo := some ⟨name, seq, .base⟩
    historyAofList := history ++ am.historyAofList
    currBaseFileSeq := seq
    dirty := true }, name)

def getNewIncrAofName (filename : Bytes) (am : AofManifest) : AofManifest × Bytes :=
  let seq := am.currIncrFileSeq + 1
  let name := incrFileName filename seq
  ({ am with
    incrAofList := am.incrAofList ++ [⟨name, seq, .incr⟩]
    currIncrFileSeq := seq
    dirty := true }, name)

/-- The INCR files move to the history, the last one first and without the one that
is open for writing. -/
def markRewrittenIncrAofAsHistory (aofFdOpen : Bool) (am : AofManifest) : AofManifest :=
  if am.incrAofList = [] then am
  else
    let rewritten := if aofFdOpen then am.incrAofList.dropLast else am.incrAofList
    let kept := if aofFdOpen then am.incrAofList.getLast?.toList else []
    { am with
      incrAofList := kept
      historyAofList := rewritten.map (fun ai => { ai with fileType := AofFileType.hist }) ++
        am.historyAofList
      dirty := true }

/-- The manifest of an old style AOF file. -/
def aofUpgradePrepare (filename : Bytes) (am : AofManifest) : AofManifest :=
  { am with
    baseAofInfo := some ⟨filename, 1, .base⟩
    currBaseFileSeq := 1
    dirty := true }

/-- The history leaves the manifest. -/
def aofDelHistoryFiles (am : AofManifest) : AofManifest :=
  if am.historyAofList = [] then am else { am with historyAofList := [], dirty := true }

/-- The ways in which the server changes a manifest. -/
inductive Change where
  | newBase (aofUseRdbPreamble : Bool)
  | newIncr
  | rewritten (aofFdOpen : Bool)
  | upgrade
  | delHistory
  deriving DecidableEq, Repr

def change (filename : Bytes) (am : AofManifest) : Change → AofManifest
  | .newBase rdb => (getNewBaseFileNameAndMarkPreAsHistory filename rdb am).1
  | .newIncr => (getNewIncrAofName filename am).1
  | .rewritten aofFdOpen => markRewrittenIncrAofAsHistory aofFdOpen am
  | .upgrade => aofUpgradePrepare filename am
  | .delHistory => aofDelHistoryFiles am

def build (filename : Bytes) (changes : List Change) : AofManifest :=
  changes.foldl (change filename) aofManifestCreate

end Redis.Aof.Manifest
