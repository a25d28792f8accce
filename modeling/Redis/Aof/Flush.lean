import Redis.Lib.PosixFile

/-! # The append-only buffer and its file

`feedAppendOnlyFile` puts bytes into `aof_buf` and `flushAppendOnlyFile` writes the
buffer to the current incremental file. A short write is undone with `ftruncate`
where that succeeds, and taken note of where it fails. The descriptor of a file
opened for a rewrite has no `O_APPEND`: its offset stays behind the short write that
was cut off. -/
namespace Redis.Aof.Flush
open List Lib

inductive FsyncPolicy where
  | no
  | always
  | everysec
  deriving DecidableEq, Repr

structure Server where
  aofFsync : FsyncPolicy
  aofNoFsyncOnRewrite : Bool
  /-- The file `aof_fd` refers to. -/
  file : PosixFile
  aofBuf : Bytes
  aofLastIncrSize : Nat
  aofLastIncrFsyncOffset : Nat
  aofCurrentSize : Nat
  aofLastFsync : Nat
  aofFlushPostponedStart : Nat
  aofDelayedFsync : Nat
  aofLastWriteError : Bool
  deriving DecidableEq, Repr

/-- What one call of `write` does. -/
inductive WriteResult where
  | wrote (n : Nat)
  | interrupted
  | failed
  deriving DecidableEq, Repr

/-- What one call of `flushAppendOnlyFile` meets. -/
structure Environment where
  unixtime : Nat
  syncInProgress : Bool
  hasActiveChildProcess : Bool
  writes : List WriteResult
  ftruncateSucceeds : Bool
  fsyncSucceeds : Bool
  deriving DecidableEq, Repr

/-- The file after `aofWrite` and what it returns, with `none` for -1. A list of
results that ends before the buffer does ends with a failure. -/
def aofWrite : List WriteResult → PosixFile → Bytes → Nat → PosixFile × Option Nat
  | _, file, [], totwritten => (file, some totwritten)
  | [], file, _ :: _, totwritten => (file, if totwritten = 0 then none else some totwritten)
  | .failed :: _, file, _ :: _, totwritten =>
    (file, if totwritten = 0 then none else some totwritten)
  | .interrupted :: results, file, b :: buf, totwritten =>
    aofWrite results file (b :: buf) totwritten
  | .wrote n :: results, file, b :: buf, totwritten =>
    aofWrite results (file.write ((b :: buf).take n)) ((b :: buf).drop n)
      (totwritten + ((b :: buf).take n).length)

/-- The part behind the label `try_fsync`; `none` is `exit(1)`. -/
def tryFsync (e : Environment) (syncInProgress : Bool) (s : Server) : Option Server :=
  if s.aofNoFsyncOnRewrite && e.hasActiveChildProcess then some s
  else if s.aofFsync = .always then
    if e.fsyncSucceeds then
      some { s with aofLastIncrFsyncOffset := s.aofLastIncrSize, aofLastFsync := e.unixtime }
    else none
  else if s.aofFsync = .everysec ∧ e.unixtime > s.aofLastFsync then
    some { s with
      aofLastIncrFsyncOffset :=
        if syncInProgress then s.aofLastIncrFsyncOffset else s.aofLastIncrSize
      aofLastFsync := e.unixtime }
  else some s

/-- The branch for a write that did not take the whole buffer. -/
def handleWriteError (e : Environment) (file : PosixFile) (nwritten : Option Nat) (s : Server) :
    Option Server :=
  let (file, nwritten) :=
    if nwritten ≠ none ∧ e.ftruncateSucceeds then (file.ftruncate s.aofLastIncrSize, none)
    else (file, nwritten)
  if s.aofFsync = .always then none
  else
    let n := nwritten.getD 0
    some { s with
      file := file
      aofLastWriteError := true
      aofCurrentSize := s.aofCurrentSize + n
      aofLastIncrSize := s.aofLastIncrSize + n
      aofBuf := s.aofBuf.drop n }

/-- The branch for a write that took it. -/
def handleWriteDone (e : Environment) (syncInProgress : Bool) (file : PosixFile) (s : Server) :
    Option Server :=
  tryFsync e syncInProgress { s with
    file := file
    aofLastWriteError := false
    aofCurrentSize := s.aofCurrentSize + s.aofBuf.length
    aofLastIncrSize := s.aofLastIncrSize + s.aofBuf.length
    aofBuf := [] }

def writeBuffer (e : Environment) (syncInProgress : Bool) (s : Server) : Option Server :=
  let (file, nwritten) := aofWrite e.writes s.file s.aofBuf 0
  let s := { s with aofFlushPostponedStart := 0 }
  if nwritten ≠ some s.aofBuf.length then handleWriteError e file nwritten s
  else handleWriteDone e syncInProgress file s

/-- The flush waits for a background fsync, for two seconds at most. -/
def postpones (force : Bool) (e : Environment) (s : Server) : Bool :=
  s.aofFsync = .everysec && !force && e.syncInProgress &&
    (s.aofFlushPostponedStart = 0 || e.unixtime - s.aofFlushPostponedStart < 2)

def flushAppendOnlyFile (force : Bool) (e : Environment) (s : Server) : Option Server :=
  if s.aofBuf.length = 0 then
    if s.aofFsync = .everysec ∧ s.aofLastIncrFsyncOffset ≠ s.aofLastIncrSize ∧
        e.unixtime > s.aofLastFsync ∧ e.syncInProgress = false then
      tryFsync e false s
    else if s.aofFsync = .always ∧ s.aofLastIncrFsyncOffset ≠ s.aofLastIncrSize then
      tryFsync e false s
    else some s
  else
    let syncInProgress := s.aofFsync = .everysec && e.syncInProgress
    if postpones force e s then
      some { s with
        aofFlushPostponedStart :=
          if s.aofFlushPostponedStart = 0 then e.unixtime else s.aofFlushPostponedStart }
    else
      let delayed := s.aofFsync = .everysec && !force && e.syncInProgress
      writeBuffer e syncInProgress { s with
        aofDelayedFsync := s.aofDelayedFsync + if delayed then 1 else 0 }

/-- The end of `openNewIncrAofForAppend`, with the new file open. -/
def openNewIncrAofForAppend (e : Environment) (s : Server) : Server :=
  { s with
    file := PosixFile.created
    aofLastFsync := e.unixtime
    aofLastIncrSize := 0
    aofLastIncrFsyncOffset := 0 }

/-- The end of `aofOpenIfNeededOnServerStart`, where the file may have content.
The buffer is the empty one of `initServer`. -/
def aofOpenIfNeededOnServerStart (content : Bytes) (s : Server) : Server :=
  { s with
    file := PosixFile.openedForAppend content
    aofBuf := []
    aofLastIncrSize := content.length
    aofLastIncrFsyncOffset := content.length }

/-! ## Runs -/

inductive Event where
  | feed (bytes : Bytes)
  | flush (force : Bool) (e : Environment)
  /-- The start of a rewrite flushes with `force` and opens a new file, if it can. -/
  | rewriteStart (e : Environment) (opens : Bool)
  | configSet (aofFsync : FsyncPolicy) (aofNoFsyncOnRewrite : Bool)
  deriving DecidableEq, Repr

/-- The server, and what the current file had and was fed since it was opened. -/
structure State where
  server : Server
  initial : Bytes
  fed : Bytes
  deriving DecidableEq, Repr

/-- One event; `none` is a server that exited. -/
def perform (s : State) : Event → Option State
  | .feed bytes => some { s with
      server := { s.server with aofBuf := s.server.aofBuf ++ bytes }, fed := s.fed ++ bytes }
  | .flush force e => (flushAppendOnlyFile force e s.server).map fun server => { s with server }
  | .rewriteStart e opens => (flushAppendOnlyFile true e s.server).map fun server =>
      if opens then ⟨openNewIncrAofForAppend e server, [], []⟩ else { s with server }
  | .configSet aofFsync aofNoFsyncOnRewrite =>
    some { s with server := { s.server with aofFsync, aofNoFsyncOnRewrite } }

def serverStart (s : Server) (content : Bytes) : State :=
  ⟨aofOpenIfNeededOnServerStart content s, content, []⟩

/-- The file and the buffer hold what was fed, once and in order. -/
def Exact (s : State) : Prop := s.server.file.content ++ s.server.aofBuf = s.initial ++ s.fed

instance (s : State) : Decidable (Exact s) := inferInstanceAs (Decidable (_ = _))

/-- `Exact` at every point of a run, as long as the server runs. -/
def ExactThroughout : List Event → State → Prop
  | [], s => Exact s
  | e :: events, s => Exact s ∧
    match perform s e with
    | some s' => ExactThroughout events s'
    | none => True

instance : (events : List Event) → (s : State) → Decidable (ExactThroughout events s)
  | [], s => inferInstanceAs (Decidable (Exact s))
  | e :: events, s =>
    match h : perform s e with
    | some s' =>
      have := instDecidableExactThroughout events s'
      decidable_of_iff (Exact s ∧ ExactThroughout events s') (by rw [ExactThroughout, h])
    | none => decidable_of_iff (Exact s) (by rw [ExactThroughout, h, and_true])

lemma exactThroughout_head {events s} (h : ExactThroughout events s) : Exact s := by
  cases events with
  | nil => exact h
  | cons e events => exact h.1

/-! ## What a flush writes -/

/-- The bytes of the buffer that reach the file. -/
def taken : List WriteResult → Bytes → Nat
  | _, [] => 0
  | [], _ :: _ => 0
  | .failed :: _, _ :: _ => 0
  | .interrupted :: results, b :: buf => taken results (b :: buf)
  | .wrote n :: results, b :: buf =>
    ((b :: buf).take n).length + taken results ((b :: buf).drop n)

lemma taken_le (results : List WriteResult) (buf : Bytes) : taken results buf ≤ buf.length := by
  fun_induction taken results buf with
  | case1 | case2 | case3 => exact Nat.zero_le _
  | case4 results b buf ih => exact ih
  | case5 n results b buf ih =>
    rw [length_drop] at ih
    rw [length_take]
    omega

lemma take_append_take_drop (buf : Bytes) (n k : Nat) :
    buf.take n ++ (buf.drop n).take k = buf.take ((buf.take n).length + k) := by
  have h : (buf.take n ++ buf.drop n).take ((buf.take n).length + k) =
      buf.take n ++ (buf.drop n).take k := take_length_add_append k
  rw [take_append_drop] at h
  exact h.symm

lemma aofWrite_eq {file} (h : file.PastEnd) (results : List WriteResult) (buf : Bytes) (tot : Nat) :
    aofWrite results file buf tot = (file.write (buf.take (taken results buf)),
      if buf ≠ [] ∧ tot + taken results buf = 0 then none else some (tot + taken results buf)) := by
  fun_induction aofWrite results file buf tot with
  | case1 results file tot | case2 file b buf tot | case3 results file b buf tot => simp [taken]
  | case4 results file b buf tot ih =>
    rw [ih h, taken]
  | case5 n results file b buf tot ih =>
    rw [ih (PosixFile.pastEnd_write h _), PosixFile.write_write h, taken, take_append_take_drop,
      add_assoc]
    -- the rest of the buffer is empty only if this call took something
    by_cases hrest : (b :: buf).drop n = []
    · have hn := drop_eq_nil_iff.mp hrest
      have htake : ((b :: buf).take n).length = (b :: buf).length := by
        rw [length_take, Nat.min_eq_right hn]
      rw [if_neg (fun hc => hc.1 hrest), if_neg]
      rw [htake, length_cons]
      omega
    · simp only [hrest, ne_eq, reduceCtorEq]

variable {sync : Bool} {e : Environment} {s s' : Server} {force : Bool}

lemma tryFsync_keeps (h : tryFsync e sync s = some s') : s'.file = s.file ∧ s'.aofBuf = s.aofBuf ∧
      s'.aofLastIncrSize = s.aofLastIncrSize := by
  unfold tryFsync at h
  split at h
  · cases h
    exact ⟨rfl, rfl, rfl⟩
  split at h
  · split at h <;> cases h
    exact ⟨rfl, rfl, rfl⟩
  split at h <;> cases h <;> exact ⟨rfl, rfl, rfl⟩

/-- What the file, the buffer and the recorded size are after `k` bytes of the
buffer were taken. -/
inductive Wrote (e : Environment) (s s' : Server) (k : Nat) : Prop
  | nothing : k = 0 → s'.file = s.file → s'.aofBuf = s.aofBuf →
      s'.aofLastIncrSize = s.aofLastIncrSize → Wrote e s s' k
  | kept : 0 < k → (k < s.aofBuf.length → e.ftruncateSucceeds = false) →
      s'.file = s.file.write (s.aofBuf.take k) → s'.aofBuf = s.aofBuf.drop k →
      s'.aofLastIncrSize = s.aofLastIncrSize + k → Wrote e s s' k
  | undone : 0 < k → k < s.aofBuf.length → e.ftruncateSucceeds = true →
      s'.file = (s.file.write (s.aofBuf.take k)).ftruncate s.aofLastIncrSize →
      s'.aofBuf = s.aofBuf → s'.aofLastIncrSize = s.aofLastIncrSize → Wrote e s s' k

/-- Only these three fields matter. -/
lemma Wrote.of_eq {t k} (h : Wrote e t s' k) (hfile : t.file = s.file) (hbuf : t.aofBuf = s.aofBuf)
    (hsize : t.aofLastIncrSize = s.aofLastIncrSize) : Wrote e s s' k := by
  cases h with
  | nothing h0 hf hb hs => exact .nothing h0 (hf.trans hfile) (hb.trans hbuf) (hs.trans hsize)
  | kept h0 ht hf hb hs =>
    rw [hbuf] at ht hf hb
    rw [hfile] at hf
    rw [hsize] at hs
    exact .kept h0 ht hf hb hs
  | undone h0 hlt ht hf hb hs =>
    rw [hbuf] at hlt hf hb
    rw [hfile, hsize] at hf
    rw [hsize] at hs
    exact .undone h0 hlt ht hf hb hs

lemma handleWriteError_cases {k} (hk : k < s.aofBuf.length)
    (h : handleWriteError e (s.file.write (s.aofBuf.take k)) (if k = 0 then none else some k) s =
      some s') : Wrote e s s' k := by
  by_cases h0 : k = 0
  · subst h0
    simp only [handleWriteError] at h
    split at h <;> cases h
    exact .nothing rfl rfl rfl rfl
  have hpos : 0 < k := Nat.pos_of_ne_zero h0
  simp only [handleWriteError, h0, ↓reduceIte, ne_eq, reduceCtorEq, not_false_eq_true,
    true_and] at h
  cases htrunc : e.ftruncateSucceeds with
  | true =>
    split at h <;> cases h
    exact .undone hpos hk htrunc rfl rfl rfl
  | false =>
    simp only [htrunc] at h
    split at h <;> cases h
    exact .kept hpos (fun _ => htrunc) rfl rfl rfl

lemma handleWriteDone_cases (hne : s.aofBuf ≠ [])
    (h : handleWriteDone e sync (s.file.write s.aofBuf) s = some s') :
    Wrote e s s' s.aofBuf.length := by
  obtain ⟨hfile, hbuf, hsize⟩ := tryFsync_keeps h
  refine .kept (length_pos_iff.mpr hne) (fun hlt => absurd hlt (Nat.lt_irrefl _)) ?_ ?_ hsize
  · rw [hfile, take_length]
  · rw [hbuf, drop_length]

lemma writeBuffer_cases (hpast : s.file.PastEnd)
    (hne : s.aofBuf ≠ []) (h : writeBuffer e sync s = some s') :
    Wrote e s s' (taken e.writes s.aofBuf) := by
  have hle := taken_le e.writes s.aofBuf
  have hpos : 0 < s.aofBuf.length := length_pos_iff.mpr hne
  rw [writeBuffer, aofWrite_eq hpast] at h
  generalize taken e.writes s.aofBuf = k at h hle
  simp only [zero_add, hne, ne_eq, not_false_eq_true, true_and] at h
  rcases Nat.lt_or_eq_of_le hle with hlt | heq
  · have hshort : ¬(if k = 0 then none else some k) = some s.aofBuf.length := by
      split
      · exact nofun
      · exact fun hc => absurd (Option.some.inj hc) (Nat.ne_of_lt hlt)
    rw [if_pos hshort] at h
    exact (handleWriteError_cases (by exact hlt) h).of_eq rfl rfl rfl
  subst heq
  rw [if_neg (Nat.ne_of_gt hpos), if_neg (not_not_intro rfl), take_length] at h
  exact (handleWriteDone_cases (by exact hne) h).of_eq rfl rfl rfl

/-- A flush that is not postponed takes what the system calls take. -/
lemma flush_cases (hpast : s.file.PastEnd) (h : flushAppendOnlyFile force e s = some s') :
    Wrote e s s' (if postpones force e s then 0 else taken e.writes s.aofBuf) := by
  unfold flushAppendOnlyFile at h
  split at h
  · rename_i hempty
    have hnil : s.aofBuf = [] := length_eq_zero_iff.mp hempty
    have htaken : (if postpones force e s then 0 else taken e.writes s.aofBuf) = 0 := by
      rw [hnil]
      split
      · rfl
      unfold taken
      rfl
    rw [htaken]
    split at h
    · obtain ⟨hfile, hbuf, hsize⟩ := tryFsync_keeps h
      exact .nothing rfl hfile hbuf hsize
    split at h
    · obtain ⟨hfile, hbuf, hsize⟩ := tryFsync_keeps h
      exact .nothing rfl hfile hbuf hsize
    cases h
    exact .nothing rfl rfl rfl rfl
  rename_i hlen
  have hne : s.aofBuf ≠ [] := fun hnil => hlen (by rw [hnil]; rfl)
  split at h
  · rename_i hpost
    rw [if_pos hpost]
    cases h
    exact .nothing rfl rfl rfl rfl
  rename_i hpost
  rw [if_neg hpost]
  exact (writeBuffer_cases (by exact hpast) (by exact hne) h).of_eq rfl rfl rfl

/-! ## What a run keeps -/

/-- The bytes of the buffer that a flush hands to the file. -/
def flushed (force : Bool) (e : Environment) (s : Server) : Nat :=
  if postpones force e s then 0 else taken e.writes s.aofBuf

lemma flushed_le (force : Bool) (e : Environment) (s : Server) :
    flushed force e s ≤ s.aofBuf.length := by
  rw [flushed]
  split
  · exact Nat.zero_le _
  · exact taken_le _ _

/-- The write begins at the end of the file as recorded, or it takes nothing, or it
is short and cut off again. -/
def FlushKeeps (force : Bool) (e : Environment) (s : Server) : Prop :=
  s.file.append = true ∨ s.file.offset = s.aofLastIncrSize ∨ flushed force e s = 0 ∨
    flushed force e s < s.aofBuf.length ∧ e.ftruncateSucceeds = true

/-- A new file is opened only with nothing left in the buffer. -/
def Keeps (s : State) : Event → Prop
  | .flush force e => FlushKeeps force e s.server
  | .rewriteStart e opens =>
    if opens then flushed true e s.server = s.server.aofBuf.length else FlushKeeps true e s.server
  | .feed _ => True
  | .configSet _ _ => True

def KeepsThroughout : List Event → State → Prop
  | [], _ => True
  | e :: events, s =>
    match perform s e with
    | some s' => Keeps s e ∧ KeepsThroughout events s'
    | none => True

/-- The recorded size is the file's, and the descriptor is not inside the file. -/
structure Recorded (s : Server) : Prop where
  size : s.aofLastIncrSize = s.file.content.length
  past : s.file.PastEnd

lemma flush_exact_iff (h : Recorded s) (hflush : flushAppendOnlyFile force e s = some s') :
    (s'.file.content ++ s'.aofBuf = s.file.content ++ s.aofBuf ↔ FlushKeeps force e s) ∧
      (FlushKeeps force e s → Recorded s') := by
  have hcases : Wrote e s s' (flushed force e s) := flush_cases h.past hflush
  have hle := flushed_le force e s
  unfold FlushKeeps
  generalize flushed force e s = k at hcases hle
  cases hcases with
  | nothing h0 hfile hbuf hsize =>
    subst h0
    rw [hfile, hbuf]
    refine ⟨by simp, fun _ => ⟨?_, ?_⟩⟩
    · rw [hsize, hfile, h.size]
    rw [hfile]
    exact h.past
  | kept h0 ht hfile hbuf hsize =>
    have htake : s.aofBuf.take k ≠ [] := by
      rw [← length_pos_iff, length_take]
      omega
    have hcontent := PosixFile.content_write h.past htake
    have hshort : ¬(k = 0 ∨ k < s.aofBuf.length ∧ e.ftruncateSucceeds = true) := by
      rintro (h1 | ⟨hlt, ht'⟩)
      · omega
      rw [ht hlt] at ht'
      cases ht'
    -- the file has the buffer's bytes, with the gap before them
    have hiff : s'.file.content ++ s'.aofBuf = s.file.content ++ s.aofBuf ↔ s.file.gap = [] := by
      rw [hfile, hbuf, hcontent, append_assoc, append_assoc, take_append_drop,
        append_cancel_left_eq, append_left_eq_self]
    rw [hiff, PosixFile.gap_eq_nil_iff h.past, h.size, or_iff_left hshort]
    refine ⟨Iff.rfl, fun hend => ⟨?_, ?_⟩⟩
    · have hgap := (PosixFile.gap_eq_nil_iff h.past).mpr hend
      rw [hsize, hfile, hcontent, hgap, append_nil, length_append, length_take,
        h.size, Nat.min_eq_left hle]
    rw [hfile]
    exact PosixFile.pastEnd_write h.past _
  | undone h0 hlt ht hfile hbuf hsize =>
    have hcontent : s'.file.content = s.file.content := by
      rw [hfile, h.size, PosixFile.content_ftruncate_write h.past]
    refine ⟨?_, fun _ => ⟨?_, ?_⟩⟩
    · rw [hcontent, hbuf]
      simp [hlt, ht]
    · rw [hsize, hcontent, h.size]
    rw [hfile, h.size]
    exact PosixFile.pastEnd_ftruncate_write h.past _

lemma flush_empties_iff (h : Recorded s) (hflush : flushAppendOnlyFile force e s = some s') :
    s'.aofBuf = [] ↔ flushed force e s = s.aofBuf.length := by
  have hcases : Wrote e s s' (flushed force e s) := flush_cases h.past hflush
  have hle := flushed_le force e s
  cases hcases with
  | nothing h0 _ hbuf _ =>
    rw [hbuf, h0, ← length_eq_zero_iff]
    exact eq_comm
  | kept _ _ _ hbuf _ =>
    rw [hbuf, drop_eq_nil_iff]
    omega
  | undone _ hlt _ _ hbuf _ =>
    rw [hbuf, ← length_eq_zero_iff]
    omega

/-- What holds of a run as long as nothing was lost. -/
structure Inv (s : State) : Prop extends Recorded s.server where
  exact : Exact s

lemma step_exact_iff {s s' e} (h : Inv s) (hstep : perform s e = some s') :
    (Exact s' ↔ Keeps s e) ∧ (Keeps s e → Inv s') := by
  have hflush : ∀ {force env server}, flushAppendOnlyFile force env s.server = some server →
      (Exact { s with server } ↔ FlushKeeps force env s.server) ∧
        (FlushKeeps force env s.server → Inv { s with server }) := by
    intro force env server hrun
    obtain ⟨hiff, hrec⟩ := flush_exact_iff h.toRecorded hrun
    have hexact : Exact { s with server } ↔ FlushKeeps force env s.server := by
      rw [← hiff, h.exact]
      rfl
    exact ⟨hexact, fun hk => ⟨hrec hk, hexact.mpr hk⟩⟩
  cases e with
  | feed bytes =>
    cases hstep
    have hexact : s.server.file.content ++ (s.server.aofBuf ++ bytes) =
        s.initial ++ (s.fed ++ bytes) := by
      rw [← append_assoc, h.exact, append_assoc]
    exact ⟨iff_of_true hexact trivial, fun _ => ⟨⟨h.size, h.past⟩, hexact⟩⟩
  | flush force env =>
    obtain ⟨server, hrun, rfl⟩ := Option.map_eq_some_iff.mp hstep
    exact hflush hrun
  | rewriteStart env opens =>
    obtain ⟨server, hrun, rfl⟩ := Option.map_eq_some_iff.mp hstep
    cases opens with
    | false => exact hflush hrun
    | true =>
      have hexact := flush_empties_iff h.toRecorded hrun
      exact ⟨hexact, fun hk => ⟨⟨rfl, Nat.zero_le _⟩, hexact.mpr hk⟩⟩
  | configSet _ _ =>
    cases hstep
    exact ⟨iff_of_true h.exact trivial, fun _ => ⟨⟨h.size, h.past⟩, h.exact⟩⟩

lemma run_exact_iff (events : List Event) : ∀ {s : State}, Inv s →
    (ExactThroughout events s ↔ KeepsThroughout events s) := by
  induction events with
  | nil => exact fun h => iff_of_true h.exact trivial
  | cons e events ih =>
    intro s h
    rw [ExactThroughout, KeepsThroughout, and_iff_right h.exact]
    cases hstep : perform s e with
    | none => exact Iff.rfl
    | some s' =>
      obtain ⟨hiff, hinv⟩ := step_exact_iff h hstep
      refine ⟨fun hrun => ?_, fun ⟨hk, hrun⟩ => (ih (hinv hk)).mpr hrun⟩
      have hk : Keeps s e := hiff.mp (exactThroughout_head hrun)
      exact ⟨hk, (ih (hinv hk)).mp hrun⟩

/-- Nothing is lost, doubled or left out over a whole run exactly if no write is
made behind the end of the file and no file is opened over a full buffer. -/
theorem aof_exact_iff (s : Server) (content : Bytes) (events : List Event) :
    ExactThroughout events (serverStart s content) ↔
      KeepsThroughout events (serverStart s content) := by
  refine run_exact_iff events ⟨⟨rfl, le_rfl⟩, ?_⟩
  rfl

/-- A file opened by a rewrite takes one byte of `AB`, loses it again to `ftruncate`,
and takes both bytes at the next flush, behind a hole. -/
theorem hole_after_ftruncate :
    let calm : Environment := ⟨0, false, false, [.wrote 2], true, true⟩
    let full : Environment := ⟨0, false, false, [.wrote 1, .failed], true, true⟩
    let events : List Event :=
      [.rewriteStart calm true, .feed [65, 66], .flush false full, .flush false calm]
    let start := serverStart ⟨.everysec, false, .created, [], 0, 0, 0, 0, 0, 0, false⟩ []
    (events.foldlM perform start).map (fun s => (s.server.file.content, s.server.aofBuf, s.fed)) =
      some ([0, 65, 66], [], [65, 66]) ∧ ¬ExactThroughout events start := by
  decide

end Redis.Aof.Flush
