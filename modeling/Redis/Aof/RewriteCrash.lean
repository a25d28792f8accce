import Redis.Aof.Recovery
import Redis.Aof.RewriteFailures

/-! # Crashes in a rewrite

With system calls that succeed, a server that is killed at any instant and started again
has executed exactly the commands whose bytes were written. Each step of a rewrite leaves
the journal on disk as it is, or replaces it by another journal of the same stream. -/
namespace Redis.Aof.RewriteCrash
open List Lib Manifest TailRepair Feed Rewrite
open RewriteNames Recovery

section
variable {δ : Type} {keep : List Path} {c : Call δ} {P : Disk δ → Prop} {es : List AofInfo}
  {am : AofManifest}

/-! ## What a call leaves -/

/-- The paths whose files a call may change. -/
def touched : Call δ → List Path
  | .openTrunc path => [path]
  | .writeManifest path _ => [path]
  | .append path _ => [path]
  | .ftruncate path _ => [path]
  | .rename src dst => [src, dst]
  | .unlink path => [path]
  | .child path _ => [path]
  | _ => []

/-- A call that does not go through `aof_fd`. -/
def Apart : Call δ → Prop
  | .append _ _ => False
  | .ftruncate _ _ => False
  | _ => True

structure Frame (keep : List Path) (d d' : Disk δ) : Prop where
  files : ∀ q ∈ keep, d'.files q = d.files q
  written : d'.written = d.written

lemma Frame.refl (keep : List Path) (d : Disk δ) : Frame keep d d := ⟨fun _ _ => rfl, rfl⟩

lemma Frame.trans {d d' d'' : Disk δ} (h : Frame keep d d')
    (h' : Frame keep d' d'') : Frame keep d d'' :=
  ⟨fun q hq => (h'.files q hq).trans (h.files q hq), h'.written.trans h.written⟩

lemma frame_set (d : Disk δ) {path : Path} (h : path ∉ keep)
    (content : Option (Content δ)) : Frame keep d (d.set path content) :=
  ⟨fun q hq => if_neg fun (heq : q = path) => h (heq ▸ hq), rfl⟩

lemma frame_effect (hc : Apart c)
    (h : ∀ q ∈ touched c, q ∉ keep) (r : Result) (d : Disk δ) : Frame keep d (effect c r d) := by
  have hset : ∀ path, path ∈ touched c → ∀ (d : Disk δ) content,
      Frame keep d (d.set path content) := fun path hp d content => frame_set d (h path hp) content
  cases c with
  | append path bytes | ftruncate path len => exact hc.elim
  | openTrunc path =>
    cases r with
    | ok => exact hset path mem_cons_self d _
    | fail n => exact Frame.refl keep d
  | writeManifest path es | child path db => cases r <;> exact hset path mem_cons_self d _
  | unlink path =>
    cases r with
    | ok => exact hset path mem_cons_self d _
    | fail n => exact Frame.refl keep d
  | rename src dst =>
    cases r with
    | ok =>
      rw [effect, renameTo]
      split
      · exact (hset src mem_cons_self d _).trans (hset dst (mem_cons_of_mem _ mem_cons_self) _ _)
      · exact Frame.refl keep d
    | fail n => exact Frame.refl keep d
  | fsync path | fsyncDir | mkdir | fork => cases r <;> exact Frame.refl keep d

/-! ## Programs whose calls succeed -/

def Succeeds (c : Call δ) (r : Result) (d : Disk δ) : Prop := r = .ok ∧ returned c r d = true

lemma not_succeeds_fail (c : Call δ) (n : Nat) (d : Disk δ) : ¬Succeeds c (.fail n) d := by
  rintro ⟨h, -⟩
  cases h

section
variable {α : Type} {d : Disk δ} (hP : ∀ d', Frame keep d d' → P d') (hc : Apart c)
  (h : ∀ q ∈ touched c, q ∉ keep) {f : Result → Prog (Call δ) Result α} {Q : α → Disk δ → Prop}
  (hf : Frame keep d (effect c .ok d) → returned c .ok d = true →
    (f .ok).Always effect Succeeds P Q (effect c .ok d))
include hP hc h hf

/-- A call in a world where everything with the same files at `keep` meets `P`. -/
lemma always_call : (Prog.call c f).Always effect Succeeds P Q d := by
  refine ⟨hP d (Frame.refl keep d), fun r => ⟨hP _ (frame_effect hc h r d), ?_⟩⟩
  rintro ⟨rfl, hr⟩
  exact hf (frame_effect hc h .ok d) hr

lemma always_perform : (Prog.perform c >>= f).Always effect Succeeds P Q d := always_call hP hc h hf
end

lemma always_unlinkAll (paths : List Path)
    (h : ∀ q ∈ paths, q ∉ keep) : ∀ {d : Disk δ}, (∀ d', Frame keep d d' → P d') →
      (unlinkAll paths).Always effect Succeeds P (fun _ d' => Frame keep d d') d := by
  induction paths with
  | nil => exact fun hP => ⟨hP _ (Frame.refl keep _), Frame.refl keep _⟩
  | cons path paths ih =>
    intro d hP
    obtain ⟨hpath, h⟩ := forall_mem_cons.mp h
    refine always_call hP (by exact trivial) (by exact forall_mem_singleton.mpr hpath)
      fun hframe _ => ?_
    exact (ih h fun d' hd' => hP d' (hframe.trans hd')).mono fun _ d' hd' => hframe.trans hd'

/-- A disk with a new manifest and otherwise the same files. -/
structure Replaced (cfg : Config) (es : List AofInfo) (d d' : Disk δ) : Prop where
  manifest : d'.files (manifestPath cfg) = some (.manifest es)
  files : ∀ q, q ≠ manifestPath cfg → q ≠ tempManifestPath cfg → d'.files q = d.files q
  written : d'.written = d.written

lemma Replaced.data {cfg : Config} {d d' : Disk δ} {name : Bytes} (hd : Replaced cfg es d d')
    (h : ¬Special cfg (aofPath name)) : d'.files (aofPath name) = d.files (aofPath name) :=
  hd.files _ (fun heq => h (.inl heq)) fun heq => h (.inr (.inl heq))

lemma always_writeAofManifestFile {cfg : Config} {d : Disk δ} (htmp : tempManifestPath cfg ∉ keep)
    (hold : ∀ d', Frame keep d d' → P d') (hnew : ∀ d', Replaced cfg es d d' → P d') :
    (writeAofManifestFile cfg es).Always effect Succeeds P
      (fun ok d' => ok = true ∧ Replaced cfg es d d') d := by
  have htouch : ∀ q ∈ [tempManifestPath cfg], q ∉ keep := forall_mem_singleton.mpr htmp
  refine always_call hold (by exact trivial) (by exact htouch) fun hf₁ _ => ?_
  refine always_call (fun d' h => hold d' (hf₁.trans h)) (by exact trivial) (by exact htouch)
    fun hf₂ _ => ?_
  refine always_call (fun d' h => hold d' ((hf₁.trans hf₂).trans h)) (by exact trivial)
    (by intro q hq; cases hq) fun hf₃ _ => ?_
  have hframe := (hf₁.trans hf₂).trans hf₃
  -- the temporary file is complete, and nothing else has changed
  obtain ⟨d₃, hd₃⟩ : ∃ d₃, effect (.fsync (tempManifestPath cfg)) .ok
      (effect (.writeManifest (tempManifestPath cfg) es) .ok
        (effect (.openTrunc (tempManifestPath cfg)) .ok d)) = d₃ := ⟨_, rfl⟩
  have hfile : d₃.files (tempManifestPath cfg) = some (.manifest es) := by
    rw [← hd₃]
    exact if_pos rfl
  have hother : ∀ q, q ≠ tempManifestPath cfg → d₃.files q = d.files q := by
    intro q hq
    rw [← hd₃]
    exact (if_neg hq).trans (if_neg hq)
  have hwritten : d₃.written = d.written := by
    rw [← hd₃]
    rfl
  rw [hd₃] at hframe ⊢
  have hreplaced : Replaced cfg es d (effect (.rename (tempManifestPath cfg) (manifestPath cfg))
      .ok d₃) := by
    rw [effect, renameTo, hfile]
    refine ⟨if_pos rfl, fun q hq hq' => ?_, hwritten⟩
    exact ((if_neg hq).trans (if_neg hq')).trans (hother q hq')
  refine ⟨hold d₃ hframe, fun r => ?_⟩
  cases r with
  | fail n => exact ⟨hold d₃ hframe, fun h => (not_succeeds_fail _ n _ h).elim⟩
  | ok =>
    refine ⟨hnew _ hreplaced, fun _ => ⟨hnew _ hreplaced, fun r => ?_⟩⟩
    cases r with
    | fail n => exact ⟨hnew _ hreplaced, fun h => (not_succeeds_fail _ n _ h).elim⟩
    | ok => exact ⟨hnew _ hreplaced, fun _ => ⟨hnew _ hreplaced, rfl, hreplaced⟩⟩

lemma always_persistAofManifest {cfg : Config} (hdirty : am.dirty = true) {d : Disk δ}
    (htmp : tempManifestPath cfg ∉ keep) (hold : ∀ d', Frame keep d d' → P d')
    (hnew : ∀ d', Replaced cfg (entries am) d d' → P d') :
    (persistAofManifest cfg am).Always effect Succeeds P
      (fun r d' => r = (true, { am with dirty := false }) ∧ Replaced cfg (entries am) d d') d := by
  rw [persistAofManifest, if_pos hdirty]
  refine (always_writeAofManifestFile htmp hold hnew).seq fun ok d' h => ?_
  obtain ⟨rfl, h⟩ := h
  exact ⟨hnew d' h, rfl, h⟩

/-! ## Journals and calls -/

variable (L : Loader δ)

def journalPaths (cfg : Config) (front : List AofInfo) (last : AofInfo) : List Path :=
  manifestPath cfg :: (front ++ [last]).map fun ai => aofPath ai.fileName

section
variable {L} {cfg : Config} {db : δ} {front : List AofInfo} {last : AofInfo}
  {old pre cur : List Record} {part : Bytes} {d d' : Disk δ}

lemma mem_journalPaths {ai : AofInfo} (h : ai ∈ front ++ [last]) :
    aofPath ai.fileName ∈ journalPaths cfg front last :=
  mem_cons_of_mem _ (mem_map_of_mem (f := fun ai => aofPath ai.fileName) h)

lemma journal_frame (h : Journal L cfg db front last old pre cur part d)
    (hf : Frame (journalPaths cfg front last) d d') :
    Journal L cfg db front last old pre cur part d' := by
  obtain ⟨es, hes, horder⟩ := h.lines
  obtain ⟨cs, db', hcs, hwhole, hpre⟩ := h.whole
  have hfront : ∀ ai ∈ front, d'.files (aofPath ai.fileName) = d.files (aofPath ai.fileName) :=
    fun ai hai => hf.files _ (mem_journalPaths (mem_append_left _ hai))
  have hlast : d'.files (aofPath last.fileName) = d.files (aofPath last.fileName) :=
    hf.files _ (mem_journalPaths (mem_append_right _ mem_cons_self))
  exact ⟨⟨es, (hf.files _ mem_cons_self).trans hes, horder⟩,
    ⟨cs, db', (contents_congr hfront).trans hcs, hwhole, hpre⟩, hlast.trans h.file,
    hf.written.trans h.written, h.prefixed, h.valid, h.selects⟩

lemma journal_append (h : Journal L cfg db front last old pre cur part d) {bytes : Bytes}
    (hbytes : part ++ bytes <+: encodeRecords cur)
    (hlast : ∀ ai ∈ front, ai.fileName ≠ last.fileName)
    (hmanifest : aofPath last.fileName ≠ manifestPath cfg) :
    Journal L cfg db front last old pre cur (part ++ bytes)
      (appendTo d (aofPath last.fileName) bytes) := by
  obtain ⟨es, hes, horder⟩ := h.lines
  obtain ⟨cs, db', hcs, hwhole, hpre⟩ := h.whole
  rw [appendTo, h.file]
  refine ⟨⟨es, ?_, horder⟩, ⟨cs, db', ?_, hwhole, hpre⟩, ?_, ?_, hbytes, h.valid, h.selects⟩
  · exact (if_neg hmanifest.symm).trans hes
  · refine (contents_congr fun ai hai => if_neg fun heq => ?_).trans hcs
    exact hlast ai hai (congrArg Path.name heq)
  · refine (if_pos rfl).trans ?_
    rw [append_assoc]
  · rw [h.written, append_assoc]

lemma journal_rotate (h : Journal L cfg db front last old pre cur (encodeRecords cur) d)
    {next : AofInfo} (horder : loadOrder es = front ++ [last] ++ [next])
    (hd : Replaced cfg es d d') (hdata : ∀ ai ∈ front ++ [last], ¬Special cfg (aofPath ai.fileName))
    (hspecial : ¬Special cfg (aofPath next.fileName))
    (hnext : d.files (aofPath next.fileName) = some (.log [])) :
    Journal L cfg db (front ++ [last]) next (old ++ cur) [] [] [] d' := by
  obtain ⟨cs, db', hcs, hwhole, hpre⟩ := h.whole
  have hfull : encodeRecords pre ++ encodeRecords cur = encodeRecords (pre ++ cur) :=
    (encodeRecords_append pre cur).symm
  refine ⟨⟨es, hd.manifest, horder⟩, ⟨cs ++ [.log (encodeRecords (pre ++ cur))],
    replay L (pre ++ cur) db', ?_, hwhole.append L (loadFile_records L h.valid db'), ?_⟩, ?_, ?_,
    prefix_rfl, nofun, .inl rfl⟩
  · rw [contents_congr fun ai hai => hd.data (hdata ai hai), contents_append, hcs,
      contents_single d h.file, hfull]
    rfl
  · exact replay_append L (append_nil cur) h.selects hpre
  · exact (hd.data hspecial).trans hnext
  · rw [hd.written, h.written, encodeRecords_append, append_nil]

/-- A BASE file in the place of all files but the last. -/
lemma journal_rebase (h : Journal L cfg db front last old [] cur part d)
    {base : AofInfo} (horder : loadOrder es = [base] ++ [last])
    (hd : Replaced cfg es d d') (hlast : ¬Special cfg (aofPath last.fileName))
    (hspecial : ¬Special cfg (aofPath base.fileName))
    (hbase : d.files (aofPath base.fileName) = some (.snapshot (replay L old db))) :
    Journal L cfg db [base] last old [] cur part d' := by
  refine ⟨⟨es, hd.manifest, horder⟩, ⟨[.snapshot (replay L old db)], replay L old db, ?_,
    whole_snapshot L _, rfl⟩, (hd.data hlast).trans h.file, hd.written.trans h.written, h.prefixed,
    h.valid, h.selects⟩
  exact contents_single d' ((hd.data hspecial).trans hbase)

/-- The same files with other lines for the history. -/
lemma journal_relist (h : Journal L cfg db front last old pre cur part d)
    (horder : loadOrder es = front ++ [last]) (hd : Replaced cfg es d d')
    (hdata : ∀ ai ∈ front ++ [last], ¬Special cfg (aofPath ai.fileName)) :
    Journal L cfg db front last old pre cur part d' := by
  obtain ⟨cs, db', hcs, hwhole, hpre⟩ := h.whole
  obtain ⟨hfront, hlast⟩ := forall_mem_append.mp hdata
  refine ⟨⟨es, hd.manifest, horder⟩, ⟨cs, db', ?_, hwhole, hpre⟩, ?_,
    hd.written.trans h.written, h.prefixed, h.valid, h.selects⟩
  · exact (contents_congr fun ai hai => hd.data (hfront ai hai)).trans hcs
  · exact (hd.data (hlast last mem_cons_self)).trans h.file

end

/-! ## The server -/

/-- The files of a manifest, the last of which is an INCR file. -/
structure Files (cfg : Config) (am : AofManifest) (front : List AofInfo) (last : AofInfo) :
    Prop where
  named : Named cfg.aofFilename am
  used : inUse am = front ++ [last]
  last : am.incrAofList.getLast? = some last

section
variable {L} {cfg : Config} {db : δ} {am : AofManifest} {front : List AofInfo} {last : AofInfo}
  {old pre cur : List Record} {part : Bytes} {d : Disk δ}

section
variable (h : Files cfg am front last)
include h

lemma Files.mem_entries {ai : AofInfo}
    (hai : ai ∈ front ++ [last]) : ai ∈ entries am :=
  mem_entries_of_inUse (by rw [h.used]; exact hai)

lemma Files.data :
    ∀ ai ∈ front ++ [last], ¬Special cfg (aofPath ai.fileName) :=
  fun ai hai => (h.named.generated ai (h.mem_entries hai)).not_special

lemma Files.last_data : ¬Special cfg (aofPath last.fileName) :=
  h.data last (mem_append_right _ mem_cons_self)

lemma Files.last_ne : ∀ ai ∈ front, ai.fileName ≠ last.fileName := by
  have hsub : (inUse am).Sublist (entries am) :=
    (sublist_append_left _ _).append (List.Sublist.refl _)
  have hnodup := (hsub.map AofInfo.fileName).nodup h.named.nodup
  rw [h.used, map_append, nodup_append] at hnodup
  exact fun ai hai => hnodup.2.2 _ (mem_map_of_mem hai) _ mem_cons_self

end

/-- A path that is special, or the one of a file with a new name, is none of the journal. -/
lemma not_mem_journalPaths {q : Path} (hmanifest : q ≠ manifestPath cfg)
    (hq : ∀ ai ∈ front ++ [last], aofPath ai.fileName ≠ q) : q ∉ journalPaths cfg front last := by
  intro hmem
  rcases mem_cons.mp hmem with heq | hmem
  · exact hmanifest heq
  obtain ⟨ai, hai, heq⟩ := mem_map.mp hmem
  exact hq ai hai heq

lemma Files.tempManifest_not_mem (h : Files cfg am front last) :
    tempManifestPath cfg ∉ journalPaths cfg front last :=
  not_mem_journalPaths (tempManifest_ne_manifest cfg) fun ai hai heq =>
    h.data ai hai (.inr (.inl heq))

lemma work_not_mem {q : Path} (hq : q.dir = .work) : q ∉ journalPaths cfg front last := by
  refine not_mem_journalPaths ?_ fun ai _ heq => ?_
  · rintro rfl
    cases hq
  rw [← heq] at hq
  cases hq

/-- A flush, with any part of the buffer written when the server is killed in it. -/
lemma crash_flush (hf : Files cfg am front last)
    (hj : Journal L cfg db front last old pre cur part d) {s : Server δ}
    (hfd : s.aofFd = some (aofPath last.fileName)) (hbuf : part ++ s.aofBuf = encodeRecords cur) :
    (flushAppendOnlyFile cfg s).Always effect Succeeds (Recovers L cfg (old ++ cur) db)
      (fun s' d' => (∃ size, s' = { s with aofBuf := [], aofLastIncrSize := size }) ∧
        Journal L cfg db front last old pre cur (encodeRecords cur) d') d := by
  have hmanifest : aofPath last.fileName ≠ manifestPath cfg := fun heq => hf.last_data (.inl heq)
  rw [flushAppendOnlyFile]
  split
  · rename_i hnil
    rw [hnil, append_nil] at hbuf
    rw [hbuf] at hj
    refine ⟨hj.recovers, ⟨s.aofLastIncrSize, ?_⟩, hj⟩
    rw [← hnil]
  rw [hfd]
  have htorn : ∀ n, Journal L cfg db front last old pre cur (part ++ s.aofBuf.take n)
      (appendTo d (aofPath last.fileName) (s.aofBuf.take n)) := fun n =>
    journal_append hj (by
      rw [← hbuf]
      exact (prefix_append_right_inj part).mpr ( take_prefix n s.aofBuf))
      hf.last_ne hmanifest
  have hdone : Journal L cfg db front last old pre cur (encodeRecords cur)
      (appendTo d (aofPath last.fileName) s.aofBuf) := by
    have hall : part ++ s.aofBuf <+: encodeRecords cur := hbuf ▸ prefix_rfl
    have h := journal_append hj hall hf.last_ne hmanifest
    rw [hbuf] at h
    exact h
  refine ⟨hj.recovers, fun r => ?_⟩
  cases r with
  | fail n => exact ⟨(htorn n).recovers, fun h => (not_succeeds_fail _ n _ h).elim⟩
  | ok =>
    refine ⟨hdone.recovers, fun _ => ?_⟩
    split
    · refine ⟨hdone.recovers, fun r => ?_⟩
      cases r with
      | fail n => exact ⟨hdone.recovers, fun h => (not_succeeds_fail _ n _ h).elim⟩
      | ok => exact ⟨hdone.recovers, fun _ => ⟨hdone.recovers, ⟨_, rfl⟩, hdone⟩⟩
    · exact ⟨hdone.recovers, ⟨_, rfl⟩, hdone⟩

/-- The new file, when everything is written: all of the stream is in the files before. -/
lemma crash_openNewIncr {s : Server δ} (hf : Files cfg s.aofManifest front last)
    (hj : Journal L cfg db front last old pre cur (encodeRecords cur) d) (hon : s.aofState = .on) :
    (openNewIncrAofForAppend cfg s).Always effect Succeeds (Recovers L cfg (old ++ cur) db)
      (fun r d' => ∃ am next, r = (true, { s with
          aofManifest := am, aofFd := some (aofPath next.fileName), aofLastIncrSize := 0 }) ∧
        Files cfg am (front ++ [last]) next ∧
        Journal L cfg db (front ++ [last]) next (old ++ cur) [] [] [] d') d := by
  obtain ⟨am, next, hnew, hnamed, hdirty, huse, hincr, -⟩ := hf.named.newIncr_eq
  have hfiles : Files cfg am (front ++ [last]) next := by
    refine ⟨hnamed, by rw [huse, hf.used], ?_⟩
    rw [hincr]
    exact getLast?_concat
  have hdata := hfiles.last_data
  have hfresh : aofPath next.fileName ∉ journalPaths cfg front last := by
    refine not_mem_journalPaths (fun heq => hdata (.inl heq)) fun ai hai heq => ?_
    exact hfiles.last_ne ai hai (congrArg Path.name heq)
  rw [openNewIncrAofForAppend, hon]
  rw [hnew]
  refine always_perform (fun d' hd' => (journal_frame hj hd').recovers) (by exact trivial)
    (by exact forall_mem_singleton.mpr hfresh) fun hframe _ => ?_
  have hj := journal_frame hj hframe
  have hcreated : (effect (.openTrunc (aofPath next.fileName)) .ok d).files
      (aofPath next.fileName) = some (.log []) := if_pos rfl
  have hrotate : ∀ d', Replaced cfg (entries am)
      (effect (.openTrunc (aofPath next.fileName)) .ok d) d' →
      Journal L cfg db (front ++ [last]) next (old ++ cur) [] [] [] d' := fun d' hd' =>
    journal_rotate hj ((loadOrder_entries hfiles.named).trans hfiles.used) hd' hf.data hdata
      hcreated
  have hsame : ∀ d', Journal L cfg db (front ++ [last]) next (old ++ cur) [] [] [] d' →
      Recovers L cfg (old ++ cur) db d' := by
    intro d' hd'
    have := hd'.recovers
    rwa [append_nil] at this
  refine (always_persistAofManifest hdirty hf.tempManifest_not_mem
    (fun d' hd' => (journal_frame hj hd').recovers) fun d' hd' => hsame d' (hrotate d' hd')).seq
    fun r d' h => ?_
  obtain ⟨rfl, h⟩ := h
  refine ⟨hsame d' (hrotate d' h), { am with dirty := false }, next, ?_, ?_, hrotate d' h⟩
  · rw [← hon]
    rfl
  exact ⟨hfiles.named.dirty false, hfiles.used, hfiles.last⟩

end

/-- The server, with the stream `rs` of all the records that were fed to it and the
dataset `db` it was started with. -/
structure Logged (cfg : Config) (db : δ) (rs : List Record) (s : Server δ) (d : Disk δ)
    (front : List AofInfo) (last : AofInfo) (old pre cur : List Record) (part : Bytes) :
    Prop where
  journal : Journal L cfg db front last old pre cur part d
  files : Files cfg s.aofManifest front last
  stream : rs = old ++ cur
  on : s.aofState = .on
  fd : s.aofFd = some (aofPath last.fileName)
  buffered : part ++ s.aofBuf = encodeRecords cur
  selected : ∀ x, Knows s.aofSelectedDb (applied (call L.dbnum L.exec) cur x).2
  selected_none : s.aofSelectedDb = none ↔ cur = []
  data : s.data = replay L rs db
  child : ∀ c ∈ s.child, pre = [] ∧ c.db = replay L old db

/-- Some division of the stream into files. -/
def Consistent (cfg : Config) (db : δ) (rs : List Record) (s : Server δ) (d : Disk δ) : Prop :=
  ∃ front last old pre cur part, Logged L cfg db rs s d front last old pre cur part

section
variable {L} {cfg : Config} {db : δ} {rs : List Record} {s : Server δ} {d : Disk δ}

lemma Consistent.recovers (h : Consistent L cfg db rs s d) : Recovers L cfg rs db d := by
  obtain ⟨front, last, old, pre, cur, part, h⟩ := h
  rw [h.stream]
  exact h.journal.recovers

lemma Logged.recovers_frame {front last old pre cur part}
    (h : Logged L cfg db rs s d front last old pre cur part) {d'}
    (hd' : Frame (journalPaths cfg front last) d d') : Recovers L cfg rs db d' := by
  rw [h.stream]
  exact (journal_frame h.journal hd').recovers

section
variable (h : Consistent L cfg db rs s d)
include h

lemma crash_flush_event :
    (flushAppendOnlyFile cfg s).Always effect Succeeds (Recovers L cfg rs db)
      (Consistent L cfg db rs) d := by
  obtain ⟨front, last, old, pre, cur, part, h⟩ := h
  have hflush := crash_flush h.files h.journal h.fd h.buffered
  rw [← h.stream] at hflush
  refine hflush.mono fun s' d' hs' => ?_
  obtain ⟨⟨size, rfl⟩, hj⟩ := hs'
  exact ⟨front, last, old, pre, cur, encodeRecords cur,
    { h with journal := hj, buffered := append_nil _ }⟩

/-- The child has the dataset of the moment when the new file was opened. -/
lemma crash_rewrite (pid : Nat) :
    (rewriteAppendOnlyFileBackground cfg pid s).Always effect Succeeds (Recovers L cfg rs db)
      (fun r d' => Consistent L cfg db rs r.2 d') d := by
  rw [rewriteAppendOnlyFileBackground]
  split
  · exact ⟨h.recovers, h⟩
  obtain ⟨front, last, old, pre, cur, part, h⟩ := h
  refine always_perform (fun _ => h.recovers_frame) (by exact trivial) (by intro q hq; cases hq) fun hframe _ => ?_
  have hflush := @crash_flush δ L cfg db s.aofManifest front last old pre cur part _ h.files
    (journal_frame h.journal hframe) { s with aofSelectedDb := none } h.fd h.buffered
  rw [← h.stream] at hflush
  refine hflush.seq fun s' d' hs' => ?_
  obtain ⟨⟨size, rfl⟩, hj⟩ := hs'
  have hopen := @crash_openNewIncr δ L cfg db front last old pre cur d' { s with
    aofSelectedDb := none, aofBuf := [], aofLastIncrSize := size } h.files hj h.on
  rw [← h.stream] at hopen
  refine hopen.seq fun r d' hr => ?_
  obtain ⟨am, next, rfl, hfiles, hj⟩ := hr
  have hsame : ∀ d'', Frame (journalPaths cfg (front ++ [last]) next) d' d'' →
      Recovers L cfg rs db d'' := by
    intro d'' hd''
    have := (journal_frame hj hd'').recovers
    rwa [append_nil] at this
  dsimp only
  refine always_perform hsame (by exact trivial) (by intro q hq; cases hq) fun hframe _ => ?_
  refine ⟨hsame _ hframe, front ++ [last], next, rs, [], [], [], journal_frame hj hframe, hfiles,
    (append_nil rs).symm, h.on, rfl, rfl, fun x => knows_none _, iff_of_true rfl rfl, h.data,
    ?_⟩
  rintro c ⟨⟩
  exact ⟨rfl, h.data⟩

/-! ## The end of a rewrite -/

lemma crash_cleanup (pid : Nat) :
    (rewriteCleanup cfg pid s).Always effect Succeeds (Recovers L cfg rs db)
      (Consistent L cfg db rs) d := by
  obtain ⟨front, last, old, pre, cur, part, h⟩ := h
  have hpaths : ∀ q ∈ [tmpfile pid, childTmpfile pid], q ∉ journalPaths cfg front last :=
    forall_mem_cons.mpr ⟨work_not_mem rfl, forall_mem_singleton.mpr (work_not_mem rfl)⟩
  refine (always_unlinkAll _ hpaths fun _ => h.recovers_frame).seq fun _ d' hd' => ?_
  rw [if_neg (by rw [h.on]; decide)]
  exact ⟨h.recovers_frame hd', front, last, old, pre, cur, part,
    { h with journal := journal_frame h.journal hd', child := nofun }⟩

lemma crash_delHistory :
    (Rewrite.aofDelHistoryFiles cfg s).Always effect Succeeds (Recovers L cfg rs db)
      (Consistent L cfg db rs) d := by
  rw [Rewrite.aofDelHistoryFiles]
  split
  · exact ⟨h.recovers, h⟩
  rename_i hcond
  obtain ⟨front, last, old, pre, cur, part, h⟩ := h
  have hdel := delHistory_eq hcond
  have hnamed := h.files.named.delHistory
  rw [hdel] at hnamed ⊢
  have hpaths : ∀ q ∈ s.aofManifest.historyAofList.map (fun ai => aofPath ai.fileName),
      q ∉ journalPaths cfg front last := by
    intro q hq
    obtain ⟨hist, hhist, rfl⟩ := mem_map.mp hq
    have hentry : hist ∈ entries s.aofManifest := mem_append_left _ (mem_append_right _ hhist)
    refine not_mem_journalPaths
      (fun heq => (h.files.named.generated hist hentry).not_special (.inl heq))
      fun ai hai heq => ?_
    rw [← h.files.used] at hai
    exact h.files.named.history_ne hhist hai (congrArg Path.name heq).symm
  refine (always_unlinkAll _ hpaths fun _ => h.recovers_frame).seq fun _ d' hd' => ?_
  have hj := journal_frame h.journal hd'
  have horder := (loadOrder_entries hnamed).trans h.files.used
  have hnew : ∀ d'', Replaced cfg (entries { s.aofManifest with
      historyAofList := [], dirty := true }) d' d'' →
      Journal L cfg db front last old pre cur part d'' := fun d'' hd'' =>
    journal_relist hj horder hd'' h.files.data
  refine (always_persistAofManifest rfl h.files.tempManifest_not_mem
    (fun d'' hd'' => h.recovers_frame (hd'.trans hd'')) fun d'' hd'' => ?_).seq fun r d'' hr => ?_
  · rw [h.stream]
    exact (hnew d'' hd'').recovers
  obtain ⟨rfl, hr⟩ := hr
  have hfinal : Consistent L cfg db rs { s with aofManifest :=
      { s.aofManifest with historyAofList := [], dirty := false } } d'' :=
    ⟨front, last, old, pre, cur, part,
      { h with journal := hnew d'' hr, files := { h.files with named := hnamed.dirty false } }⟩
  exact ⟨hfinal.recovers, hfinal⟩

end

/-- The new BASE file is in the directory, but in no manifest yet. -/
lemma crash_installManifest {front : List AofInfo} {last base : AofInfo}
    {old cur : List Record} {part : Bytes} (h : Logged L cfg db rs s d front last old [] cur part)
    (hnamed : Named cfg.aofFilename am) (hdirty : am.dirty = true)
    (hbase : am.baseAofInfo = some base) (hincr : am.incrAofList = s.aofManifest.incrAofList)
    (hfile : d.files (aofPath base.fileName) = some (.snapshot (replay L old db))) :
    (installManifest cfg (aofPath base.fileName) none am s).Always effect Succeeds
      (Recovers L cfg rs db) (Consistent L cfg db rs) d := by
  have hopen : s.aofFd.isSome = true := by rw [h.fd]; rfl
  obtain ⟨dirty, hmark⟩ := markRewritten_fields true am
  have hkept : keptIncr true am = [last] := by
    rw [keptIncr, hincr, h.files.last]
    rfl
  have hfiles : Files cfg (markRewrittenIncrAofAsHistory true am) [base] last := by
    refine ⟨hnamed.rewritten true, ?_, ?_⟩
    · rw [inUse_rewritten, hbase, hkept]
      rfl
    rw [hmark]
    rw [hkept]
    rfl
  have hspecial : ¬Special cfg (aofPath base.fileName) := hfiles.data base mem_cons_self
  have horder := (loadOrder_entries hfiles.named).trans hfiles.used
  have hnew : ∀ d', Replaced cfg (entries (markRewrittenIncrAofAsHistory true am)) d d' →
      Journal L cfg db [base] last old [] cur part d' := fun d' hd' =>
    journal_rebase h.journal horder hd' h.files.last_data hspecial hfile
  rw [installManifest, hopen]
  refine (always_persistAofManifest (markRewritten_dirty _ hdirty) h.files.tempManifest_not_mem
    (fun d' hd' => h.recovers_frame hd') fun d' hd' => ?_).seq fun r d' hr => ?_
  · rw [h.stream]
    exact (hnew d' hd').recovers
  obtain ⟨rfl, hr⟩ := hr
  have hnext : Consistent L cfg db rs { s with aofManifest :=
      { markRewrittenIncrAofAsHistory true am with dirty := false } } d' :=
    ⟨[base], last, old, [], cur, part, { h with
      journal := hnew d' hr, files := { hfiles with named := hfiles.named.dirty false } }⟩
  dsimp only
  refine (crash_delHistory hnext).seq fun s' d' hs' => ?_
  refine ⟨hs'.recovers, ?_⟩
  obtain ⟨front, last, old, pre, cur, part, h⟩ := hs'
  refine ⟨front, last, old, pre, cur, part, { h with on := ?_ }⟩
  rw [h.on]
  rfl

lemma crash_done (h : Consistent L cfg db rs s d) (outcome : ChildExit) {child : Child δ}
    (hchild : s.child = some child) :
    (backgroundRewriteDoneHandler cfg outcome child s).Always effect Succeeds
      (Recovers L cfg rs db) (Consistent L cfg db rs) d := by
  cases outcome with
  | error | signal => exact crash_cleanup h child.pid
  | success =>
    obtain ⟨front, last, old, pre, cur, part, h⟩ := h
    obtain ⟨rfl, hdb⟩ := h.child child hchild
    have hwork : tmpfile child.pid ∉ journalPaths cfg front last := work_not_mem rfl
    refine always_perform (fun _ => h.recovers_frame) (by exact trivial)
      (by exact forall_mem_singleton.mpr hwork) fun hframe _ => ?_
    -- the new manifest, with the new BASE file in it
    obtain ⟨am, base, hnew, hnamed, hdirty, hamBase, hincr, -, hfresh⟩ :=
      h.files.named.newBase_eq cfg.aofUseRdbPreamble
    have hspecial : ¬Special cfg (aofPath base.fileName) :=
      (hnamed.generated base (mem_entries_of_inUse (mem_append_left _
        (Option.mem_toList.mpr hamBase)))).not_special
    have hrename : ∀ q ∈ [tmpfile child.pid, aofPath base.fileName],
        q ∉ journalPaths cfg front last := by
      refine forall_mem_cons.mpr ⟨hwork, forall_mem_singleton.mpr ?_⟩
      refine not_mem_journalPaths (fun heq => hspecial (.inl heq)) fun ai hai heq => ?_
      exact hfresh ai (h.files.mem_entries hai) (congrArg Path.name heq)
    rw [installRewrite, hnew]
    refine Prog.Always.seq ?_ fun s' d' hs' => crash_cleanup hs' child.pid
    refine always_perform (fun d' hd' => h.recovers_frame (hframe.trans hd')) (by exact trivial)
      (by exact hrename) fun hframe' _ => ?_
    rw [if_neg (not_not_intro rfl), if_neg (by rw [h.on]; decide)]
    refine crash_installManifest { h with
      journal := journal_frame h.journal (hframe.trans hframe') } hnamed hdirty hamBase hincr ?_
    have htmp : (effect (.child (tmpfile child.pid) child.db) .ok d).files (tmpfile child.pid) =
        some (.snapshot child.db) := if_pos rfl
    rw [effect, renameTo, htmp, ← hdb]
    exact if_pos rfl

end

/-! ## Runs -/

/-- The commands of `p` are executed and fed to the buffer. -/
def feed (p : Pending) (s : Server δ) : Server δ :=
  { s with
    data := execOps L.exec p.ops s.data
    aofBuf := s.aofBuf ++ encodeRecords (propagatePendingCommands p s.aofSelectedDb).1
    aofSelectedDb := (propagatePendingCommands p s.aofSelectedDb).2 }

/-- What else happens to a server whose AOF is on. -/
inductive RewriteEvent where
  | flush
  | rewrite (pid : Nat)
  | childDone (outcome : ChildExit)
  deriving DecidableEq, Repr

def RewriteEvent.event : RewriteEvent → Event δ
  | .flush => .flush
  | .rewrite pid => .rewrite pid
  | .childDone outcome => .childDone outcome

/-- A run with the stream of the records that were fed in it. -/
inductive LogRun (cfg : Config) (s₀ : Server δ) (d₀ : Disk δ) :
    List Record → Server δ → Disk δ → Prop
  | start : LogRun cfg s₀ d₀ [] s₀ d₀
  | propagate {p : Pending} (hp : p.Valid L.dbnum L.known) {rs : List Record} {s : Server δ}
      {d : Disk δ} (h : LogRun cfg s₀ d₀ rs s d) :
      LogRun cfg s₀ d₀ (rs ++ (propagatePendingCommands p s.aofSelectedDb).1) (feed L p s) d
  | event (e : RewriteEvent) {rs : List Record} {s s' : Server δ} {d d' : Disk δ}
      (h : LogRun cfg s₀ d₀ rs s d)
      (he : (handle cfg s e.event).Ends effect Succeeds d s' d') : LogRun cfg s₀ d₀ rs s' d'

section
variable {L} {cfg : Config} {db : δ} {rs : List Record} {s : Server δ} {d : Disk δ}

lemma propagate_selected (p : Pending) (selectedDb : Option Nat) :
    (propagatePendingCommands p selectedDb).2 ≠ none := by
  have hops : ∀ (op : Op) (ops : List Op) (sel : Option Nat), (feedOps (op :: ops) sel).2 ≠ none := by
    intro op ops
    induction ops generalizing op with
    | nil => exact nofun
    | cons op' ops ih => exact fun sel => ih op' (some op.dbid)
  rw [propagatePendingCommands]
  split
  · exact hops p.first p.others selectedDb
  · exact hops p.first p.others (some p.first.dbid)

lemma consistent_feed (h : Consistent L cfg db rs s d) {p : Pending}
    (hp : p.Valid L.dbnum L.known) :
    Consistent L cfg db (rs ++ (propagatePendingCommands p s.aofSelectedDb).1) (feed L p s) d := by
  obtain ⟨front, last, old, pre, cur, part, h⟩ := h
  obtain ⟨new, hnew⟩ : ∃ new, (propagatePendingCommands p s.aofSelectedDb).1 = new := ⟨_, rfl⟩
  have happlied := fun x : δ × Nat => @applied_propagate δ L.dbnum L.exec p s.aofSelectedDb L.dbnum_lt
    L.known hp x
  have hvalid := valid_propagate L.dbnum_lt hp s.aofSelectedDb
  have hj := h.journal
  have hselects : StartsWithSelect L.dbnum (cur ++ new) := by
    rcases hj.selects with hnil | hsel
    · rw [hnil, ← hnew, h.selected_none.mpr hnil]
      exact startsWithSelect_propagate hp
    · exact hsel.append
  have hne : cur ++ new ≠ [] := by
    intro hnil
    obtain ⟨n, rest, -, heq⟩ := hselects
    rw [hnil] at heq
    cases heq
  have hbytes : encodeRecords cur <+: encodeRecords (cur ++ new) := by
    rw [encodeRecords_append]
    exact prefix_append _ _
  rw [hnew] at happlied hvalid ⊢
  refine ⟨front, last, old, pre, cur ++ new, part,
    { hj with prefixed := hj.prefixed.trans hbytes, valid := ?_, selects := .inr hselects }, h.files, ?_, h.on, h.fd, ?_, ?_, ?_, ?_,
    h.child⟩
  · rw [← append_assoc]
    exact forall_mem_append.mpr ⟨hj.valid, hvalid⟩
  · rw [h.stream, append_assoc]
  · rw [feed, hnew, encodeRecords_append, ← h.buffered, append_assoc]
  · intro x
    rw [applied_append]
    exact (happlied _ (h.selected x)).2
  · exact iff_of_false (propagate_selected p _) hne
  · have hknows := h.selected (applied (call L.dbnum L.exec) old (db, 0))
    rw [← applied_append, ← h.stream] at hknows
    rw [replay, applied_append, (happlied _ hknows).1]
    exact congrArg (execOps L.exec p.ops) h.data

lemma crash_handle (h : Consistent L cfg db rs s d) (e : RewriteEvent) :
    (handle cfg s e.event).Always effect Succeeds (Recovers L cfg rs db)
      (Consistent L cfg db rs) d := by
  cases e with
  | flush => exact crash_flush_event h
  | rewrite pid => exact (crash_rewrite h pid).seq fun r d' hr => ⟨hr.recovers, hr⟩
  | childDone outcome =>
    rw [RewriteEvent.event, handle]
    split
    · exact ⟨h.recovers, h⟩
    rename_i child hchild
    exact crash_done h outcome hchild

lemma consistent_run {s₀ : Server δ} {d₀ : Disk δ} (h : Consistent L cfg db [] s₀ d₀)
    (hrun : LogRun L cfg s₀ d₀ rs s d) : Consistent L cfg db rs s d := by
  induction hrun with
  | start => exact h
  | propagate hp _ ih => exact consistent_feed ih hp
  | event e _ he ih => exact (crash_handle ih e).of_ends he

end

/-- A server that has loaded the files of its manifest and opened the last INCR file, in
which there are complete records. -/
structure Started (cfg : Config) (s : Server δ) (d : Disk δ) : Prop where
  on : s.aofState = .on
  buffer : s.aofBuf = []
  selected : s.aofSelectedDb = none
  child : s.child = none
  written : d.written = []
  files : ∃ front last pre cs db, Files cfg s.aofManifest front last ∧
    s.aofFd = some (aofPath last.fileName) ∧
    d.files (manifestPath cfg) = some (.manifest (entries s.aofManifest)) ∧
    contents d front = some cs ∧ Whole L cs db ∧
    d.files (aofPath last.fileName) = some (.log (encodeRecords pre)) ∧
    (∀ r ∈ pre, r.Valid (loaderKnown L.known)) ∧ s.data = replay L pre db

section
variable {L} {cfg : Config} {rs : List Record} {s₀ s : Server δ} {d₀ d d' : Disk δ}

lemma Started.consistent (h : Started L cfg s₀ d₀) : Consistent L cfg s₀.data [] s₀ d₀ := by
  obtain ⟨front, last, pre, cs, db, hfiles, hfd, hmanifest, hcs, hwhole, hlast, hpre, hdata⟩ :=
    h.files
  have hjournal : Journal L cfg s₀.data front last [] pre [] [] d₀ := by
    refine ⟨⟨_, hmanifest, (loadOrder_entries hfiles.named).trans hfiles.used⟩,
      ⟨cs, db, hcs, hwhole, hdata.symm⟩, ?_, h.written, prefix_rfl, ?_, .inl rfl⟩
    · rw [hlast, append_nil]
    rw [append_nil]
    exact hpre
  refine ⟨front, last, [], pre, [], [], hjournal, hfiles, rfl, h.on, hfd, h.buffer, ?_,
    iff_of_true h.selected rfl, rfl, ?_⟩
  · rw [h.selected]
    exact fun x => knows_none _
  rw [h.child]
  exact nofun

/-- Killed at any instant of a run, the server loads the dataset that it had when it was
started, with exactly the commands executed whose bytes were written. The dataset it had
in memory is the one of the whole stream. -/
theorem crash_recovers_written (hstart : Started L cfg s₀ d₀)
    (hrun : LogRun L cfg s₀ d₀ rs s d) (e : RewriteEvent)
    (hstop : (handle cfg s e.event).Reaches effect Succeeds d d') :
    Recovers L cfg rs s₀.data d' ∧ s.data = replay L rs s₀.data := by
  have h := consistent_run hstart.consistent hrun
  refine ⟨(crash_handle h e).of_reaches hstop, ?_⟩
  obtain ⟨_, _, _, _, _, _, h⟩ := h
  exact h.data

end

end

/-! ## A server that has just started -/

open RewriteFailures (listed sampleConfig sampleManifest sample_named)

/-- A dataset that keeps the commands with their databases. -/
def sampleLoader : Loader (List (Nat × List Bytes)) :=
  ⟨fun _ => true, fun dbid argv log => log ++ [(dbid, argv)], 16, by decide,
    fun _ _ => .error false, []⟩

def sampleBase : AofInfo := ⟨baseFileName [97] true 1, 1, .base⟩
def sampleIncr : AofInfo := ⟨incrFileName [97] 1, 1, .incr⟩

def loggedServer : Server (List (Nat × List Bytes)) :=
  ⟨[], sampleManifest, .on, some (aofPath sampleIncr.fileName), [], 0, none, none, false⟩

def loggedDisk : Disk (List (Nat × List Bytes)) :=
  ⟨fun p => if p = manifestPath sampleConfig then some (.manifest (entries sampleManifest))
    else if p = aofPath sampleBase.fileName then some (.snapshot [])
    else if p = aofPath sampleIncr.fileName then some (.log []) else none, []⟩

lemma loggedServer_started : Started sampleLoader sampleConfig loggedServer loggedDisk := by
  have hmanifest : loggedDisk.files (manifestPath sampleConfig) =
      some (.manifest (entries sampleManifest)) := by decide +kernel
  refine ⟨rfl, rfl, rfl, rfl, rfl, [sampleBase], sampleIncr, [], [.snapshot []], [],
    ⟨sample_named, rfl, rfl⟩, rfl, hmanifest, ?_, whole_snapshot _ _, by decide +kernel,
    nofun, rfl⟩
  exact contents_single loggedDisk (by decide +kernel)

def samplePending : Pending := ⟨⟨3, [Util.Stdlib.text ['I', 'N', 'C', 'R'], [97]], none⟩, [], none⟩

lemma samplePending_valid : samplePending.Valid 16 fun _ => true := by
  refine ⟨fun op hop => ?_, nofun⟩
  rw [mem_singleton.mp hop]
  refine ⟨by decide, ⟨by decide, by decide, by decide⟩, by decide, by decide, fun t ht => ?_⟩
  cases ht

/-- Killed while the new manifest is renamed over the old one: the first command is in the new
BASE file, and the second one, which was written after the rewrite had started, in the second
INCR file. -/
theorem crash_recovers_written_in_rewrite : ∃ rs s d d',
    LogRun sampleLoader sampleConfig loggedServer loggedDisk rs s d ∧
      (listed sampleConfig d').map AofInfo.fileName =
        [baseFileName [97] true 2, incrFileName [97] 2] ∧
      d'.written = encodeRecords rs ∧ Recovers sampleLoader sampleConfig rs [] d' := by
  have hsucceeds (c : Call (List (Nat × List Bytes))) (r d) :
      (decide (r = .ok) && returned c r d) = true → Succeeds c r d := by simp [Succeeds]
  have go {rs s d s' d'} (h : LogRun sampleLoader sampleConfig loggedServer loggedDisk rs s d)
      (e : RewriteEvent) (results : List Result)
      (hexec : (handle sampleConfig s e.event).exec effect
        (fun c r d => decide (r = .ok) && returned c r d) results d = some (s', d')) :
      LogRun sampleLoader sampleConfig loggedServer loggedDisk rs s' d' :=
    .event e h (Prog.ends_of_exec hsucceeds hexec)
  have hone := go (.propagate samplePending_valid .start) .flush [.ok] rfl
  have hrewrite := go hone (.rewrite 7) [.ok, .ok, .ok, .ok, .ok, .ok, .ok, .ok] rfl
  have htwo := go (.propagate samplePending_valid hrewrite) .flush [.ok] rfl
  refine ⟨_, _, _, _, htwo, ?_, ?_, (crash_recovers_written loggedServer_started htwo
    (.childDone .success) (.after ⟨rfl, rfl⟩ (.after ⟨rfl, by decide +kernel⟩ (.after ⟨rfl, rfl⟩
      (.after ⟨rfl, rfl⟩ (.after ⟨rfl, rfl⟩ (.during _ _ .ok _))))))).1⟩ <;> decide +kernel

end Redis.Aof.RewriteCrash
