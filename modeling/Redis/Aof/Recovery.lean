import Redis.Aof.Feed
import Redis.Aof.RewriteNames

/-! # Loading the files of a manifest

`loadAppendOnlyFiles` loads the BASE file and then the INCR files, each as a file of its
own. Only the last one may end in the middle of a record. A `Journal` says how the files
on disk divide the stream of all the records that were fed, and therefore what a server
that is started on this disk loads. -/
namespace Redis.Aof.Recovery
open List Lib Manifest Loading TailRepair Repair
open Feed Rewrite RewriteNames

/-- What the loader needs: the commands it knows, what they do in which database, how
many databases there are, how RDB files are read, and the empty dataset. -/
structure Loader (δ : Type) where
  known : List Bytes → Bool
  exec : Nat → List Bytes → δ → δ
  dbnum : Nat
  dbnum_lt : dbnum < 2 ^ 31
  rdbLoadRio : Bytes → δ × Nat → Except Bool ((δ × Nat) × Nat)
  empty : δ

section
variable {δ : Type} (L : Loader δ) {c : Content δ} {db db' : δ} {rs : List Record}

def Loader.load (bytes : Bytes) (db : δ) : Loaded (δ × Nat) :=
  loadSingleAppendOnlyFile (loaderKnown L.known) (call L.dbnum L.exec) L.rdbLoadRio true bytes
    (db, 0)

/-- The dataset behind a file, and whether the file was cut. -/
def loadFile (db : δ) : Content δ → Option (δ × Bool)
  | .snapshot db => some (db, false)
  | .log bytes =>
    if (L.load bytes db).status = .failed then none
    else some ((L.load bytes db).db.1, decide ((L.load bytes db).status = .truncated))
  | _ => none

/-- A file that was cut has to be the last one. -/
def loadFiles : List (Content δ) → δ → Option δ
  | [], db => some db
  | c :: cs, db => (loadFile L db c).bind fun x =>
      if x.2 && !cs.isEmpty then none else loadFiles cs x.1

/-- The BASE file of a manifest and its INCR files. -/
def loadOrder (es : List AofInfo) : List AofInfo :=
  es.filter (fun ai => ai.fileType = .base) ++ es.filter fun ai => ai.fileType = .incr

def contents (d : Disk δ) : List AofInfo → Option (List (Content δ))
  | [] => some []
  | ai :: us => (d.files (aofPath ai.fileName)).bind fun c => (contents d us).map (c :: ·)

/-- The dataset of a server that is started on this disk. -/
def loadAppendOnlyFiles (cfg : Config) (d : Disk δ) : Option δ :=
  match d.files (manifestPath cfg) with
  | some (.manifest es) => (contents d (loadOrder es)).bind fun cs => loadFiles L cs L.empty
  | _ => none

/-- The dataset after some records, by a client that starts in database 0. -/
def replay (rs : List Record) (db : δ) : δ := (applied (call L.dbnum L.exec) rs (db, 0)).1

/-- What was written is the beginning of the stream, and loading executes exactly the
records that are complete in it. -/
def Recovers (cfg : Config) (rs : List Record) (db : δ) (d : Disk δ) : Prop :=
  d.written <+: encodeRecords rs ∧
    loadAppendOnlyFiles L cfg d = some (replay L (completeRecords rs d.written.length) db)

/-! ## Manifests -/

lemma loadOrder_entries {f : Bytes} {am : AofManifest} (h : Named f am) :
    loadOrder (entries am) = inUse am := by
  have hkeep : ∀ {t : AofFileType} {us : List AofInfo}, (∀ ai ∈ us, ai.fileType = t) →
      us.filter (fun ai => ai.fileType = t) = us := fun h =>
    filter_eq_self.mpr fun ai hai => decide_eq_true (h ai hai)
  have hdrop : ∀ {t t' : AofFileType} {us : List AofInfo}, t ≠ t' →
      (∀ ai ∈ us, ai.fileType = t) → us.filter (fun ai => ai.fileType = t') = [] :=
    fun hne h => filter_eq_nil_iff.mpr fun ai hai => by
      rw [h ai hai, decide_eq_true_eq]
      exact hne
  have hbase : ∀ ai ∈ am.baseAofInfo.toList, ai.fileType = .base :=
    fun ai hai => h.base ai (Option.mem_toList.mp hai)
  rw [loadOrder, entries, filter_append, filter_append, filter_append,
    filter_append, hkeep hbase, hdrop (by decide) h.history, hdrop (by decide) h.incr,
    hdrop (by decide) hbase, hdrop (by decide) h.history, hkeep h.incr]
  simp only [append_nil]
  rfl

lemma contents_append (d : Disk δ) (us vs : List AofInfo) : contents d (us ++ vs) =
    (contents d us).bind fun cs => (contents d vs).map (cs ++ ·) := by
  induction us with
  | nil =>
    cases h : contents d vs with
    | none | some cs => rw [nil_append, h]; rfl
  | cons u us ih =>
    rw [cons_append, contents, contents, ih]
    cases d.files (aofPath u.fileName) with
    | none => rfl
    | some c =>
      cases contents d us with
      | none => rfl
      | some cs =>
        cases contents d vs with
        | none => rfl
        | some cs' => rfl

lemma contents_single (d : Disk δ) {ai : AofInfo}
    (h : d.files (aofPath ai.fileName) = some c) : contents d [ai] = some [c] := by
  rw [contents, h]
  rfl

lemma contents_congr {d d' : Disk δ} {us : List AofInfo}
    (h : ∀ ai ∈ us, d'.files (aofPath ai.fileName) = d.files (aofPath ai.fileName)) :
    contents d' us = contents d us := by
  induction us with
  | nil => rfl
  | cons u us ih =>
    rw [contents, contents, h u mem_cons_self, ih (forall_mem_cons.mp h).2]

/-! ## Files -/

lemma loadFile_records (hrs : ∀ r ∈ rs, r.Valid (loaderKnown L.known))
    (db : δ) : loadFile L db (.log (encodeRecords rs)) = some (replay L rs db, false) := by
  obtain ⟨status, hstatus, hload⟩ :
      Loads (loaderKnown L.known) (call L.dbnum L.exec) L.rdbLoadRio _ (db, 0) _ _ :=
    load_records hrs (db, 0)
  have hcut : (loadSingleAppendOnlyFile (loaderKnown L.known) (call L.dbnum L.exec) L.rdbLoadRio
      true (encodeRecords rs) (db, 0)).status ≠ .truncated := load_records_status hrs (db, 0)
  rw [hload] at hcut
  rw [loadFile, Loader.load, hload, if_neg hstatus, decide_eq_false hcut]
  rfl

lemma loadFile_take (hrs : ∀ r ∈ rs, r.Valid (loaderKnown L.known))
    (k : Nat) (db : δ) : ∃ cut, loadFile L db (.log ((encodeRecords rs).take k)) =
      some (replay L (completeRecords rs k) db, cut) := by
  obtain ⟨file, ⟨status, hstatus, hload⟩, -⟩ :
      ∃ file, Loads (loaderKnown L.known) (call L.dbnum L.exec) L.rdbLoadRio _ (db, 0) _ file ∧ _ :=
    load_take hrs k (db, 0)
  refine ⟨decide (status = .truncated), ?_⟩
  rw [loadFile, Loader.load, hload, if_neg hstatus]
  rfl

lemma loadFiles_last {cut : Bool}
    (h : loadFile L db c = some (db', cut)) : loadFiles L [c] db = some db' := by
  rw [loadFiles, h]
  cases cut <;> rfl

/-- Files that are loaded whole, from the empty dataset to `db`. -/
def Whole (cs : List (Content δ)) (db : δ) : Prop :=
  ∀ rest, loadFiles L (cs ++ rest) L.empty = loadFiles L rest db

lemma Whole.append {cs : List (Content δ)} (h : Whole L cs db)
    (hc : loadFile L db c = some (db', false)) : Whole L (cs ++ [c]) db' := by
  intro rest
  rw [append_assoc, h, singleton_append, loadFiles, hc]
  rfl

lemma whole_snapshot (db : δ) : Whole L [.snapshot db] db := fun _ => rfl

/-! ## The journal -/

/-- The stream of records that was fed is `old ++ cur`. The files in front of the last
one, with the records `pre` that the last one had when the server was started, hold what
`old` did, and the last one has the part `part` of `cur`. -/
structure Journal (cfg : Config) (db : δ) (front : List AofInfo) (last : AofInfo)
    (old pre cur : List Record) (part : Bytes) (d : Disk δ) : Prop where
  lines : ∃ es, d.files (manifestPath cfg) = some (.manifest es) ∧ loadOrder es = front ++ [last]
  whole : ∃ cs db', contents d front = some cs ∧ Whole L cs db' ∧ replay L pre db' = replay L old db
  file : d.files (aofPath last.fileName) = some (.log (encodeRecords pre ++ part))
  written : d.written = encodeRecords old ++ part
  prefixed : part <+: encodeRecords cur
  valid : ∀ r ∈ pre ++ cur, r.Valid (loaderKnown L.known)
  selects : cur = [] ∨ StartsWithSelect L.dbnum cur

/-- The last file is loaded as if it followed the stream, although its client starts in
database 0. -/
lemma replay_append {cur some' : List Record} {rest : List Record}
    (hcur : some' ++ rest = cur) (hsel : cur = [] ∨ StartsWithSelect L.dbnum cur)
    {pre old : List Record} (h : replay L pre db' = replay L old db) :
    replay L (pre ++ some') db' = replay L (old ++ some') db := by
  rw [replay, replay, applied_append, applied_append]
  obtain ⟨x, hx⟩ : ∃ x, x = applied (call L.dbnum L.exec) pre (db', 0) := ⟨_, rfl⟩
  obtain ⟨y, hy⟩ : ∃ y, y = applied (call L.dbnum L.exec) old (db, 0) := ⟨_, rfl⟩
  have hxy : x.1 = y.1 := by
    rw [hx, hy]
    exact h
  rw [← hx, ← hy]
  rcases hsel with hnil | hsel
  · rw [hnil] at hcur
    rw [(append_eq_nil_iff.mp hcur).1]
    exact hxy
  rw [← hcur] at hsel
  obtain ⟨xdb, xsel⟩ := x
  obtain ⟨ydb, ysel⟩ := y
  have hdb : xdb = ydb := hxy
  rw [hdb]
  exact hsel.applied_eq L.dbnum_lt ydb xsel ysel

lemma Journal.recovers {cfg : Config} {front : List AofInfo} {last : AofInfo}
    {old pre cur : List Record} {part : Bytes} {d : Disk δ}
    (h : Journal L cfg db front last old pre cur part d) : Recovers L cfg (old ++ cur) db d := by
  obtain ⟨es, hes, horder⟩ := h.lines
  obtain ⟨cs, db', hcs, hwhole, hpre⟩ := h.whole
  have hlast : encodeRecords pre ++ part =
      (encodeRecords (pre ++ cur)).take ((encodeRecords pre).length + part.length) := by
    rw [encodeRecords_append, take_length_add_append, ← prefix_iff_eq_take.mp h.prefixed]
  obtain ⟨cut, hload⟩ := loadFile_take L h.valid ((encodeRecords pre).length + part.length) db'
  rw [← hlast, completeRecords_append] at hload
  obtain ⟨rest, hrest⟩ := completeRecords_prefix cur part.length
  refine ⟨?_, ?_⟩
  · rw [h.written, encodeRecords_append]
    exact (prefix_append_right_inj _).mpr h.prefixed
  rw [loadAppendOnlyFiles, hes]
  dsimp only
  rw [horder, contents_append, hcs, contents_single d h.file]
  dsimp only [Option.bind_some, Option.map_some]
  rw [hwhole, loadFiles_last L hload, h.written, length_append, completeRecords_append,
    replay_append L hrest h.selects hpre]

end

end Redis.Aof.Recovery
