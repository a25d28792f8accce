import Redis.Aof.RewriteNames

/-! # Failing system calls in a rewrite

Whatever fails, the files that the manifest on disk has in use are there, as long as the
`fsync` of the directory does not fail: it is called when the new manifest is in place
already, and its failure makes the server delete what this manifest lists. -/
namespace Redis.Aof.RewriteFailures
open List Lib Manifest Rewrite RewriteNames

section
variable {δ : Type} {cfg : Config} {d : Disk δ} {us : List AofInfo} {keep : List Path} {path : Path}
  {α : Type}

/-- The BASE and INCR files in the manifest on disk. -/
def listed (cfg : Config) (d : Disk δ) : List AofInfo :=
  match d.files (manifestPath cfg) with
  | some (.manifest es) => es.filter fun ai => ai.fileType ≠ .hist
  | _ => []

def AllExist (cfg : Config) (d : Disk δ) : Prop :=
  ∀ ai ∈ listed cfg d, (d.files (aofPath ai.fileName)).isSome

/-- What is listed is among the files to be kept, which are all there. -/
structure Present (cfg : Config) (us : List AofInfo) (keep : List Path) (d : Disk δ) : Prop where
  listed : listed cfg d = us
  kept : ∀ ai ∈ us, aofPath ai.fileName ∈ keep
  exist : ∀ path ∈ keep, (d.files path).isSome
  data : ∀ path ∈ keep, path.dir = .aof ∧ ¬Special cfg path

lemma Present.allExist (h : Present cfg us keep d) : AllExist cfg d := by
  intro ai hai
  rw [h.listed] at hai
  exact h.exist _ (h.kept ai hai)

lemma Present.weaken {keep'} (h : Present cfg us keep d) (hsub : ∀ path ∈ keep', path ∈ keep)
    (hus : ∀ ai ∈ us, aofPath ai.fileName ∈ keep') : Present cfg us keep' d :=
  ⟨h.listed, hus, fun path hp => h.exist path (hsub path hp), fun path hp => h.data path (hsub path hp)⟩

/-! ## One call -/

lemma files_set (d : Disk δ) (path : Path) (content : Option (Content δ)) (p : Path) :
    (d.set path content).files p = if p = path then content else d.files p := rfl

lemma isSome_set (d : Disk δ) (path : Path) (content : Content δ) :
    ((d.set path (some content)).files path).isSome := by
  rw [files_set, if_pos rfl]
  rfl

lemma listed_set (h : path ≠ manifestPath cfg)
    (content : Option (Content δ)) : listed cfg (d.set path content) = listed cfg d := by
  rw [listed, listed, files_set, if_neg h.symm]

lemma Present.set (h : Present cfg us keep d) (hpath : path ≠ manifestPath cfg)
    {content} (hcontent : content.isSome ∨ path ∉ keep) :
    Present cfg us keep (d.set path content) := by
  refine ⟨(listed_set hpath content).trans h.listed, h.kept, fun p hp => ?_, h.data⟩
  rw [files_set]
  split
  · rename_i heq
    exact hcontent.resolve_right fun hno => hno (heq ▸ hp)
  · exact h.exist p hp

lemma Present.of_files {d'}
    (h : Present cfg us keep d) (hfiles : d'.files = d.files) : Present cfg us keep d' := by
  refine ⟨?_, h.kept, fun p hp => ?_, h.data⟩
  · rw [RewriteFailures.listed, hfiles]
    exact h.listed
  rw [hfiles]
  exact h.exist p hp

/-- A call that leaves the manifest and the files to be kept. -/
def Harmless (cfg : Config) (keep : List Path) : Call δ → Prop
  | .openTrunc path => path ≠ manifestPath cfg
  | .writeManifest path _ => path ≠ manifestPath cfg
  | .append path _ => path ≠ manifestPath cfg
  | .ftruncate path _ => path ≠ manifestPath cfg
  | .child path _ => path ≠ manifestPath cfg
  | .unlink path => path ≠ manifestPath cfg ∧ path ∉ keep
  | .rename src dst => src ≠ manifestPath cfg ∧ dst ≠ manifestPath cfg ∧ src ∉ keep
  | _ => True

lemma Present.appendTo
    (h : Present cfg us keep d) (hpath : path ≠ manifestPath cfg) (bytes : Bytes) :
    Present cfg us keep (appendTo d path bytes) := by
  rw [Rewrite.appendTo]
  split
  · exact (h.set hpath (.inl rfl)).of_files rfl
  · exact h

lemma Present.truncateTo (h : Present cfg us keep d) (hpath : path ≠ manifestPath cfg) (len : Nat) :
    Present cfg us keep (truncateTo d path len) := by
  rw [Rewrite.truncateTo]
  split
  · exact (h.set hpath (.inl rfl)).of_files rfl
  · exact h

lemma Present.renameTo (h : Present cfg us keep d) {src dst} (hsrc : src ≠ manifestPath cfg)
    (hdst : dst ≠ manifestPath cfg) (hkeep : src ∉ keep) :
    Present cfg us keep (renameTo d src dst) := by
  rw [Rewrite.renameTo]
  split
  · exact (h.set hsrc (.inr hkeep)).set hdst (.inl rfl)
  · exact h

variable {c : Call δ} {am : AofManifest} {name : Bytes} {s : Server δ}

lemma Present.afterCall (h : Present cfg us keep d) (hc : Harmless cfg keep c) (r : Result) :
    Present cfg us keep (effect c r d) := by
  cases c with
  | openTrunc path =>
    cases r with
    | ok => exact h.set hc (.inl rfl)
    | fail n => exact h
  | writeManifest path es => cases r <;> exact h.set hc (.inl rfl)
  | append path bytes => exact h.appendTo hc _
  | ftruncate path len =>
    cases r with
    | ok => exact h.truncateTo hc len
    | fail n => exact h
  | fsync path | fsyncDir => cases r <;> exact h
  | rename src dst =>
    cases r with
    | ok => exact h.renameTo hc.1 hc.2.1 hc.2.2
    | fail n => exact h
  | unlink path =>
    cases r with
    | ok => exact h.set hc.1 (.inr hc.2)
    | fail n => exact h
  | mkdir | fork => cases r <;> exact h
  | child path db => cases r <;> exact h.set hc (.inl rfl)

/-! ## Programs -/

/-- Any results, except that an `fsync` of the directory succeeds. -/
def Synced : Call δ → Result → Disk δ → Prop
  | .fsyncDir, r, _ => r = .ok
  | c, r, d => returned c r d = true

def synced : Call δ → Result → Disk δ → Bool
  | .fsyncDir, r, _ => r = .ok
  | c, r, d => returned c r d

lemma synced_spec (c : Call δ) (r : Result) (d : Disk δ) : synced c r d = true → Synced c r d := by
  cases c with
  | fsyncDir => exact of_decide_eq_true
  | _ => exact id

/-- The files in use are there at every instant. -/
abbrev Safe {α : Type} (cfg : Config) (p : Prog (Call δ) Result α) (Q : α → Disk δ → Prop)
    (d : Disk δ) : Prop := p.Always effect Synced (AllExist cfg) Q d

section
variable (h : Present cfg us keep d)
include h

lemma Present.ret {a : α} {Q : α → Disk δ → Prop} (hQ : Q a d) :
    Safe cfg (.ret a) Q d := ⟨h.allExist, hQ⟩

lemma Present.call (hc : Harmless cfg keep c)
    {k : Result → Prog (Call δ) Result α} {Q : α → Disk δ → Prop}
    (hk : ∀ r, Synced c r d → Present cfg us keep (effect c r d) →
      Safe cfg (k r) Q (effect c r d)) : Safe cfg (.call c k) Q d :=
  ⟨h.allExist, fun r => ⟨(h.afterCall hc r).allExist, fun hr => hk r hr (h.afterCall hc r)⟩⟩

lemma Present.perform (hc : Harmless cfg keep c)
    {f : Result → Prog (Call δ) Result α} {Q : α → Disk δ → Prop}
    (hf : ∀ r, Synced c r d → Present cfg us keep (effect c r d) →
      Safe cfg (f r) Q (effect c r d)) : Safe cfg (Prog.perform c >>= f) Q d :=
  h.call hc hf

lemma Present.attempt (hc : Harmless cfg keep c)
    {next} {Q : Bool → Disk δ → Prop} (hfail : ∀ d', Present cfg us keep d' → Q false d')
    (hnext : Synced c .ok d → Present cfg us keep (effect c .ok d) →
      Safe cfg next Q (effect c .ok d)) : Safe cfg (checked c next) Q d := by
  refine h.call hc fun r hr hp => ?_
  split
  · rename_i hok
    rw [hok] at hr hp ⊢
    exact hnext hr hp
  · exact hp.ret (hfail _ hp)

end

/-- What a manifest with the lines `es` has in use. -/
def usedLines (es : List AofInfo) : List AofInfo := es.filter fun ai => ai.fileType ≠ .hist

lemma Present.rename_manifest (h : Present cfg us keep d) {es}
    (hes : ∀ ai ∈ usedLines es, aofPath ai.fileName ∈ keep)
    (htmp : d.files (tempManifestPath cfg) = some (.manifest es)) :
    Present cfg (usedLines es) keep
      (Rewrite.renameTo d (tempManifestPath cfg) (manifestPath cfg)) := by
  rw [Rewrite.renameTo, htmp]
  refine ⟨?_, hes, fun p hp => ?_, h.data⟩
  · rw [RewriteFailures.listed, files_set, if_pos rfl]
    rfl
  have hspecial := (h.data p hp).2
  rw [files_set, if_neg fun heq => hspecial (.inl heq), files_set,
    if_neg fun heq => hspecial (.inr (.inl heq))]
  exact h.exist p hp

/-- Without a failure of the last `fsync`, an error leaves the old manifest. -/
lemma safe_writeAofManifestFile (h : Present cfg us keep d) {es}
    (hes : ∀ ai ∈ usedLines es, aofPath ai.fileName ∈ keep) :
    Safe cfg (writeAofManifestFile cfg es)
      (fun ok d' => Present cfg (if ok then usedLines es else us) keep d') d := by
  have hne := tempManifest_ne_manifest cfg
  have hfail : ∀ d' : Disk δ, Present cfg us keep d' →
      Present cfg (if false then usedLines es else us) keep d' := fun d' hd => hd
  refine h.attempt (by exact hne) hfail fun _ h => h.attempt (by exact hne) hfail fun _ h =>
    h.attempt (by exact trivial) hfail fun _ h => ?_
  obtain ⟨d', hd'⟩ : ∃ d', effect (.fsync (tempManifestPath cfg)) .ok
      (effect (.writeManifest (tempManifestPath cfg) es) .ok
        (effect (.openTrunc (tempManifestPath cfg)) .ok d)) = d' := ⟨_, rfl⟩
  have htmp : d'.files (tempManifestPath cfg) = some (.manifest es) := by
    rw [← hd']
    exact if_pos rfl
  rw [hd'] at h ⊢
  refine ⟨h.allExist, fun r => ?_⟩
  cases r with
  | fail n => exact ⟨h.allExist, fun _ => h.ret h⟩
  | ok =>
    have hnew := h.rename_manifest hes htmp
    refine ⟨hnew.allExist, fun _ => hnew.call (by exact trivial) fun r hr hp => ?_⟩
    have hok : r = .ok := hr
    rw [hok] at hp ⊢
    exact hp.ret hp

/-- With the result goes the manifest on disk. -/
def Persisted (cfg : Config) (us : List AofInfo) (keep : List Path) (am : AofManifest) :
    Bool × AofManifest → Disk δ → Prop
  | (true, am'), d => am' = { am with dirty := false } ∧ Present cfg (inUse am) keep d
  | (false, am'), d => am' = am ∧ Present cfg us keep d

lemma safe_persistAofManifest (h : Present cfg us keep d) (hdirty : am.dirty = true)
    (hnamed : Named cfg.aofFilename am) (ham : ∀ ai ∈ inUse am, aofPath ai.fileName ∈ keep) :
    Safe cfg (persistAofManifest cfg am) (Persisted cfg us keep am) d := by
  have hlines : usedLines (entries am) = inUse am := hnamed.filter_entries
  rw [persistAofManifest, if_pos hdirty]
  refine Prog.Always.seq (safe_writeAofManifestFile h (by rw [hlines]; exact ham))
    fun ok d' hd => ?_
  rw [hlines] at hd
  cases ok with
  | false | true => exact hd.ret ⟨rfl, hd⟩

lemma safe_unlinkAll (paths : List Path)
    (hpaths : ∀ p ∈ paths, p ≠ manifestPath cfg ∧ p ∉ keep) : ∀ {d : Disk δ},
      Present cfg us keep d →
      Safe cfg (unlinkAll paths) (fun _ d' => Present cfg us keep d') d := by
  induction paths with
  | nil => exact fun h => h.ret h
  | cons p paths ih =>
    intro d h
    obtain ⟨hp, hpaths⟩ := forall_mem_cons.mp hpaths
    exact h.perform (by exact hp) fun r _ h => ih hpaths h

/-! ## The server -/

def paths (us : List AofInfo) : List Path := us.map fun ai => aofPath ai.fileName

/-- The manifest on disk lists the files that the server has in use, and they exist. -/
structure Inv (cfg : Config) (s : Server δ) (d : Disk δ) : Prop where
  named : Named cfg.aofFilename s.aofManifest
  present : Present cfg (inUse s.aofManifest) (paths (inUse s.aofManifest)) d
  fd : ∀ path ∈ s.aofFd, path ≠ manifestPath cfg

lemma mem_paths {ai} (h : ai ∈ us) :
    aofPath ai.fileName ∈ paths us := mem_map_of_mem (f := fun ai => aofPath ai.fileName) h

lemma mem_paths_iff : aofPath name ∈ paths us ↔ ∃ ai ∈ us, ai.fileName = name := by
  rw [paths, mem_map]
  constructor
  · rintro ⟨ai, hai, heq⟩
    exact ⟨ai, hai, congrArg Path.name heq⟩
  rintro ⟨ai, hai, rfl⟩
  exact ⟨ai, hai, rfl⟩

lemma Present.restrict (h : Present cfg us keep d) : Present cfg us (paths us) d := by
  refine h.weaken (fun path hp => ?_) fun ai hai => mem_paths hai
  obtain ⟨ai, hai, rfl⟩ := mem_map.mp hp
  exact h.kept ai hai

lemma Present.add (h : Present cfg us keep d) (hpath : (d.files path).isSome)
    (hdata : path.dir = .aof ∧ ¬Special cfg path) : Present cfg us (path :: keep) d :=
  ⟨h.listed, fun ai hai => mem_cons_of_mem _ (h.kept ai hai),
    forall_mem_cons.mpr ⟨hpath, h.exist⟩, forall_mem_cons.mpr ⟨hdata, h.data⟩⟩

/-- Only the manifest of the server and its open file matter. -/
lemma Inv.of_manifest {s'} (h : Inv cfg s d)
    (heq : s'.aofManifest = s.aofManifest) (hfd : ∀ path ∈ s'.aofFd, path ≠ manifestPath cfg) :
    Inv cfg s' d := by
  refine ⟨?_, ?_, hfd⟩
  · rw [heq]
    exact h.named
  rw [heq]
  exact h.present

lemma data_path {b i} (h : Generated cfg.aofFilename b i name) :
    (aofPath name).dir = .aof ∧ ¬Special cfg (aofPath name) := ⟨rfl, h.not_special⟩

lemma ne_manifest_of_data (h : path.dir = .aof ∧ ¬Special cfg path) : path ≠ manifestPath cfg :=
  fun heq => h.2 (.inl heq)

lemma safe_aofDelHistoryFiles (h : Inv cfg s d) :
    Safe cfg (aofDelHistoryFiles cfg s) (Inv cfg) d := by
  rw [Rewrite.aofDelHistoryFiles]
  split
  · exact h.present.ret h
  rename_i hcond
  have hdel := delHistory_eq hcond
  have hnamed := h.named.delHistory
  have hold : ∀ p ∈ s.aofManifest.historyAofList.map (fun ai => aofPath ai.fileName),
      p ≠ manifestPath cfg ∧ p ∉ paths (inUse s.aofManifest) := by
    intro p hp
    obtain ⟨old, hold, rfl⟩ := mem_map.mp hp
    have hentry : old ∈ entries s.aofManifest := mem_append_left _ (mem_append_right _ hold)
    refine ⟨ne_manifest_of_data (data_path (h.named.generated old hentry)), fun hmem => ?_⟩
    obtain ⟨ai, hai, heq⟩ := mem_paths_iff.mp hmem
    exact h.named.history_ne hold hai heq.symm
  refine (safe_unlinkAll _ hold h.present).seq fun _ d' h' => ?_
  rw [hdel] at hnamed ⊢
  refine (safe_persistAofManifest h' rfl hnamed fun ai hai => mem_paths hai).seq
    fun result d'' hd => ?_
  obtain ⟨ok, am⟩ := result
  cases ok with
  | false =>
    obtain ⟨rfl, hd⟩ := hd
    exact hd.ret ⟨hnamed, hd, h.fd⟩
  | true =>
    obtain ⟨rfl, hd⟩ := hd
    exact hd.ret ⟨hnamed.dirty false, hd, h.fd⟩

lemma safe_flushAppendOnlyFile (h : Inv cfg s d) :
    Safe cfg (flushAppendOnlyFile cfg s) (Inv cfg) d := by
  -- the calls on the open file keep the disk, the other changes are in the buffer
  have hkeep : ∀ {s' : Server δ} {d' : Disk δ},
      Present cfg (inUse s.aofManifest) (paths (inUse s.aofManifest)) d' →
      s'.aofManifest = s.aofManifest → s'.aofFd = s.aofFd → Safe cfg (.ret s') (Inv cfg) d' :=
    fun {s' d'} hd hm hfd => hd.ret (Inv.of_manifest ⟨h.named, hd, h.fd⟩ hm (by rw [hfd]; exact h.fd))
  rw [flushAppendOnlyFile]
  split
  · exact hkeep h.present rfl rfl
  split
  · split
    · exact h.present.allExist
    · exact hkeep h.present rfl rfl
  rename_i path hpath
  have hne : path ≠ manifestPath cfg := h.fd path hpath
  refine h.present.perform (by exact hne) fun r _ hd => ?_
  split
  · split
    · refine hd.perform (by exact trivial) fun r _ hd => ?_
      split
      · exact hkeep hd rfl rfl
      · exact hd.allExist
    · exact hkeep hd rfl rfl
  · split
    · exact hd.allExist
    · exact hkeep hd rfl rfl
  refine hd.perform (by exact hne) fun r _ hd => ?_
  split
  · exact hd.allExist
  split
  · exact hkeep hd rfl rfl
  · exact hkeep hd rfl rfl

lemma safe_openNewIncrAofForAppend (h : Inv cfg s d) :
    Safe cfg (openNewIncrAofForAppend cfg s) (fun r d' => Inv cfg r.2 d') d := by
  rw [openNewIncrAofForAppend]
  split
  · exact h.present.ret h
  · have hne := tempIncr_ne_manifest cfg
    refine h.present.perform (by exact hne) fun r _ hd => ?_
    split
    · refine hd.ret ⟨h.named, hd, ?_⟩
      rintro path ⟨⟩
      exact hne
    · exact hd.ret ⟨h.named, hd, h.fd⟩
  obtain ⟨am, incr, hnew, hnamed, hdirty, huse, -, -⟩ := h.named.newIncr_eq
  rw [hnew]
  have hdata := data_path (hnamed.generated incr (mem_entries_of_inUse (by rw [huse]; simp)))
  have hne := ne_manifest_of_data hdata
  refine h.present.perform (by exact hne) fun r _ hd => ?_
  split
  · rename_i hok
    rw [hok] at hd ⊢
    have hall : ∀ ai ∈ inUse am, aofPath ai.fileName ∈
        aofPath incr.fileName :: paths (inUse s.aofManifest) := by
      rw [huse]
      exact forall_mem_append.mpr ⟨fun ai hai => mem_cons_of_mem _ (mem_paths hai),
        forall_mem_singleton.mpr mem_cons_self⟩
    have hd' := hd.add (isSome_set d (aofPath incr.fileName) (.log [])) hdata
    refine (safe_persistAofManifest hd' hdirty hnamed hall).seq fun result d'' hd => ?_
    obtain ⟨ok, am'⟩ := result
    cases ok with
    | false =>
      obtain ⟨-, hd⟩ := hd
      exact hd.ret ⟨h.named, hd.restrict, h.fd⟩
    | true =>
      obtain ⟨rfl, hd⟩ := hd
      refine hd.ret ⟨hnamed.dirty false, hd.restrict, ?_⟩
      rintro path ⟨⟩
      exact hne
  · exact hd.ret ⟨h.named, hd, h.fd⟩

lemma safe_rewriteAppendOnlyFileBackground (h : Inv cfg s d) (pid : Nat) :
    Safe cfg (rewriteAppendOnlyFileBackground cfg pid s) (fun r d' => Inv cfg r.2 d') d := by
  rw [rewriteAppendOnlyFileBackground]
  split
  · exact h.present.ret h
  refine h.present.perform (by exact trivial) fun r _ hd => ?_
  have h : Inv cfg { s with aofSelectedDb := none } _ := ⟨h.named, hd, h.fd⟩
  split
  · exact hd.ret ⟨h.named, hd, h.fd⟩
  refine (safe_flushAppendOnlyFile h).seq fun s d h =>
    (safe_openNewIncrAofForAppend h).seq fun result d h => ?_
  dsimp only at h ⊢
  split
  · refine h.present.perform (by exact trivial) fun r _ hd => ?_
    split
    · exact hd.ret ⟨h.named, hd, h.fd⟩
    · exact hd.ret ⟨h.named, hd, h.fd⟩
  · exact h.present.ret h

/-! ## The end of a rewrite -/

lemma isSome_rename {src dst}
    (hr : Synced (.rename src dst) .ok d) : ((effect (.rename src dst) .ok d).files dst).isSome := by
  obtain ⟨content, hcontent⟩ := Option.isSome_iff_exists.mp hr
  rw [effect, Rewrite.renameTo, hcontent]
  exact isSome_set _ _ _

lemma safe_installManifest (hnamed : Named cfg.aofFilename s.aofManifest) {base incr}
    (h : Present cfg (inUse s.aofManifest) (base :: incr.toList ++ paths (inUse s.aofManifest)) d)
    (hfresh : ∀ p ∈ base :: incr.toList, p ∉ paths (inUse s.aofManifest))
    (hfd : ∀ path ∈ s.aofFd, path ≠ manifestPath cfg)
    (ham : Named cfg.aofFilename am) (hdirty : am.dirty = true)
    (hall : ∀ ai ∈ inUse am, aofPath ai.fileName ∈
      base :: incr.toList ++ paths (inUse s.aofManifest)) :
    Safe cfg (installManifest cfg base incr am s) (Inv cfg) d := by
  have hmarked := ham.rewritten s.aofFd.isSome
  have hmarkedAll : ∀ ai ∈ inUse (markRewrittenIncrAofAsHistory s.aofFd.isSome am),
      aofPath ai.fileName ∈ base :: incr.toList ++ paths (inUse s.aofManifest) := by
    intro ai hai
    rw [inUse_rewritten] at hai
    refine hall ai ?_
    rcases mem_append.mp hai with hai | hai
    · exact mem_append_left _ hai
    refine mem_append_right _ ?_
    rw [← replacedIncr_append_keptIncr s.aofFd.isSome am]
    exact mem_append_right _ hai
  refine (safe_persistAofManifest h (markRewritten_dirty _ hdirty) hmarked hmarkedAll).seq fun result d' hd => ?_
  obtain ⟨ok, am'⟩ := result
  cases ok with
  | true =>
    obtain ⟨rfl, hd⟩ := hd
    have hinv : Inv cfg { s with aofManifest :=
        { markRewrittenIncrAofAsHistory s.aofFd.isSome am with dirty := false } } d' :=
      ⟨hmarked.dirty false, hd.restrict, hfd⟩
    exact (safe_aofDelHistoryFiles hinv).seq fun s d h =>
      h.present.ret (h.of_manifest rfl h.fd)
  | false =>
    obtain ⟨-, hd⟩ := hd
    have hpaths : ∀ p ∈ base :: incr.toList,
        p ≠ manifestPath cfg ∧ p ∉ paths (inUse s.aofManifest) := fun p hp =>
      ⟨ne_manifest_of_data (h.data p (mem_append_left _ hp)), hfresh p hp⟩
    exact (safe_unlinkAll _ hpaths hd.restrict).seq fun _ d h => h.ret ⟨hnamed, h, hfd⟩

lemma not_mem_paths (h : ∀ ai ∈ us, ai.fileName ≠ name) : aofPath name ∉ paths us := by
  intro hmem
  obtain ⟨ai, hai, heq⟩ := mem_paths_iff.mp hmem
  exact h ai hai heq

lemma tmpfile_ne (pid : Nat) (h : path.dir = .aof) : tmpfile pid ≠ path := by
  rintro rfl
  cases h

lemma childTmpfile_ne (pid : Nat) (h : path.dir = .aof) : childTmpfile pid ≠ path := by
  rintro rfl
  cases h

/-- The AOF is being enabled: the temporary INCR file gets its name as well. -/
lemma safe_installIncr {base incr}
    (hs : Named cfg.aofFilename s.aofManifest) (hfd : ∀ path ∈ s.aofFd, path ≠ manifestPath cfg)
    (hd : Present cfg (inUse s.aofManifest) (base :: paths (inUse s.aofManifest)) d)
    (hbase : base ∉ paths (inUse s.aofManifest)) (hincr : incr ∉ paths (inUse s.aofManifest))
    (hdata : incr.dir = .aof ∧ ¬Special cfg incr) (hnamed : Named cfg.aofFilename am)
    (hdirty : am.dirty = true)
    (hall : ∀ ai ∈ inUse am, aofPath ai.fileName ∈ base :: incr :: paths (inUse s.aofManifest)) :
    Safe cfg (Prog.perform (.rename (tempIncrPath cfg) incr) >>= fun r =>
      if r ≠ .ok then do
        unlinkAll [base]
        return s
      else installManifest cfg base (some incr) am { s with aofFd := some incr }) (Inv cfg) d := by
  have hrename : @Harmless δ cfg (base :: paths (inUse s.aofManifest))
      (.rename (tempIncrPath cfg) incr) :=
    ⟨tempIncr_ne_manifest cfg, ne_manifest_of_data hdata, fun h =>
      (hd.data _ h).2 (.inr (.inr rfl))⟩
  refine hd.perform hrename fun r hr hd => ?_
  split
  · have hne := ne_manifest_of_data (hd.data _ mem_cons_self)
    exact (safe_unlinkAll _ (forall_mem_singleton.mpr ⟨hne, hbase⟩) hd.restrict).seq
      fun _ d h => h.ret ⟨hs, h, hfd⟩
  rename_i hok
  rw [not_not] at hok
  rw [hok] at hr hd ⊢
  have hd := hd.add (isSome_rename hr) hdata
  have hswap : ∀ p, p ∈ base :: incr :: paths (inUse s.aofManifest) ↔
      p ∈ incr :: base :: paths (inUse s.aofManifest) := by
    intro p
    simp only [mem_cons]
    exact or_left_comm
  have hkeep := hd.weaken (fun p hp => (hswap p).mp hp) fun ai hai =>
    (hswap _).mpr (hd.kept ai hai)
  refine safe_installManifest (by exact hs) (by exact hkeep) ?_ ?_ hnamed hdirty hall
  · exact forall_mem_cons.mpr ⟨hbase, forall_mem_singleton.mpr hincr⟩
  rintro p ⟨⟩
  exact ne_manifest_of_data hdata

section
variable (h : Inv cfg s d)
include h

lemma safe_installRewrite (pid : Nat) : Safe cfg (installRewrite cfg pid s) (Inv cfg) d := by
  obtain ⟨am, base, hnew, hnamed, hdirty, hbase, hincr, hseq, hfresh⟩ :=
    h.named.newBase_eq cfg.aofUseRdbPreamble
  have huse : inUse am = base :: s.aofManifest.incrAofList := by
    rw [inUse, hbase, hincr]
    rfl
  rw [installRewrite, hnew]
  have hdata := data_path (hnamed.generated base (mem_entries_of_inUse (by
    rw [huse]
    exact mem_cons_self)))
  have hfresh : aofPath base.fileName ∉ paths (inUse s.aofManifest) := not_mem_paths fun ai hai =>
    hfresh ai (mem_entries_of_inUse hai)
  have hall : ∀ ai ∈ inUse am, aofPath ai.fileName ∈
      aofPath base.fileName :: paths (inUse s.aofManifest) := by
    rw [huse]
    exact forall_mem_cons.mpr ⟨mem_cons_self, fun ai hai =>
      mem_cons_of_mem _ (mem_paths (mem_append_right _ hai))⟩
  have hrename : @Harmless δ cfg (paths (inUse s.aofManifest))
      (.rename (tmpfile pid) (aofPath base.fileName)) :=
    ⟨tmpfile_ne pid rfl, ne_manifest_of_data hdata, fun hmem =>
      tmpfile_ne pid (h.present.data _ hmem).1 rfl⟩
  refine h.present.perform hrename fun r hr hd => ?_
  split
  · exact hd.ret ⟨h.named, hd, h.fd⟩
  rename_i hok
  rw [not_not] at hok
  rw [hok] at hr hd ⊢
  have hd := hd.add (isSome_rename hr) hdata
  split
  · obtain ⟨am', incr, hnew, hnamed, hdirty, huse, -, hother⟩ := hnamed.newIncr_eq
    rw [hnew]
    refine safe_installIncr h.named h.fd hd hfresh (not_mem_paths fun ai hai => ?_)
      (data_path (hnamed.generated incr (mem_entries_of_inUse (by rw [huse]; simp)))) hnamed
      hdirty ?_
    · have hgen := h.named.generated ai (mem_entries_of_inUse hai)
      rw [← hseq] at hgen
      exact hother _ _ hgen
    rw [huse]
    refine forall_mem_append.mpr ⟨fun ai hai => ?_, forall_mem_singleton.mpr (by simp)⟩
    rcases mem_cons.mp (hall ai hai) with heq | hmem
    · exact heq ▸ mem_cons_self
    · exact mem_cons_of_mem _ (mem_cons_of_mem _ hmem)
  exact safe_installManifest h.named (by exact hd) (forall_mem_singleton.mpr hfresh) h.fd hnamed
    hdirty hall

lemma safe_removeTempFile
    (pid : Nat) : Safe cfg (aofRemoveTempFile pid) (fun _ d' => Inv cfg s d') d := by
  have htmp := fun hmem => tmpfile_ne pid (h.present.data _ hmem).1 rfl
  have hchild := fun hmem => childTmpfile_ne pid (h.present.data _ hmem).1 rfl
  refine (safe_unlinkAll _ ?_ h.present).mono fun _ d hd => ⟨h.named, hd, h.fd⟩
  exact forall_mem_cons.mpr ⟨⟨tmpfile_ne pid rfl, htmp⟩,
    forall_mem_singleton.mpr ⟨childTmpfile_ne pid rfl, hchild⟩⟩

lemma safe_rewriteCleanup (pid : Nat) : Safe cfg (rewriteCleanup cfg pid s) (Inv cfg) d := by
  refine (safe_removeTempFile h pid).seq fun _ d h => ?_
  split
  · refine (safe_unlinkAll _ ?_ h.present).seq fun _ d hd => hd.ret ⟨h.named, hd, h.fd⟩
    exact forall_mem_singleton.mpr ⟨tempIncr_ne_manifest cfg,
      fun hmem => (h.present.data _ hmem).2 (.inr (.inr rfl))⟩
  · exact h.present.ret { h with }

lemma safe_backgroundRewriteDoneHandler (outcome : ChildExit) (child : Child δ) :
    Safe cfg (backgroundRewriteDoneHandler cfg outcome child s) (Inv cfg) d := by
  cases outcome with
  | success =>
    refine h.present.perform (by exact tmpfile_ne child.pid rfl) fun r _ hd => ?_
    exact (safe_installRewrite ⟨h.named, hd, h.fd⟩ child.pid).seq fun s d h =>
      safe_rewriteCleanup h child.pid
  | error | signal => exact safe_rewriteCleanup h child.pid

/-! ## Enabling and disabling -/

lemma safe_killAppendOnlyChild : Safe cfg (killAppendOnlyChild s) (Inv cfg) d := by
  rw [killAppendOnlyChild]
  split
  · exact h.present.ret h
  · exact (safe_removeTempFile h _).seq fun _ d h => h.present.ret { h with }

lemma safe_stopAppendOnly : Safe cfg (stopAppendOnly cfg s) (Inv cfg) d := by
  refine (safe_flushAppendOnlyFile h).seq fun s d h => ?_
  have hclosed : ∀ path ∈ (none : Option Path), path ≠ manifestPath cfg := by
    rintro path ⟨⟩
  refine (safe_killAppendOnlyChild (by exact h.of_manifest rfl hclosed)).seq fun s d h => ?_
  exact h.present.ret { h with }

lemma safe_startAppendOnly (busy : Bool) (pid : Nat) :
    Safe cfg (startAppendOnly cfg busy pid s) (Inv cfg) d := by
  rw [startAppendOnly]
  split
  · exact h.present.ret { h with }
  refine (safe_killAppendOnlyChild (by exact h.of_manifest rfl h.fd)).seq fun s d h =>
    (safe_rewriteAppendOnlyFileBackground h pid).seq fun result d h => ?_
  obtain ⟨ok, s⟩ := result
  refine h.present.ret ?_
  cases ok with
  | true => exact h
  | false => exact { h with }

/-! ## Runs -/

lemma safe_handle (e : Event δ) : Safe cfg (handle cfg s e) (Inv cfg) d := by
  cases e with
  | execute data bytes selectedDb => exact h.present.ret { h with }
  | flush => exact safe_flushAppendOnlyFile h
  | rewrite pid =>
    exact (safe_rewriteAppendOnlyFileBackground h pid).seq fun result d h => h.present.ret h
  | childDone outcome =>
    rw [handle]
    split
    · exact h.present.ret h
    · exact safe_backgroundRewriteDoneHandler h outcome _
  | stopAppendOnly =>
    rw [handle]
    split
    · exact h.present.ret h
    · exact safe_stopAppendOnly h
  | startAppendOnly busy pid =>
    rw [handle]
    split
    · exact safe_startAppendOnly h busy pid
    · exact h.present.ret h

end

lemma Inv.run {s' d'} (h : Inv cfg s d) (hrun : Run cfg Synced s d s' d') : Inv cfg s' d' := by
  induction hrun with
  | start => exact h
  | event e _ he ih => exact (safe_handle ih e).of_ends he

/-- Whatever else fails, and wherever the server is stopped, the BASE and INCR files that
the manifest on disk lists are there. -/
theorem listed_files_exist {cfg : Config} {s s' : Server δ} {d d' d'' : Disk δ}
    (h : Inv cfg s d) (hrun : Run cfg Synced s d s' d') (e : Event δ)
    (hstop : (handle cfg s' e).Reaches effect Synced d' d'') : AllExist cfg d'' :=
  (safe_handle (h.run hrun) e).of_reaches hstop

end

/-! ## A server that has just started -/

instance {δ : Type} (cfg : Config) (d : Disk δ) : Decidable (AllExist cfg d) :=
  inferInstanceAs (Decidable (∀ ai ∈ listed cfg d, (d.files (aofPath ai.fileName)).isSome))

lemma named_create (f : Bytes) : Named f aofManifestCreate :=
  ⟨nofun, nofun, nofun, nodup_nil,
    nofun, Int.le_refl 0, Int.le_refl 0⟩

def sampleConfig : Config := ⟨[97], true, false, false⟩

def sampleManifest : AofManifest :=
  { (getNewIncrAofName [97] (getNewBaseFileNameAndMarkPreAsHistory [97] true
      aofManifestCreate).1).1 with dirty := false }

def sampleServer : Server Unit :=
  ⟨(), sampleManifest, .on, some (aofPath (incrFileName [97] 1)), [], 0, none, none, false⟩

def sampleDisk : Disk Unit :=
  ⟨fun p => if p = manifestPath sampleConfig then some (.manifest (entries sampleManifest))
    else if p ∈ paths (inUse sampleManifest) then some (.log []) else none, []⟩

lemma sample_named : Named sampleConfig.aofFilename sampleManifest :=
  ((named_create [97]).newBase true).newIncr.dirty false

lemma sample_inv : Inv sampleConfig sampleServer sampleDisk := by
  have hnamed := sample_named
  have hdata : ∀ path ∈ paths (inUse sampleManifest),
      path.dir = .aof ∧ ¬Special sampleConfig path := by
    intro path hp
    obtain ⟨ai, hai, rfl⟩ := mem_map.mp hp
    exact data_path (hnamed.generated ai (mem_entries_of_inUse hai))
  refine ⟨hnamed, ⟨?_, fun ai hai => mem_paths hai, fun path hp => ?_, hdata⟩, ?_⟩
  · rw [listed, sampleDisk]
    dsimp only
    exact hnamed.filter_entries
  · have hp : path ∈ paths (inUse sampleManifest) := hp
    rw [sampleDisk]
    dsimp only
    rw [if_neg (ne_manifest_of_data (hdata path hp)), if_pos hp]
    rfl
  · rintro path ⟨⟩
    exact ne_manifest_of_data (hdata _ (by decide +kernel))

/-- A rewrite in which all goes well until the temporary manifest is on disk. The `results` are
those of the calls behind it. -/
def rewriteEnding (results : List Result) : List (Event Unit × List Result) :=
  [(.rewrite 7, [.ok, .ok, .ok, .ok, .ok, .ok, .ok, .ok]),
    (.childDone .success, [.ok, .ok, .ok, .ok, .ok] ++ results)]

/-- Where the new manifest cannot be renamed, the new BASE file is deleted, and the manifest on
disk lists the old one with both INCR files. -/
theorem listed_files_exist_unrenamed : ∃ x : Server Unit × Disk Unit,
    Run sampleConfig Synced sampleServer sampleDisk x.1 x.2 ∧
      (listed sampleConfig x.2).map AofInfo.fileName =
        [baseFileName [97] true 1, incrFileName [97] 1, incrFileName [97] 2] ∧
      AllExist sampleConfig x.2 := by
  obtain ⟨x, hrun, htest⟩ := exists_run sampleConfig synced_spec
    (rewriteEnding [.fail 0, .ok, .ok, .ok]) sampleServer sampleDisk
    (fun x => (listed sampleConfig x.2).map AofInfo.fileName =
      [baseFileName [97] true 1, incrFileName [97] 1, incrFileName [97] 2]) (by decide +kernel)
  exact ⟨x, hrun, of_decide_eq_true htest, listed_files_exist sample_inv hrun .flush (.here _ _)⟩

/-- After a failed `fsync` of the directory the new BASE file is deleted, although the
manifest on disk lists it already. -/
theorem listed_base_deleted : Inv sampleConfig sampleServer sampleDisk ∧
    ∃ s d, Run sampleConfig (fun c r d => returned c r d = true) sampleServer sampleDisk s d ∧
      ¬AllExist sampleConfig d := by
  obtain ⟨x, hrun, htest⟩ := exists_run sampleConfig
    (fun c r d (h : returned c r d = true) => h) (rewriteEnding [.ok, .fail 0, .ok, .fail 0, .fail 0])
    sampleServer sampleDisk (fun x => !decide (AllExist sampleConfig x.2)) (by decide +kernel)
  exact ⟨sample_inv, x.1, x.2, hrun, by simpa using htest⟩

end Redis.Aof.RewriteFailures
