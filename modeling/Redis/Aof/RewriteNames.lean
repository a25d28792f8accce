import Redis.Aof.Rewrite
import Redis.Aof.ManifestText
import Mathlib.Data.List.Nodup
import Mathlib.Data.List.Induction

/-! # The names of the append-only files

The names of BASE and INCR files are numbered, so that a new file never has the name of
one that is listed. None of them is the name of the manifest or of a temporary file. -/
namespace Redis.Aof.RewriteNames
open List Lib Lib.Decimal Util.Numbers Util.Stdlib
open Manifest ManifestText Rewrite

/-! ## Names -/

lemma not_isDigit_dot : ¬IsDigit 46 := by decide

variable {f x y : Bytes} {s t : Int} {name : Bytes} {b i : Int} {am : AofManifest}

lemma aofNumber_append_inj (hs : 1 ≤ s) (ht : 1 ≤ t)
    (hx : ∀ c ∈ x.head?, ¬IsDigit c) (hy : ∀ c ∈ y.head?, ¬IsDigit c)
    (h : aofNumber f s ++ x = aofNumber f t ++ y) : s = t ∧ x = y := by
  rw [aofNumber, aofNumber, append_assoc, append_assoc, append_assoc,
    append_assoc, append_cancel_left_eq, append_cancel_left_eq,
    signedDecimal_of_pos hs, signedDecimal_of_pos ht] at h
  have hdigits := congrArg (List.takeWhile fun c => decide (IsDigit c)) h
  rw [takeWhile_digits (fun c hc => isDigit_of_mem_decimal hc) hx,
    takeWhile_digits (fun c hc => isDigit_of_mem_decimal hc) hy] at hdigits
  rw [hdigits, append_cancel_left_eq] at h
  have hvalue := congrArg (value 0) hdigits
  rw [value_decimal, value_decimal] at hvalue
  exact ⟨by omega, h⟩

/-- What follows the number in the name of a BASE file. -/
def baseEnd (aofUseRdbPreamble : Bool) : Bytes :=
  baseFileSuffix ++ if aofUseRdbPreamble then rdbFormatSuffix else aofFormatSuffix

def incrEnd : Bytes := incrFileSuffix ++ aofFormatSuffix

lemma baseFileName_eq (f : Bytes) (rdb : Bool) (seq : Int) :
    baseFileName f rdb seq = aofNumber f seq ++ baseEnd rdb := by
  rw [baseFileName, baseEnd, append_assoc]

lemma incrFileName_eq (f : Bytes) (seq : Int) :
    incrFileName f seq = aofNumber f seq ++ incrEnd := by
  rw [incrFileName, incrEnd, append_assoc]

lemma head_baseEnd (rdb : Bool) : ∀ c ∈ (baseEnd rdb).head?, ¬IsDigit c := by
  cases rdb <;> rintro c ⟨⟩ <;> exact not_isDigit_dot

lemma head_incrEnd : ∀ c ∈ incrEnd.head?, ¬IsDigit c := by
  rintro c ⟨⟩
  exact not_isDigit_dot

lemma baseFileName_inj {rdb rdb'} (hs : 1 ≤ s) (ht : 1 ≤ t)
    (h : baseFileName f rdb s = baseFileName f rdb' t) : s = t := by
  rw [baseFileName_eq, baseFileName_eq] at h
  exact (aofNumber_append_inj hs ht (head_baseEnd rdb) (head_baseEnd rdb') h).1

lemma incrFileName_inj (hs : 1 ≤ s) (ht : 1 ≤ t)
    (h : incrFileName f s = incrFileName f t) : s = t := by
  rw [incrFileName_eq, incrFileName_eq] at h
  exact (aofNumber_append_inj hs ht head_incrEnd head_incrEnd h).1

lemma baseFileName_ne_incrFileName {rdb} (hs : 1 ≤ s)
    (ht : 1 ≤ t) : baseFileName f rdb s ≠ incrFileName f t := by
  intro h
  rw [baseFileName_eq, incrFileName_eq] at h
  have hend := (aofNumber_append_inj hs ht (head_baseEnd rdb) head_incrEnd h).2
  revert hend
  cases rdb <;> decide

lemma ne_of_longer (h : y ≠ []) : f ≠ x ++ f ++ y := by
  intro heq
  have hlen := congrArg List.length heq
  have hpos := length_pos_iff.mpr h
  rw [length_append, length_append] at hlen
  omega

lemma ne_baseFileName (f : Bytes) (rdb : Bool) (seq : Int) : f ≠ baseFileName f rdb seq := by
  rw [baseFileName, aofNumber, append_assoc, append_assoc, append_assoc]
  exact ne_of_longer (x := []) (cons_ne_nil _ _)

lemma ne_incrFileName (f : Bytes) (seq : Int) : f ≠ incrFileName f seq := by
  rw [incrFileName, aofNumber, append_assoc, append_assoc, append_assoc]
  exact ne_of_longer (x := []) (cons_ne_nil _ _)

lemma getLast_append {c} (h : y.getLast? = some c) : (x ++ y).getLast? = some c := by
  rw [getLast?_append, h]
  rfl

/-- The last characters tell the temporary names and the manifest from the rest. -/
lemma getLast_baseFileName (f : Bytes) (rdb : Bool) (seq : Int) :
    (baseFileName f rdb seq).getLast? = some 98 ∨ (baseFileName f rdb seq).getLast? = some 102 := by
  cases rdb
  · exact .inr (getLast_append rfl)
  · exact .inl (getLast_append rfl)

lemma getLast_incrFileName (f : Bytes) (seq : Int) :
    (incrFileName f seq).getLast? = some 102 := getLast_append rfl

/-! ## The names the server has given -/

/-- A name from an older version, or one with a number that was used. -/
def Generated (f : Bytes) (base incr : Int) (name : Bytes) : Prop :=
  name = f ∨ (∃ rdb seq, 1 ≤ seq ∧ seq ≤ base ∧ name = baseFileName f rdb seq) ∨
    ∃ seq, 1 ≤ seq ∧ seq ≤ incr ∧ name = incrFileName f seq

lemma Generated.mono {b' i'} (h : Generated f b i name)
    (hb : b ≤ b') (hi : i ≤ i') : Generated f b' i' name := by
  rcases h with h | ⟨rdb, seq, h1, hle, h⟩ | ⟨seq, h1, hle, h⟩
  · exact .inl h
  · exact .inr (.inl ⟨rdb, seq, h1, Int.le_trans hle hb, h⟩)
  · exact .inr (.inr ⟨seq, h1, Int.le_trans hle hi, h⟩)

lemma Generated.ne_newBase (h : Generated f b i name)
    (hb : 0 ≤ b) (rdb : Bool) : name ≠ baseFileName f rdb (b + 1) := by
  rcases h with rfl | ⟨rdb', seq, h1, hle, rfl⟩ | ⟨seq, h1, hle, rfl⟩
  · exact ne_baseFileName _ _ _
  · intro heq
    have := baseFileName_inj h1 (by omega) heq
    omega
  · exact fun heq => baseFileName_ne_incrFileName (by omega) h1 heq.symm

lemma Generated.ne_newIncr (h : Generated f b i name)
    (hi : 0 ≤ i) : name ≠ incrFileName f (i + 1) := by
  rcases h with rfl | ⟨rdb', seq, h1, hle, rfl⟩ | ⟨seq, h1, hle, rfl⟩
  · exact ne_incrFileName _ _
  · exact baseFileName_ne_incrFileName h1 (by omega)
  intro heq
  have := incrFileName_inj h1 (by omega) heq
  omega

/-- Files of the directory that are no data files. -/
def Special (cfg : Config) (path : Path) : Prop :=
  path = manifestPath cfg ∨ path = tempManifestPath cfg ∨ path = tempIncrPath cfg

lemma getLast_special {cfg} (h : Special cfg (aofPath name)) :
    name.getLast? = some 116 ∨ name.getLast? = some 114 := by
  rcases h with h | h | h
  · have hname : name = getAofManifestFileName cfg := congrArg Path.name h
    exact .inl (hname ▸ getLast_append rfl)
  · have hname : name = getTempAofManifestFileName cfg := congrArg Path.name h
    exact .inl (hname ▸ getLast_append rfl)
  have hname : name = getTempIncrAofName cfg := congrArg Path.name h
  exact .inr (hname ▸ getLast_append rfl)

lemma Generated.not_special {cfg}
    (h : Generated cfg.aofFilename b i name) : ¬Special cfg (aofPath name) := by
  intro hspecial
  rcases h with rfl | ⟨rdb, seq, -, -, rfl⟩ | ⟨seq, -, -, rfl⟩
  · rcases hspecial with h | h | h
    · exact ne_of_longer (x := []) (cons_ne_nil _ _) (congrArg Path.name h)
    · exact ne_of_longer (cons_ne_nil _ _) (congrArg Path.name h)
    · exact ne_of_longer (cons_ne_nil _ _) (congrArg Path.name h)
  · have hlast := getLast_baseFileName cfg.aofFilename rdb seq
    rcases getLast_special hspecial with h | h <;> rw [h] at hlast <;> revert hlast <;> decide
  · have hlast := getLast_incrFileName cfg.aofFilename seq
    rcases getLast_special hspecial with h | h <;> rw [h] at hlast <;> revert hlast <;> decide

lemma tempManifest_ne_manifest (cfg : Config) : tempManifestPath cfg ≠ manifestPath cfg := by
  intro h
  have hlen := congrArg List.length (congrArg Path.name h)
  simp only [tempManifestPath, manifestPath, aofPath, getTempAofManifestFileName,
    getAofManifestFileName, length_append] at hlen
  have hpos : tempFileNamePrefix.length = 5 := rfl
  omega

lemma tempIncr_ne_manifest (cfg : Config) : tempIncrPath cfg ≠ manifestPath cfg := by
  intro h
  have hlast := congrArg List.getLast? (congrArg Path.name h)
  have hincr : (tempIncrPath cfg).name.getLast? = some 114 := getLast_append rfl
  have hmanifest : (manifestPath cfg).name.getLast? = some 116 := getLast_append rfl
  rw [hincr, hmanifest] at hlast
  revert hlast
  decide

/-! ## Manifests -/

def inUse (am : AofManifest) : List AofInfo := am.baseAofInfo.toList ++ am.incrAofList

structure Named (f : Bytes) (am : AofManifest) : Prop where
  base : ∀ ai ∈ am.baseAofInfo, ai.fileType = .base
  history : ∀ ai ∈ am.historyAofList, ai.fileType = .hist
  incr : ∀ ai ∈ am.incrAofList, ai.fileType = .incr
  nodup : ((entries am).map AofInfo.fileName).Nodup
  generated : ∀ ai ∈ entries am, Generated f am.currBaseFileSeq am.currIncrFileSeq ai.fileName
  base_nonneg : 0 ≤ am.currBaseFileSeq
  incr_nonneg : 0 ≤ am.currIncrFileSeq

lemma mem_entries_of_inUse {ai} (h : ai ∈ inUse am) : ai ∈ entries am := by
  simp only [inUse, entries, mem_append] at h ⊢
  tauto

section
variable (h : Named f am)
include h

lemma Named.filter_entries :
    (entries am).filter (fun ai => ai.fileType ≠ .hist) = inUse am := by
  have hbase : am.baseAofInfo.toList.filter (fun ai => ai.fileType ≠ .hist) =
      am.baseAofInfo.toList := filter_eq_self.mpr fun ai hai => by
    rw [h.base ai (Option.mem_toList.mp hai)]
    rfl
  have hhist : am.historyAofList.filter (fun ai => ai.fileType ≠ .hist) = [] :=
    filter_eq_nil_iff.mpr fun ai hai => by
      rw [h.history ai hai]
      decide
  have hincr : am.incrAofList.filter (fun ai => ai.fileType ≠ .hist) = am.incrAofList :=
    filter_eq_self.mpr fun ai hai => by
      rw [h.incr ai hai]
      rfl
  rw [entries, filter_append, filter_append, hbase, hhist, hincr, append_nil]
  rfl

lemma Named.history_ne {old ai}
    (hold : old ∈ am.historyAofList) (hai : ai ∈ inUse am) : old.fileName ≠ ai.fileName := by
  intro heq
  have hperm : (entries am).Perm (am.historyAofList ++ inUse am) := by
    rw [entries, append_assoc]
    exact perm_append_comm_assoc _ _ _
  have hnodup := (hperm.map AofInfo.fileName).nodup h.nodup
  rw [map_append, nodup_append] at hnodup
  exact hnodup.2.2 _ (mem_map_of_mem hold) _ (mem_map_of_mem hai) heq

lemma Named.newBase (rdb : Bool) :
    Named f (getNewBaseFileNameAndMarkPreAsHistory f rdb am).1 := by
  have hnames : (entries (getNewBaseFileNameAndMarkPreAsHistory f rdb am).1).map AofInfo.fileName =
      baseFileName f rdb (am.currBaseFileSeq + 1) :: (entries am).map AofInfo.fileName := by
    cases hb : am.baseAofInfo <;>
      simp [getNewBaseFileNameAndMarkPreAsHistory, entries, hb]
  have hgen : ∀ name ∈ (entries am).map AofInfo.fileName,
      Generated f am.currBaseFileSeq am.currIncrFileSeq name := by
    intro name hname
    obtain ⟨ai, hai, rfl⟩ := mem_map.mp hname
    exact h.generated ai hai
  have hcurr := h.base_nonneg
  refine ⟨?_, ?_, h.incr, ?_, ?_, ?_, h.incr_nonneg⟩
  · rintro ai ⟨⟩
    rfl
  · intro ai hai
    rcases mem_append.mp hai with hai | hai
    · obtain ⟨old, -, rfl⟩ := Option.map_eq_some_iff.mp (Option.mem_toList.mp hai)
      rfl
    · exact h.history ai hai
  · rw [hnames, nodup_cons]
    exact ⟨fun hmem => (hgen _ hmem).ne_newBase hcurr rdb rfl, h.nodup⟩
  · intro ai hai
    have hname := mem_map_of_mem (f := AofInfo.fileName) hai
    rw [hnames] at hname
    rcases mem_cons.mp hname with heq | hmem
    · exact .inr (.inl ⟨rdb, am.currBaseFileSeq + 1, by omega, Int.le_refl _, heq⟩)
    · exact (hgen _ hmem).mono (Int.le_add_one (Int.le_refl _)) (Int.le_refl _)
  · exact Int.le_add_one hcurr

/-- The entry of the new BASE file has a name of its own. -/
lemma Named.newBase_eq (rdb : Bool) : ∃ am' ai,
    getNewBaseFileNameAndMarkPreAsHistory f rdb am = (am', ai.fileName) ∧ Named f am' ∧
      am'.dirty = true ∧ am'.baseAofInfo = some ai ∧ am'.incrAofList = am.incrAofList ∧
      am'.currIncrFileSeq = am.currIncrFileSeq ∧ ∀ old ∈ entries am, old.fileName ≠ ai.fileName :=
  ⟨_, ⟨_, _, _⟩, rfl, h.newBase rdb, rfl, rfl, rfl, rfl,
    fun old hold => (h.generated old hold).ne_newBase h.base_nonneg rdb⟩

lemma Named.newIncr : Named f (getNewIncrAofName f am).1 := by
  have hentries : entries (getNewIncrAofName f am).1 = entries am ++
      [⟨incrFileName f (am.currIncrFileSeq + 1), am.currIncrFileSeq + 1, .incr⟩] :=
    (append_assoc _ _ _).symm
  have hcurr := h.incr_nonneg
  refine ⟨h.base, h.history, ?_, ?_, ?_, h.base_nonneg, ?_⟩
  · exact forall_mem_append.mpr ⟨h.incr, forall_mem_singleton.mpr rfl⟩
  · rw [hentries, map_append, nodup_append]
    refine ⟨h.nodup, nodup_singleton _, fun a ha b hb heq => ?_⟩
    obtain ⟨ai, hai, rfl⟩ := mem_map.mp ha
    exact (h.generated ai hai).ne_newIncr hcurr (heq.trans (mem_singleton.mp hb))
  · intro ai hai
    rw [hentries] at hai
    rcases mem_append.mp hai with hai | hai
    · exact (h.generated ai hai).mono (Int.le_refl _) (Int.le_add_one (Int.le_refl _))
    rw [mem_singleton.mp hai]
    exact .inr (.inr ⟨am.currIncrFileSeq + 1, by omega, Int.le_refl _, rfl⟩)
  · exact Int.le_add_one hcurr

lemma Named.newIncr_eq : ∃ am' ai,
    getNewIncrAofName f am = (am', ai.fileName) ∧ Named f am' ∧ am'.dirty = true ∧
      inUse am' = inUse am ++ [ai] ∧ am'.incrAofList = am.incrAofList ++ [ai] ∧
      ∀ b name, Generated f b am.currIncrFileSeq name → name ≠ ai.fileName :=
  ⟨_, ⟨_, _, _⟩, rfl, h.newIncr, rfl, (append_assoc _ _ _).symm, rfl,
    fun _ _ hname => hname.ne_newIncr h.incr_nonneg⟩

end

lemma dropLast_append_getLast {α : Type} (xs : List α) :
    xs.dropLast ++ xs.getLast?.toList = xs := by
  cases xs using List.reverseRecOn with
  | nil => rfl
  | append_singleton xs x =>
    rw [dropLast_concat, getLast?_concat]
    rfl

/-- The INCR files that a rewrite replaces and the one it does not. -/
def replacedIncr (aofFdOpen : Bool) (am : AofManifest) : List AofInfo :=
  if aofFdOpen then am.incrAofList.dropLast else am.incrAofList

def keptIncr (aofFdOpen : Bool) (am : AofManifest) : List AofInfo :=
  if aofFdOpen then am.incrAofList.getLast?.toList else []

lemma replacedIncr_append_keptIncr (aofFdOpen : Bool) (am : AofManifest) :
    replacedIncr aofFdOpen am ++ keptIncr aofFdOpen am = am.incrAofList := by
  cases aofFdOpen
  · exact append_nil _
  · exact dropLast_append_getLast _

/-- Without INCR files nothing changes, and the lists are empty as well. -/
lemma markRewritten_fields (aofFdOpen : Bool) (am : AofManifest) :
    ∃ dirty, markRewrittenIncrAofAsHistory aofFdOpen am =
      { am with
        incrAofList := keptIncr aofFdOpen am
        historyAofList := (replacedIncr aofFdOpen am).map
          (fun ai => { ai with fileType := AofFileType.hist }) ++ am.historyAofList
        dirty := dirty } := by
  rw [markRewrittenIncrAofAsHistory]
  split
  · rename_i hnil
    refine ⟨am.dirty, ?_⟩
    obtain ⟨base, history, incr, b, i, dirty⟩ := am
    have hnil : incr = [] := hnil
    rw [hnil]
    cases aofFdOpen <;> rfl
  · exact ⟨true, rfl⟩

lemma markRewritten_dirty (aofFdOpen : Bool) (h : am.dirty = true) :
    (markRewrittenIncrAofAsHistory aofFdOpen am).dirty = true := by
  rw [markRewrittenIncrAofAsHistory]
  split
  · exact h
  · rfl

lemma inUse_rewritten (aofFdOpen : Bool) (am : AofManifest) :
    inUse (markRewrittenIncrAofAsHistory aofFdOpen am) =
      am.baseAofInfo.toList ++ keptIncr aofFdOpen am := by
  obtain ⟨dirty, heq⟩ := markRewritten_fields aofFdOpen am
  rw [heq]
  rfl

lemma Named.rewritten (h : Named f am) (aofFdOpen : Bool) :
    Named f (markRewrittenIncrAofAsHistory aofFdOpen am) := by
  obtain ⟨dirty, heq⟩ := markRewritten_fields aofFdOpen am
  have hincr := replacedIncr_append_keptIncr aofFdOpen am
  have hmem : ∀ ai, ai ∈ keptIncr aofFdOpen am → ai ∈ am.incrAofList := fun ai hai => by
    rw [← hincr]
    exact mem_append_right _ hai
  rw [heq]
  have hperm : ((entries { am with
      incrAofList := keptIncr aofFdOpen am
      historyAofList := (replacedIncr aofFdOpen am).map
        (fun ai => { ai with fileType := AofFileType.hist }) ++ am.historyAofList
      dirty := dirty }).map AofInfo.fileName).Perm ((entries am).map AofInfo.fileName) := by
    have hsame : ∀ is : List AofInfo, (is.map fun ai =>
        { ai with fileType := AofFileType.hist }).map AofInfo.fileName =
          is.map AofInfo.fileName := by
      intro is
      rw [map_map]
      rfl
    conv_rhs => rw [entries, ← hincr]
    simp only [entries, map_append, hsame, append_assoc]
    refine List.Perm.append_left _ ?_
    exact perm_append_comm_assoc _ _ _
  refine ⟨h.base, ?_, fun ai hai => h.incr ai (hmem ai hai), ?_, ?_, h.base_nonneg, h.incr_nonneg⟩
  · intro ai hai
    rcases mem_append.mp hai with hai | hai
    · obtain ⟨old, -, rfl⟩ := mem_map.mp hai
      rfl
    · exact h.history ai hai
  · exact hperm.nodup_iff.mpr h.nodup
  intro ai hai
  obtain ⟨old, hold, hname⟩ := mem_map.mp (hperm.mem_iff.mp (mem_map_of_mem hai))
  rw [← hname]
  exact h.generated old hold

lemma Named.delHistory (h : Named f am) : Named f (Manifest.aofDelHistoryFiles am) := by
  rw [Manifest.aofDelHistoryFiles]
  split
  · exact h
  have hsub : ((am.baseAofInfo.toList ++ ([] : List AofInfo) ++ am.incrAofList)).Sublist
      (entries am) :=
    ((List.Sublist.refl _).append (nil_sublist _)).append (List.Sublist.refl _)
  refine ⟨h.base, nofun, h.incr, ?_, ?_, h.base_nonneg, h.incr_nonneg⟩
  · exact (hsub.map AofInfo.fileName).nodup h.nodup
  · exact fun ai hai => h.generated ai (hsub.subset hai)

lemma delHistory_eq {b : Bool} (h : ¬(b || am.historyAofList.isEmpty) = true) :
    Manifest.aofDelHistoryFiles am = { am with historyAofList := [], dirty := true } :=
  if_neg fun hnil => h (by rw [hnil]; exact Bool.or_true _)

lemma Named.dirty (h : Named f am) (dirty : Bool) : Named f { am with dirty := dirty } :=
  { h with }

end Redis.Aof.RewriteNames
