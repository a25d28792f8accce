import Redis.Aof.Manifest
import Redis.Sds.RoundTrip

/-! # Reading a manifest back

A line is split where it was joined, unless the file name has a single quote and
stands in the line without double quotes: `sdsneedsrepr` does not look for the single
quote, which `sdssplitargs` takes for the start of a quoted string. -/
namespace Redis.Aof.ManifestText
open List Lib Lib.Decimal Sds.SplitArgs Sds.RoundTrip
open Util.Numbers Util.Stdlib Manifest

/-- A file name the configuration accepts, or one made from it. -/
structure FileName (name : Bytes) : Prop where
  nonempty : name ≠ []
  terminated : 0 ∉ name
  basename : pathIsBaseName name = true

/-- What the server writes about one file. -/
structure Entry (ai : AofInfo) : Prop where
  name : FileName ai.fileName
  pos : 1 ≤ ai.fileSeq
  le : ai.fileSeq ≤ llongMax

instance (name : Bytes) : Decidable (FileName name) :=
  decidable_of_iff (name ≠ [] ∧ 0 ∉ name ∧ pathIsBaseName name = true)
    ⟨fun ⟨h1, h2, h3⟩ => ⟨h1, h2, h3⟩, fun h => ⟨h.nonempty, h.terminated, h.basename⟩⟩

instance (ai : AofInfo) : Decidable (Entry ai) :=
  decidable_of_iff (FileName ai.fileName ∧ 1 ≤ ai.fileSeq ∧ ai.fileSeq ≤ llongMax)
    ⟨fun ⟨h1, h2, h3⟩ => ⟨h1, h2, h3⟩, fun h => ⟨h.name, h.pos, h.le⟩⟩

/-- The name stands in its line in a form that is read back. -/
def Readable (name : Bytes) : Prop := sdsneedsrepr name = true ∨ apostrophe ∉ name

instance (name : Bytes) : Decidable (Readable name) := inferInstanceAs (Decidable (_ ∨ _))

/-! ## The text -/

/-- The line from its third word on. -/
def lineTail (ai : AofInfo) : Bytes :=
  keyFileSeq ++ 32 :: (signedDecimal ai.fileSeq ++ 32 :: (keyFileType ++ 32 :: [ai.fileType.char]))

def lineBody (ai : AofInfo) : Bytes :=
  keyFileName ++ 32 :: (writtenName ai.fileName ++ 32 :: lineTail ai)

def manifestText (es : List AofInfo) : Bytes := es.flatMap fun ai => lineBody ai ++ [newline]

lemma aofInfoFormat_eq (buf : Bytes) (ai : AofInfo) :
    aofInfoFormat buf ai = buf ++ (lineBody ai ++ [newline]) := by
  simp [aofInfoFormat, lineBody, lineTail, blank]

lemma getAofManifestAsString_eq (am : AofManifest) :
    getAofManifestAsString am = manifestText (entries am) := by
  have hfold : ∀ (es : List AofInfo) (buf : Bytes),
      es.foldl aofInfoFormat buf = buf ++ manifestText es := by
    intro es
    induction es with
    | nil => exact fun buf => (append_nil buf).symm
    | cons ai es ih =>
      intro buf
      rw [foldl_cons, ih, aofInfoFormat_eq, append_assoc]
      rfl
  exact hfold _ _

lemma signedDecimal_of_pos {v} (h : 1 ≤ v) : signedDecimal v = decimal v.toNat := by
  rw [signedDecimal, if_neg (by omega)]

/-! ## Characters -/

lemma isprint_reprByte (c : UInt8) : ∀ x ∈ reprByte c, isprint x = true :=
  forall_mem_bytes (forall_byte
    (P := fun c => (reprByte c).all (fun x => decide (isprint x = true)) = true)
    (by decide +kernel) c)

variable {c : UInt8} {name : Bytes} {ai : AofInfo} {am : AofManifest}

lemma nameChar_of_not_needsEscape (h : needsEscape c = false) : isprint c = true ∧ NameChar c :=
  forall_byte (P := fun c => needsEscape c = false → isprint c = true ∧ NameChar c)
    (by decide +kernel) c h

/-- A character of the words the manifest has besides the file names. -/
def KeyChar (c : UInt8) : Prop := isprint c = true ∧ c ≠ backslash ∧ c ≠ apostrophe ∧ c ≠ 0

instance (c : UInt8) : Decidable (KeyChar c) := inferInstanceAs (Decidable (_ ∧ _))

lemma plainChar_of_isDigit (h : IsDigit c) : KeyChar c ∧ PlainChar c :=
  forall_byte (P := fun c => IsDigit c → KeyChar c ∧ PlainChar c) (by decide +kernel) c h

lemma isprint_ne (h : isprint c = true) : c ≠ 0 ∧ c ≠ newline :=
  ⟨by rintro rfl; exact absurd h (by decide), by rintro rfl; exact absurd h (by decide)⟩

lemma nameChar_of_mem (h : sdsneedsrepr name = false) (hc : c ∈ name) :
    isprint c = true ∧ NameChar c :=
  nameChar_of_not_needsEscape (by simpa using any_eq_false.mp h c hc)

lemma isprint_writtenName (name : Bytes) : ∀ c ∈ writtenName name, isprint c = true := by
  intro c hc
  rw [writtenName] at hc
  split at hc
  · rw [sdscatrepr, nil_append, mem_append, mem_append, mem_singleton] at hc
    rcases hc with (rfl | hc) | rfl
    · decide
    · obtain ⟨x, -, hx⟩ := mem_flatMap.mp hc
      exact isprint_reprByte x c hx
    · decide
  · rename_i hrepr
    exact (nameChar_of_mem (Bool.eq_false_iff.mpr hrepr) hc).1

lemma plainChar_seq (h : Entry ai) (hc : c ∈ signedDecimal ai.fileSeq) :
    KeyChar c ∧ PlainChar c := by
  rw [signedDecimal_of_pos h.pos] at hc
  exact plainChar_of_isDigit (isDigit_of_mem_decimal hc)

lemma keyChar_lineTail (h : Entry ai) : ∀ c ∈ lineTail ai, KeyChar c := by
  have hkeys : ∀ c ∈ keyFileSeq ++ keyFileType ++ [32], KeyChar c := forall_mem_bytes (by decide)
  have hchar : KeyChar ai.fileType.char := by cases ai.fileType <;> decide
  intro c hc
  simp only [lineTail, mem_append, mem_cons, not_mem_nil, or_false] at hc
  rcases hc with hc | rfl | hc | rfl | hc | rfl | rfl
  · exact hkeys c (by simp [hc])
  · decide
  · exact (plainChar_seq h hc).1
  · decide
  · exact hkeys c (by simp [hc])
  · decide
  · exact hchar

lemma isprint_lineBody (h : Entry ai) : ∀ c ∈ lineBody ai, isprint c = true := by
  have hkey : ∀ c ∈ keyFileName, isprint c = true := forall_mem_bytes (by decide)
  intro c hc
  simp only [lineBody, mem_append, mem_cons] at hc
  rcases hc with hc | rfl | hc | rfl | hc
  · exact hkey c hc
  · decide
  · exact isprint_writtenName _ c hc
  · decide
  · exact (keyChar_lineTail h c hc).1

/-! ## Splitting a line -/

lemma splitLoop_blank (rounds : Nat) (vector : List Bytes) (p : Bytes) :
    splitLoop (rounds + 1) vector (32 :: p) = splitLoop (rounds + 1) vector p := by
  rfl

lemma splitLoop_lineTail (h : Entry ai) (vector : List Bytes) (rounds : Nat) :
    splitLoop (rounds + 5) vector (lineTail ai ++ [0]) =
      .ok (some (vector ++ [keyFileSeq, signedDecimal ai.fileSeq, keyFileType,
        [ai.fileType.char]])) := by
  have hline : lineTail ai ++ [0] = keyFileSeq ++ 32 :: (signedDecimal ai.fileSeq ++ 32 ::
      (keyFileType ++ 32 :: ([ai.fileType.char] ++ 0 :: []))) := by
    simp [lineTail]
  have hne : signedDecimal ai.fileSeq ≠ [] := by
    rw [signedDecimal_of_pos h.pos]
    exact decimal_ne_nil _
  rw [hline, splitLoop_word (forall_mem_bytes (by decide)) (by decide),
    splitLoop_word (fun c hc => (plainChar_seq h hc).2) hne,
    splitLoop_word (forall_mem_bytes (by decide)) (by decide),
    splitLoop_last (forall_mem_bytes (by cases ai.fileType <;> decide)) (cons_ne_nil _ _)]
  simp only [append_assoc, cons_append, nil_append]

/-- The arguments of the line of `ai`, with another name in it. -/
def arguments (ai : AofInfo) (name : Bytes) : List Bytes :=
  [keyFileName, name, keyFileSeq, signedDecimal ai.fileSeq, keyFileType, [ai.fileType.char]]

lemma splitLoop_name (h : Entry ai) (name : Bytes) {p} (rounds : Nat)
    (hname : ∀ vector, splitLoop (rounds + 6) vector p =
      splitLoop (rounds + 5) (vector ++ [name]) (lineTail ai ++ [0])) :
    splitLoop (rounds + 7) [] (keyFileName ++ 32 :: p) = .ok (some (arguments ai name)) := by
  rw [splitLoop_word (forall_mem_bytes (by decide)) (by decide), hname, splitLoop_lineTail h]
  rfl

lemma sdssplitargs_line (ai : AofInfo) : ∃ rounds, sdssplitargs (lineBody ai ++ [0]) =
    splitLoop (rounds + 7) []
      (keyFileName ++ 32 :: (writtenName ai.fileName ++ 32 :: (lineTail ai ++ [0]))) := by
  have hline : lineBody ai ++ [0] =
      keyFileName ++ 32 :: (writtenName ai.fileName ++ 32 :: (lineTail ai ++ [0])) := by
    simp [lineBody]
  have hkey : keyFileName.length = 4 := rfl
  refine ⟨(lineBody ai ++ [0]).length - 6, ?_⟩
  rw [sdssplitargs]
  congr 1
  rw [hline]
  simp only [length_append, length_cons]
  omega

lemma split_readable (h : Entry ai) (hname : Readable ai.fileName) :
    sdssplitargs (lineBody ai ++ [0]) = .ok (some (arguments ai ai.fileName)) := by
  obtain ⟨rounds, hsplit⟩ := sdssplitargs_line ai
  rw [hsplit]
  refine splitLoop_name h _ rounds fun vector => ?_
  rw [writtenName]
  split
  · have hends : Ends (32 :: (lineTail ai ++ [0])) := Or.inr (by decide)
    have hquoted := splitLoop_arg (.inl rfl) ai.fileName hends vector (rounds + 5)
    rw [nil_append] at hquoted
    rw [hquoted, splitLoop_blank]
  rename_i hrepr
  have hrepr : sdsneedsrepr ai.fileName = false := Bool.eq_false_iff.mpr hrepr
  have hquote : apostrophe ∉ ai.fileName := by
    rcases hname with hr | hq
    · rw [hrepr] at hr
      cases hr
    · exact hq
  refine splitLoop_word (fun c hc => ?_) h.name.nonempty _ vector _
  obtain ⟨hspace, h0, hq, -⟩ := (nameChar_of_mem hrepr hc).2
  exact ⟨hspace, h0, hq, ne_of_mem_of_not_mem hc hquote⟩

/-- A line with any other name is not split, or the name has lost its single
quotes. -/
lemma split_not_readable (h : Entry ai) (hname : ¬Readable ai.fileName) :
    sdssplitargs (lineBody ai ++ [0]) = .ok none ∨
      ∃ name', name'.length < ai.fileName.length ∧ 0 ∉ name' ∧
        sdssplitargs (lineBody ai ++ [0]) = .ok (some (arguments ai name')) := by
  obtain ⟨rounds, hsplit⟩ := sdssplitargs_line ai
  obtain ⟨hrepr, hmem⟩ := not_or.mp hname
  have hrepr : sdsneedsrepr ai.fileName = false := Bool.eq_false_iff.mpr hrepr
  have hchars : ∀ c ∈ ai.fileName, NameChar c := fun c hc => (nameChar_of_mem hrepr hc).2
  have hwritten : writtenName ai.fileName = ai.fileName := if_neg (by simp [hrepr])
  obtain ⟨w, rest, heq, hw⟩ := eq_append_cons_of_mem (Classical.not_not.mp hmem)
  rw [hsplit, hwritten, splitLoop_word (forall_mem_bytes (by decide)) (by decide)]
  rw [heq] at hchars
  have hplain : ∀ c ∈ w, PlainChar c := fun c hc =>
    have hc' := hchars c (mem_append_left _ hc)
    ⟨hc'.1, hc'.2.1, hc'.2.2.1, ne_of_mem_of_not_mem hc hw⟩
  have hrest : ∀ c ∈ rest, NameChar c := fun c hc =>
    hchars c (mem_append_right _ (mem_cons_of_mem _ hc))
  have hbody : ∀ c ∈ lineTail ai, c ≠ backslash ∧ c ≠ apostrophe ∧ c ≠ 0 := fun c hc =>
    (keyChar_lineTail h c hc).2
  have hline : ai.fileName ++ 32 :: (lineTail ai ++ [0]) =
      w ++ apostrophe :: (rest ++ 32 :: (lineTail ai ++ [0])) := by
    rw [heq]
    simp
  have hstart : Starts (w ++ apostrophe :: (rest ++ 32 :: (lineTail ai ++ [0]))) := by
    cases w with
    | nil => exact ⟨apostrophe, _, rfl, by decide, by decide⟩
    | cons c w => exact starts_word hplain (cons_ne_nil _ _) _
  have hskip := skipBlanks_starts hstart
  rw [hline]
  rcases token_apostrophe (w := w) hrest hbody rfl with hnone | ⟨w', hw', hsome⟩
  · exact .inl (splitLoop_starts hskip hstart ((token_word hplain _).trans hnone) _ _)
  refine .inr ⟨w ++ w', ?_, ?_, ?_⟩
  · rw [heq, hw']
    simp only [length_append, length_cons]
    omega
  · intro hzero
    refine h.name.terminated ?_
    rw [heq, hw']
    rcases mem_append.mp hzero with hzero | hzero
    · exact mem_append_left _ hzero
    exact mem_append_right _ (mem_cons_of_mem _ (mem_append_left _ hzero))
  · rw [splitLoop_starts hskip hstart ((token_word hplain _).trans hsome),
      Option.elim_some, splitLoop_blank, splitLoop_lineTail h]
    rfl

/-! ## Reading a line -/

lemma sdstrim_line (ai : AofInfo) :
    sdstrim (lineBody ai ++ [newline]) [32, 9, 13, 10] = lineBody ai := by
  obtain ⟨front, hfront⟩ : ∃ front, lineBody ai = front ++ [ai.fileType.char] :=
    ⟨keyFileName ++ 32 :: (writtenName ai.fileName ++ 32 :: (keyFileSeq ++ 32 ::
      (signedDecimal ai.fileSeq ++ 32 :: (keyFileType ++ [32])))), by simp [lineBody, lineTail]⟩
  have hhead : (lineBody ai ++ [newline]).dropWhile ([32, 9, 13, 10].contains ·) =
      lineBody ai ++ [newline] := rfl
  have hlast : ([32, 9, 13, 10].contains ai.fileType.char) = false := by
    cases ai.fileType <;> decide
  rw [sdstrim, hhead, hfront, reverse_append, reverse_append, reverse_singleton,
    reverse_singleton, singleton_append, singleton_append,
    dropWhile_cons_of_pos (by decide), dropWhile_cons_of_neg (by rw [hlast]; decide),
    reverse_cons, reverse_reverse]

lemma readFields_arguments (h : Entry ai) (h0 : 0 ∉ name) :
    readFields (arguments ai name) ⟨none, 0, 0⟩ =
      if pathIsBaseName name then .ok ⟨some name, ai.fileSeq, ai.fileType.char⟩
      else .error .notAFileName := by
  have hseq : atoll (cstr (signedDecimal ai.fileSeq)) = ai.fileSeq := by
    rw [cstr_of_not_mem fun hc => (plainChar_seq h hc).2.2.1 rfl, signedDecimal_of_pos h.pos]
    have hpos := h.pos
    have hle := h.le
    have hread : atoll (decimal ai.fileSeq.toNat ++ []) = ai.fileSeq.toNat :=
      atoll_decimal (by omega) (by simp)
    rw [append_nil] at hread
    omega
  have hname : setField keyFileName name ⟨none, 0, 0⟩ =
      if pathIsBaseName name then .ok ⟨some name, 0, 0⟩ else .error .notAFileName := by
    rw [setField, if_pos (by decide), cstr_of_not_mem h0]
  rw [arguments, readFields, hname]
  split
  · have hfields : ∀ d : Draft, setField keyFileSeq (signedDecimal ai.fileSeq) d =
        .ok { d with fileSeq := ai.fileSeq } := by
      intro d
      rw [setField, if_neg (by decide), if_pos (by decide), hseq]
    show readFields (keyFileSeq :: signedDecimal ai.fileSeq :: [keyFileType, _]) _ = _
    rw [readFields, hfields]
    rfl
  · rfl

lemma parseLine_line (h : Entry ai) : parseLine (lineBody ai ++ [newline]) =
      (splitLine (lineBody ai)).bind fun argv => (readFields argv ⟨none, 0, 0⟩).bind completeInfo := by
  have hcstr : cstr (lineBody ai ++ [newline]) = lineBody ai ++ [newline] := by
    refine cstr_of_not_mem fun hc => ?_
    rcases mem_append.mp hc with hc | hc
    · exact (isprint_ne (isprint_lineBody h 0 hc)).1 rfl
    · exact absurd hc (by decide)
  have hne : ¬(lineBody ai).length = 0 := Nat.succ_ne_zero _
  rw [parseLine, hcstr, if_neg (by simp)]
  rw [sdstrim_line]
  rfl

lemma parseLine_of_split (h : Entry ai) (h0 : 0 ∉ name)
    (hsplit : sdssplitargs (lineBody ai ++ [0]) = .ok (some (arguments ai name))) :
    parseLine (lineBody ai ++ [newline]) =
      if pathIsBaseName name then .ok ⟨name, ai.fileSeq, ai.fileType.char⟩
      else .error .notAFileName := by
  have hargv : splitLine (lineBody ai) = .ok (arguments ai name) := by
    rw [splitLine, hsplit]
    have hlen : (arguments ai name).length = 6 := rfl
    exact if_neg (by rw [hlen]; decide)
  rw [parseLine_line h, hargv]
  show (readFields (arguments ai name) ⟨none, 0, 0⟩).bind completeInfo = _
  rw [readFields_arguments h h0]
  split
  · have hpos := h.pos
    have hchar : ai.fileType.char ≠ 0 := by cases ai.fileType <;> decide
    have hcomplete : ¬(ai.fileSeq = 0 ∨ ai.fileType.char = 0) := by
      rintro (hz | hz)
      · omega
      · exact hchar hz
    exact if_neg hcomplete
  · rfl

lemma parseLine_readable (h : Entry ai) (hname : Readable ai.fileName) :
    parseLine (lineBody ai ++ [newline]) = .ok ⟨ai.fileName, ai.fileSeq, ai.fileType.char⟩ := by
  rw [parseLine_of_split h h.name.terminated (split_readable h hname), if_pos h.name.basename]

/-- Any other name ends the loading or comes out shorter. -/
lemma parseLine_not_readable (h : Entry ai) (hname : ¬Readable ai.fileName)
    {read} (hparse : parseLine (lineBody ai ++ [newline]) = .ok read) :
    read.fileName.length < ai.fileName.length := by
  rcases split_not_readable h hname with hnone | ⟨name', hlt, h0, hsome⟩
  · have hargv : splitLine (lineBody ai) = .error .invalidFormat := by
      rw [splitLine, hnone]
    rw [parseLine_line h, hargv] at hparse
    cases hparse
  rw [parseLine_of_split h h0 hsome] at hparse
  split at hparse
  · cases hparse
    exact hlt
  · cases hparse

/-! ## The loop -/

/-- The line fits the buffer of the loader. -/
def Fits (ai : AofInfo) : Prop := (lineBody ai).length + 1 ≤ manifestMaxLine

instance (ai : AofInfo) : Decidable (Fits ai) := inferInstanceAs (Decidable (_ ≤ _))

def readEntries (es : List AofInfo) (st : Loading) : Except LoadError Loading :=
  es.foldlM (fun st ai => readLine st (lineBody ai ++ [newline])) st

lemma newline_not_mem (h : Entry ai) : newline ∉ lineBody ai := fun hc =>
  (isprint_ne (isprint_lineBody h newline hc)).2 rfl

lemma manifestText_cons (ai : AofInfo) (es : List AofInfo) :
    manifestText (ai :: es) = lineBody ai ++ newline :: manifestText es := by
  simp [manifestText]

lemma loadLoop_line (h : Entry ai) (hfits : Fits ai) (es : List AofInfo)
    (rounds linenum : Nat) (st : Loading) :
    loadLoop (rounds + 1) linenum (manifestText (ai :: es)) st =
      (readLine st (lineBody ai ++ [newline]) >>=
        loadLoop rounds (linenum + 1) (manifestText es)) := by
  have hget : fgets (manifestMaxLine + 1) (manifestText (ai :: es)) =
      some (lineBody ai ++ [newline], manifestText es) := by
    rw [manifestText_cons]
    exact fgets_line (newline_not_mem h) (Nat.lt_succ_of_le hfits)
  have hhead : (lineBody ai ++ [newline]).head? = some 102 := rfl
  rw [loadLoop, hget]
  dsimp only
  rw [hhead, if_neg (by decide)]

lemma loadLoop_too_long (h : Entry ai) (hfits : ¬Fits ai) (es : List AofInfo)
    (rounds linenum : Nat) (st : Loading) :
    loadLoop (rounds + 1) linenum (manifestText (ai :: es)) st = .error .tooLongLine := by
  have hget : fgets (manifestMaxLine + 1) (manifestText (ai :: es)) =
      some ((lineBody ai).take manifestMaxLine,
        (lineBody ai).drop manifestMaxLine ++ newline :: manifestText es) := by
    rw [manifestText_cons]
    exact fgets_cut (newline_not_mem h) (Nat.lt_of_not_le hfits)
  have hhead : ((lineBody ai).take manifestMaxLine).head? = some 102 := rfl
  have hparse : parseLine ((lineBody ai).take manifestMaxLine) = .error .tooLongLine := by
    refine if_pos fun hc => newline_not_mem h ?_
    exact mem_of_mem_take ((takeWhile_sublist _).mem hc)
  rw [loadLoop, hget]
  dsimp only
  rw [hhead, readLine, hparse]
  rfl

lemma loadLoop_eq (es : List AofInfo) (hes : ∀ ai ∈ es, Entry ai ∧ Fits ai) :
    ∀ (rounds linenum : Nat) (st : Loading), es.length < rounds → 0 < linenum + es.length →
      loadLoop rounds linenum (manifestText es) st = (readEntries es st).map Loading.am := by
  induction es with
  | nil =>
    intro rounds linenum st hrounds hlines
    obtain ⟨r, rfl⟩ := Nat.exists_eq_add_one.mpr (Nat.zero_lt_of_lt hrounds)
    rw [length_nil] at hlines
    exact if_neg (by omega)
  | cons ai es ih =>
    intro rounds linenum st hrounds hlines
    obtain ⟨r, rfl⟩ := Nat.exists_eq_add_one.mpr (Nat.zero_lt_of_lt hrounds)
    obtain ⟨hentry, hfits⟩ := hes ai mem_cons_self
    rw [length_cons] at hrounds
    rw [loadLoop_line hentry hfits, readEntries, foldlM_cons]
    cases readLine st (lineBody ai ++ [newline]) with
    | error e => rfl
    | ok st' =>
      exact ih (forall_mem_cons.mp hes).2 r (linenum + 1) st' (by omega) (by omega)

lemma fits_of_loadLoop (es : List AofInfo) (hes : ∀ ai ∈ es, Entry ai) :
    ∀ {rounds linenum : Nat} {st : Loading} {am : AofManifest}, es.length < rounds →
      loadLoop rounds linenum (manifestText es) st = .ok am → ∀ ai ∈ es, Fits ai := by
  induction es with
  | nil => exact nofun
  | cons ai es ih =>
    intro rounds linenum st am hrounds hload x hx
    obtain ⟨r, rfl⟩ := Nat.exists_eq_add_one.mpr (Nat.zero_lt_of_lt hrounds)
    rw [length_cons] at hrounds
    have hentry := hes ai mem_cons_self
    by_cases hfits : Fits ai
    · rw [loadLoop_line hentry hfits] at hload
      obtain ⟨st', -, hrest⟩ := Outcome.bind_eq_ok.mp hload
      rcases mem_cons.mp hx with rfl | hx
      · exact hfits
      · exact ih (forall_mem_cons.mp hes).2 (by omega) hrest x hx
    · rw [loadLoop_too_long hentry hfits] at hload
      cases hload

/-! ## The manifest -/

def nameBytes (am : AofManifest) : Nat := ((entries am).map fun ai => ai.fileName.length).sum

lemma nameBytes_addInfo {st st' ai} (h : addInfo st ai = .ok st') :
    nameBytes st'.am = nameBytes st.am + ai.fileName.length := by
  unfold addInfo at h
  split at h
  · split at h
    · cases h
    rename_i hbase
    cases h
    have hnone : st.am.baseAofInfo = none := by simpa using hbase
    simp [nameBytes, entries, hnone]
    omega
  split at h
  · cases h
    simp [nameBytes, entries]
    omega
  split at h
  · split at h
    · cases h
    cases h
    simp [nameBytes, entries]
    omega
  · cases h

/-- Reading never makes names longer, and makes one shorter that is not readable. -/
lemma nameBytes_readEntries (es : List AofInfo) (hes : ∀ ai ∈ es, Entry ai) :
    ∀ {st st' : Loading}, readEntries es st = .ok st' →
      nameBytes st'.am ≤ nameBytes st.am + (es.map fun ai => ai.fileName.length).sum ∧
      (nameBytes st'.am = nameBytes st.am + (es.map fun ai => ai.fileName.length).sum →
        ∀ ai ∈ es, Readable ai.fileName) := by
  induction es with
  | nil =>
    intro st st' h
    cases h
    exact ⟨le_rfl, nofun⟩
  | cons ai es ih =>
    intro st st' h
    obtain ⟨st1, hline, hrest⟩ := Outcome.bind_eq_ok.mp h
    obtain ⟨read, hparse, hadd⟩ := Outcome.bind_eq_ok.mp hline
    obtain ⟨hle, heq⟩ := ih (forall_mem_cons.mp hes).2 hrest
    have hentry := hes ai mem_cons_self
    rw [nameBytes_addInfo hadd] at hle heq
    rw [map_cons, sum_cons]
    by_cases hname : Readable ai.fileName
    · rw [parseLine_readable hentry hname] at hparse
      cases hparse
      dsimp only at hle heq
      refine ⟨by omega, fun htotal x hx => ?_⟩
      rcases mem_cons.mp hx with rfl | hx
      · exact hname
      · exact heq (by omega) x hx
    · have hlt := parseLine_not_readable hentry hname hparse
      exact ⟨by omega, fun htotal => by omega⟩

/-- A manifest as the server builds it. -/
structure WellFormed (am : AofManifest) : Prop where
  entry : ∀ ai ∈ entries am, Entry ai
  base : ∀ ai ∈ am.baseAofInfo, ai.fileType = .base
  history : ∀ ai ∈ am.historyAofList, ai.fileType = .hist
  incr : ∀ ai ∈ am.incrAofList, ai.fileType = .incr
  increasing : am.incrAofList.Pairwise fun a b => a.fileSeq < b.fileSeq
  currBase : am.currBaseFileSeq = (am.baseAofInfo.map AofInfo.fileSeq).getD 0
  currIncr : ∀ ai ∈ am.incrAofList.getLast?, am.currIncrFileSeq = ai.fileSeq
  nonneg : 0 ≤ am.currIncrFileSeq

instance (am : AofManifest) : Decidable (WellFormed am) :=
  decidable_of_iff ((∀ ai ∈ entries am, Entry ai) ∧
      (∀ ai ∈ am.baseAofInfo.toList, ai.fileType = .base) ∧
      (∀ ai ∈ am.historyAofList, ai.fileType = .hist) ∧
      (∀ ai ∈ am.incrAofList, ai.fileType = .incr) ∧
      (am.incrAofList.Pairwise fun a b => a.fileSeq < b.fileSeq) ∧
      am.currBaseFileSeq = (am.baseAofInfo.map AofInfo.fileSeq).getD 0 ∧
      (∀ ai ∈ am.incrAofList.getLast?.toList, am.currIncrFileSeq = ai.fileSeq) ∧
      0 ≤ am.currIncrFileSeq) (by
    simp only [Option.mem_toList]
    exact ⟨fun ⟨h1, h2, h3, h4, h5, h6, h7, h8⟩ => ⟨h1, h2, h3, h4, h5, h6, h7, h8⟩,
      fun h => ⟨h.entry, h.base, h.history, h.incr, h.increasing, h.currBase, h.currIncr,
        h.nonneg⟩⟩)

lemma readLine_readable (h : Entry ai) (hname : Readable ai.fileName)
    (st : Loading) : readLine st (lineBody ai ++ [newline]) =
      addInfo st ⟨ai.fileName, ai.fileSeq, ai.fileType.char⟩ := by
  rw [readLine, parseLine_readable h hname]
  rfl

lemma readEntries_append (xs ys : List AofInfo) (st : Loading) :
    readEntries (xs ++ ys) st = readEntries xs st >>= readEntries ys :=
  foldlM_append

lemma readEntries_base (h : WellFormed am) (hread : ∀ ai ∈ am.baseAofInfo, Readable ai.fileName) :
    readEntries am.baseAofInfo.toList ⟨aofManifestCreate, 0⟩ =
      .ok ⟨{ aofManifestCreate with
        baseAofInfo := am.baseAofInfo, currBaseFileSeq := am.currBaseFileSeq }, 0⟩ := by
  have hentry := h.entry
  have hbase := h.base
  rw [h.currBase]
  rw [entries] at hentry
  cases hinfo : am.baseAofInfo with
  | none => rfl
  | some ai =>
    rw [hinfo] at hread hbase hentry
    obtain ⟨name, seq, type⟩ := ai
    have htype : type = .base := hbase _ rfl
    subst htype
    have hline := readLine_readable (hentry _ (by simp)) (hread _ rfl) ⟨aofManifestCreate, 0⟩
    rw [Option.toList_some, readEntries, foldlM_cons, hline]
    rfl

lemma readEntries_history (hs : List AofInfo)
    (h : ∀ ai ∈ hs, Entry ai ∧ Readable ai.fileName ∧ ai.fileType = .hist) :
    ∀ st : Loading, readEntries hs st =
      .ok { st with am := { st.am with historyAofList := st.am.historyAofList ++ hs } } := by
  induction hs with
  | nil =>
    intro st
    rw [append_nil]
    rfl
  | cons ai hs ih =>
    intro st
    obtain ⟨hentry, hname, htype⟩ := h ai mem_cons_self
    have hadd : addInfo st ⟨ai.fileName, ai.fileSeq, ai.fileType.char⟩ =
        .ok { st with am := { st.am with historyAofList := st.am.historyAofList ++ [ai] } } := by
      obtain ⟨name, seq, type⟩ := ai
      subst htype
      rfl
    rw [readEntries, foldlM_cons, readLine_readable hentry hname, hadd]
    refine (ih (forall_mem_cons.mp h).2 _).trans ?_
    simp only [append_assoc, singleton_append]

/-- The sequence number of the last file, or `d`. -/
def lastSeq (is : List AofInfo) (d : Int) : Int := (is.getLast?.map AofInfo.fileSeq).getD d

lemma readEntries_incr (is : List AofInfo)
    (h : ∀ ai ∈ is, Entry ai ∧ Readable ai.fileName ∧ ai.fileType = .incr)
    (hseq : is.Pairwise fun a b => a.fileSeq < b.fileSeq) :
    ∀ st : Loading, (∀ ai ∈ is, st.maxseq < ai.fileSeq) → readEntries is st =
      .ok ⟨{ st.am with
        incrAofList := st.am.incrAofList ++ is
        currIncrFileSeq := lastSeq is st.am.currIncrFileSeq }, lastSeq is st.maxseq⟩ := by
  induction is with
  | nil =>
    intro st _
    rw [append_nil]
    rfl
  | cons ai is ih =>
    intro st hmax
    obtain ⟨hentry, hname, htype⟩ := h ai mem_cons_self
    obtain ⟨hfirst, hrest⟩ := pairwise_cons.mp hseq
    have hlt := hmax ai mem_cons_self
    have hadd : addInfo st ⟨ai.fileName, ai.fileSeq, ai.fileType.char⟩ =
        .ok ⟨{ st.am with
          incrAofList := st.am.incrAofList ++ [ai], currIncrFileSeq := ai.fileSeq }, ai.fileSeq⟩ := by
      obtain ⟨name, seq, type⟩ := ai
      subst htype
      exact if_neg (Int.not_le.mpr hlt)
    have hlast : ∀ d, lastSeq (ai :: is) d = lastSeq is ai.fileSeq := by
      intro d
      rw [lastSeq, lastSeq, getLast?_cons]
      cases is.getLast? <;> rfl
    rw [readEntries, foldlM_cons, readLine_readable hentry hname, hadd]
    refine (ih (forall_mem_cons.mp h).2 hrest _ hfirst).trans ?_
    simp only [append_assoc, singleton_append, hlast]

/-- The text of the manifest is loaded as the same manifest. -/
def RoundTrips (am : AofManifest) : Prop :=
  aofLoadManifestFromFile (getAofManifestAsString am) = .ok { am with dirty := false }

instance (am : AofManifest) : Decidable (RoundTrips am) := inferInstanceAs (Decidable (_ = _))

lemma length_le_manifestText (es : List AofInfo) : es.length ≤ (manifestText es).length := by
  induction es with
  | nil => exact Nat.zero_le _
  | cons ai es ih =>
    rw [manifestText_cons, length_append, length_cons, length_cons]
    omega

lemma readEntries_entries (h : WellFormed am) (hread : ∀ ai ∈ entries am, Readable ai.fileName) :
    (readEntries (entries am) ⟨aofManifestCreate, 0⟩).map Loading.am =
      .ok { am with currIncrFileSeq := lastSeq am.incrAofList 0, dirty := false } := by
  have hmem : ∀ ai, ai ∈ am.baseAofInfo ∨ ai ∈ am.historyAofList ∨ ai ∈ am.incrAofList →
      Entry ai ∧ Readable ai.fileName := by
    intro ai hai
    have hentries : ai ∈ entries am := by
      rw [entries, mem_append, mem_append, Option.mem_toList, or_assoc]
      exact hai
    exact ⟨h.entry ai hentries, hread ai hentries⟩
  have hbase := readEntries_base h fun ai hai => (hmem ai (.inl hai)).2
  rw [entries, readEntries_append, readEntries_append, hbase]
  have hhist := readEntries_history am.historyAofList (fun ai hai =>
    have hai' := hmem ai (.inr (.inl hai))
    ⟨hai'.1, hai'.2, h.history ai hai⟩)
  have hincr := readEntries_incr am.incrAofList (fun ai hai =>
    have hai' := hmem ai (.inr (.inr hai))
    ⟨hai'.1, hai'.2, h.incr ai hai⟩) h.increasing
  show ((readEntries am.historyAofList _ >>= readEntries am.incrAofList).map Loading.am) = _
  rw [hhist]
  refine (congrArg (Except.map Loading.am) (hincr _ fun ai hai => ?_)).trans rfl
  exact Int.lt_of_lt_of_le Int.zero_lt_one (hmem ai (.inr (.inr hai))).1.pos

lemma lastSeq_eq_iff (h : WellFormed am) : lastSeq am.incrAofList 0 = am.currIncrFileSeq ↔
      (am.incrAofList = [] → am.currIncrFileSeq = 0) := by
  have hlast := h.currIncr
  rw [lastSeq]
  cases hget : am.incrAofList.getLast? with
  | none =>
    have hnil := getLast?_eq_none_iff.mp hget
    exact ⟨fun heq _ => heq.symm, fun heq => (heq hnil).symm⟩
  | some ai =>
    have hne : am.incrAofList ≠ [] := by
      intro hnil
      rw [hnil] at hget
      cases hget
    exact iff_of_true (hlast ai hget).symm fun hnil => absurd hnil hne

/-- A manifest comes back from its text exactly if it has a file, no name with a
single quote stands there without double quotes, no line is longer than the loader's
buffer, and its INCR counter is that of its last INCR file. -/
theorem manifest_roundtrip_iff {am : AofManifest} (h : WellFormed am) :
    RoundTrips am ↔ entries am ≠ [] ∧ (∀ ai ∈ entries am, Readable ai.fileName ∧ Fits ai) ∧
      (am.incrAofList = [] → am.currIncrFileSeq = 0) := by
  have hlen := Nat.lt_succ_of_le (length_le_manifestText (entries am))
  have hloop : entries am ≠ [] → (∀ ai ∈ entries am, Fits ai) →
      loadLoop ((manifestText (entries am)).length + 1) 0 (manifestText (entries am))
        ⟨aofManifestCreate, 0⟩ =
      (readEntries (entries am) ⟨aofManifestCreate, 0⟩).map Loading.am := by
    intro hne hfits
    refine loadLoop_eq _ (fun ai hai => ⟨h.entry ai hai, hfits ai hai⟩) _ _ _ hlen ?_
    rw [zero_add]
    exact length_pos_iff.mpr hne
  rw [RoundTrips, aofLoadManifestFromFile, getAofManifestAsString_eq]
  constructor
  · intro hload
    have hfits := fits_of_loadLoop _ h.entry hlen hload
    have hne : entries am ≠ [] := by
      intro hnil
      rw [hnil] at hload
      cases hload
    rw [hloop hne hfits] at hload
    obtain ⟨st, hst, ham⟩ : ∃ st, readEntries (entries am) ⟨aofManifestCreate, 0⟩ = .ok st ∧
        st.am = { am with dirty := false } := by
      cases hread : readEntries (entries am) ⟨aofManifestCreate, 0⟩ with
      | error e =>
        rw [hread] at hload
        cases hload
      | ok st =>
        rw [hread] at hload
        exact ⟨st, rfl, Except.ok.inj hload⟩
    have hnames := (nameBytes_readEntries _ h.entry hst).2 (by
      rw [ham]
      exact (zero_add _).symm)
    rw [readEntries_entries h hnames] at hload
    have hcounter : lastSeq am.incrAofList 0 = am.currIncrFileSeq :=
      congrArg AofManifest.currIncrFileSeq (Except.ok.inj hload)
    exact ⟨hne, fun ai hai => ⟨hnames ai hai, hfits ai hai⟩, (lastSeq_eq_iff h).mp hcounter⟩
  · rintro ⟨hne, hentries, hcounter⟩
    rw [hloop hne fun ai hai => (hentries ai hai).2,
      readEntries_entries h fun ai hai => (hentries ai hai).1, (lastSeq_eq_iff h).mpr hcounter]

/-- The manifest of a fresh start, and one with a history. -/
theorem manifest_roundtrip_sample :
    RoundTrips ⟨some ⟨[97, 46, 49], 1, .base⟩, [], [⟨[97, 46, 50], 1, .incr⟩], 1, 1, true⟩ ∧
      RoundTrips ⟨some ⟨[97, 34], 2, .base⟩, [⟨[97, 32, 39], 1, .hist⟩], [⟨[98], 7, .incr⟩,
        ⟨[99], 8, .incr⟩], 2, 8, false⟩ :=
  ⟨(manifest_roundtrip_iff (by decide +kernel)).mpr (by decide +kernel),
    (manifest_roundtrip_iff (by decide +kernel)).mpr (by decide +kernel)⟩

/-- With `appendfilename` set to `it's` the manifest of a fresh start cannot be
loaded. With `''` the old style AOF file comes back without a name. A rewrite with the
AOF switched off leaves no INCR file, and the counter starts again. -/
theorem manifest_not_reloaded : aofLoadManifestFromFile (getAofManifestAsString
        (build (text ['i', 't', '\'', 's']) [.newBase true, .newIncr])) = .error .invalidFormat ∧
      aofLoadManifestFromFile (getAofManifestAsString (build (text ['\'', '\'']) [.upgrade])) =
          .ok { build (text ['\'', '\'']) [.upgrade] with
            baseAofInfo := some ⟨[], 1, .base⟩, dirty := false } ∧
      aofLoadManifestFromFile (getAofManifestAsString
        (build (text ['a']) [.newBase true, .newIncr, .newBase true, .rewritten false])) =
          .ok { build (text ['a']) [.newBase true, .newIncr, .newBase true, .rewritten false] with
            currIncrFileSeq := 0, dirty := false } ∧
      (build (text ['a']) [.newBase true, .newIncr, .newBase true, .rewritten false]).currIncrFileSeq =
        1 := by
  decide +kernel

/-- Whatever bytes the names have, every file gets one line of printable characters. -/
theorem manifest_lines_printable {am : AofManifest} (h : ∀ ai ∈ entries am, Entry ai) :
    ∃ lines : List Bytes, getAofManifestAsString am = lines.flatMap (· ++ [newline]) ∧
      lines.length = (entries am).length ∧ ∀ line ∈ lines, ∀ c ∈ line, isprint c = true := by
  refine ⟨(entries am).map lineBody, ?_, length_map _, fun line hline => ?_⟩
  · rw [getAofManifestAsString_eq, manifestText, flatMap_map]
  · obtain ⟨ai, hai, rfl⟩ := mem_map.mp hline
    exact isprint_lineBody (h ai hai)

/-- A name with a newline in it. -/
theorem manifest_lines_printable_newline : ∃ lines : List Bytes,
    getAofManifestAsString ⟨some ⟨[97, 10], 1, .base⟩, [], [], 1, 0, false⟩ =
      lines.flatMap (· ++ [newline]) ∧
    lines.length = 1 ∧ ∀ line ∈ lines, ∀ c ∈ line, isprint c = true :=
  manifest_lines_printable (by decide)

end Redis.Aof.ManifestText
