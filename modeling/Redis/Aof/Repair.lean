import Redis.Aof.TailRepair

/-! # What a load leaves of a cut file

A load ends in the state behind the complete pieces, with the file cut back where the loader
notices the cut. A safe cut leaves a file that ends with a complete record; the others leave a
part of an annotation or an open transaction, which swallows what is appended. -/
namespace Redis.Aof.Repair
open List Lib Util.Numbers Util.Stdlib Networking.Encoders
open Loading LoadingText TailRepair

/-! ## The loader on a cut file -/

lemma encodePiece_head (p : Piece) :
    (encodePiece p).head? = some 35 ∨ (encodePiece p).head? = some 42 := by
  cases p with
  | timestamp seconds => exact .inl rfl
  | command argv => exact .inr (by rfl)

lemma encodePiece_pos (p : Piece) : 0 < (encodePiece p).length := by
  rw [length_pos_iff]
  intro hnil
  have hhead := encodePiece_head p
  rw [hnil] at hhead
  rcases hhead with h | h <;> cases h

lemma length_le_encodePieces (ps : List Piece) : ps.length ≤ (encodePieces ps).length := by
  induction ps with
  | nil => exact Nat.le_refl 0
  | cons p ps ih =>
    rw [encodePieces_cons, length_append, length_cons]
    have := encodePiece_pos p
    omega

variable {content : Bytes} {rs : List Record} {more : List Record}

lemma not_rdbSignature (h : content.head? = some 35 ∨ content.head? = some 42) :
    content.take 5 ≠ rdbSignature := by
  intro heq
  have hhead : (content.take 5).head? = content.head? := by
    cases content <;> rfl
  rw [← hhead, heq] at h
  revert h
  decide

lemma head_encodePieces_take (ps : List Piece) (p : Piece) (m : Nat)
    (hne : encodePieces ps ++ (encodePiece p).take m ≠ []) :
    (encodePieces ps ++ (encodePiece p).take m).head? = some 35 ∨
      (encodePieces ps ++ (encodePiece p).take m).head? = some 42 := by
  have key : ∀ (q : Piece) (rest : Bytes), (encodePiece q ++ rest).head? = (encodePiece q).head? :=
    fun q rest => head?_append_of_ne_nil _ (length_pos_iff.mp (encodePiece_pos q))
  cases ps with
  | cons q ps =>
    rw [encodePieces_cons, append_assoc, key]
    exact encodePiece_head q
  | nil =>
    rw [encodePieces_nil, nil_append] at hne ⊢
    have hm : m ≠ 0 := by
      rintro rfl
      exact hne rfl
    rw [head?_take, if_neg hm]
    exact encodePiece_head p

section
variable {δ : Type} {known : List Bytes → Bool} {proc : List Bytes → δ → δ}
  {rdbLoadRio : Bytes → δ → Except Bool (δ × Nat)}

/-- The end of a file behind complete pieces, in the middle of `p` or before it. -/
def endOfFile (content : Bytes) (p : Piece) (m : Nat) (c : Client δ) : Loaded δ :=
  if p.isCommand && decide (0 < m) then unexpectedEnd true content c.db c.validUpTo
  else cleanEnd true content c

variable {m : Nat} {p : Piece} {ps : List Piece} {us : List Record}

lemma loadLoop_cut (hp : p.Readable known) (hm : m < (encodePiece p).length)
    (content : Bytes) (rounds : Nat) (c : Client δ) :
    loadLoop known proc true content (m + rounds + 1) ((encodePiece p).take m) c =
      endOfFile content p m c := by
  rcases Nat.eq_zero_or_pos m with rfl | hpos
  · rw [endOfFile, decide_eq_false (Nat.lt_irrefl 0), Bool.and_false]
    rfl
  obtain ⟨k, rfl⟩ : ∃ k, m = k + 1 := ⟨m - 1, by omega⟩
  rw [loadLoop, endOfFile, decide_eq_true hpos]
  cases p with
  | timestamp seconds =>
    rw [encodePiece, readNext_timestamp_cut hp.1 hp.2 hpos hm, Nat.add_right_comm]
    rfl
  | command argv =>
    rw [encodePiece, readNext_cut hp.1 hpos hm]
    rfl

lemma endOfFile_not_failed (content : Bytes) (p : Piece) (m : Nat) (c : Client δ) :
    (endOfFile content p m c).status ≠ .failed := by
  rw [endOfFile, unexpectedEnd, cleanEnd, unexpectedEnd]
  split
  · simp
  · split <;> simp

variable (known proc rdbLoadRio) in
/-- A load that does not fail, with the dataset and the file it leaves. -/
def Loads (content : Bytes) (db db' : δ) (file : Bytes) : Prop := ∃ status, status ≠ .failed ∧
    loadSingleAppendOnlyFile known proc rdbLoadRio true content db = ⟨status, db', file⟩

lemma load_nonempty (hps : ∀ p ∈ ps, p.Readable known)
    (hp : p.Readable known) (hm : m < (encodePiece p).length)
    (hcontent : content = encodePieces ps ++ (encodePiece p).take m) (hne : content ≠ []) (db : δ)
    {c : Client δ} (hc : c = loadPieces known proc 0 ps ⟨db, none, 0, 0⟩) :
    loadSingleAppendOnlyFile known proc rdbLoadRio true content db = endOfFile content p m c := by
  rw [loadSingleAppendOnlyFile, if_neg hne, if_neg (not_rdbSignature
    (by rw [hcontent] at hne ⊢; exact head_encodePieces_take ps p m hne))]
  have hlen : content.length = (encodePieces ps).length + m := by
    rw [hcontent, length_append, length_take, Nat.min_eq_left hm.le]
  have hrounds := length_le_encodePieces ps
  obtain ⟨spare, hspare⟩ : ∃ spare, content.length + 1 = ps.length + (m + spare + 1) :=
    ⟨(encodePieces ps).length - ps.length, by omega⟩
  have hloop : loadLoop known proc true content _ _ _ = _ :=
    loadLoop_pieces content ps hps ((encodePiece p).take m) (m + spare + 1) ⟨db, none, 0, 0⟩ 0
      (by rw [zero_add, ← hcontent])
  rw [hspare]
  conv_lhs =>
    arg 6
    rw [hcontent]
  rw [hloop, ← hc, loadLoop_cut hp hm]

lemma load_cut (hps : ∀ p ∈ ps, p.Readable known)
    (hp : p.Readable known) (hm : m < (encodePiece p).length)
    (hcontent : content = encodePieces ps ++ (encodePiece p).take m) (db : δ) {c : Client δ}
    (hc : c = loadPieces known proc 0 ps ⟨db, none, 0, 0⟩) :
    Loads known proc rdbLoadRio content db (endOfFile content p m c).db
      (endOfFile content p m c).file := by
  rcases eq_or_ne content [] with hnil | hne
  · -- an empty file is not read at all
    refine ⟨.empty, by decide, ?_⟩
    obtain ⟨hps', hp'⟩ := append_eq_nil_iff.mp (hcontent.symm.trans hnil)
    have hps0 : ps = [] := by
      have := length_le_encodePieces ps
      rw [hps'] at this
      exact length_eq_zero_iff.mp (Nat.le_zero.mp this)
    have hm0 : m = 0 := by
      have := congrArg List.length hp'
      rw [length_take, length_nil] at this
      omega
    rw [hps0] at hc
    rw [loadSingleAppendOnlyFile, if_pos hnil, hc, hm0, endOfFile,
      decide_eq_false (Nat.lt_irrefl 0), Bool.and_false]
    rfl
  · exact ⟨_, endOfFile_not_failed content p m c, load_nonempty hps hp hm hcontent hne db hc⟩

/-! ## Complete files -/

lemma command_name {name : Bytes} (hname : name.length < 2 ^ 31) : Command [name] where
  nonempty := cons_ne_nil _ _
  argc := by rw [length_singleton]; decide
  arg := by
    intro a ha
    rw [mem_singleton.mp ha]
    have : (2 : Int) ^ 31 ≤ llongMax := by decide
    omega

lemma readable_of_valid (h : p.Valid known) : p.Readable known := by
  cases p with
  | timestamp seconds => exact h
  | command argv => exact ⟨h.1, .other, h.2⟩

lemma readable_multi (known : List Bytes → Bool) : (Piece.command [multiName]).Readable known :=
  ⟨command_name (by decide), .multi, lookupCommand_multi known⟩

lemma readable_exec (known : List Bytes → Bool) : (Piece.command [execName]).Readable known :=
  ⟨command_name (by decide), .exec, lookupCommand_exec known⟩

lemma readable_record {r : Record} (h : r.Valid known) (hp : p ∈ r.pieces) : p.Readable known := by
  cases r with
  | single q =>
    rw [mem_singleton.mp hp]
    exact readable_of_valid h
  | transaction body =>
    rcases mem_cons.mp hp with rfl | hp
    · exact readable_multi known
    rcases mem_append.mp hp with hp | hp
    · exact readable_of_valid (h p hp)
    rw [mem_singleton.mp hp]
    exact readable_exec known

lemma readable_records (h : ∀ r ∈ rs, r.Valid known) :
    ∀ p ∈ rs.flatMap Record.pieces, p.Readable known := by
  intro p hp
  obtain ⟨r, hr, hpr⟩ := mem_flatMap.mp hp
  exact readable_record (h r hr) hpr

lemma encodeRecords_pieces (rs : List Record) : encodeRecords rs =
    encodePieces (rs.flatMap Record.pieces) ++ (encodePiece (.command [multiName])).take 0 := by
  rw [encodeRecords_eq, take_zero, append_nil]

lemma load_records (h : ∀ r ∈ rs, r.Valid known) (db : δ) :
    Loads known proc rdbLoadRio (encodeRecords rs) db (applied proc rs db) (encodeRecords rs) := by
  obtain ⟨before, hload⟩ := @loadPieces_records δ known proc rs h db
  exact load_cut (readable_records h) (readable_multi known) (encodePiece_pos _)
    (encodeRecords_pieces rs) db hload.symm

lemma load_records_status (h : ∀ r ∈ rs, r.Valid known) (db : δ) :
    (loadSingleAppendOnlyFile known proc rdbLoadRio true (encodeRecords rs) db).status ≠
      .truncated := by
  rcases eq_or_ne (encodeRecords rs) [] with hnil | hne
  · rw [loadSingleAppendOnlyFile, if_pos hnil]
    exact nofun
  obtain ⟨before, hload⟩ := @loadPieces_records δ known proc rs h db
  rw [load_nonempty (readable_records h) (readable_multi known) (encodePiece_pos _)
    (encodeRecords_pieces rs) hne db hload.symm]
  exact nofun

/-! ## Cuts -/

lemma trimAnnotations_append (rs : List Record) :
    ∃ notes : List Record, (∀ r ∈ notes, r.isTimestamp) ∧ rs = trimAnnotations rs ++ notes := by
  refine ⟨rs.rtakeWhile Record.isTimestamp, fun r hr => mem_rtakeWhile_imp hr, ?_⟩
  exact (rdropWhile_append_rtakeWhile).symm

lemma take_trimAnnotations (rs : List Record) (rest : Bytes) :
    (encodeRecords rs ++ rest).take (encodeRecords (trimAnnotations rs)).length =
      encodeRecords (trimAnnotations rs) := by
  obtain ⟨notes, -, heq⟩ := trimAnnotations_append rs
  conv_lhs =>
    arg 2
    rw [heq, encodeRecords_append, append_assoc]
  exact take_left

lemma applied_trimAnnotations (rs : List Record) (db : δ) :
    applied proc (trimAnnotations rs) db = applied proc rs db := by
  obtain ⟨notes, hnotes, heq⟩ := trimAnnotations_append rs
  have hnil : notes.flatMap Record.commands = [] := by
    refine flatMap_eq_nil_iff.mpr fun r hr => ?_
    have hr := hnotes r hr
    cases r with
    | transaction body => cases hr
    | single p =>
      cases p with
      | command argv => cases hr
      | timestamp seconds => rfl
  conv_rhs => rw [heq, applied_append, applied, hnil]
  rfl

lemma load_outside (hus : ∀ r ∈ us, r.Valid known)
    (hp : p.Readable known) (hm : m < (encodePiece p).length)
    (hcontent : content = encodeRecords us ++ (encodePiece p).take m) (db : δ) :
    Loads known proc rdbLoadRio content db (applied proc us db)
      (if p.isCommand && decide (0 < m) then encodeRecords (trimAnnotations us) else content) := by
  obtain ⟨before, hload⟩ := @loadPieces_records δ known proc us hus db
  rw [encodeRecords_eq] at hcontent
  have hcut : Loads known proc rdbLoadRio _ _ _ _ :=
    load_cut (readable_records hus) hp hm hcontent db hload.symm
  rw [← encodeRecords_eq] at hcontent
  rw [endOfFile] at hcut
  split at hcut
  · rename_i hcmd
    rw [if_pos hcmd]
    rwa [unexpectedEnd, hcontent, take_trimAnnotations, ← hcontent] at hcut
  rename_i hcmd
  rw [if_neg hcmd]
  exact hcut

lemma loadPieces_open {us : List Record} (hus : ∀ r ∈ us, r.Valid known) {ps : List Piece}
    (hps : ∀ p ∈ ps, p.Valid known) (db : δ) :
    ∃ valid, (encodeRecords us).length + (encodePiece (.command [multiName])).length ≤ valid ∧
      loadPieces known proc 0 (us.flatMap Record.pieces ++ .command [multiName] :: ps)
          ⟨db, none, 0, 0⟩ =
        ⟨applied proc us db, some (commandsOf ps), valid,
          (encodeRecords (trimAnnotations us)).length⟩ := by
  obtain ⟨before, hload⟩ := @loadPieces_records δ known proc us hus db
  obtain ⟨c, hc⟩ : ∃ c : Client δ, c = ⟨applied proc us db, some [],
      (encodeRecords us).length + (encodePiece (.command [multiName])).length,
      (encodeRecords (trimAnnotations us)).length⟩ := ⟨_, rfl⟩
  obtain ⟨valid, hvalid, hbody⟩ : ∃ valid, c.validUpTo ≤ valid ∧ loadPieces known proc _ ps c = _ :=
    loadPieces_body ps hps
      ((encodeRecords us).length + (encodePiece (.command [multiName])).length) c []
      (by rw [hc]) (by rw [hc])
  refine ⟨valid, by rw [hc] at hvalid; exact hvalid, ?_⟩
  rw [loadPieces_append, hload, loadPieces, ← encodeRecords_eq, zero_add, loadPiece_multi rfl,
    ← hc, hbody, hc]
  rfl

lemma load_inside (hus : ∀ r ∈ us, r.Valid known)
    (hps : ∀ p ∈ ps, p.Valid known) (hp : p.Readable known) (hm : m < (encodePiece p).length)
    (hcontent : content = encodeRecords us ++ (encodePiece (.command [multiName]) ++
      (encodePieces ps ++ (encodePiece p).take m))) (db : δ) :
    ∃ file, Loads known proc rdbLoadRio content db (applied proc us db) file ∧
      if p.isCommand && decide (0 < m) then (encodeRecords us).length < file.length
      else file = encodeRecords (trimAnnotations us) := by
  obtain ⟨valid, hvalid, hload⟩ := @loadPieces_open δ known proc us hus ps hps db
  have hreadable : ∀ q ∈ us.flatMap Record.pieces ++ .command [multiName] :: ps,
      q.Readable known := forall_mem_append.mpr ⟨readable_records hus,
    forall_mem_cons.mpr ⟨readable_multi known, fun q hq => readable_of_valid (hps q hq)⟩⟩
  have hsplit : content = encodePieces (us.flatMap Record.pieces ++ .command [multiName] :: ps) ++
      (encodePiece p).take m := by
    rw [hcontent, encodePieces_append, ← encodeRecords_eq, encodePieces_cons, append_assoc,
      append_assoc]
  have hcut : Loads known proc rdbLoadRio _ _ _ _ := load_cut hreadable hp hm hsplit db hload.symm
  rw [endOfFile] at hcut
  have hmulti := encodePiece_pos (.command [multiName])
  split at hcut
  · -- the cut is noticed in the command, behind the ones that are queued already
    rename_i hcmd
    refine ⟨_, hcut, ?_⟩
    rw [if_pos hcmd, unexpectedEnd, if_pos rfl, length_take, hcontent]
    simp only [length_append]
    omega
  rename_i hcmd
  refine ⟨_, hcut, ?_⟩
  rw [if_neg hcmd, hcontent]
  exact take_trimAnnotations us _

/-- What is left of a file whose cut goes through the record `r`. -/
def Leaves (us : List Record) (n : Nat) (r : Record) (file : Bytes) : Prop :=
  (SafeInside n r → file = encodeRecords us ∨ file = encodeRecords (trimAnnotations us)) ∧
    (¬SafeInside n r → (encodeRecords us).length < file.length)

lemma encodeRecord_single (p : Piece) : encodeRecord (.single p) = encodePiece p :=
  flatMap_singleton _ _

lemma leaves_single {n : Nat} (hn : n < (encodePiece p).length)
    (hcontent : content = encodeRecords us ++ (encodePiece p).take n) :
    Leaves us n (.single p)
      (if p.isCommand && decide (0 < n) then encodeRecords (trimAnnotations us) else content) := by
  cases p with
  | timestamp seconds =>
    have hlen : content.length = (encodeRecords us).length + n := by
      rw [hcontent, length_append, length_take, Nat.min_eq_left hn.le]
    refine ⟨fun h => .inl ?_, fun h => ?_⟩
    · have hzero : n = 0 := h
      rwa [hzero, take_zero, append_nil] at hcontent
    have hpos : n ≠ 0 := h
    rw [if_neg (by rw [Piece.isCommand, Bool.false_and]; decide)]
    omega
  | command argv =>
    refine ⟨fun _ => ?_, fun h => absurd trivial h⟩
    rcases Nat.eq_zero_or_pos n with rfl | hpos
    · left
      rw [take_zero, append_nil] at hcontent
      rw [decide_eq_false (Nat.lt_irrefl 0), Bool.and_false, if_neg Bool.false_ne_true, hcontent]
    right
    rw [if_pos (by rw [decide_eq_true hpos]; rfl)]

lemma load_record_cut (hus : ∀ r ∈ us, r.Valid known) {r : Record}
    (hr : r.Valid known) {n : Nat} (hn : n < (encodeRecord r).length)
    (hcontent : content = encodeRecords us ++ (encodeRecord r).take n) (db : δ) :
    ∃ file, Loads known proc rdbLoadRio content db (applied proc us db) file ∧
      Leaves us n r file := by
  cases r with
  | single p =>
    rw [encodeRecord_single] at hn hcontent
    exact ⟨_, load_outside hus (readable_of_valid hr) hn hcontent db, leaves_single hn hcontent⟩
  | transaction body =>
    have hpieces : encodeRecord (.transaction body) = encodePiece (.command [multiName]) ++
        encodePieces (body ++ [.command [execName]]) := by
      rw [encodeRecord, Record.pieces, cons_append, encodePieces_cons]
    rw [hpieces] at hn hcontent
    rcases Nat.lt_or_ge n (encodePiece (.command [multiName])).length with hlt | hge
    · -- in MULTI itself, which is like a command of its own
      rw [take_append_of_le_length hlt.le] at hcontent
      have hsingle := leaves_single hlt hcontent
      refine ⟨_, load_outside hus (readable_multi known) hlt hcontent db, ?_⟩
      exact ⟨fun _ => hsingle.1 trivial, fun h => absurd (.inl hlt) h⟩
    obtain ⟨k, rfl⟩ : ∃ k, n = (encodePiece (.command [multiName])).length + k :=
      ⟨_, (Nat.add_sub_cancel' hge).symm⟩
    rw [length_append, Nat.add_lt_add_iff_left] at hn
    rw [take_length_add_append] at hcontent
    obtain ⟨ps, p, back, m, hsplit, hm, hk, htake⟩ := take_flatMap encodePiece _ hn
    have hps : ∀ q ∈ ps, q.Valid known := by
      have hlen := congrArg List.length hsplit
      simp only [length_append, length_cons, length_nil] at hlen
      have heq : body.take ps.length = ps := by
        rw [← take_append_of_le_length (by omega), hsplit, take_left]
      exact fun q hq => hr q (mem_of_mem_take (heq ▸ hq))
    have hp : p.Readable known := by
      have hmem : p ∈ body ++ [.command [execName]] := by
        rw [hsplit]
        exact mem_append_right _ mem_cons_self
      exact readable_record hr (mem_cons_of_mem _ hmem)
    obtain ⟨file, hload, hfile⟩ :
        ∃ file, Loads known proc rdbLoadRio content db (applied proc us db) file ∧ _ :=
      load_inside hus hps hp hm (hcontent.trans (by rw [encodePieces, htake]; rfl)) db
    have hsafe : SafeInside ((encodePiece (.command [multiName])).length + k)
        (.transaction body) ↔ (p.isCommand && decide (0 < m)) = false := by
      rw [SafeInside, Nat.add_sub_cancel_left, hsplit, hk, ← encodePieces,
        cutsCommand_cut hm ps back]
      exact or_iff_right (by omega)
    refine ⟨file, hload, fun h => .inr ?_, fun h => ?_⟩
    · rw [hsafe] at h
      rwa [h, if_neg Bool.false_ne_true] at hfile
    rw [hsafe, Bool.not_eq_false] at h
    rwa [h, if_pos rfl] at hfile

/-- Wherever a file is cut, the records that are complete are loaded. -/
lemma load_take (hrs : ∀ r ∈ rs, r.Valid known) (k : Nat) (db : δ) :
    ∃ file, Loads known proc rdbLoadRio ((encodeRecords rs).take k) db
        (applied proc (completeRecords rs k) db) file ∧
      (SafeCut rs k → file = encodeRecords (completeRecords rs k) ∨
        file = encodeRecords (trimAnnotations (completeRecords rs k))) ∧
      (¬SafeCut rs k → (encodeRecords (completeRecords rs k)).length < file.length) := by
  rcases Nat.lt_or_ge k (encodeRecords rs).length with hlt | hge
  · obtain ⟨us, r, vs, n, rfl, hn, hk, htake⟩ := take_flatMap encodeRecord rs hlt
    have hk : k = (encodeRecords us).length + n := hk
    obtain ⟨hus, hrest⟩ := forall_mem_append.mp hrs
    rw [hk, safeCut_cut hn, completeRecords_cut hn, ← hk]
    exact load_record_cut hus (hrest r mem_cons_self) hn htake db
  · obtain ⟨hall, hcut⟩ := completeRecords_all rs hge
    rw [hall, take_of_length_le hge]
    exact ⟨_, load_records hrs db, fun _ => .inl rfl, fun h => absurd hcut h⟩

/-! ## Repair -/

variable (known proc rdbLoadRio) in
/-- The first `k` bytes of a file are loaded as the records that are complete in them,
and the file is left at the end of these, so that more can be appended. -/
def Repaired (rs : List Record) (k : Nat) (db : δ) : Prop :=
  ∃ file, (file = encodeRecords (completeRecords rs k) ∨
      file = encodeRecords (trimAnnotations (completeRecords rs k))) ∧
    Loads known proc rdbLoadRio ((encodeRecords rs).take k) db
      (applied proc (completeRecords rs k) db) file ∧
    ∀ more, (∀ r ∈ more, Record.Valid known r) → ∀ db,
      Loads known proc rdbLoadRio (file ++ encodeRecords more) db
        (applied proc (completeRecords rs k ++ more) db) (file ++ encodeRecords more)

lemma loads_more (hus : ∀ r ∈ us, r.Valid known) {file : Bytes}
    (hfile : file = encodeRecords us ∨ file = encodeRecords (trimAnnotations us)) (hmore : ∀ r ∈ more, r.Valid known) (db : δ) :
    Loads known proc rdbLoadRio (file ++ encodeRecords more) db (applied proc (us ++ more) db)
      (file ++ encodeRecords more) := by
  rcases hfile with rfl | rfl
  · rw [← encodeRecords_append]
    exact load_records (forall_mem_append.mpr ⟨hus, hmore⟩) db
  obtain ⟨notes, -, heq⟩ := trimAnnotations_append us
  have htrim : ∀ r ∈ trimAnnotations us, r.Valid known := fun r hr =>
    hus r (by rw [heq]; exact mem_append_left _ hr)
  rw [applied_append, ← applied_trimAnnotations us, ← applied_append, ← encodeRecords_append]
  exact load_records (forall_mem_append.mpr ⟨htrim, hmore⟩) db

lemma loads_unique {db db₁ db₂ : δ} {file₁ file₂ : Bytes}
    (h₁ : Loads known proc rdbLoadRio content db db₁ file₁)
    (h₂ : Loads known proc rdbLoadRio content db db₂ file₂) : file₁ = file₂ := by
  obtain ⟨_, -, h₁⟩ := h₁
  obtain ⟨_, -, h₂⟩ := h₂
  exact congrArg Loaded.file (h₁.symm.trans h₂)

lemma Repaired.reload {k : Nat} {db : δ} (h : Repaired known proc rdbLoadRio rs k db)
    (hmore : ∀ r ∈ more, r.Valid known) {left : Bytes}
    (hleft : (loadSingleAppendOnlyFile known proc rdbLoadRio true
      ((encodeRecords rs).take k) db).file = left) :
    (loadSingleAppendOnlyFile known proc rdbLoadRio true (left ++ encodeRecords more) db).db =
      applied proc (completeRecords rs k ++ more) db := by
  obtain ⟨file, -, ⟨_, -, hload⟩, hmoreLoads⟩ := h
  rw [hload] at hleft
  obtain ⟨_, -, hagain⟩ := hmoreLoads more hmore db
  rw [← hleft, hagain]

/-- A load repairs a cut file exactly if the cut is a safe one. -/
theorem repaired_iff_safeCut (rs : List Record) (hrs : ∀ r ∈ rs, r.Valid known) (k : Nat) (db : δ) :
    Repaired known proc rdbLoadRio rs k db ↔ SafeCut rs k := by
  obtain ⟨rest, hrest⟩ := completeRecords_prefix rs k
  obtain ⟨file, hload, hsafe, hunsafe⟩ := load_take hrs k db
  rw [Repaired]
  obtain ⟨us, hus⟩ : ∃ us, completeRecords rs k = us := ⟨_, rfl⟩
  rw [hus] at hrest hload hsafe hunsafe ⊢
  constructor
  · rintro ⟨file', hfile', hload', -⟩
    by_contra hno
    have hlong := hunsafe hno
    obtain ⟨notes, -, heq⟩ := trimAnnotations_append us
    have hle : (encodeRecords (trimAnnotations us)).length ≤ (encodeRecords us).length := by
      conv_rhs => rw [heq, encodeRecords_append, length_append]
      exact Nat.le_add_right _ _
    rw [loads_unique hload hload'] at hlong
    rcases hfile' with rfl | rfl <;> omega
  · intro hcut
    rw [← hrest] at hrs
    have hvalid := (forall_mem_append.mp hrs).1
    exact ⟨file, hsafe hcut, hload, fun more hmore db => loads_more hvalid (hsafe hcut) hmore db⟩

end

instance (n : Nat) : (r : Record) → Decidable (SafeInside n r)
  | .single (.timestamp _) => inferInstanceAs (Decidable (n = 0))
  | .single (.command _) => inferInstanceAs (Decidable True)
  | .transaction _ => inferInstanceAs (Decidable (_ ∨ _))

instance decidableSafeCut : (rs : List Record) → (k : Nat) → Decidable (SafeCut rs k)
  | [], _ => inferInstanceAs (Decidable True)
  | r :: rs, k =>
    @instDecidableIte _ _ _ _ (decidableSafeCut rs (k - (encodeRecord r).length)) inferInstance

/-! ## A file with each kind of record -/

def incr (key : Char) : Record := .single (.command [text ['I', 'N', 'C', 'R'], text [key]])

/-- INCR a, the time, a transaction with INCR b and INCR c. -/
def sampleRecords : List Record := [incr 'a', .single (.timestamp 1628217470),
    .transaction [.command [text ['I', 'N', 'C', 'R'], text ['b']],
      .command [text ['I', 'N', 'C', 'R'], text ['c']]]]

/-- A dataset that only keeps the commands, in a server that knows every command. -/
def logCommand (argv : List Bytes) (log : List (List Bytes)) : List (List Bytes) := log ++ [argv]

lemma valid_command {argv : List Bytes}
    (hshape : argv ≠ [] ∧ argv.length < 2 ^ 31 ∧ ∀ a ∈ argv, (a.length : Int) ≤ llongMax)
    (hkind : lookupCommand (fun _ => true) argv = some .other) :
    (Piece.command argv).Valid fun _ => true :=
  ⟨⟨hshape.1, hshape.2.1, hshape.2.2⟩, hkind⟩

lemma incr_valid (key : Char) : (incr key).Valid fun _ => true :=
  valid_command (by simp [text]; decide) rfl

lemma sampleRecords_valid : ∀ r ∈ sampleRecords, r.Valid fun _ => true := by
  intro r hr
  simp only [sampleRecords, mem_cons, not_mem_nil, or_false] at hr
  rcases hr with rfl | rfl | rfl
  · exact incr_valid 'a'
  · exact ⟨by decide, by decide⟩
  intro p hp
  simp only [mem_cons, not_mem_nil, or_false] at hp
  rcases hp with rfl | rfl
  · exact incr_valid 'b'
  · exact incr_valid 'c'

/-- A cut in the first command is repaired. -/
theorem repaired_iff_safeCut_sample : SafeCut sampleRecords 15 ∧
    Repaired (fun _ => true) logCommand (fun _ _ => .error false) sampleRecords 15 [] :=
  ⟨by decide +kernel, (repaired_iff_safeCut sampleRecords sampleRecords_valid 15 []).mpr
    (by decide +kernel)⟩

/-- After a cut in the annotation, and after one in the second command of the transaction,
a command that is appended to the file is not loaded. -/
theorem cut_not_repaired :
    ¬Repaired (fun _ => true) logCommand (fun _ _ => .error false) sampleRecords 30 [] ∧
      ¬Repaired (fun _ => true) logCommand (fun _ _ => .error false) sampleRecords 80 [] := by
  have hmore : ∀ r ∈ [incr 'd'], r.Valid fun _ => true :=
    forall_mem_singleton.mpr (incr_valid 'd')
  exact ⟨fun h => absurd (h.reload hmore rfl) (by decide +kernel),
    fun h => absurd (h.reload hmore rfl) (by decide +kernel)⟩

end Redis.Aof.Repair
