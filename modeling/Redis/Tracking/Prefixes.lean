import Redis.Lib.Bytes
import Redis.Lib.Runs
import Mathlib.Data.List.Pairwise
import Mathlib.Data.List.Sort

/-! # The prefixes of a broadcasting client

`CLIENT TRACKING` and the checks it makes before it registers prefixes. A client must not
have two prefixes of which one starts with the other. -/
namespace Redis.Tracking
open List Lib

/-- The options of the command; `redirect` is 0 without `REDIRECT`. -/
structure Options where
  redirect : Nat
  bcast : Bool
  optin : Bool
  optout : Bool
  noloop : Bool
  deriving DecidableEq, Repr

/-- The tracking flags of a client, and its prefixes in the order of the rax. -/
structure Client where
  tracking : Bool
  options : Options
  prefixes : List Bytes
  deriving DecidableEq, Repr

inductive Reply where
  | ok
  | prefixWithoutBcast
  | switchBcast
  | optinWithBcast
  | optinWithOptout
  | switchOptin
  | overlapsExisting (given existing : Bytes)
  | overlapsProvided (given other : Bytes)
  deriving DecidableEq, Repr

def stringCheckPrefix (s1 s2 : Bytes) : Bool :=
  let minLength := min s1.length s2.length
  s1.take minLength = s2.take minLength

/-- The number that is returned and what is sent. `i` counts the prefixes before. -/
def checkPrefixCollisionsOrReply (existing : List Bytes) : Nat → List Bytes → Nat × List Reply
  | _, [] => (1, [])
  | i, p :: ps =>
    match existing.find? (stringCheckPrefix · p) with
    | some q => (0, [.overlapsExisting p q])
    | none =>
      match ps.find? (stringCheckPrefix p) with
      -- not 0 but `i`, which the caller takes for success
      | some q => (i, [.overlapsProvided p q])
      | none => checkPrefixCollisionsOrReply existing (i + 1) ps

def enableBcastTrackingForPrefix (ps : List Bytes) (p : Bytes) : List Bytes :=
  if ps.contains p then ps else ps.orderedInsert (· ≤ ·) p

def enableTracking (options : Options) (given : List Bytes) (c : Client) : Client :=
  { tracking := true
    options
    prefixes := if options.bcast then
        (if given = [] then [[]] else given).foldl enableBcastTrackingForPrefix c.prefixes
      else c.prefixes }

def disableTracking (c : Client) : Client :=
  let c := if c.options.bcast then { c with prefixes := [] } else c
  if c.tracking then
    { c with tracking := false, options := ⟨c.options.redirect, false, false, false, false⟩ }
  else c

/-- `CLIENT TRACKING ON`, with what is sent to the client. -/
def clientTrackingOn (options : Options) (given : List Bytes) (c : Client) : Client × List Reply :=
  if !options.bcast ∧ given ≠ [] then (c, [.prefixWithoutBcast])
  else if c.tracking ∧ c.options.bcast ≠ options.bcast then (c, [.switchBcast])
  else if options.bcast ∧ (options.optin ∨ options.optout) then (c, [.optinWithBcast])
  else if options.optin ∧ options.optout then (c, [.optinWithOptout])
  else if (options.optin ∧ c.options.optout) ∨ (options.optout ∧ c.options.optin) then
    (c, [.switchOptin])
  else
    let (ret, replies) :=
      if options.bcast then checkPrefixCollisionsOrReply c.prefixes 0 given else (1, [])
    if ret = 0 then (c, replies) else (enableTracking options given c, replies ++ [.ok])

/-! ## Collisions -/

def Apart (p q : Bytes) : Prop := ¬(p <+: q ∨ q <+: p)

instance : DecidableRel Apart := fun p q => inferInstanceAs (Decidable ¬(p <+: q ∨ q <+: p))

def Collides (existing given : List Bytes) : Prop :=
  (∃ p ∈ given, ∃ q ∈ existing, ¬Apart q p) ∨ ¬given.Pairwise Apart

variable {p q : Bytes} {existing given ps : List Bytes} {c t : Client}

lemma Apart.symm (h : Apart p q) : Apart q p := fun hq => h hq.symm

instance : Std.Symm Apart := ⟨fun _ _ => Apart.symm⟩

lemma stringCheckPrefix_iff : stringCheckPrefix p q = true ↔ ¬Apart p q := by
  simp only [stringCheckPrefix, decide_eq_true_eq, Apart, not_not]
  rcases Nat.le_total p.length q.length with hle | hle
  · rw [Nat.min_eq_left hle, take_length, ← prefix_iff_eq_take]
    exact ⟨.inl, fun h => h.elim id fun hq => (hq.eq_of_length_le hle) ▸ prefix_rfl⟩
  · rw [Nat.min_eq_right hle, take_length, eq_comm, ← prefix_iff_eq_take]
    exact ⟨.inr, fun h => h.elim (fun hp => (hp.eq_of_length_le hle) ▸ prefix_rfl) id⟩

/-- The prefixes `pre` overlap no registered one, no other of them and none behind them. -/
structure Clear (existing pre rest : List Bytes) : Prop where
  registered : ∀ p ∈ pre, ∀ q ∈ existing, Apart q p
  given : pre.Pairwise Apart
  behind : ∀ p ∈ pre, ∀ q ∈ rest, Apart p q

/-- The first given prefix with an overlap is not the first one given; it overlaps another
given one, but no registered one. -/
def Slips (existing given : List Bytes) : Prop :=
  ∃ pre p post, given = pre ++ p :: post ∧ pre ≠ [] ∧ Clear existing pre (p :: post) ∧
    (∀ q ∈ existing, Apart q p) ∧ ∃ q ∈ post, ¬Apart p q

lemma Clear.cons {pre rest} (h : Clear existing pre rest) (hexisting : ∀ q ∈ existing, Apart q p)
    (hp : ∀ q ∈ pre ++ rest, Apart p q) : Clear existing (p :: pre) rest where
  registered := forall_mem_cons.mpr ⟨hexisting, h.registered⟩
  given := pairwise_cons.mpr ⟨fun q hq => hp q (mem_append_left _ hq), h.given⟩
  behind := forall_mem_cons.mpr ⟨fun q hq => hp q (mem_append_right _ hq), h.behind⟩

/-- Every list is clear up to the first prefix with an overlap. -/
lemma exists_clear (existing given : List Bytes) :
    Clear existing given [] ∨ ∃ pre p post, given = pre ++ p :: post ∧
      Clear existing pre (p :: post) ∧ ((∃ q ∈ existing, ¬Apart q p) ∨
        (∀ q ∈ existing, Apart q p) ∧ ∃ q ∈ post, ¬Apart p q) := by
  induction given with
  | nil => exact .inl ⟨nofun, .nil, nofun⟩
  | cons p ps ih =>
    by_cases hexisting : ∃ q ∈ existing, ¬Apart q p
    · exact .inr ⟨[], p, ps, rfl, ⟨nofun, .nil, nofun⟩, .inl hexisting⟩
    by_cases hps : ∃ q ∈ ps, ¬Apart p q
    · push Not at hexisting
      exact .inr ⟨[], p, ps, rfl, ⟨nofun, .nil, nofun⟩, .inr ⟨hexisting, hps⟩⟩
    push Not at hexisting hps
    rcases ih with hclear | ⟨pre, q, post, rfl, hclear, hstop⟩
    · exact .inl (hclear.cons hexisting (by rwa [append_nil]))
    · exact .inr ⟨p :: pre, q, post, rfl, hclear.cons hexisting hps, hstop⟩

lemma find?_apart {l : List Bytes} {f : Bytes → Bool} (hf : ∀ q, f q = true ↔ ¬Apart p q)
    (h : ∀ q ∈ l, Apart p q) : l.find? f = none :=
  find?_eq_none.mpr fun q hq hover => (hf q).mp hover (h q hq)

lemma stringCheckPrefix_iff_symm : stringCheckPrefix q p = true ↔ ¬Apart p q :=
  stringCheckPrefix_iff.trans (not_congr ⟨.symm, .symm⟩)

lemma check_clear {pre rest} (h : Clear existing pre rest) (i : Nat) :
    checkPrefixCollisionsOrReply existing i (pre ++ rest) =
      checkPrefixCollisionsOrReply existing (i + pre.length) rest := by
  induction pre generalizing i with
  | nil => rfl
  | cons p pre ih =>
    obtain ⟨hp, hregistered⟩ := forall_mem_cons.mp h.registered
    obtain ⟨hgiven, hpairs⟩ := pairwise_cons.mp h.given
    obtain ⟨hrest, hbehind⟩ := forall_mem_cons.mp h.behind
    rw [cons_append, checkPrefixCollisionsOrReply,
      find?_apart (fun _ => stringCheckPrefix_iff_symm) fun q hq => (hp q hq).symm,
      find?_apart (fun _ => stringCheckPrefix_iff) (forall_mem_append.mpr ⟨hgiven, hrest⟩)]
    dsimp only
    rw [ih ⟨hregistered, hpairs, hbehind⟩, length_cons, Nat.add_right_comm, Nat.add_assoc]

/-- A given prefix that overlaps another one: the number returned is its index. -/
lemma check_slips {pre post} (h : Clear existing pre (p :: post))
    (hp : ∀ q ∈ existing, Apart q p) (hover : ∃ q ∈ post, ¬Apart p q) :
    ∃ q, checkPrefixCollisionsOrReply existing 0 (pre ++ p :: post) =
      (pre.length, [.overlapsProvided p q]) := by
  rw [check_clear h, zero_add, checkPrefixCollisionsOrReply,
    find?_apart (fun _ => stringCheckPrefix_iff_symm) fun q hq => (hp q hq).symm]
  obtain ⟨q, hq, hno⟩ := hover
  cases hfind : post.find? (stringCheckPrefix p) with
  | none => exact absurd (stringCheckPrefix_iff.mpr hno) (find?_eq_none.mp hfind q hq)
  | some r => exact ⟨r, rfl⟩

lemma not_collides (h : Clear existing given []) : ¬Collides existing given := by
  rintro (⟨p, hp, q, hq, hno⟩ | hno)
  · exact hno (h.registered p hp q hq)
  · exact hno h.given

lemma collides_of_stop {pre post} (h : (∃ q ∈ existing, ¬Apart q p) ∨
    (∀ q ∈ existing, Apart q p) ∧ ∃ q ∈ post, ¬Apart p q) :
    Collides existing (pre ++ p :: post) := by
  rcases h with hregistered | ⟨-, q, hq, hno⟩
  · exact .inl ⟨p, mem_append_right _ mem_cons_self, hregistered⟩
  · refine .inr fun hpairs => hno ?_
    exact rel_of_pairwise_cons (pairwise_append.mp hpairs).2.1 hq

/-- The check returns 0, with one error, exactly at a collision that does not slip through. -/
lemma check_spec (existing given : List Bytes) :
    (Collides existing given ∧ ¬Slips existing given ∧
      ∃ e, e ≠ .ok ∧ checkPrefixCollisionsOrReply existing 0 given = (0, [e])) ∨
    (Slips existing given ∧ (checkPrefixCollisionsOrReply existing 0 given).1 ≠ 0) ∨
    (¬Collides existing given ∧ checkPrefixCollisionsOrReply existing 0 given = (1, [])) := by
  have hslips : Slips existing given →
      (checkPrefixCollisionsOrReply existing 0 given).1 ≠ 0 := by
    rintro ⟨pre, p, post, rfl, hne, hclear, hp, hover⟩
    obtain ⟨q, hcheck⟩ := check_slips hclear hp hover
    rw [hcheck]
    exact mt length_eq_zero_iff.mp hne
  rcases exists_clear existing given with hclear | ⟨pre, p, post, rfl, hclear, hstop⟩
  · refine .inr (.inr ⟨not_collides hclear, ?_⟩)
    rw [← append_nil given, check_clear hclear]
    rfl
  have hcollides : Collides existing (pre ++ p :: post) := collides_of_stop hstop
  rcases hstop with ⟨q, hq, hno⟩ | ⟨hp, hover⟩
  · refine .inl ?_
    cases hfind : existing.find? (stringCheckPrefix · p) with
    | none => exact absurd (stringCheckPrefix_iff.mpr hno) (find?_eq_none.mp hfind q hq)
    | some r =>
      have hcheck : checkPrefixCollisionsOrReply existing 0 (pre ++ p :: post) =
          (0, [.overlapsExisting p r]) := by
        rw [check_clear hclear, checkPrefixCollisionsOrReply, hfind]
      exact ⟨hcollides, fun h => hslips h (by rw [hcheck]), .overlapsExisting p r, nofun, hcheck⟩
  · obtain ⟨q, hcheck⟩ := check_slips hclear hp hover
    cases pre with
    | nil => exact .inl ⟨hcollides, fun h => hslips h (by rw [hcheck]; rfl),
        .overlapsProvided p q, nofun, hcheck⟩
    | cons a pre => exact .inr (.inl ⟨⟨a :: pre, p, post, rfl, nofun, hclear, hp, hover⟩,
        by rw [hcheck]; exact Nat.succ_ne_zero _⟩)

lemma Slips.collides (h : Slips existing given) : Collides existing given := by
  obtain ⟨pre, p, post, rfl, -, -, hp, hover⟩ := h
  exact collides_of_stop (.inr ⟨hp, hover⟩)

lemma register_apart (hps : ps.Pairwise Apart) (hgiven : given.Pairwise Apart)
    (h : ∀ p ∈ given, ∀ q ∈ ps, Apart q p) :
    (given.foldl enableBcastTrackingForPrefix ps).Pairwise Apart := by
  induction given generalizing ps with
  | nil => exact hps
  | cons p given ih =>
    obtain ⟨hp, h⟩ := forall_mem_cons.mp h
    obtain ⟨hpg, hgiven⟩ := pairwise_cons.mp hgiven
    rw [foldl_cons, enableBcastTrackingForPrefix]
    split
    · exact ih hps hgiven h
    have hperm := perm_orderedInsert (· ≤ ·) p ps
    refine ih ?_ hgiven fun r hr q hq => ?_
    · refine (hperm.pairwise_iff fun h => h.symm).mpr ?_
      exact pairwise_cons.mpr ⟨fun q hq => (hp q hq).symm, hps⟩
    rcases mem_cons.mp (hperm.mem_iff.mp hq) with rfl | hq
    · exact hpg r hr
    · exact h r hr q hq

/-- Without PREFIX the empty prefix is registered, which overlaps every other one. -/
lemma register_empty (h : ps.Pairwise Apart) :
    (enableBcastTrackingForPrefix ps []).Pairwise Apart ↔ ∀ q ∈ ps, q = [] := by
  have hall {l : List Bytes} (hl : l.Pairwise Apart) (hnil : [] ∈ l) : ∀ q ∈ l, q = [] := by
    intro q hq
    by_contra hne
    exact hl.forall hq hnil hne (.inr nil_prefix)
  rw [enableBcastTrackingForPrefix]
  split
  · rename_i hmem
    exact iff_of_true h (hall h (contains_iff_mem.mp hmem))
  rename_i hmem
  have hperm := perm_orderedInsert (· ≤ ·) [] ps
  rw [hperm.pairwise_iff fun h => h.symm]
  constructor
  · exact fun hcons => fun q hq => hall hcons mem_cons_self q (mem_cons_of_mem _ hq)
  · intro hempty
    have hps : ps = [] := eq_nil_iff_forall_not_mem.mpr fun q hq =>
      hmem (contains_iff_mem.mpr (hempty q hq ▸ hq))
    rw [hps]
    exact pairwise_singleton _ _

/-! ## Requests -/

/-- One error is sent, and nothing changes. -/
def Refused (options : Options) (given : List Bytes) (c : Client) : Prop :=
  ∃ e, e ≠ .ok ∧ clientTrackingOn options given c = (c, [e])

/-- BCAST in a request that is not refused for its other options. -/
structure Broadcasts (options : Options) (c : Client) : Prop where
  bcast : options.bcast = true
  optin : options.optin = false
  optout : options.optout = false
  mode : c.tracking = true → c.options.bcast = true

/-- Refused exactly if prefixes collide, and no two prefixes overlap afterwards. -/
def Handled (options : Options) (given : List Bytes) (c : Client) : Prop :=
  (Refused options given c ↔ Collides c.prefixes given) ∧
    (clientTrackingOn options given c).1.prefixes.Pairwise Apart

/-- No collision slips through, and without PREFIX no other prefix is registered. -/
def Checked (given : List Bytes) (c : Client) : Prop :=
  ¬Slips c.prefixes given ∧ (given = [] → ∀ q ∈ c.prefixes, q = [])

section
variable {options : Options}

lemma clientTrackingOn_eq (h : Broadcasts options c) : clientTrackingOn options given c =
    if (checkPrefixCollisionsOrReply c.prefixes 0 given).1 = 0 then
      (c, (checkPrefixCollisionsOrReply c.prefixes 0 given).2)
    else (enableTracking options given c,
      (checkPrefixCollisionsOrReply c.prefixes 0 given).2 ++ [.ok]) := by
  have hsame : ¬(c.tracking = true ∧ c.options.bcast ≠ true) := fun hc => hc.2 (h.mode hc.1)
  simp only [clientTrackingOn, h.bcast, h.optin, h.optout, hsame]
  simp

lemma refused_iff (h : Broadcasts options c) :
    Refused options given c ↔ Collides c.prefixes given ∧ ¬Slips c.prefixes given := by
  have haccepted (hne : (checkPrefixCollisionsOrReply c.prefixes 0 given).1 ≠ 0) :
      ¬Refused options given c := by
    rintro ⟨e, he, heq⟩
    rw [clientTrackingOn_eq h, if_neg hne, Prod.mk.injEq] at heq
    have hlast := congrArg getLast? heq.2
    rw [getLast?_concat, getLast?_singleton] at hlast
    exact he (Option.some.inj hlast).symm
  rcases check_spec c.prefixes given with ⟨hcol, hno, e, he, heq⟩ | ⟨hslips, hne⟩ | ⟨hno, heq⟩
  · exact iff_of_true ⟨e, he, by rw [clientTrackingOn_eq h, heq]; rfl⟩ ⟨hcol, hno⟩
  · exact iff_of_false (haccepted hne) fun hboth => hboth.2 hslips
  · exact iff_of_false (haccepted (by rw [heq]; exact one_ne_zero)) fun hboth => hno hboth.1

lemma prefixes_of_clear (h : Broadcasts options c) (hc : c.prefixes.Pairwise Apart)
    (hno : ¬Collides c.prefixes given) :
    (clientTrackingOn options given c).1.prefixes.Pairwise Apart ↔
      (given = [] → ∀ q ∈ c.prefixes, q = []) := by
  have hcheck := check_spec c.prefixes given
  simp only [hno, false_and, mt Slips.collides hno, false_or, not_false_eq_true, true_and] at hcheck
  rw [clientTrackingOn_eq h, hcheck, if_neg one_ne_zero]
  dsimp only [enableTracking]
  rw [if_pos h.bcast]
  split
  · rename_i hnil
    rw [foldl_cons, foldl_nil, register_empty hc, hnil]
    exact (true_imp_iff.symm.trans (imp_congr_left (iff_of_true trivial rfl)))
  · rename_i hne
    rw [Collides, not_or, not_not] at hno
    exact iff_of_true (register_apart hc hno.2 fun p hp q hq => by_contra fun h =>
      hno.1 ⟨p, hp, q, hq, h⟩) fun hnil => absurd hnil hne

lemma handled_iff (h : Broadcasts options c) (hc : c.prefixes.Pairwise Apart) :
    Handled options given c ↔ Checked given c := by
  rw [Handled, Checked, refused_iff h]
  by_cases hslips : Slips c.prefixes given
  · have hcol := hslips.collides
    simp [hslips, hcol]
  refine and_congr (by simp [hslips]) ?_
  by_cases hcol : Collides c.prefixes given
  · obtain ⟨e, -, heq⟩ := (refused_iff h).mpr ⟨hcol, hslips⟩
    rw [heq]
    refine iff_of_true hc fun hnil => ?_
    simp [hnil, Collides] at hcol
  · exact prefixes_of_clear h hc hcol

end

inductive Request where
  | on (options : Options) (given : List Bytes)
  | off

def newClient : Client := ⟨false, ⟨0, false, false, false, false⟩, []⟩

def step (c : Client) : Request → Option Client
  | .on options given => some (clientTrackingOn options given c).1
  | .off => some (disableTracking c)

def Allowed (c : Client) : Request → Prop
  | .on options given => Broadcasts options c → Checked given c
  | .off => True

lemma step_apart (c : Client) (r : Request) (t : Client) (hc : c.prefixes.Pairwise Apart)
    (hr : Allowed c r) (hs : step c r = some t) : t.prefixes.Pairwise Apart := by
  cases r with
  | off =>
    cases hs
    rw [disableTracking]
    split <;> split <;> first | exact hc | exact .nil
  | on options given =>
    cases hs
    by_cases hb : Broadcasts options c
    · exact ((handled_iff hb hc).mpr (hr hb)).2
    rw [clientTrackingOn]
    iterate 5
      split
      · exact hc
    rename_i hmode hopt _ _
    cases hbcast : options.bcast with
    | false => simpa [enableTracking, hbcast] using hc
    | true => exact absurd ⟨hbcast, by simp_all, by simp_all, by simp_all⟩ hb

/-- A BCAST request is refused, with one error and nothing changed, exactly if it would make
prefixes overlap, and leaves none that do, exactly if it meets the condition; and so after any
requests that meet it no two registered prefixes overlap. -/
theorem bcast_handled_iff (c : Client) (options : Options) (given : List Bytes)
    (requests : List Request) :
    (c.prefixes.Pairwise Apart → Broadcasts options c →
      (Handled options given c ↔ Checked given c)) ∧
    ∀ t, Runs.Along step Allowed requests newClient →
      Runs.run step requests newClient = some t → t.prefixes.Pairwise Apart :=
  ⟨fun hc h => handled_iff h hc, fun t hrequests hrun =>
    Runs.invariant_run step_apart requests newClient t .nil hrequests hrun⟩

/-- PREFIX a PREFIX b PREFIX bb: an error, then OK, and the prefixes are registered. -/
theorem bcast_overlap_accepted :
    Collides newClient.prefixes [[97], [98], [98, 98]] ∧
    clientTrackingOn ⟨0, true, false, false, false⟩ [[97], [98], [98, 98]] newClient =
      (⟨true, ⟨0, true, false, false, false⟩, [[97], [98], [98, 98]]⟩,
        [.overlapsProvided [98] [98, 98], .ok]) :=
  ⟨.inr (by decide), by decide⟩

end Redis.Tracking
