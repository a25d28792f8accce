import Mathlib.Data.List.TakeWhile
import Redis.Replication.Stream

/-! # Replicas come, are written to, and go

Every call on a replica moves one position in the shared buffer. What was sent
before a position and what is read from it are the stream from the offset the
replica was attached at. -/
namespace Redis.Replication.Replicas
open List
open Lib Outcome Buffer Pieces Replication.Stream

section
variable {base : Nat} {stream : Bytes} {ps : List Piece} {p : Piece} {node offset : Nat}

/-! ## Attaching -/

lemma indexSearch_le {index}
    (h : indexSearch offset index = some node) : ∃ e ∈ index, e.2 = node ∧ e.1 ≤ offset := by
  obtain ⟨e, he, rfl⟩ := Option.map_eq_some_iff.mp h
  have hmem := mem_of_getLast? he
  refine ⟨e, (takeWhile_sublist _).subset hmem, rfl, ?_⟩
  simpa using mem_takeWhile_imp hmem

variable {s : Server} {id : Nat} {r : Replica} {after before : List Replica}

lemma searchStart_spec (h : Sound base stream s)
    (hhist : s.backlog.histlen ≠ 0) (hoffset : s.backlog.offset ≤ offset) :
    ∃ before p after, pieces s.blocks = before ++ p :: after ∧ p.offset ≤ offset ∧
      searchStart s offset = .ok p.id := by
  unfold searchStart
  cases hsearch : indexSearch offset s.backlog.blocksIndex with
  | some node =>
    obtain ⟨e, he, hid, hle⟩ := indexSearch_le hsearch
    obtain ⟨p, hp, hpid, hpoff⟩ := h.index e he
    obtain ⟨before, after, hsplit⟩ := append_of_mem hp
    exact ⟨before, p, after, hsplit, by omega, by rw [hpid, hid]⟩
  | none =>
    cases hblocks : s.blocks with
    | nil =>
      have hlen := h.holds.length
      rw [hblocks] at hlen
      exact absurd hlen.symm hhist
    | cons b rest =>
      have hfirst := h.first
      have hchain := h.holds.chain
      rw [hblocks, head?_cons] at hfirst
      rw [hblocks] at hchain
      rw [hfirst]
      have hb := hchain.1
      have hoff := h.backlogOffset
      exact ⟨[], piece b, pieces rest, rfl, by omega, rfl⟩

lemma searchBlock_spec {offset : Nat} : ∀ {blocks : List ReplBufBlock} {off : Nat},
    Chain off (pieces blocks) → off ≤ offset → blocks ≠ [] →
    offset ≤ off + (contents (pieces blocks)).length →
    ∃ before o after, searchBlock offset blocks = .ok o ∧ blocks = before ++ o :: after ∧
      o.replOffset ≤ offset ∧ offset ≤ o.replOffset + o.data.used
  | [], _, _, _, hne, _ => absurd rfl hne
  | o :: rest, off, hchain, hle, _, hend => by
    rw [pieces_cons] at hchain hend
    have ho : o.replOffset = off := hchain.1
    rw [searchBlock]
    split
    · rename_i hin
      exact ⟨[], o, rest, rfl, rfl, by omega, hin⟩
    rw [contents_cons, length_append] at hend
    have hused : o.data.used = (piece o).data.bytes.length := rfl
    have htail : Chain (off + o.data.used) (pieces rest) := hchain.tail
    by_cases hnil : rest = []
    · rw [hnil, pieces_nil, contents_nil, length_nil] at hend
      omega
    obtain ⟨before, o', after, hrun, hsplit, h1, h2⟩ :=
      @searchBlock_spec offset rest (off + o.data.used) htail (by omega) hnil (by omega)
    exact ⟨o :: before, o', after, hrun, by rw [hsplit]; rfl, h1, h2⟩

lemma fromNode_split {blocks from_}
    (h : fromNode id blocks = .ok from_) : ∃ before, blocks = before ++ from_ := by
  induction blocks with
  | nil => cases h
  | cons b rest ih =>
    rw [fromNode] at h
    split at h
    · cases h
      exact ⟨[], rfl⟩
    obtain ⟨before, hb⟩ := ih h
    exact ⟨b :: before, by rw [hb]; rfl⟩

lemma addReplyReplicationBacklog_finds (h : Sound base stream s)
    (hhist : s.backlog.histlen ≠ 0) (hlow : s.backlog.offset ≤ offset)
    (hhigh : offset ≤ s.backlog.offset + s.backlog.histlen) (r : Replica) :
    ∃ o ∈ s.blocks, addReplyReplicationBacklog s r offset =
        .ok ({ s with blocks := setRefcount o.id (· + 1) s.blocks },
          { r with refReplBufNode := some o.id, refBlockPos := offset - o.replOffset }) ∧
      Reads (pieces s.blocks) o.id (offset - o.replOffset) (stream.drop (offset - (base + 1))) := by
  obtain ⟨before, p, after, hsplit, hle, hstart⟩ := searchStart_spec h hhist hlow
  have hfound := suffixFrom_of_split (hsplit ▸ h.holds.ids)
  rw [← hsplit] at hfound
  obtain ⟨b, rest, hfrom, hb, hrest, -, -⟩ := fromNode_eq hfound
  obtain ⟨front, hfront⟩ := fromNode_split hfrom
  obtain ⟨hpoff, hpchain⟩ := (hsplit ▸ h.holds.chain).offset_of_split
  have hchain : Chain p.offset (pieces (b :: rest)) := by
    rw [pieces_cons, hb, hrest]
    exact hpchain
  have hlen := h.holds.length
  rw [hsplit, contents_append, length_append] at hlen
  have hoff := h.backlogOffset
  have hend : offset ≤ p.offset + (contents (pieces (b :: rest))).length := by
    rw [pieces_cons, hb, hrest]
    omega
  obtain ⟨front', o, after', hsearch, hsplit', h1, h2⟩ :=
    searchBlock_spec hchain hle (cons_ne_nil _ _) hend
  have hall : s.blocks = (front ++ front') ++ o :: after' := by
    rw [hfront, hsplit', append_assoc]
  refine ⟨o, by rw [hall]; simp, ?_, ?_⟩
  · unfold addReplyReplicationBacklog
    rw [if_neg hhist]
    simp only [hstart, bind_ok, hfrom, hsearch]
  have hholds := h.holds
  rw [hall, pieces_append] at hholds ⊢
  exact hholds.reads_offset (p := piece o) h1 h2

lemma nodup_snoc {slaves} (h : (slaves.map Replica.id).Nodup)
    (hr : r.id ∉ slaves.map Replica.id) : ((slaves ++ [r]).map Replica.id).Nodup := by
  rw [map_append, nodup_append]
  refine ⟨h, by simp, fun a ha b hb => ?_⟩
  rw [map_singleton, mem_singleton] at hb
  rw [hb]
  rintro rfl
  exact hr ha

lemma partialResync_sound (h : Sound base stream s)
    (hid : id ∉ s.slaves.map Replica.id) (offset : Nat) :
    ∃ s', masterTryPartialResynchronization s id offset = .ok s' ∧ Sound base stream s' := by
  unfold masterTryPartialResynchronization
  split
  · exact ⟨s, rfl, h⟩
  rename_i hin
  rw [not_or, Nat.not_lt, Nat.not_lt] at hin
  obtain ⟨hlow, hhigh⟩ := hin
  have hoff := h.backlogOffset
  have hhist := h.holds.hist_le
  by_cases hzero : s.backlog.histlen = 0
  · -- nothing is retained, so the replica waits for the next byte
    have hnext : offset = base + stream.length + 1 := by omega
    simp only [addReplyReplicationBacklog, if_pos hzero]
    refine ⟨_, rfl, { h with counted := ?_, unique := nodup_snoc h.unique hid, replicas := ?_ }⟩
    · intro b hb
      rw [h.counted b hb, references, references]
      simp
    exact forall_mem_append.mpr ⟨h.replicas, forall_mem_singleton.mpr ⟨rfl, fun _ => hnext⟩⟩
  obtain ⟨r, hr⟩ : ∃ r : Replica, r = ⟨id, true, none, 0, [], offset⟩ := ⟨_, rfl⟩
  obtain ⟨o, ho, hrun, hreads⟩ := addReplyReplicationBacklog_finds h hzero hlow hhigh r
  rw [← hr, hrun, hr]
  refine ⟨_, rfl, ⟨h.toCore.recount (pieces_setRefcount ..) ?_ (nodup_snoc h.unique hid) ?_,
    h.backlogOffset⟩⟩
  · intro b hb
    rw [refcount_setRefcount h.counted hb]
    simp only [references, countP_append, countP_singleton, decide_eq_true_eq, Option.some.injEq]
    by_cases heq : b.id = o.id
    · rw [if_pos heq, if_pos heq.symm]
      omega
    · rw [if_neg heq, if_neg (Ne.symm heq), add_zero]
  intro r' hr'
  rcases mem_append.mp hr' with hr' | hr'
  · exact h.replicas r' hr'
  rw [mem_singleton.mp hr']
  refine ⟨rfl, ?_, ?_, _, hreads, rfl⟩
  · show base + 1 ≤ offset
    omega
  show offset ≤ base + stream.length + 1
  omega

lemma waitBgsaveStart_sound (h : Sound base stream s)
    (hid : id ∉ s.slaves.map Replica.id) : Sound base stream (waitBgsaveStart s id) := by
  refine { h with counted := ?_, unique := nodup_snoc h.unique hid, replicas := ?_ }
  · intro b hb
    rw [h.counted b hb, references, references, waitBgsaveStart]
    simp
  exact forall_mem_append.mpr ⟨h.replicas,
    forall_mem_singleton.mpr ⟨rfl, Bool.noConfusion⟩⟩

lemma bgsaveStarted_sound (h : Sound base stream s) (id : Nat) :
    Sound base stream (bgsaveStarted s id) := by
  have hcount : ∀ x, (bgsaveStarted s id).slaves.countP (fun r => r.refReplBufNode = some x) =
      s.slaves.countP (fun r => r.refReplBufNode = some x) := by
    intro x
    rw [bgsaveStarted, countP_map]
    refine countP_congr fun r _ => ?_
    simp only [Function.comp_apply]
    split <;> rfl
  refine { h with counted := ?_, unique := ?_, replicas := ?_ }
  · intro b hb
    rw [h.counted b hb, references, references, hcount]
    rfl
  · have hmap : (bgsaveStarted s id).slaves.map Replica.id = s.slaves.map Replica.id := by
      rw [bgsaveStarted, map_map]
      refine map_congr_left fun r _ => ?_
      simp only [Function.comp_apply]
      split <;> rfl
    rw [hmap]
    exact h.unique
  intro r hr
  obtain ⟨r0, hr0, rfl⟩ := mem_map.mp hr
  have hf := h.replicas r0 hr0
  split
  · rename_i hwait
    unfold Follows at hf ⊢
    split
    · rename_i node hnode
      rw [hnode] at hf
      exact absurd (hf.1.symm.trans hwait.2) (by decide)
    rename_i hnode
    rw [hnode] at hf
    exact ⟨hf.1, fun _ => by rw [h.offset]⟩
  · exact hf

/-! ## Writing -/

lemma find_split {slaves}
    (h : slaves.find? (·.id = id) = some r) (hunique : (slaves.map Replica.id).Nodup) :
    r.id = id ∧ ∃ before after, slaves = before ++ r :: after ∧
      (∀ r', updateReplica id r' slaves = before ++ r' :: after) ∧
      slaves.filter (·.id ≠ id) = before ++ after := by
  have hid : r.id = id := by simpa using find?_some h
  obtain ⟨before, after, hsplit⟩ := append_of_mem (mem_of_find?_eq_some h)
  refine ⟨hid, before, after, hsplit, ?_⟩
  rw [hsplit, map_append, map_cons, nodup_append, nodup_cons] at hunique
  have hbefore : ∀ x ∈ before, x.id ≠ id := fun x hx heq =>
    hunique.2.2 x.id (mem_map.mpr ⟨x, hx, rfl⟩) r.id mem_cons_self (heq.trans hid.symm)
  have hafter : ∀ x ∈ after, x.id ≠ id := fun x hx heq =>
    hunique.2.1.1 (mem_map.mpr ⟨x, hx, heq.trans hid.symm⟩)
  have hkeep : ∀ (r' : Replica) (xs : List Replica), (∀ x ∈ xs, x.id ≠ id) →
      xs.map (fun x => if x.id = id then r' else x) = xs := fun r' xs hxs =>
    (map_congr_left fun x hx => if_neg (hxs x hx)).trans (map_id' xs)
  constructor
  · intro r'
    rw [updateReplica, hsplit, map_append, map_cons, if_pos hid, hkeep r' before hbefore,
      hkeep r' after hafter]
  have hall : ∀ xs : List Replica, (∀ x ∈ xs, x.id ≠ id) → xs.filter (·.id ≠ id) = xs :=
    fun xs hxs => filter_eq_self.mpr fun x hx => by simpa using hxs x hx
  rw [hsplit, filter_append, filter_cons, if_neg (by simpa using hid),
    hall before hbefore, hall after hafter]

section
variable (h : Core base stream s) (hsplit : s.slaves = before ++ r :: after) {r' : Replica}
include h hsplit

lemma core_replaced (hid : r'.id = r.id) (hfollows : Follows base stream (pieces s.blocks) r') :
    ((before ++ r' :: after).map Replica.id).Nodup ∧
      ∀ x ∈ before ++ r' :: after, Follows base stream (pieces s.blocks) x := by
  have hunique := h.unique
  have hall := h.replicas
  rw [hsplit] at hunique hall
  obtain ⟨hbefore, hafter⟩ := forall_mem_append.mp hall
  refine ⟨by simpa [hid] using hunique, ?_⟩
  exact forall_mem_append.mpr ⟨hbefore, forall_mem_cons.mpr ⟨hfollows, (forall_mem_cons.mp hafter).2⟩⟩

lemma core_replace (hid : r'.id = r.id) (href : r'.refReplBufNode = r.refReplBufNode)
    (hfollows : Follows base stream (pieces s.blocks) r') :
    Core base stream { s with slaves := before ++ r' :: after } := by
  obtain ⟨hunique, hreplicas⟩ := core_replaced h hsplit hid hfollows
  refine h.recount rfl ?_ hunique hreplicas
  intro b hb
  rw [h.counted b hb, references, references, hsplit]
  simp only [countP_append, countP_cons, href]

lemma core_move {o next} (hid : r'.id = r.id)
    (hold : r.refReplBufNode = some o) (hnew : r'.refReplBufNode = some next) (hne : o ≠ next)
    (hfollows : Follows base stream (pieces s.blocks) r') :
    Core base stream { s with
      slaves := before ++ r' :: after
      blocks := setRefcount next (· + 1) (setRefcount o (· - 1) s.blocks) } := by
  obtain ⟨hunique, hreplicas⟩ := core_replaced h hsplit hid hfollows
  refine h.recount (by simp) ?_ hunique hreplicas
  intro b hb
  have hcount : ∀ b ∈ setRefcount o (· - 1) s.blocks, b.refcount =
      if b.id = o then references s b.id - 1 else references s b.id := fun b hb =>
    refcount_setRefcount h.counted hb
  have hc := @refcount_setRefcount next (· + 1)
    (fun x => if x = o then references s x - 1 else references s x) _ hcount b hb
  rw [hc]
  simp only [references, hsplit, countP_append, countP_cons, hold, hnew,
    decide_eq_true_eq, Option.some.injEq]
  by_cases ho : b.id = o
  · rw [ho]
    simp only [if_neg hne, if_neg (Ne.symm hne), if_true]
    omega
  by_cases hn : b.id = next
  · rw [hn]
    simp only [if_neg hne, if_neg (Ne.symm hne), if_true]
    omega
  · simp only [if_neg ho, if_neg hn, if_neg (Ne.symm ho), if_neg (Ne.symm hn)]

lemma core_remove (hold : r.refReplBufNode = some node) :
    Core base stream { s with
      slaves := before ++ after
      blocks := setRefcount node (· - 1) s.blocks } := by
  refine h.recount (by simp) ?_ ?_ ?_
  · intro b hb
    rw [refcount_setRefcount h.counted hb]
    simp only [references, hsplit, countP_append, countP_cons, hold,
      decide_eq_true_eq, Option.some.injEq]
    by_cases ho : b.id = node
    · rw [ho]
      simp only [if_true]
      omega
    simp only [if_neg ho, if_neg (Ne.symm ho)]
    omega
  · have := h.unique
    rw [hsplit, map_append] at this
    rw [map_append]
    exact ((List.Sublist.refl _).append (sublist_cons_self _ _)).nodup this
  · have hall := h.replicas
    rw [hsplit] at hall
    obtain ⟨hbefore, hafter⟩ := forall_mem_append.mp hall
    exact forall_mem_append.mpr ⟨hbefore, (forall_mem_cons.mp hafter).2⟩

end

lemma follows_sent {rest} (accepts : Nat) (h : Follows base stream ps r) (hnode : r.refReplBufNode = some node)
    (hs : suffixFrom node ps = p :: rest) :
    r.refBlockPos ≤ p.data.used ∧
      Follows base stream ps { r with
        refBlockPos := r.refBlockPos + ((p.data.bytes.drop r.refBlockPos).take accepts).length
        sent := r.sent ++ (p.data.bytes.drop r.refBlockPos).take accepts } := by
  simp only [Follows, hnode] at h ⊢
  obtain ⟨h0, h1, h2, t, ⟨p', rest', hs', hpos, ht⟩, hsent⟩ := h
  rw [hs] at hs'
  cases hs'
  refine ⟨hpos, h0, h1, h2, ?_⟩
  generalize hsentEq : (p.data.bytes.drop r.refBlockPos).take accepts = sent
  have hlen : sent.length ≤ p.data.bytes.length - r.refBlockPos := by
    rw [← hsentEq, length_take, length_drop]
    omega
  have hused : p.data.used = p.data.bytes.length := rfl
  refine ⟨t.drop sent.length, ⟨p, rest, hs, by omega, ?_⟩, ?_⟩
  · rw [← ht, drop_drop]
  rw [← hsent, append_assoc]
  congr 1
  have hstart : t = sent ++ t.drop sent.length := by
    have htake : sent = t.take sent.length := by
      rw [← ht, contents_cons, drop_append_of_le_length hpos,
        take_append_of_le_length (by rw [length_drop]; exact hlen), ← hsentEq,
        length_take, ← take_eq_take_min]
    conv_rhs => rw [htake]
    rw [length_take]
    have hle : sent.length ≤ t.length := by
      rw [← ht, contents_cons, length_drop, length_append]
      omega
    rw [Nat.min_eq_left hle, take_append_drop]
  exact hstart.symm

lemma follows_next {next rest} (hids : (ps.map Piece.id).Pairwise (· < ·))
    (h : Follows base stream ps r) (hnode : r.refReplBufNode = some node)
    (hs : suffixFrom node ps = p :: next :: rest) (hend : r.refBlockPos = p.data.used) :
    node ≠ next.id ∧
      Follows base stream ps { r with refReplBufNode := some next.id, refBlockPos := 0 } := by
  simp only [Follows, hnode] at h ⊢
  obtain ⟨h0, h1, h2, t, ⟨p', rest', hs', hpos, ht⟩, hsent⟩ := h
  rw [hs] at hs'
  cases hs'
  obtain ⟨before, hsplit, hpid⟩ := suffixFrom_split hs
  have hnext : suffixFrom next.id ps = next :: rest := by
    rw [hsplit, show before ++ p :: next :: rest = (before ++ [p]) ++ next :: rest by simp] at hids ⊢
    exact suffixFrom_of_split hids
  have hlt : p.id < next.id := by
    rw [hsplit, map_append, pairwise_append] at hids
    exact (pairwise_cons.mp hids.2.1).1 _ mem_cons_self
  refine ⟨by omega, h0, h1, h2, t, ⟨next, rest, hnext, Nat.zero_le _, ?_⟩, hsent⟩
  rw [← ht, hend]
  exact drop_left.symm

lemma writeToReplica_sound (h : Sound base stream s) (id accepts : Nat) :
    ∃ s', writeToReplica s id accepts = .ok s' ∧ Sound base stream s' := by
  unfold writeToReplica
  split
  · exact ⟨s, rfl, h⟩
  rename_i r hfind
  obtain ⟨hid, before, after, hsplit, hupdate, -⟩ := find_split hfind h.unique
  have hf := h.replicas r (by rw [hsplit]; simp)
  split
  · exact ⟨s, rfl, h⟩
  rename_i node hnode
  split
  · exact ⟨s, rfl, h⟩
  obtain ⟨p, rest, hs⟩ : ∃ p rest, suffixFrom node (pieces s.blocks) = p :: rest := by
    have hf' := hf
    simp only [Follows, hnode] at hf'
    obtain ⟨-, -, -, t, ⟨p, rest, hs, -⟩, -⟩ := hf'
    exact ⟨p, rest, hs⟩
  obtain ⟨o, blocks, hfrom, rfl, rfl, -, hoid⟩ := fromNode_eq hs
  obtain ⟨hpos, hsent⟩ := follows_sent accepts hf hnode hs
  have hpos : r.refBlockPos ≤ o.data.used := hpos
  simp only [hfrom, bind_ok, check_pos hpos, hupdate]
  -- the replica after the write, its reference still on the same block
  obtain ⟨r', hr'⟩ : ∃ r', r' = Replica.mk r.id r.canFeed r.refReplBufNode
      (r.refBlockPos + ((o.data.bytes.drop r.refBlockPos).take accepts).length)
      (r.sent ++ (o.data.bytes.drop r.refBlockPos).take accepts) r.attachedAt := ⟨_, rfl⟩
  have hid' : r'.id = r.id := by rw [hr']
  have href : r'.refReplBufNode = r.refReplBufNode := by rw [hr']
  have hsent : Follows base stream (pieces s.blocks) r' := by rw [hr']; exact hsent
  rw [← hr']
  split
  · exact ⟨s, rfl, h⟩
  have hadvance := core_replace h.toCore hsplit hid' href hsent
  split
  · exact ⟨_, rfl, hadvance, h.backlogOffset⟩
  rename_i next blocks
  split
  · rename_i hend
    -- the whole block is sent: the reference moves to the next one
    have hnode' : r'.refReplBufNode = some node := href.trans hnode
    have hold : r.refReplBufNode = some o.id := by rw [hnode, hoid]
    obtain ⟨hne, hnext⟩ := follows_next h.holds.ids hsent hnode' hs (by rw [hr']; exact hend)
    obtain ⟨r2, hr2⟩ : ∃ r2, r2 = Replica.mk r.id r.canFeed (some next.id) 0
        (r.sent ++ (o.data.bytes.drop r.refBlockPos).take accepts) r.attachedAt :=
      ⟨_, rfl⟩
    have hnext : Follows base stream (pieces s.blocks) r2 := by
      rw [hr'] at hnext
      rw [hr2]
      exact hnext
    rw [← hr2]
    exact trim_sound _ (core_move h.toCore hsplit (by rw [hr2]) hold (by rw [hr2])
      (hoid ▸ hne) hnext)
  · exact ⟨_, rfl, hadvance, h.backlogOffset⟩

lemma core_drop (h : Core base stream s)
    (hsplit : s.slaves = before ++ r :: after) (hold : r.refReplBufNode = none) :
    Core base stream { s with slaves := before ++ after } := by
  refine { h with counted := ?_, unique := ?_, replicas := ?_ }
  · intro b hb
    rw [h.counted b hb, references, references, hsplit]
    simp [hold]
  · have hunique := h.unique
    rw [hsplit] at hunique
    exact hunique.sublist ((sublist_cons_self r after).append_left before |>.map _)
  intro x hx
  refine h.replicas x ?_
  rw [hsplit]
  rcases mem_append.mp hx with hx | hx
  · exact mem_append_left _ hx
  · exact mem_append_right _ (mem_cons_of_mem _ hx)

lemma disconnectReplica_sound (h : Sound base stream s) (id : Nat) :
    ∃ s', disconnectReplica s id = .ok s' ∧ Sound base stream s' := by
  unfold disconnectReplica
  split
  · exact ⟨s, rfl, h⟩
  rename_i r hfind
  obtain ⟨hid, before, after, hsplit, -, hfilter⟩ := find_split hfind h.unique
  have hmem : r ∈ s.slaves := by rw [hsplit]; simp
  have hf := h.replicas r hmem
  simp only [hfilter]
  split
  · rename_i hnone
    exact ⟨_, rfl, core_drop h.toCore hsplit hnone, h.backlogOffset⟩
  rename_i node hnode
  simp only [Follows, hnode] at hf
  obtain ⟨-, -, -, t, ⟨p, rest, hs, -⟩, -⟩ := hf
  obtain ⟨o, blocks, hfrom, -, -, ho, hoid⟩ := fromNode_eq hs
  have hpos : 0 < o.refcount := by
    rw [h.counted o ho, references]
    have : 0 < s.slaves.countP (·.refReplBufNode = some o.id) :=
      countP_pos_iff.mpr ⟨r, hmem, by simp [hnode, hoid]⟩
    omega
  rw [hfrom, bind_ok, check_pos (by exact hpos)]
  exact trim_sound _ (core_remove h.toCore hsplit hnode)

end

end Redis.Replication.Replicas
