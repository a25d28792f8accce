import Redis.Replication.Runs

/-! # Partial resynchronization over the life of the backlog

The backlog is freed when there has been no replica for a while and created again for
the next one, at the offset reached by then. Whatever happened before, an offset that
PSYNC accepts is found through the sparse index. -/
namespace Redis.Replication.Psync
open List Lib Outcome Buffer Pieces Replication.Stream Replicas Runs

/-- The value of `addReplyReplicationBacklog`: the bytes announced to the replica. -/
def announcedBytes (s : Server) (offset : Nat) : Int :=
  if s.backlog.histlen = 0 then 0 else s.backlog.histlen - ((offset : Int) - s.backlog.offset)

/-- The assertions of `freeReplicationBacklog`: no replica, and the backlog holds the
last reference to its first block. -/
def freeReplicationBacklog (s : Server) : Outcome Unit := do
  check (s.slaves = [])
  match s.backlog.refReplBufNode with
  | none => .ok ()
  | some node => do
    let from_ ← fromNode node s.blocks
    check (from_.head?.map ReplBufBlock.refcount = some 1)

/-- A server, and what was fed to it since its backlog was created at `base`. -/
structure Traced where
  server : Server
  base : Nat
  fed : Bytes

def created (base size : Nat) : Traced :=
  { server := createReplicationBacklog base size, base := base, fed := [] }

inductive Step where
  | event (e : Event)
  /-- The backlog is freed and created again; without one, the offset went up by `missed`. -/
  | recreate (missed : Nat)

/-- `replicationCron` keeps the backlog as long as there are replicas. -/
def step (t : Traced) : Step → Outcome Traced
  | .event e => do
    let s ← perform t.server e
    .ok { t with server := s, fed := t.fed ++ fedBytes e }
  | .recreate missed =>
    if t.server.slaves ≠ [] then .ok t
    else do
      freeReplicationBacklog t.server
      .ok (created (t.server.masterReplOffset + missed) t.server.replBacklogSize)

def history : List Step → Traced → Outcome Traced
  | [], t => .ok t
  | e :: steps, t => do
    let t ← step t e
    history steps t

variable {base : Nat} {stream : Bytes} {s : Server}

lemma freeReplicationBacklog_ok (h : Sound base stream s) (hnone : s.slaves = []) :
    freeReplicationBacklog s = .ok () := by
  unfold freeReplicationBacklog
  rw [check_pos hnone, h.first]
  cases hblocks : s.blocks with
  | nil => rfl
  | cons b rest =>
    have hcount := h.counted b (by rw [hblocks]; exact mem_cons_self)
    rw [references, hnone, h.first, hblocks] at hcount
    simp only [head?_cons, Option.map_some, fromNode]
    exact check_pos (by simpa using hcount)

lemma step_sound {t : Traced} (h : Sound t.base t.fed t.server) (e : Step) :
    ∃ t', step t e = .ok t' ∧ Sound t'.base t'.fed t'.server := by
  cases e with
  | event e =>
    obtain ⟨s', hrun, hs⟩ := perform_sound h e
    exact ⟨{ t with server := s', fed := t.fed ++ fedBytes e }, by rw [step, hrun, bind_ok], hs⟩
  | recreate missed =>
    rw [step]
    split
    · exact ⟨t, rfl, h⟩
    rename_i hnone
    rw [freeReplicationBacklog_ok h (not_not.mp hnone)]
    exact ⟨_, rfl, createReplicationBacklog_sound ..⟩

lemma history_sound (steps : List Step) : ∀ {t : Traced}, Sound t.base t.fed t.server →
    ∃ t', history steps t = .ok t' ∧ Sound t'.base t'.fed t'.server := by
  induction steps with
  | nil => exact fun {t} h => ⟨t, rfl, h⟩
  | cons e steps ih =>
    intro t h
    obtain ⟨t1, hstep, h1⟩ := step_sound h e
    obtain ⟨t2, hrest, h2⟩ := ih h1
    exact ⟨t2, by rw [history, hstep, bind_ok, hrest], h2⟩

/-- An accepted offset makes the client a replica that was sent nothing yet. -/
lemma partialResync_attaches (h : Sound base stream s) {id offset : Nat}
    (hnew : ¬isSlave s id = true) (hlow : s.backlog.offset ≤ offset)
    (hhigh : offset ≤ s.backlog.offset + s.backlog.histlen) :
    ∃ s' r, masterTryPartialResynchronization s id offset = .ok s' ∧ Sound base stream s' ∧
      s'.slaves = s.slaves ++ [r] ∧ r.id = id ∧ r.canFeed = true ∧ r.sent = [] ∧
      r.attachedAt = offset := by
  obtain ⟨s', hrun, hsound⟩ := partialResync_sound h (not_mem_of_not_isSlave hnew) offset
  have hin : ¬(offset < s.backlog.offset ∨ s.backlog.offset + s.backlog.histlen < offset) := by
    omega
  have hrun' := hrun
  rw [masterTryPartialResynchronization, if_neg hin] at hrun'
  by_cases hzero : s.backlog.histlen = 0
  · rw [addReplyReplicationBacklog, if_pos hzero] at hrun'
    cases hrun'
    exact ⟨_, _, hrun, hsound, rfl, rfl, rfl, rfl, rfl⟩
  obtain ⟨o, -, hfound, -⟩ := addReplyReplicationBacklog_finds h hzero hlow hhigh
    ⟨id, true, none, 0, [], offset⟩
  rw [hfound] at hrun'
  cases hrun'
  exact ⟨_, _, hrun, hsound, rfl, rfl, rfl, rfl, rfl⟩

lemma announcedBytes_eq (h : Sound base stream s) {offset : Nat}
    (hlow : s.backlog.offset ≤ offset) (hhigh : offset ≤ s.backlog.offset + s.backlog.histlen) :
    announcedBytes s offset = (stream.drop (offset - (base + 1))).length ∧
      offset + announcedBytes s offset = s.masterReplOffset + 1 := by
  have hoff := h.backlogOffset
  have hhist := h.holds.hist_le
  have hend := h.offset
  rw [announcedBytes, length_drop]
  split <;> omega

/-- Every history runs without a failed assertion. After it, an offset within the
backlog is accepted: the search finds a block, what the new replica is to be sent is the
stream from that offset on, and the length announced to it is that of these bytes, which
end at `master_repl_offset`. -/
theorem psync_positions (base size : Nat) (steps : List Step) :
    ∃ t, history steps (created base size) = .ok t ∧
      ∀ id offset, ¬isSlave t.server id = true → t.server.backlog.offset ≤ offset →
        offset ≤ t.server.backlog.offset + t.server.backlog.histlen →
        ∃ s r, masterTryPartialResynchronization t.server id offset = .ok s ∧
          s.slaves = t.server.slaves ++ [r] ∧ r.id = id ∧ t.base + 1 ≤ offset ∧
          pendingBytes s r = t.fed.drop (offset - (t.base + 1)) ∧
          announcedBytes t.server offset = (pendingBytes s r).length ∧
          offset + announcedBytes t.server offset = t.server.masterReplOffset + 1 := by
  obtain ⟨t, hrun, h⟩ := history_sound steps (t := created base size)
    (createReplicationBacklog_sound base size)
  refine ⟨t, hrun, ?_⟩
  intro id offset hnew hlow hhigh
  obtain ⟨s, r, hpsync, hs, hslaves, hid, hfeed, hsent, hat⟩ :=
    partialResync_attaches h hnew hlow hhigh
  have hmem : r ∈ s.slaves := by
    rw [hslaves]
    exact mem_append_right _ mem_cons_self
  obtain ⟨hbase, -, hpending⟩ := follows_pending (hs.replicas r hmem) hfeed
  rw [hsent, nil_append, hat] at hpending
  obtain ⟨hlen, hend⟩ := announcedBytes_eq h hlow hhigh
  exact ⟨s, r, hpsync, hslaves, hid, hat ▸ hbase, hpending, hpending ▸ hlen, hend⟩

end Redis.Replication.Psync
