import Redis.Replication.Replicas

/-! # Every interleaving

Feeds, attachments, writes, disconnections, resizes and trims in any order. The
stream is what was fed, and `Sound` says of every state of a run what the blocks,
the backlog and each replica hold of it. -/
namespace Redis.Replication.Runs
open List Lib Buffer Pieces Replication.Stream
open Replicas

inductive Event where
  /-- `excess` is what the allocator gives beyond the size that was asked for. -/
  | feed (excess : Nat → Nat) (bytes : Bytes)
  | psync (id offset : Nat)
  | waitBgsaveStart (id : Nat)
  | bgsaveStarted (id : Nat)
  | write (id accepts : Nat)
  | disconnect (id : Nat)
  | resize (size : Nat)
  | trim (maxBlocks : Nat)

/-- `syncCommand` ignores a client that is a replica already. -/
def isSlave (s : Server) (id : Nat) : Bool := s.slaves.any (·.id = id)

def perform (s : Server) : Event → Outcome Server
  | .feed excess bytes => feedReplicationBuffer excess s bytes
  | .psync id offset =>
    if isSlave s id then .ok s else masterTryPartialResynchronization s id offset
  | .waitBgsaveStart id => .ok (if isSlave s id then s else waitBgsaveStart s id)
  | .bgsaveStarted id => .ok (bgsaveStarted s id)
  | .write id accepts => writeToReplica s id accepts
  | .disconnect id => disconnectReplica s id
  | .resize size => resizeReplicationBacklog size s
  | .trim maxBlocks => incrementalTrimReplicationBacklog maxBlocks s

def run : List Event → Server → Outcome Server
  | [], s => .ok s
  | e :: events, s => do
    let s ← perform s e
    run events s

/-- The bytes an event adds to the replication stream. -/
def fedBytes : Event → Bytes
  | .feed _ bytes => bytes
  | _ => []

def replicationStream (events : List Event) : Bytes := events.flatMap fedBytes

/-- The bytes a replica has yet to be sent: those of its block from its position
on, and all of the blocks after it. -/
def pendingBytes (s : Server) (r : Replica) : Bytes :=
  match r.refReplBufNode with
  | none => []
  | some node => (contents (suffixFrom node (pieces s.blocks))).drop r.refBlockPos

def retained (s : Server) : Bytes := s.blocks.flatMap fun b => b.data.bytes

section
variable {base : Nat} {stream : Bytes} {s : Server} {r : Replica}

lemma not_mem_of_not_isSlave {id} (h : ¬isSlave s id = true) : id ∉ s.slaves.map Replica.id := by
  intro hmem
  obtain ⟨r, hr, hid⟩ := mem_map.mp hmem
  exact h (any_eq_true.mpr ⟨r, hr, by simp [hid]⟩)

lemma resize_sound (h : Sound base stream s) (size : Nat) :
    ∃ s', resizeReplicationBacklog size s = .ok s' ∧ Sound base stream s' :=
  trim_sound _ { h.toCore with }

lemma perform_sound (h : Sound base stream s) (e : Event) :
    ∃ s', perform s e = .ok s' ∧ Sound base (stream ++ fedBytes e) s' := by
  cases e with
  | feed excess bytes => exact feedReplicationBuffer_sound excess h bytes
  | psync id offset =>
    simp only [fedBytes, append_nil, perform]
    split
    · exact ⟨s, rfl, h⟩
    rename_i hnew
    exact partialResync_sound h (not_mem_of_not_isSlave hnew) offset
  | waitBgsaveStart id =>
    simp only [fedBytes, append_nil]
    refine ⟨_, rfl, ?_⟩
    split
    · exact h
    rename_i hnew
    exact waitBgsaveStart_sound h (not_mem_of_not_isSlave hnew)
  | bgsaveStarted id =>
    simp only [fedBytes, append_nil]
    exact ⟨_, rfl, bgsaveStarted_sound h id⟩
  | write id accepts =>
    simp only [fedBytes, append_nil]
    exact writeToReplica_sound h id accepts
  | disconnect id =>
    simp only [fedBytes, append_nil]
    exact disconnectReplica_sound h id
  | resize size =>
    simp only [fedBytes, append_nil]
    exact resize_sound h size
  | trim maxBlocks =>
    simp only [fedBytes, append_nil]
    exact trim_sound maxBlocks h.toCore

lemma run_sound (events : List Event) : ∀ {stream : Bytes} {s : Server}, Sound base stream s →
      ∃ s', run events s = .ok s' ∧ Sound base (stream ++ replicationStream events) s' := by
  induction events with
  | nil =>
    intro stream s h
    exact ⟨s, rfl, by rwa [replicationStream, flatMap_nil, append_nil]⟩
  | cons e events ih =>
    intro stream s h
    obtain ⟨s1, hstep, h1⟩ := perform_sound h e
    obtain ⟨s2, hrest, h2⟩ := ih h1
    refine ⟨s2, by rw [run, hstep, Outcome.bind_ok, hrest], ?_⟩
    rwa [append_assoc] at h2

lemma createReplicationBacklog_sound (base size : Nat) :
    Sound base [] (createReplicationBacklog base size) := by
  refine ⟨⟨rfl, holds_nil base [], ?_, rfl, ?_, ?_, nodup_nil, ?_⟩, rfl⟩ <;>
    exact nofun

lemma retained_eq (s : Server) : retained s = contents (pieces s.blocks) := by
  rw [contents, pieces, flatMap_map]
  rfl

/-- What `Sound` says of one replica that is fed. -/
lemma follows_pending (h : Follows base stream (pieces s.blocks) r) (hfed : r.canFeed = true) :
    base + 1 ≤ r.attachedAt ∧ r.attachedAt ≤ base + stream.length + 1 ∧
      r.sent ++ pendingBytes s r = stream.drop (r.attachedAt - (base + 1)) := by
  unfold Follows at h
  rw [pendingBytes]
  split at h
  · rename_i node hnode
    obtain ⟨-, hlow, hhigh, t, ⟨p, rest, hs, -, ht⟩, hsent⟩ := h
    simp only [hnode, hs, ht, hsent]
    exact ⟨hlow, hhigh, trivial⟩
  rename_i hnone
  obtain ⟨hsent, hattached⟩ := h
  have hattached := hattached hfed
  refine ⟨by omega, by omega, ?_⟩
  simp only [hnone, hsent, append_nil]
  rw [drop_of_length_le (by omega)]

lemma follows_waiting {ps} (h : Follows base stream ps r)
    (hfed : r.canFeed = false) : r.refReplBufNode = none ∧ r.sent = [] := by
  unfold Follows at h
  split at h
  · rw [hfed] at h
    exact absurd h.1 Bool.false_ne_true
  rename_i hnone
  exact ⟨hnone, h.1⟩

lemma follows_mem {blocks} (h : Follows base stream (pieces blocks) r) {node}
    (hnode : r.refReplBufNode = some node) : ∃ b ∈ blocks, b.id = node := by
  simp only [Follows, hnode] at h
  obtain ⟨-, -, -, t, ⟨p, rest, hs, -⟩, -⟩ := h
  obtain ⟨b, -, -, -, -, hb, hid⟩ := fromNode_eq hs
  exact ⟨b, hb, hid⟩

end

/-- Every run goes through without a failed assertion or an access to a freed
block. After it, what a replica was sent and what it has yet to be sent are the
stream from its attach offset to `master_repl_offset`, the reference counts count
the references, all of which are to blocks that exist, only the last block has
room, and the backlog's offset and length are those of the bytes retained. -/
theorem replicas_follow_stream (base size : Nat) (events : List Event) :
    ∃ s, run events (createReplicationBacklog base size) = .ok s ∧
      s.masterReplOffset = base + (replicationStream events).length ∧
      (∀ r ∈ s.slaves, r.canFeed = true →
        base + 1 ≤ r.attachedAt ∧ r.attachedAt ≤ s.masterReplOffset + 1 ∧
        r.sent ++ pendingBytes s r = (replicationStream events).drop (r.attachedAt - (base + 1))) ∧
      (∀ r ∈ s.slaves, r.canFeed = false → r.refReplBufNode = none ∧ r.sent = []) ∧
      (∀ b ∈ s.blocks, b.refcount = references s b.id) ∧
      (∀ r ∈ s.slaves, ∀ node, r.refReplBufNode = some node → ∃ b ∈ s.blocks, b.id = node) ∧
      (∀ node, s.backlog.refReplBufNode = some node → ∃ b ∈ s.blocks, b.id = node) ∧
      (s.blocks.map ReplBufBlock.id).Nodup ∧
      (∀ b ∈ s.blocks.dropLast, b.data.used = b.data.size) ∧
      s.backlog.offset + s.backlog.histlen = s.masterReplOffset + 1 ∧
      s.backlog.histlen = (retained s).length ∧
      retained s = (replicationStream events).drop (s.backlog.offset - (base + 1)) := by
  obtain ⟨s, hrun, h⟩ := run_sound events (createReplicationBacklog_sound base size)
  rw [nil_append] at h
  refine ⟨s, hrun, h.offset, ?_, ?_, h.counted, ?_, ?_, ?_, ?_, ?_, ?_, ?_⟩
  · intro r hr hfed
    rw [h.offset]
    exact follows_pending (h.replicas r hr) hfed
  · exact fun r hr hfed => follows_waiting (h.replicas r hr) hfed
  · exact fun r hr node hnode => follows_mem (h.replicas r hr) hnode
  · intro node hnode
    rw [h.first] at hnode
    obtain ⟨b, hb, hid⟩ := Option.map_eq_some_iff.mp hnode
    exact ⟨b, mem_of_mem_head? hb, hid⟩
  · have hids := h.holds.ids.imp Nat.ne_of_lt
    rwa [pieces, map_map] at hids
  · intro b hb
    refine h.holds.chain.full (piece b) ?_
    rw [pieces, ← map_dropLast]
    exact mem_map_of_mem hb
  · have := h.holds.hist_le
    rw [h.backlogOffset, h.offset]
    omega
  · rw [retained_eq, h.holds.length]
  · rw [retained_eq, h.holds.bytes, h.backlogOffset, Nat.add_sub_cancel_left]

end Redis.Replication.Runs
