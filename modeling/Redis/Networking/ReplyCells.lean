import Redis.Networking.Replies

/-! # The output of a client as a sequence of cells

The output is bytes, and holes for the lengths that are not known yet. `pending`
reads that sequence off the static buffer, the list and `sentlen`; `Sound` is
what holds of the three between calls. -/
namespace Redis.Networking.ReplyCells
open List Lib Replies

/-! ## Cells -/

inductive Cell where
  | byte (b : UInt8)
  | hole (addr : Nat)
deriving DecidableEq, Repr

def Cell.isHole : Cell → Bool
  | .byte _ => false
  | .hole _ => true

def bytes (s : Bytes) : List Cell := s.map .byte

def nodeCells (node : ListNode) : List Cell :=
  match node.value with
  | none => [.hole node.addr]
  | some b => bytes b.bytes

def cells (nodes : List ListNode) : List Cell := nodes.flatMap nodeCells

/-- What the client still has to send. -/
def pending (c : Client) : List Cell := (bytes c.buf.bytes ++ cells c.reply).drop c.sentlen

def nodeSize (node : ListNode) : Nat :=
  match node.value with
  | none => 0
  | some b => b.size

def sizes (nodes : List ListNode) : Nat := (nodes.map nodeSize).sum

def fillHole (addr : Nat) (s : Bytes) (stream : List Cell) : List Cell :=
  stream.flatMap fun x => if x = .hole addr then bytes s else [x]

@[simp] lemma bytes_nil : bytes [] = [] := rfl

@[simp] lemma bytes_append (s t : Bytes) : bytes (s ++ t) = bytes s ++ bytes t := map_append

@[simp] lemma length_bytes (s : Bytes) : (bytes s).length = s.length := length_map ..

lemma hole_not_mem_bytes (a : Nat) (s : Bytes) : Cell.hole a ∉ bytes s := by
  intro h
  obtain ⟨b, -, hb⟩ := mem_map.mp h
  cases hb

lemma bytes_take_drop (s : Bytes) (n : Nat) : bytes (s.take n) ++ bytes (s.drop n) = bytes s := by
  rw [← bytes_append, take_append_drop]

@[simp] lemma cells_nil : cells [] = [] := rfl

@[simp] lemma cells_cons (node : ListNode) (nodes : List ListNode) :
    cells (node :: nodes) = nodeCells node ++ cells nodes := flatMap_cons

@[simp] lemma cells_append (xs ys : List ListNode) : cells (xs ++ ys) = cells xs ++ cells ys :=
  flatMap_append

@[simp] lemma nodeCells_some (a : Nat) (b : Buffer) : nodeCells ⟨a, some b⟩ = bytes b.bytes := rfl

@[simp] lemma nodeCells_none (a : Nat) : nodeCells ⟨a, none⟩ = [.hole a] := rfl

@[simp] lemma sizes_nil : sizes [] = 0 := rfl

@[simp] lemma sizes_cons (node : ListNode) (nodes : List ListNode) :
    sizes (node :: nodes) = nodeSize node + sizes nodes := sum_cons

@[simp] lemma sizes_append (xs ys : List ListNode) : sizes (xs ++ ys) = sizes xs + sizes ys := by
  simp [sizes]

@[simp] lemma nodeSize_some (a : Nat) (b : Buffer) : nodeSize ⟨a, some b⟩ = b.size := rfl

@[simp] lemma nodeSize_none (a : Nat) : nodeSize ⟨a, none⟩ = 0 := rfl

lemma fillHole_append (a : Nat) (s : Bytes) (xs ys : List Cell) :
    fillHole a s (xs ++ ys) = fillHole a s xs ++ fillHole a s ys := flatMap_append

variable {xs : List Cell} {a : Nat} {nodes : List ListNode} {c c' : Client}

lemma fillHole_of_not_mem {s} (h : Cell.hole a ∉ xs) : fillHole a s xs = xs := by
  induction xs with
  | nil => rfl
  | cons x xs ih =>
    rw [mem_cons, not_or] at h
    have hx : fillHole a s (x :: xs) = (if x = .hole a then bytes s else [x]) ++ fillHole a s xs :=
      flatMap_cons
    rw [hx, if_neg (Ne.symm h.1), ih h.2]
    rfl

lemma fillHole_hole (a : Nat) (s : Bytes) : fillHole a s [.hole a] = bytes s := by
  simp [fillHole]

lemma hole_mem_cells (h : Cell.hole a ∈ cells nodes) : (⟨a, none⟩ : ListNode) ∈ nodes := by
  obtain ⟨⟨b, v⟩, hn, hc⟩ := mem_flatMap.mp h
  cases v with
  | none =>
    rw [nodeCells_none, mem_singleton] at hc
    cases hc
    exact hn
  | some blk => exact absurd hc (hole_not_mem_bytes _ _)

lemma not_hole_mem_cells (h : a ∉ nodes.map ListNode.addr) : Cell.hole a ∉ cells nodes := fun hc =>
  h (mem_map.mpr ⟨_, hole_mem_cells hc, rfl⟩)

/-! ## What holds between calls -/

def firstUsed : List ListNode → Nat
  | ⟨_, some b⟩ :: _ => b.used
  | _ => 0

/-- The bytes `sentlen` counts in: those of the static buffer while it holds any,
those of the first node after that. -/
def firstLen (c : Client) : Nat := if 0 < c.buf.used then c.buf.used else firstUsed c.reply

structure Sound (c : Client) : Prop where
  nodup : (c.reply.map ListNode.addr).Nodup
  below : ∀ a ∈ c.reply.map ListNode.addr, a < c.fresh
  total : c.replyBytes = sizes c.reply
  sent : c.sentlen = 0 ∨ c.sentlen < firstLen c

lemma sound_createClient (flags : ClientFlags) (conn : Bool) (usable : Nat) :
    Sound (createClient flags conn usable) :=
  ⟨nodup_nil, nofun, rfl, Or.inl rfl⟩

lemma bytes_firstUsed (nodes : List ListNode) :
    ∃ s rest, cells nodes = bytes s ++ rest ∧ s.length = firstUsed nodes := by
  match nodes with
  | [] => exact ⟨[], [], rfl, rfl⟩
  | ⟨_, none⟩ :: rest => exact ⟨[], _, rfl, rfl⟩
  | ⟨_, some b⟩ :: rest => exact ⟨b.bytes, cells rest, rfl, rfl⟩

lemma Sound.split (h : Sound c) :
    ∃ s rest, bytes c.buf.bytes ++ cells c.reply = bytes s ++ rest ∧ s.length = c.sentlen ∧
      pending c = rest := by
  obtain ⟨s, rest, hs, hlen⟩ : ∃ s rest, bytes c.buf.bytes ++ cells c.reply = bytes s ++ rest ∧
      c.sentlen ≤ s.length := by
    rcases h.sent with h0 | hlt
    · exact ⟨[], _, rfl, by rw [h0]; exact Nat.zero_le _⟩
    unfold firstLen at hlt
    split at hlt
    · exact ⟨c.buf.bytes, _, rfl, hlt.le⟩
    rename_i hbuf
    have hnil : c.buf.bytes = [] := eq_nil_of_length_eq_zero (by unfold Buffer.used at hbuf; omega)
    obtain ⟨s, rest, hs, hl⟩ := bytes_firstUsed c.reply
    exact ⟨s, rest, by rw [hnil, hs]; rfl, by omega⟩
  refine ⟨s.take c.sentlen, bytes (s.drop c.sentlen) ++ rest, ?_, ?_, ?_⟩
  · rw [hs, ← append_assoc, bytes_take_drop]
  · rw [length_take, Nat.min_eq_left hlen]
  rw [pending, hs, drop_append_of_le_length (by rw [length_bytes]; exact hlen)]
  simp [bytes]

lemma pending_append (h : Sound c)
    (hcells : bytes c'.buf.bytes ++ cells c'.reply = bytes c.buf.bytes ++ cells c.reply ++ xs)
    (hsent : c'.sentlen = c.sentlen) : pending c' = pending c ++ xs := by
  obtain ⟨s, rest, hs, hlen, hp⟩ := h.split
  rw [hp, pending, hcells, hs, hsent, ← hlen, append_assoc, drop_left' (length_bytes s)]

/-- Nothing but the flags differs. -/
structure SameOutput (c c' : Client) : Prop where
  buf : c'.buf = c.buf
  sentlen : c'.sentlen = c.sentlen
  reply : c'.reply = c.reply
  replyBytes : c'.replyBytes = c.replyBytes
  fresh : c'.fresh = c.fresh

lemma SameOutput.sound (h : SameOutput c c') (hs : Sound c) : Sound c' := by
  refine ⟨?_, ?_, ?_, ?_⟩
  · rw [h.reply]; exact hs.nodup
  · rw [h.reply, h.fresh]; exact hs.below
  · rw [h.reply, h.replyBytes]; exact hs.total
  unfold firstLen
  rw [h.reply, h.sentlen, h.buf]; exact hs.sent

lemma SameOutput.pending (h : SameOutput c c') : pending c' = pending c := by
  unfold ReplyCells.pending
  rw [h.buf, h.sentlen, h.reply]

lemma SameOutput.transfer (h : SameOutput c c')
    (hc : Sound c ∧ ReplyCells.pending c = xs) : Sound c' ∧ ReplyCells.pending c' = xs :=
  ⟨h.sound hc.1, h.pending.trans hc.2⟩

lemma firstUsed_append (nodes rest : List ListNode) (h : nodes ≠ []) :
    firstUsed (nodes ++ rest) = firstUsed nodes := by
  match nodes, h with
  | ⟨_, none⟩ :: _, _ => rfl
  | ⟨_, some b⟩ :: _, _ => rfl

lemma firstUsed_le_append (nodes rest : List ListNode) :
    firstUsed nodes ≤ firstUsed (nodes ++ rest) := by
  by_cases h : nodes = []
  · rw [h]
    exact Nat.zero_le _
  · exact Nat.le_of_eq (firstUsed_append nodes rest h).symm

/-- The list may grow at the end, or in its nodes, and nothing else need be
looked at. -/
lemma Sound.of_list (h : Sound c) (hbuf : c'.buf = c.buf)
    (hsent : c'.sentlen = c.sentlen) (hnodup : (c'.reply.map ListNode.addr).Nodup)
    (hbelow : ∀ a ∈ c'.reply.map ListNode.addr, a < c'.fresh)
    (htotal : c'.replyBytes = sizes c'.reply)
    (hfirst : c.sentlen ≠ 0 → c.buf.used = 0 → firstUsed c.reply ≤ firstUsed c'.reply) :
    Sound c' := by
  refine ⟨hnodup, hbelow, htotal, ?_⟩
  rw [hsent]
  rcases h.sent with h0 | hlt
  · exact .inl h0
  by_cases h0 : c.sentlen = 0
  · exact .inl h0
  right
  unfold firstLen at hlt ⊢
  rw [hbuf]
  split at hlt
  · rename_i hpos
    rw [if_pos hpos]
    exact hlt
  rename_i hpos
  rw [if_neg hpos]
  exact hlt.trans_le (hfirst h0 (by omega))

lemma nodup_append_fresh (h : Sound c)
    (haddrs : nodes.map ListNode.addr = c.reply.map ListNode.addr) (v : Option Buffer) :
    ((nodes ++ [ListNode.mk c.fresh v]).map ListNode.addr).Nodup ∧
      ∀ a ∈ (nodes ++ [ListNode.mk c.fresh v]).map ListNode.addr, a < c.fresh + 1 := by
  rw [map_append, haddrs]
  constructor
  · refine nodup_append.mpr ⟨h.nodup, by simp, ?_⟩
    intro a ha b hb hab
    have hlt := h.below a ha
    rw [mem_singleton.mp hb] at hab
    exact Nat.ne_of_lt hlt hab
  exact forall_mem_append.mpr ⟨fun a ha => Nat.lt_succ_of_lt (h.below a ha),
    forall_mem_singleton.mpr (Nat.lt_succ_self _)⟩

/-! ## Lists without placeholders -/

def Filled (nodes : List ListNode) : Prop := ∀ node ∈ nodes, node.value ≠ none

/-- The bytes of a list without placeholders. -/
def contents : List ListNode → Bytes
  | [] => []
  | ⟨_, none⟩ :: rest => contents rest
  | ⟨_, some b⟩ :: rest => b.bytes ++ contents rest

lemma Filled.cons {node : ListNode} {rest : List ListNode} (h : Filled (node :: rest)) :
    (∃ a b, node = ⟨a, some b⟩) ∧ Filled rest := by
  refine ⟨?_, (forall_mem_cons.mp h).2⟩
  obtain ⟨a, v⟩ := node
  cases v with
  | none => exact absurd rfl (h ⟨a, none⟩ mem_cons_self)
  | some b => exact ⟨a, b, rfl⟩

lemma cells_of_filled (h : Filled nodes) : cells nodes = bytes (contents nodes) := by
  induction nodes with
  | nil => rfl
  | cons node rest ih =>
    obtain ⟨⟨a, b, rfl⟩, hrest⟩ := h.cons
    rw [cells_cons, ih hrest, nodeCells_some, contents, bytes_append]

lemma Filled.sublist {nodes'} (h : Filled nodes)
    (hsub : nodes'.Sublist nodes) : Filled nodes' := fun node hn => h node (hsub.subset hn)

lemma pending_of_filled (h : Filled c.reply) :
    pending c = bytes ((c.buf.bytes ++ contents c.reply).drop c.sentlen) := by
  rw [pending, cells_of_filled h, ← bytes_append, bytes, bytes, map_drop]

lemma Sound.of_sublist (h : Sound c) (hsub : c'.reply.Sublist c.reply)
    (hfresh : c'.fresh = c.fresh) (htotal : c'.replyBytes = sizes c'.reply)
    (hsent : c'.sentlen = 0 ∨ c'.sentlen < firstLen c') : Sound c' :=
  ⟨(hsub.map _).nodup h.nodup, fun a ha => hfresh ▸ h.below a ((hsub.map _).subset ha), htotal,
    hsent⟩

lemma Sound.sentlen_le (h : Sound c) (hfilled : Filled c.reply) :
    c.sentlen ≤ (c.buf.bytes ++ contents c.reply).length := by
  obtain ⟨s, rest, hs, hl, -⟩ := h.split
  have hlen := congrArg List.length hs
  rw [cells_of_filled hfilled, ← bytes_append, length_bytes, @List.length_append _ (bytes s),
    length_bytes] at hlen
  omega

end Redis.Networking.ReplyCells
