import Redis.Lib.Bytes

/-! # Buffered reads from a connection

`rioConnRead` keeps in one buffer what it has read from the socket and not yet returned. -/
namespace Redis.Rio
open List Lib

/-- The buffer has `alloc` bytes, used and free. What the socket will deliver is a list of chunks,
where an empty one is an interrupted call; then the connection has ended. `asked` records, for
every call of `connRead`, the bytes received before and the size passed. -/
structure Conn where
  buf : Bytes
  alloc : Nat
  pos : Nat
  readLimit : Nat
  readSoFar : Nat
  incoming : List Bytes
  asked : List (Nat × Nat)

def protoIobufLen : Nat := 16384

def Conn.buffered (r : Conn) : Nat := r.buf.length - r.pos

def Conn.toread (r : Conn) (len : Nat) : Nat :=
  let needs := len - r.buffered
  let toread := if needs < protoIobufLen then protoIobufLen else needs
  let toread := if toread > r.alloc - r.buf.length then r.alloc - r.buf.length else toread
  if r.readLimit ≠ 0 ∧ r.readSoFar + r.buffered + toread > r.readLimit then
    r.readLimit - r.readSoFar - r.buffered
  else toread

/-- The loop of `rioConnRead`, and whether it has read enough. -/
def fill (len : Nat) (r : Conn) : Conn × Bool :=
  if len > r.buffered then
    let n := r.toread len
    let asked := (r.readSoFar + r.buffered, n) :: r.asked
    match _h : r.incoming with
    | [] => ({ r with asked }, false)
    | [] :: rest => fill len { r with asked, incoming := rest }
    | (c :: cs) :: rest =>
      -- a read of size zero returns zero, as at the end
      if n = 0 then ({ r with asked }, false)
      else fill len { r with
        asked
        buf := r.buf ++ (c :: cs).take n
        incoming := if (c :: cs).length ≤ n then rest else (c :: cs).drop n :: rest }
  else (r, true)
termination_by (r.incoming.map (·.length + 1)).sum
decreasing_by
  · simp [_h]
  · rw [_h]
    split
    · simp
    · simp
      omega

/-- What `sdsMakeRoomFor` allocates for a length, which is at least that. -/
abbrev Alloc := { f : Nat → Nat // ∀ n, n ≤ f n }

/-- The buffer is enlarged, and what is left in it is moved to the front. -/
def prepare (sds : Alloc) (r : Conn) (len : Nat) : Conn :=
  let avail := r.buffered
  let r := if r.alloc < len then
    { r with alloc := sds.1 (r.buf.length + (len - r.buf.length)) } else r
  if len > avail ∧ r.alloc - r.buf.length < len - avail then
    { r with buf := r.buf.drop r.pos, pos := 0 }
  else r

/-- `rioConnRead`: the bytes, or none for a failure. It returns their number, so that success
cannot be told from failure for no bytes; `rioRead` never asks for none. -/
def rioConnRead (sds : Alloc) (r : Conn) (len : Nat) : Conn × Option Bytes :=
  let r := prepare sds r len
  if r.readLimit ≠ 0 ∧ r.readLimit < r.readSoFar + len then (r, none)
  else
    match fill len r with
    | (r, false) => (r, none)
    | (r, true) => ({ r with readSoFar := r.readSoFar + len, pos := r.pos + len },
        some ((r.buf.drop r.pos).take len))

def rioInitWithConn (sds : Alloc) (readLimit : Nat) (incoming : List Bytes) : Conn :=
  ⟨[], sds.1 protoIobufLen, 0, readLimit, 0, incoming, []⟩

/-- What `rioFreeConn` hands back. -/
def rioFreeConn (r : Conn) : Option Bytes :=
  if r.pos < r.buf.length then some (r.buf.drop r.pos) else none

variable {stream : Bytes} {r : Conn} {len : Nat}

structure Inv (stream : Bytes) (r : Conn) : Prop where
  pos : r.pos ≤ r.buf.length
  room : r.buf.length ≤ r.alloc
  sofar : r.readSoFar ≤ stream.length
  stream : r.buf.drop r.pos ++ r.incoming.flatten = stream.drop r.readSoFar
  limit : r.readLimit ≠ 0 → r.readSoFar + r.buffered ≤ r.readLimit
  asked : ∀ a ∈ r.asked, 0 < a.2 ∧ (r.readLimit ≠ 0 → a.1 + a.2 ≤ r.readLimit)

lemma toread_spec (hlen : len > r.buffered) (hroom : r.pos + len ≤ r.alloc)
    (hlimit : r.readLimit ≠ 0 → r.readSoFar + len ≤ r.readLimit) :
    0 < r.toread len ∧ r.buf.length + r.toread len ≤ r.alloc ∧
      (r.readLimit ≠ 0 → r.readSoFar + r.buffered + r.toread len ≤ r.readLimit) := by
  unfold Conn.toread Conn.buffered protoIobufLen at *
  grind

/-- What a call of `connRead` returns goes from the socket to the end of the buffer. -/
lemma Inv.received (h : Inv stream r) {n : Nat} {chunk : Bytes} {rest : List Bytes}
    (hinc : r.incoming = chunk :: rest) (hpos : 0 < n) (hroom : r.buf.length + n ≤ r.alloc)
    (hlimit : r.readLimit ≠ 0 → r.readSoFar + r.buffered + n ≤ r.readLimit) :
    Inv stream { r with
      asked := (r.readSoFar + r.buffered, n) :: r.asked
      buf := r.buf ++ chunk.take n
      incoming := if chunk.length ≤ n then rest else chunk.drop n :: rest } where
  pos := by simp; have := h.pos; omega
  room := by simp; omega
  sofar := h.sofar
  stream := by
    rw [← h.stream, hinc, drop_append_of_le_length h.pos, append_assoc]
    congr 1
    split
    · rename_i hle
      rw [take_of_length_le hle, flatten_cons]
    · rw [flatten_cons, flatten_cons, ← append_assoc, take_append_drop]
  limit hne := by
    simp [Conn.buffered] at *
    omega
  asked := forall_mem_cons.mpr ⟨⟨hpos, hlimit⟩, h.asked⟩

/-- Bytes of the buffer are the next ones of the stream. -/
lemma Inv.returned (h : Inv stream r) (hlen : len ≤ r.buffered) :
    Inv stream { r with readSoFar := r.readSoFar + len, pos := r.pos + len } ∧
      r.readSoFar + len ≤ stream.length ∧
      (r.buf.drop r.pos).take len = (stream.drop r.readSoFar).take len := by
  have hdrop : len ≤ (r.buf.drop r.pos).length := by rwa [length_drop]
  have hpos := h.pos
  have hlimit := h.limit
  have hall := congrArg List.length h.stream
  rw [length_append, length_drop, length_drop] at hall
  unfold Conn.buffered at hlen hlimit
  have hend : r.readSoFar + len ≤ stream.length := by
    have := h.sofar
    omega
  refine ⟨⟨by dsimp only; omega, h.room, hend, ?_, by simp only [Conn.buffered]; omega, h.asked⟩,
    hend, ?_⟩
  · rw [← drop_drop, ← drop_drop, ← h.stream, drop_append_of_le_length hdrop]
  · rw [← h.stream, take_append_of_le_length hdrop]

lemma fill_spec (len : Nat) (r : Conn) (h : Inv stream r)
    (hroom : len > r.buffered → r.pos + len ≤ r.alloc)
    (hlimit : r.readLimit ≠ 0 → r.readSoFar + len ≤ r.readLimit) :
    ∃ r' done, fill len r = (r', done) ∧ Inv stream r' ∧ r'.readSoFar = r.readSoFar ∧
      r'.readLimit = r.readLimit ∧
      if done then len ≤ r'.buffered else stream.length < r.readSoFar + len := by
  fun_induction fill with
  | case1 r hlen n asked hinc =>
    obtain ⟨hpos, -, hmax⟩ := toread_spec hlen (hroom hlen) hlimit
    have hall := congrArg List.length h.stream
    rw [hinc, flatten_nil, append_nil, length_drop, length_drop, ← Conn.buffered] at hall
    have hsofar := h.sofar
    refine ⟨_, _, rfl, ⟨h.pos, h.room, hsofar, h.stream, h.limit, ?_⟩, rfl, rfl, ?_⟩
    · exact forall_mem_cons.mpr ⟨⟨hpos, hmax⟩, h.asked⟩
    · show stream.length < r.readSoFar + len
      omega
  | case2 r hlen n asked rest hinc ih =>
    obtain ⟨hpos, hfree, hmax⟩ := toread_spec hlen (hroom hlen) hlimit
    have hinv := h.received hinc hpos hfree hmax
    rw [take_nil, append_nil] at hinv
    exact ih hinv hroom hlimit
  | case3 r hlen n asked c cs rest hinc hz =>
    exact absurd hz (toread_spec hlen (hroom hlen) hlimit).1.ne'
  | case4 r hlen n asked c cs rest hinc hz ih =>
    obtain ⟨hpos, hfree, hmax⟩ := toread_spec hlen (hroom hlen) hlimit
    exact ih (h.received hinc hpos hfree hmax) (fun _ => hroom hlen) hlimit
  | case5 r hlen => exact ⟨r, true, rfl, h, rfl, rfl, Nat.le_of_not_gt hlen⟩

lemma prepare_spec (h : Inv stream r) (sds : Alloc) (len : Nat) :
    ∃ r', prepare sds r len = r' ∧ Inv stream r' ∧ r'.readSoFar = r.readSoFar ∧
      r'.readLimit = r.readLimit ∧ (len > r'.buffered → r'.pos + len ≤ r'.alloc) := by
  have hpos := h.pos
  have hroom := h.room
  have hlimit := h.limit
  have halloc := sds.2 (r.buf.length + (len - r.buf.length))
  obtain ⟨alloc, hgrown, hlen, hbuf⟩ : ∃ alloc, (if r.alloc < len then
      { r with alloc := sds.1 (r.buf.length + (len - r.buf.length)) } else r) = { r with alloc } ∧
      len ≤ alloc ∧ r.buf.length ≤ alloc := by
    split
    · exact ⟨_, rfl, by omega, by omega⟩
    · exact ⟨_, rfl, by omega, hroom⟩
  refine ⟨_, rfl, ?_⟩
  unfold prepare
  rw [hgrown]
  dsimp only
  unfold Conn.buffered at *
  split
  · refine ⟨⟨Nat.zero_le _, by simp; omega, h.sofar, h.stream, ?_, h.asked⟩, rfl, rfl, by simp; omega⟩
    simpa [Conn.buffered] using hlimit
  · exact ⟨⟨hpos, hbuf, h.sofar, h.stream, hlimit, h.asked⟩, rfl, rfl, by dsimp only; omega⟩

/-- A request that passes the limit or the end of the stream. -/
def Refused (r : Conn) (stream : Bytes) (len : Nat) : Prop :=
  (r.readLimit ≠ 0 ∧ r.readLimit < r.readSoFar + len) ∨ stream.length < r.readSoFar + len

instance : Decidable (Refused r stream len) := inferInstanceAs (Decidable (_ ∨ _))

lemma rioConnRead_spec (h : Inv stream r) (sds : Alloc) (len : Nat) :
    ∃ r', Inv stream r' ∧ r'.readLimit = r.readLimit ∧ rioConnRead sds r len =
        (r', if Refused r stream len then none else some ((stream.drop r.readSoFar).take len)) ∧
      r'.readSoFar = if Refused r stream len then r.readSoFar else r.readSoFar + len := by
  obtain ⟨r₁, hprepare, hinv, hsofar, hlimit, hroom⟩ := prepare_spec h sds len
  rw [rioConnRead, hprepare, ← hsofar, ← hlimit]
  by_cases hpast : r₁.readLimit ≠ 0 ∧ r₁.readLimit < r₁.readSoFar + len
  · have hrefused : Refused r stream len := .inl (by omega)
    rw [if_pos hpast, if_pos hrefused, if_pos hrefused]
    exact ⟨_, hinv, rfl, rfl, rfl⟩
  rw [if_neg hpast]
  obtain ⟨r₂, done, hfill, hinv', hsofar', hlimit', henough⟩ := fill_spec len r₁ hinv hroom (by omega)
  rw [hfill]
  cases done with
  | false =>
    have hrefused : Refused r stream len := .inr (hsofar ▸ henough)
    rw [if_pos hrefused, if_pos hrefused]
    exact ⟨_, hinv', hlimit', rfl, hsofar'⟩
  | true =>
    obtain ⟨hinv₂, hend, hbytes⟩ := hinv'.returned henough
    have hserved : ¬ Refused r stream len := by
      unfold Refused
      omega
    rw [if_neg hserved, if_neg hserved, ← hsofar', ← hbytes]
    exact ⟨_, hinv₂, hlimit', rfl, rfl⟩

/-- After any requests, the next one gets the bytes that follow those returned, unless it passes
the limit or the end. No call of `connRead` had size zero or went past the limit, and
`rioFreeConn` hands back what was received and not returned. -/
theorem reads_consecutive (sds : Alloc) (limit : Nat) (incoming : List Bytes) (lens : List Nat)
    (len : Nat) :
    let r := lens.foldl (fun r len => (rioConnRead sds r len).1)
      (rioInitWithConn sds limit incoming)
    let stream := incoming.flatten
    r.readLimit = limit ∧ (rioConnRead sds r len).2 =
      (if Refused r stream len then none else some ((stream.drop r.readSoFar).take len)) ∧
    (rioConnRead sds r len).1.readSoFar =
      (if Refused r stream len then r.readSoFar else r.readSoFar + len) ∧
    (∀ a ∈ r.asked, 0 < a.2 ∧ (limit ≠ 0 → a.1 + a.2 ≤ limit)) ∧
    (rioFreeConn r).getD [] ++ r.incoming.flatten = stream.drop r.readSoFar := by
  intro r stream
  have hrun : Inv stream r ∧ r.readLimit = limit := by
    refine foldlRecOn (motive := fun r => Inv stream r ∧ r.readLimit = limit) lens _
      ⟨⟨le_rfl, Nat.zero_le _, Nat.zero_le _, rfl, fun _ => Nat.zero_le _,
        nofun⟩, rfl⟩ fun r h len _ => ?_
    obtain ⟨r', hinv, hlimit, hread, _⟩ := rioConnRead_spec h.1 sds len
    rw [hread]
    exact ⟨hinv, hlimit.trans h.2⟩
  obtain ⟨r', _, _, hread, hsofar⟩ := rioConnRead_spec hrun.1 sds len
  rw [hread]
  refine ⟨hrun.2, rfl, hsofar, hrun.2 ▸ hrun.1.asked, ?_⟩
  rw [← hrun.1.stream, rioFreeConn]
  split
  · rfl
  · rw [drop_of_length_le (by omega)]
    rfl

end Redis.Rio
