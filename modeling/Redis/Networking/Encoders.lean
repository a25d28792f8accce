import Redis.Util.Numbers

/-! # Commands in RESP: replication.c and aof.c

Two functions write a command as an array of bulk strings. They differ in their
buffers and not in what they write. -/
namespace Redis.Networking.Encoders
open List Lib Outcome Lib.Decimal Util.Numbers

/-- A header line made in a buffer: the lead byte, a number, and the end of the
line. `room` is the space for the number. -/
def headerLine (lead : UInt8) (room value : Nat) : Outcome Bytes :=
  match ll2string room value with
  | some text => .ok (lead :: text ++ [13, 10])
  | none => .error .bounds

/-- What `replicationFeedSlaves` feeds for the arguments of a command. -/
def feedArguments : List Bytes → Outcome Bytes
  | [] => .ok []
  | arg :: rest => do
    let aux ← headerLine 36 (longStrSize + 2) arg.length
    let rest ← feedArguments rest
    .ok (aux ++ arg ++ aux.drop (aux.length - 2) ++ rest)

/-- What `replicationFeedSlaves` feeds for a command. -/
def replicationFeedCommand (argv : List Bytes) : Outcome Bytes := do
  let aux ← headerLine 42 (longStrSize + 2) argv.length
  let arguments ← feedArguments argv
  .ok (aux ++ arguments)

/-- The loop of `catAppendOnlyGenericCommand`. -/
def catArguments (dst : Bytes) : List Bytes → Outcome Bytes
  | [] => .ok dst
  | arg :: rest => do
    let buf ← headerLine 36 31 arg.length
    catArguments (dst ++ buf ++ arg ++ [13, 10]) rest

def catAppendOnlyGenericCommand (dst : Bytes) (argv : List Bytes) : Outcome Bytes := do
  let buf ← headerLine 42 31 argv.length
  catArguments (dst ++ buf) argv

/-- The stream of commands that replicas receive. -/
def replicationStream : List (List Bytes) → Outcome Bytes
  | [] => .ok []
  | argv :: rest => do
    let command ← replicationFeedCommand argv
    let rest ← replicationStream rest
    .ok (command ++ rest)

/-- The commands appended to a file that holds `dst`. -/
def appendCommands (dst : Bytes) : List (List Bytes) → Outcome Bytes
  | [] => .ok dst
  | argv :: rest => do
    let dst ← catAppendOnlyGenericCommand dst argv
    appendCommands dst rest

/-! ## What they write -/

def encodeBulk (arg : Bytes) : Bytes := 36 :: decimal arg.length ++ [13, 10] ++ (arg ++ [13, 10])

def encodeCommand (argv : List Bytes) : Bytes :=
  42 :: decimal argv.length ++ [13, 10] ++ argv.flatMap encodeBulk

lemma headerLine_eq {lead : UInt8} {room value : Nat} (hroom : longStrSize ≤ room)
    (hvalue : (value : Int) ≤ llongMax) :
    headerLine lead room value = .ok (lead :: decimal value ++ [13, 10]) := by
  unfold llongMax at hvalue
  have hlen : (decimal value).length < room := by
    have := length_decimal_le (k := 18) (n := value) (by omega)
    unfold longStrSize at hroom
    omega
  have hpos : ¬ ((value : Int) < 0) := by omega
  simp only [headerLine, ll2string, if_neg hpos, Int.toNat_natCast, ull2string_eq hlen]

section
variable {argv : List Bytes} (h : ∀ a ∈ argv, (a.length : Int) ≤ llongMax)
include h

lemma feedArguments_eq : feedArguments argv = .ok (argv.flatMap encodeBulk) := by
  induction argv with
  | nil => rfl
  | cons arg rest ih =>
    have hend : ∀ text : Bytes, (36 :: text ++ [13, 10] : Bytes).drop
        ((36 :: text ++ [13, 10] : Bytes).length - 2) = [13, 10] := by
      intro text
      rw [length_append, show ([13, 10] : Bytes).length = 2 from rfl]
      exact drop_left
    rw [feedArguments, headerLine_eq (by decide) (h arg mem_cons_self),
      ih (forall_mem_cons.mp h).2]
    simp only [bind_ok, hend, flatMap_cons, encodeBulk, append_assoc]

lemma replicationFeedCommand_eq (hargc : (argv.length : Int) ≤ llongMax) :
    replicationFeedCommand argv = .ok (encodeCommand argv) := by
  rw [replicationFeedCommand, headerLine_eq (by decide) hargc, feedArguments_eq h]
  rfl

lemma catArguments_eq (dst : Bytes) : catArguments dst argv = .ok (dst ++ argv.flatMap encodeBulk) := by
  induction argv generalizing dst with
  | nil => rw [catArguments, flatMap_nil, append_nil]
  | cons arg rest ih =>
    rw [catArguments, headerLine_eq (by decide) (h arg mem_cons_self)]
    simp only [bind_ok, ih (forall_mem_cons.mp h).2, flatMap_cons,
      encodeBulk, append_assoc]

lemma catAppendOnlyGenericCommand_eq (hargc : (argv.length : Int) ≤ llongMax) (dst : Bytes) :
    catAppendOnlyGenericCommand dst argv = .ok (dst ++ encodeCommand argv) := by
  rw [catAppendOnlyGenericCommand, headerLine_eq (by decide) hargc, bind_ok,
    catArguments_eq h, append_assoc]
  rfl

end

lemma replicationStream_eq {cmds : List (List Bytes)}
    (hargc : ∀ argv ∈ cmds, (argv.length : Int) ≤ llongMax)
    (h : ∀ argv ∈ cmds, ∀ a ∈ argv, (a.length : Int) ≤ llongMax) :
    replicationStream cmds = .ok (cmds.flatMap encodeCommand) := by
  induction cmds with
  | nil => rfl
  | cons argv rest ih =>
    rw [replicationStream, replicationFeedCommand_eq (h argv mem_cons_self)
      (hargc argv mem_cons_self), ih (forall_mem_cons.mp hargc).2
      (forall_mem_cons.mp h).2]
    rfl

lemma appendCommands_eq {cmds : List (List Bytes)}
    (hargc : ∀ argv ∈ cmds, (argv.length : Int) ≤ llongMax)
    (h : ∀ argv ∈ cmds, ∀ a ∈ argv, (a.length : Int) ≤ llongMax) (dst : Bytes) :
    appendCommands dst cmds = .ok (dst ++ cmds.flatMap encodeCommand) := by
  induction cmds generalizing dst with
  | nil => rw [appendCommands, flatMap_nil, append_nil]
  | cons argv rest ih =>
    rw [appendCommands, catAppendOnlyGenericCommand_eq (h argv mem_cons_self)
      (hargc argv mem_cons_self), bind_ok,
      ih (forall_mem_cons.mp hargc).2 (forall_mem_cons.mp h).2, append_assoc]
    rfl

end Redis.Networking.Encoders
