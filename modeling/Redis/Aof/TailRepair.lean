import Redis.Aof.LoadingText
import Mathlib.Data.List.DropRight

/-! # Loading a file whose end is missing

A file is a list of records: annotations, commands and transactions. Cut anywhere,
it is loaded as the records that are complete. It is also cut back to them, except
where the cut is in an annotation outside a transaction, which is skipped as if it were
complete, and where it is in a command of a transaction, whose earlier commands count
as loaded. -/
namespace Redis.Aof.TailRepair
open List Lib Util.Numbers Util.Stdlib Networking.Encoders
open Loading LoadingText

/-! ## Files -/

inductive Piece where
  | timestamp (seconds : Int)
  | command (argv : List Bytes)
  deriving DecidableEq, Repr

inductive Record where
  | single (p : Piece)
  | transaction (body : List Piece)
  deriving DecidableEq, Repr

def encodePiece : Piece → Bytes
  | .timestamp seconds => annotationLine seconds ++ [newline]
  | .command argv => encodeCommand argv

def encodePieces (ps : List Piece) : Bytes := ps.flatMap encodePiece

@[simp] lemma encodePieces_nil : encodePieces [] = [] := rfl

@[simp] lemma encodePieces_cons (p : Piece) (ps : List Piece) :
    encodePieces (p :: ps) = encodePiece p ++ encodePieces ps := flatMap_cons

@[simp] lemma encodePieces_append (ps qs : List Piece) :
    encodePieces (ps ++ qs) = encodePieces ps ++ encodePieces qs := flatMap_append

/-- A transaction stands between MULTI and EXEC. -/
def Record.pieces : Record → List Piece
  | .single p => [p]
  | .transaction body => .command [multiName] :: body ++ [.command [execName]]

def encodeRecord (r : Record) : Bytes := encodePieces r.pieces

def encodeRecords (rs : List Record) : Bytes := rs.flatMap encodeRecord

def Piece.commands : Piece → List (List Bytes)
  | .timestamp _ => []
  | .command argv => [argv]

def commandsOf (ps : List Piece) : List (List Bytes) := ps.flatMap Piece.commands

def Record.commands : Record → List (List Bytes)
  | .single p => p.commands
  | .transaction body => commandsOf body

/-- The dataset after the commands of some records. -/
def applied {δ : Type} (proc : List Bytes → δ → δ) (rs : List Record) (db : δ) : δ :=
  (rs.flatMap Record.commands).foldl (fun db argv => proc argv db) db

/-- A piece as the server writes it. -/
def Piece.Valid (known : List Bytes → Bool) : Piece → Prop
  | .timestamp seconds => llongMin ≤ seconds ∧ seconds ≤ llongMax
  | .command argv => Command argv ∧ lookupCommand known argv = some .other

def Record.Valid (known : List Bytes → Bool) : Record → Prop
  | .single p => p.Valid known
  | .transaction body => ∀ p ∈ body, p.Valid known

def Record.isTimestamp : Record → Bool
  | .single (.timestamp _) => true
  | _ => false

/-- The records without the annotations at their end. -/
def trimAnnotations (rs : List Record) : List Record := rs.rdropWhile Record.isTimestamp

/-! ## Piece by piece -/

/-- A piece the loader can run, MULTI and EXEC included. -/
def Piece.Readable (known : List Bytes → Bool) : Piece → Prop
  | .timestamp seconds => llongMin ≤ seconds ∧ seconds ≤ llongMax
  | .command argv => Command argv ∧ ∃ kind, lookupCommand known argv = some kind

section
variable {δ : Type} (known : List Bytes → Bool) (proc : List Bytes → δ → δ)

/-- A piece that ends at `offset`. -/
def loadPiece (offset : Nat) (c : Client δ) : Piece → Client δ
  | .timestamp _ => c
  | .command argv =>
    match lookupCommand known argv with
    | some kind => loadCommand known proc true kind argv offset c
    | none => c

def loadPieces : (offset : Nat) → List Piece → Client δ → Client δ
  | _, [], c => c
  | offset, p :: ps, c => loadPieces (offset + (encodePiece p).length) ps
      (loadPiece known proc (offset + (encodePiece p).length) c p)

lemma loadPieces_append (xs ys : List Piece) : ∀ (offset : Nat) (c : Client δ),
    loadPieces known proc offset (xs ++ ys) c =
      loadPieces known proc (offset + (encodePieces xs).length) ys
        (loadPieces known proc offset xs c) := by
  induction xs with
  | nil => exact fun offset c => rfl
  | cons x xs ih =>
    intro offset c
    rw [cons_append, loadPieces, ih, loadPieces, encodePieces_cons, length_append, add_assoc]

variable {known proc} {c : Client δ} {r : Record}

lemma loadLoop_pieces (content : Bytes) (ps : List Piece) (hps : ∀ p ∈ ps, p.Readable known)
    (rest : Bytes) (rounds : Nat) : ∀ (c : Client δ) (offset : Nat),
      content.length = offset + (encodePieces ps ++ rest).length →
      loadLoop known proc true content (ps.length + rounds) (encodePieces ps ++ rest) c =
        loadLoop known proc true content rounds rest (loadPieces known proc offset ps c) := by
  induction ps with
  | nil =>
    intro c offset _
    rw [length_nil, zero_add]
    rfl
  | cons p ps ih =>
    intro c offset hlen
    have hp := hps p mem_cons_self
    have hrest := fun q hq => hps q (mem_cons_of_mem p hq)
    have hcons : encodePieces (p :: ps) ++ rest = encodePiece p ++ (encodePieces ps ++ rest) := by
      rw [encodePieces_cons, append_assoc]
    rw [hcons, length_append] at hlen
    rw [hcons, length_cons, Nat.add_right_comm, loadLoop]
    cases p with
    | timestamp seconds =>
      have hnext : readNext (encodePiece (.timestamp seconds) ++ (encodePieces ps ++ rest)) =
          .timestamp (encodePieces ps ++ rest) := by
        rw [encodePiece, append_assoc]
        exact readNext_timestamp hp.1 hp.2 _
      rw [hnext]
      exact ih hrest c _ (by omega)
    | command argv =>
      obtain ⟨hcommand, kind, hkind⟩ := hp
      rw [show encodePiece (.command argv) = encodeCommand argv from rfl] at hlen ⊢
      have hoff : content.length - (encodePieces ps ++ rest).length =
          offset + (encodeCommand argv).length := by omega
      rw [readNext_command hcommand]
      dsimp only
      rw [hkind, hoff]
      dsimp only
      rw [ih hrest _ (offset + (encodeCommand argv).length) (by omega), loadPieces, loadPiece, hkind]
      rfl

/-! ## Record by record -/

lemma lookupCommand_multi (known : List Bytes → Bool) :
    lookupCommand known [multiName] = some .multi := if_pos (by decide)

lemma lookupCommand_exec (known : List Bytes → Bool) :
    lookupCommand known [execName] = some .exec := (if_neg (by decide)).trans (if_pos (by decide))

lemma loadPiece_multi (h : c.queue = none) (offset : Nat) :
    loadPiece known proc offset c (.command [multiName]) =
      { c with queue := some [], validBeforeMulti := c.validUpTo, validUpTo := offset } := by
  rw [loadPiece, lookupCommand_multi]
  simp [loadCommand, runCommand, h]

lemma loadPiece_exec {queued} (h : c.queue = some queued)
    (offset : Nat) : loadPiece known proc offset c (.command [execName]) =
      { c with db := runQueued known proc queued c.db, queue := none, validUpTo := offset } := by
  rw [loadPiece, lookupCommand_exec]
  simp [loadCommand, runCommand, h]

lemma loadPiece_command {argv} (hkind : lookupCommand known argv = some .other)
    (h : c.queue = none) (offset : Nat) :
    loadPiece known proc offset c (.command argv) =
      { c with db := proc argv c.db, validUpTo := offset } := by
  rw [loadPiece, hkind]
  simp [loadCommand, runCommand, h]

lemma loadPiece_queued {argv} (hkind : lookupCommand known argv = some .other)
    {queued} (h : c.queue = some queued) (offset : Nat) :
    loadPiece known proc offset c (.command argv) =
      { c with queue := some (queued ++ [argv]), validUpTo := offset } := by
  rw [loadPiece, hkind]
  simp [loadCommand, runCommand, h]

lemma loadPieces_body (ps : List Piece) (hps : ∀ p ∈ ps, p.Valid known) :
    ∀ (offset : Nat) (c : Client δ) (queued : List (List Bytes)), c.queue = some queued →
      c.validUpTo ≤ offset → ∃ valid, c.validUpTo ≤ valid ∧ loadPieces known proc offset ps c =
          { c with queue := some (queued ++ commandsOf ps), validUpTo := valid } := by
  induction ps with
  | nil =>
    intro offset c queued hq _
    refine ⟨c.validUpTo, le_rfl, ?_⟩
    rw [commandsOf, flatMap_nil, append_nil, ← hq]
    rfl
  | cons p ps ih =>
    intro offset c queued hq hle
    have hrest := fun q hq => hps q (mem_cons_of_mem p hq)
    rw [loadPieces]
    cases p with
    | timestamp seconds => exact ih hrest _ c queued hq (by omega)
    | command argv =>
      rw [loadPiece_queued (hps _ mem_cons_self).2 hq]
      obtain ⟨valid, hvalid, hload⟩ := ih hrest (offset + (encodePiece (.command argv)).length)
        { c with queue := some (queued ++ [argv])
                 validUpTo := offset + (encodePiece (.command argv)).length }
        (queued ++ [argv]) rfl le_rfl
      refine ⟨valid, Nat.le_trans (hle.trans (Nat.le_add_right _ _)) hvalid, ?_⟩
      have hcons : queued ++ [argv] ++ commandsOf ps =
          queued ++ commandsOf (.command argv :: ps) := append_assoc _ _ _
      rw [hload, hcons]

lemma runQueued_valid (ps : List Piece) (hps : ∀ p ∈ ps, p.Valid known) : ∀ db : δ,
    runQueued known proc (commandsOf ps) db =
      (commandsOf ps).foldl (fun db argv => proc argv db) db := by
  induction ps with
  | nil => exact fun db => rfl
  | cons p ps ih =>
    intro db
    have hrest := ih fun q hq => hps q (mem_cons_of_mem p hq)
    cases p with
    | timestamp seconds => exact hrest db
    | command argv =>
      have hkind := (hps _ mem_cons_self).2
      have hcons : commandsOf (.command argv :: ps) = argv :: commandsOf ps := rfl
      rw [hcons, runQueued, foldl_cons, hkind]
      exact hrest _

/-- A record outside a transaction: its commands are run, and the offset is kept up
except by an annotation. -/
lemma loadPieces_record (hr : r.Valid known) (offset : Nat) (hq : c.queue = none) : ∃ before,
      loadPieces known proc offset r.pieces c =
        { db := r.commands.foldl (fun db argv => proc argv db) c.db
          queue := none
          validUpTo := if r.isTimestamp then c.validUpTo else offset + (encodeRecord r).length
          validBeforeMulti := before } := by
  cases r with
  | single p =>
    refine ⟨c.validBeforeMulti, ?_⟩
    cases p with
    | timestamp seconds =>
      rw [← hq]
      rfl
    | command argv =>
      rw [Record.pieces, loadPieces, loadPiece_command hr.2 hq, encodeRecord, Record.pieces,
        encodePieces_cons, encodePieces_nil, append_nil, ← hq]
      rfl
  | transaction body =>
    refine ⟨c.validUpTo, ?_⟩
    rw [Record.pieces, cons_append, loadPieces, loadPiece_multi hq, loadPieces_append]
    obtain ⟨c', hc'⟩ : ∃ c', c' = Client.mk c.db (some [])
        (offset + (encodePiece (.command [multiName])).length) c.validUpTo := ⟨_, rfl⟩
    have hqueue : c'.queue = some [] := by rw [hc']
    obtain ⟨valid, -, hload⟩ : ∃ valid, c'.validUpTo ≤ valid ∧ loadPieces known proc _ body c' = _ :=
      loadPieces_body body hr (offset + (encodePiece (.command [multiName])).length) c' [] hqueue
        (by rw [hc'])
    rw [← hc', hload, hc', loadPieces, loadPiece_exec rfl, nil_append, runQueued_valid body hr, loadPieces]
    simp only [Record.commands, Record.isTimestamp, encodeRecord, Record.pieces, encodePieces_cons, encodePieces_append, encodePieces_nil, append_nil, length_append,
      add_assoc, Bool.false_eq_true, ↓reduceIte]

lemma encodeRecords_eq (rs : List Record) :
    encodeRecords rs = encodePieces (rs.flatMap Record.pieces) := by
  rw [encodePieces, flatMap_assoc]
  rfl

lemma encodeRecords_append (rs ss : List Record) :
    encodeRecords (rs ++ ss) = encodeRecords rs ++ encodeRecords ss := flatMap_append

lemma applied_append (rs ss : List Record) (db : δ) :
    applied proc (rs ++ ss) db = applied proc ss (applied proc rs db) := by
  rw [applied, flatMap_append, foldl_append]
  rfl

lemma loadPieces_records (rs : List Record) (hrs : ∀ r ∈ rs, r.Valid known) (db : δ) :
    ∃ before, loadPieces known proc 0 (rs.flatMap Record.pieces) ⟨db, none, 0, 0⟩ =
      ⟨applied proc rs db, none, (encodeRecords (trimAnnotations rs)).length, before⟩ := by
  induction rs using List.reverseRecOn with
  | nil => exact ⟨0, rfl⟩
  | append_singleton rs r ih =>
    obtain ⟨before, hload⟩ := ih (forall_mem_append.mp hrs).1
    have hr := hrs r (mem_append_right _ mem_cons_self)
    rw [flatMap_append, flatMap_singleton, loadPieces_append, ← encodeRecords_eq, zero_add, hload]
    obtain ⟨before', hrecord⟩ := loadPieces_record (c := ⟨applied proc rs db, none,
      (encodeRecords (trimAnnotations rs)).length, before⟩) hr (encodeRecords rs).length rfl
    refine ⟨before', hrecord.trans ?_⟩
    have hsingle : applied proc [r] (applied proc rs db) =
        r.commands.foldl (fun db argv => proc argv db) (applied proc rs db) := by
      rw [applied, flatMap_singleton]
    rw [applied_append, hsingle]
    congr 1
    split
    · rename_i hnote
      have htrim : trimAnnotations (rs ++ [r]) = trimAnnotations rs :=
        rdropWhile_concat_pos _ _ _ hnote
      rw [htrim]
    rename_i hnote
    have htrim : trimAnnotations (rs ++ [r]) = rs ++ [r] := rdropWhile_concat_neg _ _ _ hnote
    rw [htrim, encodeRecords_append, length_append, encodeRecords, encodeRecords, flatMap_singleton]

/-! ## Where a file is cut -/

/-- A cut through a list that is joined from parts goes through one of them. -/
lemma take_flatMap {α β : Type} (f : α → List β) (xs : List α) : ∀ {n : Nat},
    n < (xs.flatMap f).length → ∃ front x back m, xs = front ++ x :: back ∧ m < (f x).length ∧
      n = (front.flatMap f).length + m ∧
      (xs.flatMap f).take n = front.flatMap f ++ (f x).take m := by
  induction xs with
  | nil => exact fun h => absurd h (Nat.not_lt_zero _)
  | cons x xs ih =>
    intro n hn
    rw [flatMap_cons, length_append] at hn
    rcases Nat.lt_or_ge n (f x).length with hlt | hge
    · refine ⟨[], x, xs, n, rfl, hlt, (zero_add n).symm, ?_⟩
      rw [flatMap_cons, take_append_of_le_length hlt.le]
      rfl
    obtain ⟨front, y, back, m, rfl, hm, hk, htake⟩ := ih (n := n - (f x).length) (by omega)
    refine ⟨x :: front, y, back, m, rfl, hm, ?_, ?_⟩
    · rw [flatMap_cons, length_append]
      omega
    rw [flatMap_cons, flatMap_cons, append_assoc, ← htake]
    conv_lhs => rw [show n = (f x).length + (n - (f x).length) by omega]
    rw [take_length_add_append]

/-- The records that are complete in the first `k` bytes. -/
def completeRecords : List Record → Nat → List Record
  | [], _ => []
  | r :: rs, k =>
    if (encodeRecord r).length ≤ k then r :: completeRecords rs (k - (encodeRecord r).length) else []

def Piece.isCommand : Piece → Bool
  | .timestamp _ => false
  | .command _ => true

/-- The cut after `n` bytes goes through a command. -/
def cutsCommand : List Piece → Nat → Bool
  | [], _ => false
  | p :: ps, n =>
    if (encodePiece p).length ≤ n then cutsCommand ps (n - (encodePiece p).length)
    else p.isCommand && decide (0 < n)

/-- A cut after `n` bytes of a record: not through an annotation, and not through a
command behind MULTI. -/
def SafeInside (n : Nat) : Record → Prop
  | .single (.timestamp _) => n = 0
  | .single (.command _) => True
  | .transaction body => n < (encodePiece (.command [multiName])).length ∨
      cutsCommand (body ++ [.command [execName]])
        (n - (encodePiece (.command [multiName])).length) = false

def SafeCut : List Record → Nat → Prop
  | [], _ => True
  | r :: rs, k =>
    if (encodeRecord r).length ≤ k then SafeCut rs (k - (encodeRecord r).length) else SafeInside k r

lemma completeRecords_append (us vs : List Record) (k : Nat) :
    completeRecords (us ++ vs) ((encodeRecords us).length + k) = us ++ completeRecords vs k := by
  induction us with
  | nil => rw [encodeRecords, flatMap_nil, length_nil, zero_add]; rfl
  | cons u us ih =>
    rw [encodeRecords, flatMap_cons, length_append, cons_append, completeRecords,
      if_pos (by omega), add_assoc, Nat.add_sub_cancel_left]
    exact congrArg _ ih

lemma completeRecords_cut {n} (hn : n < (encodeRecord r).length) (us vs : List Record) :
    completeRecords (us ++ r :: vs) ((encodeRecords us).length + n) = us := by
  rw [completeRecords_append, completeRecords, if_neg (by omega), append_nil]

lemma safeCut_cut {n} (hn : n < (encodeRecord r).length) (us vs : List Record) :
    SafeCut (us ++ r :: vs) ((encodeRecords us).length + n) ↔ SafeInside n r := by
  induction us with
  | nil =>
    rw [encodeRecords, flatMap_nil, length_nil, zero_add, nil_append, SafeCut, if_neg (by omega)]
  | cons u us ih =>
    rw [encodeRecords, flatMap_cons, length_append, cons_append, SafeCut,
      if_pos (by omega), add_assoc, Nat.add_sub_cancel_left]
    exact ih

lemma cutsCommand_cut {p m} (hm : m < (encodePiece p).length) (ps qs : List Piece) :
    cutsCommand (ps ++ p :: qs) ((encodePieces ps).length + m) =
      (p.isCommand && decide (0 < m)) := by
  induction ps with
  | nil =>
    rw [encodePieces_nil, length_nil, zero_add, nil_append, cutsCommand, if_neg (by omega)]
  | cons q ps ih =>
    rw [encodePieces_cons, length_append, cons_append, cutsCommand, if_pos (by omega),
      add_assoc, Nat.add_sub_cancel_left, ih]

lemma completeRecords_all (rs : List Record) : ∀ {k : Nat}, (encodeRecords rs).length ≤ k →
    completeRecords rs k = rs ∧ SafeCut rs k := by
  induction rs with
  | nil => exact fun _ => ⟨rfl, trivial⟩
  | cons r rs ih =>
    intro k hk
    rw [encodeRecords, flatMap_cons, length_append] at hk
    have hrest : (encodeRecords rs).length ≤ k - (encodeRecord r).length := by
      rw [encodeRecords]
      omega
    rw [completeRecords, SafeCut, if_pos (by omega), if_pos (by omega)]
    exact ⟨congrArg _ (ih hrest).1, (ih hrest).2⟩

lemma completeRecords_prefix (rs : List Record) : ∀ k : Nat,
    ∃ rest, completeRecords rs k ++ rest = rs := by
  induction rs with
  | nil => exact fun _ => ⟨[], rfl⟩
  | cons r rs ih =>
    intro k
    rw [completeRecords]
    split
    · obtain ⟨rest, hrest⟩ := ih (k - (encodeRecord r).length)
      exact ⟨rest, congrArg _ hrest⟩
    · exact ⟨r :: rs, rfl⟩

end

end Redis.Aof.TailRepair
