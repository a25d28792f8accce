import Redis.Aof.Repair

/-! # Feeding the append-only file

Each command goes to the file with the database it runs in: a SELECT stands before it if
the last command was for another one. The loader starts every file in database 0, so a
file must not rely on what was selected before it. -/
namespace Redis.Aof.Feed
open List Lib Lib.Decimal Util.Numbers Util.Stdlib
open Loading LoadingText TailRepair

def selectName : Bytes := text ['S', 'E', 'L', 'E', 'C', 'T']

def isSelect (argv : List Bytes) : Bool := strcaseeq (argv.headD []) selectName

def selectArgv (dictid : Nat) : List Bytes := [selectName, decimal dictid]

/-- A command to propagate: its database, its arguments, and the time to be annotated
before it. -/
structure Op where
  dbid : Nat
  argv : List Bytes
  ts : Option Int
  deriving DecidableEq, Repr

/-- The part of `feedAppendOnlyFile` before the command. -/
def feedSelect (ts : Option Int) (dictid : Nat) (selectedDb : Option Nat) : List Piece :=
  (ts.map Piece.timestamp).toList ++
    if selectedDb = some dictid then [] else [.command (selectArgv dictid)]

/-- One command after the other, with the selected database at the end. -/
def feedOps : List Op → Option Nat → List Piece × Option Nat
  | [], selectedDb => ([], selectedDb)
  | op :: ops, selectedDb =>
    let (pieces, last) := feedOps ops (some op.dbid)
    (feedSelect op.ts op.dbid selectedDb ++ [.command op.argv] ++ pieces, last)

/-- What `propagatePendingCommands` is called with: some commands, and whether they are
wrapped in MULTI and EXEC, with the times for these two. -/
structure Pending where
  first : Op
  others : List Op
  wrapped : Option (Option Int × Option Int)
  deriving DecidableEq, Repr

def Pending.ops (p : Pending) : List Op := p.first :: p.others

/-- MULTI is fed with the database of the first command and EXEC with that of the last
one, where it needs no SELECT. -/
def propagatePendingCommands (p : Pending) (selectedDb : Option Nat) : List Record × Option Nat :=
  match p.wrapped with
  | none =>
    let (pieces, last) := feedOps p.ops selectedDb
    (pieces.map .single, last)
  | some (multiTs, execTs) =>
    let (pieces, last) := feedOps p.ops (some p.first.dbid)
    ((feedSelect multiTs p.first.dbid selectedDb).map .single ++
      [.transaction (pieces ++ (execTs.map Piece.timestamp).toList)], last)

/-! ## What the loader makes of it -/

section
variable {δ : Type} (dbnum : Nat) (exec : Nat → List Bytes → δ → δ) {p : Pending}
  {selectedDb : Option Nat}

def selectDb (id : Int) (current : Nat) : Nat :=
  if 0 ≤ id ∧ id < dbnum then id.toNat else current

def selectCommand (argv : List Bytes) (current : Nat) : Nat :=
  match string2ll (argv.getD 1 []) with
  | some id => selectDb dbnum id current
  | none => current

/-- A command of the fake client, which has a dataset and a selected database. -/
def call (argv : List Bytes) (x : δ × Nat) : δ × Nat :=
  if isSelect argv then (x.1, selectCommand dbnum argv x.2) else (exec x.2 argv x.1, x.2)

/-- The commands of the server itself. -/
def execOps (ops : List Op) (db : δ) : δ := ops.foldl (fun db op => exec op.dbid op.argv db) db

/-- What a server can propagate, with `known` the commands in its table. -/
structure Op.Valid (known : List Bytes → Bool) (op : Op) : Prop where
  dbid : op.dbid < dbnum
  command : Command op.argv
  found : lookupCommand (fun argv => isSelect argv || known argv) op.argv = some .other
  notSelect : isSelect op.argv = false
  ts : ∀ t ∈ op.ts, llongMin ≤ t ∧ t ≤ llongMax

structure Pending.Valid (known : List Bytes → Bool) (p : Pending) : Prop where
  ops : ∀ op ∈ p.ops, op.Valid dbnum known
  times : ∀ w ∈ p.wrapped, (∀ t ∈ w.1, llongMin ≤ t ∧ t ≤ llongMax) ∧
    ∀ t ∈ w.2, llongMin ≤ t ∧ t ≤ llongMax

/-- The commands of some pieces, one after the other. -/
def runPieces (ps : List Piece) (x : δ × Nat) : δ × Nat :=
  (commandsOf ps).foldl (fun x argv => call dbnum exec argv x) x

variable {dbnum exec} {known : List Bytes → Bool}

lemma runPieces_append (ps qs : List Piece) (x : δ × Nat) :
    runPieces dbnum exec (ps ++ qs) x = runPieces dbnum exec qs (runPieces dbnum exec ps x) := by
  rw [runPieces, commandsOf, flatMap_append, foldl_append]
  rfl

lemma isSelect_selectArgv (n : Nat) : isSelect (selectArgv n) = true := by
  have : strcaseeq selectName selectName = true := by decide
  exact this

lemma call_select {n : Nat} (hn : n < dbnum) (hmax : dbnum < 2 ^ 31) (x : δ × Nat) :
    call dbnum exec (selectArgv n) x = (x.1, n) := by
  have hbound : (n : Int) ≤ llongMax := by
    have : ((2 : Int) ^ 31) ≤ llongMax := by decide
    omega
  have hmin : llongMin ≤ (n : Int) := Int.le_trans (by decide) (Int.natCast_nonneg n)
  have hparse := string2ll_signedDecimal hmin hbound
  rw [signedDecimal, if_neg (by omega), Int.toNat_natCast] at hparse
  have harg : (selectArgv n).getD 1 [] = decimal n := rfl
  rw [call, if_pos (isSelect_selectArgv n), selectCommand, harg, hparse]
  dsimp only
  rw [selectDb, if_pos ⟨Int.natCast_nonneg n, by omega⟩, Int.toNat_natCast]

lemma runPieces_timestamp (ts : Option Int) (x : δ × Nat) :
    runPieces dbnum exec (ts.map Piece.timestamp).toList x = x := by
  cases ts <;> rfl

/-- A known selection that is not the right one is no selection. -/
def Knows (selectedDb : Option Nat) (current : Nat) : Prop := ∀ n ∈ selectedDb, n = current

lemma knows_none (current : Nat) : Knows none current := nofun

lemma knows_some (current : Nat) : Knows (some current) current := by
  rintro n ⟨⟩
  rfl

lemma runPieces_feedSelect (hmax : dbnum < 2 ^ 31) {dictid : Nat} (hdb : dictid < dbnum)
    (ts : Option Int) {x : δ × Nat} (hsel : Knows selectedDb x.2) :
    runPieces dbnum exec (feedSelect ts dictid selectedDb) x = (x.1, dictid) := by
  rw [feedSelect, runPieces_append, runPieces_timestamp]
  split
  · rename_i heq
    rw [hsel dictid heq]
    rfl
  · exact @call_select δ dbnum exec dictid hdb hmax x

lemma runPieces_command {argv : List Bytes} (h : isSelect argv = false) (x : δ × Nat) :
    runPieces dbnum exec [.command argv] x = (exec x.2 argv x.1, x.2) := by
  have hone : runPieces dbnum exec [.command argv] x = call dbnum exec argv x := rfl
  rw [hone, call, h, if_neg Bool.false_ne_true]

lemma runPieces_feedOps (hmax : dbnum < 2 ^ 31) {known : List Bytes → Bool} (ops : List Op)
    (hops : ∀ op ∈ ops, op.Valid dbnum known) : ∀ {selectedDb : Option Nat} {x : δ × Nat},
      Knows selectedDb x.2 →
      (runPieces dbnum exec (feedOps ops selectedDb).1 x).1 = execOps exec ops x.1 ∧
        Knows (feedOps ops selectedDb).2 (runPieces dbnum exec (feedOps ops selectedDb).1 x).2 := by
  induction ops with
  | nil => exact fun h => ⟨rfl, h⟩
  | cons op ops ih =>
    intro selectedDb x hsel
    have hop := hops op mem_cons_self
    have hrest := @ih (forall_mem_cons.mp hops).2 (some op.dbid)
      (exec op.dbid op.argv x.1, op.dbid) (knows_some _)
    rw [feedOps]
    rw [runPieces_append, runPieces_append, runPieces_feedSelect hmax hop.dbid op.ts hsel,
      runPieces_command hop.notSelect]
    exact hrest

/-! ## Records -/

lemma applied_singles (ps : List Piece) (x : δ × Nat) :
    applied (call dbnum exec) (ps.map .single) x = runPieces dbnum exec ps x := by
  rw [applied, flatMap_map]
  rfl

lemma applied_transaction (body : List Piece) (x : δ × Nat) :
    applied (call dbnum exec) [.transaction body] x = runPieces dbnum exec body x := by
  rw [applied, flatMap_singleton]
  rfl

/-- The loader does what the server did, if it knows the selected database. -/
lemma applied_propagate (hmax : dbnum < 2 ^ 31) {known : List Bytes → Bool}
    (hp : p.Valid dbnum known) {x : δ × Nat} (hsel : Knows selectedDb x.2) :
    (applied (call dbnum exec) (propagatePendingCommands p selectedDb).1 x).1 =
        execOps exec p.ops x.1 ∧
      Knows (propagatePendingCommands p selectedDb).2
        (applied (call dbnum exec) (propagatePendingCommands p selectedDb).1 x).2 := by
  rw [propagatePendingCommands]
  split
  · rw [applied_singles]
    exact runPieces_feedOps hmax p.ops hp.ops hsel
  have hfirst := hp.ops p.first mem_cons_self
  rw [applied_append, applied_singles, runPieces_feedSelect hmax hfirst.dbid _ hsel,
    applied_transaction, runPieces_append, runPieces_timestamp]
  exact @runPieces_feedOps δ dbnum exec hmax known p.ops hp.ops (some p.first.dbid)
    (x.1, p.first.dbid) (knows_some _)

/-- The first command selects a database. -/
def StartsWithSelect (dbnum : Nat) (rs : List Record) : Prop :=
  ∃ n rest, n < dbnum ∧ rs.flatMap Record.commands = selectArgv n :: rest

lemma commandsOf_append (ps qs : List Piece) :
    commandsOf (ps ++ qs) = commandsOf ps ++ commandsOf qs := flatMap_append

lemma commandsOf_feedSelect (ts : Option Int) (dictid : Nat) :
    commandsOf (feedSelect ts dictid none) = [selectArgv dictid] := by
  cases ts <;> rfl

lemma flatMap_singles (ps : List Piece) :
    (ps.map Record.single).flatMap Record.commands = commandsOf ps := by
  rw [flatMap_map]
  rfl

lemma startsWithSelect_propagate (hp : p.Valid dbnum known) :
    StartsWithSelect dbnum (propagatePendingCommands p none).1 := by
  have hfirst := (hp.ops p.first mem_cons_self).dbid
  rw [propagatePendingCommands]
  split
  · refine ⟨p.first.dbid,
      p.first.argv :: commandsOf (feedOps p.others (some p.first.dbid)).1, hfirst, ?_⟩
    rw [Pending.ops, feedOps]
    rw [flatMap_singles, commandsOf_append, commandsOf_append, commandsOf_feedSelect]
    rfl
  rename_i multiTs execTs _
  refine ⟨p.first.dbid, commandsOf ((feedOps p.ops (some p.first.dbid)).1 ++
    (execTs.map Piece.timestamp).toList), hfirst, ?_⟩
  rw [flatMap_append, flatMap_singles, commandsOf_feedSelect, flatMap_singleton]
  rfl

lemma StartsWithSelect.append {rs ss : List Record} (h : StartsWithSelect dbnum rs) :
    StartsWithSelect dbnum (rs ++ ss) := by
  obtain ⟨n, rest, hn, heq⟩ := h
  refine ⟨n, rest ++ ss.flatMap Record.commands, hn, ?_⟩
  rw [flatMap_append, heq]
  rfl

/-- What is loaded does not depend on the database selected before, also where only the
first records are loaded. -/
lemma StartsWithSelect.applied_eq (hmax : dbnum < 2 ^ 31) {rs ss : List Record}
    (h : StartsWithSelect dbnum (rs ++ ss)) (x : δ) (k k' : Nat) :
    (applied (call dbnum exec) rs (x, k)).1 = (applied (call dbnum exec) rs (x, k')).1 := by
  obtain ⟨n, rest, hn, heq⟩ := h
  rw [flatMap_append] at heq
  rw [applied, applied]
  cases hcommands : rs.flatMap Record.commands with
  | nil => rfl
  | cons argv rest' =>
    rw [hcommands] at heq
    obtain ⟨rfl, -⟩ := List.cons.inj heq
    rw [foldl_cons, foldl_cons, call_select hn hmax, call_select hn hmax]

/-! ## Validity -/

/-- The table of the loader, which has SELECT. -/
def loaderKnown (known : List Bytes → Bool) (argv : List Bytes) : Bool :=
  isSelect argv || known argv

lemma valid_timestamp {ts : Option Int} (h : ∀ t ∈ ts, llongMin ≤ t ∧ t ≤ llongMax) :
    ∀ p ∈ (ts.map Piece.timestamp).toList, p.Valid (loaderKnown known) := by
  intro p hp
  obtain ⟨t, ht, rfl⟩ := Option.map_eq_some_iff.mp (Option.mem_toList.mp hp)
  exact h t ht

lemma valid_select (known : List Bytes → Bool) {n : Nat} (hn : n < 2 ^ 31) :
    (Piece.command (selectArgv n)).Valid (loaderKnown known) := by
  have htwo : (selectArgv n).length < 2 ^ 31 := by
    rw [show (selectArgv n).length = 2 from rfl]
    decide
  refine ⟨⟨cons_ne_nil _ _, htwo, ?_⟩, ?_⟩
  · intro a ha
    rcases mem_cons.mp ha with rfl | ha
    · decide
    rw [mem_singleton.mp ha]
    have hlen := length_decimal_le (k := 9) (n := n) (by omega)
    have : (10 : Int) ≤ llongMax := by decide
    omega
  have hmulti : strcaseeq selectName multiName = false := by decide
  have hexec : strcaseeq selectName execName = false := by decide
  have hname : (selectArgv n).headD [] = selectName := rfl
  rw [lookupCommand, hname, hmulti, hexec, if_neg Bool.false_ne_true, if_neg Bool.false_ne_true,
    loaderKnown, isSelect_selectArgv, Bool.true_or, if_pos rfl]

lemma valid_feedSelect {ts : Option Int}
    (hts : ∀ t ∈ ts, llongMin ≤ t ∧ t ≤ llongMax) {dictid : Nat} (hdb : dictid < 2 ^ 31)
    (selectedDb : Option Nat) :
    ∀ p ∈ feedSelect ts dictid selectedDb, p.Valid (loaderKnown known) := by
  intro p hp
  rcases mem_append.mp hp with hp | hp
  · exact valid_timestamp hts p hp
  split at hp
  · cases hp
  rw [mem_singleton.mp hp]
  exact valid_select known hdb

lemma valid_feedOps (hmax : dbnum < 2 ^ 31) (ops : List Op)
    (hops : ∀ op ∈ ops, op.Valid dbnum known) : ∀ selectedDb : Option Nat,
      ∀ p ∈ (feedOps ops selectedDb).1, p.Valid (loaderKnown known) := by
  induction ops with
  | nil => exact nofun
  | cons op ops ih =>
    intro selectedDb p hp
    have hop := hops op mem_cons_self
    rcases mem_append.mp hp with hp | hp
    · rcases mem_append.mp hp with hp | hp
      · exact valid_feedSelect hop.ts (by have := hop.dbid; omega) _ p hp
      rw [mem_singleton.mp hp]
      exact ⟨hop.command, hop.found⟩
    · exact ih (forall_mem_cons.mp hops).2 _ p hp

lemma valid_propagate (hmax : dbnum < 2 ^ 31) (hp : p.Valid dbnum known) (selectedDb : Option Nat) :
    ∀ r ∈ (propagatePendingCommands p selectedDb).1, r.Valid (loaderKnown known) := by
  intro r hr
  rw [propagatePendingCommands] at hr
  split at hr
  · obtain ⟨q, hq, rfl⟩ := mem_map.mp hr
    exact valid_feedOps hmax p.ops hp.ops selectedDb q hq
  rename_i multiTs execTs hwrapped
  have htimes := hp.times _ hwrapped
  have hdb := (hp.ops p.first mem_cons_self).dbid
  rcases mem_append.mp hr with hr | hr
  · obtain ⟨q, hq, rfl⟩ := mem_map.mp hr
    exact valid_feedSelect htimes.1 (by omega) _ q hq
  rw [mem_singleton.mp hr]
  exact forall_mem_append.mpr ⟨valid_feedOps hmax p.ops hp.ops _, valid_timestamp htimes.2⟩

end

end Redis.Aof.Feed
