import Redis.Blocked.Serving
import Redis.Lib.Runs

/-! # Wake-ups

A command or a transaction runs to its end, then the clients of the keys it has signalled are
served. A key is signalled where it is added to a database or where two databases are
swapped; a list that is put in the place of another value by `SORT` with `STORE` is not. -/
namespace Redis.Blocked.Wakeups
open List
open Lib Outcome Lib.Runs Model Invariant Serving

variable {δ κ ε γ : Type} {v : Value ε} {db : δ} {k : κ} {s : Server δ κ ε γ}

/-! ## Commands keep the ready keys covered -/

/-- Nothing is exempt between commands. -/
abbrev Fine (s : Server δ κ ε γ) : Prop := Inv [] (fun _ _ => False) s

/-- No client waits for a key that holds elements. -/
def NoLostWakeup (s : Server δ κ ε γ) : Prop :=
  ∀ db k xs, s.dict db k = some (.list xs) → xs ≠ [] → s.blockingKeys db k = []

lemma noLostWakeup_of_fine (h : Fine s) (hnil : s.readyKeys = []) : NoLostWakeup s := by
  intro db k xs hxs _
  by_contra hwait
  rcases h.covered db k xs hxs hwait with hmem | hfalse
  · rw [hnil] at hmem
    cases hmem
  · exact hfalse

lemma value_ne_nil (h : Fine s) (hv : s.dict db k = some v) : v ≠ .list [] := by
  rintro rfl
  exact h.lists db k [] hv rfl

lemma foldl_push_ne_nil (side : Side) :
    ∀ (xs ys : List ε), xs ≠ [] ∨ ys ≠ [] → xs.foldl (fun l x => listPush side x l) ys ≠ []
  | [], _, h => h.resolve_left (fun h => h rfl)
  | x :: xs, _, _ => foldl_push_ne_nil side xs _ (.inr (listPush_ne_nil side x _))

section Commands
variable [DecidableEq δ] [DecidableEq κ] {s : Server δ κ ε γ}

lemma dbAdd_fine (h : Fine s) (hnone : s.dict db k = none)
    (hv : v ≠ .list []) : ∃ t, dbAdd s db k v = .ok t ∧ Fine t := by
  unfold dbAdd
  rw [check_pos (by rw [hnone]; rfl)]
  refine ⟨_, rfl, ?_⟩
  cases hlist : v.isList with
  | true =>
    cases v with
    | list xs => exact h.create db k (fun hnil => hv (by rw [hnil])) rfl
    | _ => cases hlist
  | false =>
    have hquiet : signalKeyAsReady (setVal s db k (some v)) db k v = setVal s db k (some v) := by
      simp [signalKeyAsReady, hlist]
    rw [hquiet]
    exact h.setOther db k hlist

lemma dbDelete_dict (s : Server δ κ ε γ) (db : δ) (k : κ) :
    (dbDelete s db k).dict db k = none := setVal_dict_self s db k none

section
variable (h : Fine s)
include h

/-- A key is deleted, if it is there, before another value is added. -/
lemma replace_fine (db : δ) (k : κ) (hv : v ≠ .list []) :
    ∃ t, dbAdd (if (s.dict db k).isSome then dbDelete s db k else s) db k v = .ok t ∧ Fine t := by
  cases hd : s.dict db k with
  | none => exact dbAdd_fine h hd hv
  | some w => exact dbAdd_fine (h.delete db k) (dbDelete_dict s db k) hv

lemma push_fine (db : δ) (k : κ) (side : Side) (xx : Bool) (x : ε)
    (xs : List ε) : ∃ t, pushGenericCommand s db k side xx (x :: xs) = .ok t ∧ Fine t := by
  unfold pushGenericCommand
  cases hd : s.dict db k with
  | none =>
    cases xx with
    | true => exact ⟨s, rfl, h⟩
    | false =>
      unfold dbAdd
      simp only [hd]
      refine ⟨_, rfl, ?_⟩
      rw [← signal_setVal, setVal_setVal]
      exact h.create db k (foldl_push_ne_nil side _ _ (.inl (cons_ne_nil x xs))) rfl
  | some v =>
    cases v with
    | list ys =>
      exact ⟨_, rfl, h.replaceList hd (foldl_push_ne_nil side _ _ (.inl (cons_ne_nil x xs)))⟩
    | _ => exact ⟨s, rfl, h⟩

lemma popElements_fine {xs : List ε}
    (hxs : s.dict db k = some (.list xs)) (side : Side) (count : Option Nat) :
    ∃ t, popElements s db k side count = .ok t ∧ Fine t := by
  unfold popElements
  cases count with
  | none =>
    obtain ⟨x, rest, hpop, _⟩ := popOne_spec side hxs (h.lists db k xs hxs)
    simp only [hpop, bind_ok, deleteIfEmpty_setVal]
    exact ⟨_, rfl, storeList_inv h hxs rest⟩
  | some n =>
    simp only [listAt_eq hxs, deleteIfEmpty_setVal]
    exact ⟨_, rfl, storeList_inv h hxs _⟩

lemma pop_fine (db : δ) (k : κ) (side : Side) (count : Option Nat) :
    ∃ t, popGenericCommand s db k side count = .ok t ∧ Fine t := by
  unfold popGenericCommand
  split
  · rename_i xs hxs
    split
    · exact ⟨s, rfl, h⟩
    · exact popElements_fine h hxs side count
  · exact ⟨s, rfl, h⟩

/-- A move by command does what serving a client does. -/
lemma lmove_fine (db : δ) (src dst : κ) (wherefrom whereto : Side) :
    ∃ t, lmoveGenericCommand s db src dst wherefrom whereto = .ok t ∧ Fine t := by
  unfold lmoveGenericCommand
  split
  · rename_i xs hxs
    have hne := h.lists db src xs hxs
    obtain ⟨t, deleted, reply, hserve, hserves⟩ :=
      serve_serves (b := ⟨db, [], .move dst wherefrom whereto⟩) hxs hne (by simp)
    simp only [List.isEmpty_iff, hne, if_false]
    split
    · exact ⟨s, rfl, h⟩
    rename_i htype
    refine ⟨t, ?_, hserves.inv hxs h⟩
    simp only [serveClientBlockedOnList] at hserve
    rw [if_neg htype] at hserve
    obtain ⟨r, hpop, hserve⟩ := bind_eq_ok.mp hserve
    obtain ⟨s₁, hpush, hserve⟩ := bind_eq_ok.mp hserve
    obtain ⟨r', hdelete, hserve⟩ := bind_eq_ok.mp hserve
    cases hserve
    simp only [hpop, hpush, hdelete, bind_ok, pure_eq]
  · exact ⟨s, rfl, h⟩

lemma set_fine (db : δ) (k : κ) : ∃ t, setKey s db k .string = .ok t ∧ Fine t := by
  unfold setKey
  split
  · rename_i hsome
    unfold dbOverwrite
    rw [check_pos hsome]
    exact ⟨_, rfl, h.setOther db k rfl⟩
  rename_i hnone
  exact dbAdd_fine h (by simpa using hnone) (by simp)

lemma rename_fine (db : δ) (k newkey : κ) (nx : Bool) :
    ∃ t, renameGenericCommand s db k newkey nx = .ok t ∧ Fine t := by
  unfold renameGenericCommand
  split
  · exact ⟨s, rfl, h⟩
  rename_i o ho
  split
  · exact ⟨s, rfl, h⟩
  split
  · exact ⟨s, rfl, h⟩
  obtain ⟨t, hadd, ht⟩ := replace_fine h db newkey (value_ne_nil h ho)
  simp only [hadd]
  exact ⟨_, rfl, ht.delete db k⟩

lemma move_fine (db : δ) (k : κ) (dst : δ) : ∃ t, moveCommand s db k dst = .ok t ∧ Fine t := by
  unfold moveCommand
  split
  · exact ⟨s, rfl, h⟩
  split
  · exact ⟨s, rfl, h⟩
  rename_i o ho
  split
  · exact ⟨s, rfl, h⟩
  rename_i hnone
  obtain ⟨t, hadd, ht⟩ := dbAdd_fine h (by simpa using hnone) (value_ne_nil h ho)
  simp only [hadd]
  exact ⟨_, rfl, ht.delete db k⟩

lemma copy_fine (db : δ) (k : κ) (dst : δ) (newkey : κ) (replace : Bool) :
    ∃ t, copyCommand s db k dst newkey replace = .ok t ∧ Fine t := by
  unfold copyCommand
  split
  · exact ⟨s, rfl, h⟩
  split
  · exact ⟨s, rfl, h⟩
  rename_i o ho
  split
  · exact ⟨s, rfl, h⟩
  · exact replace_fine h dst newkey (value_ne_nil h ho)

lemma restore_fine (db : δ) (k : κ) (v : Value ε) (replace expired : Bool) :
    ∃ t, restoreCommand s db k v replace expired = .ok t ∧ Fine t := by
  unfold restoreCommand
  split
  · exact ⟨s, rfl, h⟩
  rename_i hfree
  split
  · exact ⟨s, rfl, h⟩
  rename_i hv
  cases replace with
  | true =>
    rw [if_pos rfl]
    split
    · exact ⟨_, rfl, h.delete db k⟩
    · exact dbAdd_fine (h.delete db k) (dbDelete_dict s db k) hv
  | false =>
    rw [if_neg Bool.false_ne_true]
    split
    · exact ⟨s, rfl, h⟩
    · exact dbAdd_fine h (by simpa using hfree) hv

end

/-- The one command that puts a list in the place of another value. -/
lemma sortStore_fine (h : Fine s) {storekey : κ} {output : List ε}
    (hsafe : output = [] ∨ s.dict db storekey = none ∨
      (∃ xs, s.dict db storekey = some (.list xs)) ∨
      s.blockingKeys db storekey = [] ∨ (db, storekey) ∈ s.readyKeys) :
    ∃ t, sortStore s db storekey output = .ok t ∧ Fine t := by
  unfold sortStore
  split
  · exact ⟨_, rfl, h.delete db storekey⟩
  rename_i hne
  have hne : output ≠ [] := by simpa using hne
  unfold setKey
  split
  · rename_i hsome
    unfold dbOverwrite
    rw [check_pos hsome]
    refine ⟨_, rfl, h.set db storekey _ ?_ ?_⟩
    · rintro xs ⟨⟩
      exact hne
    rintro xs ⟨⟩ hwait
    rcases hsafe with hnil | hnone | ⟨ys, hys⟩ | hnil | hmem
    · exact absurd hnil hne
    · rw [hnone] at hsome
      cases hsome
    · exact h.covered db storekey ys hys hwait
    · exact absurd hnil hwait
    · exact .inl hmem
  · rename_i hnone
    exact dbAdd_fine h (by simpa using hnone) (by simpa using hne)

/-- The scan signals the lists among the keys it is given. -/
lemma scan_inv {exempt : δ → κ → Prop} (db : δ) : ∀ (ks : List κ) (s : Server δ κ ε γ),
      Inv [] (fun db' k => exempt db' k ∨ (db' = db ∧ k ∈ ks)) s →
      Inv [] exempt (scanDatabaseForReadyKeys db ks s)
  | [], s, h => h.exempt_mono (by simp)
  | k :: ks, s, h => by
    have hsplit : Inv [] (fun db' k' => (exempt db' k' ∨ (db' = db ∧ k' ∈ ks)) ∨
        (db' = db ∧ k' = k)) s := by
      refine h.exempt_mono ?_
      rintro db' k' (hex | ⟨hdb, hk⟩)
      · exact .inl (.inl hex)
      rcases mem_cons.mp hk with rfl | hk
      · exact .inr ⟨hdb, rfl⟩
      · exact .inl (.inr ⟨hdb, hk⟩)
    rw [scanDatabaseForReadyKeys]
    split
    · rename_i v hv
      refine scan_inv db ks _ ?_
      cases hlist : v.isList with
      | true => exact hsplit.signal hlist
      | false =>
        have hquiet : signalKeyAsReady s db k v = s := by simp [signalKeyAsReady, hlist]
        rw [hquiet]
        refine hsplit.settled (.inl fun xs hxs => ?_)
        rw [hv, Option.some.injEq] at hxs
        rw [hxs] at hlist
        cases hlist
    · rename_i hnone
      exact scan_inv db ks s (hsplit.settled (.inl (by simp [hnone])))

lemma scan_same (db : δ) :
    ∀ (ks : List κ) (s : Server δ κ ε γ), SameClients s (scanDatabaseForReadyKeys db ks s)
  | [], s => SameClients.refl s
  | k :: ks, s => by
    rw [scanDatabaseForReadyKeys]
    split
    · exact (signal_same ..).trans (scan_same db ks _)
    · exact scan_same db ks s

omit [DecidableEq δ] in
lemma mem_iteratorOrder (entries order : List κ) (k : κ) :
    k ∈ iteratorOrder entries order ↔ k ∈ entries := by
  unfold iteratorOrder
  split
  · rename_i hperm
    exact (isPerm_iff.mp hperm).mem_iff
  · rfl

lemma swap_fine (h : Fine s) (db₁ db₂ : δ) (order₁ order₂ : List κ) :
    Fine (dbSwapDatabases s db₁ db₂ order₁ order₂) := by
  unfold dbSwapDatabases
  split
  · exact h
  -- After the swap every key of the two databases may hold a list that is not signalled.
  obtain ⟨s₁, hs₁⟩ : ∃ s₁, s₁ = { s with
      dict := Function.update (Function.update s.dict db₁ (s.dict db₂)) db₂ (s.dict db₁) } :=
    ⟨_, rfl⟩
  have hdict : ∀ db k, ∃ db', s₁.dict db k = s.dict db' k ∧ (db ≠ db₁ → db ≠ db₂ → db' = db) := by
    intro db k
    rw [hs₁]
    by_cases h₂ : db = db₂
    · subst h₂
      exact ⟨db₁, by simp, fun _ h => absurd rfl h⟩
    by_cases h₁ : db = db₁
    · subst h₁
      exact ⟨db₂, by simp [h₂], fun h => absurd rfl h⟩
    · exact ⟨db, by simp [h₁, h₂], fun _ _ => rfl⟩
  have hsame : SameClients s s₁ := by
    rw [hs₁]
    exact ⟨rfl, rfl, rfl, rfl, rfl⟩
  have hready : Ready [] s₁ := by
    rw [hs₁]
    exact ⟨h.ready.table, h.ready.nodup⟩
  have hmem₁ := mem_iteratorOrder (s₁.blockingEntries db₁) order₁
  have hinv : Inv [] (fun db k =>
      (db = db₂ ∧ k ∈ iteratorOrder (s₁.blockingEntries db₂) order₂) ∨
      (db = db₁ ∧ k ∈ iteratorOrder (s₁.blockingEntries db₁) order₁)) s₁ := by
    have hqueues := h.queues.same hsame
    refine ⟨hqueues, hready, ?_, ?_⟩
    · intro db k xs hxs
      obtain ⟨db', hdb', _⟩ := hdict db k
      exact h.lists db' k xs (hdb' ▸ hxs)
    intro db k xs hxs hwait
    have hentry := (hqueues.entries db k).mpr hwait
    by_cases h₁ : db = db₁
    · subst h₁
      exact .inr (.inr ⟨rfl, (hmem₁ k).mpr hentry⟩)
    by_cases h₂ : db = db₂
    · subst h₂
      exact .inr (.inl ⟨rfl, (mem_iteratorOrder _ _ k).mpr hentry⟩)
    obtain ⟨db', hdb', hkeep⟩ := hdict db k
    obtain rfl := hkeep h₁ h₂
    rw [hsame.blockingKeys] at hwait
    have hcov := h.covered db' k xs (hdb' ▸ hxs) hwait
    rw [hs₁]
    exact hcov.imp_right False.elim
  rw [← hs₁]
  refine scan_inv db₂ _ _ ?_
  rw [(scan_same db₁ _ s₁).blockingEntries]
  exact (scan_inv db₁ _ s₁ hinv).exempt_mono fun _ _ => .inr

lemma blockingPopLoop_fine (h : Fine s) (db : δ) (side : Side) (count : Option Nat) :
    ∀ ks : List κ, ∃ t?, blockingPopLoop s db side count ks = .ok t? ∧
      (∀ t, t? = some t → Fine t) ∧ (t? = none → ∀ k ∈ ks, s.dict db k = none)
  | [] => ⟨none, rfl, by simp, by simp⟩
  | k :: ks => by
    obtain ⟨t?, hok, hfine, hempty⟩ := blockingPopLoop_fine h db side count ks
    rw [blockingPopLoop]
    split
    · rename_i hnone
      refine ⟨t?, hok, hfine, ?_⟩
      intro hblock k' hk'
      rcases mem_cons.mp hk' with rfl | hk'
      · exact hnone
      · exact hempty hblock k' hk'
    · rename_i xs hxs
      have hne := h.lists db k xs hxs
      rw [if_neg (by simpa using hne)]
      obtain ⟨t, hpop, ht⟩ := popElements_fine h hxs side count
      rw [hpop]
      refine ⟨some t, rfl, ?_, by simp⟩
      rintro t' ⟨⟩
      exact ht
    · refine ⟨some s, rfl, ?_, by simp⟩
      rintro t' ⟨⟩
      exact h

variable [DecidableEq γ]

lemma blockingPop_fine (h : Fine s) (deny : Bool) {c : γ} (hc : s.bpop c = none) (db : δ)
    (k : κ) (ks : List κ) (side : Side) (count : Option Nat) :
    ∃ t, blockingPopGenericCommand s deny c db (k :: ks) side count = .ok t ∧ Fine t := by
  unfold blockingPopGenericCommand
  split
  · exact ⟨s, rfl, h⟩
  rename_i hcount
  obtain ⟨t?, hok, hfine, hempty⟩ := blockingPopLoop_fine h db side count (k :: ks)
  simp only [hok]
  cases t? with
  | some t => exact ⟨t, rfl, hfine t rfl⟩
  | none =>
    cases deny with
    | true => exact ⟨s, rfl, h⟩
    | false =>
      refine ⟨_, rfl, h.block hc db (cons_ne_nil k ks) _ ?_ ?_⟩
      · intro side' n hw
        cases count with
        | none => cases hw
        | some m =>
          cases hw
          exact Nat.pos_of_ne_zero fun hzero => hcount (by rw [hzero])
      intro k' hk' xs hxs
      rw [hempty rfl k' hk'] at hxs
      cases hxs

lemma blmove_fine (h : Fine s) (deny : Bool) {c : γ} (hc : s.bpop c = none) (db : δ)
    (src dst : κ) (wherefrom whereto : Side) :
    ∃ t, blmoveGenericCommand s deny c db src dst wherefrom whereto = .ok t ∧ Fine t := by
  unfold blmoveGenericCommand
  split
  · rename_i hnone
    cases deny with
    | true => exact ⟨s, rfl, h⟩
    | false =>
      refine ⟨_, rfl, h.block hc db (cons_ne_nil src []) _ (by simp) ?_⟩
      intro k hk xs hxs
      rw [mem_singleton.mp hk, hnone] at hxs
      cases hxs
  · rename_i xs hxs
    rw [check_pos (length_pos_iff.mpr (h.lists db src xs hxs))]
    exact lmove_fine h db src dst wherefrom whereto
  · exact ⟨s, rfl, h⟩

end Commands

/-! ## Runs -/

variable [DecidableEq δ] [DecidableEq κ] [DecidableEq γ]

/-- A blocked client sends no command that is read. -/
def exec (s : Server δ κ ε γ) (denyBlocking : Bool) : Command δ κ ε γ → Outcome (Server δ κ ε γ)
  | .push db k side xx x xs => pushGenericCommand s db k side xx (x :: xs)
  | .pop db k side count => popGenericCommand s db k side count
  | .lmove db src dst wherefrom whereto => lmoveGenericCommand s db src dst wherefrom whereto
  | .set db k => setKey s db k .string
  | .del db k => .ok (dbDelete s db k)
  | .rename db k newkey nx => renameGenericCommand s db k newkey nx
  | .move db k dst => moveCommand s db k dst
  | .copy db k dst newkey replace => copyCommand s db k dst newkey replace
  | .restore db k v replace expired => restoreCommand s db k v replace expired
  | .sortStore db storekey output => sortStore s db storekey output
  | .swapdb db₁ db₂ order₁ order₂ => .ok (dbSwapDatabases s db₁ db₂ order₁ order₂)
  | .blockingPop c db k ks side count =>
    if (s.bpop c).isSome then .ok s
    else blockingPopGenericCommand s denyBlocking c db (k :: ks) side count
  | .blmove c db src dst wherefrom whereto =>
    if (s.bpop c).isSome then .ok s
    else blmoveGenericCommand s denyBlocking c db src dst wherefrom whereto
  | .unblock c =>
    match s.bpop c with
    | none => .ok s
    | some b => unblockClient s c b

inductive Action (δ κ ε γ : Type) where
  | command (cmd : Command δ κ ε γ)
  | transaction (cmds : List (Command δ κ ε γ))

def execAll (denyBlocking : Bool) : List (Command δ κ ε γ) → Server δ κ ε γ →
    Outcome (Server δ κ ε γ)
  | [], s => .ok s
  | cmd :: cmds, s => do
    let s ← exec s denyBlocking cmd
    execAll denyBlocking cmds s

def Action.deny : Action δ κ ε γ → Bool
  | .command _ => false
  | .transaction _ => true

def Action.commands : Action δ κ ε γ → List (Command δ κ ε γ)
  | .command cmd => [cmd]
  | .transaction cmds => cmds

/-- A command or a transaction, and then the clients of the ready keys. -/
def act (s : Server δ κ ε γ) (a : Action δ κ ε γ) : Outcome (Server δ κ ε γ) := do
  let s ← execAll a.deny a.commands s
  if s.readyKeys = [] then return s else handleClientsBlockedOnKeys s

def step (s : Server δ κ ε γ) (a : Action δ κ ε γ) : Option (Server δ κ ε γ) := (act s a).toOption

/-- A sort stores elements over a value of another type only at a key that nobody waits for
or that is signalled already. -/
def StoresSafely (s : Server δ κ ε γ) : Command δ κ ε γ → Prop
  | .sortStore db storekey output =>
    output = [] ∨ s.dict db storekey = none ∨ (∃ xs, s.dict db storekey = some (.list xs)) ∨
      s.blockingKeys db storekey = [] ∨ (db, storekey) ∈ s.readyKeys
  | _ => True

/-- Every command of a transaction stores safely, in the state it is executed in. -/
def AllStoreSafely (denyBlocking : Bool) : List (Command δ κ ε γ) → Server δ κ ε γ → Prop
  | [], _ => True
  | cmd :: cmds, s => StoresSafely s cmd ∧
    ∀ s', exec s denyBlocking cmd = .ok s' → AllStoreSafely denyBlocking cmds s'

lemma exec_fine (h : Fine s) (deny : Bool) (cmd : Command δ κ ε γ)
    (hsafe : StoresSafely s cmd) : ∃ t, exec s deny cmd = .ok t ∧ Fine t := by
  cases cmd with
  | push db k side xx x xs => exact push_fine h db k side xx x xs
  | pop db k side count => exact pop_fine h db k side count
  | lmove db src dst wherefrom whereto => exact lmove_fine h db src dst wherefrom whereto
  | set db k => exact set_fine h db k
  | del db k => exact ⟨_, rfl, h.delete db k⟩
  | rename db k newkey nx => exact rename_fine h db k newkey nx
  | move db k dst => exact move_fine h db k dst
  | copy db k dst newkey replace => exact copy_fine h db k dst newkey replace
  | restore db k v replace expired => exact restore_fine h db k v replace expired
  | sortStore db storekey output => exact sortStore_fine h hsafe
  | swapdb db₁ db₂ order₁ order₂ => exact ⟨_, rfl, swap_fine h db₁ db₂ order₁ order₂⟩
  | blockingPop c db k ks side count =>
    simp only [exec]
    split
    · exact ⟨s, rfl, h⟩
    rename_i hfree
    exact blockingPop_fine h deny (by simpa using hfree) db k ks side count
  | blmove c db src dst wherefrom whereto =>
    simp only [exec]
    split
    · exact ⟨s, rfl, h⟩
    rename_i hfree
    exact blmove_fine h deny (by simpa using hfree) db src dst wherefrom whereto
  | unblock c =>
    simp only [exec]
    split
    · exact ⟨s, rfl, h⟩
    rename_i b hb
    obtain ⟨queues, hok, hqueues⟩ := unblockClient_spec h.queues hb
    exact ⟨_, hok, h.unblock hb hqueues⟩

lemma execAll_fine (deny : Bool) : ∀ (cmds : List (Command δ κ ε γ)) (s : Server δ κ ε γ), Fine s →
      AllStoreSafely deny cmds s → ∃ t, execAll deny cmds s = .ok t ∧ Fine t
  | [], s, h, _ => ⟨s, rfl, h⟩
  | cmd :: cmds, s, h, hsafe => by
    obtain ⟨s₁, hok, hfine⟩ := exec_fine h deny cmd hsafe.1
    obtain ⟨t, hrest, ht⟩ := execAll_fine deny cmds s₁ hfine (hsafe.2 s₁ hok)
    refine ⟨t, ?_, ht⟩
    rw [execAll, hok]
    exact hrest

/-- After a command or a transaction all ready keys have been served. -/
lemma act_fine (h : Fine s) (a : Action δ κ ε γ) (hsafe : AllStoreSafely a.deny a.commands s) :
    ∃ t, act s a = .ok t ∧ Fine t ∧ t.readyKeys = [] := by
  obtain ⟨s₁, hok, hfine⟩ := execAll_fine a.deny a.commands s h hsafe
  unfold act
  simp only [hok, bind_ok]
  split
  · rename_i hnil
    exact ⟨s₁, rfl, hfine, hnil⟩
  obtain ⟨t, hhandle, hinv, hnil, _⟩ :=
    handleRounds_spec (s₁.blockedLists + 1) s₁ hfine (Nat.lt_succ_self _)
  exact ⟨t, hhandle, hinv, hnil⟩

/-- In every history whose sorts store safely nobody waits for a key that holds elements
once a command or a transaction is over and the ready keys have been served. -/
theorem no_lost_wakeup (dict : δ → κ → Option (Value ε))
    (hlists : ∀ db k, dict db k ≠ some (.list [])) (as : List (Action δ κ ε γ))
    (hsafe : Along step (fun s a => AllStoreSafely a.deny a.commands s) as (start dict)) :
    ∃ t, run step as (start dict) = some t ∧ NoLostWakeup t := by
  have hrun : ∀ (as : List (Action δ κ ε γ)) (s : Server δ κ ε γ), Fine s → s.readyKeys = [] →
      Along step (fun s a => AllStoreSafely a.deny a.commands s) as s →
      ∃ t, run step as s = some t ∧ Fine t ∧ t.readyKeys = [] := by
    intro as
    induction as with
    | nil => exact fun s h hnil _ => ⟨s, rfl, h, hnil⟩
    | cons a as ih =>
      intro s h _ hsafe
      obtain ⟨s₁, hact, hfine, hnil⟩ := act_fine h a hsafe.1
      have hstep : step s a = some s₁ := by
        unfold step
        rw [hact]
        rfl
      obtain ⟨t, hrest, ht⟩ := ih s₁ hfine hnil (hsafe.2 s₁ hstep)
      exact ⟨t, by rw [run, hstep]; exact hrest, ht⟩
  obtain ⟨t, hok, hfine, hnil⟩ := hrun as _ (start_inv hlists) rfl hsafe
  exact ⟨t, hok, noLostWakeup_of_fine hfine hnil⟩

/-- The sort creates the key that the client waits for. -/
def wokenUp : List (Action Nat Nat Nat Nat) :=
  [.command (.push 0 7 .tail false 3 []), .command (.blockingPop 1 0 5 [] .head none),
    .command (.sortStore 0 5 [3])]

theorem no_lost_wakeup_wokenUp :
    ∃ t, run step wokenUp (start fun _ _ => none) = some t ∧ NoLostWakeup t := by
  refine no_lost_wakeup _ (by simp) wokenUp ⟨⟨trivial, fun _ _ => trivial⟩, ?_⟩
  intro s₁ h₁
  refine ⟨⟨trivial, fun _ _ => trivial⟩, ?_⟩
  intro s₂ h₂
  refine ⟨⟨.inr (.inl ?_), fun _ _ => trivial⟩, fun _ _ => trivial⟩
  cases h₁
  cases h₂
  rfl

/-- The client waits for a key, which then holds a string and after that the sorted list. -/
def overwritten : List (Action Nat Nat Nat Nat) :=
  [.command (.push 0 7 .tail false 3 []), .command (.blockingPop 1 0 5 [] .head none),
    .command (.set 0 5), .command (.sortStore 0 5 [3])]

theorem client_waits_for_sorted_list :
    ∃ t, run step overwritten (start fun _ _ => none) = some t ∧ ¬ NoLostWakeup t := by
  have hrun : (run step overwritten (start fun _ _ => none)).map
      (fun t => (t.dict 0 5, t.blockingKeys 0 5)) = some (some (.list [3]), [1]) := by
    decide
  obtain ⟨t, ht, hvalues⟩ := Option.map_eq_some_iff.mp hrun
  refine ⟨t, ht, ?_⟩
  obtain ⟨hlist, hqueue⟩ := Prod.mk.inj hvalues
  intro hnone
  rw [hnone 0 5 [3] hlist (by simp)] at hqueue
  cases hqueue

end Redis.Blocked.Wakeups
