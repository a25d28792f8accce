import Redis.Cluster.Slots

/-! # Which node serves a command

`getNodeByQuery` decides from the keys of a command, the slot tables and the flags of the client
whether the node executes the command, redirects the client or answers with an error. A slot
that is being moved is open on both sides: the node that gives it away counts the keys it still
has, and the one that receives it serves only clients that were sent to it. -/
namespace Redis.Cluster.Routing
open List Slots

/-- What is checked as one unit: the keys of a command, or the keys of each queued command of
a transaction. -/
inductive Request (κ : Type) where
  | command (keys : List κ)
  | exec (queued : List (List κ))
  /-- `EXEC` from a client that is not in `MULTI`, which only gets an error. -/
  | execWithoutMulti
  deriving DecidableEq, Repr

def Request.keys {κ : Type} : Request κ → List κ
  | command keys => keys
  | exec queued => queued.flatten
  | execWithoutMulti => []

/-- A command as it reaches a node, with the flags of the client that sends it. -/
structure Query (κ : Type) where
  request : Request κ
  isPubsubshard : Bool
  isMigrate : Bool
  isWrite : Bool
  /-- `CMD_WRITE` of some queued command of the transaction. -/
  queuedWrite : Bool
  /-- `CMD_ASKING`, which only `RESTORE-ASKING` has. -/
  cmdAsking : Bool
  clientAsking : Bool
  clientReadonly : Bool
  deriving DecidableEq, Repr

/-- What the decision reads of a node. -/
structure Server (ν κ : Type) where
  myself : ν
  slots : Slot → Option ν
  migratingTo : Slot → Option ν
  importingFrom : Slot → Option ν
  /-- The slave-of node, if the node is a replica. -/
  slaveof : Option ν
  stateOk : Bool
  allowReadsWhenDown : Bool
  allowPubsubshardWhenDown : Bool
  noRedirection : Bool
  /-- Whether a lookup finds the key, so that an expired key counts as absent. -/
  holds : κ → Bool

inductive Route (ν : Type) where
  /-- The node itself: the command is executed. -/
  | serve
  | ask (n : ν)
  | moved (n : ν)
  | crossSlot
  /-- `CLUSTER_REDIR_UNSTABLE`, answered with `TRYAGAIN`. -/
  | tryAgain
  | downUnbound
  | downState
  | downRoState
  deriving DecidableEq, Repr

/-- What the scan over the keys keeps, from the first key on. -/
structure Scan (ν κ : Type) where
  firstkey : κ
  slot : Slot
  n : ν
  migrating : Bool
  importing : Bool
  multipleKeys : Bool
  missingKeys : Nat
  existingKeys : Nat

variable {ν κ : Type} {q : Query κ} {ks : List κ} {slotOf : κ → Slot} {s : Server ν κ} {p : Bool}

/-- Keys are looked up only while the slot is open. -/
def Scan.count (s : Server ν κ) (isPubsubshard : Bool) (k : κ) (a : Scan ν κ) : Scan ν κ :=
  if (a.migrating || a.importing) && !isPubsubshard then
    if s.holds k then { a with existingKeys := a.existingKeys + 1 }
    else { a with missingKeys := a.missingKeys + 1 }
  else a

/-- The counts of a scan over `ks` after its first key. Only keys of an open slot count. -/
structure Scanned (s : Server ν κ) (slotOf : κ → Slot) (isPubsubshard : Bool) (ks : List κ)
    (a b : Scan ν κ) : Prop where
  firstkey : b.firstkey = a.firstkey
  slot : b.slot = a.slot
  n : b.n = a.n
  migrating : b.migrating = a.migrating
  importing : b.importing = a.importing
  sameSlot : ∀ k ∈ ks, k = a.firstkey ∨ slotOf k = a.slot
  multiple : b.multipleKeys = true ↔ a.multipleKeys = true ∨ ∃ k ∈ ks, k ≠ a.firstkey
  missing : ((a.migrating || a.importing) && !isPubsubshard) = true →
    (b.missingKeys = 0 ↔ a.missingKeys = 0 ∧ ∀ k ∈ ks, s.holds k = true)
  existing : ((a.migrating || a.importing) && !isPubsubshard) = true →
    (b.existingKeys = 0 ↔ a.existingKeys = 0 ∧ ∀ k ∈ ks, s.holds k = false)

section Counting
variable (s : Server ν κ) (p : Bool) (k : κ) (a : Scan ν κ)

lemma count_fields : (a.count s p k).firstkey = a.firstkey ∧ (a.count s p k).slot = a.slot ∧
    (a.count s p k).n = a.n ∧ (a.count s p k).migrating = a.migrating ∧
    (a.count s p k).importing = a.importing ∧
    (a.count s p k).multipleKeys = a.multipleKeys := by
  unfold Scan.count
  split
  · split <;> simp
  · simp

lemma count_missing (hopen : ((a.migrating || a.importing) && !p) = true) :
    (a.count s p k).missingKeys = 0 ↔ a.missingKeys = 0 ∧ s.holds k = true := by
  unfold Scan.count
  rw [if_pos hopen]
  split <;> simp_all

lemma count_existing (hopen : ((a.migrating || a.importing) && !p) = true) :
    (a.count s p k).existingKeys = 0 ↔ a.existingKeys = 0 ∧ s.holds k = false := by
  unfold Scan.count
  rw [if_pos hopen]
  split <;> simp_all

end Counting

lemma Scanned.cons {slotOf : κ → Slot} {k : κ} {ks : List κ}
    {a a' b : Scan ν κ} (hfirst : a'.firstkey = a.firstkey) (hslot : a'.slot = a.slot)
    (hn : a'.n = a.n) (hmig : a'.migrating = a.migrating) (himp : a'.importing = a.importing)
    (hmiss : a'.missingKeys = a.missingKeys) (hex : a'.existingKeys = a.existingKeys)
    (hk : k = a.firstkey ∨ slotOf k = a.slot)
    (hmult : a'.multipleKeys = true ↔ a.multipleKeys = true ∨ k ≠ a.firstkey)
    (h : Scanned s slotOf p ks (a'.count s p k) b) : Scanned s slotOf p (k :: ks) a b := by
  obtain ⟨cfirst, cslot, cn, cmig, cimp, cmult⟩ := count_fields s p k a'
  refine ⟨?_, ?_, ?_, ?_, ?_, ?_, ?_, ?_, ?_⟩
  · rw [h.firstkey, cfirst, hfirst]
  · rw [h.slot, cslot, hslot]
  · rw [h.n, cn, hn]
  · rw [h.migrating, cmig, hmig]
  · rw [h.importing, cimp, himp]
  · intro x hx
    rcases mem_cons.mp hx with rfl | hx
    · exact hk
    have hsame := h.sameSlot x hx
    rwa [cfirst, cslot, hfirst, hslot] at hsame
  · rw [h.multiple, cmult, hmult, cfirst, hfirst]
    simp [or_assoc]
  · intro hopen
    have hopen' : ((a'.migrating || a'.importing) && !p) = true := by rwa [hmig, himp]
    rw [h.missing (by rwa [cmig, cimp]), count_missing s p k a' hopen', hmiss]
    simp [and_assoc]
  · intro hopen
    have hopen' : ((a'.migrating || a'.importing) && !p) = true := by rwa [hmig, himp]
    rw [h.existing (by rwa [cmig, cimp]), count_existing s p k a' hopen', hex]
    simp [and_assoc]

/-- The answer of a cluster that is down, if it refuses the command. -/
def downRoute (s : Server ν κ) (q : Query κ) : Option (Route ν) :=
  if s.stateOk then none
  else if q.isPubsubshard then
    if s.allowPubsubshardWhenDown then none else some .downState
  else if !s.allowReadsWhenDown then some .downState
  else if q.isWrite then some .downRoState
  else none

lemma downRoute_some {r : Route ν} (h : downRoute s q = some r) :
    s.stateOk = false ∧ (r = .downState ∨ r = .downRoState) := by
  unfold downRoute at h
  cases hok : s.stateOk <;> simp only [hok, Bool.false_eq_true, if_false] at h
  · refine ⟨rfl, ?_⟩
    split at h
    · split at h <;> simp_all
    split at h
    · simp_all
    · split at h <;> simp_all
  · cases h

lemma Scanned.slot_eq {k : κ}
    {a b : Scan ν κ} (h : Scanned s slotOf p ks a b) (hfirst : a.firstkey = k)
    (hslot : a.slot = slotOf k) : ∀ x ∈ ks, slotOf x = slotOf k := by
  intro x hx
  rcases h.sameSlot x hx with heq | heq
  · rw [heq, hfirst]
  · rw [heq, hslot]

variable [DecidableEq κ]

/-- Every later key is the first one again or lies in the same slot. -/
def scanRest (s : Server ν κ) (slotOf : κ → Slot) (isPubsubshard : Bool) :
    List κ → Scan ν κ → Except (Route ν) (Scan ν κ)
  | [], a => .ok a
  | k :: ks, a =>
    if a.firstkey = k then scanRest s slotOf isPubsubshard ks (a.count s isPubsubshard k)
    else if a.slot ≠ slotOf k then .error .crossSlot
    else scanRest s slotOf isPubsubshard ks
      (Scan.count s isPubsubshard k { a with multipleKeys := true })

lemma scanRest_scanned : ∀ {ks : List κ} {a b : Scan ν κ}, scanRest s slotOf p ks a = .ok b →
      Scanned s slotOf p ks a b
  | [], a, b, h => by
    cases h
    exact ⟨rfl, rfl, rfl, rfl, rfl, by simp, by simp, by simp, by simp⟩
  | k :: ks, a, b, h => by
    unfold scanRest at h
    split at h
    · rename_i hfirst
      have hrest := scanRest_scanned h
      exact Scanned.cons rfl rfl rfl rfl rfl rfl rfl (.inl hfirst.symm) (by simp [hfirst]) hrest
    rename_i hfirst
    split at h
    · cases h
    rename_i hslot
    have hrest := scanRest_scanned h
    refine Scanned.cons ?_ ?_ ?_ ?_ ?_ ?_ ?_ (.inr (not_not.mp hslot).symm) ?_ hrest
    all_goals simp [Ne.symm hfirst]

lemma scanRest_error {e : Route ν} :
    ∀ {ks : List κ} {a : Scan ν κ}, scanRest s slotOf p ks a = .error e →
      e = .crossSlot ∧ ∃ k ∈ ks, slotOf k ≠ a.slot
  | k :: ks, a, h => by
    unfold scanRest at h
    split at h
    · obtain ⟨he, x, hx, hslot⟩ := scanRest_error h
      rw [(count_fields s p k a).2.1] at hslot
      exact ⟨he, x, mem_cons_of_mem k hx, hslot⟩
    split at h
    · rename_i hslot
      cases h
      exact ⟨rfl, k, mem_cons_self, Ne.symm hslot⟩
    obtain ⟨he, x, hx, hslot⟩ := scanRest_error h
    rw [(count_fields s p k _).2.1] at hslot
    exact ⟨he, x, mem_cons_of_mem k hx, hslot⟩

variable [DecidableEq ν] {slot : Slot} {target : ν}

/-- The first key selects the slot and its node. -/
def Scan.start (s : Server ν κ) (slotOf : κ → Slot) (k : κ) (n : ν) : Scan ν κ :=
  let slot := slotOf k
  let migrating := decide (n = s.myself) && (s.migratingTo slot).isSome
  { firstkey := k, slot, n, migrating
    importing := !migrating && (s.importingFrom slot).isSome
    multipleKeys := false, missingKeys := 0, existingKeys := 0 }

/-- The loop over the commands and their keys; `none` when there is no key at all. -/
def scanKeys (s : Server ν κ) (slotOf : κ → Slot) (isPubsubshard : Bool) :
    List κ → Except (Route ν) (Option (Scan ν κ))
  | [] => .ok none
  | k :: ks =>
    match s.slots (slotOf k) with
    | none => .error .downUnbound
    | some n =>
      (scanRest s slotOf isPubsubshard ks
        ((Scan.start s slotOf k n).count s isPubsubshard k)).map some

/-- The decision once the keys are known. -/
def decideRoute (s : Server ν κ) (q : Query κ) (a : Scan ν κ) : Route ν :=
  let isExec := match q.request with
    | .command _ => false
    | _ => true
  let isWriteCommand := q.isWrite || (isExec && q.queuedWrite)
  if (a.migrating || a.importing) && q.isMigrate then .serve
  else if a.migrating && decide (a.missingKeys ≠ 0) then
    if a.existingKeys ≠ 0 then .tryAgain
    else
      match s.migratingTo a.slot with
      | some n => .ask n
      -- The scan marks a slot as migrating only where the table has a target.
      | none => .downUnbound
  else if a.importing && (q.clientAsking || q.cmdAsking) then
    if a.multipleKeys && decide (a.missingKeys ≠ 0) then .tryAgain else .serve
  else if (q.clientReadonly || q.isPubsubshard) && !isWriteCommand &&
      decide (s.slaveof = some a.n) then .serve
  else if a.n = s.myself then .serve
  else .moved a.n

def getNodeByQuery (s : Server ν κ) (slotOf : κ → Slot) (q : Query κ) : Route ν :=
  if s.noRedirection then .serve
  else
    match q.request with
    | .execWithoutMulti => .serve
    | request =>
      match scanKeys s slotOf q.isPubsubshard request.keys with
      | .error e => e
      | .ok none => .serve
      | .ok (some a) => (downRoute s q).getD (decideRoute s q a)

/-! ## What a route says about the keys -/

lemma scanKeys_spec (s : Server ν κ) (slotOf : κ → Slot) (p : Bool) (ks : List κ) :
    match scanKeys s slotOf p ks with
    | .error e => (e = .downUnbound ∧ ∃ k ∈ ks, s.slots (slotOf k) = none) ∨
        (e = .crossSlot ∧ ∃ k ∈ ks, ∃ k' ∈ ks, slotOf k ≠ slotOf k')
    | .ok none => ks = []
    | .ok (some a) => ∃ k n, k ∈ ks ∧ s.slots (slotOf k) = some n ∧
        Scanned s slotOf p ks (Scan.start s slotOf k n) a := by
  cases ks with
  | nil => rfl
  | cons k ks =>
    simp only [scanKeys]
    cases hn : s.slots (slotOf k) with
    | none => exact .inl ⟨rfl, k, mem_cons_self, hn⟩
    | some n =>
      dsimp only
      cases hrest : scanRest s slotOf p ks ((Scan.start s slotOf k n).count s p k) with
      | error e =>
        obtain ⟨he, x, hx, hslot⟩ := scanRest_error hrest
        rw [(count_fields s p k _).2.1] at hslot
        exact .inr ⟨he, x, mem_cons_of_mem k hx, k, mem_cons_self, hslot⟩
      | ok b =>
        refine ⟨k, n, mem_cons_self, hn,
          Scanned.cons rfl rfl rfl rfl rfl rfl rfl (.inl rfl) ?_ (scanRest_scanned hrest)⟩
        simp [Scan.start]

/-- Everything the decision can be, with the scan it rests on. -/
lemma getNodeByQuery_cases (slotOf : κ → Slot) (q : Query κ)
    (hredirects : s.noRedirection = false) :
    (q.request.keys = [] ∧ getNodeByQuery s slotOf q = .serve) ∨
    (getNodeByQuery s slotOf q = .downUnbound ∧ ∃ k ∈ q.request.keys, s.slots (slotOf k) = none) ∨
    (getNodeByQuery s slotOf q = .crossSlot ∧
      ∃ k ∈ q.request.keys, ∃ k' ∈ q.request.keys, slotOf k ≠ slotOf k') ∨
    ∃ k n a, k ∈ q.request.keys ∧ s.slots (slotOf k) = some n ∧
      Scanned s slotOf q.isPubsubshard q.request.keys (Scan.start s slotOf k n) a ∧
      getNodeByQuery s slotOf q = (downRoute s q).getD (decideRoute s q a) := by
  have hscan : (q.request = .execWithoutMulti ∧ getNodeByQuery s slotOf q = .serve) ∨
      getNodeByQuery s slotOf q =
        match scanKeys s slotOf q.isPubsubshard q.request.keys with
        | .error e => e
        | .ok none => .serve
        | .ok (some a) => (downRoute s q).getD (decideRoute s q a) := by
    unfold getNodeByQuery
    rw [hredirects]
    cases hreq : q.request <;> simp
  rcases hscan with ⟨hreq, hserve⟩ | hroute
  · exact .inl ⟨by rw [hreq]; rfl, hserve⟩
  have hspec := scanKeys_spec s slotOf q.isPubsubshard q.request.keys
  generalize scanKeys s slotOf q.isPubsubshard q.request.keys = scan at hroute hspec
  cases scan with
  | error e =>
    rcases hspec with ⟨rfl, h⟩ | ⟨rfl, h⟩
    · exact .inr (.inl ⟨hroute, h⟩)
    · exact .inr (.inr (.inl ⟨hroute, h⟩))
  | ok a? =>
    cases a? with
    | none => exact .inl ⟨hspec, hroute⟩
    | some a =>
      obtain ⟨k, n, hk, hn, hscanned⟩ := hspec
      exact .inr (.inr (.inr ⟨k, n, a, hk, hn, hscanned, hroute⟩))

/-! ## The two nodes of a slot that moves -/

/-- The node that owns the slot and is `MIGRATING` it. -/
structure OpenSource (s : Server ν κ) (slot : Slot) (target : ν) : Prop where
  redirects : s.noRedirection = false
  owns : s.slots slot = some s.myself
  migrating : s.migratingTo slot = some target

/-- The master that is `IMPORTING` the slot. -/
structure OpenTarget (s : Server ν κ) (slot : Slot) (source : ν) : Prop where
  redirects : s.noRedirection = false
  isMaster : s.slaveof = none
  other : source ≠ s.myself
  owner : s.slots slot = some source
  importing : s.importingFrom slot = some source

/-- Refused for a key of another slot, or because the cluster is down. -/
def Refused (slotOf : κ → Slot) (q : Query κ) (slot : Slot) (s : Server ν κ) : Prop :=
  ((getNodeByQuery s slotOf q = .downUnbound ∨ getNodeByQuery s slotOf q = .crossSlot) ∧
    ∃ k ∈ q.request.keys, slotOf k ≠ slot) ∨
  ((getNodeByQuery s slotOf q = .downState ∨ getNodeByQuery s slotOf q = .downRoState) ∧
    s.stateOk = false)

/-- A command with a key of a slot that is bound to `n` is refused, or all its keys lie in the
slot and the counts of its scan decide. -/
lemma route_of_bound {n : ν} (hredirects : s.noRedirection = false) (hbound : s.slots slot = some n)
    (hkey : ∃ k ∈ q.request.keys, slotOf k = slot) :
    Refused slotOf q slot s ∨
    ∃ k a, slotOf k = slot ∧ (∀ x ∈ q.request.keys, slotOf x = slot) ∧
      Scanned s slotOf q.isPubsubshard q.request.keys (Scan.start s slotOf k n) a ∧
      getNodeByQuery s slotOf q = decideRoute s q a := by
  obtain ⟨x, hx, hxslot⟩ := hkey
  rcases getNodeByQuery_cases slotOf q hredirects with
    ⟨hnil, _⟩ | ⟨hroute, k, hk, hnone⟩ | ⟨hroute, k, hk, k', hk', hne⟩ |
      ⟨k, n', a, hk, hn, hscan, hroute⟩
  · rw [hnil] at hx
    cases hx
  · refine .inl (.inl ⟨.inl hroute, k, hk, ?_⟩)
    rintro rfl
    rw [hbound] at hnone
    cases hnone
  · refine .inl (.inl ⟨.inr hroute, ?_⟩)
    by_cases hkslot : slotOf k = slot
    · exact ⟨k', hk', fun h' => hne (hkslot.trans h'.symm)⟩
    · exact ⟨k, hk, hkslot⟩
  have hin : ∀ y ∈ q.request.keys, slotOf y = slotOf k := hscan.slot_eq rfl rfl
  have hslot : slotOf k = slot := by rw [← hxslot, hin x hx]
  obtain rfl : n = n' := by
    rw [hslot, hbound] at hn
    exact Option.some.inj hn
  cases hdown : downRoute s q with
  | some r =>
    rw [hdown] at hroute
    obtain ⟨hok, hr⟩ := downRoute_some hdown
    exact .inl (.inr ⟨by rwa [hroute], hok⟩)
  | none =>
    rw [hdown] at hroute
    exact .inr ⟨k, a, hslot, fun y hy => (hin y hy).trans hslot, hscan, hroute⟩

variable {s : Server ν κ} (hmigrate : q.isMigrate = false) (hshard : q.isPubsubshard = false)
  (hkey : ∃ k ∈ q.request.keys, slotOf k = slot)
include hmigrate hshard hkey

/-- What the owner of a moving slot answers to a command with a key of the slot: it executes
the command if it has all its keys, and sends the client on if it has none. -/
lemma OpenSource.route (h : OpenSource s slot target) : Refused slotOf q slot s ∨
    (getNodeByQuery s slotOf q = .serve ∧
      ∀ k ∈ q.request.keys, slotOf k = slot ∧ s.holds k = true) ∨
    (getNodeByQuery s slotOf q = .ask target ∧
      ∀ k ∈ q.request.keys, slotOf k = slot ∧ s.holds k = false) ∨
    getNodeByQuery s slotOf q = .tryAgain := by
  rcases route_of_bound h.redirects h.owns hkey with hrefused | ⟨k, a, hslot, hin, hscan, hroute⟩
  · exact .inl hrefused
  have hmig : a.migrating = true := by
    rw [hscan.migrating]
    simp [Scan.start, hslot, h.migrating]
  have himp : a.importing = false := by
    rw [hscan.importing]
    simp [Scan.start, hslot, h.migrating]
  have hcounted : ((a.migrating || a.importing) && !q.isPubsubshard) = true := by
    simp [hmig, hshard]
  rw [hscan.migrating, hscan.importing] at hcounted
  have hmissing := hscan.missing hcounted
  have hexisting := hscan.existing hcounted
  have haslot : s.migratingTo a.slot = some target := by
    rw [hscan.slot]
    simp [Scan.start, hslot, h.migrating]
  have hnode : a.n = s.myself := hscan.n
  unfold decideRoute at hroute
  simp only [hmig, himp, hmigrate, hnode, haslot, Bool.true_and,
    if_true, ite_self,
    decide_eq_true_eq] at hroute
  by_cases hm : a.missingKeys = 0
  · have hheld := (hmissing.mp hm).2
    rw [if_neg (not_not.mpr hm)] at hroute
    exact .inr (.inl ⟨hroute, fun y hy => ⟨hin y hy, hheld y hy⟩⟩)
  rw [if_pos hm] at hroute
  by_cases he : a.existingKeys = 0
  · have hgone := (hexisting.mp he).2
    rw [if_neg (not_not.mpr he)] at hroute
    exact .inr (.inr (.inl ⟨hroute, fun y hy => ⟨hin y hy, hgone y hy⟩⟩))
  rw [if_pos he] at hroute
  exact .inr (.inr (.inr hroute))

lemma OpenSource.of_serve (h : OpenSource s slot target)
    (hserve : getNodeByQuery s slotOf q = .serve) :
    ∀ k ∈ q.request.keys, slotOf k = slot ∧ s.holds k = true := by
  simpa [Refused, hserve] using h.route hmigrate hshard hkey

lemma OpenSource.of_ask {n : ν} (h : OpenSource s slot target)
    (hask : getNodeByQuery s slotOf q = .ask n) :
    ∀ k ∈ q.request.keys, slotOf k = slot ∧ s.holds k = false := by
  have hroute := h.route hmigrate hshard hkey
  simp only [Refused, hask, reduceCtorEq, false_and, false_or, or_false] at hroute
  exact hroute.2

/-- What the importing master answers to a command with a key of the slot: it executes only
what was sent to it with `ASKING`, and of several keys it must have all. -/
lemma OpenTarget.route {source : ν} (h : OpenTarget s slot source) : Refused slotOf q slot s ∨
    (getNodeByQuery s slotOf q = .serve ∧ (q.clientAsking || q.cmdAsking) = true ∧
      ((∀ k ∈ q.request.keys, ∀ k' ∈ q.request.keys, k = k') ∨
        ∀ k ∈ q.request.keys, s.holds k = true) ∧
      ∀ k ∈ q.request.keys, slotOf k = slot) ∨
    getNodeByQuery s slotOf q = .tryAgain ∨
    getNodeByQuery s slotOf q = .moved source := by
  rcases route_of_bound h.redirects h.owner hkey with hrefused | ⟨k, a, hslot, hin, hscan, hroute⟩
  · exact .inl hrefused
  have hmig : a.migrating = false := by
    rw [hscan.migrating]
    simp [Scan.start, h.other]
  have himp : a.importing = true := by
    rw [hscan.importing]
    simp [Scan.start, h.other, hslot, h.importing]
  have hcounted : ((a.migrating || a.importing) && !q.isPubsubshard) = true := by
    simp [himp, hshard]
  rw [hscan.migrating, hscan.importing] at hcounted
  have hmissing := hscan.missing hcounted
  have hnode : a.n = source := hscan.n
  unfold decideRoute at hroute
  simp only [hmig, himp, hmigrate, hnode, h.other, h.isMaster, reduceCtorEq, Bool.and_false,
    Bool.true_and, decide_false] at hroute
  by_cases hasking : (q.clientAsking || q.cmdAsking) = true
  · rw [if_pos hasking] at hroute
    by_cases htry : (a.multipleKeys && decide (a.missingKeys ≠ 0)) = true
    · rw [if_pos htry] at hroute
      exact .inr (.inr (.inl hroute))
    rw [if_neg htry] at hroute
    refine .inr (.inl ⟨hroute, hasking, ?_, hin⟩)
    by_cases hm : a.missingKeys = 0
    · exact .inr (hmissing.mp hm).2
    have hsingle : ¬ a.multipleKeys = true := by simpa [hm] using htry
    rw [hscan.multiple] at hsingle
    have hfirst : ∀ y ∈ q.request.keys, y = k := by
      intro y hy
      by_contra hne
      exact hsingle (.inr ⟨y, hy, hne⟩)
    exact .inl fun y hy y' hy' => (hfirst y hy).trans (hfirst y' hy').symm
  · rw [if_neg hasking] at hroute
    exact .inr (.inr (.inr hroute))

lemma OpenTarget.of_serve {source : ν} (h : OpenTarget s slot source)
    (hserve : getNodeByQuery s slotOf q = .serve) :
    (q.clientAsking || q.cmdAsking) = true ∧
      ((∀ k ∈ q.request.keys, ∀ k' ∈ q.request.keys, k = k') ∨
        ∀ k ∈ q.request.keys, s.holds k = true) ∧
      ∀ k ∈ q.request.keys, slotOf k = slot := by
  have hroute := h.route hmigrate hshard hkey
  simp only [Refused, hserve, reduceCtorEq, false_and, false_or, or_false, true_and] at hroute
  exact hroute

end Redis.Cluster.Routing
