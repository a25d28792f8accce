import Mathlib.Data.List.Nodup
import Redis.Lib.Simulation
import Redis.Dictionary.Operations

/-! # A dict is a finite map

`Op` lists what a caller can do with a dict, including the changes of the resize mode and of
`pauserehash` that other parts of the server make at any time. `Map.apply` is the same on a map
from keys to stored values; migration and resizing are invisible in it. -/
namespace Redis.Dictionary.Refinement
open Function List Lib Outcome Lib.Simulation
open Model Invariant Operations

variable {K V : Type}

/-- A dict together with the global `dict_can_resize`. -/
structure State (K V : Type) where
  d : Dict K V
  mode : DictResizeEnable

inductive Op (K V : Type) where
  | add (key : K) (val : V)
  | addRaw (key : K)
  | replace (key : K) (val : V)
  | delete (key : K)
  | unlink (key : K)
  | find (key : K)
  | expand (size : Nat)
  | tryExpand (size : Nat) (allocated : Bool)
  | resize
  | rehash (n : Nat)
  | pause (pauserehash : Int)
  | mode (mode : DictResizeEnable)

/-- What the caller learns: whether a key was new or present, or the value
field of the entry it got. -/
inductive Reply (V : Type) where
  | done
  | flag (ok : Bool)
  | value (val : Option (Option V))

/-- The stored value of each key; `some none` is an entry of `dictAddRaw`
whose value was not set. -/
abbrev Map (K V : Type) := K → Option (Option V)

section Steps
variable [DecidableEq K] {d d' : Dict K V} {ty : DictType K} {m : Map K V} {key : K}

def step (ty : DictType K) : Op K V → State K V → Outcome (State K V × Reply V)
  | .add key val, s => do
    let (d, ok) ← dictAdd ty s.mode s.d key val
    .ok ({ s with d }, .flag ok)
  | .addRaw key, s => do
    let (d, entry, _) ← dictAddRaw ty s.mode s.d key
    .ok ({ s with d }, .flag entry.isSome)
  | .replace key val, s => do
    let (d, added) ← dictReplace ty s.mode s.d key val
    .ok ({ s with d }, .flag added)
  | .delete key, s => do
    let (d, ok) ← dictDelete ty s.mode s.d key
    .ok ({ s with d }, .flag ok)
  | .unlink key, s => do
    let (d, he) ← dictUnlink ty s.mode s.d key
    .ok ({ s with d }, .value (he.map DictEntry.val))
  | .find key, s => do
    let (d, he) ← dictFind ty s.mode s.d key
    .ok ({ s with d }, .value (he.map fun r => r.2.val))
  | .expand size, s => .ok ({ s with d := (dictExpand s.d size).1 }, .done)
  | .tryExpand size allocated, s => .ok ({ s with d := dictTryExpand s.d size allocated }, .done)
  | .resize, s => .ok ({ s with d := (dictResize s.mode s.d).1 }, .done)
  | .rehash n, s => do
    let (d, _) ← dictRehash ty s.mode s.d n
    .ok ({ s with d }, .done)
  | .pause p, s => .ok ({ s with d := { s.d with pauserehash := p } }, .done)
  | .mode m, s => .ok ({ s with mode := m }, .done)

def Map.apply : Op K V → Map K V → Map K V × Reply V
  | .add key val, m =>
    if m key = none then (update m key (some (some val)), .flag true)
    else (m, .flag false)
  | .addRaw key, m =>
    if m key = none then (update m key (some none), .flag true) else (m, .flag false)
  | .replace key val, m => (update m key (some (some val)), .flag (m key).isNone)
  | .delete key, m => (update m key none, .flag (m key).isSome)
  | .unlink key, m => (update m key none, .value (m key))
  | .find key, m => (m, .value (m key))
  | _, m => (m, .done)

/-- The dict holds exactly the pairs of the map. -/
def Stores (d : Dict K V) (m : Map K V) : Prop :=
  ∀ k v, m k = some v ↔ (⟨k, v⟩ : DictEntry K V) ∈ entries d

omit [DecidableEq K] in
lemma Stores.kept (h : Stores d m) (hk : Kept ty d d') : Stores d' m :=
  fun k v => (h k v).trans hk.perm.mem_iff.symm

omit [DecidableEq K] in
lemma Stores.absent (h : Stores d m) (hn : ∀ x ∈ entries d, x.key ≠ key) : m key = none := by
  cases hm : m key with
  | none => rfl
  | some v => exact absurd rfl (hn _ ((h key v).mp hm))

variable {he : DictEntry K V} {v : Option V} {n : Nat} {s : State K V}

omit [DecidableEq K] in
lemma Stores.present (h : Stores d m) (hm : he ∈ entries d) : m he.key = some he.val :=
  (h he.key he.val).mpr hm

lemma stores_find (h : WellFormed ty d) :
    Stores d fun k => ((entries d).find? fun x => x.key = k).map DictEntry.val := by
  intro k v
  constructor
  · intro hv
    obtain ⟨x, hx, rfl⟩ := Option.map_eq_some_iff.mp hv
    have hk : x.key = k := by simpa using find?_some hx
    subst hk
    exact mem_of_find?_eq_some hx
  intro hm
  cases hf : (entries d).find? fun x => x.key = k with
  | none => exact absurd hm fun hm => by simpa using find?_eq_none.mp hf _ hm
  | some x =>
    have hk : x.key = k := by simpa using find?_some hf
    have hx := mem_of_find?_eq_some hf
    simp only [hf, Option.map_some, inj_on_of_nodup_map h.nodup hx hm hk]

lemma Stores.insert {rest} (h : ∀ k v, m k = some v ↔ (⟨k, v⟩ : DictEntry K V) ∈ rest)
    (hn : m key = none) (hp : (entries d).Perm (⟨key, v⟩ :: rest)) :
    Stores d (update m key (some v)) := by
  intro k w
  rw [hp.mem_iff, mem_cons, ← h k w]
  by_cases hk : k = key
  · subst hk
    rw [hn]
    simp [eq_comm]
  simp [hk]

lemma Stores.remove (h : Stores d m) (hnd : ((entries d).map DictEntry.key).Nodup) {rest}
    (hp : (entries d).Perm (he :: rest)) (k : K) (w : Option V) :
    update m he.key none k = some w ↔ (⟨k, w⟩ : DictEntry K V) ∈ rest := by
  have hnd' := nodup_cons.mp ((hp.map DictEntry.key).nodup_iff.mp hnd)
  by_cases hk : k = he.key
  · subst hk
    rw [update_self]
    simp only [reduceCtorEq, false_iff]
    exact fun hm => hnd'.1 (mem_map.mpr ⟨_, hm, rfl⟩)
  rw [update_of_ne hk, h k w, hp.mem_iff, mem_cons]
  refine ⟨fun hm => hm.resolve_left fun he' => hk (by rw [← he']), Or.inr⟩

lemma Stores.assign (h : Stores d m) (hnd : ((entries d).map DictEntry.key).Nodup)
    {rest} (hp : (entries d).Perm (he :: rest)) (hp' : (entries d').Perm (⟨he.key, v⟩ :: rest)) :
    Stores d' (update m he.key (some v)) := by
  have hs := Stores.insert (h.remove hnd hp) (update_self ..) hp'
  rwa [update_idem] at hs

/-! ## One step -/

/-- The state after `n` operations: well formed, storing the map, and with no
more entries than operations. -/
structure Related (ty : DictType K) (n : Nat) (s : State K V) (m : Map K V) : Prop where
  wf : WellFormed ty s.d
  stores : Stores s.d m
  length : (entries s.d).length ≤ n

/-- The one fault: the entries of `n` insertions fill the address space. -/
def OutOfMemory (n : Nat) (f : Fault) : Prop := f = .memory ∧ 2 ^ 64 ≤ (n + 1) * sizeofDictEntry

omit [DecidableEq K] in
lemma Related.kept (h : Related ty n s m) (hk : Kept ty s.d d') :
    Related ty (n + 1) { s with d := d' } m :=
  ⟨hk.wf, h.stores.kept hk, by rw [hk.perm.length_eq]; exact Nat.le_succ_of_le h.length⟩

lemma Related.insert (h : Related ty n s m) (hw : WellFormed ty d')
    (hn : ∀ x ∈ entries s.d, x.key ≠ key) (hp : (entries d').Perm (⟨key, v⟩ :: entries s.d)) :
    Related ty (n + 1) { s with d := d' } (update m key (some v)) :=
  ⟨hw, .insert h.stores (h.stores.absent hn) hp, by rw [hp.length_eq]; exact Nat.succ_le_succ h.length⟩

omit [DecidableEq K] in
lemma outOfMemory
    (h : Related ty n s m) (hf : 2 ^ 64 ≤ ((entries s.d).length + 1) * sizeofDictEntry) :
    OutOfMemory n .memory :=
  ⟨rfl, hf.trans (Nat.mul_le_mul_right _ (Nat.succ_le_succ h.length))⟩

lemma Related.assign (h : Related ty n s m) {ref} (hp : PointsTo s.d ref he) (v : V) :
    ∃ d', dictSetVal s.d ref v = .ok d' ∧
      Related ty n { s with d := d' } (update m he.key (some (some v))) := by
  obtain ⟨d', rest, hrun, hw, h1, h2, _⟩ := dictSetVal_spec h.wf hp v
  refine ⟨d', hrun, hw, h.stores.assign h.wf.nodup h1 h2, le_trans (le_of_eq ?_) h.length⟩
  rw [h1.length_eq, h2.length_eq]
  rfl

/-- One operation replies as the map does, or is out of memory. -/
def Simulates (ty : DictType K) (n : Nat) (s : State K V) (m : Map K V) (op : Op K V) : Prop :=
  (∃ s', step ty op s = .ok (s', (Map.apply op m).2) ∧
    Related ty (n + 1) s' (Map.apply op m).1) ∨
  (∃ f, step ty op s = .error f ∧ OutOfMemory n f)

section
variable (h : Related ty n s m)
include h

/-- What `dictAddRaw` does: an error, a new entry, or an entry that was there. -/
lemma dictAddRaw_related (key : K) :
    (dictAddRaw ty s.mode s.d key = .error .memory ∧ OutOfMemory n .memory) ∨
    (∃ d' ref, dictAddRaw ty s.mode s.d key = .ok (d', some ref, none) ∧ m key = none ∧
      Related ty (n + 1) { s with d := d' } (update m key (some none)) ∧
      PointsTo d' ref ⟨key, none⟩) ∨
    (∃ d' ref he, dictAddRaw ty s.mode s.d key = .ok (d', none, some ref) ∧ m key = some he.val ∧
      Related ty (n + 1) { s with d := d' } m ∧ PointsTo d' ref he ∧ he.key = key) := by
  rcases dictAddRaw_spec s.mode h.wf key with ⟨hr, hf⟩ | ⟨d', ref, hr, hw, hn, hp, hpt, _⟩ |
    ⟨d', ref, he, hr, hk, hpt, rfl⟩
  · exact .inl ⟨hr, outOfMemory h hf⟩
  · exact .inr (.inl ⟨d', ref, hr, h.stores.absent hn, h.insert hw hn hp, hpt⟩)
  · exact .inr (.inr ⟨d', ref, he, hr, (h.stores.kept hk).present hpt.mem, h.kept hk, hpt, rfl⟩)

lemma step_addRaw (key : K) : Simulates ty n s m (.addRaw key) := by
  unfold Simulates
  rcases dictAddRaw_related h key with ⟨hr, hf⟩ | ⟨d', ref, hr, hm, hrel, _⟩ |
    ⟨d', ref, he, hr, hm, hrel, _⟩
  · exact .inr ⟨_, by simp only [step, hr, bind_error], hf⟩
  · simp only [step, hr, Map.apply, hm]
    exact .inl ⟨_, rfl, hrel⟩
  · simp only [step, hr, Map.apply, hm]
    exact .inl ⟨_, rfl, hrel⟩

lemma step_add (key : K) (val : V) : Simulates ty n s m (.add key val) := by
  unfold Simulates
  rcases dictAddRaw_related h key with ⟨hr, hf⟩ | ⟨d', ref, hr, hm, hrel, hpt⟩ |
    ⟨d', ref, he, hr, hm, hrel, _⟩
  · exact .inr ⟨_, by simp only [step, dictAdd, hr, bind_error], hf⟩
  · obtain ⟨d'', hset, hrel'⟩ := hrel.assign hpt val
    simp only [step, dictAdd, hr, hset, bind_ok, Map.apply, hm]
    rw [update_idem] at hrel'
    exact .inl ⟨_, rfl, hrel'⟩
  · simp only [step, dictAdd, hr, Map.apply, hm]
    exact .inl ⟨_, rfl, hrel⟩

lemma step_replace (key : K) (val : V) : Simulates ty n s m (.replace key val) := by
  unfold Simulates
  rcases dictAddRaw_related h key with ⟨hr, hf⟩ | ⟨d', ref, hr, hm, hrel, hpt⟩ |
    ⟨d', ref, he, hr, hm, hrel, hpt, rfl⟩
  · exact .inr ⟨_, by simp only [step, dictReplace, hr, bind_error], hf⟩
  · obtain ⟨d'', hset, hrel'⟩ := hrel.assign hpt val
    simp only [step, dictReplace, hr, hset, bind_ok, Map.apply, hm]
    rw [update_idem] at hrel'
    exact .inl ⟨_, rfl, hrel'⟩
  · obtain ⟨d'', hset, hrel'⟩ := hrel.assign hpt val
    simp only [step, dictReplace, hr, hset, bind_ok, Map.apply, hm]
    exact .inl ⟨_, rfl, hrel'⟩

lemma Related.remove (hw : WellFormed ty d') (hp : (entries s.d).Perm (he :: entries d')) :
    Related ty (n + 1) { s with d := d' } (update m he.key none) := by
  refine ⟨hw, h.stores.remove h.wf.nodup hp, ?_⟩
  have := h.length
  rw [hp.length_eq, length_cons] at this
  dsimp only
  omega

/-- `dictDelete` and `dictUnlink` are one search with different replies. -/
lemma dictGenericDelete_related (key : K) :
    ∃ d' he, dictGenericDelete ty s.mode s.d key = .ok (d', he) ∧ he.map DictEntry.val = m key ∧
      Related ty (n + 1) { s with d := d' } (update m key none) := by
  rcases dictGenericDelete_spec s.mode h.wf key with ⟨d', hr, hk, hn⟩ | ⟨d', he, hr, hw, rfl, hp, _⟩
  · have hm := h.stores.absent hn
    refine ⟨d', none, hr, hm.symm, ?_⟩
    rw [← hm, update_eq_self]
    exact h.kept hk
  refine ⟨d', some he, hr, ?_, h.remove hw hp⟩
  exact (h.stores.present (hp.mem_iff.mpr mem_cons_self)).symm

lemma step_delete (key : K) : Simulates ty n s m (.delete key) := by
  obtain ⟨d', he, hr, hv, hrel⟩ := dictGenericDelete_related h key
  refine .inl ⟨{ s with d := d' }, ?_, hrel⟩
  simp only [step, dictDelete, hr, bind_ok, Map.apply, ← hv, Option.isSome_map]

lemma step_unlink (key : K) : Simulates ty n s m (.unlink key) := by
  obtain ⟨d', he, hr, hv, hrel⟩ := dictGenericDelete_related h key
  refine .inl ⟨{ s with d := d' }, ?_, hrel⟩
  simp only [step, dictUnlink, hr, bind_ok, Map.apply, hv]

lemma step_find (key : K) : Simulates ty n s m (.find key) := by
  obtain ⟨d', res, hr, hk, hres⟩ := dictFind_spec s.mode h.wf key
  refine .inl ⟨{ s with d := d' }, ?_, h.kept hk⟩
  simp only [step, hr, Map.apply]
  cases res with
  | none => rw [h.stores.absent hres]; rfl
  | some r =>
    obtain ⟨hp, rfl⟩ := hres
    rw [(h.stores.kept hk).present hp.mem]
    rfl

end

omit [DecidableEq K] in
/-- Nothing in the invariant reads `pauserehash`. -/
lemma Related.pause (h : Related ty n s m) (p : Int) :
    Related ty (n + 1) { s with d := { s.d with pauserehash := p } } m :=
  ⟨{ h.wf with }, h.stores, Nat.le_succ_of_le h.length⟩

lemma step_simulates (ty : DictType K) :
    StepSimulates (step (V := V) ty) Map.apply (Related ty) OutOfMemory := by
  intro n op s m h
  cases op with
  | add key val => exact step_add h key val
  | addRaw key => exact step_addRaw h key
  | replace key val => exact step_replace h key val
  | delete key => exact step_delete h key
  | unlink key => exact step_unlink h key
  | find key => exact step_find h key
  | expand size => exact .inl ⟨_, rfl, h.kept ((grown_expandAlloc ..).kept h.wf)⟩
  | tryExpand size allocated =>
    exact .inl ⟨_, rfl, h.kept ((grown_expandAlloc ..).kept h.wf)⟩
  | resize => exact .inl ⟨_, rfl, h.kept ((grown_resize ..).kept h.wf)⟩
  | rehash k =>
    obtain ⟨d', b, hr, hk⟩ := dictRehash_spec s.mode h.wf k
    exact .inl ⟨{ s with d := d' }, by simp only [step, hr]; rfl, h.kept hk⟩
  | pause p => exact .inl ⟨_, rfl, h.pause p⟩
  | mode md => exact .inl ⟨_, rfl, h.wf, h.stores, Nat.le_succ_of_le h.length⟩

/-! ## Whole runs -/

omit [DecidableEq K] in
lemma related_create (ty : DictType K) (mode : DictResizeEnable) :
    Related (V := V) ty 0 ⟨dictCreate, mode⟩ fun _ => none where
  wf :=
    { ok0 := Or.inl rfl
      ok1 := Or.inl rfl
      idle := fun _ => rfl
      rehashing := nofun
      nodup := nodup_nil
      fits := show 0 * 24 < 2 ^ 64 by decide }
  stores := fun k v => by simp [entries, tableEntries, dictCreate, dictReset]
  length := Nat.le_refl 0

/-- Any sequence of operations on a new dict replies as the map does and ends
in a well formed dict storing that map. The only way not to return is to insert
so many entries that they fill the address space. -/
theorem dict_refines_map (ty : DictType K) (mode : DictResizeEnable) (ops : List (Op K V)) :
    (∃ s, run (step ty) ops ⟨dictCreate, mode⟩ = .ok (s, (specRun Map.apply ops fun _ => none).2) ∧
      WellFormed ty s.d ∧ Stores s.d (specRun Map.apply ops fun _ => none).1) ∨
    (run (step ty) ops ⟨dictCreate, mode⟩ = .error .memory ∧
      2 ^ 64 ≤ ops.length * sizeofDictEntry) := by
  rcases run_simulates (step_simulates ty) ops 0 _ _ (related_create ty mode) with
    ⟨s, hr, hrel⟩ | ⟨k, f, hk, hr, rfl, hf⟩
  · exact .inl ⟨s, hr, hrel.wf, hrel.stores⟩
  refine .inr ⟨hr, hf.trans (Nat.mul_le_mul_right _ ?_)⟩
  omega

end Steps

end Redis.Dictionary.Refinement
