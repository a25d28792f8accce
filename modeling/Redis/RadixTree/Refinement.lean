import Mathlib.Data.List.Nodup
import Redis.Lib.Simulation
import Redis.RadixTree.Removal

/-! # A radix tree is a finite map

The operations of rax.c on keys shorter than a node can be, and the same
operations on a map from byte strings to values. -/
namespace Redis.RadixTree.Refinement
open Function List Lib Lib.Simulation Model Entries
open Insertion Removal

variable {V : Type}

abbrev Key := { s : Bytes // s.length < raxNodeMaxSize }

inductive Op (V : Type) where
  | insert (key : Key) (data : Option V)
  | tryInsert (key : Key) (data : Option V)
  | remove (key : Key)
  | find (key : Key)

/-- The return value with `*old` when it is written, or what `raxFind`
returns. -/
inductive Reply (V : Type) where
  | code (ret : Bool) (old : Option (Option V))
  | value (data : Option (Option V))

def step : Op V → Rax V → Outcome (Rax V × Reply V)
  | .insert key data, t => do
    let (t, ret, old) ← raxInsert t key data
    .ok (t, .code ret old)
  | .tryInsert key data, t => do
    let (t, ret, old) ← raxTryInsert t key data
    .ok (t, .code ret old)
  | .remove key, t => do
    let (t, ret, old) ← raxRemove t key
    .ok (t, .code ret old)
  | .find key, t => do
    let data ← raxFind t key
    .ok (t, .value data)

/-- The value of each key; `some none` is a key stored with a null pointer. -/
abbrev Map (V : Type) := Bytes → Option (Option V)

def Map.apply : Op V → Map V → Map V × Reply V
  | .insert key data, m =>
    (update m key (some data), .code (m key).isNone (m key))
  | .tryInsert key data, m =>
    (if m key = none then update m key (some data) else m, .code (m key).isNone (m key))
  | .remove key, m => (update m key none, .code (m key).isSome (m key))
  | .find key, m => (m, .value (m key))

/-! ## Entries and maps -/

lemma nodup_keys {n : RaxNode V} (h : WellFormed n) : ((entries n).map Prod.fst).Nodup := by
  refine List.Pairwise.map _ (fun d e hde => ?_) h.sorted
  intro he
  rw [he] at hde
  exact List.lt_irrefl _ hde

lemma value_unique {n : RaxNode V} (h : WellFormed n) {k : Bytes} {v w : Option V}
    (hv : (k, v) ∈ entries n) (hw : (k, w) ∈ entries n) : v = w :=
  congrArg Prod.snd (inj_on_of_nodup_map (nodup_keys h) hv hw rfl)

/-- The map holds the entries of the tree. -/
def Stores (t : Rax V) (m : Map V) : Prop := ∀ k v, m k = some v ↔ (k, v) ∈ entries t.head

variable {m : Map V} {t : Rax V} {s : Bytes} {t' : Rax V}

lemma Stores.absent (h : Stores t m) {k : Bytes}
    (hn : ∀ v, (k, v) ∉ entries t.head) : m k = none := by
  cases hm : m k with
  | none => rfl
  | some v => exact absurd ((h k v).mp hm) (hn v)

lemma Stores.insert (h : Stores t m) {data : Option V} (hn : ∀ v, (s, v) ∉ entries t.head)
    (hp : (entries t'.head).Perm ((s, data) :: entries t.head)) :
    Stores t' (update m s (some data)) := by
  intro k v
  rw [hp.mem_iff, mem_cons, ← h k v]
  by_cases hk : k = s
  · subst hk
    rw [h.absent hn]
    simp [eq_comm]
  simp [hk]

lemma Stores.update (h : Stores t m) {old data : Option V}
    {a b : List (Entry V)} (hw' : WellFormed t'.head) (ho : entries t.head = a ++ (s, old) :: b)
    (hn : entries t'.head = a ++ (s, data) :: b) : Stores t' (update m s (some data)) := by
  intro k v
  by_cases hk : k = s
  · subst hk
    rw [update_self]
    have hmem : (k, data) ∈ entries t'.head := by
      rw [hn]
      exact mem_append_right _ mem_cons_self
    exact ⟨fun he => Option.some.inj he ▸ hmem, fun hv => by rw [value_unique hw' hv hmem]⟩
  · rw [update_of_ne hk, h k v, ho, hn]
    simp [hk]

lemma Stores.remove (h : Stores t m) {old : Option V}
    (hw : WellFormed t.head) (hp : (entries t.head).Perm ((s, old) :: entries t'.head)) :
    Stores t' (Function.update m s none) := by
  intro k v
  by_cases hk : k = s
  · subst hk
    rw [update_self]
    refine ⟨nofun, fun hv => ?_⟩
    have hnodup := (hp.map Prod.fst).nodup_iff.mp (nodup_keys hw)
    exact absurd (mem_map_of_mem hv) (nodup_cons.mp hnodup).1
  · rw [update_of_ne hk, h k v, hp.mem_iff]
    simp [hk]

/-! ## Steps and runs -/

def Related (t : Rax V) (m : Map V) : Prop := RaxOk t ∧ Stores t m

lemma related_new : Related (raxNew : Rax V) fun _ => none :=
  ⟨raxOk_new, fun _ _ => ⟨nofun, nofun⟩⟩

lemma Related.find (h : Related t m) (s : Bytes) : raxFind t s = .ok (m s) := by
  rcases raxFind_spec h.1 s with ⟨v, hv, hrun⟩ | ⟨hn, hrun⟩
  · rw [hrun, (h.2 s v).mpr hv]
  · rw [hrun, h.2.absent hn]

lemma insert_simulates (h : Related t m) (s : Bytes) (data : Option V) (overwrite : Bool) :
    ∃ t', raxGenericInsert t s data overwrite = .ok (t', (m s).isNone, m s) ∧
      Related t' (if overwrite ∨ m s = none then update m s (some data) else m) := by
  rcases raxGenericInsert_spec h.1 s data overwrite with
    ⟨a, b, old, t', ho, hrun, hok, hn⟩ | ⟨hn, t', hrun, hok, hp⟩
  · have hm : m s = some old := by
      refine (h.2 s old).mpr ?_
      rw [ho]
      exact mem_append_right _ mem_cons_self
    refine ⟨t', by rw [hrun, hm]; rfl, hok, ?_⟩
    cases overwrite with
    | true =>
      exact h.2.update hok.wf ho hn
    | false =>
      rw [if_neg (by rw [hm]; simp)]
      intro k v
      rw [h.2 k v, ho, hn]
      rfl
  · have hm := h.2.absent hn
    refine ⟨t', by rw [hrun, hm]; rfl, hok, ?_⟩
    rw [if_pos (.inr hm)]
    exact h.2.insert hn hp

def Short (m : Map V) : Prop := ∀ k v, m k = some v → k.length < raxNodeMaxSize

lemma Short.update (h : Short m) (key : Key) (v : Option (Option V)) : Short (update m key v) := by
  intro k w hk
  by_cases he : k = key
  · rw [he]
    exact key.2
  rw [update_of_ne he] at hk
  exact h k w hk

/-- A removal fails only when the tree has a key that is too long. -/
lemma remove_simulates (h : Related t m) (s : Bytes) :
    (∃ t', raxRemove t s = .ok (t', (m s).isSome, m s) ∧ Related t' (update m s none)) ∨
      (raxRemove t s = .error .bounds ∧ ¬ Short m) := by
  rcases raxRemove_spec h.1 s with
    ⟨old, hmem, ⟨t', hrun, hok, hp⟩ | ⟨hrun, e, he, hlong⟩⟩ | ⟨hn, hrun⟩
  · refine .inl ⟨t', ?_, hok, h.2.remove h.1.wf hp⟩
    rw [hrun, (h.2 s old).mpr hmem]
    rfl
  · exact .inr ⟨hrun, fun hs => Nat.not_lt.mpr hlong (hs e.1 e.2 ((h.2 e.1 e.2).mpr he))⟩
  have hm := h.2.absent hn
  refine .inl ⟨t, by rw [hrun, hm]; rfl, h.1, ?_⟩
  rw [← hm, update_eq_self]
  exact h.2

lemma step_simulates : StepSimulates (step (V := V)) Map.apply
    (fun _ t m => Related t m ∧ Short m) fun _ _ => False := by
  intro n op t m ⟨h, hshort⟩
  left
  cases op with
  | insert key data =>
    obtain ⟨t', hrun, hr⟩ := insert_simulates h key data true
    refine ⟨t', ?_, by simpa [Map.apply] using hr, hshort.update key _⟩
    rw [step, raxInsert, hrun]
    rfl
  | tryInsert key data =>
    obtain ⟨t', hrun, hr⟩ := insert_simulates h key data false
    refine ⟨t', ?_, by simpa [Map.apply] using hr, ?_⟩
    · rw [step, raxTryInsert, hrun]
      rfl
    rw [Map.apply]
    split
    · exact hshort.update key _
    · exact hshort
  | remove key =>
    rcases remove_simulates h key with ⟨t', hrun, hr⟩ | ⟨_, hlong⟩
    · refine ⟨t', ?_, hr, hshort.update key _⟩
      rw [step, hrun]
      rfl
    · exact absurd hshort hlong
  | find key =>
    refine ⟨t, ?_, h, hshort⟩
    rw [step, h.find]
    rfl

/-- What can be asked about a tree, in terms of the map. -/
structure Mirrors (t : Rax V) (m : Map V) : Prop where
  find : ∀ s, raxFind t s = .ok (m s)
  numele : ∃ keys : List Bytes, keys.Nodup ∧ (∀ k, k ∈ keys ↔ (m k).isSome) ∧ t.numele = keys.length
  numnodes : t.numnodes = t.head.nodes

lemma Related.mirrors (h : Related t m) : Mirrors t m := by
  refine ⟨h.find, ⟨(entries t.head).map Prod.fst, nodup_keys h.1.wf, fun k => ?_, ?_⟩, h.1.numnodes⟩
  · constructor
    · intro hk
      obtain ⟨⟨k', v⟩, hv, rfl⟩ := mem_map.mp hk
      rw [(h.2 k' v).mpr hv]
      rfl
    intro hk
    obtain ⟨v, hv⟩ := Option.isSome_iff_exists.mp hk
    exact mem_map.mpr ⟨(k, v), (h.2 k v).mp hv, rfl⟩
  · rw [length_map, h.1.numele]

/-- Every run returns, gives the replies of the map, and leaves a tree that
holds the map with exact counters. -/
theorem rax_refines_map (ops : List (Op V)) :
    ∃ t, run step ops raxNew = .ok (t, (specRun Map.apply ops fun _ => none).2) ∧
      Mirrors t (specRun Map.apply ops fun _ => none).1 := by
  have hstart : Related (raxNew : Rax V) (fun _ => none) ∧ Short (V := V) fun _ => none :=
    ⟨related_new, nofun⟩
  rcases run_simulates step_simulates ops 0 raxNew _ hstart with ⟨t, hrun, hr⟩ | ⟨_, _, _, _, hf⟩
  · exact ⟨t, hrun, hr.1.mirrors⟩
  · exact hf.elim

end Redis.RadixTree.Refinement
