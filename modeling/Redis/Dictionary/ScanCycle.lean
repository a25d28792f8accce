import Redis.Dictionary.Scan

/-! # A scan of one table

While the dict has one table and is left alone, the cursor goes through all of its buckets in
the order of the reversed index and is back at zero after as many calls as there are
buckets. -/
namespace Redis.Dictionary.ScanCycle
open List Lib Lib.ReverseCursor
open Model Invariant Operations
open Scan

variable {K V : Type} {e : Nat}

/-- `n` calls of `dictScan`, each with the cursor the call before it returned: the last
cursor, and for each call its cursor and what it emitted. -/
def scanCalls (d : Dict K V) :
    Nat → BitVec 64 → Outcome (BitVec 64 × List (BitVec 64 × List (DictEntry K V)))
  | 0, v => .ok (v, [])
  | n + 1, v => do
    let (v', es) ← dictScan d v
    let (v'', calls) ← scanCalls d n v'
    .ok (v'', (v, es) :: calls)

def bucketIndex (e : Nat) (v : BitVec 64) : Nat := (v &&& dicthtSizeMask (some e)).toNat

lemma bucketIndex_lt (he : e < 64) (v : BitVec 64) : bucketIndex e v < 2 ^ e := by
  rw [bucketIndex, BitVec.toNat_and, dicthtSizeMask_toNat he, Nat.and_two_pow_sub_one_eq_mod]
  exact Nat.mod_lt _ (Nat.two_pow_pos e)

lemma dictScan_single {ty : DictType K} {d : Dict K V} {bs : List (Bucket K V)}
    (ha : Allocated ty d.ht0 bs e) (hidle : d.rehashidx = none) (hne : dictSize d ≠ 0)
    (v : BitVec 64) :
    dictScan d v = .ok (next (dicthtSizeMask (some e)) v, bs.getD (bucketIndex e v) []) := by
  have hre : dictIsRehashing d = false := by rw [dictIsRehashing, hidle]; rfl
  obtain ⟨b, hb, hload⟩ := ha.bucket (bucketIndex_lt ha.exp_lt v)
  have hload' : d.ht0.bucket (v &&& dicthtSizeMask (some e)).toNat = .ok b := hload
  rw [dictScan, if_neg hne, if_pos hre, ha.sizeExp]
  simp only [hload', Outcome.bind_ok, nextCursor_eq, getD_eq_getElem?_getD, hb,
    Option.getD_some]

lemma scanCalls_eq {ty : DictType K} {d : Dict K V} {bs : List (Bucket K V)}
    (ha : Allocated ty d.ht0 bs e) (hidle : d.rehashidx = none) (hne : dictSize d ≠ 0)
    (n : Nat) (v : BitVec 64) :
    scanCalls d n v = .ok ((next (dicthtSizeMask (some e)))^[n] v,
      (range n).map fun j => ((next (dicthtSizeMask (some e)))^[j] v,
        bs.getD (bucketIndex e ((next (dicthtSizeMask (some e)))^[j] v)) [])) := by
  induction n generalizing v with
  | zero => rfl
  | succ n ih =>
    rw [scanCalls, dictScan_single ha hidle hne]
    simp only [Outcome.bind_ok, ih, range_succ_eq_map, map_cons, map_map,
      Function.iterate_succ_apply, Function.iterate_zero_apply, Function.comp_def]

/-- The buckets read until the cursor is back are all buckets, each once. -/
lemma visited_perm (he : e < 64) : ((range (2 ^ e)).map fun j =>
      bucketIndex e ((next (dicthtSizeMask (some e)))^[j] 0)).Perm (range (2 ^ e)) := by
  have hk : e + (64 - e) = 64 := by omega
  have hm := dicthtSizeMask_toNat he
  have hnodup : ((range (2 ^ e)).map fun j =>
      bucketIndex e ((next (dicthtSizeMask (some e)))^[j] 0)).Nodup := by
    refine List.Nodup.map_on (fun i hi j hj hij => ?_) nodup_range
    rw [mem_range] at hi hj
    have hslot := order_div_eq hk hm (BitVec.eq_of_toNat_eq hij)
    rw [order_iterate hk hm hi, order_iterate hk hm hj,
      Nat.mul_div_cancel_left _ (Nat.two_pow_pos _), Nat.mul_div_cancel_left _ (Nat.two_pow_pos _)]
      at hslot
    exact hslot
  refine (subperm_of_subset hnodup ?_).perm_of_length_le (by simp)
  intro i hi
  obtain ⟨j, -, rfl⟩ := mem_map.mp hi
  exact mem_range.mpr (bucketIndex_lt he _)

lemma map_getD_range (bs : List (Bucket K V)) :
    (range bs.length).map (fun i => bs.getD i []) = bs := by
  refine ext_getElem (by simp) fun i h _ => ?_
  rw [length_map, length_range] at h
  simp [h]

/-- Started at zero, the cursor of a dict with entries is at zero again after exactly as many
calls as there are buckets. They read every bucket once and emit every entry once. Without
entries the first call returns zero. -/
theorem scan_cycle {ty : DictType K} {d : Dict K V} {e : Nat} (h : WellFormed ty d)
    (he : d.ht0.sizeExp = some e) (hidle : d.rehashidx = none) :
    (dictSize d = 0 → scanCalls d 1 0 = .ok (0, [(0, [])])) ∧
    (dictSize d ≠ 0 →
      (∀ n, 0 < n → n < 2 ^ e → ∃ v calls, scanCalls d n 0 = .ok (v, calls) ∧ v ≠ 0) ∧
      ∃ calls, scanCalls d (2 ^ e) 0 = .ok (0, calls) ∧
        (calls.map fun c => bucketIndex e c.1).Perm (range (2 ^ e)) ∧
        (calls.flatMap (·.2)).Perm (entries d) ∧ (entries d).Nodup) := by
  refine ⟨fun hz => ?_, fun hne => ?_⟩
  · rw [scanCalls, dictScan, if_pos hz]
    rfl
  have hreset : d.ht0 ≠ dictReset := by
    intro hr
    rw [hr] at he
    cases he
  obtain ⟨bs, e', ha⟩ := h.ok0.allocated hreset
  cases he.symm.trans ha.sizeExp
  have hk : e + (64 - e) = 64 := by
    have := ha.exp_lt
    omega
  have hm := dicthtSizeMask_toNat ha.exp_lt
  have hvisit := visited_perm ha.exp_lt
  refine ⟨fun n hpos hlt => ⟨_, _, scanCalls_eq ha hidle hne n 0, ?_⟩, _,
    (scanCalls_eq ha hidle hne _ 0).trans (by rw [iterate_next_slots hk hm]), ?_, ?_, ?_⟩
  · rw [Ne, ← order_eq_zero, order_iterate hk hm hlt]
    have := Nat.mul_pos (Nat.two_pow_pos (64 - e)) hpos
    omega
  · rw [map_map]
    exact hvisit
  · have hentries : entries d = bs.flatten := by
      rw [entries, h.idle hidle, ha.entries_eq]
      exact append_nil _
    have hbuckets := (hvisit.map fun i => bs.getD i []).flatten
    rw [← ha.length, map_getD_range, ha.length, map_map] at hbuckets
    rw [hentries, flatMap_def, map_map]
    exact hbuckets
  · exact List.Nodup.of_map _ h.nodup

theorem scan_cycle_sample : WellFormed sampleType sampleState.d ∧
    sampleState.d.ht0.sizeExp = some 2 ∧ sampleState.d.rehashidx = none ∧
    (dictSize sampleState.d ≠ 0 → ∃ calls, scanCalls sampleState.d (2 ^ 2) 0 = .ok (0, calls) ∧
        (calls.flatMap (·.2)).Perm (entries sampleState.d)) := by
  refine ⟨sampleState_wf, rfl, rfl, fun hne => ?_⟩
  obtain ⟨calls, hrun, -, hperm, -⟩ := ((scan_cycle sampleState_wf rfl rfl).2 hne).2
  exact ⟨calls, hrun, hperm⟩

/-- A dict whose only entry was deleted: a table of four buckets, all empty. -/
def emptied : Dict Bool Nat := ⟨⟨some [[], [], [], []], 0, some 2⟩, dictReset, none, 0⟩

theorem emptied_scan_is_shorter : WellFormed sampleType emptied ∧
    emptied.ht0.sizeExp = some 2 ∧ emptied.rehashidx = none ∧
    scanCalls emptied 1 0 = .ok (0, [(0, [])]) ∧ 1 < 2 ^ 2 := by
  have hwf : WellFormed sampleType emptied :=
    { ok0 := by
        refine .inr ⟨_, 2, rfl, rfl, by decide, rfl, fun i b hb x hx => ?_, rfl⟩
        have hnil : b = [] := by simpa using mem_of_getElem? hb
        rw [hnil] at hx
        cases hx
      ok1 := Or.inl rfl
      idle := fun _ => rfl
      rehashing := nofun
      nodup := by decide
      fits := by decide }
  exact ⟨hwf, rfl, rfl, rfl, by decide⟩

end Redis.Dictionary.ScanCycle
