import Redis.Dictionary.IteratorUser

/-! # A safe iterator returns every entry once

The entries an iterator still comes to are the rest of its walk. No entry it returned is in the
rest, and every entry that is in the dict all the time was returned or is in the rest. The steps
of the user keep both, because the migration is paused while `pauserehash` is not 0, which an
`int16_t` shows as long as fewer than 2^16 iterators are under way. -/
namespace Redis.Dictionary.SafeIterator
open List Lib Outcome Lib.ChainWalk
open Model Invariant Operations

variable {K V : Type}

/-- The entry at an address is in the dict. -/
def Live (w : World K V) (p : Address K) : Prop := p.key ∈ keys w.d ∧ w.gens p.key = p.gen

/-- A new iterator on a dict on which others may be under way. -/
structure Start (ty : DictType K) (w : World K V) : Prop where
  wf : WellFormed ty w.d
  it : w.it = dictGetSafeIterator
  returned : w.returned = []
  going : w.exhausted = false
  pause : w.d.pauserehash = int16 w.others

def Allowed (w : World K V) : Event K V → Prop
  | .next => w.exhausted = false
  | .otherReleased => 0 < w.others
  | _ => True

/-- With this iterator, fewer than 2^16 are under way. -/
def Counted (w : World K V) : Prop := w.others + 1 < 2 ^ 16

/-- The walk of an iterator at `c`, compared with what it returned. -/
structure Walks (w₀ w : World K V) [DecidableEq K] (c : Option (Cursor K)) : Prop where
  place : At w.d w.gens w.it c
  once : ∀ p ∈ w.returned, Live w p → p.key ∉ rest (chainKeys w.d) c
  all : ∀ p, Live w₀ p → Live w p → p ∈ w.returned ∨ p.key ∈ rest (chainKeys w.d) c

section Runs
variable [DecidableEq K] {ty : DictType K} {w w₀ : World K V}

structure Inv (ty : DictType K) (w₀ w : World K V) : Prop where
  wf : WellFormed ty w.d
  pause : w.d.pauserehash = int16 (w.others + if w.it.index = none then 0 else 1)
  gens : ∀ k, w₀.gens k ≤ w.gens k
  issued : ∀ p ∈ w.returned, p.gen ≤ w.gens p.key
  nodup : w.returned.Nodup
  start : w.it.index = none → w.returned = [] ∧ w.it.table = false
  going : w.exhausted = false → ∃ c, Walks w₀ w c
  done : w.exhausted = true → w.it.index ≠ none ∧ ∀ p, Live w₀ p → Live w p → p ∈ w.returned

lemma Start.inv (h : Start ty w) : Inv ty w w where
  wf := h.wf
  pause := by simpa [h.it, dictGetSafeIterator] using h.pause
  gens _ := le_rfl
  issued p hp := by simp [h.returned] at hp
  nodup := by simp [h.returned]
  start _ := ⟨h.returned, by rw [h.it]; rfl⟩
  going _ := ⟨none, h.it ▸ .fresh, fun p hp => by simp [h.returned] at hp, fun p _ hp => .inr hp.1⟩
  done hd := by rw [h.going] at hd; cases hd

/-! ## Steps of the user -/

lemma int16_ne_zero {n : Nat} (hpos : 0 < n) (h : n < 2 ^ 16) : int16 n ≠ 0 := by
  intro hz
  have hmod := @Int.bmod_emod n (2 ^ 16)
  rw [show Int.bmod n (2 ^ 16) = 0 from hz] at hmod
  omega

lemma Inv.paused (h : Inv ty w₀ w) (hc : Counted w)
    (hindex : w.it.index ≠ none) : w.d.pauserehash ≠ 0 := by
  rw [h.pause, if_neg hindex]
  exact int16_ne_zero (Nat.succ_pos _) hc

variable {gens' : Allocations K} {d' : Dict K V} {P : K → Prop} {d : Dict K V}

omit [DecidableEq K] in
lemma UserStep.live_before (h : UserStep ty P w.gens gens' w.d d')
    {p : Address K} (hgen : p.gen ≤ w.gens p.key) (hp : Live { w with d := d', gens := gens' } p) :
    ¬ P p.key ∧ Live w p := by
  have hP : ¬ P p.key := by
    intro hP
    have hlt := h.fresh p.key hP hp.1
    have heq : gens' p.key = p.gen := hp.2
    omega
  exact ⟨hP, (h.same p.key hP).mp hp.1, (h.gens_same p.key hP).symm.trans hp.2⟩

omit [DecidableEq K] in
lemma size0_ne_zero (h : WellFormed ty d) {t : Bool} {i : Nat}
    (hi : i < dicthtSize (d.ht t).sizeExp) : dicthtSize d.ht0.sizeExp ≠ 0 := by
  cases t with
  | false => exact Nat.ne_zero_of_lt hi
  | true =>
    obtain ⟨r, hr⟩ := Option.isSome_iff_exists.mp (rehashing_of_bucket h hi)
    obtain ⟨bs, e, ha⟩ := h.ok0.allocated (h.rehashing r hr).1
    rw [ha.sizeExp]
    exact Nat.ne_zero_of_lt (Nat.two_pow_pos e)

lemma Stands.user {gens : Allocations K} {it : DictIterator K} {c : Cursor K} {p : Address K}
    (hs : Stands d gens it c p) (h : WellFormed ty d) (hu : UserStep ty P gens gens' d d')
    (hsteady : Steady P d d') (hP : ∀ a, c.next = some a → ¬ P a) : Stands d' gens' it c p := by
  obtain ⟨i, hindex, hi, hchain⟩ := hs.index
  obtain ⟨hvalid, -⟩ := hsteady.change.rest hs.valid hP
  have hne := size0_ne_zero h hi
  have hchain' : c.chain = base d' it.table + i := by rw [hsteady.base hne, hchain]
  refine ⟨hs.entry, ⟨i, hindex, ?_, hchain'⟩, ?_, hvalid, hs.ne⟩
  · have hlt := hvalid.lt
    rw [hchain', length_chainKeys hu.wf] at hlt
    cases htable : it.table with
    | false =>
      rw [htable] at hi
      change i < dicthtSize d'.ht0.sizeExp
      rw [hsteady.size0 hne]
      exact hi
    | true =>
      rw [htable] at hlt
      exact Nat.lt_of_add_lt_add_left hlt
  · rw [hs.next]
    cases hn : c.next with
    | none => rfl
    | some a => simp only [Option.map_some, addressOf, hu.gens_same a (hP a hn)]

/-- A step of the user keeps the invariant, if it does not touch the next entry. -/
lemma Inv.user (h : Inv ty w₀ w) (hc : Counted w) (hu : UserStep ty P w.gens gens' w.d d')
    (hP : ∀ c p, Stands w.d w.gens w.it c p → ∀ a, c.next = some a → ¬ P a) :
    Inv ty w₀ { w with d := d', gens := gens' } where
  wf := hu.wf
  pause := hu.pause.trans h.pause
  gens k := Nat.le_trans (h.gens k) (hu.gens_le k)
  issued p hp := Nat.le_trans (h.issued p hp) (hu.gens_le p.key)
  nodup := h.nodup
  start := h.start
  going hgoing := by
    obtain ⟨c, hw⟩ := h.going hgoing
    have hplace := hw.place
    have hold : ∀ p, Live w₀ p → p.gen ≤ w.gens p.key := fun p hp => hp.2 ▸ h.gens p.key
    cases c with
    | none =>
      have hfresh : w.it = dictGetSafeIterator := hplace.eq_fresh
      have hnil : w.returned = [] := (h.start (by rw [hfresh]; rfl)).1
      refine ⟨none, ?_, fun p hp => ?_, fun p _ hp => .inr hp.1⟩
      · rw [hfresh]
        exact .fresh
      rw [hnil] at hp
      cases hp
    | some c =>
      obtain ⟨p, hs⟩ := hplace.exists_stands
      obtain ⟨i, hindex, -, -⟩ := hs.index
      have hsteady := hu.steady (h.paused hc (by rw [hindex]; exact Option.some_ne_none i))
      obtain ⟨-, hrest⟩ := hsteady.change.rest hs.valid (hP c p hs)
      refine ⟨some c, .stands (hs.user h.wf hu hsteady (hP c p hs)), fun q hq hlive => ?_,
        fun q hq₀ hlive => ?_⟩
      · obtain ⟨hPq, hbefore⟩ := hu.live_before (h.issued q hq) hlive
        rw [hrest q.key hPq]
        exact hw.once q hq hbefore
      obtain ⟨hPq, hbefore⟩ := hu.live_before (hold q hq₀) hlive
      rw [hrest q.key hPq]
      exact hw.all q hq₀ hbefore
  done hdone := by
    obtain ⟨hindex, hall⟩ := h.done hdone
    exact ⟨hindex, fun p hp₀ hlive =>
      hall p hp₀ (hu.live_before (hp₀.2 ▸ h.gens p.key) hlive).2⟩

/-! ## Steps of the iterators -/

lemma int16_add (m n : Int) : int16 (int16 m + n) = int16 (m + n) := Int.bmod_add_bmod

lemma pause_start (h : Inv ty w₀ w) :
    (startIteration w.d w.it).pauserehash = int16 (w.others + 1) := by
  unfold startIteration
  by_cases hindex : w.it.index = none
  · rw [if_pos ⟨hindex, (h.start hindex).2⟩, dictPauseRehashing, h.pause, if_pos hindex, int16_add,
      Int.add_zero]
  · rw [if_neg fun hn => hindex hn.1, h.pause, if_neg hindex]

omit [DecidableEq K] in
lemma wellFormed_start (h : WellFormed ty d)
    (it : DictIterator K) : WellFormed ty (startIteration d it) := by
  unfold startIteration
  split
  · exact wellFormed_pause h _
  · exact h

omit [DecidableEq K] in
lemma chainKeys_start (d : Dict K V) (it : DictIterator K) :
    chainKeys (startIteration d it) = chainKeys d := by
  unfold startIteration
  split <;> rfl

/-- What a step of the iterator does. -/
structure Advanced (w w' : World K V) : Prop where
  others : w'.others = w.others
  result : (w'.exhausted = true ∧ w'.returned = w.returned) ∨
    (w'.exhausted = false ∧ ∃ p, w'.returned = p :: w.returned ∧ Live w' p)

lemma Inv.next (h : Inv ty w₀ w) (hgoing : w.exhausted = false) :
    ∃ w', step ty w .next = .ok w' ∧ Inv ty w₀ w' ∧ Advanced w w' := by
  obtain ⟨c, hw⟩ := h.going hgoing
  have hlive : ∀ it returned exhausted p,
      Live ⟨startIteration w.d w.it, w.gens, it, w.others, returned, exhausted⟩ p ↔ Live w p := by
    intro it returned exhausted p
    simp only [Live, keys, chainKeys_start]
  have hnodup : (rest (chainKeys w.d) c).Nodup :=
    (rest_sublist _ c).nodup (flatten_chainKeys w.d ▸ h.wf.nodup)
  rcases dictNext_spec h.wf hw.place with ⟨it', hrun, hindex, hrest⟩ |
    ⟨it', c', p, hrun, hgen, hs, hrest⟩
  · refine ⟨⟨startIteration w.d w.it, w.gens, it', w.others, w.returned, true⟩, ?_, ?_, rfl,
      .inl ⟨rfl, rfl⟩⟩
    · simp only [step, hrun, bind_ok]
    refine ⟨wellFormed_start h.wf w.it, ?_, h.gens, h.issued, h.nodup,
      fun hn => absurd hn hindex, fun hn => Bool.noConfusion hn, fun _ => ⟨hindex, ?_⟩⟩
    · rw [pause_start h, if_neg hindex]
    intro q hq₀ hq
    have hall := hw.all q hq₀ ((hlive ..).mp hq)
    rw [hrest] at hall
    exact hall.resolve_right not_mem_nil
  have hmem : p.key ∈ rest (chainKeys w.d) c := by
    rw [hrest]
    exact mem_cons_self
  have hpl : Live w p := ⟨(rest_sublist _ c).subset hmem, hgen.symm⟩
  have hnew : p ∉ w.returned := fun hp => hw.once p hp hpl hmem
  obtain ⟨i, hindex, -, -⟩ := hs.index
  have hindex' : it'.index ≠ none := by
    rw [hindex]
    exact Option.some_ne_none i
  rw [hrest, nodup_cons] at hnodup
  refine ⟨⟨startIteration w.d w.it, w.gens, it', w.others, p :: w.returned, w.exhausted⟩, ?_, ?_,
    rfl, .inr ⟨hgoing, p, rfl, (hlive ..).mpr hpl⟩⟩
  · simp only [step, hrun, bind_ok]
  refine ⟨wellFormed_start h.wf w.it, ?_, h.gens, ?_, nodup_cons.mpr ⟨hnew, h.nodup⟩,
    fun hn => absurd hn hindex', fun _ => ⟨some c', .stands hs, ?_, ?_⟩, fun hn => ?_⟩
  · rw [pause_start h, if_neg hindex']
  · exact forall_mem_cons.mpr ⟨hgen.le, h.issued⟩
  · intro q hq hq'
    rw [chainKeys_start]
    rcases mem_cons.mp hq with rfl | hq
    · exact hnodup.1
    have hout := hw.once q hq ((hlive ..).mp hq')
    rw [hrest] at hout
    exact fun hin => hout (mem_cons_of_mem _ hin)
  · intro q hq₀ hq
    rw [chainKeys_start]
    rcases hw.all q hq₀ ((hlive ..).mp hq) with hr | hr
    · exact .inl (mem_cons_of_mem p hr)
    rw [hrest] at hr
    rcases mem_cons.mp hr with hk | hr
    · -- the entry in the dict at this key is the one returned
      obtain ⟨key, gen⟩ := q
      obtain ⟨key', gen'⟩ := p
      obtain rfl : key = key' := hk
      have heq : gen = gen' := ((hlive ..).mp hq).2.symm.trans hgen.symm
      exact .inl (heq ▸ mem_cons_self)
    · exact .inr hr
  · rw [hgoing] at hn
    cases hn

lemma Inv.recount (h : Inv ty w₀ w) {n : Int} {m : Nat}
    (hn : n = int16 (m + if w.it.index = none then 0 else 1)) :
    Inv ty w₀ { w with d := { w.d with pauserehash := n }, others := m } where
  wf := wellFormed_pause h.wf n
  pause := hn
  gens := h.gens
  issued := h.issued
  nodup := h.nodup
  start := h.start
  going hgoing := by
    obtain ⟨c, hplace, honce, hall⟩ := h.going hgoing
    refine ⟨c, ?_, honce, hall⟩
    cases c with
    | none =>
      have hfresh := hplace.eq_fresh
      rw [hfresh]
      exact .fresh
    | some c =>
      obtain ⟨p, hs⟩ := hplace.exists_stands
      exact .stands { hs with }
  done := h.done

/-! ## Whole runs -/

lemma next_not_added {gens : Allocations K} {it : DictIterator K} {key : K}
    {added : Bool} (hkey : added = true → key ∉ keys d) (c : Cursor K) (p : Address K)
    (hs : Stands d gens it c p) (a : K) (ha : c.next = some a) : ¬(added = true ∧ a = key) := by
  rintro ⟨hadded, rfl⟩
  exact hkey hadded ((rest_sublist _ _).subset (mem_rest_next hs.valid ha))

lemma Inv.adds (h : Inv ty w₀ w) (hc : Counted w) {key : K} {run : Outcome (Dict K V × Bool)}
    (hadds : Adds ty w.d key w.gens run) :
    let world := run >>= fun (d, added) => .ok { w with d, gens := allocate w.gens key added }
    (∃ w', world = .ok w' ∧ Inv ty w₀ w') ∨ (world = .error .memory ∧ Full w.d) := by
  rcases hadds with ⟨rfl, hfull⟩ | ⟨d', added, rfl, hkey, hu⟩
  · exact .inr ⟨rfl, hfull⟩
  · exact .inl ⟨_, rfl, h.user hc hu (next_not_added hkey)⟩

lemma Inv.grown (h : Inv ty w₀ w) (hc : Counted w) (hg : Grown w.d d') :
    Inv ty w₀ { w with d := d' } :=
  h.user hc (.kept (hg.kept h.wf) w.gens fun _ => steady_grown h.wf _ hg) fun _ _ _ _ _ => id

lemma Inv.step {ty : DictType K} {w₀ w : World K V} (h : Inv ty w₀ w) (hc : Counted w)
    {e : Event K V} (he : Allowed w e) :
    (∃ w', step ty w e = .ok w' ∧ Inv ty w₀ w') ∨ (step ty w e = .error .memory ∧ Full w.d) := by
  cases e with
  | next =>
    obtain ⟨w', hrun, hinv, -⟩ := h.next he
    exact .inl ⟨w', hrun, hinv⟩
  | add mode key val => exact h.adds hc (add_spec mode h.wf key val w.gens)
  | replace mode key val => exact h.adds hc (replace_spec mode h.wf key val w.gens)
  | find mode key =>
    obtain ⟨d', res, hrun, hu⟩ := find_spec mode h.wf key w.gens
    exact .inl ⟨_, by simp only [SafeIterator.step, hrun, bind_ok],
      h.user hc hu fun _ _ _ _ _ => id⟩
  | deleteReturned mode =>
    cases hentry : w.it.entry with
    | none => exact .inl ⟨w, by simp only [SafeIterator.step, hentry], h⟩
    | some p =>
      obtain ⟨d', deleted, hrun, hu⟩ := delete_spec mode h.wf p.key w.gens
      refine .inl ⟨_, by simp only [SafeIterator.step, hentry, hrun, bind_ok],
        h.user hc hu fun c q hs a ha hap => ?_⟩
      -- the next entry is another one than the entry just returned
      have hqp : q = p := Option.some.inj (hs.entry.symm.trans hentry)
      exact hs.ne (by rw [ha, hqp, hap])
  | expand size => exact .inl ⟨_, rfl, h.grown hc (grown_expandAlloc ..)⟩
  | tryExpand size allocated => exact .inl ⟨_, rfl, h.grown hc (grown_expandAlloc ..)⟩
  | resize mode => exact .inl ⟨_, rfl, h.grown hc (grown_resize ..)⟩
  | otherStarts =>
    refine .inl ⟨_, rfl, h.recount ?_⟩
    rw [h.pause, int16_add]
    congr 1
    omega
  | otherReleased =>
    have hpos : 0 < w.others := he
    refine .inl ⟨_, rfl, h.recount ?_⟩
    rw [h.pause, Int.sub_eq_add_neg, int16_add]
    congr 1
    omega

/-- The worlds of an iteration, as long as the iterators stay countable. -/
inductive Reaches (ty : DictType K) (w₀ : World K V) : World K V → Prop where
  | start : Reaches ty w₀ w₀
  | step {w w' e} : Reaches ty w₀ w → Counted w → Allowed w e → step ty w e = .ok w' →
      Reaches ty w₀ w'

lemma Reaches.inv (h₀ : Start ty w₀) (h : Reaches ty w₀ w) : Inv ty w₀ w := by
  induction h with
  | start => exact h₀.inv
  | step _ hc he hrun ih =>
    rcases ih.step hc he with ⟨w', hrun', hinv⟩ | ⟨hrun', -⟩
    · rw [hrun] at hrun'
      cases hrun'
      exact hinv
    rw [hrun] at hrun'
    cases hrun'

lemma Inv.release (h : Inv ty w₀ w) :
    (dictReleaseIterator w.d w.it).pauserehash = int16 w.others := by
  unfold dictReleaseIterator
  by_cases hindex : w.it.index = none
  · rw [if_pos ⟨hindex, (h.start hindex).2⟩, h.pause, if_pos hindex, Int.add_zero]
  rw [if_neg fun hn => hindex hn.1, dictResumeRehashing, h.pause, if_neg hindex,
    Int.sub_eq_add_neg, int16_add, Int.add_neg_cancel_right]

/-- Whatever its user does, a safe iterator that is at its end has returned every entry that was
in the dict all the time, each one once; what it returns is in the dict when it is returned; no
operation fails, but for an insertion that finds the address space full; and with the last safe
iterator released the migration goes on. -/
theorem safe_iteration {ty : DictType K} {w₀ w : World K V} (h₀ : Start ty w₀)
    (h : Reaches ty w₀ w) :
    w.returned.Nodup ∧
    (w.exhausted = true → ∀ p, Live w₀ p → Live w p → w.returned.count p = 1) ∧
    (Counted w → w.exhausted = false → ∃ w', step ty w .next = .ok w' ∧ Advanced w w') ∧
    (Counted w → ∀ e, Allowed w e →
      (∃ w', step ty w e = .ok w') ∨ (step ty w e = .error .memory ∧ Full w.d)) ∧
    (w.others = 0 → (dictReleaseIterator w.d w.it).pauserehash = 0) := by
  have hinv := h.inv h₀
  refine ⟨hinv.nodup, fun hdone p hp₀ hp => ?_, fun _ hgoing => ?_, fun hc e he => ?_, fun hz => ?_⟩
  · exact count_eq_one_of_mem hinv.nodup ((hinv.done hdone).2 p hp₀ hp)
  · obtain ⟨w', hrun, -, hadv⟩ := hinv.next hgoing
    exact ⟨w', hrun, hadv⟩
  · rcases hinv.step hc he with ⟨w', hrun, -⟩ | hfull
    · exact .inl ⟨w', hrun⟩
    · exact .inr hfull
  · rw [hinv.release, hz]
    rfl

end Runs

/-! ## A dict in migration -/

def natType : DictType Nat := ⟨fun k => BitVec.ofNat 64 k, none⟩

/-- The dict after the keys 0 to 4 were added: the last one started the migration. -/
def fiveKeys : Dict Nat Nat where
  ht0 := ⟨some [[⟨0, some 0⟩], [⟨1, some 0⟩], [⟨2, some 0⟩], [⟨3, some 0⟩]], 4, some 2⟩
  ht1 := ⟨some [[], [], [], [], [⟨4, some 0⟩], [], [], []], 1, some 3⟩
  rehashidx := some 0
  pauserehash := 0

lemma wellFormed_fiveKeys : WellFormed natType fiveKeys where
  ok0 := by
    refine .inr ⟨_, 2, rfl, rfl, by decide, rfl, fun i b hb x hx => ?_, rfl⟩
    rcases i with _ | _ | _ | _ | i <;> simp at hb <;> subst hb <;>
      (rcases mem_singleton.mp hx with rfl) <;> decide
  ok1 := by
    refine .inr ⟨_, 3, rfl, rfl, by decide, rfl, fun i b hb x hx => ?_, rfl⟩
    rcases i with _ | _ | _ | _ | _ | _ | _ | _ | i <;> simp at hb <;> subst hb <;> simp at hx
    subst hx
    decide
  idle h := by cases h
  rehashing r hr := by
    cases hr
    exact ⟨by decide, by decide, Nat.zero_le _, Buckets.emptyBetween_self _ 0⟩
  nodup := by decide
  fits := by decide

/-- A new iterator on the dict. -/
def opened : World Nat Nat := ⟨fiveKeys, fun _ => 1, dictGetSafeIterator, 0, [], false⟩

lemma start_opened : Start natType opened := ⟨wellFormed_fiveKeys, rfl, rfl, rfl, by decide⟩

/-- The lookup after the first entry does not move it into the table the walk comes to later. -/
theorem safe_iteration_with_lookup : Start natType opened ∧ ∃ w, Reaches natType opened w ∧
    w.returned.map Address.key = [4, 3, 2, 1, 0] ∧ w.returned.count ⟨0, 1⟩ = 1 ∧
    (dictReleaseIterator w.d w.it).pauserehash = 0 := by
  have go {w w'} (h : Reaches natType opened w) (e : Event Nat Nat) (hothers : w.others = 0)
      (he : Allowed w e) (hstep : step natType w e = .ok w') : Reaches natType opened w' :=
    .step h (by rw [Counted, hothers]; decide) he hstep
  have hone := go (go .start .next rfl rfl rfl) (.find .enable 1) rfl trivial rfl
  have hfour := go (go (go hone .next rfl rfl rfl) .next rfl rfl rfl) .next rfl rfl rfl
  have hend := go (go hfour .next rfl rfl rfl) .next rfl rfl rfl
  have hmain := safe_iteration start_opened hend
  exact ⟨start_opened, _, hend, rfl, hmain.2.1 rfl ⟨0, 1⟩ ⟨by decide, rfl⟩ ⟨by decide, rfl⟩,
    hmain.2.2.2.2 rfl⟩

end Redis.Dictionary.SafeIterator
