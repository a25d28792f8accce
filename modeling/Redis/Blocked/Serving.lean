import Redis.Blocked.Invariant
import Mathlib.Algebra.BigOperators.Group.Finset.Basic
import Mathlib.Tactic.Abel

/-! # Serving the clients of the ready keys

Serving a client takes elements off one list and may put one on another, whose key is then
signalled in its turn. Every served client leaves the queues, so the cascade ends. -/
namespace Redis.Blocked.Serving
open List Lib Outcome Model Invariant
open scoped List

variable {δ κ ε γ : Type} {db : δ} {k : κ} {s : Server δ κ ε γ} {xs : List ε}

/-! ## Elements -/

def contents : Option (Value ε) → Multiset ε
  | some (.list xs) => (xs : Multiset ε)
  | _ => 0

/-- The elements of the lists at the given keys. -/
def elements (K : Finset (δ × κ)) (s : Server δ κ ε γ) : Multiset ε :=
  ∑ p ∈ K, contents (s.dict p.1 p.2)

/-- The elements that a reply takes out of the lists. A moved element stays in one. -/
def handed : Reply κ ε → Multiset ε
  | .popped _ xs => (xs : Multiset ε)
  | _ => 0

def allHanded (s : Server δ κ ε γ) : Multiset ε := (s.served.map (fun e => handed e.reply)).sum

/-- The keys hold all that the blocked clients can touch. -/
def Touches (K : Finset (δ × κ)) (s : Server δ κ ε γ) : Prop := ∀ c b, s.bpop c = some b →
    (∀ k ∈ b.keys, (b.db, k) ∈ K) ∧ ∀ t f w, b.wait = .move t f w → (b.db, t) ∈ K

lemma listPop_spec (side : Side) (hxs : xs ≠ []) :
    ∃ x rest, listPop side xs = some (x, rest) ∧ (xs : Multiset ε) = x ::ₘ (rest : Multiset ε) := by
  cases xs with
  | nil => exact absurd rfl hxs
  | cons y ys =>
    cases side with
    | head => exact ⟨y, ys, rfl, rfl⟩
    | tail =>
      refine ⟨_, _, rfl, ?_⟩
      rw [Multiset.cons_coe, Multiset.coe_eq_coe]
      calc y :: ys
          = (y :: ys).dropLast ++ [(y :: ys).getLast (cons_ne_nil y ys)] :=
            (dropLast_append_getLast (cons_ne_nil y ys)).symm
        _ ~ _ := perm_append_singleton _ _

lemma listPush_coe (side : Side) (x : ε) (ys : List ε) :
    (listPush side x ys : Multiset ε) = x ::ₘ (ys : Multiset ε) := by
  cases side with
  | head => rfl
  | tail => exact Multiset.coe_eq_coe.mpr (perm_append_singleton x ys)

lemma listPush_ne_nil (side : Side) (x : ε) (ys : List ε) : listPush side x ys ≠ [] := by
  cases side <;> simp [listPush]

lemma listPopRange_coe (side : Side) (n : Nat) (xs : List ε) :
    ((listPopRange side n xs).1 : Multiset ε) + ((listPopRange side n xs).2 : Multiset ε) = xs := by
  cases side with
  | head => simp [listPopRange]
  | tail =>
    simp only [Multiset.coe_add, Multiset.coe_eq_coe]
    calc (xs.drop (xs.length - n)).reverse ++ xs.take (xs.length - n)
        ~ xs.drop (xs.length - n) ++ xs.take (xs.length - n) := (reverse_perm _).append_right _
      _ ~ xs.take (xs.length - n) ++ xs.drop (xs.length - n) := perm_append_comm
      _ = xs := take_append_drop _ _

/-- The value a list leaves in the database. -/
def storeList (xs : List ε) : Option (Value ε) := if xs.isEmpty then none else some (.list xs)

@[simp] lemma contents_storeList (xs : List ε) : contents (storeList xs) = (xs : Multiset ε) := by
  cases xs <;> rfl

lemma listAt_eq (h : s.dict db k = some (.list xs)) : listAt s db k = .ok xs := by
  unfold listAt
  rw [h]

variable [DecidableEq δ] [DecidableEq κ] {K : Finset (δ × κ)}

lemma elements_setVal (hK : (db, k) ∈ K) (v : Option (Value ε)) :
    elements K (setVal s db k v) + contents (s.dict db k) = elements K s + contents v := by
  have hrest : ∑ p ∈ K.erase (db, k), contents ((setVal s db k v).dict p.1 p.2) =
      ∑ p ∈ K.erase (db, k), contents (s.dict p.1 p.2) := by
    refine Finset.sum_congr rfl fun p hp => ?_
    have hne := Finset.ne_of_mem_erase hp
    simp only [setVal, set₂_apply]
    rw [if_neg fun heq => hne (Prod.ext heq.1 heq.2)]
  unfold elements
  rw [← Finset.add_sum_erase K _ hK, hrest,
    ← Finset.add_sum_erase K (fun p => contents (s.dict p.1 p.2)) hK]
  simp only [setVal, set₂_self]
  abel

lemma setVal_setVal (s : Server δ κ ε γ) (db : δ) (k : κ) (v w : Option (Value ε)) :
    setVal (setVal s db k v) db k w = setVal s db k w := by
  simp [setVal]

lemma setVal_comm (s : Server δ κ ε γ) (db : δ) {k' : κ} (hne : k' ≠ k) (v w : Option (Value ε)) :
    setVal (setVal s db k v) db k' w = setVal (setVal s db k' w) db k v := by
  have hdict : set₂ (set₂ s.dict db k v) db k' w = set₂ (set₂ s.dict db k' w) db k v := by
    funext d j
    simp only [set₂_apply]
    by_cases hd : d = db
    · by_cases hj : j = k'
      · simp [hj, hne]
      · simp [hj]
    · simp [hd]
  simp only [setVal, hdict]

lemma signal_setVal (s : Server δ κ ε γ) (db db' : δ) (k k' : κ) (v : Value ε)
    (w : Option (Value ε)) :
    signalKeyAsReady (setVal s db' k' w) db k v = setVal (signalKeyAsReady s db k v) db' k' w := by
  unfold signalKeyAsReady
  by_cases hquiet : v.isList = false ∨ s.blockedLists = 0 ∨ s.blockingKeys db k = [] ∨
      s.dbReadyKeys db k = true
  · rcases hquiet with h | h | h | h <;> simp [setVal, h]
  simp only [not_or] at hquiet
  obtain ⟨h₁, h₂, h₃, h₄⟩ := hquiet
  simp [setVal, h₁, h₂, h₃, h₄]

/-! ## What serving one client does -/

/-- The outcomes of serving the client `b` on a key of its database that holds `xs`. -/
inductive Serves (s : Server δ κ ε γ) (b : Bpop δ κ) (key : κ) (xs : List ε) :
    Server δ κ ε γ → Bool → Reply κ ε → Prop where
  | popped (ys rest : List ε) (hall : (ys : Multiset ε) + (rest : Multiset ε) = xs) :
    Serves s b key xs (setVal s b.db key (storeList rest)) rest.isEmpty (.popped key ys)
  /-- The destination holds a value of another type. -/
  | refused : Serves s b key xs s false .wrongType
  | rotated (x : ε) (zs : List ε) (hall : (zs : Multiset ε) = xs) (hne : zs ≠ []) :
    Serves s b key xs (setVal s b.db key (some (.list zs))) false (.moved x)
  | pushed (x : ε) (target : κ) (from? to? : Side) (rest ys zs : List ε)
    (hwait : b.wait = .move target from? to?) (htarget : target ≠ key)
    (hys : s.dict b.db target = some (.list ys)) (hne : zs ≠ [])
    (hzs : (zs : Multiset ε) = x ::ₘ (ys : Multiset ε))
    (hall : x ::ₘ (rest : Multiset ε) = xs) :
    Serves s b key xs (setVal (setVal s b.db target (some (.list zs))) b.db key (storeList rest))
      rest.isEmpty (.moved x)
  /-- The destination comes into being and is signalled. -/
  | created (x : ε) (target : κ) (from? to? : Side) (rest : List ε)
    (hwait : b.wait = .move target from? to?) (htarget : target ≠ key)
    (hnone : s.dict b.db target = none) (hall : x ::ₘ (rest : Multiset ε) = xs) :
    Serves s b key xs
      (setVal (signalKeyAsReady (setVal s b.db target (some (.list [x]))) b.db target (.list []))
        b.db key (storeList rest))
      rest.isEmpty (.moved x)

lemma setVal_eq_self {v : Option (Value ε)} (h : s.dict db k = v) : setVal s db k v = s := by
  have hdict : set₂ s.dict db k v = s.dict := by
    funext db' k'
    rw [set₂_apply]
    split
    · rename_i heq
      rw [heq.1, heq.2, h]
    · rfl
  simp only [setVal, hdict]

lemma deleteIfEmpty_eq (h : s.dict db k = some (.list xs)) :
    deleteIfEmpty s db db k = .ok (setVal s db k (storeList xs), xs.isEmpty) := by
  unfold deleteIfEmpty
  rw [listAt_eq h]
  cases xs with
  | nil => rfl
  | cons x xs =>
    have hself : setVal s db k (storeList (x :: xs)) = s := setVal_eq_self h
    rw [hself]
    rfl

lemma popOne_spec (side : Side) (h : s.dict db k = some (.list xs)) (hxs : xs ≠ []) :
    ∃ x rest, popOne s db k side = .ok (x, setVal s db k (some (.list rest))) ∧
      x ::ₘ (rest : Multiset ε) = xs := by
  obtain ⟨x, rest, hpop, hall⟩ := listPop_spec side hxs
  refine ⟨x, rest, ?_, hall.symm⟩
  unfold popOne
  rw [listAt_eq h]
  simp [hpop]

lemma setVal_dict_self (s : Server δ κ ε γ) (db : δ) (k : κ) (v : Option (Value ε)) :
    (setVal s db k v).dict db k = v := by
  simp [setVal]

lemma setVal_dict_of_ne (s : Server δ κ ε γ) (db : δ) {k' : κ} (hne : k' ≠ k)
    (v : Option (Value ε)) : (setVal s db k v).dict db k' = s.dict db k' := by
  simp [setVal, set₂_apply, hne]

lemma deleteIfEmpty_setVal (s : Server δ κ ε γ) (db : δ) (k : κ) (xs : List ε) :
    deleteIfEmpty (setVal s db k (some (.list xs))) db db k =
      .ok (setVal s db k (storeList xs), xs.isEmpty) := by
  rw [deleteIfEmpty_eq (setVal_dict_self ..), setVal_setVal]

lemma push_found {dst : κ} {ys : List ε} (x : ε) (to? : Side)
    (h : s.dict db dst = some (.list ys)) :
    lmoveHandlePush s db dst true x to? =
      .ok (setVal s db dst (some (.list (listPush to? x ys)))) := by
  unfold lmoveHandlePush
  simp [listAt_eq h]

lemma push_created {dst : κ} (x : ε) (to? : Side) (h : s.dict db dst = none) :
    lmoveHandlePush s db dst false x to? =
      .ok (signalKeyAsReady (setVal s db dst (some (.list [x]))) db dst (.list [])) := by
  have hpush : listPush to? x [] = [x] := by cases to? <;> rfl
  have hlist : (signalKeyAsReady (setVal s db dst (some (.list []))) db dst (.list [])).dict db
      dst = some (.list []) := by
    rw [signal_dict, setVal_dict_self]
  unfold lmoveHandlePush dbAdd
  simp only [Bool.false_eq_true, if_false, h, Option.isNone_none, check_pos, bind_ok,
    pure_eq, listAt_eq hlist, hpush]
  rw [← signal_setVal, setVal_setVal]

/-- Serving never fails on a key that holds elements. -/
lemma serve_serves {b : Bpop δ κ} {key : κ}
    (hxs : s.dict b.db key = some (.list xs)) (hne : xs ≠ [])
    (hcount : ∀ side n, b.wait = .mpop side n → 0 < n) :
    ∃ s' deleted reply, serveClientBlockedOnList s b b.db key = .ok ((s', deleted), reply) ∧
      Serves s b key xs s' deleted reply := by
  unfold serveClientBlockedOnList
  cases hwait : b.wait with
  | pop side =>
    obtain ⟨x, rest, hpop, hall⟩ := popOne_spec side hxs hne
    refine ⟨_, _, _, ?_, Serves.popped [x] rest hall⟩
    simp only [hpop, bind_ok, deleteIfEmpty_setVal, pure_eq]
  | mpop side n =>
    have hlen : 0 < xs.length := length_pos_iff.mpr hne
    have hall := listPopRange_coe side (min n xs.length) xs
    refine ⟨_, _, _, ?_, Serves.popped _ _ hall⟩
    simp only [check_pos (hcount side n hwait), listAt_eq hxs, check_pos hlen, bind_ok,
      deleteIfEmpty_setVal, pure_eq]
  | move target from? to? =>
    dsimp only
    by_cases htype : (s.dict b.db target).any (fun v => !v.isList) = true
    · rw [if_pos htype]
      refine ⟨_, _, _, ?_, Serves.refused⟩
      have hself : setVal s b.db key (storeList xs) = s :=
        setVal_eq_self (by rw [hxs]; simp [storeList, hne])
      simp only [deleteIfEmpty_eq hxs, hself]
      simp [hne]
    rw [if_neg htype]
    obtain ⟨x, rest, hpop, hall⟩ := popOne_spec from? hxs hne
    simp only [hpop]
    by_cases hkey : target = key
    · subst hkey
      refine ⟨_, _, _, ?_, Serves.rotated x (listPush to? x rest) ?_ (listPush_ne_nil to? x rest)⟩
      · have hfound : (s.dict b.db target).isSome = true := by rw [hxs]; rfl
        have hstore : storeList (listPush to? x rest) = some (.list (listPush to? x rest)) := by
          simp [storeList, listPush_ne_nil]
        simp only [hfound, push_found x to? (setVal_dict_self _ _ _ _), setVal_setVal,
          bind_ok, deleteIfEmpty_setVal, hstore]
        simp [listPush_ne_nil]
      · rw [listPush_coe, hall]
    -- The pop and the push are about different keys and commute.
    have htarget : (setVal s b.db key (some (.list rest))).dict b.db target =
        s.dict b.db target := setVal_dict_of_ne _ _ hkey _
    cases hdst : s.dict b.db target with
    | none =>
      refine ⟨_, _, _, ?_, Serves.created x target from? to? rest hwait hkey hdst hall⟩
      simp only [Option.isSome_none, push_created x to? (htarget.trans hdst), bind_ok]
      rw [setVal_comm _ _ hkey, signal_setVal, deleteIfEmpty_setVal]
      rfl
    | some v =>
      cases v with
      | list ys =>
        refine ⟨_, _, _, ?_, Serves.pushed x target from? to? rest ys _ hwait hkey hdst
          (listPush_ne_nil to? x ys) (listPush_coe to? x ys) hall⟩
        simp only [Option.isSome_some, push_found x to? (htarget.trans hdst), bind_ok]
        rw [setVal_comm _ _ hkey, deleteIfEmpty_setVal]
        rfl
      | _ => simp [hdst, Value.isList] at htype

section Outcomes
variable {s s' : Server δ κ ε γ} {b : Bpop δ κ} {key : κ} {xs : List ε} {deleted : Bool}
  {reply : Reply κ ε}

lemma Serves.same (h : Serves s b key xs s' deleted reply) : SameClients s s' := by
  cases h with
  | popped => exact setVal_same ..
  | refused => exact SameClients.refl s
  | rotated => exact setVal_same ..
  | pushed => exact (setVal_same ..).trans (setVal_same ..)
  | created => exact ((setVal_same ..).trans (signal_same ..)).trans (setVal_same ..)

lemma Serves.key_after (h : Serves s b key xs s' deleted reply)
    (hxs : s.dict b.db key = some (.list xs)) :
    if deleted then s'.dict b.db key = none else ∃ ys, s'.dict b.db key = some (.list ys) := by
  have hstore : ∀ (u : Server δ κ ε γ) (rest : List ε),
      if rest.isEmpty then (setVal u b.db key (storeList rest)).dict b.db key = none
      else ∃ ys, (setVal u b.db key (storeList rest)).dict b.db key = some (.list ys) := by
    intro u rest
    rw [setVal_dict_self]
    cases rest with
    | nil => rfl
    | cons x rest => exact ⟨x :: rest, rfl⟩
  cases h with
  | popped ys rest => exact hstore _ rest
  | refused => exact ⟨xs, hxs⟩
  | rotated x zs => exact ⟨zs, setVal_dict_self ..⟩
  | pushed _ _ _ _ rest | created _ _ _ _ rest => exact hstore _ rest

lemma storeList_inv {pending : List (δ × κ)} {exempt : δ → κ → Prop}
    (h : Inv pending exempt s) (hxs : s.dict db k = some (.list xs))
    (rest : List ε) : Inv pending exempt (setVal s db k (storeList rest)) := by
  cases rest with
  | nil => exact h.delete db k
  | cons x rest => exact h.replaceList hxs (cons_ne_nil x rest)

lemma Serves.inv {pending : List (δ × κ)} {exempt : δ → κ → Prop}
    (h : Serves s b key xs s' deleted reply) (hxs : s.dict b.db key = some (.list xs))
    (hinv : Inv pending exempt s) : Inv pending exempt s' := by
  cases h with
  | popped ys rest => exact storeList_inv hinv hxs rest
  | refused => exact hinv
  | rotated x zs _ hne => exact hinv.replaceList hxs hne
  | pushed x target _ _ rest ys zs _ htarget hys hne =>
    have hkey : (setVal s b.db target (some (.list zs))).dict b.db key = some (.list xs) := by
      rw [setVal_dict_of_ne _ _ (Ne.symm htarget), hxs]
    exact storeList_inv (hinv.replaceList hys hne) hkey rest
  | created x target _ _ rest _ htarget =>
    have hkey : (signalKeyAsReady (setVal s b.db target (some (.list [x]))) b.db target
        (.list [])).dict b.db key = some (.list xs) := by
      rw [signal_dict, setVal_dict_of_ne _ _ (Ne.symm htarget), hxs]
    exact storeList_inv (hinv.create b.db target (cons_ne_nil x []) rfl) hkey rest

omit [DecidableEq δ] [DecidableEq κ] in
lemma move_conserved {before between after : Multiset ε} {x : ε} {rest d : Multiset ε}
    (hall : x ::ₘ rest = xs) (hpush : between + d = before + x ::ₘ d)
    (hpop : after + xs = between + rest) : after = before := by
  have hsum : after + ((xs : Multiset ε) + d) = before + ((xs : Multiset ε) + d) := by
    calc after + ((xs : Multiset ε) + d)
        = after + xs + d := (add_assoc _ _ _).symm
      _ = between + d + rest := by rw [hpop, add_right_comm]
      _ = before + x ::ₘ d + rest := by rw [hpush]
      _ = before + ((xs : Multiset ε) + d) := by
        rw [← hall, ← Multiset.singleton_add, ← Multiset.singleton_add]
        abel
  exact add_right_cancel hsum

/-- No element is lost or made. -/
lemma Serves.conserved (h : Serves s b key xs s' deleted reply)
    (hxs : s.dict b.db key = some (.list xs)) (hkey : (b.db, key) ∈ K)
    (htouch : ∀ t f w, b.wait = .move t f w → (b.db, t) ∈ K) :
    elements K s' + handed reply = elements K s := by
  have hstore : ∀ (u : Server δ κ ε γ) (rest : List ε), u.dict b.db key = some (.list xs) →
      elements K (setVal u b.db key (storeList rest)) + (xs : Multiset ε) =
        elements K u + (rest : Multiset ε) := by
    intro u rest hu
    have hset := elements_setVal (s := u) hkey (storeList rest)
    rwa [hu, contents_storeList] at hset
  cases h with
  | popped ys rest hall =>
    have hsum := hstore s rest hxs
    rw [← hall, ← add_assoc] at hsum
    exact add_right_cancel hsum
  | refused => simp [handed]
  | rotated x zs hall =>
    have hset := elements_setVal (s := s) hkey (some (.list zs))
    rw [hxs] at hset
    simp only [contents, hall] at hset
    simpa [handed] using add_right_cancel hset
  | pushed x target _ _ rest ys zs hwait htarget hys _ hzs hall =>
    have hpush := elements_setVal (s := s) (htouch _ _ _ hwait) (some (.list zs))
    rw [hys] at hpush
    simp only [contents, hzs] at hpush
    have hpop := hstore (setVal s b.db target (some (.list zs))) rest
      (by rw [setVal_dict_of_ne _ _ (Ne.symm htarget), hxs])
    simpa [handed] using move_conserved hall hpush hpop
  | created x target _ _ rest hwait htarget hnone hall =>
    have hpush := elements_setVal (s := s) (htouch _ _ _ hwait) (some (.list [x]))
    rw [hnone] at hpush
    have hpop := hstore (signalKeyAsReady (setVal s b.db target (some (.list [x]))) b.db target
      (.list [])) rest (by rw [signal_dict, setVal_dict_of_ne _ _ (Ne.symm htarget), hxs])
    have hsignal : elements K (signalKeyAsReady (setVal s b.db target (some (.list [x]))) b.db
        target (.list [])) = elements K (setVal s b.db target (some (.list [x]))) := by
      simp only [elements, signal_dict]
    rw [hsignal] at hpop
    simpa [handed] using move_conserved hall (d := 0) hpush hpop

lemma Serves.frame (h : Serves s b key xs s' deleted reply)
    (hkey : (b.db, key) ∈ K) (htouch : ∀ t f w, b.wait = .move t f w → (b.db, t) ∈ K)
    (hout : (db, k) ∉ K) : s'.dict db k = s.dict db k := by
  have hset : ∀ (u : Server δ κ ε γ) (k' : κ) (v : Option (Value ε)), (b.db, k') ∈ K →
      (setVal u b.db k' v).dict db k = u.dict db k := by
    intro u k' v hk'
    simp only [setVal, set₂_apply]
    rw [if_neg]
    rintro ⟨rfl, rfl⟩
    exact hout hk'
  cases h with
  | popped => exact hset _ _ _ hkey
  | refused => rfl
  | rotated => exact hset _ _ _ hkey
  | pushed _ target _ _ _ _ _ hwait =>
    rw [hset _ _ _ hkey, hset _ _ _ (htouch _ _ _ hwait)]
  | created _ target _ _ _ hwait =>
    rw [hset _ _ _ hkey, signal_dict, hset _ _ _ (htouch _ _ _ hwait)]

end Outcomes

/-! ## Progress -/

/-- The clients of a log that were served on a key, in the order of time. -/
def servedOn (db : δ) (k : κ) (log : List (Served δ κ ε γ)) : List γ :=
  ((log.filter fun e => decide (e.db = db ∧ e.key = k)).map (·.client)).reverse

lemma servedOn_append (db : δ) (k : κ) (later earlier : List (Served δ κ ε γ)) :
    servedOn db k (later ++ earlier) = servedOn db k earlier ++ servedOn db k later := by
  simp [servedOn]

/-- What serving clients does between two states. -/
structure Progress (s s' : Server δ κ ε γ) : Prop where
  fewer : s'.blockedLists ≤ s.blockedLists
  unblocked : ∀ c, s'.bpop c = s.bpop c ∨ s'.bpop c = none
  /-- The clients served on a key and those that still wait for it are in the order of the
  queue. -/
  served : ∃ new, s'.served = new ++ s.served ∧
    ∀ db k, (servedOn db k new ++ s'.blockingKeys db k).Sublist (s.blockingKeys db k)
  conserved : ∀ K, Touches K s → elements K s' + allHanded s' = elements K s + allHanded s
  frame : ∀ K, Touches K s → ∀ db k, (db, k) ∉ K → s'.dict db k = s.dict db k

lemma Progress.touches {s s' : Server δ κ ε γ} (h : Progress s s')
    (hK : Touches K s) : Touches K s' := by
  intro c b hb
  rcases h.unblocked c with heq | hnone
  · exact hK c b (by rw [← heq, hb])
  rw [hnone] at hb
  cases hb

lemma Progress.readyTables (s : Server δ κ ε γ) (ready : List (δ × κ))
    (table : δ → κ → Bool) : Progress s { s with readyKeys := ready, dbReadyKeys := table } :=
  ⟨le_rfl, fun _ => .inl rfl, ⟨[], rfl, fun _ _ => List.Sublist.refl _⟩,
    fun _ _ => rfl, fun _ _ _ _ _ => rfl⟩

lemma Progress.refl (s : Server δ κ ε γ) : Progress s s :=
  Progress.readyTables s s.readyKeys s.dbReadyKeys

lemma Progress.trans {s s' s'' : Server δ κ ε γ} (h : Progress s s') (h' : Progress s' s'') :
    Progress s s'' := by
  refine ⟨Nat.le_trans h'.fewer h.fewer, ?_, ?_, ?_, ?_⟩
  · intro c
    rcases h'.unblocked c with heq | hnone
    · rw [heq]
      exact h.unblocked c
    · exact .inr hnone
  · obtain ⟨new, hnew, horder⟩ := h.served
    obtain ⟨new', hnew', horder'⟩ := h'.served
    refine ⟨new' ++ new, by rw [hnew', hnew, append_assoc], ?_⟩
    intro db k
    rw [servedOn_append, append_assoc]
    exact ((horder' db k).append_left _).trans (horder db k)
  · intro K hK
    rw [h'.conserved K (h.touches hK), h.conserved K hK]
  · intro K hK db k hout
    rw [h'.frame K (h.touches hK) db k hout, h.frame K hK db k hout]

/-! ## The loops -/

section Loops
variable [DecidableEq γ] {pending : List (δ × κ)} {exempt : δ → κ → Prop}

/-- A served client that was the first of the queue, and is unblocked then. -/
lemma Serves.progress {s s₁ : Server δ κ ε γ} {b : Bpop δ κ} {key : κ}
    {deleted : Bool} {reply : Reply κ ε} {c : γ} {cs : List γ} {queues : δ → κ → List γ}
    (h : Serves s b key xs s₁ deleted reply) (hxs : s.dict b.db key = some (.list xs))
    (hb : s.bpop c = some b) (hkey : key ∈ b.keys) (hqueue : s.blockingKeys b.db key = c :: cs)
    (hqueues : ∀ db k, queues db k = (s₁.blockingKeys db k).erase c) :
    Progress s { unlinked s₁ c b queues with
      served := ⟨c, b.db, key, reply⟩ :: s₁.served } := by
  have hsame := h.same
  refine ⟨?_, ?_, ?_, ?_, ?_⟩
  · dsimp only [unlinked]
    rw [hsame.blockedLists]
    exact Nat.sub_le _ _
  · intro c'
    dsimp only [unlinked]
    by_cases heq : c' = c
    · subst heq
      exact .inr (Function.update_self ..)
    rw [Function.update_of_ne heq, hsame.bpop]
    exact .inl rfl
  · refine ⟨[⟨c, b.db, key, reply⟩], by rw [hsame.served]; rfl, ?_⟩
    intro db k
    dsimp only [unlinked]
    rw [hqueues, hsame.blockingKeys]
    by_cases hon : b.db = db ∧ key = k
    · obtain ⟨rfl, rfl⟩ := hon
      simp [servedOn, hqueue]
    simp only [servedOn, hon, filter_cons]
    exact erase_sublist
  · intro K hK
    have hcons := h.conserved hxs ((hK c b hb).1 key hkey) (hK c b hb).2
    simp only [hsame.served]
    rw [← hcons, add_assoc]
    rfl
  · intro K hK db k hout
    exact h.frame ((hK c b hb).1 key hkey) (hK c b hb).2 hout

/-- The first client of the queue of a key that holds a list is served and unblocked. -/
lemma serveLoop_cons {key : κ} {c : γ}
    {cs : List γ} (h : Inv pending exempt s) (hxs : s.dict db key = some (.list xs))
    (hqueue : s.blockingKeys db key = c :: cs) :
    ∃ (s' : Server δ κ ε γ) (deleted : Bool), serveLoop db key (c :: cs) s =
        (if deleted then .ok s' else serveLoop db key cs s') ∧
      Inv pending exempt s' ∧ Progress s s' ∧ s'.blockedLists < s.blockedLists ∧
      s'.blockingKeys db key = cs ∧
      if deleted then s'.dict db key = none else ∃ ys, s'.dict db key = some (.list ys) := by
  have hmem : c ∈ s.blockingKeys db key := by
    rw [hqueue]
    exact mem_cons_self
  obtain ⟨b, hb, rfl, hkey⟩ := (h.queues.linked db key c).mp hmem
  obtain ⟨s₁, deleted, reply, hserve, hserves⟩ := serve_serves hxs (h.lists _ _ _ hxs)
    (fun side n hw => h.queues.positive c b side n hb hw)
  have hsame := hserves.same
  have hinv₁ : Inv pending exempt s₁ := hserves.inv hxs h
  have hb₁ : s₁.bpop c = some b := by rw [hsame.bpop, hb]
  obtain ⟨queues, hunblock, hqueues⟩ := unblockClient_spec hinv₁.queues hb₁
  have hpos : s.blockedLists ≠ 0 :=
    h.queues.blockedLists_ne_zero (by rw [hqueue]; exact cons_ne_nil c cs)
  refine ⟨_, deleted, ?_, (hinv₁.unblock hb₁ hqueues).log _,
    hserves.progress hxs hb hkey hqueue hqueues, ?_, ?_, hserves.key_after hxs⟩
  · rw [serveLoop, if_neg (not_not.mpr hmem)]
    simp only [hb, hserve, hunblock, bind_ok]
    rfl
  · dsimp only [unlinked]
    rw [hsame.blockedLists]
    omega
  · dsimp only [unlinked]
    rw [hqueues, hsame.blockingKeys, hqueue, erase_cons_head]

/-- Serving the clients of one key, from the head of its queue: the loop ends with the key
gone or its queue empty. -/
lemma serveLoop_spec {key : κ} : ∀ (cs : List γ) (s : Server δ κ ε γ) (xs : List ε),
      Inv pending (fun db' k' => exempt db' k' ∨ (db' = db ∧ k' = key)) s →
      s.dict db key = some (.list xs) → s.blockingKeys db key = cs →
      ∃ s', serveLoop db key cs s = .ok s' ∧ Inv pending exempt s' ∧ Progress s s' ∧
        (s'.blockedLists < s.blockedLists ∨ s' = s)
  | [], s, _, h, _, hqueue => ⟨s, rfl, h.settled (.inr hqueue), Progress.refl s, .inr rfl⟩
  | c :: cs, s, xs, h, hxs, hqueue => by
    obtain ⟨s₁, deleted, hloop, hinv, hprogress, hless, hqueue₁, hkey⟩ :=
      serveLoop_cons h hxs hqueue
    rw [hloop]
    cases deleted with
    | true =>
      have hnone : s₁.dict db key = none := hkey
      exact ⟨s₁, rfl, hinv.settled (.inl (by simp [hnone])), hprogress, .inl hless⟩
    | false =>
      obtain ⟨ys, hys⟩ : ∃ ys, s₁.dict db key = some (.list ys) := hkey
      obtain ⟨s', hok, hinv', hprogress', _⟩ := serveLoop_spec cs s₁ ys hinv hys hqueue₁
      exact ⟨s', hok, hinv', hprogress.trans hprogress',
        .inl (Nat.lt_of_le_of_lt hprogress'.fewer hless)⟩

omit [DecidableEq γ] in
lemma Inv.takeReady {rest : List (δ × κ)} (h : Inv ((db, k) :: rest) exempt s) :
    Inv rest (fun db' k' => exempt db' k' ∨ (db' = db ∧ k' = k))
      { s with dbReadyKeys := set₂ s.dbReadyKeys db k false } := by
  obtain ⟨hnot, hnodup⟩ := nodup_cons.mp h.ready.nodup
  refine ⟨h.queues.same ⟨rfl, rfl, rfl, rfl, rfl⟩, ⟨?_, hnodup⟩, h.lists, ?_⟩
  · intro db' k'
    have htable := h.ready.table db' k'
    dsimp only
    rw [set₂_apply]
    split
    · rename_i heq
      rw [heq.1, heq.2]
      exact ⟨by simp, fun hmem => absurd hmem hnot⟩
    rename_i hne
    rw [htable, cons_append, mem_cons, Prod.mk.injEq]
    exact ⟨fun hmem => hmem.resolve_left hne, .inr⟩
  intro db' k' xs hxs hwait
  rcases h.covered db' k' xs hxs hwait with hmem | hex
  · rcases mem_cons.mp hmem with heq | hmem
    · exact .inr (.inr (Prod.mk.inj heq))
    · exact .inl hmem
  · exact .inr (.inl hex)

lemma serveKey_spec (h : Inv pending (fun db' k' => exempt db' k' ∨ (db' = db ∧ k' = k)) s) :
    ∃ s', serveKey s db k = .ok s' ∧ Inv pending exempt s' ∧ Progress s s' ∧
      (s'.blockedLists < s.blockedLists ∨ s' = s) := by
  unfold serveKey
  by_cases hlist : ∃ xs, s.dict db k = some (.list xs)
  · obtain ⟨xs, hxs⟩ := hlist
    simp only [hxs, serveClientsBlockedOnListKey]
    split
    · rename_i hzero
      have hnil : s.blockingKeys db k = [] := by
        by_contra hwait
        exact h.queues.blockedLists_ne_zero hwait hzero
      exact ⟨s, rfl, h.settled (.inr hnil), Progress.refl s, .inr rfl⟩
    · exact serveLoop_spec _ s xs h hxs rfl
  refine ⟨s, ?_, h.settled (.inl fun xs hxs => hlist ⟨xs, hxs⟩), Progress.refl s, .inr rfl⟩
  split
  · rename_i xs hxs
    exact absurd ⟨xs, hxs⟩ hlist
  · rfl

lemma serveReady_spec : ∀ (pending : List (δ × κ)) (s : Server δ κ ε γ), Inv pending exempt s →
      ∃ s', serveReady pending s = .ok s' ∧ Inv [] exempt s' ∧ Progress s s' ∧
        (s'.blockedLists < s.blockedLists ∨ s'.readyKeys = s.readyKeys)
  | [], s, h => ⟨s, rfl, h, Progress.refl s, .inr rfl⟩
  | (db, k) :: rest, s, h => by
    obtain ⟨s₁, hserve, hinv₁, hprogress₁, hless₁⟩ := serveKey_spec (Inv.takeReady h)
    obtain ⟨s', hok, hinv', hprogress', hless'⟩ := serveReady_spec rest s₁ hinv₁
    have hstart := (Progress.readyTables s s.readyKeys _).trans hprogress₁
    refine ⟨s', ?_, hinv', hstart.trans hprogress', ?_⟩
    · rw [serveReady]
      simp only [hserve, bind_ok, hok]
    rcases hless₁ with hless | rfl
    · exact .inl (Nat.lt_of_le_of_lt hprogress'.fewer hless)
    · exact hless'

/-- More rounds than are needed change nothing. -/
lemma handleRounds_add {t : Server δ κ ε γ} :
    ∀ (n m : Nat) (s : Server δ κ ε γ), handleRounds n s = .ok t → handleRounds (n + m) s = .ok t
  | 0, m, s, h => by
    rw [handleRounds] at h
    split at h
    · rename_i hnil
      rw [zero_add]
      cases m with
      | zero | succ m => rw [handleRounds, if_pos hnil, h]
    · cases h
  | n + 1, m, s, h => by
    rw [Nat.add_right_comm, handleRounds]
    rw [handleRounds] at h
    split at h
    · rw [if_pos ‹_›, h]
    rw [if_neg ‹_›]
    obtain ⟨s₁, hserve, hrest⟩ := bind_eq_ok.mp h
    rw [hserve]
    exact handleRounds_add n m s₁ hrest

/-- The rounds end: a round that signals a key has served a client. -/
lemma handleRounds_spec : ∀ (n : Nat) (s : Server δ κ ε γ), Inv [] exempt s → s.blockedLists < n →
      ∃ s', handleRounds n s = .ok s' ∧ Inv [] exempt s' ∧ s'.readyKeys = [] ∧ Progress s s'
  | n + 1, s, h, hn => by
    rw [handleRounds]
    split
    · rename_i hnil
      exact ⟨s, rfl, h, hnil, Progress.refl s⟩
    have hround : Inv s.readyKeys exempt { s with readyKeys := [] } := by
      refine ⟨h.queues.same ⟨rfl, rfl, rfl, rfl, rfl⟩, ⟨?_, ?_⟩, h.lists, ?_⟩
      · simpa using h.ready.table
      · simpa using h.ready.nodup
      · simpa [Covered] using h.covered
    obtain ⟨s₁, hok, hinv, hprogress, hless⟩ := serveReady_spec s.readyKeys _ hround
    have hstart := (Progress.readyTables s [] s.dbReadyKeys).trans hprogress
    simp only [hok, bind_ok]
    rcases hless with hless | hquiet
    · obtain ⟨s', hok', hinv', hnil', hprogress'⟩ :=
        handleRounds_spec n s₁ hinv (by dsimp only at hless; omega)
      exact ⟨s', hok', hinv', hnil', hstart.trans hprogress'⟩
    have hnil : s₁.readyKeys = [] := hquiet
    refine ⟨s₁, ?_, hinv, hnil, hstart⟩
    cases n with
    | zero | succ n => rw [handleRounds, if_pos hnil]

end Loops

/-! ## The whole cascade -/

/-- `handleClientsBlockedOnKeys` from any consistent state: it ends, whatever the number of
rounds allowed for, keeps the elements and the order of the queues, and leaves nobody waiting
for a list at a key that was signalled or came into being meanwhile. -/
theorem handleClients_serves [DecidableEq γ] (s : Server δ κ ε γ) (hqueues : Queues s)
    (hready : Ready [] s) (hlists : NoEmptyList s) :
    ∃ t, handleClientsBlockedOnKeys s = .ok t ∧
      (∀ n, s.blockedLists < n → handleRounds n s = .ok t) ∧ t.readyKeys = [] ∧
      (∀ K, Touches K s → elements K t + allHanded t = elements K s + allHanded s ∧
        ∀ db k, (db, k) ∉ K → t.dict db k = s.dict db k) ∧
      (∃ new, t.served = new ++ s.served ∧
        ∀ db k, (servedOn db k new ++ t.blockingKeys db k).Sublist (s.blockingKeys db k)) ∧
      (∀ db k xs, t.dict db k = some (.list xs) → t.blockingKeys db k ≠ [] →
        (db, k) ∉ s.readyKeys ∧ ∃ ys, s.dict db k = some (.list ys)) ∧
      Queues t ∧ Ready [] t ∧ NoEmptyList t := by
  -- A key that is forgotten before the cascade is forgotten after it, and no other.
  have hinv : Inv [] (fun db k => (db, k) ∉ s.readyKeys ∧ ∃ ys, s.dict db k = some (.list ys))
      s := by
    refine ⟨hqueues, hready, hlists, ?_⟩
    intro db k xs hxs _
    by_cases hmem : (db, k) ∈ s.readyKeys
    · exact .inl hmem
    · exact .inr ⟨hmem, xs, hxs⟩
  have hrounds := fun n (hn : s.blockedLists < n) => handleRounds_spec n s hinv hn
  obtain ⟨t, hok, hinvt, hnil, hprogress⟩ := hrounds (s.blockedLists + 1) (Nat.lt_succ_self _)
  refine ⟨t, hok, ?_, hnil, fun K hK => ⟨hprogress.conserved K hK, hprogress.frame K hK⟩,
    hprogress.served, ?_, hinvt.queues, hinvt.ready, hinvt.lists⟩
  · intro n hn
    obtain ⟨m, rfl⟩ := Nat.exists_eq_add_of_lt hn
    rw [Nat.add_right_comm]
    exact handleRounds_add _ m s hok
  intro db k xs hxs hwait
  rcases hinvt.covered db k xs hxs hwait with hmem | hex
  · rw [hnil] at hmem
    cases hmem
  · exact hex

/-- Client 1 moves from key 0 to key 1, client 2 pops from key 1, and key 0 has just come into
being. -/
def chain : Server Unit Nat Nat Nat :=
  signalKeyAsReady (setVal (blockForKeys (blockForKeys (start fun _ _ => none) 1 () [0]
    (.move 1 .head .tail)) 2 () [1] (.pop .head)) () 0 (some (.list [7]))) () 0 (.list [7])

lemma chain_inv : Inv [] (fun _ _ => False) chain := by
  have hstart : Inv [] (fun _ _ => False) (start fun _ _ => none : Server Unit Nat Nat Nat) :=
    start_inv (by simp)
  have hfirst := hstart.block (c := 1) rfl () (cons_ne_nil 0 [])
    (.move 1 .head .tail) (by simp) (by simp [start])
  have hsecond := hfirst.block (c := 2) rfl () (cons_ne_nil 1 [])
    (.pop .head) (by simp) (by simp [start, blockForKeys])
  exact hsecond.create () 0 (cons_ne_nil 7 []) rfl

theorem handleClients_serves_chain :
    ∃ t, handleClientsBlockedOnKeys chain = .ok t ∧ t.readyKeys = [] ∧
      ∃ new, t.served = new ++ chain.served ∧
        ∀ db k, (servedOn db k new ++ t.blockingKeys db k).Sublist (chain.blockingKeys db k) := by
  obtain ⟨t, hok, _, hnil, _, hserved, _⟩ :=
    handleClients_serves chain chain_inv.queues chain_inv.ready chain_inv.lists
  exact ⟨t, hok, hnil, hserved⟩

end Redis.Blocked.Serving
