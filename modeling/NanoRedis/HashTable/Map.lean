import NanoRedis.HashTable.Resize

/-! The operations of the two-table map on a well-formed map. Each either
completes with the stated effect or stops at a null chain head, and the
occupancy of the table under migration decides which. -/

namespace NanoRedis
open Intrusive
variable {mem mem' : Heap HNode} {m m' : HMap} {c1 c2 c1' c2' : List (List Nat)}

theorem Matches.relinked_iff {xs : List Nat} (hr : Relinked mem mem' xs) {hcode : UInt64}
    {e : Nat → Bool} {y : Nat} : Matches mem' hcode e y ↔ Matches mem hcode e y := by
  have hy := hr.hcode_eq y
  constructor
  · rintro ⟨n, hn, hcode', he⟩
    rw [hn, Option.map_some, eq_comm, Option.map_eq_some_iff] at hy
    obtain ⟨n', hn', heq⟩ := hy
    exact ⟨n', hn', heq.trans hcode', he⟩
  · rintro ⟨n, hn, hcode', he⟩
    obtain ⟨n', hn', heq⟩ := hr.exists_get? hn
    exact ⟨n', hn', heq.trans hcode', he⟩

theorem hmHelpResizing_spec (h : WellFormed mem m c1 c2) :
    (NoHole c2 m.resizingPos → ∃ mem' m' c1', hmHelpResizing mem m = .ok (mem', m') ∧
        m'.tb2.tab = none ∧ Migrated mem m c1 c2 mem' m' c1' []) ∧
      (¬ NoHole c2 m.resizingPos → hmHelpResizing mem m = .error .nullDeref) := by
  obtain ⟨hyes, hno⟩ := helpResizingLoop_spec h le_rfl
  refine ⟨fun hc => ?_, fun hc => ?_⟩
  · obtain ⟨mem', m', c1', c2', hrun, hmig⟩ := hyes hc
    have hsize : m'.tb2.size = 0 := by rw [hmig.wf.tb2.size_eq, hmig.empty, List.length_nil]
    have hnodup : (c1'.flatten ++ ([] : List (List Nat)).flatten).Nodup := by
      simpa [hmig.empty] using hmig.wf.nodup
    cases htab : m'.tb2.tab with
    | none =>
      obtain rfl := hmig.wf.tb2.eq_nil htab
      refine ⟨mem', m', c1', ?_, htab, hmig⟩
      simp [hmHelpResizing, hrun, htab]
    | some slots =>
      refine ⟨mem', { m' with tb2 := {} }, c1', ?_, rfl,
        ⟨⟨hmig.wf.tb1, TabRep.null mem', hnodup, ?_, ?_⟩,
        rfl, hmig.perm, hmig.mask_eq, hmig.tab_eq, hmig.relinked⟩⟩
      · simp [hmHelpResizing, hrun, htab, hsize]
      · simp
      · simp
  · simp only [hmHelpResizing, hno hc, error_bind]

theorem hmLookup_null (h : WellFormed mem m c1 c2) (hc : ¬ NoHole c2 m.resizingPos) (key : Nat)
    (eq : HEq) : hmLookup mem m key eq = .error .nullDeref := by
  simp only [hmLookup, (hmHelpResizing_spec h).2 hc, error_bind]

def Found (mem : Heap HNode) (hcode : UInt64) (e : Nat → Bool) (xs : List Nat) : Ptr → Prop
  | none => ∀ y ∈ xs, ¬ Matches mem hcode e y
  | some x => x ∈ xs ∧ Matches mem hcode e x

theorem hmLookup_spec (h : WellFormed mem m c1 c2) {key : Nat} {kn : HNode}
    (hkey : mem.get? key = some kn) {eq : HEq} {e : Nat → Bool}
    (heq : ∀ y ∈ c1.flatten ++ c2.flatten, eq key y = .ok (e y)) :
    (NoHole c2 m.resizingPos → ∃ r mem' m' c1', hmLookup mem m key eq = .ok (r, mem', m') ∧
        m'.tb2.tab = none ∧ Migrated mem m c1 c2 mem' m' c1' [] ∧
        Found mem kn.hcode e (c1.flatten ++ c2.flatten) r) ∧
      (¬ NoHole c2 m.resizingPos → hmLookup mem m key eq = .error .nullDeref) := by
  refine ⟨fun hc => ?_, fun hc => hmLookup_null h hc key eq⟩
  obtain ⟨mem', m', c1', hrun, htab, hmig⟩ := (hmHelpResizing_spec h).1 hc
  obtain ⟨kn', hkey', hcode⟩ := hmig.relinked.exists_get? hkey
  have hmatch : ∀ y, Matches mem' kn'.hcode e y ↔ Matches mem kn.hcode e y := by
    intro y
    rw [hcode]
    exact Matches.relinked_iff hmig.relinked
  rcases hLookup_spec hmig.wf.tb1 hkey' (fun y hy => heq y (hmig.perm.mem_iff.mp hy)) with
    ⟨i, pre, x, post, hi, hx, hlook⟩ | ⟨hnone, hlook⟩
  · obtain ⟨p, hp, hchain⟩ := (hmig.wf.tb1.heads hi).after
    obtain rfl := (chain_cons_iff.mp hchain).1
    have hmem : x ∈ c1'.flatten := Buckets.mem_flatten_of_getElem? hi (by simp)
    refine ⟨some x, mem', m', c1', ?_, htab, hmig, hmig.perm.mem_iff.mp hmem, (hmatch x).mp hx⟩
    simp only [hmLookup, hrun, hlook, hp, ok_bind, pure_eq_ok]
  · refine ⟨none, mem', m', c1', ?_, htab, hmig, fun y hy => ?_⟩
    · have hlook₂ : hLookup mem' m'.tb2 key eq = .ok none := by simp [hLookup, htab]
      simp only [hmLookup, hrun, hlook, hlook₂, ok_bind, pure_eq_ok]
    · exact fun hy' => hnone y (hmig.perm.mem_iff.mpr hy) ((hmatch y).mpr hy')

def Popped (mem : Heap HNode) (hcode : UInt64) (e : Nat → Bool) (xs xs' : List Nat) : Ptr → Prop
  | none => (∀ y ∈ xs, ¬ Matches mem hcode e y) ∧ xs' = xs
  | some x => Matches mem hcode e x ∧ xs.Perm (x :: xs')

theorem hmPop_spec (h : WellFormed mem m c1 c2) {key : Nat} {kn : HNode}
    (hkey : mem.get? key = some kn) {eq : HEq} {e : Nat → Bool}
    (heq : ∀ y ∈ c1.flatten ++ c2.flatten, eq key y = .ok (e y)) :
    ∃ r mem' m' c1' c2', hmPop mem m key eq = .ok (r, mem', m') ∧ WellFormed mem' m' c1' c2' ∧
      Popped mem kn.hcode e (c1.flatten ++ c2.flatten) (c1'.flatten ++ c2'.flatten) r ∧
      Relinked mem mem' (c1.flatten ++ c2.flatten) ∧ m'.tb1.mask = m.tb1.mask ∧
      m'.tb1.tab.isSome = m.tb1.tab.isSome ∧ m'.tb2.tab.isSome = m.tb2.tab.isSome := by
  obtain ⟨hnd₁, hnd₂, -⟩ := List.nodup_append.mp h.nodup
  rcases hLookup_spec h.tb1 hkey (fun y hy => heq y (List.mem_append_left _ hy)) with
    ⟨i, pre, x, post, hi, hx, hlook⟩ | ⟨hnone₁, hlook⟩
  · obtain ⟨memD, tb1, hdet, htb1, htab1, hmask, hr⟩ := hDetach_spec h.tb1 hnd₁ hi
    have hpre : pre ⊆ c1.flatten := fun y hy => Buckets.mem_flatten_of_getElem? hi (by simp [hy])
    have hperm : (c1.flatten ++ c2.flatten).Perm
        (x :: ((c1.set i (pre ++ post)).flatten ++ c2.flatten)) :=
      (Buckets.flatten_perm_of_mem hi).append_right _
    have htb2 := h.tb2.frame hr fun y hy hpy => h.disjoint (hpre hpy) hy
    have htab := h.tb1.isSome_of_bucket hi
    refine ⟨some x, memD, { m with tb1 := tb1 }, _, c2, ?_,
      ⟨htb1, htb2, ?_, fun _ => htab1, h.drained⟩,
      ⟨hx, hperm⟩, hr.mono fun y hy => List.mem_append_left _ (hpre hy), hmask,
      by rw [htab, htab1], rfl⟩
    · simp only [hmPop, hlook, hdet, ok_bind, pure_eq_ok]
    · exact (List.nodup_cons.mp (hperm.nodup_iff.mp h.nodup)).2
  · rcases hLookup_spec h.tb2 hkey (fun y hy => heq y (List.mem_append_right _ hy)) with
      ⟨i, pre, x, post, hi, hx, hlook₂⟩ | ⟨hnone₂, hlook₂⟩
    · obtain ⟨memD, tb2, hdet, htb2, htab2, -, hr⟩ := hDetach_spec h.tb2 hnd₂ hi
      have hpre : pre ⊆ c2.flatten := fun y hy => Buckets.mem_flatten_of_getElem? hi (by simp [hy])
      have hperm : (c1.flatten ++ c2.flatten).Perm
          (x :: (c1.flatten ++ (c2.set i (pre ++ post)).flatten)) :=
        ((Buckets.flatten_perm_of_mem hi).append_left _).trans List.perm_middle
      have htb1 := h.tb1.frame hr fun y hy hpy => h.disjoint hy (hpre hpy)
      have htab := h.tb2.isSome_of_bucket hi
      refine ⟨some x, memD, { m with tb2 := tb2 }, c1, _, ?_,
        ⟨htb1, htb2, ?_, fun _ => h.alloc htab, fun j ys hj hget => ?_⟩,
        ⟨hx, hperm⟩, hr.mono fun y hy => List.mem_append_right _ (hpre hy), rfl, rfl,
        by rw [htab, htab2]⟩
      · simp only [hmPop, hlook, hlook₂, hdet, ok_bind, pure_eq_ok]
      · exact (List.nodup_cons.mp (hperm.nodup_iff.mp h.nodup)).2
      · have hne : i ≠ j := by
          rintro rfl
          exact absurd (h.drained i _ hj hi) (by simp)
        rw [List.getElem?_set_ne hne] at hget
        exact h.drained j ys hj hget
    · refine ⟨none, mem, m, c1, c2, ?_, h, ⟨fun y hy => ?_, rfl⟩, Relinked.refl .., rfl, rfl, rfl⟩
      · simp only [hmPop, hlook, hlook₂, ok_bind, pure_eq_ok]
      · rcases List.mem_append.mp hy with hy | hy
        · exact hnone₁ y hy
        · exact hnone₂ y hy

/-! With a comparison that always faults, a lookup and a removal complete exactly
when no stored node collides with the key. -/

section Faulting
variable {key : Nat} {kn : HNode} {eq : HEq} {e : Fault}

theorem hmLookup_fault (h : WellFormed mem m c1 c2) (hkey : mem.get? key = some kn)
    (hfault : ∀ y ∈ c1.flatten ++ c2.flatten, eq key y = .error e)
    (hc : NoHole c2 m.resizingPos) :
    ((∃ y ∈ c1.flatten ++ c2.flatten, Collides mem kn.hcode y) →
        hmLookup mem m key eq = .error e) ∧
      ((∀ y ∈ c1.flatten ++ c2.flatten, ¬ Collides mem kn.hcode y) →
        ∃ mem' m', hmLookup mem m key eq = .ok (none, mem', m')) := by
  obtain ⟨memH, mH, cH, hrun, htab, hmig⟩ := (hmHelpResizing_spec h).1 hc
  obtain ⟨kn', hkey', hcode⟩ := hmig.relinked.exists_get? hkey
  obtain ⟨hyes, hno⟩ := hLookup_fault hmig.wf.tb1 hkey' fun y hy =>
    hfault y (hmig.perm.mem_iff.mp hy)
  simp only [hcode, hmig.perm.mem_iff, Collides.relinked_iff hmig.relinked] at hyes hno
  refine ⟨fun hex => by simp only [hmLookup, hrun, hyes hex, ok_bind, error_bind], fun hnone => ?_⟩
  have hlook₂ : hLookup memH mH.tb2 key eq = .ok none := by simp [hLookup, htab]
  exact ⟨memH, mH, by simp only [hmLookup, hrun, hno hnone, hlook₂, ok_bind, pure_eq_ok]⟩

theorem hmPop_fault (h : WellFormed mem m c1 c2) (hkey : mem.get? key = some kn)
    (hfault : ∀ y ∈ c1.flatten ++ c2.flatten, eq key y = .error e) :
    ((∃ y ∈ c1.flatten ++ c2.flatten, Collides mem kn.hcode y) →
        hmPop mem m key eq = .error e) ∧
      ((∀ y ∈ c1.flatten ++ c2.flatten, ¬ Collides mem kn.hcode y) →
        hmPop mem m key eq = .ok (none, mem, m)) := by
  obtain ⟨hyes₁, hno₁⟩ := hLookup_fault h.tb1 hkey fun y hy =>
    hfault y (List.mem_append_left _ hy)
  obtain ⟨hyes₂, hno₂⟩ := hLookup_fault h.tb2 hkey fun y hy =>
    hfault y (List.mem_append_right _ hy)
  constructor
  · rintro ⟨y, hy, hcode⟩
    by_cases hex : ∃ z ∈ c1.flatten, Collides mem kn.hcode z
    · simp only [hmPop, hyes₁ hex, error_bind]
    -- `tb1` is passed over, so the colliding node is one of `tb2`
    · have hnone : ∀ z ∈ c1.flatten, ¬ Collides mem kn.hcode z :=
        fun z hz hcz => hex ⟨z, hz, hcz⟩
      have hy₂ : y ∈ c2.flatten :=
        (List.mem_append.mp hy).resolve_left fun hy₁ => hnone y hy₁ hcode
      simp only [hmPop, hno₁ hnone, hyes₂ ⟨y, hy₂, hcode⟩, ok_bind, error_bind]
  · intro hnone
    have hlook₁ := hno₁ fun y hy => hnone y (List.mem_append_left _ hy)
    have hlook₂ := hno₂ fun y hy => hnone y (List.mem_append_right _ hy)
    simp only [hmPop, hlook₁, hlook₂, ok_bind, pure_eq_ok]

end Faulting

/-- The mask of `tb1` as `hm_insert` sees it, after allocating four buckets in an empty map. -/
def HMap.insertMask (m : HMap) : Nat := if m.tb1.tab.isNone then 3 else m.tb1.mask

/-- `hm_insert` starts a doubling: no migration is pending and the new load factor is too high. -/
def HMap.Doubles (m : HMap) : Prop :=
  m.tb2.tab = none ∧ (m.tb1.size + 1) / (m.insertMask + 1) > kMaxLoadFactor

def insertChains (m : HMap) (c1 : List (List Nat)) : List (List Nat) :=
  if m.tb1.tab.isNone then List.replicate 4 [] else c1

theorem insert_ready (h : WellFormed mem m c1 c2) :
    ∃ t, (if m.tb1.tab.isNone then hInit 4 else .ok m.tb1) = .ok t ∧ t.tab.isSome ∧
      t.mask = m.insertMask ∧ t.size = m.tb1.size ∧ TabRep mem t (insertChains m c1) ∧
      (insertChains m c1).flatten = c1.flatten := by
  cases htab : m.tb1.tab with
  | none =>
    obtain rfl := h.tb1.eq_nil htab
    obtain ⟨t, ht, hsome, hmask, hrep⟩ := hInit_pow2 mem 2
    have hzero : m.tb1.size = 0 := by simp [h.tb1.size_eq]
    refine ⟨t, ht, hsome, ?_, ?_, ?_, ?_⟩
    · simp only [HMap.insertMask, htab, Option.isNone_none, if_true]
      omega
    · rw [hrep.size_eq, hzero]
      rfl
    · simpa [insertChains, htab] using hrep
    · simp [insertChains, htab]
  | some slots =>
    have hnone : m.tb1.tab.isNone = false := by simp [htab]
    refine ⟨m.tb1, ?_, by simp [htab], ?_, rfl, ?_, ?_⟩
    · simp
    · simp [HMap.insertMask, htab]
    · simpa [insertChains, htab] using h.tb1
    · simp [insertChains, htab]

structure Linked (mem : Heap HNode) (m : HMap) (c2 cx : List (List Nat))
    (mem' : Heap HNode) (m' : HMap) (c1' c2' : List (List Nat)) : Prop where
  wf : WellFormed mem' m' c1' c2'
  perm : (c1'.flatten ++ c2'.flatten).Perm (cx.flatten ++ c2.flatten)
  tab1 : m'.tb1.tab.isSome
  doubles : m.Doubles → c2' = cx ∧ m'.resizingPos = 0 ∧ m'.tb1.mask + 1 = 2 * (m.insertMask + 1)
  stays : ¬ m.Doubles → c1' = cx ∧ c2' = c2 ∧ m'.resizingPos = m.resizingPos ∧
    m'.tb1.mask = m.insertMask

theorem hmInsert_spec (h : WellFormed mem m c1 c2) {x : Nat} {n : HNode} (hn : mem.get? x = some n)
    (hx : x ∉ c1.flatten ++ c2.flatten) :
    ∃ mem' m' c1' c2' xs, hmInsert mem m x = hmHelpResizing mem' m' ∧
      (insertChains m c1)[n.hcode.toNat &&& m.insertMask]? = some xs ∧
      Linked mem m c2 ((insertChains m c1).set (n.hcode.toNat &&& m.insertMask) (x :: xs))
        mem' m' c1' c2' ∧
      Relinked mem mem' [x] := by
  obtain ⟨t, ht, htab, hmask, hsize, hrep, hflat⟩ := insert_ready h
  rw [List.mem_append, not_or] at hx
  obtain ⟨memI, tb1, xs, hins, hxs, htb1, htab1, hmask1, hr⟩ :=
    hInsert_spec hrep htab hn (hflat ▸ hx.1)
  have hhome : t.home n.hcode = n.hcode.toNat &&& m.insertMask := by rw [HTab.home, hmask]
  rw [hhome] at hxs htb1
  have hperm := Buckets.flatten_set_perm hxs (List.Perm.refl (x :: xs))
  have htb2 := h.tb2.frame hr fun y hy hyx => hx.2 ((List.mem_singleton.mp hyx) ▸ hy)
  have hnodup : (((insertChains m c1).set (n.hcode.toNat &&& m.insertMask) (x :: xs)).flatten ++
      c2.flatten).Nodup := by
    rw [(hperm.append_right c2.flatten).nodup_iff, hflat, List.cons_append, List.nodup_cons,
      List.mem_append, not_or]
    exact ⟨hx, h.nodup⟩
  have hsize1 : tb1.size = m.tb1.size + 1 := by
    rw [htb1.size_eq, hperm.length_eq, List.length_cons, hflat, h.tb1.size_eq]
  have hguard : (m.tb2.tab.isNone ∧ tb1.size / (tb1.mask + 1) > kMaxLoadFactor) ↔ m.Doubles := by
    unfold HMap.Doubles
    rw [hsize1, hmask1, hmask, Option.isNone_iff_eq_none]
  by_cases hd : m.Doubles
  · obtain ⟨k, hk⟩ := htb1.pow2 htab1
    have hdouble : 2 * (tb1.mask + 1) = 2 ^ (k + 1) := by rw [hk, pow_succ, Nat.mul_comm]
    obtain ⟨t', ht', htab', hmask', hrep'⟩ := hInit_pow2 memI (k + 1)
    obtain rfl : c2 = [] := h.tb2.eq_nil hd.1
    have hempty : (List.replicate (2 ^ (k + 1)) ([] : List Nat)).flatten = [] := by simp
    refine ⟨memI, ⟨t', tb1, 0⟩, _, _, xs, ?_, hxs,
      ⟨⟨hrep', htb1, ?_, fun _ => htab', by simp⟩, ?_, htab',
      fun _ => ⟨rfl, rfl, ?_⟩, fun hno => absurd hd hno⟩, hr⟩
    · have hstart : hmStartResizing { m with tb1 := tb1 } = .ok ⟨t', tb1, 0⟩ := by
        simp only [hmStartResizing, hd.1, Option.isSome_none, Bool.false_eq_true, if_false,
          hdouble, ht', ok_bind, pure_eq_ok]
      simp only [hmInsert, ht, hins, ok_bind, if_pos (hguard.mpr hd), hstart]
    · rw [hempty, List.nil_append]
      simpa using hnodup
    · rw [hempty]
      simp
    · rw [hmask', ← hdouble, hmask1, hmask]
  · refine ⟨memI, { m with tb1 := tb1 }, _, c2, xs, ?_, hxs,
      ⟨⟨htb1, htb2, hnodup, fun _ => htab1, h.drained⟩,
      List.Perm.refl _, htab1, fun hyes => absurd hyes hd, fun _ => ⟨rfl, rfl, rfl, ?_⟩⟩, hr⟩
    · simp only [hmInsert, ht, hins, ok_bind, if_neg (hguard.not.mpr hd)]
    · rw [hmask1, hmask]

end NanoRedis
