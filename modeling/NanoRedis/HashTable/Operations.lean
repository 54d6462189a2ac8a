import NanoRedis.HashTable.Table

/-! The operations of one table, each with its effect on the chains. -/

namespace NanoRedis
open Intrusive
variable {mem mem' : Heap HNode} {t : HTab} {cs : List (List Nat)}

theorem hInit_pow2 (mem : Heap HNode) (k : Nat) :
    ∃ t, hInit (2 ^ k) = .ok t ∧ t.tab.isSome ∧ t.mask + 1 = 2 ^ k ∧
      TabRep mem t (List.replicate (2 ^ k) []) := by
  have hpos : 0 < 2 ^ k := Nat.two_pow_pos k
  have hand : (2 ^ k - 1) &&& 2 ^ k = 0 := by
    rw [Nat.and_comm, Nat.and_two_pow_sub_one_eq_mod, Nat.mod_self]
  refine ⟨_, if_pos ⟨hpos, hand⟩, rfl, Nat.sub_add_cancel hpos, ?_⟩
  constructor
  · exact fun _ => ⟨k, Nat.sub_add_cancel hpos⟩
  · intro _
    simp only [List.length_replicate]
    omega
  · rw [Option.getD_some, List.forall₂_iff_get]
    refine ⟨by simp, fun i h₁ h₂ => ?_⟩
    simpa using chain_nil_iff.mpr rfl
  · intro i xs hi x hx
    rw [List.mem_replicate.mp (List.mem_of_getElem? hi) |>.2] at hx
    simp at hx
  · simp

theorem TabRep.placed_set (h : TabRep mem t cs) {ys : List Nat} (hr : Relinked mem mem' ys)
    {i : Nat} {zs : List Nat} (hzs : ∀ z ∈ zs, ∃ n, mem.get? z = some n ∧ t.home n.hcode = i) :
    ∀ j xs, (cs.set i zs)[j]? = some xs →
      ∀ x ∈ xs, ∃ n, mem'.get? x = some n ∧ t.home n.hcode = j := by
  intro j xs hj x hx
  have hold : ∃ n, mem.get? x = some n ∧ t.home n.hcode = j := by
    rw [List.getElem?_set] at hj
    split_ifs at hj with hij hlt
    · subst hij
      obtain rfl : zs = xs := by simpa using hj
      exact hzs x hx
    · exact h.placed j xs hj x hx
  obtain ⟨n, hn, hhome⟩ := hold
  obtain ⟨n', hn', hcode⟩ := hr.exists_get? hn
  exact ⟨n', hn', by rw [hcode, hhome]⟩

theorem hInsert_spec (h : TabRep mem t cs) (ht : t.tab.isSome) {x : Nat} {n : HNode}
    (hn : mem.get? x = some n) (hx : x ∉ cs.flatten) :
    ∃ mem' t' xs, hInsert mem t x = .ok (mem', t') ∧ cs[t.home n.hcode]? = some xs ∧
      TabRep mem' t' (cs.set (t.home n.hcode) (x :: xs)) ∧ t'.tab.isSome ∧ t'.mask = t.mask ∧
      Relinked mem mem' [x] := by
  obtain ⟨xs, hxs⟩ := h.exists_bucket ht (t.home_lt n.hcode)
  obtain ⟨slots, p, hslots, hp, hchain⟩ := h.slot_eq hxs
  have hbucket : t.bucket (n.hcode.toNat &&& t.mask) = .ok p := by
    simp only [HTab.bucket, hslots, show slots[n.hcode.toNat &&& t.mask]? = some p from hp]
  have hset := HTab.setBucket_eq hslots hp (some x)
  have hr : Relinked mem (mem.set x { n with next := p }) [x] := Relinked.set hn p
  refine ⟨mem.set x { n with next := p },
    { t with tab := some (slots.set (t.home n.hcode) (some x)), size := t.size + 1 }, xs,
    ?_, hxs, ?_, rfl, rfl, hr⟩
  · change t.setBucket (n.hcode.toNat &&& t.mask) _ = _ at hset
    simp only [hInsert, load_some hn, hbucket, store_some hn, hset, ok_bind, pure_eq_ok]
  · have hframe := h.frame hr fun y hy => by
      rintro hmem
      exact hx ((List.mem_singleton.mp hmem) ▸ hy)
    have hnew : NodeChain (mem.set x { n with next := p }) (some x) (x :: xs) :=
      chain_cons_iff.mpr ⟨rfl, _, Heap.get?_set_self hn _, hr.chain hchain fun y hy hmem =>
        hx ((List.mem_singleton.mp hmem) ▸ Buckets.mem_flatten_of_getElem? hxs hy)⟩
    constructor
    · exact fun _ => h.pow2 ht
    · intro _
      rw [List.length_set, h.length_eq ht]
    · have hmem := hframe.chains
      rw [hslots, Option.getD_some] at hmem
      exact Buckets.forall₂_set hmem _ hnew
    · apply h.placed_set hr
      intro z hz
      rcases List.mem_cons.mp hz with rfl | hz
      · exact ⟨n, hn, rfl⟩
      · exact h.placed _ _ hxs z hz
    · have hperm := Buckets.flatten_set_perm hxs (List.Perm.refl (x :: xs))
      simp only [hperm.length_eq, List.length_cons, h.size_eq]

def Slot.after : Slot → List Nat → Slot
  | s, [] => s
  | _, x :: pre => Slot.after (.next x) pre

theorem Slot.after_concat (s : Slot) (pre : List Nat) (y : Nat) :
    s.after (pre ++ [y]) = .next y := by
  induction pre generalizing s with
  | nil => rfl
  | cons x pre ih => exact ih (.next x)

def Heads (mem : Heap HNode) (t : HTab) (s : Slot) (ys : List Nat) : Prop :=
  ∃ p, readSlot mem t s = .ok p ∧ NodeChain mem p ys

theorem TabRep.heads (h : TabRep mem t cs) {i : Nat} {xs : List Nat} (hi : cs[i]? = some xs) :
    Heads mem t (.bucket i) xs := h.bucket_eq hi

theorem Heads.next {s : Slot} {x : Nat} {ys : List Nat} (h : Heads mem t s (x :: ys)) :
    Heads mem t (.next x) ys := by
  obtain ⟨p, -, hc⟩ := h
  obtain ⟨-, n, hn, hrest⟩ := chain_cons_iff.mp hc
  exact ⟨n.next, by simp only [readSlot, load_some hn, ok_bind, pure_eq_ok], hrest⟩

theorem Heads.after {s : Slot} {pre post : List Nat} (h : Heads mem t s (pre ++ post)) :
    Heads mem t (s.after pre) post := by
  induction pre generalizing s with
  | nil => exact h
  | cons x pre ih => exact ih h.next

def Matches (mem : Heap HNode) (hcode : UInt64) (e : Nat → Bool) (y : Nat) : Prop :=
  ∃ n, mem.get? y = some n ∧ n.hcode = hcode ∧ e y = true

theorem hLookupLoop_spec {key : Nat} {kn : HNode} (hkey : mem.get? key = some kn) {eq : HEq}
    {e : Nat → Bool} {ys : List Nat} {s : Slot} (hs : Heads mem t s ys)
    (heq : ∀ y ∈ ys, eq key y = .ok (e y)) {fuel : Nat} (hfuel : ys.length < fuel) :
    (∃ pre x post, ys = pre ++ x :: post ∧ Matches mem kn.hcode e x ∧
        hLookupLoop mem t key eq fuel s = .ok (some (s.after pre))) ∨
      ((∀ y ∈ ys, ¬ Matches mem kn.hcode e y) ∧ hLookupLoop mem t key eq fuel s = .ok none) := by
  induction ys generalizing s fuel with
  | nil =>
    obtain ⟨p, hp, hc⟩ := hs
    obtain rfl := chain_nil_iff.mp hc
    cases fuel with
    | zero => simp at hfuel
    | succ fuel => exact .inr ⟨by simp, by simp only [hLookupLoop, hp, ok_bind, pure_eq_ok]⟩
  | cons y ys ih =>
    obtain ⟨p, hp, hc⟩ := id hs
    obtain ⟨rfl, n, hn, -⟩ := chain_cons_iff.mp hc
    cases fuel with
    | zero => simp at hfuel
    | succ fuel =>
      have hey := heq y (List.mem_cons_self ..)
      by_cases hm : n.hcode = kn.hcode ∧ e y = true
      · refine .inl ⟨[], y, ys, rfl, ⟨n, hn, hm.1, hm.2⟩, ?_⟩
        simp only [hLookupLoop, hp, ok_bind, load_some hn, load_some hkey, hm.1, hey, hm.2,
          if_true, pure_eq_ok, Slot.after]
      -- a cell that does not match is passed over
      · have hstep : hLookupLoop mem t key eq (fuel + 1) s =
            hLookupLoop mem t key eq fuel (.next y) := by
          by_cases hcode : n.hcode = kn.hcode
          · have he : e y = false := by simpa [hcode] using hm
            simp only [hLookupLoop, hp, ok_bind, load_some hn, load_some hkey, hcode, hey, he,
              if_true, Bool.false_eq_true, if_false]
          · simp only [hLookupLoop, hp, ok_bind, load_some hn, load_some hkey, hcode,
              if_false, Bool.false_eq_true]
        have hno : ¬ Matches mem kn.hcode e y := by
          rintro ⟨n', hn', hcode, he⟩
          obtain rfl : n = n' := Option.some.inj (hn.symm.trans hn')
          exact hm ⟨hcode, he⟩
        have hlen : ys.length < fuel := by simpa using hfuel
        rw [hstep]
        rcases ih hs.next (fun z hz => heq z (List.mem_cons_of_mem _ hz)) hlen with
          ⟨pre, x, post, rfl, hx, hrun⟩ | ⟨hnone, hrun⟩
        · exact .inl ⟨y :: pre, x, post, rfl, hx, hrun⟩
        · refine .inr ⟨fun z hz => ?_, hrun⟩
          rcases List.mem_cons.mp hz with rfl | hz
          · exact hno
          · exact hnone z hz

def Collides (mem : Heap HNode) (hcode : UInt64) (y : Nat) : Prop :=
  (mem.get? y).map HNode.hcode = some hcode

theorem Collides.relinked_iff {xs : List Nat} (hr : Relinked mem mem' xs) {hcode : UInt64}
    {y : Nat} : Collides mem' hcode y ↔ Collides mem hcode y := by
  unfold Collides
  rw [hr.hcode_eq]

theorem hLookupLoop_fault {key : Nat} {kn : HNode} (hkey : mem.get? key = some kn) {eq : HEq}
    {e : Fault} {ys : List Nat} {s : Slot} (hs : Heads mem t s ys)
    (hfault : ∀ y ∈ ys, eq key y = .error e) {fuel : Nat} (hfuel : ys.length < fuel) :
    ((∃ y ∈ ys, Collides mem kn.hcode y) → hLookupLoop mem t key eq fuel s = .error e) ∧
      ((∀ y ∈ ys, ¬ Collides mem kn.hcode y) →
        hLookupLoop mem t key eq fuel s = .ok none) := by
  induction ys generalizing s fuel with
  | nil =>
    obtain ⟨p, hp, hc⟩ := hs
    obtain rfl := chain_nil_iff.mp hc
    cases fuel with
    | zero => simp at hfuel
    | succ fuel => exact ⟨by simp, fun _ => by simp only [hLookupLoop, hp, ok_bind, pure_eq_ok]⟩
  | cons y ys ih =>
    obtain ⟨p, hp, hc⟩ := id hs
    obtain ⟨rfl, n, hn, -⟩ := chain_cons_iff.mp hc
    cases fuel with
    | zero => simp at hfuel
    | succ fuel =>
      have hcollides : Collides mem kn.hcode y ↔ n.hcode = kn.hcode := by
        unfold Collides
        rw [hn, Option.map_some, Option.some.injEq]
      have hey := hfault y (List.mem_cons_self ..)
      by_cases hcode : n.hcode = kn.hcode
      · refine ⟨fun _ => ?_, fun hno => ?_⟩
        · simp only [hLookupLoop, hp, ok_bind, load_some hn, load_some hkey, hcode, hey, if_true,
            error_bind]
        · exact absurd (hcollides.mpr hcode) (hno y (List.mem_cons_self ..))
      · have hstep : hLookupLoop mem t key eq (fuel + 1) s =
            hLookupLoop mem t key eq fuel (.next y) := by
          simp only [hLookupLoop, hp, ok_bind, load_some hn, load_some hkey, hcode, if_false,
            Bool.false_eq_true]
        obtain ⟨hyes, hno⟩ := ih hs.next (fun z hz => hfault z (List.mem_cons_of_mem _ hz))
          (show ys.length < fuel by simpa using hfuel)
        rw [hstep]
        refine ⟨?_, fun hnone => hno fun z hz => hnone z (List.mem_cons_of_mem _ hz)⟩
        rintro ⟨z, hz, hcz⟩
        rcases List.mem_cons.mp hz with rfl | hz
        · exact absurd (hcollides.mp hcz) hcode
        · exact hyes ⟨z, hz, hcz⟩

theorem hLookup_eq_loop (ht : t.tab.isSome) {key : Nat} {kn : HNode}
    (hkey : mem.get? key = some kn) {eq : HEq} :
    hLookup mem t key eq =
      hLookupLoop mem t key eq (mem.brk + 1) (.bucket (t.home kn.hcode)) := by
  have hpos : kn.hcode.toNat &&& t.mask < t.mask + 1 := t.home_lt kn.hcode
  have hnone : t.tab.isNone = false := by rwa [Option.isNone_eq_false_iff]
  simp only [hLookup, hnone, Bool.false_eq_true, if_false, load_some hkey, ok_bind, hpos,
    not_true_eq_false, pure_eq_ok, HTab.home]

theorem TabRep.mem_home (h : TabRep mem t cs) {hcode : UInt64} {xs : List Nat}
    (hxs : cs[t.home hcode]? = some xs) {y : Nat} (hy : y ∈ cs.flatten)
    (hcode' : Collides mem hcode y) : y ∈ xs := by
  obtain ⟨ys, hys, hy⟩ := List.mem_flatten.mp hy
  obtain ⟨j, hj⟩ := List.mem_iff_getElem?.mp hys
  obtain ⟨n, hn, hhome⟩ := h.placed j ys hj y hy
  unfold Collides at hcode'
  rw [hn, Option.map_some, Option.some.injEq] at hcode'
  rw [hcode'] at hhome
  obtain rfl : xs = ys := Option.some.inj (hxs.symm.trans (hhome ▸ hj))
  exact hy

theorem hLookup_spec (h : TabRep mem t cs) {key : Nat} {kn : HNode} (hkey : mem.get? key = some kn)
    {eq : HEq} {e : Nat → Bool} (heq : ∀ y ∈ cs.flatten, eq key y = .ok (e y)) :
    (∃ i pre x post, cs[i]? = some (pre ++ x :: post) ∧ Matches mem kn.hcode e x ∧
        hLookup mem t key eq = .ok (some ((Slot.bucket i).after pre))) ∨
      ((∀ y ∈ cs.flatten, ¬ Matches mem kn.hcode e y) ∧ hLookup mem t key eq = .ok none) := by
  cases htab : t.tab with
  | none =>
    obtain rfl := h.eq_nil htab
    exact .inr ⟨by simp, by simp [hLookup, htab]⟩
  | some slots =>
    have hsome : t.tab.isSome := by simp [htab]
    obtain ⟨xs, hxs⟩ := h.exists_bucket hsome (t.home_lt kn.hcode)
    have hchain : xs.length < mem.brk + 1 := by
      obtain ⟨p, -, hc⟩ := h.bucket_eq hxs
      exact Nat.lt_succ_of_le hc.length_le_brk
    rw [hLookup_eq_loop hsome hkey]
    rcases hLookupLoop_spec hkey (h.heads hxs)
        (fun y hy => heq y (Buckets.mem_flatten_of_getElem? hxs hy)) hchain with
      ⟨pre, x, post, rfl, hx, hloop⟩ | ⟨hnone, hloop⟩
    · exact .inl ⟨_, pre, x, post, hxs, hx, hloop⟩
    -- a match in another bucket would not be placed by its hash code
    · refine .inr ⟨fun y hy => ?_, hloop⟩
      rintro ⟨n, hn, hcode, he⟩
      have hcollides : Collides mem kn.hcode y := by rw [Collides, hn, Option.map_some, hcode]
      exact hnone y (h.mem_home hxs hy hcollides) ⟨n, hn, hcode, he⟩

theorem hLookup_fault (h : TabRep mem t cs) {key : Nat} {kn : HNode}
    (hkey : mem.get? key = some kn) {eq : HEq} {e : Fault}
    (hfault : ∀ y ∈ cs.flatten, eq key y = .error e) :
    ((∃ y ∈ cs.flatten, Collides mem kn.hcode y) → hLookup mem t key eq = .error e) ∧
      ((∀ y ∈ cs.flatten, ¬ Collides mem kn.hcode y) → hLookup mem t key eq = .ok none) := by
  cases htab : t.tab with
  | none =>
    obtain rfl := h.eq_nil htab
    exact ⟨by simp, fun _ => by simp [hLookup, htab]⟩
  | some slots =>
    have hsome : t.tab.isSome := by simp [htab]
    obtain ⟨xs, hxs⟩ := h.exists_bucket hsome (t.home_lt kn.hcode)
    have hsub {y : Nat} (hy : y ∈ xs) : y ∈ cs.flatten := Buckets.mem_flatten_of_getElem? hxs hy
    have hchain : xs.length < mem.brk + 1 := by
      obtain ⟨p, -, hc⟩ := h.bucket_eq hxs
      exact Nat.lt_succ_of_le hc.length_le_brk
    obtain ⟨hyes, hno⟩ := hLookupLoop_fault hkey (h.heads hxs) (fun y hy => hfault y (hsub hy))
      hchain
    rw [hLookup_eq_loop hsome hkey]
    refine ⟨?_, fun hnone => hno fun y hy => hnone y (hsub hy)⟩
    rintro ⟨y, hy, hcode⟩
    exact hyes ⟨y, h.mem_home hxs hy hcode, hcode⟩

theorem TabRep.detached {slots : List Ptr} (h : TabRep mem t cs) (ht : t.tab = some slots) {i : Nat}
    {pre post : List Nat} {x : Nat} (hi : cs[i]? = some (pre ++ x :: post)) {ys : List Nat}
    (hr : Relinked mem mem' ys) {slots' : List Ptr}
    (hc : List.Forall₂ (NodeChain mem') slots' (cs.set i (pre ++ post))) :
    TabRep mem' { t with tab := some slots', size := t.size - 1 } (cs.set i (pre ++ post)) := by
  have hsome : t.tab.isSome := by simp [ht]
  refine ⟨fun _ => h.pow2 hsome, fun _ => ?_, hc, h.placed_set hr fun z hz => ?_, ?_⟩
  · rw [List.length_set, h.length_eq hsome]
  · exact h.placed i _ hi z (by
      rcases List.mem_append.mp hz with hz | hz
      · exact List.mem_append_left _ hz
      · exact List.mem_append_right _ (List.mem_cons_of_mem _ hz))
  · have hlen := (Buckets.flatten_perm_of_mem hi).length_eq
    rw [List.length_cons] at hlen
    simp only [h.size_eq, hlen, Nat.add_sub_cancel]

theorem hDetach_spec (h : TabRep mem t cs) (hnodup : cs.flatten.Nodup) {i : Nat}
    {pre post : List Nat} {x : Nat} (hi : cs[i]? = some (pre ++ x :: post)) :
    ∃ mem' t', hDetach mem t ((Slot.bucket i).after pre) = .ok (some x, mem', t') ∧
      TabRep mem' t' (cs.set i (pre ++ post)) ∧ t'.tab.isSome ∧ t'.mask = t.mask ∧
      Relinked mem mem' pre := by
  obtain ⟨slots, p, hslots, hp, hchain⟩ := h.slot_eq hi
  obtain ⟨px, hpx, hx⟩ := (h.heads hi).after
  obtain ⟨rfl, n, hn, hpost⟩ := chain_cons_iff.mp hx
  rcases List.eq_nil_or_concat' pre with rfl | ⟨pre, y, rfl⟩
  · have hr : Relinked mem mem [] := Relinked.refl ..
    refine ⟨mem, { t with tab := some (slots.set i n.next), size := t.size - 1 }, ?_,
      h.detached hslots hi hr (h.chains_set hslots hnodup hi hr (List.nil_subset _) hpost), rfl,
        rfl, hr⟩
    change readSlot mem t (.bucket i) = _ at hpx
    simp only [hDetach, Slot.after, hpx, load_some hn, writeSlot, HTab.setBucket_eq hslots hp,
      ok_bind, pure_eq_ok]
  · rw [Slot.after_concat] at hpx ⊢
    have hcut : (pre ++ [y]) ++ x :: post = pre ++ y :: x :: post := by simp
    rw [hcut] at hchain
    -- `y` precedes `x` in the chain: its `next` field is the slot that is rewritten
    obtain ⟨ny, hny⟩ := Seg.exists_get? hchain (List.mem_append_right pre (List.mem_cons_self ..))
    have hr : Relinked mem (mem.set y { ny with next := n.next }) [y] := Relinked.set hny n.next
    have hc : NodeChain (mem.set y { ny with next := n.next }) p ((pre ++ [y]) ++ post) := by
      simpa using Chain.unlink hchain hny hn (v := { ny with next := n.next }) rfl
    have hself : slots.set i p = slots := by
      rw [← (List.getElem?_eq_some_iff.mp hp).2, List.set_getElem_self]
    have hall := h.chains_set hslots hnodup hi hr (by simp) hc
    rw [hself] at hall
    have hdet := h.detached hslots hi hr hall
    rw [← hslots] at hdet
    refine ⟨_, _, ?_, hdet, by simp [hslots], rfl, hr.mono (by simp)⟩
    simp only [hDetach, hpx, load_some hn, writeSlot, load_some hny, store_some hny, ok_bind,
      pure_eq_ok]

/-! ## Scanning -/

theorem hScanChain_spec {α : Type} {f : α → Nat → Except Fault α} {g : α → Nat → α} {p : Ptr}
    {xs : List Nat} (hc : NodeChain mem p xs) (hf : ∀ a, ∀ x ∈ xs, f a x = .ok (g a x)) {fuel : Nat}
    (hfuel : xs.length ≤ fuel) (arg : α) : hScanChain mem f fuel p arg = .ok (xs.foldl g arg) := by
  induction xs generalizing p fuel arg with
  | nil =>
    obtain rfl := chain_nil_iff.mp hc
    cases fuel <;> rfl
  | cons x xs ih =>
    obtain ⟨rfl, n, hn, hrest⟩ := chain_cons_iff.mp hc
    cases fuel with
    | zero => simp at hfuel
    | succ fuel =>
      simp only [hScanChain, hf arg x (List.mem_cons_self ..), load_some hn, ok_bind,
        List.foldl_cons]
      exact ih hrest (fun a y hy => hf a y (List.mem_cons_of_mem _ hy)) (by simpa using hfuel) _

theorem hScan_spec {α : Type} {f : α → Nat → Except Fault α} {g : α → Nat → α} (h : TabRep mem t cs)
    (hf : ∀ a, ∀ x ∈ cs.flatten, f a x = .ok (g a x)) (arg : α) :
    hScan mem t f arg = .ok (cs.flatten.foldl g arg) := by
  by_cases hsize : t.size = 0
  · have hnil : cs.flatten = [] := List.length_eq_zero_iff.mp (h.size_eq ▸ hsize)
    simp only [hScan, if_pos hsize, hnil, List.foldl_nil]
  · have hsome : t.tab.isSome := by
      cases htab : t.tab with
      | none =>
        obtain rfl := h.eq_nil htab
        exact absurd h.size_eq hsize
      | some slots => rfl
    -- after the buckets below `k`, the argument has seen exactly their chains
    have hprefix : ∀ k, k ≤ t.mask + 1 → (List.range k).foldlM (fun arg i => do
        let head ← t.bucket i
        hScanChain mem f mem.brk head arg) arg = .ok ((cs.take k).flatten.foldl g arg) := by
      intro k hk
      induction k with
      | zero => rfl
      | succ k ih =>
        obtain ⟨xs, hxs⟩ := h.exists_bucket hsome (show k < t.mask + 1 by omega)
        obtain ⟨p, hp, hc⟩ := h.bucket_eq hxs
        have hchain := hScanChain_spec hc
          (fun a x hx => hf a x (Buckets.mem_flatten_of_getElem? hxs hx)) hc.length_le_brk
        rw [List.range_succ, List.foldlM_append, ih (by omega)]
        simp only [ok_bind, List.foldlM_cons, List.foldlM_nil, hp, hchain, pure_eq_ok,
          List.take_add_one, hxs, Option.toList_some, List.flatten_append, List.flatten_cons,
          List.flatten_nil, List.append_nil, List.foldl_append]
    rw [hScan, if_neg hsize, hprefix _ le_rfl, ← h.length_eq hsome, List.take_length]

end NanoRedis
