import NanoRedis.HashTable.Defs
import NanoRedis.Lib.Buckets

/-! What one table holds: a list of chains, one a bucket, and the effect of
each table operation on it. -/

namespace NanoRedis
open Intrusive

abbrev NodeChain (mem : Heap HNode) (p : Ptr) (xs : List Nat) : Prop := Chain HNode.next mem p xs

def HTab.home (t : HTab) (hcode : UInt64) : Nat := hcode.toNat &&& t.mask

theorem HTab.home_lt (t : HTab) (hcode : UInt64) : t.home hcode < t.mask + 1 :=
  Nat.lt_succ_of_le Nat.and_le_right

/-- `mem'` differs from `mem` in the `next` fields of the cells `xs` at most. -/
structure Relinked (mem mem' : Heap HNode) (xs : List Nat) : Prop where
  hcode_eq : ∀ a, (mem'.get? a).map HNode.hcode = (mem.get? a).map HNode.hcode
  get?_eq : ∀ a, a ∉ xs → mem'.get? a = mem.get? a

namespace Relinked
variable {mem mem' mem'' : Heap HNode} {xs ys : List Nat}

theorem refl (mem : Heap HNode) (xs : List Nat) : Relinked mem mem xs :=
  ⟨fun _ => rfl, fun _ _ => rfl⟩

theorem mono (h : Relinked mem mem' xs) (hsub : xs ⊆ ys) : Relinked mem mem' ys :=
  ⟨h.hcode_eq, fun a ha => h.get?_eq a fun hx => ha (hsub hx)⟩

theorem trans (h : Relinked mem mem' xs) (h' : Relinked mem' mem'' xs) : Relinked mem mem'' xs :=
  ⟨fun a => (h'.hcode_eq a).trans (h.hcode_eq a),
    fun a ha => (h'.get?_eq a ha).trans (h.get?_eq a ha)⟩

theorem set {a : Nat} {n : HNode} (hn : mem.get? a = some n) (p : Ptr) :
    Relinked mem (mem.set a { n with next := p }) [a] := by
  constructor
  · intro b
    by_cases hb : b = a
    · subst b
      rw [Heap.get?_set_self hn, hn]
      rfl
    · rw [Heap.get?_set_ne _ hb]
  · intro b hb
    exact Heap.get?_set_ne _ (by simpa using hb) _

theorem exists_get? (h : Relinked mem mem' xs) {a : Nat} {n : HNode} (hn : mem.get? a = some n) :
    ∃ n', mem'.get? a = some n' ∧ n'.hcode = n.hcode := by
  have ha := h.hcode_eq a
  rw [hn, Option.map_some, Option.map_eq_some_iff] at ha
  exact ha

theorem chain (h : Relinked mem mem' xs) {p : Ptr} {zs : List Nat} (hc : NodeChain mem p zs)
    (hdis : ∀ z ∈ zs, z ∉ xs) : NodeChain mem' p zs :=
  Seg.congr hc fun z hz => by rw [h.get?_eq z (hdis z hz)]

end Relinked

theorem HTab.setBucket_eq {t : HTab} {slots : List Ptr} (hslots : t.tab = some slots) {i : Nat}
    {q : Ptr} (hi : slots[i]? = some q) (p : Ptr) :
    t.setBucket i p = .ok { t with tab := some (slots.set i p) } := by
  simp only [HTab.setBucket, hslots, if_pos (List.getElem?_eq_some_iff.mp hi).1]

structure TabRep (mem : Heap HNode) (t : HTab) (cs : List (List Nat)) : Prop where
  pow2 : t.tab.isSome → ∃ k, t.mask + 1 = 2 ^ k
  length_eq : t.tab.isSome → cs.length = t.mask + 1
  chains : List.Forall₂ (NodeChain mem) (t.tab.getD []) cs
  placed : ∀ i xs, cs[i]? = some xs → ∀ x ∈ xs, ∃ n, mem.get? x = some n ∧ t.home n.hcode = i
  size_eq : t.size = cs.flatten.length

namespace TabRep
variable {mem mem' : Heap HNode} {t : HTab} {cs : List (List Nat)}

theorem null (mem : Heap HNode) : TabRep mem {} [] :=
  ⟨by simp, by simp, .nil, by simp, rfl⟩

theorem eq_nil (h : TabRep mem t cs) (ht : t.tab = none) : cs = [] := by
  have hc := h.chains
  rw [ht] at hc
  simpa using hc

theorem slot_eq (h : TabRep mem t cs) {i : Nat} {xs : List Nat} (hi : cs[i]? = some xs) :
    ∃ slots p, t.tab = some slots ∧ slots[i]? = some p ∧ NodeChain mem p xs := by
  obtain ⟨p, hp, hc⟩ := Buckets.forall₂_getElem? (List.Forall₂.flip h.chains) hi
  cases htab : t.tab with
  | none => simp [htab] at hp
  | some slots => exact ⟨slots, p, rfl, by simpa [htab] using hp, hc⟩

theorem isSome_of_bucket (h : TabRep mem t cs) {i : Nat} {xs : List Nat}
    (hi : cs[i]? = some xs) : t.tab.isSome := by
  obtain ⟨slots, -, hslots, -⟩ := h.slot_eq hi
  rw [hslots]
  rfl

theorem bucket_eq (h : TabRep mem t cs) {i : Nat} {xs : List Nat} (hi : cs[i]? = some xs) :
    ∃ p, t.bucket i = .ok p ∧ NodeChain mem p xs := by
  obtain ⟨slots, p, hslots, hp, hc⟩ := h.slot_eq hi
  exact ⟨p, by simp only [HTab.bucket, hslots, hp], hc⟩

theorem exists_bucket (h : TabRep mem t cs) (ht : t.tab.isSome) {i : Nat} (hi : i < t.mask + 1) :
    ∃ xs, cs[i]? = some xs := by
  have hlt : i < cs.length := by rwa [h.length_eq ht]
  exact ⟨cs[i], List.getElem?_eq_getElem hlt⟩

theorem chains_set (h : TabRep mem t cs) {slots : List Ptr} (hslots : t.tab = some slots)
    (hnodup : cs.flatten.Nodup) {i : Nat} {xs ys zs : List Nat} (hi : cs[i]? = some xs)
    (hr : Relinked mem mem' ys) (hsub : ys ⊆ xs) {p : Ptr} (hc : NodeChain mem' p zs) :
    List.Forall₂ (NodeChain mem') (slots.set i p) (cs.set i zs) := by
  have hmem := h.chains
  rw [hslots, Option.getD_some, List.forall₂_iff_get] at hmem
  rw [List.forall₂_iff_get]
  refine ⟨by simpa using hmem.1, fun j h₁ h₂ => ?_⟩
  simp only [List.get_eq_getElem, List.getElem_set]
  split_ifs with hij
  · exact hc
  · have hj : j < cs.length := by simpa using h₂
    apply hr.chain (hmem.2 j (by simpa using h₁) hj)
    intro z hz hzy
    exact Buckets.notMem_of_nodup_flatten hnodup hij hi (List.getElem?_eq_getElem hj) (hsub hzy) hz

theorem exists_get? (h : TabRep mem t cs) {x : Nat} (hx : x ∈ cs.flatten) :
    ∃ n, mem.get? x = some n := by
  obtain ⟨xs, hxs, hx⟩ := List.mem_flatten.mp hx
  obtain ⟨i, hi⟩ := List.mem_iff_getElem?.mp hxs
  obtain ⟨n, hn, -⟩ := h.placed i xs hi x hx
  exact ⟨n, hn⟩

theorem congr (h : TabRep mem t cs) (hag : ∀ x ∈ cs.flatten, mem'.get? x = mem.get? x) :
    TabRep mem' t cs where
  pow2 := h.pow2
  length_eq := h.length_eq
  chains := by
    have hmem := h.chains
    rw [List.forall₂_iff_get] at hmem ⊢
    refine ⟨hmem.1, fun i h₁ h₂ => Seg.congr (hmem.2 i h₁ h₂) fun x hx => ?_⟩
    rw [hag x (List.mem_flatten.mpr ⟨_, List.get_mem _ _, hx⟩)]
  placed := by
    intro i xs hi x hx
    obtain ⟨n, hn, hhome⟩ := h.placed i xs hi x hx
    exact ⟨n, by rw [hag x (Buckets.mem_flatten_of_getElem? hi hx), hn], hhome⟩
  size_eq := h.size_eq

theorem frame (h : TabRep mem t cs) {ys : List Nat} (hr : Relinked mem mem' ys)
    (hdis : ∀ x ∈ cs.flatten, x ∉ ys) : TabRep mem' t cs :=
  h.congr fun x hx => hr.get?_eq x (hdis x hx)

end TabRep

end NanoRedis
