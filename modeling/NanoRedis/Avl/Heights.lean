import NanoRedis.Avl.Balancing

/-! The heights that `avl_update` stores when it is applied to the nodes of a tree from
below. The empty tree counts as `2 ^ 32 - 1`, and `max` prefers it to any other height. -/

namespace NanoRedis
open Intrusive BinaryTree

def storedHeight : BinaryTree Nat → UInt32
  | nil => -1
  | BinaryTree.node _ l r => 1 + maxU32 (storedHeight l) (storedHeight r)

def avlUpdates (mem : Heap AVLNode) (order : List Nat) : Except Fault (Heap AVLNode) :=
  order.foldlM (fun mem a => avlUpdate mem (some a)) mem

structure BottomUp (t : BinaryTree Nat) (order : List Nat) : Prop where
  mem_iff : ∀ a, a ∈ order ↔ a ∈ inorder t
  children : ∀ a l r pre post, Subtree (BinaryTree.node a l r) t → order = pre ++ a :: post →
    ∀ c x y, l = BinaryTree.node c x y ∨ r = BinaryTree.node c x y → c ∈ pre

theorem bottomUp_postorder {t : BinaryTree Nat} (hnodup : (inorder t).Nodup) :
    BottomUp t (postorder t) := by
  refine ⟨fun a => (postorder_perm t).mem_iff, fun a l r pre post hsub hsplit c x y hchild => ?_⟩
  obtain ⟨pre', post', hsplit', hl, hr⟩ := postorder_split hsub
  have hnodup' := (postorder_perm t).nodup_iff.mpr hnodup
  rw [hsplit'] at hnodup' hsplit
  obtain ⟨hapre, hapost⟩ := notMem_of_nodup_middle hnodup'
  obtain ⟨rfl, -, -⟩ := (List.append_cons_inj_of_notMem hapre hapost).mp hsplit
  rcases hchild with rfl | rfl
  · exact hl (by simp [inorder])
  · exact hr (by simp [inorder])

def Full (t : BinaryTree Nat) : Prop := Everywhere (fun _ l r => l = nil ↔ r = nil) t

def Settled (mem : Heap AVLNode) (t : BinaryTree Nat) (done : List Nat) : Prop :=
  ∀ a l r, Subtree (BinaryTree.node a l r) t → a ∈ done → ∃ n, mem.get? a = some n ∧
    n.height = storedHeight (BinaryTree.node a l r) ∧
    n.cnt = UInt32.ofNat (l.numNodes + r.numNodes + 1)

section Updates
variable {mem : Heap AVLNode} {p up : Ptr} {t : BinaryTree Nat} {done : List Nat}

theorem settled_reads {s : BinaryTree Nat} {q q' : Ptr} (hsettled : Settled mem t done)
    (hsub : Subtree s t) (hs : LinkedTree avlLinks mem q q' s)
    (hdone : ∀ c x y, s = BinaryTree.node c x y → c ∈ done) :
    avlHeight mem q = .ok (storedHeight s) ∧ avlCnt mem q = .ok (UInt32.ofNat s.numNodes) := by
  cases s with
  | nil =>
    obtain rfl := hs.eq_none
    exact ⟨rfl, rfl⟩
  | node c x y =>
    obtain ⟨rfl, -⟩ := hs.root
    obtain ⟨n, hn, hheight, hcnt⟩ := hsettled c x y hsub (hdone c x y rfl)
    simp only [avlHeight, avlCnt, load_some hn, ok_bind, pure_eq_ok, hheight, hcnt, numNodes,
      and_self]

theorem avlUpdate_settles {a : Nat} {l r : BinaryTree Nat}
    (hlinked : LinkedTree avlLinks mem p up t) (hnodup : (inorder t).Nodup)
    (hsettled : Settled mem t done) (hsub : Subtree (BinaryTree.node a l r) t)
    (hdone : ∀ c x y, l = BinaryTree.node c x y ∨ r = BinaryTree.node c x y → c ∈ done) :
    ∃ mem', avlUpdate mem (some a) = .ok mem' ∧ LinkedTree avlLinks mem' p up t ∧
      Settled mem' t (done ++ [a]) := by
  obtain ⟨q, q', hnode⟩ := hlinked.subtree hsub
  obtain ⟨-, n, hn, -, hl, hr⟩ := hnode.root
  obtain ⟨hal, har⟩ := notMem_of_nodup_middle (hsub.sublist.nodup hnodup)
  obtain ⟨hlh, hlc⟩ := settled_reads hsettled hsub.left_child hl fun c x y h => hdone c x y (.inl h)
  obtain ⟨hrh, hrc⟩ := settled_reads hsettled hsub.right_child hr fun c x y h =>
    hdone c x y (.inr h)
  obtain ⟨mem', hupdate, htouch, hcell⟩ :=
    avlUpdate_cell hn (hl.ne_some hal) (hr.ne_some har) hlh hrh hlc hrc
  refine ⟨mem', hupdate, hlinked.congr fun x _ v hv => ?_, fun b x y hb hmem => ?_⟩
  · by_cases hxa : x = a
    · subst hxa
      obtain rfl := Option.some.inj (hn.symm.trans hv)
      exact ⟨_, hcell, rfl, rfl, rfl⟩
    · exact ⟨v, htouch.get?_some (by simpa using hxa) hv, rfl, rfl, rfl⟩
  · by_cases hba : b = a
    · subst hba
      obtain ⟨rfl, rfl⟩ := hsub.unique hnodup hb
      exact ⟨_, hcell, rfl, one_add_ofNat ..⟩
    · have hmem' : b ∈ done := by simpa [hba] using hmem
      obtain ⟨m, hm, hfields⟩ := hsettled b x y hb hmem'
      exact ⟨m, htouch.get?_some (by simpa using hba) hm, hfields⟩

theorem avlUpdates_settle {rest : List Nat} (hlinked : LinkedTree avlLinks mem p up t)
    (hnodup : (inorder t).Nodup) (hsettled : Settled mem t done)
    (horder : BottomUp t (done ++ rest)) :
    ∃ mem', avlUpdates mem rest = .ok mem' ∧ LinkedTree avlLinks mem' p up t ∧
      Settled mem' t (done ++ rest) := by
  induction rest generalizing mem done with
  | nil => exact ⟨mem, rfl, hlinked, by simpa using hsettled⟩
  | cons a rest ih =>
    obtain ⟨l, r, hsub⟩ := Subtree.exists_of_mem ((horder.mem_iff a).mp (by simp))
    obtain ⟨mem₁, hupdate, hlinked₁, hsettled₁⟩ := avlUpdate_settles hlinked hnodup hsettled hsub
      (horder.children a l r done rest hsub rfl)
    obtain ⟨mem', hrun, hrest⟩ := ih hlinked₁ hsettled₁ (by simpa using horder)
    refine ⟨mem', ?_, by simpa using hrest⟩
    simp only [avlUpdates, List.foldlM_cons, hupdate, ok_bind]
    exact hrun

end Updates

section Heights

theorem toNat_maxU32 (i j : UInt32) : (maxU32 i j).toNat = max i.toNat j.toNat := by
  rw [maxU32]
  split_ifs with h
  · exact (max_eq_left (le_of_lt h)).symm
  · exact (max_eq_right (not_lt.mp h)).symm

theorem one_add_maxU32_neg_one (i : UInt32) : 1 + maxU32 (-1) i = 0 ∧ 1 + maxU32 i (-1) = 0 := by
  have htop : ((-1 : UInt32)).toNat = 2 ^ 32 - 1 := rfl
  have hi := i.toNat_lt
  have hleft : maxU32 (-1) i = -1 := UInt32.toNat_inj.mp (by rw [toNat_maxU32, htop]; omega)
  have hright : maxU32 i (-1) = -1 := UInt32.toNat_inj.mp (by rw [toNat_maxU32, htop]; omega)
  rw [hleft, hright]
  exact ⟨rfl, rfl⟩

theorem toNat_storedHeight {t : BinaryTree Nat} (hfull : Full t) (hsize : t.numNodes < 2 ^ 32)
    (hne : t ≠ nil) : (storedHeight t).toNat + 1 = t.height := by
  induction t with
  | nil => exact absurd rfl hne
  | node a l r ihl ihr =>
    obtain ⟨hboth, hl, hr⟩ := hfull
    have hlen := height_le_numNodes (BinaryTree.node a l r)
    simp only [numNodes, height] at hsize hlen
    by_cases hnil : l = nil
    · obtain rfl := hnil
      obtain rfl := hboth.mp rfl
      rfl
    · have hlh := ihl hl (by omega) hnil
      have hrh := ihr hr (by omega) fun h => hnil (hboth.mpr h)
      have hmax := toNat_maxU32 (storedHeight l) (storedHeight r)
      rw [storedHeight, UInt32.toNat_add, hmax, height]
      have hone : (1 : UInt32).toNat = 1 := rfl
      omega

theorem storedHeight_of_one_child {l r : BinaryTree Nat} (a : Nat) (h : ¬ (l = nil ↔ r = nil)) :
    storedHeight (BinaryTree.node a l r) = 0 ∧ 0 < max l.height r.height := by
  cases l with
  | nil =>
    cases r with
    | nil => exact absurd Iff.rfl h
    | node b x y => exact ⟨(one_add_maxU32_neg_one _).1, by simp⟩
  | node b x y =>
    cases r with
    | nil => exact ⟨(one_add_maxU32_neg_one _).2, by simp⟩
    | node c z w => exact absurd (iff_of_false nofun nofun) h

theorem trueHeights_iff {mem : Heap AVLNode} {t : BinaryTree Nat}
    (hsettled : Settled mem t (inorder t)) (hsize : t.numNodes < 2 ^ 32) :
    TrueHeights mem t ↔ Full t := by
  unfold TrueHeights
  rw [Full, everywhere_iff, everywhere_iff]
  constructor
  · intro hheights a l r hsub
    by_contra hone
    obtain ⟨n, hn, htrue⟩ := hheights a l r hsub
    obtain ⟨m, hm, hstored, -⟩ := hsettled a l r hsub hsub.mem
    obtain rfl := Option.some.inj (hn.symm.trans hm)
    obtain ⟨hzero, hpos⟩ := storedHeight_of_one_child a hone
    rw [hstored, hzero] at htrue
    exact absurd hpos (by rw [← htrue]; decide)
  · intro hfull a l r hsub
    obtain ⟨n, hn, hstored, -⟩ := hsettled a l r hsub hsub.mem
    have hfull' : Full (BinaryTree.node a l r) :=
      everywhere_iff.mpr fun b x y hb => hfull b x y (hb.trans hsub)
    have hheight := toNat_storedHeight hfull' (hsub.numNodes_le.trans_lt hsize) nofun
    refine ⟨n, hn, ?_⟩
    rw [hstored]
    simpa [height] using hheight

theorem trueCounts_of_settled {mem : Heap AVLNode} {t : BinaryTree Nat}
    (hsettled : Settled mem t (inorder t)) (hsize : t.numNodes < 2 ^ 32) : TrueCounts mem t := by
  apply everywhere_iff.mpr
  intro a l r hsub
  obtain ⟨n, hn, -, hcnt⟩ := hsettled a l r hsub hsub.mem
  have hsmall := hsub.numNodes_le
  simp only [numNodes] at hsmall
  exact ⟨n, hn, by rw [hcnt, UInt32.toNat_ofNat', Nat.mod_eq_of_lt (by omega)]⟩

end Heights

/-- Updates from below always complete, keep the links and count the nodes; the heights they
store are the true ones exactly for the trees without a node that has just one child. -/
theorem heights_true_iff {mem : Heap AVLNode} {p up : Ptr} {t : BinaryTree Nat} {order : List Nat}
    (hlinked : LinkedTree avlLinks mem p up t) (hnodup : (inorder t).Nodup)
    (hsize : t.numNodes < 2 ^ 32) (horder : BottomUp t order) :
    ∃ mem', avlUpdates mem order = .ok mem' ∧ LinkedTree avlLinks mem' p up t ∧
      TrueCounts mem' t ∧ (TrueHeights mem' t ∧ TrueCounts mem' t ↔ Full t) := by
  have hstart : Settled mem t [] := fun a l r _ h => absurd h List.not_mem_nil
  obtain ⟨mem', hrun, hlinked', hdone⟩ := avlUpdates_settle hlinked hnodup hstart horder
  have hsettled : Settled mem' t (inorder t) := fun a l r hsub ha =>
    hdone a l r hsub ((horder.mem_iff a).mpr ha)
  have hcounts := trueCounts_of_settled hsettled hsize
  refine ⟨mem', hrun, hlinked', hcounts, ?_⟩
  rw [and_iff_left hcounts]
  exact trueHeights_iff hsettled hsize

def freshPair : Heap AVLNode :=
  ⟨[some { cnt := 1, parent := some 1 }, some { cnt := 1, left := some 0, right := some 2 },
    some { cnt := 1, parent := some 1 }]⟩

theorem heights_true_iff_freshPair :
    let t := BinaryTree.node 1 (.node 0 .nil .nil) (.node 2 .nil .nil)
    ∃ mem', avlUpdates freshPair [0, 2, 1] = .ok mem' ∧
      LinkedTree avlLinks mem' (some 1) none t ∧ TrueCounts mem' t ∧
      (TrueHeights mem' t ∧ TrueCounts mem' t ↔ Full t) :=
  heights_true_iff
    (.node rfl rfl (.node rfl rfl (.nil _) (.nil _)) (.node rfl rfl (.nil _) (.nil _)))
    (by decide) (by decide) (bottomUp_postorder (by decide))

theorem only_child_height :
    let t := BinaryTree.node 1 (.node 0 .nil .nil) .nil
    let mem : Heap AVLNode :=
      ⟨[some { cnt := 1, parent := some 1 }, some { cnt := 1, left := some 0 }]⟩
    LinkedTree avlLinks mem (some 1) none t ∧ (inorder t).Nodup ∧ t.numNodes < 2 ^ 32 ∧
      BottomUp t [0, 1] ∧
      ∃ mem' n, avlUpdates mem [0, 1] = .ok mem' ∧ mem'.get? 1 = some n ∧ n.height = 0 ∧
        ¬ TrueHeights mem' t := by
  refine ⟨.node rfl rfl (.node rfl rfl (.nil _) (.nil _)) (.nil _), by decide, by decide,
    bottomUp_postorder (by decide), _, _, rfl, rfl, rfl, ?_⟩
  rintro ⟨⟨n, hn, htrue⟩, -⟩
  obtain rfl := Option.some.inj hn
  exact absurd htrue (by decide)

end NanoRedis
