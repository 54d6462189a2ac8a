import NanoRedis.ZSet.Lookup
import NanoRedis.Avl.Insertion

/-! A sorted set of any contents, however it came to them. A call that completes leaves
the set as it was and finds nothing in it. -/

namespace NanoRedis
open Intrusive Wire
variable {σ : Type} {mem mem' : ZMem σ} {zset zset' : ZSet} {t : BinaryTree Nat}

/-- Both indexes hold the nodes of the tree `t`, hashed by the names that they store. -/
structure Coherent (mem : ZMem σ) (zset : ZSet) (t : BinaryTree Nat) : Prop where
  tree : CountedTree mem.trees zset.tree t
  hash : ∃ c1 c2, mem.Indexed zset.hmap c1 c2 ∧ (c1.flatten ++ c2.flatten).Perm (inorder t)

structure Kept (mem : ZMem σ) (zset : ZSet) (t : BinaryTree Nat) (mem' : ZMem σ)
    (zset' : ZSet) : Prop where
  coherent : Coherent mem' zset' t
  root : zset'.tree = zset.tree
  objects : ∀ x ∈ inorder t, mem'.objects x = mem.objects x

theorem Kept.trans {mem'' : ZMem σ} {zset'' : ZSet} (h : Kept mem zset t mem' zset')
    (h' : Kept mem' zset' t mem'' zset'') : Kept mem zset t mem'' zset'' :=
  ⟨h'.coherent, h'.root.trans h.root, fun x hx => (h'.objects x hx).trans (h.objects x hx)⟩

theorem ZMem.Named.congr {x : Nat} {name : Bytes} (h : mem.Named x name)
    (hobj : mem'.objects x = mem.objects x) : mem'.Named x name := by
  obtain ⟨score, hx⟩ := h
  exact ⟨score, hobj.trans hx⟩

theorem Coherent.refl (h : Coherent mem zset t) : Kept mem zset t mem zset :=
  ⟨h, rfl, fun _ _ => rfl⟩

theorem Coherent.exists_named (h : Coherent mem zset t) {x : Nat} (hx : x ∈ inorder t) :
    ∃ n name, mem.hnodes.get? x = some n ∧ n.hcode = strHash name ∧ mem.Named x name := by
  obtain ⟨c1, c2, hindexed, hperm⟩ := h.hash
  exact hindexed.named x (hperm.mem_iff.mpr hx)

theorem Coherent.brk_notMem (h : Coherent mem zset t) : mem.hnodes.brk ∉ inorder t := by
  intro hx
  obtain ⟨n, -, hn, -⟩ := h.exists_named hx
  exact absurd (Heap.lt_brk hn) (lt_irrefl _)

theorem Coherent.frame (h : Coherent mem zset t)
    (htrees : ∀ x ∈ inorder t, mem'.trees.get? x = mem.trees.get? x)
    (hhnodes : ∀ x ∈ inorder t, mem'.hnodes.get? x = mem.hnodes.get? x)
    (hobjects : ∀ x ∈ inorder t, mem'.objects x = mem.objects x) :
    Kept mem zset t mem' zset := by
  obtain ⟨c1, c2, hindexed, hperm⟩ := h.hash
  have hxs : ∀ x ∈ c1.flatten ++ c2.flatten, x ∈ inorder t := fun x hx => hperm.mem_iff.mp hx
  have hwf := hindexed.wf.congr fun x hx => hhnodes x (hxs x hx)
  refine ⟨⟨h.tree.congr htrees, c1, c2, ⟨hwf, fun x hx => ?_⟩, hperm⟩, rfl, hobjects⟩
  obtain ⟨n, name, hn, hcode, hname⟩ := hindexed.named x hx
  exact ⟨n, name, (hhnodes x (hxs x hx)).trans hn, hcode, hname.congr (hobjects x (hxs x hx))⟩

theorem Coherent.relink (h : Coherent mem zset t) {hnodes : Heap HNode} {m : HMap}
    {c1 c2 : List (List Nat)} {xs : List Nat} (hwf : WellFormed hnodes m c1 c2)
    (hperm : (c1.flatten ++ c2.flatten).Perm (inorder t)) (hrel : Relinked mem.hnodes hnodes xs) :
    Kept mem zset t { mem with hnodes := hnodes } { zset with hmap := m } := by
  refine ⟨⟨h.tree, c1, c2, ⟨hwf, fun x hx => ?_⟩, hperm⟩, rfl, fun _ _ => rfl⟩
  obtain ⟨n, name, hn, hcode, hname⟩ := h.exists_named (hperm.mem_iff.mp hx)
  obtain ⟨n', hn', hcode'⟩ := hrel.exists_get? hn
  exact ⟨n', name, hn', hcode'.trans hcode, hname⟩

theorem Coherent.pushKey (h : Coherent mem zset t) (name : Bytes) :
    ∃ mem', mem.pushKey name name.length = .ok (mem.hnodes.brk, mem') ∧
      Kept mem zset t mem' zset ∧
      mem'.hnodes.get? mem.hnodes.brk = some { hcode := strHash name } ∧
      (∀ x ∈ inorder t, mem'.hnodes.get? x = mem.hnodes.get? x) ∧
      ∀ y, hcmp mem' mem.hnodes.brk y = .error .badContainer := by
  have hpush : mem.pushKey name name.length =
      .ok (mem.hnodes.brk, ⟨(mem.trees.alloc {}).free mem.hnodes.brk,
      mem.hnodes.alloc { hcode := strHash name },
      Function.update mem.objects mem.hnodes.brk (some (.hkey name name.length))⟩) := by
    simp only [ZMem.pushKey, readBytes_whole, ok_bind, pure_eq_ok]
  have hne : ∀ x ∈ inorder t, x ≠ mem.hnodes.brk := fun x hx heq => h.brk_notMem (heq ▸ hx)
  have hhnodes : ∀ x ∈ inorder t,
      (mem.hnodes.alloc { hcode := strHash name }).get? x = mem.hnodes.get? x :=
    fun x hx => Heap.get?_alloc_ne _ (hne x hx) _
  refine ⟨_, hpush, h.frame ?_ hhnodes ?_, Heap.get?_alloc_brk _ _, hhnodes, ?_⟩
  · intro x hx
    obtain ⟨v, hv⟩ := h.tree.treeAt.exists_get? hx
    rw [Heap.get?_free_ne _ (hne x hx), Heap.get?_alloc_of_some hv, hv]
  · exact fun x hx => Function.update_of_ne (hne x hx) _ _
  · exact hcmp_hkey (Function.update_self ..)

theorem Coherent.popKey (h : Coherent mem zset t) {key : Nat} (hkey : key ∉ inorder t) :
    Kept mem zset t (mem.popKey key) zset :=
  h.frame (fun _ _ => rfl) (fun _ hx => Heap.get?_free_ne _ fun heq => hkey (heq ▸ hx))
    fun _ _ => rfl

/-! ## The calls -/

theorem hmLookup_helps {hnodes hnodes' : Heap HNode} {m m' : HMap} {key : Nat} {eq : HEq} {r : Ptr}
    (h : hmLookup hnodes m key eq = .ok (r, hnodes', m')) :
    hmHelpResizing hnodes m = .ok (hnodes', m') := by
  simp only [hmLookup] at h
  obtain ⟨⟨hnodes₁, m₁⟩, hhelp, h⟩ := bind_eq_ok.mp h
  obtain ⟨found₁, -, h⟩ := bind_eq_ok.mp h
  cases found₁ with
  | some slot =>
    obtain ⟨node, -, h⟩ := bind_eq_ok.mp h
    obtain ⟨-, rfl, rfl⟩ : node = r ∧ hnodes₁ = hnodes' ∧ m₁ = m' := by simpa using h
    exact hhelp
  | none =>
    obtain ⟨found₂, -, h⟩ := bind_eq_ok.mp h
    cases found₂ with
    | some slot =>
      obtain ⟨node, -, h⟩ := bind_eq_ok.mp h
      obtain ⟨-, rfl, rfl⟩ : node = r ∧ hnodes₁ = hnodes' ∧ m₁ = m' := by simpa using h
      exact hhelp
    | none =>
      obtain ⟨-, rfl, rfl⟩ : none = r ∧ hnodes₁ = hnodes' ∧ m₁ = m' := by simpa using h
      exact hhelp

theorem hmHelpResizing_ok_iff {hnodes : Heap HNode} {m : HMap} {c1 c2 : List (List Nat)}
    (h : WellFormed hnodes m c1 c2) :
    (∃ r, hmHelpResizing hnodes m = .ok r) ↔ NoHole c2 m.resizingPos := by
  obtain ⟨hyes, hno⟩ := hmHelpResizing_spec h
  constructor
  · rintro ⟨r, hr⟩
    by_contra hc
    rw [hno hc] at hr
    cases hr
  · intro hc
    obtain ⟨hnodes', m', -, hrun, -⟩ := hyes hc
    exact ⟨_, hrun⟩

def ZSet.Misses (mem : ZMem σ) (zset : ZSet) (t : BinaryTree Nat) (name : Bytes) : Prop :=
  zset.tree = none ∨ (∃ r, hmHelpResizing mem.hnodes zset.hmap = .ok r) ∧
    mem.Uncompared (inorder t) name

theorem zsetLookup_keeps (h : Coherent mem zset t) (name : Bytes) :
    ((∃ r, zsetLookup mem zset name name.length = .ok r) ↔ zset.Misses mem t name) ∧
      ∀ r mem' zset', zsetLookup mem zset name name.length = .ok (r, mem', zset') →
        r = none ∧ Kept mem zset t mem' zset' := by
  cases hroot : zset.tree with
  | none =>
    have hrun : zsetLookup mem zset name name.length = .ok (none, mem, zset) := by
      simp [zsetLookup, hroot]
    refine ⟨iff_of_true ⟨_, hrun⟩ (.inl hroot), fun r mem' zset' hlook => ?_⟩
    obtain ⟨rfl, rfl, rfl⟩ : none = r ∧ mem = mem' ∧ zset = zset' := by simpa [hrun] using hlook
    exact ⟨rfl, h.refl⟩
  | some root =>
    obtain ⟨mem₁, hpush, hkept, hkey, hag, hfault⟩ := h.pushKey name
    obtain ⟨c1, c2, hindexed, hperm⟩ := h.hash
    have hwf := hindexed.wf.congr fun x hx => hag x (hperm.mem_iff.mp hx)
    have hcollides : ∀ x ∈ inorder t, Collides mem₁.hnodes (strHash name) x ↔
        Collides mem.hnodes (strHash name) x := fun x hx => by rw [Collides, Collides, hag x hx]
    have hrun : zsetLookup mem zset name name.length =
        hmLookup mem₁.hnodes zset.hmap mem.hnodes.brk (hcmp mem₁) >>= fun r =>
          pure (r.1, { mem₁ with hnodes := r.2.1 }.popKey mem.hnodes.brk,
            { zset with hmap := r.2.2 }) := by
      simp only [zsetLookup, hroot, Option.isNone_some, Bool.false_eq_true, if_false, hpush,
        ok_bind]
    have hmiss : zset.Misses mem t name ↔
        NoHole c2 zset.hmap.resizingPos ∧ mem.Uncompared (inorder t) name := by
      simp [ZSet.Misses, hroot, hmHelpResizing_ok_iff hindexed.wf]
    by_cases hc : NoHole c2 zset.hmap.resizingPos
    · obtain ⟨hhit, hnone⟩ := hmLookup_fault hwf hkey (fun y _ => hfault y) hc
      by_cases hno : mem.Uncompared (inorder t) name
      · obtain ⟨hnodes, m, hlook⟩ := hnone fun y hy hy' =>
          hno y (hperm.mem_iff.mp hy) ((hcollides y (hperm.mem_iff.mp hy)).mp hy')
        obtain ⟨_, _, c1', hhelp, -, hmig⟩ := (hmHelpResizing_spec hwf).1 hc
        obtain ⟨rfl, rfl⟩ := Prod.mk.inj
          (Except.ok.inj (hhelp.symm.trans (hmLookup_helps hlook)))
        have hlinked := hkept.coherent.relink hmig.wf
          (by simpa using hmig.perm.trans hperm) hmig.relinked
        have hpop := hlinked.coherent.popKey h.brk_notMem
        rw [hrun, hlook]
        refine ⟨iff_of_true ⟨_, rfl⟩ (hmiss.mpr ⟨hc, hno⟩), fun r mem' zset' hok => ?_⟩
        obtain ⟨rfl, rfl, rfl⟩ := hok
        exact ⟨rfl, (hkept.trans hlinked).trans hpop⟩
      · obtain ⟨y, hy, hy'⟩ : ∃ y ∈ inorder t, Collides mem.hnodes (strHash name) y := by
          simpa [ZMem.Uncompared] using hno
        have hlook := hhit ⟨y, hperm.mem_iff.mpr hy, (hcollides y hy).mpr hy'⟩
        rw [hrun, hlook]
        exact ⟨iff_of_false (by simp [error_bind]) fun hm => hno (hmiss.mp hm).2, by
          simp [error_bind]⟩
    · rw [hrun, hmLookup_null hwf hc]
      exact ⟨iff_of_false (by simp [error_bind]) fun hm => hc (hmiss.mp hm).1, by
        simp [error_bind]⟩

theorem zsetPop_keeps (h : Coherent mem zset t) (name : Bytes) :
    ((∃ r, zsetPop mem zset name name.length = .ok r) ↔ mem.Uncompared (inorder t) name) ∧
      ∀ r mem' zset', zsetPop mem zset name name.length = .ok (r, mem', zset') →
        r = none ∧ Kept mem zset t mem' zset' := by
  obtain ⟨mem₁, hpush, hkept, hkey, hag, hfault⟩ := h.pushKey name
  obtain ⟨c1, c2, hindexed, hperm⟩ := h.hash
  have hwf := hindexed.wf.congr fun x hx => hag x (hperm.mem_iff.mp hx)
  have hcollides : ∀ x ∈ inorder t, Collides mem₁.hnodes (strHash name) x ↔
      Collides mem.hnodes (strHash name) x := fun x hx => by rw [Collides, Collides, hag x hx]
  obtain ⟨hhit, hnone⟩ := hmPop_fault hwf hkey fun y _ => hfault y
  by_cases hno : mem.Uncompared (inorder t) name
  · have hpop := hnone fun y hy hy' =>
      hno y (hperm.mem_iff.mp hy) ((hcollides y (hperm.mem_iff.mp hy)).mp hy')
    have hrun : zsetPop mem zset name name.length =
        .ok (none, mem₁.popKey mem.hnodes.brk, zset) := by
      simp only [zsetPop, hpush, hpop, ok_bind, pure_eq_ok]
    refine ⟨iff_of_true ⟨_, hrun⟩ hno, fun r mem' zset' hok => ?_⟩
    obtain ⟨rfl, rfl, rfl⟩ := hrun.symm.trans hok
    exact ⟨rfl, hkept.trans (hkept.coherent.popKey h.brk_notMem)⟩
  · obtain ⟨y, hy, hy'⟩ : ∃ y ∈ inorder t, Collides mem.hnodes (strHash name) y := by
      simpa [ZMem.Uncompared] using hno
    have hpop := hhit ⟨y, hperm.mem_iff.mpr hy, (hcollides y hy).mpr hy'⟩
    have hrun : zsetPop mem zset name name.length = .error .badContainer := by
      simp only [zsetPop, hpush, hpop, ok_bind, error_bind]
    rw [hrun]
    exact ⟨iff_of_false (by simp) hno, by simp⟩

def ZCall.Targets (xs : List Nat) : ZCall σ → Prop
  | .update x _ => x ∈ xs
  | .add _ _ | .lookup _ | .pop _ => True

instance ZCall.decidableTargets (xs : List Nat) : ∀ c : ZCall σ, Decidable (c.Targets xs)
  | .update x _ => inferInstanceAs (Decidable (x ∈ xs))
  | .add _ _ | .lookup _ | .pop _ => isTrue trivial

/-- Nothing is added or given another score, and a name is asked for only where the search
compares no node. -/
def ZCall.Passes (s : ZClient σ) (t : BinaryTree Nat) : ZCall σ → Prop
  | .add _ _ => False
  | .lookup name => s.zset.Misses s.mem t name
  | .update x score => ∃ name, s.Entry x name score
  | .pop name => s.mem.Uncompared (inorder t) name

section Ordered
variable [LinearOrder σ]

theorem zsetAdd_fails (h : Coherent mem zset t) (name : Bytes) (score : σ) :
    ∃ e, zsetAdd mem zset name name.length score = .error e := by
  cases hlook : zsetLookup mem zset name name.length with
  | error e => exact ⟨e, by simp only [zsetAdd, hlook, error_bind]⟩
  | ok found =>
    obtain ⟨found, mem₁, zset₁⟩ := found
    obtain ⟨rfl, hkept⟩ := (zsetLookup_keeps h name).2 _ _ _ hlook
    have hne : ∀ x ∈ inorder t, x ≠ mem₁.hnodes.brk :=
      fun x hx heq => hkept.coherent.brk_notMem (heq ▸ hx)
    cases hinit : avlInit (mem₁.trees.alloc {}) (some mem₁.hnodes.brk) with
    | error e =>
      exact ⟨e, by simp only [zsetAdd, hlook, znodeNew, readBytes_whole, hinit, ok_bind,
        error_bind]⟩
    | ok trees =>
      obtain ⟨htouch, hcell⟩ := avlInit_ok hinit
      cases hins : hmInsert (mem₁.hnodes.alloc { hcode := strHash name }) zset₁.hmap
          mem₁.hnodes.brk with
      | error e =>
        exact ⟨e, by simp only [zsetAdd, hlook, znodeNew, readBytes_whole, hinit, hins, ok_bind,
          pure_eq_ok, error_bind]⟩
      | ok r =>
        obtain ⟨hnodes, m⟩ := r
        have htree : CountedTree trees zset₁.tree t := by
          refine hkept.coherent.tree.congr fun x hx => ?_
          obtain ⟨v, hv⟩ := hkept.coherent.tree.treeAt.exists_get? hx
          rw [htouch.get?_eq x (by simpa using hne x hx), Heap.get?_alloc_of_some hv, hv]
        have hfails (less : Nat → Except Fault Bool) :
            ∃ e, treeAddBy less trees zset₁.tree mem₁.hnodes.brk = .error e := by
          rcases treeAddBy_fails less htree.linked htree.nodup hcell rfl rfl
            hkept.coherent.brk_notMem with hfail | ⟨_, _, e, _, hfail⟩
          · exact ⟨_, hfail⟩
          · exact ⟨e, hfail⟩
        obtain ⟨e, he⟩ := hfails (zless ⟨trees, hnodes, Function.update mem₁.objects
          mem₁.hnodes.brk (some (.znode score name.length name))⟩ mem₁.hnodes.brk)
        exact ⟨e, by simp only [zsetAdd, hlook, znodeNew, readBytes_whole, hinit, hins, treeAdd, he,
          ok_bind, pure_eq_ok, error_bind]⟩

theorem zsetUpdate_keeps (h : Coherent mem zset t) {x : Nat} (hx : x ∈ inorder t) {old : σ}
    {len : Nat} {name : Bytes} (hobj : mem.objects x = some (.znode old len name)) (score : σ) :
    (old = score → zsetUpdate mem zset x score = .ok (mem, zset)) ∧
      (old ≠ score → ∃ e, zsetUpdate mem zset x score = .error e) := by
  have hznode : mem.znode x = .ok (old, len, name) := by simp only [ZMem.znode, hobj]
  constructor
  · intro heq
    simp only [zsetUpdate, hznode, ok_bind, if_pos heq, pure_eq_ok]
  · intro hne
    cases hdel : avlDel mem.trees (some x) with
    | error e => exact ⟨e, by simp only [zsetUpdate, hznode, ok_bind, if_neg hne, hdel, error_bind]⟩
    | ok r =>
      obtain ⟨root, trees⟩ := r
      cases hinit : avlInit trees (some x) with
      | error e =>
        exact ⟨e, by simp only [zsetUpdate, hznode, ok_bind, if_neg hne, hdel, hinit, error_bind]⟩
      | ok trees' =>
        have hfails (less : Nat → Except Fault Bool) := reinsert_fails less h.tree hx hdel hinit
        obtain ⟨e, he⟩ := hfails (zless ⟨trees', mem.hnodes, Function.update mem.objects x
          (some (.znode score len name))⟩ x)
        exact ⟨e, by simp only [zsetUpdate, hznode, ok_bind, if_neg hne, hdel, hinit, treeAdd, he,
          error_bind]⟩

theorem zsetCall_keeps {s : ZClient σ} (h : Coherent s.mem s.zset t) {c : ZCall σ}
    (hc : c.Targets (inorder t)) :
    ((∃ s', zsetCall s c = .ok s') ↔ c.Passes s t) ∧
      ∀ s', zsetCall s c = .ok s' →
        Kept s.mem s.zset t s'.mem s'.zset ∧ (s'.reply = .node none ∨ s'.reply = .done) := by
  cases c with
  | add name score =>
    obtain ⟨e, hfail⟩ := zsetAdd_fails h name score
    have hrun : zsetCall s (.add name score) = .error e := by
      simp only [zsetCall, hfail, error_bind]
    rw [hrun]
    exact ⟨iff_of_false (by simp) id, by simp⟩
  | lookup name =>
    obtain ⟨hiff, hkeeps⟩ := zsetLookup_keeps h name
    rw [ZCall.Passes, ← hiff]
    cases hlook : zsetLookup s.mem s.zset name name.length with
    | error e => simp [zsetCall, hlook]
    | ok r =>
      obtain ⟨r, mem', zset'⟩ := r
      obtain ⟨rfl, hkept⟩ := hkeeps _ _ _ hlook
      simp only [zsetCall, hlook, ok_bind, pure_eq_ok]
      refine ⟨iff_of_true ⟨_, rfl⟩ ⟨_, rfl⟩, fun s' hs' => ?_⟩
      obtain rfl := Except.ok.inj hs'
      exact ⟨hkept, .inl rfl⟩
  | update x score =>
    obtain ⟨n, name, -, -, old, hobj⟩ := h.exists_named hc
    have hznode : s.mem.znode x = .ok (old, name.length, name) := by simp only [ZMem.znode, hobj]
    obtain ⟨hsame, hother⟩ := zsetUpdate_keeps h hc hobj score
    have hpasses : (ZCall.update x score).Passes s t ↔ old = score := by
      simp only [ZCall.Passes, ZClient.Entry, hobj, Option.some.injEq, ZObject.znode.injEq]
      constructor
      · rintro ⟨_, heq, -⟩
        exact heq
      · exact fun heq => ⟨name, heq, rfl, rfl⟩
    rw [hpasses]
    by_cases heq : old = score
    · simp only [zsetCall, hznode, hsame heq, ok_bind, pure_eq_ok]
      refine ⟨iff_of_true ⟨_, rfl⟩ heq, fun s' hs' => ?_⟩
      obtain rfl := Except.ok.inj hs'
      exact ⟨h.refl, .inr rfl⟩
    · obtain ⟨e, hfail⟩ := hother heq
      simp [zsetCall, hznode, hfail, heq]
  | pop name =>
    obtain ⟨hiff, hkeeps⟩ := zsetPop_keeps h name
    rw [ZCall.Passes, ← hiff]
    cases hpop : zsetPop s.mem s.zset name name.length with
    | error e => simp [zsetCall, hpop]
    | ok r =>
      obtain ⟨r, mem', zset'⟩ := r
      obtain ⟨rfl, hkept⟩ := hkeeps _ _ _ hpop
      simp only [zsetCall, hpop, ok_bind, pure_eq_ok]
      refine ⟨iff_of_true ⟨_, rfl⟩ ⟨_, rfl⟩, fun s' hs' => ?_⟩
      obtain rfl := Except.ok.inj hs'
      exact ⟨hkept, .inl rfl⟩

/-- Whatever the set holds and whatever is called: a step of the run completes exactly when it
has nothing to do, and it leaves the first set as it was. -/
theorem zset_stands_still {s : ZClient σ} (hs : Coherent s.mem s.zset t) {calls : List (ZCall σ)}
    (hcalls : Run.AllSteps zsetCall (fun _ c => c.Targets (inorder t)) s calls) :
    Run.AllSteps zsetCall (fun s₁ c => ((∃ s₂, zsetCall s₁ c = .ok s₂) ↔ c.Passes s₁ t) ∧
      ∀ s₂, zsetCall s₁ c = .ok s₂ →
        Kept s.mem s.zset t s₂.mem s₂.zset ∧ (s₂.reply = .node none ∨ s₂.reply = .done))
      s calls := by
  refine Run.allSteps_of_inv (I := fun s₁ => Kept s.mem s.zset t s₁.mem s₁.zset) ?_ hs.refl hcalls
  intro s₁ c hkept hc
  obtain ⟨hiff, hkeeps⟩ := zsetCall_keeps hkept.coherent hc
  refine ⟨⟨hiff, fun s₂ hs₂ => ?_⟩, fun s₂ hs₂ => hkept.trans (hkeeps s₂ hs₂).1⟩
  obtain ⟨hkept', hreply⟩ := hkeeps s₂ hs₂
  exact ⟨hkept.trans hkept', hreply⟩

end Ordered

def loneMember : ZClient ℤ where
  mem := { oneMember with trees := ⟨[some { cnt := 1 }]⟩ }
  zset := ⟨some 0, { tb1 := ⟨some [none, none, some 0, none], 3, 1⟩ }⟩

theorem loneMember_coherent :
    Coherent loneMember.mem loneMember.zset (.node 0 .nil .nil) where
  tree := ⟨.node rfl rfl (.nil _) (.nil _), ⟨⟨_, rfl, rfl⟩, trivial, trivial⟩, by decide⟩
  hash := by
    have hinsert : hmInsert oneMember.hnodes {} 0 = .ok (oneMember.hnodes, loneMember.zset.hmap) :=
      rfl
    obtain ⟨_, ⟨c1, c2, hwf, rfl⟩, hperm, -⟩ := (stores_empty _).insert rfl (by simp) hinsert
    refine ⟨c1, c2, ⟨hwf, fun x hx => ?_⟩, hperm⟩
    obtain rfl : x = 0 := by simpa using hperm.mem_iff.mp hx
    exact ⟨_, [97], rfl, rfl, 0, rfl⟩

theorem zset_stands_still_loneMember :
    faultOf (Run.run zsetCall loneMember [.lookup [98], .update 0 0, .pop [98], .update 0 1]) =
        some .nullDeref ∧
      Run.AllSteps zsetCall
        (fun s₁ c => ((∃ s₂, zsetCall s₁ c = .ok s₂) ↔ c.Passes s₁ (.node 0 .nil .nil)) ∧
          ∀ s₂, zsetCall s₁ c = .ok s₂ →
            Kept loneMember.mem loneMember.zset (.node 0 .nil .nil) s₂.mem s₂.zset ∧
              (s₂.reply = .node none ∨ s₂.reply = .done))
        loneMember [.lookup [98], .update 0 0, .pop [98], .update 0 1] :=
  ⟨by decide, zset_stands_still loneMember_coherent (by decide)⟩

end NanoRedis
