import NanoRedis.ZSet.Runs

/-! Lookups by name through the hash index. `h_lookup` passes the key first and the
stored node second, which is not how `hcmp` takes them. -/

namespace NanoRedis
open Intrusive Wire
variable {σ : Type} {mem mem' : ZMem σ} {m : HMap} {c1 c2 : List (List Nat)}

def ZMem.Named (mem : ZMem σ) (x : Nat) (name : Bytes) : Prop :=
  ∃ score, mem.objects x = some (.znode score name.length name)

structure ZMem.Indexed (mem : ZMem σ) (m : HMap) (c1 c2 : List (List Nat)) : Prop where
  wf : WellFormed mem.hnodes m c1 c2
  named : ∀ x ∈ c1.flatten ++ c2.flatten, ∃ n name, mem.hnodes.get? x = some n ∧
    n.hcode = strHash name ∧ mem.Named x name

/-- Every comparison gets the objects it recovers, and the answer is a node of `xs` with the name,
or NULL when there is none. -/
def ZMem.Finds (mem : ZMem σ) (xs : List Nat) (name : Bytes)
    (res : Except Fault (Ptr × Heap HNode × HMap)) : Prop :=
  res ≠ .error .badContainer ∧ ∀ r hnodes m', res = .ok (r, hnodes, m') →
    (∀ x, r = some x → x ∈ xs ∧ mem.Named x name) ∧ (r = none ↔ ∀ x ∈ xs, ¬ mem.Named x name)

theorem pushKey_ok {name : Bytes} {len key : Nat} (hpush : mem.pushKey name len = .ok (key, mem')) :
    key = mem.hnodes.brk ∧
      mem'.hnodes = mem.hnodes.alloc { hcode := strHash (name.take len) } ∧
      mem'.objects key = some (.hkey name len) := by
  cases hslice : slice? name 0 len with
  | none => simp [ZMem.pushKey, readBytes, hslice] at hpush
  | some bytes =>
    obtain ⟨-, hbytes⟩ := slice?_eq_some hslice
    obtain rfl : bytes = name.take len := hbytes
    simp only [ZMem.pushKey, readBytes, hslice, ok_bind, pure_eq_ok, Except.ok.injEq,
      Prod.mk.injEq] at hpush
    obtain ⟨rfl, rfl⟩ := hpush
    exact ⟨rfl, rfl, by simp⟩

theorem hcmp_hkey {name : Bytes} {len key : Nat} (hkey : mem.objects key = some (.hkey name len))
    (y : Nat) : hcmp mem key y = .error .badContainer := by
  simp only [hcmp, ZMem.znode, hkey, error_bind]

def ZMem.Uncompared (mem : ZMem σ) (xs : List Nat) (name : Bytes) : Prop :=
  ∀ x ∈ xs, ¬ Collides mem.hnodes (strHash name) x

theorem ZMem.Indexed.not_named (h : mem.Indexed m c1 c2) {name : Bytes} {x : Nat}
    (hx : x ∈ c1.flatten ++ c2.flatten) (hno : ¬ Collides mem.hnodes (strHash name) x) :
    ¬ mem.Named x name := by
  rintro ⟨score, hname⟩
  obtain ⟨n, name', hn, hcode, score', hname'⟩ := h.named x hx
  have hobj := hname.symm.trans hname'
  simp only [Option.some.injEq, ZObject.znode.injEq] at hobj
  exact hno (by rw [Collides, hn, Option.map_some, hcode, hobj.2.2])

theorem ZMem.Indexed.finds_none (h : mem.Indexed m c1 c2) {name : Bytes}
    (hno : mem.Uncompared (c1.flatten ++ c2.flatten) name) {hnodes : Heap HNode} {m' : HMap} :
    mem.Finds (c1.flatten ++ c2.flatten) name (.ok (none, hnodes, m')) := by
  refine ⟨by simp, fun r _ _ hr => ?_⟩
  obtain rfl : none = r := by
    simp only [Except.ok.injEq, Prod.mk.injEq] at hr
    exact hr.1
  exact ⟨by simp, iff_of_true rfl fun x hx => h.not_named hx (hno x hx)⟩

theorem not_finds (mem : ZMem σ) (xs : List Nat) (name : Bytes) :
    ¬ mem.Finds xs name (.error .badContainer) := fun h => h.1 rfl

/-- A lookup by name is right exactly when it compares the name with no node: none has
its hash code, or the migration before the lookup faults. -/
theorem hash_lookup_iff {mem mem' : ZMem σ} {m : HMap} {c1 c2 : List (List Nat)}
    (h : mem.Indexed m c1 c2) {name : Bytes} {len key : Nat}
    (hpush : mem.pushKey name len = .ok (key, mem')) :
    (mem.Finds (c1.flatten ++ c2.flatten) (name.take len)
        (hmLookup mem'.hnodes m key (hcmp mem')) ↔
      (NoHole c2 m.resizingPos → mem.Uncompared (c1.flatten ++ c2.flatten) (name.take len))) ∧
    (mem.Finds (c1.flatten ++ c2.flatten) (name.take len)
        (hmPop mem'.hnodes m key (hcmp mem')) ↔
      mem.Uncompared (c1.flatten ++ c2.flatten) (name.take len)) := by
  obtain ⟨rfl, hhnodes, hobj⟩ := pushKey_ok hpush
  have hkey : mem'.hnodes.get? mem.hnodes.brk = some { hcode := strHash (name.take len) } := by
    rw [hhnodes, Heap.get?_alloc_brk]
  have hag : ∀ x ∈ c1.flatten ++ c2.flatten, mem'.hnodes.get? x = mem.hnodes.get? x := by
    intro x hx
    obtain ⟨n, hn⟩ := h.wf.exists_get? hx
    rw [hhnodes, Heap.get?_alloc_of_some hn, hn]
  have hwf := h.wf.congr hag
  have hfault : ∀ y ∈ c1.flatten ++ c2.flatten,
      hcmp mem' mem.hnodes.brk y = .error .badContainer := fun y _ => hcmp_hkey hobj y
  obtain ⟨hpopErr, hpopOk⟩ := hmPop_fault hwf hkey hfault
  have hlookup := hmLookup_fault hwf hkey hfault
  by_cases hno : mem.Uncompared (c1.flatten ++ c2.flatten) (name.take len)
  · have hno' : ∀ y ∈ c1.flatten ++ c2.flatten,
        ¬ Collides mem'.hnodes (strHash (name.take len)) y := by
      intro y hy
      unfold Collides
      rw [hag y hy]
      exact hno y hy
    refine ⟨iff_of_true ?_ fun _ => hno, iff_of_true ?_ hno⟩
    · by_cases hc : NoHole c2 m.resizingPos
      · obtain ⟨hnodes, m', hrun⟩ := (hlookup hc).2 hno'
        rw [hrun]
        exact h.finds_none hno
      · rw [(hmLookup_null hwf hc)]
        exact ⟨by simp, by simp⟩
    · rw [hpopOk hno']
      exact h.finds_none hno
  · have hex : ∃ y ∈ c1.flatten ++ c2.flatten,
        Collides mem'.hnodes (strHash (name.take len)) y := by
      simp only [ZMem.Uncompared, not_forall, not_not] at hno
      obtain ⟨y, hy, hcode⟩ := hno
      exact ⟨y, hy, by rwa [Collides, hag y hy]⟩
    refine ⟨?_, iff_of_false ?_ hno⟩
    · by_cases hc : NoHole c2 m.resizingPos
      · rw [(hlookup hc).1 hex]
        exact iff_of_false (not_finds _ _ _) fun hall => hno (hall hc)
      · rw [(hmLookup_null hwf hc)]
        exact iff_of_true ⟨by simp, by simp⟩ fun hyes => absurd hyes hc
    · rw [hpopErr hex]
      exact not_finds _ _ _

def oneMember : ZMem ℤ where
  hnodes := ⟨[some { hcode := strHash [97] }]⟩
  objects := fun x => if x = 0 then some (.znode 0 1 [97]) else none

theorem hash_lookup_other :
    ∃ hnodes m c1 c2 key mem', hmInsert oneMember.hnodes {} 0 = .ok (hnodes, m) ∧
      ZMem.Indexed { oneMember with hnodes := hnodes } m c1 c2 ∧
      ZMem.pushKey { oneMember with hnodes := hnodes } [98] 1 = .ok (key, mem') ∧
      (ZMem.Finds { oneMember with hnodes := hnodes } (c1.flatten ++ c2.flatten) [98]
          (hmPop mem'.hnodes m key (hcmp mem')) ↔
        ZMem.Uncompared { oneMember with hnodes := hnodes } (c1.flatten ++ c2.flatten) [98]) := by
  obtain ⟨⟨hnodes, m⟩, hinsert⟩ : ∃ r, hmInsert oneMember.hnodes {} 0 = .ok r := ⟨_, rfl⟩
  obtain ⟨ys, ⟨c1, c2, hwf, rfl⟩, hperm, -, hr, -⟩ := (stores_empty _).insert rfl (by simp) hinsert
  have hindexed : ZMem.Indexed { oneMember with hnodes := hnodes } m c1 c2 := by
    refine ⟨hwf, fun x hx => ?_⟩
    obtain rfl : x = 0 := by simpa using hperm.mem_iff.mp hx
    obtain ⟨n, hn, hcode⟩ := hr.exists_get? (a := 0) rfl
    exact ⟨n, [97], hn, hcode, 0, rfl⟩
  obtain ⟨⟨key, mem'⟩, hpush⟩ :
      ∃ r, ZMem.pushKey { oneMember with hnodes := hnodes } [98] 1 = .ok r := ⟨_, rfl⟩
  exact ⟨hnodes, m, c1, c2, key, mem', hinsert, hindexed, hpush, (hash_lookup_iff hindexed hpush).2⟩

theorem hash_lookup_crashes :
    ∃ (mem mem' : ZMem ℤ) (hnodes : Heap HNode) (m : HMap) (a key : Nat),
      znodeNew {} [97] 1 0 = .ok (a, mem) ∧ hmInsert mem.hnodes {} a = .ok (hnodes, m) ∧
      ZMem.pushKey { mem with hnodes := hnodes } [97] 1 = .ok (key, mem') ∧
      hmLookup mem'.hnodes m key (hcmp mem') = .error .badContainer ∧
      hmPop mem'.hnodes m key (hcmp mem') = .error .badContainer :=
  ⟨_, _, _, _, _, _, rfl, rfl, rfl, rfl, rfl⟩

end NanoRedis
