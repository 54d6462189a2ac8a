import Mathlib.Tactic

/-! Little-endian numbers of a fixed width, bounds-checked slices of a byte
string, and byte buffers of a fixed capacity. -/

namespace Wire

abbrev Bytes := List UInt8

/-- The `k` low-order bytes of `n`, least significant first. -/
def leBytes : Nat → Nat → Bytes
  | 0, _ => []
  | k + 1, n => UInt8.ofNat (n % 256) :: leBytes k (n / 256)

def ofLe : Bytes → Nat
  | [] => 0
  | b :: bs => b.toNat + 256 * ofLe bs

@[simp] theorem length_leBytes (k n : Nat) : (leBytes k n).length = k := by
  induction k generalizing n with
  | zero => rfl
  | succ k ih => simp [leBytes, ih]

theorem ofLe_leBytes (k n : Nat) : ofLe (leBytes k n) = n % 256 ^ k := by
  induction k generalizing n with
  | zero => simp [leBytes, ofLe, Nat.mod_one]
  | succ k ih =>
    have hbyte : (UInt8.ofNat (n % 256)).toNat = n % 256 := by simp
    rw [leBytes, ofLe, ih, hbyte, pow_succ, Nat.mul_comm (256 ^ k), Nat.mod_mul]

theorem ofLe_lt (bs : Bytes) : ofLe bs < 256 ^ bs.length := by
  induction bs with
  | nil => simp [ofLe]
  | cons b bs ih =>
    have hb : b.toNat < 256 := b.toNat_lt
    simp only [ofLe, List.length_cons, pow_succ]
    omega

theorem leBytes_ofLe (bs : Bytes) : leBytes bs.length (ofLe bs) = bs := by
  induction bs with
  | nil => rfl
  | cons b bs ih =>
    have hb : b.toNat < 256 := b.toNat_lt
    have hmod : (b.toNat + 256 * ofLe bs) % 256 = b.toNat := by omega
    have hdiv : (b.toNat + 256 * ofLe bs) / 256 = ofLe bs := by omega
    simp [ofLe, leBytes, hmod, hdiv, ih]

def le32 (v : UInt32) : Bytes := leBytes 4 v.toNat
def le64 (v : UInt64) : Bytes := leBytes 8 v.toNat
def ofLe32 (bs : Bytes) : UInt32 := UInt32.ofNat (ofLe bs)

@[simp] theorem length_le32 (v : UInt32) : (le32 v).length = 4 := length_leBytes 4 _
@[simp] theorem length_le64 (v : UInt64) : (le64 v).length = 8 := length_leBytes 8 _

@[simp] theorem ofLe32_le32 (v : UInt32) : ofLe32 (le32 v) = v := by
  have hv : v.toNat < 256 ^ 4 := v.toNat_lt
  rw [ofLe32, le32, ofLe_leBytes, Nat.mod_eq_of_lt hv, UInt32.ofNat_toNat]

theorem le32_append_inj {u v : UInt32} {xs ys : Bytes} (h : le32 u ++ xs = le32 v ++ ys) :
    u = v ∧ xs = ys := by
  obtain ⟨hle, hrest⟩ := List.append_inj h (by simp)
  exact ⟨by rw [← ofLe32_le32 u, hle, ofLe32_le32], hrest⟩

theorem le64_append_inj {u v : UInt64} {xs ys : Bytes} (h : le64 u ++ xs = le64 v ++ ys) :
    u = v ∧ xs = ys := by
  obtain ⟨hle, hrest⟩ := List.append_inj h (by simp)
  have hnat := congrArg ofLe hle
  rw [le64, le64, ofLe_leBytes, ofLe_leBytes] at hnat
  have hu := u.toNat_lt
  have hv := v.toNat_lt
  exact ⟨UInt64.toNat_inj.mp (by omega), hrest⟩

theorem toNat_ofNat_of_small {n : Nat} (h : n < 2 ^ 31) : (UInt32.ofNat n).toNat = n := by
  rw [UInt32.toNat_ofNat', Nat.mod_eq_of_lt (by omega)]

theorem toNat_four_add {v : UInt32} (h : v.toNat < 2 ^ 31) : (4 + v).toNat = 4 + v.toNat := by
  have hfour : (4 : UInt32).toNat = 4 := rfl
  rw [UInt32.toNat_add, hfour, Nat.mod_eq_of_lt (by omega)]

theorem take_le32_append (v : UInt32) (xs : Bytes) : (le32 v ++ xs).take 4 = le32 v :=
  List.take_left' (length_le32 v)

theorem drop_le32_append (v : UInt32) (xs : Bytes) : (le32 v ++ xs).drop 4 = xs :=
  List.drop_left' (length_le32 v)

theorem le32_ofLe32 {bs : Bytes} (h : bs.length = 4) : le32 (ofLe32 bs) = bs := by
  have hlt : ofLe bs < 2 ^ 32 := by simpa [h] using ofLe_lt bs
  rw [le32, ofLe32, UInt32.toNat_ofNat', Nat.mod_eq_of_lt hlt, ← h, leBytes_ofLe]

def slice? (data : Bytes) (pos n : Nat) : Option Bytes :=
  if pos + n ≤ data.length then some ((data.drop pos).take n) else none

theorem slice?_append (pre mid post : Bytes) :
    slice? (pre ++ (mid ++ post)) pre.length mid.length = some mid := by
  simp [slice?]

theorem slice?_eq_some {data : Bytes} {pos n : Nat} {bs : Bytes} (h : slice? data pos n = some bs) :
    pos + n ≤ data.length ∧ bs = (data.drop pos).take n := by
  simp only [slice?] at h
  split_ifs at h with hle
  exact ⟨hle, (Option.some.inj h).symm⟩

/-- What the encoding of a value of `P` is followed by does not blur where it ends. -/
structure SelfDelimiting {α : Type*} (encode : α → Bytes) (P : α → Prop) : Prop where
  ne_nil : ∀ a, encode a ≠ []
  cut : ∀ a b rest rest', P a → P b → encode a ++ rest = encode b ++ rest' → a = b ∧ rest = rest'

theorem SelfDelimiting.flatMap_inj {α : Type*} {encode : α → Bytes} {P : α → Prop}
    (h : SelfDelimiting encode P) {as bs : List α} (has : ∀ a ∈ as, P a) (hbs : ∀ b ∈ bs, P b)
    (heq : as.flatMap encode = bs.flatMap encode) : as = bs := by
  induction as generalizing bs with
  | nil =>
    cases bs with
    | nil => rfl
    | cons b bs =>
      have hnil : encode b = [] := by simpa using (List.append_eq_nil_iff.mp heq.symm).1
      exact absurd hnil (h.ne_nil b)
  | cons a as ih =>
    cases bs with
    | nil => exact absurd (List.append_eq_nil_iff.mp heq).1 (h.ne_nil a)
    | cons b bs =>
      rw [List.flatMap_cons, List.flatMap_cons] at heq
      obtain ⟨rfl, hrest⟩ := h.cut a b _ _ (has a (List.mem_cons_self ..))
        (hbs b (List.mem_cons_self ..)) heq
      rw [ih (fun c hc => has c (List.mem_cons_of_mem _ hc))
        (fun c hc => hbs c (List.mem_cons_of_mem _ hc)) hrest]

theorem SelfDelimiting.flatMap_cut {α : Type*} {encode : α → Bytes} {P : α → Prop}
    (h : SelfDelimiting encode P) {as bs : List α} {rest rest' : Bytes} (has : ∀ a ∈ as, P a)
    (hbs : ∀ b ∈ bs, P b) (heq : as.flatMap encode ++ rest = bs.flatMap encode ++ rest') :
    (∃ cs, bs = as ++ cs ∧ rest = cs.flatMap encode ++ rest') ∨
      ∃ cs, as = bs ++ cs ∧ rest' = cs.flatMap encode ++ rest := by
  induction as generalizing bs with
  | nil => exact .inl ⟨bs, rfl, heq⟩
  | cons a as ih =>
    cases bs with
    | nil => exact .inr ⟨a :: as, rfl, heq.symm⟩
    | cons b bs =>
      rw [List.flatMap_cons, List.flatMap_cons, List.append_assoc, List.append_assoc] at heq
      obtain ⟨rfl, htail⟩ := h.cut a b _ _ (has a (List.mem_cons_self ..))
        (hbs b (List.mem_cons_self ..)) heq
      rcases ih (fun c hc => has c (List.mem_cons_of_mem _ hc))
        (fun c hc => hbs c (List.mem_cons_of_mem _ hc)) htail with
        ⟨cs, rfl, hrest⟩ | ⟨cs, rfl, hrest⟩
      · exact .inl ⟨cs, rfl, hrest⟩
      · exact .inr ⟨cs, rfl, hrest⟩

structure Buffer (cap : Nat) where
  bytes : Bytes
  length_eq : bytes.length = cap
deriving DecidableEq

namespace Buffer
variable {cap : Nat}

def zero (cap : Nat) : Buffer cap := ⟨List.replicate cap 0, List.length_replicate ..⟩

def write? (b : Buffer cap) (pos : Nat) (bs : Bytes) : Option (Buffer cap) :=
  if h : pos + bs.length ≤ cap then
    some ⟨b.bytes.take pos ++ bs ++ b.bytes.drop (pos + bs.length), by
      have hlen := b.length_eq
      simp only [List.length_append, List.length_take, List.length_drop]
      omega⟩
  else none

theorem write?_eq (b : Buffer cap) (pos : Nat) (bs : Bytes) (h : pos + bs.length ≤ cap) :
    ∃ b', b.write? pos bs = some b' ∧
      b'.bytes = b.bytes.take pos ++ bs ++ b.bytes.drop (pos + bs.length) :=
  ⟨_, dif_pos h, rfl⟩

theorem write?_take (b : Buffer cap) (pos : Nat) (bs : Bytes) (h : pos + bs.length ≤ cap) :
    ∃ b', b.write? pos bs = some b' ∧ b'.bytes.take (pos + bs.length) = b.bytes.take pos ++ bs := by
  obtain ⟨b', hb', hbytes⟩ := write?_eq b pos bs h
  refine ⟨b', hb', ?_⟩
  have hlen : (b.bytes.take pos ++ bs).length = pos + bs.length := by
    have := b.length_eq
    simp only [List.length_append, List.length_take]
    omega
  rw [hbytes, ← hlen, List.take_left]

end Buffer

end Wire
