import NanoRedis.Utils
import NanoRedis.Lib.Digest
import Mathlib.Data.FinEnum

/-! The collisions of `str_hash`. -/

namespace NanoRedis
open Wire Function

def hashStep (h : UInt32) (b : UInt8) : UInt32 := (h + b.toUInt32) * 0x01000193

theorem strHash_eq_iff {x y : Bytes} : strHash x = strHash y ↔
    Digest.digest hashStep 0x811C9DC5 x = Digest.digest hashStep 0x811C9DC5 y :=
  ⟨UInt32.toUInt64_inj.mp, congrArg UInt32.toUInt64⟩

/-- The multiplier is odd, so that a round can be undone. -/
theorem mul_prime_injective : Injective fun h : UInt32 => h * 0x01000193 := by
  intro h h' heq
  have hinv : (0x01000193 : UInt32) * 0x359C449B = 1 := by decide
  have hundo := congrArg (· * (0x359C449B : UInt32)) heq
  simpa only [UInt32.mul_assoc, hinv, UInt32.mul_one] using hundo

theorem hashStep_injective (b : UInt8) : Injective fun h => hashStep h b :=
  mul_prime_injective.comp fun _ _ heq => (UInt32.add_left_inj _).mp heq

theorem hashStep_letter (h : UInt32) : Injective (hashStep h) :=
  mul_prime_injective.comp fun _ _ heq => UInt8.toUInt32_inj.mp ((UInt32.add_right_inj h).mp heq)

/-- The same suffix neither makes nor breaks a collision, and a change of one byte never makes
one. -/
theorem hash_collisions (x y suffix pre post : Bytes) (b b' : UInt8) :
    (strHash (x ++ suffix) = strHash (y ++ suffix) ↔ strHash x = strHash y) ∧
      (strHash (pre ++ b :: post) = strHash (pre ++ b' :: post) ↔ b = b') := by
  constructor
  · rw [strHash_eq_iff, strHash_eq_iff]
    exact Digest.digest_append_iff hashStep_injective _ x y suffix
  · rw [strHash_eq_iff]
    exact Digest.digest_change_iff hashStep_injective hashStep_letter _ pre post b b'

theorem exists_hashStep_mod (h : UInt32) : ∃ b, (hashStep h b).toNat % 4 = 2 := by
  have hlt : 2 + 3 * (h.toNat % 4) < 256 := by omega
  refine ⟨UInt8.ofNat (2 + 3 * (h.toNat % 4)), ?_⟩
  have hbyte : (UInt8.ofNat (2 + 3 * (h.toNat % 4))).toNat = 2 + 3 * (h.toNat % 4) := by
    rw [UInt8.toNat_ofNat', Nat.mod_eq_of_lt hlt]
  have hprime : (0x01000193 : UInt32).toNat = 0x01000193 := rfl
  rw [hashStep, UInt32.toNat_mul, UInt32.toNat_add, UInt8.toNat_toUInt32, hbyte, hprime]
  omega

theorem exists_flood : ∃ code : UInt64, code.toNat % 4 = 2 ∧ {k | strHash k = code}.Infinite := by
  obtain ⟨h, hinf⟩ := Digest.exists_infinite hashStep 0x811C9DC5
  obtain ⟨b, hb⟩ := exists_hashStep_mod h
  refine ⟨(hashStep h b).toUInt64, by rwa [UInt32.toNat_toUInt64], ?_⟩
  apply (Digest.infinite_step hinf b).mono
  intro k hk
  exact congrArg UInt32.toUInt64 hk

end NanoRedis
