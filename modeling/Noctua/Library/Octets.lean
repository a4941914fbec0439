import Mathlib.Data.List.Basic
import Mathlib.Algebra.Order.Ring.Nat

namespace Octets
set_option autoImplicit true

/-- The low `k` bytes of a number, least significant first. -/
def encode : Nat → Nat → List UInt8
  | 0, _ => []
  | k + 1, n => UInt8.ofNat n :: encode k (n / 256)

def decode : List UInt8 → Nat
  | [] => 0
  | b :: bs => b.toNat + 256 * decode bs

@[simp] theorem encode_length (k n : Nat) : (encode k n).length = k := by
  induction k generalizing n with
  | zero => rfl
  | succ k ih => rw [encode, List.length_cons, ih]

theorem decode_encode_mod (k n : Nat) : decode (encode k n) = n % 256 ^ k := by
  induction k generalizing n with
  | zero => rw [encode, decode, Nat.pow_zero, Nat.mod_one]
  | succ k ih =>
    rw [encode, decode, ih, Nat.pow_succ', Nat.mod_mul]
    rfl

theorem decode_encode (h : n < 256 ^ k) : decode (encode k n) = n := by
  rw [decode_encode_mod, Nat.mod_eq_of_lt h]

theorem encode_inj (hm : m < 256 ^ k) (hn : n < 256 ^ k) :
    encode k m = encode k n ↔ m = n := by
  constructor
  · intro h
    rw [← decode_encode hm, h, decode_encode hn]
  · exact congrArg (encode k)

theorem decode_uint16 (v : UInt16) : UInt16.ofNat (decode (encode 2 v.toNat)) = v := by
  rw [decode_encode (by simpa using v.toNat_lt), UInt16.ofNat_toNat]

end Octets
