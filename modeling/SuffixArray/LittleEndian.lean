import Mathlib.Algebra.Group.Nat.Defs
import Mathlib.Data.List.Basic

/-!
# Little-endian words

A word of `width` bytes is written low byte first. What is written back to back is
read back in pieces of `width` bytes; nothing but the count says where to stop.
-/

namespace LittleEndian

/-- The low `width` bytes of `n`, lowest first. -/
def encode : (width : Nat) → Nat → List UInt8
  | 0, _ => []
  | width + 1, n => UInt8.ofNat n :: encode width (n / 256)

def decode : List UInt8 → Nat
  | [] => 0
  | b :: bytes => b.toNat + 256 * decode bytes

def encodeAll (width : Nat) (words : List Nat) : List UInt8 := words.flatMap (encode width)

/-- The first `count` words of `bytes`. -/
def decodeAll (width : Nat) : (count : Nat) → List UInt8 → List Nat
  | 0, _ => []
  | count + 1, bytes =>
    decode (bytes.take width) :: decodeAll width count (bytes.drop width)

@[simp] theorem length_encode (width n : Nat) : (encode width n).length = width := by
  induction width generalizing n with
  | zero => rfl
  | succ width ih => rw [encode, List.length_cons, ih]

@[simp] theorem length_encodeAll (width : Nat) (words : List Nat) :
    (encodeAll width words).length = width * words.length := by
  induction words with
  | nil => rfl
  | cons n words ih =>
      rw [encodeAll, List.flatMap_cons, List.length_append, length_encode, ← encodeAll, ih,
        List.length_cons, Nat.mul_succ, Nat.add_comm]

theorem decode_encode {width n : Nat} (h : n < 256 ^ width) : decode (encode width n) = n := by
  induction width generalizing n with
  | zero =>
      rw [Nat.pow_zero] at h
      exact (Nat.lt_one_iff.mp h).symm
  | succ width ih =>
      have rest : n / 256 < 256 ^ width := by
        apply Nat.div_lt_of_lt_mul
        rwa [← Nat.pow_succ']
      have low : (UInt8.ofNat n).toNat = n % 256 := UInt8.toNat_ofNat'
      rw [encode, decode, ih rest, low, Nat.mod_add_div]

theorem decode_lt (bytes : List UInt8) : decode bytes < 256 ^ bytes.length := by
  induction bytes with
  | nil => exact Nat.one_pos
  | cons b bytes ih =>
      have digit : b.toNat < 256 := b.toNat_lt
      rw [decode, List.length_cons, Nat.pow_succ]
      omega

@[simp] theorem length_decodeAll (width count : Nat) (bytes : List UInt8) :
    (decodeAll width count bytes).length = count := by
  induction count generalizing bytes with
  | zero => rfl
  | succ count ih => rw [decodeAll, List.length_cons, ih]

theorem decodeAll_encodeAll {width : Nat} {words : List Nat} (h : ∀ n ∈ words, n < 256 ^ width) :
    decodeAll width words.length (encodeAll width words) = words := by
  induction words with
  | nil => rfl
  | cons n words ih =>
      obtain ⟨first, others⟩ := List.forall_mem_cons.mp h
      rw [List.length_cons, decodeAll, encodeAll, List.flatMap_cons,
        List.take_left' (length_encode width n), List.drop_left' (length_encode width n),
        decode_encode first, ← encodeAll, ih others]

end LittleEndian
