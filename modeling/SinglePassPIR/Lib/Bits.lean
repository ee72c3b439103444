import Mathlib.Data.Nat.Bitwise
import Mathlib.Data.Nat.Notation
import Mathlib.Tactic.Common
import Mathlib.Tactic.Ring

/-!
# Numbers as bit strings

Bit strings with the lowest bit first. `bitsOf n v` are the lowest `n` bits of `v`, and
`ofBits` is the number that a string denotes; a byte buffer is the bit string of its bytes.

## Main results

* `ofBits_bitsOf` — writing and reading a number.
* `bitsOf_ones` — the unary code of a number.
-/

namespace SinglePassPIR

/-- The lowest `n` bits of `v`. -/
def bitsOf (n v : ℕ) : List Bool := (List.range n).map v.testBit

/-- The number with the given bits. -/
def ofBits : List Bool → ℕ
  | [] => 0
  | b :: l => b.toNat + 2 * ofBits l

@[simp] theorem length_bitsOf (n v : ℕ) : (bitsOf n v).length = n := by simp [bitsOf]

@[simp] theorem bitsOf_zero_left (v : ℕ) : bitsOf 0 v = [] := rfl

theorem bitsOf_succ (n v : ℕ) : bitsOf (n + 1) v = v.testBit 0 :: bitsOf n (v / 2) := by
  rw [bitsOf, List.range_succ_eq_map, List.map_cons, List.map_map]
  refine congrArg (v.testBit 0 :: ·) (List.map_congr_left fun i _ => ?_)
  exact Nat.testBit_succ v i

theorem bitsOf_succ_last (n v : ℕ) : bitsOf (n + 1) v = bitsOf n v ++ [v.testBit n] := by
  rw [bitsOf, List.range_succ, List.map_append]
  rfl

@[simp] theorem bitsOf_zero (n : ℕ) : bitsOf n 0 = List.replicate n false := by
  induction n with
  | zero => rfl
  | succ n ih => rw [bitsOf_succ, Nat.zero_div, ih, Nat.zero_testBit, List.replicate_succ]

/-- The bits above the highest one are zero. -/
theorem bitsOf_add {j v : ℕ} (m : ℕ) (hv : v < 2 ^ j) :
    bitsOf (j + m) v = bitsOf j v ++ List.replicate m false := by
  induction m with
  | zero => simp
  | succ m ih =>
      rw [← Nat.add_assoc, bitsOf_succ_last, ih, List.replicate_succ', List.append_assoc,
        Nat.testBit_lt_two_pow (hv.trans_le (Nat.pow_le_pow_right (by decide) (by omega)))]

/-- **Reading back a number.** -/
theorem ofBits_bitsOf (n v : ℕ) : ofBits (bitsOf n v) = v % 2 ^ n := by
  induction n generalizing v with
  | zero => simp [ofBits, Nat.mod_one]
  | succ n ih =>
      rw [bitsOf_succ, ofBits, ih, Nat.pow_succ', Nat.mod_mul, Nat.testBit_zero]
      cases Nat.mod_two_eq_zero_or_one v with
      | inl h => simp [h]
      | inr h => simp [h]

theorem ofBits_lt (l : List Bool) : ofBits l < 2 ^ l.length := by
  induction l with
  | nil => simp [ofBits]
  | cons b l ih =>
      rw [ofBits, List.length_cons, Nat.pow_succ']
      have := Bool.toNat_le b
      omega

/-- The bits of `2 ^ q - 1`. -/
theorem bitsOf_ones (q : ℕ) : bitsOf q (2 ^ q - 1) = List.replicate q true := by
  rw [bitsOf, List.eq_replicate_iff]
  refine ⟨by simp, ?_⟩
  intro b hb
  obtain ⟨i, hi, rfl⟩ := List.mem_map.mp hb
  rw [Nat.testBit_two_pow_sub_one]
  exact decide_eq_true (List.mem_range.mp hi)

/-- The bits of a byte. -/
def byteBits (b : UInt8) : List Bool := bitsOf 8 b.toNat

/-- The bits of a buffer. -/
def bytesBits (buf : List UInt8) : List Bool := buf.flatMap byteBits

@[simp] theorem length_byteBits (b : UInt8) : (byteBits b).length = 8 := length_bitsOf 8 _

@[simp] theorem bytesBits_nil : bytesBits [] = [] := rfl

@[simp] theorem bytesBits_cons (b : UInt8) (buf : List UInt8) :
    bytesBits (b :: buf) = byteBits b ++ bytesBits buf := rfl

@[simp] theorem bytesBits_append (buf buf' : List UInt8) :
    bytesBits (buf ++ buf') = bytesBits buf ++ bytesBits buf' := List.flatMap_append

@[simp] theorem length_bytesBits (buf : List UInt8) : (bytesBits buf).length = 8 * buf.length := by
  induction buf with
  | nil => rfl
  | cons b buf ih =>
      rw [bytesBits_cons, List.length_append, ih, length_byteBits, List.length_cons]
      ring

/-- Bit `j` of a byte, and the bits above it. -/
theorem drop_byteBits (b : UInt8) {j : ℕ} (hj : j < 8) :
    (byteBits b).drop j = b.toNat.testBit j :: (byteBits b).drop (j + 1) := by
  have hlen : j < (byteBits b).length := by simpa using hj
  rw [List.drop_eq_getElem_cons hlen]
  simp [byteBits, bitsOf]

end SinglePassPIR
