import SinglePassPIR.Lib.Mem
import Mathlib.Algebra.BigOperators.Group.Finset.Basic

/-!
# Byte strings of a fixed length under XOR

`Bytes n` is a list of bytes that carries its length. Byte-wise XOR makes it an
`XorGroup`: a commutative group in which every element is its own inverse, written
additively, so that the XOR of a family of rows is an ordinary `Finset.sum` and Mathlib's
lemmas about sums apply to it. `rowAt n buf i` reads row `i` of a flat buffer of `n`-byte
rows.
-/

namespace SinglePassPIR

/-- A commutative group, written additively, in which every element is its own inverse. -/
class XorGroup (G : Type*) extends AddCommGroup G where
  add_self (x : G) : x + x = 0

namespace XorGroup
variable {G : Type*} [XorGroup G]

attribute [simp] add_self

/-- XOR with the same element twice cancels. -/
@[simp] theorem add_self_add (x y : G) : x + (x + y) = y := by
  rw [← add_assoc, add_self, zero_add]

@[simp] theorem add_add_self (x y : G) : x + y + y = x := by
  rw [add_assoc, add_self, add_zero]

end XorGroup

/-- A byte string of length `n`. -/
def Bytes (n : ℕ) := {l : List UInt8 // l.length = n}

namespace Bytes
variable {n : ℕ}

/-- The underlying slice. -/
def toList (x : Bytes n) : List UInt8 := x.1

@[simp] theorem length_toList (x : Bytes n) : x.toList.length = n := x.2

theorem toList_ne_nil (hn : 0 < n) (x : Bytes n) : x.toList ≠ [] :=
  List.ne_nil_of_length_pos (by simpa using hn)

/-- The byte at position `k`; positions beyond the end read `0`. -/
def byte (x : Bytes n) (k : ℕ) : UInt8 := x.toList.getD k 0

/-- The byte string with the given bytes. -/
def ofFn (f : ℕ → UInt8) : Bytes n := ⟨(List.range n).map f, by simp⟩

theorem byte_ofFn (f : ℕ → UInt8) {k : ℕ} (hk : k < n) : (ofFn f : Bytes n).byte k = f k := by
  simp [byte, ofFn, toList, List.getD_eq_getElem?_getD, hk]

theorem toList_injective : Function.Injective (toList : Bytes n → List UInt8) :=
  Subtype.val_injective

theorem ext {x y : Bytes n} (h : ∀ k < n, x.byte k = y.byte k) : x = y :=
  Subtype.ext (ext_getD 0 (x.2.trans y.2.symm) fun k hk => h k (x.2 ▸ hk))

instance : DecidableEq (Bytes n) := inferInstanceAs (DecidableEq {l : List UInt8 // l.length = n})

/-! ## The XOR group -/

instance : Zero (Bytes n) := ⟨ofFn fun _ => 0⟩
instance : Add (Bytes n) := ⟨fun x y => ofFn fun k => x.byte k ^^^ y.byte k⟩
instance : Neg (Bytes n) := ⟨id⟩

theorem byte_zero {k : ℕ} (hk : k < n) : (0 : Bytes n).byte k = 0 := byte_ofFn _ hk

theorem byte_neg (x : Bytes n) (k : ℕ) : (-x).byte k = x.byte k := rfl

theorem byte_add (x y : Bytes n) {k : ℕ} (hk : k < n) :
    (x + y).byte k = x.byte k ^^^ y.byte k := byte_ofFn _ hk

instance : XorGroup (Bytes n) where
  add_assoc x y z := by apply ext; intro k hk; simp [byte_add, hk, UInt8.xor_assoc]
  zero_add x := by apply ext; intro k hk; simp [byte_add, byte_zero, hk]
  add_zero x := by apply ext; intro k hk; simp [byte_add, byte_zero, hk]
  add_comm x y := by apply ext; intro k hk; simp [byte_add, hk, UInt8.xor_comm]
  neg_add_cancel x := by apply ext; intro k hk; simp [byte_add, byte_zero, hk, byte_neg]
  add_self x := by apply ext; intro k hk; simp [byte_add, byte_zero, hk]
  nsmul := nsmulRec
  zsmul := zsmulRec

@[simp] theorem toList_zero : (0 : Bytes n).toList = List.replicate n 0 := by
  refine ext_getD 0 (by simp) fun k hk => ?_
  rw [length_toList] at hk
  exact (byte_zero hk).trans (by simp [List.getD_eq_getElem?_getD, hk])

/-- The XOR of a family after one more term. -/
theorem byte_sum_range_succ (f : ℕ → Bytes n) (m : ℕ) {k : ℕ} (hk : k < n) :
    (∑ i ∈ Finset.range (m + 1), f i).byte k =
      (∑ i ∈ Finset.range m, f i).byte k ^^^ (f m).byte k := by
  rw [Finset.sum_range_succ, byte_add _ _ hk]

end Bytes

/-- A sum over the positions of a list. -/
theorem sum_range_getD {G : Type} [AddCommMonoid G] (f : ℕ → G) (l : List ℕ) :
    ∑ i ∈ Finset.range l.length, f (l.getD i 0) = (l.map f).sum := by
  induction l with
  | nil => rfl
  | cons a l ih =>
      rw [List.length_cons, Finset.sum_range_succ', List.map_cons, List.sum_cons, add_comm, ← ih]
      rfl

/-! ## Rows of a flat buffer -/

/-- Row `i` of a flat buffer of `n`-byte rows. -/
def rowAt (n : ℕ) (buf : List UInt8) (i : ℕ) : Bytes n := Bytes.ofFn fun k => buf.getD (i * n + k) 0

theorem byte_rowAt {n : ℕ} (buf : List UInt8) (i : ℕ) {k : ℕ} (hk : k < n) :
    (rowAt n buf i).byte k = buf.getD (i * n + k) 0 := Bytes.byte_ofFn _ hk

/-- A zeroed buffer has zero rows. -/
theorem rowAt_replicate_zero (n m i : ℕ) : rowAt n (List.replicate m 0) i = 0 := by
  apply Bytes.ext
  intro k hk
  rw [byte_rowAt _ _ hk, Bytes.byte_zero hk, List.getD_eq_getElem?_getD, List.getElem?_replicate]
  split <;> rfl

/-- Cutting a row out of the buffer gives that row. -/
theorem toList_rowAt {n : ℕ} {buf : List UInt8} {i : ℕ} (h : i * n + n ≤ buf.length) :
    (rowAt n buf i).toList = (buf.drop (i * n)).take n := by
  refine ext_getD 0 (by rw [Bytes.length_toList, length_slice h]) fun k hk => ?_
  rw [Bytes.length_toList] at hk
  rw [getD_slice _ _ _ _ _ hk]
  exact byte_rowAt buf i hk

theorem length_flatten_rows {n : ℕ} (rows : List (Bytes n)) :
    (rows.map Bytes.toList).flatten.length = rows.length * n := by
  induction rows with
  | nil => simp
  | cons x rows ih =>
      rw [List.map_cons, List.flatten_cons, List.length_append, ih, Bytes.length_toList,
        List.length_cons, Nat.succ_mul, Nat.add_comm]

/-- Row `i` of the concatenation of rows. -/
theorem rowAt_flatten {n : ℕ} (rows : List (Bytes n)) {i : ℕ} (hi : i < rows.length) :
    rowAt n (rows.map Bytes.toList).flatten i = rows[i] := by
  induction rows generalizing i with
  | nil => simp at hi
  | cons x rows ih =>
      apply Bytes.ext
      intro k hk
      rw [byte_rowAt _ _ hk, List.map_cons, List.flatten_cons, getD_append, Bytes.length_toList]
      cases i with
      | zero => rw [if_pos (by omega), Nat.zero_mul, Nat.zero_add]; rfl
      | succ i =>
          have hi' : i < rows.length := by simpa using hi
          rw [if_neg (by rw [Nat.succ_mul]; omega), List.getElem_cons_succ, ← ih hi',
            byte_rowAt _ _ hk]
          refine congrArg (List.getD _ · 0) ?_
          rw [Nat.succ_mul]; omega

/-- Slicing out row `i`. -/
theorem slice_rowAt {n m : ℕ} {buf : List UInt8} {i : ℕ} (hlen : buf.length = m * n)
    (hi : i < m) : slice buf (i * n) ((i + 1) * n) = some (rowAt n buf i).toList := by
  rw [slice_block hlen hi, toList_rowAt (hlen ▸ block_end_le hi)]

end SinglePassPIR
