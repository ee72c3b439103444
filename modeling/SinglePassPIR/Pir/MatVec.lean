import SinglePassPIR.Psetggm.HashesByBits
import SinglePassPIR.Pir.PuncRuns
import Mathlib.Algebra.BigOperators.Intervals

/-!
# The product of a bit vector and a database

`matVecProduct` of `pir_dpf.go`, the XOR of the rows whose selector bit is set. Rows of 32 bytes
go to `xor_hashes_by_bit_vector`, which gets the length of the database as a 32-bit number, and
rows of another length go through a loop of `matVecProduct` itself. `addr` is the address of the
flat database.

## Main results

* `matVecLoop_spec` — the loop returns the XOR of the selected rows.
* `matVecProduct_fast` — the kernel returns that of the first `NumRows % 2 ^ 27` rows.
* `matVecProduct_fast_iff` — where the two agree.
-/

namespace SinglePassPIR.Pir
open Psetggm

/-- The loop of `matVecProduct` -/
def matVecLoop (env : Env) (db : StaticDB) (bitVector out : List UInt8) : Option (List UInt8) :=
  loop db.numRows (fun j out => do
    let b ← bitVector[j / 8]?
    if (1 <<< UInt8.ofNat (j % 8)) &&& b ≠ 0 then do
      let row ← slice db.flatDb (j * db.rowLen) ((j + 1) * db.rowLen)
      xorIntoSlice env out row
    else some out) out

/-- `matVecProduct` -/
def matVecProduct (env : Env) (addr : ℕ) (db : StaticDB) (bitVector : List UInt8) :
    Option (List UInt8) :=
  let out := List.replicate db.rowLen 0
  if db.rowLen = 32 then xorHashesByBitVectorGo env.build addr db.flatDb bitVector out
  else matVecLoop env db bitVector out

variable {n : ℕ} {db : StaticDB} {bitVector : List UInt8}

/-- The row that term `j` of the product contributes. -/
def selectedRow (n : ℕ) (db : StaticDB) (bitVector : List UInt8) (j : ℕ) : Bytes n :=
  selectedHash n db.flatDb bitVector j

/-- The selector bit, as the loop and as the kernel read it. -/
theorem selector_bit (b : UInt8) {k : ℕ} (hk : k < 8) :
    (1 <<< UInt8.ofNat k) &&& b ≠ 0 ↔ b.toNat >>> k &&& 1 ≠ 0 := by
  have hall : ∀ k < 8, ∀ b < 256,
      ((1 <<< UInt8.ofNat k) &&& UInt8.ofNat b ≠ 0 ↔ b >>> k &&& 1 ≠ 0) := by decide +kernel
  have hbyte := hall k hk b.toNat b.toNat_lt
  rwa [UInt8.ofNat_toNat] at hbyte

/-- **The loop returns the XOR of the selected rows.** -/
theorem matVecLoop_spec (env : Env) (h : db.WF n) (hbits : db.numRows ≤ 8 * bitVector.length) :
    matVecLoop env db bitVector (0 : Bytes n).toList =
      some (∑ j ∈ Finset.range db.numRows, selectedRow n db bitVector j).toList := by
  refine loop_eq (fun j => (∑ i ∈ Finset.range j, selectedRow n db bitVector i).toList) rfl ?_
  intro j hj
  have hread : bitVector[j / 8]? = some (bitVector.getD (j / 8) 0) :=
    getElem?_eq_some_getD 0 (by omega)
  have hbit := selector_bit (bitVector.getD (j / 8) 0) (Nat.mod_lt j (show 0 < 8 by decide))
  rw [hread, Option.bind_eq_bind, Option.bind_some, Finset.sum_range_succ]
  by_cases hsel : Selects bitVector j
  · have hterm : selectedRow n db bitVector j = rowAt n db.flatDb j := if_pos hsel
    rw [if_pos (hbit.mpr hsel), h.rowLen_eq, slice_rowAt h.length_eq hj,
      Option.bind_eq_bind, Option.bind_some, xorIntoSlice_rows, hterm]
  · have hterm : selectedRow n db bitVector j = 0 := if_neg hsel
    rw [if_neg (mt hbit.mp hsel), hterm, add_zero]

/-- The product for rows of another length than 32. -/
theorem matVecProduct_slow (env : Env) (addr : ℕ) (h : db.WF n) (hn : n ≠ 32)
    (hbits : db.numRows ≤ 8 * bitVector.length) :
    matVecProduct env addr db bitVector =
      some (∑ j ∈ Finset.range db.numRows, selectedRow n db bitVector j).toList := by
  rw [matVecProduct, if_neg (h.rowLen_eq ▸ hn), h.rowLen_eq, ← Bytes.toList_zero]
  exact matVecLoop_spec env h hbits

/-! ## Rows of 32 bytes -/

/-- The rows that the kernel sees. -/
theorem cUint_rows (rows : ℕ) : cUint (rows * 32) / 32 = rows % 2 ^ 27 := by
  rw [cUint]
  omega

/-- A table with rows, and a bit for each of them. -/
theorem matVecProduct_eq_kernel (env : Env) (addr : ℕ) (h : db.WF 32) (hrows : 0 < db.numRows)
    (hbits : db.numRows ≤ 8 * bitVector.length) :
    matVecProduct env addr db bitVector =
      xorHashesByBitVector env.build addr db.flatDb (cUint (db.numRows * 32)) bitVector
        (0 : Bytes 32).toList := by
  have hdb : db.flatDb ≠ [] := List.ne_nil_of_length_pos (by rw [h.length_eq]; omega)
  have hvec : bitVector ≠ [] := List.ne_nil_of_length_pos (by omega)
  rw [matVecProduct, if_pos h.rowLen_eq, h.rowLen_eq, ← Bytes.toList_zero, xorHashesByBitVectorGo,
    if_neg (by simp [hdb, hvec]), h.length_eq]

/-- **The kernel returns the XOR of the selected rows** among the first `NumRows % 2 ^ 27`. -/
theorem matVecProduct_fast (env : Env) {addr : ℕ} (h : db.WF 32) (hrows : 0 < db.numRows)
    (hbits : db.numRows ≤ 8 * bitVector.length)
    (haligned : db.numRows % 2 ^ 27 = 0 ∨ addr % env.build.lane = 0) :
    matVecProduct env addr db bitVector =
      some (∑ j ∈ Finset.range (db.numRows % 2 ^ 27), selectedRow 32 db bitVector j).toList := by
  have hseen := cUint_rows db.numRows
  have hle : db.numRows % 2 ^ 27 ≤ db.numRows := Nat.mod_le _ _
  rw [matVecProduct_eq_kernel env addr h hrows hbits, xorHashesByBitVector_spec, hseen]
  · rfl
  · intro hlarge
    refine haligned.resolve_left ?_
    omega
  · rw [hseen, h.length_eq]
    exact Nat.mul_le_mul_right 32 hle
  · rw [hseen]
    exact hle.trans hbits
  · exact cUint_lt _

/-- Rows that the kernel sees at an address of another lane are not loaded. -/
theorem matVecProduct_of_misaligned (env : Env) {addr : ℕ} (h : db.WF 32) (hrows : 0 < db.numRows)
    (hbits : db.numRows ≤ 8 * bitVector.length) (hseen : db.numRows % 2 ^ 27 ≠ 0)
    (hmis : addr % env.build.lane ≠ 0) : matVecProduct env addr db bitVector = none := by
  have hkernel := cUint_rows db.numRows
  rw [matVecProduct_eq_kernel env addr h hrows hbits]
  exact xorHashesByBitVector_of_misaligned env.build hmis (by omega) (cUint_lt _) _

/-- **Where the kernel agrees with the loop**: the rows that it sees are aligned, and those that it
does not see contribute nothing. -/
theorem matVecProduct_fast_iff (env : Env) (addr : ℕ) (h : db.WF 32) (hrows : 0 < db.numRows)
    (hbits : db.numRows ≤ 8 * bitVector.length) :
    (∃ out : Bytes 32, matVecProduct env addr db bitVector = some out.toList ∧
        matVecLoop env db bitVector (0 : Bytes 32).toList = some out.toList) ↔
      (db.numRows % 2 ^ 27 = 0 ∨ addr % env.build.lane = 0) ∧
        ∑ j ∈ Finset.Ico (db.numRows % 2 ^ 27) db.numRows, selectedRow 32 db bitVector j = 0 := by
  have hle : db.numRows % 2 ^ 27 ≤ db.numRows := Nat.mod_le _ _
  have hsplit := Finset.sum_range_add_sum_Ico (selectedRow 32 db bitVector) hle
  have hloop := matVecLoop_spec env h hbits
  constructor
  · intro ⟨out, hfast, hslow⟩
    have haligned : db.numRows % 2 ^ 27 = 0 ∨ addr % env.build.lane = 0 := by
      by_contra hmis
      push Not at hmis
      rw [matVecProduct_of_misaligned env h hrows hbits hmis.1 hmis.2] at hfast
      cases hfast
    refine ⟨haligned, ?_⟩
    rw [matVecProduct_fast env h hrows hbits haligned, Option.some.injEq] at hfast
    rw [hloop, Option.some.injEq] at hslow
    have heq := Bytes.toList_injective (hfast.trans hslow.symm)
    rw [← hsplit] at heq
    exact left_eq_add.mp heq
  · intro ⟨haligned, hzero⟩
    rw [hzero, add_zero] at hsplit
    refine ⟨_, matVecProduct_fast env h hrows hbits haligned, ?_⟩
    rw [hsplit, hloop]

theorem matVecProduct_fast_iff_one_row :
    (∃ out : Bytes 32, matVecProduct countingEnv 0 ⟨1, 32, 0, List.replicate 32 7⟩ [1] =
          some out.toList ∧
        matVecLoop countingEnv ⟨1, 32, 0, List.replicate 32 7⟩ [1] (0 : Bytes 32).toList =
          some out.toList) ↔
      (1 % 2 ^ 27 = 0 ∨ 0 % countingEnv.build.lane = 0) ∧
        ∑ j ∈ Finset.Ico (1 % 2 ^ 27) 1,
          selectedRow 32 ⟨1, 32, 0, List.replicate 32 7⟩ [1] j = 0 :=
  @matVecProduct_fast_iff ⟨1, 32, 0, List.replicate 32 7⟩ [1] countingEnv 0 ⟨rfl, rfl⟩ (by decide)
    (by decide)

/-! ## A database of 4 GiB -/

/-- `1` and zeros, of length `len + 1`. -/
def oneFirst (len : ℕ) : List UInt8 := 1 :: List.replicate len 0

theorem getD_oneFirst_succ (len k : ℕ) : (oneFirst len).getD (k + 1) 0 = 0 := by
  rw [oneFirst, List.getD_cons_succ, List.getD_eq_getElem?_getD, List.getElem?_replicate]
  split <;> rfl

/-- Only the first row is selected. -/
theorem not_selects_oneFirst {len j : ℕ} (hj : 0 < j) : ¬Selects (oneFirst len) j := by
  rw [Selects, not_not]
  by_cases hfirst : j < 8
  · rw [Nat.div_eq_of_lt hfirst, Nat.mod_eq_of_lt hfirst]
    have hall : ∀ j < 8, 0 < j → (1 : UInt8).toNat >>> j &&& 1 = 0 := by decide
    exact hall j hfirst hj
  · obtain ⟨k, hk⟩ : ∃ k, j / 8 = k + 1 := ⟨j / 8 - 1, by omega⟩
    rw [hk, getD_oneFirst_succ]
    simp

@[simp] theorem length_oneFirst (len : ℕ) : (oneFirst len).length = len + 1 := by simp [oneFirst]

/-- A table whose only non-zero byte is the first one, and a vector that selects its row. -/
theorem oneFirst_spec (rows len bits : ℕ) (hrows : 0 < rows) (hlen : len + 1 = rows * 32)
    (hbits : rows ≤ 8 * (bits + 1)) :
    StaticDB.WF 32 ⟨rows, 32, 0, oneFirst len⟩ ∧ rows ≤ 8 * (oneFirst bits).length ∧
      ∀ env : Env, (rows % 2 ^ 27 = 0 →
        matVecProduct env 0 ⟨rows, 32, 0, oneFirst len⟩ (oneFirst bits) =
          some (0 : Bytes 32).toList) ∧
      ∃ out : Bytes 32, matVecLoop env ⟨rows, 32, 0, oneFirst len⟩ (oneFirst bits)
        (0 : Bytes 32).toList = some out.toList ∧ out.byte 0 = 1 := by
  have hwf : StaticDB.WF 32 ⟨rows, 32, 0, oneFirst len⟩ := ⟨rfl, by simpa using hlen⟩
  have hvec : rows ≤ 8 * (oneFirst bits).length := by simpa using hbits
  refine ⟨hwf, hvec, ?_⟩
  intro env
  refine ⟨?_, _, matVecLoop_spec env hwf hvec, ?_⟩
  · intro hmod
    rw [matVecProduct_fast env hwf hrows hvec (Or.inl hmod), hmod]
    rfl
  · have hsum : ∑ j ∈ Finset.range rows, selectedRow 32 ⟨rows, 32, 0, oneFirst len⟩ (oneFirst bits) j =
        selectedRow 32 ⟨rows, 32, 0, oneFirst len⟩ (oneFirst bits) 0 := by
      apply Finset.sum_eq_single
      · intro j _ hj
        exact if_neg (not_selects_oneFirst (Nat.pos_of_ne_zero hj))
      · intro hnot
        exact absurd (Finset.mem_range.mpr hrows) hnot
    have hsel : Selects (oneFirst bits) 0 := by
      change (1 : UInt8).toNat >>> 0 &&& 1 ≠ 0
      decide
    rw [hsum, selectedRow, selectedHash, if_pos hsel, byte_rowAt _ _ (by decide)]
    rfl

/-- In a database of `2 ^ 32` bytes the kernel sees no row, and the loop returns one that is not
zero. -/
theorem matVecProduct_sees_no_row :
    StaticDB.WF 32 ⟨2 ^ 27, 32, 0, oneFirst (2 ^ 32 - 1)⟩ ∧
      2 ^ 27 ≤ 8 * (oneFirst (2 ^ 24 - 1)).length ∧ ∀ env : Env,
        matVecProduct env 0 ⟨2 ^ 27, 32, 0, oneFirst (2 ^ 32 - 1)⟩ (oneFirst (2 ^ 24 - 1)) =
          some (0 : Bytes 32).toList ∧
        ∃ out : Bytes 32, matVecLoop env ⟨2 ^ 27, 32, 0, oneFirst (2 ^ 32 - 1)⟩
          (oneFirst (2 ^ 24 - 1)) (0 : Bytes 32).toList = some out.toList ∧ out.byte 0 = 1 := by
  obtain ⟨hwf, hvec, hall⟩ := oneFirst_spec (2 ^ 27) (2 ^ 32 - 1) (2 ^ 24 - 1) (by decide)
    (by decide) (by decide)
  refine ⟨hwf, hvec, ?_⟩
  intro env
  exact ⟨(hall env).1 (by decide), (hall env).2⟩

end SinglePassPIR.Pir
