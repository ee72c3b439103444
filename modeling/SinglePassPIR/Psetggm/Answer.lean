import SinglePassPIR.Psetggm.Permute
import SinglePassPIR.Psetggm.Xor
import Mathlib.Algebra.BigOperators.Fin

/-!
# The single pass over the database

`answer_single_pass` of `answer.cpp` and the Go side of the calls (`pset_ggm_c.go`). The
preprocessing cuts the database into `set_num_elems` chunks, draws one permutation for
each chunk and adds row `x` of the chunk to parity `p⁻¹ x`. All of its counts and sizes
are 32-bit; the conversions are where the Go wrapper has them.

## Main results

* `answerSinglePass_spec` — parity `h` is the XOR over the chunks `j` of their row `p j h`.
* `fastXorInto_eq`, `copyIn_eq`, `xorBlocksTogether_eq` — the wrappers on rows.
-/

namespace SinglePassPIR.Psetggm

/-- The three buffers that the server allocates and the pass fills. -/
structure HintBuffers where
  parities : List UInt8
  permutations : List ℕ
  inversePermutations : List ℕ

/-- The body of the loop over the chunks. -/
def singlePassChunk (B : Build) (rnd : ℕ → UInt32) (db : List UInt8) (permSize dbElemSize : ℕ)
    (i : ℕ) (buf : HintBuffers) : Option HintBuffers := do
  let perm ← permute (fun k => rnd (i * (permSize - 1) + k)) permSize
  let permutations ← storeAt buf.permutations (i * permSize) perm
  let inverse ← slice buf.inversePermutations (i * permSize) ((i + 1) * permSize)
  let inverse ← invertPermutation perm permSize inverse
  let inversePermutations ← storeAt buf.inversePermutations (i * permSize) inverse
  let movingDb := db.drop (i * (dbElemSize * permSize % 2 ^ 32))
  let parities ← xorSinglePass B movingDb inverse permSize buf.parities dbElemSize
  some { parities, permutations, inversePermutations }

/-- `answer_single_pass`; chunk `i` uses the draws after those of the chunks before it. -/
def answerSinglePass (B : Build) (rnd : ℕ → UInt32) (db : List UInt8)
    (dbNumElems setNumElems dbElemSize : ℕ) (buf : HintBuffers) : Option HintBuffers :=
  -- an unsigned division by zero traps
  if setNumElems = 0 then none
  else intLoop setNumElems (singlePassChunk B rnd db (dbNumElems / setNumElems) dbElemSize) buf

/-! ## The Go wrappers

Taking the address of the first element of an empty slice panics. -/

/-- `SinglePassAnswer`; `permSeed` only reaches `srand`, whose generator is not used. -/
def singlePassAnswer (B : Build) (rnd : ℕ → UInt32) (db : List UInt8)
    (dbNumElems setNumElems dbElemSize : ℕ) (buf : HintBuffers) : Option HintBuffers :=
  if db = [] ∨ buf.parities = [] ∨ buf.permutations = [] ∨ buf.inversePermutations = [] then none
  else answerSinglePass B rnd db (cUint dbNumElems) (cUint setNumElems) (cUint dbElemSize) buf

/-- `XorBlocksTogether` -/
def xorBlocksTogether (B : Build) (db out : List UInt8) (elemSize numElems : ℕ) :
    Option (List UInt8) :=
  if db = [] ∨ out = [] then none
  else xorAllRows B db (cUint numElems) (cUint elemSize) out

/-- `FastXorInto` -/
def fastXorInto (B : Build) (out inp : List UInt8) (elemSize : ℕ) : Option (List UInt8) :=
  if out = [] ∨ inp = [] then none else xorInto B out inp (cUint elemSize)

/-- `CopyIn` -/
def copyIn (B : Build) (out db : List UInt8) (index elemSize : ℕ) : Option (List UInt8) :=
  if out = [] ∨ db.length ≤ index * elemSize then none
  else xorInto B out (db.drop (index * elemSize)) (cUint elemSize)

/-- `SinglePermutation`: a fresh permutation and its inverse. -/
def singlePermutation (rnd : ℕ → UInt32) (permArr invPermArr : List ℕ) (permSize : ℕ) :
    Option (List ℕ × List ℕ) :=
  if permArr = [] ∨ invPermArr = [] then none
  else do
    let perm ← permute rnd (cUint permSize)
    let permArr ← storeAt permArr 0 perm
    let invPermArr ← invertPermutation permArr (cUint permSize) invPermArr
    some (permArr, invPermArr)

/-! ## Their meaning on rows -/

/-- XORing one row into another. -/
theorem fastXorInto_eq (B : Build) {n : ℕ} (hn : 0 < n) (h32 : n < 2 ^ 32) (x y : Bytes n) :
    fastXorInto B x.toList y.toList n = some (x + y).toList := by
  rw [fastXorInto, if_neg (by simp [Bytes.toList_ne_nil hn]), cUint_eq h32,
    xorInto_eq B h32 (by simp) (by simp), xorFirst_toList _ _ _ fun k _ => rfl]

/-- Copying a row out of the database into a zeroed row. -/
theorem copyIn_eq (B : Build) {n i : ℕ} {db : List UInt8} (hn : 0 < n) (h32 : n < 2 ^ 32)
    (hdb : i * n + n ≤ db.length) :
    copyIn B (0 : Bytes n).toList db i n = some (rowAt n db i).toList := by
  have hlen : n ≤ (db.drop (i * n)).length := by rw [List.length_drop]; omega
  rw [copyIn, if_neg (by simp only [Bytes.toList_ne_nil hn, false_or]; omega), cUint_eq h32,
    xorInto_eq B h32 (by simp) hlen, xorFirst_toList 0 (rowAt n db i), zero_add]
  intro k hk
  rw [getD_drop, byte_rowAt _ _ hk]

/-- XORing all the rows of a buffer together. -/
theorem xorBlocksTogether_eq (B : Build) {n m : ℕ} {db : List UInt8} (out : Bytes n)
    (hn : 0 < n) (h32 : n < 2 ^ 32) (hm : 0 < m) (hm31 : m < 2 ^ 31) (hdb : db.length = m * n) :
    xorBlocksTogether B db out.toList n m =
      some (∑ i ∈ Finset.range m, rowAt n db i).toList := by
  have hne : db ≠ [] := List.ne_nil_of_length_pos (hdb ▸ Nat.mul_pos hm hn)
  rw [xorBlocksTogether, if_neg (by simp [hne, Bytes.toList_ne_nil hn]), cUint_eq h32,
    cUint_eq (by omega), xorAllRows_spec B out h32 hm31 hdb.ge]

/-! ### Rows of any length

The lengths that reach the kernels are reduced modulo `2 ^ 32`. On rows that are longer the
wrappers compute something else, but they touch the same buffers. -/

theorem cUint_le (n : ℕ) : cUint n ≤ n := Nat.mod_le n _

theorem cUint_lt (n : ℕ) : cUint n < 2 ^ 32 := Nat.mod_lt n (Nat.two_pow_pos 32)

theorem fastXorInto_total (B : Build) {n : ℕ} (hn : 0 < n) (x y : Bytes n) :
    ∃ z : Bytes n, fastXorInto B x.toList y.toList n = some z.toList := by
  refine ⟨⟨xorFirst (cUint n) x.toList y.toList, by simp⟩, ?_⟩
  rw [fastXorInto, if_neg (by simp [Bytes.toList_ne_nil hn]),
    xorInto_eq B (cUint_lt n) (by simpa using cUint_le n) (by simpa using cUint_le n)]
  rfl

theorem copyIn_total (B : Build) {n i : ℕ} {db : List UInt8} (hn : 0 < n) (x : Bytes n)
    (hdb : i * n + n ≤ db.length) :
    ∃ z : Bytes n, copyIn B x.toList db i n = some z.toList := by
  have hle := cUint_le n
  refine ⟨⟨xorFirst (cUint n) x.toList (db.drop (i * n)), by simp⟩, ?_⟩
  rw [copyIn, if_neg (by simp only [Bytes.toList_ne_nil hn, false_or]; omega),
    xorInto_eq B (cUint_lt n) (by simpa using hle) (by rw [List.length_drop]; omega)]
  rfl

theorem xorBlocksTogether_total (B : Build) {n m : ℕ} {db : List UInt8} (out : Bytes n)
    (hn : 0 < n) (hm : 0 < m) (hm31 : cUint m < 2 ^ 31) (hdb : db.length = m * n) :
    ∃ z : Bytes n, xorBlocksTogether B db out.toList n m = some z.toList := by
  have hne : db ≠ [] := List.ne_nil_of_length_pos (hdb ▸ Nat.mul_pos hm hn)
  have hle := cUint_le n
  have hstore : (0 : ℕ) + (List.replicate (cUint n) (0 : UInt8)).length ≤ out.toList.length := by
    simpa using hle
  obtain ⟨out', hst, hlen, -⟩ := storeAt_spec 0 hstore
  obtain ⟨res, hloop, hres⟩ := loop_spec (n := cUint m) (s := out')
    (f := fun i out => xorInto B out (db.drop (i * cUint n)) (cUint n))
    (fun _ out => out.length = n) (hlen.trans out.length_toList) (by
      intro i hi t ht
      have hend : i * cUint n + cUint n ≤ db.length := by
        calc i * cUint n + cUint n ≤ cUint m * cUint n := block_end_le hi
          _ ≤ m * n := Nat.mul_le_mul (cUint_le m) hle
          _ = db.length := hdb.symm
      refine ⟨_, xorInto_eq B (cUint_lt n) (by omega) (by rw [List.length_drop]; omega), ?_⟩
      rw [length_xorFirst, ht])
  refine ⟨⟨res, hres⟩, ?_⟩
  rw [xorBlocksTogether, if_neg (by simp [hne, Bytes.toList_ne_nil hn]), xorAllRows, hst]
  exact (intLoop_eq hm31 _ _).trans hloop

/-- A row count that an `int` cannot reach is undefined behaviour. -/
theorem xorBlocksTogether_eq_none (B : Build) {m : ℕ} (n : ℕ) (db out : List UInt8)
    (hm : ¬cUint m < 2 ^ 31) : xorBlocksTogether B db out n m = none := by
  have hloop : ∀ (f : ℕ → List UInt8 → Option (List UInt8)) s, intLoop (cUint m) f s = none :=
    fun _ _ => if_neg hm
  simp only [xorBlocksTogether, xorAllRows, hloop, Option.bind_eq_bind, Option.bind_fun_none,
    ite_self]

/-! ## The whole pass -/

/-- Sizes that the kernels can represent: row counts and products of sizes are 32-bit, and
the loops over chunks and over rows count in an `int`. -/
structure KernelFits (setSize nHints rowLen : ℕ) : Prop where
  setSize_lt : setSize < 2 ^ 31
  nHints_lt : nHints < 2 ^ 31
  rows_lt : setSize * nHints < 2 ^ 32
  chunk_lt : nHints * rowLen < 2 ^ 32

theorem KernelFits.rowLen_lt {S H n : ℕ} (h : KernelFits S H n) (hH : 0 < H) : n < 2 ^ 32 :=
  (Nat.le_mul_of_pos_left n hH).trans_lt h.chunk_lt

/-- `xor_single_pass` on the inverse of a permutation: parity `q` gains row `σ q`. -/
theorem xorSinglePass_permArray (B : Build) {n m : ℕ} {db parities : List UInt8}
    (σ : Equiv.Perm (Fin m)) (hmn : m * n < 2 ^ 32) (hn : n < 2 ^ 32) (hm : m < 2 ^ 31)
    (hpar : parities.length = m * n) (hdb : m * n ≤ db.length) :
    ∃ parities', xorSinglePass B db (permArray σ.symm) m parities n = some parities' ∧
      parities'.length = m * n ∧
      ∀ q : Fin m, rowAt n parities' q = rowAt n parities q + rowAt n db (σ q) := by
  let inv : ℕ → ℕ := fun i => if h : i < m then σ.symm ⟨i, h⟩ else 0
  have hinv : ∀ i < m, (permArray σ.symm)[i]? = some (inv i) ∧ inv i < m := by
    intro i hi
    have hval : inv i = σ.symm ⟨i, hi⟩ := dif_pos hi
    rw [hval]
    exact ⟨getElem?_permArray σ.symm ⟨i, hi⟩, (σ.symm ⟨i, hi⟩).isLt⟩
  obtain ⟨par, hx, hlen, hrows⟩ := xorSinglePass_spec B inv hmn hn hm hpar hdb hinv
  refine ⟨par, hx, hlen, ?_⟩
  intro q
  rw [hrows q q.isLt, Finset.sum_range]
  refine congrArg (rowAt n parities q + ·) ?_
  -- the only row that goes into parity `q` is `σ q`
  rw [Finset.sum_eq_single (σ q)]
  · have hq : inv (σ q) = q := by simp [inv]
    rw [if_pos hq]
  · intro x _ hx
    have hne : inv x ≠ q := by
      intro h
      have hval : inv x = σ.symm x := dif_pos x.isLt
      rw [hval] at h
      exact hx ((σ.symm_apply_eq).mp (Fin.ext h))
    rw [if_neg hne]
  · intro h
    exact absurd (Finset.mem_univ _) h

/-- What the pass has established after the chunks before `i`. -/
structure PassInv {H : ℕ} (S n : ℕ) (db : List UInt8) (i : ℕ) (p : ℕ → Equiv.Perm (Fin H))
    (buf : HintBuffers) : Prop where
  parities_length : buf.parities.length = H * n
  permutations_length : buf.permutations.length = S * H
  inversePermutations_length : buf.inversePermutations.length = S * H
  permutations : ∀ j < i, slice buf.permutations (j * H) ((j + 1) * H) = some (permArray (p j))
  inversePermutations : ∀ j < i,
    slice buf.inversePermutations (j * H) ((j + 1) * H) = some (permArray (p j).symm)
  parities : ∀ h : Fin H,
    rowAt n buf.parities h = ∑ j ∈ Finset.range i, rowAt n db (j * H + p j h)

/-- One chunk: a fresh permutation, and its rows in the parities. -/
theorem singlePassChunk_spec (B : Build) (rnd : ℕ → UInt32) {S H n i : ℕ} {db : List UInt8}
    {p : ℕ → Equiv.Perm (Fin H)} {buf : HintBuffers} (hH : 0 < H) (hfit : KernelFits S H n)
    (hdb : db.length = S * H * n) (hi : i < S) (hinv : PassInv S n db i p buf) :
    ∃ (p' : ℕ → Equiv.Perm (Fin H)) (buf' : HintBuffers), singlePassChunk B rnd db H n i buf = some buf' ∧
        PassInv S n db (i + 1) p' buf' := by
  have hnH : n * H % 2 ^ 32 = H * n := by
    rw [mul_comm n H]; exact Nat.mod_eq_of_lt hfit.chunk_lt
  obtain ⟨σ, hperm⟩ := permute_spec (fun k => rnd (i * (H - 1) + k)) hH
    (hfit.nHints_lt.trans (by decide))
  obtain ⟨perms, hst, hplen, hpsl⟩ := storeAt_block (v := permArray σ) hinv.permutations_length hi
    (length_permArray σ)
  have hcur := slice_block hinv.inversePermutations_length hi
  have hcurlen : ((buf.inversePermutations.drop (i * H)).take H).length = H :=
    length_slice (by rw [hinv.inversePermutations_length]; exact block_end_le hi)
  obtain ⟨invs, hst', hilen, hisl⟩ := storeAt_block (v := permArray σ.symm)
    hinv.inversePermutations_length hi (length_permArray σ.symm)
  have hdrop : H * n ≤ (db.drop (i * (H * n))).length := by
    have := block_end_le (w := H * n) hi
    rw [List.length_drop, hdb, mul_assoc S]; omega
  obtain ⟨pars, hx, hxlen, hrows⟩ := xorSinglePass_permArray B σ hfit.chunk_lt
    (hfit.rowLen_lt hH) hfit.nHints_lt hinv.parities_length hdrop
  refine ⟨Function.update p i σ, ⟨pars, perms, invs⟩, ?_, ?_⟩
  · simp only [singlePassChunk, hperm, hst, hcur, invertPermutation_eq σ _ hcurlen, hst', hnH, hx,
      Option.bind_eq_bind, Option.bind_some]
  · have hupd : ∀ j, j < i → Function.update p i σ j = p j := by
      intro j hj
      exact Function.update_of_ne hj.ne _ _
    constructor
    · exact hxlen
    · exact hplen
    · exact hilen
    · intro j hj
      rw [hpsl j (by omega)]
      rcases Nat.lt_succ_iff_lt_or_eq.mp hj with hlt | heq
      · rw [if_neg hlt.ne, hupd j hlt, hinv.permutations j hlt]
      · rw [if_pos heq, heq, Function.update_self]
    · intro j hj
      rw [hisl j (by omega)]
      rcases Nat.lt_succ_iff_lt_or_eq.mp hj with hlt | heq
      · rw [if_neg hlt.ne, hupd j hlt, hinv.inversePermutations j hlt]
      · rw [if_pos heq, heq, Function.update_self]
    · intro h
      rw [hrows h, hinv.parities h, Finset.sum_range_succ, Function.update_self]
      refine congrArg₂ (· + ·) ?_ ?_
      · refine Finset.sum_congr rfl ?_
        intro j hj
        rw [hupd j (Finset.mem_range.mp hj)]
      · -- row `σ h` of the chunk is a row of the whole database
        apply Bytes.ext
        intro k hk
        rw [byte_rowAt _ _ hk, byte_rowAt _ _ hk, getD_drop]
        refine congrArg (db.getD · 0) ?_
        ring

/-- **The preprocessing.** Whatever the draws, the pass returns permutations, their
inverses, and for every `h` the XOR over the chunks `j` of their row `p j h`. -/
theorem singlePassAnswer_spec (B : Build) (rnd : ℕ → UInt32) {S H n : ℕ} {db : List UInt8}
    (hS : 0 < S) (hH : 0 < H) (hn : 0 < n) (hfit : KernelFits S H n)
    (hdb : db.length = S * H * n) :
    ∃ (p : ℕ → Equiv.Perm (Fin H)) (buf : HintBuffers),
      singlePassAnswer B rnd db (S * H) S n
        ⟨List.replicate (H * n) 0, List.replicate (S * H) 0, List.replicate (S * H) 0⟩ =
          some buf ∧ PassInv S n db S p buf := by
  have hSH : 0 < S * H := Nat.mul_pos hS hH
  have hHn : 0 < H * n := Nat.mul_pos hH hn
  have hne : db ≠ [] := List.ne_nil_of_length_pos (hdb ▸ Nat.mul_pos hSH hn)
  have hstart : PassInv S n db 0 (fun _ => (1 : Equiv.Perm (Fin H)))
      ⟨List.replicate (H * n) 0, List.replicate (S * H) 0, List.replicate (S * H) 0⟩ := by
    refine ⟨by simp, by simp, by simp, by simp, by simp, ?_⟩
    intro h
    rw [Finset.range_zero, Finset.sum_empty, rowAt_replicate_zero]
  obtain ⟨buf, hloop, p, hp⟩ := loop_spec
    (f := singlePassChunk B rnd db H n) (n := S)
    (fun i buf => ∃ p : ℕ → Equiv.Perm (Fin H), PassInv S n db i p buf) ⟨_, hstart⟩ (by
      rintro i hi buf ⟨p, hp⟩
      obtain ⟨p', buf', hb, hp'⟩ := singlePassChunk_spec B rnd hH hfit hdb hi hp
      exact ⟨buf', hb, p', hp'⟩)
  refine ⟨p, buf, ?_, hp⟩
  rw [singlePassAnswer, if_neg (by simp [hne]; omega), cUint_eq hfit.rows_lt,
    cUint_eq (hfit.setSize_lt.trans (by decide)), cUint_eq (hfit.rowLen_lt hH), answerSinglePass,
    if_neg (by omega), intLoop_eq hfit.setSize_lt, Nat.mul_div_cancel_left _ hS]
  exact hloop

end SinglePassPIR.Psetggm
