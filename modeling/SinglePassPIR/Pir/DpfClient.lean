import SinglePassPIR.Dpf.PointFunction
import SinglePassPIR.Pir.MatVec
import Mathlib.Data.Nat.Log

/-!
# DPF

`pir_dpf.go`. The two requests for a row are the shares of its point function, and a server returns
the XOR of the rows that its share selects. There is no hint: the client keeps the number of rows.

The number of bits of the domain is the logarithm of the number of rows, rounded up; it is exact
here, where the code takes it in floating point. A server's answer comes from `matVecProduct`, with
`addr` as the address of its table.

## Main results

* `DPFQueryReq.process_isSome_iff` — which servers answer.
* `dpf_correct` — a query returns its row, where the kernel sees all rows.
-/

namespace SinglePassPIR.Pir
open Psetggm Dpf

/-- `uint64(math.Ceil(math.Log2(float64(nRows))))` -/
def numBits (nRows : ℕ) : ℕ := Nat.clog 2 nRows

/-- `uint64(i)` of an `int` -/
def uint64 (i : ℤ) : ℕ := (i % 2 ^ 64).toNat

/-- `DPFHintResp`, the parameters of the database -/
structure DPFHintResp where
  nRows : ℕ
  rowLen : ℕ
  deriving DecidableEq, Repr

/-- `DPFHintReq.Process` -/
def dpfHint (db : StaticDB) : DPFHintResp := { nRows := db.numRows, rowLen := db.rowLen }

/-- `dpfClient` -/
structure DpfClient where
  nRows : ℕ
  deriving DecidableEq, Repr

/-- `DPFHintResp.InitClient` -/
def DPFHintResp.initClient (resp : DPFHintResp) : DpfClient := { nRows := resp.nRows }

/-- `DPFQueryReq` -/
structure DPFQueryReq where
  key : DPFkey
  deriving DecidableEq

/-- `DPFQueryResp` -/
structure DPFQueryResp where
  answer : List UInt8
  deriving DecidableEq, Repr

/-- `dpfClient.Query`, with the two blocks that `Gen` draws -/
def DpfClient.query (A : Prf) (draw : Bytes 16 × Bytes 16) (c : DpfClient) (idx : ℤ) :
    Option (DPFQueryReq × DPFQueryReq) := do
  let (qL, qR) ← gen A draw (uint64 idx) (numBits c.nRows)
  some (⟨qL⟩, ⟨qR⟩)

/-- `dpfClient.DummyQuery` -/
def DpfClient.dummyQuery (A : Prf) (draw : Bytes 16 × Bytes 16) (c : DpfClient) :
    Option (DPFQueryReq × DPFQueryReq) := c.query A draw 0

/-- `DPFQueryReq.Process` -/
def DPFQueryReq.process (A : Prf) (env : Env) (addr : ℕ) (req : DPFQueryReq) (db : StaticDB) :
    Option DPFQueryResp := do
  let bitVec ← evalFull A req.key (numBits db.numRows)
  let answer ← matVecProduct env addr db bitVec
  some { answer }

/-- `dpfClient.reconstruct` -/
def dpfReconstruct (env : Env) (left right : DPFQueryResp) : Option (List UInt8) := do
  let out ← xorIntoSlice env (List.replicate left.answer.length 0) left.answer
  xorIntoSlice env out right.answer

/-! ## Requests and answers -/

variable {n : ℕ} {db : StaticDB} {A : Prf}

/-- The table is at an address that the kernel can load from, if the kernel sees any of its rows. -/
def Aligned (env : Env) (addr : ℕ) (db : StaticDB) : Prop :=
  db.rowLen = 32 → db.numRows % 2 ^ 27 = 0 ∨ addr % env.build.lane = 0

/-- The kernel sees all rows, at an address that it can load them from. -/
def SeesAll (env : Env) (addr : ℕ) (db : StaticDB) : Prop :=
  db.rowLen = 32 → db.numRows < 2 ^ 27 ∧ addr % env.build.lane = 0

theorem uint64_natCast {i : ℕ} (h : i < 2 ^ 64) : uint64 i = i := by
  rw [uint64]
  omega

/-- Every row has a bit in the vector. -/
theorem rows_le_bits {bits : List UInt8} {nRows : ℕ}
    (hlen : bits.length = 16 * 2 ^ (numBits nRows - 7)) : nRows ≤ 8 * bits.length := by
  calc nRows ≤ 2 ^ numBits nRows := Nat.le_pow_clog (by decide) nRows
    _ ≤ 2 ^ (7 + (numBits nRows - 7)) := Nat.pow_le_pow_right (by decide) (by omega)
    _ = 8 * bits.length := by rw [hlen, Nat.pow_add, ← Nat.mul_assoc]

/-- A table with rows and a bit for each of them. -/
theorem matVecProduct_isSome_iff (env : Env) (addr : ℕ) (h : db.WF n) (hrows : 0 < db.numRows)
    {bits : List UInt8} (hbits : db.numRows ≤ 8 * bits.length) :
    (∃ out, matVecProduct env addr db bits = some out) ↔ Aligned env addr db := by
  rw [Aligned, h.rowLen_eq]
  by_cases hn : n = 32
  · subst hn
    constructor
    · rintro ⟨out, hout⟩ -
      by_contra hmis
      push Not at hmis
      rw [matVecProduct_of_misaligned env h hrows hbits hmis.1 hmis.2] at hout
      cases hout
    · intro haligned
      exact ⟨_, matVecProduct_fast env h hrows hbits (haligned rfl)⟩
  · exact ⟨fun _ heq => absurd heq hn, fun _ => ⟨_, matVecProduct_slow env addr h hn hbits⟩⟩

/-- The product of all rows. -/
theorem matVecProduct_of_seesAll (env : Env) {addr : ℕ} (h : db.WF n) (hrows : 0 < db.numRows)
    {bits : List UInt8} (hbits : db.numRows ≤ 8 * bits.length) (hsees : SeesAll env addr db) :
    matVecProduct env addr db bits =
      some (∑ j ∈ Finset.range db.numRows, selectedRow n db bits j).toList := by
  rw [SeesAll, h.rowLen_eq] at hsees
  by_cases hn : n = 32
  · subst hn
    obtain ⟨hlt, haligned⟩ := hsees rfl
    rw [matVecProduct_fast env h hrows hbits (Or.inr haligned), Nat.mod_eq_of_lt hlt]
  · exact matVecProduct_slow env addr h hn hbits

/-- A request that `Query` makes for a table with `nRows` rows. -/
def DPFQueryReq.Evaluates (A : Prf) (nRows : ℕ) (req : DPFQueryReq) : Prop :=
  ∃ bits, evalFull A req.key (numBits nRows) = some bits ∧
    bits.length = 16 * 2 ^ (numBits nRows - 7)

/-- **Which servers answer**: those whose table is at an address that the kernel can load from. -/
theorem DPFQueryReq.process_isSome_iff (env : Env) (addr : ℕ) (h : db.WF n)
    (hrows : 0 < db.numRows) {req : DPFQueryReq} (hreq : req.Evaluates A db.numRows) :
    (∃ resp, req.process A env addr db = some resp) ↔ Aligned env addr db := by
  obtain ⟨bits, heval, hlen⟩ := hreq
  rw [← matVecProduct_isSome_iff env addr h hrows (rows_le_bits hlen), DPFQueryReq.process, heval,
    Option.bind_eq_bind, Option.bind_some]
  cases matVecProduct env addr db bits <;> simp

/-- The domain of a table covers its rows. -/
theorem lt_two_pow_numBits {nRows idx : ℕ} (hidx : idx < nRows) : idx < 2 ^ numBits nRows :=
  hidx.trans_le (Nat.le_pow_clog (by decide) nRows)

theorem numBits_le {nRows : ℕ} (h : nRows ≤ 2 ^ 63) : numBits nRows ≤ 63 :=
  Nat.clog_le_of_le_pow h

/-- **A query** for a row of the table. -/
theorem DpfClient.query_spec (draw : Bytes 16 × Bytes 16) {c : DpfClient} {idx : ℕ}
    (hidx : idx < c.nRows) (hrows : c.nRows ≤ 2 ^ 63) :
    ∃ qL qR, c.query A draw idx = some (qL, qR) ∧ qL.Evaluates A c.nRows ∧
      qR.Evaluates A c.nRows := by
  obtain ⟨keyL, keyR, bitsL, bitsR, hgen, hL, hR, hlenL, hlenR, -⟩ :=
    gen_correct (A := A) draw (lt_two_pow_numBits hidx) (numBits_le hrows)
  refine ⟨⟨keyL⟩, ⟨keyR⟩, ?_, ⟨bitsL, hL, hlenL⟩, ⟨bitsR, hR, hlenR⟩⟩
  rw [DpfClient.query, uint64_natCast (by omega), hgen]
  rfl

/-! ## Reads -/

theorem selects_iff_testBit (bits : List UInt8) (j : ℕ) :
    Selects bits j ↔ (bits.getD (j / 8) 0).toNat.testBit (j % 8) = true := by
  rw [Selects, Nat.testBit, Nat.and_comm]
  simp

/-- The byte with one bit. -/
theorem testBit_oneBit {a k : ℕ} (ha : a < 8) (hk : k < 8) :
    ((1 : UInt8) <<< UInt8.ofNat a).toNat.testBit k = decide (k = a) := by
  have hall : ∀ a < 8, ∀ k < 8,
      ((1 : UInt8) <<< UInt8.ofNat a).toNat.testBit k = decide (k = a) := by decide
  exact hall a ha k hk

/-- The bits of two vectors whose blocks differ in the block of `alpha`. -/
theorem selects_xor {bitsL bitsR : List UInt8} {alpha m : ℕ}
    (hsum : ∀ x < m, rowAt 16 bitsL x + rowAt 16 bitsR x =
      if x = alpha / 128 then pointBlock (alpha % 128) else 0) {j : ℕ} (hj : j < 128 * m) :
    (decide (Selects bitsL j) ^^ decide (Selects bitsR j)) = decide (j = alpha) := by
  have hk : j / 8 % 16 < 16 := Nat.mod_lt _ (by decide)
  have hbyte := congrArg (fun b : Bytes 16 => b.byte (j / 8 % 16)) (hsum (j / 128) (by omega))
  rw [Bytes.byte_add _ _ hk, byte_rowAt _ _ hk, byte_rowAt _ _ hk,
    show j / 128 * 16 + j / 8 % 16 = j / 8 by omega] at hbyte
  have hbit := congrArg (fun b : UInt8 => b.toNat.testBit (j % 8)) hbyte
  rw [UInt8.toNat_xor, Nat.testBit_xor] at hbit
  simp only [selects_iff_testBit, Bool.decide_eq_true]
  rw [hbit]
  by_cases hblock : j / 128 = alpha / 128
  · rw [if_pos hblock, pointBlock, Bytes.byte_ofFn _ hk]
    by_cases hcell : j / 8 % 16 = alpha % 128 / 8
    · rw [if_pos hcell, testBit_oneBit (Nat.mod_lt _ (by decide)) (Nat.mod_lt _ (by decide))]
      exact decide_eq_decide.mpr (by omega)
    · have hne : j ≠ alpha := by omega
      rw [if_neg hcell]
      simp [hne]
  · have hne : j ≠ alpha := by
      rintro rfl
      exact hblock rfl
    rw [if_neg hblock, Bytes.byte_zero hk]
    simp [hne]

/-- What the shares select between them. -/
theorem selectedRow_add {bitsL bitsR : List UInt8} {j : ℕ} :
    selectedRow n db bitsL j + selectedRow n db bitsR j =
      if decide (Selects bitsL j) ^^ decide (Selects bitsR j) then rowAt n db.flatDb j else 0 := by
  rw [selectedRow, selectedRow, selectedHash, selectedHash]
  by_cases hL : Selects bitsL j <;> by_cases hR : Selects bitsR j <;> simp [hL, hR]

/-- **DPF is correct** where both kernels see all rows: the servers answer, and the client gets the
row. -/
theorem dpf_correct (A : Prf) (env envL envR : Env) {addrL addrR : ℕ} (h : db.WF n)
    (hsize : db.numRows ≤ 2 ^ 63) (hL : SeesAll envL addrL db) (hR : SeesAll envR addrR db)
    (draw : Bytes 16 × Bytes 16) {idx : ℕ} (hidx : idx < db.numRows) :
    ∃ qL qR left right row, (dpfHint db).initClient.query A draw idx = some (qL, qR) ∧
      qL.process A envL addrL db = some left ∧ qR.process A envR addrR db = some right ∧
      db.row idx = some row ∧ dpfReconstruct env left right = some row := by
  have hrows : 0 < db.numRows := Nat.zero_lt_of_lt hidx
  obtain ⟨keyL, keyR, bitsL, bitsR, hgen, hevalL, hevalR, hlenL, hlenR, hsum⟩ :=
    gen_correct (A := A) draw (lt_two_pow_numBits hidx) (numBits_le hsize)
  have hansL := matVecProduct_of_seesAll envL h hrows (rows_le_bits hlenL) hL
  have hansR := matVecProduct_of_seesAll envR h hrows (rows_le_bits hlenR) hR
  have hcover : db.numRows ≤ 128 * 2 ^ (numBits db.numRows - 7) := by
    have hle := rows_le_bits hlenL
    omega
  have hrow : ∑ j ∈ Finset.range db.numRows, selectedRow n db bitsL j +
      ∑ j ∈ Finset.range db.numRows, selectedRow n db bitsR j = db.get n idx := by
    have hterm : ∀ j ∈ Finset.range db.numRows, selectedRow n db bitsL j +
        selectedRow n db bitsR j = if j = idx then rowAt n db.flatDb j else 0 := by
      intro j hj
      rw [selectedRow_add, selects_xor hsum ((Finset.mem_range.mp hj).trans_le hcover)]
      simp
    rw [← Finset.sum_add_distrib, Finset.sum_congr rfl hterm, Finset.sum_ite_eq',
      if_pos (Finset.mem_range.mpr hidx)]
    rfl
  generalize ∑ j ∈ Finset.range db.numRows, selectedRow n db bitsL j = left at hansL hrow
  generalize ∑ j ∈ Finset.range db.numRows, selectedRow n db bitsR j = right at hansR hrow
  refine ⟨⟨keyL⟩, ⟨keyR⟩, ⟨left.toList⟩, ⟨right.toList⟩, (db.get n idx).toList, ?_, ?_, ?_,
    StaticDB.row_eq h hidx, ?_⟩
  · rw [DpfClient.query, uint64_natCast (by omega)]
    simp only [DPFHintResp.initClient, dpfHint, hgen, Option.bind_eq_bind, Option.bind_some]
  · rw [DPFQueryReq.process]
    simp only [hevalL, hansL, Option.bind_eq_bind, Option.bind_some]
  · rw [DPFQueryReq.process]
    simp only [hevalR, hansR, Option.bind_eq_bind, Option.bind_some]
  · have hzero : List.replicate left.toList.length 0 = (0 : Bytes n).toList := by
      rw [Bytes.length_toList, Bytes.toList_zero]
    rw [dpfReconstruct]
    dsimp only
    rw [hzero, xorIntoSlice_rows, Option.bind_eq_bind, Option.bind_some, zero_add,
      xorIntoSlice_rows, hrow]

end SinglePassPIR.Pir
