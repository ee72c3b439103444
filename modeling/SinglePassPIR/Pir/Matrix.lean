import SinglePassPIR.Pir.PuncRuns
import Mathlib.Algebra.BigOperators.Group.Finset.Basic
import Mathlib.Algebra.BigOperators.Group.Finset.Piecewise

/-!
# Matrix PIR

`pir_matrix.go`. The database is laid out as a matrix with `width` rows of the database in each
of its rows, the last of which may be cut short. A server returns the XOR of the matrix rows
that a vector of bits selects; the two vectors of a query differ at one matrix row.

The width is an argument of the definitions, a function of the number and the length of the rows:
the code takes a square root in floating point, and the results hold for every positive width. A
Go `int` that is never negative is a natural number, and `coins i` is draw `i` of the client's
source of randomness. A reply is an `interface{}`, of which the client only asks whether it is a
`*MatrixQueryResp`.

## Main results

* `matBoolVecProduct_spec` — a server returns the XOR of the selected matrix rows, the last one
  padded with zeros.
* `matrix_correct` — a query returns its row, for every width and all coins.
-/

namespace SinglePassPIR.Pir
open Psetggm

/-- `getHeightWidth`, which returns the width first; a width of zero panics. -/
def getHeightWidth (widthOf : ℕ → ℕ → ℕ) (nRows rowLen : ℕ) : Option (ℕ × ℕ) :=
  let width := widthOf nRows rowLen
  if width = 0 then none else some (width, (((nRows : ℤ) - 1).tdiv width + 1).toNat)

/-- The body of the loop of `matBoolVecProduct`. A block that starts past the end of the database
would get a negative length, and panics. -/
def matBoolVecStep (env : Env) (tableWidth : ℕ) (flatDb : List UInt8) (bitVector : List Bool) (j : ℕ)
    (out : List UInt8) : Option (List UInt8) := do
  let bit ← bitVector[j]?
  if bit then
    let start := tableWidth * j
    let length := if flatDb.length ≤ start + tableWidth then flatDb.length - start else tableWidth
    let block ← slice flatDb start (start + length)
    let head ← slice out 0 length
    let head ← xorIntoSlice env head block
    some (head ++ out.drop length)
  else some out

/-- `matBoolVecProduct` -/
def matBoolVecProduct (env : Env) (widthOf : ℕ → ℕ → ℕ) (db : StaticDB) (bitVector : List Bool) :
    Option (List UInt8) := do
  let (width, height) ← getHeightWidth widthOf db.numRows db.rowLen
  let flatDb ← db.slice 0 db.numRows
  loop height (matBoolVecStep env (db.rowLen * width) flatDb bitVector)
    (List.replicate (width * db.rowLen) 0)

/-- `MatrixQueryReq` -/
structure MatrixQueryReq where
  bitVector : List Bool
  deriving DecidableEq, Repr

/-- `MatrixQueryResp` -/
structure MatrixQueryResp where
  answer : List UInt8
  deriving DecidableEq, Repr

/-- `MatrixQueryReq.Process` -/
def MatrixQueryReq.process (env : Env) (widthOf : ℕ → ℕ → ℕ) (req : MatrixQueryReq) (db : StaticDB) :
    Option MatrixQueryResp := do
  let answer ← matBoolVecProduct env widthOf db req.bitVector
  some { answer }

/-- `MatrixHintResp`, the parameters of the database -/
structure MatrixHintResp where
  nRows : ℕ
  rowLen : ℕ
  deriving DecidableEq, Repr

/-- `MatrixHintReq.Process` -/
def matrixHint (db : StaticDB) : MatrixHintResp := { nRows := db.numRows, rowLen := db.rowLen }

/-- `matrixClient` -/
structure MatrixClient where
  nRows : ℕ
  height : ℕ
  width : ℕ
  rowLen : ℕ
  deriving DecidableEq, Repr

/-- `MatrixHintResp.InitClient` -/
def MatrixHintResp.initClient (widthOf : ℕ → ℕ → ℕ) (resp : MatrixHintResp) : Option MatrixClient := do
  let (width, height) ← getHeightWidth widthOf resp.nRows resp.rowLen
  some { nRows := resp.nRows, height, width, rowLen := resp.rowLen }

/-- `matrixClient.Query`: the two requests and the column that its `ReconstructFunc` keeps. -/
def MatrixClient.query (c : MatrixClient) (coins : ℕ → UInt64) (idx : ℕ) :
    MatrixQueryReq × MatrixQueryReq × ℕ :=
  let rowNum := idx / c.width
  let colNum := idx % c.width
  let qL := (List.range c.height).map fun i => decide (coins i &&& 1 = 0)
  let qR := (List.range c.height).map fun i => decide (coins i &&& 1 = 0) != decide (i = rowNum)
  (⟨qL⟩, ⟨qR⟩, colNum)

/-- `matrixClient.reconstruct` -/
def MatrixClient.reconstruct (env : Env) (c : MatrixClient) (colNum : ℕ) (resp : List MatrixQueryResp) :
    Option (List UInt8) := do
  let left ← resp[0]?
  let right ← resp[1]?
  let out ← xorIntoSlice env (List.replicate left.answer.length 0) left.answer
  let out ← xorIntoSlice env out right.answer
  slice out (c.rowLen * colNum) (c.rowLen * (colNum + 1))

/-- A reply, by its dynamic type -/
inductive MatrixReply
  | response (resp : MatrixQueryResp)
  | other (typeName : String)

/-- The loop over the replies of the `ReconstructFunc` of `Query`. -/
def queryResps : List MatrixReply → Except String (List MatrixQueryResp)
  | [] => .ok []
  | .response resp :: resps => do
      let resps ← queryResps resps
      .ok (resp :: resps)
  | .other typeName :: _ =>
      .error ("Invalid response type: " ++ typeName ++ ", expected: MatrixQueryResp")

/-- The `ReconstructFunc` of `Query` -/
def MatrixClient.reconstructFunc (env : Env) (c : MatrixClient) (colNum : ℕ) (resps : List MatrixReply) :
    Option (Except String (List UInt8)) :=
  match queryResps resps with
  | .error e => some (.error e)
  | .ok resps => (c.reconstruct env colNum resps).map .ok

/-! ## The servers -/

variable {n : ℕ} {db : StaticDB} {widthOf : ℕ → ℕ → ℕ}

/-- Row `j` of the matrix, padded with zeros, if its bit is set. -/
def matrixTerm (w : ℕ) (flat : List UInt8) (bitVector : List Bool) (j : ℕ) : Bytes w :=
  if bitVector.getD j false then rowAt w flat j else 0

theorem getHeightWidth_eq {nRows rowLen width : ℕ} (hwidth : widthOf nRows rowLen = width)
    (hpos : 0 < width) (hrows : 0 < nRows) :
    getHeightWidth widthOf nRows rowLen = some (width, (nRows - 1) / width + 1) := by
  have hsub : (nRows : ℤ) - 1 = ((nRows - 1 : ℕ) : ℤ) := by omega
  rw [getHeightWidth, hwidth, if_neg hpos.ne', hsub,
    Int.tdiv_eq_ediv_of_nonneg (Int.natCast_nonneg _), ← Int.natCast_ediv]
  rfl

/-- XORing a block into the front of a buffer. -/
theorem getD_xorHead {x block : List UInt8} (h : block.length ≤ x.length) (k : ℕ) :
    (xorVec (x.take block.length) block ++ x.drop block.length).getD k 0 =
      x.getD k 0 ^^^ block.getD k 0 := by
  have htake : (x.take block.length).length = block.length := by
    rw [List.length_take]
    omega
  rw [getD_append, length_xorVec htake, htake]
  by_cases hk : k < block.length
  · rw [if_pos hk, getD_xorVec htake, getD_take, if_pos hk]
  · rw [if_neg hk, getD_drop, Nat.add_sub_cancel' (Nat.le_of_not_lt hk),
      getD_of_le 0 (Nat.le_of_not_lt hk)]
    simp

/-- XORing a block of the database, which may be cut short, into the output. -/
theorem matBoolVecStep_spec (env : Env) {w : ℕ} {flat : List UInt8} {bitVector : List Bool} {j : ℕ}
    (hj : j < bitVector.length) (hstart : w * j ≤ flat.length) (x : Bytes w) :
    matBoolVecStep env w flat bitVector j x.toList =
      some (x + matrixTerm w flat bitVector j).toList := by
  have hread : bitVector[j]? = some (bitVector.getD j false) := getElem?_eq_some_getD false hj
  rw [matBoolVecStep, hread, Option.bind_eq_bind, Option.bind_some, matrixTerm]
  cases bitVector.getD j false with
  | false => simp
  | true =>
      simp only [if_true]
      generalize hlen : (if flat.length ≤ w * j + w then flat.length - w * j else w) = len
      obtain ⟨hend, hle, hfull⟩ : w * j + len ≤ flat.length ∧ len ≤ w ∧
          (len = w ∨ w * j + len = flat.length) := by
        split_ifs at hlen <;> omega
      obtain ⟨block, hblock, rfl, hcells⟩ := slice_spec 0 hend
      have hx : block.length ≤ x.toList.length := x.length_toList.symm ▸ hle
      have htake : (x.toList.take block.length).length = block.length := List.length_take_of_le hx
      rw [hblock, slice_eq (Nat.zero_le _) hx, List.drop_zero, Nat.sub_zero, Option.bind_eq_bind,
        Option.bind_some, Option.bind_some, xorIntoSlice, if_neg (not_not.mpr htake),
        env.fastxor_eq _ _ htake, Option.bind_some, Option.some.injEq]
      refine ext_getD 0 ?_ fun k hk => ?_
      · rw [List.length_append, length_xorVec htake, htake, List.length_drop,
          Nat.add_sub_cancel' hx, Bytes.length_toList, Bytes.length_toList]
      · rw [List.length_append, length_xorVec htake, htake, List.length_drop,
          Nat.add_sub_cancel' hx, Bytes.length_toList] at hk
        have hblock_get : block.getD k 0 = flat.getD (j * w + k) 0 := by
          rw [Nat.mul_comm j w]
          by_cases hkl : k < block.length
          · exact hcells k hkl
          · -- past the end of the database, where the padding is zero
            rw [getD_of_le 0 (Nat.le_of_not_lt hkl), getD_of_le 0 (by omega)]
        rw [getD_xorHead hx, hblock_get, ← byte_rowAt flat j hk]
        exact (Bytes.byte_add x (rowAt w flat j) hk).symm

/-- Every matrix row starts inside the database. -/
theorem matrixRow_start {width j : ℕ} (hrows : 0 < db.numRows)
    (h : db.WF n) (hj : j < (db.numRows - 1) / width + 1) : n * width * j ≤ db.flatDb.length := by
  have hle : j * width ≤ db.numRows - 1 :=
    (Nat.mul_le_mul_right width (Nat.le_of_lt_succ hj)).trans (Nat.div_mul_le_self _ _)
  calc n * width * j = n * (j * width) := by ring
    _ ≤ n * db.numRows := Nat.mul_le_mul_left n (by omega)
    _ = db.flatDb.length := by rw [h.length_eq, Nat.mul_comm]

/-- **A server returns the XOR of the selected matrix rows.** -/
theorem matBoolVecProduct_spec (env : Env) (h : db.WF n) (hrows : 0 < db.numRows) {width : ℕ}
    (hwidth : widthOf db.numRows db.rowLen = width) (hpos : 0 < width) {bitVector : List Bool}
    (hbits : bitVector.length = (db.numRows - 1) / width + 1) :
    matBoolVecProduct env widthOf db bitVector =
      some (∑ j ∈ Finset.range bitVector.length,
        matrixTerm (n * width) db.flatDb bitVector j).toList := by
  have hall : db.slice 0 db.numRows = some db.flatDb := by
    rw [StaticDB.slice, h.rowLen_eq, Nat.zero_mul, ← h.length_eq,
      slice_eq (Nat.zero_le _) le_rfl, List.drop_zero, Nat.sub_zero, List.take_length]
  rw [matBoolVecProduct, getHeightWidth_eq hwidth hpos hrows, hall, Option.bind_eq_bind,
    Option.bind_some]
  dsimp only
  rw [Option.bind_eq_bind, Option.bind_some, ← hbits, h.rowLen_eq]
  refine loop_eq (fun j => (∑ i ∈ Finset.range j,
    matrixTerm (n * width) db.flatDb bitVector i).toList) ?_ ?_
  · rw [Finset.sum_range_zero, Bytes.toList_zero, Nat.mul_comm]
  · intro j hj
    rw [Finset.sum_range_succ]
    exact matBoolVecStep_spec env hj (matrixRow_start hrows h (hbits ▸ hj)) _

/-! ## The client -/

/-- The two requests select the same matrix rows, except for one. -/
theorem sum_query_terms {w : ℕ} (flat : List UInt8) (c : MatrixClient) (coins : ℕ → UInt64) {idx : ℕ}
    (hrow : idx / c.width < c.height) :
    (∑ j ∈ Finset.range c.height, matrixTerm w flat (c.query coins idx).1.bitVector j) +
      (∑ j ∈ Finset.range c.height, matrixTerm w flat (c.query coins idx).2.1.bitVector j) =
      rowAt w flat (idx / c.width) := by
  have hterm : ∀ j ∈ Finset.range c.height, matrixTerm w flat (c.query coins idx).1.bitVector j +
      matrixTerm w flat (c.query coins idx).2.1.bitVector j =
      if j = idx / c.width then rowAt w flat j else 0 := by
    intro j hj
    have hj' : j < c.height := Finset.mem_range.mp hj
    have hleft : (c.query coins idx).1.bitVector.getD j false = decide (coins j &&& 1 = 0) := by
      simp [MatrixClient.query, List.getD_eq_getElem?_getD, hj']
    have hright : (c.query coins idx).2.1.bitVector.getD j false =
        (decide (coins j &&& 1 = 0) != decide (j = idx / c.width)) := by
      simp [MatrixClient.query, List.getD_eq_getElem?_getD, hj']
    rw [matrixTerm, matrixTerm, hleft, hright]
    cases decide (coins j &&& 1 = 0) <;> by_cases hsel : j = idx / c.width <;> simp [hsel]
  rw [← Finset.sum_add_distrib, Finset.sum_congr rfl hterm, Finset.sum_ite_eq',
    if_pos (Finset.mem_range.mpr hrow)]

/-- The column of a matrix row that the client cuts out. -/
theorem slice_matrixRow {width : ℕ} (hpos : 0 < width) (idx : ℕ) :
    slice (rowAt (n * width) db.flatDb (idx / width)).toList (n * (idx % width))
      (n * (idx % width + 1)) = some (db.get n idx).toList := by
  have hcol : idx % width < width := Nat.mod_lt idx hpos
  have hlen : (rowAt (n * width) db.flatDb (idx / width)).toList.length = width * n := by
    rw [Bytes.length_toList, Nat.mul_comm]
  rw [Nat.mul_comm n (idx % width), Nat.mul_comm n (idx % width + 1), slice_block hlen hcol,
    ← toList_rowAt (hlen ▸ block_end_le hcol), Option.some.injEq]
  refine congrArg Bytes.toList (Bytes.ext fun k hk => ?_)
  have hin : idx % width * n + k < n * width := by
    have hend := Nat.mul_le_mul_right n hcol
    rw [Nat.succ_mul] at hend
    rw [Nat.mul_comm n width]
    omega
  have hcell := byte_rowAt db.flatDb (idx / width) hin
  have hoff : idx / width * (n * width) + (idx % width * n + k) = idx * n + k := by
    calc idx / width * (n * width) + (idx % width * n + k)
        = (width * (idx / width) + idx % width) * n + k := by ring
      _ = idx * n + k := by rw [Nat.div_add_mod]
  rw [hoff] at hcell
  rw [byte_rowAt _ _ hk, StaticDB.get, byte_rowAt _ _ hk]
  exact hcell

/-- What the client makes of two answers. -/
theorem reconstructFunc_eq (env : Env) (c : MatrixClient) (colNum : ℕ) {w : ℕ} (left right : Bytes w) :
    c.reconstructFunc env colNum [.response ⟨left.toList⟩, .response ⟨right.toList⟩] =
      (slice (left + right).toList (c.rowLen * colNum) (c.rowLen * (colNum + 1))).map .ok := by
  have hzero : List.replicate left.toList.length 0 = (0 : Bytes w).toList := by
    rw [Bytes.length_toList, Bytes.toList_zero]
  have hreconstruct : c.reconstruct env colNum [⟨left.toList⟩, ⟨right.toList⟩] =
      slice (left + right).toList (c.rowLen * colNum) (c.rowLen * (colNum + 1)) := by
    rw [MatrixClient.reconstruct]
    simp only [List.getElem?_cons_zero, List.getElem?_cons_succ, Option.bind_eq_bind,
      Option.bind_some]
    rw [hzero, xorIntoSlice_rows, Option.bind_some, zero_add, xorIntoSlice_rows, Option.bind_some]
  rw [← hreconstruct]
  rfl

/-- **Matrix PIR is correct**: for every positive width and all coins of the client, both servers
return an answer of `width` rows, and the client cuts the row it wants out of their XOR. -/
theorem matrix_correct (env : Env) (widthOf : ℕ → ℕ → ℕ) (h : db.WF n) (hrows : 0 < db.numRows)
    (hwidth : 0 < widthOf db.numRows db.rowLen) (coins : ℕ → UInt64) {idx : ℕ}
    (hidx : idx < db.numRows) :
    ∃ c left right row, (matrixHint db).initClient widthOf = some c ∧
      (c.query coins idx).1.process env widthOf db = some left ∧
      (c.query coins idx).2.1.process env widthOf db = some right ∧
      left.answer.length = widthOf db.numRows db.rowLen * db.rowLen ∧
      right.answer.length = widthOf db.numRows db.rowLen * db.rowLen ∧
      db.row idx = some row ∧
      c.reconstructFunc env (c.query coins idx).2.2 [.response left, .response right] =
        some (.ok row) := by
  generalize hw : widthOf db.numRows db.rowLen = width at hwidth ⊢
  have hinit : (matrixHint db).initClient widthOf =
      some ⟨db.numRows, (db.numRows - 1) / width + 1, width, db.rowLen⟩ := by
    rw [MatrixHintResp.initClient, matrixHint, getHeightWidth_eq hw hwidth hrows]
    rfl
  generalize hc : (⟨db.numRows, (db.numRows - 1) / width + 1, width, db.rowLen⟩ : MatrixClient) = c
    at hinit
  obtain ⟨hheight, hcwidth, hrowLen⟩ : c.height = (db.numRows - 1) / width + 1 ∧
      c.width = width ∧ c.rowLen = n := by
    rw [← hc]
    exact ⟨rfl, rfl, h.rowLen_eq⟩
  have hrow : idx / c.width < c.height := by
    rw [hheight, hcwidth]
    exact Nat.lt_succ_of_le (Nat.div_le_div_right (by omega))
  have hleft_len : (c.query coins idx).1.bitVector.length = c.height := by simp [MatrixClient.query]
  have hright_len : (c.query coins idx).2.1.bitVector.length = c.height := by
    simp [MatrixClient.query]
  have hleft := matBoolVecProduct_spec env h hrows hw hwidth (hleft_len.trans hheight)
  have hright := matBoolVecProduct_spec env h hrows hw hwidth (hright_len.trans hheight)
  have hsum := sum_query_terms (w := n * width) db.flatDb c coins hrow
  rw [hleft_len] at hleft
  rw [hright_len] at hright
  generalize (∑ j ∈ Finset.range c.height, matrixTerm (n * width) db.flatDb
    (c.query coins idx).1.bitVector j) = left at hleft hsum
  generalize (∑ j ∈ Finset.range c.height, matrixTerm (n * width) db.flatDb
    (c.query coins idx).2.1.bitVector j) = right at hright hsum
  refine ⟨c, ⟨left.toList⟩, ⟨right.toList⟩, (db.get n idx).toList, hinit, ?_, ?_, ?_, ?_,
    StaticDB.row_eq h hidx, ?_⟩
  · rw [MatrixQueryReq.process, hleft]
    rfl
  · rw [MatrixQueryReq.process, hright]
    rfl
  · rw [Bytes.length_toList, h.rowLen_eq, Nat.mul_comm]
  · rw [Bytes.length_toList, h.rowLen_eq, Nat.mul_comm]
  · have hcol : (c.query coins idx).2.2 = idx % width := by rw [← hcwidth]; rfl
    rw [reconstructFunc_eq, hsum, hcol, hcwidth, hrowLen, slice_matrixRow hwidth]
    rfl

/-- Three rows in a matrix of width two, with the wanted row in the cut one. -/
theorem matrix_correct_three_rows : ∃ c left right row,
    (matrixHint threeRows).initClient (fun _ _ => 2) = some c ∧
      (c.query (fun _ => 1) 2).1.process countingEnv (fun _ _ => 2) threeRows = some left ∧
      (c.query (fun _ => 1) 2).2.1.process countingEnv (fun _ _ => 2) threeRows = some right ∧
      left.answer.length = 2 * 1 ∧ right.answer.length = 2 * 1 ∧
      threeRows.row 2 = some row ∧
      c.reconstructFunc countingEnv (c.query (fun _ => 1) 2).2.2 [.response left, .response right] =
        some (.ok row) :=
  matrix_correct (n := 1) countingEnv (fun _ _ => 2) ⟨rfl, rfl⟩ (by decide) (by decide)
    (fun _ => 1) (by decide)

end SinglePassPIR.Pir
