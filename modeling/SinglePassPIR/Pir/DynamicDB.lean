import SinglePassPIR.Pir.StaticDB
import Mathlib.Data.Nat.Sqrt

/-!
# The dynamic database

`dynamic_db.go`: a static database with a log of the changes made to it. `AppendRows` edits
the rows after the last used one, and makes room for them first.

The content of a row at an earlier version is its current content with the changes logged
since then taken out again; `rowAtVersion` says so, and an edit of rows of the table
changes the content at no earlier version.

## Main results

* `editRows_spec`, `appendRows_spec` — a batch of edits, and of appends that fit, logs one
  operation for each row and leaves every earlier version as it was.
-/

namespace SinglePassPIR.Pir

/-- `UpdateOp` -/
structure UpdateOp where
  index : ℕ
  oldData : List UInt8
  newData : List UInt8
  deriving DecidableEq, Repr

/-- `DynamicDB`, less the unload rate, which nothing reads -/
structure DynamicDB where
  staticDb : StaticDB
  ops : List UpdateOp
  currVersion : ℕ
  opInitVersion : ℕ
  maxOpSize : ℕ
  realSizeDB : ℕ
  extendSize : ℕ
  deriving DecidableEq, Repr

/-- `int(math.Sqrt(float64(n)))`; the float square root of an integer below `2 ^ 52` has
the integer square root as its integral part. -/
def intSqrt (n : ℕ) : ℕ := Nat.sqrt n

/-- `copy` of a row into a fresh row of `m` bytes -/
def copyRow (m : ℕ) (row : List UInt8) : List UInt8 :=
  row.take m ++ List.replicate (m - row.length) 0

namespace DynamicDB

/-- `DynamicDBFromRows` -/
def fromRows (rows : List (List UInt8)) (numRows : ℕ) : Option DynamicDB := do
  let db ← StaticDB.fromRows rows
  if intSqrt db.numRows = 0 then none
  else
    some
      { staticDb := db, ops := [], currVersion := 0, opInitVersion := 0, maxOpSize := 10000
        realSizeDB := numRows, extendSize := numRows / intSqrt db.numRows }

/-- `checkUpdateState`: unloading old operations is not implemented. -/
def checkUpdateState (ddb : DynamicDB) : DynamicDB :=
  if ddb.maxOpSize < ddb.ops.length then ddb else ddb

/-- The body of the loop of `EditRows`; `rowSize` is the length of the batch's first row. -/
def editRow (rowSize : ℕ) (ddb : DynamicDB) (index : ℕ) (row : List UInt8) :
    Option DynamicDB := do
  let oldVal ← ddb.staticDb.row index
  let staticDb ← ddb.staticDb.updateRow index row
  some { ddb with
    ops := ddb.ops ++ [⟨index, copyRow rowSize oldVal, row⟩]
    staticDb }

/-- The loop of `EditRows`. -/
def editLoop (rowSize : ℕ) : List (ℕ × List UInt8) → DynamicDB → Option DynamicDB
  | [], ddb => some ddb
  | (index, row) :: batch, ddb => (ddb.editRow rowSize index row).bind (editLoop rowSize batch)

/-- `EditRows` -/
def editRows (ddb : DynamicDB) (updateIndices : List ℕ) (updatedRows : List (List UInt8)) :
    Option (Except String Unit × DynamicDB) :=
  if updateIndices.length ≠ updatedRows.length then
    some (.error "Input arrays are of different sizes", ddb)
  else do
    let rowSize := (updatedRows.headD []).length
    let ddb ← editLoop rowSize (updateIndices.zip updatedRows) ddb.checkUpdateState
    some (.ok (), { ddb with currVersion := ddb.currVersion + updateIndices.length })

/-- `extendStaticDb` -/
def extendStaticDb (ddb : DynamicDB) : DynamicDB :=
  { ddb with staticDb := ddb.staticDb.extendDb ddb.extendSize }

/-- `makeRangeArray` -/
def makeRangeArray (min max : ℕ) : List ℕ := (List.range (max - min)).map (min + ·)

/-- `AppendRows` -/
def appendRows (ddb : DynamicDB) (newRows : List (List UInt8)) :
    Option (Except String Unit × DynamicDB) := do
  let ddb := ddb.checkUpdateState
  let numAdds := newRows.length
  let ddb := if ddb.staticDb.numRows ≤ ddb.realSizeDB + numAdds then ddb.extendStaticDb else ddb
  let rangeArr := makeRangeArray ddb.realSizeDB (ddb.realSizeDB + numAdds)
  let (err, ddb) ← ddb.editRows rangeArr newRows
  match err with
  | .error e => some (.error e, ddb)
  | .ok () => some (.ok (), { ddb with realSizeDB := ddb.realSizeDB + numAdds })

@[simp] theorem checkUpdateState_eq (ddb : DynamicDB) : ddb.checkUpdateState = ddb := by
  simp [checkUpdateState]

end DynamicDB

/-! ## The rows at earlier versions -/

variable {n : ℕ}

/-- What an operation XORs into row `i`. -/
def UpdateOp.change (n : ℕ) (op : UpdateOp) (i : ℕ) : Bytes n :=
  if op.index = i then rowAt n op.oldData 0 + rowAt n op.newData 0 else 0

/-- What a list of operations XORs into row `i`. -/
def changes (n : ℕ) (ops : List UpdateOp) (i : ℕ) : Bytes n :=
  (ops.map fun op => op.change n i).sum

@[simp] theorem changes_nil (i : ℕ) : changes n [] i = 0 := rfl

theorem changes_cons (op : UpdateOp) (ops : List UpdateOp) (i : ℕ) :
    changes n (op :: ops) i = op.change n i + changes n ops i := by
  simp [changes]

theorem changes_append (ops ops' : List UpdateOp) (i : ℕ) :
    changes n (ops ++ ops') i = changes n ops i + changes n ops' i := by
  simp [changes]

/-- Both rows of an operation have `n` bytes. -/
structure UpdateOp.Fits (n : ℕ) (op : UpdateOp) : Prop where
  oldData_length : op.oldData.length = n
  newData_length : op.newData.length = n

/-- The bytes of a slice of `n` bytes. -/
theorem toList_rowAt_zero {l : List UInt8} (h : l.length = n) : (rowAt n l 0).toList = l := by
  rw [toList_rowAt (by omega), Nat.zero_mul, List.drop_zero, List.take_of_length_le h.le]

theorem rowAt_toList (x : Bytes n) : rowAt n x.toList 0 = x :=
  Bytes.toList_injective (toList_rowAt_zero x.length_toList)

namespace DynamicDB

/-- Row `i` at version `v`: the current row without the changes logged since. -/
def rowAtVersion (n : ℕ) (ddb : DynamicDB) (v i : ℕ) : Bytes n :=
  ddb.staticDb.get n i + changes n (ddb.ops.drop v) i

/-- The table is well formed and the log is complete: nothing has been unloaded, and the
version counts its operations. -/
structure WF (n : ℕ) (ddb : DynamicDB) : Prop where
  static : ddb.staticDb.WF n
  opInitVersion_eq : ddb.opInitVersion = 0
  currVersion_eq : ddb.currVersion = ddb.ops.length
  version_eq : ddb.staticDb.version = ddb.ops.length
  ops_fit : ∀ op ∈ ddb.ops, op.Fits n

/-- `ddb'` is `ddb` after the operations `new`, logged and applied in the table. -/
structure Applied (n : ℕ) (ddb ddb' : DynamicDB) (new : List UpdateOp) : Prop where
  static : ddb'.staticDb.WF n
  numRows_eq : ddb'.staticDb.numRows = ddb.staticDb.numRows
  version_eq : ddb'.staticDb.version = ddb.staticDb.version + new.length
  ops_eq : ddb'.ops = ddb.ops ++ new
  new_fit : ∀ op ∈ new, op.Fits n
  get_eq : ∀ i, ddb'.staticDb.get n i + changes n new i = ddb.staticDb.get n i
  currVersion_eq : ddb'.currVersion = ddb.currVersion
  opInitVersion_eq : ddb'.opInitVersion = ddb.opInitVersion
  realSizeDB_eq : ddb'.realSizeDB = ddb.realSizeDB
  extendSize_eq : ddb'.extendSize = ddb.extendSize

variable {ddb ddb' : DynamicDB}

theorem Applied.refl (h : ddb.staticDb.WF n) : Applied n ddb ddb [] := by
  refine ⟨h, rfl, rfl, (List.append_nil _).symm, ?_, ?_, rfl, rfl, rfl, rfl⟩
  · intro op hop
    exact absurd hop List.not_mem_nil
  · intro i
    rw [changes_nil, add_zero]

theorem Applied.trans {ddb'' : DynamicDB} {new new' : List UpdateOp} (h : Applied n ddb ddb' new)
    (h' : Applied n ddb' ddb'' new') : Applied n ddb ddb'' (new ++ new') := by
  refine ⟨h'.static, h'.numRows_eq.trans h.numRows_eq, ?_, ?_, ?_, ?_,
    h'.currVersion_eq.trans h.currVersion_eq, h'.opInitVersion_eq.trans h.opInitVersion_eq,
    h'.realSizeDB_eq.trans h.realSizeDB_eq, h'.extendSize_eq.trans h.extendSize_eq⟩
  · rw [h'.version_eq, h.version_eq, List.length_append, Nat.add_assoc]
  · rw [h'.ops_eq, h.ops_eq, List.append_assoc]
  · intro op hop
    rcases List.mem_append.mp hop with hop | hop
    · exact h.new_fit op hop
    · exact h'.new_fit op hop
  · intro i
    rw [changes_append, add_comm (changes n new i), ← add_assoc, h'.get_eq, h.get_eq]

/-- **Applying operations leaves the rows of every earlier version as they were.** -/
theorem Applied.rowAtVersion_eq {new : List UpdateOp} (h : Applied n ddb ddb' new) {v : ℕ}
    (hv : v ≤ ddb.ops.length) (i : ℕ) : ddb'.rowAtVersion n v i = ddb.rowAtVersion n v i := by
  rw [rowAtVersion, rowAtVersion, h.ops_eq, List.drop_append_of_le_length hv, changes_append,
    add_comm (changes n _ i), ← add_assoc, h.get_eq]

theorem copyRow_toList (x : Bytes n) : copyRow n x.toList = x.toList := by
  rw [copyRow, List.take_of_length_le x.length_toList.le, x.length_toList, Nat.sub_self,
    List.replicate_zero, List.append_nil]

/-- One edit of a row of the table. -/
theorem editRow_spec (h : ddb.staticDb.WF n) {index : ℕ} (hi : index < ddb.staticDb.numRows)
    (x : Bytes n) : ∃ ddb', ddb.editRow n index x.toList = some ddb' ∧
      Applied n ddb ddb' [⟨index, (ddb.staticDb.get n index).toList, x.toList⟩] := by
  obtain ⟨db', hupd, hwf, hnum, hver, hget⟩ := StaticDB.updateRow_spec h hi x
  refine ⟨{ ddb with
    ops := ddb.ops ++ [⟨index, (ddb.staticDb.get n index).toList, x.toList⟩]
    staticDb := db' }, ?_, hwf, hnum, hver, rfl, ?_, ?_, rfl, rfl, rfl, rfl⟩
  · simp only [editRow, StaticDB.row_eq h hi, hupd, copyRow_toList, Option.bind_eq_bind,
      Option.bind_some]
  · intro op hop
    rw [List.mem_singleton.mp hop]
    exact ⟨Bytes.length_toList _, Bytes.length_toList _⟩
  · intro i
    rw [hget, changes_cons, changes_nil, add_zero, UpdateOp.change]
    by_cases hii : i = index
    · rw [if_pos hii, if_pos hii.symm, rowAt_toList, rowAt_toList, hii, add_left_comm,
        XorGroup.add_self, add_zero]
    · rw [if_neg hii, if_neg (Ne.symm hii), add_zero]

/-- The slices of a batch of edits. -/
def batchRows (batch : List (ℕ × Bytes n)) : List (ℕ × List UInt8) :=
  batch.map fun e => (e.1, e.2.toList)

theorem editLoop_spec (batch : List (ℕ × Bytes n)) (h : ddb.staticDb.WF n)
    (hb : ∀ e ∈ batch, e.1 < ddb.staticDb.numRows) :
    ∃ ddb' new, editLoop n (batchRows batch) ddb = some ddb' ∧ Applied n ddb ddb' new ∧
      new.map UpdateOp.index = batch.map Prod.fst := by
  induction batch generalizing ddb with
  | nil => exact ⟨ddb, [], rfl, Applied.refl h, rfl⟩
  | cons e batch ih =>
      obtain ⟨ddb₁, hedit, happ⟩ := editRow_spec h (hb e List.mem_cons_self) e.2
      obtain ⟨ddb', new, hloop, happ', hidx⟩ := ih happ.static (by
        intro e' he'
        rw [happ.numRows_eq]
        exact hb e' (List.mem_cons_of_mem e he'))
      refine ⟨ddb', _ :: new, ?_, happ.trans happ', ?_⟩
      · simp only [batchRows, List.map_cons, editLoop, hedit, Option.bind_some]
        exact hloop
      · rw [List.map_cons, List.map_cons, hidx]

/-- Edits of the rows of the table keep the database well formed. -/
theorem Applied.wf {new : List UpdateOp} (h : Applied n ddb ddb' new) (hwf : ddb.WF n) :
    WF n { ddb' with currVersion := ddb'.currVersion + new.length } := by
  refine ⟨h.static, h.opInitVersion_eq.trans hwf.opInitVersion_eq, ?_, ?_, ?_⟩
  · change ddb'.currVersion + new.length = ddb'.ops.length
    rw [h.currVersion_eq, hwf.currVersion_eq, h.ops_eq, List.length_append]
  · change ddb'.staticDb.version = ddb'.ops.length
    rw [h.version_eq, hwf.version_eq, h.ops_eq, List.length_append]
  · intro op hop
    change op ∈ ddb'.ops at hop
    rw [h.ops_eq] at hop
    rcases List.mem_append.mp hop with hop | hop
    · exact hwf.ops_fit op hop
    · exact h.new_fit op hop

/-- `ddb'` is `ddb` after the edits of one batch. -/
structure Edited (n : ℕ) (ddb ddb' : DynamicDB) (indices : List ℕ) : Prop where
  wf : ddb'.WF n
  numRows_eq : ddb'.staticDb.numRows = ddb.staticDb.numRows
  realSizeDB_eq : ddb'.realSizeDB = ddb.realSizeDB
  extendSize_eq : ddb'.extendSize = ddb.extendSize
  indices_eq : ddb'.ops.map UpdateOp.index = ddb.ops.map UpdateOp.index ++ indices
  le_length : ddb.ops.length ≤ ddb'.ops.length
  rowAtVersion_eq : ∀ v ≤ ddb.ops.length, ∀ i,
    ddb'.rowAtVersion n v i = ddb.rowAtVersion n v i

/-- **`EditRows`** on rows of the table. -/
theorem editRows_spec (hwf : ddb.WF n) (batch : List (ℕ × Bytes n))
    (hb : ∀ e ∈ batch, e.1 < ddb.staticDb.numRows) :
    ∃ ddb', ddb.editRows (batch.map Prod.fst) (batch.map fun e => e.2.toList) =
        some (.ok (), ddb') ∧ Edited n ddb ddb' (batch.map Prod.fst) := by
  obtain ⟨ddb', new, hloop, happ, hidx⟩ := editLoop_spec batch hwf.static hb
  have hlen : new.length = batch.length := by
    rw [← List.length_map (f := UpdateOp.index), hidx, List.length_map]
  have hzip : (batch.map Prod.fst).zip (batch.map fun e => e.2.toList) = batchRows batch := by
    rw [List.zip_map', batchRows]
  -- the first row gives the length of every old row; an empty batch has none
  have hrow : editLoop ((batch.map fun e => e.2.toList).headD []).length (batchRows batch) ddb =
      some ddb' := by
    cases batch with
    | nil => exact hloop
    | cons e batch => rwa [List.map_cons, List.headD_cons, Bytes.length_toList]
  refine ⟨{ ddb' with currVersion := ddb'.currVersion + new.length }, ?_, happ.wf hwf,
    happ.numRows_eq, happ.realSizeDB_eq, happ.extendSize_eq, ?_, ?_, ?_⟩
  · simp only [editRows, List.length_map, ne_eq, not_true, if_false, checkUpdateState_eq, hzip,
      hrow, hlen, Option.bind_eq_bind, Option.bind_some]
  · rw [← hidx, ← List.map_append, ← happ.ops_eq]
  · change ddb.ops.length ≤ ddb'.ops.length
    rw [happ.ops_eq, List.length_append]
    exact Nat.le_add_right _ _
  · intro v hv i
    exact happ.rowAtVersion_eq hv i

theorem extendStaticDb_wf (hwf : ddb.WF n) : ddb.extendStaticDb.WF n :=
  ⟨StaticDB.extendDb_wf hwf.static _, hwf.opInitVersion_eq, hwf.currVersion_eq, hwf.version_eq,
    hwf.ops_fit⟩

theorem extendStaticDb_rowAtVersion (n v i : ℕ) (ddb : DynamicDB) :
    ddb.extendStaticDb.rowAtVersion n v i = ddb.rowAtVersion n v i := by
  rw [rowAtVersion, rowAtVersion, extendStaticDb, StaticDB.extendDb_get]

/-- The number of rows after `AppendRows` of `b` rows. -/
def appendedNumRows (ddb : DynamicDB) (b : ℕ) : ℕ :=
  if ddb.staticDb.numRows ≤ ddb.realSizeDB + b then ddb.staticDb.numRows + ddb.extendSize
  else ddb.staticDb.numRows

/-- **`AppendRows`** of a batch that fits into the table after the one extension. -/
theorem appendRows_spec (hwf : ddb.WF n) (rows : List (Bytes n))
    (hb : ddb.realSizeDB + rows.length ≤ ddb.appendedNumRows rows.length) :
    ∃ ddb', ddb.appendRows (rows.map Bytes.toList) = some (.ok (), ddb') ∧ ddb'.WF n ∧
      ddb'.staticDb.numRows = ddb.appendedNumRows rows.length ∧
      ddb'.realSizeDB = ddb.realSizeDB + rows.length ∧ ddb'.extendSize = ddb.extendSize ∧
      ddb'.ops.map UpdateOp.index = ddb.ops.map UpdateOp.index ++
        makeRangeArray ddb.realSizeDB (ddb.realSizeDB + rows.length) ∧
      ddb.ops.length ≤ ddb'.ops.length ∧
      ∀ v ≤ ddb.ops.length, ∀ i, ddb'.rowAtVersion n v i = ddb.rowAtVersion n v i := by
  set ddb₁ := if ddb.staticDb.numRows ≤ ddb.realSizeDB + rows.length then ddb.extendStaticDb
    else ddb with hddb₁
  have hcases : ddb₁.WF n ∧ ddb₁.staticDb.numRows = ddb.appendedNumRows rows.length ∧
      ddb₁.realSizeDB = ddb.realSizeDB ∧ ddb₁.extendSize = ddb.extendSize ∧
      ddb₁.ops = ddb.ops ∧ ∀ v i, ddb₁.rowAtVersion n v i = ddb.rowAtVersion n v i := by
    rw [hddb₁, appendedNumRows]
    split
    · exact ⟨extendStaticDb_wf hwf, rfl, rfl, rfl, rfl,
        fun v i => extendStaticDb_rowAtVersion n v i ddb⟩
    · exact ⟨hwf, rfl, rfl, rfl, rfl, fun _ _ => rfl⟩
  obtain ⟨hwf₁, hnum, hreal, hext, hops, hrows⟩ := hcases
  let range := makeRangeArray ddb.realSizeDB (ddb.realSizeDB + rows.length)
  have hlen : range.length = rows.length := by simp [range, makeRangeArray]
  have hfst : (range.zip rows).map Prod.fst = range := List.map_fst_zip hlen.le
  have hsnd : (range.zip rows).map (fun e => e.2.toList) = rows.map Bytes.toList := by
    have hmap := List.map_map (f := Prod.snd) (g := Bytes.toList) (l := range.zip rows)
    rw [List.map_snd_zip hlen.ge] at hmap
    exact hmap.symm
  obtain ⟨ddb', hedit, hed⟩ := editRows_spec hwf₁ (range.zip rows) (by
    intro e he
    have hmem : e.1 ∈ range := by rw [← hfst]; exact List.mem_map_of_mem he
    obtain ⟨k, hk, hke⟩ := List.mem_map.mp hmem
    have := List.mem_range.mp hk
    rw [hnum]; omega)
  rw [hfst, hsnd] at hedit
  rw [hfst] at hed
  refine ⟨{ ddb' with realSizeDB := ddb'.realSizeDB + rows.length }, ?_, ?_,
    hed.numRows_eq.trans hnum, ?_, hed.extendSize_eq.trans hext, ?_, ?_, ?_⟩
  · simp only [appendRows, checkUpdateState_eq, List.length_map, ← hddb₁, hreal,
      Option.bind_eq_bind]
    rw [hedit]
    rfl
  · exact ⟨hed.wf.static, hed.wf.opInitVersion_eq, hed.wf.currVersion_eq, hed.wf.version_eq,
      hed.wf.ops_fit⟩
  · change ddb'.realSizeDB + rows.length = _
    rw [hed.realSizeDB_eq, hreal]
  · rw [← hops]
    exact hed.indices_eq
  · rw [← hops]
    exact hed.le_length
  · intro v hv i
    rw [← hrows v i]
    exact hed.rowAtVersion_eq v (hops ▸ hv) i

/-- `DynamicDBFromRows` -/
theorem fromRows_spec (rows : List (Bytes n)) (hne : rows ≠ []) :
    ∃ ddb, fromRows (rows.map Bytes.toList) rows.length = some ddb ∧ ddb.WF n ∧
      ddb.staticDb.numRows = rows.length ∧ ddb.realSizeDB = rows.length ∧ ddb.ops = [] ∧
      ddb.extendSize = rows.length / intSqrt rows.length ∧
      ∀ i (hi : i < rows.length), ddb.staticDb.get n i = rows[i] := by
  obtain ⟨db, hdb, hwf, hnum, hver, hget⟩ := StaticDB.fromRows_spec rows hne
  have hsqrt : intSqrt db.numRows ≠ 0 := by
    rw [hnum, intSqrt]
    exact (Nat.sqrt_pos.mpr (List.length_pos_of_ne_nil hne)).ne'
  refine ⟨⟨db, [], 0, 0, 10000, rows.length, rows.length / intSqrt db.numRows⟩, ?_,
    ⟨hwf, rfl, rfl, hver, ?_⟩, hnum, rfl, rfl, ?_, hget⟩
  · simp only [fromRows, hdb, hsqrt, if_false, Option.bind_eq_bind, Option.bind_some]
  · intro op hop
    exact absurd hop List.not_mem_nil
  · rw [hnum]

end DynamicDB

end SinglePassPIR.Pir
