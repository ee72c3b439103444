import SinglePassPIR.Lib.Run
import SinglePassPIR.Pir.DynamicDB

/-!
# The operation log of the dynamic database

Three counters follow the edits of a table: the log, `currVersion`, which counts the rows of the
batches, and the version of the static table, which counts the rows written. The log says what
the table holds as long as every edited row is in the table; `EditRows` logs and counts the
others too.

## Main results

* `editRows_table` — what `EditRows` does, for any indices.
* `opLog_agrees_iff` — along every run, the log, the versions and the table agree exactly as
  long as every edit has been accepted.
-/

namespace SinglePassPIR.Pir

/-- The rows after `ops`. -/
def applyOps (rows : List (List UInt8)) (ops : List UpdateOp) : List (List UInt8) :=
  ops.foldl (fun rows op => rows.set op.index op.newData) rows

/-- Rows of `n` bytes, extended by zero rows to `m` rows. -/
def extendRows (n m : ℕ) (rows : List (List UInt8)) : List (List UInt8) :=
  rows ++ List.replicate (m - rows.length) (List.replicate n 0)

theorem applyOps_append (rows : List (List UInt8)) (ops ops' : List UpdateOp) :
    applyOps rows (ops ++ ops') = applyOps (applyOps rows ops) ops' := List.foldl_append

theorem applyOps_cons (rows : List (List UInt8)) (op : UpdateOp) (ops : List UpdateOp) :
    applyOps rows (op :: ops) = applyOps (rows.set op.index op.newData) ops := rfl

@[simp] theorem length_applyOps (rows : List (List UInt8)) (ops : List UpdateOp) :
    (applyOps rows ops).length = rows.length := by
  induction ops generalizing rows with
  | nil => rfl
  | cons op ops ih => rw [applyOps_cons, ih, List.length_set]

/-- Operations on the rows of a table do not touch the rows behind it. -/
theorem applyOps_append_left {rows rest : List (List UInt8)} {ops : List UpdateOp}
    (h : ∀ op ∈ ops, op.index < rows.length) :
    applyOps (rows ++ rest) ops = applyOps rows ops ++ rest := by
  induction ops generalizing rows with
  | nil => rfl
  | cons op ops ih =>
      rw [applyOps_cons, applyOps_cons, List.set_append_left _ _ (h op List.mem_cons_self), ih]
      intro o ho
      rw [List.length_set]
      exact h o (List.mem_cons_of_mem op ho)

/-- The old data of every operation is the row just before it. -/
def OldDataMatches : List (List UInt8) → List UpdateOp → Prop
  | _, [] => True
  | rows, op :: ops =>
      rows[op.index]? = some op.oldData ∧ OldDataMatches (rows.set op.index op.newData) ops

theorem oldDataMatches_append {rows : List (List UInt8)} {ops ops' : List UpdateOp} :
    OldDataMatches rows (ops ++ ops') ↔
      OldDataMatches rows ops ∧ OldDataMatches (applyOps rows ops) ops' := by
  induction ops generalizing rows with
  | nil => simp [OldDataMatches, applyOps]
  | cons op ops ih => rw [List.cons_append, OldDataMatches, OldDataMatches, ih, applyOps_cons, and_assoc]

/-- Operations with matching old data are ones on rows of the table. -/
theorem OldDataMatches.index_lt {rows : List (List UInt8)} {ops : List UpdateOp}
    (h : OldDataMatches rows ops) : ∀ op ∈ ops, op.index < rows.length := by
  induction ops generalizing rows with
  | nil => simp
  | cons op ops ih =>
      intro o ho
      cases List.mem_cons.mp ho with
      | inl heq =>
          rw [heq]
          exact (List.getElem?_eq_some_iff.mp h.1).1
      | inr hrest => simpa using ih h.2 o hrest

theorem OldDataMatches.append_rows {rows : List (List UInt8)} {ops : List UpdateOp}
    (h : OldDataMatches rows ops) (rest : List (List UInt8)) : OldDataMatches (rows ++ rest) ops := by
  induction ops generalizing rows with
  | nil => trivial
  | cons op ops ih =>
      have hi := (List.getElem?_eq_some_iff.mp h.1).1
      rw [OldDataMatches, List.getElem?_append_left hi, List.set_append_left _ _ hi]
      exact ⟨h.1, ih h.2⟩

namespace StaticDB

/-- The table holds `rows`, all of `n` bytes. -/
structure Table (n : ℕ) (rows : List (List UInt8)) (db : StaticDB) : Prop where
  rowLen_eq : db.rowLen = n
  numRows_eq : db.numRows = rows.length
  flatDb_eq : db.flatDb = rows.flatten
  length_eq : ∀ row ∈ rows, row.length = n

variable {n : ℕ} {rows : List (List UInt8)} {db : StaticDB}

theorem Table.wf (h : db.Table n rows) : db.WF n :=
  ⟨h.rowLen_eq, by rw [h.flatDb_eq, length_flatten_of_forall h.length_eq, h.numRows_eq]⟩

/-- Row `i` of a table. -/
theorem Table.row_eq (h : db.Table n rows) (i : ℕ) : db.row i = some (rows.getD i []) := by
  rw [row, h.numRows_eq]
  split_ifs with hi
  · rw [getD_of_le [] hi]
  · have hlt : i < rows.length := Nat.lt_of_not_le hi
    rw [slice, h.rowLen_eq, h.flatDb_eq, slice_flatten h.length_eq hlt]
    simp [hlt]

theorem Table.get_eq (h : db.Table n rows) {i : ℕ} (hi : i < rows.length) :
    (db.get n i).toList = rows[i] := by
  have hrow := h.row_eq i
  rw [StaticDB.row_eq h.wf (h.numRows_eq ▸ hi), Option.some.injEq] at hrow
  simpa [hi] using hrow

/-- **`UpdateRow`** on any index. -/
theorem Table.updateRow (h : db.Table n rows) (index : ℕ) {row : List UInt8} (hrow : row.length = n) :
    ∃ db', db.updateRow index row = some db' ∧ db'.Table n (rows.set index row) ∧
      db'.version = db.version + if index < rows.length then 1 else 0 := by
  by_cases hi : index < rows.length
  · obtain ⟨db', hupd, hwf, hnum, hver, hget⟩ :=
      updateRow_spec h.wf (h.numRows_eq ▸ hi) (rowAt n row 0)
    rw [toList_rowAt_zero hrow] at hupd
    have hlen : ∀ r ∈ rows.set index row, r.length = n := by
      intro r hr
      cases List.mem_or_eq_of_mem_set hr with
      | inl hold => exact h.length_eq r hold
      | inr hnew => rwa [hnew]
    refine ⟨db', hupd, ⟨hwf.rowLen_eq, ?_, ?_, hlen⟩, by rw [hver, if_pos hi]⟩
    · rw [hnum, h.numRows_eq, List.length_set]
    · have hflat : db'.flatDb.length = (rows.set index row).length * n := by
        rw [hwf.length_eq, hnum, h.numRows_eq, List.length_set]
      refine eq_flatten hflat fun i hi' => ?_
      have hlt : i < rows.length := by simpa using hi'
      have hbound : i * n + n ≤ db'.flatDb.length := hflat ▸ block_end_le hi'
      rw [← toList_rowAt hbound, ← get, hget, List.getElem_set]
      by_cases hii : i = index
      · rw [if_pos hii, if_pos hii.symm, toList_rowAt_zero hrow]
      · rw [if_neg hii, if_neg (Ne.symm hii), h.get_eq hlt]
  · rw [updateRow_of_le (h.numRows_eq ▸ Nat.le_of_not_lt hi), List.set_eq_of_length_le
      (Nat.le_of_not_lt hi), if_neg hi]
    exact ⟨db, rfl, h, rfl⟩

/-- `ExtendDb` adds zero rows. -/
theorem Table.extendDb (h : db.Table n rows) (m : ℕ) :
    (db.extendDb m).Table n (rows ++ List.replicate m (List.replicate n 0)) where
  rowLen_eq := h.rowLen_eq
  numRows_eq := by rw [extendDb_numRows, h.numRows_eq, List.length_append, List.length_replicate]
  flatDb_eq := by
    rw [StaticDB.extendDb, h.rowLen_eq, h.flatDb_eq, List.flatten_append, List.flatten_replicate_replicate]
  length_eq := by
    intro row hrow
    cases List.mem_append.mp hrow with
    | inl hold => exact h.length_eq row hold
    | inr hnew => rw [(List.mem_replicate.mp hnew).2, List.length_replicate]

end StaticDB

namespace DynamicDB
variable {n : ℕ} {rows : List (List UInt8)} {ddb ddb' : DynamicDB}

/-- `ddb'` is `ddb` after the operations `new` have been logged, and applied where the table has
the row. -/
structure Batch (n : ℕ) (rows : List (List UInt8)) (ddb ddb' : DynamicDB) (new : List UpdateOp) :
    Prop where
  table : ddb'.staticDb.Table n (applyOps rows new)
  version_eq : ddb'.staticDb.version =
    ddb.staticDb.version + (new.filter (UpdateOp.index · < rows.length)).length
  ops_eq : ddb'.ops = ddb.ops ++ new
  currVersion_eq : ddb'.currVersion = ddb.currVersion
  opInitVersion_eq : ddb'.opInitVersion = ddb.opInitVersion
  oldData_eq : (∀ op ∈ new, op.index < rows.length) → OldDataMatches rows new
  realSizeDB_eq : ddb'.realSizeDB = ddb.realSizeDB
  extendSize_eq : ddb'.extendSize = ddb.extendSize

/-- One edit. -/
theorem editRow_batch (h : ddb.staticDb.Table n rows) (index : ℕ) {row : List UInt8}
    (hrow : row.length = n) : ∃ ddb' oldData, ddb.editRow n index row = some ddb' ∧
      Batch n rows ddb ddb' [⟨index, oldData, row⟩] := by
  obtain ⟨db', hupd, htable, hver⟩ := h.updateRow index hrow
  refine ⟨{ ddb with ops := ddb.ops ++ [⟨index, copyRow n (rows.getD index []), row⟩], staticDb := db' },
    copyRow n (rows.getD index []), by simp [editRow, h.row_eq, hupd], htable, ?_, rfl, rfl, rfl, ?_,
    rfl, rfl⟩
  · rw [hver]
    by_cases hi : index < rows.length <;> simp [hi]
  · intro hall
    have hi : index < rows.length := hall _ List.mem_cons_self
    have hlen : (rows.getD index []).length = n := by
      simpa [hi] using h.length_eq _ (List.getElem_mem hi)
    refine ⟨?_, trivial⟩
    rw [copyRow, List.take_of_length_le hlen.le, hlen, Nat.sub_self, List.replicate_zero,
      List.append_nil]
    exact getElem?_eq_some_getD [] hi

theorem Batch.cons {ddb₁ : DynamicDB} {op : UpdateOp} {new : List UpdateOp}
    (h : Batch n rows ddb ddb₁ [op]) (h' : Batch n (applyOps rows [op]) ddb₁ ddb' new) :
    Batch n rows ddb ddb' (op :: new) where
  table := h'.table
  version_eq := by
    have hver := h'.version_eq
    rw [length_applyOps, h.version_eq] at hver
    have hcons : op :: new = [op] ++ new := rfl
    rw [hver, hcons, List.filter_append, List.length_append, Nat.add_assoc]
  ops_eq := by rw [h'.ops_eq, h.ops_eq, List.append_assoc, List.singleton_append]
  currVersion_eq := h'.currVersion_eq.trans h.currVersion_eq
  opInitVersion_eq := h'.opInitVersion_eq.trans h.opInitVersion_eq
  oldData_eq := by
    intro hall
    refine ⟨(h.oldData_eq fun o ho => ?_).1, h'.oldData_eq fun o ho => ?_⟩
    · exact hall o (by rw [List.mem_singleton.mp ho]; exact List.mem_cons_self)
    · rw [length_applyOps]
      exact hall o (List.mem_cons_of_mem op ho)
  realSizeDB_eq := h'.realSizeDB_eq.trans h.realSizeDB_eq
  extendSize_eq := h'.extendSize_eq.trans h.extendSize_eq

theorem editLoop_batch (batch : List (ℕ × List UInt8)) (h : ddb.staticDb.Table n rows)
    (hrows : ∀ e ∈ batch, e.2.length = n) :
    ∃ ddb' new, editLoop n batch ddb = some ddb' ∧ Batch n rows ddb ddb' new ∧
      new.map UpdateOp.index = batch.map Prod.fst := by
  induction batch generalizing ddb rows with
  | nil =>
      exact ⟨ddb, [], rfl, ⟨h, rfl, (List.append_nil _).symm, rfl, rfl, fun _ => trivial, rfl, rfl⟩, rfl⟩
  | cons e batch ih =>
      obtain ⟨ddb₁, oldData, hedit, hone⟩ := editRow_batch h e.1 (hrows e List.mem_cons_self)
      obtain ⟨ddb', new, hloop, hrest, hidx⟩ :=
        ih hone.table fun e' he' => hrows e' (List.mem_cons_of_mem e he')
      refine ⟨ddb', _ :: new, ?_, hone.cons hrest, by rw [List.map_cons, List.map_cons, hidx]⟩
      rw [editLoop, hedit, Option.bind_some, hloop]

/-- **`EditRows`** on any indices: every edit is logged and counted, and the table is changed
where it has the row. -/
theorem editRows_batch (h : ddb.staticDb.Table n rows) {indices : List ℕ} {updated : List (List UInt8)}
    (hlen : indices.length = updated.length) (hrows : ∀ row ∈ updated, row.length = n) :
    ∃ ddb' new, ddb.editRows indices updated =
        some (.ok (), { ddb' with currVersion := ddb.currVersion + new.length }) ∧
      Batch n rows ddb ddb' new ∧ new.map UpdateOp.index = indices := by
  obtain ⟨ddb', new, hloop, hbatch, hidx⟩ := editLoop_batch (indices.zip updated) h fun e he =>
    hrows e.2 (List.of_mem_zip he).2
  rw [List.map_fst_zip hlen.le] at hidx
  refine ⟨ddb', new, ?_, hbatch, hidx⟩
  have hnew : new.length = indices.length := by rw [← hidx, List.length_map]
  -- the first row gives the length of every old row; an empty batch has none
  have hrow : editLoop (updated.headD []).length (indices.zip updated) ddb = some ddb' := by
    cases updated with
    | nil =>
        rw [List.zip_nil_right] at hloop ⊢
        exact hloop
    | cons row updated => rwa [List.headD_cons, hrows row List.mem_cons_self]
  rw [editRows, if_neg (not_not.mpr hlen), checkUpdateState_eq]
  dsimp only
  rw [hrow, hnew, Option.bind_eq_bind, Option.bind_some, hbatch.currVersion_eq]

/-! ## Runs -/

/-- A change of the table. -/
inductive Change
  | edit (indices : List ℕ) (rows : List (List UInt8))
  | append (rows : List (List UInt8))
  deriving DecidableEq, Repr

/-- One change. -/
def change (ddb : DynamicDB) : Change → Option (Except String Unit × DynamicDB)
  | .edit indices rows => ddb.editRows indices rows
  | .append rows => ddb.appendRows rows

/-- As many rows as indices, of `n` bytes. -/
def Change.Valid (n : ℕ) : Change → Prop
  | .edit indices rows => indices.length = rows.length ∧ ∀ row ∈ rows, row.length = n
  | .append rows => ∀ row ∈ rows, row.length = n

/-- The table has every row that the change writes, after the extension that `AppendRows` makes. -/
def Accepts (ddb : DynamicDB) : Change → Prop
  | .edit indices _ => ∀ i ∈ indices, i < ddb.staticDb.numRows
  | .append rows => rows = [] ∨ ddb.realSizeDB + rows.length ≤ ddb.appendedNumRows rows.length

instance (ddb : DynamicDB) (a : Change) : Decidable (ddb.Accepts a) := by
  cases a with
  | edit indices rows => exact inferInstanceAs (Decidable (∀ i ∈ indices, i < ddb.staticDb.numRows))
  | append rows => exact inferInstanceAs (Decidable (rows = [] ∨
      ddb.realSizeDB + rows.length ≤ ddb.appendedNumRows rows.length))

/-- The log, the versions and the table of a database that started with the rows `initial` of `n`
bytes agree. -/
structure Agrees (n : ℕ) (initial : List (List UInt8)) (ddb : DynamicDB) : Prop where
  version_eq : ddb.staticDb.version = ddb.currVersion
  currVersion_eq : ddb.currVersion = ddb.opInitVersion + ddb.ops.length
  flatDb_eq : ddb.staticDb.flatDb =
    (applyOps (extendRows n ddb.staticDb.numRows initial) ddb.ops).flatten
  oldData_eq : OldDataMatches (extendRows n ddb.staticDb.numRows initial) ddb.ops

/-- The table of a database holds `rows`: those of the log if every change so far has been
`accepted`; if not, the static table has fallen behind. -/
structure Following (n : ℕ) (initial rows : List (List UInt8)) (ddb : DynamicDB) (accepted : Bool) :
    Prop where
  table : ddb.staticDb.Table n rows
  initial_le : initial.length ≤ rows.length
  currVersion_eq : ddb.currVersion = ddb.opInitVersion + ddb.ops.length
  agrees : accepted = true → ddb.staticDb.version = ddb.currVersion ∧
    rows = applyOps (extendRows n rows.length initial) ddb.ops ∧
    OldDataMatches (extendRows n rows.length initial) ddb.ops
  behind : accepted = false → ddb.staticDb.version < ddb.currVersion

theorem Following.agrees_iff {initial : List (List UInt8)} {accepted : Bool}
    (h : ddb.Following n initial rows accepted) : ddb.Agrees n initial ↔ accepted = true := by
  constructor
  · intro hagrees
    cases haccepted : accepted with
    | true => rfl
    | false => exact absurd hagrees.version_eq (Nat.ne_of_lt (h.behind haccepted))
  · intro haccepted
    obtain ⟨hver, hrows, hold⟩ := h.agrees haccepted
    refine ⟨hver, h.currVersion_eq, ?_, ?_⟩
    · rw [h.table.flatDb_eq, h.table.numRows_eq, ← hrows]
    · rw [h.table.numRows_eq]
      exact hold

/-- A batch of edits. -/
theorem Following.edit {initial : List (List UInt8)} {accepted : Bool}
    (h : ddb.Following n initial rows accepted) {new : List UpdateOp} (hbatch : Batch n rows ddb ddb' new) :
    Following n initial (applyOps rows new) { ddb' with currVersion := ddb.currVersion + new.length }
      (accepted && decide (∀ op ∈ new, op.index < rows.length)) := by
  have hver := hbatch.version_eq
  have hle : (new.filter (UpdateOp.index · < rows.length)).length ≤ new.length :=
    List.length_filter_le ..
  constructor
  · exact hbatch.table
  · rw [length_applyOps]
    exact h.initial_le
  · dsimp only
    rw [hbatch.ops_eq, hbatch.opInitVersion_eq, h.currVersion_eq, List.length_append, Nat.add_assoc]
  · intro hboth
    rw [Bool.and_eq_true, decide_eq_true_eq] at hboth
    obtain ⟨hold, hrows, hmatch⟩ := h.agrees hboth.1
    rw [length_applyOps, hbatch.ops_eq, applyOps_append, ← hrows]
    refine ⟨?_, rfl, oldDataMatches_append.mpr ⟨hmatch, hrows ▸ hbatch.oldData_eq hboth.2⟩⟩
    rw [hver, hold, List.filter_eq_self.mpr fun op hop => by simpa using hboth.2 op hop]
  · intro hfail
    dsimp only
    rw [hver]
    cases haccepted : accepted with
    | false =>
        have hlt := h.behind haccepted
        omega
    | true =>
        obtain ⟨hold, -⟩ := h.agrees haccepted
        rw [haccepted, Bool.true_and, decide_eq_false_iff_not] at hfail
        push Not at hfail
        obtain ⟨op, hop, hout⟩ := hfail
        have hlt : (new.filter (UpdateOp.index · < rows.length)).length < new.length :=
          List.length_filter_lt_length_iff_exists.mpr ⟨op, hop, by simpa using hout⟩
        omega

/-- The extension of the table. -/
theorem Following.extend {initial : List (List UInt8)} {accepted : Bool}
    (h : ddb.Following n initial rows accepted) :
    ddb.extendStaticDb.Following n initial
      (rows ++ List.replicate ddb.extendSize (List.replicate n 0)) accepted := by
  have hle := h.initial_le
  constructor
  · exact h.table.extendDb ddb.extendSize
  · rw [List.length_append]
    exact Nat.le_add_right_of_le hle
  · exact h.currVersion_eq
  · intro haccepted
    obtain ⟨hver, hrows, hmatch⟩ := h.agrees haccepted
    have hext : extendRows n (rows.length + ddb.extendSize) initial =
        extendRows n rows.length initial ++ List.replicate ddb.extendSize (List.replicate n 0) := by
      rw [extendRows, extendRows, List.append_assoc, List.replicate_append_replicate]
      refine congrArg (initial ++ List.replicate · _) ?_
      omega
    rw [List.length_append, List.length_replicate, hext]
    refine ⟨hver, ?_, hmatch.append_rows _⟩
    exact (congrArg (· ++ _) hrows).trans (applyOps_append_left hmatch.index_lt).symm
  · exact h.behind

/-- The rows behind the last used one are all in the table. -/
theorem makeRangeArray_lt_iff (min k m : ℕ) :
    (∀ i ∈ makeRangeArray min (min + k), i < m) ↔ k = 0 ∨ min + k ≤ m := by
  rw [makeRangeArray, Nat.add_sub_cancel_left, List.forall_mem_map]
  constructor
  · intro h
    by_cases hk : k = 0
    · exact Or.inl hk
    · have hlast := h (k - 1) (List.mem_range.mpr (by omega))
      omega
  · intro h i hi
    have := List.mem_range.mp hi
    omega

/-- **One change**: it is always carried out, and the table stays in step with the log if and only
if it is accepted. -/
theorem Following.change {initial : List (List UInt8)} {accepted : Bool}
    (h : ddb.Following n initial rows accepted) {a : Change} (hvalid : a.Valid n) :
    ∃ ddb' rows', ddb.change a = some (.ok (), ddb') ∧
      ddb'.Following n initial rows' (accepted && decide (ddb.Accepts a)) := by
  cases a with
  | edit indices updated =>
      obtain ⟨ddb', new, hedit, hbatch, hidx⟩ := editRows_batch h.table hvalid.1 hvalid.2
      refine ⟨_, applyOps rows new, hedit, ?_⟩
      have hiff : ddb.Accepts (.edit indices updated) ↔ ∀ op ∈ new, op.index < rows.length := by
        rw [Accepts, ← hidx, h.table.numRows_eq, List.forall_mem_map]
      rw [decide_eq_decide.mpr hiff]
      exact h.edit hbatch
  | append updated =>
      set ddb₁ := if ddb.staticDb.numRows ≤ ddb.realSizeDB + updated.length then ddb.extendStaticDb
        else ddb with hddb₁
      obtain ⟨rows₁, h₁, hlen, hreal⟩ : ∃ rows₁, ddb₁.Following n initial rows₁ accepted ∧
          rows₁.length = ddb.appendedNumRows updated.length ∧ ddb₁.realSizeDB = ddb.realSizeDB := by
        rw [hddb₁, appendedNumRows, h.table.numRows_eq]
        split_ifs
        · exact ⟨_, h.extend, by rw [List.length_append, List.length_replicate], rfl⟩
        · exact ⟨rows, h, rfl, rfl⟩
      have hrange : (makeRangeArray ddb.realSizeDB (ddb.realSizeDB + updated.length)).length =
          updated.length := by
        rw [makeRangeArray, List.length_map, List.length_range, Nat.add_sub_cancel_left]
      obtain ⟨ddb', new, hedit, hbatch, hidx⟩ := editRows_batch h₁.table hrange hvalid
      have hiff : ddb.Accepts (.append updated) ↔ ∀ op ∈ new, op.index < rows₁.length := by
        rw [Accepts, ← List.length_eq_zero_iff, ← hlen, ← makeRangeArray_lt_iff, ← hidx,
          List.forall_mem_map]
      have hf := h₁.edit hbatch
      rw [decide_eq_decide.mpr hiff]
      refine ⟨{ ddb' with
        currVersion := ddb₁.currVersion + new.length
        realSizeDB := ddb'.realSizeDB + updated.length }, applyOps rows₁ new, ?_,
        ⟨hf.table, hf.initial_le, hf.currVersion_eq, hf.agrees, hf.behind⟩⟩
      rw [DynamicDB.change, appendRows, checkUpdateState_eq]
      dsimp only
      rw [← hddb₁, hreal, hedit]
      rfl

/-- One change, with whether every change so far has been accepted. -/
def watchedChange (s : DynamicDB × Bool) (a : Change) : Option (Except String Unit × (DynamicDB × Bool)) := do
  let (r, ddb) ← s.1.change a
  some (r, (ddb, s.2 && decide (s.1.Accepts a)))

/-- **The log, the versions and the table agree** in a state of a run if and only if every change
up to it has been accepted; every change of a run returns without an error. -/
theorem opLog_agrees_iff {n : ℕ} {rows : List (List UInt8)} (hne : rows ≠ [])
    (hrows : ∀ row ∈ rows, row.length = n) (numRows : ℕ) :
    ∃ ddb, fromRows rows numRows = some ddb ∧ ddb.Agrees n rows ∧ ∀ as : List Change,
      AlwaysUnder watchedChange (fun _ a => a.Valid n)
        (fun _ _ r s' => r = .ok () ∧ (s'.1.Agrees n rows ↔ s'.2 = true)) (ddb, true) as := by
  obtain ⟨ddb, hddb, hfollowing⟩ : ∃ ddb, fromRows rows numRows = some ddb ∧
      ddb.Following n rows rows true := by
    have hsqrt : intSqrt rows.length ≠ 0 :=
      (Nat.sqrt_pos.mpr (List.length_pos_of_ne_nil hne)).ne'
    have hext : extendRows n rows.length rows = rows := by
      rw [extendRows, Nat.sub_self, List.replicate_zero, List.append_nil]
    refine ⟨⟨⟨rows.length, n, 0, rows.flatten⟩, [], 0, 0, 10000, numRows,
        numRows / intSqrt rows.length⟩, ?_, ⟨rfl, rfl, rfl, hrows⟩, Nat.le_refl _, rfl,
      fun _ => ⟨rfl, hext.symm, trivial⟩, ?_⟩
    · rw [fromRows, StaticDB.fromRows_eq hne hrows, Option.bind_eq_bind, Option.bind_some,
        if_neg hsqrt]
    · intro h
      exact absurd h (by decide)
  refine ⟨ddb, hddb, hfollowing.agrees_iff.mpr rfl, fun as => ?_⟩
  refine alwaysUnder_of_invariant (fun s => ∃ rows', s.1.Following n rows rows' s.2) ?_ as _
    ⟨rows, hfollowing⟩
  rintro ⟨ddb, accepted⟩ a ⟨rows', h⟩ hvalid
  obtain ⟨ddb', rows'', hchange, h'⟩ := h.change hvalid
  refine ⟨.ok (), (ddb', accepted && decide (ddb.Accepts a)), ?_, ⟨rfl, h'.agrees_iff⟩, rows'', h'⟩
  rw [watchedChange, hchange]
  rfl

theorem opLog_agrees_iff_two_rows :
    ∃ ddb, fromRows [[1], [2]] 2 = some ddb ∧ ddb.Agrees 1 [[1], [2]] ∧ ∀ as : List Change,
      AlwaysUnder watchedChange (fun _ a => a.Valid 1)
        (fun _ _ r s' => r = .ok () ∧ (s'.1.Agrees 1 [[1], [2]] ↔ s'.2 = true)) (ddb, true) as :=
  opLog_agrees_iff (by decide) (by decide) 2

/-- An edit behind the table is logged and counted, and changes nothing. -/
theorem rejected_edit_logged :
    ∃ ddb ddb', fromRows [[1], [2]] 2 = some ddb ∧
      ddb.editRows [2] [[7]] = some (.ok (), ddb') ∧ ¬ddb'.Agrees 1 [[1], [2]] := by
  refine ⟨⟨⟨2, 1, 0, [1, 2]⟩, [], 0, 0, 10000, 2, 2⟩,
    ⟨⟨2, 1, 0, [1, 2]⟩, [⟨2, [0], [7]⟩], 1, 0, 10000, 2, 2⟩, by decide +kernel, by decide +kernel, ?_⟩
  intro h
  exact absurd h.version_eq (by decide)

end DynamicDB

end SinglePassPIR.Pir
