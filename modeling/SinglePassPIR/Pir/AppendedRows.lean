import SinglePassPIR.Pir.OpLog

/-!
# What appended rows are stored

`AppendRows` extends the table at most once, by a chunk whose size is fixed when the database is
built, and then writes its rows with `EditRows`, which counts the rows behind the table without
storing them. `UpdateRow` copies `RowLen` bytes of the row it is given.

## Main results

* `appendRows_table` — the table after any `AppendRows` that completes.
* `appendRows_stores_iff` — in every state of every run, the rows of a batch are stored, and the
  earlier rows kept, exactly when the table has room for the batch.
-/

namespace SinglePassPIR.Pir

namespace StaticDB
variable {n : ℕ} {rows : List (List UInt8)} {db db' : StaticDB}

/-- An update that completes has stored the first `n` bytes of the row, if the table has it. -/
theorem Table.updateRow_inv (h : db.Table n rows) {index : ℕ} {row : List UInt8}
    (hupd : db.updateRow index row = some db') :
    db'.Table n (rows.set index (row.take n)) ∧ (index < rows.length → n ≤ row.length) := by
  by_cases hi : index < rows.length
  · have hindex : ¬db.numRows ≤ index := by rw [h.numRows_eq]; omega
    have hle : n ≤ row.length := by
      rw [StaticDB.updateRow, if_neg hindex, h.rowLen_eq, Option.bind_eq_bind,
        Option.bind_eq_some_iff] at hupd
      obtain ⟨flat, hloop, -⟩ := hupd
      refine loop_preserves (fun i _ => i ≤ row.length) (Nat.zero_le _) ?_ hloop
      intro i _ t t' _ hstep
      rw [Option.bind_eq_bind, Option.bind_eq_some_iff] at hstep
      obtain ⟨b, hb, -⟩ := hstep
      exact (List.getElem?_eq_some_iff.mp hb).1
    have htake : db.updateRow index row = db.updateRow index (row.take n) := by
      rw [StaticDB.updateRow, StaticDB.updateRow, if_neg hindex, if_neg hindex, h.rowLen_eq]
      refine congrArg (· >>= _) (loop_congr fun i hi' t => ?_)
      rw [List.getElem?_take_of_lt hi']
    have hlen : (row.take n).length = n := by rw [List.length_take]; omega
    obtain ⟨db'', hupd', htable, -⟩ := h.updateRow index hlen
    rw [htake, hupd', Option.some.injEq] at hupd
    exact ⟨hupd ▸ htable, fun _ => hle⟩
  · have hout : rows.length ≤ index := Nat.le_of_not_lt hi
    rw [updateRow_of_le (h.numRows_eq ▸ hout), Option.some.injEq] at hupd
    rw [List.set_eq_of_length_le hout]
    exact ⟨hupd ▸ h, fun hlt => absurd hlt hi⟩

end StaticDB

/-- The rows after a batch of edits, of which the first `n` bytes are stored. -/
def writeRows (n : ℕ) (rows : List (List UInt8)) (batch : List (ℕ × List UInt8)) :
    List (List UInt8) :=
  batch.foldl (fun rows e => rows.set e.1 (e.2.take n)) rows

variable {n : ℕ}

theorem writeRows_cons (rows : List (List UInt8)) (e : ℕ × List UInt8)
    (batch : List (ℕ × List UInt8)) :
    writeRows n rows (e :: batch) = writeRows n (rows.set e.1 (e.2.take n)) batch := rfl

@[simp] theorem length_writeRows (rows : List (List UInt8)) (batch : List (ℕ × List UInt8)) :
    (writeRows n rows batch).length = rows.length := by
  induction batch generalizing rows with
  | nil => rfl
  | cons e batch ih => rw [writeRows_cons, ih, List.length_set]

/-- A row that no edit is about. -/
theorem getElem?_writeRows_of_notMem {rows : List (List UInt8)} {batch : List (ℕ × List UInt8)}
    {i : ℕ} (hi : i ∉ batch.map Prod.fst) : (writeRows n rows batch)[i]? = rows[i]? := by
  induction batch generalizing rows with
  | nil => rfl
  | cons e batch ih =>
      rw [List.map_cons, List.mem_cons, not_or] at hi
      rw [writeRows_cons, ih hi.2, List.getElem?_set_ne (Ne.symm hi.1)]

/-- The rows of a batch written one behind the other. -/
theorem getElem?_writeRows_range {rows new : List (List UInt8)} {m k : ℕ} (hk : k < new.length)
    (hrow : m + k < rows.length) :
    (writeRows n rows ((List.range' m new.length).zip new))[m + k]? = some (new[k].take n) := by
  induction new generalizing rows m k with
  | nil => simp at hk
  | cons row new ih =>
      rw [List.length_cons, List.range'_succ, List.zip_cons_cons, writeRows_cons]
      cases k with
      | zero =>
          rw [getElem?_writeRows_of_notMem, Nat.add_zero, List.getElem?_set_self (by omega)]
          · rfl
          · intro hmem
            rw [List.map_fst_zip (by simp), List.mem_range'_1] at hmem
            omega
      | succ k =>
          have hk' : k < new.length := by simpa using hk
          have hrow' : m + 1 + k < (rows.set m (row.take n)).length := by
            rw [List.length_set]
            omega
          have hstep := ih hk' hrow'
          rw [Nat.add_right_comm, Nat.add_assoc] at hstep
          exact hstep

namespace DynamicDB
variable {rows newRows : List (List UInt8)} {ddb ddb' : DynamicDB}

theorem makeRangeArray_eq_range' (min k : ℕ) : makeRangeArray min (min + k) = List.range' min k := by
  rw [makeRangeArray, Nat.add_sub_cancel_left, List.range'_eq_map_range]

/-- `ddb'` is `ddb` after a batch of edits, of rows of any length. -/
structure Wrote (n : ℕ) (rows : List (List UInt8)) (ddb ddb' : DynamicDB)
    (batch : List (ℕ × List UInt8)) : Prop where
  table : ddb'.staticDb.Table n (writeRows n rows batch)
  le_length : ∀ e ∈ batch, e.1 < rows.length → n ≤ e.2.length
  realSizeDB_eq : ddb'.realSizeDB = ddb.realSizeDB

theorem editLoop_wrote {rowSize : ℕ} {batch : List (ℕ × List UInt8)} (h : ddb.staticDb.Table n rows)
    (hloop : editLoop rowSize batch ddb = some ddb') : Wrote n rows ddb ddb' batch := by
  induction batch generalizing ddb rows with
  | nil =>
      rw [editLoop, Option.some.injEq] at hloop
      rw [← hloop]
      exact ⟨h, by simp, rfl⟩
  | cons e batch ih =>
      rw [editLoop, Option.bind_eq_some_iff] at hloop
      obtain ⟨ddb₁, hedit, hrest⟩ := hloop
      simp only [editRow, h.row_eq, Option.bind_eq_bind, Option.bind_some,
        Option.bind_eq_some_iff, Option.some.injEq] at hedit
      obtain ⟨db', hupd, hddb₁⟩ := hedit
      obtain ⟨htable, hle⟩ := h.updateRow_inv hupd
      have h₁ : ddb₁.staticDb.Table n (rows.set e.1 (e.2.take n)) := by
        rw [← hddb₁]
        exact htable
      have hwrote := ih h₁ hrest
      constructor
      · exact hwrote.table
      · intro e' he'
        cases List.mem_cons.mp he' with
        | inl heq => rwa [heq]
        | inr hmem =>
            have hle' := hwrote.le_length e' hmem
            rwa [List.length_set] at hle'
      · rw [hwrote.realSizeDB_eq, ← hddb₁]

/-- `EditRows` that completes without an error. -/
theorem editRows_wrote {indices : List ℕ} (h : ddb.staticDb.Table n rows)
    (hedit : ddb.editRows indices newRows = some (.ok (), ddb')) :
    Wrote n rows ddb ddb' (indices.zip newRows) := by
  rw [editRows] at hedit
  split_ifs at hedit with hlen
  · simp at hedit
  · simp only [checkUpdateState_eq, Option.bind_eq_bind, Option.bind_eq_some_iff, Option.some.injEq,
      Prod.mk.injEq, true_and] at hedit
    obtain ⟨ddb₁, hloop, hddb'⟩ := hedit
    have hwrote := editLoop_wrote h hloop
    rw [← hddb']
    exact ⟨hwrote.table, hwrote.le_length, hwrote.realSizeDB_eq⟩

/-- `EditRows` keeps the shape of the table. -/
theorem editRows_keeps {indices : List ℕ} {r : Except String Unit} (h : ddb.staticDb.Table n rows)
    (hedit : ddb.editRows indices newRows = some (r, ddb')) :
    ∃ rows', ddb'.staticDb.Table n rows' := by
  cases r with
  | ok u => exact ⟨_, (editRows_wrote h hedit).table⟩
  | error e =>
      rw [editRows] at hedit
      split_ifs at hedit with hlen
      · simp only [Option.some.injEq, Prod.mk.injEq] at hedit
        exact ⟨rows, hedit.2 ▸ h⟩
      · simp [Option.bind_eq_some_iff] at hedit

/-- The rows of the table when `AppendRows` of `b` rows starts to write. -/
def appendedRows (n : ℕ) (ddb : DynamicDB) (rows : List (List UInt8)) (b : ℕ) : List (List UInt8) :=
  rows ++ List.replicate (ddb.appendedNumRows b - rows.length) (List.replicate n 0)

theorem length_appendedRows (h : ddb.staticDb.Table n rows) (b : ℕ) :
    (appendedRows n ddb rows b).length = ddb.appendedNumRows b := by
  have hle : rows.length ≤ ddb.appendedNumRows b := by
    rw [appendedNumRows, ← h.numRows_eq]
    split_ifs <;> omega
  rw [appendedRows, List.length_append, List.length_replicate, Nat.add_sub_cancel' hle]

/-- The database that `AppendRows` of `b` rows writes to. -/
def extended (ddb : DynamicDB) (b : ℕ) : DynamicDB :=
  if ddb.staticDb.numRows ≤ ddb.realSizeDB + b then ddb.extendStaticDb else ddb

theorem extended_table (h : ddb.staticDb.Table n rows) (b : ℕ) :
    (ddb.extended b).staticDb.Table n (appendedRows n ddb rows b) := by
  rw [extended, appendedRows, appendedNumRows, h.numRows_eq]
  split_ifs
  · rw [Nat.add_sub_cancel_left]
    exact h.extendDb ddb.extendSize
  · rw [Nat.sub_self, List.replicate_zero, List.append_nil]
    exact h

theorem extended_realSizeDB (ddb : DynamicDB) (b : ℕ) :
    (ddb.extended b).realSizeDB = ddb.realSizeDB := by
  rw [extended]
  split_ifs <;> rfl

theorem appendRows_eq (ddb : DynamicDB) (newRows : List (List UInt8)) :
    ddb.appendRows newRows =
      ((ddb.extended newRows.length).editRows (List.range' ddb.realSizeDB newRows.length)
        newRows).bind fun p => match p.1 with
          | .error e => some (.error e, p.2)
          | .ok () => some (.ok (), { p.2 with realSizeDB := p.2.realSizeDB + newRows.length }) := by
  rw [appendRows, checkUpdateState_eq, extended]
  dsimp only
  rw [← extended, extended_realSizeDB, makeRangeArray_eq_range']
  rfl

/-- `AppendRows` that completes without an error. -/
theorem appendRows_table (h : ddb.staticDb.Table n rows)
    (happ : ddb.appendRows newRows = some (.ok (), ddb')) :
    ddb'.realSizeDB = ddb.realSizeDB + newRows.length ∧
      ddb'.staticDb.Table n (writeRows n (appendedRows n ddb rows newRows.length)
        ((List.range' ddb.realSizeDB newRows.length).zip newRows)) ∧
      ∀ k (hk : k < newRows.length),
        ddb.realSizeDB + k < ddb.appendedNumRows newRows.length → n ≤ newRows[k].length := by
  rw [appendRows_eq, Option.bind_eq_some_iff] at happ
  obtain ⟨⟨err, ddb₁⟩, hedit, hret⟩ := happ
  cases err with
  | error e => simp at hret
  | ok u =>
      have hwrote := editRows_wrote (extended_table h newRows.length) hedit
      simp only [Option.some.injEq, Prod.mk.injEq, true_and] at hret
      rw [← hret]
      refine ⟨by rw [hwrote.realSizeDB_eq, extended_realSizeDB], hwrote.table, fun k hk hroom => ?_⟩
      refine hwrote.le_length (ddb.realSizeDB + k, newRows[k]) ?_ ?_
      · refine List.mem_iff_getElem.mpr ⟨k, by simpa using hk, by simp⟩
      · rw [length_appendedRows h]
        exact hroom

/-- The table keeps its shape, whatever the change. -/
theorem change_keeps {a : Change} {r : Except String Unit} (h : ddb.staticDb.Table n rows)
    (hchange : ddb.change a = some (r, ddb')) : ∃ rows', ddb'.staticDb.Table n rows' := by
  cases a with
  | edit indices updated => exact editRows_keeps h hchange
  | append updated =>
      rw [change, appendRows_eq, Option.bind_eq_some_iff] at hchange
      obtain ⟨⟨err, ddb₁⟩, hedit, hret⟩ := hchange
      obtain ⟨rows', h₁⟩ := editRows_keeps (extended_table h updated.length) hedit
      refine ⟨rows', ?_⟩
      cases err with
      | error e =>
          simp only [Option.some.injEq, Prod.mk.injEq] at hret
          exact hret.2 ▸ h₁
      | ok u =>
          simp only [Option.some.injEq, Prod.mk.injEq] at hret
          exact hret.2 ▸ h₁

/-! ## The rows of a batch -/

/-- `AppendRows` has taken `ddb` to `ddb'` and stored the rows of the batch. -/
structure Stored (ddb : DynamicDB) (newRows : List (List UInt8)) (ddb' : DynamicDB) : Prop where
  row_new : ∀ k (hk : k < newRows.length),
    ddb'.staticDb.row (ddb.realSizeDB + k) = some newRows[k]
  row_old : ∀ i < ddb.realSizeDB, ddb'.staticDb.row i = ddb.staticDb.row i
  realSizeDB_le : ddb'.realSizeDB ≤ ddb'.staticDb.numRows
  length_eq : ddb'.staticDb.flatDb.length = ddb'.staticDb.numRows * ddb'.staticDb.rowLen

/-- The used rows are rows of the table (rows without bytes need not be), the table has room for
the batch after the one extension, and the batch has rows of the table's length. -/
def HasRoom (ddb : DynamicDB) (newRows : List (List UInt8)) : Prop :=
  (ddb.staticDb.rowLen = 0 ∨ ddb.realSizeDB ≤ ddb.staticDb.numRows) ∧
    ddb.realSizeDB + newRows.length ≤ ddb.appendedNumRows newRows.length ∧
    ∀ row ∈ newRows, row.length = ddb.staticDb.rowLen

instance (ddb : DynamicDB) (newRows : List (List UInt8)) : Decidable (ddb.HasRoom newRows) :=
  inferInstanceAs (Decidable (_ ∧ _ ∧ _))

/-- Row `i` of the extended table. -/
theorem getD_appendedRows {b i : ℕ} (hi : i < ddb.appendedNumRows b) :
    (appendedRows n ddb rows b).getD i [] =
      if i < rows.length then rows.getD i [] else List.replicate n 0 := by
  rw [appendedRows, getD_append]
  split_ifs with hlt
  · rfl
  · have hrest : i - rows.length < ddb.appendedNumRows b - rows.length := by omega
    simp [hrest]

theorem stored_iff (h : ddb.staticDb.Table n rows)
    (happ : ddb.appendRows newRows = some (.ok (), ddb')) :
    Stored ddb newRows ddb' ↔ ddb.HasRoom newRows := by
  obtain ⟨hreal, htable, hle⟩ := appendRows_table h happ
  have hlen := length_appendedRows h newRows.length
  have hnum : ddb'.staticDb.numRows = ddb.appendedNumRows newRows.length := by
    rw [htable.numRows_eq, length_writeRows, hlen]
  -- the new rows, and the old ones, after the batch
  have hnew : ∀ k (hk : k < newRows.length), ddb.realSizeDB + k < ddb.appendedNumRows newRows.length →
      ddb'.staticDb.row (ddb.realSizeDB + k) = some (newRows[k].take n) := by
    intro k hk hroom
    rw [htable.row_eq, List.getD_eq_getElem?_getD, getElem?_writeRows_range hk (hlen ▸ hroom),
      Option.getD_some]
  have hold : ∀ i < ddb.realSizeDB,
      ddb'.staticDb.row i = some ((appendedRows n ddb rows newRows.length).getD i []) := by
    intro i hi
    rw [htable.row_eq, List.getD_eq_getElem?_getD, getElem?_writeRows_of_notMem,
      ← List.getD_eq_getElem?_getD]
    rw [List.map_fst_zip (by simp), List.mem_range'_1]
    omega
  constructor
  · intro hs
    have hroom : ddb.realSizeDB + newRows.length ≤ ddb.appendedNumRows newRows.length := by
      rw [← hreal, ← hnum]
      exact hs.realSizeDB_le
    refine ⟨?_, hroom, ?_⟩
    · by_contra hnot
      rw [not_or, Nat.not_le, h.rowLen_eq, h.numRows_eq] at hnot
      have hi : rows.length < ddb.appendedNumRows newRows.length := by omega
      have hrow := hs.row_old rows.length hnot.2
      rw [hold _ hnot.2, h.row_eq, getD_appendedRows hi, if_neg (Nat.lt_irrefl _),
        getD_of_le [] (Nat.le_refl _), Option.some.injEq, List.replicate_eq_nil_iff] at hrow
      exact hnot.1 hrow
    · intro row hrow
      obtain ⟨k, hk, rfl⟩ := List.mem_iff_getElem.mp hrow
      have hin : ddb.realSizeDB + k < ddb.appendedNumRows newRows.length := by omega
      have htake := hs.row_new k hk
      rw [hnew k hk hin, Option.some.injEq, List.take_eq_self_iff] at htake
      rw [h.rowLen_eq]
      exact Nat.le_antisymm htake (hle k hk hin)
  · intro ⟨hused, hroom, hlens⟩
    constructor
    · intro k hk
      have hlenk := hlens newRows[k] (List.getElem_mem hk)
      rw [hnew k hk (by omega), List.take_of_length_le (by rw [hlenk, h.rowLen_eq])]
    · intro i hi
      rw [hold i hi, h.row_eq, getD_appendedRows (by omega)]
      by_cases hlt : i < rows.length
      · rw [if_pos hlt]
      · rw [if_neg hlt, getD_of_le [] (Nat.le_of_not_lt hlt)]
        cases hused with
        | inl hzero => rw [← h.rowLen_eq, hzero, List.replicate_zero]
        | inr hreal' => exact absurd (h.numRows_eq ▸ hreal') (by omega)
    · rw [hreal, hnum]
      exact hroom
    · rw [htable.wf.length_eq, htable.rowLen_eq]

/-- **Which batches `AppendRows` stores**, in a state of any run: those that the table has room
for. -/
theorem appendRows_stores_iff (hne : rows ≠ []) (hrows : ∀ row ∈ rows, row.length = n)
    {numRows : ℕ} {as : List Change} {os : List (Except String Unit)} {ddb₀ : DynamicDB}
    (h₀ : fromRows rows numRows = some ddb₀) (hrun : runActions change ddb₀ as = some (os, ddb))
    (happ : ddb.appendRows newRows = some (.ok (), ddb')) :
    Stored ddb newRows ddb' ↔ ddb.HasRoom newRows := by
  have hstart : ∃ rows', ddb₀.staticDb.Table n rows' := by
    rw [fromRows, StaticDB.fromRows_eq hne hrows, Option.bind_eq_bind, Option.bind_some] at h₀
    split_ifs at h₀
    rw [Option.some.injEq] at h₀
    rw [← h₀]
    exact ⟨rows, rfl, rfl, rfl, hrows⟩
  have hkeeps : ∀ (s : DynamicDB) a o s', (∃ rows', s.staticDb.Table n rows') →
      change s a = some (o, s') → ∃ rows', s'.staticDb.Table n rows' := by
    intro s a o s' htable hchange
    obtain ⟨rows', h⟩ := htable
    exact change_keeps h hchange
  obtain ⟨rows', htable⟩ := runActions_invariant _ hkeeps hstart hrun
  exact stored_iff htable happ

theorem appendRows_stores_iff_two_rows :
    Stored ⟨⟨2, 1, 0, [1, 2]⟩, [], 0, 0, 10000, 2, 2⟩ [[3]]
        ⟨⟨4, 1, 1, [1, 2, 3, 0]⟩, [⟨2, [0], [3]⟩], 1, 0, 10000, 3, 2⟩ ↔
      HasRoom ⟨⟨2, 1, 0, [1, 2]⟩, [], 0, 0, 10000, 2, 2⟩ [[3]] :=
  @appendRows_stores_iff 1 [[1], [2]] [[3]] _ _ (by decide) (by decide) 2 [] [] _ (by decide +kernel)
    rfl (by decide +kernel)

/-- One extension adds a row to a table of one row, and a batch of two loses its second. -/
theorem second_row_lost :
    ∃ ddb ddb', fromRows [[1]] 1 = some ddb ∧ ddb.appendRows [[2], [3]] = some (.ok (), ddb') ∧
      ¬Stored ddb [[2], [3]] ddb' := by
  refine ⟨⟨⟨1, 1, 0, [1]⟩, [], 0, 0, 10000, 1, 1⟩,
    ⟨⟨2, 1, 1, [1, 2]⟩, [⟨1, [0], [2]⟩, ⟨2, [0], [3]⟩], 2, 0, 10000, 3, 1⟩, by decide +kernel,
    by decide +kernel, ?_⟩
  intro h
  exact absurd (h.row_new 1 (by decide)) (by decide +kernel)

end DynamicDB

end SinglePassPIR.Pir
