import SinglePassPIR.Lib.Loop
import SinglePassPIR.Lib.Bytes

/-!
# The static database

`static_db.go`: a flat array of rows of one length, with a version counter that
`UpdateRow` bumps. `Holds n db row` says that the table holds the rows `row 0`, …,
`row (NumRows - 1)` of `n` bytes, and each operation has one lemma about it.
-/

namespace SinglePassPIR.Pir

/-- `StaticDB` -/
structure StaticDB where
  numRows : ℕ
  rowLen : ℕ
  version : ℕ
  flatDb : List UInt8
  deriving DecidableEq, Repr

/-- `MathMod` of `pset.go`: the arithmetic remainder, from Go's truncated one. A zero
modulus panics. -/
def mathMod (x mod : ℤ) : Option ℤ :=
  if mod = 0 then none
  else
    let out := x.tmod mod
    some (if out < 0 then out + mod else out)

theorem mathMod_eq (x : ℤ) {m : ℤ} (hm : 0 < m) : mathMod x m = some (x % m) := by
  rw [mathMod, if_neg hm.ne']
  have htmod : x.tmod m = x % m - if 0 ≤ x ∨ m ∣ x then 0 else m := by
    rw [Int.tmod_eq_emod]
    split_ifs <;> omega
  have hlt := Int.emod_lt_of_pos x hm
  have hnn := Int.emod_nonneg x hm.ne'
  refine congrArg some ?_
  simp only [htmod]
  split_ifs <;> omega

namespace StaticDB

/-- `StaticDB.Slice`. Go lets it reach up to the capacity of `FlatDb`, with which `withSpare` ends a
table. -/
def slice (db : StaticDB) (start stop : ℕ) : Option (List UInt8) :=
  SinglePassPIR.slice db.flatDb (start * db.rowLen) (stop * db.rowLen)

/-- The table with the bytes that `append` has left between the length of `FlatDb` and its
capacity. -/
def withSpare (db : StaticDB) (spare : List UInt8) : StaticDB :=
  { db with flatDb := db.flatDb ++ spare }

/-- `StaticDB.Row`; the `nil` row of an index past the end is the empty slice. -/
def row (db : StaticDB) (i : ℕ) : Option (List UInt8) :=
  if db.numRows ≤ i then some [] else db.slice i (i + 1)

/-- `StaticDBFromRows`; rows of different lengths panic. -/
def fromRows (data : List (List UInt8)) : Option StaticDB :=
  match data with
  | [] => some ⟨0, 0, 0, []⟩
  | first :: _ =>
      if ∀ v ∈ data, v.length = first.length
      then some ⟨data.length, first.length, 0, data.flatten⟩ else none

/-- `StaticDB.UpdateRow`; an index past the end is ignored. -/
def updateRow (db : StaticDB) (index : ℕ) (updatedRow : List UInt8) : Option StaticDB :=
  if db.numRows ≤ index then some db
  else do
    let flatDb ← loop db.rowLen (fun i flat => do
      let b ← updatedRow[i]?
      writeAt flat (index * db.rowLen + i) b) db.flatDb
    some { db with flatDb, version := db.version + 1 }

/-- `StaticDB.ExtendDb` -/
def extendDb (db : StaticDB) (extendVal : ℕ) : StaticDB :=
  { db with
    flatDb := db.flatDb ++ List.replicate (extendVal * db.rowLen) 0
    numRows := db.numRows + extendVal }

/-- The table is well formed: `NumRows` rows of `n` bytes. -/
structure WF (n : ℕ) (db : StaticDB) : Prop where
  rowLen_eq : db.rowLen = n
  length_eq : db.flatDb.length = db.numRows * n

/-- Row `i` of a well-formed table. -/
def get (n : ℕ) (db : StaticDB) (i : ℕ) : Bytes n := rowAt n db.flatDb i

variable {n : ℕ} {db : StaticDB}

theorem row_eq (h : WF n db) {i : ℕ} (hi : i < db.numRows) :
    db.row i = some (db.get n i).toList := by
  rw [row, if_neg (by omega), slice, h.rowLen_eq]
  exact slice_rowAt h.length_eq hi

/-- A row read past the end of the table is zero. -/
theorem get_of_le (h : WF n db) {i : ℕ} (hi : db.numRows ≤ i) : db.get n i = 0 := by
  apply Bytes.ext
  intro k hk
  have := Nat.mul_le_mul_right n hi
  rw [get, byte_rowAt _ _ hk, Bytes.byte_zero hk, getD_of_le]
  rw [h.length_eq]; omega

/-- Overwriting a row. -/
theorem updateRow_spec (h : WF n db) {index : ℕ} (hi : index < db.numRows) (x : Bytes n) :
    ∃ db', db.updateRow index x.toList = some db' ∧ WF n db' ∧ db'.numRows = db.numRows ∧
      db'.version = db.version + 1 ∧
      ∀ i, db'.get n i = if i = index then x else db.get n i := by
  have hend := block_end_le (w := n) hi
  have key := loop_spec (s := db.flatDb) (n := n)
    (f := fun i flat => do
      let b ← x.toList[i]?
      writeAt flat (index * n + i) b)
    (fun i flat => flat.length = db.numRows * n ∧ ∀ k, flat.getD k 0 =
      if index * n ≤ k ∧ k < index * n + i then x.byte (k - index * n) else db.flatDb.getD k 0)
    ⟨h.length_eq, fun k => by rw [if_neg (by omega)]⟩ ?step
  case step =>
    rintro i hi flat ⟨hlen, hcells⟩
    have hread : x.toList[i]? = some (x.byte i) := getElem?_eq_some_getD 0 (by simpa using hi)
    refine ⟨flat.set (index * n + i) (x.byte i), ?_, by simpa using hlen, ?_⟩
    · simp only [hread, Option.bind_eq_bind, Option.bind_some]
      exact writeAt_eq (by omega) _
    · intro k
      rw [getD_set _ _ _ _ _ (by omega), hcells]
      by_cases hk : k = index * n + i
      · rw [if_pos hk, if_pos (by omega)]
        congr 1; omega
      · rw [if_neg hk]
        exact if_congr (by omega) rfl rfl
  obtain ⟨flat, hloop, hlen, hcells⟩ := key
  refine ⟨{ db with flatDb := flat, version := db.version + 1 }, ?_, ⟨h.rowLen_eq, hlen⟩, rfl,
    rfl, ?_⟩
  · rw [updateRow, if_neg (by omega), h.rowLen_eq, hloop]
    rfl
  · intro i
    apply Bytes.ext
    intro k hk
    rw [get, byte_rowAt _ _ hk, hcells]
    by_cases hii : i = index
    · subst hii
      rw [if_pos (by omega), if_pos rfl, Nat.add_sub_cancel_left]
    · rw [if_neg hii, if_neg, get, byte_rowAt _ _ hk]
      rcases Nat.lt_or_gt_of_ne hii with hlt | hgt
      · have := block_le_of_lt (w := n) hlt; omega
      · have := block_le_of_lt (w := n) hgt; omega

/-- An index the table does not have is ignored. -/
theorem updateRow_of_le {index : ℕ} (hi : db.numRows ≤ index) (r : List UInt8) :
    db.updateRow index r = some db := if_pos hi

/-- Extending appends zero rows. -/
theorem extendDb_wf (h : WF n db) (m : ℕ) : WF n (db.extendDb m) := by
  refine ⟨h.rowLen_eq, ?_⟩
  simp only [extendDb, List.length_append, List.length_replicate, h.length_eq, h.rowLen_eq]
  ring

theorem extendDb_get (n m i : ℕ) (db : StaticDB) : (db.extendDb m).get n i = db.get n i := by
  apply Bytes.ext
  intro k hk
  rw [get, get, byte_rowAt _ _ hk, byte_rowAt _ _ hk, extendDb, getD_append]
  split_ifs with hlt
  · rfl
  · rw [getD_of_le (l := db.flatDb) 0 (by omega), List.getD_eq_getElem?_getD,
      List.getElem?_replicate]
    split <;> rfl

@[simp] theorem extendDb_numRows (m : ℕ) : (db.extendDb m).numRows = db.numRows + m := rfl
@[simp] theorem extendDb_version (m : ℕ) : (db.extendDb m).version = db.version := rfl

/-- `StaticDBFromRows` on rows of one length. -/
theorem fromRows_eq {rows : List (List UInt8)} (hne : rows ≠ [])
    (hrows : ∀ row ∈ rows, row.length = n) :
    fromRows rows = some ⟨rows.length, n, 0, rows.flatten⟩ := by
  cases rows with
  | nil => exact absurd rfl hne
  | cons row rows =>
      have hrow := hrows row List.mem_cons_self
      rw [fromRows, if_pos fun v hv => (hrows v hv).trans hrow.symm, hrow]

/-- Row `i` of the table is row `i` of the input. -/
theorem fromRows_spec (rows : List (Bytes n)) (hne : rows ≠ []) :
    ∃ db, fromRows (rows.map Bytes.toList) = some db ∧ WF n db ∧ db.numRows = rows.length ∧
      db.version = 0 ∧ ∀ i (hi : i < rows.length), db.get n i = rows[i] := by
  have hlen : ∀ row ∈ rows.map Bytes.toList, row.length = n := by
    intro row hrow
    obtain ⟨x, -, rfl⟩ := List.mem_map.mp hrow
    exact x.length_toList
  refine ⟨⟨rows.length, n, 0, (rows.map Bytes.toList).flatten⟩, ?_, ⟨rfl, length_flatten_rows _⟩, rfl,
    rfl, fun i hi => rowAt_flatten _ hi⟩
  rw [fromRows_eq (by simpa using hne) hlen, List.length_map]

end StaticDB

end SinglePassPIR.Pir
