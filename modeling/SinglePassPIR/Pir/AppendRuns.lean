import SinglePassPIR.Pir.DynamicRuns

/-!
# Appends

The server extends its table by one chunk in `AppendRows`, and the client grows by one
chunk for every operation on a row past its end. `Level` relates the two: the table has
as many rows as the client will cover after its next update, or one chunk more. In the
second case `Process` still computes the client's chunk width as long as a chunk has
fewer rows than the table has chunks.

## Main results

* `appends_in_step` — if every batch of appends leaves room in the table, or fills the one
  chunk that `AppendRows` adds, client and server stay in step and reads return the
  server's rows.
* `empty_append_out_of_step` — an empty batch on a fresh database makes them fall apart.
-/

namespace SinglePassPIR.Pir
open Psetggm

variable {H n : ℕ}

/-- The rows that a client covers after the operations of a batch of appends. -/
theorem coverage_range {rows R : ℕ} (b : ℕ) (hH : 0 < H) (hR : R ≤ rows) :
    WithinReach H rows (List.range' R b) ∧ R + b ≤ coverage H rows (List.range' R b) ∧
      (coverage H rows (List.range' R b) = rows ∨
        ∃ k, coverage H rows (List.range' R b) = rows + (k + 1) * H ∧ rows + k * H < R + b) := by
  induction b generalizing rows R with
  | zero => exact ⟨trivial, hR, Or.inl rfl⟩
  | succ b ih =>
      rw [List.range'_succ]
      simp only [WithinReach, coverage]
      by_cases hend : rows ≤ R
      · obtain ⟨hw, hle, hcov⟩ := @ih (rows + H) (R + 1) (by omega)
        rw [if_pos hend]
        refine ⟨⟨by omega, hw⟩, by omega, Or.inr ?_⟩
        rcases hcov with hcov | ⟨k, hcov, hk⟩
        · exact ⟨0, by rw [hcov]; omega, by omega⟩
        · exact ⟨k + 1, by rw [hcov]; ring, by rw [Nat.succ_mul]; omega⟩
      · obtain ⟨hw, hle, hcov⟩ := @ih rows (R + 1) (by omega)
        rw [if_neg hend]
        refine ⟨⟨by omega, hw⟩, by omega, ?_⟩
        rcases hcov with hcov | ⟨k, hcov, hk⟩
        · exact Or.inl hcov
        · exact Or.inr ⟨k, hcov, by omega⟩

/-- The rows that a client covers after edits of rows at most one chunk past its end. -/
theorem coverage_of_lt_add {rows : ℕ} {is : List ℕ} (h : ∀ i ∈ is, i < rows + H) :
    WithinReach H rows is ∧ (coverage H rows is = rows ∨ coverage H rows is = rows + H) := by
  induction is with
  | nil => exact ⟨trivial, Or.inl rfl⟩
  | cons i is ih =>
      have hi := h i List.mem_cons_self
      have hrest := fun j hj => h j (List.mem_cons_of_mem i hj)
      simp only [WithinReach, coverage]
      by_cases hend : rows ≤ i
      · have hdone := @coverage_of_lt H (rows + H) is hrest
        rw [if_pos hend]
        exact ⟨⟨hi, hdone.2⟩, Or.inr hdone.1⟩
      · rw [if_neg hend]
        exact ⟨⟨hi, (ih hrest).1⟩, (ih hrest).2⟩

theorem makeRangeArray_eq (R b : ℕ) : DynamicDB.makeRangeArray R (R + b) = List.range' R b := by
  rw [DynamicDB.makeRangeArray, Nat.add_sub_cancel_left, List.range_eq_range', List.map_add_range']
  rfl

/-- The table of a server whose log makes a client cover `rows` rows. -/
structure Level (H : ℕ) (ddb : DynamicDB) (rows : ℕ) : Prop where
  extendSize_eq : ddb.extendSize = H
  realSizeDB_le : ddb.realSizeDB ≤ rows
  numRows_eq : ddb.staticDb.numRows = rows ∨
    ddb.staticDb.numRows = rows + H ∧ H < rows / H
  chunks_lt : ddb.staticDb.numRows / H < 2 ^ 31

/-- A batch of `b` appends keeps client and server in step: it leaves room in the table, or
ends within the one chunk that is added; and if it fills the old table exactly, the chunk
added in advance does not change the width of the chunks. -/
def AppendFits (ddb : DynamicDB) (b : ℕ) : Prop :=
  ddb.realSizeDB + b < ddb.staticDb.numRows ∨
    ddb.realSizeDB + b ≤ ddb.staticDb.numRows + ddb.extendSize ∧
      (ddb.realSizeDB + b = ddb.staticDb.numRows →
        ddb.extendSize < ddb.staticDb.numRows / ddb.extendSize)

instance (ddb : DynamicDB) (b : ℕ) : Decidable (AppendFits ddb b) :=
  inferInstanceAs (Decidable (_ ∨ _))

/-- What `AppendRows` does to the table and to the coverage of the log. -/
theorem Level.append {ddb ddb' : DynamicDB} {rows b : ℕ} (hH : 0 < H) (h : Level H ddb rows)
    (hfits : AppendFits ddb b) (hsmall : (ddb.staticDb.numRows + ddb.extendSize) / H < 2 ^ 31)
    (hnum : ddb'.staticDb.numRows = ddb.appendedNumRows b)
    (hreal : ddb'.realSizeDB = ddb.realSizeDB + b) (hext : ddb'.extendSize = ddb.extendSize) :
    Level H ddb' (coverage H rows (List.range' ddb.realSizeDB b)) := by
  obtain ⟨-, hle, hcov⟩ := coverage_range b hH h.realSizeDB_le
  have hX := h.extendSize_eq
  have hreal' := h.realSizeDB_le
  -- how many chunks the client grows by
  have hgrow : ∀ m, ddb.realSizeDB + b ≤ rows + m * H →
      ∃ k ≤ m, coverage H rows (List.range' ddb.realSizeDB b) = rows + k * H ∧
        (0 < k → rows + (k - 1) * H < ddb.realSizeDB + b) := by
    intro m hm
    rcases hcov with hcov | ⟨k, hcov, hk⟩
    · exact ⟨0, Nat.zero_le m, by rw [hcov]; omega, by omega⟩
    · refine ⟨k + 1, ?_, hcov, fun _ => hk⟩
      have hlt : k * H < m * H := by omega
      exact Nat.lt_of_mul_lt_mul_right hlt
  have hchunks : ddb'.staticDb.numRows / H < 2 ^ 31 := by
    refine lt_of_le_of_lt (Nat.div_le_div_right ?_) hsmall
    rw [hnum, DynamicDB.appendedNumRows]
    split <;> omega
  refine ⟨hext.trans hX, hreal ▸ hle, ?_, hchunks⟩
  rw [hnum, DynamicDB.appendedNumRows]
  rcases hfits with hroom | ⟨hend, hexact⟩
  · rw [if_neg (by omega)]
    rcases h.numRows_eq with hM | ⟨hM, hH'⟩
    · obtain ⟨k, hk, hck, -⟩ := hgrow 0 (by omega)
      obtain rfl : k = 0 := by omega
      exact Or.inl (by rw [hck, hM]; omega)
    · obtain ⟨k, hk, hck, -⟩ := hgrow 1 (by omega)
      rcases Nat.le_one_iff_eq_zero_or_eq_one.mp hk with rfl | rfl
      · rw [Nat.zero_mul, Nat.add_zero] at hck
        exact Or.inr ⟨by rw [hck, hM], by rw [hck]; exact hH'⟩
      · exact Or.inl (by rw [hck, hM]; omega)
  · rw [hX] at hend hexact ⊢
    by_cases hfull : ddb.staticDb.numRows ≤ ddb.realSizeDB + b
    · rw [if_pos hfull]
      rcases h.numRows_eq with hM | ⟨hM, hH'⟩
      · obtain ⟨k, hk, hck, hk'⟩ := hgrow 1 (by omega)
        rcases Nat.le_one_iff_eq_zero_or_eq_one.mp hk with rfl | rfl
        · have hR : ddb.realSizeDB + b = ddb.staticDb.numRows := by omega
          rw [Nat.zero_mul, Nat.add_zero] at hck
          exact Or.inr ⟨by rw [hck, hM], by rw [hck, ← hM]; exact hexact hR⟩
        · exact Or.inl (by rw [hck, hM]; omega)
      · obtain ⟨k, hk, hck, hk'⟩ := hgrow 2 (by omega)
        have hne : k ≠ 0 := by rintro rfl; omega
        rcases (by omega : k = 1 ∨ k = 2) with rfl | rfl
        · have hR : ddb.realSizeDB + b = ddb.staticDb.numRows := by omega
          exact Or.inr ⟨by rw [hck, hM]; omega, by rw [hck, Nat.one_mul, ← hM]; exact hexact hR⟩
        · exact Or.inl (by rw [hck, hM]; omega)
    · rw [if_neg hfull]
      rcases h.numRows_eq with hM | ⟨hM, hH'⟩
      · obtain ⟨k, hk, hck, -⟩ := hgrow 0 (by omega)
        obtain rfl : k = 0 := by omega
        exact Or.inl (by rw [hck, hM]; omega)
      · obtain ⟨k, hk, hck, -⟩ := hgrow 1 (by omega)
        rcases Nat.le_one_iff_eq_zero_or_eq_one.mp hk with rfl | rfl
        · rw [Nat.zero_mul, Nat.add_zero] at hck
          exact Or.inr ⟨by rw [hck, hM], by rw [hck]; exact hH'⟩
        · exact Or.inl (by rw [hck, hM]; omega)

/-- Edits of rows of the table, which may be rows that the client does not cover yet. -/
theorem Level.edit {ddb ddb' : DynamicDB} {rows : ℕ} {indices : List ℕ} (h : Level H ddb rows)
    (hlt : ∀ i ∈ indices, i < ddb.staticDb.numRows)
    (hnum : ddb'.staticDb.numRows = ddb.staticDb.numRows)
    (hreal : ddb'.realSizeDB = ddb.realSizeDB) (hext : ddb'.extendSize = ddb.extendSize) :
    WithinReach H rows indices ∧ Level H ddb' (coverage H rows indices) := by
  have hle := le_coverage H rows indices
  have hreal' := h.realSizeDB_le
  rcases h.numRows_eq with hM | ⟨hM, hH'⟩
  · obtain ⟨hc, hw⟩ := @coverage_of_lt H rows indices fun i hi => hM ▸ hlt i hi
    exact ⟨hw, hext.trans h.extendSize_eq, by omega, Or.inl (by rw [hnum, hc, hM]),
      hnum ▸ h.chunks_lt⟩
  · obtain ⟨hw, hc⟩ := @coverage_of_lt_add H rows indices fun i hi => hM ▸ hlt i hi
    refine ⟨hw, hext.trans h.extendSize_eq, by omega, ?_, hnum ▸ h.chunks_lt⟩
    rcases hc with hc | hc
    · exact Or.inr ⟨by rw [hnum, hc, hM], by rw [hc]; exact hH'⟩
    · exact Or.inl (by rw [hnum, hc, hM])

/-- `Process` computes the client's chunk width. -/
theorem Level.width {ddb : DynamicDB} {c : ℕ} (hH : 0 < H) (hc : 0 < c)
    (h : Level H ddb (c * H)) : ddb.staticDb.numRows / c = H := by
  rcases h.numRows_eq with hM | ⟨hM, hlt⟩
  · rw [hM, Nat.mul_div_cancel_left H hc]
  · rw [Nat.mul_div_cancel c hH] at hlt
    rw [hM, Nat.mul_add_div hc, Nat.div_eq_of_lt hlt, Nat.add_zero]

/-! ## Runs -/

/-- Edits are of rows of the table, and every read is preceded by an update after the last
change of the server. -/
def UpdatedReads (s : DynamicState) : DynamicAction H n → Prop
  | .edit batch => ∀ e ∈ batch, e.1 < s.ddb.staticDb.numRows
  | .append _ => True
  | .update _ => True
  | .read _ _ => s.stale = false

instance (s : DynamicState) : (a : DynamicAction H n) → Decidable (UpdatedReads s a)
  | .edit batch => inferInstanceAs (Decidable (∀ e ∈ batch, e.1 < s.ddb.staticDb.numRows))
  | .append _ => isTrue trivial
  | .update _ => isTrue trivial
  | .read _ _ => inferInstanceAs (Decidable (s.stale = false))

/-- The appends of a run fit, and the number of chunks stays below what the kernels count. -/
def AppendsFit (s : DynamicState) : DynamicAction H n → Prop
  | .append rows => AppendFits s.ddb rows.length ∧
      (s.ddb.staticDb.numRows + s.ddb.extendSize) / H < 2 ^ 31
  | _ => True

/-- At a read the server computes the client's chunk width, and a read of a used row returns
the server's current row. -/
def ReadInStep (s : DynamicState) (a : DynamicAction H n)
    (out : Option (Except String (List UInt8))) (_ : DynamicState) : Prop :=
  match a with
  | .read i _ => s.ddb.staticDb.numRows / s.client.setSize = s.client.nHints ∧
      ∀ k < s.ddb.realSizeDB, i = (k : ℤ) → ∃ row, s.ddb.staticDb.row k = some row ∧
        out = some (.ok row)
  | _ => True

/-- The invariant of a run with appends. -/
def AppendInv (H n : ℕ) (s : DynamicState) : Prop :=
  ∃ (t : HintTable (Fin H) (Bytes n)) (v : ℕ), Behind H n s t v ∧ 0 < t.chunks ∧
    Level H s.ddb (coverage H (t.chunks * H) ((s.ddb.ops.drop v).map UpdateOp.index))

/-- One step of a run with appends that fit. -/
theorem appendStep_spec (B : Build) (hH : 0 < H) (hn : 0 < n) (h32 : n < 2 ^ 32)
    (hH32 : H < 2 ^ 32) (s : DynamicState) (a : DynamicAction H n) (hinv : AppendInv H n s)
    (hG : UpdatedReads s a ∧ AppendsFit s a) :
    ∃ out s', s.step B a = some (out, s') ∧ ReadInStep s a out s' ∧ AppendInv H n s' := by
  obtain ⟨t, v, h, hS, hlevel⟩ := hinv
  obtain ⟨hread, hfits⟩ := hG
  cases a with
  | edit batch =>
      obtain ⟨ddb', hedit, hed⟩ := DynamicDB.editRows_spec h.wf batch hread
      have hlt : ∀ i ∈ batch.map Prod.fst, i < s.ddb.staticDb.numRows := by
        intro i hi
        obtain ⟨e, he, rfl⟩ := List.mem_map.mp hi
        exact hread e he
      obtain ⟨hreach, hlevel'⟩ := hlevel.edit hlt hed.numRows_eq hed.realSizeDB_eq hed.extendSize_eq
      obtain ⟨h', hpend⟩ := h.serverStep hed.wf hed.le_length hed.indices_eq hreach
        hed.rowAtVersion_eq
      refine ⟨none, _, ?_, trivial, t, v, h', hS, ?_⟩
      · simp only [DynamicState.step, hedit, Option.bind_eq_bind, Option.bind_some]
      · change Level H ddb' (coverage H (t.chunks * H) ((ddb'.ops.drop v).map UpdateOp.index))
        rw [hpend, coverage_append]
        exact hlevel'
  | append rows =>
      obtain ⟨hfit, hsmall⟩ := hfits
      have hb : s.ddb.realSizeDB + rows.length ≤ s.ddb.appendedNumRows rows.length := by
        rw [DynamicDB.appendedNumRows]
        rcases hfit with hroom | ⟨hend, -⟩
        · rw [if_neg (by omega)]
          exact hroom.le
        · split <;> omega
      obtain ⟨ddb', happ, hwf, hnum, hreal, hext, hidx, hle, hrows⟩ :=
        DynamicDB.appendRows_spec h.wf rows hb
      rw [makeRangeArray_eq] at hidx
      obtain ⟨h', hpend⟩ := h.serverStep hwf hle hidx
        (coverage_range rows.length hH hlevel.realSizeDB_le).1 hrows
      refine ⟨none, _, ?_, trivial, t, v, h', hS, ?_⟩
      · simp only [DynamicState.step, happ, Option.bind_eq_bind, Option.bind_some]
      · change Level H ddb' (coverage H (t.chunks * H) ((ddb'.ops.drop v).map UpdateOp.index))
        rw [hpend, coverage_append]
        exact hlevel.append hH hfit hsmall hnum hreal hext
  | update rnd =>
      obtain ⟨t', hstep, h', hc, -, -⟩ := h.update B rnd hn h32 hH hH32
      have hdrop : s.ddb.ops.drop s.ddb.currVersion = [] := by
        rw [h.wf.currVersion_eq, List.drop_length]
      have hpos : 0 < t'.chunks := by
        have hle := le_coverage H (t.chunks * H) ((s.ddb.ops.drop v).map UpdateOp.index)
        have hmul := Nat.mul_pos hS hH
        exact Nat.pos_of_mul_pos_right (by omega : 0 < t'.chunks * H)
      refine ⟨none, _, hstep, trivial, t', _, h', hpos, ?_⟩
      change Level H s.ddb (coverage H (t'.chunks * H)
        ((s.ddb.ops.drop s.ddb.currVersion).map UpdateOp.index))
      rw [hdrop, hc]
      exact hlevel
  | read i swaps =>
      have hdrop : s.ddb.ops.drop v = [] := by rw [h.fresh hread, List.drop_length]
      have hlevel₀ : Level H s.ddb (t.chunks * H) := by
        rw [hdrop] at hlevel
        exact hlevel
      have hwidth := hlevel₀.width hH hS
      have hle : t.chunks * H ≤ s.ddb.staticDb.numRows := by
        rcases hlevel₀.numRows_eq with hM | ⟨hM, -⟩ <;> omega
      have h31 : t.chunks < 2 ^ 31 := by
        refine lt_of_le_of_lt ?_ hlevel₀.chunks_lt
        rw [Nat.le_div_iff_mul_le hH]
        exact hle
      obtain ⟨t', hstep, h', hc⟩ := h.read B i swaps hn h32 hS h31 hwidth (Or.inl hread)
      refine ⟨_, _, hstep, ⟨?_, ?_⟩, t', v, h', hc ▸ hS, ?_⟩
      · rw [h.client_eq]
        exact hwidth
      · rintro k hk rfl
        have hreal := hlevel₀.realSizeDB_le
        refine ⟨_, StaticDB.row_eq h.wf.static (by omega), ?_⟩
        have hmod : ((k : ℤ) % ((t.chunks * H : ℕ) : ℤ)).toNat = k := by
          rw [Int.emod_eq_of_lt (Int.natCast_nonneg k) (by exact_mod_cast (by omega)),
            Int.toNat_natCast]
        rw [hmod, DynamicDB.rowAtVersion, hdrop, changes_nil, add_zero]
      · rw [hc]
        exact hlevel

/-- From a database built from rows and a client with the default set size, every run under
the guard `G` is in step at every read. -/
def AppendRunsInStep (B : Build) (rnd : ℕ → UInt32) (H n : ℕ) (rows : List (Bytes n))
    (G : DynamicState → DynamicAction H n → Prop) : Prop :=
  ∃ ddb resp c, DynamicDB.fromRows (rows.map Bytes.toList) rows.length = some ddb ∧
    SinglePassHintReq.process B rnd ⟨0⟩ ddb.staticDb = some resp ∧ resp.initClient = some c ∧
    ∀ as : List (DynamicAction H n),
      AlwaysUnder (DynamicState.step B) G ReadInStep ⟨ddb, c, false⟩ as

/-- **Client and server stay in step under appends that fit.** -/
theorem appends_in_step (B : Build) (rnd : ℕ → UInt32) {S : ℕ} {rows : List (Bytes n)}
    (hS : 0 < S) (hH : 0 < H) (hn : 0 < n) (hsqrt : intSqrt rows.length = S)
    (hrows : rows.length = S * H) (hfit : KernelFits S H n) :
    AppendRunsInStep B rnd H n rows fun s a => UpdatedReads s a ∧ AppendsFit s a := by
  have hne : rows ≠ [] := List.ne_nil_of_length_pos (hrows ▸ Nat.mul_pos hS hH)
  obtain ⟨ddb, hfrom, hwf, hnum, hreal, hops, hext, -⟩ := DynamicDB.fromRows_spec rows hne
  rw [hrows] at hnum
  obtain ⟨resp, t, hproc, hinit, hc, h⟩ := editInv_init B rnd ⟨0⟩ hS hH hn hfit hwf hnum (by
    rw [if_neg (by simp), hnum, ← hrows, hsqrt])
  refine ⟨ddb, resp, t.client ddb.ops.length, hfrom, hproc, hinit, ?_⟩
  intro as
  refine alwaysUnder_of_invariant (AppendInv H n) (appendStep_spec B hH hn (hfit.rowLen_lt hH)
    (hfit.nHints_lt.trans (by decide))) as _ ⟨t, _, h, hc ▸ hS, ?_⟩
  have hdiv : S * H / S = H := Nat.mul_div_cancel_left H hS
  have hchunks : S * H / H < 2 ^ 31 := by
    rw [Nat.mul_div_cancel S hH]
    exact hfit.setSize_lt
  change Level H ddb (coverage H (t.chunks * H)
    ((ddb.ops.drop ddb.ops.length).map UpdateOp.index))
  rw [List.drop_length, hc]
  refine ⟨?_, ?_, Or.inl hnum, hnum ▸ hchunks⟩
  · rw [hext, hsqrt, hrows, hdiv]
  · change ddb.realSizeDB ≤ S * H
    rw [hreal, hrows]

/-- Two chunks of two one-byte rows. -/
theorem appends_in_step_two_by_two :
    AppendRunsInStep .avx2 (fun _ => 0) 2 1
      [⟨[1], rfl⟩, ⟨[2], rfl⟩, ⟨[3], rfl⟩, ⟨[4], rfl⟩]
      fun s a => UpdatedReads s a ∧ AppendsFit s a :=
  appends_in_step (S := 2) .avx2 (fun _ => 0) (by decide) (by decide) (by decide)
    (by decide +kernel) rfl ⟨by decide, by decide, by decide, by decide⟩

/-- On a fresh database of four rows an empty batch adds a chunk of two rows: the server
then computes chunks of three rows, the client has chunks of two. -/
theorem empty_append_out_of_step :
    ¬AppendRunsInStep .sse (fun _ => 0) 2 1
      [⟨[1], rfl⟩, ⟨[2], rfl⟩, ⟨[3], rfl⟩, ⟨[4], rfl⟩] UpdatedReads := by
  rintro ⟨ddb, resp, c, hfrom, hproc, hinit, hrun⟩
  let as : List (DynamicAction 2 1) := [.append [], .update fun _ _ => 0]
  have hlast : ((DynamicDB.fromRows [[1], [2], [3], [4]] 4).bind fun ddb =>
      (SinglePassHintReq.process .sse (fun _ => 0) ⟨0⟩ ddb.staticDb).bind fun resp =>
        resp.initClient.bind fun c =>
          (runUnder (DynamicState.step .sse) UpdatedReads ⟨ddb, c, false⟩ as).map fun s =>
            decide (s.stale = false ∧
              s.ddb.staticDb.numRows / s.client.setSize ≠ s.client.nHints)) = some true := by
    decide +kernel
  change DynamicDB.fromRows [[1], [2], [3], [4]] 4 = some ddb at hfrom
  rw [hfrom, Option.bind_some, hproc, Option.bind_some, hinit, Option.bind_some,
    Option.map_eq_some_iff] at hlast
  obtain ⟨s, hs, hlast⟩ := hlast
  rw [decide_eq_true_eq] at hlast
  obtain ⟨out, s', -, hwidth, -⟩ := (hrun (as ++ [.read 0 fun _ => 0])).last hs
    (show UpdatedReads s (.read 0 fun _ => 0 : DynamicAction 2 1) from hlast.1)
  exact hlast.2 hwidth

end SinglePassPIR.Pir
