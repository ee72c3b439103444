import SinglePassPIR.Pir.AppendedRows
import SinglePassPIR.Pir.ClientShape
import SinglePassPIR.Pir.SinglePassUpdate

/-!
# The replies to update requests

`GetUpdates` has a reply of its own for an empty log, which is not of the type that the update
function of the client takes. `pirReader.Update` drops the error. A reply with operations is
accepted, unless one of them is on a row more than a chunk past what the client covers by then: the
client grows by one chunk only, does not find the row and panics.

Nothing here depends on what the rows and the hints hold, so the lemmas are about the lengths of the
client's arrays alone, and about counts of any size.

## Main results

* `updateOps_isSome_iff` — which operations the client gets through.
* `updateReply_accepted_iff` — which replies are accepted, in every state of a run.
-/

namespace SinglePassPIR.Pir
open Psetggm

/-- The function that `SinglePassClient.Update` returns with its request. -/
def SinglePassClient.updateFunc (B : Build) (rnd : ℕ → ℕ → UInt32) (c : SinglePassClient) :
    UpdateReply → Option (Except String Unit × SinglePassClient)
  | .noOps => some (.error "Invalid response type", c)
  | .resp newVersion updates => do
      let c ← c.updateState B rnd newVersion updates
      some (.ok (), c)

/-- The update function accepts the reply to the client's request, and the client is then at the
version of the database. -/
def SinglePassClient.AcceptsReply (B : Build) (rnd : ℕ → ℕ → UInt32) (c : SinglePassClient)
    (ddb : DynamicDB) : Prop :=
  ∃ reply c', SinglePassUpdateReq.getUpdates ⟨c.currVersion⟩ ddb = some (.ok reply) ∧
    c.updateFunc B rnd reply = some (.ok (), c') ∧ c'.currVersion = ddb.currVersion

variable {n : ℕ} {c : SinglePassClient}

/-! ## Operations -/

/-- XORing a row into a hint. -/
theorem SinglePassClient.Shaped.xorHint (B : Build) (h : c.Shaped n) {pos : ℕ} {row : List UInt8}
    (hpos : pos < c.nHints) (hrow : row.length = n) :
    ∃ c', c.xorHint B pos row c.rowLen = some c' ∧ c'.Shaped n ∧ c'.nHints = c.nHints ∧
      c'.nRows = c.nRows := by
  have hlt : pos < c.hints.length := h.length_hints ▸ hpos
  have hlen := h.hint_length _ (List.getElem_mem hlt)
  obtain ⟨z, hz⟩ := fastXorInto_total B h.rowLen_pos (rowAt n c.hints[pos] 0) (rowAt n row 0)
  rw [toList_rowAt_zero hlen, toList_rowAt_zero hrow] at hz
  refine ⟨{ c with hints := c.hints.set pos z.toList }, ?_,
    { h with length_hints := ?_, hint_length := ?_ }, rfl, rfl⟩
  · rw [SinglePassClient.xorHint, List.getElem?_eq_getElem hlt, h.rowLen_eq, Option.bind_eq_bind,
      Option.bind_some, hz]
    rfl
  · exact List.length_set.trans h.length_hints
  · intro hint hmem
    cases List.mem_or_eq_of_mem_set hmem with
    | inl hold => exact h.hint_length hint hold
    | inr hnew => rw [hnew, Bytes.length_toList]

/-- The client grows by a chunk. -/
theorem SinglePassClient.Shaped.grow (rnd : ℕ → UInt32) (h : c.Shaped n) :
    ∃ c', c.grow rnd = some c' ∧ c'.Shaped n ∧ c'.nHints = c.nHints ∧
      c'.nRows = c.nRows + c.nHints := by
  obtain ⟨perm, inverse, hdraw, hperm, hinverse⟩ := singlePermutation_total rnd h.nHints_ne
  refine ⟨{ c with
    nRows := c.nRows + c.nHints
    setSize := c.setSize + 1
    idxToSetIdx := c.idxToSetIdx ++ [perm]
    setIdxToIdx := c.setIdxToIdx ++ [inverse] }, ?_,
    { h with
      nRows_eq := ?_, length_idxToSetIdx := ?_, length_setIdxToIdx := ?_
      perm_positions := ?_, inverse_positions := ?_ }, rfl, rfl⟩
  · rw [SinglePassClient.grow, hdraw]
    rfl
  · dsimp only
    rw [h.nRows_eq, Nat.succ_mul]
  · dsimp only
    rw [List.length_append, h.length_idxToSetIdx, List.length_singleton]
  · dsimp only
    rw [List.length_append, h.length_setIdxToIdx, List.length_singleton]
  · exact List.forall_mem_append.mpr ⟨h.perm_positions, List.forall_mem_singleton.mpr hperm⟩
  · exact List.forall_mem_append.mpr ⟨h.inverse_positions, List.forall_mem_singleton.mpr hinverse⟩

/-- The client before an operation finds its row: it has grown if the row is past its end. -/
theorem SinglePassClient.Shaped.cover (rnd : ℕ → UInt32) (h : c.Shaped n) (index : ℕ) :
    ∃ c', c.cover rnd index = some c' ∧ c'.Shaped n ∧ c'.nHints = c.nHints ∧
      c'.nRows = if c.nRows ≤ index then c.nRows + c.nHints else c.nRows := by
  rw [SinglePassClient.cover]
  split_ifs with hpast
  · exact h.grow rnd
  · exact ⟨c, rfl, h, rfl, rfl⟩

/-- **One operation**, on a row within reach. -/
theorem SinglePassClient.Shaped.updateOp (B : Build) (rnd : ℕ → UInt32) (h : c.Shaped n)
    {op : UpdateOp} (hop : op.Fits n) (hreach : op.index < c.nRows + c.nHints) :
    ∃ c', c.updateOp B rnd op = some c' ∧ c'.Shaped n ∧ c'.nHints = c.nHints ∧
      c'.nRows = if c.nRows ≤ op.index then c.nRows + c.nHints else c.nRows := by
  obtain ⟨c₁, hcover, h₁, hnHints, hnRows⟩ := h.cover rnd op.index
  have hlt : op.index < c₁.nRows := by
    rw [hnRows]
    split_ifs with hpast
    · exact hreach
    · exact Nat.lt_of_not_le hpast
  obtain ⟨i0, i1, pos, hfind, -, hpos⟩ := h₁.findIndex hlt
  obtain ⟨c₂, hold, h₂, hnHints₂, hnRows₂⟩ := h₁.xorHint B hpos hop.oldData_length
  obtain ⟨c₃, hnew, h₃, hnHints₃, hnRows₃⟩ := h₂.xorHint B (hnHints₂ ▸ hpos) hop.newData_length
  refine ⟨c₃, ?_, h₃, hnHints₃.trans (hnHints₂.trans hnHints),
    hnRows₃.trans (hnRows₂.trans hnRows)⟩
  simp only [SinglePassClient.updateOp, hcover, hfind, hold, hnew, Option.bind_eq_bind,
    Option.bind_some]

/-- An operation out of reach is on a row that the client does not find. -/
theorem SinglePassClient.Shaped.updateOp_eq_none (B : Build) (rnd : ℕ → UInt32) (h : c.Shaped n)
    {op : UpdateOp} (hfar : c.nRows + c.nHints ≤ op.index) : c.updateOp B rnd op = none := by
  obtain ⟨c₁, hcover, -, -, hnRows⟩ := h.cover rnd op.index
  have hpast : c₁.nRows ≤ op.index := by
    rw [hnRows, if_pos (Nat.le_of_add_right_le hfar)]
    exact hfar
  rw [SinglePassClient.updateOp, hcover, Option.bind_eq_bind, Option.bind_some,
    SinglePassClient.findIndex, if_pos (Or.inl hpast)]
  rfl

/-- **Which operations the client gets through**: those within reach, one after the other. -/
theorem SinglePassClient.Shaped.updateOps_isSome_iff (B : Build) (rnd : ℕ → ℕ → UInt32)
    {ops : List UpdateOp} (h : c.Shaped n) (hops : ∀ op ∈ ops, op.Fits n) (k : ℕ) :
    (SinglePassClient.updateOps B rnd k ops c).isSome ↔
      WithinReach c.nHints c.nRows (ops.map UpdateOp.index) := by
  induction ops generalizing c k with
  | nil => exact ⟨fun _ => trivial, fun _ => rfl⟩
  | cons op ops ih =>
      rw [SinglePassClient.updateOps, List.map_cons, WithinReach]
      by_cases hreach : op.index < c.nRows + c.nHints
      · obtain ⟨c₁, hop, h₁, hnHints, hnRows⟩ :=
          h.updateOp B (rnd k) (hops op List.mem_cons_self) hreach
        rw [hop, Option.bind_some, ih h₁ (fun o ho => hops o (List.mem_cons_of_mem op ho)),
          hnHints, hnRows]
        exact (and_iff_right hreach).symm
      · rw [h.updateOp_eq_none B (rnd k) (Nat.le_of_not_lt hreach)]
        simp [hreach]

/-- The replies that a client accepts, of a database whose log goes back to its first version. -/
theorem SinglePassClient.Shaped.acceptsReply_iff (B : Build) (rnd : ℕ → ℕ → UInt32)
    {ddb : DynamicDB} (h : c.Shaped n) (hinit : ddb.opInitVersion = 0)
    (hversion : c.currVersion ≤ ddb.ops.length) (hops : ∀ op ∈ ddb.ops, op.Fits n) :
    c.AcceptsReply B rnd ddb ↔ ddb.ops ≠ [] ∧
      WithinReach c.nHints c.nRows ((ddb.ops.drop c.currVersion).map UpdateOp.index) := by
  have hsome := h.updateOps_isSome_iff B rnd
    (fun op hop => hops op (List.mem_of_mem_drop hop) : ∀ op ∈ ddb.ops.drop c.currVersion, _) 0
  rw [AcceptsReply, SinglePassUpdateReq.getUpdates, hinit, if_neg (Nat.not_lt_zero _), ← hsome]
  by_cases hempty : ddb.ops = []
  · simp [hempty, updateFunc]
  · rw [if_neg hempty, Nat.sub_zero, if_pos hversion, and_iff_right hempty, Option.isSome_iff_exists]
    constructor
    · rintro ⟨reply, c', hreply, haccept, -⟩
      rw [Option.some.injEq, Except.ok.injEq] at hreply
      rw [← hreply] at haccept
      simp only [updateFunc, updateState, Option.bind_eq_bind, Option.bind_eq_some_iff] at haccept
      obtain ⟨-, ⟨c₁, hc₁, -⟩, -⟩ := haccept
      exact ⟨c₁, hc₁⟩
    · rintro ⟨c₁, hc₁⟩
      refine ⟨_, { c₁ with currVersion := ddb.currVersion }, rfl, ?_, rfl⟩
      simp only [updateFunc, updateState, hc₁, Option.bind_eq_bind, Option.bind_some]

/-! ## Runs of the database -/

namespace StaticDB

theorem updateRow_counts {db db' : StaticDB} {index : ℕ} {row : List UInt8}
    (h : db.updateRow index row = some db') :
    db'.rowLen = db.rowLen ∧ db'.version ≤ db.version + 1 := by
  rw [updateRow] at h
  split_ifs at h
  · rw [← Option.some.inj h]
    exact ⟨rfl, Nat.le_succ _⟩
  · simp only [Option.bind_eq_bind, Option.bind_eq_some_iff, Option.some.injEq] at h
    obtain ⟨flatDb, -, rfl⟩ := h
    exact ⟨rfl, Nat.le_refl _⟩

end StaticDB

namespace DynamicDB
variable {v : ℕ} {ddb ddb' : DynamicDB}

theorem length_copyRow (m : ℕ) (row : List UInt8) : (copyRow m row).length = m := by
  rw [copyRow, List.length_append, List.length_take, List.length_replicate]
  omega

/-- The log goes back to the first version and as far as version `v` and the static table, and its
rows have `n` bytes. -/
structure Logged (n v : ℕ) (ddb : DynamicDB) : Prop where
  rowLen_eq : ddb.staticDb.rowLen = n
  opInitVersion_eq : ddb.opInitVersion = 0
  version_le : ddb.staticDb.version ≤ ddb.ops.length
  le_length : v ≤ ddb.ops.length
  ops_fit : ∀ op ∈ ddb.ops, op.Fits n

theorem Logged.editRow (h : ddb.Logged n v) {index : ℕ} {row : List UInt8} (hrow : row.length = n)
    (hedit : ddb.editRow n index row = some ddb') : ddb'.Logged n v := by
  simp only [DynamicDB.editRow, Option.bind_eq_bind, Option.bind_eq_some_iff,
    Option.some.injEq] at hedit
  obtain ⟨oldVal, -, db', hupdate, rfl⟩ := hedit
  obtain ⟨hrowLen, hversion⟩ := StaticDB.updateRow_counts hupdate
  have hlen := h.version_le
  have hle := h.le_length
  constructor
  · exact hrowLen.trans h.rowLen_eq
  · exact h.opInitVersion_eq
  · rw [List.length_append, List.length_singleton]
    dsimp only
    omega
  · rw [List.length_append]
    exact Nat.le_add_right_of_le hle
  · intro op hop
    cases List.mem_append.mp hop with
    | inl hold => exact h.ops_fit op hold
    | inr hnew =>
        rw [List.mem_singleton.mp hnew]
        exact ⟨length_copyRow n oldVal, hrow⟩

theorem Logged.editLoop {batch : List (ℕ × List UInt8)} (h : ddb.Logged n v)
    (hrows : ∀ e ∈ batch, e.2.length = n) (hloop : editLoop n batch ddb = some ddb') :
    ddb'.Logged n v := by
  induction batch generalizing ddb with
  | nil =>
      rw [DynamicDB.editLoop, Option.some.injEq] at hloop
      exact hloop ▸ h
  | cons e batch ih =>
      rw [DynamicDB.editLoop, Option.bind_eq_some_iff] at hloop
      obtain ⟨ddb₁, hedit, hrest⟩ := hloop
      have h₁ := h.editRow (hrows e List.mem_cons_self) hedit
      exact ih h₁ (fun e' he' => hrows e' (List.mem_cons_of_mem e he')) hrest

/-- `EditRows`, of rows inside the table and behind it. -/
theorem Logged.editRows {indices : List ℕ} {updated : List (List UInt8)}
    {r : Except String Unit} (h : ddb.Logged n v) (hrows : ∀ row ∈ updated, row.length = n)
    (hedit : ddb.editRows indices updated = some (r, ddb')) : ddb'.Logged n v := by
  rw [DynamicDB.editRows] at hedit
  split_ifs at hedit with hlen
  · rw [Option.some.injEq, Prod.mk.injEq] at hedit
    exact hedit.2 ▸ h
  · simp only [checkUpdateState_eq, Option.bind_eq_bind, Option.bind_eq_some_iff, Option.some.injEq,
      Prod.mk.injEq] at hedit
    obtain ⟨ddb₁, hloop, -, rfl⟩ := hedit
    have h₁ : ddb₁.Logged n v := by
      cases updated with
      | nil =>
          rw [List.zip_nil_right, DynamicDB.editLoop, Option.some.injEq] at hloop
          exact hloop ▸ h
      | cons row updated =>
          rw [List.headD_cons, hrows row List.mem_cons_self] at hloop
          exact h.editLoop (fun e he => hrows e.2 (List.of_mem_zip he).2) hloop
    exact ⟨h₁.rowLen_eq, h₁.opInitVersion_eq, h₁.version_le, h₁.le_length, h₁.ops_fit⟩

/-- **One change.** -/
theorem Logged.change {a : Change} {r : Except String Unit} (h : ddb.Logged n v)
    (hvalid : a.Valid n) (hchange : ddb.change a = some (r, ddb')) : ddb'.Logged n v := by
  cases a with
  | edit indices updated => exact h.editRows hvalid.2 hchange
  | append updated =>
      have hextended : (ddb.extended updated.length).Logged n v := by
        rw [extended]
        split_ifs
        · exact ⟨h.rowLen_eq, h.opInitVersion_eq, h.version_le, h.le_length, h.ops_fit⟩
        · exact h
      rw [DynamicDB.change, appendRows_eq, Option.bind_eq_some_iff] at hchange
      obtain ⟨⟨err, ddb₁⟩, hedit, hret⟩ := hchange
      have h₁ := hextended.editRows hvalid hedit
      cases err with
      | error e =>
          simp only [Option.some.injEq, Prod.mk.injEq] at hret
          exact hret.2 ▸ h₁
      | ok u =>
          simp only [Option.some.injEq, Prod.mk.injEq] at hret
          rw [← hret.2]
          exact ⟨h₁.rowLen_eq, h₁.opInitVersion_eq, h₁.version_le, h₁.le_length, h₁.ops_fit⟩

/-- **A run.** -/
theorem Logged.run {as : List Change} {os : List (Except String Unit)} (h : ddb.Logged n v)
    (hvalid : ∀ a ∈ as, a.Valid n) (hrun : runActions DynamicDB.change ddb as = some (os, ddb')) :
    ddb'.Logged n v :=
  runActions_invariant_of (Logged n v) (fun _ _ _ _ hs ha hstep => hs.change ha hstep) hvalid h hrun

theorem fromRows_logged {rows : List (List UInt8)} {numRows : ℕ}
    (h : fromRows rows numRows = some ddb) : ddb.Logged ddb.staticDb.rowLen 0 := by
  have hversion : ∀ db, StaticDB.fromRows rows = some db → db.version = 0 := by
    intro db hdb
    cases rows with
    | nil => rw [← Option.some.inj hdb]
    | cons row rows =>
        rw [StaticDB.fromRows] at hdb
        split_ifs at hdb
        rw [← Option.some.inj hdb]
  simp only [fromRows, Option.bind_eq_bind, Option.bind_eq_some_iff] at h
  obtain ⟨db, hdb, h⟩ := h
  split_ifs at h
  rw [← Option.some.inj h]
  exact ⟨rfl, rfl, (hversion db hdb).le, Nat.le_refl _, by simp⟩

end DynamicDB

/-- **Which replies are accepted.** A client is made from a state of a run, and asks for the updates
in a later state: the reply is accepted, and brings the client to the version of the database, if
and only if there is something in the log and every pending operation is on a row that the client
covers by then, or would with one chunk more. -/
theorem updateReply_accepted_iff (B : Build) {rows : List (List UInt8)} {numRows : ℕ}
    {ddb₀ ddb₁ ddb₂ : DynamicDB} {before after : List DynamicDB.Change}
    {os os' : List (Except String Unit)} {rnd : ℕ → UInt32} {req : SinglePassHintReq}
    (h₀ : DynamicDB.fromRows rows numRows = some ddb₀)
    (hbefore : ∀ a ∈ before, a.Valid ddb₀.staticDb.rowLen)
    (hrun₁ : runActions DynamicDB.change ddb₀ before = some (os, ddb₁))
    (hclient : (req.process B rnd ddb₁.staticDb).bind SinglePassHintResp.initClient = some c)
    (hafter : ∀ a ∈ after, a.Valid ddb₀.staticDb.rowLen)
    (hrun₂ : runActions DynamicDB.change ddb₁ after = some (os', ddb₂)) (draws : ℕ → ℕ → UInt32) :
    c.AcceptsReply B draws ddb₂ ↔ ddb₂.ops ≠ [] ∧
      WithinReach c.nHints c.nRows ((ddb₂.ops.drop c.currVersion).map UpdateOp.index) := by
  have h₁ := (DynamicDB.fromRows_logged h₀).run hbefore hrun₁
  obtain ⟨hshaped, -, hversion⟩ := client_shaped hclient
  have h₁' : ddb₁.Logged ddb₀.staticDb.rowLen c.currVersion :=
    { h₁ with le_length := hversion ▸ h₁.version_le }
  have h₂ := h₁'.run hafter hrun₂
  rw [h₁.rowLen_eq] at hshaped
  exact hshaped.acceptsReply_iff B draws h₂.opInitVersion_eq h₂.le_length h₂.ops_fit

/-- Two chunks of two rows, one of which is edited. -/
theorem updateReply_accepted_iff_edit :
    let c : SinglePassClient :=
      ⟨4, 1, 2, [[6], [2]], 2, [[1, 0], [1, 0]], [[1, 0], [1, 0]], 0⟩
    let ddb : DynamicDB := ⟨⟨4, 1, 1, [1, 9, 3, 4]⟩, [⟨1, [2], [9]⟩], 1, 0, 10000, 4, 2⟩
    c.AcceptsReply .avx2 (fun _ _ => 0) ddb ↔ ddb.ops ≠ [] ∧
      WithinReach 2 4 ((ddb.ops.drop 0).map UpdateOp.index) :=
  @updateReply_accepted_iff _ .avx2 [[1], [2], [3], [4]] 4
    ⟨⟨4, 1, 0, [1, 2, 3, 4]⟩, [], 0, 0, 10000, 4, 2⟩
    ⟨⟨4, 1, 0, [1, 2, 3, 4]⟩, [], 0, 0, 10000, 4, 2⟩ _ [] [.edit [1] [[9]]] [] [.ok ()] (fun _ => 0)
    ⟨2⟩ (by decide +kernel) (by simp) rfl (by decide +kernel) (by simp [DynamicDB.Change.Valid])
    (by decide +kernel) fun _ _ => 0

/-- Nothing has been logged, and the update function rejects the reply. -/
theorem empty_log_rejected :
    ∃ ddb c, DynamicDB.fromRows [[1], [2]] 2 = some ddb ∧
      (SinglePassHintReq.process .avx2 (fun _ => 0) ⟨1⟩ ddb.staticDb).bind
        SinglePassHintResp.initClient = some c ∧
      ¬c.AcceptsReply .avx2 (fun _ _ => 0) ddb := by
  refine ⟨⟨⟨2, 1, 0, [1, 2]⟩, [], 0, 0, 10000, 2, 2⟩,
    ⟨2, 1, 1, [[2], [1]], 2, [[1, 0]], [[1, 0]], 0⟩, by decide +kernel, by decide +kernel, ?_⟩
  rintro ⟨reply, c', hreply, haccept, -⟩
  have hempty : reply = .noOps := by simpa [SinglePassUpdateReq.getUpdates] using hreply.symm
  rw [hempty, SinglePassClient.updateFunc] at haccept
  simp at haccept

end SinglePassPIR.Pir
