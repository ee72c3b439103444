import SinglePassPIR.Pir.SinglePassRefine

/-!
# Incremental updates of the SinglePass client

`Update`, `GetUpdates` and `updateState`: the server returns the operations logged since
the client's version, and the client XORs the old and the new row of each of them into the
hint at the row's current position. An operation on a row past the end of the client's
chunks makes it grow by one chunk with a fresh permutation.

## Main results

* `updateOps_client` — if the hints match the rows before the operations, they match the
  rows after them.
* `update_client` — a complete update brings the hints to the server's current rows.
-/

namespace SinglePassPIR.Pir
open Psetggm

/-- `SinglePassUpdateReq` -/
structure SinglePassUpdateReq where
  currVersion : ℕ

/-- What `GetUpdates` returns: the empty slice of operations, which is not a
`*SinglePassUpdateResp`, or a response. -/
inductive UpdateReply
  | noOps
  | resp (newVersion : ℕ) (updates : List UpdateOp)

/-- `SinglePassUpdateReq.GetUpdates`; a version ahead of the log panics. -/
def SinglePassUpdateReq.getUpdates (updateReq : SinglePassUpdateReq) (ddb : DynamicDB) :
    Option (Except String UpdateReply) :=
  if updateReq.currVersion < ddb.opInitVersion then
    some (.error "Client version too old, client must redo preprocessing from scratch")
  else if ddb.ops = [] then some (.ok .noOps)
  else if updateReq.currVersion - ddb.opInitVersion ≤ ddb.ops.length then
    some (.ok (.resp ddb.currVersion
      (ddb.ops.drop (updateReq.currVersion - ddb.opInitVersion))))
  else none

/-- The growth of a client by one chunk, with a fresh permutation. -/
def SinglePassClient.grow (rnd : ℕ → UInt32) (c : SinglePassClient) : Option SinglePassClient := do
  let (newPerm, newInvPerm) ← singlePermutation rnd (List.replicate c.nHints 0)
    (List.replicate c.nHints 0) c.nHints
  some { c with
    nRows := c.nRows + c.nHints
    setSize := c.setSize + 1
    idxToSetIdx := c.idxToSetIdx ++ [newPerm]
    setIdxToIdx := c.setIdxToIdx ++ [newInvPerm] }

/-- The start of the loop of `updateState`: a row past the client's end makes it grow. -/
def SinglePassClient.cover (rnd : ℕ → UInt32) (c : SinglePassClient) (index : ℕ) :
    Option SinglePassClient :=
  if c.nRows ≤ index then c.grow rnd else some c

/-- The body of the loop of `updateState`. -/
def SinglePassClient.updateOp (B : Build) (rnd : ℕ → UInt32) (c : SinglePassClient)
    (op : UpdateOp) : Option SinglePassClient := do
  let c ← c.cover rnd op.index
  let (_, _, pos) ← c.findIndex op.index
  let c ← c.xorHint B pos op.oldData c.rowLen
  c.xorHint B pos op.newData c.rowLen

/-- The loop of `updateState`; operation `k` of it draws from `rnd k`. -/
def SinglePassClient.updateOps (B : Build) (rnd : ℕ → ℕ → UInt32) :
    ℕ → List UpdateOp → SinglePassClient → Option SinglePassClient
  | _, [], c => some c
  | k, op :: ops, c => (c.updateOp B (rnd k) op).bind (updateOps B rnd (k + 1) ops)

/-- `SinglePassClient.updateState` -/
def SinglePassClient.updateState (B : Build) (rnd : ℕ → ℕ → UInt32) (c : SinglePassClient)
    (newVersion : ℕ) (updates : List UpdateOp) : Option SinglePassClient := do
  let c ← SinglePassClient.updateOps B rnd 0 updates c
  some { c with currVersion := newVersion }

/-- `pirReader.Update` against one server. The error of the update function, for a reply of
the wrong type, is dropped. -/
def SinglePassClient.update (B : Build) (rnd : ℕ → ℕ → UInt32) (c : SinglePassClient)
    (ddb : DynamicDB) : Option (Except String Unit × SinglePassClient) := do
  match ← SinglePassUpdateReq.getUpdates ⟨c.currVersion⟩ ddb with
  | .error e => some (.error e, c)
  | .ok .noOps => some (.ok (), c)
  | .ok (.resp newVersion updates) =>
      let c ← c.updateState B rnd newVersion updates
      some (.ok (), c)

/-! ## Growth -/

/-- The number of rows that a client covers after the operations on the rows `indices`. -/
def coverage (H : ℕ) : ℕ → List ℕ → ℕ
  | rows, [] => rows
  | rows, i :: indices => coverage H (if rows ≤ i then rows + H else rows) indices

/-- Each operation is on a row that the client covers, or would cover with one more chunk. -/
def WithinReach (H : ℕ) : ℕ → List ℕ → Prop
  | _, [] => True
  | rows, i :: indices => i < rows + H ∧ WithinReach H (if rows ≤ i then rows + H else rows) indices

theorem coverage_append (H rows : ℕ) (is is' : List ℕ) :
    coverage H rows (is ++ is') = coverage H (coverage H rows is) is' := by
  induction is generalizing rows with
  | nil => rfl
  | cons i is ih => exact ih _

theorem withinReach_append (H rows : ℕ) (is is' : List ℕ) :
    WithinReach H rows (is ++ is') ↔ WithinReach H rows is ∧
      WithinReach H (coverage H rows is) is' := by
  induction is generalizing rows with
  | nil => simp [WithinReach, coverage]
  | cons i is ih => simp only [List.cons_append, WithinReach, coverage, ih, and_assoc]

theorem le_coverage (H rows : ℕ) (is : List ℕ) : rows ≤ coverage H rows is := by
  induction is generalizing rows with
  | nil => exact le_rfl
  | cons i is ih =>
      refine le_trans ?_ (ih _)
      split <;> omega

/-- Operations on covered rows are within reach and need no growth. -/
theorem coverage_of_lt {H rows : ℕ} {is : List ℕ} (h : ∀ i ∈ is, i < rows) :
    coverage H rows is = rows ∧ WithinReach H rows is := by
  induction is with
  | nil => exact ⟨rfl, trivial⟩
  | cons i is ih =>
      have hi := h i List.mem_cons_self
      have hrest := ih fun j hj => h j (List.mem_cons_of_mem i hj)
      simp only [coverage, WithinReach, if_neg (Nat.not_le.mpr hi)]
      exact ⟨hrest.1, by omega, hrest.2⟩

/-! ## Operations on the client of a hint table -/

namespace HintTable

variable {H n : ℕ} {t : HintTable (Fin H) (Bytes n)} {v : ℕ}

/-- The hints match the rows `row`, and the rows past the table's chunks are zero. -/
structure MatchesRows (t : HintTable (Fin H) (Bytes n)) (row : ℕ → Bytes n) : Prop where
  matches_row : t.Matches fun j x => row (j * H + x)
  row_eq_zero : ∀ i, t.chunks * H ≤ i → row i = 0

/-- A new chunk of zero rows. -/
theorem grow_client (rnd : ℕ → UInt32) {row : ℕ → Bytes n} (hH : 0 < H) (h32 : H < 2 ^ 32)
    (hm : t.MatchesRows row) : ∃ t' : HintTable (Fin H) (Bytes n),
      (t.client v).grow rnd = some (t'.client v) ∧ t'.chunks = t.chunks + 1 ∧
        (∀ j < t.chunks, t'.perm j = t.perm j) ∧ t'.MatchesRows row := by
  obtain ⟨σ, hσ⟩ := permute_spec rnd hH h32
  let t' : HintTable (Fin H) (Bytes n) :=
    ⟨t.chunks + 1, Function.update t.perm t.chunks σ, t.hint⟩
  have hold : ∀ j < t.chunks, t'.perm j = t.perm j := by
    intro j hj
    exact Function.update_of_ne hj.ne _ _
  have hnew : t'.perm t.chunks = σ := Function.update_self _ _ _
  have hne : List.replicate H 0 ≠ [] := List.ne_nil_of_length_pos (by simpa using hH)
  have hstore : storeAt (List.replicate H 0) 0 (permArray σ) = some (permArray σ) := by
    rw [storeAt_eq (by simp)]
    simp
  have hcut : ∀ g : ℕ → List ℕ, (List.range (t.chunks + 1)).map g =
      (List.range t.chunks).map g ++ [g t.chunks] := by
    intro g
    rw [List.range_succ, List.map_append, List.map_singleton]
  have hperms : (List.range t.chunks).map (fun j => permArray (t'.perm j)) =
      (List.range t.chunks).map fun j => permArray (t.perm j) :=
    List.map_congr_left fun j hj => by rw [hold j (List.mem_range.mp hj)]
  have hinvs : (List.range t.chunks).map (fun j => permArray (t'.perm j).symm) =
      (List.range t.chunks).map fun j => permArray (t.perm j).symm :=
    List.map_congr_left fun j hj => by rw [hold j (List.mem_range.mp hj)]
  refine ⟨t', ?_, rfl, hold, ?_, ?_⟩
  · have hinv := invertPermutation_eq σ (List.replicate H 0) (by simp)
    simp only [SinglePassClient.grow, client, singlePermutation, hne, or_self, if_false,
      cUint_eq h32, hσ, hstore, hinv, Option.bind_eq_bind, Option.bind_some]
    refine congrArg some ?_
    simp only [SinglePassClient.mk.injEq, true_and, and_true]
    refine ⟨(Nat.succ_mul _ _).symm, rfl, rfl, ?_, ?_⟩
    · rw [show t'.chunks = t.chunks + 1 from rfl, hcut, hperms, hnew]
    · rw [show t'.chunks = t.chunks + 1 from rfl, hcut, hinvs, hnew]
  · intro h
    change t.hint h = ∑ j ∈ Finset.range (t.chunks + 1), row (j * H + t'.perm j h)
    rw [Finset.sum_range_succ, hm.row_eq_zero _ (Nat.le_add_right _ _), add_zero,
      hm.matches_row h]
    refine Finset.sum_congr rfl ?_
    intro j hj
    rw [hold j (Finset.mem_range.mp hj)]
  · intro i hi
    refine hm.row_eq_zero i (le_trans ?_ hi)
    exact Nat.mul_le_mul_right H (Nat.le_succ _)

/-- The change of one row, XORed into the hint at its position. -/
theorem addHint_matches {row : ℕ → Bytes n} {j₀ : ℕ} {x : Fin H} (d : Bytes n)
    (hj₀ : j₀ < t.chunks) (hm : t.MatchesRows row) :
    (t.addHint ((t.perm j₀).symm x) d).MatchesRows
      fun i => row i + if j₀ * H + x = i then d else 0 := by
  constructor
  · intro h
    change Function.update t.hint _ _ h = ∑ j ∈ Finset.range t.chunks,
      (row (j * H + t.perm j h) + if j₀ * H + x = j * H + t.perm j h then d else 0)
    have hsame : ∀ j, j₀ * H + (x : ℕ) = j * H + t.perm j h ↔ j = j₀ ∧ h = (t.perm j₀).symm x := by
      intro j
      constructor
      · intro heq
        have hjj : j = j₀ := by
          have hdiv := congrArg (· / H) heq
          simp only [Nat.add_comm _ (Fin.val _), Nat.add_mul_div_right _ _ x.pos,
            Nat.div_eq_of_lt (Fin.is_lt _), Nat.zero_add] at hdiv
          exact hdiv.symm
        subst hjj
        refine ⟨rfl, ((Equiv.symm_apply_eq _).mpr (Fin.ext ?_)).symm⟩
        omega
      · rintro ⟨rfl, rfl⟩
        rw [Equiv.apply_symm_apply]
    simp only [hsame]
    rw [Finset.sum_add_distrib, ← hm.matches_row h, Function.update_apply]
    by_cases hh : h = (t.perm j₀).symm x
    · rw [if_pos hh, hh]
      simp only [and_true]
      rw [Finset.sum_ite_eq' _ j₀, if_pos (Finset.mem_range.mpr hj₀)]
    · rw [if_neg hh]
      simp only [hh, and_false, if_false, Finset.sum_const_zero, add_zero]
  · intro i hi
    have hend := block_end_le (w := H) hj₀
    have hx := x.isLt
    change t.chunks * H ≤ i at hi
    rw [hm.row_eq_zero i hi, if_neg (by omega), add_zero]

/-- **One operation.** The client ends up with the hints of the changed rows, and with one
chunk more if the row was past its end. -/
theorem updateOp_client (B : Build) (rnd : ℕ → UInt32) {row : ℕ → Bytes n} {op : UpdateOp}
    (hn : 0 < n) (h32 : n < 2 ^ 32) (hH : 0 < H) (hH32 : H < 2 ^ 32) (hop : op.Fits n)
    (hreach : op.index < t.chunks * H + H) (hm : t.MatchesRows row) :
    ∃ t' : HintTable (Fin H) (Bytes n),
      (t.client v).updateOp B rnd op = some (t'.client v) ∧
        t'.chunks * H = (if t.chunks * H ≤ op.index then t.chunks * H + H else t.chunks * H) ∧
        (∀ j < t.chunks, t'.perm j = t.perm j) ∧
        t'.MatchesRows fun i => row i + op.change n i := by
  have hrows : (t.client v).nRows = t.chunks * H := rfl
  -- the table before the two XORs, with the row in range
  have hgrow : ∃ t₁ : HintTable (Fin H) (Bytes n),
      (t.client v).cover rnd op.index = some (t₁.client v) ∧
      t₁.chunks * H = (if t.chunks * H ≤ op.index then t.chunks * H + H else t.chunks * H) ∧
      op.index < t₁.chunks * H ∧ (∀ j < t.chunks, t₁.perm j = t.perm j) ∧
      t₁.MatchesRows row := by
    rw [SinglePassClient.cover, hrows]
    by_cases hpast : t.chunks * H ≤ op.index
    · obtain ⟨t₁, hg, hc, hp, hm₁⟩ := grow_client (v := v) rnd hH hH32 hm
      have hmul : t₁.chunks * H = t.chunks * H + H := by rw [hc, Nat.succ_mul]
      exact ⟨t₁, by rw [if_pos hpast, hg], by rw [if_pos hpast, hmul], by omega, hp, hm₁⟩
    · exact ⟨t, if_neg hpast, by rw [if_neg hpast], by omega, fun _ _ => rfl, hm⟩
  obtain ⟨t₁, hgrow, hc, hlt, hp, hm₁⟩ := hgrow
  have hj₀ : op.index / H < t₁.chunks := (Nat.div_lt_iff_lt_mul hH).mpr hlt
  let x : Fin H := ⟨op.index % H, Nat.mod_lt _ hH⟩
  have hidx : op.index / H * H + (x : ℕ) = op.index := Nat.div_add_mod' op.index H
  have hfind := findIndex_client (v := v) hj₀ x
  rw [hidx] at hfind
  let pos := (t₁.perm (op.index / H)).symm x
  have hchange : ∀ i, (if op.index / H * H + (x : ℕ) = i then
      rowAt n op.oldData 0 + rowAt n op.newData 0 else 0) = op.change n i := by
    intro i
    rw [hidx, UpdateOp.change]
  have hm₂ := addHint_matches (x := x) (rowAt n op.oldData 0 + rowAt n op.newData 0) hj₀ hm₁
  simp only [hchange] at hm₂
  have hadd : (t₁.addHint pos (rowAt n op.oldData 0)).addHint pos (rowAt n op.newData 0) =
      t₁.addHint pos (rowAt n op.oldData 0 + rowAt n op.newData 0) := by
    simp only [addHint, Function.update_self, Function.update_idem, add_assoc]
  refine ⟨t₁.addHint pos (rowAt n op.oldData 0 + rowAt n op.newData 0), ?_, hc, hp, hm₂⟩
  have hold := xorHint_client (t := t₁) (v := v) B hn h32 pos (rowAt n op.oldData 0)
  have hnew := xorHint_client (t := t₁.addHint pos (rowAt n op.oldData 0)) (v := v) B hn h32 pos
    (rowAt n op.newData 0)
  rw [toList_rowAt_zero hop.oldData_length] at hold
  rw [toList_rowAt_zero hop.newData_length, hadd] at hnew
  have hlen : ∀ u : HintTable (Fin H) (Bytes n), (u.client v).rowLen = n := fun _ => rfl
  simp only [SinglePassClient.updateOp, hgrow, hfind, hlen, Option.bind_eq_bind, Option.bind_some]
  rw [hold, Option.bind_some, hlen, hnew]

/-- **A list of operations**, each within reach of the client. -/
theorem updateOps_client (B : Build) (rnd : ℕ → ℕ → UInt32) {row : ℕ → Bytes n}
    {ops : List UpdateOp} (k : ℕ) (hn : 0 < n) (h32 : n < 2 ^ 32) (hH : 0 < H)
    (hH32 : H < 2 ^ 32) (hops : ∀ op ∈ ops, op.Fits n)
    (hreach : WithinReach H (t.chunks * H) (ops.map UpdateOp.index)) (hm : t.MatchesRows row) :
    ∃ t' : HintTable (Fin H) (Bytes n),
      SinglePassClient.updateOps B rnd k ops (t.client v) = some (t'.client v) ∧
        t'.chunks * H = coverage H (t.chunks * H) (ops.map UpdateOp.index) ∧
        (∀ j < t.chunks, t'.perm j = t.perm j) ∧
        t'.MatchesRows fun i => row i + changes n ops i := by
  induction ops generalizing t row k with
  | nil =>
      refine ⟨t, rfl, rfl, fun _ _ => rfl, ?_⟩
      simpa only [changes_nil, add_zero] using hm
  | cons op ops ih =>
      rw [List.map_cons, WithinReach] at hreach
      obtain ⟨t₁, hop, hc, hp, hm₁⟩ := updateOp_client (v := v) B (rnd k) hn h32 hH hH32
        (hops op List.mem_cons_self) hreach.1 hm
      obtain ⟨t', hrest, hc', hp', hm'⟩ := ih (k + 1)
        (fun op' hop' => hops op' (List.mem_cons_of_mem op hop')) (hc ▸ hreach.2) hm₁
      have hle : t.chunks ≤ t₁.chunks := by
        refine Nat.le_of_mul_le_mul_right ?_ hH
        rw [hc]
        split <;> omega
      refine ⟨t', ?_, ?_, ?_, ?_⟩
      · rw [SinglePassClient.updateOps, hop, Option.bind_some, hrest]
      · rw [hc', hc, List.map_cons, coverage]
      · intro j hj
        rw [hp' j (hj.trans_le hle), hp j hj]
      · simpa only [changes_cons, add_assoc] using hm'

/-- **A complete update.** A client whose hints match the rows at its version, and whose
pending operations are within reach, ends up at the server's version with hints that match
the server's current rows. -/
theorem update_client (B : Build) (rnd : ℕ → ℕ → UInt32) {ddb : DynamicDB} (hn : 0 < n)
    (h32 : n < 2 ^ 32) (hH : 0 < H) (hH32 : H < 2 ^ 32) (hwf : ddb.WF n)
    (hv : v ≤ ddb.ops.length)
    (hreach : WithinReach H (t.chunks * H) ((ddb.ops.drop v).map UpdateOp.index))
    (hm : t.MatchesRows (ddb.rowAtVersion n v)) : ∃ t' : HintTable (Fin H) (Bytes n),
      (t.client v).update B rnd ddb = some (.ok (), t'.client ddb.currVersion) ∧
        t'.chunks * H = coverage H (t.chunks * H) ((ddb.ops.drop v).map UpdateOp.index) ∧
        (∀ j < t.chunks, t'.perm j = t.perm j) ∧
        t'.MatchesRows (ddb.staticDb.get n) := by
  obtain ⟨t', hops, hc, hp, hm'⟩ := updateOps_client (v := v) B rnd 0 hn h32 hH hH32
    (fun op hop => hwf.ops_fit op (List.mem_of_mem_drop hop)) hreach hm
  have hcur : (fun i => ddb.rowAtVersion n v i + changes n (ddb.ops.drop v) i) =
      ddb.staticDb.get n := by
    funext i
    rw [DynamicDB.rowAtVersion, add_assoc, XorGroup.add_self, add_zero]
  rw [hcur] at hm'
  have hver : (t.client v).currVersion = v := rfl
  by_cases hempty : ddb.ops = []
  · -- nothing has ever been logged: the client is left as it is
    have hv0 : v = ddb.currVersion := by
      rw [hempty, List.length_nil] at hv
      rw [hwf.currVersion_eq, hempty, List.length_nil]
      omega
    rw [hempty, List.drop_nil, SinglePassClient.updateOps, Option.some.injEq] at hops
    refine ⟨t', ?_, hc, hp, hm'⟩
    rw [SinglePassClient.update, SinglePassUpdateReq.getUpdates, hwf.opInitVersion_eq,
      if_neg (Nat.not_lt_zero _), if_pos hempty, hops, ← hv0]
    rfl
  · refine ⟨t', ?_, hc, hp, hm'⟩
    have hget : SinglePassUpdateReq.getUpdates ⟨v⟩ ddb =
        some (.ok (.resp ddb.currVersion (ddb.ops.drop v))) := by
      rw [SinglePassUpdateReq.getUpdates, hwf.opInitVersion_eq, if_neg (Nat.not_lt_zero _),
        if_neg hempty, Nat.sub_zero, if_pos hv]
    simp only [SinglePassClient.update, hver, hget, SinglePassClient.updateState, hops,
      Option.bind_eq_bind, Option.bind_some]
    rfl

end HintTable

end SinglePassPIR.Pir
