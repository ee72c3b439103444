import SinglePassPIR.Lib.Run
import SinglePassPIR.Pir.SinglePassUpdate
import SinglePassPIR.Pir.StaticRuns

/-!
# Runs of a client against a dynamic database

The server edits rows and appends rows, the client reads and updates. The state of a run
remembers whether the server has changed since the client's last update; this flag is
not part of the program, and the statements use it to say when a read is fresh.

## Main results

* `update_equals_recomputation` — with fresh reads only, every update brings the hints to
  the server's current rows, whatever edits were made since the last one.
* `update_correct_of_unchanged` — a read made while the client is behind does no harm if
  none of the rows that it asks the servers for has changed since the client's version.
-/

namespace SinglePassPIR.Pir
open Psetggm

variable {H n : ℕ}

/-- A server and a client; `stale` if the server has changed since the client's update. -/
structure DynamicState where
  ddb : DynamicDB
  client : SinglePassClient
  stale : Bool

/-- What happens in a run, with the random choices of the client. -/
inductive DynamicAction (H n : ℕ)
  | edit (batch : List (ℕ × Bytes n))
  | append (rows : List (Bytes n))
  | update (rnd : ℕ → ℕ → UInt32)
  | read (i : ℤ) (swaps : ℕ → Fin H)

/-- One step of a run; a read outputs its result. -/
def DynamicState.step (B : Build) (s : DynamicState) :
    DynamicAction H n → Option (Option (Except String (List UInt8)) × DynamicState)
  | .edit batch => do
      let (_, ddb) ← s.ddb.editRows (batch.map Prod.fst) (batch.map fun e => e.2.toList)
      some (none, { s with ddb, stale := true })
  | .append rows => do
      let (_, ddb) ← s.ddb.appendRows (rows.map Bytes.toList)
      some (none, { s with ddb, stale := true })
  | .update rnd => do
      let (_, client) ← s.client.update B rnd s.ddb
      some (none, { s with client, stale := false })
  | .read i swaps => do
      let (out, client) ← s.client.read B s.ddb.staticDb i fun j => swaps j
      some (some out, { s with client })

/-- The databases that the server can hold: built from rows, then changed by edits of its
rows and by appends that fit into the table after its one extension. -/
inductive DynamicDB.Reachable (n : ℕ) : DynamicDB → Prop
  | init (rows : List (Bytes n)) (ddb : DynamicDB)
      (h : DynamicDB.fromRows (rows.map Bytes.toList) rows.length = some ddb) : Reachable n ddb
  | edit (ddb ddb' : DynamicDB) (batch : List (ℕ × Bytes n)) (hr : Reachable n ddb)
      (hb : ∀ e ∈ batch, e.1 < ddb.staticDb.numRows)
      (h : ddb.editRows (batch.map Prod.fst) (batch.map fun e => e.2.toList) =
        some (.ok (), ddb')) : Reachable n ddb'
  | append (ddb ddb' : DynamicDB) (rows : List (Bytes n)) (hr : Reachable n ddb)
      (hb : ddb.realSizeDB + rows.length ≤ ddb.appendedNumRows rows.length)
      (h : ddb.appendRows (rows.map Bytes.toList) = some (.ok (), ddb')) : Reachable n ddb'

/-- A reachable database is well formed. -/
theorem DynamicDB.Reachable.wf {ddb : DynamicDB} (h : ddb.Reachable n) : ddb.WF n := by
  induction h with
  | init rows ddb h =>
      cases rows with
      | nil => simp [DynamicDB.fromRows, StaticDB.fromRows, intSqrt] at h
      | cons x rows =>
          obtain ⟨ddb', h', hwf, -⟩ := DynamicDB.fromRows_spec (x :: rows) (List.cons_ne_nil x rows)
          rw [h, Option.some.injEq] at h'
          exact h' ▸ hwf
  | edit ddb ddb' batch _ hb h ih =>
      obtain ⟨ddb'', h', hed⟩ := DynamicDB.editRows_spec ih batch hb
      rw [h, Option.some.injEq, Prod.mk.injEq] at h'
      exact h'.2 ▸ hed.wf
  | append ddb ddb' rows _ hb h ih =>
      obtain ⟨ddb'', h', hwf, -⟩ := DynamicDB.appendRows_spec ih rows hb
      rw [h, Option.some.injEq, Prod.mk.injEq] at h'
      exact h'.2 ▸ hwf

/-! ## A client behind its server -/

/-- The client represents a table whose hints match the rows at the client's version, and
the pending operations are within its reach. -/
structure Behind (H n : ℕ) (s : DynamicState) (t : HintTable (Fin H) (Bytes n)) (v : ℕ) :
    Prop where
  client_eq : s.client = t.client v
  wf : s.ddb.WF n
  version_le : v ≤ s.ddb.ops.length
  reach : WithinReach H (t.chunks * H) ((s.ddb.ops.drop v).map UpdateOp.index)
  matches_rows : t.MatchesRows (s.ddb.rowAtVersion n v)
  fresh : s.stale = false → v = s.ddb.ops.length

/-- The rows that a read of row `i` asks the two servers for: in each chunk the row at the
swap position and, except in the chunk of `i`, the row at the position of the column. -/
def SinglePassClient.askedRows (c : SinglePassClient) (i : ℕ) (swaps : ℕ → ℕ) : List ℕ :=
  let pos := (c.setIdxToIdx.getD (i / c.nHints) []).getD (i % c.nHints) 0
  (List.range c.setSize).flatMap fun j =>
    let perm := c.idxToSetIdx.getD j []
    (j * c.nHints + perm.getD (swaps j) 0) ::
      if j = i / c.nHints then [] else [j * c.nHints + perm.getD pos 0]

/-- None of the rows that the read asks for has changed since the client's version. -/
def AskedUnchanged (n : ℕ) (s : DynamicState) (i : ℤ) (swaps : ℕ → Fin H) : Prop :=
  ∀ k ∈ s.client.askedRows (i % (s.client.nRows : ℤ)).toNat fun j => swaps j,
    changes n (s.ddb.ops.drop s.client.currVersion) k = 0

section Steps
variable {v : ℕ} {s : DynamicState} {t : HintTable (Fin H) (Bytes n)}

theorem HintTable.mem_askedRows (r : ℕ → Fin H) {j₀ j : ℕ} {x : Fin H} (hj₀ : j₀ < t.chunks)
    (hj : j < t.chunks) :
    j * H + (t.perm j (r j) : ℕ) ∈ (t.client v).askedRows (j₀ * H + x) (fun j => r j) ∧
      j * H + (t.perm j (onlinePos j₀ ((t.perm j₀).symm x) r j) : ℕ) ∈
        (t.client v).askedRows (j₀ * H + x) (fun j => r j) := by
  have hdiv : (j₀ * H + (x : ℕ)) / H = j₀ := by
    rw [Nat.add_comm, Nat.add_mul_div_right _ _ x.pos, Nat.div_eq_of_lt x.isLt, Nat.zero_add]
  have hmod : (j₀ * H + (x : ℕ)) % H = x := by
    rw [Nat.add_comm, Nat.add_mul_mod_self_right, Nat.mod_eq_of_lt x.isLt]
  have hperm : (t.client v).idxToSetIdx.getD j [] = permArray (t.perm j) := by
    rw [List.getD_eq_getElem?_getD, getElem?_idxToSetIdx hj, Option.getD_some]
  have hinv : (t.client v).setIdxToIdx.getD j₀ [] = permArray (t.perm j₀).symm := by
    rw [List.getD_eq_getElem?_getD, getElem?_setIdxToIdx hj₀, Option.getD_some]
  have hcell : ∀ (σ : Equiv.Perm (Fin H)) (y : Fin H), (permArray σ).getD y 0 = σ y := by
    intro σ y
    rw [List.getD_eq_getElem?_getD, getElem?_permArray, Option.getD_some]
  have hnH : (t.client v).nHints = H := rfl
  have hset : (t.client v).setSize = t.chunks := rfl
  simp only [SinglePassClient.askedRows, hnH, hset, hdiv, hmod, hinv, hcell, List.mem_flatMap,
    List.mem_range]
  refine ⟨⟨j, hj, ?_⟩, ⟨j, hj, ?_⟩⟩
  · rw [hperm, hcell]
    exact List.mem_cons_self
  · rw [hperm, hcell, hcell, onlinePos]
    by_cases hjj : j = j₀
    · rw [if_pos hjj, if_pos hjj]
      exact List.mem_cons_self
    · rw [if_neg hjj, if_neg hjj]
      exact List.mem_cons_of_mem _ List.mem_cons_self

/-- A change of the server that leaves the rows at the client's version as they are. -/
theorem Behind.serverStep (h : Behind H n s t v) {ddb' : DynamicDB} {indices : List ℕ}
    (hwf : ddb'.WF n) (hle : s.ddb.ops.length ≤ ddb'.ops.length)
    (hidx : ddb'.ops.map UpdateOp.index = s.ddb.ops.map UpdateOp.index ++ indices)
    (hreach : WithinReach H
      (coverage H (t.chunks * H) ((s.ddb.ops.drop v).map UpdateOp.index)) indices)
    (hrows : ∀ w ≤ s.ddb.ops.length, ∀ i, ddb'.rowAtVersion n w i = s.ddb.rowAtVersion n w i) :
    Behind H n { s with ddb := ddb', stale := true } t v ∧
      (ddb'.ops.drop v).map UpdateOp.index =
        (s.ddb.ops.drop v).map UpdateOp.index ++ indices := by
  have hlen : v ≤ (s.ddb.ops.map UpdateOp.index).length := by
    rw [List.length_map]; exact h.version_le
  have hpend : (ddb'.ops.drop v).map UpdateOp.index =
      (s.ddb.ops.drop v).map UpdateOp.index ++ indices := by
    rw [List.map_drop, hidx, List.drop_append_of_le_length hlen, List.map_drop]
  refine ⟨⟨h.client_eq, hwf, h.version_le.trans hle, ?_, ?_, ?_⟩, hpend⟩
  · change WithinReach H (t.chunks * H) ((ddb'.ops.drop v).map UpdateOp.index)
    rw [hpend, withinReach_append]
    exact ⟨h.reach, hreach⟩
  · have hver : ddb'.rowAtVersion n v = s.ddb.rowAtVersion n v := by
      funext i
      exact hrows v h.version_le i
    exact hver ▸ h.matches_rows
  · intro hstale
    exact Bool.noConfusion hstale

/-- An update catches up with the server. -/
theorem Behind.update (B : Build) (rnd : ℕ → ℕ → UInt32) (hn : 0 < n) (h32 : n < 2 ^ 32)
    (hH : 0 < H) (hH32 : H < 2 ^ 32) (h : Behind H n s t v) :
    ∃ t' : HintTable (Fin H) (Bytes n),
      s.step B (.update rnd : DynamicAction H n) =
        some (none, ⟨s.ddb, t'.client s.ddb.currVersion, false⟩) ∧
      Behind H n ⟨s.ddb, t'.client s.ddb.currVersion, false⟩ t' s.ddb.currVersion ∧
      t'.chunks * H = coverage H (t.chunks * H) ((s.ddb.ops.drop v).map UpdateOp.index) ∧
      (∀ j < t.chunks, t'.perm j = t.perm j) ∧ t'.MatchesRows (s.ddb.staticDb.get n) := by
  obtain ⟨t', hupd, hc, hp, hm⟩ := HintTable.update_client B rnd hn h32 hH hH32 h.wf h.version_le
    h.reach h.matches_rows
  have hcur : s.ddb.rowAtVersion n s.ddb.currVersion = s.ddb.staticDb.get n := by
    funext i
    rw [DynamicDB.rowAtVersion, h.wf.currVersion_eq, List.drop_length, changes_nil, add_zero]
  refine ⟨t', ?_, ⟨rfl, h.wf, h.wf.currVersion_eq.le, ?_, ?_, fun _ => h.wf.currVersion_eq⟩, hc, hp,
    hm⟩
  · simp only [DynamicState.step, h.client_eq, hupd, Option.bind_eq_bind, Option.bind_some]
  · change WithinReach H (t'.chunks * H) ((s.ddb.ops.drop s.ddb.currVersion).map UpdateOp.index)
    rw [h.wf.currVersion_eq, List.drop_length]
    trivial
  · rw [hcur]
    exact hm

/-- **A read, fresh or not**, that asks the servers for rows as they are at the client's
version. The client stays where it was, and the row is the one at the client's version. -/
theorem Behind.read (B : Build) (i : ℤ) (swaps : ℕ → Fin H) (hn : 0 < n) (h32 : n < 2 ^ 32)
    (hS : 0 < t.chunks) (h31 : t.chunks < 2 ^ 31) (h : Behind H n s t v)
    (hwidth : s.ddb.staticDb.numRows / t.chunks = H)
    (hsafe : s.stale = false ∨ AskedUnchanged n s i swaps) :
    ∃ t' : HintTable (Fin H) (Bytes n),
      s.step B (.read i swaps : DynamicAction H n) =
        some (some (.ok (s.ddb.rowAtVersion n v
          (i % ((t.chunks * H : ℕ) : ℤ)).toNat).toList), { s with client := t'.client v }) ∧
      Behind H n { s with client := t'.client v } t' v ∧ t'.chunks = t.chunks := by
  have hH : 0 < H := (swaps 0).pos
  obtain ⟨j₀, hj₀, x, hi⟩ := HintTable.exists_column (t := t) i hH hS
  obtain ⟨a₀, a₁, ha, hread⟩ := HintTable.read_client (v := v) B swaps hn h32 h31 h.wf.static hwidth
    hj₀ hi
  -- the rows at the client's version are the rows that the servers answer with
  have hasked : ∀ k ∈ (t.client v).askedRows (j₀ * H + x) (fun j => swaps j),
      s.ddb.staticDb.get n k = s.ddb.rowAtVersion n v k := by
    intro k hk
    rcases hsafe with hfresh | hun
    · rw [DynamicDB.rowAtVersion, h.fresh hfresh, List.drop_length, changes_nil, add_zero]
    · have hrows : s.client.nRows = t.chunks * H := by rw [h.client_eq]; rfl
      have hver : s.client.currVersion = v := by rw [h.client_eq]; rfl
      have hzero := hun k (by rwa [hrows, hi, Int.toNat_natCast, h.client_eq])
      rw [hver] at hzero
      rw [DynamicDB.rowAtVersion, hzero, add_zero]
  have ha' : t.Answers (fun j x => s.ddb.rowAtVersion n v (j * H + x)) j₀ ((t.perm j₀).symm x)
      swaps a₀ a₁ := by
    constructor
    · intro j hj
      rw [ha.offline j hj]
      exact hasked _ (HintTable.mem_askedRows swaps hj₀ hj).1
    · intro j hj
      rw [ha.online j hj]
      exact hasked _ (HintTable.mem_askedRows swaps hj₀ hj).2
  have hout := HintTable.recovered_eq h.matches_rows.matches_row ha' hj₀
  rw [Equiv.apply_symm_apply] at hout
  refine ⟨t.refresh j₀ ((t.perm j₀).symm x) swaps a₀ a₁, ?_, ⟨rfl, h.wf, h.version_le, h.reach,
    ⟨HintTable.refresh_matches h.matches_rows.matches_row ha' hj₀, h.matches_rows.row_eq_zero⟩,
    h.fresh⟩, rfl⟩
  simp only [DynamicState.step, h.client_eq, hread, hout, hi, Int.toNat_natCast,
    Option.bind_eq_bind, Option.bind_some]

end Steps

/-! ## Edits -/

/-- The edits of a run are edits of rows of the table, and there are no appends. -/
def EditsInRange (s : DynamicState) : DynamicAction H n → Prop
  | .edit batch => ∀ e ∈ batch, e.1 < s.ddb.staticDb.numRows
  | .append _ => False
  | .update _ => True
  | .read _ _ => True

/-- No read happens between an edit and the next update. -/
def FreshReads (s : DynamicState) : DynamicAction H n → Prop
  | .read _ _ => s.stale = false
  | _ => True

instance (s : DynamicState) : (a : DynamicAction H n) → Decidable (EditsInRange s a)
  | .edit batch => inferInstanceAs (Decidable (∀ e ∈ batch, e.1 < s.ddb.staticDb.numRows))
  | .append _ => isFalse id
  | .update _ => isTrue trivial
  | .read _ _ => isTrue trivial

/-- A read between an edit and the next update asks only for rows that have not changed
since the client's version. -/
def SafeReads (s : DynamicState) : DynamicAction H n → Prop
  | .read i swaps => s.stale = false ∨ AskedUnchanged n s i swaps
  | _ => True

/-- After an update the client is at the server's version, its hints are the XORs of the
server's current rows, and its permutations are as before; a fresh read returns the
server's current row. -/
def StepCorrect (S : ℕ) (s : DynamicState) (a : DynamicAction H n)
    (out : Option (Except String (List UInt8))) (s' : DynamicState) : Prop :=
  match a with
  | .update _ => s'.client.HintInvariant S H n s'.ddb.staticDb ∧
      s'.client.currVersion = s'.ddb.currVersion ∧
      s'.client.idxToSetIdx = s.client.idxToSetIdx ∧
      s'.client.setIdxToIdx = s.client.setIdxToIdx
  | .read i _ => s.stale = false → ∃ row,
      s.ddb.staticDb.row (i % (s.ddb.staticDb.numRows : ℤ)).toNat = some row ∧
        out = some (.ok row)
  | _ => True

/-- The invariant of a run without appends: the table keeps its `S` chunks. -/
def EditInv (S H n : ℕ) (s : DynamicState) : Prop :=
  ∃ (t : HintTable (Fin H) (Bytes n)) (v : ℕ), Behind H n s t v ∧ t.chunks = S ∧
    s.ddb.staticDb.numRows = S * H ∧ ∀ i ∈ (s.ddb.ops.drop v).map UpdateOp.index, i < S * H

/-- One step of a run without appends. -/
theorem editStep_spec (B : Build) {S : ℕ} (hS : 0 < S) (hH : 0 < H) (hn : 0 < n)
    (hfit : KernelFits S H n) (s : DynamicState) (a : DynamicAction H n)
    (hinv : EditInv S H n s) (hG : EditsInRange s a ∧ SafeReads s a) :
    ∃ out s', s.step B a = some (out, s') ∧ StepCorrect S s a out s' ∧ EditInv S H n s' := by
  obtain ⟨t, v, h, rfl, hnum, hidx⟩ := hinv
  have h32 := hfit.rowLen_lt hH
  have hH32 : H < 2 ^ 32 := hfit.nHints_lt.trans (by decide)
  obtain ⟨hrange, hsafe⟩ := hG
  cases a with
  | edit batch =>
      obtain ⟨ddb', hedit, hed⟩ := DynamicDB.editRows_spec h.wf batch hrange
      have hbatch : ∀ i ∈ batch.map Prod.fst, i < t.chunks * H := by
        intro i hi
        obtain ⟨e, he, rfl⟩ := List.mem_map.mp hi
        exact hnum ▸ hrange e he
      obtain ⟨h', hpend⟩ := h.serverStep hed.wf hed.le_length hed.indices_eq (by
        rw [(coverage_of_lt hidx).1]
        exact (coverage_of_lt hbatch).2) hed.rowAtVersion_eq
      refine ⟨none, _, ?_, trivial, t, v, h', rfl, hed.numRows_eq.trans hnum, ?_⟩
      · simp only [DynamicState.step, hedit, Option.bind_eq_bind, Option.bind_some]
      · change ∀ i ∈ (ddb'.ops.drop v).map UpdateOp.index, i < t.chunks * H
        intro i hi
        rw [hpend] at hi
        rcases List.mem_append.mp hi with hi | hi
        · exact hidx i hi
        · exact hbatch i hi
  | append rows => exact absurd hrange id
  | update rnd =>
      obtain ⟨t', hstep, h', hc, hp, hm⟩ := h.update B rnd hn h32 hH hH32
      rw [(coverage_of_lt hidx).1] at hc
      have hchunks : t'.chunks = t.chunks := Nat.eq_of_mul_eq_mul_right hH hc
      have hdrop : s.ddb.ops.drop s.ddb.currVersion = [] := by
        rw [h.wf.currVersion_eq, List.drop_length]
      refine ⟨none, _, hstep, ⟨⟨t', _, rfl, hchunks, hm.matches_row⟩, rfl, ?_, ?_⟩, t', _, h',
        hchunks, hnum, ?_⟩
      · rw [h.client_eq]
        change (List.range t'.chunks).map _ = (List.range t.chunks).map _
        rw [hchunks]
        exact List.map_congr_left fun j hj => by rw [hp j (List.mem_range.mp hj)]
      · rw [h.client_eq]
        change (List.range t'.chunks).map _ = (List.range t.chunks).map _
        rw [hchunks]
        exact List.map_congr_left fun j hj => by rw [hp j (List.mem_range.mp hj)]
      · change ∀ i ∈ (s.ddb.ops.drop s.ddb.currVersion).map UpdateOp.index, i < t.chunks * H
        rw [hdrop]
        exact fun i hi => absurd hi List.not_mem_nil
  | read i swaps =>
      have hwidth : s.ddb.staticDb.numRows / t.chunks = H := by
        rw [hnum, Nat.mul_div_cancel_left H hS]
      obtain ⟨t', hstep, h', hc⟩ := h.read B i swaps hn h32 hS hfit.setSize_lt hwidth hsafe
      refine ⟨_, _, hstep, ?_, t', v, h', hc, hnum, hidx⟩
      intro hfresh
      have hpos : (0 : ℤ) < ((t.chunks * H : ℕ) : ℤ) := by exact_mod_cast Nat.mul_pos hS hH
      have hlt := Int.emod_lt_of_pos i hpos
      have hnn := Int.emod_nonneg i hpos.ne'
      refine ⟨_, StaticDB.row_eq h.wf.static (by rw [hnum]; omega), ?_⟩
      rw [DynamicDB.rowAtVersion, h.fresh hfresh, List.drop_length, changes_nil, add_zero, hnum]

/-- A client that was initialised from a database is level with it. -/
theorem editInv_init (B : Build) (rnd : ℕ → UInt32) {S : ℕ} {ddb : DynamicDB}
    (req : SinglePassHintReq) (hS : 0 < S) (hH : 0 < H) (hn : 0 < n) (hfit : KernelFits S H n)
    (hwf : ddb.WF n) (hrows : ddb.staticDb.numRows = S * H)
    (hreq : (if req.setSize ≠ 0 then req.setSize else intSqrt ddb.staticDb.numRows) = S) :
    ∃ (resp : SinglePassHintResp) (t : HintTable (Fin H) (Bytes n)),
      req.process B rnd ddb.staticDb = some resp ∧
      resp.initClient = some (t.client ddb.ops.length) ∧ t.chunks = S ∧
      Behind H n ⟨ddb, t.client ddb.ops.length, false⟩ t ddb.ops.length := by
  obtain ⟨resp, t, hproc, hinit, hc, hm⟩ := hint_spec B rnd req hS hH hn hfit hwf.static hrows hreq
  rw [hwf.version_eq] at hinit
  refine ⟨resp, t, hproc, hinit, hc, rfl, hwf, le_rfl, ?_, ⟨?_, ?_⟩, fun _ => rfl⟩
  · change WithinReach H (t.chunks * H) ((ddb.ops.drop ddb.ops.length).map UpdateOp.index)
    rw [List.drop_length]
    trivial
  · intro h
    simp only [DynamicDB.rowAtVersion, List.drop_length, changes_nil, add_zero]
    exact hm h
  · intro i hi
    rw [DynamicDB.rowAtVersion, List.drop_length, changes_nil, add_zero]
    exact StaticDB.get_of_le hwf.static (by rw [hrows, ← hc]; exact hi)

/-- The preprocessing of a dynamic database succeeds, and from its client every run under the
guard `G` is correct at every step. -/
def DynamicRunsCorrectly (B : Build) (rnd : ℕ → UInt32) (S H n : ℕ) (ddb : DynamicDB)
    (G : DynamicState → DynamicAction H n → Prop) : Prop :=
  ∃ resp c, SinglePassHintReq.process B rnd ⟨S⟩ ddb.staticDb = some resp ∧
    resp.initClient = some c ∧ c.HintInvariant S H n ddb.staticDb ∧
    ∀ as : List (DynamicAction H n),
      AlwaysUnder (DynamicState.step B) G (StepCorrect S) ⟨ddb, c, false⟩ as

/-- **Reads of unchanged rows do no harm.** If every read made while the client is behind
asks the servers only for rows that have not changed since the client's version, then after
every update the hints are those of the server's current rows, and every read that follows
returns the current row. -/
theorem update_correct_of_unchanged (B : Build) (rnd : ℕ → UInt32) {S : ℕ} {ddb : DynamicDB}
    (hS : 0 < S) (hH : 0 < H) (hn : 0 < n) (hfit : KernelFits S H n) (hr : ddb.Reachable n)
    (hrows : ddb.staticDb.numRows = S * H) :
    DynamicRunsCorrectly B rnd S H n ddb fun s a => EditsInRange s a ∧ SafeReads s a := by
  obtain ⟨resp, t, hproc, hinit, hc, h⟩ := editInv_init B rnd ⟨S⟩ hS hH hn hfit hr.wf hrows
    (if_pos hS.ne')
  have hm := h.matches_rows.matches_row
  simp only [DynamicDB.rowAtVersion, List.drop_length, changes_nil, add_zero] at hm
  refine ⟨resp, _, hproc, hinit, ⟨t, _, rfl, hc, hm⟩, ?_⟩
  intro as
  refine alwaysUnder_of_invariant (EditInv S H n) (editStep_spec B hS hH hn hfit) as _
    ⟨t, _, h, hc, hrows, ?_⟩
  intro i hi
  rw [List.drop_length] at hi
  exact absurd hi List.not_mem_nil

/-- Two chunks of two one-byte rows. -/
theorem update_correct_of_unchanged_two_by_two :
    DynamicRunsCorrectly .avx2 (fun _ => 0) 2 2 1
      ⟨⟨4, 1, 0, [1, 2, 3, 4]⟩, [], 0, 0, 10000, 4, 2⟩
      fun s a => EditsInRange s a ∧ SafeReads s a :=
  update_correct_of_unchanged .avx2 (fun _ => 0) (by decide) (by decide) (by decide)
    ⟨by decide, by decide, by decide, by decide⟩
    (.init [⟨[1], rfl⟩, ⟨[2], rfl⟩, ⟨[3], rfl⟩, ⟨[4], rfl⟩] _ (by decide +kernel)) rfl

/-- One chunk of the rows `5` and `6`. Row `1` is edited to `7`, the client reads row `0` with
a swap to the position of row `1` and then updates: the hint of row `1` loses the edit. -/
theorem stale_read_corrupts :
    ¬DynamicRunsCorrectly .sse (fun _ => 0) 1 2 1
      ⟨⟨2, 1, 0, [5, 6]⟩, [], 0, 0, 10000, 2, 2⟩ EditsInRange := by
  rintro ⟨resp, c, hproc, hinit, -, hrun⟩
  let ddb : DynamicDB := ⟨⟨2, 1, 0, [5, 6]⟩, [], 0, 0, 10000, 2, 2⟩
  let as : List (DynamicAction 2 1) :=
    [.edit [(1, ⟨[7], rfl⟩)], .read 0 fun _ => 0, .update fun _ _ => 0]
  have hlast : (((SinglePassHintReq.process .sse (fun _ => 0) ⟨1⟩ ddb.staticDb).bind fun resp =>
      resp.initClient.bind fun c =>
        runUnder (DynamicState.step .sse) EditsInRange ⟨ddb, c, false⟩ as).bind fun s =>
          (s.step .sse (.read 1 fun _ => 0 : DynamicAction 2 1)).map fun r =>
            decide (s.stale = false ∧ s.ddb.staticDb.row 1 = some [7] ∧
              s.ddb.staticDb.numRows = 2 ∧ r.1 = some (.ok [6]))) = some true := by
    decide +kernel
  rw [hproc, Option.bind_some, hinit, Option.bind_some, Option.bind_eq_some_iff] at hlast
  obtain ⟨s, hs, hlast⟩ := hlast
  obtain ⟨out, s', hstep, hcorrect⟩ := (hrun (as ++ [.read 1 fun _ => 0])).last hs
    (show EditsInRange s (.read 1 fun _ => 0 : DynamicAction 2 1) from trivial)
  rw [hstep, Option.map_some, Option.some.injEq, decide_eq_true_eq] at hlast
  obtain ⟨hfresh, hseven, hnum, rfl⟩ := hlast
  obtain ⟨row, hrow, hout⟩ := hcorrect hfresh
  rw [hnum, show ((1 : ℤ) % ((2 : ℕ) : ℤ)).toNat = 1 from rfl, hseven, Option.some.injEq] at hrow
  rw [← hrow] at hout
  exact absurd hout (by decide)

/-- **Updating equals preprocessing again**, for clients that do not read while they are
behind: whatever edits the server makes, after every update the hints are those of the
server's current rows under unchanged permutations, and every read returns the current row. -/
theorem update_equals_recomputation (B : Build) (rnd : ℕ → UInt32) {S : ℕ} {ddb : DynamicDB}
    (hS : 0 < S) (hH : 0 < H) (hn : 0 < n) (hfit : KernelFits S H n) (hr : ddb.Reachable n)
    (hrows : ddb.staticDb.numRows = S * H) :
    DynamicRunsCorrectly B rnd S H n ddb fun s a => EditsInRange s a ∧ FreshReads s a := by
  obtain ⟨resp, c, hproc, hinit, hinv, hrun⟩ := update_correct_of_unchanged B rnd hS hH hn hfit hr
    hrows
  refine ⟨resp, c, hproc, hinit, hinv, ?_⟩
  intro as
  refine (hrun as).mono ?_ fun _ _ _ _ h => h
  rintro s a ⟨hrange, hfresh⟩
  refine ⟨hrange, ?_⟩
  cases a with
  | read i swaps => exact Or.inl hfresh
  | _ => trivial

/-- Two chunks of two one-byte rows. -/
theorem update_equals_recomputation_two_by_two :
    DynamicRunsCorrectly .avx2 (fun _ => 0) 2 2 1
      ⟨⟨4, 1, 0, [1, 2, 3, 4]⟩, [], 0, 0, 10000, 4, 2⟩
      fun s a => EditsInRange s a ∧ FreshReads s a :=
  update_equals_recomputation .avx2 (fun _ => 0) (by decide) (by decide) (by decide)
    ⟨by decide, by decide, by decide, by decide⟩
    (.init [⟨[1], rfl⟩, ⟨[2], rfl⟩, ⟨[3], rfl⟩, ⟨[4], rfl⟩] _ (by decide +kernel)) rfl

/-- The preprocessing faults on `2 ^ 32` chunks of one one-byte row. -/
theorem update_faults_at_two_pow_32 : ∃ ddb : DynamicDB, ddb.Reachable 1 ∧
    ddb.staticDb.numRows = 2 ^ 32 * 1 ∧
    ¬DynamicRunsCorrectly .avx2 (fun _ => 0) (2 ^ 32) 1 1 ddb
      fun s a => EditsInRange s a ∧ FreshReads s a := by
  let rows : List (Bytes 1) := List.replicate (2 ^ 32) 0
  have hlen : rows.length = 2 ^ 32 := List.length_replicate
  have hne : rows ≠ [] := List.ne_nil_of_length_pos (hlen ▸ Nat.two_pow_pos 32)
  obtain ⟨ddb, hfrom, -, hnum, -⟩ := DynamicDB.fromRows_spec rows hne
  refine ⟨ddb, .init rows ddb hfrom, by rw [hnum, hlen, Nat.mul_one], ?_⟩
  rintro ⟨resp, c, hproc, -⟩
  rw [process_eq_none_of_mod _ _ _ (Nat.two_pow_pos 32) (Nat.mod_self _)] at hproc
  exact Option.some_ne_none _ hproc.symm

end SinglePassPIR.Pir
