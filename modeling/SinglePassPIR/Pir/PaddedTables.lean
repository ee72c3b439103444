import SinglePassPIR.Pir.StaticRuns
import Mathlib.Algebra.Order.Floor.Div

/-!
# Tables of any number of rows

The set size must divide the number of rows. `EstimateSinglePassParams` takes the next
square root as the set size and rounds the number of rows up to a multiple of it, and
`main` of `singlepass_demo_node` fills the table up with zero rows, prepares a client and
reads rows of the original table, each compared with the server's row.

`log.Fatalf` ends the program with a message and is `.error`; `none` is a panic. The
clock, the report's text and the two estimates that go through a floating-point logarithm
(`ClientStateBytes` and `OnlineBandwidthBytes`, which nothing reads back) are left out.

## Main results

* `estimate_spec` — the parameters fit each other: the set size divides the padded rows,
  there are no more hints than chunks, and less than one chunk's number of rows is added.
* `demo_correct` — for every number of rows the program completes, each trial reads the row
  that was drawn, and the servers' answers have the length that it prints.
-/

namespace SinglePassPIR.Pir
open Psetggm

/-! ## Parameters -/

/-- `SinglePassParams`, less the estimates from a logarithm -/
structure SinglePassParams where
  numRows : ℕ
  paddedRows : ℕ
  paddingRows : ℕ
  rowLen : ℕ
  setSize : ℕ
  nHints : ℕ
  offlineHintBytes : ℕ
  deriving DecidableEq, Repr

/-- `int(math.Ceil(math.Sqrt(float64(n))))`; below `2 ^ 52` the float square root of an integer
is an integer only where the exact one is. -/
def ceilSqrt (n : ℕ) : ℕ :=
  if intSqrt n * intSqrt n = n then intSqrt n else intSqrt n + 1

/-- `ceilDiv`; a zero divisor panics. -/
def ceilDiv (x y : ℕ) : Option ℕ := if y = 0 then none else some ((x + y - 1) / y)

/-- `EstimateSinglePassParams` -/
def estimateSinglePassParams (numRows rowLen : ℕ) : Option SinglePassParams := do
  let setSize := ceilSqrt numRows
  let paddedRows := (← ceilDiv numRows setSize) * setSize
  let nHints := paddedRows / setSize
  some
    { numRows, paddedRows, paddingRows := paddedRows - numRows, rowLen, setSize, nHints
      offlineHintBytes := nHints * rowLen }

/-- The rounded square root is the least number whose square is large enough. -/
theorem ceilSqrt_le_iff {n m : ℕ} : ceilSqrt n ≤ m ↔ n ≤ m * m := by
  have hlow : intSqrt n * intSqrt n ≤ n := Nat.sqrt_le n
  rw [ceilSqrt]
  split_ifs with hsquare
  · constructor
    · intro hle
      calc n = intSqrt n * intSqrt n := hsquare.symm
        _ ≤ m * m := Nat.mul_le_mul hle hle
    · intro hle
      calc intSqrt n ≤ Nat.sqrt (m * m) := Nat.sqrt_le_sqrt hle
        _ = m := Nat.sqrt_eq m
  · rw [Nat.succ_le_iff, intSqrt, Nat.sqrt_lt]
    have hne : n ≠ m * m := by
      intro heq
      apply hsquare
      rw [heq, intSqrt, Nat.sqrt_eq]
    omega

theorem ceilSqrt_pos {n : ℕ} (hn : 0 < n) : 0 < ceilSqrt n := by
  by_contra hzero
  have hle : ceilSqrt n ≤ 0 := by omega
  have := ceilSqrt_le_iff.mp hle
  omega

/-- What the parameters for `numRows` rows of `rowLen` bytes promise each other. -/
structure SinglePassParams.Balanced (p : SinglePassParams) (numRows rowLen : ℕ) : Prop where
  numRows_eq : p.numRows = numRows
  rowLen_eq : p.rowLen = rowLen
  setSize_eq : p.setSize = ceilSqrt numRows
  setSize_pos : 0 < p.setSize
  nHints_pos : 0 < p.nHints
  nHints_le : p.nHints ≤ p.setSize
  chunks : p.paddedRows = p.setSize * p.nHints
  padding : p.paddedRows = numRows + p.paddingRows
  padding_lt : p.paddingRows < p.setSize
  offlineHintBytes_eq : p.offlineHintBytes = p.nHints * rowLen

/-- **The parameters**, which every nonempty table has. -/
theorem estimate_spec {numRows : ℕ} (hN : 0 < numRows) (rowLen : ℕ) :
    ∃ p, estimateSinglePassParams numRows rowLen = some p ∧ p.Balanced numRows rowLen := by
  have hS := ceilSqrt_pos hN
  generalize hset : ceilSqrt numRows = S at hS
  have hsquare : numRows ≤ S * S := ceilSqrt_le_iff.mp hset.le
  let H := numRows ⌈/⌉ S
  have hcover : numRows ≤ S * H := (ceilDiv_le_iff_le_mul hS).mp le_rfl
  have hleast : H ≤ S := (ceilDiv_le_iff_le_mul hS).mpr hsquare
  have hH : 0 < H := Nat.pos_of_mul_pos_left (hN.trans_le hcover)
  have hshort : S * H < numRows + S := by
    have hmul : S * H ≤ numRows + S - 1 := Nat.mul_div_le (numRows + S - 1) S
    omega
  have hdiv : H * S / S = H := Nat.mul_div_cancel H hS
  refine ⟨⟨numRows, H * S, H * S - numRows, rowLen, S, H, H * rowLen⟩, ?_, ?_⟩
  · have hceil : ceilDiv numRows S = some H := if_neg hS.ne'
    simp only [estimateSinglePassParams, hset, hceil, hdiv, Option.bind_eq_bind, Option.bind_some]
  · have hcomm : H * S = S * H := Nat.mul_comm H S
    exact
      { numRows_eq := rfl, rowLen_eq := rfl, setSize_eq := hset.symm, setSize_pos := hS
        nHints_pos := hH, nHints_le := hleast, chunks := hcomm
        padding := by simp only; omega
        padding_lt := by simp only; omega
        offlineHintBytes_eq := rfl }

namespace SinglePassParams.Balanced
variable {p : SinglePassParams} {numRows n : ℕ}

/-- The kernels can represent the sizes as soon as the padded table has fewer than `2 ^ 32` rows
and the hint fewer than `2 ^ 32` bytes. -/
theorem kernelFits (h : p.Balanced numRows n) (hrows : p.paddedRows < 2 ^ 32)
    (hbytes : p.offlineHintBytes < 2 ^ 32) : KernelFits p.setSize p.nHints n := by
  have hset : p.setSize ≤ 2 ^ 16 := by
    rw [h.setSize_eq, ceilSqrt_le_iff]
    have := h.padding
    omega
  have hn := h.nHints_le
  refine ⟨by omega, by omega, h.chunks ▸ hrows, ?_⟩
  rw [← h.offlineHintBytes_eq]
  exact hbytes

end SinglePassParams.Balanced

/-! ## The program -/

/-- `MakeRows`: a row is drawn and its first two bytes are set. A row without a second byte
panics. -/
def makeRows (src : ℕ → ℕ → UInt8) (nRows rowLen : ℕ) : Option (List (List UInt8)) :=
  (List.range nRows).mapM fun i => do
    let row := (List.range rowLen).map (src i)
    let row ← writeAt row 0 (UInt8.ofNat (i % 256))
    writeAt row 1 (65 + UInt8.ofNat (i % 256))

/-- `makeDemoRows` -/
def makeDemoRows (src : ℕ → ℕ → UInt8) (numRows paddedRows rowLen : ℕ) :
    Option (List (List UInt8)) := do
  let rows ← makeRows src numRows rowLen
  some (rows ++ List.replicate (paddedRows - rows.length) (List.replicate rowLen 0))

/-- `singlePassResponsePayloadBytes` -/
def singlePassResponsePayloadBytes (responses : List SinglePassQueryResp) : ℕ :=
  (responses.map fun resp => resp.answer.length).sum

/-- The offline phase of `main`: the two servers and the client. -/
def demoOffline (B : Build) (rnd : ℕ → UInt32) (src : ℕ → ℕ → UInt8) (params : SinglePassParams) :
    Option (StaticDB × StaticDB × SinglePassClient) := do
  let rows ← makeDemoRows src params.numRows params.paddedRows params.rowLen
  let leftServer ← StaticDB.fromRows rows
  let rightServer ← StaticDB.fromRows rows
  let hintResp ← SinglePassHintReq.process B rnd ⟨params.setSize⟩ leftServer
  let client ← hintResp.initClient
  some (leftServer, rightServer, client)

/-- The body of the loop over the trials: the row that came back and `onlineBytesPerQuery`. -/
def demoTrial (B : Build) (leftServer rightServer : StaticDB) (trial target : ℕ)
    (swaps : ℕ → ℕ) (client : SinglePassClient) :
    Option (Except String ((List UInt8 × ℕ) × SinglePassClient)) := do
  let query ← client.query target swaps
  let left ← query.left.process B leftServer
  let right ← query.right.process B rightServer
  let onlineBytesPerQuery := singlePassResponsePayloadBytes [left, right]
  let (result, client) ← client.reconstruct B [left, right] query.ctx
  match result with
  | .error err => some (.error ("reconstruction failed: " ++ err))
  | .ok row =>
      let expected ← leftServer.row target
      if row = expected then some (.ok ((row, onlineBytesPerQuery), client))
      else some (.error ("wrong row returned on trial " ++ toString trial))

/-- The loop over the trials, each with its target and the swaps that the client draws. -/
def demoTrials (B : Build) (leftServer rightServer : StaticDB) :
    ℕ → List (ℕ × (ℕ → ℕ)) → SinglePassClient → Option (Except String (List (List UInt8 × ℕ)))
  | _, [], _ => some (.ok [])
  | trial, (target, swaps) :: rest, client => do
      match ← demoTrial B leftServer rightServer trial target swaps client with
      | .error err => some (.error err)
      | .ok (out, client) =>
          let later ← demoTrials B leftServer rightServer (trial + 1) rest client
          some (later.map fun outs => out :: outs)

/-- `main` for one configuration, with as many trials as the list has. -/
def demo (B : Build) (rnd : ℕ → UInt32) (src : ℕ → ℕ → UInt8) (numEntries entrySize : ℕ)
    (trials : List (ℕ × (ℕ → ℕ))) : Option (Except String (List (List UInt8 × ℕ))) := do
  let params ← estimateSinglePassParams numEntries entrySize
  let (leftServer, rightServer, client) ← demoOffline B rnd src params
  demoTrials B leftServer rightServer 0 trials client

/-! ## Its table -/

section Rows
variable {n : ℕ} (src : ℕ → ℕ → UInt8)

/-- The rows that are drawn, when they have the two bytes. -/
theorem makeRows_spec (hn : 2 ≤ n) (nRows : ℕ) :
    ∃ rows : List (Bytes n), makeRows src nRows n = some (rows.map Bytes.toList) ∧
      rows.length = nRows := by
  let row : ℕ → List UInt8 := fun i =>
    (((List.range n).map (src i)).set 0 (UInt8.ofNat (i % 256))).set 1 (65 + UInt8.ofNat (i % 256))
  have hlen : ∀ i, (row i).length = n := fun i => by simp [row]
  let bytes : ℕ → Bytes n := fun i => ⟨row i, hlen i⟩
  refine ⟨(List.range nRows).map bytes, ?_, by rw [List.length_map, List.length_range]⟩
  rw [List.map_map]
  refine mapM_range_eq row ?_
  intro i _
  have hfirst : writeAt ((List.range n).map (src i)) 0 (UInt8.ofNat (i % 256)) =
      some (((List.range n).map (src i)).set 0 (UInt8.ofNat (i % 256))) :=
    writeAt_eq (by simp; omega) _
  simp only [hfirst, Option.bind_eq_bind, Option.bind_some]
  exact writeAt_eq (by simp; omega) _

/-- The table of a server: the rows that are drawn, and zero rows after them. -/
theorem makeDemoRows_spec {nRows : ℕ} {rows : List (Bytes n)} (paddedRows : ℕ)
    (hmake : makeRows src nRows n = some (rows.map Bytes.toList)) :
    makeDemoRows src nRows paddedRows n =
      some ((rows ++ List.replicate (paddedRows - rows.length) 0).map Bytes.toList) := by
  simp only [makeDemoRows, hmake, List.map_append, List.map_replicate, Bytes.toList_zero,
    List.length_map, Option.bind_eq_bind, Option.bind_some]

end Rows

/-! ## Its phases -/

section Phases
variable {n : ℕ} {numRows : ℕ} {params : SinglePassParams}

/-- A server that holds the drawn rows, filled up with zero rows. -/
structure StaticDB.Padded (p : SinglePassParams) (rows : List (Bytes n)) (db : StaticDB) :
    Prop where
  wf : db.WF n
  numRows_eq : db.numRows = p.setSize * p.nHints
  get_eq : ∀ i (hi : i < rows.length), db.get n i = rows[i]

/-- **The offline phase.** Both servers hold the padded table, and the client's hints, which take
the estimated number of bytes, match it. -/
theorem demoOffline_spec (B : Build) (rnd : ℕ → UInt32) (src : ℕ → ℕ → UInt8)
    {rows : List (Bytes n)} (hn : 0 < n) (hp : params.Balanced numRows n)
    (hrows : params.paddedRows < 2 ^ 32) (hbytes : params.offlineHintBytes < 2 ^ 32)
    (hmake : makeRows src numRows n = some (rows.map Bytes.toList))
    (hlen : rows.length = numRows) :
    ∃ (db : StaticDB) (t : HintTable (Fin params.nHints) (Bytes n)),
      demoOffline B rnd src params = some (db, db, t.client 0) ∧ db.Padded params rows ∧
        t.chunks = params.setSize ∧ t.Matches (db.chunkRow params.nHints n) := by
  let padded := rows ++ List.replicate (params.paddedRows - rows.length) 0
  have hpadded : padded.length = params.setSize * params.nHints := by
    have h₁ := hp.padding
    have h₂ := hp.chunks
    simp only [padded, List.length_append, List.length_replicate]
    omega
  have hne : padded ≠ [] := by
    apply List.ne_nil_of_length_pos
    rw [hpadded]
    exact Nat.mul_pos hp.setSize_pos hp.nHints_pos
  obtain ⟨db, hdb, hwf, hcount, hversion, hget⟩ := StaticDB.fromRows_spec padded hne
  have hpad : db.Padded params rows := by
    refine ⟨hwf, hcount.trans hpadded, ?_⟩
    intro i hi
    have hi' : i < padded.length := by simp only [padded, List.length_append]; omega
    rw [hget i hi']
    exact List.getElem_append_left hi
  obtain ⟨resp, t, hproc, hinit, hchunks, hm⟩ := hint_spec B rnd ⟨params.setSize⟩ hp.setSize_pos
    hp.nHints_pos hn (hp.kernelFits hrows hbytes) hwf hpad.numRows_eq
    (if_pos hp.setSize_pos.ne')
  refine ⟨db, t, ?_, hpad, hchunks, hm⟩
  have hdemo := makeDemoRows_spec src params.paddedRows hmake
  rw [hversion] at hinit
  simp only [demoOffline, hp.numRows_eq, hp.rowLen_eq, hdemo, Option.bind_eq_bind,
    Option.bind_some]
  rw [hdb]
  simp only [Option.bind_some, hproc, hinit]

variable {H : ℕ} {t : HintTable (Fin H) (Bytes n)} {v : ℕ}

/-- **A trial** returns the row and the length of the two answers, and leaves a client whose hints
match. -/
theorem demoTrial_spec (B : Build) {db : StaticDB} (trial : ℕ) {target : ℕ} (r : ℕ → Fin H)
    (hn : 0 < n) (h32 : n < 2 ^ 32) (h31 : t.chunks < 2 ^ 31) (hwf : db.WF n)
    (hrows : db.numRows = t.chunks * H) (hm : t.Matches (db.chunkRow H n))
    (htarget : target < db.numRows) :
    ∃ t' : HintTable (Fin H) (Bytes n),
      demoTrial B db db trial target (fun j => r j) (t.client v) =
        some (.ok (((db.get n target).toList, 2 * (t.chunks * n)), t'.client v)) ∧
      t'.chunks = t.chunks ∧ t'.Matches (db.chunkRow H n) := by
  have hH : 0 < H := (r 0).pos
  have hS : 0 < t.chunks := by
    by_contra hzero
    have hzero' : t.chunks = 0 := by omega
    rw [hrows, hzero', Nat.zero_mul] at htarget
    omega
  have hwidth : db.numRows / t.chunks = H := by
    rw [hrows, Nat.mul_div_cancel_left H hS]
  obtain ⟨j₀, hj₀, x, hi⟩ := HintTable.exists_column (t := t) (target : ℤ) hH hS
  have hindex : target = j₀ * H + x := by
    rw [← hrows] at hi
    have hsmall : ((target : ℤ) % (db.numRows : ℤ)) = target :=
      Int.emod_eq_of_lt (by omega) (by omega)
    omega
  obtain ⟨answer0, answer1, hp0, hp1, hl0, hl1, ha⟩ := HintTable.answers_client (t := t) B r
    ((t.perm j₀).symm x) hn h32 hwf hwidth hj₀
  have hrec := HintTable.reconstruct_client (v := v) B (q := (t.perm j₀).symm x) (r := r) hn h32
    hj₀ h31 hl0 hl1
  have hout := HintTable.recovered_eq hm ha hj₀
  rw [Equiv.apply_symm_apply] at hout
  have hrow : db.row target = some (db.chunkRow H n j₀ x).toList := by
    rw [StaticDB.row_eq hwf htarget, StaticDB.chunkRow, hindex]
  have hbytes : singlePassResponsePayloadBytes [⟨answer0⟩, ⟨answer1⟩] = 2 * (t.chunks * n) := by
    simp only [singlePassResponsePayloadBytes, List.map_cons, List.map_nil, List.sum_cons,
      List.sum_nil, hl0, hl1]
    omega
  refine ⟨t.refresh j₀ ((t.perm j₀).symm x) r (rowAt n answer0) (rowAt n answer1), ?_, rfl,
    HintTable.refresh_matches hm ha hj₀⟩
  have hget : db.get n target = db.chunkRow H n j₀ x := by rw [StaticDB.chunkRow, hindex]
  simp only [demoTrial, HintTable.query_client r hj₀ hi, hp0, hp1, hrec, hout, hrow, hbytes,
    hget, if_true, Option.bind_eq_bind, Option.bind_some]

/-- **The trials**, by induction: none of them ends the program, and each returns its row. -/
theorem demoTrials_spec (B : Build) {db : StaticDB} (hn : 0 < n) (h32 : n < 2 ^ 32)
    (hwf : db.WF n) {trials : List (ℕ × (ℕ → ℕ))}
    (htrials : ∀ a ∈ trials, a.1 < db.numRows ∧ ∀ j, a.2 j < H) :
    ∀ (trial : ℕ) {t : HintTable (Fin H) (Bytes n)}, t.chunks < 2 ^ 31 →
      db.numRows = t.chunks * H → t.Matches (db.chunkRow H n) →
      demoTrials B db db trial trials (t.client v) =
        some (.ok (trials.map fun a => ((db.get n a.1).toList, 2 * (t.chunks * n)))) := by
  induction trials with
  | nil => intro _ _ _ _ _; rfl
  | cons a rest ih =>
      intro trial t h31 hrows hm
      obtain ⟨htarget, hswaps⟩ := htrials a List.mem_cons_self
      obtain ⟨t', htrial, hc, hm'⟩ := demoTrial_spec (v := v) B trial
        (fun j => (⟨a.2 j, hswaps j⟩ : Fin H)) hn h32 h31 hwf hrows hm htarget
      have hrest := ih (fun b hb => htrials b (List.mem_cons_of_mem a hb)) (trial + 1)
        (hc ▸ h31) (hc ▸ hrows) hm'
      rw [hc] at hrest
      rw [demoTrials, htrial, Option.bind_eq_bind, Option.bind_some]
      simp only [hrest, Option.bind_eq_bind, Option.bind_some]
      rfl

end Phases

/-- **The program is correct for a table of any number of rows.** The rows are drawn, the
parameters fit each other, the client stores as many bytes of hints as the estimate says, and
whatever the draws of the kernel and of the client, every trial reads the row that was drawn for
its target and the two answers have `2 * SetSize * RowLen` bytes. -/
theorem demo_correct (B : Build) (rnd : ℕ → UInt32) (src : ℕ → ℕ → UInt8)
    {numEntries entrySize : ℕ} (hN : 0 < numEntries) (hlen : 2 ≤ entrySize) :
    ∃ params rows, estimateSinglePassParams numEntries entrySize = some params ∧
      params.Balanced numEntries entrySize ∧ makeRows src numEntries entrySize = some rows ∧
      (params.paddedRows < 2 ^ 32 → params.offlineHintBytes < 2 ^ 32 →
        (∃ leftServer rightServer client,
          demoOffline B rnd src params = some (leftServer, rightServer, client) ∧
          (client.hints.map List.length).sum = params.offlineHintBytes) ∧
        ∀ trials : List (ℕ × (ℕ → ℕ)),
          (∀ a ∈ trials, a.1 < numEntries ∧ ∀ j, a.2 j < params.nHints) →
          demo B rnd src numEntries entrySize trials = some (.ok (trials.map fun a =>
            (rows.getD a.1 [], 2 * (params.setSize * params.rowLen))))) := by
  obtain ⟨params, hest, hp⟩ := estimate_spec hN entrySize
  obtain ⟨rows, hmake, hcount⟩ := makeRows_spec src hlen numEntries
  refine ⟨params, rows.map Bytes.toList, hest, hp, hmake, ?_⟩
  intro hrows hbytes
  have hfit := hp.kernelFits hrows hbytes
  have hn : 0 < entrySize := by omega
  obtain ⟨db, t, hoff, hpad, hchunks, hm⟩ := demoOffline_spec B rnd src hn hp hrows hbytes hmake
    hcount
  refine ⟨⟨db, db, t.client 0, hoff, ?_⟩, ?_⟩
  · have hone : (t.client 0).hints.map List.length = List.replicate params.nHints entrySize := by
      rw [List.eq_replicate_iff]
      refine ⟨by simp [HintTable.client], ?_⟩
      intro m hmem
      obtain ⟨hint, hmem', rfl⟩ := List.mem_map.mp hmem
      obtain ⟨h, rfl⟩ := List.mem_ofFn.mp hmem'
      exact Bytes.length_toList _
    rw [hone, List.sum_replicate, hp.offlineHintBytes_eq, smul_eq_mul]
  · intro trials htrials
    have hle : numEntries ≤ db.numRows := by
      rw [hpad.numRows_eq, ← hp.chunks, hp.padding]
      omega
    have hrun := demoTrials_spec (v := 0) B hn (hfit.rowLen_lt hp.nHints_pos) hpad.wf
      (fun a ha => ⟨(htrials a ha).1.trans_le hle, (htrials a ha).2⟩) 0 (hchunks ▸ hfit.setSize_lt)
      (hchunks ▸ hpad.numRows_eq) hm
    simp only [demo, hest, hoff, hrun, Option.bind_eq_bind, Option.bind_some]
    refine congrArg (fun outs => some (Except.ok outs)) (List.map_congr_left ?_)
    intro a ha
    have ha' : a.1 < rows.length := hcount ▸ (htrials a ha).1
    rw [hpad.get_eq a.1 ha', hchunks, hp.rowLen_eq, List.getD_eq_getElem?_getD,
      List.getElem?_map, List.getElem?_eq_getElem ha', Option.map_some, Option.getD_some]

/-- Five rows of two bytes become six, in three chunks of two, and are read from both ends. -/
theorem demo_correct_five_rows : ∃ rows, makeRows (fun _ _ => 0) 5 2 = some rows ∧
    demo .avx2 (fun _ => 0) (fun _ _ => 0) 5 2 [(4, fun _ => 1), (0, fun _ => 0)] =
      some (.ok [(rows.getD 4 [], 12), (rows.getD 0 [], 12)]) := by
  obtain ⟨params, rows, hest, -, hmake, hruns⟩ :=
    demo_correct .avx2 (fun _ => 0) (fun _ _ => 0) (by decide : 0 < 5)
      (by decide : 2 ≤ 2)
  have hparams : estimateSinglePassParams 5 2 = some ⟨5, 6, 1, 2, 3, 2, 4⟩ := by decide +kernel
  obtain rfl : ⟨5, 6, 1, 2, 3, 2, 4⟩ = params := Option.some.inj (hparams.symm.trans hest)
  exact ⟨rows, hmake, (hruns (by decide) (by decide)).2 _ (by simp)⟩

end SinglePassPIR.Pir
