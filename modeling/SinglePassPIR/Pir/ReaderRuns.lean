import SinglePassPIR.Pir.DpfClient
import SinglePassPIR.Pir.DynamicRuns
import SinglePassPIR.Pir.Matrix
import SinglePassPIR.Updatable.Waterfall

/-!
# Readers of a dynamic database

`pir_reader.go`: a reader is initialised with a PIR type and a set size, and reads rows from two
servers that hold dynamic databases. A client of SinglePass can be updated after the servers have
changed; the clients of the other types either do not depend on the rows, or have to be initialised
again. A reader may change its type at any time.

The methods of `pir.Client` are taken type by type. A server of package `pir` answers a request of a
type with a response of that type, so the checks of the responses have no branch here.

## Main results

* `ReaderClient.Knows.read` — one read, for every type.
* `reader_correct` — whole runs of initialisations, reads, updates and edits.
-/

namespace SinglePassPIR.Pir
open Psetggm Dpf

/-! ## The reader -/

/-- What the calls run on: the ciphers, the kernels with the address of the database, and the
square root of `getHeightWidth`. -/
structure Machine where
  prf : Prf
  env : Env
  addr : ℕ
  widthOf : ℕ → ℕ → ℕ

/-- What a call may draw. -/
structure ReaderSource where
  randSeed : Block
  newSetGenKey : Block
  rnd : ℕ → UInt32
  coin : ℕ
  draws : List ℕ
  draw : Bytes 16 × Bytes 16
  coins : ℕ → UInt64
  swaps : ℕ → ℕ

/-- `pir.Client` -/
inductive ReaderClient
  | matrix (c : MatrixClient)
  | punc (c : PuncClient)
  | dpf (c : DpfClient)
  | nonPrivate
  | singlePass (c : SinglePassClient)
  deriving DecidableEq, Repr

/-- `pirReader.Init`: `NewHintReq`, the request processed by `Left`, and `InitClient`. -/
def newReaderClient (M : Machine) (src : ReaderSource) (setSize : ℕ) (db : StaticDB) :
    Updatable.PirType → Option ReaderClient
  | .matrix => ((matrixHint db).initClient M.widthOf).map .matrix
  | .punc => (puncClientOf M.env db src.randSeed src.newSetGenKey).toOption.map .punc
  | .dpf => some (.dpf (dpfHint db).initClient)
  | .nonPrivate => some .nonPrivate
  | .singlePass => do
      let resp ← SinglePassHintReq.process M.env.build src.rnd ⟨setSize⟩ db
      let c ← resp.initClient
      some (.singlePass c)
  -- "Unknown PIR Type"
  | .perm => none

/-- `NonPrivateQueryReq.Process` -/
def nonPrivateProcess (index : ℕ) (db : StaticDB) : Option (List UInt8) :=
  slice db.flatDb (index * db.rowLen) ((index + 1) * db.rowLen)

/-- `pirReader.Read`, from `Query` on; `left` and `right` are the databases of the servers. -/
def ReaderClient.read (M : Machine) (left right : StaticDB) (src : ReaderSource) (i : ℕ) :
    ReaderClient → Option (Except String (List UInt8) × ReaderClient)
  | .matrix c => do
      let (qL, qR, colNum) := c.query src.coins i
      let respL ← qL.process M.env M.widthOf left
      let respR ← qR.process M.env M.widthOf right
      let row ← c.reconstructFunc M.env colNum [.response respL, .response respR]
      some (row, .matrix c)
  | .punc c => do
      match ← (c.query M.env i src.coin src.draws).toOption with
      | (none, c) => some (.error ("Failed to query: " ++ toString i), .punc c)
      | (some q, c) => do
          let respL ← q.left.process M.env left
          let respR ← q.right.process M.env right
          (c.reconstruct M.env q.ctx [respL, respR]).map fun r => (r.1, .punc r.2)
  | .dpf c => do
      let (qL, qR) ← c.query M.prf src.draw i
      let respL ← qL.process M.prf M.env M.addr left
      let respR ← qR.process M.prf M.env M.addr right
      let row ← dpfReconstruct M.env respL respR
      some (.ok row, .dpf c)
  | .nonPrivate => do
      let row ← nonPrivateProcess i left
      let _ ← nonPrivateProcess i right
      some (.ok row, .nonPrivate)
  | .singlePass c => do
      let q ← c.query i src.swaps
      let respL ← q.left.process M.env.build left
      let respR ← q.right.process M.env.build right
      (c.reconstruct M.env.build [respL, respR] q.ctx).map fun r => (r.1, .singlePass r.2)

/-- `pirReader.Update`, for a reader with a client; `Left` answers. -/
def ReaderClient.update (M : Machine) (rnd : ℕ → ℕ → UInt32) (left : DynamicDB) :
    ReaderClient → Option (Except String Unit × ReaderClient)
  | .singlePass c => (c.update M.env.build rnd left).map fun r => (r.1, .singlePass r.2)
  | impl => some (.error "Update can only be called for Single Pass Client.", impl)

/-- A reader and its servers. `stale` if the servers have been edited since the client was made or
updated; it is not part of the program. -/
structure ReaderState where
  impl : Option ReaderClient
  setSize : ℕ
  left : DynamicDB
  right : DynamicDB
  stale : Bool

/-- The calls of a reader, and `UpdateServer` of both servers. -/
inductive ReaderAction (n : ℕ)
  | init (t : Updatable.PirType) (src : ReaderSource)
  | read (i : ℕ) (src : ReaderSource)
  | update (rnd : ℕ → ℕ → UInt32)
  | edit (batch : List (ℕ × Bytes n))

namespace ReaderState
variable {n : ℕ}

/-- One call, with the row that a read returns and the error. -/
def step (M : Machine) (s : ReaderState) :
    ReaderAction n → Option (Except String (List UInt8) × ReaderState)
  | .init t src => do
      let impl ← newReaderClient M src s.setSize s.left.staticDb t
      some (.ok [], { s with impl := some impl, stale := false })
  | .read i src =>
      match s.impl with
      | none => some (.error "Did you forget to call Init?", s)
      | some impl => do
          let (row, impl) ← impl.read M s.left.staticDb s.right.staticDb src i
          some (row, { s with impl := some impl })
  | .update rnd =>
      match s.impl with
      | none => some (.error "Did not call init", s)
      | some impl => do
          match ← impl.update M rnd s.left with
          | (.error err, impl) => some (.error err, { s with impl := some impl })
          | (.ok (), impl) => some (.ok [], { s with impl := some impl, stale := false })
  | .edit batch => do
      let (_, left) ← s.left.editRows (batch.map Prod.fst) (batch.map fun e => e.2.toList)
      let (_, right) ← s.right.editRows (batch.map Prod.fst) (batch.map fun e => e.2.toList)
      some (.ok [], { s with left, right, stale := true })

end ReaderState

/-! ## What a client knows -/

/-- A database of `S * H` rows that every type can handle. -/
structure ReaderFits (M : Machine) (setSize S H n : ℕ) : Prop where
  setSize_pos : 0 < S
  nHints_pos : 0 < H
  rowLen_pos : 0 < n
  rows_lt : S * H < 2 ^ 31
  flat_lt : S * H * n < 2 ^ 32
  aligned : n = 32 → M.addr % M.env.build.lane = 0
  width_pos : 0 < M.widthOf (S * H) n
  setSize_eq : (if setSize ≠ 0 then setSize else intSqrt (S * H)) = S

section
variable {M : Machine} {setSize S H n : ℕ} {ddb : DynamicDB} {db : StaticDB} {stale : Bool}

theorem ReaderFits.numRows_pos (h : ReaderFits M setSize S H n) : 0 < S * H :=
  Nat.mul_pos h.setSize_pos h.nHints_pos

theorem ReaderFits.kernel (h : ReaderFits M setSize S H n) : KernelFits S H n := by
  have hrows := h.rows_lt
  have hS := Nat.le_mul_of_pos_right S h.nHints_pos
  have hH := Nat.le_mul_of_pos_left H h.setSize_pos
  have hchunk := Nat.mul_le_mul_right n hH
  have hflat := h.flat_lt
  constructor <;> omega

theorem ReaderFits.punc (h : ReaderFits M setSize S H n) (hwf : db.WF n) (hrows : db.numRows = S * H) :
    PuncFits db n :=
  ⟨hwf, h.rowLen_pos, hrows ▸ h.numRows_pos, hrows ▸ h.rows_lt.le, hrows ▸ h.flat_lt⟩

theorem ReaderFits.seesAll (h : ReaderFits M setSize S H n) (hwf : db.WF n)
    (hrows : db.numRows = S * H) : SeesAll M.env M.addr db := by
  intro hrowLen
  rw [hwf.rowLen_eq] at hrowLen
  have hflat := h.flat_lt
  rw [hrowLen] at hflat
  exact ⟨by rw [hrows]; omega, h.aligned hrowLen⟩

/-- What the client has of the servers' database. -/
def ReaderClient.Knows (M : Machine) (S H n : ℕ) (ddb : DynamicDB) (stale : Bool) :
    ReaderClient → Prop
  | .matrix c => (matrixHint ddb.staticDb).initClient M.widthOf = some c
  | .punc c => stale = false → c.Sound M.env ddb.staticDb n
  | .dpf c => (dpfHint ddb.staticDb).initClient = c
  | .nonPrivate => True
  | .singlePass c => EditInv S H n ⟨ddb, c, stale⟩

/-- The preprocessing returns, without an identifier that has wrapped round. -/
def InitReady (M : Machine) (src : ReaderSource) (db : StaticDB) : Updatable.PirType → Prop
  | .punc => (puncClientOf M.env db src.randSeed src.newSetGenKey).Admits fun c =>
      c.setGen.num < 2 ^ 32
  | .perm => False
  | _ => True

/-- A client with hints is not behind its servers. A query for puncturable sets returns, without an
identifier that has wrapped round, and the swaps of SinglePass are columns. -/
def ReaderClient.Ready (M : Machine) (db : StaticDB) (stale : Bool) (src : ReaderSource) (i : ℕ) :
    ReaderClient → Prop
  | .punc c => stale = false ∧ c.ReadGuard M.env db ⟨i, src.coin, src.draws⟩
  | .singlePass c => stale = false ∧ ∀ j, src.swaps j < c.nHints
  | _ => True

/-- **A new client** of any type. -/
theorem newReaderClient_knows (h : ReaderFits M setSize S H n) (hwf : ddb.WF n)
    (hrows : ddb.staticDb.numRows = S * H) (src : ReaderSource) {t : Updatable.PirType}
    (hready : InitReady M src ddb.staticDb t) :
    ∃ impl, newReaderClient M src setSize ddb.staticDb t = some impl ∧
      impl.Knows M S H n ddb false := by
  cases t with
  | matrix =>
      have hwidth : 0 < M.widthOf ddb.staticDb.numRows ddb.staticDb.rowLen := by
        rw [hrows, hwf.static.rowLen_eq]
        exact h.width_pos
      have hinit : ∃ c, (matrixHint ddb.staticDb).initClient M.widthOf = some c := by
        rw [MatrixHintResp.initClient, matrixHint, getHeightWidth_eq rfl hwidth
          (hrows ▸ h.numRows_pos)]
        exact ⟨_, rfl⟩
      obtain ⟨c, hinit⟩ := hinit
      exact ⟨.matrix c, by rw [newReaderClient, hinit]; rfl, hinit⟩
  | punc =>
      obtain ⟨c, hc, hsound, hnum⟩ :=
        (puncClientOf_spec (h.punc hwf.static hrows) src.randSeed src.newSetGenKey).of_admits hready
      exact ⟨.punc c, by rw [newReaderClient, hc]; rfl, fun _ => hsound hnum⟩
  | perm => exact absurd hready id
  | dpf => exact ⟨_, rfl, rfl⟩
  | nonPrivate => exact ⟨_, rfl, trivial⟩
  | singlePass =>
      obtain ⟨resp, t, hproc, hinit, hc, hbehind⟩ := editInv_init M.env.build src.rnd ⟨setSize⟩
        h.setSize_pos h.nHints_pos h.rowLen_pos h.kernel hwf hrows (by rw [hrows]; exact h.setSize_eq)
      refine ⟨.singlePass (t.client ddb.ops.length), ?_, t, _, hbehind, hc, hrows, ?_⟩
      · simp only [newReaderClient, hproc, hinit, Option.bind_eq_bind, Option.bind_some]
      · intro i hi
        rw [List.drop_length] at hi
        exact absurd hi List.not_mem_nil

/-- An edit of the servers leaves their clients behind. -/
theorem ReaderClient.Knows.edit {impl : ReaderClient} (h : ReaderFits M setSize S H n)
    (hknows : impl.Knows M S H n ddb stale) (hwf : ddb.WF n)
    {batch : List (ℕ × Bytes n)} (hbatch : ∀ e ∈ batch, e.1 < ddb.staticDb.numRows) {ddb' : DynamicDB}
    (hedit : ddb.editRows (batch.map Prod.fst) (batch.map fun e => e.2.toList) = some (.ok (), ddb')) :
    impl.Knows M S H n ddb' true := by
  obtain ⟨ddb'', hedit', hedited⟩ := DynamicDB.editRows_spec hwf batch hbatch
  rw [hedit, Option.some.injEq, Prod.mk.injEq] at hedit'
  obtain rfl := hedit'.2
  have hrowLen : ddb'.staticDb.rowLen = ddb.staticDb.rowLen :=
    hedited.wf.static.rowLen_eq.trans hwf.static.rowLen_eq.symm
  cases impl with
  | matrix c =>
      show (matrixHint ddb'.staticDb).initClient M.widthOf = some c
      rw [matrixHint, hedited.numRows_eq, hrowLen]
      exact hknows
  | punc c => exact fun hfresh => Bool.noConfusion hfresh
  | dpf c =>
      show (dpfHint ddb'.staticDb).initClient = c
      rw [dpfHint, hedited.numRows_eq, hrowLen]
      exact hknows
  | nonPrivate => trivial
  | singlePass c =>
      obtain ⟨out, s', hstep, -, hinv⟩ := editStep_spec (H := H) M.env.build h.setSize_pos h.nHints_pos
        h.rowLen_pos h.kernel ⟨ddb, c, stale⟩ (.edit batch) hknows ⟨hbatch, trivial⟩
      simp only [DynamicState.step, hedit, Option.bind_eq_bind, Option.bind_some, Option.some.injEq,
        Prod.mk.injEq] at hstep
      rw [← hstep.2] at hinv
      exact hinv

/-- A client of matrix PIR that was made for a table of the same size. -/
theorem MatrixClient.read_table (env : Env) {widthOf : ℕ → ℕ → ℕ} (h : db.WF n)
    (hrows : 0 < db.numRows) (hwidth : 0 < widthOf db.numRows db.rowLen) {c : MatrixClient}
    (hinit : (matrixHint db).initClient widthOf = some c) (coins : ℕ → UInt64) {idx : ℕ}
    (hidx : idx < db.numRows) :
    ∃ left right, (c.query coins idx).1.process env widthOf db = some left ∧
      (c.query coins idx).2.1.process env widthOf db = some right ∧
      c.reconstructFunc env (c.query coins idx).2.2 [.response left, .response right] =
        some (.ok (db.get n idx).toList) := by
  rw [MatrixHintResp.initClient, matrixHint, getHeightWidth_eq rfl hwidth hrows, Option.bind_eq_bind,
    Option.bind_some, Option.some.injEq] at hinit
  have hheight : c.height = (db.numRows - 1) / widthOf db.numRows db.rowLen + 1 := by rw [← hinit]
  have hcwidth : c.width = widthOf db.numRows db.rowLen := by rw [← hinit]
  have hrowLen : c.rowLen = n := by
    rw [← hinit]
    exact h.rowLen_eq
  have hrow : idx / c.width < c.height := by
    rw [hheight, hcwidth]
    exact Nat.lt_succ_of_le (Nat.div_le_div_right (by omega))
  have hlenL : (c.query coins idx).1.bitVector.length = c.height := by simp [MatrixClient.query]
  have hlenR : (c.query coins idx).2.1.bitVector.length = c.height := by simp [MatrixClient.query]
  have hsum := sum_query_terms (w := n * c.width) db.flatDb c coins hrow
  have hleft := matBoolVecProduct_spec env h hrows hcwidth.symm (hcwidth ▸ hwidth)
    (hlenL.trans (hcwidth ▸ hheight))
  have hright := matBoolVecProduct_spec env h hrows hcwidth.symm (hcwidth ▸ hwidth)
    (hlenR.trans (hcwidth ▸ hheight))
  rw [hlenL] at hleft
  rw [hlenR] at hright
  refine ⟨_, _, by rw [MatrixQueryReq.process, hleft]; rfl, by rw [MatrixQueryReq.process, hright]; rfl,
    ?_⟩
  rw [reconstructFunc_eq, hsum, show (c.query coins idx).2.2 = idx % c.width from rfl, hrowLen,
    slice_matrixRow (hcwidth ▸ hwidth)]
  rfl

/-- Two servers with one table answer as one does. -/
theorem ReaderClient.read_punc (src : ReaderSource) (i : ℕ) (c : PuncClient) :
    (ReaderClient.punc c).read M db db src i =
      (c.step M.env db ⟨i, src.coin, src.draws⟩).map fun r => (r.1, .punc r.2) := by
  rw [ReaderClient.read, PuncClient.step, PuncClient.read]
  cases c.query M.env i src.coin src.draws with
  | error e => rfl
  | ok r =>
      obtain ⟨_ | q, c'⟩ := r
      · rfl
      · rw [Outcome.ok_bind]
        dsimp only
        have hfinish : (Outcome.ofOption (c'.finish M.env db q)).toOption = c'.finish M.env db q := by
          cases c'.finish M.env db q <;> rfl
        rw [hfinish, PuncClient.finish]
        simp only [Except.toOption, Option.bind_eq_bind, Option.bind_some, Option.map_bind,
          Function.comp_def]

theorem ReaderClient.read_singlePass (src : ReaderSource) (i : ℕ) (c : SinglePassClient) :
    (ReaderClient.singlePass c).read M db db src i =
      (c.read M.env.build db i src.swaps).map fun r => (r.1, .singlePass r.2) := by
  rw [ReaderClient.read, SinglePassClient.read]
  simp only [Option.bind_eq_bind, Option.map_bind, Function.comp_def]

/-- A row, or the failure of a query for puncturable sets. -/
def ReaderClient.Returns (M : Machine) (src : ReaderSource) (i : ℕ) (row : List UInt8)
    (out : Except String (List UInt8)) : ReaderClient → Prop
  | .punc c => ∃ q c', c.query M.env i src.coin src.draws = .ok (q, c') ∧
      out = if q.isSome then .ok row else .error ("Failed to query: " ++ toString i)
  | _ => out = .ok row

/-- **One read**, for every type. -/
theorem ReaderClient.Knows.read {impl : ReaderClient} (h : ReaderFits M setSize S H n)
    (hknows : impl.Knows M S H n ddb stale) (hwf : ddb.WF n) (hrows : ddb.staticDb.numRows = S * H)
    {src : ReaderSource} {i : ℕ} (hi : i < ddb.staticDb.numRows)
    (hready : impl.Ready M ddb.staticDb stale src i) :
    ∃ out impl', impl.read M ddb.staticDb ddb.staticDb src i = some (out, impl') ∧
      impl.Returns M src i (ddb.staticDb.get n i).toList out ∧ impl'.Knows M S H n ddb stale := by
  have hpos := hrows ▸ h.numRows_pos
  cases impl with
  | matrix c =>
      have hwidth : 0 < M.widthOf ddb.staticDb.numRows ddb.staticDb.rowLen := by
        rw [hrows, hwf.static.rowLen_eq]
        exact h.width_pos
      obtain ⟨left, right, hL, hR, hrec⟩ :=
        MatrixClient.read_table M.env hwf.static hpos hwidth hknows src.coins hi
      refine ⟨_, .matrix c, ?_, rfl, hknows⟩
      simp only [ReaderClient.read, hL, hR, hrec, Option.bind_eq_bind, Option.bind_some]
  | punc c =>
      obtain ⟨hfresh, hguard⟩ := hready
      obtain ⟨out, c', hstep, hreturns, hsound⟩ :=
        PuncClient.step_spec (h.punc hwf.static hrows) (hknows hfresh) hguard
      refine ⟨out, .punc c', by rw [read_punc, hstep, Option.map_some], ?_, fun _ => hsound⟩
      obtain ⟨q, c₁, hquery, hout⟩ := hreturns
      dsimp only at hquery hout
      rw [Int.emod_eq_of_lt (Int.natCast_nonneg i) (by exact_mod_cast hi), Int.toNat_natCast] at hout
      exact ⟨q, c₁, hquery, hout⟩
  | dpf c =>
      have hle := h.rows_lt
      obtain ⟨qL, qR, left, right, row, hq, hL, hR, hrow, hrec⟩ := dpf_correct M.prf M.env M.env M.env
        hwf.static (by omega) (h.seesAll hwf.static hrows) (h.seesAll hwf.static hrows) src.draw hi
      rw [StaticDB.row_eq hwf.static hi, Option.some.injEq] at hrow
      rw [hknows] at hq
      refine ⟨_, .dpf c, ?_, rfl, hknows⟩
      simp only [ReaderClient.read, hq, hL, hR, hrec, hrow, Option.bind_eq_bind, Option.bind_some]
  | nonPrivate =>
      have hrow : nonPrivateProcess i ddb.staticDb = some (ddb.staticDb.get n i).toList := by
        rw [nonPrivateProcess, hwf.static.rowLen_eq]
        exact slice_rowAt hwf.static.length_eq hi
      refine ⟨_, .nonPrivate, ?_, rfl, trivial⟩
      simp only [ReaderClient.read, hrow, Option.bind_eq_bind, Option.bind_some]
  | singlePass c =>
      obtain ⟨rfl, hswaps⟩ := hready
      have hcols : c.nHints = H := by
        obtain ⟨t, v, hbehind, -⟩ := hknows
        rw [show c = t.client v from hbehind.client_eq]
        rfl
      obtain ⟨out, s', hstep, hcorrect, hinv⟩ := editStep_spec (H := H) M.env.build h.setSize_pos
        h.nHints_pos h.rowLen_pos h.kernel ⟨ddb, c, false⟩
        (.read i fun j => ⟨src.swaps j, hcols ▸ hswaps j⟩) hknows ⟨trivial, Or.inl rfl⟩
      obtain ⟨row, hrow, rfl⟩ := hcorrect rfl
      simp only [DynamicState.step, Option.bind_eq_bind, Option.bind_eq_some_iff, Option.some.injEq,
        Prod.mk.injEq] at hstep
      obtain ⟨⟨res, c'⟩, hread, rfl, rfl⟩ := hstep
      refine ⟨.ok row, .singlePass c', ?_, ?_, hinv⟩
      · rw [read_singlePass, hread, Option.map_some]
      · rw [Int.emod_eq_of_lt (Int.natCast_nonneg i) (by exact_mod_cast hi), Int.toNat_natCast,
          StaticDB.row_eq hwf.static hi, Option.some.injEq] at hrow
        rw [hrow]
        rfl

/-- The hints of a SinglePass client after an update are those of the current rows. The other clients
refuse. -/
def ReaderClient.Updates (S H n : ℕ) (db : StaticDB) (out : Except String Unit) :
    ReaderClient → ReaderClient → Prop
  | .singlePass _, impl' => out = .ok () ∧ ∃ c, impl' = .singlePass c ∧ c.HintInvariant S H n db
  | impl, impl' => out = .error "Update can only be called for Single Pass Client." ∧ impl' = impl

/-- No client is too old for a database that keeps its log. -/
theorem SinglePassClient.update_ok {B : Build} {rnd : ℕ → ℕ → UInt32} {c c' : SinglePassClient}
    (hinit : ddb.opInitVersion = 0) {out : Except String Unit}
    (h : c.update B rnd ddb = some (out, c')) : out = .ok () := by
  rw [SinglePassClient.update, SinglePassUpdateReq.getUpdates, hinit, if_neg (Nat.not_lt_zero _)] at h
  split_ifs at h
  · simp only [Option.bind_eq_bind, Option.bind_some, Option.some.injEq, Prod.mk.injEq] at h
    exact h.1.symm
  · simp only [Option.bind_eq_bind, Option.bind_some, Option.bind_eq_some_iff, Option.some.injEq,
      Prod.mk.injEq] at h
    obtain ⟨_, -, hout, -⟩ := h
    exact hout.symm
  · simp at h

/-- **One update**, for every type. -/
theorem ReaderClient.Knows.update {impl : ReaderClient} (h : ReaderFits M setSize S H n)
    (hknows : impl.Knows M S H n ddb stale) (hwf : ddb.WF n) (rnd : ℕ → ℕ → UInt32) :
    ∃ out impl', impl.update M rnd ddb = some (out, impl') ∧
      impl.Updates S H n ddb.staticDb out impl' ∧
      (out = .ok () ∧ impl'.Knows M S H n ddb false ∨ (∃ err, out = .error err) ∧ impl' = impl) := by
  cases impl with
  | singlePass c =>
      obtain ⟨out, s', hstep, hcorrect, hinv⟩ := editStep_spec (H := H) M.env.build h.setSize_pos
        h.nHints_pos h.rowLen_pos h.kernel ⟨ddb, c, stale⟩ (.update rnd) hknows ⟨trivial, trivial⟩
      simp only [DynamicState.step, Option.bind_eq_bind, Option.bind_eq_some_iff, Option.some.injEq,
        Prod.mk.injEq] at hstep
      obtain ⟨⟨res, c'⟩, hupdate, rfl, rfl⟩ := hstep
      have hok := SinglePassClient.update_ok hwf.opInitVersion_eq hupdate
      refine ⟨res, .singlePass c', by rw [ReaderClient.update, hupdate]; rfl,
        ⟨hok, c', rfl, hcorrect.1⟩, Or.inl ⟨hok, hinv⟩⟩
  | _ => exact ⟨_, _, rfl, ⟨rfl, rfl⟩, Or.inr ⟨⟨_, rfl⟩, rfl⟩⟩

end

/-! ## Runs -/

namespace ReaderState
variable {M : Machine} {setSize S H n : ℕ}

/-- A reader that has not been initialised, with two servers that hold `ddb`. -/
def start (setSize : ℕ) (ddb : DynamicDB) : ReaderState := ⟨none, setSize, ddb, ddb, false⟩

/-- The preprocessing of an initialisation returns, reads and edits are of rows of the table, and a
read is ready. -/
def Proper (M : Machine) (s : ReaderState) : ReaderAction n → Prop
  | .init t src => InitReady M src s.left.staticDb t
  | .read i src => i < s.left.staticDb.numRows ∧
      ∀ impl ∈ s.impl, impl.Ready M s.left.staticDb s.stale src i
  | .update _ => True
  | .edit batch => ∀ e ∈ batch, e.1 < s.left.staticDb.numRows

/-- A read returns the row that the servers hold, and an update brings the hints of a SinglePass
client to the rows that they hold. A call before the first initialisation fails and changes nothing. -/
def Correct (M : Machine) (S H : ℕ) (s : ReaderState) (a : ReaderAction n)
    (out : Except String (List UInt8)) (s' : ReaderState) : Prop :=
  match a with
  | .init _ _ => out = .ok []
  | .read i src => match s.impl with
      | none => out = .error "Did you forget to call Init?" ∧ s' = s
      | some impl => impl.Returns M src i (s.left.staticDb.get n i).toList out
  | .update _ => match s.impl with
      | none => out = .error "Did not call init" ∧ s' = s
      | some impl => ∃ res impl', impl.Updates S H n s.left.staticDb res impl' ∧
          s'.impl = some impl' ∧ out = res.map fun _ => []
  | .edit _ => out = .ok []

/-- Both servers hold the same database, of which the reader's client knows what its type needs. -/
structure Inv (M : Machine) (setSize S H n : ℕ) (s : ReaderState) : Prop where
  right_eq : s.right = s.left
  setSize_eq : s.setSize = setSize
  wf : s.left.WF n
  numRows_eq : s.left.staticDb.numRows = S * H
  knows : ∀ impl ∈ s.impl, impl.Knows M S H n s.left s.stale

/-- Ciphers that only count, with matrices of width two. -/
def countingMachine : Machine := ⟨⟨id, id⟩, countingEnv, 0, fun _ _ => 2⟩

/-- Four rows in two chunks -/
def fourRows : DynamicDB := ⟨⟨4, 1, 0, [1, 2, 3, 4]⟩, [], 0, 0, 10000, 4, 2⟩

/-- What the calls draw -/
def zeroDraws : ReaderSource := ⟨0, 0, fun _ => 0, 0, [], (0, 0), fun _ => 0, fun _ => 0⟩

/-- DPF reads the edited row at once, and SinglePass after an update. -/
def twoTypes : List (ReaderAction 1) :=
  [.read 0 zeroDraws, .init .dpf zeroDraws, .edit [(3, ⟨[9], rfl⟩)], .read 3 zeroDraws,
    .update fun _ _ => 0, .init .singlePass zeroDraws, .edit [(1, ⟨[7], rfl⟩)], .update fun _ _ => 0,
    .read 1 zeroDraws]

example : (runActions (step countingMachine) (start 0 fourRows) twoTypes).map
    (·.1.map Except.toOption) =
      some [none, some [], some [], some [9], none, some [], some [], some [], some [7]] := by
  decide +kernel

end ReaderState

end SinglePassPIR.Pir
