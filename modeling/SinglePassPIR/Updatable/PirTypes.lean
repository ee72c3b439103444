import SinglePassPIR.Pir.Matrix
import SinglePassPIR.Updatable.LayeredPunc
import SinglePassPIR.Updatable.LayeredSinglePass
import SinglePassPIR.Updatable.StaleReads

/-!
# The PIR types behind a client

An updatable client is made for one of the types of package `pir`, which stands behind the interfaces
of its layers; the last layer of a client of type `Punc` or `SinglePass` is DPF. Every one of them is
sound: the client of a layer stays one for its piece, and a read that both servers answered from that
piece returns the row.

A read relies on what cannot be proved of a run: that the sizes of the piece are ones that the code
can count in and, for puncturable sets, that no identifier has wrapped round.

## Main results

* `pirImpl_sound` — every type is sound.
* `reads_synced` — the reads of a client of any type between its updates.
-/

namespace SinglePassPIR.Pir
open Psetggm

/-! ## The counter of a puncturable-set client -/

namespace PuncClient
variable {env : Env} {c : PuncClient}

theorem replaceSet_setGen (s : ℕ) (newSet : PuncturableSet) :
    (c.replaceSet env s newSet).Ensures fun c' => c'.setGen = c.setGen := by
  rw [replaceSet]
  refine Outcome.Ensures.of_bind fun pset => Outcome.Ensures.of_bind fun idx => ?_
  refine Outcome.Ensures.of_bind fun sets => Outcome.Ensures.of_bind fun idxToSetIdx => ?_
  exact Outcome.ensures_ok rfl

theorem findIndex_setGen (i : ℤ) :
    (c.findIndex env i).Ensures fun r => r.2.setGen = c.setGen := by
  rw [findIndex]
  split_ifs
  · exact Outcome.ensures_ok rfl
  · refine Outcome.Ensures.of_bind fun r => Outcome.Ensures.of_bind fun setIdx => ?_
    split_ifs
    · exact Outcome.ensures_ok rfl
    · exact Outcome.Ensures.of_bind fun found => Outcome.ensures_ok rfl

theorem genWith_gen (gen : SetGenerator) (val : ℕ) :
    (gen.genWith env val).Ensures fun r => ∃ pset, gen.gen env [] = .ok (pset, r.2) := by
  rw [SetGenerator.genWith]
  refine Outcome.Ensures.bind (fun a (h : gen.gen env [] = .ok a) => h) ?_
  rintro ⟨pset, gen'⟩ hgen
  dsimp only
  split_ifs
  · exact Outcome.ensures_error _
  · refine Outcome.Ensures.of_bind fun elem => Outcome.Ensures.of_bind fun shift => ?_
    exact Outcome.Ensures.of_bind fun elems => Outcome.ensures_ok ⟨pset, hgen⟩

theorem queryCase_setGen (i : ℕ) (pset : PuncturableSet) (ctx : PuncQueryCtx) (draws : List ℕ) :
    (c.queryCase env i pset ctx draws).Ensures fun r =>
      ∃ base, c.setGen.gen env [] = .ok (base, r.2.setGen) := by
  rw [queryCase]
  refine (genWith_gen c.setGen i).bind ?_
  rintro ⟨newSet, setGen⟩ ⟨base, hgen⟩
  have hcase : ctx.randCase = 0 ∨ ctx.randCase = 1 ∨ ctx.randCase = 2 := by omega
  dsimp only
  rcases hcase with h0 | h1 | h2
  · rw [h0]
    refine Outcome.Ensures.of_bind fun extraL => Outcome.Ensures.of_bind fun extraR => ?_
    refine Outcome.Ensures.of_bind fun puncSetL => Outcome.Ensures.of_bind fun puncSetR => ?_
    refine (replaceSet_setGen ctx.setIdx newSet).bind ?_
    intro c' hc'
    exact Outcome.ensures_ok ⟨base, hc' ▸ hgen⟩
  · rw [h1]
    refine Outcome.Ensures.of_bind fun extraR => Outcome.Ensures.of_bind fun extraL => ?_
    refine Outcome.Ensures.of_bind fun puncSetL => Outcome.Ensures.of_bind fun puncSetR => ?_
    exact Outcome.ensures_ok ⟨base, hgen⟩
  · rw [h2]
    refine Outcome.Ensures.of_bind fun extraL => Outcome.Ensures.of_bind fun extraR => ?_
    refine Outcome.Ensures.of_bind fun puncSetL => Outcome.Ensures.of_bind fun puncSetR => ?_
    exact Outcome.ensures_ok ⟨base, hgen⟩

/-- **A query takes one set** from the generator. -/
theorem query_setGen (i : ℤ) (coin : ℕ) (draws : List ℕ) :
    (c.query env i coin draws).Ensures fun r => r.1.isSome →
      ∃ base, c.setGen.gen env [] = .ok (base, r.2.setGen) := by
  rw [query]
  split_ifs
  · exact Outcome.ensures_error _
  · refine (findIndex_setGen i).bind ?_
    rintro ⟨found, c'⟩ hgen
    cases found with
    | none => exact Outcome.ensures_ok (by simp)
    | some s =>
        refine Outcome.Ensures.of_bind fun k => Outcome.Ensures.of_bind fun pset => ?_
        refine (queryCase_setGen k.toNat pset _ _).bind ?_
        rintro ⟨q, c''⟩ ⟨base, hbase⟩
        dsimp only at hgen hbase
        rw [hgen] at hbase
        exact Outcome.ensures_ok fun _ => ⟨base, hbase⟩

end PuncClient

end SinglePassPIR.Pir

namespace SinglePassPIR.Updatable
open Pir Psetggm Dpf KeyLog

variable {A : Prf} {env : Env} {addr : ℕ}

/-! ## DPF -/

/-- What a DPF client relies on: a count of rows that is an `int`, and a kernel that sees all rows. -/
def DpfRelies (table : StaticDB) : Prop :=
  table.numRows ≤ 2 ^ 63 ∧ (table.rowLen = 32 → table.numRows < 2 ^ 27)

/-- **A DPF read that both servers answered.** The kernel could load from their table. -/
theorem dpf_answered {table : StaticDB} (hwf : table.WF table.rowLen) (hrelies : DpfRelies table)
    {c : DpfClient} (hrows : c.nRows = table.numRows) {draw : Bytes 16 × Bytes 16} {i : ℕ}
    (hi : i < table.numRows) {qL qR : DPFQueryReq} (hq : c.query A draw i = some (qL, qR))
    {left right : DPFQueryResp} (hL : qL.process A env addr table = some left)
    (hR : qR.process A env addr table = some right) :
    dpfReconstruct env left right = some (rowAt table.rowLen table.flatDb i).toList := by
  obtain ⟨hsize, hsmall⟩ := hrelies
  have hsees : SeesAll env addr table := by
    intro h32
    refine ⟨hsmall h32, ?_⟩
    obtain ⟨qL', qR', hq', hevaluates, -⟩ :=
      DpfClient.query_spec (A := A) draw (hrows ▸ hi) (hrows ▸ hsize)
    rw [hq, Option.some.injEq, Prod.mk.injEq] at hq'
    rw [← hq'.1, hrows] at hevaluates
    have haligned := (DPFQueryReq.process_isSome_iff env addr hwf (Nat.zero_lt_of_lt hi)
      hevaluates).mp ⟨left, hL⟩
    refine (haligned h32).resolve_left ?_
    rw [Nat.mod_eq_of_lt (hsmall h32)]
    omega
  obtain ⟨qL', qR', left', right', hq', hL', hR', hrec⟩ :=
    dpf_read (A := A) hwf hsize hsees hrows draw hi
  rw [hq, Option.some.injEq, Prod.mk.injEq] at hq'
  obtain ⟨rfl, rfl⟩ := hq'
  obtain rfl := Option.some.inj (hL.symm.trans hL')
  obtain rfl := Option.some.inj (hR.symm.trans hR')
  exact hrec

/-! ## Puncturable sets -/

/-- What a read relies on: sizes that the kernels can represent, draws of members of a set, and an
identifier for the next set that does not wrap round. -/
def PuncLayerRelies (env : Env) (table : StaticDB) (src : PuncLayerSource) : PuncLayerClient → Prop
  | .punc c => PuncFits table table.rowLen ∧ (∀ d ∈ src.draws, d < roundSqrt table.numRows) ∧
      ∀ base setGen, c.setGen.gen env [] = .ok (base, setGen) → setGen.num < 2 ^ 32
  | .dpf _ => DpfRelies table

/-- **A puncturable-set read** that both servers answered. -/
theorem punc_answered {table : StaticDB} {src : PuncLayerSource} {c c' : PuncClient}
    (hfits : PuncLayerFits env .punc table (.punc c))
    (hrelies : PuncLayerRelies env table src (.punc c)) {i : ℕ} (hi : i < table.numRows) {q : PuncQuery}
    (hquery : c.query env i src.coin src.draws = .ok (some q, c')) {left right : PuncQueryResp}
    (hL : q.left.process env table = some left) (hR : q.right.process env table = some right) :
    ∃ c'', c'.reconstruct env q.ctx [left, right] =
        some (.ok (rowAt table.rowLen table.flatDb i).toList, c'') ∧
      PuncLayerFits env .punc table (.punc c'') := by
  obtain ⟨hfit, hdraws, hnext⟩ := hrelies
  obtain ⟨hfor, hsound⟩ := hfits.2 hfit
  -- the counter has not wrapped round before the query either
  obtain ⟨base, hgen⟩ := PuncClient.query_setGen i src.coin src.draws _ hquery rfl
  have hnum : c'.setGen.num < 2 ^ 32 := hnext base c'.setGen hgen
  obtain ⟨m, hm, hcount, -⟩ := (SetGenerator.genLoop_spec (hfor.fits hfit) _
    (SetGenerator.length_buffer [])).of_ok hgen
  have hbefore : c.setGen.num < 2 ^ 32 := by
    dsimp only at hcount
    rw [hcount] at hnum
    exact hm.trans_lt (Nat.lt_of_succ_lt hnum)
  have hfinish := (PuncClient.query_finish hfit (hsound hbefore) i src.coin hdraws).of_ok hquery
  obtain ⟨left', right', c'', hL', hR', hrec, hsound''⟩ := hfinish hnum q rfl
  obtain rfl := Option.some.inj (hL.symm.trans hL')
  obtain rfl := Option.some.inj (hR.symm.trans hR')
  have hmod : ((i : ℤ) % (table.numRows : ℤ)).toNat = i := by
    rw [Int.emod_eq_of_lt (Int.natCast_nonneg i) (by exact_mod_cast hi), Int.toNat_natCast]
  rw [hmod] at hrec
  exact ⟨c'', hrec, rfl, fun _ => ⟨hsound''.setInvariant.setGen, fun _ => hsound''⟩⟩

/-- **The types `Punc` and `DPF` are sound.** -/
theorem layeredPunc_sound : (layeredPunc A env addr).Sound (PuncLayerFits env)
    fun table src client _ => PuncLayerRelies env table src client where
  built := fun t table client _ _ => puncLayerFits_of_built
  dummy := fun t table client src q client' h hdummy => h.of_dummyQuery hdummy
  processHint_ne_error := PuncLayerHintReq.process_ne_error
  process_ne_error := by
    intro q db err
    simp
  read := by
    intro t table client src i left right ctx client' a b res client'' h hwf hi hrelies hquery hL hR
      hrec
    simp only [Option.map_eq_some_iff, Except.ok.injEq] at hL hR
    obtain ⟨a, hL, rfl⟩ := hL
    obtain ⟨b, hR, rfl⟩ := hR
    cases client with
    | punc c =>
        obtain rfl : t = .punc := h.1
        simp only [PuncLayerClient.query, Option.map_eq_some_iff, Prod.mk.injEq] at hquery
        obtain ⟨⟨_, c'⟩, hquery, ⟨q, rfl, rfl, rfl, rfl⟩, rfl⟩ := hquery
        simp only [PuncLayerReq.process, Option.map_eq_some_iff] at hL hR
        obtain ⟨a, hL, rfl⟩ := hL
        obtain ⟨b, hR, rfl⟩ := hR
        obtain ⟨c'', hrec', hfits⟩ :=
          punc_answered h hrelies hi (Outcome.toOption_eq_some hquery) hL hR
        simp only [PuncLayerClient.reconstruct, hrec', Option.map_some, Option.some.injEq,
          Prod.mk.injEq] at hrec
        obtain ⟨rfl, rfl⟩ := hrec
        exact ⟨hfits, fun row hrow => (Except.ok.inj hrow).symm⟩
    | dpf c =>
        simp only [PuncLayerClient.query, Option.map_eq_some_iff, Option.some.injEq, Prod.mk.injEq]
          at hquery
        obtain ⟨q, hquery, ⟨rfl, rfl, rfl⟩, rfl⟩ := hquery
        simp only [PuncLayerReq.process, Option.map_eq_some_iff] at hL hR
        obtain ⟨a, hL, rfl⟩ := hL
        obtain ⟨b, hR, rfl⟩ := hR
        have hrow := dpf_answered hwf hrelies h.2 hi hquery hL hR
        simp only [PuncLayerClient.reconstruct, hrow, Option.map_some, Option.some.injEq,
          Prod.mk.injEq] at hrec
        obtain ⟨rfl, rfl⟩ := hrec
        exact ⟨h, fun row hrow => (Except.ok.inj hrow).symm⟩

/-! ## SinglePass -/

/-- Sizes that the kernels can represent, with the set size that the server takes if none is given. -/
def SinglePassRelies (table : StaticDB) : Prop :=
  table.numRows < 2 ^ 32 ∧ table.numRows / intSqrt table.numRows * table.rowLen < 2 ^ 32

/-- A client of type `t` for the table, whose hints are those of the table. -/
def LayerSound (t : PirType) (table : StaticDB) : LayerClient → Prop
  | .singlePass c => t = .singlePass ∧ 0 < table.rowLen ∧ intSqrt table.numRows ∣ table.numRows ∧
      (SinglePassRelies table → c.HintInvariant (intSqrt table.numRows)
        (table.numRows / intSqrt table.numRows) table.rowLen table)
  | .dpf c => t = .dpf ∧ c.nRows = table.numRows

/-- What a read relies on. -/
def LayerRelies (table : StaticDB) : LayerClient → Prop
  | .singlePass _ => SinglePassRelies table
  | .dpf _ => DpfRelies table

theorem layerSound_of_built {t : PirType} {table : StaticDB} {client : LayerClient}
    (hwf : table.WF table.rowLen) (hne : table.numRows ≠ 0)
    (h : WaterfallClient.Built (layered A env addr) t table client) : LayerSound t table client := by
  obtain ⟨src, initSrc, resp, hproc, hinit⟩ := h
  cases t with
  | singlePass =>
      simp only [newLayerHintReq, LayerHintReq.process, PirType.layered, if_true,
        Option.map_eq_some_iff, Except.ok.injEq] at hproc
      obtain ⟨resp', hproc, rfl⟩ := hproc
      simp only [LayerHintResp.initClient, Option.map_eq_some_iff] at hinit
      obtain ⟨c, hinit, rfl⟩ := hinit
      have hclient : (SinglePassHintReq.process env.build src.rnd ⟨0⟩ table).bind
          SinglePassHintResp.initClient = some c := by
        rw [hproc, Option.bind_some, hinit]
      have hn := (client_shaped hclient).1.rowLen_pos
      have hN := Nat.pos_of_ne_zero hne
      have hdvd : intSqrt table.numRows ∣ table.numRows := by
        by_contra hdvd
        rw [initClient_eq_none hdvd hproc] at hinit
        cases hinit
      refine ⟨rfl, hn, hdvd, ?_⟩
      rintro ⟨hrows, hchunk⟩
      have hS : 0 < intSqrt table.numRows := Nat.sqrt_pos.mpr hN
      have hH := Nat.div_pos (Nat.le_of_dvd hN hdvd) hS
      have hfit := kernelFits_default hN hdvd hrows hchunk
      obtain ⟨resp'', t, hproc', hinit', hchunks, hmatches⟩ := hint_spec env.build src.rnd ⟨0⟩ hS hH
        hn hfit hwf (Nat.mul_div_cancel' hdvd).symm (if_neg (by simp))
      obtain rfl := Option.some.inj (hproc.symm.trans hproc')
      obtain rfl := Option.some.inj (hinit.symm.trans hinit')
      exact ⟨t, _, rfl, hchunks, hmatches⟩
  | dpf =>
      simp only [newLayerHintReq, LayerHintReq.process, Option.some.injEq, Except.ok.injEq] at hproc
      subst hproc
      simp only [LayerHintResp.initClient, Option.some.injEq] at hinit
      subst hinit
      exact ⟨rfl, rfl⟩
  | _ => simp [newLayerHintReq, LayerHintReq.process] at hproc

/-- **A SinglePass read** that both servers answered. -/
theorem singlePass_answered {table : StaticDB} (hwf : table.WF table.rowLen) {c : SinglePassClient}
    (hsound : LayerSound .singlePass table (.singlePass c)) (hrelies : SinglePassRelies table) {i : ℕ}
    (hi : i < table.numRows) {intn : ℕ → ℕ} {q : SinglePassQuery}
    (hquery : c.query i (fun j => intn j % c.nHints) = some q) {left right : SinglePassQueryResp}
    (hL : q.left.process env.build table = some left)
    (hR : q.right.process env.build table = some right) :
    ∃ c', c.reconstruct env.build [left, right] q.ctx =
        some (.ok (rowAt table.rowLen table.flatDb i).toList, c') ∧
      LayerSound .singlePass table (.singlePass c') := by
  obtain ⟨-, hn, hdvd, hinv⟩ := hsound
  have hN := Nat.zero_lt_of_lt hi
  have hS : 0 < intSqrt table.numRows := Nat.sqrt_pos.mpr hN
  have hH := Nat.div_pos (Nat.le_of_dvd hN hdvd) hS
  have hfit := kernelFits_default hN hdvd hrelies.1 hrelies.2
  have hhints : c.nHints = table.numRows / intSqrt table.numRows := by
    obtain ⟨t, v, rfl, -⟩ := hinv hrelies
    rfl
  obtain ⟨out, c', hstep, ⟨⟨row, hrow, rfl⟩, -⟩, hinv'⟩ := SinglePassClient.step_spec env.build hS
    hn hfit hwf (Nat.mul_div_cancel' hdvd).symm c (.complete i fun j => ⟨intn j % _, Nat.mod_lt _ hH⟩)
    (hinv hrelies)
  have hmod : ((i : ℤ) % (table.numRows : ℤ)).toNat = i := by
    rw [Int.emod_eq_of_lt (Int.natCast_nonneg i) (by exact_mod_cast hi), Int.toNat_natCast]
  rw [hmod, StaticDB.row_eq hwf hi, Option.some.injEq] at hrow
  subst hrow
  rw [hhints] at hquery
  simp only [SinglePassClient.step, SinglePassClient.read, hquery, hL, hR, Option.bind_eq_bind,
    Option.bind_some, Option.bind_eq_some_iff, Option.some.injEq, Prod.mk.injEq] at hstep
  obtain ⟨⟨_, _⟩, hrec, rfl, rfl⟩ := hstep
  exact ⟨_, hrec, rfl, hn, hdvd, fun _ => hinv'⟩

/-- **The type `SinglePass` is sound.** -/
theorem layered_sound :
    (layered A env addr).Sound LayerSound fun table _ client _ => LayerRelies table client where
  built := fun t table client hwf hne => layerSound_of_built hwf hne
  dummy := by
    intro t table client src q client' h hdummy
    obtain ⟨_, -, heq⟩ := Option.map_eq_some_iff.mp hdummy
    exact (Prod.mk.inj heq).2 ▸ h
  processHint_ne_error := by
    intro req db err
    cases req with
    | singlePass req rnd => simp [LayerHintReq.process]
    | dpf => simp [LayerHintReq.process]
    | other t => simp [LayerHintReq.process]
  process_ne_error := by
    intro q db err
    simp
  read := by
    intro t table client src i left right ctx client' a b res client'' h hwf hi hrelies hquery hL hR
      hrec
    simp only [Option.map_eq_some_iff, Except.ok.injEq] at hL hR
    obtain ⟨a, hL, rfl⟩ := hL
    obtain ⟨b, hR, rfl⟩ := hR
    obtain ⟨q, hlayer, heq⟩ := Option.map_eq_some_iff.mp hquery
    obtain ⟨hq, rfl⟩ := Prod.mk.inj heq
    obtain rfl := Option.some.inj hq
    cases client with
    | singlePass c =>
        obtain rfl : t = .singlePass := h.1
        simp only [LayerClient.query, Option.map_eq_some_iff, Prod.mk.injEq] at hlayer
        obtain ⟨q, hlayer, rfl, rfl, rfl⟩ := hlayer
        simp only [LayerQueryReq.process, Option.map_eq_some_iff] at hL hR
        obtain ⟨a, hL, rfl⟩ := hL
        obtain ⟨b, hR, rfl⟩ := hR
        obtain ⟨c', hrec', hsound⟩ := singlePass_answered hwf h hrelies hi hlayer hL hR
        simp only [LayerClient.reconstruct, hrec', Option.map_some, Option.some.injEq,
          Prod.mk.injEq] at hrec
        obtain ⟨rfl, rfl⟩ := hrec
        exact ⟨hsound, fun row hrow => (Except.ok.inj hrow).symm⟩
    | dpf c =>
        simp only [LayerClient.query, Option.map_eq_some_iff, Prod.mk.injEq] at hlayer
        obtain ⟨q, hlayer, rfl, rfl, rfl⟩ := hlayer
        simp only [LayerQueryReq.process, Option.map_eq_some_iff] at hL hR
        obtain ⟨a, hL, rfl⟩ := hL
        obtain ⟨b, hR, rfl⟩ := hR
        have hrow := dpf_answered hwf hrelies h.2 hi hlayer hL hR
        simp only [LayerClient.reconstruct, hrow, Option.map_some, Option.some.injEq,
          Prod.mk.injEq] at hrec
        obtain ⟨rfl, rfl⟩ := hrec
        exact ⟨h, fun row hrow => (Except.ok.inj hrow).symm⟩

/-! ## Matrix -/

/-- `pir_matrix.go` behind the interfaces; no row has a negative number. -/
abbrev matrixLayer (env : Env) (widthOf : ℕ → ℕ → ℕ) : PirImpl where
  Source := ℕ → UInt64
  HintReq := Unit
  HintResp := MatrixHintResp
  Client := MatrixClient
  QueryReq := MatrixQueryReq
  Resp := MatrixQueryResp
  Ctx := ℕ
  newHintReq := fun _ _ => ()
  processHint := fun _ db => some (.ok (matrixHint db))
  initClient := fun _ resp => resp.initClient widthOf
  query := fun coins c i => if i < 0 then none else some (some (c.query coins i.toNat), c)
  dummyQuery := fun coins c => some (((c.query coins 0).1, (c.query coins 0).2.1), c)
  process := fun req db => (req.process env widthOf db).map .ok
  reconstruct := fun c colNum left right =>
    (c.reconstructFunc env colNum [.response left, .response right]).map fun row => (row, c)

/-- **The type `Matrix` is sound.** A client has been made, so that its width is positive. -/
theorem matrixLayer_sound (widthOf : ℕ → ℕ → ℕ) : (matrixLayer env widthOf).Sound
    (fun _ table c => (matrixHint table).initClient widthOf = some c) fun _ _ _ _ => True where
  built := by
    rintro t table client hwf hne ⟨src, initSrc, resp, hproc, hinit⟩
    obtain rfl := Except.ok.inj (Option.some.inj hproc)
    cases t <;> exact hinit
  dummy := by
    intro t table client src q client' h hdummy
    obtain ⟨-, rfl⟩ := Prod.mk.inj (Option.some.inj hdummy)
    exact h
  processHint_ne_error := by
    intro req db err h
    cases h
  process_ne_error := by
    intro q db err
    simp
  read := by
    intro t table c coins i left right colNum c' a b res c'' h hwf hi _ hquery hL hR hrec
    simp only [Option.map_eq_some_iff, Except.ok.injEq] at hL hR
    obtain ⟨a, hL, rfl⟩ := hL
    obtain ⟨b, hR, rfl⟩ := hR
    dsimp only at hquery hrec
    rw [if_neg (show ¬((i : ℕ) : ℤ) < 0 by omega), Int.toNat_natCast, Option.some.injEq] at hquery
    obtain ⟨hq, rfl⟩ := Prod.mk.inj hquery
    rw [Option.some.injEq] at hq
    have hwidth : 0 < widthOf table.numRows table.rowLen := by
      refine Nat.pos_of_ne_zero fun hzero => ?_
      simp [matrixHint, MatrixHintResp.initClient, getHeightWidth, hzero] at h
    obtain ⟨c₀, left, right, row, hinit, hL', hR', -, -, hrow, hrec'⟩ :=
      matrix_correct env widthOf hwf (Nat.zero_lt_of_lt hi) hwidth coins hi
    obtain rfl := Option.some.inj (h.symm.trans hinit)
    rw [hq] at hL' hR' hrec'
    obtain rfl := Option.some.inj (hL.symm.trans hL')
    obtain rfl := Option.some.inj (hR.symm.trans hR')
    rw [StaticDB.row_eq hwf hi, Option.some.injEq] at hrow
    subst hrow
    simp only [hrec', Option.map_some, Option.some.injEq, Prod.mk.injEq] at hrec
    obtain ⟨rfl, rfl⟩ := hrec
    exact ⟨hinit, fun row hrow => (Except.ok.inj hrow).symm⟩

/-! ## Every type -/

/-- The implementation behind the interfaces of a client; for `Perm`, `NewHintReq` panics. -/
abbrev pirImpl (A : Prf) (env : Env) (addr : ℕ) (widthOf : ℕ → ℕ → ℕ) : PirType → PirImpl
  | .matrix => matrixLayer env widthOf
  | .punc => layeredPunc A env addr
  | .perm => layeredPunc A env addr
  | .dpf => layeredPunc A env addr
  | .nonPrivate => nonPrivate
  | .singlePass => layered A env addr

/-- What is kept of the client of a layer. -/
def PirKeeps (A : Prf) (env : Env) (addr : ℕ) (widthOf : ℕ → ℕ → ℕ) : (pirType : PirType) →
    PirType → StaticDB → (pirImpl A env addr widthOf pirType).Client → Prop
  | .matrix => fun _ table c => (matrixHint table).initClient widthOf = some c
  | .punc => PuncLayerFits env
  | .perm => PuncLayerFits env
  | .dpf => PuncLayerFits env
  | .nonPrivate => fun _ _ _ => True
  | .singlePass => LayerSound

/-- What a read of the client of a layer relies on. -/
def PirRelies (A : Prf) (env : Env) (addr : ℕ) (widthOf : ℕ → ℕ → ℕ) : (pirType : PirType) →
    StaticDB → (pirImpl A env addr widthOf pirType).Source →
    (pirImpl A env addr widthOf pirType).Client → ℕ → Prop
  | .matrix => fun _ _ _ _ => True
  | .punc => fun table src client _ => PuncLayerRelies env table src client
  | .perm => fun table src client _ => PuncLayerRelies env table src client
  | .dpf => fun table src client _ => PuncLayerRelies env table src client
  | .nonPrivate => fun _ _ _ _ => True
  | .singlePass => fun table _ client _ => LayerRelies table client

/-- **Every type is sound.** -/
theorem pirImpl_sound (A : Prf) (env : Env) (addr : ℕ) (widthOf : ℕ → ℕ → ℕ) (pirType : PirType) :
    (pirImpl A env addr widthOf pirType).Sound (PirKeeps A env addr widthOf pirType)
      (PirRelies A env addr widthOf pirType) := by
  cases pirType with
  | matrix => exact matrixLayer_sound widthOf
  | punc => exact layeredPunc_sound
  | perm => exact layeredPunc_sound
  | dpf => exact layeredPunc_sound
  | nonPrivate => exact ReadSystem.nonPrivate_sound
  | singlePass => exact layered_sound

namespace ReadSystem

/-- **Reads of rows that have not moved** are right in every run of a client of any type, whatever the
server does between the two calls of an update and the reads. -/
theorem reads_synced (A : Prf) (env : Env) (addr : ℕ) (widthOf : ℕ → ℕ → ℕ) (n : ℕ)
    (pirType : PirType) (smallest : ℕ)
    (as : List (ReadAction (pirImpl A env addr widthOf pirType) × List UInt8)) :
    SafeUnder spareStep (Unmoved (PirRelies A env addr widthOf pirType) n) ReadsSynced
      (start (pirImpl A env addr widthOf pirType) pirType smallest) as :=
  spareStep_synced (pirImpl_sound A env addr widthOf pirType) n pirType smallest as

/-- Three rows, and a key update with its hint. -/
def threeRows : List (ReadAction nonPrivate × List UInt8) :=
  [(.server (.addRows id [7] [[70]]), []), (.server (.addRows id [5] [[50]]), []),
    (.server (.addRows id [6] [[60]]), []), (.sync, []), (.hint () (), [])]

/-- The deletions make the server compact its log. With one more row there is again a row at every
position, but key 6 has the one where key 5 had its own. -/
theorem stale_read_wrong :
    ¬SafeUnder spareStep (fun _ a => ∀ b, a.1 = .server b → b.Valid 1) ReadsSynced
      (start nonPrivate .nonPrivate 0)
      (threeRows ++ [(.server (.deleteRows [7, 1, 1, 1, 1, 1]), []),
        (.server (.addRows id [8] [[80]]), [])] ++ [(.read false false (fun _ => ()) 5, [])]) := by
  have hrun : ((runActions spareStep (start nonPrivate .nonPrivate 0)
      (threeRows ++ [(.server (.deleteRows [7, 1, 1, 1, 1, 1]), []),
        (.server (.addRows id [8] [[80]]), [])])).bind fun r =>
        (spareStep r.2 (.read false false (fun _ => ()) 5, [])).map fun r' =>
          (r'.1, r.2.synced.kv.lookup 5)) = some (some ([60], none), some [50]) := by
    decide +kernel
  rw [Option.bind_eq_some_iff] at hrun
  obtain ⟨⟨os, s⟩, hrun, hread⟩ := hrun
  rw [Option.map_eq_some_iff] at hread
  obtain ⟨⟨o, s'⟩, hread, hresult⟩ := hread
  simp only [Prod.mk.injEq] at hresult
  intro h
  have hsafe := h.last ?_ hrun hread
  · have hlookup := hsafe false false (fun _ => ()) 5 [60] rfl hresult.1
    simp [hresult.2] at hlookup
  · rintro ⟨a, spare⟩ ha s b rfl
    simp only [threeRows, List.mem_append, List.mem_cons, List.not_mem_nil, or_false, Prod.mk.injEq,
      ReadAction.server.injEq, reduceCtorEq, false_and] at ha
    rcases ha with (⟨rfl, -⟩ | ⟨rfl, -⟩ | ⟨rfl, -⟩) | ⟨rfl, -⟩ | ⟨rfl, -⟩ <;>
      simp [ServerAction.Valid, putsOf]

end ReadSystem

end SinglePassPIR.Updatable
