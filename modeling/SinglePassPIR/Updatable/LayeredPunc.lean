import SinglePassPIR.Pir.DpfClient
import SinglePassPIR.Pir.PuncRuns
import SinglePassPIR.Updatable.LayerRequests

/-!
# Puncturable sets in layers

A `WaterfallClient` of type `Punc` has puncturable-set clients for its layers, except for the last
one, which is DPF. A dummy query of theirs is a query for a set with row zero that is thrown away:
unlike that of SinglePass it is answered, it changes nothing but the counter of the generator, and
it looks like every other query.

As for one such client, what is assumed of a run is that the rejection loops return, that a set is
found, and that no identifier has wrapped round.

## Main results

* `query_finish`, `dummyQuery_answered` — what the client of a layer does in a read.
* `layers_read` — a read of a client that any run has led to returns the row.
-/

namespace SinglePassPIR.Pir
open Psetggm

/-! ## The client of a layer -/

namespace PuncClient
variable {env : Env} {db : StaticDB} {n : ℕ} {c c' : PuncClient} {draws : List ℕ}

theorem Sound.with_num (h : c.Sound env db n) {m : ℕ} (hm : c.setGen.num ≤ m) :
    { c with setGen := { c.setGen with num := m + 1 } }.Sound env db n where
  setInvariant := h.setInvariant.with_num hm
  hintsAre := by
    intro s hs
    rw [setXor_with_num]
    exact h.hintsAre s hs

/-- A dummy query moves the counter of the generator, and no more. -/
theorem dummyQuery_client (hfit : PuncFits db n) (h : c.setGen.For db) {q : PuncQueryReq}
    (hdummy : c.dummyQuery env draws = .ok (q, c')) :
    ∃ m, c.setGen.num ≤ m ∧ c' = { c with setGen := { c.setGen with num := m + 1 } } := by
  have hpos : 0 < c.setGen.univSize := h.univSize_eq ▸ hfit.numRows_pos
  rw [dummyQuery] at hdummy
  obtain ⟨⟨newSet, setGen⟩, hgen, hdummy⟩ := Outcome.bind_eq_ok hdummy
  obtain ⟨⟨-, m, hm, -, rfl⟩, -⟩ :=
    (SetGenerator.genWith_spec (h.fits hfit) hpos).of_ok hgen
  obtain ⟨extra, -, hdummy⟩ := Outcome.bind_eq_ok hdummy
  obtain ⟨puncSet, -, hdummy⟩ := Outcome.bind_eq_ok hdummy
  obtain ⟨-, rfl⟩ := Prod.mk.inj (Except.ok.inj hdummy)
  exact ⟨m, hm, rfl⟩

/-- The generator of the sets to come is for the table. -/
theorem puncClientOf_for (hfit : PuncFits db n) (seed newSetGenKey : Block) :
    Outcome.Safe (puncClientOf env db seed newSetGenKey) fun c => c.setGen.For db := by
  refine Outcome.Safe.bind (puncHintReq_spec hfit seed) ?_
  rintro resp ⟨l, gen, hgen, rfl⟩
  refine (initClient_spec hfit hgen newSetGenKey).mono ?_
  rintro c ⟨idx, -, -, rfl⟩
  exact ⟨rfl, rfl⟩

/-- **A dummy query is answered.** -/
theorem dummyQuery_answered (hfit : PuncFits db n) (h : c.SetInvariant env db)
    (hdraws : ∀ d ∈ draws, d < roundSqrt db.numRows) :
    Outcome.Safe (c.dummyQuery env draws) fun r => ∃ x e : Bytes n, r.1.Answers env db x e := by
  have hpos : 0 < c.setGen.univSize := h.setGen.univSize_eq ▸ hfit.numRows_pos
  refine Outcome.Safe.bind (SetGenerator.genWith_spec (h.setGen.fits hfit) hpos) ?_
  rintro ⟨newSet, setGen⟩ ⟨⟨hset, m, hm, hid, rfl⟩, hmem⟩
  have hnew : NewSet env { c with setGen := { c.setGen with num := m + 1 } } 0 newSet :=
    ⟨⟨hset.univSize_eq, hset.setSize_eq, hset.seed_eq, hset.elems_eq, hset.shift_lt⟩, hmem,
      hid ▸ Nat.lt_succ_of_le (Nat.mod_le m _)⟩
  have h' := h.with_num hm
  refine Outcome.Safe.bind (hnew.member h' 0 hdraws) ?_
  rintro ⟨extra, draws'⟩ ⟨hextra, -⟩
  obtain ⟨q, hq, hanswers⟩ := hnew.punc h' hfit hnew.mem
  dsimp only at hq ⊢
  rw [hq, Outcome.ok_bind]
  exact ⟨_, _, hanswers extra hextra⟩

/-- **Both halves of a read.** The requests of a query are answered, and the answers give the
row. -/
theorem query_finish (hfit : PuncFits db n) (h : c.Sound env db n) (i : ℤ) (coin : ℕ)
    (hdraws : ∀ d ∈ draws, d < roundSqrt db.numRows) :
    Outcome.Safe (c.query env i coin draws) fun r => r.2.setGen.num < 2 ^ 32 → ∀ q, r.1 = some q →
      ∃ left right c', q.left.process env db = some left ∧ q.right.process env db = some right ∧
        r.2.reconstruct env q.ctx [left, right] =
          some (.ok (rowAt n db.flatDb (i % (db.numRows : ℤ)).toNat).toList, c') ∧
        c'.Sound env db n := by
  refine (puncQuery_spec h.setInvariant hfit i coin hdraws).mono ?_
  rintro ⟨q, c₁⟩ hdone hnum q' hq
  have hdone := hdone hnum
  obtain ⟨hs, -, hpost⟩ := hdone.asks q' hq
  obtain ⟨new, hasks, hsets⟩ := hpost.asks
  dsimp only at hasks hsets
  have hints : ∀ s < c₁.sets.length, c₁.hints[s]? = some (c.setXor env db n s).toList := by
    intro s hs
    rw [hdone.hints_eq]
    exact h.hintsAre s (hdone.sets_length ▸ hs)
  obtain ⟨hints', hfin, hlen, hH⟩ := finish_spec hints hdone.setInvariant.hints_length
    (hdone.sets_length ▸ hs) hasks fun _ => rfl
  simp only [finish, Option.bind_eq_bind, Option.bind_eq_some_iff] at hfin
  obtain ⟨left, hleft, right, hright, hfin⟩ := hfin
  refine ⟨left, right, _, hleft, hright, hfin, hdone.setInvariant.with_hints hlen, ?_⟩
  intro s hs'
  rw [hH s hs']
  exact congrArg (some ·.toList) (hsets s).symm

end PuncClient

end SinglePassPIR.Pir

namespace SinglePassPIR.Updatable
open Pir Psetggm Dpf

/-! ## The PIR types of the layers -/

/-- What a call may draw. -/
structure PuncLayerSource where
  randSeed : Block
  newSetGenKey : Block
  coin : ℕ
  draws : List ℕ
  draw : Bytes 16 × Bytes 16

/-- A request for a hint; no layer has another type. -/
inductive PuncLayerHintReq
  | punc (req : PuncHintReq)
  | dpf
  | other (t : PirType)

/-- The hint of a layer -/
inductive PuncLayerHintResp
  | punc (resp : PuncHintResp)
  | dpf (resp : DPFHintResp)

/-- The client of a layer -/
inductive PuncLayerClient
  | punc (c : PuncClient)
  | dpf (c : DpfClient)
  deriving DecidableEq, Repr

/-- A request to a server, for the piece of a layer -/
inductive PuncLayerReq
  | punc (req : PuncQueryReq)
  | dpf (req : DPFQueryReq)
  deriving DecidableEq

/-- The answer of a server -/
inductive PuncLayerResp
  | punc (resp : PuncQueryResp)
  | dpf (resp : DPFQueryResp)
  deriving DecidableEq, Repr

/-- What the closure of a query has captured besides its client. -/
inductive PuncLayerCtx
  | punc (ctx : PuncQueryCtx)
  | dpf

/-- `NewHintReq` -/
def newPuncLayerHintReq (src : PuncLayerSource) : PirType → PuncLayerHintReq
  | .punc => .punc (newPuncHintReq src.randSeed)
  | .dpf => .dpf
  | t => .other t

/-- `HintReq.Process` -/
def PuncLayerHintReq.process (env : Env) (db : StaticDB) :
    PuncLayerHintReq → Option (Except String PuncLayerHintResp)
  | .punc req => (req.process env db).toOption.map fun resp => .ok (.punc resp)
  | .dpf => some (.ok (.dpf (dpfHint db)))
  | .other _ => none

theorem PuncLayerHintReq.process_ne_error {env : Env} (req : PuncLayerHintReq) (db : StaticDB)
    (err : String) : req.process env db ≠ some (.error err) := by
  cases req with
  | punc req => simp [PuncLayerHintReq.process]
  | dpf => simp [PuncLayerHintReq.process]
  | other t => simp [PuncLayerHintReq.process]

/-- `HintResp.InitClient` -/
def PuncLayerHintResp.initClient (env : Env) (src : PuncLayerSource) :
    PuncLayerHintResp → Option PuncLayerClient
  | .punc resp => (resp.initClient env src.newSetGenKey).toOption.map .punc
  | .dpf resp => some (.dpf resp.initClient)

/-- `Client.Query` -/
def PuncLayerClient.query (A : Prf) (env : Env) (src : PuncLayerSource) (i : ℤ) :
    PuncLayerClient → Option (Option (PuncLayerReq × PuncLayerReq × PuncLayerCtx) × PuncLayerClient)
  | .punc c => (c.query env i src.coin src.draws).toOption.map fun r =>
      (r.1.map fun q => (.punc q.left, .punc q.right, .punc q.ctx), .punc r.2)
  | .dpf c => (c.query A src.draw i).map fun q => (some (.dpf q.1, .dpf q.2, .dpf), .dpf c)

/-- `Client.DummyQuery` -/
def PuncLayerClient.dummyQuery (A : Prf) (env : Env) (src : PuncLayerSource) :
    PuncLayerClient → Option ((PuncLayerReq × PuncLayerReq) × PuncLayerClient)
  | .punc c => (c.dummyQuery env src.draws).toOption.map fun r => ((.punc r.1, .punc r.1), .punc r.2)
  | .dpf c => (c.dummyQuery A src.draw).map fun q => ((.dpf q.1, .dpf q.2), .dpf c)

/-- `QueryReq.Process` -/
def PuncLayerReq.process (A : Prf) (env : Env) (addr : ℕ) (db : StaticDB) :
    PuncLayerReq → Option PuncLayerResp
  | .punc req => (req.process env db).map .punc
  | .dpf req => (req.process A env addr db).map .dpf

/-- The closures that `Query` returns, with the checks of their answers; each is called with its
own client. -/
def PuncLayerClient.reconstruct (env : Env) (left right : PuncLayerResp) :
    PuncLayerClient → PuncLayerCtx → Option (Except String (List UInt8) × PuncLayerClient)
  | .punc c, .punc ctx =>
      match left, right with
      | .punc left, .punc right =>
          (c.reconstruct env ctx [left, right]).map fun r => (r.1, .punc r.2)
      | _, _ => some (.error
          "Invalid response type: *pir.DPFQueryResp, expected: *PuncQueryResp", .punc c)
  | .dpf c, .dpf =>
      match left, right with
      | .dpf left, .dpf right => (dpfReconstruct env left right).map fun row => (.ok row, .dpf c)
      | _, _ => some (.error
          "Invalid response type: *pir.PuncQueryResp, expected *DPFQueryResp", .dpf c)
  | _, _ => none

/-- The two types behind the interfaces of package `pir`. -/
abbrev layeredPunc (A : Prf) (env : Env) (addr : ℕ) : PirImpl where
  Source := PuncLayerSource
  HintReq := PuncLayerHintReq
  HintResp := PuncLayerHintResp
  Client := PuncLayerClient
  QueryReq := PuncLayerReq
  Resp := PuncLayerResp
  Ctx := PuncLayerCtx
  newHintReq := newPuncLayerHintReq
  processHint := fun req db => req.process env db
  initClient := fun src resp => resp.initClient env src
  query := fun src c i => c.query A env src i
  dummyQuery := fun src c => c.dummyQuery A env src
  process := fun req db => (req.process A env addr db).map .ok
  reconstruct := fun c ctx left right => c.reconstruct env left right ctx

/-! ## The clients of the layers -/

variable {A : Prf} {env : Env} {addr : ℕ}

/-- A client of type `t` for the table. A puncturable-set client is sound as long as no identifier
has wrapped round. -/
def PuncLayerFits (env : Env) (t : PirType) (table : StaticDB) : PuncLayerClient → Prop
  | .punc c => t = .punc ∧ (PuncFits table table.rowLen → c.setGen.For table ∧
      (c.setGen.num < 2 ^ 32 → c.Sound env table table.rowLen))
  | .dpf c => t = .dpf ∧ c.nRows = table.numRows

theorem puncLayerFits_of_built {t : PirType} {table : StaticDB} {client : PuncLayerClient}
    (h : WaterfallClient.Built (layeredPunc A env addr) t table client) :
    PuncLayerFits env t table client := by
  obtain ⟨src, initSrc, resp, hproc, hinit⟩ := h
  cases t with
  | punc =>
      simp only [newPuncLayerHintReq, PuncLayerHintReq.process, PirType.layered, if_true,
        Option.map_eq_some_iff, Except.ok.injEq] at hproc
      obtain ⟨resp', hproc, rfl⟩ := hproc
      simp only [PuncLayerHintResp.initClient, Option.map_eq_some_iff] at hinit
      obtain ⟨c, hinit, rfl⟩ := hinit
      have hclient : puncClientOf env table src.randSeed initSrc.newSetGenKey = .ok c := by
        rw [puncClientOf, Outcome.toOption_eq_some hproc, Outcome.ok_bind,
          Outcome.toOption_eq_some hinit]
      exact ⟨rfl, fun hfit => ⟨(PuncClient.puncClientOf_for hfit _ _).of_ok hclient,
        (puncClientOf_spec hfit _ _).of_ok hclient⟩⟩
  | dpf =>
      simp only [newPuncLayerHintReq, PuncLayerHintReq.process, Option.some.injEq, Except.ok.injEq]
        at hproc
      subst hproc
      simp only [PuncLayerHintResp.initClient, Option.some.injEq] at hinit
      subst hinit
      exact ⟨rfl, rfl⟩
  | _ => simp [newPuncLayerHintReq, PuncLayerHintReq.process] at hproc

theorem PuncLayerFits.type_eq {t t' : PirType} {table : StaticDB} {client : PuncLayerClient}
    (h : PuncLayerFits env t table client) (h' : PuncLayerFits env t' table client) : t = t' := by
  cases client with
  | punc c => exact h.1.trans h'.1.symm
  | dpf c => exact h.1.trans h'.1.symm

/-- A dummy query leaves a client for the table. -/
theorem PuncLayerFits.of_dummyQuery {t : PirType} {table : StaticDB} {src : PuncLayerSource}
    {client client' : PuncLayerClient} {q : PuncLayerReq × PuncLayerReq}
    (h : PuncLayerFits env t table client)
    (hdummy : client.dummyQuery A env src = some (q, client')) : PuncLayerFits env t table client' := by
  cases client with
  | punc c =>
      simp only [PuncLayerClient.dummyQuery, Option.map_eq_some_iff] at hdummy
      obtain ⟨⟨q', c'⟩, hdummy, heq⟩ := hdummy
      obtain ⟨-, rfl⟩ := Prod.mk.inj heq
      refine ⟨h.1, ?_⟩
      intro hfit
      obtain ⟨hfor, hsound⟩ := h.2 hfit
      obtain ⟨m, hm, rfl⟩ :=
        PuncClient.dummyQuery_client hfit hfor (Outcome.toOption_eq_some hdummy)
      refine ⟨⟨hfor.univSize_eq, hfor.setSize_eq⟩, ?_⟩
      intro hnum
      exact (hsound (by dsimp only at hnum; omega)).with_num hm
  | dpf c =>
      simp only [PuncLayerClient.dummyQuery, Option.map_eq_some_iff] at hdummy
      obtain ⟨q', -, heq⟩ := hdummy
      obtain ⟨-, rfl⟩ := Prod.mk.inj heq
      exact h

/-! ## The calls of a read -/

/-- The calls of a layer in a read return, on draws that are members of a set, a set for row `i` of
the layer is found if the layer holds the row, and no identifier has wrapped round. -/
def PuncLayerClient.Ready (env : Env) (src : PuncLayerSource) (numRows : ℕ) (i : Option ℕ) :
    PuncLayerClient → Prop
  | .punc c => c.setGen.num < 2 ^ 32 ∧ (∀ d ∈ src.draws, d < roundSqrt numRows) ∧
      match i with
      | some i => (c.query env i src.coin src.draws).Admits fun r =>
          r.1.isSome ∧ r.2.setGen.num < 2 ^ 32
      | none => (c.dummyQuery env src.draws).Admits fun _ => True
  | .dpf _ => True

section
variable {t : PirType} {table : StaticDB} {client : PuncLayerClient} {src : PuncLayerSource}

/-- The DPF layer. -/
theorem dpf_read (hwf : table.WF table.rowLen) (hsize : table.numRows ≤ 2 ^ 63)
    (hsees : SeesAll env addr table) {c : DpfClient} (hrows : c.nRows = table.numRows)
    (draw : Bytes 16 × Bytes 16) {i : ℕ} (hi : i < table.numRows) : ∃ qL qR left right,
      c.query A draw i = some (qL, qR) ∧ qL.process A env addr table = some left ∧
      qR.process A env addr table = some right ∧
      dpfReconstruct env left right = some (rowAt table.rowLen table.flatDb i).toList := by
  obtain ⟨qL, qR, left, right, row, hq, hL, hR, hrow, hrec⟩ := dpf_correct A env env env hwf hsize
    hsees hsees draw hi
  have hclient : (dpfHint table).initClient = c := by
    rw [DPFHintResp.initClient, dpfHint, ← hrows]
  rw [StaticDB.row_eq hwf hi, Option.some.injEq] at hrow
  subst hrow
  exact ⟨qL, qR, left, right, hclient ▸ hq, hL, hR, hrec⟩

theorem punc_answersDummy (hfit : PuncFits table table.rowLen) {c : PuncClient}
    (h : c.SetInvariant env table) (hready : (PuncLayerClient.punc c).Ready env src table.numRows none) :
    AnswersDummy (layeredPunc A env addr) src (.punc c) table := by
  obtain ⟨-, hdraws, hdummy⟩ := hready
  obtain ⟨⟨q, c'⟩, hdummy, ⟨x, e, hanswer⟩, -⟩ :=
    (PuncClient.dummyQuery_answered hfit h hdraws).of_admits hdummy
  have hanswer : q.process env table = some ⟨x.toList, e.toList⟩ := hanswer
  refine ⟨.punc q, .punc q, .punc c', .punc ⟨x.toList, e.toList⟩, .punc ⟨x.toList, e.toList⟩,
    ?_, ?_, ?_⟩
  · simp only [PuncLayerClient.dummyQuery, hdummy]
    rfl
  · simp only [PuncLayerReq.process, hanswer, Option.map_some]
  · simp only [PuncLayerReq.process, hanswer, Option.map_some]

theorem dpf_answersDummy (hfit : PuncFits table table.rowLen) (hsees : SeesAll env addr table)
    {c : DpfClient} (hrows : c.nRows = table.numRows) :
    AnswersDummy (layeredPunc A env addr) src (.dpf c) table := by
  obtain ⟨qL, qR, left, right, hq, hL, hR, -⟩ :=
    dpf_read (A := A) hfit.wf (hfit.numRows_le.trans (by decide)) hsees hrows src.draw hfit.numRows_pos
  have hq : c.query A src.draw 0 = some (qL, qR) := hq
  refine ⟨.dpf qL, .dpf qR, .dpf c, .dpf left, .dpf right, ?_, ?_, ?_⟩
  · simp only [PuncLayerClient.dummyQuery, DpfClient.dummyQuery, hq, Option.map_some]
  · simp only [PuncLayerReq.process, hL, Option.map_some]
  · simp only [PuncLayerReq.process, hR, Option.map_some]

/-- **A layer that does not hold the row.** -/
theorem PuncLayerFits.answersDummy (h : PuncLayerFits env t table client)
    (hfit : PuncFits table table.rowLen) (hsees : SeesAll env addr table)
    (hready : client.Ready env src table.numRows none) :
    AnswersDummy (layeredPunc A env addr) src client table := by
  cases client with
  | punc c => exact punc_answersDummy hfit ((h.2 hfit).2 hready.1).setInvariant hready
  | dpf c => exact dpf_answersDummy hfit hsees h.2

/-- **The layer that holds the row.** -/
theorem PuncLayerFits.read (h : PuncLayerFits env t table client)
    (hfit : PuncFits table table.rowLen) (hsees : SeesAll env addr table) {i : ℕ}
    (hi : i < table.numRows) (hready : client.Ready env src table.numRows (some i)) :
    ∃ l r ctx client' a b client'', client.query A env src i = some (some (l, r, ctx), client') ∧
      l.process A env addr table = some a ∧ r.process A env addr table = some b ∧
      client'.reconstruct env a b ctx =
        some (.ok (rowAt table.rowLen table.flatDb i).toList, client'') ∧
      PuncLayerFits env t table client'' := by
  cases client with
  | punc c =>
      obtain ⟨hnum, hdraws, hquery⟩ := hready
      obtain ⟨hfor, hsound⟩ := h.2 hfit
      obtain ⟨⟨q, c'⟩, hquery, hfinish, hsome, hnum'⟩ :=
        (PuncClient.query_finish hfit (hsound hnum) i src.coin hdraws).of_admits hquery
      obtain ⟨q, rfl⟩ := Option.isSome_iff_exists.mp hsome
      obtain ⟨left, right, c'', hL, hR, hrec, hsound''⟩ := hfinish hnum' q rfl
      have hmod : ((i : ℤ) % (table.numRows : ℤ)).toNat = i := by
        rw [Int.emod_eq_of_lt (Int.natCast_nonneg i) (by exact_mod_cast hi), Int.toNat_natCast]
      rw [hmod] at hrec
      refine ⟨.punc q.left, .punc q.right, .punc q.ctx, .punc c', .punc left, .punc right, .punc c'',
        ?_, ?_, ?_, ?_, h.1, fun _ => ⟨hsound''.setInvariant.setGen, fun _ => hsound''⟩⟩
      · simp only [PuncLayerClient.query, hquery]
        rfl
      · simp only [PuncLayerReq.process, hL, Option.map_some]
      · simp only [PuncLayerReq.process, hR, Option.map_some]
      · simp only [PuncLayerClient.reconstruct, hrec, Option.map_some]
  | dpf c =>
      obtain ⟨qL, qR, left, right, hq, hL, hR, hrec⟩ :=
        dpf_read (A := A) hfit.wf (hfit.numRows_le.trans (by decide)) hsees h.2 src.draw hi
      refine ⟨.dpf qL, .dpf qR, .dpf, .dpf c, .dpf left, .dpf right, .dpf c, ?_, ?_, ?_, ?_, h⟩
      · simp only [PuncLayerClient.query, hq, Option.map_some]
      · simp only [PuncLayerReq.process, hL, Option.map_some]
      · simp only [PuncLayerReq.process, hR, Option.map_some]
      · simp only [PuncLayerClient.reconstruct, hrec, Option.map_some]

end

/-! ## The other layers -/

namespace WaterfallClient
variable {P : PirImpl} {K : PirType → StaticDB → P.Client → Prop} {c : WaterfallClient P.Client}
  {data : List UInt8}

/-- The layers that do not hold the row. -/
theorem Serves.othersAnswer (hs : c.Serves K data) {src : ℕ → P.Source} {pos l : ℕ}
    {target : ClientLayer P.Client} (hpos : pos < c.numRows) (hget : c.layers[l]? = some target)
    (hcov : Covers ClientLayer.firstRow ClientLayer.numRows pos target)
    (hmiss : ∀ (j : ℕ) layer client, c.layers[j]? = some layer → layer.pir = some client →
      layer.numRows ≠ 0 → ¬Covers ClientLayer.firstRow ClientLayer.numRows pos layer →
        AnswersDummy P (src j) client (tableAt c.rowLen data layer.firstRow layer.numRows)) :
    OthersAnswer P src c.rowLen data c.layers l := by
  intro j layer other hj hlayer hother
  have hne : layer.numRows ≠ 0 := by
    intro hzero
    rw [hs.empty layer (List.mem_of_getElem? hlayer) hzero] at hother
    cases hother
  refine hmiss j layer other hlayer hother hne fun hcov' => hj ?_
  exact (hs.layered.tiles.existsUnique_piece (Nat.zero_le _) hpos).unique ⟨layer, hlayer, hcov'⟩
    ⟨target, hget, hcov⟩

end WaterfallClient

/-! ## Runs -/

/-- The row of the layer that a query for row `pos` asks for, if the layer holds it. -/
def ClientLayer.rowIn {γ : Type} (layer : ClientLayer γ) (pos : ℕ) : Option ℕ :=
  if layer.firstRow ≤ pos ∧ pos < layer.firstRow + layer.numRows then some (pos - layer.firstRow)
  else none

/-- An update or a reset, or a read with the databases of the two servers. -/
inductive ServedAction (P : PirImpl)
  | waterfall (a : WaterfallAction P)
  | read (src : ℕ → P.Source) (pos : ℕ) (dbL dbR : StaticDB)

namespace Waterfall
variable {P : PirImpl}

/-- A read; a server that fails ends the run. -/
def read (s : Waterfall P) (src : ℕ → P.Source) (pos : ℕ) (dbL dbR : StaticDB) :
    Option (Except String (List UInt8) × Waterfall P) := do
  let ((reqL, reqR, ctx), client) ← s.client.query src pos
  let respsL ← reqL.process P dbL
  let respsR ← reqR.process P dbR
  let (row, client) ← client.reconstruct ctx (← respsL.toOption) (← respsR.toOption)
  some (row, { s with client })

/-- One action, with what a read returns. -/
def servedStep (s : Waterfall P) :
    ServedAction P → Option (Option (Except String (List UInt8)) × Waterfall P)
  | .waterfall a => (s.step a).map fun r => (none, r.2)
  | .read src pos dbL dbR => (s.read src pos dbL dbR).map fun r => (some r.1, r.2)

/-- The row is one of the client's, both servers have its rows, the databases have a size that the
clients can count in, and the calls of the layers return. -/
structure ReadReady (env : Env) (addr : ℕ) (A : Prf) (s : Waterfall (layeredPunc A env addr))
    (src : ℕ → PuncLayerSource) (pos : ℕ) (dbL dbR : StaticDB) : Prop where
  pos_lt : pos < s.client.numRows
  rowLen_pos : 0 < s.client.rowLen
  numRows_le : s.client.numRows ≤ 2 ^ 31
  flat_lt : s.client.numRows * s.client.rowLen < 2 ^ 32
  aligned : s.client.rowLen = 32 → addr % env.build.lane = 0
  left : Stores s.client.rowLen s.data dbL
  right : Stores s.client.rowLen s.data dbR
  ready : ∀ (j : ℕ) (layer : ClientLayer PuncLayerClient) (client : PuncLayerClient),
    s.client.layers[j]? = some layer → layer.pir = some client →
      client.Ready env (src j) layer.numRows (layer.rowIn pos)

/-- The database of an update has the client's rows, and its hint arrives; a read is ready. -/
def Proper (env : Env) (addr : ℕ) (A : Prf) (s : Waterfall (layeredPunc A env addr)) :
    ServedAction (layeredPunc A env addr) → Prop
  | .waterfall a => s.Allowed a ∧ (s.step a).isSome
  | .read src pos dbL dbR => s.ReadReady env addr A src pos dbL dbR

/-- A read returns the row. -/
def Reads (s : Waterfall P) (a : ServedAction P) (out : Option (Except String (List UInt8)))
    (_ : Waterfall P) : Prop :=
  ∀ src pos dbL dbR, a = .read src pos dbL dbR →
    out = some (.ok (rowAt s.client.rowLen s.data pos).toList)

/-- The databases have a size that the clients of the layers can count in. -/
structure Sized (env : Env) (addr : ℕ) (s : Waterfall P) : Prop where
  rowLen_pos : 0 < s.client.rowLen
  numRows_le : s.client.numRows ≤ 2 ^ 31
  flat_lt : s.client.numRows * s.client.rowLen < 2 ^ 32
  aligned : s.client.rowLen = 32 → addr % env.build.lane = 0

/-- The clients of the layers can count in the tables. -/
theorem Sized.fits {s : Waterfall P} (h : s.Sized env addr) {K : PirType → StaticDB → P.Client → Prop}
    (hs : s.client.Serves K s.data) {layer : ClientLayer P.Client} (hl : layer ∈ s.client.layers)
    (hne : layer.numRows ≠ 0) :
    PuncFits (tableAt s.client.rowLen s.data layer.firstRow layer.numRows) s.client.rowLen ∧
      SeesAll env addr (tableAt s.client.rowLen s.data layer.firstRow layer.numRows) := by
  obtain ⟨hend, hbytes⟩ := hs.layer_end hl hne
  have hle : layer.numRows ≤ s.client.numRows := by omega
  have hflat := (Nat.mul_le_mul_right s.client.rowLen hle).trans_lt h.flat_lt
  refine ⟨⟨tableAt_wf hbytes, h.rowLen_pos, Nat.pos_of_ne_zero hne, hle.trans h.numRows_le, hflat⟩, ?_⟩
  intro hrowLen
  rw [tableAt_rowLen] at hrowLen
  rw [hrowLen] at hflat
  exact ⟨by rw [tableAt_numRows]; omega, h.aligned hrowLen⟩

theorem ReadReady.sized {s : Waterfall (layeredPunc A env addr)} {src : ℕ → PuncLayerSource} {pos : ℕ}
    {dbL dbR : StaticDB} (h : s.ReadReady env addr A src pos dbL dbR) : s.Sized env addr :=
  ⟨h.rowLen_pos, h.numRows_le, h.flat_lt, h.aligned⟩

theorem rowIn_of_covers {γ : Type} {layer : ClientLayer γ} {pos : ℕ}
    (h : Covers ClientLayer.firstRow ClientLayer.numRows pos layer) :
    layer.rowIn pos = some (pos - layer.firstRow) := if_pos h

theorem rowIn_of_not_covers {γ : Type} {layer : ClientLayer γ} {pos : ℕ}
    (h : ¬Covers ClientLayer.firstRow ClientLayer.numRows pos layer) : layer.rowIn pos = none :=
  if_neg h

/-- **A read** is answered by both servers, gives the row, and keeps the layers. -/
theorem ReadReady.read {s : Waterfall (layeredPunc A env addr)} {src : ℕ → PuncLayerSource} {pos : ℕ}
    {dbL dbR : StaticDB} (h : s.ReadReady env addr A src pos dbL dbR)
    (hs : s.client.Serves (PuncLayerFits env) s.data)
    (hhinted : WaterfallClient.Hinted s.client.layers) :
    ∃ s', s.read src pos dbL dbR =
        some (.ok (rowAt s.client.rowLen s.data pos).toList, s') ∧
      s'.client.Serves (PuncLayerFits env) s'.data ∧
      WaterfallClient.Hinted s'.client.layers := by
  have htiles := hs.layered.tiles
  obtain ⟨upper, target, lower, hlayers, hcov, -, -⟩ := htiles.split (Nat.zero_le _) h.pos_lt
  have hget : s.client.layers[upper.length]? = some target := by simp [hlayers]
  have hmem : target ∈ s.client.layers := by simp [hlayers]
  have hne := hcov.size_ne_zero
  have hi := hcov.sub_lt
  -- the layer that holds the row
  obtain ⟨client, hpir⟩ := Option.isSome_iff_exists.mp (hhinted target hmem hne)
  obtain ⟨t, -, hfits⟩ := hs.serves target hmem client hpir
  obtain ⟨hfit, hsees⟩ := h.sized.fits hs hmem hne
  have hready := h.ready _ target client hget hpir
  rw [rowIn_of_covers hcov] at hready
  obtain ⟨l, r, ctx, client', a, b, client'', hq, ha, hb, hrec, hfits''⟩ :=
    hfits.read (A := A) hfit hsees hi hready
  -- the other ones
  have hothers : WaterfallClient.OthersAnswer (layeredPunc A env addr) src s.client.rowLen s.data
      s.client.layers upper.length := by
    refine hs.othersAnswer h.pos_lt hget hcov ?_
    intro j layer other hlayer hother hne' hmiss
    have hl := List.mem_of_getElem? hlayer
    obtain ⟨t', -, hfits'⟩ := hs.serves layer hl other hother
    obtain ⟨hfit', hsees'⟩ := h.sized.fits hs hl hne'
    have hready' := h.ready j layer other hlayer hother
    rw [rowIn_of_not_covers hmiss] at hready'
    exact hfits'.answersDummy hfit' hsees' hready'
  have hactive := hs.active hhinted (List.Subset.refl _)
  rw [hlayers] at htiles hothers hactive
  obtain ⟨reqL, reqR, k, upper', lower', hlen, hquery, hafterU, hafterL, hansL, hansR⟩ :=
    WaterfallClient.query_spec (c := s.client) h.left h.right src
      (by rw [hlayers, List.append_nil]) (by simp) htiles hactive hs.length_eq.ge hothers hcov hpir hq
  rw [tableAt_rowLen, tableAt_row hi, Nat.add_sub_cancel' hcov.1] at hrec
  obtain ⟨respsL, hpL, hkL⟩ := hansL a (congrArg (Option.map Except.ok) ha)
  obtain ⟨respsR, hpR, hkR⟩ := hansR b (congrArg (Option.map Except.ok) hb)
  have hreconstruct := @WaterfallClient.reconstruct_target (layeredPunc A env addr) s.client target
    client' upper' (lower' ++ []) k ctx respsL respsR a b hkL hkR
  rw [hlen, (show (layeredPunc A env addr).reconstruct client' ctx a b = _ from hrec),
    Option.map_some] at hreconstruct
  -- every client is as good for its table as before
  have hafter : ∀ layer layer', WaterfallClient.AfterDummy (layeredPunc A env addr) layer layer' →
      WaterfallClient.Renewed (PuncLayerFits env) s.client.rowLen s.data layer layer' :=
    fun layer layer' h => h.renewed fun t table client src q client' hK hdummy =>
      hK.of_dummyQuery (A := A) hdummy
  have htarget : WaterfallClient.Renewed (PuncLayerFits env) s.client.rowLen s.data target
      { target with pir := some client'' } := by
    refine ⟨rfl, by rw [hpir]; rfl, ?_⟩
    intro t' client₀ client₁ h₀ h₁ hK
    obtain rfl : client'' = client₁ := Option.some.inj h₁
    obtain rfl : client = client₀ := Option.some.inj (hpir.symm.trans h₀)
    exact hfits.type_eq hK ▸ hfits''
  have hrenewed : List.Forall₂ (WaterfallClient.Renewed (PuncLayerFits env) s.client.rowLen s.data)
      s.client.layers (upper' ++ { target with pir := some client'' } :: (lower' ++ [])) := by
    rw [hlayers, List.append_nil]
    exact List.rel_append (hafterU.imp hafter) (.cons htarget (hafterL.imp hafter))
  refine ⟨{ s with client := { s.client with layers := upper' ++
    { target with pir := some client'' } :: (lower' ++ []) } }, ?_, hs.renew hrenewed,
    hhinted.renew hrenewed⟩
  simp only [Waterfall.read, hquery, hpL, hpR, hreconstruct, Option.bind_eq_bind, Option.bind_some,
    Except.toOption]

/-- **Puncturable sets in layers.** In every run of updates, resets and reads of a client of type
`Punc` or `DPF`, each read returns its row. -/
theorem layers_read (A : Prf) (env : Env) (addr : ℕ) (pirType : PirType) (override : ℕ)
    (as : List (ServedAction (layeredPunc A env addr))) :
    AlwaysUnder servedStep (Proper env addr A) Reads
      (Waterfall.new (layeredPunc A env addr) pirType override) as := by
  refine alwaysUnder_of_invariant (fun s => s.client.Serves (PuncLayerFits env) s.data ∧
    WaterfallClient.Hinted s.client.layers) ?_ as _ ⟨WaterfallClient.serves_empty rfl rfl, by
      simp [new, WaterfallClient.new, WaterfallClient.Hinted]⟩
  intro s a hs hproper
  cases a with
  | waterfall a =>
      obtain ⟨hallowed, hsome⟩ := hproper
      obtain ⟨⟨o, s'⟩, hstep⟩ := Option.isSome_iff_exists.mp hsome
      refine ⟨none, s', by rw [servedStep, hstep]; rfl, ?_, step_serves (fun t table client _ _ =>
        puncLayerFits_of_built) hs.1 hs.2 hallowed hstep⟩
      intro src pos dbL dbR h
      cases h
  | read src pos dbL dbR =>
      obtain ⟨s', hread, hs'⟩ := hproper.read hs.1 hs.2
      refine ⟨_, s', by rw [servedStep, hread]; rfl, ?_, hs'⟩
      intro src' pos' dbL' dbR' h
      cases h
      rfl

/-- Nine one-byte rows, in layers of six and of three. -/
example :
    let src : PuncLayerSource := ⟨0, 0, 1, [0, 1, 0, 1], (0, 0)⟩
    let db : StaticDB := ⟨9, 1, 0, [1, 2, 3, 4, 5, 6, 7, 8, 9]⟩
    ((runActions servedStep (Waterfall.new (layeredPunc ⟨id, id⟩ countingEnv 0) .punc 2)
      [.waterfall (.update src src 6 1 db), .waterfall (.update src src 3 1 db),
        .read (fun _ => src) 7 db db]).map fun r => r.1.map (Option.map Except.toOption)) =
      some [none, none, some (some [8])] := by
  decide +kernel

end Waterfall

end SinglePassPIR.Updatable
