import SinglePassPIR.Pir.DpfClient
import SinglePassPIR.Pir.ShapedReads
import SinglePassPIR.Updatable.LayerRequests

/-!
# SinglePass in layers

A `WaterfallClient` of type `SinglePass` has SinglePass clients for its layers, except for the last
one, which is DPF. The dummy query of a SinglePass client, of which a comment says that it is not
needed, is what the layers that do not hold the row are asked: its set size is zero, and the server
divides by it. The query is answered only if no SinglePass layer with rows is asked for a dummy, and
then its requests do not tell one row from another.

A source has what a call may draw: the numbers of the C generator for a hint, those of `Intn`, and
the two blocks of `Gen`. `addr` is the address of the server's database. It decides only about rows
of 32 bytes, whose pieces are all aligned as the database is.

## Main results

* `answeredAlike_iff` — the clients and rows for which both servers answer and cannot tell the row.
-/

namespace SinglePassPIR.Updatable
open Pir Psetggm Dpf

/-! ## The PIR types of the layers -/

/-- What a call may draw. -/
structure LayerSource where
  rnd : ℕ → UInt32
  intn : ℕ → ℕ
  draw : Bytes 16 × Bytes 16

/-- A request for a hint; no layer has another type. -/
inductive LayerHintReq
  | singlePass (req : SinglePassHintReq) (rnd : ℕ → UInt32)
  | dpf
  | other (t : PirType)

/-- The hint of a layer -/
inductive LayerHintResp
  | singlePass (resp : SinglePassHintResp)
  | dpf (resp : DPFHintResp)

/-- The client of a layer -/
inductive LayerClient
  | singlePass (c : SinglePassClient)
  | dpf (c : DpfClient)
  deriving DecidableEq, Repr

/-- A request to a server, for the piece of a layer -/
inductive LayerQueryReq
  | singlePass (req : SinglePassQueryReq)
  | dpf (req : DPFQueryReq)
  deriving DecidableEq

/-- The answer of a server -/
inductive LayerQueryResp
  | singlePass (resp : SinglePassQueryResp)
  | dpf (resp : DPFQueryResp)
  deriving DecidableEq, Repr

/-- What the closure of a query has captured besides its client. -/
inductive LayerCtx
  | singlePass (ctx : SinglePassQueryCtx)
  | dpf

/-- `NewHintReq`; the generator of the server is not that of the seed. -/
def newLayerHintReq (src : LayerSource) : PirType → LayerHintReq
  | .singlePass => .singlePass { setSize := 0 } src.rnd
  | .dpf => .dpf
  | t => .other t

/-- `HintReq.Process` -/
def LayerHintReq.process (env : Env) (db : StaticDB) :
    LayerHintReq → Option (Except String LayerHintResp)
  | .singlePass req rnd => (req.process env.build rnd db).map fun resp => .ok (.singlePass resp)
  | .dpf => some (.ok (.dpf (dpfHint db)))
  | .other _ => none

/-- `HintResp.InitClient` -/
def LayerHintResp.initClient : LayerHintResp → Option LayerClient
  | .singlePass resp => resp.initClient.map .singlePass
  | .dpf resp => some (.dpf resp.initClient)

/-- `Client.Query`; draw `j` of `Intn` is a number below its argument. -/
def LayerClient.query (A : Prf) (src : LayerSource) (i : ℤ) :
    LayerClient → Option (LayerQueryReq × LayerQueryReq × LayerCtx)
  | .singlePass c => (c.query i fun j => src.intn j % c.nHints).map fun q =>
      (.singlePass q.left, .singlePass q.right, .singlePass q.ctx)
  | .dpf c => (c.query A src.draw i).map fun q => (.dpf q.1, .dpf q.2, .dpf)

/-- `Client.DummyQuery` -/
def LayerClient.dummyQuery (A : Prf) (src : LayerSource) :
    LayerClient → Option (LayerQueryReq × LayerQueryReq)
  | .singlePass c => some (.singlePass c.dummyQuery.1, .singlePass c.dummyQuery.2)
  | .dpf c => (c.dummyQuery A src.draw).map fun q => (.dpf q.1, .dpf q.2)

/-- `QueryReq.Process` -/
def LayerQueryReq.process (A : Prf) (env : Env) (addr : ℕ) (db : StaticDB) :
    LayerQueryReq → Option LayerQueryResp
  | .singlePass req => (req.process env.build db).map .singlePass
  | .dpf req => (req.process A env addr db).map .dpf

/-- The closures that `Query` returns, with the checks of their answers; each is called with its
own client. -/
def LayerClient.reconstruct (env : Env) (left right : LayerQueryResp) :
    LayerClient → LayerCtx → Option (Except String (List UInt8) × LayerClient)
  | .singlePass c, .singlePass ctx =>
      match left, right with
      | .singlePass left, .singlePass right =>
          (c.reconstruct env.build [left, right] ctx).map fun r => (r.1, .singlePass r.2)
      | _, _ => some (.error
          "Invalid response type: *pir.DPFQueryResp, expected: *SinglePassQueryResp", .singlePass c)
  | .dpf c, .dpf =>
      match left, right with
      | .dpf left, .dpf right => (dpfReconstruct env left right).map fun row => (.ok row, .dpf c)
      | _, _ => some (.error
          "Invalid response type: *pir.SinglePassQueryResp, expected *DPFQueryResp", .dpf c)
  | _, _ => none

/-- The two types behind the interfaces of package `pir`. -/
abbrev layered (A : Prf) (env : Env) (addr : ℕ) : PirImpl where
  Source := LayerSource
  HintReq := LayerHintReq
  HintResp := LayerHintResp
  Client := LayerClient
  QueryReq := LayerQueryReq
  Resp := LayerQueryResp
  Ctx := LayerCtx
  newHintReq := newLayerHintReq
  processHint := fun req db => req.process env db
  initClient := fun _ resp => resp.initClient
  query := fun src c i => (c.query A src i).map fun q => (some q, c)
  dummyQuery := fun src c => (c.dummyQuery A src).map fun q => (q, c)
  process := fun req db => (req.process A env addr db).map .ok
  reconstruct := fun c ctx left right => c.reconstruct env left right ctx

/-! ## The clients of the layers -/

/-- The client is one for the table, of type `t`. -/
def LayerFits (t : PirType) (table : StaticDB) : LayerClient → Prop
  | .singlePass c => t = .singlePass ∧ c.Shaped table.rowLen ∧ c.nRows = table.numRows
  | .dpf c => t = .dpf ∧ c.nRows = table.numRows

variable {A : Prf} {env : Env} {addr : ℕ}

theorem layerFits_of_built (t : PirType) (table : StaticDB) (client : LayerClient)
    (h : WaterfallClient.Built (layered A env addr) t table client) : LayerFits t table client := by
  obtain ⟨src, initSrc, resp, hproc, hinit⟩ := h
  cases t with
  | singlePass =>
      simp only [newLayerHintReq, LayerHintReq.process, PirType.layered, if_true,
        Option.map_eq_some_iff, Except.ok.injEq] at hproc
      obtain ⟨resp', hproc, rfl⟩ := hproc
      simp only [LayerHintResp.initClient, Option.map_eq_some_iff] at hinit
      obtain ⟨c, hinit, rfl⟩ := hinit
      obtain ⟨hshaped, hrows, -⟩ := client_shaped (by rw [hproc, Option.bind_some, hinit])
      exact ⟨rfl, hshaped, hrows⟩
  | dpf =>
      simp only [newLayerHintReq, LayerHintReq.process, Option.some.injEq, Except.ok.injEq] at hproc
      subst hproc
      simp only [LayerHintResp.initClient, Option.some.injEq] at hinit
      subst hinit
      exact ⟨rfl, rfl⟩
  | _ => simp [newLayerHintReq, LayerHintReq.process] at hproc

/-- A closure that returns leaves a client for the table. -/
theorem LayerFits.of_reconstruct {t : PirType} {table : StaticDB} {client client' : LayerClient}
    {ctx : LayerCtx} {left right : LayerQueryResp} {res : Except String (List UInt8)}
    (h : LayerFits t table client)
    (hrec : client.reconstruct env left right ctx = some (res, client')) :
    LayerFits t table client' := by
  cases client with
  | singlePass c =>
      cases ctx with
      | dpf => simp [LayerClient.reconstruct] at hrec
      | singlePass ctx =>
          obtain ⟨ht, hshaped, hrows⟩ := h
          cases left <;> cases right
          case singlePass.singlePass left right =>
            simp only [LayerClient.reconstruct, Option.map_eq_some_iff] at hrec
            obtain ⟨⟨res', c'⟩, hrec, hres⟩ := hrec
            obtain ⟨-, rfl⟩ := Prod.mk.inj hres
            obtain ⟨hshaped', hrows'⟩ := hshaped.of_reconstruct hrec
            exact ⟨ht, hshaped', hrows'.trans hrows⟩
          all_goals
            obtain ⟨-, rfl⟩ := Prod.mk.inj (Option.some.inj hrec)
            exact ⟨ht, hshaped, hrows⟩
  | dpf c =>
      cases ctx with
      | singlePass ctx => simp [LayerClient.reconstruct] at hrec
      | dpf =>
          cases left <;> cases right
          case dpf.dpf left right =>
            simp only [LayerClient.reconstruct, Option.map_eq_some_iff] at hrec
            obtain ⟨row, -, hres⟩ := hrec
            obtain ⟨-, rfl⟩ := Prod.mk.inj hres
            exact h
          all_goals
            obtain ⟨-, rfl⟩ := Prod.mk.inj (Option.some.inj hrec)
            exact h

theorem layerFits_keeps : WaterfallClient.Keeps (layered A env addr) LayerFits where
  dummy := by
    intro t table client src q client' h hdummy
    obtain ⟨_, -, heq⟩ := Option.map_eq_some_iff.mp hdummy
    exact (Prod.mk.inj heq).2 ▸ h
  read := by
    intro t table client src i left right ctx client' a b res client'' h hquery hrec
    obtain ⟨_, -, heq⟩ := Option.map_eq_some_iff.mp hquery
    obtain ⟨-, rfl⟩ := Prod.mk.inj heq
    exact h.of_reconstruct hrec

/-! ## Requests and answers of one layer -/

/-- A request that the client sends if its layer holds the row or does not. -/
def Sends (A : Prf) (hit : Prop) : LayerClient → LayerQueryReq → Prop
  | .singlePass c, .singlePass q =>
      (hit → q.Fits c.setSize c.nHints) ∧ (¬hit → q = ⟨[0], 0⟩)
  | .dpf c, .dpf q => q.Evaluates A c.nRows
  | _, _ => False

/-- Both requests are of one type, with sets of one size. -/
inductive LayerQueryReq.SameShape : LayerQueryReq → LayerQueryReq → Prop
  | singlePass {q q' : SinglePassQueryReq} (hsize : q.setSize = q'.setSize)
      (hlen : q.prSet.length = q'.prSet.length) : SameShape (.singlePass q) (.singlePass q')
  | dpf (q q' : DPFQueryReq) : SameShape (.dpf q) (.dpf q')

section Layer
variable {t : PirType} {table : StaticDB} {client : LayerClient} {n : ℕ}

/-- The queries of the client of a layer. -/
theorem LayerFits.query (h : LayerFits t table client) (hsize : table.numRows ≤ 2 ^ 63)
    (src : LayerSource) {i : ℕ} (hi : i < table.numRows) :
    ∃ l r ctx, client.query A src i = some (l, r, ctx) ∧ Sends A True client l ∧
      Sends A True client r := by
  cases client with
  | singlePass c =>
      obtain ⟨-, hshaped, hrows⟩ := h
      have hswaps : ∀ j < c.setSize, src.intn j % c.nHints < c.nHints :=
        fun _ _ => Nat.mod_lt _ hshaped.nHints_pos
      obtain ⟨q, hq, hl, hr⟩ := hshaped.query (hrows ▸ hi) hswaps
      refine ⟨.singlePass q.left, .singlePass q.right, .singlePass q.ctx, ?_, ?_, ?_⟩
      · rw [LayerClient.query, hq]
        rfl
      · exact ⟨fun _ => hl, fun hmiss => absurd trivial hmiss⟩
      · exact ⟨fun _ => hr, fun hmiss => absurd trivial hmiss⟩
  | dpf c =>
      obtain ⟨-, hrows⟩ := h
      have hidx : i < c.nRows := hrows ▸ hi
      obtain ⟨l, r, hq, hl, hr⟩ := DpfClient.query_spec (A := A) src.draw hidx (hrows ▸ hsize)
      refine ⟨.dpf l, .dpf r, .dpf, ?_, hl, hr⟩
      rw [LayerClient.query, hq]
      rfl

/-- Its dummy queries. -/
theorem LayerFits.dummyQuery (h : LayerFits t table client) (hsize : table.numRows ≤ 2 ^ 63)
    (hrows : 0 < table.numRows) (src : LayerSource) :
    ∃ l r, client.dummyQuery A src = some (l, r) ∧ Sends A False client l ∧
      Sends A False client r := by
  cases client with
  | singlePass c =>
      refine ⟨_, _, rfl, ?_, ?_⟩
      · exact ⟨fun hhit => absurd hhit not_false, fun _ => rfl⟩
      · exact ⟨fun hhit => absurd hhit not_false, fun _ => rfl⟩
  | dpf c =>
      obtain ⟨-, hnRows⟩ := h
      have hfirst : 0 < c.nRows := hnRows ▸ hrows
      obtain ⟨l, r, hq, hl, hr⟩ := DpfClient.query_spec (A := A) src.draw hfirst (hnRows ▸ hsize)
      refine ⟨.dpf l, .dpf r, ?_, hl, hr⟩
      rw [LayerClient.dummyQuery, DpfClient.dummyQuery]
      exact congrArg (Option.map _) hq

/-- **Which requests a server answers**: those of a SinglePass layer that holds the row, and those
of a DPF layer whose piece the kernel can load. -/
theorem LayerFits.process_isSome_iff (h : LayerFits t table client) (hwf : table.WF table.rowLen)
    (hrows : 0 < table.numRows) {hit : Prop} {req : LayerQueryReq} (hreq : Sends A hit client req) :
    (∃ resp, req.process A env addr table = some resp) ↔
      (t = .singlePass → hit) ∧ (t = .dpf → Aligned env addr table) := by
  cases client with
  | singlePass c =>
      obtain ⟨rfl, hshaped, hnRows⟩ := h
      cases req with
      | dpf q => exact absurd hreq not_false
      | singlePass q =>
          simp only [LayerQueryReq.process, Option.map_eq_some_iff, reduceCtorEq, false_implies,
            and_true, true_implies]
          by_cases hhit : hit
          · have hsize := hshaped.setSize_pos (hnRows ▸ hrows)
            obtain ⟨resp, hresp⟩ := (hreq.1 hhit).process env.build hshaped.rowLen_pos hwf hsize
              (hnRows.symm.trans hshaped.nRows_eq)
            exact ⟨fun _ => hhit, fun _ => ⟨_, resp, hresp, rfl⟩⟩
          · have hnone := process_setSize_zero env.build (q := q) (by rw [hreq.2 hhit]) table
            simp [hnone, hhit]
  | dpf c =>
      obtain ⟨rfl, hnRows⟩ := h
      cases req with
      | singlePass q => exact absurd hreq not_false
      | dpf q =>
          have hanswer := DPFQueryReq.process_isSome_iff env addr hwf hrows
            (hnRows ▸ hreq : q.Evaluates A table.numRows)
          simp only [LayerQueryReq.process, Option.map_eq_some_iff, reduceCtorEq, false_implies,
            true_and, true_implies, ← hanswer]
          constructor
          · rintro ⟨-, resp, hresp, -⟩
            exact ⟨resp, hresp⟩
          · rintro ⟨resp, hresp⟩
            exact ⟨_, resp, hresp, rfl⟩

/-- **What the shapes of two requests tell**: whether a SinglePass layer holds the row. -/
theorem LayerFits.sameShape_iff (h : LayerFits t table client) (hrows : 0 < table.numRows)
    {hit hit' : Prop} {req req' : LayerQueryReq} (hreq : Sends A hit client req)
    (hreq' : Sends A hit' client req') :
    req.SameShape req' ↔ (t = .singlePass → (hit ↔ hit')) := by
  cases client with
  | singlePass c =>
      obtain ⟨rfl, hshaped, hnRows⟩ := h
      cases req with
      | dpf q => exact absurd hreq not_false
      | singlePass q =>
          cases req' with
          | dpf q' => exact absurd hreq' not_false
          | singlePass q' =>
              have hsize := hshaped.setSize_pos (hnRows ▸ hrows)
              have hshape : (LayerQueryReq.singlePass q).SameShape (.singlePass q') ↔
                  q.setSize = q'.setSize ∧ q.prSet.length = q'.prSet.length := by
                constructor
                · intro hsame
                  cases hsame with
                  | singlePass hs hl => exact ⟨hs, hl⟩
                · rintro ⟨hs, hl⟩
                  exact .singlePass hs hl
              rw [hshape]
              by_cases hhit : hit <;> by_cases hhit' : hit'
              · have hq := hreq.1 hhit
                have hq' := hreq'.1 hhit'
                simp [hhit, hhit', hq.setSize_eq, hq.length_eq, hq'.setSize_eq, hq'.length_eq]
              · simp [hhit, hhit', (hreq.1 hhit).setSize_eq, hreq'.2 hhit', hsize.ne']
              · simp [hhit, hhit', (hreq'.1 hhit').setSize_eq, hreq.2 hhit, hsize.ne]
              · simp [hhit, hhit', hreq.2 hhit, hreq'.2 hhit']
  | dpf c =>
      obtain ⟨rfl, -⟩ := h
      cases req with
      | singlePass q => exact absurd hreq not_false
      | dpf q =>
          cases req' with
          | singlePass q' => exact absurd hreq' not_false
          | dpf q' => simp [LayerQueryReq.SameShape.dpf q q']

end Layer

/-! ## Both servers -/

/-- A server, with the address of its database. -/
structure LayerServer where
  env : Env
  addr : ℕ
  db : StaticDB

/-- The answers of the server. -/
def LayerServer.answer (A : Prf) (srv : LayerServer) (req : UpdatableQueryReq LayerQueryReq) :
    Option (Except String (List LayerQueryResp)) :=
  UpdatableQueryReq.process (layered A srv.env srv.addr) req srv.db

/-- The same pieces, with requests of one shape for each of them. -/
def UpdatableQueryReq.SameShape (req req' : UpdatableQueryReq LayerQueryReq) : Prop :=
  req.firstRow = req'.firstRow ∧ List.Forall₂ LayerQueryReq.SameShape req.reqs req'.reqs

/-- Both servers answer the query for row `p`, and the shapes of its requests are those of the query
for row `q`. -/
def AnsweredAlike (A : Prf) (env : Env) (addr : ℕ) (left right : LayerServer)
    (c : WaterfallClient LayerClient) (src src' : ℕ → LayerSource) (p q : ℕ) : Prop :=
  ∃ reqL reqR ctx c₁ reqL' reqR' ctx' c₂,
    c.query (P := layered A env addr) src p = some ((reqL, reqR, ctx), c₁) ∧
      c.query (P := layered A env addr) src' q = some ((reqL', reqR', ctx'), c₂) ∧
      (∃ resps, left.answer A reqL = some (.ok resps)) ∧
      (∃ resps, right.answer A reqR = some (.ok resps)) ∧
      reqL.SameShape reqL' ∧ reqR.SameShape reqR'

section
variable {t : PirType} {rowLen pos : ℕ} {data : List UInt8} {layer : ClientLayer LayerClient}
  {client : LayerClient}

/-- The client of a layer makes its requests for any row. -/
theorem LayerFits.queries (h : LayerFits t (tableAt rowLen data layer.firstRow layer.numRows) client)
    (hpir : layer.pir = some client) (hne : layer.numRows ≠ 0) (hsize : layer.numRows ≤ 2 ^ 63)
    (pos : ℕ) : WaterfallClient.Queries (layered A env addr) pos layer := by
  intro src client' hpir'
  obtain rfl : client = client' := Option.some.inj (hpir.symm.trans hpir')
  constructor
  · intro hcov
    obtain ⟨l, r, ctx, hquery, -⟩ := h.query (A := A) hsize src hcov.sub_lt
    refine ⟨(l, r, ctx), client, ?_⟩
    simp only [hquery, Option.map_some]
  · obtain ⟨l, r, hdummy, -⟩ := h.dummyQuery (A := A) hsize (Nat.pos_of_ne_zero hne) src
    refine ⟨(l, r), client, ?_⟩
    simp only [hdummy, Option.map_some]

/-- What a layer asks in a query for row `pos`. -/
theorem LayerFits.sends (h : LayerFits t (tableAt rowLen data layer.firstRow layer.numRows) client)
    (hpir : layer.pir = some client) (hne : layer.numRows ≠ 0) (hsize : layer.numRows ≤ 2 ^ 63)
    {r : (layered A env addr).QueryReq × (layered A env addr).QueryReq}
    (hr : WaterfallClient.Requests (layered A env addr) pos layer r) :
    Sends A (Covers ClientLayer.firstRow ClientLayer.numRows pos layer) client r.1 ∧
      Sends A (Covers ClientLayer.firstRow ClientLayer.numRows pos layer) client r.2 := by
  cases hr with
  | @query src client' _ _ _ _ hcov hpir' hquery =>
      obtain rfl : client = client' := Option.some.inj (hpir.symm.trans hpir')
      obtain ⟨l, r, ctx, hq, hl, hr⟩ := h.query (A := A) hsize src hcov.sub_lt
      simp only [hq, Option.map_some, Option.some.injEq, Prod.mk.injEq] at hquery
      obtain ⟨⟨rfl, rfl, -⟩, -⟩ := hquery
      rw [eq_true hcov]
      exact ⟨hl, hr⟩
  | @dummy src client' _ _ hmiss hpir' hdummy =>
      obtain rfl : client = client' := Option.some.inj (hpir.symm.trans hpir')
      obtain ⟨l, r, hq, hl, hr⟩ := h.dummyQuery (A := A) hsize (Nat.pos_of_ne_zero hne) src
      simp only [hq, Option.map_some, Option.some.injEq, Prod.mk.injEq] at hdummy
      obtain ⟨rfl, -⟩ := hdummy
      rw [eq_false hmiss]
      exact ⟨hl, hr⟩

/-- Which servers answer for the layer. -/
theorem LayerFits.answers_iff
    (h : LayerFits t (tableAt rowLen data layer.firstRow layer.numRows) client)
    (hne : layer.numRows ≠ 0) (hend : (layer.firstRow + layer.numRows) * rowLen ≤ data.length)
    {hit : Prop} {req : LayerQueryReq} (hreq : Sends A hit client req) :
    WaterfallClient.Answers (layered A env addr) rowLen data layer req ↔
      (t = .singlePass → hit) ∧
        (t = .dpf → Aligned env addr (tableAt rowLen data layer.firstRow layer.numRows)) := by
  rw [← h.process_isSome_iff (tableAt_wf hend) (Nat.pos_of_ne_zero hne) hreq,
    WaterfallClient.Answers]
  simp only [Option.map_eq_some_iff, Except.ok.injEq, exists_eq_right]

/-- Both rows are in the layer, if its clients are SinglePass; both kernels can load its piece, if
they are DPF. -/
def LayerPasses (left right : LayerServer) (rowLen : ℕ) (data : List UInt8) (p q : ℕ)
    (layer : ClientLayer LayerClient) : Prop :=
  (layer.pirType = some .singlePass →
    Covers ClientLayer.firstRow ClientLayer.numRows p layer ∧
      Covers ClientLayer.firstRow ClientLayer.numRows q layer) ∧
  (layer.pirType = some .dpf →
    Aligned left.env left.addr (tableAt rowLen data layer.firstRow layer.numRows) ∧
      Aligned right.env right.addr (tableAt rowLen data layer.firstRow layer.numRows))

/-- The requests of two queries for one layer. -/
theorem LayerFits.passes_iff
    (h : LayerFits t (tableAt rowLen data layer.firstRow layer.numRows) client)
    (hpir : layer.pir = some client) (htype : layer.pirType = some t) (hne : layer.numRows ≠ 0)
    (hsize : layer.numRows ≤ 2 ^ 63)
    (hend : (layer.firstRow + layer.numRows) * rowLen ≤ data.length) (left right : LayerServer)
    {p q : ℕ} {r r' : (layered A env addr).QueryReq × (layered A env addr).QueryReq}
    (hr : WaterfallClient.Requests (layered A env addr) p layer r)
    (hr' : WaterfallClient.Requests (layered A env addr) q layer r') :
    (WaterfallClient.Answers (layered A left.env left.addr) rowLen data layer r.1 ∧
      WaterfallClient.Answers (layered A right.env right.addr) rowLen data layer r.2 ∧
      r.1.SameShape r'.1 ∧ r.2.SameShape r'.2) ↔
      LayerPasses left right rowLen data p q layer := by
  obtain ⟨hl, hr⟩ := h.sends hpir hne hsize hr
  obtain ⟨hl', hr'⟩ := h.sends hpir hne hsize hr'
  have hrows : 0 < layer.numRows := Nat.pos_of_ne_zero hne
  rw [h.answers_iff hne hend hl, h.answers_iff hne hend hr, h.sameShape_iff hrows hl hl',
    h.sameShape_iff hrows hr hr', LayerPasses, htype, Option.some.injEq, Option.some.injEq]
  constructor
  · rintro ⟨⟨hp, haddrL⟩, ⟨-, haddrR⟩, hpq, -⟩
    exact ⟨fun ht => ⟨hp ht, (hpq ht).mp (hp ht)⟩, fun ht => ⟨haddrL ht, haddrR ht⟩⟩
  · rintro ⟨hpq, haddr⟩
    have hsame := fun ht => iff_of_true (hpq ht).1 (hpq ht).2
    exact ⟨⟨fun ht => (hpq ht).1, fun ht => (haddr ht).1⟩,
      ⟨fun ht => (hpq ht).1, fun ht => (haddr ht).2⟩, hsame, hsame⟩

end

/-- **When both servers answer and cannot tell the row**: both rows are in every SinglePass layer
that has rows, and the kernels can load the piece of the DPF layer. -/
theorem answeredAlike_iff {override : ℕ} {as : List (LayerAction (layered A env addr))}
    {s : Waterfall (layered A env addr)}
    (hrun : runUnder Waterfall.readStep Waterfall.AllowedRead
      (Waterfall.new (layered A env addr) .singlePass override) as = some s)
    (hsize : s.client.numRows < 2 ^ 63) {left right : LayerServer}
    (hL : Stores s.client.rowLen s.data left.db) (hR : Stores s.client.rowLen s.data right.db)
    (src src' : ℕ → LayerSource) (p q : ℕ) :
    AnsweredAlike A env addr left right s.client src src' p q ↔
      ∀ layer ∈ s.client.layers, layer.numRows ≠ 0 →
        LayerPasses left right s.client.rowLen s.data p q layer := by
  obtain ⟨hs, hhinted⟩ := Waterfall.serves_of_run (fun t table client _ _ =>
    layerFits_of_built t table client) layerFits_keeps hrun
  -- the client of each layer with rows
  have hclient : ∀ layer ∈ s.client.layers, layer.numRows ≠ 0 → ∃ t client,
      layer.pir = some client ∧ layer.pirType = some t ∧ layer.numRows ≤ 2 ^ 63 ∧
        LayerFits t (tableAt s.client.rowLen s.data layer.firstRow layer.numRows) client := by
    intro layer hl hne
    obtain ⟨client, hpir⟩ := Option.isSome_iff_exists.mp (hhinted layer hl hne)
    obtain ⟨t, htype, hfits⟩ := hs.serves layer hl client hpir
    have hend := (hs.layer_end hl hne).1
    exact ⟨t, client, hpir, htype, by omega, hfits⟩
  have hqueries : ∀ pos, ∀ layer ∈ s.client.layers,
      WaterfallClient.Queries (layered A env addr) pos layer := by
    intro pos layer hl
    by_cases hne : layer.numRows = 0
    · intro src client hpir
      rw [hs.empty layer hl hne] at hpir
      cases hpir
    · obtain ⟨t, client, hpir, -, hle, hfits⟩ := hclient layer hl hne
      exact hfits.queries hpir hne hle pos
  obtain ⟨reqs, ctx, c₁, hquery, hreqs⟩ := hs.query_requests hhinted src (hqueries p)
  obtain ⟨reqs', ctx', c₂, hquery', hreqs'⟩ := hs.query_requests hhinted src' (hqueries q)
  have hlen := hreqs.length_eq.symm
  have hansL := WaterfallClient.process_isOk_iff (P := layered A left.env left.addr)
    hs.layered.tiles hs.length_eq hL ((List.length_map Prod.fst).trans hlen)
  have hansR := WaterfallClient.process_isOk_iff (P := layered A right.env right.addr)
    hs.layered.tiles hs.length_eq hR ((List.length_map Prod.snd).trans hlen)
  have hlayers := WaterfallClient.requests_iff hreqs hreqs' fun layer hl r r' hr hr' => by
    obtain ⟨hmem, hne⟩ := mem_activeLayers.mp hl
    obtain ⟨t, client, hpir, htype, hle, hfits⟩ := hclient layer hmem hne
    exact hfits.passes_iff hpir htype hne hle (hs.layer_end hmem hne).2 left right hr hr'
  have hactive : (∀ layer ∈ activeLayers s.client.layers,
      LayerPasses left right s.client.rowLen s.data p q layer) ↔
      ∀ layer ∈ s.client.layers, layer.numRows ≠ 0 →
        LayerPasses left right s.client.rowLen s.data p q layer := by
    simp only [mem_activeLayers, and_imp]
  rw [← hactive, ← hlayers, ← hansL, ← hansR, AnsweredAlike]
  simp only [hquery, hquery', Option.some.injEq, Prod.mk.injEq]
  constructor
  · rintro ⟨reqL, reqR, _, _, reqL', reqR', _, _, ⟨⟨rfl, rfl, -⟩, -⟩, ⟨⟨rfl, rfl, -⟩, -⟩, hokL, hokR,
      hsameL, hsameR⟩
    exact ⟨hokL, hokR, hsameL.2, hsameR.2⟩
  · rintro ⟨hokL, hokR, hsameL, hsameR⟩
    exact ⟨_, _, _, _, _, _, _, _, ⟨⟨rfl, rfl, rfl⟩, rfl⟩, ⟨⟨rfl, rfl, rfl⟩, rfl⟩, hokL, hokR,
      ⟨rfl, hsameL⟩, ⟨rfl, hsameR⟩⟩

/-! Runs with one-byte rows, of a client whose smallest layer has one row -/

/-- The portable kernels -/
def plainEnv : Env := .withXor ⟨.sse, id, fun _ => 0⟩ fun _ => id

/-- No layer of the runs below is DPF. -/
def plainPrf : Prf := ⟨id, id⟩

abbrev plainLayers : PirImpl := layered plainPrf plainEnv 0

def zeroSource : LayerSource := ⟨fun _ => 0, fun _ => 0, (0, 0)⟩

/-- A database of one-byte rows -/
def byteRows (rows : List UInt8) : StaticDB := ⟨rows.length, 1, 0, rows⟩

/-- The update that adds the last `n` of the rows. -/
def addLast (n : ℕ) (rows : List UInt8) : LayerAction plainLayers :=
  .waterfall (.update zeroSource zeroSource n 1 (byteRows rows))

def byteServer (rows : List UInt8) : LayerServer := ⟨plainEnv, 0, byteRows rows⟩

theorem stores_byteServer {rowLen : ℕ} {data rows : List UInt8} (hlen : rowLen = 1)
    (hdata : data = rows) : Stores rowLen data (byteServer rows).db := by
  subst hlen hdata
  exact ⟨rfl, List.prefix_rfl⟩

/-- Four rows are one layer. -/
theorem answeredAlike_iff_four_rows :
    ∃ s ∈ runUnder Waterfall.readStep Waterfall.AllowedRead
      (Waterfall.new plainLayers .singlePass 1) [addLast 4 [1, 2, 3, 4]],
      AnsweredAlike plainPrf plainEnv 0 (byteServer [1, 2, 3, 4]) (byteServer [1, 2, 3, 4]) s.client
        (fun _ => zeroSource) (fun _ => zeroSource) 0 3 := by
  have hfour : ∃ s ∈ runUnder Waterfall.readStep Waterfall.AllowedRead
      (Waterfall.new plainLayers .singlePass 1) [addLast 4 [1, 2, 3, 4]],
      s.client.numRows = 4 ∧ s.client.rowLen = 1 ∧ s.data = [1, 2, 3, 4] ∧
        ∀ layer ∈ s.client.layers, layer.numRows ≠ 0 →
          layer.firstRow = 0 ∧ layer.numRows = 4 ∧ layer.pirType = some .singlePass := by
    decide +kernel
  obtain ⟨s, hrun, hnum, hlen, hdata, hlayers⟩ := hfour
  have hstores := stores_byteServer hlen hdata
  refine ⟨s, hrun, (answeredAlike_iff hrun (by rw [hnum]; decide) hstores hstores _ _ 0 3).mpr ?_⟩
  intro layer hl hne
  obtain ⟨hfirst, hrows, htype⟩ := hlayers layer hl hne
  refine ⟨fun _ => ?_, ?_⟩
  · rw [Covers, Covers, hfirst, hrows]
    decide
  · intro hdpf
    rw [htype] at hdpf
    cases hdpf

/-- Six rows are two layers, of four rows and two. The server panics on the request for the other
layer. -/
theorem dummy_not_answered :
    ∃ s ∈ runUnder Waterfall.readStep Waterfall.AllowedRead
      (Waterfall.new plainLayers .singlePass 1)
      [addLast 4 [1, 2, 3, 4], addLast 2 [1, 2, 3, 4, 5, 6]],
      s.client.numRows = 6 ∧
        (∀ layer ∈ s.client.layers, ∀ c, layer.pir = some (.singlePass c) →
          c.setSize ∣ layer.numRows) ∧
        Stores s.client.rowLen s.data (byteServer [1, 2, 3, 4, 5, 6]).db ∧
        ¬AnsweredAlike plainPrf plainEnv 0 (byteServer [1, 2, 3, 4, 5, 6])
          (byteServer [1, 2, 3, 4, 5, 6]) s.client (fun _ => zeroSource) (fun _ => zeroSource) 4 0 := by
  have hsix : ∃ s ∈ runUnder Waterfall.readStep Waterfall.AllowedRead
      (Waterfall.new plainLayers .singlePass 1)
      [addLast 4 [1, 2, 3, 4], addLast 2 [1, 2, 3, 4, 5, 6]],
      s.client.numRows = 6 ∧ s.client.rowLen = 1 ∧ s.data = [1, 2, 3, 4, 5, 6] ∧
        (s.client.layers.all fun layer =>
          match layer.pir with
          | some (.singlePass c) => decide (c.setSize ∣ layer.numRows)
          | _ => true) = true ∧
        ∀ r ∈ s.client.query (P := plainLayers) (fun _ => zeroSource) 4,
          (byteServer [1, 2, 3, 4, 5, 6]).answer plainPrf r.1.1 = none := by
    decide +kernel
  obtain ⟨s, hrun, hnum, hlen, hdata, hdvd, hnone⟩ := hsix
  refine ⟨s, hrun, hnum, ?_, stores_byteServer hlen hdata, ?_⟩
  · intro layer hl c hpir
    have hlayer := List.all_eq_true.mp hdvd layer hl
    rw [hpir] at hlayer
    exact of_decide_eq_true hlayer
  · rintro ⟨reqL, reqR, ctx, c₁, -, -, -, -, hquery, -, ⟨resps, hanswer⟩, -⟩
    rw [hnone _ hquery] at hanswer
    cases hanswer

end SinglePassPIR.Updatable
