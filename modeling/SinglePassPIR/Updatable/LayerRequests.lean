import SinglePassPIR.Updatable.LayerReads

/-!
# The requests of a query, layer by layer

`WaterfallClient.Query` makes a pair of requests for every layer with rows, and a server that has
the rows processes each of them on the table of its layer. Whether the query is answered is a
question about each layer by itself, and so is what a server can tell from the requests.

## Main results

* `Serves.query_requests` — the requests are those that the clients of the layers make.
* `process_isOk_iff` — a server answers if it answers every layer.
* `Serves.read_any` — the layers after a read, whatever the answers were.
* `serves_of_run` — the layers after any sequence of updates, resets and reads.
-/

namespace SinglePassPIR.Updatable
open Pir

variable {P : PirImpl}

/-- The layers with rows. -/
def activeLayers {γ : Type} (layers : List (ClientLayer γ)) : List (ClientLayer γ) :=
  layers.filter fun layer => layer.numRows ≠ 0

theorem mem_activeLayers {γ : Type} {layers : List (ClientLayer γ)} {layer : ClientLayer γ} :
    layer ∈ activeLayers layers ↔ layer ∈ layers ∧ layer.numRows ≠ 0 := by
  rw [activeLayers, List.mem_filter]
  simp

namespace WaterfallClient

/-! ## Requests -/

/-- What a layer may ask both servers in a query for row `pos`. -/
inductive Requests (P : PirImpl) (pos : ℕ) (layer : ClientLayer P.Client) :
    P.QueryReq × P.QueryReq → Prop
  | query {src : P.Source} {client client' : P.Client} {left right : P.QueryReq} {ctx : P.Ctx}
      (hcov : Covers ClientLayer.firstRow ClientLayer.numRows pos layer)
      (hpir : layer.pir = some client)
      (hquery : P.query src client ((pos - layer.firstRow : ℕ) : ℤ) =
        some (some (left, right, ctx), client')) : Requests P pos layer (left, right)
  | dummy {src : P.Source} {client client' : P.Client} {q : P.QueryReq × P.QueryReq}
      (hmiss : ¬Covers ClientLayer.firstRow ClientLayer.numRows pos layer)
      (hpir : layer.pir = some client)
      (hdummy : P.dummyQuery src client = some (q, client')) : Requests P pos layer q

/-- The client of the layer makes its requests in a query for row `pos`. -/
def Queries (P : PirImpl) (pos : ℕ) (layer : ClientLayer P.Client) : Prop :=
  ∀ src client, layer.pir = some client →
    (Covers ClientLayer.firstRow ClientLayer.numRows pos layer → ∃ q client',
      P.query src client ((pos - layer.firstRow : ℕ) : ℤ) = some (some q, client')) ∧
    ∃ q client', P.dummyQuery src client = some (q, client')

/-- The body of the loop on a layer with a client. -/
theorem queryStep_requests (src : ℕ → P.Source) (l : ℕ) {pos : ℕ} {layer : ClientLayer P.Client}
    {client : P.Client} {st : QueryLoop P} (hst : st.layerEnd = layer.firstRow)
    (hpir : layer.pir = some client) (hqueries : Queries P pos layer) :
    ∃ r ctx layer', queryStep src pos l layer st = some (⟨st.layerEnd + layer.numRows, ctx,
        st.left ++ [r.1], st.right ++ [r.2], st.firstRow ++ [layer.firstRow]⟩, layer') ∧
      Requests P pos layer r := by
  obtain ⟨hquery, q, client₁, hdummy⟩ := hqueries (src l) client hpir
  by_cases hcov : Covers ClientLayer.firstRow ClientLayer.numRows pos layer
  · obtain ⟨⟨left, right, ctx⟩, client₂, hq⟩ := hquery hcov
    have hhit : (st.layerEnd : ℤ) ≤ pos ∧ (pos : ℤ) < (st.layerEnd : ℤ) + layer.numRows := by
      have hle := hcov.1
      have hlt := hcov.2
      omega
    have hpos : (pos : ℤ) - st.layerEnd = ((pos - layer.firstRow : ℕ) : ℤ) := by
      have hle := hcov.1
      omega
    refine ⟨(left, right), ⟨st.left.length, some (l, ctx)⟩, { layer with pir := some client₂ }, ?_,
      .query hcov hpir hq⟩
    simp only [queryStep, hpir, if_pos hhit, hpos, hq, Option.bind_eq_bind, Option.bind_some]
  · have hmiss : ¬((st.layerEnd : ℤ) ≤ pos ∧ (pos : ℤ) < (st.layerEnd : ℤ) + layer.numRows) := by
      rw [Covers] at hcov
      omega
    refine ⟨q, st.ctx, { layer with pir := some client₁ }, ?_, .dummy hcov hpir hdummy⟩
    simp only [queryStep, hpir, if_neg hmiss, hdummy, Option.bind_eq_bind, Option.bind_some]

/-- **The loop of `Query`** makes a pair of requests for each layer with rows. -/
theorem queryLoop_requests (src : ℕ → P.Source) {pos : ℕ} {layers : List (ClientLayer P.Client)}
    (l : ℕ) (st : QueryLoop P) {lo hi : ℕ} (htile : LayersTile lo layers hi) (hactive : Active layers)
    (hst : st.layerEnd = lo) (hqueries : ∀ layer ∈ layers, Queries P pos layer) :
    ∃ reqs ctx layers', queryLoop src pos l layers st = some (⟨hi, ctx,
        st.left ++ reqs.map Prod.fst, st.right ++ reqs.map Prod.snd,
        st.firstRow ++ (activeLayers layers).map ClientLayer.firstRow⟩, layers') ∧
      List.Forall₂ (Requests P pos) (activeLayers layers) reqs := by
  induction layers generalizing l lo st with
  | nil =>
      obtain rfl : lo = hi := htile
      exact ⟨[], st.ctx, [], by simp [queryLoop, activeLayers, ← hst], .nil⟩
  | cons layer layers ih =>
      have hlayer := hactive layer List.mem_cons_self
      have hrest := hactive.sublist (List.subset_cons_self layer layers)
      have hqrest := fun l' hl => hqueries l' (List.mem_cons_of_mem layer hl)
      cases hpir : layer.pir with
      | none =>
          have hzero : layer.numRows = 0 := by simpa [hpir] using hlayer
          have hnext : st.layerEnd = lo + layer.numRows := by omega
          obtain ⟨reqs, ctx, layers', hloop, hreqs⟩ := ih (l + 1) st htile.2 hrest hnext hqrest
          have heq : activeLayers (layer :: layers) = activeLayers layers :=
            List.filter_cons_of_neg (by simp [hzero])
          rw [heq]
          refine ⟨reqs, ctx, layer :: layers', ?_, hreqs⟩
          simp only [queryLoop, queryStep, hpir, hloop, Option.bind_eq_bind, Option.bind_some]
      | some client =>
          have hne : layer.numRows ≠ 0 := hlayer.mp (by simp [hpir])
          obtain ⟨r, ctx₁, layer', hstep, hr⟩ := queryStep_requests src l
            (hst.trans (htile.1 hne).symm) hpir (hqueries layer List.mem_cons_self)
          obtain ⟨reqs, ctx, layers', hloop, hreqs⟩ := ih (l + 1) ⟨st.layerEnd +
              layer.numRows, ctx₁, st.left ++ [r.1], st.right ++ [r.2],
              st.firstRow ++ [layer.firstRow]⟩ htile.2 hrest (by rw [hst]) hqrest
          have heq : activeLayers (layer :: layers) = layer :: activeLayers layers :=
            List.filter_cons_of_pos (by simp [hne])
          rw [heq]
          refine ⟨r :: reqs, ctx, layer' :: layers', ?_, .cons hr hreqs⟩
          simp only [queryLoop, hstep, hloop, Option.bind_eq_bind, Option.bind_some,
            List.append_assoc, List.singleton_append, List.map_cons]

/-- Where the pieces of the layers begin and end. -/
def boundaries {γ : Type} (c : WaterfallClient γ) : List ℕ :=
  (activeLayers c.layers).map ClientLayer.firstRow ++ [c.numRows]

section Serves
variable {K : PirType → StaticDB → P.Client → Prop} {c : WaterfallClient P.Client}
  {data : List UInt8}

/-- **The requests of a query.** -/
theorem Serves.query_requests (hs : Serves K c data) (hhinted : Hinted c.layers)
    (src : ℕ → P.Source) {pos : ℕ} (hqueries : ∀ layer ∈ c.layers, Queries P pos layer) :
    ∃ reqs ctx c', c.query src pos = some ((⟨reqs.map Prod.fst, c.boundaries⟩,
        ⟨reqs.map Prod.snd, c.boundaries⟩, ctx), c') ∧
      List.Forall₂ (Requests P pos) (activeLayers c.layers) reqs := by
  obtain ⟨reqs, ctx, layers', hloop, hreqs⟩ := queryLoop_requests src 0
    ⟨0, ⟨0, none⟩, [], [], []⟩ hs.layered.tiles (hs.active hhinted (List.Subset.refl _)) rfl
    hqueries
  refine ⟨reqs, ctx, { c with layers := layers' }, ?_, hreqs⟩
  simp only [query, hloop, Option.bind_eq_bind, Option.bind_some, List.nil_append, boundaries]

/-! ## Answers -/

/-- The server answers the request for the layer. -/
def Answers (P : PirImpl) (rowLen : ℕ) (data : List UInt8) (layer : ClientLayer P.Client)
    (q : P.QueryReq) : Prop :=
  ∃ a, P.process q (tableAt rowLen data layer.firstRow layer.numRows) = some (.ok a)

theorem processReqs_isOk_iff {rowLen : ℕ} {db : StaticDB} (hdb : Stores rowLen data db)
    {layers : List (ClientLayer P.Client)} {lo hi : ℕ} (htile : LayersTile lo layers hi)
    (hne : ∀ layer ∈ layers, layer.numRows ≠ 0) (hend : hi * rowLen ≤ data.length)
    {reqs : List P.QueryReq} (hlen : reqs.length = layers.length) :
    (∃ resps, processReqs P db reqs (layers.map ClientLayer.firstRow ++ [hi]) =
      some (.ok resps)) ↔ List.Forall₂ (Answers P rowLen data) layers reqs := by
  induction layers generalizing lo reqs with
  | nil =>
      obtain rfl := List.length_eq_zero_iff.mp hlen
      exact ⟨fun _ => .nil, fun _ => ⟨[], rfl⟩⟩
  | cons layer layers ih =>
      cases reqs with
      | nil => simp at hlen
      | cons q reqs =>
          have hfirst := htile.1 (hne layer List.mem_cons_self)
          have hlen' : reqs.length = layers.length := by simpa using hlen
          have hrest := ih htile.2 (fun l hl => hne l (List.mem_cons_of_mem layer hl)) hlen'
          -- the next piece begins where this one ends
          obtain ⟨more, hmore⟩ : ∃ more, layers.map ClientLayer.firstRow ++ [hi] =
              (layer.firstRow + layer.numRows) :: more := by
            cases layers with
            | nil =>
                have hhi : lo + layer.numRows = hi := htile.2
                exact ⟨[], by rw [hfirst, hhi]; rfl⟩
            | cons next layers =>
                have hnext := htile.2.1 (hne next (by simp))
                exact ⟨layers.map ClientLayer.firstRow ++ [hi], by rw [hfirst, ← hnext]; rfl⟩
          have hbytes : (layer.firstRow + layer.numRows) * rowLen ≤ data.length := by
            have hle := layersTile_end htile.2
            exact (Nat.mul_le_mul_right rowLen (by omega)).trans hend
          rw [List.forall₂_cons, ← hrest, List.map_cons, List.cons_append, hmore]
          simp only [processReqs, hdb.slice_eq hbytes, Option.bind_eq_bind, Option.bind_some,
            hdb.rowLen_eq, Nat.add_sub_cancel_left, Answers]
          rw [show (⟨layer.numRows, rowLen, 0,
            (tableAt rowLen data layer.firstRow layer.numRows).flatDb⟩ : StaticDB) =
              tableAt rowLen data layer.firstRow layer.numRows from rfl]
          generalize P.process q (tableAt rowLen data layer.firstRow layer.numRows) = answer
          generalize processReqs P db reqs ((layer.firstRow + layer.numRows) :: more) = answers
          cases answer with
          | none => simp
          | some answer =>
              cases answer with
              | error err => simp
              | ok a =>
                  cases answers with
                  | none => simp
                  | some answers => cases answers <;> simp

/-- **A server answers** the requests of a query if it answers the one for each layer. -/
theorem process_isOk_iff {db : StaticDB} (htile : LayersTile 0 c.layers c.numRows)
    (hdata : data.length = c.numRows * c.rowLen) (hdb : Stores c.rowLen data db)
    {reqs : List P.QueryReq} (hlen : reqs.length = (activeLayers c.layers).length) :
    (∃ resps, (⟨reqs, c.boundaries⟩ : UpdatableQueryReq P.QueryReq).process P db =
      some (.ok resps)) ↔ List.Forall₂ (Answers P c.rowLen data) (activeLayers c.layers) reqs :=
  processReqs_isOk_iff hdb htile.filter (fun _ hl => (mem_activeLayers.mp hl).2) hdata.ge hlen

/-- Two queries, layer by layer. -/
theorem requests_iff {layers : List (ClientLayer P.Client)} {p q : ℕ}
    {reqs reqs' : List (P.QueryReq × P.QueryReq)} {AnsL AnsR : ClientLayer P.Client → P.QueryReq → Prop}
    {Alike : P.QueryReq → P.QueryReq → Prop} {C : ClientLayer P.Client → Prop}
    (hreqs : List.Forall₂ (Requests P p) layers reqs)
    (hreqs' : List.Forall₂ (Requests P q) layers reqs')
    (h : ∀ layer ∈ layers, ∀ r r', Requests P p layer r → Requests P q layer r' →
      ((AnsL layer r.1 ∧ AnsR layer r.2 ∧ Alike r.1 r'.1 ∧ Alike r.2 r'.2) ↔ C layer)) :
    (List.Forall₂ AnsL layers (reqs.map Prod.fst) ∧ List.Forall₂ AnsR layers (reqs.map Prod.snd) ∧
      List.Forall₂ Alike (reqs.map Prod.fst) (reqs'.map Prod.fst) ∧
      List.Forall₂ Alike (reqs.map Prod.snd) (reqs'.map Prod.snd)) ↔ ∀ layer ∈ layers, C layer := by
  induction hreqs generalizing reqs' with
  | nil =>
      cases hreqs'
      simp
  | cons hr _ ih =>
      cases hreqs' with
      | cons hr' hrest' =>
          have hlayer := h _ List.mem_cons_self _ _ hr hr'
          have hlayers := ih hrest' fun layer hl => h layer (List.mem_cons_of_mem _ hl)
          rw [List.forall_mem_cons, ← hlayer, ← hlayers]
          simp only [List.map_cons, List.forall₂_cons]
          tauto

/-! ## Reads with any answers -/

/-- The calls of a read keep `K`, whatever the answers are. -/
structure Keeps (P : PirImpl) (K : PirType → StaticDB → P.Client → Prop) : Prop where
  dummy : ∀ t table client src q client', K t table client →
    P.dummyQuery src client = some (q, client') → K t table client'
  read : ∀ t table client src i left right ctx client' a b res client'', K t table client →
    P.query src client i = some (some (left, right, ctx), client') →
    P.reconstruct client' ctx a b = some (res, client'') → K t table client''

/-- **The layers after a read**, whatever the answers were. -/
theorem Serves.read_any (hP : Keeps P K) (hs : Serves K c data) (hhinted : Hinted c.layers)
    {src : ℕ → P.Source} {pos : ℕ} {reqL reqR : UpdatableQueryReq P.QueryReq}
    {ctx : WaterfallCtx P} {c' c'' : WaterfallClient P.Client} {respsL respsR : List P.Resp}
    {res : Except String (List UInt8)} (hquery : c.query src pos = some ((reqL, reqR, ctx), c'))
    (hrec : c'.reconstruct ctx respsL respsR = some (res, c'')) :
    ∃ layers', c'' = { c with layers := layers' } ∧ Serves K c'' data ∧ Hinted layers' := by
  have hlayers : c.layers = c.layers ++ [] := (List.append_nil _).symm
  have hactive := hs.active hhinted (List.Subset.refl c.layers)
  have hrest : ∀ layer ∈ ([] : List (ClientLayer P.Client)), layer.pir = none := by simp
  by_cases hpos : pos < c.numRows
  · obtain ⟨upper, target, lower, client, left, right, inner, client', k, upper', lower', hsplit, -,
      hpir, hq, rfl, hlen, hafterU, hafterL, rfl, -, -⟩ :=
      query_trace hlayers hrest hs.layered.tiles hactive hpos hquery
    obtain ⟨a, ha⟩ : ∃ a, respsL[k]? = some a := by
      cases h : respsL[k]? with
      | none => simp [reconstruct, h] at hrec
      | some a => exact ⟨a, rfl⟩
    obtain ⟨b, hb⟩ : ∃ b, respsR[k]? = some b := by
      cases h : respsR[k]? with
      | none => simp [reconstruct, ha, h] at hrec
      | some b => exact ⟨b, rfl⟩
    rw [← hlen, reconstruct_target ha hb, Option.map_eq_some_iff] at hrec
    obtain ⟨⟨res', client''⟩, hinner, hres⟩ := hrec
    obtain ⟨-, rfl⟩ := Prod.mk.inj hres
    have hrenewed : List.Forall₂ (Renewed K c.rowLen data) c.layers
        (upper' ++ { target with pir := some client'' } :: (lower' ++ [])) := by
      rw [hsplit, List.append_nil]
      refine List.rel_append (hafterU.imp fun _ _ h => h.renewed hP.dummy) (.cons ⟨rfl, ?_, ?_⟩
        (hafterL.imp fun _ _ h => h.renewed hP.dummy))
      · rw [hpir]
        rfl
      · intro t client₀ client₁ h₀ h₁ hK
        rw [hpir, Option.some.injEq] at h₀
        rw [Option.some.injEq] at h₁
        subst h₀ h₁
        exact hP.read _ _ _ _ _ _ _ _ _ _ _ _ _ hK hq hinner
    refine ⟨_, rfl, hs.renew hrenewed, ?_⟩
    intro layer' hl hne
    obtain ⟨layer, hmem, hr⟩ := renewed_of_mem hrenewed hl
    rw [hr.eq] at hne
    rw [hr.isSome_eq]
    exact hhinted layer hmem hne
  · -- the closure has no function to call
    have hnone := query_past hlayers hrest hs.layered.tiles hactive (Nat.le_of_not_lt hpos) hquery
    simp [reconstruct, hnone] at hrec

end Serves

end WaterfallClient

/-! ## Runs with reads -/

/-- An update or a reset, or a read with the answers that came. -/
inductive LayerAction (P : PirImpl)
  | waterfall (a : WaterfallAction P)
  | read (src : ℕ → P.Source) (pos : ℕ) (respsL respsR : List P.Resp)

namespace Waterfall

/-- The databases of the updates have the client's rows; anything may answer a read. -/
def AllowedRead (s : Waterfall P) : LayerAction P → Prop
  | .waterfall a => s.Allowed a
  | .read .. => True

instance (s : Waterfall P) : (a : LayerAction P) → Decidable (s.AllowedRead a)
  | .waterfall a => inferInstanceAs (Decidable (s.Allowed a))
  | .read .. => inferInstanceAs (Decidable True)

/-- One action; a read that panics ends the run. -/
def readStep (s : Waterfall P) : LayerAction P → Option (Unit × Waterfall P)
  | .waterfall a => s.step a
  | .read src pos respsL respsR => do
      let ((_, _, ctx), client) ← s.client.query src pos
      let (_, client) ← client.reconstruct ctx respsL respsR
      some ((), { s with client })

/-- **The layers along a run** of updates, resets and reads. -/
theorem serves_of_run {K : PirType → StaticDB → P.Client → Prop}
    (hK : ∀ t table client, table.WF table.rowLen → table.numRows ≠ 0 →
      WaterfallClient.Built P t table client → K t table client)
    (hP : WaterfallClient.Keeps P K) {pirType : PirType} {override : ℕ} {as : List (LayerAction P)}
    {s : Waterfall P} (hrun : runUnder readStep AllowedRead (new P pirType override) as = some s) :
    s.client.Serves K s.data ∧ WaterfallClient.Hinted s.client.layers := by
  refine runUnder_invariant
    (fun s => s.client.Serves K s.data ∧ WaterfallClient.Hinted s.client.layers) ?_
    ⟨WaterfallClient.serves_empty rfl rfl, by simp [new, WaterfallClient.new, WaterfallClient.Hinted]⟩
    hrun
  intro s a o s' h hG hstep
  cases a with
  | waterfall a => exact step_serves hK h.1 h.2 hG hstep
  | read src pos respsL respsR =>
      simp only [readStep, Option.bind_eq_bind, Option.bind_eq_some_iff, Option.some.injEq,
        Prod.mk.injEq, true_and] at hstep
      obtain ⟨⟨⟨reqL, reqR, ctx⟩, c₁⟩, hquery, ⟨res, c₂⟩, hrec, rfl⟩ := hstep
      obtain ⟨layers', rfl, hs', hhinted'⟩ := h.1.read_any hP h.2 hquery hrec
      exact ⟨hs', hhinted'⟩

end Waterfall

end SinglePassPIR.Updatable
