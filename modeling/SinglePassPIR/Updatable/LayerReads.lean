import SinglePassPIR.Updatable.Routing

/-!
# What a read leaves of the layers

A read asks every layer that has a client, and every call may change its client. `Sound` is what
the layers rely on from a PIR type: an invariant of its clients that dummy queries and finished
reads keep. Nothing is said of a call that fails, so the results are about reads that return. A read
of row `i` may rely on `R`, say on sizes that the kernels can count in.

## Main results

* `query_trace` — what the loop of `Query` did, if it returned.
* `Serves.read_keeps` — a read that returns leaves clients that are as good, and its row is right.
-/

namespace SinglePassPIR.Updatable
open Pir

variable {P : PirImpl}

/-- What a PIR type guarantees, with `K t table client` as the invariant of a client of type `t`
for a table, and `R table src client i` as what a read of row `i` relies on. The servers of package
`pir` answer or panic. -/
structure PirImpl.Sound (P : PirImpl) (K : PirType → StaticDB → P.Client → Prop)
    (R : StaticDB → P.Source → P.Client → ℕ → Prop) : Prop where
  built : ∀ t table client, table.WF table.rowLen → table.numRows ≠ 0 →
    WaterfallClient.Built P t table client → K t table client
  dummy : ∀ t table client src q client', K t table client →
    P.dummyQuery src client = some (q, client') → K t table client'
  processHint_ne_error : ∀ req db err, P.processHint req db ≠ some (.error err)
  process_ne_error : ∀ q db err, P.process q db ≠ some (.error err)
  read : ∀ t table client src i left right ctx client' a b res client'', K t table client →
    table.WF table.rowLen → i < table.numRows → R table src client i →
    P.query src client (i : ℕ) = some (some (left, right, ctx), client') →
    P.process left table = some (.ok a) → P.process right table = some (.ok b) →
    P.reconstruct client' ctx a b = some (res, client'') →
    K t table client'' ∧ ∀ row, res = .ok row → row = (rowAt table.rowLen table.flatDb i).toList

/-! ## Answers that came -/

section
variable {db : StaticDB}

/-- What came of the requests, from the first one on. -/
theorem processReqs_cons {q : P.QueryReq} {reqs : List P.QueryReq} {firsts : List ℕ}
    {res : Except String (List P.Resp)} (h : processReqs P db (q :: reqs) firsts = some res) :
    ∃ first next rest flat, firsts = first :: next :: rest ∧ db.slice first next = some flat ∧
      ((∃ err, P.process q ⟨next - first, db.rowLen, 0, flat⟩ = some (.error err) ∧
        res = .error err) ∨
      ∃ a res', P.process q ⟨next - first, db.rowLen, 0, flat⟩ = some (.ok a) ∧
        processReqs P db reqs (next :: rest) = some res' ∧ res = res'.map (a :: ·)) := by
  match firsts with
  | [] => simp [processReqs] at h
  | [_] => simp [processReqs] at h
  | first :: next :: rest =>
      simp only [processReqs, Option.bind_eq_bind, Option.bind_eq_some_iff] at h
      obtain ⟨flat, hflat, r, hr, h⟩ := h
      refine ⟨first, next, rest, flat, rfl, hflat, ?_⟩
      cases r with
      | error err =>
          left
          simp only [Option.some.injEq] at h
          exact ⟨err, hr, h.symm⟩
      | ok a =>
          right
          simp only [Option.bind_eq_some_iff] at h
          obtain ⟨res', hres', h⟩ := h
          refine ⟨a, res', hr, hres', ?_⟩
          cases res' with
          | error err =>
              simp only [Option.some.injEq] at h
              exact h.symm
          | ok resps =>
              simp only [Option.some.injEq] at h
              exact h.symm

/-- The answer to one of the requests. -/
theorem processReqs_getElem? {reqs : List P.QueryReq} {firsts : List ℕ} {resps : List P.Resp}
    (h : processReqs P db reqs firsts = some (.ok resps)) {k : ℕ} {q : P.QueryReq} {lo hi : ℕ}
    (hq : reqs[k]? = some q) (hlo : firsts[k]? = some lo) (hhi : firsts[k + 1]? = some hi) :
    ∃ flat a, db.slice lo hi = some flat ∧
      P.process q ⟨hi - lo, db.rowLen, 0, flat⟩ = some (.ok a) ∧ resps[k]? = some a := by
  induction reqs generalizing firsts resps k with
  | nil => simp at hq
  | cons q' reqs ih =>
      obtain ⟨first, next, rest, flat, rfl, hflat, ⟨err, -, hres⟩ | ⟨a, res', ha, hres', hres⟩⟩ :=
        processReqs_cons h
      · cases hres
      · cases res' with
        | error err => cases hres
        | ok resps' =>
            obtain rfl : resps = a :: resps' := Except.ok.inj hres
            cases k with
            | zero =>
                simp only [List.getElem?_cons_zero, List.getElem?_cons_succ, Option.some.injEq]
                  at hq hlo hhi
                subst hq hlo hhi
                exact ⟨flat, a, hflat, ha, rfl⟩
            | succ k =>
                simp only [List.getElem?_cons_succ] at hq hlo hhi ⊢
                exact ih hres' hq hlo hhi

/-- No answer is an error. -/
theorem processReqs_ne_error (hP : ∀ q db err, P.process q db ≠ some (.error err))
    (reqs : List P.QueryReq) (firsts : List ℕ) (err : String) :
    processReqs P db reqs firsts ≠ some (.error err) := by
  induction reqs generalizing firsts with
  | nil => simp [processReqs]
  | cons q reqs ih =>
      intro h
      obtain ⟨first, next, rest, flat, rfl, -, ⟨err', hq, -⟩ | ⟨a, res', -, hres', hres⟩⟩ :=
        processReqs_cons h
      · exact hP _ _ _ hq
      · cases res' with
        | error err' => exact ih _ (by rwa [← Except.error.inj hres] at hres')
        | ok resps => cases hres

end

namespace WaterfallClient

/-! ## The loop of `Query`, if it returned -/

/-- The layers that do not hold the row were sent dummy queries, for their own pieces. -/
theorem dummies_trace {src : ℕ → P.Source} {pos : ℤ} {layers layers' : List (ClientLayer P.Client)}
    {l lo hi : ℕ} {st st' : QueryLoop P} (htile : LayersTile lo layers hi)
    (hactive : Active layers) (hst : st.layerEnd = lo) (hpos : pos < lo ∨ (hi : ℤ) ≤ pos)
    (h : queryLoop src pos l layers st = some (st', layers')) :
    ∃ lefts rights firsts, st' = ⟨hi, st.ctx, st.left ++ lefts, st.right ++ rights,
        st.firstRow ++ firsts⟩ ∧
      lefts.length = firsts.length ∧ rights.length = firsts.length ∧
      (∃ more, firsts ++ [hi] = lo :: more) ∧ List.Forall₂ (AfterDummy P) layers layers' := by
  induction layers generalizing l lo st layers' with
  | nil =>
      obtain rfl : lo = hi := htile
      simp only [queryLoop, Option.some.injEq, Prod.mk.injEq] at h
      obtain ⟨rfl, rfl⟩ := h
      exact ⟨[], [], [], by simp [← hst], rfl, rfl, ⟨[], rfl⟩, .nil⟩
  | cons layer layers ih =>
      have hend := layersTile_end htile.2
      simp only [queryLoop, Option.bind_eq_bind, Option.bind_eq_some_iff, Option.some.injEq,
        Prod.mk.injEq] at h
      obtain ⟨⟨st₁, layer'⟩, hstep, ⟨st₂, layers₂⟩, hloop, rfl, rfl⟩ := h
      have hrest := hactive.sublist (List.subset_cons_self layer layers)
      cases hpir : layer.pir with
      | none =>
          have hzero : layer.numRows = 0 := by
            by_contra hne
            have := (hactive layer List.mem_cons_self).mpr hne
            simp [hpir] at this
          simp only [queryStep, hpir, Option.some.injEq, Prod.mk.injEq] at hstep
          obtain ⟨rfl, rfl⟩ := hstep
          obtain ⟨lefts, rights, firsts, hst', hl, hr, hfirsts, hafter⟩ :=
            ih htile.2 hrest (hst.trans (by omega)) (by omega) hloop
          rw [hzero, Nat.add_zero] at hfirsts
          exact ⟨lefts, rights, firsts, hst', hl, hr, hfirsts, .cons (.skipped hpir) hafter⟩
      | some client =>
          have hne : layer.numRows ≠ 0 :=
            (hactive layer List.mem_cons_self).mp (by simp [hpir])
          have hmiss : ¬((st.layerEnd : ℤ) ≤ pos ∧ pos < (st.layerEnd : ℤ) + layer.numRows) := by
            omega
          simp only [queryStep, hpir, if_neg hmiss, Option.bind_eq_bind, Option.bind_eq_some_iff,
            Option.some.injEq, Prod.mk.injEq] at hstep
          obtain ⟨⟨⟨left, right⟩, client'⟩, hdummy, rfl, rfl⟩ := hstep
          obtain ⟨lefts, rights, firsts, hst', hl, hr, -, hafter⟩ :=
            ih htile.2 hrest (by simp [hst]) (by omega) hloop
          refine ⟨left :: lefts, right :: rights, lo :: firsts, ?_, by simp [hl], by simp [hr],
            ⟨firsts ++ [hi], rfl⟩, .cons (.asked hpir hdummy) hafter⟩
          rw [hst', htile.1 hne]
          simp

variable {c c' : WaterfallClient P.Client} {hinted rest : List (ClientLayer P.Client)}
  {src : ℕ → P.Source} {pos hi : ℕ} {reqL reqR : UpdatableQueryReq P.QueryReq}
  {ctx : WaterfallCtx P}

/-- Request number `k` is `q`, for the piece of `layer`. -/
structure Asks (req : UpdatableQueryReq P.QueryReq) (k : ℕ) (q : P.QueryReq)
    (layer : ClientLayer P.Client) : Prop where
  req_eq : req.reqs[k]? = some q
  first_eq : req.firstRow[k]? = some layer.firstRow
  next_eq : req.firstRow[k + 1]? = some (layer.firstRow + layer.numRows)

theorem asks_middle {reqs reqs' : List P.QueryReq} {firsts more : List ℕ} {q : P.QueryReq}
    {layer : ClientLayer P.Client} (hlen : reqs.length = firsts.length) :
    Asks ⟨reqs ++ q :: reqs',
      firsts ++ layer.firstRow :: (layer.firstRow + layer.numRows) :: more⟩ firsts.length q layer where
  req_eq := by simp [← hlen]
  first_eq := by simp
  next_eq := by
    have hone : firsts.length + 1 - firsts.length = 1 := by omega
    rw [List.getElem?_append_right (Nat.le_succ _), hone]
    rfl

/-- **What the loop did.** The layers up to row `hi` have their clients, and no layer after them
has one: the layer that holds the row was asked for it. -/
theorem query_trace (hlayers : c.layers = hinted ++ rest)
    (hrest : ∀ layer ∈ rest, layer.pir = none) (htile : LayersTile 0 hinted hi)
    (hactive : Active hinted) (hpos : pos < hi)
    (h : c.query src pos = some ((reqL, reqR, ctx), c')) :
    ∃ upper target lower client left right inner client' k upper' lower',
      hinted = upper ++ target :: lower ∧
      Covers ClientLayer.firstRow ClientLayer.numRows pos target ∧ target.pir = some client ∧
      P.query (src upper.length) client ((pos - target.firstRow : ℕ) : ℤ) =
        some (some (left, right, inner), client') ∧
      c' = { c with layers := upper' ++ { target with pir := some client' } :: (lower' ++ rest) } ∧
      upper'.length = upper.length ∧ List.Forall₂ (AfterDummy P) upper upper' ∧
      List.Forall₂ (AfterDummy P) lower lower' ∧ ctx = ⟨k, some (upper.length, inner)⟩ ∧
      Asks reqL k left target ∧ Asks reqR k right target := by
  obtain ⟨upper, target, lower, rfl, hcov, -, -⟩ := htile.split (Nat.zero_le _) hpos
  obtain ⟨lo, htileU, htileT⟩ := tiles_append.mp htile
  have hlo : target.firstRow = lo := htileT.1 hcov.size_ne_zero
  have hend := layersTile_end htileT.2
  have hcov1 := hcov.1
  have hcov2 := hcov.2
  obtain ⟨client, hpir⟩ := Option.isSome_iff_exists.mp
    ((hactive target (by simp)).mpr hcov.size_ne_zero)
  simp only [query, hlayers, queryLoop_append, queryLoop, Option.bind_eq_bind,
    Option.bind_eq_some_iff, Option.map_eq_some_iff, Option.some.injEq, Prod.mk.injEq] at h
  obtain ⟨_, ⟨_, ⟨⟨stU, upper'⟩, hU, _, ⟨⟨stT, target'⟩, hT, ⟨stL, lower'⟩, hL, rfl⟩, rfl⟩,
    ⟨stR, rest'⟩, hR, rfl⟩, ⟨rfl, rfl, rfl⟩, rfl⟩ := h
  rw [queryLoop_skip _ _ hrest, Option.some.injEq, Prod.mk.injEq] at hR
  dsimp only at hU hT hL hR ⊢
  obtain ⟨rfl, rfl⟩ := hR
  obtain ⟨leftsU, rightsU, firstsU, rfl, hlU, hrU, -, hafterU⟩ :=
    dummies_trace htileU (hactive.sublist (by simp)) rfl (Or.inr (by omega)) hU
  -- the layer that holds the row
  have hhit : ((lo : ℕ) : ℤ) ≤ (pos : ℤ) ∧ (pos : ℤ) < (lo : ℤ) + target.numRows := by omega
  simp only [queryStep, hpir, if_pos hhit, Option.bind_eq_bind, Option.bind_eq_some_iff,
    Option.some.injEq, Prod.mk.injEq, Nat.zero_add, List.nil_append] at hT
  obtain ⟨⟨q, client'⟩, hq, ⟨left, right, inner⟩, rfl, rfl, rfl⟩ := hT
  obtain ⟨leftsL, rightsL, firstsL, rfl, -, -, ⟨more, hmore⟩, hafterL⟩ :=
    dummies_trace htileT.2 (hactive.sublist (by simp)) rfl (Or.inl (by omega)) hL
  have hpos' : ((pos - target.firstRow : ℕ) : ℤ) = (pos : ℤ) - lo := by omega
  refine ⟨upper, target, lower, client, left, right, inner, client', firstsU.length, upper', lower',
    rfl, hcov, hpir, ?_, ?_, hafterU.length_eq.symm, hafterU, hafterL, ?_, ?_, ?_⟩
  · rw [hpos']
    exact hq
  · simp
  · simp [← hlU]
  · have hasks := @asks_middle P leftsU leftsL firstsU more left target hlU
    rw [hlo, ← hmore] at hasks
    simpa [hlo] using hasks
  · have hasks := @asks_middle P rightsU rightsL firstsU more right target hrU
    rw [hlo, ← hmore] at hasks
    simpa [hlo] using hasks

/-- A row that no layer holds is asked of none. -/
theorem query_past (hlayers : c.layers = hinted ++ rest)
    (hrest : ∀ layer ∈ rest, layer.pir = none) (htile : LayersTile 0 hinted hi)
    (hactive : Active hinted) (hpos : hi ≤ pos)
    (h : c.query src pos = some ((reqL, reqR, ctx), c')) : ctx.target = none := by
  simp only [query, hlayers, queryLoop_append, Option.bind_eq_bind, Option.bind_eq_some_iff,
    Option.map_eq_some_iff, Option.some.injEq, Prod.mk.injEq] at h
  obtain ⟨_, ⟨⟨st, hinted'⟩, hH, ⟨stR, rest'⟩, hR, rfl⟩, ⟨-, -, rfl⟩, -⟩ := h
  rw [queryLoop_skip _ _ hrest, Option.some.injEq, Prod.mk.injEq] at hR
  dsimp only at hH hR ⊢
  obtain ⟨rfl, -⟩ := hR
  obtain ⟨lefts, rights, firsts, rfl, -⟩ :=
    dummies_trace htile hactive rfl (Or.inr (by omega)) hH
  rfl

/-! ## Layers whose clients have moved on -/

variable {K : PirType → StaticDB → P.Client → Prop} {R : StaticDB → P.Source → P.Client → ℕ → Prop}
variable {rowLen : ℕ} {data : List UInt8} {m : ℕ}

/-- The layer with another client, which is as good for the table as its own. -/
structure Renewed (K : PirType → StaticDB → P.Client → Prop) (rowLen : ℕ) (data : List UInt8)
    (layer layer' : ClientLayer P.Client) : Prop where
  eq : layer' = { layer with pir := layer'.pir }
  isSome_eq : layer'.pir.isSome = layer.pir.isSome
  keeps : ∀ t client client', layer.pir = some client → layer'.pir = some client' →
    K t (tableAt rowLen data layer.firstRow layer.numRows) client →
    K t (tableAt rowLen data layer.firstRow layer.numRows) client'

theorem Renewed.refl (layer : ClientLayer P.Client) : Renewed K rowLen data layer layer where
  eq := rfl
  isSome_eq := rfl
  keeps := by
    intro t client client' h h' hK
    rw [h, Option.some.injEq] at h'
    exact h' ▸ hK

theorem AfterDummy.renewed (hkeeps : ∀ t table client src q client', K t table client →
      P.dummyQuery src client = some (q, client') → K t table client')
    {layer layer' : ClientLayer P.Client} (h : AfterDummy P layer layer') :
    Renewed K rowLen data layer layer' := by
  cases h with
  | skipped hnone => exact Renewed.refl layer
  | asked hpir hdummy =>
      refine ⟨rfl, by rw [hpir]; rfl, ?_⟩
      intro t client client' h h' hK
      rw [hpir, Option.some.injEq] at h
      rw [Option.some.injEq] at h'
      subst h h'
      exact hkeeps _ _ _ _ _ _ hK hdummy

theorem renewed_of_mem {layers layers' : List (ClientLayer P.Client)}
    (h : List.Forall₂ (Renewed K rowLen data) layers layers') {layer' : ClientLayer P.Client}
    (hl : layer' ∈ layers') : ∃ layer ∈ layers, Renewed K rowLen data layer layer' := by
  induction h with
  | nil => simp at hl
  | cons hr _ ih =>
      cases List.mem_cons.mp hl with
      | inl heq => exact ⟨_, List.mem_cons_self, heq ▸ hr⟩
      | inr hmem =>
          obtain ⟨layer, hlayer, hren⟩ := ih hmem
          exact ⟨layer, List.mem_cons_of_mem _ hlayer, hren⟩

/-- **Renewed layers are served.** -/
theorem Serves.renew (hs : Serves K c data) {layers' : List (ClientLayer P.Client)}
    (h : List.Forall₂ (Renewed K c.rowLen data) c.layers layers') :
    Serves K { c with layers := layers' } data where
  layered := by
    refine ⟨hs.layered.tiles.congr (h.imp fun layer layer' hr => ?_), ?_⟩
    · rw [hr.eq]
      exact ⟨rfl, rfl⟩
    · intro layer' hl
      obtain ⟨layer, hmem, hr⟩ := renewed_of_mem h hl
      rw [hr.eq]
      exact hs.layered.le_maxSize layer hmem
  empty := by
    intro layer' hl hzero
    obtain ⟨layer, hmem, hr⟩ := renewed_of_mem h hl
    rw [hr.eq] at hzero
    have hnone := hr.isSome_eq
    rw [hs.empty layer hmem hzero] at hnone
    exact Option.isNone_iff_eq_none.mp (by simpa using hnone)
  length_eq := hs.length_eq
  serves := by
    intro layer' hl client' hsome
    obtain ⟨layer, hmem, hr⟩ := renewed_of_mem h hl
    obtain ⟨client, hpir⟩ := Option.isSome_iff_exists.mp
      (hr.isSome_eq.symm.trans (by rw [hsome]; rfl))
    obtain ⟨t, ht, hK⟩ := hs.serves layer hmem client hpir
    have hkept := hr.keeps t client client' hpir hsome hK
    rw [hr.eq]
    exact ⟨t, ht, hkept⟩

/-- No hint is missing after the layers' clients have moved on. -/
theorem Hinted.renew {layers layers' : List (ClientLayer P.Client)} (h : Hinted layers)
    (hr : List.Forall₂ (Renewed K rowLen data) layers layers') : Hinted layers' := by
  intro layer' hl hne
  obtain ⟨layer, hmem, hrenewed⟩ := renewed_of_mem hr hl
  rw [hrenewed.eq] at hne
  rw [hrenewed.isSome_eq]
  exact h layer hmem hne

/-- A server that can cut the piece of the layer out of its database has the rows of the client
there. -/
def HoldsLayer (db : StaticDB) (rowLen : ℕ) (data : List UInt8) (layer : ClientLayer P.Client) :
    Prop :=
  ∀ flat, db.slice layer.firstRow (layer.firstRow + layer.numRows) = some flat →
    db.rowLen = rowLen ∧ flat = (tableAt rowLen data layer.firstRow layer.numRows).flatDb

/-- **What a read leaves**, if it returned and the server had the rows of the layer that holds
the row: a row that comes back is the right one, and the clients are as good as before. -/
theorem Serves.read_keeps (hP : P.Sound K R) (hs : Serves K c data)
    (hhinted : HintedUpTo c.layers m) (hpos : pos < m) {db : StaticDB}
    (hdb : ∀ (j : ℕ) layer client, c.layers[j]? = some layer → layer.pir = some client →
      Covers ClientLayer.firstRow ClientLayer.numRows pos layer →
      HoldsLayer db c.rowLen data layer ∧
        R (tableAt c.rowLen data layer.firstRow layer.numRows) (src j) client (pos - layer.firstRow))
    (hquery : c.query src pos = some ((reqL, reqR, ctx), c')) {respsL respsR : List P.Resp}
    (hL : reqL.process P db = some (.ok respsL)) (hR : reqR.process P db = some (.ok respsR))
    {res : Except String (List UInt8)} {c'' : WaterfallClient P.Client}
    (hrec : c'.reconstruct ctx respsL respsR = some (res, c'')) :
    (∃ layers', c'' = { c with layers := layers' } ∧
        List.Forall₂ (Renewed K c.rowLen data) c.layers layers') ∧
      ∀ row, res = .ok row → row = (rowAt c.rowLen data pos).toList := by
  obtain ⟨hinted, rest, hlayers, hhinted, hrest, rfl⟩ := hhinted
  obtain ⟨htiles, -, -⟩ := hs.front hlayers
  have hactive := hs.active hhinted (by rw [hlayers]; exact List.subset_append_left ..)
  obtain ⟨upper, target, lower, client, left, right, inner, client', k, upper', lower', rfl, hcov,
    hpir, hq, rfl, hlen, hafterU, hafterL, rfl, hasksL, hasksR⟩ :=
    query_trace hlayers hrest htiles hactive hpos hquery
  have hmem : target ∈ c.layers := by simp [hlayers]
  have hget : c.layers[upper.length]? = some target := by simp [hlayers]
  obtain ⟨hholds, hrely⟩ := hdb _ target client hget hpir hcov
  -- both answers are for the table of the layer
  have hanswer : ∀ {req : UpdatableQueryReq P.QueryReq} {q : P.QueryReq} {resps : List P.Resp},
      WaterfallClient.Asks req k q target → req.process P db = some (.ok resps) →
      ∃ a, P.process q (tableAt c.rowLen data target.firstRow target.numRows) = some (.ok a) ∧
        resps[k]? = some a := by
    intro req q resps hasks hprocess
    obtain ⟨flat, a, hflat, ha, hk⟩ :=
      processReqs_getElem? hprocess hasks.req_eq hasks.first_eq hasks.next_eq
    obtain ⟨hrowLen, rfl⟩ := hholds flat hflat
    rw [Nat.add_sub_cancel_left, hrowLen] at ha
    exact ⟨a, ha, hk⟩
  obtain ⟨a, ha, hka⟩ := hanswer hasksL hL
  obtain ⟨b, hb, hkb⟩ := hanswer hasksR hR
  rw [← hlen, reconstruct_target hka hkb, Option.map_eq_some_iff] at hrec
  obtain ⟨⟨res', client''⟩, hinner, hres⟩ := hrec
  obtain ⟨rfl, rfl⟩ := Prod.mk.inj hres
  have hcov1 := hcov.1
  have hcov2 := hcov.2
  have hi : pos - target.firstRow < target.numRows := by omega
  obtain ⟨t, -, hK⟩ := hs.serves target hmem client hpir
  have hwf := tableAt_wf (hs.layer_end hmem hcov.size_ne_zero).2
  have hread := fun t hK => hP.read t (tableAt c.rowLen data target.firstRow target.numRows) client
    _ _ _ _ _ _ _ _ _ _ hK hwf hi hrely hq ha hb hinner
  constructor
  · refine ⟨_, rfl, ?_⟩
    rw [hlayers, List.append_assoc, List.cons_append]
    refine List.rel_append (hafterU.imp fun _ _ h => h.renewed hP.dummy) (.cons ⟨rfl, ?_, ?_⟩
      (List.rel_append (hafterL.imp fun _ _ h => h.renewed hP.dummy)
        (List.forall₂_same.mpr fun layer _ => Renewed.refl layer)))
    · rw [hpir]
      rfl
    · intro t client₀ client₁ h₀ h₁ hK₀
      rw [hpir, Option.some.injEq] at h₀
      rw [Option.some.injEq] at h₁
      subst h₀ h₁
      exact (hread t hK₀).1
  · intro row hrow
    rw [(hread t hK).2 row hrow, tableAt_rowLen, tableAt_row hi, Nat.add_sub_cancel' hcov.1]

end WaterfallClient

end SinglePassPIR.Updatable
