import SinglePassPIR.Lib.Run
import SinglePassPIR.Updatable.Layers

/-!
# A query goes to the layer that holds its row

`WaterfallClient.Query` walks the layers that have a PIR client, asks the one that holds the
row, and sends a dummy query to every other one. Because the layers lie over the rows, the
boundaries that it sends along are the ones its clients were built for.

## Main results

* `dummies_spec` — the loop of `Query` on layers that do not hold the row.
* `query_spec` — a query is answered by both servers and gives the row.
* `waterfall_routes` — the same for the client after any sequence of updates and resets.
-/

namespace SinglePassPIR.Updatable
open Pir

/-! ## The tables of the layers -/

/-- The server has the rows `data`, and maybe more after them. -/
structure Stores (rowLen : ℕ) (data : List UInt8) (db : StaticDB) : Prop where
  rowLen_eq : db.rowLen = rowLen
  starts : data <+: db.flatDb

/-- The table of `numRows` rows from row `firstRow` on. -/
def tableAt (rowLen : ℕ) (data : List UInt8) (firstRow numRows : ℕ) : StaticDB :=
  ⟨numRows, rowLen, 0, (data.drop (firstRow * rowLen)).take (numRows * rowLen)⟩

section
variable {rowLen firstRow numRows : ℕ} {data : List UInt8}

@[simp] theorem tableAt_rowLen : (tableAt rowLen data firstRow numRows).rowLen = rowLen := rfl
@[simp] theorem tableAt_numRows : (tableAt rowLen data firstRow numRows).numRows = numRows := rfl

/-- A prefix of the rows has the same tables. -/
theorem tableAt_more {data' : List UInt8} (h : data <+: data')
    (hend : (firstRow + numRows) * rowLen ≤ data.length) :
    tableAt rowLen data' firstRow numRows = tableAt rowLen data firstRow numRows := by
  obtain ⟨more, rfl⟩ := h
  rw [Nat.add_mul] at hend
  rw [tableAt, tableAt, List.drop_append_of_le_length (by omega),
    List.take_append_of_le_length (by rw [List.length_drop]; omega)]

/-- A server cuts the table out of its database. -/
theorem Stores.slice_eq {db : StaticDB} (h : Stores rowLen data db)
    (hend : (firstRow + numRows) * rowLen ≤ data.length) :
    db.slice firstRow (firstRow + numRows) =
      some (tableAt rowLen data firstRow numRows).flatDb := by
  have hlen := h.starts.length_le
  rw [← tableAt_more h.starts hend, StaticDB.slice, h.rowLen_eq,
    SinglePassPIR.slice_eq (by rw [Nat.add_mul]; omega) (by omega), Nat.add_mul,
    Nat.add_sub_cancel_left]
  rfl

theorem tableAt_wf (hend : (firstRow + numRows) * rowLen ≤ data.length) :
    (tableAt rowLen data firstRow numRows).WF rowLen := by
  refine ⟨rfl, ?_⟩
  rw [Nat.add_mul] at hend
  simp only [tableAt, List.length_take, List.length_drop]
  omega

/-- Row `i` of the table is row `firstRow + i`. -/
theorem tableAt_row {i : ℕ} (hi : i < numRows) :
    rowAt rowLen (tableAt rowLen data firstRow numRows).flatDb i =
      rowAt rowLen data (firstRow + i) := by
  apply Bytes.ext
  intro k hk
  have hend := block_end_le (w := rowLen) hi
  rw [byte_rowAt _ _ hk, byte_rowAt _ _ hk, tableAt, getD_take, if_pos (by omega), getD_drop,
    Nat.add_mul]
  refine congrArg (List.getD data · 0) ?_
  omega

end

/-! ## Answers -/

variable {P : PirImpl}

/-- The requests for consecutive pieces of the rows from `lo` to `hi` are answered. -/
inductive Answered (P : PirImpl) (db : StaticDB) :
    ℕ → List P.QueryReq → List ℕ → ℕ → List P.Resp → Prop
  | nil (lo : ℕ) : Answered P db lo [] [] lo []
  | cons {lo mid hi : ℕ} {flat : List UInt8} {q : P.QueryReq} {a : P.Resp}
      {reqs : List P.QueryReq} {firsts : List ℕ} {resps : List P.Resp}
      (hslice : db.slice lo mid = some flat)
      (hans : P.process q ⟨mid - lo, db.rowLen, 0, flat⟩ = some (.ok a))
      (hrest : Answered P db mid reqs firsts hi resps) :
      Answered P db lo (q :: reqs) (lo :: firsts) hi (a :: resps)

namespace Answered
variable {db : StaticDB} {lo mid hi : ℕ} {reqs reqs' : List P.QueryReq} {firsts firsts' : List ℕ}
  {resps resps' : List P.Resp}

theorem append (h : Answered P db lo reqs firsts mid resps)
    (h' : Answered P db mid reqs' firsts' hi resps') :
    Answered P db lo (reqs ++ reqs') (firsts ++ firsts') hi (resps ++ resps') := by
  induction h with
  | nil lo => exact h'
  | cons hslice hans _ ih => exact .cons hslice hans (ih h')

theorem length_eq (h : Answered P db lo reqs firsts hi resps) : resps.length = reqs.length := by
  induction h with
  | nil lo => rfl
  | cons _ _ _ ih => rw [List.length_cons, List.length_cons, ih]

theorem firsts_length (h : Answered P db lo reqs firsts hi resps) :
    firsts.length = reqs.length := by
  induction h with
  | nil lo => rfl
  | cons _ _ _ ih => rw [List.length_cons, List.length_cons, ih]

/-- A request for the table of the next `n` rows. -/
theorem table {rowLen n : ℕ} {data : List UInt8} {q : P.QueryReq} {a : P.Resp}
    (hdb : Stores rowLen data db) (hend : (lo + n) * rowLen ≤ data.length)
    (ha : P.process q (tableAt rowLen data lo n) = some (.ok a))
    (h : Answered P db (lo + n) reqs firsts hi resps) :
    Answered P db lo (q :: reqs) (lo :: firsts) hi (a :: resps) := by
  refine .cons (hdb.slice_eq hend) ?_ h
  rw [Nat.add_sub_cancel_left, hdb.rowLen_eq]
  exact ha

/-- The list of first rows with the end of the last layer starts where the pieces start. -/
theorem firsts_eq (h : Answered P db lo reqs firsts hi resps) :
    ∃ rest, firsts ++ [hi] = lo :: rest := by
  cases h with
  | nil lo => exact ⟨[], rfl⟩
  | cons _ _ _ => exact ⟨_, rfl⟩

/-- `UpdatableQueryReq.Process` answers the requests. -/
theorem process_eq (h : Answered P db lo reqs firsts hi resps) :
    (⟨reqs, firsts ++ [hi]⟩ : UpdatableQueryReq P.QueryReq).process P db = some (.ok resps) := by
  rw [UpdatableQueryReq.process]
  induction h with
  | nil lo => rfl
  | cons hslice hans hrest ih =>
      obtain ⟨rest, hfirst⟩ := hrest.firsts_eq
      rw [hfirst] at ih
      rw [List.cons_append, hfirst]
      simp only [processReqs, hslice, hans, ih, Option.bind_eq_bind, Option.bind_some]

end Answered

/-- `client` answers dummy queries on the table. -/
structure AnswersDummy (P : PirImpl) (src : P.Source) (client : P.Client) (table : StaticDB) :
    Prop where
  dummy : ∃ l r client' a b, P.dummyQuery src client = some ((l, r), client') ∧
    P.process l table = some (.ok a) ∧ P.process r table = some (.ok b)

/-- `client` is correct on the table: its queries succeed, are answered, and give the row. -/
structure Correct (P : PirImpl) (src : P.Source) (client : P.Client) (table : StaticDB) :
    Prop extends AnswersDummy P src client table where
  query : ∀ i < table.numRows, ∃ l r ctx client' a b client'',
    P.query src client i = some (some (l, r, ctx), client') ∧
    P.process l table = some (.ok a) ∧ P.process r table = some (.ok b) ∧
    P.reconstruct client' ctx a b =
      some (.ok (rowAt table.rowLen table.flatDb i).toList, client'')

namespace WaterfallClient

/-! ## The loop of `Query` -/

theorem queryLoop_append (src : ℕ → P.Source) (pos : ℤ) (l : ℕ)
    (layers layers' : List (ClientLayer P.Client)) (st : QueryLoop P) :
    queryLoop src pos l (layers ++ layers') st = (queryLoop src pos l layers st).bind fun r =>
      (queryLoop src pos (l + layers.length) layers' r.1).map fun r' => (r'.1, r.2 ++ r'.2) := by
  induction layers generalizing l st with
  | nil => simp [queryLoop]
  | cons layer layers ih =>
      have hl : l + 1 + layers.length = l + (layers.length + 1) := by omega
      simp only [List.cons_append, queryLoop, ih, Option.bind_eq_bind, List.length_cons, hl]
      cases queryStep src pos l layer st with
      | none => rfl
      | some r =>
          simp only [Option.bind_some]
          cases queryLoop src pos (l + 1) layers r.1 with
          | none => rfl
          | some r' =>
              simp only [Option.bind_some]
              cases queryLoop src pos (l + (layers.length + 1)) layers' r'.1 <;> rfl

/-- The layer after a query that another layer answers. -/
inductive AfterDummy (P : PirImpl) : ClientLayer P.Client → ClientLayer P.Client → Prop
  | skipped {layer : ClientLayer P.Client} (hnone : layer.pir = none) : AfterDummy P layer layer
  | asked {layer : ClientLayer P.Client} {src : P.Source} {client client' : P.Client}
      {q : P.QueryReq × P.QueryReq} (hpir : layer.pir = some client)
      (hdummy : P.dummyQuery src client = some (q, client')) :
      AfterDummy P layer { layer with pir := some client' }

/-- The layers with rows are those with a PIR client. -/
def Active (layers : List (ClientLayer P.Client)) : Prop :=
  ∀ layer ∈ layers, layer.pir.isSome ↔ layer.numRows ≠ 0

theorem Active.sublist {layers layers' : List (ClientLayer P.Client)} (h : Active layers')
    (hsub : layers ⊆ layers') : Active layers := fun layer hl => h layer (hsub hl)

variable {rowLen : ℕ} {data : List UInt8} {dbL dbR : StaticDB}

/-- **The layers that do not hold the row.** Each one with a client is sent a dummy query for
its own piece of the database. -/
theorem dummies_spec (hL : Stores rowLen data dbL) (hR : Stores rowLen data dbR)
    (src : ℕ → P.Source) (pos : ℤ) {layers : List (ClientLayer P.Client)} (l : ℕ) {lo hi : ℕ}
    (st : QueryLoop P) (htile : LayersTile lo layers hi) (hdata : hi * rowLen ≤ data.length)
    (hactive : Active layers)
    (hdummy : ∀ j layer client, layers[j]? = some layer → layer.pir = some client →
      AnswersDummy P (src (l + j)) client (tableAt rowLen data layer.firstRow layer.numRows))
    (hst : st.layerEnd = lo) (hpos : pos < lo ∨ (hi : ℤ) ≤ pos) :
    ∃ lefts rights firsts aL aR layers',
      queryLoop src pos l layers st = some (⟨hi, st.ctx, st.left ++ lefts, st.right ++ rights,
        st.firstRow ++ firsts⟩, layers') ∧
      Answered P dbL lo lefts firsts hi aL ∧ Answered P dbR lo rights firsts hi aR ∧
      List.Forall₂ (AfterDummy P) layers layers' := by
  induction layers generalizing l lo st with
  | nil =>
      obtain rfl : lo = hi := htile
      refine ⟨[], [], [], [], [], [], ?_, .nil _, .nil _, .nil⟩
      simp [queryLoop, ← hst]
  | cons layer layers ih =>
      have hrest := fun (st' : QueryLoop P) (hst' : st'.layerEnd = lo + layer.numRows)
          (hpos' : pos < (lo + layer.numRows : ℕ) ∨ (hi : ℤ) ≤ pos) =>
        ih (l + 1) st' htile.2
          (hactive.sublist (List.subset_cons_self ..)) (fun j layer' client hj =>
            by
              have := hdummy (j + 1) layer' client hj
              rwa [show l + (j + 1) = l + 1 + j by omega] at this) hst' hpos'
      have hend := layersTile_end htile.2
      cases hpir : layer.pir with
      | none =>
          have hzero : layer.numRows = 0 := by
            by_contra hne
            have := (hactive layer (List.mem_cons_self ..)).mpr hne
            rw [hpir] at this
            exact absurd this (by simp)
          have hstep : queryStep src pos l layer st = some (st, layer) := by
            simp only [queryStep, hpir]
          obtain ⟨lefts, rights, firsts, aL, aR, layers', hloop, hl, hr, hafter⟩ :=
            hrest st (by omega) (by omega)
          rw [hzero, Nat.add_zero] at hl hr
          refine ⟨lefts, rights, firsts, aL, aR, layer :: layers', ?_, hl, hr,
            .cons (.skipped hpir) hafter⟩
          simp only [queryLoop, hstep, hloop, Option.bind_eq_bind, Option.bind_some]
      | some client =>
          have hne : layer.numRows ≠ 0 := by
            have := (hactive layer (List.mem_cons_self ..)).mp (by simp [hpir])
            exact this
          have hfirst : layer.firstRow = lo := htile.1 hne
          have htable : (layer.firstRow + layer.numRows) * rowLen ≤ data.length := by
            refine le_trans (Nat.mul_le_mul_right rowLen ?_) hdata
            omega
          obtain ⟨left, right, client', a, b, hd, ha, hb⟩ :=
            (hdummy 0 layer client rfl hpir).dummy
          obtain ⟨lefts, rights, firsts, aL, aR, layers', hloop, hl, hr, hafter⟩ :=
            hrest ⟨st.layerEnd + layer.numRows, st.ctx, st.left ++ [left], st.right ++ [right],
              st.firstRow ++ [layer.firstRow]⟩ (by rw [hst]) (by omega)
          have hmiss : ¬((st.layerEnd : ℤ) ≤ pos ∧ pos < (st.layerEnd : ℤ) + layer.numRows) := by
            omega
          have hstep : queryStep src pos l layer st =
              some (⟨st.layerEnd + layer.numRows, st.ctx, st.left ++ [left], st.right ++ [right],
                st.firstRow ++ [layer.firstRow]⟩, { layer with pir := some client' }) := by
            rw [Nat.add_zero] at hd
            simp only [queryStep, hpir, if_neg hmiss, hd, Option.bind_eq_bind, Option.bind_some]
          rw [hfirst] at ha hb htable
          refine ⟨left :: lefts, right :: rights, lo :: firsts, a :: aL, b :: aR,
            { layer with pir := some client' } :: layers', ?_, hl.table hL htable ha,
            hr.table hR htable hb, .cons (.asked hpir hd) hafter⟩
          simp only [queryLoop, hstep, hloop, Option.bind_eq_bind, Option.bind_some,
            List.append_assoc, List.singleton_append]
          rw [hfirst]

/-! ## The whole query -/

variable {c : WaterfallClient P.Client} {upper lower : List (ClientLayer P.Client)}
  {target : ClientLayer P.Client} {client client' : P.Client} {pos : ℕ}

/-- The layers other than `target` answer dummy queries. -/
def OthersAnswer (P : PirImpl) (src : ℕ → P.Source) (rowLen : ℕ) (data : List UInt8)
    (layers : List (ClientLayer P.Client)) (target : ℕ) : Prop :=
  ∀ j layer client, j ≠ target → layers[j]? = some layer → layer.pir = some client →
    AnswersDummy P (src j) client (tableAt rowLen data layer.firstRow layer.numRows)

/-- Layers without a client are passed over. -/
theorem queryLoop_skip (src : ℕ → P.Source) (pos : ℤ) {layers : List (ClientLayer P.Client)}
    (h : ∀ layer ∈ layers, layer.pir = none) (l : ℕ) (st : QueryLoop P) :
    queryLoop src pos l layers st = some (st, layers) := by
  induction layers generalizing l with
  | nil => rfl
  | cons layer layers ih =>
      have hstep : queryStep src pos l layer st = some (st, layer) := by
        simp only [queryStep, h layer List.mem_cons_self]
      simp only [queryLoop, hstep, Option.bind_eq_bind, Option.bind_some,
        ih (fun layer' hl => h layer' (List.mem_cons_of_mem layer hl))]

/-- **The whole query**, when the client of the layer that holds the row has made one. Layers
that lack their client may follow those with one, which end at row `hi`. -/
theorem query_spec (hL : Stores rowLen data dbL) (hR : Stores rowLen data dbR)
    (src : ℕ → P.Source) {rest : List (ClientLayer P.Client)} {hi : ℕ}
    (hlayers : c.layers = (upper ++ target :: lower) ++ rest)
    (hrest : ∀ layer ∈ rest, layer.pir = none)
    (htile : LayersTile 0 (upper ++ target :: lower) hi)
    (hactive : Active (upper ++ target :: lower)) (hdata : hi * rowLen ≤ data.length)
    (hothers : OthersAnswer P src rowLen data (upper ++ target :: lower) upper.length)
    (hcov : Covers ClientLayer.firstRow ClientLayer.numRows pos target)
    (hpir : target.pir = some client) {left right : P.QueryReq} {ctx : P.Ctx}
    (hq : P.query (src upper.length) client ((pos - target.firstRow : ℕ) : ℤ) =
      some (some (left, right, ctx), client')) :
    ∃ reqL reqR k upper' lower', upper'.length = upper.length ∧
      c.query src pos = some ((reqL, reqR, ⟨k, some (upper.length, ctx)⟩),
        { c with layers := upper' ++ { target with pir := some client' } :: (lower' ++ rest) }) ∧
      List.Forall₂ (AfterDummy P) upper upper' ∧ List.Forall₂ (AfterDummy P) lower lower' ∧
      (∀ a, P.process left (tableAt rowLen data target.firstRow target.numRows) = some (.ok a) →
        ∃ resps, reqL.process P dbL = some (.ok resps) ∧ resps[k]? = some a) ∧
      ∀ a, P.process right (tableAt rowLen data target.firstRow target.numRows) = some (.ok a) →
        ∃ resps, reqR.process P dbR = some (.ok resps) ∧ resps[k]? = some a := by
  obtain ⟨lo, htileU, htileT⟩ := tiles_append.mp htile
  have hlo : target.firstRow = lo := htileT.1 hcov.size_ne_zero
  have hend := layersTile_end htileT.2
  have hcov1 := hcov.1
  have hcov2 := hcov.2
  have hbound : ∀ m ≤ hi, m * rowLen ≤ data.length := by
    intro m hm
    exact le_trans (Nat.mul_le_mul_right rowLen hm) hdata
  obtain ⟨leftsU, rightsU, firstsU, aLU, aRU, upper', hloopU, hlU, hrU, hafterU⟩ :=
    dummies_spec hL hR src pos 0 ⟨0, ⟨0, none⟩, [], [], []⟩ htileU (hbound lo (by omega))
      (hactive.sublist (by simp)) (by
        intro j layer client hj
        have hlt : j < upper.length := (List.getElem?_eq_some_iff.mp hj).1
        rw [Nat.zero_add]
        exact hothers j layer client (by omega) (by rw [List.getElem?_append_left hlt, hj]))
      rfl (Or.inr (by omega))
  have hhit : ((lo : ℕ) : ℤ) ≤ (pos : ℤ) ∧ (pos : ℤ) < (lo : ℤ) + target.numRows := by omega
  have hstep : queryStep src pos (0 + upper.length) target ⟨lo, ⟨0, none⟩, leftsU, rightsU,
      firstsU⟩ = some (⟨lo + target.numRows, ⟨leftsU.length, some (upper.length, ctx)⟩,
        leftsU ++ [left], rightsU ++ [right], firstsU ++ [lo]⟩,
        { target with pir := some client' }) := by
    rw [hlo, show ((pos - lo : ℕ) : ℤ) = (pos : ℤ) - lo by omega] at hq
    simp only [queryStep, hpir, if_pos hhit, Nat.zero_add, hq, Option.bind_eq_bind,
      Option.bind_some, hlo]
  obtain ⟨leftsL, rightsL, firstsL, aLL, aRL, lower', hloopL, hlL, hrL, hafterL⟩ :=
    dummies_spec hL hR src pos (0 + upper.length + 1) ⟨lo + target.numRows,
        ⟨leftsU.length, some (upper.length, ctx)⟩, leftsU ++ [left], rightsU ++ [right],
        firstsU ++ [lo]⟩ htileT.2 (hbound hi le_rfl)
      (hactive.sublist (by simp)) (by
        intro j layer client hj
        have hget : (upper ++ target :: lower)[0 + upper.length + 1 + j]? = some layer := by
          rw [List.getElem?_append_right (by omega),
            show 0 + upper.length + 1 + j - upper.length = j + 1 by omega,
            List.getElem?_cons_succ, hj]
        exact hothers _ layer client (by omega) hget)
      rfl (Or.inl (by omega))
  have hloop : queryLoop src pos 0 c.layers ⟨0, ⟨0, none⟩, [], [], []⟩ =
      some (⟨hi, ⟨leftsU.length, some (upper.length, ctx)⟩, leftsU ++ left :: leftsL,
        rightsU ++ right :: rightsL, firstsU ++ lo :: firstsL⟩,
        upper' ++ { target with pir := some client' } :: (lower' ++ rest)) := by
    rw [hlayers, queryLoop_append, queryLoop_append, hloopU]
    simp only [Option.bind_some, List.nil_append, queryLoop, hstep, hloopL, Option.bind_eq_bind,
      Option.map_some, List.append_assoc, queryLoop_skip _ _ hrest,
      List.cons_append]
  have hset := hafterU.length_eq
  refine ⟨⟨leftsU ++ left :: leftsL, (firstsU ++ lo :: firstsL) ++ [hi]⟩,
    ⟨rightsU ++ right :: rightsL, (firstsU ++ lo :: firstsL) ++ [hi]⟩, leftsU.length,
    upper', lower', hset.symm, ?_, hafterU, hafterL, ?_, ?_⟩
  · simp only [query, hloop, Option.bind_eq_bind, Option.bind_some]
  · intro a ha
    rw [hlo] at ha
    have h := hlU.append (hlL.table hL (hbound (lo + target.numRows) (by omega)) ha)
    exact ⟨_, h.process_eq, by rw [← hlU.length_eq]; simp⟩
  · intro a ha
    rw [hlo] at ha
    have h := hrU.append (hrL.table hR (hbound (lo + target.numRows) (by omega)) ha)
    refine ⟨_, h.process_eq, ?_⟩
    rw [← hlU.firsts_length, hrU.firsts_length, ← hrU.length_eq]
    simp

/-- The closure calls the client of the layer that holds the row. -/
theorem reconstruct_target {upper' lower' : List (ClientLayer P.Client)} {k : ℕ} {ctx : P.Ctx}
    {respsL respsR : List P.Resp} {a b : P.Resp} (hk : respsL[k]? = some a)
    (hk' : respsR[k]? = some b) :
    ({ c with layers := upper' ++ { target with pir := some client' } :: lower' } :
        WaterfallClient P.Client).reconstruct ⟨k, some (upper'.length, ctx)⟩ respsL respsR =
      (P.reconstruct client' ctx a b).map fun r =>
        (r.1, { c with layers := upper' ++ { target with pir := some r.2 } :: lower' }) := by
  simp only [reconstruct, hk, hk', Option.bind_eq_bind, Option.bind_some,
    List.getElem?_append_right le_rfl, Nat.sub_self, List.getElem?_cons_zero,
    List.set_append_right _ _ le_rfl, List.set_cons_zero]
  cases P.reconstruct client' ctx a b <;> rfl

/-! ## Clients that serve their layers -/

/-- The client was made from a hint for the table. The types that are not for large databases
get only the sizes of it. -/
def Built (P : PirImpl) (t : PirType) (table : StaticDB) (client : P.Client) : Prop :=
  ∃ src initSrc resp, P.processHint (P.newHintReq src t)
      (if t.layered then table else ⟨table.numRows, table.rowLen, 0, []⟩) = some (.ok resp) ∧
    P.initClient initSrc resp = some client

/-- The layers lie over the rows `data`, those without rows have no client, and every client is
as `K` says for the type and the table of its layer. -/
structure Serves (K : PirType → StaticDB → P.Client → Prop) (c : WaterfallClient P.Client)
    (data : List UInt8) : Prop where
  layered : c.Layered
  empty : ∀ layer ∈ c.layers, layer.numRows = 0 → layer.pir = none
  length_eq : data.length = c.numRows * c.rowLen
  serves : ∀ layer ∈ c.layers, ∀ client, layer.pir = some client → ∃ t, layer.pirType = some t ∧
    K t (tableAt c.rowLen data layer.firstRow layer.numRows) client

/-- Every layer with rows has a client: no hint is missing. -/
def Hinted (layers : List (ClientLayer P.Client)) : Prop :=
  ∀ layer ∈ layers, layer.numRows ≠ 0 → layer.pir.isSome

/-- The layers over the first `m` rows have their clients, and no layer after them has one. -/
def HintedUpTo (layers : List (ClientLayer P.Client)) (m : ℕ) : Prop :=
  ∃ hinted rest, layers = hinted ++ rest ∧ Hinted hinted ∧ (∀ layer ∈ rest, layer.pir = none) ∧
    rowsOf hinted = m

section Serves
variable {K : PirType → StaticDB → P.Client → Prop} {data' : List UInt8} {db : StaticDB}
  {n : ℕ} {src initSrc : P.Source}

theorem serves_empty (hc : c.numRows = 0) (hlayers : c.layers = []) : Serves K c [] where
  layered := ⟨by rw [hlayers, hc]; rfl, by simp [hlayers]⟩
  empty := by simp [hlayers]
  length_eq := by simp [hc]
  serves := by simp [hlayers]

theorem Serves.active (hs : Serves K c data) {layers : List (ClientLayer P.Client)}
    (h : Hinted layers) (hsub : layers ⊆ c.layers) : Active layers := by
  intro layer hl
  refine ⟨?_, h layer hl⟩
  intro hsome hzero
  rw [hs.empty layer (hsub hl) hzero] at hsome
  exact absurd hsome (by simp)

/-- The first layers lie over the first rows. -/
theorem Serves.front (hs : Serves K c data) {front rest : List (ClientLayer P.Client)}
    (hlayers : c.layers = front ++ rest) :
    LayersTile 0 front (rowsOf front) ∧ rowsOf front ≤ c.numRows ∧
      rowsOf front * c.rowLen ≤ data.length := by
  have htiles := hs.layered.tiles
  rw [hlayers] at htiles
  obtain ⟨mid, hfront, hrest⟩ := tiles_append.mp htiles
  have hmid := layersTile_end hfront
  have hend := layersTile_end hrest
  rw [Nat.zero_add] at hmid
  subst hmid
  refine ⟨hfront, by omega, ?_⟩
  rw [hs.length_eq]
  exact Nat.mul_le_mul_right _ (by omega)

theorem Hinted.hintedUpTo {layers : List (ClientLayer P.Client)} (h : Hinted layers) :
    HintedUpTo layers (rowsOf layers) :=
  ⟨layers, [], (List.append_nil layers).symm, h, by simp, rfl⟩

/-- The piece of the rows that a layer with rows is for. -/
theorem Serves.layer_end (hs : Serves K c data) {layer : ClientLayer P.Client}
    (hl : layer ∈ c.layers) (hne : layer.numRows ≠ 0) :
    layer.firstRow + layer.numRows ≤ c.numRows ∧
      (layer.firstRow + layer.numRows) * c.rowLen ≤ data.length := by
  have hbounds := (hs.layered.tiles.mem_bounds hl hne).2
  refine ⟨hbounds, ?_⟩
  rw [hs.length_eq]
  exact Nat.mul_le_mul_right _ hbounds

/-- A server that has the rows makes a client for the table of the layer. -/
theorem built_of_hint {t : PirType} {firstRow numRows : ℕ} {resp : P.HintResp}
    (hdb : Stores rowLen data db) (hend : (firstRow + numRows) * rowLen ≤ data.length)
    (h : (if t.layered then
        (⟨P.newHintReq src t, firstRow, numRows⟩ : UpdatableHintReq P.HintReq).process P db
      else P.processHint (P.newHintReq src t) ⟨numRows, rowLen, 0, []⟩) = some (.ok resp))
    (hclient : P.initClient initSrc resp = some client) :
    Built P t (tableAt rowLen data firstRow numRows) client := by
  refine ⟨src, initSrc, resp, ?_, hclient⟩
  by_cases ht : t.layered
  · rw [if_pos ht] at h ⊢
    simp only [UpdatableHintReq.process, hdb.slice_eq hend, Option.bind_eq_bind,
      Option.bind_some, hdb.rowLen_eq] at h
    exact h
  · rw [if_neg ht] at h ⊢
    exact h

/-- **One update keeps the layers served**, when a hint that comes is made from the rows
`data'`, which are the client's and the new ones after them. -/
theorem Serves.fetchHint (hs : Serves K c data) (hn : 1 ≤ n)
    (hK : ∀ t table client, table.WF table.rowLen → table.numRows ≠ 0 → Built P t table client →
      K t table client)
    (hsame : c.numRows ≠ 0 → rowLen = c.rowLen) (hpre : data <+: data')
    (hlen : data'.length = (c.numRows + n) * rowLen)
    {hint : UpdatableHintReq P.HintReq → Option (Except String P.HintResp)}
    (hhonest : ∀ req resp, hint req = some (.ok resp) →
      ∃ db, Stores rowLen data' db ∧ req.process P db = some (.ok resp))
    {res : Except String Unit} {c' : WaterfallClient P.Client}
    (h : c.fetchHint hint src initSrc n rowLen = some (res, c')) :
    Serves K c' data' ∧ c'.numRows = c.numRows + n ∧ c'.rowLen = rowLen ∧
      (res = .ok () → Hinted c.layers → Hinted c'.layers) := by
  obtain ⟨upper, lower, maxSize, k, t, hinted, hcarried, hhint, hcases⟩ :=
    fetchHint_cases hs.layered.tiles hn h
  have hk : k ≠ 0 := by
    have := hcarried.new_le
    omega
  -- the client of the layer that took the rows, if there is one
  obtain ⟨pir, rfl, hpir, hok⟩ : ∃ pir, c' = c.carry n rowLen upper lower maxSize k t pir ∧
      (∀ client, pir = some client →
        Built P t (tableAt rowLen data' (c.numRows + n - k) k) client) ∧
      (res = .ok () → pir.isSome) := by
    rcases hcases with ⟨err, -, rfl, rfl⟩ | ⟨resp, initSrc', client, rfl, rfl, hclient, rfl⟩
    · exact ⟨none, rfl, by simp, by simp⟩
    · refine ⟨some client, rfl, ?_, by simp⟩
      intro client' hsome
      obtain rfl : client = client' := by simpa using hsome
      have hend : (c.numRows + n - k + k) * rowLen ≤ data'.length := by
        rw [hlen, Nat.sub_add_cancel hcarried.le_rows]
      by_cases ht : t.layered
      · rw [if_pos ht] at hhint
        obtain ⟨db, hdb, hprocess⟩ := hhonest _ _ hhint
        exact built_of_hint hdb hend (by rw [if_pos ht, hprocess]) hclient
      · rw [if_neg ht] at hhint
        have hdb : Stores rowLen data' ⟨0, rowLen, 0, data'⟩ := ⟨rfl, List.prefix_rfl⟩
        exact built_of_hint hdb hend (by rw [if_neg ht, hhint]) hclient
  have hmem : ∀ layer ∈ (c.carry n rowLen upper lower maxSize k t pir).layers,
      layer ∈ upper ∨ layer = ⟨maxSize, c.numRows + n - k, k, some t, pir⟩ ∨
        ∃ m, layer = emptyLayer m := by
    intro layer hl
    simp only [carry, List.mem_append, List.mem_cons] at hl
    rcases hl with hl | hl | hl
    · exact Or.inl hl
    · exact Or.inr (Or.inl hl)
    · exact Or.inr (Or.inr (hcarried.lower_empty layer hl))
  refine ⟨⟨hcarried.layered hs.layered _ _, ?_, hlen, ?_⟩, rfl, rfl, ?_⟩
  · intro layer hl hzero
    rcases hmem layer hl with hl | rfl | ⟨m, rfl⟩
    · exact hs.empty layer (hcarried.upper_le.subset hl) hzero
    · exact absurd hzero hk
    · rfl
  · intro layer hl client hsome
    rcases hmem layer hl with hl | rfl | ⟨m, rfl⟩
    · have hl' := hcarried.upper_le.subset hl
      have hne : layer.numRows ≠ 0 := by
        intro hzero
        rw [hs.empty layer hl' hzero] at hsome
        exact absurd hsome (by simp)
      obtain ⟨hend, hbytes⟩ := hs.layer_end hl' hne
      obtain ⟨t', ht', hserves⟩ := hs.serves layer hl' client hsome
      have hrowLen : (c.carry n rowLen upper lower maxSize k t pir).rowLen = c.rowLen :=
        hsame (by omega)
      rw [hrowLen, tableAt_more hpre hbytes]
      exact ⟨t', ht', hserves⟩
    · refine ⟨t, rfl, hK _ _ _ (tableAt_wf ?_) hk (hpir client hsome)⟩
      rw [hlen, Nat.sub_add_cancel hcarried.le_rows]
      exact le_rfl
    · simp [emptyLayer] at hsome
  · intro hres hhinted layer hl hne
    rcases hmem layer hl with hl | rfl | ⟨m, rfl⟩
    · exact hhinted layer (hcarried.upper_le.subset hl) hne
    · exact hok hres
    · exact absurd rfl hne

/-- **A read of a client that serves its layers.** Both servers answer, and the row comes back. -/
theorem Serves.read (hs : Serves K c data) {m : ℕ} (hhinted : HintedUpTo c.layers m)
    (hpos : pos < m) (src : ℕ → P.Source) (hL : Stores c.rowLen data dbL)
    (hR : Stores c.rowLen data dbR)
    (hcorrect : ∀ j layer client, c.layers[j]? = some layer → layer.pir = some client →
      Correct P (src j) client (tableAt c.rowLen data layer.firstRow layer.numRows)) :
    ∃ reqL reqR ctx c' respsL respsR c'', c.query src pos = some ((reqL, reqR, ctx), c') ∧
      reqL.process P dbL = some (.ok respsL) ∧ reqR.process P dbR = some (.ok respsR) ∧
      c'.reconstruct ctx respsL respsR =
        some (.ok (rowAt c.rowLen data pos).toList, c'') := by
  obtain ⟨hinted, rest, hlayers, hhinted, hrest, rfl⟩ := hhinted
  obtain ⟨htiles, -, hbytes⟩ := hs.front hlayers
  obtain ⟨upper, target, lower, rfl, hcov, -, -⟩ := htiles.split (Nat.zero_le _) hpos
  have hget : c.layers[upper.length]? = some target := by simp [hlayers]
  have hmem : target ∈ upper ++ target :: lower := by simp
  obtain ⟨client, hpir⟩ := Option.isSome_iff_exists.mp (hhinted target hmem hcov.size_ne_zero)
  have hi : pos - target.firstRow < target.numRows := hcov.sub_lt
  obtain ⟨l, r, ctx, client', a, b, client'', hq, ha, hb, hrec⟩ :=
    (hcorrect _ target client hget hpir).query _ hi
  have hothers : OthersAnswer P src c.rowLen data (upper ++ target :: lower) upper.length := by
    intro j layer client _ hj hp
    have hlt := (List.getElem?_eq_some_iff.mp hj).1
    refine (hcorrect j layer client ?_ hp).toAnswersDummy
    rw [hlayers, List.getElem?_append_left hlt, hj]
  obtain ⟨reqL, reqR, k, upper', lower', hset, hquery, -, -, hansL, hansR⟩ :=
    query_spec hL hR src hlayers hrest htiles
      (hs.active hhinted (by rw [hlayers]; exact List.subset_append_left ..)) hbytes hothers hcov
      hpir hq
  obtain ⟨respsL, hpL, hkL⟩ := hansL a ha
  obtain ⟨respsR, hpR, hkR⟩ := hansR b hb
  rw [tableAt_rowLen, tableAt_row hi, Nat.add_sub_cancel' hcov.1] at hrec
  refine ⟨reqL, reqR, _, _, respsL, respsR,
    { c with layers := upper' ++ { target with pir := some client'' } :: (lower' ++ rest) }, hquery,
    hpL, hpR, ?_⟩
  rw [← hset, reconstruct_target hkL hkR, hrec]
  rfl

end Serves

end WaterfallClient

/-! ## The type without privacy -/

/-- `pir_non_private.go` -/
def nonPrivate : PirImpl where
  Source := Unit
  HintReq := Unit
  HintResp := ℕ
  Client := Unit
  QueryReq := ℤ
  Resp := List UInt8
  Ctx := Unit
  newHintReq := fun _ _ => ()
  processHint := fun _ db => some (.ok db.numRows)
  initClient := fun _ _ => some ()
  query := fun _ _ i => some (some (i, i, ()), ())
  dummyQuery := fun _ _ => some ((0, 0), ())
  process := fun i db => if i < 0 then none
    else (slice db.flatDb (i.toNat * db.rowLen) ((i.toNat + 1) * db.rowLen)).map .ok
  reconstruct := fun _ _ row _ => some (.ok row, ())

/-- It is correct on every table with rows. -/
theorem nonPrivate_correct {table : StaticDB} (h : table.WF table.rowLen)
    (hne : table.numRows ≠ 0) : Correct nonPrivate () () table := by
  have hrow : ∀ i < table.numRows, nonPrivate.process ((i : ℕ) : ℤ) table =
      some (.ok (rowAt table.rowLen table.flatDb i).toList) := by
    intro i hi
    simp only [nonPrivate, Int.toNat_natCast, slice_rowAt h.length_eq hi, Option.map_some,
      if_neg (show ¬((i : ℕ) : ℤ) < 0 by omega)]
  constructor
  · constructor
    have h0 := hrow 0 (by omega)
    exact ⟨(0 : ℤ), (0 : ℤ), (), _, _, rfl, h0, h0⟩
  · intro i hi
    exact ⟨(i : ℤ), (i : ℤ), (), (), _, _, (), rfl, hrow i hi, hrow i hi, rfl⟩

/-! ## Any sequence of updates and resets -/

/-- A waterfall client with the rows that it has been told of. -/
structure Waterfall (P : PirImpl) where
  client : WaterfallClient P.Client
  data : List UInt8

/-- `HintUpdateReq` for `numNewRows` rows with the hint processed on `db` and passed to
`InitHint`, or `reset`. -/
inductive WaterfallAction (P : PirImpl)
  | update (src initSrc : P.Source) (numNewRows rowLen : ℕ) (db : StaticDB)
  | reset

namespace Waterfall

/-- A client without rows. -/
def new (P : PirImpl) (pirType : PirType) (smallestLayerSizeOverride : ℕ) : Waterfall P :=
  ⟨.new pirType smallestLayerSizeOverride, []⟩

/-- The database of an update has the client's rows and the new ones after them. -/
def Allowed (s : Waterfall P) : WaterfallAction P → Prop
  | .update _ _ n rowLen db => 1 ≤ n ∧ db.rowLen = rowLen ∧
      (s.client.numRows ≠ 0 → rowLen = s.client.rowLen) ∧ s.data <+: db.flatDb ∧
      (s.client.numRows + n) * rowLen ≤ db.flatDb.length
  | .reset => True

instance (s : Waterfall P) : (a : WaterfallAction P) → Decidable (s.Allowed a)
  | .update _ _ n rowLen db => inferInstanceAs (Decidable (1 ≤ n ∧ db.rowLen = rowLen ∧
      (s.client.numRows ≠ 0 → rowLen = s.client.rowLen) ∧ s.data <+: db.flatDb ∧
      (s.client.numRows + n) * rowLen ≤ db.flatDb.length))
  | .reset => inferInstanceAs (Decidable True)

/-- One action; an update whose hint fails ends the run. -/
def step (s : Waterfall P) : WaterfallAction P → Option (Unit × Waterfall P)
  | .update src initSrc n rowLen db => do
      match ← s.client.fetchHint (·.process P db) src initSrc n rowLen with
      | (.error _, _) => none
      | (.ok (), client) => some ((), ⟨client, db.flatDb.take (client.numRows * rowLen)⟩)
  | .reset => some ((), ⟨s.client.reset, []⟩)

/-- The layers are served, and none of their hints is missing. -/
def Served (s : Waterfall P) : Prop :=
  s.client.Serves (WaterfallClient.Built P) s.data ∧ WaterfallClient.Hinted s.client.layers

/-- One action keeps the layers served, by clients that are as `K` says when they are made. -/
theorem step_serves {K : PirType → StaticDB → P.Client → Prop}
    (hK : ∀ t table client, table.WF table.rowLen → table.numRows ≠ 0 →
      WaterfallClient.Built P t table client → K t table client)
    {s s' : Waterfall P} {a : WaterfallAction P} {o : Unit} (hs : s.client.Serves K s.data)
    (hhinted : WaterfallClient.Hinted s.client.layers) (hG : s.Allowed a)
    (hstep : s.step a = some (o, s')) :
    s'.client.Serves K s'.data ∧ WaterfallClient.Hinted s'.client.layers := by
  cases a with
  | reset =>
      simp only [step, Option.some.injEq, Prod.mk.injEq] at hstep
      obtain ⟨-, rfl⟩ := hstep
      exact ⟨WaterfallClient.serves_empty rfl rfl,
        by simp [WaterfallClient.reset, WaterfallClient.Hinted]⟩
  | update src initSrc n rowLen db =>
      obtain ⟨hn, hrowLen, hsame, hpre, henough⟩ := hG
      simp only [step, Option.bind_eq_bind, Option.bind_eq_some_iff] at hstep
      obtain ⟨⟨res, c'⟩, hfetch, hmatch⟩ := hstep
      cases res with
      | error err => simp at hmatch
      | ok u =>
          simp only [Option.some.injEq, Prod.mk.injEq, true_and] at hmatch
          subst hmatch
          have hend : s.data.length ≤ (s.client.numRows + n) * rowLen := by
            rw [hs.length_eq, Nat.add_mul]
            by_cases h0 : s.client.numRows = 0
            · simp [h0]
            · rw [hsame h0]
              exact Nat.le_add_right ..
          have hpre' : s.data <+: db.flatDb.take ((s.client.numRows + n) * rowLen) :=
            List.prefix_take_iff.mpr ⟨hpre, hend⟩
          have hlen : (db.flatDb.take ((s.client.numRows + n) * rowLen)).length =
              (s.client.numRows + n) * rowLen := by
            rw [List.length_take]
            omega
          obtain ⟨hserves, hnum, -, hall⟩ := hs.fetchHint hn hK hsame hpre' hlen
            (fun req resp hreq => ⟨db, ⟨hrowLen, List.take_prefix ..⟩, hreq⟩) hfetch
          rw [← hnum] at hserves
          exact ⟨hserves, hall rfl hhinted⟩

/-- One action keeps every layer served. -/
theorem step_served (s : Waterfall P) (a : WaterfallAction P) (o : Unit) (s' : Waterfall P)
    (h : s.Served) (hG : s.Allowed a) (hstep : s.step a = some (o, s')) : s'.Served :=
  step_serves (fun _ _ _ _ _ h => h) h.1 h.2 hG hstep

/-- **The layers partition the rows and route every position.** After any sequence of updates
and resets the layers with rows lie one after the other over the rows of the client, none is
larger than its maximal size, exactly these layers have a PIR client, and it was built for the
layer's piece of the database. If the clients are correct on these pieces, a query for any row is
answered by two servers that have the rows of the client, and maybe more, and gives the row. -/
theorem waterfall_routes (P : PirImpl) (pirType : PirType) (smallestLayerSizeOverride : ℕ)
    (as : List (WaterfallAction P)) (s : Waterfall P)
    (hrun : runUnder step Allowed (new P pirType smallestLayerSizeOverride) as = some s) :
    LayersTile 0 s.client.layers s.client.numRows ∧
    (∀ pos < s.client.numRows, ∃! i : ℕ, ∃ layer, s.client.layers[i]? = some layer ∧
      Covers ClientLayer.firstRow ClientLayer.numRows pos layer) ∧
    (∀ layer ∈ s.client.layers, layer.numRows ≤ layer.maxSize ∧
      (layer.pir.isSome ↔ layer.numRows ≠ 0) ∧
      (layer.numRows ≠ 0 → layer.firstRow + layer.numRows ≤ s.client.numRows) ∧
      ∀ client, layer.pir = some client → ∃ t, layer.pirType = some t ∧
        WaterfallClient.Built P t
          (tableAt s.client.rowLen s.data layer.firstRow layer.numRows) client) ∧
    ∀ (src : ℕ → P.Source) (pos : ℕ) (dbL dbR : StaticDB), pos < s.client.numRows →
      Stores s.client.rowLen s.data dbL → Stores s.client.rowLen s.data dbR →
      (∀ j layer client, s.client.layers[j]? = some layer → layer.pir = some client →
        Correct P (src j) client
          (tableAt s.client.rowLen s.data layer.firstRow layer.numRows)) →
      ∃ reqL reqR ctx c' respsL respsR c'',
        s.client.query src pos = some ((reqL, reqR, ctx), c') ∧
        reqL.process P dbL = some (.ok respsL) ∧ reqR.process P dbR = some (.ok respsR) ∧
        c'.reconstruct ctx respsL respsR =
          some (.ok (rowAt s.client.rowLen s.data pos).toList, c'') := by
  obtain ⟨hs, hhinted⟩ : s.Served :=
    runUnder_invariant Served (fun s a o s' hs hG hstep => step_served s a o s' hs hG hstep)
      ⟨WaterfallClient.serves_empty rfl rfl, by simp [new, WaterfallClient.new, WaterfallClient.Hinted]⟩
      hrun
  refine ⟨hs.layered.tiles, ?_, ?_, ?_⟩
  · intro pos hpos
    exact hs.layered.tiles.existsUnique_piece (Nat.zero_le pos) hpos
  · intro layer hl
    exact ⟨hs.layered.le_maxSize layer hl, hs.active hhinted (List.Subset.refl _) layer hl,
      fun hne => (hs.layer_end hl hne).1, hs.serves layer hl⟩
  · intro src pos dbL dbR hpos hL hR hcorrect
    have hend := layersTile_end hs.layered.tiles
    exact hs.read hhinted.hintedUpTo (by omega) src hL hR hcorrect

/-- Three rows, two more, and a read of the last one from servers that hold a sixth. -/
theorem waterfall_routes_five_rows :
    ∃ reqL reqR ctx c' respsL respsR c'',
      (⟨.nonPrivate, 5, 1, [⟨5, 0, 5, some .nonPrivate, some ()⟩], 0⟩ :
        WaterfallClient nonPrivate.Client).query (fun _ => ()) 4 = some ((reqL, reqR, ctx), c') ∧
      reqL.process nonPrivate ⟨6, 1, 0, [10, 11, 12, 13, 14, 15]⟩ = some (.ok respsL) ∧
      reqR.process nonPrivate ⟨6, 1, 0, [10, 11, 12, 13, 14, 15]⟩ = some (.ok respsR) ∧
      c'.reconstruct ctx respsL respsR = some (.ok [14], c'') := by
  refine (waterfall_routes nonPrivate .nonPrivate 0
    [.update () () 3 1 ⟨3, 1, 0, [10, 11, 12]⟩, .update () () 2 1 ⟨5, 1, 0, [10, 11, 12, 13, 14]⟩]
    ⟨⟨.nonPrivate, 5, 1, [⟨5, 0, 5, some .nonPrivate, some ()⟩], 0⟩, [10, 11, 12, 13, 14]⟩
    rfl).2.2.2 (fun _ => ()) 4 ⟨6, 1, 0, [10, 11, 12, 13, 14, 15]⟩
    ⟨6, 1, 0, [10, 11, 12, 13, 14, 15]⟩ (by decide) ⟨rfl, by decide⟩ ⟨rfl, by decide⟩ ?_
  intro j layer client hj _
  have hlayer := List.mem_of_getElem? hj
  simp only [List.mem_singleton] at hlayer
  subst hlayer
  exact nonPrivate_correct ⟨rfl, rfl⟩ (by decide)

end Waterfall

end SinglePassPIR.Updatable
