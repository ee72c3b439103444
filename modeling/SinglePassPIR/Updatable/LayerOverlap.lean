import SinglePassPIR.Updatable.LayeredPunc

/-!
# Overlapping reads of a client in layers

A proxy answers the requests of its browser with one client, and a read may start before another one
has its answers. A query makes a request of every layer, but only the layer with the row has to
reconstruct anything. So the reads of a client in layers overlap as the reads of each of its layers
do, and what a layer's client promises of overlapping reads carries over to the whole client.

`OverlapRules` is that promise, for any PIR type.

## Main results

* `Shared.Inv.query`, `Shared.Inv.reconstruct` — the two halves of a read, among others.
* `overlap_of_rules` — overlapping reads of any type with the promise, along every run.
-/

namespace SinglePassPIR.Updatable
open Pir Psetggm Dpf

/-! ## The promise of a layer -/

/-- A query that the client of a layer has made and not yet reconstructed. -/
structure LayerQuery (P : PirImpl) where
  row : ℕ
  left : P.QueryReq
  right : P.QueryReq
  ctx : P.Ctx

/-- What a PIR type promises of overlapping reads. `Keeps t table client qs` holds of a client of
type `t` for the table, with the queries `qs` outstanding. -/
structure OverlapRules (P : PirImpl) where
  Keeps : PirType → StaticDB → P.Client → List (LayerQuery P) → Prop
  /-- The table has a size that the clients can count in. -/
  Fits : StaticDB → Prop
  /-- The calls of a layer with so many rows return, in a query for the row if it is given. -/
  Ready : P.Source → ℕ → Option ℕ → P.Client → Prop
  Lasts : P.Client → Prop
  Conflicts : P.Ctx → P.Ctx → Prop
  built : ∀ {t table client}, WaterfallClient.Built P t table client → Keeps t table client []
  answersDummy : ∀ {t table client qs src}, Keeps t table client qs → Fits table →
    Ready src table.numRows none client → AnswersDummy P src client table
  afterDummy : ∀ {t table client client' qs src q}, Keeps t table client qs →
    P.dummyQuery src client = some (q, client') → Keeps t table client' qs
  query : ∀ {t table client qs src i}, Keeps t table client qs → Fits table → i < table.numRows →
    Ready src table.numRows (some i) client → ∃ l r ctx client',
      P.query src client i = some (some (l, r, ctx), client') ∧
      Keeps t table client' (qs ++ [⟨i, l, r, ctx⟩])
  answers : ∀ {t table client qs q}, Keeps t table client qs → Fits table → Lasts client → q ∈ qs →
    ∃ a b, P.process q.left table = some (.ok a) ∧ P.process q.right table = some (.ok b)
  reconstruct : ∀ {t table client qs₁ q qs₂}, Keeps t table client (qs₁ ++ q :: qs₂) → Fits table →
    Lasts client → (∀ q' ∈ qs₁, ¬Conflicts q.ctx q'.ctx) → ∃ a b client',
      P.process q.left table = some (.ok a) ∧ P.process q.right table = some (.ok b) ∧
      P.reconstruct client q.ctx a b =
        some (.ok (rowAt table.rowLen table.flatDb q.row).toList, client') ∧
      Keeps t table client' (qs₁ ++ qs₂)

/-! ## The reads of the whole client -/

/-- A read between its `Query` and the closure that `Query` returned. -/
structure PendingRead (P : PirImpl) where
  pos : ℕ
  left : UpdatableQueryReq P.QueryReq
  right : UpdatableQueryReq P.QueryReq
  ctx : WaterfallCtx P

/-- A client that several reads share. -/
structure Shared (P : PirImpl) where
  waterfall : Waterfall P
  pending : List (PendingRead P)

/-- An update or a reset, a read that starts, or the read at position `k` of those under way, whose
requests are answered by two servers and whose closure is called. -/
inductive SharedAction (P : PirImpl)
  | waterfall (a : WaterfallAction P)
  | query (src : ℕ → P.Source) (pos : ℕ)
  | reconstruct (k : ℕ) (dbL dbR : StaticDB)

namespace Shared
variable {P : PirImpl}

/-- One step, with the result of a read. -/
def step (s : Shared P) : SharedAction P → Option (Option (Except String (List UInt8)) × Shared P)
  | .waterfall a => do
      let (_, waterfall) ← s.waterfall.step a
      some (none, { s with waterfall })
  | .query src pos => do
      let ((left, right, ctx), client) ← s.waterfall.client.query src pos
      some (none, ⟨{ s.waterfall with client }, s.pending ++ [⟨pos, left, right, ctx⟩]⟩)
  | .reconstruct k dbL dbR => do
      let p ← s.pending[k]?
      let respsL ← p.left.process P dbL
      let respsR ← p.right.process P dbR
      let (row, client) ← s.waterfall.client.reconstruct p.ctx (← respsL.toOption) (← respsR.toOption)
      some (some row, ⟨{ s.waterfall with client }, s.pending.eraseIdx k⟩)

/-- The table of a layer. -/
def tableOf {P : PirImpl} (w : Waterfall P) (layer : ClientLayer P.Client) : StaticDB :=
  tableAt w.client.rowLen w.data layer.firstRow layer.numRows

/-- Reads of the same layer that conflict are reconstructed in the order of their queries. -/
def InOrder (R : OverlapRules P) (s : Shared P) (k : ℕ) : Prop :=
  ∀ p, s.pending[k]? = some p → ∀ q ∈ s.pending.take k, ∀ l ctx ctx',
    p.ctx.target = some (l, ctx) → q.ctx.target = some (l, ctx') → ¬R.Conflicts ctx ctx'

/-- The client of the layer that a pending read waits for lasts. -/
def TargetLasts (R : OverlapRules P) (s : Shared P) (k : ℕ) : Prop :=
  ∀ p l ctx layer client, s.pending[k]? = some p → p.ctx.target = some (l, ctx) →
    s.waterfall.client.layers[l]? = some layer → layer.pir = some client → R.Lasts client

/-- An update comes when no read is under way, its database has the client's rows, and its hint
arrives. A query is for a row of the client, and the calls of its layers return. The servers of a
read that is reconstructed have the client's rows, and the client of its layer lasts. -/
def Proper (R : OverlapRules P) (s : Shared P) : SharedAction P → Prop
  | .waterfall a => s.pending = [] ∧ s.waterfall.Allowed a ∧ (s.waterfall.step a).isSome
  | .query src pos => pos < s.waterfall.client.numRows ∧
      (∀ layer ∈ s.waterfall.client.layers, layer.numRows ≠ 0 → R.Fits (tableOf s.waterfall layer)) ∧
      ∀ (l : ℕ) layer client, s.waterfall.client.layers[l]? = some layer → layer.pir = some client →
        R.Ready (src l) layer.numRows (layer.rowIn pos) client
  | .reconstruct k dbL dbR => k < s.pending.length ∧ s.InOrder R k ∧
      Stores s.waterfall.client.rowLen s.waterfall.data dbL ∧
      Stores s.waterfall.client.rowLen s.waterfall.data dbR ∧ s.TargetLasts R k

/-- A read that is reconstructed returns the row that its query asked for. -/
def ReturnsRow (s : Shared P) (a : SharedAction P) (out : Option (Except String (List UInt8)))
    (_ : Shared P) : Prop :=
  ∀ k dbL dbR, a = .reconstruct k dbL dbR → ∃ p, s.pending[k]? = some p ∧
    out = some (.ok (rowAt s.waterfall.client.rowLen s.waterfall.data p.pos).toList)

/-! ## The invariant -/

/-- The queries of layer `l` among those outstanding. -/
def queriesOf (l : ℕ) (qs : List (ℕ × LayerQuery P)) : List (LayerQuery P) :=
  (qs.filter (·.1 = l)).map Prod.snd

/-- A pending read waits for the query `e.2` of layer `e.1`, whose answers are among those that it
gets from any servers with the client's rows. -/
structure Waits (R : OverlapRules P) (w : Waterfall P) (p : PendingRead P) (e : ℕ × LayerQuery P) :
    Prop where
  target_eq : p.ctx.target = some (e.1, e.2.ctx)
  layer : ∃ layer, w.client.layers[e.1]? = some layer ∧
    Covers ClientLayer.firstRow ClientLayer.numRows p.pos layer ∧ e.2.row = p.pos - layer.firstRow ∧
    R.Fits (tableOf w layer) ∧
    (∀ db, Stores w.client.rowLen w.data db → ∀ a,
      P.process e.2.left (tableOf w layer) = some (.ok a) →
      ∃ resps, p.left.process P db = some (.ok resps) ∧ resps[p.ctx.matchingLayer]? = some a) ∧
    ∀ db, Stores w.client.rowLen w.data db → ∀ a,
      P.process e.2.right (tableOf w layer) = some (.ok a) →
      ∃ resps, p.right.process P db = some (.ok resps) ∧ resps[p.ctx.matchingLayer]? = some a

/-- The layers have their clients, which keep the promise with the queries outstanding at each. -/
structure Inv (R : OverlapRules P) (s : Shared P) : Prop where
  serves : s.waterfall.client.Serves (fun _ _ _ => True) s.waterfall.data
  hinted : WaterfallClient.Hinted s.waterfall.client.layers
  shared : ∃ qs, List.Forall₂ (Waits R s.waterfall) s.pending qs ∧
    ∀ l layer client, s.waterfall.client.layers[l]? = some layer → layer.pir = some client →
      ∃ t, layer.pirType = some t ∧ R.Keeps t (tableOf s.waterfall layer) client (queriesOf l qs)

end Shared

/-! ## One query among others -/

namespace WaterfallClient
variable {P : PirImpl} {c : WaterfallClient P.Client} {upper lower : List (ClientLayer P.Client)}
  {target : ClientLayer P.Client} {client client' : P.Client} {pos rowLen hi : ℕ} {data : List UInt8}

/-- **The whole query**, whose requests are answered by any servers with the rows. -/
theorem query_answers (src : ℕ → P.Source) (hlayers : c.layers = upper ++ target :: lower)
    (htile : LayersTile 0 (upper ++ target :: lower) hi) (hactive : Active (upper ++ target :: lower))
    (hdata : hi * rowLen ≤ data.length)
    (hothers : OthersAnswer P src rowLen data (upper ++ target :: lower) upper.length)
    (hcov : Covers ClientLayer.firstRow ClientLayer.numRows pos target)
    (hpir : target.pir = some client) {left right : P.QueryReq} {ctx : P.Ctx}
    (hq : P.query (src upper.length) client ((pos - target.firstRow : ℕ) : ℤ) =
      some (some (left, right, ctx), client')) :
    ∃ reqL reqR k upper' lower', upper'.length = upper.length ∧
      c.query src pos = some ((reqL, reqR, ⟨k, some (upper.length, ctx)⟩),
        { c with layers := upper' ++ { target with pir := some client' } :: lower' }) ∧
      List.Forall₂ (AfterDummy P) upper upper' ∧ List.Forall₂ (AfterDummy P) lower lower' ∧
      (∀ db, Stores rowLen data db → ∀ a,
        P.process left (tableAt rowLen data target.firstRow target.numRows) = some (.ok a) →
        ∃ resps, reqL.process P db = some (.ok resps) ∧ resps[k]? = some a) ∧
      ∀ db, Stores rowLen data db → ∀ a,
        P.process right (tableAt rowLen data target.firstRow target.numRows) = some (.ok a) →
        ∃ resps, reqR.process P db = some (.ok resps) ∧ resps[k]? = some a := by
  have hlayers' : c.layers = (upper ++ target :: lower) ++ [] := by rw [hlayers, List.append_nil]
  have hspec := fun db (hdb : Stores rowLen data db) => query_spec hdb hdb src hlayers' (by simp)
    htile hactive hdata hothers hcov hpir hq
  obtain ⟨reqL, reqR, k, upper', lower', hlen, hquery, hU, hL, -, -⟩ :=
    hspec ⟨0, rowLen, 0, data⟩ ⟨rfl, List.prefix_rfl⟩
  rw [List.append_nil] at hquery
  -- the requests do not depend on the servers
  have hsame : ∀ db, Stores rowLen data db →
      (∀ a, P.process left (tableAt rowLen data target.firstRow target.numRows) = some (.ok a) →
        ∃ resps, reqL.process P db = some (.ok resps) ∧ resps[k]? = some a) ∧
      ∀ a, P.process right (tableAt rowLen data target.firstRow target.numRows) = some (.ok a) →
        ∃ resps, reqR.process P db = some (.ok resps) ∧ resps[k]? = some a := by
    intro db hdb
    obtain ⟨reqL', reqR', k', upper₁, lower₁, -, hquery', -, -, hansL, hansR⟩ := hspec db hdb
    rw [hquery] at hquery'
    simp only [Option.some.injEq, Prod.mk.injEq, WaterfallCtx.mk.injEq] at hquery'
    obtain ⟨⟨rfl, rfl, rfl, -⟩, -⟩ := hquery'
    exact ⟨hansL, hansR⟩
  exact ⟨reqL, reqR, k, upper', lower', hlen, hquery, hU, hL, fun db hdb => (hsame db hdb).1,
    fun db hdb => (hsame db hdb).2⟩

end WaterfallClient

/-! ## Lists that are related position by position -/

section
variable {α β : Type} {r : α → β → Prop} {l : List α} {l' : List β}

theorem exists_of_mem_left (h : List.Forall₂ r l l') {a : α} (ha : a ∈ l) : ∃ b ∈ l', r a b := by
  obtain ⟨i, hi, rfl⟩ := List.getElem_of_mem ha
  have hi' : i < l'.length := h.length_eq ▸ hi
  exact ⟨l'[i], List.getElem_mem hi', (List.forall₂_iff_get.mp h).2 i hi hi'⟩

/-- One position is taken out. -/
theorem forall₂_split (h : List.Forall₂ r l l') {k : ℕ} {a : α} (hk : l[k]? = some a) :
    ∃ l₁ b l₂, l' = l₁ ++ b :: l₂ ∧ l₁.length = k ∧ r a b ∧ List.Forall₂ r (l.take k) l₁ ∧
      List.Forall₂ r (l.eraseIdx k) (l₁ ++ l₂) := by
  obtain ⟨hlt, rfl⟩ := List.getElem?_eq_some_iff.mp hk
  have hlt' : k < l'.length := h.length_eq ▸ hlt
  refine ⟨l'.take k, l'[k], l'.drop (k + 1), ?_, ?_, (List.forall₂_iff_get.mp h).2 k hlt hlt',
    List.forall₂_take k h, ?_⟩
  · rw [← List.drop_eq_getElem_cons hlt', List.take_append_drop]
  · rw [List.length_take]
    omega
  · rw [List.eraseIdx_eq_take_drop_succ]
    exact List.rel_append (List.forall₂_take k h) (List.forall₂_drop (k + 1) h)

end

/-- The layers beside the one in the middle. -/
theorem getElem?_beside {α : Type} {r : α → α → Prop} {upper upper' lower lower' : List α}
    {x x' y : α} {j : ℕ} (hU : List.Forall₂ r upper upper') (hL : List.Forall₂ r lower lower')
    (hj : j ≠ upper.length) (h : (upper' ++ x' :: lower')[j]? = some y) :
    ∃ z, (upper ++ x :: lower)[j]? = some z ∧ r z y := by
  have hlenU := hU.length_eq
  have hlenL := hL.length_eq
  by_cases hlt : j < upper.length
  · rw [List.getElem?_append_left (by omega)] at h
    obtain ⟨hj', rfl⟩ := List.getElem?_eq_some_iff.mp h
    refine ⟨upper[j], by rw [List.getElem?_append_left hlt, List.getElem?_eq_getElem], ?_⟩
    exact (List.forall₂_iff_get.mp hU).2 j hlt hj'
  · obtain ⟨i, rfl⟩ : ∃ i, j = upper.length + (i + 1) := ⟨j - upper.length - 1, by omega⟩
    rw [List.getElem?_append_right (by omega), ← hlenU, Nat.add_sub_cancel_left,
      List.getElem?_cons_succ] at h
    obtain ⟨hi', rfl⟩ := List.getElem?_eq_some_iff.mp h
    have hi : i < lower.length := by omega
    refine ⟨lower[i], ?_, (List.forall₂_iff_get.mp hL).2 i hi hi'⟩
    rw [List.getElem?_append_right (by omega), Nat.add_sub_cancel_left, List.getElem?_cons_succ,
      List.getElem?_eq_getElem hi]

namespace Shared
variable {P : PirImpl} {R : OverlapRules P} {w : Waterfall P} {layers' : List (ClientLayer P.Client)}

/-- The same layers with other clients. -/
abbrev SameLayers (w : Waterfall P) (layers' : List (ClientLayer P.Client)) : Prop :=
  List.Forall₂ (WaterfallClient.Renewed (fun _ _ _ => True) w.client.rowLen w.data) w.client.layers
    layers'

theorem renewed_of_afterDummy {layer layer' : ClientLayer P.Client} {rowLen : ℕ} {data : List UInt8}
    (h : WaterfallClient.AfterDummy P layer layer') :
    WaterfallClient.Renewed (fun _ _ _ => True) rowLen data layer layer' :=
  h.renewed fun _ _ _ _ _ _ _ _ => trivial

/-- A pending read still waits when the clients of the layers have changed. -/
theorem Waits.same {p : PendingRead P} {e : ℕ × LayerQuery P} (h : Waits R w p e)
    (hsame : SameLayers w layers') :
    Waits R { w with client := { w.client with layers := layers' } } p e where
  target_eq := h.target_eq
  layer := by
    obtain ⟨layer, hget, hcov, hrow, hfits, hL, hR⟩ := h.layer
    obtain ⟨hl, rfl⟩ := List.getElem?_eq_some_iff.mp hget
    have hl' : e.1 < layers'.length := hsame.length_eq ▸ hl
    have heq : layers'[e.1] = _ := ((List.forall₂_iff_get.mp hsame).2 e.1 hl hl').eq
    refine ⟨layers'[e.1], List.getElem?_eq_getElem hl', ?_⟩
    rw [heq]
    exact ⟨hcov, hrow, hfits, hL, hR⟩

theorem queriesOf_append (l : ℕ) (qs qs' : List (ℕ × LayerQuery P)) :
    queriesOf l (qs ++ qs') = queriesOf l qs ++ queriesOf l qs' := by
  simp [queriesOf]

theorem queriesOf_cons_self (l : ℕ) (q : LayerQuery P) (qs : List (ℕ × LayerQuery P)) :
    queriesOf l ((l, q) :: qs) = q :: queriesOf l qs := by
  simp [queriesOf]

theorem queriesOf_cons_ne {l m : ℕ} (h : m ≠ l) (q : LayerQuery P) (qs : List (ℕ × LayerQuery P)) :
    queriesOf l ((m, q) :: qs) = queriesOf l qs := by
  simp [queriesOf, h]

variable {s : Shared P}

/-- **A query**, while other reads are under way. -/
theorem Inv.query (h : s.Inv R) {src : ℕ → P.Source} {pos : ℕ}
    (hproper : s.Proper R (.query src pos)) :
    ∃ s', s.step (.query src pos) = some (none, s') ∧ s'.Inv R := by
  obtain ⟨hpos, hfits, hready⟩ := hproper
  obtain ⟨qs, hwaits, hkeeps⟩ := h.shared
  have htiles := h.serves.layered.tiles
  obtain ⟨upper, target, lower, hlayers, hcov, -, -⟩ := htiles.split (Nat.zero_le _) hpos
  have hget : s.waterfall.client.layers[upper.length]? = some target := by simp [hlayers]
  have hmem : target ∈ s.waterfall.client.layers := by simp [hlayers]
  have hne := hcov.size_ne_zero
  -- the layer that holds the row
  obtain ⟨client, hpir⟩ := Option.isSome_iff_exists.mp (h.hinted target hmem hne)
  obtain ⟨t, ht, hkeep⟩ := hkeeps upper.length target client hget hpir
  have hready' := hready _ target client hget hpir
  rw [Waterfall.rowIn_of_covers hcov] at hready'
  obtain ⟨l, r, ctx, client', hq, hkeep'⟩ :=
    R.query hkeep (hfits target hmem hne) hcov.sub_lt hready'
  -- the other ones
  have hothers : WaterfallClient.OthersAnswer P src s.waterfall.client.rowLen s.waterfall.data
      s.waterfall.client.layers upper.length := by
    refine h.serves.othersAnswer hpos hget hcov ?_
    intro j layer other hlayer hother hne' hmiss
    obtain ⟨t', -, hkeep₁⟩ := hkeeps j layer other hlayer hother
    have hready₁ := hready j layer other hlayer hother
    rw [Waterfall.rowIn_of_not_covers hmiss] at hready₁
    exact R.answersDummy hkeep₁ (hfits layer (List.mem_of_getElem? hlayer) hne') hready₁
  have hactive := h.serves.active h.hinted (List.Subset.refl _)
  rw [hlayers] at htiles hothers hactive
  obtain ⟨reqL, reqR, k, upper', lower', hlen, hquery, hafterU, hafterL, hansL, hansR⟩ :=
    WaterfallClient.query_answers src hlayers htiles hactive h.serves.length_eq.ge hothers hcov hpir hq
  have hsame : SameLayers s.waterfall (upper' ++ { target with pir := some client' } :: lower') := by
    rw [SameLayers, hlayers]
    refine List.rel_append (hafterU.imp fun _ _ => renewed_of_afterDummy)
      (.cons ⟨rfl, by rw [hpir]; rfl, fun _ _ _ _ _ _ => trivial⟩
        (hafterL.imp fun _ _ => renewed_of_afterDummy))
  refine ⟨⟨⟨{ s.waterfall.client with
      layers := upper' ++ { target with pir := some client' } :: lower' }, s.waterfall.data⟩,
    s.pending ++ [⟨pos, reqL, reqR, ⟨k, some (upper.length, ctx)⟩⟩]⟩, ?_, h.serves.renew hsame,
    h.hinted.renew hsame, qs ++ [(upper.length, ⟨pos - target.firstRow, l, r, ctx⟩)], ?_, ?_⟩
  · simp only [step, hquery, Option.bind_eq_bind, Option.bind_some]
  · refine List.rel_append (hwaits.imp fun p e hw => hw.same hsame) (.cons ⟨rfl, ?_⟩ .nil)
    refine ⟨{ target with pir := some client' }, ?_, hcov, rfl, hfits target hmem hne, hansL, hansR⟩
    simp [← hlen]
  · intro j layer other hlayer hother
    by_cases hj : j = upper.length
    · subst hj
      have hlayer' : layer = { target with pir := some client' } := by
        simpa [← hlen] using hlayer.symm
      subst hlayer'
      obtain rfl : client' = other := Option.some.inj hother
      refine ⟨t, ht, ?_⟩
      rw [queriesOf_append, queriesOf_cons_self]
      exact hkeep'
    · obtain ⟨layer₀, hlayer₀, hafter⟩ :=
        getElem?_beside (x := target) hafterU hafterL hj hlayer
      rw [← hlayers] at hlayer₀
      rw [queriesOf_append, queriesOf_cons_ne (Ne.symm hj)]
      cases hafter with
      | skipped hnone =>
          rw [hnone] at hother
          cases hother
      | asked hpir₀ hdummy =>
          obtain rfl := Option.some.inj hother
          obtain ⟨t', ht', hkeep₁⟩ := hkeeps j layer₀ _ hlayer₀ hpir₀
          refine ⟨t', ht', ?_⟩
          simpa [queriesOf, tableOf] using R.afterDummy hkeep₁ hdummy

/-- **The requests of a pending read** are answered by any servers with the rows. -/
theorem Inv.answers (h : s.Inv R) {k : ℕ} {p : PendingRead P} (hp : s.pending[k]? = some p)
    (hlasts : s.TargetLasts R k) {db : StaticDB}
    (hdb : Stores s.waterfall.client.rowLen s.waterfall.data db) :
    (∃ resps, p.left.process P db = some (.ok resps)) ∧
      ∃ resps, p.right.process P db = some (.ok resps) := by
  obtain ⟨qs, hwaits, hkeeps⟩ := h.shared
  obtain ⟨qs₁, ⟨l, q⟩, qs₂, rfl, -, hwait, -, -⟩ := forall₂_split hwaits hp
  obtain ⟨layer, hlayer, hcov, -, hfits, hansL, hansR⟩ := hwait.layer
  have hmem := List.mem_of_getElem? hlayer
  obtain ⟨client, hpir⟩ := Option.isSome_iff_exists.mp (h.hinted layer hmem hcov.size_ne_zero)
  obtain ⟨t, -, hkeep⟩ := hkeeps l layer client hlayer hpir
  obtain ⟨a, b, ha, hb⟩ := R.answers hkeep hfits
    (hlasts p l q.ctx layer client hp hwait.target_eq hlayer hpir)
    (show q ∈ _ by simp [queriesOf_append, queriesOf_cons_self])
  obtain ⟨respsL, hL, -⟩ := hansL db hdb a ha
  obtain ⟨respsR, hR, -⟩ := hansR db hdb b hb
  exact ⟨⟨respsL, hL⟩, respsR, hR⟩

/-- The reads before it do not conflict with it. -/
theorem InOrder.not_conflicts {k : ℕ} {p : PendingRead P} {l : ℕ} {ctx : P.Ctx}
    {qs : List (ℕ × LayerQuery P)} (horder : s.InOrder R k) (hk : s.pending[k]? = some p)
    (htarget : p.ctx.target = some (l, ctx))
    (hwaits : List.Forall₂ (Waits R s.waterfall) (s.pending.take k) qs) :
    ∀ q ∈ queriesOf l qs, ¬R.Conflicts ctx q.ctx := by
  intro q hq
  obtain ⟨e, he, rfl⟩ := List.mem_map.mp hq
  obtain ⟨he, hl⟩ := List.mem_filter.mp he
  obtain ⟨p', hp', hw⟩ := exists_of_mem_left hwaits.flip he
  refine horder p hk p' hp' l ctx e.2.ctx htarget ?_
  rw [hw.target_eq, of_decide_eq_true hl]

/-- **A `reconstruct`**, while other reads are under way. -/
theorem Inv.reconstruct (h : s.Inv R) {k : ℕ} {dbL dbR : StaticDB}
    (hproper : s.Proper R (.reconstruct k dbL dbR)) :
    ∃ p s', s.pending[k]? = some p ∧ s.step (.reconstruct k dbL dbR) =
        some (some (.ok (rowAt s.waterfall.client.rowLen s.waterfall.data p.pos).toList), s') ∧
      s'.Inv R := by
  obtain ⟨hk, horder, hdbL, hdbR, hlasts⟩ := hproper
  obtain ⟨qs, hwaits, hkeeps⟩ := h.shared
  obtain ⟨p, hp⟩ : ∃ p, s.pending[k]? = some p := ⟨_, List.getElem?_eq_getElem hk⟩
  obtain ⟨qs₁, ⟨l, q⟩, qs₂, rfl, -, hwait, hbefore, hrest⟩ := forall₂_split hwaits hp
  have hno := horder.not_conflicts hp hwait.target_eq hbefore
  obtain ⟨layer, hlayer, hcov, hrow, hfits, hansL, hansR⟩ := hwait.layer
  dsimp only at hlayer hrow hansL hansR hno
  have hmem := List.mem_of_getElem? hlayer
  obtain ⟨client, hpir⟩ := Option.isSome_iff_exists.mp (h.hinted layer hmem hcov.size_ne_zero)
  obtain ⟨t, ht, hkeep⟩ := hkeeps l layer client hlayer hpir
  rw [queriesOf_append, queriesOf_cons_self] at hkeep
  obtain ⟨a, b, client', ha, hb, hrec, hkeep'⟩ :=
    R.reconstruct hkeep hfits (hlasts p l q.ctx layer client hp hwait.target_eq hlayer hpir) hno
  obtain ⟨respsL, hpL, hkL⟩ := hansL dbL hdbL a ha
  obtain ⟨respsR, hpR, hkR⟩ := hansR dbR hdbR b hb
  -- the closure calls the client of the layer
  obtain ⟨upper, lower, hlayers, hlen⟩ : ∃ upper lower,
      s.waterfall.client.layers = upper ++ layer :: lower ∧ upper.length = l := by
    obtain ⟨hlt, rfl⟩ := List.getElem?_eq_some_iff.mp hlayer
    refine ⟨s.waterfall.client.layers.take l, s.waterfall.client.layers.drop (l + 1), ?_, ?_⟩
    · rw [← List.drop_eq_getElem_cons hlt, List.take_append_drop]
    · rw [List.length_take]
      omega
  have hctx : p.ctx = ⟨p.ctx.matchingLayer, some (upper.length, q.ctx)⟩ := by
    rw [hlen, ← hwait.target_eq]
  have hself : s.waterfall.client = { s.waterfall.client with
      layers := upper ++ { layer with pir := some client } :: lower } := by
    rw [← hpir, ← hlayers]
  have hout : rowAt (tableOf s.waterfall layer).rowLen (tableOf s.waterfall layer).flatDb q.row =
      rowAt s.waterfall.client.rowLen s.waterfall.data p.pos := by
    simp only [tableOf, tableAt_rowLen, hrow]
    rw [tableAt_row hcov.sub_lt, Nat.add_sub_cancel' hcov.1]
  have hclosure : s.waterfall.client.reconstruct p.ctx respsL respsR =
      some (.ok (rowAt s.waterfall.client.rowLen s.waterfall.data p.pos).toList,
        { s.waterfall.client with
          layers := upper ++ { layer with pir := some client' } :: lower }) := by
    rw [hctx, hself, WaterfallClient.reconstruct_target hkL hkR, hrec, hout]
    rfl
  have hsame : SameLayers s.waterfall (upper ++ { layer with pir := some client' } :: lower) := by
    rw [SameLayers, hlayers]
    exact List.rel_append (List.forall₂_same.mpr fun x _ => .refl x)
      (.cons ⟨rfl, by rw [hpir]; rfl, fun _ _ _ _ _ _ => trivial⟩
        (List.forall₂_same.mpr fun x _ => .refl x))
  refine ⟨p, ⟨⟨{ s.waterfall.client with
      layers := upper ++ { layer with pir := some client' } :: lower }, s.waterfall.data⟩,
    s.pending.eraseIdx k⟩, hp, ?_, h.serves.renew hsame, h.hinted.renew hsame, qs₁ ++ qs₂,
    hrest.imp fun p e hw => hw.same hsame, ?_⟩
  · simp only [step, hp, hpL, hpR, hclosure, Except.toOption, Option.bind_eq_bind, Option.bind_some]
  · intro j layer' other hlayer' hother
    by_cases hj : j = l
    · subst hj
      have heq : layer' = { layer with pir := some client' } := by
        simpa [← hlen] using hlayer'.symm
      subst heq
      obtain rfl : client' = other := Option.some.inj hother
      refine ⟨t, ht, ?_⟩
      rw [queriesOf_append]
      exact hkeep'
    · obtain ⟨layer₀, hlayer₀, rfl⟩ := getElem?_beside (r := Eq) (x := layer)
        (List.forall₂_refl upper) (List.forall₂_refl lower) (hlen ▸ hj) hlayer'
      rw [← hlayers] at hlayer₀
      obtain ⟨t', ht', hkeep₁⟩ := hkeeps j layer₀ other hlayer₀ hother
      rw [queriesOf_append, queriesOf_cons_ne (Ne.symm hj)] at hkeep₁
      rw [queriesOf_append]
      exact ⟨t', ht', hkeep₁⟩

/-- An update or a reset finds no read under way. -/
theorem Inv.waterfall (h : s.Inv R) {a : WaterfallAction P} (hproper : s.Proper R (.waterfall a)) :
    ∃ s', s.step (.waterfall a) = some (none, s') ∧ s'.Inv R := by
  obtain ⟨hnil, hallowed, hsome⟩ := hproper
  obtain ⟨⟨o, w⟩, hstep⟩ := Option.isSome_iff_exists.mp hsome
  obtain ⟨qs, hwaits, hkeeps⟩ := h.shared
  rw [hnil, List.forall₂_nil_left_iff] at hwaits
  subst hwaits
  have hserves : s.waterfall.client.Serves (fun t table client => R.Keeps t table client [])
      s.waterfall.data := by
    refine { h.serves with serves := ?_ }
    intro layer hl client hpir
    obtain ⟨i, hi, rfl⟩ := List.getElem_of_mem hl
    exact hkeeps i _ client (List.getElem?_eq_getElem hi) hpir
  obtain ⟨hserves', hhinted'⟩ :=
    Waterfall.step_serves (fun _ _ _ _ _ hbuilt => R.built hbuilt) hserves h.hinted hallowed hstep
  refine ⟨⟨w, s.pending⟩, ?_, { hserves' with serves := ?_ }, hhinted', [], ?_, ?_⟩
  · simp only [step, hstep, Option.bind_eq_bind, Option.bind_some]
  · intro layer hl client hpir
    obtain ⟨t, ht, -⟩ := hserves'.serves layer hl client hpir
    exact ⟨t, ht, trivial⟩
  · rw [hnil]
    exact .nil
  · intro l layer client hlayer hpir
    exact hserves'.serves layer (List.mem_of_getElem? hlayer) client hpir

/-- **One step** keeps the invariant, and a read returns its row. -/
theorem Inv.step (h : s.Inv R) {a : SharedAction P} (hproper : s.Proper R a) :
    ∃ out s', s.step a = some (out, s') ∧ s.ReturnsRow a out s' ∧ s'.Inv R := by
  cases a with
  | waterfall a =>
      obtain ⟨s', hstep, hs'⟩ := h.waterfall hproper
      refine ⟨none, s', hstep, ?_, hs'⟩
      intro k dbL dbR h
      cases h
  | query src pos =>
      obtain ⟨s', hstep, hs'⟩ := h.query hproper
      refine ⟨none, s', hstep, ?_, hs'⟩
      intro k dbL dbR h
      cases h
  | reconstruct k dbL dbR =>
      obtain ⟨p, s', hp, hstep, hs'⟩ := h.reconstruct hproper
      refine ⟨_, s', hstep, ?_, hs'⟩
      intro k' dbL' dbR' h
      cases h
      exact ⟨p, hp, rfl⟩

/-- A new client, with no read under way. -/
theorem inv_new (R : OverlapRules P) (pirType : PirType) (override : ℕ) :
    Inv R ⟨Waterfall.new P pirType override, []⟩ where
  serves := WaterfallClient.serves_empty rfl rfl
  hinted := by simp [Waterfall.new, WaterfallClient.new, WaterfallClient.Hinted]
  shared := ⟨[], .nil, by simp [Waterfall.new, WaterfallClient.new]⟩

/-- **Overlapping reads of a client in layers** return their rows, if the type of the layers keeps
the promise and the invariant turns the guard of the run into the guard of the type. -/
theorem overlap_of_rules (R : OverlapRules P) {G : Shared P → SharedAction P → Prop}
    (hG : ∀ s a, Inv R s → G s a → Proper R s a) (pirType : PirType) (override : ℕ)
    (as : List (SharedAction P)) :
    AlwaysUnder step G ReturnsRow ⟨Waterfall.new P pirType override, []⟩ as :=
  alwaysUnder_of_invariant (Inv R) (fun s a h hproper => h.step (hG s a h hproper)) as _
    (inv_new R pirType override)

end Shared

end SinglePassPIR.Updatable
