import SinglePassPIR.Pir.PuncOverlap
import SinglePassPIR.Updatable.LayerOverlap

/-!
# Overlapping reads of puncturable sets in layers

The layers of a `WaterfallClient` of type `Punc` keep the promise of `OverlapRules`. For a
puncturable-set client it is the invariant of its own overlapping reads; dummy queries, which the
other reads make of it, only move the counter of the generator. A DPF client has no state.

## Main results

* `puncRules` — the promise.
* `layered_overlap` — overlapping reads of a client of type `Punc` or `DPF` return their rows.
-/

namespace SinglePassPIR.Pir
open Psetggm

/-- A read under way has its answers, whatever its place is. -/
theorem Outstanding.asks_of_mem {env : Env} {db : StaticDB} {n : ℕ} {S H : ℕ → Bytes n}
    {ps : List PuncPending} (h : Outstanding env db n S H ps) {p : PuncPending} (hp : p ∈ ps) :
    ∃ old new : Bytes n, p.query.Asks env db (p.index % (db.numRows : ℤ)).toNat old new := by
  induction ps generalizing H with
  | nil => simp at hp
  | cons q ps ih =>
      obtain ⟨new, hq, hrest⟩ := h
      cases List.mem_cons.mp hp with
      | inl heq => exact ⟨_, new, heq ▸ hq⟩
      | inr hmem => exact ih hrest hmem

end SinglePassPIR.Pir

namespace SinglePassPIR.Updatable
open Pir Psetggm Dpf

variable {A : Prf} {env : Env} {addr : ℕ} {t : PirType} {table : StaticDB}

/-! ## The queries outstanding at a layer -/

/-- A query of a puncturable-set layer, and the read that its client has under way for it. -/
structure PuncWaits (table : StaticDB) (p : PuncPending) (q : LayerQuery (layeredPunc A env addr)) :
    Prop where
  left_eq : q.left = .punc p.query.left
  right_eq : q.right = .punc p.query.right
  ctx_eq : q.ctx = .punc p.query.ctx
  index_eq : p.index = q.row
  row_lt : q.row < table.numRows

/-- A query of the DPF layer. -/
def DpfWaits (table : StaticDB) (q : LayerQuery (layeredPunc A env addr)) : Prop :=
  ∃ qL qR left right, q.left = .dpf qL ∧ q.right = .dpf qR ∧ q.ctx = .dpf ∧
    qL.process A env addr table = some left ∧ qR.process A env addr table = some right ∧
    dpfReconstruct env left right = some (rowAt table.rowLen table.flatDb q.row).toList

/-- A client of type `t` for the table, with queries outstanding. -/
def PuncLayerKeeps (t : PirType) (table : StaticDB) :
    PuncLayerClient → List (LayerQuery (layeredPunc A env addr)) → Prop
  | .punc c, qs => t = .punc ∧ (PuncFits table table.rowLen → c.setGen.For table ∧
      (c.setGen.num < 2 ^ 32 → ∃ pending, PuncShared.Inv env table table.rowLen ⟨c, pending⟩ ∧
        List.Forall₂ (PuncWaits table) pending qs))
  | .dpf c, qs => t = .dpf ∧ c.nRows = table.numRows ∧ ∀ q ∈ qs, DpfWaits table q

/-- Two reads that replace the same set -/
def PuncLayerCtx.Conflicts : PuncLayerCtx → PuncLayerCtx → Prop
  | .punc a, .punc b => a.randCase = 0 ∧ b.randCase = 0 ∧ a.setIdx = b.setIdx
  | _, _ => False

/-- No identifier of a set has wrapped round. -/
def PuncLayerClient.Lasts : PuncLayerClient → Prop
  | .punc c => c.setGen.num < 2 ^ 32
  | .dpf _ => True

theorem PuncLayerKeeps.of_fits {client : PuncLayerClient} (h : PuncLayerFits env t table client) :
    PuncLayerKeeps t table client ([] : List (LayerQuery (layeredPunc A env addr))) := by
  cases client with
  | punc c =>
      refine ⟨h.1, fun hfit => ⟨(h.2 hfit).1, fun hnum => ?_⟩⟩
      have hc := (h.2 hfit).2 hnum
      exact ⟨[], ⟨hc.setInvariant, by simp, _, hc.hintsAre, rfl⟩, .nil⟩
  | dpf c => exact ⟨h.1, h.2, by simp⟩

/-- Without queries outstanding the client is as good as before. -/
theorem PuncLayerKeeps.fits {client : PuncLayerClient}
    (h : PuncLayerKeeps t table client ([] : List (LayerQuery (layeredPunc A env addr)))) :
    PuncLayerFits env t table client := by
  cases client with
  | punc c =>
      refine ⟨h.1, fun hfit => ⟨(h.2 hfit).1, fun hnum => ?_⟩⟩
      obtain ⟨pending, hinv, hwaits⟩ := (h.2 hfit).2 hnum
      rw [List.forall₂_nil_right_iff] at hwaits
      subst hwaits
      obtain ⟨H, hH, rfl⟩ := hinv.hints
      exact ⟨hinv.setInvariant, hH⟩
  | dpf c => exact ⟨h.1, h.2.1⟩

/-! ## The calls of the layers -/

section
variable {client client' : PuncLayerClient} {src : PuncLayerSource} {i : ℕ}
  {qs qs₁ qs₂ : List (LayerQuery (layeredPunc A env addr))} {q : LayerQuery (layeredPunc A env addr)}

theorem PuncLayerKeeps.answersDummy (h : PuncLayerKeeps t table client qs)
    (hfit : PuncFits table table.rowLen) (hsees : SeesAll env addr table)
    (hready : client.Ready env src table.numRows none) :
    AnswersDummy (layeredPunc A env addr) src client table := by
  cases client with
  | punc c =>
      obtain ⟨pending, hinv, -⟩ := (h.2 hfit).2 hready.1
      exact punc_answersDummy hfit hinv.setInvariant hready
  | dpf c => exact dpf_answersDummy hfit hsees h.2.1

/-- The reads under way do not see the counter. -/
theorem with_num {n : ℕ} {c : PuncClient} {pending : List PuncPending}
    (h : PuncShared.Inv env table n ⟨c, pending⟩) {m : ℕ} (hm : c.setGen.num ≤ m) :
    PuncShared.Inv env table n ⟨{ c with setGen := { c.setGen with num := m + 1 } }, pending⟩ where
  setInvariant := h.setInvariant.with_num hm
  setIdx_lt := h.setIdx_lt
  hints := by
    obtain ⟨H, hH, hout⟩ := h.hints
    have hsame : { c with setGen := { c.setGen with num := m + 1 } }.setXor env table n =
        c.setXor env table n := funext (setXor_with_num (m + 1))
    exact ⟨H, hH, hsame.symm ▸ hout⟩

theorem PuncLayerKeeps.of_dummyQuery {d : PuncLayerReq × PuncLayerReq}
    (h : PuncLayerKeeps t table client qs)
    (hdummy : client.dummyQuery A env src = some (d, client')) :
    PuncLayerKeeps t table client' qs := by
  cases client with
  | punc c =>
      simp only [PuncLayerClient.dummyQuery, Option.map_eq_some_iff] at hdummy
      obtain ⟨⟨d', c'⟩, hdummy, heq⟩ := hdummy
      obtain ⟨-, rfl⟩ := Prod.mk.inj heq
      refine ⟨h.1, ?_⟩
      intro hfit
      obtain ⟨hfor, hshared⟩ := h.2 hfit
      obtain ⟨m, hm, rfl⟩ :=
        PuncClient.dummyQuery_client hfit hfor (Outcome.toOption_eq_some hdummy)
      refine ⟨⟨hfor.univSize_eq, hfor.setSize_eq⟩, ?_⟩
      intro hnum
      obtain ⟨pending, hinv, hwaits⟩ := hshared (by dsimp only at hnum; omega)
      exact ⟨pending, with_num hinv hm, hwaits⟩
  | dpf c =>
      simp only [PuncLayerClient.dummyQuery, Option.map_eq_some_iff] at hdummy
      obtain ⟨d', -, heq⟩ := hdummy
      obtain ⟨-, rfl⟩ := Prod.mk.inj heq
      exact h

/-- **A query** of the layer that holds the row. -/
theorem PuncLayerKeeps.query (h : PuncLayerKeeps t table client qs)
    (hfit : PuncFits table table.rowLen) (hsees : SeesAll env addr table) (hi : i < table.numRows)
    (hready : client.Ready env src table.numRows (some i)) :
    ∃ l r ctx client', client.query A env src i = some (some (l, r, ctx), client') ∧
      PuncLayerKeeps t table client' (qs ++ [⟨i, l, r, ctx⟩]) := by
  cases client with
  | punc c =>
      obtain ⟨hnum, hdraws, hquery⟩ := hready
      obtain ⟨pending, hinv, hwaits⟩ := (h.2 hfit).2 hnum
      obtain ⟨⟨q, c'⟩, hquery, -, hsome, hnum'⟩ :=
        (puncQuery_spec hinv.setInvariant hfit i src.coin hdraws).of_admits hquery
      obtain ⟨q, rfl⟩ := Option.isSome_iff_exists.mp hsome
      -- as a query among the overlapping reads of its client
      have hguard : c.ReadGuard env table ⟨i, src.coin, src.draws⟩ :=
        ⟨hdraws, by dsimp only; rw [hquery]; exact hnum'⟩
      obtain ⟨out, s', hstep, hinv'⟩ := overlapQuery_spec hfit hinv hguard
      have hstep' : PuncShared.step env table ⟨c, pending⟩ (.query ⟨i, src.coin, src.draws⟩) =
          some (none, ⟨c', pending ++ [⟨i, q⟩]⟩) := by
        rw [PuncShared.step, hquery]
        rfl
      rw [hstep', Option.some.injEq, Prod.mk.injEq] at hstep
      obtain ⟨-, rfl⟩ := hstep
      refine ⟨.punc q.left, .punc q.right, .punc q.ctx, .punc c', ?_, h.1, fun _ =>
        ⟨hinv'.setInvariant.setGen, fun _ => ⟨_, hinv', List.rel_append hwaits
          (.cons ⟨rfl, rfl, rfl, rfl, hi⟩ .nil)⟩⟩⟩
      simp only [PuncLayerClient.query, hquery]
      rfl
  | dpf c =>
      obtain ⟨ht, hrows, hwaits⟩ := h
      obtain ⟨qL, qR, left, right, hq, hL, hR, hrec⟩ :=
        dpf_read (A := A) hfit.wf (hfit.numRows_le.trans (by decide)) hsees hrows src.draw hi
      refine ⟨.dpf qL, .dpf qR, .dpf, .dpf c, ?_, ht, hrows, ?_⟩
      · simp only [PuncLayerClient.query, hq, Option.map_some]
      · intro q hq'
        cases List.mem_append.mp hq' with
        | inl hq' => exact hwaits q hq'
        | inr hq' =>
            rw [List.mem_singleton.mp hq']
            exact ⟨qL, qR, left, right, rfl, rfl, rfl, hL, hR, hrec⟩

/-- **The answers** to a query. -/
theorem PuncLayerKeeps.answers (h : PuncLayerKeeps t table client qs)
    (hfit : PuncFits table table.rowLen) (hlasts : client.Lasts) (hq : q ∈ qs) :
    ∃ a b, q.left.process A env addr table = some a ∧ q.right.process A env addr table = some b := by
  cases client with
  | punc c =>
      obtain ⟨pending, hinv, hwaits⟩ := (h.2 hfit).2 hlasts
      obtain ⟨p, hp, hw⟩ := exists_of_mem_left hwaits.flip hq
      obtain ⟨H, -, hout⟩ := hinv.hints
      obtain ⟨old, new, xL, eL, xR, eR, hL, hR, -⟩ := hout.asks_of_mem hp
      refine ⟨.punc ⟨xL.toList, eL.toList⟩, .punc ⟨xR.toList, eR.toList⟩, ?_, ?_⟩
      · rw [hw.left_eq]
        exact congrArg (Option.map _) hL
      · rw [hw.right_eq]
        exact congrArg (Option.map _) hR
  | dpf c =>
      obtain ⟨qL, qR, left, right, hql, hqr, -, hL, hR, -⟩ := h.2.2 q hq
      refine ⟨.dpf left, .dpf right, ?_, ?_⟩
      · simp only [hql, PuncLayerReq.process, hL, Option.map_some]
      · simp only [hqr, PuncLayerReq.process, hR, Option.map_some]

/-- **A `reconstruct`** of the layer that holds the row. -/
theorem PuncLayerKeeps.reconstruct (h : PuncLayerKeeps t table client (qs₁ ++ q :: qs₂))
    (hfit : PuncFits table table.rowLen) (hlasts : client.Lasts)
    (hno : ∀ q' ∈ qs₁, ¬q.ctx.Conflicts q'.ctx) :
    ∃ a b client', q.left.process A env addr table = some a ∧
      q.right.process A env addr table = some b ∧
      client.reconstruct env a b q.ctx =
        some (.ok (rowAt table.rowLen table.flatDb q.row).toList, client') ∧
      PuncLayerKeeps t table client' (qs₁ ++ qs₂) := by
  cases client with
  | punc c =>
      obtain ⟨pending, hinv, hwaits⟩ := (h.2 hfit).2 hlasts
      have hlen : qs₁.length < pending.length := by simp [hwaits.length_eq]
      have hp : pending[qs₁.length]? = some pending[qs₁.length] := List.getElem?_eq_getElem hlen
      obtain ⟨l₁, b, l₂, heq, hl₁, hw, hbefore, hrest⟩ := forall₂_split hwaits hp
      obtain ⟨rfl, hcons⟩ := List.append_inj heq hl₁.symm
      obtain ⟨rfl, rfl⟩ := List.cons.inj hcons
      have horder : PuncShared.InOrder ⟨c, pending⟩ (.reconstruct qs₁.length) := by
        intro p hp' p' hmem hconflict
        rw [hp, Option.some.injEq] at hp'
        obtain ⟨q', hq', hw'⟩ := exists_of_mem_left hbefore hmem
        refine hno q' hq' ?_
        rw [hw.ctx_eq, hw'.ctx_eq, hp']
        exact hconflict
      obtain ⟨s', hstep, hinv'⟩ := overlapReconstruct_spec hinv hp horder
      simp only [PuncShared.step, PuncClient.finish, hp, Option.bind_eq_bind, Option.bind_some,
        Option.bind_eq_some_iff, Option.some.injEq, Prod.mk.injEq] at hstep
      obtain ⟨⟨out, c'⟩, ⟨left, hleft, right, hright, hrec⟩, hout, rfl⟩ := hstep
      have hmod : ((q.row : ℤ) % (table.numRows : ℤ)).toNat = q.row := by
        rw [Int.emod_eq_of_lt (Int.natCast_nonneg _) (by exact_mod_cast hw.row_lt),
          Int.toNat_natCast]
      rw [hw.index_eq, hmod] at hout
      have hout : out = .ok (rowAt table.rowLen table.flatDb q.row).toList := hout
      refine ⟨.punc left, .punc right, .punc c', ?_, ?_, ?_, h.1, fun _ =>
        ⟨hinv'.setInvariant.setGen, fun _ => ⟨_, hinv', hrest⟩⟩⟩
      · simp only [hw.left_eq, PuncLayerReq.process, hleft, Option.map_some]
      · simp only [hw.right_eq, PuncLayerReq.process, hright, Option.map_some]
      · rw [hw.ctx_eq]
        simp only [PuncLayerClient.reconstruct, hrec, hout, Option.map_some]
  | dpf c =>
      obtain ⟨ht, hrows, hwaits⟩ := h
      obtain ⟨qL, qR, left, right, hql, hqr, hctx, hL, hR, hrec⟩ := hwaits q (by simp)
      refine ⟨.dpf left, .dpf right, .dpf c, ?_, ?_, ?_, ht, hrows, ?_⟩
      · simp only [hql, PuncLayerReq.process, hL, Option.map_some]
      · simp only [hqr, PuncLayerReq.process, hR, Option.map_some]
      · simp only [hctx, PuncLayerClient.reconstruct, hrec, Option.map_some]
      · intro q' hq'
        refine hwaits q' ?_
        simp only [List.mem_append, List.mem_cons] at hq' ⊢
        tauto

end

/-- **The promise** of the layers. -/
def puncRules (A : Prf) (env : Env) (addr : ℕ) : OverlapRules (layeredPunc A env addr) where
  Keeps := PuncLayerKeeps
  Fits := fun table => PuncFits table table.rowLen ∧ SeesAll env addr table
  Ready := fun src numRows i client => client.Ready env src numRows i
  Lasts := PuncLayerClient.Lasts
  Conflicts := PuncLayerCtx.Conflicts
  built := fun h => .of_fits (puncLayerFits_of_built h)
  answersDummy := fun h hfits hready => h.answersDummy hfits.1 hfits.2 hready
  afterDummy := fun h hdummy => h.of_dummyQuery hdummy
  query := fun h hfits hi hready => h.query hfits.1 hfits.2 hi hready
  answers := by
    intro t table client qs q h hfits hlasts hq
    obtain ⟨a, b, ha, hb⟩ := h.answers hfits.1 hlasts hq
    exact ⟨a, b, congrArg (Option.map _) ha, congrArg (Option.map _) hb⟩
  reconstruct := by
    intro t table client qs₁ q qs₂ h hfits hlasts hno
    obtain ⟨a, b, client', ha, hb, hrec, h'⟩ := h.reconstruct hfits.1 hlasts hno
    exact ⟨a, b, client', congrArg (Option.map _) ha, congrArg (Option.map _) hb, hrec, h'⟩

/-! ## Runs -/

namespace Shared

/-- An update comes when no read is under way. A query is for a row of a database that the clients
can count in, and the calls of its layers return. Reads that replace the same set are reconstructed
in the order of their queries. -/
def PuncProper (env : Env) (addr : ℕ) (A : Prf) (s : Shared (layeredPunc A env addr)) :
    SharedAction (layeredPunc A env addr) → Prop
  | .query src pos => pos < s.waterfall.client.numRows ∧ s.waterfall.Sized env addr ∧
      ∀ (l : ℕ) (layer : ClientLayer PuncLayerClient) (client : PuncLayerClient),
        s.waterfall.client.layers[l]? = some layer → layer.pir = some client →
          client.Ready env (src l) layer.numRows (layer.rowIn pos)
  | a => s.Proper (puncRules A env addr) a

/-- **Overlapping reads of puncturable sets in layers** return their rows, for clients of type
`Punc` and of type `DPF`. -/
theorem layered_overlap (A : Prf) (env : Env) (addr : ℕ) (pirType : PirType) (override : ℕ)
    (as : List (SharedAction (layeredPunc A env addr))) :
    AlwaysUnder step (PuncProper env addr A) ReturnsRow
      ⟨Waterfall.new (layeredPunc A env addr) pirType override, []⟩ as := by
  refine overlap_of_rules (puncRules A env addr) ?_ pirType override as
  intro s a hs hproper
  cases a with
  | waterfall a => exact hproper
  | reconstruct k dbL dbR => exact hproper
  | query src pos =>
      obtain ⟨hpos, hsized, hready⟩ := hproper
      exact ⟨hpos, fun layer hl hne => hsized.fits hs.serves hl hne, hready⟩

/-- Nine one-byte rows, in layers of six and of three, and two reads that overlap. -/
example :
    let src : PuncLayerSource := ⟨0, 0, 1, [0, 1, 0, 1], (0, 0)⟩
    let db : StaticDB := ⟨9, 1, 0, [1, 2, 3, 4, 5, 6, 7, 8, 9]⟩
    ((runActions step ⟨Waterfall.new (layeredPunc ⟨id, id⟩ countingEnv 0) .punc 2, []⟩
      [.waterfall (.update src src 6 1 db), .waterfall (.update src src 3 1 db),
        .query (fun _ => src) 7, .query (fun _ => src) 2, .reconstruct 1 db db,
        .reconstruct 0 db db]).map fun r => r.1.map (Option.map Except.toOption)) =
      some [none, none, none, none, some (some [3]), some (some [8])] := by
  decide +kernel

end Shared

end SinglePassPIR.Updatable
