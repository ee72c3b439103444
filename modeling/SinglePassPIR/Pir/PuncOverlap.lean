import SinglePassPIR.Pir.PuncRuns
import SinglePassPIR.Pir.SinglePassOverlap

/-!
# Unfinished and overlapping reads of a puncturable-set client

`Query` already puts the new set in its place in case 0, and only `reconstruct` puts the new
hint there. Between the two, the hint of the set is the one of an earlier set. A read that stops
in between leaves it there; reads that overlap find it, and give each other the hints that they
expect as long as those that replace one set are reconstructed in the order of their queries.

## Main results

* `abandon_harmless` — reads that stop before `reconstruct` do no harm in cases 1 and 2.
* `overlapping_reads_correct` — overlapping reads of both stateful clients.
-/

namespace SinglePassPIR.Pir
open Psetggm

variable {env : Env} {db : StaticDB} {n : ℕ} {c : PuncClient}

/-! ## Reads that stop after their query -/

/-- A read that is completed, or one that stops after `Query` because a server failed. -/
inductive PuncAction
  | complete (a : PuncRead)
  | abandon (a : PuncRead)

/-- The read of an action. -/
def PuncAction.read : PuncAction → PuncRead
  | .complete a => a
  | .abandon a => a

/-- One step of a run with unfinished reads. -/
def PuncClient.stepOrAbandon (env : Env) (db : StaticDB) (c : PuncClient) :
    PuncAction → Option (Option (Except String (List UInt8)) × PuncClient)
  | .complete a => (c.step env db a).map fun r => (some r.1, r.2)
  | .abandon a => (c.query env a.idx a.coin a.draws).toOption.map fun r => (none, r.2)

/-- An unfinished read whose query does not replace a set: it samples case 1 or 2, or finds no
set. -/
def PuncClient.ReplacesNoSet (env : Env) (c : PuncClient) : PuncAction → Prop
  | .complete _ => True
  | .abandon a => sample (c.setSize - 1) (c.setSize - 1) a.coin ≠ 0 ∨
      ∃ c', c.findIndex env a.idx = .ok (none, c')

/-- Along every run of completed and unfinished reads under `G`, the invariant holds after every
step and every completed read returns the row it asked for. -/
def AbandonHarmless (env : Env) (db : StaticDB) (n : ℕ) (seed newSetGenKey : Block)
    (G : PuncClient → PuncAction → Prop) : Prop :=
  Outcome.Safe (puncClientOf env db seed newSetGenKey) fun c => c.setGen.num < 2 ^ 32 →
    ∀ as : List PuncAction,
      AlwaysUnder (PuncClient.stepOrAbandon env db)
        (fun c a => c.ReadGuard env db a.read ∧ G c a)
        (fun c a out c' => (∀ r, out = some r → c.Returns env db n a.read r) ∧
          c'.HintInvariant env db n) c as

/-- **One unfinished read** that does not replace a set. -/
theorem abandon_spec (hfit : PuncFits db n) (h : c.Sound env db n) {a : PuncRead}
    (hguard : c.ReadGuard env db a) (hno : c.ReplacesNoSet env (.abandon a)) :
    ∃ c', c.stepOrAbandon env db (.abandon a) = some (none, c') ∧ c'.Sound env db n := by
  obtain ⟨⟨q, c'⟩, hquery, hdone, hnum⟩ :=
    (puncQuery_spec h.setInvariant hfit a.idx a.coin hguard.1).of_admits hguard.2
  have hdone := hdone hnum
  have hsame : ∀ t, c'.setXor env db n t = c.setXor env db n t := by
    cases q with
    | none => exact hdone.fails rfl
    | some q =>
        obtain ⟨-, hcase, hpost⟩ := hdone.asks q rfl
        obtain ⟨new, -, hsets⟩ := hpost.asks
        have hne : q.ctx.randCase ≠ 0 := by
          rw [hcase]
          cases hno with
          | inl hsample => exact hsample
          | inr hnone =>
              obtain ⟨c₁, hfind⟩ := hnone
              rw [PuncClient.query, hfind] at hquery
              split_ifs at hquery
              simp at hquery
        intro t
        rw [hsets, if_neg (by simp [hne])]
  refine ⟨c', ?_, hdone.setInvariant, ?_⟩
  · rw [PuncClient.stepOrAbandon, hquery]
    rfl
  · intro s hs
    rw [hsame, hdone.hints_eq]
    exact h.hintsAre s (hdone.sets_length ▸ hs)

/-- **Unfinished reads that replace no set do no harm.** -/
theorem abandon_harmless (env : Env) {db : StaticDB} (hn : 0 < n) (hwf : db.WF n)
    (hN : 0 < db.numRows) (hN31 : db.numRows ≤ 2 ^ 31) (h32 : db.numRows * n < 2 ^ 32)
    (seed newSetGenKey : Block) :
    AbandonHarmless env db n seed newSetGenKey (PuncClient.ReplacesNoSet env) := by
  have hfit : PuncFits db n := ⟨hwf, hn, hN, hN31, h32⟩
  refine (puncClientOf_spec hfit seed newSetGenKey).mono ?_
  intro c hsound hnum as
  refine alwaysUnder_of_invariant (fun c => c.Sound env db n) ?_ as _ (hsound hnum)
  intro c a hc ⟨hguard, hno⟩
  cases a with
  | complete a =>
      obtain ⟨out, c', hstep, hreturns, hc'⟩ := PuncClient.step_spec hfit hc hguard
      refine ⟨some out, c', ?_, ⟨?_, hc'.hintInvariant hfit⟩, hc'⟩
      · exact congrArg (Option.map _) hstep
      · intro r hr
        exact Option.some.inj hr ▸ hreturns
  | abandon a =>
      obtain ⟨c', hstep, hc'⟩ := abandon_spec hfit hc hguard hno
      refine ⟨none, c', hstep, ⟨?_, hc'.hintInvariant hfit⟩, hc'⟩
      intro r hr
      exact absurd hr (by simp)

theorem abandon_harmless_three_rows :
    AbandonHarmless countingEnv threeRows 1 0 0 (PuncClient.ReplacesNoSet countingEnv) :=
  abandon_harmless countingEnv (by decide) ⟨rfl, rfl⟩ (by decide) (by decide) (by decide) 0 0

/-- On three rows, a read of row `1` that stops in case 0 makes the next read of row `1`
return `7`. -/
theorem abandoned_read_corrupts :
    ¬AbandonHarmless countingEnv threeRows 1 0 0 fun _ _ => True := by
  intro h
  let a : PuncRead := ⟨1, 2, [0, 1, 0, 1]⟩
  have hlast : ((puncClientOf countingEnv threeRows 0 0).toOption.bind fun c =>
      if c.setGen.num < 2 ^ 32 then
        (runUnder (PuncClient.stepOrAbandon countingEnv threeRows)
          (fun c a => c.ReadGuard countingEnv threeRows a.read ∧ True) c [.abandon a]).bind fun c =>
        (c.stepOrAbandon countingEnv threeRows (.complete a)).map fun r =>
          decide (c.ReadGuard countingEnv threeRows a ∧ r.1 = some (.ok [7]))
      else none) = some true := by
    decide +kernel
  rw [Option.bind_eq_some_iff] at hlast
  obtain ⟨c, hc, hlast⟩ := hlast
  have hc := Outcome.toOption_eq_some hc
  split_ifs at hlast with hnum
  rw [Option.bind_eq_some_iff] at hlast
  obtain ⟨c₁, hrun, hlast⟩ := hlast
  rw [Option.map_eq_some_iff] at hlast
  obtain ⟨r, hr, hlast⟩ := hlast
  obtain ⟨hguard, hseven⟩ := of_decide_eq_true hlast
  obtain ⟨out, c₂, hstep, hreturns, -⟩ :=
    (h.of_ok hc hnum ([.abandon a] ++ [.complete a])).last hrun
      (show c₁.ReadGuard countingEnv threeRows a ∧ True from ⟨hguard, trivial⟩)
  rw [hr, Option.some.injEq] at hstep
  obtain ⟨q, c', hquery, hout⟩ := hreturns (.ok [7]) (by rw [← hseven, hstep])
  cases hq : q.isSome with
  | true =>
      rw [if_pos hq] at hout
      exact absurd hout (by decide +kernel)
  | false =>
      rw [if_neg (by simp [hq])] at hout
      exact absurd hout (by simp)

/-! ## Overlapping reads -/

/-- A read between its `Query` and its `reconstruct`. -/
structure PuncPending where
  index : ℤ
  query : PuncQuery
  deriving DecidableEq

/-- A client that several reads share. -/
structure PuncShared where
  client : PuncClient
  pending : List PuncPending
  deriving DecidableEq

/-- A read starts, or the read at position `k` of those under way is reconstructed. -/
inductive PuncOverlapAction
  | query (a : PuncRead)
  | reconstruct (k : ℕ)

/-- One step of a run of overlapping reads; a query that finds no set ends its read. -/
def PuncShared.step (env : Env) (db : StaticDB) (s : PuncShared) :
    PuncOverlapAction → Option (Option (Except String (List UInt8)) × PuncShared)
  | .query a => do
      let (q, client) ← (s.client.query env a.idx a.coin a.draws).toOption
      match q with
      | none => some (some (.error ("Failed to query: " ++ toString a.idx)), { s with client })
      | some q => some (none, ⟨client, s.pending ++ [⟨a.idx, q⟩]⟩)
  | .reconstruct k => do
      let p ← s.pending[k]?
      let (out, client) ← s.client.finish env db p.query
      some (some out, ⟨client, s.pending.eraseIdx k⟩)

/-- A query that the guard of a read admits, or the `reconstruct` of a read under way. -/
def PuncShared.Proper (env : Env) (db : StaticDB) (s : PuncShared) : PuncOverlapAction → Prop
  | .query a => s.client.ReadGuard env db a
  | .reconstruct k => k < s.pending.length

instance (s : PuncShared) : (a : PuncOverlapAction) → Decidable (s.Proper env db a)
  | .query a => inferInstanceAs (Decidable (s.client.ReadGuard env db a))
  | .reconstruct k => inferInstanceAs (Decidable (k < s.pending.length))

/-- Two reads that replace the same set. -/
def PuncQuery.Conflicts (a b : PuncQuery) : Prop :=
  a.ctx.randCase = 0 ∧ b.ctx.randCase = 0 ∧ a.ctx.setIdx = b.ctx.setIdx

/-- Reads that replace the same set are reconstructed in the order of their queries. -/
def PuncShared.InOrder (s : PuncShared) : PuncOverlapAction → Prop
  | .query _ => True
  | .reconstruct k => ∀ p, s.pending[k]? = some p →
      ∀ q ∈ s.pending.take k, ¬p.query.Conflicts q.query

/-- A `reconstruct` returns the row that its `Query` asked for, and when no read is under way
the invariant holds. -/
def PuncOverlapCorrect (env : Env) (db : StaticDB) (n : ℕ) (s : PuncShared) (a : PuncOverlapAction)
    (out : Option (Except String (List UInt8))) (s' : PuncShared) : Prop :=
  (match a with
  | .query _ => True
  | .reconstruct k => ∀ p, s.pending[k]? = some p →
      out = some (.ok (db.get n (p.index % (db.numRows : ℤ)).toNat).toList)) ∧
    (s'.pending = [] → s'.client.HintInvariant env db n)

/-- The reads under way, in the order of their queries, lead from the hints `H` to the XORs `S` of
the sets. -/
def Outstanding (env : Env) (db : StaticDB) (n : ℕ) (S : ℕ → Bytes n) :
    (ℕ → Bytes n) → List PuncPending → Prop
  | H, [] => H = S
  | H, p :: ps => ∃ new, p.query.Asks env db (p.index % (db.numRows : ℤ)).toNat
      (H p.query.ctx.setIdx) new ∧ Outstanding env db n S (p.query.hintsAfter new H) ps

/-- Outside case 0 the old hint does not matter. -/
theorem PuncQuery.Asks.old {q : PuncQuery} {i : ℕ} {old old' new : Bytes n}
    (h : q.Asks env db i old new) (hold : q.ctx.randCase = 0 → old' = old) :
    q.Asks env db i old' new := by
  obtain ⟨xL, eL, xR, eR, hL, hR, hrow⟩ := h
  exact ⟨xL, eL, xR, eR, hL, hR, fun hint hh => hrow hint fun h0 => (hh h0).trans (hold h0)⟩

/-- A new query goes to the end. -/
theorem Outstanding.snoc {S S' H : ℕ → Bytes n} {ps : List PuncPending} {p : PuncPending}
    {new : Bytes n} (h : Outstanding env db n S H ps)
    (hasks : p.query.Asks env db (p.index % (db.numRows : ℤ)).toNat (S p.query.ctx.setIdx) new)
    (hS' : S' = p.query.hintsAfter new S) : Outstanding env db n S' H (ps ++ [p]) := by
  induction ps generalizing H with
  | nil =>
      have hHS : H = S := h
      subst hHS
      exact ⟨new, hasks, hS'.symm⟩
  | cons q ps ih =>
      obtain ⟨newq, hq, hrest⟩ := h
      exact ⟨newq, hq, ih hrest⟩

/-- A hint after a read that does not replace its set. -/
theorem PuncQuery.hintsAfter_of_not {q : PuncQuery} {new : Bytes n} {H : ℕ → Bytes n} {t : ℕ}
    (h : ¬(q.ctx.randCase = 0 ∧ t = q.ctx.setIdx)) : q.hintsAfter new H t = H t := if_neg h

theorem PuncQuery.hintsAfter_comm {p q : PuncQuery} (hpq : ¬p.Conflicts q) (x y : Bytes n)
    (H : ℕ → Bytes n) : p.hintsAfter x (q.hintsAfter y H) = q.hintsAfter y (p.hintsAfter x H) := by
  funext t
  simp only [PuncQuery.hintsAfter]
  split_ifs with hp hq hq
  · exact absurd ⟨hp.1, hq.1, hp.2.symm.trans hq.2⟩ hpq
  · rfl
  · rfl
  · rfl

/-- **The read that is reconstructed may be taken out of the order**, if no read before it
replaces the same set. -/
theorem Outstanding.take {S H : ℕ → Bytes n} {ps₁ ps₂ : List PuncPending} {p : PuncPending}
    (h : Outstanding env db n S H (ps₁ ++ p :: ps₂))
    (hno : ∀ q ∈ ps₁, ¬p.query.Conflicts q.query) :
    ∃ new, p.query.Asks env db (p.index % (db.numRows : ℤ)).toNat (H p.query.ctx.setIdx) new ∧
      Outstanding env db n S (p.query.hintsAfter new H) (ps₁ ++ ps₂) := by
  induction ps₁ generalizing H with
  | nil => exact h
  | cons q ps₁ ih =>
      obtain ⟨newq, hq, hrest⟩ := h
      obtain ⟨new, hp, hrest'⟩ := ih hrest fun r hr => hno r (List.mem_cons_of_mem q hr)
      have hpq := hno q List.mem_cons_self
      refine ⟨new, hp.old ?_, newq, hq.old ?_, ?_⟩
      · intro hp0
        exact (PuncQuery.hintsAfter_of_not fun hq0 => hpq ⟨hp0, hq0.1, hq0.2⟩).symm
      · intro hq0
        exact PuncQuery.hintsAfter_of_not fun hp0 => hpq ⟨hp0.1, hq0, hp0.2.symm⟩
      · rw [← PuncQuery.hintsAfter_comm hpq]
        exact hrest'

/-- The invariant of a run of overlapping reads. -/
structure PuncShared.Inv (env : Env) (db : StaticDB) (n : ℕ) (s : PuncShared) : Prop where
  setInvariant : s.client.SetInvariant env db
  setIdx_lt : ∀ p ∈ s.pending, p.query.ctx.setIdx < s.client.sets.length
  hints : ∃ H, s.client.HintsAre n H ∧
    Outstanding env db n (s.client.setXor env db n) H s.pending

/-- When no read is under way the invariant of the hints holds. -/
theorem PuncShared.Inv.hintInvariant {s : PuncShared} (h : s.Inv env db n) (hfit : PuncFits db n)
    (hnil : s.pending = []) : s.client.HintInvariant env db n := by
  obtain ⟨H, hH, hout⟩ := h.hints
  rw [hnil] at hout
  have hHS : H = s.client.setXor env db n := hout
  subst hHS
  exact PuncClient.Sound.hintInvariant ⟨h.setInvariant, hH⟩ hfit

/-- A query in a run of overlapping reads. -/
theorem overlapQuery_spec (hfit : PuncFits db n) {s : PuncShared} (h : s.Inv env db n)
    {a : PuncRead} (hguard : s.client.ReadGuard env db a) :
    ∃ out s', s.step env db (.query a) = some (out, s') ∧ s'.Inv env db n := by
  obtain ⟨hinv, hidx, H, hH, hout⟩ := h
  obtain ⟨⟨q, c'⟩, hquery, hdone, hnum⟩ :=
    (puncQuery_spec hinv hfit a.idx a.coin hguard.1).of_admits hguard.2
  have hdone := hdone hnum
  have hH' : c'.HintsAre n H := by
    intro t ht
    rw [hdone.hints_eq]
    exact hH t (hdone.sets_length ▸ ht)
  have hlt : ∀ p ∈ s.pending, p.query.ctx.setIdx < c'.sets.length := by
    intro p hp
    rw [hdone.sets_length]
    exact hidx p hp
  cases q with
  | none =>
      refine ⟨some (.error ("Failed to query: " ++ toString a.idx)), { s with client := c' }, ?_,
        hdone.setInvariant, hlt, H, hH', ?_⟩
      · rw [PuncShared.step, hquery]
        rfl
      · have hsame : c'.setXor env db n = s.client.setXor env db n := funext (hdone.fails rfl)
        exact hsame.symm ▸ hout
  | some q =>
      obtain ⟨hs, -, hpost⟩ := hdone.asks q rfl
      obtain ⟨new, hasks, hsets⟩ := hpost.asks
      refine ⟨none, ⟨c', s.pending ++ [⟨a.idx, q⟩]⟩, ?_, hdone.setInvariant, ?_, H, hH',
        hout.snoc (p := ⟨a.idx, q⟩) hasks (funext hsets)⟩
      · rw [PuncShared.step, hquery]
        rfl
      · intro p hp
        cases List.mem_append.mp hp with
        | inl hp => exact hlt p hp
        | inr hp =>
            rw [List.mem_singleton.mp hp]
            exact hdone.sets_length.symm ▸ hs

/-- A `reconstruct` in a run of overlapping reads. -/
theorem overlapReconstruct_spec {s : PuncShared} (h : s.Inv env db n) {k : ℕ} {p : PuncPending}
    (hk : s.pending[k]? = some p) (horder : s.InOrder (.reconstruct k)) :
    ∃ s', s.step env db (.reconstruct k) =
        some (some (.ok (db.get n (p.index % (db.numRows : ℤ)).toNat).toList), s') ∧
      s'.Inv env db n := by
  obtain ⟨hinv, hidx, H, hH, hout⟩ := h
  have hsplit : s.pending = s.pending.take k ++ p :: s.pending.drop (k + 1) := by
    obtain ⟨hlt, hget⟩ := List.getElem?_eq_some_iff.mp hk
    rw [← hget, ← List.drop_eq_getElem_cons hlt, List.take_append_drop]
  rw [hsplit] at hout
  obtain ⟨new, hasks, hrest⟩ := hout.take (horder p hk)
  obtain ⟨hints, hfin, hlen, hH'⟩ := finish_spec hH hinv.hints_length
    (hidx p (List.mem_of_getElem? hk)) hasks fun _ => rfl
  refine ⟨⟨{ s.client with hints }, s.pending.eraseIdx k⟩, ?_, hinv.with_hints hlen, ?_, _, hH', ?_⟩
  · rw [PuncShared.step, hk, Option.bind_eq_bind, Option.bind_some, hfin]
    rfl
  · intro q hq
    exact hidx q (List.mem_of_mem_eraseIdx hq)
  · show Outstanding env db n _ _ (s.pending.eraseIdx k)
    rw [List.eraseIdx_eq_take_drop_succ]
    exact hrest

/-- Along every run of overlapping reads under `G`, every step is correct. -/
def PuncOverlapRunsCorrectly (env : Env) (db : StaticDB) (n : ℕ) (seed newSetGenKey : Block)
    (G : PuncShared → PuncOverlapAction → Prop) : Prop :=
  Outcome.Safe (puncClientOf env db seed newSetGenKey) fun c => c.setGen.num < 2 ^ 32 →
    ∀ as : List PuncOverlapAction,
      AlwaysUnder (PuncShared.step env db) (fun s a => s.Proper env db a ∧ G s a)
        (PuncOverlapCorrect env db n) ⟨c, []⟩ as

/-- Overlapping reads of a puncturable-set client. -/
theorem puncOverlap_correct (hfit : PuncFits db n) (seed newSetGenKey : Block) :
    PuncOverlapRunsCorrectly env db n seed newSetGenKey PuncShared.InOrder := by
  refine (puncClientOf_spec hfit seed newSetGenKey).mono ?_
  intro c hsound hnum as
  have hc := hsound hnum
  refine alwaysUnder_of_invariant (PuncShared.Inv env db n) ?_ as _
    ⟨hc.setInvariant, by simp, _, hc.hintsAre, rfl⟩
  intro s a hs ⟨hproper, horder⟩
  cases a with
  | query a =>
      obtain ⟨out, s', hstep, hs'⟩ := overlapQuery_spec hfit hs hproper
      exact ⟨out, s', hstep, ⟨trivial, hs'.hintInvariant hfit⟩, hs'⟩
  | reconstruct k =>
      obtain ⟨s', hstep, hs'⟩ := overlapReconstruct_spec hs (List.getElem?_eq_getElem hproper) horder
      refine ⟨_, s', hstep, ⟨?_, hs'.hintInvariant hfit⟩, hs'⟩
      intro p hp
      rw [List.getElem?_eq_getElem hproper, Option.some.injEq] at hp
      rw [hp]

/-- **Overlapping reads do not interfere**, for a SinglePass client if no `reconstruct` moves a
position that another read has captured, and for a puncturable-set client if reads that replace
the same set are reconstructed in the order of their queries. -/
theorem overlapping_reads_correct (B : Build) (rnd : ℕ → UInt32) (env : Env) {n : ℕ} {db : StaticDB}
    (hn : 0 < n) (hwf : db.WF n) :
    (∀ {S H : ℕ}, 0 < S → 0 < H → KernelFits S H n → db.numRows = S * H →
      OverlapRunsCorrectly B rnd S H n db fun s a => Reconstructs s a ∧ KeepsOthers s a) ∧
    (0 < db.numRows → db.numRows ≤ 2 ^ 31 → db.numRows * n < 2 ^ 32 → ∀ seed newSetGenKey : Block,
      PuncOverlapRunsCorrectly env db n seed newSetGenKey PuncShared.InOrder) := by
  constructor
  · intro S H hS hH hfit hrows
    exact overlap_correct B rnd hS hH hn hfit hwf hrows
  · intro hN hN31 h32 seed newSetGenKey
    exact puncOverlap_correct ⟨hwf, hn, hN, hN31, h32⟩ seed newSetGenKey

theorem overlapping_reads_correct_small :
    (OverlapRunsCorrectly .avx2 (fun _ => 0) 1 3 1 threeRows
      fun s a => Reconstructs s a ∧ KeepsOthers s a) ∧
    PuncOverlapRunsCorrectly countingEnv threeRows 1 0 0 PuncShared.InOrder := by
  have hwf : threeRows.WF 1 := ⟨rfl, rfl⟩
  have h := overlapping_reads_correct .avx2 (fun _ => 0) countingEnv Nat.one_pos hwf
  exact ⟨h.1 (by decide) (by decide) ⟨by decide, by decide, by decide, by decide⟩ rfl,
    h.2 (by decide) (by decide) (by decide) 0 0⟩

/-- Two reads of row `0` of a chunk of two rows, both with a swap to the other row: the second
one to be reconstructed returns the other row. -/
theorem singlePass_reads_interfere :
    ¬OverlapRunsCorrectly .sse (fun _ => 0) 1 2 1 ⟨2, 1, 0, [5, 6]⟩ Reconstructs := by
  rintro ⟨resp, c, hproc, hinit, hrun⟩
  let db : StaticDB := ⟨2, 1, 0, [5, 6]⟩
  let as : List (SinglePassOverlapAction 2) :=
    [.query 0 fun _ => 0, .query 0 fun _ => 0, .reconstruct 0]
  have hlast : ((SinglePassHintReq.process .sse (fun _ => 0) ⟨1⟩ db).bind fun resp =>
      resp.initClient.bind fun c =>
        runUnder (SinglePassShared.step .sse db) Reconstructs ⟨c, []⟩ as).bind (fun s =>
          (s.step .sse db (.reconstruct 0 : SinglePassOverlapAction 2)).map fun r =>
            decide (s.pending.map (·.index) = [0] ∧ r.1 = some (.ok [6]))) = some true := by
    decide +kernel
  rw [hproc, Option.bind_some, hinit, Option.bind_some, Option.bind_eq_some_iff] at hlast
  obtain ⟨s, hs, hlast⟩ := hlast
  rw [Option.map_eq_some_iff] at hlast
  obtain ⟨r, hr, hlast⟩ := hlast
  obtain ⟨hpending, hsix⟩ := of_decide_eq_true hlast
  obtain ⟨p, hp, hindex⟩ := List.map_eq_singleton_iff.mp hpending
  have hguard : Reconstructs s (.reconstruct 0 : SinglePassOverlapAction 2) :=
    show 0 < s.pending.length by simp [hp]
  obtain ⟨out, s', hstep, hcorrect, -⟩ := (hrun (as ++ [.reconstruct 0])).last hs hguard
  obtain ⟨row, hrow, hout⟩ := hcorrect p (by simp [hp])
  rw [hr, Option.some.injEq] at hstep
  rw [hindex] at hrow
  have hfive : some [5] = some row := hrow
  rw [← Option.some.inj hfive] at hout
  rw [hstep] at hsix
  dsimp only at hsix
  rw [hout] at hsix
  exact absurd hsix (by decide)

/-- Two reads of row `1` of three rows that replace the same set: the one that is reconstructed
first although it was asked second returns `7`. -/
theorem punc_reads_interfere :
    ¬PuncOverlapRunsCorrectly countingEnv threeRows 1 0 0 fun _ _ => True := by
  intro h
  let a : PuncRead := ⟨1, 2, [0, 1, 0, 1]⟩
  have hlast : ((puncClientOf countingEnv threeRows 0 0).toOption.bind fun c =>
      if c.setGen.num < 2 ^ 32 then
        (runUnder (PuncShared.step countingEnv threeRows)
          (fun s a => s.Proper countingEnv threeRows a ∧ True) ⟨c, []⟩ [.query a, .query a]).bind
        fun s => (s.step countingEnv threeRows (.reconstruct 1)).map fun r =>
          decide (s.pending.map (·.index) = [1, 1] ∧ r.1 = some (.ok [7]))
      else none) = some true := by
    decide +kernel
  rw [Option.bind_eq_some_iff] at hlast
  obtain ⟨c, hc, hlast⟩ := hlast
  have hc := Outcome.toOption_eq_some hc
  split_ifs at hlast with hnum
  rw [Option.bind_eq_some_iff] at hlast
  obtain ⟨s, hrun, hlast⟩ := hlast
  rw [Option.map_eq_some_iff] at hlast
  obtain ⟨r, hr, hlast⟩ := hlast
  obtain ⟨hpending, hseven⟩ := of_decide_eq_true hlast
  have hlen : s.pending.length = 2 := by simpa using congrArg List.length hpending
  have hk : s.pending[1]? = some s.pending[1] := List.getElem?_eq_getElem (by omega)
  have hindex : s.pending[1].index = 1 := by
    have hget := congrArg (·[1]?) hpending
    simpa [hk] using hget
  have hguard : s.Proper countingEnv threeRows (.reconstruct 1) ∧ True :=
    ⟨show 1 < s.pending.length by omega, trivial⟩
  obtain ⟨out, s', hstep, hcorrect, -⟩ :=
    (h.of_ok hc hnum ([.query a, .query a] ++ [.reconstruct 1])).last hrun hguard
  have hout := hcorrect _ hk
  rw [hr, Option.some.injEq] at hstep
  rw [hindex] at hout
  rw [hstep] at hseven
  dsimp only at hseven
  rw [hout] at hseven
  exact absurd hseven (by decide +kernel)

theorem overlapping_reads_interfere :
    ¬OverlapRunsCorrectly .sse (fun _ => 0) 1 2 1 ⟨2, 1, 0, [5, 6]⟩ Reconstructs ∧
      ¬PuncOverlapRunsCorrectly countingEnv threeRows 1 0 0 fun _ _ => True :=
  ⟨singlePass_reads_interfere, punc_reads_interfere⟩

end SinglePassPIR.Pir
