import SinglePassPIR.Lib.Run
import SinglePassPIR.Pir.StaticRuns

/-!
# Overlapping reads of a SinglePass client

Several reads share one client: their `Query` and `reconstruct` calls interleave, as in the
concurrent handlers of `sbproxy`. A read that is under way has captured positions of
permutations that another `reconstruct` may exchange.

## Main results

* `overlap_correct` — if no `reconstruct` moves a position that another read has captured,
  every read returns its row and the hint invariant is kept.
-/

namespace SinglePassPIR.Pir
open Psetggm

variable {H n : ℕ}

/-- A read between its `Query` and its `reconstruct`, with the servers' answers. -/
structure SinglePassPending where
  index : ℤ
  ctx : SinglePassQueryCtx
  answers : List SinglePassQueryResp
  deriving DecidableEq

/-- A client that several reads share. -/
structure SinglePassShared where
  client : SinglePassClient
  pending : List SinglePassPending
  deriving DecidableEq

/-- A read starts, or the read at position `k` of those under way is reconstructed. -/
inductive SinglePassOverlapAction (H : ℕ)
  | query (i : ℤ) (swaps : ℕ → Fin H)
  | reconstruct (k : ℕ)

/-- One step of a run of overlapping reads. -/
def SinglePassShared.step (B : Build) (db : StaticDB) (s : SinglePassShared) :
    SinglePassOverlapAction H → Option (Option (Except String (List UInt8)) × SinglePassShared)
  | .query i swaps => do
      let q ← s.client.query i fun j => swaps j
      let answer0 ← q.left.process B db
      let answer1 ← q.right.process B db
      some (none, { s with pending := s.pending ++ [⟨i, q.ctx, [answer0, answer1]⟩] })
  | .reconstruct k => do
      let p ← s.pending[k]?
      let (out, client) ← s.client.reconstruct B p.answers p.ctx
      some (some out, ⟨client, s.pending.eraseIdx k⟩)

/-- Reconstructing the read `a` leaves the positions that `b` has captured in column `j`. -/
def KeepsPositions (a b : SinglePassQueryCtx) (j : ℕ) : Prop :=
  Equiv.swap a.pos (a.randSwaps.getD j 0) b.pos = b.pos ∧
    Equiv.swap a.pos (a.randSwaps.getD j 0) (b.randSwaps.getD j 0) = b.randSwaps.getD j 0

/-- A `reconstruct` is of a read under way. -/
def Reconstructs (s : SinglePassShared) : SinglePassOverlapAction H → Prop
  | .query _ _ => True
  | .reconstruct k => k < s.pending.length

instance (s : SinglePassShared) : (a : SinglePassOverlapAction H) → Decidable (Reconstructs s a)
  | .query _ _ => isTrue trivial
  | .reconstruct k => inferInstanceAs (Decidable (k < s.pending.length))

/-- A `reconstruct` moves no position that another read under way has captured. -/
def KeepsOthers (s : SinglePassShared) : SinglePassOverlapAction H → Prop
  | .query _ _ => True
  | .reconstruct k => ∀ a b l, s.pending[k]? = some a → l ≠ k → s.pending[l]? = some b →
      ∀ j < s.client.setSize, KeepsPositions a.ctx b.ctx j

/-- A `reconstruct` returns the row that its `Query` asked for, and when no read is under
way the hint invariant holds. -/
def OverlapCorrect (S H n : ℕ) (db : StaticDB) (s : SinglePassShared)
    (a : SinglePassOverlapAction H) (out : Option (Except String (List UInt8)))
    (s' : SinglePassShared) : Prop :=
  (match a with
  | .query _ _ => True
  | .reconstruct k => ∀ p, s.pending[k]? = some p → ∃ row,
      db.row (p.index % (db.numRows : ℤ)).toNat = some row ∧ out = some (.ok row)) ∧
    (s'.pending = [] → s'.client.HintInvariant S H n db)

/-- A read under way has captured positions of the table, and its answers are the rows at
these positions. -/
def HintTable.Captured (t : HintTable (Fin H) (Bytes n)) (db : StaticDB)
    (p : SinglePassPending) : Prop :=
  ∃ (j₀ : ℕ) (q : Fin H) (r : ℕ → Fin H) (answer0 answer1 : List UInt8),
    j₀ < t.chunks ∧ answer0.length = t.chunks * n ∧ answer1.length = t.chunks * n ∧
    p.index % ((t.chunks * H : ℕ) : ℤ) = ((j₀ * H + t.perm j₀ q : ℕ) : ℤ) ∧
    p.ctx = ⟨j₀, q, (List.range t.chunks).map fun j => (r j : ℕ)⟩ ∧
    p.answers = [⟨answer0⟩, ⟨answer1⟩] ∧
    t.Answers (db.chunkRow H n) j₀ q r (rowAt n answer0) (rowAt n answer1)

theorem swap_val (a b x : Fin H) :
    Equiv.swap (a : ℕ) (b : ℕ) (x : ℕ) = (Equiv.swap a b x : Fin H) :=
  (Fin.val_injective.map_swap a b x).symm

/-- A captured read stays captured when an exchange leaves its positions. -/
theorem HintTable.Captured.refresh {t : HintTable (Fin H) (Bytes n)} {db : StaticDB}
    {p : SinglePassPending} (h : t.Captured db p) {i₀ : ℕ} {q : Fin H} {r : ℕ → Fin H}
    {a₀ a₁ : ℕ → Bytes n}
    (hkeep : ∀ j < t.chunks, KeepsPositions
      ⟨i₀, q, (List.range t.chunks).map fun j => (r j : ℕ)⟩ p.ctx j) :
    (t.refresh i₀ q r a₀ a₁).Captured db p := by
  obtain ⟨j₀, q', r', answer0, answer1, hj₀, h0, h1, hidx, hctx, hans, ha⟩ := h
  have hfix : ∀ j < t.chunks, Equiv.swap q (r j) q' = q' ∧ Equiv.swap q (r j) (r' j) = r' j := by
    intro j hj
    have hget : ∀ f : ℕ → ℕ, ((List.range t.chunks).map f).getD j 0 = f j := by
      intro f
      rw [List.getD_eq_getElem?_getD, getElem?_map_range f hj, Option.getD_some]
    have hk := hkeep j hj
    simp only [KeepsPositions, hctx, hget, swap_val, Fin.val_inj] at hk
    exact hk
  have hperm : ∀ j < t.chunks, ∀ x, Equiv.swap q (r j) x = x →
      (t.refresh i₀ q r a₀ a₁).perm j x = t.perm j x := by
    intro j _ x hx
    exact mul_swap_apply_of_fixed (t.perm j) hx
  refine ⟨j₀, q', r', answer0, answer1, hj₀, h0, h1, ?_, hctx, hans, ?_, ?_⟩
  · rw [hperm j₀ hj₀ q' (hfix j₀ hj₀).1]
    exact hidx
  · intro j hj
    rw [hperm j hj (r' j) (hfix j hj).2]
    exact ha.offline j hj
  · intro j hj
    have hpos : Equiv.swap q (r j) (onlinePos j₀ q' r' j) = onlinePos j₀ q' r' j := by
      rw [onlinePos]
      split
      · exact (hfix j hj).2
      · exact (hfix j hj).1
    rw [hperm j hj _ hpos]
    exact ha.online j hj

/-- The invariant of a run of overlapping reads. -/
def OverlapInv (S H n : ℕ) (db : StaticDB) (s : SinglePassShared) : Prop :=
  ∃ (t : HintTable (Fin H) (Bytes n)) (v : ℕ), s.client = t.client v ∧ t.chunks = S ∧
    t.Matches (db.chunkRow H n) ∧ ∀ p ∈ s.pending, t.Captured db p

theorem mem_eraseIdx_exists {α : Type} {l : List α} {k : ℕ} {x : α} (h : x ∈ l.eraseIdx k) :
    ∃ m, m ≠ k ∧ l[m]? = some x := by
  obtain ⟨m, hm⟩ := List.mem_iff_getElem?.mp h
  rw [List.getElem?_eraseIdx] at hm
  split at hm
  · exact ⟨m, by omega, hm⟩
  · exact ⟨m + 1, by omega, hm⟩

/-- One step of a run of overlapping reads. -/
theorem overlapStep_spec (B : Build) {db : StaticDB} {S : ℕ} (hS : 0 < S) (hn : 0 < n)
    (hfit : KernelFits S H n) (hwf : db.WF n) (hrows : db.numRows = S * H)
    (s : SinglePassShared) (a : SinglePassOverlapAction H) (hinv : OverlapInv S H n db s)
    (hG : Reconstructs s a ∧ KeepsOthers s a) :
    ∃ out s', s.step B db a = some (out, s') ∧ OverlapCorrect S H n db s a out s' ∧
      OverlapInv S H n db s' := by
  obtain ⟨t, v, hc, rfl, hm, hcap⟩ := hinv
  obtain ⟨hrec, hkeep⟩ := hG
  have hwidth : db.numRows / t.chunks = H := by rw [hrows, Nat.mul_div_cancel_left H hS]
  cases a with
  | query i swaps =>
      have hH : 0 < H := (swaps 0).pos
      obtain ⟨j₀, hj₀, x, hi⟩ := HintTable.exists_column (t := t) i hH hS
      obtain ⟨answer0, answer1, hp0, hp1, h0, h1, ha⟩ := HintTable.answers_client (t := t) B swaps
        ((t.perm j₀).symm x) hn (hfit.rowLen_lt hH) hwf hwidth hj₀
      have hq := HintTable.query_client (v := v) swaps hj₀ hi
      refine ⟨none, ⟨t.client v, s.pending ++ [⟨i, ⟨j₀, ((t.perm j₀).symm x : ℕ),
        (List.range t.chunks).map fun j => (swaps j : ℕ)⟩, [⟨answer0⟩, ⟨answer1⟩]⟩]⟩, ?_,
        ⟨trivial, ?_⟩, t, v, rfl, rfl, hm, ?_⟩
      · simp only [SinglePassShared.step, hc, hq, hp0, hp1, Option.bind_eq_bind, Option.bind_some]
      · intro hnil
        exact absurd hnil (by simp)
      · intro p hp
        rcases List.mem_append.mp hp with hp | hp
        · exact hcap p hp
        · rw [List.mem_singleton.mp hp]
          refine ⟨j₀, (t.perm j₀).symm x, swaps, answer0, answer1, hj₀, h0, h1, ?_, rfl, rfl, ha⟩
          rw [Equiv.apply_symm_apply]
          exact hi
  | reconstruct k =>
      have hk : s.pending[k]? = some s.pending[k] := List.getElem?_eq_getElem hrec
      obtain ⟨j₀, q, r, answer0, answer1, hj₀, h0, h1, hidx, hctx, hans, ha⟩ :=
        hcap _ (List.getElem_mem hrec)
      have hH : 0 < H := q.pos
      have hrecon := HintTable.reconstruct_client (v := v) B (q := q) (r := r) hn
        (hfit.rowLen_lt hH) hj₀ hfit.setSize_lt h0 h1
      have hout := HintTable.recovered_eq hm ha hj₀
      have hm' := HintTable.refresh_matches hm ha hj₀
      let t' := t.refresh j₀ q r (rowAt n answer0) (rowAt n answer1)
      refine ⟨some (.ok (db.chunkRow H n j₀ (t.perm j₀ q)).toList),
        ⟨t'.client v, s.pending.eraseIdx k⟩, ?_, ⟨?_, fun _ => ⟨t', v, rfl, rfl, hm'⟩⟩, t', v, rfl,
        rfl, hm', ?_⟩
      · simp only [SinglePassShared.step, hk, hc, hctx, hans, hrecon, hout, Option.bind_eq_bind,
          Option.bind_some]
        rfl
      · intro p hp
        rw [hk, Option.some.injEq] at hp
        subst hp
        rw [hrows, hidx, Int.toNat_natCast]
        have hend := block_end_le (w := H) hj₀
        have hlt := (t.perm j₀ q).isLt
        exact ⟨_, StaticDB.row_eq hwf (by rw [hrows]; omega), rfl⟩
      · intro p hp
        obtain ⟨l, hl, hlp⟩ := mem_eraseIdx_exists hp
        refine (hcap p (List.mem_of_getElem? hlp)).refresh ?_
        intro j hj
        have hkp := hkeep _ p l hk hl hlp j (by rw [hc]; exact hj)
        rwa [hctx] at hkp

/-- The preprocessing succeeds, and from its client every run of overlapping reads under the
guard `G` is correct at every step. -/
def OverlapRunsCorrectly (B : Build) (rnd : ℕ → UInt32) (S H n : ℕ) (db : StaticDB)
    (G : SinglePassShared → SinglePassOverlapAction H → Prop) : Prop :=
  ∃ resp c, SinglePassHintReq.process B rnd ⟨S⟩ db = some resp ∧ resp.initClient = some c ∧
    ∀ as : List (SinglePassOverlapAction H),
      AlwaysUnder (SinglePassShared.step B db) G (OverlapCorrect S H n db) ⟨c, []⟩ as

/-- **Overlapping reads that leave each other's positions do not interfere.** -/
theorem overlap_correct (B : Build) (rnd : ℕ → UInt32) {S : ℕ} {db : StaticDB} (hS : 0 < S)
    (hH : 0 < H) (hn : 0 < n) (hfit : KernelFits S H n) (hwf : db.WF n)
    (hrows : db.numRows = S * H) :
    OverlapRunsCorrectly B rnd S H n db fun s a => Reconstructs s a ∧ KeepsOthers s a := by
  obtain ⟨resp, t, hproc, hinit, hc, hm⟩ := hint_spec B rnd ⟨S⟩ hS hH hn hfit hwf hrows
    (if_pos hS.ne')
  refine ⟨resp, t.client db.version, hproc, hinit, ?_⟩
  intro as
  refine alwaysUnder_of_invariant (OverlapInv S H n db)
    (overlapStep_spec B hS hn hfit hwf hrows) as _ ⟨t, _, rfl, hc, hm, ?_⟩
  intro p hp
  exact absurd hp List.not_mem_nil

end SinglePassPIR.Pir
