import SinglePassPIR.Lib.Run
import SinglePassPIR.Pir.SinglePassRefine
import Mathlib.Data.Fin.Tuple.Basic
import Mathlib.SetTheory.Cardinal.Finite

/-!
# What the online server sees

The online server receives, for each chunk, the position of a row. For a fixed wanted
column the pair (permutations, swaps) before a read and the pair (positions received,
permutations) after it determine each other, so over a run of any length the positions
carry no information about the columns that were read.

## Main results

* `viewEquiv`, `runEquiv` — the bijection for one read, and for a run of reads.
* `onlineServer_view_independent` — for any two sequences of indices every view of the
  online server has the same number of permutations and swaps that produce it.
-/

namespace SinglePassPIR.Pir
open Psetggm

/-! ## The bijection -/

section Families
variable {ι κ : Type} [DecidableEq ι] [DecidableEq κ]

/-- The positions that a read of column `a.2` of chunk `a.1` reveals, with the permutations
`p` and the swaps `r`. -/
def onlineView (a : ι × κ) (p : ι → Equiv.Perm κ) (r : ι → κ) (j : ι) : κ :=
  p j (if j = a.1 then r j else (p a.1).symm a.2)

/-- The permutations after that read. -/
def refreshFamily (a : ι × κ) (p : ι → Equiv.Perm κ) (r : ι → κ) (j : ι) : Equiv.Perm κ :=
  p j * Equiv.swap ((p a.1).symm a.2) (r j)

omit [DecidableEq ι] in
theorem refreshFamily_apply_swap (a : ι × κ) (p : ι → Equiv.Perm κ) (r : ι → κ) (j : ι) :
    refreshFamily a p r j (r j) = p j ((p a.1).symm a.2) := by
  rw [refreshFamily, Equiv.Perm.mul_apply, Equiv.swap_apply_right]

/-- The position of the wanted column now holds the row that the online server was asked. -/
theorem refreshFamily_symm_view (a : ι × κ) (p : ι → Equiv.Perm κ) (r : ι → κ) :
    (refreshFamily a p r a.1).symm (onlineView a p r a.1) = (p a.1).symm a.2 := by
  rw [Equiv.symm_apply_eq, refreshFamily, Equiv.Perm.mul_apply, Equiv.swap_apply_left, onlineView,
    if_pos rfl]

/-- Every swap can be read off the view and the new permutations. -/
theorem refreshFamily_symm_swap (a : ι × κ) (p : ι → Equiv.Perm κ) (r : ι → κ) (j : ι) :
    (refreshFamily a p r j).symm (if j = a.1 then a.2 else onlineView a p r j) = r j := by
  rw [Equiv.symm_apply_eq, refreshFamily_apply_swap]
  by_cases hj : j = a.1
  · rw [if_pos hj, hj, Equiv.apply_symm_apply]
  · rw [if_neg hj, onlineView, if_neg hj]

/-- **One read.** Permutations and swaps before it against view and permutations after it. -/
def viewEquiv (a : ι × κ) :
    (ι → Equiv.Perm κ) × (ι → κ) ≃ (ι → κ) × (ι → Equiv.Perm κ) where
  toFun pr := (onlineView a pr.1 pr.2, refreshFamily a pr.1 pr.2)
  invFun sp :=
    (fun j => sp.2 j * Equiv.swap ((sp.2 a.1).symm (sp.1 a.1))
        ((sp.2 j).symm (if j = a.1 then a.2 else sp.1 j)),
      fun j => (sp.2 j).symm (if j = a.1 then a.2 else sp.1 j))
  left_inv := by
    rintro ⟨p, r⟩
    apply Prod.ext
    · funext j
      simp only [refreshFamily_symm_view, refreshFamily_symm_swap]
      rw [refreshFamily, mul_assoc, Equiv.swap_mul_self, mul_one]
    · funext j
      exact refreshFamily_symm_swap a p r j
  right_inv := by
    rintro ⟨s, p⟩
    -- the old permutation of the queried chunk had the wanted column at the position of `s a.1`
    have hpos : (p a.1 * Equiv.swap ((p a.1).symm (s a.1)) ((p a.1).symm a.2)).symm a.2 =
        (p a.1).symm (s a.1) := by
      rw [Equiv.symm_apply_eq, Equiv.Perm.mul_apply, Equiv.swap_apply_left,
        Equiv.apply_symm_apply]
    apply Prod.ext
    · funext j
      simp only [onlineView, if_true, hpos, Equiv.Perm.mul_apply]
      by_cases hj : j = a.1
      · subst hj
        rw [if_pos rfl, if_pos rfl, Equiv.swap_apply_right, Equiv.apply_symm_apply]
      · rw [if_neg hj, if_neg hj, Equiv.swap_apply_left, Equiv.apply_symm_apply]
    · funext j
      simp only [refreshFamily, if_true, hpos]
      rw [mul_assoc, Equiv.swap_mul_self, mul_one]

/-- The views of a run of reads, one for each read. -/
def views : (T : ℕ) → (Fin T → ι × κ) → (ι → Equiv.Perm κ) → (Fin T → ι → κ) → Fin T → ι → κ
  | 0, _, _, _ => Fin.elim0
  | T + 1, a, p, r => Fin.cons (onlineView (a 0) p (r 0))
      (views T (Fin.tail a) (refreshFamily (a 0) p (r 0)) (Fin.tail r))

/-- **A run of reads.** Permutations and swaps before it against its views and the
permutations after it. -/
theorem runEquiv (T : ℕ) (a : Fin T → ι × κ) :
    ∃ e : (ι → Equiv.Perm κ) × (Fin T → ι → κ) ≃ (Fin T → ι → κ) × (ι → Equiv.Perm κ),
      ∀ p r, (e (p, r)).1 = views T a p r := by
  induction T with
  | zero =>
      refine ⟨Equiv.prodComm _ _, ?_⟩
      intro p r
      exact Subsingleton.elim _ _
  | succ T ih =>
      obtain ⟨e, he⟩ := ih (Fin.tail a)
      let split := Fin.consEquiv fun _ : Fin (T + 1) => ι → κ
      refine ⟨(Equiv.prodCongrRight fun _ => split.symm).trans <|
        (Equiv.prodAssoc _ _ _).symm.trans <|
        ((viewEquiv (a 0)).prodCongr (Equiv.refl _)).trans <|
        (Equiv.prodAssoc _ _ _).trans <|
        (Equiv.prodCongrRight fun _ => e).trans <|
        (Equiv.prodAssoc _ _ _).symm.trans <|
        split.prodCongr (Equiv.refl _), ?_⟩
      intro p r
      exact congrArg (fun s : Fin T → ι → κ =>
        (Fin.cons (onlineView (a 0) p (r 0)) s : Fin (T + 1) → ι → κ)) (he _ _)

end Families

/-! ## Reads with rows of any length

`reconstruct` moves the permutations in the same way whatever the hints and the answers
are, and it faults on sizes alone: on empty rows, and on a chunk count that the kernel's
`int` cannot reach. -/

/-- The sizes on which `reconstruct` does not fault. -/
def ReadRuns (S n : ℕ) : Prop := 0 < n ∧ cUint S < 2 ^ 31

section Totality
variable {H n : ℕ} {t : HintTable (Fin H) (Bytes n)} {v : ℕ}

theorem process_total (B : Build) {db : StaticDB} {S : ℕ} (f : ℕ → ℕ) (hn : 0 < n)
    (hwf : db.WF n) (hS : 0 < S) (hf : ∀ j < S, db.numRows / S * j + f j < db.numRows) :
    ∃ answer, SinglePassQueryReq.process B ⟨(List.range S).map f, S⟩ db = some ⟨answer⟩ ∧
      answer.length = S * n := by
  have key := loop_spec (n := S) (s := List.replicate (S * n) 0)
    (f := SinglePassQueryReq.processRow B ⟨(List.range S).map f, S⟩ db (db.numRows / S))
    (fun _ answer => answer.length = S * n) (by simp) ?step
  case step =>
    intro i hi answer hlen
    have hout : slice answer (i * n) (i * n + n) = some (rowAt n answer i).toList := by
      rw [← Nat.succ_mul, slice_rowAt hlen hi]
    have hdb : (db.numRows / S * i + f i) * n + n ≤ db.flatDb.length := by
      rw [hwf.length_eq]; exact block_end_le (hf i hi)
    obtain ⟨z, hcopy⟩ := copyIn_total B hn (rowAt n answer i) hdb
    obtain ⟨answer', hst, hlen', -⟩ := storeAt_block hlen hi (Bytes.length_toList z)
    refine ⟨answer', ?_, hlen'⟩
    simp only [SinglePassQueryReq.processRow, getElem?_map_range f hi, hwf.rowLen_eq, hout,
      hcopy, hst, Option.bind_eq_bind, Option.bind_some]
  obtain ⟨answer, hloop, hlen⟩ := key
  refine ⟨answer, ?_, hlen⟩
  simp only [SinglePassQueryReq.process, hS.ne', if_false, hwf.rowLen_eq, hloop,
    Option.bind_eq_bind, Option.bind_some]

namespace HintTable

theorem xorHint_total (B : Build) (hn : 0 < n) (s : Fin H) (x : Bytes n) :
    ∃ f, (t.client v).xorHint B s x.toList n =
      some (({ t with hint := f } : HintTable (Fin H) (Bytes n)).client v) := by
  obtain ⟨z, hz⟩ := fastXorInto_total B hn (t.hint s) x
  refine ⟨Function.update t.hint s z, ?_⟩
  simp only [SinglePassClient.xorHint, client, getElem?_hintRows, hz, set_hintRows,
    Option.bind_eq_bind, Option.bind_some]

/-- One round of the loop of `reconstruct` exchanges two positions of permutation `i`. -/
theorem reconstructColumn_total (B : Build) {answer0 answer1 : List UInt8} {i : ℕ}
    {q : Fin H} {r : ℕ → Fin H} (j₀ : ℕ) (hn : 0 < n) (hi : i < t.chunks)
    (h0 : answer0.length = t.chunks * n) (h1 : answer1.length = t.chunks * n) :
    ∃ f, SinglePassClient.reconstructColumn B answer0 answer1
        ⟨j₀, q, (List.range t.chunks).map fun j => (r j : ℕ)⟩ n i (t.client v) =
      some ((({ t with hint := f } : HintTable (Fin H) (Bytes n)).exchange i q (r i)).client
        v) := by
  obtain ⟨f₀, hf₀⟩ := xorHint_total (t := t) (v := v) B hn (r i) (rowAt n answer0 i)
  obtain ⟨f, hf⟩ := xorHint_total (t := { t with hint := f₀ }) (v := v) B hn (r i)
    (rowAt n answer1 i)
  refine ⟨f, ?_⟩
  set t' : HintTable (Fin H) (Bytes n) := { t with hint := f } with ht'
  have hi' : i < t'.chunks := hi
  rw [← client_exchange, show t.perm i = t'.perm i from rfl]
  simp only [SinglePassClient.reconstructColumn, getElem?_map_range (fun j => (r j : ℕ)) hi,
    slice_rowAt h0 hi, slice_rowAt h1 hi, hf₀, hf, Option.bind_eq_bind, Option.bind_some,
    getElem?_idxToSetIdx hi', getElem?_setIdxToIdx hi', getElem?_permArray]
  rw [writeAt_eq (by simp), Option.bind_some, writeAt_eq (by simp), Option.bind_some,
    writeAt_eq (by simp), Option.bind_some, writeAt_eq (by simp), Option.bind_some]

/-- `reconstruct` on sizes that do not fault, for any answers of the right length. -/
theorem reconstruct_total (B : Build) {answer0 answer1 : List UInt8} {j₀ : ℕ} {q : Fin H}
    {r : ℕ → Fin H} (hruns : ReadRuns t.chunks n) (hj₀ : j₀ < t.chunks)
    (h0 : answer0.length = t.chunks * n) (h1 : answer1.length = t.chunks * n) :
    ∃ out f, (t.client v).reconstruct B [⟨answer0⟩, ⟨answer1⟩]
        ⟨j₀, q, (List.range t.chunks).map fun j => (r j : ℕ)⟩ =
      some (.ok out, (⟨t.chunks, t.refreshPerm q r, f⟩ : HintTable (Fin H) (Bytes n)).client v) := by
  obtain ⟨hn, h31⟩ := hruns
  have hH : 0 < H := q.pos
  have hS : 0 < t.chunks := Nat.zero_lt_of_lt hj₀
  have hfirst : (t.client v).hints[0]? = some (t.hint ⟨0, hH⟩).toList :=
    getElem?_hintRows t.hint ⟨0, hH⟩
  have hpos : (t.client v).hints[(q : ℕ)]? = some (t.hint q).toList := getElem?_hintRows t.hint q
  have hset : (t.client v).setSize = t.chunks := rfl
  obtain ⟨x0, hx0⟩ := xorBlocksTogether_total B (0 : Bytes n) hn hS h31 h0
  obtain ⟨x1, hx1⟩ := xorBlocksTogether_total B (0 : Bytes n) hn hS h31 h1
  obtain ⟨o1, ho1⟩ := fastXorInto_total B hn 0 x1
  obtain ⟨o2, ho2⟩ := fastXorInto_total B hn o1 (t.hint q)
  obtain ⟨o3, ho3⟩ := fastXorInto_total B hn o2 (rowAt n answer1 j₀)
  rw [Bytes.toList_zero] at hx0 hx1 ho1
  let perm : ℕ → ℕ → Equiv.Perm (Fin H) := fun i j =>
    if j < i then t.refreshPerm q r j else t.perm j
  have hstart : ({ t.client v with hints := (t.client v).hints.set q x0.toList } :
      SinglePassClient) = (⟨t.chunks, perm 0, Function.update t.hint q x0⟩ :
        HintTable (Fin H) (Bytes n)).client v := by
    simp only [client, set_hintRows, perm, Nat.not_lt_zero, if_false]
  obtain ⟨c, hloop, f, rfl⟩ := loop_spec (n := t.chunks)
    (s := ({ t.client v with hints := (t.client v).hints.set q x0.toList } : SinglePassClient))
    (f := SinglePassClient.reconstructColumn B answer0 answer1
      ⟨j₀, q, (List.range t.chunks).map fun j => (r j : ℕ)⟩ n)
    (fun i c => ∃ f, c = (⟨t.chunks, perm i, f⟩ : HintTable (Fin H) (Bytes n)).client v)
    ⟨_, hstart⟩ (by
      rintro i hi _ ⟨f, rfl⟩
      obtain ⟨f', hf'⟩ := reconstructColumn_total (v := v) B (q := q) (r := r)
        (t := ⟨t.chunks, perm i, f⟩) j₀ hn hi h0 h1
      refine ⟨_, hf', f', client_congr rfl ?_ fun _ => rfl⟩
      intro j _
      simp only [exchange, Function.update_apply, perm]
      by_cases hj : j = i
      · rw [hj, if_pos rfl, if_neg (lt_irrefl i), if_pos (Nat.lt_succ_self i), refreshPerm]
      · rw [if_neg hj]
        exact if_congr (by omega) rfl rfl)
  obtain ⟨f₁, hf₁⟩ := xorHint_total (t := ⟨t.chunks, perm t.chunks, f⟩) (v := v) B hn (r j₀)
    (rowAt n answer1 j₀)
  obtain ⟨f₂, hf₂⟩ := xorHint_total (t := ⟨t.chunks, perm t.chunks, f₁⟩) (v := v) B hn (r j₀) o3
  refine ⟨o3.toList, f₂, ?_⟩
  simp only [hset] at hloop
  simp only [SinglePassClient.reconstruct, hfirst, Bytes.length_toList, hset, hx0, hx1,
    slice_rowAt h1 hj₀, ho1, ho2, ho3, hpos, hloop, hf₁, hf₂,
    getElem?_map_range (fun j => (r j : ℕ)) hj₀, Option.bind_eq_bind, Option.bind_some]
  refine congrArg (fun c => some (Except.ok _, c)) (client_congr rfl ?_ fun _ => rfl)
  intro j hj
  exact if_pos hj

/-- On the other sizes `reconstruct` faults. -/
theorem reconstruct_eq_none (B : Build) {resp0 resp1 : SinglePassQueryResp}
    {ctx : SinglePassQueryCtx} (hruns : ¬ReadRuns t.chunks n) :
    (t.client v).reconstruct B [resp0, resp1] ctx = none := by
  have hxor : ∀ answer, xorBlocksTogether B answer (List.replicate n 0) n t.chunks = none := by
    intro answer
    by_cases hn : 0 < n
    · exact xorBlocksTogether_eq_none B n _ _ fun h => hruns ⟨hn, h⟩
    · obtain rfl : n = 0 := by omega
      rw [xorBlocksTogether, if_pos (Or.inr List.replicate_zero)]
  have hset : (t.client v).setSize = t.chunks := rfl
  by_cases hH : 0 < H
  · have hfirst : (t.client v).hints[0]? = some (t.hint ⟨0, hH⟩).toList :=
      getElem?_hintRows t.hint ⟨0, hH⟩
    simp only [SinglePassClient.reconstruct, hfirst, Bytes.length_toList, hset, hxor,
      Option.bind_eq_bind, Option.bind_some, Option.bind_none]
  · have hfirst : (t.client v).hints[0]? = none := by
      refine List.getElem?_eq_none ?_
      change (hintRows t.hint).length ≤ 0
      rw [length_hintRows]; omega
    simp only [SinglePassClient.reconstruct, hfirst, Option.bind_eq_bind, Option.bind_none]

end HintTable

end Totality

/-! ## The online server's view of the client -/

section View
variable {S H n : ℕ}

/-- The table with the permutations `p` and the hints `f`. -/
def familyTable (p : Fin S → Equiv.Perm (Fin H)) (f : Fin H → Bytes n) :
    HintTable (Fin H) (Bytes n) :=
  ⟨S, fun j => if h : j < S then p ⟨j, h⟩ else 1, f⟩

/-- The swaps that a client with `S` chunks draws. -/
def drawn (r : Fin S → Fin H) (j : ℕ) : ℕ := if h : j < S then r ⟨j, h⟩ else 0

theorem familyTable_perm (p : Fin S → Equiv.Perm (Fin H)) (f : Fin H → Bytes n) (j : Fin S) :
    (familyTable p f).perm j = p j := dif_pos j.isLt

/-- An array indexed by the chunks. -/
theorem map_range_eq_ofFn {α : Type} (g : ℕ → α) :
    (List.range S).map g = List.ofFn fun j : Fin S => g j := by
  refine List.ext_getElem (by simp) ?_
  intro k _ _
  simp

/-- The result of `Query` on the client of a family of permutations. -/
def familyQuery (a : Fin S × Fin H) (p : Fin S → Equiv.Perm (Fin H)) (r : Fin S → Fin H) :
    SinglePassQuery where
  left := ⟨List.ofFn fun j : Fin S => (p j (r j) : ℕ), S⟩
  right := ⟨List.ofFn fun j : Fin S => ((onlineView a p r j : Fin H) : ℕ), S⟩
  ctx := ⟨a.1, ((p a.1).symm a.2 : ℕ), List.ofFn fun j => (r j : ℕ)⟩

variable {a : Fin S × Fin H} {i : ℤ} {p : Fin S → Equiv.Perm (Fin H)} {r : Fin S → Fin H}
  {f : Fin H → Bytes n} {v : ℕ}

/-- The swaps as a total function. -/
theorem exists_swaps (hH : 0 < H) (r : Fin S → Fin H) :
    ∃ r' : ℕ → Fin H, (∀ j : Fin S, r' j = r j) ∧ drawn r = fun j => (r' j : ℕ) := by
  refine ⟨fun j => if h : j < S then r ⟨j, h⟩ else ⟨0, hH⟩, fun j => dif_pos j.isLt, ?_⟩
  funext j
  simp only [drawn]
  split <;> rfl

/-- The online server is asked for the view. -/
theorem query_family (hi : i % ((S * H : ℕ) : ℤ) = ((a.1 * H + a.2 : ℕ) : ℤ)) :
    ((familyTable p f).client v).query i (drawn r) = some (familyQuery a p r) := by
  obtain ⟨r', hr', hdrawn⟩ := exists_swaps a.2.pos r
  have hq := HintTable.query_client (t := familyTable p f) (v := v) r' a.1.isLt hi
  rw [← hdrawn] at hq
  have hval : ∀ j : Fin S, drawn r j = r j := fun j => dif_pos j.isLt
  simp only [familyTable, map_range_eq_ofFn] at hq
  simp only [familyTable, hq, familyQuery, hr', hval, HintTable.onlinePos, onlineView,
    Fin.val_inj, Fin.is_lt, dif_pos, Fin.eta]

/-- After the read the client holds the refreshed family. -/
theorem reconstruct_family (B : Build) (hruns : ReadRuns S n) {answer0 answer1 : List UInt8}
    (h0 : answer0.length = S * n) (h1 : answer1.length = S * n) :
    ∃ (out : List UInt8) (f' : Fin H → Bytes n),
      ((familyTable p f).client v).reconstruct B [⟨answer0⟩, ⟨answer1⟩] (familyQuery a p r).ctx =
        some (.ok out, (familyTable (refreshFamily a p r) f').client v) := by
  obtain ⟨r', hr', -⟩ := exists_swaps a.2.pos r
  have hctx : (familyQuery a p r).ctx =
      ⟨a.1, ((p a.1).symm a.2 : ℕ), (List.range S).map fun j => (r' j : ℕ)⟩ := by
    simp only [familyQuery, map_range_eq_ofFn, hr']
  obtain ⟨out, f', hrec⟩ := HintTable.reconstruct_total (t := familyTable p f) (v := v) B
    (q := (p a.1).symm a.2) (r := r') hruns a.1.isLt h0 h1
  refine ⟨out, f', ?_⟩
  rw [hctx]
  refine hrec.trans (congrArg (fun c => some (Except.ok out, c)) ?_)
  refine HintTable.client_congr rfl ?_ fun _ => rfl
  intro j hj
  have hold := familyTable_perm p f ⟨j, hj⟩
  have hnew := familyTable_perm (refreshFamily a p r) f' ⟨j, hj⟩
  simp only at hold hnew
  rw [hnew, refreshFamily, ← hold, ← hr' ⟨j, hj⟩]
  rfl

/-- A completed read, if the sizes let it run. -/
theorem read_family (B : Build) {db : StaticDB} (hwf : db.WF n) (hrows : db.numRows = S * H)
    (hruns : ReadRuns S n) (hi : i % ((S * H : ℕ) : ℤ) = ((a.1 * H + a.2 : ℕ) : ℤ)) :
    ∃ (out : List UInt8) (f' : Fin H → Bytes n),
      ((familyTable p f).client v).read B db i (drawn r) =
      some (.ok out, (familyTable (refreshFamily a p r) f').client v) := by
  have hS : 0 < S := a.1.pos
  have hpos : ∀ g : Fin S → Fin H, ∃ answer,
      SinglePassQueryReq.process B ⟨List.ofFn fun j : Fin S => (g j : ℕ), S⟩ db = some ⟨answer⟩ ∧
        answer.length = S * n := by
    intro g
    obtain ⟨g', hg', -⟩ := exists_swaps a.2.pos g
    have hset : (List.ofFn fun j => (g j : ℕ)) = (List.range S).map fun j => (g' j : ℕ) := by
      simp only [map_range_eq_ofFn, hg']
    rw [hset]
    refine process_total B (fun j => (g' j : ℕ)) hruns.1 hwf hS ?_
    intro j hj
    have hend := block_end_le (w := H) hj
    have hlt := (g' j).isLt
    rw [hrows, Nat.mul_div_cancel_left H hS, mul_comm H]
    omega
  obtain ⟨answer0, hp0, hl0⟩ := hpos fun j => p j (r j)
  obtain ⟨answer1, hp1, hl1⟩ := hpos (onlineView a p r)
  obtain ⟨out, f', hrec⟩ := reconstruct_family (a := a) (p := p) (r := r) (f := f) (v := v) B
    hruns hl0 hl1
  refine ⟨out, f', ?_⟩
  simp only [SinglePassClient.read, query_family hi, familyQuery, hp0, hp1, Option.bind_eq_bind,
    Option.bind_some]
  exact hrec

/-- Otherwise no read completes. -/
theorem read_family_eq_none (B : Build) {db : StaticDB} (hruns : ¬ReadRuns S n)
    (hi : i % ((S * H : ℕ) : ℤ) = ((a.1 * H + a.2 : ℕ) : ℤ)) :
    ((familyTable p f).client v).read B db i (drawn r) = none := by
  have hrec : ∀ resp0 resp1 ctx,
      ((familyTable p f).client v).reconstruct B [resp0, resp1] ctx = none := by
    intro resp0 resp1 ctx
    exact HintTable.reconstruct_eq_none (t := familyTable p f) B hruns
  simp only [SinglePassClient.read, query_family hi, hrec, Option.bind_eq_bind,
    Option.bind_fun_none]

/-! ## Runs of reads -/

/-- One completed read, with what the online server receives as its output. -/
def onlineStep (B : Build) (db : StaticDB) (c : SinglePassClient) (a : ℤ × (ℕ → ℕ)) :
    Option (List ℕ × SinglePassClient) := do
  let q ← c.query a.1 a.2
  let (_, c) ← c.read B db a.1 a.2
  some (q.right.prSet, c)

/-- What the online server receives in a run of completed reads of the indices `x` with the
swaps `tape`. -/
def rightView (B : Build) (db : StaticDB) (c : SinglePassClient) {T : ℕ} (x : Fin T → ℤ)
    (tape : Fin T → Fin S → Fin H) : Option (List (List ℕ)) :=
  (runActions (onlineStep B db) c (List.ofFn fun k => (x k, drawn (tape k)))).map Prod.fst

/-- The view of a run on sizes that let the reads run. -/
theorem rightView_eq (B : Build) {db : StaticDB} (hwf : db.WF n) (hrows : db.numRows = S * H)
    (hruns : ReadRuns S n) {T : ℕ} (x : Fin T → ℤ) (a : Fin T → Fin S × Fin H)
    (ha : ∀ k, x k % ((S * H : ℕ) : ℤ) = (((a k).1 * H + (a k).2 : ℕ) : ℤ))
    (p : Fin S → Equiv.Perm (Fin H)) (tape : Fin T → Fin S → Fin H) (f : Fin H → Bytes n) :
    rightView B db ((familyTable p f).client v) x tape =
      some (List.ofFn fun k =>
        List.ofFn fun j : Fin S => ((views T a p tape k j : Fin H) : ℕ)) := by
  induction T generalizing p f with
  | zero => simp [rightView]
  | succ T ih =>
      obtain ⟨out, f', hread⟩ := read_family (f := f) (v := v) (p := p) (r := tape 0) B hwf hrows
        hruns (ha 0)
      have hrest := ih (fun k => x k.succ) (fun k => a k.succ) (fun k => ha k.succ)
        (refreshFamily (a 0) p (tape 0)) (fun k => tape k.succ) f'
      rw [rightView, Option.map_eq_some_iff] at hrest
      obtain ⟨⟨os, c⟩, hrun, hos⟩ := hrest
      have hstep : onlineStep B db ((familyTable p f).client v) (x 0, drawn (tape 0)) =
          some (List.ofFn fun j : Fin S => ((onlineView (a 0) p (tape 0) j : Fin H) : ℕ),
            (familyTable (refreshFamily (a 0) p (tape 0)) f').client v) := by
        simp only [onlineStep, query_family (ha 0), hread, familyQuery, Option.bind_eq_bind,
          Option.bind_some]
      rw [rightView, List.ofFn_succ, runActions_cons, hstep, Option.bind_some, hrun,
        Option.bind_some, Option.map_some, hos, List.ofFn_succ]
      rfl

/-- On other sizes a run that is not empty does not complete. -/
theorem rightView_eq_none (B : Build) {db : StaticDB} (hruns : ¬ReadRuns S n) {T : ℕ}
    (x : Fin T → ℤ) (a : Fin T → Fin S × Fin H)
    (ha : ∀ k, x k % ((S * H : ℕ) : ℤ) = (((a k).1 * H + (a k).2 : ℕ) : ℤ))
    (p : Fin S → Equiv.Perm (Fin H)) (tape : Fin T → Fin S → Fin H) (f : Fin H → Bytes n) :
    rightView B db ((familyTable p f).client v) x tape = if T = 0 then some [] else none := by
  cases T with
  | zero => simp [rightView]
  | succ T =>
      have hstep : onlineStep B db ((familyTable p f).client v) (x 0, drawn (tape 0)) = none := by
        simp only [onlineStep, read_family_eq_none B hruns (ha 0), Option.bind_eq_bind,
          Option.bind_none, Option.bind_fun_none]
      rw [rightView, List.ofFn_succ, runActions_cons, hstep, Option.bind_none, Option.map_none,
        if_neg (Nat.succ_ne_zero T)]

/-- Every integer index names a column of a chunk. -/
theorem exists_column_family (hS : 0 < S) (hH : 0 < H) (i : ℤ) :
    ∃ a : Fin S × Fin H, i % ((S * H : ℕ) : ℤ) = ((a.1 * H + a.2 : ℕ) : ℤ) := by
  obtain ⟨j₀, hj₀, x, hi⟩ := HintTable.exists_column (n := 0)
    (t := ⟨S, fun _ => 1, fun _ => 0⟩) i hH hS
  exact ⟨(⟨j₀, hj₀⟩, x), hi⟩

/-- **The online server learns nothing about the indices.** For every index the pair
(permutations, swaps) is in bijection with the pair (positions sent to the online server,
permutations after `reconstruct`), and for any two sequences of indices every view of a run
is produced by the same number of permutations and swaps, whatever the hints are. -/
theorem onlineServer_view_independent (B : Build) (db : StaticDB) (hS : 0 < S) (hH : 0 < H)
    (hwf : db.WF n) (hrows : db.numRows = S * H) :
    (∀ i : ℤ, ∃ e : (Fin S → Equiv.Perm (Fin H)) × (Fin S → Fin H) ≃
        (Fin S → Fin H) × (Fin S → Equiv.Perm (Fin H)),
      ∀ p r (f : Fin H → Bytes n) v, ∃ q : SinglePassQuery,
        ((familyTable p f).client v).query i (drawn r) = some q ∧
        q.right.prSet = List.ofFn (fun j : Fin S => ((e (p, r)).1 j : ℕ)) ∧
        ∀ answer0 answer1, answer0.length = S * n → answer1.length = S * n →
          (ReadRuns S n → ∃ res, ((familyTable p f).client v).reconstruct B
            [⟨answer0⟩, ⟨answer1⟩] q.ctx = some res) ∧
          ∀ out c, ((familyTable p f).client v).reconstruct B
            [⟨answer0⟩, ⟨answer1⟩] q.ctx = some (out, c) →
              ∃ f' : Fin H → Bytes n, c = (familyTable (e (p, r)).2 f').client v) ∧
    ∀ (hint : (Fin S → Equiv.Perm (Fin H)) → Fin H → Bytes n) (v T : ℕ) (x y : Fin T → ℤ)
      (view : List (List ℕ)),
      Nat.card {s : (Fin S → Equiv.Perm (Fin H)) × (Fin T → Fin S → Fin H) //
        rightView B db ((familyTable s.1 (hint s.1)).client v) x s.2 = some view} =
      Nat.card {s : (Fin S → Equiv.Perm (Fin H)) × (Fin T → Fin S → Fin H) //
        rightView B db ((familyTable s.1 (hint s.1)).client v) y s.2 = some view} := by
  constructor
  · intro i
    obtain ⟨a, hi⟩ := exists_column_family hS hH i
    refine ⟨viewEquiv a, ?_⟩
    intro p r f v
    refine ⟨familyQuery a p r, query_family hi, rfl, ?_⟩
    intro answer0 answer1 h0 h1
    by_cases hruns : ReadRuns S n
    · obtain ⟨out, f', hrec⟩ := reconstruct_family (a := a) (p := p) (r := r) (f := f) (v := v) B
        hruns h0 h1
      refine ⟨fun _ => ⟨_, hrec⟩, ?_⟩
      intro out' c hc
      rw [hrec, Option.some.injEq, Prod.mk.injEq] at hc
      exact ⟨f', hc.2.symm⟩
    · refine ⟨fun h => absurd h hruns, ?_⟩
      intro out c hc
      rw [HintTable.reconstruct_eq_none (t := familyTable p f) B hruns] at hc
      exact absurd hc.symm (Option.some_ne_none _)
  · intro hint v T x y view
    choose a ha using fun k => exists_column_family hS hH (x k)
    choose b hb using fun k => exists_column_family hS hH (y k)
    by_cases hruns : ReadRuns S n
    · -- both sets are the runs that end in `view`, counted through their final permutations
      obtain ⟨e, he⟩ := runEquiv T a
      obtain ⟨e', he'⟩ := runEquiv T b
      refine Nat.card_congr ((e.trans e'.symm).subtypeEquiv ?_)
      rintro ⟨p, tape⟩
      have hviews := he' (e'.symm (e (p, tape))).1 (e'.symm (e (p, tape))).2
      rw [Prod.mk.eta, Equiv.apply_symm_apply, he] at hviews
      simp only [Equiv.trans_apply, rightView_eq B hwf hrows hruns x a ha,
        rightView_eq B hwf hrows hruns y b hb, hviews]
    · simp only [rightView_eq_none B hruns x a ha, rightView_eq_none B hruns y b hb]

/-- The count of a run of two reads of a table of two chunks of two rows. -/
theorem onlineServer_view_independent_two_by_two :
    Nat.card {s : (Fin 2 → Equiv.Perm (Fin 2)) × (Fin 2 → Fin 2 → Fin 2) //
      rightView .avx2 ⟨4, 1, 0, [1, 2, 3, 4]⟩
        ((familyTable s.1 (fun _ => (0 : Bytes 1))).client 0) ![0, 3] s.2 =
          some [[0, 1], [1, 1]]} =
    Nat.card {s : (Fin 2 → Equiv.Perm (Fin 2)) × (Fin 2 → Fin 2 → Fin 2) //
      rightView .avx2 ⟨4, 1, 0, [1, 2, 3, 4]⟩
        ((familyTable s.1 (fun _ => (0 : Bytes 1))).client 0) ![2, 2] s.2 =
          some [[0, 1], [1, 1]]} :=
  (onlineServer_view_independent (S := 2) (H := 2) (n := 1) .avx2
    ⟨4, 1, 0, [1, 2, 3, 4]⟩ (by decide) (by decide) ⟨rfl, rfl⟩ rfl).2 (fun _ _ => 0) 0 2
      ![0, 3] ![2, 2] [[0, 1], [1, 1]]

end View

end SinglePassPIR.Pir
