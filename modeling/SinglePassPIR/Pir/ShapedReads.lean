import SinglePassPIR.Pir.ClientShape
import SinglePassPIR.Pir.OnlinePrivacy

/-!
# Reads of a client with its arrays in shape

The lengths of the arrays are all that a query and its two answers need, for rows and counts of any
size. What the client makes of the answers may be wrong where C truncates the sizes, or where a
server answers something else, but a `reconstruct` that returns leaves the arrays in shape.

## Main results

* `Shaped.query` — the two requests for a row that the client covers.
* `Fits.process` — a server answers them; it does not answer a dummy query.
* `Shaped.of_reconstruct` — the client after any answers.
-/

namespace SinglePassPIR.Pir
open Psetggm

/-! ## Lengths -/

theorem writeAt_length {α : Type} {l l' : List α} {i : ℕ} {v : α} (h : writeAt l i v = some l') :
    l'.length = l.length := by
  rw [writeAt] at h
  split_ifs at h
  rw [← Option.some.inj h, List.length_set]

theorem xorLane_length {w b : ℕ} {out inp out' : List UInt8} (h : xorLane w out inp b = some out') :
    out'.length = out.length := by
  simp only [xorLane, Option.bind_eq_bind, Option.bind_eq_some_iff] at h
  obtain ⟨o, -, e, -, hstore⟩ := h
  exact storeAt_length hstore

theorem xorTailBytes_length {start m : ℕ} {out inp out' : List UInt8}
    (h : xorTailBytes out inp start m = some out') : out'.length = out.length := by
  apply loop_preserves (fun _ t => t.length = out.length) rfl _ h
  intro i _ t t' hlen hstep
  simp only [Option.bind_eq_bind, Option.bind_eq_some_iff] at hstep
  obtain ⟨o, -, e, -, hwrite⟩ := hstep
  exact (writeAt_length hwrite).trans hlen

theorem intLoop_preserves_length {n : ℕ} {f : ℕ → List UInt8 → Option (List UInt8)}
    {out out' : List UInt8} (hf : ∀ i t t', f i t = some t' → t'.length = t.length)
    (h : intLoop n f out = some out') : out'.length = out.length := by
  rw [intLoop] at h
  split_ifs at h
  exact loop_preserves (fun _ t => t.length = out.length) rfl
    (fun i _ t t' hlen hstep => (hf i t t' hstep).trans hlen) h

theorem xorInto_length {B : Build} {m : ℕ} {out inp out' : List UInt8}
    (h : xorInto B out inp m = some out') : out'.length = out.length := by
  simp only [xorInto, Option.bind_eq_bind, Option.bind_eq_some_iff] at h
  obtain ⟨t, hlanes, htail⟩ := h
  exact (xorTailBytes_length htail).trans
    (intLoop_preserves_length (fun _ _ _ hlane => xorLane_length hlane) hlanes)

theorem fastXorInto_length {B : Build} {m : ℕ} {out inp out' : List UInt8}
    (h : fastXorInto B out inp m = some out') : out'.length = out.length := by
  rw [fastXorInto] at h
  split_ifs at h
  exact xorInto_length h

theorem xorBlocksTogether_length {B : Build} {m k : ℕ} {db out out' : List UInt8}
    (h : xorBlocksTogether B db out m k = some out') : out'.length = out.length := by
  rw [xorBlocksTogether] at h
  split_ifs at h
  simp only [xorAllRows, Option.bind_eq_bind, Option.bind_eq_some_iff] at h
  obtain ⟨t, hstore, hloop⟩ := h
  exact (intLoop_preserves_length (fun _ _ _ hxor => xorInto_length hxor) hloop).trans
    (storeAt_length hstore)

/-! ## The requests -/

/-- A request for a row of each of `S` chunks of `H` rows. -/
structure SinglePassQueryReq.Fits (S H : ℕ) (q : SinglePassQueryReq) : Prop where
  setSize_eq : q.setSize = S
  length_eq : q.prSet.length = S
  lt : ∀ p ∈ q.prSet, p < H

variable {n : ℕ} {c c' : SinglePassClient}

namespace SinglePassClient

theorem Shaped.queryColumn (h : c.Shaped n) {pos j : ℕ} {swaps : ℕ → ℕ} (hpos : pos < c.nHints)
    (hswap : swaps j < c.nHints) (hj : j < c.setSize) :
    ∃ col, c.queryColumn pos swaps j = some col ∧
      col.1 < c.nHints ∧ col.2.1 < c.nHints ∧ col.2.2 < c.nHints := by
  obtain ⟨perm, online, hperm, honline, hlt⟩ := h.perm hj hpos
  obtain ⟨perm', offline, hperm', hoffline, hlt'⟩ := h.perm hj hswap
  obtain rfl : perm = perm' := Option.some.inj (hperm.symm.trans hperm')
  refine ⟨(online, swaps j, offline), ?_, hlt, hswap, hlt'⟩
  simp only [SinglePassClient.queryColumn, hperm, honline, hoffline, Option.bind_eq_bind,
    Option.bind_some]

/-- **A query** for a row that the client covers. -/
theorem Shaped.query (h : c.Shaped n) {index : ℕ} (hi : index < c.nRows) {swaps : ℕ → ℕ}
    (hswaps : ∀ j < c.setSize, swaps j < c.nHints) :
    ∃ q, c.query index swaps = some q ∧ q.left.Fits c.setSize c.nHints ∧
      q.right.Fits c.setSize c.nHints := by
  have hnHints := h.nHints_pos
  have hhints : ¬c.hints.length < 1 := by
    rw [h.length_hints]
    omega
  have hmod : mathMod index c.nRows = some (index : ℤ) := by
    rw [mathMod_eq _ (by omega), Int.emod_eq_of_lt (by omega) (by omega)]
  obtain ⟨i0, i1, pos, hfind, hi0, hpos⟩ := h.findIndex hi
  obtain ⟨columns, hcolumns, -, hfrom⟩ := mapM_exists
    (fun _ (col : ℕ × ℕ × ℕ) => col.1 < c.nHints ∧ col.2.1 < c.nHints ∧ col.2.2 < c.nHints)
    (List.range c.setSize)
    fun j hj => h.queryColumn hpos (hswaps j (List.mem_range.mp hj)) (List.mem_range.mp hj)
  have hdrawn : columns.map (fun col => col.2.1) = (List.range c.setSize).map swaps := by
    apply map_of_mapM _ _ _ hcolumns
    intro j _ col hcol
    simp only [SinglePassClient.queryColumn, Option.bind_eq_bind, Option.bind_eq_some_iff,
      Option.some.injEq] at hcol
    obtain ⟨-, -, -, -, -, -, rfl⟩ := hcol
    rfl
  have hlen : columns.length = c.setSize := by simpa using congrArg List.length hdrawn
  have hcol : ∀ col ∈ columns, col.1 < c.nHints ∧ col.2.1 < c.nHints ∧ col.2.2 < c.nHints := by
    intro col hmem
    obtain ⟨-, -, hlt⟩ := hfrom col hmem
    exact hlt
  obtain ⟨perm, special, hperm, hspecial, hlt⟩ := h.perm hi0 (hswaps i0 hi0)
  refine ⟨⟨⟨columns.map fun col => col.2.2, c.setSize⟩,
    ⟨(columns.map fun col => col.1).set i0 special, c.setSize⟩,
    ⟨i0, pos, columns.map fun col => col.2.1⟩⟩, ?_, ⟨rfl, ?_, ?_⟩, ⟨rfl, ?_, ?_⟩⟩
  · rw [SinglePassClient.query, if_neg hhints, hmod]
    simp only [Option.bind_eq_bind, Option.bind_some, Int.toNat_natCast, hfind, hcolumns, hdrawn,
      hperm, getElem?_map_range swaps hi0, hspecial]
    rw [writeAt_eq (by rw [List.length_map, hlen]; exact hi0), Option.bind_some]
  · rw [List.length_map, hlen]
  · intro p hp
    obtain ⟨col, hmem, rfl⟩ := List.mem_map.mp hp
    exact (hcol col hmem).2.2
  · rw [List.length_set, List.length_map, hlen]
  · intro p hp
    cases List.mem_or_eq_of_mem_set hp with
    | inl hold =>
        obtain ⟨col, hmem, rfl⟩ := List.mem_map.mp hold
        exact (hcol col hmem).1
    | inr hnew => exact hnew ▸ hlt

end SinglePassClient

/-- **The answer** to a request that fits the table. -/
theorem SinglePassQueryReq.Fits.process (B : Build) {S H : ℕ} {q : SinglePassQueryReq}
    (h : q.Fits S H) {db : StaticDB} (hn : 0 < n) (hwf : db.WF n) (hS : 0 < S)
    (hrows : db.numRows = S * H) : ∃ resp, q.process B db = some resp := by
  have hprSet : q.prSet = (List.range S).map fun j => q.prSet.getD j 0 := by
    refine ext_getD 0 (by simp [h.length_eq]) ?_
    intro k hk
    rw [h.length_eq] at hk
    simp [hk]
  have hreq : q = ⟨(List.range S).map fun j => q.prSet.getD j 0, S⟩ := by
    rw [← hprSet, ← h.setSize_eq]
  rw [hreq]
  have hpos : ∀ j < S, db.numRows / S * j + q.prSet.getD j 0 < db.numRows := by
    intro j hj
    have hend := block_end_le (w := H) hj
    have hlt : q.prSet.getD j 0 < H := by
      have hj' : j < q.prSet.length := h.length_eq ▸ hj
      exact h.lt _ (List.mem_of_getElem? (getElem?_eq_some_getD 0 hj'))
    rw [hrows, Nat.mul_div_cancel_left H hS, Nat.mul_comm H]
    omega
  obtain ⟨answer, hanswer, -⟩ := process_total B _ hn hwf hS hpos
  exact ⟨_, hanswer⟩

/-- `SinglePassClient.DummyQuery`, which is the same for all clients. -/
def SinglePassClient.dummyQuery (_c : SinglePassClient) : SinglePassQueryReq × SinglePassQueryReq :=
  let q : SinglePassQueryReq := { prSet := List.replicate 1 0, setSize := 0 }
  (q, q)

/-- The server divides by the set size. -/
theorem process_setSize_zero (B : Build) {q : SinglePassQueryReq} (h : q.setSize = 0)
    (db : StaticDB) : q.process B db = none := by
  rw [SinglePassQueryReq.process, if_pos h]

/-! ## The client after the answers -/

theorem IsPositions.writeAt {H i v : ℕ} {l l' : List ℕ} (h : IsPositions H l) (hv : v < H)
    (hwrite : writeAt l i v = some l') : IsPositions H l' := by
  refine ⟨(writeAt_length hwrite).trans h.1, ?_⟩
  rw [SinglePassPIR.writeAt] at hwrite
  split_ifs at hwrite
  rw [← Option.some.inj hwrite]
  intro pos hpos
  cases List.mem_or_eq_of_mem_set hpos with
  | inl hold => exact h.2 pos hold
  | inr hnew => exact hnew ▸ hv

/-- A cell of an array of positions. -/
theorem IsPositions.lt_of_getElem? {H i x : ℕ} {l : List ℕ} (h : IsPositions H l)
    (hget : l[i]? = some x) : i < H ∧ x < H := by
  obtain ⟨hi, -⟩ := List.getElem?_eq_some_iff.mp hget
  exact ⟨h.1 ▸ hi, h.2 x (List.mem_of_getElem? hget)⟩

namespace SinglePassClient

/-- Another hint of the same length. -/
theorem Shaped.set_hint (h : c.Shaped n) (pos : ℕ) {hint : List UInt8} (hlen : hint.length = n) :
    ({ c with hints := c.hints.set pos hint } : SinglePassClient).Shaped n :=
  { h with
    length_hints := List.length_set.trans h.length_hints
    hint_length := by
      intro hint' hmem
      cases List.mem_or_eq_of_mem_set hmem with
      | inl hold => exact h.hint_length hint' hold
      | inr hnew => exact hnew ▸ hlen }

/-- XORing anything into a hint. -/
theorem Shaped.of_xorHint {B : Build} {pos m : ℕ} {row : List UInt8} (h : c.Shaped n)
    (hxor : c.xorHint B pos row m = some c') :
    c'.Shaped n ∧ c'.nRows = c.nRows ∧ c'.nHints = c.nHints ∧ pos < c.nHints := by
  simp only [SinglePassClient.xorHint, Option.bind_eq_bind, Option.bind_eq_some_iff,
    Option.some.injEq] at hxor
  obtain ⟨hint, hget, hint', hfast, rfl⟩ := hxor
  obtain ⟨hlt, -⟩ := List.getElem?_eq_some_iff.mp hget
  have hlen := h.hint_length hint (List.mem_of_getElem? hget)
  exact ⟨h.set_hint pos ((fastXorInto_length hfast).trans hlen), rfl, rfl, h.length_hints ▸ hlt⟩

/-- One round of the loop of `reconstruct`. -/
theorem Shaped.of_reconstructColumn {B : Build} {answer0 answer1 : List UInt8}
    {ctx : SinglePassQueryCtx} {m i : ℕ} (h : c.Shaped n)
    (hstep : reconstructColumn B answer0 answer1 ctx m i c = some c') :
    c'.Shaped n ∧ c'.nRows = c.nRows := by
  simp only [reconstructColumn, Option.bind_eq_bind, Option.bind_eq_some_iff, Option.some.injEq]
    at hstep
  obtain ⟨swap, -, row0, -, c₁, hxor₁, row1, -, c₂, hxor₂, perm, hperm, temp1, htemp1, temp2, htemp2,
    perm₁, hwrite₁, perm₂, hwrite₂, inverse, hinverse, inverse₁, hwrite₃, inverse₂, hwrite₄, rfl⟩ :=
    hstep
  obtain ⟨h₁, hrows₁, hnHints₁, hswap⟩ := h.of_xorHint hxor₁
  obtain ⟨h₂, hrows₂, hnHints₂, -⟩ := h₁.of_xorHint hxor₂
  rw [← hnHints₁, ← hnHints₂] at hswap
  have hpositions := h₂.perm_positions perm (List.mem_of_getElem? hperm)
  obtain ⟨hpos, hlt1⟩ := hpositions.lt_of_getElem? htemp1
  obtain ⟨-, hlt2⟩ := hpositions.lt_of_getElem? htemp2
  have hpositions₂ := (hpositions.writeAt hlt2 hwrite₁).writeAt hlt1 hwrite₂
  have hinverse₂ := ((h₂.inverse_positions inverse (List.mem_of_getElem? hinverse)).writeAt hswap
    hwrite₃).writeAt hpos hwrite₄
  refine ⟨{ h₂ with
    length_idxToSetIdx := List.length_set.trans h₂.length_idxToSetIdx
    length_setIdxToIdx := List.length_set.trans h₂.length_setIdxToIdx
    perm_positions := ?_, inverse_positions := ?_ }, hrows₂.trans hrows₁⟩
  · intro perm' hmem
    cases List.mem_or_eq_of_mem_set hmem with
    | inl hold => exact h₂.perm_positions perm' hold
    | inr hnew => exact hnew ▸ hpositions₂
  · intro inverse' hmem
    cases List.mem_or_eq_of_mem_set hmem with
    | inl hold => exact h₂.inverse_positions inverse' hold
    | inr hnew => exact hnew ▸ hinverse₂

/-- **The client after any answers**, right or wrong, if it got to the end. -/
theorem Shaped.of_reconstruct {B : Build} {resp : List SinglePassQueryResp}
    {ctx : SinglePassQueryCtx} {res : Except String (List UInt8)} (h : c.Shaped n)
    (hrec : c.reconstruct B resp ctx = some (res, c')) : c'.Shaped n ∧ c'.nRows = c.nRows := by
  unfold reconstruct at hrec
  split at hrec
  · rename_i resp0 resp1
    simp only [Option.bind_eq_bind, Option.bind_eq_some_iff, Option.some.injEq, Prod.mk.injEq]
      at hrec
    obtain ⟨hint, hfirst, xorResp0, hxor0, xorResp1, -, special, -, out₁, -, hintPos, -, out₂, -,
      out₃, -, c₁, hloop, swap, -, c₂, hxor₂, c₃, hxor₃, -, rfl⟩ := hrec
    have hlen : xorResp0.length = n := by
      rw [xorBlocksTogether_length hxor0, List.length_replicate]
      exact h.hint_length hint (List.mem_of_getElem? hfirst)
    obtain ⟨h₁, hrows₁⟩ := loop_preserves (fun _ t => t.Shaped n ∧ t.nRows = c.nRows)
      ⟨h.set_hint ctx.pos hlen, rfl⟩ (by
        intro i _ t t' ht hstep
        obtain ⟨ht', hrows⟩ := ht.1.of_reconstructColumn hstep
        exact ⟨ht', hrows.trans ht.2⟩) hloop
    obtain ⟨h₂, hrows₂, -⟩ := h₁.of_xorHint hxor₂
    obtain ⟨h₃, hrows₃, -⟩ := h₂.of_xorHint hxor₃
    exact ⟨h₃, hrows₃.trans (hrows₂.trans hrows₁)⟩
  · rw [Option.some.injEq, Prod.mk.injEq] at hrec
    rw [← hrec.2]
    exact ⟨h, rfl⟩

end SinglePassClient

end SinglePassPIR.Pir
