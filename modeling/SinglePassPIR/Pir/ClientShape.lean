import SinglePassPIR.Pir.DefaultSetSize

/-!
# The arrays of a SinglePass client

What the server and `InitClient` hand out, for databases, set sizes and rows of any size: where C
truncates the counts the hints are of no use, but the arrays still have the lengths that the
counters of the client give, and hold positions of hints. That is all it takes for the queries of
the client to be answered, and for its updates to go through.

## Main results

* `client_shaped` — the arrays of every client that the preprocessing makes.
-/

namespace SinglePassPIR.Pir
open Psetggm

/-! ## The arrays of a client -/

/-- A number below `H` for each of `H` columns. -/
def IsPositions (H : ℕ) (l : List ℕ) : Prop := l.length = H ∧ ∀ pos ∈ l, pos < H

theorem IsPositions.getElem? {H : ℕ} {l : List ℕ} (h : IsPositions H l) {i : ℕ} (hi : i < H) :
    ∃ pos, l[i]? = some pos ∧ pos < H := by
  have hlt : i < l.length := h.1 ▸ hi
  exact ⟨l[i], List.getElem?_eq_getElem hlt, h.2 _ (List.getElem_mem hlt)⟩

/-- The arrays of the client have the lengths that its counters give, and its positions are ones of
hints. The count of the hints is not zero in C. -/
structure SinglePassClient.Shaped (n : ℕ) (c : SinglePassClient) : Prop where
  rowLen_eq : c.rowLen = n
  rowLen_pos : 0 < n
  nHints_ne : cUint c.nHints ≠ 0
  nRows_eq : c.nRows = c.setSize * c.nHints
  length_hints : c.hints.length = c.nHints
  hint_length : ∀ hint ∈ c.hints, hint.length = n
  length_idxToSetIdx : c.idxToSetIdx.length = c.setSize
  length_setIdxToIdx : c.setIdxToIdx.length = c.setSize
  perm_positions : ∀ perm ∈ c.idxToSetIdx, IsPositions c.nHints perm
  inverse_positions : ∀ inverse ∈ c.setIdxToIdx, IsPositions c.nHints inverse

variable {n : ℕ} {c : SinglePassClient}

theorem SinglePassClient.Shaped.nHints_pos (h : c.Shaped n) : 0 < c.nHints := by
  apply Nat.pos_of_ne_zero
  intro h0
  exact h.nHints_ne (by rw [h0]; rfl)

/-- A client with rows has chunks. -/
theorem SinglePassClient.Shaped.setSize_pos (h : c.Shaped n) (hrows : 0 < c.nRows) :
    0 < c.setSize := by
  apply Nat.pos_of_ne_zero
  intro h0
  rw [h.nRows_eq, h0, Nat.zero_mul] at hrows
  exact Nat.lt_irrefl 0 hrows

/-- Chunk `j` has a permutation, with an entry at each position. -/
theorem SinglePassClient.Shaped.perm (h : c.Shaped n) {j pos : ℕ} (hj : j < c.setSize)
    (hpos : pos < c.nHints) :
    ∃ perm entry, c.idxToSetIdx[j]? = some perm ∧ perm[pos]? = some entry ∧ entry < c.nHints := by
  have hlt : j < c.idxToSetIdx.length := h.length_idxToSetIdx ▸ hj
  obtain ⟨entry, hentry, hle⟩ := (h.perm_positions _ (List.getElem_mem hlt)).getElem? hpos
  exact ⟨_, entry, List.getElem?_eq_getElem hlt, hentry, hle⟩

/-- A row that the client covers is found. -/
theorem SinglePassClient.Shaped.findIndex (h : c.Shaped n) {index : ℕ} (hi : index < c.nRows) :
    ∃ i0 i1 pos, c.findIndex index = some (i0, i1, pos) ∧ i0 < c.setSize ∧ pos < c.nHints := by
  have hnHints := h.nHints_pos
  have hchunk : index / c.nHints < c.setSize := by
    rw [Nat.div_lt_iff_lt_mul hnHints, ← h.nRows_eq]
    exact hi
  have hcolumn : index - index / c.nHints * c.nHints < c.nHints := by
    have hsplit := Nat.div_add_mod' index c.nHints
    have hmod := Nat.mod_lt index hnHints
    omega
  have hlt : index / c.nHints < c.setIdxToIdx.length := h.length_setIdxToIdx ▸ hchunk
  obtain ⟨pos, hget, hpos⟩ := (h.inverse_positions _ (List.getElem_mem hlt)).getElem? hcolumn
  refine ⟨index / c.nHints, index - index / c.nHints * c.nHints, pos, ?_, hchunk, hpos⟩
  have hguard : ¬(c.nRows ≤ index ∨ c.nHints = 0) := by omega
  simp only [SinglePassClient.findIndex, if_neg hguard, List.getElem?_eq_getElem hlt, hget,
    Option.bind_eq_bind, Option.bind_some]

/-! ## Permutations of any size -/

/-- A cell of an inverted permutation is an old one or a position. -/
theorem invertPermutation_cells {perm inv inv' : List ℕ} {range : ℕ}
    (h : invertPermutation perm range inv = some inv') :
    inv'.length = inv.length ∧ ∀ x ∈ inv', x ∈ inv ∨ x < range := by
  apply loop_preserves
    (fun i t => t.length = inv.length ∧ ∀ x ∈ t, x ∈ inv ∨ x < i) ⟨rfl, fun _ => Or.inl⟩ _ h
  intro i _ t t' hold hstep
  obtain ⟨hlen, hcells⟩ := hold
  simp only [Option.bind_eq_bind, Option.bind_eq_some_iff, writeAt] at hstep
  obtain ⟨p, -, hwrite⟩ := hstep
  split_ifs at hwrite
  rw [← Option.some.inj hwrite]
  constructor
  · rw [List.length_set, hlen]
  · intro x hx
    cases List.mem_or_eq_of_mem_set hx with
    | inl hold => exact (hcells x hold).imp_right Nat.lt_succ_of_lt
    | inr hnew => exact Or.inr (hnew ▸ Nat.lt_succ_self i)

/-- A permutation of `0` elements is drawn past the end of its array. -/
theorem permute_zero (rnd : ℕ → UInt32) : permute rnd 0 = none := by
  have hnil : ∀ k i, i ≠ 0 → permuteLoop rnd k i [] = none := by
    intro k i hi
    cases i with
    | zero => exact absurd rfl hi
    | succ i => rfl
  exact hnil 0 _ (by decide)

theorem lt_of_mem_permArray {m x : ℕ} {σ : Equiv.Perm (Fin m)} (hx : x ∈ permArray σ) : x < m := by
  obtain ⟨i, rfl⟩ := List.mem_ofFn.mp hx
  exact (σ i).isLt

/-- Positions that are cells of the array are inverted. -/
theorem invertPermutation_total {perm inv : List ℕ} {range : ℕ}
    (hperm : ∀ i < range, ∃ p, perm[i]? = some p ∧ p < inv.length) :
    ∃ inv', invertPermutation perm range inv = some inv' := by
  have key := loop_spec (f := fun i inv => do let p ← perm[i]?; writeAt inv p i)
    (n := range) (fun _ t => t.length = inv.length) rfl ?step
  case step =>
    intro i hi t ht
    obtain ⟨p, hp, hlt⟩ := hperm i hi
    refine ⟨t.set p i, ?_, by rw [List.length_set, ht]⟩
    rw [hp, Option.bind_eq_bind, Option.bind_some, writeAt_eq (ht ▸ hlt)]
  obtain ⟨inv', hloop, -⟩ := key
  exact ⟨inv', hloop⟩

/-- A permutation for a new chunk, whatever the number of columns. Where C truncates it, the
permutation covers the first columns only. -/
theorem singlePermutation_total (rnd : ℕ → UInt32) {H : ℕ} (hH : cUint H ≠ 0) :
    ∃ perm inverse, singlePermutation rnd (List.replicate H 0) (List.replicate H 0) H =
      some (perm, inverse) ∧ IsPositions H perm ∧ IsPositions H inverse := by
  have hle := cUint_le H
  have hne : List.replicate H 0 ≠ [] := by
    simp
    omega
  obtain ⟨σ, hperm⟩ := permute_spec rnd (Nat.pos_of_ne_zero hH) (cUint_lt H)
  have hfit : 0 + (permArray σ).length ≤ (List.replicate H 0).length := by simpa using hle
  have hstore := storeAt_eq hfit
  rw [List.take_zero, List.nil_append] at hstore
  have hzero : ∀ pos ∈ (List.replicate H 0).drop (0 + (permArray σ).length), pos < H := by
    intro pos hpos
    rw [List.eq_of_mem_replicate (List.mem_of_mem_drop hpos)]
    omega
  have hfull : (permArray σ ++ (List.replicate H 0).drop (0 + (permArray σ).length)).length = H := by
    simp
    omega
  generalize (List.replicate H 0).drop (0 + (permArray σ).length) = rest at hstore hzero hfull
  obtain ⟨inverse, hinvert⟩ := @invertPermutation_total (permArray σ ++ rest) (List.replicate H 0)
    (cUint H) (by
      intro i hi
      refine ⟨σ ⟨i, hi⟩, ?_, by simpa using (σ ⟨i, hi⟩).isLt.trans_le hle⟩
      rw [List.getElem?_append_left (by simpa using hi)]
      exact getElem?_permArray σ ⟨i, hi⟩)
  obtain ⟨hlen, hcells⟩ := invertPermutation_cells hinvert
  refine ⟨permArray σ ++ rest, inverse, ?_, ⟨hfull, ?_⟩, hlen.trans List.length_replicate, ?_⟩
  · simp only [singlePermutation, hne, or_self, if_false, hperm, hstore, hinvert,
      Option.bind_eq_bind, Option.bind_some]
  · intro pos hpos
    cases List.mem_append.mp hpos with
    | inl hperm => exact (lt_of_mem_permArray hperm).trans_le hle
    | inr hrest => exact hzero pos hrest
  · intro pos hpos
    cases hcells pos hpos with
    | inl hold =>
        rw [List.eq_of_mem_replicate hold]
        omega
    | inr hnew => omega

/-! ## The client of the preprocessing -/

theorem length_of_slice {α : Type} {l v : List α} {a b : ℕ} (h : slice l a b = some v) :
    v.length = b - a := by
  rw [slice] at h
  split_ifs at h with hin
  rw [← Option.some.inj h, List.length_take, List.length_drop]
  omega

/-- The cells of a block stored into an array. -/
theorem mem_of_storeAt {α : Type} {l v l' : List α} {off : ℕ} (h : storeAt l off v = some l')
    {x : α} (hx : x ∈ l') : x ∈ l ∨ x ∈ v := by
  rw [storeAt] at h
  split_ifs at h
  rw [← Option.some.inj h, List.append_assoc, List.mem_append, List.mem_append] at hx
  rcases hx with hx | hx | hx
  · exact Or.inl (List.mem_of_mem_take hx)
  · exact Or.inr hx
  · exact Or.inl (List.mem_of_mem_drop hx)

/-- The pass has two arrays of positions below `K`, as long as those of `buf`. -/
structure PassPositions (K : ℕ) (buf buf' : HintBuffers) : Prop where
  permutations_length : buf'.permutations.length = buf.permutations.length
  inverse_length : buf'.inversePermutations.length = buf.inversePermutations.length
  permutations_lt : ∀ pos ∈ buf'.permutations, pos < K
  inverse_lt : ∀ pos ∈ buf'.inversePermutations, pos < K

theorem singlePassChunk_positions {B : Build} {rnd : ℕ → UInt32} {flat : List UInt8}
    {m k K i : ℕ} {buf b b' : HintBuffers} (h : PassPositions K buf b) (hm : m ≤ K)
    (h32 : m < 2 ^ 32) (hstep : singlePassChunk B rnd flat m k i b = some b') :
    m ≠ 0 ∧ PassPositions K buf b' := by
  have hne : m ≠ 0 := by
    rintro rfl
    rw [singlePassChunk, permute_zero] at hstep
    cases hstep
  rw [singlePassChunk] at hstep
  simp only [Option.bind_eq_bind, Option.bind_eq_some_iff, Option.some.injEq] at hstep
  obtain ⟨perm, hperm, permutations, hstore, inverse, hslice, inverse', hinvert, inverses, hstore',
    parities, -, rfl⟩ := hstep
  obtain ⟨σ, hσ⟩ := permute_spec (fun k => rnd (i * (m - 1) + k)) (Nat.pos_of_ne_zero hne) h32
  rw [hσ, Option.some.injEq] at hperm
  refine ⟨hne, (storeAt_length hstore).trans h.permutations_length,
    (storeAt_length hstore').trans h.inverse_length, ?_, ?_⟩
  · intro pos hpos
    cases mem_of_storeAt hstore hpos with
    | inl hold => exact h.permutations_lt pos hold
    | inr hnew => exact (lt_of_mem_permArray (hperm ▸ hnew)).trans_le hm
  · intro pos hpos
    cases mem_of_storeAt hstore' hpos with
    | inl hold => exact h.inverse_lt pos hold
    | inr hnew =>
        cases (invertPermutation_cells hinvert).2 pos hnew with
        | inl hold =>
            rw [slice] at hslice
            split_ifs at hslice
            rw [← Option.some.inj hslice] at hold
            exact h.inverse_lt pos (List.mem_of_mem_drop (List.mem_of_mem_take hold))
        | inr hlt => exact hlt.trans_le hm

/-- **The positions that the pass leaves**, if it started with positions. Its permutations are not
empty. -/
theorem singlePassAnswer_positions {B : Build} {rnd : ℕ → UInt32} {flat : List UInt8} {N S m K : ℕ}
    {buf buf' : HintBuffers} (h : singlePassAnswer B rnd flat N S m buf = some buf')
    (hK : cUint N / cUint S ≤ K) (hbuf : PassPositions K buf buf) :
    cUint N / cUint S ≠ 0 ∧ PassPositions K buf buf' := by
  rw [singlePassAnswer, answerSinglePass, intLoop] at h
  split_ifs at h with hnil hS hint
  have h32 : cUint N / cUint S < 2 ^ 32 := (Nat.div_le_self _ _).trans_lt (cUint_lt N)
  have hpos := Nat.pos_of_ne_zero hS
  obtain ⟨hfirst, hpositions⟩ := loop_preserves
    (fun i b => (0 < i → cUint N / cUint S ≠ 0) ∧ PassPositions K buf b)
    ⟨fun h0 => absurd h0 (Nat.lt_irrefl 0), hbuf⟩ (by
      intro i _ b b' hb hstep
      obtain ⟨hne, hb'⟩ := singlePassChunk_positions hb.2 hK h32 hstep
      exact ⟨fun _ => hne, hb'⟩) h
  exact ⟨hfirst hpos, hpositions⟩

theorem singlePassAnswer_parities {B : Build} {rnd : ℕ → UInt32} {flat : List UInt8} {N S m : ℕ}
    {buf buf' : HintBuffers} (h : singlePassAnswer B rnd flat N S m buf = some buf') :
    buf.parities ≠ [] := by
  intro hnil
  rw [singlePassAnswer, if_pos (Or.inr (Or.inl hnil))] at h
  cases h

/-- The pass draws permutations of no more columns than the server counts. -/
theorem cUint_div_le (S H : ℕ) : cUint (S * H) / cUint S ≤ H := by
  apply Nat.div_le_of_le_mul
  calc cUint (S * H) = cUint (cUint S * H) := (Nat.mod_mul_mod S H _).symm
    _ ≤ cUint S * H := cUint_le _

theorem cUint_ne_zero_of_mul {S H : ℕ} (h : cUint (S * H) ≠ 0) : cUint H ≠ 0 := by
  intro h0
  apply h
  calc cUint (S * H) = cUint (S * cUint H) := (Nat.mul_mod_mod S H _).symm
    _ = 0 := by rw [h0]; rfl

/-- `InitClient` cuts arrays of `SetSize * NHints` cells into their blocks. -/
theorem initClient_eq {resp : SinglePassHintResp} (hH : 0 < resp.nHints)
    (hperm : resp.permutations.length = resp.setSize * resp.nHints)
    (hinv : resp.inversePermutations.length = resp.setSize * resp.nHints) :
    resp.initClient = some
      { nRows := resp.nRows, rowLen := resp.rowLen, setSize := resp.setSize, hints := resp.hints
        nHints := resp.nHints, currVersion := resp.version
        idxToSetIdx := (List.range resp.setSize).map fun j =>
          (resp.permutations.drop (j * resp.nHints)).take resp.nHints
        setIdxToIdx := (List.range resp.setSize).map fun j =>
          (resp.inversePermutations.drop (j * resp.nHints)).take resp.nHints } := by
  have hloop := initStateLoop_spec hH hperm (fun j hj => slice_block hperm hj)
    (fun j hj => slice_block hinv hj) resp.permutations.length 0 (Nat.zero_le _)
    (by rw [hperm]; exact Nat.le_mul_of_pos_right _ hH)
  simp only [Nat.not_lt_zero, if_false, List.map_const', List.length_range, Nat.zero_mul] at hloop
  rw [SinglePassHintResp.initClient, SinglePassClient.initState, hloop]
  rfl

/-- A block of an array of positions. -/
theorem isPositions_block {S H j : ℕ} {l : List ℕ} (hlen : l.length = S * H)
    (hlt : ∀ pos ∈ l, pos < H) (hj : j < S) : IsPositions H ((l.drop (j * H)).take H) := by
  constructor
  · apply length_slice
    rw [hlen]
    exact block_end_le hj
  · intro pos hpos
    exact hlt pos (List.mem_of_mem_drop (List.mem_of_mem_take hpos))

/-- **The arrays of every client** that the server and `InitClient` make, whatever the set size. -/
theorem client_shaped {B : Build} {rnd : ℕ → UInt32} {req : SinglePassHintReq} {db : StaticDB}
    (h : (req.process B rnd db).bind SinglePassHintResp.initClient = some c) :
    c.Shaped db.rowLen ∧ c.nRows = db.numRows ∧ c.currVersion = db.version := by
  rw [Option.bind_eq_some_iff] at h
  obtain ⟨resp, hproc, hinit⟩ := h
  rw [SinglePassHintReq.process] at hproc
  dsimp only at hproc
  generalize (if req.setSize ≠ 0 then req.setSize else intSqrt db.numRows) = S at hproc
  split_ifs at hproc with hS
  simp only [Option.bind_eq_bind, Option.bind_eq_some_iff, Option.some.injEq] at hproc
  obtain ⟨buf, hpass, hints, hhints, rfl⟩ := hproc
  have hrows : db.numRows = S * (db.numRows / S) := by
    apply Nat.le_antisymm _ (Nat.mul_div_le _ _)
    apply Nat.le_of_not_lt
    intro hlt
    have hlen := singlePassAnswer_length hpass
    rw [List.length_replicate] at hlen
    rw [initClient_eq_none_of_lt (hlen ▸ hlt)] at hinit
    cases hinit
  have hsize : db.numRows / S * db.rowLen ≠ 0 := by simpa using singlePassAnswer_parities hpass
  generalize db.numRows / S = H at *
  obtain ⟨hH, hn⟩ := Nat.mul_ne_zero_iff.mp hsize
  have hzero : ∀ pos ∈ List.replicate db.numRows 0, pos < H := by
    intro pos hpos
    rw [List.eq_of_mem_replicate hpos]
    exact Nat.pos_of_ne_zero hH
  obtain ⟨hcolumns, hpositions⟩ := singlePassAnswer_positions hpass (hrows ▸ cUint_div_le S H)
    ⟨rfl, rfl, hzero, hzero⟩
  have hpermlen := hpositions.permutations_length
  have hinvlen := hpositions.inverse_length
  rw [List.length_replicate, hrows] at hpermlen hinvlen
  rw [initClient_eq (Nat.pos_of_ne_zero hH) hpermlen hinvlen, Option.some.injEq] at hinit
  have hlens : hints.map List.length = (List.range H).map fun _ => db.rowLen := by
    apply map_of_mapM _ _ _ hhints
    intro i _ hint hslice
    rw [length_of_slice hslice, Nat.mul_succ, Nat.add_sub_cancel_left]
  rw [← hinit]
  refine ⟨⟨rfl, Nat.pos_of_ne_zero hn, ?_, hrows, ?_, ?_, ?_, ?_, ?_, ?_⟩, rfl, rfl⟩
  · apply @cUint_ne_zero_of_mul S
    intro h0
    apply hcolumns
    rw [hrows, h0, Nat.zero_div]
  · simpa using congrArg List.length hlens
  · intro hint hmem
    have hlen := List.mem_map_of_mem (f := List.length) hmem
    rw [hlens] at hlen
    obtain ⟨_, -, heq⟩ := List.mem_map.mp hlen
    exact heq.symm
  · simp
  · simp
  · intro perm hmem
    obtain ⟨j, hj, rfl⟩ := List.mem_map.mp hmem
    exact isPositions_block hpermlen hpositions.permutations_lt (List.mem_range.mp hj)
  · intro inverse hmem
    obtain ⟨j, hj, rfl⟩ := List.mem_map.mp hmem
    exact isPositions_block hinvlen hpositions.inverse_lt (List.mem_range.mp hj)

end SinglePassPIR.Pir
