import SinglePassPIR.Psetggm.PuncAnswer

/-!
# The workspace of a generator

Where `pset_ggm_init` puts the two arrays of a generator in the workspace it is given, and what the
functions of `pset_ggm.cpp` use of them. The arrays of a `Generator` have exactly the `1 << height`
blocks that are reserved for each, and every access to them is checked: a function that returns has
used no block outside.

## Main results

* `laidOut` — both arrays lie in the workspace, one after the other.
* `psetGgmEvalPunc_isSome`, `distinct_isSome` — the accesses do not depend on what is in the buffers.
* `workspace_large_enough` — all of them together, for up to `2 ^ 26` elements.
-/

namespace SinglePassPIR.Psetggm
open Probing

/-! ## The layout -/

/-- `gen->keys`, rounded up to a multiple of 16, in 64-bit arithmetic -/
def keysAddr (workspace : ℕ) : ℕ :=
  ((workspace + 24 + (2 ^ 64 - 1)) % 2 ^ 64 / 16 + 1) * 16 % 2 ^ 64

/-- `gen->tmp` -/
def tmpAddr (workspace setSize : ℕ) : ℕ := (keysAddr workspace + 16 * 2 ^ getHeight setSize) % 2 ^ 64

/-- The arrays come after the generator, aligned, the second after the first, and end inside the
workspace. -/
structure LaidOut (workspace univSize setSize : ℕ) : Prop where
  header : workspace + 24 ≤ keysAddr workspace
  aligned : 16 ∣ keysAddr workspace
  disjoint : keysAddr workspace + 16 * 2 ^ getHeight setSize ≤ tmpAddr workspace setSize
  inside : tmpAddr workspace setSize + 16 * 2 ^ getHeight setSize ≤
    workspace + workspaceSize univSize setSize

/-- **Both arrays lie in the workspace**, wherever that is. -/
theorem laidOut {workspace univSize setSize : ℕ} (hpos : 0 < setSize) (h26 : setSize ≤ 2 ^ 26)
    (hmem : workspace + workspaceSize univSize setSize ≤ 2 ^ 64) :
    LaidOut workspace univSize setSize := by
  have hroom : 24 + 15 + 2 * 2 ^ getHeight setSize * 16 ≤ workspaceSize univSize setSize :=
    (hasWorkspace_iff hpos (h26.trans (by decide))).mpr h26
  have hone := Nat.one_le_two_pow (n := getHeight setSize)
  generalize hblocks : 2 ^ getHeight setSize = blocks at hroom hone
  have hkeys : keysAddr workspace = ((workspace + 23) / 16 + 1) * 16 := by
    rw [keysAddr]
    omega
  have htmp : tmpAddr workspace setSize = keysAddr workspace + 16 * blocks := by
    rw [tmpAddr, hblocks, hkeys]
    omega
  constructor
  · omega
  · rw [hkeys]
    exact Nat.dvd_mul_left 16 _
  · rw [htmp, hblocks]
  · rw [htmp, hblocks]
    omega

/-! ## The functions -/

variable {gen : Generator}

/-- The end of the punctured set, in blocks. -/
theorem height_lt_of_bufferSize {pset : List Block} (h : psetBufferSize gen ≤ 16 * pset.length) :
    getHeight gen.setSize - 2 < pset.length := by
  have hpos := getHeight_pos gen.setSize
  rw [psetBufferSize] at h
  split at h <;> omega

/-- One layer, whatever the punctured set and the workspace hold. -/
theorem evalPuncStep_isSome (aes : Block → Block) {pset : List Block} {pos h depth : ℕ}
    {ws : Workspace} (hpset : depth < pset.length) (hd : depth < h - 2) (hpos : pos < 2 ^ (h + 1))
    (h31 : 2 ^ (depth + 1) < 2 ^ 31) (hk : ws.keys.length = 2 ^ h) (ht : ws.tmp.length = 2 ^ h) :
    ∃ ws', evalPuncStep aes pset pos h depth ws = some ws' ∧ ws'.keys.length = 2 ^ h ∧
      ws'.tmp.length = 2 ^ h := by
  have hm : 2 ^ (depth + 1) ≤ 2 ^ h := Nat.pow_le_pow_right (by decide) (by omega)
  obtain ⟨ws', hexp, hkl, htl, -⟩ := expandLayer_spec aes hk ht hm h31
  have hnode : pos >>> (h - depth - 1) < 2 ^ h := by
    rw [Nat.shiftRight_eq_div_pow, Nat.div_lt_iff_lt_mul (Nat.two_pow_pos _), ← Nat.pow_add]
    exact hpos.trans_le (Nat.pow_le_pow_right (by decide) (by omega))
  have hwr : (pos >>> (h - depth - 1)) ^^^ 1 < ws'.keys.length := by
    rw [hkl]
    exact Nat.xor_lt_two_pow hnode (Nat.one_lt_two_pow (by omega))
  have hread : pset[depth]? = some (pset.getD depth 0) := getElem?_eq_some_getD 0 hpset
  refine ⟨{ ws' with keys := ws'.keys.set ((pos >>> (h - depth - 1)) ^^^ 1) (pset.getD depth 0) },
    ?_, by simpa using hkl, htl⟩
  rw [evalPuncStep, hexp, Option.bind_eq_bind, Option.bind_some]
  simp only [hread, writeAt_eq hwr, Option.bind_eq_bind, Option.bind_some]

/-- The loop over the elements. The output needs no room for the one at the hole. -/
theorem evalPuncElems_isSome (hgen : gen.Fits) {keys : List Block} {pos : ℕ} {elems : List ℕ}
    (hkeys : keys.length = 2 ^ getHeight gen.setSize)
    (helems : gen.setSize ≤ elems.length + if pos < gen.setSize then 1 else 0) :
    ∃ out, loop gen.setSize (evalPuncElem gen keys pos) (0, elems) = some out := by
  have key := loop_spec (n := gen.setSize) (f := evalPuncElem gen keys pos) (s := (0, elems))
    (fun i (st : ℕ × List ℕ) => st.1 + (if pos < i then 1 else 0) = i ∧
      st.2.length = elems.length) ⟨by simp, rfl⟩ ?step
  case step =>
    intro i hi ⟨outPos, out⟩ ⟨hop, hlen⟩
    dsimp only at hop hlen
    by_cases hip : i = pos
    · refine ⟨(outPos, out), if_pos hip, ?_, hlen⟩
      split_ifs at hop ⊢ <;> omega
    · have hop' : outPos < out.length := by
        split_ifs at hop helems <;> omega
      refine ⟨(outPos + 1, out.set outPos (reduceWord ((keys.getD (i / 4) 0).word (i % 4))
        gen.univSize)), ?_, ?_, by simpa using hlen⟩
      · rw [evalPuncElem, if_neg hip, keyWord_eq (hgen.leaf_lt_length hi hkeys),
          Option.bind_eq_bind, Option.bind_some, Option.bind_eq_bind, writeAt_eq hop',
          Option.bind_some]
      · split_ifs at hop ⊢ <;> omega
  cases key with
  | intro out h => exact ⟨out, h.1⟩

/-- **`pset_ggm_eval_punc` stays in the workspace**, whatever the punctured set holds. -/
theorem psetGgmEvalPunc_isSome (aes : Block → Block) (hgen : gen.Fits) {pset : List Block} {pos : ℕ}
    {elems : List ℕ} (hpset : psetBufferSize gen ≤ 16 * pset.length)
    (hpos : pos < 2 ^ (getHeight gen.setSize + 1))
    (helems : gen.setSize ≤ elems.length + if pos < gen.setSize then 1 else 0) :
    (psetGgmEvalPunc aes gen pset pos elems).isSome := by
  have hlast := height_lt_of_bufferSize hpset
  obtain ⟨ws, hloop, hkl, -⟩ := loop_spec (n := getHeight gen.setSize - 2)
    (f := evalPuncStep aes pset pos (getHeight gen.setSize)) (s := gen.ws)
    (fun _ ws => ws.keys.length = 2 ^ getHeight gen.setSize ∧
      ws.tmp.length = 2 ^ getHeight gen.setSize) ⟨gen.keys_length, gen.tmp_length⟩
    (fun depth hd ws hws => evalPuncStep_isSome aes (hd.trans hlast) hd hpos (layer_le hd).2
      hws.1 hws.2)
  have hleaf : pos >>> (getHeight gen.setSize - (getHeight gen.setSize - 2)) < ws.keys.length := by
    have hh := getHeight_pos gen.setSize
    rw [hkl, Nat.shiftRight_eq_div_pow, Nat.div_lt_iff_lt_mul (Nat.two_pow_pos _), ← Nat.pow_add]
    exact hpos.trans_le (Nat.pow_le_pow_right (by decide) (by omega))
  have hread : pset[getHeight gen.setSize - 2]? = some (pset.getD (getHeight gen.setSize - 2) 0) :=
    getElem?_eq_some_getD 0 hlast
  obtain ⟨out, hfill⟩ := @evalPuncElems_isSome gen hgen
    (ws.keys.set (pos >>> (getHeight gen.setSize - (getHeight gen.setSize - 2)))
      (pset.getD (getHeight gen.setSize - 2) 0)) pos elems (by rw [List.length_set, hkl]) helems
  rw [psetGgmEvalPunc, hloop, Option.bind_eq_bind, Option.bind_some, hread, Option.bind_eq_bind,
    Option.bind_some, writeAt_eq hleaf, Option.bind_eq_bind, Option.bind_some,
    intLoop_eq hgen.setSize_lt, hfill]
  rfl

/-- The loop of `distinct` keeps to the table, and a free slot ends every probe. An element of more
than 32 bits is cut when it is stored. -/
theorem distinctLoop_isSome {elems table : List ℕ} {tableSize remaining i : ℕ} (hpos : 0 < tableSize)
    (h32 : tableSize ≤ 2 ^ 32) (hlen : tableSize ≤ table.length)
    (hcard : (occupied 0 tableSize (table.getD · 0)).card ≤ i) (hroom : i + remaining ≤ tableSize)
    (helems : i + remaining ≤ elems.length) :
    (distinctLoop elems tableSize remaining i table).isSome := by
  induction remaining generalizing i table with
  | zero => rfl
  | succ remaining ih =>
      obtain ⟨z, hz, hzero⟩ := exists_free (hcard.trans_lt (by omega : i < tableSize))
      obtain ⟨k, hk, hstop⟩ := @exists_stopsAt ℕ 0 tableSize (fasthash · tableSize)
        (table.getD · 0) _ z hz hzero (elems.getD i 0)
      have hstart : slotAt tableSize (fasthash (elems.getD i 0) tableSize) 0 =
          fasthash (elems.getD i 0) tableSize := Nat.mod_eq_of_lt (fasthash_lt _ hpos h32)
      have hprobe := probe_eq hpos hlen hstop (tableSize + 2) (Nat.zero_le k) (by omega)
      rw [hstart] at hprobe
      rw [distinctLoop, getElem?_eq_some_getD 0 (by omega : i < elems.length), Option.bind_eq_bind,
        Option.bind_some, hprobe]
      split_ifs with hfree
      · have hslot := (slotAt_lt hpos (fasthash (elems.getD i 0) tableSize) k).trans_le hlen
        apply ih (by rwa [List.length_set]) ?_ (by omega) (by omega)
        rw [getD_set_eq_update hslot]
        exact (card_occupied_update_le _ _ _).trans (Nat.add_le_add_right hcard 1)
      · rfl

/-- **`distinct` stays in the workspace** and returns, whatever the elements are. -/
theorem distinct_isSome {elems : List ℕ} (hne : 0 < elems.length) (hmax : elems.length ≤ 2 ^ 28)
    (hroom : elems.length ≤ gen.setSize) (hset : gen.setSize ≤ 2 ^ 32) :
    (distinct gen elems elems.length).isSome := by
  have hle := le_roundToPowerOf2 (v := elems.length * 4) (by omega) (by omega)
  have h30 := roundToPowerOf2_le (v := elems.length * 4) (k := 30) (by omega) (by omega) (by omega)
  obtain ⟨table, hstart, hlen, hempty⟩ := distinct_cleared elems hne hmax hroom hset
  rw [hstart]
  exact distinctLoop_isSome (by omega) (by omega) hlen (card_occupied_cleared hempty).le (by omega)
    (by omega)

/-- **The workspace is large enough** for up to `2 ^ 26` elements: the two arrays are laid out inside
it, and every access of the four functions to them, and to a buffer for a punctured set, is inside.
What the arrays hold does not matter. -/
theorem workspace_large_enough (aes : Block → Block) {gen : Generator} {workspace : ℕ}
    (hpos : 0 < gen.setSize) (h26 : gen.setSize ≤ 2 ^ 26)
    (hmem : workspace + workspaceSize gen.univSize gen.setSize ≤ 2 ^ 64) :
    LaidOut workspace gen.univSize gen.setSize ∧
      (∀ seed elems, elems.length = gen.setSize → (psetGgmEval aes gen seed elems).isSome) ∧
      (∀ seed pos pset, 16 * pset.length = psetBufferSize gen →
        (psetGgmPunc aes gen seed pos pset).isSome) ∧
      (∀ pset pos elems, 16 * pset.length = psetBufferSize gen → pos < gen.setSize →
        elems.length = gen.setSize - 1 → (psetGgmEvalPunc aes gen pset pos elems).isSome) ∧
      ∀ elems, elems.length = gen.setSize → (distinct gen elems gen.setSize).isSome := by
  have hgen : gen.Fits := ⟨hpos, h26.trans_lt (by decide)⟩
  refine ⟨laidOut hpos h26 hmem, ?_, ?_, ?_, ?_⟩
  · intro seed elems helems
    rw [psetGgmEval_spec aes hgen seed helems]
    rfl
  · intro seed pos pset hpset
    obtain ⟨pset', hpunc, -⟩ := psetGgmPunc_spec aes gen seed pos hpset
    rw [hpunc]
    rfl
  · intro pset pos elems hpset hhole helems
    apply psetGgmEvalPunc_isSome aes hgen hpset.ge
    · exact (hhole.trans_le (le_two_pow_getHeight hpos hgen.setSize_le)).trans
        (Nat.pow_lt_pow_right (by decide) (Nat.lt_succ_self _))
    · rw [if_pos hhole]
      omega
  · intro elems helems
    rw [← helems]
    exact distinct_isSome (by omega) (by omega) helems.le hgen.setSize_le

theorem workspace_large_enough_three :
    LaidOut 40 9 3 ∧
      (∀ seed elems, elems.length = 3 →
        (psetGgmEval id (psetGgmInit 9 3 fun _ => 0) seed elems).isSome) ∧
      (∀ seed pos pset, 16 * pset.length = psetBufferSize (psetGgmInit 9 3 fun _ => 0) →
        (psetGgmPunc id (psetGgmInit 9 3 fun _ => 0) seed pos pset).isSome) ∧
      (∀ pset pos elems, 16 * pset.length = psetBufferSize (psetGgmInit 9 3 fun _ => 0) → pos < 3 →
        elems.length = 3 - 1 →
        (psetGgmEvalPunc id (psetGgmInit 9 3 fun _ => 0) pset pos elems).isSome) ∧
      ∀ elems, elems.length = 3 → (distinct (psetGgmInit 9 3 fun _ => 0) elems 3).isSome :=
  @workspace_large_enough id (psetGgmInit 9 3 fun _ => 0) 40 (by decide) (by decide) (by decide)

end SinglePassPIR.Psetggm
