import SinglePassPIR.Psetggm.Distinct

/-!
# The generator of sets

The Go wrappers of the set generator (`pset_ggm_c.go`). `NewGGMSetGeneratorC` asks C for the size of
the workspace, which `workspace_size` computes in 32-bit arithmetic, and lays the two arrays of a
`Generator` out in as many bytes. For more than `2 ^ 26` elements the size does not fit, the
workspace is too small, and a call that uses it runs out of it.

What the wrappers depend on besides their arguments is collected in `Platform`: the
build, the fixed-key cipher, and the contents of the memory that a generator works in.
The Go side keeps one generator for many calls, so that a call finds in it what the
earlier ones have left; here every call finds the same arbitrary contents, and by
`psetGgmEval_spec` and `psetGgmEvalPunc_spec` its result does not depend on them.

## Main results

* `psetGgm_punctured_iff` — the generators for which punctured evaluation is full evaluation less
  the hole.
* `distinct_exact_iff` — the lists on which the duplicate test is exact.
-/

namespace SinglePassPIR.Psetggm

/-- What the C code depends on besides its arguments. -/
structure Platform where
  build : Build
  /-- `mAesFixedKey` -/
  aes : Block → Block
  mem : ℕ → Block

/-- `workspace_size`, in 32-bit arithmetic; a `generator` has 24 bytes. -/
def workspaceSize (_univSize setSize : ℕ) : ℕ :=
  (24 + 2 * 2 ^ getHeight setSize * 16 + 32) % 2 ^ 32

/-- The two arrays that `pset_ggm_init` lays out end inside a workspace of the announced size,
however much of it the alignment takes. -/
def HasWorkspace (univSize setSize : ℕ) : Prop :=
  24 + 15 + 2 * 2 ^ getHeight setSize * 16 ≤ workspaceSize univSize setSize

instance (univSize setSize : ℕ) : Decidable (HasWorkspace univSize setSize) :=
  inferInstanceAs (Decidable (_ ≤ _))

/-- `GGMSetGeneratorC`, by its sizes -/
structure GGMSetGeneratorC where
  univSize : ℕ
  setSize : ℕ
  deriving DecidableEq, Repr

namespace GGMSetGeneratorC

/-- `NewGGMSetGeneratorC`: the C generator behind the Go one. Work in a workspace that is too
small for the generator runs out of it. -/
def cgen (pl : Platform) (gen : GGMSetGeneratorC) : Option Generator :=
  if HasWorkspace (cUint gen.univSize) (cUint gen.setSize)
  then some (psetGgmInit (cUint gen.univSize) (cUint gen.setSize) pl.mem) else none

/-- `GGMSetGeneratorC.Eval` -/
def eval (pl : Platform) (gen : GGMSetGeneratorC) (seed : Block) (elems : List ℕ) :
    Option (List ℕ) := do
  let cgen ← gen.cgen pl
  if elems = [] then none else psetGgmEval pl.aes cgen seed elems

/-- `GGMSetGeneratorC.Punc`; the keys are a whole number of blocks. -/
def punc (pl : Platform) (gen : GGMSetGeneratorC) (seed : Block) (pos : ℕ) :
    Option (List Block) := do
  let cgen ← gen.cgen pl
  psetGgmPunc pl.aes cgen seed (cUint pos) (List.replicate (psetBufferSize cgen / 16) 0)

/-- `GGMSetGeneratorC.EvalPunctured` -/
def evalPunctured (pl : Platform) (gen : GGMSetGeneratorC) (pset : List Block) (hole : ℕ)
    (elems : List ℕ) : Option (List ℕ) := do
  let cgen ← gen.cgen pl
  if pset = [] ∨ elems = [] then none else psetGgmEvalPunc pl.aes cgen pset (cUint hole) elems

/-- `GGMSetGeneratorC.Distinct` -/
def distinct (pl : Platform) (gen : GGMSetGeneratorC) (elems : List ℕ) : Option Bool := do
  let cgen ← gen.cgen pl
  if elems = [] then none else Psetggm.distinct cgen elems (cUint elems.length)

end GGMSetGeneratorC

/-! ## The wrappers of the generator -/

/-- The workspace has room up to `2 ^ 26` elements; for more its size does not fit 32 bits. -/
theorem hasWorkspace_iff {univSize setSize : ℕ} (hpos : 0 < setSize) (h32 : setSize ≤ 2 ^ 32) :
    HasWorkspace univSize setSize ↔ setSize ≤ 2 ^ 26 := by
  rw [HasWorkspace, workspaceSize]
  have hlog := getHeight_eq hpos h32
  by_cases h : getHeight setSize ≤ 26
  · have hpow : 2 ^ getHeight setSize ≤ 2 ^ 26 := Nat.pow_le_pow_right (by decide) h
    have hle := le_two_pow_getHeight hpos h32
    rw [Nat.mod_eq_of_lt (by omega)]
    constructor
    · intro _
      omega
    · intro _
      omega
  · obtain ⟨m, hm⟩ : ∃ m, getHeight setSize = m + 27 := ⟨getHeight setSize - 27, by omega⟩
    have hpow : 2 * 2 ^ getHeight setSize * 16 = 2 ^ 32 * 2 ^ m := by
      rw [hm, Nat.pow_add]
      ring
    have hone := Nat.two_pow_pos m
    have hmod : (24 + 2 ^ 32 * 2 ^ m + 32) % 2 ^ 32 = 56 := by omega
    have hlt : ¬setSize ≤ 2 ^ 26 := by
      intro hle
      have hsmall : Nat.log2 (setSize - 1) < 26 := by
        by_cases h0 : setSize - 1 = 0
        · rw [h0]
          decide
        · exact (Nat.log2_lt h0).mpr (by omega)
      omega
    rw [hpow, hmod]
    constructor
    · intro _
      omega
    · intro hle
      exact absurd hle hlt

/-- The sizes a set generator can have. -/
structure GGMSetGeneratorC.Fits (gen : GGMSetGeneratorC) : Prop where
  setSize_pos : 0 < gen.setSize
  setSize_le : gen.setSize ≤ 2 ^ 26
  univSize_pos : 0 < gen.univSize
  univSize_le : gen.univSize ≤ 2 ^ 31

section Wrappers
variable (pl : Platform) {gen : GGMSetGeneratorC}

/-- Up to `2 ^ 26` elements, whatever the universe. -/
theorem cgen_of_le (hpos : 0 < gen.setSize) (hle : gen.setSize ≤ 2 ^ 26) :
    gen.cgen pl = some (psetGgmInit (cUint gen.univSize) gen.setSize pl.mem) := by
  rw [GGMSetGeneratorC.cgen, cUint_eq (hle.trans_lt (by decide)), if_pos]
  exact (hasWorkspace_iff hpos (hle.trans (by decide))).mpr hle

theorem cgen_eq (hgen : gen.Fits) :
    gen.cgen pl = some (psetGgmInit gen.univSize gen.setSize pl.mem) := by
  rw [cgen_of_le pl hgen.setSize_pos hgen.setSize_le,
    cUint_eq (hgen.univSize_le.trans_lt (by decide))]

/-- A generator of more than `2 ^ 26` elements has no room to work in. -/
theorem cgen_eq_none (hlarge : 2 ^ 26 < gen.setSize) (h32 : gen.setSize < 2 ^ 32) :
    gen.cgen pl = none := by
  rw [GGMSetGeneratorC.cgen, cUint_eq h32, if_neg]
  rw [hasWorkspace_iff (by omega) h32.le]
  omega

attribute [irreducible] GGMSetGeneratorC.cgen

theorem cgen_fits (hgen : gen.Fits) : (psetGgmInit gen.univSize gen.setSize pl.mem).Fits :=
  ⟨hgen.setSize_pos, hgen.setSize_le.trans_lt (by decide)⟩

/-- `Eval` returns the elements of the set, for every universe. -/
theorem ggmEval_of_le (hpos : 0 < gen.setSize) (hle : gen.setSize ≤ 2 ^ 26) (seed : Block)
    {elems : List ℕ} (helems : elems.length = gen.setSize) :
    gen.eval pl seed elems =
      some (ggmElems pl.aes (cUint gen.univSize) gen.setSize seed) := by
  have hfits : (psetGgmInit (cUint gen.univSize) gen.setSize pl.mem).Fits :=
    ⟨hpos, hle.trans_lt (by decide)⟩
  rw [GGMSetGeneratorC.eval, cgen_of_le pl hpos hle, Option.bind_eq_bind, Option.bind_some,
    if_neg (List.ne_nil_of_length_pos (helems ▸ hpos))]
  exact psetGgmEval_spec pl.aes hfits seed helems

/-- `Eval` returns the elements of the set. -/
theorem ggmEval_spec (hgen : gen.Fits) (seed : Block) {elems : List ℕ}
    (helems : elems.length = gen.setSize) :
    gen.eval pl seed elems = some (ggmElems pl.aes gen.univSize gen.setSize seed) := by
  rw [ggmEval_of_le pl hgen.setSize_pos hgen.setSize_le seed helems,
    cUint_eq (hgen.univSize_le.trans_lt (by decide))]

/-- `Distinct` says whether the elements other than `0` are distinct, for every universe. -/
theorem ggmDistinct_of_le (hle : gen.setSize ≤ 2 ^ 26) {elems : List ℕ} (hne : elems ≠ [])
    (hroom : elems.length ≤ gen.setSize) (hlt : ∀ e ∈ elems, e < 2 ^ 32) :
    gen.distinct pl elems = some (decide (elems.filter (· ≠ 0)).Nodup) := by
  have hpos : 0 < elems.length := List.length_pos_of_ne_nil hne
  rw [GGMSetGeneratorC.distinct, cgen_of_le pl (hpos.trans_le hroom) hle, Option.bind_eq_bind,
    Option.bind_some, if_neg hne, cUint_eq (by omega : elems.length < 2 ^ 32)]
  exact distinct_eq hpos (by omega) hroom (hle.trans (by decide)) hlt

/-- `Distinct` says whether the elements other than `0` are distinct. -/
theorem ggmDistinct_spec (hgen : gen.Fits) {elems : List ℕ} (helems : elems.length = gen.setSize)
    (hlt : ∀ e ∈ elems, e < gen.univSize) :
    gen.distinct pl elems = some (decide (elems.filter (· ≠ 0)).Nodup) := by
  have huniv := hgen.univSize_le
  have hne : elems ≠ [] := List.ne_nil_of_length_pos (helems ▸ hgen.setSize_pos)
  refine ggmDistinct_of_le pl hgen.setSize_le hne helems.le fun e he => ?_
  exact (hlt e he).trans_le (huniv.trans (by decide))

/-- `Punc` returns a punctured set. -/
theorem ggmPunc_spec (hgen : gen.Fits) (seed : Block) {pos : ℕ} (hpos : pos < gen.setSize) :
    ∃ keys, gen.punc pl seed pos = some keys ∧
      IsPunctured pl.aes seed (getHeight gen.setSize) pos keys := by
  set cgen := psetGgmInit gen.univSize gen.setSize pl.mem with hcgen
  have hsize : 16 * (List.replicate (psetBufferSize cgen / 16) (0 : Block)).length =
      psetBufferSize cgen := by
    rw [List.length_replicate, psetBufferSize]
    split_ifs <;> omega
  have hpos32 : pos < 2 ^ 32 := hpos.trans (hgen.setSize_le.trans_lt (by decide))
  obtain ⟨keys, hk, hp⟩ := psetGgmPunc_spec pl.aes cgen seed pos hsize
  refine ⟨keys, ?_, hp⟩
  rw [GGMSetGeneratorC.punc, cgen_eq pl hgen, Option.bind_eq_bind, Option.bind_some, ← hcgen,
    cUint_eq hpos32, hk]

/-- `EvalPunctured` returns the elements of the set less the one at the hole. -/
theorem ggmEvalPunctured_spec (hgen : gen.Fits) {seed : Block} {keys : List Block} {hole : ℕ}
    {elems : List ℕ} (hkeys : IsPunctured pl.aes seed (getHeight gen.setSize) hole keys)
    (hhole : hole < gen.setSize) (helems : elems.length = gen.setSize - 1) (hset : 1 < gen.setSize) :
    gen.evalPunctured pl keys hole elems =
      some ((ggmElems pl.aes gen.univSize gen.setSize seed).eraseIdx hole) := by
  have hkne : keys ≠ [] := List.ne_nil_of_length_pos (Nat.zero_lt_of_lt hkeys.length)
  have hene : elems ≠ [] := List.ne_nil_of_length_pos (by omega)
  have hhole32 : hole < 2 ^ 32 := hhole.trans (hgen.setSize_le.trans_lt (by decide))
  rw [GGMSetGeneratorC.evalPunctured, cgen_eq pl hgen, Option.bind_eq_bind, Option.bind_some,
    if_neg (by simp [hkne, hene]), cUint_eq hhole32]
  exact psetGgmEvalPunc_spec (cgen_fits pl hgen) hkeys hhole helems

/-! ## Exactness -/

/-- A generator in a workspace that is large enough. -/
theorem setSize_le_of_cgen (h32 : gen.setSize < 2 ^ 32) {cgen : Generator}
    (h : gen.cgen pl = some cgen) : gen.setSize ≤ 2 ^ 26 := by
  by_contra hlarge
  rw [cgen_eq_none pl (Nat.lt_of_not_le hlarge) h32] at h
  cases h

end Wrappers

/-- **Punctured evaluation is full evaluation less the hole** as long as the size of the workspace
fits 32 bits, whatever the workspaces hold before each call. -/
theorem psetGgm_punctured_iff (pl : Platform) {gen : GGMSetGeneratorC} {pos : ℕ}
    (hpos : pos < gen.setSize) (h32 : gen.setSize < 2 ^ 32) (seed : Block)
    (mem₁ mem₂ mem₃ : ℕ → Block) {pset : List Block}
    (hpset : 16 * pset.length = psetBufferSize (psetGgmInit (cUint gen.univSize) gen.setSize mem₁))
    {elems out : List ℕ} (helems : elems.length = gen.setSize) (hout : out.length = gen.setSize - 1) :
    (∃ gen₁ gen₂ gen₃ pset' es, gen.cgen { pl with mem := mem₁ } = some gen₁ ∧
      gen.cgen { pl with mem := mem₂ } = some gen₂ ∧ gen.cgen { pl with mem := mem₃ } = some gen₃ ∧
      psetGgmPunc pl.aes gen₁ seed pos pset = some pset' ∧
      psetGgmEval pl.aes gen₂ seed elems = some es ∧
      psetGgmEvalPunc pl.aes gen₃ pset' pos out = some (es.eraseIdx pos)) ↔
        gen.setSize ≤ 2 ^ 26 := by
  have hset : 0 < gen.setSize := Nat.zero_lt_of_lt hpos
  constructor
  · intro ⟨_, _, _, _, _, hgen, _⟩
    exact setSize_le_of_cgen _ h32 hgen
  · intro hle
    have hfits : ∀ mem, (psetGgmInit (cUint gen.univSize) gen.setSize mem).Fits := fun mem =>
      ⟨hset, hle.trans_lt (by decide)⟩
    obtain ⟨pset', hpunc, hpunctured⟩ := psetGgmPunc_spec pl.aes _ seed pos hpset
    exact ⟨_, _, _, pset', _, cgen_of_le _ hset hle, cgen_of_le _ hset hle, cgen_of_le _ hset hle,
      hpunc, psetGgmEval_spec pl.aes (hfits mem₂) seed helems,
      psetGgmEvalPunc_spec (hfits mem₃) hpunctured hpos hout⟩

theorem psetGgm_punctured_iff_five :
    (∃ gen₁ gen₂ gen₃ pset' es,
      GGMSetGeneratorC.cgen ⟨.sse, id, fun _ => 0⟩ ⟨9, 5⟩ = some gen₁ ∧
      GGMSetGeneratorC.cgen ⟨.sse, id, fun _ => one⟩ ⟨9, 5⟩ = some gen₂ ∧
      GGMSetGeneratorC.cgen ⟨.sse, id, fun _ => one⟩ ⟨9, 5⟩ = some gen₃ ∧
      psetGgmPunc id gen₁ 0 2 [0, 0] = some pset' ∧
      psetGgmEval id gen₂ 0 [0, 0, 0, 0, 0] = some es ∧
      psetGgmEvalPunc id gen₃ pset' 2 [0, 0, 0, 0] = some (es.eraseIdx 2)) ↔ 5 ≤ 2 ^ 26 :=
  @psetGgm_punctured_iff ⟨.sse, id, fun _ => 0⟩ ⟨9, 5⟩ 2 (by decide) (by decide) 0 (fun _ => 0)
    (fun _ => one) (fun _ => one) [0, 0] (by decide +kernel) _ _ rfl rfl

/-- One element more, and the generator does not fit into the 56 bytes of its workspace. -/
theorem generator_outgrows_workspace :
    workspaceSize 1 (2 ^ 26 + 1) = 56 ∧
      ¬∃ gen₁ gen₂ gen₃ pset' es,
        GGMSetGeneratorC.cgen ⟨.sse, id, fun _ => 0⟩ ⟨1, 2 ^ 26 + 1⟩ = some gen₁ ∧
        GGMSetGeneratorC.cgen ⟨.sse, id, fun _ => 0⟩ ⟨1, 2 ^ 26 + 1⟩ = some gen₂ ∧
        GGMSetGeneratorC.cgen ⟨.sse, id, fun _ => 0⟩ ⟨1, 2 ^ 26 + 1⟩ = some gen₃ ∧
        psetGgmPunc id gen₁ 0 0 (List.replicate 26 0) = some pset' ∧
        psetGgmEval id gen₂ 0 (List.replicate (2 ^ 26 + 1) 0) = some es ∧
        psetGgmEvalPunc id gen₃ pset' 0 (List.replicate (2 ^ 26) 0) = some (es.eraseIdx 0) := by
  refine ⟨by decide +kernel, ?_⟩
  intro ⟨_, _, _, _, _, hgen, _⟩
  exact absurd (setSize_le_of_cgen _ (by decide) hgen) (by decide)

/-- **The lists on which the duplicate test is exact**, whatever the workspace holds: those in which
`0` occurs once at most or another element twice, for generators whose workspace is large enough. -/
theorem distinct_exact_iff {gen : GGMSetGeneratorC} {elems : List ℕ} (hne : elems ≠ [])
    (hroom : elems.length ≤ gen.setSize) (hset : gen.setSize < 2 ^ 32)
    (huniv : gen.univSize ≤ 2 ^ 32) (helems : ∀ e ∈ elems, e < gen.univSize) :
    (∀ pl, gen.distinct pl elems = some (decide elems.Nodup)) ↔
      gen.setSize ≤ 2 ^ 26 ∧ (elems.count 0 ≤ 1 ∨ ∃ e ≠ 0, 1 < elems.count e) := by
  by_cases hle : gen.setSize ≤ 2 ^ 26
  · have hresult : ∀ pl, gen.distinct pl elems =
        some (decide (elems.filter (· ≠ 0)).Nodup) := fun pl =>
      ggmDistinct_of_le pl hle hne hroom fun e he => (helems e he).trans_le huniv
    have hother : (elems.filter (· ≠ 0)).Nodup ↔ ¬∃ e ≠ 0, 1 < elems.count e := by
      rw [List.nodup_iff_count_le_one]
      push Not
      constructor
      · intro h e he
        have hcount := h e
        rwa [List.count_filter (by simpa using he)] at hcount
      · intro h e
        by_cases he : e = 0
        · rw [he, List.count_eq_zero_of_not_mem (by simp)]
          exact Nat.zero_le 1
        · exact (List.filter_sublist.count_le e).trans (h e he)
    simp only [hresult, Option.some.injEq, decide_eq_decide, nodup_iff_filter elems, hother]
    constructor
    · intro h
      refine ⟨hle, ?_⟩
      by_contra hcon
      rw [not_or] at hcon
      exact hcon.1 ((h ⟨.sse, id, fun _ => 0⟩).mp hcon.2).1
    · intro h _
      constructor
      · intro hnone
        exact ⟨h.2.resolve_right hnone, hnone⟩
      · intro hboth
        exact hboth.2
  · -- the generator has no room to work in
    refine iff_of_false ?_ fun h => hle h.1
    intro h
    have hnone := h ⟨.sse, id, fun _ => 0⟩
    rw [GGMSetGeneratorC.distinct, cgen_eq_none _ (Nat.lt_of_not_le hle) hset] at hnone
    cases hnone

theorem distinct_exact_iff_three :
    (∀ pl, GGMSetGeneratorC.distinct pl ⟨9, 3⟩ [4, 0, 8] = some (decide [4, 0, 8].Nodup)) ↔
      3 ≤ 2 ^ 26 ∧ ([4, 0, 8].count 0 ≤ 1 ∨ ∃ e ≠ 0, 1 < [4, 0, 8].count e) :=
  @distinct_exact_iff ⟨9, 3⟩ _ (by decide) (by decide) (by decide) (by decide) (by decide)

/-- Two zeros pass as distinct. -/
theorem two_zeros_pass :
    GGMSetGeneratorC.distinct ⟨.sse, id, fun _ => 0⟩ ⟨4, 2⟩ [0, 0] = some true ∧ ¬[0, 0].Nodup := by
  decide +kernel

end SinglePassPIR.Psetggm
