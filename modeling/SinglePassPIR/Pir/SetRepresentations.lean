import SinglePassPIR.Pir.PSet
import Mathlib.Data.UInt

/-!
# The representations of a set

A generated set exists as its elements, as the key that names it, and, punctured at a member, as
the keys that go to the server. The client lists a punctured set with `PuncturedSet.Eval`, and the
server turns it into offsets in `answer`. All of them list the same elements.

A generator of more than `2 ^ 26` elements generates nothing: the size of its workspace does not
fit the 32 bits of `workspace_size`.

## Main results

* `IsSet.represented` — what the representations of a set of a generator list.
* `representations_agree` — they agree for every set that `Gen` or `GenWith` returns.
-/

namespace SinglePassPIR.Pir
open Psetggm

/-- `PuncturedSet.Eval` -/
def PuncturedSet.eval (env : Env) (pset : PuncturedSet) : Outcome (List ℕ) := do
  let baseGen : GGMSetGeneratorC := ⟨pset.univSize, pset.setSize + 1⟩
  let elems ← Outcome.ofOption
    (baseGen.evalPunctured env.toPlatform pset.keys pset.hole (List.replicate pset.setSize 0))
  Outcome.ofOption (shiftElems pset.univSize pset.shift elems)

namespace SetGenerator
variable {env : Env} {gen gen' : SetGenerator} {pset : PuncturableSet}

/-- Every representation of `pset` lists its elements. -/
structure Represented (env : Env) (gen : SetGenerator) (pset : PuncturableSet) : Prop where
  elems_lt : ∀ e ∈ pset.elems, e < gen.univSize
  eval_eq : ∃ p, gen.eval env pset.key = .ok p ∧ p.elems = pset.elems
  /-- Whatever the reused set holds. -/
  evalInPlace_eq : ∀ reused, ∃ p, gen.evalInPlace env pset.key reused = .ok p ∧ p.elems = pset.elems
  /-- A punctured set lists the elements less the first occurrence of the one at the hole, on the
  client and, as offsets, on the server. -/
  punc_eq : ∀ idx ∈ pset.elems, ∃ key, gen.punc env pset idx = .ok key ∧
    key.eval env = .ok (pset.elems.erase idx) ∧
    ∀ rowLen < 2 ^ 32, answerOffsets env.toPlatform key.keys (cUint key.hole) (cUint key.univSize)
      (cUint key.setSize) (cUint key.shift) (cUint rowLen) =
        some ((pset.elems.erase idx).map (· * rowLen))

/-- The numbers in a punctured set, from those of its generator. -/
theorem Stands.sizes {idx : ℕ} {q : PuncturedSet} (hq : q.Stands env pset idx)
    (hgen : gen.baseGen.Fits) (h : gen.IsSet env pset) (hidx : idx ∈ pset.elems) :
    q.hole < gen.setSize ∧ q.univSize = gen.univSize ∧ q.setSize + 1 = gen.setSize ∧
      q.shift < 2 ^ 31 := by
  have hpos : 0 < gen.setSize := hgen.setSize_pos
  have hlen : pset.elems.length = gen.setSize := by rw [h.elems_eq, length_members]
  refine ⟨?_, hq.univSize_eq.trans h.univSize_eq, ?_, hq.shift_eq ▸ h.shift_lt⟩
  · rw [hq.hole_eq, ← hlen]
    exact List.idxOf_lt_length_of_mem hidx
  · rw [hq.setSize_eq, h.setSize_eq]
    omega

/-- A punctured set on the client. -/
theorem Stands.eval_eq (hgen : gen.baseGen.Fits) (hset : 1 < gen.setSize) (h : gen.IsSet env pset)
    {idx : ℕ} (hidx : idx ∈ pset.elems) {q : PuncturedSet} (hq : q.Stands env pset idx) :
    q.eval env = .ok (pset.elems.erase idx) := by
  obtain ⟨hhole, huniv, hsize, hshift⟩ := Stands.sizes hq hgen h hidx
  have hkeys : IsPunctured env.aes pset.seed (getHeight gen.setSize) q.hole q.keys :=
    h.setSize_eq ▸ hq.keys
  have hbuf : (List.replicate q.setSize 0).length = gen.setSize - 1 := by
    rw [List.length_replicate]
    omega
  have heval : gen.baseGen.evalPunctured env.toPlatform q.keys q.hole (List.replicate q.setSize 0) =
      some ((ggmElems env.aes gen.univSize gen.setSize pset.seed).eraseIdx q.hole) :=
    ggmEvalPunctured_spec env.toPlatform hgen hkeys hhole hbuf hset
  have hlt : ∀ e ∈ (ggmElems env.aes gen.univSize gen.setSize pset.seed).eraseIdx q.hole,
      e < gen.univSize := fun e he =>
    ggmElems_lt hgen.univSize_pos (hgen.univSize_le.trans (by decide)) (List.mem_of_mem_eraseIdx he)
  have hshifted : shiftElems gen.univSize q.shift
      ((ggmElems env.aes gen.univSize gen.setSize pset.seed).eraseIdx q.hole) = _ :=
    shiftElems_of_lt hgen.univSize_pos hgen.univSize_le hshift hlt
  have hbase : (⟨q.univSize, q.setSize + 1⟩ : GGMSetGeneratorC) = gen.baseGen := by
    rw [huniv, hsize]
    rfl
  have herase : pset.elems.erase idx =
      ((ggmElems env.aes gen.univSize gen.setSize pset.seed).eraseIdx q.hole).map
        fun e => (e + q.shift) % gen.univSize := by
    rw [← List.eraseIdx_idxOf_eq_erase, ← hq.hole_eq, h.elems_eq, members, shiftedElems,
      List.eraseIdx_map, ← h.seed_eq, hq.shift_eq]
  rw [PuncturedSet.eval, hbase, heval, Outcome.ofOption_some, Outcome.ok_bind, huniv,
    hshifted, herase]
  rfl

/-- A punctured set on the server. -/
theorem Stands.answerOffsets_eq (hgen : gen.baseGen.Fits) (h : gen.IsSet env pset) {idx : ℕ}
    (hidx : idx ∈ pset.elems) {q : PuncturedSet} (hq : q.Stands env pset idx) {rowLen : ℕ}
    (hrow : rowLen < 2 ^ 32) :
    answerOffsets env.toPlatform q.keys (cUint q.hole) (cUint q.univSize) (cUint q.setSize)
      (cUint q.shift) (cUint rowLen) = some ((pset.elems.erase idx).map (· * rowLen)) := by
  have hpos : 0 < gen.setSize := hgen.setSize_pos
  have hmax : gen.setSize ≤ 2 ^ 26 := hgen.setSize_le
  obtain ⟨hhole, huniv, hsize, hshift⟩ := Stands.sizes hq hgen h hidx
  have hkeys : IsPunctured env.aes pset.seed (getHeight (q.setSize + 1)) q.hole q.keys := by
    rw [hsize]
    exact h.setSize_eq ▸ hq.keys
  have huniv32 : q.univSize ≤ 2 ^ 31 := huniv ▸ hgen.univSize_le
  have hoffsets := answerOffsets_spec env.toPlatform (huniv ▸ hgen.univSize_pos) huniv32
    (hsize ▸ hmax) hkeys (hsize ▸ hhole) (hshift.trans (by decide)) hrow
  have helems : shiftedElems env.aes q.univSize (q.setSize + 1) pset.seed q.shift = pset.elems := by
    rw [h.elems_eq, members, huniv, hsize, h.seed_eq, hq.shift_eq]
  rw [cUint_eq (by omega), cUint_eq (by omega), cUint_eq (by omega), cUint_eq (by omega),
    cUint_eq hrow, hoffsets, helems, hq.hole_eq, List.eraseIdx_idxOf_eq_erase]

/-- **The representations of a set of a generator.** -/
theorem IsSet.represented (hgen : gen.baseGen.Fits) (hset : 1 < gen.setSize)
    (h : gen.IsSet env pset) : gen.Represented env pset := by
  have hlen : pset.elems.length = gen.setSize := by rw [h.elems_eq, length_members]
  constructor
  · intro e he
    rw [h.elems_eq] at he
    exact members_lt hgen he
  · exact ⟨_, eval_spec hgen h.shift_lt, h.elems_eq.symm⟩
  · intro reused
    exact ⟨_, evalInPlace_spec hgen h.shift_lt reused, h.elems_eq.symm⟩
  · intro idx hidx
    obtain ⟨q, hpunc, hq⟩ := punc_spec hgen h.setSize_eq hlen hidx
    exact ⟨q, hpunc, Stands.eval_eq hgen hset h hidx hq, fun rowLen hrow =>
      Stands.answerOffsets_eq hgen h hidx hq hrow⟩

/-- A generator without a workspace generates nothing. -/
theorem gen_of_large (hlarge : 2 ^ 26 < gen.setSize) (h32 : gen.setSize < 2 ^ 32)
    (elems : List ℕ) : gen.gen env elems = .error .fault := by
  obtain ⟨fuel, hfuel⟩ : ∃ fuel, 2 ^ 32 = fuel + 1 := ⟨2 ^ 32 - 1, rfl⟩
  have hnone : ∀ seed elems, gen.baseGen.eval env.toPlatform seed elems = none := by
    intro seed elems
    rw [GGMSetGeneratorC.eval, cgen_eq_none env.toPlatform hlarge h32]
    rfl
  rw [SetGenerator.gen, hfuel, genLoop, hnone]
  rfl

/-- The set of a generator after more sets have been generated. -/
theorem Generated.isSet {r : PuncturableSet × SetGenerator} (h : gen.Generated env r) :
    r.2.IsSet env r.1 ∧ r.2.setSize = gen.setSize ∧ r.2.univSize = gen.univSize := by
  obtain ⟨hset, m, -, -, hgen⟩ := h
  rw [hgen]
  exact ⟨⟨hset.univSize_eq, hset.setSize_eq, hset.seed_eq, hset.elems_eq, hset.shift_lt⟩, rfl, rfl⟩

theorem Generated.represented {r : PuncturableSet × SetGenerator} (hfits : gen.baseGen.Fits)
    (hset : 1 < gen.setSize) (h : gen.Generated env r) : r.2.Represented env r.1 := by
  obtain ⟨hisSet, hsize, huniv⟩ := h.isSet
  have hbase : r.2.baseGen = gen.baseGen := by rw [baseGen, baseGen, hsize, huniv]
  exact hisSet.represented (hbase ▸ hfits) (hsize ▸ hset)

/-- **All representations denote the same set**, for every set that `Gen`, with any reused set, or
`GenWith` returns. -/
theorem representations_agree (env : Env) (hset : 1 < gen.setSize)
    (hle : gen.setSize ≤ gen.univSize) (hmax : gen.univSize ≤ 2 ^ 31) :
    (∀ reused r, gen.generate env reused = .ok r → r.2.Represented env r.1) ∧
    ∀ val < gen.univSize, ∀ r, gen.genWith env val = .ok r →
      r.2.Represented env r.1 ∧ val ∈ r.1.elems := by
  by_cases hlarge : 2 ^ 26 < gen.setSize
  · have hfault : ∀ elems, gen.gen env elems = .error .fault := gen_of_large hlarge (by omega)
    constructor
    · intro reused r hr
      rw [generate, hfault] at hr
      cases hr
    · intro val _ r hr
      rw [genWith, hfault] at hr
      cases hr
  · have hfits : gen.baseGen.Fits := ⟨by
      change 0 < gen.setSize
      omega, Nat.le_of_not_lt hlarge, by
      change 0 < gen.univSize
      omega, hmax⟩
    constructor
    · intro reused r hr
      exact ((generate_spec hfits reused).of_ok hr).represented hfits hset
    · intro val hval r hr
      obtain ⟨hgenerated, hmem⟩ := (genWith_spec hfits hval).of_ok hr
      exact ⟨hgenerated.represented hfits hset, hmem⟩

/-- A cipher whose blocks name two distinct elements of a universe of four. -/
def twoElemsEnv : Env := .withXor ⟨.sse, id, fun _ => 0⟩ fun _ _ => ⟨0, 2 ^ 31, 0, 0⟩

theorem representations_agree_two_elems :
    (∀ reused r, generate twoElemsEnv ⟨0, 0, 4, 2⟩ reused = .ok r →
      r.2.Represented twoElemsEnv r.1) ∧
    ∀ val < 4, ∀ r, genWith twoElemsEnv ⟨0, 0, 4, 2⟩ val = .ok r →
      r.2.Represented twoElemsEnv r.1 ∧ val ∈ r.1.elems :=
  @representations_agree ⟨0, 0, 4, 2⟩ twoElemsEnv (by decide) (by decide) (by decide)

example : (genWith twoElemsEnv ⟨0, 0, 4, 2⟩ 3).map (·.1.elems) = .ok [3, 1] := by decide +kernel

end SetGenerator

end SinglePassPIR.Pir
