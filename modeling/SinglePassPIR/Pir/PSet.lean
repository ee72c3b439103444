import SinglePassPIR.Lib.Outcome
import SinglePassPIR.Pir.StaticDB
import SinglePassPIR.Psetggm.PuncAnswer

/-!
# Puncturable pseudorandom sets

`pset.go`. A set is named by its key, an identifier and a shift: the identifier gives the
seed of the tree, and the elements of the tree are shifted round the universe. A generator
hands out identifiers in order and skips those whose elements are not distinct.

The counter `num` is a `uint32` in the code. Here it counts without bound and the
identifier is its remainder modulo `2 ^ 32`.

## Main results

* `generate_spec`, `genWith_spec` — a generated set is the set of its key, and `genWith`
  makes one that contains a given element.
* `eval_spec` — evaluating a key gives the set again.
* `punc_spec` — puncturing a set at a member.
-/

namespace SinglePassPIR.Pir
open Psetggm

/-- What the code takes from libraries and from C. -/
structure Env extends Platform where
  /-- AES of `crypto/aes`, by key -/
  cipher : Block → Block → Block
  /-- What `fastxor.Bytes(a, a, b)` leaves in `a` -/
  fastxor : List UInt8 → List UInt8 → List UInt8
  fastxor_eq : ∀ a b, a.length = b.length → fastxor a b = xorVec a b

/-- `fastxor.Bytes` written out, with any ciphers. -/
def Env.withXor (pl : Platform) (cipher : Block → Block → Block) : Env where
  toPlatform := pl
  cipher := cipher
  fastxor := xorVec
  fastxor_eq := fun _ _ _ => rfl

/-- `SetKey` -/
structure SetKey where
  id : ℕ
  shift : ℕ
  deriving DecidableEq, Repr

/-- `PuncturableSet` -/
structure PuncturableSet where
  key : SetKey
  univSize : ℕ
  setSize : ℕ
  seed : Block
  elems : List ℕ
  deriving DecidableEq, Repr

/-- `PuncturedSet`; the keys are a whole number of blocks -/
structure PuncturedSet where
  univSize : ℕ
  setSize : ℕ
  keys : List Block
  hole : ℕ
  shift : ℕ
  deriving DecidableEq, Repr

/-- `SetGenerator`; `idGen` is the cipher with the key `masterKey` -/
structure SetGenerator where
  num : ℕ
  masterKey : Block
  univSize : ℕ
  setSize : ℕ
  deriving DecidableEq, Repr

/-- `NewSetGenerator` -/
def newSetGenerator (masterKey : Block) (startId univSize setSize : ℕ) : SetGenerator :=
  { num := startId, masterKey, univSize, setSize }

/-- The block that holds `tag` in its first byte and `id` in the next four. -/
def idBlock (tag id : ℕ) : Block :=
  ⟨UInt32.ofNat (tag + 256 * id), UInt32.ofNat (id / 2 ^ 24), 0, 0⟩

/-- The loops that shift the elements, in 32-bit arithmetic; a zero modulus panics. -/
def shiftElems (univSize shift : ℕ) (elems : List ℕ) : Option (List ℕ) :=
  if univSize % 2 ^ 32 = 0 ∧ elems ≠ [] then none
  else some (elems.map fun e => (e % 2 ^ 32 + shift) % 2 ^ 32 % (univSize % 2 ^ 32))

namespace SetGenerator

/-- The C generator. -/
def baseGen (gen : SetGenerator) : GGMSetGeneratorC := ⟨gen.univSize, gen.setSize⟩

/-- `pset.elems`, made anew when its length is not the set size. -/
def buffer (gen : SetGenerator) (elems : List ℕ) : List ℕ :=
  if elems.length ≠ gen.setSize then List.replicate gen.setSize 0 else elems

/-- The loop of `gen`. The first argument bounds the number of rounds; after `2 ^ 32` of them
every identifier has been tried, and the loop goes on for ever. -/
def genLoop (env : Env) (gen : SetGenerator) :
    ℕ → ℕ → List ℕ → Outcome (PuncturableSet × SetGenerator)
  | 0, _, _ => .error .noReturn
  | fuel + 1, num, elems => do
      let id := num % 2 ^ 32
      let seed := env.cipher gen.masterKey (idBlock 0xAA id)
      let elems ← Outcome.ofOption (gen.baseGen.eval env.toPlatform seed elems)
      let ok ← Outcome.ofOption (gen.baseGen.distinct env.toPlatform elems)
      if ok then
        .ok ({ key := ⟨id, 0⟩, univSize := gen.univSize, setSize := gen.setSize, seed, elems },
          { gen with num := num + 1 })
      else genLoop env gen fuel (num + 1) elems

/-- `gen`, with the elements that the reused set holds -/
def gen (env : Env) (gen : SetGenerator) (elems : List ℕ) :
    Outcome (PuncturableSet × SetGenerator) :=
  genLoop env gen (2 ^ 32) gen.num (gen.buffer elems)

/-- `Gen`, with the elements that the reused set holds -/
def generate (env : Env) (gen : SetGenerator) (elems : List ℕ) :
    Outcome (PuncturableSet × SetGenerator) := do
  let (pset, gen) ← gen.gen env elems
  let out := env.cipher gen.masterKey (idBlock 0xBB pset.key.id)
  if gen.setSize % 2 ^ 32 = 0 then .error .fault
  else do
    let shift := out.w0.toNat % (gen.setSize % 2 ^ 32)
    let elems ← Outcome.ofOption (shiftElems gen.univSize shift pset.elems)
    .ok ({ pset with key := ⟨pset.key.id, shift⟩, elems }, gen)

/-- `GenWith` -/
def genWith (env : Env) (gen : SetGenerator) (val : ℕ) :
    Outcome (PuncturableSet × SetGenerator) := do
  let (pset, gen) ← gen.gen env []
  let seed := env.cipher gen.masterKey (idBlock 0xBB pset.key.id)
  if gen.setSize = 0 then .error .fault
  else do
    let pos := (seed.w0.toNat + 2 ^ 32 * seed.w1.toNat) % gen.setSize
    let elem : ℕ ← Outcome.ofOption pset.elems[pos]?
    let shift : ℤ ← Outcome.ofOption (mathMod ((val : ℤ) - elem) gen.univSize)
    let shift := shift.toNat % 2 ^ 32
    let elems ← Outcome.ofOption (shiftElems gen.univSize shift pset.elems)
    .ok ({ pset with key := ⟨pset.key.id, shift⟩, elems }, gen)

/-- `EvalInPlace`, with the elements that the reused set holds -/
def evalInPlace (env : Env) (gen : SetGenerator) (key : SetKey) (elems : List ℕ) :
    Outcome PuncturableSet := do
  let seed := env.cipher gen.masterKey (idBlock 0xAA key.id)
  let elems ← Outcome.ofOption (gen.baseGen.eval env.toPlatform seed (gen.buffer elems))
  if key.shift = 0 then
    .ok { key, univSize := gen.univSize, setSize := gen.setSize, seed, elems }
  else do
    let elems ← Outcome.ofOption (shiftElems gen.univSize key.shift elems)
    .ok { key, univSize := gen.univSize, setSize := gen.setSize, seed, elems }

/-- `Eval` -/
def eval (env : Env) (gen : SetGenerator) (key : SetKey) : Outcome PuncturableSet :=
  gen.evalInPlace env key (List.replicate gen.setSize 0)

/-- `Punc`; a set without the element panics. -/
def punc (env : Env) (gen : SetGenerator) (pset : PuncturableSet) (idx : ℕ) :
    Outcome PuncturedSet := do
  let pos ← Outcome.ofOption (pset.elems.idxOf? idx)
  let keys ← Outcome.ofOption (gen.baseGen.punc env.toPlatform pset.seed pos)
  .ok { univSize := pset.univSize, setSize := pset.setSize - 1, keys, hole := pos
        shift := pset.key.shift }

end SetGenerator

/-! ## What a key denotes -/

/-- The seed of the set with identifier `id`. -/
def SetGenerator.seedOf (env : Env) (gen : SetGenerator) (id : ℕ) : Block :=
  env.cipher gen.masterKey (idBlock 0xAA id)

/-- The elements of the set that a key names. -/
def SetGenerator.members (env : Env) (gen : SetGenerator) (key : SetKey) : List ℕ :=
  shiftedElems env.aes gen.univSize gen.setSize (gen.seedOf env key.id) key.shift

/-- `pset` is the set that its key names. -/
structure SetGenerator.IsSet (env : Env) (gen : SetGenerator) (pset : PuncturableSet) : Prop where
  univSize_eq : pset.univSize = gen.univSize
  setSize_eq : pset.setSize = gen.setSize
  seed_eq : pset.seed = gen.seedOf env pset.key.id
  elems_eq : pset.elems = gen.members env pset.key
  shift_lt : pset.key.shift < 2 ^ 31

variable {env : Env} {gen : SetGenerator}

@[simp] theorem SetGenerator.length_members (key : SetKey) :
    (gen.members env key).length = gen.setSize := by
  simp [SetGenerator.members, shiftedElems]

theorem SetGenerator.members_lt {key : SetKey} (hgen : gen.baseGen.Fits) {e : ℕ}
    (he : e ∈ gen.members env key) : e < gen.univSize := by
  obtain ⟨x, -, rfl⟩ := List.mem_map.mp he
  exact Nat.mod_lt _ hgen.univSize_pos

theorem SetGenerator.length_buffer (elems : List ℕ) : (gen.buffer elems).length = gen.setSize := by
  rw [SetGenerator.buffer]
  split_ifs with h
  · simp
  · exact not_not.mp h

/-- Shifting elements of the universe stays clear of the 32-bit limit. -/
theorem shiftElems_of_lt {univSize shift : ℕ} {elems : List ℕ} (hpos : 0 < univSize)
    (hle : univSize ≤ 2 ^ 31) (hshift : shift < 2 ^ 31) (helems : ∀ e ∈ elems, e < univSize) :
    shiftElems univSize shift elems = some (elems.map fun e => (e + shift) % univSize) := by
  have huniv : univSize % 2 ^ 32 = univSize := Nat.mod_eq_of_lt (by omega)
  rw [shiftElems, huniv, if_neg (by omega)]
  refine congrArg some (List.map_congr_left ?_)
  intro e he
  have hlt : e < univSize := helems e he
  rw [Nat.mod_eq_of_lt (by omega : e < 2 ^ 32), Nat.mod_eq_of_lt (by omega : e + shift < 2 ^ 32)]

/-- Shifting the elements of a tree. -/
theorem shiftElems_eq (hgen : gen.baseGen.Fits) {seed : Block} {shift : ℕ} (hshift : shift < 2 ^ 31) :
    shiftElems gen.univSize shift (ggmElems env.aes gen.univSize gen.setSize seed) =
      some (shiftedElems env.aes gen.univSize gen.setSize seed shift) :=
  shiftElems_of_lt hgen.univSize_pos hgen.univSize_le hshift fun _ he =>
    ggmElems_lt hgen.univSize_pos (hgen.univSize_le.trans (by decide)) he

/-! ## The operations -/

theorem baseEval_spec (hgen : gen.baseGen.Fits) (seed : Block) {elems : List ℕ}
    (helems : elems.length = gen.setSize) :
    gen.baseGen.eval env.toPlatform seed elems =
      some (ggmElems env.aes gen.univSize gen.setSize seed) :=
  ggmEval_spec env.toPlatform hgen seed helems

/-- What `gen` returns: the unshifted set of the first identifier it accepts. -/
theorem SetGenerator.genLoop_spec (hgen : gen.baseGen.Fits) (fuel : ℕ) {num : ℕ} {elems : List ℕ}
    (helems : elems.length = gen.setSize) :
    Outcome.Safe (gen.genLoop env fuel num elems) fun r => ∃ m, num ≤ m ∧
      r.2 = { gen with num := m + 1 } ∧
      r.1 = ⟨⟨m % 2 ^ 32, 0⟩, gen.univSize, gen.setSize, gen.seedOf env (m % 2 ^ 32),
        ggmElems env.aes gen.univSize gen.setSize (gen.seedOf env (m % 2 ^ 32))⟩ := by
  induction fuel generalizing num elems with
  | zero => exact Outcome.safe_noReturn
  | succ fuel ih =>
      rw [SetGenerator.genLoop, baseEval_spec hgen _ helems, Outcome.ofOption_some, Outcome.ok_bind]
      have hdistinct := ggmDistinct_spec env.toPlatform hgen
        (length_ggmElems env.aes gen.univSize gen.setSize
          (env.cipher gen.masterKey (idBlock 0xAA (num % 2 ^ 32))))
        fun e he => ggmElems_lt hgen.univSize_pos (hgen.univSize_le.trans (by decide)) he
      rw [hdistinct, Outcome.ofOption_some, Outcome.ok_bind]
      split_ifs
      · exact ⟨num, le_rfl, rfl, rfl⟩
      · refine (ih (length_ggmElems _ _ _ _)).mono ?_
        rintro r ⟨m, hm, h1, h2⟩
        exact ⟨m, by omega, h1, h2⟩

/-- What a generator returns: a set with a fresh identifier, and itself with the counter
past it. -/
def SetGenerator.Generated (env : Env) (gen : SetGenerator) (r : PuncturableSet × SetGenerator) :
    Prop :=
  gen.IsSet env r.1 ∧ ∃ m, gen.num ≤ m ∧ r.1.key.id = m % 2 ^ 32 ∧ r.2 = { gen with num := m + 1 }

/-- **`Gen` returns a set that its key names.** -/
theorem SetGenerator.generate_spec (hgen : gen.baseGen.Fits) (elems : List ℕ) :
    Outcome.Safe (gen.generate env elems) (gen.Generated env) := by
  refine Outcome.Safe.bind (genLoop_spec hgen _ (length_buffer elems)) ?_
  rintro ⟨pset, gen'⟩ ⟨m, hm, rfl, rfl⟩
  have hset : gen.setSize % 2 ^ 32 = gen.setSize :=
    Nat.mod_eq_of_lt (hgen.setSize_le.trans_lt (by decide))
  have hpos : 0 < gen.setSize := hgen.setSize_pos
  dsimp only
  rw [if_neg (by rw [hset]; omega), hset]
  set out := env.cipher gen.masterKey (idBlock 0xBB (m % 2 ^ 32)) with hout
  have hshift : out.w0.toNat % gen.setSize < 2 ^ 31 :=
    (Nat.mod_lt _ hpos).trans_le (hgen.setSize_le.trans (by decide))
  rw [shiftElems_eq hgen hshift]
  exact ⟨⟨rfl, rfl, rfl, rfl, hshift⟩, m, hm, rfl, rfl⟩

/-- **`GenWith` returns a set that its key names and that contains the given element.** -/
theorem SetGenerator.genWith_spec (hgen : gen.baseGen.Fits) {val : ℕ} (hval : val < gen.univSize) :
    Outcome.Safe (gen.genWith env val) fun r => gen.Generated env r ∧ val ∈ r.1.elems := by
  refine Outcome.Safe.bind (genLoop_spec hgen _ (length_buffer [])) ?_
  rintro ⟨pset, gen'⟩ ⟨m, hm, rfl, rfl⟩
  have hpos : 0 < gen.setSize := hgen.setSize_pos
  have huniv : (0 : ℤ) < gen.univSize := by exact_mod_cast hgen.univSize_pos
  have hle : gen.univSize ≤ 2 ^ 31 := hgen.univSize_le
  dsimp only
  rw [if_neg hpos.ne']
  set seed := gen.seedOf env (m % 2 ^ 32) with hseed
  set out := env.cipher gen.masterKey (idBlock 0xBB (m % 2 ^ 32)) with hout
  set pos := (out.w0.toNat + 2 ^ 32 * out.w1.toNat) % gen.setSize with hposdef
  have hp : pos < gen.setSize := Nat.mod_lt _ hpos
  set e := ggmElem env.aes gen.univSize gen.setSize seed pos with he
  have hread : (ggmElems env.aes gen.univSize gen.setSize seed)[pos]? = some e :=
    getElem?_map_range _ hp
  have hmem : e ∈ ggmElems env.aes gen.univSize gen.setSize seed := List.mem_of_getElem? hread
  have helt : e < gen.univSize := ggmElems_lt hgen.univSize_pos (by omega) hmem
  rw [hread, Outcome.ofOption_some, Outcome.ok_bind, mathMod_eq _ huniv, Outcome.ofOption_some,
    Outcome.ok_bind]
  set shift := ((val : ℤ) - e) % gen.univSize with hs
  have hs0 : 0 ≤ shift := Int.emod_nonneg _ huniv.ne'
  have hs1 : shift < gen.univSize := Int.emod_lt_of_pos _ huniv
  have hmod : shift.toNat % 2 ^ 32 = shift.toNat := Nat.mod_eq_of_lt (by omega)
  have hshift : shift.toNat < 2 ^ 31 := by omega
  rw [hmod, shiftElems_eq hgen hshift]
  refine ⟨⟨⟨rfl, rfl, rfl, rfl, hshift⟩, m, hm, rfl, rfl⟩, List.mem_map.mpr ⟨e, hmem, ?_⟩⟩
  -- the shift takes `e` to `val`
  zify
  rw [Int.toNat_of_nonneg hs0, hs, Int.add_emod_emod, add_sub_cancel]
  exact_mod_cast Nat.mod_eq_of_lt hval

/-- **`EvalInPlace` gives the set that the key names**, whatever the reused set holds. -/
theorem SetGenerator.evalInPlace_spec (hgen : gen.baseGen.Fits) {key : SetKey}
    (hshift : key.shift < 2 ^ 31) (elems : List ℕ) :
    gen.evalInPlace env key elems = .ok ⟨key, gen.univSize, gen.setSize, gen.seedOf env key.id,
      gen.members env key⟩ := by
  rw [SetGenerator.evalInPlace, baseEval_spec hgen _ (length_buffer elems), Outcome.ofOption_some,
    Outcome.ok_bind]
  by_cases h0 : key.shift = 0
  · have hsame : ggmElems env.aes gen.univSize gen.setSize (gen.seedOf env key.id) =
        gen.members env key := by
      rw [SetGenerator.members, shiftedElems, h0]
      refine ((List.map_congr_left ?_).trans (List.map_id _)).symm
      intro e he
      exact Nat.mod_eq_of_lt (ggmElems_lt hgen.univSize_pos
        (hgen.univSize_le.trans (by decide)) he)
    rw [if_pos h0]
    exact congrArg _ (congrArg _ hsame)
  · rw [if_neg h0, shiftElems_eq hgen hshift]
    rfl

theorem SetGenerator.eval_spec (hgen : gen.baseGen.Fits) {key : SetKey}
    (hshift : key.shift < 2 ^ 31) :
    gen.eval env key = .ok ⟨key, gen.univSize, gen.setSize, gen.seedOf env key.id,
      gen.members env key⟩ := evalInPlace_spec hgen hshift _

/-- A punctured set that stands for `pset` less its first element `idx`. -/
structure PuncturedSet.Stands (env : Env) (pset : PuncturableSet) (idx : ℕ) (q : PuncturedSet) :
    Prop where
  univSize_eq : q.univSize = pset.univSize
  setSize_eq : q.setSize = pset.setSize - 1
  hole_eq : q.hole = pset.elems.idxOf idx
  shift_eq : q.shift = pset.key.shift
  keys : IsPunctured env.aes pset.seed (getHeight pset.setSize) q.hole q.keys

/-- **`Punc` at a member.** -/
theorem SetGenerator.punc_spec (hgen : gen.baseGen.Fits) {pset : PuncturableSet} {idx : ℕ}
    (hsize : pset.setSize = gen.setSize) (hlen : pset.elems.length = gen.setSize)
    (hidx : idx ∈ pset.elems) :
    ∃ q, gen.punc env pset idx = .ok q ∧ q.Stands env pset idx := by
  have hpos : pset.elems.idxOf idx < gen.setSize := hlen ▸ List.idxOf_lt_length_of_mem hidx
  have hfind : pset.elems.idxOf? idx = some (pset.elems.idxOf idx) := by
    obtain ⟨k, hk⟩ := Option.isSome_iff_exists.mp (List.isSome_idxOf?.mpr hidx)
    rw [List.idxOf_eq_getD_idxOf?, hk, Option.getD_some]
  obtain ⟨keys, hpunc, hkeys⟩ := ggmPunc_spec env.toPlatform hgen pset.seed hpos
  refine ⟨⟨pset.univSize, pset.setSize - 1, keys, pset.elems.idxOf idx, pset.key.shift⟩, ?_, ?_⟩
  · rw [SetGenerator.punc, hfind, Outcome.ofOption_some, Outcome.ok_bind, hpunc]
    rfl
  · exact ⟨rfl, rfl, rfl, rfl, by rw [hsize]; exact hkeys⟩

end SinglePassPIR.Pir
