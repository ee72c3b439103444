import SinglePassPIR.Psetggm.Xor
import Mathlib.Tactic.IntervalCases

/-!
# Puncturable sets from a tree of keys

`pset_ggm.cpp`. A seed grows into a binary tree of 128-bit keys: the two children of a key
`k` are `aes x ⊕ x` for `x = k` and for `x = k ⊕ one`. Four elements of the set come from
each leaf, one for each of its 32-bit words. To puncture the set at a position is to give
out the siblings along the path to its leaf, and the leaf with one word cleared.

The block cipher is an arbitrary function on blocks. A generator works in a buffer of its
own, which is never cleared: `Workspace` holds whatever earlier calls have left there, and
the results do not depend on it. `tree_eval_all` has no callers and is left out.

## Main results

* `psetGgmEval_spec` — the elements of the set of a seed.
* `psetGgmEvalPunc_spec` — a punctured set evaluates to the same elements less the one at
  the hole.
-/

namespace SinglePassPIR.Psetggm

/-! ## Blocks -/

/-- A 128-bit block, as its four 32-bit words in memory order. -/
structure Block where
  w0 : UInt32
  w1 : UInt32
  w2 : UInt32
  w3 : UInt32
  deriving DecidableEq, Repr

namespace Block

instance : Zero Block := ⟨⟨0, 0, 0, 0⟩⟩

/-- `_mm_xor_si128` -/
def xor (a b : Block) : Block := ⟨a.w0 ^^^ b.w0, a.w1 ^^^ b.w1, a.w2 ^^^ b.w2, a.w3 ^^^ b.w3⟩

/-- Word `k` of the block. -/
def word (b : Block) : ℕ → UInt32
  | 0 => b.w0
  | 1 => b.w1
  | 2 => b.w2
  | _ => b.w3

/-- The block with word `k` replaced. -/
def setWord (b : Block) (k : ℕ) (v : UInt32) : Block :=
  match k with
  | 0 => { b with w0 := v }
  | 1 => { b with w1 := v }
  | 2 => { b with w2 := v }
  | _ => { b with w3 := v }

@[simp] theorem xor_xor_cancel (a b : Block) : (a.xor b).xor b = a := by
  cases a
  cases b
  simp only [xor, UInt32.xor_assoc, UInt32.xor_self, UInt32.xor_zero]

theorem word_setWord (b : Block) (v : UInt32) {k l : ℕ} (hk : k < 4) (hl : l < 4) (h : l ≠ k) :
    (b.setWord k v).word l = b.word l := by
  interval_cases k <;> interval_cases l <;> first | rfl | exact absurd rfl h

end Block

/-- `one` -/
def one : Block := ⟨0, 0, 0, 1⟩

/-! ## The code -/

/-- `get_height`: one more than the position of the highest bit of the unsigned `v - 1`. -/
def getHeight (v : ℕ) : ℕ := Nat.log2 ((v + (2 ^ 32 - 1)) % 2 ^ 32) + 1

/-- The two arrays of a generator. -/
structure Workspace where
  keys : List Block
  tmp : List Block
  deriving DecidableEq, Repr

/-- `generator`, with room for the `1 << height` blocks of each array. -/
structure Generator where
  univSize : ℕ
  setSize : ℕ
  ws : Workspace
  keys_length : ws.keys.length = 2 ^ getHeight setSize
  tmp_length : ws.tmp.length = 2 ^ getHeight setSize

/-- `pset_ggm_init`, on memory with the contents `mem`; whether the arrays lie in the workspace is up
to its size. -/
def psetGgmInit (univSize setSize : ℕ) (mem : ℕ → Block) : Generator where
  univSize := univSize
  setSize := setSize
  ws :=
    { keys := (List.range (2 ^ getHeight setSize)).map mem
      tmp := (List.range (2 ^ getHeight setSize)).map fun i => mem (2 ^ getHeight setSize + i) }
  keys_length := by simp
  tmp_length := by simp

/-- `AES::encryptECBBlocks` -/
def encryptECBBlocks (aes : Block → Block) (plaintexts : List Block) (blockLength : ℕ)
    (ciphertexts : List Block) : Option (List Block) :=
  loop blockLength (fun i out => do
    let b ← plaintexts[i]?
    writeAt out i (aes b)) ciphertexts

/-- The body of the loops over the layers: each of the `1 << depth` keys is replaced by its
two children. -/
def expandLayer (aes : Block → Block) (depth : ℕ) (ws : Workspace) : Option Workspace := do
  let tmp ← intLoop (2 ^ depth) (fun i tmp => do
    let key ← ws.keys[i]?
    let tmp ← writeAt tmp (2 * i) key
    writeAt tmp (2 * i + 1) (key.xor one)) ws.tmp
  let keys ← encryptECBBlocks aes tmp (2 ^ (depth + 1)) ws.keys
  let keys ← intLoop (2 ^ (depth + 1)) (fun i keys => do
    let key ← tmp[i]?
    let k ← keys[i]?
    writeAt keys i (k.xor key)) keys
  some { keys, tmp }

/-- Entry `i` of the keys read as an array of 32-bit words. -/
def keyWord (keys : List Block) (i : ℕ) : Option UInt32 := do
  let b ← keys[i / 4]?
  some (b.word (i % 4))

/-- The reduction of a word to the universe: the upper half of the 64-bit product. -/
def reduceWord (word : UInt32) (univSize : ℕ) : ℕ := word.toNat * univSize % 2 ^ 64 / 2 ^ 32

/-- `pset_ggm_eval`, which is `tree_eval_all2`. The number of layers is a signed difference. -/
def psetGgmEval (aes : Block → Block) (gen : Generator) (seed : Block) (elems : List ℕ) :
    Option (List ℕ) := do
  let keys ← writeAt gen.ws.keys 0 seed
  let ws ← loop (getHeight gen.setSize - 2) (expandLayer aes) { gen.ws with keys }
  intLoop gen.setSize (fun i elems => do
    let w ← keyWord ws.keys i
    writeAt elems i (reduceWord w gen.univSize)) elems

/-- `pset_buffer_size`, in bytes -/
def psetBufferSize (gen : Generator) : ℕ :=
  if getHeight gen.setSize < 2 then 16 else 16 * (getHeight gen.setSize - 1)

/-- The variables of the loop of `pset_ggm_punc`. -/
structure PuncState where
  key : Block
  ws : Workspace
  psetKeys : List Block

/-- The body of the loop of `pset_ggm_punc`, at `height = h - depth`. -/
def puncStep (aes : Block → Block) (pos h depth : ℕ) (st : PuncState) : Option PuncState := do
  let height := h - depth
  let tmp ← writeAt st.ws.tmp 0 st.key
  let key := st.key.xor one
  let tmp ← writeAt tmp 1 key
  let keys ← encryptECBBlocks aes tmp 2 st.ws.keys
  let keys ← writeAt keys 1 ((← keys[1]?).xor key)
  let key := key.xor one
  let keys ← writeAt keys 0 ((← keys[0]?).xor key)
  let left ← keys[0]?
  let right ← keys[1]?
  if pos.testBit (height - 1) then
    some { key := right, ws := { keys, tmp }, psetKeys := ← writeAt st.psetKeys depth left }
  else
    some { key := left, ws := { keys, tmp }, psetKeys := ← writeAt st.psetKeys depth right }

/-- `pset_ggm_punc` -/
def psetGgmPunc (aes : Block → Block) (gen : Generator) (seed : Block) (pos : ℕ)
    (pset : List Block) : Option (List Block) := do
  let h := getHeight gen.setSize
  let st ← loop (h - 2) (puncStep aes pos h) { key := seed, ws := gen.ws, psetKeys := pset }
  writeAt st.psetKeys (h - 2) (st.key.setWord (pos &&& 0b11) 0)

/-- The body of the loop over the layers of `pset_ggm_eval_punc`. -/
def evalPuncStep (aes : Block → Block) (pset : List Block) (pos h depth : ℕ) (ws : Workspace) :
    Option Workspace := do
  let ws ← expandLayer aes depth ws
  let height := h - depth - 1
  let key ← pset[depth]?
  let keys ← writeAt ws.keys ((pos >>> height) ^^^ 1) key
  some { ws with keys }

/-- The body of the last loop of `pset_ggm_eval_punc`, on `out_pos` and the output. -/
def evalPuncElem (gen : Generator) (keys : List Block) (pos i : ℕ) (out : ℕ × List ℕ) :
    Option (ℕ × List ℕ) :=
  if i = pos then some out
  else do
    let w ← keyWord keys i
    let elems ← writeAt out.2 out.1 (reduceWord w gen.univSize)
    some (out.1 + 1, elems)

/-- `pset_ggm_eval_punc` -/
def psetGgmEvalPunc (aes : Block → Block) (gen : Generator) (pset : List Block) (pos : ℕ)
    (elems : List ℕ) : Option (List ℕ) := do
  let h := getHeight gen.setSize
  let depth := h - 2
  let height := h - depth
  let ws ← loop depth (evalPuncStep aes pset pos h) gen.ws
  let key ← pset[depth]?
  let keys ← writeAt ws.keys (pos >>> height) key
  let out ← intLoop gen.setSize (evalPuncElem gen keys pos) (0, elems)
  some out.2

/-! ## The height of the tree -/

theorem getHeight_eq {v : ℕ} (hv : 0 < v) (h32 : v ≤ 2 ^ 32) :
    getHeight v = Nat.log2 (v - 1) + 1 := by
  have hmod : (v + (2 ^ 32 - 1)) % 2 ^ 32 = v - 1 := by omega
  rw [getHeight, hmod]

theorem getHeight_pos (v : ℕ) : 0 < getHeight v := Nat.succ_pos _

theorem getHeight_le (v : ℕ) : getHeight v ≤ 32 := by
  have hlt : (v + (2 ^ 32 - 1)) % 2 ^ 32 < 2 ^ 32 := Nat.mod_lt _ (by decide)
  rw [getHeight]
  by_cases h0 : (v + (2 ^ 32 - 1)) % 2 ^ 32 = 0
  · rw [h0, Nat.log2_zero]
    omega
  · have := (Nat.log2_lt h0).mpr hlt
    omega

/-- The tree has a word for each element. -/
theorem le_two_pow_getHeight {v : ℕ} (hv : 0 < v) (h32 : v ≤ 2 ^ 32) : v ≤ 2 ^ getHeight v := by
  have := @Nat.lt_log2_self (v - 1)
  rw [getHeight_eq hv h32]
  omega

/-- Position `i` of the set lies in leaf `i / 4`. -/
theorem leaf_lt {v i : ℕ} (hi : i < v) (h32 : v ≤ 2 ^ 32) : i / 4 < 2 ^ (getHeight v - 2) := by
  have hle := le_two_pow_getHeight (Nat.zero_lt_of_lt hi) h32
  have hpos := getHeight_pos v
  by_cases h : getHeight v < 2
  · have h1 : getHeight v = 1 := by omega
    rw [h1] at hle ⊢
    omega
  · obtain ⟨d, hd⟩ : ∃ d, getHeight v = d + 2 := ⟨getHeight v - 2, by omega⟩
    rw [hd, Nat.pow_add] at hle
    rw [hd, Nat.add_sub_cancel]
    omega

/-! ## The elements of a set -/

/-- The input of the cipher for the child on side `b`. -/
def side (key : Block) (b : ℕ) : Block := if b = 1 then key.xor one else key

/-- The child of a key on side `b`. -/
def child (aes : Block → Block) (key : Block) (b : ℕ) : Block :=
  (aes (side key b)).xor (side key b)

/-- The key at position `i` of layer `depth`. -/
def treeKey (aes : Block → Block) (seed : Block) : ℕ → ℕ → Block
  | 0, _ => seed
  | depth + 1, i => child aes (treeKey aes seed depth (i / 2)) (i % 2)

/-- Element `i` of the set of a seed. -/
def ggmElem (aes : Block → Block) (univSize setSize : ℕ) (seed : Block) (i : ℕ) : ℕ :=
  reduceWord ((treeKey aes seed (getHeight setSize - 2) (i / 4)).word (i % 4)) univSize

/-- The elements of the set of a seed. -/
def ggmElems (aes : Block → Block) (univSize setSize : ℕ) (seed : Block) : List ℕ :=
  (List.range setSize).map (ggmElem aes univSize setSize seed)

@[simp] theorem length_ggmElems (aes : Block → Block) (univSize setSize : ℕ) (seed : Block) :
    (ggmElems aes univSize setSize seed).length = setSize := by simp [ggmElems]

theorem reduceWord_lt (w : UInt32) {univSize : ℕ} (hpos : 0 < univSize) (h32 : univSize ≤ 2 ^ 32) :
    reduceWord w univSize < univSize := by
  have hw : w.toNat < 2 ^ 32 := w.toNat_lt
  have hprod : w.toNat * univSize < 2 ^ 32 * univSize := Nat.mul_lt_mul_of_pos_right hw hpos
  rw [reduceWord, Nat.mod_eq_of_lt (by omega)]
  omega

theorem ggmElems_lt {aes : Block → Block} {univSize setSize : ℕ} {seed : Block} {e : ℕ}
    (hpos : 0 < univSize) (h32 : univSize ≤ 2 ^ 32)
    (he : e ∈ ggmElems aes univSize setSize seed) : e < univSize := by
  obtain ⟨i, -, rfl⟩ := List.mem_map.mp he
  exact reduceWord_lt _ hpos h32

/-! ## Evaluating a set -/

variable {aes : Block → Block}

theorem encryptECBBlocks_spec (aes : Block → Block) {p o : List Block} {m : ℕ} (hp : m ≤ p.length)
    (ho : m ≤ o.length) :
    ∃ o', encryptECBBlocks aes p m o = some o' ∧ o'.length = o.length ∧
      ∀ k, o'.getD k 0 = if k < m then aes (p.getD k 0) else o.getD k 0 := by
  refine loop_fill 0 (fun i => aes (p.getD i 0)) ho ?_
  intro i hi t hlen _
  rw [getElem?_eq_some_getD 0 (by omega : i < p.length)]
  exact writeAt_eq (by omega) _

/-- **One layer of the tree**: the keys are replaced by their children, whatever else the
workspace holds. -/
theorem expandLayer_spec (aes : Block → Block) {depth m : ℕ} {ws : Workspace} (hk : ws.keys.length = m)
    (ht : ws.tmp.length = m) (hm : 2 ^ (depth + 1) ≤ m) (hd : 2 ^ (depth + 1) < 2 ^ 31) :
    ∃ ws', expandLayer aes depth ws = some ws' ∧ ws'.keys.length = m ∧ ws'.tmp.length = m ∧
      ∀ i < 2 ^ (depth + 1), ws'.keys.getD i 0 = child aes (ws.keys.getD (i / 2) 0) (i % 2) := by
  have hpow : 2 ^ (depth + 1) = 2 * 2 ^ depth := Nat.pow_succ'
  -- both children of a key go to `tmp`
  have htmp := loop_spec (n := 2 ^ depth) (s := ws.tmp)
    (f := fun i tmp => do
      let key ← ws.keys[i]?
      let tmp ← writeAt tmp (2 * i) key
      writeAt tmp (2 * i + 1) (key.xor one))
    (fun i (tmp : List Block) => tmp.length = m ∧
      ∀ j < 2 * i, tmp.getD j 0 = side (ws.keys.getD (j / 2) 0) (j % 2)) ⟨ht, by simp⟩ ?step
  case step =>
    intro i hi tmp ⟨hlen, hcells⟩
    have hread : ws.keys[i]? = some (ws.keys.getD i 0) := getElem?_eq_some_getD 0 (by omega)
    have h0 : 2 * i < tmp.length := by omega
    have h1 : 2 * i + 1 < (tmp.set (2 * i) (ws.keys.getD i 0)).length := by simp; omega
    refine ⟨(tmp.set (2 * i) (ws.keys.getD i 0)).set (2 * i + 1) ((ws.keys.getD i 0).xor one),
      ?_, ?_, ?_⟩
    · simp only [hread, Option.bind_eq_bind, Option.bind_some, writeAt_eq h0]
      exact writeAt_eq h1 _
    · simpa using hlen
    · intro j hj
      rw [getD_set _ _ _ _ _ h1, getD_set _ _ _ _ _ h0]
      by_cases hj1 : j = 2 * i + 1
      · rw [if_pos hj1, side, if_pos (by omega)]
        congr 3
        omega
      · rw [if_neg hj1]
        by_cases hj0 : j = 2 * i
        · rw [if_pos hj0, side, if_neg (by omega)]
          congr 1
          omega
        · rw [if_neg hj0, hcells j (by omega)]
  obtain ⟨tmp, htmp, htl, htg⟩ := htmp
  obtain ⟨keys, henc, hkl, hkg⟩ := encryptECBBlocks_spec aes (p := tmp) (o := ws.keys)
    (m := 2 ^ (depth + 1)) (by omega) (by omega)
  obtain ⟨keys', hxor, hkl', hkg'⟩ := loop_fill (n := 2 ^ (depth + 1)) (l := keys) (0 : Block)
    (fun i => (keys.getD i 0).xor (tmp.getD i 0))
    (f := fun i keys => do
      let key ← tmp[i]?
      let k ← keys[i]?
      writeAt keys i (k.xor key)) (by omega) (by
      intro i hi t hlen hcell
      rw [getElem?_eq_some_getD 0 (by omega : i < tmp.length),
        getElem?_eq_some_getD 0 (by omega : i < t.length), hcell]
      exact writeAt_eq (by omega) _)
  refine ⟨⟨keys', tmp⟩, ?_, hkl'.trans (hkl.trans hk), htl, ?_⟩
  · rw [expandLayer, intLoop_eq (by omega), htmp]
    simp only [Option.bind_eq_bind, Option.bind_some, henc, intLoop_eq hd]
    exact congrArg (·.bind fun keys => some (⟨keys, tmp⟩ : Workspace)) hxor
  · intro i hi
    rw [hkg', if_pos hi, hkg, if_pos hi, htg i (by omega), child]

/-- The sizes a generator can have: an `int` counts the elements. -/
structure Generator.Fits (gen : Generator) : Prop where
  setSize_pos : 0 < gen.setSize
  setSize_lt : gen.setSize < 2 ^ 31

variable {gen : Generator}

theorem Generator.Fits.setSize_le (hgen : gen.Fits) : gen.setSize ≤ 2 ^ 32 :=
  hgen.setSize_lt.le.trans (Nat.pow_le_pow_right (by decide) (by decide))

/-- The layers of the tree fit in the workspace. -/
theorem layer_le {setSize depth : ℕ} (hd : depth < getHeight setSize - 2) :
    2 ^ (depth + 1) ≤ 2 ^ getHeight setSize ∧ 2 ^ (depth + 1) < 2 ^ 31 := by
  have := getHeight_le setSize
  constructor
  · exact Nat.pow_le_pow_right (by decide) (by omega)
  · exact Nat.pow_lt_pow_right (by decide) (by omega)

theorem keyWord_eq {keys : List Block} {i : ℕ} (hi : i / 4 < keys.length) :
    keyWord keys i = some ((keys.getD (i / 4) 0).word (i % 4)) := by
  rw [keyWord, getElem?_eq_some_getD 0 hi]
  rfl

/-- A leaf lies inside the workspace. -/
theorem Generator.Fits.leaf_lt_length (hgen : gen.Fits) {i m : ℕ} (hi : i < gen.setSize)
    (hm : m = 2 ^ getHeight gen.setSize) : i / 4 < m := by
  have := leaf_lt hi hgen.setSize_le
  have : 2 ^ (getHeight gen.setSize - 2) ≤ 2 ^ getHeight gen.setSize :=
    Nat.pow_le_pow_right (by decide) (by omega)
  omega

/-- **`pset_ggm_eval` writes the elements of the set**, whatever the workspace and the
output hold. -/
theorem psetGgmEval_spec (aes : Block → Block) (hgen : gen.Fits) (seed : Block) {elems : List ℕ}
    (helems : elems.length = gen.setSize) :
    psetGgmEval aes gen seed elems = some (ggmElems aes gen.univSize gen.setSize seed) := by
  have hpos : 0 < gen.ws.keys.length := by rw [gen.keys_length]; exact Nat.two_pow_pos _
  obtain ⟨ws, hloop, hkl, htl, hkeys⟩ := loop_spec (n := getHeight gen.setSize - 2)
    (f := expandLayer aes) (s := { gen.ws with keys := gen.ws.keys.set 0 seed })
    (fun depth ws => ws.keys.length = 2 ^ getHeight gen.setSize ∧
      ws.tmp.length = 2 ^ getHeight gen.setSize ∧
      ∀ i < 2 ^ depth, ws.keys.getD i 0 = treeKey aes seed depth i)
    (by
      refine ⟨by simp [gen.keys_length], gen.tmp_length, ?_⟩
      intro i hi
      rw [getD_set _ _ _ _ _ hpos, if_pos (by simpa using hi), treeKey])
    (by
      intro depth hd ws ⟨hkl, htl, hkeys⟩
      obtain ⟨hm, h31⟩ := layer_le hd
      obtain ⟨ws', hexp, hkl', htl', hkeys'⟩ := expandLayer_spec aes hkl htl hm h31
      refine ⟨ws', hexp, hkl', htl', ?_⟩
      intro i hi
      have hpow : 2 ^ (depth + 1) = 2 * 2 ^ depth := Nat.pow_succ'
      rw [hkeys' i hi, hkeys (i / 2) (by omega), treeKey])
  obtain ⟨out, hfill, hlen, hout⟩ := loop_fill (n := gen.setSize) (l := elems) 0
    (ggmElem aes gen.univSize gen.setSize seed)
    (f := fun i elems => do
      let w ← keyWord ws.keys i
      writeAt elems i (reduceWord w gen.univSize)) helems.ge (by
      intro i hi t hlen _
      have hleaf := leaf_lt hi hgen.setSize_le
      simp only [keyWord_eq (hgen.leaf_lt_length hi hkl), hkeys _ hleaf, Option.bind_eq_bind,
        Option.bind_some]
      exact writeAt_eq (by omega) _)
  have hres : out = ggmElems aes gen.univSize gen.setSize seed := by
    refine ext_getD 0 (by simp [hlen, helems]) ?_
    intro k hk
    have hk' : k < gen.setSize := by omega
    rw [hout, if_pos hk', ggmElems, List.getD_eq_getElem?_getD, getElem?_map_range _ hk']
    rfl
  rw [psetGgmEval, writeAt_eq hpos, Option.bind_eq_bind, Option.bind_some, Option.bind_eq_bind,
    hloop, Option.bind_some, intLoop_eq hgen.setSize_lt, ← hres]
  exact hfill

/-! ## Puncturing a set -/

/-- The ancestors of a position, from one layer to the next. -/
theorem shiftRight_pred (pos : ℕ) {k : ℕ} (hk : 0 < k) :
    pos >>> (k - 1) = 2 * (pos >>> k) + (pos.testBit (k - 1)).toNat := by
  obtain ⟨k, rfl⟩ : ∃ l, k = l + 1 := ⟨k - 1, by omega⟩
  rw [Nat.add_sub_cancel, Nat.shiftRight_succ, Nat.testBit_eq_decide_div_mod_eq,
    ← Nat.shiftRight_eq_div_pow]
  by_cases h : pos >>> k % 2 = 1
  · rw [decide_eq_true h, Bool.toNat_true]
    omega
  · rw [decide_eq_false h, Bool.toNat_false]
    omega

/-- The sibling of a node. -/
theorem two_mul_add_xor_one (q : ℕ) (b : Bool) :
    (2 * q + b.toNat) ^^^ 1 = 2 * q + (!b).toNat := by
  have hdiv : ((2 * q + b.toNat) ^^^ 1) / 2 = q := by
    rw [Nat.xor_div_two]
    cases b <;> simp [Nat.add_div]
  have hmod : ((2 * q + b.toNat) ^^^ 1) % 2 = 1 ↔ b = false := by
    rw [Nat.xor_mod_two_eq_one]
    cases b <;> simp [Nat.add_mod]
  cases b with
  | false =>
      have := hmod.mpr rfl
      simp only [Bool.not_false, Bool.toNat_true, Bool.toNat_false] at *
      omega
  | true =>
      have := mt hmod.mp (by decide)
      simp only [Bool.not_true, Bool.toNat_true, Bool.toNat_false] at *
      omega

/-- A punctured set: the siblings along the path to the hole, and its leaf with one word
cleared. -/
structure IsPunctured (aes : Block → Block) (seed : Block) (h pos : ℕ) (pset : List Block) :
    Prop where
  length : h - 2 < pset.length
  sibling : ∀ d < h - 2, pset.getD d 0 = treeKey aes seed (d + 1) ((pos >>> (h - d - 1)) ^^^ 1)
  leaf : pset.getD (h - 2) 0 =
    (treeKey aes seed (h - 2) (pos >>> (h - (h - 2)))).setWord (pos % 4) 0

/-- One step down the path: on to the child on the side of the position, and the other child
into the punctured set. -/
theorem puncStep_spec (aes : Block → Block) (pos h : ℕ) {depth m : ℕ} {st : PuncState}
    (hk : st.ws.keys.length = m) (ht : st.ws.tmp.length = m) (hm : 2 ≤ m)
    (hp : depth < st.psetKeys.length) :
    ∃ ws', puncStep aes pos h depth st =
        some ⟨child aes st.key (pos.testBit (h - depth - 1)).toNat, ws',
          st.psetKeys.set depth (child aes st.key (!pos.testBit (h - depth - 1)).toNat)⟩ ∧
      ws'.keys.length = m ∧ ws'.tmp.length = m := by
  have h0 : writeAt st.ws.tmp 0 st.key = some (st.ws.tmp.set 0 st.key) := writeAt_eq (by omega) _
  have h1 : writeAt (st.ws.tmp.set 0 st.key) 1 (st.key.xor one) =
      some ((st.ws.tmp.set 0 st.key).set 1 (st.key.xor one)) :=
    writeAt_eq (by rw [List.length_set]; omega) _
  set tmp := (st.ws.tmp.set 0 st.key).set 1 (st.key.xor one) with htmp
  have htl : tmp.length = m := by simp [htmp, ht]
  have ht0 : tmp.getD 0 0 = st.key := by
    rw [htmp, getD_set _ _ _ _ _ (by rw [List.length_set]; omega), if_neg (by decide),
      getD_set _ _ _ _ _ (by omega), if_pos rfl]
  have ht1 : tmp.getD 1 0 = st.key.xor one := by
    rw [htmp, getD_set _ _ _ _ _ (by rw [List.length_set]; omega), if_pos rfl]
  obtain ⟨keys, henc, hkl, hkg⟩ := encryptECBBlocks_spec aes (p := tmp) (o := st.ws.keys)
    (m := 2) (by omega) (by omega)
  have hk1 : keys[1]? = some (aes (st.key.xor one)) := by
    rw [getElem?_eq_some_getD 0 (by omega), hkg, if_pos (by decide), ht1]
  have hw1 : writeAt keys 1 ((aes (st.key.xor one)).xor (st.key.xor one)) =
      some (keys.set 1 (child aes st.key 1)) := writeAt_eq (by omega) _
  have hk0 : (keys.set 1 (child aes st.key 1))[0]? = some (aes st.key) := by
    rw [List.getElem?_set_ne (by decide), getElem?_eq_some_getD 0 (by omega), hkg,
      if_pos (by decide), ht0]
  have hw0 : writeAt (keys.set 1 (child aes st.key 1)) 0 ((aes st.key).xor st.key) =
      some ((keys.set 1 (child aes st.key 1)).set 0 (child aes st.key 0)) :=
    writeAt_eq (by rw [List.length_set]; omega) _
  have hleft : ((keys.set 1 (child aes st.key 1)).set 0 (child aes st.key 0))[0]? =
      some (child aes st.key 0) := List.getElem?_set_self (by rw [List.length_set]; omega)
  have hright : ((keys.set 1 (child aes st.key 1)).set 0 (child aes st.key 0))[1]? =
      some (child aes st.key 1) := by
    rw [List.getElem?_set_ne (by decide), List.getElem?_set_self (by omega)]
  refine ⟨⟨(keys.set 1 (child aes st.key 1)).set 0 (child aes st.key 0), tmp⟩, ?_, ?_, htl⟩
  · simp only [puncStep, h0, h1, henc, hk1, hw1, Block.xor_xor_cancel, hk0, hw0, hleft, hright,
      Option.bind_eq_bind, Option.bind_some, writeAt_eq hp]
    cases pos.testBit (h - depth - 1) <;> rfl
  · simp [hkl, hk]

/-- **`pset_ggm_punc` writes a punctured set** into a buffer of the announced size. -/
theorem psetGgmPunc_spec (aes : Block → Block) (gen : Generator) (seed : Block) (pos : ℕ)
    {pset : List Block} (hpset : 16 * pset.length = psetBufferSize gen) :
    ∃ pset', psetGgmPunc aes gen seed pos pset = some pset' ∧
      IsPunctured aes seed (getHeight gen.setSize) pos pset' := by
  set h := getHeight gen.setSize with hh
  have hpos : 0 < h := getHeight_pos _
  have hm : 2 ^ 1 ≤ 2 ^ h := Nat.pow_le_pow_right (by decide) hpos
  have hroom : h - 2 < pset.length := by
    rw [psetBufferSize, ← hh] at hpset
    split at hpset <;> omega
  obtain ⟨st, hloop, -, -, hlen, hkey, hsib⟩ := loop_spec (n := h - 2)
    (f := puncStep aes pos h) (s := ⟨seed, gen.ws, pset⟩)
    (fun depth st => st.ws.keys.length = 2 ^ h ∧ st.ws.tmp.length = 2 ^ h ∧
      st.psetKeys.length = pset.length ∧ st.key = treeKey aes seed depth (pos >>> (h - depth)) ∧
      ∀ d < depth, st.psetKeys.getD d 0 = treeKey aes seed (d + 1) ((pos >>> (h - d - 1)) ^^^ 1))
    ⟨gen.keys_length, gen.tmp_length, rfl, rfl, by simp⟩
    (by
      intro depth hd st ⟨hkl, htl, hlen, hkey, hsib⟩
      obtain ⟨ws', hstep, hkl', htl'⟩ := puncStep_spec aes pos h hkl htl hm
        (hlen ▸ hd.trans hroom)
      have hnode : pos >>> (h - depth - 1) =
          2 * (pos >>> (h - depth)) + (pos.testBit (h - depth - 1)).toNat :=
        shiftRight_pred pos (by omega)
      have hchild : ∀ b : Bool, child aes st.key b.toNat =
          treeKey aes seed (depth + 1) (2 * (pos >>> (h - depth)) + b.toNat) := by
        intro b
        have hb := b.toNat_lt
        rw [treeKey, hkey]
        congr 2 <;> omega
      refine ⟨_, hstep, hkl', htl', by rw [List.length_set, hlen], ?_, ?_⟩
      · rw [hchild, ← hnode, Nat.sub_sub]
      · intro d hd'
        dsimp only
        rw [getD_set _ _ _ _ _ (by omega)]
        by_cases hdd : d = depth
        · rw [if_pos hdd, hdd, hchild, hnode, two_mul_add_xor_one]
        · rw [if_neg hdd, hsib d (by omega)])
  have hfit : h - 2 < st.psetKeys.length := by omega
  refine ⟨st.psetKeys.set (h - 2) (st.key.setWord (pos &&& 0b11) 0), ?_, ?_⟩
  · rw [psetGgmPunc, ← hh, hloop, Option.bind_eq_bind, Option.bind_some, writeAt_eq hfit]
  · have hword : pos &&& 0b11 = pos % 4 := Nat.and_two_pow_sub_one_eq_mod pos 2
    constructor
    · rw [List.length_set]
      exact hfit
    · intro d hd
      rw [getD_set _ _ _ _ _ hfit, if_neg (by omega), hsib d hd]
    · rw [getD_set _ _ _ _ _ hfit, if_pos rfl, hkey, hword]

/-! ## Evaluating a punctured set -/

/-- One layer of a punctured set: every key is right but the one above the hole. -/
theorem evalPuncStep_spec {seed : Block} {pset : List Block} {pos h depth : ℕ} {ws : Workspace}
    (hpset : IsPunctured aes seed h pos pset) (hd : depth < h - 2) (hpos : pos < 2 ^ h)
    (h31 : 2 ^ (depth + 1) < 2 ^ 31) (hk : ws.keys.length = 2 ^ h) (ht : ws.tmp.length = 2 ^ h)
    (hkeys : ∀ i < 2 ^ depth, i ≠ pos >>> (h - depth) →
      ws.keys.getD i 0 = treeKey aes seed depth i) :
    ∃ ws', evalPuncStep aes pset pos h depth ws = some ws' ∧ ws'.keys.length = 2 ^ h ∧
      ws'.tmp.length = 2 ^ h ∧ ∀ i < 2 ^ (depth + 1), i ≠ pos >>> (h - (depth + 1)) →
        ws'.keys.getD i 0 = treeKey aes seed (depth + 1) i := by
  have hm : 2 ^ (depth + 1) ≤ 2 ^ h := Nat.pow_le_pow_right (by decide) (by omega)
  obtain ⟨ws', hexp, hkl, htl, hkeys'⟩ := expandLayer_spec aes hk ht hm h31
  set b := pos.testBit (h - depth - 1) with hb
  have hnode : pos >>> (h - depth - 1) = 2 * (pos >>> (h - depth)) + b.toNat :=
    shiftRight_pred pos (by omega)
  have hsib : (pos >>> (h - depth - 1)) ^^^ 1 = 2 * (pos >>> (h - depth)) + (!b).toNat := by
    rw [hnode, two_mul_add_xor_one]
  have hbs : b.toNat + (!b).toNat = 1 := by cases b <;> rfl
  have hlayer : pos >>> (h - depth) < 2 ^ depth := by
    rw [Nat.shiftRight_eq_div_pow, Nat.div_lt_iff_lt_mul (Nat.two_pow_pos _), ← Nat.pow_add]
    rwa [Nat.add_sub_cancel' (by omega)]
  have hpow : 2 ^ (depth + 1) = 2 * 2 ^ depth := Nat.pow_succ'
  have hwr : (pos >>> (h - depth - 1)) ^^^ 1 < ws'.keys.length := by omega
  have hread : pset[depth]? = some (pset.getD depth 0) :=
    getElem?_eq_some_getD 0 (by have := hpset.length; omega)
  refine ⟨{ ws' with keys := ws'.keys.set ((pos >>> (h - depth - 1)) ^^^ 1) (pset.getD depth 0) },
    ?_, by simpa using hkl, htl, ?_⟩
  · rw [evalPuncStep, hexp, Option.bind_eq_bind, Option.bind_some]
    simp only [hread, writeAt_eq hwr, Option.bind_eq_bind, Option.bind_some]
  · intro i hi hne
    dsimp only
    rw [getD_set _ _ _ _ _ hwr]
    by_cases his : i = (pos >>> (h - depth - 1)) ^^^ 1
    · rw [if_pos his, hpset.sibling depth hd, his]
    · -- neither child of the node above the hole
      rw [if_neg his, hkeys' i hi, treeKey, hkeys (i / 2) (by omega) (by
        rw [Nat.sub_add_eq] at hne
        omega)]

/-- The words of the leaves after the last layer: only the word at the hole may be wrong. -/
theorem evalPuncKeys_spec (hgen : gen.Fits) {seed : Block} {pset : List Block} {pos : ℕ}
    (hpset : IsPunctured aes seed (getHeight gen.setSize) pos pset) (hpos : pos < gen.setSize) :
    ∃ ws keys, loop (getHeight gen.setSize - 2)
        (evalPuncStep aes pset pos (getHeight gen.setSize)) gen.ws = some ws ∧
      writeAt ws.keys (pos >>> (getHeight gen.setSize - (getHeight gen.setSize - 2)))
        (pset.getD (getHeight gen.setSize - 2) 0) = some keys ∧
      ∀ i < gen.setSize, i ≠ pos → keyWord keys i =
        some ((treeKey aes seed (getHeight gen.setSize - 2) (i / 4)).word (i % 4)) := by
  have hleafpos : pos / 4 < 2 ^ (getHeight gen.setSize - 2) := leaf_lt hpos hgen.setSize_le
  have hlt : pos < 2 ^ getHeight gen.setSize :=
    hpos.trans_le (le_two_pow_getHeight hgen.setSize_pos hgen.setSize_le)
  obtain ⟨ws, hloop, hkl, -, hkeys⟩ := loop_spec (n := getHeight gen.setSize - 2)
    (f := evalPuncStep aes pset pos (getHeight gen.setSize)) (s := gen.ws)
    (fun depth ws => ws.keys.length = 2 ^ getHeight gen.setSize ∧
      ws.tmp.length = 2 ^ getHeight gen.setSize ∧
      ∀ i < 2 ^ depth, i ≠ pos >>> (getHeight gen.setSize - depth) →
        ws.keys.getD i 0 = treeKey aes seed depth i)
    (by
      refine ⟨gen.keys_length, gen.tmp_length, ?_⟩
      intro i hi hne
      rw [Nat.sub_zero, Nat.shiftRight_eq_div_pow, Nat.div_eq_of_lt hlt] at hne
      omega)
    (by
      intro depth hd ws ⟨hkl, htl, hkeys⟩
      exact evalPuncStep_spec hpset hd hlt (layer_le hd).2 hkl htl hkeys)
  -- the node above the hole in the last layer is its leaf
  have hleaf : pos >>> (getHeight gen.setSize - (getHeight gen.setSize - 2)) = pos / 4 := by
    rw [Nat.shiftRight_eq_div_pow]
    have hhpos := getHeight_pos gen.setSize
    by_cases h2 : 2 ≤ getHeight gen.setSize
    · rw [Nat.sub_sub_self h2]
    · have h1 : getHeight gen.setSize = 1 := by omega
      rw [h1] at hlt ⊢
      omega
  have hwr : pos / 4 < ws.keys.length := hgen.leaf_lt_length hpos hkl
  refine ⟨ws, ws.keys.set (pos / 4) (pset.getD (getHeight gen.setSize - 2) 0), hloop, ?_, ?_⟩
  · rw [hleaf, writeAt_eq hwr]
  · intro i hi hne
    have hil : i / 4 < ws.keys.length := hgen.leaf_lt_length hi hkl
    rw [keyWord_eq (by rwa [List.length_set]), getD_set _ _ _ _ _ hwr]
    by_cases hip : i / 4 = pos / 4
    · rw [if_pos hip, hpset.leaf, hleaf, ← hip, Block.word_setWord _ _ (by omega) (by omega)
        (by omega)]
    · rw [if_neg hip, hkeys (i / 4) (leaf_lt hi hgen.setSize_le) (by rwa [hleaf])]

/-- **`pset_ggm_eval_punc` writes the elements of the set less the one at the hole**, in
order, whatever the workspace and the output hold. -/
theorem psetGgmEvalPunc_spec (hgen : gen.Fits) {seed : Block} {pset : List Block} {pos : ℕ}
    {elems : List ℕ} (hpset : IsPunctured aes seed (getHeight gen.setSize) pos pset)
    (hpos : pos < gen.setSize) (helems : elems.length = gen.setSize - 1) :
    psetGgmEvalPunc aes gen pset pos elems =
      some ((ggmElems aes gen.univSize gen.setSize seed).eraseIdx pos) := by
  obtain ⟨ws, keys, hloop, hwr, hword⟩ := evalPuncKeys_spec hgen hpset hpos
  have hread : pset[getHeight gen.setSize - 2]? = some (pset.getD (getHeight gen.setSize - 2) 0) :=
    getElem?_eq_some_getD 0 hpset.length
  let elem := ggmElem aes gen.univSize gen.setSize seed
  obtain ⟨⟨outPos, out⟩, hfill, hpos', hlen, hcells⟩ := loop_spec (n := gen.setSize)
    (s := (0, elems))
    (f := evalPuncElem gen keys pos)
    (fun i (st : ℕ × List ℕ) => st.1 = (if i ≤ pos then i else i - 1) ∧
      st.2.length = gen.setSize - 1 ∧
      ∀ k < st.1, st.2.getD k 0 = elem (if k < pos then k else k + 1))
    ⟨by simp, helems, by simp⟩
    (by
      intro i hi ⟨outPos, out⟩ ⟨hop, hlen, hcells⟩
      dsimp only at hop hlen hcells ⊢
      by_cases hip : i = pos
      · refine ⟨(outPos, out), if_pos hip, ?_, hlen, hcells⟩
        rw [hop]
        split_ifs <;> omega
      · have hop' : outPos < out.length := by
          rw [hop]
          split_ifs <;> omega
        refine ⟨(outPos + 1, out.set outPos (elem i)), ?_, ?_, by simpa using hlen, ?_⟩
        · rw [evalPuncElem, if_neg hip, hword i hi hip, Option.bind_eq_bind, Option.bind_some,
            Option.bind_eq_bind, writeAt_eq hop', Option.bind_some]
          rfl
        · dsimp only
          rw [hop]
          split_ifs <;> omega
        · intro k hk
          dsimp only at hk ⊢
          rw [getD_set _ _ _ _ _ hop']
          by_cases hko : k = outPos
          · rw [if_pos hko, hko, hop]
            refine congrArg elem ?_
            split_ifs <;> omega
          · rw [if_neg hko, hcells k (by omega)])
  dsimp only at hpos' hlen hcells
  have hres : out = (ggmElems aes gen.univSize gen.setSize seed).eraseIdx pos := by
    have hlen' : ((ggmElems aes gen.univSize gen.setSize seed).eraseIdx pos).length =
        gen.setSize - 1 := by
      rw [List.length_eraseIdx_of_lt (by simpa using hpos), length_ggmElems]
    refine ext_getD 0 (hlen.trans hlen'.symm) ?_
    intro k hk
    rw [hcells k (by rw [hpos', if_neg (by omega)]; omega), List.getD_eq_getElem?_getD,
      List.getElem?_eraseIdx, ggmElems]
    by_cases hkp : k < pos
    · rw [if_pos hkp, if_pos hkp, getElem?_map_range _ (by omega)]
      rfl
    · rw [if_neg hkp, if_neg hkp, getElem?_map_range _ (by omega)]
      rfl
  rw [psetGgmEvalPunc, hloop, Option.bind_eq_bind, Option.bind_some, hread, Option.bind_eq_bind,
    Option.bind_some, hwr, Option.bind_eq_bind, Option.bind_some, intLoop_eq hgen.setSize_lt, hfill,
    Option.bind_eq_bind, Option.bind_some, hres]

end SinglePassPIR.Psetggm
