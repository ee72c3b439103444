import SinglePassPIR.Lib.Bytes
import Mathlib.Data.Nat.Bitwise

/-!
# Shares of a point function

`dpf.go` of `modules/dpf-go`. A key is the root of a binary tree of seeds with a word for each of
its levels, and evaluates to one block of 128 bits for each leaf. The words are such that the trees
of the two keys differ along one path only.

The two permutations of AES are parameters, and the draws from `crypto/rand` are arguments. A
`DPFkey` is taken apart as its readers do it, and the control bits, which are bytes `0` and `1`,
are Booleans.

## Main results

* `evalFull_total` — a key with a word for each level evaluates to a vector of the announced length.
* `gen_correct` — the vectors of the two keys differ in one bit.
-/

namespace SinglePassPIR.Dpf

/-- `aes128MMO`, with `keyL` and with `keyR` -/
structure Prf where
  mmoL : Bytes 16 → Bytes 16
  mmoR : Bytes 16 → Bytes 16

/-- A seed with its control bit -/
structure Node where
  s : Bytes 16
  t : Bool
  deriving DecidableEq

/-- A correction word; the two bits are `tLCW` and `tRCW`. -/
structure CorrectionWord where
  s : Bytes 16
  tL : Bool
  tR : Bool
  deriving DecidableEq

/-- `DPFkey` -/
structure DPFkey where
  root : Node
  cw : List CorrectionWord
  last : Bytes 16
  deriving DecidableEq

/-- `getT` -/
def getT (s : Bytes 16) : Bool := decide (s.byte 0 &&& 1 ≠ 0)

/-- `clr` -/
def clr (s : Bytes 16) : Bytes 16 :=
  Bytes.ofFn fun k => if k = 0 then s.byte 0 &&& 0xFE else s.byte k

/-- The seed with its lowest bit as the control bit. -/
def Node.ofBlock (s : Bytes 16) : Node := ⟨clr s, getT s⟩

/-- `prg`, the two children of a seed -/
def prg (A : Prf) (seed : Bytes 16) : Node × Node :=
  (.ofBlock (A.mmoL seed), .ofBlock (A.mmoR seed))

/-- The node with a correction, if its parent has the control bit set. -/
def Node.correct (n : Node) (on : Bool) (s : Bytes 16) (t : Bool) : Node :=
  if on then ⟨n.s + s, n.t ^^ t⟩ else n

/-! ## Keys -/

/-- The body of the loop of `Gen` for one bit of `alpha`: the word, and the nodes on the path. -/
def genStep (A : Prf) (bit : Bool) (n0 n1 : Node) : CorrectionWord × Node × Node :=
  let c0 := prg A n0.s
  let c1 := prg A n1.s
  if bit then
    -- keep the right children
    let s := c0.1.s + c1.1.s
    let tL := c0.1.t ^^ c1.1.t
    let tR := c0.2.t ^^ c1.2.t ^^ true
    (⟨s, tL, tR⟩, c0.2.correct n0.t s tR, c1.2.correct n1.t s tR)
  else
    let s := c0.2.s + c1.2.s
    let tL := c0.1.t ^^ c1.1.t ^^ true
    let tR := c0.2.t ^^ c1.2.t
    (⟨s, tL, tR⟩, c0.1.correct n0.t s tL, c1.1.correct n1.t s tL)

/-- The loop of `Gen`, `k` rounds from round `i` on. -/
def genLoop (A : Prf) (alpha logN : ℕ) : ℕ → ℕ → Node → Node → List CorrectionWord × Node × Node
  | 0, _, n0, n1 => ([], n0, n1)
  | k + 1, i, n0, n1 =>
      let step := genStep A (alpha.testBit (logN - 1 - i)) n0 n1
      let rest := genLoop A alpha logN k (i + 1) step.2.1 step.2.2
      (step.1 :: rest.1, rest.2)

/-- The block with bit `a`. -/
def pointBlock (a : ℕ) : Bytes 16 :=
  Bytes.ofFn fun k => if k = a / 8 then 1 <<< UInt8.ofNat (a % 8) else 0

/-- `Gen`, with the two blocks that it draws -/
def gen (A : Prf) (draw : Bytes 16 × Bytes 16) (alpha logN : ℕ) : Option (DPFkey × DPFkey) :=
  if 2 ^ logN ≤ alpha ∨ 63 < logN then none
  else
    let n0 : Node := .ofBlock draw.1
    let n1 : Node := ⟨clr draw.2, n0.t ^^ true⟩
    let path := genLoop A alpha logN (logN - 7) 0 n0 n1
    let last := A.mmoL path.2.1.s + A.mmoL path.2.2.s + pointBlock (alpha % 128)
    some (⟨n0, path.1, last⟩, ⟨n1, path.1, last⟩)

/-! ## Evaluation -/

/-- The two nodes that `evalFullRecursive` goes on with: the children of the seed, with the word of
their level if the control bit is set. -/
def children (A : Prf) (cw : List CorrectionWord) (lvl : ℕ) (n : Node) : Option (Node × Node) :=
  let c := prg A n.s
  if n.t then (cw[lvl]?).map fun w => (c.1.correct true w.s w.tL, c.2.correct true w.s w.tR)
  else some c

/-- `evalFullRecursive` on a subtree of height `d`: the blocks of its leaves, which the code writes
one after the other into a buffer of zeros. -/
def evalFullRecursive (A : Prf) (cw : List CorrectionWord) (last : Bytes 16) :
    ℕ → ℕ → Node → Option (List (Bytes 16))
  | 0, _, n => some [if n.t then A.mmoL n.s + last else A.mmoL n.s]
  | d + 1, lvl, n => do
      let c ← children A cw lvl n
      let left ← evalFullRecursive A cw last d (lvl + 1) c.1
      let right ← evalFullRecursive A cw last d (lvl + 1) c.2
      some (left ++ right)

/-- `EvalFull`; the buffer for more than `2 ^ 63` bits cannot be made. -/
def evalFull (A : Prf) (key : DPFkey) (logN : ℕ) : Option (List UInt8) :=
  if 63 < logN then none
  else (evalFullRecursive A key.cw key.last (logN - 7) 0 key.root).map fun blocks =>
    (blocks.map Bytes.toList).flatten

variable {A : Prf}

theorem genLoop_length (alpha logN k i : ℕ) (n0 n1 : Node) :
    (genLoop A alpha logN k i n0 n1).1.length = k := by
  induction k generalizing i n0 n1 with
  | zero => rfl
  | succ k ih => rw [genLoop, List.length_cons, ih]

theorem children_eq {cw : List CorrectionWord} {lvl : ℕ} {w : CorrectionWord}
    (h : cw[lvl]? = some w) (n : Node) : children A cw lvl n =
      some ((prg A n.s).1.correct n.t w.s w.tL, (prg A n.s).2.correct n.t w.s w.tR) := by
  rw [children, h]
  cases n.t <;> rfl

theorem evalFullRecursive_total {cw : List CorrectionWord} (last : Bytes 16) {d lvl : ℕ}
    (h : lvl + d ≤ cw.length) (n : Node) :
    ∃ blocks, evalFullRecursive A cw last d lvl n = some blocks ∧ blocks.length = 2 ^ d := by
  induction d generalizing lvl n with
  | zero => exact ⟨_, rfl, rfl⟩
  | succ d ih =>
      have hword : cw[lvl]? = some cw[lvl] := List.getElem?_eq_getElem (by omega)
      have hrest : lvl + 1 + d ≤ cw.length := by omega
      obtain ⟨left, hleft, hl⟩ := ih hrest ((prg A n.s).1.correct n.t cw[lvl].s cw[lvl].tL)
      obtain ⟨right, hright, hr⟩ := ih hrest ((prg A n.s).2.correct n.t cw[lvl].s cw[lvl].tR)
      refine ⟨left ++ right, ?_, ?_⟩
      · simp only [evalFullRecursive, children_eq hword, hleft, hright, Option.bind_eq_bind,
          Option.bind_some]
      · rw [List.length_append, hl, hr, Nat.pow_succ, Nat.mul_two]

/-- **Evaluation is total** on a key with a word for each level. -/
theorem evalFull_total {key : DPFkey} {logN : ℕ} (hlog : logN ≤ 63)
    (hcw : logN - 7 ≤ key.cw.length) :
    ∃ bits, evalFull A key logN = some bits ∧ bits.length = 16 * 2 ^ (logN - 7) := by
  have hlen : 0 + (logN - 7) ≤ key.cw.length := by omega
  obtain ⟨blocks, hblocks, hleaves⟩ := evalFullRecursive_total (A := A) key.last hlen key.root
  refine ⟨(blocks.map Bytes.toList).flatten, ?_, ?_⟩
  · rw [evalFull, if_neg (Nat.not_lt.mpr hlog), hblocks]
    rfl
  · rw [length_flatten_rows, hleaves, Nat.mul_comm]

/-! ## The two keys of a point -/

/-- Two nodes become one, if one of them is corrected by their difference. -/
theorem Node.correct_meet (a b : Node) {on on' : Bool} (h : on ≠ on') :
    a.correct on (a.s + b.s) (a.t ^^ b.t) = b.correct on' (a.s + b.s) (a.t ^^ b.t) := by
  cases on <;> cases on'
  · exact absurd rfl h
  · simp [Node.correct, add_comm a.s, Bool.xor_comm a.t]
  · simp [Node.correct]
  · exact absurd rfl h

/-- If one of them is corrected by the other difference, their control bits differ. -/
theorem Node.correct_apart (a b : Node) {on on' : Bool} (h : on ≠ on') (s : Bytes 16) :
    (a.correct on s (a.t ^^ b.t ^^ true)).t ≠ (b.correct on' s (a.t ^^ b.t ^^ true)).t := by
  cases on <;> cases on'
  · exact absurd rfl h
  · cases h0 : a.t <;> cases h1 : b.t <;> simp [Node.correct, h0, h1]
  · cases h0 : a.t <;> cases h1 : b.t <;> simp [Node.correct, h0, h1]
  · exact absurd rfl h

/-- The children of two nodes on the path, with the word that `Gen` makes for them: one pair is on
the path, with control bits that differ, and the nodes of the other pair are equal. -/
theorem genStep_spec (bit : Bool) {n0 n1 : Node} (hne : n0.t ≠ n1.t) {cw : List CorrectionWord}
    {lvl : ℕ} (hword : cw[lvl]? = some (genStep A bit n0 n1).1) :
    ∃ off, (genStep A bit n0 n1).2.1.t ≠ (genStep A bit n0 n1).2.2.t ∧
      children A cw lvl n0 = some (if bit then (off, (genStep A bit n0 n1).2.1)
        else ((genStep A bit n0 n1).2.1, off)) ∧
      children A cw lvl n1 = some (if bit then (off, (genStep A bit n0 n1).2.2)
        else ((genStep A bit n0 n1).2.2, off)) := by
  rw [children_eq hword, children_eq hword]
  cases bit with
  | true =>
      refine ⟨_, Node.correct_apart _ _ hne _, rfl, ?_⟩
      exact congrArg (fun off => some (off, _)) (Node.correct_meet _ _ hne).symm
  | false =>
      refine ⟨_, Node.correct_apart _ _ hne _, rfl, ?_⟩
      exact congrArg (fun off => some (_, off)) (Node.correct_meet _ _ hne).symm

/-- The leaves of two subtrees on the path differ in one place. -/
theorem evalFullRecursive_path {alpha logN : ℕ} {cw : List CorrectionWord} (last : Bytes 16)
    {d i : ℕ} {n0 n1 : Node} (hne : n0.t ≠ n1.t) (hdepth : d = 0 ∨ logN = 7 + i + d)
    (hlen : i + d ≤ cw.length)
    (hcw : ∀ j < d, cw[i + j]? = (genLoop A alpha logN d i n0 n1).1[j]?) :
    ∃ l0 l1, evalFullRecursive A cw last d i n0 = some l0 ∧
      evalFullRecursive A cw last d i n1 = some l1 ∧ l0.length = 2 ^ d ∧ l1.length = 2 ^ d ∧
      ∀ x < 2 ^ d, l0.getD x 0 + l1.getD x 0 = if x = alpha / 128 % 2 ^ d then
        A.mmoL (genLoop A alpha logN d i n0 n1).2.1.s +
          A.mmoL (genLoop A alpha logN d i n0 n1).2.2.s + last else 0 := by
  induction d generalizing i n0 n1 with
  | zero =>
      refine ⟨_, _, rfl, rfl, rfl, rfl, ?_⟩
      intro x hx
      obtain rfl : x = 0 := by omega
      have hpath : (0 : ℕ) = alpha / 128 % 2 ^ 0 := (Nat.mod_one _).symm
      rw [if_pos hpath, genLoop]
      -- one of the two leaves has the last block
      cases h0 : n0.t <;> cases h1 : n1.t
      · exact absurd (h0.trans h1.symm) hne
      · simp [add_assoc]
      · simp [add_right_comm]
      · exact absurd (h0.trans h1.symm) hne
  | succ d ih =>
      have hlog : logN = 7 + i + (d + 1) := hdepth.resolve_left (Nat.succ_ne_zero d)
      have hbit : alpha.testBit (logN - 1 - i) = (alpha / 128).testBit d := by
        rw [show (128 : ℕ) = 2 ^ 7 from rfl, Nat.testBit_div_two_pow]
        refine congrArg alpha.testBit ?_
        omega
      have hsplit : alpha / 128 % 2 ^ (d + 1) =
          alpha / 128 % 2 ^ d + 2 ^ d * ((alpha / 128).testBit d).toNat := by
        rw [Nat.toNat_testBit, Nat.mod_pow_succ]
      rw [genLoop, hbit] at hcw ⊢
      dsimp only at hcw ⊢
      generalize (alpha / 128).testBit d = bit at hcw hsplit ⊢
      have hword : cw[i]? = some (genStep A bit n0 n1).1 := by
        simpa using hcw 0 (Nat.succ_pos d)
      obtain ⟨off, hne', hc0, hc1⟩ := genStep_spec bit hne hword
      obtain ⟨l0, l1, hl0, hl1, hlen0, hlen1, hsum⟩ := @ih (i + 1) _ _ hne' (Or.inr (by omega))
        (by omega) (by
          intro j hj
          have hnext := hcw (j + 1) (by omega)
          rwa [List.getElem?_cons_succ, Nat.add_comm j, ← Nat.add_assoc] at hnext)
      have hrest : i + 1 + d ≤ cw.length := by omega
      obtain ⟨other, hother, hleno⟩ := evalFullRecursive_total (A := A) last hrest off
      have htwo : 2 ^ (d + 1) = 2 ^ d + 2 ^ d := by rw [Nat.pow_succ, Nat.mul_two]
      have hlow := Nat.mod_lt (alpha / 128) (Nat.two_pow_pos d)
      cases bit with
      | true =>
          refine ⟨other ++ l0, other ++ l1, ?_, ?_, ?_, ?_, ?_⟩
          · simp only [evalFullRecursive, hc0, if_true, hother, hl0, Option.bind_eq_bind,
              Option.bind_some]
          · simp only [evalFullRecursive, hc1, if_true, hother, hl1, Option.bind_eq_bind,
              Option.bind_some]
          · rw [List.length_append, hleno, hlen0, htwo]
          · rw [List.length_append, hleno, hlen1, htwo]
          · intro x hx
            rw [getD_append, getD_append, hleno, hsplit, Bool.toNat_true, Nat.mul_one]
            by_cases hx' : x < 2 ^ d
            · rw [if_pos hx', if_pos hx', if_neg (by omega), XorGroup.add_self]
            · rw [if_neg hx', if_neg hx', hsum _ (by omega)]
              exact if_congr (by omega) rfl rfl
      | false =>
          refine ⟨l0 ++ other, l1 ++ other, ?_, ?_, ?_, ?_, ?_⟩
          · simp only [evalFullRecursive, hc0, Bool.false_eq_true, if_false, hother, hl0,
              Option.bind_eq_bind, Option.bind_some]
          · simp only [evalFullRecursive, hc1, Bool.false_eq_true, if_false, hother, hl1,
              Option.bind_eq_bind, Option.bind_some]
          · rw [List.length_append, hleno, hlen0, htwo]
          · rw [List.length_append, hleno, hlen1, htwo]
          · intro x hx
            rw [getD_append, getD_append, hlen0, hlen1, hsplit, Bool.toNat_false, Nat.mul_zero,
              Nat.add_zero]
            by_cases hx' : x < 2 ^ d
            · rw [if_pos hx', if_pos hx', hsum x hx']
            · rw [if_neg hx', if_neg hx', if_neg (by omega), XorGroup.add_self]

/-- **The vectors of the two keys** differ in the bit of the point, whatever the permutations and the
draws are. -/
theorem gen_correct (draw : Bytes 16 × Bytes 16) {alpha logN : ℕ} (halpha : alpha < 2 ^ logN)
    (hlog : logN ≤ 63) :
    ∃ keyL keyR bitsL bitsR, gen A draw alpha logN = some (keyL, keyR) ∧
      evalFull A keyL logN = some bitsL ∧ evalFull A keyR logN = some bitsR ∧
      bitsL.length = 16 * 2 ^ (logN - 7) ∧ bitsR.length = 16 * 2 ^ (logN - 7) ∧
      ∀ x < 2 ^ (logN - 7), rowAt 16 bitsL x + rowAt 16 bitsR x =
        if x = alpha / 128 then pointBlock (alpha % 128) else 0 := by
  have hguard : ¬(2 ^ logN ≤ alpha ∨ 63 < logN) := by omega
  have hhigh : alpha / 128 % 2 ^ (logN - 7) = alpha / 128 := by
    apply Nat.mod_eq_of_lt
    rw [Nat.div_lt_iff_lt_mul (by decide), show (128 : ℕ) = 2 ^ 7 from rfl, ← Nat.pow_add]
    exact halpha.trans_le (Nat.pow_le_pow_right (by decide) (by omega))
  let n0 : Node := .ofBlock draw.1
  let n1 : Node := ⟨clr draw.2, n0.t ^^ true⟩
  let path := genLoop A alpha logN (logN - 7) 0 n0 n1
  let last := A.mmoL path.2.1.s + A.mmoL path.2.2.s + pointBlock (alpha % 128)
  have hne : n0.t ≠ n1.t := by simp [n1]
  have hlen : path.1.length = logN - 7 := genLoop_length ..
  obtain ⟨l0, l1, hl0, hl1, hlen0, hlen1, hsum⟩ := @evalFullRecursive_path A alpha logN path.1 last
    (logN - 7) 0 n0 n1 hne (by omega) (by omega) (fun j _ => by rw [Nat.zero_add])
  have hlast : A.mmoL path.2.1.s + A.mmoL path.2.2.s + last = pointBlock (alpha % 128) := by
    rw [XorGroup.add_self_add]
  refine ⟨⟨n0, path.1, last⟩, ⟨n1, path.1, last⟩, (l0.map Bytes.toList).flatten,
    (l1.map Bytes.toList).flatten, ?_, ?_, ?_, ?_, ?_, ?_⟩
  · rw [gen, if_neg hguard]
  · rw [evalFull, if_neg (Nat.not_lt.mpr hlog), hl0]
    rfl
  · rw [evalFull, if_neg (Nat.not_lt.mpr hlog), hl1]
    rfl
  · rw [length_flatten_rows, hlen0, Nat.mul_comm]
  · rw [length_flatten_rows, hlen1, Nat.mul_comm]
  · intro x hx
    have h0 : x < l0.length := hlen0 ▸ hx
    have h1 : x < l1.length := hlen1 ▸ hx
    have hleaf := hsum x hx
    rw [hhigh, hlast] at hleaf
    rw [rowAt_flatten l0 h0, rowAt_flatten l1 h1, ← hleaf]
    simp [List.getD_eq_getElem?_getD, h0, h1]

end SinglePassPIR.Dpf
