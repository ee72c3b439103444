import SinglePassPIR.Dpf.PointFunction

/-!
# Keys of a point function as bytes

`Gen` returns byte slices, and `Eval` and `EvalFull` of `dpf.go` read them back: 16 bytes of the
root and its control bit, 18 bytes for each level, and the last block at the end, wherever that is.
A key from the network may be any bytes. `Eval` walks the one path that `EvalFull` has among all
others.

## Main results

* `evalFull_agrees` — `Eval` and `EvalFull` agree, whatever the bytes are.
* `evalFullBytes_bytes` — on the bytes of a key the readers do what they do on the key.
* `gen_eval` — the two byte strings of `Gen` evaluate to shares of the point function.
-/

namespace SinglePassPIR.Dpf

/-! ## The readers of a key -/

/-- A seed with its control byte -/
structure ByteNode where
  s : Bytes 16
  t : UInt8
  deriving DecidableEq

/-- `k[i : i+16]` -/
def blockAt (k : List UInt8) (i : ℕ) : Option (Bytes 16) :=
  if i + 16 ≤ k.length then some (Bytes.ofFn fun j => k.getD (i + j) 0) else none

/-- The seed with its lowest bit as the control byte. -/
def ByteNode.ofBlock (s : Bytes 16) : ByteNode := ⟨clr s, s.byte 0 &&& 1⟩

/-- The two children of a seed, with the word of their level if the control byte is not zero. -/
def childrenBytes (A : Prf) (k : List UInt8) (lvl : ℕ) (n : ByteNode) :
    Option (ByteNode × ByteNode) :=
  let cL := ByteNode.ofBlock (A.mmoL n.s)
  let cR := ByteNode.ofBlock (A.mmoR n.s)
  if n.t ≠ 0 then do
    let sCW ← blockAt k (17 + lvl * 18)
    let tLCW ← k[17 + lvl * 18 + 16]?
    let tRCW ← k[17 + lvl * 18 + 17]?
    some (⟨cL.s + sCW, cL.t ^^^ tLCW⟩, ⟨cR.s + sCW, cR.t ^^^ tRCW⟩)
  else some (cL, cR)

/-- The block of a leaf, with the last 16 bytes of the key if its control byte is not zero. -/
def leafBytes (A : Prf) (k : List UInt8) (n : ByteNode) : Option (Bytes 16) :=
  if n.t ≠ 0 then (blockAt k (k.length - 16)).map fun last => A.mmoL n.s + last
  else some (A.mmoL n.s)

/-- `evalFullRecursive` -/
def evalFullRecursiveBytes (A : Prf) (k : List UInt8) :
    ℕ → ℕ → ByteNode → Option (List (Bytes 16))
  | 0, _, n => (leafBytes A k n).map fun leaf => [leaf]
  | d + 1, lvl, n => do
      let c ← childrenBytes A k lvl n
      let left ← evalFullRecursiveBytes A k d (lvl + 1) c.1
      let right ← evalFullRecursiveBytes A k d (lvl + 1) c.2
      some (left ++ right)

/-- The root of a key -/
def rootBytes (k : List UInt8) : Option ByteNode := do some ⟨← blockAt k 0, ← k[16]?⟩

/-- `EvalFull`; the buffer for more than `2 ^ 63` bits cannot be made. -/
def evalFullBytes (A : Prf) (k : List UInt8) (logN : ℕ) : Option (List UInt8) :=
  if 63 < logN then none
  else do
    let blocks ← evalFullRecursiveBytes A k (logN - 7) 0 (← rootBytes k)
    some (blocks.map Bytes.toList).flatten

/-- The loop of `Eval` -/
def evalLoop (A : Prf) (k : List UInt8) (x logN : ℕ) : ℕ → ℕ → ByteNode → Option ByteNode
  | 0, _, n => some n
  | d + 1, lvl, n => do
      let c ← childrenBytes A k lvl n
      evalLoop A k x logN d (lvl + 1) (if x.testBit (logN - 1 - lvl) then c.2 else c.1)

/-- `Eval` -/
def evalBytes (A : Prf) (k : List UInt8) (x logN : ℕ) : Option UInt8 := do
  let n ← evalLoop A k x logN (logN - 7) 0 (← rootBytes k)
  let s ← leafBytes A k n
  some (s.byte (x % 128 / 8) >>> UInt8.ofNat (x % 128 % 8) &&& 1)

/-! ## One path of the tree -/

variable {A : Prf}

/-- The bit of the level below which `d` levels are left. -/
theorem testBit_level {x logN lvl d : ℕ} (h : logN = 7 + lvl + (d + 1)) :
    x.testBit (logN - 1 - lvl) = (x / 128).testBit d := by
  rw [show (128 : ℕ) = 2 ^ 7 from rfl, Nat.testBit_div_two_pow]
  refine congrArg x.testBit ?_
  omega

theorem evalFullRecursiveBytes_length {k : List UInt8} {d lvl : ℕ} {n : ByteNode}
    {blocks : List (Bytes 16)} (h : evalFullRecursiveBytes A k d lvl n = some blocks) :
    blocks.length = 2 ^ d := by
  induction d generalizing lvl n blocks with
  | zero =>
      obtain ⟨leaf, -, rfl⟩ := Option.map_eq_some_iff.mp h
      rfl
  | succ d ih =>
      simp only [evalFullRecursiveBytes, Option.bind_eq_bind, Option.bind_eq_some_iff,
        Option.some.injEq] at h
      obtain ⟨c, -, left, hleft, right, hright, rfl⟩ := h
      rw [List.length_append, ih hleft, ih hright, Nat.pow_succ, Nat.mul_two]

/-- **The path to a leaf.** The loop of `Eval` ends in the leaf that the whole tree has there. -/
theorem evalLoop_leaf {k : List UInt8} {x logN d lvl : ℕ} (hdepth : d = 0 ∨ logN = 7 + lvl + d)
    {n : ByteNode} {blocks : List (Bytes 16)}
    (h : evalFullRecursiveBytes A k d lvl n = some blocks) :
    ∃ n', evalLoop A k x logN d lvl n = some n' ∧
      leafBytes A k n' = some (blocks.getD (x / 128 % 2 ^ d) 0) := by
  induction d generalizing lvl n blocks with
  | zero =>
      obtain ⟨leaf, hleaf, rfl⟩ := Option.map_eq_some_iff.mp h
      refine ⟨n, rfl, ?_⟩
      rw [hleaf, Nat.pow_zero, Nat.mod_one]
      rfl
  | succ d ih =>
      have hlog : logN = 7 + lvl + (d + 1) := hdepth.resolve_left (Nat.succ_ne_zero d)
      have hsplit : x / 128 % 2 ^ (d + 1) =
          x / 128 % 2 ^ d + 2 ^ d * ((x / 128).testBit d).toNat := by
        rw [Nat.toNat_testBit, Nat.mod_pow_succ]
      simp only [evalFullRecursiveBytes, Option.bind_eq_bind, Option.bind_eq_some_iff,
        Option.some.injEq] at h
      obtain ⟨c, hc, left, hleft, right, hright, rfl⟩ := h
      have hlen := evalFullRecursiveBytes_length hleft
      have hlow := Nat.mod_lt (x / 128) (Nat.two_pow_pos d)
      simp only [evalLoop, hc, Option.bind_eq_bind, Option.bind_some, testBit_level hlog]
      rw [hsplit, getD_append, hlen]
      cases (x / 128).testBit d with
      | true =>
          obtain ⟨n', hloop, hleaf⟩ := ih (Or.inr (by omega)) hright
          refine ⟨n', by simpa using hloop, ?_⟩
          rw [hleaf, Bool.toNat_true, Nat.mul_one, if_neg (by omega), Nat.add_sub_cancel]
      | false =>
          obtain ⟨n', hloop, hleaf⟩ := ih (Or.inr (by omega)) hleft
          refine ⟨n', by simpa using hloop, ?_⟩
          rw [hleaf, Bool.toNat_false, Nat.mul_zero, Nat.add_zero, if_pos hlow]

/-- Where the whole tree cannot be computed, the loop of `Eval` fails towards some leaf. -/
theorem evalLoop_none {k : List UInt8} {logN d lvl : ℕ} (hdepth : d = 0 ∨ logN = 7 + lvl + d)
    {n : ByteNode} (h : evalFullRecursiveBytes A k d lvl n = none) :
    ∃ j < 2 ^ d, ∀ x, x / 128 % 2 ^ d = j →
      (evalLoop A k x logN d lvl n).bind (leafBytes A k) = none := by
  induction d generalizing lvl n with
  | zero =>
      refine ⟨0, by decide, ?_⟩
      intro x _
      simpa [evalFullRecursiveBytes, evalLoop] using h
  | succ d ih =>
      have hlog : logN = 7 + lvl + (d + 1) := hdepth.resolve_left (Nat.succ_ne_zero d)
      have htwo : 2 ^ (d + 1) = 2 ^ d + 2 ^ d := by rw [Nat.pow_succ, Nat.mul_two]
      have hsplit : ∀ x, x / 128 % 2 ^ (d + 1) =
          x / 128 % 2 ^ d + 2 ^ d * ((x / 128).testBit d).toNat := by
        intro x
        rw [Nat.toNat_testBit, Nat.mod_pow_succ]
      have hlow := fun x => Nat.mod_lt (x / 128) (Nat.two_pow_pos d)
      cases hc : childrenBytes A k lvl n with
      | none =>
          refine ⟨0, Nat.two_pow_pos _, ?_⟩
          intro x _
          simp [evalLoop, hc]
      | some c =>
          cases hleft : evalFullRecursiveBytes A k d (lvl + 1) c.1 with
          | none =>
              obtain ⟨j, hj, hfail⟩ := ih (Or.inr (by omega)) hleft
              refine ⟨j, by omega, ?_⟩
              intro x hx
              rw [hsplit] at hx
              have hbit : (x / 128).testBit d = false := by
                cases hb : (x / 128).testBit d with
                | false => rfl
                | true => simp [hb] at hx; omega
              rw [hbit, Bool.toNat_false, Nat.mul_zero, Nat.add_zero] at hx
              simpa [evalLoop, hc, testBit_level hlog, hbit] using hfail x hx
          | some left =>
              have hright : evalFullRecursiveBytes A k d (lvl + 1) c.2 = none := by
                cases hright : evalFullRecursiveBytes A k d (lvl + 1) c.2 with
                | none => rfl
                | some right => simp [evalFullRecursiveBytes, hc, hleft, hright] at h
              obtain ⟨j, hj, hfail⟩ := ih (Or.inr (by omega)) hright
              refine ⟨j + 2 ^ d, by omega, ?_⟩
              intro x hx
              rw [hsplit] at hx
              have hbit : (x / 128).testBit d = true := by
                cases hb : (x / 128).testBit d with
                | true => rfl
                | false =>
                    have := hlow x
                    simp [hb] at hx
                    omega
              rw [hbit, Bool.toNat_true, Nat.mul_one, Nat.add_right_cancel_iff] at hx
              simpa [evalLoop, hc, testBit_level hlog, hbit] using hfail x hx

/-- Bit `x` of a vector -/
def bitAt (bits : List UInt8) (x : ℕ) : UInt8 := bits.getD (x / 8) 0 >>> UInt8.ofNat (x % 8) &&& 1

/-- Where the whole vector can be computed, the walk along one path gives its bit. -/
theorem evalBytes_of_evalFull {k : List UInt8} {logN : ℕ} {bits : List UInt8}
    (h : evalFullBytes A k logN = some bits) {x : ℕ} (hx : x < 2 ^ logN) :
    evalBytes A k x logN = some (bitAt bits x) := by
  by_cases hlog : 63 < logN
  · simp [evalFullBytes, hlog] at h
  simp only [evalFullBytes, if_neg hlog, Option.bind_eq_bind, Option.bind_eq_some_iff,
    Option.some.injEq] at h
  obtain ⟨root, hroot, blocks, hblocks, rfl⟩ := h
  have hlen := evalFullRecursiveBytes_length hblocks
  have hhigh : x / 128 < 2 ^ (logN - 7) := by
    rw [Nat.div_lt_iff_lt_mul (by decide), show (128 : ℕ) = 2 ^ 7 from rfl, ← Nat.pow_add]
    exact hx.trans_le (Nat.pow_le_pow_right (by decide) (by omega))
  have hdepth : logN - 7 = 0 ∨ logN = 7 + 0 + (logN - 7) := by omega
  obtain ⟨n, hloop, hleaf⟩ := evalLoop_leaf (x := x) hdepth hblocks
  rw [Nat.mod_eq_of_lt hhigh] at hleaf
  simp only [evalBytes, hroot, hloop, hleaf, Option.bind_eq_bind, Option.bind_some,
    Option.some.injEq, bitAt]
  have hbyte : (blocks.getD (x / 128) 0).byte (x % 128 / 8) =
      (blocks.map Bytes.toList).flatten.getD (x / 8) 0 := by
    have hrow := rowAt_flatten blocks (hlen ▸ hhigh)
    rw [List.getD_eq_getElem _ _ (hlen ▸ hhigh), ← hrow, byte_rowAt _ _ (by omega)]
    refine congrArg (List.getD _ · 0) ?_
    omega
  rw [hbyte, show x % 128 % 8 = x % 8 by omega]

/-- **`EvalFull` agrees with `Eval`** on any bytes: either both give every bit, or `EvalFull` fails
and so does `Eval` for some input. -/
theorem evalFull_agrees (A : Prf) (k : List UInt8) {logN : ℕ} (hlog : logN ≤ 63) :
    (∃ bits, evalFullBytes A k logN = some bits ∧ bits.length = 16 * 2 ^ (logN - 7) ∧
      ∀ x < 2 ^ logN, evalBytes A k x logN = some (bitAt bits x)) ∨
    (evalFullBytes A k logN = none ∧ ∃ x < 2 ^ logN, evalBytes A k x logN = none) := by
  have hguard := Nat.not_lt.mpr hlog
  have hdepth : logN - 7 = 0 ∨ logN = 7 + 0 + (logN - 7) := by omega
  cases hroot : rootBytes k with
  | none => exact Or.inr ⟨by simp [evalFullBytes, hroot], 0, Nat.two_pow_pos _,
      by simp [evalBytes, hroot]⟩
  | some root =>
      cases hblocks : evalFullRecursiveBytes A k (logN - 7) 0 root with
      | some blocks =>
          have hfull : evalFullBytes A k logN = some (blocks.map Bytes.toList).flatten := by
            simp [evalFullBytes, hguard, hroot, hblocks]
          refine Or.inl ⟨_, hfull, ?_, fun x hx => evalBytes_of_evalFull hfull hx⟩
          rw [length_flatten_rows, evalFullRecursiveBytes_length hblocks, Nat.mul_comm]
      | none =>
          obtain ⟨j, hj, hfail⟩ := evalLoop_none hdepth hblocks
          refine Or.inr ⟨by simp [evalFullBytes, hguard, hroot, hblocks], ?_⟩
          have hinput : 128 * j < 2 ^ logN := by
            by_cases hlow : logN ≤ 7
            · rw [Nat.sub_eq_zero_of_le hlow, Nat.pow_zero, Nat.lt_one_iff] at hj
              rw [hj, Nat.mul_zero]
              exact Nat.two_pow_pos _
            · rw [show logN = 7 + (logN - 7) by omega, Nat.pow_add]
              exact Nat.mul_lt_mul_of_pos_left hj (by decide)
          have hpath := hfail (128 * j) (by
            rw [Nat.mul_div_cancel_left j (by decide), Nat.mod_eq_of_lt hj])
          refine ⟨128 * j, hinput, ?_⟩
          simp only [evalBytes, hroot, Option.bind_eq_bind, Option.bind_some]
          rw [← Option.bind_assoc, hpath, Option.bind_none]

/-- A key without the word of the only level, and with the control byte set. -/
theorem evalFull_agrees_short_key :
    ∃ x < 2 ^ 8, evalBytes ⟨id, id⟩ (List.replicate 33 1) x 8 = none := by
  have hfull : evalFullBytes ⟨id, id⟩ (List.replicate 33 1) 8 = none := by decide
  cases evalFull_agrees ⟨id, id⟩ (List.replicate 33 1) (show 8 ≤ 63 by decide) with
  | inl h =>
      obtain ⟨bits, hbits, -⟩ := h
      rw [hfull] at hbits
      cases hbits
  | inr h => exact h.2

/-! ## The bytes of a key -/

/-- A control bit as a byte -/
def controlByte (t : Bool) : UInt8 := if t then 1 else 0

/-- What `Gen` appends for a level -/
def CorrectionWord.bytes (w : CorrectionWord) : List UInt8 :=
  w.s.toList ++ [controlByte w.tL, controlByte w.tR]

/-- The slice that `Gen` returns for a key -/
def DPFkey.bytes (key : DPFkey) : List UInt8 :=
  key.root.s.toList ++ controlByte key.root.t ::
    ((key.cw.map CorrectionWord.bytes).flatten ++ key.last.toList)

/-- `Gen`, with the two blocks that it draws -/
def genBytes (A : Prf) (draw : Bytes 16 × Bytes 16) (alpha logN : ℕ) :
    Option (List UInt8 × List UInt8) :=
  (gen A draw alpha logN).map fun keys => (keys.1.bytes, keys.2.bytes)

/-- The node with its control bit as a byte. -/
def ByteNode.of (n : Node) : ByteNode := ⟨n.s, controlByte n.t⟩

@[simp] theorem CorrectionWord.length_bytes (w : CorrectionWord) : w.bytes.length = 18 := by
  simp [bytes]

theorem length_words (cw : List CorrectionWord) :
    (cw.map CorrectionWord.bytes).flatten.length = cw.length * 18 := by
  induction cw with
  | nil => rfl
  | cons w cw ih =>
      rw [List.map_cons, List.flatten_cons, List.length_append, ih, CorrectionWord.length_bytes,
        List.length_cons]
      omega

/-- **The length of a key.** -/
theorem DPFkey.length_bytes (key : DPFkey) : key.bytes.length = 33 + key.cw.length * 18 := by
  simp only [bytes, List.length_append, List.length_cons, length_words, Bytes.length_toList]
  omega

theorem blockAt_append {l r : List UInt8} (x : Bytes 16) {i : ℕ} (hi : l.length = i) :
    blockAt (l ++ (x.toList ++ r)) i = some x := by
  subst hi
  rw [blockAt, if_pos (by simp)]
  congr 1
  apply Bytes.ext
  intro j hj
  rw [Bytes.byte_ofFn _ hj, getD_append, if_neg (by omega), Nat.add_sub_cancel_left, getD_append,
    if_pos (by simpa using hj)]
  rfl

/-- Where the word of a level is. -/
theorem DPFkey.bytes_split (key : DPFkey) {lvl : ℕ} {w : CorrectionWord}
    (hw : key.cw[lvl]? = some w) : ∃ front rest, front.length = 17 + lvl * 18 ∧
      key.bytes = front ++ (w.s.toList ++ controlByte w.tL :: controlByte w.tR :: rest) := by
  obtain ⟨hlvl, rfl⟩ := List.getElem?_eq_some_iff.mp hw
  have hcw : key.cw = key.cw.take lvl ++ key.cw[lvl] :: key.cw.drop (lvl + 1) := by simp
  refine ⟨key.root.s.toList ++ controlByte key.root.t ::
    ((key.cw.take lvl).map CorrectionWord.bytes).flatten,
    ((key.cw.drop (lvl + 1)).map CorrectionWord.bytes).flatten ++ key.last.toList, ?_, ?_⟩
  · simp only [List.length_append, List.length_cons, length_words, Bytes.length_toList,
      List.length_take]
    omega
  · have hwords : (key.cw.map CorrectionWord.bytes).flatten =
        ((key.cw.take lvl).map CorrectionWord.bytes).flatten ++
          (key.cw[lvl].bytes ++ ((key.cw.drop (lvl + 1)).map CorrectionWord.bytes).flatten) := by
      rw [← List.flatten_cons, ← List.map_cons, ← List.flatten_append, ← List.map_append, ← hcw]
    simp only [bytes, hwords, CorrectionWord.bytes, List.append_assoc, List.cons_append,
      List.nil_append]

theorem controlByte_ne_zero (t : Bool) : controlByte t ≠ 0 ↔ t = true := by
  cases t <;> simp [controlByte]

theorem controlByte_xor (t t' : Bool) : controlByte t ^^^ controlByte t' = controlByte (t ^^ t') := by
  cases t <;> cases t' <;> rfl

theorem and_one_eq (b : UInt8) : b &&& 1 = controlByte (decide (b &&& 1 ≠ 0)) := by
  have hbit : (b &&& 1).toNat = b.toNat % 2 := by
    rw [UInt8.toNat_and]
    exact Nat.and_one_is_mod _
  have hcase : b &&& 1 = 0 ∨ b &&& 1 = 1 := by
    rcases Nat.mod_two_eq_zero_or_one b.toNat with h | h
    · exact Or.inl (UInt8.toNat_inj.mp (hbit.trans h))
    · exact Or.inr (UInt8.toNat_inj.mp (hbit.trans h))
  rcases hcase with h | h <;> rw [h] <;> rfl

theorem ByteNode.of_ofBlock (s : Bytes 16) : ByteNode.of (Node.ofBlock s) = ByteNode.ofBlock s := by
  rw [ByteNode.of, Node.ofBlock, ByteNode.ofBlock, getT, ← and_one_eq]

/-! ## The readers on the bytes of a key -/

variable {key : DPFkey}

/-- The children of a node -/
theorem childrenBytes_bytes {lvl : ℕ} (hlvl : lvl < key.cw.length) (n : Node) :
    childrenBytes A key.bytes lvl (.of n) =
      (children A key.cw lvl n).map fun c => (ByteNode.of c.1, ByteNode.of c.2) := by
  have hw := List.getElem?_eq_getElem hlvl
  obtain ⟨front, rest, hlen, hbytes⟩ := key.bytes_split hw
  have hblock : blockAt key.bytes (17 + lvl * 18) = some key.cw[lvl].s := by
    rw [hbytes]
    exact blockAt_append _ hlen
  have hleft : key.bytes[17 + lvl * 18 + 16]? = some (controlByte key.cw[lvl].tL) := by
    rw [hbytes, List.getElem?_append_right (by omega), List.getElem?_append_right (by simp; omega)]
    simp [hlen]
  have hright : key.bytes[17 + lvl * 18 + 17]? = some (controlByte key.cw[lvl].tR) := by
    rw [hbytes, List.getElem?_append_right (by omega), List.getElem?_append_right (by simp; omega)]
    simp [hlen]
  rw [childrenBytes, children_eq hw]
  cases ht : n.t with
  | true =>
      simp only [ByteNode.of, ht, controlByte_ne_zero, if_true, hblock, hleft, hright,
        Option.bind_eq_bind, Option.bind_some, Option.map_some, Node.correct, prg,
        ← ByteNode.of_ofBlock, controlByte_xor]
  | false =>
      simp only [ByteNode.of, ht, controlByte_ne_zero, Bool.false_eq_true, if_false,
        Option.map_some, Node.correct, prg, ← ByteNode.of_ofBlock]

/-- The last block -/
theorem leafBytes_bytes (n : Node) : leafBytes A key.bytes (.of n) =
    some (if n.t then A.mmoL n.s + key.last else A.mmoL n.s) := by
  have hlast : blockAt key.bytes (key.bytes.length - 16) = some key.last := by
    have hlen := key.length_bytes
    have hbytes : key.bytes = (key.root.s.toList ++ controlByte key.root.t ::
        (key.cw.map CorrectionWord.bytes).flatten) ++ (key.last.toList ++ []) := by
      simp [DPFkey.bytes]
    conv_lhs => rw [hbytes]
    refine blockAt_append _ ?_
    simp only [List.length_append, List.length_cons, length_words, Bytes.length_toList,
      List.length_nil]
    omega
  rw [leafBytes, hlast]
  cases ht : n.t <;> simp [ByteNode.of, ht, controlByte]

theorem rootBytes_bytes : rootBytes key.bytes = some (.of key.root) := by
  have hblock : blockAt key.bytes 0 = some key.root.s := by
    have h := @blockAt_append [] (controlByte key.root.t ::
      ((key.cw.map CorrectionWord.bytes).flatten ++ key.last.toList)) key.root.s 0 rfl
    exact h
  have hbyte : key.bytes[16]? = some (controlByte key.root.t) := by
    rw [DPFkey.bytes, List.getElem?_append_right (by simp)]
    simp
  rw [rootBytes, hblock, hbyte]
  rfl

theorem evalFullRecursiveBytes_bytes {d lvl : ℕ} (hlvl : lvl + d ≤ key.cw.length) (n : Node) :
    evalFullRecursiveBytes A key.bytes d lvl (.of n) =
      evalFullRecursive A key.cw key.last d lvl n := by
  induction d generalizing lvl n with
  | zero => rw [evalFullRecursiveBytes, leafBytes_bytes, evalFullRecursive, Option.map_some]
  | succ d ih =>
      rw [evalFullRecursiveBytes, evalFullRecursive, childrenBytes_bytes (by omega)]
      cases children A key.cw lvl n with
      | none => rfl
      | some c =>
          simp only [Option.map_some, Option.bind_eq_bind, Option.bind_some,
            ih (show lvl + 1 + d ≤ key.cw.length by omega)]

/-- **`EvalFull` on the bytes of a key** with a word for each level. -/
theorem evalFullBytes_bytes {logN : ℕ} (hcw : logN - 7 ≤ key.cw.length) :
    evalFullBytes A key.bytes logN = evalFull A key logN := by
  have hlvl : 0 + (logN - 7) ≤ key.cw.length := by omega
  rw [evalFullBytes, evalFull, rootBytes_bytes, Option.bind_eq_bind, Option.bind_some,
    evalFullRecursiveBytes_bytes hlvl]
  cases evalFullRecursive A key.cw key.last (logN - 7) 0 key.root <;> rfl

/-! ## Shares of a bit -/

theorem gen_words {draw : Bytes 16 × Bytes 16} {alpha logN : ℕ} {keys : DPFkey × DPFkey}
    (h : gen A draw alpha logN = some keys) :
    keys.1.cw.length = logN - 7 ∧ keys.2.cw.length = logN - 7 := by
  rw [gen] at h
  split at h
  · cases h
  · cases h
    exact ⟨genLoop_length .., genLoop_length ..⟩

theorem oneBit_shiftRight {a k : ℕ} (ha : a < 8) (hk : k < 8) :
    (1 : UInt8) <<< UInt8.ofNat a >>> UInt8.ofNat k &&& 1 = if k = a then 1 else 0 := by
  have hall : ∀ a < 8, ∀ k < 8, (1 : UInt8) <<< UInt8.ofNat a >>> UInt8.ofNat k &&& 1 =
      if k = a then 1 else 0 := by decide
  exact hall a ha k hk

/-- The bits of two vectors whose blocks differ in the block of `alpha`. -/
theorem bitAt_xor {bitsL bitsR : List UInt8} {alpha m : ℕ}
    (hsum : ∀ j < m, rowAt 16 bitsL j + rowAt 16 bitsR j =
      if j = alpha / 128 then pointBlock (alpha % 128) else 0) {x : ℕ} (hx : x < 128 * m) :
    bitAt bitsL x ^^^ bitAt bitsR x = if x = alpha then 1 else 0 := by
  have hk : x / 8 % 16 < 16 := Nat.mod_lt _ (by decide)
  have hbyte := congrArg (fun b : Bytes 16 => b.byte (x / 8 % 16)) (hsum (x / 128) (by omega))
  rw [Bytes.byte_add _ _ hk, byte_rowAt _ _ hk, byte_rowAt _ _ hk,
    show x / 128 * 16 + x / 8 % 16 = x / 8 by omega] at hbyte
  have hshift : bitAt bitsL x ^^^ bitAt bitsR x =
      (bitsL.getD (x / 8) 0 ^^^ bitsR.getD (x / 8) 0) >>> UInt8.ofNat (x % 8) &&& 1 := by
    apply UInt8.toNat_inj.mp
    rw [bitAt, bitAt, UInt8.shiftRight_xor, UInt8.toNat_xor, UInt8.toNat_and, UInt8.toNat_and,
      UInt8.toNat_and, UInt8.toNat_xor, Nat.and_xor_distrib_right]
  rw [hshift, hbyte]
  by_cases hblock : x / 128 = alpha / 128
  · rw [if_pos hblock, pointBlock, Bytes.byte_ofFn _ hk]
    by_cases hcell : x / 8 % 16 = alpha % 128 / 8
    · rw [if_pos hcell, oneBit_shiftRight (Nat.mod_lt _ (by decide)) (Nat.mod_lt _ (by decide))]
      exact if_congr (by omega) rfl rfl
    · rw [if_neg hcell, if_neg (show x ≠ alpha by omega)]
      simp
  · rw [if_neg hblock, Bytes.byte_zero hk, if_neg (show x ≠ alpha by omega)]
    simp

/-- **The byte strings of `Gen`** have one length for all points, and `Eval` of them at any `x`
gives two bits that differ at the point only. -/
theorem gen_eval (A : Prf) (draw : Bytes 16 × Bytes 16) {alpha logN : ℕ}
    (halpha : alpha < 2 ^ logN) (hlog : logN ≤ 63) :
    ∃ ka kb, genBytes A draw alpha logN = some (ka, kb) ∧
      ka.length = 33 + (logN - 7) * 18 ∧ kb.length = 33 + (logN - 7) * 18 ∧
      ∀ x < 2 ^ logN, ∃ a b, evalBytes A ka x logN = some a ∧ evalBytes A kb x logN = some b ∧
        a ^^^ b = if x = alpha then 1 else 0 := by
  obtain ⟨keyL, keyR, bitsL, bitsR, hgen, hevalL, hevalR, -, -, hsum⟩ :=
    gen_correct (A := A) draw halpha hlog
  obtain ⟨hcwL, hcwR⟩ := gen_words hgen
  rw [← evalFullBytes_bytes (Nat.le_of_eq hcwL.symm)] at hevalL
  rw [← evalFullBytes_bytes (Nat.le_of_eq hcwR.symm)] at hevalR
  refine ⟨keyL.bytes, keyR.bytes, by rw [genBytes, hgen]; rfl, by rw [DPFkey.length_bytes, hcwL],
    by rw [DPFkey.length_bytes, hcwR], ?_⟩
  intro x hx
  have hcover : 2 ^ logN ≤ 128 * 2 ^ (logN - 7) := by
    rw [show (128 : ℕ) = 2 ^ 7 from rfl, ← Nat.pow_add]
    exact Nat.pow_le_pow_right (by decide) (by omega)
  exact ⟨bitAt bitsL x, bitAt bitsR x, evalBytes_of_evalFull hevalL hx,
    evalBytes_of_evalFull hevalR hx, bitAt_xor hsum (hx.trans_le hcover)⟩

theorem gen_eval_two_levels : ∃ ka kb, genBytes ⟨id, id⟩ (0, 0) 300 9 = some (ka, kb) ∧
    ka.length = 69 ∧ kb.length = 69 ∧
    ∀ x < 512, ∃ a b, evalBytes ⟨id, id⟩ ka x 9 = some a ∧ evalBytes ⟨id, id⟩ kb x 9 = some b ∧
      a ^^^ b = if x = 300 then 1 else 0 :=
  gen_eval ⟨id, id⟩ (0, 0) (show 300 < 2 ^ 9 by decide) (by decide)

end SinglePassPIR.Dpf
