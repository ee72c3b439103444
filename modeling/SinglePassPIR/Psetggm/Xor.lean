import SinglePassPIR.Lib.Loop
import SinglePassPIR.Lib.Bytes

/-!
# The XOR kernels

`xor.cpp` holds every kernel twice, once for AVX2 and once for SSE (or its NEON
emulation). The two versions of `xor_into`, `xor_all_rows` and `xor_single_pass` differ
only in the width of the vector loop, and the two versions of `xor_rows` in one piece of
the tail besides; `Build` is that parameter. A pointer is the list of bytes from the cell
it points at to the end of the allocation, and an access beyond it is a fault.

The kernels take their lengths as `unsigned int` and count rows in an `int`. `cUint` is
the conversion at the Go side of the call; a count that an `int` cannot reach is
undefined behaviour in the loop, which `intLoop` makes a fault.

## Main results

* `xorInto_eq`, `xorAllRows_spec`, `xorSinglePass_spec` — each kernel is the byte-wise XOR
  of the rows it selects, in both builds.
-/

namespace SinglePassPIR.Psetggm

/-- Which half of the `#ifdef __AVX2__` was compiled. -/
inductive Build
  | avx2
  | sse
  deriving DecidableEq, Repr

/-- Bytes per vector register. -/
def Build.lane : Build → ℕ
  | .avx2 => 32
  | .sse => 16

/-- The Go conversion `C.uint(n)`. -/
def cUint (n : ℕ) : ℕ := n % 2 ^ 32

theorem cUint_eq {n : ℕ} (h : n < 2 ^ 32) : cUint n = n := Nat.mod_eq_of_lt h

/-- `for (int i = 0; i < n; i++)` against an `unsigned` bound: the increment that would
pass `INT_MAX` is undefined. -/
def intLoop {σ : Type} (n : ℕ) (f : ℕ → σ → Option σ) (s : σ) : Option σ :=
  if n < 2 ^ 31 then loop n f s else none

theorem intLoop_eq {σ : Type} {n : ℕ} (h : n < 2 ^ 31) (f : ℕ → σ → Option σ) (s : σ) :
    intLoop n f s = loop n f s := if_pos h

/-! ## One row into another -/

/-- Byte-wise XOR of two vector registers. -/
def xorVec (a b : List UInt8) : List UInt8 := List.zipWith (· ^^^ ·) a b

theorem length_xorVec {a b : List UInt8} (h : a.length = b.length) :
    (xorVec a b).length = a.length := by simp [xorVec, h]

theorem getD_xorVec {a b : List UInt8} (h : a.length = b.length) (k : ℕ) :
    (xorVec a b).getD k 0 = a.getD k 0 ^^^ b.getD k 0 := by
  by_cases hk : k < a.length
  · have hk' : k < b.length := h ▸ hk
    simp [xorVec, List.getD_eq_getElem?_getD, hk, hk']
  · rw [getD_of_le 0 (by rw [length_xorVec h]; omega), getD_of_le 0 (by omega),
      getD_of_le 0 (by omega)]
    decide

/-- XOR of rows as XOR of vectors. -/
theorem toList_add {n : ℕ} (x y : Bytes n) : (x + y).toList = xorVec x.toList y.toList := by
  have hlen : x.toList.length = y.toList.length := by simp
  refine ext_getD 0 (by rw [length_xorVec hlen]; simp) ?_
  intro k hk
  rw [Bytes.length_toList] at hk
  rw [getD_xorVec hlen]
  exact Bytes.byte_add x y hk

/-- The body of the vector loops: load lane `b` of both operands, XOR, store. -/
def xorLane (w : ℕ) (out inp : List UInt8) (b : ℕ) : Option (List UInt8) := do
  let o ← slice out (w * b) (w * b + w)
  let e ← slice inp (w * b) (w * b + w)
  storeAt out (w * b) (xorVec o e)

/-- `xor_tail_bytes` -/
def xorTailBytes (out inp : List UInt8) (start elemSize : ℕ) : Option (List UInt8) :=
  loop (elemSize - start) (fun i out => do
    let o ← out[start + i]?
    let e ← inp[start + i]?
    writeAt out (start + i) (o ^^^ e)) out

/-- `xor_into` -/
def xorInto (B : Build) (out inp : List UInt8) (elemSize : ℕ) : Option (List UInt8) := do
  let vecBytes := elemSize / B.lane * B.lane
  let out ← intLoop (elemSize / B.lane) (fun b out => xorLane B.lane out inp b) out
  xorTailBytes out inp vecBytes elemSize

/-- The first `m` bytes of `out` replaced by their XOR with `inp`. -/
def xorFirst (m : ℕ) (out inp : List UInt8) : List UInt8 :=
  (List.range out.length).map fun k =>
    if k < m then out.getD k 0 ^^^ inp.getD k 0 else out.getD k 0

@[simp] theorem length_xorFirst (m : ℕ) (out inp : List UInt8) :
    (xorFirst m out inp).length = out.length := by simp [xorFirst]

theorem getD_xorFirst {m k : ℕ} {out : List UInt8} (inp : List UInt8) (hk : k < out.length) :
    (xorFirst m out inp).getD k 0 =
      if k < m then out.getD k 0 ^^^ inp.getD k 0 else out.getD k 0 := by
  simp [xorFirst, List.getD_eq_getElem?_getD, hk]

@[simp] theorem xorFirst_zero (out inp : List UInt8) : xorFirst 0 out inp = out :=
  ext_getD 0 (by simp) fun k hk => by
    rw [length_xorFirst] at hk
    rw [getD_xorFirst inp hk, if_neg (by omega)]

/-- What one lane does, cell by cell. -/
theorem xorLane_spec {w b : ℕ} {out inp : List UInt8} (ho : w * b + w ≤ out.length)
    (hi : w * b + w ≤ inp.length) :
    ∃ out', xorLane w out inp b = some out' ∧ out'.length = out.length ∧
      ∀ k, out'.getD k 0 = if w * b ≤ k ∧ k < w * b + w then out.getD k 0 ^^^ inp.getD k 0
        else out.getD k 0 := by
  obtain ⟨o, hso, hlo, hgo⟩ := slice_spec 0 ho
  obtain ⟨e, hse, hle, hge⟩ := slice_spec 0 hi
  have hlen : (xorVec o e).length = w := (length_xorVec (hlo.trans hle.symm)).trans hlo
  have hfit : w * b + (xorVec o e).length ≤ out.length := by omega
  obtain ⟨out', hst, hlen', hg⟩ := storeAt_spec 0 hfit
  refine ⟨out', by simp [xorLane, hso, hse, hst], hlen', fun k => ?_⟩
  rw [hg, hlen]
  by_cases hk : w * b ≤ k ∧ k < w * b + w
  · have hkw : k - w * b < w := by omega
    have hkk : w * b + (k - w * b) = k := by omega
    rw [if_pos hk, if_pos hk, getD_xorVec (hlo.trans hle.symm), hgo _ hkw, hge _ hkw, hkk]
  · rw [if_neg hk, if_neg hk]

/-- The tail loop extends the XORed prefix from `start` to `elemSize`. -/
theorem xorTailBytes_eq {out inp : List UInt8} {start elemSize : ℕ} (hs : start ≤ elemSize)
    (ho : elemSize ≤ out.length) (hi : elemSize ≤ inp.length) :
    xorTailBytes (xorFirst start out inp) inp start elemSize =
      some (xorFirst elemSize out inp) := by
  rw [xorTailBytes, show xorFirst elemSize out inp =
    xorFirst (start + (elemSize - start)) out inp by congr 1; omega]
  refine loop_eq (fun i => xorFirst (start + i) out inp) rfl fun i hlt => ?_
  have hio : start + i < out.length := by omega
  have hcur : (xorFirst (start + i) out inp)[start + i]? = some (out.getD (start + i) 0) := by
    rw [getElem?_eq_some_getD 0 (by simpa using hio), getD_xorFirst inp hio, if_neg (by omega)]
  have hinp : inp[start + i]? = some (inp.getD (start + i) 0) :=
    getElem?_eq_some_getD 0 (by omega)
  simp only [hcur, hinp, Option.bind_eq_bind, Option.bind_some]
  rw [writeAt_eq (by simpa using hio)]
  refine congrArg some (ext_getD 0 (by simp) fun k hk => ?_)
  rw [List.length_set, length_xorFirst] at hk
  rw [getD_set _ _ _ _ _ (by simpa using hio), getD_xorFirst inp hk, getD_xorFirst inp hk]
  by_cases hki : k = start + i
  · subst hki; simp
  · rw [if_neg hki]
    exact if_congr (by omega) rfl rfl

/-- The vector loop XORs whole lanes. -/
theorem xorLanes_eq (B : Build) {out inp : List UInt8} {elemSize : ℕ} (h32 : elemSize < 2 ^ 32)
    (ho : elemSize ≤ out.length) (hi : elemSize ≤ inp.length) :
    intLoop (elemSize / B.lane) (fun b out => xorLane B.lane out inp b) out =
      some (xorFirst (elemSize / B.lane * B.lane) out inp) := by
  have hlane : 16 ≤ B.lane := by cases B <;> decide
  have hdiv : elemSize / B.lane * B.lane ≤ elemSize := Nat.div_mul_le_self _ _
  have hcount : elemSize / B.lane < 2 ^ 31 :=
    (Nat.div_le_div_left hlane (by decide)).trans_lt (by omega)
  rw [intLoop_eq hcount, mul_comm]
  refine loop_eq (fun b => xorFirst (B.lane * b) out inp) (by simp) fun b hb => ?_
  have hbw : B.lane * b + B.lane ≤ elemSize := by
    calc B.lane * b + B.lane = (b + 1) * B.lane := by rw [Nat.succ_mul, mul_comm]
      _ ≤ elemSize / B.lane * B.lane := Nat.mul_le_mul_right _ hb
      _ ≤ elemSize := hdiv
  have hbo : B.lane * b + B.lane ≤ (xorFirst (B.lane * b) out inp).length := by
    rw [length_xorFirst]; omega
  obtain ⟨out', hx, hlen, hg⟩ := xorLane_spec hbo (hbw.trans hi)
  rw [hx]
  refine congrArg some (ext_getD 0 (by simpa using hlen) fun k hk => ?_)
  rw [hlen, length_xorFirst] at hk
  rw [hg, getD_xorFirst inp hk, getD_xorFirst inp hk, Nat.mul_succ]
  by_cases hk1 : k < B.lane * b
  · rw [if_neg (by omega), if_pos hk1, if_pos (by omega)]
  · rw [if_neg hk1]
    exact if_congr (by omega) rfl rfl

/-- **`xor_into` is byte-wise XOR** on the first `elemSize` bytes, in both builds, and
touches no other byte. -/
theorem xorInto_eq (B : Build) {out inp : List UInt8} {elemSize : ℕ} (h32 : elemSize < 2 ^ 32)
    (ho : elemSize ≤ out.length) (hi : elemSize ≤ inp.length) :
    xorInto B out inp elemSize = some (xorFirst elemSize out inp) := by
  simp only [xorInto, xorLanes_eq B h32 ho hi, Option.bind_eq_bind, Option.bind_some]
  exact xorTailBytes_eq (Nat.div_mul_le_self _ _) ho hi

/-! ## Many rows into one -/

/-- `xor_all_rows` -/
def xorAllRows (B : Build) (db : List UInt8) (numElems elemSize : ℕ) (out : List UInt8) :
    Option (List UInt8) := do
  let out ← storeAt out 0 (List.replicate elemSize 0)
  intLoop numElems (fun i out => xorInto B out (db.drop (i * elemSize)) elemSize) out

/-- XOR of a whole row into a row buffer of the same length. -/
theorem xorFirst_toList {n : ℕ} (x y : Bytes n) (inp : List UInt8)
    (h : ∀ k < n, inp.getD k 0 = y.byte k) : xorFirst n x.toList inp = (x + y).toList := by
  refine ext_getD 0 (by simp) fun k hk => ?_
  rw [length_xorFirst, Bytes.length_toList] at hk
  rw [getD_xorFirst inp (by simpa using hk), if_pos hk, h k hk]
  exact (Bytes.byte_add x y hk).symm

/-- **`xor_all_rows` returns the XOR of the rows of `db`.** -/
theorem xorAllRows_spec (B : Build) {n numElems : ℕ} {db : List UInt8} (out : Bytes n)
    (hn : n < 2 ^ 32) (hm : numElems < 2 ^ 31) (hdb : numElems * n ≤ db.length) :
    xorAllRows B db numElems n out.toList =
      some (∑ i ∈ Finset.range numElems, rowAt n db i).toList := by
  have hset : storeAt out.toList 0 (List.replicate n 0) = some (0 : Bytes n).toList := by
    rw [storeAt_eq (by simp)]
    simp [List.drop_eq_nil_of_le]
  simp only [xorAllRows, hset, Option.bind_eq_bind, Option.bind_some, intLoop_eq hm]
  refine loop_eq (fun i => (∑ j ∈ Finset.range i, rowAt n db j).toList) (by simp) fun i hi => ?_
  have hend : i * n + n ≤ db.length := (block_end_le hi).trans hdb
  rw [xorInto_eq B hn (by simp) (by rw [List.length_drop]; omega), Finset.sum_range_succ]
  refine congrArg some (xorFirst_toList _ _ _ fun k hk => ?_)
  rw [getD_drop, byte_rowAt _ _ hk]

/-! ## Rows into the parities of a permutation -/

/-- `xor_single_pass`: row `i` goes into parity block `inversePerm[i]`. The offset of the
block is a 32-bit product. -/
def xorSinglePass (B : Build) (db : List UInt8) (inversePerm : List ℕ) (permSize : ℕ)
    (parities : List UInt8) (elemSize : ℕ) : Option (List UInt8) :=
  intLoop permSize (fun i parities => do
    let p ← inversePerm[i]?
    let off := p * elemSize % 2 ^ 32
    let parity ← xorInto B (parities.drop off) (db.drop (i * elemSize)) elemSize
    some (parities.take off ++ parity)) parities

/-- XORing a row into block `p` of a buffer of rows. -/
theorem xorBlock_spec (B : Build) {n m p : ℕ} {buf inp : List UInt8} (hn : n < 2 ^ 32)
    (hbuf : buf.length = m * n) (hp : p < m) (hi : n ≤ inp.length) :
    ∃ buf', (do let b ← xorInto B (buf.drop (p * n)) inp n
                some (buf.take (p * n) ++ b)) = some buf' ∧ buf'.length = m * n ∧
      ∀ q < m, rowAt n buf' q = if q = p then rowAt n buf q + rowAt n inp 0 else rowAt n buf q := by
  have hend : p * n + n ≤ buf.length := hbuf ▸ block_end_le hp
  have hdrop : n ≤ (buf.drop (p * n)).length := by rw [List.length_drop]; omega
  refine ⟨buf.take (p * n) ++ xorFirst n (buf.drop (p * n)) inp, ?_, ?_, fun q hq => ?_⟩
  · rw [xorInto_eq B hn hdrop hi]; rfl
  · rw [List.length_append, length_xorFirst, List.length_take, List.length_drop]; omega
  · apply Bytes.ext
    intro k hk
    have htake : (buf.take (p * n)).length = p * n := by rw [List.length_take]; omega
    have hqend : q * n + n ≤ m * n := block_end_le hq
    rw [byte_rowAt _ _ hk, getD_append, htake]
    by_cases hlt : q * n + k < p * n
    · have hne : q ≠ p := by rintro rfl; omega
      rw [if_pos hlt, if_neg hne, getD_take, if_pos hlt, byte_rowAt _ _ hk]
    · rw [if_neg hlt, getD_xorFirst _ (by rw [List.length_drop]; omega), getD_drop]
      have hback : p * n + (q * n + k - p * n) = q * n + k := by omega
      rw [hback]
      by_cases hqp : q = p
      · subst hqp
        rw [Nat.add_sub_cancel_left, if_pos hk, if_pos rfl, Bytes.byte_add _ _ hk,
          byte_rowAt _ _ hk, byte_rowAt _ _ hk, Nat.zero_mul, Nat.zero_add]
      · -- a later block starts past the end of block `p`
        have hnext : (p + 1) * n ≤ q * n := by
          refine Nat.mul_le_mul_right n (Nat.lt_of_le_of_ne ?_ (Ne.symm hqp))
          by_contra hcon
          have := block_end_le (w := n) (not_le.mp hcon)
          omega
        rw [Nat.succ_mul] at hnext
        rw [if_neg (by omega), if_neg hqp, byte_rowAt _ _ hk]

/-- **`xor_single_pass` adds row `i` to parity `inv i`**, for an `inv` that stays below the
number of parities, and changes no other parity. -/
theorem xorSinglePass_spec (B : Build) {n m : ℕ} {db parities : List UInt8} {inversePerm : List ℕ}
    (inv : ℕ → ℕ) (hmn : m * n < 2 ^ 32) (hn : n < 2 ^ 32) (hm : m < 2 ^ 31)
    (hpar : parities.length = m * n) (hdb : m * n ≤ db.length)
    (hinv : ∀ i < m, inversePerm[i]? = some (inv i) ∧ inv i < m) :
    ∃ parities', xorSinglePass B db inversePerm m parities n = some parities' ∧
      parities'.length = m * n ∧ ∀ q < m, rowAt n parities' q = rowAt n parities q +
        ∑ i ∈ Finset.range m, if inv i = q then rowAt n db i else 0 := by
  rw [xorSinglePass, intLoop_eq hm]
  refine loop_spec (fun i par => par.length = m * n ∧ ∀ q < m, rowAt n par q =
    rowAt n parities q + ∑ j ∈ Finset.range i, if inv j = q then rowAt n db j else 0)
    ⟨hpar, fun q _ => by simp⟩ ?_
  rintro i hi par ⟨hlen, hrows⟩
  obtain ⟨hread, hlt⟩ := hinv i hi
  have hoff : inv i * n % 2 ^ 32 = inv i * n :=
    Nat.mod_eq_of_lt ((Nat.mul_le_mul_right n hlt.le).trans_lt hmn)
  have hrow : n ≤ (db.drop (i * n)).length := by
    have := block_end_le (w := n) hi
    rw [List.length_drop]; omega
  obtain ⟨par', hstep, hlen', hrows'⟩ := xorBlock_spec B hn hlen hlt hrow
  refine ⟨par', ?_, hlen', fun q hq => ?_⟩
  · simpa only [hread, hoff, Option.bind_eq_bind, Option.bind_some] using hstep
  · have hzero : rowAt n (db.drop (i * n)) 0 = rowAt n db i := by
      apply Bytes.ext
      intro k hk
      rw [byte_rowAt _ _ hk, byte_rowAt _ _ hk, getD_drop, Nat.zero_mul, Nat.zero_add]
    rw [hrows' q hq, hrows q hq, Finset.sum_range_succ, hzero]
    by_cases hqi : q = inv i
    · rw [if_pos hqi, if_pos hqi.symm, add_assoc]
    · rw [if_neg hqi, if_neg (Ne.symm hqi), add_zero]

end SinglePassPIR.Psetggm
