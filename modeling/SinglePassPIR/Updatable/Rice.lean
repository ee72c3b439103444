import SinglePassPIR.Lib.Bits
import SinglePassPIR.Pir.Punc
import Mathlib.Algebra.Order.BigOperators.Group.List

/-!
# The Rice coding of key lists

`rice.go`. A sorted list of 32-bit keys travels as its first key and the differences between
neighbours, each split into a unary quotient and `k` bits of remainder.

A byte mask is a natural number below `256`. The writer's `pos` is always the index of the
last byte of its buffer and is left out. `ReadBits` is called with `1` and with a parameter that
`DecodeRiceIntegers` has checked, so that its panic on other counts is left out.

## Main results

* `decodeLoop_codes` — quotients up to `32` are read back.
* `decodeLoop_bad` — a larger quotient is not.
* `riceParam_roundTrip_iff` — the lists that are read back with a parameter, exactly.
* `rice_roundTrip_iff` — the sorted lists that are read back, exactly.
-/

namespace SinglePassPIR.Updatable
open Pir

/-! ## Bits -/

/-- `bitReader` -/
structure BitReader where
  buf : List UInt8
  mask : ℕ
  deriving DecidableEq, Repr

/-- `newBitReader` -/
def newBitReader (buf : List UInt8) : BitReader := { buf, mask := 0x01 }

/-- The body of the loop of `ReadBits`; `none` is `io.ErrUnexpectedEOF`. -/
def BitReader.readBit (br : BitReader) : Option (Bool × BitReader) :=
  match br.buf with
  | [] => none
  | byte :: buf =>
      let mask := br.mask * 2 % 256
      some (decide (0 < byte.toNat &&& br.mask), if mask = 0 then ⟨buf, 0x01⟩ else ⟨byte :: buf, mask⟩)

/-- The loop of `ReadBits`, from bit `i` on. -/
def BitReader.readBitsLoop : ℕ → ℕ → ℕ → BitReader → Option (ℕ × BitReader)
  | 0, _, v, br => some (v, br)
  | n + 1, i, v, br => do
      let (bit, br) ← br.readBit
      readBitsLoop n (i + 1) (if bit then v ||| 1 <<< i else v) br

/-- `ReadBits` -/
def BitReader.readBits (br : BitReader) (n : ℕ) : Option (ℕ × BitReader) := br.readBitsLoop n 0 0

/-- `BitsRemaining`; the loop over the mask counts its binary digits. -/
def BitReader.bitsRemaining (br : BitReader) : ℕ := 8 * br.buf.length - Nat.log2 (br.mask ||| 1)

/-- `bitWriter` -/
structure BitWriter where
  buf : List UInt8
  mask : ℕ
  deriving DecidableEq, Repr

/-- `newBitWriter` -/
def newBitWriter : BitWriter := { buf := [], mask := 0x00 }

/-- The body of the loop of `Write`. -/
def BitWriter.writeBit (bw : BitWriter) (bit : Bool) : BitWriter :=
  let bw := if bw.mask = 0 then ⟨bw.buf ++ [0], 0x01⟩ else bw
  let buf :=
    if bit then bw.buf.set (bw.buf.length - 1)
      (UInt8.ofNat ((bw.buf.getLastD 0).toNat ||| bw.mask)) else bw.buf
  { buf, mask := bw.mask * 2 % 256 }

/-- `Write` -/
def BitWriter.write (bw : BitWriter) (v : ℕ) : ℕ → BitWriter
  | 0 => bw
  | n + 1 => (bw.writeBit (v.testBit 0)).write (v >>> 1) n

/-! ## Encoding -/

/-- `RiceDeltaEncoding` -/
structure RiceDeltaEncoding where
  firstValue : ℤ
  riceParameter : ℤ
  numEntries : ℤ
  encodedData : List UInt8
  deriving DecidableEq, Repr

/-- `riceEncoder.WriteValue`, with the parameter of the encoder. A shift by `32` or more
gives zero in the code. -/
def writeValue (k : ℕ) (bw : BitWriter) (v : UInt32) : BitWriter :=
  let q := v.toNat >>> k
  let r := v.toNat &&& (((1 <<< k) % 2 ^ 32 + 2 ^ 32 - 1) % 2 ^ 32)
  let qUnary := ((1 <<< q) % 2 ^ 32 + 2 ^ 32 - 1) % 2 ^ 32
  (bw.write qUnary ((q + 1) % 2 ^ 32)).write r k

/-- The differences between neighbours, in 32-bit arithmetic. -/
def deltas : List UInt32 → List UInt32
  | x :: y :: l => (y - x) :: deltas (y :: l)
  | _ => []

/-- `EncodeRiceIntegersWithParam`, on a list that starts with `first`. -/
def encodeRiceIntegersWithParam (first : UInt32) (values : List UInt32) (riceParam : ℤ) :
    RiceDeltaEncoding :=
  let numEntries := Int.bmod (toInt32 (values.length + 1) - 1) (2 ^ 32)
  if numEntries = 0 then ⟨first.toNat, 0, numEntries, []⟩
  else
    let bw := (deltas (first :: values)).foldl (writeValue (riceParam % 2 ^ 32).toNat) newBitWriter
    ⟨first.toNat, riceParam, numEntries, bw.buf⟩

/-- `int32(math.Log2(float64(valRange) / float64(len)))`, truncated towards zero, for positive
arguments; the quotient of two such numbers is never rounded to a power of two. -/
def log2Ratio (valRange len : ℕ) : ℤ :=
  if len ≤ valRange then (Nat.log2 (valRange / len) : ℤ) else -(Nat.log2 (len / valRange) : ℤ)

/-- The parameter that `EncodeRiceIntegers` picks for a list from `first` to `last`. -/
def riceParam (first last : UInt32) (len : ℕ) : ℤ :=
  let valRange := last - first
  if valRange = 0 then 1 else log2Ratio valRange.toNat len

/-- `EncodeRiceIntegers`; `none` is the `nil` encoding of the empty list. -/
def encodeRiceIntegers : List UInt32 → Option RiceDeltaEncoding
  | [] => none
  | first :: values =>
      some (encodeRiceIntegersWithParam first values
        (riceParam first ((first :: values).getLastD 0) (values.length + 1)))

/-! ## Decoding -/

/-- The loop of `ReadValue` over the bits of the quotient. The first argument bounds the number
of bits that are left. -/
def readUnary : ℕ → ℕ → BitReader → Option (ℕ × BitReader)
  | 0, _, _ => none
  | fuel + 1, q, br => do
      let (bit, br) ← br.readBits 1
      let q := (q + bit) % 2 ^ 32
      if bit = 0 then some (q, br) else readUnary fuel q br

/-- `riceDecoder.ReadValue`, with the parameter of the decoder -/
def readValue (k : ℕ) (br : BitReader) : Option (UInt32 × BitReader) := do
  let (q, br) ← readUnary (br.bitsRemaining + 1) 0 br
  let (r, br) ← br.readBits k
  some (UInt32.ofNat (q <<< k + r), br)

/-- The loop of `DecodeRiceIntegers` that reads `n` more values after the value `last`. -/
def decodeLoop (k : ℕ) : ℕ → UInt32 → BitReader → Option (List UInt32 × BitReader)
  | 0, last, br => some ([last], br)
  | n + 1, last, br => do
      let (delta, br) ← readValue k br
      let (values, br) ← decodeLoop k n (last + delta) br
      some (last :: values, br)

/-- The conversion of a number that was converted from a `uint32` -/
@[simp] theorem ofInt_toNat (x : UInt32) : UInt32.ofInt (x.toNat : ℤ) = x := by
  have hmod : ((x.toNat : ℤ) % 2 ^ 32).toNat = x.toNat := by
    have := x.toNat_lt
    omega
  rw [UInt32.ofInt, hmod, UInt32.ofNat_toNat]

/-- `DecodeRiceIntegers` -/
def decodeRiceIntegers (rice : Option RiceDeltaEncoding) : Except String (List UInt32) :=
  match rice with
  | none => .error "safebrowsing: missing rice encoded data"
  | some rice =>
      if rice.riceParameter < 0 ∨ 32 < rice.riceParameter then
        .error "safebrowsing: invalid k parameter"
      else
        match decodeLoop rice.riceParameter.toNat rice.numEntries.toNat
            (UInt32.ofInt rice.firstValue) (newBitReader rice.encodedData) with
        | none => .error "unexpected EOF"
        | some (values, br) =>
            if 8 ≤ br.bitsRemaining then .error "safebrowsing: unconsumed rice encoded data"
            else .ok values

/-! ## The reader -/

/-- The reader has the bits `l` still to read. -/
def BitReader.Reads (br : BitReader) (l : List Bool) : Prop :=
  ∃ j < 8, br.mask = 2 ^ j ∧ (br.buf = [] → j = 0) ∧ l = (bytesBits br.buf).drop j

variable {br : BitReader} {l rest : List Bool}

theorem newBitReader_reads (buf : List UInt8) : (newBitReader buf).Reads (bytesBits buf) :=
  ⟨0, by decide, rfl, fun _ => rfl, rfl⟩

theorem BitReader.Reads.bitsRemaining (h : br.Reads l) : br.bitsRemaining = l.length := by
  obtain ⟨j, hj, hmask, -, rfl⟩ := h
  have hlog : Nat.log2 (2 ^ j ||| 1) = j := by
    interval_cases j <;> decide
  rw [BitReader.bitsRemaining, hmask, hlog, List.length_drop, length_bytesBits]

theorem BitReader.Reads.nil (h : br.Reads []) : br.readBit = none := by
  obtain ⟨j, hj, -, -, hl⟩ := h
  have hlen := congrArg List.length hl
  rw [List.length_drop, length_bytesBits, List.length_nil] at hlen
  have hbuf : br.buf = [] := List.length_eq_zero_iff.mp (by omega)
  rw [BitReader.readBit, hbuf]

theorem BitReader.Reads.cons {b : Bool} (h : br.Reads (b :: l)) :
    ∃ br', br.readBit = some (b, br') ∧ br'.Reads l := by
  obtain ⟨j, hj, hmask, -, hl⟩ := h
  cases hbuf : br.buf with
  | nil => simp [hbuf] at hl
  | cons byte buf =>
      have hle : j ≤ (byteBits byte).length := by simpa using hj.le
      rw [hbuf, bytesBits_cons, List.drop_append_of_le_length hle, drop_byteBits byte hj,
        List.cons_append, List.cons.injEq] at hl
      obtain ⟨rfl, rfl⟩ := hl
      have hbit : decide (0 < byte.toNat &&& 2 ^ j) = byte.toNat.testBit j := by
        rw [Nat.and_two_pow]
        cases byte.toNat.testBit j <;> simp
      rw [BitReader.readBit, hbuf]
      simp only [hmask, hbit]
      by_cases hlast : j = 7
      · subst hlast
        refine ⟨⟨buf, 1⟩, by simp, 0, by decide, rfl, fun _ => rfl, ?_⟩
        have hdrop : (byteBits byte).drop (7 + 1) = [] := List.drop_eq_nil_of_le (by simp)
        rw [hdrop, List.nil_append, List.drop_zero]
      · have hlt : 2 ^ j * 2 < 256 := by
          have hpow : 2 ^ (j + 1) ≤ 2 ^ 7 := Nat.pow_le_pow_right (by decide) (by omega)
          omega
        have hpos := Nat.two_pow_pos j
        rw [Nat.mod_eq_of_lt hlt, if_neg (by omega)]
        refine ⟨⟨byte :: buf, 2 ^ j * 2⟩, rfl, j + 1, by omega, rfl, by simp, ?_⟩
        rw [bytesBits_cons, List.drop_append_of_le_length (by simp; omega)]

theorem readBitsLoop_spec (h : br.Reads (l ++ rest)) {v i : ℕ} (hv : v < 2 ^ i) :
    ∃ br', br.readBitsLoop l.length i v = some (v + 2 ^ i * ofBits l, br') ∧ br'.Reads rest := by
  induction l generalizing br v i with
  | nil => exact ⟨br, by simp [BitReader.readBitsLoop, ofBits], h⟩
  | cons b l ih =>
      obtain ⟨br₁, hbit, h₁⟩ := h.cons
      have hset : (if b then v ||| 1 <<< i else v) = v + 2 ^ i * b.toNat := by
        cases b with
        | false => simp
        | true =>
            rw [if_pos rfl, Nat.one_shiftLeft, Nat.lor_comm]
            simpa [Nat.add_comm] using (Nat.two_pow_add_eq_or_of_lt hv 1).symm
      have hlt : v + 2 ^ i * b.toNat < 2 ^ (i + 1) := by
        have hb := Nat.mul_le_mul_left (2 ^ i) (Bool.toNat_le b)
        rw [Nat.pow_succ]
        omega
      obtain ⟨br', hloop, h'⟩ := ih h₁ hlt
      refine ⟨br', ?_, h'⟩
      rw [List.length_cons, BitReader.readBitsLoop, hbit, Option.bind_eq_bind, Option.bind_some]
      dsimp only
      rw [hset, hloop, ofBits, Nat.pow_succ]
      ring_nf

theorem readBitsLoop_short (h : br.Reads l) {n v i : ℕ} (hn : l.length < n) :
    br.readBitsLoop n i v = none := by
  induction n generalizing br l v i with
  | zero => exact absurd hn (Nat.not_lt_zero _)
  | succ n ih =>
      cases l with
      | nil => rw [BitReader.readBitsLoop, h.nil]; rfl
      | cons b l =>
          obtain ⟨br₁, hbit, h₁⟩ := h.cons
          rw [BitReader.readBitsLoop, hbit]
          exact ih h₁ (by simpa using hn)

theorem readBits_spec (h : br.Reads (l ++ rest)) :
    ∃ br', br.readBits l.length = some (ofBits l, br') ∧ br'.Reads rest := by
  have hloop := readBitsLoop_spec h (v := 0) (i := 0) (by simp)
  simpa [BitReader.readBits] using hloop

theorem readUnary_spec {m fuel q : ℕ} (h : br.Reads (List.replicate m true ++ false :: rest))
    (hfuel : m < fuel) (hq : q + m < 2 ^ 32) :
    ∃ br', readUnary fuel q br = some (q + m, br') ∧ br'.Reads rest := by
  induction m generalizing fuel q br with
  | zero =>
      obtain ⟨fuel, rfl⟩ := Nat.exists_eq_succ_of_ne_zero hfuel.ne'
      obtain ⟨br', hread, h'⟩ := readBits_spec (l := [false]) h
      refine ⟨br', ?_, h'⟩
      have hread' : br.readBits 1 = some (0, br') := hread
      rw [readUnary, hread', Option.bind_eq_bind, Option.bind_some]
      dsimp only
      rw [if_pos rfl, Nat.add_zero, Nat.mod_eq_of_lt (by omega : q < 2 ^ 32)]
  | succ m ih =>
      obtain ⟨fuel, rfl⟩ := Nat.exists_eq_succ_of_ne_zero (Nat.ne_zero_of_lt hfuel)
      obtain ⟨br₁, hread, h₁⟩ := readBits_spec (l := [true]) h
      have hread' : br.readBits 1 = some (1, br₁) := hread
      obtain ⟨br', hrest, h'⟩ := ih h₁ (by omega : m < fuel) (by omega : q + 1 + m < 2 ^ 32)
      refine ⟨br', ?_, h'⟩
      rw [readUnary, hread', Option.bind_eq_bind, Option.bind_some]
      dsimp only
      rw [if_neg Nat.one_ne_zero, Nat.mod_eq_of_lt (by omega : q + 1 < 2 ^ 32), hrest]
      congr 2
      omega

/-- The reader of a value: a quotient in unary, then the remainder. -/
theorem readValue_spec {k q : ℕ} {lr : List Bool} (hlr : lr.length = k) (hq : q < 2 ^ 32)
    (h : br.Reads (List.replicate q true ++ false :: (lr ++ rest))) :
    ∃ br', readValue k br = some (UInt32.ofNat (q * 2 ^ k + ofBits lr), br') ∧ br'.Reads rest := by
  have hfuel : q < br.bitsRemaining + 1 := by
    rw [h.bitsRemaining, List.length_append, List.length_replicate]
    omega
  obtain ⟨br₁, hun, h₁⟩ := readUnary_spec (q := 0) h hfuel (by omega)
  obtain ⟨br', hrem, h'⟩ := readBits_spec h₁
  refine ⟨br', ?_, h'⟩
  rw [readValue, hun, Option.bind_eq_bind, Option.bind_some]
  dsimp only
  rw [← hlr, hrem, Option.bind_some, Nat.zero_add, Nat.shiftLeft_eq]

/-- The reader of a value when the remainder is cut off. -/
theorem readValue_short {k q : ℕ} (hq : q < 2 ^ 32) (hrest : rest.length < k)
    (h : br.Reads (List.replicate q true ++ false :: rest)) : readValue k br = none := by
  have hfuel : q < br.bitsRemaining + 1 := by
    rw [h.bitsRemaining, List.length_append, List.length_replicate]
    omega
  obtain ⟨br₁, hun, h₁⟩ := readUnary_spec (q := 0) h hfuel (by omega)
  rw [readValue, hun, Option.bind_eq_bind, Option.bind_some]
  dsimp only
  rw [BitReader.readBits, readBitsLoop_short h₁ hrest]
  rfl

/-! ## The writer -/

/-- The writer has written the bits `l`. -/
def BitWriter.Holds (bw : BitWriter) (l : List Bool) : Prop :=
  (bw.mask = 0 ∧ l = bytesBits bw.buf) ∨
  ∃ buf byte j, 0 < j ∧ j < 8 ∧ bw.buf = buf ++ [byte] ∧ bw.mask = 2 ^ j ∧ byte.toNat < 2 ^ j ∧
    l = bytesBits buf ++ bitsOf j byte.toNat

variable {bw : BitWriter}

theorem newBitWriter_holds : newBitWriter.Holds [] := Or.inl ⟨rfl, rfl⟩

/-- Setting bit `j` of a byte whose bits from `j` on are zero. -/
theorem setBit_spec {byte : UInt8} {j : ℕ} (hj : j < 8) (hbyte : byte.toNat < 2 ^ j) (b : Bool) :
    ∃ byte', (if b then UInt8.ofNat (byte.toNat ||| 2 ^ j) else byte) = byte' ∧
      byte'.toNat < 2 ^ (j + 1) ∧ bitsOf (j + 1) byte'.toNat = bitsOf j byte.toNat ++ [b] := by
  refine ⟨_, rfl, ?_⟩
  have hpow : 2 ^ (j + 1) ≤ 2 ^ 8 := Nat.pow_le_pow_right (by decide) hj
  have hsucc := Nat.pow_succ' (m := 2) (n := j)
  cases b with
  | false =>
      simp only [Bool.false_eq_true, if_false]
      refine ⟨by omega, ?_⟩
      rw [bitsOf_succ_last, Nat.testBit_lt_two_pow hbyte]
  | true =>
      have hor : byte.toNat ||| 2 ^ j = 2 ^ j + byte.toNat := by
        rw [Nat.lor_comm]
        simpa using (Nat.two_pow_add_eq_or_of_lt hbyte 1).symm
      have hval : (UInt8.ofNat (byte.toNat ||| 2 ^ j)).toNat = 2 ^ j + byte.toNat := by
        rw [hor, UInt8.toNat_ofNat', Nat.mod_eq_of_lt (by omega)]
      simp only [if_true]
      rw [hval]
      refine ⟨by omega, ?_⟩
      rw [bitsOf_succ_last, Nat.testBit_two_pow_add_eq, Nat.testBit_lt_two_pow hbyte]
      refine congrArg (· ++ _) (List.map_congr_left fun i hi => ?_)
      exact Nat.testBit_two_pow_add_gt (List.mem_range.mp hi) byte.toNat

/-- Writing into a byte that has been started. -/
theorem writeBit_started {buf : List UInt8} {byte : UInt8} {j : ℕ} (hj : j < 8)
    (hbyte : byte.toNat < 2 ^ j) (b : Bool) :
    BitWriter.Holds
      ⟨if b then (buf ++ [byte]).set ((buf ++ [byte]).length - 1)
        (UInt8.ofNat (((buf ++ [byte]).getLastD 0).toNat ||| 2 ^ j)) else buf ++ [byte],
        2 ^ j * 2 % 256⟩ (bytesBits buf ++ (bitsOf j byte.toNat ++ [b])) := by
  obtain ⟨byte', hbyte', hlt, hbits⟩ := setBit_spec hj hbyte b
  have hset : (if b then (buf ++ [byte]).set ((buf ++ [byte]).length - 1)
      (UInt8.ofNat (((buf ++ [byte]).getLastD 0).toNat ||| 2 ^ j)) else buf ++ [byte]) =
      buf ++ [byte'] := by
    rw [← hbyte']
    cases b <;> simp
  rw [hset, ← hbits]
  by_cases hlast : j = 7
  · subst hlast
    exact Or.inl ⟨rfl, by simp [byteBits]⟩
  · have hpow : 2 ^ j * 2 < 256 := by
      have hle : 2 ^ (j + 1) ≤ 2 ^ 7 := Nat.pow_le_pow_right (by decide) (by omega)
      omega
    exact Or.inr ⟨buf, byte', j + 1, by omega, by omega, rfl, Nat.mod_eq_of_lt hpow, hlt, rfl⟩

theorem BitWriter.Holds.writeBit (h : bw.Holds l) (b : Bool) : (bw.writeBit b).Holds (l ++ [b]) := by
  cases h with
  | inl h =>
      obtain ⟨hmask, rfl⟩ := h
      have hnew := @writeBit_started bw.buf 0 0 (by decide) (by decide) b
      simp only [BitWriter.writeBit, hmask, if_true]
      exact hnew
  | inr h =>
      obtain ⟨buf, byte, j, hj0, hj, hbuf, hmask, hlt, rfl⟩ := h
      have hnew := @writeBit_started buf _ _ hj hlt b
      have hne : bw.mask ≠ 0 := by
        rw [hmask]
        exact (Nat.two_pow_pos j).ne'
      have hif : (if bw.mask = 0 then (⟨bw.buf ++ [0], 0x01⟩ : BitWriter) else bw) = bw := if_neg hne
      simp only [BitWriter.writeBit, hif]
      rw [hbuf, hmask, List.append_assoc]
      exact hnew

theorem BitWriter.Holds.write (h : bw.Holds l) (v n : ℕ) : (bw.write v n).Holds (l ++ bitsOf n v) := by
  induction n generalizing bw l v with
  | zero => simpa [BitWriter.write] using h
  | succ n ih =>
      have hnext := ih (h.writeBit (v.testBit 0)) (v >>> 1)
      rw [List.append_assoc, List.singleton_append, Nat.shiftRight_one] at hnext
      rw [bitsOf_succ]
      exact hnext

/-- The buffer of a writer: its bits, and zeros up to the end of the last byte. -/
theorem BitWriter.Holds.bytesBits_buf (h : bw.Holds l) :
    ∃ m < 8, bytesBits bw.buf = l ++ List.replicate m false := by
  cases h with
  | inl h => exact ⟨0, by decide, by simp [h.2]⟩
  | inr h =>
      obtain ⟨buf, byte, j, hj0, hj, hbuf, -, hlt, rfl⟩ := h
      refine ⟨8 - j, by omega, ?_⟩
      have hsplit := bitsOf_add (8 - j) hlt
      rw [Nat.add_sub_cancel' hj.le] at hsplit
      rw [hbuf, bytesBits_append, bytesBits_cons, bytesBits_nil, List.append_nil, byteBits, hsplit,
        List.append_assoc]

/-! ## The code of a value -/

/-- The bits of `WriteValue`. -/
def riceCode (k : ℕ) (v : UInt32) : List Bool :=
  bitsOf ((v.toNat >>> k + 1) % 2 ^ 32) (((1 <<< (v.toNat >>> k)) % 2 ^ 32 + 2 ^ 32 - 1) % 2 ^ 32) ++
    bitsOf k (v.toNat &&& (((1 <<< k) % 2 ^ 32 + 2 ^ 32 - 1) % 2 ^ 32))

theorem writeValue_spec (k : ℕ) (h : bw.Holds l) (v : UInt32) :
    (writeValue k bw v).Holds (l ++ riceCode k v) := by
  have hquotient := h.write (((1 <<< (v.toNat >>> k)) % 2 ^ 32 + 2 ^ 32 - 1) % 2 ^ 32)
    ((v.toNat >>> k + 1) % 2 ^ 32)
  have hwrite := hquotient.write (v.toNat &&& (((1 <<< k) % 2 ^ 32 + 2 ^ 32 - 1) % 2 ^ 32)) k
  rw [List.append_assoc] at hwrite
  exact hwrite

theorem foldl_writeValue_spec (k : ℕ) (h : bw.Holds l) (gs : List UInt32) :
    (gs.foldl (writeValue k) bw).Holds (l ++ gs.flatMap (riceCode k)) := by
  induction gs generalizing bw l with
  | nil => simpa using h
  | cons g gs ih =>
      have hnext := ih (writeValue_spec k h g)
      rw [List.append_assoc] at hnext
      exact hnext

/-- A power of two less one, in 32-bit arithmetic. -/
theorem ones_eq (q : ℕ) :
    ((1 <<< q) % 2 ^ 32 + 2 ^ 32 - 1) % 2 ^ 32 = 2 ^ min q 32 - 1 := by
  rw [Nat.one_shiftLeft]
  by_cases hq : q < 32
  · have hlt : 2 ^ q < 2 ^ 32 := Nat.pow_lt_pow_right (by decide) hq
    have hpos := Nat.two_pow_pos q
    rw [Nat.min_eq_left hq.le, Nat.mod_eq_of_lt hlt]
    omega
  · have hdvd : 2 ^ q % 2 ^ 32 = 0 := Nat.mod_eq_zero_of_dvd (Nat.pow_dvd_pow 2 (by omega))
    rw [hdvd, Nat.min_eq_right (by omega)]
    decide

/-- The bits of the remainder. -/
theorem remainder_bits {k : ℕ} (hk : k ≤ 32) (v : UInt32) :
    bitsOf k (v.toNat &&& (((1 <<< k) % 2 ^ 32 + 2 ^ 32 - 1) % 2 ^ 32)) =
      bitsOf k (v.toNat % 2 ^ k) := by
  rw [ones_eq, Nat.min_eq_left hk, Nat.and_two_pow_sub_one_eq_mod]

/-- A quotient up to `32` is written in unary. -/
theorem riceCode_good {k : ℕ} (hk : k ≤ 32) {v : UInt32} (hq : v.toNat / 2 ^ k ≤ 32) :
    riceCode k v = List.replicate (v.toNat / 2 ^ k) true ++
      false :: bitsOf k (v.toNat % 2 ^ k) := by
  rw [riceCode, remainder_bits hk, Nat.shiftRight_eq_div_pow, ones_eq, Nat.min_eq_left hq,
    Nat.mod_eq_of_lt (by omega), bitsOf_add 1 (by have := Nat.two_pow_pos (v.toNat / 2 ^ k); omega),
    bitsOf_ones, List.append_assoc]
  rfl

/-- A larger quotient is cut off after `32` ones. -/
theorem riceCode_bad {k : ℕ} (hk : k ≤ 32) {v : UInt32} (hq : 32 < v.toNat / 2 ^ k)
    (hwrap : v.toNat / 2 ^ k + 1 < 2 ^ 32) :
    riceCode k v = List.replicate 32 true ++
      false :: (List.replicate (v.toNat / 2 ^ k - 32) false ++ bitsOf k (v.toNat % 2 ^ k)) := by
  obtain ⟨m, hm⟩ : ∃ m, v.toNat / 2 ^ k + 1 = 32 + (m + 1) := ⟨v.toNat / 2 ^ k - 32, by omega⟩
  have hm' : v.toNat / 2 ^ k - 32 = m := by omega
  rw [riceCode, remainder_bits hk, Nat.shiftRight_eq_div_pow, ones_eq, Nat.min_eq_right hq.le,
    Nat.mod_eq_of_lt hwrap, hm, bitsOf_add (m + 1) (by decide), bitsOf_ones, hm', List.append_assoc,
    List.replicate_succ (n := m)]
  rfl

/-! ## Round trips -/

/-- **Values whose quotients are at most `32` are read back.** -/
theorem decodeLoop_codes {k : ℕ} (hk : k ≤ 32) {gs : List UInt32}
    (hgs : ∀ g ∈ gs, g.toNat / 2 ^ k ≤ 32) (last : UInt32)
    (h : br.Reads (gs.flatMap (riceCode k) ++ rest)) :
    ∃ br', decodeLoop k gs.length last br = some (gs.scanl (· + ·) last, br') ∧ br'.Reads rest := by
  induction gs generalizing br last with
  | nil => exact ⟨br, rfl, h⟩
  | cons g gs ih =>
      have hg := hgs g List.mem_cons_self
      rw [List.flatMap_cons, riceCode_good hk hg, List.append_assoc, List.append_assoc,
        List.cons_append] at h
      obtain ⟨br₁, hread, h₁⟩ := readValue_spec (length_bitsOf k _) (by omega) h
      have hval : UInt32.ofNat (g.toNat / 2 ^ k * 2 ^ k + ofBits (bitsOf k (g.toNat % 2 ^ k))) = g := by
        rw [ofBits_bitsOf, Nat.mod_mod, Nat.div_add_mod', UInt32.ofNat_toNat]
      rw [hval] at hread
      obtain ⟨br', hloop, h'⟩ := ih (fun x hx => hgs x (List.mem_cons_of_mem g hx)) (last + g) h₁
      refine ⟨br', ?_, h'⟩
      rw [List.length_cons, decodeLoop, hread, Option.bind_eq_bind, Option.bind_some]
      dsimp only
      rw [hloop, List.scanl_cons]
      rfl

theorem decodeLoop_head {k n : ℕ} {last : UInt32} {r : List UInt32 × BitReader}
    (h : decodeLoop k n last br = some r) : r.1.head? = some last ∧ r.1.length = n + 1 := by
  induction n generalizing br last r with
  | zero =>
      obtain rfl := Option.some.inj h
      exact ⟨rfl, rfl⟩
  | succ n ih =>
      rw [decodeLoop, Option.bind_eq_bind, Option.bind_eq_some_iff] at h
      obtain ⟨⟨delta, br₁⟩, -, h⟩ := h
      rw [Option.bind_eq_bind, Option.bind_eq_some_iff] at h
      obtain ⟨⟨vs, br₂⟩, hloop, h⟩ := h
      obtain rfl := Option.some.inj h
      exact ⟨rfl, congrArg (· + 1) (ih hloop).2⟩

/-- The reader misreads the code of a quotient that is cut off after `32` ones. -/
theorem readValue_cut {k : ℕ} (hk : k ≤ 32) {v : UInt32} (hq : 32 < v.toNat / 2 ^ k)
    (hwrap : v.toNat / 2 ^ k + 1 < 2 ^ 32) (h : br.Reads (riceCode k v ++ rest))
    {r : UInt32 × BitReader} (hread : readValue k br = some r) : r.1 ≠ v := by
  rw [riceCode_bad hk hq hwrap, List.append_assoc, List.cons_append] at h
  set tail := List.replicate (v.toNat / 2 ^ k - 32) false ++ bitsOf k (v.toNat % 2 ^ k) ++ rest
  by_cases hlen : tail.length < k
  · rw [readValue_short (by decide) hlen h] at hread
    exact absurd hread (by simp)
  · have htake : (tail.take k).length = k := List.length_take_of_le (by omega)
    rw [← List.take_append_drop k tail] at h
    obtain ⟨br', hok, -⟩ := readValue_spec htake (by decide) h
    rw [hok, Option.some.injEq] at hread
    rw [← hread]
    intro heq
    have hrem := ofBits_lt (tail.take k)
    rw [htake] at hrem
    have hv := UInt32.toNat_lt v
    have hdiv : 33 * 2 ^ k ≤ v.toNat := (Nat.le_div_iff_mul_le (Nat.two_pow_pos k)).mp hq
    have hnat := congrArg UInt32.toNat heq
    rw [UInt32.toNat_ofNat', Nat.mod_eq_of_lt (by omega)] at hnat
    omega

/-- No code, and no padding, is read as a quotient above `32`. -/
theorem unary_le (gs : List UInt32) (m : ℕ) :
    gs.flatMap (riceCode 0) ++ List.replicate m false = [] ∨ ∃ a ≤ 32, ∃ rest,
      gs.flatMap (riceCode 0) ++ List.replicate m false = List.replicate a true ++ false :: rest := by
  induction gs with
  | nil =>
      cases m with
      | zero => exact Or.inl rfl
      | succ m => exact Or.inr ⟨0, Nat.zero_le _, List.replicate m false, rfl⟩
  | cons g gs ih =>
      have hlt := UInt32.toNat_lt g
      rw [List.flatMap_cons, List.append_assoc]
      by_cases hg : g.toNat / 2 ^ 0 ≤ 32
      · rw [riceCode_good (Nat.zero_le _) hg, List.append_assoc]
        exact Or.inr ⟨_, hg, _, rfl⟩
      · by_cases hwrap : g.toNat / 2 ^ 0 + 1 < 2 ^ 32
        · rw [riceCode_bad (Nat.zero_le _) (Nat.lt_of_not_le hg) hwrap, List.append_assoc]
          exact Or.inr ⟨32, Nat.le_refl _, _, rfl⟩
        · -- the count of bits of the quotient wraps to zero, and the code is empty
          have hmod : (g.toNat + 1) % 2 ^ 32 = 0 := by
            rw [Nat.pow_zero, Nat.div_one] at hwrap
            omega
          have hcode : riceCode 0 g = [] := by
            rw [riceCode, Nat.shiftRight_zero, hmod, bitsOf_zero_left, bitsOf_zero_left,
              List.append_nil]
          rw [hcode, List.nil_append]
          exact ih

theorem readValue_le {gs : List UInt32} {m : ℕ}
    (h : br.Reads (gs.flatMap (riceCode 0) ++ List.replicate m false)) {r : UInt32 × BitReader}
    (hread : readValue 0 br = some r) : r.1.toNat ≤ 32 := by
  cases unary_le gs m with
  | inl hnil =>
      rw [hnil] at h
      have hnone : br.readBits 1 = none := readBitsLoop_short h Nat.one_pos
      rw [readValue, readUnary, hnone] at hread
      exact absurd hread (by simp)
  | inr hunary =>
      obtain ⟨a, ha, rest, hbits⟩ := hunary
      rw [hbits] at h
      have hnil : ([] : List Bool).length = 0 := rfl
      obtain ⟨br', hok, -⟩ := @readValue_spec br rest 0 a [] hnil (by omega) h
      rw [hread, Option.some.injEq] at hok
      rw [hok, UInt32.toNat_ofNat', Nat.pow_zero, Nat.mul_one, ofBits, Nat.add_zero]
      exact (Nat.mod_le _ _).trans ha

/-- The code of a value whose quotient is above `32` is misread. -/
theorem readValue_bad {k : ℕ} (hk : k ≤ 32) {v : UInt32} (hq : 32 < v.toNat / 2 ^ k)
    {gs : List UInt32} {m : ℕ}
    (h : br.Reads (riceCode k v ++ (gs.flatMap (riceCode k) ++ List.replicate m false)))
    {r : UInt32 × BitReader} (hread : readValue k br = some r) : r.1 ≠ v := by
  by_cases hwrap : v.toNat / 2 ^ k + 1 < 2 ^ 32
  · exact readValue_cut hk hq hwrap h hread
  · have hlt := UInt32.toNat_lt v
    have hdiv : v.toNat / 2 ^ k ≤ v.toNat := Nat.div_le_self _ _
    have hk0 : k = 0 := by
      by_contra hk0
      have hhalf : v.toNat / 2 ^ k ≤ v.toNat / 2 :=
        Nat.div_le_div_left (Nat.le_self_pow hk0 2) (by decide)
      omega
    subst hk0
    rw [← List.append_assoc, ← List.flatMap_cons] at h
    have hle := readValue_le h hread
    intro heq
    rw [heq] at hle
    omega

/-- **A value whose quotient is above `32` is not read back**, nor is any list with one. -/
theorem decodeLoop_bad {k : ℕ} (hk : k ≤ 32) {gs : List UInt32} {m : ℕ}
    (hbad : ∃ g ∈ gs, 32 < g.toNat / 2 ^ k) (last : UInt32)
    (h : br.Reads (gs.flatMap (riceCode k) ++ List.replicate m false)) {r : List UInt32 × BitReader}
    (hloop : decodeLoop k gs.length last br = some r) : r.1 ≠ gs.scanl (· + ·) last := by
  induction gs generalizing br last r with
  | nil =>
      obtain ⟨g, hg, -⟩ := hbad
      exact absurd hg List.not_mem_nil
  | cons g gs ih =>
      rw [List.length_cons, decodeLoop, Option.bind_eq_bind, Option.bind_eq_some_iff] at hloop
      obtain ⟨⟨delta, br₁⟩, hread, hloop⟩ := hloop
      rw [Option.bind_eq_bind, Option.bind_eq_some_iff] at hloop
      obtain ⟨⟨vs, br₂⟩, hrest, hloop⟩ := hloop
      obtain rfl := Option.some.inj hloop
      dsimp only at hrest ⊢
      rw [List.flatMap_cons, List.append_assoc] at h
      rw [List.scanl_cons]
      intro heq
      have htail := (List.cons.inj heq).2
      by_cases hg : 32 < g.toNat / 2 ^ k
      · -- the first value is misread
        have hne := readValue_bad hk hg h hread
        have hhead := (decodeLoop_head hrest).1
        rw [htail, List.head?_scanl, Option.some.injEq] at hhead
        exact hne ((UInt32.add_right_inj last).mp hhead).symm
      · rw [riceCode_good hk (Nat.le_of_not_lt hg), List.append_assoc, List.cons_append] at h
        obtain ⟨br', hok, h'⟩ := readValue_spec (length_bitsOf k _)
          ((Nat.le_of_not_lt hg).trans_lt (by decide)) h
        rw [ofBits_bitsOf, Nat.mod_mod, Nat.div_add_mod', UInt32.ofNat_toNat, hread,
          Option.some.injEq, Prod.mk.injEq] at hok
        obtain ⟨rfl, rfl⟩ := hok
        refine ih ?_ _ h' hrest htail
        obtain ⟨x, hx, hxbad⟩ := hbad
        cases List.mem_cons.mp hx with
        | inl hxg => exact absurd (hxg ▸ hxbad) hg
        | inr hxs => exact ⟨x, hxs, hxbad⟩

/-! ## Sorted lists -/

@[simp] theorem length_deltas (x : UInt32) (l : List UInt32) : (deltas (x :: l)).length = l.length := by
  induction l generalizing x with
  | nil => rfl
  | cons y l ih => rw [deltas, List.length_cons, ih, List.length_cons]

/-- The differences lead back to the list. -/
theorem scanl_deltas (x : UInt32) (l : List UInt32) :
    (deltas (x :: l)).scanl (· + ·) x = x :: l := by
  induction l generalizing x with
  | nil => rfl
  | cons y l ih =>
      have hxy : x + (y - x) = y := by rw [UInt32.add_comm, UInt32.sub_add_cancel]
      rw [deltas, List.scanl_cons, hxy, ih]

/-- The differences of a sorted list add up to its range. -/
theorem sum_deltas {x : UInt32} {l : List UInt32} (h : (x :: l).Pairwise (· ≤ ·)) :
    x.toNat + ((deltas (x :: l)).map UInt32.toNat).sum = ((x :: l).getLastD 0).toNat := by
  induction l generalizing x with
  | nil => rfl
  | cons y l ih =>
      have hxy : x ≤ y := List.rel_of_pairwise_cons h List.mem_cons_self
      have hle : x.toNat ≤ y.toNat := UInt32.le_iff_toNat_le.mp hxy
      have hlast : (x :: y :: l).getLastD 0 = (y :: l).getLastD 0 := by simp [List.getLastD]
      rw [hlast, ← ih (List.pairwise_cons.mp h).2, deltas, List.map_cons, List.sum_cons,
        UInt32.toNat_sub_of_le _ _ hxy]
      omega

/-- The range of a sorted list. -/
def valRange (keys : List UInt32) : ℕ := (keys.getLastD 0).toNat - (keys.headD 0).toNat

/-- The lists that the Rice code represents: not too long, spread widely enough for a
non-negative parameter, and with no gap too large for it. -/
def RiceFits (keys : List UInt32) : Prop :=
  keys.length ≤ 2 ^ 31 ∧ (valRange keys = 0 ∨ (keys.length < 2 * valRange keys ∧
    ∀ g ∈ deltas keys, g.toNat < 33 * 2 ^ Nat.log2 (valRange keys / keys.length)))

theorem log2Ratio_eq {R len : ℕ} (h : len < 2 * R) :
    log2Ratio R len = Nat.log2 (R / len) := by
  rw [log2Ratio]
  split_ifs with hle
  · rfl
  · have h1 : len / R = 1 := Nat.div_eq_of_lt_le (by omega) (by omega)
    have h0 : R / len = 0 := Nat.div_eq_of_lt (by omega)
    rw [h1, h0]
    rfl

theorem log2Ratio_neg {R len : ℕ} (hR : R ≠ 0) (h : 2 * R ≤ len) : log2Ratio R len < 0 := by
  have hdiv : 2 ≤ len / R := (Nat.le_div_iff_mul_le (by omega)).mpr h
  have hlog : 1 ≤ Nat.log2 (len / R) := (Nat.le_log2 (by omega)).mpr (by simpa using hdiv)
  rw [log2Ratio, if_neg (by omega)]
  omega

theorem bmod_pred {M m : ℕ} (hM : M = 4294967296) (h0 : 0 < m) (h : m ≤ 2147483648) :
    Int.bmod (Int.bmod m M - 1) M = (m : ℤ) - 1 := by
  rw [Int.bmod_sub_bmod]
  exact Int.bmod_eq_of_le (by omega) (by omega)

/-- `NumEntries` of a list of `m` keys. -/
theorem numEntries_eq {m : ℕ} (h0 : 0 < m) (h : m ≤ 2 ^ 31) :
    Int.bmod (toInt32 m - 1) (2 ^ 32) = (m : ℤ) - 1 := by
  have hdef : toInt32 m = Int.bmod m (2 ^ 32) := rfl
  exact (congrArg (fun x => Int.bmod (x - 1) (2 ^ 32)) hdef).trans
    (bmod_pred (by norm_num) h0 (h.trans (by norm_num)))

theorem numEntries_lt (m : ℕ) : Int.bmod (toInt32 m - 1) (2 ^ 32) < 2 ^ 31 := by
  have h2 : ((2 ^ 32 : ℕ) : ℤ) = 4294967296 := by norm_num
  have hlt := @Int.bmod_lt (toInt32 m - 1) (2 ^ 32) (by positivity)
  rw [h2] at hlt
  exact hlt.trans_le (by norm_num)

theorem decode_length {e : RiceDeltaEncoding} {vs : List UInt32}
    (h : decodeRiceIntegers (some e) = .ok vs) : vs.length = e.numEntries.toNat + 1 := by
  rw [decodeRiceIntegers] at h
  split_ifs at h
  split at h
  · cases h
  · rename_i values br hloop
    split_ifs at h
    cases h
    exact (decodeLoop_head hloop).2

/-- What `EncodeRiceIntegersWithParam` writes, as the decoder sees it. -/
theorem decode_encode_eq {first : UInt32} {values : List UInt32} {k : ℕ} (hk : k ≤ 32)
    (hne : values ≠ []) (hlen : values.length + 1 ≤ 2 ^ 31) :
    ∃ br m, m < 8 ∧ br.Reads ((deltas (first :: values)).flatMap (riceCode k) ++
        List.replicate m false) ∧
      decodeRiceIntegers (some (encodeRiceIntegersWithParam first values k)) =
        match decodeLoop k (deltas (first :: values)).length first br with
        | none => .error "unexpected EOF"
        | some (values, br) =>
            if 8 ≤ br.bitsRemaining then .error "safebrowsing: unconsumed rice encoded data"
            else .ok values := by
  have hentries := numEntries_eq (Nat.succ_pos values.length) hlen
  have hpos : 0 < values.length := List.length_pos_of_ne_nil hne
  obtain ⟨m, hm, hbits⟩ :=
    (foldl_writeValue_spec k newBitWriter_holds (deltas (first :: values))).bytesBits_buf
  rw [List.nil_append] at hbits
  refine ⟨newBitReader ((deltas (first :: values)).foldl (writeValue k) newBitWriter).buf, m, hm,
    hbits ▸ newBitReader_reads _, ?_⟩
  have hk' : ((k : ℤ) % 2 ^ 32).toNat = k := by
    rw [Int.emod_eq_of_lt (Int.natCast_nonneg k) (by omega), Int.toNat_natCast]
  have hcount : ((values.length + 1 : ℕ) - 1 : ℤ).toNat = values.length := by omega
  rw [encodeRiceIntegersWithParam, hentries]
  dsimp only
  rw [if_neg (by omega), hk', decodeRiceIntegers]
  dsimp only
  rw [if_neg (by omega), length_deltas, hcount, ofInt_toNat, Int.toNat_natCast]

/-- The lists that the code represents are read back. -/
theorem decode_encode_of_good {first : UInt32} {values : List UInt32} {k : ℕ} (hk : k ≤ 32)
    (hlen : values.length + 1 ≤ 2 ^ 31)
    (hgood : ∀ g ∈ deltas (first :: values), g.toNat / 2 ^ k ≤ 32) :
    decodeRiceIntegers (some (encodeRiceIntegersWithParam first values k)) =
      .ok (first :: values) := by
  by_cases hne : values = []
  · subst hne
    have hentries := numEntries_eq Nat.one_pos (by decide : 1 ≤ 2 ^ 31)
    have hzero : encodeRiceIntegersWithParam first [] k = ⟨first.toNat, 0, 0, []⟩ := by
      rw [encodeRiceIntegersWithParam, List.length_nil, Nat.zero_add, hentries]
      rfl
    rw [hzero, decodeRiceIntegers]
    simp [decodeLoop, newBitReader, BitReader.bitsRemaining]
  · obtain ⟨br, m, hm, hreads, heq⟩ := decode_encode_eq hk hne hlen
    obtain ⟨br', hloop, h'⟩ := decodeLoop_codes hk hgood first hreads
    rw [heq, hloop, scanl_deltas]
    dsimp only
    rw [h'.bitsRemaining, List.length_replicate, if_neg (by omega)]

/-- Lists with a gap that is too large are not read back. -/
theorem decode_encode_of_bad {first : UInt32} {values : List UInt32} {k : ℕ} (hk : k ≤ 32)
    (hne : values ≠ []) (hlen : values.length + 1 ≤ 2 ^ 31)
    (hbad : ∃ g ∈ deltas (first :: values), 32 < g.toNat / 2 ^ k) :
    decodeRiceIntegers (some (encodeRiceIntegersWithParam first values k)) ≠
      .ok (first :: values) := by
  obtain ⟨br, m, hm, hreads, heq⟩ := decode_encode_eq hk hne hlen
  rw [heq]
  cases hloop : decodeLoop k (deltas (first :: values)).length first br with
  | none => simp
  | some r =>
      have hne' : r.1 ≠ first :: values := by
        rw [← scanl_deltas first values]
        exact decodeLoop_bad hk hbad first hreads hloop
      obtain ⟨vs, br'⟩ := r
      dsimp only at hne' ⊢
      split_ifs
      · simp
      · simpa using hne'

/-- The gaps whose quotient is at most `32`. -/
theorem quotient_le_iff (k : ℕ) (g : UInt32) : g.toNat / 2 ^ k ≤ 32 ↔ g.toNat < 33 * 2 ^ k :=
  Nat.lt_succ_iff.symm.trans (Nat.div_lt_iff_lt_mul (Nat.two_pow_pos k))

/-- **The lists that survive the Rice code with a given parameter**, exactly: those whose gaps all
have a quotient of at most `32`. -/
theorem riceParam_roundTrip_iff {k : ℕ} (hk : k ≤ 32) (first : UInt32) {values : List UInt32}
    (hlen : values.length + 1 < 2 ^ 31) :
    decodeRiceIntegers (some (encodeRiceIntegersWithParam first values k)) = .ok (first :: values) ↔
      ∀ g ∈ deltas (first :: values), g.toNat < 33 * 2 ^ k := by
  constructor
  · intro h g hg
    by_contra hlarge
    have hne : values ≠ [] := by
      rintro rfl
      exact absurd hg List.not_mem_nil
    refine decode_encode_of_bad hk hne hlen.le ⟨g, hg, ?_⟩ h
    rwa [← Nat.not_le, quotient_le_iff]
  · intro h
    exact decode_encode_of_good hk hlen.le fun g hg => (quotient_le_iff k g).mpr (h g hg)

theorem riceParam_roundTrip_iff_two_keys :
    decodeRiceIntegers (some (encodeRiceIntegersWithParam 7 [5] (32 : ℕ))) = .ok [7, 5] ↔
      ∀ g ∈ deltas [7, 5], g.toNat < 33 * 2 ^ 32 :=
  riceParam_roundTrip_iff (by decide) 7 (by decide)

/-- A gap of `33` comes back as `32`. -/
theorem gap_misread :
    decodeRiceIntegers (some (encodeRiceIntegersWithParam 0 [33] (0 : ℕ))) = .ok [0, 32] ∧
      decodeRiceIntegers (some (encodeRiceIntegersWithParam 0 [33] (0 : ℕ))) ≠ .ok [0, 33] := by
  decide +kernel

/-- The parameter of a sorted list. -/
theorem riceParam_eq {first : UInt32} {values : List UInt32}
    (hsorted : (first :: values).Pairwise (· ≤ ·)) :
    riceParam first ((first :: values).getLastD 0) (values.length + 1) =
      if valRange (first :: values) = 0 then 1
      else log2Ratio (valRange (first :: values)) (first :: values).length := by
  have hle : first.toNat ≤ ((first :: values).getLastD 0).toNat := by
    have hsum := sum_deltas hsorted
    omega
  have hrange : (((first :: values).getLastD 0) - first).toNat = valRange (first :: values) :=
    UInt32.toNat_sub_of_le _ _ (UInt32.le_iff_toNat_le.mpr hle)
  have hzero : ((first :: values).getLastD 0) - first = 0 ↔ valRange (first :: values) = 0 := by
    rw [← hrange, ← UInt32.toNat_inj]
    rfl
  rw [riceParam]
  simp only [hzero, hrange, List.length_cons]

/-- **The sorted lists that survive the Rice code**, exactly. -/
theorem rice_roundTrip_iff {keys : List UInt32} (hne : keys ≠ [])
    (hsorted : keys.Pairwise (· ≤ ·)) :
    decodeRiceIntegers (encodeRiceIntegers keys) = .ok keys ↔ RiceFits keys := by
  obtain ⟨first, values, rfl⟩ := List.exists_cons_of_ne_nil hne
  rw [encodeRiceIntegers, riceParam_eq hsorted]
  set R := valRange (first :: values) with hR
  have hsum := sum_deltas hsorted
  have hRlt : R < 2 ^ 32 := by
    rw [hR, valRange]
    exact (Nat.sub_le _ _).trans_lt (UInt32.toNat_lt _)
  have hgap : ∀ g ∈ deltas (first :: values), g.toNat ≤ R := by
    intro g hg
    have hle := List.le_sum_of_mem (List.mem_map_of_mem (f := UInt32.toNat) hg)
    rw [hR, valRange, List.headD_cons]
    omega
  have hlog : Nat.log2 (R / (first :: values).length) < 32 := by
    rw [List.length_cons]
    by_cases h0 : R / (values.length + 1) = 0
    · rw [h0]
      decide
    · exact (Nat.log2_lt h0).mpr ((Nat.div_le_self _ _).trans_lt hRlt)
  constructor
  · intro h
    have hlen : (first :: values).length ≤ 2 ^ 31 := by
      have hdec := decode_length h
      have hlt := numEntries_lt (values.length + 1)
      have hcount : ∀ k, (encodeRiceIntegersWithParam first values k).numEntries =
          Int.bmod (toInt32 (values.length + 1) - 1) (2 ^ 32) := by
        intro k
        rw [encodeRiceIntegersWithParam]
        dsimp only
        split_ifs <;> dsimp only
      rw [hcount] at hdec
      omega
    refine ⟨hlen, ?_⟩
    by_cases h0 : R = 0
    · exact Or.inl h0
    right
    have hvalues : values ≠ [] := by
      rintro rfl
      exact h0 (by rw [hR, valRange]; simp)
    rw [if_neg h0] at h
    have hwide : (first :: values).length < 2 * R := by
      by_contra hnarrow
      have hneg := log2Ratio_neg h0 (Nat.le_of_not_lt hnarrow)
      have hentries := numEntries_eq (Nat.succ_pos values.length) hlen
      have hpos : 0 < values.length := List.length_pos_of_ne_nil hvalues
      rw [encodeRiceIntegersWithParam, hentries] at h
      dsimp only at h
      rw [if_neg (by omega), decodeRiceIntegers] at h
      dsimp only at h
      rw [if_pos (Or.inl hneg)] at h
      simp at h
    refine ⟨hwide, ?_⟩
    rw [log2Ratio_eq hwide] at h
    by_contra hall
    push Not at hall
    obtain ⟨g, hg, hlarge⟩ := hall
    refine decode_encode_of_bad hlog.le hvalues hlen ⟨g, hg, ?_⟩ h
    by_contra hsmall
    exact absurd ((quotient_le_iff _ g).mp (Nat.le_of_not_lt hsmall)) (Nat.not_lt.mpr hlarge)
  · rintro ⟨hlen, h⟩
    by_cases h0 : R = 0
    · rw [if_pos h0]
      refine decode_encode_of_good (k := 1) (by decide) hlen ?_
      intro g hg
      have hg0 := hgap g hg
      rw [h0] at hg0
      rw [Nat.le_zero.mp hg0]
      decide
    · obtain ⟨hwide, hgaps⟩ := h.resolve_left h0
      rw [if_neg h0, log2Ratio_eq hwide]
      exact decode_encode_of_good hlog.le hlen fun g hg => (quotient_le_iff _ g).mpr (hgaps g hg)

end SinglePassPIR.Updatable
