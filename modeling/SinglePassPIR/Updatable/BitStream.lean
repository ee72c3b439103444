import SinglePassPIR.Updatable.Rice

/-!
# The bit stream

`bitReader` and `bitWriter` of `rice.go` with every field, check and error: the position of the
writer, the panic of `ReadBits` on a bad count, its 32-bit value, and the loop of
`BitsRemaining` over the mask. They refine the reader and the writer of the Rice coding, which
leave these out.

## Main results

* `PosWriter.write_eq` — the writer stays in bounds, and `pos` is the index of its last byte.
* `readAll_bitsLeft` — `BitsRemaining` after any sequence of successful reads.
* `bitStream_roundTrip` — what is written is read back.
-/

namespace SinglePassPIR.Updatable

/-! ## The writer -/

/-- `bitWriter`, with its position -/
structure PosWriter where
  buf : List UInt8
  pos : ℤ
  mask : ℕ
  deriving DecidableEq, Repr

/-- `newBitWriter` -/
def newPosWriter : PosWriter := { buf := [], pos := -1, mask := 0x00 }

/-- The body of the loop of `Write`; `none` is an index out of range. -/
def PosWriter.writeBit (bw : PosWriter) (v : UInt32) : Option PosWriter :=
  let bw := if bw.mask = 0 then ⟨bw.buf ++ [0], bw.pos + 1, 0x01⟩ else bw
  let mask := bw.mask * 2 % 256
  if 0 < v &&& 1 then
    if bw.pos < 0 then none
    else
      match bw.buf[bw.pos.toNat]? with
      | none => none
      | some byte =>
          some ⟨bw.buf.set bw.pos.toNat (UInt8.ofNat (byte.toNat ||| bw.mask)), bw.pos, mask⟩
  else some ⟨bw.buf, bw.pos, mask⟩

/-- The loop of `Write`. -/
def PosWriter.writeLoop (bw : PosWriter) (v : UInt32) : ℕ → Option PosWriter
  | 0 => some bw
  | n + 1 => do
      let bw ← bw.writeBit v
      bw.writeLoop (v >>> 1) n

/-- `Write`, which never returns an error; `none` is a panic. -/
def PosWriter.write (bw : PosWriter) (v : UInt32) (n : ℤ) : Option PosWriter :=
  if n < 0 then none else bw.writeLoop v n.toNat

/-- A call of `Write` for each pair of a value and a width. -/
def PosWriter.writeAll (bw : PosWriter) : List (UInt32 × ℤ) → Option PosWriter
  | [] => some bw
  | (v, n) :: items => do
      let bw ← bw.write v n
      bw.writeAll items

/-! ## The reader -/

/-- The loop of `ReadBits`, from bit `i` on: the value, the error and the reader. -/
def BitReader.readLoop : ℕ → ℕ → UInt32 → BitReader → UInt32 × Option String × BitReader
  | 0, _, v, br => (v, none, br)
  | n + 1, i, v, br =>
      match br.readBit with
      | none => (v, some "unexpected EOF", br)
      | some (bit, br) => br.readLoop n (i + 1) (if bit then v ||| 1 <<< UInt32.ofNat i else v)

/-- `ReadBits`; `none` is its panic. -/
def BitReader.read (br : BitReader) (n : ℤ) : Option (UInt32 × Option String × BitReader) :=
  if n < 0 ∨ 32 < n then none else some (br.readLoop n.toNat 0 0)

/-- The loop of `BitsRemaining` over `m`, with fuel. -/
def bitsLeftLoop : ℕ → ℕ → ℤ → Option ℤ
  | 0, _, _ => none
  | fuel + 1, m, n => if m = 1 then some n else bitsLeftLoop fuel (m >>> 1) (n - 1)

/-- `BitsRemaining`; a byte needs at most eight rounds of the loop. -/
def BitReader.bitsLeft (br : BitReader) : Option ℤ :=
  bitsLeftLoop 8 (br.mask ||| 1) (8 * br.buf.length)

/-- A call of `ReadBits` for each width; `none` is a panic or an error of one of them. -/
def BitReader.readAll (br : BitReader) : List ℤ → Option (List UInt32 × BitReader)
  | [] => some ([], br)
  | n :: widths => do
      let (v, err, br) ← br.read n
      if err.isSome then none
      else
        let (vs, br) ← br.readAll widths
        some (v :: vs, br)

/-! ## The writer stays in bounds -/

/-- The same writer without its position. -/
def PosWriter.toBitWriter (bw : PosWriter) : BitWriter := { buf := bw.buf, mask := bw.mask }

/-- The position is the index of the last byte, and there is a byte while the mask is set. -/
structure PosWriter.WF (bw : PosWriter) : Prop where
  pos_eq : bw.pos = (bw.buf.length : ℤ) - 1
  buf_ne : bw.mask ≠ 0 → bw.buf ≠ []

theorem newPosWriter_wf : newPosWriter.WF := ⟨rfl, fun h => absurd rfl h⟩

/-- The test of `Write` on the lowest bit. -/
theorem and_one_pos (v : UInt32) : 0 < v &&& 1 ↔ v.toNat.testBit 0 = true := by
  rw [UInt32.lt_iff_toNat_lt, UInt32.toNat_and, Nat.testBit_zero, decide_eq_true_iff]
  have hone : (1 : UInt32).toNat = 1 := rfl
  have hzero : (0 : UInt32).toNat = 0 := rfl
  rw [hone, hzero, Nat.and_one_is_mod]
  omega

/-- The last byte of a buffer that is not empty. -/
theorem getLast_of_pos {buf : List UInt8} {pos : ℤ} (hpos : pos = (buf.length : ℤ) - 1)
    (hbuf : buf ≠ []) :
    ¬pos < 0 ∧ pos.toNat = buf.length - 1 ∧ buf[pos.toNat]? = some (buf.getLastD 0) := by
  have hlen := List.length_pos_of_ne_nil hbuf
  have hnat : pos.toNat = buf.length - 1 := by omega
  refine ⟨by omega, hnat, ?_⟩
  rw [hnat, ← List.getLast?_eq_getElem?, List.getLastD_eq_getLast?, List.getLast?_eq_some_getLast hbuf]
  rfl

/-- One bit. -/
theorem PosWriter.writeBit_eq {bw : PosWriter} (h : bw.WF) (v : UInt32) :
    ∃ bw', bw.writeBit v = some bw' ∧ bw'.WF ∧
      bw'.toBitWriter = bw.toBitWriter.writeBit (v.toNat.testBit 0) := by
  -- the byte that the bit goes to has been allocated
  obtain ⟨started, hstarted, hpos, hbuf, hmatch⟩ : ∃ started : PosWriter,
      (if bw.mask = 0 then ⟨bw.buf ++ [0], bw.pos + 1, 0x01⟩ else bw) = started ∧
      started.pos = (started.buf.length : ℤ) - 1 ∧ started.buf ≠ [] ∧
      started.toBitWriter =
        if bw.mask = 0 then ⟨bw.buf ++ [0], 0x01⟩ else bw.toBitWriter := by
    by_cases hmask : bw.mask = 0
    · refine ⟨_, if_pos hmask, ?_, by simp, (if_pos hmask).symm⟩
      simp [h.pos_eq]
    · exact ⟨bw, if_neg hmask, h.pos_eq, h.buf_ne hmask, (if_neg hmask).symm⟩
  obtain ⟨hneg, hnat, hlast⟩ := getLast_of_pos hpos hbuf
  have hmodel : bw.toBitWriter.writeBit (v.toNat.testBit 0) =
      { buf := if v.toNat.testBit 0 then started.buf.set (started.buf.length - 1)
          (UInt8.ofNat ((started.buf.getLastD 0).toNat ||| started.mask)) else started.buf
        mask := started.mask * 2 % 256 } := by
    have hmask : bw.toBitWriter.mask = bw.mask := rfl
    have hbuf' : bw.toBitWriter.buf = bw.buf := rfl
    rw [BitWriter.writeBit, hmask, hbuf', ← hmatch]
    rfl
  rw [PosWriter.writeBit, hstarted, hmodel]
  by_cases hv : 0 < v &&& 1
  · have hbit := (and_one_pos v).mp hv
    rw [if_pos hv, if_neg hneg, hlast, hnat]
    refine ⟨_, rfl, ⟨by simpa using hpos, fun _ => by simpa using hbuf⟩, ?_⟩
    simp [hbit, PosWriter.toBitWriter]
  · have hbit : v.toNat.testBit 0 = false := by
      simpa using mt (and_one_pos v).mpr hv
    rw [if_neg hv]
    refine ⟨_, rfl, ⟨hpos, fun _ => hbuf⟩, ?_⟩
    simp [hbit, PosWriter.toBitWriter]

theorem PosWriter.writeLoop_eq {bw : PosWriter} (h : bw.WF) (v : UInt32) (n : ℕ) :
    ∃ bw', bw.writeLoop v n = some bw' ∧ bw'.WF ∧
      bw'.toBitWriter = bw.toBitWriter.write v.toNat n := by
  induction n generalizing bw v with
  | zero => exact ⟨bw, rfl, h, rfl⟩
  | succ n ih =>
      obtain ⟨bw₁, hbit, h₁, heq₁⟩ := PosWriter.writeBit_eq h v
      obtain ⟨bw', hloop, h', heq'⟩ := ih h₁ (v >>> 1)
      refine ⟨bw', ?_, h', ?_⟩
      · rw [PosWriter.writeLoop, hbit]
        exact hloop
      · rw [heq', heq₁, BitWriter.write, UInt32.toNat_shiftRight]
        rfl

/-- **The writer stays in bounds**, and writes what the writer without a position does. -/
theorem PosWriter.write_eq {bw : PosWriter} (h : bw.WF) (v : UInt32) {n : ℤ} (hn : 0 ≤ n) :
    ∃ bw', bw.write v n = some bw' ∧ bw'.WF ∧
      bw'.toBitWriter = bw.toBitWriter.write v.toNat n.toNat := by
  rw [PosWriter.write, if_neg (by omega)]
  exact PosWriter.writeLoop_eq h v n.toNat

/-- The bits of a list of values. -/
def streamBits (items : List (UInt32 × ℤ)) : List Bool :=
  items.flatMap fun item => bitsOf item.2.toNat item.1.toNat

theorem PosWriter.writeAll_spec {bw : PosWriter} (h : bw.WF) {l : List Bool}
    (hl : bw.toBitWriter.Holds l) {items : List (UInt32 × ℤ)}
    (hitems : ∀ item ∈ items, 0 ≤ item.2) :
    ∃ bw', bw.writeAll items = some bw' ∧ bw'.toBitWriter.Holds (l ++ streamBits items) := by
  induction items generalizing bw l with
  | nil => exact ⟨bw, rfl, by simpa [streamBits] using hl⟩
  | cons item items ih =>
      obtain ⟨v, n⟩ := item
      have hn : 0 ≤ n := hitems (v, n) List.mem_cons_self
      obtain ⟨bw₁, hwrite, h₁, heq₁⟩ := PosWriter.write_eq h v hn
      have hl₁ : bw₁.toBitWriter.Holds (l ++ bitsOf n.toNat v.toNat) := by
        rw [heq₁]
        exact hl.write v.toNat n.toNat
      obtain ⟨bw', hall, hl'⟩ := ih h₁ hl₁ fun item hmem => hitems item (List.mem_cons_of_mem _ hmem)
      refine ⟨bw', ?_, ?_⟩
      · rw [PosWriter.writeAll, hwrite]
        exact hall
      · rw [List.append_assoc] at hl'
        exact hl'

/-! ## The reader -/

/-- The step of `ReadBits` on the value, without overflow. -/
theorem setBit_toNat (bit : Bool) (v : UInt32) {i : ℕ} (hi : i < 32) :
    (if bit then v ||| 1 <<< UInt32.ofNat i else v).toNat =
      if bit then v.toNat ||| 1 <<< i else v.toNat := by
  have hshift : (1 <<< UInt32.ofNat i : UInt32).toNat = 1 <<< i := by
    have hpow : 2 ^ i < 2 ^ 32 := Nat.pow_lt_pow_right (by decide) hi
    have hi' : (UInt32.ofNat i).toNat % 32 = i := by
      rw [UInt32.toNat_ofNat', Nat.mod_eq_of_lt (by omega : i < 2 ^ 32), Nat.mod_eq_of_lt hi]
    rw [UInt32.toNat_shiftLeft, hi', UInt32.toNat_one, Nat.one_shiftLeft, Nat.mod_eq_of_lt hpow]
  cases bit with
  | false => rfl
  | true => rw [if_pos rfl, if_pos rfl, UInt32.toNat_or, hshift]

/-- The 32-bit value of `ReadBits` is the one that the Rice coding works with. -/
theorem BitReader.readLoop_eq {br br' : BitReader} {n i w : ℕ} {v : UInt32} (hi : i + n ≤ 32)
    (h : br.readBitsLoop n i v.toNat = some (w, br')) :
    br.readLoop n i v = (UInt32.ofNat w, none, br') := by
  induction n generalizing br i v with
  | zero =>
      have hw := Option.some.inj h
      rw [Prod.mk.injEq] at hw
      rw [BitReader.readLoop, hw.2, ← hw.1, UInt32.ofNat_toNat]
  | succ n ih =>
      rw [BitReader.readBitsLoop, Option.bind_eq_bind, Option.bind_eq_some_iff] at h
      obtain ⟨⟨bit, br₁⟩, hbit, hloop⟩ := h
      rw [BitReader.readLoop, hbit]
      apply ih (by omega)
      rw [setBit_toNat bit v (by omega)]
      exact hloop

/-- Too few bits are reported as an error. -/
theorem BitReader.readLoop_eof {br : BitReader} {n i : ℕ} {v : UInt32} (hi : i + n ≤ 32)
    (h : br.readBitsLoop n i v.toNat = none) :
    (br.readLoop n i v).2.1 = some "unexpected EOF" := by
  induction n generalizing br i v with
  | zero => cases h
  | succ n ih =>
      rw [BitReader.readLoop]
      cases hbit : br.readBit with
      | none => rfl
      | some r =>
          rw [BitReader.readBitsLoop, hbit, Option.bind_eq_bind, Option.bind_some] at h
          apply ih (by omega)
          rw [setBit_toNat r.1 v (by omega)]
          exact h

variable {br br' : BitReader} {l : List Bool} {n : ℤ}

/-- A read of at most as many bits as are left. -/
theorem BitReader.Reads.read (h : br.Reads l) (h0 : 0 ≤ n) (h32 : n ≤ 32) (hn : n.toNat ≤ l.length) :
    ∃ br', br.read n = some (UInt32.ofNat (ofBits (l.take n.toNat)), none, br') ∧
      br'.Reads (l.drop n.toNat) := by
  rw [← List.take_append_drop n.toNat l] at h
  obtain ⟨br', hread, h'⟩ := readBits_spec h
  rw [List.length_take_of_le hn] at hread
  refine ⟨br', ?_, h'⟩
  have hloop : br.readBitsLoop n.toNat 0 (0 : UInt32).toNat =
    some (ofBits (l.take n.toNat), br') := hread
  rw [BitReader.read, if_neg (by omega), BitReader.readLoop_eq (by omega) hloop]

/-- A read that succeeds. -/
theorem BitReader.Reads.of_read {v : UInt32} (h : br.Reads l) (hread : br.read n = some (v, none, br')) :
    0 ≤ n ∧ n.toNat ≤ l.length ∧ br'.Reads (l.drop n.toNat) := by
  by_cases hbad : n < 0 ∨ 32 < n
  · rw [BitReader.read, if_pos hbad] at hread
    cases hread
  · have h0 : 0 ≤ n := by omega
    by_cases hn : n.toNat ≤ l.length
    · obtain ⟨br₁, hread₁, h₁⟩ := h.read h0 (by omega) hn
      rw [hread₁] at hread
      cases hread
      exact ⟨h0, hn, h₁⟩
    · -- the bits run out, which is an error
      have heof := BitReader.readLoop_eof (i := 0) (v := 0) (by omega)
        (readBitsLoop_short h (Nat.lt_of_not_le hn))
      rw [BitReader.read, if_neg hbad, Option.some.injEq] at hread
      rw [hread] at heof
      cases heof

/-- The loop of `BitsRemaining` takes off the digits of the mask above the lowest. -/
theorem bitsLeftLoop_eq {fuel m : ℕ} (h0 : 0 < m) (hm : m < 2 ^ fuel) (n : ℤ) :
    bitsLeftLoop fuel m n = some (n - Nat.log2 m) := by
  induction fuel generalizing m n with
  | zero => omega
  | succ fuel ih =>
      rw [bitsLeftLoop]
      split_ifs with hone
      · rw [hone]
        simp [Nat.log2_def]
      · have hhalf : m >>> 1 = m / 2 := Nat.shiftRight_one m
        have hlog : Nat.log2 m = Nat.log2 (m / 2) + 1 := by
          rw [Nat.log2_def, if_pos (by omega)]
        rw [hhalf, ih (by omega) (by omega), hlog]
        push_cast
        ring_nf

/-- `BitsRemaining` is the number of bits left to read. -/
theorem BitReader.Reads.bitsLeft (h : br.Reads l) : br.bitsLeft = some (l.length : ℤ) := by
  have hcount := h.bitsRemaining
  obtain ⟨j, hj, hmask, hbuf, rfl⟩ := h
  obtain ⟨hpos, hlt, hlog⟩ : 0 < br.mask ||| 1 ∧ br.mask ||| 1 < 2 ^ 8 ∧
      Nat.log2 (br.mask ||| 1) = j := by
    rw [hmask]
    interval_cases j <;> decide
  rw [BitReader.bitsLeft, bitsLeftLoop_eq hpos hlt, ← hcount, BitReader.bitsRemaining, hlog,
    Option.some.injEq]
  by_cases hempty : br.buf = []
  · rw [hempty, hbuf hempty]
    rfl
  · have hlen := List.length_pos_of_ne_nil hempty
    omega

/-- After any sequence of successful reads. -/
theorem readAll_reads (h : br.Reads l) {widths : List ℤ} {vs : List UInt32}
    (hread : br.readAll widths = some (vs, br')) :
    0 ≤ widths.sum ∧ widths.sum.toNat ≤ l.length ∧ br'.Reads (l.drop widths.sum.toNat) := by
  induction widths generalizing br l vs with
  | nil =>
      cases hread
      exact ⟨le_rfl, Nat.zero_le _, h⟩
  | cons n widths ih =>
      rw [BitReader.readAll, Option.bind_eq_bind, Option.bind_eq_some_iff] at hread
      obtain ⟨⟨v, err, br₁⟩, hfirst, hrest⟩ := hread
      dsimp only at hrest
      cases err with
      | some e => cases hrest
      | none =>
          rw [if_neg (by simp), Option.bind_eq_bind, Option.bind_eq_some_iff] at hrest
          obtain ⟨⟨vs', br₂⟩, hall, heq⟩ := hrest
          cases heq
          obtain ⟨h0, hn, h₁⟩ := h.of_read hfirst
          obtain ⟨hsum0, hsum, h'⟩ := ih h₁ hall
          rw [List.length_drop] at hsum
          rw [List.drop_drop] at h'
          rw [List.sum_cons, Int.toNat_add h0 hsum0]
          exact ⟨by omega, by omega, h'⟩

/-- **`BitsRemaining` after any successful reads**: the bits of the buffer less those read. -/
theorem readAll_bitsLeft {buf : List UInt8} {widths : List ℤ} {vs : List UInt32}
    (hread : (newBitReader buf).readAll widths = some (vs, br')) :
    br'.bitsLeft = some (8 * (buf.length : ℤ) - widths.sum) := by
  obtain ⟨h0, hsum, h'⟩ := readAll_reads (newBitReader_reads buf) hread
  rw [length_bytesBits] at hsum
  rw [h'.bitsLeft, List.length_drop, length_bytesBits, Option.some.injEq]
  omega

/-! ## The round trip -/

/-- The value that a pair of a value and a width stands for. -/
def streamValue (item : UInt32 × ℤ) : UInt32 := UInt32.ofNat (item.1.toNat % 2 ^ item.2.toNat)

/-- Reading back the bits of a list of values. -/
theorem readAll_streamBits {rest : List Bool} {items : List (UInt32 × ℤ)}
    (hitems : ∀ item ∈ items, 0 ≤ item.2 ∧ item.2 ≤ 32) (h : br.Reads (streamBits items ++ rest)) :
    ∃ br', br.readAll (items.map Prod.snd) = some (items.map streamValue, br') ∧ br'.Reads rest := by
  induction items generalizing br with
  | nil => exact ⟨br, rfl, h⟩
  | cons item items ih =>
      obtain ⟨v, n⟩ := item
      obtain ⟨h0, h32⟩ : 0 ≤ n ∧ n ≤ 32 := hitems (v, n) List.mem_cons_self
      have hbits : streamBits ((v, n) :: items) ++ rest =
          bitsOf n.toNat v.toNat ++ (streamBits items ++ rest) := List.append_assoc _ _ _
      rw [hbits] at h
      obtain ⟨br₁, hread, h₁⟩ := h.read h0 h32 (by simp)
      rw [List.drop_left' (length_bitsOf _ _)] at h₁
      rw [List.take_left' (length_bitsOf _ _), ofBits_bitsOf] at hread
      obtain ⟨br', hall, h'⟩ := ih (fun item hmem => hitems item (List.mem_cons_of_mem _ hmem)) h₁
      refine ⟨br', ?_, h'⟩
      rw [List.map_cons, BitReader.readAll, hread, Option.bind_eq_bind, Option.bind_some]
      dsimp only
      rw [if_neg (by simp), hall]
      rfl

/-- **Bit streams round-trip**: the values come back, each cut to its width, `BitsRemaining` is right
after every one of them, and what is left is less than a byte of zeros. -/
theorem bitStream_roundTrip (items : List (UInt32 × ℤ))
    (hitems : ∀ item ∈ items, 0 ≤ item.2 ∧ item.2 ≤ 32) :
    ∃ bw, newPosWriter.writeAll items = some bw ∧
      (∀ i ≤ items.length, ∃ br,
        (newBitReader bw.buf).readAll ((items.take i).map Prod.snd) =
          some ((items.take i).map streamValue, br) ∧
        br.bitsLeft = some (8 * (bw.buf.length : ℤ) - ((items.take i).map Prod.snd).sum)) ∧
      (∀ widths vs br, (newBitReader bw.buf).readAll widths = some (vs, br) →
        br.bitsLeft = some (8 * (bw.buf.length : ℤ) - widths.sum)) ∧
      ∃ br left, (newBitReader bw.buf).readAll (items.map Prod.snd) =
          some (items.map streamValue, br) ∧
        br.bitsLeft = some left ∧ 0 ≤ left ∧ left < 8 ∧
        ∃ br', br.read left = some (0, none, br') ∧ br'.bitsLeft = some 0 := by
  obtain ⟨bw, hwrite, hholds⟩ := PosWriter.writeAll_spec newPosWriter_wf newBitWriter_holds
    fun item hmem => (hitems item hmem).1
  obtain ⟨m, hm, hbits⟩ := hholds.bytesBits_buf
  rw [List.nil_append] at hbits
  have hreads : (newBitReader bw.buf).Reads (streamBits items ++ List.replicate m false) := by
    rw [← hbits]
    exact newBitReader_reads bw.buf
  refine ⟨bw, hwrite, ?_, fun widths vs br hread => readAll_bitsLeft hread, ?_⟩
  · intro i _
    have hsplit : streamBits items ++ List.replicate m false =
        streamBits (items.take i) ++ (streamBits (items.drop i) ++ List.replicate m false) := by
      rw [← List.append_assoc, streamBits, streamBits, streamBits, ← List.flatMap_append,
        List.take_append_drop]
    rw [hsplit] at hreads
    obtain ⟨br, hall, -⟩ := readAll_streamBits
      (fun item hmem => hitems item (List.mem_of_mem_take hmem)) hreads
    exact ⟨br, hall, readAll_bitsLeft hall⟩
  · obtain ⟨br, hall, hrest⟩ := readAll_streamBits hitems hreads
    have hleft := hrest.bitsLeft
    rw [List.length_replicate] at hleft
    obtain ⟨br', hread, h'⟩ := hrest.read (Int.natCast_nonneg m) (by omega) (by simp)
    have hzero : ofBits ((List.replicate m false).take (m : ℤ).toNat) = 0 := by
      rw [Int.toNat_natCast, List.take_of_length_le (by simp), ← bitsOf_zero, ofBits_bitsOf,
        Nat.zero_mod]
    rw [hzero] at hread
    refine ⟨br, m, hall, hleft, Int.natCast_nonneg m, by omega, br', hread, ?_⟩
    rw [h'.bitsLeft]
    simp

/-- The stream of the test `TestBitWriter` in part, with a value that is cut to its width. -/
theorem bitStream_roundTrip_five : ∃ bw,
    newPosWriter.writeAll [(0, 0), (1, 1), (0xff, 4), (0x40000000, 32), (0x170, 9)] = some bw ∧
      ∃ br, (newBitReader bw.buf).readAll [0, 1, 4, 32, 9] =
          some ([0, 1, 0xf, 0x40000000, 0x170], br) ∧ ∃ left < 8, br.bitsLeft = some left := by
  obtain ⟨bw, hwrite, -, -, br, left, hread, hleft, -, hlt, -⟩ := bitStream_roundTrip
    [(0, 0), (1, 1), (0xff, 4), (0x40000000, 32), (0x170, 9)] (by decide)
  exact ⟨bw, hwrite, br, hread, left, hlt, hleft⟩

end SinglePassPIR.Updatable
