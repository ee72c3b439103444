import SinglePassPIR.Lib.Bytes
import SinglePassPIR.Lib.NearUniform
import SinglePassPIR.Lib.StridedSum
import Mathlib.Data.Fin.VecNotation
import Mathlib.Data.Nat.Digits.Lemmas

/-!
# The source of randomness

`RandSource` is `math/rand` over a `BufPRGReader`, which reads AES in counter mode through a
`bufio.Reader`. `PRGReader.Read` encrypts what is in the buffer that it is given, and `bufio.Reader`
gives it the same buffer again and again. So what a call returns is not the next word of the key
stream: it is that word and the words at the same place of the buffers before it, added up.

The results of the calls are as good as the key stream all the same.

## Main results

* `BufioReader.read_word` — one read of eight bytes, which is never short.
* `draws_uniform` — every sequence of results comes from the same number of key streams.
-/

namespace SinglePassPIR.Pir

/-! ## The readers -/

/-- `PRGReader`. `keystream` is the key stream of AES in counter mode under the key, with a zero
initialisation vector. -/
structure PRGReader where
  keystream : ℕ → UInt8
  pos : ℕ

namespace PRGReader

/-- `NewPRG` -/
def new (keystream : ℕ → UInt8) : PRGReader := ⟨keystream, 0⟩

/-- `stream.XORKeyStream` of a buffer with itself -/
def xorKeyStream (s : PRGReader) (p : List UInt8) : List UInt8 × PRGReader :=
  (p.mapIdx fun i x => x ^^^ s.keystream (s.pos + i), { s with pos := s.pos + p.length })

/-- `PRGReader.Read`, with what is in `p` after it. -/
def read (s : PRGReader) (p : List UInt8) : List UInt8 × PRGReader :=
  if p.length < 16 then
    let (buf, s) := s.xorKeyStream (List.replicate 16 0)
    (buf.take p.length, s)
  else s.xorKeyStream p

end PRGReader

/-- `bufio.Reader` over a `PRGReader`: the bytes between `r` and `w` have not been read. -/
structure BufioReader where
  rd : PRGReader
  buf : List UInt8
  r : ℕ
  w : ℕ

namespace BufioReader

/-- `bufio.NewReaderSize` -/
def new (rd : PRGReader) (size : ℕ) : BufioReader := ⟨rd, List.replicate size 0, 0, 0⟩

/-- As much of `p` as is buffered, with the number of bytes -/
def copyOut (b : BufioReader) (p : List UInt8) : List UInt8 × ℕ × BufioReader :=
  let n := min p.length (b.w - b.r)
  ((b.buf.drop b.r).take n ++ p.drop n, n, { b with r := b.r + n })

/-- `bufio.Reader.Read`, with what is in `p` after it and the number of bytes that were read. -/
def read (b : BufioReader) (p : List UInt8) : List UInt8 × ℕ × BufioReader :=
  if p.length = 0 then (p, 0, b)
  else if b.r = b.w then
    if b.buf.length ≤ p.length then
      -- a large read goes past the buffer
      let (p, rd) := b.rd.read p
      (p, p.length, { b with rd })
    else
      let (buf, rd) := b.rd.read b.buf
      copyOut ⟨rd, buf, 0, buf.length⟩ p
  else b.copyOut p

end BufioReader

/-- `binary.LittleEndian.Uint64` -/
def leUint64 (b : List UInt8) : UInt64 := UInt64.ofNat (Nat.ofDigits 256 (b.map UInt8.toNat))

/-- `BufPRGReader` -/
structure BufPRGReader where
  stream : BufioReader

/-- The calls that `math/rand` makes of its source. -/
inductive SourceCall
  | uint64
  | int63
  deriving DecidableEq, Repr

/-- What a call returns of a word; the result of `Int63` is not negative. -/
def SourceCall.result : SourceCall → UInt64 → UInt64
  | .uint64, word => word
  | .int63, word => word &&& 0x7fffffffffffffff

namespace BufPRGReader

def bufSize : ℕ := 8192

/-- `NewBufPRG` -/
def new (prg : PRGReader) : BufPRGReader := ⟨.new prg bufSize⟩

/-- `BufPRGReader.Uint64`; the number of bytes that were read is not looked at. -/
def uint64 (b : BufPRGReader) : UInt64 × BufPRGReader :=
  let (buf, _, stream) := b.stream.read (List.replicate 8 0)
  (leUint64 buf, ⟨stream⟩)

/-- `BufPRGReader.Int63` -/
def int63 (b : BufPRGReader) : UInt64 × BufPRGReader :=
  let (word, b) := b.uint64
  (word &&& 0x7fffffffffffffff, b)

/-- One call -/
def call (b : BufPRGReader) : SourceCall → UInt64 × BufPRGReader
  | .uint64 => b.uint64
  | .int63 => b.int63

/-- The results of a sequence of calls. -/
def calls (b : BufPRGReader) : List SourceCall → List UInt64
  | [] => []
  | c :: cs => (b.call c).1 :: (b.call c).2.calls cs

theorem call_eq (b : BufPRGReader) (c : SourceCall) :
    b.call c = (c.result b.uint64.1, b.uint64.2) := by
  cases c <;> rfl

end BufPRGReader

/-! ## What is in the buffer -/

/-- Word `k` of a key stream. -/
def wordAt (keystream : ℕ → UInt8) (k : ℕ) : Bytes 8 := .ofFn fun i => keystream (k * 8 + i)

/-- The buffer after it has been filled `q` times. -/
def filled (keystream : ℕ → UInt8) (size q : ℕ) : Bytes size :=
  ∑ j ∈ Finset.range q, .ofFn fun i => keystream (size * j + i)

variable {keystream : ℕ → UInt8} {W : ℕ}

theorem byte_filled_succ {size i : ℕ} (q : ℕ) (hi : i < size) :
    (filled keystream size (q + 1)).byte i =
      (filled keystream size q).byte i ^^^ keystream (size * q + i) := by
  rw [filled, Bytes.byte_sum_range_succ _ _ hi, Bytes.byte_ofFn _ hi, filled]

/-- A word of the buffer. -/
theorem rowAt_filled (q : ℕ) {i : ℕ} (hi : i < W) :
    rowAt 8 (filled keystream (8 * W) q).toList i =
      ∑ j ∈ Finset.range q, wordAt keystream (j * W + i) := by
  apply Bytes.ext
  intro m hm
  have hlt : i * 8 + m < 8 * W := by omega
  rw [byte_rowAt _ _ hm]
  show (filled keystream (8 * W) q).byte (i * 8 + m) = _
  induction q with
  | zero =>
      rw [filled, Finset.sum_range_zero, Finset.sum_range_zero, Bytes.byte_zero hlt,
        Bytes.byte_zero hm]
  | succ q ih =>
      have hpos : 8 * W * q + (i * 8 + m) = (q * W + i) * 8 + m := by ring
      rw [byte_filled_succ q hlt, Bytes.byte_sum_range_succ _ _ hm, ih, wordAt, Bytes.byte_ofFn _ hm,
        hpos]

/-- One more time. -/
theorem xorKeyStream_filled {rd : PRGReader} (hks : rd.keystream = keystream) {size q : ℕ}
    (hpos : rd.pos = size * q) :
    rd.xorKeyStream (filled keystream size q).toList =
      ((filled keystream size (q + 1)).toList, ⟨keystream, size * (q + 1)⟩) := by
  refine Prod.ext (ext_getD 0 (by simp [PRGReader.xorKeyStream]) ?_) ?_
  · intro i hi
    have hlt : i < size := by simpa [PRGReader.xorKeyStream] using hi
    refine Eq.trans ?_ (byte_filled_succ q hlt).symm
    simp [PRGReader.xorKeyStream, Bytes.byte, List.getD_eq_getElem?_getD, hlt, hks, hpos]
  · simp [PRGReader.xorKeyStream, hks, hpos, Nat.mul_succ]

/-! ## The words that are read -/

/-- The reader after `k` words, with a buffer of `W` words that has been filled `q` times. -/
structure BufioReader.Drawn (keystream : ℕ → UInt8) (W q : ℕ) (b : BufioReader) (k : ℕ) : Prop where
  rd_eq : b.rd = ⟨keystream, 8 * W * q⟩
  buf_eq : b.buf = (filled keystream (8 * W) q).toList
  w_eq : b.w = if q = 0 then 0 else 8 * W
  r_le : b.r ≤ b.w
  read_eq : b.r + 8 * W * q = 8 * k + b.w

theorem BufioReader.drawn_new (W : ℕ) :
    (BufioReader.new (.new keystream) (8 * W)).Drawn keystream W 0 0 where
  rd_eq := rfl
  buf_eq := Bytes.toList_zero.symm
  w_eq := rfl
  r_le := le_rfl
  read_eq := rfl

/-- A word that is in the buffer. -/
theorem BufioReader.copyOut_word {b : BufioReader} {q k : ℕ} (h : b.Drawn keystream W q k)
    (hne : b.r ≠ b.w) :
    ∃ b', b.copyOut (List.replicate 8 0) =
      ((stridedSum W (wordAt keystream) k).toList, 8, b') ∧ b'.Drawn keystream W q (k + 1) := by
  obtain ⟨hrd, hbuf, hw, hle, hread⟩ := h
  cases q with
  | zero =>
      rw [if_pos rfl] at hw
      omega
  | succ q =>
      rw [if_neg q.succ_ne_zero] at hw
      -- word `i` of the buffer
      obtain ⟨i, hr⟩ : ∃ i, b.r = i * 8 := by
        rw [Nat.mul_succ, Nat.mul_assoc] at hread
        exact ⟨k - W * q, by omega⟩
      have hi : i < W := by omega
      have hk : k = q * W + i := by
        rw [Nat.mul_succ, Nat.mul_assoc, Nat.mul_comm W] at hread
        omega
      have hsum : stridedSum W (wordAt keystream) k = rowAt 8 b.buf i := by
        have hW : 0 < W := by omega
        rw [hbuf, rowAt_filled _ hi, stridedSum, hk, Nat.mul_comm, Nat.mul_add_div hW,
          Nat.mul_add_mod, Nat.div_eq_of_lt hi, Nat.mod_eq_of_lt hi, Nat.add_zero]
      have hlen : b.buf.length = 8 * W := by rw [hbuf, Bytes.length_toList]
      have hmin : min (List.replicate 8 (0 : UInt8)).length (b.w - b.r) = 8 := by
        rw [List.length_replicate]
        omega
      refine ⟨{ b with r := b.r + 8 }, ?_, hrd, hbuf, by simpa using hw, by dsimp only; omega, by
        dsimp only; omega⟩
      rw [copyOut, hmin, hsum, toList_rowAt (by omega), ← hr]
      simp

/-- **A read of eight bytes** is not short. -/
theorem BufioReader.read_word {b : BufioReader} {q k : ℕ} (hW : 2 ≤ W)
    (h : b.Drawn keystream W q k) :
    ∃ b' q', b.read (List.replicate 8 0) =
      ((stridedSum W (wordAt keystream) k).toList, 8, b') ∧ b'.Drawn keystream W q' (k + 1) := by
  have hlen : b.buf.length = 8 * W := by rw [h.buf_eq, Bytes.length_toList]
  by_cases hempty : b.r = b.w
  · -- the buffer is filled once more
    have hfill : b.rd.read b.buf =
        ((filled keystream (8 * W) (q + 1)).toList, ⟨keystream, 8 * W * (q + 1)⟩) := by
      rw [PRGReader.read, if_neg (by omega), h.buf_eq,
        xorKeyStream_filled (by rw [h.rd_eq]) (by rw [h.rd_eq])]
    have hfull : BufioReader.Drawn keystream W (q + 1)
        ⟨⟨keystream, 8 * W * (q + 1)⟩, (filled keystream (8 * W) (q + 1)).toList, 0, 8 * W⟩ k := by
      refine ⟨rfl, rfl, by simp, by simp, ?_⟩
      have hread := h.read_eq
      rw [hempty] at hread
      dsimp only
      rw [Nat.mul_succ]
      omega
    obtain ⟨b', hcopy, hb'⟩ := copyOut_word hfull (by dsimp only; omega)
    refine ⟨b', q + 1, ?_, hb'⟩
    rw [read, if_neg (by simp), if_pos hempty, if_neg (by rw [hlen, List.length_replicate]; omega),
      hfill]
    dsimp only
    rw [Bytes.length_toList]
    exact hcopy
  · obtain ⟨b', hcopy, hb'⟩ := copyOut_word h hempty
    refine ⟨b', q, ?_, hb'⟩
    rw [read, if_neg (by simp), if_neg hempty, hcopy]

/-- A key stream of ones, through a buffer of two words: the third word is zero. -/
example :
    let (first, _, b) := (BufioReader.new (.new fun _ => 1) 16).read (List.replicate 8 0)
    let (_, _, b) := b.read (List.replicate 8 0)
    let (third, _, _) := b.read (List.replicate 8 0)
    first = List.replicate 8 1 ∧ third = List.replicate 8 0 := by
  decide

/-- **The results of any calls** after `k` words. -/
theorem BufPRGReader.calls_eq {b : BufPRGReader} {q k n : ℕ}
    (h : b.stream.Drawn keystream 1024 q k) (calls : Fin n → SourceCall) :
    b.calls (List.ofFn calls) = List.ofFn fun i : Fin n =>
      (calls i).result (leUint64 (stridedSum 1024 (wordAt keystream) (k + i)).toList) := by
  induction n generalizing b q k with
  | zero => simp [BufPRGReader.calls]
  | succ n ih =>
      obtain ⟨stream, q', hread, hdrawn⟩ := BufioReader.read_word (by omega) h
      have huint64 : b.uint64 =
          (leUint64 (stridedSum 1024 (wordAt keystream) k).toList, ⟨stream⟩) := by
        simp only [uint64, hread]
      have hrest := ih (b := ⟨stream⟩) hdrawn fun i => calls i.succ
      rw [List.ofFn_succ, List.ofFn_succ, BufPRGReader.calls, call_eq, huint64, hrest]
      simp [Nat.add_right_comm, Nat.add_assoc]

/-! ## Counting key streams -/

/-- A key stream that starts with the words. -/
def keystreamOf {n : ℕ} (words : Fin n → Bytes 8) (rest : ℕ → UInt8) (i : ℕ) : UInt8 :=
  if h : i / 8 < n then (words ⟨i / 8, h⟩).byte (i % 8) else rest i

theorem wordAt_keystreamOf {n : ℕ} (words : Fin n → Bytes 8) (rest : ℕ → UInt8) :
    wordAt (keystreamOf words rest) = startingWith words (wordAt rest) := by
  funext k
  apply Bytes.ext
  intro i hi
  have hdiv : (k * 8 + i) / 8 = k := by omega
  have hmod : (k * 8 + i) % 8 = i := by omega
  rw [wordAt, Bytes.byte_ofFn _ hi, keystreamOf, startingWith]
  by_cases hk : k < n
  · simp only [hdiv, hmod, hk, dif_pos]
  · simp only [hdiv, hk, dif_neg, not_false_iff, wordAt, Bytes.byte_ofFn _ hi]

theorem leUint64_toNat {b : List UInt8} (h : b.length = 8) :
    (leUint64 b).toNat = Nat.ofDigits 256 (b.map UInt8.toNat) := by
  have hlt : Nat.ofDigits 256 (b.map UInt8.toNat) < 256 ^ (b.map UInt8.toNat).length := by
    refine Nat.ofDigits_lt_base_pow_length (by decide) ?_
    intro d hd
    obtain ⟨x, -, rfl⟩ := List.mem_map.mp hd
    exact x.toNat_lt
  rw [List.length_map, h] at hlt
  rw [leUint64, UInt64.toNat_ofNat', Nat.mod_eq_of_lt (hlt.trans_eq (by norm_num))]

theorem leUint64_bijective : Function.Bijective fun word : Bytes 8 => leUint64 word.toList := by
  constructor
  · intro x y hxy
    have hdigits : Nat.ofDigits 256 (x.toList.map UInt8.toNat) =
        Nat.ofDigits 256 (y.toList.map UInt8.toNat) := by
      rw [← leUint64_toNat x.length_toList, ← leUint64_toNat y.length_toList]
      exact congrArg UInt64.toNat hxy
    have hlt : ∀ w : Bytes 8, ∀ d ∈ w.toList.map UInt8.toNat, d < 256 := by
      intro w d hd
      obtain ⟨b, -, rfl⟩ := List.mem_map.mp hd
      exact b.toNat_lt
    have hmap := Nat.ofDigits_inj_of_len_eq (by decide) (by simp) (hlt x) (hlt y) hdigits
    exact Bytes.toList_injective (List.map_injective_iff.mpr (fun _ _ h => UInt8.toNat_inj.mp h) hmap)
  · intro v
    have hlt := v.toNat_lt
    refine ⟨.ofFn fun i => UInt8.ofNat (v.toNat / 256 ^ i), UInt64.toNat_inj.mp ?_⟩
    dsimp only
    rw [leUint64_toNat (Bytes.length_toList _)]
    simp only [Bytes.toList, Bytes.ofFn, List.range_succ, List.range_zero, List.nil_append,
      List.cons_append, List.map_cons, List.map_nil, UInt8.toNat_ofNat', Nat.ofDigits_cons,
      Nat.ofDigits_nil]
    omega

/-- The words of which a call returns `v`. -/
theorem card_result (c : SourceCall) {v : UInt64} (hv : c = .int63 → v.toNat < 2 ^ 63) :
    Nat.card {word : UInt64 // c.result word = v} = if c = .int63 then 2 else 1 := by
  cases c with
  | uint64 => simp [SourceCall.result]
  | int63 =>
      have hv := hv rfl
      have hmask : ∀ word : UInt64,
          SourceCall.int63.result word = v ↔ word.toNat % 2 ^ 63 = v.toNat := by
        intro word
        rw [← UInt64.toNat_inj, SourceCall.result, UInt64.toNat_and]
        exact iff_of_eq (congrArg (· = v.toNat) (Nat.and_two_pow_sub_one_eq_mod word.toNat 63))
      -- the highest bit is free
      have hnat : ∀ i : Fin 2,
          (UInt64.ofNat (v.toNat + 2 ^ 63 * i)).toNat = v.toNat + 2 ^ 63 * i := by
        intro i
        rw [UInt64.toNat_ofNat', Nat.mod_eq_of_lt (by omega)]
      have hcard : Nat.card {word : UInt64 // SourceCall.int63.result word = v} =
          Nat.card (Fin 2) := by
        refine Nat.card_congr
          { toFun := fun word => ⟨word.1.toNat / 2 ^ 63, by have := word.1.toNat_lt; omega⟩
            invFun := fun i => ⟨UInt64.ofNat (v.toNat + 2 ^ 63 * i), ?_⟩
            left_inv := ?_
            right_inv := ?_ }
        · rw [hmask, hnat]
          omega
        · intro word
          have hword := (hmask word.1).mp word.2
          refine Subtype.ext (UInt64.toNat_inj.mp ?_)
          rw [hnat ⟨word.1.toNat / 2 ^ 63, by have := word.1.toNat_lt; omega⟩]
          dsimp only
          omega
        · intro i
          refine Fin.ext ?_
          simp only [hnat]
          omega
      rw [hcard, Nat.card_eq_fintype_card, Fintype.card_fin]
      rfl

/-- **The results of the calls are uniform**: in any sequence of `Uint64` and `Int63`, every sequence
of results comes from the same number of key streams, although from the second buffer on a result is
the sum of several words of the key stream. -/
theorem draws_uniform {n : ℕ} (rest : ℕ → UInt8) (calls : Fin n → SourceCall) (out : Fin n → UInt64)
    (hout : ∀ k, calls k = .int63 → (out k).toNat < 2 ^ 63) :
    Nat.card {words : Fin n → Bytes 8 //
      (BufPRGReader.new (.new (keystreamOf words rest))).calls (List.ofFn calls) = List.ofFn out} =
      2 ^ (Finset.univ.filter fun k => calls k = .int63).card := by
  -- the words of the buffers, from those of the key stream
  let sums := Equiv.ofBijective _ (stridedSum_bijective (n := n) (W := 1024) (by decide) (wordAt rest))
  let words := sums.trans (Equiv.piCongrRight fun _ => Equiv.ofBijective _ leUint64_bijective)
  have hcalls : ∀ ws : Fin n → Bytes 8,
      (BufPRGReader.new (.new (keystreamOf ws rest))).calls (List.ofFn calls) = List.ofFn out ↔
        (fun k => (calls k).result (words ws k)) = out := by
    intro ws
    have hdrawn : (BufPRGReader.new (.new (keystreamOf ws rest))).stream.Drawn _ 1024 0 0 :=
      BufioReader.drawn_new 1024
    rw [BufPRGReader.calls_eq hdrawn calls, List.ofFn_injective.eq_iff]
    simp only [Nat.zero_add, wordAt_keystreamOf]
    rfl
  calc Nat.card {ws : Fin n → Bytes 8 //
      (BufPRGReader.new (.new (keystreamOf ws rest))).calls (List.ofFn calls) = List.ofFn out}
      = Nat.card {ws : Fin n → UInt64 // (fun k => (calls k).result (ws k)) = out} :=
        Nat.card_congr (words.subtypeEquiv hcalls)
    _ = ∏ k, Nat.card {word : UInt64 // (calls k).result word = out k} :=
        NearUniform.card_pi_fiber (fun k => (calls k).result) out
    _ = ∏ k, if calls k = .int63 then 2 else 1 :=
        Finset.prod_congr rfl fun k _ => card_result (calls k) (hout k)
    _ = 2 ^ (Finset.univ.filter fun k => calls k = .int63).card := by
        rw [Finset.prod_ite, Finset.prod_const, Finset.prod_const_one, mul_one]

theorem draws_uniform_two_calls :
    Nat.card {words : Fin 2 → Bytes 8 //
      (BufPRGReader.new (.new (keystreamOf words fun _ => 0))).calls
        (List.ofFn ![.uint64, .int63]) = List.ofFn ![5, 7]} = 2 :=
  draws_uniform (fun _ => 0) ![.uint64, .int63] ![5, 7] (by decide)

end SinglePassPIR.Pir
