import SinglePassPIR.Lib.PrefixCode
import SinglePassPIR.Updatable.Rice

/-!
# The format of a Rice-coded list

`DecodeRiceIntegers` of `rice.go` reads messages from the network. A message is well formed if its
parameter is in range and its bits are one code for each entry, a quotient in unary and `k` bits of
remainder, followed by less than a byte of padding. The codes are prefix-free, so that there is one
way to read a message.

The quotient is a 32-bit count of ones, and the list is made of 32-bit sums. An encoder that sees a
sorted list picks the parameter from the range and the number of its keys.

## Main results

* `decodeLoop_total` — the decoder finds the codes if they are there, and fails otherwise.
* `decode_accepts_iff` — the messages that are accepted, and their values, exactly.
* `rice_size` — the bits of a sorted list.
-/

namespace SinglePassPIR.Updatable

/-- The 32-bit value of a code -/
def riceValue {k : ℕ} (c : UnaryBlock k) : UInt32 :=
  UInt32.ofNat (c.quotient % 2 ^ 32 * 2 ^ k + ofBits c.block)

variable {br : BitReader} {l rest : List Bool}

/-! ## One value -/

/-- The quotient is counted with 32 bits. -/
theorem readUnary_mod {m fuel q : ℕ} (h : br.Reads (List.replicate m true ++ false :: rest))
    (hfuel : m < fuel) :
    ∃ br', readUnary fuel q br = some ((q + m) % 2 ^ 32, br') ∧ br'.Reads rest := by
  induction m generalizing fuel q br with
  | zero =>
      obtain ⟨fuel, rfl⟩ := Nat.exists_eq_succ_of_ne_zero hfuel.ne'
      obtain ⟨br', hread, h'⟩ := readBits_spec (l := [false]) h
      refine ⟨br', ?_, h'⟩
      have hread' : br.readBits 1 = some (0, br') := hread
      rw [readUnary, hread', Option.bind_eq_bind, Option.bind_some]
      dsimp only
      rw [if_pos rfl]
  | succ m ih =>
      obtain ⟨fuel, rfl⟩ := Nat.exists_eq_succ_of_ne_zero (Nat.ne_zero_of_lt hfuel)
      obtain ⟨br₁, hread, h₁⟩ := readBits_spec (l := [true]) h
      have hread' : br.readBits 1 = some (1, br₁) := hread
      obtain ⟨br', hrest, h'⟩ := ih (q := (q + 1) % 2 ^ 32) h₁ (by omega : m < fuel)
      refine ⟨br', ?_, h'⟩
      rw [readUnary, hread', Option.bind_eq_bind, Option.bind_some]
      dsimp only
      rw [if_neg Nat.one_ne_zero, hrest, Nat.mod_add_mod, Nat.add_assoc, Nat.add_comm 1]

/-- Without a zero there is no end of the quotient. -/
theorem readUnary_eof {m fuel q : ℕ} (h : br.Reads (List.replicate m true)) :
    readUnary fuel q br = none := by
  induction fuel generalizing m q br with
  | zero => rfl
  | succ fuel ih =>
      cases m with
      | zero =>
          have hread : br.readBits 1 = none := readBitsLoop_short h Nat.zero_lt_one
          rw [readUnary, hread]
          rfl
      | succ m =>
          obtain ⟨br₁, hread, h₁⟩ := readBits_spec (l := [true]) h
          have hread' : br.readBits 1 = some (1, br₁) := hread
          rw [readUnary, hread', Option.bind_eq_bind, Option.bind_some]
          dsimp only
          rw [if_neg Nat.one_ne_zero, ih h₁]

/-- **The reader of a value** finds a code if there is one. -/
theorem readValue_total (k : ℕ) (h : br.Reads l) :
    (∃ (c : UnaryBlock k) (rest : List Bool) (br' : BitReader), l = c.bits ++ rest ∧
      readValue k br = some (riceValue c, br') ∧ br'.Reads rest) ∨
    (readValue k br = none ∧ ∀ (c : UnaryBlock k) rest, l ≠ c.bits ++ rest) := by
  have hfuel := h.bitsRemaining
  cases unary_cases l with
  | inr hones =>
      obtain ⟨q, rfl⟩ := hones
      refine Or.inr ⟨?_, fun c rest => c.ne_of_ones rest⟩
      rw [readValue, readUnary_eof h]
      rfl
  | inl hzero =>
      obtain ⟨q, tail, rfl⟩ := hzero
      rw [List.length_append, List.length_replicate] at hfuel
      obtain ⟨br₁, hunary, h₁⟩ := readUnary_mod (q := 0) h (show q < br.bitsRemaining + 1 by omega)
      rw [Nat.zero_add] at hunary
      by_cases hlen : tail.length < k
      · refine Or.inr ⟨?_, fun c rest => c.ne_of_short hlen rest⟩
        rw [readValue, hunary, Option.bind_eq_bind, Option.bind_some]
        dsimp only
        rw [BitReader.readBits, readBitsLoop_short h₁ hlen]
        rfl
      · have htake : (tail.take k).length = k := List.length_take_of_le (Nat.le_of_not_lt hlen)
        rw [← List.take_append_drop k tail] at h₁
        obtain ⟨br', hread, h'⟩ := readBits_spec h₁
        rw [htake] at hread
        refine Or.inl ⟨⟨q, tail.take k, htake⟩, tail.drop k, br', ?_, ?_, h'⟩
        · rw [UnaryBlock.bits, List.append_assoc, List.cons_append, List.take_append_drop]
        · rw [readValue, hunary, Option.bind_eq_bind, Option.bind_some]
          dsimp only
          rw [hread, Option.bind_some, Nat.shiftLeft_eq]
          rfl

/-! ## A list of values -/

/-- **The decoder is total**: it finds a code for each of `n` values, or there are none to find. -/
theorem decodeLoop_total (k n : ℕ) (last : UInt32) (h : br.Reads l) :
    (∃ (codes : List (UnaryBlock k)) (rest : List Bool) (br' : BitReader), codes.length = n ∧
      l = codes.flatMap UnaryBlock.bits ++ rest ∧
      decodeLoop k n last br = some ((codes.map riceValue).scanl (· + ·) last, br') ∧
      br'.Reads rest) ∨
    (decodeLoop k n last br = none ∧ ∀ (codes : List (UnaryBlock k)) rest, codes.length = n →
      l ≠ codes.flatMap UnaryBlock.bits ++ rest) := by
  induction n generalizing br l last with
  | zero => exact Or.inl ⟨[], l, br, rfl, rfl, rfl, h⟩
  | succ n ih =>
      cases readValue_total k h with
      | inr hfail =>
          obtain ⟨hread, hno⟩ := hfail
          refine Or.inr ⟨by rw [decodeLoop, hread]; rfl, ?_⟩
          intro codes rest hlen heq
          obtain ⟨c, codes, rfl⟩ := List.exists_cons_of_length_eq_add_one hlen
          rw [List.flatMap_cons, List.append_assoc] at heq
          exact hno c _ heq
      | inl hok =>
          obtain ⟨c, tail, br₁, rfl, hread, h₁⟩ := hok
          have hloop : decodeLoop k (n + 1) last br =
              (decodeLoop k n (last + riceValue c) br₁).bind fun r => some (last :: r.1, r.2) := by
            rw [decodeLoop, hread]
            rfl
          cases ih (last + riceValue c) h₁ with
          | inl hrest =>
              obtain ⟨codes, rest, br', hlen, rfl, hdec, h'⟩ := hrest
              refine Or.inl ⟨c :: codes, rest, br', congrArg (· + 1) hlen, ?_, ?_, h'⟩
              · rw [List.flatMap_cons, List.append_assoc]
              · rw [hloop, hdec, Option.bind_some, List.map_cons, List.scanl_cons]
          | inr hrest =>
              obtain ⟨hdec, hno⟩ := hrest
              refine Or.inr ⟨by rw [hloop, hdec]; rfl, ?_⟩
              intro codes rest hlen heq
              obtain ⟨c', codes, rfl⟩ := List.exists_cons_of_length_eq_add_one hlen
              rw [List.flatMap_cons, List.append_assoc] at heq
              exact hno codes rest (Nat.succ.inj hlen) (unaryBlock_prefixFree k heq).2

/-- **The messages that are accepted**, exactly: those with a parameter up to `32` and a code for
each entry, followed by less than a byte. Their values are the sums of what the codes stand for. -/
theorem decode_accepts_iff (e : RiceDeltaEncoding) (vs : List UInt32) :
    decodeRiceIntegers (some e) = .ok vs ↔
      ∃ k : ℕ, k ≤ 32 ∧ e.riceParameter = k ∧ ∃ (codes : List (UnaryBlock k)) (padding : List Bool),
        codes.length = e.numEntries.toNat ∧ padding.length < 8 ∧
        bytesBits e.encodedData = codes.flatMap UnaryBlock.bits ++ padding ∧
        vs = (codes.map riceValue).scanl (· + ·) (UInt32.ofInt e.firstValue) := by
  by_cases hparam : e.riceParameter < 0 ∨ 32 < e.riceParameter
  · rw [decodeRiceIntegers, if_pos hparam]
    refine iff_of_false (by simp) ?_
    rintro ⟨k, hk, hek, -⟩
    omega
  obtain ⟨k, hek⟩ : ∃ k : ℕ, e.riceParameter = k := Int.eq_ofNat_of_zero_le (by omega)
  have hk : e.riceParameter.toNat = k := by omega
  rw [decodeRiceIntegers, if_neg hparam, hk]
  have hreads := newBitReader_reads e.encodedData
  constructor
  · intro h
    cases decodeLoop_total k e.numEntries.toNat (UInt32.ofInt e.firstValue) hreads with
    | inr hfail => simp [hfail.1] at h
    | inl hok =>
        obtain ⟨codes, padding, br', hlen, hbits, hdec, h'⟩ := hok
        rw [hdec] at h
        dsimp only at h
        rw [h'.bitsRemaining] at h
        split_ifs at h with hpad
        cases h
        exact ⟨k, by omega, hek, codes, padding, hlen, Nat.lt_of_not_le hpad, hbits, rfl⟩
  · rintro ⟨k', -, hek', codes, padding, hlen, hpad, hbits, rfl⟩
    obtain rfl : k = k' := by omega
    cases decodeLoop_total k e.numEntries.toNat (UInt32.ofInt e.firstValue) hreads with
    | inr hfail => exact absurd hbits (hfail.2 codes padding hlen)
    | inl hok =>
        obtain ⟨codes', padding', br', hlen', hbits', hdec, h'⟩ := hok
        obtain ⟨rfl, rfl⟩ := (unaryBlock_prefixFree k).flatMap (hlen.trans hlen'.symm)
          (hbits.symm.trans hbits')
        rw [hdec]
        dsimp only
        rw [h'.bitsRemaining, if_neg (Nat.not_le.mpr hpad)]

/-! ## The size of a sorted list -/

theorem length_riceCode_le (k : ℕ) (v : UInt32) :
    (riceCode k v).length ≤ v.toNat / 2 ^ k + (1 + k) := by
  have hmod := Nat.mod_le (v.toNat / 2 ^ k + 1) (2 ^ 32)
  rw [riceCode, List.length_append, length_bitsOf, length_bitsOf, Nat.shiftRight_eq_div_pow]
  omega

/-- The quotients add up to at most the quotient of the sum. -/
theorem length_riceCodes_le (k : ℕ) (gs : List UInt32) :
    (gs.flatMap (riceCode k)).length ≤
      (gs.map UInt32.toNat).sum / 2 ^ k + gs.length * (1 + k) := by
  induction gs with
  | nil => simp
  | cons g gs ih =>
      have hcode := length_riceCode_le k g
      have hdiv : g.toNat / 2 ^ k + (gs.map UInt32.toNat).sum / 2 ^ k ≤
          (g.toNat + (gs.map UInt32.toNat).sum) / 2 ^ k := Nat.div_add_div_le_add_div
      rw [List.flatMap_cons, List.length_append, List.map_cons, List.sum_cons, List.length_cons,
        Nat.succ_mul]
      omega

/-- The bytes of an encoding, with any parameter that a list gets. -/
theorem length_encodedData_le (first : UInt32) (values : List UInt32) {k : ℕ} (hk : k < 2 ^ 32) :
    8 * (encodeRiceIntegersWithParam first values k).encodedData.length ≤
      ((deltas (first :: values)).map UInt32.toNat).sum / 2 ^ k + values.length * (1 + k) + 7 := by
  have hk' : ((k : ℤ) % 2 ^ 32).toNat = k := by
    rw [Int.emod_eq_of_lt (Int.natCast_nonneg k) (by omega), Int.toNat_natCast]
  obtain ⟨m, hm, hbits⟩ :=
    (foldl_writeValue_spec k newBitWriter_holds (deltas (first :: values))).bytesBits_buf
  have hlen := congrArg List.length hbits
  have hcodes := length_riceCodes_le k (deltas (first :: values))
  rw [length_bytesBits, List.nil_append, List.length_append, List.length_replicate] at hlen
  rw [length_deltas] at hcodes
  rw [encodeRiceIntegersWithParam]
  dsimp only
  split_ifs
  · simp
  · dsimp only
    rw [hk']
    omega

/-- **The size of a sorted list** of keys that are spread widely enough for the parameter: about the
logarithm of the mean gap, and three bits more, for each key. -/
theorem rice_size {keys : List UInt32} (hne : keys ≠ []) (hsorted : keys.Pairwise (· ≤ ·))
    (hwide : valRange keys = 0 ∨ keys.length < 2 * valRange keys) :
    ∃ e, encodeRiceIntegers keys = some e ∧ 8 * e.encodedData.length ≤
      keys.length * (Nat.log2 (valRange keys / keys.length) + 3) + 7 := by
  obtain ⟨first, values, rfl⟩ := List.exists_cons_of_ne_nil hne
  refine ⟨_, rfl, ?_⟩
  have hsum := sum_deltas hsorted
  have hrange : ((deltas (first :: values)).map UInt32.toNat).sum = valRange (first :: values) := by
    rw [valRange, List.headD_cons]
    omega
  rw [riceParam_eq hsorted]
  set R := valRange (first :: values) with hR
  by_cases h0 : R = 0
  · have hsize := length_encodedData_le first values (show 1 < 2 ^ 32 by decide)
    rw [hrange, h0] at hsize
    rw [if_pos h0, h0, Nat.zero_div, List.length_cons]
    refine Nat.le_trans hsize ?_
    simp
    omega
  · rw [if_neg h0, log2Ratio_eq (hwide.resolve_left h0)]
    have hlen : 0 < (first :: values).length := Nat.succ_pos _
    have hRlt : R < 2 ^ 32 := (Nat.sub_le _ _).trans_lt (UInt32.toNat_lt _)
    have hmean : R / (first :: values).length < 2 ^ 32 := (Nat.div_le_self _ _).trans_lt hRlt
    set k := Nat.log2 (R / (first :: values).length)
    have hk : k < 2 ^ 32 := (Nat.log2_le_self _).trans_lt hmean
    have hsize := length_encodedData_le first values hk
    -- the mean gap is below `2 ^ (k + 1)`
    have hgap : R / 2 ^ k < 2 * (first :: values).length := by
      have hmean' : R < 2 ^ (k + 1) * (first :: values).length :=
        (Nat.div_lt_iff_lt_mul hlen).mp Nat.lt_log2_self
      rw [Nat.div_lt_iff_lt_mul (Nat.two_pow_pos k)]
      calc R < 2 ^ (k + 1) * (first :: values).length := hmean'
        _ = 2 * (first :: values).length * 2 ^ k := by rw [Nat.pow_succ]; ring
    rw [hrange] at hsize
    have hsplit : (first :: values).length * (k + 3) =
        values.length * (1 + k) + (1 + k) + 2 * (first :: values).length := by
      rw [List.length_cons]
      ring
    omega

theorem rice_size_four_keys : ∃ e, encodeRiceIntegers [3, 40, 41, 1000] = some e ∧
    8 * e.encodedData.length ≤ 4 * (Nat.log2 (997 / 4) + 3) + 7 :=
  rice_size (by decide) (by decide) (Or.inr (by decide))

end SinglePassPIR.Updatable
