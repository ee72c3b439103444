import SinglePassPIR.Psetggm.Xor

/-!
# XOR of selected rows

`xor_rows` XORs the rows that start at given byte offsets. Whole vector lanes go through
`out` in a first loop over the offsets; what is left of the row is cut into pieces of 16
(AVX2 only), 8, 4, 2 and 1 bytes, each with an accumulator that a second loop fills. The
accumulators do not depend on each other, and here each has its own loop.

`xorRows` is the function on memory where the 16-byte load of the tail, which is an instruction for
aligned addresses, finds its addresses aligned. `xorRowsAt` has the address of the database as an
argument, and is `xorRows` there.

## Main results

* `xorRows_select` — the XOR of the rows inside the database, when every other offset is past
  its end.
* `xorRows_spec` — for offsets of rows inside the database, the XOR of these rows.
-/

namespace SinglePassPIR.Psetggm

/-- The first loop of `xor_rows`. Whether an offset leaves room for a row is decided by an
unsigned 32-bit difference. -/
def xorRowsLanes (B : Build) (db : List UInt8) (dbLen : ℕ) (elems : List ℕ)
    (numElems blockLen : ℕ) (out : List UInt8) : Option (List UInt8) :=
  intLoop numElems (fun i out => do
    let e ← elems[i]?
    if (dbLen + 2 ^ 32 - blockLen) % 2 ^ 32 < e then some out
    else intLoop (blockLen / B.lane) (fun b out => xorLane B.lane out (db.drop e) b) out) out

/-- A piece of the tail of a row. -/
structure TailPiece where
  width : ℕ
  offset : ℕ

/-- The pieces that are in use: `use128` and `off128`, …, `use8` and `off8`. -/
def tailPieces (B : Build) (blockLen : ℕ) : List TailPiece :=
  (if B = .avx2 ∧ 16 ≤ blockLen % 32 then [⟨16, blockLen - blockLen % 32⟩] else []) ++
  (if 8 ≤ blockLen % 16 then [⟨8, blockLen - blockLen % 16⟩] else []) ++
  (if 4 ≤ blockLen % 8 then [⟨4, blockLen - blockLen % 8⟩] else []) ++
  (if 2 ≤ blockLen % 4 then [⟨2, blockLen - blockLen % 4⟩] else []) ++
  (if 1 ≤ blockLen % 2 then [⟨1, blockLen - 1⟩] else [])

/-- The accumulator of one piece in the second loop, which only skips the offsets that are past
the end of the database, with the place where it goes. -/
def tailAcc (db : List UInt8) (dbLen : ℕ) (elems : List ℕ) (numElems : ℕ) (p : TailPiece) :
    Option (ℕ × List UInt8) := do
  let acc ← intLoop numElems (fun i acc => do
    let e ← elems[i]?
    if dbLen < e then some acc
    else do
      let v ← slice db (e + p.offset) (e + p.offset + p.width)
      some (xorVec acc v)) (List.replicate p.width 0)
  some (p.offset, acc)

/-- The stores at the end of `xor_rows`. -/
def storeAll (out : List UInt8) : List (ℕ × List UInt8) → Option (List UInt8)
  | [] => some out
  | (off, acc) :: rest => do
      let out ← storeAt out off acc
      storeAll out rest

/-- `xor_rows` -/
def xorRows (B : Build) (db : List UInt8) (dbLen : ℕ) (elems : List ℕ)
    (numElems blockLen : ℕ) (out : List UInt8) : Option (List UInt8) := do
  let out ← storeAt out 0 (List.replicate blockLen 0)
  let out ← xorRowsLanes B db dbLen elems numElems blockLen out
  if blockLen % B.lane = 0 then some out
  else do
    let accs ← (tailPieces B blockLen).mapM (tailAcc db dbLen elems numElems)
    storeAll out accs

/-! ## The rows that the offsets select -/

/-- The row of `n` bytes at byte offset `e`. -/
def rowFrom (n : ℕ) (buf : List UInt8) (e : ℕ) : Bytes n := Bytes.ofFn fun k => buf.getD (e + k) 0

theorem byte_rowFrom {n : ℕ} (buf : List UInt8) (e : ℕ) {k : ℕ} (hk : k < n) :
    (rowFrom n buf e).byte k = buf.getD (e + k) 0 := Bytes.byte_ofFn _ hk

variable {n : ℕ} {db : List UInt8} {elems : List ℕ} {numElems : ℕ} {e : ℕ → ℕ}

/-- Every offset in use is the start of a row inside the database. -/
structure RowsInside (n : ℕ) (db : List UInt8) (elems : List ℕ) (numElems : ℕ) (e : ℕ → ℕ) :
    Prop where
  getElem : ∀ i < numElems, elems[i]? = some (e i)
  inside : ∀ i < numElems, e i + n ≤ db.length
  length_lt : db.length < 2 ^ 32
  row_le : n ≤ db.length
  count_lt : numElems < 2 ^ 31

/-- Offsets that `xor_rows` can count, in a database it can measure. -/
structure OffsetsRead (n : ℕ) (db : List UInt8) (elems : List ℕ) (numElems : ℕ) (e : ℕ → ℕ) :
    Prop where
  getElem : ∀ i < numElems, elems[i]? = some (e i)
  length_lt : db.length < 2 ^ 32
  row_le : n ≤ db.length
  count_lt : numElems < 2 ^ 31

theorem RowsInside.read (h : RowsInside n db elems numElems e) :
    OffsetsRead n db elems numElems e := ⟨h.getElem, h.length_lt, h.row_le, h.count_lt⟩

/-- The row at an offset that leaves room for one. -/
def selectedRow (n : ℕ) (db : List UInt8) (e : ℕ) : Bytes n :=
  if e + n ≤ db.length then rowFrom n db e else 0

/-- The first loop leaves the whole lanes of the XOR of the rows that the offsets select. -/
theorem xorRowsLanes_spec (B : Build) (h : OffsetsRead n db elems numElems e) :
    ∃ out, xorRowsLanes B db db.length elems numElems n (List.replicate n 0) = some out ∧
      out.length = n ∧ ∀ k < n / B.lane * B.lane,
        out.getD k 0 = (∑ i ∈ Finset.range numElems, selectedRow n db (e i)).byte k := by
  have hle : n / B.lane * B.lane ≤ n := Nat.div_mul_le_self _ _
  have hn32 : n < 2 ^ 32 := h.row_le.trans_lt h.length_lt
  have hroom : (db.length + 2 ^ 32 - n) % 2 ^ 32 = db.length - n := by
    have := h.row_le
    have := h.length_lt
    omega
  rw [xorRowsLanes, intLoop_eq h.count_lt]
  refine loop_spec (fun i (out : List UInt8) => out.length = n ∧ ∀ k < n / B.lane * B.lane,
    out.getD k 0 = (∑ j ∈ Finset.range i, selectedRow n db (e j)).byte k) ⟨by simp, ?_⟩ ?_
  · intro k hk
    rw [Finset.range_zero, Finset.sum_empty, Bytes.byte_zero (by omega),
      List.getD_eq_getElem?_getD, List.getElem?_replicate, if_pos (by omega)]
    rfl
  · intro i hi out ⟨hlen, hout⟩
    have hle := h.row_le
    simp only [h.getElem i hi, Option.bind_eq_bind, Option.bind_some, hroom]
    by_cases hin : e i + n ≤ db.length
    · have hdrop : n ≤ (db.drop (e i)).length := by rw [List.length_drop]; omega
      refine ⟨xorFirst (n / B.lane * B.lane) out (db.drop (e i)), ?_, ?_, ?_⟩
      · rw [if_neg (by omega), xorLanes_eq B hn32 hlen.ge hdrop]
      · rw [length_xorFirst, hlen]
      · intro k hk
        have hkn : k < n := by omega
        rw [getD_xorFirst _ (by omega), if_pos hk, hout k hk, Bytes.byte_sum_range_succ _ _ hkn,
          selectedRow, if_pos hin, byte_rowFrom _ _ hkn, getD_drop]
    · refine ⟨out, by rw [if_pos (by omega)], hlen, ?_⟩
      intro k hk
      rw [hout k hk, Finset.sum_range_succ, selectedRow, if_neg hin, add_zero]

/-- The accumulator of a piece holds the bytes of the XOR of the rows that it covers, when the
offsets that select no row are past the end of the database. -/
theorem tailAcc_spec (h : OffsetsRead n db elems numElems e)
    (hskip : ∀ i < numElems, e i + n ≤ db.length ∨ db.length < e i) {p : TailPiece}
    (hp : p.offset + p.width ≤ n) :
    ∃ acc, tailAcc db db.length elems numElems p = some (p.offset, acc) ∧
      acc.length = p.width ∧ ∀ k < p.width, acc.getD k 0 =
        (∑ i ∈ Finset.range numElems, selectedRow n db (e i)).byte (p.offset + k) := by
  have key := loop_spec (n := numElems) (s := List.replicate p.width 0)
    (f := fun i acc => do
      let e ← elems[i]?
      if db.length < e then some acc
      else do
        let v ← slice db (e + p.offset) (e + p.offset + p.width)
        some (xorVec acc v))
    (fun i (acc : List UInt8) => acc.length = p.width ∧ ∀ k < p.width, acc.getD k 0 =
      (∑ j ∈ Finset.range i, selectedRow n db (e j)).byte (p.offset + k)) ?base ?step
  case base =>
    refine ⟨by simp, ?_⟩
    intro k hk
    rw [Finset.range_zero, Finset.sum_empty, Bytes.byte_zero (by omega),
      List.getD_eq_getElem?_getD, List.getElem?_replicate, if_pos hk]
    rfl
  case step =>
    intro i hi acc ⟨hlen, hacc⟩
    simp only [h.getElem i hi, Option.bind_eq_bind, Option.bind_some]
    by_cases hin : e i + n ≤ db.length
    · have hfit : e i + p.offset + p.width ≤ db.length := by omega
      obtain ⟨v, hv, hvlen, hvg⟩ := slice_spec 0 hfit
      refine ⟨xorVec acc v, ?_, ?_, ?_⟩
      · simp only [hv, Option.bind_some]
        rw [if_neg (by omega)]
      · rw [length_xorVec (hlen.trans hvlen.symm), hlen]
      · intro k hk
        have hkn : p.offset + k < n := by omega
        rw [getD_xorVec (hlen.trans hvlen.symm), hacc k hk, hvg k hk,
          Bytes.byte_sum_range_succ _ _ hkn, selectedRow, if_pos hin, byte_rowFrom _ _ hkn,
          Nat.add_assoc]
    · refine ⟨acc, by rw [if_pos ((hskip i hi).resolve_left hin)], hlen, ?_⟩
      intro k hk
      rw [hacc k hk, Finset.sum_range_succ, selectedRow, if_neg hin, add_zero]
  obtain ⟨acc, hloop, hlen, hacc⟩ := key
  refine ⟨acc, ?_, hlen, hacc⟩
  rw [tailAcc, intLoop_eq h.count_lt, hloop]
  rfl

/-- Storing pieces of a row over a buffer completes the cells they cover. -/
theorem storeAll_spec (x : Bytes n) (accs : List (ℕ × List UInt8)) {out : List UInt8}
    (hlen : out.length = n) (haccs : ∀ a ∈ accs, a.1 + a.2.length ≤ n ∧
      ∀ k < a.2.length, a.2.getD k 0 = x.byte (a.1 + k)) :
    ∃ out', storeAll out accs = some out' ∧ out'.length = n ∧ ∀ k,
      (out.getD k 0 = x.byte k ∨ ∃ a ∈ accs, a.1 ≤ k ∧ k < a.1 + a.2.length) →
        out'.getD k 0 = x.byte k := by
  induction accs generalizing out with
  | nil =>
      refine ⟨out, rfl, hlen, ?_⟩
      intro k hk
      cases hk with
      | inl h => exact h
      | inr h => simp at h
  | cons a accs ih =>
      obtain ⟨hfit, hcells⟩ := haccs a List.mem_cons_self
      obtain ⟨out₁, hst, hlen₁, hg₁⟩ := storeAt_spec 0 (hlen ▸ hfit)
      obtain ⟨out', hrest, hlen', hg'⟩ := ih (hlen₁.trans hlen)
        fun b hb => haccs b (List.mem_cons_of_mem a hb)
      refine ⟨out', ?_, hlen', ?_⟩
      · simp only [storeAll, hst, Option.bind_eq_bind, Option.bind_some, hrest]
      · intro k hk
        apply hg'
        have hown : a.1 ≤ k ∧ k < a.1 + a.2.length → out₁.getD k 0 = x.byte k := by
          intro hcov
          rw [hg₁, if_pos hcov, hcells _ (by omega), Nat.add_sub_cancel' hcov.1]
        cases hk with
        | inl h =>
            left
            by_cases hcov : a.1 ≤ k ∧ k < a.1 + a.2.length
            · exact hown hcov
            · rw [hg₁, if_neg hcov, h]
        | inr h =>
            obtain ⟨b, hb, hcov⟩ := h
            cases List.mem_cons.mp hb with
            | inl hba => exact Or.inl (hown (hba ▸ hcov))
            | inr hb => exact Or.inr ⟨b, hb, hcov⟩

/-- Every piece lies inside the row. -/
theorem tailPieces_inside (B : Build) (n : ℕ) {p : TailPiece} (hp : p ∈ tailPieces B n) :
    p.offset + p.width ≤ n := by
  simp only [tailPieces, List.mem_append, List.mem_ite_nil_right, List.mem_singleton] at hp
  rcases hp with (((⟨h, rfl⟩ | ⟨h, rfl⟩) | ⟨h, rfl⟩) | ⟨h, rfl⟩) | ⟨h, rfl⟩ <;>
    dsimp only <;> omega

/-- The pieces cover what the lanes leave of the row. -/
theorem tailPieces_cover (B : Build) {n k : ℕ} (hk : n / B.lane * B.lane ≤ k) (hkn : k < n) :
    ∃ p ∈ tailPieces B n, p.offset ≤ k ∧ k < p.offset + p.width := by
  simp only [tailPieces, List.mem_append, List.mem_ite_nil_right, List.mem_singleton, or_and_right,
    exists_or, and_assoc, exists_and_left, exists_eq_left]
  cases B with
  | avx2 =>
      simp only [Build.lane, true_and] at hk ⊢
      omega
  | sse =>
      simp only [Build.lane, reduceCtorEq, false_and, false_or] at hk ⊢
      omega

/-- **`xor_rows` returns the XOR of the rows that the offsets select**, in both builds, when the
row has no tail or every other offset is past the end of the database. -/
theorem xorRows_select (B : Build) (out : Bytes n) (h : OffsetsRead n db elems numElems e)
    (hskip : n % B.lane ≠ 0 → ∀ i < numElems, e i + n ≤ db.length ∨ db.length < e i) :
    xorRows B db db.length elems numElems n out.toList =
      some (∑ i ∈ Finset.range numElems, selectedRow n db (e i)).toList := by
  set x := ∑ i ∈ Finset.range numElems, selectedRow n db (e i) with hx
  have hset : storeAt out.toList 0 (List.replicate n 0) = some (List.replicate n 0) := by
    rw [storeAt_eq (by simp)]
    simp [List.drop_eq_nil_of_le]
  obtain ⟨out₁, hlanes, hlen₁, hg₁⟩ := xorRowsLanes_spec B h
  simp only [xorRows, hset, hlanes, Option.bind_eq_bind, Option.bind_some]
  by_cases hmod : n % B.lane = 0
  · rw [if_pos hmod]
    refine congrArg some (ext_getD 0 (by simp [hlen₁]) ?_)
    intro k hk
    have hall : n / B.lane * B.lane = n := Nat.div_mul_cancel (Nat.dvd_of_mod_eq_zero hmod)
    exact hg₁ k (by omega)
  · rw [if_neg hmod]
    obtain ⟨accs, hmap, hto, hfrom⟩ := mapM_exists
      (fun (p : TailPiece) (a : ℕ × List UInt8) => a.1 = p.offset ∧ a.2.length = p.width ∧
        ∀ k < p.width, a.2.getD k 0 = x.byte (p.offset + k)) (tailPieces B n) (by
      intro p hp
      obtain ⟨acc, hacc, hlen, hg⟩ := tailAcc_spec h (hskip hmod) (tailPieces_inside B n hp)
      exact ⟨_, hacc, rfl, hlen, hg⟩)
    obtain ⟨out', hst, hlen', hg'⟩ := storeAll_spec x accs hlen₁ (by
      intro a ha
      obtain ⟨p, hp, hoff, hw, hg⟩ := hfrom a ha
      rw [hoff, hw]
      exact ⟨tailPieces_inside B n hp, hg⟩)
    simp only [hmap, Option.bind_some, hst]
    refine congrArg some (ext_getD 0 (by simp [hlen']) ?_)
    intro k hk
    apply hg'
    by_cases hlane : k < n / B.lane * B.lane
    · exact Or.inl (hg₁ k hlane)
    · obtain ⟨p, hp, hle, hlt⟩ := tailPieces_cover B (not_lt.mp hlane) (hlen' ▸ hk)
      obtain ⟨a, ha, hoff, hw, -⟩ := hto p hp
      exact Or.inr ⟨a, ha, by omega, by omega⟩

/-- **`xor_rows` returns the XOR of the rows at the offsets**, in both builds. -/
theorem xorRows_spec (B : Build) (out : Bytes n) (h : RowsInside n db elems numElems e) :
    xorRows B db db.length elems numElems n out.toList =
      some (∑ i ∈ Finset.range numElems, rowFrom n db (e i)).toList := by
  rw [xorRows_select B out h.read fun _ i hi => Or.inl (h.inside i hi)]
  refine congrArg (fun x : Bytes n => some x.toList) (Finset.sum_congr rfl ?_)
  intro i hi
  exact if_pos (h.inside i (Finset.mem_range.mp hi))

end SinglePassPIR.Psetggm
