import SinglePassPIR.Psetggm.XorRows

/-!
# What the XOR kernels compute exactly

Each kernel computes the byte-wise XOR of the rows it selects and writes no other byte, with two
exceptions. The kernels count rows with an `int`, which a count from `2 ^ 31` on overflows, and the
tail of the AVX2 version of `xor_rows` loads 16 bytes with an instruction for aligned addresses.
`xorRowsAt` is `xor_rows` with the address of the database. The other loads of the kernels, those of
8, 4 and 2 bytes through cast pointers among them, are taken to be for any address, as they are on
the processors that the AVX2 and SSE versions are for.

The second loop of `xor_rows` skips only the offsets past the end of the database, and the first
one all that leave no room for a row.

## Main results

* `KernelCall.exact_iff` — the calls that compute the XOR.
* `xorRows_ignores_iff` — the offsets among which `xor_rows` ignores those without a row.
-/

namespace SinglePassPIR.Psetggm

variable {B : Build} {addr n dbLen : ℕ} {db : List UInt8} {elems : List ℕ}

/-- A load of the second loop of `xor_rows`; the one of 16 bytes is `_mm_load_si128`, which asks
for an aligned address. -/
def loadTail (addr : ℕ) (db : List UInt8) (a width : ℕ) : Option (List UInt8) :=
  if width = 16 ∧ (addr + a) % 16 ≠ 0 then none else slice db a (a + width)

/-- The accumulator of one piece in the second loop, for a database at address `addr`. -/
def tailAccAt (addr : ℕ) (db : List UInt8) (dbLen : ℕ) (elems : List ℕ) (numElems : ℕ)
    (p : TailPiece) : Option (ℕ × List UInt8) := do
  let acc ← intLoop numElems (fun i acc => do
    let e ← elems[i]?
    if dbLen < e then some acc
    else do
      let v ← loadTail addr db (e + p.offset) p.width
      some (xorVec acc v)) (List.replicate p.width 0)
  some (p.offset, acc)

/-- `xor_rows`, for a database at address `addr` -/
def xorRowsAt (B : Build) (addr : ℕ) (db : List UInt8) (dbLen : ℕ) (elems : List ℕ)
    (numElems blockLen : ℕ) (out : List UInt8) : Option (List UInt8) := do
  let out ← storeAt out 0 (List.replicate blockLen 0)
  let out ← xorRowsLanes B db dbLen elems numElems blockLen out
  if blockLen % B.lane = 0 then some out
  else do
    let accs ← (tailPieces B blockLen).mapM (tailAccAt addr db dbLen elems numElems)
    storeAll out accs

/-- Every 16-byte load of the tail is at an aligned address. -/
def TailAligned (B : Build) (addr n dbLen : ℕ) (elems : List ℕ) : Prop :=
  B = .avx2 → 16 ≤ n % 32 → ∀ e ∈ elems, e ≤ dbLen → (addr + (e + (n - n % 32))) % 16 = 0

instance : Decidable (TailAligned B addr n dbLen elems) :=
  inferInstanceAs (Decidable (_ → _ → _))

/-! ## Alignment -/

/-- The piece of 16 bytes. -/
theorem mem_tailPieces_16 {p : TailPiece} :
    p ∈ tailPieces B n ∧ p.width = 16 ↔ B = .avx2 ∧ 16 ≤ n % 32 ∧ p = ⟨16, n - n % 32⟩ := by
  simp only [tailPieces, List.mem_append, List.mem_ite_nil_right, List.mem_singleton]
  constructor
  · rintro ⟨(((⟨⟨hB, h⟩, rfl⟩ | ⟨h, rfl⟩) | ⟨h, rfl⟩) | ⟨h, rfl⟩) | ⟨h, rfl⟩, hw⟩
    · exact ⟨hB, h, rfl⟩
    all_goals cases hw
  · rintro ⟨hB, h, rfl⟩
    exact ⟨Or.inl (Or.inl (Or.inl (Or.inl ⟨⟨hB, h⟩, rfl⟩))), rfl⟩

/-- Aligned loads are loads. -/
theorem tailAccAt_eq (h : TailAligned B addr n dbLen elems) {p : TailPiece}
    (hp : p ∈ tailPieces B n) (numElems : ℕ) :
    tailAccAt addr db dbLen elems numElems p = tailAcc db dbLen elems numElems p := by
  have hbody : ∀ (i : ℕ) (acc : List UInt8), (do
      let e ← elems[i]?
      if dbLen < e then some acc
      else do
        let v ← loadTail addr db (e + p.offset) p.width
        some (xorVec acc v)) = (do
      let e ← elems[i]?
      if dbLen < e then some acc
      else do
        let v ← slice db (e + p.offset) (e + p.offset + p.width)
        some (xorVec acc v)) := by
    intro i acc
    cases hread : elems[i]? with
    | none => rfl
    | some e =>
        simp only [Option.bind_eq_bind, Option.bind_some]
        split_ifs with hskip
        · rfl
        · rw [loadTail, if_neg]
          rintro ⟨hw, hmis⟩
          obtain ⟨hB, h16, hpiece⟩ := mem_tailPieces_16.mp ⟨hp, hw⟩
          rw [hpiece] at hmis
          exact hmis (h hB h16 e (List.mem_of_getElem? hread) (Nat.le_of_not_lt hskip))
  simp only [tailAccAt, tailAcc, hbody]

/-- With aligned loads, the address does not matter. -/
theorem xorRowsAt_eq (h : TailAligned B addr n dbLen elems) (numElems : ℕ) (out : List UInt8) :
    xorRowsAt B addr db dbLen elems numElems n out = xorRows B db dbLen elems numElems n out := by
  have haccs : (tailPieces B n).mapM (tailAccAt addr db dbLen elems numElems) =
      (tailPieces B n).mapM (tailAcc db dbLen elems numElems) :=
    mapM_congr fun p hp => tailAccAt_eq h hp numElems
  rw [xorRowsAt, xorRows, haccs]

/-- A load of the tail that faults. -/
theorem xorRowsAt_eq_none {p : TailPiece} {e : ℕ} (hp : p ∈ tailPieces B n)
    (hlane : n % B.lane ≠ 0) (he : e ∈ elems) (hle : e ≤ dbLen)
    (hload : loadTail addr db (e + p.offset) p.width = none) (out : List UInt8) :
    xorRowsAt B addr db dbLen elems elems.length n out = none := by
  obtain ⟨i, hi, rfl⟩ := List.mem_iff_getElem.mp he
  have hacc : tailAccAt addr db dbLen elems elems.length p = none := by
    have hloop : ∀ s, intLoop elems.length (fun i acc => do
        let e ← elems[i]?
        if dbLen < e then some acc
        else do
          let v ← loadTail addr db (e + p.offset) p.width
          some (xorVec acc v)) s = none := by
      intro s
      rw [intLoop]
      split_ifs
      · refine loop_eq_none hi fun acc => ?_
        rw [List.getElem?_eq_getElem hi, Option.bind_eq_bind, Option.bind_some,
          if_neg (Nat.not_lt_of_le hle), hload]
        rfl
      · rfl
    rw [tailAccAt, hloop]
    rfl
  rw [xorRowsAt, mapM_eq_none hp hacc]
  cases storeAt out 0 (List.replicate n 0) with
  | none => rfl
  | some out₀ =>
      rw [Option.bind_eq_bind, Option.bind_some]
      cases xorRowsLanes B db dbLen elems elems.length n out₀ with
      | none => rfl
      | some out₁ =>
          rw [Option.bind_some, if_neg hlane]
          rfl

/-- An `int` cannot count so many offsets. -/
theorem xorRowsAt_of_large (hlarge : 2 ^ 31 ≤ elems.length) (out : List UInt8) :
    xorRowsAt B addr db dbLen elems elems.length n out = none := by
  have hlanes : ∀ out, xorRowsLanes B db dbLen elems elems.length n out = none := fun out =>
    if_neg (Nat.not_lt_of_le hlarge)
  rw [xorRowsAt]
  cases storeAt out 0 (List.replicate n 0) with
  | none => rfl
  | some out₀ =>
      rw [Option.bind_eq_bind, Option.bind_some, hlanes]
      rfl

/-- A load at an address that is not aligned. -/
theorem xorRowsAt_of_misaligned (h : ¬TailAligned B addr n dbLen elems) (out : List UInt8) :
    xorRowsAt B addr db dbLen elems elems.length n out = none := by
  rw [TailAligned] at h
  push Not at h
  obtain ⟨rfl, h16, e, he, hle, hmis⟩ := h
  obtain ⟨hp, -⟩ := (mem_tailPieces_16 (p := ⟨16, n - n % 32⟩)).mpr ⟨rfl, h16, rfl⟩
  refine xorRowsAt_eq_none hp ?_ he hle (if_pos ⟨rfl, hmis⟩) out
  change n % 32 ≠ 0
  omega

/-! ## Offsets without a row -/

/-- The XOR of the rows at the offsets that leave room for one. -/
def selectedRows (n : ℕ) (db : List UInt8) (elems : List ℕ) : Bytes n :=
  ((elems.filter fun e => e + n ≤ db.length).map (rowFrom n db)).sum

theorem selectedRows_eq (n : ℕ) (db : List UInt8) (elems : List ℕ) :
    selectedRows n db elems =
      ∑ i ∈ Finset.range elems.length, selectedRow n db (elems.getD i 0) := by
  rw [sum_range_getD]
  induction elems with
  | nil => rfl
  | cons e elems ih =>
      rw [List.map_cons, List.sum_cons, ← ih, selectedRow, selectedRows, List.filter_cons]
      by_cases hin : e + n ≤ db.length
      · rw [if_pos (decide_eq_true hin), if_pos hin, List.map_cons, List.sum_cons, selectedRows]
      · rw [if_neg (by simpa using hin), if_neg hin, zero_add, selectedRows]

/-- The last piece of a tail ends where the row does. -/
theorem exists_last_piece (B : Build) (hlane : n % B.lane ≠ 0) :
    ∃ p ∈ tailPieces B n, p.offset + p.width = n := by
  have hpos : 0 < n := by
    by_contra h0
    rw [Nat.eq_zero_of_not_pos h0, Nat.zero_mod] at hlane
    exact hlane rfl
  have hlt : n / B.lane * B.lane < n := by
    have := Nat.div_add_mod n B.lane
    rw [Nat.mul_comm] at this
    omega
  obtain ⟨p, hp, -, hend⟩ := tailPieces_cover (n := n) (k := n - 1) B (by omega) (by omega)
  have hinside := tailPieces_inside B n hp
  exact ⟨p, hp, by omega⟩

/-- **When `xor_rows` ignores the offsets without a row**: it can count them, the 16-byte loads of
the tail are aligned, and if the row has a tail, no offset is in the last row of the database past
its start. -/
theorem xorRows_ignores_iff (B : Build) (addr : ℕ) {db : List UInt8} {elems : List ℕ} (out : Bytes n)
    (hrow : n ≤ db.length) (hdb : db.length < 2 ^ 32) :
    xorRowsAt B addr db db.length elems elems.length n out.toList =
        some (selectedRows n db elems).toList ↔
      elems.length < 2 ^ 31 ∧ TailAligned B addr n db.length elems ∧
        (n % B.lane ≠ 0 → ∀ e ∈ elems, e + n ≤ db.length ∨ db.length < e) := by
  constructor
  · intro h
    have hsome : xorRowsAt B addr db db.length elems elems.length n out.toList ≠ none := by simp [h]
    refine ⟨?_, ?_, ?_⟩
    · by_contra hlarge
      exact hsome (xorRowsAt_of_large (Nat.le_of_not_lt hlarge) _)
    · by_contra hmis
      exact hsome (xorRowsAt_of_misaligned hmis _)
    · intro hlane e he
      by_contra hover
      push Not at hover
      -- the last piece of the tail is read past the end
      obtain ⟨p, hp, hend⟩ := exists_last_piece B hlane
      refine hsome (xorRowsAt_eq_none hp hlane he hover.2 ?_ _)
      have hslice : slice db (e + p.offset) (e + p.offset + p.width) = none := by
        rw [slice, if_neg]
        omega
      rw [loadTail, hslice, ite_self]
  · intro ⟨hcount, haligned, hskip⟩
    have hread : OffsetsRead n db elems elems.length fun i => elems.getD i 0 :=
      ⟨fun i hi => getElem?_eq_some_getD 0 hi, hdb, hrow, hcount⟩
    rw [xorRowsAt_eq haligned, selectedRows_eq]
    refine xorRows_select B out hread ?_
    intro hlane i hi
    refine hskip hlane _ ?_
    rw [List.getD_eq_getElem?_getD, List.getElem?_eq_getElem hi]
    exact List.getElem_mem hi

theorem xorRows_ignores_iff_two_rows :
    xorRowsAt .avx2 0 [1, 2, 4, 8] 4 [2, 4, 7] 3 2 [0, 0] =
        some (selectedRows 2 [1, 2, 4, 8] [2, 4, 7]).toList ↔
      3 < 2 ^ 31 ∧ TailAligned .avx2 0 2 4 [2, 4, 7] ∧
        (2 % Build.avx2.lane ≠ 0 → ∀ e ∈ [2, 4, 7], e + 2 ≤ 4 ∨ 4 < e) :=
  xorRows_ignores_iff .avx2 0 (0 : Bytes 2) (by decide) (by decide)

/-- An offset at the end of a database of one byte is read by the second loop, in both builds. -/
theorem xorRows_reads_past_the_end :
    xorRowsAt .avx2 0 [5] 1 [1] 1 1 [0] = none ∧ xorRowsAt .sse 0 [5] 1 [1] 1 1 [0] = none ∧
      (selectedRows 1 [5] [1]).toList = [0] := by
  decide

/-! ## Bytes after the output -/

/-- The bytes after those that a kernel works on stay. -/
theorem xorFirst_append {m : ℕ} {out rest inp : List UInt8} (h : m ≤ out.length) :
    xorFirst m (out ++ rest) inp = xorFirst m out inp ++ rest := by
  refine ext_getD 0 (by simp) fun k hk => ?_
  rw [length_xorFirst, List.length_append] at hk
  rw [getD_xorFirst inp (by rwa [List.length_append]), getD_append out, getD_append (xorFirst m out inp),
    length_xorFirst]
  by_cases hko : k < out.length
  · rw [if_pos hko, if_pos hko, getD_xorFirst inp hko]
  · rw [if_neg hko, if_neg hko, if_neg (by omega)]

theorem storeAt_append {l rest v : List UInt8} {off : ℕ} (h : off + v.length ≤ l.length) :
    storeAt (l ++ rest) off v = (storeAt l off v).map (· ++ rest) := by
  rw [storeAt_eq h, storeAt_eq (by rw [List.length_append]; omega), Option.map_some,
    List.take_append_of_le_length (by omega), List.drop_append_of_le_length h]
  simp only [List.append_assoc]

theorem xorAllRows_append (B : Build) {numElems : ℕ} {db out : List UInt8} (rest : List UInt8)
    (hn : n < 2 ^ 32) (hm : numElems < 2 ^ 31) (hdb : numElems * n ≤ db.length)
    (hout : out.length = n) :
    xorAllRows B db numElems n (out ++ rest) = (xorAllRows B db numElems n out).map (· ++ rest) := by
  have hfit : 0 + (List.replicate n (0 : UInt8)).length ≤ out.length := by simp [hout]
  obtain ⟨out₀, hset, hlen, -⟩ := storeAt_spec 0 hfit
  have hset' : storeAt (out ++ rest) 0 (List.replicate n 0) = some (out₀ ++ rest) := by
    rw [storeAt_append hfit, hset, Option.map_some]
  simp only [xorAllRows, hset, hset', Option.bind_eq_bind, Option.bind_some, intLoop_eq hm]
  refine loop_map (· ++ rest) (fun t => t.length = n) (hlen.trans hout) ?_
  intro i hi t ht
  have hend : n ≤ (db.drop (i * n)).length := by
    have := block_end_le (w := n) hi
    rw [List.length_drop]
    omega
  have htn : n ≤ (t ++ rest).length := by rw [List.length_append]; omega
  rw [xorInto_eq B hn htn hend, xorInto_eq B hn ht.ge hend, xorFirst_append ht.ge]
  refine ⟨rfl, ?_⟩
  intro t' ht'
  rw [← Option.some.inj ht', length_xorFirst, ht]

/-- The parities after those of the permutation stay. -/
theorem xorSinglePass_append (B : Build) {m : ℕ} {par db : List UInt8} {inversePerm : List ℕ}
    (rest : List UInt8) (hn : n < 2 ^ 32) (hmn : m * n < 2 ^ 32) (hm : m < 2 ^ 31)
    (hpar : par.length = m * n) (hdb : m * n ≤ db.length)
    (hinv : ∀ i < m, ∃ p < m, inversePerm[i]? = some p) :
    xorSinglePass B db inversePerm m (par ++ rest) n =
      (xorSinglePass B db inversePerm m par n).map (· ++ rest) := by
  rw [xorSinglePass, xorSinglePass, intLoop_eq hm, intLoop_eq hm]
  refine loop_map (· ++ rest) (fun t => t.length = m * n) hpar ?_
  intro i hi t ht
  obtain ⟨p, hp, hread⟩ := hinv i hi
  have hpend := block_end_le (w := n) hp
  have hoff : p * n % 2 ^ 32 = p * n := Nat.mod_eq_of_lt (by omega)
  have hend : n ≤ (db.drop (i * n)).length := by
    have := block_end_le (w := n) hi
    rw [List.length_drop]
    omega
  have hblock : n ≤ (t.drop (p * n)).length := by rw [List.length_drop]; omega
  have hblock' : n ≤ (t.drop (p * n) ++ rest).length := by rw [List.length_append]; omega
  simp only [hread, Option.bind_eq_bind, Option.bind_some, hoff]
  rw [List.drop_append_of_le_length (by omega), List.take_append_of_le_length (by omega),
    xorInto_eq B hn hblock' hend, xorInto_eq B hn hblock hend, xorFirst_append hblock]
  refine ⟨by simp, ?_⟩
  intro t' ht'
  rw [Option.bind_some, Option.some.injEq] at ht'
  rw [← ht', List.length_append, length_xorFirst, List.length_take, List.length_drop]
  omega

theorem storeAll_append {accs : List (ℕ × List UInt8)} {out : List UInt8} (rest : List UInt8)
    (h : ∀ a ∈ accs, a.1 + a.2.length ≤ out.length) :
    storeAll (out ++ rest) accs = (storeAll out accs).map (· ++ rest) := by
  induction accs generalizing out with
  | nil => rfl
  | cons a accs ih =>
      obtain ⟨out₁, hst, hlen, -⟩ := storeAt_spec 0 (h a List.mem_cons_self)
      have hst' : storeAt (out ++ rest) a.1 a.2 = some (out₁ ++ rest) := by
        rw [storeAt_append (h a List.mem_cons_self), hst, Option.map_some]
      simp only [storeAll, hst, hst', Option.bind_eq_bind, Option.bind_some]
      exact ih fun b hb => hlen ▸ h b (List.mem_cons_of_mem a hb)

theorem xorRowsLanes_append (B : Build) {numElems : ℕ} {e : ℕ → ℕ} {out : List UInt8}
    (rest : List UInt8) (h : OffsetsRead n db elems numElems e) (hout : out.length = n) :
    xorRowsLanes B db db.length elems numElems n (out ++ rest) =
      (xorRowsLanes B db db.length elems numElems n out).map (· ++ rest) := by
  have hle := h.row_le
  have hlt := h.length_lt
  have hlane : n / B.lane * B.lane ≤ n := Nat.div_mul_le_self _ _
  have hroom : (db.length + 2 ^ 32 - n) % 2 ^ 32 = db.length - n := by omega
  rw [xorRowsLanes, xorRowsLanes, intLoop_eq h.count_lt, intLoop_eq h.count_lt]
  refine loop_map (· ++ rest) (fun t => t.length = n) hout ?_
  intro i hi t ht
  simp only [h.getElem i hi, Option.bind_eq_bind, Option.bind_some, hroom]
  split_ifs with hskip
  · refine ⟨rfl, ?_⟩
    intro t' ht'
    exact Option.some.inj ht' ▸ ht
  · have hdrop : n ≤ (db.drop (e i)).length := by rw [List.length_drop]; omega
    have htn : n ≤ (t ++ rest).length := by rw [List.length_append]; omega
    rw [xorLanes_eq B (by omega) htn hdrop, xorLanes_eq B (by omega) ht.ge hdrop,
      xorFirst_append (by omega)]
    refine ⟨rfl, ?_⟩
    intro t' ht'
    rw [← Option.some.inj ht', length_xorFirst, ht]

/-- The bytes after the row stay. -/
theorem xorRows_append (B : Build) {numElems : ℕ} {e : ℕ → ℕ} {out : List UInt8}
    (rest : List UInt8) (h : OffsetsRead n db elems numElems e)
    (hskip : n % B.lane ≠ 0 → ∀ i < numElems, e i + n ≤ db.length ∨ db.length < e i)
    (hout : out.length = n) :
    xorRows B db db.length elems numElems n (out ++ rest) =
      (xorRows B db db.length elems numElems n out).map (· ++ rest) := by
  have hset : ∀ o : List UInt8, o.length = n → storeAt o 0 (List.replicate n 0) =
      some (List.replicate n 0) := by
    intro o ho
    rw [storeAt_eq (by simp [ho])]
    simp [List.drop_eq_nil_of_le ho.le]
  have hset' : storeAt (out ++ rest) 0 (List.replicate n 0) = some (List.replicate n 0 ++ rest) := by
    rw [storeAt_append (by simp [hout]), hset out hout, Option.map_some]
  obtain ⟨out₁, hlanes, hlen₁, -⟩ := xorRowsLanes_spec B h
  have hlanes' : xorRowsLanes B db db.length elems numElems n (List.replicate n 0 ++ rest) =
      some (out₁ ++ rest) := by
    rw [xorRowsLanes_append B rest h List.length_replicate, hlanes, Option.map_some]
  simp only [xorRows, hset out hout, hset', hlanes, hlanes', Option.bind_eq_bind, Option.bind_some]
  split_ifs with hlane
  · rfl
  · obtain ⟨accs, hmap, -, hfrom⟩ := mapM_exists
      (fun (p : TailPiece) (a : ℕ × List UInt8) => a.1 = p.offset ∧ a.2.length = p.width)
      (tailPieces B n) (by
      intro p hp
      obtain ⟨acc, hacc, hlen, -⟩ := tailAcc_spec h (hskip hlane) (tailPieces_inside B n hp)
      exact ⟨_, hacc, rfl, hlen⟩)
    simp only [hmap, Option.bind_some]
    refine storeAll_append rest fun a ha => ?_
    obtain ⟨p, hp, hoff, hw⟩ := hfrom a ha
    rw [hoff, hw, hlen₁]
    exact tailPieces_inside B n hp

/-! ## Calls of the kernels -/

/-- A call of a kernel, less the element size. -/
inductive KernelCall
  | xorInto (out inp : List UInt8)
  | xorAllRows (db : List UInt8) (numElems : ℕ) (out : List UInt8)
  | xorSinglePass (db : List UInt8) (inversePerm : List ℕ) (permSize : ℕ) (parities : List UInt8)
  | xorRows (addr : ℕ) (db : List UInt8) (elems : List ℕ) (out : List UInt8)

namespace KernelCall

/-- What the kernel leaves in its output buffer, for elements of `n` bytes. -/
def run (B : Build) (n : ℕ) : KernelCall → Option (List UInt8)
  | xorInto out inp => Psetggm.xorInto B out inp n
  | xorAllRows db numElems out => Psetggm.xorAllRows B db numElems n out
  | xorSinglePass db inversePerm permSize parities =>
      Psetggm.xorSinglePass B db inversePerm permSize parities n
  | xorRows addr db elems out => xorRowsAt B addr db db.length elems elems.length n out

/-- Every buffer is as long as the kernel takes it to be, and every length fits its type. -/
def Proper (n : ℕ) : KernelCall → Prop
  | xorInto out inp => n ≤ out.length ∧ n ≤ inp.length
  | xorAllRows db numElems out => numElems * n ≤ db.length ∧ n ≤ out.length
  | xorSinglePass db inversePerm permSize parities =>
      permSize * n < 2 ^ 32 ∧ inversePerm.Perm (List.range permSize) ∧
        permSize * n ≤ db.length ∧ permSize * n ≤ parities.length
  | xorRows _ db elems out =>
      db.length < 2 ^ 32 ∧ (∀ e ∈ elems, e + n ≤ db.length) ∧ n ≤ out.length

/-- The output buffer. -/
def out : KernelCall → List UInt8
  | xorInto out _ => out
  | xorAllRows _ _ out => out
  | xorSinglePass _ _ _ parities => parities
  | xorRows _ _ _ out => out

/-- The XOR of some bytes. -/
def xorBytes (l : List UInt8) : UInt8 := l.foldl (· ^^^ ·) 0

/-- Byte `k` of the output buffer as it should be. -/
def byte (n k : ℕ) : KernelCall → UInt8
  | xorInto out inp => if k < n then out.getD k 0 ^^^ inp.getD k 0 else out.getD k 0
  | xorAllRows db numElems out =>
      if k < n then xorBytes ((List.range numElems).map fun i => db.getD (i * n + k) 0)
      else out.getD k 0
  | xorSinglePass db inversePerm permSize parities =>
      if k < permSize * n
      then parities.getD k 0 ^^^ db.getD (inversePerm.idxOf (k / n) * n + k % n) 0
      else parities.getD k 0
  | xorRows _ db elems out =>
      if k < n then xorBytes (elems.map fun e => db.getD (e + k) 0) else out.getD k 0

/-- The output buffer as it should be. -/
def expected (n : ℕ) (c : KernelCall) : List UInt8 :=
  (List.range c.out.length).map fun k => c.byte n k

/-- The rows can be counted, and the 16-byte loads are aligned. -/
def Countable (B : Build) (n : ℕ) : KernelCall → Prop
  | xorInto _ _ => True
  | xorAllRows _ numElems _ => numElems < 2 ^ 31
  | xorSinglePass _ _ permSize _ => permSize < 2 ^ 31
  | xorRows addr db elems _ => elems.length < 2 ^ 31 ∧ TailAligned B addr n db.length elems

theorem byte_sum_range (f : ℕ → Bytes n) (m : ℕ) {k : ℕ} (hk : k < n) :
    (∑ i ∈ Finset.range m, f i).byte k = xorBytes ((List.range m).map fun i => (f i).byte k) := by
  induction m with
  | zero => exact Bytes.byte_zero hk
  | succ m ih =>
      rw [Bytes.byte_sum_range_succ _ _ hk, ih, List.range_succ, List.map_append, xorBytes, xorBytes,
        List.foldl_append]
      rfl

theorem map_range_getD {α : Type} (g : ℕ → α) (l : List ℕ) :
    (List.range l.length).map (fun i => g (l.getD i 0)) = l.map g := by
  refine List.ext_getElem (by simp) fun i hi hi' => ?_
  rw [List.length_map] at hi'
  simp [List.getD_eq_getElem?_getD, hi']

/-- A row, with the bytes of the buffer after it. -/
theorem row_append {out : List UInt8} {x : Bytes n} {f : ℕ → UInt8} (hout : n ≤ out.length)
    (hx : ∀ k < n, x.byte k = f k) :
    x.toList ++ out.drop n =
      (List.range out.length).map fun k => if k < n then f k else out.getD k 0 := by
  refine ext_getD 0 (by simp; omega) fun k hk => ?_
  have hko : k < out.length := by
    rw [List.length_append, Bytes.length_toList, List.length_drop] at hk
    omega
  have hread : ((List.range out.length).map fun k => if k < n then f k else out.getD k 0).getD k 0 =
      if k < n then f k else out.getD k 0 := by
    simp [List.getD_eq_getElem?_getD, hko]
  rw [hread, getD_append, Bytes.length_toList, getD_drop]
  split_ifs with hkn
  · exact hx k hkn
  · rw [Nat.add_sub_cancel' (Nat.le_of_not_lt hkn)]

/-- An `int` cannot count so many rows. -/
theorem xorAllRows_of_large (B : Build) {numElems : ℕ} (hlarge : 2 ^ 31 ≤ numElems)
    (db out : List UInt8) : Psetggm.xorAllRows B db numElems n out = none := by
  have hloop : ∀ f (s : List UInt8), intLoop numElems f s = none := fun f s =>
    if_neg (Nat.not_lt_of_le hlarge)
  rw [Psetggm.xorAllRows]
  cases storeAt out 0 (List.replicate n 0) with
  | none => rfl
  | some out₀ => rw [Option.bind_eq_bind, Option.bind_some, hloop]

/-- `xor_all_rows` -/
theorem xorAllRows_exact (B : Build) {numElems : ℕ} {db out : List UInt8} (hn : n < 2 ^ 32)
    (hdb : numElems * n ≤ db.length) (hout : n ≤ out.length) :
    (xorAllRows db numElems out).run B n = some ((xorAllRows db numElems out).expected n) ↔
      numElems < 2 ^ 31 := by
  have hsplit : out = out.take n ++ out.drop n := (List.take_append_drop n out).symm
  have htake : (out.take n).length = n := by rw [List.length_take]; omega
  constructor
  · intro h
    by_contra hlarge
    rw [run, xorAllRows_of_large B (Nat.le_of_not_lt hlarge)] at h
    cases h
  · intro hm
    have happend := xorAllRows_append B (out.drop n) hn hm hdb htake
    have hspec := xorAllRows_spec B (⟨out.take n, htake⟩ : Bytes n) hn hm hdb
    rw [← hsplit] at happend
    rw [run, happend]
    refine (congrArg (Option.map (· ++ out.drop n)) hspec).trans (congrArg some ?_)
    refine row_append hout fun k hk => ?_
    rw [byte_sum_range _ _ hk]
    refine congrArg xorBytes (List.map_congr_left fun i _ => ?_)
    exact byte_rowAt db i hk

/-- A byte of a flat buffer, by its row. -/
theorem getD_eq_byte_rowAt (hn : 0 < n) (buf : List UInt8) (k : ℕ) :
    buf.getD k 0 = (rowAt n buf (k / n)).byte (k % n) := by
  rw [byte_rowAt _ _ (Nat.mod_lt k hn), Nat.div_add_mod' k n]

/-- The one row that a permutation takes to parity `q`. -/
theorem sum_inverse {m q : ℕ} {inversePerm : List ℕ} (hperm : inversePerm.Perm (List.range m))
    (hq : q < m) (f : ℕ → Bytes n) :
    (∑ i ∈ Finset.range m, if inversePerm.getD i 0 = q then f i else 0) =
      f (inversePerm.idxOf q) := by
  have hlen : inversePerm.length = m := by rw [hperm.length_eq, List.length_range]
  have hnodup : inversePerm.Nodup := hperm.nodup_iff.mpr List.nodup_range
  have hmem : q ∈ inversePerm := hperm.mem_iff.mpr (List.mem_range.mpr hq)
  have hidx : inversePerm.idxOf q < inversePerm.length := List.idxOf_lt_length_of_mem hmem
  rw [Finset.sum_eq_single (inversePerm.idxOf q)]
  · rw [if_pos]
    rw [List.getD_eq_getElem?_getD, List.getElem?_eq_getElem hidx, Option.getD_some,
      List.getElem_idxOf]
  · intro i hi hne
    refine if_neg fun heq => hne ?_
    have hilt : i < inversePerm.length := hlen ▸ Finset.mem_range.mp hi
    rw [List.getD_eq_getElem?_getD, List.getElem?_eq_getElem hilt, Option.getD_some] at heq
    rw [← heq, hnodup.idxOf_getElem]
  · intro hnot
    exact absurd (Finset.mem_range.mpr (hlen ▸ hidx)) hnot

/-- `xor_single_pass` -/
theorem xorSinglePass_exact (B : Build) {m : ℕ} {db parities : List UInt8} {inversePerm : List ℕ}
    (hn : 0 < n) (h32 : n < 2 ^ 32) (hmn : m * n < 2 ^ 32)
    (hperm : inversePerm.Perm (List.range m)) (hdb : m * n ≤ db.length)
    (hpar : m * n ≤ parities.length) :
    (xorSinglePass db inversePerm m parities).run B n =
        some ((xorSinglePass db inversePerm m parities).expected n) ↔ m < 2 ^ 31 := by
  constructor
  · intro h
    by_contra hlarge
    rw [run, Psetggm.xorSinglePass, intLoop, if_neg hlarge] at h
    cases h
  · intro hm
    have hlen : inversePerm.length = m := by rw [hperm.length_eq, List.length_range]
    have hinv : ∀ i < m, inversePerm[i]? = some (inversePerm.getD i 0) ∧
        inversePerm.getD i 0 < m := by
      intro i hi
      have hread := getElem?_eq_some_getD (l := inversePerm) 0 (by omega : i < inversePerm.length)
      exact ⟨hread, List.mem_range.mp (hperm.mem_iff.mp (List.mem_of_getElem? hread))⟩
    have htake : (parities.take (m * n)).length = m * n := by rw [List.length_take]; omega
    obtain ⟨par', hloop, hlen', hrows⟩ := xorSinglePass_spec B (fun i => inversePerm.getD i 0) hmn h32
      hm htake hdb hinv
    have happend := xorSinglePass_append B (parities.drop (m * n)) h32 hmn hm htake hdb
      fun i hi => ⟨_, (hinv i hi).2, (hinv i hi).1⟩
    obtain ⟨x, hx⟩ : ∃ x : Bytes (m * n), x.toList = par' := ⟨⟨par', hlen'⟩, rfl⟩
    rw [List.take_append_drop, hloop, Option.map_some, ← hx] at happend
    rw [run, happend]
    have hrow : ∀ k < m * n, x.byte k = parities.getD k 0 ^^^
        db.getD (inversePerm.idxOf (k / n) * n + k % n) 0 := by
      intro k hk
      have hq : k / n < m := Nat.div_lt_of_lt_mul (by rwa [Nat.mul_comm])
      have hmod := Nat.mod_lt k hn
      have hsum := hrows (k / n) hq
      rw [sum_inverse hperm hq] at hsum
      rw [Bytes.byte, hx, getD_eq_byte_rowAt hn par', hsum, Bytes.byte_add _ _ hmod, ← getD_eq_byte_rowAt hn,
        getD_take, if_pos hk, byte_rowAt _ _ hmod]
    exact congrArg some (row_append hpar hrow)

/-- Rows at offsets inside the database. -/
theorem rowsInside_of_mem {db : List UInt8} {elems : List ℕ} (hdb : db.length < 2 ^ 32)
    (hin : ∀ e ∈ elems, e + n ≤ db.length) (hrow : n ≤ db.length)
    (hcount : elems.length < 2 ^ 31) :
    RowsInside n db elems elems.length fun i => elems.getD i 0 := by
  refine ⟨fun i hi => getElem?_eq_some_getD 0 hi, fun i hi => hin _ ?_, hdb, hrow, hcount⟩
  exact List.mem_of_getElem? (getElem?_eq_some_getD 0 hi)

/-- Without offsets the database does not matter. -/
theorem xorRows_nil (B : Build) (db db' : List UInt8) (dbLen dbLen' : ℕ) (out : List UInt8) :
    Psetggm.xorRows B db dbLen [] 0 n out = Psetggm.xorRows B db' dbLen' [] 0 n out := by
  have hlanes : ∀ db dbLen out, xorRowsLanes B db dbLen [] 0 n out = some out := by
    intro db dbLen out
    rw [xorRowsLanes, intLoop_eq (by decide), loop_zero]
  have hacc : ∀ db dbLen p, tailAcc db dbLen [] 0 p = some (p.offset, List.replicate p.width 0) := by
    intro db dbLen p
    rw [tailAcc, intLoop_eq (by decide), loop_zero]
    rfl
  have haccs : tailAcc db dbLen [] 0 = tailAcc db' dbLen' [] 0 :=
    funext fun p => (hacc db dbLen p).trans (hacc db' dbLen' p).symm
  simp only [Psetggm.xorRows, hlanes, haccs]

/-- `xor_rows` with offsets that it can count and loads that are aligned. -/
theorem xorRows_run (B : Build) {db out : List UInt8} {elems : List ℕ} (hn : n < 2 ^ 32)
    (hdb : db.length < 2 ^ 32) (hin : ∀ e ∈ elems, e + n ≤ db.length) (hout : n ≤ out.length)
    (hcount : elems.length < 2 ^ 31) :
    Psetggm.xorRows B db db.length elems elems.length n out =
      some ((∑ i ∈ Finset.range elems.length, rowFrom n db (elems.getD i 0)).toList ++
        out.drop n) := by
  have htake : (out.take n).length = n := by rw [List.length_take]; omega
  have hrun : ∀ db' : List UInt8, RowsInside n db' elems elems.length (fun i => elems.getD i 0) →
      Psetggm.xorRows B db' db'.length elems elems.length n out =
        some ((∑ i ∈ Finset.range elems.length, rowFrom n db' (elems.getD i 0)).toList ++
          out.drop n) := by
    intro db' h
    have happend := xorRows_append B (out.drop n) h.read (fun _ i hi => Or.inl (h.inside i hi)) htake
    rw [List.take_append_drop] at happend
    rw [happend]
    exact congrArg (Option.map (· ++ out.drop n)) (xorRows_spec B (⟨out.take n, htake⟩ : Bytes n) h)
  cases elems with
  | nil =>
      rw [List.length_nil, xorRows_nil B db (List.replicate n 0) db.length
        (List.replicate n (0 : UInt8)).length]
      exact hrun _ ⟨by simp, by simp, by simpa using hn, by simp, by simp⟩
  | cons e elems =>
      have hrow : n ≤ db.length := by
        have := hin e List.mem_cons_self
        omega
      exact hrun db (rowsInside_of_mem hdb hin hrow hcount)

/-- `xor_rows` -/
theorem xorRows_exact (B : Build) {addr : ℕ} {db out : List UInt8} {elems : List ℕ}
    (hn : n < 2 ^ 32) (hdb : db.length < 2 ^ 32) (hin : ∀ e ∈ elems, e + n ≤ db.length)
    (hout : n ≤ out.length) :
    (xorRows addr db elems out).run B n = some ((xorRows addr db elems out).expected n) ↔
      elems.length < 2 ^ 31 ∧ TailAligned B addr n db.length elems := by
  constructor
  · intro h
    have hsome : (xorRows addr db elems out).run B n ≠ none := by simp [h]
    constructor
    · by_contra hlarge
      exact hsome (xorRowsAt_of_large (Nat.le_of_not_lt hlarge) out)
    · by_contra hmis
      exact hsome (xorRowsAt_of_misaligned hmis out)
  · intro ⟨hcount, haligned⟩
    rw [run, xorRowsAt_eq haligned, xorRows_run B hn hdb hin hout hcount]
    refine congrArg some (row_append hout fun k hk => ?_)
    rw [byte_sum_range _ _ hk, ← map_range_getD (fun e => db.getD (e + k) 0) elems]
    exact congrArg xorBytes (List.map_congr_left fun i _ => byte_rowFrom db _ hk)

/-- **The calls that compute the XOR**: those whose rows can be counted and whose 16-byte loads
are aligned. -/
theorem exact_iff (B : Build) (hn : 0 < n) (h32 : n < 2 ^ 32) {c : KernelCall} (h : c.Proper n) :
    c.run B n = some (c.expected n) ↔ c.Countable B n := by
  cases c with
  | xorInto out inp =>
      obtain ⟨hout, hinp⟩ := h
      exact iff_of_true (xorInto_eq B h32 hout hinp) trivial
  | xorAllRows db numElems out =>
      obtain ⟨hdb, hout⟩ := h
      exact xorAllRows_exact B h32 hdb hout
  | xorSinglePass db inversePerm permSize parities =>
      obtain ⟨hmn, hperm, hdb, hpar⟩ := h
      exact xorSinglePass_exact B hn h32 hmn hperm hdb hpar
  | xorRows addr db elems out =>
      obtain ⟨hdb, hin, hout⟩ := h
      exact xorRows_exact B h32 hdb hin hout

theorem exact_iff_two_rows :
    (xorRows 3 [1, 2, 4, 8] [2, 0] [0, 0, 9]).run .avx2 2 =
        some ((xorRows 3 [1, 2, 4, 8] [2, 0] [0, 0, 9]).expected 2) ↔
      (xorRows 3 [1, 2, 4, 8] [2, 0] [0, 0, 9]).Countable .avx2 2 :=
  exact_iff .avx2 (by decide) (by decide) ⟨by decide, by decide, by decide⟩

example : (xorRows 3 [1, 2, 4, 8] [2, 0] [0, 0, 9]).run .avx2 2 = some [5, 10, 9] := by decide

/-- A database of zeros. -/
def zeros (len : ℕ) : List UInt8 := List.replicate len 0

/-- In both builds `xor_all_rows` cannot count `2 ^ 31` rows of one byte, and the AVX2 version of
`xor_rows` loads the only row of 16 bytes at address `1` as if it were aligned. -/
theorem kernels_fault :
    (∀ B, (xorAllRows (zeros (2 ^ 31)) (2 ^ 31) [0]).Proper 1 ∧
      (xorAllRows (zeros (2 ^ 31)) (2 ^ 31) [0]).run B 1 ≠
        some ((xorAllRows (zeros (2 ^ 31)) (2 ^ 31) [0]).expected 1)) ∧
    (xorRows 0 (zeros 17) [1] (zeros 16)).Proper 16 ∧
      (xorRows 0 (zeros 17) [1] (zeros 16)).run .avx2 16 ≠
        some ((xorRows 0 (zeros 17) [1] (zeros 16)).expected 16) := by
  refine ⟨fun B => ⟨⟨?_, le_rfl⟩, ?_⟩, ⟨by decide, by decide, by decide⟩, by decide⟩
  · rw [zeros, List.length_replicate, Nat.mul_one]
  · rw [run, xorAllRows_of_large B le_rfl]
    exact (Option.some_ne_none _).symm

end KernelCall

end SinglePassPIR.Psetggm
