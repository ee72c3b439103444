import SinglePassPIR.Psetggm.XorRows
import Mathlib.Data.Nat.Bitwise

/-!
# XOR of the rows that a bit vector selects

`xor_hashes_by_bit_vector` XORs the 32-byte rows `j` for which bit `j % 8` of byte `j / 8` is
set. Row `j` goes to the pair of accumulators `j % 8`: the XOR with slot `1` is stored in the slot
that the bit names, so that slot `0` collects what is not selected. A first loop takes eight rows
at a time and a second one those that are left.

A row is one vector in the AVX2 version and two in the SSE version, which has accumulators for
each half. They do not depend on each other, and here each half has its own loops. A vector of
the database is read through a pointer to a vector, whose address has to be aligned; `addr` is the
address of the database.

## Main results

* `xorHashesByBitVector_spec` — the XOR of the selected rows, in both builds.
-/

namespace SinglePassPIR.Psetggm

/-- A vector read through a pointer to it. -/
def loadVec (addr : ℕ) (db : List UInt8) (a width : ℕ) : Option (List UInt8) :=
  if (addr + a) % width ≠ 0 then none else slice db a (a + width)

/-- `results[k][(tmp>>k)&1] = results[k][1] ^ row` -/
def accumulate (tmp : UInt8) (k : ℕ) (row : List UInt8)
    (results : List (List UInt8 × List UInt8)) : Option (List (List UInt8 × List UInt8)) := do
  let (slot0, slot1) ← results[k]?
  let v := xorVec slot1 row
  some (results.set k (if tmp.toNat >>> k &&& 1 = 0 then (v, slot1) else (slot0, v)))

/-- The part at offset `off` of row `j` into pair `k` -/
def addHash (addr : ℕ) (db : List UInt8) (off width : ℕ) (tmp : UInt8) (k j : ℕ)
    (results : List (List UInt8 × List UInt8)) : Option (List (List UInt8 × List UInt8)) := do
  let row ← loadVec addr db (32 * j + off) width
  accumulate tmp k row results

/-- The two loops over the rows. -/
def addHashes (addr : ℕ) (db : List UInt8) (dbLen : ℕ) (indexing : List UInt8)
    (off width : ℕ) : Option (List (List UInt8 × List UInt8)) := do
  -- `~0x7` as an unsigned number
  let lenFullBytes := dbLen / 32 &&& 0xFFFFFFF8
  let results ← loop (lenFullBytes / 8) (fun b results => do
    let tmp ← indexing[b]?
    loop 8 (fun k results => addHash addr db off width tmp k (8 * b + k) results) results)
    (List.replicate 8 (List.replicate width 0, List.replicate width 0))
  loop (dbLen / 32 - lenFullBytes) (fun t results => do
    let i := lenFullBytes + t
    let tmp ← indexing[i / 8]?
    addHash addr db off width tmp (i % 8) i results) results

/-- The XOR of the slots `1` -/
def combine (results : List (List UInt8 × List UInt8)) : Option (List UInt8) := do
  let first ← results[0]?
  loop 7 (fun k result => do
    let next ← results[k + 1]?
    some (xorVec result next.2)) first.2

/-- The result for the part at offset `off` of the rows, with the place where it goes. -/
def hashesPart (addr : ℕ) (db : List UInt8) (dbLen : ℕ) (indexing : List UInt8) (width off : ℕ) :
    Option (ℕ × List UInt8) := do
  let results ← addHashes addr db dbLen indexing off width
  let result ← combine results
  some (off, result)

/-- The offsets of the vectors of a row. -/
def Build.hashParts : Build → List ℕ
  | .avx2 => [0]
  | .sse => [0, 16]

/-- `xor_hashes_by_bit_vector` -/
def xorHashesByBitVector (B : Build) (addr : ℕ) (db : List UInt8) (dbLen : ℕ)
    (indexing out : List UInt8) : Option (List UInt8) := do
  let parts ← B.hashParts.mapM (hashesPart addr db dbLen indexing B.lane)
  storeAll out parts

/-! ## The selected rows -/

/-- Bit `j % 8` of byte `j / 8`. -/
def Selects (indexing : List UInt8) (j : ℕ) : Prop :=
  (indexing.getD (j / 8) 0).toNat >>> (j % 8) &&& 1 ≠ 0

instance (indexing : List UInt8) (j : ℕ) : Decidable (Selects indexing j) :=
  inferInstanceAs (Decidable (_ ≠ _))

/-- Row `j` of a flat buffer if it is selected, else nothing. -/
def selectedHash (n : ℕ) (db indexing : List UInt8) (j : ℕ) : Bytes n :=
  if Selects indexing j then rowAt n db j else 0

variable {addr dbLen off w m : ℕ} {db indexing : List UInt8}
  {results : List (List UInt8 × List UInt8)}

/-- The part at offset `off` of row `j` if it is selected. -/
def selectedPart (w : ℕ) (db indexing : List UInt8) (off j : ℕ) : Bytes w :=
  if Selects indexing j then rowFrom w db (32 * j + off) else 0

/-- The terms below `m` that go to pair `k`. -/
def stripe (f : ℕ → Bytes w) (m k : ℕ) : Bytes w := ∑ j ∈ Finset.range m with j % 8 = k, f j

theorem stripe_succ (f : ℕ → Bytes w) (m k : ℕ) :
    stripe f (m + 1) k = if m % 8 = k then stripe f m k + f m else stripe f m k := by
  rw [stripe, Finset.range_add_one, Finset.filter_insert]
  split_ifs
  · rw [Finset.sum_insert (by simp), add_comm, stripe]
  · rfl

/-- The pairs share out the terms. -/
theorem sum_stripe (f : ℕ → Bytes w) (m : ℕ) :
    ∑ k ∈ Finset.range 8, stripe f m k = ∑ j ∈ Finset.range m, f j := by
  apply Finset.sum_fiberwise_of_maps_to
  intro j _
  exact Finset.mem_range.mpr (Nat.mod_lt j (by decide))

/-! ## The accumulators -/

/-- Slot `1` of pair `k` holds `x k`. -/
structure Slots (results : List (List UInt8 × List UInt8)) (x : ℕ → Bytes w) : Prop where
  length_eq : results.length = 8
  slot : ∀ k < 8, ∃ garbage : Bytes w, results[k]? = some (garbage.toList, (x k).toList)

theorem slots_replicate :
    Slots (List.replicate 8 (List.replicate w 0, List.replicate w 0)) fun _ => (0 : Bytes w) := by
  refine ⟨by simp, ?_⟩
  intro k hk
  refine ⟨0, ?_⟩
  rw [List.getElem?_replicate, if_pos hk, Bytes.toList_zero]

theorem accumulate_spec {x : ℕ → Bytes w} (h : Slots results x) (tmp : UInt8) {k : ℕ} (hk : k < 8)
    (row : Bytes w) :
    ∃ results', accumulate tmp k row.toList results = some results' ∧ Slots results'
      (Function.update x k (x k + if tmp.toNat >>> k &&& 1 ≠ 0 then row else 0)) := by
  obtain ⟨garbage, hread⟩ := h.slot k hk
  simp only [accumulate, hread, Option.bind_eq_bind, Option.bind_some, ← toList_add]
  refine ⟨_, rfl, by rw [List.length_set, h.length_eq], ?_⟩
  intro k' hk'
  rw [List.getElem?_set]
  by_cases hkk : k = k'
  · subst hkk
    rw [if_pos rfl, if_pos (h.length_eq ▸ hk), Function.update_self]
    by_cases hbit : tmp.toNat >>> k &&& 1 = 0
    · refine ⟨x k + row, ?_⟩
      rw [if_pos hbit, if_neg (not_not.mpr hbit), add_zero]
    · refine ⟨garbage, ?_⟩
      rw [if_neg hbit, if_pos hbit]
  · rw [if_neg hkk, Function.update_of_ne (Ne.symm hkk)]
    exact h.slot k' hk'

/-- What the loops need of their memory, for rows cut into parts of `w` bytes. -/
structure Readable (addr : ℕ) (db : List UInt8) (dbLen : ℕ) (indexing : List UInt8)
    (off w : ℕ) : Prop where
  aligned : ∀ j < dbLen / 32, (addr + (32 * j + off)) % w = 0
  part_le : off + w ≤ 32
  db_le : dbLen / 32 * 32 ≤ db.length
  indexing_le : dbLen / 32 ≤ 8 * indexing.length

/-- One row. -/
theorem addHash_spec (h : Readable addr db dbLen indexing off w) (hm : m < dbLen / 32)
    (hslots : Slots results (stripe (selectedPart w db indexing off) m)) :
    ∃ results', addHash addr db off w (indexing.getD (m / 8) 0) (m % 8) m results =
        some results' ∧ Slots results' (stripe (selectedPart w db indexing off) (m + 1)) := by
  have hpart := h.part_le
  have hdb := h.db_le
  have hfit : 32 * m + off + w ≤ db.length := by omega
  have hload : loadVec addr db (32 * m + off) w = some (rowFrom w db (32 * m + off)).toList := by
    rw [loadVec, if_neg (not_not.mpr (h.aligned m hm)), slice_eq (by omega) hfit]
    refine congrArg some (ext_getD 0 ?_ ?_)
    · rw [Nat.add_sub_cancel_left, length_slice hfit, Bytes.length_toList]
    · intro k hk
      rw [Nat.add_sub_cancel_left, length_slice hfit] at hk
      rw [Nat.add_sub_cancel_left, getD_slice _ _ _ _ _ hk]
      exact (byte_rowFrom db _ hk).symm
  obtain ⟨results', hacc, hslots'⟩ := accumulate_spec hslots (indexing.getD (m / 8) 0)
    (Nat.mod_lt m (by decide)) (rowFrom w db (32 * m + off))
  refine ⟨results', by rw [addHash, hload, Option.bind_eq_bind, Option.bind_some, hacc], ?_⟩
  convert hslots' using 1
  funext k
  rw [stripe_succ, Function.update_apply]
  by_cases hk : m % 8 = k
  · subst hk
    rw [if_pos rfl, if_pos rfl]
    rfl
  · rw [if_neg hk, if_neg (Ne.symm hk)]

theorem and_not_seven {rows : ℕ} (h : rows < 2 ^ 32) : rows &&& 0xFFFFFFF8 = rows / 8 * 8 := by
  have hmask : (0xFFFFFFF8 : ℕ) = (2 ^ 29 - 1) <<< 3 := by decide
  have hdiv : rows / 8 * 8 = rows >>> 3 <<< 3 := by
    rw [Nat.shiftLeft_eq, Nat.shiftRight_eq_div_pow]
  rw [hmask, hdiv]
  apply Nat.eq_of_testBit_eq
  intro i
  rw [Nat.testBit_and, Nat.testBit_shiftLeft, Nat.testBit_two_pow_sub_one, Nat.testBit_shiftLeft,
    Nat.testBit_shiftRight]
  by_cases hlow : 3 ≤ i
  · by_cases hhigh : i < 32
    · have h29 : i - 3 < 29 := by omega
      simp [hlow, h29]
    · have hzero : rows.testBit i = false :=
        Nat.testBit_lt_two_pow (h.trans_le (Nat.pow_le_pow_right (by decide) (by omega)))
      rw [hzero, Nat.add_sub_cancel' hlow, hzero]
      simp
  · simp [hlow]

/-- Both loops together take every row once. -/
theorem addHashes_spec (h : Readable addr db dbLen indexing off w) (hlen : dbLen < 2 ^ 32) :
    ∃ results, addHashes addr db dbLen indexing off w = some results ∧
      Slots results (stripe (selectedPart w db indexing off) (dbLen / 32)) := by
  have hidx := h.indexing_le
  have hfull : dbLen / 32 &&& 0xFFFFFFF8 = dbLen / 32 / 8 * 8 := and_not_seven (by omega)
  have hblocks : dbLen / 32 / 8 * 8 / 8 = dbLen / 32 / 8 := Nat.mul_div_cancel _ (by decide)
  have hunrolled := loop_spec (n := dbLen / 32 / 8)
    (s := List.replicate 8 (List.replicate w 0, List.replicate w 0))
    (f := fun b results => do
      let tmp ← indexing[b]?
      loop 8 (fun k results => addHash addr db off w tmp k (8 * b + k) results) results)
    (fun b results => Slots results (stripe (selectedPart w db indexing off) (8 * b)))
    slots_replicate ?step
  case step =>
    intro b hb results hres
    have hread : indexing[b]? = some (indexing.getD b 0) := getElem?_eq_some_getD 0 (by omega)
    rw [hread, Option.bind_eq_bind, Option.bind_some]
    refine loop_spec (fun k results =>
      Slots results (stripe (selectedPart w db indexing off) (8 * b + k))) hres ?_
    intro k hk results hres
    have hmod : (8 * b + k) % 8 = k := by omega
    have hdiv : (8 * b + k) / 8 = b := by omega
    have hrow := addHash_spec h (m := 8 * b + k) (by omega) hres
    rwa [hmod, hdiv] at hrow
  obtain ⟨full, hloop, hslots⟩ := hunrolled
  simp only [addHashes, hfull, hblocks]
  rw [hloop, Option.bind_eq_bind, Option.bind_some]
  have hremainder := loop_spec (n := dbLen / 32 - dbLen / 32 / 8 * 8) (s := full)
    (f := fun t results => do
      let tmp ← indexing[(dbLen / 32 / 8 * 8 + t) / 8]?
      addHash addr db off w tmp ((dbLen / 32 / 8 * 8 + t) % 8) (dbLen / 32 / 8 * 8 + t) results)
    (fun t results => Slots results
      (stripe (selectedPart w db indexing off) (dbLen / 32 / 8 * 8 + t))) ?base ?rest
  case base => rwa [Nat.mul_comm] at hslots
  case rest =>
    intro t ht results hres
    have hread : indexing[(dbLen / 32 / 8 * 8 + t) / 8]? =
        some (indexing.getD ((dbLen / 32 / 8 * 8 + t) / 8) 0) :=
      getElem?_eq_some_getD 0 (by omega)
    rw [hread, Option.bind_eq_bind, Option.bind_some]
    exact addHash_spec h (by omega) hres
  obtain ⟨results, hrest, hslots'⟩ := hremainder
  refine ⟨results, hrest, ?_⟩
  rwa [Nat.add_sub_cancel' (Nat.div_mul_le_self _ _)] at hslots'

theorem combine_spec {x : ℕ → Bytes w} (h : Slots results x) :
    combine results = some (∑ k ∈ Finset.range 8, x k).toList := by
  obtain ⟨garbage, hfirst⟩ := h.slot 0 (by decide)
  rw [combine, hfirst, Option.bind_eq_bind, Option.bind_some]
  refine loop_eq (fun k => (∑ i ∈ Finset.range (k + 1), x i).toList) (by simp) ?_
  intro k hk
  obtain ⟨garbage, hnext⟩ := h.slot (k + 1) (by omega)
  rw [hnext, Option.bind_some, ← toList_add, ← Finset.sum_range_succ]

/-! ## The kernel -/

/-- Bytes of sums whose terms agree. -/
theorem byte_sum_congr {n k l : ℕ} {f : ℕ → Bytes w} {g : ℕ → Bytes n} (hk : k < w) (hl : l < n)
    (h : ∀ j, (f j).byte k = (g j).byte l) (m : ℕ) :
    (∑ j ∈ Finset.range m, f j).byte k = (∑ j ∈ Finset.range m, g j).byte l := by
  induction m with
  | zero => exact (Bytes.byte_zero hk).trans (Bytes.byte_zero hl).symm
  | succ m ih =>
      rw [Bytes.byte_sum_range_succ _ _ hk, Bytes.byte_sum_range_succ _ _ hl, ih, h]

/-- The part of a selected row. -/
theorem byte_selectedPart (hpart : off + w ≤ 32) {k : ℕ} (hk : k < w) (j : ℕ) :
    (selectedPart w db indexing off j).byte k =
      (selectedHash 32 db indexing j).byte (off + k) := by
  have hk32 : off + k < 32 := by omega
  rw [selectedPart, selectedHash]
  split_ifs
  · rw [byte_rowFrom _ _ hk, byte_rowAt _ _ hk32, Nat.mul_comm, Nat.add_assoc]
  · rw [Bytes.byte_zero hk, Bytes.byte_zero hk32]

theorem hashesPart_spec (h : Readable addr db dbLen indexing off w) (hlen : dbLen < 2 ^ 32) :
    ∃ result, hashesPart addr db dbLen indexing w off = some (off, result) ∧ result.length = w ∧
      ∀ k < w, result.getD k 0 =
        (∑ j ∈ Finset.range (dbLen / 32), selectedHash 32 db indexing j).byte (off + k) := by
  have hpart := h.part_le
  obtain ⟨results, hloops, hslots⟩ := addHashes_spec h hlen
  refine ⟨(∑ j ∈ Finset.range (dbLen / 32), selectedPart w db indexing off j).toList, ?_, by simp, ?_⟩
  · rw [hashesPart, hloops, Option.bind_eq_bind, Option.bind_some, combine_spec hslots, sum_stripe]
    rfl
  · intro k hk
    exact byte_sum_congr hk (by omega) (byte_selectedPart hpart hk) _

theorem mem_hashParts_le {B : Build} (hoff : off ∈ B.hashParts) :
    off + B.lane ≤ 32 ∧ off % B.lane = 0 := by
  revert off
  cases B <;> decide

theorem zero_mem_hashParts (B : Build) : 0 ∈ B.hashParts := by cases B <;> decide

theorem hashParts_cover (B : Build) {k : ℕ} (hk : k < 32) :
    ∃ off ∈ B.hashParts, off ≤ k ∧ k < off + B.lane := by
  revert k
  cases B <;> decide

/-- The vectors of a row are aligned if the database is. -/
theorem mod_lane (B : Build) (hoff : off % B.lane = 0) (j : ℕ) :
    (addr + (32 * j + off)) % B.lane = addr % B.lane := by
  cases B <;> simp only [Build.lane] at hoff ⊢ <;> omega

/-- **`xor_hashes_by_bit_vector` returns the XOR of the selected rows** of those that `dbLen`
covers, in both builds, for an aligned database. -/
theorem xorHashesByBitVector_spec (B : Build) (out : Bytes 32)
    (haligned : 32 ≤ dbLen → addr % B.lane = 0) (hdb : dbLen / 32 * 32 ≤ db.length)
    (hidx : dbLen / 32 ≤ 8 * indexing.length) (hlen : dbLen < 2 ^ 32) :
    xorHashesByBitVector B addr db dbLen indexing out.toList =
      some (∑ j ∈ Finset.range (dbLen / 32), selectedHash 32 db indexing j).toList := by
  set x := ∑ j ∈ Finset.range (dbLen / 32), selectedHash 32 db indexing j with hx
  have hread : ∀ off ∈ B.hashParts, Readable addr db dbLen indexing off B.lane := by
    intro off hoff
    obtain ⟨hle, hmod⟩ := mem_hashParts_le hoff
    refine ⟨?_, hle, hdb, hidx⟩
    intro j hj
    rw [mod_lane B hmod, haligned (by omega)]
  obtain ⟨parts, hmap, hto, hfrom⟩ := mapM_exists
    (fun (off : ℕ) (a : ℕ × List UInt8) => a.1 = off ∧ a.2.length = B.lane ∧
      ∀ k < B.lane, a.2.getD k 0 = x.byte (off + k)) B.hashParts (by
    intro off hoff
    obtain ⟨result, hpart, hw, hcells⟩ := hashesPart_spec (hread off hoff) hlen
    exact ⟨(off, result), hpart, rfl, hw, hcells⟩)
  obtain ⟨out', hst, hlen', hg⟩ := storeAll_spec x parts (Bytes.length_toList out) (by
    intro a ha
    obtain ⟨off, hoff, hfst, hw, hcells⟩ := hfrom a ha
    rw [hfst, hw]
    exact ⟨(mem_hashParts_le hoff).1, hcells⟩)
  rw [xorHashesByBitVector, hmap, Option.bind_eq_bind, Option.bind_some, hst]
  refine congrArg some (ext_getD 0 (by simp [hlen']) ?_)
  intro k hk
  obtain ⟨off, hoff, hle, hlt⟩ := hashParts_cover B (hlen' ▸ hk)
  obtain ⟨a, ha, hfst, hw, -⟩ := hto off hoff
  exact hg k (Or.inr ⟨a, ha, by omega, by omega⟩)

/-- A database that is not aligned. -/
theorem xorHashesByBitVector_of_misaligned (B : Build) (hmis : addr % B.lane ≠ 0)
    (hrow : 32 ≤ dbLen) (hlen : dbLen < 2 ^ 32) (out : List UInt8) :
    xorHashesByBitVector B addr db dbLen indexing out = none := by
  have hadd : ∀ tmp k j results, addHash addr db 0 B.lane tmp k j results = none := by
    intro tmp k j results
    rw [addHash, loadVec, if_pos (by rwa [mod_lane B (Nat.zero_mod _)])]
    rfl
  have hfull : dbLen / 32 &&& 0xFFFFFFF8 = dbLen / 32 / 8 * 8 := and_not_seven (by omega)
  have hloops : addHashes addr db dbLen indexing 0 B.lane = none := by
    rw [addHashes, hfull]
    by_cases hblock : 0 < dbLen / 32 / 8 * 8 / 8
    · rw [loop_eq_none hblock]
      · rfl
      · intro results
        cases indexing[0]? with
        | none => rfl
        | some tmp => exact loop_eq_none (Nat.zero_lt_succ 7) fun results => hadd tmp 0 _ results
    · have hrest : 0 < dbLen / 32 - dbLen / 32 / 8 * 8 := by omega
      cases loop (dbLen / 32 / 8 * 8 / 8) _ _ with
      | none => rfl
      | some results =>
          refine loop_eq_none hrest ?_
          intro results
          dsimp only
          cases indexing[(dbLen / 32 / 8 * 8 + 0) / 8]? with
          | none => rfl
          | some tmp => exact hadd tmp _ _ results
  have hpart : hashesPart addr db dbLen indexing B.lane 0 = none := by
    rw [hashesPart, hloops]
    rfl
  rw [xorHashesByBitVector, mapM_eq_none (zero_mem_hashParts B) hpart]
  rfl

/-! ## The Go wrapper -/

/-- `XorHashesByBitVector` -/
def xorHashesByBitVectorGo (B : Build) (addr : ℕ) (db indexing out : List UInt8) :
    Option (List UInt8) :=
  if db = [] ∨ indexing = [] ∨ out = [] then none
  else xorHashesByBitVector B addr db (cUint db.length) indexing out

end SinglePassPIR.Psetggm
