import SinglePassPIR.Psetggm.Ggm
import SinglePassPIR.Lib.Probing

/-!
# The duplicate test

`distinct` of `pset_ggm.cpp` puts the elements into an open-addressing hash table of 32-bit
slots in the `tmp` array of the generator. A slot that holds `0` is free, and a probe goes
to the next slot, round the table, until it finds a free one or the element. An element that is
`0` is put into a slot that stays free.

## Main results

* `distinct_eq` — up to `2 ^ 28` elements, the test says whether the elements other than `0` are
  distinct.
* `nodup_iff_filter` — the lists for which this is whether all are distinct.
-/

namespace SinglePassPIR.Psetggm
open Probing

/-- `fasthash`, with the conversions of its arguments. -/
def fasthash (elem range : ℕ) : ℕ := elem % 2 ^ 32 &&& (range + (2 ^ 32 - 1)) % 2 ^ 32

/-- `round_to_power_of_2` -/
def roundToPowerOf2 (v : ℕ) : ℕ :=
  let v := (v + (2 ^ 32 - 1)) % 2 ^ 32
  let v := v ||| v >>> 1
  let v := v ||| v >>> 2
  let v := v ||| v >>> 4
  let v := v ||| v >>> 8
  let v := v ||| v >>> 16
  (v + 1) % 2 ^ 32

/-- The words of an array of blocks. -/
def words (blocks : List Block) : List ℕ :=
  blocks.flatMap fun b => [b.w0.toNat, b.w1.toNat, b.w2.toNat, b.w3.toNat]

/-- The inner loop of `distinct`, from slot `ptr`: the table with the element in it, or
`none` inside when the element was there. The first argument bounds the number of slots it
visits; when it has visited every slot, it goes round for ever. -/
def probe (tableSize e : ℕ) : ℕ → List ℕ → ℕ → Option (Option (List ℕ))
  | 0, _, _ => none
  | fuel + 1, table, ptr => do
      let val ← table[ptr]?
      if val = 0 then some (some (← writeAt table ptr (e % 2 ^ 32)))
      else if val = e then some none
      else probe tableSize e fuel table (if tableSize ≤ ptr + 1 then 0 else ptr + 1)

/-- The loop of `distinct` over the elements from position `i` on. The size of a table may have come
out as zero; then a probe goes from its first slot to slot `0` and stays there. -/
def distinctLoop (elems : List ℕ) (tableSize : ℕ) : ℕ → ℕ → List ℕ → Option Bool
  | 0, _, _ => some true
  | remaining + 1, i, table => do
      let e ← elems[i]?
      match ← probe tableSize e (tableSize + 2) table (fasthash e tableSize) with
      | none => some false
      | some table => distinctLoop elems tableSize remaining (i + 1) table

/-- `distinct` -/
def distinct (gen : Generator) (elems : List ℕ) (numElems : ℕ) : Option Bool := do
  let tableSize := roundToPowerOf2 (numElems * 4 % 2 ^ 32)
  let table ← intLoop tableSize (fun i table => writeAt table i 0) (words gen.ws.tmp)
  if numElems < 2 ^ 31 then distinctLoop elems tableSize numElems 0 table else none

/-! ## The size of the table -/

/-- One step of smearing the highest bit of `v` to the right. -/
theorem smear_step {v w m : ℕ}
    (h : ∀ i, w.testBit i = true ↔ ∃ j < m, v.testBit (i + j) = true) (i : ℕ) :
    (w ||| w >>> m).testBit i = true ↔ ∃ j < 2 * m, v.testBit (i + j) = true := by
  rw [Nat.testBit_or, Nat.testBit_shiftRight, Bool.or_eq_true, h, h]
  constructor
  · rintro (⟨j, hj, hv⟩ | ⟨j, hj, hv⟩)
    · exact ⟨j, by omega, hv⟩
    · exact ⟨m + j, by omega, by rwa [← Nat.add_assoc, Nat.add_comm i m]⟩
  · rintro ⟨j, hj, hv⟩
    by_cases hjm : j < m
    · exact Or.inl ⟨j, hjm, hv⟩
    · refine Or.inr ⟨j - m, by omega, ?_⟩
      rwa [show m + i + (j - m) = i + j by omega]

/-- All bits from the highest bit of `v` on. -/
theorem smear_eq {v w : ℕ} (h0 : v ≠ 0) (h32 : v < 2 ^ 32)
    (h : ∀ i, w.testBit i = true ↔ ∃ j < 32, v.testBit (i + j) = true) :
    w = 2 ^ (v.log2 + 1) - 1 := by
  have hlog : v.log2 < 32 := (Nat.log2_lt h0).mpr h32
  apply Nat.eq_of_testBit_eq
  intro i
  rw [Bool.eq_iff_iff, h, Nat.testBit_two_pow_sub_one, decide_eq_true_iff]
  constructor
  · rintro ⟨j, -, hv⟩
    by_contra hi
    have hlt : v < 2 ^ (i + j) :=
      Nat.lt_log2_self.trans_le (Nat.pow_le_pow_right (by decide) (by omega))
    rw [Nat.testBit_lt_two_pow hlt] at hv
    exact Bool.false_ne_true hv
  · intro hi
    refine ⟨v.log2 - i, by omega, ?_⟩
    rw [Nat.add_sub_cancel' (by omega)]
    exact Nat.testBit_log2 h0

/-- The smeared number and one, as a 32-bit number. -/
theorem roundToPowerOf2_eq_mod {v : ℕ} (h1 : 1 < v) (h32 : v < 2 ^ 32) :
    roundToPowerOf2 v = 2 ^ (Nat.log2 (v - 1) + 1) % 2 ^ 32 := by
  have hpred : (v + (2 ^ 32 - 1)) % 2 ^ 32 = v - 1 := by omega
  have hsmear := smear_eq (v := v - 1) (by omega) (by omega)
    (smear_step (m := 16) (smear_step (m := 8) (smear_step (m := 4) (smear_step (m := 2)
      (smear_step (m := 1) (w := v - 1) (by simp))))))
  have hone := Nat.two_pow_pos (Nat.log2 (v - 1) + 1)
  simp only [roundToPowerOf2, hpred]
  rw [hsmear, Nat.sub_add_cancel hone]

/-- **`round_to_power_of_2` rounds up.** -/
theorem roundToPowerOf2_eq {v : ℕ} (h1 : 1 < v) (h31 : v ≤ 2 ^ 31) :
    roundToPowerOf2 v = 2 ^ (Nat.log2 (v - 1) + 1) := by
  have hlog : Nat.log2 (v - 1) < 31 := (Nat.log2_lt (by omega)).mpr (by omega)
  have hpow : 2 ^ (Nat.log2 (v - 1) + 1) < 2 ^ 32 := Nat.pow_lt_pow_right (by decide) (by omega)
  rw [roundToPowerOf2_eq_mod h1 (by omega), Nat.mod_eq_of_lt hpow]

/-- The table has at least four slots for each element. -/
theorem le_roundToPowerOf2 {v : ℕ} (h1 : 1 < v) (h31 : v ≤ 2 ^ 31) : v ≤ roundToPowerOf2 v := by
  have := @Nat.lt_log2_self (v - 1)
  rw [roundToPowerOf2_eq h1 h31]
  omega

theorem roundToPowerOf2_le {v k : ℕ} (h1 : 1 < v) (h31 : v ≤ 2 ^ 31) (hk : v ≤ 2 ^ k) :
    roundToPowerOf2 v ≤ 2 ^ k := by
  have hlog : Nat.log2 (v - 1) < k := (Nat.log2_lt (by omega)).mpr (by omega)
  rw [roundToPowerOf2_eq h1 h31]
  exact Nat.pow_le_pow_right (by decide) hlog

/-! ## Probing -/

theorem fasthash_lt (e : ℕ) {tableSize : ℕ} (h : 0 < tableSize) (h32 : tableSize ≤ 2 ^ 32) :
    fasthash e tableSize < tableSize := by
  have hmask : (tableSize + (2 ^ 32 - 1)) % 2 ^ 32 = tableSize - 1 := by omega
  have hle : fasthash e tableSize ≤ tableSize - 1 := by
    rw [fasthash, hmask]
    exact Nat.and_le_right
  omega

/-- A probe goes on to where it stops. -/
theorem probe_eq {tableSize e k : ℕ} {table : List ℕ} (hpos : 0 < tableSize)
    (hsize : tableSize ≤ table.length)
    (hstop : StopsAt 0 tableSize (fasthash · tableSize) (table.getD · 0) e k) (fuel : ℕ) {j : ℕ}
    (hj : j ≤ k) (hfuel : k - j < fuel) :
    probe tableSize e fuel table (slotAt tableSize (fasthash e tableSize) j) =
      if table.getD (slotAt tableSize (fasthash e tableSize) k) 0 = 0
      then some (some (table.set (slotAt tableSize (fasthash e tableSize) k) (e % 2 ^ 32)))
      else some none := by
  induction fuel generalizing j with
  | zero => exact absurd hfuel (Nat.not_lt_zero _)
  | succ fuel ih =>
      have hlt := (slotAt_lt hpos (fasthash e tableSize) j).trans_le hsize
      rw [probe, getElem?_eq_some_getD 0 hlt, Option.bind_eq_bind, Option.bind_some]
      by_cases hjk : j = k
      · subst hjk
        by_cases hfree : table.getD (slotAt tableSize (fasthash e tableSize) j) 0 = 0
        · rw [if_pos hfree, if_pos hfree, writeAt_eq hlt]
          rfl
        · rw [if_neg hfree, if_neg hfree, if_pos (hstop.stop.resolve_left hfree)]
      · obtain ⟨hfree, he⟩ := hstop.before j (by omega)
        rw [if_neg hfree, if_neg he, ← slotAt_succ hpos]
        exact ih (by omega) (by omega)

/-! ## The loop over the elements -/

/-- The table holds the elements of `done` other than `0`. -/
structure Holds (tableSize : ℕ) (table done : List ℕ) : Prop where
  length : tableSize ≤ table.length
  probed : Probed 0 tableSize (fasthash · tableSize) (table.getD · 0)
  stores : Stores 0 tableSize (table.getD · 0) (· ∈ done)
  card : (occupied 0 tableSize (table.getD · 0)).card ≤ done.length

variable {tableSize e k : ℕ} {table done : List ℕ}

theorem getD_set_eq_update {p : ℕ} (hp : p < table.length) (v : ℕ) :
    ((table.set p v).getD · 0) = Function.update (table.getD · 0) p v := by
  funext z
  rw [getD_set _ _ _ _ _ hp, Function.update_apply]

/-- An element `0` leaves the table as it is. -/
theorem Holds.zero (h : Holds tableSize table done) : Holds tableSize table (done ++ [0]) where
  length := h.length
  probed := h.probed
  stores e he := by
    refine (h.stores e he).trans ?_
    dsimp only
    rw [List.mem_append, List.mem_singleton, or_iff_left he]
  card := by
    have := h.card
    rw [List.length_append, List.length_singleton]
    omega

/-- Another element goes into the slot where its probe stops. -/
theorem Holds.insert (h : Holds tableSize table done) (hpos : 0 < tableSize) (he : e ≠ 0)
    (hstop : StopsAt 0 tableSize (fasthash · tableSize) (table.getD · 0) e k)
    (hfree : table.getD (slotAt tableSize (fasthash e tableSize) k) 0 = 0) :
    Holds tableSize (table.set (slotAt tableSize (fasthash e tableSize) k) e) (done ++ [e]) := by
  have hset := getD_set_eq_update
    ((slotAt_lt hpos (fasthash e tableSize) k).trans_le h.length) e
  constructor
  · rw [List.length_set]
    exact h.length
  · rw [hset]
    exact h.probed.insert hstop he
  · rw [hset]
    intro x hx
    refine (h.stores.insert (slotAt_lt hpos _ k) hfree e x hx).trans ?_
    dsimp only
    rw [List.mem_append, List.mem_singleton, or_comm]
  · rw [hset, List.length_append, List.length_singleton]
    exact (card_occupied_update_le _ _ _).trans (Nat.add_le_add_right h.card 1)

/-- **The loop finds out whether the elements other than `0` are distinct.** -/
theorem distinctLoop_eq {rest : List ℕ} (hpos : 0 < tableSize) (h32 : tableSize ≤ 2 ^ 32)
    (h : Holds tableSize table done) (hroom : (done ++ rest).length ≤ tableSize)
    (hlt : ∀ e ∈ rest, e < 2 ^ 32) (hnodup : (done.filter (· ≠ 0)).Nodup) :
    distinctLoop (done ++ rest) tableSize rest.length done.length table =
      some (decide ((done ++ rest).filter (· ≠ 0)).Nodup) := by
  induction rest generalizing done table with
  | nil =>
      rw [List.append_nil, decide_eq_true hnodup]
      rfl
  | cons e rest ih =>
      have hread : (done ++ e :: rest)[done.length]? = some e := by simp
      have hroom' : done.length < tableSize := by
        rw [List.length_append, List.length_cons] at hroom
        omega
      obtain ⟨z, hz, hzero⟩ := exists_free (h.card.trans_lt hroom')
      obtain ⟨k, hk, hstop⟩ :=
        @exists_stopsAt ℕ 0 tableSize (fasthash · tableSize) (table.getD · 0) _ z hz hzero e
      have hstart : slotAt tableSize (fasthash e tableSize) 0 = fasthash e tableSize :=
        Nat.mod_eq_of_lt (fasthash_lt e hpos h32)
      have hprobe := probe_eq hpos h.length hstop (tableSize + 2) (Nat.zero_le k) (by omega)
      rw [hstart] at hprobe
      rw [List.length_cons, distinctLoop, hread, Option.bind_eq_bind, Option.bind_some, hprobe]
      have hsplit : done ++ e :: rest = (done ++ [e]) ++ rest := by simp
      have hlen : done.length + 1 = (done ++ [e]).length := by simp
      have hlt' : ∀ x ∈ rest, x < 2 ^ 32 := fun x hx => hlt x (List.mem_cons_of_mem e hx)
      have hmod : e % 2 ^ 32 = e := Nat.mod_eq_of_lt (hlt e List.mem_cons_self)
      split_ifs with hfree
      · rw [hmod, Option.bind_eq_bind, Option.bind_some, hsplit, hlen]
        by_cases he : e = 0
        · subst he
          have hsame : table.set (slotAt tableSize (fasthash 0 tableSize) k) 0 = table := by
            have hlt'' := (slotAt_lt hpos (fasthash 0 tableSize) k).trans_le h.length
            refine ext_getD 0 List.length_set fun y hy => ?_
            rw [getD_set _ _ _ _ _ hlt'']
            split_ifs with hyp
            · rw [hyp, hfree]
            · rfl
          rw [hsame]
          refine ih h.zero (hsplit ▸ hroom) hlt' ?_
          simpa using hnodup
        · have hnew : e ∉ done := by
            intro hmem
            obtain ⟨y, hy, hye⟩ := (h.stores e he).mpr hmem
            exact h.probed.notStored hstop he hfree y hy hye
          refine ih (h.insert hpos he hstop hfree) (hsplit ▸ hroom) hlt' ?_
          rw [List.filter_append, List.nodup_append]
          refine ⟨hnodup, by simp [he], ?_⟩
          intro x hx y hy
          have hye : y = e := by simpa [he] using hy
          rintro rfl
          exact hnew (hye ▸ (List.mem_filter.mp hx).1)
      · -- the element is in the table
        have hfound := hstop.stop.resolve_left hfree
        have he : e ≠ 0 := by
          intro he
          rw [he] at hfound
          exact hfree (he ▸ hfound)
        have hmem : e ∈ done := (h.stores e he).mp ⟨_, slotAt_lt hpos _ k, hfound⟩
        rw [Option.bind_eq_bind, Option.bind_some]
        refine congrArg some (decide_eq_false ?_).symm
        intro hall
        rw [List.filter_append, List.nodup_append] at hall
        exact hall.2.2 e (by simp [hmem, he]) e (by simp [he]) rfl

theorem length_words (blocks : List Block) : (words blocks).length = 4 * blocks.length := by
  simp [words, List.length_flatMap]
  omega

/-- The cleared table that the loop over the elements starts with. It fits in `tmp`. -/
theorem distinct_cleared {gen : Generator} (elems : List ℕ) {numElems : ℕ} (hne : 0 < numElems)
    (hmax : numElems ≤ 2 ^ 28) (hroom : numElems ≤ gen.setSize) (hset : gen.setSize ≤ 2 ^ 32) :
    ∃ table, distinct gen elems numElems =
        distinctLoop elems (roundToPowerOf2 (numElems * 4)) numElems 0 table ∧
      roundToPowerOf2 (numElems * 4) ≤ table.length ∧
      ∀ z < roundToPowerOf2 (numElems * 4), table.getD z 0 = 0 := by
  have hmod : numElems * 4 % 2 ^ 32 = numElems * 4 := Nat.mod_eq_of_lt (by omega)
  have h30 := roundToPowerOf2_le (v := numElems * 4) (k := 30) (by omega) (by omega) (by omega)
  have hheight := le_two_pow_getHeight (hne.trans_le hroom) hset
  have hfit := roundToPowerOf2_le (v := numElems * 4) (k := getHeight gen.setSize + 2)
    (by omega) (by omega) (by rw [Nat.pow_add]; omega)
  have hwords : (words gen.ws.tmp).length = 4 * 2 ^ getHeight gen.setSize := by
    rw [length_words, gen.tmp_length]
  rw [Nat.pow_add] at hfit
  obtain ⟨table, hclear, hlen, hcells⟩ := loop_fill (n := roundToPowerOf2 (numElems * 4))
    (l := words gen.ws.tmp) 0 (fun _ => 0) (f := fun i table => writeAt table i 0) (by omega)
    (fun i hi t ht _ => writeAt_eq (by omega) _)
  refine ⟨table, ?_, by omega, ?_⟩
  · rw [distinct, hmod, intLoop_eq (by omega), hclear, Option.bind_eq_bind, Option.bind_some,
      if_pos (by omega)]
  · intro z hz
    rw [hcells, if_pos hz]

/-- A cleared table has no occupied slot. -/
theorem card_occupied_cleared (hempty : ∀ z < tableSize, table.getD z 0 = 0) :
    (occupied 0 tableSize (table.getD · 0)).card = 0 := by
  rw [occupied, Finset.filter_false_of_mem]
  · rfl
  · intro z hz
    exact not_not.mpr (hempty z (Finset.mem_range.mp hz))

/-- **What `distinct` returns**, for up to `2 ^ 28` elements of 32 bits, no more than the generator
is made for. -/
theorem distinct_eq {gen : Generator} {elems : List ℕ} (hne : 0 < elems.length)
    (hmax : elems.length ≤ 2 ^ 28) (hroom : elems.length ≤ gen.setSize)
    (hset : gen.setSize ≤ 2 ^ 32) (hlt : ∀ e ∈ elems, e < 2 ^ 32) :
    distinct gen elems elems.length = some (decide (elems.filter (· ≠ 0)).Nodup) := by
  have hle := le_roundToPowerOf2 (v := elems.length * 4) (by omega) (by omega)
  have h30 := roundToPowerOf2_le (v := elems.length * 4) (k := 30) (by omega) (by omega) (by omega)
  obtain ⟨table, hstart, hlen, hempty⟩ := distinct_cleared elems hne hmax hroom hset
  have hholds : Holds (roundToPowerOf2 (elems.length * 4)) table [] := by
    constructor
    · exact hlen
    · intro z hz hzne
      exact absurd (hempty z hz) hzne
    · intro e he
      simp only [List.not_mem_nil, iff_false]
      rintro ⟨z, hz, hze⟩
      exact he (hze.symm.trans (hempty z hz))
    · exact (card_occupied_cleared hempty).le
  rw [hstart]
  exact distinctLoop_eq (by omega) (by omega) hholds (by simp only [List.nil_append]; omega) hlt
    List.nodup_nil

/-- Distinct elements are ones of which `0` occurs once at most and the others are distinct. -/
theorem nodup_iff_filter (l : List ℕ) :
    l.Nodup ↔ l.count 0 ≤ 1 ∧ (l.filter (· ≠ 0)).Nodup := by
  rw [List.nodup_iff_count_le_one, List.nodup_iff_count_le_one]
  constructor
  · intro h
    refine ⟨h 0, fun e => ?_⟩
    exact (List.filter_sublist.count_le e).trans (h e)
  · intro ⟨h0, h⟩ e
    by_cases he : e = 0
    · rwa [he]
    · have hcount := h e
      rwa [List.count_filter (by simpa using he)] at hcount

end SinglePassPIR.Psetggm
