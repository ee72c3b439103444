import SinglePassPIR.Psetggm.Answer
import SinglePassPIR.Psetggm.SetGenerator
import SinglePassPIR.Psetggm.XorRows
import Mathlib.Data.List.InsertIdx

/-!
# Answering a punctured set

`answer` of `answer.cpp` and the Go wrappers of the kernels that it uses (`pset_ggm_c.go`). The
server evaluates the punctured set, shifts its elements round the universe and XORs the
rows they name.

## Main results

* `fastAnswer_spec` — the answer to a punctured set is the XOR of the rows of its elements.
-/

namespace SinglePassPIR.Psetggm

/-- The loop of `answer` that turns elements into byte offsets, in 64-bit arithmetic. An
unsigned remainder by zero traps. -/
def rowOffsets (univSize setSize shift rowLen : ℕ) (elems : List ℕ) : Option (List ℕ) :=
  intLoop setSize (fun i elems => do
    let e ← elems[i]?
    if univSize = 0 then none
    else writeAt elems i ((e + shift) % 2 ^ 64 % univSize * rowLen % 2 ^ 64)) elems

/-- The part of `answer` that fills `elems`, in memory behind a workspace of the announced size -/
def answerOffsets (pl : Platform) (pset : List Block) (pos univSize setSize shift rowLen : ℕ) :
    Option (List ℕ) :=
  if HasWorkspace univSize ((setSize + 1) % 2 ^ 32) then do
    let gen := psetGgmInit univSize ((setSize + 1) % 2 ^ 32) pl.mem
    let elems ← psetGgmEvalPunc pl.aes gen pset pos (List.replicate setSize 0)
    rowOffsets univSize setSize shift rowLen elems
  else none

/-- `answer` -/
def answer (pl : Platform) (pset : List Block) (pos univSize setSize shift : ℕ) (db : List UInt8)
    (dbLen rowLen blockLen : ℕ) (out : List UInt8) : Option (List UInt8) := do
  let elems ← answerOffsets pl pset pos univSize setSize shift rowLen
  xorRows pl.build db dbLen elems setSize blockLen out

/-- `FastAnswer` -/
def fastAnswer (pl : Platform) (pset : List Block) (hole univSize setSize shift : ℕ)
    (db : List UInt8) (rowLen : ℕ) (out : List UInt8) : Option (List UInt8) :=
  if pset = [] ∨ db = [] ∨ out = [] then none
  else answer pl pset (cUint hole) (cUint univSize) (cUint setSize) (cUint shift) db
    (cUint db.length) (cUint rowLen) (cUint out.length) out

/-- `XorBlocks` -/
def xorBlocks (pl : Platform) (db : List UInt8) (offsets : List ℕ) (out : List UInt8) :
    Option (List UInt8) :=
  if db = [] ∨ offsets = [] ∨ out = [] then none
  else xorRows pl.build db (cUint db.length) offsets (cUint offsets.length) (cUint out.length) out

/-! ## Rows by number -/

variable {n N : ℕ} {db : List UInt8}

/-- The XOR of the rows with the given numbers, with multiplicity. -/
def xorOfRows (n : ℕ) (db : List UInt8) (rows : List ℕ) : Bytes n := (rows.map (rowAt n db)).sum

/-- `xor_rows` at the offsets of rows of a table. -/
theorem xorRows_rows (B : Build) (out : Bytes n) (rows : List ℕ) (hdb : db.length = N * n)
    (h32 : N * n < 2 ^ 32) (hN : 0 < N) (hrows : ∀ r ∈ rows, r < N) (hlen : rows.length < 2 ^ 31) :
    xorRows B db db.length (rows.map (· * n)) rows.length n out.toList =
      some (xorOfRows n db rows).toList := by
  have hinside : RowsInside n db (rows.map (· * n)) rows.length fun i => rows.getD i 0 * n := by
    constructor
    · intro i hi
      rw [List.getElem?_map, getElem?_eq_some_getD 0 hi]
      rfl
    · intro i hi
      have hr : rows.getD i 0 < N := hrows _ (by
        rw [List.getD_eq_getElem?_getD, List.getElem?_eq_getElem hi]
        exact List.getElem_mem hi)
      rw [hdb]
      exact block_end_le hr
    · rw [hdb]
      exact h32
    · rw [hdb]
      exact Nat.le_mul_of_pos_left n hN
    · exact hlen
  rw [xorRows_spec B out hinside]
  exact congrArg (fun x : Bytes n => some x.toList) (sum_range_getD (rowAt n db) rows)

/-- **`XorBlocks` at the offsets of rows.** -/
theorem xorBlocks_spec (pl : Platform) (out : Bytes n) {rows : List ℕ} (hn : 0 < n)
    (hdb : db.length = N * n) (h32 : N * n < 2 ^ 32) (hne : rows ≠ [])
    (hrows : ∀ r ∈ rows, r < N) (hlen : rows.length < 2 ^ 31) :
    xorBlocks pl db (rows.map (· * n)) out.toList = some (xorOfRows n db rows).toList := by
  have hN : 0 < N := by
    obtain ⟨r, hr⟩ := List.exists_mem_of_ne_nil rows hne
    exact Nat.zero_lt_of_lt (hrows r hr)
  have hdbne : db ≠ [] := List.ne_nil_of_length_pos (hdb ▸ Nat.mul_pos hN hn)
  have hn32 : n < 2 ^ 32 := (Nat.le_mul_of_pos_left n hN).trans_lt h32
  rw [xorBlocks, if_neg (by simp [hdbne, hne, Bytes.toList_ne_nil hn]), cUint_eq (hdb ▸ h32),
    List.length_map, cUint_eq (by omega), Bytes.length_toList, cUint_eq hn32]
  exact xorRows_rows pl.build out rows hdb h32 hN hrows hlen

/-! ## The answer -/

theorem rowOffsets_spec {univSize setSize shift rowLen : ℕ} {elems : List ℕ}
    (hset : setSize < 2 ^ 31) (hlen : elems.length = setSize) (hpos : 0 < univSize)
    (huniv : univSize ≤ 2 ^ 31) (hshift : shift < 2 ^ 32) (hrow : rowLen < 2 ^ 32)
    (helems : ∀ e ∈ elems, e < univSize) :
    rowOffsets univSize setSize shift rowLen elems =
      some ((elems.map fun e => (e + shift) % univSize).map (· * rowLen)) := by
  obtain ⟨out, hloop, hout, hcells⟩ := loop_fill (n := setSize) (l := elems) 0
    (fun i => (elems.getD i 0 + shift) % univSize * rowLen)
    (f := fun i elems => do
      let e ← elems[i]?
      if univSize = 0 then none
      else writeAt elems i ((e + shift) % 2 ^ 64 % univSize * rowLen % 2 ^ 64)) hlen.ge (by
      intro i hi t ht hcell
      have hmem : elems.getD i 0 ∈ elems := by
        rw [List.getD_eq_getElem?_getD, List.getElem?_eq_getElem (by omega)]
        exact List.getElem_mem _
      have hlt := helems _ hmem
      have hsum : (elems.getD i 0 + shift) % 2 ^ 64 = elems.getD i 0 + shift :=
        Nat.mod_eq_of_lt (by omega)
      have hmod : (elems.getD i 0 + shift) % univSize < 2 ^ 32 := by
        have := Nat.mod_lt (elems.getD i 0 + shift) hpos
        omega
      have hprod : (elems.getD i 0 + shift) % univSize * rowLen < 2 ^ 32 * 2 ^ 32 :=
        Nat.mul_lt_mul'' hmod hrow
      rw [getElem?_eq_some_getD 0 (by omega), hcell, Option.bind_eq_bind, Option.bind_some,
        if_neg hpos.ne', hsum, Nat.mod_eq_of_lt (hprod.trans_eq (by norm_num))]
      exact writeAt_eq (by omega) _)
  rw [rowOffsets, intLoop_eq hset, hloop]
  refine congrArg some (ext_getD 0 (by simp [hout]) ?_)
  intro k hk
  rw [hcells, if_pos (by omega), List.getD_eq_getElem?_getD (l := elems.map _ |>.map _)]
  simp [List.getD_eq_getElem?_getD, List.getElem?_eq_getElem (by omega : k < elems.length)]

/-- The members of the set of a seed, shifted round the universe. -/
def shiftedElems (aes : Block → Block) (univSize setSize : ℕ) (seed : Block) (shift : ℕ) :
    List ℕ :=
  (ggmElems aes univSize setSize seed).map fun e => (e + shift) % univSize

/-- **The offsets of a punctured set**: its elements, shifted, less the one at the hole, scaled by
the row length. -/
theorem answerOffsets_spec (pl : Platform) {keys : List Block} {seed : Block}
    {N hole setSize shift rowLen : ℕ} (hN : 0 < N) (hN31 : N ≤ 2 ^ 31) (hset : setSize + 1 ≤ 2 ^ 26)
    (hkeys : IsPunctured pl.aes seed (getHeight (setSize + 1)) hole keys)
    (hhole : hole < setSize + 1) (hshift : shift < 2 ^ 32) (hrow : rowLen < 2 ^ 32) :
    answerOffsets pl keys hole N setSize shift rowLen =
      some (((shiftedElems pl.aes N (setSize + 1) seed shift).eraseIdx hole).map (· * rowLen)) := by
  have hset32 : (setSize + 1) % 2 ^ 32 = setSize + 1 := Nat.mod_eq_of_lt (by omega)
  have hfits : (psetGgmInit N (setSize + 1) pl.mem).Fits := ⟨Nat.succ_pos _, by
    change setSize + 1 < 2 ^ 31
    omega⟩
  have hroom : HasWorkspace N (setSize + 1) := (hasWorkspace_iff (Nat.succ_pos _) (by omega)).mpr hset
  set elems := (ggmElems pl.aes N (setSize + 1) seed).eraseIdx hole with helems
  have hlen : elems.length = setSize := by
    rw [helems, List.length_eraseIdx_of_lt (by simpa using hhole), length_ggmElems,
      Nat.add_sub_cancel]
  have heval : psetGgmEvalPunc pl.aes (psetGgmInit N (setSize + 1) pl.mem) keys hole
      (List.replicate setSize 0) = some elems :=
    psetGgmEvalPunc_spec hfits hkeys hhole (by simp [psetGgmInit])
  have hlt : ∀ e ∈ elems, e < N := fun e he =>
    ggmElems_lt hN (by omega) (List.mem_of_mem_eraseIdx he)
  rw [answerOffsets, hset32, if_pos hroom]
  dsimp only
  rw [heval, Option.bind_eq_bind, Option.bind_some,
    rowOffsets_spec (by omega) hlen hN hN31 hshift hrow hlt, shiftedElems, List.eraseIdx_map]

/-- **The answer to a punctured set is the XOR of the rows of its elements**, shifted, less
the one at the hole. -/
theorem fastAnswer_spec (pl : Platform) (out : Bytes n) {keys : List Block} {seed : Block}
    {hole setSize shift : ℕ} (hn : 0 < n) (hN : 0 < N) (hN31 : N ≤ 2 ^ 31)
    (hdb : db.length = N * n) (h32 : N * n < 2 ^ 32) (hset : setSize + 1 ≤ 2 ^ 26)
    (hkeys : IsPunctured pl.aes seed (getHeight (setSize + 1)) hole keys)
    (hhole : hole < setSize + 1) (hshift : shift < 2 ^ 32) :
    fastAnswer pl keys hole N setSize shift db n out.toList =
      some (xorOfRows n db ((shiftedElems pl.aes N (setSize + 1) seed shift).eraseIdx hole)).toList := by
  have hdbne : db ≠ [] := List.ne_nil_of_length_pos (hdb ▸ Nat.mul_pos hN hn)
  have hkne : keys ≠ [] := List.ne_nil_of_length_pos (Nat.zero_lt_of_lt hkeys.length)
  have hn32 : n < 2 ^ 32 := (Nat.le_mul_of_pos_left n hN).trans_lt h32
  have hlen : ((shiftedElems pl.aes N (setSize + 1) seed shift).eraseIdx hole).length = setSize := by
    rw [List.length_eraseIdx_of_lt (by simpa [shiftedElems] using hhole)]
    simp [shiftedElems]
  have hxor := xorRows_rows pl.build out ((shiftedElems pl.aes N (setSize + 1) seed shift).eraseIdx hole)
    hdb h32 hN (by
    intro r hr
    obtain ⟨e, -, rfl⟩ := List.mem_map.mp (List.mem_of_mem_eraseIdx hr)
    exact Nat.mod_lt _ hN) (by rw [hlen]; omega)
  rw [hlen] at hxor
  rw [fastAnswer, if_neg (by simp [hdbne, hkne, Bytes.toList_ne_nil hn]), cUint_eq (by omega),
    cUint_eq (by omega), cUint_eq (by omega), cUint_eq hshift, cUint_eq (hdb ▸ h32), cUint_eq hn32,
    Bytes.length_toList, cUint_eq hn32, answer,
    answerOffsets_spec pl hN hN31 hset hkeys hhole hshift hn32, Option.bind_eq_bind,
    Option.bind_some, hxor]

end SinglePassPIR.Psetggm
