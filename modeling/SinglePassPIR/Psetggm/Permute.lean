import SinglePassPIR.Lib.Loop
import SinglePassPIR.Lib.PermArray

/-!
# Sampling permutations

`permute.cpp`. The four bytes that `RAND_bytes` leaves in `buf` are one 32-bit word, and
the words of successive calls are a stream `rnd`; nothing is assumed about them, so every
statement below holds for every outcome of the generator. The `seed` argument of
`permute` is not used by its body.

## Main results

* `permute_spec` — whatever the draws, the array is a permutation of `[0, range)`.
* `invertPermutation_eq` — the second array is its two-sided inverse.
-/

namespace SinglePassPIR.Psetggm

/-- `fastMod`: the upper word of the 64-bit product. -/
def fastMod (x N : ℕ) : ℕ := x * N % 2 ^ 64 / 2 ^ 32 % 2 ^ 32

/-- `getRandIntModN`, with the word the generator returned. -/
def getRandIntModN (word : UInt32) (N : ℕ) : ℕ := fastMod word.toNat N

theorem fastMod_eq {x N : ℕ} (hx : x < 2 ^ 32) (hN : N < 2 ^ 32) :
    fastMod x N = x * N / 2 ^ 32 := by
  have hprod : x * N < 2 ^ 64 := by
    calc x * N < 2 ^ 32 * 2 ^ 32 := Nat.mul_lt_mul'' hx hN
      _ = 2 ^ 64 := by norm_num
  rw [fastMod, Nat.mod_eq_of_lt hprod]
  exact Nat.mod_eq_of_lt (by omega)

theorem fastMod_lt {x N : ℕ} (hx : x < 2 ^ 32) (hN : N < 2 ^ 32) (hpos : 0 < N) :
    fastMod x N < N := by
  rw [fastMod_eq hx hN, Nat.div_lt_iff_lt_mul (by decide), mul_comm N]
  exact Nat.mul_lt_mul_of_pos_right hx hpos

/-- `std::swap(range_arr[i], range_arr[j])` -/
def swapCells (arr : List ℕ) (i j : ℕ) : Option (List ℕ) := do
  let a ← arr[i]?
  let b ← arr[j]?
  let arr ← writeAt arr i b
  writeAt arr j a

/-- The Fisher–Yates loop from `i` down to `1`; `k` draws have been used before. -/
def permuteLoop (rnd : ℕ → UInt32) : ℕ → ℕ → List ℕ → Option (List ℕ)
  | _, 0, arr => some arr
  | k, i + 1, arr => do
      let arr ← swapCells arr (i + 1) (getRandIntModN (rnd k) (i + 2))
      permuteLoop rnd (k + 1) i arr

/-- `permute`. The loop starts at the unsigned difference `range - 1`. -/
def permute (rnd : ℕ → UInt32) (range : ℕ) : Option (List ℕ) :=
  permuteLoop rnd 0 ((range + (2 ^ 32 - 1)) % 2 ^ 32) (List.range range)

/-- `invert_permutation` -/
def invertPermutation (perm : List ℕ) (range : ℕ) (inv : List ℕ) : Option (List ℕ) :=
  loop range (fun i inv => do
    let p ← perm[i]?
    writeAt inv p i) inv

theorem swapCells_permArray {n : ℕ} (σ : Equiv.Perm (Fin n)) (i j : Fin n) :
    swapCells (permArray σ) i j = some (permArray (σ * Equiv.swap i j)) := by
  simp only [swapCells, getElem?_permArray, Option.bind_eq_bind, Option.bind_some]
  rw [writeAt_eq (by simp), Option.bind_some, writeAt_eq (by simp), permArray_exchange]

/-- Each iteration composes with a transposition, so the loop keeps a permutation. -/
theorem permuteLoop_spec {n : ℕ} (rnd : ℕ → UInt32) (hn : n < 2 ^ 32) (i k : ℕ) (hi : i < n)
    (σ : Equiv.Perm (Fin n)) : ∃ τ : Equiv.Perm (Fin n),
      permuteLoop rnd k i (permArray σ) = some (permArray τ) := by
  induction i generalizing k σ with
  | zero => exact ⟨σ, rfl⟩
  | succ i ih =>
      have hj : getRandIntModN (rnd k) (i + 2) < i + 2 :=
        fastMod_lt (rnd k).toNat_lt (by omega) (by omega)
      obtain ⟨τ, hτ⟩ := ih (k + 1) (by omega)
        (σ * Equiv.swap ⟨i + 1, hi⟩ ⟨getRandIntModN (rnd k) (i + 2), by omega⟩)
      refine ⟨τ, ?_⟩
      have hswap := swapCells_permArray σ ⟨i + 1, hi⟩ ⟨getRandIntModN (rnd k) (i + 2), by omega⟩
      simp only [permuteLoop, Option.bind_eq_bind]
      rw [hswap, Option.bind_some, hτ]

/-- **`permute` leaves a permutation of `[0, range)`**, whatever the draws. -/
theorem permute_spec {n : ℕ} (rnd : ℕ → UInt32) (hpos : 0 < n) (hn : n < 2 ^ 32) :
    ∃ σ : Equiv.Perm (Fin n), permute rnd n = some (permArray σ) := by
  have hstart : (n + (2 ^ 32 - 1)) % 2 ^ 32 = n - 1 := by omega
  rw [permute, hstart, ← permArray_one]
  exact permuteLoop_spec rnd hn (n - 1) 0 (by omega) 1

/-- **`invert_permutation` stores the inverse**, whatever the buffer held before. -/
theorem invertPermutation_eq {n : ℕ} (σ : Equiv.Perm (Fin n)) (inv : List ℕ)
    (hlen : inv.length = n) :
    invertPermutation (permArray σ) n inv = some (permArray σ.symm) := by
  have key := loop_spec
    (f := fun i inv => do let p ← (permArray σ)[i]?; writeAt inv p i) (s := inv) (n := n)
    (fun i inv => inv.length = n ∧ ∀ x : Fin n, (x : ℕ) < i → inv[(σ x : ℕ)]? = some (x : ℕ))
    ⟨hlen, fun x hx => absurd hx (Nat.not_lt_zero _)⟩ ?step
  case step =>
    -- iteration `i` fills the cell `σ i`, which no later iteration touches
    rintro i hi t ⟨hlt, hct⟩
    have hread := getElem?_permArray σ ⟨i, hi⟩
    refine ⟨t.set (σ ⟨i, hi⟩) i, ?_, by simpa using hlt, fun x hx => ?_⟩
    · simp only [Option.bind_eq_bind]
      rw [hread, Option.bind_some, writeAt_eq (by rw [hlt]; exact (σ _).isLt)]
    · rw [List.getElem?_set, hlt]
      by_cases hxi : (σ ⟨i, hi⟩ : ℕ) = σ x
      · have hx' : x = ⟨i, hi⟩ := (σ.injective (Fin.ext hxi)).symm
        rw [if_pos hxi, if_pos (σ _).isLt, hx']
      · rw [if_neg hxi]
        refine hct x (Nat.lt_of_le_of_ne (Nat.lt_succ_iff.mp hx) fun h => hxi ?_)
        rw [show (⟨i, hi⟩ : Fin n) = x from Fin.ext h.symm]
  obtain ⟨inv', hloop, hlen', hcells⟩ := key
  rw [invertPermutation, hloop]
  refine congrArg some (eq_permArray hlen' fun y => ?_)
  simpa using hcells (σ.symm y) (σ.symm y).isLt

end SinglePassPIR.Psetggm
