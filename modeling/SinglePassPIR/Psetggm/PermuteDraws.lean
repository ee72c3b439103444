import SinglePassPIR.Lib.FisherYates
import SinglePassPIR.Lib.MulShift
import SinglePassPIR.Psetggm.Permute

/-!
# The draws of a permutation

`permute` draws an index for each position from the last one down, and exchanges the two cells.
The array that it leaves is decided by the draws alone, and every permutation comes from exactly
one sequence of them. A draw below `N` is made from a 32-bit word by `fastMod`, which sends as many
words to one value as to any other, up to one.

## Main results

* `permute_exact` — draws and permutations correspond.
* `fastMod_uniform` — how many words give a value.
-/

namespace SinglePassPIR.Psetggm

/-- The loop of `permute` from `i` down to `1`, with the draws in place of the generator. -/
def shuffleLoop (draw : ℕ → ℕ) : ℕ → List ℕ → Option (List ℕ)
  | 0, arr => some arr
  | i + 1, arr => do
      let arr ← swapCells arr (i + 1) (draw (i + 1))
      shuffleLoop draw i arr

/-- The draw at position `i` of a sequence of them. -/
def drawAt {n : ℕ} (draws : Draws n) (i : ℕ) : ℕ := if h : i < n then draws ⟨i, h⟩ else 0

variable {n : ℕ}

theorem drawAt_eq (draws : Draws n) {i : ℕ} (hi : i < n) : drawAt draws i = draws.index ⟨i, hi⟩ :=
  dif_pos hi

/-- Draws that are not used do not matter. -/
theorem shuffleLoop_congr {draw draw' : ℕ → ℕ} {i : ℕ}
    (h : ∀ m, 1 ≤ m → m ≤ i → draw m = draw' m) (arr : List ℕ) :
    shuffleLoop draw i arr = shuffleLoop draw' i arr := by
  induction i generalizing arr with
  | zero => rfl
  | succ i ih =>
      have hlast := h (i + 1) (Nat.succ_pos i) (Nat.le_refl _)
      have hrest : shuffleLoop draw i = shuffleLoop draw' i := by
        funext arr
        exact ih (fun m hpos hm => h m hpos (Nat.le_succ_of_le hm)) arr
      simp only [shuffleLoop, hlast, hrest]

/-- The loop of `permute` makes its draws from the words of the generator, in turn. -/
theorem permuteLoop_eq_shuffleLoop (rnd : ℕ → UInt32) (k i : ℕ) (arr : List ℕ) :
    permuteLoop rnd k i arr =
      shuffleLoop (fun m => getRandIntModN (rnd (k + (i - m))) (m + 1)) i arr := by
  induction i generalizing k arr with
  | zero => rfl
  | succ i ih =>
      have hword : k + (i + 1 - (i + 1)) = k := by omega
      simp only [permuteLoop, shuffleLoop, hword]
      congr 1
      funext arr'
      rw [ih]
      apply shuffleLoop_congr
      intro m _ hm
      have hnext : k + 1 + (i - m) = k + (i + 1 - m) := by omega
      simp only [hnext]

/-- **The loop leaves the product of its exchanges.** -/
theorem shuffleLoop_spec (draws : Draws n) {i : ℕ} (hi : i < n) (σ : Equiv.Perm (Fin n)) :
    shuffleLoop (drawAt draws) i (permArray σ) =
      some (permArray (σ * shuffleBelow draws (i + 1) hi)) := by
  induction i generalizing σ with
  | zero =>
      have h0 : draws.index ⟨0, hi⟩ = ⟨0, hi⟩ := Fin.ext (Nat.le_zero.mp (draws.index_le ⟨0, hi⟩))
      rw [shuffleLoop, shuffleBelow, shuffleBelow, h0, Equiv.swap_self, mul_one]
      rfl
  | succ i ih =>
      have hswap := swapCells_permArray σ ⟨i + 1, hi⟩ (draws.index ⟨i + 1, hi⟩)
      simp only [shuffleLoop, drawAt_eq draws hi, Option.bind_eq_bind]
      rw [hswap, Option.bind_some, ih (Nat.lt_of_succ_lt hi), mul_assoc]
      rfl

/-- The whole loop. -/
theorem shuffleLoop_eq (hpos : 0 < n) (draws : Draws n) :
    shuffleLoop (drawAt draws) (n - 1) (List.range n) = some (permArray (shuffle draws)) := by
  obtain ⟨m, rfl⟩ : ∃ m, n = m + 1 := ⟨n - 1, by omega⟩
  rw [← permArray_one, Nat.add_sub_cancel, shuffleLoop_spec draws (Nat.lt_succ_self m), one_mul]
  rfl

/-- The draws that `permute` makes are none above their positions. -/
theorem fastMod_succ_le {x i : ℕ} (hx : x < 2 ^ 32) (hi : i + 1 < 2 ^ 32) :
    fastMod x (i + 1) ≤ i :=
  Nat.le_of_lt_succ (fastMod_lt hx hi (Nat.succ_pos i))

/-- The draws that `permute` makes, from the words of the generator. -/
def wordDraws (rnd : ℕ → UInt32) (hn : n < 2 ^ 32) : Draws n := fun i =>
  ⟨getRandIntModN (rnd (n - 1 - i)) (i + 1),
    Nat.lt_succ_of_le (fastMod_succ_le (rnd (n - 1 - i)).toNat_lt (Nat.lt_of_le_of_lt i.isLt hn))⟩

theorem permute_eq_shuffle (rnd : ℕ → UInt32) (hpos : 0 < n) (hn : n < 2 ^ 32) :
    permute rnd n = some (permArray (shuffle (wordDraws rnd hn))) := by
  have hstart : (n + (2 ^ 32 - 1)) % 2 ^ 32 = n - 1 := by omega
  rw [permute, hstart, permuteLoop_eq_shuffleLoop, ← shuffleLoop_eq hpos]
  apply shuffleLoop_congr
  intro m _ hm
  rw [drawAt, dif_pos (by omega), Nat.zero_add]
  rfl

/-- **Permutation sampling is exact given its draws.** The loop makes a permutation from every
sequence of draws, every permutation from exactly one of them, and `invert_permutation` makes its
inverse. `fastMod` supplies draws that are none above their positions, and `permute` is the loop
with those. -/
theorem permute_exact (hpos : 0 < n) :
    (∀ draws : Draws n,
      shuffleLoop (drawAt draws) (n - 1) (List.range n) = some (permArray (shuffle draws)) ∧
      ∀ inv : List ℕ, inv.length = n →
        invertPermutation (permArray (shuffle draws)) n inv =
          some (permArray (shuffle draws).symm)) ∧
    Function.Bijective (shuffle : Draws n → Equiv.Perm (Fin n)) ∧
    (∀ x i, x < 2 ^ 32 → i + 1 < 2 ^ 32 → fastMod x (i + 1) ≤ i) ∧
    ∀ (rnd : ℕ → UInt32) (hn : n < 2 ^ 32),
      permute rnd n = some (permArray (shuffle (wordDraws rnd hn))) := by
  refine ⟨?_, shuffle_bijective, fun x i hx hi => fastMod_succ_le hx hi, ?_⟩
  · intro draws
    exact ⟨shuffleLoop_eq hpos draws, fun inv hlen => invertPermutation_eq _ inv hlen⟩
  · intro rnd hn
    exact permute_eq_shuffle rnd hpos hn

theorem permute_exact_three :
    (∀ draws : Draws 3,
      shuffleLoop (drawAt draws) 2 (List.range 3) = some (permArray (shuffle draws)) ∧
      ∀ inv : List ℕ, inv.length = 3 →
        invertPermutation (permArray (shuffle draws)) 3 inv =
          some (permArray (shuffle draws).symm)) ∧
    Function.Bijective (shuffle : Draws 3 → Equiv.Perm (Fin 3)) ∧
    (∀ x i, x < 2 ^ 32 → i + 1 < 2 ^ 32 → fastMod x (i + 1) ≤ i) ∧
    ∀ (rnd : ℕ → UInt32) (hn : 3 < 2 ^ 32),
      permute rnd 3 = some (permArray (shuffle (wordDraws rnd hn))) :=
  permute_exact (by decide)

example : shuffleLoop (fun i => i - 1) 2 (List.range 3) = some [2, 0, 1] := by decide

/-! ## The words of a draw -/

/-- **`fastMod` is as uniform as possible**: of all 32-bit words, the rounded down or the rounded
up `N`-th part goes to each value. -/
theorem fastMod_uniform {N r : ℕ} (hN : 1 ≤ N) (h32 : N < 2 ^ 32) (hr : r < N) :
    (∀ x < 2 ^ 32, x * N < 2 ^ 64) ∧
    (((Finset.range (2 ^ 32)).filter fun x => fastMod x N = r).card = 2 ^ 32 / N ∨
      ((Finset.range (2 ^ 32)).filter fun x => fastMod x N = r).card = 2 ^ 32 ⌈/⌉ N) := by
  constructor
  · intro x hx
    calc x * N < 2 ^ 32 * 2 ^ 32 := Nat.mul_lt_mul'' hx h32
      _ = 2 ^ 64 := by norm_num
  · have hsame : (Finset.range (2 ^ 32)).filter (fun x => fastMod x N = r) =
        (Finset.range (2 ^ 32)).filter fun x => x * N / 2 ^ 32 = r := by
      apply Finset.filter_congr
      intro x hx
      rw [fastMod_eq (Finset.mem_range.mp hx) h32]
    rw [hsame]
    exact card_mulDiv hN hr

theorem fastMod_uniform_three :
    (∀ x < 2 ^ 32, x * 3 < 2 ^ 64) ∧
    (((Finset.range (2 ^ 32)).filter fun x => fastMod x 3 = 1).card = 2 ^ 32 / 3 ∨
      ((Finset.range (2 ^ 32)).filter fun x => fastMod x 3 = 1).card = 2 ^ 32 ⌈/⌉ 3) :=
  fastMod_uniform (by decide) (by decide) (by decide)

end SinglePassPIR.Psetggm
