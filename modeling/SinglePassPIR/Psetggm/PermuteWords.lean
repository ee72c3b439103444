import SinglePassPIR.Lib.NearUniform
import SinglePassPIR.Psetggm.PermuteDraws
import Mathlib.Logic.Equiv.Fin.Basic

/-!
# The words of a permutation

`permute` draws its permutation from the words of `RAND_bytes`. Every permutation comes from nearly
the same number of tapes of words, since every draw comes from nearly the same number of words, and
so does every family of permutations that are drawn one after the other.

## Main results

* `drawnPerm_nearUniform` — the tapes of a permutation.
* `drawnFamily_nearUniform` — the tapes of a family of permutations.
-/

namespace SinglePassPIR.Psetggm

/-- The words of a tape, and zeros behind it. -/
def tapeWords {m : ℕ} (tape : Fin m → UInt32) (k : ℕ) : UInt32 :=
  if h : k < m then tape ⟨k, h⟩ else 0

/-- The bounds for the tapes of a permutation of `[0, n)`. -/
def fewestTapes (n : ℕ) : ℕ := ∏ k : Fin (n - 1), 2 ^ 32 / (n - k)

def mostTapes (n : ℕ) : ℕ := ∏ k : Fin (n - 1), 2 ^ 32 ⌈/⌉ (n - k)

instance finite_uInt32 : Finite UInt32 := Finite.of_injective UInt32.toFin fun _ _ h => UInt32.toFin_inj.mp h

/-- **A draw** below `N` from one word. -/
theorem word_nearUniform {N : ℕ} (hN : 0 < N) (h32 : N < 2 ^ 32) :
    NearUniform (fun word : UInt32 =>
      (⟨getRandIntModN word N, fastMod_lt word.toNat_lt h32 hN⟩ : Fin N))
      (2 ^ 32 / N) (2 ^ 32 ⌈/⌉ N) := by
  intro r
  have hcard : Nat.card {word : UInt32 //
      (⟨getRandIntModN word N, fastMod_lt word.toNat_lt h32 hN⟩ : Fin N) = r} =
      ((Finset.range (2 ^ 32)).filter fun x => x * N / 2 ^ 32 = r).card := by
    rw [← Nat.card_eq_finsetCard]
    refine Nat.card_congr
      { toFun := fun w => ⟨w.1.toNat, ?_⟩
        invFun := fun x => ⟨UInt32.ofNat x.1, ?_⟩
        left_inv := fun w => Subtype.ext (UInt32.ofNat_toNat)
        right_inv := ?_ }
    · have hval := congrArg Fin.val w.2
      rw [Finset.mem_filter, Finset.mem_range, ← fastMod_eq w.1.toNat_lt h32]
      exact ⟨w.1.toNat_lt, hval⟩
    · obtain ⟨hx, hval⟩ := Finset.mem_filter.mp x.2
      have hx' : x.1 < 2 ^ 32 := Finset.mem_range.mp hx
      apply Fin.ext
      simp only [getRandIntModN]
      rw [UInt32.toNat_ofNat', Nat.mod_eq_of_lt hx', fastMod_eq hx' h32, hval]
    · intro x
      have hx' : x.1 < 2 ^ 32 := Finset.mem_range.mp (Finset.mem_filter.mp x.2).1
      apply Subtype.ext
      simp only
      rw [UInt32.toNat_ofNat', Nat.mod_eq_of_lt hx']
  have hle : 2 ^ 32 / N ≤ 2 ^ 32 ⌈/⌉ N := by
    rw [Nat.ceilDiv_eq_add_pred_div]
    exact Nat.div_le_div_right (by omega)
  rw [hcard]
  cases card_mulDiv (M := 2 ^ 32) hN r.isLt with
  | inl h => exact ⟨h.ge, h.le.trans hle⟩
  | inr h => exact ⟨hle.trans h.ge, h.le⟩

variable {n : ℕ}

/-- The permutation that `permute` draws. -/
def drawnPerm (rnd : ℕ → UInt32) (hn : n < 2 ^ 32) : Equiv.Perm (Fin n) := shuffle (wordDraws rnd hn)

/-- The first index needs no word. -/
theorem drawnPerm_congr {rnd rnd' : ℕ → UInt32} (hn : n < 2 ^ 32)
    (h : ∀ k < n - 1, rnd k = rnd' k) : drawnPerm rnd hn = drawnPerm rnd' hn := by
  refine congrArg shuffle (funext fun i => Fin.ext ?_)
  by_cases hi : (i : ℕ) = 0
  · have h0 := (wordDraws rnd hn i).isLt
    have h0' := (wordDraws rnd' hn i).isLt
    omega
  · exact congrArg (getRandIntModN · (i + 1)) (h (n - 1 - i) (by omega))

/-- **The tapes of a permutation.** -/
theorem drawnPerm_nearUniform (hn : n < 2 ^ 32) :
    NearUniform (fun tape : Fin (n - 1) → UInt32 => drawnPerm (tapeWords tape) hn)
      (fewestTapes n) (mostTapes n) := by
  have hpos : ∀ k : Fin (n - 1), 0 < n - k := fun k => by omega
  have hlt : ∀ k : Fin (n - 1), n - k < 2 ^ 32 := fun k => by omega
  refine (NearUniform.pi fun k : Fin (n - 1) => word_nearUniform (hpos k) (hlt k)).of_iff ?_
  intro σ
  obtain ⟨draws, rfl⟩ := shuffle_bijective.surjective σ
  -- word `k` is for index `n - 1 - k`
  refine ⟨fun k => ⟨draws ⟨n - 1 - k, by omega⟩, ?_⟩, ?_⟩
  · have hdraw := (draws ⟨n - 1 - k, by omega⟩).isLt
    have := k.isLt
    simp only at hdraw
    omega
  intro tape
  rw [drawnPerm, shuffle_bijective.injective.eq_iff, funext_iff, funext_iff]
  constructor
  · intro h k
    have hk := congrArg Fin.val (h ⟨n - 1 - k, by omega⟩)
    have hword : n - 1 - (n - 1 - (k : ℕ)) = k := by omega
    have hrange : n - 1 - (k : ℕ) + 1 = n - k := by omega
    rw [wordDraws] at hk
    simp only [hword, hrange, tapeWords, k.isLt, dif_pos] at hk
    exact Fin.ext hk
  · intro h i
    apply Fin.ext
    by_cases hi : (i : ℕ) = 0
    · have h0 := (wordDraws (tapeWords tape) hn i).isLt
      have h0' := (draws i).isLt
      omega
    · have hk : n - 1 - (i : ℕ) < n - 1 := by omega
      have hword := congrArg Fin.val (h ⟨n - 1 - i, hk⟩)
      have hindex : ∀ i' : Fin n, i' = i → (draws i' : ℕ) = draws i := by
        rintro _ rfl
        rfl
      have hrange : n - (n - 1 - (i : ℕ)) = i + 1 := by omega
      simp only [hrange] at hword
      rw [hindex _ (Fin.ext (by simp; omega))] at hword
      rw [wordDraws]
      simp only [tapeWords, hk, dif_pos]
      exact hword

/-! ## Several permutations -/

variable {S : ℕ}

/-- The permutations that are drawn one after the other. -/
def drawnFamily (rnd : ℕ → UInt32) (hn : n < 2 ^ 32) (j : Fin S) : Equiv.Perm (Fin n) :=
  drawnPerm (fun k => rnd (j * (n - 1) + k)) hn

/-- A long tape, cut into one for each permutation. -/
def cutTape : (Fin (S * (n - 1)) → UInt32) ≃ (Fin S → Fin (n - 1) → UInt32) :=
  (finProdFinEquiv.symm.arrowCongr (Equiv.refl UInt32)).trans (Equiv.curry _ _ _)

theorem cutTape_apply (tape : Fin (S * (n - 1)) → UInt32) (j : Fin S) {k : ℕ} (hk : k < n - 1) :
    tapeWords (cutTape tape j) k = tapeWords tape (j * (n - 1) + k) := by
  have hlt : (j : ℕ) * (n - 1) + k < S * (n - 1) := by
    have := block_end_le (w := n - 1) j.isLt
    omega
  rw [tapeWords, tapeWords, dif_pos hk, dif_pos hlt]
  refine congrArg tape (Fin.ext ?_)
  simp [Nat.add_comm, Nat.mul_comm]

/-- **The tapes of a family of permutations.** -/
theorem drawnFamily_nearUniform (S : ℕ) (hn : n < 2 ^ 32) :
    NearUniform (fun (tape : Fin (S * (n - 1)) → UInt32) (j : Fin S) =>
      drawnFamily (tapeWords tape) hn j) (fewestTapes n ^ S) (mostTapes n ^ S) := by
  have hpi := (NearUniform.pi fun _ : Fin S => drawnPerm_nearUniform hn).comp_equiv cutTape
  simp only [Finset.prod_const, Finset.card_univ, Fintype.card_fin] at hpi
  refine hpi.of_iff ?_
  intro p
  refine ⟨p, ?_⟩
  intro tape
  refine Eq.congr_left (funext fun j => ?_)
  refine (drawnPerm_congr hn ?_).symm
  intro k hk
  exact cutTape_apply tape j hk

end SinglePassPIR.Psetggm
