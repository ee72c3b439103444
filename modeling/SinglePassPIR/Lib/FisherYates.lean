import Mathlib.GroupTheory.Perm.Basic
import Mathlib.Tactic.Common

/-!
# The Fisher–Yates shuffle

The product of the transpositions of `i` and `j i`, from the last index down to the first, where
no `j i` is above `i`. Index `i` goes to `j i` and is left alone afterwards, so the draws can be
read off the permutation again: the shuffle makes every permutation from exactly one family of
draws.

## Main results

* `shuffle_bijective` — permutations and draws correspond.
-/

namespace SinglePassPIR

variable {n : ℕ}

/-- One draw for each index, none above it. -/
abbrev Draws (n : ℕ) : Type := (i : Fin n) → Fin (i + 1)

/-- The index that is drawn for `i`. -/
def Draws.index (draws : Draws n) (i : Fin n) : Fin n := ⟨draws i, (draws i).isLt.trans_le i.isLt⟩

theorem Draws.index_le (draws : Draws n) (i : Fin n) : draws.index i ≤ i := Nat.le_of_lt_succ (draws i).isLt

/-- The exchanges of the indices below `k`, from the last one down. -/
def shuffleBelow (draws : Draws n) : (k : ℕ) → k ≤ n → Equiv.Perm (Fin n)
  | 0, _ => 1
  | k + 1, h => Equiv.swap ⟨k, h⟩ (draws.index ⟨k, h⟩) * shuffleBelow draws k (Nat.le_of_lt h)

/-- The permutation that the draws make. -/
def shuffle (draws : Draws n) : Equiv.Perm (Fin n) := shuffleBelow draws n (Nat.le_refl n)

/-- Only the indices below `k` move. -/
theorem shuffleBelow_apply_of_le (draws : Draws n) {k : ℕ} (hk : k ≤ n) {x : Fin n} (hx : k ≤ x) :
    shuffleBelow draws k hk x = x := by
  induction k with
  | zero => rfl
  | succ k ih =>
      have hle : (draws.index ⟨k, hk⟩ : ℕ) ≤ k := draws.index_le ⟨k, hk⟩
      rw [shuffleBelow, Equiv.Perm.mul_apply, ih _ (Nat.le_of_lt hx)]
      apply Equiv.swap_apply_of_ne_of_ne
      · exact Fin.ne_of_gt hx
      · exact Fin.ne_of_gt (hle.trans_lt hx)

/-- The last index goes where it is drawn to. -/
theorem shuffleBelow_apply_last (draws : Draws n) {k : ℕ} (hk : k < n) :
    shuffleBelow draws (k + 1) hk ⟨k, hk⟩ = draws.index ⟨k, hk⟩ := by
  rw [shuffleBelow, Equiv.Perm.mul_apply, shuffleBelow_apply_of_le draws _ (Nat.le_refl k),
    Equiv.swap_apply_left]

/-- Draws for later indices do not matter. -/
theorem shuffleBelow_congr {draws draws' : Draws n} {k : ℕ} (hk : k ≤ n)
    (h : ∀ x : Fin n, x < k → draws x = draws' x) :
    shuffleBelow draws k hk = shuffleBelow draws' k hk := by
  induction k with
  | zero => rfl
  | succ k ih =>
      have hlast : draws.index ⟨k, hk⟩ = draws'.index ⟨k, hk⟩ := by
        simp [Draws.index, h ⟨k, hk⟩ (Nat.lt_succ_self k)]
      rw [shuffleBelow, shuffleBelow, hlast, ih _ fun x hx => h x (Nat.lt_succ_of_lt hx)]

/-- The draws can be read off. -/
theorem shuffleBelow_inj {draws draws' : Draws n} {k : ℕ} (hk : k ≤ n)
    (h : shuffleBelow draws k hk = shuffleBelow draws' k hk) {x : Fin n} (hx : x < k) :
    draws x = draws' x := by
  induction k with
  | zero => exact absurd hx (Nat.not_lt_zero _)
  | succ k ih =>
      have hlast : draws.index ⟨k, hk⟩ = draws'.index ⟨k, hk⟩ := by
        rw [← shuffleBelow_apply_last draws hk, h, shuffleBelow_apply_last draws' hk]
      by_cases hxk : (x : ℕ) = k
      · subst hxk
        have hval := congrArg Fin.val hlast
        exact Fin.ext hval
      · rw [shuffleBelow, shuffleBelow, hlast] at h
        exact ih _ (mul_left_cancel h) (by omega)

/-- **Decoding.** A permutation that moves only indices below `k` is the product of the exchanges
that its values name. -/
theorem exists_shuffleBelow {k : ℕ} (hk : k ≤ n) (σ : Equiv.Perm (Fin n))
    (hσ : ∀ x : Fin n, k ≤ x → σ x = x) : ∃ draws : Draws n, shuffleBelow draws k hk = σ := by
  induction k generalizing σ with
  | zero => exact ⟨fun i => ⟨0, Nat.succ_pos i⟩, (Equiv.Perm.ext fun x => hσ x (Nat.zero_le x)).symm⟩
  | succ k ih =>
      let last : Fin n := ⟨k, hk⟩
      -- a larger value would be the value of two indices
      have hle : (σ last : ℕ) ≤ k := by
        by_contra hlt
        have hfix := hσ (σ last) (Nat.lt_of_not_le hlt)
        have hlast := congrArg Fin.val (σ.injective hfix)
        exact hlt (Nat.le_of_eq hlast)
      obtain ⟨draws, hdraws⟩ := ih (Nat.le_of_lt hk) (Equiv.swap last (σ last) * σ) (by
        intro x hx
        rw [Equiv.Perm.mul_apply]
        by_cases hxk : (x : ℕ) = k
        · obtain rfl : x = last := Fin.ext hxk
          exact Equiv.swap_apply_right _ _
        · have hgt : k < x := Nat.lt_of_le_of_ne hx (Ne.symm hxk)
          rw [hσ x hgt]
          apply Equiv.swap_apply_of_ne_of_ne
          · exact Fin.ne_of_gt hgt
          · exact Fin.ne_of_gt (hle.trans_lt hgt))
      refine ⟨Function.update draws last ⟨σ last, Nat.lt_succ_of_le hle⟩, ?_⟩
      have hlast : Draws.index (Function.update draws last ⟨σ last, Nat.lt_succ_of_le hle⟩) last =
          σ last := by
        simp [Draws.index]
      have hrest : shuffleBelow (Function.update draws last ⟨σ last, Nat.lt_succ_of_le hle⟩) k
          (Nat.le_of_lt hk) = Equiv.swap last (σ last) * σ := by
        rw [← hdraws]
        refine shuffleBelow_congr _ fun x hx => Function.update_of_ne ?_ _ _
        exact Fin.ne_of_lt hx
      rw [shuffleBelow, hlast, hrest, ← mul_assoc, Equiv.swap_mul_self, one_mul]

/-- **The shuffle makes every permutation from exactly one family of draws.** -/
theorem shuffle_bijective : Function.Bijective (shuffle : Draws n → Equiv.Perm (Fin n)) := by
  constructor
  · intro draws draws' h
    funext x
    exact shuffleBelow_inj _ h x.isLt
  · intro σ
    exact exists_shuffleBelow _ σ fun x hx => absurd x.isLt (Nat.not_lt.mpr hx)

end SinglePassPIR
