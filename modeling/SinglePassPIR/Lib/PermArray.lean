import SinglePassPIR.Lib.Mem
import Mathlib.GroupTheory.Perm.Basic

/-!
# Permutations stored in arrays

`permArray σ` is the array of the values of a permutation of `[0, n)`. The lemmas say
which permutation the array holds after the two-cell updates that programs make: the
exchange of two cells composes with a transposition, and the matching pair of stores
keeps the array of the inverse in step.
-/

namespace SinglePassPIR

variable {n : ℕ}

/-- The array `[σ 0, …, σ (n - 1)]`. -/
def permArray (σ : Equiv.Perm (Fin n)) : List ℕ := List.ofFn fun x => (σ x : ℕ)

@[simp] theorem length_permArray (σ : Equiv.Perm (Fin n)) : (permArray σ).length = n := by
  simp [permArray]

@[simp] theorem getElem?_permArray (σ : Equiv.Perm (Fin n)) (x : Fin n) :
    (permArray σ)[(x : ℕ)]? = some (σ x : ℕ) := by
  simp [permArray]

/-- An array of length `n` that holds `σ x` at every `x` is the array of `σ`. -/
theorem eq_permArray {l : List ℕ} {σ : Equiv.Perm (Fin n)} (hlen : l.length = n)
    (h : ∀ x : Fin n, l[(x : ℕ)]? = some (σ x : ℕ)) : l = permArray σ := by
  refine List.ext_getElem? fun k => ?_
  by_cases hk : k < n
  · exact (h ⟨k, hk⟩).trans (getElem?_permArray σ ⟨k, hk⟩).symm
  · rw [List.getElem?_eq_none (by omega), List.getElem?_eq_none (by simpa using hk)]

theorem permArray_one : permArray (1 : Equiv.Perm (Fin n)) = List.range n :=
  (eq_permArray (by simp) fun x => by simp).symm

/-- Exchanging the cells `i` and `j` composes with the transposition of `i` and `j`. -/
theorem permArray_exchange (σ : Equiv.Perm (Fin n)) (i j : Fin n) :
    ((permArray σ).set i (σ j)).set j (σ i) = permArray (σ * Equiv.swap i j) := by
  refine eq_permArray (by simp) fun x => ?_
  rw [Equiv.Perm.mul_apply, List.getElem?_set, List.getElem?_set]
  simp only [Fin.val_inj, List.length_set, length_permArray, Fin.is_lt, if_true,
    getElem?_permArray]
  by_cases hj : j = x
  · subst hj; simp
  · by_cases hi : i = x
    · subst hi; simp [hj]
    · rw [if_neg hj, if_neg hi, Equiv.swap_apply_of_ne_of_ne (Ne.symm hi) (Ne.symm hj)]

/-- The two stores that keep the array of the inverse in step with an exchange. -/
theorem permArray_symm_exchange (σ : Equiv.Perm (Fin n)) (i j : Fin n) :
    ((permArray σ.symm).set (σ i) j).set (σ j) i = permArray (σ * Equiv.swap i j).symm := by
  have hsymm : (σ * Equiv.swap i j).symm = σ.symm * Equiv.swap (σ i) (σ j) := by
    change (σ * Equiv.swap i j)⁻¹ = σ⁻¹ * Equiv.swap (σ i) (σ j)
    rw [Equiv.mul_swap_eq_swap_mul, mul_inv_rev, Equiv.swap_inv]
  have hex := permArray_exchange σ.symm (σ i) (σ j)
  rwa [Equiv.symm_apply_apply, Equiv.symm_apply_apply, ← hsymm] at hex

/-- An exchange away from `x` leaves the cell `x` alone. -/
theorem mul_swap_apply_of_fixed (σ : Equiv.Perm (Fin n)) {i j x : Fin n}
    (h : Equiv.swap i j x = x) : (σ * Equiv.swap i j) x = σ x := by
  rw [Equiv.Perm.mul_apply, h]

end SinglePassPIR
