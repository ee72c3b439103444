import Mathlib.Algebra.BigOperators.Group.Finset.Basic
import Mathlib.Data.Nat.ModEq
import Mathlib.Tactic.Abel

/-!
# Running sums with a stride

A sequence is cut into blocks, and every block is added to the sum of the blocks before it. The
first terms of the sums and those of the sequence decide each other.

## Main results

* `stridedSum_add` — one block further.
* `stridedSum_bijective` — sums and terms, one to one.
-/

namespace SinglePassPIR
variable {G : Type*}

/-- A sequence that starts with the terms of `f`. -/
def startingWith {n : ℕ} (f : Fin n → G) (rest : ℕ → G) (k : ℕ) : G :=
  if h : k < n then f ⟨k, h⟩ else rest k

@[simp] theorem startingWith_val {n : ℕ} (f : Fin n → G) (rest : ℕ → G) (k : Fin n) :
    startingWith f rest k = f k := dif_pos k.isLt

/-- Term `k` and the terms that are multiples of `W` before it, added up. -/
def stridedSum [AddCommMonoid G] (W : ℕ) (f : ℕ → G) (k : ℕ) : G :=
  ∑ j ∈ Finset.range (k / W + 1), f (j * W + k % W)

section
variable [AddCommMonoid G] {W k : ℕ} {f : ℕ → G}

/-- In the first block nothing is added. -/
theorem stridedSum_of_lt (h : k < W) : stridedSum W f k = f k := by
  simp [stridedSum, Nat.div_eq_of_lt h, Nat.mod_eq_of_lt h]

theorem stridedSum_add (hW : 0 < W) (k : ℕ) :
    stridedSum W f (k + W) = stridedSum W f k + f (k + W) := by
  have hlast : (k / W + 1) * W + k % W = k + W := by
    rw [Nat.succ_mul, Nat.add_right_comm, Nat.mul_comm, Nat.div_add_mod]
  simp only [stridedSum, Nat.add_div_right k hW, Nat.add_mod_right]
  rw [Finset.sum_range_succ, hlast]

end

section
variable [AddCommGroup G] {W n : ℕ}

/-- **The sums decide the terms**, and take all values. -/
theorem stridedSum_bijective (hW : 0 < W) (rest : ℕ → G) :
    Function.Bijective fun (f : Fin n → G) (k : Fin n) => stridedSum W (startingWith f rest) k := by
  constructor
  · intro f g hfg
    funext k
    have hsum : ∀ i < n, stridedSum W (startingWith f rest) i = stridedSum W (startingWith g rest) i :=
      fun i hi => congrFun hfg ⟨i, hi⟩
    rw [← startingWith_val f rest, ← startingWith_val g rest]
    rcases Nat.lt_or_ge k W with hlt | hge
    · have hk := hsum k k.isLt
      rwa [stridedSum_of_lt hlt, stridedSum_of_lt hlt] at hk
    · -- the terms are the differences of sums
      obtain ⟨i, hi⟩ : ∃ i, (k : ℕ) = i + W := ⟨k - W, by omega⟩
      have hk := hsum k k.isLt
      rw [hi, stridedSum_add hW, stridedSum_add hW, hsum i (by omega)] at hk
      rw [hi]
      exact add_left_cancel hk
  · intro d
    let f : Fin n → G := fun k => if (k : ℕ) < W then d k else d k - d ⟨k - W, by omega⟩
    refine ⟨f, funext fun k => ?_⟩
    obtain ⟨k, hk⟩ := k
    induction k using Nat.strong_induction_on with
    | _ k ih =>
        have hf := startingWith_val f rest ⟨k, hk⟩
        dsimp only at hf ⊢
        rcases Nat.lt_or_ge k W with hlt | hge
        · rw [stridedSum_of_lt hlt, hf]
          exact if_pos hlt
        · obtain ⟨i, rfl⟩ : ∃ i, k = i + W := ⟨k - W, by omega⟩
          have hi := ih i (by omega) (by omega)
          dsimp only at hi
          rw [stridedSum_add hW, hi, hf]
          simp only [f, if_neg (Nat.not_lt.mpr hge), Nat.add_sub_cancel]
          abel

end

end SinglePassPIR
