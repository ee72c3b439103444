import Mathlib.Algebra.Order.Floor.Div
import Mathlib.Order.Interval.Finset.Nat

/-!
# Scaling a range

`x ↦ x * N / M` maps `[0, M)` onto the smaller range `[0, N)`. The numbers that go to `r` are an
interval, and the intervals differ in length by at most one.

## Main results

* `filter_mulDiv` — the numbers that go to `r`.
* `card_mulDiv` — how many there are.
-/

namespace SinglePassPIR

variable {N M r : ℕ}

/-- The numbers that are scaled to `r`. -/
theorem filter_mulDiv (hN : 0 < N) (hr : r < N) :
    (Finset.range M).filter (fun x => x * N / M = r) =
      Finset.Ico (r * M ⌈/⌉ N) ((r + 1) * M ⌈/⌉ N) := by
  ext x
  have hlow : r * M ⌈/⌉ N ≤ x ↔ r * M ≤ x * N := by
    rw [ceilDiv_le_iff_le_mul hN, mul_comm N]
  have hhigh : x < (r + 1) * M ⌈/⌉ N ↔ x * N < (r + 1) * M := by
    rw [← not_le, ceilDiv_le_iff_le_mul hN, mul_comm N, not_le]
  rw [Finset.mem_filter, Finset.mem_range, Finset.mem_Ico, hlow, hhigh]
  constructor
  · intro ⟨hx, heq⟩
    have hM : 0 < M := Nat.zero_lt_of_lt hx
    constructor
    · exact (Nat.le_div_iff_mul_le hM).mp heq.ge
    · exact (Nat.div_lt_iff_lt_mul hM).mp (Nat.lt_succ_of_le heq.le)
  · intro ⟨hle, hlt⟩
    have hM : 0 < M := Nat.pos_of_ne_zero (by rintro rfl; simp at hlt)
    have hrow : (r + 1) * M ≤ M * N := by
      rw [mul_comm M]
      exact Nat.mul_le_mul_right M hr
    refine ⟨Nat.lt_of_mul_lt_mul_right (hlt.trans_le hrow), ?_⟩
    exact Nat.le_antisymm (Nat.le_of_lt_succ ((Nat.div_lt_iff_lt_mul hM).mpr hlt))
      ((Nat.le_div_iff_mul_le hM).mpr hle)

/-- The rounded quotient is the first multiple that is large enough. -/
theorem mul_ceilDiv_bounds (hN : 0 < N) (a : ℕ) :
    a ≤ N * (a ⌈/⌉ N) ∧ N * (a ⌈/⌉ N) < a + N := by
  refine ⟨le_smul_ceilDiv hN, ?_⟩
  rw [Nat.ceilDiv_eq_add_pred_div]
  have := Nat.mul_div_le (a + N - 1) N
  omega

/-- **How many numbers are scaled to `r`**: as many as to any other, up to one. -/
theorem card_mulDiv (hN : 0 < N) (hr : r < N) :
    ((Finset.range M).filter fun x => x * N / M = r).card = M / N ∨
      ((Finset.range M).filter fun x => x * N / M = r).card = M ⌈/⌉ N := by
  rw [filter_mulDiv hN hr, Nat.card_Ico, Nat.succ_mul]
  obtain ⟨hlow, hlow'⟩ := mul_ceilDiv_bounds hN (r * M)
  obtain ⟨hhigh, hhigh'⟩ := mul_ceilDiv_bounds hN (r * M + M)
  obtain ⟨hceil, hceil'⟩ := mul_ceilDiv_bounds hN M
  have hfloor := Nat.div_add_mod M N
  have hmod := Nat.mod_lt M hN
  set low := r * M ⌈/⌉ N
  set high := (r * M + M) ⌈/⌉ N
  have hle : low ≤ high := by
    by_contra hlt
    have := Nat.mul_le_mul_left N (Nat.succ_le_of_lt (Nat.lt_of_not_le hlt))
    rw [Nat.mul_succ] at this
    omega
  obtain ⟨d, hd⟩ := Nat.exists_eq_add_of_le hle
  rw [hd, Nat.mul_add] at hhigh hhigh'
  rw [hd, Nat.add_sub_cancel_left]
  -- `d` is within one of the real quotient
  have hge : M / N ≤ d := by
    by_contra hlt
    have := Nat.mul_le_mul_left N (Nat.succ_le_of_lt (Nat.lt_of_not_le hlt))
    rw [Nat.mul_succ] at this
    omega
  have hle' : d ≤ M ⌈/⌉ N := by
    by_contra hlt
    have := Nat.mul_le_mul_left N (Nat.succ_le_of_lt (Nat.lt_of_not_le hlt))
    rw [Nat.mul_succ] at this
    omega
  have hnext : M ⌈/⌉ N ≤ M / N + 1 := by
    rw [ceilDiv_le_iff_le_mul hN, Nat.mul_succ]
    omega
  omega

end SinglePassPIR
