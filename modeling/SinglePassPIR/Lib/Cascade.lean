import Mathlib.Algebra.BigOperators.Group.List.Basic
import Mathlib.Data.Nat.Log
import Mathlib.Tactic.Linarith
import Mathlib.Tactic.Ring
import SinglePassPIR.Lib.Run

/-!
# The cost of a cascade

A cascade is a row of bins whose capacities halve. What comes in goes to the last bin that has room
for it together with the loads of the bins behind it, which that bin takes over, and moving a load
costs its size; the last bin takes loads for free. When only the first bin has room, or none, the
cascade is made anew, with its first bin full.

A unit that comes in pays for every bin that it will move through on its way to the front, and for
its share of the next cascade: `stash` is what the units in the bins have left.

## Main results

* `runActions_cost_le` — the potential method, along a run.
* `Halving.length_le` — there are logarithmically many bins.
* `stash_move`, `stash_renew` — the two ways in which a cascade takes new units.
-/

namespace SinglePassPIR

/-! ## The potential method -/

section
universe u v w
variable {σ : Type u} {α : Type v} {ω : Type w} {step : σ → α → Option (ω × σ)}

/-- **The potential method.** If what a step costs and leaves as potential is covered by its credit
and the potential before it, the credits cover the costs of a run. -/
theorem runActions_cost_le (cost : ω → ℕ) (credit : α → ℕ) (Φ : σ → ℕ) (Inv : σ → Prop)
    {W : ω → Prop} (hstep : ∀ s a o s', Inv s → W o → step s a = some (o, s') →
      cost o + Φ s' ≤ credit a + Φ s ∧ Inv s') {as : List α} {os : List ω} {s s' : σ}
    (hs : Inv s) (hW : ∀ o ∈ os, W o) (hrun : runActions step s as = some (os, s')) :
    (os.map cost).sum + Φ s' ≤ (as.map credit).sum + Φ s := by
  induction as generalizing s os with
  | nil =>
      rw [runActions_nil, Option.some.injEq, Prod.mk.injEq] at hrun
      obtain ⟨rfl, rfl⟩ := hrun
      simp
  | cons a as ih =>
      simp only [runActions_cons, Option.bind_eq_some_iff, Option.some.injEq, Prod.mk.injEq] at hrun
      obtain ⟨⟨o, s₁⟩, h₁, ⟨os', s₂⟩, hrest, rfl, rfl⟩ := hrun
      have hfirst := hstep s a o s₁ hs (hW o List.mem_cons_self) h₁
      have htotal := ih hfirst.2 (fun o' ho => hW o' (List.mem_cons_of_mem o ho)) hrest
      have hcost := hfirst.1
      dsimp only at htotal
      simp only [List.map_cons, List.sum_cons]
      omega

end

/-! ## Capacities -/

/-- The capacities halve, and the last one is the first that is at most `smallest`. -/
def Halving (smallest : ℕ) : List ℕ → Prop
  | [] => True
  | [c] => c ≤ smallest
  | c :: d :: caps => smallest < c ∧ d = c / 2 ∧ Halving smallest (d :: caps)

/-- **There are logarithmically many bins.** -/
theorem Halving.length_le {smallest c : ℕ} {caps : List ℕ} (h : Halving smallest (c :: caps)) :
    (c :: caps).length ≤ Nat.log 2 (c / (smallest + 1)) + 2 := by
  induction caps generalizing c with
  | nil => simp
  | cons d caps ih =>
      obtain ⟨hlt, rfl, hrest⟩ := h
      have hlen := ih hrest
      have hswap : c / 2 / (smallest + 1) = c / (smallest + 1) / 2 := by
        rw [Nat.div_div_eq_div_mul, Nat.div_div_eq_div_mul, Nat.mul_comm]
      have hpos : 1 ≤ c / (smallest + 1) := (Nat.one_le_div_iff (by omega)).mpr hlt
      rw [hswap, Nat.log_div_base] at hlen
      by_cases htwo : 2 ≤ c / (smallest + 1)
      · have hlog := Nat.log_pos Nat.one_lt_two htwo
        simp only [List.length_cons] at hlen ⊢
        omega
      · -- the next capacity is the last one
        have hsmall : c / 2 ≤ smallest := by
          have hc : c < 2 * (smallest + 1) := (Nat.div_lt_iff_lt_mul (by omega)).mp (by omega)
          omega
        cases caps with
        | nil => simp
        | cons e caps => exact absurd hrest.1 (by omega)

/-- A bin with a bin behind it has at most twice that one's capacity, and one. -/
theorem Halving.le_two_mul {smallest c d : ℕ} (front : List ℕ) {caps : List ℕ}
    (h : Halving smallest (front ++ c :: d :: caps)) : c ≤ 2 * d + 1 := by
  induction front with
  | nil =>
      have hd := h.2.1
      omega
  | cons e front ih =>
      cases front with
      | nil => exact ih h.2.2
      | cons f front => exact ih h.2.2

/-! ## Loads -/

/-- What the units have left for their way to the front: two for each bin before theirs. -/
def fares : List ℕ → ℕ
  | [] => 0
  | _ :: loads => fares loads + 2 * loads.sum

theorem fares_append (loads loads' : List ℕ) :
    fares (loads ++ loads') = fares loads + 2 * (loads.length * loads'.sum) + fares loads' := by
  induction loads with
  | nil => simp [fares]
  | cons r loads ih =>
      rw [List.cons_append, fares, fares, ih, List.sum_append, List.length_cons]
      ring

theorem fares_cons_zero (k : ℕ) {loads : List ℕ} (h : loads.sum = 0) : fares (k :: loads) = 0 := by
  induction loads generalizing k with
  | nil => simp [fares]
  | cons r loads ih =>
      rw [List.sum_cons] at h
      rw [fares, ih r (by omega), List.sum_cons]
      omega

/-- What the units have left. Those that are not in the first bin have three for the next cascade;
in a cascade of a single bin, which has moved nothing, they have one. -/
def stash : List ℕ → ℕ
  | [] => 0
  | [r] => r
  | r :: s :: loads => fares (r :: s :: loads) + 3 * (s :: loads).sum

theorem stash_cons {r : ℕ} {loads : List ℕ} (h : loads ≠ []) :
    stash (r :: loads) = fares (r :: loads) + 3 * loads.sum := by
  cases loads with
  | nil => exact absurd rfl h
  | cons s loads => rfl

/-- **A bin takes what comes in**, `n` units, and what is behind it. -/
theorem stash_move {upper lower lower' : List ℕ} {n r k : ℕ} (hupper : upper ≠ [])
    (hk : k = n + (r + lower.sum)) (hlower : lower'.sum = 0)
    (hcost : lower ≠ [] → k ≤ 2 * (n + lower.sum)) :
    (if lower = [] then 0 else k) + stash (upper ++ k :: lower') ≤
      (2 * (upper.length + 1 + lower.length) + 1) * n + stash (upper ++ r :: lower) := by
  obtain ⟨first, upper, rfl⟩ := List.exists_cons_of_ne_nil hupper
  have hmove : fares (first :: upper ++ k :: lower') + 2 * lower.sum ≤
      2 * ((upper.length + 1) * n) + fares (first :: upper ++ r :: lower) := by
    rw [fares_append, fares_append, fares_cons_zero k hlower, fares, fares, hk, List.sum_cons,
      List.sum_cons, hlower, List.length_cons]
    ring_nf
    omega
  rw [List.cons_append, List.cons_append, stash_cons (by simp), stash_cons (by simp),
    ← List.cons_append, ← List.cons_append]
  simp only [List.sum_append, List.sum_cons, hlower, List.length_cons]
  by_cases hlast : lower = []
  · subst hlast
    rw [if_pos rfl]
    simp only [List.sum_nil, List.length_nil] at hmove hk ⊢
    linarith
  · have hlen : 1 ≤ lower.length := List.length_pos_of_ne_nil hlast
    have hn : n ≤ lower.length * n := Nat.le_mul_of_pos_left n hlen
    have hk := hcost hlast
    rw [if_neg hlast]
    linarith

/-- **A cascade is made anew** for its loads and the `n` units that come in. The first bin of the
old one, if it had others, held at most twice what is behind it with the new units. -/
theorem stash_renew {loads lower' : List ℕ} {n k : ℕ} (hk : k = n + loads.sum)
    (hlower : lower'.sum = 0) (hfirst : ∀ r s rest, loads = r :: s :: rest →
      r ≤ 2 * (n + (s :: rest).sum)) :
    (if lower' = [] then 0 else k) + stash (k :: lower') ≤
      (2 * (lower'.length + 1) + 1) * n + stash loads := by
  have hthree : 3 * n ≤ (2 * (lower'.length + 1) + 1) * n := Nat.mul_le_mul_right n (by omega)
  have hnew : (if lower' = [] then 0 else k) + stash (k :: lower') = k := by
    by_cases hlast : lower' = []
    · subst hlast
      simp [stash]
    · rw [if_neg hlast, stash_cons hlast, fares_cons_zero k hlower, hlower]
      rfl
  have hold : k ≤ 3 * n + stash loads := by
    cases loads with
    | nil =>
        simp only [List.sum_nil] at hk
        omega
    | cons r rest =>
        cases rest with
        | nil =>
            simp only [List.sum_cons, List.sum_nil] at hk
            simp only [stash]
            omega
        | cons s rest =>
            have hr := hfirst r s rest rfl
            rw [stash_cons (by simp)]
            rw [List.sum_cons] at hk
            omega
  omega

end SinglePassPIR
