import Mathlib.Data.Nat.Notation
import Mathlib.Tactic.Common
import Mathlib.Algebra.BigOperators.Group.List.Basic
import Mathlib.Algebra.Ring.Nat

/-!
# Lists of pieces that tile a range

`Tiles first size lo l hi` says that the pieces of `l` that are not empty lie one after the
other from `lo` to `hi`; `first` is where a piece starts and `size` how long it is. An empty
piece may name any start.

`existsUnique_piece` says that every place of the range lies in exactly one piece.
-/

namespace SinglePassPIR

universe u
variable {α : Type u} {first size : α → ℕ}

/-- The pieces of the list lie one after the other from `lo` to `hi`. -/
def Tiles (first size : α → ℕ) : ℕ → List α → ℕ → Prop
  | lo, [], hi => lo = hi
  | lo, s :: l, hi => (size s ≠ 0 → first s = lo) ∧ Tiles first size (lo + size s) l hi

/-- The piece covers the place. -/
def Covers (first size : α → ℕ) (pos : ℕ) (s : α) : Prop :=
  first s ≤ pos ∧ pos < first s + size s

theorem Tiles.end_eq {lo hi : ℕ} {l : List α} (h : Tiles first size lo l hi) :
    hi = lo + (l.map size).sum := by
  induction l generalizing lo with
  | nil => simpa using h.symm
  | cons s l ih =>
      have := ih h.2
      simp only [List.map_cons, List.sum_cons]
      omega

theorem tiles_append {lo hi : ℕ} {l l' : List α} :
    Tiles first size lo (l ++ l') hi ↔ ∃ mid, Tiles first size lo l mid ∧
      Tiles first size mid l' hi := by
  induction l generalizing lo with
  | nil => simp [Tiles]
  | cons s l ih => simp [Tiles, ih, and_assoc]

theorem Covers.size_ne_zero {pos : ℕ} {s : α} (h : Covers first size pos s) : size s ≠ 0 := by
  have hle := h.1
  have hlt := h.2
  omega

theorem Covers.sub_lt {pos : ℕ} {s : α} (h : Covers first size pos s) :
    pos - first s < size s := by
  have hle := h.1
  have hlt := h.2
  omega

theorem tiles_empty {lo : ℕ} {l : List α} (h : ∀ s ∈ l, size s = 0) :
    Tiles first size lo l lo := by
  induction l with
  | nil => rfl
  | cons s l ih =>
      have hs : size s = 0 := h s (List.mem_cons_self ..)
      refine ⟨fun hne => absurd hs hne, ?_⟩
      rw [hs]
      exact ih fun s' hs' => h s' (List.mem_cons_of_mem _ hs')

/-- Pieces of the same places tile the same range. -/
theorem Tiles.congr {lo hi : ℕ} {l l' : List α}
    (hsame : List.Forall₂ (fun s s' => first s' = first s ∧ size s' = size s) l l')
    (h : Tiles first size lo l hi) : Tiles first size lo l' hi := by
  induction hsame generalizing lo with
  | nil => exact h
  | cons hs _ ih =>
      refine ⟨fun hne => ?_, ?_⟩
      · rw [hs.1]
        exact h.1 (hs.2 ▸ hne)
      · rw [hs.2]
        exact ih h.2

/-- The pieces that are not empty tile the range alone. -/
theorem Tiles.filter {lo hi : ℕ} {l : List α} (h : Tiles first size lo l hi) :
    Tiles first size lo (l.filter fun s => size s ≠ 0) hi := by
  induction l generalizing lo with
  | nil => exact h
  | cons s l ih =>
      by_cases hs : size s = 0
      · have hrest := ih h.2
        rw [hs, Nat.add_zero] at hrest
        rwa [List.filter_cons_of_neg (by simp [hs])]
      · rw [List.filter_cons_of_pos (by simp [hs])]
        exact ⟨h.1, ih h.2⟩

/-- Every piece that is not empty lies in the range. -/
theorem Tiles.mem_bounds {lo hi : ℕ} {l : List α} (h : Tiles first size lo l hi) {s : α}
    (hs : s ∈ l) (hne : size s ≠ 0) : lo ≤ first s ∧ first s + size s ≤ hi := by
  induction l generalizing lo with
  | nil => simp at hs
  | cons s' l ih =>
      have hend := h.2.end_eq
      cases hs with
      | head =>
          have := h.1 hne
          omega
      | tail _ hs =>
          have := ih h.2 hs
          omega

/-- The list around the piece that covers a place. -/
theorem Tiles.split {lo hi : ℕ} {l : List α} (h : Tiles first size lo l hi) {pos : ℕ}
    (hlo : lo ≤ pos) (hhi : pos < hi) :
    ∃ l₁ s l₂, l = l₁ ++ s :: l₂ ∧ Covers first size pos s ∧
      Tiles first size lo l₁ (first s) ∧ Tiles first size (first s + size s) l₂ hi := by
  induction l generalizing lo with
  | nil =>
      have : lo = hi := h
      omega
  | cons s l ih =>
      by_cases hpos : pos < lo + size s
      · have hfirst : first s = lo := h.1 (by omega)
        exact ⟨[], s, l, rfl, ⟨by omega, by omega⟩, hfirst.symm, hfirst ▸ h.2⟩
      · obtain ⟨l₁, s', l₂, rfl, hcov, h₁, h₂⟩ := ih h.2 (by omega)
        exact ⟨s :: l₁, s', l₂, rfl, hcov, ⟨h.1, h₁⟩, h₂⟩

/-- **Exactly one piece.** Every place of the range lies in one piece of the list. -/
theorem Tiles.existsUnique_piece {lo hi : ℕ} {l : List α} (h : Tiles first size lo l hi)
    {pos : ℕ} (hlo : lo ≤ pos) (hhi : pos < hi) :
    ∃! i : ℕ, ∃ s, l[i]? = some s ∧ Covers first size pos s := by
  induction l generalizing lo with
  | nil =>
      have : lo = hi := h
      omega
  | cons s l ih =>
      by_cases hpos : pos < lo + size s
      · have hfirst : first s = lo := h.1 (by omega)
        refine ⟨0, ⟨s, rfl, by omega, by omega⟩, ?_⟩
        rintro i ⟨s', hs', hcov⟩
        cases i with
        | zero => rfl
        | succ i =>
            have hbounds := h.2.mem_bounds (List.mem_of_getElem? hs') hcov.size_ne_zero
            have hle := hcov.1
            omega
      · obtain ⟨i, ⟨s', hs', hcov⟩, huniq⟩ := ih h.2 (by omega)
        refine ⟨i + 1, ⟨s', hs', hcov⟩, ?_⟩
        rintro j ⟨s'', hs'', hcov'⟩
        cases j with
        | zero =>
            obtain rfl : s = s'' := by simpa using hs''
            have hfirst := h.1 hcov'.size_ne_zero
            have hlt := hcov'.2
            omega
        | succ j => rw [huniq j ⟨s'', hs'', hcov'⟩]

end SinglePassPIR
