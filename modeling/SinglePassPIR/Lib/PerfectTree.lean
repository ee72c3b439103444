import Mathlib.Data.List.Basic
import Mathlib.Data.Nat.Bitwise
import Mathlib.Tactic.Common
import Mathlib.Tactic.Ring

/-!
# Perfect binary trees grown from a root

The tree of height `h` whose nodes are grown from a root by two functions, one for the left child
and one for the right. It is never built: `leafAt` follows a path, `leaves` lists what all of the
paths lead to, and `copath` lists the siblings along one path. The siblings give back every leaf
but the one the path leads to.

## Main results

* `leaves_succ` — the leaves of both subtrees, one after the other.
* `eraseIdx_leaves_left`, `eraseIdx_leaves_right` — all leaves but one, by subtree.
* `ldiff_two_pow` — clearing the highest bit of a position is the step to the subtree.
-/

namespace SinglePassPIR.PerfectTree

universe u
variable {α : Type u} (left right : α → α)

/-- Leaf `i` of the tree of height `h`. -/
def leafAt : ℕ → α → ℕ → α
  | 0, root, _ => root
  | h + 1, root, i =>
      if i < 2 ^ h then leafAt h (left root) i else leafAt h (right root) (i - 2 ^ h)

/-- All leaves, from left to right. -/
def leaves (h : ℕ) (root : α) : List α := (List.range (2 ^ h)).map (leafAt left right h root)

/-- The siblings along the path to leaf `i`, from the top down. -/
def copath : ℕ → α → ℕ → List α
  | 0, _, _ => []
  | h + 1, root, i =>
      if i < 2 ^ h then right root :: copath h (left root) i
      else left root :: copath h (right root) (i - 2 ^ h)

@[simp] theorem length_leaves (h : ℕ) (root : α) : (leaves left right h root).length = 2 ^ h := by
  simp [leaves]

@[simp] theorem leaves_zero (root : α) : leaves left right 0 root = [root] := rfl

@[simp] theorem length_copath (h : ℕ) (root : α) (i : ℕ) :
    (copath left right h root i).length = h := by
  induction h generalizing root i with
  | zero => rfl
  | succ h ih =>
      rw [copath]
      split_ifs <;> simp [ih]

theorem getElem?_leaves {h i : ℕ} (root : α) (hi : i < 2 ^ h) :
    (leaves left right h root)[i]? = some (leafAt left right h root i) := by
  simp [leaves, hi]

/-- **The leaves of both subtrees**, one after the other. -/
theorem leaves_succ (h : ℕ) (root : α) :
    leaves left right (h + 1) root =
      leaves left right h (left root) ++ leaves left right h (right root) := by
  have hsplit : 2 ^ (h + 1) = 2 ^ h + 2 ^ h := by
    rw [Nat.pow_succ]
    ring
  rw [leaves, hsplit, List.range_add, List.map_append, List.map_map, leaves, leaves]
  congr 1
  · apply List.map_congr_left
    intro i hi
    rw [leafAt, if_pos (List.mem_range.mp hi)]
  · apply List.map_congr_left
    intro i _
    simp [leafAt]

/-- Without a leaf of the left subtree. -/
theorem eraseIdx_leaves_left {h i : ℕ} (root : α) (hi : i < 2 ^ h) :
    (leaves left right (h + 1) root).eraseIdx i =
      (leaves left right h (left root)).eraseIdx i ++ leaves left right h (right root) := by
  rw [leaves_succ, List.eraseIdx_append_of_lt_length (by simpa using hi)]

/-- Without a leaf of the right subtree. -/
theorem eraseIdx_leaves_right {h i : ℕ} (root : α) (hi : 2 ^ h ≤ i) :
    (leaves left right (h + 1) root).eraseIdx i =
      leaves left right h (left root) ++
        (leaves left right h (right root)).eraseIdx (i - 2 ^ h) := by
  rw [leaves_succ, List.eraseIdx_append_of_length_le (by simpa using hi), length_leaves]

/-- **Clearing the highest bit of a position** leads to its place in the subtree. -/
theorem ldiff_two_pow {h i : ℕ} (hi : i < 2 ^ (h + 1)) :
    Nat.ldiff i (1 <<< h) = if i < 2 ^ h then i else i - 2 ^ h := by
  have hmod : Nat.ldiff i (1 <<< h) = i % 2 ^ h := by
    apply Nat.eq_of_testBit_eq
    intro k
    rw [Nat.testBit_ldiff, Nat.one_shiftLeft, Nat.testBit_two_pow, Nat.testBit_mod_two_pow]
    by_cases hk : k < h
    · simp [hk, hk.ne']
    · by_cases hkh : h = k
      · simp [hkh]
      · have hhigh : i.testBit k = false :=
          Nat.testBit_lt_two_pow (hi.trans_le (Nat.pow_le_pow_right (by decide) (by omega)))
        simp [hhigh]
  rw [hmod]
  split_ifs with hlt
  · exact Nat.mod_eq_of_lt hlt
  · rw [Nat.pow_succ] at hi
    rw [Nat.mod_eq_sub_mod (Nat.le_of_not_lt hlt), Nat.mod_eq_of_lt (by omega)]

end SinglePassPIR.PerfectTree
