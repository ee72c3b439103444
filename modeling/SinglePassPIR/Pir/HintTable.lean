import SinglePassPIR.Lib.Bytes
import Mathlib.Tactic.Abel
import Mathlib.GroupTheory.Perm.Basic
import Mathlib.Algebra.BigOperators.Group.Finset.Piecewise

/-!
# The hint table

What the SinglePass client is for, away from bytes and arrays. The database is a family
`row j x` of elements of an XOR group: `chunks` chunks `j`, each with the columns `x : κ`.
A hint table has a permutation of the columns for each chunk and one parity `hint h` for
each column, and it *matches* a database when `hint h` is the XOR over the chunks `j` of
`row j (perm j h)`.

A read of column `x` of chunk `j₀` finds the position `q` of `x` in the permutation of
`j₀`. It fetches, for a random position `r j` of each chunk, the row there (from the
offline server) and, for each other chunk, the row at `q` (from the online server); the
online server sees `r j₀` in place of the position `q` of the queried chunk. The row is
what is left of `hint q`, and the table is refreshed by exchanging the positions `q` and
`r j` in every permutation.

## Main results

* `recovered_eq` — the row that a read recovers is the row it asked for.
* `refresh_matches` — the refreshed table still matches the database.
-/

namespace SinglePassPIR.Pir

/-- The abstract state of a SinglePass client. -/
structure HintTable (κ G : Type*) where
  chunks : ℕ
  perm : ℕ → Equiv.Perm κ
  hint : κ → G

namespace HintTable
variable {κ G : Type*} [XorGroup G]

/-- Every hint is the XOR of the rows at its position. -/
def Matches (t : HintTable κ G) (row : ℕ → κ → G) : Prop :=
  ∀ h, t.hint h = ∑ j ∈ Finset.range t.chunks, row j (t.perm j h)

/-- The position in chunk `j` of which the online server is asked the row. -/
def onlinePos (j₀ : ℕ) (q : κ) (r : ℕ → κ) (j : ℕ) : κ := if j = j₀ then r j else q

/-- The two servers' answers are the rows at the positions of a read. -/
structure Answers (t : HintTable κ G) (row : ℕ → κ → G) (j₀ : ℕ) (q : κ) (r : ℕ → κ)
    (a₀ a₁ : ℕ → G) : Prop where
  offline : ∀ j < t.chunks, a₀ j = row j (t.perm j (r j))
  online : ∀ j < t.chunks, a₁ j = row j (t.perm j (onlinePos j₀ q r j))

/-- The row that is left of the hint at `q` after the online answers. -/
def recovered (t : HintTable κ G) (j₀ : ℕ) (q : κ) (a₁ : ℕ → G) : G :=
  ∑ j ∈ Finset.range t.chunks, a₁ j + t.hint q + a₁ j₀

variable {t : HintTable κ G} {row : ℕ → κ → G} {j₀ : ℕ} {q : κ} {r : ℕ → κ} {a₀ a₁ : ℕ → G}

/-- **A read recovers the row it asked for.** -/
theorem recovered_eq (hm : t.Matches row) (ha : t.Answers row j₀ q r a₀ a₁)
    (hj₀ : j₀ < t.chunks) : t.recovered j₀ q a₁ = row j₀ (t.perm j₀ q) := by
  have hmem : j₀ ∈ Finset.range t.chunks := Finset.mem_range.mpr hj₀
  -- away from the queried chunk the online answers are the rows of `hint q`
  have hrest : ∑ j ∈ (Finset.range t.chunks).erase j₀, a₁ j =
      ∑ j ∈ (Finset.range t.chunks).erase j₀, row j (t.perm j q) := by
    apply Finset.sum_congr rfl
    intro j hj
    obtain ⟨hne, hj⟩ := Finset.mem_erase.mp hj
    rw [ha.online j (Finset.mem_range.mp hj), onlinePos, if_neg hne]
  rw [recovered, hm q, ← Finset.add_sum_erase _ a₁ hmem, ← Finset.add_sum_erase _ _ hmem, hrest]
  generalize ∑ j ∈ (Finset.range t.chunks).erase j₀, row j (t.perm j q) = rest
  calc a₁ j₀ + rest + (row j₀ (t.perm j₀ q) + rest) + a₁ j₀
      = row j₀ (t.perm j₀ q) + (a₁ j₀ + a₁ j₀) + (rest + rest) := by abel
    _ = row j₀ (t.perm j₀ q) := by simp

variable [DecidableEq κ]

/-- The permutations after a read. -/
def refreshPerm (t : HintTable κ G) (q : κ) (r : ℕ → κ) (j : ℕ) : Equiv.Perm κ :=
  t.perm j * Equiv.swap q (r j)

/-- The hints after a read: `hint q` is replaced by the XOR of the offline answers, each
`hint (r j)` exchanges its row of chunk `j`, and in the queried chunk the recovered row
stands in for the online answer. -/
def refreshHint (t : HintTable κ G) (j₀ : ℕ) (q : κ) (r : ℕ → κ) (a₀ a₁ : ℕ → G) (h : κ) : G :=
  (if h = q then ∑ j ∈ Finset.range t.chunks, a₀ j else t.hint h) +
    ∑ j ∈ Finset.range t.chunks, (if r j = h then a₀ j + a₁ j else 0) +
    if r j₀ = h then a₁ j₀ + t.recovered j₀ q a₁ else 0

/-- The table after a read. -/
def refresh (t : HintTable κ G) (j₀ : ℕ) (q : κ) (r : ℕ → κ) (a₀ a₁ : ℕ → G) :
    HintTable κ G where
  chunks := t.chunks
  perm := t.refreshPerm q r
  hint := t.refreshHint j₀ q r a₀ a₁

/-- XOR an element into one hint. -/
def addHint (t : HintTable κ G) (s : κ) (d : G) : HintTable κ G :=
  { t with hint := Function.update t.hint s (t.hint s + d) }

/-- Exchange the positions `q` and `s` in the permutation of chunk `j`. -/
def exchange (t : HintTable κ G) (j : ℕ) (q s : κ) : HintTable κ G :=
  { t with perm := Function.update t.perm j (t.perm j * Equiv.swap q s) }

/-- The table when the refresh has done the chunks before `i`. -/
def partialRefresh (t : HintTable κ G) (q : κ) (r : ℕ → κ) (a₀ a₁ : ℕ → G) (i : ℕ) :
    HintTable κ G where
  chunks := t.chunks
  perm j := if j < i then t.refreshPerm q r j else t.perm j
  hint h := (if h = q then ∑ j ∈ Finset.range t.chunks, a₀ j else t.hint h) +
    ∑ j ∈ Finset.range i, if r j = h then a₀ j + a₁ j else 0

/-- The refresh goes chunk by chunk. -/
theorem partialRefresh_succ (t : HintTable κ G) (q : κ) (r : ℕ → κ) (a₀ a₁ : ℕ → G) (i : ℕ) :
    (((t.partialRefresh q r a₀ a₁ i).addHint (r i) (a₀ i)).addHint (r i) (a₁ i)).exchange
      i q (r i) = t.partialRefresh q r a₀ a₁ (i + 1) := by
  simp only [exchange, addHint, partialRefresh, HintTable.mk.injEq, true_and]
  constructor
  · funext j
    rw [Function.update_apply]
    by_cases hj : j = i
    · rw [if_pos hj, if_neg (by omega), if_pos (by omega), hj, refreshPerm]
    · rw [if_neg hj]
      exact if_congr (by omega) rfl rfl
  · funext h
    rw [Function.update_self, Function.update_idem, Function.update_apply,
      Finset.sum_range_succ]
    by_cases hh : h = r i
    · rw [if_pos hh, if_pos hh.symm, hh]
      simp only [add_assoc]
    · rw [if_neg hh, if_neg (Ne.symm hh), add_zero]

/-- The fix-up of the queried chunk completes the refresh. -/
theorem partialRefresh_fixup (t : HintTable κ G) (j₀ : ℕ) (q : κ) (r : ℕ → κ) (a₀ a₁ : ℕ → G)
    (h : κ) :
    (((t.partialRefresh q r a₀ a₁ t.chunks).addHint (r j₀) (a₁ j₀)).addHint (r j₀)
      (t.recovered j₀ q a₁)).hint h = (t.refresh j₀ q r a₀ a₁).hint h := by
  simp only [addHint, Function.update_self, Function.update_idem, Function.update_apply,
    partialRefresh, refresh, refreshHint]
  by_cases hh : h = r j₀
  · rw [if_pos hh, if_pos hh.symm, hh]
    simp only [add_assoc]
  · rw [if_neg hh, if_neg (Ne.symm hh), add_zero]

/-- The XOR that a read makes into `hint h`, chunk by chunk. -/
theorem sum_exchange (hm : t.Matches row) (ha : t.Answers row j₀ q r a₀ a₁)
    (hj₀ : j₀ < t.chunks) (h : κ) :
    ∑ j ∈ Finset.range t.chunks, (if r j = h then a₀ j + a₁ j else 0) +
        (if r j₀ = h then a₁ j₀ + t.recovered j₀ q a₁ else 0) =
      ∑ j ∈ Finset.range t.chunks,
        if r j = h then row j (t.perm j (r j)) + row j (t.perm j q) else 0 := by
  have hmem : j₀ ∈ Finset.range t.chunks := Finset.mem_range.mpr hj₀
  have hrest : ∑ j ∈ (Finset.range t.chunks).erase j₀, (if r j = h then a₀ j + a₁ j else 0) =
      ∑ j ∈ (Finset.range t.chunks).erase j₀,
        if r j = h then row j (t.perm j (r j)) + row j (t.perm j q) else 0 := by
    apply Finset.sum_congr rfl
    intro j hj
    obtain ⟨hne, hj⟩ := Finset.mem_erase.mp hj
    rw [ha.offline j (Finset.mem_range.mp hj), ha.online j (Finset.mem_range.mp hj), onlinePos,
      if_neg hne]
  -- in the queried chunk both answers are the same row, and the last term supplies the rest
  have hspecial : a₀ j₀ = a₁ j₀ := by
    rw [ha.offline j₀ hj₀, ha.online j₀ hj₀, onlinePos, if_pos rfl]
  rw [← Finset.add_sum_erase _ _ hmem, ← Finset.add_sum_erase (Finset.range t.chunks)
    (fun j => if r j = h then row j (t.perm j (r j)) + row j (t.perm j q) else 0) hmem, hrest,
    recovered_eq hm ha hj₀, ← hspecial, ha.offline j₀ hj₀]
  by_cases hr : r j₀ = h
  · simp only [if_pos hr, XorGroup.add_self, zero_add]
    rw [add_comm]
  · simp only [if_neg hr, zero_add, add_zero]

/-- **The refreshed table matches the database.** -/
theorem refresh_matches (hm : t.Matches row) (ha : t.Answers row j₀ q r a₀ a₁)
    (hj₀ : j₀ < t.chunks) : (t.refresh j₀ q r a₀ a₁).Matches row := by
  intro h
  have hbase : (if h = q then ∑ j ∈ Finset.range t.chunks, a₀ j else t.hint h) =
      ∑ j ∈ Finset.range t.chunks,
        if h = q then row j (t.perm j (r j)) else row j (t.perm j h) := by
    by_cases hq : h = q
    · simp only [if_pos hq]
      exact Finset.sum_congr rfl fun j hj => ha.offline j (Finset.mem_range.mp hj)
    · simp only [if_neg hq]
      exact hm h
  change t.refreshHint j₀ q r a₀ a₁ h =
    ∑ j ∈ Finset.range t.chunks, row j (t.perm j (Equiv.swap q (r j) h))
  rw [refreshHint, add_assoc, sum_exchange hm ha hj₀, hbase, ← Finset.sum_add_distrib]
  apply Finset.sum_congr rfl
  intro j _
  by_cases hq : h = q
  · subst hq
    rw [if_pos rfl, Equiv.swap_apply_left]
    by_cases hr : r j = h
    · rw [if_pos hr, hr, XorGroup.add_self, add_zero]
    · rw [if_neg hr, add_zero]
  · rw [if_neg hq]
    by_cases hr : r j = h
    · subst hr
      rw [if_pos rfl, Equiv.swap_apply_right, XorGroup.add_self_add]
    · rw [if_neg hr, add_zero, Equiv.swap_apply_of_ne_of_ne hq (Ne.symm hr)]

end HintTable

end SinglePassPIR.Pir
