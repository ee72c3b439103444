import Mathlib.Data.Finset.Card
import Mathlib.Data.Nat.Find
import Mathlib.Logic.Function.Basic
import Mathlib.Tactic.Common

/-!
# Open addressing with linear probing

A table of `size` slots holds values of any type; one value marks the free slots. A value is looked
for from the slot of its hash on, one slot after the other and round the table, up to the first slot
that holds it or is free. `Probed` is the invariant that makes this right: on the way from its hash
to a stored value no slot is free.

## Main results

* `exists_stopsAt` — a probe of a table with a free slot stops.
* `Probed.notStored` — a value whose probe stops at a free slot is not in the table.
* `Probed.insert` — putting it there keeps the invariant.
-/

namespace SinglePassPIR.Probing

variable {α : Type} (free : α) (size : ℕ) (hash : α → ℕ)

/-- The slot after `k` steps from slot `h`, round the table. -/
def slotAt (h k : ℕ) : ℕ := (h + k) % size

/-- Every stored value is reached from its hash without a free slot on the way. -/
def Probed (table : ℕ → α) : Prop :=
  ∀ z < size, table z ≠ free → ∃ k, slotAt size (hash (table z)) k = z ∧
    ∀ j < k, table (slotAt size (hash (table z)) j) ≠ free

/-- A probe for `e` stops after `k` steps: at `e` or at a free slot, and at none before. -/
structure StopsAt (table : ℕ → α) (e : α) (k : ℕ) : Prop where
  stop : table (slotAt size (hash e) k) = free ∨ table (slotAt size (hash e) k) = e
  before : ∀ j < k, table (slotAt size (hash e) j) ≠ free ∧ table (slotAt size (hash e) j) ≠ e

/-- The values other than the mark that the table holds are those of `s`. -/
def Stores (table : ℕ → α) (s : α → Prop) : Prop := ∀ e ≠ free, (∃ z < size, table z = e) ↔ s e

/-- The slots that are not free. -/
def occupied [DecidableEq α] (table : ℕ → α) : Finset ℕ :=
  (Finset.range size).filter fun z => table z ≠ free

variable {free size hash} {table : ℕ → α} {e : α} {k : ℕ}

theorem slotAt_lt (hsize : 0 < size) (h k : ℕ) : slotAt size h k < size := Nat.mod_lt _ hsize

/-- The step from a slot to the next. -/
theorem slotAt_succ (hsize : 0 < size) (h k : ℕ) :
    slotAt size h (k + 1) = if size ≤ slotAt size h k + 1 then 0 else slotAt size h k + 1 := by
  have hlt := slotAt_lt hsize h k
  have hstep : slotAt size h (k + 1) = (slotAt size h k + 1) % size := by
    rw [slotAt, slotAt, Nat.mod_add_mod, Nat.add_assoc]
  rw [hstep]
  split_ifs with hle
  · have hend : slotAt size h k + 1 = size := by omega
    rw [hend, Nat.mod_self]
  · exact Nat.mod_eq_of_lt (by omega)

/-- Every slot is reached from every other. -/
theorem exists_slotAt_eq {z : ℕ} (hz : z < size) (h : ℕ) : ∃ k < size, slotAt size h k = z := by
  have hpos : 0 < size := Nat.zero_lt_of_lt hz
  have hlt := Nat.mod_lt h hpos
  by_cases hle : h % size ≤ z
  · refine ⟨z - h % size, by omega, ?_⟩
    rw [slotAt, Nat.add_mod, Nat.mod_eq_of_lt (by omega : z - h % size < size),
      Nat.add_sub_cancel' hle, Nat.mod_eq_of_lt hz]
  · refine ⟨size - h % size + z, by omega, ?_⟩
    have hsum : h % size + (size - h % size + z) = size + z := by omega
    rw [slotAt, Nat.add_mod, Nat.mod_eq_of_lt (by omega : size - h % size + z < size), hsum,
      Nat.add_mod_left, Nat.mod_eq_of_lt hz]

/-- **A probe of a table with a free slot stops**, before it has gone round. -/
theorem exists_stopsAt [DecidableEq α] {z : ℕ} (hz : z < size) (hfree : table z = free) (e : α) :
    ∃ k < size, StopsAt free size hash table e k := by
  obtain ⟨m, hm, hslot⟩ := exists_slotAt_eq hz (hash e)
  have hex : ∃ k, table (slotAt size (hash e) k) = free ∨ table (slotAt size (hash e) k) = e :=
    ⟨m, Or.inl (by rw [hslot, hfree])⟩
  refine ⟨Nat.find hex, ?_, Nat.find_spec hex, fun j hj => ?_⟩
  · exact (Nat.find_min' hex (Or.inl (by rw [hslot, hfree]))).trans_lt hm
  · exact not_or.mp (Nat.find_min hex hj)

/-- **A value whose probe stops at a free slot is not in the table.** -/
theorem Probed.notStored (h : Probed free size hash table) (hstop : StopsAt free size hash table e k)
    (he : e ≠ free) (hfree : table (slotAt size (hash e) k) = free) : ∀ z < size, table z ≠ e := by
  intro z hz hze
  obtain ⟨m, hm, hchain⟩ := h z hz (by rwa [hze])
  rw [hze] at hm hchain
  cases Nat.lt_trichotomy m k with
  | inl hlt => exact (hstop.before m hlt).2 (by rw [hm, hze])
  | inr hge =>
      cases hge with
      | inl heq =>
          rw [← heq, hm, hze] at hfree
          exact he hfree
      | inr hgt => exact hchain k hgt hfree

/-- **Putting a value where its probe stops keeps the invariant.** -/
theorem Probed.insert (h : Probed free size hash table) (hstop : StopsAt free size hash table e k)
    (he : e ≠ free) : Probed free size hash (Function.update table (slotAt size (hash e) k) e) := by
  intro z hz hne
  -- a slot that was not free is not free now
  have hkeep : ∀ y, table y ≠ free → Function.update table (slotAt size (hash e) k) e y ≠ free := by
    intro y hy
    by_cases hyp : y = slotAt size (hash e) k
    · rw [hyp, Function.update_self]
      exact he
    · rwa [Function.update_of_ne hyp]
  by_cases hzp : z = slotAt size (hash e) k
  · rw [hzp, Function.update_self]
    exact ⟨k, rfl, fun j hj => hkeep _ (hstop.before j hj).1⟩
  · rw [Function.update_of_ne hzp] at hne ⊢
    obtain ⟨m, hm, hchain⟩ := h z hz hne
    exact ⟨m, hm, fun j hj => hkeep _ (hchain j hj)⟩

theorem Stores.insert {s : α → Prop} (h : Stores free size table s) {p : ℕ} (hp : p < size)
    (hfree : table p = free) (e : α) :
    Stores free size (Function.update table p e) fun x => x = e ∨ s x := by
  intro x hx
  dsimp only
  rw [← h x hx]
  constructor
  · rintro ⟨z, hz, hzx⟩
    by_cases hzp : z = p
    · rw [hzp, Function.update_self] at hzx
      exact Or.inl hzx.symm
    · rw [Function.update_of_ne hzp] at hzx
      exact Or.inr ⟨z, hz, hzx⟩
  · rintro (rfl | ⟨z, hz, hzx⟩)
    · exact ⟨p, hp, Function.update_self ..⟩
    · refine ⟨z, hz, ?_⟩
      rw [Function.update_of_ne, hzx]
      rintro rfl
      exact hx (hzx.symm.trans hfree)

variable [DecidableEq α]

theorem card_occupied_update_le (table : ℕ → α) (p : ℕ) (e : α) :
    (occupied free size (Function.update table p e)).card ≤ (occupied free size table).card + 1 := by
  refine (Finset.card_le_card ?_).trans (Finset.card_insert_le p _)
  intro z hz
  simp only [occupied, Finset.mem_filter, Finset.mem_insert] at hz ⊢
  by_cases hzp : z = p
  · exact Or.inl hzp
  · rw [Function.update_of_ne hzp] at hz
    exact Or.inr hz

/-- A table that is not full has a free slot. -/
theorem exists_free (h : (occupied free size table).card < size) : ∃ z < size, table z = free := by
  by_contra hcon
  push Not at hcon
  have hall : occupied free size table = Finset.range size :=
    Finset.filter_true_of_mem fun z hz => hcon z (Finset.mem_range.mp hz)
  rw [hall, Finset.card_range] at h
  exact Nat.lt_irrefl _ h

end SinglePassPIR.Probing
