import Mathlib.Algebra.Group.Action.Defs
import Mathlib.Algebra.Order.BigOperators.Ring.Finset
import Mathlib.SetTheory.Cardinal.Finite

/-!
# Nearly uniform maps

A map from randomness to samples is uniform up to its bounds if every sample has between `lo` and
`hi` preimages. The bounds of a family of samples multiply, another naming of the samples keeps them,
and two events of the samples that are equally large differ by at most the ratio of the bounds in
terms of the randomness.

## Main results

* `NearUniform.pi` — independent samples.
* `NearUniform.card_le_card` — events of equal size.
-/

namespace SinglePassPIR

/-- Every value has at least `lo` and at most `hi` preimages. -/
def NearUniform {α β : Type*} (f : α → β) (lo hi : ℕ) : Prop :=
  ∀ b, lo ≤ Nat.card {a // f a = b} ∧ Nat.card {a // f a = b} ≤ hi

namespace NearUniform
variable {α β γ : Type*} {f : α → β} {lo hi : ℕ}

/-- Another naming of the randomness. -/
theorem comp_equiv (h : NearUniform f lo hi) (e : γ ≃ α) : NearUniform (f ∘ e) lo hi := by
  intro b
  have hcard : Nat.card {c // (f ∘ e) c = b} = Nat.card {a // f a = b} :=
    Nat.card_congr (e.subtypeEquiv fun _ => Iff.rfl)
  rw [hcard]
  exact h b

/-- Samples that are decided by other samples, and decide them. -/
theorem of_iff (h : NearUniform f lo hi) {g : α → γ} (hg : ∀ c, ∃ b, ∀ a, g a = c ↔ f a = b) :
    NearUniform g lo hi := by
  intro c
  obtain ⟨b, hb⟩ := hg c
  have hcard : Nat.card {a // g a = c} = Nat.card {a // f a = b} :=
    Nat.card_congr (Equiv.subtypeEquivRight hb)
  rw [hcard]
  exact h b

/-- The preimages of a family of values. -/
theorem card_pi_fiber {ι : Type*} [Fintype ι] {α β : ι → Type*} (f : ∀ i, α i → β i) (b : ∀ i, β i) :
    Nat.card {a : ∀ i, α i // (fun i => f i (a i)) = b} =
      ∏ i, Nat.card {a : α i // f i a = b i} := by
  rw [← Nat.card_pi]
  refine Nat.card_congr ((Equiv.subtypeEquivRight fun a => ?_).trans Equiv.subtypePiEquivPi)
  exact funext_iff

/-- **Independent samples.** -/
theorem pi {ι : Type*} [Fintype ι] {α β : ι → Type*} {f : ∀ i, α i → β i} {lo hi : ι → ℕ}
    (h : ∀ i, NearUniform (f i) (lo i) (hi i)) :
    NearUniform (fun (a : ∀ i, α i) i => f i (a i)) (∏ i, lo i) (∏ i, hi i) := by
  intro b
  rw [card_pi_fiber]
  exact ⟨Finset.prod_le_prod' fun i _ => (h i (b i)).1,
    Finset.prod_le_prod' fun i _ => (h i (b i)).2⟩

/-- The randomness of an event, counted through the samples. -/
theorem card_eq_sum [Finite α] [Finite γ] [Finite β] (f : α → β) (P : β → γ → Prop)
    [Fintype {y : β × γ // P y.1 y.2}] :
    Nat.card {x : α × γ // P (f x.1) x.2} =
      ∑ y : {y : β × γ // P y.1 y.2}, Nat.card {a // f a = y.1.1} := by
  let g : {x : α × γ // P (f x.1) x.2} → {y : β × γ // P y.1 y.2} :=
    fun x => ⟨(f x.1.1, x.1.2), x.2⟩
  rw [← Nat.card_congr (Equiv.sigmaFiberEquiv g), Nat.card_sigma]
  refine Finset.sum_congr rfl fun y _ => Nat.card_congr ?_
  -- the second component is the one of `y`
  exact
    { toFun := fun x => ⟨x.1.1.1, congrArg (fun y => y.1.1) x.2⟩
      invFun := fun a => ⟨⟨(a.1, y.1.2), by rw [a.2]; exact y.2⟩, Subtype.ext (Prod.ext a.2 rfl)⟩
      left_inv := by
        intro x
        have hsnd : x.1.1.2 = y.1.2 := congrArg (fun y => y.1.2) x.2
        exact Subtype.ext (Subtype.ext (Prod.ext rfl hsnd.symm))
      right_inv := fun a => rfl }

variable [Finite α] [Finite β] [Finite γ]

theorem card_le (h : NearUniform f lo hi) (P : β → γ → Prop) :
    Nat.card {x : α × γ // P (f x.1) x.2} ≤ hi * Nat.card {y : β × γ // P y.1 y.2} := by
  have : Fintype {y : β × γ // P y.1 y.2} := Fintype.ofFinite _
  rw [card_eq_sum f P, Nat.card_eq_fintype_card, mul_comm, ← smul_eq_mul]
  exact Finset.sum_le_card_nsmul _ _ hi fun y _ => (h y.1.1).2

theorem le_card (h : NearUniform f lo hi) (P : β → γ → Prop) :
    lo * Nat.card {y : β × γ // P y.1 y.2} ≤ Nat.card {x : α × γ // P (f x.1) x.2} := by
  have : Fintype {y : β × γ // P y.1 y.2} := Fintype.ofFinite _
  rw [card_eq_sum f P, Nat.card_eq_fintype_card, mul_comm, ← smul_eq_mul]
  exact Finset.card_nsmul_le_sum _ _ lo fun y _ => (h y.1.1).1

/-- **Events of equal size** differ by at most the ratio of the bounds. -/
theorem card_le_card (h : NearUniform f lo hi) {P Q : β → γ → Prop}
    (heq : Nat.card {y : β × γ // P y.1 y.2} = Nat.card {y : β × γ // Q y.1 y.2}) :
    lo * Nat.card {x : α × γ // P (f x.1) x.2} ≤ hi * Nat.card {x : α × γ // Q (f x.1) x.2} :=
  calc lo * Nat.card {x : α × γ // P (f x.1) x.2}
      ≤ lo * (hi * Nat.card {y : β × γ // Q y.1 y.2}) :=
        Nat.mul_le_mul_left lo (heq ▸ h.card_le P)
    _ = hi * (lo * Nat.card {y : β × γ // Q y.1 y.2}) := Nat.mul_left_comm ..
    _ ≤ hi * Nat.card {x : α × γ // Q (f x.1) x.2} := Nat.mul_le_mul_left hi (h.le_card Q)

end NearUniform

end SinglePassPIR
