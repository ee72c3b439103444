import SinglePassPIR.Pir.OnlinePrivacy
import Mathlib.GroupTheory.GroupAction.MultipleTransitivity

/-!
# A read that is made again

The permutations move in `reconstruct` only. A read whose answers do not arrive leaves them
where they are, so the requests of the next read are drawn from the same permutations, and
the online server can compare the two: the rows of two positions of the permutations agree
in every chunk, or in none.

## Main results

* `retriedViews_possible_iff` — the pairs of views that two reads from the same permutations
  can give.
* `card_retriedViews_eq_iff` — which pairs of columns give every pair of views equally often.
* `retriedRead_view_independent_iff` — the same for the client of the source.
-/

namespace SinglePassPIR.Pir
open Psetggm

/-! ## Pairs of views from the same permutations -/

section Families
variable {ι κ : Type} [DecidableEq ι]

/-- The views of reads of the columns `a` and `b` from the same permutations. -/
def retriedViews (a b : ι × κ) (x : (ι → Equiv.Perm κ) × (ι → κ) × (ι → κ)) :
    (ι → κ) × (ι → κ) :=
  (onlineView a x.1 x.2.1, onlineView b x.1 x.2.2)

/-- The pairs of permutations and swaps that give the views `s` and `s'`. -/
abbrev RetriedWith (a b : ι × κ) (s s' : ι → κ) : Type :=
  {x : (ι → Equiv.Perm κ) × (ι → κ) × (ι → κ) // retriedViews a b x = (s, s')}

/-- The rows of one position of the permutations: the view with the wanted row in place. -/
def unmasked (a : ι × κ) (s : ι → κ) : ι → κ := Function.update s a.1 a.2

/-- Two families of rows that agree in every chunk or in none. -/
def Coherent (u w : ι → κ) : Prop := ∀ j j', u j = w j → u j' = w j'

@[simp] theorem unmasked_self (a : ι × κ) (s : ι → κ) : unmasked a s a.1 = a.2 :=
  Function.update_self ..

theorem unmasked_of_ne (a : ι × κ) (s : ι → κ) {j : ι} (hj : j ≠ a.1) : unmasked a s j = s j :=
  Function.update_of_ne hj ..

/-- A view that has the wanted row at its place already. -/
theorem unmasked_eq_self {a : ι × κ} {s : ι → κ} (h : s a.1 = a.2) : unmasked a s = s := by
  rw [unmasked, ← h, Function.update_eq_self]

/-- The view shows the rows of the position of the wanted column. -/
theorem unmasked_onlineView (a : ι × κ) (p : ι → Equiv.Perm κ) (r : ι → κ) :
    unmasked a (onlineView a p r) = fun j => p j ((p a.1).symm a.2) := by
  funext j
  by_cases hj : j = a.1
  · rw [hj, unmasked_self, Equiv.apply_symm_apply]
  · rw [unmasked_of_ne _ _ hj, onlineView, if_neg hj]

omit [DecidableEq ι] in
theorem coherent_self (u : ι → κ) : Coherent u u := fun _ _ _ => rfl

omit [DecidableEq ι] in
theorem coherent_of_ne {u w : ι → κ} (h : ∀ j, u j ≠ w j) : Coherent u w :=
  fun j _ hj => absurd hj (h j)

omit [DecidableEq ι] in
theorem Coherent.symm {u w : ι → κ} (h : Coherent u w) : Coherent w u :=
  fun j j' hj => (h j j' hj.symm).symm

variable [DecidableEq κ]

omit [DecidableEq ι] in
/-- A permutation with two given values. -/
theorem exists_perm_apply {x y x' y' : κ} (h : x = y ↔ x' = y') :
    ∃ τ : Equiv.Perm κ, τ x = x' ∧ τ y = y' := by
  by_cases hxy : x = y
  · exact ⟨Equiv.swap x x', Equiv.swap_apply_left _ _, by
      rw [← hxy, ← h.mp hxy, Equiv.swap_apply_left]⟩
  · have h2 := Equiv.Perm.isMultiplyPretransitive κ 2
    exact MulAction.is_two_pretransitive_iff.mp h2 hxy fun he => hxy (h.mpr he)

/-- **Pairs of views.** Two reads from the same permutations can give two views exactly when
the rows of the two positions agree in every chunk or in none. -/
theorem retriedViews_possible_iff (a b : ι × κ) (s s' : ι → κ) :
    Nonempty (RetriedWith a b s s') ↔ Coherent (unmasked a s) (unmasked b s') := by
  constructor
  · rintro ⟨⟨p, r, r'⟩, hx⟩
    simp only [retriedViews, Prod.mk.injEq] at hx
    obtain ⟨rfl, rfl⟩ := hx
    rw [unmasked_onlineView, unmasked_onlineView]
    intro j j' hj
    exact congrArg (p j') ((p j).injective hj)
  · intro h
    set u := unmasked a s with hu
    set w := unmasked b s' with hw
    -- the permutations whose positions `u a.1` and `w a.1` hold the rows `u` and `w`
    have hperm : ∀ j, ∃ τ : Equiv.Perm κ, τ (u a.1) = u j ∧ τ (w a.1) = w j := by
      intro j
      exact exists_perm_apply ⟨h a.1 j, h j a.1⟩
    choose p hp hp' using hperm
    have hpos : (p a.1).symm a.2 = u a.1 := by
      rw [Equiv.symm_apply_eq, hp, hu, unmasked_self]
    have hpos' : (p b.1).symm b.2 = w a.1 := by
      rw [Equiv.symm_apply_eq, hp', hw, unmasked_self]
    refine ⟨⟨p, fun j => (p j).symm (s j), fun j => (p j).symm (s' j)⟩, ?_⟩
    refine Prod.ext (funext fun j => ?_) (funext fun j => ?_)
    · simp only [retriedViews, onlineView]
      by_cases hj : j = a.1
      · rw [if_pos hj, Equiv.apply_symm_apply]
      · rw [if_neg hj, hpos, hp, hu, unmasked_of_ne _ _ hj]
    · simp only [retriedViews, onlineView]
      by_cases hj : j = b.1
      · rw [if_pos hj, Equiv.apply_symm_apply]
      · rw [if_neg hj, hpos', hp', hw, unmasked_of_ne _ _ hj]

/-! ## Columns that are hidden from the pair of views -/

/-- The pairs of columns `(a, b)` and `(a', b')` that a read and the read after its failure
do not tell apart. -/
def RetryHides (a b a' b' : ι × κ) : Prop :=
  Subsingleton ι ∨ Subsingleton κ ∨ (a' = a ∧ b' = b) ∨
    (a.1 = b.1 ∧ a'.1 = a.1 ∧ b'.1 = b.1 ∧ (a.2 = b.2 ↔ a'.2 = b'.2)) ∨
    (Nat.card ι = 2 ∧ Nat.card κ = 2 ∧ a'.1 = a.1 ∧ b'.1 = b.1 ∧ (a.2 = b.2 ↔ a'.2 = b'.2))

/-- Permutations and swaps after the rows of chunk `c` are renamed by `τ`, with the swaps
changed so that they reach the rows they reached. -/
def renameChunk (c : ι) (τ : Equiv.Perm κ) :
    (ι → Equiv.Perm κ) × (ι → κ) × (ι → κ) ≃ (ι → Equiv.Perm κ) × (ι → κ) × (ι → κ) :=
  Equiv.prodShear (Equiv.piCongrRight fun j => if j = c then Equiv.mulLeft τ else Equiv.refl _)
    fun p => Equiv.prodCongr
      (Equiv.piCongrRight fun j => (p j).trans (if j = c then τ * p j else p j).symm)
      (Equiv.piCongrRight fun j => (p j).trans (if j = c then τ * p j else p j).symm)

omit [DecidableEq κ] in
theorem renameChunk_fst (c : ι) (τ : Equiv.Perm κ)
    (x : (ι → Equiv.Perm κ) × (ι → κ) × (ι → κ)) (j : ι) :
    (renameChunk c τ x).1 j = if j = c then τ * x.1 j else x.1 j := by
  simp only [renameChunk, Equiv.prodShear_apply, Equiv.piCongrRight_apply, Pi.map_apply]
  split <;> rfl

omit [DecidableEq κ] in
/-- A renaming keeps the rows that the swaps reach. -/
theorem renameChunk_reaches (c : ι) (τ : Equiv.Perm κ)
    (x : (ι → Equiv.Perm κ) × (ι → κ) × (ι → κ)) (j : ι) :
    (renameChunk c τ x).1 j ((renameChunk c τ x).2.1 j) = x.1 j (x.2.1 j) ∧
    (renameChunk c τ x).1 j ((renameChunk c τ x).2.2 j) = x.1 j (x.2.2 j) := by
  rw [renameChunk_fst]
  constructor <;> exact Equiv.apply_symm_apply _ _

omit [DecidableEq κ] in
/-- A renaming that keeps the rows of the positions of the two columns keeps the views. -/
theorem retriedViews_renameChunk {a b a' b' : ι × κ} {c : ι} {τ : Equiv.Perm κ}
    {x : (ι → Equiv.Perm κ) × (ι → κ) × (ι → κ)} (ha : a'.1 = a.1) (hb : b'.1 = b.1)
    (hpos : ∀ j ≠ a.1, (renameChunk c τ x).1 j (((renameChunk c τ x).1 a.1).symm a'.2) =
      x.1 j ((x.1 a.1).symm a.2))
    (hpos' : ∀ j ≠ b.1, (renameChunk c τ x).1 j (((renameChunk c τ x).1 b.1).symm b'.2) =
      x.1 j ((x.1 b.1).symm b.2)) :
    retriedViews a' b' (renameChunk c τ x) = retriedViews a b x := by
  refine Prod.ext (funext fun j => ?_) (funext fun j => ?_)
  · simp only [retriedViews, onlineView, ha]
    by_cases hj : j = a.1
    · rw [if_pos hj, if_pos hj, (renameChunk_reaches c τ x j).1]
    · rw [if_neg hj, if_neg hj, hpos j hj]
  · simp only [retriedViews, onlineView, hb]
    by_cases hj : j = b.1
    · rw [if_pos hj, if_pos hj, (renameChunk_reaches c τ x j).2]
    · rw [if_neg hj, if_neg hj, hpos' j hj]

omit [DecidableEq κ] in
theorem card_retriedWith_congr {a b a' b' : ι × κ}
    (e : (ι → Equiv.Perm κ) × (ι → κ) × (ι → κ) ≃ (ι → Equiv.Perm κ) × (ι → κ) × (ι → κ))
    (he : ∀ x, retriedViews a' b' (e x) = retriedViews a b x) (s s' : ι → κ) :
    Nat.card (RetriedWith a b s s') = Nat.card (RetriedWith a' b' s s') :=
  Nat.card_congr (e.subtypeEquiv fun x => by rw [he])

omit [DecidableEq ι] [DecidableEq κ] in
/-- In a type of two elements those that differ from a third are equal. -/
theorem eq_of_ne_of_card_two (h2 : Nat.card κ = 2) {u v w : κ} (hu : u ≠ w) (hv : v ≠ w) :
    u = v := by
  obtain ⟨x, y, -, huniv⟩ := Nat.card_eq_two_iff.mp h2
  have hall : ∀ t : κ, t = x ∨ t = y := by
    intro t
    have ht : t ∈ ({x, y} : Set κ) := huniv ▸ Set.mem_univ t
    exact ht
  rcases hall u with rfl | rfl <;> rcases hall v with rfl | rfl <;>
    rcases hall w with rfl | rfl <;> simp_all

omit [DecidableEq ι] in
theorem swap_apply_ne (h2 : Nat.card κ = 2) {u w : κ} (h : u ≠ w) (t : κ) :
    Equiv.swap u w t ≠ t := by
  by_cases ht : t = u
  · rw [ht, Equiv.swap_apply_left]
    exact Ne.symm h
  · rw [eq_of_ne_of_card_two h2 ht (Ne.symm h), Equiv.swap_apply_right]
    exact h

omit [DecidableEq ι] [DecidableEq κ] in
theorem symm_mul_apply (τ π : Equiv.Perm κ) (y : κ) : (τ * π).symm (τ y) = π.symm y := by
  rw [Equiv.symm_apply_eq, Equiv.Perm.mul_apply, Equiv.apply_symm_apply]

/-- Pairs of columns that are hidden give every pair of views equally often. -/
theorem RetryHides.card_eq {a b a' b' : ι × κ} (h : RetryHides a b a' b') (s s' : ι → κ) :
    Nat.card (RetriedWith a b s s') = Nat.card (RetriedWith a' b' s s') := by
  have same : a.1 = b.1 → a'.1 = a.1 → b'.1 = b.1 → (a.2 = b.2 ↔ a'.2 = b'.2) →
      Nat.card (RetriedWith a b s s') = Nat.card (RetriedWith a' b' s s') := by
    intro hab ha hb hcol
    obtain ⟨τ, hτ, hτ'⟩ := exists_perm_apply hcol
    refine card_retriedWith_congr (renameChunk a.1 τ) (fun x => ?_) s s'
    apply retriedViews_renameChunk ha hb
    · intro j hj
      rw [renameChunk_fst, if_neg hj, renameChunk_fst, if_pos rfl, ← hτ, symm_mul_apply]
    · intro j hj
      rw [renameChunk_fst, if_neg (hab ▸ hj), renameChunk_fst, if_pos hab.symm, ← hτ',
        symm_mul_apply]
  rcases h with hι | hκ | ⟨rfl, rfl⟩ | ⟨hab, ha, hb, hcol⟩ | ⟨hι, hκ, ha, hb, hcol⟩
  · -- one chunk: every view is the row of a random position
    have hview : ∀ (d : ι × κ) (p : ι → Equiv.Perm κ) (r : ι → κ),
        onlineView d p r = fun j => p j (r j) := by
      intro d p r
      funext j
      rw [onlineView, if_pos (Subsingleton.elim j d.1)]
    exact card_retriedWith_congr (Equiv.refl _) (fun x => by simp [retriedViews, hview]) s s'
  · exact card_retriedWith_congr (Equiv.refl _) (fun x => Subsingleton.elim _ _) s s'
  · rfl
  · exact same hab ha hb hcol
  · by_cases hab : a.1 = b.1
    · exact same hab ha hb hcol
    · by_cases hx : a'.2 = a.2
      · have hy : b'.2 = b.2 := by
          by_cases hab2 : a.2 = b.2
          · rw [← hcol.mp hab2, hx, hab2]
          · exact eq_of_ne_of_card_two hκ (fun h => hab2 (hcol.mpr (hx.trans h.symm)))
              fun h => hab2 h.symm
        rw [Prod.ext ha hx, Prod.ext hb hy]
      · -- both wanted rows are the other one, which undoes the renaming of the chunk of `a`
        have hy : b'.2 ≠ b.2 := by
          intro hy
          by_cases hab2 : a.2 = b.2
          · exact hx ((hcol.mp hab2).trans (hy.trans hab2.symm))
          · exact hx (eq_of_ne_of_card_two hκ (fun h => hab2 (hcol.mpr (h.trans hy.symm)))
              hab2)
        refine card_retriedWith_congr (renameChunk a.1 (Equiv.swap a.2 a'.2)) (fun x => ?_) s s'
        apply retriedViews_renameChunk ha hb
        · intro j hj
          rw [renameChunk_fst, if_neg hj, renameChunk_fst, if_pos rfl]
          nth_rewrite 2 [← Equiv.swap_apply_left a.2 a'.2]
          rw [symm_mul_apply]
        · intro j hj
          obtain rfl : j = a.1 := eq_of_ne_of_card_two hι hj hab
          rw [renameChunk_fst, if_pos rfl, renameChunk_fst, if_neg (Ne.symm hab),
            Equiv.Perm.mul_apply]
          refine eq_of_ne_of_card_two hκ (w := x.1 a.1 ((x.1 b.1).symm b'.2)) ?_ ?_
          · exact swap_apply_ne hκ (Ne.symm hx) _
          · intro h
            exact hy ((x.1 b.1).symm.injective ((x.1 a.1).injective h)).symm

end Families

/-! ## Columns that the pair of views tells apart -/

section Apart
variable {ι κ : Type} [DecidableEq ι] {a b a' b' : ι × κ}

/-- Two columns of one chunk: the views agree outside it if and only if the columns do. -/
theorem coherent_same_chunk (hab : a.1 = b.1) (s s' : ι → κ) :
    Coherent (unmasked a s) (unmasked b s') ↔ ∀ j ≠ a.1, (s j = s' j ↔ a.2 = b.2) := by
  have hb : unmasked b s' a.1 = b.2 := by rw [hab, unmasked_self]
  have hother : ∀ j ≠ a.1, unmasked a s j = s j ∧ unmasked b s' j = s' j := by
    intro j hj
    exact ⟨unmasked_of_ne a s hj, unmasked_of_ne b s' (hab ▸ hj)⟩
  constructor
  · intro h j hj
    have h1 := h j a.1
    have h2 := h a.1 j
    rw [(hother j hj).1, (hother j hj).2, unmasked_self, hb] at h1 h2
    exact ⟨h1, h2⟩
  · intro h
    have hall : ∀ j, unmasked a s j = unmasked b s' j ↔ a.2 = b.2 := by
      intro j
      by_cases hj : j = a.1
      · rw [hj, unmasked_self, hb]
      · rw [(hother j hj).1, (hother j hj).2]
        exact h j hj
    intro j j' hj
    exact (hall j').mpr ((hall j).mp hj)

/-- The pairs of views of `(a, b)` are those of `(a', b')`. -/
def SameViews (a b a' b' : ι × κ) : Prop :=
  ∀ s s' : ι → κ, Coherent (unmasked a s) (unmasked b s') ↔
    Coherent (unmasked a' s) (unmasked b' s')

namespace SameViews

theorem symm (h : SameViews a b a' b') : SameViews a' b' a b := fun s s' => (h s s').symm

/-- The two reads have the same part in a pair of views. -/
theorem swap (h : SameViews a b a' b') : SameViews b a b' a' :=
  fun s s' => ⟨fun hc => ((h s' s).mp hc.symm).symm, fun hc => ((h s' s).mpr hc.symm).symm⟩

/-- A view in which the wanted rows of two chunks are in place. -/
theorem coherent_in_place (hab : a.1 ≠ b.1) :
    ∃ m : ι → κ, m a.1 = a.2 ∧ m b.1 = b.2 ∧ unmasked a m = m ∧ unmasked b m = m := by
  have ha : Function.update (fun _ => a.2) b.1 b.2 a.1 = a.2 := Function.update_of_ne hab ..
  have hb : Function.update (fun _ => a.2) b.1 b.2 b.1 = b.2 := Function.update_self ..
  exact ⟨_, ha, hb, unmasked_eq_self ha, unmasked_eq_self hb⟩

variable [Nontrivial κ]

/-- For columns of two chunks the views tell the chunk of the first read. -/
theorem first_chunk (h : SameViews a b a' b') (hab' : a'.1 ≠ b'.1) : a'.1 = a.1 := by
  by_contra hne
  obtain ⟨m, ha', -, hma, hmb⟩ := coherent_in_place hab'
  obtain ⟨t, ht⟩ := exists_ne (m a.1)
  have hc : Coherent (unmasked a m) (unmasked b m) := by
    rw [h m m, hma, hmb]
    exact coherent_self m
  -- the first view of `(a, b)` does not show the row of chunk `a.1`
  have hsame : unmasked a (Function.update m a.1 t) = unmasked a m := Function.update_idem ..
  rw [← hsame, h, hmb] at hc
  have hrow := hc a'.1 a.1
  rw [unmasked_self, ha', unmasked_of_ne _ _ (Ne.symm hne), Function.update_self] at hrow
  exact ht (hrow rfl)

omit [Nontrivial κ] in
/-- For columns of two chunks the views tell both columns, unless there are two chunks of two
rows. -/
theorem two_columns (h : SameViews a b a' b') (hab : a.1 ≠ b.1) (ha : a'.1 = a.1)
    (hb : b'.1 = b.1) :
    (a' = a ∧ b' = b) ∨ (Nat.card ι = 2 ∧ Nat.card κ = 2 ∧ (a.2 = b.2 ↔ a'.2 = b'.2)) := by
  obtain ⟨m, hma, hmb, hua, hub⟩ := coherent_in_place hab
  have hc : Coherent (unmasked a' m) (unmasked b' m) := by
    rw [← h m m, hua, hub]
    exact coherent_self m
  have haa : unmasked a' m a.1 = a'.2 := by rw [← ha, unmasked_self]
  have hab' : unmasked a' m b.1 = b.2 := by rw [unmasked_of_ne _ _ (ha ▸ Ne.symm hab), hmb]
  have hba : unmasked b' m a.1 = a.2 := by rw [unmasked_of_ne _ _ (hb ▸ hab), hma]
  have hbb : unmasked b' m b.1 = b'.2 := by rw [← hb, unmasked_self]
  have h1 := hc a.1 b.1
  have h2 := hc b.1 a.1
  rw [haa, hba, hab', hbb] at h1 h2
  by_cases hx : a'.2 = a.2
  · exact Or.inl ⟨Prod.ext ha hx, Prod.ext hb (h1 hx).symm⟩
  have hy : b'.2 ≠ b.2 := fun hy => hx (h2 hy.symm)
  have hι : Nat.card ι = 2 := by
    refine Nat.card_eq_two_iff.mpr ⟨a.1, b.1, hab, ?_⟩
    refine Set.eq_univ_of_forall fun j => ?_
    by_contra hj
    simp only [Set.mem_insert_iff, Set.mem_singleton_iff, not_or] at hj
    have hrow := hc j a.1
    rw [unmasked_of_ne _ _ (ha ▸ hj.1), unmasked_of_ne _ _ (hb ▸ hj.2), haa, hba] at hrow
    exact hx (hrow rfl)
  have hκ : Nat.card κ = 2 := by
    refine Nat.card_eq_two_iff.mpr ⟨a.2, a'.2, Ne.symm hx, ?_⟩
    refine Set.eq_univ_of_forall fun t => ?_
    by_contra ht
    simp only [Set.mem_insert_iff, Set.mem_singleton_iff, not_or] at ht
    -- views of `(a, b)` that differ everywhere, and agree in one place for `(a', b')`
    have hd : Coherent (unmasked a (Function.update (fun _ => a.2) b.1 b'.2))
        (unmasked b fun _ => t) := by
      apply coherent_of_ne
      intro j
      rw [unmasked_eq_self (Function.update_of_ne hab ..)]
      by_cases hj : j = b.1
      · rw [hj, Function.update_self, unmasked_self]
        exact hy
      · rw [Function.update_of_ne hj, unmasked_of_ne _ _ hj]
        exact Ne.symm ht.1
    have hrow := (h _ _).mp hd b'.1 a'.1
    rw [unmasked_self, unmasked_self, unmasked_of_ne _ _ (by rw [ha, hb]; exact Ne.symm hab),
      unmasked_of_ne _ _ (by rw [ha, hb]; exact hab), hb, Function.update_self] at hrow
    exact ht.2 (hrow rfl).symm
  refine Or.inr ⟨hι, hκ, ?_, ?_⟩
  · intro hcol
    exact eq_of_ne_of_card_two hκ hx (hcol ▸ hy)
  · intro hcol
    exact eq_of_ne_of_card_two hκ (Ne.symm hx) (hcol ▸ Ne.symm hy)

variable [Nontrivial ι]

/-- Columns of one chunk and columns of two chunks are told apart. -/
theorem two_chunks (h : SameViews a b a' b') (hab : a.1 = b.1) : a'.1 = b'.1 := by
  by_contra hab'
  obtain ⟨j, hj⟩ := exists_ne a.1
  choose other hother using fun t : κ => exists_ne t
  -- two columns of two chunks allow equal views, and views that differ everywhere
  obtain ⟨m, -, -, hma, hmb⟩ := coherent_in_place hab'
  have heq : Coherent (unmasked a' m) (unmasked b' m) := by
    rw [hma, hmb]
    exact coherent_self m
  obtain ⟨m', -, hm', hma', -⟩ := coherent_in_place (b := (b'.1, other b'.2)) hab'
  have hne : Coherent (unmasked a' m') (unmasked b' fun k => other (m' k)) := by
    apply coherent_of_ne
    intro k
    rw [hma']
    by_cases hk : k = b'.1
    · rw [hk, unmasked_self]
      exact hm' ▸ hother _
    · rw [unmasked_of_ne _ _ hk]
      exact (hother _).symm
  have h1 := (coherent_same_chunk hab _ _).mp ((h _ _).mpr heq) j hj
  have h2 := (coherent_same_chunk hab _ _).mp ((h _ _).mpr hne) j hj
  exact hother _ (h2.mpr (h1.mp rfl)).symm

/-- For columns of one chunk the views tell the chunk, and whether it is one column. -/
theorem same_chunk (h : SameViews a b a' b') (hab : a.1 = b.1) (hab' : a'.1 = b'.1) :
    a'.1 = a.1 ∧ (a.2 = b.2 ↔ a'.2 = b'.2) := by
  obtain ⟨j, hj⟩ := exists_ne a.1
  obtain ⟨j', hj'⟩ := exists_ne a'.1
  have hviews := fun s s' => (coherent_same_chunk hab s s').symm.trans
    ((h s s').trans (coherent_same_chunk hab' s s'))
  have hcol : a.2 = b.2 ↔ a'.2 = b'.2 := by
    have hconst := hviews (fun _ => a.2) (fun _ => a.2)
    simp only [true_iff] at hconst
    exact ⟨fun hP => hconst.mp (fun _ _ => hP) j' hj', fun hQ => hconst.mpr (fun _ _ => hQ) j hj⟩
  refine ⟨?_, hcol⟩
  by_contra hne
  obtain ⟨t, ht⟩ := exists_ne a.2
  -- views that are alike outside chunk `a.1` and are not alike in it
  by_cases hP : a.2 = b.2
  · have hlike := (hviews (fun _ => a.2) (Function.update (fun _ => a.2) a.1 t)).mp fun k hk => by
      rw [Function.update_of_ne hk]
      exact iff_of_true rfl hP
    have hrow := hlike a.1 (Ne.symm hne)
    rw [Function.update_self] at hrow
    exact ht (hrow.mpr (hcol.mp hP)).symm
  · have hlike := (hviews (fun _ => a.2) (Function.update (fun _ => t) a.1 a.2)).mp fun k hk => by
      rw [Function.update_of_ne hk]
      exact iff_of_false (Ne.symm ht) hP
    have hrow := hlike a.1 (Ne.symm hne)
    rw [Function.update_self] at hrow
    exact hP (hcol.mpr (hrow.mp rfl))

end SameViews

/-- **Which columns are hidden.** The pairs of columns that give every pair of views equally
often. -/
theorem card_retriedWith_eq_iff [Finite ι] [Finite κ] [DecidableEq κ] :
    (∀ s s', Nat.card (RetriedWith a b s s') = Nat.card (RetriedWith a' b' s s')) ↔
      RetryHides a b a' b' := by
  constructor
  · intro hcard
    have h : SameViews a b a' b' := by
      intro s s'
      rw [← retriedViews_possible_iff, ← retriedViews_possible_iff, ← Finite.card_pos_iff,
        ← Finite.card_pos_iff, hcard]
    rcases subsingleton_or_nontrivial ι with hι | hι
    · exact Or.inl hι
    rcases subsingleton_or_nontrivial κ with hκ | hκ
    · exact Or.inr (Or.inl hκ)
    by_cases hab : a.1 = b.1
    · have hab' := h.two_chunks hab
      obtain ⟨hchunk, hcol⟩ := h.same_chunk hab hab'
      exact Or.inr (Or.inr (Or.inr (Or.inl
        ⟨hab, hchunk, by rw [← hab', hchunk, hab], hcol⟩)))
    · have hab' : a'.1 ≠ b'.1 := fun he => hab (h.symm.two_chunks he)
      have ha := h.first_chunk hab'
      have hb := h.swap.first_chunk (Ne.symm hab')
      rcases h.two_columns hab ha hb with heq | ⟨hι2, hκ2, hcol⟩
      · exact Or.inr (Or.inr (Or.inl heq))
      · exact Or.inr (Or.inr (Or.inr (Or.inr ⟨hι2, hκ2, ha, hb, hcol⟩)))
  · intro h s s'
    exact h.card_eq s s'

end Apart

/-! ## The client -/

/-- `pirReader.Read` on servers whose `Answer` may fail: the requests have left the client
when the first error is returned. -/
def SinglePassClient.tryRead (B : Build)
    (left right : SinglePassQueryReq → Except String SinglePassQueryResp)
    (c : SinglePassClient) (i : ℤ) (swaps : ℕ → ℕ) :
    Option (Except String (List UInt8) × SinglePassClient) := do
  let q ← c.query i swaps
  match left q.left with
  | .error err => some (.error err, c)
  | .ok answer0 =>
      match right q.right with
      | .error err => some (.error err, c)
      | .ok answer1 => c.reconstruct B [answer0, answer1] q.ctx

/-- Of any two requests at least one is not answered. -/
def AnswerFails (left right : SinglePassQueryReq → Except String SinglePassQueryResp) : Prop :=
  ∀ q q', (∃ err, left q = .error err) ∨ ∃ err, right q' = .error err

/-- A read that is not answered leaves the client as it is. -/
theorem SinglePassClient.tryRead_of_fails (B : Build)
    {left right : SinglePassQueryReq → Except String SinglePassQueryResp}
    (hfail : AnswerFails left right) {c : SinglePassClient} {i : ℤ} {swaps : ℕ → ℕ}
    {q : SinglePassQuery} (hq : c.query i swaps = some q) :
    ∃ err, c.tryRead B left right i swaps = some (.error err, c) := by
  simp only [tryRead, hq, Option.bind_eq_bind, Option.bind_some]
  cases hleft : left q.left with
  | error err => exact ⟨err, rfl⟩
  | ok answer0 =>
      rcases hfail q.left q.right with ⟨err, hl⟩ | ⟨err, hr⟩
      · rw [hleft] at hl
        exact absurd hl (by simp)
      · exact ⟨err, by simp only [hr]⟩

section View
variable {S H n : ℕ}

/-- What the online server receives when a read of `i` is not answered and a read of `i'`
follows. -/
def retriedView (B : Build) (left right : SinglePassQueryReq → Except String SinglePassQueryResp)
    (c : SinglePassClient) (i i' : ℤ) (r r' : Fin S → Fin H) : Option (List ℕ × List ℕ) := do
  let q ← c.query i (drawn r)
  let (_, c) ← c.tryRead B left right i (drawn r)
  let q' ← c.query i' (drawn r')
  some (q.right.prSet, q'.right.prSet)

theorem retriedView_eq (B : Build)
    {left right : SinglePassQueryReq → Except String SinglePassQueryResp}
    (hfail : AnswerFails left right) (i i' : Fin (S * H)) (f : Fin H → Bytes n) (v : ℕ)
    (x : (Fin S → Equiv.Perm (Fin H)) × (Fin S → Fin H) × (Fin S → Fin H)) :
    retriedView B left right ((familyTable x.1 f).client v) (i : ℕ) (i' : ℕ) x.2.1 x.2.2 =
      some (List.ofFn fun j => ((retriedViews (finProdFinEquiv.symm i)
          (finProdFinEquiv.symm i') x).1 j : ℕ),
        List.ofFn fun j => ((retriedViews (finProdFinEquiv.symm i)
          (finProdFinEquiv.symm i') x).2 j : ℕ)) := by
  have hcol : ∀ i : Fin (S * H), ((i : ℕ) : ℤ) % ((S * H : ℕ) : ℤ) =
      (((finProdFinEquiv.symm i).1 * H + (finProdFinEquiv.symm i).2 : ℕ) : ℤ) := by
    intro i
    have hval : (i : ℕ) = (finProdFinEquiv.symm i).1 * H + (finProdFinEquiv.symm i).2 := by
      conv_lhs => rw [← finProdFinEquiv.apply_symm_apply i, finProdFinEquiv_apply_val]
      rw [Nat.add_comm, Nat.mul_comm]
    rw [← hval, ← Int.natCast_mod, Nat.mod_eq_of_lt i.isLt]
  have hq := query_family (p := x.1) (r := x.2.1) (f := f) (v := v) (hcol i)
  have hq' := query_family (p := x.1) (r := x.2.2) (f := f) (v := v) (hcol i')
  obtain ⟨err, htry⟩ := SinglePassClient.tryRead_of_fails B hfail hq
  simp only [retriedView, hq, hq', htry, Option.bind_eq_bind, Option.bind_some]
  rfl

/-- The views that a pair of families of rows is sent as. -/
theorem card_retriedView (B : Build)
    {left right : SinglePassQueryReq → Except String SinglePassQueryResp}
    (hfail : AnswerFails left right) (i i' : Fin (S * H))
    (hint : (Fin S → Equiv.Perm (Fin H)) → Fin H → Bytes n) (v : ℕ) (s s' : Fin S → Fin H) :
    Nat.card {x : (Fin S → Equiv.Perm (Fin H)) × (Fin S → Fin H) × (Fin S → Fin H) //
      retriedView B left right ((familyTable x.1 (hint x.1)).client v) (i : ℕ) (i' : ℕ)
        x.2.1 x.2.2 = some (List.ofFn fun j => (s j : ℕ), List.ofFn fun j => (s' j : ℕ))} =
    Nat.card (RetriedWith (finProdFinEquiv.symm i) (finProdFinEquiv.symm i') s s') := by
  have hval : ∀ u w : Fin S → Fin H,
      (List.ofFn fun j => (u j : ℕ)) = (List.ofFn fun j => (w j : ℕ)) ↔ u = w := by
    intro u w
    refine ⟨fun h => funext fun j => Fin.ext (congrFun (List.ofFn_injective h) j), ?_⟩
    rintro rfl
    rfl
  refine Nat.card_congr (Equiv.subtypeEquivRight fun x => ?_)
  rw [retriedView_eq B hfail, Option.some.injEq, Prod.mk.injEq, hval, hval, Prod.ext_iff]

/-- **A read that fails costs privacy.** When a read is not answered and another follows, two
pairs of indices give every pair of views of the online server equally often if and only if
`RetryHides` their columns: with one chunk or one row a chunk, for the same pair, for indices
all in one chunk and equal in both pairs or in neither, and for two chunks of two rows with
the chunks of the pair and its columns equal in both pairs or in neither. -/
theorem retriedRead_view_independent_iff (B : Build)
    (left right : SinglePassQueryReq → Except String SinglePassQueryResp)
    (hfail : AnswerFails left right)
    (hint : (Fin S → Equiv.Perm (Fin H)) → Fin H → Bytes n) (v : ℕ)
    (i i' k k' : Fin (S * H)) :
    (∀ view : List ℕ × List ℕ,
      Nat.card {x : (Fin S → Equiv.Perm (Fin H)) × (Fin S → Fin H) × (Fin S → Fin H) //
        retriedView B left right ((familyTable x.1 (hint x.1)).client v) (i : ℕ) (i' : ℕ)
          x.2.1 x.2.2 = some view} =
      Nat.card {x : (Fin S → Equiv.Perm (Fin H)) × (Fin S → Fin H) × (Fin S → Fin H) //
        retriedView B left right ((familyTable x.1 (hint x.1)).client v) (k : ℕ) (k' : ℕ)
          x.2.1 x.2.2 = some view}) ↔
    RetryHides (finProdFinEquiv.symm i) (finProdFinEquiv.symm i') (finProdFinEquiv.symm k)
      (finProdFinEquiv.symm k') := by
  rw [← card_retriedWith_eq_iff]
  constructor
  · intro h s s'
    rw [← card_retriedView B hfail i i' hint v, ← card_retriedView B hfail k k' hint v, h]
  · intro h view
    by_cases hview : ∃ s s' : Fin S → Fin H,
        view = (List.ofFn fun j => (s j : ℕ), List.ofFn fun j => (s' j : ℕ))
    · obtain ⟨s, s', rfl⟩ := hview
      rw [card_retriedView B hfail, card_retriedView B hfail, h]
    · -- no read is sent as such a view
      have hnone : ∀ i i' : Fin (S * H), IsEmpty
          {x : (Fin S → Equiv.Perm (Fin H)) × (Fin S → Fin H) × (Fin S → Fin H) //
            retriedView B left right ((familyTable x.1 (hint x.1)).client v) (i : ℕ) (i' : ℕ)
              x.2.1 x.2.2 = some view} := by
        intro i i'
        constructor
        rintro ⟨x, hx⟩
        rw [retriedView_eq B hfail, Option.some.injEq] at hx
        exact hview ⟨(retriedViews _ _ x).1, (retriedViews _ _ x).2, hx.symm⟩
      have hi := hnone i i'
      have hk := hnone k k'
      rw [Nat.card_of_isEmpty, Nat.card_of_isEmpty]

/-- Two chunks of two rows: reading the same index again and reading its neighbour. -/
theorem retriedRead_view_independent_iff_two_by_two :
    (∀ view : List ℕ × List ℕ,
      Nat.card {x : (Fin 2 → Equiv.Perm (Fin 2)) × (Fin 2 → Fin 2) × (Fin 2 → Fin 2) //
        retriedView .avx2 (fun _ => .ok ⟨[0, 0]⟩) (fun _ => .error "connection is shut down")
          ((familyTable x.1 fun _ => (0 : Bytes 1)).client 0) ((0 : Fin 4) : ℕ) ((0 : Fin 4) : ℕ)
          x.2.1 x.2.2 = some view} =
      Nat.card {x : (Fin 2 → Equiv.Perm (Fin 2)) × (Fin 2 → Fin 2) × (Fin 2 → Fin 2) //
        retriedView .avx2 (fun _ => .ok ⟨[0, 0]⟩) (fun _ => .error "connection is shut down")
          ((familyTable x.1 fun _ => (0 : Bytes 1)).client 0) ((0 : Fin 4) : ℕ) ((1 : Fin 4) : ℕ)
          x.2.1 x.2.2 = some view}) ↔
    RetryHides (finProdFinEquiv.symm (0 : Fin (2 * 2))) (finProdFinEquiv.symm (0 : Fin (2 * 2)))
      (finProdFinEquiv.symm (0 : Fin (2 * 2))) (finProdFinEquiv.symm (1 : Fin (2 * 2))) :=
  retriedRead_view_independent_iff (S := 2) (H := 2) (n := 1) .avx2 (fun _ => .ok ⟨[0, 0]⟩)
    (fun _ => .error "connection is shut down") (fun _ _ => Or.inr ⟨_, rfl⟩) (fun _ _ => 0) 0
    0 0 0 1

/-- Reading the same index again can show the online server the same rows twice, reading the
neighbour cannot. -/
theorem retriedRead_shows_same_index :
    Nat.card {x : (Fin 2 → Equiv.Perm (Fin 2)) × (Fin 2 → Fin 2) × (Fin 2 → Fin 2) //
      retriedView .avx2 (fun _ => .ok ⟨[0, 0]⟩) (fun _ => .error "connection is shut down")
        ((familyTable x.1 fun _ => (0 : Bytes 1)).client 0) 0 0 x.2.1 x.2.2 =
          some ([0, 0], [0, 0])} ≠
    Nat.card {x : (Fin 2 → Equiv.Perm (Fin 2)) × (Fin 2 → Fin 2) × (Fin 2 → Fin 2) //
      retriedView .avx2 (fun _ => .ok ⟨[0, 0]⟩) (fun _ => .error "connection is shut down")
        ((familyTable x.1 fun _ => (0 : Bytes 1)).client 0) 0 1 x.2.1 x.2.2 =
          some ([0, 0], [0, 0])} := by
  have hsame : Nonempty
      {x : (Fin 2 → Equiv.Perm (Fin 2)) × (Fin 2 → Fin 2) × (Fin 2 → Fin 2) //
        retriedView .avx2 (fun _ => .ok ⟨[0, 0]⟩) (fun _ => .error "connection is shut down")
          ((familyTable x.1 fun _ => (0 : Bytes 1)).client 0) 0 0 x.2.1 x.2.2 =
            some ([0, 0], [0, 0])} :=
    ⟨⟨(fun _ => 1, fun _ => 0, fun _ => 0), by decide +kernel⟩⟩
  have hother : IsEmpty
      {x : (Fin 2 → Equiv.Perm (Fin 2)) × (Fin 2 → Fin 2) × (Fin 2 → Fin 2) //
        retriedView .avx2 (fun _ => .ok ⟨[0, 0]⟩) (fun _ => .error "connection is shut down")
          ((familyTable x.1 fun _ => (0 : Bytes 1)).client 0) 0 1 x.2.1 x.2.2 =
            some ([0, 0], [0, 0])} :=
    Subtype.isEmpty_of_false (by decide +kernel)
  rw [@Nat.card_of_isEmpty _ hother]
  exact (Finite.card_pos_iff.mpr hsame).ne'

end View

end SinglePassPIR.Pir
