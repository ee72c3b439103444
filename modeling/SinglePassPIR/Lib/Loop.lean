import SinglePassPIR.Lib.Mem

/-!
# Counted loops that may fault

A body is a partial function `σ → Option σ`: `none` is a fault (a panic, an access
out of bounds, undefined behaviour), and a loop faults as soon as one of its
iterations does. `loop_spec` is the invariant rule in total form, that is, the loop
does not fault and the invariant holds at its end. `loop_eq` is the special case
where the state after each iteration has a closed form.

## Main definitions

* `loop n f s` — run `f 0`, …, `f (n - 1)`, threading a state.
* `loop_spec`, `loop_eq` — the invariant rules.
* `loop_fill` — a loop that fills an array from the front.
-/

namespace SinglePassPIR

universe u
variable {σ : Type u}

/-- Run `f 0`, …, `f (n - 1)` in order; `none` as soon as one iteration faults. -/
def loop : ℕ → (ℕ → σ → Option σ) → σ → Option σ
  | 0, _, s => some s
  | n + 1, f, s => (loop n f s).bind (f n)

@[simp] theorem loop_zero (f : ℕ → σ → Option σ) (s : σ) : loop 0 f s = some s := rfl

theorem loop_succ (n : ℕ) (f : ℕ → σ → Option σ) (s : σ) :
    loop (n + 1) f s = (loop n f s).bind (f n) := rfl

/-- Bodies that agree run alike. -/
theorem loop_congr {n : ℕ} {f g : ℕ → σ → Option σ} {s : σ} (h : ∀ i < n, ∀ t, f i t = g i t) :
    loop n f s = loop n g s := by
  induction n with
  | zero => rfl
  | succ n ih =>
      rw [loop_succ, loop_succ, ih fun i hi => h i (by omega)]
      exact Option.bind_congr fun t _ => h n (by omega) t

/-- A body that faults in every state makes its loop fault. -/
theorem loop_eq_none {n i : ℕ} {f : ℕ → σ → Option σ} {s : σ} (hi : i < n)
    (h : ∀ t, f i t = none) : loop n f s = none := by
  induction n with
  | zero => exact absurd hi (Nat.not_lt_zero i)
  | succ n ih =>
      rw [loop_succ]
      by_cases heq : i = n
      · subst heq
        cases loop i f s with
        | none => rfl
        | some t => exact h t
      · rw [ih (by omega)]
        rfl

/-- **The invariant rule.** An invariant that holds at the start and that every
iteration re-establishes without a fault holds at the end, and the loop gets there. -/
theorem loop_spec {n : ℕ} {f : ℕ → σ → Option σ} {s : σ} (P : ℕ → σ → Prop) (h0 : P 0 s)
    (hstep : ∀ i < n, ∀ t, P i t → ∃ t', f i t = some t' ∧ P (i + 1) t') :
    ∃ t, loop n f s = some t ∧ P n t := by
  induction n with
  | zero => exact ⟨s, rfl, h0⟩
  | succ n ih =>
      obtain ⟨t, ht, hP⟩ := ih fun i hi => hstep i (by omega)
      obtain ⟨t', ht', hP'⟩ := hstep n (by omega) t hP
      exact ⟨t', by rw [loop_succ, ht, Option.bind_some, ht'], hP'⟩

/-- The invariant rule for a loop whose state after `i` iterations is `g i`. -/
theorem loop_eq {n : ℕ} {f : ℕ → σ → Option σ} {s : σ} (g : ℕ → σ) (h0 : g 0 = s)
    (hstep : ∀ i < n, f i (g i) = some (g (i + 1))) : loop n f s = some (g n) := by
  obtain ⟨t, ht, hg⟩ := loop_spec (f := f) (fun i t => t = g i) h0.symm
    fun i hi t h => ⟨g (i + 1), by rw [h, hstep i hi], rfl⟩
  rw [ht, hg]

/-- Partial correctness: what every successful iteration preserves holds at the end of
a loop that did not fault. -/
theorem loop_preserves {n : ℕ} {f : ℕ → σ → Option σ} {s t : σ} (P : ℕ → σ → Prop)
    (h0 : P 0 s) (hstep : ∀ i < n, ∀ u u', P i u → f i u = some u' → P (i + 1) u')
    (h : loop n f s = some t) : P n t := by
  induction n generalizing t with
  | zero =>
      obtain rfl : s = t := by simpa using h
      exact h0
  | succ n ih =>
      rw [loop_succ, Option.bind_eq_some_iff] at h
      obtain ⟨u, hu, hut⟩ := h
      exact hstep n (by omega) u t (ih (fun i hi => hstep i (by omega)) hu) hut

/-- A loop that runs in step with another, on the image of its state. -/
theorem loop_map {τ : Type u} {n : ℕ} {f : ℕ → σ → Option σ} {f' : ℕ → τ → Option τ} (g : σ → τ)
    (P : σ → Prop) {s : σ} (hs : P s)
    (hstep : ∀ i < n, ∀ t, P t → f' i (g t) = (f i t).map g ∧ ∀ t', f i t = some t' → P t') :
    loop n f' (g s) = (loop n f s).map g := by
  induction n with
  | zero => rfl
  | succ n ih =>
      rw [loop_succ, loop_succ, ih fun i hi => hstep i (by omega)]
      cases hloop : loop n f s with
      | none => rfl
      | some t =>
          have hP : P t := loop_preserves (fun _ => P) hs
            (fun i hi u u' hu hf => (hstep i (by omega) u hu).2 u' hf) hloop
          exact (hstep n (by omega) t hP).1

/-- A loop that fills an array from the front: iteration `i` reads no cell of the array but
cell `i`, and stores `g i` there. -/
theorem loop_fill {α : Type u} {n : ℕ} {l : List α} (d : α) (g : ℕ → α)
    {f : ℕ → List α → Option (List α)} (hn : n ≤ l.length)
    (hbody : ∀ i < n, ∀ t : List α, t.length = l.length → t.getD i d = l.getD i d →
      f i t = some (t.set i (g i))) :
    ∃ l', loop n f l = some l' ∧ l'.length = l.length ∧
      ∀ k, l'.getD k d = if k < n then g k else l.getD k d := by
  refine loop_spec (fun i (t : List α) => t.length = l.length ∧
    ∀ k, t.getD k d = if k < i then g k else l.getD k d) ⟨rfl, by simp⟩ ?_
  intro i hi t ⟨hlen, hcells⟩
  refine ⟨t.set i (g i), hbody i hi t hlen (by rw [hcells, if_neg (by omega)]), ?_, ?_⟩
  · rw [List.length_set, hlen]
  · intro k
    rw [getD_set _ _ _ _ _ (by omega), hcells]
    by_cases hk : k = i
    · rw [if_pos hk, if_pos (by omega), hk]
    · rw [if_neg hk]
      exact if_congr (by omega) rfl rfl

end SinglePassPIR
