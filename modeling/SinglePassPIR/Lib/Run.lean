import Mathlib.Data.Nat.Notation
import Mathlib.Tactic.Common

/-!
# Runs of a deterministic system under an environment

A system is a partial step function: `step s a = some (o, s')` when action `a` (an input
together with the outcome of every random choice) takes `s` to `s'` with output `o`, and
`none` when it faults. `AlwaysUnder step G P s as` says that along the run of the actions
`as` from `s`, as long as the guard `G` holds of the state and the next action, no step
faults and every step satisfies `P`. The guard is where a statement puts what it assumes
of the environment.

`alwaysUnder_of_invariant` packages the induction over runs once. `SafeUnder` is the same without
the promise that no step faults.
-/

namespace SinglePassPIR

universe u v w
variable {σ : Type u} {α : Type v} {ω : Type w}

/-- Every step of the run succeeds and satisfies `P`, as long as the guard holds. -/
def AlwaysUnder (step : σ → α → Option (ω × σ)) (G : σ → α → Prop)
    (P : σ → α → ω → σ → Prop) : σ → List α → Prop
  | _, [] => True
  | s, a :: as => G s a →
      ∃ o s', step s a = some (o, s') ∧ P s a o s' ∧ AlwaysUnder step G P s' as

variable {step : σ → α → Option (ω × σ)} {G : σ → α → Prop} {P : σ → α → ω → σ → Prop}

/-- **Induction along a run.** If one step from a state with the invariant succeeds, satisfies
`P` and re-establishes the invariant, every run from such a state does. -/
theorem alwaysUnder_of_invariant (Inv : σ → Prop)
    (hstep : ∀ s a, Inv s → G s a → ∃ o s', step s a = some (o, s') ∧ P s a o s' ∧ Inv s') :
    ∀ as s, Inv s → AlwaysUnder step G P s as := by
  intro as
  induction as with
  | nil => intro s _; trivial
  | cons a as ih =>
      intro s hs hG
      obtain ⟨o, s', ho, hP, hs'⟩ := hstep s a hs hG
      exact ⟨o, s', ho, hP, ih s' hs'⟩

/-- What a run establishes may be weakened, and its guard strengthened. -/
theorem AlwaysUnder.mono {G' : σ → α → Prop} {P' : σ → α → ω → σ → Prop}
    (hG : ∀ s a, G' s a → G s a) (hP : ∀ s a o s', P s a o s' → P' s a o s') :
    ∀ {as s}, AlwaysUnder step G P s as → AlwaysUnder step G' P' s as := by
  intro as
  induction as with
  | nil => intro s _; trivial
  | cons a as ih =>
      intro s h hG'
      obtain ⟨o, s', ho, hPs, hrest⟩ := h (hG s a hG')
      exact ⟨o, s', ho, hP s a o s' hPs, ih hrest⟩

/-- Every step of the run that succeeds satisfies `P`, as long as the guard holds. A step may
fault, which ends the run. -/
def SafeUnder (step : σ → α → Option (ω × σ)) (G : σ → α → Prop)
    (P : σ → α → ω → σ → Prop) : σ → List α → Prop
  | _, [] => True
  | s, a :: as => G s a →
      ∀ o s', step s a = some (o, s') → P s a o s' ∧ SafeUnder step G P s' as

/-- **Induction along a run that may fault.** -/
theorem safeUnder_of_invariant (Inv : σ → Prop)
    (hstep : ∀ s a o s', Inv s → G s a → step s a = some (o, s') → P s a o s' ∧ Inv s') :
    ∀ as s, Inv s → SafeUnder step G P s as := by
  intro as
  induction as with
  | nil => intro s _; trivial
  | cons a as ih =>
      intro s hs hG o s' ho
      obtain ⟨hP, hs'⟩ := hstep s a o s' hs hG ho
      exact ⟨hP, ih s' hs'⟩

/-- Run the actions in order and collect the outputs. -/
def runActions (step : σ → α → Option (ω × σ)) : σ → List α → Option (List ω × σ)
  | s, [] => some ([], s)
  | s, a :: as => do
      let (o, s) ← step s a
      let (os, s) ← runActions step s as
      some (o :: os, s)

@[simp] theorem runActions_nil (s : σ) : runActions step s [] = some ([], s) := rfl

theorem runActions_cons (s : σ) (a : α) (as : List α) :
    runActions step s (a :: as) = (step s a).bind fun r =>
      (runActions step r.2 as).bind fun r' => some (r.1 :: r'.1, r'.2) := rfl

/-- **Induction along a run that completes**, of actions that are all `V`. -/
theorem runActions_invariant_of {V : α → Prop} (Inv : σ → Prop)
    (hstep : ∀ s a o s', Inv s → V a → step s a = some (o, s') → Inv s') :
    ∀ {as os s s'}, (∀ a ∈ as, V a) → Inv s → runActions step s as = some (os, s') → Inv s' := by
  intro as
  induction as with
  | nil =>
      intro os s s' _ hs hrun
      rw [runActions_nil, Option.some.injEq, Prod.mk.injEq] at hrun
      exact hrun.2 ▸ hs
  | cons a as ih =>
      intro os s s' hV hs hrun
      simp only [runActions_cons, Option.bind_eq_some_iff, Option.some.injEq, Prod.mk.injEq] at hrun
      obtain ⟨⟨o, s₁⟩, h₁, ⟨os', s₂⟩, hrest, -, rfl⟩ := hrun
      have hs₁ := hstep s a o s₁ hs (hV a List.mem_cons_self) h₁
      exact ih (fun b hb => hV b (List.mem_cons_of_mem a hb)) hs₁ hrest

/-- **Induction along a run that completes**, whatever the actions. -/
theorem runActions_invariant (Inv : σ → Prop)
    (hstep : ∀ s a o s', Inv s → step s a = some (o, s') → Inv s') {as : List α} {os : List ω}
    {s s' : σ} (hs : Inv s) (hrun : runActions step s as = some (os, s')) : Inv s' := by
  apply runActions_invariant_of Inv _ (fun _ _ => trivial) hs hrun
  intro s a o s' hs _ ho
  exact hstep s a o s' hs ho

/-- What a run that may fault establishes of the step after a prefix that completes. -/
theorem SafeUnder.last {a : α} {as : List α} {s s' s'' : σ} {os : List ω} {o : ω}
    (h : SafeUnder step G P s (as ++ [a])) (hG : ∀ b ∈ as ++ [a], ∀ s, G s b)
    (hrun : runActions step s as = some (os, s')) (hstep : step s' a = some (o, s'')) :
    P s' a o s'' := by
  induction as generalizing s os with
  | nil =>
      rw [runActions_nil, Option.some.injEq, Prod.mk.injEq] at hrun
      obtain ⟨-, rfl⟩ := hrun
      exact (h (hG a (by simp) s) o s'' hstep).1
  | cons b as ih =>
      simp only [runActions_cons, Option.bind_eq_some_iff, Option.some.injEq, Prod.mk.injEq] at hrun
      obtain ⟨⟨o₁, s₁⟩, h₁, ⟨os', s₂⟩, hrest, -, rfl⟩ := hrun
      exact ih (h (hG b (by simp) s) o₁ s₁ h₁).2 (fun c hc => hG c (List.mem_cons_of_mem b hc)) hrest

/-- Run the actions in order as long as the guard holds. -/
def runUnder (step : σ → α → Option (ω × σ)) (G : σ → α → Prop) [∀ s a, Decidable (G s a)] :
    σ → List α → Option σ
  | s, [] => some s
  | s, a :: as => if G s a then (step s a).bind fun r => runUnder step G r.2 as else none

/-- **Induction along a run that completes.** -/
theorem runUnder_invariant [∀ s a, Decidable (G s a)] (Inv : σ → Prop)
    (hstep : ∀ s a o s', Inv s → G s a → step s a = some (o, s') → Inv s') :
    ∀ {as s s'}, Inv s → runUnder step G s as = some s' → Inv s' := by
  intro as
  induction as with
  | nil =>
      intro s s' hs hrun
      obtain rfl : s = s' := by simpa [runUnder] using hrun
      exact hs
  | cons a as ih =>
      intro s s' hs hrun
      rw [runUnder] at hrun
      by_cases hG : G s a
      · rw [if_pos hG, Option.bind_eq_some_iff] at hrun
        obtain ⟨⟨o, s₁⟩, h₁, hrest⟩ := hrun
        exact ih (hstep s a o s₁ hs hG h₁) hrest
      · rw [if_neg hG] at hrun
        exact absurd hrun.symm (Option.some_ne_none _)

/-- What a run establishes of the step after a guarded prefix. -/
theorem AlwaysUnder.last [∀ s a, Decidable (G s a)] {a : α} {as : List α} {s s' : σ}
    (h : AlwaysUnder step G P s (as ++ [a])) (hrun : runUnder step G s as = some s')
    (hG : G s' a) : ∃ o s'', step s' a = some (o, s'') ∧ P s' a o s'' := by
  induction as generalizing s with
  | nil =>
      obtain rfl : s = s' := by simpa [runUnder] using hrun
      obtain ⟨o, s'', hstep, hP, -⟩ := h hG
      exact ⟨o, s'', hstep, hP⟩
  | cons b as ih =>
      rw [runUnder] at hrun
      by_cases hb : G s b
      · obtain ⟨o, s₁, hstep, -, hrest⟩ := h hb
        rw [if_pos hb, hstep, Option.bind_some] at hrun
        exact ih hrest hrun
      · rw [if_neg hb] at hrun
        exact absurd hrun.symm (Option.some_ne_none _)

end SinglePassPIR
