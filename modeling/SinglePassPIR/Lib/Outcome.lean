import Mathlib.Data.Nat.Notation
import Mathlib.Tactic.Common

/-!
# Computations that may fault or not return

Rejection sampling has runs that never end. `Outcome α` is the result of a computation
that may fault (a panic, an access out of bounds, undefined behaviour) or not return, and
the two are kept apart: a statement may assume that a call returns, never that it does not
fault. `Safe x Q` is the specification of such a computation, total in faults and partial in
termination, with one rule for each way to compose. `Ensures x Q` is partial in both.
-/

namespace SinglePassPIR

universe u

/-- Why a computation has no result. -/
inductive Stop
  | fault
  | noReturn
  deriving DecidableEq, Repr

/-- A computation that may fault or not return. -/
abbrev Outcome (α : Type u) := Except Stop α

namespace Outcome
variable {α β : Type u} {x : Outcome α} {P Q : α → Prop}

/-- A computation that can only fault. -/
def ofOption : Option α → Outcome α
  | some a => .ok a
  | none => .error .fault

@[simp] theorem ofOption_some (a : α) : ofOption (some a) = .ok a := rfl

@[simp] theorem ok_bind (a : α) (f : α → Outcome β) : (Except.ok a >>= f) = f a := rfl

@[simp] theorem error_bind (e : Stop) (f : α → Outcome β) :
    ((Except.error e : Outcome α) >>= f) = .error e := rfl

theorem bind_eq_ok {f : α → Outcome β} {b : β} (h : (x >>= f) = .ok b) :
    ∃ a, x = .ok a ∧ f a = .ok b := by
  cases x with
  | ok a => exact ⟨a, rfl, h⟩
  | error e => cases h

theorem toOption_eq_some {a : α} (h : x.toOption = some a) : x = .ok a := by
  cases x with
  | ok b => exact congrArg Except.ok (Option.some.inj h)
  | error e => exact absurd h.symm (Option.some_ne_none a)

/-- The computation does not fault, and its result, if it returns, satisfies `Q`. -/
def Safe (x : Outcome α) (Q : α → Prop) : Prop :=
  match x with
  | .ok a => Q a
  | .error .noReturn => True
  | .error .fault => False

@[simp] theorem safe_ok {a : α} : Safe (.ok a) Q ↔ Q a := Iff.rfl

@[simp] theorem safe_noReturn : Safe (.error .noReturn : Outcome α) Q := trivial

/-- What a result of a safe computation satisfies. -/
theorem Safe.of_ok {a : α} (h : Safe x Q) (hx : x = .ok a) : Q a := by
  rw [hx] at h
  exact h

theorem Safe.mono (h : Safe x P) (hPQ : ∀ a, P a → Q a) : Safe x Q := by
  cases x with
  | ok a => exact hPQ a h
  | error e =>
      cases e with
      | fault => exact h
      | noReturn => trivial

/-- Remember where a result comes from. -/
theorem Safe.with_eq (h : Safe x Q) : Safe x fun a => x = .ok a ∧ Q a := by
  cases x with
  | ok a => exact ⟨rfl, h⟩
  | error e =>
      cases e with
      | fault => exact h
      | noReturn => trivial

/-- **Sequencing.** -/
theorem Safe.bind {f : α → Outcome β} {R : β → Prop} (h : Safe x P)
    (hf : ∀ a, P a → Safe (f a) R) : Safe (x >>= f) R := by
  cases x with
  | ok a => exact hf a h
  | error e =>
      cases e with
      | fault => exact h.elim
      | noReturn => trivial

/-- The computation faults, or it returns a result that satisfies `p`: what a statement may
assume of it. -/
def Admits (x : Outcome α) (p : α → Prop) : Prop :=
  match x with
  | .ok a => p a
  | .error .fault => True
  | .error .noReturn => False

instance {p : α → Prop} [DecidablePred p] : Decidable (Admits x p) :=
  match x with
  | .ok a => inferInstanceAs (Decidable (p a))
  | .error .fault => inferInstanceAs (Decidable True)
  | .error .noReturn => inferInstanceAs (Decidable False)

/-- A safe computation whose result may be assumed has one. -/
theorem Safe.of_admits {p : α → Prop} (h : Safe x Q) (hx : Admits x p) :
    ∃ a, x = .ok a ∧ Q a ∧ p a := by
  cases x with
  | ok a => exact ⟨a, rfl, h, hx⟩
  | error e =>
      cases e with
      | fault => exact h.elim
      | noReturn => exact hx.elim

/-- Run `f 0`, …, `f (n - 1)` in order, as long as they return. -/
def loop : ℕ → (ℕ → α → Outcome α) → α → Outcome α
  | 0, _, s => .ok s
  | n + 1, f, s => loop n f s >>= f n

/-- **The invariant rule.** -/
theorem Safe.loop {n : ℕ} {f : ℕ → α → Outcome α} {s : α} (I : ℕ → α → Prop) (h0 : I 0 s)
    (hstep : ∀ i < n, ∀ t, I i t → Safe (f i t) (I (i + 1))) : Safe (Outcome.loop n f s) (I n) := by
  induction n with
  | zero => exact h0
  | succ n ih =>
      refine Safe.bind (ih fun i hi => hstep i (by omega)) ?_
      intro t ht
      exact hstep n (by omega) t ht

theorem loop_succ (n : ℕ) (f : ℕ → α → Outcome α) (s : α) :
    loop (n + 1) f s = loop n f s >>= f n := rfl

/-- The result of the computation, if there is one, satisfies `Q`. -/
def Ensures (x : Outcome α) (Q : α → Prop) : Prop := ∀ a, x = .ok a → Q a

theorem ensures_ok {a : α} (h : Q a) : Ensures (.ok a) Q := by
  intro b hb
  cases hb
  exact h

@[simp] theorem ensures_error (e : Stop) : Ensures (.error e : Outcome α) Q := by
  intro a ha
  cases ha

theorem ensures_ofOption {o : Option α} (h : ∀ a, o = some a → Q a) : Ensures (ofOption o) Q := by
  cases o with
  | none => exact ensures_error .fault
  | some a => exact ensures_ok (h a rfl)

theorem Ensures.mono (h : Ensures x P) (hPQ : ∀ a, P a → Q a) : Ensures x Q :=
  fun a ha => hPQ a (h a ha)

/-- Sequencing. -/
theorem Ensures.bind {f : α → Outcome β} {R : β → Prop} (h : Ensures x P)
    (hf : ∀ a, P a → Ensures (f a) R) : Ensures (x >>= f) R := by
  cases x with
  | ok a => exact hf a (h a rfl)
  | error e => exact ensures_error e

/-- What comes before does not matter. -/
theorem Ensures.of_bind {f : α → Outcome β} {R : β → Prop} (hf : ∀ a, Ensures (f a) R) :
    Ensures (x >>= f) R := by
  cases x with
  | ok a => exact hf a
  | error e => exact ensures_error e

/-- The invariant rule. -/
theorem Ensures.loop {n : ℕ} {f : ℕ → α → Outcome α} {s : α} (I : ℕ → α → Prop) (h0 : I 0 s)
    (hstep : ∀ i < n, ∀ t, I i t → Ensures (f i t) (I (i + 1))) :
    Ensures (Outcome.loop n f s) (I n) := by
  induction n with
  | zero => exact ensures_ok h0
  | succ n ih =>
      refine Ensures.bind (ih fun i hi => hstep i (by omega)) ?_
      intro t ht
      exact hstep n (by omega) t ht

end Outcome

end SinglePassPIR
