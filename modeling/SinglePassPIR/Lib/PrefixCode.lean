import Mathlib.Data.List.Basic
import Mathlib.Data.Nat.Notation
import Mathlib.Tactic.Common

/-!
# Prefix codes

A code is prefix-free if a string has at most one beginning that is a code word, and then it has at
most one beginning that is a given number of code words. The unary code of a number, with a block of
a fixed length behind it, is prefix-free.

## Main results

* `PrefixFree.flatMap` — several code words are found in one way.
* `unaryBlock_prefixFree` — a number in unary and a block of a fixed length.
-/

namespace SinglePassPIR

variable {α β : Type*}

/-- A string begins with at most one code word. -/
def PrefixFree (code : α → List β) : Prop :=
  ∀ ⦃a b r s⦄, code a ++ r = code b ++ s → a = b ∧ r = s

/-- **Several code words** are found in one way. -/
theorem PrefixFree.flatMap {code : α → List β} (h : PrefixFree code) {as bs : List α} {r s : List β}
    (hlen : as.length = bs.length) (heq : as.flatMap code ++ r = bs.flatMap code ++ s) :
    as = bs ∧ r = s := by
  induction as generalizing bs with
  | nil =>
      obtain rfl := List.eq_nil_of_length_eq_zero hlen.symm
      exact ⟨rfl, heq⟩
  | cons a as ih =>
      cases bs with
      | nil => simp at hlen
      | cons b bs =>
          rw [List.flatMap_cons, List.flatMap_cons, List.append_assoc, List.append_assoc] at heq
          obtain ⟨rfl, hrest⟩ := h heq
          obtain ⟨rfl, rfl⟩ := ih (Nat.succ.inj hlen) hrest
          exact ⟨rfl, rfl⟩

/-- The ones at the beginning of a string. -/
theorem unary_inj {q q' : ℕ} {r s : List Bool}
    (h : List.replicate q true ++ false :: r = List.replicate q' true ++ false :: s) :
    q = q' ∧ r = s := by
  induction q generalizing q' with
  | zero =>
      cases q' with
      | zero => simpa using h
      | succ q' => simp [List.replicate_succ] at h
  | succ q ih =>
      cases q' with
      | zero => simp [List.replicate_succ] at h
      | succ q' =>
          simp only [List.replicate_succ, List.cons_append, List.cons.injEq, true_and] at h
          obtain ⟨rfl, rfl⟩ := ih h
          exact ⟨rfl, rfl⟩

/-- A string has a zero behind its first ones, or no zero. -/
theorem unary_cases (l : List Bool) :
    (∃ q rest, l = List.replicate q true ++ false :: rest) ∨ ∃ q, l = List.replicate q true := by
  induction l with
  | nil => exact Or.inr ⟨0, rfl⟩
  | cons b l ih =>
      cases b with
      | false => exact Or.inl ⟨0, l, rfl⟩
      | true =>
          cases ih with
          | inl h =>
              obtain ⟨q, rest, rfl⟩ := h
              exact Or.inl ⟨q + 1, rest, rfl⟩
          | inr h =>
              obtain ⟨q, rfl⟩ := h
              exact Or.inr ⟨q + 1, rfl⟩

/-- A number, and a block of `k` bits. -/
structure UnaryBlock (k : ℕ) where
  quotient : ℕ
  block : List Bool
  length_eq : block.length = k
  deriving DecidableEq

/-- The number in unary, ended by a zero, and the block. -/
def UnaryBlock.bits {k : ℕ} (c : UnaryBlock k) : List Bool :=
  List.replicate c.quotient true ++ false :: c.block

/-- **Numbers in unary with a block** of a fixed length are a prefix code. -/
theorem unaryBlock_prefixFree (k : ℕ) : PrefixFree (UnaryBlock.bits : UnaryBlock k → List Bool) := by
  intro a b r s h
  obtain ⟨q, l, hl⟩ := a
  obtain ⟨q', l', hl'⟩ := b
  simp only [UnaryBlock.bits, List.append_assoc, List.cons_append] at h
  obtain ⟨rfl, hrest⟩ := unary_inj h
  obtain ⟨rfl, rfl⟩ := List.append_inj hrest (hl.trans hl'.symm)
  exact ⟨rfl, rfl⟩

/-- A string that does not begin with a number in unary and a block: it ends before. -/
theorem UnaryBlock.ne_of_short {k q : ℕ} {rest : List Bool} (h : rest.length < k) (c : UnaryBlock k)
    (s : List Bool) : List.replicate q true ++ false :: rest ≠ c.bits ++ s := by
  intro heq
  rw [UnaryBlock.bits, List.append_assoc, List.cons_append] at heq
  have hlen := congrArg List.length (unary_inj heq).2
  rw [List.length_append, c.length_eq] at hlen
  omega

theorem UnaryBlock.ne_of_ones {k q : ℕ} (c : UnaryBlock k) (s : List Bool) :
    List.replicate q true ≠ c.bits ++ s := by
  intro heq
  have hmem : false ∈ List.replicate q true := by simp [heq, UnaryBlock.bits]
  exact absurd (List.eq_of_mem_replicate hmem) (by decide)

end SinglePassPIR
