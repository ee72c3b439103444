import SinglePassPIR.Pir.PuncRuns
import SinglePassPIR.Pir.SetRepresentations
import Mathlib.Data.Nat.ModEq

/-!
# Rejection sampling in the puncturable-set client

`randomMemberExcept` draws members of a set until it draws one that is not the excluded row. Whether
it can end depends on the set alone. The duplicate test of the generator lets repeated zeros
through, so that a set may consist of one row many times over.

Sizes are unbounded here: the C code sees the remainder of the universe modulo `2 ^ 32`, and
the loops that shift the elements work in 32 bits.

## Main results

* `genWith_eq` — the set that `GenWith` makes, for a universe of any size.
* `PuncClient.rejection_returns_iff` — the reachable clients whose loops can all end.
-/

namespace SinglePassPIR.Pir
open Psetggm

variable {env : Env} {db : StaticDB} {gen : SetGenerator}

/-! ## Shifting in 32 bits -/

/-- Where the loops that shift the elements move an element. -/
def shiftedTo (univSize shift e : ℕ) : ℕ := (e % 2 ^ 32 + shift) % 2 ^ 32 % (univSize % 2 ^ 32)

theorem shiftElems_eq_map {univSize shift : ℕ} {elems : List ℕ} (hpos : 0 < univSize % 2 ^ 32) :
    shiftElems univSize shift elems = some (elems.map (shiftedTo univSize shift)) := by
  rw [shiftElems, if_neg (by omega)]
  rfl

/-- Two elements that are moved to one row, both with the sum past the 32-bit limit or both
without, are equal. -/
theorem eq_of_shiftedTo_eq {univSize shift a b : ℕ} (ha : a < univSize % 2 ^ 32)
    (hb : b < univSize % 2 ^ 32) (hwrap : a + shift % 2 ^ 32 < 2 ^ 32 ↔ b + shift % 2 ^ 32 < 2 ^ 32)
    (heq : shiftedTo univSize shift a = shiftedTo univSize shift b) : a = b := by
  have hU : univSize % 2 ^ 32 < 2 ^ 32 := Nat.mod_lt _ (Nat.two_pow_pos 32)
  have ht : shift % 2 ^ 32 < 2 ^ 32 := Nat.mod_lt _ (Nat.two_pow_pos 32)
  rw [shiftedTo, shiftedTo] at heq
  by_cases hlt : a + shift % 2 ^ 32 < 2 ^ 32
  · have hbt := hwrap.mp hlt
    have hsa : (a % 2 ^ 32 + shift) % 2 ^ 32 = a + shift % 2 ^ 32 := by omega
    have hsb : (b % 2 ^ 32 + shift) % 2 ^ 32 = b + shift % 2 ^ 32 := by omega
    rw [hsa, hsb] at heq
    exact (Nat.ModEq.add_right_cancel' _ heq).eq_of_lt_of_lt ha hb
  · have hbt := mt hwrap.mpr hlt
    have hsa : (a % 2 ^ 32 + shift) % 2 ^ 32 + (2 ^ 32 - shift % 2 ^ 32) = a := by omega
    have hsb : (b % 2 ^ 32 + shift) % 2 ^ 32 + (2 ^ 32 - shift % 2 ^ 32) = b := by omega
    have hmod := Nat.ModEq.add_right (2 ^ 32 - shift % 2 ^ 32) heq
    rw [hsa, hsb] at hmod
    exact hmod.eq_of_lt_of_lt ha hb

/-- As long as no sum passes the 32-bit limit, different elements are moved to different rows. -/
theorem shiftedTo_inj {univSize shift a b : ℕ} (hle : univSize % 2 ^ 32 + shift ≤ 2 ^ 32)
    (ha : a < univSize % 2 ^ 32) (hb : b < univSize % 2 ^ 32) :
    shiftedTo univSize shift a = shiftedTo univSize shift b ↔ a = b := by
  constructor
  · refine eq_of_shiftedTo_eq ha hb ?_
    have hmod : shift % 2 ^ 32 ≤ shift := Nat.mod_le _ _
    constructor
    · intro _
      omega
    · intro _
      omega
  · exact congrArg _

/-- **Elements that the duplicate test accepts do not all share a row**, if one of them is
not moved to where `0` is moved. -/
theorem exists_shiftedTo_ne {univSize shift : ℕ} {elems : List ℕ}
    (hlt : ∀ e ∈ elems, e < univSize % 2 ^ 32) (hnodup : (elems.filter (· ≠ 0)).Nodup)
    (hlen : 2 ≤ elems.length)
    (hsmall : elems.length = 2 → univSize % 2 ^ 32 + shift ≤ 2 ^ 32) {e : ℕ} (he : e ∈ elems)
    (hne : shiftedTo univSize shift e ≠ shiftedTo univSize shift 0) :
    ∃ a ∈ elems, shiftedTo univSize shift a ≠ shiftedTo univSize shift e := by
  by_contra hall
  push Not at hall
  have hzero : ∀ a ∈ elems, a ≠ 0 := by
    rintro a ha rfl
    exact hne (hall 0 ha).symm
  have hall' : elems.Nodup := by
    rwa [List.filter_eq_self.mpr (by simpa using hzero)] at hnodup
  match elems, hlen with
  | [a, b], _ =>
      have hab := (shiftedTo_inj (hsmall rfl) (hlt a (by simp)) (hlt b (by simp))).mp
        ((hall a (by simp)).trans (hall b (by simp)).symm)
      simp [hab] at hall'
  | a :: b :: c :: rest, _ =>
      have hpair : ∀ x ∈ a :: b :: c :: rest, ∀ y ∈ a :: b :: c :: rest, x ≠ y →
          ¬(x + shift % 2 ^ 32 < 2 ^ 32 ↔ y + shift % 2 ^ 32 < 2 ^ 32) := by
        intro x hx y hy hxy hwrap
        exact hxy (eq_of_shiftedTo_eq (hlt x hx) (hlt y hy) hwrap
          ((hall x hx).trans (hall y hy).symm))
      -- of three sums, two are on the same side of the limit
      simp only [List.nodup_cons, List.mem_cons, not_or] at hall'
      obtain ⟨⟨hab, hac, -⟩, ⟨hbc, -⟩, -⟩ := hall'
      have h1 := hpair a (by simp) b (by simp) hab
      have h2 := hpair a (by simp) c (by simp) hac
      have h3 := hpair b (by simp) c (by simp) hbc
      tauto

/-! ## The set size -/

/-- The set size of a table whose number of rows is a Go `int`. -/
theorem roundSqrt_lt {N : ℕ} (hN : N < 2 ^ 63) : roundSqrt N < 2 ^ 32 := by
  have hsqrt : Nat.sqrt N < 2 ^ 32 - 1 := Nat.sqrt_lt'.mpr (hN.trans (by norm_num))
  exact (roundSqrt_le_sqrt N).trans_lt (by omega)

theorem two_le_roundSqrt_iff (N : ℕ) : 2 ≤ roundSqrt N ↔ 3 ≤ N := by
  have hle : Nat.sqrt N * Nat.sqrt N ≤ N := Nat.sqrt_le N
  have hlt : N < (Nat.sqrt N + 1) * (Nat.sqrt N + 1) := Nat.lt_succ_sqrt N
  rw [roundSqrt]
  split_ifs with h
  · constructor
    · intro h2
      nlinarith
    · intro h3
      by_contra h2
      have hone : Nat.sqrt N ≤ 1 := by omega
      have hmul : Nat.sqrt N * Nat.sqrt N ≤ 1 := Nat.mul_le_mul hone hone
      omega
  · constructor
    · intro h2
      have hone : 1 ≤ Nat.sqrt N := by omega
      have hmul : 1 ≤ Nat.sqrt N * Nat.sqrt N := Nat.mul_le_mul hone hone
      omega
    · intro h3
      by_contra h2
      have hzero : Nat.sqrt N = 0 := by omega
      rw [hzero] at hlt
      omega

/-- Sets of two elements come from small tables. -/
theorem le_of_roundSqrt_le {N : ℕ} (h : roundSqrt N ≤ 2) : N ≤ 6 := by
  have hlt : N < (Nat.sqrt N + 1) * (Nat.sqrt N + 1) := Nat.lt_succ_sqrt N
  rw [roundSqrt] at h
  split_ifs at h with hle
  · have hmul : Nat.sqrt N * Nat.sqrt N ≤ 2 * 2 := Nat.mul_le_mul h h
    omega
  · have hone : Nat.sqrt N + 1 ≤ 2 := h
    have hmul : (Nat.sqrt N + 1) * (Nat.sqrt N + 1) ≤ 2 * 2 := Nat.mul_le_mul hone hone
    omega

/-! ## What the generator makes -/

/-- A table of which a generator can make sets. -/
structure Works (db : StaticDB) : Prop where
  setSize_le : roundSqrt db.numRows ≤ 2 ^ 26
  univ_pos : 0 < db.numRows % 2 ^ 32

namespace SetGenerator

/-- The elements of the tree of an identifier, before they are shifted. -/
def tree (env : Env) (gen : SetGenerator) (id : ℕ) : List ℕ :=
  ggmElems env.aes (cUint gen.univSize) gen.setSize (gen.seedOf env id)

/-- The duplicate test accepts the tree of the identifier. -/
def Accepts (env : Env) (gen : SetGenerator) (id : ℕ) : Prop :=
  ((gen.tree env id).filter (· ≠ 0)).Nodup

instance (id : ℕ) : Decidable (gen.Accepts env id) := inferInstanceAs (Decidable (List.Nodup _))

/-- The number of the next set: the first from the counter on whose identifier is accepted -/
def Next (env : Env) (gen : SetGenerator) (m : ℕ) : Prop :=
  gen.num ≤ m ∧ gen.Accepts env (m % 2 ^ 32) ∧
    ∀ k, gen.num ≤ k → k < m → ¬gen.Accepts env (k % 2 ^ 32)

/-- The elements of the set that a key names. -/
def elemsOf (env : Env) (gen : SetGenerator) (key : SetKey) : List ℕ :=
  (gen.tree env key.id).map (shiftedTo gen.univSize key.shift)

/-- The key of the set that `GenWith` makes for `val` of number `m`. -/
def keyWith (env : Env) (gen : SetGenerator) (val m : ℕ) : SetKey :=
  let seed := env.cipher gen.masterKey (idBlock 0xBB (m % 2 ^ 32))
  let pos := (seed.w0.toNat + 2 ^ 32 * seed.w1.toNat) % gen.setSize
  let elem := (gen.tree env (m % 2 ^ 32)).getD pos 0
  ⟨m % 2 ^ 32, (((val : ℤ) - elem) % gen.univSize).toNat % 2 ^ 32⟩

@[simp] theorem length_tree (id : ℕ) : (gen.tree env id).length = gen.setSize :=
  length_ggmElems _ _ _ _

@[simp] theorem length_elemsOf (key : SetKey) : (gen.elemsOf env key).length = gen.setSize := by
  simp [elemsOf]

theorem tree_lt {id e : ℕ} (hpos : 0 < gen.univSize % 2 ^ 32) (he : e ∈ gen.tree env id) :
    e < gen.univSize % 2 ^ 32 :=
  ggmElems_lt hpos (Nat.mod_lt _ (Nat.two_pow_pos 32)).le he

theorem tree_lt_two_pow {id e : ℕ} (he : e ∈ gen.tree env id) : e < 2 ^ 32 := by
  obtain ⟨i, -, rfl⟩ := List.mem_map.mp he
  rw [ggmElem, reduceWord]
  exact Nat.div_lt_of_lt_mul ((Nat.mod_lt _ (Nat.two_pow_pos 64)).trans_eq (by norm_num))

/-- One round of the loop of `gen`. -/
theorem genLoop_succ (hpos : 0 < gen.setSize) (hle : gen.setSize ≤ 2 ^ 26) (fuel num : ℕ)
    {elems : List ℕ} (helems : elems.length = gen.setSize) :
    gen.genLoop env (fuel + 1) num elems =
      if gen.Accepts env (num % 2 ^ 32)
      then .ok (⟨⟨num % 2 ^ 32, 0⟩, gen.univSize, gen.setSize, gen.seedOf env (num % 2 ^ 32),
        gen.tree env (num % 2 ^ 32)⟩, { gen with num := num + 1 })
      else gen.genLoop env fuel (num + 1) (gen.tree env (num % 2 ^ 32)) := by
  have heval : gen.baseGen.eval env.toPlatform
      (env.cipher gen.masterKey (idBlock 0xAA (num % 2 ^ 32))) elems =
      some (gen.tree env (num % 2 ^ 32)) :=
    ggmEval_of_le env.toPlatform hpos hle _ helems
  have hdistinct : gen.baseGen.distinct env.toPlatform (gen.tree env (num % 2 ^ 32)) =
      some (decide (gen.Accepts env (num % 2 ^ 32))) :=
    ggmDistinct_of_le env.toPlatform hle
      (List.ne_nil_of_length_pos ((length_tree (num % 2 ^ 32)).symm ▸ hpos)) (length_tree _).le
      fun e he => tree_lt_two_pow he
  rw [genLoop, heval, Outcome.ofOption_some, Outcome.ok_bind, hdistinct, Outcome.ofOption_some,
    Outcome.ok_bind]
  by_cases haccepts : gen.Accepts env (num % 2 ^ 32)
  · rw [if_pos haccepts, if_pos (decide_eq_true haccepts)]
    rfl
  · rw [if_neg haccepts, if_neg (mt of_decide_eq_true haccepts)]

/-- The unshifted set of number `m`, and the generator after it. -/
def made (env : Env) (gen : SetGenerator) (m : ℕ) : PuncturableSet × SetGenerator :=
  (⟨⟨m % 2 ^ 32, 0⟩, gen.univSize, gen.setSize, gen.seedOf env (m % 2 ^ 32),
    gen.tree env (m % 2 ^ 32)⟩, { gen with num := m + 1 })

/-- The loop finds the first accepted number. -/
theorem genLoop_eq (hpos : 0 < gen.setSize) (hle : gen.setSize ≤ 2 ^ 26) (fuel : ℕ) {num m : ℕ}
    {elems : List ℕ} (helems : elems.length = gen.setSize) (hnum : num ≤ m) (hfuel : m - num < fuel)
    (haccepts : gen.Accepts env (m % 2 ^ 32))
    (hfirst : ∀ k, num ≤ k → k < m → ¬gen.Accepts env (k % 2 ^ 32)) :
    gen.genLoop env fuel num elems = .ok (gen.made env m) := by
  induction fuel generalizing num elems with
  | zero => exact absurd hfuel (Nat.not_lt_zero _)
  | succ fuel ih =>
      rw [genLoop_succ hpos hle fuel num helems]
      by_cases heq : num = m
      · rw [heq, if_pos haccepts]
        rfl
      · rw [if_neg (hfirst num le_rfl (by omega))]
        exact ih (length_tree _) (by omega) (by omega) fun k hk hkm => hfirst k (by omega) hkm

/-- What the loop finds is the first accepted number. -/
theorem genLoop_ensures (hpos : 0 < gen.setSize) (hle : gen.setSize ≤ 2 ^ 26) (fuel : ℕ) {num : ℕ}
    {elems : List ℕ} (helems : elems.length = gen.setSize) :
    (gen.genLoop env fuel num elems).Ensures fun r => ∃ m, num ≤ m ∧
      gen.Accepts env (m % 2 ^ 32) ∧ (∀ k, num ≤ k → k < m → ¬gen.Accepts env (k % 2 ^ 32)) ∧
      r = gen.made env m := by
  induction fuel generalizing num elems with
  | zero => exact Outcome.ensures_error _
  | succ fuel ih =>
      rw [genLoop_succ hpos hle fuel num helems]
      by_cases haccepts : gen.Accepts env (num % 2 ^ 32)
      · rw [if_pos haccepts]
        exact Outcome.ensures_ok ⟨num, le_rfl, haccepts, fun k hk hkn => by omega, rfl⟩
      · rw [if_neg haccepts]
        refine (ih (length_tree _)).mono ?_
        rintro r ⟨m, hm, hacc, hfirst, rfl⟩
        refine ⟨m, by omega, hacc, ?_, rfl⟩
        intro k hk hkm
        by_cases heq : k = num
        · rwa [heq]
        · exact hfirst k (by omega) hkm

/-- Identifiers repeat after `2 ^ 32` numbers. -/
theorem Next.lt {m : ℕ} (h : gen.Next env m) : m - gen.num < 2 ^ 32 := by
  obtain ⟨hnum, haccepts, hfirst⟩ := h
  by_contra hlarge
  obtain ⟨k, hk, hkm, hmod⟩ : ∃ k, gen.num ≤ k ∧ k < m ∧ k % 2 ^ 32 = m % 2 ^ 32 :=
    ⟨m - 2 ^ 32, by omega, by omega, by omega⟩
  refine hfirst k hk hkm ?_
  rw [hmod]
  exact haccepts

/-- What `gen` returns. -/
theorem gen_eq (hpos : 0 < gen.setSize) (hle : gen.setSize ≤ 2 ^ 26) {m : ℕ}
    (h : gen.Next env m) (elems : List ℕ) : gen.gen env elems = .ok (gen.made env m) := by
  have hlt := h.lt
  rw [SetGenerator.gen]
  generalize 2 ^ 32 = fuel at hlt ⊢
  exact genLoop_eq hpos hle fuel (length_buffer elems) h.1 hlt h.2.1 h.2.2

theorem gen_ensures (hpos : 0 < gen.setSize) (h32 : gen.setSize < 2 ^ 32) (elems : List ℕ) :
    (gen.gen env elems).Ensures fun r =>
      gen.setSize ≤ 2 ^ 26 ∧ ∃ m, gen.Next env m ∧ r = gen.made env m := by
  by_cases hle : gen.setSize ≤ 2 ^ 26
  · refine (genLoop_ensures hpos hle _ (length_buffer elems)).mono ?_
    rintro r ⟨m, hm, haccepts, hfirst, rfl⟩
    exact ⟨hle, m, ⟨hm, haccepts, hfirst⟩, rfl⟩
  · rw [gen_of_large (Nat.lt_of_not_le hle) h32]
    exact Outcome.ensures_error _

/-- What `Gen` returns. -/
theorem generate_ensures (hpos : 0 < gen.setSize) (h32 : gen.setSize < 2 ^ 32) (elems : List ℕ) :
    (gen.generate env elems).Ensures fun r => (gen.setSize ≤ 2 ^ 26 ∧ 0 < gen.univSize % 2 ^ 32) ∧
      ∃ m, gen.Next env m ∧ r.1.key.id = m % 2 ^ 32 ∧ r.1.key.shift < gen.setSize ∧
        r.2 = { gen with num := m + 1 } := by
  refine (gen_ensures hpos h32 elems).bind ?_
  rintro r ⟨hle, m, hm, rfl⟩
  have hset : gen.setSize % 2 ^ 32 = gen.setSize := Nat.mod_eq_of_lt h32
  dsimp only [made]
  rw [hset, if_neg hpos.ne']
  by_cases hU : 0 < gen.univSize % 2 ^ 32
  · rw [shiftElems_eq_map hU]
    exact Outcome.ensures_ok ⟨⟨hle, hU⟩, m, hm, rfl, Nat.mod_lt _ hpos, rfl⟩
  · have hne : gen.tree env (m % 2 ^ 32) ≠ [] :=
      List.ne_nil_of_length_pos ((length_tree (m % 2 ^ 32)).symm ▸ hpos)
    rw [shiftElems, if_pos ⟨by omega, hne⟩]
    exact Outcome.ensures_error _

theorem keyWith_shift_lt (hpos : 0 < gen.univSize) (val m : ℕ) :
    (gen.keyWith env val m).shift < gen.univSize := by
  have hmod : ∀ x : ℤ, (x % gen.univSize).toNat < gen.univSize := by
    intro x
    have h0 := Int.emod_nonneg x (show (gen.univSize : ℤ) ≠ 0 by omega)
    have h1 := Int.emod_lt_of_pos x (show (0 : ℤ) < gen.univSize by omega)
    omega
  exact (Nat.mod_le _ _).trans_lt (hmod _)

/-- **What `GenWith` returns**, for a universe of any size. -/
theorem genWith_eq (hpos : 0 < gen.setSize) (hle : gen.setSize ≤ 2 ^ 26)
    (hU : 0 < gen.univSize % 2 ^ 32) {m : ℕ} (h : gen.Next env m) (val : ℕ) :
    gen.genWith env val = .ok (⟨gen.keyWith env val m, gen.univSize, gen.setSize,
      gen.seedOf env (m % 2 ^ 32), gen.elemsOf env (gen.keyWith env val m)⟩,
      { gen with num := m + 1 }) := by
  have huniv : (0 : ℤ) < gen.univSize := by
    have := Nat.mod_le gen.univSize (2 ^ 32)
    omega
  rw [genWith, gen_eq hpos hle h, Outcome.ok_bind]
  dsimp only [made]
  rw [if_neg hpos.ne']
  set seed := env.cipher gen.masterKey (idBlock 0xBB (m % 2 ^ 32)) with hseed
  have hlt : (seed.w0.toNat + 2 ^ 32 * seed.w1.toNat) % gen.setSize <
      (gen.tree env (m % 2 ^ 32)).length := (length_tree (m % 2 ^ 32)).symm ▸ Nat.mod_lt _ hpos
  rw [getElem?_eq_some_getD 0 hlt, Outcome.ofOption_some, Outcome.ok_bind, mathMod_eq _ huniv,
    Outcome.ofOption_some, Outcome.ok_bind, shiftElems_eq_map hU]
  rfl

/-- What `GenWith` returns has the key of the next number. -/
theorem genWith_ensures (hpos : 0 < gen.setSize) (h32 : gen.setSize < 2 ^ 32) (val : ℕ) :
    (gen.genWith env val).Ensures fun r => (gen.setSize ≤ 2 ^ 26 ∧ 0 < gen.univSize % 2 ^ 32) ∧
      ∃ m, gen.Next env m ∧ r.1.key = gen.keyWith env val m ∧
        r.1.elems = gen.elemsOf env (gen.keyWith env val m) ∧ r.2 = { gen with num := m + 1 } := by
  by_cases hworks : gen.setSize ≤ 2 ^ 26 ∧ 0 < gen.univSize % 2 ^ 32
  · obtain ⟨hle, hU⟩ := hworks
    intro r hr
    obtain ⟨r', hr', -⟩ := Outcome.bind_eq_ok hr
    obtain ⟨-, m, hm, -⟩ := gen_ensures hpos h32 [] r' hr'
    rw [genWith_eq hpos hle hU hm, Except.ok.injEq] at hr
    subst hr
    exact ⟨⟨hle, hU⟩, m, hm, rfl, rfl, rfl⟩
  · refine (gen_ensures hpos h32 []).bind ?_
    rintro r ⟨hle, m, -, rfl⟩
    have hU : gen.univSize % 2 ^ 32 = 0 := by
      by_contra hU
      exact hworks ⟨hle, Nat.pos_of_ne_zero hU⟩
    have hne : gen.tree env (m % 2 ^ 32) ≠ [] :=
      List.ne_nil_of_length_pos ((length_tree (m % 2 ^ 32)).symm ▸ hpos)
    dsimp only [made]
    rw [if_neg hpos.ne']
    refine Outcome.Ensures.of_bind fun e => Outcome.Ensures.of_bind fun shift => ?_
    rw [shiftElems, if_pos ⟨hU, hne⟩]
    exact Outcome.ensures_error _

/-- `Eval` of a key, for a universe of any size. -/
theorem eval_eq_elemsOf (hpos : 0 < gen.setSize) (hle : gen.setSize ≤ 2 ^ 26)
    (hU : 0 < gen.univSize % 2 ^ 32) (key : SetKey) :
    gen.eval env key = .ok ⟨key, gen.univSize, gen.setSize, gen.seedOf env key.id,
      gen.elemsOf env key⟩ := by
  have heval : gen.baseGen.eval env.toPlatform (env.cipher gen.masterKey (idBlock 0xAA key.id))
      (gen.buffer (List.replicate gen.setSize 0)) = some (gen.tree env key.id) :=
    ggmEval_of_le env.toPlatform hpos hle _ (length_buffer _)
  rw [SetGenerator.eval, evalInPlace, heval, Outcome.ofOption_some, Outcome.ok_bind, shiftElems_eq_map hU]
  split_ifs with hshift
  · have hsame : gen.elemsOf env key = gen.tree env key.id := by
      rw [elemsOf, hshift]
      refine (List.map_congr_left ?_).trans (List.map_id _)
      intro e he
      have hlt := tree_lt hU he
      have h32 := tree_lt_two_pow he
      rw [shiftedTo, Nat.add_zero, Nat.mod_eq_of_lt h32, Nat.mod_eq_of_lt h32, Nat.mod_eq_of_lt hlt]
      rfl
    rw [hsame]
    rfl
  · rfl

/-- **Sets whose elements are not all one row.** -/
theorem exists_two_iff {key : SetKey} (hU : 0 < gen.univSize % 2 ^ 32)
    (haccepts : gen.Accepts env key.id) (hset : 2 ≤ gen.setSize)
    (hsmall : gen.setSize = 2 → gen.univSize % 2 ^ 32 + key.shift ≤ 2 ^ 32) :
    (∀ v ∈ gen.elemsOf env key, ∃ w ∈ gen.elemsOf env key, w ≠ v) ↔
      ∃ e ∈ gen.tree env key.id,
        shiftedTo gen.univSize key.shift e ≠ shiftedTo gen.univSize key.shift 0 := by
  constructor
  · intro h
    obtain ⟨v, hv⟩ : ∃ v, v ∈ gen.elemsOf env key :=
      List.exists_mem_of_length_pos (by rw [length_elemsOf]; omega)
    by_contra hall
    push Not at hall
    have hsame : ∀ w ∈ gen.elemsOf env key, w = shiftedTo gen.univSize key.shift 0 := by
      intro w hw
      obtain ⟨e, he, rfl⟩ := List.mem_map.mp hw
      exact hall e he
    obtain ⟨w, hw, hne⟩ := h v hv
    exact hne ((hsame w hw).trans (hsame v hv).symm)
  · rintro ⟨e, he, hne⟩ v hv
    by_cases hev : shiftedTo gen.univSize key.shift e = v
    · obtain ⟨a, ha, hae⟩ := exists_shiftedTo_ne (fun x hx => tree_lt hU hx) haccepts
        (by rwa [length_tree]) (by rwa [length_tree]) he hne
      exact ⟨_, List.mem_map_of_mem ha, hev ▸ hae⟩
    · exact ⟨_, List.mem_map_of_mem he, hev⟩

end SetGenerator

/-! ## Pointers -/


/-- A pointer that does not come out negative is no larger than the index of the set. -/
theorem toInt32_toNat_le (j : ℕ) : (toInt32 j).toNat ≤ j := by
  have hbmod : ∀ m : ℕ, (Int.bmod j m).toNat ≤ j := by
    intro m
    have hle : j % m ≤ j := Nat.mod_le j m
    rw [Int.bmod_def, ← Int.natCast_mod]
    split_ifs
    · omega
    · omega
  exact hbmod _

theorem mem_writeAt {l l' : List ℤ} {i : ℕ} {v p : ℤ} (h : writeAt l i v = some l')
    (hp : p ∈ l') : p ∈ l ∨ p = v := by
  rw [writeAt] at h
  split_ifs at h
  obtain rfl := Option.some.inj h
  exact List.mem_or_eq_of_mem_set hp

/-- Setting pointers to a set. -/
theorem mem_setPointers {s : ℤ} {elems : List ℕ} {idx idx' : List ℤ} {p : ℤ}
    (h : setPointers s elems idx = some idx') (hp : p ∈ idx') : p ∈ idx ∨ p = s := by
  induction elems generalizing idx with
  | nil =>
      obtain rfl := Option.some.inj h
      exact Or.inl hp
  | cons e elems ih =>
      rw [setPointers, List.foldlM_cons, Option.bind_eq_bind, Option.bind_eq_some_iff] at h
      obtain ⟨idx₁, hone, hrest⟩ := h
      cases ih hrest with
      | inl hp => exact mem_writeAt hone hp
      | inr hp => exact Or.inr hp

/-- Dropping pointers to a set. -/
theorem mem_clearPointers {c : PuncClient} {s : ℤ} {elems : List ℕ} {idx idx' : List ℤ} {p : ℤ}
    (h : c.clearPointers s elems idx = some idx') (hp : p ∈ idx') : p ∈ idx ∨ p = -1 := by
  induction elems generalizing idx with
  | nil =>
      obtain rfl := Option.some.inj h
      exact Or.inl hp
  | cons e elems ih =>
      rw [PuncClient.clearPointers, List.foldlM_cons, Option.bind_eq_bind,
        Option.bind_eq_some_iff] at h
      obtain ⟨idx₁, hone, hrest⟩ := h
      cases ih hrest with
      | inr hp => exact Or.inr hp
      | inl hp =>
          rw [PuncClient.clearPointer] at hone
          split_ifs at hone
          · rw [Option.bind_eq_bind, Option.bind_eq_some_iff] at hone
            obtain ⟨q, -, hone⟩ := hone
            split_ifs at hone
            · exact mem_writeAt hone hp
            · obtain rfl := Option.some.inj hone
              exact Or.inl hp
          · obtain rfl := Option.some.inj hone
            exact Or.inl hp

/-- The scan of one set. -/
theorem mem_scanElems {c : PuncClient} {i : ℤ} {j shift univSize : ℕ} {elems : List ℕ}
    {idx : List ℤ} {r : Bool × List ℤ} {p : ℤ} (h : c.scanElems i j shift univSize elems idx = some r)
    (hp : p ∈ r.2) : p ∈ idx ∨ p = toInt32 j := by
  induction elems generalizing idx with
  | nil =>
      obtain rfl := Option.some.inj h
      exact Or.inl hp
  | cons e elems ih =>
      rw [PuncClient.scanElems] at h
      split_ifs at h
      dsimp only at h
      split_ifs at h
      · obtain rfl := Option.some.inj h
        exact Or.inl hp
      · rw [Option.bind_eq_bind, Option.bind_eq_some_iff] at h
        obtain ⟨idx₁, hone, hrest⟩ := h
        cases ih hrest with
        | inl hp => exact mem_writeAt hone hp
        | inr hp => exact Or.inr hp
      · exact ih h

/-- Every pointer is negative or the index of a set. -/
def PointersBelow (len : ℕ) (idx : List ℤ) : Prop := ∀ p ∈ idx, 0 ≤ p → p.toNat < len

theorem scanSets_ensures (c : PuncClient) (i : ℤ) (sets : List SetKey) (j : ℕ) (elems : List ℕ)
    {idx : List ℤ} (hidx : PointersBelow (j + sets.length) idx) :
    (c.scanSets env i sets j elems idx).Ensures fun r =>
      PointersBelow (j + sets.length) r.2 ∧ ∀ s, r.1 = some s → s < j + sets.length := by
  induction sets generalizing j elems idx with
  | nil => exact Outcome.ensures_ok ⟨hidx, by simp⟩
  | cons key sets ih =>
      rw [PuncClient.scanSets]
      refine Outcome.Ensures.of_bind fun pset => ?_
      refine (Outcome.ensures_ofOption fun r hr => hr).bind ?_
      intro r hr
      have hr' : PointersBelow (j + (key :: sets).length) r.2 := by
        intro p hp hp0
        cases mem_scanElems hr hp with
        | inl hp => exact hidx p hp hp0
        | inr heq =>
            have hle := toInt32_toNat_le j
            rw [heq, List.length_cons]
            omega
      have hlen : j + (key :: sets).length = j + 1 + sets.length := by
        rw [List.length_cons]
        omega
      dsimp only
      split_ifs
      · refine Outcome.ensures_ok ⟨hr', ?_⟩
        intro s hs
        rw [← Option.some.inj hs, hlen]
        omega
      · rw [hlen] at hr' ⊢
        exact ih (j + 1) _ hr'

/-- `findIndex` changes nothing but pointers, and what it finds is a set. -/
theorem findIndex_ensures {c : PuncClient} (h : PointersBelow c.sets.length c.idxToSetIdx) (i : ℤ) :
    (c.findIndex env i).Ensures fun r => ∃ idx, r.2 = { c with idxToSetIdx := idx } ∧
      PointersBelow c.sets.length idx ∧ ∀ s, r.1 = some s → s < c.sets.length := by
  rw [PuncClient.findIndex]
  split_ifs
  · exact Outcome.ensures_ok ⟨c.idxToSetIdx, rfl, h, by simp⟩
  · refine Outcome.Ensures.of_bind fun r => ?_
    refine (Outcome.ensures_ofOption fun p hp => List.mem_of_getElem? hp).bind ?_
    intro p hp
    split_ifs with hp0
    · refine Outcome.ensures_ok ⟨c.idxToSetIdx, rfl, h, ?_⟩
      intro s hs
      exact Option.some.inj hs ▸ h p hp hp0
    · have hstart : PointersBelow (0 + c.sets.length) c.idxToSetIdx := by
        rwa [Nat.zero_add]
      refine (scanSets_ensures c i c.sets 0 [] hstart).bind ?_
      intro r hr
      rw [Nat.zero_add] at hr
      exact Outcome.ensures_ok ⟨r.2, rfl, hr.1, hr.2⟩

/-! ## The state of a client -/

/-- What holds of a client of a table of any size. -/
structure PuncClient.Kept (env : Env) (db : StaticDB) (c : PuncClient) : Prop where
  nRows_eq : c.nRows = db.numRows
  setSize_eq : c.setSize = roundSqrt db.numRows
  origSetGen : c.origSetGen.For db
  setGen : c.setGen.For db
  num_le : c.origSetGen.num ≤ c.setGen.num
  works : c.sets ≠ [] → Works db
  shifts : ∀ key ∈ c.sets, key.shift < db.numRows
  accepted : c.setGen.num < 2 ^ 32 → ∀ key ∈ c.sets, (c.genForKey key).Accepts env key.id
  pointers : PointersBelow c.sets.length c.idxToSetIdx

namespace PuncClient
variable {c : PuncClient}

theorem Kept.with_pointers (h : c.Kept env db) {idx : List ℤ}
    (hidx : PointersBelow c.sets.length idx) : { c with idxToSetIdx := idx }.Kept env db :=
  ⟨h.nRows_eq, h.setSize_eq, h.origSetGen, h.setGen, h.num_le, h.works, h.shifts, h.accepted, hidx⟩

theorem Kept.with_hints (h : c.Kept env db) (hints : List (List UInt8)) :
    { c with hints }.Kept env db :=
  ⟨h.nRows_eq, h.setSize_eq, h.origSetGen, h.setGen, h.num_le, h.works, h.shifts, h.accepted,
    h.pointers⟩

/-- The generator moves on. -/
theorem Kept.with_num (h : c.Kept env db) {m : ℕ} (hm : c.setGen.num ≤ m) :
    { c with setGen := { c.setGen with num := m + 1 } }.Kept env db := by
  refine ⟨h.nRows_eq, h.setSize_eq, h.origSetGen, ⟨h.setGen.univSize_eq, h.setGen.setSize_eq⟩,
    h.num_le.trans (by dsimp only; omega), h.works, h.shifts, ?_, h.pointers⟩
  intro hnum key hkey
  dsimp only at hnum hkey
  have haccepted := h.accepted (by omega) key hkey
  rw [genForKey] at haccepted ⊢
  dsimp only
  split_ifs at haccepted ⊢
  · exact haccepted
  · exact haccepted

/-- A new set takes the place of an old one. -/
theorem Kept.replace (h : c.Kept env db) {m s : ℕ} {key : SetKey} {idx : List ℤ}
    (hid : key.id = m % 2 ^ 32) (hnum : c.setGen.num = m + 1) (hm : c.origSetGen.num ≤ m)
    (haccepts : c.setGen.Accepts env key.id) (hshift : key.shift < db.numRows)
    (hidx : PointersBelow c.sets.length idx) :
    { c with sets := c.sets.set s key, idxToSetIdx := idx }.Kept env db := by
  refine ⟨h.nRows_eq, h.setSize_eq, h.origSetGen, h.setGen, h.num_le, ?_, ?_, ?_, ?_⟩
  · intro hne
    exact h.works fun hnil => hne (by simp [hnil])
  · intro k hk
    cases List.mem_or_eq_of_mem_set hk with
    | inl hk => exact h.shifts k hk
    | inr hk => exact hk ▸ hshift
  · intro hlt k hk
    dsimp only at hlt
    cases List.mem_or_eq_of_mem_set hk with
    | inl hk => exact h.accepted hlt k hk
    | inr hk =>
        have horig : ¬key.id < c.origSetGen.num % 2 ^ 32 := by omega
        rw [hk, genForKey]
        dsimp only
        rw [if_neg horig]
        exact haccepts
  · intro p hp hp0
    rw [List.length_set]
    exact hidx p hp hp0

/-- `replaceSet` changes one key and pointers. -/
theorem replaceSet_ensures (hidx : PointersBelow c.sets.length c.idxToSetIdx) (s : ℕ)
    (newSet : PuncturableSet) :
    (c.replaceSet env s newSet).Ensures fun c' => ∃ idx, PointersBelow c.sets.length idx ∧
      c' = { c with sets := c.sets.set s newSet.key, idxToSetIdx := idx } := by
  rw [replaceSet]
  refine Outcome.Ensures.of_bind fun pset => ?_
  refine (Outcome.ensures_ofOption fun idx hclear => hclear).bind ?_
  intro idx₁ hclear
  refine (Outcome.ensures_ofOption fun sets hwrite => hwrite).bind ?_
  intro sets hwrite
  refine (Outcome.ensures_ofOption fun idx hset => hset).bind ?_
  intro idx hset
  rw [writeAt] at hwrite
  split_ifs at hwrite with hs
  obtain rfl := Option.some.inj hwrite
  refine Outcome.ensures_ok ⟨idx, ?_, rfl⟩
  intro p hp hp0
  cases mem_setPointers hset hp with
  | inl hp =>
      cases mem_clearPointers hclear hp with
      | inl hp => exact hidx p hp hp0
      | inr heq => omega
  | inr heq =>
      rw [heq]
      exact (toInt32_toNat_le s).trans_lt hs

/-- The `switch` of `Query`. -/
theorem queryCase_ensures (hN : 0 < db.numRows) (hN63 : db.numRows < 2 ^ 63) (h : c.Kept env db)
    (i : ℕ) (pset : PuncturableSet) (ctx : PuncQueryCtx) (draws : List ℕ) :
    (c.queryCase env i pset ctx draws).Ensures fun r => r.2.Kept env db := by
  have hpos : 0 < c.setGen.setSize := h.setGen.setSize_eq ▸ roundSqrt_pos hN
  have h32 : c.setGen.setSize < 2 ^ 32 := h.setGen.setSize_eq ▸ roundSqrt_lt hN63
  have huniv : 0 < c.setGen.univSize := h.setGen.univSize_eq ▸ hN
  rw [queryCase]
  refine (SetGenerator.genWith_ensures hpos h32 i).bind ?_
  rintro ⟨newSet, setGen⟩ ⟨-, m, ⟨hm, haccepts, -⟩, hkey, -, rfl⟩
  have hnext := h.with_num hm
  have hcase : ctx.randCase = 0 ∨ ctx.randCase = 1 ∨ ctx.randCase = 2 := by omega
  dsimp only at hkey ⊢
  rcases hcase with h0 | h1 | h2
  · rw [h0]
    refine Outcome.Ensures.of_bind fun extraL => Outcome.Ensures.of_bind fun extraR => ?_
    refine Outcome.Ensures.of_bind fun puncSetL => Outcome.Ensures.of_bind fun puncSetR => ?_
    refine (replaceSet_ensures hnext.pointers ctx.setIdx newSet).bind ?_
    rintro c' ⟨idx, hidx, rfl⟩
    have hshift := @SetGenerator.keyWith_shift_lt env c.setGen huniv i m
    rw [← hkey, h.setGen.univSize_eq] at hshift
    refine Outcome.ensures_ok (hnext.replace (m := m) ?_ rfl (h.num_le.trans hm) ?_ hshift hidx)
    · rw [hkey]
      rfl
    · rw [hkey]
      exact haccepts
  · rw [h1]
    refine Outcome.Ensures.of_bind fun extraR => Outcome.Ensures.of_bind fun extraL => ?_
    refine Outcome.Ensures.of_bind fun puncSetL => Outcome.Ensures.of_bind fun puncSetR => ?_
    exact Outcome.ensures_ok hnext
  · rw [h2]
    refine Outcome.Ensures.of_bind fun extraL => Outcome.Ensures.of_bind fun extraR => ?_
    refine Outcome.Ensures.of_bind fun puncSetL => Outcome.Ensures.of_bind fun puncSetR => ?_
    exact Outcome.ensures_ok hnext

/-- `Query` -/
theorem query_ensures (hN : 0 < db.numRows) (hN63 : db.numRows < 2 ^ 63) (h : c.Kept env db)
    (a : PuncRead) : (c.query env a.idx a.coin a.draws).Ensures fun r => r.2.Kept env db := by
  rw [query]
  split_ifs
  · exact Outcome.ensures_error _
  · refine (findIndex_ensures h.pointers a.idx).bind ?_
    rintro ⟨found, c'⟩ ⟨idx, rfl, hidx, -⟩
    have h' := h.with_pointers hidx
    cases found with
    | none => exact Outcome.ensures_ok h'
    | some s =>
        refine Outcome.Ensures.of_bind fun i => Outcome.Ensures.of_bind fun pset => ?_
        refine (queryCase_ensures hN hN63 h' _ pset _ _).bind ?_
        intro r hr
        exact Outcome.ensures_ok hr

/-- `DummyQuery` -/
theorem dummyQuery_ensures (hN : 0 < db.numRows) (hN63 : db.numRows < 2 ^ 63) (h : c.Kept env db)
    (draws : List ℕ) : (c.dummyQuery env draws).Ensures fun r => r.2.Kept env db := by
  have hpos : 0 < c.setGen.setSize := h.setGen.setSize_eq ▸ roundSqrt_pos hN
  have h32 : c.setGen.setSize < 2 ^ 32 := h.setGen.setSize_eq ▸ roundSqrt_lt hN63
  rw [dummyQuery]
  refine (SetGenerator.genWith_ensures hpos h32 0).bind ?_
  rintro ⟨newSet, setGen⟩ ⟨-, m, ⟨hm, -, -⟩, -, -, rfl⟩
  refine Outcome.Ensures.of_bind fun extra => Outcome.Ensures.of_bind fun puncSet => ?_
  exact Outcome.ensures_ok (h.with_num hm)

/-- `reconstruct` changes nothing but hints. -/
theorem reconstruct_ensures {ctx : PuncQueryCtx} {resp : List PuncQueryResp}
    {r : Except String (List UInt8) × PuncClient} (h : c.reconstruct env ctx resp = some r) :
    ∃ hints, r.2 = { c with hints } := by
  rw [reconstruct.eq_def] at h
  split at h
  · simp only [Option.bind_eq_bind, Option.bind_eq_some_iff] at h
    obtain ⟨hint, -, ⟨out, hints⟩, -, h⟩ := h
    obtain rfl := Option.some.inj h
    exact ⟨hints, rfl⟩
  · obtain rfl := Option.some.inj h
    exact ⟨c.hints, rfl⟩

/-! ## Runs -/

/-- `InitClient` -/
theorem initClient_kept (hN : 0 < db.numRows) (hN63 : db.numRows < 2 ^ 63) {resp : PuncHintResp}
    (hrows : resp.nRows = db.numRows) (hsize : resp.setSize = roundSqrt db.numRows)
    (newSetGenKey : Block) :
    (resp.initClient env newSetGenKey).Ensures fun c => c.Kept env db := by
  set gen₀ := newSetGenerator resp.setGenKey 0 resp.nRows resp.setSize with hgen₀
  have hloop : (Outcome.loop resp.hints.length (initStep env)
      ⟨[], List.replicate resp.nRows (-1), gen₀, []⟩).Ensures fun st =>
      st.sets.length = resp.hints.length ∧ st.setGen = { gen₀ with num := st.setGen.num } ∧
      (st.sets ≠ [] → Works db) ∧ PointersBelow resp.hints.length st.idxToSetIdx ∧
      ∀ key ∈ st.sets, key.shift < db.numRows ∧
        ∃ m < st.setGen.num, key.id = m % 2 ^ 32 ∧ gen₀.Accepts env (m % 2 ^ 32) := by
    refine Outcome.Ensures.loop (fun i (st : InitLoop) => st.sets.length = i ∧
      st.setGen = { gen₀ with num := st.setGen.num } ∧ (st.sets ≠ [] → Works db) ∧
      PointersBelow i st.idxToSetIdx ∧ ∀ key ∈ st.sets, key.shift < db.numRows ∧
        ∃ m < st.setGen.num, key.id = m % 2 ^ 32 ∧ gen₀.Accepts env (m % 2 ^ 32)) ?_ ?_
    · refine ⟨rfl, rfl, by simp, ?_, by simp⟩
      intro p hp hp0
      rw [List.eq_of_mem_replicate hp] at hp0
      omega
    · intro i hi st ⟨hlen, hgen, hworks, hptr, hkeys⟩
      have hset : st.setGen.setSize = roundSqrt db.numRows := by
        rw [hgen]
        exact hsize
      have huniv : st.setGen.univSize = db.numRows := by
        rw [hgen]
        exact hrows
      rw [initStep]
      refine (SetGenerator.generate_ensures (hset ▸ roundSqrt_pos hN) (hset ▸ roundSqrt_lt hN63)
        st.elems).bind ?_
      rintro ⟨pset, gen'⟩ ⟨⟨hle, hU⟩, m, ⟨hm, haccepts, -⟩, hid, hshift, hgen'⟩
      refine (Outcome.ensures_ofOption fun idx hidx => hidx).bind ?_
      intro idx hidx
      dsimp only at hid hshift hgen' hidx
      subst hgen'
      rw [hgen] at haccepts
      rw [hset] at hle hshift
      rw [huniv] at hU
      have hle' := roundSqrt_le_self hN
      refine Outcome.ensures_ok ⟨by simp [hlen], ?_, fun _ => ⟨hle, hU⟩, ?_, ?_⟩
      · dsimp only
        rw [hgen]
      · intro p hp hp0
        cases mem_setPointers hidx hp with
        | inl hp => exact (hptr p hp hp0).trans (Nat.lt_succ_self i)
        | inr heq =>
            rw [heq]
            exact Nat.lt_succ_of_le (toInt32_toNat_le i)
      · intro key hkey
        dsimp only at hkey ⊢
        cases List.mem_append.mp hkey with
        | inl hkey =>
            obtain ⟨hs, k, hk, hkid, hacc⟩ := hkeys key hkey
            exact ⟨hs, k, by omega, hkid, hacc⟩
        | inr hkey =>
            rw [List.mem_singleton.mp hkey]
            exact ⟨by omega, m, Nat.lt_succ_self m, hid, haccepts⟩
  rw [PuncHintResp.initClient]
  refine hloop.bind ?_
  rintro st ⟨hlen, hgen, hworks, hptr, hkeys⟩
  have hfor : st.setGen.For db := by
    rw [hgen]
    exact ⟨hrows, hsize⟩
  refine Outcome.ensures_ok ⟨hrows, hsize, hfor, ⟨hrows, hsize⟩, le_rfl, hworks,
    fun key hkey => (hkeys key hkey).1, ?_, hlen ▸ hptr⟩
  intro hnum key hkey
  obtain ⟨-, m, hm, hid, haccepts⟩ := hkeys key hkey
  have hlt : key.id < st.setGen.num % 2 ^ 32 := by
    have hnum' : st.setGen.num < 2 ^ 32 := hnum
    omega
  rw [genForKey]
  dsimp only
  rw [if_pos hlt, hgen, hid]
  exact haccepts

/-- What a client is asked to do between queries of interest: a `Query`, with or without the
`reconstruct` after it, on whatever the servers answered, or a `DummyQuery`. -/
inductive Op
  | query (a : PuncRead)
  | reconstruct (ctx : PuncQueryCtx) (resp : List PuncQueryResp)
  | dummyQuery (draws : List ℕ)

/-- The client after an operation. -/
def perform (env : Env) (c : PuncClient) : Op → Option (Unit × PuncClient)
  | .query a => (c.query env a.idx a.coin a.draws).toOption.map fun r => ((), r.2)
  | .reconstruct ctx resp => (c.reconstruct env ctx resp).map fun r => ((), r.2)
  | .dummyQuery draws => (c.dummyQuery env draws).toOption.map fun r => ((), r.2)

/-- One operation. -/
theorem perform_kept (hN : 0 < db.numRows) (hN63 : db.numRows < 2 ^ 63) (h : c.Kept env db)
    {op : Op} {out : Unit} {c' : PuncClient} (hop : c.perform env op = some (out, c')) :
    c'.Kept env db := by
  cases op with
  | query a =>
      obtain ⟨r, hr, heq⟩ := Option.map_eq_some_iff.mp hop
      obtain rfl := congrArg Prod.snd heq
      exact query_ensures hN hN63 h a r (Outcome.toOption_eq_some hr)
  | reconstruct ctx resp =>
      obtain ⟨r, hr, heq⟩ := Option.map_eq_some_iff.mp hop
      obtain rfl := congrArg Prod.snd heq
      obtain ⟨hints, hr⟩ := reconstruct_ensures hr
      rw [hr]
      exact h.with_hints hints
  | dummyQuery draws =>
      obtain ⟨r, hr, heq⟩ := Option.map_eq_some_iff.mp hop
      obtain rfl := congrArg Prod.snd heq
      exact dummyQuery_ensures hN hN63 h draws r (Outcome.toOption_eq_some hr)

/-! ## The rejection loops -/

/-- The calls of `randomMemberExcept` in each case of `Query` for row `i`, by the set and the
excluded row. The second call of a case is made when the first has returned. -/
inductive Samples (i : ℕ) (pset newSet : PuncturableSet) : Fin 3 → PuncturableSet → ℕ → Prop
  | extraL0 : Samples i pset newSet 0 newSet i
  | extraR0 {draws r} (h : randomMemberExcept newSet i draws = .ok r) :
      Samples i pset newSet 0 pset i
  | extraR1 : Samples i pset newSet 1 newSet i
  | extraL1 {draws r} (h : randomMemberExcept newSet i draws = .ok r) :
      Samples i pset newSet 1 newSet r.1
  | extraL2 : Samples i pset newSet 2 newSet i
  | extraR2 {draws r} (h : randomMemberExcept newSet i draws = .ok r) :
      Samples i pset newSet 2 newSet r.1

/-- The set has an element other than the excluded one, and a draw ends the loop. -/
def CanReturn (c : PuncClient) (set : PuncturableSet) (idx : ℕ) : Prop :=
  (∃ v ∈ set.elems, v ≠ idx) ∧
    ∃ d < c.setSize, ∀ draws, ∃ v, randomMemberExcept set idx (d :: draws) = .ok (v, draws)

/-- In a `Query` for row `i`, which set `s` covers, every rejection loop of every case can
return. -/
def NeverStuck (env : Env) (c : PuncClient) (i s : ℕ) : Prop :=
  ∀ pset newSet setGen, c.eval env s = .ok pset → c.setGen.genWith env i = .ok (newSet, setGen) →
    ∀ randCase set idx, Samples i pset newSet randCase set idx → c.CanReturn set idx

theorem mem_of_randomMemberExcept {set : PuncturableSet} {idx : ℕ} (draws : List ℕ) :
    (randomMemberExcept set idx draws).Ensures fun r => r.1 ∈ set.elems ∧ r.1 ≠ idx := by
  induction draws with
  | nil => exact Outcome.ensures_error _
  | cons d draws ih =>
      rw [randomMemberExcept]
      refine (Outcome.ensures_ofOption fun v hv => List.mem_of_getElem? hv).bind ?_
      intro v hv
      by_cases hne : v ≠ idx
      · rw [if_pos hne]
        exact Outcome.ensures_ok ⟨hv, hne⟩
      · rw [if_neg hne]
        exact ih

/-- The draw of another member ends the loop. -/
theorem exists_draw {set : PuncturableSet} {idx v : ℕ} (hv : v ∈ set.elems) (hne : v ≠ idx) :
    ∃ d < set.elems.length, ∀ draws, randomMemberExcept set idx (d :: draws) = .ok (v, draws) := by
  obtain ⟨d, hd, rfl⟩ := List.mem_iff_getElem.mp hv
  refine ⟨d, hd, fun draws => ?_⟩
  rw [randomMemberExcept, List.getElem?_eq_getElem hd, Outcome.ofOption_some, Outcome.ok_bind,
    if_pos hne]

theorem canReturn_iff {set : PuncturableSet} {idx : ℕ} (hlen : set.elems.length = c.setSize) :
    c.CanReturn set idx ↔ ∃ v ∈ set.elems, v ≠ idx := by
  constructor
  · intro h
    exact h.1
  · rintro ⟨v, hv, hne⟩
    obtain ⟨d, hd, hdraw⟩ := exists_draw hv hne
    exact ⟨⟨v, hv, hne⟩, d, hlen ▸ hd, fun draws => ⟨v, hdraw draws⟩⟩

/-- The loops of all three cases can return when every element of the new set has another beside
it, and the old one has an element other than the row. -/
theorem samples_iff {i : ℕ} {pset newSet : PuncturableSet} (hp : pset.elems.length = c.setSize)
    (hnew : newSet.elems.length = c.setSize) (hpos : 0 < c.setSize) :
    (∀ randCase set idx, Samples i pset newSet randCase set idx → c.CanReturn set idx) ↔
      (∀ v ∈ newSet.elems, ∃ w ∈ newSet.elems, w ≠ v) ∧ ∃ v ∈ pset.elems, v ≠ i := by
  constructor
  · intro h
    obtain ⟨v, hv, hne⟩ := (canReturn_iff hnew).mp (h _ _ _ .extraL0)
    obtain ⟨d, -, hdraw⟩ := exists_draw hv hne
    refine ⟨?_, (canReturn_iff hp).mp (h _ _ _ (.extraR0 (hdraw [])))⟩
    intro w hw
    by_cases hwi : w = i
    · exact ⟨v, hv, hwi ▸ hne⟩
    · obtain ⟨d', -, hdraw'⟩ := exists_draw hw hwi
      exact (canReturn_iff hnew).mp (h _ _ _ (.extraL1 (hdraw' [])))
  · rintro ⟨hother, hold⟩ randCase set idx hcall
    have hfirst : c.CanReturn newSet i := by
      obtain ⟨v, hv⟩ : ∃ v, v ∈ newSet.elems := List.exists_mem_of_length_pos (hnew ▸ hpos)
      rw [canReturn_iff hnew]
      by_cases hvi : v = i
      · exact hvi ▸ hother v hv
      · exact ⟨v, hv, hvi⟩
    have hsecond : ∀ {draws r}, randomMemberExcept newSet i draws = .ok r → c.CanReturn newSet r.1 :=
      fun h => (canReturn_iff hnew).mpr (hother _ (mem_of_randomMemberExcept _ _ h).1)
    cases hcall with
    | extraL0 => exact hfirst
    | extraR0 h => exact (canReturn_iff hp).mpr hold
    | extraR1 => exact hfirst
    | extraL1 h => exact hsecond h
    | extraL2 => exact hfirst
    | extraR2 h => exact hsecond h

/-- Where the elements of the two sets of a `Query` for row `i` lie, before they are shifted. There
are three rows at least. Not all elements of the new set are moved to where `0` is moved. Neither are
all elements of set `s`, with `0`, moved to row `i`; only when a key may name a set of the other
generator, after `2 ^ 32` numbers, `0` does not count. -/
structure Spread (env : Env) (db : StaticDB) (c : PuncClient) (i s : ℕ) : Prop where
  rows : 3 ≤ db.numRows
  newSet : ∀ m, c.setGen.Next env m → ∃ e ∈ c.setGen.tree env (m % 2 ^ 32),
    shiftedTo db.numRows (c.setGen.keyWith env i m).shift e ≠
      shiftedTo db.numRows (c.setGen.keyWith env i m).shift 0
  pset : ∀ m, c.setGen.Next env m → ∀ key, c.sets[s]? = some key →
    ∃ e ∈ (if c.setGen.num < 2 ^ 32 then [0] else []) ++ (c.genForKey key).tree env key.id,
      shiftedTo db.numRows key.shift e ≠ i

theorem Kept.genForKey_for (h : c.Kept env db) (key : SetKey) : (c.genForKey key).For db := by
  rw [genForKey]
  split_ifs
  · exact h.origSetGen
  · exact h.setGen

/-- Sets of two elements are shifted without passing the 32-bit limit. -/
theorem two_elems_small {shift : ℕ} (hshift : shift < db.numRows) (h : roundSqrt db.numRows = 2) :
    db.numRows % 2 ^ 32 + shift ≤ 2 ^ 32 := by
  have := le_of_roundSqrt_le h.le
  omega

/-- **Which clients cannot get stuck.** -/
theorem neverStuck_iff (hN : 0 < db.numRows) (hN63 : db.numRows < 2 ^ 63) (h : c.Kept env db)
    (i : ℕ) {s : ℕ} (hs : s < c.sets.length) :
    c.NeverStuck env i s ↔ c.Spread env db i s := by
  obtain ⟨hle, hU⟩ := h.works (List.ne_nil_of_length_pos (Nat.zero_lt_of_lt hs))
  have hpos := roundSqrt_pos hN
  have hsize := h.setGen.setSize_eq
  have huniv := h.setGen.univSize_eq
  have hkey := List.getElem?_eq_getElem hs
  set key := c.sets[s] with hkeydef
  have hfor := h.genForKey_for key
  have hshift := h.shifts key (List.getElem_mem hs)
  have heval : c.eval env s = .ok ⟨key, (c.genForKey key).univSize, (c.genForKey key).setSize,
      (c.genForKey key).seedOf env key.id, (c.genForKey key).elemsOf env key⟩ := by
    rw [eval, hkey, Outcome.ofOption_some, Outcome.ok_bind]
    exact SetGenerator.eval_eq_elemsOf (hfor.setSize_eq ▸ hpos) (hfor.setSize_eq ▸ hle)
      (hfor.univSize_eq ▸ hU) key
  have hplen : ((c.genForKey key).elemsOf env key).length = c.setSize := by
    rw [SetGenerator.length_elemsOf, hfor.setSize_eq, h.setSize_eq]
  have hnewlen : ∀ k, (c.setGen.elemsOf env k).length = c.setSize := by
    intro k
    rw [SetGenerator.length_elemsOf, hsize, h.setSize_eq]
  have hcpos : 0 < c.setSize := h.setSize_eq ▸ hpos
  have hnewshift : ∀ m, (c.setGen.keyWith env i m).shift < db.numRows := fun m =>
    huniv ▸ SetGenerator.keyWith_shift_lt (huniv ▸ hN) i m
  have htwo : ∀ m, c.setGen.Next env m → 2 ≤ roundSqrt db.numRows →
      ((∀ v ∈ c.setGen.elemsOf env (c.setGen.keyWith env i m),
          ∃ w ∈ c.setGen.elemsOf env (c.setGen.keyWith env i m), w ≠ v) ↔
        ∃ e ∈ c.setGen.tree env (m % 2 ^ 32),
          shiftedTo db.numRows (c.setGen.keyWith env i m).shift e ≠
            shiftedTo db.numRows (c.setGen.keyWith env i m).shift 0) := by
    intro m hm h2
    have hiff := @SetGenerator.exists_two_iff env c.setGen (c.setGen.keyWith env i m)
      (huniv ▸ hU) hm.2.1 (hsize ▸ h2)
      fun heq => huniv ▸ two_elems_small (hnewshift m) (hsize ▸ heq)
    rw [huniv] at hiff
    exact hiff
  constructor
  · intro hstuck
    have hall : ∀ m, c.setGen.Next env m →
        (∀ v ∈ c.setGen.elemsOf env (c.setGen.keyWith env i m),
          ∃ w ∈ c.setGen.elemsOf env (c.setGen.keyWith env i m), w ≠ v) ∧
        ∃ v ∈ (c.genForKey key).elemsOf env key, v ≠ i := by
      intro m hm
      exact (samples_iff hplen (hnewlen _) hcpos).mp (hstuck _ _ _ heval
        (SetGenerator.genWith_eq (hsize ▸ hpos) (hsize ▸ hle) (huniv ▸ hU) hm i))
    have hrows : 2 ≤ roundSqrt db.numRows := by
      by_contra hone
      -- a set of one element is always accepted
      have hlen : (c.setGen.tree env (c.setGen.num % 2 ^ 32)).length ≤ 1 := by
        rw [SetGenerator.length_tree, hsize]
        omega
      have hnext : c.setGen.Next env c.setGen.num := by
        refine ⟨le_rfl, ?_, fun k hk hlt => by omega⟩
        have hfilter := (List.length_filter_le (· ≠ 0) _).trans hlen
        rw [SetGenerator.Accepts, List.nodup_iff_count_le_one]
        exact fun e => List.count_le_length.trans hfilter
      obtain ⟨x, hx⟩ : ∃ x, c.setGen.elemsOf env (c.setGen.keyWith env i c.setGen.num) = [x] := by
        rw [← List.length_eq_one_iff, hnewlen, h.setSize_eq]
        omega
      have hother := (hall _ hnext).1
      rw [hx] at hother
      simp at hother
    refine ⟨(two_le_roundSqrt_iff _).mp hrows, fun m hm => (htwo m hm hrows).mp (hall m hm).1, ?_⟩
    intro m hm key' hkey'
    rw [hkey, Option.some.injEq] at hkey'
    obtain ⟨v, hv, hne⟩ := (hall m hm).2
    obtain ⟨e, he, rfl⟩ := List.mem_map.mp hv
    rw [hfor.univSize_eq] at hne
    exact ⟨e, List.mem_append_right _ (hkey' ▸ he), hkey' ▸ hne⟩
  · intro hspread pset newSet setGen hp hnew
    have hrows := (two_le_roundSqrt_iff _).mpr hspread.rows
    obtain ⟨-, m, hm, -, helems, -⟩ :=
      SetGenerator.genWith_ensures (hsize ▸ hpos) (hsize ▸ roundSqrt_lt hN63) i _ hnew
    rw [heval, Except.ok.injEq] at hp
    subst hp
    dsimp only at helems
    rw [samples_iff hplen (by rw [helems, hnewlen]) hcpos, helems]
    refine ⟨(htwo m hm hrows).mpr (hspread.newSet m hm), ?_⟩
    obtain ⟨e, he, hne⟩ := hspread.pset m hm key hkey
    rw [← hfor.univSize_eq] at hne
    cases List.mem_append.mp he with
    | inr he => exact ⟨_, List.mem_map_of_mem he, hne⟩
    | inl he =>
        split_ifs at he with hnum
        · rw [List.mem_singleton] at he
          subst he
          -- otherwise the elements are all in the row, and `0` is not
          by_contra hall
          push Not at hall
          obtain ⟨e, he⟩ : ∃ e, e ∈ (c.genForKey key).tree env key.id :=
            List.exists_mem_of_length_pos (by rw [SetGenerator.length_tree, hfor.setSize_eq]; exact hpos)
          have hmem : ∀ x ∈ (c.genForKey key).tree env key.id,
              shiftedTo (c.genForKey key).univSize key.shift x = i := fun x hx =>
            hall _ (List.mem_map_of_mem hx)
          obtain ⟨w, hw, hwne⟩ := (SetGenerator.exists_two_iff (hfor.univSize_eq ▸ hU)
            (h.accepted hnum key (List.getElem_mem hs)) (hfor.setSize_eq ▸ hrows)
            fun heq => hfor.univSize_eq ▸ two_elems_small hshift (hfor.setSize_eq ▸ heq)).mpr
            ⟨e, he, by rw [hmem e he]; exact hne.symm⟩ _ (List.mem_map_of_mem he)
          exact hwne ((hall w hw).trans (hmem e he).symm)
        · exact absurd he List.not_mem_nil

/-- The sizes that the server announces. -/
theorem process_ensures (req : PuncHintReq) :
    (req.process env db).Ensures fun resp =>
      resp.nRows = db.numRows ∧ resp.setSize = roundSqrt db.numRows := by
  rw [PuncHintReq.process]
  split_ifs
  · exact Outcome.ensures_error _
  · exact Outcome.Ensures.of_bind fun st => Outcome.ensures_ok ⟨rfl, rfl⟩

/-- **The clients whose rejection loops can all return**: for every number of rows, every cipher and
request, every client that any operations lead to, and every row that some set covers. -/
theorem rejection_returns_iff (env : Env) {db : StaticDB} (hN : 0 < db.numRows)
    (hN63 : db.numRows < 2 ^ 63) (req : PuncHintReq) {resp : PuncHintResp}
    (hresp : req.process env db = .ok resp) {newSetGenKey : Block} {c₀ : PuncClient}
    (hinit : resp.initClient env newSetGenKey = .ok c₀) {ops : List Op} {outs : List Unit}
    {c : PuncClient} (hrun : runActions (perform env) c₀ ops = some (outs, c)) {i s : ℕ}
    {c' : PuncClient} (hfind : c.findIndex env i = .ok (some s, c')) :
    c'.NeverStuck env i s ↔ c'.Spread env db i s := by
  obtain ⟨hrows, hsize⟩ := process_ensures req resp hresp
  have hkept : c.Kept env db := by
    refine runActions_invariant (fun c => c.Kept env db) ?_
      (initClient_kept hN hN63 hrows hsize newSetGenKey c₀ hinit) hrun
    intro c op out c' hc hop
    exact perform_kept hN hN63 hc hop
  obtain ⟨idx, heq, hidx, hs⟩ := findIndex_ensures hkept.pointers i _ hfind
  dsimp only at heq
  subst heq
  exact neverStuck_iff hN hN63 (hkept.with_pointers hidx) i (hs s rfl)

theorem rejection_returns_iff_three_rows : ∃ resp c₀ s c',
    (newPuncHintReq 0).process countingEnv threeRows = .ok resp ∧
    resp.initClient countingEnv 0 = .ok c₀ ∧
    c₀.findIndex countingEnv 1 = .ok (some s, c') ∧
    (c'.NeverStuck countingEnv 1 s ↔ c'.Spread countingEnv threeRows 1 s) := by
  have hall : ((newPuncHintReq 0).process countingEnv threeRows >>= fun resp =>
      resp.initClient countingEnv 0 >>= fun c₀ => c₀.findIndex countingEnv 1 >>= fun r =>
        .ok r.1.isSome) = .ok true := by
    decide +kernel
  obtain ⟨resp, hresp, hall⟩ := Outcome.bind_eq_ok hall
  obtain ⟨c₀, hinit, hall⟩ := Outcome.bind_eq_ok hall
  obtain ⟨⟨found, c'⟩, hfind, hall⟩ := Outcome.bind_eq_ok hall
  obtain ⟨s, rfl⟩ := Option.isSome_iff_exists.mp (Except.ok.inj hall)
  exact ⟨resp, c₀, s, c', hresp, hinit, hfind, rejection_returns_iff countingEnv (by decide)
    (by decide) (newPuncHintReq 0) hresp hinit (runActions_nil c₀) hfind⟩

/-- One row. -/
def oneRow : StaticDB := ⟨1, 1, 0, [1]⟩

/-- The one set of one row has no other member to draw. -/
theorem one_row_gets_stuck : ∃ resp c₀ s c',
    (newPuncHintReq 0).process countingEnv oneRow = .ok resp ∧
    resp.initClient countingEnv 0 = .ok c₀ ∧
    c₀.findIndex countingEnv 0 = .ok (some s, c') ∧ ¬c'.NeverStuck countingEnv 0 s := by
  have hall : ((newPuncHintReq 0).process countingEnv oneRow >>= fun resp =>
      resp.initClient countingEnv 0 >>= fun c₀ => c₀.findIndex countingEnv 0 >>= fun r =>
        .ok r.1.isSome) = .ok true := by
    decide +kernel
  obtain ⟨resp, hresp, hall⟩ := Outcome.bind_eq_ok hall
  obtain ⟨c₀, hinit, hall⟩ := Outcome.bind_eq_ok hall
  obtain ⟨⟨found, c'⟩, hfind, hall⟩ := Outcome.bind_eq_ok hall
  obtain ⟨s, rfl⟩ := Option.isSome_iff_exists.mp (Except.ok.inj hall)
  refine ⟨resp, c₀, s, c', hresp, hinit, hfind, fun hstuck => ?_⟩
  obtain ⟨hrows, hsize⟩ := process_ensures _ resp hresp
  have hkept : c₀.Kept countingEnv oneRow :=
    initClient_kept (by decide) (by decide) hrows hsize 0 c₀ hinit
  obtain ⟨idx, rfl, hidx, hs⟩ := findIndex_ensures hkept.pointers _ _ hfind
  have hspread := (neverStuck_iff (by decide) (by decide) (hkept.with_pointers hidx) 0
    (hs s rfl)).mp hstuck
  exact absurd hspread.rows (by decide)

end PuncClient

end SinglePassPIR.Pir
