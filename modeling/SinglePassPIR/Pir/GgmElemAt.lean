import SinglePassPIR.Pir.GgmSet
import Mathlib.Tactic.IntervalCases

/-!
# Random access into a punctured set

`puncturedGGMSet.elemAt` of `pset_ggm.go`. It looks for the level at which the paths to a position and to
the hole part, but its masks keep all lower bits instead of one, so that its loop stops in the first
round: it always evaluates the second key, one level too deep and at position `0`, and a tree of
height one makes it panic.

## Main results

* `elemAt_eq` — what `elemAt` returns, at every position.
* `elemAt_agrees_iff` — the sizes for which that is the element.
-/

namespace SinglePassPIR.Pir
open PerfectTree

/-- The loop of `elemAt`, from a height on: the height it stops at and what is left of `pos`. In the
round after height `0` the shift count is negative. -/
def elemAtLevel : ℕ → ℕ → ℕ → Option (ℕ × ℕ)
  | 0, _, _ => none
  | height + 1, hole, pos =>
      let mask := 1 <<< (height + 1) - 1
      let holeMsb := hole &&& mask
      let posMsb := pos &&& mask
      if holeMsb ≠ posMsb then some (height, Nat.ldiff pos mask)
      else elemAtLevel height (Nat.ldiff hole mask) (Nat.ldiff pos mask)

/-- `puncturedGGMSet.elemAt` -/
def PuncturedGgmSet.elemAt (set : PuncturedGgmSet) (pos : ℕ) : Option ℤ := do
  let pos := if set.hole ≤ pos then pos + 1 else pos
  let (height, pos) ← elemAtLevel set.height set.hole pos
  if height = 0 then none
  else do
    let key ← set.keys[set.height - height]?
    treeEval set.prg key height set.univSize pos

/-- The set of a key, punctured at any of its elements, has the same elements by position as by full
evaluation. -/
def ElemAtAgrees (prg : Bytes 16 → Bytes 16) (key : Bytes 16) (univSize setSize : ℕ) : Prop :=
  ∀ (elems : List ℤ) (idx : ℤ) (hole : ℕ), (setGen prg key univSize setSize).eval = some elems →
    elems[hole]? = some idx → (∀ j < hole, elems[j]? ≠ some idx) →
    ∃ p es, (setGen prg key univSize setSize).punc idx = some p ∧ p.eval = some es ∧
      ∀ pos < p.setSize, ∃ e, es[pos]? = some e ∧ p.elemAt pos = some e

/-! ## What `elemAt` returns -/

/-- The loop stops in its first round. -/
theorem elemAtLevel_eq {height hole pos : ℕ} (hhole : hole < 2 ^ (height + 1))
    (hpos : pos < 2 ^ (height + 1)) (hne : hole ≠ pos) :
    elemAtLevel (height + 1) hole pos = some (height, 0) := by
  have hmask : ∀ i < 2 ^ (height + 1), i &&& (2 ^ (height + 1) - 1) = i := by
    intro i hi
    rw [Nat.and_two_pow_sub_one_eq_mod, Nat.mod_eq_of_lt hi]
  have hclear : Nat.ldiff pos (2 ^ (height + 1) - 1) = 0 := by
    apply Nat.eq_of_testBit_eq
    intro k
    rw [Nat.testBit_ldiff, Nat.testBit_two_pow_sub_one, Nat.zero_testBit]
    by_cases hk : k < height + 1
    · simp [hk]
    · rw [Nat.testBit_lt_two_pow (hpos.trans_le (Nat.pow_le_pow_right (by decide) (by omega)))]
      rfl
  rw [elemAtLevel, Nat.one_shiftLeft, hmask hole hhole, hmask pos hpos, if_pos hne, hclear]

variable {prg : Bytes 16 → Bytes 16} {key : Bytes 16} {univSize setSize hole pos : ℕ}

/-- The punctured set at a hole. -/
def puncturedAt (prg : Bytes 16 → Bytes 16) (key : Bytes 16) (univSize setSize hole : ℕ) :
    PuncturedGgmSet :=
  { keys := copath (leftChild prg) (rightChild prg) (Nat.clog 2 setSize) key hole
    hole, setSize := setSize - 1, univSize, height := Nat.clog 2 setSize, prg }

/-- **`elemAt` does not depend on the position**: it returns the first leaf below the second key of
the punctured set, as if that were a child of the root. -/
theorem elemAt_eq {height : ℕ} (hheight : Nat.clog 2 setSize = height + 1) (hhole : hole < setSize)
    (hpos : pos < setSize - 1) :
    (puncturedAt prg key univSize setSize hole).elemAt pos =
      if height = 0 then none
      else (puncturedAt prg key univSize setSize hole).keys[1]?.bind fun key =>
        treeEval prg key height univSize 0 := by
  have hle := le_two_pow_clog setSize
  rw [hheight] at hle
  have hlevel : elemAtLevel (height + 1) hole (if hole ≤ pos then pos + 1 else pos) =
      some (height, 0) := by
    apply elemAtLevel_eq
    · omega
    · split_ifs <;> omega
    · split_ifs <;> omega
  rw [PuncturedGgmSet.elemAt]
  simp only [puncturedAt, hheight, hlevel, Option.bind_eq_bind, Option.bind_some,
    Nat.add_sub_cancel_left]

/-- Trees of at least three leaves have a second key. -/
theorem exists_second_key {height : ℕ} (hheight : Nat.clog 2 setSize = height + 1)
    (hpos : height ≠ 0) :
    ∃ key', (puncturedAt prg key univSize setSize hole).keys[1]? = some key' := by
  have hlen : 1 < (puncturedAt prg key univSize setSize hole).keys.length := by
    rw [puncturedAt, length_copath]
    omega
  exact ⟨_, List.getElem?_eq_getElem hlen⟩

/-- A universe whose size is zero as a 32-bit number makes `treeEvalAll` panic at its first leaf. -/
theorem run_eq_none (huniv : univSize % 2 ^ 32 = 0) {height : ℕ} (fuel : ℕ) (st : TreeWalk) :
    TreeWalk.run prg height univSize fuel st = none := by
  induction fuel generalizing st with
  | zero => rfl
  | succ fuel ih =>
      rw [TreeWalk.run_succ]
      cases hstep : st.step prg height univSize with
      | none => rfl
      | some next =>
          cases next with
          | inl st' => exact ih st'
          | inr st' =>
              -- only the part after a leaf leaves the loop
              rw [TreeWalk.step] at hstep
              split_ifs at hstep with hleaf
              · simp at hstep
              · simp [Option.bind_eq_some_iff] at hstep

theorem setGen_eval_eq_none (huniv : univSize % 2 ^ 32 = 0) :
    (setGen prg key univSize setSize).eval = none := by
  rw [GgmSet.eval, GgmSet.evalPrealloc, setGen, treeEvalAll, run_eq_none huniv]
  rfl

/-! ## Where it is wrong -/

/-- What agreement says once the set and its punctured form are known. -/
theorem ElemAtAgrees.elemAt_eq (h : ElemAtAgrees prg key univSize setSize)
    (huniv : univSize % 2 ^ 32 ≠ 0) {idx : ℤ}
    (hidx : (ggmSetElems prg key univSize setSize)[hole]? = some idx)
    (hfirst : ∀ j < hole, (ggmSetElems prg key univSize setSize)[j]? ≠ some idx)
    (hpos : pos < setSize - 1) :
    (puncturedAt prg key univSize setSize hole).elemAt pos =
      ((ggmSetElems prg key univSize setSize).eraseIdx hole)[pos]? := by
  have hhole : hole < setSize := by
    have hlt := (List.getElem?_eq_some_iff.mp hidx).1
    rwa [length_ggmSetElems] at hlt
  obtain ⟨p, es, hpunc, heval, hall⟩ := h _ idx hole (setGen_eval huniv) hidx hfirst
  rw [setGen_punc huniv hidx hfirst] at hpunc
  obtain rfl := Option.some.inj hpunc
  rw [puncturedSet_eval huniv hhole] at heval
  obtain rfl := Option.some.inj heval
  obtain ⟨e, he, helem⟩ := hall pos hpos
  rw [he]
  exact helem

/-- A set of two elements: the punctured set has one, and `elemAt` panics. -/
theorem not_agrees_two (prg : Bytes 16 → Bytes 16) (key : Bytes 16)
    (huniv : univSize % 2 ^ 32 ≠ 0) : ¬ElemAtAgrees prg key univSize 2 := by
  intro h
  have hclog : Nat.clog 2 2 = 0 + 1 := by decide
  obtain ⟨idx, hidx⟩ : ∃ idx, (ggmSetElems prg key univSize 2)[0]? = some idx :=
    ⟨_, getElem?_ggmSetElems (by decide)⟩
  have helem := h.elemAt_eq huniv hidx (by simp) (by decide : 0 < 2 - 1)
  rw [elemAt_eq hclog (by decide) (by decide), if_pos rfl, eq_comm, List.getElem?_eq_none_iff,
    List.length_eraseIdx_of_lt (by rw [length_ggmSetElems]; decide), length_ggmSetElems] at helem
  exact absurd helem (by decide)

/-- A set of three elements or more has a tree of height two or more. -/
theorem clog_eq_of_three_le (hset : 3 ≤ setSize) : ∃ h, Nat.clog 2 setSize = h + 2 := by
  have hle := le_two_pow_clog setSize
  refine ⟨Nat.clog 2 setSize - 2, ?_⟩
  by_contra hsmall
  have hpow : 2 ^ Nat.clog 2 setSize ≤ 2 ^ 1 := Nat.pow_le_pow_right (by decide) (by omega)
  omega

/-- Under a cipher that is zero everywhere, a left child has the key of its parent. -/
theorem leafAt_zeroCipher (h : ℕ) (key : Bytes 16) {i : ℕ} (hi : i < 4) :
    leafAt (leftChild fun _ => 0) (rightChild fun _ => 0) (h + 2) key i =
      leafAt (leftChild fun _ => 0) (rightChild fun _ => 0) 2 key i := by
  induction h with
  | zero => rfl
  | succ h ih =>
      have hlt : i < 2 ^ (h + 2) := by
        have hpow : 2 ^ 2 ≤ 2 ^ (h + 2) := Nat.pow_le_pow_right (by decide) (by omega)
        omega
      have hleft : leftChild (fun _ => 0) key = key := by rw [leftChild, zero_add]
      rw [leafAt, if_pos hlt, hleft, ih]

/-- The elements at both positions are found at one place, and are not the same. -/
theorem not_agrees_zeroCipher (huniv : 2 ≤ univSize % 2 ^ 32) (hset : 3 ≤ setSize) :
    ¬ElemAtAgrees (fun _ => 0) 0 univSize setSize := by
  intro h
  obtain ⟨m, hclog⟩ := clog_eq_of_three_le hset
  have helem : ∀ i < 3, (ggmSetElems (fun _ => 0) 0 univSize setSize)[i]? =
      some (if i = 0 then 0 else 1) := by
    intro i hi
    rw [getElem?_ggmSetElems (by omega), hclog, leafAt_zeroCipher m 0 (by omega), leafElem]
    have hone : 1 % (univSize % 2 ^ 32) = 1 := Nat.mod_eq_of_lt (by omega)
    have hword : keyWord32 (leafAt (leftChild fun _ => 0) (rightChild fun _ => 0) 2 0 i) =
        if i = 0 then 0 else 1 := by
      interval_cases i <;> decide +kernel
    rw [hword]
    split_ifs
    · rw [Nat.zero_mod]
      rfl
    · rw [hone]
      rfl
  have hidx : (ggmSetElems (fun _ => 0) 0 univSize setSize)[1]? = some 1 := helem 1 (by decide)
  have hfirst : ∀ j < 1, (ggmSetElems (fun _ => 0) 0 univSize setSize)[j]? ≠ some 1 := by
    intro j hj
    obtain rfl : j = 0 := by omega
    rw [helem 0 (by decide)]
    decide
  have h0 := h.elemAt_eq (by omega) hidx hfirst (by omega : 0 < setSize - 1)
  have h1 := h.elemAt_eq (by omega) hidx hfirst (by omega : 1 < setSize - 1)
  rw [elemAt_eq hclog (by omega) (by omega), List.getElem?_eraseIdx_of_lt (by decide),
    helem 0 (by decide)] at h0
  rw [elemAt_eq hclog (by omega) (by omega), List.getElem?_eraseIdx_of_ge (by decide),
    helem 2 (by decide), h0] at h1
  exact absurd h1 (by decide)

/-- The key `1`. -/
def keyOne : Bytes 16 := flipSeed 0

/-- Under the cipher that adds `keyOne`, every node but the root has that key. -/
theorem leafAt_keyOne (h : ℕ) (key : Bytes 16) (i : ℕ) :
    leafAt (leftChild fun k => k + keyOne) (rightChild fun k => k + keyOne) (h + 1) key i =
      keyOne := by
  have hadd : ∀ k : Bytes 16, k + keyOne + k = keyOne := by
    intro k
    rw [add_comm k, XorGroup.add_add_self]
  induction h generalizing key i with
  | zero =>
      rw [leafAt]
      split_ifs
      · exact hadd key
      · exact hadd (flipSeed key)
  | succ h ih =>
      rw [leafAt]
      split_ifs
      · exact ih _ _
      · exact ih _ _

/-- A universe whose size is `1` as a 32-bit number, and not `1`. -/
theorem not_agrees_keyOne (huniv : univSize % 2 ^ 32 = 1) (hne : univSize ≠ 1) (hset : 3 ≤ setSize) :
    ¬ElemAtAgrees (fun k => k + keyOne) 0 univSize setSize := by
  intro h
  obtain ⟨m, hclog⟩ := clog_eq_of_three_le hset
  have helem : ∀ i < setSize, (ggmSetElems (fun k => k + keyOne) 0 univSize setSize)[i]? =
      some 0 := by
    intro i hi
    rw [getElem?_ggmSetElems hi, leafElem, huniv, Nat.mod_one]
    rfl
  have h0 := h.elemAt_eq (by omega) (helem 0 (by omega)) (by simp) (by omega : 0 < setSize - 1)
  obtain ⟨key', hkey⟩ := @exists_second_key (fun k => k + keyOne) 0 univSize setSize 0 (m + 1) hclog
    (Nat.succ_ne_zero m)
  rw [elemAt_eq hclog (by omega) (by omega), if_neg (Nat.succ_ne_zero m), hkey, Option.bind_some,
    treeEval_eq _ _ (by omega) (Nat.two_pow_pos _), leafAt_keyOne,
    List.getElem?_eraseIdx_of_ge (Nat.zero_le 0), helem 1 (by omega), Option.some.injEq] at h0
  have hword : keyWord32 keyOne = 1 := by decide +kernel
  rw [hword, Int.emod_eq_of_lt (by decide) (by omega)] at h0
  exact absurd h0 (by decide)

/-! ## Where it is right -/

/-- A universe of one element. -/
theorem agrees_one (prg : Bytes 16 → Bytes 16) (key : Bytes 16) (hset : 3 ≤ setSize) :
    ElemAtAgrees prg key 1 setSize := by
  intro elems idx hole heval hidx hfirst
  have huniv : 1 % 2 ^ 32 ≠ 0 := by decide
  rw [setGen_eval huniv] at heval
  obtain rfl := Option.some.inj heval
  have hhole : hole < setSize := by
    have hlt := (List.getElem?_eq_some_iff.mp hidx).1
    rwa [length_ggmSetElems] at hlt
  obtain ⟨m, hclog⟩ := clog_eq_of_three_le hset
  refine ⟨_, _, setGen_punc huniv hidx hfirst, puncturedSet_eval huniv hhole, ?_⟩
  intro pos hpos
  refine ⟨0, ?_, ?_⟩
  · have helem : ∀ i < setSize, (ggmSetElems prg key 1 setSize)[i]? = some 0 := by
      intro i hi
      rw [getElem?_ggmSetElems hi, leafElem, Nat.mod_eq_of_lt (by decide : 1 < 2 ^ 32), Nat.mod_one]
      rfl
    dsimp only at hpos
    rw [List.getElem?_eraseIdx]
    split_ifs
    · exact helem pos (by omega)
    · exact helem (pos + 1) (by omega)
  · obtain ⟨key', hkey⟩ := @exists_second_key prg key 1 setSize hole (m + 1) hclog
      (Nat.succ_ne_zero m)
    have helem := @elemAt_eq prg key 1 setSize hole pos (m + 1) hclog hhole hpos
    rw [if_neg (Nat.succ_ne_zero m), hkey, Option.bind_some,
      treeEval_eq _ _ (by decide) (Nat.two_pow_pos _), Nat.cast_one, Int.emod_one] at helem
    exact helem

/-- **The sizes for which random access agrees with full evaluation**, for all ciphers, keys and
holes: a universe of one element and a set of more than two. (A universe whose size is zero as a
32-bit number has no sets.) -/
theorem elemAt_agrees_iff (univSize : ℕ) {setSize : ℕ} (hset : 2 ≤ setSize) :
    (∀ prg key, ElemAtAgrees prg key univSize setSize) ↔
      univSize % 2 ^ 32 = 0 ∨ (univSize = 1 ∧ 3 ≤ setSize) := by
  constructor
  · intro h
    by_contra hcon
    rw [not_or] at hcon
    obtain ⟨huniv, hsizes⟩ := hcon
    by_cases htwo : setSize = 2
    · subst htwo
      exact not_agrees_two id 0 huniv (h id 0)
    · by_cases hone : univSize % 2 ^ 32 = 1
      · exact not_agrees_keyOne hone (fun h1 => hsizes ⟨h1, by omega⟩) (by omega) (h _ _)
      · exact not_agrees_zeroCipher (by omega) (by omega) (h _ _)
  · intro h prg key
    cases h with
    | inl hzero =>
        intro elems idx hole heval
        rw [setGen_eval_eq_none hzero] at heval
        cases heval
    | inr hone =>
        obtain ⟨rfl, hthree⟩ := hone
        exact agrees_one prg key hthree

theorem elemAt_agrees_iff_three :
    (∀ prg key, ElemAtAgrees prg key 5 3) ↔ 5 % 2 ^ 32 = 0 ∨ ((5 : ℕ) = 1 ∧ 3 ≤ 3) :=
  elemAt_agrees_iff 5 (by decide)

/-- A set of three elements over a universe of two: the access to the second element that is left
returns the first; and a set of two elements, where it panics. -/
theorem elemAt_misses :
    ¬ElemAtAgrees (fun _ => 0) 0 2 3 ∧ ¬ElemAtAgrees (fun _ => 0) 0 2 2 :=
  ⟨not_agrees_zeroCipher (by decide) (by decide), not_agrees_two _ 0 (by decide)⟩

end SinglePassPIR.Pir
