import SinglePassPIR.Pir.Punc

/-!
# The invariant of the puncturable-set client

`SetInvariant` says what holds of the sets and the pointers of the client at all times, whatever its
hints hold. Each operation of the client has one lemma: it does not fault, it keeps the
invariant, and its result is described in terms of the elements of the sets.

## Main results

* `findIndex_spec` — a set that is found contains the row.
* `queryCase_spec` — what the servers answer in each of the three cases, and what `Query` does
  to the sets.
-/

namespace SinglePassPIR.Pir
open Psetggm

variable {env : Env} {db : StaticDB} {n : ℕ}

/-- A table whose sizes the kernels can represent. -/
structure PuncFits (db : StaticDB) (n : ℕ) : Prop where
  wf : db.WF n
  rowLen_pos : 0 < n
  numRows_pos : 0 < db.numRows
  numRows_le : db.numRows ≤ 2 ^ 31
  flat_lt : db.numRows * n < 2 ^ 32

theorem roundSqrt_le_sqrt (N : ℕ) : roundSqrt N ≤ Nat.sqrt N + 1 := by
  rw [roundSqrt]
  split_ifs
  · exact Nat.le_succ _
  · exact le_rfl

theorem roundSqrt_pos {N : ℕ} (hN : 0 < N) : 0 < roundSqrt N := by
  have hpos : 0 < Nat.sqrt N := Nat.sqrt_pos.mpr hN
  rw [roundSqrt]
  split_ifs
  · exact hpos
  · exact Nat.succ_pos _

theorem roundSqrt_le_self {N : ℕ} (hN : 0 < N) : roundSqrt N ≤ N := by
  have hle : Nat.sqrt N * Nat.sqrt N ≤ N := Nat.sqrt_le N
  have hpos : 0 < Nat.sqrt N := Nat.sqrt_pos.mpr hN
  rw [roundSqrt]
  split_ifs
  · nlinarith
  · nlinarith

theorem le_roundSqrt_mul (N : ℕ) : N ≤ roundSqrt N * roundSqrt N + roundSqrt N := by
  have hlt : N < (Nat.sqrt N + 1) * (Nat.sqrt N + 1) := Nat.lt_succ_sqrt N
  rw [roundSqrt]
  split_ifs with h
  · exact h
  · nlinarith

theorem roundSqrt_bounds {N : ℕ} (hN : 0 < N) (hN31 : N ≤ 2 ^ 31) :
    0 < roundSqrt N ∧ roundSqrt N ≤ 46342 ∧ roundSqrt N ≤ N ∧
      N ≤ roundSqrt N * roundSqrt N + roundSqrt N := by
  have hsqrt : Nat.sqrt N < 46342 := Nat.sqrt_lt'.mpr (hN31.trans_lt (by norm_num))
  have hle := roundSqrt_le_sqrt N
  exact ⟨roundSqrt_pos hN, by omega, roundSqrt_le_self hN, le_roundSqrt_mul N⟩

/-! ## Members of a set -/

/-- The elements of the set that a key of the client names. -/
def PuncClient.members (env : Env) (c : PuncClient) (key : SetKey) : List ℕ :=
  (c.genForKey key).members env key

/-- The sizes of a generator for the table. -/
structure SetGenerator.For (db : StaticDB) (gen : SetGenerator) : Prop where
  univSize_eq : gen.univSize = db.numRows
  setSize_eq : gen.setSize = roundSqrt db.numRows

theorem SetGenerator.For.fits {gen : SetGenerator} (h : gen.For db) (hfit : PuncFits db n) :
    gen.baseGen.Fits := by
  obtain ⟨hpos, hle, -, -⟩ := roundSqrt_bounds hfit.numRows_pos hfit.numRows_le
  have hset : gen.baseGen.setSize = roundSqrt db.numRows := h.setSize_eq
  have huniv : gen.baseGen.univSize = db.numRows := h.univSize_eq
  constructor
  · exact hset ▸ hpos
  · exact hset ▸ hle.trans (by decide)
  · exact huniv ▸ hfit.numRows_pos
  · exact huniv ▸ hfit.numRows_le

/-- The sets and the pointers of a client are sound. -/
structure PuncClient.SetInvariant (env : Env) (db : StaticDB) (c : PuncClient) : Prop where
  nRows_eq : c.nRows = db.numRows
  setSize_eq : c.setSize = roundSqrt db.numRows
  origSetGen : c.origSetGen.For db
  setGen : c.setGen.For db
  num_le : c.origSetGen.num ≤ c.setGen.num
  orig_lt : c.origSetGen.num < 2 ^ 32
  hints_length : c.hints.length = c.sets.length
  sets_pos : 0 < c.sets.length
  sets_lt : c.sets.length < 2 ^ 31
  keys : ∀ key ∈ c.sets, key.shift < 2 ^ 31 ∧ key.id < c.setGen.num
  pointers_length : c.idxToSetIdx.length = db.numRows
  pointers : ∀ v s, c.idxToSetIdx[v]? = some s → 0 ≤ s →
    ∃ key, c.sets[s.toNat]? = some key ∧ v ∈ c.members env key

/-- Hint `s` is the row `H s`. -/
def PuncClient.HintsAre (n : ℕ) (c : PuncClient) (H : ℕ → Bytes n) : Prop :=
  ∀ s < c.sets.length, c.hints[s]? = some (H s).toList

variable {c : PuncClient}

theorem toInt32_eq {i : ℕ} (h : i < 2 ^ 31) : toInt32 i = i := by
  have h2 : ((2 ^ 32 : ℕ) : ℤ) = 4294967296 := by norm_num
  exact Int.bmod_eq_of_le (by rw [h2]; omega) (by rw [h2]; omega)

theorem genForKey_for (h : c.SetInvariant env db) (key : SetKey) : (c.genForKey key).For db := by
  rw [PuncClient.genForKey]
  split_ifs
  · exact h.origSetGen
  · exact h.setGen

theorem members_lt (h : c.SetInvariant env db) (hfit : PuncFits db n) {key : SetKey} {v : ℕ}
    (hv : v ∈ c.members env key) : v < db.numRows := by
  have hfor := genForKey_for h key
  exact hfor.univSize_eq ▸ SetGenerator.members_lt (hfor.fits hfit) hv

/-- `eval` gives the set that the key names. -/
theorem eval_eq (h : c.SetInvariant env db) (hfit : PuncFits db n) {s : ℕ} {key : SetKey}
    (hs : c.sets[s]? = some key) :
    c.eval env s = .ok ⟨key, db.numRows, roundSqrt db.numRows, (c.genForKey key).seedOf env key.id,
      c.members env key⟩ := by
  have hfor := genForKey_for h key
  have hshift := (h.keys key (List.mem_of_getElem? hs)).1
  rw [PuncClient.eval, hs, Outcome.ofOption_some, Outcome.ok_bind,
    SetGenerator.eval_spec (hfor.fits hfit) hshift, hfor.univSize_eq, hfor.setSize_eq]
  rfl

/-! ## Pointers -/

theorem setPointers_spec (s : ℤ) (elems : List ℕ) {idx : List ℤ}
    (helems : ∀ v ∈ elems, v < idx.length) :
    ∃ idx', setPointers s elems idx = some idx' ∧ idx'.length = idx.length ∧
      ∀ v : ℕ, idx'[v]? = if v ∈ elems then some s else idx[v]? := by
  induction elems generalizing idx with
  | nil => exact ⟨idx, rfl, rfl, by simp⟩
  | cons e elems ih =>
      have he := helems e List.mem_cons_self
      obtain ⟨idx', hset, hlen, hidx'⟩ := @ih (idx.set e s) (by
        intro v hv
        rw [List.length_set]
        exact helems v (List.mem_cons_of_mem e hv))
      refine ⟨idx', ?_, by rw [hlen, List.length_set], ?_⟩
      · rw [setPointers, List.foldlM_cons, writeAt_eq he]
        exact hset
      · intro v
        rw [hidx', List.getElem?_set]
        by_cases hv : v ∈ elems
        · simp [hv]
        · by_cases hve : v = e
          · subst hve
            simp [hv, he]
          · simp [hv, hve, Ne.symm hve]

theorem clearPointer_spec (s : ℤ) {idx : List ℤ} {e : ℕ} (hlen : idx.length = c.nRows)
    (he : e < c.nRows) :
    ∃ idx', c.clearPointer s idx e = some idx' ∧ idx'.length = c.nRows ∧
      ∀ v : ℕ, idx'[v]? = if v = e ∧ idx[v]? = some s then some (-1) else idx[v]? := by
  obtain ⟨p, hp⟩ : ∃ p, idx[e]? = some p := ⟨_, List.getElem?_eq_getElem (hlen ▸ he)⟩
  rw [PuncClient.clearPointer, if_pos he, hp, Option.bind_eq_bind, Option.bind_some]
  by_cases hps : p = s
  · refine ⟨idx.set e (-1), ?_, by rw [List.length_set, hlen], ?_⟩
    · rw [if_pos hps, writeAt_eq (hlen ▸ he)]
    · intro v
      rw [List.getElem?_set]
      by_cases hve : v = e
      · subst hve
        rw [if_pos rfl, if_pos (hlen ▸ he), if_pos ⟨rfl, hps ▸ hp⟩]
      · rw [if_neg (Ne.symm hve), if_neg (by simp [hve])]
  · refine ⟨idx, if_neg hps, hlen, ?_⟩
    intro v
    rw [if_neg]
    rintro ⟨rfl, hv⟩
    rw [hp] at hv
    exact hps (Option.some.inj hv)

theorem clearPointers_spec (s : ℤ) (elems : List ℕ) {idx : List ℤ} (hlen : idx.length = c.nRows)
    (helems : ∀ v ∈ elems, v < c.nRows) :
    ∃ idx', c.clearPointers s elems idx = some idx' ∧ idx'.length = c.nRows ∧
      ∀ (v : ℕ) p, idx'[v]? = some p → p = -1 ∨ (idx[v]? = some p ∧ ¬(v ∈ elems ∧ p = s)) := by
  induction elems generalizing idx with
  | nil => exact ⟨idx, rfl, hlen, fun v p h => Or.inr ⟨h, by simp⟩⟩
  | cons e elems ih =>
      obtain ⟨idx₁, hone, hlen₁, hidx₁⟩ := clearPointer_spec s hlen (helems e List.mem_cons_self)
      obtain ⟨idx', hall, hlen', hidx'⟩ := ih hlen₁ fun v hv =>
        helems v (List.mem_cons_of_mem e hv)
      refine ⟨idx', ?_, hlen', ?_⟩
      · rw [PuncClient.clearPointers, List.foldlM_cons, hone]
        exact hall
      · intro v p hvp
        cases hidx' v p hvp with
        | inl h => exact Or.inl h
        | inr h =>
            obtain ⟨h1, hnot⟩ := h
            rw [hidx₁] at h1
            split_ifs at h1 with hve
            · exact Or.inl (Option.some.inj h1).symm
            · refine Or.inr ⟨h1, ?_⟩
              rintro ⟨hmem, rfl⟩
              cases List.mem_cons.mp hmem with
              | inl heq => exact hve ⟨heq, h1⟩
              | inr hmem => exact hnot ⟨hmem, rfl⟩

/-! ## Looking up a row -/

/-- The scan of one set: the row is found only if it is a member, and every pointer is
either untouched or goes to a member. -/
theorem scanElems_spec (hfit : PuncFits db n) (hrows : c.nRows = db.numRows) (i : ℤ) (j : ℕ)
    {shift : ℕ} (hshift : shift < 2 ^ 31) (elems : List ℕ) {idx : List ℤ}
    (hlen : idx.length = db.numRows) (helems : ∀ v ∈ elems, v < db.numRows) :
    ∃ r, c.scanElems i j shift db.numRows elems idx = some r ∧ r.2.length = db.numRows ∧
      (r.1 = true → ∃ v ∈ elems, (((v + shift) % db.numRows : ℕ) : ℤ) = i) ∧
      ∀ v p, r.2[v]? = some p → idx[v]? = some p ∨
        (p = toInt32 j ∧ ∃ e ∈ elems, (e + shift) % db.numRows = v) := by
  have hpos := hfit.numRows_pos
  have hle := hfit.numRows_le
  have huniv : db.numRows % 2 ^ 32 = db.numRows := Nat.mod_eq_of_lt (by omega)
  induction elems generalizing idx with
  | nil => exact ⟨(false, idx), rfl, hlen, by simp, fun v p h => Or.inl h⟩
  | cons e elems ih =>
      have he : e < db.numRows := helems e List.mem_cons_self
      have helems' : ∀ v ∈ elems, v < db.numRows := fun v hv => helems v (List.mem_cons_of_mem e hv)
      have hshifted : (e % 2 ^ 32 + shift) % 2 ^ 32 % (db.numRows % 2 ^ 32) =
          (e + shift) % db.numRows := by
        rw [huniv, Nat.mod_eq_of_lt (by omega : e < 2 ^ 32),
          Nat.mod_eq_of_lt (by omega : e + shift < 2 ^ 32)]
      have hmod : (e + shift) % db.numRows < db.numRows := Nat.mod_lt _ hpos
      rw [PuncClient.scanElems, if_neg (by omega), hshifted]
      dsimp only
      by_cases hfound : (((e + shift) % db.numRows : ℕ) : ℤ) = i
      · rw [if_pos hfound]
        exact ⟨(true, idx), rfl, hlen, fun _ => ⟨e, List.mem_cons_self, hfound⟩,
          fun v p h => Or.inl h⟩
      · rw [if_neg hfound, if_pos (hrows ▸ hmod), writeAt_eq (hlen ▸ hmod), Option.bind_eq_bind,
          Option.bind_some]
        obtain ⟨r, hscan, hlen', hmem, hptr⟩ :=
          @ih (idx.set ((e + shift) % db.numRows) (toInt32 j))
          (by rw [List.length_set, hlen]) helems'
        refine ⟨r, hscan, hlen', ?_, ?_⟩
        · intro hr
          obtain ⟨v, hv, hvi⟩ := hmem hr
          exact ⟨v, List.mem_cons_of_mem e hv, hvi⟩
        · intro v p hvp
          cases hptr v p hvp with
          | inl h =>
              rw [List.getElem?_set] at h
              split_ifs at h with hve
              · exact Or.inr ⟨(Option.some.inj h).symm, e, List.mem_cons_self, hve⟩
              · exact Or.inl h
          | inr h =>
              obtain ⟨hp, x, hx, hxv⟩ := h
              exact Or.inr ⟨hp, x, List.mem_cons_of_mem e hx, hxv⟩

/-- The members of a set are those of the unshifted set, shifted. -/
theorem SetGenerator.members_eq_map (gen : SetGenerator) (key : SetKey) :
    gen.members env key =
      (gen.members env { key with shift := 0 }).map fun e => (e + key.shift) % gen.univSize := by
  simp only [SetGenerator.members, shiftedElems, List.map_map]
  refine List.map_congr_left fun e _ => ?_
  exact (Nat.mod_add_mod e _ _).symm

/-- A pointer is sound: it is negative or goes to a set with the row in it. -/
def PuncClient.PointerOk (env : Env) (c : PuncClient) (v : ℕ) (s : ℤ) : Prop :=
  0 ≤ s → ∃ key, c.sets[s.toNat]? = some key ∧ v ∈ c.members env key

theorem scanSets_spec (h : c.SetInvariant env db) (hfit : PuncFits db n) (i : ℤ)
    (sets : List SetKey) (j : ℕ) (elems : List ℕ) {idx : List ℤ} (hsets : sets = c.sets.drop j)
    (hlen : idx.length = db.numRows) (hidx : ∀ v s, idx[v]? = some s → c.PointerOk env v s) :
    ∃ r, c.scanSets env i sets j elems idx = .ok r ∧ r.2.length = db.numRows ∧
      (∀ v s, r.2[v]? = some s → c.PointerOk env v s) ∧
      ∀ s, r.1 = some s → ∃ key, c.sets[s]? = some key ∧ ∃ v ∈ c.members env key, (v : ℤ) = i := by
  induction sets generalizing j elems idx with
  | nil => exact ⟨(none, idx), rfl, hlen, hidx, by simp⟩
  | cons key sets ih =>
      have hj : c.sets[j]? = some key := by
        rw [← Nat.add_zero j, ← List.getElem?_drop, ← hsets]
        rfl
      have hjlt : j < c.sets.length := (List.getElem?_eq_some_iff.mp hj).1
      have hrest : sets = c.sets.drop (j + 1) := by
        rw [← List.tail_drop, ← hsets]
        rfl
      have hfor := genForKey_for h key
      have hfits := hfor.fits hfit
      have hshift := (h.keys key (List.mem_of_getElem? hj)).1
      have hmembers := @SetGenerator.members_eq_map env (c.genForKey key) key
      rw [hfor.univSize_eq] at hmembers
      obtain ⟨r, hscan, hlen', hfound, hptr⟩ := scanElems_spec hfit h.nRows_eq i j hshift
        ((c.genForKey key).members env { key with shift := 0 }) hlen
        (fun v hv => hfor.univSize_eq ▸ SetGenerator.members_lt hfits hv)
      have hzero : ({ key with shift := 0 } : SetKey).shift < 2 ^ 31 := Nat.two_pow_pos 31
      rw [PuncClient.scanSets, SetGenerator.evalInPlace_spec hfits hzero, Outcome.ok_bind,
        hfor.univSize_eq, hscan, Outcome.ofOption_some, Outcome.ok_bind]
      have hidx' : ∀ v s, r.2[v]? = some s → c.PointerOk env v s := by
        intro v s hvs hs
        cases hptr v s hvs with
        | inl hold => exact hidx v s hold hs
        | inr hnew =>
            obtain ⟨hsj, e, he, hev⟩ := hnew
            rw [hsj, toInt32_eq (hjlt.trans h.sets_lt), Int.toNat_natCast]
            refine ⟨key, hj, ?_⟩
            rw [PuncClient.members, hmembers]
            exact List.mem_map.mpr ⟨e, he, hev⟩
      obtain ⟨found, idx'⟩ := r
      cases found with
      | true =>
          refine ⟨(some j, idx'), rfl, hlen', hidx', ?_⟩
          intro s hs
          obtain rfl := Option.some.inj hs
          obtain ⟨e, he, hei⟩ := hfound rfl
          refine ⟨key, hj, _, ?_, hei⟩
          rw [PuncClient.members, hmembers]
          exact List.mem_map.mpr ⟨e, he, rfl⟩
      | false => exact ih _ _ hrest hlen' hidx'

/-- Upgrading pointers keeps the invariant. -/
theorem PuncClient.SetInvariant.with_pointers (h : c.SetInvariant env db) {idx : List ℤ}
    (hlen : idx.length = db.numRows) (hidx : ∀ v s, idx[v]? = some s → c.PointerOk env v s) :
    { c with idxToSetIdx := idx }.SetInvariant env db :=
  ⟨h.nRows_eq, h.setSize_eq, h.origSetGen, h.setGen, h.num_le, h.orig_lt, h.hints_length, h.sets_pos,
    h.sets_lt, h.keys, hlen, hidx⟩

/-- The invariant is not about what the hints hold. -/
theorem PuncClient.SetInvariant.with_hints (h : c.SetInvariant env db) {hints : List (List UInt8)}
    (hlen : hints.length = c.sets.length) : { c with hints }.SetInvariant env db :=
  ⟨h.nRows_eq, h.setSize_eq, h.origSetGen, h.setGen, h.num_le, h.orig_lt, hlen, h.sets_pos,
    h.sets_lt, h.keys, h.pointers_length, h.pointers⟩

/-- **`findIndex` finds a set that contains the row**, and changes nothing but pointers. -/
theorem findIndex_spec (h : c.SetInvariant env db) (hfit : PuncFits db n) (i : ℤ) :
    ∃ (found : Option ℕ) (idx : List ℤ),
      c.findIndex env i = .ok (found, { c with idxToSetIdx := idx }) ∧
      { c with idxToSetIdx := idx }.SetInvariant env db ∧
      ∀ s, found = some s → ∃ key, c.sets[s]? = some key ∧
        (i % (db.numRows : ℤ)).toNat ∈ c.members env key := by
  have hN : (0 : ℤ) < db.numRows := by exact_mod_cast hfit.numRows_pos
  have hr0 := Int.emod_nonneg i hN.ne'
  have hr1 := Int.emod_lt_of_pos i hN
  have hrows : (c.nRows : ℤ) = db.numRows := by rw [h.nRows_eq]
  rw [PuncClient.findIndex, hrows]
  by_cases hbig : (db.numRows : ℤ) ≤ i
  · rw [if_pos hbig]
    exact ⟨none, c.idxToSetIdx, rfl, h, by simp⟩
  · rw [if_neg hbig, mathMod_eq i hN, Outcome.ofOption_some, Outcome.ok_bind]
    have hlt : (i % (db.numRows : ℤ)).toNat < c.idxToSetIdx.length := by
      rw [h.pointers_length]
      omega
    obtain ⟨p, hp⟩ : ∃ p, c.idxToSetIdx[(i % (db.numRows : ℤ)).toNat]? = some p :=
      ⟨_, List.getElem?_eq_getElem hlt⟩
    rw [hp, Outcome.ofOption_some, Outcome.ok_bind]
    by_cases hp0 : 0 ≤ p
    · rw [if_pos hp0]
      refine ⟨some p.toNat, c.idxToSetIdx, rfl, h, ?_⟩
      intro s hs
      obtain rfl := Option.some.inj hs
      exact h.pointers _ p hp hp0
    · rw [if_neg hp0]
      obtain ⟨⟨found, idx⟩, hscan, hlen, hidx, hfound⟩ := scanSets_spec h hfit i c.sets 0 []
        List.drop_zero.symm h.pointers_length h.pointers
      rw [hscan, Outcome.ok_bind]
      refine ⟨found, idx, rfl, h.with_pointers hlen hidx, ?_⟩
      intro s hs
      obtain ⟨key, hkey, v, hv, hvi⟩ := hfound s hs
      have hvlt := members_lt h hfit hv
      have hmod : (i % (db.numRows : ℤ)).toNat = v := by
        rw [← hvi, Int.emod_eq_of_lt (Int.natCast_nonneg v) (by exact_mod_cast hvlt),
          Int.toNat_natCast]
      exact ⟨key, hkey, hmod ▸ hv⟩

/-! ## Replacing a set -/

/-- The counter of the generator has no part in what keys mean. -/
theorem PuncClient.SetInvariant.with_num (h : c.SetInvariant env db) {m : ℕ}
    (hm : c.setGen.num ≤ m) : { c with setGen := { c.setGen with num := m + 1 } }.SetInvariant env db := by
  have hmem : ∀ key, { c with setGen := { c.setGen with num := m + 1 } }.members env key =
      c.members env key := by
    intro key
    simp only [PuncClient.members, PuncClient.genForKey]
    split_ifs <;> rfl
  refine ⟨h.nRows_eq, h.setSize_eq, h.origSetGen, ⟨h.setGen.univSize_eq, h.setGen.setSize_eq⟩, ?_,
    h.orig_lt, h.hints_length, h.sets_pos, h.sets_lt, ?_, h.pointers_length, ?_⟩
  · exact h.num_le.trans (by dsimp only; omega)
  · intro key hkey
    obtain ⟨h1, h2⟩ := h.keys key hkey
    exact ⟨h1, by dsimp only; omega⟩
  · intro v s hvs hs
    obtain ⟨key, hkey, hv⟩ := h.pointers v s hvs hs
    exact ⟨key, hkey, (hmem key).symm ▸ hv⟩

/-- **`replaceSet` puts the new set in the place of the old one** and keeps the invariant, if
the identifier of the new set tells its generator. -/
theorem replaceSet_spec (h : c.SetInvariant env db) (hfit : PuncFits db n) {s : ℕ} {key : SetKey}
    (hs : c.sets[s]? = some key) {newSet : PuncturableSet} (hset : c.setGen.IsSet env newSet)
    (hid : newSet.key.id < c.setGen.num) :
    ∃ idx, c.replaceSet env s newSet =
        .ok { c with sets := c.sets.set s newSet.key, idxToSetIdx := idx } ∧
      (c.origSetGen.num ≤ newSet.key.id →
        { c with sets := c.sets.set s newSet.key, idxToSetIdx := idx }.SetInvariant env db) := by
  have hslt : s < c.sets.length := (List.getElem?_eq_some_iff.mp hs).1
  have hs31 : toInt32 s = s := toInt32_eq (hslt.trans h.sets_lt)
  have hold : ∀ v ∈ c.members env key, v < c.nRows := fun v hv =>
    h.nRows_eq ▸ members_lt h hfit hv
  have hplen : c.idxToSetIdx.length = c.nRows := h.pointers_length.trans h.nRows_eq.symm
  obtain ⟨idx₁, hclear, hlen₁, hidx₁⟩ := clearPointers_spec (toInt32 s) _ hplen hold
  have hnew : ∀ v ∈ newSet.elems, v < idx₁.length := by
    intro v hv
    rw [hset.elems_eq] at hv
    rw [hlen₁, h.nRows_eq, ← h.setGen.univSize_eq]
    exact SetGenerator.members_lt (h.setGen.fits hfit) hv
  obtain ⟨idx, hpoint, hlen, hidx⟩ := setPointers_spec (toInt32 s) newSet.elems hnew
  refine ⟨idx, ?_, ?_⟩
  · rw [PuncClient.replaceSet, eval_eq h hfit hs, Outcome.ok_bind, hclear, Outcome.ofOption_some,
      Outcome.ok_bind, writeAt_eq hslt, Outcome.ofOption_some, Outcome.ok_bind, hpoint]
    rfl
  · intro horig
    have hgen : c.genForKey newSet.key = c.setGen := by
      rw [PuncClient.genForKey, Nat.mod_eq_of_lt h.orig_lt, if_neg (by omega)]
    refine ⟨h.nRows_eq, h.setSize_eq, h.origSetGen, h.setGen, h.num_le, h.orig_lt, ?_, ?_, ?_, ?_, ?_,
      ?_⟩
    · rw [List.length_set, h.hints_length]
    · rw [List.length_set]
      exact h.sets_pos
    · rw [List.length_set]
      exact h.sets_lt
    · intro k hk
      cases List.mem_or_eq_of_mem_set hk with
      | inl hk => exact h.keys k hk
      | inr hk =>
          rw [hk]
          exact ⟨hset.shift_lt, hid⟩
    · rw [hlen, hlen₁, h.nRows_eq]
    · intro v p hvp hp
      rw [hidx] at hvp
      by_cases hv : v ∈ newSet.elems
      · rw [if_pos hv, hs31, Option.some.injEq] at hvp
        refine ⟨newSet.key, ?_, ?_⟩
        · rw [← hvp, Int.toNat_natCast, List.getElem?_set_self hslt]
        · show v ∈ (c.genForKey newSet.key).members env newSet.key
          rw [hgen, ← hset.elems_eq]
          exact hv
      · rw [if_neg hv] at hvp
        cases hidx₁ v p hvp with
        | inl hneg => omega
        | inr hkeep =>
            obtain ⟨hvp, hnot⟩ := hkeep
            obtain ⟨k, hk, hvk⟩ := h.pointers v p hvp hp
            have hne : s ≠ p.toNat := by
              intro hsp
              rw [← hsp, hs, Option.some.injEq] at hk
              refine hnot ⟨hk ▸ hvk, ?_⟩
              rw [hs31, hsp, Int.toNat_of_nonneg hp]
            exact ⟨k, by rw [List.getElem?_set_ne hne, hk], hvk⟩

end SinglePassPIR.Pir
