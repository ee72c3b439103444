import SinglePassPIR.Pir.PuncQuery
import SinglePassPIR.Lib.Run

/-!
# Puncturable-set PIR over whole runs

The server makes the hints from the first sets of a generator, and the client makes the same
sets again to know their keys: both run the one generator `generateMany`. From then on every
read keeps the hints equal to the XOR of the rows of the sets.

## Main results

* `initClient_spec` — the state that the preprocessing sets up.
* `punc_correct` — every completed read returns the row, and every reachable state satisfies
  the invariant.
-/

namespace SinglePassPIR.Pir
open Psetggm

variable {env : Env} {db : StaticDB} {n : ℕ} {c : PuncClient}

/-! ## The sets of the preprocessing -/

/-- What `Gen` returns does not depend on the set that it reuses. -/
theorem SetGenerator.generate_elems {gen : SetGenerator} (hgen : gen.baseGen.Fits)
    (elems : List ℕ) : gen.generate env elems = gen.generate env [] := by
  have hloop : ∀ fuel num (e₁ e₂ : List ℕ), e₁.length = gen.setSize → e₂.length = gen.setSize →
      gen.genLoop env fuel num e₁ = gen.genLoop env fuel num e₂ := by
    intro fuel num e₁ e₂ h₁ h₂
    cases fuel with
    | zero => rfl
    | succ fuel =>
        rw [SetGenerator.genLoop, SetGenerator.genLoop, baseEval_spec hgen _ h₁,
          baseEval_spec hgen _ h₂]
  have hgens : gen.gen env elems = gen.gen env [] :=
    hloop _ _ _ _ (length_buffer elems) (length_buffer [])
  rw [SetGenerator.generate, SetGenerator.generate, hgens]

/-- The next set of a generator, after those in the list. -/
def generateStep (env : Env) (_ : ℕ) (st : List PuncturableSet × SetGenerator) :
    Outcome (List PuncturableSet × SetGenerator) := do
  let (pset, gen) ← st.2.generate env []
  .ok (st.1 ++ [pset], gen)

/-- The first `m` sets of a generator. -/
def generateMany (env : Env) (gen : SetGenerator) (m : ℕ) :
    Outcome (List PuncturableSet × SetGenerator) :=
  Outcome.loop m (generateStep env) ([], gen)

theorem generateMany_succ {gen gen₁ gen₂ : SetGenerator} {m : ℕ} {l : List PuncturableSet}
    {pset : PuncturableSet} (h : generateMany env gen m = .ok (l, gen₁))
    (hnext : gen₁.generate env [] = .ok (pset, gen₂)) :
    generateMany env gen (m + 1) = .ok (l ++ [pset], gen₂) := by
  rw [generateMany, Outcome.loop_succ, ← generateMany, h, Outcome.ok_bind, generateStep, hnext]
  rfl

/-- The sets made so far by a generator that started as `gen₀` and is now `gen`. -/
structure Generating (env : Env) (db : StaticDB) (gen₀ : SetGenerator) (m : ℕ)
    (l : List PuncturableSet) (gen : SetGenerator) : Prop where
  made : generateMany env gen₀ m = .ok (l, gen)
  length_eq : l.length = m
  gen_eq : gen = { gen₀ with num := gen.num }
  num_le : gen₀.num ≤ gen.num
  isSet : ∀ pset ∈ l, gen₀.IsSet env pset
  id_lt : ∀ pset ∈ l, pset.key.id < gen.num

theorem Generating.start (gen₀ : SetGenerator) : Generating env db gen₀ 0 [] gen₀ :=
  ⟨rfl, rfl, rfl, le_rfl, by simp, by simp⟩

/-- One more set. -/
theorem Generating.next (hfit : PuncFits db n) {gen₀ gen : SetGenerator} (hfor : gen₀.For db) {m : ℕ}
    {l : List PuncturableSet} (h : Generating env db gen₀ m l gen) (elems : List ℕ) :
    Outcome.Safe (gen.generate env elems) fun r =>
      Generating env db gen₀ (m + 1) (l ++ [r.1]) r.2 ∧ gen₀.IsSet env r.1 := by
  have hfor' : gen.For db := by
    rw [h.gen_eq]
    exact ⟨hfor.univSize_eq, hfor.setSize_eq⟩
  rw [SetGenerator.generate_elems (hfor'.fits hfit) elems]
  refine (SetGenerator.generate_spec (hfor'.fits hfit) []).with_eq.mono ?_
  rintro ⟨pset, gen'⟩ ⟨hmade, hset, k, hk, hid, hgen'⟩
  dsimp only at hset hid hgen'
  have hset₀ : gen₀.IsSet env pset := by
    rw [h.gen_eq] at hset
    exact ⟨hset.univSize_eq, hset.setSize_eq, hset.seed_eq, hset.elems_eq, hset.shift_lt⟩
  have hnum : gen'.num = k + 1 := by rw [hgen']
  refine ⟨⟨generateMany_succ h.made hmade, ?_, ?_, ?_, ?_, ?_⟩, hset₀⟩
  · rw [List.length_append, h.length_eq, List.length_singleton]
  · rw [hgen', h.gen_eq]
  · exact h.num_le.trans (by dsimp only; omega)
  · intro p hp
    cases List.mem_append.mp hp with
    | inl hp => exact h.isSet p hp
    | inr hp => exact List.mem_singleton.mp hp ▸ hset₀
  · intro p hp
    rw [hnum]
    cases List.mem_append.mp hp with
    | inl hp => exact (h.id_lt p hp).trans_le (hk.trans (Nat.le_succ k))
    | inr hp =>
        rw [List.mem_singleton.mp hp, hid]
        exact Nat.lt_succ_of_le (Nat.mod_le _ _)

/-! ## The server's half of the preprocessing -/

/-- The generator of the hints. -/
def hintGen (db : StaticDB) (seed : Block) : SetGenerator :=
  newSetGenerator seed 0 db.numRows (roundSqrt db.numRows)

/-- The number of hints. -/
def numHints (db : StaticDB) : ℕ := 88 * db.numRows / roundSqrt db.numRows

/-- The hint of a set. -/
def hintOf (db : StaticDB) (n : ℕ) (pset : PuncturableSet) : List UInt8 :=
  (xorOfRows n db.flatDb pset.elems).toList

theorem hintGen_for (db : StaticDB) (seed : Block) : (hintGen db seed).For db := ⟨rfl, rfl⟩

theorem SetGenerator.IsSet.length_elems {gen : SetGenerator} (hfor : gen.For db)
    {pset : PuncturableSet} (h : gen.IsSet env pset) : pset.elems.length = roundSqrt db.numRows := by
  rw [h.elems_eq, SetGenerator.length_members, hfor.setSize_eq]

theorem SetGenerator.IsSet.elems_lt (hfit : PuncFits db n) {gen : SetGenerator} (hfor : gen.For db)
    {pset : PuncturableSet} (h : gen.IsSet env pset) {v : ℕ} (hv : v ∈ pset.elems) :
    v < db.numRows := by
  rw [h.elems_eq] at hv
  exact hfor.univSize_eq ▸ SetGenerator.members_lt (hfor.fits hfit) hv

/-- The XOR that the server makes of a set. -/
theorem xorRowsFlatSlice_spec (hfit : PuncFits db n) {gen : SetGenerator} (hfor : gen.For db)
    {pset : PuncturableSet} (h : gen.IsSet env pset) :
    xorRowsFlatSlice env db (List.replicate db.rowLen 0) pset.elems =
      .ok (hintOf db n pset, pset.elems.map (· * n)) := by
  obtain ⟨hpos, hle, -, -⟩ := roundSqrt_bounds hfit.numRows_pos hfit.numRows_le
  have hlen := h.length_elems hfor
  have hne : pset.elems ≠ [] := List.ne_nil_of_length_pos (hlen ▸ hpos)
  have hspec := xorBlocks_spec env.toPlatform (0 : Bytes n) hfit.rowLen_pos hfit.wf.length_eq
    hfit.flat_lt hne (fun v hv => h.elems_lt hfit hfor hv) (by omega)
  rw [Bytes.toList_zero] at hspec
  rw [xorRowsFlatSlice, hfit.wf.rowLen_eq, hspec]
  rfl

/-- **`PuncHintReq.Process` sends the XOR of the rows of each of the first sets.** -/
theorem puncHintReq_spec (hfit : PuncFits db n) (seed : Block) :
    Outcome.Safe ((newPuncHintReq seed).process env db) fun resp => ∃ l gen,
      Generating env db (hintGen db seed) (numHints db) l gen ∧
      resp = ⟨db.numRows, n, roundSqrt db.numRows, seed, l.map (hintOf db n)⟩ := by
  obtain ⟨hpos, -, -, -⟩ := roundSqrt_bounds hfit.numRows_pos hfit.numRows_le
  have hfor := hintGen_for db seed
  have hloop : Outcome.Safe (Outcome.loop (numHints db) (hintStep env db) ⟨[], hintGen db seed, []⟩)
      fun (st : HintLoop) => ∃ l, Generating env db (hintGen db seed) (numHints db) l st.setGen ∧
        st.hints = l.map (hintOf db n) := by
    refine Outcome.Safe.loop (fun i (st : HintLoop) =>
      ∃ l, Generating env db (hintGen db seed) i l st.setGen ∧ st.hints = l.map (hintOf db n))
      ⟨[], Generating.start _, rfl⟩ ?_
    intro i _ st ⟨l, hgen, hhints⟩
    refine Outcome.Safe.bind (hgen.next hfit hfor st.elems) ?_
    rintro ⟨pset, gen⟩ ⟨hnext, hset⟩
    dsimp only at hset ⊢
    rw [xorRowsFlatSlice_spec hfit hfor hset, Outcome.ok_bind]
    refine ⟨l ++ [pset], hnext, ?_⟩
    dsimp only
    rw [hhints, List.map_append, List.map_singleton]
  rw [PuncHintReq.process, if_neg hpos.ne']
  refine Outcome.Safe.bind hloop ?_
  intro st ⟨l, hgen, hhints⟩
  refine ⟨l, st.setGen, hgen, ?_⟩
  rw [hhints, hfit.wf.rowLen_eq]
  rfl

/-! ## The client's half -/

theorem numHints_bounds (hfit : PuncFits db n) : 0 < numHints db ∧ numHints db < 2 ^ 31 := by
  obtain ⟨hpos, hle, hleN, hN⟩ := roundSqrt_bounds hfit.numRows_pos hfit.numRows_le
  rw [numHints]
  constructor
  · exact Nat.div_pos (by omega) hpos
  · rw [Nat.div_lt_iff_lt_mul hpos]
    nlinarith

/-- The pointers of the first sets are sound. -/
def PointersOf (l : List PuncturableSet) (idx : List ℤ) : Prop :=
  ∀ (v : ℕ) (s : ℤ), idx[v]? = some s → 0 ≤ s → ∃ pset, l[s.toNat]? = some pset ∧ v ∈ pset.elems

/-- **`InitClient` makes the sets of the server again**, and points each row at one that
contains it. -/
theorem initClient_spec (hfit : PuncFits db n) {seed : Block} {l : List PuncturableSet}
    {gen : SetGenerator} (hserver : Generating env db (hintGen db seed) (numHints db) l gen)
    (newSetGenKey : Block) :
    Outcome.Safe (PuncHintResp.initClient env
        ⟨db.numRows, n, roundSqrt db.numRows, seed, l.map (hintOf db n)⟩ newSetGenKey) fun c =>
      ∃ idx, PointersOf l idx ∧ idx.length = db.numRows ∧
        c = ⟨db.numRows, n, roundSqrt db.numRows, l.map (·.key), l.map (hintOf db n), gen,
          newSetGenerator newSetGenKey gen.num db.numRows (roundSqrt db.numRows), idx⟩ := by
  have hfor := hintGen_for db seed
  have hcount : (l.map (hintOf db n)).length = numHints db := by
    rw [List.length_map, hserver.length_eq]
  have hloop : Outcome.Safe (Outcome.loop (numHints db) (initStep env)
      ⟨[], List.replicate db.numRows (-1), hintGen db seed, []⟩) fun (st : InitLoop) =>
      ∃ l', Generating env db (hintGen db seed) (numHints db) l' st.setGen ∧
        st.sets = l'.map (·.key) ∧ PointersOf l' st.idxToSetIdx ∧
        st.idxToSetIdx.length = db.numRows := by
    refine Outcome.Safe.loop (fun i (st : InitLoop) =>
      ∃ l', Generating env db (hintGen db seed) i l' st.setGen ∧
      st.sets = l'.map (·.key) ∧ PointersOf l' st.idxToSetIdx ∧
      st.idxToSetIdx.length = db.numRows) ?_ ?_
    · refine ⟨[], Generating.start _, rfl, ?_, List.length_replicate⟩
      intro v s hvs hs
      rw [List.getElem?_replicate] at hvs
      split_ifs at hvs
      obtain rfl := Option.some.inj hvs
      omega
    · intro i hi st ⟨l', hgen, hsets, hptr, hlen⟩
      refine Outcome.Safe.bind (hgen.next hfit hfor st.elems) ?_
      rintro ⟨pset, gen'⟩ ⟨hnext, hset⟩
      dsimp only at hset ⊢
      have hi31 : toInt32 i = i := toInt32_eq (hi.trans (numHints_bounds hfit).2)
      obtain ⟨idx, hpoint, hlen', hidx⟩ := setPointers_spec (toInt32 i) pset.elems
        (fun v hv => hlen ▸ hset.elems_lt hfit hfor hv)
      rw [hpoint, Outcome.ofOption_some, Outcome.ok_bind]
      refine ⟨l' ++ [pset], hnext, ?_, ?_, hlen'.trans hlen⟩
      · dsimp only
        rw [hsets, List.map_append, List.map_singleton]
      · intro v s hvs hs
        dsimp only at hvs
        rw [hidx] at hvs
        split_ifs at hvs with hv
        · rw [hi31] at hvs
          obtain rfl := Option.some.inj hvs
          refine ⟨pset, ?_, hv⟩
          rw [Int.toNat_natCast, ← hgen.length_eq, List.getElem?_concat_length]
        · obtain ⟨p, hp, hvp⟩ := hptr v s hvs hs
          refine ⟨p, ?_, hvp⟩
          rw [List.getElem?_append_left (List.getElem?_eq_some_iff.mp hp).1, hp]
  rw [PuncHintResp.initClient, hcount]
  refine Outcome.Safe.bind hloop ?_
  intro st ⟨l', hgen, hsets, hptr, hlen⟩
  -- both sides run the same generator
  have hsame := hgen.made.symm.trans hserver.made
  rw [Except.ok.injEq, Prod.mk.injEq] at hsame
  obtain ⟨rfl, hgen'⟩ := hsame
  refine ⟨st.idxToSetIdx, hptr, hlen, ?_⟩
  rw [hsets, hgen']

/-! ## Runs -/

/-- Between reads: the sets and pointers are sound, and every hint is the XOR of its set. -/
structure PuncClient.Sound (env : Env) (db : StaticDB) (n : ℕ) (c : PuncClient) : Prop where
  setInvariant : c.SetInvariant env db
  hintsAre : c.HintsAre n (c.setXor env db n)

theorem setXor_eq {s : ℕ} {key : SetKey} (hs : c.sets[s]? = some key) :
    c.setXor env db n s = xorOfRows n db.flatDb (c.members env key) := by
  rw [PuncClient.setXor, hs]

/-- The client after the preprocessing is sound, unless an identifier has wrapped round. -/
theorem init_sound (hfit : PuncFits db n) {seed : Block} {l : List PuncturableSet}
    {gen : SetGenerator} (hgen : Generating env db (hintGen db seed) (numHints db) l gen)
    (hnum : gen.num < 2 ^ 32) {idx : List ℤ} (hptr : PointersOf l idx)
    (hlen : idx.length = db.numRows) (newSetGenKey : Block) :
    PuncClient.Sound env db n ⟨db.numRows, n, roundSqrt db.numRows, l.map (·.key),
      l.map (hintOf db n), gen,
      newSetGenerator newSetGenKey gen.num db.numRows (roundSqrt db.numRows), idx⟩ := by
  set c : PuncClient := ⟨db.numRows, n, roundSqrt db.numRows, l.map (·.key), l.map (hintOf db n), gen,
    newSetGenerator newSetGenKey gen.num db.numRows (roundSqrt db.numRows), idx⟩ with hc
  have hgenFor : gen.For db := by
    rw [hgen.gen_eq]
    exact ⟨rfl, rfl⟩
  have hmembers : ∀ pset ∈ l, c.members env pset.key = pset.elems := by
    intro pset hpset
    have hlt : pset.key.id < c.origSetGen.num % 2 ^ 32 := by
      rw [Nat.mod_eq_of_lt hnum]
      exact hgen.id_lt pset hpset
    rw [PuncClient.members, PuncClient.genForKey, if_pos hlt, (hgen.isSet pset hpset).elems_eq]
    show gen.members env pset.key = _
    rw [hgen.gen_eq]
    rfl
  have hcount := hgen.length_eq
  obtain ⟨hpos, hlt⟩ := numHints_bounds hfit
  refine ⟨⟨rfl, rfl, hgenFor, ⟨rfl, rfl⟩, le_rfl, hnum, ?_, ?_, ?_, ?_, hlen, ?_⟩, ?_⟩
  · simp [hc]
  · simpa [hc, hcount] using hpos
  · simpa [hc, hcount] using hlt
  · intro key hkey
    obtain ⟨pset, hpset, rfl⟩ := List.mem_map.mp hkey
    exact ⟨(hgen.isSet pset hpset).shift_lt, hgen.id_lt pset hpset⟩
  · intro v s hvs hs
    obtain ⟨pset, hpset, hv⟩ := hptr v s hvs hs
    refine ⟨pset.key, ?_, ?_⟩
    · show (l.map (·.key))[s.toNat]? = _
      rw [List.getElem?_map, hpset, Option.map_some]
    · rw [hmembers pset (List.mem_of_getElem? hpset)]
      exact hv
  · intro s hs
    have hsl : s < l.length := by simpa [hc] using hs
    have hkey : c.sets[s]? = some l[s].key := by simp [hc, hsl]
    rw [setXor_eq hkey, hmembers _ (List.getElem_mem hsl)]
    simp [hc, hsl, hintOf]

/-- **The invariant of the hints**, in the terms of the code: hint `s` is the XOR of the rows
of the set that `eval` gives, and every pointer goes to a set that contains the row. -/
structure PuncClient.HintInvariant (env : Env) (db : StaticDB) (n : ℕ) (c : PuncClient) : Prop where
  hints_length : c.hints.length = c.sets.length
  hints : ∀ s < c.sets.length, ∃ pset, c.eval env s = .ok pset ∧
    c.hints[s]? = some (xorOfRows n db.flatDb pset.elems).toList
  pointers : ∀ (v : ℕ) (s : ℤ), c.idxToSetIdx[v]? = some s → 0 ≤ s →
    ∃ pset, c.eval env s.toNat = .ok pset ∧ v ∈ pset.elems

theorem PuncClient.Sound.hintInvariant (h : c.Sound env db n) (hfit : PuncFits db n) :
    c.HintInvariant env db n := by
  obtain ⟨hinv, hhints⟩ := h
  constructor
  · exact hinv.hints_length
  · intro s hs
    have hkey := List.getElem?_eq_getElem hs
    exact ⟨_, eval_eq hinv hfit hkey, by rw [hhints s hs, setXor_eq hkey]⟩
  · intro v s hvs hs
    obtain ⟨key, hkey, hv⟩ := hinv.pointers v s hvs hs
    exact ⟨_, eval_eq hinv hfit hkey, hv⟩

/-- What a read is asked for, and what its client draws. -/
structure PuncRead where
  idx : ℤ
  coin : ℕ
  draws : List ℕ

/-- A completed read, as a step of a system. -/
def PuncClient.step (env : Env) (db : StaticDB) (c : PuncClient) (a : PuncRead) :
    Option (Except String (List UInt8) × PuncClient) :=
  (c.read env db a.idx a.coin a.draws).toOption

/-- The draws are members of a set, the read returns, and no identifier has wrapped round after
it. -/
def PuncClient.ReadGuard (env : Env) (db : StaticDB) (c : PuncClient) (a : PuncRead) : Prop :=
  (∀ d ∈ a.draws, d < roundSqrt db.numRows) ∧
  (c.query env a.idx a.coin a.draws).Admits fun r => r.2.setGen.num < 2 ^ 32

instance (c : PuncClient) (a : PuncRead) : Decidable (c.ReadGuard env db a) :=
  inferInstanceAs (Decidable ((∀ d ∈ a.draws, d < roundSqrt db.numRows) ∧
    (c.query env a.idx a.coin a.draws).Admits fun r => r.2.setGen.num < 2 ^ 32))

/-- The read returns row `idx mod N` if `Query` found a set, and fails otherwise. -/
def PuncClient.Returns (env : Env) (db : StaticDB) (n : ℕ) (c : PuncClient) (a : PuncRead)
    (out : Except String (List UInt8)) : Prop :=
  ∃ q c', c.query env a.idx a.coin a.draws = .ok (q, c') ∧
    out = if q.isSome then .ok (db.get n (a.idx % (db.numRows : ℤ)).toNat).toList
      else .error ("Failed to query: " ++ toString a.idx)

/-- **One read.** -/
theorem PuncClient.step_spec (hfit : PuncFits db n) (h : c.Sound env db n) {a : PuncRead}
    (hguard : c.ReadGuard env db a) :
    ∃ out c', c.step env db a = some (out, c') ∧ c.Returns env db n a out ∧ c'.Sound env db n := by
  obtain ⟨⟨q, c'⟩, hquery, hdone, hnum⟩ :=
    (puncQuery_spec h.setInvariant hfit a.idx a.coin hguard.1).of_admits hguard.2
  have hdone := hdone hnum
  have hints : ∀ s < c'.sets.length, c'.hints[s]? = some (c.setXor env db n s).toList := by
    intro s hs
    rw [hdone.hints_eq]
    exact h.hintsAre s (hdone.sets_length ▸ hs)
  cases q with
  | none =>
      refine ⟨_, c', ?_, ⟨none, c', hquery, rfl⟩, hdone.setInvariant, ?_⟩
      · rw [PuncClient.step, PuncClient.read, hquery]
        rfl
      intro s hs
      rw [hdone.fails rfl s]
      exact hints s hs
  | some q =>
      obtain ⟨hs, -, hpost⟩ := hdone.asks q rfl
      obtain ⟨new, hasks, hsets⟩ := hpost.asks
      dsimp only at hasks hsets
      obtain ⟨hints', hfin, hlen, hH⟩ := finish_spec hints hdone.setInvariant.hints_length
        (hdone.sets_length ▸ hs) hasks fun _ => rfl
      refine ⟨_, { c' with hints := hints' }, ?_, ⟨some q, c', hquery, rfl⟩, ?_, ?_⟩
      · rw [PuncClient.step, PuncClient.read, hquery, Outcome.ok_bind]
        dsimp only
        rw [hfin]
        rfl
      · exact hdone.setInvariant.with_hints hlen
      · intro s hs'
        rw [hH s hs']
        exact congrArg (some ·.toList) (hsets s).symm

/-- The preprocessing of a table, and the client that it makes. -/
def puncClientOf (env : Env) (db : StaticDB) (seed newSetGenKey : Block) : Outcome PuncClient := do
  let resp ← (newPuncHintReq seed).process env db
  resp.initClient env newSetGenKey

/-- **The preprocessing makes a sound client**, unless an identifier has wrapped round. -/
theorem puncClientOf_spec (hfit : PuncFits db n) (seed newSetGenKey : Block) :
    Outcome.Safe (puncClientOf env db seed newSetGenKey) fun c =>
      c.setGen.num < 2 ^ 32 → c.Sound env db n := by
  refine Outcome.Safe.bind (puncHintReq_spec hfit seed) ?_
  rintro resp ⟨l, gen, hgen, rfl⟩
  refine (initClient_spec hfit hgen newSetGenKey).mono ?_
  rintro c ⟨idx, hptr, hlen, rfl⟩ hnum
  exact init_sound hfit hgen hnum hptr hlen newSetGenKey

/-- The preprocessing does not fault, and along every run of reads from its client the invariant
holds and every completed read returns the row it asked for. -/
def PuncRunsCorrectly (env : Env) (db : StaticDB) (n : ℕ) (seed newSetGenKey : Block) : Prop :=
  Outcome.Safe (puncClientOf env db seed newSetGenKey) fun c => c.setGen.num < 2 ^ 32 →
    c.HintInvariant env db n ∧ ∀ as : List PuncRead,
      AlwaysUnder (PuncClient.step env db) (PuncClient.ReadGuard env db)
        (fun c a out c' => c.Returns env db n a out ∧ c'.HintInvariant env db n) c as

/-- **Puncturable-set PIR is correct over whole runs**, for every cipher, every choice of keys and
draws, and every sequence of completed reads, as long as no identifier wraps round. -/
theorem punc_correct (env : Env) {db : StaticDB} (hn : 0 < n) (hwf : db.WF n)
    (hN : 0 < db.numRows) (hN31 : db.numRows ≤ 2 ^ 31) (h32 : db.numRows * n < 2 ^ 32)
    (seed newSetGenKey : Block) : PuncRunsCorrectly env db n seed newSetGenKey := by
  have hfit : PuncFits db n := ⟨hwf, hn, hN, hN31, h32⟩
  refine (puncClientOf_spec hfit seed newSetGenKey).mono ?_
  intro c hsound hnum
  refine ⟨(hsound hnum).hintInvariant hfit, ?_⟩
  intro as
  refine alwaysUnder_of_invariant (fun c => c.Sound env db n) ?_ as _ (hsound hnum)
  intro c a hc hguard
  obtain ⟨out, c', hstep, hreturns, hc'⟩ := PuncClient.step_spec hfit hc hguard
  exact ⟨out, c', hstep, ⟨hreturns, hc'.hintInvariant hfit⟩, hc'⟩

/-- Ciphers that only count, on the portable kernels. -/
def countingEnv : Env :=
  .withXor ⟨.sse, fun b => ⟨b.w0 * 5 + 1, b.w1 + b.w0, b.w2, b.w3⟩, fun _ => 0⟩
    fun _ b => ⟨b.w0 * 2654435761 + 12345, b.w1, 7, 9⟩

/-- Three one-byte rows. -/
def threeRows : StaticDB := ⟨3, 1, 0, [1, 2, 4]⟩

theorem punc_correct_three_rows : PuncRunsCorrectly countingEnv threeRows 1 0 0 :=
  punc_correct countingEnv (by decide) ⟨rfl, rfl⟩ (by decide) (by decide) (by decide) 0 0

example : ((puncClientOf countingEnv threeRows 0 0).bind fun c =>
    (c.read countingEnv threeRows 1 2 [0, 1, 0, 1]).map (·.1.toOption)) = .ok (some [2]) := by
  decide +kernel

end SinglePassPIR.Pir
