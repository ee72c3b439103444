import SinglePassPIR.Pir.PuncInvariant

/-!
# One read of the puncturable-set client

What `Query` asks, what the servers answer, and what `reconstruct` makes of the answers, in
terms of the XOR of the rows of a set. `queried_reconstruct` puts the two halves of a
read together, for each of the three cases of `Query`.
-/

namespace SinglePassPIR.Pir
open Psetggm

variable {env : Env} {db : StaticDB} {n : ℕ} {c : PuncClient}

/-! ## XOR over a set -/

/-- The XOR of the rows of set `s`, with multiplicity. -/
def PuncClient.setXor (env : Env) (db : StaticDB) (n : ℕ) (c : PuncClient) (s : ℕ) : Bytes n :=
  match c.sets[s]? with
  | some key => xorOfRows n db.flatDb (c.members env key)
  | none => 0

/-- Taking one member out of a set adds its row. -/
theorem xorOfRows_erase {flat : List UInt8} {l : List ℕ} {a : ℕ} (ha : a ∈ l) :
    xorOfRows n flat (l.erase a) = xorOfRows n flat l + rowAt n flat a := by
  have hperm := (List.perm_cons_erase ha).map (rowAt n flat)
  rw [xorOfRows, xorOfRows, hperm.sum_eq, List.map_cons, List.sum_cons, add_comm (rowAt n flat a),
    add_assoc, XorGroup.add_self, add_zero]

/-! ## The servers -/

/-- The server answers the request with the XOR `x` and the extra row `e`. -/
def PuncQueryReq.Answers (env : Env) (db : StaticDB) {n : ℕ} (q : PuncQueryReq) (x e : Bytes n) :
    Prop :=
  q.process env db = some ⟨x.toList, e.toList⟩

/-- The answer to a set punctured at a member. -/
theorem puncProcess_spec (hfit : PuncFits db n) {gen : SetGenerator} (hgen : gen.For db)
    {pset : PuncturableSet} (hset : gen.IsSet env pset) {idx extra : ℕ} {q : PuncturedSet}
    (hq : q.Stands env pset idx) (hidx : idx ∈ pset.elems) (hextra : extra < db.numRows) :
    (⟨q, extra⟩ : PuncQueryReq).Answers env db
      (xorOfRows n db.flatDb pset.elems + rowAt n db.flatDb idx) (rowAt n db.flatDb extra) := by
  obtain ⟨hpos, hle, -, -⟩ := roundSqrt_bounds hfit.numRows_pos hfit.numRows_le
  have huniv : q.univSize = db.numRows := by rw [hq.univSize_eq, hset.univSize_eq, hgen.univSize_eq]
  have hsize : pset.setSize = roundSqrt db.numRows := by rw [hset.setSize_eq, hgen.setSize_eq]
  have hq1 : q.setSize + 1 = roundSqrt db.numRows := by rw [hq.setSize_eq, hsize]; omega
  have helems : pset.elems = shiftedElems env.aes db.numRows (q.setSize + 1) pset.seed q.shift := by
    rw [hset.elems_eq, SetGenerator.members, ← hset.seed_eq, hgen.univSize_eq, hgen.setSize_eq, hq1,
      hq.shift_eq]
  have hlen : pset.elems.length = q.setSize + 1 := by
    rw [hset.elems_eq, SetGenerator.length_members, hgen.setSize_eq, hq1]
  have hhole : q.hole < q.setSize + 1 := by
    rw [hq.hole_eq, ← hlen]
    exact List.idxOf_lt_length_of_mem hidx
  have hkeys : IsPunctured env.aes pset.seed (getHeight (q.setSize + 1)) q.hole q.keys := by
    rw [hq1, ← hsize]
    exact hq.keys
  have hshift : q.shift < 2 ^ 32 := by
    rw [hq.shift_eq]
    exact hset.shift_lt.trans (by decide)
  have hanswer := fastAnswer_spec env.toPlatform (0 : Bytes n) hfit.rowLen_pos hfit.numRows_pos
    hfit.numRows_le hfit.wf.length_eq hfit.flat_lt (by omega) hkeys hhole hshift
  rw [← helems, hq.hole_eq, List.eraseIdx_idxOf_eq_erase, xorOfRows_erase hidx,
    Bytes.toList_zero] at hanswer
  have hslice := slice_rowAt hfit.wf.length_eq hextra
  rw [Nat.succ_mul, mul_comm extra n] at hslice
  rw [PuncQueryReq.Answers, PuncQueryReq.process, hfit.wf.rowLen_eq, huniv, hq.hole_eq, hanswer,
    Option.bind_eq_bind, Option.bind_some, hslice]
  rfl

/-! ## The client's choices -/

/-- **A rejection loop that returns has found another member.** -/
theorem randomMemberExcept_spec (set : PuncturableSet) (idx : ℕ) (draws : List ℕ)
    (hdraws : ∀ d ∈ draws, d < set.elems.length) :
    Outcome.Safe (randomMemberExcept set idx draws) fun r =>
      r.1 ∈ set.elems ∧ r.1 ≠ idx ∧ ∀ d ∈ r.2, d ∈ draws := by
  induction draws with
  | nil => exact Outcome.safe_noReturn
  | cons d draws ih =>
      have hd := hdraws d List.mem_cons_self
      rw [randomMemberExcept, List.getElem?_eq_getElem hd, Outcome.ofOption_some, Outcome.ok_bind]
      by_cases hne : set.elems[d] ≠ idx
      · rw [if_pos hne]
        exact ⟨List.getElem_mem hd, hne, fun x hx => List.mem_cons_of_mem d hx⟩
      · rw [if_neg hne]
        refine (ih fun x hx => hdraws x (List.mem_cons_of_mem d hx)).mono ?_
        intro r ⟨h1, h2, h3⟩
        exact ⟨h1, h2, fun x hx => List.mem_cons_of_mem d (h3 x hx)⟩

/-- What `Query` leaves to the other half of the read, for row `i`: the requests, their
answers and the sets after it, in each case. `new` is the XOR of a set that `Query` made. -/
def QueryPost (env : Env) (db : StaticDB) (n : ℕ) (c : PuncClient) (i : ℕ)
    (r : PuncQuery × PuncClient) : Prop :=
  ∃ new eL eR : Bytes n,
    match r.1.ctx.randCase with
    | 0 => r.1.left.Answers env db (new + rowAt n db.flatDb i) eL ∧
        r.1.right.Answers env db (c.setXor env db n r.1.ctx.setIdx + rowAt n db.flatDb i) eR ∧
        ∀ t, r.2.setXor env db n t =
          if t = r.1.ctx.setIdx then new else c.setXor env db n t
    | 1 => r.1.left.Answers env db (new + eR) eL ∧
        r.1.right.Answers env db (new + rowAt n db.flatDb i) eR ∧
        ∀ t, r.2.setXor env db n t = c.setXor env db n t
    | 2 => r.1.left.Answers env db (new + rowAt n db.flatDb i) eL ∧
        r.1.right.Answers env db (new + eL) eR ∧
        ∀ t, r.2.setXor env db n t = c.setXor env db n t

/-- What holds after the `switch` of `Query`. -/
structure Queried (env : Env) (db : StaticDB) (n : ℕ) (c : PuncClient) (i : ℕ) (ctx : PuncQueryCtx)
    (r : PuncQuery × PuncClient) : Prop where
  setInvariant : r.2.SetInvariant env db
  ctx_eq : r.1.ctx = ctx
  hints_eq : r.2.hints = c.hints
  sets_length : r.2.sets.length = c.sets.length
  post : QueryPost env db n c i r

/-- The new set of a `Query` for row `i`. -/
structure NewSet (env : Env) (c : PuncClient) (i : ℕ) (newSet : PuncturableSet) : Prop where
  isSet : c.setGen.IsSet env newSet
  mem : i ∈ newSet.elems
  id_lt : newSet.key.id < c.setGen.num

section
variable {i : ℕ} {newSet : PuncturableSet}

theorem NewSet.length (hnew : NewSet env c i newSet) (h : c.SetInvariant env db) :
    newSet.elems.length = roundSqrt db.numRows := by
  rw [hnew.isSet.elems_eq, SetGenerator.length_members, h.setGen.setSize_eq]

theorem NewSet.lt (hnew : NewSet env c i newSet) (h : c.SetInvariant env db) (hfit : PuncFits db n)
    {v : ℕ} (hv : v ∈ newSet.elems) : v < db.numRows := by
  rw [hnew.isSet.elems_eq] at hv
  exact h.setGen.univSize_eq ▸ SetGenerator.members_lt (h.setGen.fits hfit) hv

/-- Puncturing the new set at a member, and what the server answers. -/
theorem NewSet.punc (hnew : NewSet env c i newSet) (h : c.SetInvariant env db) (hfit : PuncFits db n)
    {idx : ℕ} (hidx : idx ∈ newSet.elems) :
    ∃ q, c.setGen.punc env newSet idx = .ok q ∧ ∀ extra ∈ newSet.elems,
      (⟨q, extra⟩ : PuncQueryReq).Answers env db
        (xorOfRows n db.flatDb newSet.elems + rowAt n db.flatDb idx)
        (rowAt n db.flatDb extra) := by
  obtain ⟨q, hq, hst⟩ := SetGenerator.punc_spec (h.setGen.fits hfit) hnew.isSet.setSize_eq
    ((hnew.length h).trans h.setGen.setSize_eq.symm) hidx
  exact ⟨q, hq, fun extra hextra =>
    puncProcess_spec hfit h.setGen hnew.isSet hst hidx (hnew.lt h hfit hextra)⟩

/-- Another member of the new set. -/
theorem NewSet.member (hnew : NewSet env c i newSet) (h : c.SetInvariant env db) (idx : ℕ)
    {draws : List ℕ} (hdraws : ∀ d ∈ draws, d < roundSqrt db.numRows) :
    Outcome.Safe (randomMemberExcept newSet idx draws) fun r =>
      r.1 ∈ newSet.elems ∧ ∀ d ∈ r.2, d < roundSqrt db.numRows := by
  refine (randomMemberExcept_spec newSet idx draws (hnew.length h ▸ hdraws)).mono ?_
  intro r ⟨hmem, _, hrest⟩
  exact ⟨hmem, fun d hd => hdraws d (hrest d hd)⟩

/-- Case 1. -/
theorem queryCase1_spec (h : c.SetInvariant env db) (hfit : PuncFits db n)
    (hnew : NewSet env c i newSet) {ctx : PuncQueryCtx} (hctx : ctx.randCase = 1) {draws : List ℕ}
    (hdraws : ∀ d ∈ draws, d < roundSqrt db.numRows) :
    Outcome.Safe (c.queryCase1 env i newSet ctx draws) (Queried env db n c i ctx) := by
  refine Outcome.Safe.bind (hnew.member h i hdraws) ?_
  rintro ⟨extraR, draws₁⟩ ⟨hR, hdraws₁⟩
  refine Outcome.Safe.bind (hnew.member h extraR hdraws₁) ?_
  rintro ⟨extraL, draws₂⟩ ⟨hL, -⟩
  obtain ⟨qL, hqL, hansL⟩ := hnew.punc h hfit hR
  obtain ⟨qR, hqR, hansR⟩ := hnew.punc h hfit hnew.mem
  dsimp only at hqL ⊢
  rw [hqL, Outcome.ok_bind, hqR, Outcome.ok_bind]
  refine ⟨h, rfl, rfl, rfl, xorOfRows n db.flatDb newSet.elems, rowAt n db.flatDb extraL,
    rowAt n db.flatDb extraR, ?_⟩
  dsimp only
  rw [hctx]
  exact ⟨hansL extraL hL, hansR extraR hR, fun t => rfl⟩

/-- Case 2. -/
theorem queryCase2_spec (h : c.SetInvariant env db) (hfit : PuncFits db n)
    (hnew : NewSet env c i newSet) {ctx : PuncQueryCtx} (hctx : ctx.randCase = 2) {draws : List ℕ}
    (hdraws : ∀ d ∈ draws, d < roundSqrt db.numRows) :
    Outcome.Safe (c.queryCase2 env i newSet ctx draws) (Queried env db n c i ctx) := by
  refine Outcome.Safe.bind (hnew.member h i hdraws) ?_
  rintro ⟨extraL, draws₁⟩ ⟨hL, hdraws₁⟩
  refine Outcome.Safe.bind (hnew.member h extraL hdraws₁) ?_
  rintro ⟨extraR, draws₂⟩ ⟨hR, -⟩
  obtain ⟨qL, hqL, hansL⟩ := hnew.punc h hfit hnew.mem
  obtain ⟨qR, hqR, hansR⟩ := hnew.punc h hfit hL
  dsimp only at hqR ⊢
  rw [hqL, Outcome.ok_bind, hqR, Outcome.ok_bind]
  refine ⟨h, rfl, rfl, rfl, xorOfRows n db.flatDb newSet.elems, rowAt n db.flatDb extraL,
    rowAt n db.flatDb extraR, ?_⟩
  dsimp only
  rw [hctx]
  exact ⟨hansL extraL hL, hansR extraR hR, fun t => rfl⟩

/-- The XOR of each set after one has been replaced. -/
theorem setXor_replaced (h : c.SetInvariant env db) {s : ℕ} (hs : s < c.sets.length)
    (hset : c.setGen.IsSet env newSet) (horig : c.origSetGen.num ≤ newSet.key.id) (idx : List ℤ)
    (t : ℕ) :
    { c with sets := c.sets.set s newSet.key, idxToSetIdx := idx }.setXor env db n t =
      if t = s then xorOfRows n db.flatDb newSet.elems else c.setXor env db n t := by
  have hgen : c.genForKey newSet.key = c.setGen := by
    rw [PuncClient.genForKey, Nat.mod_eq_of_lt h.orig_lt, if_neg (by omega)]
  by_cases hts : t = s
  · subst hts
    rw [if_pos rfl, hset.elems_eq, PuncClient.setXor]
    dsimp only
    rw [List.getElem?_set_self hs]
    exact congrArg (fun gen => xorOfRows n db.flatDb (SetGenerator.members env gen newSet.key)) hgen
  · rw [if_neg hts, PuncClient.setXor, PuncClient.setXor]
    dsimp only
    rw [List.getElem?_set_ne (Ne.symm hts)]
    rfl

/-- Case 0, on a set that contains row `i`. -/
theorem queryCase0_spec (h : c.SetInvariant env db) (hfit : PuncFits db n)
    (hnew : NewSet env c i newSet) {ctx : PuncQueryCtx} (hctx : ctx.randCase = 0) {key : SetKey}
    (hs : c.sets[ctx.setIdx]? = some key) {pset : PuncturableSet}
    (hpset : (c.genForKey key).IsSet env pset) (hkey : pset.key = key) (hi : i ∈ pset.elems)
    {draws : List ℕ} (hdraws : ∀ d ∈ draws, d < roundSqrt db.numRows) :
    Outcome.Safe (c.queryCase0 env i pset newSet ctx draws) fun r => r.2.setGen = c.setGen ∧
      (c.origSetGen.num ≤ newSet.key.id → Queried env db n c i ctx r) := by
  have hfor := genForKey_for h key
  have hplen : pset.elems.length = roundSqrt db.numRows := by
    rw [hpset.elems_eq, SetGenerator.length_members, hfor.setSize_eq]
  have hplt : ∀ v ∈ pset.elems, v < db.numRows := by
    intro v hv
    rw [hpset.elems_eq] at hv
    exact hfor.univSize_eq ▸ SetGenerator.members_lt (hfor.fits hfit) hv
  refine Outcome.Safe.bind (hnew.member h i hdraws) ?_
  rintro ⟨extraL, draws₁⟩ ⟨hL, hdraws₁⟩
  refine Outcome.Safe.bind (randomMemberExcept_spec pset i draws₁ (hplen ▸ hdraws₁)) ?_
  rintro ⟨extraR, draws₂⟩ ⟨hR, -, -⟩
  obtain ⟨qL, hqL, hansL⟩ := hnew.punc h hfit hnew.mem
  obtain ⟨qR, hqR, hstR⟩ : ∃ q, c.setGen.punc env pset i = .ok q ∧ q.Stands env pset i :=
    SetGenerator.punc_spec (h.setGen.fits hfit)
    (by rw [hpset.setSize_eq, hfor.setSize_eq, h.setGen.setSize_eq])
    (by rw [hplen, h.setGen.setSize_eq]) hi
  have hansR := puncProcess_spec hfit hfor hpset hstR hi (hplt _ hR)
  obtain ⟨idx, hrep, hinv⟩ := replaceSet_spec h hfit hs hnew.isSet hnew.id_lt
  dsimp only at hansR ⊢
  rw [hqL, Outcome.ok_bind, hqR, Outcome.ok_bind, hrep, Outcome.ok_bind]
  refine ⟨rfl, fun horig => ?_⟩
  have hslt : ctx.setIdx < c.sets.length := (List.getElem?_eq_some_iff.mp hs).1
  have hold : c.setXor env db n ctx.setIdx = xorOfRows n db.flatDb pset.elems := by
    rw [PuncClient.setXor, hs, hpset.elems_eq, hkey]
    rfl
  refine ⟨hinv horig, rfl, rfl, List.length_set, xorOfRows n db.flatDb newSet.elems,
    rowAt n db.flatDb extraL, rowAt n db.flatDb extraR, ?_⟩
  dsimp only
  rw [hctx]
  refine ⟨hansL _ hL, ?_, setXor_replaced h hslt hnew.isSet horig idx⟩
  rw [hold]
  exact hansR

end

/-- The counter of the generator has no part in the XOR of a set. -/
theorem setXor_with_num (m t : ℕ) :
    { c with setGen := { c.setGen with num := m } }.setXor env db n t = c.setXor env db n t := by
  simp only [PuncClient.setXor]
  cases c.sets[t]? with
  | none => rfl
  | some key =>
      simp only [PuncClient.members, PuncClient.genForKey]
      split_ifs <;> rfl

/-- **The `switch` of `Query`**, on a set that contains row `i`, as long as no identifier has
wrapped round. -/
theorem queryCase_spec (h : c.SetInvariant env db) (hfit : PuncFits db n) {i : ℕ} {key : SetKey}
    {ctx : PuncQueryCtx} (hs : c.sets[ctx.setIdx]? = some key) (hi : i ∈ c.members env key)
    {draws : List ℕ} (hdraws : ∀ d ∈ draws, d < roundSqrt db.numRows) :
    Outcome.Safe (c.queryCase env i ⟨key, db.numRows, roundSqrt db.numRows,
        (c.genForKey key).seedOf env key.id, c.members env key⟩ ctx draws) fun r =>
      r.2.setGen.num < 2 ^ 32 → Queried env db n c i ctx r := by
  have hfor := genForKey_for h key
  have hilt : i < c.setGen.univSize := by
    rw [h.setGen.univSize_eq]
    exact members_lt h hfit hi
  refine Outcome.Safe.bind (SetGenerator.genWith_spec (h.setGen.fits hfit) hilt) ?_
  rintro ⟨newSet, setGen⟩ ⟨⟨hset, m, hm, hid, rfl⟩, hmem⟩
  -- from here on the client has moved its counter past the new set
  have h' := h.with_num hm
  have hnew : NewSet env { c with setGen := { c.setGen with num := m + 1 } } i newSet :=
    ⟨⟨hset.univSize_eq, hset.setSize_eq, hset.seed_eq, hset.elems_eq, hset.shift_lt⟩, hmem,
      hid ▸ Nat.lt_succ_of_le (Nat.mod_le m _)⟩
  have hback : ∀ r, Queried env db n { c with setGen := { c.setGen with num := m + 1 } } i ctx r →
      Queried env db n c i ctx r := by
    intro r hr
    refine ⟨hr.setInvariant, hr.ctx_eq, hr.hints_eq, hr.sets_length, ?_⟩
    have hpost := hr.post
    simp only [QueryPost, setXor_with_num] at hpost ⊢
    exact hpost
  have hcase : ctx.randCase = 0 ∨ ctx.randCase = 1 ∨ ctx.randCase = 2 := by omega
  dsimp only
  rcases hcase with h0 | h1 | h2
  · rw [h0]
    have hpset : (c.genForKey key).IsSet env ⟨key, db.numRows, roundSqrt db.numRows,
        (c.genForKey key).seedOf env key.id, c.members env key⟩ :=
      ⟨hfor.univSize_eq.symm, hfor.setSize_eq.symm, rfl, rfl,
        (h.keys key (List.mem_of_getElem? hs)).1⟩
    have hsame : ({ c with setGen := { c.setGen with num := m + 1 } }.genForKey key).IsSet env
        ⟨key, db.numRows, roundSqrt db.numRows, (c.genForKey key).seedOf env key.id,
          c.members env key⟩ := by
      have hset' := hpset
      simp only [PuncClient.genForKey, PuncClient.members] at hset' ⊢
      split_ifs at hset' ⊢
      · exact hset'
      · exact ⟨hset'.univSize_eq, hset'.setSize_eq, hset'.seed_eq, hset'.elems_eq, hset'.shift_lt⟩
    refine (queryCase0_spec h' hfit hnew h0 hs hsame rfl hi hdraws).mono ?_
    intro r hr hnum
    rw [hr.1] at hnum
    have hidm : newSet.key.id = m := by
      rw [hid, Nat.mod_eq_of_lt (Nat.lt_of_succ_lt hnum)]
    exact hback r (hr.2 (hidm.symm ▸ h.num_le.trans hm))
  · rw [h1]
    exact (queryCase1_spec h' hfit hnew h1 hdraws).mono fun r hr _ => hback r hr
  · rw [h2]
    exact (queryCase2_spec h' hfit hnew h2 hdraws).mono fun r hr _ => hback r hr

/-- What holds after `Query`, which found no set or left the read to be completed. -/
structure QueryDone (env : Env) (db : StaticDB) (n : ℕ) (c : PuncClient) (i : ℤ) (coin : ℕ)
    (r : Option PuncQuery × PuncClient) : Prop where
  setInvariant : r.2.SetInvariant env db
  hints_eq : r.2.hints = c.hints
  sets_length : r.2.sets.length = c.sets.length
  fails : r.1 = none → ∀ t, r.2.setXor env db n t = c.setXor env db n t
  asks : ∀ q, r.1 = some q → q.ctx.setIdx < c.sets.length ∧
    q.ctx.randCase = sample (c.setSize - 1) (c.setSize - 1) coin ∧
    QueryPost env db n c (i % (db.numRows : ℤ)).toNat (q, r.2)

/-- **`Query` does not fault**, and whatever it asks, the answers and its own sets fit
together. -/
theorem puncQuery_spec (h : c.SetInvariant env db) (hfit : PuncFits db n) (i : ℤ) (coin : ℕ)
    {draws : List ℕ} (hdraws : ∀ d ∈ draws, d < roundSqrt db.numRows) :
    Outcome.Safe (c.query env i coin draws) fun r =>
      r.2.setGen.num < 2 ^ 32 → QueryDone env db n c i coin r := by
  have hN : (0 : ℤ) < db.numRows := by exact_mod_cast hfit.numRows_pos
  have hhints : ¬c.hints.length < 1 := by
    rw [h.hints_length]
    have := h.sets_pos
    omega
  obtain ⟨found, idx, hfind, h', hmem⟩ := findIndex_spec h hfit i
  have hrows : ((({ c with idxToSetIdx := idx } : PuncClient).nRows : ℕ) : ℤ) = db.numRows := by
    rw [h'.nRows_eq]
  rw [PuncClient.query, if_neg hhints, hfind, Outcome.ok_bind]
  cases found with
  | none => exact fun _ => ⟨h', rfl, rfl, fun _ t => rfl, fun q hq => absurd hq (by simp)⟩
  | some s =>
      obtain ⟨key, hkey, hi⟩ := hmem s rfl
      have hslt : s < c.sets.length := (List.getElem?_eq_some_iff.mp hkey).1
      dsimp only at hrows ⊢
      rw [hrows, mathMod_eq i hN, Outcome.ofOption_some, Outcome.ok_bind, eval_eq h' hfit hkey,
        Outcome.ok_bind]
      refine Outcome.Safe.bind (queryCase_spec h' hfit hkey hi hdraws) ?_
      rintro ⟨q, c'⟩ hq
      intro hnum
      have hdone := hq hnum
      refine ⟨hdone.setInvariant, hdone.hints_eq, hdone.sets_length, fun hnone => absurd hnone (by simp),
        ?_⟩
      intro q' hq'
      obtain rfl := Option.some.inj hq'
      have hctx : q.ctx = _ := hdone.ctx_eq
      refine ⟨?_, ?_, hdone.post⟩
      · rw [hctx]
        exact hslt
      · rw [hctx]

/-! ## The other half -/

/-- The row that `reconstruct` returns, from the hint and the answers. -/
def puncRow (randCase : Fin 3) (hint xL eL xR eR : Bytes n) : Bytes n :=
  match randCase with
  | 0 => hint + xR
  | 1 => xL + xR + eR
  | 2 => xL + xR + eL

/-- **`reconstruct`**: the row, and in case 0 the new hint. -/
theorem puncReconstruct_spec {H : ℕ → Bytes n} (hH : c.HintsAre n H) (hpos : 0 < c.sets.length)
    {ctx : PuncQueryCtx} (hs : ctx.setIdx < c.sets.length) (xL eL xR eR : Bytes n) :
    c.reconstruct env ctx [⟨xL.toList, eL.toList⟩, ⟨xR.toList, eR.toList⟩] =
      some (.ok (puncRow ctx.randCase (H ctx.setIdx) xL eL xR eR).toList,
        { c with hints := if ctx.randCase = 0
            then c.hints.set ctx.setIdx (xL + (H ctx.setIdx + xR)).toList else c.hints }) := by
  have hcase : ctx.randCase = 0 ∨ ctx.randCase = 1 ∨ ctx.randCase = 2 := by omega
  have hzero : List.replicate (H 0).toList.length 0 = (0 : Bytes n).toList := by simp
  simp only [PuncClient.reconstruct, PuncClient.reconstructCase, hH 0 hpos, hzero,
    Option.bind_eq_bind, Option.bind_some]
  rcases hcase with h0 | h1 | h2
  · simp only [h0, hH _ hs, xorIntoSlice_rows, Option.bind_some, puncRow, zero_add,
      XorGroup.add_self, if_true]
  · simp only [h1, xorIntoSlice_rows, Option.bind_some, puncRow, zero_add, XorGroup.add_self]
    rfl
  · simp only [h2, xorIntoSlice_rows, Option.bind_some, puncRow, zero_add, XorGroup.add_self]
    rfl

/-! ## Both halves -/

/-- What an outstanding query for row `i` expects: if in case 0 the hint of its set is still `old`,
the answers give the row, and the new hint is `new`. -/
def PuncQuery.Asks (env : Env) (db : StaticDB) {n : ℕ} (q : PuncQuery) (i : ℕ) (old new : Bytes n) :
    Prop :=
  ∃ xL eL xR eR : Bytes n, q.left.Answers env db xL eL ∧ q.right.Answers env db xR eR ∧
    ∀ hint, (q.ctx.randCase = 0 → hint = old) →
      puncRow q.ctx.randCase hint xL eL xR eR = rowAt n db.flatDb i ∧
      (q.ctx.randCase = 0 → xL + (hint + xR) = new)

/-- What `Query` asks for is the row, and its sets differ from those before by the new hint. -/
theorem QueryPost.asks {i : ℕ} {r : PuncQuery × PuncClient} (h : QueryPost env db n c i r) :
    ∃ new, r.1.Asks env db i (c.setXor env db n r.1.ctx.setIdx) new ∧
      ∀ t, r.2.setXor env db n t =
        if r.1.ctx.randCase = 0 ∧ t = r.1.ctx.setIdx then new else c.setXor env db n t := by
  obtain ⟨new, eL, eR, hpost⟩ := h
  have hcase : r.1.ctx.randCase = 0 ∨ r.1.ctx.randCase = 1 ∨ r.1.ctx.randCase = 2 := by omega
  refine ⟨new, ?_⟩
  rcases hcase with h0 | h1 | h2
  · simp only [h0] at hpost
    obtain ⟨hL, hR, hsets⟩ := hpost
    refine ⟨⟨_, _, _, _, hL, hR, ?_⟩, ?_⟩
    · intro hint hold
      have hcancel : hint + (c.setXor env db n r.1.ctx.setIdx + rowAt n db.flatDb i) =
          rowAt n db.flatDb i := by
        rw [hold h0, ← add_assoc, XorGroup.add_self, zero_add]
      rw [h0]
      exact ⟨hcancel, fun _ => by rw [hcancel, XorGroup.add_add_self]⟩
    · intro t
      rw [hsets]
      simp only [h0, true_and]
  · simp only [h1] at hpost
    obtain ⟨hL, hR, hsets⟩ := hpost
    refine ⟨⟨_, _, _, _, hL, hR, ?_⟩, ?_⟩
    · intro hint _
      refine ⟨?_, fun h => by simp [h1] at h⟩
      rw [h1]
      show new + eR + (new + rowAt n db.flatDb i) + eR = rowAt n db.flatDb i
      rw [add_add_add_comm, XorGroup.add_self, zero_add, add_right_comm, XorGroup.add_self, zero_add]
    · intro t
      rw [hsets, if_neg (by simp [h1])]
  · simp only [h2] at hpost
    obtain ⟨hL, hR, hsets⟩ := hpost
    refine ⟨⟨_, _, _, _, hL, hR, ?_⟩, ?_⟩
    · intro hint _
      refine ⟨?_, fun h => by simp [h2] at h⟩
      rw [h2]
      show new + rowAt n db.flatDb i + (new + eL) + eL = rowAt n db.flatDb i
      rw [add_add_add_comm, XorGroup.add_self, zero_add, XorGroup.add_add_self]
    · intro t
      rw [hsets, if_neg (by simp [h2])]

/-- The hints after an outstanding query has been reconstructed. -/
def PuncQuery.hintsAfter {n : ℕ} (q : PuncQuery) (new : Bytes n) (H : ℕ → Bytes n) (t : ℕ) :
    Bytes n :=
  if q.ctx.randCase = 0 ∧ t = q.ctx.setIdx then new else H t

/-- **The second half of a read.** -/
theorem finish_spec {H : ℕ → Bytes n} (hH : c.HintsAre n H) (hlen : c.hints.length = c.sets.length)
    {q : PuncQuery} (hs : q.ctx.setIdx < c.sets.length) {i : ℕ} {old new : Bytes n}
    (hasks : q.Asks env db i old new) (hold : q.ctx.randCase = 0 → H q.ctx.setIdx = old) :
    ∃ hints, c.finish env db q = some (.ok (rowAt n db.flatDb i).toList, { c with hints }) ∧
      hints.length = c.sets.length ∧
      { c with hints }.HintsAre n (q.hintsAfter new H) := by
  obtain ⟨xL, eL, xR, eR, hL, hR, hrow⟩ := hasks
  obtain ⟨hout, hnew⟩ := hrow _ hold
  refine ⟨if q.ctx.randCase = 0
    then c.hints.set q.ctx.setIdx (xL + (H q.ctx.setIdx + xR)).toList else c.hints, ?_, ?_, ?_⟩
  · rw [PuncClient.finish, hL, hR, Option.bind_eq_bind, Option.bind_some, Option.bind_some,
      puncReconstruct_spec hH (Nat.zero_lt_of_lt hs) hs, hout]
  · split_ifs
    · rw [List.length_set, hlen]
    · exact hlen
  · intro t ht
    dsimp only at ht ⊢
    rw [PuncQuery.hintsAfter]
    by_cases h0 : q.ctx.randCase = 0
    · rw [if_pos h0, List.getElem?_set, hnew h0]
      by_cases hts : t = q.ctx.setIdx
      · rw [if_pos hts.symm, if_pos (hlen ▸ hs), if_pos ⟨h0, hts⟩]
      · rw [if_neg (Ne.symm hts), if_neg (by simp [hts]), hH t ht]
    · rw [if_neg h0, if_neg (by simp [h0]), hH t ht]

end SinglePassPIR.Pir
