import SinglePassPIR.Pir.StaticRuns

/-!
# The set size that the server chooses

A `SinglePassHintReq` with a set size of zero, as the layers of an updatable client send it,
makes the server choose `S = ⌊√N⌋`. The server then cuts `S * (N / S)` rows into hints
but makes arrays of `N` cells, and the client cuts all `N` cells into `S` pieces.

## Main results

* `initClient_eq_none_of_lt` — a client does not fit arrays of more than `S * H` cells.
* `defaultSetSize_correct_iff` — the databases that the chosen set size serves.
-/

namespace SinglePassPIR.Pir
open Psetggm

variable {n : ℕ} {db : StaticDB}

/-- The preprocessing with the set size that the server chooses succeeds, and along every run of
reads from its client every completed read of `i` returns row `i mod N`. -/
def ServesDefault (B : Build) (rnd : ℕ → UInt32) (db : StaticDB) : Prop :=
  ∃ resp c, SinglePassHintReq.process B rnd ⟨0⟩ db = some resp ∧ resp.initClient = some c ∧
    ∀ as : List (ReadAction (db.numRows / intSqrt db.numRows)),
      AlwaysUnder (SinglePassClient.step B db) (fun _ _ => True)
        (fun _ a out _ => a.Returns db out) c as

/-- Arrays of more than `S * H` cells do not fit a client of `S` chunks of `H` cells. -/
theorem initStateLoop_eq_none {perms inverses : List ℕ} {S H : ℕ} (hlong : S * H < perms.length)
    (fuel : ℕ) {i : ℕ} (hi : i ≤ S) {idxToSetIdx setIdxToIdx : List (List ℕ)}
    (hlen : idxToSetIdx.length = S) :
    initStateLoop perms inverses H fuel (i * H) i (idxToSetIdx, setIdxToIdx) = none := by
  have hlt : i * H < perms.length := (Nat.mul_le_mul_right H hi).trans_lt hlong
  induction fuel generalizing i idxToSetIdx setIdxToIdx with
  | zero => rw [initStateLoop, if_pos hlt]
  | succ fuel ih =>
      rw [initStateLoop, if_pos hlt]
      cases hpiece : slice perms (i * H) (i * H + H) with
      | none => rfl
      | some piece =>
          by_cases hiS : i < S
          · rw [Option.bind_eq_bind, Option.bind_some, writeAt_eq (by omega)]
            cases hinv : slice inverses (i * H) (i * H + H) with
            | none => rfl
            | some inverse =>
                by_cases hset : i < setIdxToIdx.length
                · have hnext : (i + 1) * H < perms.length :=
                    (Nat.mul_le_mul_right H (Nat.succ_le_of_lt hiS)).trans_lt hlong
                  have hsucc : i * H + H = (i + 1) * H := (Nat.succ_mul i H).symm
                  simp only [Option.bind_eq_bind, Option.bind_some, writeAt_eq hset, hsucc]
                  exact ih (Nat.succ_le_of_lt hiS) (by rw [List.length_set, hlen]) hnext
                · simp [writeAt, hset]
          · simp [writeAt, hlen, hiS]

/-- A client of `S` chunks of `H` columns does not fit arrays of more than `S * H` cells. -/
theorem initClient_eq_none_of_lt {resp : SinglePassHintResp}
    (hlt : resp.setSize * resp.nHints < resp.permutations.length) : resp.initClient = none := by
  have hloop := @initStateLoop_eq_none resp.permutations resp.inversePermutations resp.setSize
    resp.nHints hlt resp.permutations.length 0 (Nat.zero_le _) (List.replicate resp.setSize [])
    (List.replicate resp.setSize []) List.length_replicate
  rw [Nat.zero_mul] at hloop
  rw [SinglePassHintResp.initClient, SinglePassClient.initState, hloop]
  rfl

theorem storeAt_length {α : Type} {l v l' : List α} {off : ℕ} (h : storeAt l off v = some l') :
    l'.length = l.length := by
  rw [storeAt] at h
  split_ifs at h with hfit
  rw [← Option.some.inj h, length_store hfit]

/-- The pass keeps the length of the array of permutations. -/
theorem singlePassAnswer_length {B : Build} {rnd : ℕ → UInt32} {flat : List UInt8} {N S m : ℕ}
    {buf buf' : HintBuffers} (h : singlePassAnswer B rnd flat N S m buf = some buf') :
    buf'.permutations.length = buf.permutations.length := by
  rw [singlePassAnswer, answerSinglePass, intLoop] at h
  split_ifs at h
  refine loop_preserves (fun _ b => b.permutations.length = buf.permutations.length) rfl ?_ h
  intro i hi b b' hb hstep
  rw [singlePassChunk] at hstep
  simp only [Option.bind_eq_bind, Option.bind_eq_some_iff, Option.some.injEq] at hstep
  obtain ⟨perm, -, permutations, hstore, inverse, -, inverse', -, inverses, -, parities, -, rfl⟩ := hstep
  exact (storeAt_length hstore).trans hb

/-- **If the chosen set size does not divide the number of rows**, making the client runs out of
its arrays. -/
theorem initClient_eq_none {B : Build} {rnd : ℕ → UInt32} (hdvd : ¬intSqrt db.numRows ∣ db.numRows)
    {resp : SinglePassHintResp} (h : SinglePassHintReq.process B rnd ⟨0⟩ db = some resp) :
    resp.initClient = none := by
  have hlt : intSqrt db.numRows * (db.numRows / intSqrt db.numRows) < db.numRows := by
    have hmod : db.numRows % intSqrt db.numRows ≠ 0 := fun h0 => hdvd (Nat.dvd_of_mod_eq_zero h0)
    have hsplit := Nat.div_add_mod db.numRows (intSqrt db.numRows)
    omega
  rw [SinglePassHintReq.process] at h
  simp only [ne_eq, not_true, if_false, Option.bind_eq_bind] at h
  split_ifs at h
  simp only [Option.bind_eq_some_iff, Option.some.injEq] at h
  obtain ⟨buf, hbuf, hints, -, rfl⟩ := h
  have hlen := singlePassAnswer_length hbuf
  rw [List.length_replicate] at hlen
  exact initClient_eq_none_of_lt (hlen ▸ hlt)

/-- The sizes of a database whose chosen set size divides its rows fit the kernels. -/
theorem kernelFits_default (hN : 0 < db.numRows) (hdvd : intSqrt db.numRows ∣ db.numRows)
    (hrows : db.numRows < 2 ^ 32) (hchunk : db.numRows / intSqrt db.numRows * n < 2 ^ 32) :
    KernelFits (intSqrt db.numRows) (db.numRows / intSqrt db.numRows) n := by
  have hS : 0 < intSqrt db.numRows := Nat.sqrt_pos.mpr hN
  have hsquare : intSqrt db.numRows * intSqrt db.numRows ≤ db.numRows := Nat.sqrt_le _
  have hnext : db.numRows < (intSqrt db.numRows + 1) * (intSqrt db.numRows + 1) := Nat.lt_succ_sqrt _
  constructor
  · nlinarith
  · rw [Nat.div_lt_iff_lt_mul hS]
    nlinarith
  · rwa [Nat.mul_div_cancel' hdvd]
  · exact hchunk

/-- **The databases that the chosen set size serves**: those whose number of rows it divides. -/
theorem defaultSetSize_correct_iff (B : Build) (rnd : ℕ → UInt32) (hn : 0 < n) (hwf : db.WF n)
    (hN : 0 < db.numRows) :
    (¬intSqrt db.numRows ∣ db.numRows → ¬ServesDefault B rnd db) ∧
      (db.numRows < 2 ^ 32 → db.numRows / intSqrt db.numRows * n < 2 ^ 32 →
        (ServesDefault B rnd db ↔ intSqrt db.numRows ∣ db.numRows)) := by
  have hfails : ¬intSqrt db.numRows ∣ db.numRows → ¬ServesDefault B rnd db := by
    rintro hdvd ⟨resp, c, hproc, hinit, -⟩
    rw [initClient_eq_none hdvd hproc] at hinit
    exact Option.some_ne_none c hinit.symm
  refine ⟨hfails, fun hrows hchunk => ⟨fun hserves => not_not.mp fun hdvd => hfails hdvd hserves, ?_⟩⟩
  intro hdvd
  have hS : 0 < intSqrt db.numRows := Nat.sqrt_pos.mpr hN
  have hH : 0 < db.numRows / intSqrt db.numRows := Nat.div_pos (Nat.le_of_dvd hN hdvd) hS
  have hfit := kernelFits_default hN hdvd hrows hchunk
  have hsplit : db.numRows = intSqrt db.numRows * (db.numRows / intSqrt db.numRows) :=
    (Nat.mul_div_cancel' hdvd).symm
  obtain ⟨resp, t, hproc, hinit, hc, hm⟩ := hint_spec B rnd ⟨0⟩ hS hH hn hfit hwf hsplit
    (if_neg (not_not.mpr rfl))
  refine ⟨resp, t.client db.version, hproc, hinit, fun as => ?_⟩
  refine alwaysUnder_of_invariant (fun c => c.HintInvariant (intSqrt db.numRows)
    (db.numRows / intSqrt db.numRows) n db) ?_ as _ ⟨t, db.version, rfl, hc, hm⟩
  intro c a hc _
  obtain ⟨out, c', hstep, ⟨hreturns, -⟩, hc'⟩ :=
    SinglePassClient.step_spec B hS hn hfit hwf hsplit c a hc
  exact ⟨out, c', hstep, hreturns, hc'⟩

/-- Six rows in two chunks of three. -/
theorem defaultSetSize_correct_iff_six :
    let db : StaticDB := ⟨6, 1, 0, [1, 2, 3, 4, 5, 6]⟩
    (¬intSqrt db.numRows ∣ db.numRows → ¬ServesDefault .avx2 (fun _ => 0) db) ∧
      (db.numRows < 2 ^ 32 → db.numRows / intSqrt db.numRows * 1 < 2 ^ 32 →
        (ServesDefault .avx2 (fun _ => 0) db ↔ intSqrt db.numRows ∣ db.numRows)) :=
  defaultSetSize_correct_iff .avx2 (fun _ => 0) (by decide) ⟨rfl, rfl⟩ (by decide)

/-- Five rows: the server chooses two chunks of two. -/
theorem five_rows_not_served :
    let db : StaticDB := ⟨5, 1, 0, [1, 2, 3, 4, 5]⟩
    db.WF 1 ∧ ∀ B rnd, ¬ServesDefault B rnd db := by
  have hsqrt : intSqrt 5 = 2 := by decide +kernel
  refine ⟨⟨rfl, rfl⟩, ?_⟩
  rintro B rnd ⟨resp, c, hproc, hinit, -⟩
  rw [initClient_eq_none (by rw [hsqrt]; decide) hproc] at hinit
  exact Option.some_ne_none c hinit.symm

end SinglePassPIR.Pir
