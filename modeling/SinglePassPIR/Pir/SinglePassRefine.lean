import SinglePassPIR.Pir.HintTable
import SinglePassPIR.Pir.SinglePass

/-!
# The SinglePass client refines the hint table

`t.client v` is the client that represents the hint table `t` at version `v`: every array
of the client is the image of one component of the table. `Query`, `Process` and
`reconstruct` on such a client are the operations of the table, for every build of the
kernels.

## Main results

* `query_client`, `process_spec`, `reconstruct_client` — one lemma for each operation.
* `read_client` — a read answered by the database that the table matches returns the row
  and leaves the client of the refreshed table.
-/

namespace SinglePassPIR.Pir
open Psetggm

variable {H n : ℕ}

/-- The slices of a family of hints. -/
def hintRows (f : Fin H → Bytes n) : List (List UInt8) := List.ofFn fun h => (f h).toList

@[simp] theorem length_hintRows (f : Fin H → Bytes n) : (hintRows f).length = H := by
  simp [hintRows]

theorem getElem?_hintRows (f : Fin H → Bytes n) (h : Fin H) :
    (hintRows f)[(h : ℕ)]? = some (f h).toList := by
  simp [hintRows]

theorem set_hintRows (f : Fin H → Bytes n) (h : Fin H) (x : Bytes n) :
    (hintRows f).set h x.toList = hintRows (Function.update f h x) := by
  refine List.ext_getElem (by simp) ?_
  intro k hk _
  have hkH : k < H := by simpa using hk
  simp only [hintRows, List.getElem_set, List.getElem_ofFn, Function.update_apply]
  by_cases hkh : (h : ℕ) = k
  · rw [if_pos hkh, if_pos (Fin.ext hkh.symm)]
  · rw [if_neg hkh, if_neg fun heq => hkh (congrArg Fin.val heq).symm]

/-- Row `x` of chunk `j` of a database with chunks of `H` rows. -/
def StaticDB.chunkRow (H n : ℕ) (db : StaticDB) (j : ℕ) (x : Fin H) : Bytes n :=
  db.get n (j * H + x)

namespace HintTable

/-- The client that represents a hint table. -/
def client (t : HintTable (Fin H) (Bytes n)) (v : ℕ) : SinglePassClient where
  nRows := t.chunks * H
  rowLen := n
  setSize := t.chunks
  hints := hintRows t.hint
  nHints := H
  idxToSetIdx := (List.range t.chunks).map fun j => permArray (t.perm j)
  setIdxToIdx := (List.range t.chunks).map fun j => permArray (t.perm j).symm
  currVersion := v

variable {t : HintTable (Fin H) (Bytes n)} {v : ℕ}

/-- The client does not see the permutations of chunks that the table does not have. -/
theorem client_congr {t' : HintTable (Fin H) (Bytes n)} (hc : t.chunks = t'.chunks)
    (hp : ∀ j < t.chunks, t.perm j = t'.perm j) (hh : ∀ h, t.hint h = t'.hint h) :
    t.client v = t'.client v := by
  have hperm : (List.range t.chunks).map (fun j => permArray (t.perm j)) =
      (List.range t.chunks).map fun j => permArray (t'.perm j) :=
    List.map_congr_left fun j hj => by rw [hp j (List.mem_range.mp hj)]
  have hinv : (List.range t.chunks).map (fun j => permArray (t.perm j).symm) =
      (List.range t.chunks).map fun j => permArray (t'.perm j).symm :=
    List.map_congr_left fun j hj => by rw [hp j (List.mem_range.mp hj)]
  simp only [client, ← hc, hperm, hinv, funext hh]

theorem getElem?_idxToSetIdx {j : ℕ} (hj : j < t.chunks) :
    (t.client v).idxToSetIdx[j]? = some (permArray (t.perm j)) :=
  getElem?_map_range (fun j => permArray (t.perm j)) hj

theorem getElem?_setIdxToIdx {j : ℕ} (hj : j < t.chunks) :
    (t.client v).setIdxToIdx[j]? = some (permArray (t.perm j).symm) :=
  getElem?_map_range (fun j => permArray (t.perm j).symm) hj

/-! ## Query -/

/-- `findIndex` splits an index into chunk and column and looks the column up in the inverse
permutation. -/
theorem findIndex_client {j : ℕ} (hj : j < t.chunks) (x : Fin H) :
    (t.client v).findIndex (j * H + x) = some (j, (x : ℕ), ((t.perm j).symm x : ℕ)) := by
  have hH : 0 < H := x.pos
  have hend := block_end_le (w := H) hj
  have hdiv : (j * H + x) / H = j := by
    rw [Nat.add_comm, Nat.add_mul_div_right _ _ hH, Nat.div_eq_of_lt x.isLt, Nat.zero_add]
  have hguard : ¬(t.chunks * H ≤ j * H + x ∨ H = 0) := by have := x.isLt; omega
  have hsub : j * H + (x : ℕ) - j * H = x := by omega
  have hlook := getElem?_setIdxToIdx (v := v) hj
  simp only [client] at hlook
  simp only [SinglePassClient.findIndex, client, hguard, if_false, hdiv, hsub, hlook,
    getElem?_permArray, Option.bind_eq_bind, Option.bind_some]

/-- Every integer index names a column of a chunk. -/
theorem exists_column (i : ℤ) (hH : 0 < H) (hc : 0 < t.chunks) :
    ∃ j < t.chunks, ∃ x : Fin H, i % ((t.chunks * H : ℕ) : ℤ) = ((j * H + x : ℕ) : ℤ) := by
  have hpos : (0 : ℤ) < ((t.chunks * H : ℕ) : ℤ) := by exact_mod_cast Nat.mul_pos hc hH
  have hnn := Int.emod_nonneg i hpos.ne'
  have hlt := Int.emod_lt_of_pos i hpos
  obtain ⟨m, hm⟩ := Int.eq_ofNat_of_zero_le hnn
  have hmlt : m < t.chunks * H := by exact_mod_cast hm ▸ hlt
  refine ⟨m / H, (Nat.div_lt_iff_lt_mul hH).mpr hmlt, ⟨m % H, Nat.mod_lt m hH⟩, ?_⟩
  rw [hm]
  exact_mod_cast (Nat.div_add_mod' m H).symm

/-- **`Query`.** The offline server is asked for the positions `r j`, the online server for
the position of the wanted column, and for `r j₀` in the queried chunk. -/
theorem query_client (r : ℕ → Fin H) {i : ℤ} {j₀ : ℕ} {x : Fin H} (hj₀ : j₀ < t.chunks)
    (hi : i % ((t.chunks * H : ℕ) : ℤ) = ((j₀ * H + x : ℕ) : ℤ)) :
    (t.client v).query i (fun j => r j) = some
      { left := ⟨(List.range t.chunks).map fun j => (t.perm j (r j) : ℕ), t.chunks⟩
        right := ⟨(List.range t.chunks).map fun j =>
          (t.perm j (onlinePos j₀ ((t.perm j₀).symm x) r j) : ℕ), t.chunks⟩
        ctx := ⟨j₀, ((t.perm j₀).symm x : ℕ), (List.range t.chunks).map fun j => (r j : ℕ)⟩ } := by
  have hH : 0 < H := x.pos
  have hpos : (0 : ℤ) < ((t.chunks * H : ℕ) : ℤ) := by
    exact_mod_cast Nat.mul_pos (Nat.zero_lt_of_lt hj₀) hH
  have hmod : mathMod i ((t.client v).nRows : ℤ) = some ((j₀ * H + x : ℕ) : ℤ) := by
    rw [← hi]; exact mathMod_eq i hpos
  have hcols : (List.range t.chunks).mapM
      ((t.client v).queryColumn ((t.perm j₀).symm x : ℕ) fun j => r j) =
      some ((List.range t.chunks).map fun j =>
        ((t.perm j ((t.perm j₀).symm x) : ℕ), (r j : ℕ), (t.perm j (r j) : ℕ))) := by
    refine mapM_range_eq (fun j => ((t.perm j ((t.perm j₀).symm x) : ℕ), (r j : ℕ),
      (t.perm j (r j) : ℕ))) ?_
    intro j hj
    simp only [SinglePassClient.queryColumn, getElem?_idxToSetIdx hj, getElem?_permArray,
      Option.bind_eq_bind, Option.bind_some]
  have hhints : ¬(t.client v).hints.length < 1 := by
    change ¬(hintRows t.hint).length < 1
    rw [length_hintRows]; omega
  have hwrite : writeAt ((List.range t.chunks).map fun j =>
      (t.perm j ((t.perm j₀).symm x) : ℕ)) j₀ (t.perm j₀ (r j₀) : ℕ) =
      some ((List.range t.chunks).map fun j =>
        (t.perm j (onlinePos j₀ ((t.perm j₀).symm x) r j) : ℕ)) := by
    rw [writeAt_eq (by simpa using hj₀), set_map_range]
    refine congrArg some (List.map_congr_left fun j _ => ?_)
    rw [Function.update_apply, onlinePos]
    by_cases hj : j = j₀
    · rw [if_pos hj, if_pos hj, hj]
    · rw [if_neg hj, if_neg hj]
  have hset : (t.client v).setSize = t.chunks := rfl
  simp only [SinglePassClient.query, hhints, if_false, hmod, Int.toNat_natCast,
    findIndex_client hj₀ x, hset, hcols, List.map_map, Function.comp_def,
    getElem?_idxToSetIdx hj₀, Option.bind_eq_bind, Option.bind_some,
    getElem?_map_range (fun j => (r j : ℕ)) hj₀, getElem?_permArray, hwrite]

end HintTable

/-! ## Process -/

/-- **`Process`.** The answer is the row at `offset * i + PRSet[i]` for every `i`. -/
theorem process_spec (B : Build) {db : StaticDB} {S : ℕ} (f : ℕ → ℕ) (hn : 0 < n)
    (h32 : n < 2 ^ 32) (hwf : db.WF n) (hS : 0 < S)
    (hf : ∀ j < S, db.numRows / S * j + f j < db.numRows) :
    ∃ answer, SinglePassQueryReq.process B ⟨(List.range S).map f, S⟩ db = some ⟨answer⟩ ∧
      answer.length = S * n ∧
      ∀ j < S, rowAt n answer j = db.get n (db.numRows / S * j + f j) := by
  have key := loop_spec (n := S) (s := List.replicate (S * n) 0)
    (f := SinglePassQueryReq.processRow B ⟨(List.range S).map f, S⟩ db (db.numRows / S))
    (fun i answer => answer.length = S * n ∧ ∀ j < S, rowAt n answer j =
      if j < i then db.get n (db.numRows / S * j + f j) else 0)
    ⟨by simp, fun j _ => by rw [if_neg (by omega), rowAt_replicate_zero]⟩ ?step
  case step =>
    rintro i hi answer ⟨hlen, hrows⟩
    have hend := block_end_le (w := n) hi
    have hout : slice answer (i * n) (i * n + n) = some (0 : Bytes n).toList := by
      rw [← Nat.succ_mul, slice_rowAt hlen hi, hrows i hi, if_neg (by omega)]
    have hdb : (db.numRows / S * i + f i) * n + n ≤ db.flatDb.length := by
      rw [hwf.length_eq]; exact block_end_le (hf i hi)
    obtain ⟨answer', hst, hlen', hsl⟩ := storeAt_block hlen hi
      (Bytes.length_toList (rowAt n db.flatDb (db.numRows / S * i + f i)))
    refine ⟨answer', ?_, hlen', ?_⟩
    · simp only [SinglePassQueryReq.processRow, getElem?_map_range f hi, hwf.rowLen_eq, hout,
        copyIn_eq B hn h32 hdb, hst, Option.bind_eq_bind, Option.bind_some]
    · intro j hj
      have hrow := hsl j hj
      rw [slice_rowAt hlen' hj, slice_rowAt hlen hj] at hrow
      by_cases hji : j = i
      · rw [if_pos hji, Option.some.injEq] at hrow
        rw [if_pos (by omega), Bytes.toList_injective hrow, hji, StaticDB.get]
      · rw [if_neg hji, Option.some.injEq] at hrow
        rw [Bytes.toList_injective hrow, hrows j hj]
        exact if_congr (by omega) rfl rfl
  obtain ⟨answer, hloop, hlen, hrows⟩ := key
  refine ⟨answer, ?_, hlen, fun j hj => by rw [hrows j hj, if_pos hj]⟩
  simp only [SinglePassQueryReq.process, hS.ne', if_false, hwf.rowLen_eq, hloop,
    Option.bind_eq_bind, Option.bind_some]

/-! ## Reconstruct -/

namespace HintTable

variable {t : HintTable (Fin H) (Bytes n)} {v : ℕ}

theorem xorHint_client (B : Build) (hn : 0 < n) (h32 : n < 2 ^ 32) (s : Fin H) (x : Bytes n) :
    (t.client v).xorHint B s x.toList n = some ((t.addHint s x).client v) := by
  simp only [SinglePassClient.xorHint, client, getElem?_hintRows, fastXorInto_eq B hn h32,
    set_hintRows, addHint, Option.bind_eq_bind, Option.bind_some]

/-- The exchange of two positions in a permutation and the two stores in its inverse. -/
theorem client_exchange {j : ℕ} (q s : Fin H) :
    ({ t.client v with
        idxToSetIdx := (t.client v).idxToSetIdx.set j
          (((permArray (t.perm j)).set q (t.perm j s)).set s (t.perm j q))
        setIdxToIdx := (t.client v).setIdxToIdx.set j
          (((permArray (t.perm j).symm).set (t.perm j q) s).set (t.perm j s) q) } :
      SinglePassClient) = (t.exchange j q s).client v := by
  have hperm : (fun k => permArray ((t.exchange j q s).perm k)) =
      Function.update (fun k => permArray (t.perm k)) j
        (permArray (t.perm j * Equiv.swap q s)) := by
    funext k
    simp only [exchange, Function.update_apply]
    split_ifs <;> rfl
  have hinv : (fun k => permArray ((t.exchange j q s).perm k).symm) =
      Function.update (fun k => permArray (t.perm k).symm) j
        (permArray (t.perm j * Equiv.swap q s).symm) := by
    funext k
    simp only [exchange, Function.update_apply]
    split_ifs <;> rfl
  simp only [client, set_map_range, permArray_exchange, permArray_symm_exchange, hperm, hinv]
  rfl

/-- One round of the loop of `reconstruct`. -/
theorem reconstructColumn_client (B : Build) {answer0 answer1 : List UInt8} {j₀ i : ℕ}
    {q : Fin H} {r : ℕ → Fin H} (hn : 0 < n) (h32 : n < 2 ^ 32) (hi : i < t.chunks)
    (h0 : answer0.length = t.chunks * n) (h1 : answer1.length = t.chunks * n) :
    SinglePassClient.reconstructColumn B answer0 answer1
        ⟨j₀, q, (List.range t.chunks).map fun j => (r j : ℕ)⟩ n i (t.client v) =
      some ((((t.addHint (r i) (rowAt n answer0 i)).addHint (r i) (rowAt n answer1 i)).exchange
        i q (r i)).client v) := by
  set t' := (t.addHint (r i) (rowAt n answer0 i)).addHint (r i) (rowAt n answer1 i) with ht'
  have hi' : i < t'.chunks := hi
  rw [← client_exchange]
  simp only [SinglePassClient.reconstructColumn, getElem?_map_range (fun j => (r j : ℕ)) hi,
    slice_rowAt h0 hi, slice_rowAt h1 hi, xorHint_client B hn h32, Option.bind_eq_bind,
    Option.bind_some, ← ht', getElem?_idxToSetIdx hi', getElem?_setIdxToIdx hi',
    getElem?_permArray]
  rw [writeAt_eq (by simp), Option.bind_some, writeAt_eq (by simp), Option.bind_some,
    writeAt_eq (by simp), Option.bind_some, writeAt_eq (by simp), Option.bind_some]

/-- **`reconstruct`**, for any two answers of the right length: it returns the recovered row
and leaves the client of the refreshed table. -/
theorem reconstruct_client (B : Build) {answer0 answer1 : List UInt8} {j₀ : ℕ} {q : Fin H}
    {r : ℕ → Fin H} (hn : 0 < n) (h32 : n < 2 ^ 32) (hj₀ : j₀ < t.chunks)
    (h31 : t.chunks < 2 ^ 31) (h0 : answer0.length = t.chunks * n)
    (h1 : answer1.length = t.chunks * n) :
    (t.client v).reconstruct B [⟨answer0⟩, ⟨answer1⟩]
        ⟨j₀, q, (List.range t.chunks).map fun j => (r j : ℕ)⟩ =
      some (.ok (t.recovered j₀ q (rowAt n answer1)).toList,
        (t.refresh j₀ q r (rowAt n answer0) (rowAt n answer1)).client v) := by
  have hH : 0 < H := q.pos
  have hS : 0 < t.chunks := Nat.zero_lt_of_lt hj₀
  have hfirst : (t.client v).hints[0]? = some (t.hint ⟨0, hH⟩).toList :=
    getElem?_hintRows t.hint ⟨0, hH⟩
  have hpos : (t.client v).hints[(q : ℕ)]? = some (t.hint q).toList :=
    getElem?_hintRows t.hint q
  have hset : (t.client v).setSize = t.chunks := rfl
  have hloop : loop t.chunks
      (SinglePassClient.reconstructColumn B answer0 answer1
        ⟨j₀, q, (List.range t.chunks).map fun j => (r j : ℕ)⟩ n)
      ({ t.client v with
          hints := (t.client v).hints.set q
            (Bytes.toList (∑ j ∈ Finset.range t.chunks, rowAt n answer0 j)) } :
        SinglePassClient) =
      some ((t.partialRefresh q r (rowAt n answer0) (rowAt n answer1) t.chunks).client
        v) := by
    refine loop_eq (fun i =>
      (t.partialRefresh q r (rowAt n answer0) (rowAt n answer1) i).client v) ?_ ?_
    · simp only [client, partialRefresh, set_hintRows, Nat.not_lt_zero, if_false,
        Finset.range_zero, Finset.sum_empty, add_zero, SinglePassClient.mk.injEq, true_and,
        and_true]
      refine congrArg hintRows ?_
      funext h
      rw [Function.update_apply]
    · intro i hi
      rw [← partialRefresh_succ]
      exact reconstructColumn_client B (t := t.partialRefresh q r _ _ i) hn h32 hi h0 h1
  have hout : (0 : Bytes n) + ∑ i ∈ Finset.range t.chunks, rowAt n answer1 i + t.hint q +
      rowAt n answer1 j₀ = t.recovered j₀ q (rowAt n answer1) := by
    rw [zero_add, recovered]
  have hx0 := xorBlocksTogether_eq B (0 : Bytes n) hn h32 hS h31 h0
  have hx1 := xorBlocksTogether_eq B (0 : Bytes n) hn h32 hS h31 h1
  have hsum := fastXorInto_eq B hn h32 (0 : Bytes n) (∑ i ∈ Finset.range t.chunks, rowAt n answer1 i)
  rw [Bytes.toList_zero] at hx0 hx1 hsum
  simp only [hset] at hloop
  simp only [SinglePassClient.reconstruct, hfirst, Bytes.length_toList, hset, hx0, hx1,
    slice_rowAt h1 hj₀, hsum, fastXorInto_eq B hn h32, hpos, hout, hloop, xorHint_client B hn h32,
    getElem?_map_range (fun j => (r j : ℕ)) hj₀, Option.bind_eq_bind, Option.bind_some]
  refine congrArg (fun c => some (Except.ok _, c)) (client_congr rfl ?_ ?_)
  · intro j hj
    exact if_pos hj
  · intro h
    exact partialRefresh_fixup t j₀ q r _ _ h

/-- **The answers of the two servers**, which hold a table whose chunks are as wide as the
client's: they are the rows at the positions of the read. -/
theorem answers_client (B : Build) {db : StaticDB} {j₀ : ℕ} (r : ℕ → Fin H) (q : Fin H)
    (hn : 0 < n) (h32 : n < 2 ^ 32) (hwf : db.WF n) (hwidth : db.numRows / t.chunks = H)
    (hj₀ : j₀ < t.chunks) : ∃ answer0 answer1,
      SinglePassQueryReq.process B
        ⟨(List.range t.chunks).map fun j => (t.perm j (r j) : ℕ), t.chunks⟩ db = some ⟨answer0⟩ ∧
      SinglePassQueryReq.process B
        ⟨(List.range t.chunks).map fun j => (t.perm j (onlinePos j₀ q r j) : ℕ), t.chunks⟩ db =
          some ⟨answer1⟩ ∧
      answer0.length = t.chunks * n ∧ answer1.length = t.chunks * n ∧
      t.Answers (db.chunkRow H n) j₀ q r (rowAt n answer0) (rowAt n answer1) := by
  have hS : 0 < t.chunks := Nat.zero_lt_of_lt hj₀
  have hle : t.chunks * H ≤ db.numRows := by
    have hmul := Nat.mul_div_le db.numRows t.chunks
    rwa [hwidth] at hmul
  have hpos : ∀ (p : ℕ → Fin H), ∀ j < t.chunks,
      db.numRows / t.chunks * j + (p j : ℕ) < db.numRows := by
    intro p j hj
    have hend := block_end_le (w := H) hj
    have hlt := (p j).isLt
    rw [hwidth, mul_comm]
    omega
  obtain ⟨answer0, hp0, hl0, hr0⟩ := process_spec B (fun j => (t.perm j (r j) : ℕ)) hn h32 hwf hS
    (hpos fun j => t.perm j (r j))
  obtain ⟨answer1, hp1, hl1, hr1⟩ := process_spec B (fun j => (t.perm j (onlinePos j₀ q r j) : ℕ))
    hn h32 hwf hS (hpos fun j => t.perm j (onlinePos j₀ q r j))
  refine ⟨answer0, answer1, hp0, hp1, hl0, hl1, ?_, ?_⟩
  · intro j hj
    rw [hr0 j hj, hwidth, mul_comm, StaticDB.chunkRow]
  · intro j hj
    rw [hr1 j hj, hwidth, mul_comm, StaticDB.chunkRow]

/-- **A complete read** returns the recovered row and leaves the client of the refreshed hint
table, for the answers at the positions of the read. -/
theorem read_client (B : Build) {db : StaticDB} {i : ℤ} {j₀ : ℕ} {x : Fin H} (r : ℕ → Fin H)
    (hn : 0 < n) (h32 : n < 2 ^ 32) (h31 : t.chunks < 2 ^ 31) (hwf : db.WF n)
    (hwidth : db.numRows / t.chunks = H) (hj₀ : j₀ < t.chunks)
    (hi : i % ((t.chunks * H : ℕ) : ℤ) = ((j₀ * H + x : ℕ) : ℤ)) :
    ∃ a₀ a₁, t.Answers (db.chunkRow H n) j₀ ((t.perm j₀).symm x) r a₀ a₁ ∧
      (t.client v).read B db i (fun j => r j) =
        some (.ok (t.recovered j₀ ((t.perm j₀).symm x) a₁).toList,
          (t.refresh j₀ ((t.perm j₀).symm x) r a₀ a₁).client v) := by
  obtain ⟨answer0, answer1, hp0, hp1, hl0, hl1, ha⟩ := answers_client (t := t) B r
    ((t.perm j₀).symm x) hn h32 hwf hwidth hj₀
  have hrec := reconstruct_client (v := v) B (q := (t.perm j₀).symm x) (r := r) hn h32 hj₀ h31
    hl0 hl1
  refine ⟨rowAt n answer0, rowAt n answer1, ha, ?_⟩
  simp only [SinglePassClient.read, query_client r hj₀ hi, hp0, hp1, hrec, Option.bind_eq_bind,
    Option.bind_some]

end HintTable

/-! ## Preprocessing -/

/-- The loop of `initState` cuts an array into its blocks. -/
theorem initStateLoop_spec {S : ℕ} {permutations inversePermutations : List ℕ}
    {p q : ℕ → List ℕ} (hH : 0 < H) (hlen : permutations.length = S * H)
    (hp : ∀ j < S, slice permutations (j * H) ((j + 1) * H) = some (p j))
    (hinv : ∀ j < S, slice inversePermutations (j * H) ((j + 1) * H) = some (q j)) (fuel i : ℕ)
    (hi : i ≤ S) (hfuel : S ≤ fuel + i) :
    initStateLoop permutations inversePermutations H fuel (i * H) i
        ((List.range S).map fun j => if j < i then p j else [],
          (List.range S).map fun j => if j < i then q j else []) =
      some ((List.range S).map p, (List.range S).map q) := by
  have hdone : ∀ f : ℕ → List ℕ, (List.range S).map (fun j => if j < S then f j else []) =
      (List.range S).map f := by
    intro f
    exact List.map_congr_left fun j hj => if_pos (List.mem_range.mp hj)
  induction fuel generalizing i with
  | zero =>
      obtain rfl : i = S := by omega
      rw [initStateLoop, if_neg (by omega), hdone, hdone]
  | succ fuel ih =>
      rcases Nat.lt_or_ge i S with hlt | hge
      · have hput : ∀ f : ℕ → List ℕ,
            Function.update (fun j => if j < i then f j else []) i (f i) =
              fun j => if j < i + 1 then f j else [] := by
          intro f
          funext j
          rw [Function.update_apply]
          by_cases hj : j = i
          · rw [if_pos hj, if_pos (by omega), hj]
          · rw [if_neg hj]
            exact if_congr (by omega) rfl rfl
        have hend := block_end_le (w := H) hlt
        have hguard : i * H < permutations.length := by omega
        have hsp := hp i hlt
        have hsi := hinv i hlt
        rw [Nat.succ_mul] at hsp hsi
        simp only [initStateLoop, hguard, if_true, hsp, hsi, Option.bind_eq_bind, Option.bind_some]
        rw [writeAt_eq (by simpa using hlt), Option.bind_some, writeAt_eq (by simpa using hlt),
          Option.bind_some, set_map_range, set_map_range, hput, hput q,
          ← Nat.succ_mul]
        exact ih (i + 1) hlt (by omega)
      · obtain rfl : i = S := by omega
        rw [initStateLoop, if_neg (by omega), hdone, hdone]

/-- **`Process` and `InitClient`.** The client that the preprocessing hands out represents a
hint table that matches the database, for every outcome of the generator. -/
theorem hint_spec (B : Build) (rnd : ℕ → UInt32) {db : StaticDB} {S : ℕ}
    (req : SinglePassHintReq) (hS : 0 < S) (hH : 0 < H) (hn : 0 < n) (hfit : KernelFits S H n)
    (hwf : db.WF n) (hrows : db.numRows = S * H)
    (hreq : (if req.setSize ≠ 0 then req.setSize else intSqrt db.numRows) = S) :
    ∃ (resp : SinglePassHintResp) (t : HintTable (Fin H) (Bytes n)),
      req.process B rnd db = some resp ∧ resp.initClient = some (t.client db.version) ∧
        t.chunks = S ∧ t.Matches (db.chunkRow H n) := by
  obtain ⟨p, buf, hpass, hinv⟩ := singlePassAnswer_spec B rnd hS hH hn hfit
    (hwf.length_eq.trans (by rw [hrows]))
  have hdiv : S * H / S = H := Nat.mul_div_cancel_left H hS
  have hhints : (List.range H).mapM (fun i => slice buf.parities (n * i) (n * (i + 1))) =
      some ((List.range H).map fun i => (rowAt n buf.parities i).toList) := by
    refine mapM_range_eq (fun i => (rowAt n buf.parities i).toList) ?_
    intro i hi
    rw [mul_comm n i, mul_comm n (i + 1)]
    exact slice_rowAt hinv.parities_length hi
  let t : HintTable (Fin H) (Bytes n) :=
    { chunks := S, perm := p, hint := fun h => rowAt n buf.parities h }
  have hrange : (List.range H).map (fun i => (rowAt n buf.parities i).toList) =
      hintRows t.hint := by
    refine List.ext_getElem (by simp) ?_
    intro k _ _
    simp only [hintRows, List.getElem_map, List.getElem_range, List.getElem_ofFn, t]
  refine ⟨{ nRows := S * H, rowLen := n, setSize := S, hints := hintRows t.hint, nHints := H
            permutations := buf.permutations, inversePermutations := buf.inversePermutations
            version := db.version }, t, ?_, ?_, rfl, ?_⟩
  · rw [hrows] at hreq
    simp only [SinglePassHintReq.process, hreq, hS.ne', if_false, hwf.rowLen_eq, hrows, hdiv,
      hpass, hhints, hrange, Option.bind_eq_bind, Option.bind_some]
  · have hloop := initStateLoop_spec hH hinv.permutations_length hinv.permutations
      hinv.inversePermutations buf.permutations.length 0 (Nat.zero_le S)
      (by rw [hinv.permutations_length]; exact Nat.le_mul_of_pos_right S hH)
    have hempty : ∀ f : ℕ → List ℕ, (List.range S).map (fun j => if j < 0 then f j else []) =
        List.replicate S [] := by
      intro f
      simp
    rw [hempty, hempty, Nat.zero_mul] at hloop
    simp only [SinglePassHintResp.initClient, SinglePassClient.initState, hloop,
      Option.bind_eq_bind, Option.bind_some]
    rfl
  · intro h
    exact hinv.parities h

end SinglePassPIR.Pir
