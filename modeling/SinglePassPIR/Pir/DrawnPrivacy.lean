import SinglePassPIR.Pir.OnlinePrivacy
import SinglePassPIR.Psetggm.PermuteWords

/-!
# What the online server sees, from the words of the generator

The permutations of a SinglePass client come from `RAND_bytes` through `fastMod`, which does not
divide the words evenly. Here the runs are those of the code from the start: the offline server
preprocesses the database with a tape of words, the client is made from its hint, and the online
server sees the positions of the reads that follow. For every view, two sequences of indices come
from numbers of tapes and swaps whose ratio is at most that of the bounds for the tapes of the
permutations.

## Main results

* `hint_words` — the permutations of the client, from the words.
* `drawnView_nearly_independent` — the views of any two sequences of indices.
-/

namespace SinglePassPIR.Pir
open Psetggm

variable {S H n T : ℕ}

/-! ## The permutations of the hint -/

theorem permArray_inj {σ τ : Equiv.Perm (Fin H)} (h : permArray σ = permArray τ) : σ = τ := by
  refine Equiv.ext fun x => Fin.ext ?_
  exact congrFun (List.ofFn_injective h) x

/-- The permutation of chunk `j`. -/
def chunkPerm (rnd : ℕ → UInt32) (hH : H < 2 ^ 32) (j : ℕ) : Equiv.Perm (Fin H) :=
  drawnPerm (fun k => rnd (j * (H - 1) + k)) hH

/-- The pass draws the permutation of a chunk from the words after those of the chunks before it. -/
theorem singlePassChunk_words (B : Build) (rnd : ℕ → UInt32) {i : ℕ} {db : List UInt8}
    {p : ℕ → Equiv.Perm (Fin H)} {buf : HintBuffers} (hH : 0 < H) (hfit : KernelFits S H n)
    (hH32 : H < 2 ^ 32) (hdb : db.length = S * H * n) (hi : i < S) (hinv : PassInv S n db i p buf)
    (hp : ∀ j < i, p j = chunkPerm rnd hH32 j) :
    ∃ (p' : ℕ → Equiv.Perm (Fin H)) (buf' : HintBuffers),
      singlePassChunk B rnd db H n i buf = some buf' ∧ PassInv S n db (i + 1) p' buf' ∧
        ∀ j < i + 1, p' j = chunkPerm rnd hH32 j := by
  obtain ⟨p', buf', hchunk, hinv'⟩ := singlePassChunk_spec B rnd hH hfit hdb hi hinv
  refine ⟨p', buf', hchunk, hinv', ?_⟩
  have hperm : permute (fun k => rnd (i * (H - 1) + k)) H = some (permArray (chunkPerm rnd hH32 i)) :=
    permute_eq_shuffle _ hH hH32
  obtain ⟨perms, hst, -, hslices⟩ := storeAt_block (v := permArray (chunkPerm rnd hH32 i))
    hinv.permutations_length hi (length_permArray _)
  -- the array of the next state is the one that has been stored
  have hstored : buf'.permutations = perms := by
    simp only [singlePassChunk, hperm, hst, Option.bind_eq_bind, Option.bind_some,
      Option.bind_eq_some_iff] at hchunk
    obtain ⟨_, -, _, -, _, -, _, -, hbuf⟩ := hchunk
    rw [← Option.some.inj hbuf]
  intro j hj
  have hnew := hinv'.permutations j hj
  rw [hstored, hslices j (by omega)] at hnew
  by_cases hji : j = i
  · rw [if_pos hji, Option.some.injEq] at hnew
    rw [← permArray_inj hnew, hji]
  · have hlt : j < i := by omega
    rw [if_neg hji, hinv.permutations j hlt, Option.some.injEq] at hnew
    rw [← permArray_inj hnew, hp j hlt]

/-- The whole pass. -/
theorem singlePassAnswer_words (B : Build) (rnd : ℕ → UInt32) {db : List UInt8} (hS : 0 < S)
    (hH : 0 < H) (hn : 0 < n) (hfit : KernelFits S H n) (hH32 : H < 2 ^ 32)
    (hdb : db.length = S * H * n) :
    ∃ (p : ℕ → Equiv.Perm (Fin H)) (buf : HintBuffers),
      singlePassAnswer B rnd db (S * H) S n
        ⟨List.replicate (H * n) 0, List.replicate (S * H) 0, List.replicate (S * H) 0⟩ =
          some buf ∧ PassInv S n db S p buf ∧ ∀ j < S, p j = chunkPerm rnd hH32 j := by
  have hSH : 0 < S * H := Nat.mul_pos hS hH
  have hHn : 0 < H * n := Nat.mul_pos hH hn
  have hne : db ≠ [] := List.ne_nil_of_length_pos (hdb ▸ Nat.mul_pos hSH hn)
  have hstart : PassInv S n db 0 (fun _ => (1 : Equiv.Perm (Fin H)))
      ⟨List.replicate (H * n) 0, List.replicate (S * H) 0, List.replicate (S * H) 0⟩ := by
    refine ⟨by simp, by simp, by simp, by simp, by simp, ?_⟩
    intro h
    rw [Finset.range_zero, Finset.sum_empty, rowAt_replicate_zero]
  obtain ⟨buf, hloop, p, hinv, hp⟩ := loop_spec (f := singlePassChunk B rnd db H n) (n := S)
    (fun i buf => ∃ p : ℕ → Equiv.Perm (Fin H), PassInv S n db i p buf ∧
      ∀ j < i, p j = chunkPerm rnd hH32 j)
    ⟨_, hstart, fun j hj => absurd hj (Nat.not_lt_zero j)⟩ (by
      rintro i hi buf ⟨p, hinv, hp⟩
      obtain ⟨p', buf', hchunk, hinv', hp'⟩ :=
        singlePassChunk_words B rnd hH hfit hH32 hdb hi hinv hp
      exact ⟨buf', hchunk, p', hinv', hp'⟩)
  refine ⟨p, buf, ?_, hinv, hp⟩
  rw [singlePassAnswer, if_neg (by simp [hne]; omega), cUint_eq hfit.rows_lt,
    cUint_eq (hfit.setSize_lt.trans (by decide)), cUint_eq (hfit.rowLen_lt hH), answerSinglePass,
    if_neg (by omega), intLoop_eq hfit.setSize_lt, Nat.mul_div_cancel_left _ hS]
  exact hloop

/-- **The client of a tape** has the permutations that are drawn from it. -/
theorem hint_words (B : Build) (rnd : ℕ → UInt32) {db : StaticDB} (hS : 0 < S) (hH : 0 < H)
    (hn : 0 < n) (hfit : KernelFits S H n) (hH32 : H < 2 ^ 32) (hwf : db.WF n)
    (hrows : db.numRows = S * H) :
    ∃ (resp : SinglePassHintResp) (f : Fin H → Bytes n),
      SinglePassHintReq.process B rnd ⟨S⟩ db = some resp ∧ resp.initClient =
        some ((familyTable (fun j : Fin S => drawnFamily rnd hH32 j) f).client db.version) := by
  obtain ⟨resp, t, hproc, hinit, hchunks, -⟩ := hint_spec B rnd ⟨S⟩ hS hH hn hfit hwf hrows
    (if_pos hS.ne')
  obtain ⟨p, buf, hpass, hinv, hp⟩ := singlePassAnswer_words B rnd hS hH hn hfit hH32
    (hwf.length_eq.trans (by rw [hrows]))
  refine ⟨resp, t.hint, hproc, ?_⟩
  -- the arrays of the response are those of the pass
  have hperms : resp.permutations = buf.permutations ∧ resp.nHints = H ∧
      resp.inversePermutations = buf.inversePermutations ∧ resp.setSize = S := by
    have hdiv : S * H / S = H := Nat.mul_div_cancel_left H hS
    simp only [SinglePassHintReq.process, hS.ne', ne_eq, not_false_eq_true, if_true, if_false,
      hwf.rowLen_eq, hrows, hdiv, hpass, Option.bind_eq_bind, Option.bind_some,
      Option.bind_eq_some_iff] at hproc
    obtain ⟨_, -, hresp⟩ := hproc
    rw [← Option.some.inj hresp]
    exact ⟨rfl, rfl, rfl, rfl⟩
  obtain ⟨hperms, hnHints, hinvs, hsetSize⟩ := hperms
  have hloop := initStateLoop_spec hH hinv.permutations_length hinv.permutations
    hinv.inversePermutations buf.permutations.length 0 (Nat.zero_le S)
    (by rw [hinv.permutations_length]; exact Nat.le_mul_of_pos_right S hH)
  have hempty : ∀ f : ℕ → List ℕ, (List.range S).map (fun j => if j < 0 then f j else []) =
      List.replicate S [] := by
    intro f
    simp
  rw [hempty, hempty, Nat.zero_mul] at hloop
  have hclient := hinit
  simp only [SinglePassHintResp.initClient, SinglePassClient.initState, hperms, hnHints, hinvs,
    hsetSize, hloop, Option.bind_eq_bind, Option.bind_some, Option.some.injEq] at hclient
  have hidx := congrArg SinglePassClient.idxToSetIdx hclient
  rw [hinit]
  refine congrArg some (HintTable.client_congr hchunks ?_ fun _ => rfl)
  intro j hj
  have hjS : j < S := hchunks ▸ hj
  have hcell := congrArg (fun l : List (List ℕ) => l[j]?) hidx
  have hleft : ((List.range S).map fun j => permArray (p j))[j]? = some (permArray (p j)) :=
    getElem?_map_range _ hjS
  simp only [hleft, HintTable.getElem?_idxToSetIdx hj, Option.some.injEq] at hcell
  rw [← permArray_inj hcell, hp j hjS]
  exact (familyTable_perm (fun j : Fin S => drawnFamily rnd hH32 j) t.hint ⟨j, hjS⟩).symm

/-! ## Views -/

/-- What the online server receives in a run of reads by the client of a tape. -/
def drawnView (B : Build) (db : StaticDB) (setSize : ℕ) (rnd : ℕ → UInt32) (x : Fin T → ℤ)
    (swaps : Fin T → Fin S → Fin H) : Option (List (List ℕ)) := do
  let resp ← SinglePassHintReq.process B rnd ⟨setSize⟩ db
  let c ← resp.initClient
  rightView B db c x swaps

/-- Two sequences of reads show every view for the same number of permutations and swaps. -/
theorem card_views_eq (a b : Fin T → Fin S × Fin H) (view : Fin T → Fin S → Fin H) :
    Nat.card {s : (Fin S → Equiv.Perm (Fin H)) × (Fin T → Fin S → Fin H) //
      views T a s.1 s.2 = view} =
    Nat.card {s : (Fin S → Equiv.Perm (Fin H)) × (Fin T → Fin S → Fin H) //
      views T b s.1 s.2 = view} := by
  obtain ⟨e, he⟩ := runEquiv T a
  obtain ⟨e', he'⟩ := runEquiv T b
  refine Nat.card_congr ((e.trans e'.symm).subtypeEquiv ?_)
  intro s
  have hviews := he' (e'.symm (e s)).1 (e'.symm (e s)).2
  rw [Prod.mk.eta, Equiv.apply_symm_apply, he s.1 s.2] at hviews
  rw [hviews]
  rfl

/-- **The online server learns nearly nothing about the indices**, counted in the words that the
generator returns and the swaps of the client: for every view, the counts of two sequences of
indices have at most the ratio of the tapes that permutations can have. -/
theorem drawnView_nearly_independent (B : Build) (db : StaticDB) (hS : 0 < S) (hH : 0 < H)
    (hn : 0 < n) (hfit : KernelFits S H n) (hwf : db.WF n) (hrows : db.numRows = S * H)
    (x y : Fin T → ℤ) (view : List (List ℕ)) :
    fewestTapes H ^ S * Nat.card {s : (Fin (S * (H - 1)) → UInt32) × (Fin T → Fin S → Fin H) //
        drawnView B db S (tapeWords s.1) x s.2 = some view} ≤
      mostTapes H ^ S * Nat.card {s : (Fin (S * (H - 1)) → UInt32) × (Fin T → Fin S → Fin H) //
        drawnView B db S (tapeWords s.1) y s.2 = some view} := by
  have hH32 : H < 2 ^ 32 := hfit.nHints_lt.trans (by decide)
  have hruns : ReadRuns S n :=
    ⟨hn, by rw [cUint_eq (hfit.setSize_lt.trans (by decide))]; exact hfit.setSize_lt⟩
  choose a ha using fun k => exists_column_family hS hH (x k)
  choose b hb using fun k => exists_column_family hS hH (y k)
  let positions : (Fin T → Fin S → Fin H) → List (List ℕ) := fun w =>
    List.ofFn fun k => List.ofFn fun j : Fin S => (w k j : ℕ)
  have hview : ∀ (z : Fin T → ℤ) (c : Fin T → Fin S × Fin H),
      (∀ k, z k % ((S * H : ℕ) : ℤ) = (((c k).1 * H + (c k).2 : ℕ) : ℤ)) →
      ∀ (s : (Fin (S * (H - 1)) → UInt32) × (Fin T → Fin S → Fin H)),
        drawnView B db S (tapeWords s.1) z s.2 = some view ↔
          positions (views T c (fun j => drawnFamily (tapeWords s.1) hH32 j) s.2) = view := by
    intro z c hz s
    obtain ⟨resp, f, hproc, hinit⟩ := hint_words B (tapeWords s.1) hS hH hn hfit hH32 hwf hrows
    rw [drawnView, hproc, Option.bind_eq_bind, Option.bind_some, hinit, Option.bind_eq_bind,
      Option.bind_some, rightView_eq B hwf hrows hruns z c hz, Option.some.injEq]
  rw [Nat.card_congr (Equiv.subtypeEquivRight (hview x a ha)),
    Nat.card_congr (Equiv.subtypeEquivRight (hview y b hb))]
  refine (drawnFamily_nearUniform S hH32).card_le_card
    (P := fun p swaps => positions (views T a p swaps) = view)
    (Q := fun p swaps => positions (views T b p swaps) = view) ?_
  by_cases hex : ∃ w, positions w = view
  · obtain ⟨w, rfl⟩ := hex
    have hinj : ∀ v : Fin T → Fin S → Fin H, positions v = positions w ↔ v = w := by
      intro v
      refine ⟨fun h => ?_, fun h => congrArg positions h⟩
      funext k j
      exact Fin.ext (congrFun (List.ofFn_injective (congrFun (List.ofFn_injective h) k)) j)
    simp only [hinj]
    exact card_views_eq a b w
  · have hnone : ∀ w, positions w = view ↔ False := fun w => iff_false_intro fun h => hex ⟨w, h⟩
    simp only [hnone]

/-- Two reads of a database of two chunks of three rows. -/
theorem drawnView_nearly_independent_two_by_three :
    fewestTapes 3 ^ 2 * Nat.card {s : (Fin 4 → UInt32) × (Fin 2 → Fin 2 → Fin 3) //
        drawnView .avx2 ⟨6, 1, 0, [1, 2, 3, 4, 5, 6]⟩ 2 (tapeWords s.1) ![0, 5] s.2 =
          some [[0, 1], [2, 1]]} ≤
      mostTapes 3 ^ 2 * Nat.card {s : (Fin 4 → UInt32) × (Fin 2 → Fin 2 → Fin 3) //
        drawnView .avx2 ⟨6, 1, 0, [1, 2, 3, 4, 5, 6]⟩ 2 (tapeWords s.1) ![4, 4] s.2 =
          some [[0, 1], [2, 1]]} :=
  drawnView_nearly_independent (S := 2) (H := 3) (n := 1) .avx2 _ (by decide) (by decide) (by decide)
    ⟨by decide, by decide, by decide, by decide⟩ ⟨rfl, rfl⟩ rfl ![0, 5] ![4, 4] [[0, 1], [2, 1]]

end SinglePassPIR.Pir
