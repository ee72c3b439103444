import SinglePassPIR.Lib.Run
import SinglePassPIR.Pir.SinglePassRefine

/-!
# Runs of the SinglePass client against a static database

A run starts with the preprocessing and continues with reads. Each read is completed with
both servers' answers or abandoned after `Query`, and the environment chooses the index
and the swaps of each of them.

## Main results

* `singlePass_correct` — every completed read of every run returns the row that it asked
  for, and the hint invariant holds after every step.
-/

namespace SinglePassPIR.Pir
open Psetggm

variable {H n : ℕ}

/-- The arrays of the client hold a permutation of the columns with its inverse for each of
the `S` chunks, and hint `h` is the XOR over the chunks `j` of the row `j * H + perm j h`. -/
def SinglePassClient.HintInvariant (S H n : ℕ) (db : StaticDB) (c : SinglePassClient) : Prop :=
  ∃ (t : HintTable (Fin H) (Bytes n)) (v : ℕ),
    c = t.client v ∧ t.chunks = S ∧ t.Matches (db.chunkRow H n)

/-- What the user of a client does, with the swaps that the client draws. -/
inductive ReadAction (H : ℕ)
  | complete (i : ℤ) (swaps : ℕ → Fin H)
  | abandon (i : ℤ) (swaps : ℕ → Fin H)

/-- One step of a run: the output of a read that is completed, and the client after it. -/
def SinglePassClient.step (B : Build) (db : StaticDB) (c : SinglePassClient) :
    ReadAction H → Option (Option (Except String (List UInt8)) × SinglePassClient)
  | .complete i swaps => do
      let (out, c) ← c.read B db i fun j => swaps j
      some (some out, c)
  | .abandon i swaps => do
      let _ ← c.query i fun j => swaps j
      some (none, c)

/-- The output of a step: a completed read of `i` returns row `i mod N`. -/
def ReadAction.Returns (db : StaticDB) :
    ReadAction H → Option (Except String (List UInt8)) → Prop
  | .complete i _, out => ∃ row, db.row (i % (db.numRows : ℤ)).toNat = some row ∧
      out = some (.ok row)
  | .abandon _ _, out => out = none

variable {t : HintTable (Fin H) (Bytes n)} {v : ℕ}

/-- A read against a table that the client's hints match returns the row it asked for and
leaves a client whose hints match. -/
theorem HintTable.read_spec (B : Build) {db : StaticDB} (i : ℤ) (r : ℕ → Fin H) (hn : 0 < n)
    (h32 : n < 2 ^ 32) (hS : 0 < t.chunks) (h31 : t.chunks < 2 ^ 31) (hwf : db.WF n)
    (hwidth : db.numRows / t.chunks = H) (hm : t.Matches (db.chunkRow H n)) :
    ∃ t' : HintTable (Fin H) (Bytes n),
      (t.client v).read B db i (fun j => r j) =
        some (.ok (db.get n (i % ((t.chunks * H : ℕ) : ℤ)).toNat).toList, t'.client v) ∧
      t'.chunks = t.chunks ∧ t'.Matches (db.chunkRow H n) := by
  have hH : 0 < H := (r 0).pos
  obtain ⟨j₀, hj₀, x, hi⟩ := exists_column (t := t) i hH hS
  obtain ⟨a₀, a₁, ha, hread⟩ := read_client (v := v) B r hn h32 h31 hwf hwidth hj₀ hi
  have hout := recovered_eq hm ha hj₀
  rw [Equiv.apply_symm_apply] at hout
  refine ⟨t.refresh j₀ ((t.perm j₀).symm x) r a₀ a₁, ?_, rfl, refresh_matches hm ha hj₀⟩
  rw [hread, hout, hi, Int.toNat_natCast, StaticDB.chunkRow]

/-- One step of a run keeps the hint invariant. -/
theorem SinglePassClient.step_spec (B : Build) {db : StaticDB} {S : ℕ} (hS : 0 < S)
    (hn : 0 < n) (hfit : KernelFits S H n) (hwf : db.WF n) (hrows : db.numRows = S * H)
    (c : SinglePassClient) (a : ReadAction H) (hinv : c.HintInvariant S H n db) :
    ∃ out c', c.step B db a = some (out, c') ∧
      (a.Returns db out ∧ c'.HintInvariant S H n db) ∧ c'.HintInvariant S H n db := by
  obtain ⟨t, v, rfl, rfl, hm⟩ := hinv
  cases a with
  | complete i swaps =>
      have hH : 0 < H := (swaps 0).pos
      have hwidth : db.numRows / t.chunks = H := by
        rw [hrows, Nat.mul_div_cancel_left H hS]
      have hidx : (i % (db.numRows : ℤ)).toNat < db.numRows := by
        have hpos : (0 : ℤ) < db.numRows := by
          rw [hrows]; exact_mod_cast Nat.mul_pos hS hH
        have := Int.emod_lt_of_pos i hpos
        have := Int.emod_nonneg i hpos.ne'
        omega
      obtain ⟨t', hread, hc, hm'⟩ := HintTable.read_spec (v := v) B i swaps hn
        (hfit.rowLen_lt hH) hS hfit.setSize_lt hwf hwidth hm
      have hinv' : (t'.client v).HintInvariant t.chunks H n db :=
        ⟨t', v, rfl, hc, hm'⟩
      refine ⟨_, _, ?_, ⟨⟨_, StaticDB.row_eq hwf hidx, rfl⟩, hinv'⟩, hinv'⟩
      simp only [SinglePassClient.step, hread, hrows, Option.bind_eq_bind, Option.bind_some]
  | abandon i swaps =>
      have hH : 0 < H := (swaps 0).pos
      obtain ⟨j₀, hj₀, x, hi⟩ := HintTable.exists_column (t := t) i hH hS
      have hinv' : (t.client v).HintInvariant t.chunks H n db :=
        ⟨t, v, rfl, rfl, hm⟩
      refine ⟨none, t.client v, ?_, ⟨rfl, hinv'⟩, hinv'⟩
      simp only [SinglePassClient.step, HintTable.query_client swaps hj₀ hi, Option.bind_eq_bind,
        Option.bind_some]

/-- The preprocessing succeeds, and along every run from its client every completed read
returns the row it asked for and the hint invariant holds after every step. -/
def RunsCorrectly (B : Build) (rnd : ℕ → UInt32) (S H n : ℕ) (db : StaticDB) : Prop :=
  ∃ resp c, SinglePassHintReq.process B rnd ⟨S⟩ db = some resp ∧ resp.initClient = some c ∧
    c.HintInvariant S H n db ∧ ∀ as : List (ReadAction H),
      AlwaysUnder (SinglePassClient.step B db) (fun _ _ => True)
        (fun _ a out c' => a.Returns db out ∧ c'.HintInvariant S H n db) c as

/-- **SinglePass is correct over whole runs**, for every database whose sizes the kernels can
represent, every outcome of the server's generator, and every sequence of completed and
abandoned reads. -/
theorem singlePass_correct (B : Build) (rnd : ℕ → UInt32) {S : ℕ} {db : StaticDB} (hS : 0 < S)
    (hH : 0 < H) (hn : 0 < n) (hfit : KernelFits S H n) (hwf : db.WF n)
    (hrows : db.numRows = S * H) : RunsCorrectly B rnd S H n db := by
  obtain ⟨resp, t, hproc, hinit, hc, hm⟩ := hint_spec B rnd ⟨S⟩ hS hH hn hfit hwf hrows
    (if_pos hS.ne')
  have hinv : (t.client db.version).HintInvariant S H n db := ⟨t, db.version, rfl, hc, hm⟩
  refine ⟨resp, t.client db.version, hproc, hinit, hinv, ?_⟩
  intro as
  refine alwaysUnder_of_invariant (fun c => c.HintInvariant S H n db) ?_ as _ hinv
  intro c a hc _
  exact SinglePassClient.step_spec B hS hn hfit hwf hrows c a hc

/-- Two chunks of two one-byte rows. -/
theorem singlePass_correct_two_by_two :
    RunsCorrectly .avx2 (fun _ => 0) 2 2 1 ⟨4, 1, 0, [1, 2, 3, 4]⟩ :=
  singlePass_correct .avx2 (fun _ => 0) (by decide) (by decide) (by decide)
    ⟨by decide, by decide, by decide, by decide⟩ ⟨rfl, rfl⟩ rfl

/-- A set size that is a multiple of `2 ^ 32` reaches the kernel as zero, which divides by it. -/
theorem process_eq_none_of_mod (B : Build) (rnd : ℕ → UInt32) {S : ℕ} (db : StaticDB)
    (hpos : 0 < S) (hS : S % 2 ^ 32 = 0) : SinglePassHintReq.process B rnd ⟨S⟩ db = none := by
  have hkernel : ∀ N n flat buf, singlePassAnswer B rnd flat N S n buf = none := by
    intro N n flat buf
    simp only [singlePassAnswer, cUint, hS, answerSinglePass, if_true, ite_self]
  simp only [SinglePassHintReq.process, if_pos hpos.ne', hkernel, Option.bind_eq_bind,
    Option.bind_none, ite_self]

/-- The preprocessing faults on `2 ^ 32` chunks of one one-byte row. -/
theorem singlePass_faults_at_two_pow_32 :
    let db : StaticDB := ⟨2 ^ 32, 1, 0, List.replicate (2 ^ 32) 0⟩
    db.WF 1 ∧ db.numRows = 2 ^ 32 * 1 ∧ ¬RunsCorrectly .avx2 (fun _ => 0) (2 ^ 32) 1 1 db := by
  refine ⟨⟨rfl, ?_⟩, (Nat.mul_one _).symm, ?_⟩
  · rw [List.length_replicate, Nat.mul_one]
  · rintro ⟨resp, c, hproc, -⟩
    rw [process_eq_none_of_mod _ _ _ (Nat.two_pow_pos 32) (Nat.mod_self _)] at hproc
    exact Option.some_ne_none _ hproc.symm

end SinglePassPIR.Pir
