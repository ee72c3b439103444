import SinglePassPIR.Lib.NearUniform
import SinglePassPIR.Pir.Matrix
import Mathlib.Logic.Equiv.Fin.Basic

/-!
# What the servers of matrix PIR see

`matrixClient` takes one word of its source of randomness for each row of the matrix, in every query
and every dummy query, one after the other. The vectors that one server receives are then
uniform: every sequence of vectors comes from the same number of tapes of words, whatever the indices
are, and so each server alone learns nothing about them.

## Main results

* `serverView_eq` — the vectors of a server, from the words.
* `matrix_views_uniform` — the tapes of what one server sees.
-/

namespace SinglePassPIR.Pir

/-- `Left` and `Right` -/
inductive ServerSide
  | left
  | right
  deriving DecidableEq, Repr

/-- The vector that a server receives. -/
def ServerSide.vector : ServerSide → MatrixQueryReq × MatrixQueryReq → List Bool
  | .left, reqs => reqs.1.bitVector
  | .right, reqs => reqs.2.bitVector

/-- One coin from a word. -/
def coinOf (word : UInt64) : Bool := decide (word &&& 1 = 0)

/-- The words of a tape, and zeros behind it. -/
def tapeCoins {m : ℕ} (tape : Fin m → UInt64) (k : ℕ) : UInt64 :=
  if h : k < m then tape ⟨k, h⟩ else 0

namespace MatrixClient
variable {c : MatrixClient} {T : ℕ}

/-- `matrixClient.DummyQuery` -/
def dummyQuery (c : MatrixClient) (coins : ℕ → UInt64) : MatrixQueryReq × MatrixQueryReq :=
  let q := c.query coins 0
  (q.1, q.2.1)

/-- The requests of a read of a row, or of a dummy read. -/
def requests (c : MatrixClient) (coins : ℕ → UInt64) : Option ℕ → MatrixQueryReq × MatrixQueryReq
  | some idx => ((c.query coins idx).1, (c.query coins idx).2.1)
  | none => c.dummyQuery coins

/-- What one of the servers receives in a run of reads and dummy reads, each with the next words of
the source. -/
def serverView (c : MatrixClient) (server : ServerSide) :
    List (Option ℕ) → (ℕ → UInt64) → List (List Bool)
  | [], _ => []
  | read :: reads, coins =>
      server.vector (c.requests coins read) :: c.serverView server reads fun k => coins (c.height + k)

/-- Whether a server gets the complement of the coin of a matrix row. -/
def flips (c : MatrixClient) (server : ServerSide) (read : Option ℕ) (row : ℕ) : Bool :=
  match server with
  | .left => false
  | .right => decide (row = read.getD 0 / c.width)

/-- The vectors of a run. -/
def vectors {h : ℕ} (view : Fin T → Fin h → Bool) : List (List Bool) :=
  List.ofFn fun k => List.ofFn (view k)

theorem vectors_inj {h : ℕ} {v w : Fin T → Fin h → Bool} : vectors v = vectors w ↔ v = w := by
  refine ⟨fun heq => ?_, fun heq => congrArg vectors heq⟩
  exact funext fun k => List.ofFn_injective (congrFun (List.ofFn_injective heq) k)

/-- The vector of one read. -/
theorem vector_requests (server : ServerSide) (coins : ℕ → UInt64) (read : Option ℕ) :
    server.vector (c.requests coins read) =
      List.ofFn fun i : Fin c.height => coinOf (coins i) != c.flips server read i := by
  have hofFn : ∀ g : ℕ → Bool, (List.range c.height).map g =
      List.ofFn fun i : Fin c.height => g i := by
    intro g
    exact List.ext_getElem (by simp) (by simp)
  cases server <;> cases read <;>
    simp [ServerSide.vector, requests, dummyQuery, query, coinOf, flips, hofFn]

/-- **The vectors of a server** are the coins, some of them complemented. -/
theorem serverView_eq (server : ServerSide) (reads : Fin T → Option ℕ) (coins : ℕ → UInt64) :
    c.serverView server (List.ofFn reads) coins =
      vectors fun (k : Fin T) (i : Fin c.height) =>
        coinOf (coins (k * c.height + i)) != c.flips server (reads k) i := by
  induction T generalizing coins with
  | zero =>
      rw [List.ofFn_zero]
      rfl
  | succ T ih =>
      have hrest := ih (fun k => reads k.succ) fun k => coins (c.height + k)
      have hshift : ∀ (k : Fin T) (i : Fin c.height),
          c.height + ((k : ℕ) * c.height + i) = (k.succ : ℕ) * c.height + i := by
        intro k i
        rw [Fin.val_succ, Nat.succ_mul]
        omega
      simp only [hshift] at hrest
      rw [List.ofFn_succ, serverView, vectors, List.ofFn_succ]
      refine congrArg₂ List.cons ?_ hrest
      rw [vector_requests]
      simp

/-! ## Counting -/

theorem coinOf_eq_iff (word : UInt64) (b : Bool) : coinOf word = b ↔ word.toNat % 2 = (!b).toNat := by
  have hbit : (word &&& 1).toNat = word.toNat % 2 := by
    rw [UInt64.toNat_and]
    exact Nat.and_one_is_mod _
  have hzero : word &&& 1 = 0 ↔ word.toNat % 2 = 0 := by
    rw [← UInt64.toNat_inj, hbit]
    rfl
  rw [coinOf]
  cases b with
  | true => simpa using hzero
  | false => simpa using (not_congr hzero)

/-- A coin is even. -/
theorem coinOf_nearUniform : NearUniform coinOf (2 ^ 63) (2 ^ 63) := by
  intro b
  have hbit := Bool.toNat_le (!b)
  have hcard : Nat.card {word : UInt64 // coinOf word = b} = Nat.card (Fin (2 ^ 63)) := by
    have htoNat : ∀ i : Fin (2 ^ 63), (UInt64.ofNat (2 * i + (!b).toNat)).toNat =
        2 * i + (!b).toNat := by
      intro i
      rw [UInt64.toNat_ofNat', Nat.mod_eq_of_lt (by omega)]
    refine Nat.card_congr
      { toFun := fun w => ⟨w.1.toNat / 2, by have := w.1.toNat_lt; omega⟩
        invFun := fun i => ⟨UInt64.ofNat (2 * i + (!b).toNat), ?_⟩
        left_inv := ?_
        right_inv := ?_ }
    · rw [coinOf_eq_iff, htoNat]
      omega
    · intro w
      have hmod := (coinOf_eq_iff w.1 b).mp w.2
      refine Subtype.ext (UInt64.toNat_inj.mp ?_)
      rw [htoNat ⟨w.1.toNat / 2, by have := w.1.toNat_lt; omega⟩]
      simp only
      omega
    · intro i
      refine Fin.ext ?_
      simp only [htoNat]
      omega
  rw [hcard, Nat.card_eq_fintype_card, Fintype.card_fin]
  exact ⟨le_rfl, le_rfl⟩

/-- **One server of matrix PIR learns nothing about the indices**: every sequence of vectors that it
can receive comes from the same number of tapes, whatever rows are read and wherever dummy reads are
made between them. -/
theorem matrix_views_uniform (c : MatrixClient) (server : ServerSide) (reads : Fin T → Option ℕ)
    (view : Fin T → Fin c.height → Bool) :
    Nat.card {tape : Fin (T * c.height) → UInt64 //
      c.serverView server (List.ofFn reads) (tapeCoins tape) = vectors view} =
      (2 ^ 63) ^ (T * c.height) := by
  have hpi := NearUniform.pi fun _ : Fin (T * c.height) => coinOf_nearUniform
  simp only [Finset.prod_const, Finset.card_univ, Fintype.card_fin] at hpi
  -- the coins that give the view
  let coins : Fin (T * c.height) → Bool := fun m =>
    view (finProdFinEquiv.symm m).1 (finProdFinEquiv.symm m).2 !=
      c.flips server (reads (finProdFinEquiv.symm m).1) (finProdFinEquiv.symm m).2
  have hview : ∀ tape : Fin (T * c.height) → UInt64,
      c.serverView server (List.ofFn reads) (tapeCoins tape) = vectors view ↔
        (fun m => coinOf (tape m)) = coins := by
    intro tape
    have htape : ∀ (k : Fin T) (i : Fin c.height),
        tapeCoins tape (k * c.height + i) = tape (finProdFinEquiv (k, i)) := by
      intro k i
      have hlt := (finProdFinEquiv (k, i)).isLt
      have hval : (finProdFinEquiv (k, i) : ℕ) = k * c.height + i := by
        simp [Nat.add_comm, Nat.mul_comm]
      rw [tapeCoins, dif_pos (hval ▸ hlt)]
      exact congrArg tape (Fin.ext hval.symm)
    have hxor : ∀ a b d : Bool, (a != d) = b ↔ a = (b != d) := by decide
    rw [serverView_eq, vectors_inj, funext_iff, funext_iff]
    simp only [funext_iff, htape, hxor]
    rw [← finProdFinEquiv.forall_congr_right]
    simp only [Prod.forall, coins, Equiv.symm_apply_apply]
  rw [Nat.card_congr (Equiv.subtypeEquivRight hview)]
  exact Nat.le_antisymm (hpi coins).2 (hpi coins).1

end MatrixClient

end SinglePassPIR.Pir
