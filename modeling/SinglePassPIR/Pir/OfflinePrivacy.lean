import SinglePassPIR.Pir.OnlinePrivacy

/-!
# What the offline server sees

The offline server drew the permutations, and it receives for each chunk the row at a
random position. Each swap of the client moves that row through one permutation that the
server knows up to the earlier swaps, so the swaps of a run and the rows asked for
determine each other, whatever the indices.

## Main results

* `offlineRunEquiv` — the bijection between the swaps of a run and its views.
* `offlineServer_view_bijective` — every view of the offline server comes from one tape.
-/

namespace SinglePassPIR.Pir
open Psetggm

/-! ## The bijection -/

section Families
variable {ι κ : Type} [DecidableEq κ]

/-- The rows that a run of reads of the columns `a` asks the offline server for. -/
def offlineViews : (T : ℕ) → (Fin T → ι × κ) → (ι → Equiv.Perm κ) → (Fin T → ι → κ) →
    Fin T → ι → κ
  | 0, _, _, _ => Fin.elim0
  | T + 1, a, p, r => Fin.cons (fun j => p j (r 0 j))
      (offlineViews T (Fin.tail a) (refreshFamily (a 0) p (r 0)) (Fin.tail r))

/-- **A run of reads.** For fixed permutations the swaps and the views determine each
other. -/
theorem offlineRunEquiv (T : ℕ) (a : Fin T → ι × κ) (p : ι → Equiv.Perm κ) :
    ∃ e : (Fin T → ι → κ) ≃ (Fin T → ι → κ), ∀ r, e r = offlineViews T a p r := by
  induction T generalizing p with
  | zero => exact ⟨Equiv.refl _, fun r => Subsingleton.elim _ _⟩
  | succ T ih =>
      -- the swaps of the first read fix the permutations of the others
      choose e he using fun r : ι → κ => ih (Fin.tail a) (refreshFamily (a 0) p r)
      let split := Fin.consEquiv fun _ : Fin (T + 1) => ι → κ
      refine ⟨split.symm.trans <| (Equiv.prodShear (Equiv.piCongrRight p) e).trans split, ?_⟩
      intro r
      exact congrArg (fun s : Fin T → ι → κ =>
        (Fin.cons (fun j => p j (r 0 j)) s : Fin (T + 1) → ι → κ)) (he (r 0) (Fin.tail r))

end Families

/-! ## Runs of reads -/

section View
variable {S H n : ℕ} {p : Fin S → Equiv.Perm (Fin H)} {f : Fin H → Bytes n} {v : ℕ}

/-- One completed read, with what the offline server receives as its output. -/
def offlineStep (B : Build) (db : StaticDB) (c : SinglePassClient) (a : ℤ × (ℕ → ℕ)) :
    Option (List ℕ × SinglePassClient) := do
  let q ← c.query a.1 a.2
  let (_, c) ← c.read B db a.1 a.2
  some (q.left.prSet, c)

/-- What the offline server receives in a run of completed reads of the indices `x` with the
swaps `tape`. -/
def leftView (B : Build) (db : StaticDB) (c : SinglePassClient) {T : ℕ} (x : Fin T → ℤ)
    (tape : Fin T → Fin S → Fin H) : Option (List (List ℕ)) :=
  (runActions (offlineStep B db) c (List.ofFn fun k => (x k, drawn (tape k)))).map Prod.fst

/-- A view as the lists that the server receives. -/
def viewLists {T : ℕ} (view : Fin T → Fin S → Fin H) : List (List ℕ) :=
  List.ofFn fun k => List.ofFn fun j => (view k j : ℕ)

theorem viewLists_succ {T : ℕ} (view : Fin (T + 1) → Fin S → Fin H) :
    viewLists view = (List.ofFn fun j => (view 0 j : ℕ)) :: viewLists (Fin.tail view) :=
  List.ofFn_succ

theorem viewLists_injective {T : ℕ} :
    Function.Injective (viewLists : (Fin T → Fin S → Fin H) → List (List ℕ)) := by
  intro s s' h
  funext k j
  have hk := congrFun (List.ofFn_injective h) k
  exact Fin.ext (congrFun (List.ofFn_injective hk) j)

theorem leftView_eq (B : Build) {db : StaticDB} (hwf : db.WF n) (hrows : db.numRows = S * H)
    (hruns : ReadRuns S n) {T : ℕ} (x : Fin T → ℤ) (a : Fin T → Fin S × Fin H)
    (ha : ∀ k, x k % ((S * H : ℕ) : ℤ) = (((a k).1 * H + (a k).2 : ℕ) : ℤ))
    (p : Fin S → Equiv.Perm (Fin H)) (tape : Fin T → Fin S → Fin H) (f : Fin H → Bytes n) :
    leftView B db ((familyTable p f).client v) x tape =
      some (viewLists (offlineViews T a p tape)) := by
  induction T generalizing p f with
  | zero => simp [leftView, viewLists]
  | succ T ih =>
      obtain ⟨out, f', hread⟩ := read_family (f := f) (v := v) (p := p) (r := tape 0) B hwf hrows
        hruns (ha 0)
      have hrest := ih (fun k => x k.succ) (fun k => a k.succ) (fun k => ha k.succ)
        (refreshFamily (a 0) p (tape 0)) (fun k => tape k.succ) f'
      rw [leftView, Option.map_eq_some_iff] at hrest
      obtain ⟨⟨os, c⟩, hrun, hos⟩ := hrest
      have hstep : offlineStep B db ((familyTable p f).client v) (x 0, drawn (tape 0)) =
          some (List.ofFn fun j : Fin S => (p j (tape 0 j) : ℕ),
            (familyTable (refreshFamily (a 0) p (tape 0)) f').client v) := by
        simp only [offlineStep, query_family (ha 0), hread, familyQuery, Option.bind_eq_bind,
          Option.bind_some]
      rw [leftView, List.ofFn_succ, runActions_cons, hstep, Option.bind_some, hrun,
        Option.bind_some, Option.map_some, hos, viewLists_succ]
      rfl

/-- A first read that does not complete leaves the run without a view. -/
theorem leftView_succ_eq_none (B : Build) {db : StaticDB} {c : SinglePassClient} {T : ℕ}
    (x : Fin (T + 1) → ℤ) (tape : Fin (T + 1) → Fin S → Fin H)
    (hread : c.read B db (x 0) (drawn (tape 0)) = none) : leftView B db c x tape = none := by
  have hstep : offlineStep B db c (x 0, drawn (tape 0)) = none := by
    simp only [offlineStep, hread, Option.bind_eq_bind, Option.bind_none, Option.bind_fun_none]
  rw [leftView, List.ofFn_succ, runActions_cons, hstep, Option.bind_none, Option.map_none]

/-- A client with no chunks answers no query. -/
theorem query_family_of_no_chunks (hS : S = 0) (i : ℤ) (swaps : ℕ → ℕ) :
    ((familyTable p f).client v).query i swaps = none := by
  subst hS
  have hrows : ((familyTable p f).client v).nRows = 0 := Nat.zero_mul H
  rw [SinglePassClient.query]
  split
  · rfl
  · simp [hrows, mathMod]

/-- **The offline server learns nothing about the indices.** In a run of completed reads the
swaps of the client and the rows that the offline server is asked for are in bijection, for
every family of permutations the server has drawn: every view comes from exactly one tape. -/
theorem offlineServer_view_bijective (B : Build) (db : StaticDB) (hwf : db.WF n)
    (hrows : db.numRows = S * H) (p : Fin S → Equiv.Perm (Fin H)) (f : Fin H → Bytes n)
    (v T : ℕ) (x : Fin T → ℤ)
    (hcompleted : ∃ tape : Fin T → Fin S → Fin H,
      (leftView B db ((familyTable p f).client v) x tape).isSome) :
    (∃ e : (Fin T → Fin S → Fin H) ≃ (Fin T → Fin S → Fin H), ∀ tape,
      leftView B db ((familyTable p f).client v) x tape = some (viewLists (e tape))) ∧
    ∀ view : Fin T → Fin S → Fin H, ∃! tape : Fin T → Fin S → Fin H,
      leftView B db ((familyTable p f).client v) x tape = some (viewLists view) := by
  have hbij : ∃ e : (Fin T → Fin S → Fin H) ≃ (Fin T → Fin S → Fin H), ∀ tape,
      leftView B db ((familyTable p f).client v) x tape = some (viewLists (e tape)) := by
    cases T with
    | zero =>
        refine ⟨Equiv.refl _, ?_⟩
        intro tape
        simp [leftView, viewLists]
    | succ T =>
        obtain ⟨tape₀, hsome⟩ := hcompleted
        have hS : 0 < S := by
          by_contra h
          rw [leftView_succ_eq_none B x tape₀ (by
            rw [SinglePassClient.read, query_family_of_no_chunks (by omega)]
            rfl)] at hsome
          exact absurd hsome (by simp)
        have hH : 0 < H := (tape₀ 0 ⟨0, hS⟩).pos
        choose a ha using fun k => exists_column_family hS hH (x k)
        have hruns : ReadRuns S n := by
          by_contra h
          rw [leftView_succ_eq_none B x tape₀ (read_family_eq_none B h (ha 0))] at hsome
          exact absurd hsome (by simp)
        obtain ⟨e, he⟩ := offlineRunEquiv (T + 1) a p
        refine ⟨e, ?_⟩
        intro tape
        rw [leftView_eq B hwf hrows hruns x a ha, he]
  refine ⟨hbij, ?_⟩
  obtain ⟨e, he⟩ := hbij
  intro view
  refine ⟨e.symm view, ?_, ?_⟩
  · dsimp only
    rw [he, Equiv.apply_symm_apply]
  · intro tape htape
    rw [he, Option.some.injEq] at htape
    rw [Equiv.eq_symm_apply]
    exact viewLists_injective htape

/-- Two reads of a table of two chunks of two rows. -/
theorem offlineServer_view_bijective_two_by_two :
    (∃ e : (Fin 2 → Fin 2 → Fin 2) ≃ (Fin 2 → Fin 2 → Fin 2), ∀ tape,
      leftView .avx2 ⟨4, 1, 0, [1, 2, 3, 4]⟩
        ((familyTable (fun _ : Fin 2 => Equiv.swap (0 : Fin 2) 1)
          (fun _ => (0 : Bytes 1))).client 0) ![3, 3] tape = some (viewLists (e tape))) ∧
    ∀ view : Fin 2 → Fin 2 → Fin 2, ∃! tape : Fin 2 → Fin 2 → Fin 2,
      leftView .avx2 ⟨4, 1, 0, [1, 2, 3, 4]⟩
        ((familyTable (fun _ : Fin 2 => Equiv.swap (0 : Fin 2) 1)
          (fun _ => (0 : Bytes 1))).client 0) ![3, 3] tape = some (viewLists view) :=
  offlineServer_view_bijective (S := 2) (H := 2) (n := 1) .avx2 ⟨4, 1, 0, [1, 2, 3, 4]⟩
    ⟨rfl, rfl⟩ rfl (fun _ => Equiv.swap 0 1) (fun _ => 0) 0 2 ![3, 3]
    ⟨fun _ _ => 0, by decide +kernel⟩

end View

end SinglePassPIR.Pir
