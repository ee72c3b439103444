import SinglePassPIR.Lib.Run
import SinglePassPIR.Updatable.Defrag

/-!
# The tables of an updatable server

The server keeps three views of one history of operations: the log, compacted up to its
defrag timestamp, the live map, and the table of the rows of the puts. `Logged` says what they
are in terms of the whole history, and every call keeps it.

## Main results

* `Server.addRows_logged`, `Server.deleteRows_logged` — one call.
* `server_represents` — the tables agree along every run.
-/

namespace SinglePassPIR.Updatable
open Pir KeyLog

/-! ## Calls -/

/-- A call of an updatable server, with what `sort.Slice` does to its batch. -/
inductive ServerAction
  | addRows (sortOps : List DbOp → List DbOp) (keys : List UInt32) (rows : List (List UInt8))
  | deleteRows (keys : List UInt32)

/-- One call. -/
def Server.step (s : Server) : ServerAction → Option Server
  | .addRows sortOps keys rows => s.addRows sortOps keys rows
  | .deleteRows keys => s.deleteRows keys

/-- The puts of `keys` and `rows`, in the order of the arguments. -/
def putsOf (keys : List UInt32) (rows : List (List UInt8)) : List DbOp :=
  List.zipWith (fun key data => ⟨key, false, data⟩) keys rows

/-- The operations that a call appends to the history. -/
def ServerAction.ops : ServerAction → List DbOp
  | .addRows sortOps keys rows => sortOps (putsOf keys rows)
  | .deleteRows keys => keys.map fun key => ⟨key, true, []⟩

/-- As many rows as keys, of `n` bytes, and a sort that returns a sorted permutation. -/
def ServerAction.Valid (n : ℕ) : ServerAction → Prop
  | .addRows sortOps keys rows => keys.length = rows.length ∧ (∀ row ∈ rows, row.length = n) ∧
      (sortOps (putsOf keys rows)).Perm (putsOf keys rows) ∧
      (sortOps (putsOf keys rows)).Pairwise fun a b => a.key ≤ b.key
  | .deleteRows _ => True

/-- The map that operations leave: a put sets its key to its data, a deletion removes it. -/
def replayData (ops : List DbOp) (k : UInt32) : Option (List UInt8) :=
  (replay DbOp.key DbOp.delete ops k).map DbOp.data

theorem replayData_snoc (ops : List DbOp) (op : DbOp) :
    replayData (ops ++ [op]) =
      Function.update (replayData ops) op.key (if op.delete then none else some op.data) := by
  funext k
  rw [replayData, replay_snoc, replayStep]
  by_cases hk : k = op.key
  · subst hk
    cases op.delete <;> simp
  · rw [Function.update_of_ne hk, Function.update_of_ne hk, replayData]

theorem opsToRows_append (l m : List DbOp) : opsToRows (l ++ m) = opsToRows l ++ opsToRows m := by
  simp [opsToRows]

/-! ## The invariant -/

/-- The tables of a server with rows of `n` bytes after the history `log`, which has been
compacted up to operation `d`. -/
structure Server.Logged (n : ℕ) (s : Server) (log : List DbOp) (d : ℕ) : Prop where
  defragTimestamp_eq : s.defragTimestamp = d
  lt_length : d ≠ 0 → d < log.length
  ops_eq : s.ops = compactedOps log d
  half_le : 2 * (liveOps (log.take d)).length ≤ s.ops.length
  kv_eq : ∀ k, replayData log k = s.kv.lookup k
  flatDb_eq : s.staticDb.flatDb = (opsToRows s.ops).flatten
  numRows_eq : s.staticDb.numRows = (opsToRows s.ops).length
  rowLen_eq : s.staticDb.rowLen = n ∨ s.staticDb.rowLen = 0 ∧ s.ops.filter (!DbOp.delete ·) = []
  initialTimestamp_eq : s.initialTimestamp + s.ops.length = log.length
  length_eq : ∀ op ∈ log, op.delete = false → op.data.length = n

theorem newUpdatableServer_logged (n : ℕ) : newUpdatableServer.Logged n [] 0 where
  defragTimestamp_eq := rfl
  lt_length := fun h => absurd rfl h
  ops_eq := rfl
  half_le := Nat.le_refl 0
  kv_eq := fun _ => rfl
  flatDb_eq := rfl
  numRows_eq := rfl
  rowLen_eq := Or.inr ⟨rfl, rfl⟩
  initialTimestamp_eq := rfl
  length_eq := by simp

variable {n d : ℕ} {s : Server} {log : List DbOp}

namespace Server

theorem lookup_foldl_insert {kv : AList fun _ : UInt32 => List UInt8} {ops batch : List DbOp}
    (hbatch : ∀ op ∈ batch, op.delete = false) (h : ∀ k, replayData ops k = kv.lookup k) (k : UInt32) :
    replayData (ops ++ batch) k =
      (batch.foldl (fun kv op => kv.insert op.key op.data) kv).lookup k := by
  induction batch generalizing kv ops with
  | nil => simpa using h k
  | cons op batch ih =>
      rw [List.foldl_cons, ← List.singleton_append, ← List.append_assoc]
      refine ih (fun o ho => hbatch o (List.mem_cons_of_mem op ho)) fun k => ?_
      rw [replayData_snoc, hbatch op List.mem_cons_self]
      by_cases hk : k = op.key
      · subst hk
        simp
      · rw [Function.update_of_ne hk, AList.lookup_insert_ne hk, h]

theorem lookup_foldl_erase {kv : AList fun _ : UInt32 => List UInt8} {ops : List DbOp}
    {keys : List UInt32} (h : ∀ k, replayData ops k = kv.lookup k) (k : UInt32) :
    replayData (ops ++ keys.map fun key => ⟨key, true, []⟩) k =
      (keys.foldl (fun kv key => kv.erase key) kv).lookup k := by
  induction keys generalizing kv ops with
  | nil => simpa using h k
  | cons key keys ih =>
      rw [List.foldl_cons, List.map_cons, ← List.singleton_append, ← List.append_assoc]
      refine ih fun k => ?_
      rw [replayData_snoc]
      by_cases hk : k = key
      · subst hk
        simp
      · rw [Function.update_of_ne hk, AList.lookup_erase_ne hk, h]

theorem Logged.le_length (h : s.Logged n log d) : d ≤ log.length := by
  have := h.lt_length
  omega

/-- More operations behind the log. -/
theorem Logged.append (h : s.Logged n log d) {s' : Server} {batch : List DbOp}
    (hdefrag : s'.defragTimestamp = s.defragTimestamp)
    (hinit : s'.initialTimestamp = s.initialTimestamp) (hops : s'.ops = s.ops ++ batch)
    (hkv : ∀ k, replayData (log ++ batch) k = s'.kv.lookup k)
    (hflat : s'.staticDb.flatDb = s.staticDb.flatDb ++ (opsToRows batch).flatten)
    (hnum : s'.staticDb.numRows = s.staticDb.numRows + (opsToRows batch).length)
    (hrowLen : s'.staticDb.rowLen = n ∨
      s'.staticDb.rowLen = s.staticDb.rowLen ∧ batch.filter (!DbOp.delete ·) = [])
    (hlen : ∀ op ∈ batch, op.delete = false → op.data.length = n) :
    s'.Logged n (log ++ batch) d where
  defragTimestamp_eq := hdefrag.trans h.defragTimestamp_eq
  lt_length := by
    have := h.lt_length
    rw [List.length_append]
    omega
  ops_eq := by rw [hops, h.ops_eq, compactedOps, compactedOps, compacted_append h.le_length]
  half_le := by
    have := h.half_le
    rw [hops, List.take_append_of_le_length h.le_length, List.length_append]
    omega
  kv_eq := hkv
  flatDb_eq := by rw [hops, opsToRows_append, List.flatten_append, hflat, h.flatDb_eq]
  numRows_eq := by rw [hops, opsToRows_append, List.length_append, hnum, h.numRows_eq]
  rowLen_eq := by
    cases hrowLen with
    | inl hn => exact Or.inl hn
    | inr hold =>
        rw [hold.1, hops, List.filter_append, hold.2, List.append_nil]
        exact h.rowLen_eq
  initialTimestamp_eq := by
    have := h.initialTimestamp_eq
    rw [hops, hinit, List.length_append, List.length_append]
    omega
  length_eq := by
    intro op hop
    cases List.mem_append.mp hop with
    | inl hold => exact h.length_eq op hold
    | inr hnew => exact hlen op hnew

/-! ## Adding rows -/

/-- The operations that `AddRows` makes of its arguments. -/
theorem makeOps_eq {keys : List UInt32} {rows : List (List UInt8)} (hlen : keys.length = rows.length) :
    ((List.range keys.length).mapM fun i => do
      some ({ key := ← keys[i]?, delete := false, data := ← rows[i]? } : DbOp)) =
      some (putsOf keys rows) := by
  rw [putsOf, mapM_range_eq fun i => ⟨keys.getD i 0, false, rows.getD i []⟩]
  · refine congrArg some (List.ext_getElem (by simp [hlen]) ?_)
    intro i hi hi'
    simp at hi hi'
    simp [hi, hi'.2]
  · intro i hi
    have hi' : i < rows.length := by omega
    simp [hi, hi']

/-- The flat table of a batch of rows of one length. -/
theorem opsToFlatDB_eq {ops : List DbOp} (hne : ops ≠ []) (hops : ∀ op ∈ ops, op.data.length = n) :
    opsToFlatDB ops = some (ops.map DbOp.data).flatten := by
  cases ops with
  | nil => exact absurd rfl hne
  | cons op ops =>
      refine if_pos fun v hv => ?_
      rw [hops v hv, hops op List.mem_cons_self]

/-- **`AddRows`** appends its batch to the history. -/
theorem addRows_logged (h : s.Logged n log d) {sortOps : List DbOp → List DbOp} {keys : List UInt32}
    {rows : List (List UInt8)} (hvalid : (ServerAction.addRows sortOps keys rows).Valid n) :
    ∃ s', s.addRows sortOps keys rows = some s' ∧
      s'.Logged n (log ++ (ServerAction.addRows sortOps keys rows).ops) d := by
  obtain ⟨hlen, hrows, hperm, -⟩ := hvalid
  rw [ServerAction.ops]
  set batch := putsOf keys rows with hbatch
  cases rows with
  | nil =>
      have hnil : sortOps batch = [] := by
        rw [hbatch, putsOf, List.zipWith_nil_right] at hperm ⊢
        exact hperm.eq_nil
      rw [hnil, List.append_nil]
      exact ⟨s, rfl, h⟩
  | cons row rows =>
      have hputs : ∀ op ∈ sortOps batch, op.delete = false ∧ op.data.length = n := by
        intro op hop
        obtain ⟨i, hi, rfl⟩ := List.mem_iff_getElem.mp (hperm.mem_iff.mp hop)
        simp only [hbatch, putsOf, List.getElem_zipWith]
        exact ⟨trivial, hrows _ (List.getElem_mem _)⟩
      have hcount : (sortOps batch).length = (row :: rows).length := by
        rw [hperm.length_eq, hbatch, putsOf, List.length_zipWith, hlen, Nat.min_self]
      have hne : sortOps batch ≠ [] := by
        intro hnil
        simp [hnil] at hcount
      have hfilter : (sortOps batch).filter (!DbOp.delete ·) = sortOps batch :=
        List.filter_eq_self.mpr fun op hop => by simp [(hputs op hop).1]
      have hrow : row.length = n := hrows row List.mem_cons_self
      have hrowLen : ¬(s.staticDb.rowLen ≠ 0 ∧ s.staticDb.rowLen ≠ row.length) := by
        rintro ⟨h0, hne⟩
        cases h.rowLen_eq with
        | inl hn => exact hne (hn.trans hrow.symm)
        | inr hz => exact h0 hz.1
      have hrows' : opsToRows (sortOps batch) = (sortOps batch).map DbOp.data := by
        rw [opsToRows, hfilter]
      have hadd : s.addRows sortOps keys (row :: rows) = some { s with
          kv := (sortOps batch).foldl (fun kv op => kv.insert op.key op.data) s.kv
          ops := s.ops ++ sortOps batch
          staticDb := { s.staticDb with
            rowLen := if s.staticDb.rowLen = 0 then row.length else s.staticDb.rowLen
            numRows := s.staticDb.numRows + (row :: rows).length
            flatDb := s.staticDb.flatDb ++ ((sortOps batch).map DbOp.data).flatten } } := by
        rw [addRows, if_neg hrowLen, makeOps_eq hlen]
        simp only [Option.bind_eq_bind, Option.bind_some, ← hbatch,
          opsToFlatDB_eq hne fun op hop => (hputs op hop).2]
      refine ⟨_, hadd, h.append rfl rfl rfl ?_ ?_ ?_ (Or.inl ?_) fun op hop _ => (hputs op hop).2⟩
      · exact lookup_foldl_insert (fun op hop => (hputs op hop).1) h.kv_eq
      · exact congrArg (s.staticDb.flatDb ++ ·) (congrArg List.flatten hrows'.symm)
      · rw [hrows', List.length_map, hcount]
      · dsimp only
        split_ifs with h0
        · exact hrow
        · exact h.rowLen_eq.resolve_right fun hz => h0 hz.1

/-! ## Deleting rows -/

/-- The table of the rows of operations. -/
theorem fromRows_opsToRows {ops : List DbOp}
    (hlen : ∀ op ∈ ops, op.delete = false → op.data.length = n) :
    ∃ db, StaticDB.fromRows (opsToRows ops) = some db ∧ db.flatDb = (opsToRows ops).flatten ∧
      db.numRows = (opsToRows ops).length ∧
      (db.rowLen = n ∨ db.rowLen = 0 ∧ ops.filter (!DbOp.delete ·) = []) := by
  have hrows : ∀ row ∈ opsToRows ops, row.length = n := by
    intro row hrow
    obtain ⟨op, hop, rfl⟩ := List.mem_map.mp hrow
    rw [List.mem_filter] at hop
    exact hlen op hop.1 (by simpa using hop.2)
  cases hops : opsToRows ops with
  | nil =>
      refine ⟨_, rfl, rfl, rfl, Or.inr ⟨rfl, ?_⟩⟩
      simpa [opsToRows] using hops
  | cons row rows =>
      rw [hops] at hrows
      have hrow : row.length = n := hrows row List.mem_cons_self
      exact ⟨_, if_pos fun v hv => (hrows v hv).trans hrow.symm, rfl, rfl, Or.inl hrow⟩

/-- **The compaction** keeps the map and moves the defrag timestamp forward. -/
theorem compact_logged (h : s.Logged n log d) :
    ∃ s' d', s.compact = some s' ∧ s'.Logged n log d' ∧ d ≤ d' := by
  rw [compact]
  split_ifs with hratio
  · set e := s.ops.length / 2 with he
    set m := (liveOps (log.take d)).length with hm
    have hhalf := h.half_le
    have hinit := h.initialTimestamp_eq
    have hle := h.le_length
    have hlen : s.ops.length = m + (log.length - d) := by rw [h.ops_eq, length_compactedOps]
    have hops : compactedOps s.ops e = compactedOps log (d + (e - m)) := by
      rw [h.ops_eq]
      exact compacted_compacted (show m ≤ e by omega)
    obtain ⟨numRemoved, hdefrag⟩ := @defrag_eq s.ops e (by omega) (by omega)
    rw [Int.toNat_natCast, hops] at hdefrag
    have hsub := @compacted_subset _ _ _ DbOp.key DbOp.delete log (d + (e - m))
    obtain ⟨db, hdb, hflat, hnum, hrowLen⟩ := fromRows_opsToRows
      (fun op hop => h.length_eq op (hsub hop))
    dsimp only
    rw [hdefrag]
    simp only [Option.bind_eq_bind, Option.bind_some, hdb]
    refine ⟨_, d + (e - m), rfl, ?_, by omega⟩
    have hlen' := congrArg List.length hops
    rw [length_compactedOps, length_compactedOps] at hlen'
    have hlive : (liveOps (s.ops.take e)).length ≤ e :=
      (live_length_le _).trans (by rw [List.length_take]; omega)
    constructor
    · dsimp only
      omega
    · intro _
      omega
    · rfl
    · dsimp only
      rw [length_compactedOps]
      omega
    · exact h.kv_eq
    · exact hflat
    · exact hnum
    · exact hrowLen
    · dsimp only
      omega
    · exact h.length_eq
  · exact ⟨s, d, rfl, h, Nat.le_refl d⟩

/-- **`DeleteRows`** appends its deletions to the history. -/
theorem deleteRows_logged (h : s.Logged n log d) (keys : List UInt32) :
    ∃ s' d', s.deleteRows keys = some s' ∧
      s'.Logged n (log ++ (ServerAction.deleteRows keys).ops) d' ∧ d ≤ d' := by
  have hnone : (keys.map fun key => (⟨key, true, []⟩ : DbOp)).filter (!DbOp.delete ·) = [] := by
    simp
  refine compact_logged (h.append rfl rfl rfl (lookup_foldl_erase h.kv_eq) ?_ ?_
    (Or.inr ⟨rfl, hnone⟩) ?_)
  · rw [ServerAction.ops, opsToRows, hnone]
    simp
  · rw [ServerAction.ops, opsToRows, hnone]
    rfl
  · intro op hop hput
    obtain ⟨key, -, rfl⟩ := List.mem_map.mp hop
    exact absurd hput (by simp)

end Server

/-- **One call** appends its operations to the history. -/
theorem Server.step_logged (h : s.Logged n log d) {a : ServerAction} (hvalid : a.Valid n) :
    ∃ s' d', s.step a = some s' ∧ s'.Logged n (log ++ a.ops) d' ∧ d ≤ d' := by
  cases a with
  | addRows sortOps keys rows =>
      obtain ⟨s', hstep, h'⟩ := addRows_logged h hvalid
      exact ⟨s', d, hstep, h', Nat.le_refl d⟩
  | deleteRows keys => exact deleteRows_logged h keys

/-! ## Runs -/

/-- The tables of a server to which `appended` operations have ever been appended agree. -/
structure Server.Represents (s : Server) (appended : ℕ) : Prop where
  kv_eq : ∀ k, replayData s.ops k = s.kv.lookup k
  flatDb_eq : s.staticDb.flatDb = (opsToRows s.ops).flatten
  numRows_eq : s.staticDb.numRows = (opsToRows s.ops).length
  nextTimestamp_eq : s.initialTimestamp + s.ops.length = appended
  init_le_defrag : s.initialTimestamp ≤ s.defragTimestamp
  defrag_le_next : s.defragTimestamp ≤ s.initialTimestamp + s.ops.length

theorem Server.Logged.represents (h : s.Logged n log d) : s.Represents log.length where
  kv_eq := fun k => by rw [replayData, h.ops_eq, compactedOps, replay_compacted, ← h.kv_eq, replayData]
  flatDb_eq := h.flatDb_eq
  numRows_eq := h.numRows_eq
  nextTimestamp_eq := h.initialTimestamp_eq
  init_le_defrag := by
    have hlen := length_compactedOps log d
    have hinit := h.initialTimestamp_eq
    have hle := h.le_length
    rw [← h.ops_eq] at hlen
    rw [h.defragTimestamp_eq]
    omega
  defrag_le_next := by
    rw [h.initialTimestamp_eq, h.defragTimestamp_eq]
    exact Int.ofNat_le.mpr h.le_length

/-- One call, with the number of operations that have ever been appended. -/
def Server.countedStep (s : Server × ℕ) (a : ServerAction) : Option (Unit × (Server × ℕ)) := do
  some ((), (← s.1.step a, s.2 + a.ops.length))

/-- **The tables of an updatable server agree** along every run of calls with rows of one
length, and its defrag timestamp never decreases. -/
theorem server_represents (n : ℕ) (as : List ServerAction) :
    newUpdatableServer.Represents 0 ∧
      AlwaysUnder Server.countedStep (fun _ a => a.Valid n)
        (fun s _ _ s' => s'.1.Represents s'.2 ∧ s.1.defragTimestamp ≤ s'.1.defragTimestamp)
        (newUpdatableServer, 0) as := by
  refine ⟨(newUpdatableServer_logged n).represents, ?_⟩
  refine alwaysUnder_of_invariant (fun s => ∃ log d, s.1.Logged n log d ∧ s.2 = log.length) ?_ as _
    ⟨[], 0, newUpdatableServer_logged n, rfl⟩
  intro ⟨s, m⟩ a ⟨log, d, h, hm⟩ hvalid
  dsimp only at h hm hvalid
  obtain ⟨s', d', hstep, h', hle⟩ := Server.step_logged h hvalid
  have hm' : m + a.ops.length = (log ++ a.ops).length := by rw [List.length_append, hm]
  refine ⟨(), (s', m + a.ops.length), by simp [Server.countedStep, hstep], ⟨?_, ?_⟩,
    ⟨log ++ a.ops, d', h', hm'⟩⟩
  · rw [hm']
    exact h'.represents
  · dsimp only
    rw [h.defragTimestamp_eq, h'.defragTimestamp_eq]
    exact Int.ofNat_le.mpr hle

example : ((([.addRows id [5, 6] [[1], [2]], .deleteRows [5, 7], .deleteRows [7, 7]] :
      List ServerAction).foldlM Server.step newUpdatableServer).map fun s =>
    (s.initialTimestamp, s.defragTimestamp, s.ops.map DbOp.key, s.staticDb.flatDb)) =
      some (2, 3, [6, 7, 7, 7], [2]) := by
  decide +kernel

end SinglePassPIR.Updatable
