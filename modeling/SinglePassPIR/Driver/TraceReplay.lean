import SinglePassPIR.Lib.OrderedMap
import SinglePassPIR.SafeBrowsing.BlockList
import SinglePassPIR.Updatable.KeyReads

/-!
# Replaying a trace

`BenchmarkTrace` replays a recorded trace on a server driver and an updatable client: rows are added
and deleted, the client is updated, and a row that the driver picks by its number is read by its
key. The read is asserted to return the row that the driver has.

The driver numbers the rows in the order of package `orderedmap`, which is that of their arrival, and
deletes those that came first. The package is a parameter `M`, with the laws that it documents.

## Main results

* `ServerDriver.addRows_spec`, `ServerDriver.deleteRows_spec`, `update_spec` — the calls of a row.
* `trace_replayed` — no assertion fails, in any replay.
-/

namespace SinglePassPIR.Driver
open Updatable Pir SafeBrowsing KeyLog

/-! ## The driver -/

/-- `serverDriver` of an updatable server, with its `kv`, which keeps the order of arrival. -/
structure ServerDriver (M : OrderedMap UInt32 (List UInt8)) where
  server : Server
  kv : M.Map
  rowLen : ℕ

/-- The length that `make` is given; a negative one panics. -/
def makeLen (n : ℤ) : Option ℕ := if n < 0 then none else some n.toNat

/-- What `AddRows` draws, and what `sort.Slice` does to its batch. -/
structure AddDraws where
  src : ℕ → ℕ → UInt8
  keys : ℕ → UInt32
  sortOps : List DbOp → List DbOp

namespace ServerDriver
variable {M : OrderedMap UInt32 (List UInt8)}

/-- `serverDriver.AddRows`; the rows are drawn by `MakeRows` and the keys by `MakeKeys`. -/
def addRows (d : ServerDriver M) (draws : AddDraws) (numRows : ℤ) : Option (ServerDriver M) := do
  let numRows ← makeLen numRows
  let newVals ← makeRows draws.src numRows d.rowLen
  let newKeys := (List.range numRows).map draws.keys
  let server ← d.server.addRows draws.sortOps newKeys newVals
  -- without rows `Server.AddRows` returns at once
  let ops := if newVals = [] then [] else draws.sortOps (putsOf newKeys newVals)
  some { d with server, kv := M.setAll d.kv (ops.map fun op => (op.key, op.data)) }

/-- `Server.SomeKeys`; a key for which there is no entry stays zero. -/
def someKeys (d : ServerDriver M) (num : ℕ) : List UInt32 :=
  (M.keys d.kv).take num ++ List.replicate (num - (M.keys d.kv).length) 0

/-- `serverDriver.DeleteRows` -/
def deleteRows (d : ServerDriver M) (numRows : ℤ) : Option (ServerDriver M) := do
  let keys := d.someKeys (← makeLen numRows)
  let server ← d.server.deleteRows keys
  some { d with server, kv := M.deleteAll d.kv keys }

/-- `Server.NumKeys` -/
def numKeys (d : ServerDriver M) : ℕ := (M.entries d.kv).length

/-- `Server.Row` -/
def row (d : ServerDriver M) (idx : ℕ) : Except String (UInt32 × List UInt8) :=
  match (M.entries d.kv)[idx]? with
  | some e => .ok e
  | none => .error ("Index " ++ toString idx ++ " out of bounds [0:" ++ toString d.numKeys ++ ")")

/-- `serverDriver.GetRow` -/
def getRow (d : ServerDriver M) (idx : ℕ) : Except String RowIndexVal := do
  let (key, value) ← d.row idx
  return ⟨idx, key, value⟩

end ServerDriver

/-! ## The replay -/

/-- A row of a trace -/
structure TraceRow where
  timestamp : ℤ
  numAdds : ℤ
  numDeletes : ℤ
  numQueries : ℤ
  deriving DecidableEq, Repr

/-- The part of `LoadTrace` behind `strconv.Atoi`. -/
def loadTrace (records : List TraceRow) : List TraceRow :=
  records.filter fun r => decide (r.numAdds + r.numDeletes + r.numQueries > 0)

/-- What a round of the replay draws; the keys of the client come in the order `order`. -/
structure TraceDraws (P : PirImpl) where
  add : AddDraws
  hintSrc : P.Source
  initSrc : P.Source
  intn : ℕ
  readSrc : ℕ → P.Source
  order : List UInt32

/-- A round of the replay -/
structure TraceRound (P : PirImpl) where
  i : ℕ
  row : TraceRow
  draws : TraceDraws P

/-- `keysSizeWithRice`; it panics without keys, where the encoding is `nil`. -/
def keysSizeWithRice (order : List UInt32) : Option ℕ :=
  (encodeRiceIntegers (order.mergeSort (· ≤ ·))).map (·.encodedData.length)

/-- Whether `StorageNumBytes` returns; the size is only printed. -/
def storageReturns {γ : Type} (c : Client γ) (order : List UInt32) : Bool :=
  decide (c.waterfall.pirType = .punc) || (keysSizeWithRice order).isSome

/-- The driver, which is both servers, and the client. -/
structure TraceState (P : PirImpl) (M : OrderedMap UInt32 (List UInt8)) where
  driver : ServerDriver M
  client : Client P.Client

namespace TraceState
variable {P : PirImpl} {M : OrderedMap UInt32 (List UInt8)}

/-- `BenchmarkTrace` before its loop: `Configure` with `NumRows` zero, and `NewClient`. -/
def start (P : PirImpl) (M : OrderedMap UInt32 (List UInt8)) (draws : AddDraws) (rowLen : ℕ)
    (pirType : PirType) (smallest : ℕ) : Option (TraceState P M) := do
  let server ← configure draws.sortOps draws.src draws.keys ⟨0, rowLen, []⟩
  some ⟨⟨server, M.new, rowLen⟩, newClient pirType smallest⟩

/-- The rows that are added and deleted. -/
def churn (s : TraceState P M) (r : TraceRound P) : Option (ServerDriver M) := do
  let driver ← s.driver.addRows r.draws.add r.row.numAdds
  driver.deleteRows r.row.numDeletes

/-- `Update` of the client, with its two calls. -/
def update (driver : ServerDriver M) (client : Client P.Client) (draws : TraceDraws P) :
    Option (Except String Unit × Client P.Client) :=
  client.update riceCodec (fun req => (driver.server.keyUpdates riceCodec req).map .ok)
    (·.process P driver.server.staticDb) draws.hintSrc draws.initSrc

/-- The rows change and the client is updated; the error of the update is dropped. -/
def refresh (s : TraceState P M) (r : TraceRound P) : Option (TraceState P M) :=
  if r.row.numAdds + r.row.numDeletes > 0 then do
    let driver ← s.churn r
    let (_, client) ← update driver s.client r.draws
    some ⟨driver, client⟩
  else some s

/-- The row that is to be read; `rand.Intn` of a number that is not positive panics, and so does
the assertion that `GetRow` has no error. -/
def pick (s : TraceState P M) (draws : TraceDraws P) : Option RowIndexVal :=
  if s.driver.numKeys ≤ 200 then none
  else (s.driver.getRow (draws.intn % (s.driver.numKeys - 200))).toOption

/-- A row is read by its key, and asserted to be the driver's. -/
def query (s : TraceState P M) (r : TraceRound P) : Option (Option RowIndexVal × TraceState P M) :=
  if r.row.numQueries > 0 then do
    let rowIV ← s.pick r.draws
    let ((row, err), client) ←
      s.client.readFrom false false s.driver.server.staticDb r.draws.readSrc rowIV.key
    if err = none ∧ row = rowIV.value then some (some rowIV, { s with client }) else none
  else some (none, s)

/-- The body of the loop, less its measurements. -/
def step (s : TraceState P M) (r : TraceRound P) : Option (Option RowIndexVal × TraceState P M) := do
  let s ← s.refresh r
  let (rowIV, s) ← s.query r
  if r.i % 200 = 0 ∧ !storageReturns s.client r.draws.order then none else some (rowIV, s)

end TraceState

/-- The rounds of the loop, which stops before the last row of the trace. -/
def traceRounds {P : PirImpl} (records : List TraceRow) (draws : ℕ → TraceDraws P) :
    List (TraceRound P) :=
  (loadTrace records).dropLast.zipIdx.map fun r => ⟨r.2, r.1, draws r.2⟩

/-! ## The calls of the driver -/

section Entries
variable {M : OrderedMap UInt32 (List UInt8)}

/-- An operation of the log, on the entries. -/
def applyOp (m : M.Map) (op : DbOp) : M.Map :=
  if op.delete then M.delete m op.key else M.set m op.key op.data

theorem get_foldl_applyOp {log : List DbOp} {m : M.Map}
    (h : ∀ k, replayData log k = M.get m k) (ops : List DbOp) (k : UInt32) :
    replayData (log ++ ops) k = M.get (ops.foldl applyOp m) k := by
  induction ops generalizing log m with
  | nil => simpa using h k
  | cons op ops ih =>
      rw [List.foldl_cons, ← List.singleton_append, ← List.append_assoc]
      refine ih fun k => ?_
      rw [replayData_snoc, applyOp]
      by_cases hk : k = op.key
      · subst hk
        cases op.delete <;> simp [OrderedMap.get_set, OrderedMap.get_delete]
      · rw [Function.update_of_ne hk, h]
        cases op.delete <;> simp [OrderedMap.get_set, OrderedMap.get_delete, hk]

theorem setAll_eq_foldl {ops : List DbOp} (hputs : ∀ op ∈ ops, op.delete = false)
    (m : M.Map) :
    M.setAll m (ops.map fun op => (op.key, op.data)) = ops.foldl applyOp m := by
  rw [OrderedMap.setAll, List.foldl_map]
  exact List.foldl_ext _ _ _ fun m op hop => by simp [applyOp, hputs op hop]

theorem deleteAll_eq_foldl (ks : List UInt32) (m : M.Map) :
    M.deleteAll m ks = (ks.map fun key => (⟨key, true, []⟩ : DbOp)).foldl applyOp m := by
  rw [OrderedMap.deleteAll, List.foldl_map]
  exact List.foldl_ext _ _ _ fun m k _ => by simp [applyOp]

end Entries

namespace ServerDriver
variable {M : OrderedMap UInt32 (List UInt8)} {n e : ℕ} {d : ServerDriver M} {log : List DbOp}
variable {numRows : ℤ}

/-- The entries are those of the server, in some order. -/
structure Ordered (d : ServerDriver M) (n : ℕ) : Prop where
  kv_eq : ∀ k, d.server.kv.lookup k = M.get d.kv k
  rowLen_eq : d.rowLen = n

/-- One call of the server, with what it does to the entries. -/
theorem Ordered.call (h : d.Ordered n) (hlogged : d.server.Logged n log e) {a : ServerAction}
    (hvalid : a.Valid n) :
    ∃ server e', d.server.step a = some server ∧ server.Logged n (log ++ a.ops) e' ∧ e ≤ e' ∧
      Ordered { d with server, kv := a.ops.foldl applyOp d.kv } n := by
  obtain ⟨server, e', hstep, hlogged', hle⟩ := Server.step_logged hlogged hvalid
  refine ⟨server, e', hstep, hlogged', hle, ?_, h.rowLen_eq⟩
  intro k
  rw [← hlogged'.kv_eq]
  exact get_foldl_applyOp (fun k => (hlogged.kv_eq k).trans (h.kv_eq k)) a.ops k

/-- **`AddRows`** puts its new keys behind the others. -/
theorem addRows_spec (h : d.Ordered n) (hlogged : d.server.Logged n log e) (hn : 2 ≤ n)
    {draws : AddDraws}
    (hsort : ∀ ops, (draws.sortOps ops).Perm ops ∧
      (draws.sortOps ops).Pairwise fun a b => a.key ≤ b.key) (hnum : 0 ≤ numRows) :
    ∃ d' ops e' new, d.addRows draws numRows = some d' ∧ d'.server.Logged n (log ++ ops) e' ∧
      e ≤ e' ∧ d'.Ordered n ∧ M.keys d'.kv = M.keys d.kv ++ new := by
  obtain ⟨rows, hrows, hcount⟩ := makeRows_spec draws.src hn numRows.toNat
  set keys := (List.range numRows.toNat).map draws.keys with hkeys
  set vals := rows.map Bytes.toList with hvals
  have hvalid : (ServerAction.addRows draws.sortOps keys vals).Valid n := by
    refine ⟨by simp [hkeys, hvals, hcount], ?_, hsort _⟩
    simp [hvals]
  obtain ⟨server, e', hstep, hlogged', hle, hordered⟩ := h.call hlogged hvalid
  have hputs : ∀ op ∈ (ServerAction.addRows draws.sortOps keys vals).ops, op.delete = false := by
    intro op hop
    have hop' := ((hsort _).1.mem_iff).mp hop
    obtain ⟨i, hi, rfl⟩ := List.mem_iff_getElem.mp hop'
    simp [putsOf]
  -- an empty batch is not sorted by the code
  have hops : (if vals = [] then [] else draws.sortOps (putsOf keys vals)) =
      (ServerAction.addRows draws.sortOps keys vals).ops := by
    split_ifs with hnil
    · have hperm := (hsort (putsOf keys vals)).1
      rw [hnil, putsOf, List.zipWith_nil_right] at hperm
      rw [ServerAction.ops, hnil, putsOf, List.zipWith_nil_right]
      exact hperm.eq_nil.symm
    · rfl
  rw [← setAll_eq_foldl hputs] at hordered
  obtain ⟨new, hnew, -⟩ := OrderedMap.keys_setAll d.kv
    ((ServerAction.addRows draws.sortOps keys vals).ops.map fun op => (op.key, op.data))
  refine ⟨_, _, e', new, ?_, hlogged', hle, hordered, hnew⟩
  have hadd : d.server.addRows draws.sortOps keys vals = some server := hstep
  simp only [addRows, makeLen, if_neg (Int.not_lt.mpr hnum), h.rowLen_eq, hrows, ← hkeys, hadd, hops,
    Option.bind_eq_bind, Option.bind_some]

/-- **`DeleteRows`** deletes the keys that came first. -/
theorem deleteRows_spec (h : d.Ordered n) (hlogged : d.server.Logged n log e) (hnum : 0 ≤ numRows) :
    ∃ d' ops e', d.deleteRows numRows = some d' ∧ d'.server.Logged n (log ++ ops) e' ∧ e ≤ e' ∧
      d'.Ordered n ∧ M.entries d'.kv = (M.entries d.kv).drop numRows.toNat := by
  obtain ⟨server, e', hstep, hlogged', hle, hordered⟩ :=
    h.call hlogged (a := .deleteRows (d.someKeys numRows.toNat)) trivial
  have hops : (ServerAction.deleteRows (d.someKeys numRows.toNat)).ops =
    (d.someKeys numRows.toNat).map fun key => ⟨key, true, []⟩ := rfl
  rw [hops, ← deleteAll_eq_foldl] at hordered
  refine ⟨_, _, e', ?_, hlogged', hle, hordered, ?_⟩
  · have hdelete : d.server.deleteRows (d.someKeys numRows.toNat) = some server := hstep
    simp only [deleteRows, makeLen, if_neg (Int.not_lt.mpr hnum), hdelete, Option.bind_eq_bind,
      Option.bind_some]
  · -- key zero is deleted as well only if no key is left
    apply OrderedMap.entries_deleteAll_take
    intro k hk
    have hlen : (M.keys d.kv).length < numRows.toNat := by
      have hne := List.ne_nil_of_mem hk
      rw [ne_eq, List.replicate_eq_nil_iff] at hne
      omega
    simp [List.drop_eq_nil_of_le hlen.le]

/-- The rows of the driver are those of the server. -/
theorem Ordered.lookup_getRow (h : d.Ordered n) {idx : ℕ} {row : RowIndexVal}
    (hrow : d.getRow idx = .ok row) : d.server.kv.lookup row.key = some row.value := by
  rw [getRow, ServerDriver.row] at hrow
  cases hentry : (M.entries d.kv)[idx]? with
  | none => simp [hentry] at hrow
  | some entry =>
      simp only [hentry] at hrow
      obtain rfl := Except.ok.inj hrow
      rw [h.kv_eq, OrderedMap.get_eq_some_iff]
      exact List.mem_of_getElem? hentry

end ServerDriver

/-! ## The loop -/

namespace TraceState
variable {M : OrderedMap UInt32 (List UInt8)} {A : Dpf.Prf} {env : Env} {addr n : ℕ}

/-- The server and the client, right after an update. -/
def system {P : PirImpl} (s : TraceState P M) : ReadSystem P :=
  ⟨s.driver.server, s.client, s.driver.server, none⟩

/-- The client is up to date with the driver. -/
structure Inv (n : ℕ) (s : TraceState (layeredPunc A env addr) M) : Prop where
  synced : s.system.SyncedHinted n
  ordered : s.driver.Ordered n

/-- What is assumed of an update: timestamps fit an `int32`, keys which are sent sorted fit the Rice
code, and the calls return. -/
def UpdateReady {P : PirImpl} (driver : ServerDriver M) (client : Client P.Client)
    (draws : TraceDraws P) : Prop :=
  driver.server.initialTimestamp + driver.server.ops.length < 2 ^ 31 ∧
    (let keys := (driver.server.sentOps client.keyUpdatesReq).map DbOp.key
    keys.Pairwise (· ≤ ·) → RiceFits keys) ∧ (update driver client draws).isSome

/-- What is assumed of a round. No number of rows is negative, the update returns, more than 200
rows are left when one is read, and the calls of the read return. When the storage is measured there
is a row, unless the type is `Punc`. -/
structure Proper (env : Env) (addr n : ℕ) (A : Dpf.Prf) (s : TraceState (layeredPunc A env addr) M)
    (r : TraceRound (layeredPunc A env addr)) : Prop where
  sorts : ∀ ops, (r.draws.add.sortOps ops).Perm ops ∧
    (r.draws.add.sortOps ops).Pairwise fun a b => a.key ≤ b.key
  changes : r.row.numAdds + r.row.numDeletes > 0 → 0 ≤ r.row.numAdds ∧ 0 ≤ r.row.numDeletes ∧
    ∀ driver, s.churn r = some driver → UpdateReady driver s.client r.draws
  queries : r.row.numQueries > 0 → ∀ s', s.refresh r = some s' → 200 < s'.driver.numKeys ∧
    ∀ rowIV, s'.pick r.draws = some rowIV →
      s'.client.KeyReady env addr n A r.draws.readSrc rowIV.key
  storage : r.i % 200 = 0 → ∀ s' s'' rowIV, s.refresh r = some s' →
    s'.query r = some (rowIV, s'') → s''.client.waterfall.pirType ≠ .punc →
      s''.driver.numKeys ≠ 0 ∧ ∀ k, (s''.client.keyToPos k).isSome → k ∈ r.draws.order

/-- A round reads a row that the server has, if it has queries. It puts new keys behind the others
and deletes the keys that came first. -/
def Correct {P : PirImpl} (s : TraceState P M) (r : TraceRound P) (out : Option RowIndexVal)
    (s' : TraceState P M) : Prop :=
  (r.row.numQueries > 0 → ∃ rowIV, out = some rowIV ∧ s'.driver.getRow rowIV.index = .ok rowIV ∧
    s'.driver.server.kv.lookup rowIV.key = some rowIV.value) ∧
  ∃ new, M.keys s'.driver.kv = if r.row.numAdds + r.row.numDeletes > 0 then
    (M.keys s.driver.kv ++ new).drop r.row.numDeletes.toNat else M.keys s.driver.kv

variable {s : TraceState (layeredPunc A env addr) M} {r : TraceRound (layeredPunc A env addr)}

/-- **`Update`**, with no other call between its two. -/
theorem update_spec {driver : ServerDriver M} {client : Client (layeredPunc A env addr).Client}
    {synced : Server}
    (h : (⟨driver.server, client, synced, none⟩ : ReadSystem (layeredPunc A env addr)).SyncedHinted n)
    {draws : TraceDraws (layeredPunc A env addr)} (hready : UpdateReady driver client draws) :
    ∃ res client', update driver client draws = some (res, client') ∧
      (⟨driver, client'⟩ : TraceState (layeredPunc A env addr) M).system.SyncedHinted n := by
  obtain ⟨hnext, hfits, hsome⟩ := hready
  obtain ⟨⟨res, client'⟩, hupdate⟩ := Option.isSome_iff_exists.mp hsome
  obtain ⟨s', hsync, hs', hserver, hsynced⟩ := h.sync rfl hnext hfits
  refine ⟨res, client', hupdate, ?_⟩
  simp only [ReadSystem.sync, Option.isSome_none, Bool.false_eq_true, if_false, Option.bind_eq_bind,
    Option.bind_eq_some_iff] at hsync
  obtain ⟨resp, hresp, ⟨result, c⟩, hprocess, hs⟩ := hsync
  simp only [update, Client.update, hresp, hprocess, Option.map_some, Option.bind_eq_bind,
    Option.bind_some] at hupdate
  cases result with
  | error err =>
      obtain rfl := Option.some.inj hs
      obtain ⟨-, rfl⟩ := Prod.mk.inj (Option.some.inj hupdate)
      obtain rfl : synced = driver.server := hsynced
      exact hs'
  | ok m =>
      obtain rfl := Option.some.inj hs
      by_cases hm : m = 0
      · simp only [hm, if_true, Option.some.injEq, Prod.mk.injEq] at hupdate
        obtain ⟨-, rfl⟩ := hupdate
        simpa [hm, system] using hs'
      · simp only [if_neg hm, Option.bind_eq_some_iff, Option.some.injEq, Prod.mk.injEq] at hupdate hs'
        obtain ⟨⟨hint, waterfall⟩, hfetch, -, rfl⟩ := hupdate
        have hhint : (⟨driver.server, c, driver.server, some (m, resp.rowLen)⟩ :
            ReadSystem (layeredPunc A env addr)).hint draws.hintSrc draws.initSrc =
            some (⟨driver, { c with waterfall }⟩ : TraceState (layeredPunc A env addr) M).system := by
          simp only [ReadSystem.hint, ReadSystem.hintFrom, hfetch, Option.bind_eq_bind,
            Option.bind_some]
          rfl
        exact hs'.hint rfl hhint

/-- The rows change and the client follows. -/
theorem Inv.refresh (h : s.Inv n) (hn : 2 ≤ n) (hproper : Proper env addr n A s r) :
    ∃ s', s.refresh r = some s' ∧ s'.Inv n ∧
      ∃ new, M.keys s'.driver.kv = if r.row.numAdds + r.row.numDeletes > 0 then
        (M.keys s.driver.kv ++ new).drop r.row.numDeletes.toNat else M.keys s.driver.kv := by
  by_cases hpos : r.row.numAdds + r.row.numDeletes > 0
  · obtain ⟨hadds, hdeletes, hupdates⟩ := hproper.changes hpos
    obtain ⟨log, e, log₀, e₀, hlogged, hpre, hle, hclient⟩ := h.synced
    obtain ⟨d₁, ops₁, e₁, new, hadd, hlogged₁, hle₁, hordered₁, hkeys⟩ :=
      ServerDriver.addRows_spec h.ordered hlogged hn hproper.sorts hadds
    obtain ⟨d₂, ops₂, e₂, hdelete, hlogged₂, hle₂, hordered₂, hentries⟩ :=
      ServerDriver.deleteRows_spec hordered₁ hlogged₁ hdeletes
    have hchurn : s.churn r = some d₂ := by
      simp only [churn, hadd, hdelete, Option.bind_eq_bind, Option.bind_some]
    have hbehind : (⟨d₂.server, s.client, s.driver.server, none⟩ :
        ReadSystem (layeredPunc A env addr)).SyncedHinted n := by
      refine ⟨_, e₂, log₀, e₀, hlogged₂, ?_, by omega, hclient⟩
      exact hpre.trans ((List.prefix_append _ _).trans (List.prefix_append _ _))
    obtain ⟨res, client, hupdate, hsynced⟩ := update_spec hbehind (hupdates d₂ hchurn)
    refine ⟨⟨d₂, client⟩, ?_, ⟨hsynced, hordered₂⟩, new, ?_⟩
    · simp only [TraceState.refresh, if_pos hpos, hchurn, hupdate, Option.bind_eq_bind,
        Option.bind_some]
    · rw [if_pos hpos, ← hkeys]
      simp [OrderedMap.keys, hentries]
  · exact ⟨s, by simp [TraceState.refresh, hpos], h, [], by simp [hpos]⟩

/-- **The read of a round**, whose assertion holds. -/
theorem Inv.query (h : s.Inv n) (hn : 2 ≤ n)
    (hqueries : r.row.numQueries > 0 → 200 < s.driver.numKeys ∧ ∀ rowIV, s.pick r.draws = some rowIV →
      s.client.KeyReady env addr n A r.draws.readSrc rowIV.key) :
    ∃ out s', s.query r = some (out, s') ∧ s'.Inv n ∧ s'.driver = s.driver ∧
      (r.row.numQueries > 0 → ∃ rowIV, out = some rowIV ∧ s.driver.getRow rowIV.index = .ok rowIV ∧
        s.driver.server.kv.lookup rowIV.key = some rowIV.value) := by
  by_cases hpos : r.row.numQueries > 0
  · obtain ⟨hmany, hready⟩ := hqueries hpos
    have hidx : r.draws.intn % (s.driver.numKeys - 200) < (M.entries s.driver.kv).length := by
      have hlt := Nat.mod_lt r.draws.intn (by omega : s.driver.numKeys - 200 > 0)
      rw [ServerDriver.numKeys] at hlt hmany ⊢
      omega
    obtain ⟨rowIV, hrow, hindex⟩ : ∃ rowIV,
        s.driver.getRow (r.draws.intn % (s.driver.numKeys - 200)) = .ok rowIV ∧
        rowIV.index = r.draws.intn % (s.driver.numKeys - 200) := by
      rw [ServerDriver.getRow, ServerDriver.row, List.getElem?_eq_getElem hidx]
      exact ⟨_, rfl, rfl⟩
    have hpick : s.pick r.draws = some rowIV := by
      rw [pick, if_neg (by omega), hrow]
      rfl
    have hlookup := h.ordered.lookup_getRow hrow
    obtain ⟨client, hread, hsynced⟩ :=
      h.synced.read (by omega) rfl rfl (hready rowIV hpick) false false
    have hresult : s.driver.server.result rowIV.key = (rowIV.value, none) := by
      simp [Server.result, hlookup]
    refine ⟨some rowIV, { s with client }, ?_, ⟨hsynced, h.ordered⟩, rfl,
      fun _ => ⟨rowIV, rfl, ?_, hlookup⟩⟩
    · have hread' : s.client.readFrom (P := layeredPunc A env addr) false false
          s.driver.server.staticDb r.draws.readSrc rowIV.key = some ((rowIV.value, none), client) :=
        hread.trans (congrArg (fun res => some (res, client)) hresult)
      simp [TraceState.query, hpos, hpick, hread']
    · rw [hindex, hrow]
  · exact ⟨none, s, by simp [TraceState.query, hpos], h, rfl, fun h => absurd h hpos⟩

/-- The client has the keys of the driver. -/
theorem Inv.keys (h : s.Inv n) (k : UInt32) :
    (s.client.keyToPos k).isSome ↔ k ∈ M.keys s.driver.kv := by
  obtain ⟨log, d, log₀, e, -, -, -, hclient, -⟩ := h.synced
  have hnone := hclient.keyToPos_eq_none_iff k
  rw [OrderedMap.mem_keys_iff_isSome, ← h.ordered.kv_eq, Option.isSome_iff_ne_none,
    Option.isSome_iff_ne_none]
  exact not_congr hnone

/-- A sorted list of keys has a Rice code, unless it is empty. -/
theorem keysSizeWithRice_isSome {order : List UInt32} (h : order ≠ []) :
    (keysSizeWithRice order).isSome := by
  have hne : order.mergeSort (· ≤ ·) ≠ [] := by
    intro hnil
    have hlen := congrArg List.length hnil
    rw [List.length_mergeSort] at hlen
    exact h (List.length_eq_zero_iff.mp hlen)
  rw [keysSizeWithRice, Option.isSome_map]
  cases hsort : order.mergeSort (· ≤ ·) with
  | nil => exact absurd hsort hne
  | cons first values => rfl

/-- One round. -/
theorem Inv.step (h : s.Inv n) (hn : 2 ≤ n) (hproper : Proper env addr n A s r) :
    ∃ out s', TraceState.step s r = some (out, s') ∧ Correct s r out s' ∧ s'.Inv n := by
  obtain ⟨s₁, hrefresh, hinv₁, new, hkeys⟩ := h.refresh hn hproper
  obtain ⟨out, s₂, hquery, hinv₂, hdriver, hread⟩ :=
    hinv₁.query hn (fun hpos => hproper.queries hpos s₁ hrefresh)
  have hstorage : ¬(r.i % 200 = 0 ∧ (!storageReturns s₂.client r.draws.order) = true) := by
    rintro ⟨hround, hfails⟩
    simp only [storageReturns, Bool.not_eq_true', Bool.or_eq_false_iff, decide_eq_false_iff_not]
      at hfails
    obtain ⟨htype, hnone⟩ := hfails
    obtain ⟨hrows, horder⟩ := hproper.storage hround s₁ s₂ out hrefresh hquery htype
    -- the client has one of the keys of the driver
    obtain ⟨k, hk⟩ := List.exists_mem_of_length_pos (l := M.keys s₂.driver.kv) (by
      rw [OrderedMap.length_keys]
      exact Nat.pos_of_ne_zero hrows)
    have hmem := horder k ((hinv₂.keys k).mpr hk)
    simp [keysSizeWithRice_isSome (List.ne_nil_of_mem hmem)] at hnone
  refine ⟨out, s₂, ?_, ⟨?_, new, hdriver ▸ hkeys⟩, hinv₂⟩
  · simp only [TraceState.step, hrefresh, hquery, if_neg hstorage, Option.bind_eq_bind,
      Option.bind_some]
  · rw [hdriver]
    exact hread

/-- **Replaying a trace.** The replay of a recorded trace with rows of `n` bytes, from a new driver
and a new client of type `Punc` or `DPF`, does not panic, and none of its assertions fails: whatever
rows were added and deleted, a row that the driver picks by its number is read back by its key. The
driver numbers the rows in the order in which their keys came, and deletes those that came first. -/
theorem trace_replayed (M : OrderedMap UInt32 (List UInt8)) (A : Dpf.Prf) (env : Env) (addr : ℕ)
    (hn : 2 ≤ n) (config : AddDraws) (pirType : PirType) (smallest : ℕ) (records : List TraceRow)
    (draws : ℕ → TraceDraws (layeredPunc A env addr)) :
    ∃ s, start (layeredPunc A env addr) M config n pirType smallest = some s ∧
      AlwaysUnder TraceState.step (Proper env addr n A) Correct s (traceRounds records draws) := by
  refine ⟨⟨⟨newUpdatableServer, M.new, n⟩, newClient pirType smallest⟩, rfl, ?_⟩
  refine alwaysUnder_of_invariant (Inv n) ?_ _ _ ⟨?_, ?_⟩
  · intro s r hs hproper
    exact hs.step hn hproper
  · exact ReadSystem.start_synced pirType smallest
  · exact ⟨fun k => (OrderedMap.get_new k).symm, rfl⟩

/-- Rows of two bytes, with the keys 7, 8, 9, … in the first round and 27, 28, … in the next. -/
def addFrom (c : ℕ) : AddDraws where
  src := fun i j => UInt8.ofNat (i + j)
  keys := fun i => UInt32.ofNat (7 + 20 * c + i)
  sortOps := List.insertionSort fun a b => a.key ≤ b.key

/-- The draws of each round. -/
def countingDraws (c : ℕ) : TraceDraws (layeredPunc ⟨id, id⟩ countingEnv 0) where
  add := addFrom c
  hintSrc := ReadSystem.countingSource
  initSrc := ReadSystem.countingSource
  intn := c
  readSrc := fun _ => ReadSystem.countingSource
  order := [8]

/-- The entries as a list -/
def arrivals : OrderedMap UInt32 (List UInt8) := .ofList UInt32 (List UInt8)

/-- Three rows come, then two more come and one goes; the last row of the trace is left out. -/
def threeRecords : List TraceRow := [⟨0, 3, 0, 0⟩, ⟨3600, 2, 1, 0⟩, ⟨7200, 0, 0, 1⟩]

theorem trace_replayed_three_records :
    ∃ s, start (layeredPunc ⟨id, id⟩ countingEnv 0) arrivals (addFrom 0) 2 .punc 4 = some s ∧
      AlwaysUnder TraceState.step (Proper countingEnv 0 2 ⟨id, id⟩) Correct s
        (traceRounds threeRecords countingDraws) :=
  trace_replayed arrivals ⟨id, id⟩ countingEnv 0 (by decide) (addFrom 0) .punc 4 threeRecords
    countingDraws

/-- The key that came first is deleted. -/
example :
    (((start (layeredPunc ⟨id, id⟩ countingEnv 0) arrivals (addFrom 0) 2 .punc 4).bind fun s =>
      runActions TraceState.step s (traceRounds threeRecords countingDraws)).map
        fun r => arrivals.keys r.2.driver.kv) = some [8, 9, 27, 28] := by
  decide +kernel

end TraceState

end SinglePassPIR.Driver
