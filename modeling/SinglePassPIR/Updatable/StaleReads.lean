import SinglePassPIR.Updatable.Reads
import SinglePassPIR.Updatable.LayerReads

/-!
# Reads between updates

A client of an updatable server knows the rows of its last key update. The two calls of `Update`
and the reads come to a server that has gone on since: new rows lie behind the old ones, but a
compaction renumbers the rows, and the requests for hints and answers name rows by their numbers.
Nor does a client find the rows of a layer whose hint is missing.

`ReadSystem` keeps the server as it was at the last key update beside the one that is, and
`ReadSystem.Unmoved` says when a step finds the rows where the client has them. A piece that is cut
out of a table may reach behind its rows, into what `append` has left there.

## Main results

* `Client.SyncedTo.sync`, `Client.SyncedTo.hint`, `Client.SyncedTo.readFrom` — the steps of a client.
* `spareStep_synced` — reads of rows that have not moved, along every run, for every PIR type that is
  sound.
-/

namespace SinglePassPIR.Updatable
open Pir KeyLog

variable {P : PirImpl}

/-! ## Reads with honest answers -/

/-- `Read` with both answers processed on `db`; a server that panics does not answer. -/
def Client.readFrom (callAsync rightFirst : Bool) (db : StaticDB) (src : ℕ → P.Source)
    (c : Client P.Client) (key : UInt32) :
    Option ((List UInt8 × Option String) × Client P.Client) :=
  match c.keyToPos key with
  | none => some (([], some "key not found"), c)
  | some pos => do
      let ((reqL, reqR, _), _) ← c.waterfall.query src pos
      let respL ← reqL.process P db
      let respR ← reqR.process P db
      c.read callAsync rightFirst
        (fun s _ => onSide (respL.map .answers) (respR.map .answers) s) src key

variable {callAsync rightFirst : Bool} {db : StaticDB} {src : ℕ → P.Source} {c : Client P.Client}
  {key : UInt32}

/-- A read that returned: it was answered by both servers, and a row or an error came out of the
answers. -/
theorem Client.readFrom_cases (hP : ∀ q db err, P.process q db ≠ some (.error err)) {pos : ℤ}
    (hkey : c.keyToPos key = some pos) {row : List UInt8} {err : Option String}
    {c' : Client P.Client} (h : c.readFrom callAsync rightFirst db src key = some ((row, err), c')) :
    ∃ reqL reqR ctx waterfall respsL respsR res waterfall',
      c.waterfall.query src pos = some ((reqL, reqR, ctx), waterfall) ∧
      reqL.process P db = some (.ok respsL) ∧ reqR.process P db = some (.ok respsR) ∧
      waterfall.reconstruct ctx respsL respsR = some (res, waterfall') ∧
      c' = { c with waterfall := waterfall' } ∧ (err = none → res = .ok row) := by
  simp only [readFrom, hkey, Option.bind_eq_bind, Option.bind_eq_some_iff] at h
  obtain ⟨⟨⟨reqL, reqR, ctx⟩, waterfall⟩, hquery, respL, hL, respR, hR, h⟩ := h
  cases respL with
  | error errL => exact absurd hL (processReqs_ne_error hP _ _ _)
  | ok respsL =>
      cases respR with
      | error errR => exact absurd hR (processReqs_ne_error hP _ _ _)
      | ok respsR =>
          rw [read_eq hkey, hquery, Option.bind_some] at h
          simp only [onSide_left, onSide_right, Except.map, WaterfallClient.reconstructFunc,
            Option.map_eq_some_iff] at h
          obtain ⟨⟨res, waterfall'⟩, hrec, h⟩ := h
          refine ⟨reqL, reqR, ctx, waterfall, respsL, respsR, res, waterfall', hquery, hL, hR, hrec,
            ?_⟩
          cases res with
          | error e =>
              simp only [Prod.mk.injEq] at h
              obtain ⟨⟨-, rfl⟩, rfl⟩ := h
              exact ⟨rfl, by simp⟩
          | ok row' =>
              simp only [Prod.mk.injEq] at h
              obtain ⟨⟨rfl, -⟩, rfl⟩ := h
              exact ⟨rfl, fun _ => rfl⟩

/-- A read that both servers answered, and whose row came out of the answers. -/
theorem Client.readFrom_eq {pos : ℤ} (hkey : c.keyToPos key = some pos)
    {reqL reqR : UpdatableQueryReq P.QueryReq} {ctx : WaterfallCtx P}
    {waterfall waterfall' : WaterfallClient P.Client} {respsL respsR : List P.Resp} {row : List UInt8}
    (hquery : c.waterfall.query src pos = some ((reqL, reqR, ctx), waterfall))
    (hL : reqL.process P db = some (.ok respsL)) (hR : reqR.process P db = some (.ok respsR))
    (hrec : waterfall.reconstruct ctx respsL respsR = some (.ok row, waterfall')) :
    c.readFrom callAsync rightFirst db src key =
      some ((row, none), { c with waterfall := waterfall' }) := by
  simp only [readFrom, hkey, hquery, hL, hR, Option.bind_eq_bind, Option.bind_some]
  rw [read_eq hkey, hquery, Option.bind_some]
  simp only [onSide_left, onSide_right, Except.map, WaterfallClient.reconstructFunc, hrec,
    Option.map_some]

/-! ## The rows of a server -/

section
variable {n d e : ℕ} {s s' : Server} {log log' : List DbOp}

theorem Server.Logged.wf (h : s.Logged n log d) (hne : s.staticDb.numRows ≠ 0) :
    s.staticDb.WF n where
  rowLen_eq := by
    refine h.rowLen_eq.resolve_right fun hz => hne ?_
    rw [h.numRows_eq, opsToRows, hz.2]
    rfl
  length_eq := by
    have hlen : ∀ row ∈ opsToRows s.ops, row.length = n := by
      intro row hrow
      obtain ⟨o, ho, rfl⟩ := List.mem_map.mp hrow
      rw [List.mem_filter, h.ops_eq] at ho
      exact h.length_eq o (compacted_subset log d ho.1) (by simpa using ho.2)
    rw [h.flatDb_eq, h.numRows_eq, List.length_flatten, List.map_congr_left hlen]
    simp

/-- Rows that a server adds lie behind the old ones, as long as it does not compact. -/
theorem Server.Logged.flatDb_prefix (h : s.Logged n log d) (h' : s'.Logged n log' d)
    (hpre : log <+: log') : s.staticDb.flatDb <+: s'.staticDb.flatDb := by
  obtain ⟨batch, rfl⟩ := hpre
  have hops : s'.ops = s.ops ++ batch := by
    rw [h'.ops_eq, h.ops_eq, compactedOps, compactedOps, compacted_append h.le_length]
  rw [h'.flatDb_eq, h.flatDb_eq, hops, opsToRows_append, List.flatten_append]
  exact List.prefix_append _ _

end

/-- Rows of a prefix. -/
theorem rowAt_prefix {n i : ℕ} {data data' : List UInt8} (h : data <+: data')
    (hend : i * n + n ≤ data.length) : rowAt n data i = rowAt n data' i := by
  obtain ⟨more, rfl⟩ := h
  apply Bytes.ext
  intro k hk
  rw [byte_rowAt _ _ hk, byte_rowAt _ _ hk, getD_append, if_pos (by omega)]

/-- The piece can be cut out of both tables, and is the same. -/
def SamePiece (db synced : StaticDB) (firstRow numRows : ℕ) : Prop :=
  db.rowLen = synced.rowLen ∧ ∃ flat, db.slice firstRow (firstRow + numRows) = some flat ∧
    synced.slice firstRow (firstRow + numRows) = some flat

/-- A hint of a piece that is the same. -/
theorem SamePiece.process_eq {db synced : StaticDB} {req : UpdatableHintReq P.HintReq}
    (h : SamePiece db synced req.firstRow req.numRows) : req.process P db = req.process P synced := by
  obtain ⟨hlen, flat, hdb, hsynced⟩ := h
  rw [UpdatableHintReq.process, UpdatableHintReq.process, hdb, hsynced, hlen]

/-! ## A client and the server of its last key update -/

namespace Client

/-- The client knows the keys of the server `s`, and its layers are for the rows of `s`, less the
last `m` ones, which are still to be given to them. -/
structure SyncedTo (K : PirType → StaticDB → P.Client → Prop) (n : ℕ) (c : Client P.Client)
    (s : Server) (m : ℕ) (log : List DbOp) (e : ℕ) : Prop where
  logged : s.Logged n log e
  small : log.length < 2 ^ 31
  follows : c.Follows log log.length e
  served : ∃ data, c.waterfall.Serves K data ∧ data <+: s.staticDb.flatDb
  count : c.waterfall.numRows + m = c.numRows
  rowLen_eq : c.waterfall.numRows ≠ 0 → c.waterfall.rowLen = n

variable {K : PirType → StaticDB → P.Client → Prop} {R : StaticDB → P.Source → P.Client → ℕ → Prop}
variable {n m d e : ℕ} {s s₀ : Server} {log log₀ : List DbOp}

/-- What a client knows of the keys does not depend on its layers. -/
theorem Follows.with_waterfall {t : ℕ} (h : c.Follows log t e)
    (waterfall : WaterfallClient P.Client) :
    ({ c with waterfall } : Client P.Client).Follows log t e :=
  ⟨h.le_length, h.le, h.ops_eq, h.initialTimestamp_eq, h.defragTimestamp_eq, h.positions_eq⟩

theorem newClient_syncedTo (pirType : PirType) (smallest : ℕ) :
    SyncedTo K n (newClient pirType smallest) newUpdatableServer 0 [] 0 where
  logged := newUpdatableServer_logged n
  small := Nat.two_pow_pos 31
  follows := newClient_follows pirType smallest []
  served := ⟨[], WaterfallClient.serves_empty rfl rfl, List.nil_prefix⟩
  count := rfl
  rowLen_eq := fun h => absurd rfl h

/-- The client counts the rows of the server. -/
theorem SyncedTo.numRows_eq (h : c.SyncedTo K n s m log e) : c.numRows = s.staticDb.numRows := by
  have hpos := congrArg Prod.fst h.follows.positions_eq
  rw [positions_fst, h.follows.ops_eq_wire h.logged] at hpos
  refine hpos.trans ?_
  rw [h.logged.numRows_eq, opsToRows, List.length_map, puts, List.filter_map, List.length_map]
  rfl

section
variable {ρ : Type} {C : KeyCodec ρ}

/-- **A key update** brings the client to the server as it is. -/
theorem SyncedTo.sync (h : c.SyncedTo K n s₀ 0 log₀ e) (hlogged : s.Logged n log d)
    (hpre : log₀ <+: log) (hed : e ≤ d) (h31 : log.length < 2 ^ 31)
    (hC : s.sentOps c.keyUpdatesReq ≠ [] →
      C.Carries ((s.sentOps c.keyUpdatesReq).map DbOp.key)) :
    ∃ resp m c', s.keyUpdates C c.keyUpdatesReq = some resp ∧
      c.processKeyUpdate C resp = some (.ok m, c') ∧ resp.rowLen = s.staticDb.rowLen ∧
      c'.SyncedTo K n s m log d ∧ c.Pending c' e d m := by
  have hfollows : c.Follows log log₀.length e := by
    obtain ⟨batch, rfl⟩ := hpre
    exact h.follows.append batch
  obtain ⟨resp, m, c', hresp, hprocess, hc', hrowLen, hpending⟩ :=
    sync_spec hlogged h31 hfollows hed hC
  refine ⟨resp, m, c', hresp, hprocess, hrowLen, ⟨hlogged, h31, hc', ?_, ?_, ?_⟩, hpending⟩
  all_goals by_cases heq : e = d
  · obtain ⟨data, hserves, hdata⟩ := h.served
    subst heq
    rw [(hpending.same rfl).1]
    exact ⟨data, hserves, hdata.trans (h.logged.flatDb_prefix hlogged hpre)⟩
  · rw [(hpending.reset (by omega)).1]
    exact ⟨[], WaterfallClient.serves_empty rfl rfl, List.nil_prefix⟩
  · obtain ⟨hwaterfall, hnum⟩ := hpending.same heq
    have hcount := h.count
    rw [hwaterfall, hnum]
    omega
  · obtain ⟨hwaterfall, hnum⟩ := hpending.reset (by omega)
    rw [hwaterfall, hnum]
    exact Nat.zero_add m
  · rw [(hpending.same heq).1]
    exact h.rowLen_eq
  · rw [(hpending.reset (by omega)).1]
    exact fun hne => absurd rfl hne

end

/-- **The rest of an update** gives the new rows to the layers, also if its hint does not come. -/
theorem SyncedTo.hint
    (hbuilt : ∀ t table client, table.WF table.rowLen → table.numRows ≠ 0 →
      WaterfallClient.Built P t table client → K t table client)
    (h : c.SyncedTo K n s m log e) (hm : m ≠ 0)
    {hint : UpdatableHintReq P.HintReq → Option (Except String P.HintResp)}
    (hhonest : ∀ req resp, hint req = some (.ok resp) →
      ∃ db, Stores s.staticDb.rowLen s.staticDb.flatDb db ∧ req.process P db = some (.ok resp))
    {hintSrc initSrc : P.Source} {res : Except String Unit} {waterfall : WaterfallClient P.Client}
    (hfetch : c.waterfall.fetchHint hint hintSrc initSrc m s.staticDb.rowLen =
      some (res, waterfall)) :
    ({ c with waterfall } : Client P.Client).SyncedTo K n s 0 log e ∧
      (res = .ok () → WaterfallClient.Hinted c.waterfall.layers →
        WaterfallClient.Hinted waterfall.layers) := by
  obtain ⟨data, hserves, hdata⟩ := h.served
  have hcount := h.count
  have hrows := h.numRows_eq
  have hwf := h.logged.wf (by omega)
  obtain ⟨hserves', hnum, hrowLen, hhinted⟩ := hserves.fetchHint (by omega) hbuilt
    (fun hne => hwf.rowLen_eq.trans (h.rowLen_eq hne).symm) hdata
    (by rw [hwf.length_eq, hwf.rowLen_eq, h.count, hrows])
    hhonest hfetch
  refine ⟨⟨h.logged, h.small, h.follows.with_waterfall _, ⟨_, hserves', List.prefix_rfl⟩, ?_, ?_⟩,
    hhinted⟩
  · change waterfall.numRows + 0 = c.numRows
    omega
  · intro _
    exact hrowLen.trans hwf.rowLen_eq

/-- What a read of the key relies on, with the layers lying over the rows of `db`. -/
def Relies (R : StaticDB → P.Source → P.Client → ℕ → Prop) (c : Client P.Client) (db : StaticDB)
    (src : ℕ → P.Source) (key : UInt32) : Prop :=
  ∀ pos : ℕ, c.keyToPos key = some (pos : ℤ) →
    ∀ (j : ℕ) layer client, c.waterfall.layers[j]? = some layer → layer.pir = some client →
      Covers ClientLayer.firstRow ClientLayer.numRows pos layer →
      R (tableAt db.rowLen db.flatDb layer.firstRow layer.numRows) (src j) client
        (pos - layer.firstRow)

/-- The server has the piece of the layer with the key where it was, and the read can be relied on. -/
def Unmoved (R : StaticDB → P.Source → P.Client → ℕ → Prop) (c : Client P.Client)
    (db synced : StaticDB) (src : ℕ → P.Source) (key : UInt32) : Prop :=
  (∀ pos : ℕ, c.keyToPos key = some (pos : ℤ) → ∀ layer ∈ c.waterfall.layers, layer.pir.isSome →
    Covers ClientLayer.firstRow ClientLayer.numRows pos layer →
    SamePiece db synced layer.firstRow layer.numRows) ∧ c.Relies R synced src key

/-- The server has the row of a key where the client has it. -/
theorem SyncedTo.lookup_eq (h : c.SyncedTo K n s m log e) {pos : ℤ}
    (hkey : c.keyToPos key = some pos) :
    ∃ i : ℕ, pos = i ∧ i < s.staticDb.numRows ∧
      s.kv.lookup key = some (rowAt n s.staticDb.flatDb i).toList := by
  have hsync := h.follows.inSync h.logged h.small
  have hmem : key ∈ s.kv := (hsync.keys_eq key).mp (by rw [hkey]; rfl)
  obtain ⟨v, hv⟩ := Option.isSome_iff_exists.mp (AList.lookup_isSome.mpr hmem)
  obtain ⟨i, hi, hlt, hrow⟩ := hsync.rows_eq key v hv
  rw [hkey, Option.some.injEq] at hi
  rw [StaticDB.row_eq (h.logged.wf (by omega)) hlt, Option.some.injEq] at hrow
  exact ⟨i, hi, hlt, by rw [hv, ← hrow, StaticDB.get]⟩

/-- The client has the row length of the server, if it has rows. -/
theorem SyncedTo.staticDb_rowLen (h : c.SyncedTo K n s m log e) (hne : c.waterfall.numRows ≠ 0) :
    s.staticDb.rowLen = c.waterfall.rowLen := by
  have hcount := h.count
  have hrows := h.numRows_eq
  exact (h.logged.wf (by omega)).rowLen_eq.trans (h.rowLen_eq hne).symm

/-- A piece that has not moved is the one that the layer is for. -/
theorem SyncedTo.holdsLayer (h : c.SyncedTo K n s m log e) {data : List UInt8}
    (hserves : c.waterfall.Serves K data) (hdata : data <+: s.staticDb.flatDb)
    {layer : ClientLayer P.Client} (hl : layer ∈ c.waterfall.layers) (hne : layer.numRows ≠ 0)
    (hsame : SamePiece db s.staticDb layer.firstRow layer.numRows) :
    WaterfallClient.HoldsLayer db c.waterfall.rowLen data layer := by
  intro flat hflat
  obtain ⟨hend, hbytes⟩ := hserves.layer_end hl hne
  have hrowLen := h.staticDb_rowLen (by omega)
  have hstores : Stores c.waterfall.rowLen data s.staticDb := ⟨hrowLen, hdata⟩
  obtain ⟨hlen, flat', hdb, hsynced⟩ := hsame
  rw [hflat, Option.some.injEq] at hdb
  rw [hstores.slice_eq hbytes, Option.some.injEq] at hsynced
  exact ⟨hlen.trans hrowLen, hdb.trans hsynced.symm⟩

/-- **A read** of a row that has not moved leaves the client up to date, and a row that comes back
is the one that the key had. -/
theorem SyncedTo.readFrom (hP : P.Sound K R) (h : c.SyncedTo K n s m log e)
    (hhinted : (c.keyToPos key).isSome → ∃ m', WaterfallClient.HintedUpTo c.waterfall.layers m')
    (hunmoved : c.Unmoved R db s.staticDb src key) {row : List UInt8} {err : Option String}
    {c' : Client P.Client}
    (hread : c.readFrom callAsync rightFirst db src key = some ((row, err), c')) :
    c'.SyncedTo K n s m log e ∧ (err = none → s.kv.lookup key = some row) ∧
      (WaterfallClient.Hinted c.waterfall.layers → WaterfallClient.Hinted c'.waterfall.layers) := by
  cases hkey : c.keyToPos key with
  | none =>
      simp only [Client.readFrom, hkey, Option.some.injEq, Prod.mk.injEq] at hread
      obtain ⟨⟨-, rfl⟩, rfl⟩ := hread
      exact ⟨h, by simp, id⟩
  | some p =>
      obtain ⟨pos, rfl, hlt, hlookup⟩ := h.lookup_eq hkey
      obtain ⟨m', hhinted⟩ := hhinted (by rw [hkey]; rfl)
      obtain ⟨hsame, hrelies⟩ := hunmoved
      obtain ⟨reqL, reqR, ctx, waterfall, respsL, respsR, res, waterfall', hquery, hL, hR, hrec, rfl,
        hres⟩ := readFrom_cases (fun q db err => hP.process_ne_error q db err) hkey hread
      obtain ⟨data, hserves, hdata⟩ := h.served
      by_cases hpos : pos < m'
      · have hfront := hhinted
        obtain ⟨hinted, rest, hlayers, hclients, -, rfl⟩ := hhinted
        obtain ⟨htiles, hle, hbytes⟩ := hserves.front hlayers
        have hrowLen := h.staticDb_rowLen (by omega)
        have hpiece : ∀ (j : ℕ) layer client, c.waterfall.layers[j]? = some layer →
            layer.pir = some client → Covers ClientLayer.firstRow ClientLayer.numRows pos layer →
            WaterfallClient.HoldsLayer db c.waterfall.rowLen data layer ∧
              R (tableAt c.waterfall.rowLen data layer.firstRow layer.numRows) (src j) client
                (pos - layer.firstRow) := by
          intro j layer client hget hpir hcov
          have hl := List.mem_of_getElem? hget
          have hpiece := hsame pos hkey layer hl (by rw [hpir]; rfl) hcov
          have hrely := hrelies pos hkey j layer client hget hpir hcov
          rw [hrowLen, tableAt_more hdata (hserves.layer_end hl hcov.size_ne_zero).2] at hrely
          exact ⟨h.holdsLayer hserves hdata hl hcov.size_ne_zero hpiece, hrely⟩
        obtain ⟨⟨layers', rfl, hrenewed⟩, hrow⟩ :=
          hserves.read_keeps hP hfront hpos hpiece hquery hL hR hrec
        refine ⟨⟨h.logged, h.small, h.follows.with_waterfall _, ⟨data, hserves.renew hrenewed, hdata⟩,
          h.count, h.rowLen_eq⟩, ?_, fun hall => hall.renew hrenewed⟩
        intro herr
        have hend := block_end_le (w := c.waterfall.rowLen) hpos
        rw [hlookup, hrow row (hres herr), ← h.rowLen_eq (by omega), rowAt_prefix hdata (by omega)]
      · -- the closure has no function to call
        obtain ⟨hinted, rest, hlayers, hhinted, hrest, rfl⟩ := hhinted
        have hnone := WaterfallClient.query_past hlayers hrest (hserves.front hlayers).1
          (hserves.active hhinted (by rw [hlayers]; exact List.subset_append_left ..))
          (Nat.le_of_not_lt hpos) hquery
        simp [WaterfallClient.reconstruct, hnone] at hrec

end Client

/-- The client uses its hint only for the request that it makes. -/
theorem WaterfallClient.fetchHint_congr {w : WaterfallClient P.Client}
    {hint hint' : UpdatableHintReq P.HintReq → Option (Except String P.HintResp)}
    {hintSrc initSrc : P.Source} {m rowLen : ℕ}
    (h : ∀ req w', w.hintUpdateReq hintSrc m rowLen = some (.ok (some req), w') →
      hint req = hint' req) :
    w.fetchHint hint hintSrc initSrc m rowLen = w.fetchHint hint' hintSrc initSrc m rowLen := by
  rw [fetchHint, fetchHint]
  cases hreq : w.hintUpdateReq hintSrc m rowLen with
  | none => rfl
  | some r =>
      obtain ⟨_ | _ | req, w'⟩ := r
      · rfl
      · rfl
      · simp [h req w' hreq]

/-- The servers of a PIR type whose hints do not fail. -/
theorem WaterfallClient.fetchHint_ok (hP : ∀ req db err, P.processHint req db ≠ some (.error err))
    {c c' : WaterfallClient P.Client} {db : StaticDB} {src initSrc : P.Source} {n rowLen : ℕ}
    (hc : LayersTile 0 c.layers c.numRows) (hn : n ≠ 0) {res : Except String Unit}
    (h : c.fetchHint (·.process P db) src initSrc n rowLen = some (res, c')) : res = .ok () := by
  obtain ⟨upper, lower, maxSize, k, t, hinted, -, hhint, hcases⟩ :=
    fetchHint_cases hc (Nat.one_le_iff_ne_zero.mpr hn) h
  rcases hcases with ⟨err, rfl, -, -⟩ | ⟨resp, initSrc', client, -, hres, -, -⟩
  · by_cases ht : t.layered
    · simp only [ht, if_true, UpdatableHintReq.process, Option.bind_eq_bind,
        Option.bind_eq_some_iff] at hhint
      obtain ⟨flat, -, hhint⟩ := hhint
      exact absurd hhint (hP _ _ err)
    · rw [if_neg ht] at hhint
      exact absurd hhint (hP _ _ err)
  · exact hres

/-! ## Runs -/

/-- A server and a client, with the server as it was at the client's last key update and the rows
that the update has still to fetch a hint for: their number and their length. -/
structure ReadSystem (P : PirImpl) where
  server : Server
  client : Client P.Client
  synced : Server
  pending : Option (ℕ × ℕ)

/-- A call of the server, one of the two calls of an update, or a read. -/
inductive ReadAction (P : PirImpl)
  | server (a : ServerAction)
  | sync
  | hint (src initSrc : P.Source)
  | read (callAsync rightFirst : Bool) (src : ℕ → P.Source) (key : UInt32)

namespace ReadSystem

/-- A new server and a new client. -/
def start (P : PirImpl) (pirType : PirType) (smallest : ℕ) : ReadSystem P :=
  ⟨newUpdatableServer, newClient pirType smallest, newUpdatableServer, none⟩

/-- The first half of `Update`, which no other update interrupts. -/
def sync (s : ReadSystem P) : Option (ReadSystem P) :=
  if s.pending.isSome then none
  else do
    let resp ← s.server.keyUpdates riceCodec s.client.keyUpdatesReq
    match ← s.client.processKeyUpdate riceCodec resp with
    | (.error _, client) => some { s with client }
    | (.ok m, client) =>
        some { s with
          client, synced := s.server, pending := if m = 0 then none else some (m, resp.rowLen) }

/-- The second half of `Update`, with a hint of the table `db`. -/
def hintFrom (db : StaticDB) (src initSrc : P.Source) (s : ReadSystem P) : Option (ReadSystem P) := do
  let (m, rowLen) ← s.pending
  let (_, waterfall) ← s.client.waterfall.fetchHint (·.process P db) src initSrc m rowLen
  some { s with client := { s.client with waterfall }, pending := none }

/-- The second half of `Update`, with a hint of the server as it is. -/
def hint (src initSrc : P.Source) (s : ReadSystem P) : Option (ReadSystem P) :=
  s.hintFrom s.server.staticDb src initSrc

/-- One step, with the result of a read; hints and answers are of the table `db`. -/
def stepFrom (db : StaticDB) (s : ReadSystem P) :
    ReadAction P → Option (Option (List UInt8 × Option String) × ReadSystem P)
  | .server a => do some (none, { s with server := ← s.server.step a })
  | .sync => do some (none, ← s.sync)
  | .hint src initSrc => do some (none, ← s.hintFrom db src initSrc)
  | .read callAsync rightFirst src key => do
      let (result, client) ← s.client.readFrom callAsync rightFirst db src key
      some (some result, { s with client })

/-- One step, as long as no piece reaches behind the rows of the server. -/
def step (s : ReadSystem P) (a : ReadAction P) :
    Option (Option (List UInt8 × Option String) × ReadSystem P) :=
  s.stepFrom s.server.staticDb a

/-- One step, with the bytes that `append` has left behind the rows of the server. -/
def spareStep (s : ReadSystem P) (a : ReadAction P × List UInt8) :
    Option (Option (List UInt8 × Option String) × ReadSystem P) :=
  s.stepFrom (s.server.staticDb.withSpare a.2) a.1

/-- Calls have rows of `n` bytes, key updates come while timestamps fit an `int32` and send
sorted keys only if they fit the Rice code, and hints and answers are made from pieces that are
where the client has them. -/
def Unmoved (R : StaticDB → P.Source → P.Client → ℕ → Prop) (n : ℕ) (s : ReadSystem P)
    (a : ReadAction P × List UInt8) : Prop :=
  match a.1 with
  | .server b => b.Valid n
  | .sync => s.server.initialTimestamp + s.server.ops.length < 2 ^ 31 ∧
      let keys := (s.server.sentOps s.client.keyUpdatesReq).map DbOp.key
      keys.Pairwise (· ≤ ·) → RiceFits keys
  | .hint src _ => ∀ m rowLen req waterfall, s.pending = some (m, rowLen) →
      s.client.waterfall.hintUpdateReq src m rowLen = some (.ok (some req), waterfall) →
      SamePiece (s.server.staticDb.withSpare a.2) s.synced.staticDb req.firstRow req.numRows
  | .read _ _ src key =>
      s.client.Unmoved R (s.server.staticDb.withSpare a.2) s.synced.staticDb src key

/-- A read without an error returns the row that the key had at the last key update. -/
def ReadsSynced (s : ReadSystem P) (a : ReadAction P × List UInt8)
    (result : Option (List UInt8 × Option String)) (_ : ReadSystem P) : Prop :=
  ∀ callAsync rightFirst src key row, a.1 = .read callAsync rightFirst src key →
    result = some (row, none) → s.synced.kv.lookup key = some row

/-- The server has gone on since the key update. The client knows the keys of that one, and lacks no
hint but the one that it awaits. -/
def Synced (K : PirType → StaticDB → P.Client → Prop) (n : ℕ) (s : ReadSystem P) : Prop :=
  ∃ log d log₀ e, s.server.Logged n log d ∧ log₀ <+: log ∧ e ≤ d ∧
    s.client.SyncedTo K n s.synced ((s.pending.map Prod.fst).getD 0) log₀ e ∧
    WaterfallClient.Hinted s.client.waterfall.layers ∧
    ∀ m rowLen, s.pending = some (m, rowLen) → m ≠ 0 ∧ rowLen = s.synced.staticDb.rowLen

variable {K : PirType → StaticDB → P.Client → Prop} {R : StaticDB → P.Source → P.Client → ℕ → Prop}
variable {n : ℕ} {s s' : ReadSystem P}

theorem start_synced (pirType : PirType) (smallest : ℕ) :
    (start P pirType smallest).Synced K n := by
  refine ⟨[], 0, [], 0, newUpdatableServer_logged n, List.prefix_rfl, Nat.le_refl 0,
    Client.newClient_syncedTo pirType smallest, by simp [start, newClient, WaterfallClient.new,
      WaterfallClient.Hinted], ?_⟩
  intro m rowLen hsome
  cases hsome

/-- A call of the server. -/
theorem Synced.server (h : s.Synced K n) {a : ServerAction} (hvalid : a.Valid n) :
    ∃ server, s.server.step a = some server ∧ ({ s with server } : ReadSystem P).Synced K n := by
  obtain ⟨log, d, log₀, e, hlogged, hpre, hed, hclient⟩ := h
  obtain ⟨server', d', hserver, hlogged', hle⟩ := Server.step_logged hlogged hvalid
  exact ⟨server', hserver, log ++ a.ops, d', log₀, e, hlogged',
    hpre.trans (List.prefix_append _ _), hed.trans hle, hclient⟩

/-- **The first half of an update.** -/
theorem Synced.sync (h : s.Synced K n) (hnone : s.pending = none)
    (hnext : s.server.initialTimestamp + s.server.ops.length < 2 ^ 31)
    (hfits : ((s.server.sentOps s.client.keyUpdatesReq).map DbOp.key).Pairwise (· ≤ ·) →
      RiceFits ((s.server.sentOps s.client.keyUpdatesReq).map DbOp.key)) :
    ∃ s', s.sync = some s' ∧ s'.Synced K n ∧ s'.server = s.server ∧ s'.synced = s.server := by
  obtain ⟨log, d, log₀, e, hlogged, hpre, hed, hclient, hhinted, -⟩ := h
  rw [hnone] at hclient
  have h31 : log.length < 2 ^ 31 := by
    have hlen := hlogged.initialTimestamp_eq
    omega
  obtain ⟨resp, m, c', hresp, hprocess, hrowLen, hclient', hpending⟩ :=
    Client.SyncedTo.sync hclient hlogged hpre hed h31
      (fun hne => riceCodec_carries (by simpa using hne) hfits)
  -- the layers stay, or all go
  have hhinted' : WaterfallClient.Hinted c'.waterfall.layers := by
    by_cases heq : e = d
    · rw [(hpending.same heq).1]
      exact hhinted
    · rw [(hpending.reset (by omega)).1]
      simp [WaterfallClient.Hinted, WaterfallClient.reset]
  refine ⟨⟨s.server, c', s.server, if m = 0 then none else some (m, resp.rowLen)⟩, ?_, ⟨log, d, log, d,
    hlogged, List.prefix_rfl, Nat.le_refl d, ?_, hhinted', ?_⟩, rfl, rfl⟩
  · simp only [ReadSystem.sync, hnone, Option.isSome_none, Bool.false_eq_true, if_false, hresp,
      hprocess, Option.bind_eq_bind, Option.bind_some]
  · by_cases hm : m = 0
    · simpa [hm] using hclient'
    · simpa [hm] using hclient'
  · intro m' rowLen hsome
    by_cases hm : m = 0
    · simp [hm] at hsome
    · simp only [if_neg hm, Option.some.injEq, Prod.mk.injEq] at hsome
      rw [← hsome.1, ← hsome.2]
      exact ⟨hm, hrowLen⟩

/-- **The second half of an update.** Its hint is made from a table that answers the request as one
with the rows of the last key update does. -/
theorem Synced.hint_arrives (h : s.Synced K n)
    (hbuilt : ∀ t table client, table.WF table.rowLen → table.numRows ≠ 0 →
      WaterfallClient.Built P t table client → K t table client)
    (hP : ∀ req db err, P.processHint req db ≠ some (.error err)) {db db' : StaticDB}
    (hstores : s.synced.staticDb.numRows ≠ 0 →
      Stores s.synced.staticDb.rowLen s.synced.staticDb.flatDb db') {hintSrc initSrc : P.Source}
    (hsame : ∀ m rowLen req waterfall, s.pending = some (m, rowLen) →
      s.client.waterfall.hintUpdateReq hintSrc m rowLen = some (.ok (some req), waterfall) →
      req.process P db = req.process P db')
    (hhint : s.hintFrom db hintSrc initSrc = some s') : s'.Synced K n := by
  obtain ⟨log, d, log₀, e, hlogged, hpre, hed, hclient, hhinted, hpending⟩ := h
  simp only [ReadSystem.hintFrom, Option.bind_eq_bind, Option.bind_eq_some_iff, Option.some.injEq]
    at hhint
  obtain ⟨⟨m, rowLen⟩, hsome, ⟨res, waterfall⟩, hfetch, rfl⟩ := hhint
  obtain ⟨hm, rfl⟩ := hpending m rowLen hsome
  rw [hsome] at hclient
  have hcount := hclient.count
  have hrows := hclient.numRows_eq
  have hm' : ((some (m, s.synced.staticDb.rowLen)).map Prod.fst).getD 0 = m := rfl
  rw [hm'] at hclient hcount
  have hne : s.synced.staticDb.numRows ≠ 0 := by omega
  rw [WaterfallClient.fetchHint_congr fun req w' hreq => hsame m _ req w' hsome hreq] at hfetch
  obtain ⟨hclient', hkeeps⟩ :=
    hclient.hint hbuilt hm (fun _ _ hreq => ⟨db', hstores hne, hreq⟩) hfetch
  obtain ⟨data, hserves, -⟩ := hclient.served
  have hok := WaterfallClient.fetchHint_ok hP hserves.layered.tiles hm hfetch
  refine ⟨log, d, log₀, e, hlogged, hpre, hed, hclient', hkeeps hok hhinted, ?_⟩
  intro m'' rowLen' hnone
  cases hnone

/-- A hint of a piece that has not moved. -/
theorem Synced.hintFrom (hP : P.Sound K R) (h : s.Synced K n) {db : StaticDB}
    {hintSrc initSrc : P.Source}
    (hsame : ∀ m rowLen req waterfall, s.pending = some (m, rowLen) →
      s.client.waterfall.hintUpdateReq hintSrc m rowLen = some (.ok (some req), waterfall) →
      SamePiece db s.synced.staticDb req.firstRow req.numRows)
    (hhint : s.hintFrom db hintSrc initSrc = some s') : s'.Synced K n :=
  h.hint_arrives hP.built hP.processHint_ne_error (fun _ => ⟨rfl, List.prefix_rfl⟩)
    (fun m rowLen req waterfall hsome hreq =>
      SamePiece.process_eq (hsame m rowLen req waterfall hsome hreq)) hhint

/-- **A read.** -/
theorem Synced.readFrom (hP : P.Sound K R) (h : s.Synced K n) {db : StaticDB}
    {callAsync rightFirst : Bool} {src : ℕ → P.Source} {key : UInt32}
    (hunmoved : s.client.Unmoved R db s.synced.staticDb src key) {row : List UInt8}
    {err : Option String} {client : Client P.Client}
    (hread : s.client.readFrom callAsync rightFirst db src key = some ((row, err), client)) :
    ({ s with client } : ReadSystem P).Synced K n ∧
      (err = none → s.synced.kv.lookup key = some row) := by
  obtain ⟨log, d, log₀, e, hlogged, hpre, hed, hclient, hhinted, hpending⟩ := h
  obtain ⟨hclient', hrow, hkeeps⟩ :=
    hclient.readFrom hP (fun _ => ⟨_, hhinted.hintedUpTo⟩) hunmoved hread
  exact ⟨⟨log, d, log₀, e, hlogged, hpre, hed, hclient', hkeeps hhinted, hpending⟩, hrow⟩

/-- **One step** of the system. -/
theorem Synced.spareStep (hP : P.Sound K R) (h : s.Synced K n) {a : ReadAction P × List UInt8}
    {result : Option (List UInt8 × Option String)} (hguard : s.Unmoved R n a)
    (hstep : s.spareStep a = some (result, s')) : s.ReadsSynced a result s' ∧ s'.Synced K n := by
  obtain ⟨a, spare⟩ := a
  cases a with
  | server a =>
      obtain ⟨server, hserver, hs'⟩ := h.server hguard
      simp only [ReadSystem.spareStep, stepFrom, hserver, Option.bind_eq_bind, Option.bind_some,
        Option.some.injEq, Prod.mk.injEq] at hstep
      obtain ⟨rfl, rfl⟩ := hstep
      exact ⟨by simp [ReadsSynced], hs'⟩
  | sync =>
      simp only [ReadSystem.spareStep, stepFrom, Option.bind_eq_bind, Option.bind_eq_some_iff,
        Option.some.injEq, Prod.mk.injEq] at hstep
      obtain ⟨s₁, hsync, rfl, rfl⟩ := hstep
      have hnone : s.pending = none := by
        by_contra hsome
        rw [← ne_eq, Option.ne_none_iff_isSome] at hsome
        simp [ReadSystem.sync, hsome] at hsync
      obtain ⟨s₂, hsync', hs₂, -, -⟩ := h.sync hnone hguard.1 hguard.2
      obtain rfl : s₂ = s₁ := Option.some.inj (hsync'.symm.trans hsync)
      exact ⟨by simp [ReadsSynced], hs₂⟩
  | hint src initSrc =>
      simp only [ReadSystem.spareStep, stepFrom, Option.bind_eq_bind, Option.bind_eq_some_iff,
        Option.some.injEq, Prod.mk.injEq] at hstep
      obtain ⟨s₁, hhint, rfl, rfl⟩ := hstep
      exact ⟨by simp [ReadsSynced], h.hintFrom hP hguard hhint⟩
  | read callAsync rightFirst src key =>
      simp only [ReadSystem.spareStep, stepFrom, Option.bind_eq_bind, Option.bind_eq_some_iff,
        Option.some.injEq, Prod.mk.injEq] at hstep
      obtain ⟨⟨⟨row, err⟩, client⟩, hread, rfl, rfl⟩ := hstep
      obtain ⟨hs', hrow⟩ := h.readFrom hP hguard hread
      refine ⟨?_, hs'⟩
      intro _ _ _ key' row' haction hresult
      cases haction
      simp only [Option.some.injEq, Prod.mk.injEq] at hresult
      exact hresult.1 ▸ hrow hresult.2

/-- **Reads of rows that have not moved** are right in every run, whatever the server does
between the two calls of an update and the reads. -/
theorem spareStep_synced (hP : P.Sound K R) (n : ℕ) (pirType : PirType) (smallest : ℕ)
    (as : List (ReadAction P × List UInt8)) :
    SafeUnder spareStep (Unmoved R n) ReadsSynced (start P pirType smallest) as := by
  refine safeUnder_of_invariant (Synced K n) ?_ as _ (start_synced pirType smallest)
  intro s a result s' h hguard hstep
  exact h.spareStep hP hguard hstep

/-! ## The type without privacy -/

/-- Its clients know nothing of their tables. -/
theorem nonPrivate_sound :
    nonPrivate.Sound (fun _ _ _ => True) fun _ _ _ _ => True where
  built := fun _ _ _ _ _ _ => trivial
  dummy := fun _ _ _ _ _ _ _ _ => trivial
  processHint_ne_error := by
    intro req db err h
    cases h
  process_ne_error := by
    intro q db err h
    simp only [nonPrivate] at h
    split at h
    · cases h
    · rw [Option.map_eq_some_iff] at h
      obtain ⟨_, -, h⟩ := h
      cases h
  read := by
    intro t table client src i left right ctx client' a b res client'' _ h hi _ hquery hL _ hrec
    refine ⟨trivial, ?_⟩
    intro row hrow
    cases hquery
    cases hrec
    simp only [nonPrivate, Int.toNat_natCast, slice_rowAt h.length_eq hi, Option.map_some,
      if_neg (show ¬((i : ℕ) : ℤ) < 0 by omega), Option.some.injEq] at hL
    cases hrow
    exact (Except.ok.inj hL).symm

end ReadSystem

end SinglePassPIR.Updatable
