import SinglePassPIR.Updatable.HintCost
import SinglePassPIR.Updatable.LayeredPunc
import SinglePassPIR.Updatable.StaleReads

/-!
# Reading by key over puncturable sets

The whole of an updatable client of type `Punc` or `DPF` with its server: the log of keys and the
positions made of it, the layers, and the PIR clients of the layers. The server adds and deletes
rows and compacts its log, the two calls of an update come with other calls between them, and reads
ask for keys.

Nothing is assumed of the PIR types. What is assumed of a run is what cannot be proved of it: that
the rejection loops return, that a set is found for a row that is read, that no identifier has
wrapped round, and that keys which are sent sorted fit the Rice code. A read comes when no hint is
awaited, and before the server has compacted the rows that the client knows.

## Main results

* `SyncedTo.readKey` — a read by a client that has all of its hints.
* `keys_read` — every read returns the row that the key had at the last update, or that there is none.
-/

namespace SinglePassPIR.Updatable
open Pir Psetggm Dpf KeyLog

/-! ## A server that does not compact -/

section
variable {n d : ℕ} {s s' : Server} {log log' : List DbOp}

/-- The rows of a server that has gone on are still those that it had. -/
theorem Server.Logged.stores (h : s.Logged n log d) (h' : s'.Logged n log' d) (hpre : log <+: log')
    (hne : s.staticDb.numRows ≠ 0) : Stores n s.staticDb.flatDb s'.staticDb := by
  refine ⟨(h'.wf ?_).rowLen_eq, h.flatDb_prefix h' hpre⟩
  obtain ⟨batch, rfl⟩ := hpre
  have hops : s'.ops = s.ops ++ batch := by
    rw [h'.ops_eq, h.ops_eq, compactedOps, compactedOps, compacted_append h.le_length]
  rw [h.numRows_eq] at hne
  rw [h'.numRows_eq, hops, opsToRows_append, List.length_append]
  omega

theorem Server.Logged.numRows_le (h : s.Logged n log d) : s.staticDb.numRows ≤ log.length := by
  have hle := h.le_length
  have hlive : (live DbOp.key DbOp.delete (log.take d)).length ≤ (log.take d).length :=
    live_length_le _
  rw [h.numRows_eq, opsToRows, List.length_map, h.ops_eq]
  refine (List.length_filter_le _ _).trans ?_
  rw [compactedOps, length_compacted]
  rw [List.length_take] at hlive
  omega

end

/-! ## The second call of an update -/

section
variable {P : PirImpl}

namespace Client
variable {K : PirType → StaticDB → P.Client → Prop} {n m e : ℕ} {c : Client P.Client} {s : Server}
  {log : List DbOp} {db : StaticDB}

/-- The keys that the client does not find are those that the server did not have. -/
theorem SyncedTo.keyToPos_eq_none_iff (h : c.SyncedTo K n s m log e) (key : UInt32) :
    c.keyToPos key = none ↔ s.kv.lookup key = none := by
  have hkeys := (h.follows.inSync h.logged h.small).keys_eq key
  rw [AList.lookup_eq_none, ← hkeys]
  cases c.keyToPos key <;> simp

end Client

end

/-! ## Reads -/

theorem WaterfallClient.rowLen_of_bare {γ γ' : Type} {c : WaterfallClient γ} {c' : WaterfallClient γ'}
    (heq : c'.bare = c.bare) : c'.rowLen = c.rowLen := by
  show c'.bare.rowLen = c.bare.rowLen
  rw [heq]

variable {A : Prf} {env : Env} {addr n e : ℕ} {s : Server} {log : List DbOp}

/-- What a read of the key should return. -/
def Server.result (s : Server) (key : UInt32) : List UInt8 × Option String :=
  match s.kv.lookup key with
  | none => ([], some "key not found")
  | some row => (row, none)

/-- The databases have a size that the clients can count in, and the calls of the layers return. -/
structure Client.KeyReady (env : Env) (addr n : ℕ) (A : Prf)
    (c : Client (layeredPunc A env addr).Client) (src : ℕ → PuncLayerSource) (key : UInt32) : Prop where
  flat_lt : c.waterfall.numRows * n < 2 ^ 32
  aligned : n = 32 → addr % env.build.lane = 0
  ready : ∀ pos : ℕ, c.keyToPos key = some (pos : ℤ) →
    ∀ (j : ℕ) (layer : ClientLayer PuncLayerClient) (client : PuncLayerClient),
      c.waterfall.layers[j]? = some layer → layer.pir = some client →
        client.Ready env (src j) layer.numRows (layer.rowIn pos)

/-- **A read by key** of a client that has all of its hints. -/
theorem Client.SyncedTo.readKey {c : Client (layeredPunc A env addr).Client}
    (h : c.SyncedTo (P := layeredPunc A env addr) (PuncLayerFits env) n s 0 log e)
    (hhinted : WaterfallClient.Hinted (P := layeredPunc A env addr) c.waterfall.layers) (hn : 0 < n)
    {db : StaticDB} (hstores : s.staticDb.numRows ≠ 0 → Stores n s.staticDb.flatDb db)
    {src : ℕ → PuncLayerSource} {key : UInt32} (hready : c.KeyReady env addr n A src key)
    (callAsync rightFirst : Bool) :
    ∃ c', Client.readFrom (P := layeredPunc A env addr) callAsync rightFirst db src c key =
        some (s.result key, c') ∧
      c'.SyncedTo (P := layeredPunc A env addr) (PuncLayerFits env) n s 0 log e ∧
      WaterfallClient.Hinted (P := layeredPunc A env addr) c'.waterfall.layers := by
  cases hkey : c.keyToPos key with
  | none =>
      refine ⟨c, ?_, h, hhinted⟩
      simp only [Client.readFrom, hkey, Server.result, (h.keyToPos_eq_none_iff key).mp hkey]
  | some p =>
      obtain ⟨pos, rfl, hlt, hlookup⟩ := h.lookup_eq hkey
      obtain ⟨data, hserves, hdata⟩ := h.served
      have hcount := h.count
      have hrows := h.numRows_eq
      have hnum := h.logged.numRows_le
      have hsmall := h.small
      have hrowLen := h.rowLen_eq (by omega)
      obtain ⟨hstored, hflat⟩ := hstores (by omega)
      have hdb : Stores c.waterfall.rowLen data db := ⟨hstored.trans hrowLen.symm, hdata.trans hflat⟩
      have hread : Waterfall.ReadReady env addr A ⟨c.waterfall, data⟩ src pos db db :=
        { pos_lt := by dsimp only; omega
          rowLen_pos := hrowLen ▸ hn
          numRows_le := by dsimp only; omega
          flat_lt := hrowLen ▸ hready.flat_lt
          aligned := hrowLen ▸ hready.aligned
          left := hdb
          right := hdb
          ready := hready.ready pos hkey }
      obtain ⟨s', hread, hserves', hhinted'⟩ := hread.read hserves hhinted
      simp only [Waterfall.read, Option.bind_eq_bind, Option.bind_eq_some_iff, Option.some.injEq,
        Prod.mk.injEq] at hread
      obtain ⟨⟨⟨reqL, reqR, ctx⟩, waterfall⟩, hquery, respsL, hL, respsR, hR, respL, hokL, respR, hokR,
        ⟨row, waterfall'⟩, hrec, rfl, rfl⟩ := hread
      have hok : ∀ {res : Except String (List PuncLayerResp)} {resps}, res.toOption = some resps →
          res = .ok resps := by
        intro res resps hres
        cases res with
        | error err => cases hres
        | ok _ => exact congrArg Except.ok (Option.some.inj hres)
      obtain rfl := hok hokL
      obtain rfl := hok hokR
      have hsame := (WaterfallClient.reconstruct_bare hrec).trans (WaterfallClient.query_bare hquery)
      have hrow : (rowAt c.waterfall.rowLen data pos).toList =
          (rowAt n s.staticDb.flatDb pos).toList := by
        have hend := block_end_le (w := c.waterfall.rowLen) (by omega : pos < c.waterfall.numRows)
        rw [← hserves.length_eq] at hend
        rw [← hrowLen, rowAt_prefix hdata hend]
      refine ⟨{ c with waterfall := waterfall' }, ?_, ⟨h.logged, h.small, h.follows.with_waterfall _,
        ⟨data, hserves', hdata⟩, ?_, ?_⟩, hhinted'⟩
      · rw [Client.readFrom_eq hkey hquery hL hR hrec, Server.result, hlookup, hrow]
      · show waterfall'.numRows + 0 = c.numRows
        rw [WaterfallClient.numRows_of_bare hsame]
        exact h.count
      · intro _
        show waterfall'.rowLen = n
        rw [WaterfallClient.rowLen_of_bare hsame, hrowLen]

/-! ## Runs -/

namespace ReadSystem

/-- Calls have rows of `n` bytes, a key update comes when no hint is awaited, while timestamps fit
an `int32`, and sends sorted keys only if they fit the Rice code. A hint arrives, and a read comes
when no hint is awaited; for both the server has not compacted its log since the key update. -/
def Proper (env : Env) (addr n : ℕ) (A : Prf) (s : ReadSystem (layeredPunc A env addr)) :
    ReadAction (layeredPunc A env addr) → Prop
  | .server a => a.Valid n
  | .sync => s.pending = none ∧ s.server.initialTimestamp + s.server.ops.length < 2 ^ 31 ∧
      let keys := (s.server.sentOps s.client.keyUpdatesReq).map DbOp.key
      keys.Pairwise (· ≤ ·) → RiceFits keys
  | .hint src initSrc => s.server.defragTimestamp = s.synced.defragTimestamp ∧
      (s.hint src initSrc).isSome
  | .read _ _ src key => s.pending = none ∧ s.server.defragTimestamp = s.synced.defragTimestamp ∧
      s.client.KeyReady env addr n A src key

/-- A read returns the row that the key had at the last update, or says that there is none. -/
def ReadsKeys {P : PirImpl} (s : ReadSystem P) (a : ReadAction P)
    (result : Option (List UInt8 × Option String)) (_ : ReadSystem P) : Prop :=
  ∀ callAsync rightFirst src key, a = .read callAsync rightFirst src key →
    result = some (s.synced.result key)

/-- The client is up to date, with puncturable-set and DPF clients for its layers. -/
abbrev SyncedHinted (s : ReadSystem (layeredPunc A env addr)) (n : ℕ) : Prop :=
  s.Synced (PuncLayerFits env) n

variable {s s' : ReadSystem (layeredPunc A env addr)}

/-- **The second call of an update**, before the server compacts. -/
theorem Synced.hint (h : s.SyncedHinted n)
    (hsame : s.server.defragTimestamp = s.synced.defragTimestamp) {src initSrc : PuncLayerSource}
    (hhint : s.hint src initSrc = some s') : s'.SyncedHinted n := by
  refine Synced.hint_arrives h (fun t table client _ _ => puncLayerFits_of_built)
    PuncLayerHintReq.process_ne_error ?_ (fun _ _ _ _ _ _ => rfl) hhint
  intro hne
  obtain ⟨log, d, log₀, e, hlogged, hpre, hed, hclient, -⟩ := h
  rw [hlogged.defragTimestamp_eq, hclient.logged.defragTimestamp_eq, Nat.cast_inj] at hsame
  subst hsame
  rw [(hclient.logged.wf hne).rowLen_eq]
  exact hclient.logged.stores hlogged hpre hne

/-- **A read**, before the server compacts. -/
theorem Synced.read (h : s.SyncedHinted n) (hn : 0 < n) (hnone : s.pending = none)
    (hsame : s.server.defragTimestamp = s.synced.defragTimestamp) {src : ℕ → PuncLayerSource}
    {key : UInt32} (hready : s.client.KeyReady env addr n A src key) (callAsync rightFirst : Bool) :
    ∃ client, s.client.readFrom (P := layeredPunc A env addr) callAsync rightFirst s.server.staticDb
        src key = some (s.synced.result key, client) ∧
      ({ s with client } : ReadSystem (layeredPunc A env addr)).SyncedHinted n := by
  obtain ⟨log, d, log₀, e, hlogged, hpre, hed, hclient, hhinted, hpending⟩ := h
  rw [hlogged.defragTimestamp_eq, hclient.logged.defragTimestamp_eq, Nat.cast_inj] at hsame
  subst hsame
  rw [hnone] at hclient
  obtain ⟨client, hread, hclient', hhinted'⟩ := Client.SyncedTo.readKey hclient hhinted hn
    (fun hne => hclient.logged.stores hlogged hpre hne) hready callAsync rightFirst
  refine ⟨client, hread, log, _, log₀, _, hlogged, hpre, hed, ?_, hhinted', hpending⟩
  rw [hnone]
  exact hclient'

/-- One step. -/
theorem Synced.step (h : s.SyncedHinted n) (hn : 0 < n)
    {a : ReadAction (layeredPunc A env addr)} (hproper : Proper env addr n A s a) :
    ∃ o s', ReadSystem.step s a = some (o, s') ∧ ReadsKeys s a o s' ∧ s'.SyncedHinted n := by
  cases a with
  | server a =>
      obtain ⟨server, hserver, hs'⟩ := Synced.server h hproper
      refine ⟨none, { s with server }, ?_, ?_, hs'⟩
      · simp only [ReadSystem.step, ReadSystem.stepFrom, hserver, Option.bind_eq_bind,
          Option.bind_some]
      · intro _ _ _ _ haction
        cases haction
  | sync =>
      obtain ⟨hnone, hnext, hfits⟩ := hproper
      obtain ⟨s', hsync, hs', -, -⟩ := h.sync hnone hnext hfits
      refine ⟨none, s', ?_, ?_, hs'⟩
      · simp only [ReadSystem.step, ReadSystem.stepFrom, hsync, Option.bind_eq_bind,
          Option.bind_some]
      · intro _ _ _ _ haction
        cases haction
  | hint src initSrc =>
      obtain ⟨hsame, hsome⟩ := hproper
      obtain ⟨s', hhint⟩ := Option.isSome_iff_exists.mp hsome
      refine ⟨none, s', ?_, ?_, h.hint hsame hhint⟩
      · have hfrom : s.hintFrom s.server.staticDb src initSrc = some s' := hhint
        simp only [ReadSystem.step, ReadSystem.stepFrom, hfrom, Option.bind_eq_bind,
          Option.bind_some]
      · intro _ _ _ _ haction
        cases haction
  | read callAsync rightFirst src key =>
      obtain ⟨hnone, hsame, hready⟩ := hproper
      obtain ⟨client, hread, hs'⟩ := h.read hn hnone hsame hready callAsync rightFirst
      refine ⟨some (s.synced.result key), _, ?_, ?_, hs'⟩
      · simp only [ReadSystem.step, ReadSystem.stepFrom, hread, Option.bind_eq_bind,
          Option.bind_some]
      · intro _ _ _ _ haction
        cases haction
        rfl

/-- The steps that are no calls of the server leave it as it is, and synced if it was. -/
theorem step_quiet {P : PirImpl} {s s' : ReadSystem P} {a : ReadAction P}
    {o : Option (List UInt8 × Option String)} (h : ReadSystem.step s a = some (o, s'))
    (hquiet : ∀ b, a ≠ .server b) (hsame : s.synced = s.server) :
    s'.server = s.server ∧ s'.synced = s.server := by
  cases a with
  | server b => exact absurd rfl (hquiet b)
  | sync =>
      simp only [ReadSystem.step, ReadSystem.stepFrom, ReadSystem.sync, Option.bind_eq_bind,
        Option.bind_eq_some_iff, Option.ite_none_left_eq_some, Option.some.injEq,
        Prod.mk.injEq] at h
      obtain ⟨_, ⟨-, resp, -, ⟨res, client⟩, -, hres⟩, -, rfl⟩ := h
      cases res with
      | error err =>
          obtain rfl := Option.some.inj hres
          exact ⟨rfl, hsame⟩
      | ok m =>
          obtain rfl := Option.some.inj hres
          exact ⟨rfl, rfl⟩
  | hint src initSrc =>
      simp only [ReadSystem.step, ReadSystem.stepFrom, ReadSystem.hintFrom, Option.bind_eq_bind,
        Option.bind_eq_some_iff, Option.some.injEq, Prod.mk.injEq] at h
      obtain ⟨_, ⟨-, -, -, -, rfl⟩, -, rfl⟩ := h
      exact ⟨rfl, hsame⟩
  | read callAsync rightFirst src key =>
      simp only [ReadSystem.step, ReadSystem.stepFrom, Option.bind_eq_bind,
        Option.bind_eq_some_iff, Option.some.injEq, Prod.mk.injEq] at h
      obtain ⟨-, -, -, rfl⟩ := h
      exact ⟨rfl, hsame⟩

/-- **Reading by key over puncturable sets.** In every run of a new client of type `Punc` or `DPF`
and a new server, every read returns the row that its key had at the last update, or says that there
is none. -/
theorem keys_read (A : Prf) (env : Env) (addr : ℕ) (hn : 0 < n) (pirType : PirType) (smallest : ℕ)
    (as : List (ReadAction (layeredPunc A env addr))) :
    AlwaysUnder step (Proper env addr n A) ReadsKeys
      (start (layeredPunc A env addr) pirType smallest) as := by
  refine alwaysUnder_of_invariant (SyncedHinted · n) ?_ as _ (start_synced pirType smallest)
  intro s a hs hproper
  exact hs.step hn hproper

/-- What the calls draw. -/
def countingSource : PuncLayerSource := ⟨0, 0, 1, [0, 1, 0, 1], (0, 0)⟩

/-- Nine rows, in layers of six and of three; then key 7 is deleted. -/
def nineRows : List (ReadAction (layeredPunc ⟨id, id⟩ countingEnv 0)) :=
  [.server (.addRows id [1, 2, 3, 4, 5, 6] [[10], [20], [30], [40], [50], [60]]), .sync,
    .hint countingSource countingSource, .server (.addRows id [7, 8, 9] [[70], [80], [90]]), .sync,
    .hint countingSource countingSource, .server (.deleteRows [7])]

theorem keys_read_nine_rows :
    AlwaysUnder step (Proper countingEnv 0 1 ⟨id, id⟩) ReadsKeys
      (start (layeredPunc ⟨id, id⟩ countingEnv 0) .punc 2)
      (nineRows ++ [.read true true (fun _ => countingSource) 7]) :=
  keys_read ⟨id, id⟩ countingEnv 0 (by decide) .punc 2 _

/-- Deleted keys are read until the next update. -/
example :
    (runActions step (start (layeredPunc ⟨id, id⟩ countingEnv 0) .punc 2) (nineRows ++
      [.read true true (fun _ => countingSource) 7, .sync,
        .read false false (fun _ => countingSource) 7])).map (·.1.drop 7) =
      some [some ([70], none), none, some ([], some "key not found")] := by
  decide +kernel

end ReadSystem

end SinglePassPIR.Updatable
