import SinglePassPIR.Updatable.KeyReads
import SinglePassPIR.Updatable.PirTypes

/-!
# Updates that are retried

When the `Hint` call of an update fails, the client has already been told of the new rows, and
the layer that took them stays without its client. The next update fetches a hint for the layer
that takes the rows that are new then, and none if there are none. It makes up for the hint that
did not come only if it carries the rows of that layer up, or takes more of them in.

## Main results

* `WaterfallClient.fetchHint_hinted_iff` — which updates leave no layer without its client.
* `reads_after_retry` — the reads after an update that returned `nil`, along every run.
-/

namespace SinglePassPIR.Updatable
open Pir KeyLog

variable {P : PirImpl}

/-! ## Layers without their clients -/

namespace WaterfallClient

/-- An update of `n` rows reaches every layer with rows that has no client. -/
def Refetches (n : ℕ) : List (ClientLayer P.Client) → Prop
  | [] => True
  | layer :: lower =>
      (layer.numRows ≠ 0 → layer.pir = none → n ≠ 0 ∧ Overflows n lower) ∧ Refetches n lower

variable {n : ℕ}

/-- An update without rows reaches no layer. -/
theorem refetches_zero {layers : List (ClientLayer P.Client)} :
    Refetches 0 layers ↔ Hinted layers := by
  induction layers with
  | nil => simp [Refetches, Hinted]
  | cons layer layers ih =>
      simp only [Refetches, ih, Hinted, List.forall_mem_cons, ne_eq, not_true, false_and]
      rw [Option.isSome_iff_ne_none]

theorem refetches_of_overflows (hn : n ≠ 0) {layers : List (ClientLayer P.Client)}
    (h : Overflows n layers) : Refetches n layers := by
  induction layers with
  | nil => trivial
  | cons layer layers ih => exact ⟨fun _ _ => ⟨hn, h.2⟩, ih h.2⟩

/-- The layers below a layer with room are not all too small. -/
theorem not_overflows {upper rest : List (ClientLayer P.Client)} {layer : ClientLayer P.Client}
    (hfit : n + rowsOf (layer :: rest) ≤ layer.maxSize) :
    ¬Overflows n (upper ++ layer :: rest) := by
  induction upper with
  | nil =>
      rintro ⟨hlt, -⟩
      omega
  | cons next upper ih => exact fun h => ih h.2

/-- The update stops at `layer`. -/
theorem refetches_iff (hn : n ≠ 0) {upper rest : List (ClientLayer P.Client)}
    {layer : ClientLayer P.Client} (hfit : n + rowsOf (layer :: rest) ≤ layer.maxSize)
    (hover : Overflows n rest) : Refetches n (upper ++ layer :: rest) ↔ Hinted upper := by
  induction upper with
  | nil =>
      have hrest := refetches_of_overflows hn hover
      simp [Refetches, Hinted, hover, hn, hrest]
  | cons next upper ih =>
      have hnot : ¬Overflows n (upper ++ layer :: rest) := not_overflows hfit
      simp only [List.cons_append, Refetches, ih, hnot, Hinted, List.forall_mem_cons, and_false]
      rw [Option.isSome_iff_ne_none]

/-- **An update that returned `nil`** leaves no layer without its client if it reached all of those
that had none. -/
theorem fetchHint_hinted_iff {c c' : WaterfallClient P.Client} {rowLen : ℕ}
    {hint : UpdatableHintReq P.HintReq → Option (Except String P.HintResp)}
    {src initSrc : P.Source} (hc : LayersTile 0 c.layers c.numRows) (hn : n ≠ 0)
    (h : c.fetchHint hint src initSrc n rowLen = some (.ok (), c')) :
    Hinted c'.layers ↔ Refetches n c.layers := by
  obtain ⟨upper, lower, maxSize, k, t, hinted, hcarried, -, hcases⟩ :=
    fetchHint_cases hc (Nat.one_le_iff_ne_zero.mpr hn) h
  obtain ⟨client, rfl⟩ : ∃ client, c' = c.carry n rowLen upper lower maxSize k t (some client) := by
    rcases hcases with ⟨err, -, hres, -⟩ | ⟨resp, initSrc', client, -, -, -, hc'⟩
    · cases hres
    · exact ⟨client, hc'⟩
  have hupper : Hinted (c.carry n rowLen upper lower maxSize k t (some client)).layers ↔
      Hinted upper := by
    constructor
    · intro hall layer hl
      exact hall layer (List.mem_append_left _ hl)
    · intro hall layer hl hne
      simp only [carry, List.mem_append, List.mem_cons] at hl
      rcases hl with hl | rfl | hl
      · exact hall layer hl hne
      · rfl
      · obtain ⟨m, rfl⟩ := hcarried.lower_empty layer hl
        exact absurd rfl hne
  rw [hupper]
  rcases hcarried.stop with ⟨rfl, hover⟩ | ⟨layer, rest, hlayers, hfit, hover⟩
  · -- all layers are made anew
    refine iff_of_true (by simp [Hinted]) ?_
    cases hl : c.layers with
    | nil => trivial
    | cons layer rest =>
        rw [hl] at hover
        exact ⟨fun _ _ => ⟨hn, hover⟩, refetches_of_overflows hn hover⟩
  · rw [hlayers, refetches_iff hn hfit hover]

end WaterfallClient

/-! ## Reads -/

namespace Client
variable {K : PirType → StaticDB → P.Client → Prop} {n e : ℕ} {s : Server} {log : List DbOp}
variable {c : Client P.Client} {callAsync rightFirst : Bool} {src : ℕ → P.Source} {key : UInt32}

/-- A server with spare bytes behind its rows stores the rows of the layers. -/
theorem SyncedTo.stores_withSpare {m : ℕ} (h : c.SyncedTo K n s m log e)
    (hne : c.waterfall.numRows ≠ 0) {data : List UInt8} (hdata : data <+: s.staticDb.flatDb)
    (spare : List UInt8) : Stores c.waterfall.rowLen data (s.staticDb.withSpare spare) :=
  ⟨h.staticDb_rowLen hne, hdata.trans (List.prefix_append _ _)⟩

/-- A client that is up to date finds all rows where they were. -/
theorem SyncedTo.unmoved {R : StaticDB → P.Source → P.Client → ℕ → Prop} {m : ℕ}
    (h : c.SyncedTo K n s m log e) (spare : List UInt8) (hrelies : c.Relies R s.staticDb src key) :
    c.Unmoved R (s.staticDb.withSpare spare) s.staticDb src key := by
  refine ⟨?_, hrelies⟩
  intro pos _ layer hl _ hcov
  obtain ⟨data, hserves, hdata⟩ := h.served
  have hne := hcov.size_ne_zero
  obtain ⟨hend, hbytes⟩ := hserves.layer_end hl hne
  have hrows : c.waterfall.numRows ≠ 0 := by omega
  have hstores : Stores c.waterfall.rowLen data s.staticDb := ⟨h.staticDb_rowLen hrows, hdata⟩
  exact ⟨rfl, _, (h.stores_withSpare hrows hdata spare).slice_eq hbytes, hstores.slice_eq hbytes⟩

/-- **A read of a client without a missing hint**, whose clients are correct. -/
theorem SyncedTo.readFrom_hinted (h : c.SyncedTo K n s 0 log e)
    (hhinted : WaterfallClient.Hinted c.waterfall.layers) (hkey : (c.keyToPos key).isSome)
    (spare : List UInt8)
    (hcorrect : ∀ (j : ℕ) layer client, c.waterfall.layers[j]? = some layer →
      layer.pir = some client → Correct P (src j) client
        (tableAt s.staticDb.rowLen s.staticDb.flatDb layer.firstRow layer.numRows)) :
    ∃ row c', c.readFrom callAsync rightFirst (s.staticDb.withSpare spare) src key =
      some ((row, none), c') ∧ s.kv.lookup key = some row := by
  obtain ⟨pos, hkey⟩ := Option.isSome_iff_exists.mp hkey
  obtain ⟨i, rfl, hi, hlookup⟩ := h.lookup_eq hkey
  obtain ⟨data, hserves, hdata⟩ := h.served
  have hcount := h.count
  have hrows := h.numRows_eq
  have hne : c.waterfall.numRows ≠ 0 := by omega
  have hrowLen := h.staticDb_rowLen hne
  have hstores := h.stores_withSpare hne hdata spare
  have hpieces : ∀ (j : ℕ) layer client, c.waterfall.layers[j]? = some layer →
      layer.pir = some client → Correct P (src j) client
        (tableAt c.waterfall.rowLen data layer.firstRow layer.numRows) := by
    intro j layer client hj hpir
    have hl := List.mem_of_getElem? hj
    have hzero : layer.numRows ≠ 0 := by
      intro hzero
      rw [hserves.empty layer hl hzero] at hpir
      cases hpir
    have hpiece := hcorrect j layer client hj hpir
    rwa [hrowLen, tableAt_more hdata (hserves.layer_end hl hzero).2] at hpiece
  have hend : c.waterfall.numRows = rowsOf c.waterfall.layers := by
    have hend := layersTile_end hserves.layered.tiles
    omega
  obtain ⟨reqL, reqR, ctx, w, respsL, respsR, w', hquery, hL, hR, hrec⟩ :=
    hserves.read hhinted.hintedUpTo (by omega : i < _) src hstores hstores hpieces
  refine ⟨(rowAt c.waterfall.rowLen data i).toList, { c with waterfall := w' },
    readFrom_eq hkey hquery hL hR hrec, ?_⟩
  have hbytes : i * n + n ≤ data.length := by
    have hlen := hserves.length_eq
    have hblock := block_end_le (w := n) (by omega : i < c.waterfall.numRows)
    rw [h.rowLen_eq hne] at hlen
    omega
  rw [hlookup, h.rowLen_eq hne, rowAt_prefix hdata hbytes]

end Client

/-! ## Runs -/

/-- A server and a client, with the server as it was at the client's last key update. -/
structure RetrySystem (P : PirImpl) where
  server : Server
  client : Client P.Client
  synced : Server

/-- A call of the server, an update whose calls may fail, or a read with the bytes that `append` has
left behind the rows. -/
inductive RetryAction (P : PirImpl)
  | server (a : ServerAction)
  | update (keyErr hintErr : Option String) (src initSrc : P.Source)
  | read (callAsync rightFirst : Bool) (spare : List UInt8) (src : ℕ → P.Source) (key : UInt32)

namespace RetrySystem

/-- A new server and a new client. -/
def start (P : PirImpl) (pirType : PirType) (smallest : ℕ) : RetrySystem P :=
  ⟨newUpdatableServer, newClient pirType smallest, newUpdatableServer⟩

/-- The call `KeyUpdates`, unless it fails. -/
def keyUpdates (s : RetrySystem P) (keyErr : Option String) (req : KeyUpdatesReq) :
    Option (Except String (KeyUpdatesResp RiceDeltaEncoding)) :=
  match keyErr with
  | some err => some (.error err)
  | none => (s.server.keyUpdates riceCodec req).map .ok

/-- The call `Hint`, unless it fails; it asks for the last rows of the server. -/
def hint (s : RetrySystem P) (hintErr : Option String) (req : UpdatableHintReq P.HintReq) :
    Option (Except String P.HintResp) :=
  match hintErr with
  | some err => some (.error err)
  | none => req.process P s.server.staticDb

/-- One step, with the result of an update. -/
def step (s : RetrySystem P) :
    RetryAction P → Option (Option (Except String Unit) × RetrySystem P)
  | .server a => do some (none, { s with server := ← s.server.step a })
  | .update keyErr hintErr src initSrc => do
      let (result, client) ←
        s.client.update riceCodec (s.keyUpdates keyErr) (s.hint hintErr) src initSrc
      some (some result,
        { s with client, synced := if keyErr.isSome then s.synced else s.server })
  | .read callAsync rightFirst spare src key => do
      let (_, client) ←
        s.client.readFrom callAsync rightFirst (s.server.staticDb.withSpare spare) src key
      some (none, { s with client })

/-- Calls have rows of `n` bytes, key updates come while timestamps fit an `int32` and send
sorted keys only if they fit the Rice code, and reads are of rows that have not moved, with no layer
that has its client behind one that lacks it. -/
def Guard (R : StaticDB → P.Source → P.Client → ℕ → Prop) (n : ℕ) (s : RetrySystem P) :
    RetryAction P → Prop
  | .server a => a.Valid n
  | .update .. => s.server.initialTimestamp + s.server.ops.length < 2 ^ 31 ∧
      let keys := (s.server.sentOps s.client.keyUpdatesReq).map DbOp.key
      keys.Pairwise (· ≤ ·) → RiceFits keys
  | .read _ _ spare src key =>
      ((s.client.keyToPos key).isSome →
        ∃ m, WaterfallClient.HintedUpTo s.client.waterfall.layers m) ∧
      s.client.Unmoved R (s.server.staticDb.withSpare spare) s.synced.staticDb src key

/-- An update makes up for all hints that did not come: the client has to make all layers anew
because the server has compacted its log, or the rows that the server has added since reach every
layer without a client. -/
def Repairs (s : RetrySystem P) : Prop :=
  s.server.defragTimestamp = s.client.defragTimestamp →
    WaterfallClient.Refetches (s.server.staticDb.numRows - s.client.numRows)
      s.client.waterfall.layers

/-- Every key reads back as the row that the server has for it, if the clients of the layers are
correct on their pieces. No other row comes back, whether they are or not. -/
def ReadsBack (R : StaticDB → P.Source → P.Client → ℕ → Prop) (s : RetrySystem P) : Prop :=
  ∀ key, (s.client.keyToPos key).isSome → ∀ callAsync rightFirst spare src,
    ((∀ (j : ℕ) layer client, s.client.waterfall.layers[j]? = some layer → layer.pir = some client →
      Correct P (src j) client (tableAt s.server.staticDb.rowLen s.server.staticDb.flatDb
        layer.firstRow layer.numRows)) →
      ∃ row c', s.client.readFrom callAsync rightFirst (s.server.staticDb.withSpare spare) src key =
        some ((row, none), c') ∧ s.server.kv.lookup key = some row) ∧
    (s.client.Relies R s.server.staticDb src key → ∀ row c',
      s.client.readFrom callAsync rightFirst (s.server.staticDb.withSpare spare) src key =
        some ((row, none), c') → s.server.kv.lookup key = some row)

/-- Every key reads back over puncturable sets and DPF, if the calls of the layers return. -/
def KeysReadBack {A : Dpf.Prf} {env : Env} {addr : ℕ} (n : ℕ)
    (s : RetrySystem (layeredPunc A env addr)) : Prop :=
  ∀ key, (s.client.keyToPos key).isSome → ∀ callAsync rightFirst spare src, 0 < n →
    s.client.KeyReady env addr n A src key → ∃ row c',
      s.client.readFrom (P := layeredPunc A env addr) callAsync rightFirst
        (s.server.staticDb.withSpare spare) src key = some ((row, none), c') ∧
      s.server.kv.lookup key = some row

/-- An update that returns `nil` leaves no layer without its client if it makes up for all hints
that did not come, and not otherwise; then what `reads` says holds. -/
def RetryCorrect (reads : RetrySystem P → Prop) (s : RetrySystem P) (a : RetryAction P)
    (result : Option (Except String Unit)) (s' : RetrySystem P) : Prop :=
  ∀ keyErr hintErr src initSrc, a = .update keyErr hintErr src initSrc → result = some (.ok ()) →
    (WaterfallClient.Hinted s'.client.waterfall.layers ↔ s.Repairs) ∧ (s.Repairs → reads s')

/-- The server has gone on since the key update, after which the client knows its keys. -/
def Synced (K : PirType → StaticDB → P.Client → Prop) (n : ℕ) (s : RetrySystem P) : Prop :=
  ∃ log d log₀ e, s.server.Logged n log d ∧ log₀ <+: log ∧ e ≤ d ∧
    s.client.SyncedTo K n s.synced 0 log₀ e

variable {K : PirType → StaticDB → P.Client → Prop} {R : StaticDB → P.Source → P.Client → ℕ → Prop}
variable {n : ℕ} {s s' : RetrySystem P}

/-- A client that is up to date, with all of its hints. -/
theorem readsBack_of_hinted (hP : P.Sound K R) {log : List DbOp} {d : ℕ}
    (h : s.client.SyncedTo K n s.server 0 log d)
    (hhinted : WaterfallClient.Hinted s.client.waterfall.layers) : s.ReadsBack R := by
  intro key hkey callAsync rightFirst spare src
  constructor
  · intro hcorrect
    exact h.readFrom_hinted hhinted hkey spare hcorrect
  · intro hrelies row c' hread
    have hfront : ∃ m, WaterfallClient.HintedUpTo s.client.waterfall.layers m :=
      ⟨_, hhinted.hintedUpTo⟩
    exact (h.readFrom hP (fun _ => hfront) (h.unmoved spare hrelies) hread).2.1 rfl

/-- The same over puncturable sets and DPF. -/
theorem keysReadBack_of_hinted {A : Dpf.Prf} {env : Env} {addr : ℕ}
    {s : RetrySystem (layeredPunc A env addr)} {log : List DbOp} {d : ℕ}
    (h : s.client.SyncedTo (P := layeredPunc A env addr) (PuncLayerFits env) n s.server 0 log d)
    (hhinted : WaterfallClient.Hinted (P := layeredPunc A env addr) s.client.waterfall.layers) :
    s.KeysReadBack n := by
  intro key hkey callAsync rightFirst spare src hn hready
  have hstores : s.server.staticDb.numRows ≠ 0 →
      Stores n s.server.staticDb.flatDb (s.server.staticDb.withSpare spare) := by
    intro hne
    exact ⟨(h.logged.wf hne).rowLen_eq, List.prefix_append _ _⟩
  obtain ⟨c', hread, -⟩ := h.readKey hhinted hn hstores hready callAsync rightFirst
  have hlookup : (s.server.kv.lookup key).isSome := by
    rw [Option.isSome_iff_ne_none]
    intro hnone
    rw [(h.keyToPos_eq_none_iff key).mpr hnone] at hkey
    cases hkey
  obtain ⟨row, hrow⟩ := Option.isSome_iff_exists.mp hlookup
  refine ⟨row, c', ?_, hrow⟩
  rw [hread, Server.result, hrow]

/-- What the key update leaves for the hint to reach. -/
theorem repairs_iff {log log₀ : List DbOp} {d e m : ℕ} {c' : Client P.Client}
    (hlogged : s.server.Logged n log d) (h : s.client.SyncedTo K n s.synced 0 log₀ e)
    (hed : e ≤ d) (h' : c'.SyncedTo K n s.server m log d) (hpending : s.client.Pending c' e d m) :
    s.Repairs ↔ WaterfallClient.Refetches m c'.waterfall.layers := by
  rw [Repairs, hlogged.defragTimestamp_eq, h.follows.defragTimestamp_eq, Nat.cast_inj]
  by_cases heq : d = e
  · obtain ⟨hwaterfall, hnum⟩ := hpending.same heq.symm
    have hm : s.server.staticDb.numRows - s.client.numRows = m := by
      rw [← h'.numRows_eq, hnum, Nat.add_sub_cancel_left]
    rw [hm, hwaterfall]
    exact ⟨fun hreach => hreach heq, fun hreach _ => hreach⟩
  · rw [(hpending.reset (by omega)).1]
    exact iff_of_true (fun hde => absurd hde heq) trivial

/-- **One update.** -/
theorem Synced.update (hP : P.Sound K R) {reads : RetrySystem P → Prop}
    (hreads : ∀ {s : RetrySystem P} {log d}, s.client.SyncedTo K n s.server 0 log d →
      WaterfallClient.Hinted s.client.waterfall.layers → reads s)
    (h : s.Synced K n) {keyErr hintErr : Option String}
    {src initSrc : P.Source} (hguard : s.Guard R n (.update keyErr hintErr src initSrc))
    {result : Option (Except String Unit)}
    (hstep : s.step (.update keyErr hintErr src initSrc) = some (result, s')) :
    s'.Synced K n ∧ (result = some (.ok ()) →
      (WaterfallClient.Hinted s'.client.waterfall.layers ↔ s.Repairs) ∧
        (s.Repairs → reads s')) := by
  simp only [step, Option.bind_eq_bind, Option.bind_eq_some_iff, Option.some.injEq, Prod.mk.injEq]
    at hstep
  obtain ⟨⟨res, client⟩, hupdate, rfl, rfl⟩ := hstep
  cases keyErr with
  | some err =>
      simp only [Client.update, keyUpdates, Option.bind_eq_bind, Option.bind_some,
        Option.some.injEq, Prod.mk.injEq] at hupdate
      obtain ⟨rfl, rfl⟩ := hupdate
      exact ⟨h, by simp⟩
  | none =>
      obtain ⟨log, d, log₀, e, hlogged, hpre, hed, hclient⟩ := h
      obtain ⟨hnext, hfits⟩ := hguard
      have h31 : log.length < 2 ^ 31 := by
        have hlen := hlogged.initialTimestamp_eq
        omega
      obtain ⟨resp, m, c', hresp, hprocess, hrowLen, hc', hpending⟩ :=
        Client.SyncedTo.sync hclient hlogged hpre hed h31
          (fun hne => riceCodec_carries (by simpa using hne) hfits)
      have hrepairs := repairs_iff hlogged hclient hed hc' hpending
      simp only [Client.update, keyUpdates, hresp, Option.map_some, hprocess, Option.bind_eq_bind,
        Option.bind_some] at hupdate
      by_cases hm : m = 0
      · subst hm
        simp only [if_true, Option.some.injEq, Prod.mk.injEq] at hupdate
        obtain ⟨rfl, rfl⟩ := hupdate
        have hiff : WaterfallClient.Hinted c'.waterfall.layers ↔ s.Repairs := by
          rw [hrepairs, WaterfallClient.refetches_zero]
        exact ⟨⟨log, d, log, d, hlogged, List.prefix_rfl, Nat.le_refl d, hc'⟩,
          fun _ => ⟨hiff, fun hrep => hreads hc' (hiff.mpr hrep)⟩⟩
      · simp only [if_neg hm, Option.bind_eq_some_iff, Option.some.injEq, Prod.mk.injEq] at hupdate
        obtain ⟨⟨res', waterfall⟩, hfetch, rfl, rfl⟩ := hupdate
        rw [hrowLen] at hfetch
        have hhonest : ∀ req resp, s.hint hintErr req = some (.ok resp) → ∃ db,
            Stores s.server.staticDb.rowLen s.server.staticDb.flatDb db ∧
              req.process P db = some (.ok resp) := by
          intro req resp hreq
          cases hintErr with
          | some err => simp [hint] at hreq
          | none => exact ⟨_, ⟨rfl, List.prefix_rfl⟩, hreq⟩
        have hclient' := (hc'.hint hP.built hm hhonest hfetch).1
        refine ⟨⟨log, d, log, d, hlogged, List.prefix_rfl, Nat.le_refl d, hclient'⟩, ?_⟩
        intro hok
        obtain rfl : res' = .ok () := Option.some.inj hok
        obtain ⟨data, hserves, -⟩ := hc'.served
        have hiff : WaterfallClient.Hinted waterfall.layers ↔ s.Repairs := by
          rw [hrepairs, WaterfallClient.fetchHint_hinted_iff hserves.layered.tiles hm hfetch]
        exact ⟨hiff, fun hrep => hreads hclient' (hiff.mpr hrep)⟩

/-- **One step** of the system. -/
theorem Synced.step (hP : P.Sound K R) {reads : RetrySystem P → Prop}
    (hreads : ∀ {s : RetrySystem P} {log d}, s.client.SyncedTo K n s.server 0 log d →
      WaterfallClient.Hinted s.client.waterfall.layers → reads s)
    (h : s.Synced K n) {a : RetryAction P} {result : Option (Except String Unit)}
    (hguard : s.Guard R n a) (hstep : s.step a = some (result, s')) :
    s.RetryCorrect reads a result s' ∧ s'.Synced K n := by
  cases a with
  | server a =>
      obtain ⟨log, d, log₀, e, hlogged, hpre, hed, hclient⟩ := h
      simp only [RetrySystem.step, Option.bind_eq_bind, Option.bind_eq_some_iff, Option.some.injEq,
        Prod.mk.injEq] at hstep
      obtain ⟨server, hserver, rfl, rfl⟩ := hstep
      obtain ⟨server', d', hserver', hlogged', hle⟩ := Server.step_logged hlogged hguard
      obtain rfl : server' = server := Option.some.inj (hserver'.symm.trans hserver)
      exact ⟨by simp [RetryCorrect], log ++ a.ops, d', log₀, e, hlogged',
        hpre.trans (List.prefix_append _ _), hed.trans hle, hclient⟩
  | update keyErr hintErr src initSrc =>
      obtain ⟨hsynced, hcorrect⟩ := h.update hP hreads hguard hstep
      refine ⟨?_, hsynced⟩
      intro _ _ _ _ haction hok
      cases haction
      exact hcorrect hok
  | read callAsync rightFirst spare src key =>
      obtain ⟨log, d, log₀, e, hlogged, hpre, hed, hclient⟩ := h
      simp only [RetrySystem.step, Option.bind_eq_bind, Option.bind_eq_some_iff, Option.some.injEq,
        Prod.mk.injEq] at hstep
      obtain ⟨⟨⟨row, err⟩, client⟩, hread, rfl, rfl⟩ := hstep
      obtain ⟨hclient', -⟩ := hclient.readFrom hP hguard.1 hguard.2 hread
      exact ⟨by simp [RetryCorrect], log, d, log₀, e, hlogged, hpre, hed, hclient'⟩

/-- Runs of calls of the server, updates whose calls may fail, and reads, for a PIR type that is
sound. -/
theorem retryCorrect_of_sound (hP : P.Sound K R) {reads : RetrySystem P → Prop}
    (hreads : ∀ {s : RetrySystem P} {log d}, s.client.SyncedTo K n s.server 0 log d →
      WaterfallClient.Hinted s.client.waterfall.layers → reads s)
    (pirType : PirType) (smallest : ℕ) (as : List (RetryAction P)) :
    SafeUnder step (Guard R n) (RetryCorrect reads) (start P pirType smallest) as := by
  refine safeUnder_of_invariant (Synced K n) ?_ as _ ?_
  · intro s a result s' h hguard hstep
    exact h.step hP hreads hguard hstep
  · exact ⟨[], 0, [], 0, newUpdatableServer_logged n, List.prefix_rfl, Nat.le_refl 0,
      Client.newClient_syncedTo pirType smallest⟩

/-- Four rows whose hint does not come -/
def fourRows : List (RetryAction plainLayers) :=
  [.server (.addRows id [1, 2, 3, 4] [[10], [20], [30], [40]]),
    .update none (some "unavailable") zeroSource zeroSource]

example : ∃ r ∈ runActions step (start plainLayers .singlePass 1)
    (fourRows ++ [.server (.addRows id [5, 6, 7, 8] [[50], [60], [70], [80]]),
      .update none none zeroSource zeroSource]),
    ∃ result ∈ r.2.client.readFrom false false r.2.server.staticDb (fun _ => zeroSource) 1,
      result.1 = ([10], none) := by
  decide +kernel

end RetrySystem

end SinglePassPIR.Updatable
