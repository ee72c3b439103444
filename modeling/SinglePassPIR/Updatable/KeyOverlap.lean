import SinglePassPIR.Updatable.KeyReads
import SinglePassPIR.Updatable.LayeredPuncOverlap

/-!
# Overlapping reads by key

A `Client.Read` makes its query, calls both servers, and calls the closure of the query when both
have answered. Reads that are made at the same time have these parts in any order, and a server may
add and delete rows between the answers that it gives to one and the same read.

The parts of a read are steps of their own here, beside those of `ReadSystem`.

## Main results

* `Client.readFrom_parts` — a read is its parts, one after the other.
* `keys_overlap` — overlapping reads return the rows of their keys at the last update.
-/

namespace SinglePassPIR.Updatable
open Pir Psetggm Dpf KeyLog

variable {P : PirImpl}

/-! ## A read in parts -/

/-- A read by key, with the answers that have come. -/
structure KeyRead (P : PirImpl) where
  key : UInt32
  read : PendingRead P
  left : Option (List P.Resp)
  right : Option (List P.Resp)

/-- An answer has come. -/
def KeyRead.answered (r : KeyRead P) (resps : List P.Resp) : Side → KeyRead P
  | .left => { r with left := some resps }
  | .right => { r with right := some resps }

@[simp] theorem KeyRead.read_answered (r : KeyRead P) (resps : List P.Resp) (side : Side) :
    (r.answered resps side).read = r.read := by
  cases side <;> rfl

namespace Client

/-- `Read` up to its calls of `Answer` -/
def startRead (src : ℕ → P.Source) (c : Client P.Client) (key : UInt32) :
    Option (Except String (KeyRead P) × Client P.Client) :=
  match c.keyToPos key with
  | none => some (.error "key not found", c)
  | some pos => do
      let ((left, right, ctx), waterfall) ← c.waterfall.query src pos
      some (.ok ⟨key, ⟨pos.toNat, left, right, ctx⟩, none, none⟩, { c with waterfall })

/-- `Read` from its answers on -/
def finishRead (c : Client P.Client) (ctx : WaterfallCtx P) (left right : List P.Resp) :
    Option ((List UInt8 × Option String) × Client P.Client) :=
  (c.waterfall.reconstructFunc ctx (.answers left) (.answers right)).map fun
    | (.error err, waterfall) => (([], some err), { c with waterfall })
    | (.ok row, waterfall) => ((row, none), { c with waterfall })

/-- A read whose parts follow each other, with both answers from `db`. -/
def readParts (db : StaticDB) (src : ℕ → P.Source) (c : Client P.Client) (key : UInt32) :
    Option ((List UInt8 × Option String) × Client P.Client) := do
  let (started, c) ← c.startRead src key
  match started with
  | .error err => some (([], some err), c)
  | .ok r =>
      let left ← r.read.left.process P db
      let right ← r.read.right.process P db
      c.finishRead r.read.ctx (← left.toOption) (← right.toOption)

/-- **The parts of a read.** -/
theorem readFrom_parts (hP : ∀ q db err, P.process q db ≠ some (.error err))
    (callAsync rightFirst : Bool) (db : StaticDB) (src : ℕ → P.Source) (c : Client P.Client)
    (key : UInt32) : c.readFrom callAsync rightFirst db src key = c.readParts db src key := by
  cases hkey : c.keyToPos key with
  | none => simp only [readFrom, readParts, startRead, hkey, Option.bind_eq_bind, Option.bind_some]
  | some pos =>
      simp only [readFrom, readParts, startRead, hkey, Option.bind_eq_bind, Option.bind_assoc,
        Option.bind_some]
      cases hquery : c.waterfall.query src pos with
      | none => rfl
      | some q =>
          obtain ⟨⟨reqL, reqR, ctx⟩, waterfall⟩ := q
          simp only [Option.bind_some]
          cases hL : reqL.process P db with
          | none => rfl
          | some resL =>
              cases hR : reqR.process P db with
              | none => rfl
              | some resR =>
                  cases resL with
                  | error err => exact absurd hL (processReqs_ne_error hP _ _ _)
                  | ok respsL =>
                      cases resR with
                      | error err => exact absurd hR (processReqs_ne_error hP _ _ _)
                      | ok respsR =>
                          cases hrec : waterfall.reconstructFunc ctx (.answers respsL)
                              (.answers respsR) with
                          | none =>
                              simp only [Option.bind_some, Except.toOption, read_eq hkey, hquery,
                                onSide_left, onSide_right, Except.map, finishRead, hrec,
                                Option.map_none]
                          | some res =>
                              obtain ⟨_ | row, waterfall'⟩ := res <;>
                                simp only [Option.bind_some, Except.toOption, read_eq hkey, hquery,
                                  onSide_left, onSide_right, Except.map, finishRead, hrec,
                                  Option.map_some]

end Client

/-! ## The system -/

/-- A server and a client, with the reads under way. -/
structure OverlapSystem (P : PirImpl) where
  system : ReadSystem P
  reads : List (KeyRead P)

/-- A call of the server, of an update or of a read with nothing between its parts; or one of the
parts of a read, of the read at position `k` of those under way. -/
inductive OverlapAction (P : PirImpl)
  | call (a : ReadAction P)
  | start (src : ℕ → P.Source) (key : UInt32)
  | answer (k : ℕ) (side : Side)
  | finish (k : ℕ)

namespace OverlapSystem

/-- One step, with the result of a read. A server answers as it is. -/
def step (s : OverlapSystem P) :
    OverlapAction P → Option (Option (List UInt8 × Option String) × OverlapSystem P)
  | .call a => do
      let (out, system) ← s.system.step a
      some (out, { s with system })
  | .start src key => do
      match ← s.system.client.startRead src key with
      | (.error err, _) => some (some ([], some err), s)
      | (.ok r, client) => some (none, ⟨{ s.system with client }, s.reads ++ [r]⟩)
  | .answer k side => do
      let r ← s.reads[k]?
      let resps ← (onSide r.read.left r.read.right side).process P s.system.server.staticDb
      some (none, { s with reads := s.reads.set k (r.answered (← resps.toOption) side) })
  | .finish k => do
      let r ← s.reads[k]?
      let (out, client) ← s.system.client.finishRead r.read.ctx (← r.left) (← r.right)
      some (some out, ⟨{ s.system with client }, s.reads.eraseIdx k⟩)

/-- The layers with the reads that wait for them. -/
def shared (s : OverlapSystem P) (data : List UInt8) : Shared P :=
  ⟨⟨s.system.client.waterfall, data⟩, s.reads.map KeyRead.read⟩

variable {A : Prf} {env : Env} {addr n : ℕ}

/-- An update comes when no read is under way. A read starts when no hint is awaited, its servers
answer before they have compacted the rows of the last key update, and reads that replace the same
set are finished in the order of their queries. -/
def Proper (env : Env) (addr n : ℕ) (A : Prf) (s : OverlapSystem (layeredPunc A env addr)) :
    OverlapAction (layeredPunc A env addr) → Prop
  | .call a => (s.reads = [] ∨ ∃ b, a = .server b) ∧ ReadSystem.Proper env addr n A s.system a
  | .start src key => s.system.pending = none ∧ s.system.client.KeyReady env addr n A src key
  | .answer k _ => k < s.reads.length ∧ (s.shared []).TargetLasts (puncRules A env addr) k ∧
      s.system.server.defragTimestamp = s.system.synced.defragTimestamp
  | .finish k => (∃ r, s.reads[k]? = some r ∧ r.left.isSome ∧ r.right.isSome) ∧
      (s.shared []).TargetLasts (puncRules A env addr) k ∧
      (s.shared []).InOrder (puncRules A env addr) k

/-- A read returns the row that its key had at the last update, or says that there is none. -/
def Correct (s : OverlapSystem P) (a : OverlapAction P) (out : Option (List UInt8 × Option String))
    (s' : OverlapSystem P) : Prop :=
  match a with
  | .call a => s.system.ReadsKeys a out s'.system
  | .start _ key => ∀ result, out = some result → result = s.system.synced.result key
  | .answer _ _ => True
  | .finish k => ∃ r, s.reads[k]? = some r ∧ out = some (s.system.synced.result r.key)

/-! ## The invariant -/

/-- A read is for the row of its key, and its answers come from servers that have the rows. -/
structure Waiting (synced : Server) (c : WaterfallClient P.Client) (data : List UInt8)
    (r : KeyRead P) : Prop where
  pos_lt : r.read.pos < c.numRows
  lookup : synced.kv.lookup r.key = some (rowAt c.rowLen data r.read.pos).toList
  left : ∀ resps, r.left = some resps →
    ∃ db, Stores c.rowLen data db ∧ r.read.left.process P db = some (.ok resps)
  right : ∀ resps, r.right = some resps →
    ∃ db, Stores c.rowLen data db ∧ r.read.right.process P db = some (.ok resps)

/-- The client knows the keys of the last key update, its layers keep their promise to the reads
under way, and these wait for their rows. -/
structure Overlapping (n : ℕ) (s : OverlapSystem (layeredPunc A env addr)) (log : List DbOp) (d : ℕ)
    (log₀ : List DbOp) (e : ℕ) (data : List UInt8) : Prop where
  logged : s.system.server.Logged n log d
  prefix_log : log₀ <+: log
  le : e ≤ d
  synced : s.system.client.SyncedTo (P := layeredPunc A env addr) (fun _ _ _ => True) n
    s.system.synced ((s.system.pending.map Prod.fst).getD 0) log₀ e
  prefix_data : data <+: s.system.synced.staticDb.flatDb
  shared : Shared.Inv (puncRules A env addr) (s.shared data)
  awaited : ∀ m rowLen, s.system.pending = some (m, rowLen) →
    m ≠ 0 ∧ rowLen = s.system.synced.staticDb.rowLen
  waiting : ∀ r ∈ s.reads, Waiting s.system.synced s.system.client.waterfall data r

variable {s : OverlapSystem (layeredPunc A env addr)} {log log₀ : List DbOp} {d e : ℕ}
  {data : List UInt8}

/-- With no read under way the client has all that `keys_read` needs. -/
theorem Overlapping.syncedHinted (h : s.Overlapping n log d log₀ e data) (hnil : s.reads = []) :
    s.system.SyncedHinted n := by
  obtain ⟨qs, hwaits, hkeeps⟩ := h.shared.shared
  have hempty : (s.shared data).pending = [] := by rw [OverlapSystem.shared, hnil]; rfl
  rw [hempty, List.forall₂_nil_left_iff] at hwaits
  subst hwaits
  have hserves : s.system.client.waterfall.Serves (P := layeredPunc A env addr) (PuncLayerFits env)
      data := by
    refine { h.shared.serves with serves := ?_ }
    intro layer hl client hpir
    obtain ⟨i, hi, rfl⟩ := List.getElem_of_mem hl
    obtain ⟨t, ht, hkeep⟩ := hkeeps i _ client (List.getElem?_eq_getElem hi) hpir
    exact ⟨t, ht, PuncLayerKeeps.fits hkeep⟩
  exact ⟨log, d, log₀, e, h.logged, h.prefix_log, h.le,
    { h.synced with served := ⟨data, hserves, h.prefix_data⟩ }, h.shared.hinted, h.awaited⟩

theorem overlapping_of_syncedHinted {system : ReadSystem (layeredPunc A env addr)}
    (h : system.SyncedHinted n) :
    ∃ log d log₀ e data, Overlapping n ⟨system, []⟩ log d log₀ e data := by
  obtain ⟨log, d, log₀, e, hlogged, hpre, hed, hclient, hhinted, hawaited⟩ := h
  obtain ⟨data, hserves, hdata⟩ := hclient.served
  have htrue : system.client.waterfall.Serves (P := layeredPunc A env addr) (fun _ _ _ => True)
      data := by
    refine { hserves with serves := ?_ }
    intro layer hl client hpir
    obtain ⟨t, ht, -⟩ := hserves.serves layer hl client hpir
    exact ⟨t, ht, trivial⟩
  refine ⟨log, d, log₀, e, data, hlogged, hpre, hed, { hclient with served := ⟨data, htrue, hdata⟩ },
    hdata, ⟨htrue, hhinted, [], .nil, ?_⟩, hawaited, by simp⟩
  intro l layer client hlayer hpir
  obtain ⟨t, ht, hfits⟩ := hserves.serves layer (List.mem_of_getElem? hlayer) client hpir
  exact ⟨t, ht, .of_fits hfits⟩

/-- The layers have moved on, and keep the rows. -/
theorem Overlapping.synced_with (h : s.Overlapping n log d log₀ e data)
    {waterfall : WaterfallClient PuncLayerClient}
    (hbare : waterfall.bare = s.system.client.waterfall.bare)
    (hserves : waterfall.Serves (P := layeredPunc A env addr) (fun _ _ _ => True) data) :
    ({ s.system.client with waterfall } : Client PuncLayerClient).SyncedTo
      (P := layeredPunc A env addr) (fun _ _ _ => True) n s.system.synced
      ((s.system.pending.map Prod.fst).getD 0) log₀ e where
  logged := h.synced.logged
  small := h.synced.small
  follows := h.synced.follows.with_waterfall _
  served := ⟨data, hserves, h.prefix_data⟩
  count := by
    show waterfall.numRows + _ = _
    rw [WaterfallClient.numRows_of_bare hbare]
    exact h.synced.count
  rowLen_eq := by
    show waterfall.numRows ≠ 0 → waterfall.rowLen = n
    rw [WaterfallClient.numRows_of_bare hbare, WaterfallClient.rowLen_of_bare hbare]
    exact h.synced.rowLen_eq

theorem Waiting.of_bare {synced : Server} {c c' : WaterfallClient PuncLayerClient}
    {r : KeyRead (layeredPunc A env addr)} (h : Waiting synced c data r) (hbare : c'.bare = c.bare) :
    Waiting synced c' data r := by
  obtain ⟨hpos, hlookup, hleft, hright⟩ := h
  have hrowLen := WaterfallClient.rowLen_of_bare hbare
  exact ⟨(WaterfallClient.numRows_of_bare hbare).symm ▸ hpos, hrowLen.symm ▸ hlookup,
    hrowLen.symm ▸ hleft, hrowLen.symm ▸ hright⟩

/-- **A read starts.** -/
theorem Overlapping.start (h : s.Overlapping n log d log₀ e data) (hn : 0 < n)
    {src : ℕ → PuncLayerSource} {key : UInt32}
    (hproper : s.Proper env addr n A (.start src key)) :
    ∃ out s', s.step (.start src key) = some (out, s') ∧ s.Correct (.start src key) out s' ∧
      s'.Overlapping n log d log₀ e data := by
  obtain ⟨hnone, hready⟩ := hproper
  cases hkey : s.system.client.keyToPos key with
  | none =>
      refine ⟨some ([], some "key not found"), s, ?_, ?_, h⟩
      · simp only [step, Client.startRead, hkey, Option.bind_eq_bind, Option.bind_some]
      · intro result hresult
        rw [← Option.some.inj hresult, Server.result,
          (h.synced.keyToPos_eq_none_iff key).mp hkey]
  | some p =>
      obtain ⟨pos, rfl, hlt, hlookup⟩ := h.synced.lookup_eq hkey
      have hcount := h.synced.count
      have hrows := h.synced.numRows_eq
      rw [hnone] at hcount
      have hpos : pos < s.system.client.waterfall.numRows := by
        simp only [Option.map_none, Option.getD_none] at hcount
        omega
      have hrowLen := h.synced.rowLen_eq (by omega)
      have hsized : (⟨s.system.client.waterfall, data⟩ : Waterfall (layeredPunc A env addr)).Sized
          env addr := by
        have hle := h.synced.logged.numRows_le
        have hsmall := h.synced.small
        refine ⟨hrowLen ▸ hn, ?_, hrowLen ▸ hready.flat_lt, hrowLen ▸ hready.aligned⟩
        dsimp only
        omega
      -- the query of the layers
      have hasks : (s.shared data).Proper (puncRules A env addr) (.query src pos) :=
        ⟨hpos, fun layer hl hne => hsized.fits h.shared.serves hl hne, hready.ready pos hkey⟩
      obtain ⟨s', hstep, hs'⟩ := h.shared.query hasks
      simp only [Shared.step, OverlapSystem.shared, Option.bind_eq_bind, Option.bind_eq_some_iff,
        Option.some.injEq, Prod.mk.injEq, true_and] at hstep
      obtain ⟨⟨⟨reqL, reqR, ctx⟩, waterfall⟩, hquery, rfl⟩ := hstep
      have hbare := WaterfallClient.query_bare hquery
      refine ⟨none, ⟨{ s.system with client := { s.system.client with waterfall } },
        s.reads ++ [⟨key, ⟨pos, reqL, reqR, ctx⟩, none, none⟩]⟩, ?_, ?_, h.logged, h.prefix_log, h.le,
        h.synced_with hbare hs'.serves, h.prefix_data, ?_, h.awaited, ?_⟩
      · simp only [step, Client.startRead, hkey, hquery, Option.bind_eq_bind, Option.bind_some,
          Int.toNat_natCast]
      · intro result hresult
        cases hresult
      · rw [OverlapSystem.shared, List.map_append]
        exact hs'
      · intro r hr
        cases List.mem_append.mp hr with
        | inl hr => exact (h.waiting r hr).of_bare hbare
        | inr hr =>
            rw [List.mem_singleton.mp hr]
            refine Waiting.of_bare ⟨hpos, ?_, by simp, by simp⟩ hbare
            have hend : pos * s.system.client.waterfall.rowLen + s.system.client.waterfall.rowLen ≤
                data.length := h.shared.serves.length_eq ▸ block_end_le hpos
            rw [hlookup, ← hrowLen, rowAt_prefix h.prefix_data hend]

/-- **A server answers.** -/
theorem Overlapping.answer (h : s.Overlapping n log d log₀ e data) {k : ℕ} {side : Side}
    (hproper : s.Proper env addr n A (.answer k side)) :
    ∃ s', s.step (.answer k side) = some (none, s') ∧ s'.Overlapping n log d log₀ e data := by
  obtain ⟨hk, hlasts, hsame⟩ := hproper
  obtain ⟨r, hr⟩ : ∃ r, s.reads[k]? = some r := ⟨_, List.getElem?_eq_getElem hk⟩
  have hwaiting := h.waiting r (List.mem_of_getElem? hr)
  -- the server still has the rows
  rw [h.logged.defragTimestamp_eq, h.synced.logged.defragTimestamp_eq, Nat.cast_inj] at hsame
  subst hsame
  have hpos := hwaiting.pos_lt
  have hcount := h.synced.count
  have hrows := h.synced.numRows_eq
  have hrowLen := h.synced.rowLen_eq (by omega)
  obtain ⟨hstored, hflat⟩ := h.synced.logged.stores h.logged h.prefix_log (by omega)
  have hdb : Stores s.system.client.waterfall.rowLen data s.system.server.staticDb :=
    ⟨hstored.trans hrowLen.symm, h.prefix_data.trans hflat⟩
  have hp : (s.shared data).pending[k]? = some r.read := by simp [OverlapSystem.shared, hr]
  obtain ⟨⟨respsL, hL⟩, respsR, hR⟩ := h.shared.answers hp hlasts hdb
  obtain ⟨resps, hresps⟩ : ∃ resps, (onSide r.read.left r.read.right side).process
      (layeredPunc A env addr) s.system.server.staticDb = some (.ok resps) := by
    cases side with
    | left => exact ⟨respsL, hL⟩
    | right => exact ⟨respsR, hR⟩
  refine ⟨{ s with reads := s.reads.set k (r.answered resps side) }, ?_,
    { h with shared := ?_, waiting := ?_ }⟩
  · simp only [step, hr, hresps, Except.toOption, Option.bind_eq_bind, Option.bind_some]
  · obtain ⟨hlt, rfl⟩ := List.getElem?_eq_some_iff.mp hr
    have hmap : (s.reads.set k (s.reads[k].answered resps side)).map KeyRead.read =
        s.reads.map KeyRead.read := by
      rw [List.map_set, KeyRead.read_answered, ← List.getElem_map KeyRead.read (h := by simpa using hlt),
        List.set_getElem_self]
    rw [OverlapSystem.shared, hmap]
    exact h.shared
  · intro r' hr'
    cases List.mem_or_eq_of_mem_set hr' with
    | inl hold => exact h.waiting r' hold
    | inr heq =>
        subst heq
        obtain ⟨hpos, hlookup, hleft, hright⟩ := hwaiting
        cases side with
        | left =>
            refine ⟨hpos, hlookup, ?_, hright⟩
            intro resps' hresps'
            exact ⟨_, hdb, Option.some.inj hresps' ▸ hresps⟩
        | right =>
            refine ⟨hpos, hlookup, hleft, ?_⟩
            intro resps' hresps'
            exact ⟨_, hdb, Option.some.inj hresps' ▸ hresps⟩

/-- **A read ends**, with the row of its key. -/
theorem Overlapping.finish (h : s.Overlapping n log d log₀ e data) {k : ℕ}
    (hproper : s.Proper env addr n A (.finish k)) :
    ∃ r s', s.reads[k]? = some r ∧
      s.step (.finish k) = some (some (s.system.synced.result r.key), s') ∧
      s'.Overlapping n log d log₀ e data := by
  obtain ⟨⟨r, hr, hleft, hright⟩, hlasts, horder⟩ := hproper
  obtain ⟨respsL, hleft⟩ := Option.isSome_iff_exists.mp hleft
  obtain ⟨respsR, hright⟩ := Option.isSome_iff_exists.mp hright
  obtain ⟨-, hlookup, hwaitL, hwaitR⟩ := h.waiting r (List.mem_of_getElem? hr)
  obtain ⟨dbL, hdbL, hL⟩ := hwaitL respsL hleft
  obtain ⟨dbR, hdbR, hR⟩ := hwaitR respsR hright
  have hp : (s.shared data).pending[k]? = some r.read := by simp [OverlapSystem.shared, hr]
  -- as the `reconstruct` of the layers
  have hproper : (s.shared data).Proper (puncRules A env addr) (.reconstruct k dbL dbR) :=
    ⟨(List.getElem?_eq_some_iff.mp hp).1, horder, hdbL, hdbR, hlasts⟩
  obtain ⟨p, s', hp', hstep, hs'⟩ := h.shared.reconstruct hproper
  obtain rfl : r.read = p := Option.some.inj (hp.symm.trans hp')
  simp only [Shared.step, hp, hL, hR, Except.toOption, Option.bind_eq_bind, Option.bind_some,
    Option.bind_eq_some_iff, Option.some.injEq, Prod.mk.injEq] at hstep
  obtain ⟨⟨row, waterfall⟩, hrec, hout, rfl⟩ := hstep
  have hrec : s.system.client.waterfall.reconstruct (P := layeredPunc A env addr) r.read.ctx respsL
      respsR = some (.ok (rowAt s.system.client.waterfall.rowLen data r.read.pos).toList,
        waterfall) := hrec.trans (congrArg (fun row => some (row, waterfall)) hout)
  have hbare := WaterfallClient.reconstruct_bare hrec
  refine ⟨r, ⟨{ s.system with client := { s.system.client with waterfall } },
    s.reads.eraseIdx k⟩, hr, ?_, h.logged, h.prefix_log, h.le, h.synced_with hbare hs'.serves,
    h.prefix_data, ?_, h.awaited, ?_⟩
  · simp only [step, hr, hleft, hright, Client.finishRead, WaterfallClient.reconstructFunc, hrec,
      Server.result, hlookup, Option.map_some, Option.bind_eq_bind, Option.bind_some]
  · rw [OverlapSystem.shared, ← List.eraseIdx_map]
    exact hs'
  · intro r' hr'
    exact (h.waiting r' (List.mem_of_mem_eraseIdx hr')).of_bare hbare

/-- **A call**, of the server or with no read under way. -/
theorem Overlapping.call (h : s.Overlapping n log d log₀ e data) (hn : 0 < n)
    {a : ReadAction (layeredPunc A env addr)} (hproper : s.Proper env addr n A (.call a)) :
    ∃ out s', s.step (.call a) = some (out, s') ∧ s.system.ReadsKeys a out s'.system ∧
      ∃ log d log₀ e data, s'.Overlapping n log d log₀ e data := by
  obtain ⟨hquiet, hproper⟩ := hproper
  cases hquiet with
  | inl hnil =>
      obtain ⟨out, system, hstep, hreads, hs'⟩ := (h.syncedHinted hnil).step hn hproper
      refine ⟨out, { s with system }, ?_, hreads, ?_⟩
      · simp only [step, hstep, Option.bind_eq_bind, Option.bind_some]
      · rw [hnil]
        exact overlapping_of_syncedHinted hs'
  | inr hserver =>
      obtain ⟨b, rfl⟩ := hserver
      obtain ⟨server, d', hserver, hlogged, hle⟩ := Server.step_logged h.logged hproper
      refine ⟨none, { s with system := { s.system with server } }, ?_, ?_, log ++ b.ops, d', log₀, e,
        data, { h with
          logged := hlogged
          prefix_log := h.prefix_log.trans (List.prefix_append _ _)
          le := h.le.trans hle }⟩
      · simp only [step, ReadSystem.step, ReadSystem.stepFrom, hserver, Option.bind_eq_bind, Option.bind_some]
      · intro _ _ _ _ haction
        cases haction

/-- **Overlapping reads by key.** In every run of a new client of type `Punc` or `DPF` and a new
server, where the queries, the two answers and the closures of any number of reads come in any order
and the server adds and deletes rows between them, no step gets stuck and every read returns the row
that its key had at the last update, or says that there is none. -/
theorem keys_overlap (A : Prf) (env : Env) (addr : ℕ) (hn : 0 < n) (pirType : PirType)
    (smallest : ℕ) (as : List (OverlapAction (layeredPunc A env addr))) :
    AlwaysUnder step (Proper env addr n A) Correct
      ⟨ReadSystem.start (layeredPunc A env addr) pirType smallest, []⟩ as := by
  refine alwaysUnder_of_invariant
    (fun s => ∃ log d log₀ e data, s.Overlapping n log d log₀ e data) ?_ as _
    (overlapping_of_syncedHinted (ReadSystem.start_synced pirType smallest))
  rintro s a ⟨log, d, log₀, e, data, h⟩ hproper
  cases a with
  | call a => exact h.call hn hproper
  | start src key =>
      obtain ⟨out, s', hstep, hcorrect, hs'⟩ := h.start hn hproper
      exact ⟨out, s', hstep, hcorrect, log, d, log₀, e, data, hs'⟩
  | answer k side =>
      obtain ⟨s', hstep, hs'⟩ := h.answer hproper
      exact ⟨none, s', hstep, trivial, log, d, log₀, e, data, hs'⟩
  | finish k =>
      obtain ⟨r, s', hr, hstep, hs'⟩ := h.finish hproper
      exact ⟨_, s', hstep, ⟨r, hr, rfl⟩, log, d, log₀, e, data, hs'⟩

/-- Two reads of the nine rows overlap, and key 2 is deleted between the answers to its read. -/
def twoReads : List (OverlapAction (layeredPunc ⟨id, id⟩ countingEnv 0)) :=
  ReadSystem.nineRows.map .call ++
    [.start (fun _ => ReadSystem.countingSource) 7, .start (fun _ => ReadSystem.countingSource) 2,
      .answer 1 .right, .answer 0 .left, .call (.server (.deleteRows [2])), .answer 1 .left,
      .finish 1, .answer 0 .right, .finish 0]

theorem keys_overlap_two_reads :
    AlwaysUnder step (Proper countingEnv 0 1 ⟨id, id⟩) Correct
      ⟨ReadSystem.start (layeredPunc ⟨id, id⟩ countingEnv 0) .punc 2, []⟩ twoReads :=
  keys_overlap ⟨id, id⟩ countingEnv 0 (by decide) .punc 2 twoReads

/-- Both return their rows. -/
example :
    (runActions step ⟨ReadSystem.start (layeredPunc ⟨id, id⟩ countingEnv 0) .punc 2, []⟩
      twoReads).map (fun r => r.1.filterMap id) = some [([20], none), ([70], none)] := by
  decide +kernel

end OverlapSystem

end SinglePassPIR.Updatable
