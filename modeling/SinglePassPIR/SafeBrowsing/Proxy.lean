import SinglePassPIR.Pir.GgmSet
import SinglePassPIR.Updatable.KeyReads
import Mathlib.Data.List.Sort

/-!
# The Safe Browsing proxy

`sbproxy.go` stands between a browser and the PIR servers. A browser fetches the prefixes of all
bad hashes, and asks for the hash behind a prefix when it visits a page that has it. The proxy
answers the first request from the keys that its client knows and the second with reads.

A request is taken as it is decoded and a response before it is encoded; the enumerations of the
protocol buffers are open and stand for their `int32`s.

## Main results

* `fetch_spec` — a fetched list decodes to the sorted keys of the server, if they fit the code.
* `proxy_correct` — both handlers, along every run of the proxy and its server.
-/

namespace SinglePassPIR.SafeBrowsing
open Updatable Pir

/-! ## Messages -/

/-- `FetchThreatListUpdatesRequest_ListUpdateRequest`, less what the proxy does not read -/
structure ListUpdateRequest where
  threatType : ℤ
  platformType : ℤ
  threatEntryType : ℤ
  deriving DecidableEq, Repr

/-- `RawHashes` -/
structure RawHashes where
  prefixSize : ℤ
  rawHashes : List UInt8
  deriving DecidableEq, Repr

/-- `ThreatEntrySet`, less the fields that are left empty -/
structure ThreatEntrySet where
  compressionType : ℤ
  riceHashes : Option RiceDeltaEncoding
  rawHashes : RawHashes
  deriving DecidableEq, Repr

/-- `FetchThreatListUpdatesResponse_ListUpdateResponse`; the checksum is its `Sha256`. -/
structure ListUpdateResponse where
  threatType : ℤ
  threatEntryType : ℤ
  platformType : ℤ
  responseType : ℤ
  additions : List ThreatEntrySet
  removals : List ThreatEntrySet
  newClientState : String
  checksum : List UInt8
  deriving DecidableEq, Repr

/-- `FetchThreatListUpdatesResponse`, with the seconds of the duration -/
structure FetchResponse where
  listUpdateResponses : List ListUpdateResponse
  minimumWaitDuration : ℤ
  deriving DecidableEq, Repr

/-- `ThreatInfo`, less what the proxy does not read. A hash comes with what the calls for it draw. -/
structure ThreatInfo (σ : Type) where
  threatTypes : List ℤ
  threatEntries : List (List UInt8 × (ℕ → σ))

/-- `ThreatMatch`, with the hash of its threat -/
structure ThreatMatch where
  threatType : ℤ
  platformType : ℤ
  threatEntryType : ℤ
  hash : List UInt8
  deriving DecidableEq, Repr

/-! ## The handlers -/

/-- `RiceEncodedHashes` -/
def riceEncodedHashes (hashInts : List UInt32) : Option RiceDeltaEncoding :=
  encodeRiceIntegers (hashInts.mergeSort (· ≤ ·))

/-- The body of the loop of `handleFetch`, where `Keys` returned `keys`. -/
def listUpdate (keys : List UInt32) (v : ListUpdateRequest) : ListUpdateResponse where
  threatType := v.threatType
  threatEntryType := v.threatEntryType
  platformType := v.platformType
  responseType := 2 -- FULL_UPDATE
  additions :=
    [{ compressionType := 2 -- RICE
       riceHashes := riceEncodedHashes keys
       rawHashes := { prefixSize := 0, rawHashes := [] } }]
  removals := []
  newClientState := "c3RhdGUgaXMgbm8gc3RhdGU="
  checksum := []

/-- `handleFetch`; `orders i` is the order of the keys in the `i`-th call of `Keys`. -/
def handleFetch (orders : ℕ → List UInt32) (listUpdateRequests : List ListUpdateRequest) :
    FetchResponse where
  listUpdateResponses := listUpdateRequests.mapIdx fun i v => listUpdate (orders i) v
  minimumWaitDuration := 60 * 60

/-- `newThreatMatch`, for all platforms and URLs -/
def newThreatMatch (tt : ℤ) (bytesIn : List UInt8) : ThreatMatch where
  threatType := tt
  platformType := 7
  threatEntryType := 1
  hash := bytesIn

variable {P : PirImpl}

/-- The match of an entry, from the row and the error of `Read`; that of a failed read stays `nil`. -/
def entryMatch (threatTypes : List ℤ) : List UInt8 × Option String → Option (Option ThreatMatch)
  | (_, some _) => some none
  | (h, none) => (threatTypes[0]?).map fun tt => some (newThreatMatch tt h)

/-- The loop of `handleFind` -/
def findLoop (threatTypes : List ℤ) :
    List (List UInt8 × (ℕ → P.Source)) → ReadSystem P →
      Option (List (Option ThreatMatch) × ReadSystem P)
  | [], s => some ([], s)
  | (hash, src) :: entries, s => do
      let prefixInt ← uint32LE hash
      let (result, client) ← s.client.readFrom false false s.server.staticDb src
        (UInt32.ofNat prefixInt)
      let first ← entryMatch threatTypes result
      let (rest, s) ← findLoop threatTypes entries { s with client }
      some (first :: rest, s)

/-- `handleFind`; a request without threats has no response. -/
def handleFind (s : ReadSystem P) :
    Option (ThreatInfo P.Source) → Option (Option (List (Option ThreatMatch)) × ReadSystem P)
  | none => some (none, s)
  | some threats => (findLoop threats.threatTypes threats.threatEntries s).map fun r => (some r.1, r.2)

/-- What happens to the proxy and its server: a call, or a request of the browser. -/
inductive ProxyAction (P : PirImpl)
  | call (a : ReadAction P)
  | fetch (orders : ℕ → List UInt32) (requests : List ListUpdateRequest)
  | find (threats : Option (ThreatInfo P.Source))

/-- What comes of it. -/
inductive ProxyOutput
  | called (result : Option (List UInt8 × Option String))
  | fetched (resp : FetchResponse)
  | found (resp : Option (List (Option ThreatMatch)))
  deriving DecidableEq

/-- One step. -/
def step (s : ReadSystem P) : ProxyAction P → Option (ProxyOutput × ReadSystem P)
  | .call a => (s.step a).map fun r => (.called r.1, r.2)
  | .fetch orders requests => some (.fetched (handleFetch orders requests), s)
  | .find threats => (handleFind s threats).map fun r => (.found r.1, r.2)

/-! ## Fetching -/

/-- The keys of a server, sorted. -/
def sortedKeys (s : Server) : List UInt32 := s.kv.keys.mergeSort (· ≤ ·)

theorem sortedKeys_pairwise (s : Server) : (sortedKeys s).Pairwise (· ≤ ·) :=
  List.pairwise_mergeSort' (· ≤ ·) s.kv.keys

/-- However the keys are ranged over, sorting makes the same list of them. -/
theorem mergeSort_eq_sortedKeys {s : Server} {keys : List UInt32} (hnodup : keys.Nodup)
    (hkeys : ∀ k, k ∈ keys ↔ k ∈ s.kv) : keys.mergeSort (· ≤ ·) = sortedKeys s := by
  have hperm : keys.Perm s.kv.keys :=
    (List.perm_ext_iff_of_nodup hnodup s.kv.keys_nodup).mpr fun k => (hkeys k).trans AList.mem_keys.symm
  refine List.Perm.eq_of_pairwise' (List.pairwise_mergeSort' (· ≤ ·) keys) (sortedKeys_pairwise s) ?_
  exact ((List.mergeSort_perm keys _).trans hperm).trans (List.mergeSort_perm s.kv.keys _).symm

/-- The response to a fetch has a full update for every list, with the Rice code of the sorted keys
of the server. It decodes to them if they fit the code, and only then. -/
structure Fetched (s : Server) (requests : List ListUpdateRequest) (resp : FetchResponse) : Prop where
  lists : resp.listUpdateResponses.map (fun r =>
    ListUpdateRequest.mk r.threatType r.platformType r.threatEntryType) = requests
  updates : ∀ r ∈ resp.listUpdateResponses, r.responseType = 2 ∧ r.removals = [] ∧
    ∃ rice, r.additions = [⟨2, rice, ⟨0, []⟩⟩] ∧ (sortedKeys s = [] → rice = none) ∧
      (sortedKeys s ≠ [] → (decodeRiceIntegers rice = .ok (sortedKeys s) ↔ RiceFits (sortedKeys s)))

/-- **Fetching**, in whatever orders the keys are ranged over. -/
theorem fetch_spec {s : Server} {orders : ℕ → List UInt32}
    (horders : ∀ i, (orders i).Nodup ∧ ∀ k, k ∈ orders i ↔ k ∈ s.kv)
    (requests : List ListUpdateRequest) : Fetched s requests (handleFetch orders requests) where
  lists := by
    refine List.ext_getElem (by simp [handleFetch]) ?_
    intro i _ _
    simp [handleFetch, listUpdate]
  updates := by
    intro r hr
    obtain ⟨i, hi, rfl⟩ := List.mem_mapIdx.mp hr
    refine ⟨rfl, rfl, _, rfl, ?_, ?_⟩
    · intro hnil
      rw [riceEncodedHashes, mergeSort_eq_sortedKeys (horders i).1 (horders i).2, hnil]
      rfl
    · intro hne
      rw [riceEncodedHashes, mergeSort_eq_sortedKeys (horders i).1 (horders i).2]
      exact rice_roundTrip_iff hne (sortedKeys_pairwise s)

/-! ## Finding -/

section
variable {A : Dpf.Prf} {env : Env} {addr n : ℕ}

/-- The match for a hash: the row that its prefix had at the last update. -/
def matchOf (s : Server) (threatTypes : List ℤ) (hash : List UInt8) : Option ThreatMatch :=
  ((uint32LE hash).bind fun prefixInt => s.kv.lookup (UInt32.ofNat prefixInt)).map
    (newThreatMatch (threatTypes.headD 0))

/-- The calls of the reads return. -/
def FindReady (env : Env) (addr n : ℕ) (A : Dpf.Prf) :
    List (List UInt8 × (ℕ → PuncLayerSource)) → ReadSystem (layeredPunc A env addr) → Prop
  | [], _ => True
  | (hash, src) :: entries, s => ∀ prefixInt, uint32LE hash = some prefixInt →
      s.client.KeyReady env addr n A src (UInt32.ofNat prefixInt) ∧
        ∀ result client, s.client.readFrom (P := layeredPunc A env addr) false false
            s.server.staticDb src (UInt32.ofNat prefixInt) = some (result, client) →
          FindReady env addr n A entries { s with client }

theorem uint32LE_isSome {hash : List UInt8} (h : 4 ≤ hash.length) : (uint32LE hash).isSome := by
  rcases hash with _ | ⟨b₀, _ | ⟨b₁, _ | ⟨b₂, _ | ⟨b₃, rest⟩⟩⟩⟩
  case cons.cons.cons.cons => rfl
  all_goals simp at h

/-- **Finding**, by induction on the entries: each read leaves the client ready for the next. -/
theorem findLoop_spec (hn : 0 < n) {threatTypes : List ℤ} (htypes : threatTypes ≠ [])
    (entries : List (List UInt8 × (ℕ → PuncLayerSource))) :
    ∀ {s : ReadSystem (layeredPunc A env addr)}, s.SyncedHinted n → s.pending = none →
      s.server.defragTimestamp = s.synced.defragTimestamp →
      (∀ e ∈ entries, 4 ≤ e.1.length) → FindReady env addr n A entries s →
      ∃ client, findLoop (P := layeredPunc A env addr) threatTypes entries s =
          some (entries.map fun e => matchOf s.synced threatTypes e.1, { s with client }) ∧
        ({ s with client } : ReadSystem (layeredPunc A env addr)).SyncedHinted n := by
  obtain ⟨tt, types, rfl⟩ := List.exists_cons_of_ne_nil htypes
  induction entries with
  | nil =>
      intro s hs _ _ _ _
      exact ⟨s.client, rfl, hs⟩
  | cons e entries ih =>
      intro s hs hnone hsame hlen hready
      obtain ⟨hash, src⟩ := e
      obtain ⟨prefixInt, hprefix⟩ :=
        Option.isSome_iff_exists.mp (uint32LE_isSome (hlen _ List.mem_cons_self))
      obtain ⟨hkey, hnext⟩ := hready prefixInt hprefix
      obtain ⟨client, hread, hs'⟩ := hs.read hn hnone hsame hkey false false
      obtain ⟨client', hloop, hs''⟩ := ih hs' hnone hsame
        (fun e he => hlen e (List.mem_cons_of_mem _ he)) (hnext _ client hread)
      refine ⟨client', ?_, hs''⟩
      have hfirst : entryMatch (tt :: types) (s.synced.result (UInt32.ofNat prefixInt)) =
          some (matchOf s.synced (tt :: types) hash) := by
        rw [matchOf, hprefix, Option.bind_some, Server.result]
        cases s.synced.kv.lookup (UInt32.ofNat prefixInt) <;> rfl
      simp only [findLoop, hprefix, hread, hfirst, hloop, List.map_cons, Option.bind_eq_bind,
        Option.bind_some]

/-! ## Runs -/

/-- The calls are those of `ReadSystem.Proper`, and `Keys` ranges over the keys of the client. A
find comes when no hint is awaited and before the server has compacted its log since the key update,
with a threat type and with hashes of four bytes at least. -/
def Proper (env : Env) (addr n : ℕ) (A : Dpf.Prf) (s : ReadSystem (layeredPunc A env addr)) :
    ProxyAction (layeredPunc A env addr) → Prop
  | .call a => ReadSystem.Proper env addr n A s a
  | .fetch orders _ => ∀ i, (orders i).Nodup ∧ ∀ k, k ∈ orders i ↔ (s.client.keyToPos k).isSome
  | .find none => True
  | .find (some threats) => s.pending = none ∧
      s.server.defragTimestamp = s.synced.defragTimestamp ∧ threats.threatTypes ≠ [] ∧
      (∀ e ∈ threats.threatEntries, 4 ≤ e.1.length) ∧ FindReady env addr n A threats.threatEntries s

/-- A fetch brings the keys of the server of the last update, and a find the rows that the prefixes
had there, each in the place of its hash. -/
def Correct {P : PirImpl} (s : ReadSystem P) (a : ProxyAction P) (out : ProxyOutput)
    (_ : ReadSystem P) : Prop :=
  match a with
  | .call _ => True
  | .fetch _ requests => ∃ resp, out = .fetched resp ∧ Fetched s.synced requests resp
  | .find threats => out = .found (threats.map fun threats =>
      threats.threatEntries.map fun e => matchOf s.synced threats.threatTypes e.1)

/-- The server stays as it is. -/
def ProxyAction.Quiet {P : PirImpl} (a : ProxyAction P) : Prop := ∀ b, a ≠ .call (.server b)

/-- One step. -/
theorem step_spec (hn : 0 < n) {s : ReadSystem (layeredPunc A env addr)} (hs : s.SyncedHinted n)
    {a : ProxyAction (layeredPunc A env addr)} (hproper : Proper env addr n A s a) :
    ∃ out s', step s a = some (out, s') ∧ Correct s a out s' ∧ s'.SyncedHinted n ∧
      (a.Quiet → s.synced = s.server → s'.server = s.server ∧ s'.synced = s.server) := by
  cases a with
  | call a =>
      obtain ⟨o, s', hstep, -, hs'⟩ := hs.step hn hproper
      refine ⟨.called o, s', ?_, trivial, hs', ?_⟩
      · simp only [step, hstep, Option.map_some]
      · intro hquiet hsame
        exact ReadSystem.step_quiet hstep (fun b hb => hquiet b (congrArg _ hb)) hsame
  | fetch orders requests =>
      obtain ⟨log, d, log₀, e, -, -, -, hclient, -, -⟩ := id hs
      have hkeys := (hclient.follows.inSync hclient.logged hclient.small).keys_eq
      refine ⟨_, s, rfl, ⟨_, rfl, ?_⟩, hs, fun _ hsame => ⟨rfl, hsame⟩⟩
      exact fetch_spec (fun i => ⟨(hproper i).1, fun k => ((hproper i).2 k).trans (hkeys k)⟩) requests
  | find threats =>
      cases threats with
      | none => exact ⟨_, s, rfl, rfl, hs, fun _ hsame => ⟨rfl, hsame⟩⟩
      | some threats =>
          obtain ⟨hnone, hsame, htypes, hlen, hready⟩ := hproper
          obtain ⟨client, hloop, hs'⟩ := findLoop_spec hn htypes threats.threatEntries hs hnone hsame
            hlen hready
          refine ⟨_, _, ?_, rfl, hs', fun _ hsame => ⟨rfl, hsame⟩⟩
          simp only [step, handleFind, hloop, Option.map_some]

/-- **The proxy and its server.** In every run of a new proxy, every list that the browser fetches
is the sorted list of the keys that the server had at the last update, wherever that list fits the
Rice code, and every hash that it asks for is answered with the row that its prefix had there. -/
theorem proxy_correct (A : Dpf.Prf) (env : Env) (addr : ℕ) (hn : 0 < n) (pirType : PirType)
    (smallest : ℕ) (as : List (ProxyAction (layeredPunc A env addr))) :
    AlwaysUnder step (Proper env addr n A) Correct
      (ReadSystem.start (layeredPunc A env addr) pirType smallest) as := by
  refine alwaysUnder_of_invariant (ReadSystem.SyncedHinted · n) ?_ as _
    (ReadSystem.start_synced pirType smallest)
  intro s a hs hproper
  obtain ⟨out, s', hstep, hcorrect, hs', -⟩ := step_spec hn hs hproper
  exact ⟨out, s', hstep, hcorrect, hs'⟩

end

/-- Two rows that are fetched and asked for. -/
def twoRows : List (ProxyAction (layeredPunc ⟨id, id⟩ countingEnv 0)) :=
  [.call (.server (.addRows id [5, 7] [[50], [70]])), .call .sync,
    .call (.hint ReadSystem.countingSource ReadSystem.countingSource),
    .fetch (fun _ => [7, 5]) [⟨1, 2, 1⟩],
    .find (some ⟨[1], [([7, 0, 0, 0], fun _ => ReadSystem.countingSource),
      ([8, 0, 0, 0, 9], fun _ => ReadSystem.countingSource)]⟩)]

theorem proxy_correct_two_rows :
    AlwaysUnder step (Proper countingEnv 0 1 ⟨id, id⟩) Correct
      (ReadSystem.start (layeredPunc ⟨id, id⟩ countingEnv 0) .punc 2) twoRows :=
  proxy_correct ⟨id, id⟩ countingEnv 0 (by decide) .punc 2 _

/-- There is no row for the second hash. -/
example :
    (runActions step (ReadSystem.start (layeredPunc ⟨id, id⟩ countingEnv 0) .punc 2) twoRows).map
      (·.1.drop 4) = some [.found (some [some (newThreatMatch 1 [70]), none])] := by
  decide +kernel

end SinglePassPIR.SafeBrowsing
