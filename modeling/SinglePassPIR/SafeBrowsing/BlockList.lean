import SinglePassPIR.Pir.PaddedTables
import SinglePassPIR.SafeBrowsing.Proxy

/-!
# A list of blocked pages

A server can be started with a list of blocked pages. `ReadBlockedURLs` makes a key and a row of
each of them, the first four bytes of its hash and the hash, `rpc_server` presets the rows of the
database with them, and `Configure` stores them in a new updatable server. A proxy then tells a
browser which prefixes there are and the hash behind each of them.

SHA-256 is not in the repository. Of two pages with one prefix the server keeps one.

## Main results

* `configure_spec` — the rows of a configured server are the hashes of the list.
* `blockList_found` — what a browser finds, along every run of a proxy of such a server.
-/

namespace SinglePassPIR.SafeBrowsing
open Updatable Pir KeyLog

/-! ## The list -/

/-- `sha256` -/
structure Sha256 where
  sum : List UInt8 → List UInt8
  length_sum : ∀ data, (sum data).length = 32

/-- `ComputeHash` -/
def computeHash (H : Sha256) (url : List UInt8) : List UInt8 × List UInt8 :=
  ((H.sum url).take 4, H.sum url)

/-- The encodings of the runes that `unicode.IsSpace` holds of. -/
def spaces : List (List UInt8) :=
  [[9], [10], [11], [12], [13], [32], [0xC2, 0x85], [0xC2, 0xA0], [0xE1, 0x9A, 0x80]] ++
    (List.range 11).map (fun i => [0xE2, 0x80, 0x80 + UInt8.ofNat i]) ++
    [[0xE2, 0x80, 0xA8], [0xE2, 0x80, 0xA9], [0xE2, 0x80, 0xAF], [0xE2, 0x81, 0x9F],
      [0xE3, 0x80, 0x80]]

/-- `len(strings.TrimSpace(line)) == 0`; the first argument bounds the number of runes. -/
def isBlank : ℕ → List UInt8 → Bool
  | _, [] => true
  | 0, _ :: _ => false
  | fuel + 1, b :: line => spaces.any fun space =>
      space.isPrefixOf (b :: line) && isBlank fuel ((b :: line).drop space.length)

/-- The lines that are skipped: comments, with `//` or `#`, and blank ones. -/
def isSkipped (line : List UInt8) : Bool :=
  [47, 47].isPrefixOf line || [35].isPrefixOf line || isBlank line.length line

/-- `ReadBlockedURLs`, from the lines of the scanner -/
def readBlockedURLs (H : Sha256) : List (List UInt8) → Option (List UInt32 × List (List UInt8))
  | [] => some ([], [])
  | line :: lines =>
      if isSkipped line then readBlockedURLs H lines
      else do
        let (partialHash, full) := computeHash H line
        let key ← uint32LE partialHash
        let (keys, values) ← readBlockedURLs H lines
        some (UInt32.ofNat key :: keys, full :: values)

/-! ## The server -/

/-- `RowIndexVal` -/
structure RowIndexVal where
  index : ℕ
  key : UInt32
  value : List UInt8

/-- `TestConfig`, less what an updatable server does not need -/
structure TestConfig where
  numRows : ℕ
  rowLen : ℕ
  presetRows : List RowIndexVal

/-- `readBlockedURLs` and `main` of `rpc_server`: the rows of the list and their number. -/
def blockListConfig (rowLen : ℕ) (partials : List UInt32) (full : List (List UInt8)) : TestConfig where
  numRows := partials.length
  rowLen := rowLen
  presetRows := (List.zip partials full).zipIdx.map fun r => ⟨r.2, r.1.1, r.1.2⟩

/-- `copy(dst, src)` -/
def copyOver (dst src : List UInt8) : List UInt8 := src.take dst.length ++ dst.drop src.length

/-- The body of the loop of `Configure` over the preset rows. -/
def presetRow (st : List (List UInt8) × List UInt32) (preset : RowIndexVal) :
    Option (List (List UInt8) × List UInt32) := do
  let row ← st.1[preset.index]?
  let rows ← writeAt st.1 preset.index (copyOver row preset.value)
  let keys ← writeAt st.2 preset.index preset.key
  some (rows, keys)

/-- `serverDriver.Configure`, for an updatable server; `draws` are the keys of `MakeKeys`. -/
def configure (sortOps : List DbOp → List DbOp) (src : ℕ → ℕ → UInt8) (draws : ℕ → UInt32)
    (config : TestConfig) : Option Server := do
  let rows ← makeRows src config.numRows config.rowLen
  let keys := (List.range config.numRows).map draws
  let (rows, keys) ← config.presetRows.foldlM presetRow (rows, keys)
  newUpdatableServer.addRows sortOps keys rows

/-! ## Prefixes -/

/-- The key of a hash. -/
def prefixKey (hash : List UInt8) : UInt32 := UInt32.ofNat ((uint32LE hash).getD 0)

theorem or_shiftLeft {x k : ℕ} (hx : x < 2 ^ k) (y : ℕ) : x ||| y <<< k = x + 2 ^ k * y := by
  rw [Nat.or_comm, ← Nat.shiftLeft_add_eq_or_of_lt hx, Nat.shiftLeft_eq, Nat.add_comm, Nat.mul_comm]

theorem uint32LE_cons (b₀ b₁ b₂ b₃ : UInt8) (rest : List UInt8) :
    uint32LE (b₀ :: b₁ :: b₂ :: b₃ :: rest) =
      some (b₀.toNat + 2 ^ 8 * b₁.toNat + 2 ^ 16 * b₂.toNat + 2 ^ 24 * b₃.toNat) := by
  have h₀ := b₀.toNat_lt
  have h₁ := b₁.toNat_lt
  have h₂ := b₂.toNat_lt
  rw [uint32LE, or_shiftLeft (k := 8) h₀, or_shiftLeft (k := 16) (by omega),
    or_shiftLeft (k := 24) (by omega)]

/-- Two hashes have one key if their first four bytes are the same. -/
theorem prefixKey_inj {hash hash' : List UInt8} (h : 4 ≤ hash.length) (h' : 4 ≤ hash'.length) :
    prefixKey hash = prefixKey hash' ↔ hash.take 4 = hash'.take 4 := by
  rcases hash with _ | ⟨a₀, _ | ⟨a₁, _ | ⟨a₂, _ | ⟨a₃, rest⟩⟩⟩⟩
  case cons.cons.cons.cons =>
    rcases hash' with _ | ⟨b₀, _ | ⟨b₁, _ | ⟨b₂, _ | ⟨b₃, rest'⟩⟩⟩⟩
    case cons.cons.cons.cons =>
      have ha := And.intro a₀.toNat_lt (And.intro a₁.toNat_lt (And.intro a₂.toNat_lt a₃.toNat_lt))
      have hb := And.intro b₀.toNat_lt (And.intro b₁.toNat_lt (And.intro b₂.toNat_lt b₃.toNat_lt))
      simp only [prefixKey, uint32LE_cons, Option.getD_some, List.take_succ_cons, List.take_zero,
        List.cons.injEq, and_true, ← UInt32.toNat_inj, ← UInt8.toNat_inj, UInt32.toNat_ofNat']
      omega
    all_goals simp at h'
  all_goals simp at h

/-! ## What the server keeps -/

/-- The pages of a list. -/
def blockedPages (lines : List (List UInt8)) : List (List UInt8) := lines.filter (!isSkipped ·)

/-- **`ReadBlockedURLs`** returns the key and the hash of every page. -/
theorem readBlockedURLs_spec (H : Sha256) (lines : List (List UInt8)) :
    readBlockedURLs H lines = some ((blockedPages lines).map fun url => prefixKey (H.sum url),
      (blockedPages lines).map H.sum) := by
  induction lines with
  | nil => rfl
  | cons line lines ih =>
      rw [readBlockedURLs]
      by_cases hskip : isSkipped line = true
      · rw [if_pos hskip, ih, blockedPages, blockedPages, List.filter_cons_of_neg (by simp [hskip])]
      · have hlen := H.length_sum line
        have hkey : uint32LE ((H.sum line).take 4) = some ((uint32LE (H.sum line)).getD 0) := by
          generalize H.sum line = hash at hlen
          rcases hash with _ | ⟨b₀, _ | ⟨b₁, _ | ⟨b₂, _ | ⟨b₃, rest⟩⟩⟩⟩
          case cons.cons.cons.cons => rfl
          all_goals simp at hlen
        rw [if_neg hskip, blockedPages, List.filter_cons_of_pos (by simp [hskip]), List.map_cons,
          List.map_cons]
        simp only [computeHash, hkey, ih, Option.bind_eq_bind, Option.bind_some]
        rfl

/-- The row of a page: its hash, in a row of `n` bytes. -/
def IsRowOf (H : Sha256) (n : ℕ) (url row : List UInt8) : Prop :=
  row.length = n ∧ row.take 32 = (H.sum url).take n

theorem isRowOf_copyOver (H : Sha256) {n : ℕ} {row : List UInt8} (hrow : row.length = n)
    (url : List UInt8) : IsRowOf H n url (copyOver row (H.sum url)) := by
  have hlen := H.length_sum url
  rcases Nat.lt_or_ge n 32 with hlt | hge
  · have hdrop : row.drop (H.sum url).length = [] := List.drop_eq_nil_of_le (by omega)
    refine ⟨?_, ?_⟩
    · rw [copyOver, hdrop, hrow, List.append_nil, List.length_take]
      omega
    · rw [copyOver, hdrop, hrow, List.append_nil, List.take_take, Nat.min_eq_right hlt.le]
  · have htake : (H.sum url).take n = H.sum url := List.take_of_length_le (by omega)
    refine ⟨?_, ?_⟩
    · rw [copyOver, hrow, htake, List.length_append, List.length_drop]
      omega
    · rw [copyOver, hrow, htake, List.take_left' hlen]

/-- The loop of `Configure` puts the keys and values in the place of what is there. -/
theorem presetRows_spec (entries : List (UInt32 × List UInt8)) :
    ∀ (pre rows : List (List UInt8)) (preKeys keys : List UInt32), pre.length = preKeys.length →
      rows.length = entries.length → keys.length = entries.length →
      ((entries.zipIdx pre.length).map fun r => RowIndexVal.mk r.2 r.1.1 r.1.2).foldlM presetRow
          (pre ++ rows, preKeys ++ keys) =
        some (pre ++ List.zipWith (fun row e => copyOver row e.2) rows entries,
          preKeys ++ entries.map Prod.fst) := by
  induction entries with
  | nil =>
      intro pre rows preKeys keys _ hrows hkeys
      obtain rfl := List.eq_nil_of_length_eq_zero hrows
      obtain rfl := List.eq_nil_of_length_eq_zero hkeys
      rfl
  | cons e entries ih =>
      intro pre rows preKeys keys hpre hrows hkeys
      obtain ⟨row, rows, rfl⟩ := List.exists_cons_of_length_eq_add_one hrows
      obtain ⟨key, keys, rfl⟩ := List.exists_cons_of_length_eq_add_one hkeys
      have hrow : (pre ++ row :: rows)[pre.length]? = some row := by simp
      have hwrite : writeAt (pre ++ row :: rows) pre.length (copyOver row e.2) =
          some ((pre ++ [copyOver row e.2]) ++ rows) := by
        rw [writeAt_eq (by simp), List.set_append_right _ _ (Nat.le_refl _)]
        simp
      have hwriteKey : writeAt (preKeys ++ key :: keys) pre.length e.1 =
          some ((preKeys ++ [e.1]) ++ keys) := by
        rw [hpre, writeAt_eq (by simp), List.set_append_right _ _ (Nat.le_refl _)]
        simp
      have hrest := ih (pre ++ [copyOver row e.2]) rows (preKeys ++ [e.1]) keys (by simp [hpre])
        (by simpa using hrows) (by simpa using hkeys)
      rw [List.length_append, List.length_singleton] at hrest
      have hstep : presetRow (pre ++ row :: rows, preKeys ++ key :: keys) ⟨pre.length, e.1, e.2⟩ =
          some ((pre ++ [copyOver row e.2]) ++ rows, (preKeys ++ [e.1]) ++ keys) := by
        simp only [presetRow, hrow, hwrite, hwriteKey, Option.bind_eq_bind, Option.bind_some]
      rw [List.zipIdx_cons, List.map_cons, List.foldlM_cons, hstep, Option.bind_eq_bind,
        Option.bind_some, hrest]
      simp

/-- A configured server is new but for one batch of puts, of the keys of the pages and their rows. -/
theorem configure_eq (H : Sha256) (lines : List (List UInt8)) {n : ℕ} (hn : 2 ≤ n)
    (sortOps : List DbOp → List DbOp) (src : ℕ → ℕ → UInt8) (draws : ℕ → UInt32) :
    ∃ rows : List (List UInt8), List.Forall₂ (IsRowOf H n) (blockedPages lines) rows ∧
      configure sortOps src draws (blockListConfig n
          ((blockedPages lines).map fun url => prefixKey (H.sum url)) ((blockedPages lines).map H.sum)) =
        newUpdatableServer.addRows sortOps ((blockedPages lines).map fun url => prefixKey (H.sum url))
          rows := by
  generalize blockedPages lines = urls
  obtain ⟨made, hmake, hcount⟩ := makeRows_spec src hn urls.length
  let entries := urls.map fun url => (prefixKey (H.sum url), H.sum url)
  have hzip : List.zip (urls.map fun url => prefixKey (H.sum url)) (urls.map H.sum) = entries :=
    List.zip_map'
  have hpreset := presetRows_spec entries [] (made.map Bytes.toList) []
    ((List.range urls.length).map draws) rfl (by simp [entries, hcount]) (by simp [entries])
  rw [List.length_nil, List.nil_append, List.nil_append, List.nil_append, List.nil_append] at hpreset
  refine ⟨List.zipWith (fun row e => copyOver row e.2) (made.map Bytes.toList) entries, ?_, ?_⟩
  · rw [List.forall₂_iff_get]
    refine ⟨by simp [entries, hcount], ?_⟩
    intro i h₁ h₂
    simp only [entries, List.get_eq_getElem, List.getElem_zipWith, List.getElem_map]
    exact isRowOf_copyOver H (Bytes.length_toList _) _
  · have hkeys : entries.map Prod.fst = urls.map fun url => prefixKey (H.sum url) := by
      simp [entries]
    simp only [configure, blockListConfig, List.length_map, hmake, hzip, hpreset, hkeys,
      Option.bind_eq_bind, Option.bind_some]

/-- Every row that the server keeps is that of a page with its prefix, and it keeps one for each. -/
structure Keeps (H : Sha256) (n : ℕ) (urls : List (List UInt8)) (s : Server) : Prop where
  row : ∀ k row, s.kv.lookup k = some row → ∃ url ∈ urls, prefixKey (H.sum url) = k ∧ IsRowOf H n url row
  none : ∀ k, s.kv.lookup k = none → ∀ url ∈ urls, prefixKey (H.sum url) ≠ k

/-- The last put of a key is one of its puts. -/
theorem replayData_puts {ops : List DbOp} (hputs : ∀ op ∈ ops, op.delete = false) (k : UInt32) :
    (∀ data, replayData ops k = some data → ∃ op ∈ ops, op.key = k ∧ op.data = data) ∧
      (replayData ops k = none → ∀ op ∈ ops, op.key ≠ k) := by
  induction ops using List.reverseRecOn with
  | nil =>
      refine ⟨?_, ?_⟩
      · intro data hdata
        cases hdata
      · intro _ op hop
        cases hop
  | append_singleton ops op ih =>
      obtain ⟨ihsome, ihnone⟩ := ih fun o ho => hputs o (List.mem_append_left _ ho)
      rw [replayData_snoc, hputs op (by simp)]
      by_cases hk : k = op.key
      · subst hk
        simp only [Function.update_self, Bool.false_eq_true, if_false, Option.some.injEq, reduceCtorEq,
          false_imp_iff, and_true]
        rintro data rfl
        exact ⟨op, by simp, rfl, rfl⟩
      · rw [Function.update_of_ne hk]
        refine ⟨?_, ?_⟩
        · intro data hdata
          obtain ⟨o, ho, hkey, hd⟩ := ihsome data hdata
          exact ⟨o, List.mem_append_left _ ho, hkey, hd⟩
        · intro hnone o ho
          rcases List.mem_append.mp ho with ho | ho
          · exact ihnone hnone o ho
          · obtain rfl := List.mem_singleton.mp ho
            exact fun h => hk h.symm

/-- **`Configure`** stores the pages in a new server, in the order of their keys. -/
theorem configure_spec (H : Sha256) (lines : List (List UInt8)) {n : ℕ} (hn : 2 ≤ n)
    {sortOps : List DbOp → List DbOp}
    (hsort : ∀ ops, (sortOps ops).Perm ops ∧ (sortOps ops).Pairwise fun a b => a.key ≤ b.key)
    (src : ℕ → ℕ → UInt8) (draws : ℕ → UInt32) {keys : List UInt32}
    (hkeys : keys = (blockedPages lines).map fun url => prefixKey (H.sum url)) :
    ∃ log server, configure sortOps src draws
        (blockListConfig n keys ((blockedPages lines).map H.sum)) = some server ∧
      server.Logged n log 0 ∧ log.map DbOp.key = keys.mergeSort (· ≤ ·) ∧
      Keeps H n (blockedPages lines) server := by
  obtain ⟨rows, hrows, hconfigure⟩ := configure_eq H lines hn sortOps src draws
  rw [← hkeys] at hconfigure
  generalize blockedPages lines = urls at hrows hconfigure hkeys ⊢
  have hlen : rows.length = urls.length := hrows.length_eq.symm
  have hkeysLen : keys.length = rows.length := by rw [hkeys, List.length_map, hlen]
  have hput : ∀ op, op ∈ putsOf keys rows → op.delete = false ∧
      ∃ url ∈ urls, prefixKey (H.sum url) = op.key ∧ IsRowOf H n url op.data := by
    intro op hop
    obtain ⟨i, hi, rfl⟩ := List.mem_iff_getElem.mp hop
    have hi' : i < urls.length := by simp [putsOf, hkeys, hlen] at hi; exact hi
    simp only [putsOf, hkeys, List.getElem_zipWith, List.getElem_map]
    exact ⟨trivial, urls[i], List.getElem_mem _, rfl,
      (List.forall₂_iff_get.mp hrows).2 i hi' (hlen ▸ hi')⟩
  have hvalid : (ServerAction.addRows sortOps keys rows).Valid n := by
    refine ⟨hkeysLen, ?_, hsort _⟩
    intro row hrow
    obtain ⟨i, hi, rfl⟩ := List.mem_iff_getElem.mp hrow
    exact ((List.forall₂_iff_get.mp hrows).2 i (hlen ▸ hi) hi).1
  obtain ⟨server, hadd, hlogged⟩ := Server.addRows_logged (newUpdatableServer_logged n) hvalid
  rw [ServerAction.ops, List.nil_append] at hlogged
  obtain ⟨hperm, hsorted⟩ := hsort (putsOf keys rows)
  have hputKeys : (putsOf keys rows).map DbOp.key = keys :=
    List.ext_getElem (by simp [putsOf, hkeysLen]) fun i _ _ => by simp [putsOf]
  refine ⟨_, server, hconfigure.trans hadd, hlogged, ?_, ?_⟩
  · refine List.Perm.eq_of_pairwise' (List.pairwise_map.mpr hsorted)
      (List.pairwise_mergeSort' (· ≤ ·) keys) ?_
    have hmap := hperm.map DbOp.key
    rw [hputKeys] at hmap
    exact hmap.trans (List.mergeSort_perm keys _).symm
  · have hkv := hlogged.kv_eq
    have hputs := replayData_puts fun op hop => (hput op (hperm.mem_iff.mp hop)).1
    constructor
    · intro k row hlookup
      rw [← hkv] at hlookup
      obtain ⟨op, hop, rfl, rfl⟩ := (hputs k).1 row hlookup
      exact (hput op (hperm.mem_iff.mp hop)).2
    · intro k hlookup url hurl hkey
      rw [← hkv] at hlookup
      have hmem : k ∈ (putsOf keys rows).map DbOp.key := by
        rw [hputKeys, hkeys, ← hkey]
        exact List.mem_map_of_mem hurl
      obtain ⟨op, hop, hop'⟩ := List.mem_map.mp hmem
      exact (hputs k).2 hlookup op (hperm.mem_iff.mpr hop) hop'

/-! ## Runs -/

/-- A match has the hash of a page with the prefix that was asked for, and there is none only where
no page has it. -/
def MatchFits (H : Sha256) (n : ℕ) (urls : List (List UInt8)) (hash : List UInt8) :
    Option ThreatMatch → Prop
  | none => ∀ url ∈ urls, (H.sum url).take 4 ≠ hash.take 4
  | some found => ∃ url ∈ urls, (H.sum url).take 4 = hash.take 4 ∧ IsRowOf H n url found.hash

/-- What a browser finds at a server that keeps the pages. -/
theorem Keeps.matchFits {H : Sha256} {n : ℕ} {urls : List (List UInt8)} {s : Server}
    (h : Keeps H n urls s) (threatTypes : List ℤ) {hash : List UInt8} (hlen : 4 ≤ hash.length) :
    MatchFits H n urls hash (matchOf s threatTypes hash) := by
  have hsum : ∀ url : List UInt8, 4 ≤ (H.sum url).length := by
    intro url
    rw [H.length_sum]
    omega
  obtain ⟨prefixInt, hprefix⟩ := Option.isSome_iff_exists.mp (uint32LE_isSome hlen)
  have hkey : prefixKey hash = UInt32.ofNat prefixInt := by rw [prefixKey, hprefix, Option.getD_some]
  rw [matchOf, hprefix, Option.bind_some, ← hkey]
  cases hlookup : s.kv.lookup (prefixKey hash) with
  | none =>
      intro url hurl heq
      exact h.none _ hlookup url hurl ((prefixKey_inj (hsum url) hlen).mpr heq)
  | some row =>
      obtain ⟨url, hurl, heq, hrow⟩ := h.row _ row hlookup
      exact ⟨url, hurl, (prefixKey_inj (hsum url) hlen).mp heq, hrow⟩

theorem Keeps.mem_sortedKeys_iff {H : Sha256} {n : ℕ} {urls : List (List UInt8)} {s : Server}
    (h : Keeps H n urls s) (k : UInt32) :
    k ∈ sortedKeys s ↔ ∃ url ∈ urls, prefixKey (H.sum url) = k := by
  rw [sortedKeys, List.mem_mergeSort, ← AList.mem_keys, ← AList.lookup_isSome]
  constructor
  · intro hsome
    obtain ⟨row, hrow⟩ := Option.isSome_iff_exists.mp hsome
    obtain ⟨url, hurl, hkey, -⟩ := h.row k row hrow
    exact ⟨url, hurl, hkey⟩
  · rintro ⟨url, hurl, hkey⟩
    rw [Option.isSome_iff_ne_none]
    intro hnone
    exact h.none k hnone url hurl hkey

/-- What a browser gets from a proxy whose server keeps the pages. -/
def BrowserSees {P : PirImpl} (H : Sha256) (n : ℕ) (urls : List (List UInt8)) (a : ProxyAction P)
    (out : ProxyOutput) : Prop :=
  match a with
  | .call _ => True
  | .fetch _ requests => ∃ resp s, out = .fetched resp ∧ Fetched s requests resp ∧
      ∀ k, k ∈ sortedKeys s ↔ ∃ url ∈ urls, prefixKey (H.sum url) = k
  | .find none => out = .found none
  | .find (some threats) => ∃ found, out = .found (some found) ∧
      List.Forall₂ (fun e => MatchFits H n urls e.1) threats.threatEntries found

variable {A : Dpf.Prf} {env : Env} {addr n : ℕ}

theorem Keeps.browserSees {H : Sha256} {urls : List (List UInt8)}
    {s s' : ReadSystem (layeredPunc A env addr)} (h : Keeps H n urls s.synced)
    {a : ProxyAction (layeredPunc A env addr)} {out : ProxyOutput} (hproper : Proper env addr n A s a)
    (hcorrect : Correct s a out s') : BrowserSees H n urls a out := by
  cases a with
  | call a => trivial
  | fetch orders requests =>
      obtain ⟨resp, rfl, hfetched⟩ := hcorrect
      exact ⟨resp, _, rfl, hfetched, h.mem_sortedKeys_iff⟩
  | find threats =>
      cases threats with
      | none => exact hcorrect
      | some threats =>
          refine ⟨_, hcorrect, ?_⟩
          rw [List.forall₂_map_right_iff, List.forall₂_same]
          intro e he
          exact h.matchFits _ (hproper.2.2.2.1 e he)

/-- **A list of blocked pages.** A server is started with the list, and a new proxy of it makes its
key update. However long the run that follows, every list that the browser fetches has the prefixes
of the pages of the list and no others, and of every hash that it asks for it learns whether a page
has its prefix, and the hash of such a page. -/
theorem blockList_found (A : Dpf.Prf) (env : Env) (addr : ℕ) (H : Sha256) (lines : List (List UInt8))
    (hn : 2 ≤ n) {sortOps : List DbOp → List DbOp}
    (hsort : ∀ ops, (sortOps ops).Perm ops ∧ (sortOps ops).Pairwise fun a b => a.key ≤ b.key)
    (src : ℕ → ℕ → UInt8) (draws : ℕ → UInt32) (pirType : PirType) (smallest : ℕ) :
    ∃ keys values server, readBlockedURLs H lines = some (keys, values) ∧
      configure sortOps src draws (blockListConfig n keys values) = some server ∧
      (keys.length < 2 ^ 31 → RiceFits (keys.mergeSort (· ≤ ·)) →
        ∃ s, step ⟨server, newClient pirType smallest, newUpdatableServer, none⟩ (.call .sync) =
            some (.called none, s) ∧
          ∀ as : List (ProxyAction (layeredPunc A env addr)),
            AlwaysUnder step (fun s a => Proper env addr n A s a ∧ a.Quiet)
              (fun _ a out _ => BrowserSees H n (blockedPages lines) a out) s as) := by
  obtain ⟨log, server, hconfigure, hlogged, hkeys, hkeeps⟩ :=
    configure_spec H lines hn hsort src draws rfl
  refine ⟨_, _, server, readBlockedURLs_spec H lines, hconfigure, ?_⟩
  intro hlen hfits
  have hcount : log.length < 2 ^ 31 := by
    have hlength := congrArg List.length hkeys
    rw [List.length_map, List.length_mergeSort] at hlength
    omega
  have hstart : (⟨server, newClient pirType smallest, newUpdatableServer, none⟩ :
      ReadSystem (layeredPunc A env addr)).SyncedHinted n :=
    ⟨log, 0, [], 0, hlogged, List.nil_prefix, Nat.le_refl 0,
      Client.newClient_syncedTo pirType smallest,
      by simp [newClient, WaterfallClient.new, WaterfallClient.Hinted], fun _ _ h => by cases h⟩
  have hsent : server.sentOps
      (newClient (γ := (layeredPunc A env addr).Client) pirType smallest).keyUpdatesReq = log := by
    have hfirst : (newClient (γ := (layeredPunc A env addr).Client) pirType
        smallest).keyUpdatesReq.nextTimestamp = ((0 : ℕ) : ℤ) := by
      simp [Client.keyUpdatesReq, Client.nextTimestamp, newClient, int32]
    rw [hlogged.sentOps_eq hfirst, if_neg (Nat.lt_irrefl 0), List.drop_zero]
  have hfits' : RiceFits ((server.sentOps
      (newClient (γ := (layeredPunc A env addr).Client) pirType smallest).keyUpdatesReq).map
        DbOp.key) := by
    rw [hsent, hkeys]
    exact hfits
  have hnext : server.initialTimestamp + server.ops.length < 2 ^ 31 := by
    have htime := hlogged.initialTimestamp_eq
    omega
  obtain ⟨s, hsync, hs, hserver, hsynced⟩ := hstart.sync rfl hnext (fun _ => hfits')
  refine ⟨s, ?_, fun as => ?_⟩
  · simp only [step, ReadSystem.step, ReadSystem.stepFrom, hsync, Option.bind_eq_bind, Option.bind_some, Option.map_some]
  refine alwaysUnder_of_invariant
    (fun s => s.SyncedHinted n ∧ s.server = server ∧ s.synced = server) ?_ as s
    ⟨hs, hserver, hsynced⟩
  rintro s a ⟨hs, hserver, hsynced⟩ ⟨hproper, hquiet⟩
  obtain ⟨out, s', hstep, hcorrect, hs', hsame⟩ := step_spec (by omega) hs hproper
  obtain ⟨hserver', hsynced'⟩ := hsame hquiet (hsynced.trans hserver.symm)
  have hkept : Keeps H n (blockedPages lines) s.synced := hsynced ▸ hkeeps
  exact ⟨out, s', hstep, hkept.browserSees hproper hcorrect, hs', hserver'.trans hserver,
    hsynced'.trans hserver⟩

/-- A sort by key. -/
def sortByKey (ops : List DbOp) : List DbOp := ops.mergeSort fun a b => decide (a.key ≤ b.key)

theorem sortByKey_spec (ops : List DbOp) :
    (sortByKey ops).Perm ops ∧ (sortByKey ops).Pairwise fun a b => a.key ≤ b.key := by
  refine ⟨List.mergeSort_perm ops _, ?_⟩
  have htotal : Std.Total fun a b : DbOp => a.key ≤ b.key := ⟨fun a b => UInt32.le_total a.key b.key⟩
  have htrans : IsTrans DbOp fun a b => a.key ≤ b.key := ⟨fun _ _ _ => UInt32.le_trans⟩
  exact List.pairwise_mergeSort' (fun a b : DbOp => a.key ≤ b.key) ops

/-- The hash of the page `a`. -/
def hashOfA : Sha256 where
  sum data := if data = [97] then
      [0xCA, 0x97, 0x81, 0x12, 0xCA, 0x1B, 0xBD, 0xCA, 0xFA, 0xC2, 0x31, 0xB3, 0x9A, 0x23, 0xDC, 0x4D,
        0xA7, 0x86, 0xEF, 0xF8, 0x14, 0x7C, 0x4E, 0x72, 0xB9, 0x80, 0x77, 0x85, 0xAF, 0xEE, 0x48, 0xBB]
    else List.replicate 32 0
  length_sum data := by split <;> rfl

/-- A list with a comment, the page and a blank line. -/
theorem blockList_found_one_page :
    ∃ keys values server, readBlockedURLs hashOfA [[35, 97], [97], [32]] = some (keys, values) ∧
      configure sortByKey (fun _ _ => 0) (fun _ => 0) (blockListConfig 32 keys values) = some server ∧
      ∃ s, step ⟨server, newClient .punc 2, newUpdatableServer, none⟩ (.call .sync) =
          some (.called none, s) ∧
        ∀ as : List (ProxyAction (layeredPunc ⟨id, id⟩ countingEnv 0)),
          AlwaysUnder step (fun s a => Proper countingEnv 0 32 ⟨id, id⟩ s a ∧ a.Quiet)
            (fun _ a out _ => BrowserSees hashOfA 32 (blockedPages [[35, 97], [97], [32]]) a out)
            s as := by
  obtain ⟨keys, values, server, hread, hconfigure, hruns⟩ :=
    blockList_found ⟨id, id⟩ countingEnv 0 hashOfA [[35, 97], [97], [32]] (by decide : 2 ≤ 32)
      sortByKey_spec (fun _ _ => 0) (fun _ => 0) .punc 2
  have hone : readBlockedURLs hashOfA [[35, 97], [97], [32]] =
      some ([0x128197CA], [hashOfA.sum [97]]) := by decide
  obtain ⟨rfl, rfl⟩ := Prod.mk.inj (Option.some.inj (hone.symm.trans hread))
  exact ⟨_, _, server, hread, hconfigure, hruns (by decide) (by simp [RiceFits, valRange])⟩

end SinglePassPIR.SafeBrowsing
