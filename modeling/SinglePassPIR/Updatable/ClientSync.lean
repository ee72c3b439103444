import SinglePassPIR.Pir.PuncInvariant
import SinglePassPIR.Updatable.KeyMessages
import SinglePassPIR.Updatable.ServerLog

/-!
# Clients that follow the log of a server

Every client keeps a copy of the keys and flags of the server's log, up to its last key
update, compacted up to the defrag timestamp that it knows. A key update brings both to the
server's: the client compacts its copy as often as the server has since, or takes
the server's log anew if its own end has been compacted away.

## Main results

* `Server.keyUpdates_spec` — what the server answers.
* `Client.sync_spec` — what a key update makes of a client.
* `clients_in_sync` — after every key update the client agrees with the server.
-/

namespace SinglePassPIR.Updatable
open Pir KeyLog

/-! ## Positions -/

/-- The row count and the positions after `ops`, from an empty client on. -/
def positions (ops : List DbOp) : ℕ × (UInt32 → Option ℤ) :=
  ops.foldl Client.positionStep (0, fun _ => none)

theorem positions_fst (ops : List DbOp) : (positions ops).1 = (puts DbOp.delete ops).length := by
  induction ops using List.reverseRecOn with
  | nil => rfl
  | append_singleton ops op ih =>
      rw [positions, List.foldl_append, List.foldl_cons, List.foldl_nil, ← positions, puts_append,
        List.length_append, ← ih, Client.positionStep]
      cases hdel : op.delete <;> simp [puts, hdel]

/-- The positions are the places of the puts, as long as they fit an `int32`. -/
theorem positions_eq_posOf {ops : List DbOp} (h : ops.length ≤ 2 ^ 31) :
    positions ops = ((puts DbOp.delete ops).length,
      fun k => (posOf DbOp.key DbOp.delete ops k).map fun i : ℕ => (i : ℤ)) := by
  induction ops using List.reverseRecOn with
  | nil => rfl
  | append_singleton ops op ih =>
      rw [List.length_append, List.length_singleton] at h
      have hcount : (posState DbOp.key DbOp.delete ops).1 = (puts DbOp.delete ops).length :=
        posState_fst ops
      have hputs : (puts DbOp.delete ops).length ≤ ops.length := List.length_filter_le ..
      rw [positions, List.foldl_append, List.foldl_cons, List.foldl_nil, ← positions,
        ih (by omega), Client.positionStep, puts_append, List.length_append]
      have hpos : posOf DbOp.key DbOp.delete (ops ++ [op]) =
          (posStep DbOp.key DbOp.delete (posState DbOp.key DbOp.delete ops) op).2 := by
        rw [posOf, posState_snoc]
      rw [hpos, posStep, toInt32_eq (by omega), hcount]
      cases hdel : op.delete with
      | true =>
          refine Prod.ext (by simp [puts, hdel]) ?_
          funext k
          by_cases hk : k = op.key
          · subst hk
            simp
          · simp [hk, posOf]
      | false =>
          refine Prod.ext (by simp [puts, hdel]) ?_
          funext k
          by_cases hk : k = op.key
          · subst hk
            simp
          · simp [hk, posOf]

section
variable {γ : Type}

/-- `updatePositionMap` over the new operations of a client whose positions were right. -/
theorem updatePositionMap_eq {c : Client γ} {old new : List DbOp} (hops : c.ops = old ++ new)
    (hpos : (c.numRows, c.keyToPos) = positions old) :
    c.updatePositionMap (c.ops.length - new.length) =
      { c with numRows := (positions c.ops).1, keyToPos := (positions c.ops).2 } := by
  have hdrop : c.ops.drop (c.ops.length - new.length) = new := by
    rw [hops, List.length_append, Nat.add_sub_cancel, List.drop_left]
  rw [Client.updatePositionMap, hdrop, hpos, hops, positions, ← List.foldl_append]
  rfl

end

/-! ## The answer of the server -/

variable {n d : ℕ} {s : Server} {log : List DbOp}

theorem int32_eq {i : ℕ} (h : i < 2 ^ 31) : int32 i = i := toInt32_eq h

/-- The first operation in the log of a server, among all of its history. -/
theorem Server.Logged.initialTimestamp_add (h : s.Logged n log d) :
    s.initialTimestamp + (liveOps (log.take d)).length = d := by
  have hlen := length_compactedOps log d
  have hinit := h.initialTimestamp_eq
  have hle := h.le_length
  rw [← h.ops_eq] at hlen
  omega

/-- The row of a put is in the table of the server. -/
theorem Server.Logged.row_eq (h : s.Logged n log d) {i : ℕ} {op : DbOp}
    (hop : (puts DbOp.delete s.ops)[i]? = some op) :
    i < s.staticDb.numRows ∧ s.staticDb.row i = some op.data := by
  have hrows : opsToRows s.ops = (puts DbOp.delete s.ops).map DbOp.data := rfl
  obtain ⟨hi, hget⟩ := List.getElem?_eq_some_iff.mp hop
  have hi' : i < (opsToRows s.ops).length := by rwa [hrows, List.length_map]
  have hrowLen : s.staticDb.rowLen = n := by
    refine h.rowLen_eq.resolve_right fun hz => ?_
    rw [puts, hz.2] at hi
    exact Nat.not_lt_zero i hi
  have hlen : ∀ row ∈ opsToRows s.ops, row.length = n := by
    intro row hrow
    obtain ⟨o, ho, rfl⟩ := List.mem_map.mp hrow
    rw [List.mem_filter, h.ops_eq] at ho
    exact h.length_eq o (compacted_subset log d ho.1) (by simpa using ho.2)
  have hrow : (opsToRows s.ops)[i] = op.data := by
    simp only [hrows, List.getElem_map, hget]
  refine ⟨h.numRows_eq ▸ hi', ?_⟩
  rw [StaticDB.row, if_neg (by rw [h.numRows_eq]; omega), StaticDB.slice, hrowLen, h.flatDb_eq,
    slice_flatten hlen hi', hrow]

/-- The position in the log of the first operation that `KeyUpdates` sends. -/
def Server.firstPos (s : Server) (req : KeyUpdatesReq) : ℤ :=
  let nextTimestamp :=
    if req.nextTimestamp < s.defragTimestamp then s.initialTimestamp else req.nextTimestamp
  if s.initialTimestamp ≤ nextTimestamp then nextTimestamp - s.initialTimestamp else 0

/-- The operations that `KeyUpdates` sends. -/
def Server.sentOps (s : Server) (req : KeyUpdatesReq) : List DbOp :=
  s.ops.drop (s.firstPos req).toNat

theorem Server.Logged.firstPos_eq (h : s.Logged n log d) {t : ℕ} {req : KeyUpdatesReq}
    (hreq : req.nextTimestamp = t) :
    s.firstPos req = (if t < d then 0 else (liveOps (log.take d)).length + (t - d) : ℕ) := by
  have hinit := h.initialTimestamp_add
  have hlive : (liveOps (log.take d)).length ≤ d :=
    (live_length_le _).trans (List.length_take_le d log)
  rw [Server.firstPos, hreq, h.defragTimestamp_eq]
  simp only [Nat.cast_lt]
  split_ifs <;> omega

/-- A client that is at `t` is sent all later operations, or the whole log if the server has
compacted operations that the client does not have. -/
theorem Server.Logged.sentOps_eq (h : s.Logged n log d) {t : ℕ} {req : KeyUpdatesReq}
    (hreq : req.nextTimestamp = t) : s.sentOps req = if t < d then s.ops else log.drop t := by
  rw [Server.sentOps, h.firstPos_eq hreq, Int.toNat_natCast]
  split_ifs with hold
  · exact List.drop_zero
  · have hdrop := @drop_compacted _ _ _ DbOp.key DbOp.delete log d (t - d)
    rw [Nat.add_sub_cancel' (Nat.le_of_not_lt hold)] at hdrop
    rw [h.ops_eq]
    exact hdrop

section
variable {ρ : Type} {C : KeyCodec ρ}

/-- **`KeyUpdates`**: the client reads the operations that it is sent. -/
theorem Server.keyUpdates_spec (h : s.Logged n log d) (h31 : log.length < 2 ^ 31)
    {t : ℕ} (ht : t ≤ log.length) {req : KeyUpdatesReq} (hreq : req.nextTimestamp = t)
    (hC : s.sentOps req ≠ [] → C.Carries ((s.sentOps req).map DbOp.key)) :
    ∃ resp, s.keyUpdates C req = some resp ∧ resp.defragTimestamp = d ∧
      resp.rowLen = s.staticDb.rowLen ∧ resp.shouldDeleteHistory = decide (t < d) ∧
      (t < d → resp.initialTimestamp = s.initialTimestamp) ∧
      readKeyUpdate C resp = some (.ok ((if t < d then s.ops else log.drop t).map DbOp.wire)) := by
  have hinit := h.initialTimestamp_add
  have hlen := h.initialTimestamp_eq
  have hlive : (liveOps (log.take d)).length ≤ d :=
    (live_length_le _).trans (List.length_take_le d log)
  have hdefrag := h.defragTimestamp_eq
  have hfirstPos := h.firstPos_eq hreq
  have hsent := h.sentOps_eq hreq
  rw [sentOps] at hsent hC
  set first := if t < d then 0 else (liveOps (log.take d)).length + (t - d) with hfirst
  rw [hfirstPos, Int.toNat_natCast] at hsent hC
  have hpos : (if s.initialTimestamp ≤ (if decide (req.nextTimestamp < s.defragTimestamp) = true
      then s.initialTimestamp else req.nextTimestamp)
      then (if decide (req.nextTimestamp < s.defragTimestamp) = true then s.initialTimestamp
        else req.nextTimestamp) - s.initialTimestamp else 0) = (first : ℤ) := by
    rw [← hfirstPos]
    simp only [decide_eq_true_eq, firstPos]
  have hdel : decide (req.nextTimestamp < s.defragTimestamp) = decide (t < d) := by
    rw [hreq, hdefrag]
    exact decide_eq_decide.mpr Nat.cast_lt
  have hfirstLe : first ≤ s.ops.length := by
    rw [hfirst]
    split_ifs <;> omega
  rw [Server.keyUpdates]
  simp only [hpos, Nat.cast_inj, Nat.cast_lt, Int.toNat_natCast]
  by_cases hend : first = s.ops.length
  · rw [List.drop_eq_nil_of_le hend.ge] at hsent
    rw [if_pos hend, ← hsent]
    refine ⟨_, rfl, hdefrag, rfl, hdel, ?_, rfl⟩
    intro hold
    -- the log of a server that has compacted is not empty
    have hlt := h.lt_length (Nat.ne_of_gt (Nat.zero_lt_of_lt hold))
    rw [hfirst, if_pos hold] at hend
    omega
  · have hne : s.ops.drop first ≠ [] := fun hnil =>
      hend (Nat.le_antisymm hfirstLe (List.drop_eq_nil_iff.mp hnil))
    have hresp : (⟨0, s.defragTimestamp, [], none, [], s.staticDb.rowLen,
        decide (req.nextTimestamp < s.defragTimestamp)⟩ : KeyUpdatesResp ρ).keysRice = none := rfl
    obtain ⟨isDeletion, keysRice, keys, hops, hread⟩ :=
      keyMessage_decoded hne (hC hne) hresp
    rw [if_neg hend, if_neg (Nat.not_lt.mpr hfirstLe), hops, ← hsent]
    refine ⟨_, rfl, hdefrag, rfl, hdel, ?_, hread⟩
    intro hold
    have hzero : first = 0 := if_pos hold
    have hnat : s.initialTimestamp = (d - (liveOps (log.take d)).length : ℕ) := by omega
    have hlt : d - (liveOps (log.take d)).length < 2 ^ 31 := by omega
    rw [hzero, Nat.cast_zero, Int.add_zero, hnat]
    dsimp only
    exact int32_eq hlt

/-! ## The client -/

variable {γ : Type}

/-- The client has followed the server up to operation `t` of its history, and its compactions up
to `d`. -/
structure Client.Follows (c : Client γ) (log : List DbOp) (t d : ℕ) : Prop where
  le_length : t ≤ log.length
  le : d ≤ t
  ops_eq : c.ops = (compactedOps (log.take t) d).map DbOp.wire
  initialTimestamp_eq : c.initialTimestamp + c.ops.length = t
  defragTimestamp_eq : c.defragTimestamp = d
  positions_eq : (c.numRows, c.keyToPos) = positions c.ops

theorem newClient_follows (pirType : PirType) (smallest : ℕ) (log : List DbOp) :
    (newClient pirType smallest : Client γ).Follows log 0 0 where
  le_length := Nat.zero_le _
  le := Nat.le_refl 0
  ops_eq := by
    rw [List.take_zero]
    rfl
  initialTimestamp_eq := rfl
  defragTimestamp_eq := rfl
  positions_eq := rfl

namespace Client
variable {c : Client γ} {t e : ℕ}

/-- Later operations do not matter to a client. -/
theorem Follows.append (h : c.Follows log t e) (batch : List DbOp) : c.Follows (log ++ batch) t e where
  le_length := by
    rw [List.length_append]
    exact Nat.le_add_right_of_le h.le_length
  le := h.le
  ops_eq := by rw [List.take_append_of_le_length h.le_length, h.ops_eq]
  initialTimestamp_eq := h.initialTimestamp_eq
  defragTimestamp_eq := h.defragTimestamp_eq
  positions_eq := h.positions_eq

/-- The first operation in the log of a client, among all of the server's history. -/
theorem Follows.initialTimestamp_add (h : c.Follows log t e) :
    c.initialTimestamp + (liveOps (log.take e)).length = e := by
  have hlen := congrArg List.length h.ops_eq
  rw [List.length_map, length_compactedOps, List.length_take, List.take_take,
    Nat.min_eq_left h.le_length, Nat.min_eq_left h.le] at hlen
  have hinit := h.initialTimestamp_eq
  have hle := h.le
  omega

/-- The compaction that a client does, and the operations that it appends, make its log that of
the server. -/
theorem Follows.compact (h : c.Follows log t e) {d : ℕ} (hed : e ≤ d) (hdt : d ≤ t) :
    ∃ numRemoved, defrag c.ops (d - c.initialTimestamp) =
      some ((compactedOps (log.take t) d).map DbOp.wire, numRemoved) := by
  have hinit := h.initialTimestamp_add
  have hlen := h.initialTimestamp_eq
  set m := (liveOps (log.take e)).length with hm
  obtain ⟨numRemoved, hdefrag⟩ := @defrag_eq c.ops (d - c.initialTimestamp) (by omega) (by omega)
  have hend : (d - c.initialTimestamp).toNat = m + (d - e) := by omega
  have htake : liveOps ((log.take t).take e) = liveOps (log.take e) := by
    rw [List.take_take, Nat.min_eq_left h.le]
  have hcomp : compactedOps (compactedOps (log.take t) e) (m + (d - e)) =
      compactedOps (log.take t) d := by
    have hle : (liveOps ((log.take t).take e)).length ≤ m + (d - e) := by
      rw [htake]
      exact Nat.le_add_right ..
    have hsum : e + (m + (d - e) - (liveOps ((log.take t).take e)).length) = d := by
      rw [htake]
      omega
    exact (compacted_compacted hle).trans (congrArg (compactedOps (log.take t)) hsum)
  refine ⟨numRemoved, ?_⟩
  rw [hdefrag, hend, h.ops_eq, compactedOps, compacted_map]
  exact congrArg (fun l => some (l, numRemoved)) (congrArg (List.map DbOp.wire) hcomp)

/-- New operations behind the log of a client. -/
theorem applyUpdate_append {resp : KeyUpdatesResp ρ} (hdefrag : ¬resp.defragTimestamp > c.defragTimestamp)
    (hpos : (c.numRows, c.keyToPos) = positions c.ops) (newOps : List DbOp) :
    c.applyUpdate resp newOps = some ((puts DbOp.delete newOps).length,
      { c with
        ops := c.ops ++ newOps, numRows := (positions (c.ops ++ newOps)).1
        keyToPos := (positions (c.ops ++ newOps)).2 }) := by
  rw [applyUpdate, if_neg hdefrag, Option.bind_eq_bind, Option.bind_some]
  exact congrArg (fun c' => some ((puts DbOp.delete newOps).length, c'))
    (@updatePositionMap_eq _ { c with ops := c.ops ++ newOps } c.ops newOps rfl hpos)

/-- New operations behind the log of a client that compacts it. -/
theorem applyUpdate_defrag {resp : KeyUpdatesResp ρ} (hdefrag : resp.defragTimestamp > c.defragTimestamp)
    {ops : List DbOp} {numRemoved : ℕ}
    (hops : defrag c.ops (resp.defragTimestamp - c.initialTimestamp) = some (ops, numRemoved))
    (newOps : List DbOp) :
    c.applyUpdate resp newOps = some ((puts DbOp.delete (ops ++ newOps)).length,
      { c with
        waterfall := c.waterfall.reset, defragTimestamp := resp.defragTimestamp
        initialTimestamp := c.initialTimestamp + (c.ops.length - ops.length)
        ops := ops ++ newOps, numRows := (positions (ops ++ newOps)).1
        keyToPos := (positions (ops ++ newOps)).2 }) := by
  rw [applyUpdate, if_pos hdefrag, hops]
  simp only [Option.bind_eq_bind, Option.bind_some]
  exact congrArg (fun c' => some ((puts DbOp.delete (ops ++ newOps)).length, c'))
    (@updatePositionMap_eq _ { c with
      waterfall := c.waterfall.reset, defragTimestamp := resp.defragTimestamp
      initialTimestamp := c.initialTimestamp + (c.ops.length - ops.length)
      ops := ops ++ newOps, numRows := 0, keyToPos := fun _ => none } [] (ops ++ newOps) rfl rfl)

/-- What a key update leaves of the layers, with the number of rows that they lack. -/
structure Pending (c c' : Client γ) (e d m : ℕ) : Prop where
  same : e = d → c'.waterfall = c.waterfall ∧ c'.numRows = c.numRows + m
  reset : e < d → c'.waterfall = c.waterfall.reset ∧ c'.numRows = m

/-- **A key update** brings a client to the end of the server's history. -/
theorem sync_spec (h : s.Logged n log d) (h31 : log.length < 2 ^ 31) (hc : c.Follows log t e)
    (hed : e ≤ d)
    (hC : s.sentOps c.keyUpdatesReq ≠ [] →
      C.Carries ((s.sentOps c.keyUpdatesReq).map DbOp.key)) :
    ∃ resp m c', s.keyUpdates C c.keyUpdatesReq = some resp ∧
      c.processKeyUpdate C resp = some (.ok m, c') ∧ c'.Follows log log.length d ∧
      resp.rowLen = s.staticDb.rowLen ∧ c.Pending c' e d m := by
  have hreq : c.keyUpdatesReq.nextTimestamp = t := by
    rw [keyUpdatesReq, nextTimestamp]
    dsimp only
    rw [hc.initialTimestamp_eq]
    exact int32_eq (hc.le_length.trans_lt h31)
  obtain ⟨resp, hresp, hdefrag, hrowLen, hdel, hinit, hread⟩ :=
    Server.keyUpdates_spec h h31 hc.le_length hreq hC
  have hlog : log.take log.length = log := List.take_length
  have hprocess := processKeyUpdate_eq C c resp
  rw [hread, Option.bind_some] at hprocess
  dsimp only at hprocess
  by_cases hold : t < d
  · -- the server has compacted operations that the client does not have
    have hne : e ≠ d := Nat.ne_of_lt (hc.le.trans_lt hold)
    have hstart : c.startUpdate resp =
        { waterfall := c.waterfall.reset, initialTimestamp := s.initialTimestamp
          defragTimestamp := resp.defragTimestamp, numRows := 0, rowLen := resp.rowLen, ops := []
          keyToPos := fun _ => none } := by
      rw [startUpdate, hdel, if_pos (by simpa using hold), hinit hold]
    rw [if_pos hold, hstart, applyUpdate_append (by simp) rfl, List.nil_append] at hprocess
    refine ⟨resp, _, _, hresp, hprocess, ⟨Nat.le_refl _, h.le_length, ?_, ?_, hdefrag, rfl⟩, hrowLen,
      ⟨fun heq => absurd heq hne, fun _ => ⟨rfl, positions_fst _⟩⟩⟩
    · rw [hlog, ← h.ops_eq]
    · dsimp only
      rw [List.length_map]
      exact h.initialTimestamp_eq
  · have hstart : c.startUpdate resp = { c with rowLen := resp.rowLen } := by
      rw [startUpdate, hdel, if_neg (by simpa using hold)]
    have hops : (compactedOps (log.take t) d).map DbOp.wire ++ (log.drop t).map DbOp.wire =
        (compactedOps log d).map DbOp.wire := by
      have hdt : d ≤ (log.take t).length := by
        rw [List.length_take, Nat.min_eq_left hc.le_length]
        exact Nat.le_of_not_lt hold
      have happ := @compacted_append _ _ _ DbOp.key DbOp.delete _ _ hdt (log.drop t)
      rw [List.take_append_drop] at happ
      rw [← List.map_append]
      exact congrArg (List.map DbOp.wire) happ.symm
    have hdrop : (log.drop t).length = log.length - t := List.length_drop
    have ht := hc.le_length
    have hlen := hc.initialTimestamp_eq
    rw [if_neg hold, hstart] at hprocess
    by_cases hlt : e < d
    · obtain ⟨numRemoved, hcompact⟩ := hc.compact hed (Nat.le_of_not_lt hold)
      rw [← hdefrag] at hcompact
      have hgt : resp.defragTimestamp > c.defragTimestamp := by
        rw [hdefrag, hc.defragTimestamp_eq]
        exact Int.ofNat_lt.mpr hlt
      have happly := @applyUpdate_defrag ρ γ { c with rowLen := resp.rowLen } resp hgt _ _ hcompact
        ((log.drop t).map DbOp.wire)
      rw [happly, hops] at hprocess
      refine ⟨resp, _, _, hresp, hprocess, ⟨Nat.le_refl _, h.le_length, ?_, ?_, hdefrag, rfl⟩,
        hrowLen, ⟨fun heq => absurd heq (Nat.ne_of_lt hlt), fun _ => ⟨rfl, positions_fst _⟩⟩⟩
      · rw [hlog]
      · have hlen' := congrArg List.length hops
        rw [List.length_append, List.length_map, List.length_map, List.length_map] at hlen'
        dsimp only
        rw [List.length_map, List.length_map]
        omega
    · have heq : e = d := Nat.le_antisymm hed (Nat.le_of_not_lt hlt)
      subst heq
      have hgt : ¬resp.defragTimestamp > c.defragTimestamp := by
        rw [hdefrag, hc.defragTimestamp_eq]
        exact lt_irrefl _
      have happly := @applyUpdate_append ρ γ { c with rowLen := resp.rowLen } resp hgt
        hc.positions_eq ((log.drop t).map DbOp.wire)
      rw [happly] at hprocess
      refine ⟨resp, _, _, hresp, hprocess, ⟨Nat.le_refl _, h.le_length, ?_, ?_, ?_, rfl⟩,
        hrowLen, ⟨fun _ => ⟨rfl, ?_⟩, fun hlt => absurd hlt (lt_irrefl e)⟩⟩
      · dsimp only
        rw [hlog, ← hops, hc.ops_eq]
      · dsimp only
        rw [List.length_append, List.length_map]
        omega
      · exact hc.defragTimestamp_eq
      · dsimp only
        rw [positions_fst, puts_append, List.length_append, ← positions_fst, ← hc.positions_eq]

/-- What a client knows of a server right after a key update. -/
structure InSync (c : Client γ) (s : Server) : Prop where
  ops_eq : c.ops.map (fun op => (op.key, op.delete)) = s.ops.map fun op => (op.key, op.delete)
  initialTimestamp_eq : c.initialTimestamp = s.initialTimestamp
  defragTimestamp_eq : c.defragTimestamp = s.defragTimestamp
  keys_eq : ∀ k, (c.keyToPos k).isSome ↔ k ∈ s.kv
  rows_eq : ∀ k v, s.kv.lookup k = some v →
    ∃ i : ℕ, c.keyToPos k = some (i : ℤ) ∧ i < s.staticDb.numRows ∧ s.staticDb.row i = some v

theorem Follows.ops_eq_wire (hc : c.Follows log log.length d) (h : s.Logged n log d) :
    c.ops = s.ops.map DbOp.wire := by
  rw [hc.ops_eq, List.take_length, h.ops_eq]

/-- The positions of a client that is up to date are those of the server's puts. -/
theorem Follows.keyToPos_eq (hc : c.Follows log log.length d) (h : s.Logged n log d)
    (h31 : log.length < 2 ^ 31) (k : UInt32) :
    c.keyToPos k = (posOf DbOp.key DbOp.delete s.ops k).map fun i : ℕ => (i : ℤ) := by
  have hops := hc.ops_eq_wire h
  have hinit := h.initialTimestamp_add
  have hlen := h.initialTimestamp_eq
  have hlive : (liveOps (log.take d)).length ≤ d :=
    (live_length_le _).trans (List.length_take_le d log)
  have hsmall : c.ops.length ≤ 2 ^ 31 := by
    rw [hops, List.length_map]
    omega
  have hpos := congrArg Prod.snd (hc.positions_eq.trans (positions_eq_posOf hsmall))
  have hmap : posOf DbOp.key DbOp.delete c.ops = posOf DbOp.key DbOp.delete s.ops := by
    rw [hops, posOf, posState_map]
    rfl
  rw [← hmap]
  exact congrFun hpos k

/-- **A client that is up to date agrees with the server.** -/
theorem Follows.inSync (hc : c.Follows log log.length d) (h : s.Logged n log d)
    (h31 : log.length < 2 ^ 31) : c.InSync s := by
  have hops := hc.ops_eq_wire h
  have hkeyToPos := hc.keyToPos_eq h h31
  have hlookup : ∀ k, (replay DbOp.key DbOp.delete s.ops k).map DbOp.data = s.kv.lookup k := by
    intro k
    rw [h.ops_eq, compactedOps, replay_compacted]
    exact h.kv_eq k
  constructor
  · rw [hops, List.map_map]
    rfl
  · have hlen := congrArg List.length hops
    have hinit := hc.initialTimestamp_eq
    have hinit' := h.initialTimestamp_eq
    rw [List.length_map] at hlen
    omega
  · rw [hc.defragTimestamp_eq, h.defragTimestamp_eq]
  · intro k
    rw [hkeyToPos, Option.isSome_map, posOf_isSome, ← AList.lookup_isSome, ← hlookup,
      Option.isSome_map, Option.isSome_iff_ne_none]
  · intro k v hv
    rw [← hlookup, Option.map_eq_some_iff] at hv
    obtain ⟨op, hreplay, rfl⟩ := hv
    rw [replay_eq_posOf, Option.bind_eq_some_iff] at hreplay
    obtain ⟨i, hi, hop⟩ := hreplay
    refine ⟨i, by rw [hkeyToPos, hi]; rfl, h.row_eq hop⟩

end Client

/-! ## Runs -/

/-- A server and its clients. -/
structure SyncSystem (γ : Type) where
  server : Server
  clients : ℕ → Client γ

/-- A call of the server, or a key update of client `i`. -/
inductive SyncAction
  | server (a : ServerAction)
  | sync (i : ℕ)

/-- One step, with the result of `processKeyUpdate`. -/
def SyncSystem.step (C : KeyCodec ρ) (s : SyncSystem γ) :
    SyncAction → Option (Option (Except String ℕ) × SyncSystem γ)
  | .server a => do some (none, { s with server := ← s.server.step a })
  | .sync i => do
      let resp ← s.server.keyUpdates C (s.clients i).keyUpdatesReq
      let (r, c) ← (s.clients i).processKeyUpdate C resp
      some (some r, { s with clients := Function.update s.clients i c })

/-- Calls have rows of `n` bytes, and key updates come while timestamps fit an `int32`. -/
def SyncSystem.Guard (n : ℕ) (s : SyncSystem γ) : SyncAction → Prop
  | .server a => a.Valid n
  | .sync _ => s.server.initialTimestamp + s.server.ops.length < 2 ^ 31

/-- After a key update the client agrees with the server. -/
def SyncSystem.SyncCorrect (_ : SyncSystem γ) (a : SyncAction) (r : Option (Except String ℕ))
    (s' : SyncSystem γ) : Prop :=
  ∀ i, a = .sync i → (∃ m, r = some (.ok m)) ∧ (s'.clients i).InSync s'.server

/-- Every client has followed the server up to some point of its history. -/
def SyncSystem.Following (n : ℕ) (s : SyncSystem γ) (log : List DbOp) (d : ℕ) : Prop :=
  s.server.Logged n log d ∧ ∀ i, ∃ t e, (s.clients i).Follows log t e ∧ e ≤ d

/-- **One step** of the system. -/
theorem SyncSystem.step_spec (hC : C.Lossless) {sys : SyncSystem γ} (h : sys.Following n log d)
    {a : SyncAction} (hguard : sys.Guard n a) :
    ∃ r sys', sys.step C a = some (r, sys') ∧ sys.SyncCorrect a r sys' ∧
      ∃ log' d', sys'.Following n log' d' := by
  obtain ⟨hlogged, hfollows⟩ := h
  cases a with
  | server a =>
      obtain ⟨s', d', hstep, h', hle⟩ := Server.step_logged hlogged hguard
      refine ⟨none, { sys with server := s' }, by simp [step, hstep], by simp [SyncCorrect],
        log ++ a.ops, d', h', fun i => ?_⟩
      obtain ⟨t, e, hc, hed⟩ := hfollows i
      exact ⟨t, e, hc.append a.ops, hed.trans hle⟩
  | sync i =>
      have h31 : log.length < 2 ^ 31 := by
        have hlen := hlogged.initialTimestamp_eq
        rw [Guard] at hguard
        omega
      obtain ⟨t, e, hc, hed⟩ := hfollows i
      obtain ⟨resp, m, c', hresp, hprocess, hc', -, -⟩ := Client.sync_spec hlogged h31 hc hed
        (fun hne hsorted => hC _ (by simpa using hne) hsorted)
      refine ⟨some (.ok m), { sys with clients := Function.update sys.clients i c' }, ?_, ?_,
        log, d, hlogged, ?_⟩
      · simp [step, hresp, hprocess]
      · intro j hj
        obtain rfl : i = j := by simpa using hj
        refine ⟨⟨m, rfl⟩, ?_⟩
        dsimp only
        rw [Function.update_self]
        exact hc'.inSync hlogged h31
      · intro j
        by_cases hij : j = i
        · subst hij
          exact ⟨log.length, d, by simpa using hc', Nat.le_refl d⟩
        · obtain ⟨t, e, hc, hed⟩ := hfollows j
          exact ⟨t, e, by simpa [hij] using hc, hed⟩

/-- **Key updates bring every client to the server's log**, in every interleaving of the calls
of a server and the key updates of any number of clients, whatever is compacted in between. -/
theorem clients_in_sync (hC : C.Lossless) (n : ℕ) (pirType : ℕ → PirType) (smallest : ℕ → ℕ)
    (as : List SyncAction) :
    AlwaysUnder (SyncSystem.step C) (SyncSystem.Guard n) SyncSystem.SyncCorrect
      (⟨newUpdatableServer, fun i => newClient (pirType i) (smallest i)⟩ : SyncSystem γ) as := by
  refine alwaysUnder_of_invariant (fun sys => ∃ log d, sys.Following n log d) ?_ as _
    ⟨[], 0, newUpdatableServer_logged n, fun i => ⟨0, 0, newClient_follows _ _ [], Nat.le_refl 0⟩⟩
  rintro sys a ⟨log, d, h⟩ hguard
  exact SyncSystem.step_spec hC h hguard

end

/-- Keys that travel as they are. -/
def plainCodec : KeyCodec (List UInt32) where
  encode := fun keys => if keys = [] then none else some keys
  decode := .ok

theorem clients_in_sync_plain :
    AlwaysUnder (SyncSystem.step plainCodec) (SyncSystem.Guard 1) SyncSystem.SyncCorrect
      (⟨newUpdatableServer, fun _ => newClient .punc 0⟩ : SyncSystem Unit)
      [.server (.addRows id [5, 6] [[1], [2]]), .sync 0, .server (.deleteRows [5, 7]),
        .server (.deleteRows [7, 7]), .sync 0, .sync 1] :=
  clients_in_sync (fun keys hne _ => ⟨keys, if_neg hne, rfl⟩) 1 _ _ _

end SinglePassPIR.Updatable
