import SinglePassPIR.Updatable.KeyUpdates

/-!
# Key updates on the wire

The operations that a key update carries, from `opsToKeyUpdates` to the start of
`processKeyUpdate`. A list of keys that is out of order travels as it is, a sorted one in
the Rice code, and the bitmap tells the deletions.

## Main results

* `setDeletions_spec` — the bitmap.
* `keyMessage_decoded` — a message is read back if the coding of its keys is lossless.
* `keyMessage_roundTrip` — the messages that are read back, exactly.
-/

namespace SinglePassPIR.Updatable

/-! ## The bitmap -/

/-- Bit `i` of a bitmap. -/
def bitAt (bits : List UInt8) (i : ℕ) : Bool := (bits.getD (i / 8) 0).toNat.testBit (i % 8)

theorem toNat_bitMask {j : ℕ} (hj : j < 8) : (UInt8.ofNat (1 <<< j)).toNat = 2 ^ j := by
  have hlt : 2 ^ j < 2 ^ 8 := Nat.pow_lt_pow_right (by decide) hj
  rw [Nat.one_shiftLeft]
  exact UInt8.toNat_ofNat_of_lt' hlt

theorem testBit_or_bitMask (byte : UInt8) {j : ℕ} (hj : j < 8) (k : ℕ) :
    (byte ||| UInt8.ofNat (1 <<< j)).toNat.testBit k = (byte.toNat.testBit k || decide (j = k)) := by
  rw [UInt8.toNat_or, toNat_bitMask hj, Nat.testBit_or, Nat.testBit_two_pow]

theorem and_bitMask_ne_zero (byte : UInt8) {j : ℕ} (hj : j < 8) :
    decide (byte &&& UInt8.ofNat (1 <<< j) ≠ 0) = byte.toNat.testBit j := by
  have hpos := Nat.two_pow_pos j
  have hiff : byte &&& UInt8.ofNat (1 <<< j) ≠ 0 ↔ byte.toNat.testBit j = true := by
    rw [ne_eq, ← UInt8.toNat_inj, UInt8.toNat_and, toNat_bitMask hj, Nat.and_two_pow]
    cases byte.toNat.testBit j <;> simp
  cases hbit : byte.toNat.testBit j <;> simp [hiff, hbit]

/-- Setting one bit of a bitmap. -/
theorem bitAt_set {bits : List UInt8} {j : ℕ} (hj : j < 8 * bits.length) (i : ℕ) :
    bitAt (bits.set (j / 8) (bits.getD (j / 8) 0 ||| UInt8.ofNat (1 <<< (j % 8)))) i =
      (bitAt bits i || decide (i = j)) := by
  have hmod : j % 8 < 8 := Nat.mod_lt _ (by decide)
  rw [bitAt, getD_set _ _ _ _ _ (by omega), bitAt]
  by_cases hbyte : i / 8 = j / 8
  · rw [if_pos hbyte, testBit_or_bitMask _ hmod, hbyte]
    refine congrArg _ (decide_eq_decide.mpr ?_)
    omega
  · have hne : i ≠ j := fun h => hbyte (congrArg (· / 8) h)
    simp [hbyte, hne]

/-- The bitmap tells the deletions. -/
theorem setDeletions_spec {ops : List DbOp} {bits : List UInt8}
    (hlen : ops.length ≤ 8 * bits.length) :
    ∃ bits', setDeletions ops bits = some bits' ∧ bits'.length = bits.length ∧
      ∀ i, bitAt bits' i = (bitAt bits i || ops[i]?.any DbOp.delete) := by
  induction ops using List.reverseRecOn with
  | nil => exact ⟨bits, rfl, rfl, by simp⟩
  | append_singleton ops op ih =>
      rw [List.length_append, List.length_singleton] at hlen
      obtain ⟨bits', hset, hlen', hbits⟩ := ih (by omega)
      have hlast : ∀ i, (ops ++ [op])[i]?.any DbOp.delete =
          (ops[i]?.any DbOp.delete || (decide (i = ops.length) && op.delete)) := by
        intro i
        rcases Nat.lt_trichotomy i ops.length with h | h | h
        · simp [List.getElem?_append_left h, h.ne]
        · simp [h]
        · have hnone : ops[i]? = none := List.getElem?_eq_none h.le
          have hnone' : (ops ++ [op])[i]? = none := by simpa using Nat.succ_le_of_lt h
          simp [hnone, hnone', h.ne']
      rw [setDeletions, List.zipIdx_append, List.foldlM_append]
      rw [setDeletions] at hset
      rw [hset]
      cases hdel : op.delete with
      | false => exact ⟨bits', by simp [hdel], hlen', by simp [hbits, hlast, hdel]⟩
      | true =>
          have hbyte : ops.length / 8 < bits'.length := by omega
          have hget : bits'[ops.length / 8]? = some (bits'.getD (ops.length / 8) 0) :=
            getElem?_eq_some_getD 0 hbyte
          refine ⟨bits'.set (ops.length / 8)
            (bits'.getD (ops.length / 8) 0 ||| UInt8.ofNat (1 <<< (ops.length % 8))), ?_, ?_, ?_⟩
          · simp only [Option.bind_eq_bind, Option.bind_some, List.zipIdx_cons, List.zipIdx_nil,
              List.foldlM_cons, List.foldlM_nil, Nat.zero_add, hdel, if_true, hget,
              writeAt_eq hbyte]
            rfl
          · rw [List.length_set, hlen']
          · intro i
            rw [bitAt_set (by omega), hbits, hlast, hdel, Bool.or_assoc, Bool.and_true]

/-- An operation as it travels: without its data. -/
def DbOp.wire (op : DbOp) : DbOp := { op with data := [] }

/-- The operations that a bitmap and a list of keys carry. -/
theorem updateOps_spec {ops : List DbOp} {bits : List UInt8} (hlen : ops.length ≤ 8 * bits.length)
    (hbits : ∀ i, bitAt bits i = ops[i]?.any DbOp.delete) :
    updateOps (ops.map DbOp.key) bits = some (ops.map DbOp.wire) := by
  rw [updateOps, List.length_map, mapM_range_eq (fun i => (ops.getD i ⟨0, false, []⟩).wire)]
  · refine congrArg some (List.ext_getElem (by simp) ?_)
    intro i hi hi'
    rw [List.length_map] at hi'
    simp [hi']
  · intro i hi
    have hbyte : bits[i / 8]? = some (bits.getD (i / 8) 0) := getElem?_eq_some_getD 0 (by omega)
    have hbit := hbits i
    rw [bitAt, ← and_bitMask_ne_zero _ (Nat.mod_lt i (by decide)), List.getElem?_eq_getElem hi,
      Option.any_some] at hbit
    rw [List.getElem?_map, List.getElem?_eq_getElem hi, Option.map_some, hbyte]
    simp only [Option.bind_eq_bind, Option.bind_some]
    rw [if_pos (by omega), hbit]
    simp [DbOp.wire, hi]

/-- Without a bitmap nothing is a deletion. -/
theorem updateOps_nil {ops : List DbOp} (hputs : ops.any DbOp.delete = false) :
    updateOps (ops.map DbOp.key) [] = some (ops.map DbOp.wire) := by
  rw [updateOps, List.length_map, mapM_range_eq (fun i => (ops.getD i ⟨0, false, []⟩).wire)]
  · refine congrArg some (List.ext_getElem (by simp) ?_)
    intro i hi hi'
    rw [List.length_map] at hi'
    simp [hi']
  · intro i hi
    have hdel : ops[i].delete = false := by
      simpa using List.any_eq_false.mp hputs ops[i] (List.getElem_mem hi)
    rw [List.getElem?_map, List.getElem?_eq_getElem hi]
    simp [DbOp.wire, hi, hdel]

/-- An update has the keys of its message. -/
theorem updateOps_keys {keys : List UInt32} {isDeletion : List UInt8} {newOps : List DbOp}
    (h : updateOps keys isDeletion = some newOps) : newOps.map DbOp.key = keys := by
  have hmap := map_of_mapM DbOp.key (fun i => keys.getD i 0) ?_ h
  · rw [hmap]
    exact List.ext_getElem (by simp) fun i hi hi' => by simp [hi']
  · intro i hi op hop
    rw [Option.bind_eq_bind, Option.bind_eq_some_iff] at hop
    obtain ⟨key, hkey, hop⟩ := hop
    rw [List.getD_eq_getElem?_getD, hkey, Option.getD_some]
    split_ifs at hop
    · rw [Option.bind_eq_bind, Option.bind_eq_some_iff] at hop
      obtain ⟨byte, -, hop⟩ := hop
      rw [← Option.some.inj hop]
    · rw [← Option.some.inj hop]

/-! ## Messages -/

section
variable {ρ : Type} (C : KeyCodec ρ)

/-- What `processKeyUpdate` reads from a message. -/
def readKeyUpdate (resp : KeyUpdatesResp ρ) : Option (Except String (List DbOp)) :=
  match updateKeys C resp with
  | .error err => some (.error err)
  | .ok keys => do some (.ok (← updateOps keys resp.isDeletion))

theorem processKeyUpdate_eq {γ : Type} (c : Client γ) (resp : KeyUpdatesResp ρ) :
    c.processKeyUpdate C resp = (readKeyUpdate C resp).bind fun r =>
      match r with
      | .error err => some (.error err, c.startUpdate resp)
      | .ok newOps => ((c.startUpdate resp).applyUpdate resp newOps).map fun r => (.ok r.1, r.2) := by
  rw [Client.processKeyUpdate, readKeyUpdate]
  cases updateKeys C resp with
  | error err => rfl
  | ok keys =>
      dsimp only
      cases updateOps keys resp.isDeletion with
      | none => rfl
      | some newOps => cases h : (c.startUpdate resp).applyUpdate resp newOps <;> simp [h]

variable {C}

/-- The message that `opsToKeyUpdates` fills, and what a client reads from it once it has
the keys. -/
theorem opsToKeyUpdates_spec {ops : List DbOp} (hne : ops ≠ []) (resp : KeyUpdatesResp ρ) :
    ∃ isDeletion, opsToKeyUpdates C ops resp =
        some (if (ops.map DbOp.key).Pairwise (· ≤ ·)
          then { resp with isDeletion, keysRice := C.encode (ops.map DbOp.key) }
          else { resp with isDeletion, keys := ops.map DbOp.key }) ∧
      updateOps (ops.map DbOp.key) isDeletion = some (ops.map DbOp.wire) := by
  have hpos : 0 < ops.length := List.length_pos_of_ne_nil hne
  have hlen : ops.length ≤ 8 * (List.replicate (((ops.map DbOp.key).length - 1) / 8 + 1)
      (0 : UInt8)).length := by
    rw [List.length_replicate, List.length_map]
    omega
  obtain ⟨bits, hset, hbitsLen, hbits⟩ := setDeletions_spec hlen
  refine ⟨if ops.any DbOp.delete then bits else [], ?_, ?_⟩
  · rw [opsToKeyUpdates]
    simp only [hset, Option.bind_eq_bind, Option.bind_some]
    split_ifs <;> rfl
  · cases hputs : ops.any DbOp.delete with
    | false => exact updateOps_nil hputs
    | true =>
        have hzero : ∀ n i, bitAt (List.replicate n 0) i = false := by
          intro n i
          by_cases hi : i / 8 < n <;> simp [bitAt, hi]
        have hlen' : ops.length ≤ 8 * bits.length := by rwa [hbitsLen]
        exact updateOps_spec hlen' fun i => by rw [if_pos rfl, hbits, hzero, Bool.false_or]

/-- The coding gives back the sorted lists that it is used for. -/
def KeyCodec.Lossless (C : KeyCodec ρ) : Prop :=
  ∀ keys : List UInt32, keys ≠ [] → keys.Pairwise (· ≤ ·) →
    ∃ r, C.encode keys = some r ∧ C.decode r = .ok keys

/-- The coding gives back these keys, if they are sorted. -/
def KeyCodec.Carries (C : KeyCodec ρ) (keys : List UInt32) : Prop :=
  keys.Pairwise (· ≤ ·) → ∃ r, C.encode keys = some r ∧ C.decode r = .ok keys

/-- A message is read back if the coding of its keys, where it is used, is lossless. -/
theorem keyMessage_decoded {ops : List DbOp} (hne : ops ≠ [])
    (hcodec : C.Carries (ops.map DbOp.key))
    {resp : KeyUpdatesResp ρ} (hresp : resp.keysRice = none) :
    ∃ isDeletion keysRice keys,
      opsToKeyUpdates C ops resp = some { resp with isDeletion, keysRice, keys } ∧
      readKeyUpdate C { resp with isDeletion, keysRice, keys } = some (.ok (ops.map DbOp.wire)) := by
  obtain ⟨isDeletion, hops, hread⟩ := opsToKeyUpdates_spec hne resp
  by_cases hsorted : (ops.map DbOp.key).Pairwise (· ≤ ·)
  · obtain ⟨r, henc, hdec⟩ := hcodec hsorted
    rw [if_pos hsorted] at hops
    refine ⟨isDeletion, C.encode (ops.map DbOp.key), resp.keys, hops, ?_⟩
    rw [readKeyUpdate, updateKeys, henc]
    simp [hdec, hread]
  · rw [if_neg hsorted] at hops
    refine ⟨isDeletion, none, ops.map DbOp.key, by rw [hops, ← hresp], ?_⟩
    rw [readKeyUpdate, updateKeys]
    simp [hread]

/-- The message that a server fills with `ops` is read back, without an error, as the keys and
flags of `ops`. -/
def RoundTrips (C : KeyCodec ρ) (ops : List DbOp) (resp : KeyUpdatesResp ρ) : Prop :=
  ∃ resp' newOps, opsToKeyUpdates C ops resp = some resp' ∧
    readKeyUpdate C resp' = some (.ok newOps) ∧
    newOps.map (fun op => (op.key, op.delete)) = ops.map fun op => (op.key, op.delete)

/-- A message with sorted keys is read back only if they survive the coding. -/
theorem codec_of_roundTrips {ops : List DbOp} (hne : ops ≠ [])
    (hsorted : (ops.map DbOp.key).Pairwise (· ≤ ·)) {resp : KeyUpdatesResp ρ} {r : ρ}
    (henc : C.encode (ops.map DbOp.key) = some r) (h : RoundTrips C ops resp) :
    C.decode r = .ok (ops.map DbOp.key) := by
  obtain ⟨isDeletion, hops, -⟩ := opsToKeyUpdates_spec hne resp
  obtain ⟨resp', newOps, hresp', hread, hpairs⟩ := h
  rw [hops, if_pos hsorted, Option.some.injEq] at hresp'
  subst hresp'
  rw [readKeyUpdate, updateKeys, henc] at hread
  dsimp only at hread
  cases hdec : C.decode r with
  | error err => simp [hdec] at hread
  | ok keys =>
      simp only [hdec, Option.bind_eq_bind, Option.bind_eq_some_iff, Option.some.injEq,
        Except.ok.injEq, exists_eq_right] at hread
      have hkeys : newOps.map DbOp.key = ops.map DbOp.key := by
        simpa [List.map_map, Function.comp_def] using congrArg (List.map Prod.fst) hpairs
      rw [← hkeys, updateOps_keys hread]

end

/-- The Rice code carries the keys that fit it. -/
theorem riceCodec_carries {keys : List UInt32} (hne : keys ≠ [])
    (hfits : keys.Pairwise (· ≤ ·) → RiceFits keys) : riceCodec.Carries keys := by
  intro hsorted
  obtain ⟨r, henc⟩ : ∃ r, encodeRiceIntegers keys = some r := by
    obtain ⟨first, values, rfl⟩ := List.exists_cons_of_ne_nil hne
    exact ⟨_, rfl⟩
  have hdec := (rice_roundTrip_iff hne hsorted).mpr (hfits hsorted)
  rw [henc] at hdec
  exact ⟨r, henc, hdec⟩

/-- **The messages that are read back**, exactly: a list of keys in order has to fit the Rice
code. -/
theorem keyMessage_roundTrip {ops : List DbOp} (hne : ops ≠ [])
    {resp : KeyUpdatesResp RiceDeltaEncoding} (hresp : resp.keysRice = none) :
    RoundTrips riceCodec ops resp ↔
      ((ops.map DbOp.key).Pairwise (· ≤ ·) → RiceFits (ops.map DbOp.key)) := by
  have hkeys : ops.map DbOp.key ≠ [] := by simpa using hne
  obtain ⟨r, henc⟩ : ∃ r, encodeRiceIntegers (ops.map DbOp.key) = some r := by
    obtain ⟨op, rest, rfl⟩ := List.exists_cons_of_ne_nil hne
    exact ⟨_, rfl⟩
  have hiff : (ops.map DbOp.key).Pairwise (· ≤ ·) →
      (riceCodec.decode r = .ok (ops.map DbOp.key) ↔ RiceFits (ops.map DbOp.key)) := by
    intro hsorted
    rw [← rice_roundTrip_iff hkeys hsorted, henc]
    rfl
  constructor
  · intro h hsorted
    exact (hiff hsorted).mp (codec_of_roundTrips hne hsorted henc h)
  · intro hfits
    obtain ⟨isDeletion, keysRice, keys, hops, hread⟩ :=
      keyMessage_decoded hne (riceCodec_carries hkeys hfits) hresp
    exact ⟨_, _, hops, hread, by simp [Function.comp_def, DbOp.wire]⟩

/-- The response that `KeyUpdates` starts from. -/
def emptyResp {ρ : Type} : KeyUpdatesResp ρ := ⟨0, 0, [], none, [], 0, false⟩

theorem keyMessage_roundTrip_two :
    RoundTrips riceCodec [⟨5, false, [7]⟩, ⟨7, true, []⟩] emptyResp ↔
      (([5, 7] : List UInt32).Pairwise (· ≤ ·) → RiceFits [5, 7]) :=
  keyMessage_roundTrip (by simp) rfl

/-- Two neighbouring keys: the parameter is `log2 (1 / 2)`. -/
theorem adjacent_keys_lost :
    ¬RoundTrips riceCodec [⟨5, false, [7]⟩, ⟨6, false, [8]⟩] emptyResp := by
  intro h
  have hsorted : ([5, 6] : List UInt32).Pairwise (· ≤ ·) := by decide
  obtain ⟨r, henc⟩ : ∃ r, encodeRiceIntegers [5, 6] = some r := ⟨_, rfl⟩
  have hdec : decodeRiceIntegers (some r) = .ok [5, 6] :=
    @codec_of_roundTrips _ riceCodec [⟨5, false, [7]⟩, ⟨6, false, [8]⟩] (by simp) hsorted _ r henc h
  have hfits : RiceFits [5, 6] := by
    rw [← rice_roundTrip_iff (by simp) hsorted, henc]
    exact hdec
  exact absurd hfits (by simp [RiceFits, valRange])

end SinglePassPIR.Updatable
