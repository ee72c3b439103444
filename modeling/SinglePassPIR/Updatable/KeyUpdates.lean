import SinglePassPIR.Lib.KeyLog
import SinglePassPIR.Updatable.Rice
import SinglePassPIR.Updatable.Waterfall
import Mathlib.Data.List.AList

/-!
# The key log of an updatable database

`pir_updatable_server.go` and the key updates of `pir_updatable.go`, as the code computes
them. The server keeps a log of puts and deletions, the live map, and the rows of the puts in a
static database. A client asks for the operations from its next timestamp on and follows
the server's compactions.

A list of keys travels in a coding that is a parameter, `KeyCodec`; `riceCodec` is the one of the
code. `sort.Slice` is a parameter too. Timestamps are integers, and a Go map is a function
to `Option`.
-/

namespace SinglePassPIR.Updatable
open Pir

/-- `dbOp` -/
structure DbOp where
  key : UInt32
  delete : Bool
  data : List UInt8
  deriving DecidableEq, Repr

/-- The coding of the sorted key lists, `KeysRice`; `none` is the `nil` coding of no keys. -/
structure KeyCodec (ρ : Type) where
  encode : List UInt32 → Option ρ
  decode : ρ → Except String (List UInt32)

/-- The coding of the code. -/
def riceCodec : KeyCodec RiceDeltaEncoding where
  encode := encodeRiceIntegers
  decode := fun rice => decodeRiceIntegers (some rice)

/-- `int32(i)` of an integer -/
def int32 (i : ℤ) : ℤ := Int.bmod i (2 ^ 32)

/-- `KeyUpdatesReq`; the server does not read the client's `DefragTimestamp`. -/
structure KeyUpdatesReq where
  defragTimestamp : ℤ
  nextTimestamp : ℤ
  deriving DecidableEq, Repr

/-- `KeyUpdatesResp` -/
structure KeyUpdatesResp (ρ : Type) where
  initialTimestamp : ℤ
  defragTimestamp : ℤ
  keys : List UInt32
  keysRice : Option ρ
  isDeletion : List UInt8
  rowLen : ℕ
  shouldDeleteHistory : Bool
  deriving DecidableEq, Repr

/-! ## Compaction -/

/-- The variables of the first loop of `defrag`. -/
structure DefragLoop where
  keyToPos : UInt32 → Option ℕ
  freed : ℕ
  numRemoved : ℕ

/-- The body of the first loop of `defrag`, on the operation at position `i`. -/
def defragStep (st : DefragLoop) (p : DbOp × ℕ) : DefragLoop :=
  let (op, i) := p
  let st := if (st.keyToPos op.key).isSome
    then { st with numRemoved := st.numRemoved + 1, freed := st.freed + 1 } else st
  if op.delete then
    { st with freed := st.freed + 1, keyToPos := Function.update st.keyToPos op.key none }
  else { st with keyToPos := Function.update st.keyToPos op.key (some i) }

/-- The loop that pushes forward the operations in force. -/
def pushForward (keyToPos : UInt32 → Option ℕ) :
    List (DbOp × ℕ) → ℕ → List DbOp → Option (List DbOp × ℕ)
  | [], newPos, newOps => some (newOps, newPos)
  | (op, i) :: rest, newPos, newOps =>
      if keyToPos op.key = some i then do
        let newOps ← writeAt newOps newPos op
        pushForward keyToPos rest (newPos + 1) newOps
      else pushForward keyToPos rest newPos newOps

/-- `copy(l[off:], v)` -/
def copyAt {α : Type} (l : List α) (off : ℕ) (v : List α) : List α :=
  l.take off ++ v.take (l.length - off) ++ l.drop (off + v.length)

/-- `defrag` -/
def defrag (ops : List DbOp) (endDefrag : ℤ) : Option (List DbOp × ℕ) :=
  -- a slice past the length panics
  if endDefrag < 0 ∨ (ops.length : ℤ) < endDefrag then none
  else
    let old := ops.take endDefrag.toNat
    let st := old.zipIdx.foldl defragStep ⟨fun _ => none, 0, 0⟩
    if ops.length < st.freed then none
    else do
      let newOps := List.replicate (ops.length - st.freed) ⟨0, false, []⟩
      let (newOps, newPos) ← pushForward st.keyToPos old.zipIdx 0 newOps
      some (copyAt newOps newPos (ops.drop endDefrag.toNat), st.numRemoved)

/-! ## The server -/

/-- `Server` of package `updatable`, with a defrag ratio of 4 -/
structure Server where
  staticDb : StaticDB
  initialTimestamp : ℤ
  defragTimestamp : ℤ
  ops : List DbOp
  kv : AList fun _ : UInt32 => List UInt8

/-- `NewUpdatableServer` -/
def newUpdatableServer : Server :=
  { staticDb := ⟨0, 0, 0, []⟩, initialTimestamp := 0, defragTimestamp := 0, ops := [], kv := ∅ }

/-- `opsToFlatDB` -/
def opsToFlatDB : List DbOp → Option (List UInt8)
  | [] => none
  | op :: ops =>
      if ∀ v ∈ op :: ops, v.data.length = op.data.length
      then some ((op :: ops).map DbOp.data).flatten else none

/-- `opsToRows` -/
def opsToRows (ops : List DbOp) : List (List UInt8) :=
  (ops.filter (!DbOp.delete ·)).map DbOp.data

namespace Server

/-- `AddRows`; rows of another length end the program. -/
def addRows (sortOps : List DbOp → List DbOp) (s : Server) (keys : List UInt32)
    (rows : List (List UInt8)) : Option Server :=
  match rows with
  | [] => some s
  | row :: _ =>
      if s.staticDb.rowLen ≠ 0 ∧ s.staticDb.rowLen ≠ row.length then none
      else do
        let rowLen := if s.staticDb.rowLen = 0 then row.length else s.staticDb.rowLen
        let ops ← (List.range keys.length).mapM fun i => do
          some { key := ← keys[i]?, delete := false, data := ← rows[i]? }
        let ops := sortOps ops
        let kv := ops.foldl (fun kv op => kv.insert op.key op.data) s.kv
        let flat ← opsToFlatDB ops
        some { s with
          kv, ops := s.ops ++ ops
          staticDb := { s.staticDb with
            rowLen, numRows := s.staticDb.numRows + rows.length
            flatDb := s.staticDb.flatDb ++ flat } }

/-- The part of `DeleteRows` that compacts the log when it has grown. -/
def compact (s : Server) : Option Server :=
  if s.ops.length > 4 * s.kv.keys.length then do
    let endDefrag := s.ops.length / 2
    let (newOps, _) ← defrag s.ops endDefrag
    let staticDb ← StaticDB.fromRows (opsToRows newOps)
    some { s with
      defragTimestamp := s.initialTimestamp + endDefrag
      initialTimestamp := s.initialTimestamp + (s.ops.length - newOps.length)
      ops := newOps, staticDb }
  else some s

/-- `DeleteRows` -/
def deleteRows (s : Server) (keys : List UInt32) : Option Server :=
  let ops := keys.map fun key => { key, delete := true, data := [] }
  let kv := keys.foldl (fun kv key => kv.erase key) s.kv
  { s with kv, ops := s.ops ++ ops }.compact

end Server

/-- The loop of `opsToKeyUpdates` that sets the bitmap of deletions. -/
def setDeletions (ops : List DbOp) (isDeletion : List UInt8) : Option (List UInt8) :=
  ops.zipIdx.foldlM (fun bits (op, j) =>
    if op.delete then do
      let byte ← bits[j / 8]?
      writeAt bits (j / 8) (byte ||| UInt8.ofNat (1 <<< (j % 8)))
    else some bits) isDeletion

section
variable {ρ : Type} (C : KeyCodec ρ)

/-- `opsToKeyUpdates`; the encoder returns no error. -/
def opsToKeyUpdates (ops : List DbOp) (keyUpdate : KeyUpdatesResp ρ) :
    Option (KeyUpdatesResp ρ) := do
  let keys := ops.map DbOp.key
  -- a division in Go truncates towards zero
  let isDeletion ← setDeletions ops (List.replicate ((keys.length - 1) / 8 + 1) 0)
  let isDeletion := if ops.any DbOp.delete then isDeletion else []
  if keys.Pairwise (· ≤ ·) then some { keyUpdate with isDeletion, keysRice := C.encode keys }
  else some { keyUpdate with isDeletion, keys }

/-- `KeyUpdates` -/
def Server.keyUpdates (s : Server) (req : KeyUpdatesReq) : Option (KeyUpdatesResp ρ) :=
  let deleteHistory := decide (req.nextTimestamp < s.defragTimestamp)
  let resp : KeyUpdatesResp ρ :=
    { initialTimestamp := 0, defragTimestamp := s.defragTimestamp, keys := [], keysRice := none
      isDeletion := [], rowLen := s.staticDb.rowLen, shouldDeleteHistory := deleteHistory }
  let nextTimestamp := if deleteHistory then s.initialTimestamp else req.nextTimestamp
  let firstPos := if s.initialTimestamp ≤ nextTimestamp then nextTimestamp - s.initialTimestamp else 0
  if firstPos = s.ops.length then some resp
  else if (s.ops.length : ℤ) < firstPos then none
  else do
    let resp ← opsToKeyUpdates C (s.ops.drop firstPos.toNat) resp
    some { resp with initialTimestamp := int32 (s.initialTimestamp + firstPos) }

/-! ## The client -/

/-- `Client` of package `updatable`, less its servers -/
structure Client (γ : Type) where
  waterfall : WaterfallClient γ
  initialTimestamp : ℤ
  defragTimestamp : ℤ
  numRows : ℕ
  rowLen : ℕ
  ops : List DbOp
  keyToPos : UInt32 → Option ℤ

variable {γ : Type}

/-- `NewClient` -/
def newClient (pirType : PirType) (smallestLayerSizeOverride : ℕ) : Client γ :=
  { waterfall := .new pirType smallestLayerSizeOverride, initialTimestamp := 0, defragTimestamp := 0
    numRows := 0, rowLen := 0, ops := [], keyToPos := fun _ => none }

/-- The operations that a key update carries. -/
def updateOps (keys : List UInt32) (isDeletion : List UInt8) : Option (List DbOp) :=
  (List.range keys.length).mapM fun i => do
    let key ← keys[i]?
    if isDeletion.length > 0 then do
      let byte ← isDeletion[i / 8]?
      some { key, delete := decide (byte &&& UInt8.ofNat (1 <<< (i % 8)) ≠ 0), data := [] }
    else some { key, delete := false, data := [] }

/-- The keys of a key update. -/
def updateKeys (resp : KeyUpdatesResp ρ) : Except String (List UInt32) :=
  match resp.keysRice with
  | some rice =>
      match C.decode rice with
      | .error err => .error ("Failed to Rice-decode key updates: " ++ err)
      | .ok keys => .ok keys
  | none => .ok resp.keys

namespace Client

/-- The body of the loop of `updatePositionMap`, on the number of rows and the positions. -/
def positionStep (st : ℕ × (UInt32 → Option ℤ)) (op : DbOp) : ℕ × (UInt32 → Option ℤ) :=
  if op.delete then (st.1, Function.update st.2 op.key none)
  else (st.1 + 1, Function.update st.2 op.key (some (toInt32 st.1)))

/-- `updatePositionMap` -/
def updatePositionMap (c : Client γ) (fromOpNumber : ℕ) : Client γ :=
  let st := (c.ops.drop fromOpNumber).foldl positionStep (c.numRows, c.keyToPos)
  { c with numRows := st.1, keyToPos := st.2 }

/-- The start of `processKeyUpdate`: the history is deleted if the server says so. -/
def startUpdate (c : Client γ) (resp : KeyUpdatesResp ρ) : Client γ :=
  if resp.shouldDeleteHistory then
    { waterfall := c.waterfall.reset, initialTimestamp := resp.initialTimestamp
      defragTimestamp := resp.defragTimestamp, numRows := 0, rowLen := resp.rowLen, ops := []
      keyToPos := fun _ => none }
  else { c with rowLen := resp.rowLen }

/-- The end of `processKeyUpdate`: the log is compacted if the server's was, and the new
operations are appended. -/
def applyUpdate (c : Client γ) (resp : KeyUpdatesResp ρ) (newOps : List DbOp) :
    Option (ℕ × Client γ) := do
  let (c, newOps) ←
    if resp.defragTimestamp > c.defragTimestamp then do
      let (defraggedOps, _) ← defrag c.ops (resp.defragTimestamp - c.initialTimestamp)
      some ({ c with
        waterfall := c.waterfall.reset, defragTimestamp := resp.defragTimestamp
        initialTimestamp := c.initialTimestamp + (c.ops.length - defraggedOps.length)
        ops := defraggedOps ++ newOps, numRows := 0, keyToPos := fun _ => none },
        defraggedOps ++ newOps)
    else some ({ c with ops := c.ops ++ newOps }, newOps)
  let numNewRows := (newOps.filter (!DbOp.delete ·)).length
  some (numNewRows, c.updatePositionMap (c.ops.length - newOps.length))

/-- `processKeyUpdate`, with the number of new rows -/
def processKeyUpdate (c : Client γ) (resp : KeyUpdatesResp ρ) :
    Option (Except String ℕ × Client γ) := do
  let c := c.startUpdate resp
  match updateKeys C resp with
  | .error err => some (.error err, c)
  | .ok keys =>
      let newOps ← updateOps keys resp.isDeletion
      let (numNewRows, c) ← c.applyUpdate resp newOps
      some (.ok numNewRows, c)

/-- `nextTimestamp` -/
def nextTimestamp (c : Client γ) : ℤ := c.initialTimestamp + c.ops.length

/-- The request of `Update`. -/
def keyUpdatesReq (c : Client γ) : KeyUpdatesReq :=
  { defragTimestamp := int32 c.defragTimestamp, nextTimestamp := int32 c.nextTimestamp }

end Client
end

end SinglePassPIR.Updatable
