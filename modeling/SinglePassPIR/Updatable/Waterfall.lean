import SinglePassPIR.Pir.StaticDB

/-!
# The layers of an updatable client

`pir_waterfall.go`, as the code computes it. New rows go to the last layer; when they do not fit,
the rows of that layer are carried up to the one before it, and when the first layer
overflows, all layers are sized anew. Every non-empty layer has a PIR client of its own for
its slice of the database.

The PIR types of `package pir` are behind interfaces. Here they are a parameter, `PirImpl`: what
the waterfall calls, with a fault (`none`) for a panic. The counts are natural numbers; the
difference in `updateLayers` is one of rows that have been counted.
-/

namespace SinglePassPIR.Updatable
open Pir

/-- `pir.PirType` -/
inductive PirType
  | matrix
  | punc
  | perm
  | dpf
  | nonPrivate
  | singlePass
  deriving DecidableEq, Repr

/-- The types behind `pir.HintReq`, `pir.HintResp`, `pir.Client` and `pir.QueryReq`, and what a
call may draw from its source of randomness. `Ctx` is what a closure returned by `Query` has
captured besides its client. -/
structure PirImpl where
  Source : Type
  HintReq : Type
  HintResp : Type
  Client : Type
  QueryReq : Type
  Resp : Type
  Ctx : Type
  /-- `NewHintReq` with set size zero -/
  newHintReq : Source → PirType → HintReq
  /-- `HintReq.Process` -/
  processHint : HintReq → StaticDB → Option (Except String HintResp)
  /-- `HintResp.InitClient` -/
  initClient : Source → HintResp → Option Client
  /-- `Client.Query`; `none` inside is the pair of `nil` results -/
  query : Source → Client → ℤ → Option (Option (QueryReq × QueryReq × Ctx) × Client)
  /-- `Client.DummyQuery` -/
  dummyQuery : Source → Client → Option ((QueryReq × QueryReq) × Client)
  /-- `QueryReq.Process` -/
  process : QueryReq → StaticDB → Option (Except String Resp)
  /-- A `ReconstructFunc`, on the answers of `Left` and `Right` -/
  reconstruct : Client → Ctx → Resp → Resp → Option (Except String (List UInt8) × Client)

/-- `clientLayer`; its type is `none` as long as it is empty. -/
structure ClientLayer (γ : Type) where
  maxSize : ℕ
  firstRow : ℕ
  numRows : ℕ
  pirType : Option PirType
  pir : Option γ
  deriving DecidableEq, Repr

/-- `WaterfallClient`, less its source of randomness -/
structure WaterfallClient (γ : Type) where
  pirType : PirType
  numRows : ℕ
  rowLen : ℕ
  layers : List (ClientLayer γ)
  smallestLayerSizeOverride : ℕ
  deriving DecidableEq, Repr

/-- `UpdatableHintReq` -/
structure UpdatableHintReq (ρ : Type) where
  req : ρ
  firstRow : ℕ
  numRows : ℕ
  deriving DecidableEq, Repr

/-- `UpdatableQueryReq` -/
structure UpdatableQueryReq (ρ : Type) where
  reqs : List ρ
  firstRow : List ℕ
  deriving DecidableEq, Repr

/-- Layers whose type is made for large databases and needs a hint from the server. -/
def PirType.layered : PirType → Bool
  | .punc => true
  | .singlePass => true
  | _ => false

section
variable {γ : Type}

/-- A layer without rows. -/
def emptyLayer (maxSize : ℕ) : ClientLayer γ :=
  { maxSize, firstRow := 0, numRows := 0, pirType := none, pir := none }

namespace WaterfallClient

/-- `NewWaterfallClient` -/
def new (pirType : PirType) (smallestLayerSizeOverride : ℕ) : WaterfallClient γ :=
  { pirType, numRows := 0, rowLen := 0, layers := [], smallestLayerSizeOverride }

/-- `reset` -/
def reset (c : WaterfallClient γ) : WaterfallClient γ := { c with numRows := 0, layers := [] }

/-- `smallestLayerSize`; the default is the square of the security parameter. -/
def smallestLayerSize (c : WaterfallClient γ) : ℕ :=
  if c.smallestLayerSizeOverride ≠ 0 then c.smallestLayerSizeOverride else 128 * 128

/-- The loop of `LayersMaxSize`, from a layer of size `m` on. The first argument bounds the
number of halvings. -/
def halve (smallest : ℕ) : ℕ → ℕ → List ℕ
  | 0, m => [m]
  | fuel + 1, m => if smallest < m then m :: halve smallest fuel (m / 2) else [m]

/-- `LayersMaxSize` -/
def layersMaxSize (c : WaterfallClient γ) (nRows : ℕ) : List ℕ :=
  if c.pirType.layered then halve c.smallestLayerSize nRows nRows else [nRows]

/-- `freshLayers` -/
def freshLayers (c : WaterfallClient γ) (numRows : ℕ) : List (ClientLayer γ) :=
  (c.layersMaxSize numRows).map emptyLayer

/-- The loop of `updateLayers` over the layers below position `i`: the position above the one
where it stops, the rows that it has gathered, and the layers. -/
def gatherRows : ℕ → ℕ → List (ClientLayer γ) → Option (ℕ × ℕ × List (ClientLayer γ))
  | 0, numNewRows, layers => some (0, numNewRows, layers)
  | i + 1, numNewRows, layers => do
      let layer ← layers[i]?
      let numNewRows := numNewRows + layer.numRows
      if numNewRows ≤ layer.maxSize then some (i + 1, numNewRows, layers)
      else gatherRows i numNewRows (layers.set i (emptyLayer layer.maxSize))

/-- `updateLayers`, with the position that it returns -/
def updateLayers (c : WaterfallClient γ) (numNewRows : ℕ) : Option (ℕ × WaterfallClient γ) := do
  let (stop, numNewRows, layers) ← gatherRows c.layers.length numNewRows c.layers
  -- at the first layer or above it, all layers are made anew
  let i := stop - 1
  let layers := if stop ≤ 1 then c.freshLayers numNewRows else layers
  let layer ← layers[i]?
  let pirType := if i + 1 = layers.length ∧ c.pirType.layered then .dpf else c.pirType
  let layer := { layer with
    numRows := numNewRows, firstRow := c.numRows - numNewRows, pirType := some pirType, pir := none }
  some (i, { c with layers := layers.set i layer })

end WaterfallClient
end

variable {P : PirImpl}

/-- `UpdatableHintReq.Process` -/
def UpdatableHintReq.process (P : PirImpl) (req : UpdatableHintReq P.HintReq) (db : StaticDB) :
    Option (Except String P.HintResp) := do
  let layerFlatDb ← db.slice req.firstRow (req.firstRow + req.numRows)
  P.processHint req.req ⟨req.numRows, db.rowLen, 0, layerFlatDb⟩

/-- The loop of `UpdatableQueryReq.Process` over the requests and the first rows; an error ends
it. -/
def processReqs (P : PirImpl) (db : StaticDB) :
    List P.QueryReq → List ℕ → Option (Except String (List P.Resp))
  | [], _ => some (.ok [])
  | q :: reqs, firstRow :: next :: rest => do
      let layerFlatDb ← db.slice firstRow next
      match ← P.process q ⟨next - firstRow, db.rowLen, 0, layerFlatDb⟩ with
      | .error err => some (.error err)
      | .ok resp =>
          match ← processReqs P db reqs (next :: rest) with
          | .error err => some (.error err)
          | .ok resps => some (.ok (resp :: resps))
  | _ :: _, _ => none

/-- `UpdatableQueryReq.Process` -/
def UpdatableQueryReq.process (P : PirImpl) (req : UpdatableQueryReq P.QueryReq) (db : StaticDB) :
    Option (Except String (List P.Resp)) := processReqs P db req.reqs req.firstRow

/-- What the closure returned by `WaterfallClient.Query` captures: the position of the matching
layer among the requests, and the layer with the closure of its client, if one matched. -/
structure WaterfallCtx (P : PirImpl) where
  matchingLayer : ℕ
  target : Option (ℕ × P.Ctx)

/-- The variables of the loop of `WaterfallClient.Query`. -/
structure QueryLoop (P : PirImpl) where
  layerEnd : ℕ
  ctx : WaterfallCtx P
  left : List P.QueryReq
  right : List P.QueryReq
  firstRow : List ℕ

namespace WaterfallClient

/-- `HintUpdateReq` -/
def hintUpdateReq (src : P.Source) (c : WaterfallClient P.Client) (numNewRows rowLen : ℕ) :
    Option (Except String (Option (UpdatableHintReq P.HintReq)) × WaterfallClient P.Client) := do
  let (layerNum, c) ← { c with numRows := c.numRows + numNewRows, rowLen }.updateLayers numNewRows
  let layer ← c.layers[layerNum]?
  if layer.numRows = 0 then some (.ok none, c)
  else
    let pirType ← layer.pirType
    if pirType.layered then
      some (.ok (some { req := P.newHintReq src pirType, firstRow := layer.firstRow
                        numRows := layer.numRows }), c)
    else
      match ← P.processHint (P.newHintReq src pirType) ⟨layer.numRows, c.rowLen, 0, []⟩ with
      | .error err => some (.error err, c)
      | .ok resp => do
          let layer := { layer with pir := some (← P.initClient src resp) }
          some (.ok none, { c with layers := c.layers.set layerNum layer })

/-- The position of the last layer with rows. -/
def lastActive (layers : List (ClientLayer P.Client)) : ℕ → Option ℕ
  | 0 => none
  | i + 1 =>
      match layers[i]? with
      | none => none
      | some layer => if layer.numRows ≠ 0 then some i else lastActive layers i

/-- `InitHint` -/
def initHint (src : P.Source) (c : WaterfallClient P.Client) (resp : P.HintResp) :
    Option (WaterfallClient P.Client) := do
  let l ← lastActive c.layers c.layers.length
  let layer ← c.layers[l]?
  let client ← P.initClient src resp
  some { c with layers := c.layers.set l { layer with pir := some client } }

/-- The body of the loop of `Query` on layer `l`: the variables after it, and the layer, whose
client the calls may change. -/
def queryStep (src : ℕ → P.Source) (pos : ℤ) (l : ℕ) (layer : ClientLayer P.Client)
    (st : QueryLoop P) : Option (QueryLoop P × ClientLayer P.Client) :=
  match layer.pir with
  | none => some (st, layer)
  | some client =>
      if (st.layerEnd : ℤ) ≤ pos ∧ pos < (st.layerEnd : ℤ) + layer.numRows then do
        let (q, client) ← P.query (src l) client (pos - st.layerEnd)
        -- without a query the access to its first element panics
        let (left, right, ctx) ← q
        some ({ layerEnd := st.layerEnd + layer.numRows, ctx := ⟨st.left.length, some (l, ctx)⟩
                left := st.left ++ [left], right := st.right ++ [right]
                firstRow := st.firstRow ++ [layer.firstRow] }, { layer with pir := some client })
      else do
        let ((left, right), client) ← P.dummyQuery (src l) client
        some ({ layerEnd := st.layerEnd + layer.numRows, ctx := st.ctx
                left := st.left ++ [left], right := st.right ++ [right]
                firstRow := st.firstRow ++ [layer.firstRow] }, { layer with pir := some client })

/-- The loop of `Query` over the layers from position `l` on. -/
def queryLoop (src : ℕ → P.Source) (pos : ℤ) :
    ℕ → List (ClientLayer P.Client) → QueryLoop P →
      Option (QueryLoop P × List (ClientLayer P.Client))
  | _, [], st => some (st, [])
  | l, layer :: layers, st => do
      let (st, layer) ← queryStep src pos l layer st
      let (st, layers) ← queryLoop src pos (l + 1) layers st
      some (st, layer :: layers)

/-- `Query`: the requests to `Left` and `Right`, what the closure captures, and the client. The
closure is never `nil`. -/
def query (src : ℕ → P.Source) (c : WaterfallClient P.Client) (pos : ℤ) :
    Option ((UpdatableQueryReq P.QueryReq × UpdatableQueryReq P.QueryReq × WaterfallCtx P) ×
      WaterfallClient P.Client) := do
  let (st, layers) ← queryLoop src pos 0 c.layers ⟨0, ⟨0, none⟩, [], [], []⟩
  let firstRow := st.firstRow ++ [st.layerEnd]
  some ((⟨st.left, firstRow⟩, ⟨st.right, firstRow⟩, st.ctx), { c with layers })

/-- The closure returned by `Query`, on the answers of the two servers; a closure without a
matching layer calls a `nil` function. -/
def reconstruct (c : WaterfallClient P.Client) (ctx : WaterfallCtx P) (left right : List P.Resp) :
    Option (Except String (List UInt8) × WaterfallClient P.Client) := do
  let respL ← left[ctx.matchingLayer]?
  let respR ← right[ctx.matchingLayer]?
  let (l, inner) ← ctx.target
  let layer ← c.layers[l]?
  let client ← layer.pir
  let (row, client) ← P.reconstruct client inner respL respR
  some (row, { c with layers := c.layers.set l { layer with pir := some client } })

end WaterfallClient

end SinglePassPIR.Updatable
