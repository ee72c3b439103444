import SinglePassPIR.Pir.DynamicDB
import SinglePassPIR.Psetggm.Answer

/-!
# The SinglePass client and server

`pir_single_pass.go`, as the code computes it. The client keeps one hint for each of the
`NHints` columns and, for each of the `SetSize` chunks of the database, a permutation of
the columns with its inverse; `idxToSetIdx[j]` is the permutation of chunk `j` and
`setIdxToIdx[j]` its inverse. `none` is a panic.

A `uint32` cell is a natural number, and `Intn` is a value below its argument that the
statements quantify over (`swaps j` is the value drawn for chunk `j`). The closure that
`Query` returns is the record `SinglePassQueryCtx` of what it captures, and the type
assertion on the two answers is the type of `reconstruct`.
-/

namespace SinglePassPIR.Pir
open Psetggm

/-- `SinglePassClient`, less its source of randomness -/
structure SinglePassClient where
  nRows : ℕ
  rowLen : ℕ
  setSize : ℕ
  hints : List (List UInt8)
  nHints : ℕ
  idxToSetIdx : List (List ℕ)
  setIdxToIdx : List (List ℕ)
  currVersion : ℕ
  deriving DecidableEq, Repr

/-- `SinglePassHintReq`, less the seed, which only reaches `srand` -/
structure SinglePassHintReq where
  setSize : ℕ

/-- `SinglePassHintResp` -/
structure SinglePassHintResp where
  nRows : ℕ
  rowLen : ℕ
  setSize : ℕ
  hints : List (List UInt8)
  nHints : ℕ
  permutations : List ℕ
  inversePermutations : List ℕ
  version : ℕ

/-- `SinglePassHintReq.Process` -/
def SinglePassHintReq.process (B : Build) (rnd : ℕ → UInt32) (req : SinglePassHintReq)
    (db : StaticDB) : Option SinglePassHintResp :=
  let setSize := if req.setSize ≠ 0 then req.setSize else intSqrt db.numRows
  -- an integer division by zero panics
  if setSize = 0 then none
  else do
    let nHints := db.numRows / setSize
    let buf ← singlePassAnswer B rnd db.flatDb db.numRows setSize db.rowLen
      { parities := List.replicate (nHints * db.rowLen) 0
        permutations := List.replicate db.numRows 0
        inversePermutations := List.replicate db.numRows 0 }
    let hints ← (List.range nHints).mapM fun i =>
      slice buf.parities (db.rowLen * i) (db.rowLen * (i + 1))
    some
      { nRows := db.numRows, rowLen := db.rowLen, setSize, hints, nHints
        permutations := buf.permutations
        inversePermutations := buf.inversePermutations
        version := db.version }

/-- The loop of `initState`: cut the two flat arrays into pieces of `nHints` cells. The
first argument bounds the number of rounds; a loop that needs more of them than the array
has cells makes no progress. -/
def initStateLoop (permutations inversePermutations : List ℕ) (nHints : ℕ) :
    ℕ → ℕ → ℕ → List (List ℕ) × List (List ℕ) → Option (List (List ℕ) × List (List ℕ))
  | 0, ind, _, st => if ind < permutations.length then none else some st
  | fuel + 1, ind, i, (idxToSetIdx, setIdxToIdx) =>
      if ind < permutations.length then do
        let idxToSetIdx ← writeAt idxToSetIdx i (← slice permutations ind (ind + nHints))
        let setIdxToIdx ← writeAt setIdxToIdx i (← slice inversePermutations ind (ind + nHints))
        initStateLoop permutations inversePermutations nHints fuel (ind + nHints) (i + 1)
          (idxToSetIdx, setIdxToIdx)
      else some (idxToSetIdx, setIdxToIdx)

/-- `SinglePassClient.initState` -/
def SinglePassClient.initState (c : SinglePassClient)
    (permutations inversePermutations : List ℕ) : Option SinglePassClient := do
  let (idxToSetIdx, setIdxToIdx) ← initStateLoop permutations inversePermutations c.nHints
    permutations.length 0 0 (List.replicate c.setSize [], List.replicate c.setSize [])
  some { c with idxToSetIdx, setIdxToIdx }

/-- `SinglePassHintResp.InitClient` -/
def SinglePassHintResp.initClient (resp : SinglePassHintResp) : Option SinglePassClient :=
  SinglePassClient.initState
    { nRows := resp.nRows, rowLen := resp.rowLen, setSize := resp.setSize, hints := resp.hints
      nHints := resp.nHints, currVersion := resp.version, idxToSetIdx := [], setIdxToIdx := [] }
    resp.permutations resp.inversePermutations

/-! ## Reading -/

/-- `SinglePassClient.findIndex`. An index past the end gives `(-1, -1, -1)`, and every
caller goes on to use the last component as an index, which panics. -/
def SinglePassClient.findIndex (c : SinglePassClient) (index : ℕ) : Option (ℕ × ℕ × ℕ) :=
  if c.nRows ≤ index ∨ c.nHints = 0 then none
  else do
    let i0 := index / c.nHints
    let i1 := index - i0 * c.nHints
    let inverse ← c.setIdxToIdx[i0]?
    let pos ← inverse[i1]?
    some (i0, i1, pos)

/-- `SinglePassQueryReq` -/
structure SinglePassQueryReq where
  prSet : List ℕ
  setSize : ℕ
  deriving DecidableEq, Repr

/-- `SinglePassQueryResp` -/
structure SinglePassQueryResp where
  answer : List UInt8
  deriving DecidableEq, Repr

/-- What the closure returned by `Query` captures. -/
structure SinglePassQueryCtx where
  index0 : ℕ
  pos : ℕ
  randSwaps : List ℕ
  deriving DecidableEq, Repr

/-- The result of `Query`: the requests to `Left` and `Right` and the closure. -/
structure SinglePassQuery where
  left : SinglePassQueryReq
  right : SinglePassQueryReq
  ctx : SinglePassQueryCtx
  deriving DecidableEq, Repr

/-- The body of the loop of `Query`: the entries of `setOnline`, `randSwaps` and
`setOffline` for chunk `j`. -/
def SinglePassClient.queryColumn (c : SinglePassClient) (pos : ℕ) (swaps : ℕ → ℕ) (j : ℕ) :
    Option (ℕ × ℕ × ℕ) := do
  let perm ← c.idxToSetIdx[j]?
  let online ← perm[pos]?
  let offline ← perm[swaps j]?
  some (online, swaps j, offline)

/-- `SinglePassClient.Query` -/
def SinglePassClient.query (c : SinglePassClient) (i : ℤ) (swaps : ℕ → ℕ) :
    Option SinglePassQuery :=
  -- "No stored hints. Did you forget to call InitHint?"
  if c.hints.length < 1 then none
  else do
    let i ← mathMod i c.nRows
    let (index0, _, pos) ← c.findIndex i.toNat
    let columns ← (List.range c.setSize).mapM (c.queryColumn pos swaps)
    let setOnline := columns.map fun col => col.1
    let randSwaps := columns.map fun col => col.2.1
    let setOffline := columns.map fun col => col.2.2
    let perm ← c.idxToSetIdx[index0]?
    let special ← perm[← randSwaps[index0]?]?
    let setOnline ← writeAt setOnline index0 special
    some
      { left := { prSet := setOffline, setSize := c.setSize }
        right := { prSet := setOnline, setSize := c.setSize }
        ctx := { index0, pos, randSwaps } }

/-- The body of the loop of `SinglePassQueryReq.Process`. -/
def SinglePassQueryReq.processRow (B : Build) (q : SinglePassQueryReq) (db : StaticDB)
    (offset i : ℕ) (answer : List UInt8) : Option (List UInt8) := do
  let p ← q.prSet[i]?
  let out ← slice answer (i * db.rowLen) (i * db.rowLen + db.rowLen)
  let out ← copyIn B out db.flatDb (offset * i + p) db.rowLen
  storeAt answer (i * db.rowLen) out

/-- `SinglePassQueryReq.Process` -/
def SinglePassQueryReq.process (B : Build) (q : SinglePassQueryReq) (db : StaticDB) :
    Option SinglePassQueryResp :=
  if q.setSize = 0 then none
  else do
    let offset := db.numRows / q.setSize
    let answer ← loop q.setSize (q.processRow B db offset)
      (List.replicate (q.setSize * db.rowLen) 0)
    some { answer }

/-- XOR a row into a hint, in place. -/
def SinglePassClient.xorHint (B : Build) (c : SinglePassClient) (pos : ℕ) (row : List UInt8)
    (elemSize : ℕ) : Option SinglePassClient := do
  let hint ← c.hints[pos]?
  let hint ← fastXorInto B hint row elemSize
  some { c with hints := c.hints.set pos hint }

/-- The body of the loop of `reconstruct`: refresh the hint of the random swap and exchange
the two positions in permutation `i`. -/
def SinglePassClient.reconstructColumn (B : Build) (answer0 answer1 : List UInt8)
    (ctx : SinglePassQueryCtx) (elemSize i : ℕ) (c : SinglePassClient) :
    Option SinglePassClient := do
  let swap ← ctx.randSwaps[i]?
  let c ← c.xorHint B swap (← slice answer0 (i * elemSize) ((i + 1) * elemSize)) elemSize
  let c ← c.xorHint B swap (← slice answer1 (i * elemSize) ((i + 1) * elemSize)) elemSize
  let perm ← c.idxToSetIdx[i]?
  let temp1 ← perm[ctx.pos]?
  let temp2 ← perm[swap]?
  let perm ← writeAt perm ctx.pos temp2
  let perm ← writeAt perm swap temp1
  let inverse ← c.setIdxToIdx[i]?
  let inverse ← writeAt inverse temp1 swap
  let inverse ← writeAt inverse temp2 ctx.pos
  some
    { c with
      idxToSetIdx := c.idxToSetIdx.set i perm
      setIdxToIdx := c.setIdxToIdx.set i inverse }

/-- `SinglePassClient.reconstruct` -/
def SinglePassClient.reconstruct (B : Build) (c : SinglePassClient)
    (resp : List SinglePassQueryResp) (ctx : SinglePassQueryCtx) :
    Option (Except String (List UInt8) × SinglePassClient) :=
  match resp with
  | [resp0, resp1] => do
      let elemSize := (← c.hints[0]?).length
      let zero := List.replicate elemSize 0
      let xorResp0 ← xorBlocksTogether B resp0.answer zero elemSize c.setSize
      let xorResp1 ← xorBlocksTogether B resp1.answer zero elemSize c.setSize
      let special ← slice resp1.answer (ctx.index0 * elemSize) ((ctx.index0 + 1) * elemSize)
      let out ← fastXorInto B zero xorResp1 elemSize
      let out ← fastXorInto B out (← c.hints[ctx.pos]?) elemSize
      let out ← fastXorInto B out special elemSize
      let c := { c with hints := c.hints.set ctx.pos xorResp0 }
      let c ← loop c.setSize
        (SinglePassClient.reconstructColumn B resp0.answer resp1.answer ctx elemSize) c
      -- the queried chunk: undo the loop's XOR of the row it revealed and put `out` in
      let swap ← ctx.randSwaps[ctx.index0]?
      let c ← c.xorHint B swap special elemSize
      let c ← c.xorHint B swap out elemSize
      some (.ok out, c)
  | _ =>
      some (.error ("Unexpected number of answers: have: " ++ toString resp.length ++ ", want: 2"),
        c)

/-- `pirReader.Read`: a query, the answers of the two servers, which hold the same table, and
the reconstruction. -/
def SinglePassClient.read (B : Build) (c : SinglePassClient) (db : StaticDB) (i : ℤ)
    (swaps : ℕ → ℕ) : Option (Except String (List UInt8) × SinglePassClient) := do
  let q ← c.query i swaps
  let answer0 ← q.left.process B db
  let answer1 ← q.right.process B db
  c.reconstruct B [answer0, answer1] q.ctx

end SinglePassPIR.Pir
