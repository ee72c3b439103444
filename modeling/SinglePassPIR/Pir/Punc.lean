import SinglePassPIR.Pir.PSet

/-!
# The puncturable-set client and server

`pir_punc.go`, as the code computes it. The client keeps the keys of its sets, for each of
them the XOR of the rows of its elements, and for each row a pointer to a set that contains
it, `-1` where it knows none.

A Go `int` that is never negative is a natural number, and the pointers are integers. Of the
client's source of randomness the statements quantify over what it yields: `coin` is the
draw of `sample`, and `draws` are those of the rejection loops, which do not return when
they run out. `NumCovered`, `StateSize` and `bernoulli` are left out.
-/

namespace SinglePassPIR.Pir
open Psetggm

/-- `int32(i)` -/
def toInt32 (i : ℕ) : ℤ := Int.bmod i (2 ^ 32)

/-- `int(math.Round(math.Pow(float64(n), 0.5)))`; the float square root of an integer below
`2 ^ 32` rounds as the exact one, which is never half way between two integers. -/
def roundSqrt (n : ℕ) : ℕ :=
  if n ≤ Nat.sqrt n * Nat.sqrt n + Nat.sqrt n then Nat.sqrt n else Nat.sqrt n + 1

/-- `xorInto`, which panics on slices of different lengths -/
def xorIntoSlice (env : Env) (a b : List UInt8) : Option (List UInt8) :=
  if a.length ≠ b.length then none else some (env.fastxor a b)

/-- `xorInto` on rows. -/
theorem xorIntoSlice_rows (env : Env) {n : ℕ} (x y : Bytes n) :
    xorIntoSlice env x.toList y.toList = some (x + y).toList := by
  have hlen : x.toList.length = y.toList.length := by simp
  rw [xorIntoSlice, if_neg (not_not.mpr hlen), env.fastxor_eq _ _ hlen, toList_add]

/-! ## The hints -/

/-- `PuncHintReq` -/
structure PuncHintReq where
  randSeed : Block
  numHintsMultiplier : ℕ

/-- `NewPuncHintReq`, with the seed that it draws; the multiplier is the integral part of
`128 * ln 2`. -/
def newPuncHintReq (randSeed : Block) : PuncHintReq := { randSeed, numHintsMultiplier := 88 }

/-- `PuncHintResp` -/
structure PuncHintResp where
  nRows : ℕ
  rowLen : ℕ
  setSize : ℕ
  setGenKey : Block
  hints : List (List UInt8)

/-- `xorRowsFlatSlice`; it leaves byte offsets in `indices`. -/
def xorRowsFlatSlice (env : Env) (db : StaticDB) (out : List UInt8) (indices : List ℕ) :
    Outcome (List UInt8 × List ℕ) := do
  let indices := indices.map (· * db.rowLen)
  let out ← Outcome.ofOption (xorBlocks env.toPlatform db.flatDb indices out)
  .ok (out, indices)

/-- The variables of the loop of `PuncHintReq.Process`: the hints so far, the generator and
the elements in the set that it reuses. -/
structure HintLoop where
  hints : List (List UInt8)
  setGen : SetGenerator
  elems : List ℕ

/-- The body of the loop of `PuncHintReq.Process`. -/
def hintStep (env : Env) (db : StaticDB) (_ : ℕ) (st : HintLoop) : Outcome HintLoop := do
  let (pset, setGen) ← st.setGen.generate env st.elems
  let (hint, elems) ← xorRowsFlatSlice env db (List.replicate db.rowLen 0) pset.elems
  .ok { hints := st.hints ++ [hint], setGen, elems }

/-- `PuncHintReq.Process` -/
def PuncHintReq.process (env : Env) (req : PuncHintReq) (db : StaticDB) : Outcome PuncHintResp :=
  let setSize := roundSqrt db.numRows
  -- an integer division by zero panics
  if setSize = 0 then .error .fault
  else do
    let nHints := req.numHintsMultiplier * db.numRows / setSize
    let st ← Outcome.loop nHints (hintStep env db)
      { hints := [], setGen := newSetGenerator req.randSeed 0 db.numRows setSize, elems := [] }
    .ok { nRows := db.numRows, rowLen := db.rowLen, setSize, setGenKey := req.randSeed
          hints := st.hints }

/-! ## The client -/

/-- `puncClient`, less its source of randomness -/
structure PuncClient where
  nRows : ℕ
  rowLen : ℕ
  setSize : ℕ
  sets : List SetKey
  hints : List (List UInt8)
  origSetGen : SetGenerator
  setGen : SetGenerator
  idxToSetIdx : List ℤ
  deriving DecidableEq, Repr

/-- Point the rows in `elems` at set `s`. -/
def setPointers (s : ℤ) (elems : List ℕ) (idxToSetIdx : List ℤ) : Option (List ℤ) :=
  elems.foldlM (fun idx j => writeAt idx j s) idxToSetIdx

/-- The variables of the loop of `initSets`. -/
structure InitLoop where
  sets : List SetKey
  idxToSetIdx : List ℤ
  setGen : SetGenerator
  elems : List ℕ

/-- The body of the loop of `initSets`. -/
def initStep (env : Env) (i : ℕ) (st : InitLoop) : Outcome InitLoop := do
  let (pset, setGen) ← st.setGen.generate env st.elems
  let idxToSetIdx ← Outcome.ofOption (setPointers (toInt32 i) pset.elems st.idxToSetIdx)
  .ok { sets := st.sets ++ [pset.key], idxToSetIdx, setGen, elems := pset.elems }

/-- `PuncHintResp.InitClient`, with the key that `initSets` draws for the sets to come -/
def PuncHintResp.initClient (env : Env) (resp : PuncHintResp) (newSetGenKey : Block) :
    Outcome PuncClient := do
  let st ← Outcome.loop resp.hints.length (initStep env)
    { sets := [], idxToSetIdx := List.replicate resp.nRows (-1)
      setGen := newSetGenerator resp.setGenKey 0 resp.nRows resp.setSize, elems := [] }
  .ok
    { nRows := resp.nRows, rowLen := resp.rowLen, setSize := resp.setSize, sets := st.sets
      hints := resp.hints, origSetGen := st.setGen
      setGen := newSetGenerator newSetGenKey st.setGen.num resp.nRows resp.setSize
      idxToSetIdx := st.idxToSetIdx }

instance neZero_three : NeZero (3 : ℕ) := ⟨by decide⟩

/-- `sample` -/
def sample (odd1 odd2 coin : ℕ) : Fin 3 :=
  if coin < odd1 then 1 else if coin < odd1 + odd2 then 2 else 0

/-- `randomMemberExcept`, with the draws that are left after it -/
def randomMemberExcept (set : PuncturableSet) (idx : ℕ) : List ℕ → Outcome (ℕ × List ℕ)
  | [] => .error .noReturn
  | d :: draws => do
      let val ← Outcome.ofOption set.elems[d]?
      if val ≠ idx then .ok (val, draws) else randomMemberExcept set idx draws

namespace PuncClient

/-- `setGenForSet`, by the key of the set -/
def genForKey (c : PuncClient) (key : SetKey) : SetGenerator :=
  if key.id < c.origSetGen.num % 2 ^ 32 then c.origSetGen else c.setGen

/-- `eval` -/
def eval (env : Env) (c : PuncClient) (setIdx : ℕ) : Outcome PuncturableSet := do
  let key ← Outcome.ofOption c.sets[setIdx]?
  (c.genForKey key).eval env key

/-- The inner loop of `findIndex` over the elements of set `j`: whether row `i` is among
them, and the pointers it has upgraded up to there. -/
def scanElems (c : PuncClient) (i : ℤ) (j shift univSize : ℕ) :
    List ℕ → List ℤ → Option (Bool × List ℤ)
  | [], idx => some (false, idx)
  | v :: elems, idx =>
      if univSize % 2 ^ 32 = 0 then none
      else
        let shiftedV : ℕ := (v % 2 ^ 32 + shift) % 2 ^ 32 % (univSize % 2 ^ 32)
        if (shiftedV : ℤ) = i then some (true, idx)
        else if shiftedV < c.nRows then do
          let idx ← writeAt idx shiftedV (toInt32 j)
          scanElems c i j shift univSize elems idx
        else scanElems c i j shift univSize elems idx

/-- The linear scan of `findIndex`, from set `j` on; `elems` are those in the set that it
reuses. -/
def scanSets (env : Env) (c : PuncClient) (i : ℤ) :
    List SetKey → ℕ → List ℕ → List ℤ → Outcome (Option ℕ × List ℤ)
  | [], _, _, idx => .ok (none, idx)
  | key :: sets, j, elems, idx => do
      let setGen := c.genForKey key
      let pset ← setGen.evalInPlace env { key with shift := 0 } elems
      let (found, idx) ← Outcome.ofOption
        (c.scanElems i j key.shift setGen.univSize pset.elems idx)
      if found then .ok (some j, idx) else scanSets env c i sets (j + 1) pset.elems idx

/-- `findIndex`; `none` is the result `-1`. -/
def findIndex (env : Env) (c : PuncClient) (i : ℤ) : Outcome (Option ℕ × PuncClient) :=
  if (c.nRows : ℤ) ≤ i then .ok (none, c)
  else do
    let r ← Outcome.ofOption (mathMod i c.nRows)
    let setIdx ← Outcome.ofOption c.idxToSetIdx[r.toNat]?
    if 0 ≤ setIdx then .ok (some setIdx.toNat, c)
    else do
      let (found, idxToSetIdx) ← c.scanSets env i c.sets 0 [] c.idxToSetIdx
      .ok (found, { c with idxToSetIdx })

/-- The body of the first loop of `replaceSet`: drop the pointer of row `v` if it goes to set
`s`. -/
def clearPointer (c : PuncClient) (s : ℤ) (idx : List ℤ) (v : ℕ) : Option (List ℤ) :=
  if v < c.nRows then do
    let p ← idx[v]?
    if p = s then writeAt idx v (-1) else some idx
  else some idx

/-- The first loop of `replaceSet`. -/
def clearPointers (c : PuncClient) (s : ℤ) (elems : List ℕ) (idxToSetIdx : List ℤ) :
    Option (List ℤ) :=
  elems.foldlM (c.clearPointer s) idxToSetIdx

/-- `replaceSet` -/
def replaceSet (env : Env) (c : PuncClient) (setIdx : ℕ) (newSet : PuncturableSet) :
    Outcome PuncClient := do
  let pset ← c.eval env setIdx
  let idx ← Outcome.ofOption (c.clearPointers (toInt32 setIdx) pset.elems c.idxToSetIdx)
  let sets ← Outcome.ofOption (writeAt c.sets setIdx newSet.key)
  let idxToSetIdx ← Outcome.ofOption (setPointers (toInt32 setIdx) newSet.elems idx)
  .ok { c with sets, idxToSetIdx }

end PuncClient

/-! ## Reading -/

/-- `PuncQueryReq` -/
structure PuncQueryReq where
  puncturedSet : PuncturedSet
  extraElem : ℕ
  deriving DecidableEq, Repr

/-- `PuncQueryResp` -/
structure PuncQueryResp where
  answer : List UInt8
  extraElem : List UInt8
  deriving DecidableEq, Repr

/-- `puncQueryCtx`, which the closure returned by `Query` captures -/
structure PuncQueryCtx where
  randCase : Fin 3
  setIdx : ℕ
  deriving DecidableEq, Repr

/-- The result of `Query`: the requests to `Left` and `Right` and the closure. -/
structure PuncQuery where
  left : PuncQueryReq
  right : PuncQueryReq
  ctx : PuncQueryCtx
  deriving DecidableEq, Repr

namespace PuncClient

/-- Case 0 of `Query`: the set with row `i` is spent, and the new one takes its place. -/
def queryCase0 (env : Env) (c : PuncClient) (i : ℕ) (pset newSet : PuncturableSet)
    (ctx : PuncQueryCtx) (draws : List ℕ) : Outcome (PuncQuery × PuncClient) := do
  let (extraL, draws) ← randomMemberExcept newSet i draws
  let (extraR, _) ← randomMemberExcept pset i draws
  let puncSetL ← c.setGen.punc env newSet i
  let puncSetR ← c.setGen.punc env pset i
  let c ← c.replaceSet env ctx.setIdx newSet
  .ok (⟨⟨puncSetL, extraL⟩, ⟨puncSetR, extraR⟩, ctx⟩, c)

/-- Case 1 of `Query`: `Right` reads another row of the new set. -/
def queryCase1 (env : Env) (c : PuncClient) (i : ℕ) (newSet : PuncturableSet)
    (ctx : PuncQueryCtx) (draws : List ℕ) : Outcome (PuncQuery × PuncClient) := do
  let (extraR, draws) ← randomMemberExcept newSet i draws
  let (extraL, _) ← randomMemberExcept newSet extraR draws
  let puncSetL ← c.setGen.punc env newSet extraR
  let puncSetR ← c.setGen.punc env newSet i
  .ok (⟨⟨puncSetL, extraL⟩, ⟨puncSetR, extraR⟩, ctx⟩, c)

/-- Case 2 of `Query`: `Left` reads another row of the new set. -/
def queryCase2 (env : Env) (c : PuncClient) (i : ℕ) (newSet : PuncturableSet)
    (ctx : PuncQueryCtx) (draws : List ℕ) : Outcome (PuncQuery × PuncClient) := do
  let (extraL, draws) ← randomMemberExcept newSet i draws
  let (extraR, _) ← randomMemberExcept newSet extraL draws
  let puncSetL ← c.setGen.punc env newSet i
  let puncSetR ← c.setGen.punc env newSet extraL
  .ok (⟨⟨puncSetL, extraL⟩, ⟨puncSetR, extraR⟩, ctx⟩, c)

/-- The `switch` of `Query` on the case that was sampled; each case starts with a new set. -/
def queryCase (env : Env) (c : PuncClient) (i : ℕ) (pset : PuncturableSet) (ctx : PuncQueryCtx)
    (draws : List ℕ) : Outcome (PuncQuery × PuncClient) := do
  let (newSet, setGen) ← c.setGen.genWith env i
  let c := { c with setGen }
  match ctx.randCase with
  | 0 => c.queryCase0 env i pset newSet ctx draws
  | 1 => c.queryCase1 env i newSet ctx draws
  | 2 => c.queryCase2 env i newSet ctx draws

/-- `Query`; `none` is the pair of `nil` results. -/
def query (env : Env) (c : PuncClient) (i : ℤ) (coin : ℕ) (draws : List ℕ) :
    Outcome (Option PuncQuery × PuncClient) :=
  -- "No stored hints. Did you forget to call InitHint?"
  if c.hints.length < 1 then .error .fault
  else do
    let (setIdx, c) ← c.findIndex env i
    match setIdx with
    | none => .ok (none, c)
    | some setIdx => do
        let i ← Outcome.ofOption (mathMod i c.nRows)
        let pset ← c.eval env setIdx
        let ctx : PuncQueryCtx := { randCase := sample (c.setSize - 1) (c.setSize - 1) coin, setIdx }
        let (q, c) ← c.queryCase env i.toNat pset ctx draws
        .ok (some q, c)

/-- `DummyQuery`, which sends the one request to both servers -/
def dummyQuery (env : Env) (c : PuncClient) (draws : List ℕ) :
    Outcome (PuncQueryReq × PuncClient) := do
  let (newSet, setGen) ← c.setGen.genWith env 0
  let (extra, _) ← randomMemberExcept newSet 0 draws
  let puncSet ← setGen.punc env newSet 0
  .ok (⟨puncSet, extra⟩, { c with setGen })

end PuncClient

/-- `PuncQueryReq.Process` -/
def PuncQueryReq.process (env : Env) (q : PuncQueryReq) (db : StaticDB) : Option PuncQueryResp := do
  let answer ← fastAnswer env.toPlatform q.puncturedSet.keys q.puncturedSet.hole
    q.puncturedSet.univSize q.puncturedSet.setSize q.puncturedSet.shift db.flatDb db.rowLen
    (List.replicate db.rowLen 0)
  let extraElem ← slice db.flatDb (db.rowLen * q.extraElem) (db.rowLen * q.extraElem + db.rowLen)
  some { answer, extraElem }

namespace PuncClient

/-- The `switch` of `reconstruct`: the row, and the hints after it. -/
def reconstructCase (env : Env) (c : PuncClient) (ctx : PuncQueryCtx) (left right : PuncQueryResp)
    (out : List UInt8) : Option (List UInt8 × List (List UInt8)) :=
  match ctx.randCase with
  | 0 => do
      let hint ← c.hints[ctx.setIdx]?
      let out ← xorIntoSlice env out hint
      let out ← xorIntoSlice env out right.answer
      -- the hint becomes the XOR of the rows of the new set
      let hint ← xorIntoSlice env hint hint
      let hint ← xorIntoSlice env hint left.answer
      let hint ← xorIntoSlice env hint out
      some (out, c.hints.set ctx.setIdx hint)
  | 1 => do
      let out ← xorIntoSlice env out out
      let out ← xorIntoSlice env out left.answer
      let out ← xorIntoSlice env out right.answer
      let out ← xorIntoSlice env out right.extraElem
      some (out, c.hints)
  | 2 => do
      let out ← xorIntoSlice env out out
      let out ← xorIntoSlice env out left.answer
      let out ← xorIntoSlice env out right.answer
      let out ← xorIntoSlice env out left.extraElem
      some (out, c.hints)

/-- `reconstruct`; the test for a negative `ctx.setIdx` is never true. -/
def reconstruct (env : Env) (c : PuncClient) (ctx : PuncQueryCtx) (resp : List PuncQueryResp) :
    Option (Except String (List UInt8) × PuncClient) :=
  match resp with
  | [left, right] => do
      let out := List.replicate (← c.hints[0]?).length 0
      let (out, hints) ← c.reconstructCase env ctx left right out
      some (.ok out, { c with hints })
  | _ =>
      some (.error ("Unexpected number of answers: have: " ++ toString resp.length ++ ", want: 2"),
        c)

/-- `pirReader.Read` after its query: the answers of the two servers, which hold the same table,
and the reconstruction. -/
def finish (env : Env) (c : PuncClient) (db : StaticDB) (q : PuncQuery) :
    Option (Except String (List UInt8) × PuncClient) := do
  let left ← q.left.process env db
  let right ← q.right.process env db
  c.reconstruct env q.ctx [left, right]

/-- `pirReader.Read` -/
def read (env : Env) (c : PuncClient) (db : StaticDB) (i : ℤ) (coin : ℕ) (draws : List ℕ) :
    Outcome (Except String (List UInt8) × PuncClient) := do
  let (q, c) ← c.query env i coin draws
  match q with
  | none => .ok (.error ("Failed to query: " ++ toString i), c)
  | some q => Outcome.ofOption (c.finish env db q)

end PuncClient

end SinglePassPIR.Pir
