import SinglePassPIR.Lib.PerfectTree
import SinglePassPIR.Pir.StaticDB
import Mathlib.Data.Nat.Log

/-!
# Puncturable sets in Go

`pset_ggm.go`. The elements of a set are the leaves of a tree of 16-byte keys. `treeEval` walks down
to one leaf; `treeEvalAll` visits all of them without a stack, with the keys of the current path in
a buffer and three cursors: the number of the node, its height, and the position of its key in the
buffer. A punctured set has the siblings along the path to its hole.

The block cipher is an arbitrary function. A Go `int` that is never negative is a natural number,
and is unbounded; `none` is a panic. `rightChild` flips a bit of its seed and flips it back, and
`append` finds no room behind the 16 bytes of a key, so that both leave the keys as they are. A
punctured set keeps its cipher. `exist` and the source of keys of the generator are left out.

## Main results

* `treeEvalAll_spec` — the loop ends, and writes every leaf once, from left to right.
* `puncturedTreeEvalAll_spec` — the siblings give all leaves but one.
* `ggmSet_correct` — evaluation, random access and puncturing agree.
-/

namespace SinglePassPIR.Pir
open PerfectTree

/-! ## Keys -/

/-- `seed[0] ^= 1` -/
def flipSeed (seed : Bytes 16) : Bytes 16 :=
  ⟨seed.toList.set 0 (seed.byte 0 ^^^ 1), by rw [List.length_set, Bytes.length_toList]⟩

/-- `leftChild` -/
def leftChild (prg : Bytes 16 → Bytes 16) (seed : Bytes 16) : Bytes 16 := prg seed + seed

/-- `rightChild` -/
def rightChild (prg : Bytes 16 → Bytes 16) (seed : Bytes 16) : Bytes 16 :=
  prg (flipSeed seed) + flipSeed seed

/-- `binary.LittleEndian.Uint32`, which needs four bytes -/
def uint32LE : List UInt8 → Option ℕ
  | b0 :: b1 :: b2 :: b3 :: _ =>
      some (b0.toNat ||| b1.toNat <<< 8 ||| b2.toNat <<< 16 ||| b3.toNat <<< 24)
  | _ => none

/-- The loop of `treeEval` over the heights. -/
def treeEvalKey (prg : Bytes 16 → Bytes 16) : ℕ → Bytes 16 → ℕ → Bytes 16
  | 0, key, _ => key
  | height + 1, key, pos =>
      let newKey := if pos < 1 <<< height then leftChild prg key else rightChild prg key
      treeEvalKey prg height newKey (Nat.ldiff pos (1 <<< height))

/-- `treeEval` -/
def treeEval (prg : Bytes 16 → Bytes 16) (key : Bytes 16) (height univSize pos : ℕ) : Option ℤ := do
  let word ← uint32LE (treeEvalKey prg height key pos).toList
  mathMod word univSize

/-! ## The walk -/

/-- The variables of `treeEvalAll`. `written` lists the entries of `out` that have been written, in
order; the code does not keep it. -/
structure TreeWalk where
  pathKey : List UInt8
  out : List ℤ
  curHeight : ℕ
  curKeyPos : ℤ
  curNode : ℕ
  written : List ℕ
  deriving DecidableEq

/-- `buf[pos:pos+16]` -/
def blockAt (buf : List UInt8) (pos : ℤ) : Option (Bytes 16) :=
  if h : 0 ≤ pos ∧ pos.toNat + 16 ≤ buf.length then
    some ⟨(buf.drop pos.toNat).take 16, length_slice h.2⟩
  else none

/-- `buf[pos:]` -/
def suffixAt (buf : List UInt8) (pos : ℤ) : Option (List UInt8) :=
  if 0 ≤ pos ∧ pos.toNat ≤ buf.length then some (buf.drop pos.toNat) else none

/-- A child of the current key, written behind it. -/
def TreeWalk.expand (child : Bytes 16 → Bytes 16) (st : TreeWalk) : Option TreeWalk := do
  let key ← blockAt st.pathKey st.curKeyPos
  let pathKey ← storeAt st.pathKey (st.curKeyPos.toNat + 16) (child key).toList
  some { st with pathKey }

/-- The inner loop: up to a node that is a left child, and on to its parent. The first argument
bounds the number of rounds. -/
def climb : ℕ → ℕ → ℕ → ℤ → Option (ℕ × ℕ × ℤ)
  | 0, _, _, _ => none
  | fuel + 1, curNode, curHeight, curKeyPos =>
      if curNode &&& 1 = 1 then climb fuel (curNode >>> 1) (curHeight + 1) (curKeyPos - 16)
      else some (curNode >>> 1, curHeight + 1, curKeyPos - 16)

/-- The part of the loop after a leaf has been written: on to the right child of the last node that
was left to the left, or out of the loop. -/
def TreeWalk.ascend (prg : Bytes 16 → Bytes 16) (height : ℕ) (st : TreeWalk) :
    Option (TreeWalk ⊕ TreeWalk) := do
  let (curNode, curHeight, curKeyPos) ←
    climb (st.curNode + 1) st.curNode st.curHeight st.curKeyPos
  let st := { st with curNode, curHeight, curKeyPos }
  if height < curHeight then some (.inr st)
  else do
    let st ← st.expand (rightChild prg)
    some (.inl { st with
      curNode := st.curNode <<< 1 + 1, curHeight := st.curHeight - 1, curKeyPos := st.curKeyPos + 16 })

/-- The body of the loop of `treeEvalAll`: the next state, or the one it returns in. -/
def TreeWalk.step (prg : Bytes 16 → Bytes 16) (height univSize : ℕ) (st : TreeWalk) :
    Option (TreeWalk ⊕ TreeWalk) :=
  if st.curHeight = 0 then do
    let word ← uint32LE (← suffixAt st.pathKey st.curKeyPos)
    if univSize % 2 ^ 32 = 0 then none
    else do
      let out ← writeAt st.out st.curNode (word % (univSize % 2 ^ 32) : ℕ)
      TreeWalk.ascend prg height { st with out, written := st.written ++ [st.curNode] }
  else do
    let st ← st.expand (leftChild prg)
    some (.inl { st with
      curNode := st.curNode <<< 1, curHeight := st.curHeight - 1, curKeyPos := st.curKeyPos + 16 })

/-- The loop of `treeEvalAll`; the first argument bounds the number of rounds. -/
def TreeWalk.run (prg : Bytes 16 → Bytes 16) (height univSize : ℕ) :
    ℕ → TreeWalk → Option TreeWalk
  | 0, _ => none
  | fuel + 1, st => do
      match ← st.step prg height univSize with
      | .inl st => TreeWalk.run prg height univSize fuel st
      | .inr st => some st

/-- `treeEvalAll`, with one round for each node of the tree -/
def treeEvalAll (prg : Bytes 16 → Bytes 16) (pathKey : List UInt8) (height univSize : ℕ)
    (out : List ℤ) : Option TreeWalk :=
  TreeWalk.run prg height univSize (2 ^ (height + 1))
    { pathKey, out, curHeight := height, curKeyPos := 0, curNode := 0, written := [] }

/-! ## Sets -/

/-- `ggmSet` -/
structure GgmSet where
  key : Bytes 16
  setSize : ℕ
  univSize : ℕ
  height : ℕ
  prg : Bytes 16 → Bytes 16

/-- The set that `SetGenAndEval` makes of a key; the height is the logarithm of the size, rounded
up. -/
def setGen (prg : Bytes 16 → Bytes 16) (key : Bytes 16) (univSize setSize : ℕ) : GgmSet :=
  { key, setSize, univSize, height := Nat.clog 2 setSize, prg }

/-- `ggmSet.Eval_prealloc` -/
def GgmSet.evalPrealloc (set : GgmSet) (elems : List ℤ) : Option (List ℤ) := do
  let preallocKey := set.key.toList ++ List.replicate (16 * set.height) 0
  let st ← treeEvalAll set.prg preallocKey set.height set.univSize elems
  slice st.out 0 set.setSize

/-- `ggmSet.Eval` -/
def GgmSet.eval (set : GgmSet) : Option (List ℤ) :=
  set.evalPrealloc (List.replicate (1 <<< set.height) 0)

/-- `ggmSet.ElemAt` -/
def GgmSet.elemAt (set : GgmSet) (pos : ℕ) : Option ℤ :=
  treeEval set.prg set.key set.height set.univSize pos

/-- `ggmSet.findPos`; `none` inside is the position `-1`. -/
def GgmSet.findPos (set : GgmSet) (idx : ℤ) : Option (Option ℕ) := do
  let elems ← set.eval
  some (elems.findIdx? (· = idx))

/-- `puncturedGGMSet` -/
structure PuncturedGgmSet where
  keys : List (Bytes 16)
  hole : ℕ
  setSize : ℕ
  univSize : ℕ
  height : ℕ
  prg : Bytes 16 → Bytes 16

/-- The loop of `Punc` over the heights, on `keys`, `key` and `pos`. -/
def puncKeys (prg : Bytes 16 → Bytes 16) : ℕ → List (Bytes 16) → Bytes 16 → ℕ → List (Bytes 16)
  | 0, keys, _, _ => keys
  | height + 1, keys, key, pos =>
      let (pathKey, copathKey) :=
        if pos < 1 <<< height then (leftChild prg key, rightChild prg key)
        else (rightChild prg key, leftChild prg key)
      puncKeys prg height (keys ++ [copathKey]) pathKey (Nat.ldiff pos (1 <<< height))

/-- `ggmSet.Punc` -/
def GgmSet.punc (set : GgmSet) (idx : ℤ) : Option PuncturedGgmSet := do
  match ← set.findPos idx with
  | none => none
  | some hole =>
      some
        { keys := puncKeys set.prg set.height [] set.key hole
          hole
          setSize := set.setSize - 1
          univSize := set.univSize
          height := set.height
          prg := set.prg }

/-- `puncturedTreeEvalAll`. The two calls work on disjoint slices of `out`. -/
def puncturedTreeEvalAll (prg : Bytes 16 → Bytes 16) (univSize : ℕ) :
    ℕ → List (Bytes 16) → ℕ → List ℤ → Option (List ℤ)
  | 0, _, _, out => some out
  | _ + 1, [], _, _ => none
  | height + 1, key :: keys, hole, out =>
      let pathKey := key.toList ++ List.replicate ((height + 1) * key.toList.length) 0
      if hole < 1 <<< height then do
        let first ← slice out 0 (1 <<< height - 1)
        let first ← puncturedTreeEvalAll prg univSize height keys hole first
        let st ← treeEvalAll prg pathKey height univSize (out.drop (1 <<< height - 1))
        some (first ++ st.out)
      else do
        let first ← slice out 0 (1 <<< height)
        let st ← treeEvalAll prg pathKey height univSize first
        let rest ← puncturedTreeEvalAll prg univSize height keys (hole - 1 <<< height)
          (out.drop (1 <<< height))
        some (st.out ++ rest)

/-- `puncturedGGMSet.Eval` -/
def PuncturedGgmSet.eval (set : PuncturedGgmSet) : Option (List ℤ) := do
  let elems ← puncturedTreeEvalAll set.prg set.univSize set.height set.keys set.hole
    (List.replicate (1 <<< set.height) 0)
  slice elems 0 set.setSize

/-! ## Reading keys -/

/-- The word that a key starts with. -/
def keyWord32 (key : Bytes 16) : ℕ :=
  (key.byte 0).toNat ||| (key.byte 1).toNat <<< 8 ||| (key.byte 2).toNat <<< 16 |||
    (key.byte 3).toNat <<< 24

theorem uint32LE_append (key : Bytes 16) (rest : List UInt8) :
    uint32LE (key.toList ++ rest) = some (keyWord32 key) := by
  obtain ⟨l, hl⟩ := key
  match l with
  | b0 :: b1 :: b2 :: b3 :: l => rfl

theorem treeEvalKey_eq (prg : Bytes 16 → Bytes 16) {height pos : ℕ} (key : Bytes 16)
    (hpos : pos < 2 ^ height) :
    treeEvalKey prg height key pos = leafAt (leftChild prg) (rightChild prg) height key pos := by
  induction height generalizing key pos with
  | zero => rfl
  | succ height ih =>
      rw [treeEvalKey, leafAt, ldiff_two_pow hpos, Nat.one_shiftLeft]
      rw [Nat.pow_succ] at hpos
      split_ifs with hlt
      · exact ih _ hlt
      · exact ih _ (by omega)

/-- The element that `treeEvalAll` writes for a leaf. -/
def leafElem (univSize : ℕ) (key : Bytes 16) : ℤ := (keyWord32 key % (univSize % 2 ^ 32) : ℕ)

/-- The element of a leaf, as `treeEval` computes it. -/
theorem treeEval_eq (prg : Bytes 16 → Bytes 16) {height univSize pos : ℕ} (key : Bytes 16)
    (huniv : 0 < univSize) (hpos : pos < 2 ^ height) :
    treeEval prg key height univSize pos =
      some ((keyWord32 (leafAt (leftChild prg) (rightChild prg) height key pos) : ℤ) % univSize) := by
  have hword := uint32LE_append (treeEvalKey prg height key pos) []
  rw [List.append_nil] at hword
  rw [treeEval, hword, Option.bind_eq_bind, Option.bind_some, mathMod_eq _ (by omega),
    treeEvalKey_eq prg key hpos]

/-! ## The buffer of keys -/

variable {prg : Bytes 16 → Bytes 16} {key : Bytes 16} {buf : List UInt8} {p : ℕ}

theorem blockAt_eq_some (h : blockAt buf p = some key) :
    p + 16 ≤ buf.length ∧ (buf.drop p).take 16 = key.toList := by
  rw [blockAt] at h
  split_ifs at h with hin
  cases h
  exact ⟨by simpa using hin.2, rfl⟩

theorem blockAt_of_take (hlen : p + 16 ≤ buf.length) (h : (buf.drop p).take 16 = key.toList) :
    blockAt buf p = some key := by
  rw [blockAt, dif_pos ⟨Int.natCast_nonneg p, by simpa using hlen⟩]
  exact congrArg some (Subtype.ext h)

/-- A key does not depend on what comes behind it. -/
theorem blockAt_congr {buf' : List UInt8} (hlen : buf'.length = buf.length)
    (htake : buf'.take (p + 16) = buf.take (p + 16)) (h : blockAt buf p = some key) :
    blockAt buf' p = some key := by
  obtain ⟨hin, hkey⟩ := blockAt_eq_some h
  apply blockAt_of_take (hlen ▸ hin)
  rw [List.take_drop, htake, ← List.take_drop, hkey]

variable {st : TreeWalk}

/-- Expanding a key leaves the buffer up to its end as it is. -/
theorem TreeWalk.expand_spec (child : Bytes 16 → Bytes 16) (hpos : st.curKeyPos = p)
    (hkey : blockAt st.pathKey p = some key) (hroom : p + 32 ≤ st.pathKey.length) :
    ∃ pathKey, st.expand child = some { st with pathKey } ∧ pathKey.length = st.pathKey.length ∧
      pathKey.take (p + 16) = st.pathKey.take (p + 16) ∧
      blockAt pathKey (p + 16 : ℕ) = some (child key) := by
  have hfit : p + 16 + (child key).toList.length ≤ st.pathKey.length := by
    rw [Bytes.length_toList]
    exact hroom
  have hnat : st.curKeyPos.toNat = p := by
    rw [hpos, Int.toNat_natCast]
  have htake : (st.pathKey.take (p + 16)).length = p + 16 := List.length_take_of_le (by omega)
  refine ⟨_, ?_, length_store hfit, ?_, ?_⟩
  · rw [TreeWalk.expand, hpos, hkey, Option.bind_eq_bind, Option.bind_some, Int.toNat_natCast,
      storeAt_eq hfit]
    rfl
  · rw [List.append_assoc, List.take_left' htake]
  · apply blockAt_of_take
    · rw [length_store hfit]
      omega
    · rw [List.append_assoc, List.drop_left' htake, List.take_left' (Bytes.length_toList _)]

/-! ## Climbing -/

theorem climb_even (fuel node curHeight : ℕ) (pos : ℤ) :
    climb (fuel + 1) (2 * node) curHeight pos = some (node, curHeight + 1, pos - 16) := by
  have hbit : 2 * node &&& 1 = 0 := by rw [Nat.and_one_is_mod]; omega
  have hhalf : (2 * node) >>> 1 = node := by rw [Nat.shiftRight_one]; omega
  rw [climb, hbit, hhalf]
  rfl

theorem climb_odd (fuel node curHeight : ℕ) (pos : ℤ) :
    climb (fuel + 1) (2 * node + 1) curHeight pos = climb fuel node (curHeight + 1) (pos - 16) := by
  have hbit : 2 * node + 1 &&& 1 = 1 := by rw [Nat.and_one_is_mod]; omega
  have hhalf : (2 * node + 1) >>> 1 = node := by rw [Nat.shiftRight_one]; omega
  rw [climb, if_pos hbit, hhalf]

/-- More rounds than a node has bits are never used. -/
theorem climb_fuel {fuel node curHeight : ℕ} {pos : ℤ} (h : node < fuel) :
    climb fuel node curHeight pos = climb (node + 1) node curHeight pos := by
  induction node using Nat.strong_induction_on generalizing fuel curHeight pos with
  | _ node ih =>
      obtain ⟨fuel, rfl⟩ : ∃ f, fuel = f + 1 := ⟨fuel - 1, by omega⟩
      obtain ⟨half, hhalf⟩ : ∃ half, node = 2 * half ∨ node = 2 * half + 1 := ⟨node / 2, by omega⟩
      cases hhalf with
      | inl heven =>
          subst heven
          rw [climb_even, climb_even]
      | inr hodd =>
          subst hodd
          rw [climb_odd, climb_odd, ih half (by omega) (by omega),
            @ih half (by omega) (2 * half + 1) _ _ (by omega)]

/-- Above a right child, the walk goes on as above its parent. -/
theorem TreeWalk.ascend_right (height : ℕ) {node : ℕ} (h : st.curNode = 2 * node + 1) :
    st.ascend prg height =
      TreeWalk.ascend prg height { st with
        curNode := node, curHeight := st.curHeight + 1, curKeyPos := st.curKeyPos - 16 } := by
  rw [TreeWalk.ascend, TreeWalk.ascend, h, climb_odd, climb_fuel (by omega)]

variable (prg) in
/-- Above a left child inside the tree, the walk goes on with the right child of its parent. -/
theorem TreeWalk.ascend_left {height node : ℕ} (h : st.curNode = 2 * node)
    (hin : st.curHeight < height) (hpos : st.curKeyPos = (p + 16 : ℕ))
    (hkey : blockAt st.pathKey p = some key) (hroom : p + 32 ≤ st.pathKey.length) :
    ∃ pathKey, st.ascend prg height = some (.inl
        { st with pathKey, curNode := 2 * node + 1 }) ∧
      pathKey.length = st.pathKey.length ∧ pathKey.take (p + 16) = st.pathKey.take (p + 16) ∧
      blockAt pathKey (p + 16 : ℕ) = some (rightChild prg key) := by
  have hback : st.curKeyPos - 16 = (p : ℤ) := by
    rw [hpos]
    push_cast
    ring
  obtain ⟨pathKey, hexpand, hlen, htake, hchild⟩ := @TreeWalk.expand_spec key p
    { st with curNode := node, curHeight := st.curHeight + 1, curKeyPos := p } (rightChild prg)
    rfl hkey hroom
  refine ⟨pathKey, ?_, hlen, htake, hchild⟩
  rw [TreeWalk.ascend, h, climb_even, Option.bind_eq_bind, Option.bind_some]
  dsimp only
  rw [if_neg (by omega), hback, hexpand, Option.bind_eq_bind, Option.bind_some, hpos,
    Nat.shiftLeft_eq, Nat.mul_comm node]
  rfl

/-! ## Walking through a subtree -/

/-- `l` with `v` from position `off` on. -/
def overwrite (l : List ℤ) (off : ℕ) (v : List ℤ) : List ℤ :=
  l.take off ++ v ++ l.drop (off + v.length)

theorem length_overwrite {l v : List ℤ} {off : ℕ} (h : off + v.length ≤ l.length) :
    (overwrite l off v).length = l.length := length_store h

/-- Two neighbouring writes are one. -/
theorem overwrite_overwrite {l v w : List ℤ} {off : ℕ} (h : off + v.length ≤ l.length) :
    overwrite (overwrite l off v) (off + v.length) w = overwrite l off (v ++ w) := by
  have hlen : (l.take off ++ v).length = off + v.length := by
    rw [List.length_append, List.length_take_of_le (by omega)]
  rw [overwrite, overwrite, overwrite, List.take_left' hlen, ← List.drop_drop, List.drop_left' hlen,
    List.drop_drop, List.length_append, Nat.add_assoc, List.append_assoc (l.take off)]

theorem set_eq_overwrite {l : List ℤ} {i : ℕ} (h : i < l.length) (v : ℤ) :
    l.set i v = overwrite l i [v] := by
  rw [List.set_eq_take_append_cons_drop, if_pos h, overwrite, List.append_assoc]
  rfl

/-- The walk is at a node of height `k` of a tree of height `h`, with the key `key`. -/
structure TreeWalk.AtNode (st : TreeWalk) (h k node : ℕ) (key : Bytes 16) : Prop where
  height_le : k ≤ h
  curHeight : st.curHeight = k
  curNode : st.curNode = node
  curKeyPos : st.curKeyPos = (16 * (h - k) : ℕ)
  room : 16 * (h + 1) ≤ st.pathKey.length
  key_eq : blockAt st.pathKey (16 * (h - k) : ℕ) = some key
  out_room : (node + 1) * 2 ^ k ≤ st.out.length

/-- What a walk through the subtree of a node has changed. -/
structure TreeWalk.Filled (prg : Bytes 16 → Bytes 16) (univSize h k node : ℕ) (key : Bytes 16)
    (st st' : TreeWalk) : Prop where
  length_eq : st'.pathKey.length = st.pathKey.length
  take_eq : st'.pathKey.take (16 * (h - k) + 16) = st.pathKey.take (16 * (h - k) + 16)
  out_eq : st'.out = overwrite st.out (node * 2 ^ k)
    ((leaves (leftChild prg) (rightChild prg) k key).map (leafElem univSize))
  written_eq : st'.written = st.written ++ List.range' (node * 2 ^ k) (2 ^ k)

variable {univSize h k node fuel : ℕ}

/-- The rest of the loop after one round. -/
def TreeWalk.runFrom (prg : Bytes 16 → Bytes 16) (height univSize fuel : ℕ) :
    TreeWalk ⊕ TreeWalk → Option TreeWalk
  | .inl st => TreeWalk.run prg height univSize fuel st
  | .inr st => some st

theorem TreeWalk.run_succ (st : TreeWalk) :
    TreeWalk.run prg h univSize (fuel + 1) st =
      (st.step prg h univSize).bind (TreeWalk.runFrom prg h univSize fuel) := by
  rw [TreeWalk.run, Option.bind_eq_bind]
  refine congrArg _ (funext fun next => ?_)
  cases next <;> rfl

/-- A leaf is written. -/
theorem TreeWalk.step_leaf (huniv : univSize % 2 ^ 32 ≠ 0) (hat : st.AtNode h 0 node key) :
    ∃ st', st.step prg h univSize = st'.ascend prg h ∧ st'.AtNode h 0 node key ∧
      TreeWalk.Filled prg univSize h 0 node key st st' := by
  have hout : node < st.out.length := by
    have hroom := hat.out_room
    rw [Nat.pow_zero, Nat.mul_one] at hroom
    exact hroom
  obtain ⟨hin, hkey⟩ := blockAt_eq_some hat.key_eq
  have hnat : st.curKeyPos.toNat = 16 * (h - 0) := by rw [hat.curKeyPos, Int.toNat_natCast]
  have hrest : uint32LE (st.pathKey.drop (16 * (h - 0))) = some (keyWord32 key) := by
    rw [← List.take_append_drop 16 (st.pathKey.drop (16 * (h - 0))), hkey]
    exact uint32LE_append key _
  refine ⟨{ st with
    out := st.out.set node (leafElem univSize key), written := st.written ++ [node] }, ?_, ?_, ?_⟩
  · have hsuffix : suffixAt st.pathKey st.curKeyPos =
        some (st.pathKey.drop (16 * (h - 0))) := by
      rw [suffixAt, hnat, hat.curKeyPos, if_pos ⟨Int.natCast_nonneg _, by omega⟩]
    rw [TreeWalk.step, if_pos hat.curHeight, hsuffix, Option.bind_eq_bind, Option.bind_some, hrest,
      Option.bind_eq_bind, Option.bind_some, if_neg huniv, hat.curNode, writeAt_eq hout]
    rfl
  · exact ⟨hat.height_le, hat.curHeight, hat.curNode, hat.curKeyPos, hat.room, hat.key_eq,
      by simpa using hat.out_room⟩
  · refine ⟨rfl, rfl, ?_, ?_⟩
    · simp [set_eq_overwrite hout]
    · simp

variable (prg univSize) in
/-- The first step down from an inner node leads to its left child. -/
theorem TreeWalk.step_inner (hat : st.AtNode h (k + 1) node key) :
    ∃ pathKey, st.step prg h univSize = some (.inl { st with
        pathKey, curNode := 2 * node, curHeight := k, curKeyPos := (16 * (h - k) : ℕ) }) ∧
      pathKey.length = st.pathKey.length ∧
      pathKey.take (16 * (h - k)) = st.pathKey.take (16 * (h - k)) ∧
      blockAt pathKey (16 * (h - k) : ℕ) = some (leftChild prg key) := by
  have hle := hat.height_le
  have hroom := hat.room
  have hpos : 16 * (h - (k + 1)) + 16 = 16 * (h - k) := by omega
  obtain ⟨pathKey, hexpand, hlen, htake, hchild⟩ :=
    TreeWalk.expand_spec (leftChild prg) hat.curKeyPos hat.key_eq (by omega)
  rw [hpos] at htake hchild
  refine ⟨pathKey, ?_, hlen, htake, hchild⟩
  have hnext : st.curKeyPos + 16 = (16 * (h - k) : ℕ) := by
    rw [hat.curKeyPos, ← hpos]
    push_cast
    ring
  rw [TreeWalk.step, if_neg (by rw [hat.curHeight]; omega), hexpand, Option.bind_eq_bind,
    Option.bind_some]
  dsimp only
  rw [hat.curNode, hat.curHeight, hnext, Nat.shiftLeft_eq, Nat.mul_comm node]
  rfl

/-- What two buffers have in common, up to an earlier position. -/
theorem take_eq_of_le {l l' : List UInt8} {a b : ℕ} (hab : a ≤ b) (h : l.take b = l'.take b) :
    l.take a = l'.take a := by
  have htake := congrArg (List.take a) h
  rwa [List.take_take, List.take_take, Nat.min_eq_left hab] at htake

/-- The leaves of two siblings, one after the other. -/
theorem overwrite_leaves_succ {out : List ℤ} (hend : (node + 1) * 2 ^ (k + 1) ≤ out.length) :
    overwrite
        (overwrite out (2 * node * 2 ^ k)
          ((leaves (leftChild prg) (rightChild prg) k (leftChild prg key)).map (leafElem univSize)))
        ((2 * node + 1) * 2 ^ k)
        ((leaves (leftChild prg) (rightChild prg) k (rightChild prg key)).map (leafElem univSize)) =
      overwrite out (node * 2 ^ (k + 1))
        ((leaves (leftChild prg) (rightChild prg) (k + 1) key).map (leafElem univSize)) := by
  have hstart : node * 2 ^ (k + 1) = 2 * node * 2 ^ k := by
    rw [Nat.pow_succ]
    ring
  have hnext := @overwrite_overwrite out
    ((leaves (leftChild prg) (rightChild prg) k (leftChild prg key)).map (leafElem univSize))
    ((leaves (leftChild prg) (rightChild prg) k (rightChild prg key)).map (leafElem univSize))
    (2 * node * 2 ^ k) (by
      rw [List.length_map, length_leaves]
      rw [Nat.succ_mul, hstart, Nat.pow_succ] at hend
      omega)
  rw [List.length_map, length_leaves, ← Nat.succ_mul] at hnext
  rw [hnext, leaves_succ, List.map_append, hstart]

theorem range'_leaves_succ (node k : ℕ) :
    List.range' (2 * node * 2 ^ k) (2 ^ k) ++ List.range' ((2 * node + 1) * 2 ^ k) (2 ^ k) =
      List.range' (node * 2 ^ (k + 1)) (2 ^ (k + 1)) := by
  rw [Nat.succ_mul (2 * node), List.range'_append_1]
  congr 1
  · rw [Nat.pow_succ]
    ring
  · rw [Nat.pow_succ]
    ring

variable (prg fuel) in
/-- **The walk through a subtree**: the rounds for its nodes fill its leaves, and the walk is then at
its root, about to leave it. -/
theorem TreeWalk.run_subtree (huniv : univSize % 2 ^ 32 ≠ 0) (hat : st.AtNode h k node key) :
    ∃ st', TreeWalk.run prg h univSize (fuel + (2 ^ (k + 1) - 1)) st =
        (st'.ascend prg h).bind (TreeWalk.runFrom prg h univSize fuel) ∧
      st'.AtNode h k node key ∧ TreeWalk.Filled prg univSize h k node key st st' := by
  induction k generalizing st node key fuel with
  | zero =>
      obtain ⟨st', hstep, hat', hfilled⟩ := TreeWalk.step_leaf huniv hat
      refine ⟨st', ?_, hat', hfilled⟩
      rw [← hstep]
      exact TreeWalk.run_succ st
  | succ k ih =>
      have hle := hat.height_le
      have hroom := hat.room
      have hend := hat.out_room
      have hpow : 2 ^ (k + 1) = 2 * 2 ^ k := Nat.pow_succ'
      have hmul : (node + 1) * 2 ^ (k + 1) = 2 * node * 2 ^ k + 2 * 2 ^ k := by
        rw [hpow]
        ring
      have hpos : 16 * (h - (k + 1)) + 16 = 16 * (h - k) := by omega
      -- the left subtree
      obtain ⟨path₁, hstep, hlen₁, htake₁, hkey₁⟩ :=
        TreeWalk.step_inner prg univSize hat
      have hat₁ : TreeWalk.AtNode { st with
          pathKey := path₁, curNode := 2 * node, curHeight := k, curKeyPos := (16 * (h - k) : ℕ) }
          h k (2 * node) (leftChild prg key) :=
        ⟨by omega, rfl, rfl, rfl, hlen₁ ▸ hroom, hkey₁, by dsimp only; rw [Nat.succ_mul]; omega⟩
      obtain ⟨st₁, hrun₁, hat₁', hfill₁⟩ := ih (fuel + (2 ^ (k + 1) - 1)) hat₁
      -- the step to the right subtree
      have hprefix₁ : st₁.pathKey.take (16 * (h - k)) = st.pathKey.take (16 * (h - k)) :=
        (take_eq_of_le (Nat.le_add_right _ _) hfill₁.take_eq).trans htake₁
      have hlen₁' : st₁.pathKey.length = st.pathKey.length := hfill₁.length_eq.trans hlen₁
      have hparent : blockAt st₁.pathKey (16 * (h - (k + 1)) : ℕ) = some key :=
        blockAt_congr hlen₁' (by rw [hpos]; exact hprefix₁) hat.key_eq
      obtain ⟨path₂, hascend, hlen₂, htake₂, hkey₂⟩ := TreeWalk.ascend_left prg
        hat₁'.curNode (hat₁'.curHeight.trans_lt hle) (by rw [hpos]; exact hat₁'.curKeyPos) hparent
        (by omega)
      rw [hpos] at htake₂ hkey₂
      have hout₁ : st₁.out.length = st.out.length := by
        rw [hfill₁.out_eq]
        apply length_overwrite
        rw [List.length_map, length_leaves]
        dsimp only
        omega
      have hat₂ : TreeWalk.AtNode { st₁ with pathKey := path₂, curNode := 2 * node + 1 }
          h k (2 * node + 1) (rightChild prg key) :=
        ⟨by omega, hat₁'.curHeight, rfl, hat₁'.curKeyPos, by dsimp only; omega, hkey₂, by
          dsimp only
          rw [hout₁, Nat.succ_mul, Nat.succ_mul]
          omega⟩
      -- the right subtree, and out of it
      obtain ⟨st₂, hrun₂, hat₂', hfill₂⟩ := ih fuel hat₂
      have hprefix₂ : st₂.pathKey.take (16 * (h - k)) = st.pathKey.take (16 * (h - k)) :=
        ((take_eq_of_le (Nat.le_add_right _ _) hfill₂.take_eq).trans htake₂).trans hprefix₁
      have hlen₂' : st₂.pathKey.length = st.pathKey.length :=
        (hfill₂.length_eq.trans hlen₂).trans hlen₁'
      have hout : st₂.out = overwrite st.out (node * 2 ^ (k + 1))
          ((leaves (leftChild prg) (rightChild prg) (k + 1) key).map (leafElem univSize)) := by
        rw [hfill₂.out_eq, ← overwrite_leaves_succ hend, ← hfill₁.out_eq]
      refine ⟨{ st₂ with
        curNode := node, curHeight := k + 1, curKeyPos := (16 * (h - (k + 1)) : ℕ) }, ?_, ?_, ?_⟩
      · have hfuel : fuel + (2 ^ (k + 1 + 1) - 1) =
            fuel + (2 ^ (k + 1) - 1) + (2 ^ (k + 1) - 1) + 1 := by
          have hsucc : 2 ^ (k + 1 + 1) = 2 * 2 ^ (k + 1) := Nat.pow_succ'
          have hone := Nat.one_le_two_pow (n := k + 1)
          omega
        have hback : st₂.curKeyPos - 16 = (16 * (h - (k + 1)) : ℕ) := by
          rw [hat₂'.curKeyPos, ← hpos]
          push_cast
          ring
        rw [hfuel, TreeWalk.run_succ, hstep, Option.bind_some, TreeWalk.runFrom, hrun₁, hascend,
          Option.bind_some, TreeWalk.runFrom, hrun₂, TreeWalk.ascend_right h hat₂'.curNode,
          hat₂'.curHeight, hback]
      · have hout₂ : st₂.out.length = st.out.length := by
          rw [hout, length_overwrite]
          rw [List.length_map, length_leaves]
          rwa [Nat.succ_mul] at hend
        exact ⟨hle, rfl, rfl, rfl, hlen₂' ▸ hroom,
          blockAt_congr hlen₂' (by rw [hpos]; exact hprefix₂) hat.key_eq, hout₂ ▸ hend⟩
      · refine ⟨hlen₂', by rw [hpos]; exact hprefix₂, hout, ?_⟩
        have hwritten := hfill₂.written_eq
        dsimp only at hwritten ⊢
        rw [hwritten, hfill₁.written_eq, List.append_assoc, range'_leaves_succ]

/-- **`treeEvalAll` ends and writes every leaf once**, from left to right. -/
theorem treeEvalAll_spec (prg : Bytes 16 → Bytes 16) (key : Bytes 16) {height : ℕ}
    (huniv : univSize % 2 ^ 32 ≠ 0) {rest : List UInt8} (hrest : 16 * height ≤ rest.length)
    (out : List ℤ) (hout : 2 ^ height ≤ out.length) :
    ∃ st, treeEvalAll prg (key.toList ++ rest) height univSize out = some st ∧
      st.out = (leaves (leftChild prg) (rightChild prg) height key).map (leafElem univSize) ++
        out.drop (2 ^ height) ∧
      st.written = List.range (2 ^ height) := by
  have hpath : 16 * (height + 1) ≤ (key.toList ++ rest).length := by
    rw [List.length_append, Bytes.length_toList]
    omega
  have hkey : blockAt (key.toList ++ rest) (0 : ℕ) = some key := by
    apply blockAt_of_take
    · omega
    · rw [List.drop_zero, List.take_left' (Bytes.length_toList key)]
  have hat : TreeWalk.AtNode ⟨key.toList ++ rest, out, height, 0, 0, []⟩ height height 0 key := by
    refine ⟨le_rfl, rfl, rfl, ?_, hpath, ?_, by simpa using hout⟩
    · rw [Nat.sub_self]
      rfl
    · rw [Nat.sub_self]
      exact hkey
  obtain ⟨st, hrun, hat', hfill⟩ := TreeWalk.run_subtree prg 1 huniv hat
  have hfuel : 1 + (2 ^ (height + 1) - 1) = 2 ^ (height + 1) := by
    have hone := Nat.one_le_two_pow (n := height + 1)
    omega
  have hexit : st.ascend prg height = some (.inr { st with
      curNode := 0, curHeight := height + 1, curKeyPos := st.curKeyPos - 16 }) := by
    rw [TreeWalk.ascend, hat'.curNode, hat'.curHeight, ← Nat.mul_zero 2, climb_even,
      Option.bind_eq_bind, Option.bind_some]
    dsimp only
    rw [if_pos (Nat.lt_succ_self height)]
  rw [hfuel, hexit] at hrun
  refine ⟨_, hrun, ?_, ?_⟩
  · have heq := hfill.out_eq
    rw [Nat.zero_mul, overwrite, Nat.zero_add, List.length_map, length_leaves, List.take_zero,
      List.nil_append] at heq
    exact heq
  · have heq := hfill.written_eq
    rw [Nat.zero_mul, List.nil_append, ← List.range_eq_range'] at heq
    exact heq

/-! ## Puncturing -/

theorem puncKeys_eq (prg : Bytes 16 → Bytes 16) {height pos : ℕ} (keys : List (Bytes 16))
    (key : Bytes 16) (hpos : pos < 2 ^ height) :
    puncKeys prg height keys key pos =
      keys ++ copath (leftChild prg) (rightChild prg) height key pos := by
  induction height generalizing keys key pos with
  | zero => simp [puncKeys, copath]
  | succ height ih =>
      rw [puncKeys, copath, ldiff_two_pow hpos, Nat.one_shiftLeft]
      rw [Nat.pow_succ] at hpos
      split_ifs with hlt
      · dsimp only
        rw [ih _ _ hlt, List.append_assoc, List.singleton_append]
      · dsimp only
        rw [ih _ _ (by omega : pos - 2 ^ height < 2 ^ height), List.append_assoc,
          List.singleton_append]

/-- **The siblings along a path give all leaves but the one at its end.** -/
theorem puncturedTreeEvalAll_spec (prg : Bytes 16 → Bytes 16) (key : Bytes 16) {height hole : ℕ}
    (huniv : univSize % 2 ^ 32 ≠ 0) (hhole : hole < 2 ^ height) (out : List ℤ)
    (hout : 2 ^ height - 1 ≤ out.length) :
    puncturedTreeEvalAll prg univSize height
        (copath (leftChild prg) (rightChild prg) height key hole) hole out =
      some (((leaves (leftChild prg) (rightChild prg) height key).eraseIdx hole).map
        (leafElem univSize) ++ out.drop (2 ^ height - 1)) := by
  induction height generalizing key hole out with
  | zero =>
      obtain rfl : hole = 0 := by omega
      simp [puncturedTreeEvalAll]
  | succ height ih =>
      have hpow : 2 ^ (height + 1) = 2 * 2 ^ height := Nat.pow_succ'
      have hone := Nat.one_le_two_pow (n := height)
      have hrest : 2 ^ height - 1 + 2 ^ height = 2 ^ (height + 1) - 1 := by omega
      have hbuffer : ∀ k : Bytes 16,
          16 * height ≤ (List.replicate ((height + 1) * k.toList.length) (0 : UInt8)).length := by
        intro k
        rw [List.length_replicate, Bytes.length_toList]
        omega
      rw [copath]
      split_ifs with hlt
      · -- the hole is in the left subtree
        have hfirst : (out.take (2 ^ height - 1)).length = 2 ^ height - 1 :=
          List.length_take_of_le (by omega)
        have hleft := ih (leftChild prg key) hlt _ hfirst.ge
        rw [List.drop_of_length_le hfirst.le, List.append_nil] at hleft
        obtain ⟨st, hright, hst, -⟩ := treeEvalAll_spec prg (rightChild prg key) huniv
          (hbuffer _) (out.drop (2 ^ height - 1)) (by rw [List.length_drop]; omega)
        rw [puncturedTreeEvalAll, Nat.one_shiftLeft, if_pos hlt,
          slice_eq (Nat.zero_le _) (by omega), List.drop_zero, Nat.sub_zero,
          Option.bind_eq_bind, Option.bind_some, hleft, Option.bind_eq_bind, Option.bind_some,
          hright, Option.bind_some, hst, eraseIdx_leaves_left _ _ _ hlt,
          List.map_append, List.append_assoc, List.drop_drop, hrest]
      · -- the hole is in the right subtree
        have hge : 2 ^ height ≤ hole := Nat.le_of_not_lt hlt
        have hfirst : (out.take (2 ^ height)).length = 2 ^ height :=
          List.length_take_of_le (by omega)
        obtain ⟨st, hleft, hst, -⟩ := treeEvalAll_spec prg (leftChild prg key) huniv
          (hbuffer _) _ hfirst.ge
        rw [List.drop_of_length_le hfirst.le, List.append_nil] at hst
        have hhole' : hole - 2 ^ height < 2 ^ height := by omega
        have hright := ih (rightChild prg key) hhole' (out.drop (2 ^ height))
          (by rw [List.length_drop]; omega)
        rw [puncturedTreeEvalAll, Nat.one_shiftLeft, if_neg hlt,
          slice_eq (Nat.zero_le _) (by omega), List.drop_zero, Nat.sub_zero,
          Option.bind_eq_bind, Option.bind_some, hleft, Option.bind_eq_bind, Option.bind_some,
          hright, Option.bind_some, hst, eraseIdx_leaves_right _ _ _ hge,
          List.map_append, List.append_assoc, List.drop_drop, Nat.add_comm (2 ^ height), hrest]

/-! ## Sets -/

/-- The elements of the set that is made of a key. -/
def ggmSetElems (prg : Bytes 16 → Bytes 16) (key : Bytes 16) (univSize setSize : ℕ) : List ℤ :=
  ((leaves (leftChild prg) (rightChild prg) (Nat.clog 2 setSize) key).map
    (leafElem univSize)).take setSize

variable {setSize : ℕ}

theorem le_two_pow_clog (setSize : ℕ) : setSize ≤ 2 ^ Nat.clog 2 setSize :=
  Nat.le_pow_clog (by decide) setSize

theorem length_ggmSetElems (prg : Bytes 16 → Bytes 16) (key : Bytes 16) (univSize setSize : ℕ) :
    (ggmSetElems prg key univSize setSize).length = setSize := by
  rw [ggmSetElems, List.length_take, List.length_map, length_leaves,
    Nat.min_eq_left (le_two_pow_clog setSize)]

theorem getElem?_ggmSetElems {pos : ℕ} (hpos : pos < setSize) :
    (ggmSetElems prg key univSize setSize)[pos]? = some (leafElem univSize
      (leafAt (leftChild prg) (rightChild prg) (Nat.clog 2 setSize) key pos)) := by
  rw [ggmSetElems, List.getElem?_take_of_lt hpos, List.getElem?_map,
    getElem?_leaves _ _ _ (hpos.trans_le (le_two_pow_clog setSize))]
  rfl

theorem setGen_eval (huniv : univSize % 2 ^ 32 ≠ 0) :
    (setGen prg key univSize setSize).eval = some (ggmSetElems prg key univSize setSize) := by
  have hrest : 16 * Nat.clog 2 setSize ≤
      (List.replicate (16 * Nat.clog 2 setSize) (0 : UInt8)).length := by simp
  obtain ⟨st, hrun, hout, -⟩ := treeEvalAll_spec prg key huniv hrest
    (List.replicate (2 ^ Nat.clog 2 setSize) 0) (by simp)
  rw [List.drop_of_length_le (by simp), List.append_nil] at hout
  have hlen : st.out.length = 2 ^ Nat.clog 2 setSize := by
    rw [hout, List.length_map, length_leaves]
  rw [GgmSet.eval, GgmSet.evalPrealloc, setGen, Nat.one_shiftLeft]
  dsimp only
  rw [hrun, Option.bind_eq_bind, Option.bind_some,
    slice_eq (Nat.zero_le _) (hlen ▸ le_two_pow_clog setSize), List.drop_zero, Nat.sub_zero, hout,
    ggmSetElems]

/-- What `Punc` returns for the element whose first position is `hole`. -/
theorem setGen_punc (huniv : univSize % 2 ^ 32 ≠ 0) {idx : ℤ} {hole : ℕ}
    (hidx : (ggmSetElems prg key univSize setSize)[hole]? = some idx)
    (hfirst : ∀ j < hole, (ggmSetElems prg key univSize setSize)[j]? ≠ some idx) :
    (setGen prg key univSize setSize).punc idx = some
      { keys := copath (leftChild prg) (rightChild prg) (Nat.clog 2 setSize) key hole
        hole, setSize := setSize - 1, univSize, height := Nat.clog 2 setSize, prg } := by
  obtain ⟨hlt, hget⟩ := List.getElem?_eq_some_iff.mp hidx
  have hpos : hole < 2 ^ Nat.clog 2 setSize := by
    rw [length_ggmSetElems] at hlt
    exact hlt.trans_le (le_two_pow_clog setSize)
  have hfind : (ggmSetElems prg key univSize setSize).findIdx? (· = idx) = some hole := by
    rw [List.findIdx?_eq_some_iff_getElem]
    refine ⟨hlt, by simpa using hget, ?_⟩
    intro j hj hjidx
    apply hfirst j hj
    rw [List.getElem?_eq_getElem (hj.trans hlt)]
    simpa using hjidx
  have hpos_eq : (setGen prg key univSize setSize).findPos idx = some (some hole) := by
    rw [GgmSet.findPos, setGen_eval huniv, Option.bind_eq_bind, Option.bind_some, hfind]
  rw [GgmSet.punc, hpos_eq, Option.bind_eq_bind, Option.bind_some]
  simp only [setGen]
  rw [puncKeys_eq prg [] key hpos, List.nil_append]

/-- All elements but one of the front of a list. -/
theorem take_eraseIdx_pred {l : List ℤ} {i n : ℕ} (hi : i < n) (hn : n ≤ l.length) :
    (l.eraseIdx i).take (n - 1) = (l.take n).eraseIdx i := by
  have hfront : (l.take n).length = n := List.length_take_of_le hn
  have hsplit : l.eraseIdx i = (l.take n).eraseIdx i ++ l.drop n := by
    rw [← List.eraseIdx_append_of_lt_length (by omega), List.take_append_drop]
  have hlen : ((l.take n).eraseIdx i).length = n - 1 := by
    rw [List.length_eraseIdx_of_lt (by omega), hfront]
  rw [hsplit, List.take_left' hlen]

/-- **A punctured set evaluates to the elements of the set but the one at the hole.** -/
theorem puncturedSet_eval (huniv : univSize % 2 ^ 32 ≠ 0) {hole : ℕ} (hhole : hole < setSize) :
    (PuncturedGgmSet.mk (copath (leftChild prg) (rightChild prg) (Nat.clog 2 setSize) key hole)
        hole (setSize - 1) univSize (Nat.clog 2 setSize) prg).eval =
      some ((ggmSetElems prg key univSize setSize).eraseIdx hole) := by
  have hle := le_two_pow_clog setSize
  have hout := puncturedTreeEvalAll_spec prg key huniv (hhole.trans_le hle)
    (List.replicate (2 ^ Nat.clog 2 setSize) 0) (by simp)
  have hlen : (((leaves (leftChild prg) (rightChild prg) (Nat.clog 2 setSize) key).eraseIdx hole).map
      (leafElem univSize)).length = 2 ^ Nat.clog 2 setSize - 1 := by
    rw [List.length_map, List.length_eraseIdx_of_lt (by simpa using hhole.trans_le hle),
      length_leaves]
  rw [PuncturedGgmSet.eval, Nat.one_shiftLeft]
  dsimp only
  rw [hout, Option.bind_eq_bind, Option.bind_some, slice_eq (Nat.zero_le _) (by
    rw [List.length_append, hlen]
    omega), List.drop_zero, Nat.sub_zero, List.take_append_of_le_length (by omega), ggmSetElems,
    ← List.eraseIdx_map, take_eraseIdx_pred hhole (by simpa using hle)]

/-- **Evaluation, random access and puncturing agree**: the walk fills each leaf once, with what
`treeEval` returns for it, and a set that is punctured at one of its elements evaluates to the set
without the first entry that holds it. -/
theorem ggmSet_correct (prg : Bytes 16 → Bytes 16) (key : Bytes 16) {univSize : ℕ} (setSize : ℕ)
    (huniv : 1 ≤ univSize) (h32 : univSize < 2 ^ 32) :
    (∀ rest out, 16 * Nat.clog 2 setSize ≤ rest.length → out.length = 2 ^ Nat.clog 2 setSize →
      ∃ st, treeEvalAll prg (key.toList ++ rest) (Nat.clog 2 setSize) univSize out = some st ∧
        st.written = List.range (2 ^ Nat.clog 2 setSize) ∧
        ∀ i < 2 ^ Nat.clog 2 setSize, ∃ e, st.out[i]? = some e ∧
          treeEval prg key (Nat.clog 2 setSize) univSize i = some e) ∧
      ∃ elems, (setGen prg key univSize setSize).eval = some elems ∧ elems.length = setSize ∧
        (∀ pos < setSize, (setGen prg key univSize setSize).elemAt pos = elems[pos]?) ∧
        ∀ idx hole, elems[hole]? = some idx → (∀ j < hole, elems[j]? ≠ some idx) →
          ∃ p, (setGen prg key univSize setSize).punc idx = some p ∧ p.hole = hole ∧
            p.eval = some (elems.eraseIdx hole) := by
  have hmod : univSize % 2 ^ 32 = univSize := Nat.mod_eq_of_lt h32
  have huniv' : univSize % 2 ^ 32 ≠ 0 := by omega
  have helem : ∀ i < 2 ^ Nat.clog 2 setSize,
      treeEval prg key (Nat.clog 2 setSize) univSize i = some (leafElem univSize
        (leafAt (leftChild prg) (rightChild prg) (Nat.clog 2 setSize) key i)) := by
    intro i hi
    rw [treeEval_eq prg key huniv hi, leafElem, hmod, Int.natCast_mod]
  constructor
  · intro rest out hrest hout
    obtain ⟨st, hrun, hst, hwritten⟩ := treeEvalAll_spec prg key huniv' hrest out hout.ge
    refine ⟨st, hrun, hwritten, fun i hi => ⟨_, ?_, helem i hi⟩⟩
    rw [hst, List.getElem?_append_left (by simpa using hi), List.getElem?_map,
      getElem?_leaves _ _ _ hi]
    rfl
  · refine ⟨ggmSetElems prg key univSize setSize, setGen_eval huniv', length_ggmSetElems .., ?_, ?_⟩
    · intro pos hpos
      rw [getElem?_ggmSetElems hpos, GgmSet.elemAt]
      exact helem pos (hpos.trans_le (le_two_pow_clog setSize))
    · intro idx hole hidx hfirst
      have hhole : hole < setSize := by
        have hlt := (List.getElem?_eq_some_iff.mp hidx).1
        rwa [length_ggmSetElems] at hlt
      exact ⟨_, setGen_punc huniv' hidx hfirst, rfl, puncturedSet_eval huniv' hhole⟩

theorem ggmSet_correct_three :
    ∃ elems, (setGen id 0 5 3).eval = some elems ∧ elems.length = 3 ∧
      (∀ pos < 3, (setGen id 0 5 3).elemAt pos = elems[pos]?) ∧
      ∀ idx hole, elems[hole]? = some idx → (∀ j < hole, elems[j]? ≠ some idx) →
        ∃ p, (setGen id 0 5 3).punc idx = some p ∧ p.hole = hole ∧
          p.eval = some (elems.eraseIdx hole) :=
  (ggmSet_correct id 0 3 (by decide) (by decide)).2

end SinglePassPIR.Pir
