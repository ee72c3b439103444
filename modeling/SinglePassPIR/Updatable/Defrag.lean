import SinglePassPIR.Updatable.KeyUpdates

/-!
# Compaction of the key log

`defrag` keeps, of the operations before `endDefrag`, the puts that no later one of them
overrides, and all operations from `endDefrag` on.

## Main results

* `filter_keyToPos`, `freed_add` — what the first loop finds.
* `defrag_eq` — what `defrag` returns, for every end inside the log.
* `defrag_defrag` — `defrag` keeps the meaning of a log, and defragmenting twice is defragmenting
  once.
-/

namespace SinglePassPIR.Updatable
open KeyLog

/-- The puts in force after `ops`. -/
abbrev liveOps (ops : List DbOp) : List DbOp := live DbOp.key DbOp.delete ops

/-- The log compacted up to operation `d`. -/
abbrev compactedOps (ops : List DbOp) (d : ℕ) : List DbOp := compacted DbOp.key DbOp.delete ops d

theorem length_compactedOps (ops : List DbOp) (d : ℕ) :
    (compactedOps ops d).length = (liveOps (ops.take d)).length + (ops.length - d) :=
  length_compacted ops d

theorem liveOps_snoc (ops : List DbOp) (op : DbOp) :
    liveOps (ops ++ [op]) =
      (liveOps ops).filter (DbOp.key · ≠ op.key) ++ if op.delete then [] else [op] :=
  live_snoc ops op

/-- The first loop of `defrag`. -/
def defragState (ops : List DbOp) : DefragLoop := ops.zipIdx.foldl defragStep ⟨fun _ => none, 0, 0⟩

theorem defragState_snoc (ops : List DbOp) (op : DbOp) :
    defragState (ops ++ [op]) = defragStep (defragState ops) (op, ops.length) := by
  rw [defragState, List.zipIdx_append, List.foldl_append, Nat.zero_add]
  rfl

theorem keyToPos_snoc (ops : List DbOp) (op : DbOp) :
    (defragState (ops ++ [op])).keyToPos = Function.update (defragState ops).keyToPos op.key
      (if op.delete then none else some ops.length) := by
  rw [defragState_snoc, defragStep]
  cases op.delete <;> split_ifs <;> simp

theorem freed_snoc (ops : List DbOp) (op : DbOp) :
    (defragState (ops ++ [op])).freed = (defragState ops).freed +
      (if ((defragState ops).keyToPos op.key).isSome then 1 else 0) +
      (if op.delete then 1 else 0) := by
  rw [defragState_snoc, defragStep]
  cases op.delete <;> split_ifs <;> simp

/-- The keys that the loop knows are the live ones. -/
theorem keyToPos_isSome (ops : List DbOp) (k : UInt32) :
    ((defragState ops).keyToPos k).isSome ↔ k ∈ (liveOps ops).map DbOp.key := by
  rw [mem_live_iff]
  induction ops using List.reverseRecOn with
  | nil => simp [defragState, replay]
  | append_singleton ops op ih =>
      rw [keyToPos_snoc, replay_snoc, replayStep]
      by_cases hk : k = op.key
      · subst hk
        cases op.delete <;> simp
      · rw [Function.update_of_ne hk, Function.update_of_ne hk]
        exact ih

/-- The operations that the second loop keeps are those in force. -/
theorem filter_keyToPos (ops : List DbOp) :
    (ops.zipIdx.filter fun p => (defragState ops).keyToPos p.1.key = some p.2).map Prod.fst =
      liveOps ops := by
  induction ops using List.reverseRecOn with
  | nil => rfl
  | append_singleton ops op ih =>
      rw [liveOps_snoc, ← ih, keyToPos_snoc, List.zipIdx_append, List.filter_append, List.map_append]
      have hold : ∀ p ∈ ops.zipIdx,
          decide (Function.update (defragState ops).keyToPos op.key
            (if op.delete then none else some ops.length) p.1.key = some p.2) =
          (decide (p.1.key ≠ op.key) && decide ((defragState ops).keyToPos p.1.key = some p.2)) := by
        intro p hp
        have hlt : p.2 < ops.length := by
          have hmem := List.snd_lt_of_mem_zipIdx hp
          omega
        by_cases hk : p.1.key = op.key
        · rw [hk, Function.update_self]
          cases op.delete <;> simp [hlt.ne']
        · rw [Function.update_of_ne hk]
          simp [hk]
      rw [List.filter_congr hold, ← List.filter_filter, List.filter_map]
      refine congrArg₂ _ rfl ?_
      cases op.delete <;> simp

/-- The loop has freed every operation that is not in force. -/
theorem freed_add (ops : List DbOp) :
    (defragState ops).freed + (liveOps ops).length = ops.length := by
  induction ops using List.reverseRecOn with
  | nil => rfl
  | append_singleton ops op ih =>
      have hnodup : ((liveOps ops).map DbOp.key).Nodup := nodup_live ops
      have hcount := length_filter_key_ne hnodup op.key
      rw [if_congr (keyToPos_isSome ops op.key).symm rfl rfl] at hcount
      rw [freed_snoc, liveOps_snoc, List.length_append, List.length_append, List.length_singleton]
      cases op.delete <;> simp only [Bool.false_eq_true, if_true, if_false, List.length_nil,
        List.length_singleton] <;> omega

/-- The second loop writes the operations that it keeps one after the other. -/
theorem pushForward_spec (keyToPos : UInt32 → Option ℕ) {l : List (DbOp × ℕ)} {newPos : ℕ}
    {newOps : List DbOp}
    (hlen : newPos + (l.filter fun p => keyToPos p.1.key = some p.2).length ≤ newOps.length) :
    pushForward keyToPos l newPos newOps =
      some (newOps.take newPos ++ (l.filter fun p => keyToPos p.1.key = some p.2).map Prod.fst ++
        newOps.drop (newPos + (l.filter fun p => keyToPos p.1.key = some p.2).length),
        newPos + (l.filter fun p => keyToPos p.1.key = some p.2).length) := by
  induction l generalizing newPos newOps with
  | nil => simp [pushForward]
  | cons p l ih =>
      obtain ⟨op, i⟩ := p
      rw [pushForward]
      by_cases hkeep : keyToPos op.key = some i
      · rw [List.filter_cons_of_pos (by simpa using hkeep), List.length_cons] at hlen ⊢
        have hlt : newPos < newOps.length := by omega
        rw [if_pos hkeep, writeAt_eq hlt, Option.bind_eq_bind, Option.bind_some,
          ih (by rw [List.length_set]; omega), List.map_cons]
        have htake : (newOps.set newPos op).take (newPos + 1) = newOps.take newPos ++ [op] := by
          rw [List.take_set, List.take_succ_eq_append_getElem hlt, List.set_append_right _ _ (by simp)]
          simp [hlt.le]
        have hdrop : ∀ m, (newOps.set newPos op).drop (newPos + 1 + m) =
            newOps.drop (newPos + (m + 1)) := by
          intro m
          rw [List.drop_set_of_lt (by omega)]
          exact congrArg newOps.drop (by omega)
        rw [htake, hdrop, List.append_assoc, List.append_assoc, List.append_assoc]
        exact congrArg some (Prod.ext rfl (by omega))
      · rw [List.filter_cons_of_neg (by simpa using hkeep)] at hlen ⊢
        rw [if_neg hkeep]
        exact ih hlen

/-- Copying over the rest of a list. -/
theorem copyAt_left {α : Type} {l pad v : List α} (h : v.length = pad.length) :
    copyAt (l ++ pad) l.length v = l ++ v := by
  rw [copyAt, List.take_left, List.length_append, Nat.add_sub_cancel_left, List.take_of_length_le h.le,
    List.drop_eq_nil_of_le (by rw [List.length_append, h]), List.append_nil]

/-- The two loops of `defrag` fill the new slice, whatever it holds before. -/
theorem pushForward_fill {ops : List DbOp} {e : ℕ} {fresh : List DbOp}
    (hfresh : fresh.length = (compactedOps ops e).length) :
    ∃ newOps newPos, pushForward (defragState (ops.take e)).keyToPos (ops.take e).zipIdx 0 fresh =
        some (newOps, newPos) ∧ newOps.length = fresh.length ∧
      newPos + (ops.drop e).length = fresh.length ∧
      copyAt newOps newPos (ops.drop e) = compactedOps ops e := by
  have hkept := filter_keyToPos (ops.take e)
  have hcount : ((ops.take e).zipIdx.filter fun p =>
      (defragState (ops.take e)).keyToPos p.1.key = some p.2).length =
        (liveOps (ops.take e)).length := by
    rw [← hkept, List.length_map]
  have hrest : (ops.drop e).length = ops.length - e := List.length_drop
  rw [length_compactedOps] at hfresh
  have hpad : (fresh.drop (liveOps (ops.take e)).length).length = ops.length - e := by
    rw [List.length_drop, hfresh, Nat.add_sub_cancel_left]
  have hpush := @pushForward_spec (defragState (ops.take e)).keyToPos (ops.take e).zipIdx 0 fresh
    (by rw [hcount, Nat.zero_add, hfresh]; exact Nat.le_add_right _ _)
  rw [hcount, hkept, Nat.zero_add, List.take_zero, List.nil_append] at hpush
  refine ⟨_, _, hpush, ?_, by omega, ?_⟩
  · rw [List.length_append, hpad, hfresh]
  · rw [copyAt_left (hrest.trans hpad.symm)]
    rfl

/-- **What `defrag` returns.** -/
theorem defrag_eq {ops : List DbOp} {endDefrag : ℤ} (h0 : 0 ≤ endDefrag)
    (hend : endDefrag ≤ ops.length) :
    ∃ numRemoved, defrag ops endDefrag = some (compactedOps ops endDefrag.toNat, numRemoved) := by
  set e := endDefrag.toNat with he
  have hlen : (ops.take e).length = e := by
    rw [List.length_take]
    omega
  have hfreed := freed_add (ops.take e)
  rw [hlen] at hfreed
  obtain ⟨newOps, newPos, hpush, -, -, hcopy⟩ := @pushForward_fill ops e
    (List.replicate (ops.length - (defragState (ops.take e)).freed) ⟨0, false, []⟩)
    (by rw [List.length_replicate, length_compactedOps]; omega)
  have hstate : (ops.take e).zipIdx.foldl defragStep ⟨fun _ => none, 0, 0⟩ =
      defragState (ops.take e) := rfl
  refine ⟨(defragState (ops.take e)).numRemoved, ?_⟩
  rw [defrag, if_neg (by omega), ← he]
  dsimp only
  rw [hstate, if_neg (by omega), hpush]
  dsimp only [Option.bind_eq_bind, Option.bind_some]
  rw [hcopy]

/-! ## The laws of `defrag` -/

/-- The puts with no later operation on their key, in their order. -/
def survivors (ops : List DbOp) : List DbOp :=
  (ops.zipIdx.filter fun p =>
    !p.1.delete && decide (p.1.key ∉ (ops.drop (p.2 + 1)).map DbOp.key)).map Prod.fst

theorem survivors_eq (ops : List DbOp) : survivors ops = liveOps ops := by
  induction ops using List.reverseRecOn with
  | nil => rfl
  | append_singleton ops op ih =>
      rw [liveOps_snoc, ← ih, survivors, survivors, List.zipIdx_append, List.filter_append,
        List.map_append]
      have hold : ∀ p ∈ ops.zipIdx,
          (!p.1.delete && decide (p.1.key ∉ ((ops ++ [op]).drop (p.2 + 1)).map DbOp.key)) =
          (decide (p.1.key ≠ op.key) &&
            (!p.1.delete && decide (p.1.key ∉ (ops.drop (p.2 + 1)).map DbOp.key))) := by
        intro p hp
        have hlt : p.2 < ops.length := by
          have hmem := List.snd_lt_of_mem_zipIdx hp
          omega
        rw [List.drop_append_of_le_length hlt, List.map_append, List.map_singleton,
          Bool.eq_iff_iff]
        simp only [List.mem_append, List.mem_singleton, not_or, Bool.and_eq_true,
          decide_eq_true_eq, ne_eq]
        tauto
      rw [List.filter_congr hold, ← List.filter_filter, List.filter_map]
      have hlast : (ops ++ [op]).drop (0 + ops.length + 1) = [] :=
        List.drop_eq_nil_of_le (by rw [List.length_append, List.length_singleton]; omega)
      refine congrArg₂ _ rfl ?_
      rw [List.zipIdx_singleton, List.filter_singleton, hlast]
      cases op.delete <;> simp

/-- `newOps` is the log `ops` defragmented up to operation `e`. -/
structure Defragged (ops : List DbOp) (e : ℕ) (newOps : List DbOp) : Prop where
  /-- The loop and the copy write every slot of the new slice, and no other. -/
  fills : ∀ fresh : List DbOp, fresh.length = newOps.length → ∃ filled newPos,
    pushForward (defragState (ops.take e)).keyToPos (ops.take e).zipIdx 0 fresh =
        some (filled, newPos) ∧ filled.length = fresh.length ∧
      newPos + (ops.drop e).length = fresh.length ∧ copyAt filled newPos (ops.drop e) = newOps
  replay_eq : ∀ k, (replay DbOp.key DbOp.delete newOps k).map DbOp.data =
    (replay DbOp.key DbOp.delete ops k).map DbOp.data
  eq_append : newOps = survivors (ops.take e) ++ ops.drop e
  sublist : (survivors (ops.take e)).Sublist (ops.take e)
  delete_eq : ∀ op ∈ survivors (ops.take e), op.delete = false
  nodup : ((survivors (ops.take e)).map DbOp.key).Nodup

theorem defragged_compactedOps (ops : List DbOp) (e : ℕ) :
    Defragged ops e (compactedOps ops e) where
  fills fresh hfresh := pushForward_fill hfresh
  replay_eq k := by rw [replay_compacted]
  eq_append := by rw [survivors_eq]; rfl
  sublist := by rw [survivors_eq]; exact live_sublist _
  delete_eq := by rw [survivors_eq]; exact del_of_mem_live _
  nodup := by rw [survivors_eq]; exact nodup_live _

/-- **The laws of `defrag`**: it keeps the meaning of the log, up to any operation, and
defragmenting the result further is defragmenting the log. -/
theorem defrag_defrag {ops : List DbOp} {e₁ e₂ : ℕ} (h₁ : e₁ ≤ e₂) (h₂ : e₂ ≤ ops.length) :
    ∃ ops₁ n₁ ops₂ n₂ n₃, defrag ops e₁ = some (ops₁, n₁) ∧ Defragged ops e₁ ops₁ ∧
      defrag ops e₂ = some (ops₂, n₂) ∧ Defragged ops e₂ ops₂ ∧
      defrag ops₁ (e₂ - (ops.length - ops₁.length)) = some (ops₂, n₃) := by
  have hlive : (liveOps (ops.take e₁)).length ≤ e₁ :=
    (live_length_le _).trans (List.length_take_le _ _)
  have hlen := length_compactedOps ops e₁
  obtain ⟨n₁, hd₁⟩ := @defrag_eq ops e₁ (by omega) (by omega)
  obtain ⟨n₂, hd₂⟩ := @defrag_eq ops e₂ (by omega) (by omega)
  obtain ⟨n₃, hd₃⟩ := @defrag_eq (compactedOps ops e₁)
    (e₂ - (ops.length - (compactedOps ops e₁).length)) (by omega) (by omega)
  rw [Int.toNat_natCast] at hd₁ hd₂
  refine ⟨_, n₁, _, n₂, n₃, hd₁, defragged_compactedOps ops e₁, hd₂,
    defragged_compactedOps ops e₂, ?_⟩
  have hend : ((e₂ : ℤ) - (ops.length - (compactedOps ops e₁).length)).toNat =
      (liveOps (ops.take e₁)).length + (e₂ - e₁) := by omega
  have hcompose : compactedOps (compactedOps ops e₁) ((liveOps (ops.take e₁)).length + (e₂ - e₁)) =
      compactedOps ops e₂ := by
    rw [compactedOps, compacted_compacted (Nat.le_add_right _ _), Nat.add_sub_cancel_left,
      Nat.add_sub_cancel' h₁]
  rw [hd₃, hend, hcompose]

/-- Key 1 is put, deleted and put again. -/
theorem defrag_defrag_readd :
    ∃ ops₁ n₁ ops₂ n₂ n₃,
      defrag [⟨1, false, [5]⟩, ⟨1, true, []⟩, ⟨1, false, [6]⟩] (2 : ℕ) = some (ops₁, n₁) ∧
      Defragged [⟨1, false, [5]⟩, ⟨1, true, []⟩, ⟨1, false, [6]⟩] 2 ops₁ ∧
      defrag [⟨1, false, [5]⟩, ⟨1, true, []⟩, ⟨1, false, [6]⟩] (3 : ℕ) = some (ops₂, n₂) ∧
      Defragged [⟨1, false, [5]⟩, ⟨1, true, []⟩, ⟨1, false, [6]⟩] 3 ops₂ ∧
      defrag ops₁ ((3 : ℕ) - (([⟨1, false, [5]⟩, ⟨1, true, []⟩, ⟨1, false, [6]⟩] : List DbOp).length
        - ops₁.length)) = some (ops₂, n₃) :=
  defrag_defrag (by decide) (by decide)

end SinglePassPIR.Updatable
