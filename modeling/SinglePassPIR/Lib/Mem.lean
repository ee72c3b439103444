import Mathlib.Data.Nat.Notation
import Mathlib.Tactic.Linarith
import Mathlib.Tactic.Ring

/-!
# Bounds-checked access to contiguous memory

A slice, or a buffer reached through a pointer, is a list from its first cell to the last
one of its allocation. Every access is checked: `none` is an access out of bounds.
The lemmas describe a cell of the result with `List.getD`, so that a proof about a
kernel talks about one cell at a time.
-/

namespace SinglePassPIR

universe u
variable {α : Type u}

/-- Store one cell. -/
def writeAt (l : List α) (i : ℕ) (v : α) : Option (List α) :=
  if i < l.length then some (l.set i v) else none

/-- The cells `a, …, b - 1`. -/
def slice (l : List α) (a b : ℕ) : Option (List α) :=
  if a ≤ b ∧ b ≤ l.length then some ((l.drop a).take (b - a)) else none

/-- Store the block `v` at offset `off`. -/
def storeAt (l : List α) (off : ℕ) (v : List α) : Option (List α) :=
  if off + v.length ≤ l.length then some (l.take off ++ v ++ l.drop (off + v.length)) else none

theorem writeAt_eq {l : List α} {i : ℕ} (h : i < l.length) (v : α) :
    writeAt l i v = some (l.set i v) := if_pos h

theorem slice_eq {l : List α} {a b : ℕ} (hab : a ≤ b) (hb : b ≤ l.length) :
    slice l a b = some ((l.drop a).take (b - a)) := if_pos ⟨hab, hb⟩

theorem storeAt_eq {l v : List α} {off : ℕ} (h : off + v.length ≤ l.length) :
    storeAt l off v = some (l.take off ++ v ++ l.drop (off + v.length)) := if_pos h

/-- Two lists of one length that agree cell by cell are equal. -/
theorem ext_getD {l l' : List α} (d : α) (hlen : l.length = l'.length)
    (h : ∀ k < l.length, l.getD k d = l'.getD k d) : l = l' := by
  refine List.ext_getElem hlen fun k hk hk' => ?_
  simpa [List.getD_eq_getElem?_getD, hk, hk'] using h k hk

theorem getElem?_eq_some_getD {l : List α} {k : ℕ} (d : α) (h : k < l.length) :
    l[k]? = some (l.getD k d) := by
  simp [List.getD_eq_getElem?_getD, h]

theorem getD_of_le {l : List α} {k : ℕ} (d : α) (h : l.length ≤ k) : l.getD k d = d := by
  simp [List.getD_eq_getElem?_getD, h]

theorem getD_set (l : List α) (i k : ℕ) (v d : α) (hi : i < l.length) :
    (l.set i v).getD k d = if k = i then v else l.getD k d := by
  simp only [List.getD_eq_getElem?_getD, List.getElem?_set]
  by_cases h : i = k
  · subst h; simp [hi]
  · simp [h, Ne.symm h]

theorem getD_drop (l : List α) (a k : ℕ) (d : α) : (l.drop a).getD k d = l.getD (a + k) d := by
  simp [List.getD_eq_getElem?_getD]

theorem getD_take (l : List α) (m k : ℕ) (d : α) :
    (l.take m).getD k d = if k < m then l.getD k d else d := by
  simp only [List.getD_eq_getElem?_getD, List.getElem?_take]
  split <;> simp

theorem getD_append (l l' : List α) (k : ℕ) (d : α) :
    (l ++ l').getD k d = if k < l.length then l.getD k d else l'.getD (k - l.length) d := by
  simp only [List.getD_eq_getElem?_getD, List.getElem?_append]
  split <;> rfl

/-- A cell of a block cut out of memory. -/
theorem getD_slice (l : List α) (a m k : ℕ) (d : α) (hk : k < m) :
    ((l.drop a).take m).getD k d = l.getD (a + k) d := by
  rw [getD_take, if_pos hk, getD_drop]

theorem length_slice {l : List α} {a m : ℕ} (h : a + m ≤ l.length) :
    ((l.drop a).take m).length = m := by
  rw [List.length_take, List.length_drop]; omega

/-- A cell after a block has been stored. -/
theorem getD_store {l v : List α} {off : ℕ} (k : ℕ) (d : α) (h : off + v.length ≤ l.length) :
    (l.take off ++ v ++ l.drop (off + v.length)).getD k d =
      if off ≤ k ∧ k < off + v.length then v.getD (k - off) d else l.getD k d := by
  have htake : (l.take off).length = off := by rw [List.length_take]; omega
  rw [List.append_assoc, getD_append, htake]
  by_cases h1 : k < off
  · rw [if_pos h1, getD_take, if_pos h1, if_neg (by omega)]
  · rw [if_neg h1, getD_append]
    by_cases h2 : k < off + v.length
    · rw [if_pos (by omega), if_pos (by omega)]
    · rw [if_neg (by omega), if_neg (by omega), getD_drop]
      congr 1; omega

theorem length_store {l v : List α} {off : ℕ} (h : off + v.length ≤ l.length) :
    (l.take off ++ v ++ l.drop (off + v.length)).length = l.length := by
  simp only [List.length_append, List.length_take, List.length_drop]; omega

/-! ## Specifications cell by cell -/

/-- A load inside the buffer returns its cells. -/
theorem slice_spec {l : List α} {off w : ℕ} (d : α) (h : off + w ≤ l.length) :
    ∃ v, slice l off (off + w) = some v ∧ v.length = w ∧
      ∀ k < w, v.getD k d = l.getD (off + k) d := by
  refine ⟨(l.drop off).take w, ?_, length_slice h, fun k hk => getD_slice l off w k d hk⟩
  rw [slice_eq (Nat.le_add_right _ _) h, Nat.add_sub_cancel_left]

/-- A store inside the buffer changes the cells it covers and no other. -/
theorem storeAt_spec {l v : List α} {off : ℕ} (d : α) (h : off + v.length ≤ l.length) :
    ∃ l', storeAt l off v = some l' ∧ l'.length = l.length ∧
      ∀ k, l'.getD k d = if off ≤ k ∧ k < off + v.length then v.getD (k - off) d
        else l.getD k d :=
  ⟨_, storeAt_eq h, length_store h, fun k => getD_store k d h⟩

/-! ## Buffers cut into blocks of one width -/

/-- A block that lies inside a buffer of `m` blocks. -/
theorem block_end_le {w m i : ℕ} (hi : i < m) : i * w + w ≤ m * w := by
  rw [← Nat.succ_mul]
  exact Nat.mul_le_mul_right w hi

/-- A block before block `i` ends where block `i` starts. -/
theorem block_le_of_lt {w i j : ℕ} (h : j < i) : j * w + w ≤ i * w := block_end_le h

/-- The cells of block `j`. -/
theorem slice_block {l : List α} {w m j : ℕ} (hlen : l.length = m * w) (hj : j < m) :
    slice l (j * w) ((j + 1) * w) = some ((l.drop (j * w)).take w) := by
  have hend := block_end_le (w := w) hj
  rw [Nat.succ_mul, slice_eq (by omega) (by omega), Nat.add_sub_cancel_left]

/-- Storing block `i` changes that block and no other. -/
theorem storeAt_block [Inhabited α] {l v : List α} {w m i : ℕ} (hlen : l.length = m * w)
    (hi : i < m) (hv : v.length = w) :
    ∃ l', storeAt l (i * w) v = some l' ∧ l'.length = m * w ∧ ∀ j < m,
      slice l' (j * w) ((j + 1) * w) = if j = i then some v else slice l (j * w) ((j + 1) * w) := by
  have hend := block_end_le (w := w) hi
  have hfit : i * w + v.length ≤ l.length := by omega
  obtain ⟨l', hst, hlen', hg⟩ := storeAt_spec default hfit
  refine ⟨l', hst, hlen'.trans hlen, ?_⟩
  intro j hj
  have hjend := block_end_le (w := w) hj
  rw [slice_block (hlen'.trans hlen) hj]
  by_cases hji : j = i
  · subst hji
    rw [if_pos rfl]
    refine congrArg some (ext_getD default (by rw [length_slice (by omega), hv]) ?_)
    intro k hk
    rw [length_slice (by omega)] at hk
    rw [getD_slice _ _ _ _ _ hk, hg, if_pos (by omega), Nat.add_sub_cancel_left]
  · rw [if_neg hji, slice_block hlen hj]
    refine congrArg some (ext_getD default ?_ ?_)
    · rw [length_slice (by omega), length_slice (by omega)]
    · intro k hk
      rw [length_slice (by omega)] at hk
      rw [getD_slice _ _ _ _ _ hk, getD_slice _ _ _ _ _ hk, hg, if_neg]
      rcases Nat.lt_or_gt_of_ne hji with h | h
      · have := block_le_of_lt (w := w) h; omega
      · have := block_le_of_lt (w := w) h; omega

/-! ## Arrays indexed by a range -/

theorem getElem?_map_range {m j : ℕ} (f : ℕ → α) (hj : j < m) :
    ((List.range m).map f)[j]? = some (f j) := by
  simp [hj]

theorem set_map_range (m : ℕ) (f : ℕ → α) (j : ℕ) (v : α) :
    ((List.range m).map f).set j v = (List.range m).map (Function.update f j v) := by
  refine List.ext_getElem (by simp) ?_
  intro k hk _
  simp only [List.getElem_set, List.getElem_map, List.getElem_range, Function.update_apply,
    eq_comm (a := k)]

/-- A partial function that succeeds on a whole range fills an array. -/
theorem mapM_range_eq {m : ℕ} {f : ℕ → Option α} (g : ℕ → α) (h : ∀ j < m, f j = some (g j)) :
    (List.range m).mapM f = some ((List.range m).map g) := by
  have hlist : ∀ l : List ℕ, (∀ j ∈ l, f j = some (g j)) → l.mapM f = some (l.map g) := by
    intro l
    induction l with
    | nil => intro _; rfl
    | cons a l ih =>
        intro hl
        rw [List.mapM_cons, hl a List.mem_cons_self, ih fun j hj => hl j (List.mem_cons_of_mem a hj)]
        rfl
  exact hlist _ fun j hj => h j (List.mem_range.mp hj)

/-- A partial function that succeeds on a list gives one result for each element. -/
theorem mapM_exists {β : Type u} {f : α → Option β} (R : α → β → Prop) (l : List α)
    (h : ∀ a ∈ l, ∃ b, f a = some b ∧ R a b) :
    ∃ bs, l.mapM f = some bs ∧ (∀ a ∈ l, ∃ b ∈ bs, R a b) ∧ ∀ b ∈ bs, ∃ a ∈ l, R a b := by
  induction l with
  | nil => exact ⟨[], rfl, by simp, by simp⟩
  | cons a l ih =>
      obtain ⟨b, hb, hR⟩ := h a List.mem_cons_self
      obtain ⟨bs, hbs, hto, hfrom⟩ := ih fun x hx => h x (List.mem_cons_of_mem a hx)
      refine ⟨b :: bs, by rw [List.mapM_cons, hb, hbs]; rfl, ?_, ?_⟩
      · rw [List.forall_mem_cons]
        exact ⟨⟨b, List.mem_cons_self, hR⟩, fun x hx =>
          (hto x hx).imp fun y hy => ⟨List.mem_cons_of_mem b hy.1, hy.2⟩⟩
      · rw [List.forall_mem_cons]
        exact ⟨⟨a, List.mem_cons_self, hR⟩, fun y hy =>
          (hfrom y hy).imp fun x hx => ⟨List.mem_cons_of_mem a hx.1, hx.2⟩⟩

theorem mapM_congr {β : Type u} {f g : α → Option β} {l : List α} (h : ∀ a ∈ l, f a = g a) :
    l.mapM f = l.mapM g := by
  induction l with
  | nil => rfl
  | cons a l ih =>
      rw [List.mapM_cons, List.mapM_cons, h a List.mem_cons_self,
        ih fun b hb => h b (List.mem_cons_of_mem a hb)]

/-- A partial function that faults on one element. -/
theorem mapM_eq_none {β : Type u} {f : α → Option β} {l : List α} {a : α} (ha : a ∈ l)
    (h : f a = none) : l.mapM f = none := by
  induction l with
  | nil => exact absurd ha List.not_mem_nil
  | cons b l ih =>
      rw [List.mapM_cons]
      cases hb : f b with
      | none => rfl
      | some v =>
          have hal : a ∈ l := by
            cases List.mem_cons.mp ha with
            | inl hab => rw [← hab, h] at hb; cases hb
            | inr hal => exact hal
          rw [ih hal]
          rfl

/-- What each step of a partial function on a list establishes of its result. -/
theorem map_of_mapM {β γ : Type u} {f : α → Option β} (g : β → γ) (g' : α → γ) {l : List α}
    {bs : List β} (hf : ∀ a ∈ l, ∀ b, f a = some b → g b = g' a) (h : l.mapM f = some bs) :
    bs.map g = l.map g' := by
  induction l generalizing bs with
  | nil =>
      obtain rfl : [] = bs := by simpa using h
      rfl
  | cons a l ih =>
      rw [List.mapM_cons, Option.bind_eq_bind, Option.bind_eq_some_iff] at h
      obtain ⟨b, hb, h⟩ := h
      rw [Option.bind_eq_bind, Option.bind_eq_some_iff] at h
      obtain ⟨bs', hbs, h⟩ := h
      obtain rfl := Option.some.inj h
      rw [List.map_cons, List.map_cons, hf a List.mem_cons_self b hb,
        ih (fun x hx => hf x (List.mem_cons_of_mem a hx)) hbs]

theorem length_flatten_of_forall {n : ℕ} {rows : List (List α)} (h : ∀ row ∈ rows, row.length = n) :
    rows.flatten.length = rows.length * n := by
  induction rows with
  | nil => simp
  | cons row rows ih =>
      rw [List.flatten_cons, List.length_append, List.length_cons, h row List.mem_cons_self,
        ih fun r hr => h r (List.mem_cons_of_mem row hr), Nat.succ_mul, Nat.add_comm]

/-- A row of a flat table of rows of one length. -/
theorem slice_flatten {n : ℕ} {rows : List (List α)} (h : ∀ row ∈ rows, row.length = n) {i : ℕ}
    (hi : i < rows.length) : slice rows.flatten (i * n) ((i + 1) * n) = some rows[i] := by
  have hend : (i + 1) * n ≤ rows.length * n := Nat.mul_le_mul_right n hi
  rw [slice_eq (Nat.mul_le_mul_right n (Nat.le_succ i)) (by rwa [length_flatten_of_forall h]),
    Nat.succ_mul, Nat.add_sub_cancel_left]
  refine congrArg some ?_
  clear hend
  induction rows generalizing i with
  | nil => exact absurd hi (Nat.not_lt_zero i)
  | cons row rows ih =>
      have hrow := h row List.mem_cons_self
      rw [List.flatten_cons]
      cases i with
      | zero => rw [Nat.zero_mul, List.drop_zero, List.take_left' hrow, List.getElem_cons_zero]
      | succ i =>
          have hdrop : (row ++ rows.flatten).drop ((i + 1) * n) = rows.flatten.drop (i * n) := by
            rw [Nat.succ_mul, Nat.add_comm, ← List.drop_drop, List.drop_left' hrow]
          rw [hdrop, ih (fun r hr => h r (List.mem_cons_of_mem row hr)) (Nat.lt_of_succ_lt_succ hi),
            List.getElem_cons_succ]

/-- A flat table is the concatenation of its rows. -/
theorem eq_flatten {n : ℕ} {buf : List α} {rows : List (List α)} (hlen : buf.length = rows.length * n)
    (h : ∀ i (hi : i < rows.length), (buf.drop (i * n)).take n = rows[i]) : buf = rows.flatten := by
  induction rows generalizing buf with
  | nil => exact List.eq_nil_of_length_eq_zero (by simpa using hlen)
  | cons row rows ih =>
      rw [List.length_cons, Nat.succ_mul] at hlen
      have hrow : buf.take n = row := by simpa using h 0 (Nat.succ_pos _)
      have hrest : buf.drop n = rows.flatten := by
        refine ih (by rw [List.length_drop]; omega) fun i hi => ?_
        rw [List.drop_drop, ← List.getElem_cons_succ row rows i (Nat.succ_lt_succ hi),
          ← h (i + 1) (Nat.succ_lt_succ hi), Nat.succ_mul, Nat.add_comm]
      rw [List.flatten_cons, ← hrow, ← hrest, List.take_append_drop]

end SinglePassPIR
