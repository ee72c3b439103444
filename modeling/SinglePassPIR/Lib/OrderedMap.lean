import Mathlib.Data.List.Nodup
import Mathlib.Tactic.Common

/-!
# Maps that keep the order of arrival

`OrderedMap` is what an implementation of such maps promises of its operations, in terms of the
entries that an iteration from the front goes through: a value set for a key that is there replaces
the old one in its place, a new key comes last, and a deleted key leaves the others in order. What
follows holds of every implementation. `OrderedMap.ofList` is the one that is the list of its entries.

## Main results

* `get_set`, `get_delete` — the values after a change.
* `keys_setAll` — new keys come last, and the others keep their places.
* `entries_deleteAll_take` — the keys that came first can be deleted.
-/

namespace SinglePassPIR

universe u v
variable {κ : Type u} {α : Type v} [DecidableEq κ]

/-- An implementation of maps with their keys in order of arrival. -/
structure OrderedMap (κ : Type u) (α : Type v) [DecidableEq κ] where
  Map : Type
  new : Map
  set : Map → κ → α → Map
  delete : Map → κ → Map
  /-- The entries, from the front on -/
  entries : Map → List (κ × α)
  nodup : ∀ m, ((entries m).map Prod.fst).Nodup
  entries_new : entries new = []
  entries_set : ∀ m k v, entries (set m k v) =
    if k ∈ (entries m).map Prod.fst
    then (entries m).map fun e => (e.1, if e.1 = k then v else e.2)
    else entries m ++ [(k, v)]
  entries_delete : ∀ m k, entries (delete m k) = (entries m).filter fun e => e.1 ≠ k

namespace OrderedMap

/-- The list of the entries, as a map. -/
def ofList (κ α : Type) [DecidableEq κ] : OrderedMap κ α where
  Map := { l : List (κ × α) // (l.map Prod.fst).Nodup }
  new := ⟨[], List.nodup_nil⟩
  set := fun m k v =>
    if h : k ∈ m.1.map Prod.fst then
      ⟨m.1.map fun e => (e.1, if e.1 = k then v else e.2), by
        simpa [Function.comp_def] using m.2⟩
    else
      ⟨m.1 ++ [(k, v)], by
        rw [List.map_append, List.map_singleton, List.nodup_append]
        refine ⟨m.2, List.nodup_singleton k, ?_⟩
        intro a ha b hb
        rw [List.mem_singleton] at hb
        rintro rfl
        subst hb
        exact h ha⟩
  delete := fun m k =>
    ⟨m.1.filter fun e => e.1 ≠ k, m.2.sublist (List.filter_sublist.map Prod.fst)⟩
  entries := Subtype.val
  nodup := Subtype.property
  entries_new := rfl
  entries_set := by
    intro m k v
    split_ifs <;> rfl
  entries_delete := fun _ _ => rfl

variable (M : OrderedMap κ α)

/-- The keys in order of arrival. -/
def keys (m : M.Map) : List κ := (M.entries m).map Prod.fst

@[simp] theorem length_keys (m : M.Map) : (M.keys m).length = (M.entries m).length :=
  List.length_map ..

/-- The value of a key. -/
def get (m : M.Map) (k : κ) : Option α := ((M.entries m).find? (·.1 = k)).map Prod.snd

variable {M}

theorem mem_keys {m : M.Map} {k : κ} : k ∈ M.keys m ↔ ∃ v, (k, v) ∈ M.entries m := by
  simp [keys]

theorem get_eq_some_iff {m : M.Map} {k : κ} {v : α} :
    M.get m k = some v ↔ (k, v) ∈ M.entries m := by
  simp only [get, Option.map_eq_some_iff]
  constructor
  · rintro ⟨⟨k', v'⟩, hfind, rfl⟩
    have hk := List.find?_some hfind
    simp only [decide_eq_true_eq] at hk
    subst hk
    exact List.mem_of_find?_eq_some hfind
  · intro hmem
    have hsome : ((M.entries m).find? (·.1 = k)).isSome := by
      rw [List.find?_isSome]
      exact ⟨_, hmem, by simp⟩
    obtain ⟨⟨k', v'⟩, hfind⟩ := Option.isSome_iff_exists.mp hsome
    have hk := List.find?_some hfind
    simp only [decide_eq_true_eq] at hk
    subst hk
    -- no other pair has the key
    have heq := List.inj_on_of_nodup_map (M.nodup m) (List.mem_of_find?_eq_some hfind) hmem rfl
    exact ⟨_, hfind, congrArg Prod.snd heq⟩

theorem get_eq_none_iff {m : M.Map} {k : κ} : M.get m k = none ↔ k ∉ M.keys m := by
  simp only [mem_keys, not_exists, ← get_eq_some_iff]
  exact Option.eq_none_iff_forall_ne_some

theorem mem_keys_iff_isSome {m : M.Map} {k : κ} : k ∈ M.keys m ↔ (M.get m k).isSome := by
  rw [Option.isSome_iff_ne_none, ne_eq, get_eq_none_iff, not_not]

@[simp] theorem get_new (k : κ) : M.get M.new k = none := by
  rw [get, M.entries_new, List.find?_nil, Option.map_none]

/-! ## One key -/

theorem keys_set (m : M.Map) (k : κ) (v : α) :
    M.keys (M.set m k v) = if k ∈ M.keys m then M.keys m else M.keys m ++ [k] := by
  rw [keys, M.entries_set, keys]
  split_ifs with h
  · simp [Function.comp_def]
  · simp

theorem get_set (m : M.Map) (k : κ) (v : α) (k' : κ) :
    M.get (M.set m k v) k' = if k' = k then some v else M.get m k' := by
  have hmem : ∀ w, (k', w) ∈ M.entries (M.set m k v) ↔
      if k' = k then w = v else (k', w) ∈ M.entries m := by
    intro w
    rw [M.entries_set]
    split_ifs with hk heq heq
    · subst heq
      obtain ⟨u, hu⟩ := mem_keys.mp hk
      simp only [List.mem_map, Prod.mk.injEq, Prod.exists]
      constructor
      · rintro ⟨a, b, -, rfl, rfl⟩
        simp
      · rintro rfl
        exact ⟨k', u, hu, rfl, by simp⟩
    · simp only [List.mem_map, Prod.mk.injEq, Prod.exists]
      constructor
      · rintro ⟨a, b, hab, rfl, rfl⟩
        simpa [heq] using hab
      · intro hw
        exact ⟨k', w, hw, rfl, by simp [heq]⟩
    · subst heq
      have hnot : (k', w) ∉ M.entries m := fun h => hk (mem_keys.mpr ⟨w, h⟩)
      simp [hnot]
    · simp [heq]
  ext w
  rw [get_eq_some_iff, hmem]
  split_ifs with heq
  · rw [Option.some.injEq, eq_comm]
  · rw [get_eq_some_iff]

theorem get_delete (m : M.Map) (k k' : κ) :
    M.get (M.delete m k) k' = if k' = k then none else M.get m k' := by
  ext w
  rw [get_eq_some_iff, M.entries_delete]
  split_ifs with heq
  · simp [heq]
  · simp [heq, get_eq_some_iff]

/-! ## Many keys -/

variable (M)

/-- Set the keys in order. -/
def setAll (m : M.Map) (l : List (κ × α)) : M.Map := l.foldl (fun m e => M.set m e.1 e.2) m

/-- Delete the keys in order. -/
def deleteAll (m : M.Map) (ks : List κ) : M.Map := ks.foldl M.delete m

variable {M}

/-- **New keys come last**, and the others keep their places. -/
theorem keys_setAll (m : M.Map) (l : List (κ × α)) :
    ∃ new, M.keys (M.setAll m l) = M.keys m ++ new ∧ new ⊆ l.map Prod.fst := by
  induction l generalizing m with
  | nil => exact ⟨[], by simp [setAll]⟩
  | cons e l ih =>
      obtain ⟨new, hkeys, hnew⟩ := ih (M.set m e.1 e.2)
      rw [setAll, List.foldl_cons, ← setAll, hkeys, keys_set, List.map_cons]
      split_ifs with h
      · exact ⟨new, rfl, List.subset_cons_of_subset _ hnew⟩
      · refine ⟨e.1 :: new, by simp, ?_⟩
        exact List.cons_subset_cons _ hnew

theorem entries_deleteAll (m : M.Map) (ks : List κ) :
    M.entries (M.deleteAll m ks) = (M.entries m).filter fun e => e.1 ∉ ks := by
  induction ks generalizing m with
  | nil => simp [deleteAll]
  | cons k ks ih =>
      rw [deleteAll, List.foldl_cons, ← deleteAll, ih, M.entries_delete]
      simp [List.filter_filter, Bool.and_comm]

/-- **The oldest keys** can be deleted, and other keys that are not there. -/
theorem entries_deleteAll_take (m : M.Map) (d : ℕ) {ks : List κ}
    (hks : ∀ k ∈ ks, k ∉ (M.keys m).drop d) :
    M.entries (M.deleteAll m ((M.keys m).take d ++ ks)) = (M.entries m).drop d := by
  rw [entries_deleteAll]
  conv_lhs => rw [← List.take_append_drop d (M.entries m)]
  have hdisjoint := List.disjoint_take_drop (M.nodup m) (Nat.le_refl d)
  rw [List.filter_append, List.filter_eq_nil_iff.mpr, List.filter_eq_self.mpr, List.nil_append]
  · intro e he
    have hkey : e.1 ∈ (M.keys m).drop d := by
      rw [keys, ← List.map_drop]
      exact List.mem_map_of_mem he
    have htake : e.1 ∉ (M.keys m).take d := fun h => hdisjoint h hkey
    have hother : e.1 ∉ ks := fun h => hks e.1 h hkey
    simp [htake, hother]
  · intro e he
    have hkey : e.1 ∈ (M.keys m).take d := by
      rw [keys, ← List.map_take]
      exact List.mem_map_of_mem he
    simp [hkey]

end OrderedMap

end SinglePassPIR
