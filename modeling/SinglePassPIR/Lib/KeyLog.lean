import Mathlib.Data.List.Induction
import Mathlib.Data.List.Nodup
import Mathlib.Data.Nat.Notation
import Mathlib.Logic.Function.Basic
import Mathlib.Tactic.Common

/-!
# Logs of puts and deletions

A log is a list of operations of any type, of which the key and whether it is a deletion
matter. `replay` is the map that a log leaves, `posOf` the place of the put of each live
key among all puts, and `live` the puts that no later operation overrides, which is what
compacting a log keeps.

## Main results

* `replay_live` — compaction keeps the map.
* `live_live_append` — compacting a compacted log again is compacting the log.
* `compacted_compacted` — the same for a log that is compacted up to some operation.
* `replay_eq_posOf` — the place of a live key is that of its put.
-/

namespace SinglePassPIR.KeyLog

variable {α β K : Type} [DecidableEq K] (key : α → K) (del : α → Bool)

/-- The put that is in force for each key. -/
def replayStep (m : K → Option α) (a : α) : K → Option α :=
  Function.update m (key a) (if del a then none else some a)

/-- The map that a log leaves. -/
def replay (l : List α) : K → Option α := l.foldl (replayStep key del) fun _ => none

/-- The puts of a log. -/
def puts (l : List α) : List α := l.filter (!del ·)

/-- One operation counts its put and points its key to it. -/
def posStep (st : ℕ × (K → Option ℕ)) (a : α) : ℕ × (K → Option ℕ) :=
  if del a then (st.1, Function.update st.2 (key a) none)
  else (st.1 + 1, Function.update st.2 (key a) (some st.1))

/-- The number of puts, and for each live key the place of its put among them. -/
def posState (l : List α) : ℕ × (K → Option ℕ) := l.foldl (posStep key del) (0, fun _ => none)

/-- The place of the put of a live key among all puts. -/
def posOf (l : List α) : K → Option ℕ := (posState key del l).2

/-- The puts that no later operation overrides. -/
def live : List α → List α
  | [] => []
  | a :: l => if del a = true ∨ key a ∈ l.map key then live l else a :: live l

variable {key del}

/-! ## Appending -/

theorem replay_snoc (l : List α) (a : α) :
    replay key del (l ++ [a]) = replayStep key del (replay key del l) a := by
  rw [replay, List.foldl_append]
  rfl

theorem posState_snoc (l : List α) (a : α) :
    posState key del (l ++ [a]) = posStep key del (posState key del l) a := by
  rw [posState, List.foldl_append]
  rfl

theorem puts_append (l m : List α) : puts del (l ++ m) = puts del l ++ puts del m :=
  List.filter_append ..

/-- Replaying more operations only touches their keys. -/
theorem replay_append (l m : List α) (k : K) :
    replay key del (l ++ m) k =
      if k ∈ m.map key then replay key del m k else replay key del l k := by
  induction m using List.reverseRecOn with
  | nil => simp
  | append_singleton m a ih =>
      rw [← List.append_assoc, replay_snoc, replay_snoc, replayStep, replayStep]
      by_cases hk : k = key a
      · subst hk
        simp
      · rw [Function.update_of_ne hk, Function.update_of_ne hk, ih]
        simp [hk]

theorem replay_cons (a : α) (l : List α) (k : K) :
    replay key del (a :: l) k = if k ∈ l.map key then replay key del l k
      else if k = key a ∧ del a = false then some a else none := by
  rw [← List.singleton_append, replay_append]
  refine if_congr Iff.rfl rfl ?_
  rw [replay, List.foldl_cons, List.foldl_nil, replayStep]
  by_cases hk : k = key a
  · subst hk
    cases hd : del a <;> simp
  · simp [hk]

/-! ## Places -/

theorem posState_fst (l : List α) : (posState key del l).1 = (puts del l).length := by
  induction l using List.reverseRecOn with
  | nil => rfl
  | append_singleton l a ih =>
      rw [posState_snoc, puts_append, posStep, List.length_append, ← ih]
      cases hd : del a <;> simp [puts, hd]

theorem posOf_lt {l : List α} {k : K} {i : ℕ} (h : posOf key del l k = some i) :
    i < (puts del l).length := by
  rw [posOf] at h
  induction l using List.reverseRecOn with
  | nil => exact absurd h (by simp [posState])
  | append_singleton l a ih =>
      have hlen : (posState key del (l ++ [a])).1 = _ := posState_fst (l ++ [a])
      have hlen' : (posState key del l).1 = _ := posState_fst l
      rw [posState_snoc, posStep] at h hlen
      rw [← hlen]
      cases hd : del a <;> simp only [hd, Bool.false_eq_true, if_true, if_false] at h ⊢
      · by_cases hk : k = key a
        · subst hk
          rw [Function.update_self, Option.some.injEq] at h
          omega
        · rw [Function.update_of_ne hk] at h
          have := ih h
          omega
      · by_cases hk : k = key a
        · subst hk
          simp at h
        · rw [Function.update_of_ne hk] at h
          have := ih h
          omega

/-- **A live key is at its place**: the put there is the one in force. -/
theorem replay_eq_posOf (l : List α) (k : K) :
    replay key del l k = (posOf key del l k).bind fun i => (puts del l)[i]? := by
  induction l using List.reverseRecOn with
  | nil => rfl
  | append_singleton l a ih =>
      have hlen : (posState key del l).1 = _ := posState_fst l
      rw [replay_snoc, replayStep, posOf, posState_snoc, posStep, puts_append]
      cases hd : del a with
      | true =>
          have hnil : puts del [a] = [] := by simp [puts, hd]
          rw [if_pos rfl, if_pos rfl, hnil, List.append_nil]
          dsimp only
          by_cases hk : k = key a
          · subst hk
            simp
          · rw [Function.update_of_ne hk, Function.update_of_ne hk, ih]
            rfl
      | false =>
          have hone : puts del [a] = [a] := by simp [puts, hd]
          rw [if_neg (by simp), if_neg (by simp), hone]
          dsimp only
          by_cases hk : k = key a
          · subst hk
            rw [Function.update_self, Function.update_self, Option.bind_some, hlen,
              List.getElem?_concat_length]
          · rw [Function.update_of_ne hk, Function.update_of_ne hk, ih, posOf]
            cases hpos : (posState key del l).2 k with
            | none => rfl
            | some i =>
                have hi : i < (puts del l).length := posOf_lt hpos
                rw [Option.bind_some, Option.bind_some, List.getElem?_append_left hi]

/-- The keys with a place are the live ones. -/
theorem posOf_isSome (l : List α) (k : K) : (posOf key del l k).isSome ↔ replay key del l k ≠ none := by
  rw [replay_eq_posOf]
  cases hpos : posOf key del l k with
  | none => simp
  | some i => simp [posOf_lt hpos]

/-! ## Compaction -/

theorem live_sublist (l : List α) : (live key del l).Sublist l := by
  induction l with
  | nil => exact List.Sublist.refl _
  | cons a l ih =>
      rw [live]
      split_ifs
      · exact ih.cons a
      · exact ih.cons_cons a

theorem live_subset (l : List α) : live key del l ⊆ l := (live_sublist l).subset

theorem live_length_le (l : List α) : (live key del l).length ≤ l.length :=
  (live_sublist l).length_le

/-- The compacted log has no deletion. -/
theorem del_of_mem_live (l : List α) : ∀ a ∈ live key del l, del a = false := by
  induction l with
  | nil => simp [live]
  | cons a l ih =>
      rw [live]
      split_ifs with h
      · exact ih
      · rw [not_or, Bool.not_eq_true] at h
        exact List.forall_mem_cons.mpr ⟨h.1, ih⟩

/-- A key is in the compacted log if and only if it is live. -/
theorem mem_live_iff (l : List α) (k : K) :
    k ∈ (live key del l).map key ↔ replay key del l k ≠ none := by
  induction l with
  | nil => simp [live, replay]
  | cons a l ih =>
      rw [live, replay_cons]
      by_cases hk : k ∈ l.map key
      · rw [if_pos hk, ← ih]
        split_ifs with h
        · rfl
        · rw [List.map_cons, List.mem_cons]
          refine ⟨fun hmem => hmem.resolve_left ?_, Or.inr⟩
          rintro rfl
          exact h (Or.inr hk)
      · have hnot : k ∉ (live key del l).map key := fun hmem =>
          hk (List.map_subset key (live_subset l) hmem)
        rw [if_neg hk]
        split_ifs with h hka hka
        · obtain ⟨rfl, hd⟩ := hka
          exact absurd h (by simp [hd, hk])
        · exact iff_of_false hnot (by simp)
        · simp [hka.1]
        · refine iff_of_false ?_ (by simp)
          rw [List.map_cons, List.mem_cons]
          rintro (rfl | hmem)
          · exact hka ⟨rfl, by simpa using fun hd => h (Or.inl hd)⟩
          · exact hnot hmem

/-- **Compaction keeps the map.** -/
theorem replay_live (l : List α) : replay key del (live key del l) = replay key del l := by
  funext k
  induction l with
  | nil => rfl
  | cons a l ih =>
      have hmem : k ∈ (live key del l).map key ↔ _ := mem_live_iff l k
      rw [live]
      split_ifs with h
      · rw [ih, replay_cons]
        by_cases hk : k ∈ l.map key
        · rw [if_pos hk]
        · have hnone : replay key del l k = none := by
            by_contra hne
            exact hk (List.map_subset key (live_subset l) (hmem.mpr hne))
          rw [if_neg hk, hnone, if_neg]
          rintro ⟨rfl, hd⟩
          exact h.elim (by simp [hd]) hk
      · rw [replay_cons, replay_cons, ih]
        by_cases hk : k ∈ l.map key
        · rw [if_pos hk]
          split_ifs with hlive hka
          · rfl
          · obtain ⟨rfl, -⟩ := hka
            exact absurd (Or.inr hk) h
          · exact (not_not.mp fun hne => hlive (hmem.mpr hne)).symm
        · have hnot : k ∉ (live key del l).map key := fun hlive =>
            hk (List.map_subset key (live_subset l) hlive)
          rw [if_neg hk, if_neg hnot]

theorem replay_live_append (l m : List α) :
    replay key del (live key del l ++ m) = replay key del (l ++ m) := by
  funext k
  rw [replay_append, replay_append, replay_live]

/-- **Compacting a compacted log again** is compacting the log. -/
theorem live_live_append (l m : List α) :
    live key del (live key del l ++ m) = live key del (l ++ m) := by
  induction l with
  | nil => rfl
  | cons a l ih =>
      rw [live, List.cons_append]
      split_ifs with h
      · rw [ih, live, if_pos]
        cases h with
        | inl hd => exact Or.inl hd
        | inr hmem => exact Or.inr (by simp [List.mem_map.mp hmem])
      · rw [List.cons_append, live, live, ih]
        have hnot : key a ∉ (live key del l).map key := fun hmem =>
          h (Or.inr (List.map_subset key (live_subset l) hmem))
        refine if_congr ?_ rfl rfl
        simp only [List.map_append, List.mem_append]
        tauto

theorem nodup_live (l : List α) : ((live key del l).map key).Nodup := by
  induction l with
  | nil => exact List.nodup_nil
  | cons a l ih =>
      rw [live]
      split_ifs with h
      · exact ih
      · rw [List.map_cons, List.nodup_cons]
        exact ⟨fun hmem => h (Or.inr (List.map_subset key (live_subset l) hmem)), ih⟩

/-- One more operation removes its key from the compacted log and adds its put. -/
theorem live_snoc (l : List α) (a : α) :
    live key del (l ++ [a]) =
      (live key del l).filter (key · ≠ key a) ++ if del a then [] else [a] := by
  induction l with
  | nil => cases hd : del a <;> simp [live, hd]
  | cons b l ih =>
      rw [List.cons_append, live, live, ih]
      by_cases hb : del b = true ∨ key b ∈ l.map key
      · rw [if_pos hb, if_pos]
        cases hb with
        | inl hd => exact Or.inl hd
        | inr hmem => exact Or.inr (by simp [List.mem_map.mp hmem])
      · rw [if_neg hb, List.filter_cons]
        by_cases hab : key b = key a
        · simp [hab]
        · have hkeep : ¬(del b = true ∨ key b ∈ (l ++ [a]).map key) := by
            simp only [List.map_append, List.mem_append, List.map_singleton, List.mem_singleton]
            tauto
          have hne : decide (key b ≠ key a) = true := by simpa using hab
          rw [if_neg hkeep, if_pos hne, List.cons_append]

/-- Removing a key from a compacted log removes at most one put. -/
theorem length_filter_key_ne {l : List α} (h : (l.map key).Nodup) (k : K) :
    (l.filter (key · ≠ k)).length + (if k ∈ l.map key then 1 else 0) = l.length := by
  induction l with
  | nil => rfl
  | cons a l ih =>
      rw [List.map_cons, List.nodup_cons] at h
      have ih' := ih h.2
      rw [List.filter_cons, List.length_cons, ← ih']
      by_cases hk : key a = k
      · subst hk
        simp [h.1]
      · have hk' : k ≠ key a := fun h => hk h.symm
        simp [hk, hk']
        omega

/-! ## Partly compacted logs -/

variable (key del) in
/-- The log compacted up to operation `d`. -/
def compacted (l : List α) (d : ℕ) : List α := live key del (l.take d) ++ l.drop d

theorem length_compacted (l : List α) (d : ℕ) :
    (compacted key del l d).length = (live key del (l.take d)).length + (l.length - d) := by
  rw [compacted, List.length_append, List.length_drop]

theorem compacted_subset (l : List α) (d : ℕ) : compacted key del l d ⊆ l := by
  intro a ha
  cases List.mem_append.mp ha with
  | inl hlive => exact List.mem_of_mem_take (live_subset _ hlive)
  | inr hrest => exact List.mem_of_mem_drop hrest

theorem replay_compacted (l : List α) (d : ℕ) :
    replay key del (compacted key del l d) = replay key del l := by
  rw [compacted, replay_live_append, List.take_append_drop]

theorem compacted_append {l : List α} {d : ℕ} (hd : d ≤ l.length) (m : List α) :
    compacted key del (l ++ m) d = compacted key del l d ++ m := by
  rw [compacted, compacted, List.take_append_of_le_length hd, List.drop_append_of_le_length hd,
    List.append_assoc]

/-- The operations behind the compacted ones. -/
theorem drop_compacted (l : List α) (d j : ℕ) :
    (compacted key del l d).drop ((live key del (l.take d)).length + j) = l.drop (d + j) := by
  rw [compacted, ← List.drop_drop, List.drop_left, List.drop_drop]

/-- **Compacting further**: the end is counted from the first operation that is left. -/
theorem compacted_compacted {l : List α} {d e : ℕ} (he : (live key del (l.take d)).length ≤ e) :
    compacted key del (compacted key del l d) e =
      compacted key del l (d + (e - (live key del (l.take d)).length)) := by
  rw [compacted, compacted, List.take_append, List.take_of_length_le he, List.drop_append,
    List.drop_eq_nil_of_le he, List.nil_append, live_live_append, ← List.take_add, List.drop_drop,
    compacted]

/-! ## Logs that agree in keys and deletions -/

section
variable (f : β → α) (l : List β)

theorem posState_map : posState key del (l.map f) = posState (key ∘ f) (del ∘ f) l :=
  List.foldl_map ..

theorem live_map : live key del (l.map f) = (live (key ∘ f) (del ∘ f) l).map f := by
  induction l with
  | nil => rfl
  | cons a l ih =>
      rw [List.map_cons, live, live, ih, apply_ite (List.map f), List.map_cons, List.map_map]
      rfl

theorem compacted_map (d : ℕ) :
    compacted key del (l.map f) d = (compacted (key ∘ f) (del ∘ f) l d).map f := by
  rw [compacted, ← List.map_take, ← List.map_drop, live_map, ← List.map_append, compacted]

end

end SinglePassPIR.KeyLog
