import SinglePassPIR.Lib.Run
import SinglePassPIR.Lib.Tiling
import SinglePassPIR.Updatable.Waterfall

/-!
# The layers tile the rows

Whatever the numbers of new rows are, the layers of a waterfall client lie one after the other
over its rows: an update empties the last layers and gives their rows, with the new ones, to
the layer before them.

## Main results

* `gatherRows_spec`, `updateLayers_spec` — where the rows of an update go.
* `fetchHint_spec` — one update, with the outcome of its hint.
* `Layered` — the invariant of the numbers, kept by every update whatever becomes of its hint.
-/

namespace SinglePassPIR.Updatable
open Pir

/-! ## Where new rows go -/

section
variable {γ : Type}

/-- The layers lie one after the other from row `lo` to row `hi`. -/
abbrev LayersTile (lo : ℕ) (layers : List (ClientLayer γ)) (hi : ℕ) : Prop :=
  Tiles ClientLayer.firstRow ClientLayer.numRows lo layers hi

/-- The number of rows of some layers. -/
def rowsOf (layers : List (ClientLayer γ)) : ℕ := (layers.map ClientLayer.numRows).sum

/-- The layers after their rows were carried up. -/
def cleared (layers : List (ClientLayer γ)) : List (ClientLayer γ) :=
  layers.map fun layer => emptyLayer layer.maxSize

@[simp] theorem rowsOf_nil : rowsOf ([] : List (ClientLayer γ)) = 0 := rfl
@[simp] theorem rowsOf_cons (layer : ClientLayer γ) (layers : List (ClientLayer γ)) :
    rowsOf (layer :: layers) = layer.numRows + rowsOf layers := rfl
@[simp] theorem rowsOf_append (layers layers' : List (ClientLayer γ)) :
    rowsOf (layers ++ layers') = rowsOf layers + rowsOf layers' := by
  rw [rowsOf, List.map_append, List.sum_append]
  rfl

/-- No layer has room for `n` new rows with the rows from it on. -/
def Overflows (n : ℕ) : List (ClientLayer γ) → Prop
  | [] => True
  | layer :: lower => layer.maxSize < n + rowsOf (layer :: lower) ∧ Overflows n lower

theorem overflows_concat (n : ℕ) (layers : List (ClientLayer γ)) (layer : ClientLayer γ) :
    Overflows n (layers ++ [layer]) ↔
      Overflows (n + layer.numRows) layers ∧ layer.maxSize < n + layer.numRows := by
  induction layers with
  | nil => simp [Overflows]
  | cons next layers ih =>
      have hrows : n + rowsOf (next :: (layers ++ [layer])) =
          n + layer.numRows + rowsOf (next :: layers) := by
        simp only [rowsOf_cons, rowsOf_append, rowsOf_nil]
        omega
      rw [List.cons_append, Overflows, Overflows, ih, hrows, and_assoc]

@[simp] theorem cleared_nil : cleared ([] : List (ClientLayer γ)) = [] := rfl
@[simp] theorem cleared_append (layers layers' : List (ClientLayer γ)) :
    cleared (layers ++ layers') = cleared layers ++ cleared layers' := List.map_append
@[simp] theorem cleared_singleton (layer : ClientLayer γ) :
    cleared [layer] = [emptyLayer layer.maxSize] := rfl

theorem eq_empty_of_mem_cleared {layers : List (ClientLayer γ)} {layer : ClientLayer γ}
    (h : layer ∈ cleared layers) : ∃ m, layer = emptyLayer m := by
  obtain ⟨l, -, hl⟩ := List.mem_map.mp h
  exact ⟨l.maxSize, hl.symm⟩

theorem layersTile_end {lo hi : ℕ} {layers : List (ClientLayer γ)}
    (h : LayersTile lo layers hi) : hi = lo + rowsOf layers := h.end_eq

theorem last_iff (upper : List (ClientLayer γ)) (layer : ClientLayer γ)
    (lower : List (ClientLayer γ)) :
    upper.length + 1 = (upper ++ layer :: lower).length ↔ lower = [] := by
  rw [List.length_append, List.length_cons, ← List.length_eq_zero_iff]
  omega

namespace WaterfallClient

/-- The loop of `updateLayers` stops at the last layer that has room for the new rows and those
of the layers below it, or carries all rows past the first layer. -/
theorem gatherRows_spec (front back : List (ClientLayer γ)) (numNewRows : ℕ) :
    (Overflows numNewRows front ∧ gatherRows front.length numNewRows (front ++ back) =
        some (0, numNewRows + rowsOf front, cleared front ++ back)) ∨
    ∃ upper layer lower, front = upper ++ layer :: lower ∧
      numNewRows + rowsOf (layer :: lower) ≤ layer.maxSize ∧ Overflows numNewRows lower ∧
      gatherRows front.length numNewRows (front ++ back) =
        some (upper.length + 1, numNewRows + rowsOf (layer :: lower),
          upper ++ layer :: (cleared lower ++ back)) := by
  induction front using List.reverseRecOn generalizing back numNewRows with
  | nil => exact Or.inl ⟨trivial, rfl⟩
  | append_singleton front layer ih =>
      have hget : (front ++ [layer] ++ back)[front.length]? = some layer := by simp
      have hset : (front ++ [layer] ++ back).set front.length (emptyLayer layer.maxSize) =
          front ++ (emptyLayer layer.maxSize :: back) := by simp
      rw [List.length_append, List.length_singleton, gatherRows, hget]
      simp only [Option.bind_eq_bind, Option.bind_some, hset]
      by_cases hfit : numNewRows + layer.numRows ≤ layer.maxSize
      · refine Or.inr ⟨front, layer, [], rfl, by simpa using hfit, trivial, ?_⟩
        rw [if_pos hfit]
        simp
      · rw [if_neg hfit]
        rcases ih (emptyLayer layer.maxSize :: back) (numNewRows + layer.numRows) with h | h
        · obtain ⟨hover, h⟩ := h
          refine Or.inl ⟨(overflows_concat _ _ _).mpr ⟨hover, Nat.lt_of_not_le hfit⟩, h.trans ?_⟩
          simp only [rowsOf_append, rowsOf_cons, rowsOf_nil, cleared_append, cleared_singleton,
            List.append_assoc, List.singleton_append, Option.some.injEq, Prod.mk.injEq, and_true,
            true_and]
          omega
        · obtain ⟨upper, target, lower, rfl, hle, hover, h⟩ := h
          refine Or.inr ⟨upper, target, lower ++ [layer], by simp, ?_,
            (overflows_concat _ _ _).mpr ⟨hover, Nat.lt_of_not_le hfit⟩, h.trans ?_⟩
          · simp only [rowsOf_append, rowsOf_cons, rowsOf_nil] at hle ⊢
            omega
          · simp only [rowsOf_append, rowsOf_cons, rowsOf_nil, cleared_append, cleared_singleton,
              List.append_assoc, List.singleton_append, Option.some.injEq, Prod.mk.injEq, and_true,
              true_and]
            omega

/-- The first layer of a fresh set of layers has room for all rows. -/
theorem layersMaxSize_eq (c : WaterfallClient γ) (nRows : ℕ) :
    ∃ sizes, c.layersMaxSize nRows = nRows :: sizes := by
  have hhalve : ∀ smallest fuel m, ∃ sizes, halve smallest fuel m = m :: sizes := by
    intro smallest fuel m
    cases fuel with
    | zero => exact ⟨[], rfl⟩
    | succ fuel =>
        rw [halve]
        split
        · exact ⟨_, rfl⟩
        · exact ⟨[], rfl⟩
  rw [layersMaxSize]
  split
  · exact hhalve _ _ _
  · exact ⟨[], rfl⟩

/-- What an update of `n` rows does to the layers: those of `upper` stay, the next one takes the
last `k` rows, and those of `lower` are empty. The layers below the one that takes the rows have no
room for them. -/
structure Carried (c : WaterfallClient γ) (n : ℕ) (upper lower : List (ClientLayer γ))
    (maxSize k : ℕ) (t : PirType) : Prop where
  upper_le : upper <+: c.layers
  tiles : LayersTile 0 upper (c.numRows + n - k)
  new_le : n ≤ k
  le_rows : k ≤ c.numRows + n
  le_maxSize : k ≤ maxSize
  lower_empty : ∀ layer ∈ lower, ∃ m, layer = emptyLayer m
  pirType_eq : t = if lower = [] ∧ c.pirType.layered then .dpf else c.pirType
  stop : upper = [] ∧ Overflows n c.layers.tail ∨ ∃ layer rest, c.layers = upper ++ layer :: rest ∧
    n + rowsOf (layer :: rest) ≤ layer.maxSize ∧ Overflows n rest

/-- The layers lie over the rows, and no layer holds more than it has room for. -/
structure Layered (c : WaterfallClient γ) : Prop where
  tiles : LayersTile 0 c.layers c.numRows
  le_maxSize : ∀ layer ∈ c.layers, layer.numRows ≤ layer.maxSize

/-- The client after an update, with the PIR client of the layer that took the rows. -/
def carry (c : WaterfallClient γ) (n rowLen : ℕ) (upper lower : List (ClientLayer γ))
    (maxSize k : ℕ) (t : PirType) (pir : Option γ) : WaterfallClient γ :=
  { c with
    numRows := c.numRows + n, rowLen
    layers := upper ++ ⟨maxSize, c.numRows + n - k, k, some t, pir⟩ :: lower }

variable {c : WaterfallClient γ} {n rowLen maxSize k : ℕ} {upper lower : List (ClientLayer γ)}
  {t : PirType} {pir : Option γ}

/-- Every update keeps the layers over the rows. -/
theorem Carried.layered (h : Carried c n upper lower maxSize k t) (hc : c.Layered)
    (rowLen : ℕ) (pir : Option γ) :
    (c.carry n rowLen upper lower maxSize k t pir).Layered where
  tiles := by
    refine tiles_append.mpr ⟨_, h.tiles, fun _ => rfl, ?_⟩
    have hlower : LayersTile (c.numRows + n) lower (c.numRows + n) := by
      refine tiles_empty ?_
      intro layer hl
      obtain ⟨m, rfl⟩ := h.lower_empty layer hl
      rfl
    rw [Nat.sub_add_cancel h.le_rows]
    exact hlower
  le_maxSize := by
    intro layer hl
    simp only [carry, List.mem_append, List.mem_cons] at hl
    rcases hl with hl | rfl | hl
    · exact hc.le_maxSize layer (h.upper_le.subset hl)
    · exact h.le_maxSize
    · obtain ⟨m, rfl⟩ := h.lower_empty layer hl
      exact Nat.zero_le m

/-- **One update of the layers.** -/
theorem updateLayers_spec (hc : LayersTile 0 c.layers c.numRows) (n rowLen : ℕ) :
    ∃ upper lower maxSize k t, Carried c n upper lower maxSize k t ∧
      { c with numRows := c.numRows + n, rowLen }.updateLayers n =
        some (upper.length, c.carry n rowLen upper lower maxSize k t none) := by
  have htotal := layersTile_end hc
  -- all layers are made anew, for all rows
  have fresh : ∀ stop rows layers, stop ≤ 1 → rows = c.numRows + n → Overflows n c.layers.tail →
      gatherRows c.layers.length n c.layers = some (stop, rows, layers) →
      ∃ upper lower maxSize k t, Carried c n upper lower maxSize k t ∧
        { c with numRows := c.numRows + n, rowLen }.updateLayers n =
          some (upper.length, c.carry n rowLen upper lower maxSize k t none) := by
    rintro stop rows layers hstop rfl hover hgather
    obtain ⟨sizes, hsizes⟩ := layersMaxSize_eq
      { c with numRows := c.numRows + n, rowLen } (c.numRows + n)
    refine ⟨[], sizes.map emptyLayer, c.numRows + n, c.numRows + n, _,
      ⟨List.nil_prefix, (Nat.sub_self _).symm, Nat.le_add_left .., le_rfl, le_rfl, ?_, rfl,
        Or.inl ⟨rfl, hover⟩⟩, ?_⟩
    · simp only [List.mem_map]
      rintro layer ⟨m, -, rfl⟩
      exact ⟨m, rfl⟩
    · have hi : stop - 1 = 0 := by omega
      simp only [updateLayers, hgather, Option.bind_eq_bind, Option.bind_some, if_pos hstop, hi,
        freshLayers, hsizes, List.map_cons, List.getElem?_cons_zero, List.set_cons_zero, carry]
      have hlast := last_iff [] (emptyLayer (c.numRows + n)) (sizes.map (emptyLayer (γ := γ)))
      simp only [List.length_nil, List.nil_append] at hlast
      simp only [hlast, List.length_nil, List.nil_append]
      rfl
  rcases gatherRows_spec c.layers [] n with h | h
  · obtain ⟨hover, h⟩ := h
    rw [List.append_nil] at h
    refine fresh 0 _ _ (by omega) (by omega) ?_ h
    cases hl : c.layers with
    | nil => trivial
    | cons layer lower =>
        rw [hl] at hover
        exact hover.2
  · obtain ⟨upper, layer, lower, hlayers, hle, hover, h⟩ := h
    rw [List.append_nil] at h
    have hrows : rowsOf c.layers = rowsOf upper + rowsOf (layer :: lower) := by
      rw [hlayers, rowsOf_append]
    by_cases hstop : upper.length + 1 ≤ 1
    · have hnil : upper = [] := List.length_eq_zero_iff.mp (by omega)
      subst hnil
      rw [rowsOf_nil] at hrows
      exact fresh 1 _ _ le_rfl (by omega) (by rwa [hlayers]) h
    · refine ⟨upper, cleared lower, layer.maxSize, n + rowsOf (layer :: lower), _,
        ⟨⟨_, hlayers.symm⟩, ?_, Nat.le_add_right .., by omega, hle, ?_, rfl,
          Or.inr ⟨layer, lower, hlayers, hle, hover⟩⟩, ?_⟩
      · rw [hlayers] at hc
        obtain ⟨mid, hupper, -⟩ := tiles_append.mp hc
        have hmid := layersTile_end hupper
        rwa [show c.numRows + n - (n + rowsOf (layer :: lower)) = mid by omega]
      · intro layer' hl
        exact eq_empty_of_mem_cleared hl
      · rw [List.append_nil] at h
        have hget : (upper ++ layer :: cleared lower)[upper.length]? = some layer := by simp
        simp only [updateLayers, h, Option.bind_eq_bind, Option.bind_some, if_neg hstop,
          Nat.add_sub_cancel, hget, last_iff, carry, List.set_append_right _ _ le_rfl,
          Nat.sub_self, List.set_cons_zero]

end WaterfallClient
end

/-! ## One update -/

variable {P : PirImpl}

namespace WaterfallClient

/-- The part of `Update` that fetches a hint for `numNewRows` new rows; `hint` is the `Hint`
call of the server. -/
def fetchHint (hint : UpdatableHintReq P.HintReq → Option (Except String P.HintResp))
    (src initSrc : P.Source) (c : WaterfallClient P.Client) (numNewRows rowLen : ℕ) :
    Option (Except String Unit × WaterfallClient P.Client) := do
  let (hintReq, c) ← c.hintUpdateReq src numNewRows rowLen
  match hintReq with
  | .error err => some (.error err, c)
  | .ok none => some (.ok (), c)
  | .ok (some hintReq) =>
      match ← hint hintReq with
      | .error err => some (.error err, c)
      | .ok resp => do some (.ok (), ← c.initHint initSrc resp)

/-- `InitHint` finds the layer that the update gave the rows to. -/
theorem lastActive_eq {upper lower : List (ClientLayer P.Client)} {layer : ClientLayer P.Client}
    (hne : layer.numRows ≠ 0) (hlower : ∀ l ∈ lower, ∃ m, l = emptyLayer m) :
    lastActive (upper ++ layer :: lower) (upper ++ layer :: lower).length = some upper.length := by
  have scan : ∀ k ≤ lower.length,
      lastActive (upper ++ layer :: lower) (upper.length + 1 + k) = some upper.length := by
    intro k
    induction k with
    | zero =>
        intro _
        have hget : (upper ++ layer :: lower)[upper.length]? = some layer := by simp
        simp only [lastActive, hget, if_pos hne]
    | succ k ih =>
        intro hk
        have hlt : k < lower.length := by omega
        obtain ⟨m, hm⟩ := hlower lower[k] (List.getElem_mem hlt)
        have hget : (upper ++ layer :: lower)[upper.length + 1 + k]? = some (emptyLayer m) := by
          rw [List.getElem?_append_right (by omega),
            show upper.length + 1 + k - upper.length = k + 1 by omega, List.getElem?_cons_succ,
            List.getElem?_eq_getElem hlt, hm]
        rw [← Nat.add_assoc, lastActive, hget]
        exact ih (by omega)
  rw [List.length_append, List.length_cons, show upper.length + (lower.length + 1) =
    upper.length + 1 + lower.length by omega]
  exact scan _ le_rfl

variable {c : WaterfallClient P.Client} {n rowLen maxSize k : ℕ}
  {upper lower : List (ClientLayer P.Client)} {t : PirType}

theorem carry_getElem? (pir : Option P.Client) :
    (c.carry n rowLen upper lower maxSize k t pir).layers[upper.length]? =
      some ⟨maxSize, c.numRows + n - k, k, some t, pir⟩ := by
  simp [carry]

theorem initHint_carry (hk : k ≠ 0) (hlower : ∀ l ∈ lower, ∃ m, l = emptyLayer m)
    (src : P.Source) (resp : P.HintResp) :
    (c.carry n rowLen upper lower maxSize k t none).initHint src resp =
      (P.initClient src resp).map fun client =>
        c.carry n rowLen upper lower maxSize k t (some client) := by
  have hlast : lastActive (c.carry n rowLen upper lower maxSize k t none).layers
      (c.carry n rowLen upper lower maxSize k t none).layers.length = some upper.length :=
    lastActive_eq hk hlower
  simp only [initHint, hlast, carry_getElem?, Option.bind_eq_bind, Option.bind_some]
  simp only [carry, List.set_append_right _ _ le_rfl, Nat.sub_self, List.set_cons_zero]
  cases P.initClient src resp <;> rfl

/-- **One update.** The rows are carried up, and the layer that takes them gets a PIR client if
its hint arrives. The hint of a layer for large databases is the server's. -/
theorem fetchHint_spec (hint : UpdatableHintReq P.HintReq → Option (Except String P.HintResp))
    (src initSrc : P.Source) (hc : LayersTile 0 c.layers c.numRows) (hn : 1 ≤ n) (rowLen : ℕ) :
    ∃ upper lower maxSize k t, Carried c n upper lower maxSize k t ∧
      c.fetchHint hint src initSrc n rowLen =
        (if t.layered then hint ⟨P.newHintReq src t, c.numRows + n - k, k⟩
          else P.processHint (P.newHintReq src t) ⟨k, rowLen, 0, []⟩).bind fun
        | .error err => some (.error err, c.carry n rowLen upper lower maxSize k t none)
        | .ok resp => (P.initClient (if t.layered then initSrc else src) resp).map fun client =>
            (.ok (), c.carry n rowLen upper lower maxSize k t (some client)) := by
  obtain ⟨upper, lower, maxSize, k, t, hcarried, hupdate⟩ := updateLayers_spec hc n rowLen
  refine ⟨upper, lower, maxSize, k, t, hcarried, ?_⟩
  have hk : k ≠ 0 := by
    have := hcarried.new_le
    omega
  simp only [fetchHint, hintUpdateReq, hupdate, carry_getElem?, Option.bind_eq_bind,
    Option.bind_some, if_neg hk]
  by_cases ht : t.layered
  · simp only [ht, if_true, Option.bind_some]
    cases hint ⟨P.newHintReq src t, c.numRows + n - k, k⟩ with
    | none => rfl
    | some res =>
        cases res with
        | error err => rfl
        | ok resp =>
            simp only [Option.bind_some, initHint_carry hk hcarried.lower_empty]
            cases P.initClient initSrc resp <;> rfl
  · have hset : ∀ pir, (c.carry n rowLen upper lower maxSize k t none).layers.set upper.length
        ⟨maxSize, c.numRows + n - k, k, some t, pir⟩ =
          (c.carry n rowLen upper lower maxSize k t pir).layers := by
      intro pir
      simp only [carry, List.set_append_right _ _ le_rfl, Nat.sub_self, List.set_cons_zero]
    simp only [ht, if_neg, Bool.false_eq_true, not_false_eq_true, hset]
    rw [show (c.carry n rowLen upper lower maxSize k t none).rowLen = rowLen from rfl]
    cases P.processHint (P.newHintReq src t) ⟨k, rowLen, 0, []⟩ with
    | none => rfl
    | some res =>
        cases res with
        | error err => rfl
        | ok resp =>
            simp only [Option.bind_some]
            cases P.initClient src resp <;> rfl

/-- What an update that returns has done. -/
theorem fetchHint_cases
    {hint : UpdatableHintReq P.HintReq → Option (Except String P.HintResp)}
    {src initSrc : P.Source} (hc : LayersTile 0 c.layers c.numRows) (hn : 1 ≤ n)
    {res : Except String Unit} {c' : WaterfallClient P.Client}
    (h : c.fetchHint hint src initSrc n rowLen = some (res, c')) :
    ∃ upper lower maxSize k t hinted, Carried c n upper lower maxSize k t ∧
      (if t.layered then hint ⟨P.newHintReq src t, c.numRows + n - k, k⟩
        else P.processHint (P.newHintReq src t) ⟨k, rowLen, 0, []⟩) = some hinted ∧
      ((∃ err, hinted = .error err ∧ res = .error err ∧
        c' = c.carry n rowLen upper lower maxSize k t none) ∨
      ∃ resp initSrc' client, hinted = .ok resp ∧ res = .ok () ∧
        P.initClient initSrc' resp = some client ∧
        c' = c.carry n rowLen upper lower maxSize k t (some client)) := by
  obtain ⟨upper, lower, maxSize, k, t, hcarried, hfetch⟩ :=
    fetchHint_spec hint src initSrc hc hn rowLen
  rw [hfetch, Option.bind_eq_some_iff] at h
  obtain ⟨hinted, hhint, hres⟩ := h
  refine ⟨upper, lower, maxSize, k, t, hinted, hcarried, hhint, ?_⟩
  cases hinted with
  | error err =>
      simp only [Option.some.injEq, Prod.mk.injEq] at hres
      exact Or.inl ⟨err, rfl, hres.1.symm, hres.2.symm⟩
  | ok resp =>
      rw [Option.map_eq_some_iff] at hres
      obtain ⟨client, hclient, hres⟩ := hres
      rw [Prod.mk.injEq] at hres
      exact Or.inr ⟨resp, _, client, rfl, hres.1.symm, hclient, hres.2.symm⟩

end WaterfallClient

end SinglePassPIR.Updatable
