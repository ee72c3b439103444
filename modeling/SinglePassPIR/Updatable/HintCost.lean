import Mathlib.Algebra.BigOperators.Ring.List
import SinglePassPIR.Lib.Cascade
import SinglePassPIR.Updatable.Routing

/-!
# What the hints of a client cost

A server reads as many rows for a hint as the layer has that asks for it. An update may move all
rows to the first layer, but then it is the first one in a while: the layers are a cascade, in which
every row pays for its own way up when it comes in, with a logarithm of the number of rows. The last
layer is of type DPF and asks for no hint.

## Main results

* `hintStep_cost` — what a step asks for, against the potential of the layers.
* `hints_amortized` — the rows of all hints that a client asks for.
-/

namespace SinglePassPIR.Updatable
open Pir

/-! ## The layers without their clients -/

section
variable {γ : Type}

/-- The layer without its client. -/
def ClientLayer.bare (layer : ClientLayer γ) : ClientLayer Unit := { layer with pir := none }

/-- A layer that changes but keeps its room. -/
theorem map_maxSize_set {layers : List (ClientLayer γ)} {i : ℕ} {layer layer' : ClientLayer γ}
    (h : layers[i]? = some layer) (hmax : layer'.maxSize = layer.maxSize) :
    (layers.set i layer').map ClientLayer.maxSize = layers.map ClientLayer.maxSize := by
  obtain ⟨hi, rfl⟩ := List.getElem?_eq_some_iff.mp h
  apply List.ext_getElem (by simp)
  intro j hj hj'
  by_cases hij : i = j
  · subst hij
    simp [hmax]
  · simp [hij]

/-- A layer that gets another client has the same numbers. -/
theorem map_bare_set {layers : List (ClientLayer γ)} {i : ℕ} {layer : ClientLayer γ}
    (h : layers[i]? = some layer) (pir : Option γ) :
    (layers.set i { layer with pir }).map ClientLayer.bare = layers.map ClientLayer.bare := by
  obtain ⟨hi, rfl⟩ := List.getElem?_eq_some_iff.mp h
  apply List.ext_getElem (by simp)
  intro j hj hj'
  by_cases hij : i = j
  · subst hij
    simp [ClientLayer.bare]
  · simp [hij]

theorem layersTile_bare {layers : List (ClientLayer γ)} {lo hi : ℕ} :
    LayersTile lo (layers.map ClientLayer.bare) hi ↔ LayersTile lo layers hi := by
  induction layers generalizing lo with
  | nil => rfl
  | cons layer layers ih => exact and_congr Iff.rfl ih

namespace WaterfallClient

/-- The client without those of its layers. -/
def bare (c : WaterfallClient γ) : WaterfallClient Unit :=
  { c with layers := c.layers.map ClientLayer.bare }

/-- What the layers have room for. -/
def caps (c : WaterfallClient γ) : List ℕ := c.layers.map ClientLayer.maxSize

/-- The numbers of rows in the layers. -/
def loads (c : WaterfallClient γ) : List ℕ := c.layers.map ClientLayer.numRows

@[simp] theorem caps_bare (c : WaterfallClient γ) : c.bare.caps = c.caps := by
  simp only [caps, bare, List.map_map]
  rfl

@[simp] theorem loads_bare (c : WaterfallClient γ) : c.bare.loads = c.loads := by
  simp only [loads, bare, List.map_map]
  rfl

/-- The layers are a cascade over the rows, with its first layer full. A type that is not for large
databases has a single layer. -/
structure Cascading (c : WaterfallClient γ) : Prop where
  layered : c.Layered
  halving : if c.pirType.layered then Halving c.smallestLayerSize c.caps else c.caps.length ≤ 1
  full : c.loads.head? = c.caps.head?

theorem cascading_bare {c : WaterfallClient γ} : c.bare.Cascading ↔ c.Cascading := by
  have hle : (∀ layer ∈ c.bare.layers, layer.numRows ≤ layer.maxSize) ↔
      ∀ layer ∈ c.layers, layer.numRows ≤ layer.maxSize := List.forall_mem_map
  constructor
  · intro h
    exact ⟨⟨layersTile_bare.mp h.layered.tiles, hle.mp h.layered.le_maxSize⟩,
      caps_bare c ▸ h.halving, by simpa using h.full⟩
  · intro h
    exact ⟨⟨layersTile_bare.mpr h.layered.tiles, hle.mpr h.layered.le_maxSize⟩,
      (caps_bare c).symm ▸ h.halving, by simpa using h.full⟩

variable {c c' : WaterfallClient γ}

theorem Cascading.of_bare (h : c.Cascading) (heq : c'.bare = c.bare) : c'.Cascading :=
  cascading_bare.mp (heq ▸ cascading_bare.mpr h)

theorem pirType_of_bare (heq : c'.bare = c.bare) : c'.pirType = c.pirType := by
  show c'.bare.pirType = c.bare.pirType
  rw [heq]

theorem numRows_of_bare (heq : c'.bare = c.bare) : c'.numRows = c.numRows := by
  show c'.bare.numRows = c.bare.numRows
  rw [heq]

theorem smallest_of_bare (heq : c'.bare = c.bare) :
    c'.smallestLayerSize = c.smallestLayerSize := by
  show c'.bare.smallestLayerSize = c.bare.smallestLayerSize
  rw [heq]

theorem loads_of_bare (heq : c'.bare = c.bare) : c'.loads = c.loads := by
  rw [← loads_bare c', heq, loads_bare]

/-! ## The rooms of the layers -/

theorem halving_halve {smallest fuel m : ℕ} (h : m ≤ fuel) : Halving smallest (halve smallest fuel m) := by
  induction fuel generalizing m with
  | zero =>
      rw [Nat.le_zero.mp h]
      exact Nat.zero_le smallest
  | succ fuel ih =>
      rw [halve]
      split
      · have hrest := ih (show m / 2 ≤ fuel by omega)
        obtain ⟨sizes, hsizes⟩ : ∃ sizes, halve smallest fuel (m / 2) = m / 2 :: sizes := by
          cases fuel with
          | zero => exact ⟨[], rfl⟩
          | succ fuel =>
              rw [halve]
              split
              · exact ⟨_, rfl⟩
              · exact ⟨[], rfl⟩
        rw [hsizes] at hrest ⊢
        exact ⟨‹_›, rfl, hrest⟩
      · exact Nat.le_of_not_lt ‹_›

/-- The rooms of a fresh set of layers. -/
theorem layersMaxSize_halving (c : WaterfallClient γ) (nRows : ℕ) :
    if c.pirType.layered then Halving c.smallestLayerSize (c.layersMaxSize nRows)
      else (c.layersMaxSize nRows).length ≤ 1 := by
  rw [layersMaxSize]
  split
  · exact halving_halve le_rfl
  · exact Nat.le_refl 1

/-- The loop of `updateLayers` leaves the rooms as they are. -/
theorem gatherRows_caps {i n stop rows : ℕ} {layers layers' : List (ClientLayer γ)}
    (h : gatherRows i n layers = some (stop, rows, layers')) :
    layers'.map ClientLayer.maxSize = layers.map ClientLayer.maxSize := by
  induction i generalizing n layers with
  | zero =>
      simp only [gatherRows, Option.some.injEq, Prod.mk.injEq] at h
      rw [h.2.2]
  | succ i ih =>
      simp only [gatherRows, Option.bind_eq_bind, Option.bind_eq_some_iff] at h
      obtain ⟨layer, hlayer, h⟩ := h
      split at h
      · simp only [Option.some.injEq, Prod.mk.injEq] at h
        rw [h.2.2]
      · rw [ih h]
        exact map_maxSize_set hlayer rfl

/-- `updateLayers` at the first position has made all rooms anew, for the rows that it gave to the
first layer; at a later one it has left them. -/
theorem updateLayers_caps {n i : ℕ} (h : c.updateLayers n = some (i, c')) :
    (i ≠ 0 ∧ c'.caps = c.caps) ∨ i = 0 ∧ ∃ rows, c'.caps = c.layersMaxSize rows ∧
      c'.loads.head? = some rows := by
  simp only [updateLayers, Option.bind_eq_bind, Option.bind_eq_some_iff, Option.some.injEq,
    Prod.mk.injEq] at h
  obtain ⟨⟨stop, rows, layers⟩, hgather, layer, hlayer, rfl, rfl⟩ := h
  dsimp only at hlayer ⊢
  by_cases hstop : stop ≤ 1
  · right
    rw [if_pos hstop] at hlayer ⊢
    have hi : stop - 1 = 0 := by omega
    rw [hi] at hlayer ⊢
    refine ⟨rfl, rows, ?_, ?_⟩
    · rw [caps, map_maxSize_set hlayer (by rfl)]
      simp [freshLayers, emptyLayer, Function.comp_def]
    · obtain ⟨sizes, hsizes⟩ := layersMaxSize_eq c rows
      simp [loads, freshLayers, hsizes]
  · left
    rw [if_neg hstop] at hlayer ⊢
    refine ⟨by omega, ?_⟩
    rw [caps, map_maxSize_set hlayer (by rfl), gatherRows_caps hgather, caps]

/-! ## One update -/

/-- What the rows have left; a type that is not for large databases asks for no hints. -/
def credit (c : WaterfallClient γ) : ℕ := if c.pirType.layered then stash c.loads else 0

/-- The second layer is at least half as large as the first, which is full. -/
theorem Cascading.first_le (h : c.Cascading) (ht : c.pirType.layered) {n : ℕ}
    (hover : Overflows n c.layers.tail) {r s : ℕ} {rest : List ℕ} (hloads : c.loads = r :: s :: rest) :
    r ≤ 2 * (n + (s :: rest).sum) := by
  have hhalving := h.halving
  have hfull := h.full
  rw [if_pos ht] at hhalving
  match hlayers : c.layers with
  | [] => simp [loads, hlayers] at hloads
  | [l] => simp [loads, hlayers] at hloads
  | l :: l' :: layers =>
      rw [hlayers] at hover
      simp only [loads, caps, hlayers, List.map_cons, List.cons.injEq, List.head?_cons,
        Option.some.injEq] at hloads hhalving hfull
      obtain ⟨rfl, rfl, rfl⟩ := hloads
      have htwo := Halving.le_two_mul [] hhalving
      have hroom := hover.1
      rw [rowsOf_cons, rowsOf] at hroom
      rw [List.sum_cons]
      omega

section
variable {n rowLen maxSize k : ℕ} {upper lower : List (ClientLayer γ)} {t : PirType}

theorem loads_carry (pir : Option γ) : (c.carry n rowLen upper lower maxSize k t pir).loads =
    upper.map ClientLayer.numRows ++ k :: lower.map ClientLayer.numRows := by
  simp [loads, carry]

theorem caps_carry (pir : Option γ) : (c.carry n rowLen upper lower maxSize k t pir).caps =
    upper.map ClientLayer.maxSize ++ maxSize :: lower.map ClientLayer.maxSize := by
  simp [caps, carry]

/-- The layers behind the one that takes the rows have none. -/
theorem Carried.lower_sum (h : Carried c n upper lower maxSize k t) :
    (lower.map ClientLayer.numRows).sum = 0 := by
  apply List.sum_eq_zero
  intro r hr
  obtain ⟨layer, hl, rfl⟩ := List.mem_map.mp hr
  obtain ⟨m, rfl⟩ := h.lower_empty layer hl
  rfl

/-- The type of the layer that takes the rows says whether it asks for a hint. -/
theorem Carried.layered_iff (h : Carried c n upper lower maxSize k t) :
    t.layered ↔ c.pirType.layered ∧ lower ≠ [] := by
  rw [h.pirType_eq]
  by_cases hlower : lower = []
  · cases ht : c.pirType.layered with
    | true => simp [hlower, PirType.layered]
    | false => simp [hlower, ht]
  · simp [hlower]

/-- The rows that a layer takes, if it is not the first one. -/
theorem Carried.moved (h : Carried c n upper lower maxSize k t) (hc : c.Layered) {layer : ClientLayer γ}
    {rest : List (ClientLayer γ)} (hlayers : c.layers = upper ++ layer :: rest) :
    k = n + (layer.numRows + rowsOf rest) := by
  have htotal := layersTile_end hc.tiles
  have hupper := layersTile_end h.tiles
  have hle := h.le_rows
  have hnew := h.new_le
  rw [hlayers, rowsOf_append, rowsOf_cons] at htotal
  omega

/-- All rows, if it is. -/
theorem Carried.all (h : Carried c n [] lower maxSize k t) : k = c.numRows + n := by
  have hupper := layersTile_end h.tiles
  have hle := h.le_rows
  rw [rowsOf_nil] at hupper
  omega

/-- What the layer that takes the rows asks for. -/
theorem Carried.asked_eq (h : Carried c n upper lower maxSize k t) :
    (if t.layered then k else 0) = if c.pirType.layered then
      if lower.map ClientLayer.numRows = [] then 0 else k else 0 := by
  have hiff := h.layered_iff
  simp only [List.map_eq_nil_iff]
  by_cases ht : c.pirType.layered
  · by_cases hlower : lower = [] <;> simp [ht, hlower, hiff]
  · simp [ht, hiff]

/-- **All layers are made anew.** -/
theorem Cascading.renew (h : c.Cascading) (hcarried : Carried c n [] lower maxSize k t)
    (hcaps : (c.carry n rowLen [] lower maxSize k t none).caps =
      (c.carry n rowLen [] lower maxSize k t none).layersMaxSize k) :
    (c.carry n rowLen [] lower maxSize k t none).Cascading ∧
      (if t.layered then k else 0) + (c.carry n rowLen [] lower maxSize k t none).credit ≤
        (2 * (c.carry n rowLen [] lower maxSize k t none).caps.length + 1) * n + c.credit := by
  have hover : Overflows n c.layers.tail := by
    rcases hcarried.stop with hstop | ⟨layer, rest, hlayers, -, hover⟩
    · exact hstop.2
    · rw [hlayers]
      exact hover
  constructor
  · refine ⟨hcarried.layered h.layered rowLen none, ?_, ?_⟩
    · rw [hcaps]
      exact layersMaxSize_halving _ k
    · obtain ⟨sizes, hsizes⟩ := layersMaxSize_eq (c.carry n rowLen [] lower maxSize k t none) k
      rw [hcaps, hsizes, loads_carry]
      rfl
  · rw [hcarried.asked_eq, credit, credit, loads_carry, caps_carry]
    show _ + (if c.pirType.layered then _ else _) ≤ _
    by_cases ht : c.pirType.layered
    · simp only [if_pos ht, List.map_nil, List.nil_append, List.length_cons, List.length_map]
      have hk : k = n + c.loads.sum := by
        have htotal := layersTile_end h.layered.tiles
        rw [hcarried.all, htotal, rowsOf, loads]
        omega
      have hrenew := stash_renew hk hcarried.lower_sum fun r s rest => h.first_le ht hover
      rwa [List.length_map] at hrenew
    · simp [ht]

/-- **A layer behind the first one takes the rows.** -/
theorem Cascading.move (h : c.Cascading) (hupper : upper ≠ [])
    (hcarried : Carried c n upper lower maxSize k t)
    (hcaps : (c.carry n rowLen upper lower maxSize k t none).caps = c.caps) :
    (c.carry n rowLen upper lower maxSize k t none).Cascading ∧
      (if t.layered then k else 0) + (c.carry n rowLen upper lower maxSize k t none).credit ≤
        (2 * (c.carry n rowLen upper lower maxSize k t none).caps.length + 1) * n + c.credit := by
  obtain ⟨layer, rest, hlayers, -, hover⟩ :=
    hcarried.stop.resolve_left fun hstop => hupper hstop.1
  have hcapsEq := hcaps
  rw [caps_carry, caps, hlayers, List.map_append, List.map_cons, List.append_cancel_left_eq,
    List.cons.injEq] at hcapsEq
  obtain ⟨hmax, hrest⟩ := hcapsEq
  have hlen : lower.length = rest.length := by simpa using congrArg List.length hrest
  have hloads : c.loads = upper.map ClientLayer.numRows ++ layer.numRows ::
      rest.map ClientLayer.numRows := by
    simp [loads, hlayers]
  obtain ⟨first, upper', rfl⟩ := List.exists_cons_of_ne_nil hupper
  constructor
  · refine ⟨hcarried.layered h.layered rowLen none, ?_, ?_⟩
    · rw [hcaps]
      exact h.halving
    · have hfull := h.full
      rw [hloads] at hfull
      rw [hcaps, ← hfull, loads_carry]
      rfl
  · rw [hcarried.asked_eq, hcaps, credit, credit, loads_carry, hloads]
    show _ + (if c.pirType.layered then _ else _) ≤ _
    by_cases ht : c.pirType.layered
    · have hk := hcarried.moved h.layered hlayers
      have hcost : rest.map ClientLayer.numRows ≠ [] →
          k ≤ 2 * (n + (rest.map ClientLayer.numRows).sum) := by
        intro hne
        obtain ⟨next, rest', rfl⟩ := List.exists_cons_of_ne_nil 
          (fun hnil => hne (List.map_eq_nil_iff.mpr hnil))
        have hhalving := h.halving
        rw [if_pos ht, caps, hlayers, List.map_append, List.map_cons, List.map_cons] at hhalving
        have htwo := hhalving.le_two_mul _
        have hroom := hover.1
        have hle := hcarried.le_maxSize
        rw [rowsOf] at hroom
        omega
      have hmove := @stash_move ((first :: upper').map ClientLayer.numRows) _ _ _ _ _ (by simp) hk
        hcarried.lower_sum hcost
      have hnil : lower.map ClientLayer.numRows = [] ↔ rest.map ClientLayer.numRows = [] := by
        rw [List.map_eq_nil_iff, List.map_eq_nil_iff, ← List.length_eq_zero_iff,
          ← List.length_eq_zero_iff, hlen]
      have hcount : c.caps.length =
          ((first :: upper').map ClientLayer.numRows).length + 1 +
            (rest.map ClientLayer.numRows).length := by
        simp only [caps, hlayers, List.length_map, List.length_append, List.length_cons]
        omega
      simp only [if_pos ht, hnil, hcount]
      exact hmove
    · simp [ht]

end

/-- **One update** keeps the cascade, and what it asks for is paid. -/
theorem Cascading.update (h : c.Cascading) (n rowLen : ℕ) :
    ∃ upper lower maxSize k t, Carried c n upper lower maxSize k t ∧
      { c with numRows := c.numRows + n, rowLen }.updateLayers n =
        some (upper.length, c.carry n rowLen upper lower maxSize k t none) ∧
      (c.carry n rowLen upper lower maxSize k t none).Cascading ∧
      (if t.layered then k else 0) + (c.carry n rowLen upper lower maxSize k t none).credit ≤
        (2 * (c.carry n rowLen upper lower maxSize k t none).caps.length + 1) * n + c.credit := by
  obtain ⟨upper, lower, maxSize, k, t, hcarried, hupdate⟩ :=
    updateLayers_spec h.layered.tiles n rowLen
  refine ⟨upper, lower, maxSize, k, t, hcarried, hupdate, ?_⟩
  rcases updateLayers_caps hupdate with ⟨hi, hcaps⟩ | ⟨hi, rows, hcaps, hhead⟩
  · exact h.move (fun hnil => hi (List.length_eq_zero_iff.mpr hnil)) hcarried hcaps
  · obtain rfl := List.length_eq_zero_iff.mp hi
    rw [loads_carry, List.map_nil, List.nil_append, List.head?_cons, Option.some.injEq] at hhead
    subst hhead
    exact h.renew hcarried hcaps

/-- The number of layers is a logarithm of the number of rows. -/
theorem Cascading.length_le (h : c.Cascading) {M : ℕ} (hM : c.numRows ≤ M) :
    c.caps.length ≤ Nat.log 2 (M / (c.smallestLayerSize + 1)) + 2 := by
  have hhalving := h.halving
  cases hcaps : c.caps with
  | nil => simp
  | cons m caps =>
      by_cases ht : c.pirType.layered
      · rw [if_pos ht, hcaps] at hhalving
        -- the first layer is full
        have hm : m ≤ M := by
          have hfull := h.full
          have htotal := layersTile_end h.layered.tiles
          rw [hcaps, List.head?_cons] at hfull
          obtain ⟨rest, hloads⟩ := List.head?_eq_some_iff.mp hfull
          have hsum : rowsOf c.layers = m + rest.sum := by
            rw [rowsOf, ← loads, hloads, List.sum_cons]
          omega
        exact hhalving.length_le.trans (Nat.add_le_add_right
          (Nat.log_mono_right (Nat.div_le_div_right hm)) 2)
      · rw [if_neg ht, hcaps] at hhalving
        exact hhalving.trans (by omega)

end WaterfallClient
end

/-! ## Runs -/

variable {P : PirImpl}

/-- What a client of the layers does: an update, with the `Hint` call of the server, a `reset`, or a
read, with the answers that came. -/
inductive HintAction (P : PirImpl)
  | update (src initSrc : P.Source) (numNewRows rowLen : ℕ)
      (hint : UpdatableHintReq P.HintReq → Option (Except String P.HintResp))
  | reset
  | read (src : ℕ → P.Source) (pos : ℤ) (respsL respsR : List P.Resp)

/-- The rows that come in. -/
def HintAction.newRows : HintAction P → ℕ
  | .update _ _ n _ _ => n
  | _ => 0

/-- The rows that the server reads for a request. -/
def hintedRows {ρ : Type} : Except String (Option (UpdatableHintReq ρ)) → ℕ
  | .ok req => (req.map UpdatableHintReq.numRows).getD 0
  | .error _ => 0

/-- What a step costs, and the rows that the client has after it. -/
structure HintUse where
  hinted : ℕ
  numRows : ℕ
  deriving DecidableEq, Repr

namespace WaterfallClient

/-- One step of a client, whatever the servers answer. -/
def hintStep (c : WaterfallClient P.Client) :
    HintAction P → Option (HintUse × WaterfallClient P.Client)
  | .update src initSrc n rowLen hint => do
      let (req, _) ← c.hintUpdateReq src n rowLen
      let (_, c) ← c.fetchHint hint src initSrc n rowLen
      some (⟨hintedRows req, c.numRows⟩, c)
  | .reset => some (⟨0, 0⟩, c.reset)
  | .read src pos respsL respsR => do
      let ((_, _, ctx), c) ← c.query src pos
      let (_, c) ← c.reconstruct ctx respsL respsR
      some (⟨0, c.numRows⟩, c)

variable {c c' : WaterfallClient P.Client}

/-- A query changes only the clients of the layers. -/
theorem queryLoop_bare {src : ℕ → P.Source} {pos : ℤ} {l : ℕ}
    {layers layers' : List (ClientLayer P.Client)} {st st' : QueryLoop P}
    (h : queryLoop src pos l layers st = some (st', layers')) :
    layers'.map ClientLayer.bare = layers.map ClientLayer.bare := by
  induction layers generalizing l st layers' with
  | nil =>
      simp only [queryLoop, Option.some.injEq, Prod.mk.injEq] at h
      rw [← h.2]
  | cons layer layers ih =>
      simp only [queryLoop, Option.bind_eq_bind, Option.bind_eq_some_iff, Option.some.injEq,
        Prod.mk.injEq] at h
      obtain ⟨⟨st₁, layer'⟩, hstep, ⟨st₂, layers₂⟩, hloop, rfl, rfl⟩ := h
      have hlayer : layer'.bare = layer.bare := by
        simp only [queryStep, Option.bind_eq_bind] at hstep
        split at hstep
        · simp only [Option.some.injEq, Prod.mk.injEq] at hstep
          rw [hstep.2]
        · split at hstep <;>
            simp only [Option.bind_eq_some_iff, Option.some.injEq, Prod.mk.injEq] at hstep
          · obtain ⟨q, -, r, -, -, rfl⟩ := hstep
            rfl
          · obtain ⟨q, -, -, rfl⟩ := hstep
            rfl
      rw [List.map_cons, List.map_cons, hlayer, ih hloop]

theorem query_bare {src : ℕ → P.Source} {pos : ℤ} {r} (h : c.query src pos = some (r, c')) :
    c'.bare = c.bare := by
  simp only [query, Option.bind_eq_bind, Option.bind_eq_some_iff, Option.some.injEq,
    Prod.mk.injEq] at h
  obtain ⟨⟨st, layers⟩, hloop, -, rfl⟩ := h
  exact congrArg (fun l => ({ c.bare with layers := l } : WaterfallClient Unit)) (queryLoop_bare hloop)

theorem reconstruct_bare {ctx : WaterfallCtx P} {left right : List P.Resp} {r}
    (h : c.reconstruct ctx left right = some (r, c')) : c'.bare = c.bare := by
  simp only [reconstruct, Option.bind_eq_bind, Option.bind_eq_some_iff, Option.some.injEq,
    Prod.mk.injEq] at h
  obtain ⟨_, -, _, -, ⟨l, inner⟩, -, layer, hlayer, client, -, ⟨row, client'⟩, -, -, rfl⟩ := h
  exact congrArg (fun l => ({ c.bare with layers := l } : WaterfallClient Unit))
    (map_bare_set hlayer _)

theorem initHint_bare {src : P.Source} {resp : P.HintResp} (h : c.initHint src resp = some c') :
    c'.bare = c.bare := by
  simp only [initHint, Option.bind_eq_bind, Option.bind_eq_some_iff, Option.some.injEq] at h
  obtain ⟨l, -, layer, hlayer, client, -, rfl⟩ := h
  exact congrArg (fun l => ({ c.bare with layers := l } : WaterfallClient Unit))
    (map_bare_set hlayer _)

/-- What an update asks for, and the layers after it. -/
theorem hintUpdateReq_asked {n rowLen maxSize k : ℕ} {upper lower : List (ClientLayer P.Client)}
    {t : PirType} {src : P.Source} {req} (hupdate : { c with numRows := c.numRows + n, rowLen
      }.updateLayers n = some (upper.length, c.carry n rowLen upper lower maxSize k t none))
    (h : c.hintUpdateReq src n rowLen = some (req, c')) :
    hintedRows req = (if t.layered then k else 0) ∧
      c'.bare = (c.carry n rowLen upper lower maxSize k t none).bare := by
  simp only [hintUpdateReq, hupdate, carry_getElem?, Option.bind_eq_bind, Option.bind_some] at h
  by_cases hk : k = 0
  · simp only [if_pos hk, Option.some.injEq, Prod.mk.injEq] at h
    obtain ⟨rfl, rfl⟩ := h
    simp [hintedRows, hk]
  · by_cases ht : t.layered
    · simp only [if_neg hk, if_pos ht, Option.some.injEq, Prod.mk.injEq] at h
      obtain ⟨rfl, rfl⟩ := h
      simp [hintedRows, ht]
    · simp only [if_neg hk, if_neg ht, Option.bind_eq_some_iff] at h
      obtain ⟨resp, -, h⟩ := h
      rw [if_neg ht]
      cases resp with
      | error err =>
          simp only [Option.some.injEq, Prod.mk.injEq] at h
          obtain ⟨rfl, rfl⟩ := h
          exact ⟨rfl, rfl⟩
      | ok resp =>
          simp only [Option.bind_eq_some_iff, Option.some.injEq, Prod.mk.injEq] at h
          obtain ⟨client, -, rfl, rfl⟩ := h
          exact ⟨rfl, congrArg (fun l => ({ (c.carry n rowLen upper lower maxSize k t none).bare with
            layers := l } : WaterfallClient Unit)) (map_bare_set (carry_getElem? none) _)⟩

/-- The hint that arrives changes only the client of a layer. -/
theorem fetchHint_bare {hint : UpdatableHintReq P.HintReq → Option (Except String P.HintResp)}
    {src initSrc : P.Source} {n rowLen : ℕ} {req res} {c₁ : WaterfallClient P.Client}
    (hreq : c.hintUpdateReq src n rowLen = some (req, c₁))
    (h : c.fetchHint hint src initSrc n rowLen = some (res, c')) : c'.bare = c₁.bare := by
  simp only [fetchHint, hreq, Option.bind_eq_bind, Option.bind_some] at h
  cases req with
  | error err =>
      simp only [Option.some.injEq, Prod.mk.injEq] at h
      rw [h.2]
  | ok req =>
      cases req with
      | none =>
          simp only [Option.some.injEq, Prod.mk.injEq] at h
          rw [h.2]
      | some hintReq =>
          simp only [Option.bind_eq_some_iff] at h
          obtain ⟨resp, -, h⟩ := h
          cases resp with
          | error err =>
              simp only [Option.some.injEq, Prod.mk.injEq] at h
              rw [h.2]
          | ok resp =>
              simp only [Option.bind_eq_some_iff, Option.some.injEq, Prod.mk.injEq] at h
              obtain ⟨c₂, hinit, -, rfl⟩ := h
              exact initHint_bare hinit

theorem credit_of_bare {c' : WaterfallClient P.Client} (h : c'.bare = c.bare) :
    c'.credit = c.credit := by
  rw [credit, credit, loads_of_bare h, pirType_of_bare h]

/-- The credit of a row that comes in while the client has at most `M` rows. -/
def fare (smallest M : ℕ) : ℕ := 2 * Nat.log 2 (M / (smallest + 1)) + 5

/-- **One step** keeps the cascade, and what it costs is paid. -/
theorem hintStep_cost (h : c.Cascading) {a : HintAction P} {o : HintUse} {M : ℕ} (hM : o.numRows ≤ M)
    (hstep : c.hintStep a = some (o, c')) :
    c'.smallestLayerSize = c.smallestLayerSize ∧ c'.Cascading ∧
      o.hinted + c'.credit ≤ fare c.smallestLayerSize M * a.newRows + c.credit := by
  cases a with
  | update src initSrc n rowLen hint =>
      simp only [hintStep, Option.bind_eq_bind, Option.bind_eq_some_iff, Option.some.injEq,
        Prod.mk.injEq] at hstep
      obtain ⟨⟨req, c₁⟩, hreq, ⟨res, c₂⟩, hfetch, rfl, rfl⟩ := hstep
      obtain ⟨upper, lower, maxSize, k, t, -, hupdate, hcascading, hcost⟩ := h.update n rowLen
      obtain ⟨hasked, hbare⟩ := hintUpdateReq_asked hupdate hreq
      have hsame := (fetchHint_bare hreq hfetch).trans hbare
      have hlen := hcascading.length_le (numRows_of_bare hsame ▸ hM)
      have hsmall' := smallest_of_bare hsame
      refine ⟨hsmall', hcascading.of_bare hsame, ?_⟩
      rw [hasked, credit_of_bare hsame]
      refine hcost.trans (Nat.add_le_add_right (Nat.mul_le_mul_right n ?_) _)
      rw [fare]
      have hlayers : (c.carry n rowLen upper lower maxSize k t none).caps.length ≤
        Nat.log 2 (M / (c.smallestLayerSize + 1)) + 2 := hlen
      omega
  | reset =>
      simp only [hintStep, Option.some.injEq, Prod.mk.injEq] at hstep
      obtain ⟨rfl, rfl⟩ := hstep
      refine ⟨rfl, ⟨⟨rfl, by simp [WaterfallClient.reset]⟩, ?_, rfl⟩, ?_⟩
      · simp [WaterfallClient.reset, caps, Halving]
      · simp [WaterfallClient.reset, credit, loads, stash]
  | read src pos respsL respsR =>
      simp only [hintStep, Option.bind_eq_bind, Option.bind_eq_some_iff, Option.some.injEq,
        Prod.mk.injEq] at hstep
      obtain ⟨⟨⟨reqL, reqR, ctx⟩, c₁⟩, hquery, ⟨res, c₂⟩, hrec, rfl, rfl⟩ := hstep
      have hsame := (reconstruct_bare hrec).trans (query_bare hquery)
      refine ⟨smallest_of_bare hsame, h.of_bare hsame, ?_⟩
      rw [credit_of_bare hsame]
      simp

/-- **What the hints cost.** Over every run of updates, resets and reads of a client that never has
more than `M` rows, whatever the servers answer, the rows that the servers read for all hints are at
most the rows that came in, times a logarithm of `M` over the size of the smallest layer. -/
theorem hints_amortized (P : PirImpl) (pirType : PirType) (override : ℕ) {as : List (HintAction P)}
    {os : List HintUse} {c : WaterfallClient P.Client} {M : ℕ}
    (hrun : runActions hintStep (new pirType override) as = some (os, c))
    (hM : ∀ o ∈ os, o.numRows ≤ M) :
    (os.map HintUse.hinted).sum ≤
      fare (new pirType override : WaterfallClient P.Client).smallestLayerSize M *
        (as.map HintAction.newRows).sum := by
  set smallest := (new pirType override : WaterfallClient P.Client).smallestLayerSize
  have hnew : (new pirType override : WaterfallClient P.Client).Cascading :=
    ⟨⟨rfl, by simp [new]⟩, by simp [new, caps, Halving], rfl⟩
  have hzero : (new pirType override : WaterfallClient P.Client).credit = 0 := by
    simp [new, credit, loads, stash]
  have hcost := runActions_cost_le HintUse.hinted (fun a : HintAction P => fare smallest M * a.newRows)
    credit (fun c => c.smallestLayerSize = smallest ∧ c.Cascading) (fun c a o c' hc ho hstep => by
      obtain ⟨hsmall, hcascading, hpaid⟩ := hintStep_cost hc.2 ho hstep
      rw [hc.1] at hsmall hpaid
      exact ⟨hpaid, hsmall, hcascading⟩) ⟨rfl, hnew⟩ hM hrun
  rw [hzero, List.sum_map_mul_left] at hcost
  omega

/-- Eight rows come in, four at once and then one by one. -/
def eightRows : List (HintAction nonPrivate) :=
  [4, 1, 1, 1, 1].map fun n => .update () () n 1 fun _ => some (.ok (0 : ℕ))

/-- Hints are made over fourteen. -/
theorem hints_amortized_eight_rows : (∃ c, runActions hintStep (new .punc 1) eightRows =
      some ([⟨4, 4⟩, ⟨0, 5⟩, ⟨2, 6⟩, ⟨0, 7⟩, ⟨8, 8⟩], c)) ∧ 4 + 2 + 8 ≤ fare 1 8 * 8 := by
  obtain ⟨c, hrun⟩ : ∃ c, runActions hintStep (new .punc 1) eightRows =
    some ([⟨4, 4⟩, ⟨0, 5⟩, ⟨2, 6⟩, ⟨0, 7⟩, ⟨8, 8⟩], c) := ⟨_, rfl⟩
  exact ⟨⟨c, hrun⟩, hints_amortized nonPrivate .punc 1 hrun (by decide)⟩

end WaterfallClient

end SinglePassPIR.Updatable
