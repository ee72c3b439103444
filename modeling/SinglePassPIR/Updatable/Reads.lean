import SinglePassPIR.Updatable.ClientSync
import SinglePassPIR.Updatable.Routing

/-!
# Updates and reads of an updatable client

`Client.Update` and `Client.Read` of `pir_updatable.go`, as the code computes them. The servers
are their calls: `KeyUpdates` and `Hint` for an update, the two `Answer`s for a read.

A read can fail in the client of the layer that it asks, at `Left`, and at `Right`. Only
`Left`'s failure is always reported: if `Right` alone fails, `Read` returns `Left`'s error, which
is `nil`, and if the client of the layer has no query, `WaterfallClient.Query` panics.

## Main results

* `read_reports_iff` — the failures that a read reports, exactly.
-/

namespace SinglePassPIR.Updatable
open Pir

variable {P : PirImpl}

/-! ## The calls of a read -/

/-- `pir.Left` and `pir.Right` -/
inductive Side
  | left
  | right
  deriving DecidableEq, Repr

/-- The value for each server. -/
def onSide {α : Type} (left right : α) : Side → α
  | .left => left
  | .right => right

@[simp] theorem onSide_left {α : Type} (left right : α) : onSide left right .left = left := rfl
@[simp] theorem onSide_right {α : Type} (left right : α) : onSide left right .right = right := rfl

/-- What an `Answer` leaves in an `interface{}`: a list of answers, or something of another
type, here with the name that `%T` prints. -/
inductive Response (α : Type)
  | answers (resps : List α)
  | other (typeName : String)
  deriving DecidableEq, Repr

/-- The variables `responses` and `errs` of `Read`. -/
structure Calls (α : Type) where
  responses : Side → Response α
  errs : Side → Option String

section
variable {α : Type}

/-- Both variables before the calls. -/
def Calls.start : Calls α := ⟨fun _ => .other "<nil>", fun _ => none⟩

/-- One call of `Answer`, with its result. -/
def Calls.call (calls : Calls α) (s : Side) (result : Except String (Response α)) : Calls α :=
  match result with
  | .error err => { calls with errs := Function.update calls.errs s (some err) }
  | .ok resp => { calls with responses := Function.update calls.responses s resp }

/-- The order in which the calls return: `Left` first, unless they are asynchronous and `Right`
is faster. -/
def callOrder (callAsync rightFirst : Bool) : List Side :=
  if callAsync && rightFirst then [.right, .left] else [.left, .right]

/-- Both calls. -/
def answerCalls (callAsync rightFirst : Bool) (answer : Side → Except String (Response α)) :
    Calls α :=
  (callOrder callAsync rightFirst).foldl (fun calls s => calls.call s (answer s)) .start

/-- The variables after a call, by its result. -/
theorem answerCalls_eq (callAsync rightFirst : Bool)
    (answer : Side → Except String (Response α)) (s : Side) :
    (∀ err, answer s = .error err → (answerCalls callAsync rightFirst answer).errs s = some err) ∧
    ∀ resp, answer s = .ok resp → (answerCalls callAsync rightFirst answer).errs s = none ∧
      (answerCalls callAsync rightFirst answer).responses s = resp := by
  cases callAsync <;> cases rightFirst <;> cases s <;> cases hl : answer .left <;>
    cases hr : answer .right <;> simp [answerCalls, callOrder, Calls.call, Calls.start, hl, hr]

end

/-! ## Updates and reads -/

/-- The closure that `WaterfallClient.Query` returns, from the type assertions of the responses
on. -/
def WaterfallClient.reconstructFunc (c : WaterfallClient P.Client) (ctx : WaterfallCtx P)
    (left right : Response P.Resp) :
    Option (Except String (List UInt8) × WaterfallClient P.Client) :=
  match left, right with
  | .answers left, .answers right => c.reconstruct ctx left right
  | .other typeName, _ | .answers _, .other typeName =>
      some (.error ("Invalid response type: " ++ typeName ++ ", expected []interface{}"), c)

namespace WaterfallClient

/-- The layer that the loop of `Query` asks for the row: its number, its client, and the rows of
the layers with a client before it. -/
def asked (pos : ℤ) : ℕ → ℕ → List (ClientLayer P.Client) → Option (ℕ × P.Client × ℕ)
  | _, _, [] => none
  | l, layerEnd, layer :: layers =>
      match layer.pir with
      | none => asked pos (l + 1) layerEnd layers
      | some client =>
          if (layerEnd : ℤ) ≤ pos ∧ pos < (layerEnd : ℤ) + layer.numRows
            then some (l, client, layerEnd)
          else asked pos (l + 1) (layerEnd + layer.numRows) layers

/-- The client of the layer that is asked for the row returns no query. -/
def NoInnerQuery (src : ℕ → P.Source) (c : WaterfallClient P.Client) (pos : ℤ) : Prop :=
  ∃ l client layerEnd client', asked pos 0 0 c.layers = some (l, client, layerEnd) ∧
    P.query (src l) client (pos - layerEnd) = some (none, client')

/-- The loop panics when it takes the first element of a `nil` query. -/
theorem queryLoop_eq_none {src : ℕ → P.Source} {pos : ℤ} {layers : List (ClientLayer P.Client)}
    {l l' layerEnd : ℕ} {client client' : P.Client} (st : QueryLoop P)
    (hasked : asked pos l st.layerEnd layers = some (l', client, layerEnd))
    (hq : P.query (src l') client (pos - layerEnd) = some (none, client')) :
    queryLoop src pos l layers st = none := by
  induction layers generalizing l st with
  | nil => simp [asked] at hasked
  | cons layer layers ih =>
      cases hpir : layer.pir with
      | none =>
          simp only [asked, hpir] at hasked
          simp [queryLoop, queryStep, hpir, ih st hasked]
      | some layerClient =>
          simp only [asked, hpir] at hasked
          by_cases hhit : (st.layerEnd : ℤ) ≤ pos ∧ pos < (st.layerEnd : ℤ) + layer.numRows
          · simp only [if_pos hhit, Option.some.injEq, Prod.mk.injEq] at hasked
            obtain ⟨rfl, rfl, rfl⟩ := hasked
            simp [queryLoop, queryStep, hpir, hhit, hq]
          · rw [if_neg hhit] at hasked
            simp only [queryLoop, queryStep, hpir, if_neg hhit, Option.bind_eq_bind]
            cases P.dummyQuery (src l) layerClient with
            | none => rfl
            | some q =>
                simp only [Option.bind_some]
                rw [ih _ hasked]
                rfl

theorem query_eq_none {src : ℕ → P.Source} {c : WaterfallClient P.Client} {pos : ℤ}
    (h : c.NoInnerQuery src pos) : c.query src pos = none := by
  obtain ⟨l, client, layerEnd, client', hasked, hq⟩ := h
  rw [query, queryLoop_eq_none _ hasked hq]
  rfl

end WaterfallClient

namespace Client

/-- `Update`; the arguments `keyUpdates` and `hint` are calls of the server `Left`. -/
def update {ρ : Type} (C : KeyCodec ρ)
    (keyUpdates : KeyUpdatesReq → Option (Except String (KeyUpdatesResp ρ)))
    (hint : UpdatableHintReq P.HintReq → Option (Except String P.HintResp))
    (src initSrc : P.Source) (c : Client P.Client) :
    Option (Except String Unit × Client P.Client) := do
  match ← keyUpdates c.keyUpdatesReq with
  | .error err => some (.error err, c)
  | .ok keyResp =>
      match ← c.processKeyUpdate C keyResp with
      | (.error err, c) => some (.error err, c)
      | (.ok numNewRows, c) =>
          if numNewRows = 0 then some (.ok (), c)
          else do
            let (result, waterfall) ←
              c.waterfall.fetchHint hint src initSrc numNewRows keyResp.rowLen
            some (result, { c with waterfall })

/-- `Read`: the row, empty if it is `nil`, and the error. -/
def read (callAsync rightFirst : Bool)
    (answer : Side → UpdatableQueryReq P.QueryReq → Except String (Response P.Resp))
    (src : ℕ → P.Source) (c : Client P.Client) (key : UInt32) :
    Option ((List UInt8 × Option String) × Client P.Client) :=
  match c.keyToPos key with
  | none => some (([], some "key not found"), c)
  | some pos => do
      -- the closure is never `nil`
      let ((reqL, reqR, ctx), waterfall) ← c.waterfall.query src pos
      let c := { c with waterfall }
      let calls := answerCalls callAsync rightFirst fun s => answer s (onSide reqL reqR s)
      if (calls.errs .left).isSome then some (([], calls.errs .left), c)
      else if (calls.errs .right).isSome then some (([], calls.errs .left), c)
      else do
        match ← c.waterfall.reconstructFunc ctx (calls.responses .left)
            (calls.responses .right) with
        | (.error err, waterfall) => some (([], some err), { c with waterfall })
        | (.ok row, waterfall) => some ((row, none), { c with waterfall })

/-! ## The failures of a read -/

variable {callAsync rightFirst : Bool}
  {answer : Side → UpdatableQueryReq P.QueryReq → Except String (Response P.Resp)}
  {src : ℕ → P.Source} {c : Client P.Client} {key : UInt32} {pos : ℤ}

/-- What a read makes of its answers; a failure of `Right` alone leaves no trace. -/
theorem read_eq (hkey : c.keyToPos key = some pos) :
    c.read callAsync rightFirst answer src key =
      (c.waterfall.query src pos).bind fun ((reqL, reqR, ctx), waterfall) =>
        match answer .left reqL, answer .right reqR with
        | .error err, _ => some (([], some err), { c with waterfall })
        | .ok _, .error _ => some (([], none), { c with waterfall })
        | .ok left, .ok right =>
            (waterfall.reconstructFunc ctx left right).map fun
              | (.error err, waterfall) => (([], some err), { c with waterfall })
              | (.ok row, waterfall) => ((row, none), { c with waterfall }) := by
  simp only [read, hkey, Option.bind_eq_bind]
  congr 1
  funext ⟨⟨reqL, reqR, ctx⟩, waterfall⟩
  have hcalls := answerCalls_eq callAsync rightFirst fun s => answer s (onSide reqL reqR s)
  generalize answerCalls callAsync rightFirst (fun s => answer s (onSide reqL reqR s)) = calls
    at hcalls
  obtain ⟨hlErr, hlOk⟩ := hcalls .left
  obtain ⟨hrErr, hrOk⟩ := hcalls .right
  rw [onSide_left] at hlErr hlOk
  rw [onSide_right] at hrErr hrOk
  cases hl : answer .left reqL with
  | error err => simp [hlErr err hl]
  | ok left =>
      cases hr : answer .right reqR with
      | error err => simp [hlOk left hl, hrErr err hr]
      | ok right =>
          simp only [hlOk left hl, hrOk right hr, Option.isSome_none, Bool.false_eq_true,
            if_false]
          cases waterfall.reconstructFunc ctx left right with
          | none => rfl
          | some result =>
              obtain ⟨_ | row, waterfall'⟩ := result <;> rfl

/-- The read calls `s`, and gets an error. -/
def AnswerFails (answer : Side → UpdatableQueryReq P.QueryReq → Except String (Response P.Resp))
    (src : ℕ → P.Source) (c : Client P.Client) (pos : ℤ) (s : Side) : Prop :=
  ∃ reqL reqR ctx waterfall err, c.waterfall.query src pos = some ((reqL, reqR, ctx), waterfall) ∧
    answer s (onSide reqL reqR s) = .error err

/-- Every failure ends the read with an error, and a read without one has the row made from both
answers. -/
structure ReportsFailures (callAsync rightFirst : Bool)
    (answer : Side → UpdatableQueryReq P.QueryReq → Except String (Response P.Resp))
    (src : ℕ → P.Source) (c : Client P.Client) (key : UInt32) (pos : ℤ) : Prop where
  reports : c.waterfall.NoInnerQuery src pos ∨ AnswerFails answer src c pos .left ∨
      AnswerFails answer src c pos .right →
    ∃ row err c', c.read callAsync rightFirst answer src key = some ((row, some err), c')
  reconstructs : ∀ row c', c.read callAsync rightFirst answer src key = some ((row, none), c') →
    ∃ reqL reqR ctx waterfall left right waterfall',
      c.waterfall.query src pos = some ((reqL, reqR, ctx), waterfall) ∧
      answer .left reqL = .ok left ∧ answer .right reqR = .ok right ∧
      waterfall.reconstructFunc ctx left right = some (.ok row, waterfall')

/-- **The failures that a read reports**, exactly: its client must have a query, and `Right` must
not fail alone. -/
theorem read_reports_iff (hkey : c.keyToPos key = some pos) :
    ReportsFailures callAsync rightFirst answer src c key pos ↔
      ¬c.waterfall.NoInnerQuery src pos ∧
      (AnswerFails answer src c pos .right → AnswerFails answer src c pos .left) := by
  have hread := @read_eq P callAsync rightFirst answer src c key pos hkey
  constructor
  · intro h
    constructor
    · intro hinner
      obtain ⟨row, err, c', hr⟩ := h.reports (Or.inl hinner)
      rw [hread, WaterfallClient.query_eq_none hinner] at hr
      exact absurd hr.symm (Option.some_ne_none _)
    · intro hfails
      obtain ⟨row, err, c', hr⟩ := h.reports (Or.inr (Or.inr hfails))
      obtain ⟨reqL, reqR, ctx, waterfall, errR, hquery, herrR⟩ := hfails
      rw [onSide_right] at herrR
      rw [hread, hquery, Option.bind_some] at hr
      cases herrL : answer .left reqL with
      | error errL => exact ⟨reqL, reqR, ctx, waterfall, errL, hquery, herrL⟩
      | ok left => simp [herrL, herrR] at hr
  · rintro ⟨hinner, hright⟩
    constructor
    · intro hfails
      have hleft : AnswerFails answer src c pos .left := by
        rcases hfails with h | h | h
        · exact absurd h hinner
        · exact h
        · exact hright h
      obtain ⟨reqL, reqR, ctx, waterfall, err, hquery, herr⟩ := hleft
      rw [onSide_left] at herr
      exact ⟨[], err, { c with waterfall }, by simp [hread, hquery, herr]⟩
    · intro row c' hr
      rw [hread, Option.bind_eq_some_iff] at hr
      obtain ⟨⟨⟨reqL, reqR, ctx⟩, waterfall⟩, hquery, hr⟩ := hr
      dsimp only at hr
      cases hl : answer .left reqL with
      | error err => simp [hl] at hr
      | ok left =>
          cases hrt : answer .right reqR with
          | error err =>
              obtain ⟨_, _, _, _, errL, hquery', herrL⟩ :=
                hright ⟨reqL, reqR, ctx, waterfall, err, hquery, hrt⟩
              rw [hquery] at hquery'
              simp only [Option.some.injEq, Prod.mk.injEq] at hquery'
              rw [← hquery'.1.1, onSide_left, hl] at herrL
              exact absurd herrL (by simp)
          | ok right =>
              simp only [hl, hrt, Option.map_eq_some_iff] at hr
              obtain ⟨⟨result, waterfall'⟩, hrec, hr⟩ := hr
              cases result with
              | error err => simp at hr
              | ok row' =>
                  simp only [Prod.mk.injEq, and_true] at hr
                  rw [hr.1] at hrec
                  exact ⟨reqL, reqR, ctx, waterfall, left, right, waterfall', hquery, hl, hrt, hrec⟩

/-- A client of a server with one row. -/
def oneRow : Client nonPrivate.Client where
  waterfall := ⟨.nonPrivate, 1, 1, [⟨1, 0, 1, some .nonPrivate, some ()⟩], 0⟩
  initialTimestamp := 0
  defragTimestamp := 0
  numRows := 1
  rowLen := 1
  ops := [⟨5, false, []⟩]
  keyToPos := Function.update (fun _ => none) 5 (some 0)

/-- It is the client after its first update. -/
def IsOneRow (c : Client nonPrivate.Client) : Prop := ∃ s,
  newUpdatableServer.addRows id [5] [[7]] = some s ∧
  (newClient .nonPrivate 0 : Client nonPrivate.Client).update riceCodec
    (fun req => (s.keyUpdates riceCodec req).map .ok) (·.process nonPrivate s.staticDb) () () =
      some (.ok (), c)

theorem isOneRow : IsOneRow oneRow := by
  refine ⟨⟨⟨1, 1, 0, [7]⟩, 0, 0, [⟨5, false, [7]⟩], AList.singleton 5 [7]⟩, rfl, ?_⟩
  have hresp : Server.keyUpdates riceCodec
      ⟨⟨1, 1, 0, [7]⟩, 0, 0, [⟨5, false, [7]⟩], AList.singleton 5 [7]⟩ ⟨0, 0⟩ =
      some ⟨0, 0, [], some ⟨5, 0, 0, []⟩, [], 1, false⟩ := by decide +kernel
  have hkeys : updateKeys riceCodec ⟨0, 0, [], some ⟨5, 0, 0, []⟩, [], 1, false⟩ = .ok [5] := by
    decide +kernel
  have hreq : (newClient .nonPrivate 0 : Client nonPrivate.Client).keyUpdatesReq = ⟨0, 0⟩ := rfl
  have hprocess : (newClient .nonPrivate 0 : Client nonPrivate.Client).processKeyUpdate riceCodec
      ⟨0, 0, [], some ⟨5, 0, 0, []⟩, [], 1, false⟩ =
      some (.ok 1, { oneRow with waterfall := .new .nonPrivate 0 }) := by
    have hops : updateOps [5] [] = some [⟨5, false, []⟩] := by decide
    have hpos : toInt32 0 = 0 := by decide
    simp only [processKeyUpdate, startUpdate, hkeys, hops, Option.bind_eq_bind, Option.bind_some]
    simp [applyUpdate, newClient, updatePositionMap, positionStep, oneRow, hpos]
  simp only [update, hreq, hresp, hprocess, Option.map_some, Option.bind_eq_bind,
    Option.bind_some]
  rfl

theorem read_reports_one_row :
    ReportsFailures true true (fun _ _ => .ok (.answers [[7]])) (fun _ => ()) oneRow 5 0 := by
  refine (read_reports_iff rfl).mpr ⟨?_, ?_⟩
  · rintro ⟨l, client, layerEnd, client', -, hq⟩
    exact absurd (congrArg Prod.fst (Option.some.inj hq)) (Option.some_ne_none _)
  · rintro ⟨_, _, _, _, _, _, herr⟩
    simp at herr

/-- `Left` answers and `Right` fails: no row, and no error. -/
theorem right_failure_unreported : IsOneRow oneRow ∧
    ¬ReportsFailures false false
      (fun s _ => onSide (.ok (.answers [[7]])) (.error "connection refused") s)
      (fun _ => ()) oneRow 5 0 := by
  refine ⟨isOneRow, fun h => ?_⟩
  obtain ⟨row, err, c', hr⟩ := h.reports (Or.inr (Or.inr ⟨_, _, _, _, _, rfl, rfl⟩))
  have hread : oneRow.read false false
      (fun s _ => onSide (.ok (.answers [[7]])) (.error "connection refused") s)
      (fun _ => ()) 5 = some (([], none), oneRow) := rfl
  rw [hread] at hr
  simp at hr

end Client

end SinglePassPIR.Updatable
