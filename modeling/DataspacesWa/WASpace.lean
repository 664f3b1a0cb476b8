import DataspacesWa.Patch

/-!
# Write-access spaces

The master reaches its directory through the class `WASpace` alone: which DS
reports which data, where each app is registered, and what an access makes it
prefetch. An access runs until it calls the handler of the data actions, and is
resumed when the handler returns.
-/
namespace WASpace

open Patch (DataIdT Datum getDataId)

/-- `PREFETCH_DATA_ACT_T`. -/
inductive DataAct where
  | del | prefetch
  deriving DecidableEq, Repr

/-- The arguments of `handle_data_act_cb`. -/
structure ActCall where
  act : DataAct
  toId : Int32
  datum : Datum
  deriving DecidableEq, Repr

/-- What the master calls. There is no next state where a null pointer is followed. -/
class Operations (W : Type) where
  /-- An access that is inside a call of the handler. -/
  Access : Type
  dataIdT : DataIdT
  /-- The DSs that report the datum; `none` is an error return. -/
  query : W → Datum → Option (List Int32)
  appDsId : W → Int32 → Option Int32
  regDs : W → Int32 → W
  /-- `none` is an error return. -/
  regApp : W → Int32 → Int32 → Option W
  /-- A put by an app, with whether it returns success. -/
  put : W → Int32 → Datum → Option (W × Bool)
  addAccess : W → Int32 → Datum → List Int32 → Option (W × Option (ActCall × Access))
  resume : W → Access → List Int32 → Option (W × Option (ActCall × Access))
  /-- The data a put does not refuse. -/
  accepts : Datum → Bool
  /-- The DS has put the datum itself. -/
  Recorded : W → Datum → Int32 → Prop

/-- What is in the directory stays there. -/
structure Grows {W : Type} [Operations W] (w w' : W) : Prop where
  query : ∀ d, (Operations.query w d).isSome → (Operations.query w' d).isSome
  recorded : ∀ d x, Operations.Recorded w d x → Operations.Recorded w' d x

theorem Grows.refl {W : Type} [Operations W] (w : W) : Grows w w := ⟨fun _ h => h, fun _ _ h => h⟩

/-- What the master relies on. -/
class Space (W : Type) extends Operations W where
  query_id : ∀ w d d', getDataId dataIdT d = getDataId dataIdT d' → query w d = query w d'
  query_recorded : ∀ w d x, Recorded w d x → ∃ dsIdV, query w d = some dsIdV ∧ x ∈ dsIdV
  put_query : ∀ w p d w', put w p d = some (w', true) → (query w' d).isSome
  put_recorded : ∀ w p d w' done x, put w p d = some (w', done) → appDsId w p = some x →
    accepts d = true → Recorded w' d x
  regApp_new : ∀ w p x, appDsId w p = none → (regApp w p x).isSome
  put_grows : ∀ w p d w' done, put w p d = some (w', done) → Grows w w'
  regDs_grows : ∀ w x, Grows w (regDs w x)
  regApp_grows : ∀ w p x w', regApp w p x = some w' → Grows w w'
  addAccess_grows : ∀ w p d predicted w' next, addAccess w p d predicted = some (w', next) → Grows w w'
  resume_grows : ∀ w k predicted w' next, resume w k predicted = some (w', next) → Grows w w'

end WASpace
