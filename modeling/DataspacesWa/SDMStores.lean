import DataspacesWa.QTable
import DataspacesWa.RejectedAccess
import DataspacesWa.SDMControl

/-!
# What a slave and the master keep

The list of the apps, the table of the data, and at the master the directory of
the space. A call changes some of them one after the other, and may fail
between two of the changes. Whether a message to the master is sent is an
argument of the call.
-/
namespace SDMStores

open Function (update update_self update_of_ne)
open Patch (Datum isValidBox)
open QTable (Table)
open SDMControl (Msg)

/-! ## Directories -/

/-- A `WASpace` whose accesses are run to their return. There is no next state where a null pointer is
followed or a call ends without a return value; the flag is true on success. -/
class Directory (W : Type) where
  appDsId : W → Int32 → Option Int32
  regDs : W → Int32 → W
  regApp : W → Int32 → Int32 → Option W
  put : W → Int32 → Datum → Option (W × Bool)
  addAccess : W → Int32 → Datum → List Int32 → Option (W × Bool)
  /-- The app is one whose puts return an error. -/
  Refuses : W → Int32 → Prop
  put_refused : ∀ w p d, Refuses w p → put w p d = some (w, false)
  put_fails : ∀ w p d w', isValidBox d = true → put w p d = some (w', false) → Refuses w p

section MWASpace
open MWASpace (State)

theorem markov_put_fails {w w' : State} {p : Int32} {d : Datum} (h : MWASpace.put w p d = some (w', false)) :
    w.appDsId p = none := by
  rcases MWASpace.put_cases h with ⟨hnone, -, -⟩ | ⟨_, -, hdone, -⟩
  · exact hnone
  · cases hdone

theorem markov_put_refused {w : State} {p : Int32} (d : Datum) (h : w.appDsId p = none) :
    MWASpace.put w p d = some (w, false) := by
  unfold MWASpace.put
  rw [h]

instance markovDirectory : Directory State where
  appDsId := State.appDsId
  regDs := MWASpace.regDs
  regApp := MWASpace.regApp
  put := MWASpace.put
  addAccess w c d predicted := (RejectedAccess.addAccess true w c d predicted).map fun r => (r.1, !r.2)
  Refuses w p := w.appDsId p = none
  put_refused _ _ d h := markov_put_refused d h
  put_fails _ _ _ _ _ h := markov_put_fails h

end MWASpace

/-! ## The directory by box -/

namespace SWASpace

structure State (g : QTable.Geometry) where
  dsIdV : List Int32
  appDsId : Int32 → Option Int32
  qtable : QTable.RTable.State g

def nullPId : Int32 := -1

section Spatial
variable {g : QTable.Geometry} {w w' : State g} {p : Int32} {d : Datum}

def empty (g : QTable.Geometry) : State g := ⟨[], fun _ => none, Table.empty⟩

def regDs (w : State g) (dsId : Int32) : State g :=
  if dsId ∈ w.dsIdV then w else { w with dsIdV := w.dsIdV ++ [dsId] }

def regApp (w : State g) (appId dsId : Int32) : Option (State g) :=
  if (w.appDsId appId).isSome then none else some { w with appDsId := update w.appDsId appId (some dsId) }

/-- `put` with its last argument at its default. -/
def put (w : State g) (pId : Int32) (d : Datum) : Option (State g × Bool) :=
  if pId ≠ nullPId ∧ w.appDsId pId = none then some (w, false)
  else
    -- `operator[]` stores the zero it reads for the app that is no app
    let dsId := (w.appDsId pId).getD 0
    let w := { w with appDsId := update w.appDsId pId (some dsId) }
    match QTable.RTable.add w.qtable d dsId with
    | none => some (w, false)
    | some t => some ({ w with qtable := t }, true)

theorem put_refused (d : Datum) (h : p ≠ nullPId ∧ w.appDsId p = none) : put w p d = some (w, false) := by
  rw [put, if_pos h]

theorem put_fails (hd : isValidBox d = true) (h : put w p d = some (w', false)) :
    p ≠ nullPId ∧ w.appDsId p = none := by
  by_contra hreg
  simp only [put, if_neg hreg, QTable.RTable.add, hd, if_true, Option.some.injEq, Prod.mk.injEq] at h
  cases h.2

end Spatial

/-- `add_access` has no return statement. -/
instance spatialDirectory (g : QTable.Geometry) : Directory (State g) where
  appDsId := State.appDsId
  regDs := regDs
  regApp := regApp
  put := put
  addAccess _ _ _ _ := none
  Refuses w p := p ≠ nullPId ∧ w.appDsId p = none
  put_refused _ _ d h := put_refused d h
  put_fails _ _ _ _ hd h := put_fails hd h

end SWASpace

/-! ## The calls -/

/-- How a `get` ends, or that it goes on with a request to the space. -/
inductive Got where
  | ok | err | asks
  deriving DecidableEq, Repr

structure Slave (T : Type) where
  id : Int32
  appIdV : List Int32
  qtable : T

structure Master (T W : Type) where
  id : Int32
  appIdV : List Int32
  qtable : T
  space : W

section Calls
variable {T W : Type} [Table T] [Directory W]

namespace Slave

/-- `reg_app` up to its wait for the reply of the master. -/
def regApp (sent : Bool) (appId : Int32) (s : Slave T) : Slave T × List Msg × Bool :=
  if appId ∈ s.appIdV then (s, [], false)
  else
    let s := { s with appIdV := s.appIdV ++ [appId] }
    if sent then (s, [.regApp s.id appId], true) else (s, [], false)

/-- What the table returns is not looked at. -/
def put (sent notify : Bool) (d : Datum) (pId : Int32) (s : Slave T) : Slave T × List Msg × Bool :=
  let s := { s with qtable := (Table.add s.qtable d pId).getD s.qtable }
  if notify then
    if sent then (s, [.putNotification s.id pId d], true) else (s, [], false)
  else (s, [], true)

def addAccess (sent : Bool) (cId : Int32) (d : Datum) : List Msg × Bool :=
  if sent then ([.access cId d], true) else ([], false)

/-- `get` up to its wait for the reply of the master. -/
def get (sent blocking : Bool) (cId : Int32) (d : Datum) (s : Slave T) : List Msg × Got :=
  match Table.query s.qtable d with
  | none => if sent then ([.squery s.id cId blocking d], .asks) else ([], .err)
  | some _ =>
    let (out, done) := addAccess sent cId d
    (out, if done then .ok else .err)

end Slave

namespace Master

/-- The constructor: the DS of the master is in the directory. -/
def start (id : Int32) (space : W) : Master T W := ⟨id, [], Table.empty, Directory.regDs space id⟩

def regApp (appId : Int32) (m : Master T W) : Master T W × Bool :=
  if appId ∈ m.appIdV then (m, false)
  else
    match Directory.regApp m.space appId m.id with
    | none => (m, false)
    | some w => ({ m with space := w, appIdV := m.appIdV ++ [appId] }, true)

/-- The notification of the sync point between the two changes is left out. -/
def put (d : Datum) (pId : Int32) (m : Master T W) : Option (Master T W × Bool) :=
  match Table.add m.qtable d pId with
  | none => some (m, false)
  | some t => (Directory.put m.space pId d).map fun r => ({ m with qtable := t, space := r.1 }, r.2)

/-- `get` up to the call of `sdm_mquery`. -/
def get (blocking : Bool) (cId : Int32) (d : Datum) (predicted : List Int32) (m : Master T W) :
    Option (Master T W × Got) :=
  if cId ∉ m.appIdV then some (m, .err)
  else
    match Table.query m.qtable d with
    | none => some (m, if blocking then .asks else .err)
    | some _ => (Directory.addAccess m.space cId d predicted).map fun r =>
        ({ m with space := r.1 }, if r.2 then .ok else .err)

end Master

end Calls

/-! ## Failed calls -/

/-- A call that fails has changed nothing and sent nothing, and once its cause is mended, in the circumstances
or in the state, it behaves like a first call. -/
def Atomic {ε σ μ : Type} (call : ε → σ → Option (σ × List μ × Bool)) (e : ε) (s : σ) : Prop :=
  ∀ s' out, call e s = some (s', out, false) →
    s' = s ∧ out = [] ∧ ∀ e' (mend : σ → σ), call e' (mend s') = call e' (mend s)

theorem atomic_iff {ε σ μ : Type} {call : ε → σ → Option (σ × List μ × Bool)} {e : ε} {s : σ} :
    Atomic call e s ↔ ∀ s' out, call e s = some (s', out, false) → s' = s ∧ out = [] := by
  constructor
  · intro h s' out hcall
    exact ⟨(h s' out hcall).1, (h s' out hcall).2.1⟩
  · intro h s' out hcall
    obtain ⟨rfl, hout⟩ := h s' out hcall
    exact ⟨rfl, hout, fun _ _ => rfl⟩

section Atomic
variable {T W : Type}

theorem slave_regApp_atomic (sent : Bool) (appId : Int32) (s : Slave T) :
    Atomic (fun sent s => some (Slave.regApp sent appId s)) sent s ↔ appId ∈ s.appIdV ∨ sent = true := by
  rw [atomic_iff]
  by_cases happ : appId ∈ s.appIdV
  · simp [Slave.regApp, happ]
  · cases sent with
    | true => simp [Slave.regApp, happ]
    | false =>
      -- the app is in the list before the message fails
      have hcall : Slave.regApp false appId s = ({ s with appIdV := s.appIdV ++ [appId] }, [], false) := by
        simp [Slave.regApp, happ]
      refine iff_of_false ?_ (by simp [happ])
      intro h
      have hsame := congrArg Slave.appIdV (h _ _ (congrArg some hcall)).1
      simp at hsame

variable [Table T] [Directory W]

theorem slave_put_atomic (sent notify : Bool) (d : Datum) (pId : Int32) (s : Slave T) :
    Atomic (fun sent s => some (Slave.put sent notify d pId s)) sent s ↔
      notify = false ∨ sent = true ∨ isValidBox d = false := by
  rw [atomic_iff]
  cases notify with
  | false => simp [Slave.put]
  | true =>
    cases sent with
    | true => simp [Slave.put]
    | false =>
      have hcall : Slave.put false true d pId s =
          ({ s with qtable := (Table.add s.qtable d pId).getD s.qtable }, [], false) := rfl
      have hadd := Table.add_isSome s.qtable d pId
      cases ht : Table.add s.qtable d pId with
      | none =>
        rw [ht] at hadd
        simp [hcall, ht, ← hadd]
      | some t =>
        rw [ht] at hadd
        refine iff_of_false ?_ (by simp [← hadd])
        intro h
        have hsame := congrArg Slave.qtable (h _ _ (congrArg some hcall)).1
        exact Table.add_changes _ _ _ _ ht (by simpa [ht] using hsame)

theorem master_put_atomic (d : Datum) (pId : Int32) (m : Master T W) :
    Atomic (fun (_ : Unit) m => (Master.put d pId m).map fun r => (r.1, ([] : List Msg), r.2)) () m ↔
      isValidBox d = false ∨ ¬Directory.Refuses m.space pId := by
  rw [atomic_iff]
  have hadd := Table.add_isSome m.qtable d pId
  cases ht : Table.add m.qtable d pId with
  | none =>
    rw [ht] at hadd
    simp [Master.put, ht, ← hadd]
  | some t =>
    rw [ht, Option.isSome_some] at hadd
    by_cases hrefuses : Directory.Refuses m.space pId
    · -- the table has the data before the directory refuses it
      refine iff_of_false ?_ (by simp [← hadd, hrefuses])
      intro h
      have hput : Master.put d pId m = some ({ m with qtable := t }, false) := by
        simp [Master.put, ht, Directory.put_refused m.space pId d hrefuses]
      have hsame := congrArg Master.qtable (h { m with qtable := t } [] (by rw [hput]; rfl)).1
      exact Table.add_changes _ _ _ _ ht hsame
    · refine iff_of_true ?_ (.inr hrefuses)
      intro m' out hput
      simp only [Master.put, ht, Option.map_map, Option.map_eq_some_iff, Function.comp_apply, Prod.mk.injEq] at hput
      obtain ⟨⟨w, done⟩, hspace, -, -, rfl⟩ := hput
      exact absurd (Directory.put_fails _ _ _ _ hadd.symm hspace) hrefuses

/-- Which failing calls are atomic. A slave's `reg_app` is where the app is registered already or the message
is sent, a slave's `put` where there is no message or it is sent or the box is refused, and the master's `put`
where the box is refused or the directory does not refuse the app. -/
theorem failures_atomic_iff (s : Slave T) (m : Master T W) (sent notify : Bool) (appId : Int32) (d : Datum) :
    (Atomic (fun sent s => some (Slave.regApp sent appId s)) sent s ↔ appId ∈ s.appIdV ∨ sent = true) ∧
    (Atomic (fun sent s => some (Slave.put sent notify d appId s)) sent s ↔
      notify = false ∨ sent = true ∨ isValidBox d = false) ∧
    (Atomic (fun (_ : Unit) m => (Master.put d appId m).map fun r => (r.1, ([] : List Msg), r.2)) () m ↔
      isValidBox d = false ∨ ¬Directory.Refuses m.space appId) :=
  ⟨slave_regApp_atomic sent appId s, slave_put_atomic sent notify d appId s, master_put_atomic d appId m⟩

end Atomic

/-- The datum of one box at the origin. -/
def box (key : String) : Datum := ⟨key, 0, .replicate _ 0, .replicate _ 1⟩

/-- An app whose registration is not sent cannot be registered any more, and what is not notified or is refused
is in the table. -/
theorem failed_calls_show :
    ∃ (s : Slave QTable.KVTable.State) (m : Master QTable.KVTable.State MWASpace.State) (d : Datum),
      (Slave.regApp false 7 s).2 = ([], false) ∧
      (Slave.regApp true 7 (Slave.regApp false 7 s).1).2 = ([], false) ∧
      (Slave.regApp true 7 s).2 = ([.regApp 2 7], true) ∧
      (Slave.put false true d 7 s).2 = ([], false) ∧
      Slave.get true false 7 d (Slave.put false true d 7 s).1 = ([.access 7 d], .ok) ∧
      Slave.get true false 7 d s = ([.squery 2 7 false d], .asks) ∧
      (Master.put d 7 m).map (fun r => (Table.query r.1.qtable d, MWASpace.query r.1.space d, r.2)) =
        some (some [7], none, false) ∧
      Table.query m.qtable d = none ∧
      ¬Atomic (fun sent s => some (Slave.regApp sent 7 s)) false s ∧
      ¬Atomic (fun sent s => some (Slave.put sent true d 7 s)) false s ∧
      ¬Atomic (fun (_ : Unit) m => (Master.put d 7 m).map fun r => (r.1, ([] : List Msg), r.2)) () m := by
  refine ⟨⟨2, [], Table.empty⟩, Master.start 1 (MWASpace.empty 1 true), box "u", by decide, by decide, by decide,
    by decide, by decide, by decide, by decide, by decide, ?_, ?_, ?_⟩
  · rw [slave_regApp_atomic]
    decide
  · rw [slave_put_atomic]
    decide
  · rw [master_put_atomic]
    intro h
    rcases h with hbox | hknown
    · exact absurd hbox (by decide)
    · exact hknown rfl

end SDMStores
