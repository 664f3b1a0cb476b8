import DataspacesWa.MsgCoder
import DataspacesWa.ReadYourWrites

/-!
# The remote interaction manager

`RIManager` answers the apps of its DS and moves data to and from other DSs.
Behind `sdm_slave_` there is a slave or the master. A put or a get may wait for
the registration of its app, and a get for a transfer that is under way and for
the space; when such a wait ends is left open. The metadata of the data is kept under the hash of the data id.
-/
namespace RIManager

open Function (update update_self update_of_ne)
open Patch (Datum DataIdT getDataId hashStr)
open MsgCoder (MsgMap Fields LongFields decode decodeLong dataIdOfMap)
open QTable (Table)
open SDMStores
open ReadYourWrites

/-! ## The node of the manager -/

/-- What is called through `sdm_slave_`. `Call` is what a call depends on besides the node, and `step` all that
can happen at the node. -/
class Control (N : Type) where
  Call : Type
  Op : Type
  step : N → Op → Option N
  id : N → Int32
  /-- The local query table has the datum. -/
  Has : N → Datum → Prop
  /-- As its constructor leaves it. -/
  Fresh : N → Prop
  Sound : N → Prop
  /-- A get of data in the table succeeds. -/
  Served : N → Call → Int32 → Datum → Prop
  regApp : Call → Int32 → N → N
  /-- `regApp` waits for a reply of the space. -/
  Registers : Call → Int32 → N → Prop
  decRegisters : ∀ call a n, Decidable (Registers call a n)
  put : Call → Bool → Datum → Int32 → N → Option (N × Bool)
  get : Call → Bool → Int32 → Datum → N → Option (N × Got)
  /-- `get` from the reply of the space on. -/
  getAgain : Call → Int32 → Datum → N → Option (N × Bool)
  regApp_step : ∀ call a n, ∃ op, step n op = some (regApp call a n)
  put_step : ∀ call notify d p n r, put call notify d p n = some r → ∃ op, step n op = some r.1
  get_step : ∀ call blocking c d n r, get call blocking c d n = some r → ∃ op, step n op = some r.1
  getAgain_step : ∀ call c d n r, getAgain call c d n = some r → ∃ op, step n op = some r.1
  fresh_sound : ∀ n, Fresh n → Sound n
  sound_step : ∀ n op n', Sound n → step n op = some n' → Sound n'
  has_step : ∀ n op n' d, Has n d → step n op = some n' → Has n' d
  id_step : ∀ n op n', step n op = some n' → id n' = id n
  get_iff : ∀ n call blocking c d, Sound n → Has n d →
    ((∃ n', get call blocking c d n = some (n', .ok)) ↔ Served n call c d)

instance {N : Type} [Control N] (call : Control.Call N) (a : Int32) (n : N) : Decidable (Control.Registers call a n) :=
  Control.decRegisters call a n

/-- Which messages of a call of a slave are sent: the one that registers the app, and the one of the call itself. -/
structure Sent where
  regApp : Bool
  own : Bool
  deriving DecidableEq, Repr

section Nodes
variable {T W : Type} [Table T] [Answering W]

theorem slaveStep_id {s s' : Slave T} {op : SlaveOp} (h : slaveStep s op = some s') : s'.id = s.id := by
  cases op with
  | regApp sent appId =>
    obtain rfl := Option.some.inj h
    unfold Slave.regApp
    split
    · rfl
    · cases sent <;> rfl
  | put sent notify d pId =>
    obtain rfl := Option.some.inj h
    unfold Slave.put
    cases notify <;> cases sent <;> rfl
  | get sent blocking cId d =>
    obtain rfl := Option.some.inj h
    rfl

/-- A call at a slave depends on which of its messages are sent. -/
instance slaveControl : Control (Slave T) where
  Call := Sent
  Op := SlaveOp
  step := slaveStep
  id := Slave.id
  Has s d := (Table.query s.qtable d).isSome
  Fresh s := ∃ id, s = ⟨id, [], Table.empty⟩
  Sound _ := True
  Served _ sent _ _ := sent.own = true
  regApp sent appId s := (Slave.regApp sent.regApp appId s).1
  Registers sent appId s := appId ∉ s.appIdV ∧ sent.regApp = true
  decRegisters _ _ _ := inferInstance
  put sent notify d pId s :=
    let (s, _, done) := Slave.put sent.own notify d pId s
    some (s, done)
  get sent blocking cId d s := some (s, (Slave.get sent.own blocking cId d s).2)
  getAgain _ _ d s := some (s, (Table.query s.qtable d).isSome)
  regApp_step sent appId _ := ⟨.regApp sent.regApp appId, rfl⟩
  put_step sent notify d pId _ _ h := ⟨.put sent.own notify d pId, by rw [← Option.some.inj h]; rfl⟩
  get_step sent blocking cId d _ _ h := ⟨.get sent.own blocking cId d, by rw [← Option.some.inj h]; rfl⟩
  getAgain_step sent cId d _ _ h := ⟨.get sent.own true cId d, by rw [← Option.some.inj h]; rfl⟩
  fresh_sound _ _ := trivial
  sound_step _ _ _ _ _ := trivial
  has_step _ _ _ _ hd hs := slaveStep_keeps hs hd
  id_step _ _ _ hs := slaveStep_id hs
  get_iff s sent blocking cId d _ hd := by
    have hget : (Slave.get sent.own blocking cId d s).2 = .ok ↔ (Table.query s.qtable d).isSome ∧ sent.own = true :=
      slave_get_iff
    simp only [Option.some.injEq, Prod.mk.injEq, exists_eq_left', hget]
    exact and_iff_right hd

theorem masterStep_id {m m' : Master T W} {op : MasterOp} (h : masterStep m op = some m') : m'.id = m.id := by
  cases op with
  | regApp appId =>
    obtain rfl := Option.some.inj h
    unfold Master.regApp
    split
    · rfl
    · split <;> rfl
  | put d pId =>
    obtain ⟨r, hput, rfl⟩ := Option.map_eq_some_iff.mp h
    unfold Master.put at hput
    split at hput
    · rw [← Option.some.inj hput]
    · obtain ⟨_, -, rfl⟩ := Option.map_eq_some_iff.mp hput
      rfl
  | get blocking cId d predicted =>
    obtain ⟨r, hget, rfl⟩ := Option.map_eq_some_iff.mp h
    unfold Master.get at hget
    split at hget
    · rw [← Option.some.inj hget]
    · split at hget
      · rw [← Option.some.inj hget]
      · obtain ⟨_, -, rfl⟩ := Option.map_eq_some_iff.mp hget
        rfl
  | connUp id =>
    obtain rfl := Option.some.inj h
    rfl
  | regAppFor appId id =>
    obtain rfl := Option.some.inj h
    rfl
  | putNotification pId d =>
    obtain ⟨_, -, rfl⟩ := Option.map_eq_some_iff.mp h
    rfl
  | access cId d predicted =>
    obtain ⟨_, -, rfl⟩ := Option.map_eq_some_iff.mp h
    rfl

/-- The part of `SDMMaster::get` after `sdm_mquery`. -/
def masterGetAgain (predicted : List Int32) (cId : Int32) (d : Datum) (m : Master T W) : Option (Master T W × Bool) :=
  match Table.query m.qtable d with
  | none => some (m, false)
  | some _ => (Directory.addAccess m.space cId d predicted).map fun r => ({ m with space := r.1 }, r.2)

theorem masterGetAgain_step {predicted : List Int32} {cId : Int32} {d : Datum} {m : Master T W} {r : Master T W × Bool}
    (h : masterGetAgain predicted cId d m = some r) : ∃ op, masterStep m op = some r.1 := by
  unfold masterGetAgain at h
  split at h
  · rename_i hq
    refine ⟨.get false cId d predicted, ?_⟩
    rw [← Option.some.inj h, masterStep, Master.get]
    split <;> simp [hq]
  · obtain ⟨⟨w, done⟩, hacc, rfl⟩ := Option.map_eq_some_iff.mp h
    exact ⟨.access cId d predicted, by rw [masterStep, hacc]; rfl⟩

theorem masterServed_iff {m : Master T W} (hm : Inv m) {d : Datum} (hd : (Table.query m.qtable d).isSome)
    (predicted : List Int32) (blocking : Bool) (cId : Int32) :
    (∃ m', Master.get blocking cId d predicted m = some (m', .ok)) ↔
      cId ∈ m.appIdV ∧ Answering.Elsewhere m.space m.id d := by
  by_cases hc : cId ∈ m.appIdV
  · rw [master_get_iff hm hc, and_iff_right hd, and_iff_right hc]
  · simp [Master.get, hc]

/-- A call at the master depends on what its predictor picks. -/
instance masterControl : Control (Master T W) where
  Call := List Int32
  Op := MasterOp
  step := masterStep
  id := Master.id
  Has m d := (Table.query m.qtable d).isSome
  Fresh m := ∃ id w, Answering.Fresh w ∧ m = Master.start id w
  Sound := Inv
  Served m _ cId d := cId ∈ m.appIdV ∧ Answering.Elsewhere m.space m.id d
  regApp _ appId m := (m.regApp appId).1
  Registers _ _ _ := False
  decRegisters _ _ _ := inferInstance
  put _ _ d pId m := m.put d pId
  get predicted blocking cId d m := m.get blocking cId d predicted
  getAgain := masterGetAgain
  regApp_step _ appId _ := ⟨.regApp appId, rfl⟩
  put_step _ _ d pId _ _ h := ⟨.put d pId, by rw [masterStep, h]; rfl⟩
  get_step predicted blocking cId d _ _ h := ⟨.get blocking cId d predicted, by rw [masterStep, h]; rfl⟩
  getAgain_step _ _ _ _ _ h := masterGetAgain_step h
  fresh_sound _ h := by
    obtain ⟨id, w, hw, rfl⟩ := h
    exact start_inv id hw
  sound_step _ _ _ hm hs := masterStep_inv hm hs
  has_step _ _ _ _ hd hs := masterStep_keeps hs hd
  id_step _ _ _ hs := masterStep_id hs
  get_iff _ predicted blocking cId _ hm hd := masterServed_iff hm hd predicted blocking cId

end Nodes

/-! ## The manager -/

/-- `trans_protocol`. -/
inductive Protocol where
  | infiniband | tcp | gridftp
  deriving DecidableEq, Repr

structure Config where
  dataIdT : DataIdT
  protocol : Protocol

/-- `data_info`; there is no `gdim` once its memory is freed. -/
structure DataInfo where
  dataType : String
  size : Int32
  gdim : Option (List UInt64)
  deriving DecidableEq, Repr

/-- A thread of `handle_get` or `handle_put` that waits in `reg_app`. -/
inductive Registering where
  | get (blocking : Bool) (cId : Int32) (getMap : MsgMap)
  | put (pId : Int32) (putMap : MsgMap)

/-- A thread of `handle_get` that waits. -/
structure Get where
  blocking : Bool
  cId : Int32
  getMap : MsgMap
  datum : Datum

/-- What is sent to an app, with `ds_id`. -/
inductive Reply where
  | get (blocking : Bool) (cId dsId : Int32)
  | put (pId dsId : Int32)
  deriving DecidableEq, Repr

structure State (N : Type) where
  node : N
  failedRemoteGetDataIdV : List String
  busyDataIdV : List String
  /-- The keys of `data_id__recved_size_map`. -/
  recving : List String
  /-- The keys of `data_id__remote_get_t_map`. -/
  remoteGetT : List String
  /-- The threads of `remote_get` that are in `wa_get`. -/
  fetching : List (Datum × DataInfo)
  dataInfo : UInt32 → Option DataInfo
  transInfo : UInt32 → Bool
  registering : List Registering
  /-- The threads of `handle_get` that wait for a transfer, and for the space. -/
  waiting : List Get
  asking : List Get

def start {N : Type} (node : N) : State N where
  node := node
  failedRemoteGetDataIdV := []
  busyDataIdV := []
  recving := []
  remoteGetT := []
  fetching := []
  dataInfo _ := none
  transInfo _ := false
  registering := []
  waiting := []
  asking := []

/-- The first `NDIM` coordinates of an array; a shorter array is read past its end. -/
def corner : List UInt64 → Option (Vector UInt64 Patch.ndim)
  | a :: b :: c :: _ => some ⟨[a, b, c].toArray, rfl⟩
  | _ => none

def datumOf (f : Fields) : Option Datum :=
  (corner f.lb).bind fun lb => (corner f.ub).map fun ub => ⟨f.key, f.ver, lb, ub⟩

def infoOf (f : LongFields) : DataInfo := ⟨f.dataType, f.size, some f.gdim⟩

section Manager
variable {N : Type} [Control N] (cfg : Config)

/-- The id that is sent for an error. -/
def noDs : Int32 := -1

/-- `handle_get` from the check of the failed transfers on. -/
def answerGet (s : State N) (call : Control.Call N) (g : Get) : Option (State N × Option Reply) :=
  let dataId := dataIdOfMap g.getMap cfg.dataIdT
  if dataId ∈ s.failedRemoteGetDataIdV then some (s, some (.get g.blocking g.cId noDs))
  else
    (Control.get call g.blocking g.cId g.datum s.node).map fun r =>
      let s := { s with node := r.1 }
      match r.2 with
      | .ok => ({ s with busyDataIdV := s.busyDataIdV ++ [dataId] },
          some (.get g.blocking g.cId (Control.id r.1)))
      | .err => (s, some (.get g.blocking g.cId noDs))
      | .asks => ({ s with asking := s.asking ++ [g] }, none)

/-- `handle_get` from the end of `reg_app` on. -/
def serveGet (s : State N) (call : Control.Call N) (blocking : Bool) (cId : Int32) (getMap : MsgMap) :
    Option (State N × Option Reply) :=
  match decodeLong getMap with
  | .ok f => (datumOf f.toFields).bind fun d =>
    let g : Get := ⟨blocking, cId, getMap, d⟩
    if getDataId cfg.dataIdT d ∈ s.recving then some ({ s with waiting := s.waiting ++ [g] }, none)
    else answerGet cfg s call g
  | .err => some (s, some (.get blocking cId noDs))
  | _ => none

/-- `reg_app`, up to its wait if it waits. -/
def regApp (s : State N) (call : Control.Call N) (a : Int32) (r : Registering) : State N × Bool :=
  let s' := { s with node := Control.regApp call a s.node }
  if Control.Registers call a s.node then ({ s' with registering := s'.registering ++ [r] }, true) else (s', false)

def handleGet (s : State N) (call : Control.Call N) (blocking : Bool) (cId : Int32) (getMap : MsgMap) :
    Option (State N × Option Reply) :=
  let r := regApp s call cId (.get blocking cId getMap)
  if r.2 then some (r.1, none) else serveGet cfg r.1 call blocking cId getMap

/-- A get that has waited for a transfer. -/
def goOn (s : State N) (call : Control.Call N) (i : Nat) : Option (State N × Option Reply) :=
  s.waiting[i]?.bind fun g => answerGet cfg { s with waiting := s.waiting.eraseIdx i } call g

/-- A get that has waited for the space. -/
def answered (s : State N) (call : Control.Call N) (i : Nat) : Option (State N × Option Reply) :=
  s.asking[i]?.bind fun g =>
    (Control.getAgain call g.cId g.datum s.node).map fun r =>
      let s := { s with node := r.1, asking := s.asking.eraseIdx i }
      if r.2 then
        ({ s with busyDataIdV := s.busyDataIdV ++ [dataIdOfMap g.getMap cfg.dataIdT] },
          some (.get g.blocking g.cId (Control.id r.1)))
      else (s, some (.get g.blocking g.cId noDs))

/-- Erasing what is not there is undefined. -/
def handleGetDone (s : State N) (msgMap : MsgMap) : Option (State N) :=
  let dataId := dataIdOfMap msgMap cfg.dataIdT
  if dataId ∈ s.busyDataIdV then some { s with busyDataIdV := s.busyDataIdV.erase dataId } else none

/-- `handle_put` from the end of `reg_app` on, with the data id and the metadata where the put is accepted. -/
def servePut (s : State N) (call : Control.Call N) (pId : Int32) (putMap : MsgMap) :
    Option (State N × Reply × Option (String × DataInfo)) :=
  match decodeLong putMap with
  | .ok f => (datumOf f.toFields).bind fun d =>
    (Control.put call true d pId s.node).map fun r =>
      let s := { s with node := r.1 }
      if r.2 then
        let dataId := getDataId cfg.dataIdT d
        ({ s with dataInfo := update s.dataInfo (hashStr dataId) (some (infoOf f)) },
          .put pId (Control.id r.1), some (dataId, infoOf f))
      else (s, .put pId noDs, none)
  | .err => some (s, .put pId noDs, none)
  | _ => none

def handlePut (s : State N) (call : Control.Call N) (pId : Int32) (putMap : MsgMap) : Option (State N × Option Reply) :=
  let r := regApp s call pId (.put pId putMap)
  if r.2 then some (r.1, none) else (servePut cfg r.1 call pId putMap).map fun x => (x.1, some x.2.1)

/-- A get or a put that has waited for its registration. -/
def registered (s : State N) (call : Control.Call N) (i : Nat) : Option (State N × Option Reply) :=
  s.registering[i]?.bind fun r =>
    let s := { s with registering := s.registering.eraseIdx i }
    match r with
    | .get blocking cId getMap => serveGet cfg s call blocking cId getMap
    | .put pId putMap => (servePut cfg s call pId putMap).map fun x => (x.1, some x.2.1)

/-- A `remote_get` up to the transfer. -/
def remoteGet (s : State N) (msgMap : MsgMap) : Option (State N) :=
  match decodeLong msgMap with
  | .ok f => (datumOf f.toFields).map fun d =>
    let dataId := getDataId cfg.dataIdT d
    { s with
      recving := if dataId ∈ s.recving then s.recving else s.recving ++ [dataId]
      fetching := s.fetching ++ [(d, infoOf f)] }
  | .err => some s
  | _ => none

def handleTinfoQuery (s : State N) (msgMap : MsgMap) : Option (State N) :=
  if cfg.protocol = .gridftp then some s
  else
    let dataId := dataIdOfMap msgMap cfg.dataIdT
    remoteGet cfg { s with
      remoteGetT := if dataId ∈ s.remoteGetT then s.remoteGetT else s.remoteGetT ++ [dataId] } msgMap

/-- The process exits on the message of another protocol. -/
def handleGridftpPut (s : State N) (msgMap : MsgMap) : Option (State N) :=
  if cfg.protocol = .gridftp then remoteGet cfg s msgMap else none

def handleTinfoQueryReply (s : State N) (msgMap : MsgMap) : State N :=
  { s with transInfo := update s.transInfo (hashStr (dataIdOfMap msgMap cfg.dataIdT)) true }

/-- A `remote_get` from the end of its transfer on. The memory of `gdim` is freed when the move reply is sent. -/
def remoteGetDone (s : State N) (call : Control.Call N) (arrived replied : Bool) (i : Nat) : Option (State N) :=
  s.fetching[i]?.bind fun (d, info) =>
    let s := { s with fetching := s.fetching.eraseIdx i }
    let dataId := getDataId cfg.dataIdT d
    if arrived then
      if dataId ∈ s.recving then
        (Control.put call false d (-1) s.node).map fun r =>
          let s := { s with node := r.1, recving := s.recving.erase dataId }
          let info := { info with gdim := if replied then none else info.gdim }
          if r.2 then { s with dataInfo := update s.dataInfo (hashStr dataId) (some info) } else s
      else none
    else some s

/-- There is no thread to interrupt for a transfer that was not asked for. -/
def handleFailRemoteGet (s : State N) (msgMap : MsgMap) : Option (State N) :=
  let dataId := dataIdOfMap msgMap cfg.dataIdT
  if dataId ∈ s.remoteGetT then some { s with
    failedRemoteGetDataIdV := s.failedRemoteGetDataIdV ++ [dataId]
    remoteGetT := s.remoteGetT.erase dataId
    recving := s.recving.erase dataId }
  else none

/-! ## Moves -/

/-- The metadata that `handle_dm_move` puts into its query; the query is left out by a `gridftp` that finds the
id of the DS among the hashes. There is no result where the pointer is null. -/
def queryInfo (s : State N) (msgMap : MsgMap) (toId : Int32) : Option (Option DataInfo) :=
  if s.transInfo toId.toUInt32 = false ∨ cfg.protocol ≠ .gridftp then
    (s.dataInfo (hashStr (dataIdOfMap msgMap cfg.dataIdT))).map some
  else some none

/-- The metadata that `remote_put` reads and sends by. -/
def remotePutInfo (s : State N) (msgMap : MsgMap) : Option DataInfo :=
  match decode msgMap with
  | .ok f => (datumOf f).bind fun d => s.dataInfo (hashStr (getDataId cfg.dataIdT d))
  | _ => none

/-! ## Runs -/

inductive Action (N : Type) [Control N] where
  | get (call : Control.Call N) (blocking : Bool) (cId : Int32) (getMap : MsgMap)
  | registered (call : Control.Call N) (i : Nat)
  | goOn (call : Control.Call N) (i : Nat)
  | answered (call : Control.Call N) (i : Nat)
  | getDone (msgMap : MsgMap)
  | put (call : Control.Call N) (pId : Int32) (putMap : MsgMap)
  | tinfoQuery (msgMap : MsgMap)
  | tinfoQueryReply (msgMap : MsgMap)
  | gridftpPut (msgMap : MsgMap)
  | remoteGetDone (call : Control.Call N) (arrived replied : Bool) (i : Nat)
  | failRemoteGet (msgMap : MsgMap)
  | dmMove (msgMap : MsgMap) (toId : Int32)
  | control (op : Control.Op N)

/-- An action, with the reply to the app. -/
def handle (s : State N) : Action N → Option (State N × Option Reply)
  | .get call blocking cId getMap => handleGet cfg s call blocking cId getMap
  | .registered call i => registered cfg s call i
  | .goOn call i => goOn cfg s call i
  | .answered call i => answered cfg s call i
  | .getDone msgMap => (handleGetDone cfg s msgMap).map fun s => (s, none)
  | .put call pId putMap => handlePut cfg s call pId putMap
  | .tinfoQuery msgMap => (handleTinfoQuery cfg s msgMap).map fun s => (s, none)
  | .tinfoQueryReply msgMap => some (handleTinfoQueryReply cfg s msgMap, none)
  | .gridftpPut msgMap => (handleGridftpPut cfg s msgMap).map fun s => (s, none)
  | .remoteGetDone call arrived replied i => (remoteGetDone cfg s call arrived replied i).map fun s => (s, none)
  | .failRemoteGet msgMap => (handleFailRemoteGet cfg s msgMap).map fun s => (s, none)
  | .dmMove msgMap toId =>
    (queryInfo cfg s msgMap toId).bind fun _ => (remotePutInfo cfg s msgMap).map fun _ => (s, none)
  | .control op => (Control.step s.node op).map fun n => ({ s with node := n }, none)

def step (s : State N) (a : Action N) : Option (State N) := (handle cfg s a).map (·.1)

/-! ## What an action does -/

/-- The id that a message of a failed transfer enters into the list. -/
def failedBy : Action N → List String
  | .failRemoteGet msgMap => [dataIdOfMap msgMap cfg.dataIdT]
  | _ => []

/-- The ids of the failed transfers of a run. -/
def failedIn (labels : List (Action N)) : List String := labels.flatMap (failedBy cfg)

/-- The node has taken some steps. -/
def Moved (n n' : N) : Prop := Transition.Reaches Control.step Transition.free n n'

variable {cfg} {s s' : State N} {r : Option Reply} {call : Control.Call N} {n n' : N} {d : Datum}

theorem Moved.one {op : Control.Op N} (h : Control.step n op = some n') : Moved n n' :=
  .single ⟨op, trivial, h⟩

theorem Moved.regApp (call : Control.Call N) (a : Int32) (n : N) : Moved n (Control.regApp call a n) := by
  obtain ⟨op, hop⟩ := Control.regApp_step call a n
  exact .one hop

theorem Moved.put {notify : Bool} {p : Int32} {x : N × Bool} (h : Control.put call notify d p n = some x) :
    Moved n x.1 := by
  obtain ⟨op, hop⟩ := Control.put_step _ _ _ _ _ _ h
  exact .one hop

theorem Moved.sound (h : Moved n n') (hn : Control.Sound n) : Control.Sound n' :=
  h.invariant Control.Sound hn fun _ _ _ hu _ hs => Control.sound_step _ _ _ hu hs

theorem Moved.has (h : Moved n n') (hn : Control.Has n d) : Control.Has n' d :=
  h.invariant (Control.Has · d) hn fun _ _ _ hu _ hs => Control.has_step _ _ _ _ hu hs

theorem Moved.id (h : Moved n n') : Control.id n' = Control.id n :=
  h.invariant (fun u => Control.id u = Control.id n) rfl fun _ _ _ hu _ hs => (Control.id_step _ _ _ hs).trans hu

/-- What the answer of a get leaves as it is. -/
structure Answered (s s' : State N) : Prop where
  node : Moved s.node s'.node
  failed : s'.failedRemoteGetDataIdV = s.failedRemoteGetDataIdV

theorem Answered.noFailure (h : Answered s s') {a : Action N} (ha : failedBy cfg a = []) :
    Moved s.node s'.node ∧ s'.failedRemoteGetDataIdV = s.failedRemoteGetDataIdV ++ failedBy cfg a := by
  rw [ha, List.append_nil]
  exact ⟨h.node, h.failed⟩

theorem answerGet_answered {g : Get} (h : answerGet cfg s call g = some (s', r)) : Answered s s' := by
  unfold answerGet at h
  dsimp only at h
  split at h
  · obtain ⟨rfl, -⟩ := Prod.mk.inj (Option.some.inj h)
    exact ⟨.refl, rfl⟩
  · obtain ⟨⟨n, got⟩, hget, heq⟩ := Option.map_eq_some_iff.mp h
    obtain ⟨op, hop⟩ := Control.get_step _ _ _ _ _ _ hget
    cases got <;>
    · obtain ⟨rfl, -⟩ := Prod.mk.inj heq
      exact ⟨.one hop, rfl⟩

theorem Answered.trans {t : State N} (h : Answered s t) (h' : Answered t s') : Answered s s' :=
  ⟨h.node.trans h'.node, h'.failed.trans h.failed⟩

theorem regApp_answered (a : Int32) (x : Registering) : Answered s (regApp s call a x).1 := by
  have hreg : Moved s.node (Control.regApp call a s.node) := .regApp call a s.node
  unfold regApp
  dsimp only
  split
  · exact ⟨hreg, rfl⟩
  · exact ⟨hreg, rfl⟩

theorem serveGet_answered {blocking : Bool} {cId : Int32} {getMap : MsgMap}
    (h : serveGet cfg s call blocking cId getMap = some (s', r)) : Answered s s' := by
  unfold serveGet at h
  split at h
  · obtain ⟨d, -, hrest⟩ := Option.bind_eq_some_iff.mp h
    dsimp only at hrest
    split at hrest
    · obtain ⟨rfl, -⟩ := Prod.mk.inj (Option.some.inj hrest)
      exact ⟨.refl, rfl⟩
    · exact answerGet_answered hrest
  · obtain ⟨rfl, -⟩ := Prod.mk.inj (Option.some.inj h)
    exact ⟨.refl, rfl⟩
  · cases h

theorem handleGet_answered {blocking : Bool} {cId : Int32} {getMap : MsgMap}
    (h : handleGet cfg s call blocking cId getMap = some (s', r)) : Answered s s' := by
  have hreg : Answered s (regApp s call cId (.get blocking cId getMap)).1 := regApp_answered cId _
  unfold handleGet at h
  dsimp only at h
  split at h
  · obtain ⟨rfl, -⟩ := Prod.mk.inj (Option.some.inj h)
    exact hreg
  · exact hreg.trans (serveGet_answered h)

theorem answered_answered {i : Nat} (h : answered cfg s call i = some (s', r)) : Answered s s' := by
  obtain ⟨g, -, hrest⟩ := Option.bind_eq_some_iff.mp h
  obtain ⟨⟨n, done⟩, hget, heq⟩ := Option.map_eq_some_iff.mp hrest
  obtain ⟨op, hop⟩ := Control.getAgain_step _ _ _ _ _ hget
  cases done <;>
  · obtain ⟨rfl, -⟩ := Prod.mk.inj heq
    exact ⟨.one hop, rfl⟩

theorem servePut_answered {pId : Int32} {putMap : MsgMap} {x : State N × Reply × Option (String × DataInfo)}
    (h : servePut cfg s call pId putMap = some x) : Answered s x.1 := by
  unfold servePut at h
  split at h
  · obtain ⟨d, -, hrest⟩ := Option.bind_eq_some_iff.mp h
    obtain ⟨⟨n, done⟩, hput, rfl⟩ := Option.map_eq_some_iff.mp hrest
    have hmoved := Moved.put hput
    cases done <;> exact ⟨hmoved, rfl⟩
  · obtain rfl := Option.some.inj h
    exact ⟨.refl, rfl⟩
  · cases h

theorem handlePut_answered {pId : Int32} {putMap : MsgMap} (h : handlePut cfg s call pId putMap = some (s', r)) :
    Answered s s' := by
  have hreg : Answered s (regApp s call pId (.put pId putMap)).1 := regApp_answered pId _
  unfold handlePut at h
  dsimp only at h
  split at h
  · obtain ⟨rfl, -⟩ := Prod.mk.inj (Option.some.inj h)
    exact hreg
  · obtain ⟨x, hserve, heq⟩ := Option.map_eq_some_iff.mp h
    obtain ⟨rfl, -⟩ := Prod.mk.inj heq
    exact hreg.trans (servePut_answered hserve)

theorem registered_answered {i : Nat} (h : registered cfg s call i = some (s', r)) : Answered s s' := by
  obtain ⟨x, -, hrest⟩ := Option.bind_eq_some_iff.mp h
  cases x with
  | get blocking cId getMap =>
    have hans := serveGet_answered hrest
    exact ⟨hans.node, hans.failed⟩
  | put pId putMap =>
    obtain ⟨y, hserve, heq⟩ := Option.map_eq_some_iff.mp hrest
    obtain ⟨rfl, -⟩ := Prod.mk.inj heq
    have hans := servePut_answered hserve
    exact ⟨hans.node, hans.failed⟩

theorem remoteGet_answered {msgMap : MsgMap} (h : remoteGet cfg s msgMap = some s') : Answered s s' := by
  unfold remoteGet at h
  split at h
  · obtain ⟨d, -, rfl⟩ := Option.map_eq_some_iff.mp h
    exact ⟨.refl, rfl⟩
  · obtain rfl := Option.some.inj h
    exact ⟨.refl, rfl⟩
  · cases h

theorem remoteGetDone_answered {arrived replied : Bool} {i : Nat}
    (h : remoteGetDone cfg s call arrived replied i = some s') : Answered s s' := by
  obtain ⟨⟨d, info⟩, -, hrest⟩ := Option.bind_eq_some_iff.mp h
  dsimp only at hrest
  split at hrest
  · split at hrest
    · obtain ⟨⟨n, done⟩, hput, rfl⟩ := Option.map_eq_some_iff.mp hrest
      have hmoved := Moved.put hput
      cases done <;> exact ⟨hmoved, rfl⟩
    · cases hrest
  · obtain rfl := Option.some.inj hrest
    exact ⟨.refl, rfl⟩

/-- The node moves on, and the list of the failed transfers gets what the message names. -/
theorem handle_cases {a : Action N} (h : handle cfg s a = some (s', r)) :
    Moved s.node s'.node ∧ s'.failedRemoteGetDataIdV = s.failedRemoteGetDataIdV ++ failedBy cfg a := by
  cases a with
  | get call blocking cId getMap =>
    have hans := handleGet_answered h
    exact hans.noFailure rfl
  | registered call i =>
    have hans := registered_answered h
    exact hans.noFailure rfl
  | goOn call i =>
    obtain ⟨g, -, hrest⟩ := Option.bind_eq_some_iff.mp h
    have hans := answerGet_answered hrest
    exact hans.noFailure rfl
  | answered call i =>
    have hans := answered_answered h
    exact hans.noFailure rfl
  | getDone msgMap =>
    obtain ⟨s₁, hdone, heq⟩ := Option.map_eq_some_iff.mp h
    obtain ⟨rfl, -⟩ := Prod.mk.inj heq
    unfold handleGetDone at hdone
    dsimp only at hdone
    split at hdone
    · obtain rfl := Option.some.inj hdone
      exact Answered.noFailure ⟨.refl, rfl⟩ rfl
    · cases hdone
  | put call pId putMap =>
    have hans := handlePut_answered h
    exact hans.noFailure rfl
  | tinfoQuery msgMap =>
    obtain ⟨s₁, hquery, heq⟩ := Option.map_eq_some_iff.mp h
    obtain ⟨rfl, -⟩ := Prod.mk.inj heq
    unfold handleTinfoQuery at hquery
    split at hquery
    · obtain rfl := Option.some.inj hquery
      exact Answered.noFailure ⟨.refl, rfl⟩ rfl
    · have hans := remoteGet_answered hquery
      exact hans.noFailure rfl
  | tinfoQueryReply msgMap =>
    obtain ⟨rfl, -⟩ := Prod.mk.inj (Option.some.inj h)
    exact Answered.noFailure ⟨.refl, rfl⟩ rfl
  | gridftpPut msgMap =>
    obtain ⟨s₁, hput, heq⟩ := Option.map_eq_some_iff.mp h
    obtain ⟨rfl, -⟩ := Prod.mk.inj heq
    unfold handleGridftpPut at hput
    split at hput
    · have hans := remoteGet_answered hput
      exact hans.noFailure rfl
    · cases hput
  | remoteGetDone call arrived replied i =>
    obtain ⟨s₁, hdone, heq⟩ := Option.map_eq_some_iff.mp h
    obtain ⟨rfl, -⟩ := Prod.mk.inj heq
    have hans := remoteGetDone_answered hdone
    exact hans.noFailure rfl
  | failRemoteGet msgMap =>
    obtain ⟨s₁, hfail, heq⟩ := Option.map_eq_some_iff.mp h
    obtain ⟨rfl, -⟩ := Prod.mk.inj heq
    unfold handleFailRemoteGet at hfail
    dsimp only at hfail
    split at hfail
    · obtain rfl := Option.some.inj hfail
      exact ⟨.refl, rfl⟩
    · cases hfail
  | dmMove msgMap toId =>
    obtain ⟨_, -, hrest⟩ := Option.bind_eq_some_iff.mp h
    obtain ⟨_, -, heq⟩ := Option.map_eq_some_iff.mp hrest
    obtain ⟨rfl, -⟩ := Prod.mk.inj heq
    exact Answered.noFailure ⟨.refl, rfl⟩ rfl
  | control op =>
    obtain ⟨n, hop, heq⟩ := Option.map_eq_some_iff.mp h
    obtain ⟨rfl, -⟩ := Prod.mk.inj heq
    exact ⟨.one hop, (List.append_nil _).symm⟩

theorem run_cases {labels : List (Action N)} (h : Transition.run (step cfg) labels s = some s') :
    Moved s.node s'.node ∧ s'.failedRemoteGetDataIdV = s.failedRemoteGetDataIdV ++ failedIn cfg labels := by
  induction labels generalizing s with
  | nil =>
    obtain rfl := Option.some.inj h
    exact ⟨.refl, by rw [failedIn, List.flatMap_nil, List.append_nil]⟩
  | cons a labels ih =>
    obtain ⟨s₁, hs, htail⟩ := Option.bind_eq_some_iff.mp h
    obtain ⟨x, hx, rfl⟩ := Option.map_eq_some_iff.mp hs
    obtain ⟨hmoved, hfailed⟩ := handle_cases hx
    obtain ⟨hmoved', hfailed'⟩ := ih htail
    refine ⟨hmoved.trans hmoved', ?_⟩
    rw [hfailed', hfailed, failedIn, failedIn, List.flatMap_cons, List.append_assoc]

/-! ## Stored data -/

variable (cfg) in
/-- The action replies to the app of the get with the id of the DS, and the id is not the one for an error. -/
def Replies (s : State N) (a : Action N) (g : Get) : Prop :=
  (∃ s', handle cfg s a = some (s', some (.get g.blocking g.cId (Control.id s.node)))) ∧ Control.id s.node ≠ noDs

theorem answerGet_iff (cfg : Config) (call : Control.Call N) {g : Get} (hsound : Control.Sound s.node)
    (hhas : Control.Has s.node g.datum) (hid : Control.id s.node ≠ noDs) :
    (∃ s', answerGet cfg s call g = some (s', some (.get g.blocking g.cId (Control.id s.node)))) ↔
      dataIdOfMap g.getMap cfg.dataIdT ∉ s.failedRemoteGetDataIdV ∧ Control.Served s.node call g.cId g.datum := by
  rw [← Control.get_iff s.node call g.blocking g.cId g.datum hsound hhas]
  unfold answerGet
  dsimp only
  by_cases hfailed : dataIdOfMap g.getMap cfg.dataIdT ∈ s.failedRemoteGetDataIdV
  · refine iff_of_false ?_ (fun h => h.1 hfailed)
    rintro ⟨s', hans⟩
    rw [if_pos hfailed] at hans
    simp only [Option.some.injEq, Prod.mk.injEq, Reply.get.injEq] at hans
    exact hid hans.2.2.2.symm
  · rw [if_neg hfailed, and_iff_right hfailed]
    simp only [Option.map_eq_some_iff]
    constructor
    · rintro ⟨s', ⟨n, got⟩, hget, heq⟩
      cases got with
      | ok => exact ⟨n, hget⟩
      | err =>
        simp only [Prod.mk.injEq, Option.some.injEq, Reply.get.injEq] at heq
        exact absurd heq.2.2.2.symm hid
      | asks =>
        simp only [Prod.mk.injEq, reduceCtorEq, and_false] at heq
    · rintro ⟨n, hget⟩
      obtain ⟨op, hop⟩ := Control.get_step _ _ _ _ _ _ hget
      have hsame : Control.id n = Control.id s.node := Control.id_step _ _ _ hop
      exact ⟨_, (n, .ok), hget, by rw [← hsame]⟩

theorem serveGet_iff (cfg : Config) (call : Control.Call N) {g : Get} {f : LongFields}
    (hdecode : decodeLong g.getMap = .ok f) (hdatum : datumOf f.toFields = some g.datum) (hsound : Control.Sound s.node)
    (hhas : Control.Has s.node g.datum) (hid : Control.id s.node ≠ noDs) :
    (∃ s', serveGet cfg s call g.blocking g.cId g.getMap = some (s', some (.get g.blocking g.cId (Control.id s.node)))) ↔
      getDataId cfg.dataIdT g.datum ∉ s.recving ∧ dataIdOfMap g.getMap cfg.dataIdT ∉ s.failedRemoteGetDataIdV ∧
        Control.Served s.node call g.cId g.datum := by
  have hgo : serveGet cfg s call g.blocking g.cId g.getMap =
      if getDataId cfg.dataIdT g.datum ∈ s.recving then some ({ s with waiting := s.waiting ++ [g] }, none)
      else answerGet cfg s call g := by
    simp only [serveGet, hdecode, hdatum, Option.bind_some]
  rw [hgo]
  by_cases hrecv : getDataId cfg.dataIdT g.datum ∈ s.recving
  · simp only [if_pos hrecv]
    exact iff_of_false (by simp) fun h => h.1 hrecv
  · simp only [if_neg hrecv]
    rw [answerGet_iff cfg call hsound hhas hid, and_iff_right hrecv]

theorem handleGet_iff (cfg : Config) (call : Control.Call N) {g : Get} {f : LongFields}
    (hdecode : decodeLong g.getMap = .ok f) (hdatum : datumOf f.toFields = some g.datum) (hsound : Control.Sound s.node)
    (hhas : Control.Has s.node g.datum) (hid : Control.id s.node ≠ noDs) :
    (∃ s', handleGet cfg s call g.blocking g.cId g.getMap = some (s', some (.get g.blocking g.cId (Control.id s.node)))) ↔
      ¬Control.Registers call g.cId s.node ∧ getDataId cfg.dataIdT g.datum ∉ s.recving ∧
        dataIdOfMap g.getMap cfg.dataIdT ∉ s.failedRemoteGetDataIdV ∧
        Control.Served (Control.regApp call g.cId s.node) call g.cId g.datum := by
  by_cases hwaits : Control.Registers call g.cId s.node
  · refine iff_of_false ?_ fun h => h.1 hwaits
    simp [handleGet, regApp, hwaits]
  · have hreg : Moved s.node (Control.regApp call g.cId s.node) := .regApp call g.cId s.node
    let s₁ : State N := { s with node := Control.regApp call g.cId s.node }
    have hgo : handleGet cfg s call g.blocking g.cId g.getMap = serveGet cfg s₁ call g.blocking g.cId g.getMap := by
      simp [handleGet, regApp, hwaits, s₁]
    have hserve := serveGet_iff cfg call hdecode hdatum (show Control.Sound s₁.node from hreg.sound hsound)
      (hreg.has hhas) (by rw [hreg.id]; exact hid)
    rw [show Control.id s₁.node = Control.id s.node from hreg.id] at hserve
    rw [hgo, hserve, and_iff_right hwaits]

/-- In every run, a get of data in the local table is answered at once with the id of the DS exactly when its app
is not held up to be registered, no transfer of its data is under way, none has failed in the run, and the node
serves it. One that has waited for its registration is answered under the other conditions, and one that has
waited for a transfer exactly when none has failed and the node serves it. -/
theorem stored_data_served_iff {node : N} (hnode : Control.Fresh node) {labels : List (Action N)}
    (hrun : Transition.run (step cfg) labels (start node) = some s) (g : Get) (call : Control.Call N)
    (hhas : Control.Has s.node g.datum) :
    (∀ f, decodeLong g.getMap = .ok f → datumOf f.toFields = some g.datum →
      (Replies cfg s (.get call g.blocking g.cId g.getMap) g ↔
        ¬Control.Registers call g.cId s.node ∧
          getDataId cfg.dataIdT g.datum ∉ s.recving ∧ dataIdOfMap g.getMap cfg.dataIdT ∉ failedIn cfg labels ∧
          Control.Served (Control.regApp call g.cId s.node) call g.cId g.datum ∧ Control.id s.node ≠ noDs) ∧
      ∀ i, s.registering[i]? = some (.get g.blocking g.cId g.getMap) → (Replies cfg s (.registered call i) g ↔
        getDataId cfg.dataIdT g.datum ∉ s.recving ∧ dataIdOfMap g.getMap cfg.dataIdT ∉ failedIn cfg labels ∧
          Control.Served s.node call g.cId g.datum ∧ Control.id s.node ≠ noDs)) ∧
    ∀ i, s.waiting[i]? = some g → (Replies cfg s (.goOn call i) g ↔
      dataIdOfMap g.getMap cfg.dataIdT ∉ failedIn cfg labels ∧
        Control.Served s.node call g.cId g.datum ∧ Control.id s.node ≠ noDs) := by
  obtain ⟨hmoved, hfailed⟩ := run_cases hrun
  have hsound : Control.Sound s.node := hmoved.sound (Control.fresh_sound node hnode)
  have hfailed : s.failedRemoteGetDataIdV = failedIn cfg labels := hfailed
  rw [← hfailed]
  by_cases hid : Control.id s.node = noDs
  · exact ⟨fun f _ _ => ⟨iff_of_false (fun h => h.2 hid) fun h => h.2.2.2.2 hid,
      fun i _ => iff_of_false (fun h => h.2 hid) fun h => h.2.2.2 hid⟩,
      fun i _ => iff_of_false (fun h => h.2 hid) fun h => h.2.2 hid⟩
  refine ⟨fun f hdecode hdatum => ⟨?_, fun i hi => ?_⟩, fun i hi => ?_⟩
  · unfold Replies
    simp only [handle]
    rw [handleGet_iff cfg call hdecode hdatum hsound hhas hid]
    simp only [and_assoc]
  · let s₁ : State N := { s with registering := s.registering.eraseIdx i }
    have hgo : handle cfg s (.registered call i) = serveGet cfg s₁ call g.blocking g.cId g.getMap := by
      simp only [handle, registered, hi, Option.bind_some, s₁]
    have hserve := serveGet_iff cfg call hdecode hdatum (show Control.Sound s₁.node from hsound) hhas hid
    unfold Replies
    rw [hgo, hserve]
    simp only [and_assoc, s₁]
  · let s₁ : State N := { s with waiting := s.waiting.eraseIdx i }
    have hgo : handle cfg s (.goOn call i) = answerGet cfg s₁ call g := by
      simp only [handle, goOn, hi, Option.bind_some, s₁]
    have hans := answerGet_iff cfg call (show Control.Sound s₁.node from hsound) hhas hid
    unfold Replies
    rw [hgo, hans, and_assoc]

end Manager

/-- The message of a put or a get of the box at the origin. -/
def boxMap (key : String) (ver : UInt32) (dataType : String) (size : Int32) : MsgMap :=
  MsgCoder.encodeLong (fun _ => none) (MsgCoder.longArgsOf { box key with ver := ver } dataType size (.replicate _ 10))

/-- A slave by key and version with a fresh table. -/
def freshSlave : State (Slave QTable.KVTable.State) := start ⟨2, [], Table.empty⟩

theorem corner_toList (v : Vector UInt64 Patch.ndim) : corner v.toList = some v := by
  obtain ⟨⟨l⟩, hl⟩ := v
  match l, hl with
  | [a, b, c], _ => rfl

theorem datumOf_argsOf (d : Datum) : datumOf (MsgCoder.argsOf d).toFields = some d := by
  unfold datumOf
  have hlb : (MsgCoder.argsOf d).lb = d.lcoor.toList := rfl
  have hub : (MsgCoder.argsOf d).ub = d.ucoor.toList := rfl
  rw [hlb, hub, corner_toList, corner_toList]
  rfl

/-- All messages of a call are sent. -/
def allSent : Sent := ⟨true, true⟩

/-- A put of an app is served to it, once it is registered. -/
theorem put_served :
    ∃ s, Transition.run (step ⟨.kv, .tcp⟩) [.put allSent 7 (boxMap "u" 0 "int" 4), .registered allSent 0] freshSlave =
        some s ∧
      Replies ⟨.kv, .tcp⟩ s (.get allSent false 7 (boxMap "u" 0 "int" 4)) ⟨false, 7, boxMap "u" 0 "int" 4, box "u"⟩ := by
  have htest : (Transition.run (step ⟨.kv, .tcp⟩) [.put allSent 7 (boxMap "u" 0 "int" 4), .registered allSent 0]
      freshSlave).any (fun s => (Table.query s.node.qtable (box "u")).isSome &&
        decide (s.node.id = 2 ∧ s.node.appIdV = [7] ∧ s.recving = [])) = true := by
    decide +kernel
  obtain ⟨s, hrun, hs⟩ := (Option.any_eq_true _ _).mp htest
  obtain ⟨hhas, hs⟩ := (Bool.and_eq_true _ _).mp hs
  obtain ⟨hid, hregistered, hrecv⟩ := of_decide_eq_true hs
  have hfresh : Control.Fresh freshSlave.node := ⟨2, rfl⟩
  have hserved := stored_data_served_iff hfresh hrun ⟨false, 7, boxMap "u" 0 "int" 4, box "u"⟩ allSent hhas
  refine ⟨s, hrun, ((hserved.1 _ (MsgCoder.decodeLong_encodeLong _ _) (datumOf_argsOf _)).1).mpr
    ⟨?_, ?_, ?_, rfl, ?_⟩⟩
  · rintro ⟨hnew, -⟩
    rw [hregistered] at hnew
    simp at hnew
  · rw [hrecv]
    exact List.not_mem_nil
  · exact List.not_mem_nil
  · show s.node.id ≠ noDs
    rw [hid]
    decide

/-- Once a transfer of the datum has failed, an app puts it, and no get of it succeeds. -/
theorem failure_hides_put :
    ∃ s, Transition.run (step ⟨.kv, .tcp⟩) [.tinfoQuery (boxMap "u" 0 "int" 4),
        .failRemoteGet (boxMap "u" 0 "int" 4), .put allSent 7 (boxMap "u" 0 "int" 4), .registered allSent 0]
        freshSlave = some s ∧
      Control.Has s.node (box "u") ∧ Control.id s.node = 2 ∧ s.recving = [] ∧
      ((handle ⟨.kv, .tcp⟩ s (.get allSent false 7 (boxMap "u" 0 "int" 4))).map (·.2)) =
        some (some (.get false 7 (-1))) ∧
      ¬Replies ⟨.kv, .tcp⟩ s (.get allSent false 7 (boxMap "u" 0 "int" 4)) ⟨false, 7, boxMap "u" 0 "int" 4, box "u"⟩ := by
  have htest : (Transition.run (step ⟨.kv, .tcp⟩) [.tinfoQuery (boxMap "u" 0 "int" 4),
      .failRemoteGet (boxMap "u" 0 "int" 4), .put allSent 7 (boxMap "u" 0 "int" 4), .registered allSent 0]
      freshSlave).any (fun s =>
      (Table.query s.node.qtable (box "u")).isSome && decide (s.node.id = 2 ∧ s.recving = [] ∧
        (handle ⟨.kv, .tcp⟩ s (.get allSent false 7 (boxMap "u" 0 "int" 4))).map (·.2) =
          some (some (.get false 7 (-1))))) = true := by
    decide +kernel
  obtain ⟨s, hrun, hs⟩ := (Option.any_eq_true _ _).mp htest
  obtain ⟨hhas, hs⟩ := (Bool.and_eq_true _ _).mp hs
  obtain ⟨hid, hrecv, hreply⟩ := of_decide_eq_true hs
  refine ⟨s, hrun, hhas, hid, hrecv, hreply, ?_⟩
  rintro ⟨⟨s', hs'⟩, -⟩
  rw [hs', Option.map_some, show Control.id s.node = 2 from hid] at hreply
  simp at hreply

end RIManager
