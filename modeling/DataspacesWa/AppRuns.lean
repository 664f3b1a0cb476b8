import DataspacesWa.AppWire

/-!
# Runs by arguments

Of the maps in its messages the manager reads the arguments only, when it gets
them and when a put or a get goes on that has waited with its map. So a run is reply for
reply the run in which the maps have nothing else in them, and the apps are
served as if the manager had been called with their arguments.
-/
namespace RIManager

open MsgCoder (MsgMap decode decodeLong dataIdOfMap decode_argsOnly decodeLong_argsOnly dataIdOfMap_argsOnly)
open Patch (DataIdT)

variable {N : Type} [Control N]

/-! ## The arguments of a run -/

def Get.argsOnly (g : Get) : Get := { g with getMap := MsgCoder.argsOnly g.getMap }

def Registering.argsOnly : Registering → Registering
  | .get blocking cId getMap => .get blocking cId (MsgCoder.argsOnly getMap)
  | .put pId putMap => .put pId (MsgCoder.argsOnly putMap)

def State.argsOnly (s : State N) : State N :=
  { s with registering := s.registering.map Registering.argsOnly, waiting := s.waiting.map Get.argsOnly, asking := s.asking.map Get.argsOnly }

def Action.argsOnly : Action N → Action N
  | .get call blocking cId getMap => .get call blocking cId (MsgCoder.argsOnly getMap)
  | .registered call i => .registered call i
  | .goOn call i => .goOn call i
  | .answered call i => .answered call i
  | .getDone msgMap => .getDone (MsgCoder.argsOnly msgMap)
  | .put call pId putMap => .put call pId (MsgCoder.argsOnly putMap)
  | .tinfoQuery msgMap => .tinfoQuery (MsgCoder.argsOnly msgMap)
  | .tinfoQueryReply msgMap => .tinfoQueryReply (MsgCoder.argsOnly msgMap)
  | .gridftpPut msgMap => .gridftpPut (MsgCoder.argsOnly msgMap)
  | .remoteGetDone call arrived replied i => .remoteGetDone call arrived replied i
  | .failRemoteGet msgMap => .failRemoteGet (MsgCoder.argsOnly msgMap)
  | .dmMove msgMap toId => .dmMove (MsgCoder.argsOnly msgMap) toId
  | .control op => .control op

/-! ## The steps -/

section Steps
variable (cfg : Config) (s : State N) (call : Control.Call N)

theorem answerGet_argsOnly (g : Get) : answerGet cfg s.argsOnly call g.argsOnly =
    (answerGet cfg s call g).map fun r => (r.1.argsOnly, r.2) := by
  simp only [answerGet, Get.argsOnly, State.argsOnly, dataIdOfMap_argsOnly]
  split
  next => rfl
  next =>
    rw [Option.map_map]
    congr 1
    funext r
    cases hgot : r.2 with
    | ok => simp [hgot]
    | err => simp [hgot]
    | asks => simp [hgot, Get.argsOnly]

theorem serveGet_argsOnly (blocking : Bool) (cId : Int32) (getMap : MsgMap) :
    serveGet cfg s.argsOnly call blocking cId (MsgCoder.argsOnly getMap) =
      (serveGet cfg s call blocking cId getMap).map fun r => (r.1.argsOnly, r.2) := by
  unfold serveGet
  rw [decodeLong_argsOnly]
  cases decodeLong getMap with
  | ok f =>
    cases hd : datumOf f.toFields with
    | none => simp [hd]
    | some d =>
      by_cases hrecving : Patch.getDataId cfg.dataIdT d ∈ s.recving
      · simp [hd, hrecving, State.argsOnly, Get.argsOnly]
      · simp only [hd, Option.bind_some, State.argsOnly, hrecving, if_false]
        exact answerGet_argsOnly cfg s call ⟨blocking, cId, getMap, d⟩
  | err => rfl
  | pastEnd => rfl
  | wrappedSize => rfl

theorem regApp_argsOnly (a : Int32) (r : Registering) :
    regApp s.argsOnly call a r.argsOnly = ((regApp s call a r).1.argsOnly, (regApp s call a r).2) := by
  by_cases hwaits : Control.Registers call a s.node
  · simp [regApp, State.argsOnly, hwaits]
  · simp [regApp, State.argsOnly, hwaits]

theorem handleGet_argsOnly (blocking : Bool) (cId : Int32) (getMap : MsgMap) :
    handleGet cfg s.argsOnly call blocking cId (MsgCoder.argsOnly getMap) =
      (handleGet cfg s call blocking cId getMap).map fun r => (r.1.argsOnly, r.2) := by
  have hreg := regApp_argsOnly s call cId (.get blocking cId getMap)
  rw [Registering.argsOnly] at hreg
  rw [handleGet, handleGet, hreg]
  dsimp only
  split
  next => rfl
  next => exact serveGet_argsOnly cfg _ call blocking cId getMap

theorem goOn_argsOnly (i : Nat) :
    goOn cfg s.argsOnly call i = (goOn cfg s call i).map fun r => (r.1.argsOnly, r.2) := by
  have hget : s.argsOnly.waiting[i]? = s.waiting[i]?.map Get.argsOnly := List.getElem?_map
  unfold goOn
  rw [hget]
  cases s.waiting[i]? with
  | none => rfl
  | some g =>
    have herase : s.argsOnly.waiting.eraseIdx i = (s.waiting.eraseIdx i).map Get.argsOnly := (List.eraseIdx_map ..)
    simp only [Option.map_some, Option.bind_some, herase]
    exact answerGet_argsOnly cfg { s with waiting := s.waiting.eraseIdx i } call g

theorem answered_argsOnly (i : Nat) :
    answered cfg s.argsOnly call i = (answered cfg s call i).map fun r => (r.1.argsOnly, r.2) := by
  have hget : s.argsOnly.asking[i]? = s.asking[i]?.map Get.argsOnly := List.getElem?_map
  unfold answered
  rw [hget]
  cases s.asking[i]? with
  | none => rfl
  | some g =>
    have herase : s.argsOnly.asking.eraseIdx i = (s.asking.eraseIdx i).map Get.argsOnly := (List.eraseIdx_map ..)
    simp only [Option.map_some, Option.bind_some, herase, Get.argsOnly, dataIdOfMap_argsOnly, Option.map_map]
    congr 1
    funext r
    cases hgot : r.2 <;> simp [hgot, State.argsOnly]

theorem servePut_argsOnly (pId : Int32) (putMap : MsgMap) :
    servePut cfg s.argsOnly call pId (MsgCoder.argsOnly putMap) =
      (servePut cfg s call pId putMap).map fun r => (r.1.argsOnly, r.2) := by
  unfold servePut
  rw [decodeLong_argsOnly]
  cases decodeLong putMap with
  | ok f =>
    cases hd : datumOf f.toFields with
    | none => simp [hd]
    | some d =>
      simp only [hd, Option.bind_some, Option.map_map]
      congr 1
      funext r
      cases hdone : r.2 <;> simp [hdone, State.argsOnly]
  | err => rfl
  | pastEnd => rfl
  | wrappedSize => rfl

theorem handlePut_argsOnly (pId : Int32) (putMap : MsgMap) :
    handlePut cfg s.argsOnly call pId (MsgCoder.argsOnly putMap) =
      (handlePut cfg s call pId putMap).map fun r => (r.1.argsOnly, r.2) := by
  have hreg := regApp_argsOnly s call pId (.put pId putMap)
  rw [Registering.argsOnly] at hreg
  rw [handlePut, handlePut, hreg]
  dsimp only
  split
  next => rfl
  next => rw [servePut_argsOnly, Option.map_map, Option.map_map]; rfl

theorem registered_argsOnly (i : Nat) :
    registered cfg s.argsOnly call i = (registered cfg s call i).map fun r => (r.1.argsOnly, r.2) := by
  have hget : s.argsOnly.registering[i]? = s.registering[i]?.map Registering.argsOnly := List.getElem?_map
  unfold registered
  rw [hget]
  cases s.registering[i]? with
  | none => rfl
  | some r =>
    have herase : { s.argsOnly with registering := s.argsOnly.registering.eraseIdx i } =
        ({ s with registering := s.registering.eraseIdx i } : State N).argsOnly := by
      simp [State.argsOnly, List.eraseIdx_map]
    simp only [Option.map_some, Option.bind_some, herase]
    cases r with
    | get blocking cId getMap => exact serveGet_argsOnly cfg _ call blocking cId getMap
    | put pId putMap =>
      simp only [Registering.argsOnly, servePut_argsOnly, Option.map_map]
      rfl

omit [Control N] in
theorem remoteGet_argsOnly (msgMap : MsgMap) :
    remoteGet cfg s.argsOnly (MsgCoder.argsOnly msgMap) = (remoteGet cfg s msgMap).map State.argsOnly := by
  unfold remoteGet
  rw [decodeLong_argsOnly]
  cases decodeLong msgMap with
  | ok f =>
    cases hd : datumOf f.toFields with
    | none => simp [hd]
    | some d =>
      simp only [hd, Option.map_some]
      rfl
  | err => rfl
  | pastEnd => rfl
  | wrappedSize => rfl

theorem remoteGetDone_argsOnly (arrived replied : Bool) (i : Nat) : remoteGetDone cfg s.argsOnly call arrived replied i =
    (remoteGetDone cfg s call arrived replied i).map State.argsOnly := by
  unfold remoteGetDone
  show s.fetching[i]?.bind _ = _
  cases s.fetching[i]? with
  | none => rfl
  | some x =>
    cases arrived with
    | false => rfl
    | true =>
      simp only [Option.bind_some, if_true]
      show (if _ ∈ s.recving then _ else _) = _
      split
      next hrecving =>
        rw [Option.map_map]
        congr 1
        funext r
        cases hdone : r.2 <;> simp [hdone, State.argsOnly]
      next => rfl

omit [Control N] in
theorem queryInfo_argsOnly (msgMap : MsgMap) (toId : Int32) :
    queryInfo cfg s.argsOnly (MsgCoder.argsOnly msgMap) toId = queryInfo cfg s msgMap toId := by
  rw [queryInfo, dataIdOfMap_argsOnly]
  rfl

omit [Control N] in
theorem remotePutInfo_argsOnly (msgMap : MsgMap) :
    remotePutInfo cfg s.argsOnly (MsgCoder.argsOnly msgMap) = remotePutInfo cfg s msgMap := by
  rw [remotePutInfo, decode_argsOnly]
  rfl

theorem handle_argsOnly (a : Action N) :
    handle cfg s.argsOnly a.argsOnly = (handle cfg s a).map fun r => (r.1.argsOnly, r.2) := by
  cases a with
  | get call blocking cId getMap => exact handleGet_argsOnly cfg s call blocking cId getMap
  | registered call i => exact registered_argsOnly cfg s call i
  | goOn call i => exact goOn_argsOnly cfg s call i
  | answered call i => exact answered_argsOnly cfg s call i
  | getDone msgMap =>
    simp only [handle, Action.argsOnly, handleGetDone, dataIdOfMap_argsOnly]
    show Option.map _ (if _ ∈ s.busyDataIdV then _ else _) = _
    split <;> rfl
  | put call pId putMap => exact handlePut_argsOnly cfg s call pId putMap
  | tinfoQuery msgMap =>
    simp only [handle, Action.argsOnly, handleTinfoQuery, dataIdOfMap_argsOnly]
    split
    next => rfl
    next =>
      let t : State N := { s with
        remoteGetT := if dataIdOfMap msgMap cfg.dataIdT ∈ s.remoteGetT then s.remoteGetT
          else s.remoteGetT ++ [dataIdOfMap msgMap cfg.dataIdT] }
      show (remoteGet cfg t.argsOnly _).map _ = ((remoteGet cfg t msgMap).map _).map _
      rw [remoteGet_argsOnly, Option.map_map, Option.map_map]
      rfl
  | tinfoQueryReply msgMap =>
    simp only [handle, Action.argsOnly, handleTinfoQueryReply, dataIdOfMap_argsOnly]
    rfl
  | gridftpPut msgMap =>
    simp only [handle, Action.argsOnly, handleGridftpPut]
    split
    next => rw [remoteGet_argsOnly, Option.map_map, Option.map_map]; rfl
    next => rfl
  | remoteGetDone call arrived replied i =>
    simp only [handle, Action.argsOnly, remoteGetDone_argsOnly, Option.map_map]
    rfl
  | failRemoteGet msgMap =>
    simp only [handle, Action.argsOnly, handleFailRemoteGet, dataIdOfMap_argsOnly]
    show Option.map _ (if _ ∈ s.remoteGetT then _ else _) = _
    split <;> rfl
  | dmMove msgMap toId =>
    simp only [handle, Action.argsOnly, queryInfo_argsOnly, remotePutInfo_argsOnly]
    cases queryInfo cfg s msgMap toId with
    | none => rfl
    | some info => cases remotePutInfo cfg s msgMap <;> rfl
  | control op =>
    simp only [handle, Action.argsOnly, Option.map_map]
    rfl

end Steps

/-! ## The runs -/

section Runs
variable (cfg : Config)

/-- A run, with the reply of each action. -/
def serve : State N → List (Action N) → Option (State N × List (Option Reply))
  | s, [] => some (s, [])
  | s, a :: labels => (handle cfg s a).bind fun r => (serve r.1 labels).map fun q => (q.1, r.2 :: q.2)

/-- A run keeps to the arguments. -/
theorem serve_argsOnly (s : State N) (labels : List (Action N)) : serve cfg s.argsOnly (labels.map Action.argsOnly) =
    (serve cfg s labels).map fun r => (r.1.argsOnly, r.2) := by
  induction labels generalizing s with
  | nil => rfl
  | cons a labels ih =>
    rw [List.map_cons, serve, serve, handle_argsOnly]
    cases handle cfg s a with
    | none => rfl
    | some r =>
      simp only [Option.map_some, Option.bind_some, ih r.1, Option.map_map]
      rfl

/-- Two runs with the same arguments have the same replies, and what they leave differs at most in the maps of
the puts and gets that wait. -/
theorem serve_congr (s : State N) {labels labels' : List (Action N)}
    (h : labels.map Action.argsOnly = labels'.map Action.argsOnly) :
    ((serve cfg s labels).map fun r => (r.1.argsOnly, r.2)) = (serve cfg s labels').map fun r => (r.1.argsOnly, r.2) := by
  rw [← serve_argsOnly, h, serve_argsOnly]

end Runs

end RIManager

namespace AppWire

open Join (Node)
open MsgCoder (encodeLong)
open Patch (DataIdT getDataId)
open RIManager (Config State Control Action serve)
open TextArchive (textArchive)

variable {N : Type} [Control N]

theorem AppMsg.argsOnly_action (msg : AppMsg) (call : Control.Call N) (clId : Int32) (msgMap : MsgCoder.MsgMap) :
    (msg.action call clId msgMap).argsOnly = msg.action call clId (MsgCoder.argsOnly msgMap) := by
  cases msg with
  | request r a => cases r <;> rfl
  | getDone blocking a => rfl

/-- What the manager does on a message that has come in, by its arguments. -/
theorem received_argsOnly (call : Control.Call N) (app : Node) (msg : AppMsg) :
    (handleAppMsg call (appMap app msg)).map (·.map Action.argsOnly) =
      some (some (msg.action call app.id (encodeLong (fun _ => none) msg.args.long))) := by
  rw [appMsg_handled, Option.map_some, Option.map_some, AppMsg.argsOnly_action, (encodes_appMap app msg).argsOnly_eq]

/-! ## Both ways -/

section Stream
variable {app manager : Node} {msgs : List AppMsg} {answers : List Answer}

/-- The messages of an app with short names come to the handlers of the manager in the order in which they were
sent, each with the id of the app and the arguments that the app was called with; and the answers come to the
app, each with the data id of its request, the id of the DS, and the point at which the thread waits. -/
theorem app_messages_handled (happ : app.type = "s") (hmanager : manager.type = "m")
    (hmsgs : ∀ m ∈ msgs, ShortArgs m.args) (hanswers : ∀ ans ∈ answers, ShortArgs ans.args) (call : Control.Call N)
    (kind : DataIdT) :
    (∃ stream, Packet.sendAll textArchive (msgs.map fun m => (.rimsg, appMap app m)) = some stream ∧
      (Packet.receiveAll textArchive stream).map (fun p => (handleRimsg (handleAppMsg call) p).map (·.map Action.argsOnly)) =
        msgs.map fun m => some (some (m.action call app.id (encodeLong (fun _ => none) m.args.long)))) ∧
    ∃ stream, Packet.sendAll textArchive (answers.map fun ans => (.rimsg, riMap app manager ans)) = some stream ∧
      (Packet.receiveAll textArchive stream).map (handleRimsg (handleRiMsg kind)) =
        answers.map fun ans =>
          some ⟨getDataId kind ans.args.datum, ans.dsId, ans.request.point kind ans.args.datum⟩ := by
  constructor
  · have hshort : ∀ m ∈ msgs.map (appMap app), MapSizes.Short limits m := by
      intro m hm
      obtain ⟨msg, hmsg, rfl⟩ := List.mem_map.mp hm
      exact short_appMap happ (hmsgs msg hmsg)
    obtain ⟨stream, hsend, hreceive⟩ := rimsgs_arrive hshort
    refine ⟨stream, by rwa [List.map_map] at hsend, ?_⟩
    calc (Packet.receiveAll textArchive stream).map (fun p => (handleRimsg (handleAppMsg call) p).map (·.map Action.argsOnly))
        = ((Packet.receiveAll textArchive stream).map (handleRimsg (handleAppMsg call))).map (·.map (·.map Action.argsOnly)) :=
          by rw [List.map_map]; rfl
      _ = (msgs.map (fun m => handleAppMsg call (appMap app m))).map (·.map (·.map Action.argsOnly)) := by
          rw [hreceive, List.map_map, List.map_map, List.map_map]
          rfl
      _ = msgs.map (fun m => some (some (m.action call app.id (encodeLong (fun _ => none) m.args.long)))) := by
          rw [List.map_map]
          exact List.map_congr_left fun m _ => received_argsOnly call app m
  · have hshort : ∀ m ∈ answers.map (riMap app manager), MapSizes.Short limits m := by
      intro m hm
      obtain ⟨ans, hans, rfl⟩ := List.mem_map.mp hm
      exact short_riMap happ hmanager (hanswers ans hans)
    obtain ⟨stream, hsend, hreceive⟩ := rimsgs_arrive hshort
    refine ⟨stream, by rwa [List.map_map] at hsend, ?_⟩
    rw [hreceive, List.map_map]
    refine List.map_congr_left fun ans _ => ?_
    rw [Function.comp_apply, answer_handled]

/-- A put, a blocking get and its end, and the two answers. -/
theorem unit_messages_handled :
    (∃ stream, Packet.sendAll textArchive ([AppMsg.request .put unitArgs, .request (.get true) unitArgs,
        .getDone true unitArgs].map fun m => (.rimsg, appMap appNode m)) = some stream ∧
      (Packet.receiveAll textArchive stream).map (fun p =>
          (handleRimsg (handleAppMsg (N := SDMStores.Slave QTable.KVTable.State) RIManager.allSent) p).map (·.map Action.argsOnly)) =
        [AppMsg.request .put unitArgs, .request (.get true) unitArgs, .getDone true unitArgs].map fun m =>
          some (some (m.action RIManager.allSent appNode.id (encodeLong (fun _ => none) m.args.long)))) ∧
    ∃ stream, Packet.sendAll textArchive ([Answer.mk .put unitArgs 2, Answer.mk (.get true) unitArgs (-1)].map fun ans =>
        (.rimsg, riMap appNode managerNode ans)) = some stream ∧
      (Packet.receiveAll textArchive stream).map (handleRimsg (handleRiMsg .kv)) =
        [Answer.mk .put unitArgs 2, Answer.mk (.get true) unitArgs (-1)].map fun ans =>
          some ⟨getDataId .kv ans.args.datum, ans.dsId, ans.request.point .kv ans.args.datum⟩ := by
  have hmsgs : ∀ m ∈ [AppMsg.request .put unitArgs, .request (.get true) unitArgs, .getDone true unitArgs],
      ShortArgs m.args := by
    simp only [List.forall_mem_cons, AppMsg.args, shortArgs_unitArgs]
    simp
  have hanswers : ∀ ans ∈ [Answer.mk .put unitArgs 2, Answer.mk (.get true) unitArgs (-1)], ShortArgs ans.args := by
    simp [shortArgs_unitArgs]
  exact app_messages_handled (N := SDMStores.Slave QTable.KVTable.State) rfl rfl hmsgs hanswers RIManager.allSent .kv

end Stream

/-! ## Runs -/

variable (N) in
/-- What happens at a manager: a message of an app comes in, or something else happens. -/
inductive Event where
  | app (n : Node) (call : Control.Call N) (msg : AppMsg)
  | other (a : Action N)

/-- The action on the map that has come in. -/
def Event.received : Event N → Option (Action N)
  | .app n call msg => (handleAppMsg call (appMap n msg)).join
  | .other a => some a

/-- The action on nothing but the arguments that the app was called with. -/
def Event.asked : Event N → Action N
  | .app n call msg => msg.action call n.id (encodeLong (fun _ => none) msg.args.long)
  | .other a => a

theorem received_asked (e : Event N) : ∃ a, e.received = some a ∧ a.argsOnly = e.asked.argsOnly := by
  cases e with
  | app n call msg =>
    refine ⟨msg.action call n.id (appMap n msg).get?, ?_, ?_⟩
    · rw [Event.received, appMsg_handled]
      rfl
    · rw [Event.asked, AppMsg.argsOnly_action, AppMsg.argsOnly_action, (encodes_appMap n msg).argsOnly_eq,
        MsgCoder.argsOnly_encodeLong]
  | other a => exact ⟨a, rfl, rfl⟩

theorem mapM_received (events : List (Event N)) : ∃ labels, events.mapM Event.received = some labels ∧
    labels.map Action.argsOnly = (events.map Event.asked).map Action.argsOnly := by
  induction events with
  | nil => exact ⟨[], rfl, rfl⟩
  | cons e events ih =>
    obtain ⟨a, ha, hargs⟩ := received_asked e
    obtain ⟨labels, hlabels, hrest⟩ := ih
    refine ⟨a :: labels, ?_, ?_⟩
    · rw [List.mapM_cons, ha, hlabels]
      rfl
    · rw [List.map_cons, List.map_cons, List.map_cons, hargs, hrest]

end AppWire
