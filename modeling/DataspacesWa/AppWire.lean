import DataspacesWa.ControlWire
import DataspacesWa.MapSizes

/-!
# Messages of the apps

An app asks the manager of its DS with a map of its id and the arguments, and
tells it with the same map, under another type, that it has got the data. The
manager answers with the map that has come in, with the type of the reply and
the id of a DS. As both ends read the arguments out of the maps, they find the
same data id, and the app the point that its thread waits at.
-/
namespace AppWire

open ControlWire (setType value_insert)
open Join (MsgMap Node genPacket value)
open LexicalCast (ofInt toInt? toInt?_ofInt)
open MapSizes (Short Clean limit Roomy)
open MsgCoder (LongArgs SameArgs argsOnly argsOf longArgsOf encodeLong decode)
open Packet (PacketT)
open Patch (Datum DataIdT arrToStr getDataId hashStr)
open RIManager (Control Action datumOf)
open TextArchive (textArchive)

def get : String := "g"
def getReply : String := "gr"
def blockingGet : String := "bg"
def blockingGetReply : String := "bgr"
def getDone : String := "gd"
def put : String := "p"
def putReply : String := "pr"

/-! ## What is sent -/

/-- What an app puts or asks for, with boxes of `NDIM` dimensions. -/
structure Args where
  datum : Datum
  dataType : String
  size : Int32
  gdim : Vector UInt64 Patch.ndim

def Args.long (a : Args) : LongArgs := longArgsOf a.datum a.dataType a.size a.gdim

/-- `encode_msg_map`, the long form, into a `std::map`. -/
def encodeMsgMap (msgMap : MsgMap) (a : LongArgs) : MsgMap :=
  (((((((msgMap.insert "key" a.key).insert "ver" (toString a.ver.toNat)).insert "data_type" a.dataType).insert
    "size" (ofInt a.size)).insert "ndim" (ofInt a.ndim)).insert "gdim_" (arrToStr a.gdim)).insert
    "lb_" (arrToStr a.lb)).insert "ub_" (arrToStr a.ub)

inductive Request where
  | put
  | get (blocking : Bool)
  deriving DecidableEq

def Request.type : Request → String
  | .put => AppWire.put
  | .get true => blockingGet
  | .get false => AppWire.get

def Request.replyType : Request → String
  | .put => putReply
  | .get true => blockingGetReply
  | .get false => getReply

/-- The map of `WADSDriver::put` and `WADSDriver::get`. -/
def requestMap (r : Request) (appId : Int32) (a : Args) : MsgMap :=
  encodeMsgMap ((setType SortedMap.empty r.type).insert "cl_id" (ofInt appId)) a.long

/-- A message of an app. -/
inductive AppMsg where
  | request (r : Request) (a : Args)
  | getDone (blocking : Bool) (a : Args)

def AppMsg.args : AppMsg → Args
  | .request _ a => a
  | .getDone _ a => a

/-- `WADSDriver::get` keeps the map of its request. -/
def AppMsg.map (appId : Int32) : AppMsg → MsgMap
  | .request r a => requestMap r appId a
  | .getDone blocking a => setType (requestMap (.get blocking) appId a) AppWire.getDone

/-- As it is sent by the node of the app. -/
def appMap (app : Node) (msg : AppMsg) : MsgMap := genPacket app (msg.map app.id)

/-- An answer to a request. -/
structure Answer where
  request : Request
  args : Args
  dsId : Int32

/-- What `handle_get` and `handle_put` send back. -/
def replyMap (msgMap : MsgMap) (r : Request) (dsId : Int32) : MsgMap :=
  (setType msgMap r.replyType).insert "ds_id" (ofInt dsId)

def riMap (app manager : Node) (ans : Answer) : MsgMap :=
  genPacket manager (replyMap (appMap app (.request ans.request ans.args)) ans.request ans.dsId)

/-! ## What is handled -/

/-- `handle_app_msg`, the handler that is called, if one is; there is no result where the id cannot be read. -/
def handleAppMsg {N : Type} [Control N] (call : Control.Call N) (msgMap : MsgMap) : Option (Option (Action N)) :=
  let type := value msgMap "type"
  (toInt? (value msgMap "cl_id")).map fun clId =>
    if type = get then some (.get call false clId msgMap.get?)
    else if type = blockingGet then some (.get call true clId msgMap.get?)
    else if type = getDone then some (.getDone msgMap.get?)
    else if type = put then some (.put call clId msgMap.get?)
    else none

/-- What an app does on a reply: an entry of `data_id__ds_id_map`, and a point that is notified. -/
structure Woken where
  dataId : String
  dsId : Int32
  syncPoint : UInt32
  deriving DecidableEq

/-- `handle_ri_msg`; nothing is notified where the parse fails. -/
def handleRiMsg (kind : DataIdT) (msgMap : MsgMap) : Option Woken :=
  match decode msgMap.get? with
  | .ok f => (datumOf f).bind fun d => (toInt? (value msgMap "ds_id")).map fun dsId =>
    let dataId := getDataId kind d
    ⟨dataId, dsId, hashStr (value msgMap "type" ++ "_" ++ dataId)⟩
  | _ => none

/-- The point at which the thread of the request waits. -/
def Request.point (kind : DataIdT) (r : Request) (d : Datum) : UInt32 :=
  hashStr (r.replyType ++ "_" ++ getDataId kind d)

/-- `handle_recv` at a node whose `rimsg_recv_cb` is `cb`. -/
def handleRimsg {α : Type} (cb : MsgMap → Option α) (p : Char × MsgMap) : Option α :=
  if p.1 = PacketT.rimsg.char then cb p.2 else none

/-- The action of the manager on a message. -/
def AppMsg.action {N : Type} [Control N] (call : Control.Call N) (clId : Int32) (msgMap : MsgCoder.MsgMap) :
    AppMsg → Action N
  | .request .put _ => .put call clId msgMap
  | .request (.get blocking) _ => .get call blocking clId msgMap
  | .getDone _ _ => .getDone msgMap

/-! ## The arguments in a map -/

section Fields
variable {msgMap : MsgMap} {a : LongArgs}

theorem get?_encodeMsgMap (msgMap : MsgMap) (a : LongArgs) :
    (encodeMsgMap msgMap a).get? = encodeLong msgMap.get? a := by
  funext k
  simp only [encodeMsgMap, encodeLong, SortedMap.get?_insert, Function.update_apply]

/-- The map has the arguments of the long form. -/
def Encodes (msgMap : MsgMap) (a : LongArgs) : Prop := SameArgs msgMap.get? (encodeLong (fun _ => none) a)

theorem encodes_encodeMsgMap (msgMap : MsgMap) (a : LongArgs) : Encodes (encodeMsgMap msgMap a) a := by
  intro k hk
  rw [get?_encodeMsgMap]
  simp only [MsgCoder.longKeys, List.mem_cons, List.not_mem_nil, or_false] at hk
  rcases hk with rfl | rfl | rfl | rfl | rfl | rfl | rfl | rfl <;> simp [MsgCoder.read, encodeLong]

theorem Encodes.insert (h : Encodes msgMap a) {k : String} (hk : k ∉ MsgCoder.longKeys) (v : String) :
    Encodes (msgMap.insert k v) a := by
  intro k' hk'
  have hne : k' ≠ k := by
    rintro rfl
    exact hk hk'
  rw [← h k' hk', MsgCoder.read, MsgCoder.read, SortedMap.get?_insert_ne msgMap v hne]

theorem Encodes.genPacket (h : Encodes msgMap a) (n : Node) : Encodes (genPacket n msgMap) a :=
  (h.insert (by decide) _).insert (by decide) _

theorem Encodes.argsOnly_eq (h : Encodes msgMap a) : argsOnly msgMap.get? = encodeLong (fun _ => none) a :=
  (SameArgs.argsOnly_eq h).trans (MsgCoder.argsOnly_encodeLong a)

theorem Encodes.decode (h : Encodes msgMap a) : decode msgMap.get? = .ok a.toFields :=
  (SameArgs.decode_eq h).trans (MsgCoder.decode_encodeLong _ a)

theorem encodes_appMap (app : Node) (msg : AppMsg) : Encodes (appMap app msg) msg.args.long := by
  cases msg with
  | request r a => exact (encodes_encodeMsgMap _ a.long).genPacket app
  | getDone blocking a => exact ((encodes_encodeMsgMap _ a.long).insert (by decide) _).genPacket app

theorem encodes_riMap (app manager : Node) (ans : Answer) : Encodes (riMap app manager ans) ans.args.long :=
  (((encodes_appMap app (.request ans.request ans.args)).insert (by decide) _).insert (by decide) _).genPacket manager

end Fields

/-! ## From the map to the handler -/

theorem appMap_type (app : Node) (msg : AppMsg) : value (appMap app msg) "type" =
    match msg with
    | .request r _ => r.type
    | .getDone _ _ => getDone := by
  cases msg <;> simp [appMap, genPacket, AppMsg.map, requestMap, encodeMsgMap, setType, value_insert]

theorem appMap_clId (app : Node) (msg : AppMsg) : value (appMap app msg) "cl_id" = ofInt app.id := by
  cases msg <;> simp [appMap, genPacket, AppMsg.map, requestMap, encodeMsgMap, setType, value_insert]

/-- The manager calls the handler of the message with the id of the app. -/
theorem appMsg_handled {N : Type} [Control N] (call : Control.Call N) (app : Node) (msg : AppMsg) :
    handleAppMsg call (appMap app msg) = some (some (msg.action call app.id (appMap app msg).get?)) := by
  rw [handleAppMsg, appMap_type, appMap_clId, toInt?_ofInt]
  cases msg with
  | request r a =>
    cases r with
    | put => rfl
    | get blocking => cases blocking <;> rfl
  | getDone blocking a => rfl

/-- The app notifies the point of the request, with the id that the manager has answered. -/
theorem answer_handled (kind : DataIdT) (app manager : Node) (ans : Answer) :
    handleRiMsg kind (riMap app manager ans) =
      some ⟨getDataId kind ans.args.datum, ans.dsId, ans.request.point kind ans.args.datum⟩ := by
  have hdecode : decode (riMap app manager ans).get? = .ok (argsOf ans.args.datum).toFields :=
    (encodes_riMap app manager ans).decode
  have htype : value (riMap app manager ans) "type" = ans.request.replyType := by
    simp [riMap, genPacket, replyMap, setType, value_insert]
  have hds : value (riMap app manager ans) "ds_id" = ofInt ans.dsId := by
    simp [riMap, genPacket, replyMap, value_insert]
  rw [handleRiMsg, hdecode, htype, hds, toInt?_ofInt]
  simp only [RIManager.datumOf_argsOf, Option.bind_some, Option.map_some]
  rfl

/-! ## What fits into a packet -/

def maxKey : Nat := 60
def maxDataType : Nat := 16

/-- The fields of the messages, with the length of the longest value of each. -/
def limits : List (String × Nat) :=
  [("type", 3), ("cl_id", 11), ("ds_id", 11), ("key", maxKey), ("ver", 10), ("data_type", maxDataType), ("size", 11),
    ("ndim", 1), ("gdim_", 62), ("lb_", 62), ("ub_", 62), ("id", 11), ("node_type", 1)]

theorem limits_roomy : Roomy limits := by decide

/-- The two names that an app chooses are not too long and have no NUL. -/
structure ShortArgs (a : Args) : Prop where
  key : a.datum.key.toList.length ≤ maxKey ∧ Clean a.datum.key
  dataType : a.dataType.toList.length ≤ maxDataType ∧ Clean a.dataType

section Short
variable {msgMap : MsgMap} {a : Args} {app manager : Node}

theorem short_encodeMsgMap (h : Short limits msgMap) (ha : ShortArgs a) : Short limits (encodeMsgMap msgMap a.long) := by
  unfold encodeMsgMap
  refine Short.insert ?_ (by decide) (MapSizes.length_corner a.datum.ucoor) (MapSizes.clean_arrToStr _)
  refine Short.insert ?_ (by decide) (MapSizes.length_corner a.datum.lcoor) (MapSizes.clean_arrToStr _)
  refine Short.insert ?_ (by decide) (MapSizes.length_corner a.gdim) (MapSizes.clean_arrToStr _)
  have hndim : (ofInt 3).toList.length ≤ limit limits "ndim" := by decide
  refine Short.insert ?_ (by decide) hndim (MapSizes.clean_ofInt 3)
  refine Short.insertInt ?_ "size" (by decide) (by decide) a.size
  refine Short.insert ?_ (by decide) ha.dataType.1 ha.dataType.2
  refine Short.insert ?_ (by decide) (MapSizes.length_ver a.datum.ver) (MapSizes.clean_toString _)
  exact h.insert (by decide) ha.key.1 ha.key.2

theorem short_setType (h : Short limits msgMap) (type : String) (ht : type.toList.length ≤ 3 ∧ Clean type) :
    Short limits (setType msgMap type) := h.insert (by decide) ht.1 ht.2

theorem short_genPacket (h : Short limits msgMap) {n : Node} (hn : n.type = "s" ∨ n.type = "m") :
    Short limits (genPacket n msgMap) := by
  refine (h.insertInt "id" (by decide) (by decide) n.id).insert (by decide) ?_ ?_
  · rcases hn with hn | hn <;> rw [hn] <;> decide
  · rcases hn with hn | hn <;> rw [hn] <;> decide

theorem short_requestMap (r : Request) (appId : Int32) (ha : ShortArgs a) : Short limits (requestMap r appId a) := by
  have ht : r.type.toList.length ≤ 3 ∧ Clean r.type := by
    cases r with
    | put => decide
    | get blocking => cases blocking <;> decide
  have hbase := short_setType (MapSizes.short_empty limits) r.type ht
  exact short_encodeMsgMap (hbase.insertInt "cl_id" (by decide) (by decide) appId) ha

theorem short_appMap (happ : app.type = "s") {msg : AppMsg} (ha : ShortArgs msg.args) : Short limits (appMap app msg) := by
  cases msg with
  | request r a => exact short_genPacket (short_requestMap r app.id ha) (.inl happ)
  | getDone blocking a =>
    have hrequest := short_requestMap (.get blocking) app.id ha
    exact short_genPacket (short_setType hrequest getDone (by decide)) (.inl happ)

theorem short_riMap (happ : app.type = "s") (hmanager : manager.type = "m") {ans : Answer} (ha : ShortArgs ans.args) :
    Short limits (riMap app manager ans) := by
  have ht : ans.request.replyType.toList.length ≤ 3 ∧ Clean ans.request.replyType := by
    cases ans.request with
    | put => decide
    | get blocking => cases blocking <;> decide
  have hrequest : Short limits (appMap app (.request ans.request ans.args)) := short_appMap happ ha
  have hreply := (short_setType hrequest ans.request.replyType ht).insertInt "ds_id" (by decide) (by decide) ans.dsId
  exact short_genPacket hreply (.inr hmanager)

end Short

/-! ## Streams -/

/-- Short maps come out of a stream of `RIMSG` packets as they went in, to be handled one by one. -/
theorem rimsgs_arrive {maps : List MsgMap} (h : ∀ m ∈ maps, Short limits m) :
    ∃ stream, Packet.sendAll textArchive (maps.map fun m => (.rimsg, m)) = some stream ∧
      ∀ {α : Type} (cb : MsgMap → Option α), (Packet.receiveAll textArchive stream).map (handleRimsg cb) = maps.map cb := by
  have hshort : ∀ p ∈ maps.map fun m => (PacketT.rimsg, m), Short limits p.2 := by
    intro p hp
    obtain ⟨m, hm, rfl⟩ := List.mem_map.mp hp
    exact h m hm
  obtain ⟨stream, hsend, hreceive⟩ := MapSizes.short_packets_arrive limits_roomy hshort
  refine ⟨stream, hsend, fun cb => ?_⟩
  rw [hreceive, List.map_map, List.map_map]
  rfl

/-- An app and its manager. -/
def appNode : Node := ⟨"s", true, 7, "127.0.0.1", 7003, SortedMap.empty⟩
def managerNode : Node := ⟨"m", true, 0, "127.0.0.1", 7004, SortedMap.empty⟩

def unitArgs : Args := ⟨SDMControl.unitBox "u", "double", 8, (SDMControl.unitBox "u").ucoor⟩

theorem shortArgs_unitArgs : ShortArgs unitArgs where
  key := by decide
  dataType := by decide

end AppWire
