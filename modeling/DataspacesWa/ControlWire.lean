import DataspacesWa.Packet
import DataspacesWa.RIManager
import DataspacesWa.SDMControl

/-!
# Control messages on the wire

A request of a slave and a request or a reply of the master is a map of
strings. Some replies are the request itself with another type. The node adds
its own id and type to each map, whatever they were, and the map goes out as a
packet. What is read back goes to a handler by its type, and the handler reads
the fields that it needs. Away from the master no handler reads the sender.
-/
namespace ControlWire

open Join (MsgMap Node genPacket value)
open LexicalCast (ofInt toInt? toInt?_ofInt)
open MsgCoder (Fields Decoded decode argsOf dataIdOfMap)
open Packet (PacketT)
open Patch (Datum DataIdT arrToStr getDataId hashStr)
open RIManager (datumOf)
open SDMControl (Msg State Choice Effect goOn notify)
open WASpace (Operations)

def sdmMquery : String := "sdm_mq"
def sdmMqueryReply : String := "sdm_mqr"
def sdmSqueryReply : String := "sdm_sqr"
def sdmRegAppReply : String := "sdm_rar"
def sdmPutNotification : String := "sdm_pn"
def sdmMoveReply : String := "sdm_mr"
def sdmDelReply : String := "sdm_dr"
def sdmAccess : String := "sdm_a"

/-! ## What is sent -/

/-- `encode_msg_map`, the short form with `NDIM`, into a `std::map`. -/
def encodeMsgMap (msgMap : MsgMap) (d : Datum) : MsgMap :=
  ((((msgMap.insert "ndim" (ofInt 3)).insert "key" d.key).insert "ver" (toString d.ver.toNat)).insert
    "lb_" (arrToStr d.lcoor.toList)).insert "ub_" (arrToStr d.ucoor.toList)

/-- `msg_map["type"] = type`, on a new map or on one that has come in. -/
def setType (msgMap : MsgMap) (type : String) : MsgMap := msgMap.insert "type" type

/-- `SDMSlave::reg_app` -/
def regAppMap (appId : Int32) : MsgMap :=
  (setType SortedMap.empty Patch.sdmRegApp).insert "app_id" (ofInt appId)

/-- `SDMSlave::add_access` -/
def accessMap (cId : Int32) (d : Datum) : MsgMap :=
  encodeMsgMap ((setType SortedMap.empty sdmAccess).insert "app_id" (ofInt cId)) d

/-- `SDMSlave::put` -/
def putNotificationMap (pId : Int32) (d : Datum) : MsgMap :=
  encodeMsgMap ((setType SortedMap.empty sdmPutNotification).insert "p_id" (ofInt pId)) d

/-- `SDMSlave::get` -/
def squeryMap (appId : Int32) (blocking : Bool) (d : Datum) : MsgMap :=
  let msgMap := (setType SortedMap.empty Patch.sdmSquery).insert "app_id" (ofInt appId)
  encodeMsgMap (if blocking then msgMap.insert "blocking" "" else msgMap) d

/-- `SDMSlave::notify_remote_get_done` -/
def moveReplyMap (d : Datum) : MsgMap := setType (encodeMsgMap SortedMap.empty d) sdmMoveReply

/-- `sdm_mquery`, `handle_sdm_squery` and `handle_wa_space_data_act` -/
def moveMap (fromId : Int32) (toId : String) (d : Datum) : MsgMap :=
  ((setType (encodeMsgMap SortedMap.empty d) Patch.sdmMove).insert "id" (ofInt fromId)).insert "to_id" toId

/-- The other half of `handle_wa_space_data_act`. -/
def delMap (d : Datum) : MsgMap := setType (encodeMsgMap SortedMap.empty d) Patch.sdmDel

/-- A message of the master or of a slave, and the type and map of its packet. -/
inductive Carries (master : Node) : Msg → PacketT × MsgMap → Prop where
  | connUp (n : Node) (hn : n.type = "s") : Carries master (.connUp n.id) (.joinAck, genPacket n SortedMap.empty)
  | regApp (n : Node) (hn : n.type = "s") (appId : Int32) :
      Carries master (.regApp n.id appId) (.cmsg, genPacket n (regAppMap appId))
  | access (n : Node) (hn : n.type = "s") (appId : Int32) (d : Datum) :
      Carries master (.access appId d) (.cmsg, genPacket n (accessMap appId d))
  | putNotification (n : Node) (hn : n.type = "s") (pId : Int32) (d : Datum) :
      Carries master (.putNotification n.id pId d) (.cmsg, genPacket n (putNotificationMap pId d))
  | squery (n : Node) (hn : n.type = "s") (appId : Int32) (blocking : Bool) (d : Datum) :
      Carries master (.squery n.id appId blocking d) (.cmsg, genPacket n (squeryMap appId blocking d))
  | moveReply (n : Node) (hn : n.type = "s") (d : Datum) :
      Carries master (.moveReply n.id d) (.cmsg, genPacket n (moveReplyMap d))
  -- `handle_sdm_del` sends the map back
  | delReply (n : Node) (hn : n.type = "s") {id : Int32} {d : Datum} {msgMap : MsgMap}
      (h : Carries master (.del id d) (.cmsg, msgMap)) :
      Carries master (.delReply d) (.cmsg, genPacket n (setType msgMap sdmDelReply))
  | move (fromId toId : Int32) (d : Datum) :
      Carries master (.move fromId toId d) (.cmsg, genPacket master (moveMap fromId (ofInt toId) d))
  -- `handle_sdm_squery` hands the id of the DS on as it has come
  | squeryMove (fromId : Int32) {id appId : Int32} {blocking : Bool} {d : Datum} {msgMap : MsgMap}
      (h : Carries master (.squery id appId blocking d) (.cmsg, msgMap)) :
      Carries master (.move fromId id d) (.cmsg, genPacket master (moveMap fromId (value msgMap "id") d))
  | del (id : Int32) (d : Datum) : Carries master (.del id d) (.cmsg, genPacket master (delMap d))
  -- `wait_for_move` has the map of the query, or that of `handle_wa_space_data_act`
  | squeryReply {id appId : Int32} {blocking : Bool} {d : Datum} {msgMap : MsgMap}
      (h : Carries master (.squery id appId blocking d) (.cmsg, msgMap)) :
      Carries master (.squeryReply id d) (.cmsg, genPacket master (setType msgMap sdmSqueryReply))
  | prefetchReply (id : Int32) (d : Datum) : Carries master (.squeryReply id d)
      (.cmsg, genPacket master (setType (encodeMsgMap SortedMap.empty d) sdmSqueryReply))
  | regAppReply {id appId : Int32} {msgMap : MsgMap} (h : Carries master (.regApp id appId) (.cmsg, msgMap)) :
      Carries master (.regAppReply id appId) (.cmsg, genPacket master (setType msgMap sdmRegAppReply))

/-! ## What is handled -/

/-- What a handler has read when it starts to act. -/
inductive Handled where
  | connUp (id : Int32)
  | regApp (appId id : Int32)
  | putNotification (pId : Int32) (f : Fields)
  -- the id of the app is read once there is something to move, and the datum once the move is claimed
  | squery (dataId : String) (toId : Int32) (blocking : Bool) (appId : Option Int32) (f : Decoded Fields)
  | moveReply (f : Fields)
  | delReply (dataId : String)
  | access (appId : Int32) (f : Fields)
  | mqueryReply (pId : Int32) (f : Fields)
  | mquery (f : Fields)
  | squeryReply (dataId : String)
  | regAppReply (appId : String)
  | move (toId : Int32) (dataId : String) (f : Decoded Fields)
  | del
  /-- There is nothing but a line in the log. -/
  | dropped
  /-- A second master is not supported. -/
  | exit
  deriving DecidableEq

/-- The handlers that parse the arguments first; there is no result where the parse leaves the defined. -/
def decodeThen (msgMap : MsgMap) (act : Fields → Option Handled) : Option Handled :=
  match decode msgMap.get? with
  | .ok f => act f
  | .err => some .dropped
  | _ => none

section Handlers
variable (kind : DataIdT) (msgMap : MsgMap)

def handleSdmMquery : Option Handled := decodeThen msgMap fun f => some (.mquery f)

def handleSdmSqueryReply : Option Handled := some (.squeryReply (dataIdOfMap msgMap.get? kind))

def handleSdmRegAppReply : Option Handled := some (.regAppReply (value msgMap "app_id"))

/-- `handle_sdm_move` through `RIManager::handle_dm_move`, where `remote_put` parses the map. -/
def handleSdmMove : Option Handled :=
  (toInt? (value msgMap "to_id")).map fun toId => .move toId (dataIdOfMap msgMap.get? kind) (decode msgMap.get?)

/-- `handle_sdm_del`; `RIManager::handle_dm_del` does nothing. -/
def handleSdmDel : Option Handled := some .del

/-- `SDMSlave::handle_msg_in` -/
def slaveHandleMsgIn : Option Handled :=
  let type := value msgMap "type"
  if type = sdmMquery then handleSdmMquery msgMap
  else if type = sdmSqueryReply then handleSdmSqueryReply kind msgMap
  else if type = sdmRegAppReply then handleSdmRegAppReply msgMap
  else if type = Patch.sdmMove then handleSdmMove kind msgMap
  else if type = Patch.sdmDel then handleSdmDel
  else some .dropped

/-- `strcmp` -/
def cstrEquals (x y : String) : Bool := Packet.cStr x.toList = Packet.cStr y.toList

/-- `SDMMaster::handle_conn_up` -/
def masterHandleConnUp : Option Handled :=
  if cstrEquals (value msgMap "node_type") "s" then (toInt? (value msgMap "id")).map .connUp
  else if cstrEquals (value msgMap "node_type") "m" then some .exit
  else some .dropped

def handleSdmMqueryReply : Option Handled :=
  if value msgMap "ack" = "n" then some .dropped
  else decodeThen msgMap fun f => (toInt? (value msgMap "p_id")).map fun pId => .mqueryReply pId f

def handleSdmRegApp : Option Handled :=
  (toInt? (value msgMap "app_id")).bind fun appId => (toInt? (value msgMap "id")).map fun id => .regApp appId id

def handleSdmPutNotification : Option Handled :=
  decodeThen msgMap fun f => (toInt? (value msgMap "p_id")).map fun pId => .putNotification pId f

def handleSdmSquery : Option Handled :=
  (toInt? (value msgMap "id")).map fun toId => .squery (dataIdOfMap msgMap.get? kind) toId
    (msgMap.contains "blocking") (toInt? (value msgMap "app_id")) (decode msgMap.get?)

def handleSdmMoveReply : Option Handled := decodeThen msgMap fun f => some (.moveReply f)

def handleSdmDelReply : Option Handled := some (.delReply (dataIdOfMap msgMap.get? kind))

def handleSdmAccess : Option Handled :=
  decodeThen msgMap fun f => (toInt? (value msgMap "app_id")).map fun appId => .access appId f

/-- `SDMMaster::handle_msg_in` -/
def masterHandleMsgIn : Option Handled :=
  let type := value msgMap "type"
  if type = sdmMqueryReply then handleSdmMqueryReply msgMap
  else if type = Patch.sdmRegApp then handleSdmRegApp msgMap
  else if type = sdmPutNotification then handleSdmPutNotification msgMap
  else if type = Patch.sdmSquery then handleSdmSquery kind msgMap
  else if type = sdmMoveReply then handleSdmMoveReply msgMap
  else if type = sdmDelReply then handleSdmDelReply kind msgMap
  else if type = sdmAccess then handleSdmAccess msgMap
  else slaveHandleMsgIn kind msgMap

end Handlers

/-- `handle_cmsg`, for the packets that `handle_recv` passes on. -/
def handleCmsg (atMaster : Bool) (kind : DataIdT) (p : Char × MsgMap) : Option Handled :=
  if p.1 = PacketT.joinAck.char then if atMaster then masterHandleConnUp p.2 else some .dropped
  else if p.1 = PacketT.cmsg.char then
    if atMaster then masterHandleMsgIn kind p.2 else slaveHandleMsgIn kind p.2
  else some .dropped

/-- The first step of a handler of the master, where `sender` is for the log of the model. -/
def Handled.effect {W : Type} [Operations W] (me sender : Int32) (s : State W) (t : Nat) (c : Choice) :
    Handled → Option (Effect W)
  | .connUp id => SDMControl.effect me s t c (.connUp id)
  | .regApp appId id => SDMControl.effect me s t c (.regApp id appId)
  | .putNotification pId f =>
    (datumOf f).bind fun d => SDMControl.effect me s t c (.putNotification sender pId d)
  | .squery dataId toId blocking (some appId) (.ok f) =>
    if dataId ∈ s.moving toId then some (goOn s .ended)
    else (datumOf f).map fun d => goOn s (.push ⟨toId, d, .squery appId blocking⟩)
  | .moveReply f => (datumOf f).bind fun d => SDMControl.effect me s t c (.moveReply sender d)
  | .delReply dataId => notify s (hashStr (Patch.sdmDel ++ "_" ++ dataId)) c .ended
  | .access appId f => (datumOf f).bind fun d => SDMControl.effect me s t c (.addAccess appId d)
  | _ => none

/-- What is to be handled of a message. -/
def handledOf (kind : DataIdT) : Msg → Option Handled
  | .connUp id => some (.connUp id)
  | .regApp id appId => some (.regApp appId id)
  | .access appId d => some (.access appId (argsOf d).toFields)
  | .putNotification _ pId d => some (.putNotification pId (argsOf d).toFields)
  | .squery id appId blocking d =>
    some (.squery (getDataId kind d) id blocking (some appId) (.ok (argsOf d).toFields))
  | .moveReply _ d => some (.moveReply (argsOf d).toFields)
  | .delReply d => some (.delReply (getDataId kind d))
  | .move _ toId d => some (.move toId (getDataId kind d) (.ok (argsOf d).toFields))
  | .del _ _ => some .del
  | .squeryReply _ d => some (.squeryReply (getDataId kind d))
  | .regAppReply _ appId => some (.regAppReply (ofInt appId))
  | .data _ _ _ => none

/-- Whether it is the master that gets the message. -/
def toMaster : Msg → Bool
  | .connUp _ | .regApp _ _ | .access _ _ | .putNotification _ _ _ | .squery _ _ _ _ | .moveReply _ _ | .delReply _ => true
  | _ => false

/-! ## The arguments in a map -/

/-- The map has the datum in the fields of the short form. -/
structure Encodes (msgMap : MsgMap) (d : Datum) : Prop where
  ndim : value msgMap "ndim" = ofInt 3
  key : value msgMap "key" = d.key
  ver : value msgMap "ver" = toString d.ver.toNat
  lb : value msgMap "lb_" = arrToStr d.lcoor.toList
  ub : value msgMap "ub_" = arrToStr d.ucoor.toList

section Fields
variable {msgMap : MsgMap} {d : Datum}

theorem value_insert (msgMap : MsgMap) (k k' v : String) :
    value (msgMap.insert k v) k' = if k' = k then v else value msgMap k' := by
  simp only [value, SortedMap.get?_insert]
  split <;> rfl

theorem contains_insert (msgMap : MsgMap) (k k' v : String) :
    (msgMap.insert k v).contains k' = (decide (k' = k) || msgMap.contains k') := by
  by_cases h : k' = k <;> simp [SortedMap.contains, SortedMap.get?_insert, h]

theorem contains_empty (k : String) : (SortedMap.empty : MsgMap).contains k = false := rfl

theorem encodes_encodeMsgMap (msgMap : MsgMap) (d : Datum) : Encodes (encodeMsgMap msgMap d) d := by
  constructor <;> simp [encodeMsgMap, value_insert]

theorem Encodes.insert (h : Encodes msgMap d) {k : String} (hk : k ∉ MsgCoder.shortKeys) (v : String) :
    Encodes (msgMap.insert k v) d := by
  simp only [MsgCoder.shortKeys, List.mem_cons, List.not_mem_nil, or_false, not_or] at hk
  obtain ⟨hndim, hkey, hver, hlb, hub⟩ := hk
  constructor
  · rw [value_insert, if_neg (Ne.symm hndim), h.ndim]
  · rw [value_insert, if_neg (Ne.symm hkey), h.key]
  · rw [value_insert, if_neg (Ne.symm hver), h.ver]
  · rw [value_insert, if_neg (Ne.symm hlb), h.lb]
  · rw [value_insert, if_neg (Ne.symm hub), h.ub]

theorem Encodes.genPacket (h : Encodes msgMap d) (n : Node) : Encodes (genPacket n msgMap) d :=
  (h.insert (by decide) _).insert (by decide) _

theorem Encodes.decode (h : Encodes msgMap d) : decode msgMap.get? = .ok (argsOf d).toFields :=
  MsgCoder.decode_of_read (argsOf d) h.ndim h.key h.ver h.lb h.ub

theorem Encodes.decodeThen (h : Encodes msgMap d) (act : Fields → Option Handled) :
    decodeThen msgMap act = act (argsOf d).toFields := by
  rw [ControlWire.decodeThen, h.decode]

theorem Encodes.dataId (h : Encodes msgMap d) (kind : DataIdT) : dataIdOfMap msgMap.get? kind = getDataId kind d := by
  have hread : ∀ k, MsgCoder.read msgMap.get? k = value msgMap k := fun _ => rfl
  cases kind with
  | kv => rw [dataIdOfMap, hread, hread, h.key, h.ver, getDataId]
  | lucoor => rw [dataIdOfMap, hread, hread, h.lb, h.ub, getDataId]

end Fields

/-! ## From the map to the handler -/

section Handled
variable (kind : DataIdT) (n : Node) {msgMap : MsgMap} {d : Datum}

theorem handleCmsg_master (msgMap : MsgMap) :
    handleCmsg true kind (PacketT.cmsg.char, msgMap) = masterHandleMsgIn kind msgMap := by
  simp [handleCmsg, PacketT.char]

theorem handleCmsg_slave (msgMap : MsgMap) :
    handleCmsg false kind (PacketT.cmsg.char, msgMap) = slaveHandleMsgIn kind msgMap := by
  simp [handleCmsg, PacketT.char]

theorem connUp_handled (hn : n.type = "s") :
    masterHandleConnUp (genPacket n SortedMap.empty) = some (.connUp n.id) := by
  have htype : cstrEquals (value (genPacket n SortedMap.empty) "node_type") "s" = true := by
    simp [genPacket, value_insert, hn, cstrEquals]
  have hid : value (genPacket n SortedMap.empty) "id" = ofInt n.id := by simp [genPacket, value_insert]
  rw [masterHandleConnUp, if_pos htype, hid, toInt?_ofInt]
  rfl

theorem regApp_handled (appId : Int32) :
    masterHandleMsgIn kind (genPacket n (regAppMap appId)) = some (.regApp appId n.id) := by
  have htype : value (genPacket n (regAppMap appId)) "type" = Patch.sdmRegApp := by
    simp [genPacket, regAppMap, setType, value_insert]
  have happ : value (genPacket n (regAppMap appId)) "app_id" = ofInt appId := by
    simp [genPacket, regAppMap, value_insert]
  have hid : value (genPacket n (regAppMap appId)) "id" = ofInt n.id := by simp [genPacket, value_insert]
  rw [masterHandleMsgIn, htype]
  show handleSdmRegApp _ = _
  rw [handleSdmRegApp, happ, hid, toInt?_ofInt, toInt?_ofInt]
  rfl

theorem access_handled (appId : Int32) (d : Datum) :
    masterHandleMsgIn kind (genPacket n (accessMap appId d)) = some (.access appId (argsOf d).toFields) := by
  have htype : value (genPacket n (accessMap appId d)) "type" = sdmAccess := by
    simp [genPacket, accessMap, encodeMsgMap, setType, value_insert]
  have happ : value (genPacket n (accessMap appId d)) "app_id" = ofInt appId := by
    simp [genPacket, accessMap, encodeMsgMap, value_insert]
  have hdatum : Encodes (genPacket n (accessMap appId d)) d := (encodes_encodeMsgMap _ d).genPacket n
  rw [masterHandleMsgIn, htype]
  show handleSdmAccess _ = _
  rw [handleSdmAccess, hdatum.decodeThen, happ, toInt?_ofInt]
  rfl

theorem putNotification_handled (pId : Int32) (d : Datum) :
    masterHandleMsgIn kind (genPacket n (putNotificationMap pId d)) =
      some (.putNotification pId (argsOf d).toFields) := by
  have htype : value (genPacket n (putNotificationMap pId d)) "type" = sdmPutNotification := by
    simp [genPacket, putNotificationMap, encodeMsgMap, setType, value_insert]
  have hp : value (genPacket n (putNotificationMap pId d)) "p_id" = ofInt pId := by
    simp [genPacket, putNotificationMap, encodeMsgMap, value_insert]
  have hdatum : Encodes (genPacket n (putNotificationMap pId d)) d := (encodes_encodeMsgMap _ d).genPacket n
  rw [masterHandleMsgIn, htype]
  show handleSdmPutNotification _ = _
  rw [handleSdmPutNotification, hdatum.decodeThen, hp, toInt?_ofInt]
  rfl

theorem encodes_squeryMap (appId : Int32) (blocking : Bool) (d : Datum) :
    Encodes (genPacket n (squeryMap appId blocking d)) d := (encodes_encodeMsgMap _ d).genPacket n

theorem squery_handled (appId : Int32) (blocking : Bool) (d : Datum) :
    masterHandleMsgIn kind (genPacket n (squeryMap appId blocking d)) =
      some (.squery (getDataId kind d) n.id blocking (some appId) (.ok (argsOf d).toFields)) := by
  have htype : value (genPacket n (squeryMap appId blocking d)) "type" = Patch.sdmSquery := by
    cases blocking <;> simp [genPacket, squeryMap, encodeMsgMap, setType, value_insert]
  have hid : value (genPacket n (squeryMap appId blocking d)) "id" = ofInt n.id := by
    simp [genPacket, value_insert]
  have happ : value (genPacket n (squeryMap appId blocking d)) "app_id" = ofInt appId := by
    cases blocking <;> simp [genPacket, squeryMap, encodeMsgMap, value_insert]
  have hblocking : (genPacket n (squeryMap appId blocking d)).contains "blocking" = blocking := by
    cases blocking <;> simp [genPacket, squeryMap, encodeMsgMap, setType, contains_insert, contains_empty]
  have hdatum := encodes_squeryMap n appId blocking d
  rw [masterHandleMsgIn, htype]
  show handleSdmSquery kind _ = _
  rw [handleSdmSquery, hid, happ, hblocking, hdatum.decode, hdatum.dataId, toInt?_ofInt, toInt?_ofInt]
  rfl

theorem moveReply_handled (d : Datum) :
    masterHandleMsgIn kind (genPacket n (moveReplyMap d)) = some (.moveReply (argsOf d).toFields) := by
  have htype : value (genPacket n (moveReplyMap d)) "type" = sdmMoveReply := by
    simp [genPacket, moveReplyMap, setType, value_insert]
  have hdatum : Encodes (genPacket n (moveReplyMap d)) d :=
    ((encodes_encodeMsgMap _ d).insert (by decide) _).genPacket n
  rw [masterHandleMsgIn, htype]
  show handleSdmMoveReply _ = _
  rw [handleSdmMoveReply, hdatum.decodeThen]

theorem delReply_handled (h : Encodes msgMap d) :
    masterHandleMsgIn kind (genPacket n (setType msgMap sdmDelReply)) = some (.delReply (getDataId kind d)) := by
  have htype : value (genPacket n (setType msgMap sdmDelReply)) "type" = sdmDelReply := by
    simp [genPacket, setType, value_insert]
  have hdatum : Encodes (genPacket n (setType msgMap sdmDelReply)) d := (h.insert (by decide) _).genPacket n
  rw [masterHandleMsgIn, htype]
  show handleSdmDelReply kind _ = _
  rw [handleSdmDelReply, hdatum.dataId]

theorem move_handled (fromId : Int32) {toId : Int32} {str : String} (hstr : toInt? str = some toId) (d : Datum) :
    slaveHandleMsgIn kind (genPacket n (moveMap fromId str d)) =
      some (.move toId (getDataId kind d) (.ok (argsOf d).toFields)) := by
  have htype : value (genPacket n (moveMap fromId str d)) "type" = Patch.sdmMove := by
    simp [genPacket, moveMap, setType, value_insert]
  have hto : value (genPacket n (moveMap fromId str d)) "to_id" = str := by
    simp [genPacket, moveMap, value_insert]
  have hdatum : Encodes (genPacket n (moveMap fromId str d)) d :=
    ((((encodes_encodeMsgMap _ d).insert (by decide) _).insert (by decide) _).insert (by decide) _).genPacket n
  rw [slaveHandleMsgIn, htype]
  show handleSdmMove kind _ = _
  rw [handleSdmMove, hto, hstr, hdatum.decode, hdatum.dataId]
  rfl

theorem encodes_delMap (d : Datum) : Encodes (genPacket n (delMap d)) d :=
  ((encodes_encodeMsgMap _ d).insert (by decide) _).genPacket n

theorem del_handled (d : Datum) : slaveHandleMsgIn kind (genPacket n (delMap d)) = some .del := by
  have htype : value (genPacket n (delMap d)) "type" = Patch.sdmDel := by
    simp [genPacket, delMap, setType, value_insert]
  rw [slaveHandleMsgIn, htype]
  rfl

theorem squeryReply_handled (h : Encodes msgMap d) :
    slaveHandleMsgIn kind (genPacket n (setType msgMap sdmSqueryReply)) =
      some (.squeryReply (getDataId kind d)) := by
  have htype : value (genPacket n (setType msgMap sdmSqueryReply)) "type" = sdmSqueryReply := by
    simp [genPacket, setType, value_insert]
  have hdatum : Encodes (genPacket n (setType msgMap sdmSqueryReply)) d := (h.insert (by decide) _).genPacket n
  rw [slaveHandleMsgIn, htype]
  show handleSdmSqueryReply kind _ = _
  rw [handleSdmSqueryReply, hdatum.dataId]

theorem regAppReply_handled {appId : Int32} (h : value msgMap "app_id" = ofInt appId) :
    slaveHandleMsgIn kind (genPacket n (setType msgMap sdmRegAppReply)) = some (.regAppReply (ofInt appId)) := by
  have htype : value (genPacket n (setType msgMap sdmRegAppReply)) "type" = sdmRegAppReply := by
    simp [genPacket, setType, value_insert]
  have happ : value (genPacket n (setType msgMap sdmRegAppReply)) "app_id" = ofInt appId := by
    simp [genPacket, setType, value_insert, h]
  rw [slaveHandleMsgIn, htype]
  show handleSdmRegAppReply _ = _
  rw [handleSdmRegAppReply, happ]

end Handled

section Carried
variable {master : Node} {msg : Msg} {type : PacketT} {msgMap : MsgMap} {d : Datum} {id appId : Int32}

theorem Carries.squery_id {blocking : Bool} (h : Carries master (.squery id appId blocking d) (type, msgMap)) :
    Encodes msgMap d ∧ value msgMap "id" = ofInt id := by
  cases h with
  | squery n hn => exact ⟨encodes_squeryMap n appId blocking d, by simp [genPacket, value_insert]⟩

theorem Carries.del_encodes (h : Carries master (.del id d) (type, msgMap)) : Encodes msgMap d := by
  cases h with
  | del => exact encodes_delMap master d

theorem Carries.regApp_id (h : Carries master (.regApp id appId) (type, msgMap)) :
    value msgMap "app_id" = ofInt appId := by
  cases h with
  | regApp n hn => simp [genPacket, regAppMap, value_insert]

/-- A message of the wire is handled with the arguments that it was sent with, also where it is the request
that comes back. -/
theorem Carries.handled (h : Carries master msg (type, msgMap)) (kind : DataIdT) :
    handleCmsg (toMaster msg) kind (type.char, msgMap) = handledOf kind msg := by
  cases h with
  | connUp n hn => exact connUp_handled n hn
  | regApp n _ appId => exact (handleCmsg_master kind _).trans (regApp_handled kind n appId)
  | access n _ appId d => exact (handleCmsg_master kind _).trans (access_handled kind n appId d)
  | putNotification n _ pId d => exact (handleCmsg_master kind _).trans (putNotification_handled kind n pId d)
  | squery n _ appId blocking d => exact (handleCmsg_master kind _).trans (squery_handled kind n appId blocking d)
  | moveReply n _ d => exact (handleCmsg_master kind _).trans (moveReply_handled kind n d)
  | delReply n _ h => exact (handleCmsg_master kind _).trans (delReply_handled kind n h.del_encodes)
  | move fromId toId d => exact (handleCmsg_slave kind _).trans (move_handled kind master fromId (toInt?_ofInt toId) d)
  | squeryMove fromId h =>
    have hto := h.squery_id.2 ▸ toInt?_ofInt _
    exact (handleCmsg_slave kind _).trans (move_handled kind master fromId hto _)
  | del id d => exact (handleCmsg_slave kind _).trans (del_handled kind master d)
  | squeryReply h => exact (handleCmsg_slave kind _).trans (squeryReply_handled kind master h.squery_id.1)
  | prefetchReply id d =>
    exact (handleCmsg_slave kind _).trans (squeryReply_handled kind master (encodes_encodeMsgMap _ d))
  | regAppReply h => exact (handleCmsg_slave kind _).trans (regAppReply_handled kind master h.regApp_id)

end Carried

/-! ## From the handler to the model -/

/-- The effect at the master of a packet that has come in. -/
def wireEffect {W : Type} [Operations W] (me : Int32) (s : State W) (t : Nat) (c : Choice) (p : Char × MsgMap) :
    Option (Effect W) :=
  (handleCmsg true (Operations.dataIdT W) p).bind
    (Handled.effect me ((toInt? (value p.2 "id")).getD 0) s t c)

/-- The handler of a message does what the thread of the message does in its first step. -/
theorem effect_handledOf {W : Type} [Operations W] (me sender : Int32) (s : State W) (t : Nat) (c : Choice) {msg : Msg}
    (hto : toMaster msg = true) (hsender : ∀ id d, msg = .moveReply id d → sender = id) :
    (handledOf (Operations.dataIdT W) msg).bind (Handled.effect me sender s t c) =
      (msg.handler (W := W)).bind (SDMControl.effect me s t c) := by
  have hdatum : ∀ d, datumOf (argsOf d).toFields = some d := RIManager.datumOf_argsOf
  cases msg with
  | connUp id => rfl
  | regApp id appId => rfl
  | access appId d => simp [handledOf, Handled.effect, Msg.handler, hdatum]
  | putNotification id pId d =>
    simp only [handledOf, Handled.effect, Msg.handler, hdatum, Option.bind_some]
    rfl
  | squery id appId blocking d =>
    simp only [handledOf, Handled.effect, Msg.handler, hdatum, Option.bind_some]
    rfl
  | moveReply id d =>
    obtain rfl := hsender id d rfl
    simp [handledOf, Handled.effect, Msg.handler, hdatum]
  | delReply d => rfl
  | move | del | squeryReply | regAppReply | data => cases hto

theorem Carries.effect {W : Type} [Operations W] {master : Node} {msg : Msg} {type : PacketT} {msgMap : MsgMap}
    (h : Carries master msg (type, msgMap)) (hto : toMaster msg = true) (me : Int32) (s : State W) (t : Nat) (c : Choice) :
    wireEffect me s t c (type.char, msgMap) = (msg.handler (W := W)).bind (SDMControl.effect me s t c) := by
  have hhandled := h.handled (Operations.dataIdT W)
  rw [hto] at hhandled
  rw [wireEffect, hhandled]
  refine effect_handledOf me _ s t c hto ?_
  rintro id d rfl
  cases h with
  | moveReply n hn d =>
    have hid : value (genPacket n (moveReplyMap d)) "id" = ofInt n.id := by simp [genPacket, value_insert]
    rw [hid, toInt?_ofInt]
    rfl

end ControlWire
