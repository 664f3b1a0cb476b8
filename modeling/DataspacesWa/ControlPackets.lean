import DataspacesWa.ControlWire
import DataspacesWa.MapSizes

/-!
# Streams of control messages

The fields of the control messages are few, and all but the key of the datum
are short, so that a key of up to 100 bytes always fits into a packet, also in
a reply that is the request with more fields. Such messages come out of a
stream as they went in, and are handled with what their senders have put in.
-/
namespace ControlPackets

open ControlWire
open Join (MsgMap Node genPacket value)
open LexicalCast (ofInt)
open MapSizes (Short Clean limit Roomy)
open Packet (PacketT)
open Patch (Datum DataIdT)
open SDMControl (Msg State Choice)
open TextArchive (textArchive)
open WASpace (Operations)

/-! ## What fits into a packet -/

def maxKey : Nat := 100

/-- The fields of the control messages, with the length of the longest value of each. -/
def limits : List (String × Nat) :=
  [("type", 7), ("app_id", 11), ("p_id", 11), ("blocking", 0), ("ndim", 1), ("key", maxKey), ("ver", 10), ("lb_", 62),
    ("ub_", 62), ("id", 11), ("to_id", 11), ("node_type", 1)]

theorem limits_roomy : Roomy limits := by decide

/-- The key is not too long and has no NUL. -/
def ShortKey (d : Datum) : Prop := d.key.toList.length ≤ maxKey ∧ Clean d.key

section Short
variable {msgMap : MsgMap} {d : Datum}

theorem short_encodeMsgMap (h : Short limits msgMap) (hd : ShortKey d) : Short limits (encodeMsgMap msgMap d) := by
  exact ((((h.insert (by decide) (by decide) (MapSizes.clean_ofInt 3)).insert (by decide) hd.1 hd.2).insert (by decide)
    (MapSizes.length_ver d.ver) (MapSizes.clean_toString _)).insert (by decide) (MapSizes.length_corner d.lcoor)
    (MapSizes.clean_arrToStr _)).insert (by decide) (MapSizes.length_corner d.ucoor) (MapSizes.clean_arrToStr _)

theorem short_genPacket (h : Short limits msgMap) {n : Node} (hn : n.type = "s" ∨ n.type = "m") :
    Short limits (genPacket n msgMap) := by
  refine (h.insertInt "id" (by decide) (by decide) n.id).insert (by decide) ?_ ?_
  · rcases hn with hn | hn <;> rw [hn] <;> decide
  · rcases hn with hn | hn <;> rw [hn] <;> decide

theorem short_setType (h : Short limits msgMap) (type : String) (ht : type.toList.length ≤ 7 ∧ Clean type) :
    Short limits (setType msgMap type) := h.insert (by decide) ht.1 ht.2

/-- A type and an id come first in the maps of most requests. -/
theorem short_typed (type k : String) (ht : type.toList.length ≤ 7 ∧ Clean type)
    (hk : k ∈ limits.map (·.1) ∧ 11 ≤ limit limits k) (id : Int32) :
    Short limits ((setType SortedMap.empty type).insert k (ofInt id)) :=
  (short_setType (MapSizes.short_empty limits) type ht).insertInt k hk.1 hk.2 id

theorem short_squeryMap (appId : Int32) (blocking : Bool) (hd : ShortKey d) :
    Short limits (squeryMap appId blocking d) := by
  have hbase := short_typed Patch.sdmSquery "app_id" (by decide) (by decide) appId
  cases blocking with
  | false => exact short_encodeMsgMap hbase hd
  | true => exact short_encodeMsgMap (hbase.insert (by decide) (by decide) (by decide)) hd

theorem short_moveMap (fromId : Int32) {toId : String} (hto : toId.toList.length ≤ 11 ∧ Clean toId)
    (hd : ShortKey d) : Short limits (moveMap fromId toId d) := by
  have hbase := short_setType (short_encodeMsgMap (MapSizes.short_empty limits) hd) Patch.sdmMove (by decide)
  exact (hbase.insertInt "id" (by decide) (by decide) fromId).insert (by decide) hto.1 hto.2

end Short

/-- The datum of a message. -/
def datum? : Msg → Option Datum
  | .access _ d | .putNotification _ _ d | .squery _ _ _ d | .moveReply _ d | .delReply d | .move _ _ d | .del _ d |
    .squeryReply _ d | .data _ _ d => some d
  | .connUp _ | .regApp _ _ | .regAppReply _ _ => none

/-- Short keys make short maps, also where a reply is a request with more fields in it. -/
theorem short_of_carries {master : Node} (hmaster : master.type = "m") {msg : Msg} {p : PacketT × MsgMap}
    (h : Carries master msg p) (hkey : ∀ d ∈ datum? msg, ShortKey d) : Short limits p.2 := by
  have hempty := MapSizes.short_empty limits
  induction h with
  | connUp n hn => exact short_genPacket hempty (.inl hn)
  | regApp n hn appId =>
    exact short_genPacket (short_typed Patch.sdmRegApp "app_id" (by decide) (by decide) appId) (.inl hn)
  | access n hn appId d =>
    have hbase := short_typed sdmAccess "app_id" (by decide) (by decide) appId
    exact short_genPacket (short_encodeMsgMap hbase (hkey d rfl)) (.inl hn)
  | putNotification n hn pId d =>
    have hbase := short_typed sdmPutNotification "p_id" (by decide) (by decide) pId
    exact short_genPacket (short_encodeMsgMap hbase (hkey d rfl)) (.inl hn)
  | squery n hn appId blocking d => exact short_genPacket (short_squeryMap appId blocking (hkey d rfl)) (.inl hn)
  | moveReply n hn d =>
    have hmap := short_setType (short_encodeMsgMap hempty (hkey d rfl)) sdmMoveReply (by decide)
    exact short_genPacket hmap (.inl hn)
  | delReply n hn h ih => exact short_genPacket (short_setType (ih hkey) sdmDelReply (by decide)) (.inl hn)
  | move fromId toId d =>
    have hto : (ofInt toId).toList.length ≤ 11 ∧ Clean (ofInt toId) :=
      ⟨(LexicalCast.length_ofInt toId).2, MapSizes.clean_ofInt toId⟩
    exact short_genPacket (short_moveMap fromId hto (hkey d rfl)) (.inr hmaster)
  | @squeryMove fromId id appId blocking d msgMap h ih =>
    have hto : (value msgMap "id").toList.length ≤ 11 ∧ Clean (value msgMap "id") := by
      rw [h.squery_id.2]
      exact ⟨(LexicalCast.length_ofInt id).2, MapSizes.clean_ofInt id⟩
    exact short_genPacket (short_moveMap fromId hto (hkey d rfl)) (.inr hmaster)
  | del id d =>
    have hmap := short_setType (short_encodeMsgMap hempty (hkey d rfl)) Patch.sdmDel (by decide)
    exact short_genPacket hmap (.inr hmaster)
  | squeryReply h ih => exact short_genPacket (short_setType (ih hkey) sdmSqueryReply (by decide)) (.inr hmaster)
  | prefetchReply id d =>
    have hmap := short_setType (short_encodeMsgMap hempty (hkey d rfl)) sdmSqueryReply (by decide)
    exact short_genPacket hmap (.inr hmaster)
  | regAppReply h ih => exact short_genPacket (short_setType (ih hkey) sdmRegAppReply (by decide)) (.inr hmaster)

/-! ## Streams -/

/-- A slave and its master. -/
def slaveNode : Node := ⟨"s", false, 2, "127.0.0.1", 7002, SortedMap.empty⟩
def masterNode : Node := ⟨"m", false, 1, "127.0.0.1", 7001, SortedMap.empty⟩

theorem shortKey_unitBox : ShortKey (SDMControl.unitBox "u") := by
  constructor <;> decide

section Stream
variable {master : Node} {msgs : List (Msg × PacketT × MsgMap)}

/-- The packets come out of the stream as they were. -/
theorem packets_arrive (hmaster : master.type = "m") (hcarries : ∀ e ∈ msgs, Carries master e.1 e.2)
    (hkeys : ∀ e ∈ msgs, ∀ d ∈ datum? e.1, ShortKey d) :
    ∃ stream, Packet.sendAll textArchive (msgs.map (·.2)) = some stream ∧
      Packet.receiveAll textArchive stream = msgs.map fun e => (e.2.1.char, e.2.2) := by
  have hshort : ∀ p ∈ msgs.map (·.2), Short limits p.2 := by
    intro p hp
    obtain ⟨e, he, rfl⟩ := List.mem_map.mp hp
    exact short_of_carries hmaster (hcarries e he) (hkeys e he)
  obtain ⟨stream, hsend, hreceive⟩ := MapSizes.short_packets_arrive limits_roomy hshort
  exact ⟨stream, hsend, by rw [hreceive, List.map_map]; rfl⟩

/-- Control messages with short keys that share a stream are handed to handlers at the other end in the order
in which they were sent, each with what its sender has put into it. -/
theorem control_messages_handled (hmaster : master.type = "m") (hcarries : ∀ e ∈ msgs, Carries master e.1 e.2)
    (hkeys : ∀ e ∈ msgs, ∀ d ∈ datum? e.1, ShortKey d) {atMaster : Bool} (hto : ∀ e ∈ msgs, toMaster e.1 = atMaster)
    (kind : DataIdT) :
    ∃ stream, Packet.sendAll textArchive (msgs.map (·.2)) = some stream ∧
      (Packet.receiveAll textArchive stream).map (handleCmsg atMaster kind) =
        msgs.map fun e => handledOf kind e.1 := by
  obtain ⟨stream, hsend, hreceive⟩ := packets_arrive hmaster hcarries hkeys
  refine ⟨stream, hsend, ?_⟩
  rw [hreceive, List.map_map]
  refine List.map_congr_left fun e he => ?_
  have hhandled := (hcarries e he).handled kind
  rw [hto e he] at hhandled
  exact hhandled

/-- A move that a query asks for, the reply to the query, and the reply to a registration. -/
def replies : List (Msg × PacketT × MsgMap) :=
  let squery := genPacket slaveNode (squeryMap 7 true (SDMControl.unitBox "u"))
  let regApp := genPacket slaveNode (regAppMap 7)
  [(.move 3 2 (SDMControl.unitBox "u"), .cmsg,
      genPacket masterNode (moveMap 3 (value squery "id") (SDMControl.unitBox "u"))),
    (.squeryReply 2 (SDMControl.unitBox "u"), .cmsg, genPacket masterNode (setType squery sdmSqueryReply)),
    (.regAppReply 2 7, .cmsg, genPacket masterNode (setType regApp sdmRegAppReply))]

theorem replies_handled : ∃ stream, Packet.sendAll textArchive (replies.map (·.2)) = some stream ∧
    (Packet.receiveAll textArchive stream).map (handleCmsg false .kv) = replies.map fun e => handledOf .kv e.1 := by
  have hsquery : Carries masterNode _ _ := .squery slaveNode rfl 7 true (SDMControl.unitBox "u")
  have hregApp : Carries masterNode _ _ := .regApp slaveNode rfl 7
  have hcarries : ∀ e ∈ replies, Carries masterNode e.1 e.2 :=
    List.forall_mem_cons.mpr ⟨.squeryMove 3 hsquery, List.forall_mem_cons.mpr ⟨.squeryReply hsquery,
      List.forall_mem_singleton.mpr (.regAppReply hregApp)⟩⟩
  have hkeys : ∀ e ∈ replies, ∀ d ∈ datum? e.1, ShortKey d := by
    have hdatum : ∀ e ∈ replies, ∀ d ∈ datum? e.1, d = SDMControl.unitBox "u" := by decide
    intro e he d hd
    rw [hdatum e he d hd]
    exact shortKey_unitBox
  exact control_messages_handled rfl hcarries hkeys (by decide) .kv

/-- In whatever state the master is, the messages of its slaves do there what the threads of the model do. -/
theorem control_messages_act {W : Type} [Operations W] (hmaster : master.type = "m")
    (hcarries : ∀ e ∈ msgs, Carries master e.1 e.2) (hkeys : ∀ e ∈ msgs, ∀ d ∈ datum? e.1, ShortKey d)
    (hto : ∀ e ∈ msgs, toMaster e.1 = true) (me : Int32) (s : State W) (t : Nat) (c : Choice) :
    ∃ stream, Packet.sendAll textArchive (msgs.map (·.2)) = some stream ∧
      (Packet.receiveAll textArchive stream).map (wireEffect me s t c) =
        msgs.map fun e => (e.1.handler (W := W)).bind (SDMControl.effect me s t c) := by
  obtain ⟨stream, hsend, hreceive⟩ := packets_arrive hmaster hcarries hkeys
  refine ⟨stream, hsend, ?_⟩
  rw [hreceive, List.map_map]
  exact List.map_congr_left fun e he => (hcarries e he).effect (hto e he) me s t c

/-- A slave comes up, registers an app and asks for a datum. -/
def requests : List (Msg × PacketT × MsgMap) :=
  [(.connUp 2, .joinAck, genPacket slaveNode SortedMap.empty),
    (.regApp 2 7, .cmsg, genPacket slaveNode (regAppMap 7)),
    (.squery 2 7 true (SDMControl.unitBox "u"), .cmsg,
      genPacket slaveNode (squeryMap 7 true (SDMControl.unitBox "u")))]

/-- The master, with nothing in its space. -/
def freshMaster : State MWASpace.State := SDMControl.init 1 (MWASpace.empty 4 false)

theorem requests_act : ∃ stream, Packet.sendAll textArchive (requests.map (·.2)) = some stream ∧
    (Packet.receiveAll textArchive stream).map (wireEffect 1 freshMaster 0 SDMControl.choice) =
      requests.map fun e => (e.1.handler (W := MWASpace.State)).bind
        (SDMControl.effect 1 freshMaster 0 SDMControl.choice) := by
  have hcarries : ∀ e ∈ requests, Carries masterNode e.1 e.2 :=
    List.forall_mem_cons.mpr ⟨.connUp slaveNode rfl, List.forall_mem_cons.mpr ⟨.regApp slaveNode rfl 7,
      List.forall_mem_singleton.mpr (.squery slaveNode rfl 7 true (SDMControl.unitBox "u"))⟩⟩
  have hkeys : ∀ e ∈ requests, ∀ d ∈ datum? e.1, ShortKey d := by
    have hdatum : ∀ e ∈ requests, ∀ d ∈ datum? e.1, d = SDMControl.unitBox "u" := by decide
    intro e he d hd
    rw [hdatum e he d hd]
    exact shortKey_unitBox
  exact control_messages_act rfl hcarries hkeys (by decide) 1 freshMaster 0 SDMControl.choice

end Stream

end ControlPackets
