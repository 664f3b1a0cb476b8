import DataspacesWa.Mesh
import DataspacesWa.Packet

/-!
# Joining by packets

The nodes of a mesh send string maps in packets, and a packet is cut to its
size. A handler reads the map that has arrived, and the loop over a reply reads
it number by number. Where every packet arrives as it was sent the nodes go
through a run of the mesh, in which a reply carries its list.
-/
namespace JoinPackets

open Function (update)
open Join (MsgMap Node PeerInfo value idKey lipKey lportKey genPacket genJoinReq genJoinReply listed Lists)
open LexicalCast (ofInt toInt? toInt?_ofInt)
open Mesh (Net Label addPeer rmPeer)
open Packet (PacketT arrives)
open TextArchive (Archive textArchive)

/-! ## Packets and threads -/

/-- A packet on its way, with the map that its receiver gets. -/
structure Message where
  dest : Int32
  type : PacketT
  msgMap : MsgMap

/-- As in the mesh, with the map that the loop reads. -/
inductive Handler where
  | replying (me fromId : Int32)
  | joining (me fromId : Int32) (msgMap : MsgMap) (count : Nat) (spun : Bool)

structure State where
  nodes : Int32 → Node
  started : Int32 → Bool
  joined : Int32 → Bool
  packets : List Message
  handlers : List Handler

def init (net : Net) : State where
  nodes i := ⟨net.type i, false, i, net.lip i, net.lport i, SortedMap.empty⟩
  started _ := false
  joined i := i = net.host
  packets := []
  handlers := []

/-! ## The handlers -/

section Handlers
variable (net : Net)

/-- `Commer::connect_send_to` -/
def connectSendTo (lip : String) (lport : Int32) (type : PacketT) (msgMap : MsgMap) : Message :=
  ⟨net.listens lip lport, type, msgMap⟩

/-- `Commer::send_to_peer` -/
def sendToPeer (n : Node) (peerId : Int32) (type : PacketT) (msgMap : MsgMap) : Option Message :=
  (n.peers.get? peerId).map fun info => connectSendTo net info.lip info.lport type msgMap

/-- Up to the reply of a node that has added its peer. A cast that throws ends the process. -/
def handleJoinReq (s : State) (me : Int32) (msgMap : MsgMap) : Option (State × List Message) :=
  (toInt? (value msgMap "id")).bind fun fromId =>
    let fromLip := value msgMap "lip"
    (toInt? (value msgMap "lport")).map fun fromLport =>
      match addPeer (s.nodes me) fromId fromLip fromLport with
      | none => (s, [connectSendTo net fromLip fromLport .joinReply (genJoinReply (s.nodes me) fromId false)])
      | some n => ({ s with nodes := update s.nodes me n, handlers := s.handlers ++ [.replying me fromId] }, [])

/-- Up to the loop over the other nodes. -/
def handleJoinReply (s : State) (me : Int32) (msgMap : MsgMap) : Option (State × List Message) :=
  if value msgMap "ack" = "a" then
    (toInt? (value msgMap "id")).bind fun fromId =>
      (toInt? (value msgMap "lport")).bind fun fromLport =>
        match addPeer (s.nodes me) fromId (value msgMap "lip") fromLport with
        | none => (sendToPeer net (s.nodes me) fromId .joinNack (genPacket (s.nodes me) SortedMap.empty)).map fun nack =>
            (s, [nack])
        | some n => (sendToPeer net n fromId .joinAck (genPacket n SortedMap.empty)).map fun ack =>
            ({ s with
              nodes := update s.nodes me n
              joined := update s.joined me true
              handlers := s.handlers ++ [.joining me fromId msgMap 0 false] }, [ack])
  else some (s, [])

def handleJoinNack (s : State) (me : Int32) (msgMap : MsgMap) : Option (State × List Message) :=
  (toInt? (value msgMap "id")).map fun fromId =>
    ({ s with nodes := update s.nodes me (rmPeer (s.nodes me) fromId) }, [])

def handleRecv (s : State) (p : Message) : Option (State × List Message) :=
  match p.type with
  | .joinRequest => handleJoinReq net s p.dest p.msgMap
  | .joinReply => handleJoinReply net s p.dest p.msgMap
  | .joinNack => handleJoinNack s p.dest p.msgMap
  | _ => some (s, [])

/-- What is left of `handle_join_req` once the peer is added. -/
def sendReply (s : State) (me fromId : Int32) : Option (State × List Message) :=
  (sendToPeer net (s.nodes me) fromId .joinReply (genJoinReply (s.nodes me) fromId true)).map fun reply => (s, [reply])

/-- One round of the loop of `handle_join_reply`. -/
def joinRound (s : State) (me fromId : Int32) (msgMap : MsgMap) (count : Nat) :
    Option (List Message × List Handler) :=
  if msgMap.contains (idKey count) then
    (toInt? (value msgMap (idKey count))).bind fun ppeerId =>
      if (s.nodes me).peers.contains ppeerId then some ([], [.joining me fromId msgMap count true])
      else (toInt? (value msgMap (lportKey count))).map fun ppeerLport =>
        ([connectSendTo net (value msgMap (lipKey count)) ppeerLport .joinRequest (genJoinReq (s.nodes me))],
          [.joining me fromId msgMap (count + 1) false])
  else some ([], [])

/-! ## Steps -/

/-- The next state without the packets that are sent, and these. -/
def outcome (s : State) : Label → Option (State × List Message)
  | .start i =>
    if i = net.host ∨ s.started i then none
    else some ({ s with started := update s.started i true },
      [connectSendTo net (net.lip net.host) (net.lport net.host) .joinRequest (genJoinReq (s.nodes i))])
  | .deliver k => (s.packets[k]?).bind fun p => handleRecv net { s with packets := s.packets.eraseIdx k } p
  | .goOn k => (s.handlers[k]?).bind fun
    | .replying me fromId => sendReply net { s with handlers := s.handlers.eraseIdx k } me fromId
    | .joining me fromId msgMap count _ => (joinRound net s me fromId msgMap count).map fun r =>
      ({ s with handlers := s.handlers.eraseIdx k ++ r.2 }, r.1)

/-- What arrives of a packet. -/
def arrive (archive : Archive) (p : Message) : Message := { p with msgMap := (arrives archive (p.type, p.msgMap)).2 }

def step (archive : Archive) (s : State) (a : Label) : Option State :=
  (outcome net s a).map fun r => { r.1 with packets := r.1.packets ++ r.2.map (arrive archive) }

end Handlers

/-! ## The property -/

def IsPeer (s : State) (i j : Int32) : Prop := (s.nodes i).peers.contains j = true

instance (s : State) (i j : Int32) : Decidable (IsPeer s i j) := inferInstanceAs (Decidable (_ = true))

/-- A thread that goes round at its number. -/
def Handler.spinning : Handler → Bool
  | .joining _ _ _ _ spun => spun
  | .replying _ _ => false

/-- No join message in flight or in the making. -/
def Quiet (s : State) : Prop := s.packets = [] ∧ ∀ h ∈ s.handlers, h.spinning = true

instance (s : State) : Decidable (Quiet s) := inferInstanceAs (Decidable (_ ∧ _))

structure Agree (s : State) : Prop where
  symm : ∀ i j, IsPeer s i j → IsPeer s j i
  all : ∀ i j, s.joined i = true → s.joined j = true → i ≠ j → IsPeer s i j

/-- The text is the id of a peer. -/
def NamesPeer (s : State) (me : Int32) (id : String) : Prop := (toInt? id).any (s.nodes me).peers.contains = true

instance (s : State) (me : Int32) (id : String) : Decidable (NamesPeer s me id) := inferInstanceAs (Decidable (_ = true))

/-- It is no positive reply of a peer of its receiver. -/
def ReplyApart (s : State) (p : Message) : Prop :=
  p.type = .joinReply → value p.msgMap "ack" = "a" → ¬NamesPeer s p.dest (value p.msgMap "id")

instance (s : State) (p : Message) : Decidable (ReplyApart s p) :=
  inferInstanceAs (Decidable (p.type = .joinReply → value p.msgMap "ack" = "a" →
    ¬NamesPeer s p.dest (value p.msgMap "id")))

/-- The loop over the reply of the host does not come to a peer. -/
def RoundApart (net : Net) (s : State) : Handler → Prop
  | .replying _ _ => True
  | .joining me fromId msgMap count _ => fromId = net.host → ¬NamesPeer s me (value msgMap (idKey count))

instance (net : Net) (s : State) : (h : Handler) → Decidable (RoundApart net s h)
  | .replying _ _ => .isTrue trivial
  | .joining me fromId msgMap count _ =>
    inferInstanceAs (Decidable (fromId = net.host → ¬NamesPeer s me (value msgMap (idKey count))))

/-- No joins cross at the step. -/
def Apart (net : Net) (s : State) : Label → Prop
  | .start _ => True
  | .deliver k => ∀ p ∈ s.packets[k]?, ReplyApart s p
  | .goOn k => ∀ h ∈ s.handlers[k]?, RoundApart net s h

instance (net : Net) (s : State) : (a : Label) → Decidable (Apart net s a)
  | .start _ => .isTrue trivial
  | .deliver k => inferInstanceAs (Decidable (∀ p ∈ s.packets[k]?, ReplyApart s p))
  | .goOn k => inferInstanceAs (Decidable (∀ h ∈ s.handlers[k]?, RoundApart net s h))

/-- What is sent arrives as it was sent. -/
def Whole (archive : Archive) (net : Net) (s : State) (a : Label) : Prop :=
  ∀ r ∈ outcome net s a, ∀ p ∈ r.2, (arrives archive (p.type, p.msgMap)).2 = p.msgMap

instance (archive : Archive) (net : Net) (s : State) (a : Label) : Decidable (Whole archive net s a) :=
  inferInstanceAs (Decidable (∀ r ∈ outcome net s a, ∀ p ∈ r.2, (arrives archive (p.type, p.msgMap)).2 = p.msgMap))

/-- No joins cross, and no packet is cut. -/
def Uncut (archive : Archive) (net : Net) (s : State) (a : Label) : Prop := Apart net s a ∧ Whole archive net s a

instance (archive : Archive) (net : Net) (s : State) (a : Label) : Decidable (Uncut archive net s a) :=
  inferInstanceAs (Decidable (_ ∧ _))

/-- A map arrives as it was sent if its archive has at most 512 bytes and no NUL. -/
theorem arrives_of_short {archive : Archive} {msgMap : MsgMap} {msgStr : List Char}
    (hencode : archive.encode msgMap = some msgStr) (hshort : msgStr.length ≤ Packet.maxMsgSize)
    (hclean : ∀ e ∈ msgMap.entries, '\x00' ∉ e.1.toList ∧ '\x00' ∉ e.2.toList) (type : PacketT) :
    (arrives archive (type, msgMap)).2 = msgMap := by
  have hfits : Packet.Fits archive msgMap := by
    refine Packet.fits_of_short ?_ hclean
    intro s hs
    rw [hencode] at hs
    rwa [← Option.some.inj hs]
  rw [arrives, hencode, Option.getD_some]
  exact hfits msgStr hencode

/-- A host with the nodes from 1 on as peers. -/
def hostOf (n : Nat) : Node :=
  Join.meshNode 0 ((List.range n).map fun i => (Int32.ofNat (i + 1), ⟨"", "127.0.0.1", 7001 + Int32.ofNat i⟩))

/-- A reply that lists nine nodes is cut. -/
example : (arrives textArchive (.joinReply, genJoinReply (hostOf 10) 10 true)).2 ≠ genJoinReply (hostOf 10) 10 true := by
  decide +kernel

theorem arrive_of_whole {archive : Archive} {net : Net} {s : State} {a : Label} (h : Whole archive net s a)
    {r : State × List Message} (hr : outcome net s a = some r) : r.2.map (arrive archive) = r.2 :=
  (List.map_congr_left fun p hp => by rw [arrive, h r hr p hp]; rfl).trans (List.map_id _)

/-! ## The mesh behind it -/

/-- A packet of the mesh, and the map that it is. -/
inductive Carries : Message → Mesh.Packet → Prop where
  | request {dest fromId lport : Int32} {lip : String} {msgMap : MsgMap} (hid : value msgMap "id" = ofInt fromId)
    (hlip : value msgMap "lip" = lip) (hlport : value msgMap "lport" = ofInt lport) :
    Carries ⟨dest, .joinRequest, msgMap⟩ ⟨dest, fromId, .joinRequest lip lport⟩
  | reply {dest fromId lport : Int32} {lip : String} {ack : Bool} {others : List (Int32 × PeerInfo)} {msgMap : MsgMap}
    (hid : value msgMap "id" = ofInt fromId) (hlip : value msgMap "lip" = lip)
    (hlport : value msgMap "lport" = ofInt lport) (hack : value msgMap "ack" = if ack then "a" else "n")
    (hothers : Lists msgMap others) :
    Carries ⟨dest, .joinReply, msgMap⟩ ⟨dest, fromId, .joinReply lip lport ack others⟩
  | ack {dest fromId : Int32} {msgMap : MsgMap} : Carries ⟨dest, .joinAck, msgMap⟩ ⟨dest, fromId, .joinAck⟩
  | nack {dest fromId : Int32} {msgMap : MsgMap} (hid : value msgMap "id" = ofInt fromId) :
    Carries ⟨dest, .joinNack, msgMap⟩ ⟨dest, fromId, .joinNack⟩

/-- A thread of the mesh, and the map that it reads. -/
inductive Follows : Handler → Mesh.Handler → Prop where
  | replying {me fromId : Int32} : Follows (.replying me fromId) (.replying me fromId)
  | joining {me fromId : Int32} {msgMap : MsgMap} {others : List (Int32 × PeerInfo)} {count : Nat} {spun : Bool}
    (hothers : Lists msgMap others) : Follows (.joining me fromId msgMap count spun) (.joining me fromId others count spun)

structure Refines (s : State) (t : Mesh.State) : Prop where
  nodes : s.nodes = t.nodes
  started : s.started = t.started
  joined : s.joined = t.joined
  packets : List.Forall₂ Carries s.packets t.packets
  handlers : List.Forall₂ Follows s.handlers t.handlers
  ids : ∀ i, (s.nodes i).id = i

/-- A step of the mesh that sends what is sent. -/
def Matches (r : State × List Message) (o : Option Mesh.State) : Prop :=
  ∃ t sent, o = some { t with packets := t.packets ++ sent } ∧ Refines r.1 t ∧ List.Forall₂ Carries r.2 sent

section Refinement
variable {net : Net} {s : State} {t : Mesh.State} {r : State × List Message} {me : Int32}

theorem addPeer_id {n n' : Node} {j : Int32} {lip : String} {lport : Int32} (h : addPeer n j lip lport = some n') :
    n'.id = n.id := by
  obtain ⟨-, rfl⟩ := Mesh.addPeer_some h
  rfl

theorem ids_update {nodes : Int32 → Node} (h : ∀ i, (nodes i).id = i) {n : Node} (hn : n.id = me) (i : Int32) :
    (update nodes me n i).id = i := by
  by_cases hi : i = me
  · rw [hi, Function.update_self, hn]
  · rw [Function.update_of_ne hi, h]

theorem value_genPacket_id (n : Node) (msgMap : MsgMap) : value (genPacket n msgMap) "id" = ofInt n.id := by
  simp [value, genPacket, SortedMap.get?_insert]

theorem carries_request {n : Node} {dest j : Int32} (hid : n.id = j) :
    Carries ⟨dest, .joinRequest, genJoinReq n⟩ ⟨dest, j, Mesh.joinReq n⟩ := by
  refine .request ?_ ?_ ?_
  · rw [genJoinReq, value_genPacket_id, hid]
  · simp [value, genJoinReq, genPacket, SortedMap.get?_insert]
  · simp [value, genJoinReq, genPacket, SortedMap.get?_insert]

theorem carries_reply {n : Node} {dest j : Int32} (hid : n.id = j) (peerId : Int32) (pos : Bool) :
    Carries ⟨dest, .joinReply, genJoinReply n peerId pos⟩ ⟨dest, j, Mesh.joinReply n peerId pos⟩ := by
  obtain ⟨hsender, hlip, hlport, hack⟩ := Join.genJoinReply_sender n peerId pos
  exact .reply (by rw [hsender, hid]) hlip hlport hack (Join.genJoinReply_lists n peerId pos)

/-- A request that has come in. -/
theorem handleJoinReq_refines (h : Refines s t) {fromId lport : Int32} {lip : String} {msgMap : MsgMap}
    (hid : value msgMap "id" = ofInt fromId) (hlip : value msgMap "lip" = lip)
    (hlport : value msgMap "lport" = ofInt lport) (hs : handleJoinReq net s me msgMap = some r) :
    Matches r (Mesh.handleRecv net t ⟨me, fromId, .joinRequest lip lport⟩) := by
  simp only [handleJoinReq, hid, hlip, hlport, toInt?_ofInt, Option.bind_some, Option.map_some, h.nodes] at hs
  simp only [Mesh.handleRecv]
  cases hadd : addPeer (t.nodes me) fromId lip lport with
  | none =>
    simp only [hadd] at hs
    obtain rfl := Option.some.inj hs
    exact ⟨t, _, rfl, h, .cons (carries_reply (by rw [← h.nodes, h.ids]) fromId false) .nil⟩
  | some n =>
    simp only [hadd] at hs
    obtain rfl := Option.some.inj hs
    refine ⟨{ t with nodes := update t.nodes me n, handlers := t.handlers ++ [.replying me fromId] }, [], ?_, ?_, .nil⟩
    · simp
    · exact { h with
        nodes := rfl
        handlers := List.rel_append h.handlers (.cons .replying .nil)
        ids := ids_update (h.nodes ▸ h.ids) (by rw [addPeer_id hadd, ← h.nodes, h.ids]) }

/-- A reply that has come in. -/
theorem handleJoinReply_refines (h : Refines s t) {fromId lport : Int32} {lip : String} {ack : Bool}
    {others : List (Int32 × PeerInfo)} {msgMap : MsgMap} (hid : value msgMap "id" = ofInt fromId)
    (hlip : value msgMap "lip" = lip) (hlport : value msgMap "lport" = ofInt lport)
    (hack : value msgMap "ack" = if ack then "a" else "n") (hothers : Lists msgMap others)
    (hs : handleJoinReply net s me msgMap = some r) :
    Matches r (Mesh.handleRecv net t ⟨me, fromId, .joinReply lip lport ack others⟩) := by
  cases ack with
  | false =>
    simp [handleJoinReply, hack] at hs
    subst hs
    exact ⟨t, [], by simp [Mesh.handleRecv], h, .nil⟩
  | true =>
    simp only [handleJoinReply, hack, if_true, hid, hlip, hlport, toInt?_ofInt, Option.bind_some, h.nodes] at hs
    simp only [Mesh.handleRecv]
    cases hadd : addPeer (t.nodes me) fromId lip lport with
    | none =>
      simp only [hadd, sendToPeer, Option.map_map, Option.map_eq_some_iff] at hs
      obtain ⟨info, hinfo, rfl⟩ := hs
      simp only [Mesh.sendToPeer, hinfo, Option.map_some]
      refine ⟨t, _, rfl, h, .cons (.nack ?_) .nil⟩
      rw [value_genPacket_id]
    | some n =>
      have hn : n.id = me := by rw [addPeer_id hadd, ← h.nodes, h.ids]
      simp only [hadd, sendToPeer, Option.map_map, Option.map_eq_some_iff] at hs
      obtain ⟨info, hinfo, rfl⟩ := hs
      simp only [Mesh.sendToPeer, hinfo, Option.map_some]
      refine ⟨{ t with
        nodes := update t.nodes me n
        joined := update t.joined me true
        handlers := t.handlers ++ [.joining me fromId others 0 false] }, _, rfl, ?_, .cons .ack .nil⟩
      exact { h with
        nodes := rfl
        joined := by rw [← h.joined]; rfl
        handlers := List.rel_append h.handlers (.cons (.joining hothers) .nil)
        ids := ids_update (h.nodes ▸ h.ids) hn }

theorem handleJoinNack_refines (h : Refines s t) {fromId : Int32} {msgMap : MsgMap}
    (hid : value msgMap "id" = ofInt fromId) (hs : handleJoinNack s me msgMap = some r) :
    Matches r (Mesh.handleRecv net t ⟨me, fromId, .joinNack⟩) := by
  simp only [handleJoinNack, hid, toInt?_ofInt, Option.map_some, h.nodes] at hs
  obtain rfl := Option.some.inj hs
  refine ⟨{ t with nodes := update t.nodes me (rmPeer (t.nodes me) fromId) }, [], by simp [Mesh.handleRecv], ?_, .nil⟩
  have hn : (rmPeer (t.nodes me) fromId).id = me := by
    rw [← h.nodes]
    exact h.ids me
  exact { h with nodes := rfl, ids := ids_update (h.nodes ▸ h.ids) hn }

theorem handleRecv_refines (h : Refines s t) {p : Message} {q : Mesh.Packet} (hp : Carries p q)
    (hs : handleRecv net s p = some r) : Matches r (Mesh.handleRecv net t q) := by
  cases hp with
  | request hid hlip hlport => exact handleJoinReq_refines h hid hlip hlport hs
  | reply hid hlip hlport hack hothers => exact handleJoinReply_refines h hid hlip hlport hack hothers hs
  | ack =>
    obtain rfl := Option.some.inj hs
    exact ⟨t, [], by simp [Mesh.handleRecv], h, .nil⟩
  | nack hid => exact handleJoinNack_refines h hid hs

theorem sendReply_refines (h : Refines s t) {fromId : Int32} (hs : sendReply net s me fromId = some r) :
    Matches r (Mesh.sendReply net t me fromId) := by
  simp only [sendReply, sendToPeer, Option.map_map, Option.map_eq_some_iff, h.nodes] at hs
  obtain ⟨info, hinfo, rfl⟩ := hs
  simp only [Mesh.sendReply, Mesh.sendToPeer, hinfo, Option.map_some]
  exact ⟨t, _, rfl, h, .cons (carries_reply rfl fromId true) .nil⟩

/-- A round of the loop reads what the map lists at its number. -/
theorem joinRound_refines (h : Refines s t) {fromId : Int32} {msgMap : MsgMap} {others : List (Int32 × PeerInfo)}
    (hothers : Lists msgMap others) {count : Nat} {x : List Message × List Handler}
    (hs : joinRound net s me fromId msgMap count = some x) :
    List.Forall₂ Carries x.1 (Mesh.joinRound net t me fromId others count).1 ∧
      List.Forall₂ Follows x.2 (Mesh.joinRound net t me fromId others count).2 := by
  have hid := hothers.id count
  have hlip := hothers.lip count
  have hlport := hothers.lport count
  unfold joinRound at hs
  unfold Mesh.joinRound
  cases he : others[count]? with
  | none =>
    rw [he, Option.map_none] at hid
    have hgone : msgMap.contains (idKey count) = false := by rw [SortedMap.contains, hid]; rfl
    simp only [hgone] at hs
    obtain rfl := Option.some.inj hs
    exact ⟨.nil, .nil⟩
  | some e =>
    rw [he, Option.map_some] at hid hlip hlport
    have hthere : msgMap.contains (idKey count) = true := by rw [SortedMap.contains, hid]; rfl
    simp only [hthere, if_true, value, hid, hlip, hlport, Option.getD_some, toInt?_ofInt, Option.bind_some,
      Option.map_some, h.nodes] at hs
    dsimp only
    split at hs
    · rename_i hpeer
      obtain rfl := Option.some.inj hs
      rw [if_pos hpeer]
      exact ⟨.nil, .cons (.joining hothers) .nil⟩
    · rename_i hpeer
      obtain rfl := Option.some.inj hs
      rw [if_neg hpeer]
      exact ⟨.cons (carries_request (by rw [← h.nodes, h.ids])) .nil, .cons (.joining hothers) .nil⟩

theorem outcome_refines (h : Refines s t) {a : Label} (hs : outcome net s a = some r) : Matches r (Mesh.step net t a) := by
  cases a with
  | start i =>
    simp only [outcome, h.started] at hs
    simp only [Mesh.step]
    split at hs
    · cases hs
    · rename_i hi
      obtain rfl := Option.some.inj hs
      have hsent : ∀ dest, Carries ⟨dest, .joinRequest, genJoinReq (s.nodes i)⟩ ⟨dest, i, Mesh.joinReq (t.nodes i)⟩ := by
        rw [← h.nodes]
        exact fun dest => carries_request (h.ids i)
      rw [if_neg hi]
      exact ⟨{ t with started := update t.started i true }, _, rfl, { h with started := rfl }, .cons (hsent _) .nil⟩
  | deliver k =>
    obtain ⟨p, hp, hrecv⟩ := Option.bind_eq_some_iff.mp hs
    obtain ⟨q, hq, hpq⟩ := Pool.related_getElem? h.packets hp
    have hleft : Refines { s with packets := s.packets.eraseIdx k } { t with packets := t.packets.eraseIdx k } :=
      { h with packets := Pool.related_eraseIdx h.packets k }
    simp only [Mesh.step, hq, Option.bind_some]
    exact handleRecv_refines hleft hpq hrecv
  | goOn k =>
    obtain ⟨g, hg, hrest⟩ := Option.bind_eq_some_iff.mp hs
    obtain ⟨g', hg', hgg⟩ := Pool.related_getElem? h.handlers hg
    have hleft := Pool.related_eraseIdx h.handlers k
    simp only [Mesh.step, hg', Option.bind_some]
    cases hgg with
    | replying =>
      have hgone : Refines { s with handlers := s.handlers.eraseIdx k } { t with handlers := t.handlers.eraseIdx k } :=
        { h with handlers := hleft }
      exact sendReply_refines hgone hrest
    | joining hothers =>
      obtain ⟨x, hround, rfl⟩ := Option.map_eq_some_iff.mp hrest
      obtain ⟨hsent, hgone⟩ := joinRound_refines h hothers hround
      exact ⟨{ t with handlers := t.handlers.eraseIdx k ++ _ }, _, rfl,
        { h with handlers := List.rel_append hleft hgone }, hsent⟩

/-- The condition in the mesh is the one on the maps. -/
theorem apart_uncrossed (h : Refines s t) {a : Label} (hok : Apart net s a) (hs : outcome net s a = some r) :
    Mesh.Uncrossed net t a := by
  cases a with
  | start i => trivial
  | deliver k =>
    obtain ⟨p, hp, -⟩ := Option.bind_eq_some_iff.mp hs
    obtain ⟨q, hq, hpq⟩ := Pool.related_getElem? h.packets hp
    have happart := hok p hp
    rintro q' hq'
    obtain rfl : q = q' := Option.some.inj (hq.symm.trans hq')
    cases hpq with
    | request => trivial
    | @reply dest fromId lport lip ack others msgMap hid hlip hlport hack hothers =>
      cases ack with
      | false => trivial
      | true =>
        show ¬(t.nodes dest).peers.contains fromId = true
        rw [← h.nodes]
        have hnot := happart rfl hack
        rwa [NamesPeer, hid, toInt?_ofInt] at hnot
    | ack => trivial
    | nack => trivial
  | goOn k =>
    obtain ⟨g, hg, -⟩ := Option.bind_eq_some_iff.mp hs
    obtain ⟨g', hg', hgg⟩ := Pool.related_getElem? h.handlers hg
    have happart := hok g hg
    rintro g'' hg''
    obtain rfl : g' = g'' := Option.some.inj (hg'.symm.trans hg'')
    cases hgg with
    | replying => trivial
    | @joining me fromId msgMap others count spun hothers =>
      intro hhost e he
      show ¬(t.nodes me).peers.contains e.1 = true
      rw [← h.nodes]
      have hid : msgMap.get? (idKey count) = some (ofInt e.1) := by
        rw [hothers.id count, show others[count]? = some e from he, Option.map_some]
      have hnot := happart hhost
      rwa [NamesPeer, value, hid, Option.getD_some, toInt?_ofInt] at hnot

variable {archive : Archive} {s' : State}

/-- A step in which no joins cross and no packet is cut is one of the mesh. -/
theorem step_refines (h : Refines s t) {a : Label} (hok : Uncut archive net s a) (hs : step net archive s a = some s') :
    ∃ t', Transition.Reaches (Mesh.step net) (Mesh.Uncrossed net) t t' ∧ Refines s' t' := by
  obtain ⟨r, hr, rfl⟩ := Option.map_eq_some_iff.mp hs
  obtain ⟨t', sent, ht', href, hsent⟩ := outcome_refines h hr
  refine ⟨_, .single ⟨a, apart_uncrossed h hok.1 hr, ht'⟩, ?_⟩
  rw [arrive_of_whole hok.2 hr]
  exact { href with packets := List.rel_append href.packets hsent }

theorem quiet_refines (h : Refines s t) (hquiet : Quiet s) : Mesh.Quiet t := by
  obtain ⟨hpackets, hhandlers⟩ := hquiet
  constructor
  · have hnil := h.packets
    rw [hpackets] at hnil
    exact List.forall₂_nil_left_iff.mp hnil
  · intro g' hg'
    obtain ⟨k, hk⟩ := List.mem_iff_getElem?.mp hg'
    obtain ⟨g, hg, hgg⟩ := Pool.related_getElem? (List.Forall₂.flip h.handlers) hk
    have hspun := hhandlers g (List.mem_of_getElem? hg)
    cases hgg with
    | replying => cases hspun
    | joining => exact hspun

/-- Where no joins cross and no packet is cut, the members agree once the joining has come to rest. -/
theorem uncut_agree (hr : Transition.Reaches (step net archive) (Uncut archive net) (init net) s) (hquiet : Quiet s) :
    Agree s := by
  have hinit : Refines (init net) (Mesh.init net) := ⟨rfl, rfl, rfl, .nil, .nil, fun _ => rfl⟩
  obtain ⟨t, ht, href⟩ := hr.follow hinit fun _ _ _ _ hrel hok hs => step_refines hrel hok hs
  have hagree := Mesh.uncrossed_agree ht (quiet_refines href hquiet)
  have hpeer : ∀ i j, IsPeer s i j ↔ Mesh.IsPeer t i j := fun i j => by rw [IsPeer, href.nodes, Mesh.IsPeer]
  refine ⟨fun i j hij => (hpeer j i).mpr (hagree.symm i j ((hpeer i j).mp hij)), fun i j hi hj hij => ?_⟩
  rw [href.joined] at hi hj
  exact (hpeer i j).mpr (hagree.all i j hi hj hij)

end Refinement

/-- Each node listens at the port of its id, and node 0 hosts. -/
def localNet : Net where
  host := 0
  type _ := "s"
  lip _ := "127.0.0.1"
  lport i := i
  listens _ lport := lport
  listens_own _ := rfl

/-- A step that sends what arrives. -/
def wholeStep (net : Net) (s : State) (a : Label) : Option State :=
  (outcome net s a).map fun r => { r.1 with packets := r.1.packets ++ r.2 }

theorem step_of_whole {archive : Archive} {net : Net} (s : State) (a : Label) (h : Whole archive net s a) :
    step net archive s a = wholeStep net s a := by
  refine Option.map_congr fun r hr => ?_
  rw [arrive_of_whole h hr]

/-- A second node joins once a first one has. -/
theorem second_agrees :
    ∃ s, Transition.Reaches (step localNet textArchive) (Uncut textArchive localNet) (init localNet) s ∧
      s.joined 1 = true ∧ s.joined 2 = true ∧ Quiet s ∧ Agree s := by
  obtain ⟨s, hr, htest⟩ := Transition.runWhere_reaches_of_any (step localNet textArchive)
    (Uncut textArchive localNet) (init localNet)
    [.start 1, .deliver 0, .goOn 0, .deliver 0, .deliver 0, .goOn 0,
      .start 2, .deliver 0, .goOn 0, .deliver 0, .deliver 0, .goOn 0, .goOn 0, .deliver 0, .goOn 0, .deliver 0,
      .deliver 0, .goOn 0]
    (fun s => decide (s.joined 1 = true ∧ s.joined 2 = true ∧ Quiet s)) (by
      rw [Transition.runWhere_congr fun s a hok => step_of_whole s a hok.2]
      decide +kernel)
  obtain ⟨h₁, h₂, hquiet⟩ := of_decide_eq_true htest
  exact ⟨s, hr, h₁, h₂, hquiet, uncut_agree hr hquiet⟩

/-- The host adds two nodes before it replies to them, each asks the other, and each is told by the other that
it is a peer already. -/
theorem crossing_joins_disagree :
    ∃ s, Transition.Reaches (step localNet textArchive) Transition.free (init localNet) s ∧
      Quiet s ∧ s.joined 1 = true ∧ s.joined 2 = true ∧ ¬IsPeer s 1 2 ∧ ¬Agree s := by
  obtain ⟨s, hr, htest⟩ := Transition.runWhere_reaches_of_any (step localNet textArchive)
    (Whole textArchive localNet) (init localNet)
    [.start 1, .start 2, .deliver 0, .deliver 0, .goOn 0, .goOn 0, .deliver 0, .deliver 0, .deliver 0, .deliver 0,
      .goOn 0, .goOn 0, .goOn 0, .goOn 0, .deliver 0, .deliver 0, .goOn 0, .goOn 0, .deliver 0, .deliver 0,
      .deliver 0, .deliver 0]
    (fun s => decide (Quiet s ∧ s.joined 1 = true ∧ s.joined 2 = true ∧ ¬IsPeer s 1 2)) (by
      rw [Transition.runWhere_congr step_of_whole]
      decide +kernel)
  obtain ⟨hquiet, h₁, h₂, hnot⟩ := of_decide_eq_true htest
  exact ⟨s, hr.mono fun _ _ _ => trivial, hquiet, h₁, h₂, hnot, fun h => hnot (h.all 1 2 h₁ h₂ (by decide))⟩

end JoinPackets
