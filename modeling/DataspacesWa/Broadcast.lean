import DataspacesWa.Join

/-!
# Messages to all peers

A node sends to all of its peers but one, whose id it passes as a number. A
broadcast to everybody passes the blank character, which is the id 32, and a
broadcast to the slaves passes the master's id, which is -1 before there is a
master. So a peer with such an id is passed over.
-/
namespace Broadcast

open Join (PeerInfo)

/-- A client has the name and the address of its peer. -/
structure Commer where
  peerInfoMap : SortedMap Int32 PeerInfo
  clientMap : SortedMap Int32 PeerInfo

/-- Whether it returns 0. -/
def Commer.addPeer (c : Commer) (peerId : Int32) (info : PeerInfo) : Commer × Bool :=
  if c.peerInfoMap.contains peerId then (c, false)
  else (⟨c.peerInfoMap.insert peerId info, c.clientMap.insert peerId info⟩, true)

def Commer.rmPeer (c : Commer) (peerId : Int32) : Commer × Bool :=
  if c.peerInfoMap.contains peerId then (⟨c.peerInfoMap.erase peerId, c.clientMap.erase peerId⟩, true)
  else (c, false)

section Send
variable {P : Type} (fails : PeerInfo → P → Bool) (exceptId : Int32) (p : P)

/-- The packets with their peers, and whether one has failed. -/
def sendToAll : List (Int32 × PeerInfo) → List (Int32 × P) × Bool
  | [] => ([], false)
  | (peerId, client) :: clients =>
    let (sent, errFlag) := sendToAll clients
    if peerId = exceptId then (sent, errFlag) else ((peerId, p) :: sent, fails client p || errFlag)

/-- `Commer::send_to_all_peers` -/
def Commer.sendToAllPeers (c : Commer) : List (Int32 × P) × Bool := sendToAll fails exceptId p c.clientMap.entries

end Send

structure SDMNode where
  commer : Commer
  sdmMasterId : Int32

def init : SDMNode := ⟨⟨SortedMap.empty, SortedMap.empty⟩, -1⟩

section Node
variable {P : Type} (fails : PeerInfo → P → Bool) (n : SDMNode) (p : P)

/-- The id that is left out is the code of `' '`. -/
def SDMNode.broadcastMsg : List (Int32 × P) × Bool := n.commer.sendToAllPeers fails (Int32.ofNat ' '.toNat) p

def SDMNode.broadcastMsgToSlaves : List (Int32 × P) × Bool := n.commer.sendToAllPeers fails n.sdmMasterId p

end Node

/-- A peer is added or removed, or the master replies to a join request. -/
inductive Op where
  | addPeer : Int32 → PeerInfo → Op
  | rmPeer : Int32 → Op
  | masterReply : Int32 → Op

def SDMNode.step (n : SDMNode) : Op → SDMNode
  | .addPeer peerId info => { n with commer := (n.commer.addPeer peerId info).1 }
  | .rmPeer peerId => { n with commer := (n.commer.rmPeer peerId).1 }
  | .masterReply fromId => { n with sdmMasterId := fromId }

def SDMNode.run (n : SDMNode) (ops : List Op) : SDMNode := ops.foldl SDMNode.step n

/-! ## What it is for -/

/-- Who is a peer, and who is the master. -/
structure Membership where
  isPeer : Int32 → Bool
  master : Option Int32

def Membership.start : Membership := ⟨fun _ => false, none⟩

def Membership.step (m : Membership) : Op → Membership
  | .addPeer peerId _ => { m with isPeer := fun i => i = peerId || m.isPeer i }
  | .rmPeer peerId => { m with isPeer := fun i => i ≠ peerId && m.isPeer i }
  | .masterReply fromId => { m with master := some fromId }

def Membership.run (m : Membership) (ops : List Op) : Membership := ops.foldl Membership.step m

def Membership.isSlave (m : Membership) (i : Int32) : Bool := m.isPeer i && m.master ≠ some i

/-- One packet to each of them and to nobody else. -/
def OneEach {P : Type} (sent : List (Int32 × P)) (p : P) (who : Int32 → Bool) : Prop :=
  (∀ x ∈ sent, x.2 = p) ∧ ∀ i, (sent.map (·.1)).count i = if who i then 1 else 0

/-! ## One broadcast -/

section Send
variable {P : Type} {fails : PeerInfo → P → Bool} {exceptId : Int32} {p : P}

theorem sendToAll_packet (clients : List (Int32 × PeerInfo)) : ∀ x ∈ (sendToAll fails exceptId p clients).1, x.2 = p := by
  induction clients with
  | nil => simp [sendToAll]
  | cons e clients ih =>
    rw [sendToAll]
    cases hsent : sendToAll fails exceptId p clients with
    | mk sent errFlag =>
      rw [hsent] at ih
      dsimp only
      split
      next => exact ih
      next => exact List.forall_mem_cons.mpr ⟨rfl, ih⟩

theorem sendToAll_ids (clients : List (Int32 × PeerInfo)) :
    (sendToAll fails exceptId p clients).1.map (·.1) = (clients.map (·.1)).filter fun i => i ≠ exceptId := by
  induction clients with
  | nil => rfl
  | cons e clients ih =>
    rw [sendToAll, List.map_cons, List.filter_cons, ← ih]
    cases sendToAll fails exceptId p clients with
    | mk sent errFlag =>
      dsimp only
      split
      next heq => rw [if_neg (by simpa using heq)]
      next hne => rw [if_pos (by simpa using hne), List.map_cons]

theorem count_sendToAllPeers (c : Commer) (i : Int32) : ((c.sendToAllPeers fails exceptId p).1.map (·.1)).count i =
    if c.clientMap.contains i && i ≠ exceptId then 1 else 0 := by
  have hcount := (c.clientMap.keys_nodup.filter fun i => decide (i ≠ exceptId)).count (a := i)
  rw [Commer.sendToAllPeers, sendToAll_ids, hcount]
  simp only [List.mem_filter, ← SortedMap.contains_iff, Bool.and_eq_true]

/-- All that are not left out are sent to: those meant, where no other is left out. -/
theorem oneEach_iff (c : Commer) (who : Int32 → Bool) : OneEach (c.sendToAllPeers fails exceptId p).1 p who ↔
    ∀ i, (c.clientMap.contains i && i ≠ exceptId) = who i := by
  have hpacket : ∀ x ∈ (c.sendToAllPeers fails exceptId p).1, x.2 = p := sendToAll_packet _
  rw [OneEach, and_iff_right hpacket]
  refine forall_congr' fun i => ?_
  rw [count_sendToAllPeers]
  cases hsent : (c.clientMap.contains i && i ≠ exceptId) <;> cases hwho : who i <;> simp

/-- Leaving one out leaves nobody out who is meant, where that one is not. -/
theorem all_meant_iff (who : Int32 → Bool) (exceptId : Int32) :
    (∀ i, (who i && i ≠ exceptId) = who i) ↔ who exceptId = false := by
  constructor
  · intro h
    rw [← h exceptId, decide_eq_false fun hne => hne rfl, Bool.and_false]
  · intro hnot i
    by_cases heq : i = exceptId
    · rw [heq, hnot, Bool.false_and]
    · rw [decide_eq_true heq, Bool.and_true]

end Send

/-! ## Runs -/

structure Tracks (n : SDMNode) (m : Membership) : Prop where
  info : ∀ i, n.commer.peerInfoMap.contains i = m.isPeer i
  client : ∀ i, n.commer.clientMap.contains i = m.isPeer i
  master : n.sdmMasterId = m.master.getD (-1)

theorem tracks_step {n : SDMNode} {m : Membership} (h : Tracks n m) (op : Op) : Tracks (n.step op) (m.step op) := by
  cases op with
  | addPeer peerId info =>
    rw [SDMNode.step, Commer.addPeer]
    split
    next hthere =>
      -- one that is there stays as it is
      have hsame : ∀ i, m.isPeer i = (decide (i = peerId) || m.isPeer i) := by
        intro i
        by_cases heq : i = peerId
        · rw [heq, ← h.info, hthere, Bool.or_true]
        · simp [heq]
      exact ⟨fun i => (h.info i).trans (hsame i), fun i => (h.client i).trans (hsame i), h.master⟩
    next =>
      refine ⟨fun i => ?_, fun i => ?_, h.master⟩
      · rw [Bool.eq_iff_iff, SortedMap.contains_insert, h.info]
        simp [Membership.step]
      · rw [Bool.eq_iff_iff, SortedMap.contains_insert, h.client]
        simp [Membership.step]
  | rmPeer peerId =>
    rw [SDMNode.step, Commer.rmPeer]
    split
    next =>
      refine ⟨fun i => ?_, fun i => ?_, h.master⟩
      · rw [Bool.eq_iff_iff, SortedMap.contains_erase, h.info]
        simp [Membership.step]
      · rw [Bool.eq_iff_iff, SortedMap.contains_erase, h.client]
        simp [Membership.step]
    next hgone =>
      have hsame : ∀ i, m.isPeer i = (decide (i ≠ peerId) && m.isPeer i) := by
        intro i
        by_cases heq : i = peerId
        · rw [heq, ← h.info, eq_false_of_ne_true hgone, Bool.and_false]
        · simp [heq]
      exact ⟨fun i => (h.info i).trans (hsame i), fun i => (h.client i).trans (hsame i), h.master⟩
  | masterReply fromId => exact ⟨h.info, h.client, rfl⟩

theorem tracks_run {n : SDMNode} {m : Membership} (h : Tracks n m) (ops : List Op) : Tracks (n.run ops) (m.run ops) := by
  induction ops generalizing n m with
  | nil => exact h
  | cons op ops ih => exact ih (tracks_step h op)

theorem tracks_init : Tracks init Membership.start := ⟨fun _ => rfl, fun _ => rfl, rfl⟩

/-- A broadcast reaches every peer exactly when none has the id 32, and one to the slaves reaches them exactly
when there is a master or no peer has the id -1. -/
theorem reaches_every_peer_iff {P : Type} (fails : PeerInfo → P → Bool) (ops : List Op) (p : P) :
    (OneEach ((init.run ops).broadcastMsg fails p).1 p (Membership.start.run ops).isPeer ↔
      (Membership.start.run ops).isPeer 32 = false) ∧
    (OneEach ((init.run ops).broadcastMsgToSlaves fails p).1 p (Membership.start.run ops).isSlave ↔
      ¬ ((Membership.start.run ops).master = none ∧ (Membership.start.run ops).isPeer (-1) = true)) := by
  have htracks := tracks_run tracks_init ops
  generalize init.run ops = n at *
  generalize Membership.start.run ops = m at *
  constructor
  · rw [SDMNode.broadcastMsg, oneEach_iff]
    simp only [htracks.client]
    exact all_meant_iff m.isPeer _
  · rw [SDMNode.broadcastMsgToSlaves, oneEach_iff]
    simp only [htracks.client, htracks.master, Membership.isSlave]
    cases m.master with
    | none =>
      have hslave : ∀ i, (m.isPeer i && decide (none ≠ some i)) = m.isPeer i := fun i => Bool.and_true _
      simp only [hslave, true_and, Bool.not_eq_true]
      exact all_meant_iff m.isPeer (-1)
    | some k =>
      refine iff_of_true (fun i => ?_) (by simp)
      simp [eq_comm]

def peerAt (lport : Int32) : PeerInfo := ⟨"peer", "127.0.0.1", lport⟩

/-- With the one peer 32 nothing is sent. -/
theorem blank_passed_over : ¬ ∀ ops : List Op,
    OneEach ((init.run ops).broadcastMsg (fun _ _ => false) "p").1 "p" (Membership.start.run ops).isPeer ∧
    OneEach ((init.run ops).broadcastMsgToSlaves (fun _ _ => false) "p").1 "p" (Membership.start.run ops).isSlave :=
  fun h => absurd ((h [.addPeer 32 (peerAt 6000)]).1.2 32) (by decide)

end Broadcast
