import DataspacesWa.Join
import DataspacesWa.Pool
import DataspacesWa.Transition

/-!
# Joining a mesh

The joining of nodes with what their messages say and no packets around it.
All nodes but the host ask the host to join, and then the nodes that replies
list. Each packet is handled by a thread of its own: a request is answered in
two steps, after the peer is added and before the reply is made, and the loop
over a reply runs one number at a time. `add_peer` is one step.
-/
namespace Mesh

open Function (update update_self update_of_ne)
open Join (Node PeerInfo listed)
open LexicalCast (ofInt)

/-- Who hosts, and where each node listens. -/
structure Net where
  host : Int32
  type : Int32 → String
  lip : Int32 → String
  lport : Int32 → Int32
  listens : String → Int32 → Int32
  listens_own : ∀ i, listens (lip i) (lport i) = i

/-! ## Packets and threads -/

inductive Body where
  | joinRequest (lip : String) (lport : Int32)
  | joinReply (lip : String) (lport : Int32) (ack : Bool) (others : List (Int32 × PeerInfo))
  | joinAck
  | joinNack
  deriving DecidableEq, Repr

structure Packet where
  dest : Int32
  fromId : Int32
  body : Body
  deriving DecidableEq, Repr

/-- A thread in the middle of a packet: before its reply is made, or in the loop over a reply at a number,
with whether it has gone round there without moving on. -/
inductive Handler where
  | replying (me fromId : Int32)
  | joining (me fromId : Int32) (others : List (Int32 × PeerInfo)) (count : Nat) (spun : Bool)
  deriving DecidableEq, Repr

structure State where
  nodes : Int32 → Node
  started : Int32 → Bool
  joined : Int32 → Bool
  packets : List Packet
  handlers : List Handler

/-- The host has nobody to join. -/
def init (net : Net) : State where
  nodes i := ⟨net.type i, false, i, net.lip i, net.lport i, SortedMap.empty⟩
  started _ := false
  joined i := i = net.host
  packets := []
  handlers := []

/-! ## The handlers -/

/-- `Commer::add_peer`; `none` is the error for one that is there. -/
def addPeer (n : Node) (peerId : Int32) (lip : String) (lport : Int32) : Option Node :=
  if n.peers.contains peerId then none
  else some { n with peers := n.peers.insert peerId ⟨"peer_" ++ ofInt peerId, lip, lport⟩ }

/-- `Commer::rm_peer` -/
def rmPeer (n : Node) (peerId : Int32) : Node := { n with peers := n.peers.erase peerId }

/-- `Commer::connect_send_to` -/
def connectSendTo (net : Net) (me : Int32) (lip : String) (lport : Int32) (body : Body) : Packet :=
  ⟨net.listens lip lport, me, body⟩

/-- `Commer::send_to_peer`; the client of one that is no peer is a null pointer. -/
def sendToPeer (net : Net) (n : Node) (peerId : Int32) (body : Body) : Option Packet :=
  (n.peers.get? peerId).map fun info => connectSendTo net n.id info.lip info.lport body

def joinReq (n : Node) : Body := .joinRequest n.lip n.lport

def joinReply (n : Node) (peerId : Int32) (pos : Bool) : Body :=
  .joinReply n.lip n.lport pos (listed n peerId pos)

/-- `handle_recv` up to the end of the handler or to its first stop. -/
def handleRecv (net : Net) (s : State) (p : Packet) : Option State :=
  let me := s.nodes p.dest
  match p.body with
  | .joinRequest lip lport =>
    match addPeer me p.fromId lip lport with
    | none => some { s with
        packets := s.packets ++ [connectSendTo net p.dest lip lport (joinReply me p.fromId false)] }
    | some me => some { s with
        nodes := update s.nodes p.dest me
        handlers := s.handlers ++ [.replying p.dest p.fromId] }
  | .joinReply lip lport true others =>
    match addPeer me p.fromId lip lport with
    | none => (sendToPeer net me p.fromId .joinNack).map fun nack => { s with packets := s.packets ++ [nack] }
    | some me => (sendToPeer net me p.fromId .joinAck).map fun ack => { s with
        nodes := update s.nodes p.dest me
        joined := update s.joined p.dest true
        packets := s.packets ++ [ack]
        handlers := s.handlers ++ [.joining p.dest p.fromId others 0 false] }
  | .joinReply _ _ false _ => some s
  | .joinAck => some s
  | .joinNack => some { s with nodes := update s.nodes p.dest (rmPeer me p.fromId) }

/-- What is left of `handle_join_req` once the peer is added. -/
def sendReply (net : Net) (s : State) (me fromId : Int32) : Option State :=
  (sendToPeer net (s.nodes me) fromId (joinReply (s.nodes me) fromId true)).map fun reply =>
    { s with packets := s.packets ++ [reply] }

/-- One round of the loop of `handle_join_reply`: what is sent, and where the thread is then. -/
def joinRound (net : Net) (s : State) (me fromId : Int32) (others : List (Int32 × PeerInfo)) (count : Nat) :
    List Packet × List Handler :=
  match others[count]? with
  | none => ([], [])
  | some e =>
    if (s.nodes me).peers.contains e.1 then ([], [.joining me fromId others count true])
    else ([connectSendTo net me e.2.lip e.2.lport (joinReq (s.nodes me))],
      [.joining me fromId others (count + 1) false])

/-! ## Steps -/

/-- A node starts, or a packet or a thread is taken by its place. -/
inductive Label where
  | start (i : Int32)
  | deliver (k : Nat)
  | goOn (k : Nat)
  deriving DecidableEq, Repr

def step (net : Net) (s : State) : Label → Option State
  | .start i =>
    if i = net.host ∨ s.started i then none
    else some { s with
      started := update s.started i true
      packets := s.packets ++ [connectSendTo net i (net.lip net.host) (net.lport net.host) (joinReq (s.nodes i))] }
  | .deliver k => (s.packets[k]?).bind fun p => handleRecv net { s with packets := s.packets.eraseIdx k } p
  | .goOn k => (s.handlers[k]?).bind fun
    | .replying me fromId => sendReply net { s with handlers := s.handlers.eraseIdx k } me fromId
    | .joining me fromId others count _ =>
      let (packets, handlers) := joinRound net s me fromId others count
      some { s with packets := s.packets ++ packets, handlers := s.handlers.eraseIdx k ++ handlers }

/-! ## The property -/

def IsPeer (s : State) (i j : Int32) : Prop := (s.nodes i).peers.contains j = true

/-- A thread that goes round at its number. -/
def Handler.spinning : Handler → Bool
  | .joining _ _ _ _ spun => spun
  | .replying _ _ => false

/-- No join message in flight or in the making. -/
def Quiet (s : State) : Prop := s.packets = [] ∧ ∀ h ∈ s.handlers, h.spinning = true

structure Agree (s : State) : Prop where
  symm : ∀ i j, IsPeer s i j → IsPeer s j i
  all : ∀ i j, s.joined i = true → s.joined j = true → i ≠ j → IsPeer s i j

/-- A positive reply does not come from a peer, and the loop over the reply of the host comes to no peer. -/
def Uncrossed (net : Net) (s : State) : Label → Prop
  | .start _ => True
  | .deliver k => ∀ p ∈ s.packets[k]?, match p.body with
    | .joinReply _ _ true _ => ¬IsPeer s p.dest p.fromId
    | _ => True
  | .goOn k => ∀ h ∈ s.handlers[k]?, match h with
    | .joining me fromId others count _ => fromId = net.host → ∀ e ∈ others[count]?, ¬IsPeer s me e.1
    | _ => True

/-! ## What runs keep -/

def Packet.positive (p : Packet) : Prop := ∃ lip lport others, p.body = .joinReply lip lport true others

/-- A request comes from a node other than the host, and a positive reply from a node that has added its
receiver; but for the exchange with the host, the one that has asked has the host as a peer. -/
def PacketOk (net : Net) (s : State) (p : Packet) : Prop :=
  match p.body with
  | .joinRequest lip lport => net.listens lip lport = p.fromId ∧ p.fromId ≠ net.host ∧
      (p.dest = net.host ∨ IsPeer s p.fromId net.host)
  | .joinReply lip lport true others => net.listens lip lport = p.fromId ∧ p.dest ≠ net.host ∧
      IsPeer s p.fromId p.dest ∧ (p.fromId = net.host ∨ IsPeer s p.dest net.host) ∧
      ∀ e ∈ others, net.listens e.2.lip e.2.lport = e.1
  | .joinReply _ _ false _ => True
  | .joinAck => True
  | .joinNack => False

def HandlerOk (net : Net) (s : State) : Handler → Prop
  | .replying me fromId => fromId ≠ net.host ∧ IsPeer s me fromId ∧ (me = net.host ∨ IsPeer s fromId net.host)
  | .joining me fromId others _ spun => me ≠ net.host ∧ IsPeer s me net.host ∧
      (∀ e ∈ others, net.listens e.2.lip e.2.lport = e.1) ∧ (fromId = net.host → spun = false)

/-- Node `j` has `i` as a peer, or a positive reply of `i` is on its way to it. -/
def Backed (s : State) (i j : Int32) : Prop :=
  IsPeer s j i ∨ (∃ p ∈ s.packets, p.dest = j ∧ p.fromId = i ∧ p.positive) ∨ .replying i j ∈ s.handlers

/-- Node `x` has `y` as a peer or has asked it, or is going to by the reply of the host. -/
def Meets (net : Net) (s : State) (x y : Int32) : Prop :=
  IsPeer s x y ∨ (∃ p ∈ s.packets, p.dest = y ∧ p.fromId = x ∧ ∃ lip lport, p.body = .joinRequest lip lport) ∨
  .replying net.host x ∈ s.handlers ∨
  (∃ p ∈ s.packets, p.dest = x ∧ p.fromId = net.host ∧
    ∃ lip lport others, p.body = .joinReply lip lport true others ∧ y ∈ others.map (·.1)) ∨
  ∃ others count spun, .joining x net.host others count spun ∈ s.handlers ∧ y ∈ (others.drop count).map (·.1)

structure Inv (net : Net) (s : State) : Prop where
  static : ∀ i, s.nodes i = { (init net).nodes i with peers := (s.nodes i).peers }
  infos : ∀ i j info, (s.nodes i).peers.get? j = some info → net.listens info.lip info.lport = j
  packets : ∀ p ∈ s.packets, PacketOk net s p
  handlers : ∀ h ∈ s.handlers, HandlerOk net s h
  backed : ∀ i j, IsPeer s i j → Backed s i j
  joined : ∀ i, s.joined i = true → i = net.host ∨ IsPeer s i net.host
  pairs : ∀ x y, x ≠ y → IsPeer s net.host x → IsPeer s net.host y → Meets net s x y ∨ Meets net s y x

/-! ## One step at a time -/

/-- At most one packet and one thread are gone, and no peer. -/
structure Change (s s' : State) (p : Option Packet) (h : Option Handler) : Prop where
  grown : ∀ i j, IsPeer s i j → IsPeer s' i j
  packets : ∀ q ∈ s.packets, q ∈ s'.packets ∨ p = some q
  handlers : ∀ g ∈ s.handlers, g ∈ s'.handlers ∨ h = some g

section Change
variable {net : Net} {s s' : State} {p : Option Packet} {h : Option Handler} {i j x y : Int32}

theorem PacketOk.mono (hgrown : ∀ i j, IsPeer s i j → IsPeer s' i j) {q : Packet} (hq : PacketOk net s q) :
    PacketOk net s' q := by
  unfold PacketOk at *
  split at hq
  · exact ⟨hq.1, hq.2.1, hq.2.2.imp id (hgrown _ _)⟩
  · exact ⟨hq.1, hq.2.1, hgrown _ _ hq.2.2.1, hq.2.2.2.1.imp id (hgrown _ _), hq.2.2.2.2⟩
  · trivial
  · trivial
  · exact hq

theorem HandlerOk.mono (hgrown : ∀ i j, IsPeer s i j → IsPeer s' i j) {g : Handler} (hg : HandlerOk net s g) :
    HandlerOk net s' g := by
  cases g with
  | replying me fromId => exact ⟨hg.1, hgrown _ _ hg.2.1, hg.2.2.imp id (hgrown _ _)⟩
  | joining me fromId others count spun => exact ⟨hg.1, hgrown _ _ hg.2.1, hg.2.2⟩

/-- What backed a peer and is gone is the reply or the thread that makes it. -/
theorem Backed.move (c : Change s s' p h) (hb : Backed s i j) : Backed s' i j ∨
    (∃ q, p = some q ∧ q.dest = j ∧ q.fromId = i ∧ q.positive) ∨ h = some (.replying i j) := by
  rcases hb with hpeer | ⟨q, hq, hrest⟩ | hg
  · exact .inl (.inl (c.grown _ _ hpeer))
  · rcases c.packets q hq with hq | hgone
    · exact .inl (.inr (.inl ⟨q, hq, hrest⟩))
    · exact .inr (.inl ⟨q, hgone, hrest⟩)
  · rcases c.handlers _ hg with hg | hgone
    · exact .inl (.inr (.inr hg))
    · exact .inr (.inr hgone)

/-- What was to bring two nodes together and is gone. -/
def Lost (net : Net) (p : Option Packet) (h : Option Handler) (x y : Int32) : Prop :=
  (∃ q, p = some q ∧ q.dest = y ∧ q.fromId = x ∧ ∃ lip lport, q.body = .joinRequest lip lport) ∨
  h = some (.replying net.host x) ∨
  (∃ q, p = some q ∧ q.dest = x ∧ q.fromId = net.host ∧
    ∃ lip lport others, q.body = .joinReply lip lport true others ∧ y ∈ others.map (·.1)) ∨
  ∃ others count spun, h = some (.joining x net.host others count spun) ∧ y ∈ (others.drop count).map (·.1)

theorem Meets.move (c : Change s s' p h) (hm : Meets net s x y) : Meets net s' x y ∨ Lost net p h x y := by
  rcases hm with hpeer | ⟨q, hq, hrest⟩ | hg | ⟨q, hq, hrest⟩ | ⟨others, count, spun, hg, hrest⟩
  · exact .inl (.inl (c.grown _ _ hpeer))
  · rcases c.packets q hq with hq | hgone
    · exact .inl (.inr (.inl ⟨q, hq, hrest⟩))
    · exact .inr (.inl ⟨q, hgone, hrest⟩)
  · rcases c.handlers _ hg with hg | hgone
    · exact .inl (.inr (.inr (.inl hg)))
    · exact .inr (.inr (.inl hgone))
  · rcases c.packets q hq with hq | hgone
    · exact .inl (.inr (.inr (.inr (.inl ⟨q, hq, hrest⟩))))
    · exact .inr (.inr (.inr (.inl ⟨q, hgone, hrest⟩)))
  · rcases c.handlers _ hg with hg | hgone
    · exact .inl (.inr (.inr (.inr (.inr ⟨others, count, spun, hg, hrest⟩))))
    · exact .inr (.inr (.inr (.inr ⟨others, count, spun, hgone, hrest⟩)))

/-- A step keeps the invariant when what it takes away has done its part and what it adds is well formed. -/
theorem Inv.ofChange (hs : Inv net s) (c : Change s s' p h)
    (static : ∀ i, s'.nodes i = { (init net).nodes i with peers := (s'.nodes i).peers })
    (infos : ∀ i j info, (s'.nodes i).peers.get? j = some info → net.listens info.lip info.lport = j)
    (newPacket : ∀ q ∈ s'.packets, q ∈ s.packets ∨ PacketOk net s' q)
    (newHandler : ∀ g ∈ s'.handlers, g ∈ s.handlers ∨ HandlerOk net s' g)
    (joined : ∀ i, s'.joined i = true → s.joined i = true ∨ IsPeer s' i net.host)
    (newPeer : ∀ i j, IsPeer s' i j → IsPeer s i j ∨
      Backed s' i j ∧ (i = net.host → .replying net.host j ∈ s'.handlers))
    (backed : ∀ i j, (∃ q, p = some q ∧ q.dest = j ∧ q.fromId = i ∧ q.positive) ∨ h = some (.replying i j) →
      Backed s' i j)
    (met : ∀ x y, x ≠ y → IsPeer s net.host y → Lost net p h x y → Meets net s' x y ∨ Meets net s' y x) :
    Inv net s' where
  static := static
  infos := infos
  packets q hq := (newPacket q hq).elim (fun hold => (hs.packets q hold).mono c.grown) id
  handlers g hg := (newHandler g hg).elim (fun hold => (hs.handlers g hold).mono c.grown) id
  backed i j hij := by
    rcases newPeer i j hij with hold | ⟨hb, -⟩
    · exact (hs.backed i j hold).move c |>.elim id (backed i j)
    · exact hb
  joined i hi := by
    rcases joined i hi with hold | hnew
    · exact (hs.joined i hold).imp id (c.grown _ _)
    · exact .inr hnew
  pairs x y hxy hx hy := by
    rcases newPeer net.host x hx with hx | ⟨-, hx⟩
    · rcases newPeer net.host y hy with hy | ⟨-, hy⟩
      · rcases hs.pairs x y hxy hx hy with hm | hm
        · exact (hm.move c).elim .inl (met x y hxy hy)
        · exact (hm.move c).elim .inr fun hl => (met y x hxy.symm hx hl).symm
      · exact .inr (.inr (.inr (.inl (hy rfl))))
    · exact .inl (.inr (.inr (.inl (hx rfl))))

end Change

section Step
variable {net : Net} {s s' : State}

theorem addPeer_some {n n' : Node} {j : Int32} {lip : String} {lport : Int32} (h : addPeer n j lip lport = some n') :
    n.peers.contains j = false ∧ n' = { n with peers := n.peers.insert j ⟨"peer_" ++ ofInt j, lip, lport⟩ } := by
  unfold addPeer at h
  split at h
  · cases h
  · rename_i hnew
    exact ⟨by simpa using hnew, (Option.some.inj h).symm⟩

theorem addPeer_none {n : Node} {j : Int32} {lip : String} {lport : Int32} (h : addPeer n j lip lport = none) :
    n.peers.contains j = true := by
  unfold addPeer at h
  split at h
  · assumption
  · cases h

/-- The state once a node has one more peer. -/
structure Adds (net : Net) (s s' : State) (me j : Int32) : Prop where
  isPeer : ∀ i k, IsPeer s' i k ↔ IsPeer s i k ∨ i = me ∧ k = j
  static : ∀ i, s'.nodes i = { (init net).nodes i with peers := (s'.nodes i).peers }
  infos : ∀ i k info, (s'.nodes i).peers.get? k = some info → net.listens info.lip info.lport = k

theorem adds_of_addPeer (hs : Inv net s) {me j : Int32} {lip : String} {lport : Int32} {n : Node}
    (hadd : addPeer (s.nodes me) j lip lport = some n) (haddr : net.listens lip lport = j)
    (hnodes : s'.nodes = update s.nodes me n) : Adds net s s' me j := by
  obtain ⟨-, rfl⟩ := addPeer_some hadd
  refine ⟨fun i k => ?_, fun i => ?_, fun i k info hinfo => ?_⟩
  · unfold IsPeer
    rw [hnodes]
    by_cases hi : i = me
    · subst hi
      rw [update_self, SortedMap.contains, SortedMap.get?_insert, SortedMap.contains]
      by_cases hk : k = j <;> simp [hk]
    · simp [hi]
  · rw [hnodes]
    by_cases hi : i = me
    · subst hi
      rw [update_self]
      conv_lhs => rw [hs.static i]
    · rw [update_of_ne hi]
      exact hs.static i
  · rw [hnodes] at hinfo
    by_cases hi : i = me
    · subst hi
      rw [update_self, SortedMap.get?_insert] at hinfo
      split at hinfo
      · rename_i hk
        obtain rfl := Option.some.inj hinfo
        rw [hk]
        exact haddr
      · exact hs.infos i k info hinfo
    · rw [update_of_ne hi] at hinfo
      exact hs.infos i k info hinfo

/-- Where no node changes, nothing is to be shown about peers. -/
theorem Inv.ofSend (hs : Inv net s) {p : Option Packet} {h : Option Handler} (hnodes : s'.nodes = s.nodes)
    (hjoined : s'.joined = s.joined)
    (packets : ∀ q ∈ s.packets, q ∈ s'.packets ∨ p = some q)
    (handlers : ∀ g ∈ s.handlers, g ∈ s'.handlers ∨ h = some g)
    (newPacket : ∀ q ∈ s'.packets, q ∈ s.packets ∨ PacketOk net s' q)
    (newHandler : ∀ g ∈ s'.handlers, g ∈ s.handlers ∨ HandlerOk net s' g)
    (backed : ∀ i j, (∃ q, p = some q ∧ q.dest = j ∧ q.fromId = i ∧ q.positive) ∨ h = some (.replying i j) →
      Backed s' i j)
    (met : ∀ x y, x ≠ y → IsPeer s net.host y → Lost net p h x y → Meets net s' x y ∨ Meets net s' y x) :
    Inv net s' := by
  have hpeer : ∀ i j, IsPeer s' i j ↔ IsPeer s i j := fun i j => by rw [IsPeer, hnodes, IsPeer]
  refine hs.ofChange ⟨fun i j => (hpeer i j).mpr, packets, handlers⟩ ?_ ?_ newPacket newHandler ?_ ?_ backed met
  · rw [hnodes]
    exact hs.static
  · rw [hnodes]
    exact hs.infos
  · rw [hjoined]
    exact fun i hi => .inl hi
  · exact fun i j hij => .inl ((hpeer i j).mp hij)

theorem lip_eq (hs : Inv net s) (i : Int32) : (s.nodes i).lip = net.lip i := by rw [hs.static]; rfl

theorem lport_eq (hs : Inv net s) (i : Int32) : (s.nodes i).lport = net.lport i := by rw [hs.static]; rfl

theorem listens_self (hs : Inv net s) (i : Int32) : net.listens (s.nodes i).lip (s.nodes i).lport = i := by
  rw [lip_eq hs, lport_eq hs, net.listens_own]

theorem start_inv (hs : Inv net s) {i : Int32} (hstep : step net s (.start i) = some s') : Inv net s' := by
  simp only [step] at hstep
  split at hstep
  · cases hstep
  · rename_i hi
    obtain rfl := Option.some.inj hstep
    have hhost : i ≠ net.host := fun he => hi (.inl he)
    refine hs.ofSend (p := none) (h := none) rfl rfl (fun q hq => .inl (List.mem_append_left _ hq))
      (fun g hg => .inl hg) ?_ (fun g hg => .inl hg) ?_ ?_
    · intro q hq
      refine (List.mem_append.mp hq).imp id fun hq => ?_
      obtain rfl := List.mem_singleton.mp hq
      exact ⟨listens_self hs i, hhost, .inl (net.listens_own _)⟩
    · rintro i j (⟨q, hq, -⟩ | hg)
      · cases hq
      · cases hg
    · rintro x y - - (⟨q, hq, -⟩ | hg | ⟨q, hq, -⟩ | ⟨_, _, _, hg, -⟩)
      · cases hq
      · cases hg
      · cases hq
      · cases hg

/-- The packets once one is delivered. -/
theorem mem_delivered {k : Nat} {p q : Packet} {packets : List Packet} (hp : packets[k]? = some p)
    (hq : q ∈ packets) (new : List Packet) : q ∈ packets.eraseIdx k ++ new ∨ some p = some q := by
  rcases Pool.mem_eraseIdx_or hp hq with hq | rfl
  · exact .inl (List.mem_append_left _ hq)
  · exact .inr rfl

/-- A delivered packet that is neither a request nor a positive reply has nothing to hand on. -/
theorem not_lost {p : Packet} {h : Option Handler} {x y : Int32} (hreq : ∀ lip lport, p.body ≠ .joinRequest lip lport)
    (hpos : ¬p.positive) (hh : h = none) : ¬Lost net (some p) h x y := by
  subst hh
  rintro (⟨q, hq, -, -, lip, lport, hbody⟩ | hg | ⟨q, hq, -, -, lip, lport, others, hbody, -⟩ | ⟨_, _, _, hg, -⟩)
  · obtain rfl := Option.some.inj hq
    exact hreq lip lport hbody
  · cases hg
  · obtain rfl := Option.some.inj hq
    exact hpos ⟨lip, lport, others, hbody⟩
  · cases hg

/-- A request brings its two nodes together whether it is accepted or refused. -/
theorem request_inv (hs : Inv net s) {k : Nat} {p : Packet} {lip : String} {lport : Int32} (hp : s.packets[k]? = some p)
    (hbody : p.body = .joinRequest lip lport)
    (hstep : handleRecv net { s with packets := s.packets.eraseIdx k } p = some s') : Inv net s' := by
  have hok := hs.packets p (List.mem_of_getElem? hp)
  simp only [PacketOk, hbody] at hok
  obtain ⟨haddr, hhost, hknown⟩ := hok
  have hpos : ¬p.positive := by
    rintro ⟨_, _, _, hb⟩
    rw [hbody] at hb
    cases hb
  have hlost : ∀ x y, Lost net (some p) none x y → x = p.fromId ∧ y = p.dest := by
    rintro x y (⟨q, hq, hdest, hfrom, -⟩ | hg | ⟨q, hq, -, -, lip, lport, others, hb, -⟩ | ⟨_, _, _, hg, -⟩)
    · obtain rfl := Option.some.inj hq
      exact ⟨hfrom.symm, hdest.symm⟩
    · cases hg
    · obtain rfl := Option.some.inj hq
      exact absurd ⟨lip, lport, others, hb⟩ hpos
    · cases hg
  have hbacked : ∀ i j, (∃ q, some p = some q ∧ q.dest = j ∧ q.fromId = i ∧ q.positive) ∨
      (none : Option Handler) = some (.replying i j) → Backed s' i j := by
    rintro i j (⟨q, hq, -, -, hq'⟩ | hg)
    · obtain rfl := Option.some.inj hq
      exact absurd hq' hpos
    · cases hg
  simp only [handleRecv, hbody] at hstep
  cases hadd : addPeer (s.nodes p.dest) p.fromId lip lport with
  | none =>
    have hthere := addPeer_none hadd
    simp only [hadd] at hstep
    obtain rfl := Option.some.inj hstep
    refine hs.ofSend (p := some p) (h := none) rfl rfl (fun q hq => mem_delivered hp hq _) (fun g hg => .inl hg) ?_
      (fun g hg => .inl hg) hbacked ?_
    · intro q hq
      rcases List.mem_append.mp hq with hq | hq
      · exact .inl (List.mem_of_mem_eraseIdx hq)
      · obtain rfl := List.mem_singleton.mp hq
        exact .inr trivial
    · intro x y _ _ hl
      obtain ⟨rfl, rfl⟩ := hlost x y hl
      exact .inr (.inl hthere)
  | some n =>
    simp only [hadd] at hstep
    obtain rfl := Option.some.inj hstep
    have hadds : Adds net s { s with
        nodes := update s.nodes p.dest n
        packets := s.packets.eraseIdx k
        handlers := s.handlers ++ [.replying p.dest p.fromId] } p.dest p.fromId :=
      adds_of_addPeer hs hadd haddr rfl
    have hthread : Handler.replying p.dest p.fromId ∈ s.handlers ++ [.replying p.dest p.fromId] := by simp
    have hgrown := fun i j (hij : IsPeer s i j) => (hadds.isPeer i j).mpr (.inl hij)
    have hnew := (hadds.isPeer p.dest p.fromId).mpr (.inr ⟨rfl, rfl⟩)
    refine hs.ofChange (p := some p) (h := none) ⟨hgrown, fun q hq => ?_, fun g hg => .inl (List.mem_append_left _ hg)⟩
      hadds.static hadds.infos (fun q hq => .inl (List.mem_of_mem_eraseIdx hq)) ?_ (fun i hi => .inl hi) ?_ hbacked ?_
    · simpa using mem_delivered hp hq []
    · intro g hg
      refine (List.mem_append.mp hg).imp id fun hg => ?_
      obtain rfl := List.mem_singleton.mp hg
      exact ⟨hhost, hnew, hknown.imp id (hgrown _ _)⟩
    · intro i j hij
      refine ((hadds.isPeer i j).mp hij).imp id ?_
      rintro ⟨rfl, rfl⟩
      exact ⟨.inr (.inr hthread), fun he => he ▸ hthread⟩
    · intro x y _ _ hl
      obtain ⟨rfl, rfl⟩ := hlost x y hl
      exact .inr (.inl hnew)

/-- A positive reply makes its receiver go on to the nodes it lists. -/
theorem reply_inv (hs : Inv net s) {k : Nat} {p : Packet} {lip : String} {lport : Int32}
    {others : List (Int32 × PeerInfo)} (hp : s.packets[k]? = some p) (hbody : p.body = .joinReply lip lport true others)
    (hnot : ¬IsPeer s p.dest p.fromId)
    (hstep : handleRecv net { s with packets := s.packets.eraseIdx k } p = some s') : Inv net s' := by
  have hok := hs.packets p (List.mem_of_getElem? hp)
  simp only [PacketOk, hbody] at hok
  obtain ⟨haddr, hhost, hback, hknown, hothers⟩ := hok
  simp only [handleRecv, hbody] at hstep
  cases hadd : addPeer (s.nodes p.dest) p.fromId lip lport with
  | none => exact absurd (addPeer_none hadd) hnot
  | some n =>
    simp only [hadd, Option.map_eq_some_iff] at hstep
    obtain ⟨ack, hack, rfl⟩ := hstep
    have hackBody : ack.body = .joinAck := by
      simp only [sendToPeer, Option.map_eq_some_iff] at hack
      obtain ⟨_, -, rfl⟩ := hack
      rfl
    have hadds : Adds net s { s with
        nodes := update s.nodes p.dest n
        joined := update s.joined p.dest true
        packets := s.packets.eraseIdx k ++ [ack]
        handlers := s.handlers ++ [.joining p.dest p.fromId others 0 false] } p.dest p.fromId :=
      adds_of_addPeer hs hadd haddr rfl
    have hgrown := fun i j (hij : IsPeer s i j) => (hadds.isPeer i j).mpr (.inl hij)
    have hhostPeer : IsPeer { s with
        nodes := update s.nodes p.dest n
        joined := update s.joined p.dest true
        packets := s.packets.eraseIdx k ++ [ack]
        handlers := s.handlers ++ [.joining p.dest p.fromId others 0 false] } p.dest net.host := by
      rcases hknown with he | hknown
      · exact (hadds.isPeer _ _).mpr (.inr ⟨rfl, he.symm⟩)
      · exact hgrown _ _ hknown
    refine hs.ofChange (p := some p) (h := none) ⟨hgrown, fun q hq => mem_delivered hp hq _,
      fun g hg => .inl (List.mem_append_left _ hg)⟩ hadds.static hadds.infos ?_ ?_ ?_ ?_ ?_ ?_
    · intro q hq
      rcases List.mem_append.mp hq with hq | hq
      · exact .inl (List.mem_of_mem_eraseIdx hq)
      · obtain rfl := List.mem_singleton.mp hq
        exact .inr (by simp only [PacketOk, hackBody])
    · intro g hg
      refine (List.mem_append.mp hg).imp id fun hg => ?_
      obtain rfl := List.mem_singleton.mp hg
      exact ⟨hhost, hhostPeer, hothers, fun _ => rfl⟩
    · intro i hi
      by_cases hid : i = p.dest
      · exact .inr (hid ▸ hhostPeer)
      · exact .inl (by simpa [hid] using hi)
    · intro i j hij
      refine ((hadds.isPeer i j).mp hij).imp id ?_
      rintro ⟨rfl, rfl⟩
      exact ⟨.inl (hgrown _ _ hback), fun he => absurd he hhost⟩
    · rintro i j (⟨q, hq, rfl, rfl, -⟩ | hg)
      · obtain rfl := Option.some.inj hq
        exact .inl ((hadds.isPeer _ _).mpr (.inr ⟨rfl, rfl⟩))
      · cases hg
    · rintro x y - - (⟨q, hq, -, -, _, _, hb⟩ | hg | ⟨q, hq, hdest, hfrom, _, _, others', hb, hy⟩ | ⟨_, _, _, hg, -⟩)
      · obtain rfl := Option.some.inj hq
        rw [hbody] at hb
        cases hb
      · cases hg
      · obtain rfl := Option.some.inj hq
        rw [hbody] at hb
        cases hb
        exact .inl (.inr (.inr (.inr (.inr ⟨others, 0, false, by simp [hdest, hfrom], by simpa using hy⟩))))
      · cases hg

theorem deliver_inv (hs : Inv net s) {k : Nat} (hok : Uncrossed net s (.deliver k))
    (hstep : step net s (.deliver k) = some s') : Inv net s' := by
  simp only [step] at hstep
  obtain ⟨p, hp, hrecv⟩ := Option.bind_eq_some_iff.mp hstep
  have huncrossed := hok p hp
  have hpacket := hs.packets p (List.mem_of_getElem? hp)
  -- what neither asks nor accepts changes nothing but the packets
  have hidle : (∀ lip lport, p.body ≠ .joinRequest lip lport) → ¬p.positive →
      Inv net { s with packets := s.packets.eraseIdx k } := by
    intro hreq hpos
    refine hs.ofSend (p := some p) (h := none) rfl rfl (fun q hq => ?_) (fun g hg => .inl hg)
      (fun q hq => .inl (List.mem_of_mem_eraseIdx hq)) (fun g hg => .inl hg) ?_ ?_
    · simpa using mem_delivered hp hq []
    · rintro i j (⟨q, hq, -, -, hq'⟩ | hg)
      · obtain rfl := Option.some.inj hq
        exact absurd hq' hpos
      · cases hg
    · exact fun x y _ _ hl => absurd hl (not_lost hreq hpos rfl)
  cases hbody : p.body with
  | joinRequest lip lport => exact request_inv hs hp hbody hrecv
  | joinReply lip lport ack others =>
    cases ack with
    | true =>
      rw [hbody] at huncrossed
      exact reply_inv hs hp hbody huncrossed hrecv
    | false =>
      simp only [handleRecv, hbody] at hrecv
      obtain rfl := Option.some.inj hrecv
      refine hidle (by simp [hbody]) ?_
      rintro ⟨_, _, _, hb⟩
      rw [hbody] at hb
      cases hb
  | joinAck =>
    simp only [handleRecv, hbody] at hrecv
    obtain rfl := Option.some.inj hrecv
    refine hidle (by simp [hbody]) ?_
    rintro ⟨_, _, _, hb⟩
    rw [hbody] at hb
    cases hb
  | joinNack =>
    simp only [PacketOk, hbody] at hpacket

/-- The reply lists all the other peers that its sender has by then. -/
theorem sendReply_inv (hs : Inv net s) {k : Nat} {me j : Int32} (hg : s.handlers[k]? = some (.replying me j))
    (hstep : sendReply net { s with handlers := s.handlers.eraseIdx k } me j = some s') : Inv net s' := by
  obtain ⟨hhost, hpeer, hknown⟩ := hs.handlers _ (List.mem_of_getElem? hg)
  obtain ⟨info, hinfo⟩ := Option.isSome_iff_exists.mp hpeer
  simp only [sendReply, sendToPeer, hinfo, Option.map_some, Option.some.injEq] at hstep
  have hmesh : (s.nodes me).masterSlave = false := by rw [hs.static]; rfl
  have hid : (s.nodes me).id = me := by rw [hs.static]; rfl
  have hlisted : listed (s.nodes me) j true = (s.nodes me).peers.entries.filter (·.1 ≠ j) := by
    simp [listed, hmesh]
  have hreply : connectSendTo net (s.nodes me).id info.lip info.lport (joinReply (s.nodes me) j true) =
      ⟨j, me, .joinReply (s.nodes me).lip (s.nodes me).lport true
        ((s.nodes me).peers.entries.filter (·.1 ≠ j))⟩ := by
    rw [connectSendTo, joinReply, hid, hlisted, hs.infos me j info hinfo]
  rw [hreply] at hstep
  subst hstep
  have hmem : ∀ q : Packet, q ∈ s.packets ++ [q] := by simp
  refine hs.ofSend (p := none) (h := some (.replying me j)) rfl rfl (fun q hq => .inl (List.mem_append_left _ hq))
    (fun g hg' => ?_) ?_ (fun g hg' => .inl (List.mem_of_mem_eraseIdx hg')) ?_ ?_
  · rcases Pool.mem_eraseIdx_or hg hg' with hg' | rfl
    · exact .inl hg'
    · exact .inr rfl
  · intro q hq
    refine (List.mem_append.mp hq).imp id fun hq => ?_
    obtain rfl := List.mem_singleton.mp hq
    refine ⟨listens_self hs me, hhost, hpeer, hknown, fun e he => ?_⟩
    exact hs.infos me e.1 e.2 (SortedMap.mem_entries.mp (List.mem_of_mem_filter he))
  · rintro i i' (⟨q, hq, -⟩ | hg')
    · cases hq
    · cases hg'
      exact .inr (.inl ⟨_, hmem _, rfl, rfl, _, _, _, rfl⟩)
  · rintro x y hxy hy (⟨q, hq, -⟩ | hg' | ⟨q, hq, -⟩ | ⟨_, _, _, hg', -⟩)
    · cases hq
    · cases hg'
      obtain ⟨⟨y', info'⟩, hentry, rfl⟩ := List.mem_map.mp (SortedMap.contains_iff.mp hy)
      refine .inl (.inr (.inr (.inr (.inl ⟨_, hmem _, rfl, rfl, _, _, _, rfl, ?_⟩))))
      exact List.mem_map.mpr ⟨(y', info'), List.mem_filter.mpr ⟨hentry, by simpa using Ne.symm hxy⟩, rfl⟩
    · cases hq
    · cases hg'

/-- A round of the loop over the reply of the host asks the node at its number. -/
theorem joinRound_inv (hs : Inv net s) {k : Nat} {me j : Int32} {others : List (Int32 × PeerInfo)} {count : Nat}
    {spun : Bool} (hg : s.handlers[k]? = some (.joining me j others count spun))
    (hok : j = net.host → ∀ e ∈ others[count]?, ¬IsPeer s me e.1) :
    Inv net { s with
      packets := s.packets ++ (joinRound net s me j others count).1
      handlers := s.handlers.eraseIdx k ++ (joinRound net s me j others count).2 } := by
  obtain ⟨hhost, hknown, hothers, -⟩ := hs.handlers _ (List.mem_of_getElem? hg)
  have hbacked : ∀ (t : State) (i i' : Int32), (∃ q : Packet, none = some q ∧ q.dest = i' ∧ q.fromId = i ∧ q.positive) ∨
      some (Handler.joining me j others count spun) = some (.replying i i') → Backed t i i' := by
    rintro t i i' (⟨q, hq, -⟩ | hg')
    · cases hq
    · cases hg'
  have hlost : ∀ x y, Lost net none (some (.joining me j others count spun)) x y →
      x = me ∧ j = net.host ∧ y ∈ (others.drop count).map (·.1) := by
    rintro x y (⟨q, hq, -⟩ | hg' | ⟨q, hq, -⟩ | ⟨_, _, _, hg', hy⟩)
    · cases hq
    · cases hg'
    · cases hq
    · cases hg'
      exact ⟨rfl, rfl, hy⟩
  unfold joinRound
  cases he : others[count]? with
  | none =>
    refine hs.ofSend (p := none) (h := some (.joining me j others count spun)) rfl rfl (fun q hq => ?_)
      (fun g hg' => ?_) (fun q hq => ?_) (fun g hg' => ?_) (hbacked _) ?_
    · simpa using hq
    · simpa [eq_comm] using Pool.mem_eraseIdx_or hg hg'
    · exact .inl (by simpa using hq)
    · exact .inl (List.mem_of_mem_eraseIdx (by simpa using hg'))
    · intro x y _ _ hl
      obtain ⟨-, -, hy⟩ := hlost x y hl
      rw [List.drop_eq_nil_of_le (List.getElem?_eq_none_iff.mp he)] at hy
      cases hy
  | some e =>
    rw [he] at hok
    by_cases hpeer : (s.nodes me).peers.contains e.1 = true
    · -- only the loop over the reply of another node comes to a peer
      have hother : j ≠ net.host := fun hj => hok hj e rfl hpeer
      simp only [hpeer, if_true]
      refine hs.ofSend (p := none) (h := some (.joining me j others count spun)) rfl rfl (fun q hq => ?_)
        (fun g hg' => ?_) (fun q hq => ?_) (fun g hg' => ?_) (hbacked _) ?_
      · simpa using hq
      · rcases Pool.mem_eraseIdx_or hg hg' with hg' | rfl
        · exact .inl (List.mem_append_left _ hg')
        · exact .inr rfl
      · exact .inl (by simpa using hq)
      · rcases List.mem_append.mp hg' with hg' | hg'
        · exact .inl (List.mem_of_mem_eraseIdx hg')
        · obtain rfl := List.mem_singleton.mp hg'
          exact .inr ⟨hhost, hknown, hothers, fun hj => absurd hj hother⟩
      · intro x y _ _ hl
        exact absurd (hlost x y hl).2.1 hother
    · simp only [hpeer]
      have hdest : net.listens e.2.lip e.2.lport = e.1 := hothers e (List.mem_of_getElem? he)
      refine hs.ofSend (p := none) (h := some (.joining me j others count spun)) rfl rfl (fun q hq => ?_)
        (fun g hg' => ?_) (fun q hq => ?_) (fun g hg' => ?_) (hbacked _) ?_
      · exact .inl (List.mem_append_left _ hq)
      · rcases Pool.mem_eraseIdx_or hg hg' with hg' | rfl
        · exact .inl (List.mem_append_left _ hg')
        · exact .inr rfl
      · refine (List.mem_append.mp hq).imp id fun hq => ?_
        obtain rfl := List.mem_singleton.mp hq
        exact ⟨listens_self hs me, hhost, .inr hknown⟩
      · rcases List.mem_append.mp hg' with hg' | hg'
        · exact .inl (List.mem_of_mem_eraseIdx hg')
        · obtain rfl := List.mem_singleton.mp hg'
          exact .inr ⟨hhost, hknown, hothers, fun _ => rfl⟩
      · intro x y _ _ hl
        obtain ⟨rfl, rfl, hy⟩ := hlost x y hl
        obtain ⟨hlt, hget⟩ := List.getElem?_eq_some_iff.mp he
        rw [List.drop_eq_getElem_cons hlt, hget, List.map_cons, List.mem_cons] at hy
        rcases hy with rfl | hy
        · exact .inl (.inr (.inl ⟨_, List.mem_append_right _ (List.mem_singleton_self _), hdest, rfl, _, _, rfl⟩))
        · exact .inl (.inr (.inr (.inr (.inr ⟨others, count + 1, false, by simp, hy⟩))))

theorem step_inv (hs : Inv net s) {a : Label} (hok : Uncrossed net s a) (hstep : step net s a = some s') :
    Inv net s' := by
  cases a with
  | start i => exact start_inv hs hstep
  | deliver k => exact deliver_inv hs hok hstep
  | goOn k =>
    simp only [step] at hstep
    obtain ⟨g, hg, hrest⟩ := Option.bind_eq_some_iff.mp hstep
    have huncrossed := hok g hg
    cases g with
    | replying me j => exact sendReply_inv hs hg hrest
    | joining me j others count spun =>
      obtain rfl := Option.some.inj hrest
      exact joinRound_inv hs hg huncrossed

theorem init_inv (net : Net) : Inv net (init net) where
  static _ := rfl
  infos _ _ _ h := by cases h
  packets := by rintro _ ⟨⟩
  handlers := by rintro _ ⟨⟩
  backed _ _ h := by cases h
  joined i h := .inl (of_decide_eq_true h)
  pairs _ _ _ h := by cases h

/-! ## Agreement -/

theorem agree_of_quiet (hs : Inv net s) (hquiet : Quiet s) : Agree s := by
  obtain ⟨hpackets, hhandlers⟩ := hquiet
  have hpacket : ∀ q, q ∉ s.packets := by simp [hpackets]
  have hreplying : ∀ me j, .replying me j ∉ s.handlers := fun me j hg => by cases hhandlers _ hg
  have hsymm : ∀ i j, IsPeer s i j → IsPeer s j i := by
    intro i j hij
    rcases hs.backed i j hij with hji | ⟨q, hq, -⟩ | hg
    · exact hji
    · exact absurd hq (hpacket q)
    · exact absurd hg (hreplying i j)
  have hmet : ∀ x y, Meets net s x y → IsPeer s x y := by
    rintro x y (hxy | ⟨q, hq, -⟩ | hg | ⟨q, hq, -⟩ | ⟨others, count, spun, hg, -⟩)
    · exact hxy
    · exact absurd hq (hpacket q)
    · exact absurd hg (hreplying _ x)
    · exact absurd hq (hpacket q)
    · -- a thread over the reply of the host does not go round in place
      have hspinning : spun = true := hhandlers _ hg
      have hspun : net.host = net.host → spun = false := (hs.handlers _ hg).2.2.2
      rw [hspun rfl] at hspinning
      cases hspinning
  refine ⟨hsymm, fun i j hi hj hij => ?_⟩
  rcases hs.joined i hi with rfl | hi
  · rcases hs.joined j hj with rfl | hj
    · exact absurd rfl hij
    · exact hsymm _ _ hj
  · rcases hs.joined j hj with rfl | hj
    · exact hi
    · exact (hs.pairs i j hij (hsymm _ _ hi) (hsymm _ _ hj)).elim (hmet i j) fun hm => hsymm _ _ (hmet j i hm)

/-- Where no join crosses another, the members agree once the joining has come to rest. -/
theorem uncrossed_agree (hr : Transition.Reaches (step net) (Uncrossed net) (init net) s) (hquiet : Quiet s) :
    Agree s := by
  have hs : Inv net s :=
    hr.invariant (Inv net) (init_inv net) fun _ _ _ hu hok hstep => step_inv hu hok hstep
  exact agree_of_quiet hs hquiet

end Step

end Mesh
