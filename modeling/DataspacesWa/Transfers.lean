import DataspacesWa.TcpStream

/-!
# Transfers to one DS

Any number of transfers come to a DS at the same time. They share the two maps
of `RFPManager` and the syncer of `TCPServer`, and only the data id keeps them
apart: the thread of a connection reads it from the stream, and its handlers
find the count and the buffer by it. As long as no two transfers under one id
overlap, each of them is a transfer on its own.
-/
namespace Transfers

open Field (upTo toChars printed)
open Function (update update_self update_of_ne)
open Reassembly (Block HandlerPc Receiver Transfer tcpMaxDataIdLength toRecvSize)
open Segments (offset writeAt)
open TcpStream (Payload Socket)
open Transition (Reaches)

/-! ## Bytes -/

/-- The bytes of a `std::string`. -/
def bytesOf (str : String) : List UInt8 := str.toUTF8.data.toList

/-- `hash_str` on the bytes. -/
def hashBytes (bytes : List UInt8) : UInt32 :=
  (bytes.takeWhile (· ≠ 0)).foldl (fun h c => (h * 54059) ^^^ (c.toInt8.toInt32.toUInt32 * 76963)) 31

example (str : String) : hashBytes (bytesOf str) = Patch.hashStr str := rfl

theorem length_bytesOf (str : String) : (bytesOf str).length = str.utf8ByteSize := rfl

/-- What the client of a transfer calls `TCPClient::send` with. -/
def payloadOf (t : Transfer) : Payload where
  bytes := t.payload
  fits := by
    have hlt := (Reassembly.dataSize t.dataType t.dataLength).toInt_lt
    rw [t.sent]
    omega

/-! ## The node -/

/-- `TCPServer::init_recv`, from the header on with what it has read there. -/
inductive Server where
  | header
  | reading (dataId : List UInt8) (total : Int)
  | notify (dataId : List UInt8)
  | done
  deriving DecidableEq

/-- `RFPManager::handle_recv` -/
structure Handler where
  dataId : List UInt8
  chunk : List UInt8
  pc : HandlerPc
  deriving DecidableEq

/-- A call of `wa_get`, the connection on which its data is sent, and the handlers of the connection. -/
structure Arrival where
  transfer : Transfer
  receiver : Receiver
  server : Server
  stream : List UInt8
  handlers : List Handler
  handed : Option Block

def Arrival.dataId (x : Arrival) : List UInt8 := bytesOf x.transfer.dataId

structure State where
  syncer : Syncer.State UInt32
  recvedSize : List UInt8 → Option Nat
  data : List UInt8 → Option Block
  arrivals : List Arrival

def init : State := ⟨Syncer.empty, fun _ => none, fun _ => none, []⟩

def State.goOn (s : State) (i : Nat) (x : Arrival) : State := { s with arrivals := Pool.commit s.arrivals i x [] }

inductive Action where
  | start (t : Transfer) (socket : Socket) (fresh : Nat → Nat → UInt8)
  | receiver (i : Nat)
  | server (i : Nat) (after : Nat → List UInt8) (woken : Option Nat)
  | handler (i k : Nat)
  | spurious (i : Nat)

/-- `RFPManager::wa_get` -/
def stepReceiver (s : State) (i : Nat) (x : Arrival) : Option State :=
  match x.receiver with
  | .zero => some { s.goOn i { x with receiver := .alloc } with recvedSize := update s.recvedSize x.dataId (some 0) }
  | .alloc => some { s.goOn i { x with receiver := .add } with
      data := update s.data x.dataId (some (List.replicate x.transfer.capacity none)) }
  | .add => some { s.goOn i { x with receiver := .wait } with
      syncer := Syncer.addSyncPoint s.syncer (hashBytes x.dataId) 1 }
  | .wait => (Syncer.wait s.syncer (hashBytes x.dataId) i).map fun (cv, syncer) =>
      { s.goOn i { x with receiver := .blocked cv } with syncer := syncer }
  | .blocked cv => if i ∈ s.syncer.waiters cv then none else some (s.goOn i { x with receiver := .del })
  | .del => some { s.goOn i { x with receiver := .put } with
      syncer := Syncer.delSyncPoint s.syncer (hashBytes x.dataId) }
  | .put => some (s.goOn i { x with receiver := .free, handed := s.data x.dataId })
  | .free => some { s.goOn i { x with receiver := .drop } with data := update s.data x.dataId none }
  | .drop => some { s.goOn i { x with receiver := .done } with recvedSize := update s.recvedSize x.dataId none }
  | .done => none

/-- `TCPServer::init_recv`; `after` is what lies after the two blocks of the header in memory. -/
def stepServer (s : State) (i : Nat) (x : Arrival) (after : Nat → List UInt8) (woken : Option Nat) : Option State :=
  match x.server with
  | .header =>
    if x.stream.length < tcpMaxDataIdLength + tcpMaxDataIdLength then none
    else
      let dataId := upTo 0 (x.stream.take tcpMaxDataIdLength ++ after 0)
      let sizeField := (x.stream.drop tcpMaxDataIdLength).take tcpMaxDataIdLength
      (LexicalCast.ofChars? (toChars (upTo 0 (sizeField ++ after 1)))).map fun dataSize : Int32 =>
        s.goOn i { x with
          server := .reading dataId dataSize.toInt
          stream := x.stream.drop (tcpMaxDataIdLength + tcpMaxDataIdLength) }
  | .reading dataId total =>
    let n := toRecvSize total
    if n ≤ x.stream.length then
      some (s.goOn i { x with
        stream := x.stream.drop n
        handlers := x.handlers ++ [⟨dataId, x.stream.take n, .test⟩]
        server := if total - n = 0 then .notify dataId else .reading dataId (total - n) })
    else none
  | .notify dataId => (Syncer.notify s.syncer (hashBytes dataId) woken).map fun syncer =>
      { s.goOn i { x with server := .done } with syncer := syncer }
  | .done => none

/-- `RFPManager::handle_recv` -/
def stepHandler (s : State) (i : Nat) (x : Arrival) (k : Nat) : Option State :=
  x.handlers[k]?.bind fun h =>
    let moveTo (pc : HandlerPc) := s.goOn i { x with handlers := Pool.commit x.handlers k { h with pc := pc } [] }
    match h.pc with
    | .test => some (moveTo (if (s.recvedSize h.dataId).isSome then .read else .dropped))
    | .read =>
      some { moveTo (.copy ((s.recvedSize h.dataId).getD 0)) with
        recvedSize := update s.recvedSize h.dataId (some ((s.recvedSize h.dataId).getD 0)) }
    | .copy recved =>
      match s.data h.dataId with
      | some block =>
        -- past the end of the buffer `memcpy` is undefined
        if recved + h.chunk.length ≤ block.length then
          some { moveTo .readAdd with data := update s.data h.dataId (some (writeAt block recved h.chunk)) }
        else none
      | none => if h.chunk = [] then some (moveTo .readAdd) else none
    | .readAdd => some (moveTo (.writeAdd ((s.recvedSize h.dataId).getD 0 + h.chunk.length)))
    | .writeAdd n => some { moveTo .done with recvedSize := update s.recvedSize h.dataId (some n) }
    | .done => none
    | .dropped => none

def step (s : State) : Action → Option State
  | .start t socket fresh =>
    (TcpStream.send socket fresh (bytesOf t.dataId) (payloadOf t)).map fun stream =>
      { s with arrivals := s.arrivals ++ [⟨t, .zero, .header, stream, [], none⟩] }
  | .receiver i => s.arrivals[i]?.bind (stepReceiver s i)
  | .server i after woken => s.arrivals[i]?.bind fun x => stepServer s i x after woken
  | .handler i k => s.arrivals[i]?.bind fun x => stepHandler s i x k
  | .spurious i => s.arrivals[i]?.bind fun x =>
    match x.receiver with
    | .blocked cv => (Syncer.spurious s.syncer cv i).map fun syncer => { s with syncer := syncer }
    | _ => none

/-! ## One transfer of many -/

def Server.plain : Server → Reassembly.Server
  | .header => .header
  | .reading _ total => .reading total
  | .notify _ => .notify
  | .done => .done

def Handler.plain (h : Handler) : Reassembly.Handler := ⟨h.chunk, h.pc⟩

/-- What the transfer would be alone. -/
def view (s : State) (x : Arrival) : Reassembly.State where
  syncer := s.syncer
  receiver := x.receiver
  server := x.server.plain
  stream := if x.server = .header then x.transfer.payload else x.stream
  handlers := x.handlers.map Handler.plain
  recvedSize := s.recvedSize x.dataId
  data := s.data x.dataId
  handed := x.handed

def Arrival.finished (x : Arrival) : Bool :=
  x.receiver = .done && x.server = .done && x.handlers.all fun h => h.pc = .done || h.pc = .dropped

/-- The id can be read back, and nobody uses it. -/
def Admissible (s : State) (t : Transfer) : Prop :=
  (bytesOf t.dataId).length < tcpMaxDataIdLength ∧ 0 ∉ bytesOf t.dataId ∧ s.recvedSize (bytesOf t.dataId) = none ∧
    s.data (bytesOf t.dataId) = none ∧ ∀ x ∈ s.arrivals, x.dataId = bytesOf t.dataId → x.finished

/-- A transfer starts with a buffer of the size that is announced when no other under its id is under way, and the
threads of each keep to the order of its chunks. -/
def Orderly (s : State) : Action → Prop
  | .start t _ _ => (t.capacity : Int) = t.announced ∧ Admissible s t
  | .receiver i => ∀ x ∈ s.arrivals[i]?, Reassembly.InOrder (view s x) .receiver
  | .server .. => True
  | .handler i k => ∀ x ∈ s.arrivals[i]?, Reassembly.InOrder (view s x) (.handler k)
  | .spurious _ => True

instance (s : State) (a : Action) : Decidable (Orderly s a) := by
  unfold Orderly Admissible
  cases a <;> infer_instance

/-- The buffer of the local put is the payload, and no copy goes past the end of its buffer. -/
structure Delivered (s : State) (x : Arrival) : Prop where
  handed : ∀ block, x.handed = some block →
    block = x.transfer.payload.map some ∧ (block.length : Int) = x.transfer.announced
  inside : ∀ h ∈ x.handlers, ∀ recved block, h.pc = .copy recved → s.data h.dataId = some block →
    recved + h.chunk.length ≤ block.length

/-! ## What is read from the stream -/

/-- The header of what was sent, and the payload after it. -/
structure Reads (t : Transfer) (stream : List UInt8) : Prop where
  long : ¬stream.length < tcpMaxDataIdLength + tcpMaxDataIdLength
  dataId : ∀ after, upTo 0 (stream.take tcpMaxDataIdLength ++ after) = bytesOf t.dataId
  dataSize : ∀ after, (LexicalCast.ofChars? (toChars
    (upTo 0 ((stream.drop tcpMaxDataIdLength).take tcpMaxDataIdLength ++ after)))) = some (payloadOf t).dataSize
  payload : stream.drop (tcpMaxDataIdLength + tcpMaxDataIdLength) = t.payload

theorem reads_of_send {t : Transfer} {socket : Socket} {fresh : Nat → Nat → UInt8} {stream : List UInt8}
    (hlen : (bytesOf t.dataId).length < tcpMaxDataIdLength) (hnul : 0 ∉ bytesOf t.dataId)
    (hsend : TcpStream.send socket fresh (bytesOf t.dataId) (payloadOf t) = some stream) : Reads t stream := by
  rw [TcpStream.send] at hsend
  split at hsend
  next =>
    obtain ⟨data, hdata, rfl⟩ := Option.map_eq_some_iff.mp hsend
    obtain rfl := TcpStream.sendChunks_eq hdata
    have hshort : (printed (payloadOf t).dataSize).length < TcpStream.tcpMaxDataSizeLength :=
      Nat.lt_of_le_of_lt (Field.length_printed _).2 (by decide)
    obtain ⟨idField, hid, hidLen, hidRead⟩ := TcpStream.sendControlData_read (fresh 0) hlen hnul
    obtain ⟨sizeField, hsize, hsizeLen, hsizeRead⟩ :=
      TcpStream.sendControlData_read (fresh 1) hshort (Field.notMem_printed _ (by decide))
    have hsizeLen : sizeField.length = tcpMaxDataIdLength := hsizeLen
    have hboth : (idField ++ sizeField).length = tcpMaxDataIdLength + tcpMaxDataIdLength := by
      rw [List.length_append, hidLen, hsizeLen]
    rw [hid, hsize, Option.getD_some, Option.getD_some]
    refine ⟨?_, fun after => ?_, fun after => ?_, ?_⟩
    · rw [List.length_append, hboth]
      omega
    · rw [List.append_assoc, List.take_left' hidLen, hidRead]
    · rw [List.append_assoc, List.drop_left' hidLen, List.take_left' hsizeLen, hsizeRead, TcpStream.printed_read]
    · rw [List.drop_left' hboth]
      rfl
  next => cases hsend

/-- The size that is read is the one that the receiver has made room for. -/
theorem dataSize_announced {t : Transfer} (hcap : (t.capacity : Int) = t.announced) :
    (payloadOf t).dataSize.toInt = t.announced := by
  have hsent := t.sent
  have hbytes : (payloadOf t).bytes = t.payload := rfl
  rw [Transfer.announced] at hcap ⊢
  rw [Payload.toInt_dataSize, hbytes]
  omega

/-! ## The invariant -/

/-- Whatever was read from the stream of a transfer bears its id. -/
structure Named (x : Arrival) : Prop where
  capacity : (x.transfer.capacity : Int) = x.transfer.announced
  short : x.dataId.length < tcpMaxDataIdLength
  clean : 0 ∉ x.dataId
  unread : x.server = .header → Reads x.transfer x.stream
  reading : ∀ id total, x.server = .reading id total → id = x.dataId
  notify : ∀ id, x.server = .notify id → id = x.dataId
  handlers : ∀ h ∈ x.handlers, h.dataId = x.dataId

structure Inv (s : State) : Prop where
  named : ∀ x ∈ s.arrivals, Named x
  alone : ∀ x ∈ s.arrivals, x.finished = false → Reassembly.Inv x.transfer (view s x)
  given : ∀ x ∈ s.arrivals, ∀ block, x.handed = some block → block = x.transfer.payload.map some
  apart : ∀ (i j : Nat) (x y : Arrival), s.arrivals[i]? = some x → s.arrivals[j]? = some y → x.finished = false →
    y.finished = false → x.dataId = y.dataId → i = j

theorem inv_init : Inv init := by constructor <;> simp [init]

/-- What happens to a transfer alone does not depend on the syncer. -/
theorem alone_syncer {t : Transfer} {v : Reassembly.State} (hi : Reassembly.Inv t v) (syncer : Syncer.State UInt32) :
    Reassembly.Inv t { v with syncer := syncer } := { hi with }

/-- A step of one transfer, which is one of it alone. -/
structure Moves (s : State) (i : Nat) (x : Arrival) (s' : State) (x' : Arrival) : Prop where
  arrivals : s'.arrivals = Pool.commit s.arrivals i x' []
  transfer : x'.transfer = x.transfer
  elsewhere : ∀ id, id ≠ x.dataId → s'.recvedSize id = s.recvedSize id ∧ s'.data id = s.data id
  unfinished : x.finished = false
  named : Named x'
  alone : Reassembly.Inv x.transfer (view s' x')

section Moves
variable {s s' : State} {i : Nat} {x x' : Arrival}

theorem Moves.dataId (h : Moves s i x s' x') : x'.dataId = x.dataId := by
  rw [Arrival.dataId, h.transfer, Arrival.dataId]

/-- A transfer that does not step sees another syncer at most. -/
theorem Moves.view_other (h : Moves s i x s' x') {y : Arrival} (hy : y.dataId ≠ x.dataId) :
    view s' y = { view s y with syncer := s'.syncer } := by
  obtain ⟨hrecved, hdata⟩ := h.elsewhere y.dataId hy
  rw [view, view, hrecved, hdata]

theorem Inv.moves (hi : Inv s) (hx : s.arrivals[i]? = some x) (h : Moves s i x s' x') : Inv s' := by
  have hcases : ∀ (j : Nat) (y : Arrival), s'.arrivals[j]? = some y → j = i ∧ y = x' ∨ j ≠ i ∧ s.arrivals[j]? = some y := by
    intro j y hy
    rw [h.arrivals] at hy
    exact Pool.commit_nil_cases hy
  have hother : ∀ (j : Nat) (y : Arrival), j ≠ i → s.arrivals[j]? = some y → y.finished = false → y.dataId ≠ x.dataId :=
    fun j y hj hy hfin hid => hj (hi.apart j i y x hy hx hfin h.unfinished hid)
  constructor
  · intro y hy
    obtain ⟨j, hj⟩ := List.getElem?_of_mem hy
    rcases hcases j y hj with ⟨-, rfl⟩ | ⟨-, hj⟩
    · exact h.named
    · exact hi.named y (List.mem_of_getElem? hj)
  · intro y hy hfin
    obtain ⟨j, hj⟩ := List.getElem?_of_mem hy
    rcases hcases j y hj with ⟨-, rfl⟩ | ⟨hne, hj⟩
    · rw [h.transfer]
      exact h.alone
    · rw [h.view_other (hother j y hne hj hfin)]
      exact alone_syncer (hi.alone y (List.mem_of_getElem? hj) hfin) _
  · intro y hy block hblock
    obtain ⟨j, hj⟩ := List.getElem?_of_mem hy
    rcases hcases j y hj with ⟨-, rfl⟩ | ⟨-, hj⟩
    · rw [h.transfer]
      exact h.alone.given block hblock
    · exact hi.given y (List.mem_of_getElem? hj) block hblock
  · intro j k y z hy hz hyfin hzfin hid
    rcases hcases j y hy with ⟨rfl, rfl⟩ | ⟨hj, hy⟩
    · rcases hcases k z hz with ⟨rfl, -⟩ | ⟨hk, hz⟩
      · rfl
      · exact absurd (hid.symm.trans h.dataId) (hother k z hk hz hzfin)
    · rcases hcases k z hz with ⟨rfl, rfl⟩ | ⟨-, hz⟩
      · exact absurd (hid.trans h.dataId) (hother j y hj hy hyfin)
      · exact hi.apart j k y z hy hz hyfin hzfin hid

/-! ## The steps -/

theorem unfinished_of_receiver (h : x.receiver ≠ .done) : x.finished = false := by simp [Arrival.finished, h]

theorem unfinished_of_server (h : x.server ≠ .done) : x.finished = false := by simp [Arrival.finished, h]

theorem unfinished_of_handler {h : Handler} (hmem : h ∈ x.handlers) (hdone : h.pc ≠ .done) (hdropped : h.pc ≠ .dropped) :
    x.finished = false := by
  simp only [Arrival.finished, Bool.and_eq_false_iff, List.all_eq_false]
  exact .inr ⟨h, hmem, by simp [hdone, hdropped]⟩

/-- Handlers and server are where they were. -/
theorem Named.receiver (h : Named x) (r : Receiver) (handed : Option Block) :
    Named { x with receiver := r, handed := handed } := { h with }

theorem moves_receiver (hi : Inv s) (hx : s.arrivals[i]? = some x) (hok : Reassembly.InOrder (view s x) .receiver)
    (hs : stepReceiver s i x = some s') : ∃ x', Moves s i x s' x' := by
  have hmem : x ∈ s.arrivals := List.mem_of_getElem? hx
  have hnamed := hi.named x hmem
  have hunfinished : x.finished = false := by
    refine unfinished_of_receiver fun hdone => ?_
    simp [stepReceiver, hdone] at hs
  have halone := hi.alone x hmem hunfinished
  have hstep : ∀ v, Reassembly.stepReceiver x.transfer (view s x) = some v → Reassembly.Inv x.transfer v :=
    fun v hv => Reassembly.inv_receiver hnamed.capacity halone hok hv
  cases hpc : x.receiver with
  | zero =>
    simp only [stepReceiver, hpc, Option.some.injEq] at hs
    subst hs
    refine ⟨{ x with receiver := .alloc }, rfl, rfl, fun id hid => ⟨update_of_ne hid .., rfl⟩, hunfinished,
      hnamed.receiver .., hstep _ ?_⟩
    simp [Reassembly.stepReceiver, view, hpc, State.goOn, Arrival.dataId]
  | alloc =>
    simp only [stepReceiver, hpc, Option.some.injEq] at hs
    subst hs
    refine ⟨{ x with receiver := .add }, rfl, rfl, fun id hid => ⟨rfl, update_of_ne hid ..⟩, hunfinished,
      hnamed.receiver .., hstep _ ?_⟩
    simp [Reassembly.stepReceiver, view, hpc, State.goOn, Arrival.dataId]
  | add =>
    simp only [stepReceiver, hpc, Option.some.injEq] at hs
    subst hs
    exact ⟨{ x with receiver := .wait }, rfl, rfl, fun _ _ => ⟨rfl, rfl⟩, hunfinished, hnamed.receiver ..,
      halone.same _ (by simp [view, hpc]; rfl) (by simp [view, hpc]) (by simp [view, hpc]; rfl) (by simp [view, hpc]; rfl)⟩
  | wait =>
    simp only [stepReceiver, hpc, Option.map_eq_some_iff] at hs
    obtain ⟨⟨cv, syncer⟩, -, rfl⟩ := hs
    exact ⟨{ x with receiver := .blocked cv }, rfl, rfl, fun _ _ => ⟨rfl, rfl⟩, hunfinished, hnamed.receiver ..,
      halone.same _ (by simp [view, hpc]; rfl) (by simp [view, hpc]) (by simp [view, hpc]; rfl) (by simp [view, hpc]; rfl)⟩
  | blocked cv =>
    simp only [stepReceiver, hpc, Option.ite_none_left_eq_some, Option.some.injEq] at hs
    obtain ⟨-, rfl⟩ := hs
    exact ⟨{ x with receiver := .del }, rfl, rfl, fun _ _ => ⟨rfl, rfl⟩, hunfinished, hnamed.receiver ..,
      halone.same _ (by simp [view, hpc]; rfl) (by simp [view, hpc]) (by simp [view, hpc]; rfl) (by simp [view, hpc]; rfl)⟩
  | del =>
    simp only [stepReceiver, hpc, Option.some.injEq] at hs
    subst hs
    exact ⟨{ x with receiver := .put }, rfl, rfl, fun _ _ => ⟨rfl, rfl⟩, hunfinished, hnamed.receiver ..,
      halone.same _ (by simp [view, hpc]; rfl) (by simp [view, hpc]) (by simp [view, hpc]; rfl) (by simp [view, hpc]; rfl)⟩
  | put =>
    simp only [stepReceiver, hpc, Option.some.injEq] at hs
    subst hs
    refine ⟨{ x with receiver := .free, handed := s.data x.dataId }, rfl, rfl, fun _ _ => ⟨rfl, rfl⟩, hunfinished,
      hnamed.receiver .., hstep _ ?_⟩
    simp [Reassembly.stepReceiver, view, hpc, State.goOn, Arrival.dataId]
  | free =>
    simp only [stepReceiver, hpc, Option.some.injEq] at hs
    subst hs
    refine ⟨{ x with receiver := .drop }, rfl, rfl, fun id hid => ⟨rfl, update_of_ne hid ..⟩, hunfinished,
      hnamed.receiver .., hstep _ ?_⟩
    simp [Reassembly.stepReceiver, view, hpc, State.goOn, Arrival.dataId]
  | drop =>
    simp only [stepReceiver, hpc, Option.some.injEq] at hs
    subst hs
    refine ⟨{ x with receiver := .done }, rfl, rfl, fun id hid => ⟨update_of_ne hid .., rfl⟩, hunfinished,
      hnamed.receiver .., hstep _ ?_⟩
    simp [Reassembly.stepReceiver, view, hpc, State.goOn, Arrival.dataId]
  | done => simp [stepReceiver, hpc] at hs

theorem moves_server {after : Nat → List UInt8} {woken : Option Nat} (hi : Inv s) (hx : s.arrivals[i]? = some x)
    (hs : stepServer s i x after woken = some s') : ∃ x', Moves s i x s' x' := by
  have hmem : x ∈ s.arrivals := List.mem_of_getElem? hx
  have hnamed := hi.named x hmem
  have hunfinished : x.finished = false := by
    refine unfinished_of_server fun hdone => ?_
    simp [stepServer, hdone] at hs
  have halone := hi.alone x hmem hunfinished
  have hstep : ∀ v, Reassembly.stepServer x.transfer (view s x) woken = some v → Reassembly.Inv x.transfer v :=
    fun v hv => Reassembly.inv_server halone hv
  cases hpc : x.server with
  | header =>
    have hreads := hnamed.unread hpc
    simp only [stepServer, hpc, if_neg hreads.long, hreads.dataSize, Option.map_some, Option.some.injEq] at hs
    subst hs
    refine ⟨_, rfl, rfl, fun _ _ => ⟨rfl, rfl⟩, hunfinished,
      { hnamed with unread := by rintro ⟨⟩, reading := ?_, notify := by rintro _ ⟨⟩ }, hstep _ ?_⟩
    · rintro id total ⟨⟩
      exact hreads.dataId (after 0)
    · have hshort : x.transfer.dataId.utf8ByteSize < tcpMaxDataIdLength := by
        rw [← length_bytesOf]
        exact hnamed.short
      simp [Reassembly.stepServer, view, hpc, Server.plain, hshort, State.goOn, Arrival.dataId,
        dataSize_announced hnamed.capacity, hreads.payload]
  | reading dataId total =>
    simp only [stepServer, hpc, Option.ite_none_right_eq_some, Option.some.injEq] at hs
    obtain ⟨hroom, rfl⟩ := hs
    obtain rfl := hnamed.reading dataId total hpc
    refine ⟨_, rfl, rfl, fun _ _ => ⟨rfl, rfl⟩, hunfinished,
      { hnamed with unread := ?_, reading := ?_, notify := ?_, handlers := ?_ }, hstep _ ?_⟩
    · dsimp only
      split <;> rintro ⟨⟩
    · intro id left hleft
      dsimp only at hleft
      split at hleft
      next => cases hleft
      next =>
        cases hleft
        rfl
    · intro id hnotify
      dsimp only at hnotify
      split at hnotify
      next =>
        cases hnotify
        rfl
      next => cases hnotify
    · intro h hh
      rcases List.mem_append.mp hh with hh | hh
      · exact hnamed.handlers h hh
      · rw [List.mem_singleton.mp hh]
        rfl
    · by_cases hlast : total - toRecvSize total = 0 <;>
        simp [Reassembly.stepServer, view, hpc, Server.plain, hroom, hlast, State.goOn, Arrival.dataId, Handler.plain]
  | notify dataId =>
    simp only [stepServer, hpc, Option.map_eq_some_iff] at hs
    obtain ⟨syncer, hnotify, rfl⟩ := hs
    obtain rfl := hnamed.notify dataId hpc
    refine ⟨_, rfl, rfl, fun _ _ => ⟨rfl, rfl⟩, hunfinished,
      { hnamed with unread := by rintro ⟨⟩, reading := by rintro _ _ ⟨⟩, notify := by rintro _ ⟨⟩ }, hstep _ ?_⟩
    have hpoint : Syncer.notify s.syncer x.transfer.point woken = some syncer := hnotify
    simp [Reassembly.stepServer, view, hpc, Server.plain, hpoint, State.goOn, Arrival.dataId]
  | done => simp [stepServer, hpc] at hs

theorem map_commit (handlers : List Handler) (k : Nat) (h : Handler) :
    (Pool.commit handlers k h []).map Handler.plain = Pool.commit (handlers.map Handler.plain) k h.plain [] := by
  rw [Pool.commit, Pool.commit, List.append_nil, List.append_nil, List.map_set]

theorem Named.moveTo (h : Named x) {k : Nat} (chunk : List UInt8) (pc : HandlerPc) :
    Named { x with handlers := Pool.commit x.handlers k ⟨x.dataId, chunk, pc⟩ [] } where
  capacity := h.capacity
  short := h.short
  clean := h.clean
  unread := h.unread
  reading := h.reading
  notify := h.notify
  handlers := by
    intro y hy
    obtain ⟨j, hj⟩ := List.getElem?_of_mem hy
    rcases Pool.commit_nil_cases hj with ⟨-, rfl⟩ | ⟨-, hj⟩
    · rfl
    · exact h.handlers y (List.mem_of_getElem? hj)

theorem moves_handler {k : Nat} (hi : Inv s) (hx : s.arrivals[i]? = some x)
    (hok : Reassembly.InOrder (view s x) (.handler k)) (hs : stepHandler s i x k = some s') :
    ∃ x', Moves s i x s' x' := by
  obtain ⟨h, hk, hs⟩ := Option.bind_eq_some_iff.mp hs
  have hmem : x ∈ s.arrivals := List.mem_of_getElem? hx
  have hnamed := hi.named x hmem
  have hid : h.dataId = x.dataId := hnamed.handlers h (List.mem_of_getElem? hk)
  have hunfinished : x.finished = false := by
    refine unfinished_of_handler (List.mem_of_getElem? hk) ?_ ?_ <;>
      (intro hpc; simp [hpc] at hs)
  have halone := hi.alone x hmem hunfinished
  have hstep : ∀ v, Reassembly.stepHandler (view s x) k = some v → Reassembly.Inv x.transfer v :=
    fun v hv => Reassembly.inv_handler halone hok hv
  obtain ⟨dataId, chunk, pc⟩ := h
  obtain rfl : dataId = x.dataId := hid
  have hplain : (x.handlers.map Handler.plain)[k]? = some ⟨chunk, pc⟩ := by
    rw [List.getElem?_map, hk]
    rfl
  cases pc with
  | test =>
    simp only [Option.some.injEq] at hs
    subst hs
    refine ⟨_, rfl, rfl, fun _ _ => ⟨rfl, rfl⟩, hunfinished, hnamed.moveTo _ _, hstep _ ?_⟩
    rw [Reassembly.stepHandler, view, hplain, view, map_commit]
    rfl
  | read =>
    simp only [Option.some.injEq] at hs
    subst hs
    refine ⟨_, rfl, rfl, fun id hne => ⟨update_of_ne hne .., rfl⟩, hunfinished, hnamed.moveTo _ _, hstep _ ?_⟩
    rw [Reassembly.stepHandler, view, hplain, view, map_commit]
    simp [Reassembly.State.moveTo, Handler.plain, Arrival.dataId, State.goOn]
  | copy recved =>
    cases hdata : s.data x.dataId with
    | some block =>
      simp only [hdata, Option.ite_none_right_eq_some, Option.some.injEq] at hs
      obtain ⟨hroom, rfl⟩ := hs
      refine ⟨_, rfl, rfl, fun id hne => ⟨rfl, update_of_ne hne ..⟩, hunfinished, hnamed.moveTo _ _, hstep _ ?_⟩
      rw [Reassembly.stepHandler, view, hplain, view, map_commit]
      rw [Arrival.dataId] at hdata
      simp [Reassembly.State.moveTo, Handler.plain, Arrival.dataId, State.goOn, hdata, hroom]
    | none =>
      simp only [hdata, Option.ite_none_right_eq_some, Option.some.injEq] at hs
      obtain ⟨hempty, rfl⟩ := hs
      refine ⟨_, rfl, rfl, fun _ _ => ⟨rfl, rfl⟩, hunfinished, hnamed.moveTo _ _, hstep _ ?_⟩
      rw [Reassembly.stepHandler, view, hplain, view, map_commit]
      rw [Arrival.dataId] at hdata
      simp [Reassembly.State.moveTo, Handler.plain, Arrival.dataId, State.goOn, hdata, hempty]
  | readAdd =>
    simp only [Option.some.injEq] at hs
    subst hs
    refine ⟨_, rfl, rfl, fun _ _ => ⟨rfl, rfl⟩, hunfinished, hnamed.moveTo _ _, hstep _ ?_⟩
    rw [Reassembly.stepHandler, view, hplain, view, map_commit]
    rfl
  | writeAdd n =>
    simp only [Option.some.injEq] at hs
    subst hs
    refine ⟨_, rfl, rfl, fun id hne => ⟨update_of_ne hne .., rfl⟩, hunfinished, hnamed.moveTo _ _, hstep _ ?_⟩
    rw [Reassembly.stepHandler, view, hplain, view, map_commit]
    simp [Reassembly.State.moveTo, Handler.plain, Arrival.dataId, State.goOn]
  | done => cases hs
  | dropped => cases hs

end Moves

section Runs
variable {s s' : State}

theorem inv_start {t : Transfer} {stream : List UInt8} (hi : Inv s) (hcap : (t.capacity : Int) = t.announced)
    (hok : Admissible s t) (hreads : Reads t stream) :
    Inv { s with arrivals := s.arrivals ++ [⟨t, .zero, .header, stream, [], none⟩] } := by
  obtain ⟨hshort, hclean, hrecved, hdata, hapart⟩ := hok
  have hview : view s ⟨t, .zero, .header, stream, [], none⟩ = { Reassembly.init t with syncer := s.syncer } := by
    rw [view, Arrival.dataId, hrecved, hdata]
    rfl
  have hnew : ∀ y ∈ s.arrivals, y.finished = false → y.dataId ≠ bytesOf t.dataId := by
    intro y hy hfin hid
    rw [hapart y hy hid] at hfin
    cases hfin
  constructor
  · intro x hx
    rcases List.mem_append.mp hx with hx | hx
    · exact hi.named x hx
    · rw [List.mem_singleton.mp hx]
      exact ⟨hcap, hshort, hclean, fun _ => hreads, by rintro _ _ ⟨⟩, by rintro _ ⟨⟩, by simp⟩
  · intro x hx hfin
    rcases List.mem_append.mp hx with hx | hx
    · exact hi.alone x hx hfin
    · rw [List.mem_singleton.mp hx]
      show Reassembly.Inv t (view s _)
      rw [hview]
      exact alone_syncer (Reassembly.inv_init t) _
  · intro x hx block hblock
    rcases List.mem_append.mp hx with hx | hx
    · exact hi.given x hx block hblock
    · rw [List.mem_singleton.mp hx] at hblock
      cases hblock
  · intro i j x y hx hy hxfin hyfin hid
    rcases Pool.append_cases hx with hx | ⟨rfl, rfl⟩
    · rcases Pool.append_cases hy with hy | ⟨rfl, rfl⟩
      · exact hi.apart i j x y hx hy hxfin hyfin hid
      · exact absurd hid (hnew x (List.mem_of_getElem? hx) hxfin)
    · rcases Pool.append_cases hy with hy | ⟨rfl, -⟩
      · exact absurd hid.symm (hnew y (List.mem_of_getElem? hy) hyfin)
      · rfl

theorem inv_step {a : Action} (hi : Inv s) (hok : Orderly s a) (hs : step s a = some s') : Inv s' := by
  cases a with
  | start t socket fresh =>
    obtain ⟨stream, hsend, rfl⟩ := Option.map_eq_some_iff.mp hs
    exact inv_start hi hok.1 hok.2 (reads_of_send hok.2.1 hok.2.2.1 hsend)
  | receiver i =>
    obtain ⟨x, hx, hs⟩ := Option.bind_eq_some_iff.mp hs
    obtain ⟨x', hmoves⟩ := moves_receiver hi hx (hok x hx) hs
    exact hi.moves hx hmoves
  | server i after woken =>
    obtain ⟨x, hx, hs⟩ := Option.bind_eq_some_iff.mp hs
    obtain ⟨x', hmoves⟩ := moves_server hi hx hs
    exact hi.moves hx hmoves
  | handler i k =>
    obtain ⟨x, hx, hs⟩ := Option.bind_eq_some_iff.mp hs
    obtain ⟨x', hmoves⟩ := moves_handler hi hx (hok x hx) hs
    exact hi.moves hx hmoves
  | spurious i =>
    obtain ⟨x, -, hs⟩ := Option.bind_eq_some_iff.mp hs
    split at hs
    next =>
      obtain ⟨syncer, -, rfl⟩ := Option.map_eq_some_iff.mp hs
      exact { hi with alone := fun y hy hfin => alone_syncer (hi.alone y hy hfin) syncer }
    next => cases hs

end Runs

/-! ## Two at a time -/

/-- One byte more, under another id. -/
def otherByte : Transfer := ⟨"d_1", 1, .char, 1, [9], by decide⟩

/-- The stream of a transfer, through a socket that takes each chunk whole. -/
def streamOf (t : Transfer) : List UInt8 :=
  (TcpStream.sendControlData (bytesOf t.dataId) tcpMaxDataIdLength (fun _ => 0)).getD [] ++
    (TcpStream.sendControlData (printed (payloadOf t).dataSize) TcpStream.tcpMaxDataSizeLength (fun _ => 0)).getD [] ++ t.payload

theorem start_whole (s : State) (t : Transfer) : step s (.start t Socket.whole fun _ _ => 0) =
    some { s with arrivals := s.arrivals ++ [⟨t, .zero, .header, streamOf t, [], none⟩] } := by
  rw [step, TcpStream.send, if_pos (show Socket.whole.write = true from rfl), TcpStream.sendChunks_whole]
  rfl

/-- Both have started, with `otherByte` behind `oneByte`. -/
def bothStarted : State := ⟨Syncer.empty, fun _ => none, fun _ => none,
  [⟨Reassembly.oneByte, .zero, .header, streamOf Reassembly.oneByte, [], none⟩,
    ⟨otherByte, .zero, .header, streamOf otherByte, [], none⟩]⟩

theorem reaches_bothStarted : Reaches step Orderly init bothStarted := by
  have hfirst : Transition.Step step Orderly init
      { init with arrivals := [⟨Reassembly.oneByte, .zero, .header, streamOf Reassembly.oneByte, [], none⟩] } :=
    ⟨.start Reassembly.oneByte Socket.whole fun _ _ => 0, by decide +kernel, start_whole init Reassembly.oneByte⟩
  exact .tail (.single hfirst) ⟨.start otherByte Socket.whole fun _ _ => 0, by decide +kernel, start_whole _ otherByte⟩

end Transfers
