import DataspacesWa.IbHeader
import DataspacesWa.Transition
import DataspacesWa.Pool

/-!
# The Infiniband transfer

One transfer from an `IBClient` to an `IBServer`. The client queues a header, the
chunks of the data and an end indicator, and a thread writes one of them into the
buffer of the server for each `MSG_READY_TO_RECV`; the first is written without
being asked for. The constructor waits for the connection, the threads wait for
the queue, and neither wait hears a notification that comes before it. What the
memory holds at first is an argument, and so is what the server's `on_completion`
returns for a send, where it has no `return`.
-/
namespace IbTransfer

open Transition (Reaches free run)
open Pool (sum_map_set sum_map_eraseIdx)
open IbHeader (RdmaDataT Carried)
open ByteCount (bufferSize)

/-! ## The parties -/

inductive Kind where
  | header | chunk | endIndicator
  deriving DecidableEq, Repr

/-- An entry of `size_data_bq`. -/
structure Item where
  kind : Kind
  bytes : List UInt8
  deriving DecidableEq, Repr

/-- `"EOF"` with its zero byte. -/
def endIndicator : List UInt8 := [69, 79, 70, 0]

/-- The chunks that `send_data` cuts. -/
def chunks (data : List UInt8) : List (List UInt8) :=
  if _h : data = [] then [] else data.take bufferSize :: chunks (data.drop bufferSize)
termination_by data.length
decreasing_by
  have := List.length_pos_of_ne_nil _h
  rw [List.length_drop, bufferSize]
  omega

/-- `message_id` -/
inductive MessageId where
  | mr | readyToRecv | done
  deriving DecidableEq, Repr

/-- The thread of one `send_next`. -/
inductive Sender where
  /-- In `pop`: at its look at the queue, before and in its wait, and where it takes. -/
  | look | wait | blocked | take
  | holding : Item → Sender
  /-- The bytes are in `buffer_`, to be written. -/
  | copied : Nat → Sender
  deriving DecidableEq, Repr

/-- The constructor of the client, and then `send_data`, up to its wait for the end. -/
inductive User where
  /-- The thread of `init` has been created; the point `WAIT_INIT` has been added. -/
  | created | added
  | waitInit | start
  | push : List Item → User
  /-- An item has been put on the queue, and `notify_one` is to follow. -/
  | signal : List Item → User
  deriving DecidableEq, Repr

inductive RecvState where
  | headerRecv | dataRecv
  deriving DecidableEq, Repr

/-- The arguments of `data_recv_cb`. -/
structure Call where
  dataId : List UInt8
  dataSize : Nat
  data : List UInt8
  deriving DecidableEq, Repr

structure Server where
  recvState : RecvState
  dataT : UInt8
  dataId : List UInt8
  dataSizeToRecv : UInt64
  dataSizeRecved : Nat
  /-- The first `data_size_recved` bytes of `data_to_recv_`. -/
  dataToRecv : List UInt8
  msgId : MessageId
  calls : List Call
  /-- The loop of `poll_cq` has ended. -/
  ended : Bool

/-- What `send_data` is called with: a payload that is not empty, and an id that a header can carry. -/
structure Transfer where
  dataId : List UInt8
  data : List UInt8
  nonempty : data ≠ []
  fits : data.length < 2 ^ 64
  carried : ∀ dataSize, dataSize ≠ 0 → Carried .data dataId dataSize

def Transfer.dataSize (t : Transfer) : UInt64 := UInt64.ofNat t.data.length

/-- What the receiver is to be called with. -/
def Transfer.call (t : Transfer) : Call := ⟨t.dataId, t.data.length, t.data⟩

/-- What is in memory that nothing was written to. -/
structure Memory where
  /-- In the headers of the client. -/
  fresh : Nat → Nat → UInt8
  /-- Behind the fields that `proc_header` copies. -/
  after : Nat → List UInt8
  buffer : List UInt8
  remote : List UInt8
  dataT : UInt8
  dataId : List UInt8
  dataSizeToRecv : UInt64
  dataSizeRecved : Nat

structure State where
  user : User
  queue : List Item
  senders : List Sender
  /-- What was taken for the end indicator. -/
  markers : List Item
  /-- `buffer_` of the client. -/
  buffer : List UInt8
  posted : List Nat
  /-- `buffer_` of the server. -/
  remote : List UInt8
  /-- The writes whose completions the server has not seen. -/
  landed : List Nat
  server : Server
  messages : List MessageId
  /-- The sends whose completions the server has not seen. -/
  sends : Nat
  disconnected : Bool

/-! ## The client -/

def sendInit (m : Memory) : List Item :=
  ((IbHeader.makeHeader (m.fresh 0) .init [] 0).map (Item.mk .header)).toList

/-- What `send_data` pushes; nothing where `make_header` returns 1. -/
def sendData (m : Memory) (t : Transfer) : List Item :=
  match IbHeader.makeHeader (m.fresh 1) .data t.dataId t.dataSize with
  | none => []
  | some header => ⟨.header, header⟩ :: (chunks t.data).map (Item.mk .chunk) ++ [⟨.endIndicator, endIndicator⟩]

def items (m : Memory) (t : Transfer) : List Item := sendInit m ++ sendData m t

def init (m : Memory) : State where
  user := .created
  queue := []
  senders := []
  markers := []
  buffer := m.buffer
  posted := []
  remote := m.remote
  landed := []
  server := ⟨.headerRecv, m.dataT, m.dataId, m.dataSizeToRecv, m.dataSizeRecved, [], .mr, [], false⟩
  messages := [.mr]
  sends := 1
  disconnected := false

def stepUser (m : Memory) (t : Transfer) (s : State) : Option State :=
  match s.user with
  | .created => some { s with user := .added }
  | .added => some { s with user := .waitInit }
  | .waitInit => none
  | .start => some { s with user := .push (items m t), senders := s.senders ++ [.look] }
  | .push (item :: rest) => some { s with user := .signal rest, queue := s.queue ++ [item] }
  | .push [] | .signal _ => none

/-- A thread in the wait of `pop` goes on, and looks again. -/
def wake (s : State) (k : Nat) : Option State :=
  if s.senders[k]? = some .blocked then some { s with senders := s.senders.set k .look } else none

/-- `notify_one` wakes one of the threads that wait, and none only where none does. -/
def stepSignal (s : State) (woken : Option Nat) : Option State :=
  match s.user with
  | .signal rest =>
    match woken with
    | some k => wake { s with user := .push rest } k
    | none => if .blocked ∈ s.senders then none else some { s with user := .push rest }
  | _ => none

/-- `memcpy` to the start of a buffer. -/
def copyTo (buffer bytes : List UInt8) : List UInt8 := bytes ++ buffer.drop bytes.length

def stepSender (s : State) (k : Nat) : Option State :=
  s.senders[k]?.bind fun sender =>
    match sender with
    | .look => some { s with senders := s.senders.set k (if s.queue = [] then .wait else .take) }
    | .wait => some { s with senders := s.senders.set k .blocked }
    | .blocked => none
    | .take =>
      match s.queue with
      | [] => none
      | item :: rest => some { s with queue := rest, senders := s.senders.set k (.holding item) }
    | .holding item =>
      if item.bytes = endIndicator then
        some { s with senders := s.senders.eraseIdx k, markers := s.markers ++ [item] }
      -- `id_` is not set before `MSG_MR` has come
      else if .mr ∈ s.messages then none
      else
        some { s with
          senders := s.senders.set k (.copied item.bytes.length)
          buffer := copyTo s.buffer item.bytes }
    -- the length of a write, and the `imm_data` that tells it, have 32 bits
    | .copied size =>
      some { s with senders := s.senders.eraseIdx k, posted := s.posted ++ [size % 2 ^ 32] }

/-- `IBClient::on_completion` for a message; the completion of a write does nothing. The
notification for `MSG_MR` is heard in the wait only. -/
def stepClient (s : State) : Option State :=
  if s.disconnected then none
  else
    match s.messages with
    | [] => none
    | .mr :: rest => some { s with messages := rest, user := if s.user = .waitInit then .start else s.user }
    | .readyToRecv :: rest => some { s with messages := rest, senders := s.senders ++ [.look] }
    | .done :: rest => some { s with messages := rest, disconnected := true }

/-- The first of the writes that are posted reaches the server. -/
def stepLand (s : State) : Option State :=
  match s.posted with
  | [] => none
  | size :: rest =>
    some { s with posted := rest, remote := copyTo s.remote (s.buffer.take size), landed := s.landed ++ [size] }

/-! ## The server -/

/-- The members that `proc_header` sets. -/
def Server.proc (v : Server) (h : IbHeader.Header) : Server where
  recvState := v.recvState
  dataT := h.dataT
  dataId := h.dataId.getD v.dataId
  dataSizeToRecv := h.dataSizeToRecv.getD v.dataSizeToRecv
  dataSizeRecved := if h.dataSizeToRecv.isSome then 0 else v.dataSizeRecved
  dataToRecv := if h.dataSizeToRecv.isSome then [] else v.dataToRecv
  msgId := v.msgId
  calls := v.calls
  ended := v.ended

/-- The end of `on_completion`. -/
def Server.ready (v : Server) : Server × List MessageId := ({ v with msgId := .readyToRecv }, [.readyToRecv])

/-- `IBServer::on_completion` for a write, with the message that it sends; `none` where `proc_header` is
undefined. -/
def onCompletion (after : Nat → List UInt8) (remote : List UInt8) (size : Nat) (v : Server) :
    Option (Server × List MessageId) :=
  if size = 0 then some ({ v with msgId := .done }, [.done])
  else if v.msgId = .done then some (v, [.done])
  else
    match v.recvState with
    | .dataRecv =>
      if v.dataT = RdmaDataT.msg.char then some (Server.ready { v with recvState := .headerRecv })
      else if v.dataT = RdmaDataT.data.char then
        if v.dataSizeToRecv.toNat < v.dataSizeRecved + size then some ({ v with ended := true }, [])
        else
          let dataToRecv := v.dataToRecv ++ remote.take size
          let recved := v.dataSizeRecved + size
          if recved = v.dataSizeToRecv.toNat then
            some ({ v with
              dataToRecv := dataToRecv
              dataSizeRecved := recved
              calls := v.calls ++ [⟨v.dataId, recved, dataToRecv⟩]
              msgId := .done
              ended := true }, [.done])
          else some (Server.ready { v with dataToRecv := dataToRecv, dataSizeRecved := recved })
      else some v.ready
    | .headerRecv =>
      (IbHeader.procHeader after remote).map fun h =>
        Server.ready
          (if h.dataT = RdmaDataT.msg.char ∨ h.dataT = RdmaDataT.data.char then
            { v.proc h with recvState := .dataRecv }
          else v.proc h)

def stepServer (m : Memory) (s : State) : Option State :=
  if s.server.ended then none
  else
    match s.landed with
    | [] => none
    | size :: rest =>
      (onCompletion m.after s.remote size s.server).map fun r =>
        { s with
          landed := rest
          server := r.1
          messages := s.messages ++ r.2
          sends := s.sends + r.2.length }

/-- The completion of a send; `unreturned` is whether what `on_completion` happens to return is not zero. -/
def stepSent (unreturned : Bool) (s : State) : Option State :=
  if s.server.ended ∨ s.sends = 0 then none
  else some { s with sends := s.sends - 1, server := { s.server with ended := unreturned } }

/-- A wait that ends without a notification, of the constructor or of a thread in `pop`. -/
def stepSpurious (s : State) : Option Nat → Option State
  | none => if s.user = .waitInit then some { s with user := .start } else none
  | some k => wake s k

inductive Action where
  | user | client | land | server | sent
  | sender : Nat → Action
  | signal : Option Nat → Action
  | spurious : Option Nat → Action
  deriving DecidableEq, Repr

def step (unreturned : Bool) (m : Memory) (t : Transfer) (s : State) : Action → Option State
  | .user => stepUser m t s
  | .sender k => stepSender s k
  | .client => stepClient s
  | .land => stepLand s
  | .server => stepServer m s
  | .sent => stepSent unreturned s
  | .signal woken => stepSignal s woken
  | .spurious k => stepSpurious s k

/-! ## Exactness -/

/-- The constructor is in its wait when `MSG_MR` comes and does not leave it before, and the
last notification of the queue does not fall between the look of a thread and its wait. -/
def Heard (s : State) : Action → Prop
  | .client => s.messages.head? = some .mr → s.user = .waitInit
  | .signal _ => s.user = .signal [] → .wait ∉ s.senders
  | .spurious k => k ≠ none
  | _ => True

def Action.isSpurious : Action → Bool
  | .spurious _ => true
  | _ => false

/-- Steps that meet the condition, and for which nobody has to wake up by himself. -/
def Due (ok : State → Action → Prop) (s : State) (a : Action) : Prop := ok s a ∧ a.isSpurious = false

def Stuck (ok : State → Action → Prop) (unreturned : Bool) (m : Memory) (t : Transfer) (s : State) : Prop :=
  ∀ a, Due ok s a → step unreturned m t s a = none

/-- In every order of steps that meet the condition there is one write at most on its way, no
chunk is taken for the end indicator, and the receiver is called at most once, with what was
sent; a run ends, and it has been called then. -/
def Exact (ok : State → Action → Prop) (unreturned : Bool) (t : Transfer) : Prop :=
  ∀ m, (∃ n, ∀ actions s, run (step unreturned m t) actions (init m) = some s →
      actions.length ≤ n + 3 * actions.countP Action.isSpurious) ∧
    ∀ s, Reaches (step unreturned m t) ok (init m) s →
      s.posted.length + s.landed.length ≤ 1 ∧ (∀ item ∈ s.markers, item.kind ≠ .chunk) ∧
        (s.server.calls = [] ∨ s.server.calls = [t.call]) ∧
        (Stuck ok unreturned m t s → s.server.calls = [t.call])

/-- The size passes the check of `make_header`. -/
def Announced (t : Transfer) : Prop := t.data.length < 2 ^ 31 ∨ 2 ^ 64 - 2 ^ 31 ≤ t.data.length

/-- The last chunk is the end indicator. -/
def EndsAsIndicator (t : Transfer) : Prop := t.data.length % bufferSize = 4 ∧ endIndicator <:+ t.data

/-! ## Runs end -/

def Sender.weight : Sender → Nat
  | look => 3
  | wait => 2
  | blocked | take => 1
  | holding _ => 9
  | copied _ => 8

def User.weight (pushes : Nat) : User → Nat
  | created => 6 + 13 * pushes
  | added => 5 + 13 * pushes
  | waitInit | start => 4 + 13 * pushes
  | push rest => 13 * rest.length
  | signal rest => 3 + 13 * rest.length

/-- Steps that are still possible, at most. -/
def measure (m : Memory) (t : Transfer) (s : State) : Nat :=
  s.user.weight (items m t).length + 9 * s.queue.length + (s.senders.map Sender.weight).sum + 7 * s.posted.length +
    6 * s.landed.length + 4 * s.messages.length + s.sends

/-- A thread that wakes up by itself may look and wait again. -/
def Action.gain (a : Action) : Nat := if a.isSpurious then 3 else 0

theorem sum_gain (actions : List Action) :
    (actions.map Action.gain).sum = 3 * actions.countP Action.isSpurious := by
  induction actions with
  | nil => rfl
  | cons a actions ih =>
    rw [List.map_cons, List.sum_cons, ih, List.countP_cons, Action.gain]
    split <;> omega

theorem onCompletion_messages {after : Nat → List UInt8} {remote : List UInt8} {size : Nat} {v : Server}
    {r : Server × List MessageId} (h : onCompletion after remote size v = some r) : r.2.length ≤ 1 := by
  rw [onCompletion] at h
  split at h
  next => exact (Option.some.inj h) ▸ Nat.le_refl 1
  next =>
    split at h
    next => exact (Option.some.inj h) ▸ Nat.le_refl 1
    next =>
      split at h
      next =>
        split at h
        next => exact (Option.some.inj h) ▸ Nat.le_refl 1
        next =>
          split at h
          next =>
            split at h
            next => exact (Option.some.inj h) ▸ Nat.zero_le 1
            next =>
              dsimp only at h
              split at h <;> exact (Option.some.inj h) ▸ Nat.le_refl 1
          next => exact (Option.some.inj h) ▸ Nat.le_refl 1
      next =>
        obtain ⟨header, -, rfl⟩ := Option.map_eq_some_iff.mp h
        exact Nat.le_refl 1

section Measure
variable {unreturned : Bool} {m : Memory} {t : Transfer} {s s' : State}

theorem stepUser_measure (h : stepUser m t s = some s') : measure m t s' < measure m t s := by
  rw [stepUser] at h
  split at h
  next huser =>
    obtain rfl := Option.some.inj h
    simp only [measure, huser, User.weight]
    omega
  next huser =>
    obtain rfl := Option.some.inj h
    simp only [measure, huser, User.weight]
    omega
  next => cases h
  next huser =>
    obtain rfl := Option.some.inj h
    simp only [measure, huser, User.weight, List.map_append, List.map_singleton, List.sum_append, List.sum_singleton,
      Sender.weight]
    omega
  next item rest huser =>
    obtain rfl := Option.some.inj h
    simp only [measure, huser, User.weight, List.length_append, List.length_cons, List.length_nil]
    omega
  next => cases h
  next => cases h

theorem wake_cases {k : Nat} (h : wake s k = some s') :
    s.senders[k]? = some .blocked ∧ s' = { s with senders := s.senders.set k .look } := by
  obtain ⟨hk, h⟩ := Option.ite_none_right_eq_some.mp h
  exact ⟨hk, (Option.some.inj h).symm⟩

theorem wake_measure {k : Nat} (h : wake s k = some s') : measure m t s' = measure m t s + 2 := by
  obtain ⟨hk, rfl⟩ := wake_cases h
  have hsum := sum_map_set hk Sender.weight .look
  simp only [Sender.weight] at hsum
  simp only [measure]
  omega

/-- The thread that pushes notifies one that waits, or goes on alone. -/
theorem stepSignal_cases {woken : Option Nat} (h : stepSignal s woken = some s') :
    ∃ rest, s.user = .signal rest ∧
      (Sender.blocked ∉ s.senders ∧ s' = { s with user := .push rest } ∨
        ∃ k, wake { s with user := .push rest } k = some s') := by
  rw [stepSignal] at h
  split at h
  next rest huser =>
    refine ⟨rest, huser, ?_⟩
    cases woken with
    | none =>
      obtain ⟨hnone, h⟩ := Option.ite_none_left_eq_some.mp h
      exact .inl ⟨hnone, (Option.some.inj h).symm⟩
    | some k => exact .inr ⟨k, h⟩
  next => cases h

theorem stepSignal_measure {woken : Option Nat} (h : stepSignal s woken = some s') :
    measure m t s' < measure m t s := by
  obtain ⟨rest, huser, ⟨-, rfl⟩ | ⟨k, hwake⟩⟩ := stepSignal_cases h
  · simp only [measure, huser, User.weight]
    omega
  · rw [wake_measure hwake]
    simp only [measure, huser, User.weight]
    omega

theorem stepSpurious_measure {k : Option Nat} (h : stepSpurious s k = some s') :
    measure m t s' < measure m t s + 3 := by
  cases k with
  | none =>
    obtain ⟨huser, h⟩ := Option.ite_none_right_eq_some.mp h
    obtain rfl := Option.some.inj h
    simp only [measure, huser, User.weight]
    omega
  | some k =>
    rw [wake_measure h]
    omega

theorem stepSender_measure {k : Nat} (h : stepSender s k = some s') : measure m t s' < measure m t s := by
  obtain ⟨sender, hk, h⟩ := Option.bind_eq_some_iff.mp h
  cases sender with
  | look =>
    obtain rfl := Option.some.inj h
    have hsum := sum_map_set hk Sender.weight (if s.queue = [] then .wait else .take)
    have hless : (if s.queue = [] then Sender.wait else Sender.take).weight < Sender.look.weight := by
      split <;> decide
    simp only [measure]
    omega
  | wait =>
    obtain rfl := Option.some.inj h
    have hsum := sum_map_set hk Sender.weight .blocked
    simp only [Sender.weight] at hsum
    simp only [measure]
    omega
  | blocked => cases h
  | take =>
    dsimp only at h
    split at h
    next => cases h
    next item rest hqueue =>
      obtain rfl := Option.some.inj h
      have hsum := sum_map_set hk Sender.weight (.holding item)
      simp only [Sender.weight] at hsum
      simp only [measure, hqueue, List.length_cons]
      omega
  | holding item =>
    dsimp only at h
    split at h
    next =>
      obtain rfl := Option.some.inj h
      have hsum := sum_map_eraseIdx hk Sender.weight
      simp only [Sender.weight] at hsum
      simp only [measure]
      omega
    next =>
      obtain ⟨-, h⟩ := Option.ite_none_left_eq_some.mp h
      obtain rfl := Option.some.inj h
      have hsum := sum_map_set hk Sender.weight (.copied item.bytes.length)
      simp only [Sender.weight] at hsum
      simp only [measure]
      omega
  | copied size =>
    obtain rfl := Option.some.inj h
    have hsum := sum_map_eraseIdx hk Sender.weight
    simp only [Sender.weight] at hsum
    simp only [measure, List.length_append, List.length_singleton]
    omega

theorem stepClient_measure (h : stepClient s = some s') : measure m t s' < measure m t s := by
  rw [stepClient] at h
  split at h
  next => cases h
  next =>
    split at h
    next => cases h
    next rest hmessages =>
      obtain rfl := Option.some.inj h
      have huser : (if s.user = .waitInit then User.start else s.user).weight (items m t).length =
          s.user.weight (items m t).length := by
        split
        next hwait => rw [hwait]; rfl
        next => rfl
      simp only [measure, hmessages, huser, List.length_cons]
      omega
    next rest hmessages =>
      obtain rfl := Option.some.inj h
      simp only [measure, hmessages, List.length_cons, List.map_append, List.map_singleton, List.sum_append,
        List.sum_singleton, Sender.weight]
      omega
    next rest hmessages =>
      obtain rfl := Option.some.inj h
      simp only [measure, hmessages, List.length_cons]
      omega

theorem stepLand_measure (h : stepLand s = some s') : measure m t s' < measure m t s := by
  rw [stepLand] at h
  split at h
  next => cases h
  next size rest hposted =>
    obtain rfl := Option.some.inj h
    simp only [measure, hposted, List.length_append, List.length_cons, List.length_nil]
    omega

theorem stepServer_measure (h : stepServer m s = some s') : measure m t s' < measure m t s := by
  rw [stepServer] at h
  split at h
  next => cases h
  next =>
    split at h
    next => cases h
    next size rest hlanded =>
      obtain ⟨r, hr, rfl⟩ := Option.map_eq_some_iff.mp h
      have hone := onCompletion_messages hr
      simp only [measure, hlanded, List.length_append, List.length_cons]
      omega

theorem stepSent_measure (h : stepSent unreturned s = some s') : measure m t s' < measure m t s := by
  rw [stepSent] at h
  split at h
  next => cases h
  next hopen =>
    obtain rfl := Option.some.inj h
    simp only [measure]
    omega

theorem step_measure (unreturned : Bool) {a : Action} (h : step unreturned m t s a = some s') :
    measure m t s' < measure m t s + a.gain := by
  cases a with
  | user => exact stepUser_measure h
  | client => exact stepClient_measure h
  | land => exact stepLand_measure h
  | server => exact stepServer_measure h
  | sent => exact stepSent_measure h
  | sender k => exact stepSender_measure h
  | signal woken => exact stepSignal_measure h
  | spurious k => exact stepSpurious_measure h

/-- Where every step is due none is gained. -/
theorem due_measure (ok : State → Action → Prop) (unreturned : Bool) (a : Action) (hdue : Due ok s a)
    (h : step unreturned m t s a = some s') : measure m t s' < measure m t s := by
  have hlt := step_measure unreturned h
  rwa [Action.gain, hdue.2, if_neg (by decide), Nat.add_zero] at hlt

end Measure

/-! ## Chunks -/

theorem chunks_cons {data : List UInt8} (h : data ≠ []) :
    chunks data = data.take bufferSize :: chunks (data.drop bufferSize) := by rw [chunks, dif_neg h]

theorem chunks_flatten (data : List UInt8) : (chunks data).flatten = data := by
  fun_induction chunks data with
  | case1 => rfl
  | case2 data hne ih => rw [List.flatten_cons, ih, List.take_append_drop]

theorem length_of_mem_chunks {data chunk : List UInt8} (h : chunk ∈ chunks data) :
    0 < chunk.length ∧ chunk.length ≤ bufferSize := by
  fun_induction chunks data with
  | case1 => cases h
  | case2 data hne ih =>
    rcases List.mem_cons.mp h with rfl | hrest
    · have := List.length_pos_of_ne_nil hne
      rw [List.length_take, bufferSize]
      omega
    · exact ih hrest

theorem chunks_ne_nil {data : List UInt8} (h : data ≠ []) : chunks data ≠ [] := by
  rw [chunks_cons h]
  exact List.cons_ne_nil _ _

theorem eq_of_suffix_four {data : List UInt8} (h : endIndicator <:+ data) (hlen : data.length = 4) :
    data = endIndicator := (h.eq_of_length hlen.symm).symm

/-- Only the last chunk can be four bytes long. -/
theorem endIndicator_mem_chunks (data : List UInt8) :
    endIndicator ∈ chunks data ↔ data.length % bufferSize = 4 ∧ endIndicator <:+ data := by
  fun_induction chunks data with
  | case1 =>
    constructor
    · intro h
      cases h
    · rintro ⟨hlen, -⟩
      exact absurd hlen (by decide)
  | case2 data hne ih =>
    have hbuf : bufferSize = 104857600 := rfl
    have hfour : endIndicator.length = 4 := rfl
    rw [List.mem_cons, ih, List.length_drop]
    by_cases hlast : data.length ≤ bufferSize
    · rw [List.take_of_length_le hlast, List.drop_of_length_le hlast]
      constructor
      · rintro (heq | ⟨hlen, -⟩)
        · rw [← heq, hfour]
          exact ⟨by decide, List.suffix_rfl⟩
        · rw [Nat.sub_eq_zero_of_le hlast] at hlen
          exact absurd hlen (by decide)
      · rintro ⟨hlen, hsuffix⟩
        rw [hbuf] at hlen hlast
        exact .inl (eq_of_suffix_four hsuffix (by omega)).symm
    · have hmod : data.length % bufferSize = (data.length - bufferSize) % bufferSize := Nat.mod_eq_sub_mod (by omega)
      rw [hmod]
      constructor
      · rintro (heq | ⟨hlen, hsuffix⟩)
        · have hsize := congrArg List.length heq
          rw [List.length_take, hfour] at hsize
          omega
        · exact ⟨hlen, hsuffix.trans (List.drop_suffix _ _)⟩
      · rintro ⟨hlen, hsuffix⟩
        have hle := Nat.mod_le (data.length - bufferSize) bufferSize
        refine .inr ⟨hlen, List.suffix_of_suffix_length_le hsuffix (List.drop_suffix _ _) ?_⟩
        rw [List.length_drop, hfour]
        omega

/-! ## What is queued -/

section Items
variable {m : Memory} {t : Transfer} {j : Nat} {i : Item}

/-- `send_data` gets past `make_header`. -/
def Sends (m : Memory) (t : Transfer) : Prop :=
  ∃ header, IbHeader.makeHeader (m.fresh 1) .data t.dataId t.dataSize = some header

theorem Transfer.toNat_dataSize (t : Transfer) : t.dataSize.toNat = t.data.length := UInt64.toNat_ofNat_of_lt' t.fits

theorem Transfer.dataSize_ne_zero (t : Transfer) : t.dataSize ≠ 0 := by
  intro hzero
  have hlen := t.toNat_dataSize
  rw [hzero] at hlen
  exact t.nonempty (List.eq_nil_of_length_eq_zero hlen.symm)

theorem Transfer.carried_data (t : Transfer) : Carried .data t.dataId t.dataSize :=
  t.carried t.dataSize t.dataSize_ne_zero

theorem refused_iff (t : Transfer) : IbHeader.Refused t.dataId t.dataSize ↔ ¬ Announced t := by
  have hlen : t.dataId.length < ByteCount.ibMaxDataIdLength := t.carried_data.2.1
  rw [IbHeader.Refused, Announced, t.toNat_dataSize]
  omega

theorem sends_iff (m : Memory) (t : Transfer) : Sends m t ↔ Announced t := by
  constructor
  · rintro ⟨header, hmake⟩
    by_contra hnot
    rw [IbHeader.makeHeader_of_refused ((refused_iff t).mpr hnot)] at hmake
    cases hmake
  · intro hsize
    have hnot : ¬ IbHeader.Refused t.dataId t.dataSize := fun h => (refused_iff t).mp h hsize
    obtain ⟨⟨idField, hid⟩, sizeField, hfield⟩ := IbHeader.fields_of_not_refused hnot
    exact ⟨_, IbHeader.makeHeader_eq hid hfield⟩

theorem sendInit_eq (m : Memory) : sendInit m = [⟨.header, [RdmaDataT.init.char, 0]⟩] := by
  rw [sendInit, IbHeader.makeHeader_eq IbHeader.dataIdField_nil IbHeader.dataSizeField_zero]
  rfl

/-- What is at each place of the queue. -/
theorem items_get (h : (items m t)[j]? = some i) :
    j = 0 ∧ i = ⟨.header, [RdmaDataT.init.char, 0]⟩ ∨
      ∃ header, IbHeader.makeHeader (m.fresh 1) .data t.dataId t.dataSize = some header ∧
        (j = 1 ∧ i = ⟨.header, header⟩ ∨
          (∃ k chunk, j = k + 2 ∧ (chunks t.data)[k]? = some chunk ∧ i = ⟨.chunk, chunk⟩) ∨
          j = (chunks t.data).length + 2 ∧ i = ⟨.endIndicator, endIndicator⟩) := by
  rw [items, sendInit_eq, List.singleton_append] at h
  cases j with
  | zero =>
    rw [List.getElem?_cons_zero] at h
    exact .inl ⟨rfl, (Option.some.inj h).symm⟩
  | succ j =>
    rw [List.getElem?_cons_succ, sendData] at h
    split at h
    next => rw [List.getElem?_nil] at h; cases h
    next header hmake =>
      refine .inr ⟨header, hmake, ?_⟩
      cases j with
      | zero =>
        rw [List.cons_append, List.getElem?_cons_zero] at h
        exact .inl ⟨rfl, (Option.some.inj h).symm⟩
      | succ k =>
        rw [List.cons_append, List.getElem?_cons_succ] at h
        by_cases hk : k < (chunks t.data).length
        · rw [List.getElem?_append_left (by rwa [List.length_map]), List.getElem?_map] at h
          obtain ⟨chunk, hchunk, rfl⟩ := Option.map_eq_some_iff.mp h
          exact .inr (.inl ⟨k, chunk, rfl, hchunk, rfl⟩)
        · rw [List.getElem?_append_right (by rw [List.length_map]; omega), List.length_map] at h
          obtain ⟨hlt, rfl⟩ := List.getElem?_eq_some_iff.mp h
          rw [List.length_singleton] at hlt
          exact .inr (.inr ⟨by omega, by simp⟩)

theorem items_eq {header : List UInt8}
    (h : IbHeader.makeHeader (m.fresh 1) .data t.dataId t.dataSize = some header) :
    items m t = ⟨.header, [RdmaDataT.init.char, 0]⟩ :: ⟨.header, header⟩ ::
      ((chunks t.data).map (Item.mk .chunk) ++ [⟨.endIndicator, endIndicator⟩]) := by
  rw [items, sendInit_eq, sendData, h]
  rfl

theorem items_length (h : Sends m t) : (items m t).length = (chunks t.data).length + 3 := by
  obtain ⟨header, hmake⟩ := h
  rw [items_eq hmake, List.length_cons, List.length_cons, List.length_append, List.length_map, List.length_singleton]

theorem getElem?_items_chunk (h : Sends m t) {k : Nat} {chunk : List UInt8} (hk : (chunks t.data)[k]? = some chunk) :
    (items m t)[k + 2]? = some ⟨.chunk, chunk⟩ := by
  obtain ⟨header, hmake⟩ := h
  have hlt := Pool.lt_of_getElem? hk
  rw [items_eq hmake, List.getElem?_cons_succ, List.getElem?_cons_succ,
    List.getElem?_append_left (by rwa [List.length_map]), List.getElem?_map, hk, Option.map_some]

theorem length_makeHeader {fresh : Nat → UInt8} {dataT : RdmaDataT} {dataId header : List UInt8} {dataSize : UInt64}
    (h : IbHeader.makeHeader fresh dataT dataId dataSize = some header) : header.length = IbHeader.headerSize dataT := by
  obtain ⟨idField, hid, hmap⟩ := Option.bind_eq_some_iff.mp h
  obtain ⟨sizeField, hsize, rfl⟩ := Option.map_eq_some_iff.mp hmap
  exact Field.length_block ..

/-- Nothing that is queued is empty, or too long for the buffer. -/
theorem length_item (h : (items m t)[j]? = some i) : 0 < i.bytes.length ∧ i.bytes.length ≤ bufferSize := by
  rcases items_get h with ⟨-, rfl⟩ | ⟨header, hmake, ⟨-, rfl⟩ | ⟨k, chunk, -, hchunk, rfl⟩ | ⟨-, rfl⟩⟩
  · exact ⟨by decide, by decide⟩
  · show 0 < header.length ∧ header.length ≤ bufferSize
    rw [length_makeHeader hmake]
    exact ⟨by decide, by decide⟩
  · exact length_of_mem_chunks (List.mem_of_getElem? hchunk)
  · exact ⟨by decide, by decide⟩

end Items

end IbTransfer
