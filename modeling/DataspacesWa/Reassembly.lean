import DataspacesWa.Transition
import DataspacesWa.Pool
import DataspacesWa.Segments
import DataspacesWa.Patch
import DataspacesWa.Syncer

/-!
# TCP reassembly

One transfer to one receiver. `TCPServer::init_recv` cuts what the client sends
into chunks and starts a handler thread for each, `RFPManager::handle_recv`
appends a chunk at the running offset, and `RFPManager::wa_get` hands the
buffer to the local put once it is notified.
-/
namespace Reassembly

open Transition (Reaches free run runWhere)
open Segments (offset writeAt Written)

/-- `TCP_CHUNK_SIZE` of the server. -/
def tcpChunkSize : Nat := 100 * 1024 * 1024

def tcpMaxDataIdLength : Nat := 50

inductive DataType where
  | char | int | float | double
  deriving DecidableEq, Repr

def DataType.sizeOf : DataType → UInt64
  | .char => 1
  | .int => 4
  | .float => 4
  | .double => 8

/-- `data_size` of `Trans::init_put`, which the client announces. -/
def dataSize (dataType : DataType) (dataLength : UInt64) : Int32 :=
  (dataLength * dataType.sizeOf).toUInt32.toInt32

/-- What the two ends of a transfer are called with, and the bytes the client sends. -/
structure Transfer where
  dataId : String
  size : Int32
  dataType : DataType
  dataLength : UInt64
  payload : List UInt8
  sent : payload.length = (dataSize dataType dataLength).toInt.toNat

/-- The number the client writes before the payload. -/
def Transfer.announced (t : Transfer) : Int := (dataSize t.dataType t.dataLength).toInt

/-- `malloc(size*get_data_length(..))` at the receiver. -/
def Transfer.capacity (t : Transfer) : Nat := (t.size.toInt64.toUInt64 * t.dataLength).toNat

def Transfer.point (t : Transfer) : UInt32 := Patch.hashStr t.dataId

/-- `RFPManager::wa_get`, with `TCPServer::init` inlined. -/
inductive Receiver where
  | zero | alloc
  | add | wait
  | blocked : Nat → Receiver
  | del | put | free | drop | done
  deriving DecidableEq, Repr

/-- `TCPServer::init_recv`, with what is still to be received. -/
inductive Server where
  | header
  | reading : Int → Server
  | notify | done
  deriving DecidableEq, Repr

/-- `RFPManager::handle_recv`. -/
inductive HandlerPc where
  | test | read
  | copy : Nat → HandlerPc
  | readAdd
  | writeAdd : Nat → HandlerPc
  | done | dropped
  deriving DecidableEq, Repr

structure Handler where
  chunk : List UInt8
  pc : HandlerPc
  deriving DecidableEq, Repr

/-- A cell of the buffer is `none` until it is written. -/
abbrev Block := List (Option UInt8)

structure State where
  syncer : Syncer.State UInt32
  receiver : Receiver
  server : Server
  stream : List UInt8
  handlers : List Handler
  recvedSize : Option Nat
  data : Option Block
  /-- The buffer `sync_put` was called with. -/
  handed : Option Block

inductive Action where
  | receiver
  | server : Option Nat → Action
  | handler : Nat → Action
  | spurious
  deriving DecidableEq, Repr

def init (t : Transfer) : State :=
  ⟨Syncer.empty, .zero, .header, t.payload, [], none, none, none⟩

def stepReceiver (t : Transfer) (s : State) : Option State :=
  match s.receiver with
  | .zero => some { s with recvedSize := some 0, receiver := .alloc }
  | .alloc => some { s with data := some (List.replicate t.capacity none), receiver := .add }
  | .add => some { s with syncer := Syncer.addSyncPoint s.syncer t.point 1, receiver := .wait }
  | .wait =>
    (Syncer.wait s.syncer t.point 0).map fun (cv, syncer) =>
      { s with syncer := syncer, receiver := .blocked cv }
  | .blocked cv => if 0 ∈ s.syncer.waiters cv then none else some { s with receiver := .del }
  | .del => some { s with syncer := Syncer.delSyncPoint s.syncer t.point, receiver := .put }
  | .put => some { s with handed := s.data, receiver := .free }
  | .free => some { s with data := none, receiver := .drop }
  | .drop => some { s with recvedSize := none, receiver := .done }
  | .done => none

/-- A negative `int` compares as a large `uint64_t`. -/
def toRecvSize (total : Int) : Nat :=
  if 0 ≤ total ∧ total < tcpChunkSize then total.toNat else tcpChunkSize

def stepServer (t : Transfer) (s : State) (woken : Option Nat) : Option State :=
  match s.server with
  | .header =>
    -- the client does not send a longer id, and the framing is lost
    if t.dataId.utf8ByteSize < tcpMaxDataIdLength then some { s with server := .reading t.announced }
    else none
  | .reading total =>
    let n := toRecvSize total
    if n ≤ s.stream.length then
      some { s with
        stream := s.stream.drop n
        handlers := s.handlers ++ [⟨s.stream.take n, .test⟩]
        server := if total - n = 0 then .notify else .reading (total - n) }
    else none
  | .notify =>
    (Syncer.notify s.syncer t.point woken).map fun syncer =>
      { s with syncer := syncer, server := .done }
  | .done => none

def State.moveTo (s : State) (k : Nat) (h : Handler) (pc : HandlerPc) : State :=
  { s with handlers := Pool.commit s.handlers k { h with pc := pc } [] }

def stepHandler (s : State) (k : Nat) : Option State :=
  s.handlers[k]?.bind fun h =>
    match h.pc with
    | .test => some (s.moveTo k h (if s.recvedSize.isSome then .read else .dropped))
    | .read =>
      -- `operator[]` creates a missing entry
      some { s.moveTo k h (.copy (s.recvedSize.getD 0)) with recvedSize := some (s.recvedSize.getD 0) }
    | .copy recved =>
      match s.data with
      | some block =>
        -- past the end of the buffer `memcpy` is undefined
        if recved + h.chunk.length ≤ block.length then
          some { s.moveTo k h .readAdd with data := some (writeAt block recved h.chunk) }
        else none
      | none => if h.chunk = [] then some (s.moveTo k h .readAdd) else none
    | .readAdd => some (s.moveTo k h (.writeAdd (s.recvedSize.getD 0 + h.chunk.length)))
    | .writeAdd n => some { s.moveTo k h .done with recvedSize := some n }
    | .done => none
    | .dropped => none

def step (t : Transfer) (s : State) : Action → Option State
  | .receiver => stepReceiver t s
  | .server woken => stepServer t s woken
  | .handler k => stepHandler s k
  | .spurious =>
    match s.receiver with
    | .blocked cv => (Syncer.spurious s.syncer cv 0).map fun syncer => { s with syncer := syncer }
    | _ => none

/-- What the local put was handed is the payload, as long as announced. -/
def Reassembled (t : Transfer) (s : State) : Prop :=
  ∀ block, s.handed = some block → block = t.payload.map some ∧ (block.length : Int) = t.announced

/-- The chunk is in the buffer. -/
def HandlerPc.copied : HandlerPc → Bool
  | .readAdd | .writeAdd _ | .done => true
  | _ => false

def Server.through : Server → Bool
  | .notify | .done => true
  | _ => false

/-- The handlers run one after the other in the order of the chunks, once the
receiver is set up, and the put comes after the last copy. -/
def InOrder (s : State) : Action → Prop
  | .handler k =>
    match s.handlers[k]?.map Handler.pc with
    | some .test => s.recvedSize.isSome
    | some .read => ∀ h ∈ s.handlers.take k, h.pc = .done
    | _ => True
  | .receiver => s.receiver = .put → s.server.through ∧ ∀ h ∈ s.handlers, h.pc.copied
  | _ => True

instance (s : State) (a : Action) : Decidable (InOrder s a) := by
  unfold InOrder
  split
  · split <;> infer_instance
  all_goals infer_instance

def State.segs (s : State) : List (List UInt8) := s.handlers.map Handler.chunk

/-- The handler has read the running offset, or dropped its chunk. -/
def HandlerPc.started : HandlerPc → Bool
  | .test | .read => false
  | _ => true

/-- The running count is in the map for this transfer. -/
def Receiver.counting : Receiver → Bool
  | .zero | .done => false
  | _ => true

def Receiver.ready : Receiver → Bool
  | .zero | .alloc => false
  | _ => true

def Receiver.given : Receiver → Bool
  | .free | .drop | .done => true
  | _ => false

/-- Handler `k` is the first that is not done. -/
def FirstOpen (handlers : List Handler) (k : Nat) : Prop :=
  k ≤ handlers.length ∧ (∀ j h, j < k → handlers[j]? = some h → h.pc = .done) ∧
    ∀ h, handlers[k]? = some h → h.pc ≠ .done

structure Inv (t : Transfer) (s : State) : Prop where
  text : s.segs.flatten ++ s.stream = t.payload
  unread : s.server = .header → s.stream = t.payload
  left : ∀ total, s.server = .reading total → total.toNat = s.stream.length
  through : s.server.through → s.stream = []
  ordered : ∀ (j k : Nat) (hj hk : Handler), j < k → s.handlers[j]? = some hj →
    s.handlers[k]? = some hk → hk.pc.started → hj.pc = .done
  copying : ∀ (k : Nat) (h : Handler) (recved : Nat), s.handlers[k]? = some h →
    h.pc = .copy recved → recved = offset s.segs k
  adding : s.receiver.counting → ∀ (k : Nat) (h : Handler) (n : Nat), s.handlers[k]? = some h →
    h.pc = .writeAdd n → n = offset s.segs (k + 1)
  counted : s.receiver.counting → ∀ k, FirstOpen s.handlers k →
    s.recvedSize = some (offset s.segs k)
  early : s.receiver = .zero → s.recvedSize = none ∧ ∀ h ∈ s.handlers, h.pc = .test
  late : s.receiver.given → s.server.through ∧ ∀ h ∈ s.handlers, h.pc.copied
  unready : s.receiver.ready = false → s.data = none ∧ s.handed = none ∧
    ∀ h ∈ s.handlers, h.pc.copied → h.chunk = []
  size : ∀ block, s.data = some block → block.length = t.capacity
  written : ∀ block, s.data = some block → ∀ (k : Nat) (h : Handler), s.handlers[k]? = some h →
    h.pc.copied → Written block s.segs k
  given : ∀ block, s.handed = some block → block = t.payload.map some

theorem inv_init (t : Transfer) : Inv t (init t) := by
  constructor <;> simp [init, State.segs, Server.through, Receiver.counting, Receiver.given]

section Moves
variable {t : Transfer} {s : State} {k : Nat} {h : Handler} {pc : HandlerPc}

theorem segs_get (hk : s.handlers[k]? = some h) : s.segs[k]? = some h.chunk := by
  simp [State.segs, hk]

theorem moveTo_segs (hk : s.handlers[k]? = some h) (pc : HandlerPc) :
    (Pool.commit s.handlers k { h with pc := pc } []).map Handler.chunk = s.segs := by
  obtain ⟨hlt, rfl⟩ := List.getElem?_eq_some_iff.mp hk
  have hsame : s.handlers[k].chunk = (s.handlers.map Handler.chunk).get ⟨k, by simpa using hlt⟩ := by simp
  rw [Pool.commit, List.append_nil, List.map_set, hsame, List.get_eq_getElem, List.set_getElem_self]
  rfl

theorem moveTo_mem {x : Handler} (hx : x ∈ Pool.commit s.handlers k { h with pc := pc } []) :
    x = { h with pc := pc } ∨ x ∈ s.handlers := by
  obtain ⟨i, hi⟩ := List.getElem?_of_mem hx
  rcases Pool.commit_nil_cases hi with ⟨-, rfl⟩ | ⟨-, hi⟩
  · exact .inl rfl
  · exact .inr (List.mem_of_getElem? hi)

/-- A handler that is not done and does not get done leaves the first open one. -/
theorem FirstOpen.of_move {i : Nat} (hf : FirstOpen (Pool.commit s.handlers k { h with pc := pc } []) i)
    (hk : s.handlers[k]? = some h) (hopen : h.pc ≠ .done) (hstay : pc ≠ .done) :
    FirstOpen s.handlers i := by
  obtain ⟨hle, hbefore, hat⟩ := hf
  refine ⟨by simpa [Pool.commit] using hle, ?_, ?_⟩
  · intro j x hj hx
    by_cases hjk : j = k
    · subst hjk
      exact absurd (hbefore j _ hj (Pool.commit_self hk _ _)) hstay
    · exact hbefore j x hj (Pool.commit_other hx hjk _ _)
  · intro x hx
    by_cases hik : i = k
    · subst hik
      obtain rfl : h = x := by simpa [hk] using hx
      exact hopen
    · exact hat x (Pool.commit_other hx hik _ _)

/-- What a step of one handler has to show for itself. -/
theorem Inv.move (hi : Inv t s) (hk : s.handlers[k]? = some h) (hset : s.receiver ≠ .zero)
    (r : Option Nat) (d : Option Block)
    (turn : pc.started → ∀ (j : Nat) (x : Handler), j < k → s.handlers[j]? = some x → x.pc = .done)
    (hopen : h.pc ≠ .done) (mono : h.pc.copied → pc.copied)
    (copying : ∀ recved, pc = .copy recved → recved = offset s.segs k)
    (adding : s.receiver.counting → ∀ n, pc = .writeAdd n → n = offset s.segs (k + 1))
    (counted : s.receiver.counting → ∀ i,
      FirstOpen (Pool.commit s.handlers k { h with pc := pc } []) i → r = some (offset s.segs i))
    (unready : s.receiver.ready = false → d = none ∧ (pc.copied → h.chunk = []))
    (size : ∀ block, d = some block → block.length = t.capacity)
    (written : ∀ block, d = some block → ∀ (i : Nat) (x : Handler), s.handlers[i]? = some x →
      (if i = k then pc else x.pc).copied → Written block s.segs i) :
    Inv t { s.moveTo k h pc with recvedSize := r, data := d } := by
  have hsegs : ({ s.moveTo k h pc with recvedSize := r, data := d } : State).segs = s.segs :=
    moveTo_segs hk pc
  refine ⟨?_, hi.unread, hi.left, hi.through, ?_, ?_, ?_, ?_, fun hz => absurd hz hset, ?_, ?_,
    size, ?_, hi.given⟩
  · rw [hsegs]; exact hi.text
  · intro j i hj hx hlt hgj hgi hst
    rcases Pool.commit_nil_cases hgi with ⟨rfl, rfl⟩ | ⟨hne, hx'⟩
    · rcases Pool.commit_nil_cases hgj with ⟨rfl, -⟩ | ⟨-, hj'⟩
      · omega
      · exact turn hst j hj hlt hj'
    · rcases Pool.commit_nil_cases hgj with ⟨rfl, rfl⟩ | ⟨-, hj'⟩
      · exact absurd (hi.ordered j i h hx hlt hk hx' hst) hopen
      · exact hi.ordered j i hj hx hlt hj' hx' hst
  · intro i x recved hx hc
    rw [hsegs]
    rcases Pool.commit_nil_cases hx with ⟨rfl, rfl⟩ | ⟨-, hx⟩
    · exact copying recved hc
    · exact hi.copying i x recved hx hc
  · intro hcount i x n hx hw
    rw [hsegs]
    rcases Pool.commit_nil_cases hx with ⟨rfl, rfl⟩ | ⟨-, hx⟩
    · exact adding hcount n hw
    · exact hi.adding hcount i x n hx hw
  · intro hcount i hf
    rw [hsegs]
    exact counted hcount i hf
  · intro hg
    obtain ⟨hthrough, hall⟩ := hi.late hg
    refine ⟨hthrough, fun x hx => ?_⟩
    rcases moveTo_mem hx with rfl | hx
    · exact mono (hall h (List.mem_of_getElem? hk))
    · exact hall x hx
  · intro hr
    obtain ⟨-, hhanded, hchunks⟩ := hi.unready hr
    refine ⟨(unready hr).1, hhanded, fun x hx hc => ?_⟩
    rcases moveTo_mem hx with rfl | hx
    · exact (unready hr).2 hc
    · exact hchunks x hx hc
  · intro block hb i x hx hc
    rw [hsegs]
    rcases Pool.commit_nil_cases hx with ⟨rfl, rfl⟩ | ⟨hne, hx⟩
    · exact written block hb i h hk (by simpa using hc)
    · exact written block hb i x hx (by simpa [hne] using hc)

/-- Handlers before one that has started are done, so it is the first open one. -/
theorem Inv.firstOpen (hi : Inv t s) (hk : s.handlers[k]? = some h) (hst : h.pc.started)
    (hopen : h.pc ≠ .done) : FirstOpen s.handlers k := by
  refine ⟨Nat.le_of_lt (Pool.lt_of_getElem? hk), fun j x hj hx => hi.ordered j k x h hj hx hk hst, ?_⟩
  intro x hx
  obtain rfl : h = x := by simpa [hk] using hx
  exact hopen

/-- The first open handler of a pool is one. -/
theorem FirstOpen.unique {pool : List Handler} {i j : Nat} (hi : FirstOpen pool i)
    (hj : FirstOpen pool j) : i = j := by
  by_contra hne
  wlog hlt : i < j generalizing i j
  · exact this hj hi (Ne.symm hne) (by omega)
  have hlen : i < pool.length := by have := hj.1; omega
  exact hi.2.2 _ (List.getElem?_eq_getElem hlen) (hj.2.1 i _ hlt (List.getElem?_eq_getElem hlen))

/-- Where the buffer is not touched, only a handler that gets past its copy is to be checked. -/
theorem Inv.written_move (hi : Inv t s) (hk : s.handlers[k]? = some h)
    (keep : pc.copied → h.pc.copied) (block : Block) (hb : s.data = some block) (i : Nat) (x : Handler)
    (hx : s.handlers[i]? = some x) (hc : (if i = k then pc else x.pc).copied) :
    Written block s.segs i := by
  by_cases hik : i = k
  · subst hik
    exact hi.written block hb i h hk (keep (by simpa using hc))
  · exact hi.written block hb i x hx (by simpa [hik] using hc)

theorem inv_handler {s' : State} (hi : Inv t s) (hok : InOrder s (.handler k))
    (hs : stepHandler s k = some s') : Inv t s' := by
  obtain ⟨h, hk, hs⟩ := Option.bind_eq_some_iff.mp hs
  have hmem : h ∈ s.handlers := List.mem_of_getElem? hk
  have hset : s.receiver ≠ .zero := by
    intro hz
    obtain ⟨hnone, htest⟩ := hi.early hz
    simp [InOrder, hk, htest h hmem, hnone] at hok
  have hcount : s.receiver.counting → ∀ i, FirstOpen s.handlers i →
      s.recvedSize = some (offset s.segs i) := hi.counted
  have hready : s.receiver.ready = false → s.data = none ∧ (h.pc.copied → h.chunk = []) :=
    fun hr => ⟨(hi.unready hr).1, (hi.unready hr).2.2 h hmem⟩
  cases hpc : h.pc with
  | test =>
    have hsome : s.recvedSize.isSome = true := by simpa [InOrder, hk, hpc] using hok
    simp only [hpc, hsome, if_true, Option.some.injEq] at hs
    subst hs
    exact hi.move hk hset s.recvedSize s.data (by rintro ⟨⟩) (by simp [hpc]) (by simp [hpc, HandlerPc.copied])
      (by simp) (by simp) (fun hc i hf => hcount hc i (hf.of_move hk (by simp [hpc]) (by simp)))
      (fun hr => ⟨(hready hr).1, (by rintro ⟨⟩)⟩) hi.size (hi.written_move hk (by rintro ⟨⟩))
  | read =>
    have hbefore : ∀ (j : Nat) (x : Handler), j < k → s.handlers[j]? = some x → x.pc = .done := by
      intro j x hj hx
      have hall : ∀ y ∈ s.handlers.take k, y.pc = .done := by simpa [InOrder, hk, hpc] using hok
      exact hall x (List.mem_of_getElem? (by rwa [List.getElem?_take_of_lt hj]))
    have hfirst : FirstOpen s.handlers k := by
      refine ⟨Nat.le_of_lt (Pool.lt_of_getElem? hk), hbefore, fun x hx => ?_⟩
      obtain rfl : h = x := by simpa [hk] using hx
      simp [hpc]
    -- a receiver that is through with its put has no handler left here
    have hrecved : s.recvedSize = some (offset s.segs k) := by
      refine hcount ?_ k hfirst
      by_contra hnot
      have hg : s.receiver.given := by
        cases hq : s.receiver <;> simp_all [Receiver.counting, Receiver.given]
      have := (hi.late hg).2 h hmem
      simp [hpc, HandlerPc.copied] at this
    simp only [hpc, hrecved, Option.getD_some, Option.some.injEq] at hs
    subst hs
    exact hi.move hk hset (some (offset s.segs k)) s.data (fun _ => hbefore) (by simp [hpc])
      (by simp [hpc, HandlerPc.copied]) (by rintro recved ⟨⟩; rfl) (by simp)
      (fun hc i hf => hrecved ▸ hcount hc i (hf.of_move hk (by simp [hpc]) (by simp)))
      (fun hr => ⟨(hready hr).1, (by rintro ⟨⟩)⟩) hi.size (hi.written_move hk (by rintro ⟨⟩))
  | copy recved =>
    have hoff : recved = offset s.segs k := hi.copying k h recved hk hpc
    have hbefore := hi.firstOpen hk (by simp [hpc, HandlerPc.started]) (by simp [hpc])
    cases hd : s.data with
    | some block =>
      simp only [hpc, hd, Option.ite_none_right_eq_some, Option.some.injEq] at hs
      obtain ⟨hroom, rfl⟩ := hs
      refine hi.move hk hset s.recvedSize (some (writeAt block recved h.chunk)) (fun _ => hbefore.2.1)
        (by simp [hpc]) (by simp [hpc, HandlerPc.copied]) (by simp) (by simp)
        (fun hc i hf => hcount hc i (hf.of_move hk (by simp [hpc]) (by simp))) ?_ ?_ ?_
      · intro hr
        simp [hd] at hready
        simp [hready] at hr
      · rintro _ ⟨⟩
        rw [Segments.writeAt_length hroom]
        exact hi.size block hd
      · rintro _ ⟨⟩ i x hx hc
        subst hoff
        refine Segments.written_writeAt (segs_get hk) hroom ?_
        by_cases hik : i = k
        · exact .inl hik
        · exact .inr (hi.written block hd i x hx (by simpa [hik] using hc))
    | none =>
      simp only [hpc, hd, Option.ite_none_right_eq_some, Option.some.injEq] at hs
      obtain ⟨hempty, rfl⟩ := hs
      exact hi.move hk hset s.recvedSize s.data (fun _ => hbefore.2.1) (by simp [hpc])
        (by simp [hpc, HandlerPc.copied]) (by simp) (by simp)
        (fun hc i hf => hcount hc i (hf.of_move hk (by simp [hpc]) (by simp)))
        (fun _ => ⟨hd, fun _ => hempty⟩) hi.size (by simp [hd])
  | readAdd =>
    have hfirst := hi.firstOpen hk (by simp [hpc, HandlerPc.started]) (by simp [hpc])
    simp only [hpc, Option.some.injEq] at hs
    subst hs
    refine hi.move hk hset s.recvedSize s.data (fun _ => hfirst.2.1) (by simp [hpc])
      (by simp [HandlerPc.copied]) (by simp) ?_
      (fun hc i hf => hcount hc i (hf.of_move hk (by simp [hpc]) (by simp)))
      (fun hr => ⟨(hready hr).1, fun _ => (hready hr).2 (by simp [hpc, HandlerPc.copied])⟩) hi.size
      (hi.written_move hk (by simp [hpc, HandlerPc.copied]))
    rintro hc n ⟨⟩
    rw [hcount hc k hfirst, Option.getD_some, Segments.offset_succ (segs_get hk)]
  | writeAdd n =>
    have hfirst := hi.firstOpen hk (by simp [hpc, HandlerPc.started]) (by simp [hpc])
    simp only [hpc, Option.some.injEq] at hs
    subst hs
    refine hi.move hk hset (some n) s.data (fun _ => hfirst.2.1) (by simp [hpc])
      (by simp [HandlerPc.copied]) (by simp) (by simp) ?_
      (fun hr => ⟨(hready hr).1, fun _ => (hready hr).2 (by simp [hpc, HandlerPc.copied])⟩) hi.size
      (hi.written_move hk (by simp [hpc, HandlerPc.copied]))
    -- the next handler is the first open one, as no later one has started
    intro hc i hf
    have hnext : FirstOpen (Pool.commit s.handlers k { h with pc := .done } []) (k + 1) := by
      refine ⟨?_, ?_, ?_⟩
      · have hlt := Pool.lt_of_getElem? hk
        simp only [Pool.commit, List.append_nil, List.length_set]
        omega
      · intro j x hj hx
        rcases Pool.commit_nil_cases hx with ⟨-, rfl⟩ | ⟨hne, hx⟩
        · rfl
        · exact hfirst.2.1 j x (by omega) hx
      · intro x hx hdone
        rcases Pool.commit_nil_cases hx with ⟨hlt, -⟩ | ⟨-, hx⟩
        · omega
        · have := hi.ordered k (k + 1) h x (by omega) hk hx (by simp [hdone, HandlerPc.started])
          simp [hpc] at this
    rw [hf.unique hnext, hi.adding hc k h n hk hpc]
  | done => simp [hpc] at hs
  | dropped => simp [hpc] at hs

end Moves

section Steps
variable {t : Transfer} {s s' : State}

/-- Steps that touch neither the handlers, the maps nor the buffer. -/
theorem Inv.same (hi : Inv t s) (syncer : Syncer.State UInt32) {r : Receiver}
    (hc : s.receiver.counting = r.counting) (hz : s.receiver ≠ .zero) (hg : s.receiver.given = r.given)
    (hr : s.receiver.ready = r.ready) : Inv t { s with syncer := syncer, receiver := r } := by
  refine { hi with
    adding := fun h => hi.adding (hc.trans h), counted := fun h => hi.counted (hc.trans h)
    early := ?_, late := fun h => hi.late (hg.trans h), unready := fun h => hi.unready (hr.trans h) }
  rintro rfl
  cases hq : s.receiver <;> simp_all [Receiver.counting, Receiver.given]

theorem inv_receiver (hcap : (t.capacity : Int) = t.announced) (hi : Inv t s)
    (hok : InOrder s .receiver) (hs : stepReceiver t s = some s') : Inv t s' := by
  cases hq : s.receiver with
  | zero =>
    simp only [stepReceiver, hq, Option.some.injEq] at hs
    subst hs
    obtain ⟨-, htest⟩ := hi.early hq
    refine { hi with adding := ?_, counted := ?_, early := by simp, late := by rintro ⟨⟩, unready := ?_ }
    · intro _ k h n hk hpc
      simp [htest h (List.mem_of_getElem? hk)] at hpc
    · intro _ k hf
      obtain rfl : k = 0 := by
        by_contra hne
        have hlen : 0 < s.handlers.length := by have := hf.1; simp at this; omega
        have hdone := hf.2.1 0 s.handlers[0] (by omega) (List.getElem?_eq_getElem hlen)
        simp [htest _ (List.getElem_mem hlen)] at hdone
      simp
    · exact fun _ => hi.unready (by simp [hq, Receiver.ready])
  | alloc =>
    simp only [stepReceiver, hq, Option.some.injEq] at hs
    subst hs
    obtain ⟨-, hhanded, hempty⟩ := hi.unready (by simp [hq, Receiver.ready])
    refine { hi with
      adding := fun _ => hi.adding (by simp [hq, Receiver.counting])
      counted := fun _ => hi.counted (by simp [hq, Receiver.counting])
      early := by simp, late := by rintro ⟨⟩, unready := by rintro ⟨⟩, size := ?_, written := ?_ }
    · rintro _ ⟨⟩; simp
    · intro _ _ k h hk hc i hlo hhi
      have hlen := Segments.offset_succ (segs_get hk)
      rw [hempty h (List.mem_of_getElem? hk) hc, List.length_nil] at hlen
      have hhi' : i < offset s.segs (k + 1) := hhi
      have hlo' : offset s.segs k ≤ i := hlo
      omega
  | add =>
    simp only [stepReceiver, hq, Option.some.injEq] at hs
    subst hs
    exact hi.same _ (by rw [hq]; rfl) (by simp [hq]) (by rw [hq]; rfl) (by rw [hq]; rfl)
  | wait =>
    simp only [stepReceiver, hq, Option.map_eq_some_iff] at hs
    obtain ⟨⟨cv, syncer⟩, -, rfl⟩ := hs
    exact hi.same _ (by rw [hq]; rfl) (by simp [hq]) (by rw [hq]; rfl) (by rw [hq]; rfl)
  | blocked cv =>
    simp only [stepReceiver, hq, Option.ite_none_left_eq_some, Option.some.injEq] at hs
    obtain ⟨-, rfl⟩ := hs
    exact hi.same _ (by rw [hq]; rfl) (by simp [hq]) (by rw [hq]; rfl) (by rw [hq]; rfl)
  | del =>
    simp only [stepReceiver, hq, Option.some.injEq] at hs
    subst hs
    exact hi.same _ (by rw [hq]; rfl) (by simp [hq]) (by rw [hq]; rfl) (by rw [hq]; rfl)
  | put =>
    simp only [stepReceiver, hq, Option.some.injEq] at hs
    subst hs
    obtain ⟨hthrough, hall⟩ := hok hq
    refine { hi with
      adding := fun _ => hi.adding (by simp [hq, Receiver.counting])
      counted := fun _ => hi.counted (by simp [hq, Receiver.counting])
      early := by simp, late := fun _ => ⟨hthrough, hall⟩, unready := by rintro ⟨⟩, given := ?_ }
    intro block hb
    have htext : s.segs.flatten = t.payload := by simpa [hi.through hthrough] using hi.text
    have hlen : block.length = s.segs.flatten.length := by
      have hsize := hi.size block hb
      have hsent := t.sent
      simp only [Transfer.announced] at hcap
      rw [htext]
      omega
    rw [← htext]
    refine Segments.eq_of_written hlen fun k hk => ?_
    have hk' : k < s.handlers.length := by simpa [State.segs] using hk
    exact hi.written block hb k _ (List.getElem?_eq_getElem hk') (hall _ (List.getElem_mem hk'))
  | free =>
    simp only [stepReceiver, hq, Option.some.injEq] at hs
    subst hs
    exact { hi with
      adding := fun _ => hi.adding (by simp [hq, Receiver.counting])
      counted := fun _ => hi.counted (by simp [hq, Receiver.counting])
      early := by simp, late := fun _ => hi.late (by simp [hq, Receiver.given])
      unready := by rintro ⟨⟩, size := by simp, written := by simp }
  | drop =>
    simp only [stepReceiver, hq, Option.some.injEq] at hs
    subst hs
    exact { hi with
      adding := by rintro ⟨⟩, counted := by rintro ⟨⟩, early := by simp
      late := fun _ => hi.late (by simp [hq, Receiver.given]), unready := by rintro ⟨⟩ }
  | done => simp [stepReceiver, hq] at hs

/-- The first open handler of a longer pool was so before, as a new one is not done. -/
theorem FirstOpen.of_append {pool : List Handler} {chunk : List UInt8} {k : Nat}
    (hf : FirstOpen (pool ++ [⟨chunk, .test⟩]) k) : FirstOpen pool k := by
  obtain ⟨hle, hbefore, hat⟩ := hf
  have hk : k ≤ pool.length := by
    by_contra hlt
    have hnew := hbefore pool.length ⟨chunk, .test⟩ (by omega) (by simp)
    simp at hnew
  refine ⟨hk, fun j h hj hh => hbefore j h hj ?_, fun h hh => hat h ?_⟩ <;>
    rwa [List.getElem?_append_left (Pool.lt_of_getElem? hh)]

/-- A chunk that can be read is part of what is left. -/
theorem toRecvSize_le {t : Int} (h : toRecvSize t ≤ t.toNat) :
    0 ≤ t ∧ (toRecvSize t : Int) ≤ t := by
  have hpos : 0 < tcpChunkSize := by decide
  unfold toRecvSize at h ⊢
  by_cases hsmall : 0 ≤ t ∧ t < tcpChunkSize
  · rw [if_pos hsmall] at h ⊢
    omega
  · rw [if_neg hsmall] at h ⊢
    omega

theorem inv_server {woken : Option Nat} (hi : Inv t s) (hs : stepServer t s woken = some s') :
    Inv t s' := by
  cases hq : s.server with
  | header =>
    simp only [stepServer, hq, Option.ite_none_right_eq_some, Option.some.injEq] at hs
    obtain ⟨-, rfl⟩ := hs
    have hlate : s.receiver.given → False := fun hg => by
      have := (hi.late hg).1
      simp [hq, Server.through] at this
    refine { hi with unread := by simp, left := ?_, through := by rintro ⟨⟩, late := fun hg => (hlate hg).elim }
    rintro total ⟨⟩
    rw [hi.unread hq]
    exact t.sent.symm
  | reading total =>
    simp only [stepServer, hq, Option.ite_none_right_eq_some, Option.some.injEq] at hs
    obtain ⟨hroom, rfl⟩ := hs
    have hlate : s.receiver.given → False := fun hg => by
      have := (hi.late hg).1
      simp [hq, Server.through] at this
    have hlen := hi.left total hq
    obtain ⟨hnonneg, hle⟩ := toRecvSize_le (t := total) (by omega)
    generalize toRecvSize total = n at *
    have hsegs : ∀ (server : Server) (stream : List UInt8), ({ s with
        stream := stream, handlers := s.handlers ++ [⟨s.stream.take n, .test⟩], server := server } :
        State).segs = s.segs ++ [s.stream.take n] := by simp [State.segs]
    have hoff : ∀ k, k ≤ s.handlers.length →
        offset (s.segs ++ [s.stream.take n]) k = offset s.segs k :=
      fun k hk => Segments.offset_append (by simpa [State.segs] using hk) _
    refine { hi with
      text := ?_, unread := ?_, left := ?_, through := ?_, ordered := ?_, copying := ?_, adding := ?_
      counted := ?_, early := ?_, late := fun hg => (hlate hg).elim, unready := ?_, written := ?_ }
    · rw [hsegs]
      simpa using hi.text
    · split <;> simp
    · intro left hleft
      split at hleft
      · cases hleft
      · cases hleft
        rw [List.length_drop]
        omega
    · intro hthrough
      split at hthrough
      · apply List.drop_eq_nil_of_le
        omega
      · cases hthrough
    · intro j k hj hk hlt hgj hgk hst
      rcases Pool.append_cases hgk with hgk | ⟨rfl, rfl⟩
      · rcases Pool.append_cases hgj with hgj | ⟨rfl, rfl⟩
        · exact hi.ordered j k hj hk hlt hgj hgk hst
        · have := Pool.lt_of_getElem? hgk
          omega
      · cases hst
    · intro k h recved hk hpc
      rcases Pool.append_cases hk with hk | ⟨rfl, rfl⟩
      · rw [hsegs, hoff k (Nat.le_of_lt (Pool.lt_of_getElem? hk))]
        exact hi.copying k h recved hk hpc
      · cases hpc
    · intro hc k h m hk hpc
      rcases Pool.append_cases hk with hk | ⟨rfl, rfl⟩
      · rw [hsegs, hoff (k + 1) (Pool.lt_of_getElem? hk)]
        exact hi.adding hc k h m hk hpc
      · cases hpc
    · intro hc k hf
      rw [hsegs, hoff k hf.of_append.1]
      exact hi.counted hc k hf.of_append
    · intro hz
      refine ⟨(hi.early hz).1, fun h hh => ?_⟩
      rcases List.mem_append.mp hh with hh | hh
      · exact (hi.early hz).2 h hh
      · rw [List.mem_singleton.mp hh]
    · intro hr
      obtain ⟨hd, hhanded, hempty⟩ := hi.unready hr
      refine ⟨hd, hhanded, fun h hh hc => ?_⟩
      rcases List.mem_append.mp hh with hh | hh
      · exact hempty h hh hc
      · rw [List.mem_singleton.mp hh] at hc
        cases hc
    · intro block hb k h hk hc
      rcases Pool.append_cases hk with hk | ⟨rfl, rfl⟩
      · rw [hsegs]
        exact (hi.written block hb k h hk hc).append
          (by simpa [State.segs] using Pool.lt_of_getElem? hk) _
      · cases hc
  | notify =>
    simp only [stepServer, hq, Option.map_eq_some_iff] at hs
    obtain ⟨syncer, -, rfl⟩ := hs
    exact { hi with
      unread := by simp, left := by simp, through := fun _ => hi.through (by simp [hq, Server.through])
      late := fun hg => ⟨rfl, (hi.late hg).2⟩ }
  | done => simp [stepServer, hq] at hs

theorem inv_step {a : Action} (hcap : (t.capacity : Int) = t.announced) (hi : Inv t s)
    (hok : InOrder s a) (hs : step t s a = some s') : Inv t s' := by
  cases a with
  | receiver => exact inv_receiver hcap hi hok hs
  | server woken => exact inv_server hi hs
  | handler k => exact inv_handler hi hok hs
  | spurious =>
    cases hq : s.receiver with
    | blocked cv =>
      simp only [step, hq, Option.map_eq_some_iff] at hs
      obtain ⟨syncer, -, rfl⟩ := hs
      exact hi.same _ (by rw [hq]) (by simp [hq]) (by rw [hq]) (by rw [hq])
    | _ => simp [step, hq] at hs

end Steps

/-- A buffer as long as announced is handed on as the payload when the handlers
run in order and all copies come before the put. -/
theorem in_order_reassembled (t : Transfer) (hcap : (t.capacity : Int) = t.announced) {s : State}
    (hr : Reaches (step t) InOrder (init t) s) : Reassembled t s := by
  have hi := hr.invariant (Inv t) (inv_init t) fun _ _ _ hi hok hs => inv_step hcap hi hok hs
  intro block hb
  obtain rfl := hi.given block hb
  refine ⟨rfl, ?_⟩
  have hsent := t.sent
  simp only [Transfer.announced] at hcap ⊢
  simp only [List.length_map]
  omega

/-- One byte, sent as the data of `d_0`. -/
def oneByte : Transfer := ⟨"d_0", 1, .char, 1, [7], by decide⟩

/-- The receiver is notified while the only chunk is still with its handler. -/
theorem put_before_copy :
    ¬ ∀ s, Reaches (step oneByte) free (init oneByte) s → Reassembled oneByte s := by
  intro h
  obtain ⟨s, hs, hhanded⟩ := Transition.run_reaches_of_any (step oneByte) (init oneByte)
    [.receiver, .receiver, .receiver, .receiver, .server none, .server none, .server (some 0),
      .receiver, .receiver, .receiver]
    (fun s => decide (s.handed = some [none])) (by decide)
  have hblock := (h s hs _ (of_decide_eq_true hhanded)).1
  simp [oneByte] at hblock

theorem one_byte_reassembled :
    ∃ s, s.handed = some [some 7] ∧ Reassembled oneByte s := by
  obtain ⟨s, hs, hhanded⟩ := Transition.runWhere_reaches_of_any (step oneByte) InOrder (init oneByte)
    [.receiver, .receiver, .receiver, .receiver, .server none, .server none, .server (some 0),
      .handler 0, .handler 0, .handler 0, .handler 0, .handler 0, .receiver, .receiver, .receiver]
    (fun s => decide (s.handed = some [some 7])) (by decide)
  exact ⟨s, of_decide_eq_true hhanded, in_order_reassembled oneByte (by decide) hs⟩

end Reassembly
