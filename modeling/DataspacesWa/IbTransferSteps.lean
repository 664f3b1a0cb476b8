import DataspacesWa.IbTransfer

/-!
# Steps of the Infiniband transfer

At every moment one of the two ends is at work for one item: `Place` says where
that item is, and `Inv` what the rest of the state is then.
-/
namespace IbTransfer

open Transition (Reaches free run)
open IbHeader (RdmaDataT)
open ByteCount (bufferSize)

/-! ## The server -/

/-- After `k` chunks. -/
structure Receiving (t : Transfer) (k : Nat) (v : Server) : Prop where
  lt : k < (chunks t.data).length
  recvState : v.recvState = .dataRecv
  dataT : v.dataT = RdmaDataT.data.char
  dataId : v.dataId = t.dataId
  dataSizeToRecv : v.dataSizeToRecv = t.dataSize
  dataToRecv : v.dataToRecv = ((chunks t.data).take k).flatten
  dataSizeRecved : v.dataSizeRecved = v.dataToRecv.length

/-- After `j` items, more of which are to come. -/
structure Serving (t : Transfer) (j : Nat) (v : Server) : Prop where
  calls : v.calls = []
  ended : v.ended = false
  msgId : v.msgId ≠ .done
  header : j < 2 → v.recvState = .headerRecv
  data : ∀ k, j = k + 2 → Receiving t k v

/-- After the last chunk. -/
structure Served (m : Memory) (t : Transfer) (j : Nat) (v : Server) : Prop where
  calls : v.calls = [t.call]
  ended : v.ended = true
  last : j = (chunks t.data).length + 2
  sends : Sends m t

section Serve
variable {m : Memory} {t : Transfer} {v : Server} {j : Nat} {i : Item} {remote : List UInt8}

/-- The server is asked for the next item, or done. -/
def Answers (m : Memory) (t : Transfer) (j : Nat) (r : Server × List MessageId) : Prop :=
  r.2 = [.readyToRecv] ∧ Serving t j r.1 ∨ r.2 = [.done] ∧ Served m t j r.1

theorem serve_init (hv : Serving t 0 v) (rest : List UInt8) :
    ∃ r, onCompletion m.after (RdmaDataT.init.char :: rest) 2 v = some r ∧ Answers m t 1 r := by
  have hproc : IbHeader.procHeader m.after (RdmaDataT.init.char :: rest) = some ⟨RdmaDataT.init.char, none, none⟩ := rfl
  rw [onCompletion, if_neg (by decide), if_neg hv.msgId, hv.header (by decide)]
  dsimp only
  rw [hproc, Option.map_some]
  refine ⟨_, rfl, .inl ⟨rfl, ?_⟩⟩
  rw [if_neg (by decide)]
  exact ⟨hv.calls, hv.ended, by simp [Server.ready], fun _ => hv.header (by decide), fun k hk => absurd hk (by omega)⟩

theorem serve_header {header : List UInt8} (hv : Serving t 1 v)
    (hmake : IbHeader.makeHeader (m.fresh 1) .data t.dataId t.dataSize = some header) (rest : List UInt8) :
    ∃ r, onCompletion m.after (header ++ rest) header.length v = some r ∧ Answers m t 2 r := by
  have hproc := IbHeader.procHeader_makeHeader m.after t.carried_data hmake rest
  have hlen := length_makeHeader hmake
  rw [onCompletion, if_neg (by rw [hlen]; decide), if_neg hv.msgId, hv.header (by decide)]
  dsimp only
  rw [hproc, Option.map_some]
  refine ⟨_, rfl, .inl ⟨rfl, ?_⟩⟩
  rw [if_pos (.inr rfl)]
  refine ⟨hv.calls, hv.ended, by simp [Server.ready], fun h => absurd h (by decide), fun k hk => ?_⟩
  obtain rfl : k = 0 := by omega
  have hpos := List.length_pos_of_ne_nil (chunks_ne_nil t.nonempty)
  exact ⟨hpos, rfl, rfl, rfl, rfl, rfl, rfl⟩

theorem length_flatten_take_succ {k : Nat} {chunk : List UInt8} (hk : (chunks t.data)[k]? = some chunk) :
    (((chunks t.data).take (k + 1)).flatten) = ((chunks t.data).take k).flatten ++ chunk := by
  rw [List.take_add_one, hk, List.flatten_append]
  simp

/-- The chunks before the last do not make up the data. -/
theorem length_flatten_take {k : Nat} (hk : k ≤ (chunks t.data).length) :
    (((chunks t.data).take k).flatten).length ≤ t.data.length ∧
      ((((chunks t.data).take k).flatten).length = t.data.length ↔ k = (chunks t.data).length) := by
  have hsplit : ((chunks t.data).take k).flatten ++ ((chunks t.data).drop k).flatten = t.data := by
    rw [← List.flatten_append, List.take_append_drop, chunks_flatten]
  have hlen := congrArg List.length hsplit
  rw [List.length_append] at hlen
  refine ⟨by omega, ?_⟩
  constructor
  · intro heq
    by_contra hne
    have hlt : k < (chunks t.data).length := by omega
    obtain ⟨chunk, hchunk⟩ : ∃ chunk, (chunks t.data)[k]? = some chunk := ⟨_, List.getElem?_eq_getElem hlt⟩
    have hpos := (length_of_mem_chunks (List.mem_of_getElem? hchunk)).1
    rw [List.drop_eq_getElem_cons hlt, List.flatten_cons, List.length_append] at hlen
    rw [List.getElem?_eq_getElem hlt, Option.some.injEq] at hchunk
    rw [hchunk] at hlen
    omega
  · rintro rfl
    rw [List.drop_length, List.flatten_nil, List.length_nil] at hlen
    omega

theorem serve_chunk {k : Nat} {chunk : List UInt8} (hv : Serving t (k + 2) v) (hsends : Sends m t)
    (hk : (chunks t.data)[k]? = some chunk) (rest : List UInt8) :
    ∃ r, onCompletion m.after (chunk ++ rest) chunk.length v = some r ∧ Answers m t (k + 3) r := by
  have hr := hv.data k rfl
  have hpos := (length_of_mem_chunks (List.mem_of_getElem? hk)).1
  have htake := length_flatten_take_succ hk
  have hnext := length_flatten_take (t := t) (k := k + 1) hr.lt
  have hlen : v.dataSizeRecved + chunk.length = (((chunks t.data).take (k + 1)).flatten).length := by
    rw [htake, List.length_append, hr.dataSizeRecved, hr.dataToRecv]
  have hsize : v.dataSizeToRecv.toNat = t.data.length := by rw [hr.dataSizeToRecv, t.toNat_dataSize]
  have hmsg : ¬ v.dataT = RdmaDataT.msg.char := by rw [hr.dataT]; decide
  rw [onCompletion, if_neg (by omega), if_neg hv.msgId, hr.recvState]
  dsimp only
  rw [if_neg hmsg, if_pos hr.dataT, hsize, hlen, if_neg (by omega), List.take_left' rfl, hr.dataToRecv, ← htake]
  by_cases hlast : k + 1 = (chunks t.data).length
  · have hall : ((chunks t.data).take (k + 1)).flatten = t.data := by
      rw [hlast, List.take_length, chunks_flatten]
    rw [if_pos (hnext.2.mpr hlast), hall, hr.dataId, hv.calls]
    exact ⟨_, rfl, .inr ⟨rfl, rfl, rfl, by omega, hsends⟩⟩
  · rw [if_neg fun heq => hlast (hnext.2.mp heq)]
    refine ⟨_, rfl, .inl ⟨rfl, hv.calls, hv.ended, by simp [Server.ready], fun h => absurd h (by omega), fun k' hk' => ?_⟩⟩
    obtain rfl : k' = k + 1 := by omega
    have hlt := hr.lt
    exact ⟨by omega, rfl, hr.dataT, hr.dataId, hr.dataSizeToRecv, rfl, rfl⟩

theorem Serving.lt (h : Serving t j v) : j < (chunks t.data).length + 2 := by
  have hpos := List.length_pos_of_ne_nil (chunks_ne_nil t.nonempty)
  by_cases hj : j < 2
  · omega
  · have := (h.data (j - 2) (by omega)).lt
    omega

/-- Every item but the end indicator is answered. -/
theorem serve_item (hv : Serving t j v) (hi : (items m t)[j]? = some i) (hplain : i.bytes ≠ endIndicator)
    (hremote : i.bytes <+: remote) :
    ∃ r, onCompletion m.after remote i.bytes.length v = some r ∧ Answers m t (j + 1) r := by
  obtain ⟨rest, rfl⟩ := hremote
  rcases items_get hi with ⟨rfl, rfl⟩ | ⟨header, hmake, ⟨rfl, rfl⟩ | ⟨k, chunk, rfl, hchunk, rfl⟩ | ⟨-, rfl⟩⟩
  · exact serve_init hv (0 :: rest)
  · exact serve_header hv hmake rest
  · exact serve_chunk hv ⟨header, hmake⟩ hchunk rest
  · exact absurd rfl hplain

end Serve

/-! ## Places -/

/-- Where the item in work is; before and after that, which end is to go on. -/
inductive Place where
  | handshake | start | look | wait | blocked | take
  | hold : Item → Place
  | copied : Item → Place
  | posted : Item → Place
  | landed : Item → Place
  | ready | served | closed
  | marked : Item → Place

/-- The parts of a state that its place determines. -/
structure View where
  senders : List Sender
  markers : List Item
  posted : List Nat
  landed : List Nat
  messages : List MessageId
  disconnected : Bool

def State.view (s : State) : View := ⟨s.senders, s.markers, s.posted, s.landed, s.messages, s.disconnected⟩

def Place.view : Place → View
  | handshake => ⟨[], [], [], [], [.mr], false⟩
  | start => ⟨[], [], [], [], [], false⟩
  | look => ⟨[.look], [], [], [], [], false⟩
  | wait => ⟨[.wait], [], [], [], [], false⟩
  | blocked => ⟨[.blocked], [], [], [], [], false⟩
  | take => ⟨[.take], [], [], [], [], false⟩
  | hold i => ⟨[.holding i], [], [], [], [], false⟩
  | copied i => ⟨[.copied i.bytes.length], [], [], [], [], false⟩
  | posted i => ⟨[], [], [i.bytes.length], [], [], false⟩
  | landed i => ⟨[], [], [], [i.bytes.length], [], false⟩
  | ready => ⟨[], [], [], [], [.readyToRecv], false⟩
  | served => ⟨[], [], [], [], [.done], false⟩
  | closed => ⟨[], [], [], [], [], true⟩
  | marked i => ⟨[], [i], [], [], [], false⟩

def Place.user : Place → User → Prop
  | handshake, u => u = .created ∨ u = .added ∨ u = .waitInit
  | start, u => u = .start
  | _, u => ∃ rest, u = .push rest ∨ u = .signal rest

/-- The item that has left the queue and is not served. -/
def Place.item : Place → Option Item
  | hold i | copied i | posted i | landed i | marked i => some i
  | _ => none

/-- The item that is not the end indicator. -/
def Place.passed : Place → Option Item
  | copied i | posted i | landed i => some i
  | _ => none

def Place.over : Place → Bool
  | served | closed => true
  | _ => false

/-- What is still to be pushed. -/
def User.left (all : List Item) : User → List Item
  | created | added | waitInit | start => all
  | push rest | signal rest => rest

/-- `j` items are served, and what follows is at its place. -/
structure Inv (m : Memory) (t : Transfer) (s : State) (p : Place) (j : Nat) : Prop where
  view : s.view = p.view
  user : p.user s.user
  queue : (items m t).drop (j + p.item.toList.length) = s.queue ++ s.user.left (items m t)
  filled : p = .take → s.queue ≠ []
  /-- A thread that waits has a notification to come. -/
  attended : p = .wait ∨ p = .blocked → Sends m t → s.user ≠ .push []
  item : ∀ i, p.item = some i → (items m t)[j]? = some i
  passed : ∀ i, p.passed = some i → i.bytes ≠ endIndicator
  buffer : ∀ i, p = .copied i ∨ p = .posted i → i.bytes <+: s.buffer
  remote : ∀ i, p = .landed i → i.bytes <+: s.remote
  marked : ∀ i, p = .marked i → i.bytes = endIndicator
  serving : p.over = false → Serving t j s.server
  served : p.over = true → Served m t j s.server
  clean : ∀ i ∈ (items m t).take j, i.bytes ≠ endIndicator

section Steps
variable {m : Memory} {t : Transfer} {s s' : State} {p : Place} {j : Nat}

theorem inv_init (m : Memory) (t : Transfer) : Inv m t (init m) .handshake 0 where
  view := rfl
  user := .inl rfl
  queue := rfl
  filled := by simp
  attended := by simp
  item := by simp [Place.item]
  passed := by simp [Place.passed]
  buffer := by simp
  remote := by simp
  marked := by simp
  serving _ := ⟨rfl, rfl, by simp [init], fun _ => rfl, fun k hk => absurd hk (by omega)⟩
  served h := absurd h (by simp [Place.over])
  clean := by simp

theorem Place.eq_handshake {u : User} (h : p.user u) (hu : u = .created ∨ u = .added ∨ u = .waitInit) :
    p = .handshake := by
  cases p with
  | handshake => rfl
  | start =>
    cases h
    simp at hu
  | _ =>
    obtain ⟨rest, rfl | rfl⟩ := h <;> simp at hu

theorem Place.user_goOn {u u' : User} {rest rest' : List Item} (h : p.user u) (hu : u = .push rest ∨ u = .signal rest)
    (hu' : u' = .push rest' ∨ u' = .signal rest') : p.user u' := by
  cases p with
  | handshake | start => rcases hu with rfl | rfl <;> simp [Place.user] at h
  | _ => exact ⟨rest', hu'⟩

theorem inv_user (hi : Inv m t s p j) (h : stepUser m t s = some s') : ∃ p' j', Inv m t s' p' j' := by
  have hp := hi.user
  have hqueue := hi.queue
  rw [stepUser] at h
  split at h
  next huser =>
    obtain rfl := Option.some.inj h
    rw [huser] at hp hqueue
    obtain rfl := Place.eq_handshake hp (.inl rfl)
    exact ⟨.handshake, j, { hi with user := .inr (.inl rfl), queue := hqueue, attended := by simp }⟩
  next huser =>
    obtain rfl := Option.some.inj h
    rw [huser] at hp hqueue
    obtain rfl := Place.eq_handshake hp (.inr (.inl rfl))
    exact ⟨.handshake, j, { hi with user := .inr (.inr rfl), queue := hqueue, attended := by simp }⟩
  next => cases h
  next huser =>
    obtain rfl := Option.some.inj h
    rw [huser] at hp hqueue
    cases p with
    | start =>
      have hview := hi.view
      simp only [State.view, Place.view, View.mk.injEq] at hview
      exact ⟨.look, j,
        { view := by simp [State.view, Place.view, hview]
          user := ⟨_, .inl rfl⟩
          queue := hqueue
          filled := by simp
          attended := by simp
          item := by simp [Place.item]
          passed := by simp [Place.passed]
          buffer := by simp
          remote := by simp
          marked := by simp
          serving := fun _ => hi.serving rfl
          served := fun hover => absurd hover (by simp [Place.over])
          clean := hi.clean }⟩
    | handshake => simp [Place.user] at hp
    | _ => obtain ⟨rest, hrest | hrest⟩ := hp <;> cases hrest
  next item rest huser =>
    obtain rfl := Option.some.inj h
    rw [huser] at hp hqueue
    refine ⟨p, j, { hi with
      user := Place.user_goOn hp (.inl rfl) (.inr rfl)
      queue := ?_
      filled := ?_
      attended := by simp }⟩
    · rw [hqueue, User.left, User.left, List.append_assoc, List.singleton_append]
    · intro _ hnil
      exact absurd (List.append_eq_nil_iff.mp hnil).2 (List.cons_ne_nil _ _)
  next => cases h
  next => cases h

theorem sender_at {k : Nat} {sender : Sender} (hi : Inv m t s p j) (hk : s.senders[k]? = some sender) :
    k = 0 ∧ s.senders = [sender] ∧ p.view.senders = [sender] := by
  have hsenders : s.senders = p.view.senders := congrArg View.senders hi.view
  rw [hsenders] at hk ⊢
  cases p with
  | look | wait | blocked | take | hold i | copied i =>
    simp only [Place.view, List.getElem?_singleton, Option.ite_none_right_eq_some, Option.some.injEq] at hk
    obtain ⟨rfl, rfl⟩ := hk
    exact ⟨rfl, rfl, rfl⟩
  | _ => cases hk

/-- While the item in work is not served, there is another behind it. -/
theorem lt_items (hi : Inv m t s p j) (hover : p.over = false) (hsends : Sends m t) : j + 1 < (items m t).length := by
  have hlt := (hi.serving hover).lt
  rw [items_length hsends]
  omega

theorem inv_woken {k : Nat} (hi : Inv m t s p j) (hk : s.senders[k]? = some .blocked) :
    p = .blocked ∧ Inv m t { s with senders := s.senders.set k .look } .look j := by
  obtain ⟨rfl, hsenders, hplace⟩ := sender_at hi hk
  have hview := hi.view
  cases p with
  | blocked =>
    simp only [State.view, Place.view, View.mk.injEq] at hview
    exact ⟨rfl,
      { hi with
        view := by simp [State.view, Place.view, hview]
        filled := by simp
        attended := by simp
        buffer := by simp
        remote := by simp
        marked := by simp }⟩
  | _ => simp [Place.view] at hplace

/-- The last notification finds the thread that waits. -/
theorem inv_signal {woken : Option Nat} (hi : Inv m t s p j) (hok : Heard s (.signal woken))
    (h : stepSignal s woken = some s') : ∃ p' j', Inv m t s' p' j' := by
  have hqueue := hi.queue
  obtain ⟨rest, huser, ⟨hnone, rfl⟩ | ⟨k, hwake⟩⟩ := stepSignal_cases h
  · rw [huser] at hqueue
    refine ⟨p, j, { hi with
      user := Place.user_goOn hi.user (.inr huser) (.inl rfl)
      queue := hqueue
      attended := ?_ }⟩
    have hsenders : s.senders = p.view.senders := congrArg View.senders hi.view
    rintro (rfl | rfl) - hdone
    · rw [User.push.inj hdone] at huser
      exact hok huser (by simp [hsenders, Place.view])
    · exact hnone (by simp [hsenders, Place.view])
  · obtain ⟨hk, rfl⟩ := wake_cases hwake
    obtain ⟨rfl, hlook⟩ := inv_woken hi hk
    rw [huser] at hqueue
    exact ⟨.look, j, { hlook with
      user := ⟨rest, .inl rfl⟩
      queue := hqueue
      attended := by simp }⟩

theorem inv_spurious {k : Option Nat} (hi : Inv m t s p j) (hok : Heard s (.spurious k))
    (h : stepSpurious s k = some s') : ∃ p' j', Inv m t s' p' j' := by
  cases k with
  | none => exact absurd rfl hok
  | some k =>
    obtain ⟨hk, rfl⟩ := wake_cases h
    exact ⟨.look, j, (inv_woken hi hk).2⟩

theorem inv_sender {k : Nat} (hi : Inv m t s p j) (h : stepSender s k = some s') : ∃ p' j', Inv m t s' p' j' := by
  obtain ⟨sender, hk, h⟩ := Option.bind_eq_some_iff.mp h
  obtain ⟨rfl, hsenders, hplace⟩ := sender_at hi hk
  have hview := hi.view
  cases sender with
  | look =>
    cases p with
    | look =>
      obtain rfl := Option.some.inj h
      simp only [State.view, Place.view, View.mk.injEq] at hview
      by_cases hempty : s.queue = []
      · exact ⟨.wait, j,
          { hi with
            view := by simp [State.view, Place.view, hview, hempty]
            filled := by simp
            attended := by
              intro _ hsends hdone
              have hdrop := hi.queue
              have hlt := lt_items hi rfl hsends
              rw [hempty, show s.user = .push [] from hdone] at hdrop
              have hle : (items m t).length ≤ j := List.drop_eq_nil_iff.mp hdrop
              omega
            buffer := by simp
            remote := by simp
            marked := by simp }⟩
      · exact ⟨.take, j,
          { hi with
            view := by simp [State.view, Place.view, hview, hempty]
            filled := fun _ => hempty
            attended := by simp
            buffer := by simp
            remote := by simp
            marked := by simp }⟩
    | _ => simp [Place.view] at hplace
  | wait =>
    cases p with
    | wait =>
      obtain rfl := Option.some.inj h
      simp only [State.view, Place.view, View.mk.injEq] at hview
      exact ⟨.blocked, j,
        { hi with
          view := by simp [State.view, Place.view, hview]
          filled := by simp
          attended := fun _ => hi.attended (.inl rfl)
          buffer := by simp
          remote := by simp
          marked := by simp }⟩
    | _ => simp [Place.view] at hplace
  | blocked => cases h
  | take =>
    cases p with
    | take =>
      dsimp only at h
      split at h
      next => cases h
      next item rest hqueue =>
        obtain rfl := Option.some.inj h
        have hdrop := hi.queue
        rw [hqueue, List.cons_append] at hdrop
        have hitem : (items m t)[j]? = some item := by
          rw [← Nat.add_zero j, ← List.getElem?_drop]
          exact (congrArg (fun l => l[0]?) hdrop).trans rfl
        simp only [State.view, Place.view, View.mk.injEq] at hview
        exact ⟨.hold item, j,
          { view := by simp [State.view, Place.view, hview]
            user := hi.user
            queue := by
              show (items m t).drop (j + 1) = _
              rw [← List.tail_drop]
              exact congrArg List.tail hdrop
            filled := by simp
            attended := by simp
            item := fun i heq => Option.some.inj heq ▸ hitem
            passed := by simp [Place.passed]
            buffer := by simp
            remote := by simp
            marked := by simp
            serving := fun _ => hi.serving rfl
            served := fun hover => absurd hover (by simp [Place.over])
            clean := hi.clean }⟩
    | _ => simp [Place.view] at hplace
  | holding item =>
    cases p with
    | hold i =>
      obtain rfl : i = item := by simpa [Place.view] using hplace
      dsimp only at h
      simp only [State.view, Place.view, View.mk.injEq] at hview
      split at h
      next hmark =>
        obtain rfl := Option.some.inj h
        exact ⟨.marked i, j,
          { hi with
            view := by simp [State.view, Place.view, hview]
            filled := by simp
            attended := by simp
            passed := by simp [Place.passed]
            buffer := by simp
            remote := by simp
            marked := fun i' heq => by
              cases heq
              exact hmark }⟩
      next hplain =>
        obtain ⟨-, h⟩ := Option.ite_none_left_eq_some.mp h
        obtain rfl := Option.some.inj h
        exact ⟨.copied i, j,
          { hi with
            view := by simp [State.view, Place.view, hview]
            filled := by simp
            attended := by simp
            passed := fun i' heq => Option.some.inj heq ▸ hplain
            buffer := fun i' heq => by
              rcases heq with heq | heq <;> cases heq
              exact List.prefix_append _ _
            remote := by simp
            marked := by simp }⟩
    | _ => simp [Place.view] at hplace
  | copied size =>
    cases p with
    | copied i =>
      obtain rfl : i.bytes.length = size := by simpa [Place.view] using hplace
      obtain rfl := Option.some.inj h
      have hlen := (length_item (hi.item i rfl)).2
      have hword : i.bytes.length % 2 ^ 32 = i.bytes.length := by
        rw [bufferSize] at hlen
        exact Nat.mod_eq_of_lt (by omega)
      simp only [State.view, Place.view, View.mk.injEq] at hview
      exact ⟨.posted i, j,
        { hi with
          view := by
            rw [hword]
            simp [State.view, Place.view, hview]
          filled := by simp
          attended := by simp
          buffer := fun i' heq => hi.buffer i' (by
            rcases heq with heq | heq <;> cases heq
            exact .inl rfl)
          remote := by simp
          marked := by simp }⟩
    | _ => simp [Place.view] at hplace

theorem inv_client (hi : Inv m t s p j) (hok : Heard s .client) (h : stepClient s = some s') :
    ∃ p' j', Inv m t s' p' j' := by
  have hview := hi.view
  have hmessages : s.messages = p.view.messages := congrArg View.messages hi.view
  rw [stepClient] at h
  split at h
  next => cases h
  next =>
    split at h
    next => cases h
    next rest heq =>
      obtain rfl := Option.some.inj h
      have huser : s.user = .waitInit := hok (by rw [heq]; rfl)
      rw [hmessages] at heq
      cases p with
      | handshake =>
        obtain rfl : [] = rest := by simpa [Place.view] using heq
        have hqueue := hi.queue
        rw [huser] at hqueue
        simp only [State.view, Place.view, View.mk.injEq] at hview
        exact ⟨.start, j,
          { hi with
            view := by simp [State.view, Place.view, hview]
            user := by simp [Place.user, huser]
            queue := by
              rw [if_pos huser]
              exact hqueue
            filled := by simp
            attended := by simp
            buffer := by simp
            remote := by simp
            marked := by simp }⟩
      | _ => simp [Place.view] at heq
    next rest heq =>
      obtain rfl := Option.some.inj h
      rw [hmessages] at heq
      cases p with
      | ready =>
        obtain rfl : [] = rest := by simpa [Place.view] using heq
        simp only [State.view, Place.view, View.mk.injEq] at hview
        exact ⟨.look, j,
          { hi with
            view := by simp [State.view, Place.view, hview]
            filled := by simp
            attended := by simp
            buffer := by simp
            remote := by simp
            marked := by simp }⟩
      | _ => simp [Place.view] at heq
    next rest heq =>
      obtain rfl := Option.some.inj h
      rw [hmessages] at heq
      cases p with
      | served =>
        obtain rfl : [] = rest := by simpa [Place.view] using heq
        simp only [State.view, Place.view, View.mk.injEq] at hview
        exact ⟨.closed, j,
          { hi with
            view := by simp [State.view, Place.view, hview]
            filled := by simp
            attended := by simp
            buffer := by simp
            remote := by simp
            marked := by simp }⟩
      | _ => simp [Place.view] at heq

theorem inv_land (hi : Inv m t s p j) (h : stepLand s = some s') : ∃ p' j', Inv m t s' p' j' := by
  have hview := hi.view
  have hposted : s.posted = p.view.posted := congrArg View.posted hi.view
  rw [stepLand] at h
  split at h
  next => cases h
  next size rest heq =>
    obtain rfl := Option.some.inj h
    rw [hposted] at heq
    cases p with
    | posted i =>
      obtain ⟨rfl, rfl⟩ : i.bytes.length = size ∧ [] = rest := by simpa [Place.view] using heq
      obtain ⟨behind, hbuffer⟩ := hi.buffer i (.inr rfl)
      simp only [State.view, Place.view, View.mk.injEq] at hview
      exact ⟨.landed i, j,
        { hi with
          view := by simp [State.view, Place.view, hview]
          filled := by simp
          attended := by simp
          buffer := by simp
          remote := fun i' heq => by
            cases heq
            show i.bytes <+: copyTo s.remote (s.buffer.take i.bytes.length)
            rw [← hbuffer, List.take_left' rfl]
            exact List.prefix_append _ _
          marked := by simp }⟩
    | _ => simp [Place.view] at heq

theorem inv_server (hi : Inv m t s p j) (h : stepServer m s = some s') : ∃ p' j', Inv m t s' p' j' := by
  have hview := hi.view
  have hlanded : s.landed = p.view.landed := congrArg View.landed hi.view
  rw [stepServer] at h
  split at h
  next => cases h
  next =>
    split at h
    next => cases h
    next size rest heq =>
      rw [hlanded] at heq
      cases p with
      | landed i =>
        obtain ⟨rfl, rfl⟩ : i.bytes.length = size ∧ [] = rest := by simpa [Place.view] using heq
        have hitem := hi.item i rfl
        have hplain := hi.passed i rfl
        obtain ⟨r, hr, hanswer⟩ := serve_item (hi.serving rfl) hitem hplain (hi.remote i rfl)
        rw [hr, Option.map_some] at h
        obtain rfl := Option.some.inj h
        have hclean : ∀ i' ∈ (items m t).take (j + 1), i'.bytes ≠ endIndicator := by
          intro i' hmem
          rw [List.take_add_one, hitem, List.mem_append] at hmem
          rcases hmem with hmem | hmem
          · exact hi.clean i' hmem
          · obtain rfl := List.mem_singleton.mp hmem
            exact hplain
        simp only [State.view, Place.view, View.mk.injEq] at hview
        rcases hanswer with ⟨hmessage, hserving⟩ | ⟨hmessage, hserved⟩
        · exact ⟨.ready, j + 1,
            { view := by simp [State.view, Place.view, hview, hmessage]
              user := hi.user
              queue := hi.queue
              filled := by simp
              attended := by simp
              item := by simp [Place.item]
              passed := by simp [Place.passed]
              buffer := by simp
              remote := by simp
              marked := by simp
              serving := fun _ => hserving
              served := fun hover => absurd hover (by simp [Place.over])
              clean := hclean }⟩
        · exact ⟨.served, j + 1,
            { view := by simp [State.view, Place.view, hview, hmessage]
              user := hi.user
              queue := hi.queue
              filled := by simp
              attended := by simp
              item := by simp [Place.item]
              passed := by simp [Place.passed]
              buffer := by simp
              remote := by simp
              marked := by simp
              serving := fun hover => absurd hover (by simp [Place.over])
              served := fun _ => hserved
              clean := hclean }⟩
      | _ => simp [Place.view] at heq

/-- Where a send returns zero its completion changes nothing. -/
theorem inv_sent (hi : Inv m t s p j) (h : stepSent false s = some s') : ∃ p' j', Inv m t s' p' j' := by
  rw [stepSent] at h
  split at h
  next => cases h
  next hopen =>
    obtain rfl := Option.some.inj h
    have hended : s.server.ended = false := by
      rw [not_or] at hopen
      simpa using hopen.1
    have hsame : { s.server with ended := false } = s.server := by rw [← hended]
    exact ⟨p, j, { hi with serving := hsame ▸ hi.serving, served := hsame ▸ hi.served }⟩

theorem inv_step {a : Action} (hi : ∃ p j, Inv m t s p j) (hok : Heard s a) (h : step false m t s a = some s') :
    ∃ p j, Inv m t s' p j := by
  obtain ⟨p, j, hi⟩ := hi
  cases a with
  | user => exact inv_user hi h
  | client => exact inv_client hi hok h
  | land => exact inv_land hi h
  | server => exact inv_server hi h
  | sent => exact inv_sent hi h
  | sender k => exact inv_sender hi h
  | signal woken => exact inv_signal hi hok h
  | spurious k => exact inv_spurious hi hok h

theorem inv_run (h : Reaches (step false m t) Heard (init m) s) : ∃ p j, Inv m t s p j :=
  h.invariant (fun s => ∃ p j, Inv m t s p j) ⟨.handshake, 0, inv_init m t⟩ fun _ _ _ => inv_step

/-! ## Where runs end -/

/-- What is taken for the end indicator before its turn is a chunk. -/
theorem endsAsIndicator_of_item {i : Item} (hi : (items m t)[j]? = some i) (hlt : j < (chunks t.data).length + 2)
    (hbytes : i.bytes = endIndicator) : EndsAsIndicator t := by
  rcases items_get hi with ⟨-, rfl⟩ | ⟨header, hmake, ⟨-, rfl⟩ | ⟨k, chunk, -, hchunk, rfl⟩ | ⟨rfl, -⟩⟩
  · exact absurd hbytes (by decide)
  · have hlen := length_makeHeader hmake
    rw [show header = endIndicator from hbytes] at hlen
    exact absurd hlen (by decide)
  · rw [show chunk = endIndicator from hbytes] at hchunk
    exact (endIndicator_mem_chunks t.data).mp (List.mem_of_getElem? hchunk)
  · omega

theorem not_marked {i : Item} (hi : Inv m t s (.marked i) j) : EndsAsIndicator t :=
  endsAsIndicator_of_item (hi.item i rfl) (hi.serving rfl).lt (hi.marked i rfl)

/-- The receiver is called only where the header is sent and no chunk is taken for the
end indicator. -/
theorem Inv.sent_of_over (hi : Inv m t s p j) (hover : p.over = true) : Announced t ∧ ¬ EndsAsIndicator t := by
  have hserved := hi.served hover
  refine ⟨(sends_iff m t).mp hserved.sends, fun hend => ?_⟩
  obtain ⟨k, hk⟩ := List.getElem?_of_mem ((endIndicator_mem_chunks t.data).mpr hend)
  have hitem := getElem?_items_chunk hserved.sends hk
  have hlt := Pool.lt_of_getElem? hk
  refine hi.clean ⟨.chunk, endIndicator⟩ (List.mem_of_getElem? (i := k + 2) ?_) rfl
  rw [List.getElem?_take, if_pos (by rw [hserved.last]; omega)]
  exact hitem

/-- Where nothing can go on the receiver has been called. -/
theorem Inv.calls_of_stuck (hi : Inv m t s p j) (hstuck : Stuck Heard false m t s) (hsize : Announced t)
    (hend : ¬ EndsAsIndicator t) : s.server.calls = [t.call] := by
  have hview := hi.view
  cases p with
  | handshake =>
    simp only [State.view, Place.view, View.mk.injEq] at hview
    rcases hi.user with huser | huser | huser
    · exact absurd (hstuck .user ⟨trivial, rfl⟩) (by simp [step, stepUser, huser])
    · exact absurd (hstuck .user ⟨trivial, rfl⟩) (by simp [step, stepUser, huser])
    · exact absurd (hstuck .client ⟨fun _ => huser, rfl⟩) (by simp [step, stepClient, hview])
  | start =>
    have huser : s.user = .start := hi.user
    exact absurd (hstuck .user ⟨trivial, rfl⟩) (by simp [step, stepUser, huser])
  | look | wait =>
    simp only [State.view, Place.view, View.mk.injEq] at hview
    exact absurd (hstuck (.sender 0) ⟨trivial, rfl⟩) (by simp [step, stepSender, hview])
  | blocked =>
    simp only [State.view, Place.view, View.mk.injEq] at hview
    obtain ⟨rest, huser | huser⟩ := hi.user
    · cases rest with
      | nil => exact absurd huser (hi.attended (.inr rfl) ((sends_iff m t).mpr hsize))
      | cons item rest => exact absurd (hstuck .user ⟨trivial, rfl⟩) (by simp [step, stepUser, huser])
    · exact absurd (hstuck (.signal (some 0)) ⟨by simp [Heard, hview], rfl⟩)
        (by simp [step, stepSignal, wake, huser, hview])
  | take =>
    simp only [State.view, Place.view, View.mk.injEq] at hview
    obtain ⟨item, rest, hqueue⟩ := List.exists_cons_of_ne_nil (hi.filled rfl)
    exact absurd (hstuck (.sender 0) ⟨trivial, rfl⟩) (by simp [step, stepSender, hview, hqueue])
  | hold i =>
    simp only [State.view, Place.view, View.mk.injEq] at hview
    have hnone := hstuck (.sender 0) ⟨trivial, rfl⟩
    simp only [step, stepSender, hview, List.getElem?_cons_zero, Option.bind_some, List.not_mem_nil, if_false] at hnone
    split at hnone <;> cases hnone
  | copied i =>
    simp only [State.view, Place.view, View.mk.injEq] at hview
    exact absurd (hstuck (.sender 0) ⟨trivial, rfl⟩) (by simp [step, stepSender, hview])
  | posted i =>
    simp only [State.view, Place.view, View.mk.injEq] at hview
    exact absurd (hstuck .land ⟨trivial, rfl⟩) (by simp [step, stepLand, hview])
  | landed i =>
    simp only [State.view, Place.view, View.mk.injEq] at hview
    obtain ⟨r, hr, -⟩ := serve_item (hi.serving rfl) (hi.item i rfl) (hi.passed i rfl) (hi.remote i rfl)
    exact absurd (hstuck .server ⟨trivial, rfl⟩) (by simp [step, stepServer, hview, (hi.serving rfl).ended, hr])
  | ready | served =>
    simp only [State.view, Place.view, View.mk.injEq] at hview
    exact absurd (hstuck .client ⟨by simp [Heard, hview], rfl⟩) (by simp [step, stepClient, hview])
  | closed => exact (hi.served rfl).calls
  | marked i => exact absurd (not_marked hi) hend

/-- Nothing changes the server once its loop has ended. -/
theorem server_of_ended {unreturned : Bool} {a : Action} (hended : s.server.ended = true)
    (h : step unreturned m t s a = some s') : s'.server = s.server := by
  cases a with
  | user =>
    rw [step, stepUser] at h
    split at h <;> cases h <;> rfl
  | client =>
    rw [step, stepClient] at h
    split at h
    next => cases h
    next => split at h <;> cases h <;> rfl
  | land =>
    rw [step, stepLand] at h
    split at h <;> cases h
    rfl
  | server =>
    rw [step, stepServer, if_pos hended] at h
    cases h
  | sent =>
    rw [step, stepSent, if_pos (.inl hended)] at h
    cases h
  | sender k =>
    obtain ⟨sender, -, h⟩ := Option.bind_eq_some_iff.mp h
    cases sender with
    | look | wait | copied size =>
      cases h
      rfl
    | blocked => cases h
    | take =>
      dsimp only at h
      split at h <;> cases h
      rfl
    | holding item =>
      dsimp only at h
      split at h
      next =>
        cases h
        rfl
      next =>
        obtain ⟨-, h⟩ := Option.ite_none_left_eq_some.mp h
        cases h
        rfl
  | signal woken =>
    obtain ⟨rest, -, ⟨-, rfl⟩ | ⟨k, hwake⟩⟩ := stepSignal_cases h
    · rfl
    · obtain ⟨-, rfl⟩ := wake_cases hwake
      rfl
  | spurious k =>
    cases k with
    | none =>
      obtain ⟨-, h⟩ := Option.ite_none_right_eq_some.mp h
      cases h
      rfl
    | some k =>
      obtain ⟨-, rfl⟩ := wake_cases h
      rfl

theorem calls_of_ended {ok : State → Action → Prop} {unreturned : Bool} {u : State}
    (h : Reaches (step unreturned m t) ok s u)
    (hended : s.server.ended = true) : u.server = s.server :=
  h.invariant (fun u => u.server = s.server) rfl fun u a u' hu _ hs =>
    (server_of_ended (by rw [hu, hended]) hs).trans hu

end Steps

/-! ## The transfer -/

section Transfer
variable {t : Transfer}

theorem exact_of_plain (hsize : Announced t) (hend : ¬ EndsAsIndicator t) : Exact Heard false t := by
  intro m
  constructor
  · refine ⟨measure m t (init m), fun actions s h => ?_⟩
    have hle := Transition.run_length_le (measure m t) Action.gain (fun _ _ _ => step_measure _) actions h
    rwa [sum_gain] at hle
  · intro s hs
    obtain ⟨p, j, hi⟩ := inv_run hs
    have hposted : s.posted = p.view.posted := congrArg View.posted hi.view
    have hlanded : s.landed = p.view.landed := congrArg View.landed hi.view
    have hmarkers : s.markers = p.view.markers := congrArg View.markers hi.view
    refine ⟨?_, ?_, ?_, fun hstuck => hi.calls_of_stuck hstuck hsize hend⟩
    · rw [hposted, hlanded]
      cases p <;> simp [Place.view]
    · rw [hmarkers]
      cases p with
      | marked i => exact absurd (not_marked hi) hend
      | _ => simp [Place.view]
    · cases hover : p.over with
      | false => exact .inl (hi.serving hover).calls
      | true => exact .inr (hi.served hover).calls

/-- Some order of steps comes to an end at which nothing is due. -/
theorem reaches_stuck (unreturned : Bool) (m : Memory) (t : Transfer) (s : State) :
    ∃ u, Reaches (step unreturned m t) Heard s u ∧ Stuck Heard unreturned m t u := by
  obtain ⟨u, hu, hstuck⟩ := Transition.exists_stuck (measure m t) (fun _ a _ => due_measure Heard unreturned a) s
  exact ⟨u, hu.mono fun _ _ hdue => hdue.1, hstuck⟩

/-- There is always an end, and the receiver is called before it only as above. -/
theorem plain_of_exact (m : Memory) (h : Exact Heard false t) : Announced t ∧ ¬ EndsAsIndicator t := by
  obtain ⟨s, hs, hstuck⟩ := reaches_stuck false m t (init m)
  obtain ⟨p, j, hi⟩ := inv_run hs
  have hcalls := ((h m).2 s hs).2.2.2 hstuck
  cases hover : p.over with
  | true => exact hi.sent_of_over hover
  | false =>
    rw [(hi.serving hover).calls] at hcalls
    cases hcalls

/-- The completion of the first send can end the loop of the server. -/
theorem not_exact_of_unreturned (m : Memory) : ¬ Exact Heard true t := by
  intro h
  have hsent : step true m t (init m) .sent =
      some { init m with sends := 0, server := { (init m).server with ended := true } } := rfl
  obtain ⟨s, hs, hstuck⟩ := reaches_stuck true m t
    { init m with sends := 0, server := { (init m).server with ended := true } }
  have hcalls := ((h m).2 s (.head ⟨.sent, trivial, hsent⟩ hs)).2.2.2 hstuck
  rw [calls_of_ended hs rfl] at hcalls
  cases hcalls

def blank : Memory := ⟨fun _ _ => 0, fun _ => [], [], [], 0, [], 0, 0⟩

/-- A transfer is exact in every order of steps in which the notifications are heard when the
completion of a send is answered with zero, the header carries the size, and the last chunk
is not the end indicator. -/
theorem exact_iff (unreturned : Bool) (t : Transfer) :
    Exact Heard unreturned t ↔ unreturned = false ∧ Announced t ∧ ¬ EndsAsIndicator t := by
  constructor
  · intro h
    cases unreturned with
    | true => exact absurd h (not_exact_of_unreturned blank)
    | false => exact ⟨rfl, plain_of_exact blank h⟩
  · rintro ⟨rfl, hsize, hend⟩
    exact exact_of_plain hsize hend

/-- A payload that is the end indicator. -/
def marker : Transfer where
  dataId := [97]
  data := endIndicator
  nonempty := by decide
  fits := by decide
  carried _ h := ⟨by decide, by decide, by decide, by decide, h⟩

/-- No transfer is exact in every order: `MSG_MR` can come before the constructor waits. -/
theorem not_exact_free (unreturned : Bool) (t : Transfer) : ¬ Exact free unreturned t := by
  intro h
  have hrun : run (step unreturned blank t) [.client, .user, .user, .sent] (init blank) =
      some { init blank with
        user := .waitInit
        messages := []
        sends := 0
        server := { (init blank).server with ended := unreturned } } := rfl
  have hcalls := ((h blank).2 _ (Transition.run_reaches _ hrun)).2.2.2 ?_
  · cases hcalls
  · rintro a ⟨-, hdue⟩
    cases a with
    | user | client | land | sender k | signal woken => rfl
    | server => cases unreturned <;> rfl
    | sent => exact if_pos (.inr rfl)
    | spurious k => cases hdue

theorem marker_lost : ¬ Exact free false marker ∧ ¬ Exact Heard false marker :=
  ⟨not_exact_free false marker, fun h => (plain_of_exact blank h).2 ⟨by decide, List.suffix_rfl⟩⟩

end Transfer

end IbTransfer
