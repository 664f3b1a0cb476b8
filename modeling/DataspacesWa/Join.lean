import DataspacesWa.LexicalCast
import DataspacesWa.SortedMap

/-!
# Join replies

A node that is asked to join answers with its own address and, away from
master-slave mode, with the ids and addresses of its other peers under numbered
keys. The node that has asked goes through these numbers and asks each node in
turn, and only the branch that asks moves on to the next number.
-/
namespace Join

open LexicalCast (ofInt toInt? toInt?_ofInt)

/-- The order of the keys of a `std::map<int, …>`. -/
instance linearOrderInt32 : LinearOrder Int32 where
  le_refl := Int32.le_refl
  le_trans _ _ _ := Int32.le_trans
  le_antisymm _ _ := Int32.le_antisymm
  le_total := Int32.le_total
  lt_iff_le_not_ge a b := by simp only [Int32.lt_iff_toInt_lt, Int32.le_iff_toInt_le]; omega
  toDecidableLE := inferInstance

abbrev MsgMap := SortedMap String String

structure PeerInfo where
  name : String
  lip : String
  lport : Int32
  deriving DecidableEq, Repr

/-- `SDMNode` with the peers of its `Commer`. -/
structure Node where
  type : String
  masterSlave : Bool
  id : Int32
  lip : String
  lport : Int32
  peers : SortedMap Int32 PeerInfo

/-- `msg_map[key]`, with the empty string for a key that is not there. -/
def value (msgMap : MsgMap) (key : String) : String := (msgMap.get? key).getD ""

/-! ## The messages -/

/-- `gen_packet`, what it adds to the map. -/
def genPacket (n : Node) (msgMap : MsgMap) : MsgMap :=
  (msgMap.insert "id" (ofInt n.id)).insert "node_type" n.type

def genJoinReq (n : Node) : MsgMap :=
  genPacket n ((SortedMap.empty.insert "lip" n.lip).insert "lport" (ofInt n.lport))

def idKey (count : Nat) : String := "id_" ++ count.repr
def lipKey (count : Nat) : String := "lip_" ++ count.repr
def lportKey (count : Nat) : String := "lport_" ++ count.repr

/-- The loop of `gen_join_reply` over the peers. -/
def addOthers (peerId : Int32) : List (Int32 × PeerInfo) → Nat → MsgMap → MsgMap
  | [], _, msgMap => msgMap
  | (id, info) :: peers, count, msgMap =>
    if id ≠ peerId then
      addOthers peerId peers (count + 1) (((msgMap.insert (idKey count) (ofInt id)).insert
        (lipKey count) info.lip).insert (lportKey count) (ofInt info.lport))
    else addOthers peerId peers count msgMap

def genJoinReply (n : Node) (peerId : Int32) (pos : Bool) : MsgMap :=
  let msgMap := ((SortedMap.empty.insert "lip" n.lip).insert "lport" (ofInt n.lport)).insert "ack"
    (if pos then "a" else "n")
  genPacket n (if pos && !n.masterSlave then addOthers peerId n.peers.entries 0 msgMap else msgMap)

/-- The peers that a reply lists. -/
def listed (n : Node) (peerId : Int32) (pos : Bool) : List (Int32 × PeerInfo) :=
  if pos && !n.masterSlave then n.peers.entries.filter (·.1 ≠ peerId) else []

/-! ## The loop of the receiver -/

/-- A join request on its way to an address. -/
structure Request where
  lip : String
  lport : Int32
  msgMap : MsgMap

/-- The loop of `handle_join_reply`: `continue` leaves the count as it is. There is no result where the
fuel runs out or a cast throws. -/
def joinOthers (n : Node) (msgMap : MsgMap) : Nat → Nat → Option (List Request)
  | 0, _ => none
  | fuel + 1, count =>
    if msgMap.contains (idKey count) then
      (toInt? (value msgMap (idKey count))).bind fun ppeerId =>
        if n.peers.contains ppeerId then joinOthers n msgMap fuel count
        else (toInt? (value msgMap (lportKey count))).bind fun ppeerLport =>
          (joinOthers n msgMap fuel (count + 1)).map
            (⟨value msgMap (lipKey count), ppeerLport, genJoinReq n⟩ :: ·)
    else some []

/-- The request that is due to a listed node. -/
def requestTo (n : Node) (e : Int32 × PeerInfo) : Request := ⟨e.2.lip, e.2.lport, genJoinReq n⟩

/-! ## The keys -/

section Keys
variable {i j : Nat}

theorem key_inj {stem : String} : stem ++ i.repr = stem ++ j.repr ↔ i = j := by
  refine ⟨fun h => ?_, fun h => h ▸ rfl⟩
  have hdigits : Nat.toDigits 10 i = Nat.toDigits 10 j := by simpa using congrArg String.toList h
  have hread := congrArg LexicalCast.ofDigits? hdigits
  rw [LexicalCast.ofDigits?_toDigits, LexicalCast.ofDigits?_toDigits] at hread
  exact Option.some.inj hread

@[simp] theorem idKey_inj : idKey i = idKey j ↔ i = j := key_inj
@[simp] theorem lipKey_inj : lipKey i = lipKey j ↔ i = j := key_inj
@[simp] theorem lportKey_inj : lportKey i = lportKey j ↔ i = j := key_inj

@[simp] theorem idKey_ne_lipKey : idKey i ≠ lipKey j := by
  intro h
  simpa [idKey, lipKey] using congrArg String.toList h

@[simp] theorem idKey_ne_lportKey : idKey i ≠ lportKey j := by
  intro h
  simpa [idKey, lportKey] using congrArg String.toList h

@[simp] theorem lipKey_ne_lportKey : lipKey i ≠ lportKey j := by
  intro h
  simpa [lipKey, lportKey] using congrArg String.toList h

/-- The keys that are not numbered. -/
def plainKeys : List String := ["lip", "lport", "ack", "id", "node_type"]

theorem idKey_plain : idKey i ∉ plainKeys := by
  intro h
  simp only [plainKeys, List.mem_cons, List.not_mem_nil, or_false] at h
  rcases h with h | h | h | h | h <;> simpa [idKey] using congrArg String.toList h

theorem lipKey_plain : lipKey i ∉ plainKeys := by
  intro h
  simp only [plainKeys, List.mem_cons, List.not_mem_nil, or_false] at h
  rcases h with h | h | h | h | h <;> simpa [lipKey] using congrArg String.toList h

theorem lportKey_plain : lportKey i ∉ plainKeys := by
  intro h
  simp only [plainKeys, List.mem_cons, List.not_mem_nil, or_false] at h
  rcases h with h | h | h | h | h <;> simpa [lportKey] using congrArg String.toList h

end Keys

/-! ## What a reply lists -/

/-- The map lists the nodes, under the numbers from zero on. -/
structure Lists (msgMap : MsgMap) (others : List (Int32 × PeerInfo)) : Prop where
  id : ∀ k, msgMap.get? (idKey k) = others[k]?.map fun e => ofInt e.1
  lip : ∀ k, msgMap.get? (lipKey k) = others[k]?.map fun e => e.2.lip
  lport : ∀ k, msgMap.get? (lportKey k) = others[k]?.map fun e => ofInt e.2.lport

section Lists
variable {n : Node} {peerId : Int32} {pos : Bool}

/-- Where the loop over the peers has come to a count, and what it has left of the map. -/
theorem addOthers_lists (peers : List (Int32 × PeerInfo)) (count : Nat) (msgMap : MsgMap)
    {before : List (Int32 × PeerInfo)} (hcount : before.length = count) (h : Lists msgMap before) :
    Lists (addOthers peerId peers count msgMap) (before ++ peers.filter (·.1 ≠ peerId)) := by
  induction peers generalizing count msgMap before with
  | nil => simpa [addOthers] using h
  | cons e peers ih =>
    obtain ⟨id, info⟩ := e
    by_cases hid : id = peerId
    · simpa [addOthers, hid] using ih count msgMap hcount h
    · have hnext : before ++ (id, info) :: peers.filter (·.1 ≠ peerId) =
          (before ++ [(id, info)]) ++ peers.filter (·.1 ≠ peerId) := by simp
      rw [addOthers, if_pos hid, List.filter_cons_of_pos (by simpa using hid), hnext]
      have hgrown : ∀ k, (before ++ [(id, info)])[k]? = if k = count then some (id, info) else before[k]? := by
        intro k
        subst hcount
        grind
      refine ih (count + 1) _ (by simp [hcount]) ⟨fun k => ?_, fun k => ?_, fun k => ?_⟩
      · rw [hgrown, SortedMap.get?_insert_ne _ _ idKey_ne_lportKey, SortedMap.get?_insert_ne _ _ idKey_ne_lipKey,
          SortedMap.get?_insert, h.id]
        by_cases hk : k = count <;> simp [hk]
      · rw [hgrown, SortedMap.get?_insert_ne _ _ lipKey_ne_lportKey, SortedMap.get?_insert,
          SortedMap.get?_insert_ne _ _ (Ne.symm idKey_ne_lipKey), h.lip]
        by_cases hk : k = count <;> simp [hk]
      · rw [hgrown, SortedMap.get?_insert, SortedMap.get?_insert_ne _ _ (Ne.symm lipKey_ne_lportKey),
          SortedMap.get?_insert_ne _ _ (Ne.symm idKey_ne_lportKey), h.lport]
        by_cases hk : k = count <;> simp [hk]

/-- The plain keys do not disturb the numbered ones. -/
theorem Lists.insert {msgMap : MsgMap} {others : List (Int32 × PeerInfo)} (h : Lists msgMap others) {key : String}
    (hkey : key ∈ plainKeys) (v : String) : Lists (msgMap.insert key v) others := by
  refine ⟨fun k => ?_, fun k => ?_, fun k => ?_⟩
  · rw [SortedMap.get?_insert_ne _ _ fun he => idKey_plain (he ▸ hkey), h.id]
  · rw [SortedMap.get?_insert_ne _ _ fun he => lipKey_plain (he ▸ hkey), h.lip]
  · rw [SortedMap.get?_insert_ne _ _ fun he => lportKey_plain (he ▸ hkey), h.lport]

theorem genJoinReply_lists (n : Node) (peerId : Int32) (pos : Bool) :
    Lists (genJoinReply n peerId pos) (listed n peerId pos) := by
  have hempty : Lists SortedMap.empty [] := ⟨fun _ => rfl, fun _ => rfl, fun _ => rfl⟩
  have hbase := ((hempty.insert (show "lip" ∈ plainKeys by decide) n.lip).insert
    (show "lport" ∈ plainKeys by decide) (ofInt n.lport)).insert
    (show "ack" ∈ plainKeys by decide) (if pos then "a" else "n")
  unfold genJoinReply listed genPacket
  refine Lists.insert (Lists.insert ?_ (by decide) _) (by decide) _
  split
  · exact addOthers_lists n.peers.entries 0 _ rfl hbase
  · exact hbase

theorem addOthers_plain {key : String} (hkey : key ∈ plainKeys) (peers : List (Int32 × PeerInfo)) (count : Nat)
    (msgMap : MsgMap) : (addOthers peerId peers count msgMap).get? key = msgMap.get? key := by
  induction peers generalizing count msgMap with
  | nil => rfl
  | cons e peers ih =>
    have hid : key ≠ idKey count := fun he => idKey_plain (he ▸ hkey)
    have hlip : key ≠ lipKey count := fun he => lipKey_plain (he ▸ hkey)
    have hlport : key ≠ lportKey count := fun he => lportKey_plain (he ▸ hkey)
    unfold addOthers
    split
    · rw [ih, SortedMap.get?_insert_ne _ _ hlport, SortedMap.get?_insert_ne _ _ hlip, SortedMap.get?_insert_ne _ _ hid]
    · exact ih count msgMap

/-- What a reply says of its sender. -/
theorem genJoinReply_sender (n : Node) (peerId : Int32) (pos : Bool) :
    value (genJoinReply n peerId pos) "id" = ofInt n.id ∧ value (genJoinReply n peerId pos) "lip" = n.lip ∧
      value (genJoinReply n peerId pos) "lport" = ofInt n.lport ∧
      value (genJoinReply n peerId pos) "ack" = if pos then "a" else "n" := by
  have hplain : ∀ key ∈ plainKeys, ∀ msgMap : MsgMap,
      (if pos && !n.masterSlave then addOthers peerId n.peers.entries 0 msgMap else msgMap).get? key =
        msgMap.get? key := by
    intro key hkey msgMap
    split
    · exact addOthers_plain hkey n.peers.entries 0 msgMap
    · rfl
  unfold genJoinReply value genPacket
  refine ⟨?_, ?_, ?_, ?_⟩
  · simp [SortedMap.get?_insert]
  · rw [SortedMap.get?_insert_ne _ _ (by decide), SortedMap.get?_insert_ne _ _ (by decide), hplain _ (by decide)]
    simp [SortedMap.get?_insert]
  · rw [SortedMap.get?_insert_ne _ _ (by decide), SortedMap.get?_insert_ne _ _ (by decide), hplain _ (by decide)]
    simp [SortedMap.get?_insert]
  · rw [SortedMap.get?_insert_ne _ _ (by decide), SortedMap.get?_insert_ne _ _ (by decide), hplain _ (by decide)]
    simp

/-! ## The run of the loop -/

variable {r : Node} {msgMap : MsgMap} {others : List (Int32 × PeerInfo)}

/-- One round of the loop, at a number that is listed. -/
theorem joinOthers_succ (h : Lists msgMap others) {count : Nat} {e : Int32 × PeerInfo} (he : others[count]? = some e)
    (fuel : Nat) : joinOthers r msgMap (fuel + 1) count =
      if r.peers.contains e.1 then joinOthers r msgMap fuel count
      else (joinOthers r msgMap fuel (count + 1)).map (requestTo r e :: ·) := by
  have hid := h.id count
  have hlip := h.lip count
  have hlport := h.lport count
  rw [he, Option.map_some] at hid hlip hlport
  have hthere : msgMap.contains (idKey count) = true := by rw [SortedMap.contains, hid]; rfl
  simp only [joinOthers, hthere, if_true, value, hid, hlip, hlport, Option.getD_some, toInt?_ofInt, Option.bind_some,
    requestTo]

/-- Past the last number the loop ends. -/
theorem joinOthers_end (h : Lists msgMap others) {count : Nat} (hend : others.length ≤ count) (fuel : Nat) :
    joinOthers r msgMap (fuel + 1) count = some [] := by
  have hid := h.id count
  rw [List.getElem?_eq_none hend, Option.map_none] at hid
  have hgone : msgMap.contains (idKey count) = false := by rw [SortedMap.contains, hid]; rfl
  simp [joinOthers, hgone]

/-- Where no listed node is a peer each one is asked. -/
theorem joinOthers_all (h : Lists msgMap others) (hnew : ∀ e ∈ others, r.peers.contains e.1 = false) (left : Nat) :
    ∀ count, count + left = others.length →
      joinOthers r msgMap (left + 1) count = some ((others.drop count).map (requestTo r)) := by
  induction left with
  | zero =>
    intro count hcount
    rw [joinOthers_end h (by omega), List.drop_eq_nil_of_le (by omega), List.map_nil]
  | succ left ih =>
    intro count hcount
    have hlt : count < others.length := by omega
    have hget : others[count]? = some others[count] := List.getElem?_eq_getElem hlt
    have hpeer := hnew others[count] (List.getElem_mem hlt)
    rw [joinOthers_succ h hget, hpeer, ih (count + 1) (by omega), List.drop_eq_getElem_cons hlt]
    rfl

/-- The loop never gets past a listed node that is a peer. -/
theorem joinOthers_stuck (h : Lists msgMap others) {i : Nat} {e : Int32 × PeerInfo} (he : others[i]? = some e)
    (hpeer : r.peers.contains e.1 = true) (fuel : Nat) : ∀ count ≤ i, joinOthers r msgMap fuel count = none := by
  induction fuel with
  | zero => exact fun _ _ => rfl
  | succ fuel ih =>
    intro count hcount
    have hlt : count < others.length := by
      have := (List.getElem?_eq_some_iff.mp he).1
      omega
    have hget : others[count]? = some others[count] := List.getElem?_eq_getElem hlt
    rw [joinOthers_succ h hget]
    split
    · exact ih count hcount
    · rename_i hnew
      have hne : count ≠ i := by
        rintro rfl
        obtain rfl : others[count] = e := Option.some.inj (hget.symm.trans he)
        exact hnew hpeer
      rw [ih (count + 1) (by omega), Option.map_none]

/-- The loop ends with exactly the requests that are due. -/
def Completes (r : Node) (msgMap : MsgMap) (others : List (Int32 × PeerInfo)) : Prop :=
  ∃ fuel, joinOthers r msgMap fuel 0 =
    some ((others.filter fun e => !r.peers.contains e.1 && e.1 ≠ r.id).map (requestTo r))

/-- A reply is processed to its end if and only if it lists no peer of its receiver. -/
theorem reply_completes_iff (n r : Node) (pos : Bool) :
    Completes r (genJoinReply n r.id pos) (listed n r.id pos) ↔
      ∀ e ∈ listed n r.id pos, r.peers.contains e.1 = false := by
  have h := genJoinReply_lists n r.id pos
  constructor
  · rintro ⟨fuel, hrun⟩ e he
    cases hpeer : r.peers.contains e.1 with
    | false => rfl
    | true =>
      obtain ⟨i, hi⟩ := List.mem_iff_getElem?.mp he
      rw [joinOthers_stuck h hi hpeer fuel 0 (Nat.zero_le i)] at hrun
      cases hrun
  · intro hnew
    have hself : ∀ e ∈ listed n r.id pos, e.1 ≠ r.id := by
      intro e he
      unfold listed at he
      split at he
      · simpa using (List.mem_filter.mp he).2
      · cases he
    have hall : (listed n r.id pos).filter (fun e => !r.peers.contains e.1 && e.1 ≠ r.id) = listed n r.id pos :=
      List.filter_eq_self.mpr fun e he => by simp [hnew e he, hself e he]
    refine ⟨(listed n r.id pos).length + 1, ?_⟩
    rw [hall, joinOthers_all h hnew (listed n r.id pos).length 0 (Nat.zero_add _), List.drop_zero]

/-- A node of the mesh with the given peers. -/
def meshNode (id : Int32) (peers : List (Int32 × PeerInfo)) : Node where
  type := "s"
  masterSlave := false
  id := id
  lip := "127.0.0.1"
  lport := 7000
  peers := peers.foldl (fun m e => m.insert e.1 e.2) SortedMap.empty

/-- A host with two nodes that have joined. -/
def hostOfTwo : Node :=
  meshNode 0 [(1, ⟨"peer_1", "127.0.0.1", 7001⟩), (2, ⟨"peer_2", "127.0.0.1", 7002⟩)]

/-- The first of them, when the second one has asked it to join before the reply of the host comes. -/
def firstOfTwo : Node :=
  meshNode 1 [(0, ⟨"peer_0", "127.0.0.1", 7000⟩), (2, ⟨"peer_2", "127.0.0.1", 7002⟩)]

/-- A listed node that is a peer already keeps the loop at its number for good. -/
theorem listed_peer_never_completes :
    listed hostOfTwo 1 true = [(2, ⟨"peer_2", "127.0.0.1", 7002⟩)] ∧
      (∀ fuel, joinOthers firstOfTwo (genJoinReply hostOfTwo 1 true) fuel 0 = none) ∧
      ¬Completes firstOfTwo (genJoinReply hostOfTwo 1 true) (listed hostOfTwo 1 true) := by
  have hlisted : listed hostOfTwo 1 true = [(2, ⟨"peer_2", "127.0.0.1", 7002⟩)] := by decide
  have hget : (listed hostOfTwo 1 true)[0]? = some (2, ⟨"peer_2", "127.0.0.1", 7002⟩) := by rw [hlisted]; rfl
  have hstuck : ∀ fuel, joinOthers firstOfTwo (genJoinReply hostOfTwo 1 true) fuel 0 = none := fun fuel =>
    joinOthers_stuck (genJoinReply_lists hostOfTwo 1 true) hget (by decide) fuel 0 (Nat.le_refl 0)
  refine ⟨hlisted, hstuck, ?_⟩
  rintro ⟨fuel, hrun⟩
  rw [hstuck fuel] at hrun
  cases hrun

end Lists

end Join
