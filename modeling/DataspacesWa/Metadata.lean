import DataspacesWa.HashedStore
import DataspacesWa.RIManager

/-!
# The metadata of moved data

`handle_put` stores the data type, the element size and the global dimensions of
its data under the hash of the data id, and a move of the data looks them up by
the hash alone: to tell the receiver, and to read and send the data.
-/
namespace Metadata

open Patch (Datum getDataId hashStr)
open MsgCoder (MsgMap)
open HashedStore (stores lastOf lastUnder)
open RIManager
open SDMStores (box)

section Moves
variable {N : Type}

/-- A move of the datum tells the receiver this metadata, if it asks it at all, and reads and sends by it. -/
def MovedWith (cfg : Config) (s : State N) (d : Datum) (info : DataInfo) : Prop :=
  ∀ (base : MsgMap) (toId : Int32),
    (queryInfo cfg s (MsgCoder.encode base (MsgCoder.argsOf d)) toId = some (some info) ∨
      queryInfo cfg s (MsgCoder.encode base (MsgCoder.argsOf d)) toId = some none) ∧
    remotePutInfo cfg s (MsgCoder.encode base (MsgCoder.argsOf d)) = some info

theorem queryInfo_encode (cfg : Config) (s : State N) (base : MsgMap) (d : Datum) (toId : Int32) :
    queryInfo cfg s (MsgCoder.encode base (MsgCoder.argsOf d)) toId =
      if s.transInfo toId.toUInt32 = false ∨ cfg.protocol ≠ .gridftp then
        (s.dataInfo (hashStr (getDataId cfg.dataIdT d))).map some
      else some none := by
  rw [queryInfo, MsgCoder.dataIdOfMap_encode]

theorem remotePutInfo_encode (cfg : Config) (s : State N) (base : MsgMap) (d : Datum) :
    remotePutInfo cfg s (MsgCoder.encode base (MsgCoder.argsOf d)) =
      s.dataInfo (hashStr (getDataId cfg.dataIdT d)) := by
  rw [remotePutInfo, MsgCoder.decode_encode]
  simp only [datumOf_argsOf, Option.bind_some]

theorem movedWith_iff (cfg : Config) (s : State N) (d : Datum) (info : DataInfo) :
    MovedWith cfg s d info ↔ s.dataInfo (hashStr (getDataId cfg.dataIdT d)) = some info := by
  constructor
  · intro h
    rw [← remotePutInfo_encode cfg s (fun _ => none) d]
    exact (h (fun _ => none) 0).2
  · intro h base toId
    rw [queryInfo_encode, remotePutInfo_encode, h]
    refine ⟨?_, rfl⟩
    split
    · exact .inl rfl
    · exact .inr rfl

end Moves

section Puts
variable {N : Type} [Control N] {cfg : Config} {s s' : State N}

/-- A put from its message to its reply, the wait to be registered included. -/
def wholePut (cfg : Config) (s : State N) (call : Control.Call N) (pId : Int32) (putMap : MsgMap) :
    Option (State N × Reply × Option (String × DataInfo)) :=
  servePut cfg { s with node := Control.regApp call pId s.node } call pId putMap

theorem handlePut_of_registered {call : Control.Call N} {pId : Int32} (h : ¬Control.Registers call pId s.node)
    (putMap : MsgMap) :
    handlePut cfg s call pId putMap = (wholePut cfg s call pId putMap).map fun r => (r.1, some r.2.1) := by
  simp [handlePut, regApp, h, wholePut]

theorem handlePut_registered {call : Control.Call N} {pId : Int32} (h : Control.Registers call pId s.node)
    (putMap : MsgMap) : ∃ s₁, handlePut cfg s call pId putMap = some (s₁, none) ∧
      registered cfg s₁ call s.registering.length =
        (wholePut cfg s call pId putMap).map fun r => (r.1, some r.2.1) := by
  refine ⟨_, by rw [handlePut, regApp, if_pos h]; rfl, ?_⟩
  simp [registered, wholePut, List.eraseIdx_append_of_length_le]

/-- Puts one after the other, with the ids and the metadata of those accepted. -/
def handlePuts (cfg : Config) (s : State N) :
    List (Control.Call N × Int32 × MsgMap) → Option (State N × List (String × DataInfo))
  | [] => some (s, [])
  | put :: puts =>
    (wholePut cfg s put.1 put.2.1 put.2.2).bind fun r =>
      (handlePuts cfg r.1 puts).map fun t => (t.1, r.2.2.toList ++ t.2)

theorem wholePut_dataInfo {call : Control.Call N} {pId : Int32} {putMap : MsgMap}
    {r : State N × Reply × Option (String × DataInfo)} (h : wholePut cfg s call pId putMap = some r) :
    r.1.dataInfo = stores hashStr s.dataInfo r.2.2.toList := by
  unfold wholePut servePut at h
  split at h
  · obtain ⟨d, -, hrest⟩ := Option.bind_eq_some_iff.mp h
    obtain ⟨⟨n, done⟩, -, rfl⟩ := Option.map_eq_some_iff.mp hrest
    cases done <;> rfl
  · obtain rfl := Option.some.inj h
    rfl
  · cases h

/-- What a sequence of puts leaves under the hashes. -/
theorem handlePuts_dataInfo {puts : List (Control.Call N × Int32 × MsgMap)} {accepted : List (String × DataInfo)}
    (h : handlePuts cfg s puts = some (s', accepted)) : s'.dataInfo = stores hashStr s.dataInfo accepted := by
  induction puts generalizing s accepted with
  | nil =>
    obtain ⟨rfl, rfl⟩ := Prod.mk.inj (Option.some.inj h)
    rfl
  | cons put puts ih =>
    obtain ⟨r, hput, hrest⟩ := Option.bind_eq_some_iff.mp h
    obtain ⟨t, hputs, heq⟩ := Option.map_eq_some_iff.mp hrest
    obtain ⟨rfl, rfl⟩ := Prod.mk.inj heq
    rw [ih hputs, wholePut_dataInfo hput, stores, stores, stores, List.foldl_append]

/-- After any sequence of puts, a datum is moved with the metadata of its last accepted put exactly when the last
accepted put under the hash of its id is a put of it, or gives the same metadata. -/
theorem moved_as_put_iff {puts : List (Control.Call N × Int32 × MsgMap)} {accepted : List (String × DataInfo)}
    (h : handlePuts cfg s puts = some (s', accepted)) {d : Datum} {info : DataInfo}
    (hlast : lastOf (getDataId cfg.dataIdT d) accepted = some (getDataId cfg.dataIdT d, info)) :
    MovedWith cfg s' d info ↔ ∀ e, lastUnder hashStr (hashStr (getDataId cfg.dataIdT d)) accepted = some e →
      e.1 = getDataId cfg.dataIdT d ∨ e.2 = info := by
  rw [movedWith_iff, handlePuts_dataInfo h, HashedStore.stores_own_iff s.dataInfo hlast]

end Puts

/-- What the put of a box stores. -/
def boxInfo (dataType : String) (size : Int32) : DataInfo := ⟨dataType, size, some [10, 10, 10]⟩

/-- Two versions with different hashes are moved as they were put. -/
theorem versions_moved : ∃ s', handlePuts ⟨.kv, .tcp⟩ freshSlave [(allSent, 7, boxMap "u" 26155 "int" 4),
      (allSent, 7, boxMap "u" 26156 "double" 8)] =
      some (s', [("u_26155", boxInfo "int" 4), ("u_26156", boxInfo "double" 8)]) ∧
    MovedWith ⟨.kv, .tcp⟩ s' { box "u" with ver := 26155 } (boxInfo "int" 4) := by
  have htest : (handlePuts ⟨.kv, .tcp⟩ freshSlave [(allSent, 7, boxMap "u" 26155 "int" 4),
      (allSent, 7, boxMap "u" 26156 "double" 8)]).any (fun t =>
      decide (t.2 = [("u_26155", boxInfo "int" 4), ("u_26156", boxInfo "double" 8)])) = true := by
    decide +kernel
  obtain ⟨⟨s', accepted⟩, hputs, hacc⟩ := (Option.any_eq_true _ _).mp htest
  obtain rfl := of_decide_eq_true hacc
  refine ⟨s', hputs, (moved_as_put_iff hputs (by decide +kernel)).mpr ?_⟩
  intro e he
  have hunder : lastUnder hashStr (hashStr (getDataId .kv { box "u" with ver := 26155 }))
      [("u_26155", boxInfo "int" 4), ("u_26156", boxInfo "double" 8)] = some ("u_26155", boxInfo "int" 4) := by
    decide +kernel
  rw [hunder] at he
  rw [← Option.some.inj he]
  exact .inr rfl

/-- The ids of two versions of one key have the same hash: the first is moved with the metadata of the second. -/
theorem hash_clash_moves : ∃ s', handlePuts ⟨.kv, .tcp⟩ freshSlave [(allSent, 7, boxMap "u" 26155 "int" 4),
      (allSent, 7, boxMap "u" 36532 "double" 8)] =
      some (s', [("u_26155", boxInfo "int" 4), ("u_36532", boxInfo "double" 8)]) ∧
    (∀ base, remotePutInfo ⟨.kv, .tcp⟩ s' (MsgCoder.encode base (MsgCoder.argsOf { box "u" with ver := 26155 })) =
      some (boxInfo "double" 8)) ∧
    ¬MovedWith ⟨.kv, .tcp⟩ s' { box "u" with ver := 26155 } (boxInfo "int" 4) := by
  have htest : (handlePuts ⟨.kv, .tcp⟩ freshSlave [(allSent, 7, boxMap "u" 26155 "int" 4),
      (allSent, 7, boxMap "u" 36532 "double" 8)]).any (fun t =>
      decide (t.2 = [("u_26155", boxInfo "int" 4), ("u_36532", boxInfo "double" 8)])) = true := by
    decide +kernel
  obtain ⟨⟨s', accepted⟩, hputs, hacc⟩ := (Option.any_eq_true _ _).mp htest
  obtain rfl := of_decide_eq_true hacc
  have hunder : lastUnder hashStr (hashStr (getDataId .kv { box "u" with ver := 26155 }))
      [("u_26155", boxInfo "int" 4), ("u_36532", boxInfo "double" 8)] = some ("u_36532", boxInfo "double" 8) := by
    decide +kernel
  have hinfo : s'.dataInfo (hashStr (getDataId .kv { box "u" with ver := 26155 })) = some (boxInfo "double" 8) := by
    rw [handlePuts_dataInfo hputs, HashedStore.stores_eq, hunder]
    rfl
  refine ⟨s', hputs, fun base => (remotePutInfo_encode _ _ _ _).trans hinfo, ?_⟩
  rw [movedWith_iff, hinfo]
  simp [boxInfo]

end Metadata
