import DataspacesWa.MsgCoder
import DataspacesWa.Packet

/-!
# Sizes of message maps

A packet has room for 512 bytes of archive, and what is longer is cut. A kind
of messages has its fields, each with the length of its longest value; where
all of them together have room in a packet, no message of the kind is cut.
-/
namespace MapSizes

open Join (MsgMap)
open LexicalCast (ofInt)
open Patch (arrToStr)
open TextArchive (textArchive)

/-! ## Values -/

def Clean (v : String) : Prop := '\x00' ∉ v.toList

instance decidableClean (v : String) : Decidable (Clean v) := inferInstanceAs (Decidable ('\x00' ∉ v.toList))

theorem clean_ofInt (n : Int32) : Clean (ofInt n) := by
  intro h
  rcases LexicalCast.mem_ofInt h with h | h
  · cases h
  · cases h

theorem clean_toString (n : Nat) : Clean (toString n) := MsgCoder.toString_ne n (by decide)

theorem clean_arrToStr (l : List UInt64) : Clean (arrToStr l) :=
  MsgCoder.not_mem_arrToStr (by decide) (by decide) l

theorem length_toString_le {n : Nat} {k : Nat} (hk : 0 < k) (h : n < 10 ^ k) : (toString n).toList.length ≤ k := by
  rw [Nat.toString_eq_repr, Nat.toList_repr]
  exact (Nat.length_toDigits_le_iff (by decide) hk).mpr h

theorem length_ver (ver : UInt32) : (toString ver.toNat).toList.length ≤ 10 :=
  length_toString_le (by decide) (Nat.lt_trans ver.toNat_lt (by decide))

/-- Twenty digits and a comma. -/
theorem length_arrToStr (l : List UInt64) : (arrToStr l).toList.length ≤ 21 * l.length - 1 := by
  have hnum : ∀ n : UInt64, (toString n.toNat).toList.length ≤ 20 := fun n =>
    length_toString_le (by decide) (Nat.lt_trans n.toNat_lt (by decide))
  induction l with
  | nil => simp [arrToStr]
  | cons n l ih =>
    cases l with
    | nil =>
      rw [show arrToStr [n] = toString n.toNat from String.intercalate_singleton]
      exact hnum n
    | cons n' l =>
      have hcons : arrToStr (n :: n' :: l) = toString n.toNat ++ "," ++ arrToStr (n' :: l) :=
        String.intercalate_cons_cons
      have := hnum n
      rw [hcons, String.toList_append, String.toList_append, List.length_append, List.length_append]
      simp only [List.length_cons] at ih ⊢
      have hcomma : ",".toList.length = 1 := rfl
      omega

/-- A corner of a box. -/
theorem length_corner (v : Vector UInt64 Patch.ndim) : (arrToStr v.toList).toList.length ≤ 62 := by
  simpa [Patch.ndim] using length_arrToStr v.toList

/-! ## Maps -/

/-- The limit of a field. -/
def limit (limits : List (String × Nat)) (k : String) : Nat := (limits.lookup k).getD 0

/-- The map has no other fields, and its values are within their limits. -/
def Short (limits : List (String × Nat)) (msgMap : MsgMap) : Prop :=
  ∀ k v, msgMap.get? k = some v → k ∈ limits.map (·.1) ∧ v.toList.length ≤ limit limits k ∧ Clean v

/-- The archive of a string has its length first. -/
def archiveLength (n : Nat) : Nat := n + (Nat.toDigits 10 n).length + 2

/-- The longest archive of a field. -/
def cost (limits : List (String × Nat)) (k : String) : Nat :=
  archiveLength k.toList.length + archiveLength (limit limits k)

/-- There is room for all fields, and for what comes before them. -/
def Roomy (limits : List (String × Nat)) : Prop :=
  (∀ e ∈ limits, Clean e.1) ∧ limits.length < 100 ∧ 41 + (limits.map fun e => cost limits e.1).sum ≤ Packet.maxMsgSize

instance decidableRoomy (limits : List (String × Nat)) : Decidable (Roomy limits) :=
  inferInstanceAs (Decidable (_ ∧ _ ∧ _))

section Short
variable {limits : List (String × Nat)} {msgMap : MsgMap}

theorem short_empty (limits : List (String × Nat)) : Short limits SortedMap.empty := by
  intro k v h
  cases h

theorem Short.insert (h : Short limits msgMap) {k v : String} (hk : k ∈ limits.map (·.1))
    (hlen : v.toList.length ≤ limit limits k) (hclean : Clean v) : Short limits (msgMap.insert k v) := by
  intro k' v' hget
  rw [SortedMap.get?_insert] at hget
  split at hget
  next heq =>
    subst heq
    obtain rfl := Option.some.inj hget
    exact ⟨hk, hlen, hclean⟩
  next hne => exact h k' v' hget

theorem Short.insertInt (h : Short limits msgMap) (k : String) (hk : k ∈ limits.map (·.1)) (hlimit : 11 ≤ limit limits k)
    (n : Int32) : Short limits (msgMap.insert k (ofInt n)) :=
  h.insert hk ((LexicalCast.length_ofInt n).2.trans hlimit) (clean_ofInt n)

theorem length_saveString (s : String) : (TextArchive.saveString s).length = archiveLength s.toList.length := by
  simp only [TextArchive.saveString, TextArchive.saveNat, archiveLength, List.length_append, List.length_cons]
  omega

theorem archiveLength_mono {m n : Nat} (h : m ≤ n) : archiveLength m ≤ archiveLength n := by
  have hpos : 0 < (Nat.toDigits 10 n).length := List.length_pos_of_ne_nil Nat.toDigits_ne_nil
  have hn : n < 10 ^ (Nat.toDigits 10 n).length := (Nat.length_toDigits_le_iff (by decide) hpos).mp (Nat.le_refl _)
  have hdigits : (Nat.toDigits 10 m).length ≤ (Nat.toDigits 10 n).length :=
    (Nat.length_toDigits_le_iff (by decide) hpos).mpr (Nat.lt_of_le_of_lt h hn)
  simp only [archiveLength]
  omega

/-- Each field is in the map once. -/
theorem Short.length_entries (h : Short limits msgMap) :
    msgMap.entries.length ≤ limits.length ∧
      (msgMap.entries.flatMap fun e => TextArchive.saveString e.1 ++ TextArchive.saveString e.2).length ≤
        (limits.map fun e => cost limits e.1).sum := by
  have hsub : msgMap.entries.map (·.1) ⊆ limits.map (·.1) := by
    intro k hk
    obtain ⟨e, he, rfl⟩ := List.mem_map.mp hk
    exact (h e.1 e.2 (SortedMap.mem_entries.mp he)).1
  obtain ⟨keys, hperm, hkeys⟩ := msgMap.keys_nodup.subperm hsub
  have hcost : ∀ e ∈ msgMap.entries,
      (TextArchive.saveString e.1 ++ TextArchive.saveString e.2).length ≤ cost limits e.1 := by
    intro e he
    obtain ⟨-, hlen, -⟩ := h e.1 e.2 (SortedMap.mem_entries.mp he)
    rw [List.length_append, length_saveString, length_saveString, cost]
    exact Nat.add_le_add_left (archiveLength_mono hlen) _
  constructor
  · calc msgMap.entries.length = keys.length := by rw [hperm.length_eq, List.length_map]
      _ ≤ (limits.map (·.1)).length := hkeys.length_le
      _ = limits.length := List.length_map _
  · calc (msgMap.entries.flatMap fun e => TextArchive.saveString e.1 ++ TextArchive.saveString e.2).length
        ≤ (msgMap.entries.map fun e => cost limits e.1).sum := by
          rw [List.length_flatMap]
          exact List.sum_le_sum hcost
      _ = (keys.map (cost limits)).sum := by
          rw [(hperm.map _).sum_eq, List.map_map]
          rfl
      _ ≤ ((limits.map (·.1)).map (cost limits)).sum := (hkeys.map _).sum_le_sum fun _ _ => Nat.zero_le _
      _ = (limits.map fun e => cost limits e.1).sum := by
          rw [List.map_map]
          rfl

/-- A short map is sent whole. -/
theorem Short.fits (h : Short limits msgMap) (hroom : Roomy limits) : Packet.Fits textArchive msgMap := by
  refine Packet.fits_of_short (fun s hs => ?_) fun e he => ?_
  · obtain rfl := Option.some.inj hs
    obtain ⟨hcount, hlen⟩ := h.length_entries
    have htotal := hroom.2.2
    have hsign : TextArchive.signature.length = 32 := by decide
    have hdigits : (Nat.toDigits 10 msgMap.entries.length).length ≤ 2 :=
      (Nat.length_toDigits_le_iff (by decide) (by decide)).mpr (Nat.lt_of_le_of_lt hcount hroom.2.1)
    have hzero : (TextArchive.saveNat 0).length = 2 := by decide
    have hclass : (if msgMap.entries = [] then [] else TextArchive.saveNat 0 ++ TextArchive.saveNat 0).length ≤ 4 := by
      split
      · exact Nat.zero_le 4
      · rw [List.length_append, hzero]
    simp only [TextArchive.save, List.length_append, hsign, hzero] at hclass ⊢
    rw [TextArchive.saveNat, List.length_cons]
    omega
  · obtain ⟨hk, -, hclean⟩ := h e.1 e.2 (SortedMap.mem_entries.mp he)
    obtain ⟨e', he', heq⟩ := List.mem_map.mp hk
    exact ⟨heq ▸ hroom.1 e' he', hclean⟩

end Short

/-! ## Streams -/

/-- Packets of short maps come out of a stream as they went in. -/
theorem short_packets_arrive {limits : List (String × Nat)} (hroom : Roomy limits) {packets : List (Packet.PacketT × MsgMap)}
    (h : ∀ p ∈ packets, Short limits p.2) :
    ∃ stream, Packet.sendAll textArchive packets = some stream ∧
      Packet.receiveAll textArchive stream = packets.map fun p => (p.1.char, p.2) := by
  have hsome : (Packet.sendAll textArchive packets).isSome := Packet.sendAll_isSome fun _ _ => rfl
  obtain ⟨stream, hsend⟩ := Option.isSome_iff_exists.mp hsome
  refine ⟨stream, hsend, ?_⟩
  rw [Packet.receiveAll_sendAll hsend]
  refine List.map_congr_left fun p hp => ?_
  exact congrArg (Prod.mk p.1.char) ((h p hp).fits hroom _ rfl)

end MapSizes
