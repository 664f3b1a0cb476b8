import DataspacesWa.LexicalCast
import DataspacesWa.Patch
import DataspacesWa.Tokens

/-!
# Message maps

`MsgCoder` writes the arguments of a call into a map from string to string,
with the coordinates of a corner joined by commas, and reads them back. A map
comes from the network, so any field of it can be missing or be anything. The
loop that reads the coordinates runs by `ndim` and looks at no iterator.
-/
namespace MsgCoder

open Function (update update_self update_of_ne)
open LexicalCast (ofInt toInt? toUInt32? toUInt64? toInt?_ofInt toUInt32?_toString toUInt64?_toString)
open Patch (Datum DataIdT arrToStr getDataId)
open Tokens (tokens readRows firstBad)

/-! ## Maps -/

/-- `std::map<std::string, std::string>` -/
abbrev MsgMap := String → Option String

/-- `msg_map[k]` on a copy of the map; a missing field reads as an empty string. -/
def read (m : MsgMap) (k : String) : String := (m k).getD ""

/-- `ndim, key, ver, lb_, ub_`. -/
structure Fields where
  ndim : Int32
  key : String
  ver : UInt32
  lb : List UInt64
  ub : List UInt64
  deriving DecidableEq, Repr

/-- `key, ver, data_type, size, ndim, gdim_, lb_, ub_`. -/
structure LongFields extends Fields where
  dataType : String
  size : Int32
  gdim : List UInt64
  deriving DecidableEq, Repr

/-- What a caller encodes: arrays of `ndim` entries. -/
structure Args extends Fields where
  nonneg : 0 ≤ ndim
  lb_length : lb.length = ndim.toInt.toNat
  ub_length : ub.length = ndim.toInt.toNat

structure LongArgs extends LongFields where
  nonneg : 0 ≤ ndim
  gdim_length : gdim.length = ndim.toInt.toNat
  lb_length : lb.length = ndim.toInt.toNat
  ub_length : ub.length = ndim.toInt.toNat

def LongArgs.short (a : LongArgs) : Args := ⟨a.toFields, a.nonneg, a.lb_length, a.ub_length⟩

/-- `encode_msg_map`, the short form. -/
def encode (base : MsgMap) (a : Args) : MsgMap :=
  update (update (update (update (update base
    "ndim" (some (ofInt a.ndim)))
    "key" (some a.key))
    "ver" (some (toString a.ver.toNat)))
    "lb_" (some (arrToStr a.lb)))
    "ub_" (some (arrToStr a.ub))

/-- `encode_msg_map`, the long form. -/
def encodeLong (base : MsgMap) (a : LongArgs) : MsgMap :=
  update (update (update (update (update (update (update (update base
    "key" (some a.key))
    "ver" (some (toString a.ver.toNat)))
    "data_type" (some a.dataType))
    "size" (some (ofInt a.size)))
    "ndim" (some (ofInt a.ndim)))
    "gdim_" (some (arrToStr a.gdim)))
    "lb_" (some (arrToStr a.lb)))
    "ub_" (some (arrToStr a.ub))

/-- The keys the two forms write. -/
def shortKeys : List String := ["ndim", "key", "ver", "lb_", "ub_"]

def longKeys : List String := ["key", "ver", "data_type", "size", "ndim", "gdim_", "lb_", "ub_"]

/-! ## Decoding -/

/-- What a call of `decode_msg_map` comes to: it returns 0, or an error, or reads past the last token; or it
returns 0 after a `malloc` whose size comes from a negative `ndim`. -/
inductive Decoded (α : Type) where
  | ok : α → Decoded α
  | err
  | pastEnd
  | wrappedSize
  deriving DecidableEq, Repr

def Decoded.map {α β : Type} (f : α → β) : Decoded α → Decoded β
  | ok a => ok (f a)
  | err => err
  | pastEnd => pastEnd
  | wrappedSize => wrappedSize

/-- `boost::tokenizer` with a `char_separator` of the comma. -/
def coorTokens (s : String) : List String := (tokens ',' s.toList).map String.ofList

/-- The `malloc`s and the loop over the dimensions. -/
def coords (ndim : Int32) (arrs : List String) : Decoded (List (List UInt64)) :=
  if ndim < 0 then .wrappedSize
  else
    match readRows toUInt64? ndim.toInt.toNat (arrs.map coorTokens) with
    | .ok columns => .ok columns
    | .err => .err
    | .pastEnd => .pastEnd

/-- `decode_msg_map`, the short form. -/
def decode (m : MsgMap) : Decoded Fields :=
  match toInt? (read m "ndim"), toUInt32? (read m "ver") with
  | some ndim, some ver =>
    (coords ndim [read m "lb_", read m "ub_"]).map fun columns =>
      ⟨ndim, read m "key", ver, columns.getD 0 [], columns.getD 1 []⟩
  | _, _ => .err

/-- `decode_msg_map`, the long form. -/
def decodeLong (m : MsgMap) : Decoded LongFields :=
  match toUInt32? (read m "ver"), toInt? (read m "size"), toInt? (read m "ndim") with
  | some ver, some size, some ndim =>
    (coords ndim [read m "gdim_", read m "lb_", read m "ub_"]).map fun columns =>
      ⟨⟨ndim, read m "key", ver, columns.getD 1 [], columns.getD 2 []⟩, read m "data_type", size,
        columns.getD 0 []⟩
  | _, _, _ => .err

/-! ## Joined coordinates -/

theorem toString_ne (n : Nat) {c : Char} (hc : c.isDigit = false) : c ∉ (toString n).toList := by
  intro hmem
  have hdigit : c ∈ Nat.toDigits 10 n := by simpa [Nat.toList_repr] using hmem
  have := Nat.isDigit_of_mem_toDigits (by decide) (by decide) hdigit
  rw [hc] at this
  cases this

/-- The coordinates are found again, as their digits. -/
theorem coorTokens_arrToStr (l : List UInt64) : coorTokens (arrToStr l) = l.map fun c => toString c.toNat := by
  have hjoin : (arrToStr l).toList = [','].intercalate (l.map fun c => (toString c.toNat).toList) := by
    simp [arrToStr, String.toList_intercalate, Function.comp_def]
  have hparts : ∀ s ∈ l.map fun c => (toString c.toNat).toList, ',' ∉ s ∧ s ≠ [] := by
    intro s hs
    obtain ⟨c, -, rfl⟩ := List.mem_map.mp hs
    exact ⟨toString_ne c.toNat (by decide), by simp [Nat.toList_repr]⟩
  rw [coorTokens, hjoin, Tokens.tokens_intercalate hparts, List.map_map]
  exact List.map_congr_left fun c _ => String.ofList_toList

theorem filterMap_toUInt64? (l : List UInt64) : (l.map fun c => toString c.toNat).filterMap toUInt64? = l := by
  induction l with
  | nil => rfl
  | cons c l ih => rw [List.map_cons, List.filterMap_cons, toUInt64?_toString, ih]

/-- Joined lists of `ndim` coordinates are read back. -/
theorem coords_arrToStr {ndim : Int32} (hndim : 0 ≤ ndim) {ls : List (List UInt64)}
    (h : ∀ l ∈ ls, l.length = ndim.toInt.toNat) : coords ndim (ls.map arrToStr) = .ok ls := by
  have hneg : ¬ndim < 0 := Int32.not_lt.mpr hndim
  have htokens : (ls.map arrToStr).map coorTokens = ls.map fun l => l.map fun c => toString c.toNat := by
    rw [List.map_map]
    exact List.map_congr_left fun l _ => coorTokens_arrToStr l
  have hgood : firstBad toUInt64? ndim.toInt.toNat (ls.map fun l => l.map fun c => toString c.toNat) = none := by
    rw [Tokens.firstBad_eq_none]
    intro s hs
    obtain ⟨l, hl, rfl⟩ := List.mem_map.mp hs
    refine ⟨by rw [List.length_map, h l hl], fun t ht => ?_⟩
    obtain ⟨c, -, rfl⟩ := List.mem_map.mp (List.mem_of_mem_take ht)
    rw [toUInt64?_toString]
    rfl
  have hcolumns : (ls.map fun l => l.map fun c => toString c.toNat).map
      (fun s => (s.take ndim.toInt.toNat).filterMap toUInt64?) = ls := by
    rw [List.map_map]
    conv_rhs => rw [← List.map_id ls]
    refine List.map_congr_left fun l hl => ?_
    show ((l.map fun c => toString c.toNat).take ndim.toInt.toNat).filterMap toUInt64? = l
    rw [List.take_of_length_le (by rw [List.length_map, h l hl]), filterMap_toUInt64?]
  rw [coords, if_neg hneg, htokens, Tokens.readRows_eq, hgood, hcolumns]
  rfl

/-! ## Round trips -/

section RoundTrip
variable (base : MsgMap)

/-- The fields of an encoded map. -/
theorem read_encode (a : Args) : read (encode base a) "ndim" = ofInt a.ndim ∧ read (encode base a) "key" = a.key ∧
    read (encode base a) "ver" = toString a.ver.toNat ∧ read (encode base a) "lb_" = arrToStr a.lb ∧
    read (encode base a) "ub_" = arrToStr a.ub := by
  refine ⟨?_, ?_, ?_, ?_, ?_⟩ <;> simp [read, encode]

theorem read_encodeLong (a : LongArgs) : read (encodeLong base a) "ndim" = ofInt a.ndim ∧
    read (encodeLong base a) "key" = a.key ∧ read (encodeLong base a) "ver" = toString a.ver.toNat ∧
    read (encodeLong base a) "lb_" = arrToStr a.lb ∧ read (encodeLong base a) "ub_" = arrToStr a.ub := by
  refine ⟨?_, ?_, ?_, ?_, ?_⟩ <;> simp [read, encodeLong]

/-- The fields that only the long form has. -/
theorem read_encodeLong_more (a : LongArgs) : read (encodeLong base a) "data_type" = a.dataType ∧
    read (encodeLong base a) "size" = ofInt a.size ∧ read (encodeLong base a) "gdim_" = arrToStr a.gdim := by
  refine ⟨?_, ?_, ?_⟩ <;> simp [read, encodeLong]

/-- The short decode needs the five fields of the short form, whoever wrote them. -/
theorem decode_of_read {m : MsgMap} (a : Args) (hndim : read m "ndim" = ofInt a.ndim) (hkey : read m "key" = a.key)
    (hver : read m "ver" = toString a.ver.toNat) (hlb : read m "lb_" = arrToStr a.lb)
    (hub : read m "ub_" = arrToStr a.ub) : decode m = .ok a.toFields := by
  have hlengths : ∀ l ∈ [a.lb, a.ub], l.length = a.ndim.toInt.toNat :=
    List.forall_mem_cons.mpr ⟨a.lb_length, List.forall_mem_singleton.mpr a.ub_length⟩
  have hcoords : coords a.ndim [arrToStr a.lb, arrToStr a.ub] = .ok [a.lb, a.ub] :=
    coords_arrToStr a.nonneg hlengths
  rw [decode, hndim, hkey, hver, hlb, hub, toInt?_ofInt, toUInt32?_toString]
  show (coords a.ndim _).map _ = _
  rw [hcoords]
  rfl

theorem decode_encode (a : Args) : decode (encode base a) = .ok a.toFields := by
  obtain ⟨hndim, hkey, hver, hlb, hub⟩ := read_encode base a
  exact decode_of_read a hndim hkey hver hlb hub

theorem decode_encodeLong (a : LongArgs) : decode (encodeLong base a) = .ok a.toFields := by
  obtain ⟨hndim, hkey, hver, hlb, hub⟩ := read_encodeLong base a
  exact decode_of_read a.short hndim hkey hver hlb hub

theorem decodeLong_encodeLong (a : LongArgs) : decodeLong (encodeLong base a) = .ok a.toLongFields := by
  obtain ⟨hndim, hkey, hver, hlb, hub⟩ := read_encodeLong base a
  obtain ⟨hdata, hsize, hgdim⟩ := read_encodeLong_more base a
  have hlengths : ∀ l ∈ [a.gdim, a.lb, a.ub], l.length = a.ndim.toInt.toNat :=
    List.forall_mem_cons.mpr ⟨a.gdim_length,
      List.forall_mem_cons.mpr ⟨a.lb_length, List.forall_mem_singleton.mpr a.ub_length⟩⟩
  have hcoords : coords a.ndim [arrToStr a.gdim, arrToStr a.lb, arrToStr a.ub] = .ok [a.gdim, a.lb, a.ub] :=
    coords_arrToStr a.nonneg hlengths
  rw [decodeLong, hndim, hkey, hver, hlb, hub, hdata, hsize, hgdim, toInt?_ofInt, toInt?_ofInt, toUInt32?_toString]
  show (coords a.ndim _).map _ = _
  rw [hcoords]
  rfl

theorem encode_other (a : Args) {k : String} (h : k ∉ shortKeys) : encode base a k = base k := by
  simp only [shortKeys, List.mem_cons, List.not_mem_nil, or_false, not_or] at h
  simp [encode, h]

theorem encodeLong_other (a : LongArgs) {k : String} (h : k ∉ longKeys) : encodeLong base a k = base k := by
  simp only [longKeys, List.mem_cons, List.not_mem_nil, or_false, not_or] at h
  simp [encodeLong, h]

/-- Both forms are read back as they were written, a long message also by the short decode, and no other
entry of the map changes. -/
theorem round_trip (a : Args) (l : LongArgs) :
    decode (encode base a) = .ok a.toFields ∧ decodeLong (encodeLong base l) = .ok l.toLongFields ∧
      decode (encodeLong base l) = .ok l.toFields ∧ (∀ k, k ∉ shortKeys → encode base a k = base k) ∧
      ∀ k, k ∉ longKeys → encodeLong base l k = base k :=
  ⟨decode_encode base a, decodeLong_encodeLong base l, decode_encodeLong base l, fun _ => encode_other base a,
    fun _ => encodeLong_other base l⟩

end RoundTrip

/-! ## What is accepted -/

/-- Each of the arrays is `ndim` numeric tokens and no more. -/
def Numeric (ndim : Int32) (arrs : List String) : Prop :=
  0 ≤ ndim ∧ ∀ s ∈ arrs, (coorTokens s).length = ndim.toInt.toNat ∧ ∀ t ∈ coorTokens s, (toUInt64? t).isSome

def WellFormed (m : MsgMap) : Prop :=
  ∃ ndim ver, toInt? (read m "ndim") = some ndim ∧ toUInt32? (read m "ver") = some ver ∧
    Numeric ndim [read m "lb_", read m "ub_"]

def WellFormedLong (m : MsgMap) : Prop :=
  ∃ ver size ndim, toUInt32? (read m "ver") = some ver ∧ toInt? (read m "size") = some size ∧
    toInt? (read m "ndim") = some ndim ∧ Numeric ndim [read m "gdim_", read m "lb_", read m "ub_"]

/-- The call returns 0 on what is well formed, and an error on everything else. -/
def Exact {α : Type} (wellFormed : Prop) (o : Decoded α) : Prop :=
  (wellFormed → ∃ a, o = .ok a) ∧ (¬wellFormed → o = .err)

/-- The arrays have `ndim` tokens each, or the loop comes to a token that is not a number before it comes to
the end of an array. -/
def StopsInTime (ndim : Int32) (arrs : List String) : Prop :=
  0 ≤ ndim ∧ ((∀ s ∈ arrs, (coorTokens s).length = ndim.toInt.toNat) ∨
    ∃ t, firstBad toUInt64? ndim.toInt.toNat (arrs.map coorTokens) = some (some t))

def Stops (m : MsgMap) : Prop :=
  ∀ ndim ver, toInt? (read m "ndim") = some ndim → toUInt32? (read m "ver") = some ver →
    StopsInTime ndim [read m "lb_", read m "ub_"]

def StopsLong (m : MsgMap) : Prop :=
  ∀ ver size ndim, toUInt32? (read m "ver") = some ver → toInt? (read m "size") = some size →
    toInt? (read m "ndim") = some ndim → StopsInTime ndim [read m "gdim_", read m "lb_", read m "ub_"]

section Exact
variable {α β : Type} {p : Prop}

/-- What is made of the coordinates does not matter. -/
theorem exact_map {o : Decoded α} (f : α → β) : Exact p (o.map f) ↔ Exact p o := by
  cases o <;> simp [Exact, Decoded.map]

theorem exact_err : Exact p (.err : Decoded α) ↔ ¬p := by simp [Exact]

theorem exact_ok (a : α) : Exact p (.ok a) ↔ p := by simp [Exact]

/-- Numeric arrays have no bad read. -/
theorem firstBad_of_numeric {ndim : Int32} {arrs : List String} (h : Numeric ndim arrs) :
    firstBad toUInt64? ndim.toInt.toNat (arrs.map coorTokens) = none := by
  rw [Tokens.firstBad_eq_none]
  intro s hs
  obtain ⟨a, ha, rfl⟩ := List.mem_map.mp hs
  obtain ⟨hlength, hnum⟩ := h.2 a ha
  exact ⟨hlength.ge, fun t ht => hnum t (List.mem_of_mem_take ht)⟩

theorem coords_exact (ndim : Int32) (arrs : List String) :
    Exact (Numeric ndim arrs) (coords ndim arrs) ↔ StopsInTime ndim arrs := by
  by_cases hneg : ndim < 0
  · have hnot : ¬(0 : Int32) ≤ ndim := Int32.not_le.mpr hneg
    simp [coords, hneg, Exact, Numeric, StopsInTime, hnot]
  · have hndim : (0 : Int32) ≤ ndim := Int32.not_lt.mp hneg
    rw [coords, if_neg hneg, Tokens.readRows_eq]
    cases hfirst : firstBad toUInt64? ndim.toInt.toNat (arrs.map coorTokens) with
    | none =>
      -- the loop reads numbers only, and the arrays may be longer
      show Exact (Numeric ndim arrs) (.ok _) ↔ _
      rw [exact_ok]
      have hreads := (Tokens.firstBad_eq_none _).mp hfirst
      constructor
      · intro h
        exact ⟨hndim, .inl fun s hs => (h.2 s hs).1⟩
      · rintro ⟨-, hlength | ⟨t, ht⟩⟩
        · refine ⟨hndim, fun s hs => ⟨hlength s hs, fun t ht => ?_⟩⟩
          refine (hreads _ (List.mem_map_of_mem hs)).2 t ?_
          rwa [List.take_of_length_le (hlength s hs).le]
        · rw [hfirst] at ht
          cases ht
    | some read =>
      have hnot : ¬Numeric ndim arrs := by
        intro h
        rw [firstBad_of_numeric h] at hfirst
        cases hfirst
      cases read with
      | some t =>
        show Exact (Numeric ndim arrs) .err ↔ _
        rw [exact_err]
        exact ⟨fun _ => ⟨hndim, .inr ⟨t, hfirst⟩⟩, fun _ => hnot⟩
      | none =>
        obtain ⟨s', hs', hshort⟩ := Tokens.short_of_pastEnd _ hfirst
        obtain ⟨s, hs, rfl⟩ := List.mem_map.mp hs'
        constructor
        · intro h
          cases h.2 hnot
        · rintro ⟨-, hlength | ⟨t, ht⟩⟩
          · have := hlength s hs
            omega
          · rw [hfirst] at ht
            cases ht

theorem decode_exact (m : MsgMap) : Exact (WellFormed m) (decode m) ↔ Stops m := by
  unfold decode WellFormed Stops
  cases toInt? (read m "ndim") with
  | none => simp [exact_err]
  | some ndim =>
    cases toUInt32? (read m "ver") with
    | none => simp [exact_err]
    | some ver => simp [exact_map, coords_exact]

theorem decodeLong_exact (m : MsgMap) : Exact (WellFormedLong m) (decodeLong m) ↔ StopsLong m := by
  unfold decodeLong WellFormedLong StopsLong
  cases toUInt32? (read m "ver") with
  | none => simp [exact_err]
  | some ver =>
    cases toInt? (read m "size") with
    | none => simp [exact_err]
    | some size =>
      cases toInt? (read m "ndim") with
      | none => simp [exact_err]
      | some ndim => simp [exact_map, coords_exact]

end Exact

/-- Each decode accepts the encoded format and nothing else on exactly those maps whose numbers do not parse,
or whose `ndim` is not negative and whose arrays have `ndim` tokens each or a token that is not a number
before the first array ends. -/
theorem decodes_exact_iff (m : MsgMap) :
    (Exact (WellFormed m) (decode m) ↔ Stops m) ∧ (Exact (WellFormedLong m) (decodeLong m) ↔ StopsLong m) :=
  ⟨decode_exact m, decodeLong_exact m⟩

/-- One dimension, version 0 and the given corners. -/
def oneDim (ndim lb ub : String) : MsgMap := fun k =>
  if k = "ndim" then some ndim else if k = "ver" then some "0"
  else if k = "lb_" then some lb else if k = "ub_" then some ub else none

/-- A second token is ignored, a missing one is read all the same, and a negative `ndim` is taken for a size. -/
theorem decode_not_exact :
    decode (oneDim "1" "4,5" "6") = .ok ⟨1, "", 0, [4], [6]⟩ ∧ decode (oneDim "1" "4" "") = .pastEnd ∧
      decode (oneDim "-1" "4" "6") = .wrappedSize ∧ ¬∀ m, Exact (WellFormed m) (decode m) := by
  refine ⟨by decide, by decide, by decide, fun h => ?_⟩
  have hwrapped : decode (oneDim "-1" "4" "6") = .wrappedSize := by decide
  have hboth := h (oneDim "-1" "4" "6")
  by_cases hw : WellFormed (oneDim "-1" "4" "6")
  · obtain ⟨a, ha⟩ := hboth.1 hw
    rw [hwrapped] at ha
    cases ha
  · have herr := hboth.2 hw
    rw [hwrapped] at herr
    cases herr

/-! ## Data ids -/

/-- `get_data_id` on a message map. -/
def dataIdOfMap (m : MsgMap) : DataIdT → String
  | .kv => read m "key" ++ "_" ++ read m "ver"
  | .lucoor => read m "lb_" ++ "_" ++ read m "ub_"

/-- The arguments with `NDIM` for `ndim`. -/
def argsOf (d : Datum) : Args where
  ndim := 3
  key := d.key
  ver := d.ver
  lb := d.lcoor.toList
  ub := d.ucoor.toList
  nonneg := by decide
  lb_length := Vector.length_toList
  ub_length := Vector.length_toList

def longArgsOf (d : Datum) (dataType : String) (size : Int32) (gdim : Vector UInt64 Patch.ndim) : LongArgs where
  toFields := (argsOf d).toFields
  dataType := dataType
  size := size
  gdim := gdim.toList
  nonneg := (argsOf d).nonneg
  gdim_length := Vector.length_toList
  lb_length := Vector.length_toList
  ub_length := Vector.length_toList

/-- The maps have the same arguments. -/
def SameArgs (m m' : MsgMap) : Prop := ∀ k ∈ longKeys, read m k = read m' k

/-- The map with its arguments only. -/
def argsOnly (m : MsgMap) : MsgMap := fun k => if k ∈ longKeys then some (read m k) else none

section SameArgs
variable {m m' : MsgMap}

theorem sameArgs_argsOnly (m : MsgMap) : SameArgs (argsOnly m) m := by
  intro k hk
  rw [read, argsOnly, if_pos hk]
  rfl

theorem SameArgs.argsOnly_eq (h : SameArgs m m') : argsOnly m = argsOnly m' := by
  funext k
  unfold argsOnly
  split
  next hk => rw [h k hk]
  next => rfl

theorem SameArgs.decode_eq (h : SameArgs m m') : decode m = decode m' := by
  rw [decode, decode, h "ndim" (by decide), h "ver" (by decide), h "lb_" (by decide), h "ub_" (by decide),
    h "key" (by decide)]

theorem SameArgs.decodeLong_eq (h : SameArgs m m') : decodeLong m = decodeLong m' := by
  rw [decodeLong, decodeLong, h "ver" (by decide), h "size" (by decide), h "ndim" (by decide), h "gdim_" (by decide),
    h "lb_" (by decide), h "ub_" (by decide), h "key" (by decide), h "data_type" (by decide)]

theorem SameArgs.dataId_eq (h : SameArgs m m') (kind : DataIdT) : dataIdOfMap m kind = dataIdOfMap m' kind := by
  cases kind with
  | kv => rw [dataIdOfMap, dataIdOfMap, h "key" (by decide), h "ver" (by decide)]
  | lucoor => rw [dataIdOfMap, dataIdOfMap, h "lb_" (by decide), h "ub_" (by decide)]

theorem decode_argsOnly (m : MsgMap) : decode (argsOnly m) = decode m := (sameArgs_argsOnly m).decode_eq

theorem decodeLong_argsOnly (m : MsgMap) : decodeLong (argsOnly m) = decodeLong m := (sameArgs_argsOnly m).decodeLong_eq

theorem dataIdOfMap_argsOnly (m : MsgMap) (kind : DataIdT) : dataIdOfMap (argsOnly m) kind = dataIdOfMap m kind :=
  (sameArgs_argsOnly m).dataId_eq kind

theorem argsOnly_encodeLong (a : LongArgs) : argsOnly (encodeLong (fun _ => none) a) = encodeLong (fun _ => none) a := by
  funext k
  by_cases hk : k ∈ longKeys
  · rw [argsOnly, if_pos hk]
    simp only [longKeys, List.mem_cons, List.not_mem_nil, or_false] at hk
    rcases hk with rfl | rfl | rfl | rfl | rfl | rfl | rfl | rfl <;> simp [read, encodeLong]
  · rw [argsOnly, if_neg hk, encodeLong_other _ a hk]

end SameArgs

theorem dataIdOfMap_encode (base : MsgMap) (d : Datum) (kind : DataIdT) :
    dataIdOfMap (encode base (argsOf d)) kind = getDataId kind d := by
  obtain ⟨-, hkey, hver, hlb, hub⟩ := read_encode base (argsOf d)
  cases kind with
  | kv =>
    rw [dataIdOfMap, hkey, hver]
    rfl
  | lucoor =>
    rw [dataIdOfMap, hlb, hub]
    rfl

theorem dataIdOfMap_encodeLong (base : MsgMap) (d : Datum) (dataType : String) (size : Int32)
    (gdim : Vector UInt64 Patch.ndim) (kind : DataIdT) :
    dataIdOfMap (encodeLong base (longArgsOf d dataType size gdim)) kind = getDataId kind d := by
  obtain ⟨-, hkey, hver, hlb, hub⟩ := read_encodeLong base (longArgsOf d dataType size gdim)
  cases kind with
  | kv =>
    rw [dataIdOfMap, hkey, hver]
    rfl
  | lucoor =>
    rw [dataIdOfMap, hlb, hub]
    rfl

/-- Joined coordinates have digits and commas only. -/
theorem not_mem_arrToStr {c : Char} (hdigit : c.isDigit = false) (hcomma : c ≠ ',') (l : List UInt64) :
    c ∉ (arrToStr l).toList := by
  induction l with
  | nil => simp [arrToStr]
  | cons n l ih =>
    have hc : c ∉ (toString n.toNat).toList := toString_ne n.toNat hdigit
    cases l with
    | nil =>
      rw [show arrToStr [n] = toString n.toNat from String.intercalate_singleton]
      exact hc
    | cons n' l =>
      have hcons : arrToStr (n :: n' :: l) = toString n.toNat ++ "," ++ arrToStr (n' :: l) :=
        String.intercalate_cons_cons
      rw [hcons, String.toList_append, String.toList_append, List.mem_append, List.mem_append]
      rintro ((h | h) | h)
      · exact hc h
      · exact hcomma (List.mem_singleton.mp h)
      · exact ih h

theorem underscore_not_mem_arrToStr (l : List UInt64) : '_' ∉ (arrToStr l).toList :=
  not_mem_arrToStr (by decide) (by decide) l

/-- Joined coordinates are different where the coordinates are. -/
theorem arrToStr_injective {l l' : List UInt64} (h : arrToStr l = arrToStr l') : l = l' := by
  have htokens : (l.map fun c => toString c.toNat) = l'.map fun c => toString c.toNat := by
    rw [← coorTokens_arrToStr l, h, coorTokens_arrToStr l']
  rw [← filterMap_toUInt64? l, htokens, filterMap_toUInt64? l']

/-- A box data id names one box: neither a digit nor a comma is an underscore. -/
theorem getDataId_lucoor {d d' : Datum} (h : getDataId .lucoor d = getDataId .lucoor d') :
    d.lcoor = d'.lcoor ∧ d.ucoor = d'.ucoor := by
  have hlist : (arrToStr d.lcoor.toList).toList ++ '_' :: (arrToStr d.ucoor.toList).toList =
      (arrToStr d'.lcoor.toList).toList ++ '_' :: (arrToStr d'.ucoor.toList).toList := by
    simpa [getDataId] using congrArg String.toList h
  obtain ⟨hl, hu⟩ := Patch.append_cons_split (underscore_not_mem_arrToStr _) (underscore_not_mem_arrToStr _) hlist
  exact ⟨Vector.toList_inj.mp (arrToStr_injective (String.toList_inj.mp hl)),
    Vector.toList_inj.mp (arrToStr_injective (String.toList_inj.mp hu))⟩

/-- Both overloads give the same id, on the map of either form, and an id names one key and version or one
box. -/
theorem data_ids_identify (base : MsgMap) (d d' : Datum) (dataType : String) (size : Int32)
    (gdim : Vector UInt64 Patch.ndim) :
    (∀ kind, dataIdOfMap (encode base (argsOf d)) kind = getDataId kind d) ∧
      (∀ kind, dataIdOfMap (encodeLong base (longArgsOf d dataType size gdim)) kind = getDataId kind d) ∧
      (getDataId .kv d = getDataId .kv d' ↔ d.key = d'.key ∧ d.ver = d'.ver) ∧
      (getDataId .lucoor d = getDataId .lucoor d' ↔ d.lcoor = d'.lcoor ∧ d.ucoor = d'.ucoor) := by
  refine ⟨dataIdOfMap_encode base d, dataIdOfMap_encodeLong base d dataType size gdim,
    ⟨Patch.getDataId_kv, ?_⟩, ⟨getDataId_lucoor, ?_⟩⟩
  · rintro ⟨hkey, hver⟩
    rw [getDataId, getDataId, hkey, hver]
  · rintro ⟨hl, hu⟩
    rw [getDataId, getDataId, hl, hu]

end MsgCoder
