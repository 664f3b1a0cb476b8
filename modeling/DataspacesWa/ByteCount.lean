import DataspacesWa.Reassembly

/-!
# Byte counts of a transfer

The sender counts the bytes of its data in `RFPManager::wa_put`, in
`Trans::init_put` and in the transport, the receiver in `RFPManager::wa_get`:
in 32 or 64 bits, in elements or in bytes. What the network does is an argument:
how the sends of a transport end.
-/
namespace ByteCount

open Reassembly (DataType dataSize)

/-! ## Boxes -/

/-- `gdim_[i]`, `lb_[i]` and `ub_[i]`. -/
structure Side where
  gdim : UInt64
  lb : UInt64
  ub : UInt64
  deriving DecidableEq, Repr

def Side.feasible (s : Side) : Bool := s.lb ≤ s.gdim && s.ub ≤ s.gdim && s.lb ≤ s.ub

/-- `dim_length[i]` -/
def Side.dimLength (s : Side) : UInt64 := s.ub - s.lb + 1

/-- `DSDriver::get_data_length`; zero on a side that is not feasible. -/
def getDataLength (sides : List Side) : UInt64 :=
  if sides.all Side.feasible then sides.foldl (fun volume s => volume * s.dimLength) 1 else 0

structure Box where
  sides : List Side
  feasible : ∀ s ∈ sides, s.lb ≤ s.ub ∧ s.ub ≤ s.gdim

/-- The number of elements, both bounds included. -/
def Box.volume (b : Box) : Nat := (b.sides.map fun s => s.ub.toNat - s.lb.toNat + 1).prod

theorem Box.volume_pos (b : Box) : 0 < b.volume := by
  refine List.prod_pos ?_
  intro x hx
  obtain ⟨s, -, rfl⟩ := List.mem_map.mp hx
  exact Nat.succ_pos _

theorem Side.dimLength_toNat {s : Side} (h : s.lb ≤ s.ub) :
    s.dimLength.toNat = (s.ub.toNat - s.lb.toNat + 1) % 2 ^ 64 := by
  rw [Side.dimLength, UInt64.toNat_add, UInt64.toNat_sub_of_le _ _ h]
  rfl

theorem foldl_dimLength (sides : List Side) (h : ∀ s ∈ sides, s.lb ≤ s.ub) (volume : UInt64) :
    (sides.foldl (fun volume s => volume * s.dimLength) volume).toNat =
      (volume.toNat * (sides.map fun s => s.ub.toNat - s.lb.toNat + 1).prod) % 2 ^ 64 := by
  induction sides generalizing volume with
  | nil =>
    rw [List.foldl_nil, List.map_nil, List.prod_nil, Nat.mul_one]
    exact (Nat.mod_eq_of_lt volume.toNat_lt).symm
  | cons s sides ih =>
    have hs : s.lb ≤ s.ub := h s List.mem_cons_self
    rw [List.foldl_cons, ih (fun s hs => h s (List.mem_cons_of_mem _ hs)), List.map_cons, List.prod_cons,
      UInt64.toNat_mul, Side.dimLength_toNat hs, ← Nat.mul_assoc]
    simp only [Nat.mul_mod, Nat.mod_mod]

/-- The count of the elements is cut to 64 bits. -/
theorem getDataLength_toNat (b : Box) : (getDataLength b.sides).toNat = b.volume % 2 ^ 64 := by
  have hall : b.sides.all Side.feasible = true := by
    rw [List.all_eq_true]
    intro s hs
    obtain ⟨hlb, hub⟩ := b.feasible s hs
    have hle : s.lb ≤ s.gdim := UInt64.le_trans hlb hub
    simp [Side.feasible, hlb, hub, hle]
  rw [getDataLength, if_pos hall, foldl_dimLength b.sides (fun s hs => (b.feasible s hs).1), Box.volume]
  simp

/-! ## Types -/

/-- The comparisons of `data_type` in the transports. -/
def dataTypeOf (name : String) : Option DataType :=
  if name = "char" then some .char
  else if name = "int" then some .int
  else if name = "float" then some .float
  else if name = "double" then some .double
  else none

/-- A data type and its element size, as an app declares them. -/
structure Declared where
  dataType : String
  size : Int32
  pos : 0 < size.toInt
  sizeof : ∀ t, dataTypeOf dataType = some t → size.toInt = t.sizeOf.toNat

/-! ## Widths -/

/-- A count that is put into an `int`. -/
def intOf (x : UInt64) : Int32 := x.toUInt32.toInt32

/-- An `int` that is put into an `uint64_t`. -/
def widen (i : Int32) : UInt64 := i.toInt64.toUInt64

theorem intOf_toInt (x : UInt64) :
    (intOf x).toInt = if x.toNat % 2 ^ 32 < 2 ^ 31 then (x.toNat % 2 ^ 32 : Int) else x.toNat % 2 ^ 32 - 2 ^ 32 := by
  have hbits : (intOf x).toInt = Int.bmod (x.toNat % 2 ^ 32 : Nat) (2 ^ 32) := by
    change (intOf x).toBitVec.toInt = _
    rw [BitVec.toInt_eq_toNat_bmod, intOf, UInt32.toBitVec_toInt32, UInt32.toNat_toBitVec, UInt64.toNat_toUInt32]
  rw [hbits, Int.bmod_def]
  split <;> split <;> omega

theorem widen_toNat (i : Int32) : ((widen i).toNat : Int) = i.toInt % 2 ^ 64 := by
  have hbits : ((widen i).toNat : Int) = (i.toInt64.toBitVec.toNat : Int) := rfl
  have hword : (i.toInt64.toBitVec.toInt) = i.toInt := Int32.toInt_toInt64 i
  have hlt : i.toInt64.toBitVec.toNat < 2 ^ 64 := i.toInt64.toBitVec.isLt
  rw [hbits, ← hword, BitVec.toInt_eq_toNat_bmod, Int.bmod_def]
  split <;> omega

/-- A count comes back from its `int` when it is small, or when its upper half is all ones. -/
theorem widen_intOf_iff (x : UInt64) :
    x = widen (intOf x) ↔ x.toNat < 2 ^ 31 ∨ 2 ^ 64 - 2 ^ 31 ≤ x.toNat := by
  have hwide : ((widen (intOf x)).toNat : Int) = (intOf x).toInt % 2 ^ 64 := widen_toNat (intOf x)
  have hint := intOf_toInt x
  have hlt : x.toNat < 2 ^ 64 := x.toNat_lt
  rw [← UInt64.toNat_inj]
  split at hint <;> omega

/-! ## Transports -/

/-- How the transport carries one transfer. -/
inductive Link where
  /-- The chunks that are written before the connection breaks, `none` where it does not. -/
  | infiniband : Option Nat → Link
  /-- Whether the header is written, and what each `send_chunk` returns. -/
  | tcp : Bool → List (Option Nat) → Link
  /-- The bytes the file takes, `none` where it cannot be opened, and whether it is put. -/
  | gridftp : Option Nat → Bool → Link
  deriving DecidableEq, Repr

def ibMaxDataIdLength : Nat := 20

/-- `BUFFER_SIZE` -/
def bufferSize : Nat := 100 * 1024 * 1024

/-- `IBClient::make_header`: the size is printed as an `int` and read back. -/
def makeHeader (dataId : String) (dataSize : UInt64) : Bool :=
  dataId.utf8ByteSize ≤ ibMaxDataIdLength && (dataSize = 0 || dataSize = widen (intOf dataSize))

/-- The chunks that `IBClient::send_data` puts on the queue. -/
def chunks (dataSize : Nat) : List Nat :=
  if dataSize = 0 then [] else min bufferSize dataSize :: chunks (dataSize - min bufferSize dataSize)
termination_by dataSize
decreasing_by rw [bufferSize]; omega

/-- Four bytes at `offset` that read as the end indicator. -/
def isEof (data : Nat → UInt8) (offset : Nat) : Bool :=
  data offset = 69 && data (offset + 1) = 79 && data (offset + 2) = 70 && data (offset + 3) = 0

/-- The bytes that `IBClient::send_next` writes. The server ends the connection when it has
all of the data: it goes on waiting where the last chunk is taken for the end indicator,
or where there is none, and so do `send_data` and the threads that `~IBClient` joins. -/
def sendNext (data : Nat → UInt8) : Option Nat → Nat → List Nat → Option Nat
  | some 0, _, _ => some 0
  | _, _, [] => none
  | through, offset, chunk :: rest =>
    if chunk = 4 ∧ isEof data offset then none
    else if rest = [] then some chunk
    else (sendNext data (through.map Nat.pred) (offset + chunk) rest).map (chunk + ·)

/-- `IBClient::send_data` and `~IBClient`. Where the header is refused a thread waits in
`pop` for it, unless the connection breaks before the server asks. -/
def ibSend (dataId : String) (dataSize : UInt64) (data : Nat → UInt8) (through : Option Nat) : Option Nat :=
  if makeHeader dataId dataSize then sendNext data through 0 (chunks dataSize.toNat)
  else if through = some 0 then some 0
  else none

/-- `TCP_CHUNK_SIZE` of the client. -/
def tcpChunkSize : Nat := 10 * 1024 * 1024

/-- The bytes that `TCPClient::send` writes; `none` where it does not call `send_chunk` so. -/
def tcpSend : Nat → List (Option Nat) → Option Nat
  | 0, [] => some 0
  | _ + 1, [none] => some 0
  | left + 1, some k :: results =>
    if 0 < k ∧ k ≤ min tcpChunkSize (left + 1) then (tcpSend (left + 1 - k) results).map (k + ·) else none
  | _, _ => none

/-- `Trans::init_put`: the bytes transmitted where it returns, and returns zero. What
`IBClient::send_data` and `TCPTrans::send` return is not looked at. -/
def initPut (link : Link) (dataType dataId : String) (dataLength : UInt64) (data : Nat → UInt8) : Option Nat :=
  match link with
  | .infiniband through =>
    (dataTypeOf dataType).bind fun t => ibSend dataId (dataLength * t.sizeOf) data through
  | .tcp header results =>
    (dataTypeOf dataType).bind fun t =>
      -- without a connection `boost::asio::write` throws
      if header then tcpSend (dataSize t dataLength).toInt.toNat results else none
  | .gridftp taken put =>
    -- the `int` of the length is taken for the size in bytes
    taken.bind fun k => if put then some (min k (intOf dataLength).toInt.toNat) else none

/-- `RFPManager::wa_put`, with the data that `reg_get_wait_for_completion` gets. -/
def waPut (link : Link) (d : Declared) (dataId : String) (sides : List Side) (data : Option (Nat → UInt8)) :
    Option Nat :=
  let dataLength := intOf (getDataLength sides)
  if dataLength = 0 then none
  -- the product of two `int`s; there is no buffer of a size that is not positive
  else if 0 < d.size.toInt * dataLength.toInt ∧ d.size.toInt * dataLength.toInt < 2 ^ 31 then
    data.bind (initPut link d.dataType dataId (widen dataLength))
  else none

/-- The buffer of `RFPManager::wa_get`. -/
def allocated (d : Declared) (sides : List Side) : Nat :=
  (d.size.toInt64.toUInt64 * getDataLength sides).toNat

/-- The bytes of the elements, in no width. -/
def Declared.bytes (d : Declared) (volume : Nat) : Nat := d.size.toInt.toNat * volume

/-- Sender and receiver count the same bytes, and no other number than the data has. -/
def Agrees (d : Declared) (b : Box) (sent : Nat) : Prop :=
  sent = d.bytes b.volume ∧ allocated d b.sides = d.bytes b.volume

/-- The whole of the data is carried: no send fails, and its size fits the width the
transport counts in. -/
def Complete (d : Declared) (volume : Nat) : Link → Prop
  | .infiniband through => d.bytes volume < 2 ^ 64 ∧ ∀ k, through = some k → d.bytes volume ≤ k * bufferSize
  | .tcp _ results => d.bytes volume < 2 ^ 31 ∧ none ∉ results
  | .gridftp taken _ => d.size.toInt = 1 ∧ volume < 2 ^ 31 ∧ ∀ k, taken = some k → volume ≤ k

/-! ## What is sent -/

theorem tcpSend_le_iff {left sent : Nat} {results : List (Option Nat)} (h : tcpSend left results = some sent) :
    sent ≤ left ∧ (sent = left ↔ none ∉ results) := by
  induction results generalizing left sent with
  | nil =>
    cases left with
    | zero => cases h; simp
    | succ left => exact absurd h (by simp [tcpSend])
  | cons r results ih =>
    cases left with
    | zero => exact absurd h (by simp [tcpSend])
    | succ left =>
      cases r with
      | none =>
        cases results with
        | nil => cases h; simp
        | cons r results => exact absurd h (by simp [tcpSend])
      | some k =>
        rw [tcpSend] at h
        split at h
        next hk =>
          obtain ⟨rest, hrest, rfl⟩ := Option.map_eq_some_iff.mp h
          obtain ⟨hle, hiff⟩ := ih hrest
          refine ⟨by omega, ?_⟩
          rw [List.mem_cons, not_or, ← hiff]
          constructor
          · intro hsum
            exact ⟨by simp, by omega⟩
          · rintro ⟨-, hsum⟩
            omega
        next => exact absurd h (by simp)

theorem chunks_eq_nil_iff (size : Nat) : chunks size = [] ↔ size = 0 := by
  rw [chunks]
  split <;> simp_all

/-- Where the connection ends, all of the queue is written unless it breaks before. -/
theorem sendNext_chunks_iff {data : Nat → UInt8} {size sent offset : Nat} {through : Option Nat}
    (h : sendNext data through offset (chunks size) = some sent) :
    sent ≤ size ∧ (0 < size → (sent = size ↔ ∀ k, through = some k → size ≤ k * bufferSize)) := by
  induction size using Nat.strong_induction_on generalizing through offset sent with
  | _ size ih =>
    have hbuf : bufferSize = 104857600 := rfl
    by_cases hbroken : through = some 0
    · subst hbroken
      rw [sendNext] at h
      obtain rfl := Option.some.inj h
      refine ⟨Nat.zero_le _, fun hpos => ⟨fun heq => by omega, fun hle => ?_⟩⟩
      have := hle 0 rfl
      omega
    · rw [chunks] at h
      split at h
      next => rw [sendNext.eq_2 _ _ _ hbroken] at h; cases h
      next hne =>
        rw [sendNext.eq_3 _ _ _ _ _ hbroken] at h
        split at h
        next => cases h
        next =>
          have hmany : ∀ k, through = some k → 1 ≤ k := by
            rintro k rfl
            exact Nat.one_le_iff_ne_zero.mpr fun hk => hbroken (by rw [hk])
          split at h
          next hlast =>
            obtain rfl := Option.some.inj h
            rw [chunks_eq_nil_iff] at hlast
            refine ⟨by omega, fun _ => ⟨fun _ k hk => ?_, fun _ => by omega⟩⟩
            exact Nat.le_trans (by omega) (Nat.le_mul_of_pos_left bufferSize (hmany k hk))
          next hrest =>
            obtain ⟨tail, htail, rfl⟩ := Option.map_eq_some_iff.mp h
            rw [chunks_eq_nil_iff] at hrest
            obtain ⟨hle, hiff⟩ := ih _ (by omega) htail
            refine ⟨by omega, fun _ => ?_⟩
            have hsum : min bufferSize size + tail = size ↔ tail = size - min bufferSize size := by omega
            rw [hsum, hiff (by omega)]
            constructor
            · rintro hall k rfl
              have hk := hall (k - 1) rfl
              have hone := hmany k rfl
              rw [Nat.sub_mul] at hk
              omega
            · intro hall k hk
              obtain ⟨k', rfl, rfl⟩ := Option.map_eq_some_iff.mp hk
              have hk' := hall k' rfl
              rw [Nat.pred_eq_sub_one, Nat.sub_mul]
              omega

theorem ibSend_le_iff {dataId : String} {x : UInt64} {data : Nat → UInt8} {through : Option Nat} {sent : Nat}
    (h : ibSend dataId x data through = some sent) :
    sent ≤ x.toNat ∧ (0 < x.toNat → (sent = x.toNat ↔ ∀ k, through = some k → x.toNat ≤ k * bufferSize)) := by
  rw [ibSend] at h
  split at h
  next => exact sendNext_chunks_iff h
  next =>
    split at h
    next hbroken =>
      obtain rfl := Option.some.inj h
      refine ⟨Nat.zero_le _, fun hpos => ⟨fun heq => by omega, fun hle => ?_⟩⟩
      have := hle 0 hbroken
      omega
    next => cases h

section Counts
variable {d : Declared} {t : DataType} {volume : Nat} {dataLength : UInt64}

theorem Declared.volume_le_bytes (d : Declared) (volume : Nat) : volume ≤ d.bytes volume :=
  Nat.le_mul_of_pos_left volume (by have := d.pos; omega)

theorem product_toNat (ht : dataTypeOf d.dataType = some t) (hlen : dataLength.toNat = volume % 2 ^ 64) :
    (dataLength * t.sizeOf).toNat = d.bytes volume % 2 ^ 64 := by
  have hsize : d.size.toInt.toNat = t.sizeOf.toNat := by rw [d.sizeof t ht, Int.toNat_natCast]
  rw [UInt64.toNat_mul, hlen, Declared.bytes, hsize, Nat.mul_comm]
  simp only [Nat.mul_mod, Nat.mod_mod]

/-- What a transport sends is never more than the data; when it is the data. -/
theorem initPut_le_iff {link : Link} {dataId : String} {data : Nat → UInt8} {sent : Nat} (hpos : 0 < volume)
    (hlen : dataLength.toNat = volume % 2 ^ 64)
    (h : initPut link d.dataType dataId dataLength data = some sent) :
    sent ≤ d.bytes volume ∧ (sent = d.bytes volume ∧ d.bytes volume < 2 ^ 64 ↔ Complete d volume link) := by
  have hbytes : volume ≤ d.bytes volume := d.volume_le_bytes volume
  cases link with
  | infiniband through =>
    obtain ⟨t, ht, h⟩ := Option.bind_eq_some_iff.mp h
    have hx : (dataLength * t.sizeOf).toNat = d.bytes volume % 2 ^ 64 := product_toNat ht hlen
    obtain ⟨hle, hiff⟩ := ibSend_le_iff h
    refine ⟨by omega, ?_⟩
    rw [Complete]
    by_cases hfit : d.bytes volume < 2 ^ 64
    · rw [hx, Nat.mod_eq_of_lt hfit] at hiff
      rw [hiff (by omega)]
      exact And.comm
    · exact ⟨fun h => absurd h.2 hfit, fun h => absurd h.1 hfit⟩
  | tcp header results =>
    obtain ⟨t, ht, h⟩ := Option.bind_eq_some_iff.mp h
    have hx : (dataLength * t.sizeOf).toNat = d.bytes volume % 2 ^ 64 := product_toNat ht hlen
    have hint : (dataSize t dataLength).toInt = _ := intOf_toInt (dataLength * t.sizeOf)
    split at h
    next hheader =>
      obtain ⟨hle, hiff⟩ := tcpSend_le_iff h
      refine ⟨by split at hint <;> omega, ?_⟩
      rw [Complete, ← hiff]
      split at hint <;> omega
    next => exact absurd h (by simp)
  | gridftp taken put =>
    obtain ⟨k, rfl, hkept⟩ := Option.bind_eq_some_iff.mp h
    have hint := intOf_toInt dataLength
    split at hkept
    next hput =>
      obtain rfl := Option.some.inj hkept
      refine ⟨by split at hint <;> omega, ?_⟩
      rw [Complete]
      constructor
      · rintro ⟨hsent, -⟩
        have hone : d.size.toInt = 1 := by
          by_contra hne
          have hpos' := d.pos
          have htwo : 2 * volume ≤ d.bytes volume := Nat.mul_le_mul_right volume (by omega)
          split at hint <;> omega
        have hsame : d.bytes volume = volume := by rw [Declared.bytes, hone, Int.toNat_one, Nat.one_mul]
        refine ⟨hone, by split at hint <;> omega, ?_⟩
        rintro _ ⟨⟩
        split at hint <;> omega
      · rintro ⟨hone, hfit, htaken⟩
        have hsame : d.bytes volume = volume := by rw [Declared.bytes, hone, Int.toNat_one, Nat.one_mul]
        have hk : volume ≤ k := htaken k rfl
        split at hint <;> omega
    next => exact absurd hkept (by simp)

theorem allocated_toNat (d : Declared) (b : Box) : allocated d b.sides = d.bytes b.volume % 2 ^ 64 := by
  have hsize : (d.size.toInt64.toUInt64).toNat = d.size.toInt.toNat := by
    have hwide : ((widen d.size).toNat : Int) = d.size.toInt % 2 ^ 64 := widen_toNat d.size
    have hpos := d.pos
    have hlt : d.size.toInt < 2 ^ 31 := d.size.toInt_lt
    change (widen d.size).toNat = _
    omega
  rw [allocated, UInt64.toNat_mul, hsize, getDataLength_toNat, Declared.bytes]
  simp only [Nat.mul_mod, Nat.mod_mod]

theorem agrees_iff (d : Declared) (b : Box) (sent : Nat) :
    Agrees d b sent ↔ sent = d.bytes b.volume ∧ d.bytes b.volume < 2 ^ 64 := by
  rw [Agrees, allocated_toNat]
  omega

end Counts

/-! ## Agreement -/

/-- `wa_put` cuts the length to an `int`, and carries that many elements. -/
theorem waPut_cases {d : Declared} {b : Box} {link : Link} {dataId : String} {data : Nat → UInt8} {sent : Nat}
    (h : waPut link d dataId b.sides (some data) = some sent) :
    ∃ dataLength : UInt64, dataLength.toNat = b.volume % 2 ^ 32 ∧ 0 < b.volume % 2 ^ 32 ∧
      d.bytes (b.volume % 2 ^ 32) < 2 ^ 31 ∧
      initPut link d.dataType dataId dataLength data = some sent := by
  have hlen := getDataLength_toNat b
  have hint := intOf_toInt (getDataLength b.sides)
  have hwide := widen_toNat (intOf (getDataLength b.sides))
  rw [waPut] at h
  split at h
  next => exact absurd h (by simp)
  next =>
    split at h
    next hfit =>
      obtain ⟨hpos, hfit⟩ := hfit
      have hcount : 0 < (intOf (getDataLength b.sides)).toInt :=
        Int.pos_of_mul_pos_right hpos d.pos
      have hcut : (intOf (getDataLength b.sides)).toInt = (b.volume % 2 ^ 32 : Nat) := by
        split at hint <;> omega
      have hbytes : (d.bytes (b.volume % 2 ^ 32) : Int) = d.size.toInt * (b.volume % 2 ^ 32 : Nat) := by
        rw [Declared.bytes, Nat.cast_mul, Int.toNat_of_nonneg (Int.le_of_lt d.pos)]
      rw [hcut] at hfit hcount hwide
      exact ⟨widen (intOf (getDataLength b.sides)), by omega, by omega, by omega, h⟩
    next => exact absurd h (by simp)

/-- Whatever `init_put` and `wa_put` send where they return zero, the two ends agree on
it exactly when the transfer is complete. -/
theorem counts_agree_iff (d : Declared) (b : Box) (link : Link) (dataId : String) (data : Nat → UInt8) :
    (∀ sent, initPut link d.dataType dataId (getDataLength b.sides) data = some sent →
      (Agrees d b sent ↔ Complete d b.volume link)) ∧
    ∀ sent, waPut link d dataId b.sides (some data) = some sent →
      (Agrees d b sent ↔ Complete d b.volume link ∧ d.bytes b.volume < 2 ^ 31) := by
  constructor
  · intro sent h
    rw [agrees_iff]
    exact (initPut_le_iff b.volume_pos (getDataLength_toNat b) h).2
  · intro sent h
    rw [agrees_iff]
    obtain ⟨dataLength, hlen, hpos, hfit, h⟩ := waPut_cases h
    obtain ⟨hle, hiff⟩ := initPut_le_iff hpos (by omega) h
    have hvolume : b.volume ≤ d.bytes b.volume := d.volume_le_bytes b.volume
    constructor
    · rintro ⟨hsent, -⟩
      have hsize : 0 < d.size.toInt.toNat := by have := d.pos; omega
      have hcut : b.volume ≤ b.volume % 2 ^ 32 :=
        Nat.le_of_mul_le_mul_left (hsent ▸ hle : d.bytes b.volume ≤ d.bytes (b.volume % 2 ^ 32)) hsize
      have hsame : b.volume % 2 ^ 32 = b.volume := Nat.le_antisymm (Nat.mod_le _ _) hcut
      rw [hsame] at hiff hfit
      exact ⟨hiff.mp ⟨hsent, by omega⟩, hfit⟩
    · rintro ⟨hcomplete, hsmall⟩
      have hsame : b.volume % 2 ^ 32 = b.volume := Nat.mod_eq_of_lt (by omega)
      rw [hsame] at hiff
      exact hiff.mpr hcomplete

/-- The declarations of two of the types. -/
def intData : Declared where
  dataType := "int"
  size := 4
  pos := by decide
  sizeof := by
    intro t ht
    obtain rfl : DataType.int = t := by simpa [dataTypeOf] using ht
    rfl

def doubleData : Declared where
  dataType := "double"
  size := 8
  pos := by decide
  sizeof := by
    intro t ht
    obtain rfl : DataType.double = t := by simpa [dataTypeOf] using ht
    rfl

/-- A box with one side, from zero to `ub`. -/
def row (ub : UInt64) : Box where
  sides := [⟨ub, 0, ub⟩]
  feasible := by simp

/-- Ten ints go through in one chunk. -/
theorem ten_ints_agree : Agrees intData (row 9) 40 :=
  ((counts_agree_iff intData (row 9) (.tcp true [some 40]) "u_0" (fun _ => 0)).1 40 (by decide +kernel)).mpr
    (by rw [Complete]; decide)

/-- A header that is refused leaves a thread waiting for it. -/
example : initPut (.infiniband none) "int" "temperature_field_u_0" (getDataLength (row 9).sides) (fun _ => 0) = none := by
  decide +kernel

/-- `init_put` returns zero when it sends none of the 2^32 bytes of a row of doubles over
TCP, and one byte for each of ten ints over GridFTP. -/
theorem sent_short :
    initPut (.tcp true []) "double" "u_0" (getDataLength (row 536870911).sides) (fun _ => 0) = some 0 ∧
    ¬ Agrees doubleData (row 536870911) 0 ∧
    initPut (.gridftp (some 10) true) "int" "u_0" (getDataLength (row 9).sides) (fun _ => 0) = some 10 ∧
    ¬ Agrees intData (row 9) 10 := by
  refine ⟨by decide +kernel, ?_, by decide +kernel, ?_⟩ <;>
  · rw [agrees_iff]
    decide

end ByteCount
