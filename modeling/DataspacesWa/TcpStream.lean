import DataspacesWa.Field
import DataspacesWa.Reassembly

/-!
# The TCP data stream

`TCPClient::send` writes the id and the size of the data in two fields of 50
bytes, and then the data as the socket takes it; `TCPServer::init_recv` reads
the two fields and cuts what follows into chunks. What the allocator gives, what
lies after a block in memory and how the socket takes a chunk are arguments.
-/
namespace TcpStream

open Field (upTo block printed toChars)
open Reassembly (tcpMaxDataIdLength toRecvSize)

def tcpMaxDataSizeLength : Nat := 50

/-- `TCP_CHUNK_SIZE` of the client. -/
def tcpChunkSize : Nat := 10 * 1024 * 1024

/-- The `data_size` bytes at `data_`. -/
structure Payload where
  bytes : List UInt8
  fits : bytes.length < 2 ^ 31

def Payload.dataSize (p : Payload) : Int32 := Int32.ofInt p.bytes.length

/-- The socket of the client. Where it throws, `send_chunk` returns -1. -/
structure Socket where
  /-- Whether the two fields can be written; `write` writes all of one or throws out of `send`. -/
  write : Bool
  /-- What the `i`-th call takes of a chunk. -/
  send : Nat → Nat → Option Nat
  taken : ∀ i size k, 0 < size → send i size = some k → 0 < k ∧ k ≤ size

/-- `send_control_data`, what it writes; `none` is the return of 1. -/
def sendControlData (controlData : List UInt8) (maxSize : Nat) (fresh : Nat → UInt8) : Option (List UInt8) :=
  if maxSize < controlData.length then none
  else
    let written := if controlData.length < maxSize then controlData ++ [0] else controlData
    some (block maxSize written fresh)

def chunkSize (left : Nat) : Nat := if tcpChunkSize < left then tcpChunkSize else left

theorem chunkSize_pos {left : Nat} (h : 0 < left) : 0 < chunkSize left ∧ chunkSize left ≤ left := by
  rw [chunkSize, tcpChunkSize]
  split <;> omega

/-- The loop of `send` from its `i`-th round on. -/
def sendChunks (socket : Socket) (i : Nat) (left : List UInt8) : Option (List UInt8) :=
  if _hpos : 0 < left.length then
    match _hsent : socket.send i (chunkSize left.length) with
    | none => none
    | some k => (sendChunks socket (i + 1) (left.drop k)).map fun rest => left.take k ++ rest
  else some []
termination_by left.length
decreasing_by
  have := socket.taken i _ k (chunkSize_pos _hpos).1 _hsent
  rw [List.length_drop]
  omega

/-- `send`, what it has written when it returns 0. It goes on where a field is not written. -/
def send (socket : Socket) (fresh : Nat → Nat → UInt8) (dataId : List UInt8) (p : Payload) : Option (List UInt8) :=
  if socket.write then
    (sendChunks socket 0 p.bytes).map fun data =>
      (sendControlData dataId tcpMaxDataIdLength (fresh 0)).getD [] ++
        (sendControlData (printed p.dataSize) tcpMaxDataSizeLength (fresh 1)).getD [] ++ data
  else none

/-- What `init_recv` hands to the handlers, in the order read. -/
structure Received where
  dataId : List UInt8
  dataSize : Int32
  chunks : List (List UInt8)
  deriving DecidableEq, Repr

theorem toRecvSize_pos {total : Int} (h : total - toRecvSize total ≠ 0) : 0 < toRecvSize total := by
  by_contra hzero
  rw [toRecvSize] at h hzero
  split at hzero
  next hsmall =>
    rw [if_pos hsmall] at h
    omega
  next => exact hzero (by decide)

/-- The inner loop of `init_recv`; `none` where the stream ends first. -/
def recvChunks (total : Int) (stream : List UInt8) : Option (List (List UInt8)) :=
  let n := toRecvSize total
  if _hn : n ≤ stream.length then
    if _hdone : total - n = 0 then some [stream.take n]
    else (recvChunks (total - n) (stream.drop n)).map fun chunks => stream.take n :: chunks
  else none
termination_by stream.length
decreasing_by
  have := toRecvSize_pos _hdone
  rw [List.length_drop]
  omega

/-- `init_recv` on an open server; `after` is what lies after each of the two blocks, up to a zero byte. -/
def initRecv (after : Nat → List UInt8) (stream : List UInt8) : Option Received :=
  if stream.length < tcpMaxDataIdLength + tcpMaxDataIdLength then none
  else
    let dataId := upTo 0 (stream.take tcpMaxDataIdLength ++ after 0)
    let sizeField := (stream.drop tcpMaxDataIdLength).take tcpMaxDataIdLength
    -- a cast that throws ends the thread
    (LexicalCast.ofChars? (toChars (upTo 0 (sizeField ++ after 1)))).bind fun dataSize =>
      (recvChunks dataSize.toInt (stream.drop (tcpMaxDataIdLength + tcpMaxDataIdLength))).map fun chunks =>
        ⟨dataId, dataSize, chunks⟩

/-- Where `send` returns 0, what it wrote is parsed into what it was called with. -/
def RoundTrips (dataId : List UInt8) (p : Payload) : Prop :=
  ∀ socket fresh after stream, send socket fresh dataId p = some stream →
    ∃ r, initRecv after stream = some r ∧ r.dataId = dataId ∧ r.dataSize.toInt = p.bytes.length ∧
      r.chunks.flatten = p.bytes

/-! ## The payload -/

theorem sendChunks_eq {socket : Socket} {i : Nat} {left sent : List UInt8}
    (h : sendChunks socket i left = some sent) : sent = left := by
  fun_induction sendChunks socket i left generalizing sent with
  | case1 i left hpos hsent => exact absurd h (by simp)
  | case2 i left hpos k hsent ih =>
    obtain ⟨rest, hrest, rfl⟩ := Option.map_eq_some_iff.mp h
    rw [ih hrest, List.take_append_drop]
  | case3 i left hnil =>
    obtain rfl := Option.some.inj h
    exact (List.eq_nil_of_length_eq_zero (by omega)).symm

/-- The chunks are the payload, in order, for a size that is its length. -/
theorem recvChunks_flatten {total : Int} {stream : List UInt8} (h : total = stream.length) :
    ∃ chunks, recvChunks total stream = some chunks ∧ chunks.flatten = stream := by
  have hn : toRecvSize total ≤ stream.length := by
    rw [toRecvSize, Reassembly.tcpChunkSize]
    split <;> omega
  rw [recvChunks, dif_pos hn]
  by_cases hdone : total - toRecvSize total = 0
  · refine ⟨[stream.take (toRecvSize total)], by rw [dif_pos hdone], ?_⟩
    rw [List.flatten_singleton, List.take_of_length_le (by omega)]
  · have hpos := toRecvSize_pos hdone
    obtain ⟨chunks, hchunks, hflat⟩ := recvChunks_flatten
      (show total - toRecvSize total = (stream.drop (toRecvSize total)).length by rw [List.length_drop]; omega)
    refine ⟨stream.take (toRecvSize total) :: chunks, by rw [dif_neg hdone, hchunks, Option.map_some], ?_⟩
    rw [List.flatten_cons, hflat, List.take_append_drop]
termination_by stream.length
decreasing_by
  rw [List.length_drop]
  omega

/-! ## The fields -/

section Fields
variable {controlData : List UInt8} {maxSize : Nat} {fresh : Nat → UInt8}

/-- A field with room for the zero byte is read back. -/
theorem sendControlData_read (fresh : Nat → UInt8) (hlen : controlData.length < maxSize) (hnul : 0 ∉ controlData) :
    ∃ field, sendControlData controlData maxSize fresh = some field ∧ field.length = maxSize ∧
      ∀ after, upTo 0 (field ++ after) = controlData := by
  refine ⟨block maxSize (controlData ++ [0]) fresh, ?_, Field.length_block .., fun after => ?_⟩
  · rw [sendControlData, if_neg (by omega), if_pos hlen]
  · rw [Field.block_eq_append (by rw [List.length_append, List.length_singleton]; omega), List.append_assoc,
      List.append_assoc, List.singleton_append, Field.upTo_stop hnul]

/-- A full field runs on into what lies after it. -/
theorem sendControlData_full (hlen : controlData.length = maxSize) :
    sendControlData controlData maxSize fresh = some controlData := by
  have hwritten : block maxSize controlData fresh = controlData := Field.block_full hlen fresh
  rw [sendControlData, if_neg (by omega), if_neg (by omega)]
  exact congrArg some hwritten

end Fields

theorem printed_read (n : Int32) : LexicalCast.ofChars? (toChars (printed n)) = some n := by
  rw [Field.toChars_printed]
  exact LexicalCast.toInt?_ofInt n

theorem Payload.toInt_dataSize (p : Payload) : p.dataSize.toInt = p.bytes.length := by
  have hfits := p.fits
  exact Int32.toInt_ofInt_of_le (by omega) (by omega)

/-! ## The round trip -/

section Parse
variable {after : Nat → List UInt8} {idField sizeField data stream : List UInt8} {r : Received} {n : Int32}

theorem initRecv_fields (hid : idField.length = tcpMaxDataIdLength) (hsize : sizeField.length = tcpMaxDataSizeLength)
    (hread : upTo 0 (sizeField ++ after 1) = printed n) :
    initRecv after (idField ++ sizeField ++ data) =
      (recvChunks n.toInt data).map fun chunks => ⟨upTo 0 (idField ++ after 0), n, chunks⟩ := by
  have hsize' : sizeField.length = tcpMaxDataIdLength := hsize
  have hlen : ¬ (idField ++ sizeField ++ data).length < tcpMaxDataIdLength + tcpMaxDataIdLength := by
    rw [List.length_append, List.length_append]
    omega
  have hboth : (idField ++ sizeField).length = tcpMaxDataIdLength + tcpMaxDataIdLength := by
    rw [List.length_append]
    omega
  rw [initRecv, if_neg hlen, List.drop_left' hboth, List.append_assoc, List.take_left' hid, List.drop_left' hid,
    List.take_left' hsize']
  dsimp only
  rw [hread, printed_read, Option.bind_some]

theorem initRecv_dataId (h : initRecv after stream = some r) :
    r.dataId = upTo 0 (stream.take tcpMaxDataIdLength ++ after 0) := by
  rw [initRecv] at h
  split at h
  next => exact absurd h (by simp)
  next =>
    obtain ⟨dataSize, -, hmap⟩ := Option.bind_eq_some_iff.mp h
    obtain ⟨chunks, -, rfl⟩ := Option.map_eq_some_iff.mp hmap
    rfl

end Parse

theorem roundTrips_of_fits {dataId : List UInt8} (p : Payload) (hlen : dataId.length < tcpMaxDataIdLength)
    (hnul : 0 ∉ dataId) : RoundTrips dataId p := by
  intro socket fresh after stream h
  rw [send] at h
  split at h
  next =>
    obtain ⟨data, hdata, rfl⟩ := Option.map_eq_some_iff.mp h
    obtain rfl := sendChunks_eq hdata
    have hshort : (printed p.dataSize).length < tcpMaxDataSizeLength :=
      Nat.lt_of_le_of_lt (Field.length_printed p.dataSize).2 (by decide)
    obtain ⟨idField, hid, hidLen, hidRead⟩ := sendControlData_read (fresh 0) hlen hnul
    obtain ⟨sizeField, hsize, hsizeLen, hsizeRead⟩ :=
      sendControlData_read (fresh 1) hshort (Field.notMem_printed p.dataSize (by decide))
    obtain ⟨chunks, hchunks, hflat⟩ := recvChunks_flatten p.toInt_dataSize
    refine ⟨⟨upTo 0 (idField ++ after 0), p.dataSize, chunks⟩, ?_, hidRead (after 0), p.toInt_dataSize, hflat⟩
    rw [hid, hsize, Option.getD_some, Option.getD_some, initRecv_fields hidLen hsizeLen (hsizeRead (after 1)), hchunks,
      Option.map_some]
  next => exact absurd h (by simp)

/-- Every chunk is taken whole. -/
def Socket.whole : Socket where
  write := true
  send _ size := some size
  taken := by
    intro i size k hpos h
    obtain rfl := Option.some.inj h
    exact ⟨hpos, Nat.le_refl _⟩

theorem sendChunks_whole (i : Nat) (left : List UInt8) : sendChunks Socket.whole i left = some left := by
  fun_induction sendChunks Socket.whole i left with
  | case1 i left hpos hsent => exact absurd hsent (by simp [Socket.whole])
  | case2 i left hpos k hsent ih => rw [ih, Option.map_some, List.take_append_drop]
  | case3 i left hnil => rw [List.eq_nil_of_length_eq_zero (by omega : left.length = 0)]

theorem send_whole (fresh : Nat → Nat → UInt8) (dataId : List UInt8) (p : Payload) :
    ∃ sizeField, sizeField.length = tcpMaxDataSizeLength ∧ (∀ after, upTo 0 (sizeField ++ after) = printed p.dataSize) ∧
      send Socket.whole fresh dataId p =
        some ((sendControlData dataId tcpMaxDataIdLength (fresh 0)).getD [] ++ sizeField ++ p.bytes) := by
  have hshort : (printed p.dataSize).length < tcpMaxDataSizeLength :=
    Nat.lt_of_le_of_lt (Field.length_printed p.dataSize).2 (by decide)
  obtain ⟨sizeField, hsize, hsizeLen, hsizeRead⟩ :=
    sendControlData_read (fresh 1) hshort (Field.notMem_printed p.dataSize (by decide))
  refine ⟨sizeField, hsizeLen, hsizeRead, ?_⟩
  rw [send, if_pos (show Socket.whole.write = true from rfl), sendChunks_whole, Option.map_some, hsize, Option.getD_some]

/-- Nothing of a longer id is written, and what is read for it is the size. -/
theorem not_roundTrips_of_long {dataId : List UInt8} (p : Payload) (hlen : tcpMaxDataIdLength < dataId.length) :
    ¬ RoundTrips dataId p := by
  intro h
  obtain ⟨sizeField, hsizeLen, hsizeRead, hsend⟩ := send_whole (fun _ _ => 0) dataId p
  obtain ⟨r, hr, hid, -⟩ := h Socket.whole (fun _ _ => 0) (fun _ => []) _ hsend
  have hfield : sendControlData dataId tcpMaxDataIdLength (fun _ => 0) = none := if_pos hlen
  have hsizeLen : sizeField.length = tcpMaxDataIdLength := hsizeLen
  have hread := initRecv_dataId hr
  rw [hid, hfield, Option.getD_none, List.nil_append, List.take_left' hsizeLen, hsizeRead] at hread
  have hshort := (Field.length_printed p.dataSize).2
  rw [← hread] at hshort
  exact absurd (Nat.lt_of_lt_of_le hlen hshort) (by decide)

/-- An id that fills its field is read on past its end. -/
theorem not_roundTrips_of_full {dataId : List UInt8} (p : Payload) (hlen : dataId.length = tcpMaxDataIdLength)
    (hnul : 0 ∉ dataId) : ¬ RoundTrips dataId p := by
  intro h
  obtain ⟨sizeField, -, -, hsend⟩ := send_whole (fun _ _ => 0) dataId p
  obtain ⟨r, hr, hid, -⟩ := h Socket.whole (fun _ _ => 0) (fun _ => [1]) _ hsend
  have hread := initRecv_dataId hr
  rw [hid, sendControlData_full hlen, Option.getD_some, List.append_assoc, List.take_left' hlen,
    Field.upTo_append hnul] at hread
  have hone : upTo 0 [1] = [(1 : UInt8)] := by decide
  have hlonger := congrArg List.length hread
  rw [hone, List.length_append, List.length_singleton] at hlonger
  omega

theorem not_roundTrips_of_nul {dataId : List UInt8} (p : Payload) (hnul : 0 ∈ dataId) : ¬ RoundTrips dataId p := by
  intro h
  obtain ⟨sizeField, -, -, hsend⟩ := send_whole (fun _ _ => 0) dataId p
  obtain ⟨r, hr, hid, -⟩ := h Socket.whole (fun _ _ => 0) (fun _ => []) _ hsend
  rw [← hid, initRecv_dataId hr] at hnul
  exact Field.notMem_upTo 0 _ hnul

/-- Every payload and every id that leaves room for the zero byte after it, and has none
in it, is received as sent, and no other. -/
theorem roundTrips_iff (dataId : List UInt8) (p : Payload) :
    RoundTrips dataId p ↔ dataId.length < tcpMaxDataIdLength ∧ 0 ∉ dataId := by
  constructor
  · intro h
    have hnul : 0 ∉ dataId := fun hnul => not_roundTrips_of_nul p hnul h
    refine ⟨?_, hnul⟩
    rcases Nat.lt_trichotomy dataId.length tcpMaxDataIdLength with hlt | heq | hgt
    · exact hlt
    · exact absurd h (not_roundTrips_of_full p heq hnul)
    · exact absurd h (not_roundTrips_of_long p hgt)
  · rintro ⟨hlen, hnul⟩
    exact roundTrips_of_fits p hlen hnul

/-- One byte under an id of 51 bytes. -/
theorem long_id_lost : ¬ RoundTrips (.replicate 51 97) ⟨[1], by decide⟩ :=
  not_roundTrips_of_long _ (by decide)

end TcpStream
