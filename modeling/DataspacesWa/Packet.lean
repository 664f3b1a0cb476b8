import DataspacesWa.TextArchive

/-!
# Packets

A packet is a size of four digits, a type, the text archive of a string map cut
to 512 bytes, and a terminating NUL. The server reads one size and as many bytes
after the other, and the node takes what lies before the first NUL. A byte is a
`Char`. The text archive itself is a parameter.
-/
namespace Packet

open Join (MsgMap)
open TextArchive (Archive textArchive)

/-- `PACKET_T` -/
inductive PacketT where
  | joinRequest | joinReply | joinAck | joinNack | ping | pong | rimsg | cmsg
  deriving DecidableEq, Repr

def PacketT.char : PacketT → Char
  | joinRequest => 'J'
  | joinReply => 'j'
  | joinAck => 'a'
  | joinNack => 'n'
  | ping => 'P'
  | pong => 'p'
  | rimsg => 'I'
  | cmsg => 'C'

def sizeSize : Nat := 4
def typeSize : Nat := 1
def tailSize : Nat := 1
def maxMsgSize : Nat := 512

/-! ## The sender -/

/-- `int_to_char_`, for a number that is not negative; `none` is the null pointer. -/
def intToChar (charSize number : Nat) : Option (List Char) :=
  let str := Nat.toDigits 10 number
  if charSize < str.length then none else some (List.replicate (charSize - str.length) '0' ++ str)

/-- `Packet::Packet(type, msg_map)`, the bytes of `data_`; there are none where the encoding fails. A message
that is too long is cut with a warning only. -/
def ofMap (archive : Archive) (type : PacketT) (msgMap : MsgMap) : Option (List Char) :=
  (archive.encode msgMap).bind fun msgStr =>
    let msgSize := if maxMsgSize < msgStr.length then maxMsgSize else msgStr.length
    let packetSize := sizeSize + typeSize + msgSize + tailSize
    (intToChar sizeSize (packetSize - sizeSize)).map fun size =>
      size ++ [type.char] ++ msgStr.take msgSize ++ ['\x00']

/-- The packets of a sequence of messages, back to back. -/
def sendAll (archive : Archive) : List (PacketT × MsgMap) → Option (List Char)
  | [] => some []
  | (type, msgMap) :: msgs =>
    (ofMap archive type msgMap).bind fun data => (sendAll archive msgs).map fun stream => data ++ stream

/-! ## The receiver -/

/-- The bytes of a C string. -/
def cStr (bytes : List Char) : List Char := bytes.takeWhile (· ≠ '\x00')

/-- The loop of `init_recv`, on what is left of the stream: what it hands to `handle_recv`, in the order read.
Where a cast or a read throws the loop goes on, and it ends where no header is left. -/
def recvLoop : Nat → List Char → List (List Char)
  | 0, _ => []
  | fuel + 1, stream =>
    if stream.length < sizeSize then []
    else
      let rest := stream.drop sizeSize
      match LexicalCast.ofChars? (cStr (stream.take sizeSize)) with
      | none => recvLoop fuel rest
      | some msgsize =>
        -- there is no buffer of a negative size
        if msgsize.toInt < 0 then recvLoop fuel rest
        else if (rest.length : Int) < msgsize.toInt then []
        else rest.take msgsize.toInt.toNat :: recvLoop fuel (rest.drop msgsize.toInt.toNat)

/-- Each round takes a header, so that there are no more rounds than bytes. -/
def initRecv (stream : List Char) : List (List Char) := recvLoop stream.length stream

/-- `Packet::Packet(strlen, buffer)`: the type and the map. -/
def ofBuffer (archive : Archive) (buffer : List Char) : Char × MsgMap :=
  (buffer.headD '\x00', archive.decode ((cStr buffer).drop typeSize))

/-- What `handle_recv` gets out of a stream. -/
def receiveAll (archive : Archive) (stream : List Char) : List (Char × MsgMap) :=
  (initRecv stream).map (ofBuffer archive)

/-! ## What arrives -/

/-- What is left of a message on its way. -/
def cut (msgStr : List Char) : List Char := cStr (msgStr.take maxMsgSize)

/-- The message that comes out at the other end. -/
def arrives (archive : Archive) (msg : PacketT × MsgMap) : Char × MsgMap :=
  (msg.1.char, archive.decode (cut ((archive.encode msg.2).getD [])))

/-- The archive still decodes to its map once it is cut. -/
def Fits (archive : Archive) (msgMap : MsgMap) : Prop :=
  ∀ msgStr, archive.encode msgMap = some msgStr → archive.decode (cut msgStr) = msgMap

section Frame
variable {archive : Archive}

theorem char_ne_nul (type : PacketT) : type.char ≠ '\x00' := by cases type <;> decide

/-- The header of a size of at most four digits is read back. -/
theorem intToChar_read {n : Nat} (h : n < 10 ^ sizeSize) : ∃ header, intToChar sizeSize n = some header ∧
    header.length = sizeSize ∧ ∃ msgsize, LexicalCast.ofChars? (cStr header) = some msgsize ∧ msgsize.toInt = n := by
  have hlen : (Nat.toDigits 10 n).length ≤ sizeSize := (Nat.length_toDigits_le_iff (by decide) (by decide)).mpr h
  refine ⟨List.replicate (sizeSize - (Nat.toDigits 10 n).length) '0' ++ Nat.toDigits 10 n, ?_, ?_, Int32.ofInt n, ?_, ?_⟩
  · rw [intToChar, if_neg (by omega)]
  · rw [List.length_append, List.length_replicate]
    omega
  · have hplain : cStr (List.replicate (sizeSize - (Nat.toDigits 10 n).length) '0' ++ Nat.toDigits 10 n) =
        List.replicate (sizeSize - (Nat.toDigits 10 n).length) '0' ++ Nat.toDigits 10 n := by
      refine List.takeWhile_eq_self_iff.mpr fun c hc => ?_
      have hdigit : c.isDigit = true := by
        rcases List.mem_append.mp hc with hc | hc
        · rw [List.eq_of_mem_replicate hc]
          rfl
        · exact Nat.isDigit_of_mem_toDigits (by decide) (by decide) hc
      rw [decide_eq_true_eq]
      rintro rfl
      cases hdigit
    rw [hplain, LexicalCast.ofChars?_padded, LexicalCast.inRange?, if_pos]
    simp only [sizeSize] at h
    omega
  · simp only [sizeSize] at h
    exact Int32.toInt_ofInt_of_le (by omega) (by omega)

/-- The constructor makes a frame of a header, the type, what is left of the message and a NUL. -/
theorem ofMap_eq {type : PacketT} {msgMap : MsgMap} {data : List Char} (h : ofMap archive type msgMap = some data) :
    ∃ msgStr header, archive.encode msgMap = some msgStr ∧
      intToChar sizeSize (1 + (msgStr.take maxMsgSize).length + 1) = some header ∧
      data = header ++ (type.char :: msgStr.take maxMsgSize ++ ['\x00']) := by
  obtain ⟨msgStr, hencode, hdata⟩ := Option.bind_eq_some_iff.mp h
  obtain ⟨header, hheader, rfl⟩ := Option.map_eq_some_iff.mp hdata
  have hsize : (if maxMsgSize < msgStr.length then maxMsgSize else msgStr.length) =
      (msgStr.take maxMsgSize).length := by
    rw [List.length_take]
    split <;> omega
  have htake : msgStr.take (msgStr.take maxMsgSize).length = msgStr.take maxMsgSize := by
    rw [List.length_take, Nat.min_def]
    split
    · rfl
    · rw [List.take_of_length_le (Nat.le_refl _), List.take_of_length_le (by omega)]
  refine ⟨msgStr, header, hencode, ?_, ?_⟩
  · rw [hsize] at hheader
    rw [← hheader]
    congr 1
    simp only [sizeSize, typeSize, tailSize]
    omega
  · simp only [hsize, htake]
    simp

/-- One frame is read as one buffer. -/
theorem recvLoop_frame {n : Nat} {header body : List Char} (hn : n < 10 ^ sizeSize)
    (hheader : intToChar sizeSize n = some header) (hbody : body.length = n) (fuel : Nat) (stream : List Char) :
    recvLoop (fuel + 1) (header ++ body ++ stream) = body :: recvLoop fuel stream := by
  obtain ⟨header', hheader', hlen, msgsize, hread, hsize⟩ := intToChar_read hn
  obtain rfl : header' = header := Option.some.inj (hheader'.symm.trans hheader)
  have htake : (header' ++ body ++ stream).take sizeSize = header' := by
    rw [List.append_assoc, ← hlen, List.take_left]
  have hdrop : (header' ++ body ++ stream).drop sizeSize = body ++ stream := by
    rw [List.append_assoc, ← hlen, List.drop_left]
  have hlong : ¬(header' ++ body ++ stream).length < sizeSize := by
    simp only [List.length_append, hlen]
    omega
  have hsizeNat : msgsize.toInt.toNat = body.length := by omega
  have hnonneg : ¬msgsize.toInt < 0 := by omega
  have henough : ¬((body ++ stream).length : Int) < msgsize.toInt := by
    rw [List.length_append]
    omega
  simp only [recvLoop, if_neg hlong, htake, hdrop, hread, if_neg hnonneg, if_neg henough, hsizeNat, List.take_left,
    List.drop_left]

/-- The receiver takes the type and what is left of the message. -/
theorem ofBuffer_frame (type : PacketT) (msg : List Char) :
    ofBuffer archive (type.char :: msg ++ ['\x00']) = (type.char, archive.decode (cStr msg)) := by
  have hstop : cStr (msg ++ ['\x00']) = cStr msg := by
    unfold cStr
    induction msg with
    | nil => rfl
    | cons c msg ih =>
      rw [List.cons_append, List.takeWhile_cons, List.takeWhile_cons, ih]
  have hhead : cStr (type.char :: (msg ++ ['\x00'])) = type.char :: cStr msg := by
    rw [← hstop]
    exact List.takeWhile_cons_of_pos (by simpa using char_ne_nul type)
  simp only [ofBuffer, List.cons_append, List.headD_cons, hhead, typeSize, List.drop_succ_cons, List.drop_zero]

/-- What arrives of a sequence of messages: as many, in order, each with its type and what is left of it. -/
theorem recvLoop_sendAll (msgs : List (PacketT × MsgMap)) {stream : List Char} (h : sendAll archive msgs = some stream) :
    msgs.length ≤ stream.length ∧ ∀ fuel, msgs.length ≤ fuel →
      (recvLoop fuel stream).map (ofBuffer archive) = msgs.map (arrives archive) := by
  induction msgs generalizing stream with
  | nil =>
    obtain rfl : [] = stream := Option.some.inj h
    refine ⟨Nat.le_refl 0, fun fuel _ => ?_⟩
    cases fuel <;> rfl
  | cons msg msgs ih =>
    obtain ⟨type, msgMap⟩ := msg
    obtain ⟨data, hdata, hrest⟩ := Option.bind_eq_some_iff.mp h
    obtain ⟨rest, hsend, rfl⟩ := Option.map_eq_some_iff.mp hrest
    obtain ⟨msgStr, header, hencode, hheader, rfl⟩ := ofMap_eq hdata
    obtain ⟨hlen, hrecv⟩ := ih hsend
    have hmax : (msgStr.take maxMsgSize).length ≤ maxMsgSize := List.length_take_le _ _
    have hbody : (type.char :: msgStr.take maxMsgSize ++ ['\x00']).length = 1 + (msgStr.take maxMsgSize).length + 1 := by
      simp only [List.length_append, List.length_cons, List.length_nil]
      omega
    have hsmall : 1 + (msgStr.take maxMsgSize).length + 1 < 10 ^ sizeSize := by
      simp only [maxMsgSize, sizeSize] at *
      omega
    constructor
    · simp only [List.length_append, List.length_cons] at *
      omega
    · intro fuel hfuel
      obtain ⟨fuel, rfl⟩ : ∃ k, fuel = k + 1 := ⟨fuel - 1, by simp only [List.length_cons] at hfuel; omega⟩
      rw [recvLoop_frame hsmall hheader hbody, List.map_cons, List.map_cons, ofBuffer_frame,
        hrecv fuel (by simpa using hfuel), arrives, hencode]
      rfl

theorem receiveAll_sendAll {msgs : List (PacketT × MsgMap)} {stream : List Char}
    (h : sendAll archive msgs = some stream) : receiveAll archive stream = msgs.map (arrives archive) := by
  obtain ⟨hlen, hrecv⟩ := recvLoop_sendAll msgs h
  exact hrecv stream.length hlen

/-- No packet fails but for its archive. -/
theorem sendAll_isSome {msgs : List (PacketT × MsgMap)} (h : ∀ msg ∈ msgs, (archive.encode msg.2).isSome) :
    (sendAll archive msgs).isSome := by
  induction msgs with
  | nil => rfl
  | cons msg msgs ih =>
    obtain ⟨msgStr, hencode⟩ := Option.isSome_iff_exists.mp (h msg List.mem_cons_self)
    obtain ⟨rest, hrest⟩ := Option.isSome_iff_exists.mp (ih fun msg' hmsg' => h msg' (List.mem_cons_of_mem _ hmsg'))
    have hsmall : sizeSize + typeSize + (if maxMsgSize < msgStr.length then maxMsgSize else msgStr.length) +
        tailSize - sizeSize < 10 ^ sizeSize := by
      have hmax : (if maxMsgSize < msgStr.length then maxMsgSize else msgStr.length) ≤ maxMsgSize := by
        split <;> omega
      simp only [sizeSize, typeSize, tailSize, maxMsgSize] at *
      omega
    obtain ⟨header, hheader, -⟩ := intToChar_read hsmall
    simp [sendAll, ofMap, hencode, hheader, hrest]

/-- Only what has an archive is sent. -/
theorem encode_of_sendAll {msgs : List (PacketT × MsgMap)} {stream : List Char} (h : sendAll archive msgs = some stream) :
    ∀ msg ∈ msgs, (archive.encode msg.2).isSome := by
  induction msgs generalizing stream with
  | nil => simp
  | cons msg msgs ih =>
    obtain ⟨data, hdata, hrest⟩ := Option.bind_eq_some_iff.mp h
    obtain ⟨rest, hsend, -⟩ := Option.map_eq_some_iff.mp hrest
    obtain ⟨msgStr, -, hencode, -⟩ := ofMap_eq hdata
    intro msg' hmsg'
    rcases List.mem_cons.mp hmsg' with rfl | hmsg'
    · rw [hencode]
      rfl
    · exact ih hsend msg' hmsg'

/-- A short archive of strings without NULs is not cut at all. -/
theorem fits_of_short {msgMap : MsgMap} (hshort : ∀ s ∈ archive.encode msgMap, s.length ≤ maxMsgSize)
    (hclean : ∀ e ∈ msgMap.entries, '\x00' ∉ e.1.toList ∧ '\x00' ∉ e.2.toList) : Fits archive msgMap := by
  intro msgStr hencode
  have hnul := archive.clean msgMap msgStr hencode hclean
  have hwhole : cut msgStr = msgStr := by
    rw [cut, List.take_of_length_le (hshort msgStr hencode)]
    refine List.takeWhile_eq_self_iff.mpr fun c hc => ?_
    rw [decide_eq_true_eq]
    rintro rfl
    exact hnul hc
  rw [hwhole]
  exact archive.lossless msgMap msgStr hencode

/-- What has been sent arrives as it is if and only if each archive survives the cut, as the short ones without
NULs do. -/
theorem framing_round_trip {msgs : List (PacketT × MsgMap)} {stream : List Char}
    (h : sendAll archive msgs = some stream) :
    (receiveAll archive stream = msgs.map (fun msg => (msg.1.char, msg.2)) ↔ ∀ msg ∈ msgs, Fits archive msg.2) ∧
      ∀ msg ∈ msgs, (∀ s ∈ archive.encode msg.2, s.length ≤ maxMsgSize) →
        (∀ e ∈ msg.2.entries, '\x00' ∉ e.1.toList ∧ '\x00' ∉ e.2.toList) → Fits archive msg.2 := by
  refine ⟨?_, fun msg _ hshort hclean => fits_of_short hshort hclean⟩
  rw [receiveAll_sendAll h, List.map_inj_left]
  refine forall₂_congr fun msg hmsg => ?_
  obtain ⟨msgStr, hencode⟩ := Option.isSome_iff_exists.mp (encode_of_sendAll h msg hmsg)
  rw [arrives, hencode, Option.getD_some, Prod.mk.injEq]
  constructor
  · rintro ⟨-, hfits⟩ msgStr' hencode'
    obtain rfl : msgStr = msgStr' := Option.some.inj (hencode.symm.trans hencode')
    exact hfits
  · exact fun hfits => ⟨rfl, hfits msgStr hencode⟩

/-- A join request and an empty message. -/
def twoMessages : List (PacketT × MsgMap) :=
  [(.joinRequest, SortedMap.empty.insertAll [("id", "1"), ("lip", "127.0.0.1"), ("lport", "7001"), ("node_type", "s")]),
    (.cmsg, SortedMap.empty)]

theorem two_messages_arrive : ∃ stream, sendAll textArchive twoMessages = some stream ∧
    receiveAll textArchive stream = twoMessages.map fun msg => (msg.1.char, msg.2) := by
  have hsome : (sendAll textArchive twoMessages).isSome := sendAll_isSome fun _ _ => rfl
  obtain ⟨stream, hsend⟩ := Option.isSome_iff_exists.mp hsome
  obtain ⟨hiff, hshort⟩ := framing_round_trip hsend
  refine ⟨stream, hsend, hiff.mpr fun msg hmsg => ?_⟩
  have hall : ∀ msg ∈ twoMessages, (∀ s ∈ textArchive.encode msg.2, s.length ≤ maxMsgSize) ∧
      ∀ e ∈ msg.2.entries, '\x00' ∉ e.1.toList ∧ '\x00' ∉ e.2.toList := by decide
  exact hshort msg hmsg (hall msg hmsg).1 (hall msg hmsg).2

/-- A value that does not fit comes out with a NUL at its end. -/
theorem long_value_changed {key v : String} (hkey : '\x00' ∉ key.toList) (hlast : v.toList.getLast? ≠ some '\x00')
    (hlong : maxMsgSize < (TextArchive.saveFront key v.toList.length).length + v.toList.length)
    (hfront : (TextArchive.saveFront key v.toList.length).length ≤ maxMsgSize) :
    ¬Fits textArchive (SortedMap.empty.insert key v) := by
  intro h
  have hfits : ∀ msgStr, some (TextArchive.save (SortedMap.empty.insert key v)) = some msgStr →
      TextArchive.load (cut msgStr) = SortedMap.empty.insert key v := h
  have hdecode := hfits _ rfl
  generalize hn : v.toList.length = n at *
  obtain ⟨chars, hcut, hchars⟩ : ∃ chars, cut (TextArchive.save (SortedMap.empty.insert key v)) =
      TextArchive.saveFront key n ++ chars ∧ chars.length < n := by
    refine ⟨cStr (v.toList.take (maxMsgSize - (TextArchive.saveFront key n).length)), ?_, ?_⟩
    · have hclean := TextArchive.saveFront_clean n hkey
      rw [TextArchive.save_insert, hn, cut, List.take_append, List.take_of_length_le hfront]
      refine List.takeWhile_append_of_pos fun c hc => ?_
      rw [decide_eq_true_eq]
      rintro rfl
      exact hclean hc
    · refine Nat.lt_of_le_of_lt (List.takeWhile_prefix _).length_le ?_
      rw [List.length_take]
      omega
  rw [hcut, TextArchive.load_cut key n (Nat.le_of_lt hchars)] at hdecode
  have hvalue := congrArg (fun m => m.get? key) hdecode
  rw [SortedMap.get?_insert_self, SortedMap.get?_insert_self, Option.some.injEq] at hvalue
  obtain ⟨k, hk⟩ : ∃ k, n - chars.length = k + 1 := ⟨n - chars.length - 1, by omega⟩
  refine hlast ?_
  rw [← hvalue, String.toList_ofList, hk, List.replicate_succ', ← List.append_assoc, List.getLast?_concat]

/-- A message that does not fit is sent all the same, and changed. -/
theorem changed_of_not_fits {type : PacketT} {m : MsgMap} (h : ¬Fits textArchive m) :
    ∃ stream, sendAll textArchive [(type, m)] = some stream ∧
      receiveAll textArchive stream ≠ [(type.char, m)] := by
  have hsome : (sendAll textArchive [(type, m)]).isSome := sendAll_isSome fun _ _ => rfl
  obtain ⟨stream, hsend⟩ := Option.isSome_iff_exists.mp hsome
  refine ⟨stream, hsend, fun hsame => h fun msgStr hencode => ?_⟩
  rw [receiveAll_sendAll hsend, List.map_singleton, arrives, hencode] at hsame
  exact (Prod.mk.inj (List.singleton_inj.mp hsame)).2

/-- A message with a value of 600 bytes. -/
def longMessage : MsgMap := SortedMap.empty.insert "data" (String.ofList (List.replicate 600 'x'))

/-- It is sent without an error, and what arrives is another map. -/
theorem long_message_changed : ∃ stream, sendAll textArchive [(.cmsg, longMessage)] = some stream ∧
    receiveAll textArchive stream ≠ [(PacketT.cmsg.char, longMessage)] := by
  have hlen : (String.ofList (List.replicate 600 'x')).toList.length = 600 := by
    rw [String.toList_ofList, List.length_replicate]
  have hfront : (TextArchive.saveFront "data" 600).length = 52 := by decide
  refine changed_of_not_fits (long_value_changed (by decide) ?_ ?_ ?_)
  · rw [String.toList_ofList, List.getLast?_replicate, if_neg (by omega)]
    decide
  · rw [hlen, hfront, maxMsgSize]
    omega
  · rw [hlen, hfront, maxMsgSize]
    omega

end Frame

end Packet
