import DataspacesWa.Field
import DataspacesWa.ByteCount

/-!
# Infiniband headers

`IBClient::make_header` writes a tag, an id and a size, the last two padded with
`#` to their widths; `IBServer::proc_header` cuts them at the first `#`. The
memory that `malloc` gives for the header, and what lies after the copies of the
two fields at the server, are arguments.
-/
namespace IbHeader

open Field (upTo block printed toChars)
open ByteCount (ibMaxDataIdLength widen intOf)

/-- `RDMA_DATA_T` -/
inductive RdmaDataT where
  | init | msg | data | done
  deriving DecidableEq, Repr

def RdmaDataT.char : RdmaDataT → UInt8
  | init => 73
  | msg => 77
  | data => 68
  | done => 79

def headerDelimiter : UInt8 := 35
def ibMaxDataTLength : Nat := 1
def ibMaxDataSizeLength : Nat := 15

/-- `header_size` -/
def headerSize : RdmaDataT → Nat
  | .init | .done => ibMaxDataTLength + 1
  | .msg => ibMaxDataTLength + ibMaxDataSizeLength + 1
  | .data => ibMaxDataTLength + ibMaxDataIdLength + ibMaxDataSizeLength + 1

/-! ## The client -/

def padded (text : List UInt8) (width : Nat) : List UInt8 :=
  text ++ List.replicate (width - text.length) headerDelimiter

/-- There is no field for an empty id, whatever the tag. -/
def dataIdField (dataId : List UInt8) : Option (List UInt8) :=
  if 0 < dataId.length then
    if ibMaxDataIdLength < dataId.length then none else some (padded dataId ibMaxDataIdLength)
  else some []

/-- There is no field for size zero, and `%d` prints the lower 32 bits. -/
def dataSizeField (dataSize : UInt64) : Option (List UInt8) :=
  if 0 < dataSize then
    let text := printed (intOf dataSize)
    if dataSize ≠ widen (LexicalCast.atoi (toChars text)) then none else some (padded text ibMaxDataSizeLength)
  else some []

/-- `make_header`, the `header_size` bytes at `header_`; `none` is the return of 1. -/
def makeHeader (fresh : Nat → UInt8) (dataT : RdmaDataT) (dataId : List UInt8) (dataSize : UInt64) :
    Option (List UInt8) :=
  (dataIdField dataId).bind fun idField =>
    (dataSizeField dataSize).map fun sizeField =>
      block (headerSize dataT) (dataT.char :: (idField ++ sizeField ++ [0])) fresh

/-! ## The server -/

/-- What `proc_header` sets; the id and the size stay as they are for the other tags. -/
structure Header where
  dataT : UInt8
  dataId : Option (List UInt8)
  dataSizeToRecv : Option UInt64
  deriving DecidableEq, Repr

/-- `*(strchr(.., HEADER_DELIMITER)) = '\0'`, and the string that leaves; `none` is a write through the null
pointer. -/
def cutAtDelimiter (bytes : List UInt8) : Option (List UInt8) :=
  if headerDelimiter ∈ upTo 0 bytes then some (upTo headerDelimiter (upTo 0 bytes)) else none

def procDataId (after : Nat → List UInt8) (header : List UInt8) : Option (List UInt8) :=
  cutAtDelimiter (header.take ibMaxDataIdLength ++ after 0)

def procDataSize (after : Nat → List UInt8) (header : List UInt8) : Option UInt64 :=
  (cutAtDelimiter (header.take ibMaxDataSizeLength ++ after 1)).map fun text =>
    widen (LexicalCast.atoi (toChars text))

def procHeader (after : Nat → List UInt8) (header : List UInt8) : Option Header :=
  let dataT := header.headD 0
  let rest := header.drop ibMaxDataTLength
  if dataT = RdmaDataT.data.char then
    (procDataId after rest).bind fun dataId =>
      (procDataSize after (rest.drop ibMaxDataIdLength)).map fun dataSize => ⟨dataT, some dataId, some dataSize⟩
  else if dataT = RdmaDataT.msg.char then
    (procDataSize after rest).map fun dataSize => ⟨dataT, none, some dataSize⟩
  else some ⟨dataT, none, none⟩

/-- A header that is made is taken apart into the same tag, id and size; where there is no
field they are empty and zero. -/
def Recovered (dataT : RdmaDataT) (dataId : List UInt8) (dataSize : UInt64) : Prop :=
  ∀ fresh after header, makeHeader fresh dataT dataId dataSize = some header →
    ∃ h, procHeader after header = some h ∧ h.dataT = dataT.char ∧ h.dataId.getD [] = dataId ∧
      h.dataSizeToRecv.getD 0 = dataSize

/-- The id is too long, or the size is not an `int`, in 64 bits. -/
def Refused (dataId : List UInt8) (dataSize : UInt64) : Prop :=
  ibMaxDataIdLength < dataId.length ∨ 2 ^ 31 ≤ dataSize.toNat ∧ dataSize.toNat < 2 ^ 64 - 2 ^ 31

/-- What a header of each tag can carry. -/
def Carried : RdmaDataT → List UInt8 → UInt64 → Prop
  | .init, dataId, dataSize | .done, dataId, dataSize => dataId = [] ∧ dataSize = 0
  | .msg, dataId, dataSize => dataId = [] ∧ dataSize ≠ 0
  | .data, dataId, dataSize =>
    dataId ≠ [] ∧ dataId.length < ibMaxDataIdLength ∧ headerDelimiter ∉ dataId ∧ 0 ∉ dataId ∧ dataSize ≠ 0

instance (dataT : RdmaDataT) (dataId : List UInt8) (dataSize : UInt64) : Decidable (Carried dataT dataId dataSize) := by
  cases dataT <;> exact inferInstanceAs (Decidable (_ ∧ _))

/-! ## Fields -/

section Cut
variable {text bytes rest : List UInt8} {width : Nat}

/-- What is cut has no delimiter and no zero byte. -/
theorem notMem_of_cut (h : cutAtDelimiter bytes = some text) : headerDelimiter ∉ text ∧ 0 ∉ text := by
  rw [cutAtDelimiter] at h
  split at h
  next =>
    obtain rfl := Option.some.inj h
    refine ⟨Field.notMem_upTo _ _, fun hzero => Field.notMem_upTo 0 bytes ?_⟩
    exact (List.takeWhile_prefix _).subset hzero
  next => exact absurd h (by simp)

theorem cut_nul (rest : List UInt8) : cutAtDelimiter (0 :: rest) = none := by
  rw [cutAtDelimiter, Field.upTo_cons_stop, if_neg List.not_mem_nil]

theorem cut_delimiter (hdelim : headerDelimiter ∉ text) (hnul : 0 ∉ text) (rest : List UInt8) :
    cutAtDelimiter (text ++ headerDelimiter :: rest) = some text := by
  have hupTo : upTo 0 (text ++ headerDelimiter :: rest) = text ++ headerDelimiter :: upTo 0 rest := by
    rw [Field.upTo_append hnul]
    rfl
  rw [cutAtDelimiter, hupTo, if_pos (by simp), Field.upTo_stop hdelim]

theorem length_padded (h : text.length ≤ width) : (padded text width).length = width := by
  rw [padded, List.length_append, List.length_replicate]
  omega

/-- A field with room for one delimiter is read back. -/
theorem cut_padded (hlen : text.length < width) (hdelim : headerDelimiter ∉ text) (hnul : 0 ∉ text)
    (rest : List UInt8) : cutAtDelimiter (padded text width ++ rest) = some text := by
  have hpad : padded text width = text ++ headerDelimiter :: List.replicate (width - text.length - 1) headerDelimiter := by
    rw [padded, ← List.replicate_succ, show width - text.length - 1 + 1 = width - text.length by omega]
  rw [hpad, List.append_assoc, List.cons_append]
  exact cut_delimiter hdelim hnul _

/-- An id that fills its field is not cut by anything in it. -/
theorem cut_full (hdelim : headerDelimiter ∉ text) (hnul : 0 ∉ text) : cutAtDelimiter text = none := by
  rw [cutAtDelimiter, Field.upTo_eq_self hnul, if_neg hdelim]

end Cut

section Size
variable {dataSize : UInt64}

theorem notMem_printed (n : Int32) : headerDelimiter ∉ printed n ∧ 0 ∉ printed n :=
  ⟨Field.notMem_printed n (by decide), Field.notMem_printed n (by decide)⟩

theorem atoi_printed (n : Int32) : LexicalCast.atoi (toChars (printed n)) = n := by
  rw [Field.toChars_printed, LexicalCast.atoi_ofInt]

theorem length_printed_lt (n : Int32) : (printed n).length < ibMaxDataSizeLength :=
  Nat.lt_of_le_of_lt (Field.length_printed n).2 (by decide)

theorem dataSizeField_zero : dataSizeField 0 = some [] := rfl

theorem dataSizeField_pos (hpos : dataSize ≠ 0) :
    dataSizeField dataSize =
      if dataSize = widen (intOf dataSize) then some (padded (printed (intOf dataSize)) ibMaxDataSizeLength) else none := by
  have hlt : 0 < dataSize := UInt64.pos_iff_ne_zero.mpr hpos
  rw [dataSizeField, if_pos hlt]
  dsimp only
  rw [atoi_printed]
  exact ite_not _ _ _

end Size

/-! ## The header -/

section Make
variable {fresh : Nat → UInt8} {dataT : RdmaDataT} {dataId idField sizeField header : List UInt8} {dataSize : UInt64}

theorem dataIdField_nil : dataIdField [] = some [] := rfl

theorem dataIdField_fits (hne : dataId ≠ []) (hlen : dataId.length ≤ ibMaxDataIdLength) :
    dataIdField dataId = some (padded dataId ibMaxDataIdLength) := by
  rw [dataIdField, if_pos (List.length_pos_of_ne_nil hne), if_neg (by omega)]

theorem makeHeader_eq (hid : dataIdField dataId = some idField) (hsize : dataSizeField dataSize = some sizeField) :
    makeHeader fresh dataT dataId dataSize =
      some (dataT.char :: block (headerSize dataT - 1) (idField ++ sizeField ++ [0]) fun i => fresh (i + 1)) := by
  have hpos : headerSize dataT = headerSize dataT - 1 + 1 := by cases dataT <;> rfl
  rw [makeHeader, hid, hsize, Option.bind_some, Option.map_some, hpos, Field.block_cons]
  rfl

theorem makeHeader_cases (h : makeHeader fresh dataT dataId dataSize = some header) :
    ∃ idField sizeField, dataIdField dataId = some idField ∧ dataSizeField dataSize = some sizeField ∧
      header = dataT.char :: block (headerSize dataT - 1) (idField ++ sizeField ++ [0]) fun i => fresh (i + 1) := by
  have hmake := h
  rw [makeHeader] at hmake
  obtain ⟨idField, hid, hmap⟩ := Option.bind_eq_some_iff.mp hmake
  obtain ⟨sizeField, hsize, -⟩ := Option.map_eq_some_iff.mp hmap
  rw [makeHeader_eq hid hsize] at h
  exact ⟨idField, sizeField, hid, hsize, (Option.some.inj h).symm⟩

theorem widen_intOf_of_not_refused (h : ¬ Refused dataId dataSize) : dataSize = widen (intOf dataSize) := by
  rw [Refused] at h
  exact (ByteCount.widen_intOf_iff dataSize).mpr (by omega)

/-- Both checks of `make_header` pass. -/
theorem fields_of_not_refused (h : ¬ Refused dataId dataSize) :
    (∃ idField, dataIdField dataId = some idField) ∧ ∃ sizeField, dataSizeField dataSize = some sizeField := by
  constructor
  · by_cases hne : dataId = []
    · exact ⟨[], by rw [hne, dataIdField_nil]⟩
    · exact ⟨_, dataIdField_fits hne (Nat.le_of_not_lt fun hlen => h (.inl hlen))⟩
  · by_cases hne : dataSize = 0
    · exact ⟨[], by rw [hne, dataSizeField_zero]⟩
    · exact ⟨_, by rw [dataSizeField_pos hne, if_pos (widen_intOf_of_not_refused h)]⟩

theorem makeHeader_of_refused (h : Refused dataId dataSize) : makeHeader fresh dataT dataId dataSize = none := by
  rw [makeHeader]
  rcases h with hlen | hsize
  · rw [dataIdField, if_pos (by omega), if_pos hlen, Option.bind_none]
  · have hpos : dataSize ≠ 0 := by
      rintro rfl
      exact absurd hsize (by decide)
    have hne : dataSize ≠ widen (intOf dataSize) := fun heq => by
      have := (ByteCount.widen_intOf_iff dataSize).mp heq
      omega
    rw [dataSizeField_pos hpos, if_neg hne]
    cases dataIdField dataId <;> rfl

theorem length_dataIdField (h : dataIdField dataId = some idField) : idField.length ≤ ibMaxDataIdLength := by
  by_cases hne : dataId = []
  · rw [hne, dataIdField_nil] at h
    obtain rfl := Option.some.inj h
    exact Nat.zero_le _
  · have hlen : dataId.length ≤ ibMaxDataIdLength := Nat.le_of_not_lt fun hlong => by
      rw [dataIdField, if_pos (List.length_pos_of_ne_nil hne), if_pos hlong] at h
      cases h
    rw [dataIdField_fits hne hlen] at h
    obtain rfl := Option.some.inj h
    exact Nat.le_of_eq (length_padded hlen)

theorem length_dataSizeField (h : dataSizeField dataSize = some sizeField) : sizeField.length ≤ ibMaxDataSizeLength := by
  by_cases hne : dataSize = 0
  · rw [hne, dataSizeField_zero] at h
    obtain rfl := Option.some.inj h
    exact Nat.zero_le _
  · rw [dataSizeField_pos hne] at h
    split at h
    next =>
      obtain rfl := Option.some.inj h
      exact Nat.le_of_eq (length_padded (Nat.le_of_lt (length_printed_lt _)))
    next => exact absurd h (by simp)

theorem block_fields {size : Nat} (fresh : Nat → UInt8) (h : idField.length + sizeField.length < size) :
    ∃ tail, block size (idField ++ sizeField ++ [0]) fresh = idField ++ (sizeField ++ 0 :: tail) := by
  have hle : (idField ++ sizeField ++ [0]).length ≤ size := by
    rw [List.length_append, List.length_append, List.length_singleton]
    omega
  refine ⟨(block size (idField ++ sizeField ++ [0]) fresh).drop (idField ++ sizeField ++ [0]).length, ?_⟩
  conv => lhs; rw [Field.block_eq_append hle fresh]
  rw [List.append_assoc, List.append_assoc, List.singleton_append]

end Make

section Proc
variable {after : Nat → List UInt8}

theorem procHeader_data (rest : List UInt8) : procHeader after (RdmaDataT.data.char :: rest) =
    (procDataId after rest).bind fun dataId =>
      (procDataSize after (rest.drop ibMaxDataIdLength)).map fun dataSize =>
        ⟨RdmaDataT.data.char, some dataId, some dataSize⟩ := rfl

theorem procHeader_msg (rest : List UInt8) : procHeader after (RdmaDataT.msg.char :: rest) =
    (procDataSize after rest).map fun dataSize => ⟨RdmaDataT.msg.char, none, some dataSize⟩ := rfl

theorem procDataSize_padded (n : Int32) (rest : List UInt8) :
    procDataSize after (padded (printed n) ibMaxDataSizeLength ++ rest) = some (widen n) := by
  have hlen := length_printed_lt n
  rw [procDataSize, List.take_left' (length_padded (Nat.le_of_lt hlen)),
    cut_padded hlen (notMem_printed n).1 (notMem_printed n).2, Option.map_some, atoi_printed]

theorem procDataSize_nul (rest : List UInt8) : procDataSize after (0 :: rest) = none := by
  rw [procDataSize, show (0 :: rest).take ibMaxDataSizeLength = 0 :: rest.take 14 from rfl, List.cons_append, cut_nul,
    Option.map_none]

theorem procDataId_nul (rest : List UInt8) : procDataId after (0 :: rest) = none := by
  rw [procDataId, show (0 :: rest).take ibMaxDataIdLength = 0 :: rest.take 19 from rfl, List.cons_append, cut_nul]

theorem procDataId_padded {dataId : List UInt8} (hlen : dataId.length ≤ ibMaxDataIdLength) (rest : List UInt8) :
    procDataId after (padded dataId ibMaxDataIdLength ++ rest) =
      cutAtDelimiter (padded dataId ibMaxDataIdLength ++ after 0) := by
  rw [procDataId, List.take_left' (length_padded hlen)]

/-- Where there is no id, the size is taken for it. -/
theorem procDataId_size (n : Int32) (rest : List UInt8) :
    procDataId after (padded (printed n) ibMaxDataSizeLength ++ rest) = some (printed n) := by
  have hlen := length_printed_lt n
  have hfield : (padded (printed n) ibMaxDataSizeLength).length ≤ ibMaxDataIdLength := by
    rw [length_padded (Nat.le_of_lt hlen)]
    decide
  rw [procDataId, List.take_append, List.take_of_length_le hfield, List.append_assoc,
    cut_padded hlen (notMem_printed n).1 (notMem_printed n).2]

end Proc

/-! ## The round trip -/

section RoundTrip
variable {dataT : RdmaDataT} {dataId : List UInt8} {dataSize : UInt64}

/-- A header of data is taken apart into its id and its size, whatever is behind it. -/
theorem procHeader_makeHeader {fresh : Nat → UInt8} (after : Nat → List UInt8) {header : List UInt8}
    (h : Carried .data dataId dataSize) (hmake : makeHeader fresh .data dataId dataSize = some header)
    (rest : List UInt8) :
    procHeader after (header ++ rest) = some ⟨RdmaDataT.data.char, some dataId, some dataSize⟩ := by
  obtain ⟨idField, sizeField, hid, hsize, rfl⟩ := makeHeader_cases hmake
  obtain ⟨hne, hlen, hdelim, hnul, hpos⟩ := h
  rw [dataIdField_fits hne (Nat.le_of_lt hlen)] at hid
  obtain rfl := Option.some.inj hid
  rw [dataSizeField_pos hpos] at hsize
  split at hsize
  next hwide =>
    obtain rfl := Option.some.inj hsize
    have hidLen := length_padded (Nat.le_of_lt hlen)
    have hfield := length_padded (Nat.le_of_lt (length_printed_lt (intOf dataSize)))
    rw [Field.block_full (by rw [List.length_append, List.length_append, hidLen, hfield]; rfl), List.cons_append,
      List.append_assoc, List.append_assoc, procHeader_data, procDataId_padded (Nat.le_of_lt hlen),
      cut_padded hlen hdelim hnul, List.drop_left' hidLen, procDataSize_padded, ← hwide]
    rfl
  next => exact absurd hsize (by simp)

theorem recovered_of_carried (h : Carried dataT dataId dataSize) : Recovered dataT dataId dataSize := by
  intro fresh after header hmake
  cases dataT with
  | init | done =>
    obtain ⟨idField, sizeField, -, -, rfl⟩ := makeHeader_cases hmake
    obtain ⟨rfl, rfl⟩ := h
    exact ⟨_, rfl, rfl, rfl, rfl⟩
  | msg =>
    obtain ⟨idField, sizeField, hid, hsize, rfl⟩ := makeHeader_cases hmake
    obtain ⟨rfl, hpos⟩ := h
    obtain rfl := Option.some.inj hid
    rw [dataSizeField_pos hpos] at hsize
    split at hsize
    next hwide =>
      obtain rfl := Option.some.inj hsize
      have hfield := length_padded (Nat.le_of_lt (length_printed_lt (intOf dataSize)))
      rw [List.nil_append, Field.block_full (by rw [List.length_append, hfield]; rfl), procHeader_msg,
        procDataSize_padded]
      exact ⟨_, rfl, rfl, rfl, hwide.symm⟩
    next => exact absurd hsize (by simp)
  | data =>
    have hproc := procHeader_makeHeader after h hmake []
    rw [List.append_nil] at hproc
    exact ⟨_, hproc, rfl, rfl, rfl⟩

/-- What is behind a field that is missing is read in its place. -/
theorem carried_of_recovered (hnot : ¬ Refused dataId dataSize) (h : Recovered dataT dataId dataSize) :
    Carried dataT dataId dataSize := by
  obtain ⟨⟨idField, hid⟩, sizeField, hsize⟩ := fields_of_not_refused hnot
  obtain ⟨r, hr, -, hrid, hrsize⟩ := h (fun _ => 0) (fun _ => []) _ (makeHeader_eq hid hsize)
  have hle : dataId.length ≤ ibMaxDataIdLength := Nat.le_of_not_lt fun hlen => hnot (.inl hlen)
  cases dataT with
  | init | done =>
    obtain rfl := Option.some.inj hr
    exact ⟨hrid.symm, hrsize.symm⟩
  | msg =>
    rw [procHeader_msg] at hr
    obtain ⟨size, hproc, rfl⟩ := Option.map_eq_some_iff.mp hr
    obtain rfl : dataId = [] := hrid.symm
    refine ⟨rfl, ?_⟩
    rintro rfl
    obtain rfl := Option.some.inj hid
    obtain rfl := Option.some.inj hsize
    obtain ⟨tail, htail⟩ := block_fields (fun _ => 0) (show ([] : List UInt8).length + [].length < 16 by decide)
    rw [show headerSize .msg - 1 = 16 from rfl, htail, List.nil_append, List.nil_append, procDataSize_nul] at hproc
    cases hproc
  | data =>
    have hidLen := length_dataIdField hid
    have hsizeLen := length_dataSizeField hsize
    obtain ⟨tail, htail⟩ := block_fields (fun _ => 0)
      (show idField.length + sizeField.length < headerSize .data - 1 by
        simp only [headerSize, ibMaxDataTLength]
        omega)
    rw [htail, procHeader_data] at hr
    obtain ⟨id, hprocId, hr⟩ := Option.bind_eq_some_iff.mp hr
    obtain ⟨size, hproc, rfl⟩ := Option.map_eq_some_iff.mp hr
    obtain rfl : id = dataId := hrid
    have hclean := notMem_of_cut hprocId
    have hne : id ≠ [] := by
      rintro rfl
      obtain rfl := Option.some.inj hid
      rw [List.nil_append] at hprocId
      by_cases hpos : dataSize = 0
      · subst hpos
        obtain rfl := Option.some.inj hsize
        rw [List.nil_append, procDataId_nul] at hprocId
        cases hprocId
      · rw [dataSizeField_pos hpos, if_pos (widen_intOf_of_not_refused hnot)] at hsize
        obtain rfl := Option.some.inj hsize
        rw [procDataId_size] at hprocId
        have hdigits := (Field.length_printed (intOf dataSize)).1
        rw [Option.some.inj hprocId] at hdigits
        exact absurd hdigits (by decide)
    rw [dataIdField_fits hne hle] at hid
    obtain rfl := Option.some.inj hid
    rw [procDataId_padded hle, List.append_nil] at hprocId
    refine ⟨hne, Nat.lt_of_le_of_ne hle ?_, hclean.1, hclean.2, ?_⟩
    · intro hfull
      have hsame : padded id ibMaxDataIdLength = id := by
        rw [padded, hfull, Nat.sub_self, List.replicate_zero, List.append_nil]
      rw [hsame, cut_full hclean.1 hclean.2] at hprocId
      cases hprocId
    · rintro rfl
      obtain rfl := Option.some.inj hsize
      rw [List.drop_left' (length_padded hle), List.nil_append, procDataSize_nul] at hproc
      cases hproc

/-- Every header that is made is taken apart into what it was made of when its tag can
carry that, and not otherwise. -/
theorem recovered_iff (dataT : RdmaDataT) (dataId : List UInt8) (dataSize : UInt64) :
    Recovered dataT dataId dataSize ↔ Refused dataId dataSize ∨ Carried dataT dataId dataSize := by
  constructor
  · intro h
    by_cases hnot : Refused dataId dataSize
    · exact .inl hnot
    · exact .inr (carried_of_recovered hnot h)
  · rintro (hrefused | hcarried)
    · intro fresh after header hmake
      rw [makeHeader_of_refused hrefused] at hmake
      cases hmake
    · exact recovered_of_carried hcarried

end RoundTrip

/-- Twenty bytes of id leave no room for a `#`. -/
theorem full_id_lost : ¬ Recovered .data (.replicate 20 97) 1 := by
  intro h
  exact absurd (carried_of_recovered (by rw [Refused]; decide) h) (by decide)

end IbHeader
