import Mathlib

/-!
# Data ids and sync point names

A datum is what every control call takes: a key, a version and a box. Its data
id is a string, and a sync point is the 32-bit hash of a string that starts
with the name of a message type.
-/
namespace Patch

/-- `hash_str`: the bytes up to the first NUL, each read as a signed `char`. -/
def hashStr (str : String) : UInt32 :=
  (str.toUTF8.data.toList.takeWhile (· ≠ 0)).foldl
    (fun h c => (h * 54059) ^^^ (c.toInt8.toInt32.toUInt32 * 76963)) 31

/-- `NDIM`. -/
abbrev ndim : Nat := 3

/-- The arguments `key, ver, lcoor_, ucoor_` that travel together. -/
structure Datum where
  key : String
  ver : UInt32
  lcoor : Vector UInt64 ndim
  ucoor : Vector UInt64 ndim
  deriving DecidableEq, Repr

def arrToStr (arr : List UInt64) : String := ",".intercalate (arr.map fun c => toString c.toNat)

inductive DataIdT where
  | kv | lucoor
  deriving DecidableEq, Repr

def getDataId : DataIdT → Datum → String
  | .kv, d => d.key ++ "_" ++ toString d.ver.toNat
  | .lucoor, d => arrToStr d.lcoor.toList ++ "_" ++ arrToStr d.ucoor.toList

/-- A separator that does not occur in the tails splits a list in one way only. -/
theorem append_cons_split {α : Type*} {c : α} {a a' b b' : List α} (hb : c ∉ b) (hb' : c ∉ b')
    (h : a ++ c :: b = a' ++ c :: b') : a = a' ∧ b = b' := by
  rcases List.append_eq_append_iff.mp h with ⟨m, rfl, hm⟩ | ⟨m, rfl, hm⟩
  · cases m with
    | nil => simpa using hm
    | cons x m => simp_all
  · cases m with
    | nil => simpa [eq_comm] using hm
    | cons x m => simp_all

/-- A key-version data id names one key and one version: no digit is an underscore. -/
theorem getDataId_kv {d d' : Datum} (h : getDataId .kv d = getDataId .kv d') :
    d.key = d'.key ∧ d.ver = d'.ver := by
  have hlist : d.key.toList ++ '_' :: Nat.toDigits 10 d.ver.toNat =
      d'.key.toList ++ '_' :: Nat.toDigits 10 d'.ver.toNat := by
    simpa [getDataId, Nat.toString_eq_ofList_toDigits] using congrArg String.toList h
  obtain ⟨hkey, hver⟩ := append_cons_split Nat.underscore_not_in_toDigits
    Nat.underscore_not_in_toDigits hlist
  refine ⟨String.toList_inj.mp hkey, UInt32.toNat_inj.mp ?_⟩
  simpa using congrArg (Nat.ofDigitChars 10 · 0) hver

/-- `IS_VALID_BOX`: every side of the box is longer than zero. -/
def isValidBox (d : Datum) : Bool :=
  (d.lcoor.toList.zip d.ucoor.toList).all fun (l, u) => decide (l < u)

def sdmQuery : String := "sdm_q"
def sdmSquery : String := "sdm_sq"
def sdmRegApp : String := "sdm_ra"
def sdmMove : String := "sdm_m"
def sdmDel : String := "sdm_d"
def riTinfoQuery : String := "ri_tiq"

end Patch
