import DataspacesWa.Join

/-!
# Text archives of string maps

What is relied on of the serialization library, and a text archive that has it:
a signature, the number of entries, and each string after its length. A read
that runs out of bytes in a string leaves NULs in it, and one that runs out of
bytes before a length throws.
-/
namespace TextArchive

open Join (MsgMap)

structure Archive where
  /-- `none` is an exception. -/
  encode : MsgMap → Option (List Char)
  /-- What the map holds when the archive has been read or has thrown. -/
  decode : List Char → MsgMap
  lossless : ∀ m s, encode m = some s → decode s = m
  clean : ∀ m s, encode m = some s → (∀ e ∈ m.entries, '\x00' ∉ e.1.toList ∧ '\x00' ∉ e.2.toList) → '\x00' ∉ s

/-! ## Writing -/

def signature : List Char := "22 serialization::archive 10 0 0".toList

def saveNat (n : Nat) : List Char := ' ' :: Nat.toDigits 10 n

def saveString (s : String) : List Char := saveNat s.toList.length ++ ' ' :: s.toList

/-- The class of the entries is described once, before the first of them. -/
def save (m : MsgMap) : List Char :=
  signature ++ saveNat m.entries.length ++ saveNat 0 ++
    (if m.entries = [] then [] else saveNat 0 ++ saveNat 0) ++
    m.entries.flatMap fun e => saveString e.1 ++ saveString e.2

/-! ## Reading -/

def loadNat (s : List Char) : Option (Nat × List Char) :=
  let s := s.dropWhile (· = ' ')
  (LexicalCast.ofDigits? (s.takeWhile Char.isDigit)).map fun n => (n, s.dropWhile Char.isDigit)

def loadString (s : List Char) : Option (String × List Char) :=
  (loadNat s).map fun (n, s) =>
    let chars := (s.drop 1).take n
    (String.ofList (chars ++ List.replicate (n - chars.length) '\x00'), (s.drop 1).drop n)

/-- The entries go into the map one by one. -/
def loadEntries : Nat → List Char → MsgMap → MsgMap
  | 0, _, m => m
  | n + 1, s, m =>
    match loadString s with
    | none => m
    | some (key, s) =>
      match loadString s with
      | none => m
      | some (v, s) => loadEntries n s (m.insert key v)

def load (s : List Char) : MsgMap :=
  if s.take signature.length = signature then
    match loadNat (s.drop signature.length) with
    | none => SortedMap.empty
    | some (n, s) => loadEntries n (s.drop (if n = 0 then 2 else 6)) SortedMap.empty
  else SortedMap.empty

/-! ## Reading what has been written -/

theorem isDigit_toDigits (n : Nat) : ∀ c ∈ Nat.toDigits 10 n, c.isDigit = true := fun _ =>
  Nat.isDigit_of_mem_toDigits (by decide) (by decide)

/-- A number ends where a space follows. -/
theorem loadNat_saveNat (n : Nat) (s : List Char) : loadNat (saveNat n ++ ' ' :: s) = some (n, ' ' :: s) := by
  have hfirst : (saveNat n ++ ' ' :: s).dropWhile (· = ' ') = Nat.toDigits 10 n ++ ' ' :: s := by
    have hdigits := isDigit_toDigits n
    cases hd : Nat.toDigits 10 n with
    | nil => exact absurd hd (by simp)
    | cons c digits =>
      have hc : c ≠ ' ' := by
        rintro rfl
        cases hdigits ' ' (by simp [hd])
      simp [saveNat, hd, hc]
  have htake : (Nat.toDigits 10 n ++ ' ' :: s).takeWhile Char.isDigit = Nat.toDigits 10 n := by
    rw [List.takeWhile_append_of_pos (isDigit_toDigits n)]
    simp
  have hdrop : (Nat.toDigits 10 n ++ ' ' :: s).dropWhile Char.isDigit = ' ' :: s := by
    rw [List.dropWhile_append_of_pos (isDigit_toDigits n)]
    simp
  rw [loadNat, hfirst, htake, hdrop, LexicalCast.ofDigits?_toDigits]
  rfl

theorem loadString_saveString (str : String) (s : List Char) : loadString (saveString str ++ s) = some (str, s) := by
  have hnat : loadNat (saveString str ++ s) = some (str.toList.length, ' ' :: (str.toList ++ s)) := by
    rw [saveString, List.append_assoc]
    exact loadNat_saveNat _ _
  rw [loadString, hnat]
  simp

theorem loadEntries_flatMap (entries : List (String × String)) (m : MsgMap) :
    loadEntries entries.length (entries.flatMap fun e => saveString e.1 ++ saveString e.2) m = m.insertAll entries := by
  induction entries generalizing m with
  | nil => rfl
  | cons e entries ih =>
    rw [List.length_cons, List.flatMap_cons, List.append_assoc, loadEntries, loadString_saveString]
    dsimp only
    rw [loadString_saveString]
    exact ih (m.insert e.1 e.2)

/-- What comes after the number of entries starts with a space. -/
theorem load_save (m : MsgMap) : load (save m) = m := by
  have hsplit : save m = signature ++ (saveNat m.entries.length ++ ' ' :: ('0' ::
      ((if m.entries = [] then [] else saveNat 0 ++ saveNat 0) ++
        m.entries.flatMap fun e => saveString e.1 ++ saveString e.2))) := by
    simp [save, saveNat]
  rw [hsplit, load, List.take_left, if_pos rfl, List.drop_left, loadNat_saveNat]
  dsimp only
  by_cases hempty : m.entries = []
  · rw [if_pos (by rw [hempty]; rfl), hempty]
    exact (by rw [← hempty]; exact SortedMap.insertAll_self m : SortedMap.empty.insertAll [] = m)
  · have hlen : m.entries.length ≠ 0 := fun h => hempty (List.length_eq_zero_iff.mp h)
    rw [if_neg hlen, if_neg hempty]
    exact (loadEntries_flatMap m.entries SortedMap.empty).trans (SortedMap.insertAll_self m)

/-! ## Reading a value that has been cut -/

/-- The archive of a map with one entry, up to the bytes of its value. -/
def saveFront (key : String) (n : Nat) : List Char :=
  signature ++ (saveNat 1 ++ (saveNat 0 ++ (saveNat 0 ++ (saveNat 0 ++ (saveString key ++ (saveNat n ++ [' ']))))))

theorem save_insert (key v : String) :
    save (SortedMap.empty.insert key v) = saveFront key v.toList.length ++ v.toList := by
  simp [save, saveFront, saveString, SortedMap.insert, SortedMap.insertEntry, SortedMap.empty]

/-- The length is right, and NULs stand for the bytes that are missing. -/
theorem load_cut (key : String) (n : Nat) {chars : List Char} (h : chars.length ≤ n) :
    load (saveFront key n ++ chars) =
      SortedMap.empty.insert key (String.ofList (chars ++ List.replicate (n - chars.length) '\x00')) := by
  have hsplit : saveFront key n ++ chars = signature ++ (saveNat 1 ++ ' ' :: ('0' :: (saveNat 0 ++ (saveNat 0 ++
      (saveString key ++ (saveNat n ++ ' ' :: chars)))))) := by
    simp [saveFront, saveNat]
  have hvalue : loadString (saveNat n ++ ' ' :: chars) =
      some (String.ofList (chars ++ List.replicate (n - chars.length) '\x00'), []) := by
    rw [loadString, loadNat_saveNat]
    simp only [Option.map_some, List.drop_succ_cons, List.drop_zero, List.take_of_length_le h,
      List.drop_eq_nil_of_le h]
  rw [hsplit, load, List.take_left, if_pos rfl, List.drop_left, loadNat_saveNat]
  show loadEntries 1 (saveString key ++ (saveNat n ++ ' ' :: chars)) SortedMap.empty = _
  rw [loadEntries, loadString_saveString]
  dsimp only
  rw [hvalue]
  rfl

/-! ## Archives without NULs -/

theorem saveNat_clean (n : Nat) : '\x00' ∉ saveNat n := by
  intro h
  rcases List.mem_cons.mp h with h | h
  · cases h
  · cases isDigit_toDigits n _ h

theorem saveString_clean {str : String} (h : '\x00' ∉ str.toList) : '\x00' ∉ saveString str := by
  simp only [saveString, List.mem_append, List.mem_cons, not_or]
  exact ⟨saveNat_clean _, by decide, h⟩

theorem saveFront_clean {key : String} (n : Nat) (h : '\x00' ∉ key.toList) : '\x00' ∉ saveFront key n := by
  simp only [saveFront, List.mem_append, not_or]
  exact ⟨by decide, saveNat_clean _, saveNat_clean _, saveNat_clean _, saveNat_clean _, saveString_clean h,
    saveNat_clean _, by decide⟩

theorem save_clean {m : MsgMap} (h : ∀ e ∈ m.entries, '\x00' ∉ e.1.toList ∧ '\x00' ∉ e.2.toList) :
    '\x00' ∉ save m := by
  simp only [save, List.mem_append, not_or, List.mem_flatMap, not_exists, not_and]
  refine ⟨⟨⟨⟨by decide, saveNat_clean _⟩, saveNat_clean _⟩, ?_⟩, fun e he => ?_⟩
  · split
    · simp
    · simp [saveNat_clean]
  · obtain ⟨hkey, hvalue⟩ := h e he
    exact ⟨saveString_clean hkey, saveString_clean hvalue⟩

def textArchive : Archive where
  encode m := some (save m)
  decode := load
  lossless m s h := by
    obtain rfl := Option.some.inj h
    exact load_save m
  clean m s h hclean := by
    obtain rfl := Option.some.inj h
    exact save_clean hclean

end TextArchive
