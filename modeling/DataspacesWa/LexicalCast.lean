import Mathlib

/-!
# Integers as decimal strings

The casts between a 32-bit integer and its decimal string: a minus sign for
the negative ones and digits with no leading zero one way; an optional sign,
at least one digit and a value in range the other way.
-/
namespace LexicalCast

def ofInt (n : Int32) : String := n.toInt.repr

def ofDigits? (digits : List Char) : Option Nat :=
  if digits ≠ [] ∧ digits.all Char.isDigit then some (Nat.ofDigitChars 10 digits 0) else none

def inRange? (z : Int) : Option Int32 :=
  if -2 ^ 31 ≤ z ∧ z < 2 ^ 31 then some (Int32.ofInt z) else none

/-- `none` is the exception of a string that is not an integer. -/
def ofChars? : List Char → Option Int32
  | '-' :: digits => (ofDigits? digits).bind fun n => inRange? (-n)
  | '+' :: digits => (ofDigits? digits).bind fun n => inRange? n
  | digits => (ofDigits? digits).bind fun n => inRange? n

def toInt? (s : String) : Option Int32 := ofChars? s.toList

theorem inRange?_toInt (n : Int32) : inRange? n.toInt = some n := by
  rw [inRange?, if_pos ⟨Int32.le_toInt n, Int32.toInt_lt n⟩, Int32.ofInt_toInt]

/-- Leading zeros do not count. -/
theorem ofDigits?_padded (n k : Nat) : ofDigits? (List.replicate k '0' ++ Nat.toDigits 10 n) = some n := by
  have hdigits : (List.replicate k '0' ++ Nat.toDigits 10 n).all Char.isDigit = true := by
    rw [List.all_append, Bool.and_eq_true, List.all_eq_true, List.all_eq_true]
    refine ⟨fun c hc => ?_, fun c hc => Nat.isDigit_of_mem_toDigits (by decide) (by decide) hc⟩
    rw [List.eq_of_mem_replicate hc]
    rfl
  have hne : List.replicate k '0' ++ Nat.toDigits 10 n ≠ [] := by simp
  rw [ofDigits?, if_pos ⟨hne, hdigits⟩, Nat.ofDigitChars_append, Nat.ofDigitChars_replicate_zero, Nat.mul_zero,
    Nat.ofDigitChars_ten_toDigits]

theorem ofDigits?_toDigits (n : Nat) : ofDigits? (Nat.toDigits 10 n) = some n := ofDigits?_padded n 0

/-- A digit is not a sign. -/
theorem ofChars?_digits {digits : List Char} (h : ∀ c ∈ digits, c.isDigit = true) :
    ofChars? digits = (ofDigits? digits).bind fun n => inRange? n := by
  unfold ofChars?
  split
  · exact absurd (h '-' List.mem_cons_self) (by decide)
  · rename_i rest
    exact absurd (h '+' List.mem_cons_self) (by decide)
  · rfl

/-- A number is read back from its digits, padded or not. -/
theorem ofChars?_padded (n k : Nat) :
    ofChars? (List.replicate k '0' ++ Nat.toDigits 10 n) = inRange? n := by
  rw [ofChars?_digits, ofDigits?_padded, Option.bind_some]
  intro c hc
  rcases List.mem_append.mp hc with hc | hc
  · rw [List.eq_of_mem_replicate hc]
    rfl
  · exact Nat.isDigit_of_mem_toDigits (by decide) (by decide) hc

theorem toInt?_ofInt (n : Int32) : toInt? (ofInt n) = some n := by
  rw [toInt?, ofInt, Int.repr_eq_if]
  split
  · rename_i hpos
    have hpad := ofChars?_padded n.toInt.toNat 0
    rw [Nat.toList_repr]
    rw [List.replicate_zero, List.nil_append, Int.toNat_of_nonneg hpos, inRange?_toInt] at hpad
    exact hpad
  · rename_i hneg
    have hlist : ("-" ++ (-n.toInt).toNat.repr).toList = '-' :: Nat.toDigits 10 (-n.toInt).toNat := by
      simp
    have hval : -((-n.toInt).toNat : Int) = n.toInt := by omega
    rw [hlist, ofChars?, ofDigits?_toDigits, Option.bind_some, hval, inRange?_toInt]

theorem toList_ofInt (n : Int32) :
    (ofInt n).toList = (if n.toInt < 0 then ['-'] else []) ++ Nat.toDigits 10 n.toInt.natAbs := by
  rw [ofInt, Int.repr_eq_if]
  split
  · rename_i hpos
    rw [if_neg (by omega), Nat.toList_repr, List.nil_append, ← Int.toNat_of_nonneg hpos, Int.natAbs_natCast,
      Int.toNat_natCast]
  · rename_i hneg
    rw [if_pos (by omega), show n.toInt.natAbs = (-n.toInt).toNat by omega]
    simp

theorem mem_ofInt {n : Int32} {c : Char} (h : c ∈ (ofInt n).toList) : c = '-' ∨ c.isDigit = true := by
  rw [toList_ofInt, List.mem_append] at h
  rcases h with hsign | hdigit
  · split at hsign
    · exact .inl (List.mem_singleton.mp hsign)
    · exact absurd hsign List.not_mem_nil
  · exact .inr (Nat.isDigit_of_mem_toDigits (by decide) (by decide) hdigit)

/-- A sign and ten digits at most. -/
theorem length_ofInt (n : Int32) : 0 < (ofInt n).toList.length ∧ (ofInt n).toList.length ≤ 11 := by
  have hlow : -2 ^ 31 ≤ n.toInt := Int32.le_toInt n
  have hhigh : n.toInt < 2 ^ 31 := Int32.toInt_lt n
  have hdigits : (Nat.toDigits 10 n.toInt.natAbs).length ≤ 10 :=
    (Nat.length_toDigits_le_iff (by decide) (by decide)).mpr (by omega)
  have hpos : 0 < (Nat.toDigits 10 n.toInt.natAbs).length := List.length_pos_of_ne_nil Nat.toDigits_ne_nil
  rw [toList_ofInt, List.length_append]
  split
  · rw [List.length_singleton]
    omega
  · rw [List.length_nil]
    omega

/-! ## `atoi` -/

def isSpace (c : Char) : Bool := c = ' ' || (9 ≤ c.toNat && c.toNat ≤ 13)

/-- The digits at the front. -/
def leading (s : List Char) : Nat := Nat.ofDigitChars 10 (s.takeWhile Char.isDigit) 0

/-- `atoi`: blanks, a sign and digits at the front, zero where there are none. -/
def atoi (s : List Char) : Int32 :=
  match s.dropWhile isSpace with
  | '-' :: rest => Int32.ofInt (-leading rest)
  | '+' :: rest => Int32.ofInt (leading rest)
  | rest => Int32.ofInt (leading rest)

theorem leading_toDigits (n : Nat) : leading (Nat.toDigits 10 n) = n := by
  have hdigits : ∀ c ∈ Nat.toDigits 10 n, c.isDigit = true :=
    fun c hc => Nat.isDigit_of_mem_toDigits (by decide) (by decide) hc
  rw [leading, List.takeWhile_eq_self_iff.mpr hdigits, Nat.ofDigitChars_ten_toDigits]

theorem atoi_ofInt (n : Int32) : atoi (ofInt n).toList = n := by
  have hdigits : ∀ c ∈ Nat.toDigits 10 n.toInt.natAbs, c.isDigit = true :=
    fun c hc => Nat.isDigit_of_mem_toDigits (by decide) (by decide) hc
  rw [toList_ofInt, atoi]
  by_cases hneg : n.toInt < 0
  · have hdrop : (['-'] ++ Nat.toDigits 10 n.toInt.natAbs).dropWhile isSpace =
        '-' :: Nat.toDigits 10 n.toInt.natAbs := rfl
    have hval : -(n.toInt.natAbs : Int) = n.toInt := by omega
    rw [if_pos hneg, hdrop]
    show Int32.ofInt (-leading (Nat.toDigits 10 n.toInt.natAbs)) = n
    rw [leading_toDigits, hval, Int32.ofInt_toInt]
  · have hval : (n.toInt.natAbs : Int) = n.toInt := by omega
    obtain ⟨c, rest, hcons⟩ := List.exists_cons_of_ne_nil (Nat.toDigits_ne_nil (n := n.toInt.natAbs) (b := 10))
    have hc : c.isDigit = true := hdigits c (hcons ▸ List.mem_cons_self)
    have hspace : isSpace c = false := by
      have hlow : 48 ≤ c.toNat := (Char.isDigit_iff_toNat.mp hc).1
      rw [isSpace, Bool.or_eq_false_iff, Bool.and_eq_false_iff, decide_eq_false_iff_not, decide_eq_false_iff_not,
        decide_eq_false_iff_not]
      refine ⟨?_, .inr (by omega)⟩
      rintro rfl
      exact absurd hlow (by decide)
    have hdrop : (Nat.toDigits 10 n.toInt.natAbs).dropWhile isSpace = Nat.toDigits 10 n.toInt.natAbs := by
      rw [hcons, List.dropWhile_cons_of_neg (by simp [hspace])]
    rw [if_neg hneg, List.nil_append, hdrop]
    split
    · rename_i heq
      exact absurd (hdigits '-' (heq ▸ List.mem_cons_self)) (by decide)
    · rename_i heq
      exact absurd (hdigits '+' (heq ▸ List.mem_cons_self)) (by decide)
    · rw [leading_toDigits, hval, Int32.ofInt_toInt]

/-! ## Unsigned integers -/

def below? (bound n : Nat) : Option Nat := if n < bound then some n else none

/-- A minus sign is read, and what it gives wraps around. -/
def unsigned? (bound : Nat) : List Char → Option Nat
  | '-' :: digits => ((ofDigits? digits).bind (below? bound)).map fun n => (bound - n) % bound
  | '+' :: digits => (ofDigits? digits).bind (below? bound)
  | digits => (ofDigits? digits).bind (below? bound)

def toUInt32? (s : String) : Option UInt32 := (unsigned? (2 ^ 32) s.toList).map UInt32.ofNat

def toUInt64? (s : String) : Option UInt64 := (unsigned? (2 ^ 64) s.toList).map UInt64.ofNat

/-- A number below the bound is read back from its digits. -/
theorem unsigned?_repr {bound n : Nat} (h : n < bound) : unsigned? bound n.repr.toList = some n := by
  have hdigits : ∀ c ∈ Nat.toDigits 10 n, c.isDigit = true :=
    fun c hc => Nat.isDigit_of_mem_toDigits (by decide) (by decide) hc
  have hbelow : below? bound n = some n := if_pos h
  rw [Nat.toList_repr]
  unfold unsigned?
  split
  · rename_i heq
    exact absurd (hdigits '-' (heq ▸ List.mem_cons_self)) (by decide)
  · rename_i heq
    exact absurd (hdigits '+' (heq ▸ List.mem_cons_self)) (by decide)
  · rw [ofDigits?_toDigits, Option.bind_some, hbelow]

theorem toUInt32?_toString (n : UInt32) : toUInt32? (toString n.toNat) = some n := by
  show (unsigned? (2 ^ 32) n.toNat.repr.toList).map UInt32.ofNat = some n
  rw [unsigned?_repr n.toNat_lt, Option.map_some, UInt32.ofNat_toNat]

theorem toUInt64?_toString (n : UInt64) : toUInt64? (toString n.toNat) = some n := by
  show (unsigned? (2 ^ 64) n.toNat.repr.toList).map UInt64.ofNat = some n
  rw [unsigned?_repr n.toNat_lt, Option.map_some, UInt64.ofNat_toNat]

end LexicalCast
