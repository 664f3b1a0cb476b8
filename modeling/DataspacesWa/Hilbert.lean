import DataspacesWa.BitTranspose
import DataspacesWa.HilbertDigits

/-!
# The Hilbert curve

`mfa_hilbert_i2c` takes an index to the coordinates of a cell, and
`mfa_hilbert_c2i` takes the coordinates to the index: one bit of each coordinate
at a time, in a word of up to 64 bits. They are inverse to each other on the
indices and the cells of the cube.
-/
namespace Hilbert

open BitTranspose WordDigits HilbertDigits
open BitMatrix (IsTranspose)

/-! ## The source -/

def rotateRight (arg : Bitmask) (nRots nDims : Nat) : Bitmask :=
  (arg >>> nRots ||| arg <<< (nDims - nRots)) &&& ones nDims

def rotateLeft (arg : Bitmask) (nRots nDims : Nat) : Bitmask :=
  (arg <<< nRots ||| arg >>> (nDims - nRots)) &&& ones nDims

/-- `while (bits) bits >>= 1, ++rotation;` -/
def shiftOut (bits : Bitmask) (rotation : Nat) : Nat :=
  if bits = 0 then rotation else shiftOut (bits >>> 1) (rotation + 1)
termination_by bits.toNat
decreasing_by
  have hne : ¬bits = 0 := ‹_›
  rw [BitVec.toNat_ushiftRight, Nat.shiftRight_eq_div_pow]
  exact Nat.div_lt_self (Nat.pos_of_ne_zero fun h => hne (BitVec.eq_of_toNat_eq h)) (by decide)

/-- `adjust_rotation` -/
def adjustRotation (rotation nDims : Nat) (bits nd1Ones : Bitmask) : Nat :=
  let rotation := shiftOut (bits &&& (-bits &&& nd1Ones)) rotation + 1
  if nDims ≤ rotation then rotation - nDims else rotation

/-- The variables of the loops over `b`: `coords` or `index`, `rotation` and `flipBit`. -/
structure Turning where
  word : Bitmask
  rotation : Nat
  flipBit : Bitmask
  deriving DecidableEq, Repr

/-- `do … while (b)`, from `nDims * k` for `b` down. -/
def digitLoop (body : Turning → Bitmask → Turning) (nDims : Nat) (x : Bitmask) : Nat → Turning → Turning
  | 0, s => s
  | k + 1, s => digitLoop body nDims x k (body s (x >>> (nDims * k) &&& ones nDims))

def i2cDigit (nDims : Nat) (s : Turning) (bits : Bitmask) : Turning :=
  ⟨s.word <<< nDims ||| (rotateLeft bits s.rotation nDims ^^^ s.flipBit),
    adjustRotation s.rotation nDims bits (ones nDims >>> 1), (1 : Bitmask) <<< s.rotation⟩

def c2iDigit (nDims : Nat) (s : Turning) (digit : Bitmask) : Turning :=
  let bits := rotateRight (s.flipBit ^^^ digit) s.rotation nDims
  ⟨s.word <<< nDims ||| bits, adjustRotation s.rotation nDims bits (ones nDims >>> 1), (1 : Bitmask) <<< s.rotation⟩

def nthbits (nDims nBits : Nat) : Bitmask := ones (nDims * nBits) / ones nDims

def splitCoords (nBits : Nat) : Nat → Bitmask → List Bitmask
  | 0, _ => []
  | d + 1, coords => (coords &&& ones nBits) :: splitCoords nBits d (coords >>> nBits)

def joinCoords (nBits : Nat) (coord : List Bitmask) : Bitmask :=
  coord.foldr (fun c coords => coords <<< nBits ||| c) 0

/-- `mfa_hilbert_i2c` -/
def mfaHilbertI2c (nDims nBits : Nat) (index : Bitmask) : List Bitmask :=
  if 1 < nDims then
    let coords :=
      if 1 < nBits then
        let index := index ^^^ (index ^^^ nthbits nDims nBits) >>> 1
        let coords := (digitLoop (i2cDigit nDims) nDims index nBits ⟨0, 0, 0⟩).word
        bitTranspose nBits nDims (scan (nDims * nBits) nDims coords)
      else index ^^^ index >>> 1
    splitCoords nBits nDims coords
  else [index]

/-- `mfa_hilbert_c2i` -/
def mfaHilbertC2i (nDims nBits : Nat) (coord : List Bitmask) : Bitmask :=
  if 1 < nDims then
    let coords := joinCoords nBits coord
    let index :=
      if 1 < nBits then
        let coords := bitTranspose nDims nBits coords
        let coords := coords ^^^ coords >>> nDims
        (digitLoop (c2iDigit nDims) nDims coords nBits ⟨0, 0, 0⟩).word ^^^ nthbits nDims nBits >>> 1
      else coords
    scan (nDims * nBits) 1 index
  else coord.headD 0

/-- As many coordinates as there are axes, each of as many bits as it may have. -/
structure IsCell (nDims nBits : Nat) (coord : List Bitmask) : Prop where
  length : coord.length = nDims
  lt : ∀ c ∈ coord, c.toNat < 2 ^ nBits

/-! ## Digits in a word -/

section
variable {n : Nat}

theorem getLsbD_ones_eq (hn : 0 < n) (hn64 : n ≤ 64) (p : Nat) : (ones n).getLsbD p = decide (p < n) := by
  by_cases hp : p < 64
  · rw [Bool.eq_iff_iff, getLsbD_ones hn p hp, decide_eq_true_eq]
  · rw [BitVec.getLsbD_of_ge _ _ (by omega), decide_eq_false (by omega)]

theorem digit_word (hn : 0 < n) (hn64 : n ≤ 64) (x : Bitmask) (k : Nat) :
    x >>> (n * k) &&& ones n = (x.extractLsb' (n * k) n).setWidth 64 := by
  apply BitVec.eq_of_getLsbD_eq
  intro p hp
  rw [BitVec.getLsbD_and, getLsbD_ones_eq hn hn64, BitVec.getLsbD_ushiftRight, BitVec.getLsbD_setWidth,
    BitVec.getLsbD_extractLsb', decide_eq_true hp, Bool.true_and, Bool.and_comm]

theorem rotateLeft_word (b : BitVec n) {r : Nat} (hr : r < n) (hn64 : n ≤ 64) :
    rotateLeft (b.setWidth 64) r n = (b.rotateLeft r).setWidth 64 := by
  apply BitVec.eq_of_getLsbD_eq
  intro p hp
  rw [rotateLeft, BitVec.getLsbD_and, getLsbD_ones_eq (by omega) hn64, BitVec.getLsbD_or, BitVec.getLsbD_shiftLeft,
    BitVec.getLsbD_ushiftRight, BitVec.getLsbD_setWidth, BitVec.getLsbD_setWidth, BitVec.getLsbD_setWidth,
    BitVec.getLsbD_rotateLeft, Nat.mod_eq_of_lt hr]
  by_cases hpn : p < n
  · by_cases hpr : p < r
    · simp [hp, hpn, hpr, show n - r + p < 64 by omega]
    · simp [hp, hpn, hpr, show p - r < 64 by omega, BitVec.getLsbD_of_ge b (n - r + p) (by omega)]
  · simp [hpn, show ¬p < r by omega]

theorem rotateRight_word (b : BitVec n) {r : Nat} (hr : r < n) (hn64 : n ≤ 64) :
    rotateRight (b.setWidth 64) r n = (b.rotateRight r).setWidth 64 := by
  apply BitVec.eq_of_getLsbD_eq
  intro p hp
  rw [rotateRight, BitVec.getLsbD_and, getLsbD_ones_eq (by omega) hn64, BitVec.getLsbD_or, BitVec.getLsbD_shiftLeft,
    BitVec.getLsbD_ushiftRight, BitVec.getLsbD_setWidth, BitVec.getLsbD_setWidth, BitVec.getLsbD_setWidth,
    BitVec.getLsbD_rotateRight, Nat.mod_eq_of_lt hr]
  by_cases hpn : p < n
  · by_cases hpr : p < n - r
    · simp [hp, hpn, hpr, show r + p < 64 by omega]
    · simp [hp, hpn, hpr, show p - (n - r) < 64 by omega, BitVec.getLsbD_of_ge b (r + p) (by omega)]
  · simp [hpn, show ¬p < n - r by omega]

theorem xor_word (b c : BitVec n) : b.setWidth 64 ^^^ c.setWidth 64 = (b ^^^ c).setWidth 64 := by
  apply BitVec.eq_of_getLsbD_eq
  intro p hp
  simp [hp]

theorem flipBit_word {r : Nat} (hr : r < n) :
    (1 : Bitmask) <<< r = (BitVec.twoPow n r).setWidth 64 := by
  apply BitVec.eq_of_getLsbD_eq
  intro p hp
  rw [BitVec.getLsbD_shiftLeft, BitVec.getLsbD_setWidth, BitVec.getLsbD_twoPow, Bool.eq_iff_iff]
  simp [hp, hr]
  omega

/-! ## The rotation -/

theorem shiftOut_zero (r : Nat) : shiftOut 0 r = r := by
  rw [shiftOut, if_pos rfl]

theorem shiftOut_twoPow {k : Nat} (hk : k < 64) (r : Nat) : shiftOut (BitVec.twoPow 64 k) r = r + k + 1 := by
  have hne : ∀ k, k < 64 → BitVec.twoPow 64 k ≠ 0 := by
    intro k hk h
    have hbit := congrArg (fun x => BitVec.getLsbD x k) h
    simp [hk] at hbit
  induction k generalizing r with
  | zero =>
    rw [shiftOut, if_neg (hne 0 hk), show BitVec.twoPow 64 0 >>> 1 = 0 by rfl, shiftOut_zero]
  | succ k ih =>
    have hshift : BitVec.twoPow 64 (k + 1) >>> 1 = BitVec.twoPow 64 k := by
      apply BitVec.eq_of_getLsbD_eq
      intro p hp
      rw [BitVec.getLsbD_ushiftRight, BitVec.getLsbD_twoPow, BitVec.getLsbD_twoPow, Bool.eq_iff_iff]
      simp
      omega
    rw [shiftOut, if_neg (hne _ hk), hshift, ih (by omega)]
    omega

/-- `rotation = (rotation + 1 + ffs(bits)) % nDims`, as the source has it in a comment. -/
theorem adjustRotation_word (b : BitVec n) {r : Nat} (hr : r < n) (hn64 : n ≤ 64) :
    adjustRotation r n (b.setWidth 64) (ones n >>> 1) = turn r b := by
  have hlow : ∀ p, p < 64 → ((b.setWidth 64 &&& (-(b.setWidth 64) &&& ones n >>> 1)).getLsbD p = true ↔
      b.getLsbD p = true ∧ p + 1 < n ∧ ∀ j, j < p → b.getLsbD j = false) := by
    intro p hp
    rw [BitVec.getLsbD_and, BitVec.getLsbD_and, BitVec.getLsbD_neg, BitVec.getLsbD_ushiftRight,
      getLsbD_ones_eq (by omega) hn64]
    simp only [BitVec.getLsbD_setWidth, Bool.and_eq_true, decide_eq_true_eq]
    constructor
    · intro ⟨⟨_, hb⟩, hneg, hpn⟩
      refine ⟨hb, by omega, ?_⟩
      intro j hj
      by_contra hbit
      rw [hb, decide_eq_true hp, Bool.true_and, Bool.true_and, decide_eq_true ⟨j, hj, by omega,
        (Bool.not_eq_false _).mp hbit⟩] at hneg
      cases hneg
    · intro ⟨hb, hpn, hmin⟩
      have hno : ¬∃ j, j < p ∧ j < 64 ∧ b.getLsbD j = true := by
        rintro ⟨j, hj, _, hbit⟩
        rw [hmin j hj] at hbit
        cases hbit
      rw [hb, decide_eq_true hp, decide_eq_false hno]
      exact ⟨⟨hp, rfl⟩, rfl, by omega⟩
  have hzero : (∀ p, ¬(b.getLsbD p = true ∧ p + 1 < n ∧ ∀ j, j < p → b.getLsbD j = false)) →
      adjustRotation r n (b.setWidth 64) (ones n >>> 1) = (r + 1) % n := by
    intro hno
    have hbits : b.setWidth 64 &&& (-(b.setWidth 64) &&& ones n >>> 1) = 0 := by
      apply BitVec.eq_of_getLsbD_eq
      intro p hp
      rw [(Bool.not_eq_true _).mp (fun h => hno p ((hlow p hp).mp h))]
      simp
    rw [adjustRotation, hbits, shiftOut_zero]
    split
    next h => rw [Nat.mod_eq_sub_mod h, Nat.mod_eq_of_lt (by omega)]
    next h => rw [Nat.mod_eq_of_lt (by omega)]
  by_cases hb : b = 0
  · rw [hzero (by rw [hb]; simp), hb, turn, ffs_zero, Nat.add_zero]
  · obtain ⟨k, hk, hmin⟩ := exists_first hb
    have hkn := BitVec.lt_of_getLsbD hk
    rw [turn, ffs_of_first hk hmin]
    by_cases htop : k + 1 = n
    · rw [hzero, htop, Nat.add_mod_right]
      intro p ⟨hp, hpn, _⟩
      rw [hmin p (by omega)] at hp
      cases hp
    · have hbits : b.setWidth 64 &&& (-(b.setWidth 64) &&& ones n >>> 1) = BitVec.twoPow 64 k := by
        apply BitVec.eq_of_getLsbD_eq
        intro p hp
        rw [Bool.eq_iff_iff, hlow p hp, BitVec.getLsbD_twoPow, decide_eq_true (by omega), Bool.true_and,
          decide_eq_true_eq]
        constructor
        · intro ⟨hbit, _, hmin'⟩
          by_contra hne
          rcases Nat.lt_or_gt_of_ne hne with hlt | hgt
          · rw [hmin' k hlt] at hk
            cases hk
          · rw [hmin p hgt] at hbit
            cases hbit
        · intro hkp
          rw [← hkp]
          exact ⟨hk, by omega, hmin⟩
      rw [adjustRotation, hbits, shiftOut_twoPow (by omega)]
      split
      next h => rw [Nat.mod_eq_sub_mod (by omega), Nat.mod_eq_of_lt (by omega)]; omega
      next h => rw [Nat.mod_eq_of_lt (by omega)]; omega

/-! ## The loops over the digits -/

theorem i2cLoop_eq (hn64 : n ≤ 64) (x : Bitmask) (k : Nat) (ds : List (BitVec n)) {r : Nat} (hr : r < n)
    (f : BitVec n) :
    (digitLoop (i2cDigit n) n x k ⟨pack 64 ds, r, f.setWidth 64⟩).word =
      pack 64 (ds ++ turns r f (digits n x k)) := by
  induction k generalizing ds r f with
  | zero => simp [digitLoop, digits, turns]
  | succ k ih =>
    rw [digitLoop, digit_word (by omega) hn64, i2cDigit]
    dsimp only
    rw [rotateLeft_word _ hr hn64, xor_word, adjustRotation_word _ hr hn64, flipBit_word hr, ← pack_append,
      ih _ (turn_lt (by omega) _ _), digits, turns, List.append_assoc, List.singleton_append]

theorem c2iLoop_eq (hn64 : n ≤ 64) (x : Bitmask) (k : Nat) (ds : List (BitVec n)) {r : Nat} (hr : r < n)
    (f : BitVec n) :
    (digitLoop (c2iDigit n) n x k ⟨pack 64 ds, r, f.setWidth 64⟩).word =
      pack 64 (ds ++ unturns r f (digits n x k)) := by
  induction k generalizing ds r f with
  | zero => simp [digitLoop, digits, unturns]
  | succ k ih =>
    rw [digitLoop, digit_word (by omega) hn64, c2iDigit]
    dsimp only
    rw [xor_word, rotateRight_word _ hr hn64, adjustRotation_word _ hr hn64, flipBit_word hr, ← pack_append,
      ih _ (turn_lt (by omega) _ _), digits, unturns, List.append_assoc, List.singleton_append]

theorem i2cLoop_start (hn : 0 < n) (hn64 : n ≤ 64) (x : Bitmask) (m : Nat) :
    (digitLoop (i2cDigit n) n x m ⟨0, 0, 0⟩).word = pack 64 (turns 0 (0 : BitVec n) (digits n x m)) := by
  have h := i2cLoop_eq hn64 x m [] hn 0
  rwa [show pack 64 ([] : List (BitVec n)) = 0 by rfl, List.nil_append, show (0 : BitVec n).setWidth 64 = 0 by simp] at h

theorem c2iLoop_start (hn : 0 < n) (hn64 : n ≤ 64) (x : Bitmask) (m : Nat) :
    (digitLoop (c2iDigit n) n x m ⟨0, 0, 0⟩).word = pack 64 (unturns 0 (0 : BitVec n) (digits n x m)) := by
  have h := c2iLoop_eq hn64 x m [] hn 0
  rwa [show pack 64 ([] : List (BitVec n)) = 0 by rfl, List.nil_append, show (0 : BitVec n).setWidth 64 = 0 by simp] at h

/-! ## The code of the index -/

theorem toNat_ones (hn : 0 < n) (hn64 : n ≤ 64) : (ones n).toNat = 2 ^ n - 1 := by
  apply Nat.eq_of_testBit_eq
  intro p
  rw [Nat.testBit_two_pow_sub_one]
  exact getLsbD_ones_eq hn hn64 p

variable {m : Nat}

theorem toNat_nthbits (hn : 0 < n) (hm : 0 < m) (hnm : n * m ≤ 64) : (nthbits n m).toNat = repunit n m := by
  have hn64 : n ≤ 64 := (Nat.le_mul_of_pos_right n hm).trans hnm
  have htwo : 2 ≤ 2 ^ n := Nat.le_self_pow (by omega) 2
  rw [nthbits, BitVec.toNat_udiv, toNat_ones (Nat.mul_pos hn hm) hnm, toNat_ones hn hn64, ← repunit_mul]
  exact Nat.mul_div_cancel _ (by omega)

theorem getLsbD_nthbits (hn : 0 < n) (hm : 0 < m) (hnm : n * m ≤ 64) (p : Nat) :
    (nthbits n m).getLsbD p = true ↔ ∃ k, k < m ∧ p = n * k := by
  rw [BitVec.getLsbD, toNat_nthbits hn hm hnm]
  exact testBit_repunit hn m p

/-- The index as `mfa_hilbert_i2c` codes it. -/
def coded (n m : Nat) (index : Bitmask) : Bitmask := index ^^^ (index ^^^ nthbits n m) >>> 1

theorem coded_eq (index : Bitmask) : coded n m index = shiftXor 1 index ^^^ nthbits n m >>> 1 := by
  rw [coded, shiftXor, BitVec.ushiftRight_xor_distrib, BitVec.xor_assoc]

theorem xor_lt {x y : Bitmask} {N : Nat} (hx : x.toNat < 2 ^ N) (hy : y.toNat < 2 ^ N) : (x ^^^ y).toNat < 2 ^ N := by
  rw [BitVec.toNat_xor]
  exact Nat.xor_lt_two_pow hx hy

theorem shift_nthbits_lt (hn : 0 < n) (hm : 0 < m) (hnm : n * m ≤ 64) :
    (nthbits n m >>> 1).toNat < 2 ^ (n * m) := by
  rw [BitVec.toNat_ushiftRight, toNat_nthbits hn hm hnm]
  exact lt_of_le_of_lt (Nat.shiftRight_le _ _) (repunit_lt hn m)

theorem coded_lt (hn : 0 < n) (hm : 0 < m) (hnm : n * m ≤ 64) {index : Bitmask} (h : index.toNat < 2 ^ (n * m)) :
    (coded n m index).toNat < 2 ^ (n * m) := by
  rw [coded_eq]
  exact xor_lt (shiftXor_lt h) (shift_nthbits_lt hn hm hnm)

theorem scan_coded {index : Bitmask} (h : index.toNat < 2 ^ (n * m)) :
    scan (n * m) 1 (coded n m index ^^^ nthbits n m >>> 1) = index := by
  rw [coded_eq, BitVec.xor_assoc, BitVec.xor_self, BitVec.xor_zero, scan_shiftXor (by decide) h]

theorem coded_scan (hn : 0 < n) (hm : 0 < m) (hnm : n * m ≤ 64) {x : Bitmask} (hx : x.toNat < 2 ^ (n * m)) :
    coded n m (scan (n * m) 1 (x ^^^ nthbits n m >>> 1)) = x := by
  rw [coded_eq, shiftXor_scan (by decide) (xor_lt hx (shift_nthbits_lt hn hm hnm)), BitVec.xor_assoc, BitVec.xor_self,
    BitVec.xor_zero]

/-- Each digit is coded by itself and the lowest bit of the one before it. -/
theorem digits_coded (hn : 0 < n) (hm : 0 < m) (hnm : n * m ≤ 64) {x : Bitmask} (hx : x.toNat < 2 ^ (n * m)) :
    digits n (coded n m x) m = grays true (digits n x m) := by
  have hgen : ∀ k, k ≤ m → digits n (coded n m x) k =
      grays (if k < m then x.getLsbD (n * k) else true) (digits n x k) := by
    intro k
    induction k with
    | zero =>
      intro _
      rfl
    | succ k ih =>
      intro hk
      rw [digits, digits, grays, ih (by omega), if_pos (by omega : k < m), BitVec.getLsbD_extractLsb', decide_eq_true hn,
        Bool.true_and, Nat.add_zero]
      congr 1
      apply BitVec.eq_of_getLsbD_eq
      intro i hi
      have hnth := getLsbD_nthbits hn hm hnm (n * k + (i + 1))
      rw [BitVec.getLsbD_extractLsb', decide_eq_true hi, Bool.true_and, coded, BitVec.getLsbD_xor,
        BitVec.getLsbD_ushiftRight, BitVec.getLsbD_xor, BitVec.getLsbD_xor, getLsbD_gray, BitVec.getLsbD_extractLsb',
        BitVec.getLsbD_extractLsb', decide_eq_true hi, Bool.true_and, show 1 + (n * k + i) = n * k + (i + 1) by omega,
        Bool.xor_assoc]
      congr 1
      by_cases htop : i + 1 < n
      · have hno : (nthbits n m).getLsbD (n * k + (i + 1)) = false := by
          rw [← Bool.not_eq_true, hnth]
          rintro ⟨k', _, hk'⟩
          have := (BitMatrix.place_unique htop hn (hk'.trans (Nat.add_zero _).symm)).2
          omega
        have hlow : ∀ low : Bool, (if low then 0 else top n).getLsbD i = false := by
          intro low
          split
          next => simp
          next => rw [getLsbD_top hn]; exact decide_eq_false (by omega)
        rw [hno, hlow, decide_eq_true htop, Bool.true_and]
      · rw [decide_eq_false htop, Bool.false_and, Bool.false_xor, show n * k + (i + 1) = n * (k + 1) by rw [Nat.mul_succ]; omega]
        rw [show n * k + (i + 1) = n * (k + 1) by rw [Nat.mul_succ]; omega] at hnth
        by_cases hlast : k + 1 < m
        · rw [hnth.mpr ⟨k + 1, hlast, rfl⟩, if_pos hlast, Bool.xor_true]
          cases x.getLsbD (n * (k + 1)) with
          | true => simp
          | false =>
            simp only [Bool.not_false, Bool.false_eq_true, if_false]
            rw [getLsbD_top hn]
            exact (decide_eq_true (by omega)).symm
        · have hno : (nthbits n m).getLsbD (n * (k + 1)) = false := by
            rw [← Bool.not_eq_true, hnth]
            rintro ⟨k', hk', heq⟩
            have := Nat.eq_of_mul_eq_mul_left hn heq
            omega
          rw [hno, if_neg hlast, if_pos rfl, getLsbD_of_lt hx (Nat.mul_le_mul_left n (by omega))]
          simp
  have h := hgen m le_rfl
  rwa [if_neg (by omega)] at h

/-! ## The coordinates in a word -/

theorem joinCoords_cons (nBits : Nat) (c : Bitmask) (coord : List Bitmask) :
    joinCoords nBits (c :: coord) = joinCoords nBits coord <<< nBits ||| c := rfl

theorem and_ones_lt (hm : 0 < m) (hm64 : m ≤ 64) (x : Bitmask) : (x &&& ones m).toNat < 2 ^ m := by
  apply lt_of_getLsbD
  intro p hp
  rw [BitVec.getLsbD_and, getLsbD_ones_eq hm hm64, decide_eq_false (by omega), Bool.and_false]

theorem splitCoords_isCell (hm : 0 < m) (hm64 : m ≤ 64) (k : Nat) (x : Bitmask) : IsCell k m (splitCoords m k x) := by
  induction k generalizing x with
  | zero => exact ⟨rfl, by rintro c ⟨⟩⟩
  | succ k ih =>
    obtain ⟨hlength, hlt⟩ := ih (x >>> m)
    constructor
    · rw [splitCoords, List.length_cons, hlength]
    · rw [splitCoords, List.forall_mem_cons]
      exact ⟨and_ones_lt hm hm64 x, hlt⟩

theorem getD_splitCoords (k : Nat) (x : Bitmask) {d : Nat} (hd : d < k) :
    (splitCoords m k x).getD d 0 = x >>> (m * d) &&& ones m := by
  induction k generalizing x d with
  | zero => omega
  | succ k ih =>
    cases d with
    | zero => simp [splitCoords]
    | succ d =>
      rw [splitCoords, List.getD_cons_succ, ih (x >>> m) (by omega), ← BitVec.shiftRight_add, Nat.mul_succ, Nat.add_comm]

theorem getLsbD_joinCoords (hm : 0 < m) {k : Nat} (hkm : m * k ≤ 64) {coord : List Bitmask} (h : IsCell k m coord)
    (p : Nat) : (joinCoords m coord).getLsbD p = (decide (p < m * k) && (coord.getD (p / m) 0).getLsbD (p % m)) := by
  induction coord generalizing k p with
  | nil =>
    rw [← h.length]
    simp [joinCoords]
  | cons c coord ih =>
    have hk : k = coord.length + 1 := h.length.symm
    rw [hk] at hkm ⊢
    rw [Nat.mul_succ] at hkm ⊢
    have hcoord : IsCell coord.length m coord := ⟨rfl, fun c hc => h.lt c (List.mem_cons_of_mem _ hc)⟩
    have hc := h.lt c List.mem_cons_self
    rw [joinCoords_cons, BitVec.getLsbD_or, BitVec.getLsbD_shiftLeft, ih (by omega) hcoord]
    by_cases hp : p < m
    · rw [decide_eq_true hp, decide_eq_true (by omega : p < m * coord.length + m), Nat.div_eq_of_lt hp,
        Nat.mod_eq_of_lt hp]
      simp
    · have hdiv : p / m = (p - m) / m + 1 := Nat.div_eq_sub_div hm (by omega)
      rw [decide_eq_false hp, getLsbD_of_lt hc (by omega), Bool.or_false, hdiv, List.getD_cons_succ,
        Nat.mod_eq_sub_mod (by omega : m ≤ p), Bool.not_false, Bool.and_true]
      by_cases hlt : p < m * coord.length + m
      · rw [decide_eq_true hlt, decide_eq_true (by omega : p < 64), decide_eq_true (by omega : p - m < m * coord.length)]
        rfl
      · rw [decide_eq_false hlt, decide_eq_false (by omega : ¬p - m < m * coord.length)]
        simp

theorem joinCoords_lt (hm : 0 < m) {k : Nat} (hkm : m * k ≤ 64) {coord : List Bitmask} (h : IsCell k m coord) :
    (joinCoords m coord).toNat < 2 ^ (m * k) := by
  apply lt_of_getLsbD
  intro p hp
  rw [getLsbD_joinCoords hm hkm h, decide_eq_false (by omega), Bool.false_and]

theorem joinCoords_splitCoords (hm : 0 < m) (hm64 : m ≤ 64) {k : Nat} (hkm : m * k ≤ 64) {x : Bitmask}
    (hx : x.toNat < 2 ^ (m * k)) : joinCoords m (splitCoords m k x) = x := by
  apply BitVec.eq_of_getLsbD_eq
  intro p _
  rw [getLsbD_joinCoords hm hkm (splitCoords_isCell hm hm64 k x)]
  by_cases hp : p < m * k
  · have hdiv : p / m < k := by rwa [Nat.div_lt_iff_lt_mul hm, Nat.mul_comm]
    rw [decide_eq_true hp, Bool.true_and, getD_splitCoords k x hdiv, BitVec.getLsbD_and, getLsbD_ones_eq hm hm64,
      decide_eq_true (Nat.mod_lt p hm), Bool.and_true, BitVec.getLsbD_ushiftRight, Nat.div_add_mod]
  · rw [decide_eq_false hp, Bool.false_and, getLsbD_of_lt hx (by omega)]

theorem IsCell.ext {k : Nat} {coord coord' : List Bitmask} (h : IsCell k m coord) (h' : IsCell k m coord')
    (heq : ∀ d, d < k → coord.getD d 0 = coord'.getD d 0) : coord = coord' := by
  apply List.ext_getElem (h.length.trans h'.length.symm)
  intro d hd hd'
  have := heq d (by rw [← h.length]; exact hd)
  rwa [← List.getElem_eq_getD 0, ← List.getElem_eq_getD 0] at this

theorem IsCell.getD_lt {k : Nat} {coord : List Bitmask} (h : IsCell k m coord) {d : Nat} (hd : d < k) :
    (coord.getD d 0).toNat < 2 ^ m := by
  have hd' : d < coord.length := by rwa [h.length]
  rw [← List.getElem_eq_getD (h := hd') 0]
  exact h.lt _ (List.getElem_mem hd')

theorem splitCoords_joinCoords (hm : 0 < m) (hm64 : m ≤ 64) {k : Nat} (hkm : m * k ≤ 64) {coord : List Bitmask}
    (h : IsCell k m coord) : splitCoords m k (joinCoords m coord) = coord := by
  apply (splitCoords_isCell hm hm64 k _).ext h
  intro d hd
  rw [getD_splitCoords k _ hd]
  apply BitVec.eq_of_getLsbD_eq
  intro i _
  rw [BitVec.getLsbD_and, getLsbD_ones_eq hm hm64, BitVec.getLsbD_ushiftRight, getLsbD_joinCoords hm hkm h]
  by_cases hi : i < m
  · have hplace := BitMatrix.place_lt hi hd
    rw [decide_eq_true hplace, decide_eq_true hi, Bool.true_and, Bool.and_true, Nat.mul_add_div hm, Nat.div_eq_of_lt hi,
      Nat.add_zero, Nat.mul_add_mod, Nat.mod_eq_of_lt hi]
  · rw [decide_eq_false hi, Bool.and_false, getLsbD_of_lt (h.getD_lt hd) (by omega)]

/-! ## The two maps -/

theorem mfaHilbertI2c_of_lt (hn : 1 < n) (hm : 1 < m) (hn64 : n ≤ 64) (index : Bitmask) :
    mfaHilbertI2c n m index = splitCoords m n (bitTranspose m n (scan (n * m) n
      (pack 64 (turns 0 (0 : BitVec n) (digits n (coded n m index) m))))) := by
  rw [mfaHilbertI2c, if_pos hn, if_pos hm, ← i2cLoop_start (by omega) hn64]
  rfl

theorem mfaHilbertC2i_of_lt (hn : 1 < n) (hm : 1 < m) (hn64 : n ≤ 64) (coord : List Bitmask) :
    mfaHilbertC2i n m coord = scan (n * m) 1 (pack 64 (unturns 0 (0 : BitVec n)
      (digits n (shiftXor n (bitTranspose n m (joinCoords m coord))) m)) ^^^ nthbits n m >>> 1) := by
  rw [mfaHilbertC2i, if_pos hn]
  dsimp only
  rw [if_pos hm, ← c2iLoop_start (by omega) hn64]
  rfl

theorem bitTranspose_bitTranspose (hn : 2 ≤ n) (hm : 2 ≤ m) (hnm : n * m ≤ 64) {x : Bitmask}
    (hx : x.toNat < 2 ^ (n * m)) : bitTranspose m n (bitTranspose n m x) = x :=
  (bitTranspose_isTranspose hm hn (by rwa [Nat.mul_comm]) _).unique
    ((bitTranspose_isTranspose hn hm hnm x).symm hx)

theorem pack_length_lt {ds : List (BitVec n)} (hlen : ds.length = m) : (pack 64 ds).toNat < 2 ^ (n * m) := by
  rw [← hlen]
  exact pack_lt ds

theorem digits_pack_length {ds : List (BitVec n)} (hlen : ds.length = m) (hnm : n * m ≤ 64) :
    digits n (pack 64 ds) m = ds := by
  rw [← hlen]
  exact digits_pack ds (by rwa [hlen])

theorem c2i_i2c_of_lt (hn : 1 < n) (hm : 1 < m) (hnm : n * m ≤ 64) {index : Bitmask}
    (h : index.toNat < 2 ^ (n * m)) : mfaHilbertC2i n m (mfaHilbertI2c n m index) = index := by
  have hn64 : n ≤ 64 := (Nat.le_mul_of_pos_right n (by omega)).trans hnm
  have hm64 : m ≤ 64 := (Nat.le_mul_of_pos_left m (by omega)).trans hnm
  have hmn : m * n ≤ 64 := by rwa [Nat.mul_comm]
  have hturns : (turns 0 (0 : BitVec n) (digits n (coded n m index) m)).length = m := by simp
  have hpack := pack_length_lt hturns
  have hscan : (scan (n * m) n (pack 64 (turns 0 (0 : BitVec n) (digits n (coded n m index) m)))).toNat < 2 ^ (m * n) := by
    rw [Nat.mul_comm m n]
    exact scan_lt hpack
  have htrans := (bitTranspose_isTranspose hm hn hmn
    (scan (n * m) n (pack 64 (turns 0 (0 : BitVec n) (digits n (coded n m index) m))))).lt
  rw [mfaHilbertI2c_of_lt hn hm hn64, mfaHilbertC2i_of_lt hn hm hn64,
    joinCoords_splitCoords (by omega) hm64 hmn htrans, bitTranspose_bitTranspose hm hn hmn hscan,
    shiftXor_scan (by omega) hpack, digits_pack_length hturns hnm, unturns_turns,
    pack_digits hnm (coded_lt (by omega) (by omega) hnm h), scan_coded h]

theorem i2c_c2i_of_lt (hn : 1 < n) (hm : 1 < m) (hnm : n * m ≤ 64) {coord : List Bitmask} (h : IsCell n m coord) :
    mfaHilbertI2c n m (mfaHilbertC2i n m coord) = coord ∧ (mfaHilbertC2i n m coord).toNat < 2 ^ (n * m) := by
  have hn64 : n ≤ 64 := (Nat.le_mul_of_pos_right n (by omega)).trans hnm
  have hm64 : m ≤ 64 := (Nat.le_mul_of_pos_left m (by omega)).trans hnm
  have hmn : m * n ≤ 64 := by rwa [Nat.mul_comm]
  have hjoin := joinCoords_lt (by omega) hmn h
  rw [Nat.mul_comm m n] at hjoin
  have htrans := (bitTranspose_isTranspose hn hm hnm (joinCoords m coord)).lt
  have hsteps := shiftXor_lt (d := n) htrans
  have hunturns : (unturns 0 (0 : BitVec n)
      (digits n (shiftXor n (bitTranspose n m (joinCoords m coord))) m)).length = m := by simp
  have hpack := pack_length_lt hunturns
  rw [mfaHilbertC2i_of_lt hn hm hn64]
  constructor
  · rw [mfaHilbertI2c_of_lt hn hm hn64, coded_scan (by omega) (by omega) hnm hpack, digits_pack_length hunturns hnm,
      turns_unturns, pack_digits hnm hsteps, scan_shiftXor (by omega) htrans, bitTranspose_bitTranspose hn hm hnm hjoin,
      splitCoords_joinCoords (by omega) hm64 hmn h]
  · exact scan_lt (xor_lt hpack (shift_nthbits_lt (by omega) (by omega) hnm))

/-- With one bit a coordinate, the curve is the reflected binary code. -/
theorem mfaHilbertI2c_one (hn : 1 < n) (index : Bitmask) :
    mfaHilbertI2c n 1 index = splitCoords 1 n (shiftXor 1 index) := by
  rw [mfaHilbertI2c, if_pos hn, if_neg (by decide)]
  rfl

theorem mfaHilbertC2i_one (hn : 1 < n) (coord : List Bitmask) :
    mfaHilbertC2i n 1 coord = scan (n * 1) 1 (joinCoords 1 coord) := by
  rw [mfaHilbertC2i, if_pos hn]
  dsimp only
  rw [if_neg (by decide)]

/-- The coordinates are masked. -/
theorem i2c_isCell_of_axes (hn : 1 < n) (hm : 0 < m) (hm64 : m ≤ 64) (index : Bitmask) :
    IsCell n m (mfaHilbertI2c n m index) := by
  rw [mfaHilbertI2c, if_pos hn]
  exact splitCoords_isCell hm hm64 n _

theorem i2c_isCell (hn : 0 < n) (hm : 0 < m) (hnm : n * m ≤ 64) {index : Bitmask} (h : index.toNat < 2 ^ (n * m)) :
    IsCell n m (mfaHilbertI2c n m index) := by
  have hm64 : m ≤ 64 := (Nat.le_mul_of_pos_left m (by omega)).trans hnm
  by_cases hone : 1 < n
  · exact i2c_isCell_of_axes hone hm hm64 index
  · have hn1 : n = 1 := by omega
    rw [hn1, Nat.one_mul] at h
    rw [mfaHilbertI2c, if_neg hone, hn1]
    exact ⟨rfl, by simpa using h⟩

end

/-- The two maps are inverse to each other on the indices and the cells that have the given numbers of axes and bits. -/
theorem i2c_c2i_inverse {nDims nBits : Nat} (hd : 0 < nDims) (hb : 0 < nBits) (hbits : nDims * nBits ≤ 64) :
    (∀ index : Bitmask, index.toNat < 2 ^ (nDims * nBits) →
        IsCell nDims nBits (mfaHilbertI2c nDims nBits index) ∧
          mfaHilbertC2i nDims nBits (mfaHilbertI2c nDims nBits index) = index) ∧
      ∀ coord, IsCell nDims nBits coord →
        (mfaHilbertC2i nDims nBits coord).toNat < 2 ^ (nDims * nBits) ∧
          mfaHilbertI2c nDims nBits (mfaHilbertC2i nDims nBits coord) = coord := by
  constructor
  · intro index h
    refine ⟨i2c_isCell hd hb hbits h, ?_⟩
    by_cases hone : 1 < nDims
    · by_cases hbone : 1 < nBits
      · exact c2i_i2c_of_lt hone hbone hbits h
      · have hb1 : nBits = 1 := by omega
        subst hb1
        have hlt : (shiftXor 1 index).toNat < 2 ^ (1 * nDims) := by
          rw [Nat.mul_comm]
          exact shiftXor_lt h
        rw [mfaHilbertI2c_one hone, mfaHilbertC2i_one hone,
          joinCoords_splitCoords (by decide) (by decide) (by rwa [Nat.mul_comm]) hlt, scan_shiftXor (by decide) h]
    · rw [mfaHilbertC2i, if_neg hone, mfaHilbertI2c, if_neg hone]
      rfl
  · intro coord h
    by_cases hone : 1 < nDims
    · by_cases hbone : 1 < nBits
      · exact (i2c_c2i_of_lt hone hbone hbits h).symm
      · have hb1 : nBits = 1 := by omega
        subst hb1
        have hmn : 1 * nDims ≤ 64 := by rwa [Nat.mul_comm]
        have hjoin := joinCoords_lt (by decide) hmn h
        rw [Nat.mul_comm] at hjoin
        rw [mfaHilbertC2i_one hone, mfaHilbertI2c_one hone]
        exact ⟨scan_lt hjoin, by rw [shiftXor_scan (by decide) hjoin, splitCoords_joinCoords (by decide) (by decide) hmn h]⟩
    · have hd1 : nDims = 1 := by omega
      subst hd1
      rw [mfaHilbertC2i, if_neg hone, mfaHilbertI2c, if_neg hone]
      obtain ⟨c, hc⟩ := List.length_eq_one_iff.mp h.length
      rw [hc]
      exact ⟨by rw [Nat.one_mul]; exact h.lt c (by rw [hc]; exact List.mem_singleton_self c), rfl⟩

theorem i2c_c2i_inverse_cube :
    (∀ index : Bitmask, index.toNat < 2 ^ (3 * 21) →
        IsCell 3 21 (mfaHilbertI2c 3 21 index) ∧ mfaHilbertC2i 3 21 (mfaHilbertI2c 3 21 index) = index) ∧
      ∀ coord, IsCell 3 21 coord →
        (mfaHilbertC2i 3 21 coord).toNat < 2 ^ (3 * 21) ∧ mfaHilbertI2c 3 21 (mfaHilbertC2i 3 21 coord) = coord :=
  i2c_c2i_inverse (by decide) (by decide) (by decide)

end Hilbert
