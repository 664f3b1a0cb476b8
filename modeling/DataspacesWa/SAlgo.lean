import DataspacesWa.IntervalSet
import DataspacesWa.ByteCount
import DataspacesWa.Patch

/-!
# Intervals of curve indices

`SAlgo` numbers the cells of a domain along a Hilbert curve and keeps sets of
indices as intervals. How many bits a coordinate has is computed in doubles from
the longest side of the domain and put into an `int`, and so is the largest
index. What a conversion to `int` gives where the number does not fit is left to
the machine, and is an argument.
-/
namespace SAlgo

open ByteCount (intOf widen widen_toNat)
open Patch (ndim)

abbrev Coor := Vector UInt64 ndim

/-- What passes `IS_VALID_BOX`: the domain that `SAlgo::SAlgo` accepts, or a query. -/
structure ValidBox where
  lcoor : Coor
  ucoor : Coor
  valid : ∀ i : Fin ndim, lcoor.get i < ucoor.get i

/-- The conversions to `int` that have no value in the language. -/
structure Conversion where
  /-- `(int) ceil(log2(m))` of an `m` that is not positive -/
  ofLog : Int32 → Int32
  /-- `pow(2, e) - 1` of an `e` that is negative or above 31 -/
  ofPow : Int → Int32

/-- A processor that gives the smallest `int` for what does not fit. -/
def Conversion.smallest : Conversion := ⟨fun _ => Int32.minValue, fun e => if e < 0 then 0 else Int32.minValue⟩

/-- `dim_length_v` -/
def ValidBox.dimLength (d : ValidBox) : List Int32 := (List.finRange ndim).map fun i => intOf (d.ucoor.get i - d.lcoor.get i)

/-- `*std::max_element(..)` -/
def ValidBox.longest (d : ValidBox) : Int32 :=
  d.dimLength.tail.foldl (fun m x => if m < x then x else m) (d.dimLength.headD 0)

def hilbertNumBits (conv : Conversion) (d : ValidBox) : Int32 :=
  if 0 < d.longest then Int32.ofNat (Nat.clog 2 d.longest.toInt.toNat) else conv.ofLog d.longest

/-- `max_index` -/
def maxIndex (conv : Conversion) (d : ValidBox) : Int32 :=
  let e := (Int32.ofNat ndim * hilbertNumBits conv d).toInt
  if 0 ≤ e ∧ e ≤ 31 then Int32.ofInt (2 ^ e.toNat - 1) else conv.ofPow e

/-- `max_index` as it is compared with an index. -/
def clip (conv : Conversion) (d : ValidBox) : Nat := (widen (maxIndex conv d)).toNat

/-- `bitmask_t lower` -/
def lower (sexpandLength : UInt64) (iv : Nat × Nat) : UInt64 :=
  if UInt64.ofNat iv.1 < sexpandLength then 0 else UInt64.ofNat iv.1 - sexpandLength

/-- `std::min<bitmask_t>(max_index, it->upper() + sexpand_length)` -/
def upper (conv : Conversion) (d : ValidBox) (sexpandLength : UInt64) (iv : Nat × Nat) : UInt64 :=
  min (widen (maxIndex conv d)) (UInt64.ofNat iv.2 + sexpandLength)

/-- `SAlgo::expand_interval_set` -/
def expandIntervalSet (conv : Conversion) (d : ValidBox) (sexpandLength : UInt64) (S : IntervalSet) : IntervalSet :=
  IntervalSet.empty.insertAll
    (S.ivs.map fun iv => ((lower sexpandLength iv).toNat, (upper conv d sexpandLength iv).toNat))

/-- The number of the indices. -/
def numIndices (conv : Conversion) (d : ValidBox) : ℚ := 2 ^ ((ndim : Int) * (hilbertNumBits conv d).toInt)

/-- The indices at distance at most `s` from a member. -/
def Near (conv : Conversion) (d : ValidBox) (s : UInt64) (S : IntervalSet) (j : Nat) : Prop :=
  (j : ℚ) ≤ numIndices conv d - 1 ∧ ∃ i ∈ S, i ≤ j + s.toNat ∧ j ≤ i + s.toNat

/-- A set of indices of the curve, and two lengths whose sums fit. -/
structure Query (conv : Conversion) (d : ValidBox) where
  set : IntervalSet
  s : UInt64
  t : UInt64
  inside : ∀ i ∈ set, (i : ℚ) < numIndices conv d
  sums : s.toNat + t.toNat < 2 ^ 64 ∧ ∀ i ∈ set, i + s.toNat + t.toNat < 2 ^ 64

/-- The expansion is the neighbourhood, and two expansions are one. -/
def Exact {conv : Conversion} {d : ValidBox} (q : Query conv d) : Prop :=
  (∀ j, j ∈ expandIntervalSet conv d q.s q.set ↔ Near conv d q.s q.set j) ∧
    expandIntervalSet conv d q.t (expandIntervalSet conv d q.s q.set) =
      expandIntervalSet conv d (q.s + q.t) q.set

-- the bound of a list index is not to be looked for in it
attribute [irreducible] clip

/-- The largest `int` cuts where the last index is. -/
def ClipsRight {conv : Conversion} {d : ValidBox} (q : Query conv d) : Prop :=
  ∀ i ∈ q.set, min (numIndices conv d - 1) (i + q.s.toNat : ℚ) = min (clip conv d : ℚ) (i + q.s.toNat)

/-! ## One expansion -/

section

variable {conv : Conversion} {d : ValidBox} {s : UInt64} {S : IntervalSet}

theorem mem_expand_intervals (x : Nat) :
    x ∈ expandIntervalSet conv d s S ↔
      ∃ iv ∈ S.ivs, (lower s iv).toNat ≤ x ∧ x ≤ (upper conv d s iv).toNat := by
  rw [expandIntervalSet, IntervalSet.mem_insertAll, IntervalSet.covers]
  simp [IntervalSet.not_mem_empty]

theorem lower_toNat {iv : Nat × Nat} (h : iv.1 < 2 ^ 64) : (lower s iv).toNat = iv.1 - s.toNat := by
  have hiv : (UInt64.ofNat iv.1).toNat = iv.1 := UInt64.toNat_ofNat_of_lt' h
  rw [lower]
  split
  next hlt =>
    rw [UInt64.lt_iff_toNat_lt, hiv] at hlt
    rw [UInt64.toNat_zero]
    omega
  next hge =>
    rw [UInt64.lt_iff_toNat_lt, hiv, not_lt] at hge
    rw [UInt64.toNat_sub_of_le _ _ (by rw [UInt64.le_iff_toNat_le, hiv]; exact hge), hiv]

theorem toNat_min (a b : UInt64) : (min a b).toNat = min a.toNat b.toNat := by
  change (if a ≤ b then a else b).toNat = _
  split
  next h => rw [Nat.min_eq_left (UInt64.le_iff_toNat_le.mp h)]
  next h =>
    rw [UInt64.le_iff_toNat_le] at h
    rw [Nat.min_eq_right (by omega)]

theorem upper_toNat {iv : Nat × Nat} (h : iv.2 + s.toNat < 2 ^ 64) :
    (upper conv d s iv).toNat = min (clip conv d) (iv.2 + s.toNat) := by
  have hiv : (UInt64.ofNat iv.2).toNat = iv.2 := UInt64.toNat_ofNat_of_lt' (show iv.2 < 2 ^ 64 by omega)
  rw [upper, toNat_min, UInt64.toNat_add, hiv, Nat.mod_eq_of_lt h, clip]

/-- Without overflow an expansion takes what lies within the distance of a member, up to the clip. -/
theorem mem_expand (h : ∀ i ∈ S, i + s.toNat < 2 ^ 64) (x : Nat) :
    x ∈ expandIntervalSet conv d s S ↔
      x ≤ clip conv d ∧ ∃ i ∈ S, i ≤ x + s.toNat ∧ x ≤ i + s.toNat := by
  have hends : ∀ iv ∈ S.ivs, iv.1 ≤ iv.2 ∧ iv.1 ∈ S ∧ iv.2 ∈ S := by
    intro iv hiv
    have hle := S.separated.1 iv hiv
    exact ⟨hle, ⟨iv, hiv, le_rfl, hle⟩, ⟨iv, hiv, hle, le_rfl⟩⟩
  rw [mem_expand_intervals]
  constructor
  · rintro ⟨iv, hiv, hlo, hhi⟩
    obtain ⟨hle, hmem1, hmem2⟩ := hends iv hiv
    have h1 := h iv.1 hmem1
    rw [lower_toNat (by omega)] at hlo
    rw [upper_toNat (h iv.2 hmem2)] at hhi
    -- the member of the interval next to `x`
    refine ⟨by omega, max iv.1 (min iv.2 x), ⟨iv, hiv, by omega, by omega⟩, by omega, by omega⟩
  · rintro ⟨hx, i, ⟨iv, hiv, hlo, hhi⟩, hi1, hi2⟩
    obtain ⟨hle, hmem1, hmem2⟩ := hends iv hiv
    have h1 := h iv.1 hmem1
    refine ⟨iv, hiv, ?_, ?_⟩
    · rw [lower_toNat (by omega)]
      omega
    · rw [upper_toNat (h iv.2 hmem2)]
      omega

end

/-! ## The clip -/

section

variable {conv : Conversion} {d : ValidBox}

/-- What the curve numbers has a largest index that is a number, or no index but zero. -/
theorem numIndices_cases (hbits : (ndim : Int) * (hilbertNumBits conv d).toInt ≤ 63) :
    (0 ≤ (hilbertNumBits conv d).toInt ∧
        numIndices conv d = (2 ^ (ndim * (hilbertNumBits conv d).toInt.toNat) : Nat) ∧
        ndim * (hilbertNumBits conv d).toInt.toNat ≤ 63) ∨
      ((hilbertNumBits conv d).toInt < 0 ∧ numIndices conv d < 1) := by
  rcases Int.lt_or_le (hilbertNumBits conv d).toInt 0 with hneg | hpos
  · refine Or.inr ⟨hneg, ?_⟩
    rw [numIndices]
    exact zpow_lt_one_of_neg₀ (by norm_num) (by rw [ndim]; omega)
  · obtain ⟨n, hn⟩ := Int.eq_ofNat_of_zero_le hpos
    refine Or.inl ⟨hpos, ?_, ?_⟩
    · rw [numIndices, hn, Int.toNat_natCast, ← Nat.cast_mul, zpow_natCast, Nat.cast_pow, Nat.cast_ofNat]
    · rw [hn] at hbits ⊢
      rw [Int.toNat_natCast]
      exact_mod_cast hbits

theorem clip_lt (conv : Conversion) (d : ValidBox) :
    clip conv d < 2 ^ 31 ∨ 2 ^ 64 - 2 ^ 31 ≤ clip conv d ∧ clip conv d < 2 ^ 64 := by
  have hwide := widen_toNat (maxIndex conv d)
  have hlo := (maxIndex conv d).le_toInt
  have hhi := (maxIndex conv d).toInt_lt
  rw [clip]
  omega

theorem toInt_ndim_mul {b : Int32} {n : Nat} (hn : b.toInt = n) (hle : n ≤ 21) :
    (Int32.ofNat ndim * b).toInt = (ndim * n : Nat) := by
  have hdim : (Int32.ofNat ndim).toInt = 3 := rfl
  rw [Int32.toInt_mul, hdim, hn, Int.bmod_eq_of_le (by omega) (by omega), ndim]
  omega

/-- Up to ten bits the largest index fits an `int`. -/
theorem clip_of_le_ten (h0 : 0 ≤ (hilbertNumBits conv d).toInt) (h10 : (hilbertNumBits conv d).toInt ≤ 10) :
    clip conv d = 2 ^ (ndim * (hilbertNumBits conv d).toInt.toNat) - 1 := by
  obtain ⟨n, hn⟩ := Int.eq_ofNat_of_zero_le h0
  have hexp := toInt_ndim_mul hn (by omega)
  have hpow : (2 : Int) ^ (ndim * n) ≤ 2 ^ 30 := pow_le_pow_right₀ (by norm_num) (by rw [ndim]; omega)
  have hpos : (1 : Int) ≤ 2 ^ (ndim * n) := one_le_pow₀ (by norm_num)
  have hval : (maxIndex conv d).toInt = 2 ^ (ndim * n) - 1 := by
    have hle : ndim * n ≤ 31 := by rw [ndim]; omega
    rw [maxIndex, hexp, Int.toNat_natCast, if_pos ⟨by omega, by exact_mod_cast hle⟩]
    exact Int32.toInt_ofInt_of_le (by omega) (by omega)
  have hwide := widen_toNat (maxIndex conv d)
  have hcast : ((2 ^ (ndim * n) : Nat) : Int) = 2 ^ (ndim * n) := Nat.cast_pow 2 (ndim * n)
  rw [hval, ← hcast] at hwide
  rw [← hcast] at hpow hpos
  rw [clip, hn, Int.toNat_natCast]
  generalize 2 ^ (ndim * n) = m at hwide hpow hpos
  omega

/-- From eleven bits on no `int` is the largest index. -/
theorem clip_ne_of_gt_ten (h11 : 11 ≤ (hilbertNumBits conv d).toInt)
    (h21 : (ndim : Int) * (hilbertNumBits conv d).toInt ≤ 63) :
    clip conv d ≠ 2 ^ (ndim * (hilbertNumBits conv d).toInt.toNat) - 1 := by
  have hlo : 2 ^ 33 ≤ 2 ^ (ndim * (hilbertNumBits conv d).toInt.toNat) :=
    Nat.pow_le_pow_right (by omega) (by rw [ndim]; omega)
  have hhi : 2 ^ (ndim * (hilbertNumBits conv d).toInt.toNat) ≤ 2 ^ 63 :=
    Nat.pow_le_pow_right (by omega) (by rw [ndim] at h21 ⊢; omega)
  have hclip := clip_lt conv d
  omega

end

/-! ## The whole law -/

section

variable {conv : Conversion} {d : ValidBox}

theorem Query.inside_nat (q : Query conv d) {n : Nat} (hn : numIndices conv d = (n : Nat)) {i : Nat}
    (hi : i ∈ q.set) : i < n := by
  have h := q.inside i hi
  rw [hn] at h
  exact_mod_cast h

theorem near_iff {s : UInt64} {S : IntervalSet} {n j : Nat} (hn : numIndices conv d = (n : Nat)) (hpos : 0 < n) :
    Near conv d s S j ↔ j ≤ n - 1 ∧ ∃ i ∈ S, i ≤ j + s.toNat ∧ j ≤ i + s.toNat := by
  have hle : (j : ℚ) ≤ numIndices conv d - 1 ↔ j ≤ n - 1 := by
    rw [hn, ← Nat.cast_pred hpos, Nat.cast_le]
  rw [Near, hle]

theorem clipsRight_iff (q : Query conv d) {n : Nat} (hn : numIndices conv d = (n : Nat)) (hpos : 0 < n) :
    ClipsRight q ↔ ∀ i ∈ q.set, min (n - 1) (i + q.s.toNat) = min (clip conv d) (i + q.s.toNat) := by
  refine forall₂_congr fun i _ => ?_
  rw [hn, ← Nat.cast_pred hpos, ← Nat.cast_add, ← Nat.cast_min, ← Nat.cast_min, Nat.cast_inj]

/-- Two expansions are one where every member lies below the clip. -/
theorem expand_expand (q : Query conv d) (h : ∀ i ∈ q.set, i ≤ clip conv d) :
    expandIntervalSet conv d q.t (expandIntervalSet conv d q.s q.set) =
      expandIntervalSet conv d (q.s + q.t) q.set := by
  obtain ⟨hst, hsums⟩ := q.sums
  have hadd : (q.s + q.t).toNat = q.s.toNat + q.t.toNat := by
    rw [UInt64.toNat_add, Nat.mod_eq_of_lt hst]
  have hone : ∀ i ∈ q.set, i + q.s.toNat < 2 ^ 64 := by
    intro i hi
    have := hsums i hi
    omega
  have hfirst : ∀ x, x ∈ expandIntervalSet conv d q.s q.set ↔
      x ≤ clip conv d ∧ ∃ i ∈ q.set, i ≤ x + q.s.toNat ∧ x ≤ i + q.s.toNat := mem_expand hone
  have hsecond : ∀ i ∈ expandIntervalSet conv d q.s q.set, i + q.t.toNat < 2 ^ 64 := by
    intro i hi
    obtain ⟨-, j, hj, -, hij⟩ := (hfirst i).mp hi
    have := hsums j hj
    omega
  have hboth : ∀ i ∈ q.set, i + (q.s + q.t).toNat < 2 ^ 64 := by
    intro i hi
    have := hsums i hi
    omega
  refine IntervalSet.ext_mem fun x => ?_
  rw [mem_expand hsecond, mem_expand hboth, hadd]
  refine and_congr_right fun hx => ?_
  constructor
  · rintro ⟨y, hy, hxy, hyx⟩
    obtain ⟨-, i, hi, hiy, hyi⟩ := (hfirst y).mp hy
    exact ⟨i, hi, by omega, by omega⟩
  · rintro ⟨i, hi, hix, hxi⟩
    have hiclip := h i hi
    -- a number between the member and `x`
    by_cases hle : i ≤ x
    · exact ⟨max i (x - q.t.toNat), (hfirst _).mpr ⟨by omega, i, hi, by omega, by omega⟩, by omega, by omega⟩
    · exact ⟨min i (x + q.t.toNat), (hfirst _).mpr ⟨by omega, i, hi, by omega, by omega⟩, by omega, by omega⟩

theorem expand_exact_iff (q : Query conv d) (hbits : (ndim : Int) * (hilbertNumBits conv d).toInt ≤ 63) :
    Exact q ↔ ClipsRight q := by
  obtain ⟨hst, hsums⟩ := q.sums
  have hone : ∀ i ∈ q.set, i + q.s.toNat < 2 ^ 64 := by
    intro i hi
    have := hsums i hi
    omega
  have hmem : ∀ x, x ∈ expandIntervalSet conv d q.s q.set ↔
      x ≤ clip conv d ∧ ∃ i ∈ q.set, i ≤ x + q.s.toNat ∧ x ≤ i + q.s.toNat := mem_expand hone
  rcases numIndices_cases hbits with ⟨-, hn, -⟩ | ⟨-, hlt⟩
  · have hpos : 0 < 2 ^ (ndim * (hilbertNumBits conv d).toInt.toNat) := Nat.two_pow_pos _
    generalize 2 ^ (ndim * (hilbertNumBits conv d).toInt.toNat) = n at hn hpos
    rw [clipsRight_iff q hn hpos]
    constructor
    · rintro ⟨hnear, -⟩ i hi
      have hin : i < n := q.inside_nat hn hi
      -- the last index that is near, and the last one that is taken
      have htop := (hmem (min (n - 1) (i + q.s.toNat))).mp
        ((hnear _).mpr ((near_iff hn hpos).mpr ⟨by omega, i, hi, by omega, by omega⟩))
      have hlast := (near_iff hn hpos).mp ((hnear (min (clip conv d) (i + q.s.toNat))).mp
        ((hmem _).mpr ⟨by omega, i, hi, by omega, by omega⟩))
      omega
    · intro hclip
      refine ⟨fun j => ?_, expand_expand q fun i hi => ?_⟩
      · rw [hmem, near_iff hn hpos]
        constructor
        · rintro ⟨hj, i, hi, hij, hji⟩
          have := hclip i hi
          exact ⟨by omega, i, hi, hij, hji⟩
        · rintro ⟨hj, i, hi, hij, hji⟩
          have := hclip i hi
          exact ⟨by omega, i, hi, hij, hji⟩
      · have hin : i < n := q.inside_nat hn hi
        have := hclip i hi
        omega
  · -- no index but zero, and that one lies above the largest
    have hzero : ∀ i ∈ q.set, i = 0 := by
      intro i hi
      have h1 : (i : ℚ) < 1 := (q.inside i hi).trans hlt
      have : i < 1 := by exact_mod_cast h1
      omega
    constructor
    · rintro ⟨hnear, -⟩ i hi
      obtain rfl := hzero i hi
      obtain ⟨hle, -⟩ := (hnear 0).mp ((hmem 0).mpr ⟨by omega, 0, hi, by omega, by omega⟩)
      rw [Nat.cast_zero] at hle
      linarith
    · intro hclip
      have hempty : ∀ i, i ∉ q.set := by
        intro i hi
        have hmin := hclip i hi
        have hneg : numIndices conv d - 1 < 0 := by linarith
        have hge : (0 : ℚ) ≤ min (clip conv d : ℚ) (i + q.s.toNat) :=
          le_min (Nat.cast_nonneg _) (add_nonneg (Nat.cast_nonneg _) (Nat.cast_nonneg _))
        have hle := min_le_left (numIndices conv d - 1) (i + q.s.toNat : ℚ)
        rw [hmin] at hle
        exact absurd (hge.trans hle) (not_le.mpr hneg)
      refine ⟨fun j => ?_, expand_expand q fun i hi => absurd hi (hempty i)⟩
      rw [hmem, Near]
      constructor
      · rintro ⟨-, i, hi, -⟩
        exact absurd hi (hempty i)
      · rintro ⟨-, i, hi, -⟩
        exact absurd hi (hempty i)

theorem mem_singleton (a x : Nat) : x ∈ IntervalSet.empty.insert a a ↔ x = a := by
  rw [IntervalSet.mem_insert, or_iff_left (IntervalSet.not_mem_empty x)]
  omega

/-- A single index, expanded by `s`. -/
def single (conv : Conversion) (d : ValidBox) (a : Nat) (s : UInt64) (h : (a : ℚ) < numIndices conv d)
    (hs : a + s.toNat < 2 ^ 64) : Query conv d where
  set := IntervalSet.empty.insert a a
  s := s
  t := 0
  inside := by
    intro i hi
    obtain rfl := (mem_singleton a i).mp hi
    exact h
  sums := by
    refine ⟨by rw [UInt64.toNat_zero]; omega, fun i hi => ?_⟩
    obtain rfl := (mem_singleton a i).mp hi
    exact hs

theorem exact_single_iff (hbits : (ndim : Int) * (hilbertNumBits conv d).toInt ≤ 63) {a : Nat} {s : UInt64}
    (h : (a : ℚ) < numIndices conv d) (hs : a + s.toNat < 2 ^ 64) :
    Exact (single conv d a s h hs) ↔
      min (numIndices conv d - 1) (a + s.toNat : ℚ) = min (clip conv d : ℚ) (a + s.toNat) := by
  rw [expand_exact_iff _ hbits]
  constructor
  · intro hclip
    exact hclip a ((mem_singleton a a).mpr rfl)
  · intro heq i hi
    obtain rfl := (mem_singleton a i).mp hi
    exact heq

/-- An expansion by one from the last index fails where no `int` is the last index. -/
theorem not_exact_last (h11 : 11 ≤ (hilbertNumBits conv d).toInt)
    (hbits : (ndim : Int) * (hilbertNumBits conv d).toInt ≤ 63) : ∃ q : Query conv d, ¬ Exact q := by
  have hne := clip_ne_of_gt_ten h11 hbits
  rcases numIndices_cases hbits with ⟨-, hn, hle⟩ | ⟨hneg, -⟩
  · have hpos : 0 < 2 ^ (ndim * (hilbertNumBits conv d).toInt.toNat) := Nat.two_pow_pos _
    have hlt : 2 ^ (ndim * (hilbertNumBits conv d).toInt.toNat) ≤ 2 ^ 63 := Nat.pow_le_pow_right (by omega) hle
    generalize 2 ^ (ndim * (hilbertNumBits conv d).toInt.toNat) = n at hn hpos hne hlt
    have hin : ((n - 1 : Nat) : ℚ) < numIndices conv d := by
      rw [hn, Nat.cast_lt]
      omega
    have hfit : n - 1 + (1 : UInt64).toNat < 2 ^ 64 := by
      rw [UInt64.toNat_one]
      omega
    refine ⟨single conv d (n - 1) 1 hin hfit, fun hex => ?_⟩
    have hclip := (clipsRight_iff _ hn hpos).mp ((expand_exact_iff _ hbits).mp hex) (n - 1) ((mem_singleton _ _).mpr rfl)
    change min (n - 1) (n - 1 + (1 : UInt64).toNat) = min (clip conv d) (n - 1 + (1 : UInt64).toNat) at hclip
    rw [UInt64.toNat_one] at hclip
    omega
  · omega

/-- A curve that numbers nothing still has the index zero expanded. -/
theorem not_exact_zero (hneg : (hilbertNumBits conv d).toInt < 0) : ∃ q : Query conv d, ¬ Exact q := by
  have hbits : (ndim : Int) * (hilbertNumBits conv d).toInt ≤ 63 := by rw [ndim]; omega
  have hlt : numIndices conv d < 1 := by
    rcases numIndices_cases hbits with ⟨hpos, -⟩ | ⟨-, hlt⟩
    · omega
    · exact hlt
  have hin : ((0 : Nat) : ℚ) < numIndices conv d := by
    rw [Nat.cast_zero]
    exact zpow_pos (by norm_num) _
  refine ⟨single conv d 0 0 hin (by rw [UInt64.toNat_zero]; omega), fun hex => ?_⟩
  have hmin := (exact_single_iff hbits hin _).mp hex
  rw [UInt64.toNat_zero, Nat.cast_zero, add_zero, min_eq_right (Nat.cast_nonneg _)] at hmin
  have hle := min_le_left (numIndices conv d - 1) (0 : ℚ)
  linarith

/-- The expansion is exact on the sets whose clip is right, and on all sets of a domain up to
ten bits for each coordinate. -/
theorem expandIntervalSet_exact_iff (conv : Conversion) (d : ValidBox)
    (hbits : (ndim : Int) * (hilbertNumBits conv d).toInt ≤ 63) :
    (∀ q : Query conv d, Exact q ↔ ClipsRight q) ∧
      ((∀ q : Query conv d, Exact q) ↔
        0 ≤ (hilbertNumBits conv d).toInt ∧ (hilbertNumBits conv d).toInt ≤ 10) := by
  refine ⟨fun q => expand_exact_iff q hbits, ?_, ?_⟩
  · intro hall
    by_contra hout
    obtain ⟨q, hq⟩ : ∃ q : Query conv d, ¬ Exact q := by
      by_cases hneg : (hilbertNumBits conv d).toInt < 0
      · exact not_exact_zero hneg
      · exact not_exact_last (by omega) hbits
    exact hq (hall q)
  · rintro ⟨h0, h10⟩ q
    rw [expand_exact_iff q hbits]
    rcases numIndices_cases hbits with ⟨-, hn, -⟩ | ⟨hneg, -⟩
    · rw [clipsRight_iff q hn (Nat.two_pow_pos _)]
      intro i _
      rw [clip_of_le_ten h0 h10]
    · omega

end

/-- The domain of the tests. -/
def sixteen : ValidBox where
  lcoor := .replicate 3 0
  ucoor := .replicate 3 16
  valid := by decide +kernel

theorem sixteen_bits (conv : Conversion) : (hilbertNumBits conv sixteen).toInt = 4 := by
  have hlongest : sixteen.longest = 16 := by decide +kernel
  have hlog : Nat.clog 2 16 = 4 := Nat.clog_pow 2 4 (by omega)
  rw [hilbertNumBits, hlongest, if_pos (by decide)]
  change (Int32.ofNat (Nat.clog 2 16)).toInt = 4
  rw [hlog]
  rfl

/-- On the domain of the tests every expansion is exact. -/
theorem expandIntervalSet_exact_sixteen :
    (hilbertNumBits .smallest sixteen).toInt = 4 ∧ ∀ q : Query .smallest sixteen, Exact q :=
  ⟨sixteen_bits .smallest, (expandIntervalSet_exact_iff .smallest sixteen (by rw [sixteen_bits, ndim]; decide)).2.mpr
    (by rw [sixteen_bits]; decide)⟩

/-- A domain of 2048 cells on each side. -/
def wide : ValidBox where
  lcoor := .replicate 3 0
  ucoor := .replicate 3 2048
  valid := by decide +kernel

theorem wide_bits (conv : Conversion) : (hilbertNumBits conv wide).toInt = 11 := by
  have hlongest : wide.longest = 2048 := by decide +kernel
  have hlog : Nat.clog 2 2048 = 11 := Nat.clog_pow 2 11 (by omega)
  rw [hilbertNumBits, hlongest, if_pos (by decide)]
  change (Int32.ofNat (Nat.clog 2 2048)).toInt = 11
  rw [hlog]
  rfl

/-- Expanded by one, the last index of the domain takes along one that is not of the domain. -/
theorem expand_past_last : ∃ q : Query .smallest wide,
    q.set = IntervalSet.empty.insert (2 ^ 33 - 1) (2 ^ 33 - 1) ∧ q.s = 1 ∧ q.t = 0 ∧ ¬ Exact q := by
  have hbits : (ndim : Int) * (hilbertNumBits .smallest wide).toInt ≤ 63 := by rw [wide_bits, ndim]; decide
  have hnum : numIndices .smallest wide = ((2 ^ 33 : Nat) : ℚ) := by
    rw [numIndices, wide_bits]
    norm_num
  have hin : ((2 ^ 33 - 1 : Nat) : ℚ) < numIndices .smallest wide := by
    rw [hnum, Nat.cast_lt]
    omega
  refine ⟨single .smallest wide (2 ^ 33 - 1) 1 hin (by decide), rfl, rfl, rfl, ?_⟩
  rw [expand_exact_iff _ hbits, clipsRight_iff _ hnum (by omega)]
  intro hclip
  have hlast := hclip (2 ^ 33 - 1) ((mem_singleton _ _).mpr rfl)
  have hne : clip .smallest wide ≠ 2 ^ (ndim * (hilbertNumBits .smallest wide).toInt.toNat) - 1 :=
    clip_ne_of_gt_ten (by rw [wide_bits]) hbits
  rw [wide_bits] at hne
  change min (2 ^ 33 - 1) (2 ^ 33 - 1 + 1) = min (clip .smallest wide) (2 ^ 33 - 1 + 1) at hlast
  change clip .smallest wide ≠ 2 ^ 33 - 1 at hne
  omega

/-- Ten bits are the sides up to 1024. -/
theorem hilbertNumBits_le_ten_iff (conv : Conversion) (d : ValidBox) (h : 0 < d.longest) :
    0 ≤ (hilbertNumBits conv d).toInt ∧ ((hilbertNumBits conv d).toInt ≤ 10 ↔ d.longest.toInt ≤ 1024) := by
  have hlt : d.longest.toInt < 2 ^ 31 := d.longest.toInt_lt
  have hlog : Nat.clog 2 d.longest.toInt.toNat ≤ 31 := Nat.clog_le_of_le_pow (by omega)
  have hval : (hilbertNumBits conv d).toInt = Nat.clog 2 d.longest.toInt.toNat := by
    rw [hilbertNumBits, if_pos h]
    exact Int32.toInt_ofNat_of_lt (by omega)
  have hten : Nat.clog 2 d.longest.toInt.toNat ≤ 10 ↔ d.longest.toInt.toNat ≤ 2 ^ 10 :=
    Nat.clog_le_iff_le_pow (by omega)
  rw [hval]
  omega

end SAlgo
