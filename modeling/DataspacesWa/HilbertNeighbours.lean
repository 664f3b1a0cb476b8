import DataspacesWa.Hilbert

/-!
# Neighbours on the Hilbert curve

Two indices that follow each other are those of neighbouring cells. So cells are
no farther from each other than their indices. The index without its lowest
digits is that of the cell without the lowest bits of its coordinates: the cells
of an aligned cube have the indices of an aligned interval.
-/
namespace Hilbert

open BitTranspose WordDigits HilbertDigits

/-- `coord` along axis `d`. -/
def along (coord : List Bitmask) (d : Nat) : Nat := (coord.getD d 0).toNat

section
variable {n m : Nat}

/-- The corners that the digits of the index lead to. -/
def corners (n m : Nat) (index : Bitmask) : List (BitVec n) := walk (start n) (digits n index m)

theorem length_corners (index : Bitmask) : (corners n m index).length = m := by
  rw [corners, length_walk, length_digits]

/-- The word of the corners is what the loops leave before it is transposed. -/
theorem scan_eq_corners (hn : 0 < n) (hm : 0 < m) (hnm : n * m ≤ 64) {index : Bitmask}
    (h : index.toNat < 2 ^ (n * m)) :
    scan (n * m) n (pack 64 (turns 0 (0 : BitVec n) (digits n (coded n m index) m))) = pack 64 (corners n m index) := by
  have hturns : (turns 0 (0 : BitVec n) (digits n (coded n m index) m)).length = m := by simp
  apply digits_injective (scan_lt (pack_length_lt hturns)) (pack_length_lt (length_corners index))
  rw [digits_scan hn (pack_length_lt hturns), digits_pack_length hturns hnm,
    digits_pack_length (length_corners index) hnm, digits_coded hn hm hnm h, corners, walk_eq]
  rfl

theorem getLsbD_i2c (hn : 1 < n) (hm : 0 < m) (hnm : n * m ≤ 64) {index : Bitmask} (h : index.toNat < 2 ^ (n * m))
    {d : Nat} (hd : d < n) (k : Nat) :
    ((mfaHilbertI2c n m index).getD d 0).getLsbD k =
      (decide (k < m) && (pack 64 (corners n m index)).getLsbD (n * k + d)) := by
  have hn64 : n ≤ 64 := (Nat.le_mul_of_pos_right n (by omega)).trans hnm
  have hm64 : m ≤ 64 := (Nat.le_mul_of_pos_left m (by omega)).trans hnm
  by_cases hone : 1 < m
  · have hmn : m * n ≤ 64 := by rwa [Nat.mul_comm]
    rw [mfaHilbertI2c_of_lt hn hone hn64, scan_eq_corners (by omega) hm hnm h, getD_splitCoords _ _ hd,
      BitVec.getLsbD_and, getLsbD_ones_eq hm hm64, BitVec.getLsbD_ushiftRight, Bool.and_comm]
    by_cases hk : k < m
    · rw [(bitTranspose_isTranspose hone hn hmn _).place hk hd]
    · rw [decide_eq_false hk, Bool.false_and, Bool.false_and]
  · have hm1 : m = 1 := by omega
    subst hm1
    rw [mfaHilbertI2c_one hn, getD_splitCoords _ _ hd, BitVec.getLsbD_and, getLsbD_ones_eq (by decide) (by decide),
      BitVec.getLsbD_ushiftRight, Bool.and_comm]
    by_cases hk : k < 1
    · have hk0 : k = 0 := by omega
      have hrot : ∀ b : BitVec n, b.rotateLeft 0 = b := by
        intro b
        apply BitVec.eq_of_getLsbD_eq
        intro i hi
        rw [BitVec.getLsbD_rotateLeft, Nat.zero_mod, decide_eq_false (by omega), cond_false, decide_eq_true hi]
        rfl
      have hword : corners n 1 index = [] ++ [gray (index.extractLsb' (n * 0) n)] := by
        rw [corners, digits, digits, walk, walk, State.out, State.word, start]
        dsimp only
        rw [hrot]
        simp
      rw [hword, getLsbD_pack_concat, hk0, Nat.mul_zero, Nat.zero_add, Nat.one_mul, Nat.add_zero, if_pos hd,
        decide_eq_true (by omega), Bool.true_and, getLsbD_gray, BitVec.getLsbD_extractLsb', BitVec.getLsbD_extractLsb',
        decide_eq_true hd, Bool.true_and, shiftXor, BitVec.getLsbD_xor, BitVec.getLsbD_ushiftRight]
      by_cases hd1 : d + 1 < n
      · rw [decide_eq_true hd1, Nat.zero_add, Nat.zero_add, Nat.add_comm 1, decide_eq_true (by omega)]
        rfl
      · rw [decide_eq_false hd1, Nat.zero_add, getLsbD_of_lt (p := 1 + d) h (by omega), decide_eq_true (by omega)]
        rfl
    · rw [decide_eq_false hk, Bool.false_and, Bool.false_and]

/-- Each coordinate of a cell is what the corners say along its axis. -/
theorem along_i2c (hn : 1 < n) (hm : 0 < m) (hnm : n * m ≤ 64) {index : Bitmask} (h : index.toNat < 2 ^ (n * m))
    {d : Nat} (hd : d < n) : along (mfaHilbertI2c n m index) d = axis d (corners n m index) := by
  have hword : ∀ (x : Bitmask) (k p : Nat), (axis d (digits n x k)).testBit p = (decide (p < k) && x.getLsbD (n * p + d)) := by
    intro x k
    induction k with
    | zero =>
      intro p
      simp [digits, axis]
    | succ k ih =>
      intro p
      have hlt := axis_lt d (digits n x k)
      rw [length_digits] at hlt
      rw [digits, axis, length_digits, Nat.mul_comm, Nat.two_pow_add_eq_or_of_lt hlt, Nat.testBit_or, ih,
        Nat.testBit_two_pow_mul, BitVec.getLsbD_extractLsb', decide_eq_true hd, Bool.true_and]
      by_cases hpk : p < k
      · rw [decide_eq_true hpk, decide_eq_true (by omega : p < k + 1), decide_eq_false (by omega : ¬p ≥ k)]
        rfl
      · by_cases heq : p = k
        · rw [heq]
          cases x.getLsbD (n * k + d) <;> simp
        · rw [decide_eq_false hpk, decide_eq_false (by omega : ¬p < k + 1), Bool.false_and, Bool.or_false,
            Nat.testBit_lt_two_pow (lt_of_le_of_lt (Bool.toNat_le _) (Nat.one_lt_two_pow (by omega))), Bool.and_false]
  apply Nat.eq_of_testBit_eq
  intro p
  have hdigits := digits_pack_length (length_corners (n := n) (m := m) index) hnm
  rw [← hdigits, hword, ← getLsbD_i2c hn hm hnm h hd]
  rfl

end

/-- Cells of which one coordinate differs by one and no other one differs. -/
def Neighbours (nDims : Nat) (coord coord' : List Bitmask) : Prop :=
  ∃ p, p < nDims ∧ (along coord' p = along coord p + 1 ∨ along coord p = along coord' p + 1) ∧
    ∀ d, d < nDims → d ≠ p → along coord' d = along coord d

theorem toNat_add_one {N : Nat} (hN : N ≤ 64) {index : Bitmask} (h : index.toNat + 1 < 2 ^ N) :
    (index + 1#64).toNat = index.toNat + 1 := by
  have := Nat.pow_le_pow_right (by decide : 0 < 2) hN
  rw [BitVec.toNat_add, Nat.mod_eq_of_lt (by simpa using by omega)]
  rfl

/-- Indices that follow each other are those of neighbours. -/
theorem i2c_next {nDims nBits : Nat} (hd : 0 < nDims) (hb : 0 < nBits) (hbits : nDims * nBits ≤ 64) {index : Bitmask}
    (h : index.toNat + 1 < 2 ^ (nDims * nBits)) :
    Neighbours nDims (mfaHilbertI2c nDims nBits index) (mfaHilbertI2c nDims nBits (index + 1#64)) := by
  have hnext := toNat_add_one hbits h
  by_cases hone : 1 < nDims
  · rcases digits_add_one hd index nBits hbits with ⟨hall, _⟩ | ⟨as, a, t, _, ha, hx, hx1⟩
    · have hfull : index.toNat = 2 ^ (nDims * nBits) - 1 := by
        apply Nat.eq_of_testBit_eq
        intro p
        rw [Nat.testBit_two_pow_sub_one]
        by_cases hp : p < nDims * nBits
        · rw [decide_eq_true hp]
          exact hall p hp
        · rw [decide_eq_false hp]
          exact getLsbD_of_lt (N := nDims * nBits) (by omega) (by omega)
      omega
    · have hrot : (after (start nDims) as).rot < nDims := by
        cases as using List.reverseRecOn with
        | nil => exact hd
        | append_singleton as b =>
          rw [after, List.foldl_append, List.foldl_cons, List.foldl_nil]
          exact turn_lt hd _ _
      obtain ⟨p, u, v, hp, hv, hwalk, hwalk1⟩ := walk_next hrot ha t
      have hold : ∀ d, d < nDims → along (mfaHilbertI2c nDims nBits index) d =
          axis d (walk (start nDims) as ++ u :: List.replicate t v) := by
        intro d hd'
        rw [along_i2c hone hb hbits (by omega) hd', corners, hx, walk_append, hwalk]
      have hnew : ∀ d, d < nDims → along (mfaHilbertI2c nDims nBits (index + 1#64)) d =
          axis d (walk (start nDims) as ++ (u ^^^ BitVec.twoPow nDims p) ::
            List.replicate t (v ^^^ BitVec.twoPow nDims p)) := by
        intro d hd'
        rw [along_i2c hone hb hbits (by omega) hd', corners, hx1, walk_append, hwalk1]
      refine ⟨p, hp, ?_, ?_⟩
      · have hstep := axis_next hp hv t p
        rw [hold p hp, hnew p hp, axis_append, axis_append]
        simp only [if_true, List.length_cons, List.length_replicate] at hstep ⊢
        omega
      · intro d hd' hne
        have hstep := axis_next hp hv t d
        rw [hold d hd', hnew d hd', axis_append, axis_append]
        simp only [if_neg hne, List.length_cons, List.length_replicate] at hstep ⊢
        omega
  · have hd1 : nDims = 1 := by omega
    subst hd1
    refine ⟨0, by decide, Or.inl ?_, by intro d hd' hne; omega⟩
    rw [mfaHilbertI2c, if_neg hone, mfaHilbertI2c, if_neg hone]
    exact hnext

theorem i2c_next_cube : Neighbours 3 (mfaHilbertI2c 3 21 0x7ffffff) (mfaHilbertI2c 3 21 (0x7ffffff + 1#64)) :=
  i2c_next (by decide) (by decide) (by decide) (by decide)

/-! ## Distances -/

/-- How far it is along all axes together. -/
def distance (nDims : Nat) (coord coord' : List Bitmask) : Nat :=
  ∑ d ∈ Finset.range nDims, Nat.dist (along coord d) (along coord' d)

theorem distance_triangle (nDims : Nat) (coord coord' coord'' : List Bitmask) :
    distance nDims coord coord'' ≤ distance nDims coord coord' + distance nDims coord' coord'' := by
  rw [distance, distance, distance, ← Finset.sum_add_distrib]
  apply Finset.sum_le_sum
  intro d _
  exact Nat.dist.triangle_inequality _ _ _

theorem distance_comm (nDims : Nat) (coord coord' : List Bitmask) :
    distance nDims coord coord' = distance nDims coord' coord := by
  apply Finset.sum_congr rfl
  intro d _
  exact Nat.dist_comm _ _

theorem Neighbours.distance {nDims : Nat} {coord coord' : List Bitmask} (h : Neighbours nDims coord coord') :
    distance nDims coord coord' = 1 := by
  obtain ⟨p, hp, hstep, hsame⟩ := h
  rw [Hilbert.distance, Finset.sum_eq_single p]
  · rw [Nat.dist]
    omega
  · intro d hd hne
    rw [hsame d (Finset.mem_range.mp hd) hne, Nat.dist_self]
  · intro hno
    exact absurd (Finset.mem_range.mpr hp) hno

theorem distance_add_le {nDims nBits : Nat} (hd : 0 < nDims) (hb : 0 < nBits) (hbits : nDims * nBits ≤ 64)
    (index : Bitmask) (k : Nat) (h : index.toNat + k < 2 ^ (nDims * nBits)) :
    distance nDims (mfaHilbertI2c nDims nBits index) (mfaHilbertI2c nDims nBits (index + BitVec.ofNat 64 k)) ≤ k := by
  induction k with
  | zero =>
    rw [BitVec.add_zero, distance]
    simp
  | succ k ih =>
    have hpow := Nat.pow_le_pow_right (by decide : 0 < 2) hbits
    have hk : (index + BitVec.ofNat 64 k).toNat = index.toNat + k := by
      rw [BitVec.toNat_add, BitVec.toNat_ofNat, Nat.add_mod_mod, Nat.mod_eq_of_lt (by omega)]
    have hsucc : index + BitVec.ofNat 64 (k + 1) = index + BitVec.ofNat 64 k + 1#64 := by
      rw [BitVec.add_assoc, BitVec.ofNat_add]
    have hlt : (index + BitVec.ofNat 64 k).toNat + 1 < 2 ^ (nDims * nBits) := by omega
    have hstep := (i2c_next hd hb hbits hlt).distance
    have htri := distance_triangle nDims (mfaHilbertI2c nDims nBits index)
      (mfaHilbertI2c nDims nBits (index + BitVec.ofNat 64 k)) (mfaHilbertI2c nDims nBits (index + BitVec.ofNat 64 k + 1#64))
    have := ih (by omega)
    rw [hsucc]
    omega

/-- Cells are no farther from each other than their indices. -/
theorem distance_i2c_le {nDims nBits : Nat} (hd : 0 < nDims) (hb : 0 < nBits) (hbits : nDims * nBits ≤ 64)
    {index index' : Bitmask} (h : index.toNat < 2 ^ (nDims * nBits)) (h' : index'.toNat < 2 ^ (nDims * nBits)) :
    distance nDims (mfaHilbertI2c nDims nBits index) (mfaHilbertI2c nDims nBits index') ≤
      Nat.dist index.toNat index'.toNat := by
  have hup : ∀ i j : Bitmask, i.toNat ≤ j.toNat → j.toNat < 2 ^ (nDims * nBits) →
      distance nDims (mfaHilbertI2c nDims nBits i) (mfaHilbertI2c nDims nBits j) ≤ j.toNat - i.toNat := by
    intro i j hle hj
    have hsum : i + BitVec.ofNat 64 (j.toNat - i.toNat) = j := by
      apply BitVec.eq_of_toNat_eq
      rw [BitVec.toNat_add, BitVec.toNat_ofNat, Nat.add_mod_mod, show i.toNat + (j.toNat - i.toNat) = j.toNat by omega,
        Nat.mod_eq_of_lt j.isLt]
    have hdist := distance_add_le hd hb hbits i (j.toNat - i.toNat) (by omega)
    rwa [hsum] at hdist
  rcases Nat.le_total index.toNat index'.toNat with hle | hle
  · rw [Nat.dist_eq_sub_of_le hle]
    exact hup _ _ hle h'
  · rw [Nat.dist_eq_sub_of_le_right hle, distance_comm]
    exact hup _ _ hle h

theorem distance_i2c_le_cube :
    distance 3 (mfaHilbertI2c 3 21 0x7ffff00) (mfaHilbertI2c 3 21 0x8000001) ≤ Nat.dist 0x7ffff00 0x8000001 :=
  distance_i2c_le (by decide) (by decide) (by decide) (by decide) (by decide)

/-! ## Cubes in the cube -/

/-- Without their lowest bits, the coordinates are those of the index without its lowest digits. -/
theorem i2c_shift {nDims k j : Nat} (hd : 0 < nDims) (hk : 0 < k) (hbits : nDims * (k + j) ≤ 64) {index : Bitmask}
    (h : index.toNat < 2 ^ (nDims * (k + j))) :
    mfaHilbertI2c nDims k (index >>> (nDims * j)) = (mfaHilbertI2c nDims (k + j) index).map fun c : Bitmask => c >>> j := by
  rw [Nat.mul_add] at hbits
  have hshift : (index >>> (nDims * j)).toNat < 2 ^ (nDims * k) := by
    rw [BitVec.toNat_ushiftRight, Nat.shiftRight_eq_div_pow, Nat.div_lt_iff_lt_mul (by positivity), ← Nat.pow_add,
      ← Nat.mul_add]
    exact h
  by_cases hone : 1 < nDims
  · have hcell := i2c_isCell hd hk (by omega) hshift
    have hcell' := i2c_isCell hd (by omega) (by rw [Nat.mul_add]; exact hbits) h
    apply List.ext_getElem (by rw [List.length_map, hcell.length, hcell'.length])
    intro d hlt hlt'
    rw [List.getElem_map, List.getElem_eq_getD 0, List.getElem_eq_getD 0]
    apply BitVec.eq_of_toNat_eq
    have hdn : d < nDims := by rwa [← hcell.length]
    have haxis := axis_lt d (walk (after (start nDims) (digits nDims (index >>> (nDims * j)) k)) (digits nDims index j))
    have hfine := along_i2c hone (by omega) (by rw [Nat.mul_add]; exact hbits) h hdn
    have hcoarse := along_i2c hone hk (by omega) hshift hdn
    rw [length_walk, length_digits] at haxis
    rw [corners, digits_append, walk_append, axis_append, length_walk, length_digits] at hfine
    rw [BitVec.toNat_ushiftRight, Nat.shiftRight_eq_div_pow]
    refine hcoarse.trans ?_
    rw [show ((mfaHilbertI2c nDims (k + j) index).getD d 0).toNat = along (mfaHilbertI2c nDims (k + j) index) d by rfl,
      hfine, Nat.add_comm, Nat.add_mul_div_right _ _ (by positivity), Nat.div_eq_of_lt haxis, Nat.zero_add, corners]
  · have hd1 : nDims = 1 := by omega
    subst hd1
    rw [mfaHilbertI2c, if_neg hone, mfaHilbertI2c, if_neg hone, Nat.one_mul]
    rfl

/-- The cells of an aligned cube of side `2 ^ j` are those with the indices of an aligned interval. -/
theorem same_cube_iff {nDims k j : Nat} (hd : 0 < nDims) (hk : 0 < k) (hbits : nDims * (k + j) ≤ 64)
    {coord coord' : List Bitmask} (h : IsCell nDims (k + j) coord) (h' : IsCell nDims (k + j) coord') :
    (∀ d, d < nDims → along coord d / 2 ^ j = along coord' d / 2 ^ j) ↔
      (mfaHilbertC2i nDims (k + j) coord).toNat / 2 ^ (nDims * j) =
        (mfaHilbertC2i nDims (k + j) coord').toNat / 2 ^ (nDims * j) := by
  have hle : nDims * k ≤ 64 := (Nat.mul_le_mul_left nDims (Nat.le_add_right k j)).trans hbits
  have hinv := (i2c_c2i_inverse hd (by omega) hbits).2
  have hinvk := (i2c_c2i_inverse hd hk hle).1
  have hshift : ∀ c, IsCell nDims (k + j) c →
      mfaHilbertI2c nDims k (mfaHilbertC2i nDims (k + j) c >>> (nDims * j)) = c.map fun c : Bitmask => c >>> j := by
    intro c hc
    rw [i2c_shift hd hk hbits (hinv c hc).1, (hinv c hc).2]
  have hlt : ∀ c, IsCell nDims (k + j) c →
      (mfaHilbertC2i nDims (k + j) c >>> (nDims * j)).toNat < 2 ^ (nDims * k) := by
    intro c hc
    rw [BitVec.toNat_ushiftRight, Nat.shiftRight_eq_div_pow, Nat.div_lt_iff_lt_mul (by positivity), ← Nat.pow_add,
      ← Nat.mul_add]
    exact (hinv c hc).1
  have hcells : (∀ d, d < nDims → along coord d / 2 ^ j = along coord' d / 2 ^ j) ↔
      (coord.map fun c : Bitmask => c >>> j) = coord'.map fun c : Bitmask => c >>> j := by
    have hget : ∀ (c : List Bitmask) (d : Nat), ((c.map fun c : Bitmask => c >>> j).getD d 0).toNat = along c d / 2 ^ j := by
      intro c d
      rw [along, ← Nat.shiftRight_eq_div_pow, ← BitVec.toNat_ushiftRight,
        ← List.getD_map (f := fun c : Bitmask => c >>> j)]
      simp
    constructor
    · intro hsame
      apply List.ext_getElem (by rw [List.length_map, List.length_map, h.length, h'.length])
      intro d hlt hlt'
      rw [List.getElem_eq_getD 0, List.getElem_eq_getD 0]
      apply BitVec.eq_of_toNat_eq
      rw [hget, hget]
      exact hsame d (by rwa [List.length_map, h.length] at hlt)
    · intro hmap d _
      rw [← hget, ← hget, hmap]
  rw [hcells, ← hshift coord h, ← hshift coord' h', ← Nat.shiftRight_eq_div_pow, ← Nat.shiftRight_eq_div_pow,
    ← BitVec.toNat_ushiftRight, ← BitVec.toNat_ushiftRight, BitVec.toNat_inj]
  constructor
  · intro heq
    rw [← (hinvk _ (hlt coord h)).2, heq, (hinvk _ (hlt coord' h')).2]
  · intro heq
    rw [heq]

theorem same_cube_iff_cube :
    (∀ d, d < 3 → along [5, 2, 700] d / 2 ^ 1 = along [4, 3, 701] d / 2 ^ 1) ↔
      (mfaHilbertC2i 3 (20 + 1) [5, 2, 700]).toNat / 2 ^ (3 * 1) =
        (mfaHilbertC2i 3 (20 + 1) [4, 3, 701]).toNat / 2 ^ (3 * 1) :=
  same_cube_iff (by decide) (by decide) (by decide) ⟨rfl, by simp⟩ ⟨rfl, by simp⟩

end Hilbert
