import DataspacesWa.HilbertNeighbours
import DataspacesWa.HSAlgo

/-!
# Queries on the Hilbert curve

The curve that `SAlgo` and `HSAlgo` use is that of `hilbert.c`. A query goes to
its indices and back without a loss, and what is fetched around it lies no
farther from it than the indices are expanded.
-/
namespace HilbertQuery

open SAlgo HSAlgo
open BitTranspose (Bitmask)
open Hilbert (IsCell mfaHilbertC2i mfaHilbertI2c along distance i2c_c2i_inverse)
open Patch (ndim)
open QTable (get_ofFn)

/-- The array that is passed to `mfa_hilbert_c2i`. -/
def coordOf (p : Coor) : List Bitmask := (List.finRange ndim).map fun i => (p.get i).toBitVec

/-- The array that `mfa_hilbert_i2c` fills. -/
def coorOfCoord (coord : List Bitmask) : Coor := Vector.ofFn fun i => UInt64.ofBitVec (coord.getD i.val 0)

theorem getD_coordOf (p : Coor) (i : Fin ndim) : (coordOf p).getD i.val 0 = (p.get i).toBitVec := by
  rw [coordOf, List.getD_eq_getElem _ _ (by simp)]
  simp

theorem coordOf_isCell {numBits : Nat} {p : Coor} (h : InCube numBits p) : IsCell ndim numBits (coordOf p) := by
  constructor
  · simp [coordOf]
  · intro c hc
    obtain ⟨i, _, rfl⟩ := List.mem_map.mp hc
    exact h i

theorem coorOfCoord_coordOf (p : Coor) : coorOfCoord (coordOf p) = p := by
  refine Vector.ext fun i hi => ?_
  have hget : (coorOfCoord (coordOf p)).get ⟨i, hi⟩ = p.get ⟨i, hi⟩ := by
    rw [coorOfCoord, get_ofFn, getD_coordOf]
  exact hget

theorem coordOf_coorOfCoord {numBits : Nat} {coord : List Bitmask} (h : IsCell ndim numBits coord) :
    coordOf (coorOfCoord coord) = coord := by
  apply List.ext_getElem (by simp [coordOf, h.length])
  intro i hi hi'
  rw [h.length] at hi'
  have hget := getD_coordOf (coorOfCoord coord) ⟨i, hi'⟩
  rw [coorOfCoord, get_ofFn] at hget
  rw [List.getElem_eq_getD 0, List.getElem_eq_getD 0]
  exact hget

theorem coorOfCoord_inCube {numBits : Nat} {coord : List Bitmask} (h : IsCell ndim numBits coord) :
    InCube numBits (coorOfCoord coord) := by
  intro i
  rw [coorOfCoord, get_ofFn]
  exact h.getD_lt i.isLt

/-- The curve of `hilbert.c`, for as many bits as three coordinates have room for in a word. -/
def curve {numBits : Nat} (hpos : 0 < numBits) (hle : numBits ≤ 21) : HSAlgo.Hilbert numBits where
  c2i p := UInt64.ofBitVec (mfaHilbertC2i ndim numBits (coordOf p))
  i2c i := coorOfCoord (mfaHilbertI2c ndim numBits i.toBitVec)
  c2i_lt p hp := ((i2c_c2i_inverse (by decide) hpos (Nat.mul_le_mul_left ndim hle |>.trans (by decide))).2 _
    (coordOf_isCell hp)).1
  i2c_c2i p hp := by
    have hinv := (i2c_c2i_inverse (by decide) hpos (Nat.mul_le_mul_left ndim hle |>.trans (by decide))).2 _
      (coordOf_isCell hp)
    rw [show (UInt64.ofBitVec (mfaHilbertC2i ndim numBits (coordOf p))).toBitVec =
      mfaHilbertC2i ndim numBits (coordOf p) by rfl, hinv.2, coorOfCoord_coordOf]
  i2c_inCube i := coorOfCoord_inCube (Hilbert.i2c_isCell_of_axes (by decide) hpos (by omega) i.toBitVec)
  c2i_i2c i hi := by
    have hinv := (i2c_c2i_inverse (by decide) hpos (Nat.mul_le_mul_left ndim hle |>.trans (by decide))).1 _ hi
    rw [coordOf_coorOfCoord hinv.1, hinv.2]

/-! ## There and back -/

theorem walk_nodup {u : UInt64} {d : Int32} {fuel : Nat} (h0 : 0 ≤ d.toInt) (hu : u.toNat < 2 ^ 31) :
    (walk u fuel d).Nodup := by
  induction fuel generalizing d with
  | zero => exact List.nodup_nil
  | succ fuel ih =>
    have hwide := widen_toNat_of_nonneg h0
    rw [walk]
    split
    next hlt =>
      rw [UInt64.lt_iff_toNat_lt] at hlt
      have hsucc : (d + 1).toInt = d.toInt + 1 := by
        have hone : (1 : Int32).toInt = 1 := rfl
        rw [Int32.toInt_add, hone, Int.bmod_eq_of_le (by omega) (by omega)]
      refine List.nodup_cons.mpr ⟨?_, ih (by omega)⟩
      intro hmem
      have := (walk_bounds (by omega) hu hmem).1
      omega
    next => exact List.nodup_nil

section
variable {q : ValidBox} {n : Nat}

theorem cells_nodup (hfits : ∀ i : Fin ndim, (q.ucoor.get i).toNat < 2 ^ 31) : (cells q.lcoor q.ucoor).Nodup := by
  have hside : ∀ i : Fin ndim, (side q.lcoor q.ucoor i).Nodup := by
    intro i
    have hlt := UInt64.lt_iff_toNat_lt.mp (q.valid i)
    have hint := ByteCount.intOf_toInt (q.lcoor.get i)
    have := hfits i
    rw [if_pos (by omega)] at hint
    exact walk_nodup (by omega) (hfits i)
  have hget : ∀ d0 d1 d2 : UInt64, ∀ e0 e1 e2 : UInt64, coorOf d0 d1 d2 = coorOf e0 e1 e2 → d0 = e0 ∧ d1 = e1 ∧ d2 = e2 := by
    intro d0 d1 d2 e0 e1 e2 h
    have hat : ∀ i : Fin ndim, (coorOf d0 d1 d2).get i = (coorOf e0 e1 e2).get i := by
      intro i
      rw [h]
    simp only [coorOf, get_ofFn] at hat
    exact ⟨hat 0, hat 1, hat 2⟩
  rw [cells, List.nodup_flatMap]
  constructor
  · intro d0 _
    rw [List.nodup_flatMap]
    constructor
    · intro d1 _
      refine (hside 2).map ?_
      intro d2 e2 h
      exact (hget _ _ _ _ _ _ h).2.2
    · refine (hside 1).imp ?_
      intro d1 e1 hne
      rw [Function.onFun, List.disjoint_left]
      intro p hp hp'
      obtain ⟨d2, _, rfl⟩ := List.mem_map.mp hp
      obtain ⟨e2, _, h⟩ := List.mem_map.mp hp'
      exact hne (hget _ _ _ _ _ _ h).2.1.symm
  · refine (hside 0).imp ?_
    intro d0 e0 hne
    rw [Function.onFun, List.disjoint_left]
    intro p hp hp'
    obtain ⟨d1, _, hd⟩ := List.mem_flatMap.mp hp
    obtain ⟨d2, _, rfl⟩ := List.mem_map.mp hd
    obtain ⟨e1, _, he⟩ := List.mem_flatMap.mp hp'
    obtain ⟨e2, _, h⟩ := List.mem_map.mp he
    exact hne (hget _ _ _ _ _ _ h).1.symm

theorem coorV_nodup (h : HSAlgo.Hilbert n) (hn : n ≤ 21) {S : IntervalSet} (hS : ∀ x ∈ S, x < 2 ^ (ndim * n)) :
    (indexIntervalSetToCoorV h S).Nodup := by
  have hpow : 2 ^ (ndim * n) ≤ 2 ^ 63 := Nat.pow_le_pow_right (by decide) (by rw [ndim]; omega)
  have hinj : ∀ x y, x ∈ S → y ∈ S → h.i2c (UInt64.ofNat x) = h.i2c (UInt64.ofNat y) → x = y := by
    intro x y hx hy heq
    have hval : ∀ x ∈ S, (UInt64.ofNat x).toNat = x := by
      intro x hx
      have := hS x hx
      exact UInt64.toNat_ofNat_of_lt' (show x < 2 ^ 64 by omega)
    have hback := h.c2i_i2c (UInt64.ofNat x) (by rw [hval x hx]; exact hS x hx)
    rw [heq, h.c2i_i2c (UInt64.ofNat y) (by rw [hval y hy]; exact hS y hy)] at hback
    rw [← hval x hx, ← hval y hy, hback]
  have hmem : ∀ iv ∈ S.ivs, ∀ x ∈ List.range' iv.1 (iv.2 + 1 - iv.1), iv.1 ≤ x ∧ x ≤ iv.2 ∧ x ∈ S := by
    intro iv hiv x hx
    have hx := List.mem_range'_1.mp hx
    exact ⟨by omega, by omega, iv, hiv, by omega, by omega⟩
  rw [indexIntervalSetToCoorV, List.nodup_flatMap]
  constructor
  · intro iv hiv
    refine List.Nodup.map_on ?_ List.nodup_range'
    intro x hx y hy heq
    exact hinj x y (hmem iv hiv x hx).2.2 (hmem iv hiv y hy).2.2 heq
  · refine List.Pairwise.imp_of_mem ?_ S.separated.2
    intro iv iv' hiv hiv' hlt
    rw [Function.onFun, List.disjoint_left]
    intro p hp hp'
    obtain ⟨x, hx, rfl⟩ := List.mem_map.mp hp
    obtain ⟨y, hy, heq⟩ := List.mem_map.mp hp'
    obtain ⟨_, hx2, hxS⟩ := hmem iv hiv x hx
    obtain ⟨hy1, _, hyS⟩ := hmem iv' hiv' y hy
    have := hinj x y hxS hyS heq.symm
    omega

/-- A query taken to its indices on the curve and back is each of its cells, once. -/
theorem coorV_perm_cells (hpos : 0 < n) (hle : n ≤ 21) (hfits : ∀ i : Fin ndim, (q.ucoor.get i).toNat ≤ 2 ^ n) :
    (indexIntervalSetToCoorV (curve hpos hle) (coorToIndexIntervalSet (curve hpos hle) q.lcoor q.ucoor)).Perm
      (cells q.lcoor q.ucoor) := by
  have hpow : 2 ^ n ≤ 2 ^ 21 := Nat.pow_le_pow_right (by decide) hle
  have hlt : ∀ x ∈ coorToIndexIntervalSet (curve hpos hle) q.lcoor q.ucoor, x < 2 ^ (ndim * n) := by
    intro x hx
    exact place_lt (curve hpos hle) hfits ((mem_indexSet _ _ _ x).mp hx)
  rw [List.perm_ext_iff_of_nodup (coorV_nodup _ hle hlt)
    (cells_nodup fun i => lt_of_le_of_lt (hfits i) (by omega))]
  intro p
  rw [mem_coorV]
  constructor
  · intro ⟨x, hx, hp⟩
    obtain ⟨c, hc, rfl⟩ := (mem_indexSet _ _ _ x).mp hx
    rw [hp, UInt64.ofNat_toNat, (curve hpos hle).i2c_c2i c (cells_inCube hfits hle hc)]
    exact hc
  · intro hp
    refine ⟨_, (mem_indexSet _ _ _ _).mpr ⟨p, hp, rfl⟩, ?_⟩
    rw [UInt64.ofNat_toNat, (curve hpos hle).i2c_c2i p (cells_inCube hfits hle hp)]

end

theorem coorV_perm_cells_sixteen :
    (indexIntervalSetToCoorV (curve (show 0 < 4 by decide) (by decide))
        (coorToIndexIntervalSet (curve (show 0 < 4 by decide) (by decide)) sixteen.lcoor sixteen.ucoor)).Perm
      (cells sixteen.lcoor sixteen.ucoor) :=
  coorV_perm_cells (by decide) (by decide) (by decide +kernel)

/-! ## What is fetched around a query -/

section
variable {conv : Conversion} {d q : ValidBox} {n : Nat} {s : UInt64}

theorem along_coordOf (p : Coor) (i : Fin ndim) : along (coordOf p) i.val = (p.get i).toNat := by
  rw [along, getD_coordOf]
  rfl

/-- What is fetched is no farther from the query than the indices are expanded. -/
theorem fetched_near (hpos : 0 < n) (hle : n ≤ 21) (hfits : ∀ i : Fin ndim, (q.ucoor.get i).toNat ≤ 2 ^ n)
    (hclip : clip conv d = 2 ^ (ndim * n) - 1) (hs : s.toNat + 2 ^ (ndim * n) ≤ 2 ^ 64) {p : Coor}
    (hp : p ∈ indexIntervalSetToCoorV (curve hpos hle) (kept conv d (curve hpos hle) s q)) :
    ∃ c ∈ cells q.lcoor q.ucoor, distance ndim (coordOf c) (coordOf p) ≤ s.toNat := by
  have hbits : ndim * n ≤ 64 := (Nat.mul_le_mul_left ndim hle).trans (by decide)
  have hone : 1 ≤ 2 ^ (ndim * n) := Nat.one_le_two_pow
  obtain ⟨x, hx, rfl⟩ := (mem_coorV _ _ p).mp hp
  have hxlt := ((mem_kept_iff (curve hpos hle) x).mp hx).1
  rw [kept, mem_expand] at hx
  · obtain ⟨_, i, hi, hix, hxi⟩ := hx
    obtain ⟨c, hc, rfl⟩ := (mem_indexSet _ _ _ i).mp hi
    have hcube := cells_inCube hfits hle hc
    have hval : (UInt64.ofNat x).toBitVec.toNat = x := UInt64.toNat_ofNat_of_lt' (show x < 2 ^ 64 by omega)
    have hcell := ((i2c_c2i_inverse (by decide) hpos hbits).2 _ (coordOf_isCell hcube))
    refine ⟨c, hc, ?_⟩
    have hxval : (UInt64.ofNat x).toBitVec.toNat < 2 ^ (ndim * n) := by omega
    have hdist := Hilbert.distance_i2c_le (by decide) hpos hbits hcell.1 hxval
    rw [hcell.2, hval] at hdist
    have hback : coordOf ((curve hpos hle).i2c (UInt64.ofNat x)) = mfaHilbertI2c ndim n (UInt64.ofNat x).toBitVec :=
      coordOf_coorOfCoord (Hilbert.i2c_isCell (by decide) hpos hbits (by omega))
    have hindex : ((curve hpos hle).c2i c).toNat = (mfaHilbertC2i ndim n (coordOf c)).toNat := rfl
    rw [hback]
    refine hdist.trans ?_
    rw [Nat.dist]
    omega
  · intro i hi
    have := place_lt (curve hpos hle) hfits ((mem_indexSet _ _ _ i).mp hi)
    omega

/-- Of a domain that the largest `int` has room for, the box that is fetched contains
the query and is at most as much longer on every side as the indices are expanded. -/
theorem getToFetch_near (hn : (hilbertNumBits conv d).toInt = (n : Int)) (hpos : 0 < n) (hle : n ≤ 10)
    (hfits : ∀ i : Fin ndim, (q.ucoor.get i).toNat ≤ 2 ^ n) (hs : s.toNat + 2 ^ (ndim * n) ≤ 2 ^ 64) :
    ∃ r, getToFetch conv d (curve hpos (hle.trans (by decide))) s q.lcoor q.ucoor = some r ∧ Contains r q ∧
      ∀ i : Fin ndim, (q.lcoor.get i).toNat ≤ (r.1.get i).toNat + s.toNat ∧
        (r.2.get i).toNat ≤ (q.ucoor.get i).toNat + s.toNat := by
  have hle21 : n ≤ 21 := hle.trans (by decide)
  have hpow : 2 ^ n ≤ 2 ^ 21 := Nat.pow_le_pow_right (by decide) hle21
  have hclip : clip conv d = 2 ^ (ndim * n) - 1 := by
    rw [clip_of_le_ten (by omega) (by omega), hn, Int.toNat_natCast]
  have hvalid : Patch.isValidBox ⟨"", 0, q.lcoor, q.ucoor⟩ = true := by
    rw [QTable.isValidBox_iff]
    exact q.valid
  have hsmall : Small (indexIntervalSetToCoorV (curve hpos hle21) (kept conv d (curve hpos hle21) s q)) :=
    kept_small (curve hpos hle21) _
  have hfetched : ∀ x, Place (curve hpos hle21) q x → Fetched conv d (curve hpos hle21) s q x := fun x hx =>
    fetched_of_fits (curve hpos hle21) hfits hclip hs hx
  have hne : indexIntervalSetToCoorV (curve hpos hle21) (kept conv d (curve hpos hle21) s q) ≠ [] := by
    obtain ⟨x, hx, -⟩ := exists_place (curve hpos hle21) hfits (i := 0) le_rfl (UInt64.lt_iff_toNat_lt.mp (q.valid 0))
    exact List.ne_nil_of_mem ((mem_coorV _ _ _).mpr ⟨x, (mem_kept_iff _ x).mpr (hfetched x hx), rfl⟩)
  have hcontains : Contains (getBoundLucoor (addCells
      (indexIntervalSetToCoorV (curve hpos hle21) (kept conv d (curve hpos hle21) s q)))) q :=
    (contains_kept_iff _).mpr (.inl (reaches_of_all _ hfits hfetched))
  refine ⟨_, ?_, hcontains, ?_⟩
  · rw [getToFetch, if_pos hvalid]
    rfl
  · -- the box that is fetched is itself a box, whose ends are those of cells
    have hbox : ∀ i : Fin ndim, (getBoundLucoor (addCells
        (indexIntervalSetToCoorV (curve hpos hle21) (kept conv d (curve hpos hle21) s q)))).1.get i <
          (getBoundLucoor (addCells
        (indexIntervalSetToCoorV (curve hpos hle21) (kept conv d (curve hpos hle21) s q)))).2.get i := by
      intro i
      have h1 := UInt64.le_iff_toNat_le.mp (hcontains i).1
      have h2 := UInt64.lt_iff_toNat_lt.mp (q.valid i)
      have h3 := UInt64.le_iff_toNat_le.mp (hcontains i).2
      rw [UInt64.lt_iff_toNat_lt]
      omega
    have hends := (contains_iff hsmall hne ⟨_, _, hbox⟩).mp fun i => ⟨UInt64.le_refl _, UInt64.le_refl _⟩
    have hcell : ∀ p ∈ indexIntervalSetToCoorV (curve hpos hle21) (kept conv d (curve hpos hle21) s q), ∀ i : Fin ndim,
        (q.lcoor.get i).toNat ≤ (p.get i).toNat + s.toNat ∧ (p.get i).toNat < (q.ucoor.get i).toNat + s.toNat := by
      intro p hp i
      obtain ⟨c, hc, hdist⟩ := fetched_near hpos hle21 hfits hclip hs hp
      have hfit := hfits i
      have hside := (mem_side (q.valid i) (by omega) (c.get i)).mp ((mem_cells _ _ c).mp hc i)
      have hone := Finset.single_le_sum (f := fun j => Nat.dist (along (coordOf c) j) (along (coordOf p) j))
        (fun j _ => Nat.zero_le _) (Finset.mem_range.mpr i.isLt)
      rw [along_coordOf, along_coordOf, Nat.dist] at hone
      rw [Hilbert.distance] at hdist
      omega
    intro i
    obtain ⟨⟨p, hp, hlo⟩, p', hp', hhi⟩ := hends i
    have h1 := (hcell p hp i).1
    have h2 := (hcell p' hp' i).2
    dsimp only at hlo hhi
    exact ⟨by omega, by omega⟩

end

theorem getToFetch_near_cell :
    ∃ r, getToFetch .smallest sixteen (curve (show 0 < 4 by decide) (by decide)) 1 cell.lcoor cell.ucoor = some r ∧
      Contains r cell ∧ ∀ i : Fin ndim, (cell.lcoor.get i).toNat ≤ (r.1.get i).toNat + (1 : UInt64).toNat ∧
        (r.2.get i).toNat ≤ (cell.ucoor.get i).toNat + (1 : UInt64).toNat :=
  getToFetch_near (sixteen_bits .smallest) (by decide) (by decide) (by decide +kernel) (by decide)

/-- The curve does not bring the first cell of a domain back that does not begin at zero. -/
theorem shifted_not_covered :
    ¬Covers .smallest shifted (curve (by rw [bits_shifted]; decide) (by rw [bits_shifted]; decide)) 1 shiftedCell :=
  not_covers_shifted _

end HilbertQuery
