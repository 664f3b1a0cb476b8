import DataspacesWa.SAlgo
import DataspacesWa.QTable

/-!
# What is fetched around a query

`HSAlgo::get_to_fetch` takes the cells of a query to their places on a Hilbert
curve, expands the places along the curve, and takes them back to cells, of
which it returns the bounding box. The curve is an argument: its two maps are
inverse to each other on the coordinates and the indices that have the number of
bits of the domain, and elsewhere they are anything.
-/
namespace HSAlgo

open SAlgo QTable
open ByteCount (intOf widen intOf_toInt widen_toNat)
open Patch (ndim isValidBox)

/-- Coordinates of `numBits` bits. -/
def InCube (numBits : Nat) (p : Coor) : Prop := ∀ i : Fin ndim, (p.get i).toNat < 2 ^ numBits

/-- `mfa_hilbert_c2i` and `mfa_hilbert_i2c` -/
structure Hilbert (numBits : Nat) where
  c2i : Coor → UInt64
  i2c : UInt64 → Coor
  c2i_lt : ∀ p, InCube numBits p → (c2i p).toNat < 2 ^ (ndim * numBits)
  i2c_c2i : ∀ p, InCube numBits p → i2c (c2i p) = p
  i2c_inCube : ∀ i, InCube numBits (i2c i)
  c2i_i2c : ∀ i, i.toNat < 2 ^ (ndim * numBits) → c2i (i2c i) = i

/-! ## The source -/

/-- One loop of `MULTI_FOR`, of the values of an `int`. -/
def walk (u : UInt64) : Nat → Int32 → List UInt64
  | 0, _ => []
  | fuel + 1, d => if widen d < u then widen d :: walk u fuel (d + 1) else []

/-- The loop ends at `-1` at the latest, which is compared as `2^64 - 1`. -/
def numInts : Nat := 2 ^ 32

/-- The values that one coordinate goes through. -/
def side (lcoor ucoor : Coor) (i : Fin ndim) : List UInt64 := walk (ucoor.get i) numInts (intOf (lcoor.get i))

def coorOf (d0 d1 d2 : UInt64) : Coor := Vector.ofFn ![d0, d1, d2]

/-- `MULTI_FOR` -/
def cells (lcoor ucoor : Coor) : List Coor :=
  (side lcoor ucoor 0).flatMap fun d0 => (side lcoor ucoor 1).flatMap fun d1 =>
    (side lcoor ucoor 2).map fun d2 => coorOf d0 d1 d2

section

variable {numBits : Nat} (h : Hilbert numBits)

def coorToIndexIntervalSet (lcoor ucoor : Coor) : IntervalSet :=
  IntervalSet.empty.insertAll ((cells lcoor ucoor).map fun p => ((h.c2i p).toNat, (h.c2i p).toNat))

def indexIntervalSetToCoorV (S : IntervalSet) : List Coor :=
  S.ivs.flatMap fun iv => (List.range' iv.1 (iv.2 + 1 - iv.1)).map fun index => h.i2c (UInt64.ofNat index)

end

/-- The cell at `p` as it is added to the table. -/
def cellBox (p : Coor) : Patch.Datum := ⟨"", 0, p, p.map (· + 1)⟩

def addCells (coorV : List Coor) : QTable.RTable.State boxGeometry :=
  coorV.foldl (fun t p => (QTable.RTable.add t (cellBox p) (-1)).getD t) ⟨[]⟩

def lesser (m x : Int32) : Int32 := if x < m then x else m

def greater (m x : Int32) : Int32 := if m < x then x else m

/-- `rtree.bounds()`; of an empty tree it is the inverse box. -/
def bounds (boxes : List Box) : Box :=
  boxes.foldl (fun b b' => ⟨b.min.zipWith lesser b'.min, b.max.zipWith greater b'.max⟩)
    ⟨.replicate ndim Int32.maxValue, .replicate ndim Int32.minValue⟩

/-- `get_bound_lucoor` -/
def getBoundLucoor (t : QTable.RTable.State boxGeometry) : Coor × Coor :=
  let box := bounds (t.rtree.map (·.1))
  (box.min.map widen, box.max.map widen)

/-- `HSAlgo::get_to_fetch`, the pair that is put on the list. -/
def getToFetch (conv : Conversion) (d : ValidBox) {numBits : Nat} (h : Hilbert numBits) (sexpandLength : UInt64)
    (lcoor ucoor : Coor) : Option (Coor × Coor) :=
  if isValidBox ⟨"", 0, lcoor, ucoor⟩ then
    let iiSet := expandIntervalSet conv d sexpandLength (coorToIndexIntervalSet h lcoor ucoor)
    some (getBoundLucoor (addCells (indexIntervalSetToCoorV h iiSet)))
  else none

/-- The number of bits as the curve takes it. -/
def bits (conv : Conversion) (d : ValidBox) : Nat := (hilbertNumBits conv d).toInt.toNat

def Contains (r : Coor × Coor) (q : ValidBox) : Prop :=
  ∀ i : Fin ndim, r.1.get i ≤ q.lcoor.get i ∧ q.ucoor.get i ≤ r.2.get i

/-- The box that is fetched contains the query. -/
def Covers (conv : Conversion) (d : ValidBox) (h : Hilbert (bits conv d)) (sexpandLength : UInt64) (q : ValidBox) : Prop :=
  ∃ r, getToFetch conv d h sexpandLength q.lcoor q.ucoor = some r ∧ Contains r q

/-! ## The bounding box -/

theorem foldl_extreme {α : Type} (key : Int32 → Int) (pick : Int32 → Int32 → Int32)
    (hpick : ∀ m x, (pick m x = m ∨ pick m x = x) ∧ key (pick m x) ≤ key m ∧ key (pick m x) ≤ key x)
    (f : α → Int32) (l : List α) (z : Int32) :
    (∀ a ∈ l, key (l.foldl (fun m a => pick m (f a)) z) ≤ key (f a)) ∧
      key (l.foldl (fun m a => pick m (f a)) z) ≤ key z ∧
      (l.foldl (fun m a => pick m (f a)) z = z ∨ ∃ a ∈ l, l.foldl (fun m a => pick m (f a)) z = f a) := by
  induction l generalizing z with
  | nil => simp
  | cons a l ih =>
    obtain ⟨hall, hle, hone⟩ := ih (pick z (f a))
    obtain ⟨hor, hz, ha⟩ := hpick z (f a)
    rw [List.foldl_cons]
    refine ⟨List.forall_mem_cons.mpr ⟨hle.trans ha, hall⟩, hle.trans hz, ?_⟩
    rcases hone with hone | ⟨b, hb, hone⟩
    · rcases hor with hor | hor
      · exact Or.inl (hone.trans hor)
      · exact Or.inr ⟨a, List.mem_cons_self, hone.trans hor⟩
    · exact Or.inr ⟨b, List.mem_cons_of_mem _ hb, hone⟩

theorem lesser_spec (m x : Int32) :
    (lesser m x = m ∨ lesser m x = x) ∧ (lesser m x).toInt ≤ m.toInt ∧ (lesser m x).toInt ≤ x.toInt := by
  rw [lesser]
  split
  next h => exact ⟨Or.inr rfl, Int.le_of_lt (Int32.lt_iff_toInt_lt.mp h), le_rfl⟩
  next h => exact ⟨Or.inl rfl, le_rfl, not_lt.mp (Int32.lt_iff_toInt_lt.not.mp h)⟩

theorem greater_spec (m x : Int32) :
    (greater m x = m ∨ greater m x = x) ∧ -(greater m x).toInt ≤ -m.toInt ∧ -(greater m x).toInt ≤ -x.toInt := by
  rw [greater]
  split
  next h =>
    have := Int32.lt_iff_toInt_lt.mp h
    exact ⟨Or.inr rfl, by omega, le_rfl⟩
  next h =>
    have := Int32.lt_iff_toInt_lt.not.mp h
    exact ⟨Or.inl rfl, le_rfl, by omega⟩

theorem bounds_get (boxes : List Box) (i : Fin ndim) :
    (bounds boxes).min.get i = boxes.foldl (fun m b => lesser m (b.min.get i)) Int32.maxValue ∧
      (bounds boxes).max.get i = boxes.foldl (fun m b => greater m (b.max.get i)) Int32.minValue := by
  rw [bounds]
  have hgen : ∀ b : Box,
      (boxes.foldl (fun b b' => (⟨b.min.zipWith lesser b'.min, b.max.zipWith greater b'.max⟩ : Box)) b).min.get i =
          boxes.foldl (fun m b => lesser m (b.min.get i)) (b.min.get i) ∧
        (boxes.foldl (fun b b' => (⟨b.min.zipWith lesser b'.min, b.max.zipWith greater b'.max⟩ : Box)) b).max.get i =
          boxes.foldl (fun m b => greater m (b.max.get i)) (b.max.get i) := by
    induction boxes with
    | nil => exact fun _ => ⟨rfl, rfl⟩
    | cons b' boxes ih =>
      intro b
      obtain ⟨hmin, hmax⟩ := ih ⟨b.min.zipWith lesser b'.min, b.max.zipWith greater b'.max⟩
      simp only [List.foldl_cons]
      rw [hmin, hmax]
      simp
  obtain ⟨hmin, hmax⟩ := hgen ⟨.replicate ndim Int32.maxValue, .replicate ndim Int32.minValue⟩
  rw [hmin, hmax]
  simp

/-- The cells that are fetched, of coordinates that an `int` has room for. -/
def Small (coorV : List Coor) : Prop := ∀ p ∈ coorV, ∀ i : Fin ndim, (p.get i).toNat < 2 ^ 31 - 1

theorem addCells_rtree {coorV : List Coor} (h : Small coorV) :
    (addCells coorV).rtree = coorV.map fun p => (boxOf (cellBox p), -1) := by
  have hgen : ∀ t : QTable.RTable.State boxGeometry,
      (coorV.foldl (fun t p => (QTable.RTable.add t (cellBox p) (-1)).getD t) t).rtree =
        t.rtree ++ coorV.map fun p => (boxOf (cellBox p), -1) := by
    induction coorV with
    | nil => simp
    | cons p coorV ih =>
      intro t
      have hvalid : isValidBox (cellBox p) = true := by
        rw [isValidBox_iff]
        intro i
        have hlt := h p List.mem_cons_self i
        have hsucc : (cellBox p).ucoor.get i = p.get i + 1 := by simp [cellBox]
        rw [hsucc, UInt64.lt_iff_toNat_lt, UInt64.toNat_add, UInt64.toNat_one, Nat.mod_eq_of_lt (by omega)]
        exact Nat.lt_succ_self _
      rw [List.foldl_cons, ih (fun p hp => h p (List.mem_cons_of_mem _ hp)), QTable.RTable.add, if_pos hvalid]
      simp
  exact hgen ⟨[]⟩

/-- The corners of a small cell keep their values as `int`s. -/
theorem boxOf_toInt {p : Coor} {i : Fin ndim} (h : (p.get i).toNat < 2 ^ 31 - 1) :
    ((boxOf (cellBox p)).min.get i).toInt = (p.get i).toNat ∧ ((boxOf (cellBox p)).max.get i).toInt = (p.get i).toNat + 1 := by
  have hmin : (boxOf (cellBox p)).min.get i = intOf (p.get i) := by simp [boxOf, cellBox, intOf]
  have hmax : (boxOf (cellBox p)).max.get i = intOf (p.get i + 1) := by simp [boxOf, cellBox, intOf]
  have hsucc : (p.get i + 1).toNat = (p.get i).toNat + 1 := by
    rw [UInt64.toNat_add, UInt64.toNat_one, Nat.mod_eq_of_lt (by omega)]
  have h1 := intOf_toInt (p.get i)
  have h2 := intOf_toInt (p.get i + 1)
  rw [hsucc] at h2
  rw [hmin, hmax]
  split at h1 <;> split at h2 <;> omega

theorem widen_toNat_of_nonneg {x : Int32} (h : 0 ≤ x.toInt) : ((widen x).toNat : Int) = x.toInt := by
  have hlt := x.toInt_lt
  rw [widen_toNat]
  omega

/-- Some cell is as low as the query in one coordinate. -/
def Low (coorV : List Coor) (q : ValidBox) (i : Fin ndim) : Prop := ∃ p ∈ coorV, (p.get i).toNat ≤ (q.lcoor.get i).toNat

def High (coorV : List Coor) (q : ValidBox) (i : Fin ndim) : Prop := ∃ p ∈ coorV, (q.ucoor.get i).toNat ≤ (p.get i).toNat + 1

/-- Of cells with small coordinates the bounding box reaches as far as the cells do. -/
theorem contains_iff {coorV : List Coor} (hsmall : Small coorV) (hne : coorV ≠ []) (q : ValidBox) :
    Contains (getBoundLucoor (addCells coorV)) q ↔ ∀ i : Fin ndim, Low coorV q i ∧ High coorV q i := by
  refine forall_congr' fun i => ?_
  have hboxes : (addCells coorV).rtree.map (·.1) = coorV.map fun p => boxOf (cellBox p) := by
    rw [addCells_rtree hsmall, List.map_map]
    rfl
  obtain ⟨hmin, hmax⟩ := bounds_get (coorV.map fun p => boxOf (cellBox p)) i
  rw [List.foldl_map] at hmin hmax
  obtain ⟨hminall, -, hminone⟩ := foldl_extreme Int32.toInt lesser lesser_spec
    (fun p => (boxOf (cellBox p)).min.get i) coorV Int32.maxValue
  obtain ⟨hmaxall, -, hmaxone⟩ := foldl_extreme (fun x => -x.toInt) greater greater_spec
    (fun p => (boxOf (cellBox p)).max.get i) coorV Int32.minValue
  rw [← hmin] at hminall hminone
  rw [← hmax] at hmaxall hmaxone
  obtain ⟨p₀, hp₀⟩ := List.exists_mem_of_ne_nil _ hne
  have hcell : ∀ p ∈ coorV, ((boxOf (cellBox p)).min.get i).toInt = (p.get i).toNat ∧
      ((boxOf (cellBox p)).max.get i).toInt = (p.get i).toNat + 1 := fun p hp => boxOf_toInt (hsmall p hp i)
  -- both ends are those of a cell
  have hlo : ∃ p ∈ coorV, ((bounds (coorV.map fun p => boxOf (cellBox p))).min.get i).toInt = (p.get i).toNat := by
    rcases hminone with hmv | ⟨p, hp, heq⟩
    · have h1 := hminall p₀ hp₀
      have h2 := (hcell p₀ hp₀).1
      have h3 := hsmall p₀ hp₀ i
      have h4 : Int32.maxValue.toInt = 2 ^ 31 - 1 := rfl
      rw [hmv] at h1
      omega
    · exact ⟨p, hp, by rw [heq, (hcell p hp).1]⟩
  have hhi : ∃ p ∈ coorV, ((bounds (coorV.map fun p => boxOf (cellBox p))).max.get i).toInt = (p.get i).toNat + 1 := by
    rcases hmaxone with hmv | ⟨p, hp, heq⟩
    · have h1 := hmaxall p₀ hp₀
      have h2 := (hcell p₀ hp₀).2
      have h4 : Int32.minValue.toInt = -2 ^ 31 := rfl
      rw [hmv] at h1
      omega
    · exact ⟨p, hp, by rw [heq, (hcell p hp).2]⟩
  obtain ⟨lo, hlomem, hlo⟩ := hlo
  obtain ⟨hi, himem, hhi⟩ := hhi
  have hfst : (getBoundLucoor (addCells coorV)).1.get i =
      widen ((bounds (coorV.map fun p => boxOf (cellBox p))).min.get i) := by
    rw [getBoundLucoor, hboxes]
    simp
  have hsnd : (getBoundLucoor (addCells coorV)).2.get i =
      widen ((bounds (coorV.map fun p => boxOf (cellBox p))).max.get i) := by
    rw [getBoundLucoor, hboxes]
    simp
  have hwlo := widen_toNat_of_nonneg (x := (bounds (coorV.map fun p => boxOf (cellBox p))).min.get i) (by omega)
  have hwhi := widen_toNat_of_nonneg (x := (bounds (coorV.map fun p => boxOf (cellBox p))).max.get i) (by omega)
  rw [hfst, hsnd, UInt64.le_iff_toNat_le, UInt64.le_iff_toNat_le]
  constructor
  · rintro ⟨h1, h2⟩
    exact ⟨⟨lo, hlomem, by omega⟩, hi, himem, by omega⟩
  · rintro ⟨⟨p, hp, h1⟩, p', hp', h2⟩
    have h3 := hminall p hp
    have h4 := hmaxall p' hp'
    have h5 := (hcell p hp).1
    have h6 := (hcell p' hp').2
    exact ⟨by omega, by omega⟩

/-- The bounds of no cell at all contain what lies between them. -/
theorem contains_nil (q : ValidBox) :
    Contains (getBoundLucoor (addCells [])) q ↔
      ∀ i : Fin ndim, 2 ^ 31 - 1 ≤ (q.lcoor.get i).toNat ∧ (q.ucoor.get i).toNat ≤ 2 ^ 64 - 2 ^ 31 := by
  refine forall_congr' fun i => ?_
  have hfst : (getBoundLucoor (addCells [])).1.get i = widen Int32.maxValue := by
    simp [getBoundLucoor, addCells, bounds]
  have hsnd : (getBoundLucoor (addCells [])).2.get i = widen Int32.minValue := by
    simp [getBoundLucoor, addCells, bounds]
  have hlo : (widen Int32.maxValue).toNat = 2 ^ 31 - 1 := by decide
  have hhi : (widen Int32.minValue).toNat = 2 ^ 64 - 2 ^ 31 := by decide
  rw [hfst, hsnd, UInt64.le_iff_toNat_le, UInt64.le_iff_toNat_le, hlo, hhi]

/-! ## The cells of a query -/

/-- A loop that begins at a number that is not negative goes through all that follow, while
they are `int`s. -/
theorem mem_walk {u : UInt64} {d : Int32} {x : UInt64} {fuel : Nat} (h0 : 0 ≤ d.toInt) (hdx : d.toInt ≤ x.toNat)
    (hx : x.toNat < 2 ^ 31) (hu : x < u) (hfuel : x.toNat - d.toInt < fuel) : x ∈ walk u fuel d := by
  induction fuel generalizing d with
  | zero => omega
  | succ fuel ih =>
    have hwide := widen_toNat_of_nonneg h0
    have hu' : x.toNat < u.toNat := UInt64.lt_iff_toNat_lt.mp hu
    have hlt : widen d < u := by
      rw [UInt64.lt_iff_toNat_lt]
      omega
    rw [walk, if_pos hlt, List.mem_cons]
    rcases Int.lt_or_eq_of_le hdx with hlt | heq
    · have hsucc : (d + 1).toInt = d.toInt + 1 := by
        have hone : (1 : Int32).toInt = 1 := rfl
        rw [Int32.toInt_add, hone, Int.bmod_eq_of_le (by omega) (by omega)]
      exact Or.inr (ih (by omega) (by omega) (by omega))
    · refine Or.inl (UInt64.toNat_inj.mp ?_)
      omega

theorem walk_bounds {u : UInt64} {d : Int32} {x : UInt64} {fuel : Nat} (h0 : 0 ≤ d.toInt) (hu : u.toNat < 2 ^ 31)
    (hx : x ∈ walk u fuel d) : d.toInt ≤ x.toNat ∧ x.toNat < u.toNat := by
  induction fuel generalizing d with
  | zero => simp [walk] at hx
  | succ fuel ih =>
    have hwide := widen_toNat_of_nonneg h0
    rw [walk] at hx
    split at hx
    next hlt =>
      rw [UInt64.lt_iff_toNat_lt] at hlt
      rcases List.mem_cons.mp hx with rfl | hx
      · omega
      · have hsucc : (d + 1).toInt = d.toInt + 1 := by
          have hone : (1 : Int32).toInt = 1 := rfl
          rw [Int32.toInt_add, hone, Int.bmod_eq_of_le (by omega) (by omega)]
        have hrest := ih (by omega) hx
        omega
    next => simp at hx

theorem mem_side {lcoor ucoor : Coor} {i : Fin ndim} (hl : lcoor.get i < ucoor.get i) (hu : (ucoor.get i).toNat < 2 ^ 31)
    (x : UInt64) : x ∈ side lcoor ucoor i ↔ (lcoor.get i).toNat ≤ x.toNat ∧ x.toNat < (ucoor.get i).toNat := by
  rw [UInt64.lt_iff_toNat_lt] at hl
  have hint := intOf_toInt (lcoor.get i)
  rw [if_pos (by omega)] at hint
  have hfuel : numInts = 2 ^ 32 := rfl
  constructor
  · intro hx
    have hbounds := walk_bounds (by omega) hu hx
    omega
  · rintro ⟨h1, h2⟩
    exact mem_walk (by omega) (by omega) (by omega) (UInt64.lt_iff_toNat_lt.mpr h2) (by omega)

theorem coorOf_get (p : Coor) : coorOf (p.get 0) (p.get 1) (p.get 2) = p := by
  refine Vector.ext fun i hi => ?_
  have hcases : i = 0 ∨ i = 1 ∨ i = 2 := by
    have : i < 3 := hi
    omega
  rcases hcases with rfl | rfl | rfl <;> rfl

theorem mem_cells (lcoor ucoor p : Coor) : p ∈ cells lcoor ucoor ↔ ∀ i : Fin ndim, p.get i ∈ side lcoor ucoor i := by
  simp only [cells, List.mem_flatMap, List.mem_map]
  constructor
  · rintro ⟨d0, h0, d1, h1, d2, h2, rfl⟩ ⟨i, hi⟩
    have hcases : i = 0 ∨ i = 1 ∨ i = 2 := by
      have : i < 3 := hi
      omega
    rcases hcases with rfl | rfl | rfl
    · exact h0
    · exact h1
    · exact h2
  · intro h
    exact ⟨p.get 0, h 0, p.get 1, h 1, p.get 2, h 2, coorOf_get p⟩

section

variable {numBits : Nat} (h : Hilbert numBits)

theorem mem_indexSet (lcoor ucoor : Coor) (x : Nat) :
    x ∈ coorToIndexIntervalSet h lcoor ucoor ↔ ∃ p ∈ cells lcoor ucoor, x = (h.c2i p).toNat := by
  rw [coorToIndexIntervalSet, IntervalSet.mem_insertAll, or_iff_right (IntervalSet.not_mem_empty x),
    IntervalSet.covers]
  simp only [List.mem_map, exists_exists_and_eq_and]
  constructor
  · rintro ⟨p, hp, h1, h2⟩
    exact ⟨p, hp, by omega⟩
  · rintro ⟨p, hp, rfl⟩
    exact ⟨p, hp, le_rfl, le_rfl⟩

theorem mem_coorV (S : IntervalSet) (p : Coor) :
    p ∈ indexIntervalSetToCoorV h S ↔ ∃ x ∈ S, p = h.i2c (UInt64.ofNat x) := by
  simp only [indexIntervalSetToCoorV, List.mem_flatMap, List.mem_map, IntervalSet.mem_def, List.mem_range'_1]
  constructor
  · rintro ⟨iv, hiv, x, hx, rfl⟩
    exact ⟨x, ⟨iv, hiv, by omega, by omega⟩, rfl⟩
  · rintro ⟨x, ⟨iv, hiv, h1, h2⟩, rfl⟩
    exact ⟨iv, hiv, x, by omega, rfl⟩

end

/-! ## The number of bits -/

/-- There are no more cells than indices, of which there are `2^64`. -/
theorem Hilbert.numBits_le {n : Nat} (h : Hilbert n) : n ≤ 21 := by
  by_contra hn
  have hpow : 2 ^ 22 ≤ 2 ^ n := Nat.pow_le_pow_right (by omega) (by omega)
  let cell (f : Fin ndim → Fin (2 ^ 22)) : Coor := Vector.ofFn fun i => UInt64.ofNat (f i)
  have hget : ∀ f i, ((cell f).get i).toNat = f i := by
    intro f i
    rw [get_ofFn]
    exact UInt64.toNat_ofNat_of_lt' (show (f i : Nat) < 2 ^ 64 by have := (f i).isLt; omega)
  have hinj : Function.Injective fun f => (⟨(h.c2i (cell f)).toNat, UInt64.toNat_lt _⟩ : Fin (2 ^ 64)) := by
    intro f g heq
    have hcube : ∀ f, InCube n (cell f) := fun f i => by
      rw [hget]
      exact (f i).isLt.trans_le hpow
    have hindex : h.c2i (cell f) = h.c2i (cell g) := UInt64.toNat_inj.mp (congrArg Fin.val heq)
    have hcell : cell f = cell g := by rw [← h.i2c_c2i _ (hcube f), ← h.i2c_c2i _ (hcube g), hindex]
    funext i
    refine Fin.ext ?_
    rw [← hget f i, ← hget g i, hcell]
  have hcard := Fintype.card_le_of_injective _ hinj
  rw [Fintype.card_fun, Fintype.card_fin, Fintype.card_fin, Fintype.card_fin, ndim] at hcard
  omega

/-! ## A query on the curve -/

/-- An index of the query. -/
def Place {n : Nat} (h : Hilbert n) (q : ValidBox) (x : Nat) : Prop := ∃ p ∈ cells q.lcoor q.ucoor, x = (h.c2i p).toNat

/-- An index up to the largest one that lies in the expansion of a run of indices of the query, as it is computed. -/
def Fetched (conv : Conversion) (d : ValidBox) {n : Nat} (h : Hilbert n) (s : UInt64) (q : ValidBox) (x : Nat) : Prop :=
  x ≤ clip conv d ∧ ∃ a b, IntervalSet.IsRun (Place h q) a b ∧ a ≤ x + s.toNat ∧ x ≤ (b + s.toNat) % 2 ^ 64

/-- The cells at these indices reach each face of the query. -/
def Reaches {n : Nat} (h : Hilbert n) (q : ValidBox) (P : Nat → Prop) : Prop :=
  ∀ i : Fin ndim, (∃ x, P x ∧ ((h.i2c (UInt64.ofNat x)).get i).toNat ≤ (q.lcoor.get i).toNat) ∧
    ∃ x, P x ∧ (q.ucoor.get i).toNat ≤ ((h.i2c (UInt64.ofNat x)).get i).toNat + 1

section

variable {conv : Conversion} {d q : ValidBox} {n : Nat} (h : Hilbert n) {s : UInt64}

/-- The indices that are fetched. -/
def kept (conv : Conversion) (d : ValidBox) (h : Hilbert n) (s : UInt64) (q : ValidBox) : IntervalSet :=
  expandIntervalSet conv d s (coorToIndexIntervalSet h q.lcoor q.ucoor)

theorem mem_kept_iff (x : Nat) : x ∈ kept conv d h s q ↔ Fetched conv d h s q x := by
  have hplace : (fun x => x ∈ coorToIndexIntervalSet h q.lcoor q.ucoor) = Place h q :=
    funext fun x => propext (mem_indexSet h _ _ x)
  have hlt : ∀ x, Place h q x → x < 2 ^ 64 := by
    rintro x ⟨p, -, rfl⟩
    exact UInt64.toNat_lt _
  have hends : ∀ a b, IntervalSet.IsRun (Place h q) a b →
      ((lower s (a, b)).toNat ≤ x ∧ x ≤ (upper conv d s (a, b)).toNat ↔
        x ≤ clip conv d ∧ a ≤ x + s.toNat ∧ x ≤ (b + s.toNat) % 2 ^ 64) := by
    intro a b hrun
    have ha := hlt a (hrun.all a le_rfl hrun.le)
    have hb := hlt b (hrun.all b hrun.le le_rfl)
    have hval : (UInt64.ofNat b).toNat = b := UInt64.toNat_ofNat_of_lt' (show b < 2 ^ 64 from hb)
    have hclip : (widen (maxIndex conv d)).toNat = clip conv d := by rw [clip]
    rw [lower_toNat ha, upper, toNat_min, UInt64.toNat_add, hval, hclip]
    simp only [le_min_iff]
    omega
  rw [kept, mem_expand_intervals]
  constructor
  · rintro ⟨⟨a, b⟩, hiv, hx⟩
    have hrun : IntervalSet.IsRun (Place h q) a b := by
      rw [← hplace]
      exact (IntervalSet.mem_ivs_iff _).mp hiv
    obtain ⟨hclip, hlo, hhi⟩ := (hends a b hrun).mp hx
    exact ⟨hclip, a, b, hrun, hlo, hhi⟩
  · rintro ⟨hclip, a, b, hrun, hlo, hhi⟩
    refine ⟨(a, b), ?_, (hends a b hrun).mpr ⟨hclip, hlo, hhi⟩⟩
    rw [IntervalSet.mem_ivs_iff, hplace]
    exact hrun

/-- The cells that are fetched are small. -/
theorem kept_small (S : IntervalSet) : Small (indexIntervalSetToCoorV h S) := by
  intro p hp i
  obtain ⟨x, -, rfl⟩ := (mem_coorV h _ p).mp hp
  have hlt := h.i2c_inCube (UInt64.ofNat x) i
  have hpow : 2 ^ n ≤ 2 ^ 21 := Nat.pow_le_pow_right (by omega) h.numBits_le
  omega

/-- No index is fetched, and the bounds of an empty tree happen to contain the query. -/
def Unvisited (conv : Conversion) (d : ValidBox) (h : Hilbert n) (s : UInt64) (q : ValidBox) : Prop :=
  (∀ x, ¬Fetched conv d h s q x) ∧
    ∀ i : Fin ndim, 2 ^ 31 - 1 ≤ (q.lcoor.get i).toNat ∧ (q.ucoor.get i).toNat ≤ 2 ^ 64 - 2 ^ 31

/-- The box that is fetched contains the query if what is fetched reaches its faces, or by accident. -/
theorem contains_kept_iff : Contains (getBoundLucoor (addCells (indexIntervalSetToCoorV h (kept conv d h s q)))) q ↔
    Reaches h q (Fetched conv d h s q) ∨ Unvisited conv d h s q := by
  by_cases hnil : indexIntervalSetToCoorV h (kept conv d h s q) = []
  · have hnone : ∀ x, ¬Fetched conv d h s q x := by
      intro x hx
      have hmem := (mem_coorV h (kept conv d h s q) _).mpr ⟨x, (mem_kept_iff h x).mpr hx, rfl⟩
      rw [hnil] at hmem
      cases hmem
    rw [hnil, contains_nil]
    refine ⟨fun hfar => .inr ⟨hnone, hfar⟩, ?_⟩
    rintro (hreach | ⟨-, hfar⟩)
    · obtain ⟨⟨x, hx, -⟩, -⟩ := hreach 0
      exact absurd hx (hnone x)
    · exact hfar
  · have hsome : ¬Unvisited conv d h s q := by
      rintro ⟨hnone, -⟩
      refine hnil (List.eq_nil_iff_forall_not_mem.mpr fun p hp => ?_)
      obtain ⟨x, hx, -⟩ := (mem_coorV h _ p).mp hp
      exact hnone x ((mem_kept_iff h x).mp hx)
    rw [contains_iff (kept_small h _) hnil, or_iff_left hsome]
    refine forall_congr' fun i => and_congr ?_ ?_
    · constructor
      · rintro ⟨p, hp, hle⟩
        obtain ⟨x, hx, rfl⟩ := (mem_coorV h _ p).mp hp
        exact ⟨x, (mem_kept_iff h x).mp hx, hle⟩
      · rintro ⟨x, hx, hle⟩
        exact ⟨_, (mem_coorV h _ _).mpr ⟨x, (mem_kept_iff h x).mpr hx, rfl⟩, hle⟩
    · constructor
      · rintro ⟨p, hp, hle⟩
        obtain ⟨x, hx, rfl⟩ := (mem_coorV h _ p).mp hp
        exact ⟨x, (mem_kept_iff h x).mp hx, hle⟩
      · rintro ⟨x, hx, hle⟩
        exact ⟨_, (mem_coorV h _ _).mpr ⟨x, (mem_kept_iff h x).mpr hx, rfl⟩, hle⟩

theorem Reaches.inside {P : Nat → Prop} (hreach : Reaches h q P) (i : Fin ndim) : (q.ucoor.get i).toNat ≤ 2 ^ n := by
  obtain ⟨x, -, hle⟩ := (hreach i).2
  have hlt := h.i2c_inCube (UInt64.ofNat x) i
  omega

/-! ## Queries with coordinates of the curve -/

section

variable (hfits : ∀ i : Fin ndim, (q.ucoor.get i).toNat ≤ 2 ^ n)
include hfits

theorem cells_inCube (hn : n ≤ 21) {p : Coor} (hp : p ∈ cells q.lcoor q.ucoor) : InCube n p := by
  intro i
  have hpow : 2 ^ n ≤ 2 ^ 21 := Nat.pow_le_pow_right (by omega) hn
  have h1 := hfits i
  have hside := (mem_side (q.valid i) (by omega) (p.get i)).mp ((mem_cells _ _ p).mp hp i)
  omega

theorem place_lt {x : Nat} (hx : Place h q x) : x < 2 ^ (ndim * n) := by
  obtain ⟨p, hp, rfl⟩ := hx
  exact h.c2i_lt p (cells_inCube hfits h.numBits_le hp)

/-- Each coordinate of the query is that of a cell of it. -/
theorem exists_place {i : Fin ndim} {v : Nat} (hlo : (q.lcoor.get i).toNat ≤ v) (hhi : v < (q.ucoor.get i).toNat) :
    ∃ x, Place h q x ∧ ((h.i2c (UInt64.ofNat x)).get i).toNat = v := by
  have hpow : 2 ^ n ≤ 2 ^ 21 := Nat.pow_le_pow_right (by omega) h.numBits_le
  have hval : (UInt64.ofNat v).toNat = v := by
    have h1 := hfits i
    exact UInt64.toNat_ofNat_of_lt' (show v < 2 ^ 64 by omega)
  let p : Coor := Vector.ofFn fun j => if j = i then UInt64.ofNat v else q.lcoor.get j
  have hp : p ∈ cells q.lcoor q.ucoor := by
    rw [mem_cells]
    intro j
    have h1 := hfits j
    have h2 := UInt64.lt_iff_toNat_lt.mp (q.valid j)
    rw [mem_side (q.valid j) (by omega), get_ofFn]
    split
    · next hj =>
      rw [hj, hval]
      exact ⟨hlo, hhi⟩
    · exact ⟨le_rfl, h2⟩
  refine ⟨_, ⟨p, hp, rfl⟩, ?_⟩
  rw [UInt64.ofNat_toNat, h.i2c_c2i _ (cells_inCube hfits h.numBits_le hp), get_ofFn, if_pos rfl, hval]

/-- What has all indices of the query reaches its faces. -/
theorem reaches_of_all {P : Nat → Prop} (hall : ∀ x, Place h q x → P x) : Reaches h q P := by
  intro i
  have hside := UInt64.lt_iff_toNat_lt.mp (q.valid i)
  obtain ⟨x, hx, hxv⟩ := exists_place h hfits (i := i) le_rfl hside
  obtain ⟨y, hy, hyv⟩ := exists_place h hfits (i := i) (v := (q.ucoor.get i).toNat - 1) (by omega) (by omega)
  exact ⟨⟨x, hall x hx, hxv.le⟩, y, hall y hy, by omega⟩

omit hfits in
/-- An index of the query lies in a run of them. -/
theorem exists_run {x : Nat} (hx : Place h q x) : ∃ a b, IntervalSet.IsRun (Place h q) a b ∧ a ≤ x ∧ x ≤ b := by
  have hplace : (fun x => x ∈ coorToIndexIntervalSet h q.lcoor q.ucoor) = Place h q :=
    funext fun x => propext (mem_indexSet h _ _ x)
  obtain ⟨⟨a, b⟩, hiv, hlo, hhi⟩ := (mem_indexSet h _ _ x).mpr hx
  refine ⟨a, b, ?_, hlo, hhi⟩
  rw [← hplace]
  exact IntervalSet.isRun_of_mem hiv

variable (hclip : clip conv d = 2 ^ (ndim * n) - 1)
include hclip

/-- Without overflow all is fetched that the query has. -/
theorem fetched_of_fits (hs : s.toNat + 2 ^ (ndim * n) ≤ 2 ^ 64) {x : Nat} (hx : Place h q x) :
    Fetched conv d h s q x := by
  obtain ⟨a, b, hrun, hlo, hhi⟩ := exists_run h hx
  have hxlt := place_lt h hfits hx
  have hblt := place_lt h hfits (hrun.all b hrun.le le_rfl)
  refine ⟨by omega, a, b, hrun, by omega, ?_⟩
  rw [Nat.mod_eq_of_lt (by omega)]
  omega

/-- Where one run is expanded without overflow, the query is fetched. -/
theorem fetched_of_run {a b : Nat} (hrun : IntervalSet.IsRun (Place h q) a b) (hs : b + s.toNat < 2 ^ 64) {x : Nat}
    (hx : Place h q x) : Fetched conv d h s q x := by
  have hpow : 2 ^ (ndim * n) ≤ 2 ^ 63 :=
    Nat.pow_le_pow_right (by omega) (by have := h.numBits_le; rw [ndim]; omega)
  by_cases hshort : s.toNat < 2 ^ (ndim * n)
  · exact fetched_of_fits h hfits hclip (by omega) hx
  · -- the run is expanded to the whole curve
    have hxlt := place_lt h hfits hx
    have halt := place_lt h hfits (hrun.all a le_rfl hrun.le)
    refine ⟨by omega, a, b, hrun, by omega, ?_⟩
    rw [Nat.mod_eq_of_lt hs]
    omega

end

/-- Some run of the query is expanded without overflow, or what lies before it by the overflow reaches its faces. -/
def Expands (h : Hilbert n) (s : UInt64) (q : ValidBox) : Prop :=
  (∃ a b, IntervalSet.IsRun (Place h q) a b ∧ b + s.toNat < 2 ^ 64) ∨
    Reaches h q fun x => ∃ y, Place h q y ∧ x + 2 ^ 64 ≤ y + s.toNat

/-- Where the largest index is that of the curve. -/
theorem reaches_iff (hclip : clip conv d = 2 ^ (ndim * n) - 1) : Reaches h q (Fetched conv d h s q) ↔
    (∀ i : Fin ndim, (q.ucoor.get i).toNat ≤ 2 ^ n) ∧ Expands h s q := by
  have hs := s.toNat_lt
  constructor
  · intro hreach
    have hfits := hreach.inside h
    refine ⟨hfits, ?_⟩
    by_cases hnone : ∃ a b, IntervalSet.IsRun (Place h q) a b ∧ b + s.toNat < 2 ^ 64
    · exact .inl hnone
    · refine .inr fun i => ?_
      -- every run overflows
      have hbefore : ∀ x, Fetched conv d h s q x → ∃ y, Place h q y ∧ x + 2 ^ 64 ≤ y + s.toNat := by
        rintro x ⟨-, a, b, hrun, -, hle⟩
        have hb := hrun.all b hrun.le le_rfl
        have hover : ¬b + s.toNat < 2 ^ 64 := fun hlt => hnone ⟨a, b, hrun, hlt⟩
        have hblt : b < 2 ^ 64 := by
          obtain ⟨p, -, rfl⟩ := hb
          exact UInt64.toNat_lt _
        exact ⟨b, hb, by omega⟩
      obtain ⟨⟨x, hx, hlo⟩, y, hy, hhi⟩ := hreach i
      exact ⟨⟨x, hbefore x hx, hlo⟩, y, hbefore y hy, hhi⟩
  · rintro ⟨hfits, ⟨a, b, hrun, hlt⟩ | hreach⟩
    · exact reaches_of_all h hfits fun x hx => fetched_of_run h hfits hclip hrun hlt hx
    · have hfetched : ∀ x, (∃ y, Place h q y ∧ x + 2 ^ 64 ≤ y + s.toNat) → Fetched conv d h s q x := by
        rintro x ⟨y, hy, hle⟩
        obtain ⟨a, b, hrun, hlo, hhi⟩ := exists_run h hy
        have hpow : 2 ^ (ndim * n) ≤ 2 ^ 63 :=
          Nat.pow_le_pow_right (by omega) (by have := h.numBits_le; rw [ndim]; omega)
        have hylt := place_lt h hfits hy
        have hblt := place_lt h hfits (hrun.all b hrun.le le_rfl)
        exact ⟨by omega, a, b, hrun, by omega, by omega⟩
      intro i
      obtain ⟨⟨x, hx, hlo⟩, y, hy, hhi⟩ := hreach i
      exact ⟨⟨x, hfetched x hx, hlo⟩, y, hfetched y hy, hhi⟩

end

/-! ## The whole chain -/

/-- The box that is fetched contains the query exactly when its coordinates are those of the curve and the query is
reached by what is expanded, if the largest index is that of the curve; when the indices up to it reach the query,
if it is another one; or by accident. -/
theorem getToFetch_covers_iff (conv : Conversion) (d : ValidBox) (h : Hilbert (bits conv d)) (s : UInt64) (q : ValidBox) :
    Covers conv d h s q ↔
      (if clip conv d = 2 ^ (ndim * bits conv d) - 1 then
        (∀ i : Fin ndim, (q.ucoor.get i).toNat ≤ 2 ^ bits conv d) ∧ Expands h s q
      else Reaches h q (Fetched conv d h s q)) ∨ Unvisited conv d h s q := by
  have hvalid : isValidBox ⟨"", 0, q.lcoor, q.ucoor⟩ = true := (isValidBox_iff _).mpr q.valid
  have hget : getToFetch conv d h s q.lcoor q.ucoor =
      some (getBoundLucoor (addCells (indexIntervalSetToCoorV h (kept conv d h s q)))) := if_pos hvalid
  have hcovers : Covers conv d h s q ↔
      Contains (getBoundLucoor (addCells (indexIntervalSetToCoorV h (kept conv d h s q)))) q := by
    rw [Covers, hget]
    simp
  rw [hcovers, contains_kept_iff]
  split
  next hclip => rw [reaches_iff h hclip]
  next => rfl

/-- The number of bits of a domain whose longest side is an `int` above zero. -/
def curveBits (d : ValidBox) : Nat := Nat.clog 2 d.longest.toInt.toNat

theorem bits_of_pos (conv : Conversion) {d : ValidBox} (h : 0 < d.longest) :
    (hilbertNumBits conv d).toInt = curveBits d := by
  have hlt : d.longest.toInt < 2 ^ 31 := d.longest.toInt_lt
  have hlog : Nat.clog 2 d.longest.toInt.toNat ≤ 31 := Nat.clog_le_of_le_pow (by omega)
  rw [hilbertNumBits, if_pos h, curveBits]
  exact Int32.toInt_ofNat_of_lt (by omega)

/-- Up to 1024 cells a side the largest index is that of the curve, whatever the conversions. -/
theorem clip_of_le (conv : Conversion) {d : ValidBox} (hpos : 0 < d.longest) (hlong : d.longest.toInt ≤ 1024) :
    bits conv d = curveBits d ∧ clip conv d = 2 ^ (ndim * bits conv d) - 1 := by
  obtain ⟨h0, hten⟩ := hilbertNumBits_le_ten_iff conv d hpos
  refine ⟨?_, clip_of_le_ten h0 (hten.mpr hlong)⟩
  rw [bits, bits_of_pos conv hpos, Int.toNat_natCast]

/-- The longest side is at most 1024, the query has coordinates of the curve, and no sum overflows. -/
theorem covers_of_fits (conv : Conversion) {d : ValidBox} (h : Hilbert (bits conv d)) {s : UInt64} {q : ValidBox}
    (hpos : 0 < d.longest) (hlong : d.longest.toInt ≤ 1024)
    (hfits : ∀ i : Fin ndim, (q.ucoor.get i).toNat ≤ 2 ^ curveBits d)
    (hs : s.toNat + 2 ^ (ndim * curveBits d) ≤ 2 ^ 64) : Covers conv d h s q := by
  obtain ⟨hbits, hclip⟩ := clip_of_le conv hpos hlong
  rw [← hbits] at hfits hs
  rw [getToFetch_covers_iff, if_pos hclip]
  refine .inl ⟨hfits, .inl ?_⟩
  obtain ⟨x, hx, -⟩ := exists_place h hfits (i := 0) le_rfl (UInt64.lt_iff_toNat_lt.mp (q.valid 0))
  obtain ⟨a, b, hrun, -, -⟩ := exists_run h hx
  have hblt := place_lt h hfits (hrun.all b hrun.le le_rfl)
  exact ⟨a, b, hrun, by omega⟩

/-- A cell of the tests. -/
def cell : ValidBox where
  lcoor := .replicate 3 5
  ucoor := .replicate 3 6
  valid := by decide +kernel

/-- One walk step of the tests, on any curve. -/
example (h : Hilbert (bits .smallest sixteen)) : Covers .smallest sixteen h 1 cell := by
  have hlongest : sixteen.longest = 16 := by decide +kernel
  have hbits : curveBits sixteen = 4 := by
    rw [curveBits, hlongest]
    exact Nat.clog_pow 2 4 (by omega)
  refine covers_of_fits .smallest h (by rw [hlongest]; decide) (by rw [hlongest]; decide) ?_ ?_
  · rw [hbits]
    decide +kernel
  · rw [hbits]
    decide

/-- A domain of two cells on each side that does not begin at zero. -/
def shifted : ValidBox where
  lcoor := .replicate 3 10
  ucoor := .replicate 3 12
  valid := by decide +kernel

/-- Its first cell. -/
def shiftedCell : ValidBox where
  lcoor := .replicate 3 10
  ucoor := .replicate 3 11
  valid := by decide +kernel

theorem bits_shifted : bits .smallest shifted = 1 := by
  have hlongest : shifted.longest = 2 := by decide +kernel
  rw [bits, bits_of_pos .smallest (by rw [hlongest]; decide), curveBits, hlongest]
  exact Nat.clog_pow 2 1 (by omega)

/-- No curve brings the first cell of this domain back. -/
theorem not_covers_shifted (h : Hilbert (bits .smallest shifted)) : ¬Covers .smallest shifted h 1 shiftedCell := by
  have hlongest : shifted.longest = 2 := by decide +kernel
  have hclip := (clip_of_le .smallest (d := shifted) (by rw [hlongest]; decide) (by rw [hlongest]; decide)).2
  have hucoor : (shiftedCell.ucoor.get 0).toNat = 11 := by decide +kernel
  have hlcoor : (shiftedCell.lcoor.get 0).toNat = 10 := by decide +kernel
  rw [getToFetch_covers_iff, if_pos hclip]
  rintro (⟨hfits, -⟩ | ⟨-, hfar⟩)
  · have hle := hfits 0
    rw [bits_shifted] at hle
    omega
  · have hle := (hfar 0).1
    omega

end HSAlgo
