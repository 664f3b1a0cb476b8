import DataspacesWa.KeyOrder
import DataspacesWa.QTable
import DataspacesWa.ByteCount

/-!
# Boxes as keys

`less_for_box` puts a box before another one that it lies in and is not equal
to. That is an order by containment: it is strict, but it does not decide boxes
of which neither lies in the other, and a map takes these for the same key.
-/
namespace BoxOrder

open QTable (Box)
open ByteCount (widen)
open Patch (ndim)
open KeyOrder (MapOrder mapOrder_iff)

/-- `boost::geometry::within`, with the borders. -/
def within (b0 b1 : Box) : Bool :=
  (List.finRange ndim).all fun i => b1.min.get i ≤ b0.min.get i && b0.max.get i ≤ b1.max.get i

/-- The corners are compared as unsigned numbers. -/
def lessForBox (b0 b1 : Box) : Bool :=
  within b0 b1 && (List.finRange ndim).any fun i =>
    widen (b0.min.get i) != widen (b1.min.get i) || widen (b0.max.get i) != widen (b1.max.get i)

/-! ## Containment -/

section
variable {a b d : Box}

theorem within_iff : within a b = true ↔ ∀ i : Fin ndim, b.min.get i ≤ a.min.get i ∧ a.max.get i ≤ b.max.get i := by
  simp [within]

theorem box_ext (h : ∀ i : Fin ndim, a.min.get i = b.min.get i ∧ a.max.get i = b.max.get i) : a = b := by
  cases a with
  | mk min max =>
    cases b with
    | mk min' max' =>
      have hmin : min = min' := Vector.ext fun i hi => (h ⟨i, hi⟩).1
      have hmax : max = max' := Vector.ext fun i hi => (h ⟨i, hi⟩).2
      rw [hmin, hmax]

instance containment : PartialOrder Box where
  le a b := within a b = true
  le_refl a := within_iff.mpr fun _ => ⟨Int32.le_refl _, Int32.le_refl _⟩
  le_trans a b d hab hbd := within_iff.mpr fun i =>
    ⟨Int32.le_trans (within_iff.mp hbd i).1 (within_iff.mp hab i).1,
      Int32.le_trans (within_iff.mp hab i).2 (within_iff.mp hbd i).2⟩
  le_antisymm a b hab hba := box_ext fun i =>
    ⟨Int32.le_antisymm (within_iff.mp hba i).1 (within_iff.mp hab i).1,
      Int32.le_antisymm (within_iff.mp hab i).2 (within_iff.mp hba i).2⟩

theorem widen_inj {x y : Int32} : widen x = widen y ↔ x = y := by
  constructor
  · intro h
    have hx := ByteCount.widen_toNat x
    have hy := ByteCount.widen_toNat y
    have hxlo := x.le_toInt
    have hylo := y.le_toInt
    have hxhi := x.toInt_lt
    have hyhi := y.toInt_lt
    rw [h, hy] at hx
    exact Int32.toInt_inj.mp (by omega)
  · exact congrArg widen

theorem lessForBox_iff : lessForBox a b = true ↔ a < b := by
  have hne : a ≠ b ↔ ∃ i : Fin ndim, a.min.get i ≠ b.min.get i ∨ a.max.get i ≠ b.max.get i := by
    constructor
    · intro hne
      by_contra hnone
      refine hne (box_ext fun i => ?_)
      simpa [not_or] using not_exists.mp hnone i
    · rintro ⟨i, hi⟩ rfl
      exact hi.elim (fun h => h rfl) fun h => h rfl
  rw [lt_iff_le_and_ne, hne, lessForBox, Bool.and_eq_true]
  refine and_congr_right fun _ => ?_
  simp [bne_iff_ne, widen_inj]

end

/-! ## The order of a map -/

theorem lessForBox_eq : (fun a b => lessForBox a b = true) = ((· < ·) : Box → Box → Prop) :=
  funext fun _ => funext fun _ => propext lessForBox_iff

/-- The order is strict for all boxes, and keeps apart the boxes of a set exactly when of every two of them one
lies in the other. -/
theorem lessForBox_order_iff (S : Set Box) :
    (∀ a b d : Box, ¬ lessForBox a a = true ∧ (lessForBox a b = true → ¬ lessForBox b a = true) ∧
      (lessForBox a b = true → lessForBox b d = true → lessForBox a d = true)) ∧
    (MapOrder (fun a b => lessForBox a b = true) S ↔
      ∀ a ∈ S, ∀ b ∈ S, within a b = true ∨ within b a = true) := by
  constructor
  · intro a b d
    simp only [lessForBox_iff]
    exact ⟨lt_irrefl a, lt_asymm, lt_trans⟩
  · rw [lessForBox_eq]
    exact mapOrder_iff

def boxAt (lo hi : Int32) : Box := ⟨Vector.replicate ndim lo, Vector.replicate ndim hi⟩

/-- Two boxes beside each other are one key. -/
theorem disjoint_equivalent : ¬ MapOrder (fun a b => lessForBox a b = true) Set.univ := by
  intro h
  rw [lessForBox_eq] at h
  have hnested : within (boxAt 0 1) (boxAt 2 3) = true ∨ within (boxAt 2 3) (boxAt 0 1) = true :=
    mapOrder_iff.mp h _ trivial _ trivial
  exact absurd hnested (by decide)

end BoxOrder
