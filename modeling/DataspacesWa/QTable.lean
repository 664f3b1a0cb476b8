import DataspacesWa.MPBuffer

/-!
# Query tables

What a DS has, by key and version or by box. Each operation of a table first
refuses a box with a side of length zero. The table by box keeps its corners in
`int`s and leaves the search to an R-tree.
-/
namespace QTable

open Function (update update_self update_of_ne)
open Patch (Datum isValidBox)
open MPBuffer (KeyVer)

/-- A table of values of type `int`; `none` is an error return. -/
class Table (T : Type) where
  empty : T
  add : T → Datum → Int32 → Option T
  query : T → Datum → Option (List Int32)
  /-- The data that is found once it is in the table. -/
  Sees : Datum → Prop
  add_isSome : ∀ t d v, (add t d v).isSome = isValidBox d
  add_changes : ∀ t d v t', add t d v = some t' → t' ≠ t
  query_unseen : ∀ t d, ¬Sees d → query t d = none
  add_query : ∀ t d v t', Sees d → add t d v = some t' → (query t' d).isSome
  sees_valid : ∀ d, Sees d → isValidBox d = true
  add_keeps : ∀ t d v t' d', add t d v = some t' → (query t d').isSome → (query t' d').isSome

namespace Table
variable {T : Type} [Table T] {q : T} {d d' : Datum}

theorem sees_of_query (h : (query q d).isSome) : Sees T d := by
  by_contra hd
  rw [query_unseen q d hd] at h
  cases h

/-- A put that does not look at what the table returns. -/
theorem query_of_put (v : Int32) (h : Sees T d) : (query ((add q d v).getD q) d).isSome := by
  have hadd := add_isSome q d v
  rw [sees_valid d h] at hadd
  obtain ⟨t, ht⟩ := Option.isSome_iff_exists.mp hadd
  rw [ht]
  exact add_query q d v t h ht

theorem put_keeps (v : Int32) (h : (query q d').isSome) : (query ((add q d v).getD q) d').isSome := by
  cases ht : add q d v with
  | none => exact h
  | some t => exact add_keeps q d v t d' ht h

end Table

/-! ## By key and version -/

namespace KVTable

structure State where
  kvValV : KeyVer → Option (List Int32)

def add (t : State) (d : Datum) (v : Int32) : Option State :=
  if isValidBox d then
    some ⟨update t.kvValV (d.key, d.ver) (some ((t.kvValV (d.key, d.ver)).getD [] ++ [v]))⟩
  else none

def query (t : State) (d : Datum) : Option (List Int32) := if isValidBox d then t.kvValV (d.key, d.ver) else none

section Add
variable {t t' : State} {d d' : Datum} {v : Int32}

theorem add_some (h : add t d v = some t') :
    t'.kvValV = update t.kvValV (d.key, d.ver) (some ((t.kvValV (d.key, d.ver)).getD [] ++ [v])) := by
  unfold add at h
  split at h
  · rw [← Option.some.inj h]
  · cases h

theorem add_changes (h : add t d v = some t') : t' ≠ t := by
  intro hsame
  have hat := congrFun (add_some h) (d.key, d.ver)
  rw [hsame, update_self] at hat
  cases ht : t.kvValV (d.key, d.ver) with
  | none =>
    rw [ht] at hat
    cases hat
  | some l =>
    rw [ht] at hat
    have hlen := congrArg List.length (Option.some.inj hat)
    simp at hlen

theorem add_query (hd : isValidBox d = true) (h : add t d v = some t') : (query t' d).isSome := by
  rw [query, if_pos hd, add_some h, update_self]
  rfl

theorem add_keeps (h : add t d v = some t') (hq : (query t d').isSome) : (query t' d').isSome := by
  unfold query at hq ⊢
  rw [add_some h]
  split at hq
  · rename_i hd'
    rw [if_pos hd']
    by_cases hkv : (d'.key, d'.ver) = (d.key, d.ver)
    · rw [hkv, update_self]
      rfl
    · rwa [update_of_ne hkv]
  · cases hq

theorem add_isSome (t : State) (d : Datum) (v : Int32) : (add t d v).isSome = isValidBox d := by
  unfold add
  cases isValidBox d <;> rfl

end Add

instance table : Table State where
  empty := ⟨fun _ => none⟩
  add := add
  query := query
  Sees d := isValidBox d = true
  add_isSome := add_isSome
  add_changes _ _ _ _ h := add_changes h
  query_unseen t d hd := by rw [query, if_neg hd]
  add_query _ _ _ _ hd h := add_query hd h
  sees_valid _ hd := hd
  add_keeps _ _ _ _ _ h hq := add_keeps h hq

end KVTable

/-! ## By box -/

section

variable {α β γ : Type} {n : Nat}

@[simp] theorem get_map (f : α → β) (v : Vector α n) (i : Fin n) : (v.map f).get i = f (v.get i) := by
  simp [Vector.get]

@[simp] theorem get_zipWith (f : α → β → γ) (v : Vector α n) (w : Vector β n) (i : Fin n) :
    (v.zipWith f w).get i = f (v.get i) (w.get i) := by
  simp [Vector.get, Fin.cast]

@[simp] theorem get_ofFn (g : Fin n → α) (i : Fin n) : (Vector.ofFn g).get i = g i := by
  simp [Vector.get, Fin.cast]

theorem zip_all_iff (a b : Vector α n) (p : α × α → Bool) :
    (a.toList.zip b.toList).all p = true ↔ ∀ i : Fin n, p (a.get i, b.get i) = true := by
  rw [List.all_eq_true]
  constructor
  · intro h i
    exact h _ (List.mem_iff_getElem.mpr ⟨i, by simp, by simp [Vector.get]⟩)
  · rintro h ⟨x, y⟩ hmem
    obtain ⟨m, hm, heq⟩ := List.mem_iff_getElem.mp hmem
    have hlt : m < n := by simpa using hm
    rw [List.getElem_zip] at heq
    simpa [← heq, Vector.get] using h ⟨m, hlt⟩

end

theorem isValidBox_iff (d : Datum) : isValidBox d = true ↔ ∀ i : Fin Patch.ndim, d.lcoor.get i < d.ucoor.get i := by
  rw [isValidBox, zip_all_iff]
  simp only [decide_eq_true_eq]

/-- `box_t`, with the corners as `int`s. -/
structure Box where
  min : Vector Int32 Patch.ndim
  max : Vector Int32 Patch.ndim
  deriving DecidableEq, Repr

/-- `CREATE_BOX`: each coordinate is cut to an `int`. -/
def boxOf (d : Datum) : Box := ⟨d.lcoor.map (·.toUInt32.toInt32), d.ucoor.map (·.toUInt32.toInt32)⟩

/-- The test of the R-tree's `contains` predicate. A box that lies in another one lies in itself. -/
structure Geometry where
  within : Box → Box → Bool
  within_self : ∀ b b', within b b' = true → within b b = true

/-- Borders may touch, and each side has a length. -/
def boxInBox (b b' : Box) : Bool :=
  (b'.min.toList.zip b.min.toList).all (fun p => decide (p.1 ≤ p.2)) &&
    (b.max.toList.zip b'.max.toList).all (fun p => decide (p.1 ≤ p.2)) &&
    (b.min.toList.zip b.max.toList).all fun p => decide (p.1 < p.2)

theorem boxInBox_iff (b b' : Box) : boxInBox b b' = true ↔ ∀ i : Fin Patch.ndim,
    b'.min.get i ≤ b.min.get i ∧ b.max.get i ≤ b'.max.get i ∧ b.min.get i < b.max.get i := by
  rw [boxInBox, Bool.and_eq_true, Bool.and_eq_true, zip_all_iff, zip_all_iff, zip_all_iff]
  simp only [decide_eq_true_eq, forall_and, and_assoc]

theorem zip_self_all {α : Type} (l : List α) (f : α × α → Bool) (h : ∀ a, f (a, a) = true) :
    (l.zip l).all f = true := by
  induction l with
  | nil => rfl
  | cons a l ih => rw [List.zip_cons_cons, List.all_cons, h, ih, Bool.and_self]

def boxGeometry : Geometry where
  within := boxInBox
  within_self b b' h := by
    unfold boxInBox at h ⊢
    rw [Bool.and_eq_true, Bool.and_eq_true] at h
    rw [zip_self_all _ _ (fun a => decide_eq_true (Int32.le_refl a)),
      zip_self_all _ _ (fun a => decide_eq_true (Int32.le_refl a)), h.2, Bool.and_self, Bool.and_self]

namespace RTable

structure State (g : Geometry) (V : Type := Int32) where
  rtree : List (Box × V)

section Add
variable {g : Geometry} {V : Type} {t t' : State g} {d d' : Datum} {v : Int32}

def add (t : State g V) (d : Datum) (val : V) : Option (State g V) :=
  if isValidBox d then some ⟨t.rtree ++ [(boxOf d, val)]⟩ else none

/-- What `query` puts on `val_v`: the values whose box contains the box that is asked for. -/
def found (t : State g V) (d : Datum) : List V := (t.rtree.filter fun r => g.within (boxOf d) r.1).map (·.2)

/-- `none` is an error return, also where nothing is found. -/
def query (t : State g V) (d : Datum) : Option (List V) :=
  if isValidBox d ∧ found t d ≠ [] then some (found t d) else none

theorem add_some (h : add t d v = some t') : t'.rtree = t.rtree ++ [(boxOf d, v)] := by
  unfold add at h
  split at h
  · rw [← Option.some.inj h]
  · cases h

theorem query_isSome : (query t d).isSome ↔ isValidBox d = true ∧ ∃ r ∈ t.rtree, g.within (boxOf d) r.1 = true := by
  have hfound : found t d ≠ [] ↔ ∃ r ∈ t.rtree, g.within (boxOf d) r.1 = true := by
    rw [found, ne_eq, List.map_eq_nil_iff, List.filter_eq_nil_iff]
    simp only [not_forall, not_not, exists_prop]
  unfold query
  rw [← hfound]
  by_cases h : isValidBox d = true ∧ found t d ≠ []
  · rw [if_pos h]
    exact ⟨fun _ => h, fun _ => rfl⟩
  · rw [if_neg h]
    exact ⟨fun hnone => absurd hnone (by simp), fun hsome => absurd hsome h⟩

theorem add_isSome (t : State g) (d : Datum) (v : Int32) : (add t d v).isSome = isValidBox d := by
  unfold add
  cases isValidBox d <;> rfl

theorem add_changes (h : add t d v = some t') : t' ≠ t := by
  intro hsame
  have hlen := congrArg List.length (add_some h)
  rw [hsame, List.length_append, List.length_singleton] at hlen
  omega

theorem query_unseen (t : State g) (hd : ¬(isValidBox d = true ∧ g.within (boxOf d) (boxOf d) = true)) :
    query t d = none := by
  rw [← Option.not_isSome_iff_eq_none, query_isSome]
  rintro ⟨hvalid, r, -, hr⟩
  exact hd ⟨hvalid, g.within_self _ _ hr⟩

theorem add_query (hd : isValidBox d = true ∧ g.within (boxOf d) (boxOf d) = true) (h : add t d v = some t') :
    (query t' d).isSome := by
  rw [query_isSome, add_some h]
  exact ⟨hd.1, (boxOf d, v), List.mem_append_right _ List.mem_cons_self, hd.2⟩

theorem add_keeps (h : add t d v = some t') (hq : (query t d').isSome) : (query t' d').isSome := by
  rw [query_isSome] at hq ⊢
  obtain ⟨hvalid, r, hr, hwithin⟩ := hq
  rw [add_some h]
  exact ⟨hvalid, r, List.mem_append_left _ hr, hwithin⟩

end Add

instance table (g : Geometry) : Table (State g) where
  empty := ⟨[]⟩
  add := add
  query := query
  Sees d := isValidBox d = true ∧ g.within (boxOf d) (boxOf d) = true
  add_isSome := add_isSome
  add_changes _ _ _ _ h := add_changes h
  query_unseen t _ hd := query_unseen t hd
  add_query _ _ _ _ hd h := add_query hd h
  sees_valid _ hd := hd.1
  add_keeps _ _ _ _ _ h hq := add_keeps h hq

end RTable

end QTable
