import DataspacesWa.QTable
import DataspacesWa.ByteCount

/-!
# Tables of boxes

`RTable` against the boxes that were added to it and not deleted. The R-tree is
taken to be right on boxes with `int` corners: it keeps what is inserted, removes
one pair that is equal to the given one, and finds the pairs whose box contains
the one that is asked for. It promises no order.
-/
namespace RTable

open QTable (Box boxOf boxInBox boxGeometry isValidBox_iff boxInBox_iff)
open QTable.RTable (add found query)
open Patch (Datum isValidBox ndim)
open ByteCount (intOf intOf_toInt)

variable {V : Type}

/-! ## The source -/

abbrev State (V : Type) := QTable.RTable.State boxGeometry V

/-- Of the box that is given one pair is removed for each value that the query finds. -/
def del [DecidableEq V] (t : State V) (d : Datum) : Option (State V) :=
  if isValidBox d then
    (query t d).map fun valV => ⟨valV.foldl (fun rtree val => rtree.erase (boxOf d, val)) t.rtree⟩
  else none

inductive Op (V : Type) where
  | add : Datum → V → Op V
  | del : Datum → Op V

def Op.datum : Op V → Datum
  | .add d _ => d
  | .del d => d

def step [DecidableEq V] (t : State V) : Op V → State V
  | .add d val => (add t d val).getD t
  | .del d => (del t d).getD t

def run [DecidableEq V] (ops : List (Op V)) : State V := ops.foldl step ⟨[]⟩

/-! ## What it is for -/

/-- The corners as they are given. -/
structure Corners where
  lcoor : Vector UInt64 ndim
  ucoor : Vector UInt64 ndim
  deriving DecidableEq, Repr

def corners (d : Datum) : Corners := ⟨d.lcoor, d.ucoor⟩

def Corners.within (b b' : Corners) : Prop := ∀ i : Fin ndim, b'.lcoor.get i ≤ b.lcoor.get i ∧ b.ucoor.get i ≤ b'.ucoor.get i

instance Corners.decidableWithin (b b' : Corners) : Decidable (b.within b') :=
  inferInstanceAs (Decidable (∀ i : Fin ndim, b'.lcoor.get i ≤ b.lcoor.get i ∧ b.ucoor.get i ≤ b'.ucoor.get i))

/-- The entries added and not deleted. -/
abbrev Entries (V : Type) := List (Corners × V)

def specStep (s : Entries V) : Op V → Entries V
  | .add d val => s ++ [(corners d, val)]
  | .del d => s.filter fun e => e.1 ≠ corners d

def specRun (ops : List (Op V)) : Entries V := ops.foldl specStep []

def Present (s : Entries V) (d : Datum) : Prop := ∃ e ∈ s, e.1 = corners d

def Covered (s : Entries V) (d : Datum) : Prop := ∃ e ∈ s, (corners d).within e.1

/-- The query returns the values of the entries that contain its box, and zero iff there are any. -/
def QueryExact (t : State V) (s : Entries V) (d : Datum) : Prop :=
  (found t d).Perm ((s.filter fun e => (corners d).within e.1).map (·.2)) ∧
    ((query t d).isSome = true ↔ Covered s d)

def Corners.box (b : Corners) : Box := ⟨b.lcoor.map intOf, b.ucoor.map intOf⟩

/-- An entry as the tree keeps it. -/
def cut (e : Corners × V) : Box × V := (e.1.box, e.2)

/-- What the table keeps are the entries. -/
def Holds (t : State V) (s : Entries V) : Prop := t.rtree.Perm (s.map cut)

/-- The deletion returns zero iff the box is there, and takes away its entries and no others. -/
def DelExact [DecidableEq V] (t : State V) (s : Entries V) (d : Datum) : Prop :=
  ((del t d).isSome = true ↔ Present s d) ∧ Holds (step t (.del d)) (specStep s (.del d))

/-- In each dimension the coordinates lie in one range of 2^32 in which the cut to an `int`
keeps the order; below 2^31 it is the range zero. -/
def InWindow (k : Fin ndim → Nat) (b : Corners) : Prop :=
  ∀ i : Fin ndim, ((b.lcoor.get i).toNat + 2 ^ 31) / 2 ^ 32 = k i ∧ ((b.ucoor.get i).toNat + 2 ^ 31) / 2 ^ 32 = k i

def Corners.valid (b : Corners) : Prop := ∀ i : Fin ndim, b.lcoor.get i < b.ucoor.get i

/-! ## The cut -/

theorem intOf_window {x : UInt64} {k : Nat} (h : (x.toNat + 2 ^ 31) / 2 ^ 32 = k) :
    (intOf x).toInt = x.toNat - k * 2 ^ 32 := by
  have hint := intOf_toInt x
  split at hint <;> omega

theorem intOf_le_iff {x y : UInt64} {k : Nat} (hx : (x.toNat + 2 ^ 31) / 2 ^ 32 = k)
    (hy : (y.toNat + 2 ^ 31) / 2 ^ 32 = k) : intOf x ≤ intOf y ↔ x ≤ y := by
  rw [Int32.le_iff_toInt_le, UInt64.le_iff_toNat_le, intOf_window hx, intOf_window hy]
  omega

section

variable {k : Fin ndim → Nat} {b b' : Corners} (hb : InWindow k b) (hb' : InWindow k b')
include hb hb'

theorem box_inj (h : b.box = b'.box) : b = b' := by
  have hget : ∀ i : Fin ndim, b.lcoor.get i = b'.lcoor.get i ∧ b.ucoor.get i = b'.ucoor.get i := by
    intro i
    have hl := congrArg (fun v : Box => (v.min.get i).toInt) h
    have hu := congrArg (fun v : Box => (v.max.get i).toInt) h
    simp only [Corners.box, QTable.get_map, intOf_window (hb i).1, intOf_window (hb i).2,
      intOf_window (hb' i).1, intOf_window (hb' i).2] at hl hu
    exact ⟨UInt64.toNat_inj.mp (by omega), UInt64.toNat_inj.mp (by omega)⟩
  cases b with
  | mk l u =>
    cases b' with
    | mk l' u' =>
      have hl : l = l' := Vector.ext fun i hi => (hget ⟨i, hi⟩).1
      have hu : u = u' := Vector.ext fun i hi => (hget ⟨i, hi⟩).2
      rw [hl, hu]

theorem boxInBox_box (hvalid : b.valid) : boxInBox b.box b'.box = true ↔ b.within b' := by
  rw [boxInBox_iff]
  refine forall_congr' fun i => ?_
  have hlt : intOf (b.lcoor.get i) < intOf (b.ucoor.get i) := by
    have hlt := UInt64.lt_iff_toNat_lt.mp (hvalid i)
    rw [Int32.lt_iff_toInt_lt, intOf_window (hb i).1, intOf_window (hb i).2]
    omega
  simp only [Corners.box, QTable.get_map]
  rw [intOf_le_iff (hb' i).1 (hb i).1, intOf_le_iff (hb i).2 (hb' i).2]
  simp only [hlt, and_true]

end

/-! ## Removal -/

theorem filter_erase {α : Type} [BEq α] [LawfulBEq α] (p : α → Bool) {x : α} (hx : p x = false) (l : List α) :
    (l.erase x).filter p = l.filter p := by
  induction l with
  | nil => rfl
  | cons y l ih =>
    by_cases hxy : y = x
    · subst hxy
      rw [List.erase_cons_head, List.filter_cons_of_neg (by simp [hx])]
    · rw [List.erase_cons_tail (by simpa using hxy)]
      by_cases hy : p y = true
      · rw [List.filter_cons_of_pos hy, List.filter_cons_of_pos hy, ih]
      · rw [List.filter_cons_of_neg hy, List.filter_cons_of_neg hy, ih]

/-- Where each element is removed as often at least as it occurs, none is left. -/
theorem foldl_erase {α : Type} [BEq α] [LawfulBEq α] (p : α → Bool) (xs l : List α) (hxs : ∀ x ∈ xs, p x = false)
    (hcount : ∀ x, p x = false → l.count x ≤ xs.count x) : xs.foldl List.erase l = l.filter p := by
  induction xs generalizing l with
  | nil =>
    have hall : ∀ x ∈ l, p x = true := by
      intro x hx
      by_contra hp
      have hle := hcount x (by simpa using hp)
      have hpos := List.count_pos_iff.mpr hx
      rw [List.count_nil] at hle
      omega
    rw [List.foldl_nil, List.filter_eq_self.mpr hall]
  | cons x xs ih =>
    have hx : p x = false := hxs x List.mem_cons_self
    rw [List.foldl_cons, ih _ (fun y hy => hxs y (List.mem_cons_of_mem _ hy)), filter_erase p hx]
    intro y hy
    have hle := hcount y hy
    rw [List.count_cons] at hle
    rw [List.count_erase]
    split at hle <;> rename_i heq
    · simp only [beq_iff_eq] at heq
      subst heq
      simp only [beq_self_eq_true, if_true]
      omega
    · omega

/-! ## Runs -/

section

variable [DecidableEq V] {t : State V} {s : Entries V} {k : Fin ndim → Nat} {d : Datum}

/-- A deletion takes away every pair with exactly this box. -/
theorem step_del_rtree (hd : isValidBox d = true) (hself : boxInBox (boxOf d) (boxOf d) = true) :
    (step t (.del d)).rtree = t.rtree.filter fun r => r.1 ≠ boxOf d := by
  have hstep : (step t (.del d)).rtree =
      (found t d).foldl (fun rtree val => rtree.erase (boxOf d, val)) t.rtree := by
    rw [step, del, if_pos hd, query]
    by_cases hnil : found t d = []
    · rw [if_neg fun h => h.2 hnil, hnil]
      rfl
    · rw [if_pos ⟨hd, hnil⟩]
      rfl
  have hmap : (found t d).foldl (fun rtree val => rtree.erase (boxOf d, val)) t.rtree =
      ((found t d).map fun val => (boxOf d, val)).foldl List.erase t.rtree := by rw [List.foldl_map]
  rw [hstep, hmap]
  refine foldl_erase (fun r : Box × V => decide (r.1 ≠ boxOf d)) _ _ ?_ ?_
  · intro r hr
    obtain ⟨val, -, rfl⟩ := List.mem_map.mp hr
    simp
  · intro r hr
    obtain ⟨b, val⟩ := r
    obtain rfl : b = boxOf d := by simpa using hr
    have hkept : (t.rtree.filter fun r => boxInBox (boxOf d) r.1).count (boxOf d, val) =
        t.rtree.count (boxOf d, val) := List.count_filter (by exact hself)
    have hcopies : (t.rtree.filter fun r => boxInBox (boxOf d) r.1).count (boxOf d, val) ≤
        ((t.rtree.filter fun r => boxInBox (boxOf d) r.1).map fun r => (boxOf d, r.2)).count (boxOf d, val) :=
      List.count_le_count_map (f := fun r : Box × V => (boxOf d, r.2))
    rw [found, List.map_map, ← hkept]
    exact hcopies

/-- The tree has the entries, all of them in the window. -/
structure Inv (k : Fin ndim → Nat) (t : State V) (s : Entries V) : Prop where
  rtree : t.rtree = s.map cut
  window : ∀ e ∈ s, InWindow k e.1

/-- What a call is made with. -/
def Allowed (k : Fin ndim → Nat) (d : Datum) : Prop := isValidBox d = true ∧ InWindow k (corners d)

theorem corners_valid (hd : isValidBox d = true) : (corners d).valid := (isValidBox_iff d).mp hd

theorem within_self (hd : Allowed k d) : boxInBox (boxOf d) (boxOf d) = true :=
  (boxInBox_box hd.2 hd.2 (corners_valid hd.1)).mpr fun _ => ⟨UInt64.le_refl _, UInt64.le_refl _⟩

theorem Inv.step_del (hi : Inv k t s) (hd : Allowed k d) :
    (step t (.del d)).rtree = (specStep s (.del d)).map cut := by
  rw [step_del_rtree hd.1 (within_self hd), hi.rtree, List.filter_map, specStep]
  congr 1
  refine List.filter_congr fun e he => ?_
  have hiff : e.1.box = (corners d).box ↔ e.1 = corners d :=
    ⟨box_inj (hi.window e he) hd.2, fun h => by rw [h]⟩
  change decide (e.1.box ≠ (corners d).box) = decide (e.1 ≠ corners d)
  exact decide_eq_decide.mpr (not_congr hiff)

theorem Inv.step {op : Op V} (hi : Inv k t s) (hop : Allowed k op.datum) : Inv k (step t op) (specStep s op) := by
  cases op with
  | add d val =>
    constructor
    · have hvalid : isValidBox d = true := hop.1
      have hadd : (RTable.step t (.add d val)).rtree = t.rtree ++ [(boxOf d, val)] := by
        rw [RTable.step, add, if_pos hvalid]
        rfl
      rw [hadd, hi.rtree, specStep, List.map_append]
      rfl
    · intro e he
      rcases List.mem_append.mp he with he | he
      · exact hi.window e he
      · rw [List.mem_singleton.mp he]
        exact hop.2
  | del d => exact ⟨hi.step_del hop, fun e he => hi.window e (List.mem_of_mem_filter he)⟩

theorem inv_run (ops : List (Op V)) (h : ∀ op ∈ ops, Allowed k op.datum) : Inv k (run ops) (specRun ops) := by
  have hgen : ∀ (t : State V) (s : Entries V), Inv k t s → Inv k (ops.foldl RTable.step t) (ops.foldl specStep s) := by
    induction ops with
    | nil => exact fun _ _ hi => hi
    | cons op ops ih =>
      intro t s hi
      exact ih (fun op hop => h op (List.mem_cons_of_mem _ hop)) _ _ (hi.step (h op List.mem_cons_self))
  exact hgen _ _ ⟨rfl, by simp⟩

omit [DecidableEq V] in
theorem Inv.found (hi : Inv k t s) (hd : Allowed k d) :
    found t d = (s.filter fun e => (corners d).within e.1).map (·.2) := by
  have hfilter : t.rtree.filter (fun r => boxInBox (boxOf d) r.1) =
      (s.filter fun e => (corners d).within e.1).map cut := by
    rw [hi.rtree, List.filter_map]
    congr 1
    refine List.filter_congr fun e he => ?_
    rw [Bool.eq_iff_iff, decide_eq_true_eq]
    exact boxInBox_box hd.2 (hi.window e he) (corners_valid hd.1)
  exact (congrArg (List.map (·.2)) hfilter).trans (List.map_map ..)

omit [DecidableEq V] in
theorem Inv.query_isSome (hi : Inv k t s) (hd : Allowed k d) : (query t d).isSome = true ↔ Covered s d := by
  have hcovered : QTable.RTable.found t d ≠ [] ↔ Covered s d := by
    rw [hi.found hd, ne_eq, List.map_eq_nil_iff, List.filter_eq_nil_iff, Covered]
    simp
  rw [query, ← hcovered]
  split
  next h => simpa using h.2
  next h =>
    constructor
    · intro hsome
      simp at hsome
    · intro hfound
      exact absurd ⟨hd.1, hfound⟩ h

theorem Inv.del_isSome (hi : Inv k t s) (hd : Allowed k d) : (del t d).isSome = true ↔ Covered s d := by
  rw [del, if_pos hd.1, Option.isSome_map, hi.query_isSome hd]

omit [DecidableEq V] in
theorem Covered.of_present (h : Present s d) : Covered s d := by
  obtain ⟨e, he, heq⟩ := h
  exact ⟨e, he, fun i => by rw [heq]; exact ⟨UInt64.le_refl _, UInt64.le_refl _⟩⟩

end

/-- After every run in one window the queries are right and the entries are those of the
table, and a deletion is right unless the box is contained in others only. -/
theorem rtable_exact [DecidableEq V] (k : Fin ndim → Nat) (ops : List (Op V))
    (hops : ∀ op ∈ ops, Allowed k op.datum) (d : Datum) (hd : Allowed k d) :
    Holds (run ops) (specRun ops) ∧ QueryExact (run ops) (specRun ops) d ∧
      (DelExact (run ops) (specRun ops) d ↔ (Covered (specRun ops) d → Present (specRun ops) d)) := by
  have hi := inv_run ops hops
  refine ⟨by rw [Holds, hi.rtree], ⟨by rw [hi.found hd], hi.query_isSome hd⟩, ?_⟩
  have hstep : Holds (step (run ops) (.del d)) (specStep (specRun ops) (.del d)) := by
    rw [Holds, hi.step_del hd]
  rw [DelExact, hi.del_isSome hd]
  constructor
  · rintro ⟨hiff, -⟩ hcovered
    exact hiff.mp hcovered
  · intro himp
    exact ⟨⟨himp, Covered.of_present⟩, hstep⟩

/-- The same bounds in every dimension. -/
def cube (l u : UInt64) : Datum := ⟨"", 0, .replicate 3 l, .replicate 3 u⟩

/-- A box added twice, under one that contains it: its entries are found and deleted. -/
theorem rtable_exact_nested :
    DelExact (run [.add (cube 0 4) 7, .add (cube 1 2) 8, .add (cube 1 2) (8 : Int32)])
      (specRun [.add (cube 0 4) 7, .add (cube 1 2) 8, .add (cube 1 2) 8]) (cube 1 2) := by
  have hwindow : ∀ op ∈ ([.add (cube 0 4) 7, .add (cube 1 2) 8, .add (cube 1 2) 8] : List (Op Int32)),
      Allowed (fun _ => 0) op.datum := by
    intro op hop
    simp only [List.mem_cons, List.not_mem_nil, or_false] at hop
    rcases hop with rfl | rfl | rfl <;> exact ⟨by decide +kernel, by unfold InWindow; decide +kernel⟩
  refine (rtable_exact (fun _ => 0) _ hwindow (cube 1 2)
    ⟨by decide +kernel, by unfold InWindow; decide +kernel⟩).2.2.mpr fun _ => ?_
  exact ⟨(corners (cube 1 2), 8), by decide +kernel, rfl⟩

/-- A deletion inside of the only box returns zero, and a box is found at coordinates that
are larger by 2^32. -/
theorem rtable_not_exact :
    ¬ DelExact (run [.add (cube 0 4) (7 : Int32)]) (specRun [.add (cube 0 4) 7]) (cube 1 2) ∧
      ¬ QueryExact (run [.add (cube 0 1) (7 : Int32)]) (specRun [.add (cube 0 1) 7])
        (cube (2 ^ 32) (2 ^ 32 + 1)) := by
  constructor
  · rintro ⟨hiff, -⟩
    obtain ⟨e, he, heq⟩ := hiff.mp (by decide +kernel)
    rw [specRun, List.foldl_cons, List.foldl_nil, specStep, List.nil_append, List.mem_singleton] at he
    rw [he] at heq
    exact absurd heq (by decide +kernel)
  · rintro ⟨-, hiff⟩
    obtain ⟨e, he, hwithin⟩ := hiff.mp (by decide +kernel)
    rw [specRun, List.foldl_cons, List.foldl_nil, specStep, List.nil_append, List.mem_singleton] at he
    rw [he] at hwithin
    exact absurd (hwithin 0).2 (by decide +kernel)

end RTable
