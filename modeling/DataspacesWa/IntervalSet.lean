import Mathlib

/-!
# Sets of intervals

A set of numbers is kept as the list of its maximal intervals, in order. An
interval that is inserted is joined with all it overlaps or touches, so that a
set has one list only.
-/

/-- Every interval has a member, and between two of them one number at least is missing. -/
def IntervalSet.Separated (ivs : List (Nat × Nat)) : Prop :=
  (∀ iv ∈ ivs, iv.1 ≤ iv.2) ∧ ivs.Pairwise fun a b => a.2 + 1 < b.1

structure IntervalSet where
  ivs : List (Nat × Nat)
  separated : IntervalSet.Separated ivs

namespace IntervalSet

def covers (ivs : List (Nat × Nat)) (x : Nat) : Prop := ∃ iv ∈ ivs, iv.1 ≤ x ∧ x ≤ iv.2

instance membership : Membership Nat IntervalSet := ⟨fun S x => covers S.ivs x⟩

theorem mem_def (S : IntervalSet) (x : Nat) : x ∈ S ↔ ∃ iv ∈ S.ivs, iv.1 ≤ x ∧ x ≤ iv.2 := Iff.rfl

def empty : IntervalSet := ⟨[], by simp [Separated]⟩

theorem not_mem_empty (x : Nat) : x ∉ empty := by simp [mem_def, empty]

/-! ## Insertion -/

/-- The intervals that overlap or touch `[lo, hi]` are joined with it. -/
def glue (lo hi : Nat) : List (Nat × Nat) → List (Nat × Nat)
  | [] => [(lo, hi)]
  | iv :: ivs =>
    if iv.2 + 1 < lo then iv :: glue lo hi ivs
    else if hi + 1 < iv.1 then (lo, hi) :: iv :: ivs
    else glue (min lo iv.1) (max hi iv.2) ivs

theorem covers_cons (iv : Nat × Nat) (ivs : List (Nat × Nat)) (x : Nat) :
    covers (iv :: ivs) x ↔ iv.1 ≤ x ∧ x ≤ iv.2 ∨ covers ivs x := by
  simp [covers]

theorem covers_glue {ivs : List (Nat × Nat)} (hivs : ∀ iv ∈ ivs, iv.1 ≤ iv.2) {lo hi : Nat} (h : lo ≤ hi)
    (x : Nat) : covers (glue lo hi ivs) x ↔ lo ≤ x ∧ x ≤ hi ∨ covers ivs x := by
  induction ivs generalizing lo hi with
  | nil => simp [glue, covers]
  | cons iv ivs ih =>
    have hiv : iv.1 ≤ iv.2 := hivs iv List.mem_cons_self
    have hrest : ∀ iv ∈ ivs, iv.1 ≤ iv.2 := fun iv h => hivs iv (List.mem_cons_of_mem _ h)
    rw [glue]
    split
    · rw [covers_cons, ih hrest h, covers_cons]
      tauto
    · split
      · rw [covers_cons]
      · -- what the joined interval has is in one of the two
        have hjoin : min lo iv.1 ≤ x ∧ x ≤ max hi iv.2 ↔ lo ≤ x ∧ x ≤ hi ∨ iv.1 ≤ x ∧ x ≤ iv.2 := by omega
        rw [ih hrest (by omega), covers_cons, hjoin, or_assoc]

/-- Nothing begins below the inserted interval and the old ones. -/
theorem glue_ge {ivs : List (Nat × Nat)} {lo hi b : Nat} (hlo : b ≤ lo) (hivs : ∀ iv ∈ ivs, b ≤ iv.1) :
    ∀ iv ∈ glue lo hi ivs, b ≤ iv.1 := by
  induction ivs generalizing lo hi with
  | nil => simpa [glue] using hlo
  | cons iv ivs ih =>
    have hiv : b ≤ iv.1 := hivs iv List.mem_cons_self
    have hrest : ∀ iv ∈ ivs, b ≤ iv.1 := fun iv h => hivs iv (List.mem_cons_of_mem _ h)
    rw [glue]
    split
    · exact List.forall_mem_cons.mpr ⟨hiv, ih hlo hrest⟩
    · split
      · exact List.forall_mem_cons.mpr ⟨hlo, hivs⟩
      · exact ih (le_min hlo hiv) hrest

theorem glue_separated {ivs : List (Nat × Nat)} (hivs : Separated ivs) {lo hi : Nat} (h : lo ≤ hi) :
    Separated (glue lo hi ivs) := by
  induction ivs generalizing lo hi with
  | nil => simpa [glue, Separated] using h
  | cons iv ivs ih =>
    obtain ⟨hle, hpair⟩ := hivs
    rw [List.pairwise_cons] at hpair
    have hiv : iv.1 ≤ iv.2 := hle iv List.mem_cons_self
    have hrest : Separated ivs := ⟨fun iv h => hle iv (List.mem_cons_of_mem _ h), hpair.2⟩
    rw [glue]
    split
    next hbefore =>
      obtain ⟨hle', hpair'⟩ := ih hrest h
      refine ⟨List.forall_mem_cons.mpr ⟨hiv, hle'⟩, List.pairwise_cons.mpr ⟨fun b hb => ?_, hpair'⟩⟩
      have hge : ∀ iv' ∈ glue lo hi ivs, iv.2 + 2 ≤ iv'.1 :=
        glue_ge (by omega) fun iv' h' => hpair.1 iv' h'
      exact hge b hb
    next =>
      split
      next hafter =>
        refine ⟨List.forall_mem_cons.mpr ⟨h, hle⟩, List.pairwise_cons.mpr ⟨?_, List.pairwise_cons.mpr hpair⟩⟩
        intro b hb
        rcases List.mem_cons.mp hb with rfl | hb
        · exact hafter
        · have hgap := hpair.1 b hb
          change hi + 1 < b.1
          omega
      next => exact ih hrest (by omega)

/-- `closed(lo, hi)`; an empty interval changes nothing. -/
def insert (S : IntervalSet) (lo hi : Nat) : IntervalSet :=
  if h : lo ≤ hi then ⟨glue lo hi S.ivs, glue_separated S.separated h⟩ else S

theorem mem_insert (S : IntervalSet) (lo hi x : Nat) : x ∈ S.insert lo hi ↔ lo ≤ x ∧ x ≤ hi ∨ x ∈ S := by
  rw [insert]
  split
  next h => exact covers_glue S.separated.1 h x
  next h =>
    constructor
    · exact Or.inr
    · rintro (hx | hx)
      · omega
      · exact hx

/-- Many intervals, one after the other. -/
def insertAll (S : IntervalSet) (ivs : List (Nat × Nat)) : IntervalSet :=
  ivs.foldl (fun S iv => S.insert iv.1 iv.2) S

theorem mem_insertAll (S : IntervalSet) (ivs : List (Nat × Nat)) (x : Nat) :
    x ∈ S.insertAll ivs ↔ x ∈ S ∨ covers ivs x := by
  induction ivs generalizing S with
  | nil => simp [insertAll, covers]
  | cons iv ivs ih =>
    have hstep : S.insertAll (iv :: ivs) = (S.insert iv.1 iv.2).insertAll ivs := rfl
    rw [hstep, ih, mem_insert, covers_cons]
    tauto

/-! ## One list for a set -/

theorem covers_ge {ivs : List (Nat × Nat)} {b x : Nat} (hivs : ∀ iv ∈ ivs, b ≤ iv.1) (hx : covers ivs x) :
    b ≤ x := by
  obtain ⟨iv, hiv, hlo, -⟩ := hx
  exact (hivs iv hiv).trans hlo

theorem separated_ext {l m : List (Nat × Nat)} (hl : Separated l) (hm : Separated m)
    (h : ∀ x, covers l x ↔ covers m x) : l = m := by
  induction l generalizing m with
  | nil =>
    cases m with
    | nil => rfl
    | cons iv m =>
      have hiv := (h iv.1).mpr ⟨iv, List.mem_cons_self, le_rfl, hm.1 iv List.mem_cons_self⟩
      simp [covers] at hiv
  | cons a l ih =>
    have ha := hl.1 a List.mem_cons_self
    cases m with
    | nil =>
      have hiv := (h a.1).mp ⟨a, List.mem_cons_self, le_rfl, ha⟩
      simp [covers] at hiv
    | cons b m =>
      have hb := hm.1 b List.mem_cons_self
      obtain ⟨hla, hlp⟩ := List.pairwise_cons.mp hl.2
      obtain ⟨hmb, hmp⟩ := List.pairwise_cons.mp hm.2
      have hlge : ∀ x, covers l x → a.2 + 2 ≤ x := fun x hx => covers_ge (fun iv hiv => hla iv hiv) hx
      have hmge : ∀ x, covers m x → b.2 + 2 ≤ x := fun x hx => covers_ge (fun iv hiv => hmb iv hiv) hx
      have hx : ∀ x, a.1 ≤ x ∧ x ≤ a.2 ∨ covers l x ↔ b.1 ≤ x ∧ x ≤ b.2 ∨ covers m x := by
        intro x
        rw [← covers_cons, ← covers_cons, h]
      -- the least members agree, and so do the first numbers missing after them
      have hlo : a.1 = b.1 := by
        rcases (hx a.1).mp (Or.inl ⟨le_rfl, ha⟩) with h1 | h1 <;>
          rcases (hx b.1).mpr (Or.inl ⟨le_rfl, hb⟩) with h2 | h2
        · omega
        · have := hlge _ h2
          omega
        · have := hmge _ h1
          omega
        · have hl' := hlge _ h2
          have hm' := hmge _ h1
          omega
      have hhi : a.2 = b.2 := by
        rcases Nat.lt_trichotomy a.2 b.2 with hlt | heq | hgt
        · rcases (hx (a.2 + 1)).mpr (Or.inl (by omega)) with h1 | h1
          · omega
          · have := hlge _ h1
            omega
        · exact heq
        · rcases (hx (b.2 + 1)).mp (Or.inl (by omega)) with h1 | h1
          · omega
          · have := hmge _ h1
            omega
      have hrest : ∀ x, covers l x ↔ covers m x := by
        intro x
        constructor
        · intro hxl
          have hge := hlge x hxl
          rcases (hx x).mp (Or.inr hxl) with h1 | h1
          · omega
          · exact h1
        · intro hxm
          have hge := hmge x hxm
          rcases (hx x).mpr (Or.inr hxm) with h1 | h1
          · omega
          · exact h1
      have htail : l = m := ih ⟨fun iv hiv => hl.1 iv (List.mem_cons_of_mem _ hiv), hlp⟩
        ⟨fun iv hiv => hm.1 iv (List.mem_cons_of_mem _ hiv), hmp⟩ hrest
      rw [htail, Prod.ext hlo hhi]

/-! ## The intervals of a set -/

/-- All numbers from `a` to `b` have the property, and those next to them have not. -/
structure IsRun (P : Nat → Prop) (a b : Nat) : Prop where
  le : a ≤ b
  all : ∀ x, a ≤ x → x ≤ b → P x
  before : ∀ x, x + 1 = a → ¬P x
  after : ¬P (b + 1)

theorem eq_or_apart (S : IntervalSet) {iv iv' : Nat × Nat} (h : iv ∈ S.ivs) (h' : iv' ∈ S.ivs) :
    iv = iv' ∨ iv.2 + 1 < iv'.1 ∨ iv'.2 + 1 < iv.1 := by
  have hpair : S.ivs.Pairwise fun iv iv' => iv = iv' ∨ iv.2 + 1 < iv'.1 ∨ iv'.2 + 1 < iv.1 :=
    S.separated.2.imp fun hlt => .inr (.inl hlt)
  have hflip : S.ivs.Pairwise (flip fun iv iv' => iv = iv' ∨ iv.2 + 1 < iv'.1 ∨ iv'.2 + 1 < iv.1) :=
    S.separated.2.imp fun hlt => .inr (.inr hlt)
  exact hpair.forall_of_forall_of_flip (fun _ _ => .inl rfl) hflip h h'

theorem isRun_of_mem {S : IntervalSet} {iv : Nat × Nat} (h : iv ∈ S.ivs) : IsRun (fun x => x ∈ S) iv.1 iv.2 := by
  have hle := S.separated.1 iv h
  refine ⟨hle, fun x hlo hhi => ⟨iv, h, hlo, hhi⟩, ?_, ?_⟩
  · rintro x hx ⟨iv', hiv', hlo, hhi⟩
    rcases S.eq_or_apart h hiv' with rfl | hlt | hlt <;> omega
  · rintro ⟨iv', hiv', hlo, hhi⟩
    rcases S.eq_or_apart h hiv' with rfl | hlt | hlt <;> omega

/-- The intervals of a set are the runs of its members. -/
theorem mem_ivs_iff (S : IntervalSet) {a b : Nat} : (a, b) ∈ S.ivs ↔ IsRun (fun x => x ∈ S) a b := by
  constructor
  · exact fun h => isRun_of_mem h
  · intro h
    obtain ⟨iv, hiv, hlo, hhi⟩ := h.all a le_rfl h.le
    have hrun := isRun_of_mem hiv
    have hfirst : iv.1 = a := by
      by_contra hne
      exact h.before (a - 1) (by omega) (hrun.all (a - 1) (by omega) (by omega))
    have hlast : iv.2 = b := by
      rcases Nat.lt_trichotomy iv.2 b with hlt | heq | hgt
      · exact absurd (h.all (iv.2 + 1) (by omega) (by omega)) hrun.after
      · exact heq
      · exact absurd (hrun.all (b + 1) (by have := h.le; omega) (by omega)) h.after
    rwa [show (a, b) = iv from Prod.ext hfirst.symm hlast.symm]

/-- Two sets of intervals with the same members are the same list. -/
theorem ext_mem {S T : IntervalSet} (h : ∀ x, x ∈ S ↔ x ∈ T) : S = T := by
  obtain ⟨l, hl⟩ := S
  obtain ⟨m, hm⟩ := T
  obtain rfl : l = m := separated_ext hl hm h
  rfl

end IntervalSet
