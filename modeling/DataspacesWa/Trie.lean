import Mathlib

/-!
# Counting tries

A trie gives to each path that is in it the number of its visits, and to each
path what its children have together. A walk moves down along paths, visiting
old ones and growing new ones, and returns to the root, which is visited then.
Whatever the walk, what has been visited comes out again below.
-/
namespace Trie

open Function (update update_self update_of_ne update_idem update_comm)

structure State (K : Type*) where
  visits : List K → Option Nat
  below : List K → Nat

variable {K : Type*} [DecidableEq K]

def empty : State K := ⟨update (fun _ => none) [] (some 0), fun _ => 0⟩

/-- One more visit of the child `k` of `w`. -/
def visit (T : State K) (w : List K) (k : K) : State K where
  visits := update T.visits (w ++ [k]) ((T.visits (w ++ [k])).map (· + 1))
  below := update T.below w (T.below w + 1)

/-- A new child of `w`, visited `m` times. -/
def grow (T : State K) (w : List K) (k : K) (m : Nat) : State K where
  visits := update T.visits (w ++ [k]) (some m)
  below := update (update T.below (w ++ [k]) 0) w (T.below w + m)

/-- A child that is grown and then visited is grown with one visit. -/
theorem visit_grow (T : State K) (w : List K) (k : K) : visit (grow T w k 0) w k = grow T w k 1 := by
  have hne : w ++ [k] ≠ w := by simp
  simp only [visit, grow, update_self, Option.map_some, State.mk.injEq]
  refine ⟨update_idem _ _ _, ?_⟩
  funext u
  by_cases hu : u = w
  · simp [hu]
  · simp [update_of_ne hu]

/-- One more visit of the root. -/
def home (T : State K) : State K := { T with visits := update T.visits [] ((T.visits []).map (· + 1)) }

/-- One move down, to an old child or to a new one. -/
def descend (T : State K) (w : List K) (k : K) : State K :=
  if (T.visits (w ++ [k])).isSome then visit T w k else grow T w k 1

/-- A whole walk down from `w`. -/
def descendAll (T : State K) (w : List K) : List K → State K
  | [] => T
  | k :: ks => descendAll (descend T w k) (w ++ [k]) ks

section Visits
variable (T : State K) (w : List K) (k : K)

theorem visit_visits :
    (visit T w k).visits = update T.visits (w ++ [k]) ((T.visits (w ++ [k])).map (· + 1)) := rfl

theorem grow_visits (m : Nat) : (grow T w k m).visits = update T.visits (w ++ [k]) (some m) := rfl

theorem home_visits : (home T).visits = update T.visits [] ((T.visits []).map (· + 1)) := rfl

/-- Old or new, the child has one visit more. -/
theorem descend_visits :
    (descend T w k).visits = update T.visits (w ++ [k]) (some ((T.visits (w ++ [k])).getD 0 + 1)) := by
  unfold descend
  split
  · rename_i hold
    obtain ⟨m, hm⟩ := Option.isSome_iff_exists.mp hold
    simp [visit_visits, hm]
  · rename_i hnew
    rw [Option.not_isSome_iff_eq_none] at hnew
    simp [grow_visits, hnew]

theorem descend_old (h : (T.visits (w ++ [k])).isSome) : descend T w k = visit T w k := if_pos h

theorem descend_new (h : T.visits (w ++ [k]) = none) : descend T w k = grow T w k 1 := by
  simp [descend, h]

/-- A walk moves the same way before and after a visit of the root. -/
theorem descend_home : descend (home T) w k = home (descend T w k) := by
  have hne : w ++ [k] ≠ [] := by simp
  have hvisits : (home T).visits (w ++ [k]) = T.visits (w ++ [k]) := by
    rw [home_visits, update_of_ne hne]
  unfold descend
  rw [hvisits]
  split
  · simp only [visit, home, State.mk.injEq, and_true, update_of_ne hne, update_of_ne hne.symm]
    exact (update_comm hne _ _ _).symm
  · simp only [grow, home, State.mk.injEq, and_true, update_of_ne hne.symm]
    exact (update_comm hne _ _ _).symm

theorem descendAll_concat (ks : List K) :
    descendAll T w (ks ++ [k]) = descend (descendAll T w ks) (w ++ ks) k := by
  induction ks generalizing T w with
  | nil => simp [descendAll]
  | cons x ks ih => simp [descendAll, ih]

/-- A walk counts once for each path that it comes through. -/
theorem descendAll_visits (ks u : List K) : (descendAll T w ks).visits u =
    if w <+: u ∧ u ≠ w ∧ u <+: w ++ ks then some ((T.visits u).getD 0 + 1) else T.visits u := by
  induction ks generalizing T w with
  | nil =>
    have hnot : ¬(w <+: u ∧ u ≠ w ∧ u <+: w ++ []) := by
      rintro ⟨hwu, hne, huw⟩
      rw [List.append_nil] at huw
      exact hne (huw.eq_of_length (Nat.le_antisymm huw.length_le hwu.length_le))
    rw [if_neg hnot, descendAll]
  | cons k ks ih =>
    rw [descendAll, ih, descend_visits]
    by_cases huk : u = w ++ [k]
    · subst huk
      have hhere : w <+: w ++ [k] ∧ w ++ [k] ≠ w ∧ w ++ [k] <+: w ++ k :: ks :=
        ⟨List.prefix_append _ _, by simp, by simp⟩
      rw [if_neg (fun hbelow => hbelow.2.1 rfl), if_pos hhere, update_self]
    · have hbelow : (w ++ [k] <+: u ∧ u ≠ w ++ [k] ∧ u <+: w ++ [k] ++ ks) ↔
          (w <+: u ∧ u ≠ w ∧ u <+: w ++ k :: ks) := by
        rw [List.append_assoc, List.singleton_append]
        constructor
        · rintro ⟨hpre, -, hu⟩
          refine ⟨(List.prefix_append w [k]).trans hpre, ?_, hu⟩
          rintro rfl
          exact absurd hpre.length_le (by simp)
        · rintro ⟨⟨r, rfl⟩, hne, hu⟩
          rw [List.prefix_append_right_inj] at hu
          cases r with
          | nil => exact absurd (List.append_nil w) hne
          | cons a r =>
            obtain ⟨rfl, -⟩ := List.cons_prefix_cons.mp hu
            exact ⟨by simp, huk, by simpa using hu⟩
      rw [update_of_ne huk]
      simp only [hbelow]

end Visits

/-- Each visit of a path went on below it, but for the one the cursor is at now; a path
where walks end is not counted. The walks that have left the root are one more than
those that have come back while there is one on its way. -/
structure Balanced (stop : List K → Prop) (T : State K) (cur : List K) : Prop where
  below : ∀ w m, T.visits w = some m → w ≠ [] → ¬stop w → T.below w + (if w = cur then 1 else 0) = m
  root : ∀ m, T.visits [] = some m → T.below [] = m + if cur = [] then 0 else 1

section Balanced
variable {stop : List K → Prop} {T : State K} {w : List K} {k : K}

omit [DecidableEq K] in
theorem append_singleton_ne (w : List K) (k : K) : w ++ [k] ≠ w := by
  simp

theorem Balanced.empty : Balanced stop (empty : State K) [] where
  below w m hw hne := by
    simp [Trie.empty, update_of_ne hne] at hw
  root m hm := by
    simp only [Trie.empty, update_self, Option.some.injEq] at hm
    simp [Trie.empty, ← hm]

/-- To go down to an old child is to visit it. -/
theorem Balanced.visit (h : Balanced stop T w) : Balanced stop (visit T w k) (w ++ [k]) where
  below u m hu hne hstop := by
    by_cases huk : u = w ++ [k]
    · subst huk
      simp only [Trie.visit, update_self, Option.map_eq_some_iff] at hu
      obtain ⟨m', hm', rfl⟩ := hu
      have hold := h.below _ _ hm' hne hstop
      rw [if_neg (append_singleton_ne w k), Nat.add_zero] at hold
      simp [Trie.visit, hold]
    · simp only [Trie.visit, update_of_ne huk] at hu ⊢
      have hold := h.below u m hu hne hstop
      by_cases huw : u = w
      · subst huw
        simpa [huk] using hold
      · simpa [huk, huw] using hold
  root m hm := by
    have hnil : ([] : List K) ≠ w ++ [k] := by simp
    simp only [Trie.visit, update_of_ne hnil] at hm ⊢
    have hold := h.root m hm
    by_cases hw : w = []
    · subst hw
      simpa using hold
    · simpa [update_of_ne (Ne.symm hw), hw] using hold

/-- To go down to a new child is to grow it with one visit. -/
theorem Balanced.grow (h : Balanced stop T w) : Balanced stop (grow T w k 1) (w ++ [k]) where
  below u m hu hne hstop := by
    by_cases huk : u = w ++ [k]
    · subst huk
      simp only [Trie.grow, update_self, Option.some.injEq] at hu
      simp [Trie.grow, hu]
    · simp only [Trie.grow, update_of_ne huk] at hu ⊢
      have hold := h.below u m hu hne hstop
      by_cases huw : u = w
      · subst huw
        simpa [huk] using hold
      · simpa [huk, huw] using hold
  root m hm := by
    have hnil : ([] : List K) ≠ w ++ [k] := by simp
    simp only [Trie.grow, update_of_ne hnil] at hm ⊢
    have hold := h.root m hm
    by_cases hw : w = []
    · subst hw
      simpa using hold
    · simpa [update_of_ne (Ne.symm hw), update_of_ne hnil, hw] using hold

theorem Balanced.descend (h : Balanced stop T w) : Balanced stop (descend T w k) (w ++ [k]) := by
  unfold Trie.descend
  split
  · exact h.visit
  · exact h.grow

theorem Balanced.descendAll (h : Balanced stop T w) (ks : List K) :
    Balanced stop (descendAll T w ks) (w ++ ks) := by
  induction ks generalizing T w with
  | nil => simpa [Trie.descendAll] using h
  | cons k ks ih => simpa [Trie.descendAll] using ih (h.descend (k := k))

/-- From where walks end the cursor goes back to the root. -/
theorem Balanced.home (h : Balanced stop T w) (hw : stop w) (hne : w ≠ []) : Balanced stop (home T) [] where
  below u m hu hune hstop := by
    simp only [Trie.home, update_of_ne hune] at hu ⊢
    have huw : u ≠ w := by
      rintro rfl
      exact hstop hw
    simpa [huw, hune] using h.below u m hu hune hstop
  root m hm := by
    simp only [Trie.home, update_self, Option.map_eq_some_iff] at hm ⊢
    obtain ⟨m', hm', rfl⟩ := hm
    simpa [hne] using h.root m' hm'

end Balanced

end Trie
