import Mathlib

/-!
# LZ78 parsing

The parse grows a partial phrase for as long as it is a phrase of the
dictionary, and completes it with the letter that takes it out of it. The
dictionary has all non-empty prefixes of its phrases, so the partial phrase is
a phrase again.
-/
namespace Lz78

structure Parse (α : Type*) where
  phrases : List (List α)
  part : List α
  deriving DecidableEq, Repr

variable {α : Type*} [DecidableEq α]

def start : Parse α := ⟨[], []⟩

def step (d : Parse α) (a : α) : Parse α :=
  if d.part ++ [a] ∈ d.phrases then { d with part := d.part ++ [a] }
  else ⟨d.phrases ++ [d.part ++ [a]], []⟩

def parse (l : List α) : Parse α := l.foldl step start

/-- How many phrases, the partial one included, start with `w`. -/
def count (d : Parse α) (w : List α) : Nat := (d.phrases ++ [d.part]).countP fun p => w <+: p

structure Closed (d : Parse α) : Prop where
  ne_nil : ∀ p ∈ d.phrases, p ≠ []
  part : d.part = [] ∨ d.part ∈ d.phrases
  prefixes : ∀ p ∈ d.phrases, ∀ w, w <+: p → w ≠ [] → w ∈ d.phrases

omit [DecidableEq α] in
theorem start_closed : Closed (start : Parse α) := ⟨(by rintro _ ⟨⟩), .inl rfl, (by rintro _ ⟨⟩)⟩

theorem step_closed {d : Parse α} (h : Closed d) (a : α) : Closed (step d a) := by
  unfold step
  split
  · rename_i hmem
    exact ⟨h.ne_nil, .inr hmem, h.prefixes⟩
  · refine ⟨?_, .inl rfl, ?_⟩
    · intro p hp
      rcases List.mem_append.mp hp with hp | hp
      · exact h.ne_nil p hp
      · obtain rfl := List.mem_singleton.mp hp
        simp
    · intro p hp w hw hne
      rcases List.mem_append.mp hp with hp | hp
      · exact List.mem_append_left _ (h.prefixes p hp w hw hne)
      · obtain rfl := List.mem_singleton.mp hp
        rcases List.prefix_concat_iff.mp hw with rfl | hpre
        · exact List.mem_append_right _ (List.mem_singleton_self _)
        · -- a prefix of the partial phrase is a prefix of a phrase
          rcases h.part with hnil | hpart
          · rw [hnil] at hpre
            exact absurd (List.prefix_nil.mp hpre) hne
          · exact List.mem_append_left _ (h.prefixes d.part hpart w hpre hne)

omit [DecidableEq α] in
/-- The prefixes that count are the phrases themselves. -/
theorem Closed.mem_iff {d : Parse α} (h : Closed d) (w : List α) :
    (w ≠ [] ∧ ∃ p ∈ d.phrases ++ [d.part], w <+: p) ↔ w ∈ d.phrases := by
  constructor
  · rintro ⟨hne, p, hp, hw⟩
    rcases List.mem_append.mp hp with hp | hp
    · exact h.prefixes p hp w hw hne
    · obtain rfl := List.mem_singleton.mp hp
      rcases h.part with hnil | hpart
      · rw [hnil] at hw
        exact absurd (List.prefix_nil.mp hw) hne
      · exact h.prefixes d.part hpart w hw hne
  · intro hw
    exact ⟨h.ne_nil w hw, w, List.mem_append_left _ hw, List.prefix_refl w⟩

/-- Going on with the partial phrase counts for the longer phrase alone. -/
theorem count_extend {d : Parse α} {a : α} (h : d.part ++ [a] ∈ d.phrases) (w : List α) :
    count (step d a) w = count d w + if w = d.part ++ [a] then 1 else 0 := by
  have hlonger : ¬d.part ++ [a] <+: d.part := fun hp => absurd hp.length_le (by simp)
  rw [step, if_pos h]
  simp only [count, List.countP_append, List.countP_singleton, decide_eq_true_eq, List.prefix_concat_iff]
  by_cases hw : w = d.part ++ [a]
  · subst hw
    simp [hlonger]
  · simp [hw]

/-- Completing a phrase leaves the counts of the others as they are. -/
theorem count_complete {d : Parse α} {a : α} (hclosed : Closed d) (h : d.part ++ [a] ∉ d.phrases) {w : List α}
    (hw : w ≠ []) : count (step d a) w = if w = d.part ++ [a] then 1 else count d w := by
  rw [step, if_neg h]
  simp only [count, List.countP_append, List.countP_singleton, decide_eq_true_eq, List.prefix_concat_iff,
    List.prefix_nil, hw, if_false, Nat.add_zero]
  by_cases hwa : w = d.part ++ [a]
  · subst hwa
    -- no phrase starts with a word that is not a phrase
    have hzero : d.phrases.countP (fun p => decide (d.part ++ [a] <+: p)) = 0 := by
      refine List.countP_eq_zero.mpr fun p hp hpre => h ?_
      exact hclosed.prefixes p hp _ (of_decide_eq_true hpre) hw
    simp [hzero]
  · simp [hwa]

/-! ## The parse of a word -/

theorem parse_concat (l : List α) (a : α) : parse (l ++ [a]) = step (parse l) a := List.foldl_append

theorem parse_closed (l : List α) : Closed (parse l) := by
  induction l using List.reverseRecOn with
  | nil => exact start_closed
  | append_singleton l a ih =>
    rw [parse_concat]
    exact step_closed ih a

/-- The phrases, one after the other, are what has been parsed. -/
theorem parse_flatten (l : List α) : (parse l).phrases.flatten ++ (parse l).part = l := by
  induction l using List.reverseRecOn with
  | nil => rfl
  | append_singleton l a ih =>
    rw [parse_concat, step]
    split
    · rw [← List.append_assoc, ih]
    · rw [List.flatten_append, List.flatten_singleton, List.append_nil, ← List.append_assoc, ih]

theorem parse_nodup (l : List α) : (parse l).phrases.Nodup := by
  induction l using List.reverseRecOn with
  | nil => exact List.nodup_nil
  | append_singleton l a ih =>
    rw [parse_concat, step]
    split
    · exact ih
    next hnew =>
      rw [← List.concat_eq_append]
      exact (List.nodup_concat _ _).mpr ⟨hnew, ih⟩

/-- Before a long phrase there are shorter ones, of each length. -/
theorem parse_long (l : List α) :
    ∀ p ∈ (parse l).phrases, p.length * (p.length + 1) ≤ 2 * ((parse l).phrases.map List.length).sum := by
  induction l using List.reverseRecOn with
  | nil =>
    intro p hp
    cases hp
  | append_singleton l a ih =>
    rw [parse_concat, step]
    split
    · exact ih
    intro p hp
    rw [List.map_append, List.sum_append, List.map_singleton, List.sum_singleton]
    rcases List.mem_append.mp hp with hold | hnew
    · exact (ih p hold).trans (by omega)
    · rw [List.mem_singleton.mp hnew, List.length_append, List.length_singleton]
      have hpart : (parse l).part.length * ((parse l).part.length + 1) ≤ 2 * ((parse l).phrases.map List.length).sum := by
        rcases (parse_closed l).part with hnil | hphrase
        · rw [hnil]
          exact Nat.zero_le _
        · exact ih _ hphrase
      have hgrow : ((parse l).part.length + 1) * ((parse l).part.length + 1 + 1) =
          (parse l).part.length * ((parse l).part.length + 1) + 2 * ((parse l).part.length + 1) := by ring
      omega

end Lz78
