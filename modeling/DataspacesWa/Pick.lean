import Mathlib

/-!
# Picking from a list

The place of the first greatest element, found by keeping the greatest so far,
and the place on which a number falls when the elements are laid end to end.
-/
namespace Pick

/-! ## The first greatest -/

section Max
variable {α : Type*} [LinearOrder α]

/-- The greatest so far is at `iMax`, and the list goes on at `i`. -/
def maxFrom : Nat → α → Nat → List α → Nat
  | _, _, iMax, [] => iMax
  | i, max, iMax, x :: xs => if max < x then maxFrom (i + 1) x i xs else maxFrom (i + 1) max iMax xs

structure IsFirstMax (xs : List α) (i : Nat) (x : α) : Prop where
  here : xs[i]? = some x
  le : ∀ (j : Nat) (y : α), xs[j]? = some y → y ≤ x
  lt : ∀ (j : Nat), j < i → ∀ y : α, xs[j]? = some y → y < x

variable {xs pre : List α} {i j : Nat} {x y : α}

theorem IsFirstMax.unique (h : IsFirstMax xs i x) (h' : IsFirstMax xs j y) : i = j := by
  rcases Nat.lt_trichotomy i j with hlt | heq | hlt
  · exact absurd (h.le j y h'.here) (not_le.mpr (h'.lt i hlt x h.here))
  · exact heq
  · exact absurd (h'.le i x h.here) (not_le.mpr (h.lt j hlt y h'.here))

theorem IsFirstMax.lt_length (h : IsFirstMax xs i x) : i < xs.length :=
  (List.getElem?_eq_some_iff.mp h.here).1

theorem isFirstMax_singleton (x : α) : IsFirstMax [x] 0 x where
  here := rfl
  le j y hy := by
    obtain ⟨rfl, rfl⟩ : j = 0 ∧ y = x := by
      cases j <;> simp_all
    exact le_rfl
  lt j hj := absurd hj (Nat.not_lt_zero j)

omit [LinearOrder α] in
theorem getElem?_concat (hy : (pre ++ [x])[j]? = some y) : pre[j]? = some y ∨ (j = pre.length ∧ y = x) := by
  rcases Nat.lt_trichotomy j pre.length with hlt | heq | hlt
  · rw [List.getElem?_append_left hlt] at hy
    exact .inl hy
  · subst heq
    rw [List.getElem?_concat_length, Option.some.injEq] at hy
    exact .inr ⟨rfl, hy.symm⟩
  · rw [List.getElem?_eq_none (by simpa using hlt)] at hy
    cases hy

theorem IsFirstMax.concat_of_lt (h : IsFirstMax pre i y) (hlt : y < x) : IsFirstMax (pre ++ [x]) pre.length x where
  here := List.getElem?_concat_length
  le j z hz := by
    rcases getElem?_concat hz with hz | ⟨-, rfl⟩
    · exact (h.le j z hz).trans hlt.le
    · exact le_rfl
  lt j hj z hz := by
    rcases getElem?_concat hz with hz | ⟨rfl, -⟩
    · exact lt_of_le_of_lt (h.le j z hz) hlt
    · exact absurd hj (lt_irrefl _)

theorem IsFirstMax.concat_of_le (h : IsFirstMax pre i y) (hle : x ≤ y) : IsFirstMax (pre ++ [x]) i y where
  here := by
    rw [List.getElem?_append_left h.lt_length]
    exact h.here
  le j z hz := by
    rcases getElem?_concat hz with hz | ⟨-, rfl⟩
    · exact h.le j z hz
    · exact hle
  lt j hj z hz := by
    rw [List.getElem?_append_left (hj.trans h.lt_length)] at hz
    exact h.lt j hj z hz

theorem exists_maxFrom (h : IsFirstMax pre i y) (xs : List α) :
    ∃ x, IsFirstMax (pre ++ xs) (maxFrom pre.length y i xs) x := by
  induction xs generalizing pre i y with
  | nil => exact ⟨y, by rwa [List.append_nil]⟩
  | cons x xs ih =>
    have hlen : pre.length + 1 = (pre ++ [x]).length := by simp
    rw [maxFrom, List.append_cons, hlen]
    split
    next hlt => exact ih (h.concat_of_lt hlt)
    next hle => exact ih (h.concat_of_le (not_lt.mp hle))

end Max

/-! ## Laid end to end -/

section Falls
variable {α : Type*} [AddCommMonoid α] [LinearOrder α]

/-- What lies before place `i` sums up to `sum`. -/
def fallsFrom (r : α) : Nat → α → List α → Option Nat
  | _, _, [] => none
  | i, sum, p :: ps => if r < sum + p then some i else fallsFrom r (i + 1) (sum + p) ps

/-- The number is below the end of place `i`, and of no place before. -/
structure FallsOn (r : α) (ps : List α) (i : Nat) : Prop where
  lt_length : i < ps.length
  lt : r < (ps.take (i + 1)).sum
  le : ∀ j < i, (ps.take (j + 1)).sum ≤ r

variable {r : α} {pre ps : List α} {i : Nat}

theorem fallsFrom_eq_some (hpre : ∀ j < pre.length, (pre.take (j + 1)).sum ≤ r)
    (h : fallsFrom r pre.length pre.sum ps = some i) : FallsOn r (pre ++ ps) i := by
  induction ps generalizing pre with
  | nil => cases h
  | cons p ps ih =>
    have hsum : pre.sum + p = (pre ++ [p]).sum := by simp
    rw [fallsFrom, hsum] at h
    split at h
    next hlt =>
      obtain rfl := Option.some.inj h
      refine ⟨by simp, ?_, fun j hj => ?_⟩
      · rwa [List.append_cons, List.take_append_of_le_length (by simp), List.take_of_length_le (by simp)]
      · rw [List.take_append_of_le_length hj]
        exact hpre j hj
    next hle =>
      have hlen : pre.length + 1 = (pre ++ [p]).length := by simp
      rw [hlen] at h
      rw [List.append_cons]
      refine ih (fun j hj => ?_) h
      rcases Nat.lt_or_ge j pre.length with hlt | hge
      · rw [List.take_append_of_le_length hlt]
        exact hpre j hlt
      · rw [List.take_of_length_le (by rw [← hlen]; omega)]
        exact not_lt.mp hle

theorem fallsOn_of_eq_some (h : fallsFrom r 0 0 ps = some i) : FallsOn r ps i := by
  have hnil : ∀ j < ([] : List α).length, (([] : List α).take (j + 1)).sum ≤ r :=
    fun j hj => absurd hj (Nat.not_lt_zero j)
  exact fallsFrom_eq_some hnil h

theorem FallsOn.unique {j : Nat} (h : FallsOn r ps i) (h' : FallsOn r ps j) : i = j := by
  rcases Nat.lt_trichotomy i j with hlt | heq | hlt
  · exact absurd h.lt (not_lt.mpr (h'.le i hlt))
  · exact heq
  · exact absurd h'.lt (not_lt.mpr (h.le j hlt))

theorem isSome_fallsFrom {sum : α} (hlt : i < ps.length) (h : r < sum + (ps.take (i + 1)).sum) (j : Nat) :
    (fallsFrom r j sum ps).isSome := by
  induction ps generalizing sum i j with
  | nil => exact absurd hlt (Nat.not_lt_zero i)
  | cons p ps ih =>
    rw [fallsFrom]
    split
    next => rfl
    next hle =>
      rw [List.take_succ_cons, List.sum_cons, ← add_assoc] at h
      cases i with
      | zero => exact absurd (by simpa using h) hle
      | succ i => exact ih (Nat.succ_lt_succ_iff.mp hlt) h (j + 1)

theorem fallsFrom_iff : fallsFrom r 0 0 ps = some i ↔ FallsOn r ps i := by
  constructor
  · exact fallsOn_of_eq_some
  · intro h
    have hsome : (fallsFrom r 0 0 ps).isSome := isSome_fallsFrom h.lt_length (by rw [zero_add]; exact h.lt) 0
    obtain ⟨j, hj⟩ := Option.isSome_iff_exists.mp hsome
    rw [hj, (fallsOn_of_eq_some hj).unique h]

end Falls

end Pick
