import Mathlib

/-!
# Thread pools

A pool lists what each thread is about to do; a thread is named by its place.
One step of a thread replaces its own entry and appends the threads it starts.
-/
namespace Pool

variable {θ : Type*}

/-- Thread `t` goes on at `th`, and the threads `new` are started. -/
def commit (pool : List θ) (t : Nat) (th : θ) (new : List θ) : List θ := pool.set t th ++ new

theorem commit_getElem? (pool : List θ) (t : Nat) (th : θ) (new : List θ) (i : Nat) :
    (commit pool t th new)[i]? =
      if i < pool.length then (if i = t then some th else pool[i]?) else new[i - pool.length]? := by
  unfold commit
  by_cases hi : i < pool.length
  · rw [List.getElem?_append_left (by simpa using hi), List.getElem?_set]
    by_cases ht : i = t
    · subst ht; simp [hi]
    · simp [hi, ht, Ne.symm ht]
  · rw [List.getElem?_append_right (by simpa using hi)]
    simp [hi]

/-- A thread after the step is the stepping one, an untouched one, or a new one. -/
theorem commit_cases {pool : List θ} {t i : Nat} {th x : θ} {new : List θ}
    (h : (commit pool t th new)[i]? = some x) :
    i = t ∧ x = th ∨ i ≠ t ∧ pool[i]? = some x ∨ pool.length ≤ i ∧ x ∈ new := by
  rw [commit_getElem?] at h
  by_cases hi : i < pool.length
  · by_cases ht : i = t
    · simp only [if_pos hi, if_pos ht, Option.some.injEq] at h
      exact .inl ⟨ht, h.symm⟩
    · simp only [if_pos hi, if_neg ht] at h
      exact .inr (.inl ⟨ht, h⟩)
  · simp only [if_neg hi] at h
    exact .inr (.inr ⟨by omega, List.mem_of_getElem? h⟩)

/-- Where no thread is started, the pool holds the stepping thread and the others as they were. -/
theorem commit_nil_cases {pool : List θ} {t i : Nat} {th x : θ}
    (h : (commit pool t th [])[i]? = some x) : i = t ∧ x = th ∨ i ≠ t ∧ pool[i]? = some x := by
  rcases commit_cases h with hc | hc | ⟨-, hc⟩
  · exact .inl hc
  · exact .inr hc
  · simp at hc

/-- A longer pool holds the old threads and the new one. -/
theorem append_cases {pool : List θ} {i : Nat} {th x : θ} (h : (pool ++ [th])[i]? = some x) :
    pool[i]? = some x ∨ i = pool.length ∧ x = th := by
  by_cases hlt : i < pool.length
  · exact .inl (by rwa [List.getElem?_append_left hlt] at h)
  · rw [List.getElem?_append_right (by omega)] at h
    obtain ⟨hz, rfl⟩ : i - pool.length = 0 ∧ th = x := by simpa [List.getElem?_singleton] using h
    exact .inr ⟨by omega, rfl⟩

theorem lt_of_getElem? {pool : List θ} {t : Nat} {x : θ} (h : pool[t]? = some x) :
    t < pool.length := (List.getElem?_eq_some_iff.mp h).1

theorem commit_self {pool : List θ} {t : Nat} {old : θ} (h : pool[t]? = some old)
    (th : θ) (new : List θ) : (commit pool t th new)[t]? = some th := by
  simp [commit_getElem?, lt_of_getElem? h]

/-- The threads that did not step are as they were. -/
theorem commit_other {pool : List θ} {t i : Nat} {x : θ} (h : pool[i]? = some x) (hi : i ≠ t)
    (th : θ) (new : List θ) : (commit pool t th new)[i]? = some x := by
  rw [commit_getElem?, if_pos (lt_of_getElem? h), if_neg hi, h]

theorem append_other {pool : List θ} {i : Nat} {x : θ} (h : pool[i]? = some x) (new : List θ) :
    (pool ++ new)[i]? = some x := by
  rwa [List.getElem?_append_left (lt_of_getElem? h)]

/-- Taking one entry out of a list leaves the others. -/
theorem mem_eraseIdx_or {l : List θ} {i : Nat} {x y : θ} (hi : l[i]? = some x) (hy : y ∈ l) :
    y ∈ l.eraseIdx i ∨ y = x := by
  obtain ⟨j, hj⟩ := List.getElem?_of_mem hy
  by_cases hji : j = i
  · subst hji
    exact .inr (Option.some.inj (hj.symm.trans hi))
  · exact .inl (List.mem_eraseIdx_iff_getElem?.mpr ⟨j, hji, hj⟩)

theorem countP_eraseIdx {l : List θ} {i : Nat} {x : θ} (h : l[i]? = some x) (p : θ → Bool) :
    (l.eraseIdx i).countP p + (if p x then 1 else 0) = l.countP p := by
  obtain ⟨hi, rfl⟩ := List.getElem?_eq_some_iff.mp h
  have hperm := (List.getElem_cons_eraseIdx_perm hi).countP_eq p
  rwa [List.countP_cons] at hperm

/-- Of what occurs at most once there is one place. -/
theorem eq_of_countP_le_one {l : List θ} {p : θ → Bool} (h : l.countP p ≤ 1) {i j : Nat} {x y : θ}
    (hi : l[i]? = some x) (hx : p x = true) (hj : l[j]? = some y) (hy : p y = true) : i = j := by
  by_contra hij
  have hcount := countP_eraseIdx hi p
  have hmem : y ∈ l.eraseIdx i := List.mem_eraseIdx_iff_getElem?.mpr ⟨j, Ne.symm hij, hj⟩
  have hpos := List.countP_pos_iff.mpr ⟨y, hmem, hy⟩
  rw [if_pos hx] at hcount
  omega

/-- How the number of threads with a property changes in one step. -/
theorem commit_countP {pool : List θ} {t : Nat} {old : θ} (h : pool[t]? = some old)
    (p : θ → Bool) (th : θ) (new : List θ) :
    (commit pool t th new).countP p + (if p old then 1 else 0) =
      pool.countP p + (if p th then 1 else 0) + new.countP p := by
  obtain ⟨ht, rfl⟩ := List.getElem?_eq_some_iff.mp h
  have hpos : p pool[t] = true → 0 < pool.countP p := fun hp =>
    List.countP_pos_iff.mpr ⟨_, List.getElem_mem ht, hp⟩
  rw [commit, List.countP_append, List.countP_set ht]
  split <;> rename_i hp
  · have := hpos hp
    omega
  · omega

/-- How a sum over the threads changes when one is replaced, or taken out. -/
theorem sum_map_set {pool : List θ} {t : Nat} {old : θ} (h : pool[t]? = some old) (w : θ → Nat) (th : θ) :
    ((pool.set t th).map w).sum + w old = (pool.map w).sum + w th := by
  induction pool generalizing t with
  | nil => simp at h
  | cons x pool ih =>
    cases t with
    | zero =>
      obtain rfl : x = old := by simpa using h
      simp only [List.set_cons_zero, List.map_cons, List.sum_cons]
      omega
    | succ t =>
      have hsum := ih (t := t) (by simpa using h)
      simp only [List.set_cons_succ, List.map_cons, List.sum_cons]
      omega

theorem sum_map_eraseIdx {pool : List θ} {t : Nat} {x : θ} (h : pool[t]? = some x) (w : θ → Nat) :
    ((pool.eraseIdx t).map w).sum + w x = (pool.map w).sum := by
  obtain ⟨hlt, rfl⟩ := List.getElem?_eq_some_iff.mp h
  have hperm := ((List.getElem_cons_eraseIdx_perm hlt).map w).sum_eq
  rw [List.map_cons, List.sum_cons] at hperm
  omega

/-! ## Two pools -/

section Related
variable {ι : Type*} {R : θ → ι → Prop} {pool : List θ} {pool' : List ι}

theorem related_getElem? (h : List.Forall₂ R pool pool') {k : Nat} {x : θ} (hx : pool[k]? = some x) :
    ∃ y, pool'[k]? = some y ∧ R x y := by
  induction h generalizing k with
  | nil => simp at hx
  | cons hr _ ih =>
    cases k with
    | zero =>
      obtain rfl := Option.some.inj hx
      exact ⟨_, rfl, hr⟩
    | succ k => exact ih hx

theorem related_eraseIdx (h : List.Forall₂ R pool pool') (k : Nat) :
    List.Forall₂ R (pool.eraseIdx k) (pool'.eraseIdx k) := by
  induction h generalizing k with
  | nil => exact .nil
  | cons hr htail ih =>
    cases k with
    | zero => exact htail
    | succ k => exact .cons hr (ih k)

end Related

end Pool
