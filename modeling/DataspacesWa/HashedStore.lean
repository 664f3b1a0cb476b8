import Mathlib

/-!
# Stores keyed by a hash

A map whose entries are stored under the hash of their key, and keep nothing of
the key itself. A lookup gives the last entry stored under the same hash,
whichever key it was stored for.
-/
namespace HashedStore

open Function (update update_self update_of_ne)

variable {κ η ν : Type*} [DecidableEq η] {hash : κ → η}

/-- Store the entries one after the other. -/
def stores (hash : κ → η) (m : η → Option ν) (l : List (κ × ν)) : η → Option ν :=
  l.foldl (fun m e => update m (hash e.1) (some e.2)) m

/-- The last entry stored under the hash. -/
def lastUnder (hash : κ → η) (h : η) (l : List (κ × ν)) : Option (κ × ν) := l.findRev? fun e => hash e.1 = h

theorem findRev?_cons {α : Type*} (p : α → Bool) (a : α) (l : List α) :
    (a :: l).findRev? p = (l.findRev? p).or (if p a then some a else none) := by
  rw [List.findRev?]
  cases l.findRev? p with
  | none => cases p a <;> rfl
  | some b => rfl

theorem stores_eq (m : η → Option ν) (l : List (κ × ν)) (h : η) :
    stores hash m l h = ((lastUnder hash h l).map (·.2)).or (m h) := by
  induction l generalizing m with
  | nil => rfl
  | cons e l ih =>
    have hcons : stores hash m (e :: l) = stores hash (update m (hash e.1) (some e.2)) l := rfl
    rw [hcons, ih, lastUnder, lastUnder, findRev?_cons]
    cases l.findRev? fun e => decide (hash e.1 = h) with
    | some x => rfl
    | none =>
      by_cases he : hash e.1 = h
      · subst he
        rw [update_self]
        simp
      · rw [update_of_ne (Ne.symm he)]
        simp [he]

variable [DecidableEq κ]

/-- The last entry for the key. -/
def lastOf (k : κ) (l : List (κ × ν)) : Option (κ × ν) := l.findRev? fun e => e.1 = k

/-- Where something is stored for the key, something is stored under its hash. -/
theorem lastUnder_isSome {k : κ} {l : List (κ × ν)} (h : (lastOf k l).isSome) :
    (lastUnder hash (hash k) l).isSome := by
  induction l with
  | nil => exact h
  | cons e l ih =>
    unfold lastOf at h
    unfold lastUnder
    rw [findRev?_cons, Option.isSome_or, Bool.or_eq_true] at h ⊢
    rcases h with hl | he
    · exact .inl (ih hl)
    · by_cases hk : e.1 = k
      · exact .inr (by simp [hk])
      · simp [hk] at he

theorem lastUnder_own {k : κ} {e : κ × ν} {l : List (κ × ν)} (h : lastUnder hash (hash k) l = some e)
    (he : e.1 = k) : lastOf k l = some e := by
  induction l with
  | nil => cases h
  | cons a l ih =>
    unfold lastUnder at h
    unfold lastOf
    rw [findRev?_cons, Option.or_eq_some_iff] at h
    rw [findRev?_cons, Option.or_eq_some_iff]
    rcases h with hl | ⟨hl, ha⟩
    · exact .inl (ih hl)
    · have hae : a = e := by
        split at ha
        · exact Option.some.inj ha
        · cases ha
      subst hae
      refine .inr ⟨?_, by simp [he]⟩
      rw [List.findRev?_eq_find?_reverse, List.find?_eq_none] at hl ⊢
      intro x hx hxk
      have hxk : x.1 = k := by simpa using hxk
      exact hl x hx (by simp [hxk])

/-- What is stored last for the key is found exactly when what is stored last under its hash is for the key
too, or the same. -/
theorem stores_own_iff (m : η → Option ν) {l : List (κ × ν)} {k : κ} {v : ν} (h : lastOf k l = some (k, v)) :
    stores hash m l (hash k) = some v ↔ ∀ e, lastUnder hash (hash k) l = some e → e.1 = k ∨ e.2 = v := by
  have hunder : (lastUnder hash (hash k) l).isSome := lastUnder_isSome (by rw [h]; rfl)
  obtain ⟨e, he⟩ := Option.isSome_iff_exists.mp hunder
  rw [stores_eq, he]
  simp only [Option.map_some, Option.some_or, Option.some.injEq, forall_eq']
  constructor
  · exact .inr
  · rintro (hk | hv)
    · have hown := lastUnder_own he hk
      rw [h] at hown
      rw [← Option.some.inj hown]
    · exact hv

end HashedStore
