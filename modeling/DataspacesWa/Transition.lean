import Mathlib

/-!
# Runs of a labelled step function

A step function takes a state and a label to the next state, or to `none`
where the label is not enabled. A run is taken either freely or only by steps
that meet a condition on the label and the state before the step.
-/
namespace Transition

variable {σ α : Type*}

/-- Take the labels one after the other; `none` as soon as one is not enabled. -/
def run (step : σ → α → Option σ) : List α → σ → Option σ
  | [], s => some s
  | a :: tail, s => (step s a).bind (run step tail)

/-- The same run, refused as soon as a step does not meet the condition. -/
def runWhere (step : σ → α → Option σ) (ok : σ → α → Prop) [∀ s a, Decidable (ok s a)] :
    List α → σ → Option σ
  | [], s => some s
  | a :: tail, s => if ok s a then (step s a).bind (runWhere step ok tail) else none

/-- One enabled step whose label meets the condition. -/
def Step (step : σ → α → Option σ) (ok : σ → α → Prop) (s s' : σ) : Prop :=
  ∃ a, ok s a ∧ step s a = some s'

/-- The states a run can reach when each of its steps meets the condition. -/
def Reaches (step : σ → α → Option σ) (ok : σ → α → Prop) : σ → σ → Prop :=
  Relation.ReflTransGen (Step step ok)

/-- The condition every step meets: the runs are all the runs. -/
def free : σ → α → Prop := fun _ _ => True

variable {step : σ → α → Option σ} {ok : σ → α → Prop} {s t : σ}

/-- What holds at the start and survives each allowed step holds in every state reached. -/
theorem Reaches.invariant (h : Reaches step ok s t) (Inv : σ → Prop) (start : Inv s)
    (preserved : ∀ u a u', Inv u → ok u a → step u a = some u' → Inv u') : Inv t := by
  induction h with
  | refl => exact start
  | tail _ last ih =>
    obtain ⟨a, ha, hs⟩ := last
    exact preserved _ a _ ih ha hs

/-- A stronger condition reaches no more states. -/
theorem Reaches.mono {ok' : σ → α → Prop} (h : Reaches step ok s t) (weaker : ∀ u a, ok u a → ok' u a) :
    Reaches step ok' s t :=
  Relation.ReflTransGen.mono (fun _ _ ⟨a, ha, hs⟩ => ⟨a, weaker _ a ha, hs⟩) _ _ h

/-- What each allowed step of one function does, some allowed steps of another one follow. -/
theorem Reaches.follow {τ β : Type*} {step' : τ → β → Option τ} {ok' : τ → β → Prop} {R : σ → τ → Prop} {s' : τ}
    (h : Reaches step ok s t) (start : R s s')
    (follows : ∀ u a u' v, R u v → ok u a → step u a = some u' → ∃ v', Reaches step' ok' v v' ∧ R u' v') :
    ∃ t', Reaches step' ok' s' t' ∧ R t t' := by
  induction h with
  | refl => exact ⟨s', .refl, start⟩
  | tail _ last ih =>
    obtain ⟨a, ha, hs⟩ := last
    obtain ⟨v, hv, hrel⟩ := ih
    obtain ⟨v', hv', hrel'⟩ := follows _ a _ v hrel ha hs
    exact ⟨v', hv.trans hv', hrel'⟩

theorem run_reaches (labels : List α) (h : run step labels s = some t) :
    Reaches step free s t := by
  induction labels generalizing s with
  | nil =>
    obtain rfl : s = t := by simpa [run] using h
    exact .refl
  | cons a tail ih =>
    obtain ⟨u, hu, ht⟩ := Option.bind_eq_some_iff.mp h
    exact .head ⟨a, trivial, hu⟩ (ih ht)

theorem runWhere_reaches [∀ s a, Decidable (ok s a)] (labels : List α)
    (h : runWhere step ok labels s = some t) : Reaches step ok s t := by
  induction labels generalizing s with
  | nil =>
    obtain rfl : s = t := by simpa [runWhere] using h
    exact .refl
  | cons a tail ih =>
    by_cases ha : ok s a
    · rw [runWhere, if_pos ha] at h
      obtain ⟨u, hu, ht⟩ := Option.bind_eq_some_iff.mp h
      exact .head ⟨a, ha, hu⟩ (ih ht)
    · simp [runWhere, ha] at h

theorem runWhere_congr {step' : σ → α → Option σ} [∀ s a, Decidable (ok s a)]
    (h : ∀ s a, ok s a → step s a = step' s a) (labels : List α) (s : σ) :
    runWhere step ok labels s = runWhere step' ok labels s := by
  induction labels generalizing s with
  | nil => rfl
  | cons a tail ih =>
    rw [runWhere, runWhere]
    split
    · next ha => rw [h s a ha, funext ih]
    · rfl

/-- A run whose last state passes a test reaches a state that passes it. -/
theorem run_reaches_of_any (step : σ → α → Option σ) (s : σ) (labels : List α) (test : σ → Bool)
    (h : (run step labels s).any test = true) : ∃ t, Reaches step free s t ∧ test t = true := by
  cases hr : run step labels s with
  | none => simp [hr] at h
  | some t => exact ⟨t, run_reaches labels hr, by simpa [hr] using h⟩

theorem runWhere_reaches_of_any (step : σ → α → Option σ) (ok : σ → α → Prop)
    [∀ s a, Decidable (ok s a)] (s : σ) (labels : List α) (test : σ → Bool)
    (h : (runWhere step ok labels s).any test = true) : ∃ t, Reaches step ok s t ∧ test t = true := by
  cases hr : runWhere step ok labels s with
  | none => simp [hr] at h
  | some t => exact ⟨t, runWhere_reaches labels hr, by simpa [hr] using h⟩

/-! ## Runs that end -/

/-- Where each step makes a measure smaller, but for what its label gains, a run has no more
steps than it has at the start and gains on its way. -/
theorem run_length_le (measure : σ → Nat) (gain : α → Nat)
    (decreases : ∀ u a u', step u a = some u' → measure u' < measure u + gain a)
    (labels : List α) (h : run step labels s = some t) : labels.length ≤ measure s + (labels.map gain).sum := by
  induction labels generalizing s with
  | nil => exact Nat.zero_le _
  | cons a tail ih =>
    obtain ⟨u, hu, ht⟩ := Option.bind_eq_some_iff.mp h
    have hlt := decreases s a u hu
    have hle := ih ht
    rw [List.length_cons, List.map_cons, List.sum_cons]
    omega

/-- Some run of allowed steps from every state ends in one where none of them is enabled. -/
theorem exists_stuck (measure : σ → Nat)
    (decreases : ∀ u a u', ok u a → step u a = some u' → measure u' < measure u) (s : σ) :
    ∃ t, Reaches step ok s t ∧ ∀ a, ok t a → step t a = none := by
  induction hm : measure s using Nat.strong_induction_on generalizing s with
  | _ n ih =>
    by_cases hstuck : ∀ a, ok s a → step s a = none
    · exact ⟨s, .refl, hstuck⟩
    · obtain ⟨a, ha⟩ := not_forall.mp hstuck
      obtain ⟨hok, ha⟩ := Classical.not_imp.mp ha
      obtain ⟨u, hu⟩ := Option.ne_none_iff_exists'.mp ha
      obtain ⟨t, ht, hend⟩ := ih (measure u) (hm ▸ decreases s a u hok hu) u rfl
      exact ⟨t, .head ⟨a, hok, hu⟩ ht, hend⟩

end Transition
