import DataspacesWa.MixedRuns
import Mathlib.Algebra.BigOperators.Group.Finset.Basic

/-!
# What the mixed predictor loses

`MJMPAlgo` follows the predictor that has the fewest mistakes. An access the
returned list has missed is a mistake of the predictor followed, so each one is
followed through at most one miss more than any other has mistakes. The misses
of the mixed predictor are within that many times the number of its predictors.
-/
namespace MixedLosses

open Predictors MixedChoice MixedBudget MixedRuns

/-! ## Following the first with the fewest -/

/-- The misses fall to the one followed at the time. -/
def Charged (k : Nat → Nat) (n misses : Nat) : Prop :=
  ∃ chosen : Nat → Nat, misses = ∑ j ∈ Finset.range n, chosen j ∧
    ∀ i < n, ∀ j < n, chosen j ≤ k i + if j < i then 1 else 0

section Charged
variable {k k' : Nat → Nat} {n misses i : Nat}

theorem charged_zero (k : Nat → Nat) (n : Nat) : Charged k n 0 :=
  ⟨fun _ => 0, by simp, fun _ _ _ _ => Nat.zero_le _⟩

theorem Charged.mono (h : Charged k n misses) (hle : ∀ j, k j ≤ k' j) : Charged k' n misses := by
  obtain ⟨chosen, hsum, hchosen⟩ := h
  exact ⟨chosen, hsum, fun i hi j hj => (hchosen i hi j hj).trans (Nat.add_le_add_right (hle i) _)⟩

/-- A miss is a mistake of the one followed. -/
theorem Charged.miss (h : Charged k n misses) (hi : FewestFirst k n i) (hhere : k' i = k i + 1) (hle : ∀ j, k j ≤ k' j) :
    Charged k' n (misses + 1) := by
  obtain ⟨chosen, rfl, hchosen⟩ := h
  refine ⟨Function.update chosen i (chosen i + 1), ?_, fun a ha j hj => ?_⟩
  · have hmem : i ∈ Finset.range n := Finset.mem_range.mpr hi.lt_num
    rw [Finset.sum_update_of_mem hmem, ← Finset.add_sum_erase _ _ hmem, Finset.sdiff_singleton_eq_erase]
    omega
  have hka := hle a
  by_cases hji : j = i
  · subst hji
    rw [Function.update_self]
    have hown : chosen j ≤ k j := by simpa using hchosen j hj j hj
    rcases Nat.lt_trichotomy a j with hlt | heq | hlt
    · have hfewer := hi.lt a hlt
      omega
    · subst heq
      omega
    · have hfewest := hi.le a ha
      rw [if_pos hlt]
      omega
  · rw [Function.update_of_ne hji]
    have := hchosen a ha j hj
    omega

theorem Charged.le (h : Charged k n misses) (hi : i < n) : misses ≤ n * k i + i := by
  obtain ⟨chosen, rfl, hchosen⟩ := h
  have hbefore : ∑ j ∈ Finset.range n, (if j < i then 1 else 0) = i := by
    rw [← Finset.card_filter]
    have hfilter : (Finset.range n).filter (· < i) = Finset.range i := by
      ext j
      simp only [Finset.mem_filter, Finset.mem_range]
      omega
    rw [hfilter, Finset.card_range]
  calc ∑ j ∈ Finset.range n, chosen j
      ≤ ∑ j ∈ Finset.range n, (k i + if j < i then 1 else 0) :=
        Finset.sum_le_sum fun j hj => hchosen i hi j (Finset.mem_range.mp hj)
    _ = n * k i + i := by rw [Finset.sum_add_distrib, hbefore, Finset.sum_const, Finset.card_range, smul_eq_mul]

end Charged

/-! ## The misses of a run -/

/-- The list returned was not empty, and has missed the access. -/
def misses (l : Ledger) : Nat := l.log.countP fun e => e.returned ≠ [] ∧ e.acc ∉ e.returned

/-- The list to compare with is the one of the predictor with the fewest mistakes, or there is none. -/
def Current (n : Nat) (l : Ledger) : Prop :=
  l.returned = [] ∨ ∃ i, FewestFirst l.mistakes n i ∧ l.latest.getD i [] = l.returned

def isAccess : Call → Bool
  | .addAccess _ => true
  | .addAccessAt _ _ => true
  | _ => false

/-- As the source assumes: add_access, get_to_prefetch, add_access, ... -/
def Alternates (calls : List Call) : Prop := calls.IsChain fun call next => isAccess call = false ∨ isAccess next = false

section Runs
variable {n : Nat} {c : ℚ} {m m' : MJMPAlgo} {l l' : Ledger} {replenishes : MJMPAlgo → AccT → Bool} {call : Call}
  {calls : List Call}

theorem mistakes_le_access (l : Ledger) (acc : AccT) (i : Nat) : l.mistakes i ≤ (l.access acc).mistakes i := by
  rw [mistakes_access]
  exact Nat.le_add_right _ _

theorem misses_access (l : Ledger) (acc : AccT) :
    misses (l.access acc) = misses l + if l.returned ≠ [] ∧ acc ∉ l.returned then 1 else 0 := by
  rw [misses, Ledger.access, List.countP_cons]
  simp only [decide_eq_true_eq]
  rfl

theorem charged_access (h : Charged l.mistakes n (misses l)) (hcurrent : Current n l) (acc : AccT) :
    Charged (l.access acc).mistakes n (misses (l.access acc)) := by
  rw [misses_access]
  split
  next hmiss =>
    obtain ⟨i, hfewest, hlatest⟩ := hcurrent.resolve_left hmiss.1
    have hhere : (l.access acc).mistakes i = l.mistakes i + 1 := by
      rw [mistakes_access, hlatest, if_pos ⟨hmiss.1, hmiss.2, hmiss.2⟩]
    exact h.miss hfewest hhere (mistakes_le_access l acc)
  next => exact h.mono (mistakes_le_access l acc)

theorem current_predict (h : MJTracks n c m l) (hc : c < 0) (hn : n ≠ 0) {x : Ask} {palgoId : Nat} {accV eaccV : List AccT}
    (hget : m.getToPrefetch x = (m', .returned palgoId accV eaccV)) : Current n (l.predict m.toAsked x accV) := by
  obtain ⟨hasked, -⟩ := mj_getToPrefetch_returned hget
  obtain ⟨hpalgo, hlast, haccV⟩ := getToPrefetch_returned h.inv.sized hasked
  rw [hlast, hpalgo] at haccV
  refine .inr ⟨_, h.fewestFirst hc hn, ?_⟩
  show (MPAlgo.askAll x.noise x.time 0 x.numAcc m.mp.palgoV).2.1.getD _ [] = accV
  rw [List.getD_eq_getElem?_getD, haccV]
  rfl

/-- A step charges its miss, and leaves a list to compare with if it is not an access. -/
theorem step_charged (hc : c < 0) (hn : n ≠ 0) (h : MJTracks n c m l) (hcharged : Charged l.mistakes n (misses l))
    (hcurrent : isAccess call = true → Current n l)
    (hstep : (mjmpWhen replenishes).step (m, l) call = some (m', l')) :
    Charged l'.mistakes n (misses l') ∧ (isAccess call = false → Current n l') := by
  cases call with
  | reset =>
    cases hstep
    exact ⟨charged_zero _ n, fun _ => .inl rfl⟩
  | addAccess acc =>
    obtain ⟨-, rfl⟩ := access_some hstep
    exact ⟨charged_access hcharged (hcurrent rfl) acc, fun hnot => by cases hnot⟩
  | addAccessAt accTime acc =>
    obtain ⟨-, rfl⟩ := access_some hstep
    exact ⟨charged_access hcharged (hcurrent rfl) acc, fun hnot => by cases hnot⟩
  | getToPrefetch x =>
    obtain ⟨palgoId, accV, eaccV, hget, rfl⟩ := predict_some hstep
    exact ⟨hcharged, fun _ => current_predict h hc hn hget⟩

theorem run_charged (hc : c < 0) (hn : n ≠ 0) (h : MJTracks n c m l) (hcharged : Charged l.mistakes n (misses l))
    (hcurrent : ∀ call ∈ calls.head?, isAccess call = true → Current n l) (hcalls : Alternates calls)
    (hrun : Transition.run (mjmpWhen replenishes).step calls (m, l) = some (m', l')) :
    Charged l'.mistakes n (misses l') := by
  induction calls generalizing m l with
  | nil =>
    cases hrun
    exact hcharged
  | cons call calls ih =>
    obtain ⟨⟨u, lu⟩, hstep, hrest⟩ := Option.bind_eq_some_iff.mp hrun
    obtain ⟨hcharged', hcurrent'⟩ := step_charged hc hn h hcharged (hcurrent call rfl) hstep
    have hone : Transition.run (mjmpWhen replenishes).step [call] (m, l) = some (u, lu) := by
      rw [Transition.run, hstep]
      rfl
    refine ih (mj_run_tracks h hone) hcharged' (fun next hnext haccess => ?_) hcalls.tail hrest
    have hbefore := (List.isChain_cons.mp hcalls).1 next hnext
    rw [haccess] at hbefore
    exact hcurrent' (hbefore.resolve_right (by decide))

end Runs

def alternatingCalls : List Call := [5, 6, 5, 6, 5, 6].flatMap fun acc => [.addAccessAt 1 acc, .getToPrefetch (askFor 1 3)]

end MixedLosses
