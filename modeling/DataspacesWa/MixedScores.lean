import DataspacesWa.MPAlgo

/-!
# Predictors mixed by their probabilities

`WMPAlgo` scores every access it knows by the weighted sum of what its
predictors give it, `MMPAlgo` by the greatest of them. Both rank the scores as
`ParseTree` ranks its probabilities, through a map from score to access, and
what no predictor gives a probability has the score zero along with all others
of that kind.
-/
namespace MixedScores

open Predictors MPAlgo
open TopK (Best TiesLow best_iff_tiesLow tiesLow_one)

/-- A map over the accesses that are known. -/
def scoreMap (b : Base) (score : AccT → ℚ) : SortedMap AccT ℚ :=
  SortedMap.empty.insertAll (b.accs.map fun acc => (acc, score acc))

/-- `palgo_id__acc_prob_map_v[i][acc]` -/
def probAt (accProbMap : SortedMap AccT ℚ) (acc : AccT) : ℚ := (accProbMap.get? acc).getD 0

structure WMPAlgo where
  mp : State
  palgoIdWeightV : List ℚ

def weightedProb (accProbMapV : List (SortedMap AccT ℚ)) (weightV : List ℚ) (acc : AccT) : ℚ :=
  (List.zipWith (fun accProbMap weight => probAt accProbMap acc * weight) accProbMapV weightV).sum

/-- `acc__weighted_prob_map` -/
def WMPAlgo.scores (noise : Nat → Noise) (w : WMPAlgo) : SortedMap AccT ℚ :=
  scoreMap w.mp.base (weightedProb ((accProbMaps noise w.mp.palgoV).map (·.2)) w.palgoIdWeightV)

/-- `get_to_prefetch`: `acc_v` and `eacc_v`. -/
def WMPAlgo.getToPrefetch (noise : Nat → Noise) (w : WMPAlgo) (numAcc : Nat) (accV cachedAccV : List AccT) :
    WMPAlgo × List AccT × List AccT :=
  let accV := toPrefetch (w.scores noise) numAcc accV
  ({ w with mp.palgoV := (accProbMaps noise w.mp.palgoV).map (·.1) }, accV, w.mp.base.evictable cachedAccV accV)

/-- An `MMPAlgo` has nothing of its own. -/
structure MMPAlgo where
  mp : State

def maxProb (accProbMapV : List (SortedMap AccT ℚ)) (acc : AccT) : ℚ :=
  accProbMapV.foldl (fun max accProbMap => if max < probAt accProbMap acc then probAt accProbMap acc else max) 0

/-- `acc__max_prob_map` -/
def MMPAlgo.scores (noise : Nat → Noise) (w : MMPAlgo) : SortedMap AccT ℚ :=
  scoreMap w.mp.base (maxProb ((accProbMaps noise w.mp.palgoV).map (·.2)))

def MMPAlgo.getToPrefetch (noise : Nat → Noise) (w : MMPAlgo) (numAcc : Nat) (accV cachedAccV : List AccT) :
    MMPAlgo × List AccT × List AccT :=
  let accV := toPrefetch (w.scores noise) numAcc accV
  ({ w with mp.palgoV := (accProbMaps noise w.mp.palgoV).map (·.1) }, accV, w.mp.base.evictable cachedAccV accV)

/-! ## The scores -/

theorem entries_scoreMap (b : Base) (score : AccT → ℚ) :
    (scoreMap b score).entries = b.accs.map fun acc => (acc, score acc) := by
  have hsorted : (b.accs.map fun acc => (acc, score acc)).Pairwise fun e e' => e.1 < e'.1 :=
    List.pairwise_map.mpr b.accs_sorted
  exact SortedMap.insertAll_entries SortedMap.empty _ hsorted

/-- The candidates are the accesses that are known, each with its score. -/
theorem get?_scoreMap (b : Base) (score : AccT → ℚ) (acc : AccT) (prob : ℚ) :
    (scoreMap b score).get? acc = some prob ↔ acc ∈ b.accs ∧ score acc = prob := by
  rw [← SortedMap.mem_entries, entries_scoreMap, List.mem_map]
  constructor
  · rintro ⟨acc', hmem, heq⟩
    obtain ⟨rfl, rfl⟩ := Prod.mk.inj heq
    exact ⟨hmem, rfl⟩
  · rintro ⟨hmem, rfl⟩
    exact ⟨acc, hmem, rfl⟩

/-! ## The ranking -/

/-- What is returned are the best of the candidates exactly when every tie is at the last place returned or
below. -/
theorem returns_best_iff {num : Nat} (h : 0 < num) :
    (∀ keyProbMap : SortedMap AccT ℚ,
      Best num keyProbMap (toPrefetch keyProbMap num []) ↔ TiesLow num keyProbMap) ∧
    (∀ (noise : Nat → Noise) (w : WMPAlgo) (cachedAccV : List AccT),
      Best num (w.scores noise) (w.getToPrefetch noise num [] cachedAccV).2.1 ↔ TiesLow num (w.scores noise)) ∧
    ∀ (noise : Nat → Noise) (w : MMPAlgo) (cachedAccV : List AccT),
      Best num (w.scores noise) (w.getToPrefetch noise num [] cachedAccV).2.1 ↔ TiesLow num (w.scores noise) :=
  ⟨fun _ => best_iff_tiesLow h, fun _ _ _ => best_iff_tiesLow h, fun _ _ _ => best_iff_tiesLow h⟩

/-- No jitter and no time. -/
def quiet : Nat → Noise := fun _ => ⟨fun _ => 0, fun _ => 0, fun _ _ _ => 0⟩

/-- An `LZAlgo` at the vertex of 5, below which is 6 only. -/
def atFive : State := run (init [(.lz, 0)]) ([5, 5, 6, 7, 5].map fun acc => .access (.untimed acc))

theorem returns_best_one :
    (MMPAlgo.getToPrefetch quiet ⟨atFive⟩ 1 [] []).2.1 = [6] ∧
    Best 1 (MMPAlgo.scores quiet ⟨atFive⟩) (MMPAlgo.getToPrefetch quiet ⟨atFive⟩ 1 [] []).2.1 :=
  ⟨by decide +kernel, ((returns_best_iff Nat.one_pos).2.2 quiet ⟨atFive⟩ []).mpr (tiesLow_one _)⟩

/-- The accesses 5 and 7 both have the score zero, and of the three only two are returned. -/
theorem tied_left_out :
    (MMPAlgo.getToPrefetch quiet ⟨atFive⟩ 3 [] []).2.1 = [6, 7] ∧
    ¬ ∀ num, 0 < num → ∀ (noise : Nat → Noise) (w : MMPAlgo) (cachedAccV : List AccT),
      Best num (w.scores noise) (w.getToPrefetch noise num [] cachedAccV).2.1 := by
  refine ⟨by decide +kernel, fun hall => ?_⟩
  have hlength := (hall 3 (by decide) quiet ⟨atFive⟩ []).length
  revert hlength
  decide +kernel

end MixedScores
