import DataspacesWa.Join
import DataspacesWa.ParseTree
import DataspacesWa.TopK

/-!
# Access predictors

`TAlgo` predicts by the times between accesses and `MAlgo` by a parse tree; both
keep the accesses themselves as every `PAlgo` does. Times, means and probabilities
are rationals. What a prediction draws and computes in floating point (the jitter,
the quotients of the Poisson predictor, the normal distribution) is an argument.
-/
namespace Predictors

open Join (linearOrderInt32)
open TopK (pushUntil ranked)

/-- `ACC_T` -/
abbrev AccT := ParseTree.KeyT

/-- `acc_s` and `acc_v` of a `PAlgo`. -/
structure Base where
  accS : SortedMap AccT Unit
  accV : List AccT

def Base.init : Base := ⟨SortedMap.empty, []⟩

/-- `PAlgo::add_access`, with a time or without. -/
def Base.addAccess (b : Base) (acc : AccT) : Base := ⟨b.accS.insert acc (), b.accV ++ [acc]⟩

def Base.accs (b : Base) : List AccT := b.accS.entries.map (·.1)

theorem Base.accs_sorted (b : Base) : b.accs.Pairwise (· < ·) := List.pairwise_map.mpr b.accS.sorted

/-- What goes to `eacc_v`. -/
def Base.evictable (b : Base) (cachedAccV accV : List AccT) : List AccT :=
  b.accs.filter fun acc => acc ∉ cachedAccV ∧ acc ∉ accV

/-- What a prediction takes from outside. -/
structure Noise where
  jitter : Nat → ℚ
  rate : AccT → ℚ
  /-- The complement of the normal distribution, by mean, variance and time. -/
  cdf : ℚ → ℚ → ℚ → ℚ

/-! ## Parse trees -/

/-- A `ParseTree`, of an algorithm that keeps the tree or of the Poisson predictor, which keeps
`key__num_arr_map`. -/
inductive Tree where
  | markov : ParseTree.State → Tree
  | poisson : SortedMap AccT Nat → Tree

def Tree.reset : Tree → Tree
  | markov t => markov (ParseTree.init t.malgoT t.contextSize)
  | poisson _ => poisson SortedMap.empty

def Tree.addAccess (key : AccT) : Tree → Tree
  | markov t => markov (ParseTree.addAccess t key)
  | poisson numArr => poisson (numArr.insert key ((numArr.get? key).getD 0 + 1))

/-- `get_key_prob_map_for_prefetch` -/
def Tree.keyProbMap (noise : Noise) : Tree → Tree × SortedMap AccT ℚ
  | markov t =>
    let (t, m, _) := ParseTree.predict t noise.jitter
    (markov t, SortedMap.empty.insertAll m)
  | poisson numArr =>
    (poisson numArr, SortedMap.empty.insertAll (numArr.entries.map fun e => (e.1, noise.rate e.1)))

/-- `get_to_prefetch` of the tree, once it has the map. -/
def toPrefetch (keyProbMap : SortedMap AccT ℚ) (numKeys : Nat) (keyV : List AccT) : List AccT :=
  pushUntil numKeys keyV ((ranked keyProbMap).map (·.2))

/-! ## `MAlgo` -/

structure MAlgo where
  base : Base
  parseTree : Tree

def lzAlgo : MAlgo := ⟨Base.init, .markov (ParseTree.init .lz 0)⟩
def alzAlgo : MAlgo := ⟨Base.init, .markov (ParseTree.init .alz 0)⟩
def ppmAlgo (contextSize : Nat) : MAlgo := ⟨Base.init, .markov (ParseTree.init .ppm contextSize)⟩
def poAlgo : MAlgo := ⟨Base.init, .poisson SortedMap.empty⟩

def MAlgo.reset (a : MAlgo) : MAlgo := ⟨Base.init, a.parseTree.reset⟩

def MAlgo.addAccess (a : MAlgo) (acc : AccT) : MAlgo := ⟨a.base.addAccess acc, a.parseTree.addAccess acc⟩

def MAlgo.accProbMap (noise : Noise) (a : MAlgo) : MAlgo × SortedMap AccT ℚ :=
  let (tree, m) := a.parseTree.keyProbMap noise
  ({ a with parseTree := tree }, m)

/-- `get_to_prefetch`: `acc_v` and `eacc_v`. -/
def MAlgo.getToPrefetch (noise : Noise) (a : MAlgo) (numAcc : Nat) (accV cachedAccV : List AccT) :
    MAlgo × List AccT × List AccT :=
  let (tree, m) := a.parseTree.keyProbMap noise
  let accV := toPrefetch m numAcc accV
  ({ a with parseTree := tree }, accV, a.base.evictable cachedAccV accV)

/-! ## `TAlgo` -/

def minInterTimeForPrediction : ℚ := 1
def minVariance : ℚ := 20

structure TAlgo where
  base : Base
  /-- `acc___arr__inter_time_pair_v_map` -/
  arrInterTimes : SortedMap AccT (List (ℚ × ℚ))
  meanVar : SortedMap AccT (ℚ × ℚ)

def TAlgo.init : TAlgo := ⟨Base.init, SortedMap.empty, SortedMap.empty⟩

def TAlgo.reset (_ : TAlgo) : TAlgo := TAlgo.init

def mean (aiV : List (ℚ × ℚ)) : ℚ := (aiV.map (·.2)).sum / (aiV.length - 1 : Nat)

def variance (aiV : List (ℚ × ℚ)) : ℚ :=
  if 2 < aiV.length - 1 then
    max ((((aiV.filter fun ai => ai.2 ≠ 0).map fun ai => (ai.2 - mean aiV) ^ 2).sum) / (aiV.length - 1 - 1 : Nat)) minVariance
  else minVariance

/-- `add_access` with a time, and whether it returns 0. -/
def TAlgo.addAccess (a : TAlgo) (arrTime : ℚ) (acc : AccT) : TAlgo × Bool :=
  let base := a.base.addAccess acc
  let aiV := (a.arrInterTimes.get? acc).getD []
  let interTime := (aiV.getLast?.map fun lastAi => arrTime - lastAi.1).getD 0
  -- the access is in the base and has its entry by now
  if interTime < 0 then (⟨base, a.arrInterTimes.insert acc aiV, a.meanVar⟩, false)
  else
    let aiV := aiV ++ [(arrTime, interTime)]
    let meanVar := if interTime = 0 then a.meanVar else a.meanVar.insert acc (mean aiV, variance aiV)
    (⟨base, a.arrInterTimes.insert acc aiV, meanVar⟩, true)

theorem length_filter_lt {m : SortedMap ℚ AccT} {prob : ℚ} (h : m.contains prob = true) :
    (m.entries.filter fun e => prob + 1 / 10000 ≤ e.1).length < (m.entries.filter fun e => prob ≤ e.1).length := by
  obtain ⟨e, he, rfl⟩ := List.mem_map.mp (SortedMap.contains_iff.mp h)
  have hstep : (m.entries.filter fun e' => e.1 + 1 / 10000 ≤ e'.1) =
      (m.entries.filter fun e' => e.1 ≤ e'.1).filter fun e' => e.1 + 1 / 10000 ≤ e'.1 := by
    rw [List.filter_filter]
    refine List.filter_congr fun e' _ => ?_
    rw [← Bool.decide_and, decide_eq_decide]
    constructor
    · intro hle
      exact ⟨hle, by linarith⟩
    · exact And.left
  rw [hstep]
  refine List.length_filter_lt_length_iff_exists.mpr ⟨e, List.mem_filter.mpr ⟨he, by simp⟩, ?_⟩
  rw [decide_eq_true_eq]
  intro hle
  linarith

/-- A probability that is not in the map yet, found in steps of 0.0001. -/
def freeProb (m : SortedMap ℚ AccT) (prob : ℚ) : ℚ :=
  if _h : m.contains prob then freeProb m (prob + 1 / 10000) else prob
termination_by (m.entries.filter fun e => prob ≤ e.1).length
decreasing_by exact length_filter_lt _h

/-- The first loop of `get_to_prefetch`: `prob_acc_map`, and `skipped_v` from its back. It is `none` where the
time is before an access. -/
def TAlgo.rank (noise : Noise) (a : TAlgo) (time : ℚ) :
    List (AccT × ℚ × ℚ) → SortedMap ℚ AccT → List AccT → Option (SortedMap ℚ AccT × List AccT)
  | [], probAccMap, skippedV => some (probAccMap, skippedV)
  | (acc, mean, variance) :: rest, probAccMap, skippedV =>
    let lastArr := (((a.arrInterTimes.get? acc).getD []).getLast?.getD (0, 0)).1
    let timePassed := time - lastArr
    if timePassed < 0 then none
    else if timePassed < minInterTimeForPrediction then a.rank noise time rest probAccMap (acc :: skippedV)
    else if 2 * mean < timePassed then a.rank noise time rest probAccMap skippedV
    else
      let prob := freeProb probAccMap (noise.cdf mean variance timePassed)
      a.rank noise time rest (probAccMap.insert prob acc) skippedV

/-- The loop over `skipped_v`. -/
def fillUp (numAcc : Nat) : List AccT → List AccT → List AccT
  | accV, [] => accV
  | accV, acc :: rest => if accV.length < numAcc then fillUp numAcc (accV ++ [acc]) rest else accV

/-- `get_to_prefetch` with a time: `acc_v` and `eacc_v`; `none` is a return that is not 0, before anything is
pushed. -/
def TAlgo.getToPrefetch (noise : Noise) (a : TAlgo) (time : ℚ) (numAcc : Nat) (accV cachedAccV : List AccT) :
    Option (List AccT × List AccT) :=
  (a.rank noise time a.meanVar.entries SortedMap.empty []).map fun r =>
    let accV := fillUp numAcc (pushUntil numAcc accV (r.1.entries.map (·.2))) r.2
    (accV, a.base.evictable cachedAccV accV)

/-! ## `PAlgo` -/

inductive PAlgo where
  | talgo : TAlgo → PAlgo
  | malgo : MAlgo → PAlgo

def PAlgo.base : PAlgo → Base
  | talgo a => a.base
  | malgo a => a.base

def PAlgo.reset : PAlgo → PAlgo
  | talgo a => talgo a.reset
  | malgo a => malgo a.reset

/-- `add_access` without a time, which a `TAlgo` does not take, and whether it returns 0. -/
def PAlgo.addAccess (acc : AccT) : PAlgo → PAlgo × Bool
  | talgo a => (talgo a, false)
  | malgo a => (malgo (a.addAccess acc), true)

/-- `add_access` with a time. -/
def PAlgo.addAccessAt (arrTime : ℚ) (acc : AccT) : PAlgo → PAlgo × Bool
  | talgo a =>
    let (a, returned) := a.addAccess arrTime acc
    (talgo a, returned)
  | malgo a => (malgo (a.addAccess acc), true)

/-- `get_acc_prob_map_for_prefetch` with a time; a `TAlgo` returns 1 and leaves the map empty. -/
def PAlgo.accProbMap (noise : Noise) : PAlgo → PAlgo × SortedMap AccT ℚ
  | talgo a => (talgo a, SortedMap.empty)
  | malgo a =>
    let (a, m) := a.accProbMap noise
    (malgo a, m)

/-- `get_to_prefetch` with a time, into an empty `acc_v` and with nothing cached. -/
def PAlgo.getToPrefetch (noise : Noise) (time : ℚ) (numAcc : Nat) : PAlgo → PAlgo × Option (List AccT)
  | talgo a => (talgo a, (a.getToPrefetch noise time numAcc [] []).map (·.1))
  | malgo a =>
    let (a, accV, _) := a.getToPrefetch noise numAcc [] []
    (malgo a, some accV)

@[simp] theorem PAlgo.base_talgo (a : TAlgo) : (talgo a).base = a.base := rfl
@[simp] theorem PAlgo.base_malgo (a : MAlgo) : (malgo a).base = a.base := rfl

@[simp] theorem PAlgo.base_reset (a : PAlgo) : a.reset.base = Base.init := by
  cases a <;> rfl

@[simp] theorem PAlgo.base_accProbMap (noise : Noise) (a : PAlgo) : (a.accProbMap noise).1.base = a.base := by
  cases a <;> rfl

@[simp] theorem PAlgo.base_getToPrefetch (noise : Noise) (time : ℚ) (numAcc : Nat) (a : PAlgo) :
    (a.getToPrefetch noise time numAcc).1.base = a.base := by
  cases a <;> rfl

end Predictors
