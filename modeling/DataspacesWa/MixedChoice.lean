import DataspacesWa.MPAlgo
import DataspacesWa.Pick

/-!
# Predictors mixed by choice

`BMPAlgo`, `MJMPAlgo` and `RMJMPAlgo` ask all of their predictors and return the
list of one: of the one with the best score in a window of accesses, of the one
with the greatest weight, or of one at random by the weights. Weights are
rationals, or `-∞`, which `log2f` gives for a `beta` of zero.
-/
namespace MixedChoice

open Predictors
open MPAlgo hiding init reset call run Call
open Pick (maxFrom fallsFrom)

/-- What a call of `get_to_prefetch` is given and what it draws. -/
structure Ask where
  noise : Nat → Noise
  /-- `rand()` by its maximum. -/
  value : ℚ
  value_le : value ≤ 1
  time : ℚ
  numAcc : Nat
  cachedAccV : List AccT

/-- What it comes to: an error of a predictor, the use of a predictor that is not there, or the predictor
used, `acc_v` and `eacc_v`. -/
inductive Answer where
  | refused
  | undefined
  | returned : Nat → List AccT → List AccT → Answer
  deriving DecidableEq, Repr

/-- What all of them have: the predictors, and what each has predicted last. -/
structure Asked where
  mp : State
  palgoIdLastPredictedAccVV : List (List AccT)

/-- The loop at the start of `get_to_prefetch`, and whether it gets through. -/
def Asked.ask (s : Asked) (x : Ask) : Asked × Bool :=
  let (palgoV, accVV, returned) := askAll x.noise x.time 0 x.numAcc s.mp.palgoV
  (⟨{ s.mp with palgoV := palgoV }, accVV ++ s.palgoIdLastPredictedAccVV.drop accVV.length⟩, returned)

/-- The end of it, with the predictor that is used. -/
def Asked.use (s : Asked) (x : Ask) (palgoId : Nat) : Asked × Answer :=
  match s.palgoIdLastPredictedAccVV[palgoId]? with
  | none => (s, .undefined)
  | some accV =>
    ({ s with mp.palgoIdUsedV := s.mp.palgoIdUsedV ++ [palgoId] },
      .returned palgoId accV (s.mp.base.evictable x.cachedAccV accV))

/-- `palgo_id` has no value before one is picked. -/
def Asked.getToPrefetch (s : Asked) (x : Ask) (palgoId : Option Nat) : Asked × Answer :=
  match s.ask x with
  | (s, false) => (s, .refused)
  | (s, true) =>
    match palgoId with
    | none => (s, .undefined)
    | some palgoId => s.use x palgoId

def Asked.init (specs : List (PalgoT × Nat)) : Asked := ⟨MPAlgo.init specs, specs.map fun _ => []⟩

def Asked.reset (s : Asked) : Asked :=
  ⟨MPAlgo.reset s.mp, s.palgoIdLastPredictedAccVV.map fun _ => []⟩

def Asked.addAccess (s : Asked) (accTime : ℚ) (acc : AccT) : Asked × Bool :=
  let (mp, returned) := addAccessAt s.mp accTime acc
  ({ s with mp := mp }, returned)

/-! ## `BMPAlgo` -/

/-- `patch::Queue` of numbers, the newest first. -/
structure Queue where
  size : Int
  q : List Int

def Queue.push (queue : Queue) (value : Int) : Queue :=
  { queue with q := value :: if (queue.q.length : Int) = queue.size then queue.q.dropLast else queue.q }

def Queue.clear (queue : Queue) : Queue := { queue with q := [] }

structure BMPAlgo extends Asked where
  palgoIdScoreQueueV : List Queue

def BMPAlgo.init (specs : List (PalgoT × Nat)) (windowSize : Int) : BMPAlgo :=
  ⟨Asked.init specs, specs.map fun _ => ⟨windowSize, []⟩⟩

def BMPAlgo.reset (b : BMPAlgo) : BMPAlgo := ⟨b.toAsked.reset, b.palgoIdScoreQueueV.map Queue.clear⟩

/-- What a hit or a miss is pushed as. -/
def hit (acc : AccT) (accV : List AccT) : Int := if acc ∈ accV then 1 else 0

/-- `add_access` with a time, and whether it returns 0. -/
def BMPAlgo.addAccessAt (b : BMPAlgo) (accTime : ℚ) (acc : AccT) : BMPAlgo × Bool :=
  match b.toAsked.addAccess accTime acc with
  | (s, false) => ({ b with toAsked := s }, false)
  | (s, true) =>
    (⟨s, List.zipWith (fun queue accV => queue.push (hit acc accV)) b.palgoIdScoreQueueV
      s.palgoIdLastPredictedAccVV⟩, true)

def BMPAlgo.addAccess (b : BMPAlgo) (acc : AccT) : BMPAlgo × Bool := b.addAccessAt 0 acc

/-- `get_malgo_score`, of all. -/
def BMPAlgo.scores (b : BMPAlgo) : List Int := b.palgoIdScoreQueueV.map fun queue => queue.q.sum

def BMPAlgo.getToPrefetch (b : BMPAlgo) (x : Ask) : BMPAlgo × Answer :=
  let (s, answer) := b.toAsked.getToPrefetch x (some (maxFrom 0 0 0 b.scores))
  ({ b with toAsked := s }, answer)

/-! ## `MJMPAlgo` -/

abbrev Weight := WithBot ℚ

/-- `INITIAL_MJ_WEIGHT` -/
def initialMjWeight : ℚ := 100

structure MJMPAlgo extends Asked where
  /-- `log2f(beta)` -/
  log2Beta : Weight
  lastPredictedAccV : List AccT
  palgoIdWeightV : List Weight

/-- The constructor, of a `beta` from 0 to 1. -/
def MJMPAlgo.init (specs : List (PalgoT × Nat)) (log2Beta : Weight) : MJMPAlgo :=
  ⟨Asked.init specs, log2Beta, [], specs.map fun _ => (initialMjWeight : Weight)⟩

def MJMPAlgo.reset (m : MJMPAlgo) : MJMPAlgo :=
  ⟨m.toAsked.reset, m.log2Beta, [], m.palgoIdWeightV.map fun _ => (initialMjWeight : Weight)⟩

/-- What is missing to the initial weight. -/
def toAdd : Weight → WithTop ℚ
  | ⊥ => ⊤
  | (weight : ℚ) => (initialMjWeight - weight : ℚ)

/-- `∞ - ∞` is no number, and compares as `-∞` does with others of its kind. -/
def plus : WithTop ℚ → Weight → Weight
  | (add : ℚ), (weight : ℚ) => (weight + add : ℚ)
  | _, _ => ⊥

def replenish (weightV : List Weight) : List Weight :=
  weightV.map (plus ((weightV.map toAdd).foldr min ⊤))

/-- The first loop over the weights: the weight, and whether it has become low. -/
def penalise (log2Beta : Weight) (acc : AccT) (weight : Weight) (accV : List AccT) : Weight × Bool :=
  if acc ∈ accV then (weight, false) else (weight + log2Beta, weight + log2Beta < (10 : ℚ))

def MJMPAlgo.addAccessAt (m : MJMPAlgo) (accTime : ℚ) (acc : AccT) : MJMPAlgo × Bool :=
  match m.toAsked.addAccess accTime acc with
  | (s, false) => ({ m with toAsked := s }, false)
  | (s, true) =>
    if m.lastPredictedAccV = [] ∨ acc ∈ m.lastPredictedAccV then ({ m with toAsked := s }, true)
    else
      let penalised := List.zipWith (penalise m.log2Beta acc) m.palgoIdWeightV s.palgoIdLastPredictedAccVV
      let weightV := penalised.map (·.1)
      let weightV := if penalised.any (·.2) then replenish weightV else weightV
      ({ m with toAsked := s, palgoIdWeightV := weightV }, true)

def MJMPAlgo.addAccess (m : MJMPAlgo) (acc : AccT) : MJMPAlgo × Bool := m.addAccessAt 0 acc

/-- `get_to_prefetch` with a way to pick by the weights. -/
def MJMPAlgo.getToPrefetchBy (pick : Ask → List Weight → Option Nat) (m : MJMPAlgo) (x : Ask) : MJMPAlgo × Answer :=
  match m.toAsked.getToPrefetch x (pick x m.palgoIdWeightV) with
  | (s, .returned palgoId accV eaccV) =>
    ({ m with toAsked := s, lastPredictedAccV := accV }, .returned palgoId accV eaccV)
  | (s, answer) => ({ m with toAsked := s }, answer)

/-- The distance to `std::max_element`. -/
def maxElement : List Weight → Nat
  | [] => 0
  | weight :: weightV => maxFrom 1 weight 0 weightV

def pickGreatest (_ : Ask) (weightV : List Weight) : Option Nat := some (maxElement weightV)

def MJMPAlgo.getToPrefetch (m : MJMPAlgo) (x : Ask) : MJMPAlgo × Answer := m.getToPrefetchBy pickGreatest x

/-! ## `RMJMPAlgo` -/

/-- An `RMJMPAlgo` has nothing of its own. -/
abbrev RMJMPAlgo := MJMPAlgo

/-- `powf(2, weight)`, by the power of the rationals. -/
def powOf (pow2 : ℚ → ℚ) : Weight → ℚ
  | ⊥ => 0
  | (weight : ℚ) => pow2 weight

/-- The share of each weight; with no weight above `-∞` there is none. -/
def shares (pow2 : ℚ → ℚ) (weightV : List Weight) : List ℚ :=
  let weightSum := (weightV.map (powOf pow2)).sum
  if weightSum = 0 then [] else weightV.map fun weight => powOf pow2 weight / weightSum

def pickRandom (pow2 : ℚ → ℚ) (x : Ask) (weightV : List Weight) : Option Nat :=
  fallsFrom (x.value - 1 / 10000) 0 0 (shares pow2 weightV)

def RMJMPAlgo.getToPrefetch (pow2 : ℚ → ℚ) (m : RMJMPAlgo) (x : Ask) : RMJMPAlgo × Answer :=
  m.getToPrefetchBy (pickRandom pow2) x

/-! ## Runs -/

inductive Call where
  | reset
  | addAccess : AccT → Call
  | addAccessAt : ℚ → AccT → Call
  | getToPrefetch : Ask → Call

def BMPAlgo.call (b : BMPAlgo) : Call → BMPAlgo
  | .reset => b.reset
  | .addAccess acc => (b.addAccess acc).1
  | .addAccessAt accTime acc => (b.addAccessAt accTime acc).1
  | .getToPrefetch x => (b.getToPrefetch x).1

def MJMPAlgo.callBy (pick : Ask → List Weight → Option Nat) (m : MJMPAlgo) : Call → MJMPAlgo
  | .reset => m.reset
  | .addAccess acc => (m.addAccess acc).1
  | .addAccessAt accTime acc => (m.addAccessAt accTime acc).1
  | .getToPrefetch x => (m.getToPrefetchBy pick x).1

def BMPAlgo.run (b : BMPAlgo) (calls : List Call) : BMPAlgo := calls.foldl BMPAlgo.call b

def MJMPAlgo.runBy (pick : Ask → List Weight → Option Nat) (m : MJMPAlgo) (calls : List Call) : MJMPAlgo :=
  calls.foldl (MJMPAlgo.callBy pick) m

def BMPAlgo.Reached (b : BMPAlgo) : Prop :=
  ∃ specs windowSize calls, b = (BMPAlgo.init specs windowSize).run calls

def MJMPAlgo.ReachedBy (pick : Ask → List Weight → Option Nat) (m : MJMPAlgo) : Prop :=
  ∃ specs log2Beta calls, m = (MJMPAlgo.init specs log2Beta).runBy pick calls

def MJMPAlgo.Reached (m : MJMPAlgo) : Prop := m.ReachedBy pickGreatest

def RMJMPAlgo.Reached (pow2 : ℚ → ℚ) (m : RMJMPAlgo) : Prop := m.ReachedBy (pickRandom pow2)

end MixedChoice
