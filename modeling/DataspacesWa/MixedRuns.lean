import DataspacesWa.MixedBudget
import DataspacesWa.Transition

/-!
# What the choice has been right about

Over a run in which no predictor refuses, a ledger keeps what each access since
the last reset was compared with. The scores of `BMPAlgo` are the hits in its
last entries. The weights of `MJMPAlgo` are an offset and the mistakes in all of
them: replenishing moves the offset, and the first greatest weight stays where
the mistakes are fewest.
-/
namespace MixedRuns

open Predictors MixedChoice MixedBudget
open MPAlgo (askAll)
open Pick (maxFrom IsFirstMax)

/-! ## The ledger -/

/-- An access, with the list returned last and the latest list of each predictor at its time. -/
structure Entry where
  acc : AccT
  returned : List AccT
  latest : List (List AccT)

/-- The newest entry is the first. -/
structure Ledger where
  returned : List AccT
  latest : List (List AccT)
  log : List Entry

def Ledger.start (n : Nat) : Ledger := ⟨[], List.replicate n [], []⟩

def Ledger.access (l : Ledger) (acc : AccT) : Ledger := { l with log := ⟨acc, l.returned, l.latest⟩ :: l.log }

/-- The predictors are asked, and the list of one is returned. -/
def Ledger.predict (l : Ledger) (s : Asked) (x : Ask) (accV : List AccT) : Ledger :=
  ⟨accV, (askAll x.noise x.time 0 x.numAcc s.mp.palgoV).2.1, l.log⟩

/-- The predictor has had the access in its latest list. -/
def Entry.hits (e : Entry) (i : Nat) : Prop := e.acc ∈ e.latest.getD i []

/-- The list returned was not empty, and the access was in neither. -/
def Entry.mistakes (e : Entry) (i : Nat) : Prop :=
  e.returned ≠ [] ∧ e.acc ∉ e.returned ∧ e.acc ∉ e.latest.getD i []

instance Entry.decidableHits (e : Entry) (i : Nat) : Decidable (e.hits i) :=
  inferInstanceAs (Decidable (_ ∈ _))

instance Entry.decidableMistakes (e : Entry) (i : Nat) : Decidable (e.mistakes i) :=
  inferInstanceAs (Decidable (_ ∧ _ ∧ _))

def Ledger.score (l : Ledger) (windowSize : Int) (i : Nat) : Nat :=
  (l.log.take windowSize.toNat).countP fun e => e.hits i

def Ledger.mistakes (l : Ledger) (i : Nat) : Nat := l.log.countP fun e => e.mistakes i

/-! ## Runs without an error -/

/-- The operations of a mixed predictor. -/
structure Mixed (α : Type) where
  asked : α → Asked
  reset : α → α
  addAccessAt : α → ℚ → AccT → α × Bool
  getToPrefetch : α → Ask → α × Answer

section Mixed
variable {α : Type} (ops : Mixed α)

def Mixed.access (r : α × Ledger) (accTime : ℚ) (acc : AccT) : Option (α × Ledger) :=
  match ops.addAccessAt r.1 accTime acc with
  | (a, true) => some (a, r.2.access acc)
  | (_, false) => none

def Mixed.predict (r : α × Ledger) (x : Ask) : Option (α × Ledger) :=
  match ops.getToPrefetch r.1 x with
  | (a, .returned _ accV _) => some (a, r.2.predict (ops.asked r.1) x accV)
  | (_, _) => none

/-- There is no step where a predictor reports an error. -/
def Mixed.step (r : α × Ledger) : Call → Option (α × Ledger)
  | .reset => some (ops.reset r.1, .start (ops.asked r.1).mp.palgoV.length)
  | .addAccess acc => ops.access r 0 acc
  | .addAccessAt accTime acc => ops.access r accTime acc
  | .getToPrefetch x => ops.predict r x

end Mixed

def bmp : Mixed BMPAlgo := ⟨BMPAlgo.toAsked, BMPAlgo.reset, BMPAlgo.addAccessAt, BMPAlgo.getToPrefetch⟩

def mjmp : Mixed MJMPAlgo := ⟨MJMPAlgo.toAsked, MJMPAlgo.reset, MJMPAlgo.addAccessAt, MJMPAlgo.getToPrefetch⟩

/-- `MJMPAlgo::add_access` where the weights are replenished at other times. -/
def addAccessAtWhen (replenishes : MJMPAlgo → AccT → Bool) (m : MJMPAlgo) (accTime : ℚ) (acc : AccT) : MJMPAlgo × Bool :=
  match m.toAsked.addAccess accTime acc with
  | (s, false) => ({ m with toAsked := s }, false)
  | (s, true) =>
    if m.lastPredictedAccV = [] ∨ acc ∈ m.lastPredictedAccV then ({ m with toAsked := s }, true)
    else
      let penalised := List.zipWith (penalise m.log2Beta acc) m.palgoIdWeightV s.palgoIdLastPredictedAccVV
      let weightV := penalised.map (·.1)
      let weightV := if replenishes m acc then replenish weightV else weightV
      ({ m with toAsked := s, palgoIdWeightV := weightV }, true)

def mjmpWhen (replenishes : MJMPAlgo → AccT → Bool) : Mixed MJMPAlgo :=
  { mjmp with addAccessAt := addAccessAtWhen replenishes }

/-- Some weight becomes low. -/
def becomesLow (m : MJMPAlgo) (acc : AccT) : Bool :=
  (List.zipWith (penalise m.log2Beta acc) m.palgoIdWeightV m.palgoIdLastPredictedAccVV).any (·.2)

/-! ## One prediction -/

section Predict
variable {s s' : Asked} {x : Ask} {palgoId i : Nat} {accV eaccV : List AccT}

theorem ask_spec (hsized : Sized s) (h : ¬ Refuses s x) : (s.ask x).2 = true ∧
    (s.ask x).1.palgoIdLastPredictedAccVV = (askAll x.noise x.time 0 x.numAcc s.mp.palgoV).2.1 ∧
    (s.ask x).1.palgoIdLastPredictedAccVV.length = s.mp.palgoV.length := by
  rw [refuses_iff] at h
  obtain ⟨os, hos⟩ := Option.ne_none_iff_exists'.mp h
  obtain ⟨hreturned, hlast⟩ := ask_of_offers hsized hos
  refine ⟨hreturned, ?_, ?_⟩
  · rw [hlast, askAll_of_offers x.numAcc hos]
  · rw [hlast, length_answers, length_offers hos]

theorem not_refuses_of_ask (h : (s.ask x).2 = true) : ¬ Refuses s x := by
  rw [refuses_iff]
  intro hnone
  rw [ask_refused hnone] at h
  cases h

/-- What an answer is, with its predictor given. -/
theorem getToPrefetch_returned (hsized : Sized s)
    (h : s.getToPrefetch x (some palgoId) = (s', .returned i accV eaccV)) :
    i = palgoId ∧ s'.palgoIdLastPredictedAccVV = (askAll x.noise x.time 0 x.numAcc s.mp.palgoV).2.1 ∧
    s'.palgoIdLastPredictedAccVV[i]? = some accV := by
  rw [Asked.getToPrefetch] at h
  cases hask : s.ask x with
  | mk t returned =>
    rw [hask] at h
    cases returned with
    | false => cases h
    | true =>
      have hnot : ¬ Refuses s x := not_refuses_of_ask (congrArg Prod.snd hask)
      have hspec := (ask_spec hsized hnot).2.1
      rw [hask] at hspec
      dsimp only [Asked.use] at h
      split at h
      · cases h
      next accV' haccV =>
        cases h
        exact ⟨rfl, hspec, haccV⟩

/-- Where no predictor refuses there is an answer. -/
theorem exists_returned (hsized : Sized s) (h : ¬ Refuses s x) (hlt : palgoId < s.mp.palgoV.length) :
    ∃ s' accV eaccV, s.getToPrefetch x (some palgoId) = (s', .returned palgoId accV eaccV) := by
  obtain ⟨hreturned, -, hlen⟩ := ask_spec hsized h
  rw [Asked.getToPrefetch]
  cases hask : s.ask x with
  | mk t returned =>
    rw [hask] at hreturned hlen
    cases hreturned
    rw [← hlen] at hlt
    dsimp only [Asked.use]
    rw [List.getElem?_eq_getElem hlt]
    exact ⟨_, _, _, rfl⟩

end Predict

/-! ## One step -/

section Step
variable {α : Type} {ops : Mixed α} {r r' : α × Ledger} {accTime : ℚ} {acc : AccT} {x : Ask}

theorem access_some (h : ops.access r accTime acc = some r') :
    ops.addAccessAt r.1 accTime acc = (r'.1, true) ∧ r'.2 = r.2.access acc := by
  rw [Mixed.access] at h
  split at h
  next a ha =>
    cases h
    exact ⟨ha, rfl⟩
  next => cases h

theorem access_of {a : α} (h : ops.addAccessAt r.1 accTime acc = (a, true)) :
    ops.access r accTime acc = some (a, r.2.access acc) := by
  rw [Mixed.access, h]

theorem predict_of {a : α} {palgoId : Nat} {accV eaccV : List AccT}
    (h : ops.getToPrefetch r.1 x = (a, .returned palgoId accV eaccV)) :
    ops.predict r x = some (a, r.2.predict (ops.asked r.1) x accV) := by
  rw [Mixed.predict, h]

theorem predict_some (h : ops.predict r x = some r') :
    ∃ palgoId accV eaccV, ops.getToPrefetch r.1 x = (r'.1, .returned palgoId accV eaccV) ∧
      r'.2 = r.2.predict (ops.asked r.1) x accV := by
  rw [Mixed.predict] at h
  split at h
  next a palgoId accV eaccV ha =>
    cases h
    exact ⟨palgoId, accV, eaccV, ha, rfl⟩
  next => cases h

/-- What is preserved by a reset, by an access and by a prediction is preserved by a run. -/
theorem run_invariant (ops : Mixed α) (Inv : α → Ledger → Prop) {r r' : α × Ledger}
    (reset : ∀ a l, Inv a l → Inv (ops.reset a) (.start (ops.asked a).mp.palgoV.length))
    (access : ∀ a l a' accTime acc, Inv a l → ops.addAccessAt a accTime acc = (a', true) → Inv a' (l.access acc))
    (predict : ∀ a l a' x palgoId accV eaccV, Inv a l → ops.getToPrefetch a x = (a', .returned palgoId accV eaccV) →
      Inv a' (l.predict (ops.asked a) x accV))
    {calls : List Call} (start : Inv r.1 r.2) (h : Transition.run ops.step calls r = some r') : Inv r'.1 r'.2 := by
  refine (Transition.run_reaches calls h).invariant (fun r => Inv r.1 r.2) start fun u c u' hu _ hstep => ?_
  have haccess : ∀ accTime acc, ops.access u accTime acc = some u' → Inv u'.1 u'.2 := by
    intro accTime acc h
    obtain ⟨hadd, hledger⟩ := access_some h
    rw [hledger]
    exact access _ _ _ _ _ hu hadd
  cases c with
  | reset =>
    cases hstep
    exact reset _ _ hu
  | addAccess acc => exact haccess 0 acc hstep
  | addAccessAt accTime acc => exact haccess accTime acc hstep
  | getToPrefetch x =>
    obtain ⟨palgoId, accV, eaccV, hget, hledger⟩ := predict_some hstep
    rw [hledger]
    exact predict _ _ _ _ _ _ _ hu hget

end Step

/-! ## The window of `BMPAlgo` -/

section Window
variable {windowSize : Int} {n : Nat} {b b' : BMPAlgo} {l : Ledger}

/-- What has been pushed for a predictor. -/
def hits (l : Ledger) (i : Nat) : List Int := l.log.map fun e => if e.hits i then 1 else 0

def window (windowSize : Int) (l : Ledger) (i : Nat) : Queue := ⟨windowSize, (hits l i).take windowSize.toNat⟩

structure BMPTracks (n : Nat) (windowSize : Int) (b : BMPAlgo) (l : Ledger) : Prop where
  inv : BMPInv b
  count : b.mp.palgoV.length = n
  latest : b.palgoIdLastPredictedAccVV = l.latest
  queues : b.palgoIdScoreQueueV = (List.range n).map (window windowSize l)

theorem BMPTracks.length_latest (h : BMPTracks n windowSize b l) : l.latest.length = n := by
  rw [← h.latest, ← h.count]
  exact h.inv.sized

theorem push_window (h : 1 ≤ windowSize) (value : Int) (values : List Int) :
    (⟨windowSize, values.take windowSize.toNat⟩ : Queue).push value =
      ⟨windowSize, (value :: values).take windowSize.toNat⟩ := by
  obtain ⟨w, rfl⟩ : ∃ w : Nat, windowSize = (w + 1 : Nat) := ⟨windowSize.toNat - 1, by omega⟩
  rw [Queue.push, Int.toNat_natCast, List.take_succ_cons]
  dsimp only
  rw [List.length_take]
  congr 2
  split
  next hfull => rw [List.dropLast_eq_take, List.length_take, List.take_take, show min (min (w + 1) values.length - 1) (w + 1) = w by omega]
  next hroom => rw [List.take_of_length_le (by omega), List.take_of_length_le (by omega)]

theorem push_access (h : 1 ≤ windowSize) (l : Ledger) (acc : AccT) (i : Nat) :
    (window windowSize l i).push (hit acc (l.latest.getD i [])) = window windowSize (l.access acc) i :=
  push_window h _ _

theorem zipWith_range {α β γ : Type} (f : α → β → γ) (g : Nat → α) (ys : List β) (d : β) :
    List.zipWith f ((List.range ys.length).map g) ys = (List.range ys.length).map fun i => f (g i) (ys.getD i d) := by
  refine List.ext_getElem (by simp) fun i h h' => ?_
  have hi : i < ys.length := by simpa using h
  simp [List.getElem?_eq_getElem hi]

theorem bmp_addAccessAt_returned {accTime : ℚ} {acc : AccT} (h : b.addAccessAt accTime acc = (b', true)) :
    b'.toAsked = (b.toAsked.addAccess accTime acc).1 ∧
    b'.palgoIdScoreQueueV = List.zipWith (fun queue accV => queue.push (hit acc accV)) b.palgoIdScoreQueueV
      b.palgoIdLastPredictedAccVV := by
  rw [BMPAlgo.addAccessAt] at h
  have hlast : (b.toAsked.addAccess accTime acc).1.palgoIdLastPredictedAccVV = b.palgoIdLastPredictedAccVV := rfl
  cases hs : b.toAsked.addAccess accTime acc with
  | mk s returned =>
    rw [hs] at h hlast
    cases returned with
    | false => cases h
    | true =>
      cases h
      rw [← hlast]
      exact ⟨rfl, rfl⟩

theorem tracks_reset (h : BMPTracks n windowSize b l) :
    BMPTracks n windowSize b.reset (.start b.mp.palgoV.length) where
  inv := bmp_call_inv h.inv .reset
  count := (List.length_map _).trans h.count
  latest := by
    show b.palgoIdLastPredictedAccVV.map (fun _ => []) = List.replicate _ []
    rw [List.map_const', h.inv.sized]
  queues := by
    show b.palgoIdScoreQueueV.map Queue.clear = _
    rw [h.queues, List.map_map]
    refine List.map_congr_left fun i _ => ?_
    simp [window, hits, Ledger.start, Queue.clear]

theorem tracks_access (hw : 1 ≤ windowSize) (h : BMPTracks n windowSize b l) {accTime : ℚ} {acc : AccT}
    (hadd : b.addAccessAt accTime acc = (b', true)) : BMPTracks n windowSize b' (l.access acc) := by
  have hinv := addAccessAt_inv h.inv accTime acc
  have hsize := (resized_addAccess b.toAsked accTime acc).palgoV
  obtain ⟨hasked, hqueues⟩ := bmp_addAccessAt_returned hadd
  rw [hadd] at hinv
  rw [← hasked] at hsize
  refine ⟨hinv, hsize.trans h.count, ?_, ?_⟩
  · rw [hasked]
    exact h.latest
  · rw [hqueues, h.queues, h.latest, ← h.length_latest, zipWith_range _ _ _ []]
    exact List.map_congr_left fun i _ => push_access hw l acc i

theorem bmp_getToPrefetch_returned {x : Ask} {palgoId : Nat} {accV eaccV : List AccT}
    (h : b.getToPrefetch x = (b', .returned palgoId accV eaccV)) :
    b.toAsked.getToPrefetch x (some (maxFrom 0 0 0 b.scores)) = (b'.toAsked, .returned palgoId accV eaccV) ∧
    b'.palgoIdScoreQueueV = b.palgoIdScoreQueueV := by
  rw [BMPAlgo.getToPrefetch] at h
  cases hs : b.toAsked.getToPrefetch x (some (maxFrom 0 0 0 b.scores)) with
  | mk s answer =>
    rw [hs] at h
    cases h
    exact ⟨rfl, rfl⟩

theorem tracks_predict (h : BMPTracks n windowSize b l) {x : Ask} {palgoId : Nat} {accV eaccV : List AccT}
    (hget : b.getToPrefetch x = (b', .returned palgoId accV eaccV)) :
    BMPTracks n windowSize b' (l.predict b.toAsked x accV) := by
  have hinv := bmp_call_inv h.inv (.getToPrefetch x)
  have hsize := (resized_getToPrefetch b.toAsked x (some (maxFrom 0 0 0 b.scores))).palgoV
  obtain ⟨hasked, hqueues⟩ := bmp_getToPrefetch_returned hget
  rw [BMPAlgo.call, hget] at hinv
  rw [hasked] at hsize
  refine ⟨hinv, hsize.trans h.count, (getToPrefetch_returned h.inv.sized hasked).2.1, ?_⟩
  rw [hqueues, h.queues]
  rfl

theorem tracks_init (specs : List (MPAlgo.PalgoT × Nat)) (windowSize : Int) :
    BMPTracks specs.length windowSize (BMPAlgo.init specs windowSize) (.start specs.length) where
  inv := bmp_reached_inv ⟨specs, windowSize, [], rfl⟩
  count := List.length_map _
  latest := List.map_const' ..
  queues := by
    show specs.map (fun _ => (⟨windowSize, []⟩ : Queue)) = _
    refine List.ext_getElem (by simp) fun i h h' => ?_
    simp [window, hits, Ledger.start]

theorem run_tracks (hw : 1 ≤ windowSize) {specs : List (MPAlgo.PalgoT × Nat)} {calls : List Call}
    (h : Transition.run bmp.step calls (BMPAlgo.init specs windowSize, .start specs.length) = some (b, l)) :
    BMPTracks specs.length windowSize b l :=
  run_invariant bmp (BMPTracks specs.length windowSize) (fun _ _ h => tracks_reset h)
    (fun _ _ _ _ _ h hadd => tracks_access hw h hadd) (fun _ _ _ _ _ _ _ h hget => tracks_predict h hget)
    (tracks_init specs windowSize) h

theorem sum_window (l : Ledger) (i : Nat) : (window windowSize l i).q.sum = l.score windowSize i := by
  rw [window, hits, ← List.map_take]
  dsimp only [Ledger.score]
  generalize l.log.take windowSize.toNat = log
  induction log with
  | nil => rfl
  | cons e log ih =>
    rw [List.map_cons, List.sum_cons, ih, List.countP_cons]
    split <;> simp_all [add_comm]

end Window

/-- A score counts the last accesses that were in the latest list of the predictor, as many as the window is
long, and the first predictor with the best score is used. -/
theorem best_in_window (specs : List (MPAlgo.PalgoT × Nat)) (hspecs : specs ≠ []) (windowSize : Int) (hw : 1 ≤ windowSize)
    (calls : List Call) (b : BMPAlgo) (l : Ledger)
    (h : Transition.run bmp.step calls (BMPAlgo.init specs windowSize, .start specs.length) = some (b, l)) :
    b.scores = (List.range specs.length).map (fun i => (l.score windowSize i : Int)) ∧
    ∀ x, ¬ Refuses b.toAsked x → ∃ b' i score accV eaccV, b.getToPrefetch x = (b', .returned i accV eaccV) ∧
      IsFirstMax b.scores i score ∧ (askAll x.noise x.time 0 x.numAcc b.mp.palgoV).2.1[i]? = some accV := by
  have htracks := run_tracks hw h
  have hscores : b.scores = (List.range specs.length).map fun i => (l.score windowSize i : Int) := by
    rw [BMPAlgo.scores, htracks.queues, List.map_map]
    exact List.map_congr_left fun i _ => sum_window l i
  refine ⟨hscores, fun x hx => ?_⟩
  have hne : b.scores ≠ [] := by
    rw [hscores]
    simpa using hspecs
  obtain ⟨score, hbest⟩ := exists_best hne (scores_nonneg htracks.inv)
  have hlt := hbest.lt_length
  have hlen : b.scores.length = b.mp.palgoV.length := (List.length_map _).trans htracks.inv.queues
  rw [hlen] at hlt
  obtain ⟨s', accV, eaccV, hget⟩ := exists_returned htracks.inv.sized hx hlt
  obtain ⟨-, hlast, haccV⟩ := getToPrefetch_returned htracks.inv.sized hget
  rw [hlast] at haccV
  refine ⟨{ b with toAsked := s' }, _, score, accV, eaccV, ?_, hbest, haccV⟩
  rw [BMPAlgo.getToPrefetch, hget]

def twoSpecs : List (MPAlgo.PalgoT × Nat) := [(.lz, 0), (.ppm, 1)]

/-- Of the two accesses at the end the second predictor has seen the first coming, and the first one the second. -/
def twoCalls : List Call :=
  [.addAccessAt 1 5, .addAccessAt 2 6, .addAccessAt 3 5, .getToPrefetch (askFor 1 3), .addAccessAt 4 6,
    .addAccessAt 5 5]

/-- Each has one hit in a window of two. -/
theorem best_in_window_two : ∃ b l,
    Transition.run bmp.step twoCalls (BMPAlgo.init twoSpecs 2, .start twoSpecs.length) = some (b, l) ∧
    b.scores = [1, 1] ∧
    ∃ b' i score accV eaccV, b.getToPrefetch (askFor 1 6) = (b', .returned i accV eaccV) ∧
      IsFirstMax b.scores i score ∧
      (askAll (askFor 1 6).noise (askFor 1 6).time 0 (askFor 1 6).numAcc b.mp.palgoV).2.1[i]? = some accV := by
  have hrun : (Transition.run bmp.step twoCalls (BMPAlgo.init twoSpecs 2, .start twoSpecs.length)).map
      (fun r => (r.1.scores, (offers (askFor 1 6).noise (askFor 1 6).time 0 r.1.mp.palgoV).isSome)) =
      some ([1, 1], true) := by decide +kernel
  obtain ⟨⟨b, l⟩, hbl, hread⟩ := Option.map_eq_some_iff.mp hrun
  obtain ⟨hscores, hoffers⟩ := Prod.mk.inj hread
  have hnot : ¬ Refuses b.toAsked (askFor 1 6) := by
    rw [refuses_iff]
    exact Option.isSome_iff_ne_none.mp hoffers
  have htheorem := best_in_window twoSpecs (by decide) 2 (by decide) twoCalls b l hbl
  exact ⟨b, l, hbl, hscores, htheorem.2 (askFor 1 6) hnot⟩

/-! ## The weights of `MJMPAlgo` -/

section Weights

/-- The first with the fewest. -/
structure FewestFirst (k : Nat → Nat) (n i : Nat) : Prop where
  lt_num : i < n
  le : ∀ j < n, k i ≤ k j
  lt : ∀ j < i, k i < k j

/-- The weights of an offset, by the mistakes. -/
def weightsAt (off c : ℚ) (k : Nat → Nat) (n : Nat) : List Weight := (List.range n).map fun i => ((off + c * k i : ℚ) : Weight)

variable {off c : ℚ} {k k' : Nat → Nat} {n i : Nat}

theorem getElem?_weightsAt (off c : ℚ) (k : Nat → Nat) (h : i < n) :
    (weightsAt off c k n)[i]? = some ((off + c * k i : ℚ) : Weight) := by
  rw [weightsAt, List.getElem?_map, List.getElem?_range h, Option.map_some]

theorem weight_lt_iff (hc : c < 0) (i j : Nat) :
    ((off + c * k i : ℚ) : Weight) < ((off + c * k j : ℚ) : Weight) ↔ k j < k i := by
  rw [WithBot.coe_lt_coe, add_lt_add_iff_left, mul_lt_mul_left_of_neg hc, Nat.cast_lt]

theorem fewestFirst_of_firstMax (hc : c < 0) {weight : Weight} (h : IsFirstMax (weightsAt off c k n) i weight) :
    FewestFirst k n i := by
  have hi : i < n := by
    have hlt := h.lt_length
    rwa [weightsAt, List.length_map, List.length_range] at hlt
  have hweight := h.here
  rw [getElem?_weightsAt off c k hi, Option.some.injEq] at hweight
  subst hweight
  refine ⟨hi, fun j hj => ?_, fun j hj => ?_⟩
  · have hle := h.le j _ (getElem?_weightsAt off c k hj)
    by_contra hlt
    exact absurd ((weight_lt_iff hc i j).mpr (not_le.mp hlt)) (not_lt.mpr hle)
  · exact (weight_lt_iff hc j i).mp (h.lt j hj _ (getElem?_weightsAt off c k (hj.trans hi)))

theorem FewestFirst.unique {j : Nat} (h : FewestFirst k n i) (h' : FewestFirst k n j) : i = j := by
  rcases Nat.lt_trichotomy i j with hlt | heq | hlt
  · exact absurd (h'.lt i hlt) (not_lt.mpr (h.le j h'.lt_num))
  · exact heq
  · exact absurd (h.lt j hlt) (not_lt.mpr (h'.le i h.lt_num))

theorem fewestFirst_maxElement (hc : c < 0) (hn : n ≠ 0) : FewestFirst k n (maxElement (weightsAt off c k n)) := by
  have hne : weightsAt off c k n ≠ [] := by simpa [weightsAt] using hn
  obtain ⟨weight, h⟩ := exists_greatest hne
  exact fewestFirst_of_firstMax hc h

theorem foldr_min_toAdd (w : ℚ) (ws : List ℚ) :
    ∃ d : ℚ, ((((w :: ws).map fun q : ℚ => (q : Weight)).map toAdd).foldr min ⊤) = (d : WithTop ℚ) := by
  induction ws generalizing w with
  | nil => exact ⟨initialMjWeight - w, min_eq_left le_top⟩
  | cons w' ws ih =>
    obtain ⟨d, hd⟩ := ih w'
    rw [List.map_cons, List.map_cons, List.foldr_cons, hd]
    exact ⟨min (initialMjWeight - w) d, (WithTop.coe_min _ _).symm⟩

/-- Replenishing adds one number to all weights. -/
theorem replenish_finite (ws : List ℚ) :
    ∃ d : ℚ, replenish (ws.map fun q : ℚ => (q : Weight)) = ws.map fun q : ℚ => ((q + d : ℚ) : Weight) := by
  cases ws with
  | nil => exact ⟨0, rfl⟩
  | cons w ws =>
    obtain ⟨d, hd⟩ := foldr_min_toAdd w ws
    refine ⟨d, ?_⟩
    rw [replenish, hd, List.map_map]
    rfl

theorem replenish_weightsAt (off c : ℚ) (k : Nat → Nat) (n : Nat) :
    ∃ off', replenish (weightsAt off c k n) = weightsAt off' c k n := by
  obtain ⟨d, hd⟩ := replenish_finite ((List.range n).map fun i => off + c * k i)
  rw [List.map_map, List.map_map] at hd
  refine ⟨off + d, hd.trans (List.map_congr_left fun i _ => ?_)⟩
  exact congrArg _ (add_right_comm _ _ _)

end Weights

/-! ## The runs of `MJMPAlgo` -/

section Majority
variable {n : Nat} {c : ℚ} {m m' : MJMPAlgo} {l : Ledger} {replenishes : MJMPAlgo → AccT → Bool} {accTime : ℚ}
  {acc : AccT} {s : Asked} {x : Ask} {palgoId : Nat} {accV eaccV : List AccT}

structure MJTracks (n : Nat) (c : ℚ) (m : MJMPAlgo) (l : Ledger) : Prop where
  inv : MJMPInv m
  count : m.mp.palgoV.length = n
  latest : m.palgoIdLastPredictedAccVV = l.latest
  returned : m.lastPredictedAccV = l.returned
  beta : m.log2Beta = (c : Weight)
  weights : ∃ off, m.palgoIdWeightV = weightsAt off c l.mistakes n

theorem MJTracks.length_latest (h : MJTracks n c m l) : l.latest.length = n := by
  rw [← h.latest, ← h.count]
  exact h.inv.sized

/-- The weights after an access. -/
def weightsAfter (replenishes : MJMPAlgo → AccT → Bool) (m : MJMPAlgo) (acc : AccT) : List Weight :=
  if m.lastPredictedAccV = [] ∨ acc ∈ m.lastPredictedAccV then m.palgoIdWeightV
  else
    let weightV := (List.zipWith (penalise m.log2Beta acc) m.palgoIdWeightV m.palgoIdLastPredictedAccVV).map (·.1)
    if replenishes m acc then replenish weightV else weightV

theorem addAccessAtWhen_eq (replenishes : MJMPAlgo → AccT → Bool) (m : MJMPAlgo) (accTime : ℚ) (acc : AccT) :
    addAccessAtWhen replenishes m accTime acc =
      ({ m with
          toAsked := (m.toAsked.addAccess accTime acc).1
          palgoIdWeightV := if (m.toAsked.addAccess accTime acc).2 then weightsAfter replenishes m acc
            else m.palgoIdWeightV },
        (m.toAsked.addAccess accTime acc).2) := by
  have hlast : (m.toAsked.addAccess accTime acc).1.palgoIdLastPredictedAccVV = m.palgoIdLastPredictedAccVV := rfl
  rw [addAccessAtWhen]
  cases hs : m.toAsked.addAccess accTime acc with
  | mk s returned =>
    rw [hs] at hlast
    cases returned with
    | false => rfl
    | true =>
      dsimp only at hlast ⊢
      rw [hlast, weightsAfter, if_pos rfl]
      split <;> rfl

theorem mjmp_eq : mjmp = mjmpWhen becomesLow := by
  have hadd : MJMPAlgo.addAccessAt = addAccessAtWhen becomesLow := by
    funext m accTime acc
    have hlast : (m.toAsked.addAccess accTime acc).1.palgoIdLastPredictedAccVV = m.palgoIdLastPredictedAccVV := rfl
    rw [MJMPAlgo.addAccessAt, addAccessAtWhen, becomesLow, ← hlast]
    cases m.toAsked.addAccess accTime acc with
    | mk s returned => cases returned <;> rfl
  rw [mjmpWhen, ← hadd]
  rfl

/-- An access is a mistake of the predictors whose latest list it is not in, if the list returned is not empty
and has missed it. -/
theorem mistakes_access (l : Ledger) (acc : AccT) (i : Nat) : (l.access acc).mistakes i =
    l.mistakes i + if l.returned ≠ [] ∧ acc ∉ l.returned ∧ acc ∉ l.latest.getD i [] then 1 else 0 := by
  rw [Ledger.mistakes, Ledger.access, List.countP_cons]
  simp only [decide_eq_true_eq]
  rfl

theorem penalise_fst (c w : ℚ) (acc : AccT) (accV : List AccT) :
    (penalise (c : Weight) acc (w : Weight) accV).1 = ((w + if acc ∈ accV then 0 else c : ℚ) : Weight) := by
  rw [penalise]
  split
  · rw [add_zero]
  · exact (WithBot.coe_add _ _).symm

theorem weightsAfter_tracks (h : MJTracks n c m l) (replenishes : MJMPAlgo → AccT → Bool) (acc : AccT) :
    ∃ off, weightsAfter replenishes m acc = weightsAt off c (l.access acc).mistakes n := by
  obtain ⟨off, hweights⟩ := h.weights
  rw [weightsAfter, h.returned]
  split
  next hright =>
    refine ⟨off, hweights.trans (List.map_congr_left fun i _ => ?_)⟩
    have hnone : ¬ (l.returned ≠ [] ∧ acc ∉ l.returned ∧ acc ∉ l.latest.getD i []) := by
      rintro ⟨hne, hnot, -⟩
      exact hright.elim hne hnot
    rw [mistakes_access, if_neg hnone, add_zero]
  next hwrong =>
    obtain ⟨hne, hnot⟩ := not_or.mp hwrong
    have hpenalised : (List.zipWith (penalise m.log2Beta acc) m.palgoIdWeightV m.palgoIdLastPredictedAccVV).map (·.1) =
        weightsAt off c (l.access acc).mistakes n := by
      rw [h.beta, h.latest, hweights, weightsAt, ← h.length_latest, zipWith_range _ _ _ [], List.map_map]
      refine List.map_congr_left fun i _ => ?_
      rw [Function.comp_apply, penalise_fst, mistakes_access]
      simp only [ne_eq, hne, hnot, not_false_iff, true_and]
      congr 1
      split <;> simp_all [mul_add, add_assoc]
    dsimp only
    rw [hpenalised]
    split
    · exact replenish_weightsAt off c _ n
    · exact ⟨off, rfl⟩

theorem mj_tracks_reset (h : MJTracks n c m l) : MJTracks n c m.reset (.start m.mp.palgoV.length) where
  inv := mj_callBy_inv h.inv pickGreatest .reset
  count := (List.length_map _).trans h.count
  latest := by
    show m.palgoIdLastPredictedAccVV.map (fun _ => []) = List.replicate _ []
    rw [List.map_const', h.inv.sized]
  returned := rfl
  beta := h.beta
  weights := by
    refine ⟨initialMjWeight, ?_⟩
    show m.palgoIdWeightV.map (fun _ => (initialMjWeight : Weight)) = _
    have hlen : m.palgoIdWeightV.length = n := h.inv.weights.trans h.count
    refine List.ext_getElem (by simp [weightsAt, hlen]) fun i h h' => ?_
    simp [weightsAt, Ledger.mistakes, Ledger.start]

theorem mj_tracks_access (h : MJTracks n c m l) (hadd : addAccessAtWhen replenishes m accTime acc = (m', true)) :
    MJTracks n c m' (l.access acc) := by
  have hsize := resized_addAccess m.toAsked accTime acc
  rw [addAccessAtWhen_eq, Prod.mk.injEq] at hadd
  obtain ⟨rfl, htrue⟩ := hadd
  rw [if_pos htrue]
  obtain ⟨off, hoff⟩ := weightsAfter_tracks h replenishes acc
  refine ⟨⟨hsize.sized h.inv.sized, ?_⟩, hsize.palgoV.trans h.count, h.latest, h.returned, h.beta, off, hoff⟩
  show (weightsAfter replenishes m acc).length = (m.toAsked.addAccess accTime acc).1.mp.palgoV.length
  rw [hoff, hsize.palgoV, h.count, weightsAt, List.length_map, List.length_range]

theorem mj_getToPrefetch_eq (h : m.toAsked.getToPrefetch x (some (maxElement m.palgoIdWeightV)) =
    (s, .returned palgoId accV eaccV)) : m.getToPrefetch x =
    ({ m with toAsked := s, lastPredictedAccV := accV }, .returned palgoId accV eaccV) := by
  rw [MJMPAlgo.getToPrefetch, MJMPAlgo.getToPrefetchBy, pickGreatest, h]

theorem mj_getToPrefetch_returned (h : m.getToPrefetch x = (m', .returned palgoId accV eaccV)) :
    m.toAsked.getToPrefetch x (some (maxElement m.palgoIdWeightV)) = (m'.toAsked, .returned palgoId accV eaccV) ∧
    m' = { m with toAsked := m'.toAsked, lastPredictedAccV := accV } := by
  have hsnd := getToPrefetchBy_snd pickGreatest m x
  rw [← MJMPAlgo.getToPrefetch, h] at hsnd
  have hget : m.toAsked.getToPrefetch x (some (maxElement m.palgoIdWeightV)) =
      ((m.toAsked.getToPrefetch x (some (maxElement m.palgoIdWeightV))).1, .returned palgoId accV eaccV) :=
    Prod.ext rfl hsnd.symm
  rw [mj_getToPrefetch_eq hget, Prod.mk.injEq] at h
  obtain ⟨rfl, -⟩ := h
  exact ⟨hget, rfl⟩

theorem mj_tracks_predict (h : MJTracks n c m l) (hget : m.getToPrefetch x = (m', .returned palgoId accV eaccV)) :
    MJTracks n c m' (l.predict m.toAsked x accV) := by
  have hinv := mj_callBy_inv h.inv pickGreatest (.getToPrefetch x)
  have hsize := (resized_getToPrefetch m.toAsked x (some (maxElement m.palgoIdWeightV))).palgoV
  obtain ⟨hasked, hm'⟩ := mj_getToPrefetch_returned hget
  rw [MJMPAlgo.callBy, ← MJMPAlgo.getToPrefetch, hget] at hinv
  rw [hasked] at hsize
  refine ⟨hinv, hsize.trans h.count, (getToPrefetch_returned h.inv.sized hasked).2.1, ?_, ?_, ?_⟩
  · rw [hm']
    rfl
  · rw [hm']
    exact h.beta
  · rw [hm']
    exact h.weights

theorem mj_tracks_init (specs : List (MPAlgo.PalgoT × Nat)) (c : ℚ) :
    MJTracks specs.length c (MJMPAlgo.init specs c) (.start specs.length) where
  inv := by
    have hreached : (MJMPAlgo.init specs c).Reached := ⟨specs, c, [], rfl⟩
    exact mj_reached_inv hreached
  count := List.length_map _
  latest := List.map_const' ..
  returned := rfl
  beta := rfl
  weights := by
    refine ⟨initialMjWeight, ?_⟩
    show specs.map (fun _ => (initialMjWeight : Weight)) = _
    refine List.ext_getElem (by simp [weightsAt]) fun i h h' => ?_
    simp [weightsAt, Ledger.mistakes, Ledger.start]

theorem mj_run_tracks {calls : List Call} (h : MJTracks n c m l) {l' : Ledger}
    (hrun : Transition.run (mjmpWhen replenishes).step calls (m, l) = some (m', l')) : MJTracks n c m' l' :=
  run_invariant (mjmpWhen replenishes) (MJTracks n c) (fun _ _ h => mj_tracks_reset h)
    (fun _ _ _ _ _ h hadd => mj_tracks_access h hadd) (fun _ _ _ _ _ _ _ h hget => mj_tracks_predict h hget) h hrun

theorem MJTracks.fewestFirst (h : MJTracks n c m l) (hc : c < 0) (hn : n ≠ 0) :
    FewestFirst l.mistakes n (maxElement m.palgoIdWeightV) := by
  obtain ⟨off, hoff⟩ := h.weights
  rw [hoff]
  exact fewestFirst_maxElement hc hn

/-- Two that have the same predictors and the same ledger choose the same one. -/
theorem MJTracks.same_choice (h : MJTracks n c m l) (h' : MJTracks n c m' l) (hc : c < 0) (hn : n ≠ 0) :
    maxElement m'.palgoIdWeightV = maxElement m.palgoIdWeightV :=
  (h'.fewestFirst hc hn).unique (h.fewestFirst hc hn)

/-- A step goes the same way wherever the weights are replenished. -/
theorem step_alike (replenishes' : MJMPAlgo → AccT → Bool) (hc : c < 0) (hn : n ≠ 0) (h : MJTracks n c m l) (h' : MJTracks n c m' l)
    (hsame : m'.toAsked = m.toAsked) {call : Call} {t : MJMPAlgo} {l' : Ledger}
    (hstep : (mjmpWhen replenishes).step (m, l) call = some (t, l')) :
    ∃ t', (mjmpWhen replenishes').step (m', l) call = some (t', l') ∧ t'.toAsked = t.toAsked := by
  have haccess : ∀ accTime acc, (mjmpWhen replenishes).access (m, l) accTime acc = some (t, l') →
      ∃ t', (mjmpWhen replenishes').access (m', l) accTime acc = some (t', l') ∧ t'.toAsked = t.toAsked := by
    intro accTime acc hstep
    obtain ⟨hadd, hledger⟩ := access_some hstep
    obtain rfl : l' = l.access acc := hledger
    have hadd' : addAccessAtWhen replenishes m accTime acc = (t, true) := hadd
    rw [addAccessAtWhen_eq, Prod.mk.injEq] at hadd'
    obtain ⟨rfl, htrue⟩ := hadd'
    rw [← hsame] at htrue
    have hadd' := addAccessAtWhen_eq replenishes' m' accTime acc
    rw [htrue] at hadd'
    have haccess' : (mjmpWhen replenishes').access (m', l) accTime acc = some (_, l.access acc) := access_of hadd'
    exact ⟨_, haccess', congrArg (fun s => (s.addAccess accTime acc).1) hsame⟩
  cases call with
  | reset =>
    cases hstep
    refine ⟨m'.reset, ?_, congrArg Asked.reset hsame⟩
    show some (m'.reset, Ledger.start m'.mp.palgoV.length) = _
    rw [h'.count, ← h.count]
    rfl
  | addAccess acc => exact haccess 0 acc hstep
  | addAccessAt accTime acc => exact haccess accTime acc hstep
  | getToPrefetch x =>
    obtain ⟨palgoId, accV, eaccV, hget, hledger⟩ := predict_some hstep
    obtain rfl : l' = l.predict m.toAsked x accV := hledger
    obtain ⟨hasked, -⟩ := mj_getToPrefetch_returned hget
    rw [← hsame, ← h.same_choice h' hc hn] at hasked
    have hpredict : (mjmpWhen replenishes').predict (m', l) x =
        some ({ m' with toAsked := t.toAsked, lastPredictedAccV := accV }, l.predict m'.toAsked x accV) :=
      predict_of (mj_getToPrefetch_eq hasked)
    rw [hsame] at hpredict
    exact ⟨_, hpredict, rfl⟩

theorem run_alike (replenishes' : MJMPAlgo → AccT → Bool) (hc : c < 0) (hn : n ≠ 0) (h : MJTracks n c m l) (h' : MJTracks n c m' l)
    (hsame : m'.toAsked = m.toAsked) {calls : List Call} {t : MJMPAlgo}
    {l' : Ledger} (hrun : Transition.run (mjmpWhen replenishes).step calls (m, l) = some (t, l')) :
    ∃ t', Transition.run (mjmpWhen replenishes').step calls (m', l) = some (t', l') ∧ t'.toAsked = t.toAsked := by
  induction calls generalizing m m' l with
  | nil =>
    cases hrun
    exact ⟨m', rfl, hsame⟩
  | cons call calls ih =>
    obtain ⟨⟨u, lu⟩, hu, hrest⟩ := Option.bind_eq_some_iff.mp hrun
    obtain ⟨u', hu', hsame'⟩ := step_alike replenishes' hc hn h h' hsame hu
    have hone : ∀ replenishes (m u : MJMPAlgo), (mjmpWhen replenishes).step (m, l) call = some (u, lu) →
        Transition.run (mjmpWhen replenishes).step [call] (m, l) = some (u, lu) := by
      intro replenishes m u hu
      rw [Transition.run, hu]
      rfl
    obtain ⟨t', ht', hsame''⟩ := ih (mj_run_tracks h (hone _ _ _ hu)) (mj_run_tracks h' (hone _ _ _ hu')) hsame' hrest
    exact ⟨t', Option.bind_eq_some_iff.mpr ⟨_, hu', ht'⟩, hsame''⟩

end Majority

/-- The predictor used is the first with the fewest mistakes since the last reset, and in the same run with the
weights replenished at any other times the same ones are used and the same lists returned. -/
theorem fewest_mistakes (specs : List (MPAlgo.PalgoT × Nat)) (hspecs : specs ≠ []) (c : ℚ) (hc : c < 0)
    (calls : List Call) (m : MJMPAlgo) (l : Ledger)
    (h : Transition.run mjmp.step calls (MJMPAlgo.init specs c, .start specs.length) = some (m, l)) :
    (∀ x, ¬ Refuses m.toAsked x → ∃ m' i accV eaccV, m.getToPrefetch x = (m', .returned i accV eaccV) ∧
      FewestFirst l.mistakes specs.length i ∧
      (askAll x.noise x.time 0 x.numAcc m.mp.palgoV).2.1[i]? = some accV) ∧
    ∀ replenishes, ∃ m',
      Transition.run (mjmpWhen replenishes).step calls (MJMPAlgo.init specs c, .start specs.length) = some (m', l) ∧
      m'.toAsked = m.toAsked ∧ ∀ x, (m'.getToPrefetch x).2 = (m.getToPrefetch x).2 := by
  have hn : specs.length ≠ 0 := fun hzero => hspecs (List.length_eq_zero_iff.mp hzero)
  rw [mjmp_eq] at h
  have htracks := mj_run_tracks (mj_tracks_init specs c) h
  refine ⟨fun x hx => ?_, fun replenishes => ?_⟩
  · have hfewest := htracks.fewestFirst hc hn
    obtain ⟨s', accV, eaccV, hget⟩ := exists_returned htracks.inv.sized hx (htracks.count ▸ hfewest.lt_num)
    obtain ⟨-, hlast, haccV⟩ := getToPrefetch_returned htracks.inv.sized hget
    rw [hlast] at haccV
    exact ⟨_, _, accV, eaccV, mj_getToPrefetch_eq hget, hfewest, haccV⟩
  · obtain ⟨m', hrun, hsame⟩ := run_alike replenishes hc hn (mj_tracks_init specs c)
      (mj_tracks_init specs c) rfl h
    refine ⟨m', hrun, hsame, fun x => ?_⟩
    have htracks' := mj_run_tracks (mj_tracks_init specs c) hrun
    rw [MJMPAlgo.getToPrefetch, MJMPAlgo.getToPrefetch, getToPrefetchBy_snd, getToPrefetchBy_snd, hsame, pickGreatest,
      pickGreatest, htracks.same_choice htracks' hc hn]

/-- The second predictor has made a mistake less than the first. -/
theorem fewest_mistakes_two : ∃ m l,
    Transition.run mjmp.step twoCalls (MJMPAlgo.init twoSpecs (-1 : ℚ), .start twoSpecs.length) = some (m, l) ∧
    [l.mistakes 0, l.mistakes 1] = [1, 0] ∧
    ∃ m' i accV eaccV, m.getToPrefetch (askFor 1 6) = (m', .returned i accV eaccV) ∧
      FewestFirst l.mistakes twoSpecs.length i ∧
      (askAll (askFor 1 6).noise (askFor 1 6).time 0 (askFor 1 6).numAcc m.mp.palgoV).2.1[i]? = some accV := by
  have hrun : (Transition.run mjmp.step twoCalls (MJMPAlgo.init twoSpecs (-1 : ℚ), .start twoSpecs.length)).map
      (fun r => ([r.2.mistakes 0, r.2.mistakes 1],
        (offers (askFor 1 6).noise (askFor 1 6).time 0 r.1.mp.palgoV).isSome)) =
      some ([1, 0], true) := by decide +kernel
  obtain ⟨⟨m, l⟩, hml, hread⟩ := Option.map_eq_some_iff.mp hrun
  obtain ⟨hmistakes, hoffers⟩ := Prod.mk.inj hread
  have hnot : ¬ Refuses m.toAsked (askFor 1 6) := by
    rw [refuses_iff]
    exact Option.isSome_iff_ne_none.mp hoffers
  have htheorem := fewest_mistakes twoSpecs (by decide) (-1) (by norm_num) twoCalls m l hml
  exact ⟨m, l, hml, hmistakes, htheorem.1 (askFor 1 6) hnot⟩

end MixedRuns
