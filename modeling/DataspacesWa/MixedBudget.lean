import DataspacesWa.MixedChoice

/-!
# The number asked for

The predictors are asked one after the other with one variable, which each sets
to the length of its list. So a predictor is asked for what the ones before it
have left of the number, and after one that has nothing to predict the next is
asked for none, which for it is no bound at all.
-/
namespace MixedBudget

open Predictors MixedChoice
open MPAlgo (askAll)
open Pick (maxFrom fallsFrom IsFirstMax FallsOn isFirstMax_singleton exists_maxFrom fallsFrom_iff)
open TopK (ranked pushUntil pushUntil_nil pushUntil_past)

/-! ## What a predictor has to offer -/

/-- All that a predictor can return, and how much of it without being asked for any. -/
structure Offer where
  all : List AccT
  first : Nat
  first_le : first ≤ all.length

/-- The length of the answer to a number. -/
def Offer.count (o : Offer) (numAcc : Nat) : Nat := if numAcc = 0 then o.first else min numAcc o.all.length

def Offer.answer (o : Offer) (numAcc : Nat) : List AccT := o.all.take (o.count numAcc)

/-- Nothing where the time is before an access. -/
def offer (noise : Noise) (time : ℚ) : PAlgo → Option Offer
  | .malgo a =>
    let accV := (ranked (a.accProbMap noise).2).map (·.2)
    some ⟨accV, accV.length, le_rfl⟩
  | .talgo a => (a.rank noise time a.meanVar.entries SortedMap.empty []).map fun r =>
    ⟨r.1.entries.map (·.2) ++ r.2, (r.1.entries.map (·.2)).length, by simp⟩

def offers (noise : Nat → Noise) (time : ℚ) : Nat → List PAlgo → Option (List Offer)
  | _, [] => some []
  | i, a :: palgoV =>
    match offer (noise i) time a, offers noise time (i + 1) palgoV with
    | some o, some os => some (o :: os)
    | _, _ => none

/-- What is left of a number behind some predictors. -/
def left (numAcc : Nat) (os : List Offer) : Nat := os.foldl (fun numAcc o => o.count numAcc) numAcc

/-! ## What is asked -/

/-- The time is before the last arrival of an access that the `TAlgo` has a mean for. -/
def Late (time : ℚ) (a : TAlgo) : Prop :=
  ∃ acc, a.meanVar.contains acc = true ∧ time < (MPAlgo.lastArr a acc).getD 0

def Refuses (s : Asked) (x : Ask) : Prop := ∃ a, .talgo a ∈ s.mp.palgoV ∧ Late x.time a

/-- For what is left of the number a predictor has as many to return as for the number itself. -/
def Unhindered (s : Asked) (x : Ask) (palgoId : Nat) : Prop :=
  ∃ os o, offers x.noise x.time 0 s.mp.palgoV = some os ∧ os[palgoId]? = some o ∧
    o.count (left x.numAcc (os.take palgoId)) = o.count x.numAcc

/-- The list is within the number, and is what the predictor returns on its own. -/
def Respects (s : Asked) (x : Ask) : Answer → Prop
  | .refused => True
  | .undefined => False
  | .returned palgoId accV _ => accV.length ≤ x.numAcc ∧
    ∃ a, s.mp.palgoV[palgoId]? = some a ∧ (a.getToPrefetch (x.noise palgoId) x.time x.numAcc).2 = some accV

/-! ## One predictor -/

section Offer
variable {o : Offer} {num num' : Nat}

theorem Offer.count_le (o : Offer) (num : Nat) : o.count num ≤ o.all.length := by
  rw [count]
  split
  · exact o.first_le
  · exact Nat.min_le_right _ _

theorem Offer.length_answer (o : Offer) (num : Nat) : (o.answer num).length = o.count num := by
  rw [answer, List.length_take, Nat.min_eq_left (o.count_le num)]

theorem Offer.answer_eq_iff : o.answer num = o.answer num' ↔ o.count num = o.count num' := by
  constructor
  · intro h
    rw [← o.length_answer, h, o.length_answer]
  · intro h
    rw [answer, answer, h]

theorem Offer.count_le_num (h : 0 < num) : o.count num ≤ num := by
  rw [count, if_neg (by omega)]
  exact Nat.min_le_left _ _

theorem Offer.answer_zero (o : Offer) : o.answer 0 = o.all.take o.first := rfl

theorem Offer.answer_pos (h : 0 < num) : o.answer num = o.all.take num := by
  rw [answer, count, if_neg (by omega), List.take_eq_take_iff, Nat.min_assoc, Nat.min_self]

theorem fillUp_eq (num : Nat) (accV skippedV : List AccT) :
    fillUp num accV skippedV = accV ++ skippedV.take (num - accV.length) := by
  induction skippedV generalizing accV with
  | nil => simp [fillUp]
  | cons acc skippedV ih =>
    rw [fillUp]
    split
    next hlt =>
      rw [ih, List.length_append, List.length_singleton, List.append_assoc, List.singleton_append,
        show num - accV.length = num - (accV.length + 1) + 1 by omega, List.take_succ_cons]
    next hge => rw [Nat.sub_eq_zero_of_le (by omega), List.take_zero, List.append_nil]

/-- A number of zero is no bound. -/
theorem pushUntil_zero {α : Type} (xs : List α) : pushUntil 0 [] xs = xs := by
  have hpast : pushUntil 0 [] xs = [] ++ xs := pushUntil_past (Nat.zero_le _) xs
  rw [hpast, List.nil_append]

/-- What a predictor returns is its answer. -/
theorem getToPrefetch_offer (noise : Noise) (time : ℚ) (num : Nat) (a : PAlgo) :
    (a.getToPrefetch noise time num).2 = (offer noise time a).map (·.answer num) := by
  cases a with
  | malgo a =>
    show some (pushUntil num [] _) = some (Offer.answer _ num)
    rcases Nat.eq_zero_or_pos num with rfl | hnum
    · rw [pushUntil_zero, Offer.answer_zero]
      exact congrArg some List.take_length.symm
    · rw [pushUntil_nil hnum, Offer.answer_pos hnum]
      rfl
  | talgo a =>
    show ((a.getToPrefetch noise time num [] []).map (·.1)) = _
    rw [TAlgo.getToPrefetch, offer, Option.map_map, Option.map_map]
    refine Option.map_congr fun r _ => ?_
    simp only [Function.comp]
    rcases Nat.eq_zero_or_pos num with rfl | hnum
    · rw [pushUntil_zero, fillUp_eq, Nat.zero_sub, Offer.answer_zero]
      simp
    · rw [pushUntil_nil hnum, fillUp_eq, Offer.answer_pos hnum, List.take_append, List.length_take]
      congr 2
      omega

end Offer

/-! ## Refusing -/

section Late
variable {time : ℚ} {i : Nat} {palgoV : List PAlgo}

theorem lastArr_getD (a : TAlgo) (acc : AccT) :
    (((a.arrInterTimes.get? acc).getD []).getLast?.getD (0, 0)).1 = (MPAlgo.lastArr a acc).getD 0 := by
  rw [MPAlgo.lastArr]
  cases ((a.arrInterTimes.get? acc).getD []).getLast? <;> rfl

theorem rank_eq_none_iff (noise : Noise) (a : TAlgo) (entries : List (AccT × ℚ × ℚ)) (probAccMap : SortedMap ℚ AccT)
    (skippedV : List AccT) :
    a.rank noise time entries probAccMap skippedV = none ↔ ∃ e ∈ entries, time < (MPAlgo.lastArr a e.1).getD 0 := by
  induction entries generalizing probAccMap skippedV with
  | nil => simp [TAlgo.rank]
  | cons e entries ih =>
    obtain ⟨acc, mean, variance⟩ := e
    rw [TAlgo.rank, lastArr_getD]
    simp only [List.mem_cons, or_and_right, exists_or, exists_eq_left]
    split
    next hneg => simp [sub_neg.mp hneg]
    next hneg =>
      have hle : ¬ time < (MPAlgo.lastArr a acc).getD 0 := fun hlt => hneg (sub_neg.mpr hlt)
      rw [or_iff_right hle]
      split
      · exact ih _ _
      · split
        · exact ih _ _
        · exact ih _ _

theorem offer_eq_none_iff (noise : Noise) (a : PAlgo) :
    offer noise time a = none ↔ ∃ t, a = .talgo t ∧ Late time t := by
  cases a with
  | malgo a => simp [offer]
  | talgo a =>
    rw [offer, Option.map_eq_none_iff, rank_eq_none_iff]
    simp only [PAlgo.talgo.injEq, exists_eq_left', Late, SortedMap.contains_iff, List.mem_map]
    constructor
    · rintro ⟨e, he, hlt⟩
      exact ⟨e.1, ⟨e, he, rfl⟩, hlt⟩
    · rintro ⟨_, ⟨e, he, rfl⟩, hlt⟩
      exact ⟨e, he, hlt⟩

theorem offers_eq_none_iff (noise : Nat → Noise) :
    offers noise time i palgoV = none ↔ ∃ t, .talgo t ∈ palgoV ∧ Late time t := by
  induction palgoV generalizing i with
  | nil => simp [offers]
  | cons a palgoV ih =>
    have hcons : (∃ t, .talgo t ∈ a :: palgoV ∧ Late time t) ↔
        offer (noise i) time a = none ∨ offers noise time (i + 1) palgoV = none := by
      rw [offer_eq_none_iff, ih]
      simp only [List.mem_cons, or_and_right, exists_or, eq_comm]
    rw [hcons, offers]
    cases offer (noise i) time a with
    | none => simp
    | some o => cases offers noise time (i + 1) palgoV <;> simp

theorem refuses_iff (s : Asked) (x : Ask) : Refuses s x ↔ offers x.noise x.time 0 s.mp.palgoV = none :=
  (offers_eq_none_iff x.noise).symm

end Late

/-! ## All predictors -/

section All
variable {noise : Nat → Noise} {time : ℚ} {i num : Nat} {palgoV : List PAlgo} {os : List Offer}

/-- The answers to a number that each sets to the length of its own. -/
def answers : Nat → List Offer → List (List AccT)
  | _, [] => []
  | num, o :: os => o.answer num :: answers (o.count num) os

theorem length_answers (num : Nat) (os : List Offer) : (answers num os).length = os.length := by
  induction os generalizing num with
  | nil => rfl
  | cons o os ih => simp [answers, ih]

theorem getElem?_answers (num : Nat) (os : List Offer) (j : Nat) :
    (answers num os)[j]? = os[j]?.map fun o => o.answer (left num (os.take j)) := by
  induction os generalizing num j with
  | nil => rfl
  | cons o os ih =>
    cases j with
    | zero => rfl
    | succ j =>
      rw [answers, List.getElem?_cons_succ, ih, List.getElem?_cons_succ, List.take_succ_cons]
      rfl

theorem offers_cons (h : offers noise time i palgoV = some os) {a : PAlgo} {rest : List PAlgo}
    (hcons : palgoV = a :: rest) : ∃ o os', offer (noise i) time a = some o ∧
      offers noise time (i + 1) rest = some os' ∧ os = o :: os' := by
  subst hcons
  rw [offers] at h
  split at h
  next o os' ho hos => exact ⟨o, os', ho, hos, (Option.some.inj h).symm⟩
  next => cases h

theorem askAll_of_offers (num : Nat) (h : offers noise time i palgoV = some os) :
    (askAll noise time i num palgoV).2 = (answers num os, true) := by
  induction palgoV generalizing i num os with
  | nil =>
    obtain rfl := Option.some.inj h
    rfl
  | cons a palgoV ih =>
    obtain ⟨o, os', ho, hos, rfl⟩ := offers_cons h rfl
    have hanswer := getToPrefetch_offer (noise i) time num a
    rw [ho, Option.map_some] at hanswer
    rw [askAll]
    cases ha : a.getToPrefetch (noise i) time num with
    | mk a' accV =>
      rw [ha] at hanswer
      cases hanswer
      dsimp only
      rw [o.length_answer, congrArg Prod.fst (ih _ hos), congrArg Prod.snd (ih _ hos)]
      rfl

theorem askAll_refused (h : offers noise time i palgoV = none) : (askAll noise time i num palgoV).2.2 = false := by
  induction palgoV generalizing i num with
  | nil => cases h
  | cons a palgoV ih =>
    have hanswer := getToPrefetch_offer (noise i) time num a
    rw [askAll]
    cases ha : a.getToPrefetch (noise i) time num with
    | mk a' accV =>
      cases accV with
      | none => rfl
      | some accV =>
        have hrest : offers noise time (i + 1) palgoV = none → (askAll noise time (i + 1) accV.length palgoV).2.2 = false :=
          ih
        refine hrest ?_
        rw [ha] at hanswer
        rw [offers] at h
        split at h
        · cases h
        next hnone =>
          cases ho : offer (noise i) time a with
          | none =>
            rw [ho] at hanswer
            cases hanswer
          | some o =>
            cases hos : offers noise time (i + 1) palgoV with
            | none => rfl
            | some os => exact absurd hos (hnone o os ho)

theorem getElem?_offers (h : offers noise time i palgoV = some os) (j : Nat) :
    os[j]? = palgoV[j]?.bind fun a => offer (noise (i + j)) time a := by
  induction palgoV generalizing i os j with
  | nil =>
    obtain rfl := Option.some.inj h
    rfl
  | cons a palgoV ih =>
    obtain ⟨o, os', ho, hos, rfl⟩ := offers_cons h rfl
    cases j with
    | zero => exact ho.symm
    | succ j =>
      rw [List.getElem?_cons_succ, ih hos, List.getElem?_cons_succ, Nat.add_right_comm]
      rfl

end All

/-! ## The predictor that is used -/

section Use
variable {s : Asked} {x : Ask}

/-- There is a last prediction for each predictor. -/
def Sized (s : Asked) : Prop := s.palgoIdLastPredictedAccVV.length = s.mp.palgoV.length

theorem length_offers {noise : Nat → Noise} {time : ℚ} {i : Nat} {palgoV : List PAlgo} {os : List Offer}
    (h : offers noise time i palgoV = some os) : os.length = palgoV.length := by
  induction palgoV generalizing i os with
  | nil =>
    obtain rfl := Option.some.inj h
    rfl
  | cons a palgoV ih =>
    obtain ⟨o, os', -, hos, rfl⟩ := offers_cons h rfl
    rw [List.length_cons, List.length_cons, ih hos]

theorem ask_of_offers (hsized : Sized s) {os : List Offer}
    (h : offers x.noise x.time 0 s.mp.palgoV = some os) :
    (s.ask x).2 = true ∧ (s.ask x).1.palgoIdLastPredictedAccVV = answers x.numAcc os := by
  have hasked := askAll_of_offers x.numAcc h
  have hlen : (answers x.numAcc os).length = s.palgoIdLastPredictedAccVV.length := by
    rw [length_answers, length_offers h, hsized]
  constructor
  · exact congrArg Prod.snd hasked
  · show (askAll x.noise x.time 0 x.numAcc s.mp.palgoV).2.1 ++ _ = _
    rw [congrArg Prod.fst hasked, hlen, List.drop_length, List.append_nil]

theorem ask_refused (h : offers x.noise x.time 0 s.mp.palgoV = none) : (s.ask x).2 = false := askAll_refused h

/-- The answer of the predictor that is used is its own exactly when it is not hindered. -/
theorem respects_returned {palgoId : Nat} {os : List Offer} {o : Offer} (eaccV : List AccT) (hnum : 0 < x.numAcc)
    (hos : offers x.noise x.time 0 s.mp.palgoV = some os) (ho : os[palgoId]? = some o) :
    Respects s x (.returned palgoId (o.answer (left x.numAcc (os.take palgoId))) eaccV) ↔ Unhindered s x palgoId := by
  have hoffer := getElem?_offers hos palgoId
  rw [ho, Nat.zero_add] at hoffer
  obtain ⟨a, ha, ho'⟩ := Option.bind_eq_some_iff.mp hoffer.symm
  have hown := getToPrefetch_offer (x.noise palgoId) x.time x.numAcc a
  rw [ho', Option.map_some] at hown
  constructor
  · rintro ⟨-, a', ha', halone⟩
    rw [ha, Option.some.injEq] at ha'
    subst ha'
    rw [hown, Option.some.injEq, Offer.answer_eq_iff] at halone
    exact ⟨os, o, hos, ho, halone.symm⟩
  · rintro ⟨os', o', hos', ho'', hcount⟩
    rw [hos, Option.some.injEq] at hos'
    subst hos'
    rw [ho, Option.some.injEq] at ho''
    subst ho''
    have hsame := Offer.answer_eq_iff.mpr hcount
    refine ⟨?_, a, ha, ?_⟩
    · rw [hsame, o.length_answer]
      exact Offer.count_le_num hnum
    · rw [hown, hsame]

theorem respects_iff (hsized : Sized s) (hnum : 0 < x.numAcc) (palgoId : Option Nat) :
    Respects s x (s.getToPrefetch x palgoId).2 ↔ Refuses s x ∨ ∃ i ∈ palgoId, Unhindered s x i := by
  rw [refuses_iff, Asked.getToPrefetch]
  cases hos : offers x.noise x.time 0 s.mp.palgoV with
  | none =>
    have hrefused := ask_refused hos
    cases hask : s.ask x with
    | mk s' returned =>
      rw [hask] at hrefused
      cases hrefused
      simp [Respects]
  | some os =>
    obtain ⟨hreturned, hlast⟩ := ask_of_offers hsized hos
    have hnone : (some os = none) ↔ False := by simp
    rw [hnone, false_or]
    cases hask : s.ask x with
    | mk s' returned =>
      rw [hask] at hreturned hlast
      cases hreturned
      cases palgoId with
      | none => simp [Respects]
      | some palgoId =>
        simp only [Option.mem_some_iff, exists_eq_left']
        rw [Asked.use, hlast, getElem?_answers]
        cases ho : os[palgoId]? with
        | none =>
          refine iff_of_false id ?_
          rintro ⟨os', o, hos', ho', -⟩
          rw [hos, Option.some.injEq] at hos'
          rw [← hos', ho] at ho'
          cases ho'
        | some o => exact respects_returned _ hnum hos ho

end Use

/-! ## Enough for all -/

section Enough
variable {s : Asked} {x : Ask} {os : List Offer} {o : Offer} {num few palgoId : Nat}

theorem left_bounds (hfew : 0 < few) (hnum : few ≤ num) (henough : ∀ o ∈ os, few ≤ o.all.length) :
    few ≤ left num os ∧ left num os ≤ num := by
  induction os generalizing num with
  | nil => exact ⟨hnum, le_rfl⟩
  | cons o os ih =>
    have hpos : 0 < num := Nat.lt_of_lt_of_le hfew hnum
    have hcount : few ≤ o.count num := by
      rw [Offer.count, if_neg (by omega)]
      exact Nat.le_min.mpr ⟨hnum, henough o List.mem_cons_self⟩
    obtain ⟨hle, hge⟩ := ih hcount fun o ho => henough o (List.mem_cons_of_mem _ ho)
    exact ⟨hle, hge.trans (Offer.count_le_num hpos)⟩

/-- It is enough that each predictor before it has as many to offer as it would return itself. -/
theorem unhindered_of_enough (hos : offers x.noise x.time 0 s.mp.palgoV = some os) (ho : os[palgoId]? = some o)
    (hnum : 0 < x.numAcc) (henough : ∀ o' ∈ os.take palgoId, o.count x.numAcc ≤ o'.all.length) :
    Unhindered s x palgoId := by
  refine ⟨os, o, hos, ho, ?_⟩
  rcases Nat.eq_zero_or_pos (o.count x.numAcc) with hzero | hpos
  · have hempty : o.all.length = 0 := by
      rw [Offer.count, if_neg (by omega)] at hzero
      omega
    have hle := o.count_le (left x.numAcc (os.take palgoId))
    omega
  · obtain ⟨hle, hge⟩ := left_bounds hpos (Offer.count_le_num hnum) henough
    rw [Offer.count, if_neg (by omega)] at hle hpos ⊢
    rw [Offer.count, if_neg (by omega)]
    omega

end Enough

/-! ## Sizes over a run -/

section Sizes
variable {s : Asked} {x : Ask}

theorem length_addAll (add : PAlgo → PAlgo × Bool) (palgoV : List PAlgo) :
    (MPAlgo.addAll add palgoV).1.length = palgoV.length := by
  induction palgoV with
  | nil => rfl
  | cons a palgoV ih =>
    rw [MPAlgo.addAll]
    cases add a with
    | mk a' returned => cases returned <;> simp [ih]

theorem length_askAll (noise : Nat → Noise) (time : ℚ) (i num : Nat) (palgoV : List PAlgo) :
    (askAll noise time i num palgoV).1.length = palgoV.length ∧
    (askAll noise time i num palgoV).2.1.length ≤ palgoV.length := by
  induction palgoV generalizing i num with
  | nil => exact ⟨rfl, le_rfl⟩
  | cons a palgoV ih =>
    rw [askAll]
    cases a.getToPrefetch (noise i) time num with
    | mk a' accV =>
      cases accV with
      | none => exact ⟨rfl, by simp⟩
      | some accV =>
        obtain ⟨hpalgo, haccs⟩ := ih (i + 1) accV.length
        exact ⟨by simp [hpalgo], by simpa using haccs⟩

/-- The sizes stay. -/
structure Resized (s s' : Asked) : Prop where
  palgoV : s'.mp.palgoV.length = s.mp.palgoV.length
  sized : Sized s → Sized s'

theorem resized_reset (s : Asked) : Resized s s.reset where
  palgoV := List.length_map _
  sized h := (List.length_map _).trans (h.trans (List.length_map _).symm)

theorem resized_addAccess (s : Asked) (accTime : ℚ) (acc : AccT) : Resized s (s.addAccess accTime acc).1 where
  palgoV := length_addAll _ _
  sized h := h.trans (length_addAll _ _).symm

theorem resized_ask (s : Asked) (x : Ask) : Resized s (s.ask x).1 where
  palgoV := (length_askAll _ _ _ _ _).1
  sized h := by
    obtain ⟨hpalgo, haccs⟩ := length_askAll x.noise x.time 0 x.numAcc s.mp.palgoV
    have hsized : s.palgoIdLastPredictedAccVV.length = s.mp.palgoV.length := h
    show (_ ++ List.drop _ _).length = (askAll x.noise x.time 0 x.numAcc s.mp.palgoV).1.length
    rw [List.length_append, List.length_drop, hpalgo, hsized]
    exact Nat.add_sub_cancel' haccs

theorem resized_use (s : Asked) (x : Ask) (palgoId : Nat) : Resized s (s.use x palgoId).1 := by
  rw [Asked.use]
  split <;> exact ⟨rfl, id⟩

theorem Resized.trans {s' s'' : Asked} (h : Resized s s') (h' : Resized s' s'') : Resized s s'' where
  palgoV := h'.palgoV.trans h.palgoV
  sized hs := h'.sized (h.sized hs)

theorem resized_getToPrefetch (s : Asked) (x : Ask) (palgoId : Option Nat) :
    Resized s (s.getToPrefetch x palgoId).1 := by
  have hask := resized_ask s x
  rw [Asked.getToPrefetch]
  cases ha : s.ask x with
  | mk s' returned =>
    rw [ha] at hask
    cases returned with
    | false => exact hask
    | true =>
      cases palgoId with
      | none => exact hask
      | some palgoId => exact hask.trans (resized_use s' x palgoId)

theorem sized_init (specs : List (MPAlgo.PalgoT × Nat)) : Sized (Asked.init specs) :=
  (List.length_map _).trans (List.length_map _).symm

end Sizes

/-! ## The choice -/

section Choice

structure BMPInv (b : BMPAlgo) : Prop where
  sized : Sized b.toAsked
  queues : b.palgoIdScoreQueueV.length = b.mp.palgoV.length
  nonneg : ∀ queue ∈ b.palgoIdScoreQueueV, ∀ value ∈ queue.q, 0 ≤ value

theorem push_nonneg {queue : Queue} {value : Int} (h : ∀ v ∈ queue.q, 0 ≤ v) (hvalue : 0 ≤ value) :
    ∀ v ∈ (queue.push value).q, 0 ≤ v := by
  intro v hv
  rcases List.mem_cons.mp hv with rfl | hv
  · exact hvalue
  · split at hv
    · exact h v (List.mem_of_mem_dropLast hv)
    · exact h v hv

theorem hit_nonneg (acc : AccT) (accV : List AccT) : 0 ≤ hit acc accV := by
  rw [hit]
  split <;> decide

theorem addAccessAt_inv {b : BMPAlgo} (h : BMPInv b) (accTime : ℚ) (acc : AccT) :
    BMPInv (b.addAccessAt accTime acc).1 := by
  have hsize := resized_addAccess b.toAsked accTime acc
  rw [BMPAlgo.addAccessAt]
  cases hadd : b.toAsked.addAccess accTime acc with
  | mk s returned =>
    rw [hadd] at hsize
    cases returned with
    | false => exact ⟨hsize.sized h.sized, h.queues.trans hsize.palgoV.symm, h.nonneg⟩
    | true =>
      have hlast : s.palgoIdLastPredictedAccVV.length = s.mp.palgoV.length := hsize.sized h.sized
      refine ⟨hsize.sized h.sized, ?_, ?_⟩
      · show (List.zipWith _ _ _).length = s.mp.palgoV.length
        rw [List.length_zipWith, hlast, h.queues, hsize.palgoV, Nat.min_self]
      · intro queue hqueue
        dsimp only at hqueue
        rw [← List.map_uncurry_zip_eq_zipWith] at hqueue
        obtain ⟨⟨old, accV⟩, hmem, rfl⟩ := List.mem_map.mp hqueue
        exact push_nonneg (h.nonneg old (List.of_mem_zip hmem).1) (hit_nonneg acc accV)

theorem bmp_call_inv {b : BMPAlgo} (h : BMPInv b) (c : Call) : BMPInv (b.call c) := by
  cases c with
  | reset =>
    have hsize := resized_reset b.toAsked
    refine ⟨hsize.sized h.sized, ?_, ?_⟩
    · exact (List.length_map _).trans (h.queues.trans hsize.palgoV.symm)
    · intro queue hqueue value hvalue
      obtain ⟨old, -, rfl⟩ := List.mem_map.mp hqueue
      cases hvalue
  | addAccess acc => exact addAccessAt_inv h 0 acc
  | addAccessAt accTime acc => exact addAccessAt_inv h accTime acc
  | getToPrefetch x =>
    have hsize := resized_getToPrefetch b.toAsked x (some (maxFrom 0 0 0 b.scores))
    exact ⟨hsize.sized h.sized, h.queues.trans hsize.palgoV.symm, h.nonneg⟩

theorem bmp_run_inv {b : BMPAlgo} (h : BMPInv b) (calls : List Call) : BMPInv (b.run calls) := by
  induction calls generalizing b with
  | nil => exact h
  | cons c calls ih => exact ih (bmp_call_inv h c)

theorem bmp_reached_inv {b : BMPAlgo} (h : b.Reached) : BMPInv b := by
  obtain ⟨specs, windowSize, calls, rfl⟩ := h
  refine bmp_run_inv ⟨sized_init specs, ?_, ?_⟩ calls
  · exact (List.length_map _).trans (List.length_map _).symm
  · intro queue hqueue value hvalue
    obtain ⟨-, -, rfl⟩ := List.mem_map.mp hqueue
    cases hvalue

structure MJMPInv (m : MJMPAlgo) : Prop where
  sized : Sized m.toAsked
  weights : m.palgoIdWeightV.length = m.mp.palgoV.length

theorem mj_addAccessAt_inv {m : MJMPAlgo} (h : MJMPInv m) (accTime : ℚ) (acc : AccT) :
    MJMPInv (m.addAccessAt accTime acc).1 := by
  have hsize := resized_addAccess m.toAsked accTime acc
  rw [MJMPAlgo.addAccessAt]
  cases hadd : m.toAsked.addAccess accTime acc with
  | mk s returned =>
    rw [hadd] at hsize
    have hlast : s.palgoIdLastPredictedAccVV.length = s.mp.palgoV.length := hsize.sized h.sized
    have hweights : m.palgoIdWeightV.length = s.mp.palgoV.length := h.weights.trans hsize.palgoV.symm
    cases returned with
    | false => exact ⟨hlast, hweights⟩
    | true =>
      dsimp only
      split
      next => exact ⟨hlast, hweights⟩
      next =>
        refine ⟨hlast, ?_⟩
        dsimp only
        split <;> simp [replenish, hweights, hlast]

theorem getToPrefetchBy_inv {m : MJMPAlgo} (h : MJMPInv m) (pick : Ask → List Weight → Option Nat) (x : Ask) :
    MJMPInv (m.getToPrefetchBy pick x).1 := by
  have hsize := resized_getToPrefetch m.toAsked x (pick x m.palgoIdWeightV)
  rw [MJMPAlgo.getToPrefetchBy]
  cases hget : m.toAsked.getToPrefetch x (pick x m.palgoIdWeightV) with
  | mk s answer =>
    rw [hget] at hsize
    cases answer <;> exact ⟨hsize.sized h.sized, h.weights.trans hsize.palgoV.symm⟩

theorem mj_callBy_inv {m : MJMPAlgo} (h : MJMPInv m) (pick : Ask → List Weight → Option Nat) (c : Call) :
    MJMPInv (m.callBy pick c) := by
  cases c with
  | reset =>
    have hsize := resized_reset m.toAsked
    exact ⟨hsize.sized h.sized, (List.length_map _).trans (h.weights.trans hsize.palgoV.symm)⟩
  | addAccess acc => exact mj_addAccessAt_inv h 0 acc
  | addAccessAt accTime acc => exact mj_addAccessAt_inv h accTime acc
  | getToPrefetch x => exact getToPrefetchBy_inv h pick x

theorem mj_runBy_inv {m : MJMPAlgo} (h : MJMPInv m) (pick : Ask → List Weight → Option Nat) (calls : List Call) :
    MJMPInv (m.runBy pick calls) := by
  induction calls generalizing m with
  | nil => exact h
  | cons c calls ih => exact ih (mj_callBy_inv h pick c)

theorem mj_reached_inv {pick : Ask → List Weight → Option Nat} {m : MJMPAlgo} (h : m.ReachedBy pick) : MJMPInv m := by
  obtain ⟨specs, log2Beta, calls, rfl⟩ := h
  refine mj_runBy_inv ⟨sized_init specs, ?_⟩ pick calls
  exact (List.length_map _).trans (List.length_map _).symm

/-- Behind no predictor nothing is unhindered. -/
theorem lt_of_unhindered {s : Asked} {x : Ask} {i : Nat} (h : Unhindered s x i) : i < s.mp.palgoV.length := by
  obtain ⟨os, o, hos, ho, -⟩ := h
  rw [← length_offers hos]
  exact (List.getElem?_eq_some_iff.mp ho).1

/-- The scores are not negative, so that the loop from zero finds the first of the best. -/
theorem exists_best {scores : List Int} (hne : scores ≠ []) (hnonneg : ∀ score ∈ scores, 0 ≤ score) :
    ∃ score, IsFirstMax scores (maxFrom 0 0 0 scores) score := by
  cases scores with
  | nil => exact absurd rfl hne
  | cons score scores =>
    have hfirst : maxFrom 0 0 0 (score :: scores) = maxFrom 1 score 0 scores := by
      rw [maxFrom]
      split
      next => rfl
      next hle =>
        have hzero : score = 0 := le_antisymm (not_lt.mp hle) (hnonneg score List.mem_cons_self)
        rw [hzero]
    rw [hfirst]
    exact exists_maxFrom (isFirstMax_singleton score) scores

theorem exists_greatest {weightV : List Weight} (hne : weightV ≠ []) :
    ∃ weight, IsFirstMax weightV (maxElement weightV) weight := by
  cases weightV with
  | nil => exact absurd rfl hne
  | cons weight weightV => exact exists_maxFrom (isFirstMax_singleton weight) weightV

/-- The place that is found is the one that is meant. -/
theorem exists_firstMax_iff {α : Type} [LinearOrder α] {xs : List α} {k : Nat} {p : Nat → Prop}
    (hk : xs ≠ [] → ∃ x, IsFirstMax xs k x) (hp : ∀ i, p i → xs ≠ []) :
    (∃ i ∈ some k, p i) ↔ ∃ i x, IsFirstMax xs i x ∧ p i := by
  constructor
  · rintro ⟨i, hi, hpi⟩
    obtain rfl := Option.mem_some_iff.mp hi
    obtain ⟨x, hx⟩ := hk (hp _ hpi)
    exact ⟨_, x, hx, hpi⟩
  · rintro ⟨i, x, hx, hpi⟩
    obtain ⟨y, hy⟩ := hk (hp i hpi)
    exact ⟨i, Option.mem_some_iff.mpr (hy.unique hx), hpi⟩

theorem scores_nonneg {b : BMPAlgo} (h : BMPInv b) : ∀ score ∈ b.scores, 0 ≤ score := by
  intro score hscore
  obtain ⟨queue, hqueue, rfl⟩ := List.mem_map.mp hscore
  exact List.sum_nonneg (h.nonneg queue hqueue)

theorem getToPrefetchBy_snd (pick : Ask → List Weight → Option Nat) (m : MJMPAlgo) (x : Ask) :
    (m.getToPrefetchBy pick x).2 = (m.toAsked.getToPrefetch x (pick x m.palgoIdWeightV)).2 := by
  rw [MJMPAlgo.getToPrefetchBy]
  cases m.toAsked.getToPrefetch x (pick x m.palgoIdWeightV) with
  | mk s answer => cases answer <;> rfl

end Choice

/-! ## The mixed predictors -/

/-- What is returned is the list of the chosen predictor, as it would be alone, exactly when a predictor
refuses the time or there is one to choose and those before it leave it enough of the number. -/
theorem chosen_alone_iff (x : Ask) (h : 0 < x.numAcc) :
    (∀ b : BMPAlgo, b.Reached → (Respects b.toAsked x (b.getToPrefetch x).2 ↔
      Refuses b.toAsked x ∨ ∃ i score, IsFirstMax b.scores i score ∧ Unhindered b.toAsked x i)) ∧
    (∀ m : MJMPAlgo, m.Reached → (Respects m.toAsked x (m.getToPrefetch x).2 ↔
      Refuses m.toAsked x ∨ ∃ i weight, IsFirstMax m.palgoIdWeightV i weight ∧ Unhindered m.toAsked x i)) ∧
    ∀ (pow2 : ℚ → ℚ) (m : RMJMPAlgo), RMJMPAlgo.Reached pow2 m →
      (Respects m.toAsked x (RMJMPAlgo.getToPrefetch pow2 m x).2 ↔
        Refuses m.toAsked x ∨
          ∃ i, FallsOn (x.value - 1 / 10000) (shares pow2 m.palgoIdWeightV) i ∧ Unhindered m.toAsked x i) := by
  refine ⟨fun b hb => ?_, fun m hm => ?_, fun pow2 m hm => ?_⟩
  · have hinv := bmp_reached_inv hb
    show Respects b.toAsked x (b.toAsked.getToPrefetch x (some (maxFrom 0 0 0 b.scores))).2 ↔ _
    refine (respects_iff hinv.sized h _).trans (or_congr_right ?_)
    refine exists_firstMax_iff (fun hne => exists_best hne (scores_nonneg hinv)) fun i hi hnil => ?_
    have hlen := lt_of_unhindered hi
    rw [← hinv.queues, List.map_eq_nil_iff.mp hnil] at hlen
    exact Nat.not_lt_zero i hlen
  · have hinv := mj_reached_inv hm
    rw [MJMPAlgo.getToPrefetch, getToPrefetchBy_snd]
    refine (respects_iff hinv.sized h _).trans (or_congr_right ?_)
    refine exists_firstMax_iff exists_greatest fun i hi hnil => ?_
    have hlen := lt_of_unhindered hi
    rw [← hinv.weights, hnil] at hlen
    exact Nat.not_lt_zero i hlen
  · have hinv := mj_reached_inv hm
    rw [RMJMPAlgo.getToPrefetch, getToPrefetchBy_snd]
    refine (respects_iff hinv.sized h _).trans (or_congr_right (exists_congr fun i => ?_))
    rw [Option.mem_def, pickRandom, fallsFrom_iff]

/-! ## A predictor of times in front -/

/-- A jitter that leaves no ties. -/
def spread : Nat → Noise := fun _ => ⟨fun i => i / 10000, fun _ => 0, fun _ _ _ => 0⟩

def askFor (numAcc : Nat) (time : ℚ) : Ask := ⟨spread, 0, zero_le_one, time, numAcc, []⟩

/-- The `LZAlgo` has a hit, and the `TAlgo` before it waits for nothing. -/
def behindTimed : BMPAlgo := (BMPAlgo.init [(.talgo, 0), (.lz, 0)] 3).run
  [.addAccessAt 1 5, .addAccessAt 2 6, .addAccessAt 3 7, .getToPrefetch (askFor 3 3), .addAccessAt 4 5]

theorem behindTimed_reached : behindTimed.Reached := ⟨_, _, _, rfl⟩

theorem behindTimed_answer : (behindTimed.getToPrefetch (askFor 1 20)).2 = .returned 1 [5, 7, 6] [] := by
  decide +kernel

theorem behindTimed_past : ¬ Respects behindTimed.toAsked (askFor 1 20) (behindTimed.getToPrefetch (askFor 1 20)).2 := by
  rw [behindTimed_answer]
  intro h
  exact absurd h.1 (by decide)

theorem chosen_hindered : ¬ (Refuses behindTimed.toAsked (askFor 1 20) ∨
    ∃ i score, IsFirstMax behindTimed.scores i score ∧ Unhindered behindTimed.toAsked (askFor 1 20) i) :=
  fun h => behindTimed_past (((chosen_alone_iff (askFor 1 20) Nat.one_pos).1 behindTimed behindTimed_reached).mpr h)

/-- Asked for one access, the `LZAlgo` returns all three it knows. -/
theorem number_passed : (behindTimed.getToPrefetch (askFor 1 20)).2 = .returned 1 [5, 7, 6] [] ∧
    ¬ ∀ x : Ask, 0 < x.numAcc → ∀ b : BMPAlgo, b.Reached → Respects b.toAsked x (b.getToPrefetch x).2 :=
  ⟨behindTimed_answer, fun h => behindTimed_past (h (askFor 1 20) Nat.one_pos behindTimed behindTimed_reached)⟩

end MixedBudget
