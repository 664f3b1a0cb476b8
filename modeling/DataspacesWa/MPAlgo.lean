import DataspacesWa.Predictors

/-!
# Mixed predictors

An `MPAlgo` records an access itself and then in each of its predictors, up to
the first that does not return 0. What has been recorded by then stays, so the
predictors keep in step with it only while none of them refuses.
-/
namespace MPAlgo

open Predictors

/-- `PALGO_T` -/
inductive PalgoT where
  | lz | alz | ppm | po | talgo
  deriving DecidableEq, Repr

def make : PalgoT × Nat → PAlgo
  | (.lz, _) => .malgo lzAlgo
  | (.alz, _) => .malgo alzAlgo
  | (.ppm, contextSize) => .malgo (ppmAlgo contextSize)
  | (.po, _) => .malgo poAlgo
  | (.talgo, _) => .talgo TAlgo.init

structure State where
  base : Base
  palgoV : List PAlgo
  palgoIdUsedV : List Nat

def init (specs : List (PalgoT × Nat)) : State := ⟨Base.init, specs.map make, []⟩

def reset (m : State) : State := ⟨Base.init, m.palgoV.map PAlgo.reset, []⟩

/-! ## Accesses -/

/-- The loop of `add_access`; the first that does not return 0 ends it. -/
def addAll (add : PAlgo → PAlgo × Bool) : List PAlgo → List PAlgo × Bool
  | [] => ([], true)
  | a :: palgoV =>
    match add a with
    | (a, false) => (a :: palgoV, false)
    | (a, true) =>
      let (palgoV, returned) := addAll add palgoV
      (a :: palgoV, returned)

/-- `add_access` without a time, and whether it returns 0. -/
def addAccess (m : State) (acc : AccT) : State × Bool :=
  let (palgoV, returned) := addAll (PAlgo.addAccess acc) m.palgoV
  (⟨m.base.addAccess acc, palgoV, m.palgoIdUsedV⟩, returned)

/-- `add_access` with a time. -/
def addAccessAt (m : State) (accTime : ℚ) (acc : AccT) : State × Bool :=
  let (palgoV, returned) := addAll (PAlgo.addAccessAt accTime acc) m.palgoV
  (⟨m.base.addAccess acc, palgoV, m.palgoIdUsedV⟩, returned)

/-- An access, without its time or with it. -/
inductive Access where
  | untimed : AccT → Access
  | timed : ℚ → AccT → Access

def Access.acc : Access → AccT
  | untimed acc => acc
  | timed _ acc => acc

def access (m : State) : Access → State × Bool
  | .untimed acc => addAccess m acc
  | .timed accTime acc => addAccessAt m accTime acc

def add : Access → PAlgo → PAlgo × Bool
  | .untimed acc => PAlgo.addAccess acc
  | .timed accTime acc => PAlgo.addAccessAt accTime acc

/-! ## Predictions -/

/-- The first loop of `get_to_prefetch` of `WMPAlgo` and of `MMPAlgo`. -/
def accProbMaps (noise : Nat → Noise) (palgoV : List PAlgo) : List (PAlgo × SortedMap AccT ℚ) :=
  palgoV.mapIdx fun i a => a.accProbMap (noise i)

/-- The first loop of `get_to_prefetch` of the others, with the lists of the predictors it gets to. The number
each returns is the one that the next is asked for. -/
def askAll (noise : Nat → Noise) (time : ℚ) : Nat → Nat → List PAlgo → List PAlgo × List (List AccT) × Bool
  | _, _, [] => ([], [], true)
  | i, numAcc, a :: palgoV =>
    match a.getToPrefetch (noise i) time numAcc with
    | (a, none) => (a :: palgoV, [[]], false)
    | (a, some accV) =>
      let (palgoV, accVV, returned) := askAll noise time (i + 1) accV.length palgoV
      (a :: palgoV, accV :: accVV, returned)

/-! ## Runs -/

inductive Call where
  | reset
  | access : Access → Call
  | accProbMaps : (Nat → Noise) → Call
  | askAll : (Nat → Noise) → ℚ → Nat → Call

def call (m : State) : Call → State
  | .reset => reset m
  | .access x => (access m x).1
  | .accProbMaps noise => { m with palgoV := (accProbMaps noise m.palgoV).map (·.1) }
  | .askAll noise time numAcc => { m with palgoV := (askAll noise time 0 numAcc m.palgoV).1 }

def run (m : State) (calls : List Call) : State := calls.foldl call m

/-! ## What an access is to do -/

/-- An access is in `acc_s` and at the end of `acc_v`. -/
structure Recorded (acc : AccT) (b b' : Base) : Prop where
  accs : ∀ k, k ∈ b'.accs ↔ k = acc ∨ k ∈ b.accs
  accV : b'.accV = b.accV ++ [acc]

/-- The time of the last access, of those that have come with one. -/
def lastArr (a : TAlgo) (acc : AccT) : Option ℚ := (((a.arrInterTimes.get? acc).getD []).getLast?).map (·.1)

/-- A predictor has taken an access. -/
def Taken (x : Access) : PAlgo → PAlgo → Prop
  | .talgo a, .talgo a' =>
    Recorded x.acc a.base a'.base ∧ ∃ accTime, x = .timed accTime x.acc ∧ lastArr a' x.acc = some accTime
  | .malgo a, .malgo a' => Recorded x.acc a.base a'.base ∧ a'.parseTree = a.parseTree.addAccess x.acc
  | _, _ => False

/-- All have taken an access, or it is refused and nothing has changed. -/
def Atomic (m : State) (x : Access) : Prop :=
  ((access m x).2 = true ∧ Recorded x.acc m.base (access m x).1.base ∧
    List.Forall₂ (Taken x) m.palgoV (access m x).1.palgoV) ∨
  ((access m x).2 = false ∧ (access m x).1 = m)

/-- The time is there for a `TAlgo`, and not before the last one. -/
def Takes (x : Access) : PAlgo → Prop
  | .talgo a => ∃ accTime, x = .timed accTime x.acc ∧ ∀ last ∈ lastArr a x.acc, last ≤ accTime
  | .malgo _ => True

/-- No predictor refuses an access of the run. -/
def AllTake (m : State) : List Call → Prop
  | [] => True
  | c :: calls => (∀ x, c = .access x → ∀ a ∈ m.palgoV, Takes x a) ∧ AllTake (call m c) calls

/-- The predictors have the same accesses as the whole. -/
def InStep (m : State) : Prop := ∀ a ∈ m.palgoV, a.base = m.base

/-! ## One predictor -/

section Add
variable {x : Access} {a : PAlgo}

theorem recorded_addAccess (b : Base) (acc : AccT) : Recorded acc b (b.addAccess acc) where
  accs k := by
    rw [Base.accs, Base.accs, ← SortedMap.contains_iff, ← SortedMap.contains_iff, SortedMap.contains, Base.addAccess,
      SortedMap.get?_insert]
    split
    next heq => simp [heq]
    next hne => simp [hne, SortedMap.contains]
  accV := rfl

theorem lastArr_insert (arrInterTimes : SortedMap AccT (List (ℚ × ℚ))) (base : Base)
    (meanVar : SortedMap AccT (ℚ × ℚ)) (acc : AccT) (aiV : List (ℚ × ℚ)) (arrTime interTime : ℚ) :
    lastArr ⟨base, arrInterTimes.insert acc (aiV ++ [(arrTime, interTime)]), meanVar⟩ acc = some arrTime := by
  rw [lastArr, SortedMap.get?_insert_self, Option.getD_some, List.getLast?_concat, Option.map_some]

/-- What a `TAlgo` does with an access, by the time of the last one. -/
theorem addAccess_cases (a : TAlgo) (arrTime : ℚ) (acc : AccT) :
    (a.addAccess arrTime acc).1.base = a.base.addAccess acc ∧
    (((a.addAccess arrTime acc).2 = true ∧ (∀ last ∈ lastArr a acc, last ≤ arrTime) ∧
        lastArr (a.addAccess arrTime acc).1 acc = some arrTime) ∨
      ((a.addAccess arrTime acc).2 = false ∧ ∃ last ∈ lastArr a acc, arrTime < last)) := by
  unfold TAlgo.addAccess
  dsimp only
  cases hlast : ((a.arrInterTimes.get? acc).getD []).getLast? with
  | none =>
    rw [Option.map_none, Option.getD_none, if_neg (lt_irrefl _)]
    refine ⟨rfl, .inl ⟨rfl, ?_, lastArr_insert ..⟩⟩
    intro last hmem
    rw [lastArr, hlast] at hmem
    cases hmem
  | some lastAi =>
    rw [Option.map_some, Option.getD_some]
    have hmem : ∀ last, last ∈ lastArr a acc ↔ last = lastAi.1 := by
      intro last
      rw [lastArr, hlast, Option.map_some, Option.mem_some_iff]
      exact eq_comm
    split
    next hneg => exact ⟨rfl, .inr ⟨rfl, lastAi.1, (hmem _).mpr rfl, sub_neg.mp hneg⟩⟩
    next hneg =>
      refine ⟨rfl, .inl ⟨rfl, ?_, lastArr_insert ..⟩⟩
      intro last hlast'
      rw [(hmem last).mp hlast']
      exact sub_nonneg.mp (not_lt.mp hneg)

theorem add_iff : (add x a).2 = true ↔ Takes x a := by
  cases a with
  | malgo a => cases x <;> simp [add, PAlgo.addAccess, PAlgo.addAccessAt, Takes]
  | talgo a =>
    cases x with
    | untimed acc => simp [add, PAlgo.addAccess, Takes]
    | timed accTime acc =>
      simp only [add, PAlgo.addAccessAt, Takes, Access.timed.injEq, Access.acc, and_true, exists_eq_left']
      rcases addAccess_cases a accTime acc with ⟨-, ⟨hreturned, hle, -⟩ | ⟨hreturned, last, hmem, hlt⟩⟩
      · exact ⟨fun _ => hle, fun _ => hreturned⟩
      · rw [hreturned]
        exact ⟨fun h => absurd h Bool.false_ne_true, fun hle => absurd (hle last hmem) (not_le.mpr hlt)⟩

theorem taken_add (h : Takes x a) : Taken x a (add x a).1 := by
  cases a with
  | malgo a => cases x <;> exact ⟨recorded_addAccess _ _, rfl⟩
  | talgo a =>
    obtain ⟨accTime, hx, hle⟩ := h
    cases x with
    | untimed acc => cases hx
    | timed time acc =>
      rcases addAccess_cases a time acc with ⟨hbase, ⟨-, -, hlast⟩ | ⟨-, last, hmem, hlt⟩⟩
      · have hrecorded : Recorded acc a.base (a.addAccess time acc).1.base := by
          rw [hbase]
          exact recorded_addAccess _ _
        exact ⟨hrecorded, time, rfl, hlast⟩
      · obtain rfl : time = accTime := (Access.timed.inj hx).1
        exact absurd (hle last hmem) (not_le.mpr hlt)

theorem base_add (h : Takes x a) : (add x a).1.base = a.base.addAccess x.acc := by
  cases a with
  | malgo a => cases x <;> rfl
  | talgo a =>
    obtain ⟨accTime, hx, -⟩ := h
    cases x with
    | untimed acc => cases hx
    | timed time acc => exact (addAccess_cases a time acc).1

end Add

/-! ## All predictors -/

section All
variable {m : State} {x : Access} {palgoV : List PAlgo}

theorem addAll_iff (f : PAlgo → PAlgo × Bool) : (addAll f palgoV).2 = true ↔ ∀ a ∈ palgoV, (f a).2 = true := by
  induction palgoV with
  | nil => simp [addAll]
  | cons a palgoV ih =>
    rw [addAll, List.forall_mem_cons]
    cases hf : f a with
    | mk a' returned =>
      cases returned with
      | false => simp
      | true => simp [ih]

theorem addAll_eq_map {f : PAlgo → PAlgo × Bool} (h : ∀ a ∈ palgoV, (f a).2 = true) :
    (addAll f palgoV).1 = palgoV.map fun a => (f a).1 := by
  induction palgoV with
  | nil => rfl
  | cons a palgoV ih =>
    obtain ⟨hfirst, hrest⟩ := List.forall_mem_cons.mp h
    rw [addAll, List.map_cons, ← ih hrest]
    cases hf : f a with
    | mk a' returned =>
      rw [hf] at hfirst
      cases hfirst
      rfl

theorem access_eq (m : State) (x : Access) : access m x =
    (⟨m.base.addAccess x.acc, (addAll (add x) m.palgoV).1, m.palgoIdUsedV⟩, (addAll (add x) m.palgoV).2) := by
  cases x <;> rfl

theorem access_iff : (access m x).2 = true ↔ ∀ a ∈ m.palgoV, Takes x a := by
  rw [access_eq, addAll_iff]
  exact forall₂_congr fun a _ => add_iff

/-- The access is in the whole before any predictor can refuse it. -/
theorem access_ne (m : State) (x : Access) : (access m x).1 ≠ m := by
  intro h
  have hlen := congrArg (fun m : State => m.base.accV.length) h
  simp [access_eq, Base.addAccess] at hlen

theorem atomic_iff : Atomic m x ↔ ∀ a ∈ m.palgoV, Takes x a := by
  constructor
  · rintro (⟨hreturned, -, -⟩ | ⟨-, hsame⟩)
    · exact access_iff.mp hreturned
    · exact absurd hsame (access_ne m x)
  · intro htakes
    refine .inl ⟨access_iff.mpr htakes, ?_, ?_⟩
    · rw [access_eq]
      exact recorded_addAccess _ _
    · rw [access_eq, addAll_eq_map fun a ha => add_iff.mpr (htakes a ha), List.forall₂_map_right_iff,
        List.forall₂_same]
      exact fun a ha => taken_add (htakes a ha)

end All

/-! ## Runs -/

section Run
variable {m : State}

theorem askAll_bases (noise : Nat → Noise) (time : ℚ) (i numAcc : Nat) (palgoV : List PAlgo) :
    (askAll noise time i numAcc palgoV).1.map PAlgo.base = palgoV.map PAlgo.base := by
  induction palgoV generalizing i numAcc with
  | nil => rfl
  | cons a palgoV ih =>
    have hbase := PAlgo.base_getToPrefetch (noise i) time numAcc a
    rw [askAll, List.map_cons, ← hbase]
    cases ha : a.getToPrefetch (noise i) time numAcc with
    | mk a' accV =>
      cases accV with
      | none => rfl
      | some accV => simp [ih]

theorem accProbMaps_bases (noise : Nat → Noise) (palgoV : List PAlgo) :
    ((accProbMaps noise palgoV).map (·.1)).map PAlgo.base = palgoV.map PAlgo.base := by
  refine List.ext_getElem (by simp [accProbMaps]) fun i h h' => ?_
  simp [accProbMaps]

theorem inStep_iff : InStep m ↔ ∀ b ∈ m.palgoV.map PAlgo.base, b = m.base := by
  rw [InStep, List.forall_mem_map]

theorem call_inStep (h : InStep m) {c : Call} (hc : ∀ x, c = .access x → ∀ a ∈ m.palgoV, Takes x a) :
    InStep (call m c) := by
  cases c with
  | reset =>
    intro a ha
    obtain ⟨a, -, rfl⟩ := List.mem_map.mp ha
    exact PAlgo.base_reset a
  | access x =>
    have htakes := hc x rfl
    intro a ha
    rw [call, access_eq, addAll_eq_map fun a ha => add_iff.mpr (htakes a ha)] at ha
    obtain ⟨a, hmem, rfl⟩ := List.mem_map.mp ha
    rw [base_add (htakes a hmem), h a hmem, call, access_eq]
  | accProbMaps noise =>
    rw [inStep_iff] at h ⊢
    rw [call, accProbMaps_bases]
    exact h
  | askAll noise time numAcc =>
    rw [inStep_iff] at h ⊢
    rw [call, askAll_bases]
    exact h

theorem run_inStep {calls : List Call} (h : InStep m) (htake : AllTake m calls) : InStep (run m calls) := by
  induction calls generalizing m with
  | nil => exact h
  | cons c calls ih => exact ih (call_inStep h htake.1) htake.2

theorem init_inStep (specs : List (PalgoT × Nat)) : InStep (init specs) := by
  intro a ha
  obtain ⟨⟨palgoT, contextSize⟩, -, rfl⟩ := List.mem_map.mp ha
  cases palgoT <;> rfl

end Run

end MPAlgo
