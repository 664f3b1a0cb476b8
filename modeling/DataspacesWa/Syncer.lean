import Mathlib

/-!
# Sync points

`patch::syncer` keeps a condition variable, a mutex and a count of peers for
each point, in three maps that are locked one access at a time. A condition
variable is an object of its own: deleting a point and adding it again makes
another one, and a thread goes on waiting on the object it found.

The methods are given twice: by their single map accesses, which is how
threads interleave, and as whole operations for the machines whose steps are
the calls themselves. No notifier takes the mutex of a point, so only its
presence matters.
-/
namespace Syncer

open Function (update)

/-- The maps of a `syncer<T>`, and who is inside `wait` on each condition variable. -/
structure State (T : Type*) where
  pointCv : T → Option Nat
  pointM : T → Bool
  numPeers : T → Option Int
  waiters : Nat → List Nat
  fresh : Nat

/-- No point has been added yet. -/
def empty {T : Type*} : State T := ⟨fun _ => none, fun _ => false, fun _ => none, fun _ => [], 0⟩

variable {T : Type*}

/-! ## Condition variables -/

/-- Thread `t` enters `wait` on a condition variable. -/
def enter (s : State T) (cv t : Nat) : State T :=
  { s with waiters := update s.waiters cv (s.waiters cv ++ [t]) }

/-- Thread `t` is no longer held by the condition variable. -/
def release (s : State T) (cv t : Nat) : State T :=
  { s with waiters := update s.waiters cv ((s.waiters cv).erase t) }

/-- `notify_one`: one of the waiting threads is released, any of them, and
none only where none waits. -/
def notifyOne (s : State T) (cv : Nat) : Option Nat → Option (State T)
  | none => if s.waiters cv = [] then some s else none
  | some t => if t ∈ s.waiters cv then some (release s cv t) else none

/-- Boost allows a wait to end without a notification. -/
def spurious (s : State T) (cv t : Nat) : Option (State T) :=
  if t ∈ s.waiters cv then some (release s cv t) else none

@[simp] theorem release_pointCv (s : State T) (cv t : Nat) : (release s cv t).pointCv = s.pointCv := rfl
@[simp] theorem release_pointM (s : State T) (cv t : Nat) : (release s cv t).pointM = s.pointM := rfl
@[simp] theorem release_numPeers (s : State T) (cv t : Nat) : (release s cv t).numPeers = s.numPeers := rfl
@[simp] theorem release_fresh (s : State T) (cv t : Nat) : (release s cv t).fresh = s.fresh := rfl
@[simp] theorem release_self (s : State T) (cv t : Nat) :
    (release s cv t).waiters cv = (s.waiters cv).erase t := by simp [release]

theorem release_other (s : State T) {cv cv' : Nat} (t : Nat) (h : cv' ≠ cv) :
    (release s cv t).waiters cv' = s.waiters cv' := by simp [release, h]

@[simp] theorem enter_pointCv (s : State T) (cv t : Nat) : (enter s cv t).pointCv = s.pointCv := rfl
@[simp] theorem enter_pointM (s : State T) (cv t : Nat) : (enter s cv t).pointM = s.pointM := rfl
@[simp] theorem enter_numPeers (s : State T) (cv t : Nat) : (enter s cv t).numPeers = s.numPeers := rfl
@[simp] theorem enter_fresh (s : State T) (cv t : Nat) : (enter s cv t).fresh = s.fresh := rfl
@[simp] theorem enter_self (s : State T) (cv t : Nat) :
    (enter s cv t).waiters cv = s.waiters cv ++ [t] := by simp [enter]

theorem enter_other (s : State T) {cv cv' : Nat} (t : Nat) (h : cv' ≠ cv) :
    (enter s cv t).waiters cv' = s.waiters cv' := by simp [enter, h]

/-- `notify_one` releases one of the waiting threads, or finds none. -/
theorem notifyOne_cases {s s' : State T} {cv : Nat} {woken : Option Nat}
    (h : notifyOne s cv woken = some s') :
    woken = none ∧ s.waiters cv = [] ∧ s' = s ∨
      ∃ t, woken = some t ∧ t ∈ s.waiters cv ∧ s' = release s cv t := by
  cases woken with
  | none =>
    simp only [notifyOne, Option.ite_none_right_eq_some, Option.some.injEq] at h
    exact .inl ⟨rfl, h.1, h.2.symm⟩
  | some t =>
    simp only [notifyOne, Option.ite_none_right_eq_some, Option.some.injEq] at h
    exact .inr ⟨t, rfl, h.1, h.2.symm⟩

/-- `operator[]` reads zero where the map has no entry. -/
def readNum (s : State T) (p : T) : Int := (s.numPeers p).getD 0

/-- `wait` finds the condition variable to wait on and enters it. Where the
point is missing it dereferences a null pointer, and there is no next state. -/
def wait (s : State T) (p : T) (t : Nat) : Option (Nat × State T) :=
  if s.pointM p then (s.pointCv p).map fun cv => (cv, enter s cv t) else none

/-- `wait` enters the condition variable the point has now. -/
theorem wait_cases {s s' : State T} {p : T} {t cv : Nat} (h : wait s p t = some (cv, s')) :
    s.pointCv p = some cv ∧ s' = enter s cv t := by
  simp only [wait, Option.ite_none_right_eq_some, Option.map_eq_some_iff, Prod.mk.injEq] at h
  obtain ⟨-, cv', hcv, rfl, rfl⟩ := h
  exact ⟨hcv, rfl⟩

variable [DecidableEq T]

/-! ## Single accesses to the maps -/

/-- `point_cv_map[point] = boost::make_shared<boost::condition_variable>()` -/
def storeCv (s : State T) (p : T) : State T :=
  { s with pointCv := update s.pointCv p (some s.fresh), fresh := s.fresh + 1 }

def storeM (s : State T) (p : T) : State T := { s with pointM := update s.pointM p true }

def storeNum (s : State T) (p : T) (n : Int) : State T :=
  { s with numPeers := update s.numPeers p (some n) }

def dropCv (s : State T) (p : T) : State T := { s with pointCv := update s.pointCv p none }

def dropM (s : State T) (p : T) : State T := { s with pointM := update s.pointM p false }

def dropNum (s : State T) (p : T) : State T := { s with numPeers := update s.numPeers p none }

/-! ## Whole operations -/

/-- `add_sync_point`; an error on a point that is there already changes nothing. -/
def addSyncPoint (s : State T) (p : T) (n : Int) : State T :=
  if (s.pointCv p).isSome then s else storeNum (storeM (storeCv s p) p) p n

def delSyncPoint (s : State T) (p : T) : State T :=
  if (s.pointCv p).isSome then dropNum (dropM (dropCv s p) p) p else s

/-- `notify`, with the waiting thread it releases. -/
def notify (s : State T) (p : T) (woken : Option Nat) : Option (State T) :=
  match s.pointCv p with
  | none => if woken = none then some s else none
  | some cv =>
    if readNum s p - 1 = 0 then notifyOne s cv woken
    else if woken = none then some (storeNum s p (readNum s p - 1)) else none

/-- Where a thread is in `add_sync_point(p, 1); wait(p); del_sync_point(p)`, the
three calls that everywhere follow one another. -/
inductive Call where
  | add | wait
  | blocked : Nat → Call
  | del | done
  deriving DecidableEq, Repr

/-- The next of the three calls, by thread `t`. An error that `add_sync_point` or
`del_sync_point` returns is only logged. -/
def Call.step (s : State T) (p : T) (t : Nat) : Call → Option (Call × State T)
  | .add => some (.wait, addSyncPoint s p 1)
  | .wait => (Syncer.wait s p t).map fun (cv, s') => (.blocked cv, s')
  | .blocked cv => if t ∈ s.waiters cv then none else some (.del, s)
  | .del => some (.done, delSyncPoint s p)
  | .done => none

/-- The thread still has its notification to wait for. -/
def Call.Waiting (s : State T) (t : Nat) : Call → Prop
  | .add | .wait => True
  | .blocked cv => t ∈ s.waiters cv
  | .del | .done => False

instance (s : State T) (t : Nat) (c : Call) : Decidable (c.Waiting s t) := by
  cases c <;> unfold Call.Waiting <;> infer_instance

omit [DecidableEq T] in
/-- Whether a thread still waits depends on the condition variable it is at alone. -/
theorem Call.waiting_congr {s s' : State T} (t : Nat) {c : Call}
    (h : ∀ cv, c = .blocked cv → s'.waiters cv = s.waiters cv) : c.Waiting s' t ↔ c.Waiting s t := by
  cases c <;> simp_all [Call.Waiting]

/-- A thread does not let itself go. -/
theorem Call.step_waiting {s s' : State T} {p : T} {t : Nat} {c c' : Call}
    (h : c.step s p t = some (c', s')) : c'.Waiting s' t ↔ c.Waiting s t := by
  cases c with
  | wait =>
    simp only [Call.step, Option.map_eq_some_iff, Prod.mk.injEq] at h
    obtain ⟨⟨cv, y⟩, hw, rfl, rfl⟩ := h
    obtain ⟨-, rfl⟩ := wait_cases hw
    simp [Call.Waiting]
  | blocked cv =>
    simp only [Call.step, Option.ite_none_left_eq_some, Option.some.injEq, Prod.mk.injEq] at h
    obtain ⟨hout, rfl, rfl⟩ := h
    simpa [Call.Waiting] using hout
  | done => simp [Call.step] at h
  | add | del =>
    simp only [Call.step, Option.some.injEq, Prod.mk.injEq] at h
    obtain ⟨rfl, rfl⟩ := h
    simp [Call.Waiting]

/-- A notification of the point can let the thread go: the point is still to be added, or it is there when the
thread comes to wait, or the thread waits on the condition variable that the point has. -/
def Call.Reachable (s : State T) (p : T) : Call → Prop
  | .add => True
  | .wait => s.pointM p = true ∧ (s.pointCv p).isSome
  | .blocked cv => s.pointCv p = some cv
  | .del | .done => False

omit [DecidableEq T] in
theorem Call.reachable_congr {s s' : State T} {p : T} (c : Call) (hcv : s'.pointCv = s.pointCv)
    (hm : s'.pointM = s.pointM) : c.Reachable s' p ↔ c.Reachable s p := by
  cases c <;> simp [Call.Reachable, hcv, hm]

/-! ## What the operations leave in the maps -/

theorem addSyncPoint_present {s : State T} {p : T} {cv : Nat} (h : s.pointCv p = some cv) (n : Int) :
    addSyncPoint s p n = s := by simp [addSyncPoint, h]

theorem addSyncPoint_pointCv {s : State T} {p : T} (h : s.pointCv p = none) (n : Int) (q : T) :
    (addSyncPoint s p n).pointCv q = if q = p then some s.fresh else s.pointCv q := by
  by_cases hq : q = p
  · subst hq; simp [addSyncPoint, storeNum, storeM, storeCv, h]
  · simp [addSyncPoint, storeNum, storeM, storeCv, h, hq]

theorem addSyncPoint_readNum {s : State T} {p : T} (h : s.pointCv p = none) (n : Int) (q : T) :
    readNum (addSyncPoint s p n) q = if q = p then n else readNum s q := by
  by_cases hq : q = p
  · subst hq; simp [addSyncPoint, readNum, storeNum, storeM, storeCv, h]
  · simp [addSyncPoint, readNum, storeNum, storeM, storeCv, h, hq]

@[simp] theorem addSyncPoint_waiters (s : State T) (p : T) (n : Int) :
    (addSyncPoint s p n).waiters = s.waiters := by
  unfold addSyncPoint
  split <;> rfl

theorem addSyncPoint_fresh {s : State T} {p : T} (h : s.pointCv p = none) (n : Int) :
    (addSyncPoint s p n).fresh = s.fresh + 1 := by
  simp [addSyncPoint, storeNum, storeM, storeCv, h]

theorem delSyncPoint_pointCv (s : State T) (p q : T) :
    (delSyncPoint s p).pointCv q = if q = p then none else s.pointCv q := by
  unfold delSyncPoint
  by_cases hq : q = p
  · subst hq
    split <;> rename_i h
    · simp [dropNum, dropM, dropCv]
    · simpa using h
  · split <;> simp [dropNum, dropM, dropCv, hq]

theorem delSyncPoint_readNum (s : State T) {p q : T} (hq : q ≠ p) :
    readNum (delSyncPoint s p) q = readNum s q := by
  unfold delSyncPoint
  split <;> simp [readNum, dropNum, dropM, dropCv, hq]

@[simp] theorem delSyncPoint_waiters (s : State T) (p : T) :
    (delSyncPoint s p).waiters = s.waiters := by
  unfold delSyncPoint
  split <;> rfl

@[simp] theorem delSyncPoint_fresh (s : State T) (p : T) : (delSyncPoint s p).fresh = s.fresh := by
  unfold delSyncPoint
  split <;> rfl

/-- What `notify` can do: find no point, count a peer, or signal. -/
theorem notify_cases {s s' : State T} {p : T} {woken : Option Nat}
    (h : notify s p woken = some s') :
    s.pointCv p = none ∧ woken = none ∧ s' = s ∨
      (∃ cv, s.pointCv p = some cv ∧ readNum s p ≠ 1 ∧ woken = none ∧
        s' = storeNum s p (readNum s p - 1)) ∨
      ∃ cv, s.pointCv p = some cv ∧ readNum s p = 1 ∧ notifyOne s cv woken = some s' := by
  unfold notify at h
  cases hp : s.pointCv p with
  | none =>
    simp only [hp, Option.ite_none_right_eq_some, Option.some.injEq] at h
    exact .inl ⟨rfl, h.1, h.2.symm⟩
  | some cv =>
    simp only [hp] at h
    by_cases hn : readNum s p - 1 = 0
    · rw [if_pos hn] at h
      exact .inr (.inr ⟨cv, rfl, by omega, h⟩)
    · simp only [if_neg hn, Option.ite_none_right_eq_some, Option.some.injEq] at h
      exact .inr (.inl ⟨cv, rfl, by omega, h.1, h.2.symm⟩)

/-- The condition variable and the mutex of a point come and go together. -/
def Paired (s : State T) : Prop := ∀ p, s.pointM p = (s.pointCv p).isSome

omit [DecidableEq T] in
theorem paired_empty : Paired (empty : State T) := fun _ => rfl

theorem Paired.add {s : State T} (h : Paired s) (p : T) (n : Int) : Paired (addSyncPoint s p n) := by
  intro q
  cases hp : s.pointCv p with
  | some cv =>
    rw [addSyncPoint_present hp]
    exact h q
  | none =>
    rw [addSyncPoint_pointCv hp]
    by_cases hq : q = p
    · subst hq
      simp [addSyncPoint, storeNum, storeM, hp]
    · simpa [addSyncPoint, storeNum, storeM, storeCv, hp, hq] using h q

theorem Paired.del {s : State T} (h : Paired s) (p : T) : Paired (delSyncPoint s p) := by
  intro q
  rw [delSyncPoint_pointCv]
  unfold delSyncPoint
  by_cases hq : q = p
  · subst hq
    split
    next => simp [dropNum, dropM]
    next hno => simpa [Bool.not_eq_true] using (h q).trans (by simpa using hno)
  · split
    next => simpa [dropNum, dropM, dropCv, hq] using h q
    next => simpa [hq] using h q

/-- A thread that makes one of the calls keeps the maps paired. -/
theorem Paired.step {s s' : State T} {p : T} {t : Nat} {c c' : Call} (h : Paired s)
    (hc : c.step s p t = some (c', s')) : Paired s' := by
  cases c with
  | add =>
    obtain ⟨-, rfl⟩ := Prod.mk.inj (Option.some.inj hc)
    exact h.add p 1
  | wait =>
    obtain ⟨⟨cv, y⟩, hw, hy⟩ := Option.map_eq_some_iff.mp hc
    obtain ⟨-, rfl⟩ := Prod.mk.inj hy
    obtain ⟨-, rfl⟩ := wait_cases hw
    exact h
  | blocked cv =>
    obtain ⟨-, hc⟩ := Option.ite_none_left_eq_some.mp hc
    obtain ⟨-, rfl⟩ := Prod.mk.inj (Option.some.inj hc)
    exact h
  | del =>
    obtain ⟨-, rfl⟩ := Prod.mk.inj (Option.some.inj hc)
    exact h.del p
  | done => cases hc

/-- A thread that makes the calls can be reached from when it comes to its point until it is let go. -/
theorem Call.step_reachable {s s' : State T} {p : T} {t : Nat} {c c' : Call} (h : Paired s)
    (hc : c.step s p t = some (c', s')) (hw : c'.Waiting s' t) : c'.Reachable s' p := by
  cases c with
  | add =>
    obtain ⟨rfl, rfl⟩ := Prod.mk.inj (Option.some.inj hc)
    have hcv : ((addSyncPoint s p 1).pointCv p).isSome := by
      cases hp : s.pointCv p with
      | some cv => simp [addSyncPoint_present hp, hp]
      | none => simp [addSyncPoint_pointCv hp]
    exact ⟨(h.add p 1 p).trans hcv, hcv⟩
  | wait =>
    obtain ⟨⟨cv, y⟩, hwait, hy⟩ := Option.map_eq_some_iff.mp hc
    obtain ⟨rfl, rfl⟩ := Prod.mk.inj hy
    obtain ⟨hcv, rfl⟩ := wait_cases hwait
    exact hcv
  | blocked cv =>
    obtain ⟨-, hc⟩ := Option.ite_none_left_eq_some.mp hc
    obtain ⟨rfl, -⟩ := Prod.mk.inj (Option.some.inj hc)
    exact hw.elim
  | del =>
    obtain ⟨rfl, -⟩ := Prod.mk.inj (Option.some.inj hc)
    exact hw.elim
  | done => cases hc

/-- Another thread stays within reach, unless the point that it stands at is deleted. -/
theorem Call.step_reachable_other {s s' : State T} {p q : T} {t : Nat} {c c' d : Call}
    (hc : c.step s p t = some (c', s')) (hd : d.Reachable s q) (hdel : c = .del → d = .add ∨ q ≠ p) :
    d.Reachable s' q := by
  cases c with
  | add =>
    obtain ⟨-, rfl⟩ := Prod.mk.inj (Option.some.inj hc)
    cases hp : s.pointCv p with
    | some cv => rwa [addSyncPoint_present hp]
    | none =>
      have hother : d ≠ .add → d ≠ .del → d ≠ .done → q ≠ p := by
        rintro hadd hdel hdone rfl
        cases d <;> simp_all [Call.Reachable]
      cases d with
      | add => trivial
      | wait =>
        have hqp := hother (by simp) (by simp) (by simp)
        simpa [Call.Reachable, addSyncPoint, storeNum, storeM, storeCv, hp, hqp] using hd
      | blocked cv =>
        have hqp := hother (by simp) (by simp) (by simp)
        simpa [Call.Reachable, addSyncPoint_pointCv hp, hqp] using hd
      | del | done => exact hd.elim
  | wait =>
    obtain ⟨⟨cv, y⟩, hwait, hy⟩ := Option.map_eq_some_iff.mp hc
    obtain ⟨-, rfl⟩ := Prod.mk.inj hy
    obtain ⟨-, rfl⟩ := wait_cases hwait
    exact (Call.reachable_congr d rfl rfl).mpr hd
  | blocked cv =>
    obtain ⟨-, hc⟩ := Option.ite_none_left_eq_some.mp hc
    obtain ⟨-, rfl⟩ := Prod.mk.inj (Option.some.inj hc)
    exact hd
  | del =>
    obtain ⟨-, rfl⟩ := Prod.mk.inj (Option.some.inj hc)
    rcases hdel rfl with rfl | hqp
    · trivial
    · cases d with
      | add => trivial
      | wait =>
        refine ⟨?_, by simpa [delSyncPoint_pointCv, hqp] using hd.2⟩
        unfold delSyncPoint
        split <;> simpa [dropNum, dropM, dropCv, hqp] using hd.1
      | blocked cv => simpa [Call.Reachable, delSyncPoint_pointCv, hqp] using hd
      | del | done => exact hd.elim
  | done => cases hc

/-! ## Points for one peer -/

/-- Where every point is added for one peer, each notification of a point signals. -/
def Counted (s : State T) : Prop := ∀ p cv, s.pointCv p = some cv → readNum s p = 1

omit [DecidableEq T] in
theorem counted_empty : Counted (empty : State T) := by
  intro p cv h
  cases h

theorem Counted.add {s : State T} (h : Counted s) (p : T) : Counted (addSyncPoint s p 1) := by
  cases hp : s.pointCv p with
  | some cv => rwa [addSyncPoint_present hp]
  | none =>
    intro q cv hq
    rw [addSyncPoint_pointCv hp] at hq
    rw [addSyncPoint_readNum hp]
    by_cases hqp : q = p
    · simp [hqp]
    · simp only [if_neg hqp] at hq ⊢
      exact h q cv hq

theorem Counted.del {s : State T} (h : Counted s) (p : T) : Counted (delSyncPoint s p) := by
  intro q cv hq
  rw [delSyncPoint_pointCv] at hq
  by_cases hqp : q = p
  · simp [hqp] at hq
  · rw [delSyncPoint_readNum s hqp]
    exact h q cv (by simpa [hqp] using hq)

/-- A notification of such a point releases a waiting thread, or nobody waits there. -/
theorem Counted.notify_cases {s s' : State T} {p : T} {woken : Option Nat} (h : Counted s)
    (hn : notify s p woken = some s') :
    (woken = none ∧ s' = s ∧ ∀ cv, s.pointCv p = some cv → s.waiters cv = []) ∨
      ∃ cv t, s.pointCv p = some cv ∧ woken = some t ∧ t ∈ s.waiters cv ∧ s' = release s cv t := by
  rcases Syncer.notify_cases hn with ⟨hp, hw, rfl⟩ | ⟨cv, hp, hnum, -, -⟩ | ⟨cv, hp, -, hone⟩
  · exact .inl ⟨hw, rfl, fun cv hcv => by simp [hp] at hcv⟩
  · exact absurd (h p cv hp) hnum
  · rcases notifyOne_cases hone with ⟨hw, hempty, rfl⟩ | ⟨t, hw, ht, rfl⟩
    · refine .inl ⟨hw, rfl, ?_⟩
      intro c hc
      obtain rfl : cv = c := by simpa [hp] using hc
      exact hempty
    · exact .inr ⟨cv, t, hp, hw, ht, rfl⟩

end Syncer
