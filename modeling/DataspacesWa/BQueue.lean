import DataspacesWa.Pool
import DataspacesWa.Transition

/-!
# Blocking queues

`patch::BQueue` hands values from any threads to any threads. A call of `pop`
looks at the deque without its mutex, and waits under another mutex than the
one under which `push` adds a value, so that a notification can fall between
the look and the wait. Infiniband takes its ports from such a queue and puts
them back, the driver of the local space its requests.
-/
namespace BQueue

open Pool (commit)
open Transition (Reaches)

variable {α : Type}

/-- Where a thread is in `push` or `pop`. -/
inductive Pc (α : Type) where
  | idle
  | add (value : α)
  | signal
  | test
  | wait
  | blocked
  | take
  deriving DecidableEq

structure Thread (α : Type) where
  pc : Pc α
  /-- What its calls of `pop` have returned and it has not pushed again. -/
  held : List α
  deriving DecidableEq

/-- The deque has its front first. What has gone in and out is kept beside it. -/
structure State (α : Type) where
  dQueue : List α
  threads : List (Thread α)
  pushed : List α
  popped : List α
  deriving DecidableEq

/-- The values have been pushed one after the other, and no thread is in a call. -/
def init (values : List α) (n : Nat) : State α := ⟨values.reverse, List.replicate n ⟨.idle, []⟩, values, []⟩

inductive Action (α : Type) where
  | push (i : Nat) (value : α)
  | pop (i : Nat)
  | go (i : Nat)
  | signal (i : Nat) (woken : Option Nat)
  | spurious (i : Nat)

def State.goOn (s : State α) (i : Nat) (th : Thread α) : State α := { s with threads := commit s.threads i th [] }

section Steps
variable [DecidableEq α]

/-- A call begins. -/
def stepCall (s : State α) (i : Nat) (pc : Pc α) : Option (State α) :=
  s.threads[i]?.bind fun th => match th.pc with
    | .idle => some (s.goOn i { th with pc := pc })
    | _ => none

/-- What a thread does by itself; a thread that has been woken looks at the deque again. -/
def stepThread (s : State α) (i : Nat) : Option (State α) :=
  s.threads[i]?.bind fun th => match th.pc with
    | .add value => some { s.goOn i ⟨.signal, th.held.erase value⟩ with
        dQueue := value :: s.dQueue
        pushed := s.pushed ++ [value] }
    | .test => some (s.goOn i { th with pc := if s.dQueue = [] then .wait else .take })
    | .wait => some (s.goOn i { th with pc := .blocked })
    -- the back of an empty deque is undefined
    | .take => s.dQueue.getLast?.map fun value =>
        { s.goOn i ⟨.idle, th.held ++ [value]⟩ with dQueue := s.dQueue.dropLast, popped := s.popped ++ [value] }
    | _ => none

/-- A blocked thread goes on, notified or not. -/
def wake (s : State α) (j : Nat) : Option (State α) :=
  s.threads[j]?.bind fun th => match th.pc with
    | .blocked => some (s.goOn j { th with pc := .test })
    | _ => none

/-- `notify_one` wakes some thread that is blocked, and none only where none is. -/
def stepSignal (s : State α) (i : Nat) (woken : Option Nat) : Option (State α) :=
  s.threads[i]?.bind fun th => match th.pc with
    | .signal =>
      let s' := s.goOn i { th with pc := .idle }
      match woken with
      | some j => wake s' j
      | none => if ∀ x ∈ s.threads, x.pc ≠ .blocked then some s' else none
    | _ => none

def step (s : State α) : Action α → Option (State α)
  | .push i value => stepCall s i (.add value)
  | .pop i => stepCall s i .test
  | .go i => stepThread s i
  | .signal i woken => stepSignal s i woken
  | .spurious i => wake s i

end Steps

/-! ## What the threads are to do -/

/-- No notification is lost on a thread that has seen the deque empty and does not wait yet. -/
def Timely (s : State α) : Action α → Prop
  | .signal _ none => ∀ th ∈ s.threads, th.pc ≠ .wait
  | _ => True

def Pc.taking : Pc α → Bool
  | .take => true
  | _ => false

/-- How many threads are at such a place. -/
def number (place : Pc α → Bool) (threads : List (Thread α)) : Nat := threads.countP (place ·.pc)

/-- No more threads go to take a value than there are. -/
def Spare (s : State α) : Action α → Prop
  | .go i => ∀ th ∈ s.threads[i]?, th.pc = .test → s.dQueue ≠ [] →
      number Pc.taking s.threads < s.dQueue.length
  | _ => True

/-- The threads push only what they have popped. -/
def Returns (s : State α) : Action α → Prop
  | .push i value => ∀ th ∈ s.threads[i]?, value ∈ th.held
  | _ => True

/-- The first two conditions. -/
def Careful (s : State α) (a : Action α) : Prop := Timely s a ∧ Spare s a

instance [DecidableEq α] (s : State α) (a : Action α) : Decidable (Careful s a) := by
  unfold Careful Timely Spare
  cases a with
  | signal i woken => cases woken <;> infer_instance
  | _ => infer_instance

instance [DecidableEq α] (s : State α) (a : Action α) : Decidable (Returns s a) := by
  unfold Returns
  cases a <;> infer_instance

/-! ## One step -/

/-- What a step does to the thread that steps and to the deque. -/
inductive Does [DecidableEq α] (s : State α) (i : Nat) (th : Thread α) : Action α → State α → Prop where
  | push (value : α) (hpc : th.pc = .idle) : Does s i th (.push i value) (s.goOn i { th with pc := .add value })
  | pop (hpc : th.pc = .idle) : Does s i th (.pop i) (s.goOn i { th with pc := .test })
  | add (value : α) (hpc : th.pc = .add value) : Does s i th (.go i) { s.goOn i ⟨.signal, th.held.erase value⟩ with
      dQueue := value :: s.dQueue
      pushed := s.pushed ++ [value] }
  | empty (hpc : th.pc = .test) (hempty : s.dQueue = []) : Does s i th (.go i) (s.goOn i { th with pc := .wait })
  | found (hpc : th.pc = .test) (hsome : s.dQueue ≠ []) : Does s i th (.go i) (s.goOn i { th with pc := .take })
  | wait (hpc : th.pc = .wait) : Does s i th (.go i) (s.goOn i { th with pc := .blocked })
  | take (rest : List α) (value : α) (hpc : th.pc = .take) (hqueue : s.dQueue = rest ++ [value]) :
      Does s i th (.go i) { s.goOn i ⟨.idle, th.held ++ [value]⟩ with dQueue := rest, popped := s.popped ++ [value] }
  | unheard (hpc : th.pc = .signal) (hnone : ∀ x ∈ s.threads, x.pc ≠ .blocked) :
      Does s i th (.signal i none) (s.goOn i { th with pc := .idle })
  | wake (hpc : th.pc = .blocked) : Does s i th (.spurious i) (s.goOn i { th with pc := .test })

section Cases
variable [DecidableEq α] {s s' : State α} {i j : Nat}

omit [DecidableEq α] in
theorem wake_cases (h : wake s j = some s') :
    ∃ x, s.threads[j]? = some x ∧ x.pc = .blocked ∧ s' = s.goOn j { x with pc := .test } := by
  obtain ⟨x, hx, h⟩ := Option.bind_eq_some_iff.mp h
  split at h
  next hpc => exact ⟨x, hx, hpc, (Option.some.inj h).symm⟩
  next => cases h

theorem thread_cases (h : stepThread s i = some s') : ∃ th, s.threads[i]? = some th ∧ Does s i th (.go i) s' := by
  obtain ⟨th, hth, h⟩ := Option.bind_eq_some_iff.mp h
  refine ⟨th, hth, ?_⟩
  split at h
  next value hpc =>
    obtain rfl := Option.some.inj h
    exact .add value hpc
  next hpc =>
    obtain rfl := Option.some.inj h
    by_cases hempty : s.dQueue = []
    · rw [if_pos hempty]
      exact .empty hpc hempty
    · rw [if_neg hempty]
      exact .found hpc hempty
  next hpc =>
    obtain rfl := Option.some.inj h
    exact .wait hpc
  next hpc =>
    obtain ⟨value, hlast, rfl⟩ := Option.map_eq_some_iff.mp h
    exact .take s.dQueue.dropLast value hpc (List.dropLast_append_getLast? value hlast).symm
  next => cases h

/-- A step is one of a single thread, or a notification that wakes another. -/
theorem step_cases {a : Action α} (h : step s a = some s') :
    (∃ i th, s.threads[i]? = some th ∧ Does s i th a s') ∨
      ∃ i j th x, s.threads[i]? = some th ∧ th.pc = .signal ∧ j ≠ i ∧ s.threads[j]? = some x ∧ x.pc = .blocked ∧
        s' = (s.goOn i { th with pc := .idle }).goOn j { x with pc := .test } := by
  cases a with
  | push i value =>
    obtain ⟨th, hth, h⟩ := Option.bind_eq_some_iff.mp h
    split at h
    next hpc =>
      obtain rfl := Option.some.inj h
      exact .inl ⟨i, th, hth, .push value hpc⟩
    next => cases h
  | pop i =>
    obtain ⟨th, hth, h⟩ := Option.bind_eq_some_iff.mp h
    split at h
    next hpc =>
      obtain rfl := Option.some.inj h
      exact .inl ⟨i, th, hth, .pop hpc⟩
    next => cases h
  | go i =>
    obtain ⟨th, hth, hdoes⟩ := thread_cases h
    exact .inl ⟨i, th, hth, hdoes⟩
  | signal i woken =>
    obtain ⟨th, hth, h⟩ := Option.bind_eq_some_iff.mp h
    split at h
    next hpc =>
      cases woken with
      | none =>
        obtain ⟨hnone, h⟩ := Option.ite_none_right_eq_some.mp h
        obtain rfl := Option.some.inj h
        exact .inl ⟨i, th, hth, .unheard hpc hnone⟩
      | some j =>
        obtain ⟨x, hx, hblocked, rfl⟩ := wake_cases h
        rcases Pool.commit_nil_cases hx with ⟨-, rfl⟩ | ⟨hj, hx⟩
        · cases hblocked
        · exact .inr ⟨i, j, th, x, hth, hpc, hj, hx, hblocked, rfl⟩
    next => cases h
  | spurious i =>
    obtain ⟨x, hx, hblocked, rfl⟩ := wake_cases h
    exact .inl ⟨i, x, hx, .wake hblocked⟩

end Cases

/-! ## In order -/

section Served
variable [DecidableEq α] {s s' : State α} {i : Nat} {th : Thread α} {a : Action α}

/-- What has been popped, and then what is in the deque from its back on, is what has been pushed. -/
def Ordered (s : State α) : Prop := s.popped ++ s.dQueue.reverse = s.pushed

theorem ordered_step (hi : Ordered s) (hs : step s a = some s') : Ordered s' := by
  unfold Ordered at hi ⊢
  rcases step_cases hs with ⟨i, th, -, hdoes⟩ | ⟨i, j, th, x, -, -, -, -, -, rfl⟩
  · cases hdoes with
    | add value hpc => simp [State.goOn, ← hi]
    | take rest value hpc hqueue => simpa [State.goOn, hqueue] using hi
    | _ => exact hi
  · exact hi

/-! ## Attended -/

def Pc.coming : Pc α → Bool
  | .test | .take | .signal => true
  | _ => false

def Pc.resting : Pc α → Bool
  | .wait | .blocked => true
  | _ => false

/-- While a thread rests there is for each value a thread that comes for it or is about to notify. -/
def Attended (s : State α) : Prop :=
  0 < number Pc.resting s.threads → s.dQueue.length ≤ number Pc.coming s.threads

omit [DecidableEq α] in
theorem number_commit {threads : List (Thread α)} (hth : threads[i]? = some th) (place : Pc α → Bool) (th' : Thread α) :
    number place (commit threads i th' []) + (if place th.pc then 1 else 0) =
      number place threads + if place th'.pc then 1 else 0 :=
  Pool.commit_countP hth (place ·.pc) th' []

omit [DecidableEq α] in
/-- Where no thread is blocked or about to be, none rests. -/
theorem none_resting (hwait : ∀ x ∈ s.threads, x.pc ≠ .wait) (hblocked : ∀ x ∈ s.threads, x.pc ≠ .blocked) :
    number Pc.resting s.threads = 0 := by
  rw [number, List.countP_eq_zero]
  intro x hx hrest
  cases hpc : x.pc with
  | wait => exact hwait x hx hpc
  | blocked => exact hblocked x hx hpc
  | _ => simp [hpc, Pc.resting] at hrest

omit [DecidableEq α] in
/-- A thread that goes on leaves no more values than it comes for, and goes to rest only beside none. -/
theorem Attended.goOn (hi : Attended s) (hth : s.threads[i]? = some th) {th' : Thread α}
    (hthreads : s'.threads = commit s.threads i th' [])
    (hvalues : s'.dQueue.length + (if th.pc.coming then 1 else 0) ≤ s.dQueue.length + if th'.pc.coming then 1 else 0)
    (hrest : th'.pc.resting = true → th.pc.resting = true) : Attended s' := by
  intro hpos
  rw [hthreads] at hpos ⊢
  have hcoming := number_commit hth Pc.coming th'
  have hresting := number_commit hth Pc.resting th'
  have hbefore : 0 < number Pc.resting s.threads := by
    by_cases hr : th'.pc.resting = true
    · rw [if_pos hr, if_pos (hrest hr)] at hresting
      omega
    · rw [if_neg hr] at hresting
      omega
  have hle := hi hbefore
  omega

theorem attended_step (hi : Attended s) (hok : Timely s a) (hs : step s a = some s') : Attended s' := by
  rcases step_cases hs with ⟨i, th, hth, hdoes⟩ | ⟨i, j, th, x, hth, hpc, hj, hx, hblocked, rfl⟩
  · cases hdoes with
    | push value hpc => exact hi.goOn hth rfl (by simp [hpc, Pc.coming, State.goOn]) (by simp [Pc.resting])
    | pop hpc => exact hi.goOn hth rfl (by simp [hpc, Pc.coming, State.goOn]) (by simp [Pc.resting])
    | add value hpc => exact hi.goOn hth rfl (by simp [hpc, Pc.coming]) (by simp [Pc.resting])
    | empty hpc hempty =>
      intro _
      show s.dQueue.length ≤ _
      rw [hempty]
      exact Nat.zero_le _
    | found hpc hsome => exact hi.goOn hth rfl (by simp [hpc, Pc.coming, State.goOn]) (by simp [Pc.resting])
    | wait hpc => exact hi.goOn hth rfl (by simp [hpc, Pc.coming, State.goOn]) (by simp [hpc, Pc.resting])
    | take rest value hpc hqueue => exact hi.goOn hth rfl (by simp [hpc, Pc.coming, hqueue]) (by simp [Pc.resting])
    | unheard hpc hnone =>
      -- nobody rests here, and the thread that has notified does not
      intro hpos
      have hnobody := none_resting hok hnone
      have hresting := number_commit hth Pc.resting { th with pc := .idle }
      simp [hpc, Pc.resting] at hresting
      change 0 < number Pc.resting (commit s.threads i { th with pc := Pc.idle } []) at hpos
      omega
    | wake hpc => exact hi.goOn hth rfl (by simp [hpc, Pc.coming, State.goOn]) (by simp [Pc.resting])
  · intro hpos
    have hx' := Pool.commit_other hx hj { th with pc := Pc.idle } []
    have hcoming := number_commit hth Pc.coming { th with pc := .idle }
    have hcoming' := number_commit hx' Pc.coming { x with pc := .test }
    have hresting := number_commit hth Pc.resting { th with pc := .idle }
    have hresting' := number_commit hx' Pc.resting { x with pc := .test }
    simp [hpc, hblocked, Pc.coming, Pc.resting] at hcoming hcoming' hresting hresting'
    have hle := hi (by omega)
    show s.dQueue.length ≤ number Pc.coming (commit (commit s.threads i _ []) j _ [])
    omega

/-! ## Stocked -/

/-- There is a value for each thread that has seen one. -/
def Stocked (s : State α) : Prop := number Pc.taking s.threads ≤ s.dQueue.length

omit [DecidableEq α] in
theorem Stocked.goOn (hi : Stocked s) (hth : s.threads[i]? = some th) {th' : Thread α}
    (hthreads : s'.threads = commit s.threads i th' [])
    (hvalues : s.dQueue.length + (if th'.pc.taking then 1 else 0) ≤ s'.dQueue.length + if th.pc.taking then 1 else 0) :
    Stocked s' := by
  have htaking := number_commit hth Pc.taking th'
  unfold Stocked at hi ⊢
  rw [hthreads]
  omega

theorem stocked_step (hi : Stocked s) (hok : Spare s a) (hs : step s a = some s') : Stocked s' := by
  rcases step_cases hs with ⟨i, th, hth, hdoes⟩ | ⟨i, j, th, x, hth, hpc, hj, hx, hblocked, rfl⟩
  · cases hdoes with
    | push value hpc => exact hi.goOn hth rfl (by simp [hpc, Pc.taking, State.goOn])
    | pop hpc => exact hi.goOn hth rfl (by simp [hpc, Pc.taking, State.goOn])
    | add value hpc => exact hi.goOn hth rfl (by simp [hpc, Pc.taking])
    | empty hpc hempty => exact hi.goOn hth rfl (by simp [hpc, Pc.taking, State.goOn])
    | found hpc hsome =>
      have hroom := hok th hth hpc hsome
      have htaking := number_commit hth Pc.taking { th with pc := .take }
      simp [hpc, Pc.taking] at htaking
      show number Pc.taking (commit s.threads i _ []) ≤ s.dQueue.length
      omega
    | wait hpc => exact hi.goOn hth rfl (by simp [hpc, Pc.taking, State.goOn])
    | take rest value hpc hqueue => exact hi.goOn hth rfl (by simp [hpc, Pc.taking, hqueue])
    | unheard hpc hnone => exact hi.goOn hth rfl (by simp [hpc, Pc.taking, State.goOn])
    | wake hpc => exact hi.goOn hth rfl (by simp [hpc, Pc.taking, State.goOn])
  · have hx' := Pool.commit_other hx hj { th with pc := Pc.idle } []
    have hidle : Stocked (s.goOn i { th with pc := .idle }) := hi.goOn hth rfl (by simp [hpc, Pc.taking, State.goOn])
    exact hidle.goOn hx' rfl (by simp [hblocked, Pc.taking, State.goOn])

/-! ## Runs -/

/-- The values come out in order; nobody rests beside a value for which nobody comes; a value is there to be taken. -/
structure Served (ok : State α → Action α → Prop) (s : State α) : Prop where
  ordered : Ordered s
  attended : (∀ u a, ok u a → Timely u a) → Attended s
  nonempty : (∀ u a, ok u a → Spare u a) → ∀ th ∈ s.threads, th.pc = .take → s.dQueue ≠ []

/-- However the threads take turns, values come out in the order in which they went in, each once. Where no
notification falls between a look and its wait, no thread is left resting beside a value for which nobody comes;
and where no more threads go to take a value than there are, none takes one from an empty deque. -/
theorem values_served {ok : State α → Action α → Prop} {values : List α} {n : Nat}
    (h : Reaches step ok (init values n) s) : Served ok s := by
  have hat : ∀ f : Pc α → Bool, f .idle = false → number f (init values n).threads = 0 := by
    intro f hf
    rw [number, List.countP_eq_zero]
    intro x hx
    rw [(List.mem_replicate.mp hx).2]
    simp [hf]
  constructor
  · exact h.invariant Ordered (by simp [Ordered, init]) fun _ _ _ hi _ hs => ordered_step hi hs
  · intro htimely
    refine h.invariant Attended (fun hpos => ?_) fun u a _ hi hok hs => attended_step hi (htimely u a hok) hs
    rw [hat _ rfl] at hpos
    exact absurd hpos (Nat.lt_irrefl 0)
  · intro hspare th hth hpc hempty
    have hstocked : Stocked s := by
      refine h.invariant Stocked ?_ fun u a _ hi hok hs => stocked_step hi (hspare u a hok) hs
      rw [Stocked, hat _ rfl]
      exact Nat.zero_le _
    have hpos : 0 < number Pc.taking s.threads := List.countP_pos_iff.mpr ⟨th, hth, by rw [hpc]; rfl⟩
    rw [Stocked, hempty, List.length_nil] at hstocked
    omega

/-- A thread waits and is notified of the first value. -/
theorem first_value_served : ∃ s : State Nat, s.popped = [5] ∧ Served Careful s := by
  obtain ⟨s, hs, htest⟩ := Transition.runWhere_reaches_of_any step Careful (init ([] : List Nat) 2)
    [.pop 0, .go 0, .go 0, .push 1 5, .go 1, .signal 1 (some 0), .go 0, .go 0]
    (fun s => decide (s.popped = [5])) (by decide)
  exact ⟨s, of_decide_eq_true htest, values_served hs⟩

/-- A notification between the look and the wait is lost, and the thread rests beside the value. -/
example : ((Transition.run step [.pop 0, .go 0, .push 1 5, .go 1, .signal 1 none, .go 0] (init ([] : List Nat) 2)).map
    fun s => (s.dQueue, s.threads.map Thread.pc)) = some ([5], [.blocked, .idle]) := by decide

end Served

/-! ## Ports -/

section Ports
variable [DecidableEq α] {values : List α} {s s' : State α} {i : Nat} {th : Thread α}

/-- How often the threads hold a value. -/
def inHands (threads : List (Thread α)) (value : α) : Nat := (threads.map fun th => th.held.count value).sum

theorem inHands_commit {threads : List (Thread α)} (hth : threads[i]? = some th) (th' : Thread α) (value : α) :
    inHands (commit threads i th' []) value + th.held.count value = inHands threads value + th'.held.count value := by
  rw [inHands, commit, List.append_nil]
  exact Pool.sum_map_set hth (fun th => th.held.count value) th'

/-- Each value is in the deque or in the hands of a thread, as often as it was there at the start. -/
structure Conserved (values : List α) (s : State α) : Prop where
  count : ∀ value, s.dQueue.count value + inHands s.threads value = values.count value
  adding : ∀ th ∈ s.threads, ∀ value, th.pc = .add value → value ∈ th.held

theorem Conserved.goOn (hi : Conserved values s) (hth : s.threads[i]? = some th) {th' : Thread α}
    (hthreads : s'.threads = commit s.threads i th' [])
    (hcount : ∀ value, s'.dQueue.count value + th'.held.count value = s.dQueue.count value + th.held.count value)
    (hadding : ∀ value, th'.pc = .add value → value ∈ th'.held) : Conserved values s' := by
  constructor
  · intro value
    have hhands := inHands_commit hth th' value
    have hvalue := hcount value
    have hbefore := hi.count value
    rw [hthreads]
    omega
  · intro x hx value hpc
    rw [hthreads] at hx
    obtain ⟨k, hk⟩ := List.getElem?_of_mem hx
    rcases Pool.commit_nil_cases hk with ⟨-, rfl⟩ | ⟨-, hk⟩
    · exact hadding value hpc
    · exact hi.adding x (List.mem_of_getElem? hk) value hpc

theorem conserved_step {a : Action α} (hi : Conserved values s) (hok : Returns s a) (hs : step s a = some s') :
    Conserved values s' := by
  rcases step_cases hs with ⟨i, th, hth, hdoes⟩ | ⟨i, j, th, x, hth, hpc, hj, hx, hblocked, rfl⟩
  · cases hdoes with
    | push value hpc =>
      refine hi.goOn hth rfl (fun _ => rfl) ?_
      rintro _ ⟨⟩
      exact hok th hth
    | add value hpc =>
      have hmem : value ∈ th.held := hi.adding th (List.mem_of_getElem? hth) value hpc
      refine hi.goOn hth rfl (fun v => ?_) (by rintro _ ⟨⟩)
      have hpos := List.count_pos_iff.mpr hmem
      rw [List.count_cons, List.count_erase]
      by_cases hv : value = v
      · subst hv
        simp only [beq_self_eq_true, if_true]
        omega
      · simp [hv]
    | take rest value hpc hqueue =>
      refine hi.goOn hth rfl (fun v => ?_) (by rintro _ ⟨⟩)
      show rest.count v + (th.held ++ [value]).count v = _
      rw [hqueue, List.count_append, List.count_append]
      omega
    | _ => exact hi.goOn hth rfl (fun _ => rfl) (by rintro _ ⟨⟩)
  · have hx' := Pool.commit_other hx hj { th with pc := Pc.idle } []
    have hidle : Conserved values (s.goOn i { th with pc := .idle }) := hi.goOn hth rfl (fun _ => rfl) (by rintro _ ⟨⟩)
    exact hidle.goOn hx' rfl (fun _ => rfl) (by rintro _ ⟨⟩)

/-- `IBTrans::get_s_lport` -/
def getSLport (i : Nat) : Action String := .pop i

/-- `IBTrans::return_s_lport` -/
def returnSLport (i : Nat) (sLport : String) : Action String := .push i sLport

/-- A port is free, or one thread has it. -/
structure Assigned (ports : List String) (s : State String) : Prop where
  once : s.dQueue.Nodup ∧ ∀ th ∈ s.threads, th.held.Nodup
  listed : ∀ p, p ∈ ports ↔ p ∈ s.dQueue ∨ ∃ th ∈ s.threads, p ∈ th.held
  free : ∀ th ∈ s.threads, ∀ p ∈ th.held, p ∉ s.dQueue
  single : ∀ (i j : Nat) (x y : Thread String) (p : String), s.threads[i]? = some x → s.threads[j]? = some y →
    p ∈ x.held → p ∈ y.held → i = j

theorem count_held_le {x : Thread α} {threads : List (Thread α)} (hx : x ∈ threads) (p : α) :
    x.held.count p ≤ inHands threads p :=
  List.single_le_sum (by simp) _ (List.mem_map.mpr ⟨x, hx, rfl⟩)

theorem pos_of_held {x : Thread α} {threads : List (Thread α)} {p : α} (hx : x ∈ threads) (hp : p ∈ x.held) :
    0 < inHands threads p :=
  Nat.lt_of_lt_of_le (List.count_pos_iff.mpr hp) (count_held_le hx p)

/-- However the handlers of a DS take their ports and give them back, each port is free or with one handler, and
none is lost or listed twice. -/
theorem ports_assigned {ports : List String} (hnodup : ports.Nodup) {n : Nat} {s : State String}
    (h : Reaches step Returns (init ports n) s) : Assigned ports s := by
  have hzero : ∀ p, inHands (init ports n).threads p = 0 := fun p => by simp [inHands, init]
  have hi := h.invariant (Conserved ports)
    ⟨fun p => by rw [hzero p]; simp [init], fun th hth p hpc => by
      rw [(List.mem_replicate.mp hth).2] at hpc
      cases hpc⟩ fun _ _ _ hi hok hs => conserved_step hi hok hs
  have hone : ∀ p, s.dQueue.count p + inHands s.threads p ≤ 1 := fun p => by
    rw [hi.count p]
    exact List.nodup_iff_count_le_one.mp hnodup p
  constructor
  · constructor
    · exact List.nodup_iff_count_le_one.mpr fun p => Nat.le_trans (Nat.le_add_right _ _) (hone p)
    · intro th hth
      refine List.nodup_iff_count_le_one.mpr fun p => ?_
      have hle := count_held_le hth p
      have htotal := hone p
      omega
  · intro p
    have hcount := hi.count p
    rw [← List.count_pos_iff, ← hcount, ← List.count_pos_iff (l := s.dQueue)]
    constructor
    · intro hpos
      by_cases hfree : 0 < s.dQueue.count p
      · exact .inl hfree
      · have hheld : inHands s.threads p ≠ 0 := by omega
        obtain ⟨m, hm, hm0⟩ := List.exists_mem_ne_zero_of_sum_ne_zero hheld
        obtain ⟨th, hth, rfl⟩ := List.mem_map.mp hm
        exact .inr ⟨th, hth, List.count_pos_iff.mp (Nat.pos_of_ne_zero hm0)⟩
    · rintro (hfree | ⟨th, hth, hp⟩)
      · omega
      · have hpos := pos_of_held hth hp
        omega
  · intro th hth p hp hfree
    have hpos := pos_of_held hth hp
    have hfree := List.count_pos_iff.mpr hfree
    have hle := hone p
    omega
  · intro i j x y p hx hy hpx hpy
    by_contra hij
    have hsum := Pool.sum_map_eraseIdx hx fun th => th.held.count p
    have hmem : y ∈ s.threads.eraseIdx i := List.mem_eraseIdx_iff_getElem?.mpr ⟨j, Ne.symm hij, hy⟩
    have hothers : 0 < inHands (s.threads.eraseIdx i) p := pos_of_held hmem hpy
    have hown := List.count_pos_iff.mpr hpx
    have hle := hone p
    unfold inHands at hothers hle
    omega

/-- Two handlers have a port each, and the first gives its port back. -/
theorem two_ports_assigned :
    ∃ s : State String, s.dQueue = ["7001"] ∧ s.threads.map Thread.held = [[], ["7002"]] ∧ Assigned ["7001", "7002"] s := by
  obtain ⟨s, hs, htest⟩ := Transition.runWhere_reaches_of_any step Returns (init ["7001", "7002"] 2)
    [getSLport 0, getSLport 1, .go 0, .go 1, .go 0, .go 1, returnSLport 0 "7001", .go 0, .signal 0 none]
    (fun s => decide (s.dQueue = ["7001"] ∧ s.threads.map Thread.held = [[], ["7002"]])) (by decide)
  have hrun := of_decide_eq_true htest
  exact ⟨s, hrun.1, hrun.2, ports_assigned (by decide) hs⟩

end Ports

end BQueue
