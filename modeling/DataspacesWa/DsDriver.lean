import DataspacesWa.Transition
import DataspacesWa.Patch
import DataspacesWa.Exclusive

/-!
# Gets of the DataSpaces driver

`DSDriver::reg_get_wait_for_completion` queues a get and waits on the point of
its variable and version. `DSDriver::get_poll` runs the queued gets one after
the other, each in a thread of its own which it gives up after a while, and the
outcome passes through the two flags `get_done` and `get_success`.
-/
namespace DsDriver

open Transition (Reaches free run runWhere)
open Patch (Datum)
open Syncer (Call)
open Exclusive (Phase Sole phases callPhase)
open Function (update)

/-- `get_data_id` of the driver leaves the box out. -/
def getDataId (d : Datum) : String := d.key ++ "_" ++ toString d.ver.toNat

abbrev Bytes := List UInt8

/-- `reg_get_wait_for_completion`; the outcome is read once the calls are done. -/
inductive RequestPc where
  | push
  | call : Call → RequestPc
  | returned : Int → RequestPc
  deriving DecidableEq, Repr

structure Request where
  datum : Datum
  pc : RequestPc
  deriving DecidableEq, Repr

def Request.point (q : Request) : UInt32 := Patch.hashStr (getDataId q.datum)

/-- `plain_get`, with what `dspaces_get` brought once it has returned. -/
inductive GetPc where
  | get
  | storeSuccess : Option Bytes → GetPc
  | storeDone : Option Bytes → GetPc
  | finished : Option Bytes → GetPc
  deriving DecidableEq, Repr

structure Get where
  request : Nat
  pc : GetPc
  /-- `t.interrupt()`; `plain_get` has no interruption point. -/
  interrupted : Bool
  deriving DecidableEq, Repr

/-- `get_poll`, with the request and the get it works on and its counter. -/
inductive Poll where
  | pop
  | clearDone : Nat → Poll
  | clearSuccess : Nat → Poll
  | spawn : Nat → Poll
  | loop : Nat → Nat → Nat → Poll
  | test : Nat → Nat → Poll
  | success : Nat → Poll
  | write : Nat → Int → Poll
  | notify : Nat → Poll
  deriving DecidableEq, Repr

structure State where
  syncer : Syncer.State UInt32
  /-- `get_info_bq`, first in first out. -/
  queue : List Nat
  getDone : Bool
  getSuccess : Bool
  returnMap : UInt32 → Option Int
  /-- What the `data_` of a request points to, once something is written there. -/
  buffer : Nat → Option Bytes
  requests : List Request
  poll : Poll
  gets : List Get

inductive Action where
  | call : Datum → Action
  | request : Nat → Action
  | poll : Option Nat → Action
  | fetch : Nat → Option Bytes → Action
  | get : Nat → Action
  | spurious : Nat → Action
  deriving DecidableEq, Repr

def init : State :=
  ⟨Syncer.empty, [], false, false, fun _ => none, fun _ => none, [], .pop, []⟩

def State.goOn (s : State) (i : Nat) (q : Request) (pc : RequestPc) : State :=
  { s with requests := Pool.commit s.requests i { q with pc := pc } [] }

def stepRequest (s : State) (i : Nat) : Option State :=
  s.requests[i]?.bind fun q =>
    match q.pc with
    | .push => some { s.goOn i q (.call .add) with queue := s.queue ++ [i] }
    | .call .done =>
      -- `operator[]` creates a missing entry
      let r := (s.returnMap q.point).getD 0
      some { s.goOn i q (.returned r) with returnMap := update s.returnMap q.point (some r) }
    | .call c =>
      (c.step s.syncer q.point i).map fun (c', syncer) =>
        { s.goOn i q (.call c') with syncer := syncer }
    | .returned _ => none

def stepPoll (s : State) (woken : Option Nat) : Option State :=
  match s.poll with
  | .pop =>
    match s.queue with
    | [] => none
    | r :: queue => some { s with queue := queue, poll := .clearDone r }
  | .clearDone r => some { s with getDone := false, poll := .clearSuccess r }
  | .clearSuccess r => some { s with getSuccess := false, poll := .spawn r }
  | .spawn r =>
    s.requests[r]?.bind fun q =>
      match q.pc with
      -- `data__` points into the frame of a call that is over
      | .returned _ => none
      | _ => some { s with gets := s.gets ++ [⟨r, .get, false⟩], poll := .loop r s.gets.length 0 }
  | .loop r g counter =>
    if !s.getDone && counter + 1 < 20 then some { s with poll := .loop r g (counter + 1) }
    else some { s with poll := .test r g }
  | .test r g =>
    if s.getDone then some { s with poll := .success r }
    else
      s.gets[g]?.map fun x =>
        { s with gets := s.gets.set g { x with interrupted := true }, poll := .write r 1 }
  | .success r => some { s with poll := .write r (if s.getSuccess then 0 else 1) }
  | .write r v =>
    s.requests[r]?.map fun q =>
      { s with returnMap := update s.returnMap q.point (some v), poll := .notify r }
  | .notify r =>
    s.requests[r]?.bind fun q =>
      (Syncer.notify s.syncer q.point woken).map fun syncer =>
        { s with syncer := syncer, poll := .pop }

/-- `dspaces_get` returns, and has filled the buffer if it succeeds. -/
def stepFetch (s : State) (g : Nat) (outcome : Option Bytes) : Option State :=
  s.gets[g]?.bind fun x =>
    match x.pc with
    | .get => some { s with
        gets := s.gets.set g { x with pc := .storeSuccess outcome }
        buffer := if outcome.isSome then update s.buffer x.request outcome else s.buffer }
    | _ => none

def stepGet (s : State) (g : Nat) : Option State :=
  s.gets[g]?.bind fun x =>
    match x.pc with
    | .storeSuccess outcome => some { s with
        gets := s.gets.set g { x with pc := .storeDone outcome }, getSuccess := outcome.isSome }
    | .storeDone outcome => some { s with
        gets := s.gets.set g { x with pc := .finished outcome }, getDone := true }
    | _ => none

def stepSpurious (s : State) (i : Nat) : Option State :=
  s.requests[i]?.bind fun q =>
    match q.pc with
    | .call (.blocked cv) => (Syncer.spurious s.syncer cv i).map fun syncer => { s with syncer := syncer }
    | _ => none

def step (s : State) : Action → Option State
  | .call d => some { s with requests := s.requests ++ [⟨d, .push⟩] }
  | .request i => stepRequest s i
  | .poll woken => stepPoll s woken
  | .fetch g outcome => stepFetch s g outcome
  | .get g => stepGet s g
  | .spurious i => stepSpurious s i

def GetPc.outcome : GetPc → Option Bytes
  | .get => none
  | .storeSuccess o | .storeDone o | .finished o => o

def GetPc.isFinished : GetPc → Bool
  | .finished _ => true
  | _ => false

/-- The own get of request `r` brought data, and they are in the buffer of `r`. -/
def Got (s : State) (r : Nat) : Prop :=
  ∃ x ∈ s.gets, x.request = r ∧ ∃ data, x.pc.outcome = some data ∧ s.buffer r = some data

/-- The own get of request `r` has ended, or has been given up. -/
def Ended (s : State) (r : Nat) : Prop :=
  ∃ x ∈ s.gets, x.request = r ∧ (x.pc.isFinished ∨ x.interrupted)

/-- A request returns only for its own get, and with 0 only for its own data. -/
def Attributed (s : State) : Prop :=
  ∀ (r : Nat) (q : Request) (v : Int), s.requests[r]? = some q → q.pc = .returned v →
    Ended s r ∧ (v = 0 → Got s r)

/-- Called and not yet returned. -/
def RequestPc.outstanding : RequestPc → Bool
  | .push | .returned _ => false
  | _ => true

/-- The request for which `get_done` has been cleared and will be read. -/
def Poll.doneOf : Poll → Option Nat
  | .clearSuccess r | .spawn r | .loop r _ _ | .test r _ => some r
  | _ => none

/-- The request for which `get_success` has been cleared and will be read. -/
def Poll.successOf : Poll → Option Nat
  | .spawn r | .loop r _ _ | .test r _ | .success r => some r
  | _ => none

/-- A request is queued while no other outstanding one has its point, a get sets
no flag that another request is going to read, and no wait ends by itself. -/
def Separate (s : State) : Action → Prop
  | .request i =>
    ∀ q ∈ s.requests[i]?, q.pc = .push →
      ∀ x ∈ s.requests, x.pc.outstanding → x.point ≠ q.point
  | .get g =>
    ∀ x ∈ s.gets[g]?,
      match x.pc with
      | .storeSuccess _ => ∀ r ∈ s.poll.successOf, r = x.request
      | .storeDone _ => ∀ r ∈ s.poll.doneOf, r = x.request
      | _ => True
  | .spurious _ => False
  | _ => True

instance (s : State) (a : Action) : Decidable (Separate s a) := by
  unfold Separate
  split
  · infer_instance
  · refine @Option.decidableForallMem _ _ (fun x => ?_) _
    split <;> infer_instance
  all_goals infer_instance

def Request.phase (q : Request) : Phase UInt32 :=
  match q.pc with
  | .call c => callPhase q.point c
  | _ => .away

/-- The request has not been let go. -/
def Unserved (syncer : Syncer.State UInt32) (r : Nat) : RequestPc → Prop
  | .call c => c.Waiting syncer r
  | _ => False

/-- The request has been let go and is about to read its outcome. -/
def Released (syncer : Syncer.State UInt32) (r : Nat) : RequestPc → Prop
  | .call c => ¬ c.Waiting syncer r
  | _ => False

def Poll.request : Poll → Option Nat
  | .pop => none
  | .clearDone r | .clearSuccess r | .spawn r | .loop r _ _ | .test r _ | .success r | .write r _
  | .notify r => some r

/-- The request whose get is yet to be started. -/
def Poll.preparing : Poll → Option Nat
  | .clearDone r | .clearSuccess r | .spawn r => some r
  | _ => none

/-- The get the poll waits for. -/
def Poll.watching : Poll → Option (Nat × Nat)
  | .loop r g _ | .test r g => some (r, g)
  | _ => none

def Served (s : State) (r : Nat) (v : Int) : Prop := Ended s r ∧ (v = 0 → Got s r)

/-- The return map holds the outcome of the request's own get. -/
def Answered (s : State) (r : Nat) (p : UInt32) : Prop :=
  ∃ v, s.returnMap p = some v ∧ Served s r v

structure Inv (s : State) : Prop where
  sole : Sole s.syncer (phases Request.phase s.requests)
  unique : ∀ (i j : Nat) (qi qj : Request), s.requests[i]? = some qi → s.requests[j]? = some qj →
    qi.pc.outstanding → qj.pc.outstanding → qi.point = qj.point → i = j
  nodup : s.queue.Nodup
  apart : ∀ r ∈ s.queue, s.poll.request ≠ some r
  pending : ∀ r, r ∈ s.queue ∨ s.poll.request = some r →
    ∃ q, s.requests[r]? = some q ∧ Unserved s.syncer r q.pc
  unspawned : ∀ r, r ∈ s.queue ∨ s.poll.preparing = some r → ∀ x ∈ s.gets, x.request ≠ r
  begun : ∀ x ∈ s.gets, ∃ q, s.requests[x.request]? = some q ∧ q.pc ≠ .push
  single : ∀ (j k : Nat) (xj xk : Get), s.gets[j]? = some xj → s.gets[k]? = some xk →
    xj.request = xk.request → j = k
  filled : ∀ x ∈ s.gets, ∀ data, x.pc.outcome = some data → s.buffer x.request = some data
  watched : ∀ r g, s.poll.watching = some (r, g) → ∃ x, s.gets[g]? = some x ∧ x.request = r
  doneFlag : s.getDone → ∀ r, s.poll.doneOf = some r → ∃ x ∈ s.gets, x.request = r ∧ x.pc.isFinished
  successFlag : s.getSuccess → ∀ r, s.poll.successOf = some r → Got s r
  decided : ∀ r, s.poll = .success r → Ended s r
  writing : ∀ r v, s.poll = .write r v → Served s r v
  telling : ∀ r, s.poll = .notify r → ∀ q, s.requests[r]? = some q → Answered s r q.point
  answered : ∀ (r : Nat) (q : Request), s.requests[r]? = some q → Released s.syncer r q.pc →
    Answered s r q.point
  returned : ∀ (r : Nat) (q : Request) (v : Int), s.requests[r]? = some q → q.pc = .returned v →
    Served s r v

theorem inv_init : Inv init where
  sole := by
    have : phases Request.phase init.requests = fun _ => .away := by
      funext t; simp [phases, init]
    rw [this]
    exact Exclusive.sole_empty
  unique i j qi qj hi := by simp [init] at hi
  nodup := List.nodup_nil
  apart r hr := by simp [init] at hr
  pending r hr := by simp [init, Poll.request] at hr
  unspawned r hr x hx := by simp [init] at hx
  begun x hx := by simp [init] at hx
  single j k xj xk hj := by simp [init] at hj
  filled x hx := by simp [init] at hx
  watched r g h := by simp [init, Poll.watching] at h
  doneFlag h := by simp [init] at h
  successFlag h := by simp [init] at h
  decided r h := by simp [init] at h
  writing r v h := by simp [init] at h
  telling r h := by simp [init] at h
  answered r q h := by simp [init] at h
  returned r q v h := by simp [init] at h

section Requests
variable {s : State} {i : Nat} {q : Request} {pc : RequestPc}

theorem Unserved.outstanding {syncer : Syncer.State UInt32} {r : Nat} (h : Unserved syncer r pc) :
    pc.outstanding := by cases pc <;> simp_all [Unserved, RequestPc.outstanding]

theorem Released.outstanding {syncer : Syncer.State UInt32} {r : Nat} (h : Released syncer r pc) :
    pc.outstanding := by cases pc <;> simp_all [Released, RequestPc.outstanding]

theorem Unserved.not_released {syncer : Syncer.State UInt32} {r : Nat} (h : Unserved syncer r pc) :
    ¬ Released syncer r pc := by cases pc <;> simp_all [Unserved, Released]

/-- How a request stands depends on the condition variable it waits on alone. -/
theorem standing_congr {syncer syncer' : Syncer.State UInt32} (r : Nat)
    (hkeep : ∀ cv, pc = .call (.blocked cv) → syncer'.waiters cv = syncer.waiters cv) :
    (Unserved syncer' r pc ↔ Unserved syncer r pc) ∧ (Released syncer' r pc ↔ Released syncer r pc) := by
  cases pc with
  | call c =>
    have hsame : c.Waiting syncer' r ↔ c.Waiting syncer r :=
      Call.waiting_congr r fun cv hc => hkeep cv (by rw [hc])
    exact ⟨hsame, not_congr hsame⟩
  | _ => exact ⟨Iff.rfl, Iff.rfl⟩

theorem phase_outstanding {p : UInt32} (h : q.phase.point = some p) :
    q.pc.outstanding ∧ q.point = p := by
  cases hpc : q.pc with
  | call c =>
    simp only [Request.phase, hpc] at h
    exact ⟨rfl, Exclusive.callPhase_point h⟩
  | _ => simp [Request.phase, hpc, Phase.point] at h

/-- What a step of one request has to show for itself. -/
theorem Inv.goOn (hi : Inv s) (hq : s.requests[i]? = some q) (pc : RequestPc) (syncer : Syncer.State UInt32)
    (hsole : Sole syncer (update (phases Request.phase s.requests) i (Request.phase { q with pc := pc })))
    (hpush : pc ≠ .push)
    (hout : pc.outstanding → ∀ (j : Nat) (x : Request), j ≠ i → s.requests[j]? = some x →
      x.pc.outstanding → x.point ≠ q.point)
    (hkeep : ∀ (j : Nat) (x : Request) (cv : Nat), j ≠ i → s.requests[j]? = some x →
      x.pc = .call (.blocked cv) → syncer.waiters cv = s.syncer.waiters cv)
    (hpend : Unserved s.syncer i q.pc → Unserved syncer i pc)
    (hans : Released syncer i pc → Answered s i q.point)
    (hret : ∀ v, pc = .returned v → Served s i v) : Inv { s.goOn i q pc with syncer := syncer } := by
  have unserved : ∀ (j : Nat) (x : Request), j ≠ i → s.requests[j]? = some x →
      (Unserved syncer j x.pc ↔ Unserved s.syncer j x.pc) ∧
      (Released syncer j x.pc ↔ Released s.syncer j x.pc) :=
    fun j x hj hx => standing_congr j fun cv => hkeep j x cv hj hx
  refine { hi with
    sole := ?_, unique := ?_, pending := ?_, begun := ?_, telling := ?_, answered := ?_, returned := ?_ }
  · show Sole syncer (phases Request.phase (Pool.commit s.requests i { q with pc := pc } []))
    rw [Exclusive.phases_commit Request.phase hq _ [] (by simp)]
    exact hsole
  · intro j k qj qk hj hk hoj hok hp
    rcases Pool.commit_nil_cases hj with ⟨rfl, rfl⟩ | ⟨hji, hj'⟩ <;>
      rcases Pool.commit_nil_cases hk with ⟨rfl, rfl⟩ | ⟨hki, hk'⟩
    · rfl
    · exact absurd hp.symm (hout hoj k qk hki hk' hok)
    · exact absurd hp (hout hok j qj hji hj' hoj)
    · exact hi.unique j k qj qk hj' hk' hoj hok hp
  · intro r hr
    obtain ⟨x, hx, hun⟩ := hi.pending r hr
    by_cases hri : r = i
    · subst hri
      obtain rfl : q = x := by simpa [hq] using hx
      exact ⟨_, Pool.commit_self hq _ _, hpend hun⟩
    · exact ⟨x, Pool.commit_other hx hri _ _, (unserved r x hri hx).1.mpr hun⟩
  · intro x hx
    obtain ⟨y, hy, hne⟩ := hi.begun x hx
    by_cases hri : x.request = i
    · refine ⟨{ q with pc := pc }, ?_, hpush⟩
      rw [hri]
      exact Pool.commit_self hq _ _
    · exact ⟨y, Pool.commit_other hy hri _ _, hne⟩
  · intro r hr x hx
    rcases Pool.commit_nil_cases hx with ⟨rfl, rfl⟩ | ⟨-, hx'⟩
    · exact hi.telling r hr q hq
    · exact hi.telling r hr x hx'
  · intro r x hx hrel
    rcases Pool.commit_nil_cases hx with ⟨rfl, rfl⟩ | ⟨hri, hx'⟩
    · exact hans hrel
    · exact hi.answered r x hx' ((unserved r x hri hx').2.mp hrel)
  · intro r x v hx hv
    rcases Pool.commit_nil_cases hx with ⟨rfl, rfl⟩ | ⟨-, hx'⟩
    · exact hret v hv
    · exact hi.returned r x v hx' hv

/-- A request that is not yet known to anybody is queued. -/
theorem Inv.enqueue (hi : Inv s) (hq : s.requests[i]? = some q) (hun : Unserved s.syncer i q.pc)
    (hnew : i ∉ s.queue) (hpoll : s.poll.request ≠ some i) (hgets : ∀ x ∈ s.gets, x.request ≠ i) :
    Inv { s with queue := s.queue ++ [i] } := by
  refine { hi with nodup := ?_, apart := ?_, pending := ?_, unspawned := ?_ }
  · exact List.nodup_append.mpr ⟨hi.nodup, by simp, by
      intro a ha b hb hab
      simp only [List.mem_singleton] at hb
      exact hnew (hb ▸ hab ▸ ha)⟩
  · intro r hr
    rcases List.mem_append.mp hr with hr | hr
    · exact hi.apart r hr
    · rwa [List.mem_singleton.mp hr]
  · rintro r (hr | hr)
    · rcases List.mem_append.mp hr with hr | hr
      · exact hi.pending r (.inl hr)
      · rw [List.mem_singleton.mp hr]
        exact ⟨q, hq, hun⟩
    · exact hi.pending r (.inr hr)
  · rintro r (hr | hr)
    · rcases List.mem_append.mp hr with hr | hr
      · exact hi.unspawned r (.inl hr)
      · rwa [List.mem_singleton.mp hr]
    · exact hi.unspawned r (.inr hr)

theorem phases_request (hq : s.requests[i]? = some q) :
    phases Request.phase s.requests i = q.phase := Exclusive.phases_get _ hq

/-- Another outstanding request has another point. -/
theorem Inv.other_point (hi : Inv s) (hq : s.requests[i]? = some q) (hout : q.pc.outstanding)
    (j : Nat) (x : Request) (hj : j ≠ i) (hx : s.requests[j]? = some x) (hox : x.pc.outstanding) :
    x.point ≠ q.point := fun hp => hj (hi.unique j i x q hx hq hox hout hp)

/-- Nobody is at the point of a request that has not added it. -/
theorem Inv.unused (hi : Inv s) (hq : s.requests[i]? = some q) (hpc : q.pc = .call .add) :
    Exclusive.Unused (phases Request.phase s.requests) q.point := by
  intro j hj
  obtain ⟨x, hx, hp⟩ := Exclusive.point_of_phases hj
  obtain ⟨hox, hpoint⟩ := phase_outstanding hp
  obtain rfl := hi.unique j i x q hx hq hox (by simp [hpc, RequestPc.outstanding]) hpoint
  obtain rfl : q = x := by simpa [hq] using hx
  simp [Request.phase, hpc, callPhase, Phase.point] at hp

theorem inv_push (hi : Inv s) (hq : s.requests[i]? = some q) (hpc : q.pc = .push)
    (hfree : ∀ x ∈ s.requests, x.pc.outstanding → x.point ≠ q.point) :
    Inv { s.goOn i q (.call .add) with queue := s.queue ++ [i] } := by
  have haway : update (phases Request.phase s.requests) i (Request.phase { q with pc := .call .add }) =
      phases Request.phase s.requests := by
    rw [Function.update_eq_self_iff, phases_request hq]
    simp [Request.phase, hpc, callPhase]
  have hunknown : ¬ (i ∈ s.queue ∨ s.poll.request = some i) := by
    intro hp
    obtain ⟨x, hx, hun⟩ := hi.pending i hp
    obtain rfl : q = x := by simpa [hq] using hx
    simp [hpc, Unserved] at hun
  have hmoved : Inv { s.goOn i q (.call .add) with syncer := s.syncer } :=
    hi.goOn hq (.call .add) s.syncer (by rw [haway]; exact hi.sole) (by simp)
      (fun _ j x _ hx hox => hfree x (List.mem_of_getElem? hx) hox) (fun _ _ _ _ _ _ => rfl)
      (by simp [hpc, Unserved]) (by simp [Released, Call.Waiting]) (by simp)
  refine hmoved.enqueue (Pool.commit_self hq _ _) trivial (fun h => hunknown (.inl h))
    (fun h => hunknown (.inr h)) ?_
  rintro x hx rfl
  obtain ⟨y, hy, hne⟩ := hi.begun x hx
  obtain rfl : q = y := by simpa [hq] using hy
  exact hne hpc

theorem inv_call {c c' : Call} {syncer : Syncer.State UInt32} (hi : Inv s)
    (hq : s.requests[i]? = some q) (hpc : q.pc = .call c)
    (hs : c.step s.syncer q.point i = some (c', syncer)) :
    Inv { s.goOn i q (.call c') with syncer := syncer } := by
  have hphase : phases Request.phase s.requests i = callPhase q.point c := by
    rw [phases_request hq, Request.phase, hpc]
  have hstay := Call.step_waiting hs
  have hfree : c = .add → Exclusive.Unused (phases Request.phase s.requests) q.point :=
    fun h => hi.unused hq (by rw [hpc, h])
  refine hi.goOn hq _ syncer (Exclusive.sole_call hi.sole hphase hfree hs)
    (by simp) (fun _ => hi.other_point hq (by simp [hpc, RequestPc.outstanding])) ?_ ?_ ?_ (by simp)
  · intro j x cv hj hx hb
    exact Exclusive.call_spares hi.sole.toOwned hphase hj (q := x.point)
      (by rw [phases_request hx, Request.phase, hb]; rfl) hs
  · simpa [hpc, Unserved] using hstay.mpr
  · exact fun h => hi.answered i q hq (by simpa [hpc, Released, hstay] using h)

theorem inv_read (hi : Inv s) (hq : s.requests[i]? = some q) (hpc : q.pc = .call .done) :
    Inv { s.goOn i q (.returned ((s.returnMap q.point).getD 0)) with
      returnMap := update s.returnMap q.point (some ((s.returnMap q.point).getD 0)) } := by
  obtain ⟨v, hv, hserved⟩ := hi.answered i q hq (by simp [hpc, Released, Call.Waiting])
  have hsame : update s.returnMap q.point (some ((s.returnMap q.point).getD 0)) = s.returnMap := by
    rw [Function.update_eq_self_iff, hv]
    rfl
  have haway : update (phases Request.phase s.requests) i
      (Request.phase { q with pc := .returned ((s.returnMap q.point).getD 0) }) =
      phases Request.phase s.requests := by
    rw [Function.update_eq_self_iff, phases_request hq]
    simp [Request.phase, hpc, callPhase]
  rw [hsame]
  exact hi.goOn hq (.returned ((s.returnMap q.point).getD 0)) s.syncer
    (by rw [haway]; exact hi.sole) (by simp) (by rintro ⟨⟩) (fun _ _ _ _ _ _ => rfl)
    (by simp [hpc, Unserved, Call.Waiting]) (by simp [Released]) (by rintro _ ⟨⟩; rwa [hv])

theorem inv_request {s' : State} (hi : Inv s) (hok : Separate s (.request i))
    (hs : stepRequest s i = some s') : Inv s' := by
  obtain ⟨q, hq, hs⟩ := Option.bind_eq_some_iff.mp hs
  cases hpc : q.pc with
  | push =>
    simp only [hpc, Option.some.injEq] at hs
    subst hs
    exact inv_push hi hq hpc (by simpa [Separate, hq, hpc] using hok)
  | call c =>
    by_cases hc : c = .done
    · subst hc
      simp only [hpc, Option.some.injEq] at hs
      subst hs
      exact inv_read hi hq hpc
    · simp only [hpc, Option.map_eq_some_iff] at hs
      obtain ⟨⟨c', syncer⟩, hcall, rfl⟩ := hs
      exact inv_call hi hq hpc hcall
  | returned v => simp [hpc] at hs

end Requests

section Gets
variable {s : State} {g : Nat} {x y : Get}

/-- A get only ever gets further: what it brought and that it ended stays. -/
structure Advances (x y : Get) : Prop where
  request : y.request = x.request
  outcome : ∀ data, x.pc.outcome = some data → y.pc.outcome = some data
  finished : x.pc.isFinished → y.pc.isFinished
  interrupted : x.interrupted → y.interrupted

theorem Advances.refl (x : Get) : Advances x x := ⟨rfl, fun _ h => h, id, id⟩

/-- Each get is still there after a step of one of them, possibly further. -/
theorem advances_mem (hx : s.gets[g]? = some x) (ha : Advances x y) {z : Get} (hz : z ∈ s.gets) :
    ∃ z' ∈ s.gets.set g y, Advances z z' := by
  obtain ⟨k, hk⟩ := List.getElem?_of_mem hz
  by_cases hkg : k = g
  · subst hkg
    obtain rfl : x = z := by simpa [hx] using hk
    exact ⟨y, List.mem_of_getElem? (i := k) (by simp [Pool.lt_of_getElem? hx]), ha⟩
  · exact ⟨z, List.mem_of_getElem? (i := k) (by simpa [List.getElem?_set_ne (Ne.symm hkg)] using hk),
      .refl z⟩

theorem advances_cases {k : Nat} {z : Get} (hz : (s.gets.set g y)[k]? = some z) :
    k = g ∧ z = y ∨ k ≠ g ∧ s.gets[k]? = some z := by
  by_cases hkg : k = g
  · subst hkg
    rw [List.getElem?_set] at hz
    split at hz
    · split at hz <;> simp_all
    · exact absurd rfl ‹_›
  · exact .inr ⟨hkg, by rwa [List.getElem?_set_ne (Ne.symm hkg)] at hz⟩

/-- What a step of one get has to show for itself. -/
theorem Inv.advance (hi : Inv s) (hx : s.gets[g]? = some x) (ha : Advances x y)
    (buffer : Nat → Option Bytes) (getDone getSuccess : Bool)
    (hother : ∀ r, r ≠ x.request → buffer r = s.buffer r)
    (hown : ∀ data, y.pc.outcome = some data → buffer x.request = some data)
    (hdone : getDone → s.getDone ∨ ∀ r, s.poll.doneOf = some r → r = x.request ∧ y.pc.isFinished)
    (hsuccess : getSuccess → s.getSuccess ∨
      ∀ r, s.poll.successOf = some r → r = x.request ∧ ∃ data, y.pc.outcome = some data) :
    Inv { s with gets := s.gets.set g y, buffer := buffer, getDone := getDone, getSuccess := getSuccess } := by
  have hy : y ∈ s.gets.set g y :=
    List.mem_of_getElem? (i := g) (by simp [Pool.lt_of_getElem? hx])
  set s' : State :=
    { s with gets := s.gets.set g y, buffer := buffer, getDone := getDone, getSuccess := getSuccess }
  have hold : ∀ z ∈ s'.gets, z = y ∨ z ∈ s.gets := fun z hz => by
    rcases List.mem_or_eq_of_mem_set hz with hz | rfl
    · exact .inr hz
    · exact .inl rfl
  have hended : ∀ r, Ended s r → Ended s' r := by
    rintro r ⟨z, hz, rfl, hend⟩
    obtain ⟨z', hz', hadv⟩ := advances_mem hx ha hz
    exact ⟨z', hz', hadv.request, hend.imp hadv.finished hadv.interrupted⟩
  have hgot : ∀ r, Got s r → Got s' r := by
    rintro r ⟨z, hz, rfl, data, hout, hbuf⟩
    obtain ⟨z', hz', hadv⟩ := advances_mem hx ha hz
    refine ⟨z', hz', hadv.request, data, hadv.outcome data hout, ?_⟩
    by_cases hzx : z.request = x.request
    · obtain ⟨k, hk⟩ := List.getElem?_of_mem hz
      obtain rfl := hi.single k g z x hk hx hzx
      obtain rfl : x = z := by simpa [hx] using hk
      exact hown data (ha.outcome data hout)
    · exact (hother _ hzx).trans hbuf
  have hserved : ∀ r v, Served s r v → Served s' r v :=
    fun r v hv => ⟨hended r hv.1, fun hz => hgot r (hv.2 hz)⟩
  have hanswered : ∀ r p, Answered s r p → Answered s' r p :=
    fun r p ⟨v, hv, hs⟩ => ⟨v, hv, hserved r v hs⟩
  refine { hi with
    unspawned := ?_, begun := ?_, single := ?_, filled := ?_, watched := ?_, doneFlag := ?_
    successFlag := ?_
    decided := fun r h => hended r (hi.decided r h)
    writing := fun r v h => hserved r v (hi.writing r v h)
    telling := fun r h q hq => hanswered r _ (hi.telling r h q hq)
    answered := fun r q hq h => hanswered r _ (hi.answered r q hq h)
    returned := fun r q v hq h => hserved r v (hi.returned r q v hq h) }
  · intro r hr z hz
    rcases hold z hz with rfl | hz
    · rw [ha.request]
      exact hi.unspawned r hr x (List.mem_of_getElem? hx)
    · exact hi.unspawned r hr z hz
  · intro z hz
    rcases hold z hz with rfl | hz
    · rw [ha.request]
      exact hi.begun x (List.mem_of_getElem? hx)
    · exact hi.begun z hz
  · intro j k xj xk hj hk hreq
    rcases advances_cases hj with ⟨rfl, rfl⟩ | ⟨-, hj'⟩ <;>
      rcases advances_cases hk with ⟨rfl, rfl⟩ | ⟨-, hk'⟩
    · rfl
    · exact hi.single _ k x xk hx hk' (ha.request ▸ hreq)
    · exact hi.single j _ xj x hj' hx (ha.request ▸ hreq)
    · exact hi.single j k xj xk hj' hk' hreq
  · intro z hz data hout
    rcases hold z hz with rfl | hz
    · rw [ha.request]
      exact hown data hout
    · by_cases hzx : z.request = x.request
      · obtain ⟨k, hk⟩ := List.getElem?_of_mem hz
        obtain rfl := hi.single k g z x hk hx hzx
        obtain rfl : x = z := by simpa [hx] using hk
        exact hown data (ha.outcome data hout)
      · exact (hother _ hzx).trans (hi.filled z hz data hout)
  · intro r k hw
    obtain ⟨z, hz, hreq⟩ := hi.watched r k hw
    by_cases hkg : k = g
    · subst hkg
      obtain rfl : x = z := by simpa [hx] using hz
      exact ⟨y, by simp [s', Pool.lt_of_getElem? hx], ha.request.trans hreq⟩
    · exact ⟨z, by simpa [s', List.getElem?_set_ne (Ne.symm hkg)] using hz, hreq⟩
  · intro hd r hr
    rcases hdone hd with hd | hd
    · obtain ⟨z, hz, rfl, hfin⟩ := hi.doneFlag hd r hr
      obtain ⟨z', hz', hadv⟩ := advances_mem hx ha hz
      exact ⟨z', hz', hadv.request, hadv.finished hfin⟩
    · obtain ⟨rfl, hfin⟩ := hd r hr
      exact ⟨y, hy, ha.request, hfin⟩
  · intro hd r hr
    rcases hsuccess hd with hd | hd
    · exact hgot r (hi.successFlag hd r hr)
    · obtain ⟨rfl, data, hout⟩ := hd r hr
      exact ⟨y, hy, ha.request, data, hout, hown data hout⟩

theorem inv_fetch {outcome : Option Bytes} {s' : State} (hi : Inv s)
    (hs : stepFetch s g outcome = some s') : Inv s' := by
  obtain ⟨x, hx, hs⟩ := Option.bind_eq_some_iff.mp hs
  cases hpc : x.pc with
  | get =>
    simp only [hpc, Option.some.injEq] at hs
    subst hs
    refine hi.advance (y := { x with pc := .storeSuccess outcome }) hx
      ⟨rfl, by simp [hpc, GetPc.outcome], by simp [hpc, GetPc.isFinished], id⟩ _
      s.getDone s.getSuccess ?_ ?_ .inl .inl
    · intro r hr
      split <;> simp [hr]
    · rintro data hout
      obtain rfl : outcome = some data := hout
      simp
  | _ => simp [hpc] at hs

theorem inv_get {s' : State} (hi : Inv s) (hok : Separate s (.get g)) (hs : stepGet s g = some s') :
    Inv s' := by
  obtain ⟨x, hx, hs⟩ := Option.bind_eq_some_iff.mp hs
  have hfilled := hi.filled x (List.mem_of_getElem? hx)
  cases hpc : x.pc with
  | storeSuccess outcome =>
    simp only [hpc, Option.some.injEq] at hs
    subst hs
    have hown : ∀ r, s.poll.successOf = some r → r = x.request := by
      simpa [Separate, hx, hpc] using hok
    refine hi.advance (y := { x with pc := .storeDone outcome }) hx
      ⟨rfl, by simp [hpc, GetPc.outcome], by simp [hpc, GetPc.isFinished], id⟩ s.buffer s.getDone
      outcome.isSome (fun _ _ => rfl) (fun data h => hfilled data (by rw [hpc]; exact h)) .inl ?_
    exact fun hsome => .inr fun r hr => ⟨hown r hr, Option.isSome_iff_exists.mp hsome⟩
  | storeDone outcome =>
    simp only [hpc, Option.some.injEq] at hs
    subst hs
    have hown : ∀ r, s.poll.doneOf = some r → r = x.request := by
      simpa [Separate, hx, hpc] using hok
    exact hi.advance (y := { x with pc := .finished outcome }) hx
      ⟨rfl, by simp [hpc, GetPc.outcome], fun _ => rfl, id⟩ s.buffer true s.getSuccess (fun _ _ => rfl) (fun data h => hfilled data (by rw [hpc]; exact h))
      (fun _ => .inr fun r hr => ⟨hown r hr, rfl⟩) .inl
  | get => simp [hpc] at hs
  | finished outcome => simp [hpc] at hs

end Gets

section Polling
variable {s s' : State} {woken : Option Nat}

/-- The poll goes on within one request. -/
theorem Inv.pollTo (hi : Inv s) (poll : Poll) (getDone getSuccess : Bool)
    (hrequest : ∀ r, poll.request = some r → s.poll.request = some r)
    (hpreparing : ∀ r, poll.preparing = some r → s.poll.preparing = some r)
    (hwatching : ∀ r g, poll.watching = some (r, g) → s.poll.watching = some (r, g))
    (hdone : getDone → ∀ r, poll.doneOf = some r → s.getDone ∧ s.poll.doneOf = some r)
    (hsuccess : getSuccess → ∀ r, poll.successOf = some r → s.getSuccess ∧ s.poll.successOf = some r)
    (hdecided : ∀ r, poll = .success r → Ended s r) (hwriting : ∀ r v, poll = .write r v → Served s r v)
    (htelling : ∀ r, poll ≠ .notify r) :
    Inv { s with poll := poll, getDone := getDone, getSuccess := getSuccess } :=
  { hi with
    apart := fun r hr h => hi.apart r hr (hrequest r h)
    pending := fun r h => hi.pending r (h.imp_right (hrequest r))
    unspawned := fun r h => hi.unspawned r (h.imp_right (hpreparing r))
    watched := fun r g h => hi.watched r g (hwatching r g h)
    doneFlag := fun hd r h => have hs := hdone hd r h; hi.doneFlag hs.1 r hs.2
    successFlag := fun hd r h => have hs := hsuccess hd r h; hi.successFlag hs.1 r hs.2
    decided := hdecided
    writing := hwriting
    telling := fun r h => absurd h (htelling r) }

theorem inv_pop (hi : Inv s) (hp : s.poll = .pop) (hs : stepPoll s woken = some s') : Inv s' := by
  cases hqueue : s.queue with
  | nil => simp [stepPoll, hp, hqueue] at hs
  | cons r queue =>
    simp only [stepPoll, hp, hqueue, Option.some.injEq] at hs
    subst hs
    have hnodup := List.nodup_cons.mp (hqueue ▸ hi.nodup)
    have hqueued : ∀ r', r' ∈ queue ∨ some r = some r' → r' ∈ s.queue := by
      rintro r' (h | h)
      · simp [hqueue, h]
      · simp [hqueue, Option.some.inj h]
    refine { hi with
      nodup := hnodup.2, apart := ?_
      pending := fun r' h => hi.pending r' (.inl (hqueued r' h))
      unspawned := fun r' h => hi.unspawned r' (.inl (hqueued r' h))
      watched := by rintro _ _ ⟨⟩, doneFlag := by rintro _ _ ⟨⟩, successFlag := by rintro _ _ ⟨⟩, decided := by simp, writing := by simp
      telling := by simp }
    rintro r' hr' ⟨⟩
    exact hnodup.1 hr'

/-- The get of a request is started, its first. -/
theorem inv_spawn {r : Nat} (hi : Inv s) (hp : s.poll = .spawn r) (hs : stepPoll s woken = some s') :
    Inv s' := by
  obtain ⟨q, hq, hun⟩ := hi.pending r (.inr (by simp [hp, Poll.request]))
  have hnew := hi.unspawned r (.inr (by simp [hp, Poll.preparing]))
  have hpush : q.pc ≠ .push := by rintro h; simp [h, Unserved] at hun
  have heq : s' = { s with gets := s.gets ++ [⟨r, .get, false⟩], poll := .loop r s.gets.length 0 } := by
    simp only [stepPoll, hp, hq, Option.bind_some] at hs
    split at hs
    · cases hs
    · exact (Option.some.inj hs).symm
  subst heq
  have hmem : ∀ x ∈ s.gets, x ∈ s.gets ++ [⟨r, .get, false⟩] := fun x hx => List.mem_append_left _ hx
  have hgot : ∀ r', Got s r' → Got { s with
      gets := s.gets ++ [⟨r, .get, false⟩], poll := .loop r s.gets.length 0 } r' :=
    fun r' ⟨x, hx, h⟩ => ⟨x, hmem x hx, h⟩
  have hserved : ∀ r' v, Served s r' v → Served { s with
      gets := s.gets ++ [⟨r, .get, false⟩], poll := .loop r s.gets.length 0 } r' v :=
    fun r' v ⟨⟨x, hx, h⟩, hv⟩ => ⟨⟨x, hmem x hx, h⟩, fun hz => hgot r' (hv hz)⟩
  refine { hi with
    apart := fun r' hr' h => hi.apart r' hr' (by simpa [hp, Poll.request] using h)
    pending := fun r' h => hi.pending r' (h.imp_right (by simp [hp, Poll.request]))
    unspawned := ?_, begun := ?_, single := ?_, filled := ?_, watched := ?_, doneFlag := ?_
    successFlag := ?_, decided := by simp, writing := by simp, telling := by simp
    answered := fun r' q' hq' h => (hi.answered r' q' hq' h).imp fun v hv => ⟨hv.1, hserved r' v hv.2⟩
    returned := fun r' q' v hq' h => hserved r' v (hi.returned r' q' v hq' h) }
  · intro r' h x hx
    have hqueued : r' ∈ s.queue := h.resolve_right (by rintro ⟨⟩)
    rcases List.mem_append.mp hx with hx | hx
    · exact hi.unspawned r' (.inl hqueued) x hx
    · rw [List.mem_singleton.mp hx]
      rintro rfl
      exact hi.apart _ hqueued (by simp [hp, Poll.request])
  · intro x hx
    rcases List.mem_append.mp hx with hx | hx
    · exact hi.begun x hx
    · rw [List.mem_singleton.mp hx]
      exact ⟨q, hq, hpush⟩
  · intro j k xj xk hj hk hreq
    rcases Pool.append_cases hj with hj' | ⟨rfl, rfl⟩ <;>
      rcases Pool.append_cases hk with hk' | ⟨rfl, rfl⟩
    · exact hi.single j k xj xk hj' hk' hreq
    · exact absurd hreq (hnew xj (List.mem_of_getElem? hj'))
    · exact absurd hreq.symm (hnew xk (List.mem_of_getElem? hk'))
    · rfl
  · intro x hx data hout
    rcases List.mem_append.mp hx with hx | hx
    · exact hi.filled x hx data hout
    · rw [List.mem_singleton.mp hx] at hout
      cases hout
  · rintro r' g ⟨⟩
    exact ⟨⟨r, .get, false⟩, by simp, rfl⟩
  · rintro hd r' ⟨⟩
    obtain ⟨x, hx, h⟩ := hi.doneFlag hd r (by simp [hp, Poll.doneOf])
    exact ⟨x, hmem x hx, h⟩
  · rintro hd r' ⟨⟩
    exact hgot r (hi.successFlag hd r (by simp [hp, Poll.successOf]))

/-- A get that has not ended in time is given up, and its request fails. -/
theorem inv_test {r g : Nat} (hi : Inv s) (hp : s.poll = .test r g) (hs : stepPoll s woken = some s') :
    Inv s' := by
  obtain ⟨x, hx, rfl⟩ := hi.watched r g (by simp [hp, Poll.watching])
  simp only [stepPoll, hp, hx, Option.map_some] at hs
  split at hs
  · rename_i hd
    obtain rfl := Option.some.inj hs
    obtain ⟨y, hy, hreq, hfin⟩ := hi.doneFlag hd x.request (by simp [hp, Poll.doneOf])
    refine hi.pollTo (.success x.request) s.getDone s.getSuccess ?_ (by rintro _ ⟨⟩) (by rintro _ _ ⟨⟩) (by rintro _ _ ⟨⟩) ?_ ?_ (by simp) (by simp)
    · simp [hp, Poll.request]
    · exact fun h r h' => ⟨h, by simpa [hp, Poll.successOf] using h'⟩
    · rintro r ⟨⟩
      exact ⟨y, hy, hreq, .inl hfin⟩
  · obtain rfl := Option.some.inj hs
    have hgiven := hi.advance (y := { x with interrupted := true }) hx ⟨rfl, fun _ h => h, id, fun _ => rfl⟩
      s.buffer s.getDone s.getSuccess (fun _ _ => rfl) (hi.filled x (List.mem_of_getElem? hx)) .inl .inl
    refine hgiven.pollTo (.write x.request 1) s.getDone s.getSuccess ?_ (by rintro _ ⟨⟩) (by rintro _ _ ⟨⟩) (by rintro _ _ ⟨⟩) (by rintro _ _ ⟨⟩) (by simp) ?_
      (by simp)
    · simp [hp, Poll.request]
    · rintro r v ⟨⟩
      refine ⟨⟨{ x with interrupted := true }, ?_, rfl, .inr rfl⟩, by simp⟩
      exact List.mem_of_getElem? (i := g) (by simp [Pool.lt_of_getElem? hx])

/-- The outcome goes to the point of the request, where nobody else is about to read. -/
theorem inv_write {r : Nat} {v : Int} (hi : Inv s) (hp : s.poll = .write r v)
    (hs : stepPoll s woken = some s') : Inv s' := by
  obtain ⟨q, hq, hun⟩ := hi.pending r (.inr (by simp [hp, Poll.request]))
  simp only [stepPoll, hp, hq, Option.map_some, Option.some.injEq] at hs
  subst hs
  refine { hi with
    apart := fun r' hr' h => hi.apart r' hr' (by simpa [hp, Poll.request] using h)
    pending := fun r' h => hi.pending r' (h.imp_right (by simp [hp, Poll.request]))
    unspawned := fun r' h => hi.unspawned r' (.inl (h.resolve_right (by rintro ⟨⟩))), watched := by rintro _ _ ⟨⟩
    doneFlag := by rintro _ _ ⟨⟩, successFlag := by rintro _ _ ⟨⟩, decided := by simp, writing := by simp, telling := ?_
    answered := ?_ }
  · rintro r' ⟨⟩ q' hq'
    obtain rfl : q = q' := by simpa [hq] using hq'
    exact ⟨v, by simp, hi.writing r v hp⟩
  · intro r' q' hq' hrel
    obtain ⟨v', hv', hserved⟩ := hi.answered r' q' hq' hrel
    have hne : q'.point ≠ q.point := by
      intro hpoint
      obtain rfl := hi.unique r' r q' q hq' hq hrel.outstanding hun.outstanding hpoint
      obtain rfl : q = q' := by simpa [hq] using hq'
      exact hun.not_released hrel
    exact ⟨v', by simpa [hne] using hv', hserved⟩

/-- The notification releases the request it is for, and nobody else. -/
theorem inv_notify {r : Nat} (hi : Inv s) (hp : s.poll = .notify r)
    (hs : stepPoll s woken = some s') : Inv s' := by
  obtain ⟨q, hq, hun⟩ := hi.pending r (.inr (by simp [hp, Poll.request]))
  simp only [stepPoll, hp, hq, Option.bind_some, Option.map_eq_some_iff] at hs
  obtain ⟨syncer, hn, rfl⟩ := hs
  have hspared : ∀ (j : Nat) (x : Request) (cv : Nat), j ≠ r → s.requests[j]? = some x →
      x.pc = .call (.blocked cv) → syncer.waiters cv = s.syncer.waiters cv := by
    intro j x cv hj hx hb
    refine Exclusive.notify_spares hi.sole.toOwned (t := j) (q := x.point) ?_ ?_ hn
    · rw [phases_request hx, Request.phase, hb]
      rfl
    · exact hi.other_point hq hun.outstanding j x hj hx (by simp [hb, RequestPc.outstanding])
  refine { hi with
    sole := Exclusive.sole_notify hi.sole hn, apart := by rintro _ _ ⟨⟩, pending := ?_
    unspawned := fun r' h => hi.unspawned r' (.inl (h.resolve_right (by rintro ⟨⟩))), watched := by rintro _ _ ⟨⟩
    doneFlag := by rintro _ _ ⟨⟩, successFlag := by rintro _ _ ⟨⟩, decided := by simp, writing := by simp, telling := by simp
    answered := ?_ }
  · intro r' hr'
    have hqueued : r' ∈ s.queue := hr'.resolve_right (by rintro ⟨⟩)
    obtain ⟨x, hx, hun'⟩ := hi.pending r' (.inl hqueued)
    have hne : r' ≠ r := by
      rintro rfl
      exact hi.apart r' hqueued (by simp [hp, Poll.request])
    exact ⟨x, hx, (standing_congr r' fun cv => hspared r' x cv hne hx).1.mpr hun'⟩
  · intro r' x hx hrel
    by_cases hr' : r' = r
    · subst hr'
      exact hi.telling r' hp x hx
    · exact hi.answered r' x hx ((standing_congr r' fun cv => hspared r' x cv hr' hx).2.mp hrel)

theorem inv_poll (hi : Inv s) (hs : stepPoll s woken = some s') : Inv s' := by
  cases hp : s.poll with
  | pop => exact inv_pop hi hp hs
  | clearDone r =>
    simp only [stepPoll, hp, Option.some.injEq] at hs
    subst hs
    exact hi.pollTo (.clearSuccess r) false s.getSuccess (by simp [hp, Poll.request])
      (by simp [hp, Poll.preparing]) (by rintro _ _ ⟨⟩) (by simp) (by rintro _ _ ⟨⟩) (by simp) (by simp) (by simp)
  | clearSuccess r =>
    simp only [stepPoll, hp, Option.some.injEq] at hs
    subst hs
    exact hi.pollTo (.spawn r) s.getDone false (by simp [hp, Poll.request])
      (by simp [hp, Poll.preparing]) (by rintro _ _ ⟨⟩) (fun h _ h' => ⟨h, by simpa [hp, Poll.doneOf] using h'⟩)
      (by simp) (by simp) (by simp) (by simp)
  | spawn r => exact inv_spawn hi hp hs
  | loop r g counter =>
    simp only [stepPoll, hp] at hs
    split at hs
    all_goals
      obtain rfl := Option.some.inj hs
      exact hi.pollTo _ s.getDone s.getSuccess (by simp [hp, Poll.request]) (by rintro _ ⟨⟩)
        (by simp [hp, Poll.watching]) (fun h _ h' => ⟨h, by simpa [hp, Poll.doneOf] using h'⟩)
        (fun h _ h' => ⟨h, by simpa [hp, Poll.successOf] using h'⟩) (by simp) (by simp) (by simp)
  | test r g => exact inv_test hi hp hs
  | success r =>
    simp only [stepPoll, hp, Option.some.injEq] at hs
    subst hs
    refine hi.pollTo (.write r _) s.getDone s.getSuccess (by simp [hp, Poll.request]) (by rintro _ ⟨⟩) (by rintro _ _ ⟨⟩) (by rintro _ _ ⟨⟩)
      (by rintro _ _ ⟨⟩) (by simp) ?_ (by simp)
    rintro r' v ⟨⟩
    refine ⟨hi.decided r hp, fun hz => hi.successFlag ?_ r (by simp [hp, Poll.successOf])⟩
    by_contra hfail
    simp [hfail] at hz
  | write r v => exact inv_write hi hp hs
  | notify r => exact inv_notify hi hp hs

end Polling

theorem inv_calls {s : State} (d : Datum) (hi : Inv s) :
    Inv { s with requests := s.requests ++ [⟨d, .push⟩] } := by
  have hlast : ∀ (r : Nat) (x : Request), (s.requests ++ [⟨d, .push⟩])[r]? = some x →
      s.requests[r]? = some x ∨ x.pc = .push := fun r x hx =>
    (Pool.append_cases hx).imp_right fun h => by rw [h.2]
  have hkept : ∀ (r : Nat) (x : Request), s.requests[r]? = some x →
      (s.requests ++ [⟨d, .push⟩])[r]? = some x := fun r x hx => Pool.append_other hx _
  refine { hi with
    sole := ?_, unique := ?_, pending := ?_, begun := ?_, telling := ?_, answered := ?_, returned := ?_ }
  · rw [Exclusive.phases_append _ _ _ (by simp [Request.phase])]
    exact hi.sole
  · intro i j qi qj hqi hqj hoi hoj hp
    rcases hlast i qi hqi with hqi' | hpush
    · rcases hlast j qj hqj with hqj' | hpush
      · exact hi.unique i j qi qj hqi' hqj' hoi hoj hp
      · simp [hpush, RequestPc.outstanding] at hoj
    · simp [hpush, RequestPc.outstanding] at hoi
  · intro r hr
    obtain ⟨q, hq, hun⟩ := hi.pending r hr
    exact ⟨q, hkept r q hq, hun⟩
  · intro x hx
    obtain ⟨q, hq, hne⟩ := hi.begun x hx
    exact ⟨q, hkept _ q hq, hne⟩
  · intro r hr q hq
    obtain ⟨x, hx, -⟩ := hi.pending r (.inr (by rw [hr]; rfl))
    obtain rfl : x = q := by simpa [hkept r x hx] using hq
    exact hi.telling r hr x hx
  · intro r q hq hrel
    rcases hlast r q hq with hq' | hpush
    · exact hi.answered r q hq' hrel
    · simp [hpush, Released] at hrel
  · intro r q v hq hv
    rcases hlast r q hq with hq' | hpush
    · exact hi.returned r q v hq' hv
    · simp [hpush] at hv

theorem inv_step {s s' : State} {a : Action} (hi : Inv s) (hok : Separate s a)
    (hs : step s a = some s') : Inv s' := by
  cases a with
  | call d =>
    obtain rfl := Option.some.inj hs
    exact inv_calls d hi
  | request i => exact inv_request hi hok hs
  | poll woken => exact inv_poll hi hs
  | fetch g outcome => exact inv_fetch hi hs
  | get g => exact inv_get hi hok hs
  | spurious i => exact hok.elim

/-- Every get that returns does so for its own get, and returns 0 only with its own data. -/
theorem separate_attributed {s : State} (hr : Reaches step Separate init s) : Attributed s := by
  have hi := hr.invariant Inv inv_init fun _ _ _ hi hok hs => inv_step hi hok hs
  exact hi.returned

/-- A box of side `side` of variable `u`, version 0. -/
def boxOf (side : UInt64) : Datum := ⟨"u", 0, .replicate 3 0, .replicate 3 side⟩

/-- Two gets of one variable share their point, and the outcome of the first lets
the second go, whose own get has not been started. -/
theorem foreign_outcome_returned : ¬ ∀ s, Reaches step free init s → Attributed s := by
  intro h
  obtain ⟨s, hs, htest⟩ := Transition.run_reaches_of_any step init
    [.call (boxOf 1), .call (boxOf 2),
      .request 0, .request 0, .request 0, .request 1, .request 1, .request 1,
      .poll none, .poll none, .poll none, .poll none, .fetch 0 (some [1]), .get 0, .get 0,
      .poll none, .poll none, .poll none, .poll none, .poll (some 1),
      .request 1, .request 1, .request 1]
    (fun s => decide (s.requests[1]? = some (Request.mk (boxOf 2) (.returned 0)) ∧ ∀ x ∈ s.gets, x.request ≠ 1))
    (by decide)
  obtain ⟨hreturned, hnone⟩ := of_decide_eq_true htest
  obtain ⟨⟨x, hx, hreq, -⟩, -⟩ := h s hs 1 _ 0 hreturned rfl
  exact hnone x hx hreq

theorem own_outcome_returned :
    ∃ s, s.requests[0]? = some ⟨boxOf 1, .returned 0⟩ ∧ Attributed s := by
  obtain ⟨s, hs, htest⟩ := Transition.runWhere_reaches_of_any step Separate init
    [.call (boxOf 1), .request 0, .request 0, .request 0,
      .poll none, .poll none, .poll none, .poll none, .fetch 0 (some [1]), .get 0, .get 0,
      .poll none, .poll none, .poll none, .poll none, .poll (some 0),
      .request 0, .request 0, .request 0]
    (fun s => decide (s.requests[0]? = some (Request.mk (boxOf 1) (.returned 0)))) (by decide)
  exact ⟨s, of_decide_eq_true htest, separate_attributed hs⟩

end DsDriver
