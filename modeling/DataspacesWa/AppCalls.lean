import DataspacesWa.AppWire
import DataspacesWa.Exclusive
import DataspacesWa.Transition

/-!
# Calls of the apps

The threads of an app put and get through one `WADSDriver`. A call sends its
request and waits at the point of the reply; the handler of the reply leaves
the answer in a map by the data id, where the call finds it. The map does not
tell a put from a get. Where no two calls in progress share a data id or a
point, each goes by the answer to its own request.
-/
namespace AppCalls

open AppWire
open Exclusive (Phase Sole phases callPhase)
open Function (update update_self update_of_ne)
open Join (Node)
open Patch (DataIdT getDataId)
open RIManager (noDs)
open Syncer (Call)
open Transition (Reaches)

/-- Where a thread is in `WADSDriver::put` or `WADSDriver::get`. -/
inductive Pc where
  | syncPut
  | send
  | call : Call → Pc
  /-- The entry is deleted, and the call returns or goes on to `GET_DONE`. -/
  | drop : Option Int32 → Pc
  /-- `ds_driver_->get`, with the tries that have failed. -/
  | fetch : Nat → Pc
  | getDone
  | returned : Int32 → Pc
  deriving DecidableEq

structure Thread where
  request : Request
  args : Args
  /-- The entry of `data_id__ds_id_map` that the call has found. -/
  read : Option Int32
  pc : Pc

/-- `handle_ri_msg` stores the answer, then notifies. -/
inductive ReplyPc where
  | store | notify | done
  deriving DecidableEq

/-- An answer of the manager, and the call that it is for. -/
structure Reply where
  thread : Nat
  dsId : Int32
  pc : ReplyPc
  deriving DecidableEq

structure State where
  syncer : Syncer.State UInt32
  /-- `data_id__ds_id_map` -/
  dsIds : String → Option Int32
  threads : List Thread
  /-- The requests that the manager has not answered. -/
  asked : List Nat
  replies : List Reply

def init : State := ⟨Syncer.empty, fun _ => none, [], [], []⟩

inductive Action where
  | call (request : Request) (args : Args)
  /-- A step of a thread, with what the call that it makes returns. -/
  | thread (i : Nat) (err : Int32)
  | answer (i : Nat) (dsId : Int32)
  | reply (j : Nat) (woken : Option Nat)
  | spurious (i : Nat)

section Steps
variable (kind : DataIdT) (app manager : Node)

def Thread.dataId (th : Thread) : String := getDataId kind th.args.datum

def Thread.point (th : Thread) : UInt32 := th.request.point kind th.args.datum

/-- The first step of a call. -/
def first : Request → Pc
  | .put => .syncPut
  | .get _ => .send

/-- What a call does by the id that it has found. -/
def found (request : Request) (dsId : Int32) : Pc :=
  if dsId = noDs then .drop (some 1)
  else
    match request with
    | .put => .drop (some 0)
    | .get _ => .fetch 0

def State.goOn (s : State) (i : Nat) (th : Thread) : State := { s with threads := Pool.commit s.threads i th [] }

def stepThread (s : State) (i : Nat) (err : Int32) : Option State :=
  s.threads[i]?.bind fun th =>
    match th.pc with
    | .syncPut => some (s.goOn i { th with pc := if err = 0 then .send else .returned 1 })
    | .send =>
      if err = 0 then some { s.goOn i { th with pc := .call .add } with asked := s.asked ++ [i] }
      else some (s.goOn i { th with pc := .returned (if th.request = .put then 1 else err) })
    | .call .done =>
      -- `operator[]` creates a missing entry
      let dsId := (s.dsIds (th.dataId kind)).getD 0
      some { s.goOn i { th with read := some dsId, pc := found th.request dsId } with
        dsIds := update s.dsIds (th.dataId kind) (some dsId) }
    | .call c =>
      (c.step s.syncer (th.point kind) i).map fun (c', syncer) =>
        { s.goOn i { th with pc := .call c' } with syncer := syncer }
    | .drop r =>
      -- erasing what is not there is undefined
      (s.dsIds (th.dataId kind)).map fun _ =>
        { s.goOn i { th with pc := (r.map Pc.returned).getD .getDone } with
          dsIds := update s.dsIds (th.dataId kind) none }
    | .fetch tries => some (s.goOn i { th with
        pc := if err = 0 then .drop none else if tries + 1 < 3 then .fetch (tries + 1) else .returned err })
    | .getDone => some (s.goOn i { th with pc := .returned err })
    | .returned _ => none

/-- The manager answers a request once, with the map of the request. -/
def stepAnswer (s : State) (i : Nat) (dsId : Int32) : Option State :=
  if i ∈ s.asked then some { s with asked := s.asked.erase i, replies := s.replies ++ [⟨i, dsId, .store⟩] } else none

/-- A step of `handle_ri_msg` on the map of the answer. -/
def stepReply (s : State) (j : Nat) (woken : Option Nat) : Option State :=
  s.replies[j]?.bind fun r => s.threads[r.thread]?.bind fun th =>
    (handleRiMsg kind (riMap app manager ⟨th.request, th.args, r.dsId⟩)).bind fun w =>
      match r.pc with
      | .store => some { s with
          replies := s.replies.set j { r with pc := .notify }, dsIds := update s.dsIds w.dataId (some w.dsId) }
      | .notify => (Syncer.notify s.syncer w.syncPoint woken).map fun syncer =>
          { s with replies := s.replies.set j { r with pc := .done }, syncer := syncer }
      | .done => none

def stepSpurious (s : State) (i : Nat) : Option State :=
  s.threads[i]?.bind fun th =>
    match th.pc with
    | .call (.blocked cv) => (Syncer.spurious s.syncer cv i).map fun syncer => { s with syncer := syncer }
    | _ => none

def step (s : State) : Action → Option State
  | .call request args => some { s with threads := s.threads ++ [⟨request, args, none, first request⟩] }
  | .thread i err => stepThread kind s i err
  | .answer i dsId => stepAnswer s i dsId
  | .reply j woken => stepReply kind app manager s j woken
  | .spurious i => stepSpurious s i

/-- From its request on until its entry is deleted. -/
def Pc.outstanding : Pc → Bool
  | .call _ | .drop _ | .fetch _ => true
  | _ => false

/-- A request is sent while no other call in progress has its data id or its point, and no wait ends by itself. -/
def Alone (s : State) : Action → Prop
  | .thread i _ => ∀ th ∈ s.threads[i]?, th.pc = .send →
      ∀ x ∈ s.threads, x.pc.outstanding → x.point kind ≠ th.point kind ∧ x.dataId kind ≠ th.dataId kind
  | .spurious _ => False
  | _ => True

instance decidableAlone (s : State) (a : Action) : Decidable (Alone kind s a) := by
  unfold Alone
  split <;> infer_instance

end Steps

/-! ## What a call has to go by -/

/-- The call has found the id of a DS. -/
def Thread.Named (th : Thread) : Prop := ∃ dsId ∈ th.read, dsId ≠ noDs

/-- The one answer to the request of thread `i` is `dsId`. -/
def AnsweredBy (s : State) (i : Nat) (dsId : Int32) : Prop :=
  (∃ r ∈ s.replies, r.thread = i) ∧ ∀ r ∈ s.replies, r.thread = i → r.dsId = dsId

/-- What a call finds is the answer to its own request. A put succeeds exactly where this names a DS, and a get
does not succeed elsewhere. No call erases an entry that is not there. -/
structure Attributed (kind : DataIdT) (s : State) : Prop where
  read : ∀ (i : Nat) (th : Thread) (dsId : Int32), s.threads[i]? = some th → th.read = some dsId → AnsweredBy s i dsId
  put : ∀ (i : Nat) (th : Thread) (v : Int32), s.threads[i]? = some th → th.pc = .returned v → th.request = .put →
    (v = 0 ↔ th.Named)
  get : ∀ (i : Nat) (th : Thread), s.threads[i]? = some th → th.pc = .returned 0 → th.Named
  erase : ∀ (i : Nat) (th : Thread) (r : Option Int32), s.threads[i]? = some th → th.pc = .drop r →
    (s.dsIds (th.dataId kind)).isSome

/-! ## The invariant -/

/-- The answer has not let the call go. -/
def Unserved (syncer : Syncer.State UInt32) (i : Nat) : Pc → Prop
  | .call c => c.Waiting syncer i
  | _ => False

/-- The call has been let go, and its entry is there. -/
def Holding (syncer : Syncer.State UInt32) (i : Nat) : Pc → Prop
  | .call c => ¬c.Waiting syncer i
  | .drop _ | .fetch _ => True
  | _ => False

def Pc.begun : Pc → Bool
  | .syncPut | .send => false
  | _ => true

/-- What a call has found agrees with where it is. -/
def Thread.Consistent (th : Thread) : Prop :=
  match th.pc with
  | .syncPut | .send | .call _ => th.read = none
  | .drop (some v) => v = 0 ↔ th.Named
  | .drop none | .fetch _ | .getDone => th.Named ∧ th.request ≠ .put
  | .returned v => (v = 0 → th.Named) ∧ (th.request = .put → th.Named → v = 0)

section Invariant
variable (kind : DataIdT)

def Thread.phase (th : Thread) : Phase UInt32 :=
  match th.pc with
  | .call c => callPhase (th.point kind) c
  | _ => .away

/-- The entry of the call is an answer to it. -/
def Entered (s : State) (i : Nat) (th : Thread) : Prop :=
  ∃ r ∈ s.replies, r.thread = i ∧ s.dsIds (th.dataId kind) = some r.dsId

structure Inv (s : State) : Prop where
  sole : Sole s.syncer (phases (Thread.phase kind) s.threads)
  apart : ∀ (i j : Nat) (ti tj : Thread), s.threads[i]? = some ti → s.threads[j]? = some tj → ti.pc.outstanding →
    tj.pc.outstanding → ti.point kind = tj.point kind ∨ ti.dataId kind = tj.dataId kind → i = j
  nodup : s.asked.Nodup
  waiting : ∀ i ∈ s.asked, ∃ th, s.threads[i]? = some th ∧ Unserved s.syncer i th.pc
  unanswered : ∀ i ∈ s.asked, ∀ r ∈ s.replies, r.thread ≠ i
  single : (s.replies.map Reply.thread).Nodup
  begun : ∀ r ∈ s.replies, ∃ th, s.threads[r.thread]? = some th ∧ th.pc.begun
  pending : ∀ r ∈ s.replies, r.pc ≠ .done → ∃ th, s.threads[r.thread]? = some th ∧ Unserved s.syncer r.thread th.pc
  stored : ∀ r ∈ s.replies, r.pc = .notify → ∀ th, s.threads[r.thread]? = some th →
    s.dsIds (th.dataId kind) = some r.dsId
  entered : ∀ (i : Nat) (th : Thread), s.threads[i]? = some th → Holding s.syncer i th.pc → Entered kind s i th
  read : ∀ (i : Nat) (th : Thread) (dsId : Int32), s.threads[i]? = some th → th.read = some dsId →
    ∃ r ∈ s.replies, r.thread = i ∧ r.dsId = dsId
  consistent : ∀ (i : Nat) (th : Thread), s.threads[i]? = some th → th.Consistent

end Invariant

section Threads
variable {kind : DataIdT} {s : State} {i : Nat} {th : Thread} {pc : Pc}

theorem inv_init : Inv kind init where
  sole := by
    have : phases (Thread.phase kind) init.threads = fun _ => .away := by
      funext t
      simp [phases, init]
    rw [this]
    exact Exclusive.sole_empty
  apart i j ti tj hi := by simp [init] at hi
  nodup := List.nodup_nil
  waiting i hi := by simp [init] at hi
  unanswered i hi := by simp [init] at hi
  single := List.nodup_nil
  begun r hr := by simp [init] at hr
  pending r hr := by simp [init] at hr
  stored r hr := by simp [init] at hr
  entered i th hth := by simp [init] at hth
  read i th dsId hth := by simp [init] at hth
  consistent i th hth := by simp [init] at hth

theorem Unserved.outstanding {syncer : Syncer.State UInt32} (h : Unserved syncer i pc) : pc.outstanding := by
  cases pc with
  | call c => rfl
  | _ => exact h.elim

theorem Holding.outstanding {syncer : Syncer.State UInt32} (h : Holding syncer i pc) : pc.outstanding := by
  cases pc with
  | call | drop | fetch => rfl
  | _ => exact h.elim

/-- How a call stands depends on the condition variable it waits on alone. -/
theorem standing_congr {syncer syncer' : Syncer.State UInt32} (i : Nat)
    (hkeep : ∀ cv, pc = .call (.blocked cv) → syncer'.waiters cv = syncer.waiters cv) :
    (Unserved syncer' i pc ↔ Unserved syncer i pc) ∧ (Holding syncer' i pc ↔ Holding syncer i pc) := by
  cases pc with
  | call c =>
    have hsame : c.Waiting syncer' i ↔ c.Waiting syncer i := Call.waiting_congr i fun cv hc => hkeep cv (by rw [hc])
    exact ⟨hsame, not_congr hsame⟩
  | _ => exact ⟨Iff.rfl, Iff.rfl⟩

theorem phase_outstanding {p : UInt32} (h : (th.phase kind).point = some p) : th.pc.outstanding ∧ th.point kind = p := by
  cases hpc : th.pc with
  | call c =>
    simp only [Thread.phase, hpc] at h
    exact ⟨rfl, Exclusive.callPhase_point h⟩
  | _ => simp [Thread.phase, hpc, Phase.point] at h

theorem phases_thread (hth : s.threads[i]? = some th) : phases (Thread.phase kind) s.threads i = th.phase kind :=
  Exclusive.phases_get _ hth

/-- Another call in progress has another point and another data id. -/
theorem Inv.other (hi : Inv kind s) (hth : s.threads[i]? = some th) (hout : th.pc.outstanding) (j : Nat) (x : Thread)
    (hj : j ≠ i) (hx : s.threads[j]? = some x) (hox : x.pc.outstanding) :
    x.point kind ≠ th.point kind ∧ x.dataId kind ≠ th.dataId kind :=
  ⟨fun h => hj (hi.apart j i x th hx hth hox hout (.inl h)), fun h => hj (hi.apart j i x th hx hth hox hout (.inr h))⟩

/-- Nobody is at the point of a call that has not added it. -/
theorem Inv.unused (hi : Inv kind s) (hth : s.threads[i]? = some th) (hpc : th.pc = .call .add) :
    Exclusive.Unused (phases (Thread.phase kind) s.threads) (th.point kind) := by
  intro j hj
  obtain ⟨x, hx, hp⟩ := Exclusive.point_of_phases hj
  obtain ⟨hox, hpoint⟩ := phase_outstanding hp
  obtain rfl := hi.apart j i x th hx hth hox (by simp [hpc, Pc.outstanding]) (.inl hpoint)
  obtain rfl : th = x := by simpa [hth] using hx
  simp [Thread.phase, hpc, callPhase, Phase.point] at hp

/-- What a step of one thread has to show for itself. -/
theorem Inv.goOn (hi : Inv kind s) (th' : Thread) (hth : s.threads[i]? = some th) (hrequest : th'.request = th.request)
    (hargs : th'.args = th.args) (syncer : Syncer.State UInt32) (dsIds : String → Option Int32)
    (hsole : Sole syncer (update (phases (Thread.phase kind) s.threads) i (th'.phase kind)))
    (hbegun : th.pc.begun → th'.pc.begun)
    (hout : th'.pc.outstanding → ∀ (j : Nat) (x : Thread), j ≠ i → s.threads[j]? = some x → x.pc.outstanding →
      x.point kind ≠ th.point kind ∧ x.dataId kind ≠ th.dataId kind)
    (hkeep : ∀ (j : Nat) (x : Thread) (cv : Nat), j ≠ i → s.threads[j]? = some x → x.pc = .call (.blocked cv) →
      syncer.waiters cv = s.syncer.waiters cv)
    (hpend : Unserved s.syncer i th.pc → Unserved syncer i th'.pc ∧ dsIds = s.dsIds)
    (hids : dsIds = s.dsIds ∨ th.pc.outstanding ∧ ∀ id, id ≠ th.dataId kind → dsIds id = s.dsIds id)
    (hentered : Holding syncer i th'.pc → ∃ r ∈ s.replies, r.thread = i ∧ dsIds (th.dataId kind) = some r.dsId)
    (hread : ∀ dsId, th'.read = some dsId → ∃ r ∈ s.replies, r.thread = i ∧ r.dsId = dsId)
    (hconsistent : th'.Consistent) : Inv kind { s.goOn i th' with syncer := syncer, dsIds := dsIds } := by
  have hpoint : th'.point kind = th.point kind := by rw [Thread.point, Thread.point, hrequest, hargs]
  have hdataId : th'.dataId kind = th.dataId kind := by rw [Thread.dataId, Thread.dataId, hargs]
  have hstand : ∀ (j : Nat) (x : Thread), j ≠ i → s.threads[j]? = some x →
      (Unserved syncer j x.pc ↔ Unserved s.syncer j x.pc) ∧ (Holding syncer j x.pc ↔ Holding s.syncer j x.pc) :=
    fun j x hj hx => standing_congr j fun cv => hkeep j x cv hj hx
  -- an entry changes for the call alone whose entry it is
  have hsame : ∀ (j : Nat) (x : Thread), j ≠ i → s.threads[j]? = some x → x.pc.outstanding →
      dsIds (x.dataId kind) = s.dsIds (x.dataId kind) := by
    intro j x hj hx hox
    rcases hids with heq | ⟨hown, hother⟩
    · rw [heq]
    · exact hother _ (hi.other hth hown j x hj hx hox).2
  have hself : (Pool.commit s.threads i th' [])[i]? = some th' := Pool.commit_self hth _ _
  refine { hi with
    sole := ?_, apart := ?_, waiting := ?_, begun := ?_, pending := ?_, stored := ?_, entered := ?_, read := ?_
    consistent := ?_ }
  · show Sole syncer (phases (Thread.phase kind) (Pool.commit s.threads i th' []))
    rw [Exclusive.phases_commit _ hth _ [] (by simp)]
    exact hsole
  · intro j k tj tk hj hk hoj hok hclash
    rcases Pool.commit_nil_cases hj with ⟨rfl, rfl⟩ | ⟨hji, hj'⟩ <;>
      rcases Pool.commit_nil_cases hk with ⟨rfl, rfl⟩ | ⟨hki, hk'⟩
    · rfl
    · rw [hpoint, hdataId] at hclash
      obtain ⟨hp, hd⟩ := hout hoj k tk hki hk' hok
      exact (hclash.elim (fun h => hp h.symm) fun h => hd h.symm).elim
    · rw [hpoint, hdataId] at hclash
      obtain ⟨hp, hd⟩ := hout hok j tj hji hj' hoj
      exact (hclash.elim hp hd).elim
    · exact hi.apart j k tj tk hj' hk' hoj hok hclash
  · intro j hj
    obtain ⟨x, hx, hun⟩ := hi.waiting j hj
    by_cases hji : j = i
    · subst hji
      obtain rfl : th = x := by simpa [hth] using hx
      exact ⟨th', hself, (hpend hun).1⟩
    · exact ⟨x, Pool.commit_other hx hji _ _, (hstand j x hji hx).1.mpr hun⟩
  · intro r hr
    obtain ⟨x, hx, hb⟩ := hi.begun r hr
    by_cases hri : r.thread = i
    · rw [hri] at hx ⊢
      obtain rfl : th = x := by simpa [hth] using hx
      exact ⟨th', hself, hbegun hb⟩
    · exact ⟨x, Pool.commit_other hx hri _ _, hb⟩
  · intro r hr hpc
    obtain ⟨x, hx, hun⟩ := hi.pending r hr hpc
    by_cases hri : r.thread = i
    · rw [hri] at hx hun ⊢
      obtain rfl : th = x := by simpa [hth] using hx
      exact ⟨th', hself, (hpend hun).1⟩
    · exact ⟨x, Pool.commit_other hx hri _ _, (hstand _ x hri hx).1.mpr hun⟩
  · intro r hr hpc x hx
    obtain ⟨y, hy, hun⟩ := hi.pending r hr (by simp [hpc])
    rcases Pool.commit_nil_cases hx with ⟨hri, rfl⟩ | ⟨hri, hx'⟩
    · rw [hri] at hy hun
      obtain rfl : th = y := by simpa [hth] using hy
      show dsIds (x.dataId kind) = _
      rw [(hpend hun).2, hdataId]
      exact hi.stored r hr hpc th (by rw [hri, hth])
    · obtain rfl : y = x := by simpa [hy] using hx'
      exact (hsame _ y hri hy hun.outstanding).trans (hi.stored r hr hpc y hy)
  · intro j x hx hhold
    rcases Pool.commit_nil_cases hx with ⟨rfl, rfl⟩ | ⟨hji, hx'⟩
    · obtain ⟨r, hr, hri, hd⟩ := hentered hhold
      exact ⟨r, hr, hri, by rw [hdataId]; exact hd⟩
    · have hold := (hstand j x hji hx').2.mp hhold
      obtain ⟨r, hr, hrj, hd⟩ := hi.entered j x hx' hold
      exact ⟨r, hr, hrj, (hsame j x hji hx' hold.outstanding).trans hd⟩
  · intro j x dsId hx hx'
    rcases Pool.commit_nil_cases hx with ⟨rfl, rfl⟩ | ⟨hji, hold⟩
    · exact hread dsId hx'
    · exact hi.read j x dsId hold hx'
  · intro j x hx
    rcases Pool.commit_nil_cases hx with ⟨rfl, rfl⟩ | ⟨hji, hx'⟩
    · exact hconsistent
    · exact hi.consistent j x hx'

/-- A step of a thread that is not at the syncer. -/
theorem Inv.goAway (hi : Inv kind s) (hth : s.threads[i]? = some th) (hold : ∀ c, th.pc ≠ .call c) (hnew : ∀ c, pc ≠ .call c)
    (dsIds : String → Option Int32)
    (hids : dsIds = s.dsIds ∨ th.pc.outstanding ∧ ∀ id, id ≠ th.dataId kind → dsIds id = s.dsIds id)
    (hbegun : th.pc.begun → pc.begun)
    (hhold : Holding s.syncer i pc → Holding s.syncer i th.pc ∧ dsIds = s.dsIds)
    (hconsistent : { th with pc := pc }.Consistent) : Inv kind { s.goOn i { th with pc := pc } with dsIds := dsIds } := by
  have haway : Thread.phase kind { th with pc := pc } = th.phase kind := by
    have hphase : ∀ x : Thread, (∀ c, x.pc ≠ .call c) → x.phase kind = .away := by
      intro x hx
      unfold Thread.phase
      split
      next c hc => exact absurd hc (hx c)
      next => rfl
    rw [hphase th hold, hphase _ hnew]
  have hout : pc.outstanding → th.pc.outstanding := by
    intro h
    cases pc with
    | call c => exact absurd rfl (hnew c)
    | drop | fetch => exact (hhold trivial).1.outstanding
    | _ => cases h
  have hserved : ¬Unserved s.syncer i th.pc := by
    intro h
    cases hpc : th.pc with
    | call c => exact hold c hpc
    | _ => simp [hpc, Unserved] at h
  refine hi.goOn { th with pc := pc } hth rfl rfl s.syncer dsIds ?_ hbegun
    (fun h => hi.other hth (hout h)) (fun _ _ _ _ _ _ => rfl) (fun h => absurd h hserved) hids ?_ (hi.read i th · hth)
    hconsistent
  · rw [haway, ← phases_thread hth, Function.update_eq_self]
    exact hi.sole
  · intro h
    obtain ⟨hholding, hsame⟩ := hhold h
    rw [hsame]
    exact hi.entered i th hth hholding

/-- The request of a call that nobody knows of goes out. -/
theorem inv_send (hi : Inv kind s) (hth : s.threads[i]? = some th) (hpc : th.pc = .send)
    (halone : ∀ x ∈ s.threads, x.pc.outstanding → x.point kind ≠ th.point kind ∧ x.dataId kind ≠ th.dataId kind) :
    Inv kind { s.goOn i { th with pc := .call .add } with asked := s.asked ++ [i] } := by
  have hnew : i ∉ s.asked := by
    intro h
    obtain ⟨x, hx, hun⟩ := hi.waiting i h
    obtain rfl : th = x := by simpa [hth] using hx
    simp [hpc, Unserved] at hun
  have hreplies : ∀ r ∈ s.replies, r.thread ≠ i := by
    rintro r hr rfl
    obtain ⟨x, hx, hb⟩ := hi.begun r hr
    obtain rfl : th = x := by simpa [hth] using hx
    simp [hpc, Pc.begun] at hb
  have hsole : Sole s.syncer (update (phases (Thread.phase kind) s.threads) i (Thread.phase kind { th with pc := .call .add })) := by
    have haway : update (phases (Thread.phase kind) s.threads) i (Thread.phase kind { th with pc := .call .add }) =
        phases (Thread.phase kind) s.threads := by
      rw [Function.update_eq_self_iff, phases_thread hth]
      simp [Thread.phase, hpc, callPhase]
    rw [haway]
    exact hi.sole
  have hread : th.read = none := by
    have := hi.consistent i th hth
    simpa [Thread.Consistent, hpc] using this
  have hmoved : Inv kind { s.goOn i { th with pc := .call .add } with syncer := s.syncer, dsIds := s.dsIds } :=
    hi.goOn { th with pc := .call .add } hth rfl rfl s.syncer s.dsIds hsole (fun _ => rfl)
      (fun _ j x _ hx hox => halone x (List.mem_of_getElem? hx) hox) (fun _ _ _ _ _ _ => rfl) (by simp [hpc, Unserved])
      (.inl rfl) (by simp [Holding, Call.Waiting]) (by simp [hread]) hread
  refine { hmoved with nodup := ?_, waiting := ?_, unanswered := ?_ }
  · exact List.nodup_append.mpr ⟨hi.nodup, by simp, by
      intro a ha b hb hab
      simp only [List.mem_singleton] at hb
      exact hnew (hb ▸ hab ▸ ha)⟩
  · intro j hj
    rcases List.mem_append.mp hj with hj | hj
    · exact hmoved.waiting j hj
    · rw [List.mem_singleton.mp hj]
      exact ⟨_, Pool.commit_self hth _ _, trivial⟩
  · intro j hj r hr
    rcases List.mem_append.mp hj with hj | hj
    · exact hi.unanswered j hj r hr
    · rw [List.mem_singleton.mp hj]
      exact hreplies r hr

theorem inv_syncerCall {c c' : Call} {syncer : Syncer.State UInt32} (hi : Inv kind s) (hth : s.threads[i]? = some th)
    (hpc : th.pc = .call c) (hs : c.step s.syncer (th.point kind) i = some (c', syncer)) :
    Inv kind { s.goOn i { th with pc := .call c' } with syncer := syncer } := by
  have hphase : phases (Thread.phase kind) s.threads i = callPhase (th.point kind) c := by
    rw [phases_thread hth, Thread.phase, hpc]
  have hstay := Call.step_waiting hs
  have hfree : c = .add → Exclusive.Unused (phases (Thread.phase kind) s.threads) (th.point kind) :=
    fun h => hi.unused hth (by rw [hpc, h])
  have hread : th.read = none := by
    have := hi.consistent i th hth
    simpa [Thread.Consistent, hpc] using this
  refine hi.goOn { th with pc := .call c' } hth rfl rfl syncer s.dsIds (Exclusive.sole_call hi.sole hphase hfree hs)
    (fun _ => rfl) (fun _ => hi.other hth (by simp [hpc, Pc.outstanding])) ?_ ?_ (.inl rfl) ?_ (by simp [hread]) hread
  · intro j x cv hj hx hb
    exact Exclusive.call_spares hi.sole.toOwned hphase hj (q := x.point kind)
      (by rw [phases_thread hx, Thread.phase, hb]; rfl) hs
  · exact fun h => ⟨hstay.mpr (by simpa [hpc, Unserved] using h), rfl⟩
  · exact fun h => hi.entered i th hth (by simpa [hpc, Holding, hstay] using h)

theorem consistent_found {dsId : Int32} :
    { th with read := some dsId, pc := found th.request dsId : Thread }.Consistent := by
  by_cases hno : dsId = noDs
  · simp [found, hno, Thread.Consistent, Thread.Named]
  · cases hrequest : th.request with
    | put => simp [found, hno, Thread.Consistent, Thread.Named]
    | get blocking => simp [found, hno, Thread.Consistent, Thread.Named]

/-- What a call finds is there already. -/
theorem inv_read (hi : Inv kind s) (hth : s.threads[i]? = some th) (hpc : th.pc = .call .done) :
    Inv kind { s.goOn i { th with
        read := some ((s.dsIds (th.dataId kind)).getD 0), pc := found th.request ((s.dsIds (th.dataId kind)).getD 0) } with
      dsIds := update s.dsIds (th.dataId kind) (some ((s.dsIds (th.dataId kind)).getD 0)) } := by
  obtain ⟨r, hr, hri, hd⟩ := hi.entered i th hth (by simp [hpc, Holding, Call.Waiting])
  have hsame : update s.dsIds (th.dataId kind) (some ((s.dsIds (th.dataId kind)).getD 0)) = s.dsIds := by
    rw [Function.update_eq_self_iff, hd]
    rfl
  have hget : (s.dsIds (th.dataId kind)).getD 0 = r.dsId := by rw [hd]; rfl
  rw [hsame, hget]
  refine hi.goOn { th with read := some r.dsId, pc := found th.request r.dsId } hth rfl rfl s.syncer s.dsIds ?_ ?_
    (fun _ => hi.other hth (by simp [hpc, Pc.outstanding])) (fun _ _ _ _ _ _ => rfl)
    (by simp [hpc, Unserved, Call.Waiting]) (.inl rfl) (fun _ => ⟨r, hr, hri, hd⟩) ?_ consistent_found
  · have haway : update (phases (Thread.phase kind) s.threads) i
        (Thread.phase kind { th with read := some r.dsId, pc := found th.request r.dsId }) =
        phases (Thread.phase kind) s.threads := by
      rw [Function.update_eq_self_iff, phases_thread hth]
      by_cases hno : r.dsId = noDs
      · simp [Thread.phase, hpc, callPhase, found, hno]
      · cases hrequest : th.request <;> simp [Thread.phase, hpc, callPhase, found, hno]
    rw [haway]
    exact hi.sole
  · intro _
    by_cases hno : r.dsId = noDs
    · simp [found, hno, Pc.begun]
    · cases hrequest : th.request <;> simp [found, hno, Pc.begun]
  · intro dsId hread
    exact ⟨r, hr, hri, Option.some.inj hread⟩

theorem inv_drop {r : Option Int32} (hi : Inv kind s) (hth : s.threads[i]? = some th) (hpc : th.pc = .drop r) :
    Inv kind { s.goOn i { th with pc := (r.map Pc.returned).getD .getDone } with
      dsIds := update s.dsIds (th.dataId kind) none } := by
  have hnotCall : ∀ c, (r.map Pc.returned).getD .getDone ≠ .call c := by cases r <;> simp
  have hends : ∀ syncer, ¬Holding syncer i ((r.map Pc.returned).getD .getDone) := by
    cases r <;> exact fun _ h => h
  refine hi.goAway hth (by simp [hpc]) hnotCall _ (.inr ⟨by simp [hpc, Pc.outstanding], fun id hid => update_of_ne hid ..⟩) ?_
    (fun h => absurd h (hends _)) ?_
  · cases r <;> exact fun _ => rfl
  · have hconsistent := hi.consistent i th hth
    cases r with
    | none =>
      simp only [Thread.Consistent, hpc] at hconsistent
      exact hconsistent
    | some v =>
      simp only [Thread.Consistent, hpc] at hconsistent
      exact ⟨hconsistent.mp, fun _ => hconsistent.mpr⟩

theorem inv_thread {s' : State} {err : Int32} (hi : Inv kind s) (hok : Alone kind s (.thread i err))
    (hs : stepThread kind s i err = some s') : Inv kind s' := by
  obtain ⟨th, hth, hs⟩ := Option.bind_eq_some_iff.mp hs
  have hconsistent := hi.consistent i th hth
  cases hpc : th.pc with
  | syncPut =>
    simp only [hpc, Option.some.injEq] at hs
    subst hs
    simp only [Thread.Consistent, hpc] at hconsistent
    refine hi.goAway hth (by simp [hpc]) (by split <;> simp) s.dsIds (.inl rfl) (by simp [hpc, Pc.begun]) ?_ ?_
    · split <;> exact False.elim
    · split
      next => exact hconsistent
      next => simp [Thread.Consistent, Thread.Named, hconsistent]
  | send =>
    simp only [hpc] at hs
    split at hs
    next =>
      obtain rfl := Option.some.inj hs
      exact inv_send hi hth hpc (hok th hth hpc)
    next herr =>
      obtain rfl := Option.some.inj hs
      simp only [Thread.Consistent, hpc] at hconsistent
      refine hi.goAway hth (by simp [hpc]) (by simp) s.dsIds (.inl rfl) (by simp [hpc, Pc.begun]) False.elim ?_
      by_cases hput : th.request = .put <;> simp [Thread.Consistent, Thread.Named, hconsistent, hput, herr]
  | call c =>
    by_cases hc : c = .done
    · subst hc
      simp only [hpc, Option.some.injEq] at hs
      subst hs
      exact inv_read hi hth hpc
    · simp only [hpc, Option.map_eq_some_iff] at hs
      obtain ⟨⟨c', syncer⟩, hcall, rfl⟩ := hs
      exact inv_syncerCall hi hth hpc hcall
  | drop r =>
    simp only [hpc, Option.map_eq_some_iff] at hs
    obtain ⟨dsId, -, rfl⟩ := hs
    exact inv_drop hi hth hpc
  | fetch tries =>
    simp only [hpc, Option.some.injEq] at hs
    subst hs
    simp only [Thread.Consistent, hpc] at hconsistent
    refine hi.goAway hth (by simp [hpc]) ?_ s.dsIds (.inl rfl) ?_ (fun _ => by simp [hpc, Holding]) ?_
    · split
      next => simp
      next => split <;> simp
    · split
      next => exact fun _ => rfl
      next => split <;> exact fun _ => rfl
    · split
      next => exact hconsistent
      next herr =>
        split
        next => exact hconsistent
        next => exact ⟨fun h => absurd h herr, fun h => absurd h hconsistent.2⟩
  | getDone =>
    simp only [hpc, Option.some.injEq] at hs
    subst hs
    simp only [Thread.Consistent, hpc] at hconsistent
    refine hi.goAway hth (by simp [hpc]) (by simp) s.dsIds (.inl rfl) (fun _ => rfl) False.elim ?_
    exact ⟨fun _ => hconsistent.1, fun h => absurd h hconsistent.2⟩
  | returned v => simp [hpc] at hs

end Threads

section Replies
variable {kind : DataIdT} {app manager : Node} {s s' : State}

theorem inv_answer {i : Nat} {dsId : Int32} (hi : Inv kind s) (hs : stepAnswer s i dsId = some s') : Inv kind s' := by
  unfold stepAnswer at hs
  split at hs
  next hasked =>
    obtain rfl := Option.some.inj hs
    obtain ⟨th, hth, hun⟩ := hi.waiting i hasked
    have hbegun : th.pc.begun := by
      cases hpc : th.pc with
      | syncPut | send => simp [hpc, Unserved] at hun
      | _ => rfl
    have hmem : ∀ r ∈ s.replies, r ∈ s.replies ++ [⟨i, dsId, .store⟩] := fun r hr => List.mem_append_left _ hr
    refine { hi with
      nodup := hi.nodup.erase i
      waiting := fun j hj => hi.waiting j (List.mem_of_mem_erase hj)
      unanswered := ?_, single := ?_, begun := ?_, pending := ?_, stored := ?_
      entered := fun j x hx hhold => (hi.entered j x hx hhold).imp fun r hr => ⟨hmem r hr.1, hr.2⟩
      read := fun j x d hx hread => (hi.read j x d hx hread).imp fun r hr => ⟨hmem r hr.1, hr.2⟩ }
    · intro j hj r hr
      have hji : j ≠ i := fun h => (hi.nodup.mem_erase_iff.mp hj).1 h
      rcases List.mem_append.mp hr with hr | hr
      · exact hi.unanswered j (List.mem_of_mem_erase hj) r hr
      · rw [List.mem_singleton.mp hr]
        exact Ne.symm hji
    · rw [List.map_append, List.map_singleton]
      refine List.nodup_append.mpr ⟨hi.single, by simp, ?_⟩
      intro a ha b hb hab
      obtain ⟨r, hr, rfl⟩ := List.mem_map.mp ha
      exact hi.unanswered i hasked r hr (hab.trans (List.mem_singleton.mp hb))
    · intro r hr
      rcases List.mem_append.mp hr with hr | hr
      · exact hi.begun r hr
      · rw [List.mem_singleton.mp hr]
        exact ⟨th, hth, hbegun⟩
    · intro r hr hpc
      rcases List.mem_append.mp hr with hr | hr
      · exact hi.pending r hr hpc
      · rw [List.mem_singleton.mp hr]
        exact ⟨th, hth, hun⟩
    · intro r hr hpc
      rcases List.mem_append.mp hr with hr | hr
      · exact hi.stored r hr hpc
      · rw [List.mem_singleton.mp hr] at hpc
        cases hpc
  next => cases hs

/-! ## The handler of a reply -/

section Handler
variable {j : Nat} {r : Reply} {th : Thread} {pc : ReplyPc}

theorem reply_cases (hi : Inv kind s) (hr : s.replies[j]? = some r) {q : Reply}
    (hq : q ∈ s.replies.set j { r with pc := pc }) : q = { r with pc := pc } ∨ q ∈ s.replies ∧ q.thread ≠ r.thread := by
  obtain ⟨k, hk⟩ := List.getElem?_of_mem hq
  by_cases hkj : k = j
  · subst hkj
    rw [List.getElem?_set_self (Pool.lt_of_getElem? hr)] at hk
    exact .inl (Option.some.inj hk).symm
  · rw [List.getElem?_set_ne (Ne.symm hkj)] at hk
    refine .inr ⟨List.mem_of_getElem? hk, fun hsame => hkj ?_⟩
    have hlt : k < (s.replies.map Reply.thread).length := by
      rw [List.length_map]
      exact Pool.lt_of_getElem? hk
    refine (List.getElem?_inj hlt hi.single).mp ?_
    rw [List.getElem?_map, List.getElem?_map, hk, hr, Option.map_some, Option.map_some, hsame]

theorem reply_kept (pc : ReplyPc) (hr : s.replies[j]? = some r) {q : Reply} (hq : q ∈ s.replies) :
    ∃ q' ∈ s.replies.set j { r with pc := pc }, q'.thread = q.thread ∧ q'.dsId = q.dsId := by
  obtain ⟨k, hk⟩ := List.getElem?_of_mem hq
  by_cases hkj : k = j
  · subst hkj
    obtain rfl : r = q := by simpa [hr] using hk
    exact ⟨_, List.mem_of_getElem? (List.getElem?_set_self (Pool.lt_of_getElem? hr)), rfl, rfl⟩
  · exact ⟨q, List.mem_of_getElem? ((List.getElem?_set_ne (Ne.symm hkj)).trans hk), rfl, rfl⟩

theorem map_thread (hr : s.replies[j]? = some r) :
    (s.replies.set j { r with pc := pc }).map Reply.thread = s.replies.map Reply.thread := by
  refine List.ext_getElem? fun k => ?_
  rw [List.getElem?_map, List.getElem?_map]
  by_cases hkj : k = j
  · rw [hkj, List.getElem?_set_self (Pool.lt_of_getElem? hr), hr]
    rfl
  · rw [List.getElem?_set_ne (Ne.symm hkj)]

/-- A handler goes on: the answers stay what they are. -/
theorem Inv.advance (hi : Inv kind s) (hr : s.replies[j]? = some r) (hth : s.threads[r.thread]? = some th)
    (hun : Unserved s.syncer r.thread th.pc) (syncer : Syncer.State UInt32) (dsIds : String → Option Int32)
    (hsole : Sole syncer (phases (Thread.phase kind) s.threads))
    (hkeep : ∀ (i : Nat) (x : Thread) (cv : Nat), i ≠ r.thread → s.threads[i]? = some x → x.pc = .call (.blocked cv) →
      syncer.waiters cv = s.syncer.waiters cv)
    (hids : ∀ id, id ≠ th.dataId kind → dsIds id = s.dsIds id)
    (hpend : pc ≠ .done → Unserved syncer r.thread th.pc)
    (hstored : dsIds (th.dataId kind) = some r.dsId) :
    Inv kind { s with replies := s.replies.set j { r with pc := pc }, syncer := syncer, dsIds := dsIds } := by
  have hmem : r ∈ s.replies := List.mem_of_getElem? hr
  have hstand : ∀ (i : Nat) (x : Thread), i ≠ r.thread → s.threads[i]? = some x →
      (Unserved syncer i x.pc ↔ Unserved s.syncer i x.pc) ∧ (Holding syncer i x.pc ↔ Holding s.syncer i x.pc) :=
    fun i x hne hx => standing_congr i fun cv => hkeep i x cv hne hx
  have hsame : ∀ (i : Nat) (x : Thread), i ≠ r.thread → s.threads[i]? = some x → x.pc.outstanding →
      dsIds (x.dataId kind) = s.dsIds (x.dataId kind) := fun i x hne hx hox =>
    hids _ (hi.other hth hun.outstanding i x hne hx hox).2
  refine { hi with
    sole := hsole, waiting := ?_, unanswered := ?_, single := by rw [map_thread hr]; exact hi.single, begun := ?_
    pending := ?_, stored := ?_, entered := ?_, read := ?_ }
  · intro i hasked
    obtain ⟨x, hx, hun'⟩ := hi.waiting i hasked
    have hne : i ≠ r.thread := fun h => hi.unanswered i hasked r hmem h.symm
    exact ⟨x, hx, (hstand i x hne hx).1.mpr hun'⟩
  · intro i hasked q hq
    rcases reply_cases hi hr hq with rfl | ⟨hq, -⟩
    · exact hi.unanswered i hasked r hmem
    · exact hi.unanswered i hasked q hq
  · intro q hq
    rcases reply_cases hi hr hq with rfl | ⟨hq, -⟩
    · exact hi.begun r hmem
    · exact hi.begun q hq
  · intro q hq hpc
    rcases reply_cases hi hr hq with rfl | ⟨hq, hne⟩
    · exact ⟨th, hth, hpend hpc⟩
    · obtain ⟨x, hx, hun'⟩ := hi.pending q hq hpc
      exact ⟨x, hx, (hstand _ x hne hx).1.mpr hun'⟩
  · intro q hq hpc x hx
    rcases reply_cases hi hr hq with rfl | ⟨hq, hne⟩
    · obtain rfl : th = x := by simpa [hth] using hx
      exact hstored
    · obtain ⟨y, hy, hun'⟩ := hi.pending q hq (by simp [hpc])
      obtain rfl : y = x := by simpa [hy] using hx
      exact (hsame _ y hne hy hun'.outstanding).trans (hi.stored q hq hpc y hy)
  · intro i x hx hhold
    by_cases hne : i = r.thread
    · subst hne
      obtain rfl : th = x := by simpa [hth] using hx
      exact ⟨_, List.mem_of_getElem? (List.getElem?_set_self (Pool.lt_of_getElem? hr)), rfl, hstored⟩
    · have hold := (hstand i x hne hx).2.mp hhold
      obtain ⟨q, hq, hqi, hd⟩ := hi.entered i x hx hold
      obtain ⟨q', hq', hthread, hdsId⟩ := reply_kept pc hr hq
      exact ⟨q', hq', hthread.trans hqi, by rw [hdsId, ← hd]; exact hsame i x hne hx hold.outstanding⟩
  · intro i x dsId hx hread
    obtain ⟨q, hq, hqi, hd⟩ := hi.read i x dsId hx hread
    obtain ⟨q', hq', hthread, hdsId⟩ := reply_kept pc hr hq
    exact ⟨q', hq', hthread.trans hqi, hdsId.trans hd⟩

theorem inv_reply {woken : Option Nat} (hi : Inv kind s) (hs : stepReply kind app manager s j woken = some s') :
    Inv kind s' := by
  obtain ⟨r, hr, hs⟩ := Option.bind_eq_some_iff.mp hs
  obtain ⟨th, hth, hs⟩ := Option.bind_eq_some_iff.mp hs
  rw [answer_handled, Option.bind_some] at hs
  have hmem : r ∈ s.replies := List.mem_of_getElem? hr
  cases hpc : r.pc with
  | store =>
    simp only [hpc, Option.some.injEq] at hs
    subst hs
    obtain ⟨x, hx, hun⟩ := hi.pending r hmem (by simp [hpc])
    obtain rfl : th = x := by simpa [hth] using hx
    exact hi.advance hr hth hun s.syncer _ hi.sole (fun _ _ _ _ _ _ => rfl) (fun id hid => update_of_ne hid ..)
      (fun _ => hun) (update_self ..)
  | notify =>
    simp only [hpc, Option.map_eq_some_iff] at hs
    obtain ⟨syncer, hn, rfl⟩ := hs
    obtain ⟨x, hx, hun⟩ := hi.pending r hmem (by simp [hpc])
    obtain rfl : th = x := by simpa [hth] using hx
    refine hi.advance hr hth hun syncer s.dsIds (Exclusive.sole_notify hi.sole hn) ?_ (fun _ _ => rfl)
      (fun h => absurd rfl h) (hi.stored r hmem hpc th hth)
    intro i x cv hne hx hb
    refine Exclusive.notify_spares hi.sole.toOwned (t := i) (q := x.point kind) ?_ ?_ hn
    · rw [phases_thread hx, Thread.phase, hb]
      rfl
    · exact (hi.other hth hun.outstanding i x hne hx (by simp [hb, Pc.outstanding])).1
  | done => simp [hpc] at hs

end Handler

theorem inv_call (request : Request) (args : Args) (hi : Inv kind s) :
    Inv kind { s with threads := s.threads ++ [⟨request, args, none, first request⟩] } := by
  have hkept : ∀ (i : Nat) (x : Thread), s.threads[i]? = some x →
      (s.threads ++ [⟨request, args, none, first request⟩])[i]? = some x := fun i x hx => Pool.append_other hx _
  have hlast : ∀ (i : Nat) (x : Thread), (s.threads ++ [⟨request, args, none, first request⟩])[i]? = some x →
      s.threads[i]? = some x ∨ x = ⟨request, args, none, first request⟩ :=
    fun i x hx => (Pool.append_cases hx).imp_right And.right
  have hidle : (first request).outstanding ≠ true := by cases request <;> simp [first, Pc.outstanding]
  refine { hi with
    sole := ?_, apart := ?_
    waiting := fun i hasked => (hi.waiting i hasked).imp fun x hx => ⟨hkept i x hx.1, hx.2⟩
    begun := fun r hr => (hi.begun r hr).imp fun x hx => ⟨hkept _ x hx.1, hx.2⟩
    pending := fun r hr hpc => (hi.pending r hr hpc).imp fun x hx => ⟨hkept _ x hx.1, hx.2⟩
    stored := ?_, entered := ?_, read := ?_, consistent := ?_ }
  · rw [Exclusive.phases_append _ _ _ (by cases request <;> simp [Thread.phase, first])]
    exact hi.sole
  · intro i j ti tj hti htj hoi hoj hclash
    rcases hlast i ti hti with hti' | rfl
    · rcases hlast j tj htj with htj' | rfl
      · exact hi.apart i j ti tj hti' htj' hoi hoj hclash
      · exact absurd hoj hidle
    · exact absurd hoi hidle
  · intro r hr hpc x hx
    obtain ⟨y, hy, -⟩ := hi.pending r hr (by simp [hpc])
    obtain rfl : y = x := by simpa [hkept _ y hy] using hx
    exact hi.stored r hr hpc y hy
  · intro i x hx hhold
    rcases hlast i x hx with hx' | rfl
    · exact hi.entered i x hx' hhold
    · exact absurd hhold.outstanding hidle
  · intro i x dsId hx hread
    rcases hlast i x hx with hx' | rfl
    · exact hi.read i x dsId hx' hread
    · cases hread
  · intro i x hx
    rcases hlast i x hx with hx' | rfl
    · exact hi.consistent i x hx'
    · cases request <;> rfl

theorem inv_step {a : Action} (hi : Inv kind s) (hok : Alone kind s a) (hs : step kind app manager s a = some s') :
    Inv kind s' := by
  cases a with
  | call request args =>
    obtain rfl := Option.some.inj hs
    exact inv_call request args hi
  | thread i err => exact inv_thread hi hok hs
  | answer i dsId => exact inv_answer hi hs
  | reply j woken => exact inv_reply hi hs
  | spurious i => exact hok.elim

/-- Where no two calls in progress share a data id or a point and no wait ends by itself, each call goes by the
answer of the manager to its own request, however the threads, the manager and the handlers take turns. -/
theorem calls_attributed (h : Reaches (step kind app manager) (Alone kind) init s) : Attributed kind s := by
  have hi := h.invariant (Inv kind) inv_init fun _ _ _ hi hok hs => inv_step hi hok hs
  constructor
  · intro i th dsId hth hread
    obtain ⟨r, hr, hri, rfl⟩ := hi.read i th dsId hth hread
    refine ⟨⟨r, hr, hri⟩, fun q hq hqi => ?_⟩
    rw [List.inj_on_of_nodup_map hi.single hq hr (hqi.trans hri.symm)]
  · intro i th v hth hpc hput
    have hconsistent := hi.consistent i th hth
    simp only [Thread.Consistent, hpc] at hconsistent
    exact ⟨hconsistent.1, hconsistent.2 hput⟩
  · intro i th hth hpc
    have hconsistent := hi.consistent i th hth
    simp only [Thread.Consistent, hpc] at hconsistent
    exact hconsistent.1 trivial
  · intro i th r hth hpc
    obtain ⟨q, -, -, hd⟩ := hi.entered i th hth (by simp [hpc, Holding])
    rw [hd]
    rfl

/-- Another variable. -/
def otherArgs : Args := ⟨SDMControl.unitBox "v", "double", 8, (SDMControl.unitBox "v").ucoor⟩

/-- A put that the manager answers with the id of a DS, and a get that it answers with the id for an error. -/
def twoCalls : List Action :=
  [.call .put unitArgs, .call (.get false) otherArgs, .thread 0 0, .thread 0 0, .thread 1 0, .thread 0 0, .thread 0 0,
    .thread 1 0, .thread 1 0, .answer 1 noDs, .answer 0 2, .reply 0 none, .reply 1 none, .reply 0 (some 1), .reply 1 (some 0),
    .thread 0 0, .thread 0 0, .thread 0 0, .thread 0 0, .thread 1 0, .thread 1 0, .thread 1 0, .thread 1 0]

theorem two_calls_attributed : ∃ s, (s.threads.map fun th => (th.read, th.pc)) =
    [(some 2, .returned 0), (some noDs, .returned 1)] ∧ Attributed .kv s := by
  obtain ⟨s, hs, htest⟩ := Transition.runWhere_reaches_of_any (step .kv appNode managerNode) (Alone .kv) init twoCalls
    (fun s => decide ((s.threads.map fun th => (th.read, th.pc)) = [(some 2, .returned 0), (some noDs, .returned 1)]))
    (by decide +kernel)
  exact ⟨s, of_decide_eq_true htest, calls_attributed hs⟩

end Replies

end AppCalls
