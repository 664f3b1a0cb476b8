import DataspacesWa.Transition
import DataspacesWa.Patch
import DataspacesWa.Exclusive

/-!
# Moves at a source DS

`RIManager::handle_dm_move` asks the destination for its transfer address, waits
for the reply and puts the data there. The replies, the addresses and the sync
points are kept by the data alone.
-/
namespace RemoteMove

open Transition (Reaches free run runWhere)
open Patch (Datum DataIdT getDataId hashStr)
open Syncer (Call)
open Exclusive (Phase Sole phases callPhase)
open Function (update)

/-- `data_trans_protocol`. -/
inductive Protocol where
  | infiniband | tcp | gridftp
  deriving DecidableEq, Repr

structure TransInfo where
  lip : String
  lport : String
  tmpfsDir : String
  deriving DecidableEq, Repr

/-- `handle_dm_move`, `trans_info_query` and `remote_put`. -/
inductive MoverPc where
  | test | send
  | call : Call → MoverPc
  | done : TransInfo → MoverPc
  deriving DecidableEq, Repr

/-- A move of `datum` to `to`. -/
structure Mover where
  toId : Int32
  datum : Datum
  pc : MoverPc
  deriving DecidableEq, Repr

/-- `handle_tinfo_query_reply`, from the reply on its way to the handler's end. -/
inductive ReplyPc where
  | inFlight | notify | done
  deriving DecidableEq, Repr

/-- A reply `sender` has sent to the query of a move. -/
structure Reply where
  query : Nat
  sender : Int32
  datum : Datum
  info : TransInfo
  pc : ReplyPc
  deriving DecidableEq, Repr

structure State where
  syncer : Syncer.State UInt32
  /-- `data_id_hash__data_info_map`, as far as it has an entry. -/
  dataInfo : UInt32 → Bool
  transInfo : UInt32 → Option TransInfo
  movers : List Mover
  /-- The moves whose query is on its way. -/
  queries : List Nat
  replies : List Reply
  /-- The `wa_put` calls, each with the move it is made for. -/
  puts : List (Nat × TransInfo)

inductive Action where
  | record : Datum → Action
  | move : Int32 → Datum → Action
  | mover : Nat → Bool → Action
  | answer : Nat → TransInfo → Action
  | reply : Nat → Option Nat → Action
  | getDone : Datum → Option Nat → Action
  | spurious : Nat → Action
  deriving DecidableEq, Repr

def init : State := ⟨Syncer.empty, fun _ => false, fun _ => none, [], [], [], []⟩

section Machine
variable (kind : DataIdT) (protocol : Protocol)

def dataHash (d : Datum) : UInt32 := hashStr (getDataId kind d)

def queryPoint (d : Datum) : UInt32 := hashStr (Patch.riTinfoQuery ++ "_" ++ getDataId kind d)

/-- The map is keyed by data, but looked up with the destination here. -/
def asks (s : State) (x : Mover) : Bool :=
  (s.transInfo x.toId.toUInt32).isNone || protocol == .infiniband || protocol == .tcp

def State.goOn (s : State) (m : Nat) (x : Mover) (pc : MoverPc) : State :=
  { s with movers := Pool.commit s.movers m { x with pc := pc } [] }

def stepMover (s : State) (m : Nat) (sent : Bool) : Option State :=
  s.movers[m]?.bind fun x =>
    match x.pc with
    | .test =>
      if asks protocol s x then
        -- the entry of the data is dereferenced
        if s.dataInfo (dataHash kind x.datum) then some (s.goOn m x .send) else none
      else some (s.goOn m x (.call .done))
    | .send =>
      -- the error of a failed query is not looked at
      if sent then some { s.goOn m x (.call .add) with queries := s.queries ++ [m] }
      else some (s.goOn m x (.call .done))
    | .call .done =>
      if s.dataInfo (dataHash kind x.datum) then
        (s.transInfo (dataHash kind x.datum)).map fun info =>
          { s.goOn m x (.done info) with puts := s.puts ++ [(m, info)] }
      else none
    | .call c =>
      (c.step s.syncer (queryPoint kind x.datum) m).map fun (c', syncer) =>
        { s.goOn m x (.call c') with syncer := syncer }
    | .done _ => none

/-- The destination reports its address for the data, in `handle_tinfo_query`. -/
def stepAnswer (s : State) (m : Nat) (info : TransInfo) : Option State :=
  if m ∈ s.queries then
    s.movers[m]?.map fun x =>
      { s with
        queries := s.queries.erase m
        replies := s.replies ++ [⟨m, x.toId, x.datum, info, .inFlight⟩] }
  else none

def stepReply (s : State) (k : Nat) (woken : Option Nat) : Option State :=
  s.replies[k]?.bind fun r =>
    match r.pc with
    | .inFlight => some { s with
        transInfo := update s.transInfo (dataHash kind r.datum) (some r.info)
        replies := Pool.commit s.replies k { r with pc := .notify } [] }
    | .notify =>
      (Syncer.notify s.syncer (queryPoint kind r.datum) woken).map fun syncer => { s with
        syncer := syncer
        replies := Pool.commit s.replies k { r with pc := .done } [] }
    | .done => none

def stepSpurious (s : State) (m : Nat) : Option State :=
  s.movers[m]?.bind fun x =>
    match x.pc with
    | .call (.blocked cv) => (Syncer.spurious s.syncer cv m).map fun syncer => { s with syncer := syncer }
    | _ => none

def step (s : State) : Action → Option State
  | .record d => some { s with dataInfo := update s.dataInfo (dataHash kind d) true }
  | .move t d => some { s with movers := s.movers ++ [⟨t, d, .test⟩] }
  | .mover m sent => stepMover kind protocol s m sent
  | .answer m info => stepAnswer s m info
  | .reply k woken => stepReply kind s k woken
  | .getDone d woken =>
    (Syncer.notify s.syncer (hashStr ("D" ++ getDataId kind d)) woken).map fun syncer =>
      { s with syncer := syncer }
  | .spurious m => stepSpurious s m

/-- Every put goes where the move's own destination reported, at most one is made
for a move, and a move whose reply has been handled has been put or goes on. -/
structure Delivered (s : State) : Prop where
  own : ∀ m info, (m, info) ∈ s.puts → ∃ x, s.movers[m]? = some x ∧
    ∃ r ∈ s.replies, r.sender = x.toId ∧ r.datum = x.datum ∧ r.info = info
  once : (s.puts.map Prod.fst).Nodup
  replied : ∀ r ∈ s.replies, r.pc = .done →
    (∃ info, (r.query, info) ∈ s.puts) ∨ (step kind protocol s (.mover r.query true)).isSome

/-- Between its query and its put. -/
def MoverPc.active : MoverPc → Bool
  | .send | .call _ => true
  | _ => false

def MoverPc.blocked : MoverPc → Bool
  | .call (.blocked _) => true
  | _ => false

/-- The two moves share an entry of the map or a sync point. -/
def Clash (x y : Mover) : Prop :=
  dataHash kind x.datum = dataHash kind y.datum ∨ queryPoint kind x.datum = queryPoint kind y.datum

instance (x y : Mover) : Decidable (Clash kind x y) := inferInstanceAs (Decidable (_ ∨ _))

/-- A move asks its destination, its query is sent, no other move it clashes with is
active meanwhile, its reply is handled once it waits, and no other notification
or spurious end comes between. -/
def Alone (s : State) : Action → Prop
  | .mover m sent =>
    ∀ x ∈ s.movers[m]?,
      match x.pc with
      | .test => asks protocol s x ∧ ∀ y ∈ s.movers, y.pc.active → ¬ Clash kind x y
      | .send => sent
      | _ => True
  | .reply k _ =>
    ∀ r ∈ s.replies[k]?, r.pc = .notify →
      ∀ x ∈ s.movers[r.query]?, x.pc.blocked
  | .getDone d _ => ∀ y ∈ s.movers, y.pc.active → queryPoint kind y.datum ≠ hashStr ("D" ++ getDataId kind d)
  | .spurious _ => False
  | _ => True

instance (s : State) (a : Action) : Decidable (Alone kind protocol s a) := by
  unfold Alone
  split
  · refine @Option.decidableForallMem _ _ (fun x => ?_) _
    split <;> infer_instance
  all_goals infer_instance

def Mover.phase (x : Mover) : Phase UInt32 :=
  match x.pc with
  | .call c => callPhase (queryPoint kind x.datum) c
  | _ => .away

/-- The move has not been let go. -/
def Unserved (syncer : Syncer.State UInt32) (m : Nat) : MoverPc → Prop
  | .call c => c.Waiting syncer m
  | _ => False

/-- The move has been let go and is about to put. -/
def Released (syncer : Syncer.State UInt32) (m : Nat) : MoverPc → Prop
  | .call c => ¬ c.Waiting syncer m
  | _ => False

/-- The reply to the move has been handled, and the entry of its data is its own. -/
def Served (s : State) (m : Nat) (x : Mover) : Prop :=
  ∃ r ∈ s.replies, r.query = m ∧ s.transInfo (dataHash kind x.datum) = some r.info

structure Inv (s : State) : Prop where
  sole : Sole s.syncer (phases (Mover.phase kind) s.movers)
  unique : ∀ (i j : Nat) (x y : Mover), s.movers[i]? = some x → s.movers[j]? = some y →
    x.pc.active → y.pc.active → Clash kind x y → i = j
  known : ∀ x ∈ s.movers, x.pc.active → s.dataInfo (dataHash kind x.datum)
  asked : ∀ m ∈ s.queries, ∃ x, s.movers[m]? = some x ∧ Unserved s.syncer m x.pc
  nodup : s.queries.Nodup
  apart : ∀ r ∈ s.replies, r.query ∉ s.queries
  replying : ∀ r ∈ s.replies, ∃ x, s.movers[r.query]? = some x ∧ r.sender = x.toId ∧
    r.datum = x.datum ∧ x.pc ≠ .test ∧ x.pc ≠ .send
  single : ∀ (i j : Nat) (q r : Reply), s.replies[i]? = some q → s.replies[j]? = some r →
    q.query = r.query → i = j
  open_ : ∀ r ∈ s.replies, r.pc ≠ .done → ∀ x, s.movers[r.query]? = some x → Unserved s.syncer r.query x.pc
  stored : ∀ r ∈ s.replies, r.pc = .notify → s.transInfo (dataHash kind r.datum) = some r.info
  closed : ∀ r ∈ s.replies, r.pc = .done → ∀ x, s.movers[r.query]? = some x →
    ¬ Unserved s.syncer r.query x.pc
  served : ∀ (m : Nat) (x : Mover), s.movers[m]? = some x → Released s.syncer m x.pc → Served kind s m x
  finished : ∀ (m : Nat) (x : Mover) (info : TransInfo), s.movers[m]? = some x → x.pc = .done info →
    (m, info) ∈ s.puts
  put : ∀ m info, (m, info) ∈ s.puts → (∃ x, s.movers[m]? = some x ∧ x.pc = .done info) ∧
    ∃ r ∈ s.replies, r.query = m ∧ r.info = info
  once : (s.puts.map Prod.fst).Nodup

theorem inv_init : Inv kind init where
  sole := by
    have : phases (Mover.phase kind) init.movers = fun _ => .away := by
      funext t; simp [phases, init]
    rw [this]
    exact Exclusive.sole_empty
  unique i j x y hi := by simp [init] at hi
  known x hx := by simp [init] at hx
  asked m hm := by simp [init] at hm
  nodup := List.nodup_nil
  apart r hr := by simp [init] at hr
  replying r hr := by simp [init] at hr
  single i j q r hi := by simp [init] at hi
  open_ r hr := by simp [init] at hr
  stored r hr := by simp [init] at hr
  closed r hr := by simp [init] at hr
  served m x hx := by simp [init] at hx
  finished m x info hx := by simp [init] at hx
  put m info h := by simp [init] at h
  once := List.nodup_nil

end Machine

section Standing
variable {kind : DataIdT} {protocol : Protocol} {s s' : State} {m : Nat} {x : Mover} {pc : MoverPc}

theorem Unserved.active {syncer : Syncer.State UInt32} (h : Unserved syncer m pc) : pc.active := by
  cases pc <;> simp_all [Unserved, MoverPc.active]

theorem Released.active {syncer : Syncer.State UInt32} (h : Released syncer m pc) : pc.active := by
  cases pc <;> simp_all [Released, MoverPc.active]

/-- How a move stands depends on the condition variable it waits on alone. -/
theorem standing_congr {syncer syncer' : Syncer.State UInt32} (m : Nat)
    (hkeep : ∀ cv, pc = .call (.blocked cv) → syncer'.waiters cv = syncer.waiters cv) :
    (Unserved syncer' m pc ↔ Unserved syncer m pc) ∧ (Released syncer' m pc ↔ Released syncer m pc) := by
  cases pc with
  | call c =>
    have hsame : c.Waiting syncer' m ↔ c.Waiting syncer m :=
      Call.waiting_congr m fun cv hc => hkeep cv (by rw [hc])
    exact ⟨hsame, not_congr hsame⟩
  | _ => exact ⟨Iff.rfl, Iff.rfl⟩

theorem phase_active {p : UInt32} (h : (x.phase kind).point = some p) :
    x.pc.active ∧ queryPoint kind x.datum = p := by
  cases hpc : x.pc with
  | call c =>
    simp only [Mover.phase, hpc] at h
    exact ⟨rfl, Exclusive.callPhase_point h⟩
  | _ => simp [Mover.phase, hpc, Phase.point] at h

theorem phases_mover (hx : s.movers[m]? = some x) :
    phases (Mover.phase kind) s.movers m = x.phase kind := Exclusive.phases_get _ hx

/-- What a step of one mover has to show for itself. -/
theorem Inv.goOn (hi : Inv kind s) (hx : s.movers[m]? = some x) (pc : MoverPc) (syncer : Syncer.State UInt32)
    (hsole : Sole syncer (update (phases (Mover.phase kind) s.movers) m (Mover.phase kind { x with pc := pc })))
    (hout : pc.active → ∀ (j : Nat) (y : Mover), j ≠ m → s.movers[j]? = some y → y.pc.active →
      ¬ Clash kind x y)
    (hknown : pc.active → s.dataInfo (dataHash kind x.datum))
    (hkeep : ∀ (j : Nat) (y : Mover) (cv : Nat), j ≠ m → s.movers[j]? = some y →
      y.pc = .call (.blocked cv) → syncer.waiters cv = s.syncer.waiters cv)
    (hsent : x.pc ≠ .test ∧ x.pc ≠ .send → pc ≠ .test ∧ pc ≠ .send)
    (hwait : Unserved s.syncer m x.pc → Unserved syncer m pc)
    (hstay : x.pc ≠ .test ∧ x.pc ≠ .send → Unserved syncer m pc → Unserved s.syncer m x.pc)
    (hserved : Released syncer m pc → Served kind s m x) (hwas : ∀ info, x.pc ≠ .done info)
    (puts : List (Nat × TransInfo))
    (hputs : puts = [] ∧ (∀ info, pc ≠ .done info) ∨
      ∃ info, puts = [(m, info)] ∧ pc = .done info ∧ ∃ r ∈ s.replies, r.query = m ∧ r.info = info) :
    Inv kind { s.goOn m x pc with syncer := syncer, puts := s.puts ++ puts } := by
  have stands : ∀ (j : Nat) (y : Mover), j ≠ m → s.movers[j]? = some y →
      (Unserved syncer j y.pc ↔ Unserved s.syncer j y.pc) ∧
      (Released syncer j y.pc ↔ Released s.syncer j y.pc) :=
    fun j y hj hy => standing_congr j fun cv => hkeep j y cv hj hy
  -- each mover is found again, standing as it stood
  have found : ∀ (j : Nat) (y : Mover), s.movers[j]? = some y →
      ∃ y', (Pool.commit s.movers m { x with pc := pc } [])[j]? = some y' ∧ y'.toId = y.toId ∧
        y'.datum = y.datum ∧ (Unserved s.syncer j y.pc → Unserved syncer j y'.pc) ∧
        (y.pc ≠ .test ∧ y.pc ≠ .send → (y'.pc ≠ .test ∧ y'.pc ≠ .send) ∧
          (Unserved syncer j y'.pc → Unserved s.syncer j y.pc)) := by
    intro j y hy
    by_cases hjm : j = m
    · subst hjm
      obtain rfl : x = y := by simpa [hx] using hy
      exact ⟨_, Pool.commit_self hx _ _, rfl, rfl, hwait, fun h => ⟨hsent h, hstay h⟩⟩
    · have hst := (stands j y hjm hy).1
      exact ⟨y, Pool.commit_other hy hjm _ _, rfl, rfl, hst.mpr, fun h => ⟨h, hst.mp⟩⟩
  -- a mover that goes on has not put before
  have hold : ∀ info, (m, info) ∉ s.puts := by
    intro info hmem
    obtain ⟨⟨y, hy, hpc⟩, -⟩ := hi.put m info hmem
    obtain rfl : x = y := by simpa [hx] using hy
    exact hwas info hpc
  refine { hi with
    sole := ?_, unique := ?_, known := ?_, asked := ?_, replying := ?_, open_ := ?_, closed := ?_
    served := ?_, finished := ?_, put := ?_, once := ?_ }
  · show Sole syncer (phases (Mover.phase kind) (Pool.commit s.movers m { x with pc := pc } []))
    rw [Exclusive.phases_commit (Mover.phase kind) hx _ [] (by simp)]
    exact hsole
  · intro i j y z hy hz hay haz hc
    rcases Pool.commit_nil_cases hy with ⟨rfl, rfl⟩ | ⟨hji, hy'⟩ <;>
      rcases Pool.commit_nil_cases hz with ⟨rfl, rfl⟩ | ⟨hki, hz'⟩
    · rfl
    · exact absurd hc (hout hay j z hki hz' haz)
    · exact absurd (hc.imp Eq.symm Eq.symm) (hout haz i y hji hy' hay)
    · exact hi.unique i j y z hy' hz' hay haz hc
  · intro y hy hay
    obtain ⟨j, hj⟩ := List.getElem?_of_mem hy
    rcases Pool.commit_nil_cases hj with ⟨-, rfl⟩ | ⟨-, hj'⟩
    · exact hknown hay
    · exact hi.known y (List.mem_of_getElem? hj') hay
  · intro j hj
    obtain ⟨y, hy, hun⟩ := hi.asked j hj
    obtain ⟨y', hy', -, -, hst, -⟩ := found j y hy
    exact ⟨y', hy', hst hun⟩
  · intro r hr
    obtain ⟨y, hy, hto, hd, hne⟩ := hi.replying r hr
    obtain ⟨y', hy', hto', hd', -, hne'⟩ := found _ y hy
    exact ⟨y', hy', hto.trans hto'.symm, hd.trans hd'.symm, (hne' hne).1⟩
  · intro r hr hopen y' hy'
    obtain ⟨y, hy, -⟩ := hi.replying r hr
    obtain ⟨z, hz, -, -, hst, -⟩ := found _ y hy
    obtain rfl : z = y' := Option.some.inj (hz.symm.trans hy')
    exact hst (hi.open_ r hr hopen y hy)
  · intro r hr hclosed y' hy'
    obtain ⟨y, hy, -, -, hne⟩ := hi.replying r hr
    obtain ⟨z, hz, -, -, -, hst⟩ := found _ y hy
    obtain rfl : z = y' := Option.some.inj (hz.symm.trans hy')
    exact fun h => hi.closed r hr hclosed y hy ((hst hne).2 h)
  · intro j y hy hrel
    rcases Pool.commit_nil_cases hy with ⟨rfl, rfl⟩ | ⟨hjm, hy'⟩
    · exact hserved hrel
    · exact hi.served j y hy' ((stands j y hjm hy').2.mp hrel)
  · intro j y info hy hpc
    rcases Pool.commit_nil_cases hy with ⟨rfl, rfl⟩ | ⟨-, hy'⟩
    · rcases hputs with ⟨-, hnot⟩ | ⟨info', rfl, rfl, -⟩
      · exact absurd hpc (hnot info)
      · obtain rfl : info' = info := by simpa using hpc
        simp
    · exact List.mem_append_left _ (hi.finished j y info hy' hpc)
  · intro j info hj
    rcases List.mem_append.mp hj with hmem | hmem
    · obtain ⟨⟨y, hy, hpc⟩, hr⟩ := hi.put j info hmem
      have hjm : j ≠ m := by
        rintro rfl
        exact hold info hmem
      exact ⟨⟨y, Pool.commit_other hy hjm _ _, hpc⟩, hr⟩
    · rcases hputs with ⟨rfl, -⟩ | ⟨info', rfl, rfl, hr⟩
      · simp at hmem
      · obtain ⟨rfl, rfl⟩ : j = m ∧ info = info' := by simpa using hmem
        exact ⟨⟨_, Pool.commit_self hx _ _, rfl⟩, hr⟩
  · rcases hputs with ⟨rfl, -⟩ | ⟨info, rfl, -, -⟩
    · simpa using hi.once
    · rw [List.map_append]
      refine List.nodup_append.mpr ⟨hi.once, by simp, ?_⟩
      rintro j hj k hk rfl
      obtain ⟨⟨_, info'⟩, hmem, rfl⟩ := List.mem_map.mp hj
      obtain rfl := List.mem_singleton.mp hk
      exact hold info' hmem

/-- An active move clashes with no other active one. -/
theorem Inv.no_clash (hi : Inv kind s) (hx : s.movers[m]? = some x) (ha : x.pc.active) (j : Nat) (y : Mover)
    (hj : j ≠ m) (hy : s.movers[j]? = some y) (hay : y.pc.active) : ¬ Clash kind x y :=
  fun hc => hj (hi.unique m j x y hx hy ha hay hc).symm

/-- Nobody is at the point of a move that has not added it. -/
theorem Inv.unused (hi : Inv kind s) (hx : s.movers[m]? = some x) (hpc : x.pc = .call .add) :
    Exclusive.Unused (phases (Mover.phase kind) s.movers) (queryPoint kind x.datum) := by
  intro j hj
  obtain ⟨y, hy, hp⟩ := Exclusive.point_of_phases hj
  obtain ⟨hay, hpoint⟩ := phase_active hp
  obtain rfl := hi.unique j m y x hy hx hay (by simp [hpc, MoverPc.active]) (.inr hpoint)
  obtain rfl : x = y := by simpa [hx] using hy
  simp [Mover.phase, hpc, callPhase, Phase.point] at hp

theorem Inv.away (hx : s.movers[m]? = some x) (hwas : x.phase kind = .away) {x' : Mover}
    (hnow : x'.phase kind = .away) :
    update (phases (Mover.phase kind) s.movers) m (x'.phase kind) = phases (Mover.phase kind) s.movers := by
  rw [Function.update_eq_self_iff, phases_mover hx, hwas, hnow]

theorem inv_test (hi : Inv kind s) (hx : s.movers[m]? = some x) (hpc : x.pc = .test)
    (hinfo : s.dataInfo (dataHash kind x.datum)) (hfree : ∀ y ∈ s.movers, y.pc.active → ¬ Clash kind x y) :
    Inv kind (s.goOn m x .send) := by
  have hsole : Sole s.syncer (update (phases (Mover.phase kind) s.movers) m
      (Mover.phase kind { x with pc := .send })) := by
    rw [Inv.away hx (by simp [Mover.phase, hpc]) (by simp [Mover.phase])]
    exact hi.sole
  have hmoved := hi.goOn hx _ s.syncer hsole (fun _ j y _ hy => hfree y (List.mem_of_getElem? hy))
    (fun _ => hinfo) (fun _ _ _ _ _ _ => rfl) (by simp [hpc]) (by simp [hpc, Unserved])
    (by simp [hpc]) (by simp [Released]) (by simp [hpc]) [] (.inl ⟨rfl, (by simp)⟩)
  simpa [State.goOn] using hmoved

/-- The query goes out, the first of its move. -/
theorem inv_send (hi : Inv kind s) (hx : s.movers[m]? = some x) (hpc : x.pc = .send) :
    Inv kind { s.goOn m x (.call .add) with queries := s.queries ++ [m] } := by
  have ha : x.pc.active := by simp [hpc, MoverPc.active]
  have hsole : Sole s.syncer (update (phases (Mover.phase kind) s.movers) m
      (Mover.phase kind { x with pc := .call .add })) := by
    rw [Inv.away hx (by simp [Mover.phase, hpc]) (by simp [Mover.phase, callPhase])]
    exact hi.sole
  have hmoved := hi.goOn hx _ s.syncer hsole (fun _ j y hj hy hay => hi.no_clash hx ha j y hj hy hay)
    (fun _ => hi.known x (List.mem_of_getElem? hx) ha) (fun _ _ _ _ _ _ => rfl) (by simp [hpc])
    (by simp [hpc, Unserved]) (by simp [hpc]) (by simp [Released, Call.Waiting]) (by simp [hpc]) []
    (.inl ⟨rfl, (by simp)⟩)
  have hnew : m ∉ s.queries := by
    intro hm
    obtain ⟨y, hy, hun⟩ := hi.asked m hm
    obtain rfl : x = y := by simpa [hx] using hy
    simp [hpc, Unserved] at hun
  have hmoved' : Inv kind (s.goOn m x (.call .add)) := by simpa [State.goOn] using hmoved
  refine { hmoved' with asked := ?_, nodup := ?_, apart := ?_ }
  · intro j hj
    rcases List.mem_append.mp hj with hj | hj
    · exact hmoved'.asked j hj
    · rw [List.mem_singleton.mp hj]
      exact ⟨_, Pool.commit_self hx _ _, trivial⟩
  · refine List.nodup_append.mpr ⟨hi.nodup, by simp, ?_⟩
    rintro j hj k hk rfl
    exact hnew (List.mem_singleton.mp hk ▸ hj)
  · intro r hr hmem
    rcases List.mem_append.mp hmem with hmem | hmem
    · exact hi.apart r hr hmem
    · obtain ⟨y, hy, -, -, -, hne⟩ := hi.replying r hr
      rw [List.mem_singleton.mp hmem] at hy
      obtain rfl : x = y := by simpa [hx] using hy
      exact hne hpc

theorem inv_call {c c' : Call} {syncer : Syncer.State UInt32} (hi : Inv kind s)
    (hx : s.movers[m]? = some x) (hpc : x.pc = .call c)
    (hs : c.step s.syncer (queryPoint kind x.datum) m = some (c', syncer)) :
    Inv kind { s.goOn m x (.call c') with syncer := syncer } := by
  have ha : x.pc.active := by simp [hpc, MoverPc.active]
  have hphase : phases (Mover.phase kind) s.movers m = callPhase (queryPoint kind x.datum) c := by
    rw [phases_mover hx, Mover.phase, hpc]
  have hstay := Call.step_waiting hs
  have hfree : c = .add → Exclusive.Unused (phases (Mover.phase kind) s.movers) (queryPoint kind x.datum) :=
    fun h => hi.unused hx (by rw [hpc, h])
  have hkeep : ∀ (j : Nat) (y : Mover) (cv : Nat), j ≠ m → s.movers[j]? = some y →
      y.pc = .call (.blocked cv) → syncer.waiters cv = s.syncer.waiters cv := by
    intro j y cv hj hy hb
    exact Exclusive.call_spares hi.sole.toOwned hphase hj (q := queryPoint kind y.datum)
      (by rw [phases_mover hy, Mover.phase, hb]; rfl) hs
  have hmoved := hi.goOn hx (.call c') syncer (Exclusive.sole_call hi.sole hphase hfree hs)
    (fun _ j y hj hy hay => hi.no_clash hx ha j y hj hy hay)
    (fun _ => hi.known x (List.mem_of_getElem? hx) ha) hkeep (fun _ => ⟨by simp, by simp⟩)
    (by simpa [hpc, Unserved] using hstay.mpr) (fun _ => by simpa [hpc, Unserved] using hstay.mp)
    (fun h => hi.served m x hx (by simpa [hpc, Released, hstay] using h)) (by simp [hpc]) []
    (.inl ⟨rfl, (by simp)⟩)
  simpa [State.goOn] using hmoved

/-- The put takes the entry of the data, which is the move's own reply. -/
theorem inv_put {info : TransInfo} (hi : Inv kind s) (hx : s.movers[m]? = some x)
    (hpc : x.pc = .call .done) (hinfo : s.transInfo (dataHash kind x.datum) = some info) :
    Inv kind { s.goOn m x (.done info) with puts := s.puts ++ [(m, info)] } := by
  obtain ⟨r, hr, hquery, hown⟩ := hi.served m x hx (by simp [hpc, Released, Call.Waiting])
  have hsole : Sole s.syncer (update (phases (Mover.phase kind) s.movers) m
      (Mover.phase kind { x with pc := .done info })) := by
    rw [Inv.away hx (by simp [Mover.phase, hpc, callPhase]) (by simp [Mover.phase])]
    exact hi.sole
  have hsame : r.info = info := by simpa [hown] using hinfo
  have hmoved := hi.goOn hx _ s.syncer hsole (by rintro ⟨⟩) (by rintro ⟨⟩) (fun _ _ _ _ _ _ => rfl)
    (fun _ => ⟨by simp, by simp⟩) (by simp [hpc, Unserved, Call.Waiting]) (by simp [Unserved])
    (by simp [Released]) (by simp [hpc]) [(m, info)] (.inr ⟨info, rfl, rfl, r, hr, hquery, hsame⟩)
  exact hmoved

theorem inv_mover {sent : Bool} (hi : Inv kind s) (hok : Alone kind protocol s (.mover m sent))
    (hs : stepMover kind protocol s m sent = some s') : Inv kind s' := by
  obtain ⟨x, hx, hs⟩ := Option.bind_eq_some_iff.mp hs
  cases hpc : x.pc with
  | test =>
    obtain ⟨hasks, hfree⟩ : asks protocol s x ∧ ∀ y ∈ s.movers, y.pc.active → ¬ Clash kind x y := by
      simpa [Alone, hx, hpc] using hok
    simp only [hpc, hasks, if_true, Option.ite_none_right_eq_some, Option.some.injEq] at hs
    obtain ⟨hinfo, rfl⟩ := hs
    exact inv_test hi hx hpc hinfo hfree
  | send =>
    have hsent : sent = true := by simpa [Alone, hx, hpc] using hok
    simp only [hpc, hsent, if_true, Option.some.injEq] at hs
    subst hs
    exact inv_send hi hx hpc
  | call c =>
    by_cases hc : c = .done
    · subst hc
      simp only [hpc, Option.ite_none_right_eq_some, Option.map_eq_some_iff] at hs
      obtain ⟨-, info, hinfo, rfl⟩ := hs
      exact inv_put hi hx hpc hinfo
    · simp only [hpc, Option.map_eq_some_iff] at hs
      obtain ⟨⟨c', syncer⟩, hcall, rfl⟩ := hs
      exact inv_call hi hx hpc hcall
  | done info => simp [hpc] at hs

end Standing

section Replies
variable {kind : DataIdT} {s s' : State}

/-- A step that changes the replies alone, of a syncer in which everybody stands as before. -/
theorem inv_answer {m : Nat} {info : TransInfo} (hi : Inv kind s) (hs : stepAnswer s m info = some s') :
    Inv kind s' := by
  simp only [stepAnswer, Option.ite_none_right_eq_some, Option.map_eq_some_iff] at hs
  obtain ⟨hm, x, hx, rfl⟩ := hs
  obtain ⟨y, hy, hun⟩ := hi.asked m hm
  obtain rfl : x = y := by simpa [hx] using hy
  have hnew : ∀ r ∈ s.replies, r.query ≠ m := fun r hr h => hi.apart r hr (h ▸ hm)
  have hin : ∀ r, r ∈ s.replies ++ [⟨m, x.toId, x.datum, info, .inFlight⟩] →
      r ∈ s.replies ∨ r = ⟨m, x.toId, x.datum, info, .inFlight⟩ := fun r hr =>
    (List.mem_append.mp hr).imp_right List.mem_singleton.mp
  refine { hi with
    asked := fun j hj => hi.asked j (List.mem_of_mem_erase hj)
    nodup := hi.nodup.erase m, apart := ?_, replying := ?_, single := ?_, open_ := ?_
    stored := ?_, closed := ?_
    served := fun j y hy hrel =>
      (hi.served j y hy hrel).imp fun r hr => ⟨List.mem_append_left _ hr.1, hr.2⟩
    put := fun j info' hj => ⟨(hi.put j info' hj).1,
      (hi.put j info' hj).2.imp fun r hr => ⟨List.mem_append_left _ hr.1, hr.2⟩⟩ }
  · intro r hr hmem
    rcases hin r hr with hr | rfl
    · exact hi.apart r hr (List.mem_of_mem_erase hmem)
    · exact (List.Nodup.not_mem_erase hi.nodup) hmem
  · intro r hr
    rcases hin r hr with hr | rfl
    · exact hi.replying r hr
    · refine ⟨x, hx, rfl, rfl, ?_, ?_⟩ <;> (intro hpc; simp [hpc, Unserved] at hun)
  · intro i j q r hq hr hquery
    rcases Pool.append_cases hq with hq' | ⟨rfl, rfl⟩ <;>
      rcases Pool.append_cases hr with hr' | ⟨rfl, rfl⟩
    · exact hi.single i j q r hq' hr' hquery
    · exact absurd hquery (hnew q (List.mem_of_getElem? hq'))
    · exact absurd hquery.symm (hnew r (List.mem_of_getElem? hr'))
    · rfl
  · intro r hr hopen y hy
    rcases hin r hr with hr | rfl
    · exact hi.open_ r hr hopen y hy
    · obtain rfl : x = y := by simpa [hx] using hy
      exact hun
  · intro r hr hpc
    rcases hin r hr with hr | rfl
    · exact hi.stored r hr hpc
    · cases hpc
  · intro r hr hpc y hy
    rcases hin r hr with hr | rfl
    · exact hi.closed r hr hpc y hy
    · cases hpc

section Handled
variable {k : Nat} {r : Reply} {pc : ReplyPc}

/-- The replies after a step of one handler: its own, and those to other queries. -/
theorem Inv.replies_mem (hi : Inv kind s) (hr : s.replies[k]? = some r) {q : Reply}
    (hq : q ∈ Pool.commit s.replies k { r with pc := pc } []) :
    q = { r with pc := pc } ∨ q ∈ s.replies ∧ q.query ≠ r.query := by
  obtain ⟨j, hj⟩ := List.getElem?_of_mem hq
  rcases Pool.commit_nil_cases hj with ⟨-, rfl⟩ | ⟨hjk, hj'⟩
  · exact .inl rfl
  · exact .inr ⟨List.mem_of_getElem? hj', fun h => hjk (hi.single j k q r hj' hr h)⟩

theorem replies_kept (hr : s.replies[k]? = some r) (pc : ReplyPc) {q : Reply} (hq : q ∈ s.replies) :
    ∃ q' ∈ Pool.commit s.replies k { r with pc := pc } [], q'.query = q.query ∧ q'.info = q.info := by
  obtain ⟨j, hj⟩ := List.getElem?_of_mem hq
  by_cases hjk : j = k
  · subst hjk
    obtain rfl : r = q := by simpa [hr] using hj
    exact ⟨_, List.mem_of_getElem? (Pool.commit_self hr _ _), rfl, rfl⟩
  · exact ⟨q, List.mem_of_getElem? (Pool.commit_other hj hjk _ _), rfl, rfl⟩

/-- What a step of one reply's handler has to show for itself. -/
theorem Inv.handle (hi : Inv kind s) (hr : s.replies[k]? = some r) (_ : r.pc ≠ .done)
    (syncer : Syncer.State UInt32) (transInfo : UInt32 → Option TransInfo)
    (hsole : Sole syncer (phases (Mover.phase kind) s.movers))
    (hkeep : ∀ (j : Nat) (y : Mover) (cv : Nat), j ≠ r.query → s.movers[j]? = some y →
      y.pc = .call (.blocked cv) → syncer.waiters cv = s.syncer.waiters cv)
    (hentry : ∀ (j : Nat) (y : Mover), j ≠ r.query → s.movers[j]? = some y → y.pc.active →
      transInfo (dataHash kind y.datum) = s.transInfo (dataHash kind y.datum))
    (hown : ∀ x, s.movers[r.query]? = some x → (pc ≠ .done → Unserved syncer r.query x.pc) ∧
      (pc = .done → ¬ Unserved syncer r.query x.pc) ∧
      (Released syncer r.query x.pc ∨ pc = .notify → transInfo (dataHash kind x.datum) = some r.info)) :
    Inv kind { s with
      syncer := syncer, transInfo := transInfo
      replies := Pool.commit s.replies k { r with pc := pc } [] } := by
  have hmem : r ∈ s.replies := List.mem_of_getElem? hr
  have stands : ∀ (j : Nat) (y : Mover), j ≠ r.query → s.movers[j]? = some y →
      (Unserved syncer j y.pc ↔ Unserved s.syncer j y.pc) ∧
      (Released syncer j y.pc ↔ Released s.syncer j y.pc) :=
    fun j y hj hy => standing_congr j fun cv => hkeep j y cv hj hy
  refine { hi with
    sole := hsole, asked := ?_, apart := ?_, replying := ?_, single := ?_, open_ := ?_, stored := ?_
    closed := ?_, served := ?_, put := ?_ }
  · intro j hj
    obtain ⟨y, hy, hun⟩ := hi.asked j hj
    have hne : j ≠ r.query := fun h => hi.apart r hmem (h ▸ hj)
    exact ⟨y, hy, (stands j y hne hy).1.mpr hun⟩
  · intro q hq
    rcases hi.replies_mem hr hq with rfl | ⟨hq, -⟩
    · exact hi.apart r hmem
    · exact hi.apart q hq
  · intro q hq
    rcases hi.replies_mem hr hq with rfl | ⟨hq, -⟩
    · exact hi.replying r hmem
    · exact hi.replying q hq
  · intro i j p q hp hq hquery
    rcases Pool.commit_nil_cases hp with ⟨rfl, rfl⟩ | ⟨hik, hp'⟩ <;>
      rcases Pool.commit_nil_cases hq with ⟨rfl, rfl⟩ | ⟨hjk, hq'⟩
    · rfl
    · exact hi.single i j r q hr hq' hquery
    · exact hi.single i j p r hp' hr hquery
    · exact hi.single i j p q hp' hq' hquery
  · intro q hq hqopen y hy
    rcases hi.replies_mem hr hq with rfl | ⟨hq, hne⟩
    · exact (hown y hy).1 hqopen
    · exact (stands q.query y hne hy).1.mpr (hi.open_ q hq hqopen y hy)
  · intro q hq hpc
    rcases hi.replies_mem hr hq with rfl | ⟨hq, hne⟩
    · obtain ⟨x, hx, -, hd, -⟩ := hi.replying r hmem
      have hentry' := (hown x hx).2.2 (.inr hpc)
      rw [← hd] at hentry'
      exact hentry'
    · obtain ⟨y, hy, -, hd, -⟩ := hi.replying q hq
      have hay := (hi.open_ q hq (by simp [hpc]) y hy).active
      have hold := hi.stored q hq hpc
      rw [hd] at hold ⊢
      exact (hentry q.query y hne hy hay).trans hold
  · intro q hq hpc y hy
    rcases hi.replies_mem hr hq with rfl | ⟨hq, hne⟩
    · exact (hown y hy).2.1 hpc
    · exact fun h => hi.closed q hq hpc y hy ((stands q.query y hne hy).1.mp h)
  · intro j y hy hrel
    by_cases hj : j = r.query
    · subst hj
      exact ⟨_, List.mem_of_getElem? (Pool.commit_self hr _ _), rfl, (hown y hy).2.2 (.inl hrel)⟩
    · obtain ⟨q, hq, hquery, hinfo⟩ := hi.served j y hy ((stands j y hj hy).2.mp hrel)
      obtain ⟨q', hq', hquery', hinfo'⟩ := replies_kept hr pc hq
      refine ⟨q', hq', hquery'.trans hquery, ?_⟩
      rw [hinfo']
      exact (hentry j y hj hy hrel.active).trans hinfo
  · intro j info hj
    obtain ⟨hmover, q, hq, hquery, hinfo⟩ := hi.put j info hj
    obtain ⟨q', hq', hquery', hinfo'⟩ := replies_kept hr pc hq
    exact ⟨hmover, q', hq', hquery'.trans hquery, hinfo'.trans hinfo⟩

/-- The entry is written for the only active move of the data. -/
theorem inv_store (hi : Inv kind s) (hr : s.replies[k]? = some r) (hpc : r.pc = .inFlight) :
    Inv kind { s with
      transInfo := update s.transInfo (dataHash kind r.datum) (some r.info)
      replies := Pool.commit s.replies k { r with pc := .notify } [] } := by
  have hmem : r ∈ s.replies := List.mem_of_getElem? hr
  obtain ⟨x, hx, -, hd, -⟩ := hi.replying r hmem
  have hun := hi.open_ r hmem (by simp [hpc]) x hx
  refine hi.handle hr (by simp [hpc]) s.syncer _ hi.sole (fun _ _ _ _ _ _ => rfl) ?_ ?_
  · intro j y hj hy hay
    have hne : dataHash kind y.datum ≠ dataHash kind r.datum := fun h =>
      hi.no_clash hx hun.active j y hj hy hay (.inl (by rw [← hd, h]))
    simp [hne]
  · intro y hy
    obtain rfl : x = y := by simpa [hx] using hy
    exact ⟨fun _ => hun, (by simp), fun _ => by simp [hd]⟩

theorem inv_notify {woken : Option Nat} {syncer : Syncer.State UInt32} (hi : Inv kind s)
    (hr : s.replies[k]? = some r) (hpc : r.pc = .notify)
    (hblocked : ∀ x ∈ s.movers[r.query]?, x.pc.blocked)
    (hn : Syncer.notify s.syncer (queryPoint kind r.datum) woken = some syncer) :
    Inv kind { s with
      syncer := syncer
      replies := Pool.commit s.replies k { r with pc := .done } [] } := by
  have hmem : r ∈ s.replies := List.mem_of_getElem? hr
  obtain ⟨x, hx, -, hd, -⟩ := hi.replying r hmem
  have ha := (hi.open_ r hmem (by simp [hpc]) x hx).active
  obtain ⟨cv, hcv⟩ : ∃ cv, x.pc = .call (.blocked cv) := by
    have hb := hblocked x hx
    cases hq : x.pc with
    | call c => cases c <;> simp_all [MoverPc.blocked]
    | _ => simp [hq, MoverPc.blocked] at hb
  have hphase : phases (Mover.phase kind) s.movers r.query = .blocked (queryPoint kind x.datum) cv := by
    rw [phases_mover hx, Mover.phase, hcv]
    rfl
  rw [hd] at hn
  refine hi.handle hr (by simp [hpc]) syncer s.transInfo (Exclusive.sole_notify hi.sole hn) ?_
    (fun _ _ _ _ _ => rfl) ?_
  · intro j y c hj hy hb
    refine Exclusive.notify_spares hi.sole.toOwned (t := j) (q := queryPoint kind y.datum) ?_ ?_ hn
    · rw [phases_mover hy, Mover.phase, hb]
      rfl
    · exact fun h => hi.no_clash hx ha j y hj hy (by simp [hb, MoverPc.active]) (.inr h.symm)
  · intro y hy
    obtain rfl : x = y := by simpa [hx] using hy
    have hout := Exclusive.notify_releases hi.sole.toOwned hphase hn
    exact ⟨fun h => absurd rfl h, fun _ => by simpa [hcv, Unserved, Call.Waiting] using hout,
      fun _ => hd ▸ hi.stored r hmem hpc⟩

end Handled

theorem inv_reply {protocol : Protocol} {k : Nat} {woken : Option Nat} (hi : Inv kind s)
    (hok : Alone kind protocol s (.reply k woken)) (hs : stepReply kind s k woken = some s') :
    Inv kind s' := by
  obtain ⟨r, hr, hs⟩ := Option.bind_eq_some_iff.mp hs
  cases hpc : r.pc with
  | inFlight =>
    simp only [hpc, Option.some.injEq] at hs
    subst hs
    exact inv_store hi hr hpc
  | notify =>
    simp only [hpc, Option.map_eq_some_iff] at hs
    obtain ⟨syncer, hn, rfl⟩ := hs
    exact inv_notify hi hr hpc (hok r hr hpc) hn
  | done => simp [hpc] at hs

/-- A notification of a point no move is at changes nothing for the moves. -/
theorem inv_getDone {p : UInt32} {woken : Option Nat} {syncer : Syncer.State UInt32} (hi : Inv kind s)
    (hfree : ∀ y ∈ s.movers, y.pc.active → queryPoint kind y.datum ≠ p)
    (hn : Syncer.notify s.syncer p woken = some syncer) : Inv kind { s with syncer := syncer } := by
  have stands : ∀ (j : Nat) (y : Mover), s.movers[j]? = some y →
      (Unserved syncer j y.pc ↔ Unserved s.syncer j y.pc) ∧
      (Released syncer j y.pc ↔ Released s.syncer j y.pc) := by
    intro j y hy
    refine standing_congr j fun cv hb => ?_
    refine Exclusive.notify_spares hi.sole.toOwned (t := j) (q := queryPoint kind y.datum) ?_ ?_ hn
    · rw [phases_mover hy, Mover.phase, hb]
      rfl
    · exact hfree y (List.mem_of_getElem? hy) (by simp [hb, MoverPc.active])
  exact { hi with
    sole := Exclusive.sole_notify hi.sole hn
    asked := fun m hm => (hi.asked m hm).imp fun x hx => ⟨hx.1, (stands m x hx.1).1.mpr hx.2⟩
    open_ := fun r hr hopen x hx => (stands _ x hx).1.mpr (hi.open_ r hr hopen x hx)
    closed := fun r hr hpc x hx h => hi.closed r hr hpc x hx ((stands _ x hx).1.mp h)
    served := fun m x hx hrel => hi.served m x hx ((stands m x hx).2.mp hrel) }

theorem inv_move (t : Int32) (d : Datum) (hi : Inv kind s) :
    Inv kind { s with movers := s.movers ++ [⟨t, d, .test⟩] } := by
  have hlast : ∀ (m : Nat) (x : Mover), (s.movers ++ [⟨t, d, .test⟩])[m]? = some x →
      s.movers[m]? = some x ∨ x.pc = .test := fun m x hx =>
    (Pool.append_cases hx).imp_right fun h => by rw [h.2]
  have hkept : ∀ (m : Nat) (x : Mover), s.movers[m]? = some x →
      (s.movers ++ [⟨t, d, .test⟩])[m]? = some x := fun m x hx => Pool.append_other hx _
  have hsame : ∀ r ∈ s.replies, ∀ x, (s.movers ++ [⟨t, d, .test⟩])[r.query]? = some x →
      s.movers[r.query]? = some x := by
    intro r hr x hx
    obtain ⟨y, hy, -⟩ := hi.replying r hr
    obtain rfl : y = x := by simpa [hkept _ y hy] using hx
    exact hy
  refine { hi with
    sole := ?_, unique := ?_, known := ?_
    asked := fun m hm => (hi.asked m hm).imp fun x hx => ⟨hkept m x hx.1, hx.2⟩
    replying := fun r hr => (hi.replying r hr).imp fun x hx => ⟨hkept _ x hx.1, hx.2⟩
    open_ := fun r hr hopen x hx => hi.open_ r hr hopen x (hsame r hr x hx)
    closed := fun r hr hpc x hx => hi.closed r hr hpc x (hsame r hr x hx)
    served := ?_, finished := ?_
    put := fun m info hm => ⟨(hi.put m info hm).1.imp fun x hx => ⟨hkept m x hx.1, hx.2⟩,
      (hi.put m info hm).2⟩ }
  · rw [Exclusive.phases_append _ _ _ (by simp [Mover.phase])]
    exact hi.sole
  · intro i j x y hx hy hax hay hc
    rcases hlast i x hx with hx' | hpc
    · rcases hlast j y hy with hy' | hpc
      · exact hi.unique i j x y hx' hy' hax hay hc
      · simp [hpc, MoverPc.active] at hay
    · simp [hpc, MoverPc.active] at hax
  · intro x hx hax
    rcases List.mem_append.mp hx with hx | hx
    · exact hi.known x hx hax
    · simp [List.mem_singleton.mp hx, MoverPc.active] at hax
  · intro m x hx hrel
    rcases hlast m x hx with hx' | hpc
    · exact hi.served m x hx' hrel
    · simp [hpc, Released] at hrel
  · intro m x info hx hinfo
    rcases hlast m x hx with hx' | hpc
    · exact hi.finished m x info hx' hinfo
    · simp [hpc] at hinfo

theorem inv_step {protocol : Protocol} {a : Action} (hi : Inv kind s) (hok : Alone kind protocol s a)
    (hs : step kind protocol s a = some s') : Inv kind s' := by
  cases a with
  | record d =>
    obtain rfl := Option.some.inj hs
    refine { hi with known := fun x hx ha => ?_ }
    by_cases h : dataHash kind x.datum = dataHash kind d
    · simp [h]
    · simpa [h] using hi.known x hx ha
  | move t d =>
    obtain rfl := Option.some.inj hs
    exact inv_move t d hi
  | mover m sent => exact inv_mover hi hok hs
  | answer m info => exact inv_answer hi hs
  | reply k woken => exact inv_reply hi hok hs
  | getDone d woken =>
    simp only [step, Option.map_eq_some_iff] at hs
    obtain ⟨syncer, hn, rfl⟩ := hs
    exact inv_getDone hi hok hn
  | spurious m => exact hok.elim

/-- A move that has been let go has all it needs for its next line. -/
theorem Inv.enabled (hi : Inv kind s) (protocol : Protocol) {m : Nat} {x : Mover}
    (hx : s.movers[m]? = some x) (hrel : Released s.syncer m x.pc) :
    (step kind protocol s (.mover m true)).isSome := by
  obtain ⟨r, -, -, hinfo⟩ := hi.served m x hx hrel
  have hknown := hi.known x (List.mem_of_getElem? hx) hrel.active
  cases hpc : x.pc with
  | call c =>
    rw [hpc] at hrel
    cases c with
    | blocked cv =>
      have hout : m ∉ s.syncer.waiters cv := hrel
      simp [step, stepMover, hx, hpc, Call.step, hout]
    | del => simp [step, stepMover, hx, hpc, Call.step]
    | done => simp [step, stepMover, hx, hpc, hknown, hinfo]
    | add => exact absurd trivial hrel
    | wait => exact absurd trivial hrel
  | _ => simp [hpc, Released] at hrel

end Replies

/-- Moves that do not meet deliver each to its own destination. -/
theorem alone_delivered (kind : DataIdT) (protocol : Protocol) {s : State}
    (hr : Reaches (step kind protocol) (Alone kind protocol) init s) : Delivered kind protocol s := by
  have hi := hr.invariant (Inv kind) (inv_init kind) fun _ _ _ hi hok hs => inv_step hi hok hs
  refine ⟨?_, hi.once, ?_⟩
  · intro m info hm
    obtain ⟨⟨x, hx, -⟩, r, hr, rfl, rfl⟩ := hi.put m info hm
    obtain ⟨y, hy, hsender, hd, -⟩ := hi.replying r hr
    exact ⟨y, hy, r, hr, hsender, hd, rfl⟩
  · intro r hr hpc
    obtain ⟨x, hx, -, -, hne⟩ := hi.replying r hr
    cases hq : x.pc with
    | call c =>
      refine .inr (hi.enabled protocol hx ?_)
      simpa [hq, Unserved, Released] using hi.closed r hr hpc x hx
    | done info => exact .inl ⟨info, hi.finished _ x info hx hq⟩
    | test => exact absurd hq hne.1
    | send => exact absurd hq hne.2

def unitBox : Datum := ⟨"u", 0, .replicate 3 0, .replicate 3 1⟩

/-- The address DS `n` reports. -/
def addressOf (n : Nat) : TransInfo := ⟨"10.0.0." ++ toString n, "6000", "/tmp"⟩

/-- Two moves of one datum: the second reply overwrites the address of the first
before the first move reads it. -/
theorem put_to_the_other : ¬ ∀ s, Reaches (step .kv .tcp) free init s → Delivered .kv .tcp s := by
  intro h
  obtain ⟨s, hs, htest⟩ := Transition.run_reaches_of_any (step .kv .tcp) init
    [.record unitBox, .move 1 unitBox, .move 2 unitBox,
      .mover 0 true, .mover 0 true, .mover 0 true, .mover 0 true,
      .mover 1 true, .mover 1 true, .mover 1 true, .mover 1 true,
      .answer 0 (addressOf 1), .answer 1 (addressOf 2), .reply 0 none, .reply 1 none,
      .reply 0 (some 0), .mover 0 true, .mover 0 true, .mover 0 true]
    (fun s => decide ((0, addressOf 2) ∈ s.puts ∧ s.movers[0]?.map Mover.toId = some 1 ∧
      ∀ r ∈ s.replies, r.sender = 1 → r.info ≠ addressOf 2)) (by decide)
  obtain ⟨hput, hto, hreplies⟩ := of_decide_eq_true htest
  obtain ⟨x, hx, r, hr, hsender, -, hinfo⟩ := (h s hs).own 0 _ hput
  have htoId : x.toId = 1 := by simpa [hx] using hto
  exact hreplies r hr (hsender.trans htoId) hinfo

theorem put_to_its_own : ∃ s, s.puts = [(0, addressOf 1)] ∧ Delivered .kv .tcp s := by
  obtain ⟨s, hs, htest⟩ := Transition.runWhere_reaches_of_any (step .kv .tcp) (Alone .kv .tcp) init
    [.record unitBox, .move 1 unitBox,
      .mover 0 true, .mover 0 true, .mover 0 true, .mover 0 true,
      .answer 0 (addressOf 1), .reply 0 none, .reply 0 (some 0),
      .mover 0 true, .mover 0 true, .mover 0 true]
    (fun s => decide (s.puts = [(0, addressOf 1)])) (by decide)
  exact ⟨s, of_decide_eq_true htest, alone_delivered .kv .tcp hs⟩

end RemoteMove
