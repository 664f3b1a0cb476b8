import DataspacesWa.Transition
import DataspacesWa.Pool
import DataspacesWa.Syncer
import DataspacesWa.WASpace

/-!
# One master and its slaves

`SDMMaster` handles each message in a thread of its own, and its threads meet
in `sdm_m_syncer`, in `ds_id__moving_data_id_v_map` and in `wa_space_`. A
thread takes one step for each of these it touches. Whatever is on its way is
in the net: messages, and the transfers that moves start; any of it can arrive
next. A slave's requests and its registered apps are modelled as far as
`SDMSlave` talks to the master; what its own table answers is left open.
-/
namespace SDMControl

open Function (update)
open Patch (Datum getDataId hashStr)
open Syncer (Call)
open WASpace (ActCall DataAct Operations)

/-- The messages, each with the DS that sends it to the master or that the
master sends it to, and the transfer of a datum from one DS to another. -/
inductive Msg where
  | connUp (id : Int32)
  | regApp (id appId : Int32)
  | access (appId : Int32) (d : Datum)
  | putNotification (id pId : Int32) (d : Datum)
  | squery (id appId : Int32) (blocking : Bool) (d : Datum)
  | moveReply (id : Int32) (d : Datum)
  | delReply (d : Datum)
  | move (id toId : Int32) (d : Datum)
  | del (id : Int32) (d : Datum)
  | squeryReply (id : Int32) (d : Datum)
  | regAppReply (id appId : Int32)
  | data (fromId toId : Int32) (d : Datum)
  deriving DecidableEq, Repr

/-- What has happened, in order. -/
inductive Event where
  /-- The table of the DS has the datum, put there. -/
  | putAt (id : Int32) (d : Datum)
  /-- A transfer of the datum to the DS has come to its end. -/
  | stored (id : Int32) (d : Datum)
  /-- The DS has sent SDM_MOVE_REPLY, or called `notify_remote_get_done` at the master. -/
  | moveReplied (id : Int32) (d : Datum)
  /-- Thread `t` begins to wait for the move of the datum to the DS. -/
  | waits (t : Nat) (id : Int32) (d : Datum)
  /-- The move reply is handled, and releases this thread. -/
  | handled (id : Int32) (d : Datum) (woken : Option Nat)
  /-- Thread `t` has sent SDM_SQUERY_REPLY. -/
  | replied (t : Nat) (id : Int32) (d : Datum)
  /-- A move is started at its source. -/
  | issued (fromId toId : Int32) (d : Datum)
  /-- A put is in the space and its notification is done. -/
  | recorded (d : Datum)
  /-- A blocking query ends with `after blocking still not available`. -/
  | unavailable (d : Datum)
  /-- PUT_REPLY with the id of the DS. -/
  | acked (id : Int32) (d : Datum)
  deriving DecidableEq, Repr

/-! ## Threads of the master -/

section Threads
variable (W : Type) [Operations W]

/-- Who claims a move: `handle_sdm_squery`, or `handle_wa_space_data_act` inside an access. -/
inductive Origin where
  | squery (appId : Int32) (blocking : Bool)
  | prefetch (k : Operations.Access W)

structure Job where
  toId : Int32
  datum : Datum
  origin : Origin W

/-- The rest of a request of an app of the master itself. -/
inductive LocalReq where
  | put (d : Datum)
  | get (blocking : Bool) (d : Datum)

/-- What a thread is about to do. -/
inductive Prog where
  -- the part that `handle_sdm_squery` and `handle_wa_space_data_act` share
  | check (j : Job W)
  | push (j : Job W)
  | query (j : Job W)
  | requery (j : Job W)
  | act (j : Job W) (fromId : Int32)
  | send (j : Job W) (fromId : Int32)
  -- `wait_for_move`
  | erase (toId : Int32) (d : Datum)
  | reply (toId : Int32) (d : Datum)
  -- `sdm_mquery`, and `SDMMaster::get` around it
  | get (cId : Int32) (blocking : Bool) (d : Datum)
  | mquery (cId : Int32) (d : Datum)
  | mrequery (cId : Int32) (d : Datum)
  | mact (cId : Int32) (d : Datum) (fromId : Int32)
  | msend (cId : Int32) (d : Datum) (fromId : Int32)
  | mgot (cId : Int32) (d : Datum)
  -- `add_access`, and the other half of `handle_wa_space_data_act`
  | addAccess (cId : Int32) (d : Datum)
  | resume (k : Operations.Access W)
  | del (toId : Int32) (d : Datum) (k : Operations.Access W)
  -- puts and registrations
  | putNotification (id pId : Int32) (d : Datum)
  | notifyPut (d : Datum) (done : Bool)
  | put (pId : Int32) (d : Datum)
  | putSpace (pId : Int32) (d : Datum)
  -- `remote_get` of the master, from its put on
  | remotePut (d : Datum)
  | remoteSpace (d : Datum)
  | regAppHere (appId : Int32) (req : LocalReq)
  | regApp (id appId : Int32)
  | regAppReply (id appId : Int32)
  | connUp (id : Int32)
  -- replies
  | moveReply (id : Int32) (d : Datum)
  | delReply (d : Datum)
  | ended

/-- A thread between two steps: in the three calls at a sync point, with what
follows them, or about to do something else. -/
inductive Thread where
  | calling (p : UInt32) (c : Call) (next : Prog W)
  | run (prog : Prog W)

def dataId (d : Datum) : String := getDataId (Operations.dataIdT W) d

def queryPoint (d : Datum) : UInt32 := hashStr ("B" ++ Patch.sdmQuery ++ "_" ++ dataId W d)
def movePoint (d : Datum) : UInt32 := hashStr (Patch.sdmMove ++ "_" ++ dataId W d)
def delPoint (d : Datum) : UInt32 := hashStr (Patch.sdmDel ++ "_" ++ dataId W d)

end Threads

variable {W : Type} [Operations W]

def Origin.blocking : Origin W → Bool
  | .squery _ blocking => blocking
  | .prefetch _ => false

/-- Where the request of an app of the master goes on when the app is registered. -/
def LocalReq.prog (req : LocalReq) (appId : Int32) : Prog W :=
  match req with
  | .put d => .put appId d
  | .get blocking d => .get appId blocking d

/-- Where the thread goes on when the job is over. -/
def Job.after (j : Job W) : Prog W :=
  match j.origin with
  | .squery _ _ => .ended
  | .prefetch k => .resume k

/-- The threads that a job starts: the one of `wait_for_move`, and the one of
`add_access` where an app has asked. -/
def Job.threads (j : Job W) : List (Thread W) :=
  .calling (movePoint W j.datum) .add (.erase j.toId j.datum) ::
    match j.origin with
    | .squery appId _ => [.run (.addAccess appId j.datum)]
    | .prefetch _ => []

/-- Where an access goes on when it has called the handler of the data actions, or ended. -/
def afterAccess : Option (ActCall × Operations.Access W) → Prog W
  | none => .ended
  | some (⟨.del, toId, d⟩, k) => .del toId d k
  | some (⟨.prefetch, toId, d⟩, k) => .check ⟨toId, d, .prefetch k⟩

/-! ## Slaves -/

inductive SlaveReq where
  | put
  | get (blocking : Bool)
  deriving DecidableEq, Repr

/-- `SDMSlave::reg_app` up to `serve`, then `SDMSlave::put` or `SDMSlave::get`. -/
inductive SlavePc where
  | test | push | send | waitReg
  | serve | waitGet | reply
  | ended
  deriving DecidableEq, Repr

/-- A request of an app, handled by `handle_put` or `handle_get` of its slave. -/
structure Slave where
  id : Int32
  appId : Int32
  datum : Datum
  req : SlaveReq
  pc : SlavePc
  deriving DecidableEq, Repr

/-! ## Steps -/

structure State (W : Type) [Operations W] where
  syncer : Syncer.State UInt32
  moving : Int32 → List String
  space : W
  threads : List (Thread W)
  net : List Msg
  /-- `app_id_v` of each DS. -/
  apps : Int32 → List Int32
  slaves : List Slave
  log : List Event

/-- What a step leaves open: who is released by a notification, whether a
message can be sent, what a query table answers, what the predictor picks. -/
structure Choice where
  woken : Option Nat
  sent : Bool
  hit : Bool
  predicted : List Int32

def choice : Choice := ⟨none, true, true, []⟩

/-- A query table answers that the datum is not there. -/
def miss : Choice := { choice with hit := false }

/-- A notification releases thread `t`. -/
def wakes (t : Nat) : Choice := { choice with woken := some t }

/-- Version 0 of a key, in one cell. -/
def unitBox (key : String) : Datum := ⟨key, 0, .replicate 3 0, .replicate 3 1⟩

/-- `REMOTE_P_ID` -/
def remotePId : Int32 := -1

/-- What one step of a thread does to what the threads share. -/
structure Effect (W : Type) [Operations W] where
  thread : Thread W
  started : List (Thread W)
  syncer : Syncer.State UInt32
  moving : Int32 → List String
  space : W
  apps : Int32 → List Int32
  sent : List Msg
  events : List Event

/-- The thread goes on, and nothing else changes. -/
def goOn (s : State W) (prog : Prog W) : Effect W :=
  ⟨.run prog, [], s.syncer, s.moving, s.space, s.apps, [], []⟩

def State.apply (s : State W) (t : Nat) (e : Effect W) : State W :=
  { s with
    threads := Pool.commit s.threads t e.thread e.started
    syncer := e.syncer
    moving := e.moving
    space := e.space
    apps := e.apps
    net := s.net ++ e.sent
    log := s.log ++ e.events }

/-- The thread enters the calls at a sync point. -/
def enter (s : State W) (p : UInt32) (next : Prog W) : Effect W :=
  { goOn s next with thread := .calling p .add next }

/-- `notify`, by a thread that then goes on. -/
def notify (s : State W) (p : UInt32) (c : Choice) (next : Prog W) : Option (Effect W) :=
  (Syncer.notify s.syncer p c.woken).map fun syncer => { goOn s next with syncer := syncer }

def access (s : State W) (r : Option (W × Option (ActCall × Operations.Access W))) :
    Option (Effect W) :=
  r.map fun (space, next) => { goOn s (afterAccess next) with space := space }

/-- One step of a thread of the master `me`. -/
def effect (me : Int32) (s : State W) (t : Nat) (c : Choice) : Prog W → Option (Effect W)
  | .check j =>
    if dataId W j.datum ∈ s.moving j.toId then some (goOn s j.after) else some (goOn s (.push j))
  | .push j => some { goOn s (.query j) with
      moving := update s.moving j.toId (s.moving j.toId ++ [dataId W j.datum]) }
  | .query j =>
    match Operations.query s.space j.datum with
    | some dsIdV => dsIdV.head?.map fun fromId => goOn s (.act j fromId)
    | none =>
      if j.origin.blocking then some (enter s (queryPoint W j.datum) (.requery j))
      else some (goOn s j.after)
  | .requery j =>
    match Operations.query s.space j.datum with
    | some dsIdV => dsIdV.head?.map fun fromId => goOn s (.act j fromId)
    | none => some { goOn s j.after with events := [.unavailable j.datum] }
  | .act j fromId => some { goOn s (.send j fromId) with
      started := j.threads
      events := [.waits s.threads.length j.toId j.datum] }
  | .send j fromId =>
    if fromId = me then some { goOn s j.after with
      sent := [.data me j.toId j.datum]
      events := [.issued me j.toId j.datum] }
    else if c.sent then some { goOn s j.after with
      sent := [.move fromId j.toId j.datum]
      events := [.issued fromId j.toId j.datum] }
    else some (goOn s j.after)
  | .erase toId d =>
    -- erasing the end of the vector is undefined
    if dataId W d ∈ s.moving toId then some { goOn s (.reply toId d) with
      moving := update s.moving toId ((s.moving toId).erase (dataId W d)) }
    else none
  | .reply toId d =>
    if toId = me then some (goOn s .ended)
    else if c.sent then some { goOn s .ended with
      sent := [.squeryReply toId d]
      events := [.replied t toId d] }
    else some (goOn s .ended)
  | .get cId blocking d =>
    if cId ∈ s.apps me then
      if c.hit then some (goOn s (.addAccess cId d))
      else if blocking then some (goOn s (.mquery cId d))
      else some (goOn s .ended)
    else some (goOn s .ended)
  | .mquery cId d =>
    match Operations.query s.space d with
    | some dsIdV => dsIdV.head?.map fun fromId => goOn s (.mact cId d fromId)
    | none => some (enter s (queryPoint W d) (.mrequery cId d))
  | .mrequery cId d =>
    match Operations.query s.space d with
    | some dsIdV => dsIdV.head?.map fun fromId => goOn s (.mact cId d fromId)
    | none => some { goOn s .ended with events := [.unavailable d] }
  | .mact cId d fromId =>
    some { goOn s (if fromId = me then .mgot cId d else .msend cId d fromId) with
      started := [.run (.addAccess cId d)] }
  | .msend cId d fromId =>
    if c.sent then some { enter s (movePoint W d) (.mgot cId d) with
      sent := [.move fromId me d]
      events := [.issued fromId me d, .waits t me d] }
    else some (goOn s .ended)
  | .mgot cId d => some (goOn s (if c.hit then .addAccess cId d else .ended))
  | .addAccess cId d => access s (Operations.addAccess s.space cId d c.predicted)
  | .resume k => access s (Operations.resume s.space k c.predicted)
  | .del toId d k =>
    if toId = me then some (goOn s (.resume k))
    else if c.sent then some { enter s (delPoint W d) (.resume k) with sent := [.del toId d] }
    else some (goOn s (.resume k))
  | .putNotification _ pId d =>
    (Operations.put s.space pId d).map fun (space, done) =>
      { goOn s (.notifyPut d done) with space := space }
  | .notifyPut d done =>
    (notify s (queryPoint W d) c .ended).map fun e =>
      { e with events := if done then [.recorded d] else [] }
  | .put pId d =>
    -- the query table refuses an empty box
    if Patch.isValidBox d = false then some (goOn s .ended)
    else (notify s (queryPoint W d) c (.putSpace pId d)).map fun e =>
      { e with events := [.putAt me d] }
  | .putSpace pId d =>
    (Operations.put s.space pId d).map fun (space, done) =>
      { goOn s .ended with space := space, events := if done then [.recorded d] else [] }
  | .remotePut d =>
    if Patch.isValidBox d = false then some (goOn s .ended)
    else notify s (queryPoint W d) c (.remoteSpace d)
  | .remoteSpace d =>
    (Operations.put s.space remotePId d).map fun (space, done) =>
      -- `remote_get` returns without the notification of the move where the put is refused
      { goOn s (if done then .moveReply me d else .ended) with
        space := space
        events := if done then [.recorded d, .moveReplied me d] else [] }
  | .regAppHere appId req =>
    if appId ∈ s.apps me then some (goOn s (req.prog appId))
    else
      match Operations.regApp s.space appId me with
      | none => some (goOn s (req.prog appId))
      | some space => some { goOn s (req.prog appId) with
          space := space
          apps := update s.apps me (s.apps me ++ [appId]) }
  | .regApp id appId =>
    match Operations.regApp s.space appId id with
    | none => some (goOn s .ended)
    | some space => some { goOn s (.regAppReply id appId) with space := space }
  | .regAppReply id appId =>
    some { goOn s .ended with sent := if c.sent then [.regAppReply id appId] else [] }
  | .connUp id => some { goOn s .ended with space := Operations.regDs s.space id }
  | .moveReply id d =>
    (notify s (movePoint W d) c .ended).map fun e => { e with events := [.handled id d c.woken] }
  | .delReply d => notify s (delPoint W d) c .ended
  | .ended => none

def threadStep (me : Int32) (s : State W) (t : Nat) (c : Choice) : Option (State W) :=
  s.threads[t]?.bind fun
    | .run prog => (effect me s t c prog).map (s.apply t)
    | .calling _ .done next => some (s.apply t (goOn s next))
    | .calling p call next =>
      (call.step s.syncer p t).map fun (call', syncer) =>
        s.apply t { goOn s next with thread := .calling p call' next, syncer := syncer }

def spurious (s : State W) (t : Nat) : Option (State W) :=
  match s.threads[t]? with
  | some (.calling _ (.blocked cv) _) =>
    (Syncer.spurious s.syncer cv t).map fun syncer => { s with syncer := syncer }
  | _ => none

/-- One step of a request at its slave. -/
def slaveStep (s : State W) (i : Nat) (c : Choice) : Option (State W) :=
  s.slaves[i]?.bind fun x =>
    let s' (pc : SlavePc) : State W := { s with slaves := s.slaves.set i { x with pc := pc } }
    match x.pc with
    | .test => some (s' (if x.appId ∈ s.apps x.id then .serve else .push))
    | .push => some { s' .send with apps := update s.apps x.id (s.apps x.id ++ [x.appId]) }
    | .send =>
      if c.sent then some { s' .waitReg with net := s.net ++ [.regApp x.id x.appId] }
      else some (s' .serve)
    | .waitReg => some (s' .serve)
    | .serve =>
      match x.req with
      | .put =>
        if c.sent then some { s' .reply with
          net := s.net ++ [.putNotification x.id x.appId x.datum]
          log := s.log ++ [.putAt x.id x.datum] }
        else some { s' .ended with log := s.log ++ [.putAt x.id x.datum] }
      | .get blocking =>
        if c.hit then some { s' .ended with
          net := if c.sent then s.net ++ [.access x.appId x.datum] else s.net }
        else if c.sent then some { s' .waitGet with
          net := s.net ++ [.squery x.id x.appId blocking x.datum] }
        else some (s' .ended)
    | .waitGet => some (s' .ended)
    | .reply => some { s' .ended with log := s.log ++ [.acked x.id x.datum] }
    | .ended => none

/-- A delivered reply wakes the requests of its slave that wait for it. -/
def wakeGet (id : Int32) (data : String) (x : Slave) : Slave :=
  if x.id = id ∧ x.pc = .waitGet ∧ dataId W x.datum = data then { x with pc := .ended } else x

def wakeReg (id appId : Int32) (x : Slave) : Slave :=
  if x.id = id ∧ x.pc = .waitReg ∧ x.appId = appId then { x with pc := .serve } else x

/-- A message that the master handles in a new thread. -/
def Msg.handler : Msg → Option (Prog W)
  | .connUp id => some (.connUp id)
  | .regApp id appId => some (.regApp id appId)
  | .access appId d => some (.addAccess appId d)
  | .putNotification id pId d => some (.putNotification id pId d)
  | .squery id appId blocking d => some (.check ⟨id, d, .squery appId blocking⟩)
  | .moveReply id d => some (.moveReply id d)
  | .delReply d => some (.delReply d)
  | _ => none

/-- The message is taken from the net and handled where it goes. -/
def deliver (me : Int32) (s : State W) (i : Nat) (c : Choice) : Option (State W) :=
  s.net[i]?.map fun msg =>
    let s' : State W := { s with net := s.net.eraseIdx i }
    match msg with
    | .move id toId d => { s' with net := s'.net ++ [.data id toId d] }
    | .data _ toId d =>
      let stored : State W := { s' with log := s.log ++ [.stored toId d] }
      if toId = me then { stored with threads := s.threads ++ [.run (.remotePut d)] }
      else if c.sent then { stored with
        net := s'.net ++ [.moveReply toId d]
        log := stored.log ++ [.moveReplied toId d] }
      else stored
    | .del _ d => if c.sent then { s' with net := s'.net ++ [.delReply d] } else s'
    | .squeryReply id d => { s' with slaves := s.slaves.map (wakeGet (W := W) id (dataId W d)) }
    | .regAppReply id appId => { s' with slaves := s.slaves.map (wakeReg id appId) }
    | msg =>
      match Msg.handler (W := W) msg with
      | some prog => { s' with threads := s.threads ++ [.run prog] }
      | none => s'

/-- A transfer can fail on its way. -/
def lose (s : State W) (i : Nat) : Option (State W) :=
  s.net[i]?.bind fun
    | .data _ _ _ => some { s with net := s.net.eraseIdx i }
    | _ => none

/-- What comes from outside: a slave connects, or an app of a DS sends a request. -/
inductive Request where
  | connUp (id : Int32)
  | put (id appId : Int32) (d : Datum)
  | get (id appId : Int32) (blocking : Bool) (d : Datum)
  deriving DecidableEq, Repr

def arrive (me : Int32) (s : State W) : Request → State W
  | .connUp id => { s with net := s.net ++ [.connUp id] }
  | .put id appId d =>
    if id = me then { s with threads := s.threads ++ [.run (.regAppHere appId (.put d))] }
    else { s with slaves := s.slaves ++ [⟨id, appId, d, .put, .test⟩] }
  | .get id appId blocking d =>
    if id = me then { s with threads := s.threads ++ [.run (.regAppHere appId (.get blocking d))] }
    else { s with slaves := s.slaves ++ [⟨id, appId, d, .get blocking, .test⟩] }

inductive Action where
  | thread (t : Nat) (c : Choice)
  | spurious (t : Nat)
  | deliver (i : Nat) (c : Choice)
  | lose (i : Nat)
  | slave (i : Nat) (c : Choice)
  | arrive (r : Request)

def step (me : Int32) (s : State W) : Action → Option (State W)
  | .thread t c => threadStep me s t c
  | .spurious t => spurious s t
  | .deliver i c => deliver me s i c
  | .lose i => lose s i
  | .slave i c => slaveStep s i c
  | .arrive r => some (arrive me s r)

/-- The constructor of `SDMMaster` registers the master's own DS in an empty space. -/
def init (me : Int32) (w : W) : State W where
  syncer := Syncer.empty
  moving _ := []
  space := Operations.regDs w me
  threads := []
  net := []
  apps _ := []
  slaves := []
  log := []

end SDMControl
