import DataspacesWa.MoveReply

/-!
# The moving sets and the moves in progress

The mark that a datum is moving to a destination is to be there once as long as
a request for it is at work or its move is in progress, and not otherwise. A
move in progress is a token that passes from the sender to the source, to the
destination and back; its mark is held by the wait at the master.
-/
namespace MovingSet

open Patch (Datum)
open Transition (Reaches free)
open WASpace (Operations)
open SDMControl ControlSteps Custody
open MoveReply (Alone moveWait moveWait_iff moves)

variable {W : Type} [Operations W]

/-- What a request for the datum at the destination does before its move is started. -/
def requests (me : Int32) : Prog W → Option Key
  | .query j => some (keyOf W j.toId j.datum)
  | .requery j => some (keyOf W j.toId j.datum)
  | .act j _ => some (keyOf W j.toId j.datum)
  | .mquery _ d => some (keyOf W me d)
  | .mrequery _ d => some (keyOf W me d)
  | .mact _ d _ => some (keyOf W me d)
  | .msend _ d _ => some (keyOf W me d)
  | _ => none

/-- A move in progress, in a thread of the master: about to be sent, or with its reply received. -/
def carries (me : Int32) : Prog W → Option Key
  | .send j _ => some (keyOf W j.toId j.datum)
  | .remotePut d => some (keyOf W me d)
  | .remoteSpace d => some (keyOf W me d)
  | .moveReply id d => some (keyOf W id d)
  | _ => none

/-- A move in progress, in the net. -/
def carried : Msg → Option Key
  | .move _ toId d => some (keyOf W toId d)
  | .data _ toId d => some (keyOf W toId d)
  | .moveReply id d => some (keyOf W id d)
  | _ => none

def carrier (me : Int32) (k : Key) (th : Thread W) : Bool := decide (carries me (todo th) = some k)

variable (W) in
def messenger (k : Key) (m : Msg) : Bool := decide (carried (W := W) m = some k)

/-- The moves of the datum to the destination that have neither completed nor failed. -/
def inProgress (me : Int32) (s : State W) (k : Key) : Nat :=
  s.net.countP (messenger W k) + s.threads.countP (carrier me k)

/-- The wait for the move is over, and its thread has the mark to take away. -/
def Leaving (s : State W) (k : Key) : Prop :=
  ∃ (u : Nat) (th : Thread W) (d : Datum), s.threads[u]? = some th ∧ todo th = .erase k.1 d ∧
    dataId W d = k.2 ∧ waiting s u = none

/-- A request for the datum at the destination is being processed. -/
def Processed (me : Int32) (s : State W) (k : Key) : Prop :=
  (∃ th ∈ s.threads, requests me (todo th) = some k) ∨ 0 < inProgress me s k ∨ Leaving s k

/-- The datum is marked once while a request for it is being processed and not otherwise, and
one move of it is in progress at a time. -/
structure Accurate (me : Int32) (s : State W) : Prop where
  once : ∀ k, Processed me s k → places s k = 1
  absent : ∀ k, ¬ Processed me s k → places s k = 0
  single : ∀ k, inProgress me s k ≤ 1

/-- The mark that a handler has not found and is about to make. -/
def marks : Prog W → Option Key
  | .push j => some (keyOf W j.toId j.datum)
  | _ => none

def marker (k : Key) (th : Thread W) : Bool := decide (marks (todo th) = some k)

def claims (s : State W) (k : Key) : Nat := s.threads.countP (marker k)

/-- Move replies find their own waits, no job ends with its datum unavailable, no move is lost, no
two handlers find the same datum unmarked, and the master's own apps do not block for theirs. -/
def Orderly (me : Int32) (s : State W) (a : Action) : Prop :=
  Alone me s a ∧
    match a with
    | .thread t c =>
      match s.threads[t]? with
      | some (.run (.check j)) => dataId W j.datum ∈ s.moving j.toId ∨ claims s (keyOf W j.toId j.datum) = 0
      | some (.run (.send _ fromId)) => fromId = me ∨ c.sent = true
      | some (.run (.get _ blocking _)) => c.hit = true ∨ blocking = false
      | some (.run (.remotePut d)) => Patch.isValidBox d = true
      | some (.run (.remoteSpace d)) => (Operations.put s.space remotePId d).any Prod.snd = true
      | some (.run prog) => Goes s prog
      | _ => True
    | .deliver i c =>
      match s.net[i]? with
      | some (.data _ toId _) => toId = me ∨ c.sent = true
      | _ => True
    | .lose _ => False
    | _ => True

instance (me : Int32) (s : State W) (a : Action) : Decidable (Orderly me s a) := by
  unfold Orderly
  refine @instDecidableAnd _ _ inferInstance ?_
  induction a using SDMControl.Action.casesOn with
  | thread t c =>
    dsimp only
    generalize s.threads[t]? = th
    refine match th with
    | none => .isTrue trivial
    | some (.calling _ _ _) => .isTrue trivial
    | some (.run prog) => ?_
    induction prog using Prog.casesOn with
    | check j => exact instDecidableOr
    | send j fromId => exact instDecidableOr
    | get cId blocking d => exact instDecidableOr
    | remotePut d => exact decEq _ true
    | remoteSpace d => exact decEq _ true
    | _ => exact decidableGoes s _
  | deliver i c =>
    dsimp only
    generalize s.net[i]? = m
    refine match m with
    | none => .isTrue trivial
    | some msg => ?_
    induction msg using Msg.casesOn with
    | data fromId toId d => exact instDecidableOr
    | _ => exact .isTrue trivial
  | lose i => exact .isFalse not_false
  | _ => exact .isTrue trivial

/-- The steps of `sdm_mquery`, which marks nothing. -/
def asking : Prog W → Bool
  | .mquery _ _ => true
  | .mrequery _ _ => true
  | .mact _ _ _ => true
  | .msend _ _ _ => true
  | .mgot _ _ => true
  | _ => false

structure Inv (me : Int32) (s : State W) : Prop where
  tidy : Tidy s
  accounted : Accounted s
  claimed : ∀ k, places s k + claims s k ≤ 1
  unasked : ∀ th ∈ s.threads, asking (todo th) = false
  single : ∀ k, inProgress me s k ≤ 1
  awaited : ∀ k, 0 < inProgress me s k ↔ ∃ u, moveWait me s u = some k

theorem inv_init (me : Int32) (w : W) : Inv me (init me w) where
  tidy := tidy_init me w
  accounted := accounted_init me w
  claimed _ := by simp [places, claims, init]
  unasked _ h := by simp [init] at h
  single _ := by simp [inProgress, init]
  awaited k := by simp [inProgress, init, moveWait, waiting]

section Inv
variable {me : Int32} {s s' : State W} {t : Nat} {c : Choice} {k : Key}

/-- A mark has one holder. -/
theorem Inv.holder_unique (hi : Inv me s) {u v : Nat} {x y : Thread W} (hu : s.threads[u]? = some x)
    (hx : holds (todo x) = some k) (hv : s.threads[v]? = some y) (hy : holds (todo y) = some k) : u = v := by
  have hone : s.threads.countP (holder k) ≤ 1 := by
    have hplaces : places s k = s.threads.countP (holder k) := hi.accounted k
    have := hi.claimed k
    omega
  exact Pool.eq_of_countP_le_one hone hu (decide_eq_true hx) hv (decide_eq_true hy)

/-- Who waits for a move holds its mark. -/
theorem Inv.waits_holds (hi : Inv me s) {u : Nat} (hu : moveWait me s u = some k) :
    ∃ th, s.threads[u]? = some th ∧ holds (todo th) = some k := by
  obtain ⟨next, hw, hk⟩ := moveWait_iff.mp hu
  obtain ⟨p, call, hth, -⟩ := waiting_iff.mp hw
  refine ⟨_, hth, ?_⟩
  have hno := hi.unasked _ (List.mem_of_getElem? hth)
  cases next <;> first | exact hk | (cases hk; done) | cases hno

theorem Inv.place_held (hi : Inv me s) (h : ∃ th ∈ s.threads, holds (todo th) = some k) : places s k = 1 := by
  have hplaces : places s k = s.threads.countP (holder k) := hi.accounted k
  have hone := hi.claimed k
  obtain ⟨th, hth, hk⟩ := h
  have hpos : 0 < s.threads.countP (holder k) := List.countP_pos_iff.mpr ⟨th, hth, decide_eq_true hk⟩
  omega

theorem Inv.accurate (hi : Inv me s) : Accurate me s where
  once k h := by
    refine hi.place_held ?_
    rcases h with ⟨th, hth, hk⟩ | hpos | ⟨u, th, d, hu, htodo, hd, -⟩
    · refine ⟨th, hth, ?_⟩
      have hno := hi.unasked th hth
      cases htodo : todo th <;> rw [htodo] at hk hno <;> first | exact hk | (cases hk; done) | cases hno
    · obtain ⟨u, hu⟩ := (hi.awaited k).mp hpos
      obtain ⟨th, hth, hk⟩ := hi.waits_holds hu
      exact ⟨th, List.mem_of_getElem? hth, hk⟩
    · refine ⟨th, List.mem_of_getElem? hu, ?_⟩
      rw [htodo]
      exact congrArg some (Prod.ext rfl hd)
  absent k h := by
    by_contra hpos
    have hplaces : places s k = s.threads.countP (holder k) := hi.accounted k
    obtain ⟨th, hth, hold⟩ := List.countP_pos_iff.mp (by omega : 0 < s.threads.countP (holder k))
    have hk : holds (todo th) = some k := of_decide_eq_true hold
    obtain ⟨u, hu⟩ := List.getElem?_of_mem hth
    refine h ?_
    cases htodo : todo th <;> rw [htodo] at hk
    case erase toId d =>
      obtain rfl := Option.some.inj hk
      cases hw : waiting s u with
      | none => exact .inr (.inr ⟨u, th, d, hu, htodo, rfl, hw⟩)
      | some next =>
        obtain ⟨p, call, hu', -⟩ := waiting_iff.mp hw
        obtain rfl := Option.some.inj (hu.symm.trans hu')
        obtain rfl : next = .erase toId d := htodo
        exact .inr (.inl ((hi.awaited _).mpr ⟨u, moveWait_iff.mpr ⟨_, hw, rfl⟩⟩))
    all_goals first
      | exact .inl ⟨th, hth, by rw [htodo]; exact hk⟩
      | cases hk
  single := hi.single

end Inv

/-! ## Steps of threads -/

/-- No mark is about to be made, no move to be sent, and no `sdm_mquery` is going on. -/
def plain (me : Int32) (prog : Prog W) : Prop := marks prog = none ∧ carries me prog = none ∧ asking prog = false

theorem plain_after (me : Int32) (j : Job W) : plain me j.after := by
  unfold Job.after
  split <;> exact ⟨rfl, rfl, rfl⟩

theorem plain_afterAccess (me : Int32) (r : Option (WASpace.ActCall × Operations.Access W)) :
    plain me (afterAccess r) := by
  unfold afterAccess
  split <;> exact ⟨rfl, rfl, rfl⟩

theorem plain_local (me : Int32) (req : LocalReq) (appId : Int32) : plain me (req.prog appId : Prog W) := by
  unfold LocalReq.prog
  split <;> exact ⟨rfl, rfl, rfl⟩

/-- The steps that are about to send a move, or to bring it to its end at the master. -/
def conveys : Prog W → Bool
  | .act _ _ | .remotePut _ | .remoteSpace _ => true
  | _ => false

/-- A mark is about to be made after the test for it, a move is carried on after it is decided on, and
`sdm_mquery` is entered from `get`. -/
theorem next_cases (me : Int32) {prog next : Prog W} (h : Next prog next) :
    (∃ j, prog = .check j ∧ next = .push j) ∨ (conveys prog = true ∧ marks next = none ∧ asking next = false) ∨
      plain me next ∨
      asking next = true ∧ (asking prog = true ∨ ∃ cId blocking d, prog = .get cId blocking d) := by
  cases prog <;> simp only [Next] at h
  case check j =>
    rcases h with rfl | rfl
    · exact .inr (.inr (.inl (plain_after me j)))
    · exact .inl ⟨j, rfl, rfl⟩
  case act j fromId =>
    subst h
    exact .inr (.inl ⟨rfl, rfl, rfl⟩)
  case remotePut | remoteSpace =>
    rcases h with rfl | h
    · exact .inr (.inl ⟨rfl, rfl, rfl⟩)
    · first
        | (subst h; exact .inr (.inl ⟨rfl, rfl, rfl⟩))
        | (obtain ⟨_, rfl⟩ := h; exact .inr (.inl ⟨rfl, rfl, rfl⟩))
  case query j =>
    rcases h with ⟨_, rfl⟩ | rfl | rfl
    · exact .inr (.inr (.inl ⟨rfl, rfl, rfl⟩))
    · exact .inr (.inr (.inl ⟨rfl, rfl, rfl⟩))
    · exact .inr (.inr (.inl (plain_after me j)))
  case requery j =>
    rcases h with ⟨_, rfl⟩ | rfl
    · exact .inr (.inr (.inl ⟨rfl, rfl, rfl⟩))
    · exact .inr (.inr (.inl (plain_after me j)))
  case send j fromId =>
    subst h
    exact .inr (.inr (.inl (plain_after me j)))
  case regAppHere appId req =>
    subst h
    exact .inr (.inr (.inl (plain_local me req appId)))
  case addAccess | resume =>
    obtain ⟨r, rfl⟩ := h
    exact .inr (.inr (.inl (plain_afterAccess me r)))
  case get cId blocking d =>
    rcases h with rfl | rfl | rfl
    · exact .inr (.inr (.inl ⟨rfl, rfl, rfl⟩))
    · exact .inr (.inr (.inr ⟨rfl, .inr ⟨cId, blocking, d, rfl⟩⟩))
    · exact .inr (.inr (.inl ⟨rfl, rfl, rfl⟩))
  case mquery | mrequery =>
    rcases h with ⟨_, rfl⟩ | rfl
    · exact .inr (.inr (.inr ⟨rfl, .inl rfl⟩))
    · first | exact .inr (.inr (.inl ⟨rfl, rfl, rfl⟩)) | exact .inr (.inr (.inr ⟨rfl, .inl rfl⟩))
  case mact | msend | mgot | put | regApp =>
    rcases h with rfl | rfl <;>
      first | exact .inr (.inr (.inl ⟨rfl, rfl, rfl⟩)) | exact .inr (.inr (.inr ⟨rfl, .inl rfl⟩))
  case putNotification =>
    obtain ⟨_, rfl⟩ := h
    exact .inr (.inr (.inl ⟨rfl, rfl, rfl⟩))
  all_goals
    subst h
    exact .inr (.inr (.inl ⟨rfl, rfl, rfl⟩))

theorem asking_plain (me : Int32) {prog : Prog W} (h : asking prog = true) :
    marks prog = none ∧ carries me prog = none := by
  cases prog <;> first | exact ⟨rfl, rfl⟩ | cases h

/-- The move that a step of the master sends on its way or is about to send. -/
def starts (me : Int32) : Prog W → Option Key
  | .act j _ => some (keyOf W j.toId j.datum)
  | .send j _ => some (keyOf W j.toId j.datum)
  | .remotePut d => some (keyOf W me d)
  | .remoteSpace d => some (keyOf W me d)
  | _ => none

section Effect
variable {me : Int32} {s : State W} {t : Nat} {c : Choice} {prog : Prog W} {e : Effect W} {k : Key}

/-- A thread that is started marks nothing and carries no move. -/
theorem started_none (he : effect me s t c prog = some e) :
    e.started.countP (marker k) = 0 ∧ e.started.countP (carrier me k) = 0 := by
  constructor
  all_goals
    refine List.countP_eq_zero.mpr fun th hth => ?_
    rcases effect_started_mem he hth with ⟨_, _, _, rfl⟩ | ⟨_, _, rfl⟩ <;> simp [marker, carrier, todo, marks, carries]

/-- A mark is about to be made only where it has not been found. -/
theorem effect_marks (he : effect me s t c prog = some e) (hk : marks (todo e.thread) = some k) :
    ∃ j, prog = .check j ∧ k = keyOf W j.toId j.datum ∧ dataId W j.datum ∉ s.moving j.toId ∧ e.moving = s.moving := by
  rcases next_cases me (effect_next he) with ⟨j, rfl, hn⟩ | ⟨-, hn, -⟩ | hn | ⟨hn, -⟩
  · rw [hn] at hk
    simp only [effect] at he
    split at he <;> obtain rfl := Option.some.inj he
    · have hafter : marks (todo (goOn s j.after).thread) = none := (plain_after me j).1
      rw [hn] at hafter
      cases hafter
    · rename_i hno
      exact ⟨j, rfl, (Option.some.inj hk).symm, hno, rfl⟩
  · cases hn.symm.trans hk
  · cases hn.1.symm.trans hk
  · cases (asking_plain me hn).1.symm.trans hk

/-- What a step carries on of a move in progress: that of the move it starts, or sends. -/
theorem effect_carries (he : effect me s t c prog = some e)
    (hsend : ∀ j fromId, prog = .send j fromId → fromId = me ∨ c.sent = true)
    (hbox : ∀ d, prog = .remotePut d → Patch.isValidBox d = true)
    (hput : ∀ d, prog = .remoteSpace d → (Operations.put s.space remotePId d).any Prod.snd = true)
    (hno : asking prog = false) :
    e.sent.countP (messenger W k) +
        (if carries me (todo e.thread) = some k then 1 else 0) = if starts me prog = some k then 1 else 0 := by
  by_cases hact : ∃ j fromId, prog = .act j fromId
  · obtain ⟨j, fromId, rfl⟩ := hact
    obtain rfl := Option.some.inj he
    simp [goOn, todo, carries, starts]
  by_cases hremote : ∃ d, prog = .remotePut d
  · obtain ⟨d, rfl⟩ := hremote
    simp only [effect, hbox d rfl, Bool.true_eq_false, if_false, notify, Option.map_eq_some_iff] at he
    obtain ⟨_, -, rfl⟩ := he
    simp [goOn, todo, carries, starts]
  by_cases hspace : ∃ d, prog = .remoteSpace d
  · obtain ⟨d, rfl⟩ := hspace
    obtain ⟨⟨w, done⟩, hw, rfl⟩ := Option.map_eq_some_iff.mp he
    have hdone : done = true := by simpa [hw] using hput d rfl
    simp [hdone, goOn, todo, carries, starts]
  by_cases hprog : ∃ j fromId, prog = .send j fromId
  · obtain ⟨j, fromId, rfl⟩ := hprog
    have hafter : carries me (todo (goOn s j.after).thread) = none := (plain_after me j).2.1
    simp only [effect] at he
    split at he
    · obtain rfl := Option.some.inj he
      simp [hafter, messenger, carried, starts, List.countP_cons]
    · rename_i hfrom
      rw [if_pos ((hsend j fromId rfl).resolve_left hfrom)] at he
      obtain rfl := Option.some.inj he
      simp [hafter, messenger, carried, starts, List.countP_cons]
  · have hstarts : starts me prog = none := by
      cases prog <;> first
        | rfl
        | exact absurd ⟨_, _, rfl⟩ hact
        | exact absurd ⟨_, _, rfl⟩ hprog
        | exact absurd ⟨_, rfl⟩ hremote
        | exact absurd ⟨_, rfl⟩ hspace
    have hsent : e.sent.countP (messenger W k) = 0 := by
      refine List.countP_eq_zero.mpr fun m hm => ?_
      rcases effect_sent he hm with ⟨j, fromId, rfl, -⟩ | ⟨_, _, -, rfl⟩ | ⟨_, _, _, rfl, -⟩ | ⟨_, _, _, -, rfl⟩ |
        ⟨_, _, -, rfl⟩
      · exact absurd ⟨j, fromId, rfl⟩ hprog
      · simp [messenger, carried]
      · cases hno
      · simp [messenger, carried]
      · simp [messenger, carried]
    have hcarries : carries me (todo e.thread) = none := by
      rcases next_cases me (effect_next he) with ⟨j, -, hn⟩ | ⟨hn, -⟩ | hn | ⟨hn, -⟩
      · rw [hn]
        rfl
      · cases prog <;> first
          | (cases hn; done)
          | exact absurd ⟨_, _, rfl⟩ hact
          | exact absurd ⟨_, rfl⟩ hremote
          | exact absurd ⟨_, rfl⟩ hspace
      · exact hn.2.1
      · exact (asking_plain me hn).2
    simp [hsent, hcarries, hstarts]

/-- Marks that are there or about to be made stay one at most. -/
theorem claimed_effect (hi : Inv me s) (hok : Orderly me s (.thread t c)) (ht : s.threads[t]? = some (.run prog))
    (he : effect me s t c prog = some e) : places (s.apply t e) k + claims (s.apply t e) k ≤ 1 := by
  have hcount := Pool.commit_countP ht (marker k) e.thread e.started
  rw [(started_none he).1] at hcount
  have hold := hi.claimed k
  have hclaims : claims (s.apply t e) k = (Pool.commit s.threads t e.thread e.started).countP (marker k) := rfl
  have hwas : claims s k = s.threads.countP (marker k) := rfl
  by_cases hnew : marks (todo e.thread) = some k
  · obtain ⟨j, rfl, rfl, hout, hmoving⟩ := effect_marks he hnew
    have hfree : claims s (keyOf W j.toId j.datum) = 0 := by
      have := hok.2
      simp only [ht] at this
      exact this.resolve_left hout
    have hplace : places (s.apply t e) (keyOf W j.toId j.datum) = 0 := by
      show (e.moving j.toId).count (dataId W j.datum) = 0
      rw [hmoving]
      exact List.count_eq_zero.mpr hout
    have hmark : marker (keyOf W j.toId j.datum) e.thread = true := decide_eq_true hnew
    rw [if_pos hmark] at hcount
    omega
  · have hgone : marker k e.thread = false := by simp [marker, hnew]
    have hsame : e.moving = s.moving → places (s.apply t e) k = places s k := fun h => by
      show (e.moving k.1).count k.2 = (s.moving k.1).count k.2
      rw [h]
    rw [hgone] at hcount
    simp only [Bool.false_eq_true, if_false] at hcount
    rcases effect_moving he with h | ⟨j, rfl, h⟩ | ⟨toId, d, rfl, hin, h⟩
    · have := hsame h
      omega
    · have hplace : places (s.apply t e) k = places s k + if keyOf W j.toId j.datum = k then 1 else 0 := by
        show (e.moving k.1).count k.2 = _
        rw [h]
        exact count_push _ _ _ _
      have hwasMarker : (if marker k (.run (.push j)) = true then 1 else 0) = if keyOf W j.toId j.datum = k then 1 else 0 := by
        simp [marker, todo, marks]
      omega
    · have hplace : places (s.apply t e) k + (if keyOf W toId d = k then 1 else 0) = places s k := by
        show (e.moving k.1).count k.2 + _ = _
        rw [h]
        exact count_erase hin _
      omega

theorem Orderly.goes (hok : Orderly me s (.thread t c)) (ht : s.threads[t]? = some (.run prog)) : Goes s prog := by
  have hgo := hok.2
  simp only [ht] at hgo
  cases prog <;> first | exact hgo | trivial

theorem unasked_effect (hi : Inv me s) (hok : Orderly me s (.thread t c)) (ht : s.threads[t]? = some (.run prog))
    (he : effect me s t c prog = some e) : ∀ th ∈ (s.apply t e).threads, asking (todo th) = false := by
  intro th hth
  obtain ⟨u, hu⟩ := List.getElem?_of_mem hth
  rcases Pool.commit_cases hu with ⟨-, rfl⟩ | ⟨-, hold⟩ | ⟨-, hstarted⟩
  · rcases next_cases me (effect_next he) with ⟨j, -, hn⟩ | ⟨-, -, hn⟩ | hn | ⟨-, hprog | ⟨cId, blocking, d, rfl⟩⟩
    · rw [hn]
      rfl
    · exact hn
    · exact hn.2.2
    · cases (hi.unasked _ (List.mem_of_getElem? ht)).symm.trans hprog
    · have hget := hok.2
      simp only [ht] at hget
      simp only [effect] at he
      split at he
      · split at he
        · obtain rfl := Option.some.inj he
          rfl
        · rename_i hmiss
          rw [if_neg (by simp [hget.resolve_left hmiss])] at he
          obtain rfl := Option.some.inj he
          rfl
      · obtain rfl := Option.some.inj he
        rfl
  · exact hi.unasked th (List.mem_of_getElem? hold)
  · rcases effect_started_mem he hstarted with ⟨_, _, _, rfl⟩ | ⟨_, _, rfl⟩ <;> rfl

/-- A step begins a move with its wait, ends both, or changes neither. -/
theorem inProgress_effect (hi : Inv me s) (hok : Orderly me s (.thread t c))
    (ht : s.threads[t]? = some (.run prog)) (he : effect me s t c prog = some e) :
    inProgress me (s.apply t e) k + (if carries me prog = some k then 1 else 0) =
      inProgress me s k + if starts me prog = some k then 1 else 0 := by
  have hsend : ∀ j fromId, prog = .send j fromId → fromId = me ∨ c.sent = true := by
    rintro j fromId rfl
    simpa [ht] using hok.2
  have hbox : ∀ d, prog = .remotePut d → Patch.isValidBox d = true := by
    rintro d rfl
    simpa [ht] using hok.2
  have hput : ∀ d, prog = .remoteSpace d → (Operations.put s.space remotePId d).any Prod.snd = true := by
    rintro d rfl
    simpa only [ht] using hok.2
  have hcarries := effect_carries (k := k) he hsend hbox hput (hi.unasked _ (List.mem_of_getElem? ht))
  have hcount := Pool.commit_countP ht (carrier me k) e.thread e.started
  rw [(started_none he).2] at hcount
  have hthread : (if carrier me k e.thread = true then 1 else 0) = if carries me (todo e.thread) = some k then 1 else 0 := by
    simp [carrier]
  have hprog : (if carrier me k (.run prog) = true then 1 else 0) = if carries me prog = some k then 1 else 0 := by
    simp only [carrier, decide_eq_true_eq]
    rfl
  have hnet : inProgress me (s.apply t e) k = s.net.countP (messenger W k) +
      e.sent.countP (messenger W k) +
      (Pool.commit s.threads t e.thread e.started).countP (carrier me k) := by
    simp [inProgress, State.apply]
  have hwas : inProgress me s k = s.net.countP (messenger W k) +
      s.threads.countP (carrier me k) := rfl
  omega

theorem moves_effect (hi : Inv me s) (hok : Orderly me s (.thread t c)) (ht : s.threads[t]? = some (.run prog))
    (he : effect me s t c prog = some e) :
    inProgress me (s.apply t e) k ≤ 1 ∧ (0 < inProgress me (s.apply t e) k ↔ ∃ u, moveWait me (s.apply t e) u = some k) := by
  have hcount := inProgress_effect (k := k) hi hok ht he
  have hsingle := hi.single k
  have haway : moveWait me s t = none := by simp [moveWait, waiting, ht]
  by_cases hact : ∃ j fromId, prog = .act j fromId ∧ keyOf W j.toId j.datum = k
  · obtain ⟨j, fromId, rfl, rfl⟩ := hact
    have hnone : inProgress me s (keyOf W j.toId j.datum) = 0 := by
      by_contra hpos
      obtain ⟨u, hu⟩ := (hi.awaited _).mp (Nat.pos_of_ne_zero hpos)
      obtain ⟨th, hth, hk⟩ := hi.waits_holds hu
      obtain rfl := hi.holder_unique hth hk ht rfl
      cases haway.symm.trans hu
    have hone : inProgress me (s.apply t e) (keyOf W j.toId j.datum) = 1 := by
      simp only [carries, starts] at hcount
      simpa [hnone] using hcount
    refine ⟨Nat.le_of_eq hone, fun _ => ⟨s.threads.length, ?_⟩, fun _ => by omega⟩
    refine MoveReply.waits_moveWait ht he ?_
    obtain rfl := Option.some.inj he
    exact List.mem_singleton.mpr rfl
  by_cases hreply : ∃ id d, prog = .moveReply id d ∧ keyOf W id d = k
  · obtain ⟨id, d, rfl, rfl⟩ := hreply
    have hnone : inProgress me (s.apply t e) (keyOf W id d) = 0 := by
      simp only [carries, starts, if_true] at hcount
      simp at hcount
      omega
    refine ⟨by omega, fun hpos => by omega, ?_⟩
    rintro ⟨v, hv⟩
    obtain ⟨u, -, hu, hout⟩ := MoveReply.handled_own id d hi.tidy hok.1 ht he
      (by rw [(MoveReply.effect_moveReply he).2]; exact List.mem_singleton.mpr rfl)
    rcases MoveReply.moveWait_of_effect hi.tidy ht he hv with hold | ⟨id', d', hw, -⟩
    · obtain ⟨x, hx, hxk⟩ := hi.waits_holds hold
      obtain ⟨y, hy, hyk⟩ := hi.waits_holds hu
      obtain rfl := hi.holder_unique hx hxk hy hyk
      cases hout.symm.trans hv
    · rw [(MoveReply.effect_moveReply he).2] at hw
      simp at hw
  · have hsame : inProgress me (s.apply t e) k = inProgress me s k := by
      have : carries me prog = some k ↔ starts me prog = some k := by
        cases prog <;> simp only [carries, starts, Option.some.injEq, reduceCtorEq]
        case act j fromId => exact ⟨(by simp), fun h => absurd ⟨j, fromId, rfl, h⟩ hact⟩
        case moveReply id d => exact ⟨fun h => absurd ⟨id, d, rfl, h⟩ hreply, (by simp)⟩
      simp only [this] at hcount
      omega
    rw [hsame]
    refine ⟨hsingle, (hi.awaited k).trans ⟨?_, ?_⟩⟩
    · rintro ⟨u, hu⟩
      rcases MoveReply.moveWait_effect hi.tidy hok.1 ht he hu with hstill | ⟨-, id, d, hh, hk⟩
      · exact ⟨u, hstill⟩
      · exact absurd ⟨id, d, (MoveReply.effect_handled he hh).1, hk⟩ hreply
    · rintro ⟨u, hu⟩
      rcases MoveReply.moveWait_of_effect hi.tidy ht he hu with hold | ⟨id, d, hw, hk⟩
      · exact ⟨u, hold⟩
      · rcases MoveReply.effect_waits he hw with ⟨-, j, fromId, rfl, rfl, rfl⟩ | ⟨-, cId, fromId, rfl, -⟩
        · exact absurd ⟨j, fromId, rfl, hk⟩ hact
        · cases hi.unasked _ (List.mem_of_getElem? ht)

theorem inv_effect (hi : Inv me s) (hok : Orderly me s (.thread t c)) (ht : s.threads[t]? = some (.run prog))
    (he : effect me s t c prog = some e) (htidy : Tidy (s.apply t e)) (haccounted : Accounted (s.apply t e)) :
    Inv me (s.apply t e) where
  tidy := htidy
  accounted := haccounted
  claimed _ := claimed_effect hi hok ht he
  unasked := unasked_effect hi hok ht he
  single _ := (moves_effect hi hok ht he).1
  awaited _ := (moves_effect hi hok ht he).2

end Effect

/-! ## All steps -/

section Step
variable {me : Int32} {s s' : State W} {t : Nat} {c : Choice}

/-- Where nobody begins or ends a wait for a move, new threads and messages that carry no new move change nothing. -/
theorem Inv.frame (hi : Inv me s) (htidy : Tidy s') (haccounted : Accounted s')
    (hwait : ∀ u, moveWait me s' u = moveWait me s u) (hmoving : s'.moving = s.moving)
    (hclaims : ∀ k, claims s' k = claims s k) (hunasked : ∀ th ∈ s'.threads, asking (todo th) = false)
    (hprogress : ∀ k, inProgress me s' k = inProgress me s k) : Inv me s' where
  tidy := htidy
  accounted := haccounted
  claimed k := by
    have hplaces : places s' k = places s k := by simp [places, hmoving]
    rw [hplaces, hclaims]
    exact hi.claimed k
  unasked := hunasked
  single k := by
    rw [hprogress]
    exact hi.single k
  awaited k := by
    simp only [hprogress, hwait]
    exact hi.awaited k

/-- A thread inside its calls at a sync point changes nothing of what the threads have to do. -/
theorem Inv.call (hi : Inv me s) {p : UInt32} {call : Syncer.Call} {next : Prog W} {e : Effect W}
    (ht : s.threads[t]? = some (.calling p call next)) (htodo : todo e.thread = next) (hstarted : e.started = [])
    (hsent : e.sent = []) (hmoving : e.moving = s.moving) (htidy : Tidy (s.apply t e))
    (haccounted : Accounted (s.apply t e)) (hwait : ∀ u, waiting (s.apply t e) u = waiting s u) :
    Inv me (s.apply t e) := by
  have hcount : ∀ q : Prog W → Bool, (s.apply t e).threads.countP (fun th => q (todo th)) =
      s.threads.countP fun th => q (todo th) := by
    intro q
    have h := Pool.commit_countP ht (fun th => q (todo th)) e.thread e.started
    rw [hstarted] at h
    show (Pool.commit s.threads t e.thread e.started).countP _ = _
    rw [hstarted]
    have hq : q (todo e.thread) = q (todo (.calling p call next)) := by rw [htodo]; rfl
    simp only [hq] at h
    exact Nat.add_right_cancel h
  refine hi.frame htidy haccounted (fun u => by rw [moveWait, hwait, moveWait]) hmoving
    (fun k => hcount fun prog => decide (marks prog = some k)) ?_ fun k => ?_
  · intro th hth
    obtain ⟨u, hu⟩ := List.getElem?_of_mem hth
    rcases Pool.commit_cases hu with ⟨-, rfl⟩ | ⟨-, hold⟩ | ⟨-, hnew⟩
    · have hno := hi.unasked _ (List.mem_of_getElem? ht)
      rwa [htodo]
    · exact hi.unasked th (List.mem_of_getElem? hold)
    · simp [hstarted] at hnew
  · have hthreads := hcount fun prog => decide (carries me prog = some k)
    have hnet : (s.apply t e).net = s.net := by simp [State.apply, hsent]
    simp only [inProgress, hnet]
    exact congrArg _ hthreads

theorem inv_thread (hi : Inv me s) (hok : Orderly me s (.thread t c)) (hs : threadStep me s t c = some s')
    (haccounted : Accounted s') : Inv me s' := by
  have htidy := tidy_thread hi.tidy hs
  rcases threadStep_cases hs with ⟨prog, e, ht, he, rfl⟩ | ⟨p, next, ht, rfl⟩ |
    ⟨p, call, call', syncer, next, ht, hc, rfl⟩
  · exact inv_effect hi hok ht he htidy haccounted
  · exact hi.call ht rfl rfl rfl rfl htidy haccounted (waiting_done ht)
  · exact hi.call ht rfl rfl rfl rfl htidy haccounted (waiting_call ht hc)

theorem inv_spurious (hi : Inv me s) (hok : Orderly me s (.spurious t)) (hs : spurious s t = some s')
    (haccounted : Accounted s') : Inv me s' := by
  have hwait := MoveReply.moveWait_spurious hok.1 hs
  obtain ⟨_, cv, _, _, _, rfl⟩ := spurious_cases hs
  exact hi.frame (hi.tidy.release cv t) haccounted hwait rfl (fun _ => rfl) hi.unasked fun _ => rfl

/-- A message is taken up by a thread, or sent on, with the move it carries. -/
theorem passed_on {i : Nat} {msg : Msg} {k : Key} (hmsg : s.net[i]? = some msg) {more : List Msg} {new : List (Thread W)}
    (hnet : s'.net = s.net.eraseIdx i ++ more) (hthreads : s'.threads = s.threads ++ new)
    (h : more.countP (messenger W k) + new.countP (carrier me k) = if messenger W k msg then 1 else 0) :
    inProgress me s' k = inProgress me s k := by
  have hcount := Pool.countP_eraseIdx hmsg (messenger W k)
  simp only [inProgress, hnet, hthreads, List.countP_append]
  omega

theorem handler_carries {m : Msg} {prog : Prog W} (h : Msg.handler m = some prog) :
    (∀ me, carries me prog = carried (W := W) m) ∧ asking prog = false ∧ marks prog = none := by
  cases m <;> simp only [Msg.handler, Option.some.injEq, reduceCtorEq] at h
  all_goals
    subst h
    exact ⟨fun _ => rfl, rfl, rfl⟩

theorem deliver_inProgress {i : Nat} (hok : Orderly me s (.deliver i c)) (hs : deliver me s i c = some s') (k : Key) :
    inProgress me s' k = inProgress me s k := by
  obtain ⟨msg, hmsg, hcase⟩ := deliver_cases hs
  rcases hcase with ⟨prog, hp, rfl⟩ | ⟨_, _, _, rfl, rfl⟩ | ⟨_, d, rfl, rfl⟩ | ⟨_, toId, d, rfl, -, -, rfl⟩ |
    ⟨_, toId, d, rfl, hme, hsent, -⟩ | ⟨_, d, rfl, rfl⟩ | ⟨_, _, rfl, rfl⟩ | ⟨_, _, rfl, rfl⟩
  · refine passed_on hmsg (List.append_nil _).symm rfl ?_
    have hsame : carrier me k (.run prog) = messenger W k msg := by
      simp only [carrier, todo, messenger, (handler_carries hp).1 me]
    simp [List.countP_cons, hsame]
  · exact passed_on hmsg rfl (List.append_nil _).symm (by simp [List.countP_cons, messenger, carried])
  · exact passed_on hmsg (List.append_nil _).symm rfl
      (by simp [List.countP_cons, messenger, carried, carrier, todo, carries])
  · exact passed_on hmsg rfl (List.append_nil _).symm (by simp [List.countP_cons, messenger, carried])
  · have hreply := hok.2
    simp only [hmsg, hsent] at hreply
    exact absurd (hreply.resolve_right (by simp)) hme
  · refine passed_on hmsg rfl (List.append_nil _).symm ?_
    cases c.sent <;> simp [messenger, carried]
  all_goals exact passed_on hmsg (List.append_nil _).symm (List.append_nil _).symm (by simp [messenger, carried])

theorem inv_step {a : Action} (hi : Inv me s) (hok : Orderly me s a) (hs : step me s a = some s') : Inv me s' := by
  have htidy := tidy_step hi.tidy hs
  have haccounted : Accounted s' := by
    refine accounted_step hi.accounted ?_ hs
    rintro t c rfl prog ht
    exact hok.goes ht
  have hframe : ∀ new : List (Thread W), s'.threads = s.threads ++ new → s'.syncer = s.syncer → s'.moving = s.moving →
      (∀ th ∈ new, ∃ prog, th = .run prog ∧ asking prog = false ∧ marks prog = none) →
      (∀ k, inProgress me s' k = inProgress me s k) → Inv me s' := by
    intro new hthreads hsync hmoving hnew hprogress
    refine hi.frame htidy haccounted (fun u => ?_) hmoving (fun k => ?_) (fun th hth => ?_) hprogress
    · rw [moveWait, waiting_append hsync hthreads (fun th hth => (hnew th hth).imp fun _ h => h.1), moveWait]
    · have hnone : new.countP (marker k) = 0 := by
        refine List.countP_eq_zero.mpr fun th hth => ?_
        obtain ⟨prog, rfl, -, hmark⟩ := hnew th hth
        simp [marker, todo, hmark]
      simp [claims, hthreads, hnone]
    · rw [hthreads] at hth
      rcases List.mem_append.mp hth with hold | hin
      · exact hi.unasked th hold
      · obtain ⟨prog, rfl, hno, -⟩ := hnew th hin
        exact hno
  cases a with
  | thread t c => exact inv_thread hi hok hs haccounted
  | spurious t => exact inv_spurious hi hok hs haccounted
  | deliver i c =>
    have hprogress := deliver_inProgress hok hs
    obtain ⟨msg, -, hcase⟩ := deliver_cases hs
    rcases hcase with ⟨prog, hp, rfl⟩ | ⟨_, _, _, -, rfl⟩ | ⟨_, d, -, rfl⟩ | ⟨_, _, _, -, -, -, rfl⟩ |
      ⟨_, _, _, -, -, -, rfl⟩ | ⟨_, _, -, rfl⟩ | ⟨_, _, -, rfl⟩ | ⟨_, _, -, rfl⟩
    · refine hframe _ rfl rfl rfl ?_ hprogress
      rintro _ hth
      obtain rfl := List.mem_singleton.mp hth
      exact ⟨prog, rfl, (handler_carries hp).2⟩
    · exact hframe [] (List.append_nil _).symm rfl rfl (by simp) hprogress
    · refine hframe _ rfl rfl rfl ?_ hprogress
      rintro _ hth
      obtain rfl := List.mem_singleton.mp hth
      exact ⟨_, rfl, rfl, rfl⟩
    all_goals exact hframe [] (List.append_nil _).symm rfl rfl (by simp) hprogress
  | lose i => exact hok.2.elim
  | slave i c =>
    obtain ⟨hsync, hmoving, -, hthreads⟩ := slave_frame hs
    obtain ⟨x, pc, -, -, hcase⟩ := slave_cases hs
    refine hframe [] (hthreads.trans (List.append_nil _).symm) hsync hmoving (by simp) fun k => ?_
    rcases hcase with ⟨-, -, hnet, -⟩ | ⟨_, -, -, -, hnet, -⟩ | ⟨-, -, -, hnet, -⟩ | ⟨-, -, -, hnet, -⟩ |
      ⟨-, -, hnet, -⟩ | ⟨-, -, -, -, hnet | hnet⟩ <;>
      simp [inProgress, hnet, hthreads, messenger, carried]
  | arrive r =>
    obtain rfl := Option.some.inj hs
    rcases arrive_cases me s r with ⟨_, hs'⟩ | ⟨appId, req, hs'⟩ | ⟨_, -, -, hs'⟩
    · exact hframe [] (by simp [hs']) (by rw [hs']) (by rw [hs']) (by simp)
        fun k => by simp [inProgress, hs', messenger, carried]
    · refine hframe [.run (.regAppHere appId req)] (by simp [hs']) (by rw [hs']) (by rw [hs']) ?_
        fun k => by simp [inProgress, hs', carrier, todo, carries]
      rintro _ hth
      obtain rfl := List.mem_singleton.mp hth
      exact ⟨_, rfl, rfl, rfl⟩
    · exact hframe [] (by simp [hs']) (by rw [hs']) (by rw [hs']) (by simp) fun k => by simp [inProgress, hs']

/-- In an orderly run the moving sets are accurate. -/
theorem moving_accurate (me : Int32) (w : W) {s : State W}
    (hr : Reaches (step me) (Orderly me) (init me w) s) : Accurate me s :=
  (hr.invariant (Inv me) (inv_init me w) fun _ _ _ hi hok hs => inv_step hi hok hs).accurate

end Step

/-- A query that does not block, of a datum that nobody has put, leaves its mark behind. -/
theorem mark_left : ¬ ∀ s : State MWASpace.State,
    Reaches (step 0) free (init 0 (MWASpace.empty 4 false)) s → Accurate 0 s := by
  intro h
  obtain ⟨s, hs, htest⟩ := Transition.run_reaches_of_any (step 0)
    (init 0 (MWASpace.empty 4 false) : State MWASpace.State)
    [.arrive (.connUp 1), .deliver 0 choice, .thread 0 choice, .arrive (.get 1 5 false (unitBox "u")),
      .slave 0 choice, .slave 0 choice, .slave 0 choice,
      .deliver 0 choice, .thread 1 choice, .thread 1 choice, .deliver 0 choice,
      .slave 0 miss, .deliver 0 choice, .thread 2 choice, .thread 2 choice, .thread 2 choice]
    (fun s => decide (s.net = [] ∧ (∀ th ∈ s.threads, finished th = true) ∧
      places s (keyOf MWASpace.State 1 (unitBox "u")) = 1)) (by decide)
  obtain ⟨hnet, hover, hplace⟩ := of_decide_eq_true htest
  have hnone : ¬ Processed 0 s (keyOf MWASpace.State 1 (unitBox "u")) := by
    rintro (⟨th, hth, hk⟩ | hpos | ⟨u, th, d, hu, htodo, -⟩)
    · rw [finished_todo (hover th hth)] at hk
      cases hk
    · have hthreads : s.threads.countP (carrier 0 (keyOf MWASpace.State 1 (unitBox "u"))) = 0 :=
        List.countP_eq_zero.mpr fun th hth => by simp [carrier, finished_todo (hover th hth), carries]
      simp [inProgress, hnet, hthreads] at hpos
    · rw [finished_todo (hover th (List.mem_of_getElem? hu))] at htodo
      cases htodo
  cases hplace.symm.trans ((h s hs).absent _ hnone)

theorem move_marked : ∃ s : State MWASpace.State,
    places s (keyOf MWASpace.State 1 (unitBox "u")) = 1 ∧
      inProgress 0 s (keyOf MWASpace.State 1 (unitBox "u")) = 1 ∧ Accurate 0 s := by
  obtain ⟨s, hs, htest⟩ := Transition.runWhere_reaches_of_any (step 0) (Orderly 0)
    (init 0 (MWASpace.empty 4 false) : State MWASpace.State)
    [.arrive (.connUp 1), .deliver 0 choice, .thread 0 choice,
      .arrive (.put 0 7 (unitBox "u")), .thread 1 choice, .thread 1 choice, .thread 1 choice,
      .arrive (.get 1 5 true (unitBox "u")), .slave 0 choice, .slave 0 choice, .slave 0 choice,
      .deliver 0 choice, .thread 2 choice, .thread 2 choice, .deliver 0 choice, .slave 0 miss,
      .deliver 0 choice, .thread 3 choice, .thread 3 choice, .thread 3 choice, .thread 3 choice, .thread 3 choice,
      .thread 4 choice, .thread 4 choice, .deliver 0 choice]
    (fun s => decide (places s (keyOf MWASpace.State 1 (unitBox "u")) = 1 ∧
      inProgress 0 s (keyOf MWASpace.State 1 (unitBox "u")) = 1)) (by decide)
  obtain ⟨hplace, hprogress⟩ := of_decide_eq_true htest
  exact ⟨s, hplace, hprogress, moving_accurate 0 _ hs⟩

end MovingSet
