import DataspacesWa.ControlSteps
import DataspacesWa.Custody
import DataspacesWa.History
import DataspacesWa.MWASpace

/-!
# Which wait a move reply completes

The waits for moves of one datum meet at one sync point, whatever their
destinations. A move reply completes its own wait as long as it finds that wait
alone there, and the waits for moves are ended by move replies only.
-/
namespace MoveReply

open Patch (Datum)
open Transition (Reaches free)
open WASpace (Operations)
open History (Along)
open SDMControl ControlSteps
open Custody (Key keyOf)

variable {W : Type} [Operations W]

/-- The move that a thread waits for when this comes after its calls at a sync point. -/
def moves (me : Int32) : Prog W → Option Key
  | .erase toId d => some (keyOf W toId d)
  | .mgot _ d => some (keyOf W me d)
  | _ => none

def moveWait (me : Int32) (s : State W) (u : Nat) : Option Key := (waiting s u).bind (moves me)

/-- What each step needs to have before it: a wait is completed by a reply that was sent, and a
slave is told so by the thread whose wait was completed for it. -/
def Needs (pre : List Event) : Event → Prop
  | .handled id d _ => .moveReplied id d ∈ pre
  | .replied _ id d => ∃ d', .moveReplied id d' ∈ pre ∧ dataId W d' = dataId W d
  | _ => True

/-- The thread whose wait an event completes. -/
def completed : Event → Option Nat
  | .handled _ _ woken => woken
  | _ => none

/-- Each move reply completes the wait for its own move and no other, and none twice. -/
structure Completed (s : State W) : Prop where
  replied : Along (Needs (W := W)) s.log
  own : ∀ id d woken, .handled id d woken ∈ s.log →
    ∃ t d', woken = some t ∧ .waits t id d' ∈ s.log ∧ dataId W d' = dataId W d
  once : (s.log.filterMap completed).Nodup

/-- The wait for the move has been completed by a reply for it. -/
def Over (s : State W) (t : Nat) (id : Int32) (d : Datum) : Prop :=
  ∃ d', .handled id d' (some t) ∈ s.log ∧ dataId W d' = dataId W d

/-- The thread waits for the move, and a notification of the point of the datum can let it go. -/
def Standing (me : Int32) (s : State W) (t : Nat) (id : Int32) (d : Datum) : Prop :=
  moveWait me s t = some (keyOf W id d) ∧
    ∃ call next, s.threads[t]? = some (.calling (movePoint W d) call next) ∧ call.Reachable s.syncer (movePoint W d)

/-- Each move reply completes the wait for its own move and no other, none twice, and no wait is stranded: until
the reply for it is handled it stands where that reply notifies. -/
structure Attributed (me : Int32) (s : State W) : Prop extends Completed s where
  kept : ∀ t id d, .waits t id d ∈ s.log → Standing me s t id d ∨ Over s t id d

/-- The wait that a handled move reply completes is alone on the condition variable of its point
and is the wait for this move; no other notification and no spurious wake-up ends a wait for a move. -/
def Alone (me : Int32) (s : State W) : Action → Prop
  | .thread t _ =>
    match s.threads[t]? with
    | some (.run (.moveReply id d)) => (sole s (movePoint W d)).bind (moveWait me s) = some (keyOf W id d)
    | some (.run prog) => ∀ p ∈ notifies prog, ∀ cv ∈ s.syncer.pointCv p, ∀ u ∈ s.syncer.waiters cv,
        moveWait me s u = none
    | _ => True
  | .spurious t => moveWait me s t = none
  | _ => True

instance (me : Int32) (s : State W) (a : Action) : Decidable (Alone me s a) := by
  induction a using SDMControl.Action.casesOn with
  | thread t c =>
    unfold Alone
    dsimp only
    generalize s.threads[t]? = th
    refine match th with
    | none => .isTrue trivial
    | some (.calling _ _ _) => .isTrue trivial
    | some (.run prog) => ?_
    induction prog using Prog.casesOn with
    | moveReply id d => exact decEq _ (some _)
    | _ => exact decidableNotifies _ _
  | spurious t => exact decEq _ none
  | _ => exact .isTrue trivial

/-- The point at which a thread stands that waits for a move, from when it has come to the point. -/
def standsAt (me : Int32) (s : State W) (u : Nat) : Option UInt32 :=
  match s.threads[u]? with
  | some (.calling p call next) =>
    if call ≠ .add ∧ call.Waiting s.syncer u ∧ (moves me next).isSome then some p else none
  | _ => none

/-- Moreover no point is deleted while a wait for a move stands at it. -/
def Undisturbed (me : Int32) (s : State W) (a : Action) : Prop :=
  Alone me s a ∧
    match a with
    | .thread t _ =>
      match s.threads[t]? with
      | some (.calling p .del _) => ∀ u < s.threads.length, standsAt me s u ≠ some p
      | _ => True
    | _ => True

instance (me : Int32) (s : State W) (a : Action) : Decidable (Undisturbed me s a) := by
  refine @instDecidableAnd _ _ inferInstance ?_
  induction a using SDMControl.Action.casesOn with
  | thread t c =>
    dsimp only
    generalize s.threads[t]? = th
    refine match th with
    | none => .isTrue trivial
    | some (.run _) => .isTrue trivial
    | some (.calling p call _) => ?_
    induction call using Syncer.Call.casesOn with
    | del => exact @Nat.decidableBallLT _ _ fun _ _ => instDecidableNot
    | _ => exact .isTrue trivial
  | _ => exact .isTrue trivial

/-- The thread may still begin to wait for a move itself. -/
def mayMove : Prog W → Bool
  | .regAppHere _ _ => true
  | .get _ _ _ => true
  | .mquery _ _ => true
  | .mrequery _ _ => true
  | .mact _ _ _ => true
  | .msend _ _ _ => true
  | _ => false

/-- The move that a thread waits for, or has waited for in `wait_for_move`. -/
def moveOf (me : Int32) : Thread W → Option Key
  | .calling _ _ next => moves me next
  | .run (.erase toId d) => some (keyOf W toId d)
  | _ => none

structure Inv (me : Int32) (s : State W) : Prop extends Completed s where
  kept : ∀ t id d, .waits t id d ∈ s.log → moveWait me s t = some (keyOf W id d) ∨ Over s t id d
  tidy : Tidy s
  bounded : ∀ t id d, .waits t id d ∈ s.log → t < s.threads.length
  fresh : ∀ (t : Nat) th, s.threads[t]? = some th → mayMove (todo th) = true → ∀ id d, .waits t id d ∉ s.log
  logged : ∀ (t : Nat) th k, s.threads[t]? = some th → moveOf me th = some k →
    ∃ id d, .waits t id d ∈ s.log ∧ keyOf W id d = k
  done : ∀ t id d, .handled id d (some t) ∈ s.log → moveWait me s t = none
  sent : ∀ id d, (.moveReply id d ∈ s.net ∨ (∃ th ∈ s.threads, todo th = .moveReply id d) ∨
    ∃ woken, .handled id d woken ∈ s.log) → .moveReplied id d ∈ s.log
  ready : ∀ th ∈ s.threads, ∀ id d, todo th = .reply id d →
    ∃ d', .moveReplied id d' ∈ s.log ∧ dataId W d' = dataId W d

theorem inv_init (me : Int32) (w : W) : Inv me (init me w) where
  replied := History.along_nil
  own _ _ _ h := by simp [init] at h
  once := List.nodup_nil
  kept _ _ _ h := by simp [init] at h
  tidy := tidy_init me w
  bounded _ _ _ h := by simp [init] at h
  fresh _ _ h := by simp [init] at h
  logged _ _ _ h := by simp [init] at h
  done _ _ _ h := by simp [init] at h
  sent _ _ h := by simp [init] at h
  ready _ h := by simp [init] at h

theorem needs_grows (pre more : List Event) (e : Event) (h : Needs (W := W) pre e) :
    Needs (W := W) (pre ++ more) e := by
  cases e <;> first | trivial | skip
  · exact List.mem_append_left _ h
  · obtain ⟨d', hmem, hd⟩ := h
    exact ⟨d', List.mem_append_left _ hmem, hd⟩

theorem moveWait_iff {me : Int32} {s : State W} {u : Nat} {k : Key} :
    moveWait me s u = some k ↔ ∃ next, waiting s u = some next ∧ moves me next = some k :=
  Option.bind_eq_some_iff

theorem mayMove_after (j : Job W) : mayMove j.after = false := by
  unfold Job.after
  split <;> rfl

theorem mayMove_afterAccess (r : Option (WASpace.ActCall × Operations.Access W)) :
    mayMove (afterAccess r) = false := by
  unfold afterAccess
  split <;> rfl

/-- No thread comes to wait for a move itself unless it could from its beginning. -/
theorem mayMove_next {prog next : Prog W} (h : Next prog next) (hp : mayMove prog = false) : mayMove next = false := by
  cases prog <;> simp only [Next] at h
  all_goals first
    | exact Bool.noConfusion (hp : true = false)
    | (subst h; first | rfl | exact mayMove_after _)
    | (rcases h with rfl | rfl <;> first | rfl | exact mayMove_after _)
    | (rcases h with ⟨_, rfl⟩ | rfl | rfl <;> first | rfl | exact mayMove_after _)
    | (rcases h with rfl | ⟨_, rfl⟩ <;> rfl)
    | (obtain ⟨_, rfl⟩ := h; first | rfl | exact mayMove_afterAccess _)

/-- The last steps of `wait_for_move`, and the handler of a move reply. -/
def ending : Prog W → Bool
  | .reply _ _ | .moveReply _ _ | .erase _ _ => true
  | _ => false

theorem ending_after (j : Job W) : ending j.after = false := by
  unfold Job.after
  split <;> rfl

theorem ending_afterAccess (r : Option (WASpace.ActCall × Operations.Access W)) :
    ending (afterAccess r) = false := by
  unfold afterAccess
  split <;> rfl

theorem ending_local (req : LocalReq) (appId : Int32) : ending (req.prog appId : Prog W) = false := by
  unfold LocalReq.prog
  split <;> rfl

/-- Who comes to the end of a move: `wait_for_move` to its reply, `remote_get` of the master to the notification,
and nobody from within to the first step after a wait. -/
theorem next_ending {prog next : Prog W} (h : Next prog next) (he : ending next = true) :
    (∃ id d, prog = .erase id d ∧ next = .reply id d) ∨ ∃ id d, prog = .remoteSpace d ∧ next = .moveReply id d := by
  have hno : ending next = false →
      (∃ id d, prog = .erase id d ∧ next = .reply id d) ∨ ∃ id d, prog = .remoteSpace d ∧ next = .moveReply id d :=
    fun hfalse => Bool.noConfusion (hfalse.symm.trans he)
  cases prog <;> simp only [Next] at h
  case erase id d => exact .inl ⟨id, d, rfl, h⟩
  case remoteSpace d =>
    rcases h with rfl | ⟨id, rfl⟩
    · exact hno rfl
    · exact .inr ⟨id, d, rfl, rfl⟩
  all_goals
    refine hno ?_
    first
      | (subst h; first | rfl | exact ending_after _ | exact ending_local _ _)
      | (rcases h with rfl | rfl <;> first | rfl | exact ending_after _)
      | (rcases h with ⟨_, rfl⟩ | rfl | rfl <;> first | rfl | exact ending_after _)
      | (obtain ⟨_, rfl⟩ := h; first | rfl | exact ending_afterAccess _)

theorem next_end {prog next : Prog W} {id : Int32} {d : Datum} (h : Next prog next) :
    (next = .reply id d → prog = .erase id d) ∧ (next = .moveReply id d → prog = .remoteSpace d) ∧ next ≠ .erase id d := by
  refine ⟨?_, ?_, ?_⟩
  · rintro rfl
    rcases next_ending h rfl with ⟨id', d', hprog, hnext⟩ | ⟨_, _, -, hnext⟩
    · rw [hprog]
      cases hnext
      rfl
    · cases hnext
  · rintro rfl
    rcases next_ending h rfl with ⟨_, _, -, hnext⟩ | ⟨id', d', hprog, hnext⟩
    · cases hnext
    · rw [hprog]
      cases hnext
      rfl
  · rintro rfl
    rcases next_ending h rfl with ⟨_, _, -, hnext⟩ | ⟨_, _, -, hnext⟩ <;> cases hnext

section Effect
variable {me : Int32} {s : State W} {t : Nat} {c : Choice} {prog : Prog W} {e : Effect W}

/-- A wait for a move begins where a move is started, in a new thread, or where the master gets one itself. -/
theorem effect_waits (he : effect me s t c prog = some e) {u : Nat} {id : Int32} {d : Datum}
    (hev : .waits u id d ∈ e.events) :
    (u = s.threads.length ∧ ∃ j fromId, prog = .act j fromId ∧ id = j.toId ∧ d = j.datum) ∨
      u = t ∧ ∃ cId fromId, prog = .msend cId d fromId ∧ id = me := by
  have h := effect_events he hev
  simp only [reduceCtorEq, and_false, exists_false, false_or, or_false, Event.waits.injEq] at h
  rcases h with ⟨j, fromId, rfl, rfl, rfl, rfl⟩ | ⟨cId, d', fromId, rfl, rfl, rfl, rfl⟩
  · exact .inl ⟨rfl, j, fromId, rfl, rfl, rfl⟩
  · exact .inr ⟨rfl, cId, fromId, rfl, rfl⟩

theorem effect_handled (he : effect me s t c prog = some e) {id : Int32} {d : Datum} {woken : Option Nat}
    (hev : .handled id d woken ∈ e.events) : prog = .moveReply id d ∧ woken = c.woken := by
  have h := effect_events he hev
  simpa using h

theorem effect_replied (he : effect me s t c prog = some e) {u : Nat} {id : Int32} {d : Datum}
    (hev : .replied u id d ∈ e.events) : prog = .reply id d ∧ u = t := by
  have h := effect_events he hev
  simp only [reduceCtorEq, and_false, exists_false, false_or, or_false, Event.replied.injEq] at h
  obtain ⟨_, _, rfl, -, rfl, rfl, rfl⟩ := h
  exact ⟨rfl, rfl⟩

/-- The handler of a move reply notifies the point of the datum and logs whom it released. -/
theorem effect_moveReply {id : Int32} {d : Datum} (he : effect me s t c (.moveReply id d) = some e) :
    Syncer.notify s.syncer (movePoint W d) c.woken = some e.syncer ∧ e.events = [.handled id d c.woken] := by
  simp only [effect, notify, Option.map_eq_some_iff] at he
  obtain ⟨_, ⟨syncer, hn, rfl⟩, rfl⟩ := he
  exact ⟨hn, rfl⟩

/-- `remote_get` of the master comes to the notification of the move where its put is not refused. -/
theorem effect_remoteSpace {id : Int32} {d d' : Datum} (he : effect me s t c (.remoteSpace d) = some e)
    (hnext : todo e.thread = .moveReply id d') : id = me ∧ d' = d ∧ .moveReplied me d ∈ e.events := by
  obtain ⟨⟨w, done⟩, -, rfl⟩ := Option.map_eq_some_iff.mp he
  cases done with
  | false => cases hnext
  | true =>
    obtain ⟨rfl, rfl⟩ := Prog.moveReply.inj hnext
    exact ⟨rfl, rfl, by simp⟩

/-- At most one wait is completed in a step. -/
theorem effect_completed (he : effect me s t c prog = some e) :
    e.events.filterMap completed = [] ∨
      ∃ id d, prog = .moveReply id d ∧ e.events.filterMap completed = c.woken.toList := by
  by_cases hprog : ∃ id d, prog = .moveReply id d
  · obtain ⟨id, d, rfl⟩ := hprog
    refine .inr ⟨id, d, rfl, ?_⟩
    rw [(effect_moveReply he).2]
    cases c.woken <;> simp [completed]
  · refine .inl (List.filterMap_eq_nil_iff.mpr fun ev hev => ?_)
    cases ev with
    | handled id d woken => exact absurd ⟨id, d, (effect_handled he hev).1⟩ hprog
    | _ => rfl

/-- Who waits for a move after the step has waited for it, or begins to in this step. -/
theorem moveWait_of_effect {u : Nat} {k : Key} (h : Tidy s) (ht : s.threads[t]? = some (.run prog)) (he : effect me s t c prog = some e)
    (hu : moveWait me (s.apply t e) u = some k) :
    moveWait me s u = some k ∨ ∃ id d, .waits u id d ∈ e.events ∧ keyOf W id d = k := by
  obtain ⟨next, hw, hk⟩ := moveWait_iff.mp hu
  rcases waiting_of_effect h ht he hw with hold | ⟨rfl, p, hp, hth⟩ | ⟨rfl, j, fromId, rfl, rfl⟩
  · exact .inl (moveWait_iff.mpr ⟨next, hold, hk⟩)
  · right
    cases prog <;> simp only [enters, Option.some.injEq, Prod.mk.injEq, reduceCtorEq] at hp
    case msend cId d fromId =>
      obtain ⟨rfl, rfl⟩ := hp
      simp only [effect] at he
      split at he
      · obtain rfl := Option.some.inj he
        exact ⟨me, d, by simp, Option.some.inj hk⟩
      · obtain rfl := Option.some.inj he
        cases hth
    all_goals
      obtain ⟨-, rfl⟩ := hp
      cases hk
  · right
    obtain rfl := Option.some.inj he
    exact ⟨j.toId, j.datum, List.mem_singleton.mpr rfl, Option.some.inj hk⟩

/-- What the log says about the beginning of a wait is so. -/
theorem waits_moveWait {u : Nat} {id : Int32} {d : Datum} (ht : s.threads[t]? = some (.run prog))
    (he : effect me s t c prog = some e) (hev : .waits u id d ∈ e.events) :
    moveWait me (s.apply t e) u = some (keyOf W id d) := by
  rcases effect_waits he hev with ⟨rfl, j, fromId, rfl, rfl, rfl⟩ | ⟨rfl, cId, fromId, rfl, rfl⟩
  · obtain rfl := Option.some.inj he
    have hnew : (s.apply t { goOn s (.send j fromId) with
        started := j.threads, events := [.waits s.threads.length j.toId j.datum] }).threads[s.threads.length]? =
        some (.calling (movePoint W j.datum) .add (.erase j.toId j.datum)) := by
      simp [State.apply, Pool.commit_getElem?, Job.threads]
    simp [moveWait, waiting, hnew, Syncer.Call.Waiting, moves]
  · simp only [effect] at he
    split at he <;> obtain rfl := Option.some.inj he
    · have hself : (s.apply u { enter s (movePoint W d) (.mgot cId d) with
          sent := [.move fromId id d], events := [.issued fromId id d, .waits u id d] }).threads[u]? =
          some (.calling (movePoint W d) .add (.mgot cId d)) := Pool.commit_self ht _ _
      simp [moveWait, waiting, hself, Syncer.Call.Waiting, moves]
    · simp [goOn] at hev

/-- Who waits for a move goes on to wait for it, or its own move reply is handled. -/
theorem moveWait_effect {u : Nat} {k : Key} (h : Tidy s) (hok : Alone me s (.thread t c))
    (ht : s.threads[t]? = some (.run prog)) (he : effect me s t c prog = some e) (hu : moveWait me s u = some k) :
    moveWait me (s.apply t e) u = some k ∨
      moveWait me (s.apply t e) u = none ∧ ∃ id d, .handled id d (some u) ∈ e.events ∧ keyOf W id d = k := by
  obtain ⟨next, hw, hk⟩ := moveWait_iff.mp hu
  rcases waiting_effect h ht he hw with hin | ⟨p, cv, hp, hcv, hwoken, hmem, hout⟩
  · exact .inl (moveWait_iff.mpr ⟨next, hin, hk⟩)
  · right
    refine ⟨by simp [moveWait, hout], ?_⟩
    simp only [Alone, ht] at hok
    by_cases hprog : ∃ id d, prog = .moveReply id d
    · obtain ⟨id, d, rfl⟩ := hprog
      obtain rfl := Option.some.inj hp
      obtain ⟨v, hv, hvk⟩ := Option.bind_eq_some_iff.mp hok
      obtain ⟨cv', hcv', hone⟩ := sole_iff.mp hv
      obtain rfl := Option.some.inj (hcv.symm.trans hcv')
      obtain rfl : u = v := by simpa [hone] using hmem
      refine ⟨id, d, ?_, Option.some.inj (hvk.symm.trans hu)⟩
      rw [(effect_moveReply he).2, hwoken]
      exact List.mem_singleton.mpr rfl
    · have hnone : moveWait me s u = none := by
        split at hok
        · rename_i id d heq
          exact absurd ⟨id, d, by simpa using heq⟩ hprog
        · rename_i heq
          obtain rfl := Thread.run.inj (Option.some.inj heq)
          exact hok p hp cv hcv u hmem
        · rename_i heq
          exact absurd rfl (heq _)
      cases hnone.symm.trans hu

/-- A handled move reply completes the wait for its own move. -/
theorem handled_own (id : Int32) (d : Datum) {woken : Option Nat} (h : Tidy s)
    (hok : Alone me s (.thread t c)) (ht : s.threads[t]? = some (.run prog)) (he : effect me s t c prog = some e)
    (hev : .handled id d woken ∈ e.events) :
    ∃ u, woken = some u ∧ moveWait me s u = some (keyOf W id d) ∧ moveWait me (s.apply t e) u = none := by
  obtain ⟨rfl, rfl⟩ := effect_handled he hev
  simp only [Alone, ht] at hok
  obtain ⟨u, hu, hk⟩ := Option.bind_eq_some_iff.mp hok
  obtain ⟨hwoken, hout⟩ := notify_sole h ht (effect_moveReply he).1 hu
  exact ⟨u, hwoken, hk, by simp [moveWait, hout]⟩

end Effect

section Step
variable {me : Int32} {s s' : State W} {t : Nat} {c : Choice}

/-- A thread begins to wait for a move once. -/
theorem waits_once {prog : Prog W} {e : Effect W} (hi : Inv me s) (ht : s.threads[t]? = some (.run prog))
    (he : effect me s t c prog = some e) {u : Nat} {id : Int32} {d : Datum} (hev : .waits u id d ∈ e.events) :
    ∀ id' d', .waits u id' d' ∉ s.log := by
  intro id' d' hold
  rcases effect_waits he hev with ⟨rfl, -⟩ | ⟨rfl, cId, fromId, rfl, -⟩
  · exact absurd (hi.bounded _ id' d' hold) (by omega)
  · exact hi.fresh u _ ht rfl id' d' hold

/-- A thread of `wait_for_move` that is past its wait has had its move reply handled. -/
theorem Inv.erase_handled (hi : Inv me s) {id : Int32} {d : Datum} (ht : s.threads[t]? = some (.run (.erase id d))) :
    ∃ d', .handled id d' (some t) ∈ s.log ∧ dataId W d' = dataId W d := by
  obtain ⟨id', d₁, hw, hk⟩ := hi.logged t _ _ ht rfl
  obtain ⟨rfl, hd⟩ : id' = id ∧ dataId W d₁ = dataId W d := by simpa [keyOf] using hk
  rcases hi.kept t id' d₁ hw with hin | ⟨d', hh, hd'⟩
  · simp [moveWait, waiting, ht] at hin
  · exact ⟨d', hh, hd'.trans hd⟩

theorem completed_effect {prog : Prog W} {e : Effect W} (hi : Inv me s) (hok : Alone me s (.thread t c))
    (ht : s.threads[t]? = some (.run prog)) (he : effect me s t c prog = some e) : Completed (s.apply t e) where
  replied := by
    refine hi.replied.append needs_grows fun ev hev => ?_
    cases ev with
    | handled id d woken =>
      obtain ⟨rfl, -⟩ := effect_handled he hev
      exact hi.sent id d (.inr (.inl ⟨_, List.mem_of_getElem? ht, rfl⟩))
    | replied u id d =>
      obtain ⟨rfl, -⟩ := effect_replied he hev
      exact hi.ready _ (List.mem_of_getElem? ht) id d rfl
    | _ => trivial
  own id d woken hev := by
    rcases List.mem_append.mp hev with hold | hnew
    · obtain ⟨u, d', rfl, hw, hd⟩ := hi.own id d woken hold
      exact ⟨u, d', rfl, List.mem_append_left _ hw, hd⟩
    · obtain ⟨u, rfl, hk, -⟩ := handled_own _ _ hi.tidy hok ht he hnew
      obtain ⟨next, hwait, hnext⟩ := moveWait_iff.mp hk
      obtain ⟨p, call, hu, -⟩ := waiting_iff.mp hwait
      obtain ⟨id', d', hw, hkey⟩ := hi.logged u _ _ hu hnext
      obtain ⟨rfl, hd⟩ : id' = id ∧ dataId W d' = dataId W d := by simpa [keyOf] using hkey
      exact ⟨u, d', rfl, List.mem_append_left _ hw, hd⟩
  once := by
    show ((s.log ++ e.events).filterMap completed).Nodup
    rw [List.filterMap_append]
    rcases effect_completed he with hnone | ⟨id, d, rfl, hone⟩
    · simpa [hnone] using hi.once
    · have hev : .handled id d c.woken ∈ e.events := by simp [(effect_moveReply he).2]
      obtain ⟨u, hu, hk, -⟩ := handled_own _ _ hi.tidy hok ht he hev
      rw [hone, hu]
      refine List.nodup_append.mpr ⟨hi.once, by simp, ?_⟩
      rintro v hv _ hmem rfl
      obtain rfl := List.mem_singleton.mp hmem
      obtain ⟨ev, hlog, hcomp⟩ := List.mem_filterMap.mp hv
      cases ev <;> cases hcomp
      cases (hi.done _ _ _ hlog).symm.trans hk

theorem inv_effect {prog : Prog W} {e : Effect W} (hi : Inv me s) (hok : Alone me s (.thread t c))
    (ht : s.threads[t]? = some (.run prog)) (he : effect me s t c prog = some e)
    (htidy : Tidy (s.apply t e)) : Inv me (s.apply t e) where
  toCompleted := completed_effect hi hok ht he
  kept u id d hev := by
    rcases List.mem_append.mp hev with hold | hnew
    · rcases hi.kept u id d hold with hin | ⟨d', hh, hd⟩
      · rcases moveWait_effect hi.tidy hok ht he hin with hstill | ⟨-, id', d', hh, hk⟩
        · exact .inl hstill
        · obtain ⟨rfl, hd⟩ : id' = id ∧ dataId W d' = dataId W d := by simpa [keyOf] using hk
          exact .inr ⟨d', List.mem_append_right _ hh, hd⟩
      · exact .inr ⟨d', List.mem_append_left _ hh, hd⟩
    · exact .inl (waits_moveWait ht he hnew)
  tidy := htidy
  bounded u id d hev := by
    have hlen : (s.apply t e).threads.length = s.threads.length + e.started.length := by
      simp [State.apply, Pool.commit]
    have hlt := Pool.lt_of_getElem? ht
    rcases List.mem_append.mp hev with hold | hnew
    · have := hi.bounded u id d hold
      omega
    · rcases effect_waits he hnew with ⟨rfl, j, fromId, rfl, -⟩ | ⟨rfl, -⟩
      · have hpos : 0 < e.started.length := by
          obtain rfl := Option.some.inj he
          simp [Job.threads]
        omega
      · omega
  fresh u th hu hmay id d hev := by
    rcases Pool.commit_cases hu with ⟨rfl, rfl⟩ | ⟨hut, hold⟩ | ⟨hlen, hstarted⟩
    · have hprog : mayMove prog = true := by
        by_contra hno
        exact absurd (mayMove_next (effect_next he) (by simpa using hno)) (by simp [hmay])
      rcases List.mem_append.mp hev with hold | hnew
      · exact hi.fresh u _ ht hprog id d hold
      · rcases effect_waits he hnew with ⟨rfl, -⟩ | ⟨-, cId, fromId, rfl, -⟩
        · exact absurd (Pool.lt_of_getElem? ht) (by omega)
        · rcases effect_next he with hn | hn <;> simp [hn, mayMove] at hmay
    · rcases List.mem_append.mp hev with hin | hnew
      · exact hi.fresh u th hold hmay id d hin
      · have hlt := Pool.lt_of_getElem? hold
        rcases effect_waits he hnew with ⟨rfl, -⟩ | ⟨rfl, -⟩
        · omega
        · exact hut rfl
    · rcases effect_started_mem he hstarted with ⟨_, _, _, rfl⟩ | ⟨_, _, rfl⟩ <;> cases hmay
  logged u th k hu hk := by
    have hwaits : ∀ p call next, th = .calling p call next → call.Waiting e.syncer u →
        ∃ id d, .waits u id d ∈ (s.apply t e).log ∧ keyOf W id d = k := by
      rintro p call next rfl hin
      rcases moveWait_of_effect hi.tidy ht he
          (moveWait_iff.mpr ⟨next, waiting_iff.mpr ⟨p, call, hu, hin⟩, hk⟩) with hold | ⟨id, d, hev, hkey⟩
      · obtain ⟨n, hw, hn⟩ := moveWait_iff.mp hold
        obtain ⟨q, call', hu', -⟩ := waiting_iff.mp hw
        obtain ⟨id, d, hev, hkey⟩ := hi.logged u _ k hu' hn
        exact ⟨id, d, List.mem_append_left _ hev, hkey⟩
      · exact ⟨id, d, List.mem_append_right _ hev, hkey⟩
    rcases Pool.commit_cases hu with ⟨rfl, rfl⟩ | ⟨hut, hold⟩ | ⟨hlen, hstarted⟩
    · rcases effect_thread he with ⟨next, hn⟩ | ⟨p, next, -, hn, -⟩
      · rw [hn] at hk
        have hnext := effect_next he
        rw [hn] at hnext
        cases next <;> cases hk
        exact absurd rfl (next_end hnext).2.2
      · exact hwaits p .add next hn trivial
    · obtain ⟨id, d, hev, hkey⟩ := hi.logged u th k hold hk
      exact ⟨id, d, List.mem_append_left _ hev, hkey⟩
    · rcases effect_started_mem he hstarted with ⟨_, _, _, rfl⟩ | ⟨_, _, rfl⟩
      · exact hwaits _ .add _ rfl trivial
      · cases hk
  done u id d hev := by
    cases hwas : moveWait me (s.apply t e) u with
    | none => rfl
    | some k =>
      exfalso
      rcases List.mem_append.mp hev with hold | hnew
      · rcases moveWait_of_effect hi.tidy ht he hwas with hin | ⟨id', d', hw, -⟩
        · cases (hi.done u id d hold).symm.trans hin
        · obtain ⟨_, _, hu, hwold, -⟩ := hi.own id d _ hold
          obtain rfl := Option.some.inj hu
          exact waits_once hi ht he hw _ _ hwold
      · obtain ⟨v, hv, -, hout⟩ := handled_own _ _ hi.tidy hok ht he hnew
        obtain rfl := Option.some.inj hv
        cases hout.symm.trans hwas
  sent id d h := by
    rcases h with hm | ⟨th, hth, htodo⟩ | ⟨woken, hev⟩
    · refine List.mem_append_left _ (hi.sent id d ?_)
      rcases List.mem_append.mp hm with hold | hnew
      · exact .inl hold
      · rcases effect_sent he hnew with ⟨_, _, _, ⟨_, h⟩ | ⟨_, h⟩⟩ | ⟨_, _, _, h⟩ | ⟨_, _, _, _, h⟩ |
          ⟨_, _, _, _, h⟩ | ⟨_, _, _, h⟩ <;> cases h
    · obtain ⟨u, hu⟩ := List.getElem?_of_mem hth
      rcases Pool.commit_cases hu with ⟨-, rfl⟩ | ⟨-, hold⟩ | ⟨-, hstarted⟩
      · obtain rfl := (next_end (effect_next he)).2.1 htodo
        obtain ⟨rfl, -, hev⟩ := effect_remoteSpace he htodo
        exact List.mem_append_right _ hev
      · exact List.mem_append_left _ (hi.sent id d (.inr (.inl ⟨th, List.mem_of_getElem? hold, htodo⟩)))
      · rcases effect_started_mem he hstarted with ⟨_, _, _, rfl⟩ | ⟨_, _, rfl⟩ <;> cases htodo
    · refine List.mem_append_left _ (hi.sent id d ?_)
      rcases List.mem_append.mp hev with hold | hnew
      · exact .inr (.inr ⟨woken, hold⟩)
      · obtain ⟨rfl, -⟩ := effect_handled he hnew
        exact .inr (.inl ⟨_, List.mem_of_getElem? ht, rfl⟩)
  ready th hth id d htodo := by
    obtain ⟨u, hu⟩ := List.getElem?_of_mem hth
    rcases Pool.commit_cases hu with ⟨-, rfl⟩ | ⟨-, hold⟩ | ⟨-, hstarted⟩
    · obtain rfl := (next_end (effect_next he)).1 htodo
      obtain ⟨d', hh, hd⟩ := hi.erase_handled ht
      exact ⟨d', List.mem_append_left _ (hi.sent id d' (.inr (.inr ⟨_, hh⟩))), hd⟩
    · obtain ⟨d', hm, hd⟩ := hi.ready th (List.mem_of_getElem? hold) id d htodo
      exact ⟨d', List.mem_append_left _ hm, hd⟩
    · rcases effect_started_mem he hstarted with ⟨_, _, _, rfl⟩ | ⟨_, _, rfl⟩ <;> cases htodo

/-- What is said about waits for moves. -/
def ofWait : Event → Bool
  | .waits _ _ _ => true
  | .handled _ _ _ => true
  | .replied _ _ _ => true
  | _ => false

/-- Where the threads have the same to do, and nobody is released, all stays as it is. -/
theorem Inv.same (hi : Inv me s) (htidy : Tidy s') (hwait : ∀ u, moveWait me s' u = moveWait me s u)
    (hthreads : ∀ (u : Nat) th, s'.threads[u]? = some th → ∃ th', s.threads[u]? = some th' ∧ todo th' = todo th ∧
      ∀ k, moveOf me th = some k → moveOf me th' = some k)
    (hlen : s'.threads.length = s.threads.length) (hlog : s'.log = s.log) (hnet : s'.net = s.net) : Inv me s' where
  replied := hlog ▸ hi.replied
  own := by
    rw [hlog]
    exact hi.own
  once := hlog ▸ hi.once
  kept := by
    simp only [Over, hlog, hwait]
    exact hi.kept
  tidy := htidy
  bounded := by
    rw [hlog, hlen]
    exact hi.bounded
  fresh u th hu hmay := by
    obtain ⟨th', hu', htodo, -⟩ := hthreads u th hu
    rw [hlog]
    exact hi.fresh u th' hu' (by rwa [htodo])
  logged u th k hu hk := by
    obtain ⟨th', hu', -, hmove⟩ := hthreads u th hu
    rw [hlog]
    exact hi.logged u th' k hu' (hmove k hk)
  done := by
    simp only [hlog, hwait]
    exact hi.done
  sent id d h := by
    rw [hlog]
    refine hi.sent id d ?_
    rw [hnet, hlog] at h
    refine h.imp_right (Or.imp_left ?_)
    rintro ⟨th, hth, htodo⟩
    obtain ⟨u, hu⟩ := List.getElem?_of_mem hth
    obtain ⟨th', hu', htodo', -⟩ := hthreads u th hu
    exact ⟨th', List.mem_of_getElem? hu', htodo'.trans htodo⟩
  ready th hth id d htodo := by
    obtain ⟨u, hu⟩ := List.getElem?_of_mem hth
    obtain ⟨th', hu', htodo', -⟩ := hthreads u th hu
    rw [hlog]
    exact hi.ready th' (List.mem_of_getElem? hu') id d (htodo'.trans htodo)

/-- New threads and new events that have no part in the waits, and move replies only after they are logged. -/
theorem Inv.frame (hi : Inv me s) (hsync : s'.syncer = s.syncer) {new : List (Thread W)} {more : List Event}
    (hthreads : s'.threads = s.threads ++ new) (hlog : s'.log = s.log ++ more)
    (hnew : ∀ th ∈ new, ∃ prog, th = .run prog ∧ ∀ id d, prog ≠ .erase id d ∧ prog ≠ .reply id d)
    (hmore : ∀ ev ∈ more, ofWait ev = false)
    (hsent : ∀ id d, .moveReply id d ∈ s'.net ∨ .run (.moveReply id d) ∈ new →
      .moveReply id d ∈ s.net ∨ .moveReplied id d ∈ more) : Inv me s' := by
  have hwait : ∀ u, moveWait me s' u = moveWait me s u := fun u => by
    rw [moveWait, waiting_append hsync hthreads (fun th hth => (hnew th hth).imp fun _ h => h.1), moveWait]
  have hold : ∀ {ev}, ofWait ev = true → ev ∈ s'.log → ev ∈ s.log := by
    intro ev hev hmem
    rw [hlog] at hmem
    exact (List.mem_append.mp hmem).resolve_right fun h => by simp [hmore ev h] at hev
  have hkeep : ∀ {ev}, ev ∈ s.log → ev ∈ s'.log := fun hmem => by
    rw [hlog]
    exact List.mem_append_left _ hmem
  have hget : ∀ {u : Nat} {th : Thread W}, s'.threads[u]? = some th →
      s.threads[u]? = some th ∨ s.threads.length ≤ u ∧ th ∈ new := by
    intro u th hu
    rw [hthreads] at hu
    by_cases hlt : u < s.threads.length
    · exact .inl (by rwa [List.getElem?_append_left hlt] at hu)
    · rw [List.getElem?_append_right (by omega)] at hu
      exact .inr ⟨by omega, List.mem_of_getElem? hu⟩
  have hmem : ∀ {th}, th ∈ s'.threads → th ∈ s.threads ∨ th ∈ new := fun hth => by
    rwa [hthreads, List.mem_append] at hth
  constructor
  · constructor
    · rw [hlog]
      refine hi.replied.append needs_grows fun ev hev => ?_
      cases ev <;> first | trivial | exact absurd (hmore _ hev) (by simp [ofWait])
    · intro id d woken hev
      obtain ⟨u, d', hu, hw, hd⟩ := hi.own id d woken (hold rfl hev)
      exact ⟨u, d', hu, hkeep hw, hd⟩
    · have hnone : more.filterMap completed = [] := by
        refine List.filterMap_eq_nil_iff.mpr fun ev hev => ?_
        cases ev <;> first | rfl | exact absurd (hmore _ hev) (by simp [ofWait])
      rw [hlog, List.filterMap_append, hnone, List.append_nil]
      exact hi.once
  · intro u id d hev
    rw [hwait]
    rcases hi.kept u id d (hold rfl hev) with hin | ⟨d', hh, hd⟩
    · exact .inl hin
    · exact .inr ⟨d', hkeep hh, hd⟩
  · exact hi.tidy.append hsync new hthreads
  · intro u id d hev
    have hlt := hi.bounded u id d (hold rfl hev)
    rw [hthreads, List.length_append]
    omega
  · intro u th hu hmay id d hev
    rcases hget hu with hin | ⟨hlen, -⟩
    · exact hi.fresh u th hin hmay id d (hold rfl hev)
    · exact absurd (hi.bounded u id d (hold rfl hev)) (by omega)
  · intro u th k hu hk
    rcases hget hu with hin | ⟨-, hin⟩
    · obtain ⟨id, d, hev, hkey⟩ := hi.logged u th k hin hk
      exact ⟨id, d, hkeep hev, hkey⟩
    · obtain ⟨prog, rfl, hno⟩ := hnew th hin
      cases prog <;> cases hk
      exact absurd rfl (hno _ _).1
  · intro u id d hev
    rw [hwait]
    exact hi.done u id d (hold rfl hev)
  · intro id d h
    have hsent' : .moveReply id d ∈ s'.net ∨ .run (.moveReply id d) ∈ new → .moveReplied id d ∈ s'.log := by
      intro hin
      rcases hsent id d hin with hnet | hin
      · exact hkeep (hi.sent id d (.inl hnet))
      · rw [hlog]
        exact List.mem_append_right _ hin
    rcases h with hnet | ⟨th, hth, htodo⟩ | ⟨woken, hev⟩
    · exact hsent' (.inl hnet)
    · rcases hmem hth with hin | hin
      · exact hkeep (hi.sent id d (.inr (.inl ⟨th, hin, htodo⟩)))
      · obtain ⟨prog, rfl, -⟩ := hnew th hin
        obtain rfl : prog = .moveReply id d := htodo
        exact hsent' (.inr hin)
    · exact hkeep (hi.sent id d (.inr (.inr ⟨woken, hold rfl hev⟩)))
  · intro th hth id d htodo
    rcases hmem hth with hin | hin
    · obtain ⟨d', hev, hd⟩ := hi.ready th hin id d htodo
      exact ⟨d', hkeep hev, hd⟩
    · obtain ⟨prog, rfl, hno⟩ := hnew th hin
      exact absurd htodo (hno id d).2

theorem inv_thread (hi : Inv me s) (hok : Alone me s (.thread t c)) (hs : threadStep me s t c = some s') :
    Inv me s' := by
  have htidy := tidy_thread hi.tidy hs
  have hlen : ∀ (e : Effect W), e.started = [] → (s.apply t e).threads.length = s.threads.length := by
    intro e he
    simp [State.apply, Pool.commit, he]
  rcases threadStep_cases hs with ⟨prog, e, ht, he, rfl⟩ | ⟨p, next, ht, rfl⟩ |
    ⟨p, call, call', syncer, next, ht, hc, rfl⟩
  · exact inv_effect hi hok ht he htidy
  · refine hi.same htidy (fun u => by rw [moveWait, waiting_done ht, moveWait]) (fun u th hu => ?_) (hlen _ rfl)
      (List.append_nil _) (List.append_nil _)
    rcases Pool.commit_nil_cases hu with ⟨rfl, rfl⟩ | ⟨-, hold⟩
    · refine ⟨_, ht, rfl, fun k hk => ?_⟩
      cases next <;> cases hk
      rfl
    · exact ⟨th, hold, rfl, fun _ hk => hk⟩
  · refine hi.same htidy (fun u => by rw [moveWait, waiting_call ht hc, moveWait]) (fun u th hu => ?_) (hlen _ rfl)
      (List.append_nil _) (List.append_nil _)
    rcases Pool.commit_nil_cases hu with ⟨rfl, rfl⟩ | ⟨-, hold⟩
    · exact ⟨_, ht, rfl, fun _ hk => hk⟩
    · exact ⟨th, hold, rfl, fun _ hk => hk⟩

/-- A spurious wake-up of another wait leaves the waits for moves alone. -/
theorem moveWait_spurious (hok : Alone me s (.spurious t)) (hs : spurious s t = some s') (u : Nat) :
    moveWait me s' u = moveWait me s u := by
  have hnone : moveWait me s t = none := hok
  by_cases hut : u = t
  · subst hut
    rw [hnone]
    cases hw : moveWait me s' u with
    | none => rfl
    | some k =>
      obtain ⟨next, hin, hk⟩ := moveWait_iff.mp hw
      cases hnone.symm.trans (moveWait_iff.mpr ⟨next, waiting_of_spurious hs hin, hk⟩)
  · rw [moveWait, waiting_spurious hs hut, moveWait]

theorem inv_spurious (hi : Inv me s) (hok : Alone me s (.spurious t)) (hs : spurious s t = some s') : Inv me s' := by
  have hwait := moveWait_spurious hok hs
  obtain ⟨p, cv, next, ht, hmem, rfl⟩ := spurious_cases hs
  exact hi.same (hi.tidy.release cv t) hwait (fun u th hu => ⟨th, hu, rfl, fun _ hk => hk⟩) rfl rfl rfl

theorem handler_plain {m : Msg} {prog : Prog W} (h : Msg.handler m = some prog) :
    (∀ id d, prog ≠ .erase id d ∧ prog ≠ .reply id d) ∧ ∀ id d, prog = .moveReply id d → m = .moveReply id d := by
  cases m <;> simp only [Msg.handler, Option.some.injEq, reduceCtorEq] at h
  all_goals
    subst h
    exact ⟨fun _ _ => ⟨by simp, by simp⟩, by simp⟩

theorem inv_deliver {i : Nat} (hi : Inv me s) (hs : deliver me s i c = some s') : Inv me s' := by
  have herase : ∀ m, m ∈ s.net.eraseIdx i → m ∈ s.net := fun _ hm => List.mem_of_mem_eraseIdx hm
  obtain ⟨msg, hmsg, hcase⟩ := deliver_cases hs
  rcases hcase with ⟨prog, hp, rfl⟩ | ⟨_, _, _, -, rfl⟩ | ⟨_, d, -, rfl⟩ | ⟨_, toId, d, -, -, -, rfl⟩ |
    ⟨_, toId, d, -, -, -, rfl⟩ | ⟨_, _, -, rfl⟩ | ⟨_, _, -, rfl⟩ | ⟨_, _, -, rfl⟩
  · refine hi.frame rfl rfl (List.append_nil _).symm ?_ (by simp) ?_
    · rintro _ hth
      obtain rfl := List.mem_singleton.mp hth
      exact ⟨prog, rfl, (handler_plain hp).1⟩
    · rintro id d (hm | hth)
      · exact .inl (herase _ hm)
      · obtain rfl : Prog.moveReply id d = prog := by simpa using hth
        obtain rfl := (handler_plain hp).2 id d rfl
        exact .inl (List.mem_of_getElem? hmsg)
  · refine hi.frame rfl (List.append_nil _).symm (List.append_nil _).symm (by simp) (by simp) ?_
    rintro id d (hm | hth)
    · exact .inl (herase _ (by simpa using hm))
    · simp at hth
  · refine hi.frame rfl rfl rfl ?_ (by simp [ofWait]) ?_
    · rintro _ hth
      obtain rfl := List.mem_singleton.mp hth
      exact ⟨_, rfl, fun _ _ => ⟨by simp, by simp⟩⟩
    · rintro id d' (hm | hth)
      · exact .inl (herase _ hm)
      · simp at hth
  · refine hi.frame rfl (List.append_nil _).symm (List.append_assoc _ _ _) (by simp) (by simp [ofWait]) ?_
    rintro id d' (hm | hth)
    · rcases List.mem_append.mp hm with hold | hnew
      · exact .inl (herase _ hold)
      · obtain ⟨rfl, rfl⟩ : id = toId ∧ d' = d := by simpa using hnew
        exact .inr (by simp)
    · simp at hth
  · refine hi.frame rfl (List.append_nil _).symm rfl (by simp) (by simp [ofWait]) ?_
    rintro id d' (hm | hth)
    · exact .inl (herase _ hm)
    · simp at hth
  all_goals
    refine hi.frame rfl (List.append_nil _).symm (List.append_nil _).symm (by simp) (by simp) ?_
    rintro id d (hm | hth)
    · refine .inl (herase _ ?_)
      first | exact hm | (cases hc : c.sent <;> simpa [hc] using hm)
    · simp at hth

theorem inv_step {a : Action} (hi : Inv me s) (hok : Alone me s a) (hs : step me s a = some s') : Inv me s' := by
  cases a with
  | thread t c => exact inv_thread hi hok hs
  | spurious t => exact inv_spurious hi hok hs
  | deliver i c => exact inv_deliver hi hs
  | lose i =>
    obtain ⟨_, _, _, -, rfl⟩ := lose_cases hs
    refine hi.frame rfl (List.append_nil _).symm (List.append_nil _).symm (by simp) (by simp) ?_
    rintro id d (hm | hth)
    · exact .inl (List.mem_of_mem_eraseIdx hm)
    · simp at hth
  | slave i c =>
    obtain ⟨hsync, -, -, hthreads⟩ := slave_frame hs
    obtain ⟨more, hlog, hmore, hnet⟩ : ∃ more, s'.log = s.log ++ more ∧ (∀ ev ∈ more, ofWait ev = false) ∧
        ∀ id d, .moveReply id d ∈ s'.net → .moveReply id d ∈ s.net := by
      obtain ⟨x, pc, -, -, hcase⟩ := slave_cases hs
      rcases hcase with ⟨-, -, hn, hl⟩ | ⟨_, -, -, -, hn, hl⟩ | ⟨-, -, -, hn, hl⟩ | ⟨-, -, -, hn, hl⟩ |
        ⟨-, -, hn, hl⟩ | ⟨-, -, -, hl, hn | hn⟩
      all_goals first
        | exact ⟨_, hl, by simp [ofWait], by simp [hn]⟩
        | exact ⟨[], by simp [hl], by simp, by simp [hn]⟩
    refine hi.frame hsync (hthreads.trans (List.append_nil _).symm) hlog (by simp) hmore ?_
    rintro id d (hm | hth)
    · exact .inl (hnet id d hm)
    · simp at hth
  | arrive r =>
    obtain rfl := Option.some.inj hs
    rcases arrive_cases me s r with ⟨_, hs'⟩ | ⟨appId, req, hs'⟩ | ⟨_, -, -, hs'⟩ <;> rw [hs']
    · exact hi.frame rfl (List.append_nil _).symm (List.append_nil _).symm (by simp) (by simp) (by simp)
    · refine hi.frame rfl rfl (List.append_nil _).symm ?_ (by simp) (by simp)
      rintro _ hth
      obtain rfl := List.mem_singleton.mp hth
      exact ⟨_, rfl, fun _ _ => ⟨by simp, by simp⟩⟩
    · exact hi.frame rfl (List.append_nil _).symm (List.append_nil _).symm (by simp) (by simp) (by simp)

end Step

/-! ## Where waits stand -/

section Within
variable {me : Int32} {s s' : State W} {t : Nat} {c : Choice}

/-- The point of the datum of a move. -/
def pointOf (k : Key) : UInt32 := Patch.hashStr (Patch.sdmMove ++ "_" ++ k.2)

/-- A thread that waits for a move does so at the point of its datum, and is within reach there. -/
structure Within (me : Int32) (s : State W) : Prop where
  paired : Syncer.Paired s.syncer
  point : ∀ (u : Nat) p call next k, s.threads[u]? = some (.calling p call next) → moves me next = some k → p = pointOf k
  reachable : ∀ (u : Nat) p call next, s.threads[u]? = some (.calling p call next) → (moves me next).isSome →
    call.Waiting s.syncer u → call.Reachable s.syncer p

theorem within_init (me : Int32) (w : W) : Within me (init me w) where
  paired := Syncer.paired_empty
  point _ _ _ _ _ h := by simp [init] at h
  reachable _ _ _ _ h := by simp [init] at h

theorem enters_point {prog next : Prog W} {p : UInt32} {k : Key} (h : enters prog = some (p, next))
    (hk : moves me next = some k) : p = pointOf k := by
  cases prog <;> simp only [enters, Option.some.injEq, Prod.mk.injEq, reduceCtorEq] at h
  case msend cId d fromId =>
    obtain ⟨rfl, rfl⟩ := h
    obtain rfl := Option.some.inj hk
    rfl
  all_goals
    obtain ⟨-, rfl⟩ := h
    cases hk

theorem within_effect {prog : Prog W} {e : Effect W} (h : Within me s) (htidy : Tidy s)
    (ht : s.threads[t]? = some (.run prog)) (he : effect me s t c prog = some e) : Within me (s.apply t e) := by
  have hmaps : e.syncer.pointCv = s.syncer.pointCv ∧ e.syncer.pointM = s.syncer.pointM := by
    rcases effect_releases htidy he with hsame | ⟨_, _, _, -, -, -, -, hrel⟩
    · rw [hsame]
      exact ⟨rfl, rfl⟩
    · rw [hrel]
      exact ⟨rfl, rfl⟩
  constructor
  · intro p
    show e.syncer.pointM p = (e.syncer.pointCv p).isSome
    rw [hmaps.1, hmaps.2]
    exact h.paired p
  · intro u p call next k hu hk
    rcases Pool.commit_cases hu with ⟨-, hth⟩ | ⟨-, hold⟩ | ⟨-, hstarted⟩
    · rcases effect_thread he with ⟨n, hn⟩ | ⟨q, n, hq, hn, -⟩
      · cases hth.trans hn
      · cases hth.trans hn
        exact enters_point hq hk
    · exact h.point u p call next k hold hk
    · rcases effect_started_mem he hstarted with ⟨_, _, _, hth⟩ | ⟨_, _, hth⟩ <;> cases hth
      obtain rfl := Option.some.inj hk
      rfl
  · intro u p call next hu hmove hw
    rcases Pool.commit_cases hu with ⟨-, hth⟩ | ⟨hut, hold⟩ | ⟨-, hstarted⟩
    · rcases effect_thread he with ⟨n, hn⟩ | ⟨q, n, -, hn, -⟩
      · cases hth.trans hn
      · cases hth.trans hn
        trivial
    · refine (Syncer.Call.reachable_congr call hmaps.1 hmaps.2).mpr (h.reachable u p call next hold hmove ?_)
      have hwait : waiting (s.apply t e) u = some next := waiting_iff.mpr ⟨p, call, hu, hw⟩
      rcases waiting_of_effect htidy ht he hwait with hin | ⟨hself, -⟩ | ⟨hlen, -⟩
      · obtain ⟨q, call', hu', hw'⟩ := waiting_iff.mp hin
        obtain ⟨-, rfl, -⟩ : p = q ∧ call = call' ∧ next = next := by simpa using hold.symm.trans hu'
        exact hw'
      · exact absurd hself hut
      · exact absurd (Pool.lt_of_getElem? hold) (by omega)
    · rcases effect_started_mem he hstarted with ⟨_, _, _, hth⟩ | ⟨_, _, hth⟩ <;> cases hth
      trivial

/-- No point is deleted under a wait for a move, so each stays within reach. -/
theorem within_call {p : UInt32} {call call' : Syncer.Call} {syncer : Syncer.State UInt32} {next : Prog W}
    (h : Within me s) (hok : Undisturbed me s (.thread t c)) (ht : s.threads[t]? = some (.calling p call next))
    (hc : call.step s.syncer p t = some (call', syncer)) :
    Within me (s.apply t { goOn s next with thread := .calling p call' next, syncer := syncer }) := by
  constructor
  · exact h.paired.step hc
  · intro u q d n k hu hk
    rcases Pool.commit_nil_cases hu with ⟨rfl, hth⟩ | ⟨-, hold⟩
    · cases hth
      exact h.point u _ _ _ k ht hk
    · exact h.point u q d n k hold hk
  · intro u q d n hu hmove hw
    rcases Pool.commit_nil_cases hu with ⟨rfl, hth⟩ | ⟨-, hold⟩
    · cases hth
      exact Syncer.Call.step_reachable h.paired hc hw
    · have hwas : d.Waiting s.syncer u := by
        have hwait : waiting s u = some n := by
          rw [← waiting_call ht hc u]
          exact waiting_iff.mpr ⟨q, d, hu, hw⟩
        obtain ⟨q', d', hu', hw'⟩ := waiting_iff.mp hwait
        obtain ⟨-, rfl, -⟩ : q = q' ∧ d = d' ∧ n = n := by simpa using hold.symm.trans hu'
        exact hw'
      refine Syncer.Call.step_reachable_other hc (h.reachable u q d n hold hmove hwas) ?_
      rintro rfl
      by_cases hadd : d = .add
      · exact .inl hadd
      · right
        rintro rfl
        have hapart := hok.2
        simp only [ht] at hapart
        refine hapart u (Pool.lt_of_getElem? hold) ?_
        simp only [standsAt, hold]
        exact if_pos ⟨hadd, hwas, hmove⟩

/-- New threads that are about to do something stand nowhere. -/
theorem Within.frame (h : Within me s) (hsync : s'.syncer = s.syncer) {new : List (Thread W)}
    (hthreads : s'.threads = s.threads ++ new) (hnew : ∀ th ∈ new, ∃ prog, th = .run prog) : Within me s' := by
  have hget : ∀ {u : Nat} {p call next}, s'.threads[u]? = some (.calling p call next) →
      s.threads[u]? = some (.calling p call next) := by
    intro u p call next hu
    rw [hthreads] at hu
    by_cases hlt : u < s.threads.length
    · rwa [List.getElem?_append_left hlt] at hu
    · rw [List.getElem?_append_right (by omega)] at hu
      obtain ⟨_, hprog⟩ := hnew _ (List.mem_of_getElem? hu)
      cases hprog
  exact ⟨hsync ▸ h.paired, fun u p call next k hu hk => h.point u p call next k (hget hu) hk,
    fun u p call next hu hmove hw => hsync ▸ h.reachable u p call next (hget hu) hmove (hsync ▸ hw)⟩

theorem within_step {a : Action} (h : Within me s) (htidy : Tidy s) (hok : Undisturbed me s a)
    (hs : step me s a = some s') : Within me s' := by
  cases a with
  | thread t c =>
    rcases threadStep_cases hs with ⟨prog, e, ht, he, rfl⟩ | ⟨p, next, ht, rfl⟩ |
      ⟨p, call, call', syncer, next, ht, hc, rfl⟩
    · exact within_effect h htidy ht he
    · have hget : ∀ {u : Nat} {q call n}, (s.apply t (goOn s next)).threads[u]? = some (.calling q call n) →
          s.threads[u]? = some (.calling q call n) := by
        intro u q call n hu
        rcases Pool.commit_nil_cases hu with ⟨-, hth⟩ | ⟨-, hold⟩
        · cases hth
        · exact hold
      exact ⟨h.paired, fun u q call n k hu hk => h.point u q call n k (hget hu) hk,
        fun u q call n hu hmove hw => h.reachable u q call n (hget hu) hmove hw⟩
    · exact within_call h hok ht hc
  | spurious t =>
    have hin : ∀ u next, waiting s' u = some next → waiting s u = some next :=
      fun u next hu => waiting_of_spurious hs hu
    obtain ⟨_, cv, _, -, -, rfl⟩ := spurious_cases hs
    refine ⟨h.paired, h.point, fun u p call next hu hmove hw => ?_⟩
    obtain ⟨q, call', hu', hw'⟩ := waiting_iff.mp (hin u next (waiting_iff.mpr ⟨p, call, hu, hw⟩))
    obtain ⟨-, rfl, -⟩ : p = q ∧ call = call' ∧ next = next := by simpa using hu.symm.trans hu'
    exact (Syncer.Call.reachable_congr call rfl rfl).mpr (h.reachable u p call next hu hmove hw')
  | deliver i c =>
    obtain ⟨hsync, -, -, new, hthreads, hnew⟩ := deliver_frame hs
    exact h.frame hsync hthreads hnew
  | lose i =>
    obtain ⟨_, _, _, -, rfl⟩ := lose_cases hs
    exact h.frame rfl (List.append_nil _).symm (by simp)
  | slave i c =>
    obtain ⟨hsync, -, -, hthreads⟩ := slave_frame hs
    exact h.frame hsync (hthreads.trans (List.append_nil _).symm) (by simp)
  | arrive r =>
    obtain rfl := Option.some.inj hs
    rcases arrive_cases me s r with ⟨_, hs'⟩ | ⟨_, _, hs'⟩ | ⟨_, -, -, hs'⟩ <;> rw [hs']
    · exact h.frame rfl (List.append_nil _).symm (by simp)
    · exact h.frame rfl rfl (by simp)
    · exact h.frame rfl (List.append_nil _).symm (by simp)

/-- Who waits for the move of a datum stands at the point of the datum. -/
theorem Within.standing (h : Within me s) {u : Nat} {id : Int32} {d : Datum}
    (hu : moveWait me s u = some (keyOf W id d)) : Standing me s u id d := by
  obtain ⟨next, hw, hk⟩ := moveWait_iff.mp hu
  obtain ⟨p, call, hth, hcall⟩ := waiting_iff.mp hw
  obtain rfl : p = movePoint W d := h.point u p call next _ hth hk
  exact ⟨hu, call, next, hth, h.reachable u _ call next hth (by rw [hk]; rfl) hcall⟩

/-- Where a move reply always finds its own wait alone, and no point is deleted under a wait, each reply completes
its own wait and strands no other. -/
theorem reply_completes_own (me : Int32) (w : W) {s : State W}
    (hr : Reaches (step me) (Undisturbed me) (init me w) s) : Attributed me s := by
  obtain ⟨hi, hwithin⟩ := hr.invariant (fun s => Inv me s ∧ Within me s) ⟨inv_init me w, within_init me w⟩
    fun _ _ _ hi hok hs => ⟨inv_step hi.1 hok.1 hs, within_step hi.2 hi.1.tidy hok hs⟩
  exact ⟨hi.toCompleted, fun t id d hev => (hi.kept t id d hev).imp_left hwithin.standing⟩

end Within

/-- A move reply of the DS is in the log. -/
def hasReplied (id : Int32) : Event → Bool
  | .moveReplied id' _ => id' = id
  | _ => false

/-- Two slaves ask for the same datum: the move reply of slave 2 completes the wait for slave 1. -/
theorem reply_completes_other : ¬ ∀ s : State MWASpace.State,
    Reaches (step 0) free (init 0 (MWASpace.empty 4 false)) s → Attributed 0 s := by
  intro h
  obtain ⟨s, hs, htest⟩ := Transition.run_reaches_of_any (step 0)
    (init 0 (MWASpace.empty 4 false) : State MWASpace.State)
    [.arrive (.connUp 1), .deliver 0 choice, .thread 0 choice,
      .arrive (.connUp 2), .deliver 0 choice, .thread 1 choice,
      .arrive (.put 0 7 (unitBox "u")), .thread 2 choice, .thread 2 choice, .thread 2 choice,
      .arrive (.get 1 5 true (unitBox "u")), .slave 0 choice, .slave 0 choice, .slave 0 choice,
      .deliver 0 choice, .thread 3 choice, .thread 3 choice, .deliver 0 choice, .slave 0 miss,
      .arrive (.get 2 6 true (unitBox "u")), .slave 1 choice, .slave 1 choice, .slave 1 choice,
      .deliver 1 choice, .thread 4 choice, .thread 4 choice, .deliver 1 choice, .slave 1 miss,
      .deliver 0 choice, .thread 5 choice, .thread 5 choice, .thread 5 choice, .thread 5 choice, .thread 5 choice,
      .deliver 0 choice, .thread 8 choice, .thread 8 choice, .thread 8 choice, .thread 8 choice, .thread 8 choice,
      .thread 6 choice, .thread 6 choice, .thread 9 choice, .thread 9 choice,
      .deliver 1 choice, .deliver 1 choice, .thread 11 (wakes 6),
      .thread 6 choice, .thread 6 choice, .thread 6 choice, .thread 6 choice, .thread 6 choice]
    (fun s => decide (.replied 6 1 (unitBox "u") ∈ s.log ∧ ∀ ev ∈ s.log, hasReplied 1 ev = false)) (by decide)
  obtain ⟨hreplied, hnone⟩ := of_decide_eq_true htest
  obtain ⟨pre, post, hsplit⟩ := List.append_of_mem hreplied
  obtain ⟨d', hmoved, -⟩ := (h s hs).replied pre _ post hsplit
  have := hnone _ (by rw [hsplit]; exact List.mem_append_left _ hmoved)
  simp [hasReplied] at this

theorem reply_completes_wait : ∃ s : State MWASpace.State,
    .replied 4 1 (unitBox "u") ∈ s.log ∧ Attributed 0 s := by
  obtain ⟨s, hs, htest⟩ := Transition.runWhere_reaches_of_any (step 0) (Undisturbed 0)
    (init 0 (MWASpace.empty 4 false) : State MWASpace.State)
    [.arrive (.connUp 1), .deliver 0 choice, .thread 0 choice,
      .arrive (.put 0 7 (unitBox "u")), .thread 1 choice, .thread 1 choice, .thread 1 choice,
      .arrive (.get 1 5 true (unitBox "u")), .slave 0 choice, .slave 0 choice, .slave 0 choice,
      .deliver 0 choice, .thread 2 choice, .thread 2 choice, .deliver 0 choice, .slave 0 miss,
      .deliver 0 choice, .thread 3 choice, .thread 3 choice, .thread 3 choice, .thread 3 choice, .thread 3 choice,
      .thread 4 choice, .thread 4 choice, .deliver 0 choice, .deliver 0 choice, .thread 6 (wakes 4),
      .thread 4 choice, .thread 4 choice, .thread 4 choice, .thread 4 choice, .thread 4 choice]
    (fun s => decide (.replied 4 1 (unitBox "u") ∈ s.log)) (by decide)
  exact ⟨s, of_decide_eq_true htest, reply_completes_own 0 _ hs⟩

end MoveReply
