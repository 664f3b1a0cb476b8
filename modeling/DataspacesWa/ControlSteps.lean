import DataspacesWa.SDMControl

/-!
# What a step of the control can do

One lemma for each thing the threads share: who notifies, who starts to wait,
who starts threads, who changes the moving sets and the space. The claims about
runs are derived from these, and from the order that the sync points of the
master are in whatever happens.
-/
namespace ControlSteps

open Function (update)
open Patch (Datum)
open Syncer (Call Counted)
open WASpace (Operations Space Grows)
open SDMControl

variable {W : Type} [Operations W]

/-- The sync point a thread is about to notify. -/
def notifies : Prog W → Option UInt32
  | .notifyPut d _ => some (queryPoint W d)
  | .put _ d => some (queryPoint W d)
  | .remotePut d => some (queryPoint W d)
  | .moveReply _ d => some (movePoint W d)
  | .delReply d => some (delPoint W d)
  | _ => none

-- decided at the one point there is, not over the 32-bit numbers
instance decidableNotifies (prog : Prog W) (P : UInt32 → Prop) [DecidablePred P] : Decidable (∀ p ∈ notifies prog, P p) :=
  Option.decidableForallMem (notifies prog)

/-- The sync point a thread may be about to wait at, and what it does next. -/
def enters : Prog W → Option (UInt32 × Prog W)
  | .query j => some (queryPoint W j.datum, .requery j)
  | .mquery cId d => some (queryPoint W d, .mrequery cId d)
  | .msend cId d _ => some (movePoint W d, .mgot cId d)
  | .del _ d k => some (delPoint W d, .resume k)
  | _ => none

/-- What a thread does next, or when its calls at a sync point are over. -/
def todo : Thread W → Prog W
  | .calling _ _ next => next
  | .run prog => prog

/-- The thread has come to its end. -/
def finished : Thread W → Bool
  | .run .ended => true
  | _ => false

theorem finished_todo {th : Thread W} (h : finished th = true) : todo th = .ended := by
  unfold finished at h
  split at h
  · rfl
  · cases h

/-- What may come next for a thread. -/
def Next : Prog W → Prog W → Prop
  | .check j, next => next = j.after ∨ next = .push j
  | .push j, next => next = .query j
  | .query j, next => (∃ fromId, next = .act j fromId) ∨ next = .requery j ∨ next = j.after
  | .requery j, next => (∃ fromId, next = .act j fromId) ∨ next = j.after
  | .act j fromId, next => next = .send j fromId
  | .send j _, next => next = j.after
  | .erase toId d, next => next = .reply toId d
  | .get cId _ d, next => next = .addAccess cId d ∨ next = .mquery cId d ∨ next = .ended
  | .mquery cId d, next => (∃ fromId, next = .mact cId d fromId) ∨ next = .mrequery cId d
  | .mrequery cId d, next => (∃ fromId, next = .mact cId d fromId) ∨ next = .ended
  | .mact cId d fromId, next => next = .mgot cId d ∨ next = .msend cId d fromId
  | .msend cId d _, next => next = .mgot cId d ∨ next = .ended
  | .mgot cId d, next => next = .addAccess cId d ∨ next = .ended
  | .addAccess _ _, next => ∃ r, next = afterAccess r
  | .resume _, next => ∃ r, next = afterAccess r
  | .del _ _ k, next => next = .resume k
  | .putNotification _ _ d, next => ∃ done, next = .notifyPut d done
  | .put pId d, next => next = .ended ∨ next = .putSpace pId d
  | .remotePut d, next => next = .ended ∨ next = .remoteSpace d
  | .remoteSpace d, next => next = .ended ∨ ∃ me, next = .moveReply me d
  | .regAppHere appId req, next => next = req.prog appId
  | .regApp id appId, next => next = .ended ∨ next = .regAppReply id appId
  | _, next => next = .ended

section Effect
variable {me : Int32} {s : State W} {t : Nat} {c : Choice} {prog : Prog W} {e : Effect W}

theorem effect_next (he : effect me s t c prog = some e) : Next prog (todo e.thread) := by
  revert he
  fun_cases effect me s t c prog
  all_goals
    intro he
    simp only [access, notify, Option.map_eq_some_iff, Option.some.injEq, reduceCtorEq] at he
  all_goals first
    | (subst he; simp [Next, goOn, enter, todo]; done)
    | (subst he; simp only [Next, goOn, todo]; split <;> simp)
    | (obtain ⟨_, ⟨_, _, rfl⟩, rfl⟩ := he; simp [Next, goOn, todo])
    | (obtain ⟨_, _, rfl⟩ := he; simp [Next, goOn, todo]; done)
    | (obtain ⟨⟨_, done⟩, _, rfl⟩ := he; cases done <;> simp [Next, goOn, todo])

/-- What the threads of the master send. -/
theorem effect_sent (he : effect me s t c prog = some e) {m : Msg} (hm : m ∈ e.sent) :
    (∃ j fromId, prog = .send j fromId ∧
        (fromId = me ∧ m = .data me j.toId j.datum ∨ fromId ≠ me ∧ m = .move fromId j.toId j.datum)) ∨
      (∃ toId d, prog = .reply toId d ∧ m = .squeryReply toId d) ∨
      (∃ cId d fromId, prog = .msend cId d fromId ∧ m = .move fromId me d) ∨
      (∃ toId d k, prog = .del toId d k ∧ m = .del toId d) ∨
      ∃ id appId, prog = .regAppReply id appId ∧ m = .regAppReply id appId := by
  revert he
  fun_cases effect me s t c prog
  all_goals
    intro he
    simp only [access, notify, Option.map_eq_some_iff, Option.some.injEq, reduceCtorEq] at he
  all_goals first
    | (subst he; simp_all [goOn, enter])
    | (obtain ⟨_, ⟨_, _, rfl⟩, rfl⟩ := he; simp [goOn] at hm)
    | (obtain ⟨_, _, rfl⟩ := he; simp [goOn] at hm)

/-- Only a notification touches the sync points. -/
theorem effect_syncer (he : effect me s t c prog = some e) :
    e.syncer = s.syncer ∨ ∃ p, notifies prog = some p ∧ Syncer.notify s.syncer p c.woken = some e.syncer := by
  revert he
  fun_cases effect me s t c prog
  all_goals
    intro he
    simp only [access, notify, Option.map_eq_some_iff, Option.some.injEq, reduceCtorEq] at he
  all_goals first
    | (subst he; exact .inl rfl)
    | (obtain ⟨_, _, rfl⟩ := he; exact .inl rfl)
    | (obtain ⟨_, hn, rfl⟩ := he; exact .inr ⟨_, rfl, hn⟩)
    | (obtain ⟨_, ⟨_, hn, rfl⟩, rfl⟩ := he; exact .inr ⟨_, rfl, hn⟩)

/-- A thread goes on, or it enters the calls at a sync point and starts no thread. -/
theorem effect_thread (he : effect me s t c prog = some e) :
    (∃ next, e.thread = .run next) ∨
      ∃ p next, enters prog = some (p, next) ∧ e.thread = .calling p .add next ∧ e.started = [] := by
  revert he
  fun_cases effect me s t c prog
  all_goals
    intro he
    simp only [access, notify, Option.map_eq_some_iff, Option.some.injEq, reduceCtorEq] at he
  all_goals first
    | (subst he; exact .inl ⟨_, rfl⟩)
    | (subst he; exact .inr ⟨_, _, rfl, rfl, rfl⟩)
    | (obtain ⟨_, _, rfl⟩ := he; exact .inl ⟨_, rfl⟩)
    | (obtain ⟨_, ⟨_, _, rfl⟩, rfl⟩ := he; exact .inl ⟨_, rfl⟩)

/-- Threads are started where a move is begun, and where `sdm_mquery` reports an access. -/
theorem effect_started (he : effect me s t c prog = some e) :
    e.started = [] ∨ (∃ j fromId, prog = .act j fromId ∧ e.started = j.threads) ∨
      ∃ cId d fromId, prog = .mact cId d fromId ∧ e.started = [.run (.addAccess cId d)] := by
  revert he
  fun_cases effect me s t c prog
  all_goals
    intro he
    simp only [access, notify, Option.map_eq_some_iff, Option.some.injEq, reduceCtorEq] at he
  all_goals first
    | (subst he; exact .inl rfl)
    | (subst he; exact .inr (.inl ⟨_, _, rfl, rfl⟩))
    | (subst he; exact .inr (.inr ⟨_, _, _, rfl, rfl⟩))
    | (obtain ⟨_, _, rfl⟩ := he; exact .inl rfl)
    | (obtain ⟨_, ⟨_, _, rfl⟩, rfl⟩ := he; exact .inl rfl)

/-- A thread that is started is one of `wait_for_move` or one of `add_access`. -/
theorem effect_started_mem (he : effect me s t c prog = some e) {th : Thread W} (hth : th ∈ e.started) :
    (∃ j fromId, prog = .act j fromId ∧
        th = .calling (movePoint W j.datum) .add (.erase j.toId j.datum)) ∨
      ∃ cId d, th = .run (.addAccess cId d) := by
  rcases effect_started he with hnone | ⟨j, fromId, rfl, hstarted⟩ | ⟨cId, d, _, -, hstarted⟩
  · simp [hnone] at hth
  · rw [hstarted, Job.threads, List.mem_cons] at hth
    rcases hth with rfl | hth
    · exact .inl ⟨j, fromId, rfl, rfl⟩
    · split at hth
      · exact .inr ⟨_, _, by simpa using hth⟩
      · simp at hth
  · exact .inr ⟨cId, d, by simpa [hstarted] using hth⟩

/-- The moving sets change where a job claims its datum, and where a wait is over. -/
theorem effect_moving (he : effect me s t c prog = some e) :
    e.moving = s.moving ∨
      (∃ j, prog = .push j ∧
        e.moving = update s.moving j.toId (s.moving j.toId ++ [dataId W j.datum])) ∨
      ∃ toId d, prog = .erase toId d ∧ dataId W d ∈ s.moving toId ∧
        e.moving = update s.moving toId ((s.moving toId).erase (dataId W d)) := by
  revert he
  fun_cases effect me s t c prog
  all_goals
    intro he
    simp only [access, notify, Option.map_eq_some_iff, Option.some.injEq, reduceCtorEq] at he
  all_goals first
    | (subst he; exact .inl rfl)
    | (subst he; exact .inr (.inl ⟨_, rfl, rfl⟩))
    | (subst he; exact .inr (.inr ⟨_, _, rfl, by assumption, rfl⟩))
    | (obtain ⟨_, _, rfl⟩ := he; exact .inl rfl)
    | (obtain ⟨_, ⟨_, _, rfl⟩, rfl⟩ := he; exact .inl rfl)

/-- What each step of a thread puts into the log. -/
theorem effect_events (he : effect me s t c prog = some e) {ev : Event} (hev : ev ∈ e.events) :
    (∃ j, prog = .requery j ∧ Operations.query s.space j.datum = none ∧ ev = .unavailable j.datum) ∨
      (∃ cId d, prog = .mrequery cId d ∧ Operations.query s.space d = none ∧ ev = .unavailable d) ∨
      (∃ j fromId, prog = .act j fromId ∧ ev = .waits s.threads.length j.toId j.datum) ∨
      (∃ j fromId, prog = .send j fromId ∧ ev = .issued fromId j.toId j.datum) ∨
      (∃ toId d, prog = .reply toId d ∧ toId ≠ me ∧ ev = .replied t toId d) ∨
      (∃ cId d fromId, prog = .msend cId d fromId ∧ (ev = .issued fromId me d ∨ ev = .waits t me d)) ∨
      (∃ d, prog = .notifyPut d true ∧ ev = .recorded d) ∨
      (∃ pId d, prog = .put pId d ∧ ev = .putAt me d) ∨
      (∃ pId d w, prog = .putSpace pId d ∧ Operations.put s.space pId d = some (w, true) ∧
        e.space = w ∧ ev = .recorded d) ∨
      (∃ d w, prog = .remoteSpace d ∧ Operations.put s.space remotePId d = some (w, true) ∧
        e.space = w ∧ (ev = .recorded d ∨ ev = .moveReplied me d)) ∨
      ∃ id d, prog = .moveReply id d ∧ ev = .handled id d c.woken := by
  revert he
  fun_cases effect me s t c prog
  all_goals
    intro he
    simp only [access, notify, Option.map_eq_some_iff, Option.some.injEq, reduceCtorEq] at he
  all_goals first
    | (subst he; simp_all [goOn, enter])
    | (obtain ⟨_, _, rfl⟩ := he; simp_all [goOn]; done)
    | (obtain ⟨⟨_, done⟩, _, rfl⟩ := he; cases done <;> simp_all)

end Effect

/-- Whatever a thread does, what is in the space stays there. -/
theorem effect_space {W : Type} [Space W] {me : Int32} {s : State W} {t : Nat} {c : Choice}
    {prog : Prog W} {e : Effect W} (he : effect me s t c prog = some e) : Grows s.space e.space := by
  revert he
  fun_cases effect me s t c prog
  all_goals
    intro he
    simp only [access, notify, Option.map_eq_some_iff, Option.some.injEq, reduceCtorEq] at he
  all_goals first
    | (subst he; exact .refl _)
    | (obtain ⟨_, _, rfl⟩ := he; exact .refl _)
    | (obtain ⟨_, ⟨_, _, rfl⟩, rfl⟩ := he; exact .refl _)
    | (obtain ⟨_, hput, rfl⟩ := he; exact Space.put_grows _ _ _ _ _ hput)
    | (obtain ⟨_, hacc, rfl⟩ := he; exact Space.addAccess_grows _ _ _ _ _ _ hacc)
    | (obtain ⟨_, hres, rfl⟩ := he; exact Space.resume_grows _ _ _ _ _ hres)
    | (subst he; exact Space.regDs_grows _ _)
    | (subst he; exact Space.regApp_grows _ _ _ _ (by assumption))

/-! ## Steps of threads -/

section Threads
variable {me : Int32} {s s' : State W} {t : Nat} {c : Choice}

/-- A thread does what it is about to do, or it makes its next call at a sync point. -/
theorem threadStep_cases (hs : threadStep me s t c = some s') :
    (∃ prog e, s.threads[t]? = some (.run prog) ∧ effect me s t c prog = some e ∧ s' = s.apply t e) ∨
      (∃ p next, s.threads[t]? = some (.calling p .done next) ∧ s' = s.apply t (goOn s next)) ∨
      ∃ p call call' syncer next, s.threads[t]? = some (.calling p call next) ∧
        call.step s.syncer p t = some (call', syncer) ∧
        s' = s.apply t { goOn s next with thread := .calling p call' next, syncer := syncer } := by
  obtain ⟨th, hth, hstep⟩ := Option.bind_eq_some_iff.mp hs
  cases th with
  | run prog =>
    obtain ⟨e, he, rfl⟩ := Option.map_eq_some_iff.mp hstep
    exact .inl ⟨prog, e, hth, he, rfl⟩
  | calling p call next =>
    by_cases hdone : call = .done
    · subst hdone
      exact .inr (.inl ⟨p, next, hth, (Option.some.inj hstep).symm⟩)
    · have hcall : (call.step s.syncer p t).map (fun r =>
          s.apply t { goOn s next with thread := .calling p r.1 next, syncer := r.2 }) = some s' := by
        cases call <;> first | exact hstep | exact absurd rfl hdone
      obtain ⟨⟨call', syncer⟩, hcs, rfl⟩ := Option.map_eq_some_iff.mp hcall
      exact .inr (.inr ⟨p, call, call', syncer, next, hth, hcs, rfl⟩)

/-- A thread that makes a call leaves what the others are about to do. -/
theorem run_mem_apply {p : UInt32} {call : Call} {next prog : Prog W} (e : Effect W)
    (ht : s.threads[t]? = some (.calling p call next)) (h : .run prog ∈ s.threads) :
    .run prog ∈ (s.apply t e).threads := by
  obtain ⟨j, hj⟩ := List.getElem?_of_mem h
  refine List.mem_of_getElem? (Pool.commit_other hj ?_ _ _)
  rintro rfl
  cases hj.symm.trans ht

/-- A message is handled in a new thread of the master, or by a slave, which may send another. -/
theorem deliver_cases {i : Nat} (hs : deliver me s i c = some s') :
    ∃ msg, s.net[i]? = some msg ∧
      ((∃ prog, Msg.handler msg = some prog ∧
          s' = { s with net := s.net.eraseIdx i, threads := s.threads ++ [.run prog] }) ∨
        (∃ id toId d, msg = .move id toId d ∧
          s' = { s with net := s.net.eraseIdx i ++ [.data id toId d] }) ∨
        (∃ fromId d, msg = .data fromId me d ∧
          s' = { s with
            net := s.net.eraseIdx i
            threads := s.threads ++ [.run (.remotePut d)]
            log := s.log ++ [.stored me d] }) ∨
        (∃ fromId toId d, msg = .data fromId toId d ∧ toId ≠ me ∧ c.sent = true ∧
          s' = { s with
            net := s.net.eraseIdx i ++ [.moveReply toId d]
            log := s.log ++ [.stored toId d] ++ [.moveReplied toId d] }) ∨
        (∃ fromId toId d, msg = .data fromId toId d ∧ toId ≠ me ∧ c.sent = false ∧
          s' = { s with net := s.net.eraseIdx i, log := s.log ++ [.stored toId d] }) ∨
        (∃ id d, msg = .del id d ∧
          s' = { s with net := s.net.eraseIdx i ++ if c.sent then [.delReply d] else [] }) ∨
        (∃ id d, msg = .squeryReply id d ∧
          s' = { s with
            net := s.net.eraseIdx i
            slaves := s.slaves.map (wakeGet (W := W) id (dataId W d)) }) ∨
        ∃ id appId, msg = .regAppReply id appId ∧
          s' = { s with net := s.net.eraseIdx i, slaves := s.slaves.map (wakeReg id appId) }) := by
  obtain ⟨msg, hmsg, rfl⟩ := Option.map_eq_some_iff.mp hs
  refine ⟨msg, hmsg, ?_⟩
  cases msg with
  | move id toId d => exact .inr (.inl ⟨id, toId, d, rfl, rfl⟩)
  | data fromId toId d =>
    by_cases hme : toId = me
    · subst hme
      exact .inr (.inr (.inl ⟨fromId, d, rfl, by simp⟩))
    · cases hsent : c.sent
      · exact .inr (.inr (.inr (.inr (.inl ⟨fromId, toId, d, rfl, hme, rfl, by simp [hme]⟩))))
      · exact .inr (.inr (.inr (.inl ⟨fromId, toId, d, rfl, hme, rfl, by simp [hme]⟩)))
  | del id d =>
    refine .inr (.inr (.inr (.inr (.inr (.inl ⟨id, d, rfl, ?_⟩)))))
    cases hsent : c.sent <;> simp
  | squeryReply id d => exact .inr (.inr (.inr (.inr (.inr (.inr (.inl ⟨id, d, rfl, rfl⟩))))))
  | regAppReply id appId => exact .inr (.inr (.inr (.inr (.inr (.inr (.inr ⟨id, appId, rfl, rfl⟩))))))
  | connUp | regApp | access | putNotification | squery | moveReply | delReply =>
    exact .inl ⟨_, rfl, rfl⟩

theorem lose_cases {i : Nat} (hs : lose s i = some s') :
    ∃ fromId toId d, s.net[i]? = some (.data fromId toId d) ∧ s' = { s with net := s.net.eraseIdx i } := by
  obtain ⟨msg, hmsg, hstep⟩ := Option.bind_eq_some_iff.mp hs
  cases msg with
  | data fromId toId d => exact ⟨fromId, toId, d, hmsg, (Option.some.inj hstep).symm⟩
  | _ => cases hstep

end Threads

section Net
variable {me : Int32} {s s' : State W} {c : Choice} {i : Nat} {m : Msg}

/-- What is in the net stays there, but for the message that is delivered. -/
theorem deliver_mem (hs : deliver me s i c = some s') (hm : m ∈ s.net) :
    m ∈ s'.net ∨ s.net[i]? = some m := by
  obtain ⟨msg, hmsg, hcase⟩ := deliver_cases hs
  rcases Pool.mem_eraseIdx_or hmsg hm with hrest | rfl
  · left
    rcases hcase with ⟨_, -, rfl⟩ | ⟨_, _, _, -, rfl⟩ | ⟨_, _, -, rfl⟩ | ⟨_, _, _, -, -, -, rfl⟩ |
      ⟨_, _, _, -, -, -, rfl⟩ | ⟨_, _, -, rfl⟩ | ⟨_, _, -, rfl⟩ | ⟨_, _, -, rfl⟩ <;> simp [hrest]
  · exact .inr hmsg

/-- A message can only end the wait of a request at a slave. -/
theorem deliver_slaves (hs : deliver me s i c = some s') {y : Slave} (hy : y ∈ s'.slaves) :
    ∃ x ∈ s.slaves, y = x ∨ x.pc = .waitGet ∧ y = { x with pc := .ended } ∨
      x.pc = .waitReg ∧ y = { x with pc := .serve } := by
  obtain ⟨msg, -, hcase⟩ := deliver_cases hs
  rcases hcase with ⟨_, -, rfl⟩ | ⟨_, _, _, -, rfl⟩ | ⟨_, _, -, rfl⟩ | ⟨_, _, _, -, -, -, rfl⟩ |
    ⟨_, _, _, -, -, -, rfl⟩ | ⟨_, _, -, rfl⟩ | ⟨_, _, -, rfl⟩ | ⟨_, _, -, rfl⟩
  case inr.inr.inr.inr.inr.inr.inl =>
    obtain ⟨x, hx, rfl⟩ := List.mem_map.mp hy
    refine ⟨x, hx, ?_⟩
    unfold wakeGet
    split
    · rename_i hwake
      exact .inr (.inl ⟨hwake.2.1, rfl⟩)
    · exact .inl rfl
  case inr.inr.inr.inr.inr.inr.inr =>
    obtain ⟨x, hx, rfl⟩ := List.mem_map.mp hy
    refine ⟨x, hx, ?_⟩
    unfold wakeReg
    split
    · rename_i hwake
      exact .inr (.inr ⟨hwake.2.1, rfl⟩)
    · exact .inl rfl
  all_goals exact ⟨y, hy, .inl rfl⟩

/-- A message to the master is handled in a new thread. -/
theorem deliver_handler {prog : Prog W} (hs : deliver me s i c = some s') (hm : s.net[i]? = some m)
    (hprog : Msg.handler m = some prog) :
    s' = { s with net := s.net.eraseIdx i, threads := s.threads ++ [.run prog] } := by
  obtain ⟨msg, hmsg, hcase⟩ := deliver_cases hs
  obtain rfl : m = msg := Option.some.inj (hm.symm.trans hmsg)
  rcases hcase with ⟨_, hp, rfl⟩ | ⟨_, _, _, rfl, -⟩ | ⟨_, _, rfl, -⟩ | ⟨_, _, _, rfl, -⟩ |
    ⟨_, _, _, rfl, -⟩ | ⟨_, _, rfl, -⟩ | ⟨_, _, rfl, -⟩ | ⟨_, _, rfl, -⟩
  · obtain rfl := Option.some.inj (hprog.symm.trans hp)
    rfl
  all_goals cases hprog

theorem lose_mem (hs : lose s i = some s') (hm : m ∈ s.net) :
    m ∈ s'.net ∨ ∃ fromId toId d, m = .data fromId toId d := by
  obtain ⟨fromId, toId, d, hmsg, rfl⟩ := lose_cases hs
  rcases Pool.mem_eraseIdx_or hmsg hm with hrest | rfl
  · exact .inl hrest
  · exact .inr ⟨fromId, toId, d, rfl⟩

end Net

/-! ## The order that the sync points are always in -/

/-- Every point is added for one peer, and who waits on a condition variable is a
thread that is blocked there. -/
structure Tidy (s : State W) : Prop where
  counted : Counted s.syncer
  nodup : ∀ cv, (s.syncer.waiters cv).Nodup
  blocked : ∀ cv t, t ∈ s.syncer.waiters cv → ∃ p next, s.threads[t]? = some (.calling p (.blocked cv) next)

theorem tidy_init (me : Int32) (w : W) : Tidy (init me w) where
  counted := Syncer.counted_empty
  nodup _ := List.nodup_nil
  blocked _ _ h := by simp [init, Syncer.empty] at h

section Tidy
variable {me : Int32} {s s' : State W} {t : Nat} {c : Choice}

/-- Nothing changes where the sync points stay as they are and the waiting threads go on to wait. -/
theorem Tidy.extend (h : Tidy s) (hsync : s'.syncer = s.syncer)
    (hthreads : ∀ u p cv next, s.threads[u]? = some (.calling p (.blocked cv) next) →
      u ∈ s.syncer.waiters cv → s'.threads[u]? = some (.calling p (.blocked cv) next)) : Tidy s' where
  counted := by rw [hsync]; exact h.counted
  nodup cv := by rw [hsync]; exact h.nodup cv
  blocked cv u hu := by
    rw [hsync] at hu
    obtain ⟨p, next, hn⟩ := h.blocked cv u hu
    exact ⟨p, next, hthreads u p cv next hn hu⟩

theorem Tidy.release (h : Tidy s) (cv u : Nat) : Tidy { s with syncer := Syncer.release s.syncer cv u } where
  counted p cv' hp := h.counted p cv' hp
  nodup cv' := by
    by_cases hc : cv' = cv
    · subst hc
      simpa using (h.nodup cv').erase u
    · simpa [Syncer.release_other _ _ hc] using h.nodup cv'
  blocked cv' v hv := by
    refine h.blocked cv' v ?_
    by_cases hc : cv' = cv
    · subst hc
      exact List.mem_of_mem_erase (by simpa using hv)
    · simpa [Syncer.release_other _ _ hc] using hv

/-- The sync points after a step of a thread's own: as before, or one thread released. -/
theorem effect_releases (h : Tidy s) {prog : Prog W} {e : Effect W} (he : effect me s t c prog = some e) :
    e.syncer = s.syncer ∨ ∃ p cv u, notifies prog = some p ∧ s.syncer.pointCv p = some cv ∧
      c.woken = some u ∧ u ∈ s.syncer.waiters cv ∧ e.syncer = Syncer.release s.syncer cv u := by
  rcases effect_syncer he with hsame | ⟨p, hp, hn⟩
  · exact .inl hsame
  · rcases h.counted.notify_cases hn with ⟨-, hsame, -⟩ | ⟨cv, u, hcv, hw, hu, hrel⟩
    · exact .inl hsame
    · exact .inr ⟨p, cv, u, hp, hcv, hw, hu, hrel⟩

theorem tidy_call {p : UInt32} {call call' : Call} {syncer : Syncer.State UInt32} {next : Prog W}
    (h : Tidy s) (ht : s.threads[t]? = some (.calling p call next))
    (hc : call.step s.syncer p t = some (call', syncer)) :
    Tidy (s.apply t { goOn s next with thread := .calling p call' next, syncer := syncer }) := by
  have hout : ∀ cv, (∀ c', call = .blocked c' → t ∉ s.syncer.waiters c') → t ∉ s.syncer.waiters cv := by
    intro cv hb hw
    obtain ⟨q, next', hn⟩ := h.blocked cv t hw
    obtain ⟨-, hcall, -⟩ : p = q ∧ call = .blocked cv ∧ next = next' := by
      simpa using ht.symm.trans hn
    exact hb cv hcall hw
  have others : ∀ cv u, u ∈ s.syncer.waiters cv → u ≠ t → ∃ q n,
      (Pool.commit s.threads t (.calling p call' next) [])[u]? = some (.calling q (.blocked cv) n) := by
    intro cv u hu hut
    obtain ⟨q, n, hn⟩ := h.blocked cv u hu
    exact ⟨q, n, Pool.commit_other hn hut _ _⟩
  cases call with
  | add =>
    simp only [Call.step, Option.some.injEq, Prod.mk.injEq] at hc
    obtain ⟨rfl, rfl⟩ := hc
    refine ⟨h.counted.add p, fun cv => by simpa [State.apply] using h.nodup cv, fun cv u hu => ?_⟩
    simp only [State.apply, Syncer.addSyncPoint_waiters] at hu
    exact others cv u hu fun hut => hout cv (by simp) (hut ▸ hu)
  | wait =>
    simp only [Call.step, Option.map_eq_some_iff, Prod.mk.injEq] at hc
    obtain ⟨⟨cv, y⟩, hw, rfl, rfl⟩ := hc
    obtain ⟨hcv, rfl⟩ := Syncer.wait_cases hw
    refine ⟨fun q cv' hq => h.counted q cv' hq, fun cv' => ?_, fun cv' u hu => ?_⟩
    · by_cases hcc : cv' = cv
      · subst hcc
        simpa [State.apply, List.nodup_append] using ⟨h.nodup cv', fun u hu hut => hout cv' (by simp) (hut ▸ hu)⟩
      · simpa [State.apply, Syncer.enter_other _ _ hcc] using h.nodup cv'
    · by_cases hut : u = t
      · subst hut
        by_cases hcc : cv' = cv
        · subst hcc
          exact ⟨p, next, Pool.commit_self ht _ _⟩
        · simp only [State.apply, Syncer.enter_other _ _ hcc] at hu
          exact absurd hu (hout cv' (by simp))
      · refine others cv' u ?_ hut
        by_cases hcc : cv' = cv
        · subst hcc; simpa [State.apply, hut] using hu
        · simpa [State.apply, Syncer.enter_other _ _ hcc] using hu
  | blocked cv =>
    simp only [Call.step, Option.ite_none_left_eq_some, Option.some.injEq, Prod.mk.injEq] at hc
    obtain ⟨hgone, rfl, rfl⟩ := hc
    refine ⟨h.counted, h.nodup, fun cv' u hu => others cv' u hu fun hut => ?_⟩
    exact hout cv' (by rintro _ ⟨⟩; exact hgone) (hut ▸ hu)
  | del =>
    simp only [Call.step, Option.some.injEq, Prod.mk.injEq] at hc
    obtain ⟨rfl, rfl⟩ := hc
    refine ⟨h.counted.del p, fun cv => by simpa [State.apply] using h.nodup cv, fun cv u hu => ?_⟩
    simp only [State.apply, Syncer.delSyncPoint_waiters] at hu
    exact others cv u hu fun hut => hout cv (by simp) (hut ▸ hu)
  | done => simp [Call.step] at hc

theorem tidy_thread (h : Tidy s) (hs : threadStep me s t c = some s') : Tidy s' := by
  rcases threadStep_cases hs with ⟨prog, e, ht, he, rfl⟩ | ⟨p, next, ht, rfl⟩ |
    ⟨p, call, call', syncer, next, ht, hc, rfl⟩
  · have hkeep : ∀ {x : State W}, Tidy x → x.threads = s.threads → x.syncer = e.syncer →
        Tidy (s.apply t e) := by
      intro x hx hthreads hsync
      refine hx.extend hsync.symm fun u p cv next hu _ => ?_
      rw [hthreads] at hu
      refine Pool.commit_other hu ?_ _ _
      rintro rfl
      cases hu.symm.trans ht
    rcases effect_releases h he with hsame | ⟨_, cv, u, _, _, _, _, hrel⟩
    · exact hkeep h rfl hsame.symm
    · exact hkeep (h.release cv u) rfl hrel.symm
  · refine h.extend rfl fun u q cv n hu _ => Pool.commit_other hu ?_ _ _
    rintro rfl
    cases hu.symm.trans ht
  · exact tidy_call h ht hc

theorem spurious_cases (hs : spurious s t = some s') :
    ∃ p cv next, s.threads[t]? = some (.calling p (.blocked cv) next) ∧ t ∈ s.syncer.waiters cv ∧
      s' = { s with syncer := Syncer.release s.syncer cv t } := by
  unfold spurious at hs
  split at hs
  · rename_i p cv next ht
    simp only [Syncer.spurious, Option.map_eq_some_iff, Option.ite_none_right_eq_some,
      Option.some.injEq] at hs
    obtain ⟨_, ⟨hmem, rfl⟩, rfl⟩ := hs
    exact ⟨p, cv, next, ht, hmem, rfl⟩
  · cases hs

theorem Tidy.append (h : Tidy s) (hsync : s'.syncer = s.syncer) (new : List (Thread W))
    (hthreads : s'.threads = s.threads ++ new) : Tidy s' :=
  h.extend hsync fun _ _ _ _ hu _ => by rw [hthreads]; exact Pool.append_other hu new

/-- Only the master's own threads touch its sync points. -/
theorem deliver_frame {i : Nat} (hs : deliver me s i c = some s') :
    s'.syncer = s.syncer ∧ s'.moving = s.moving ∧ s'.space = s.space ∧
      ∃ new, s'.threads = s.threads ++ new ∧ ∀ th ∈ new, ∃ prog, th = .run prog := by
  obtain ⟨msg, -, hcase⟩ := deliver_cases hs
  rcases hcase with ⟨prog, -, rfl⟩ | ⟨_, _, _, -, rfl⟩ | ⟨_, d, -, rfl⟩ | ⟨_, _, _, -, -, -, rfl⟩ |
    ⟨_, _, _, -, -, -, rfl⟩ | ⟨_, _, -, rfl⟩ | ⟨_, _, -, rfl⟩ | ⟨_, _, -, rfl⟩
  · exact ⟨rfl, rfl, rfl, _, rfl, by simp⟩
  · exact ⟨rfl, rfl, rfl, [], by simp⟩
  · exact ⟨rfl, rfl, rfl, _, rfl, by simp⟩
  all_goals exact ⟨rfl, rfl, rfl, [], by simp⟩

theorem slave_frame {i : Nat} (hs : slaveStep s i c = some s') :
    s'.syncer = s.syncer ∧ s'.moving = s.moving ∧ s'.space = s.space ∧ s'.threads = s.threads := by
  obtain ⟨x, -, hstep⟩ := Option.bind_eq_some_iff.mp hs
  dsimp only at hstep
  split at hstep
  all_goals repeat (first | split at hstep | (obtain rfl := Option.some.inj hstep; exact ⟨rfl, rfl, rfl, rfl⟩))
  cases hstep

/-- What a request does at its slave: it asks the master and waits, it puts and
acknowledges, or nothing that the master gets to see but an access. -/
theorem slave_cases {i : Nat} (hs : slaveStep s i c = some s') :
    ∃ (x : Slave) (pc : SlavePc), s.slaves[i]? = some x ∧ s'.slaves = s.slaves.set i { x with pc := pc } ∧
      ((x.pc = .send ∧ pc = .waitReg ∧ s'.net = s.net ++ [Msg.regApp x.id x.appId] ∧ s'.log = s.log) ∨
        (∃ blocking, x.pc = .serve ∧ x.req = .get blocking ∧ pc = .waitGet ∧
          s'.net = s.net ++ [Msg.squery x.id x.appId blocking x.datum] ∧ s'.log = s.log) ∨
        (x.pc = .serve ∧ x.req = .put ∧ pc = .reply ∧
          s'.net = s.net ++ [Msg.putNotification x.id x.appId x.datum] ∧
          s'.log = s.log ++ [Event.putAt x.id x.datum]) ∨
        (x.pc = .serve ∧ x.req = .put ∧ pc = .ended ∧ s'.net = s.net ∧
          s'.log = s.log ++ [Event.putAt x.id x.datum]) ∨
        (x.pc = .reply ∧ pc = .ended ∧ s'.net = s.net ∧ s'.log = s.log ++ [Event.acked x.id x.datum]) ∨
        (pc ≠ .waitReg ∧ pc ≠ .waitGet ∧ pc ≠ .reply ∧ s'.log = s.log ∧
          (s'.net = s.net ∨ s'.net = s.net ++ [Msg.access x.appId x.datum]))) := by
  obtain ⟨x, hx, hstep⟩ := Option.bind_eq_some_iff.mp hs
  obtain ⟨id, appId, d, req, pc⟩ := x
  cases pc with
  | serve =>
    cases req with
    | put =>
      dsimp only at hstep
      split at hstep <;>
        obtain rfl := Option.some.inj hstep <;>
        exact ⟨_, _, hx, rfl, by simp⟩
    | get blocking =>
      dsimp only at hstep
      repeat' split at hstep
      all_goals
        obtain rfl := Option.some.inj hstep
        refine ⟨_, _, hx, rfl, ?_⟩
        simp_all
  | send =>
    dsimp only at hstep
    split at hstep <;>
      obtain rfl := Option.some.inj hstep <;>
      exact ⟨_, _, hx, rfl, by simp⟩
  | test =>
    obtain rfl := Option.some.inj hstep
    refine ⟨_, _, hx, rfl, ?_⟩
    dsimp only
    split <;> simp
  | push | waitReg | waitGet | reply =>
    obtain rfl := Option.some.inj hstep
    exact ⟨_, _, hx, rfl, by simp⟩
  | ended => cases hstep

theorem arrive_cases (me : Int32) (s : State W) (r : Request) :
    (∃ id, arrive me s r = { s with net := s.net ++ [.connUp id] }) ∨
      (∃ appId next, arrive me s r = { s with threads := s.threads ++ [.run (.regAppHere appId next)] }) ∨
      ∃ x : Slave, x.id ≠ me ∧ x.pc = .test ∧ arrive me s r = { s with slaves := s.slaves ++ [x] } := by
  cases r with
  | connUp id => exact .inl ⟨id, rfl⟩
  | put id appId d =>
    by_cases hid : id = me
    · exact .inr (.inl ⟨appId, _, if_pos hid⟩)
    · exact .inr (.inr ⟨_, hid, rfl, if_neg hid⟩)
  | get id appId blocking d =>
    by_cases hid : id = me
    · exact .inr (.inl ⟨appId, _, if_pos hid⟩)
    · exact .inr (.inr ⟨_, hid, rfl, if_neg hid⟩)

/-- The sync points stay in order, whatever happens. -/
theorem tidy_step {a : Action} (h : Tidy s) (hs : step me s a = some s') : Tidy s' := by
  cases a with
  | thread t c => exact tidy_thread h hs
  | spurious t =>
    obtain ⟨_, cv, _, _, _, rfl⟩ := spurious_cases hs
    exact h.release cv t
  | deliver i c =>
    obtain ⟨hsync, -, -, new, hthreads, -⟩ := deliver_frame hs
    exact h.append hsync new hthreads
  | lose i =>
    obtain ⟨_, _, _, _, rfl⟩ := lose_cases hs
    exact h.append rfl [] (by simp)
  | slave i c =>
    obtain ⟨hsync, -, -, hthreads⟩ := slave_frame hs
    exact h.append hsync [] (by simpa using hthreads)
  | arrive r =>
    obtain rfl := Option.some.inj hs
    rcases arrive_cases me s r with ⟨id, hs'⟩ | ⟨appId, next, hs'⟩ | ⟨x, -, -, hs'⟩ <;> rw [hs']
    · exact h.append rfl [] (by simp)
    · exact h.append rfl _ rfl
    · exact h.append rfl [] (by simp)

end Tidy

/-! ## Who waits -/

/-- What a thread will do when its wait is over, as long as it waits. -/
def waiting (s : State W) (u : Nat) : Option (Prog W) :=
  match s.threads[u]? with
  | some (.calling _ call next) => if call.Waiting s.syncer u then some next else none
  | _ => none

/-- The only thread that waits on the condition variable of a point. -/
def sole (s : State W) (p : UInt32) : Option Nat :=
  match s.syncer.pointCv p with
  | none => none
  | some cv =>
    match s.syncer.waiters cv with
    | [u] => some u
    | _ => none

theorem sole_iff {s : State W} {p : UInt32} {u : Nat} :
    sole s p = some u ↔ ∃ cv, s.syncer.pointCv p = some cv ∧ s.syncer.waiters cv = [u] := by
  unfold sole
  split
  · rename_i hp
    simp [hp]
  · rename_i cv hp
    split
    · rename_i v hv
      simp [hp, hv]
    · rename_i hne
      simp only [hp, Option.some.injEq, exists_eq_left', reduceCtorEq, false_iff]
      exact hne u

section Waiting
variable {me : Int32} {s s' : State W} {t u : Nat} {c : Choice} {next : Prog W}

theorem waiting_iff : waiting s u = some next ↔
    ∃ p call, s.threads[u]? = some (.calling p call next) ∧ call.Waiting s.syncer u := by
  unfold waiting
  split
  · rename_i p call n hu
    simp only [Option.ite_none_right_eq_some, Option.some.injEq]
    constructor
    · rintro ⟨hw, rfl⟩
      exact ⟨p, call, hu, hw⟩
    · rintro ⟨q, call', hu', hw⟩
      obtain ⟨-, rfl, rfl⟩ : p = q ∧ call = call' ∧ n = next := by simpa using hu.symm.trans hu'
      exact ⟨hw, rfl⟩
  · rename_i hu
    constructor
    · simp
    · rintro ⟨p, call, hu', -⟩
      exact absurd hu' (hu p call next)

theorem waiting_congr (hthread : s'.threads[u]? = s.threads[u]?)
    (hwaiters : ∀ cv, u ∈ s'.syncer.waiters cv ↔ u ∈ s.syncer.waiters cv) : waiting s' u = waiting s u := by
  unfold waiting
  rw [hthread]
  split
  · rename_i p call n _
    have hcall : call.Waiting s'.syncer u ↔ call.Waiting s.syncer u := by
      cases call <;> simp [Call.Waiting, hwaiters]
    simp only [hcall]
  · rfl

/-- New threads that are about to do something wait for nothing. -/
theorem waiting_append (hsync : s'.syncer = s.syncer) {new : List (Thread W)}
    (hthreads : s'.threads = s.threads ++ new) (hnew : ∀ th ∈ new, ∃ prog, th = .run prog) (u : Nat) :
    waiting s' u = waiting s u := by
  by_cases hu : u < s.threads.length
  · refine waiting_congr ?_ (by simp [hsync])
    rw [hthreads, List.getElem?_append_left hu]
  · have hold : waiting s u = none := by
      simp [waiting, List.getElem?_eq_none (by omega : s.threads.length ≤ u)]
    rw [hold]
    unfold waiting
    split
    · rename_i p call n hu'
      rw [hthreads, List.getElem?_append_right (by omega)] at hu'
      obtain ⟨prog, hprog⟩ := hnew _ (List.mem_of_getElem? hu')
      cases hprog
    · rfl

/-- A thread that makes its next call does not let itself go, nor any other. -/
theorem waiting_call {p : UInt32} {call call' : Call} {syncer : Syncer.State UInt32} {next : Prog W}
    (ht : s.threads[t]? = some (.calling p call next))
    (hc : call.step s.syncer p t = some (call', syncer)) (u : Nat) :
    waiting (s.apply t { goOn s next with thread := .calling p call' next, syncer := syncer }) u =
      waiting s u := by
  by_cases hut : u = t
  · subst hut
    have hself : (s.apply u { goOn s next with thread := .calling p call' next, syncer := syncer }).threads[u]? =
        some (.calling p call' next) := Pool.commit_self ht _ _
    simp only [waiting, hself, ht]
    simp only [State.apply, Call.step_waiting hc]
  · refine waiting_congr ?_ fun cv => ?_
    · simp only [State.apply, goOn, Pool.commit_getElem?, hut, if_false]
      by_cases hlt : u < s.threads.length
      · simp [hlt]
      · simp [hlt]
    · cases call with
      | wait =>
        simp only [Call.step, Option.map_eq_some_iff, Prod.mk.injEq] at hc
        obtain ⟨⟨cv', y⟩, hw, rfl, rfl⟩ := hc
        obtain ⟨-, rfl⟩ := Syncer.wait_cases hw
        by_cases hcc : cv = cv'
        · subst hcc; simp [State.apply, hut]
        · simp [State.apply, Syncer.enter_other _ _ hcc]
      | blocked cv' =>
        simp only [Call.step, Option.ite_none_left_eq_some, Option.some.injEq, Prod.mk.injEq] at hc
        obtain ⟨-, rfl, rfl⟩ := hc
        rfl
      | add | del =>
        simp only [Call.step, Option.some.injEq, Prod.mk.injEq] at hc
        obtain ⟨rfl, rfl⟩ := hc
        simp [State.apply]
      | done => simp [Call.step] at hc

theorem waiting_done {p : UInt32} {next : Prog W} (ht : s.threads[t]? = some (.calling p .done next))
    (u : Nat) : waiting (s.apply t (goOn s next)) u = waiting s u := by
  by_cases hut : u = t
  · subst hut
    have hself : (s.apply u (goOn s next)).threads[u]? = some (.run next) := Pool.commit_self ht _ _
    simp [waiting, hself, ht, Call.Waiting]
  · refine waiting_congr ?_ fun _ => Iff.rfl
    simp only [State.apply, goOn, Pool.commit_getElem?, hut, if_false]
    by_cases hlt : u < s.threads.length <;> simp [hlt]

section Effect
variable {prog : Prog W} {e : Effect W}

/-- Who waits after a step waited before, or begins to, or is a thread just started. -/
theorem waiting_of_effect (h : Tidy s) (ht : s.threads[t]? = some (.run prog))
    (he : effect me s t c prog = some e) (hu : waiting (s.apply t e) u = some next) :
    waiting s u = some next ∨
      (u = t ∧ ∃ p, enters prog = some (p, next) ∧ e.thread = .calling p .add next) ∨
      u = s.threads.length ∧ ∃ j fromId, prog = .act j fromId ∧ next = .erase j.toId j.datum := by
  obtain ⟨p, call, hcall, hw⟩ := waiting_iff.mp hu
  rcases Pool.commit_cases hcall with ⟨rfl, hth⟩ | ⟨hut, hold⟩ | ⟨hlen, hnew⟩
  · rcases effect_thread he with ⟨n, hn⟩ | ⟨q, n, hq, hn, -⟩
    · cases hth.trans hn
    · obtain ⟨-, -, rfl⟩ : p = q ∧ call = .add ∧ next = n := by simpa using hth.trans hn
      exact .inr (.inl ⟨rfl, q, hq, hn⟩)
  · refine .inl (waiting_iff.mpr ⟨p, call, hold, ?_⟩)
    rcases effect_releases h he with hsame | ⟨_, cv, v, _, _, _, _, hrel⟩
    · simpa [State.apply, hsame] using hw
    · cases call with
      | blocked cv' =>
        simp only [State.apply, hrel, Call.Waiting] at hw ⊢
        by_cases hc : cv' = cv
        · subst hc
          exact List.mem_of_mem_erase (by simpa using hw)
        · simpa [Syncer.release_other _ _ hc] using hw
      | add | wait => trivial
      | del | done => exact hw
  · rcases effect_started he with hnone | ⟨j, fromId, hprog, hstarted⟩ | ⟨_, _, _, _, hstarted⟩
    · simp [hnone] at hnew
    · refine .inr (.inr ?_)
      have hidx : e.started[u - s.threads.length]? = some (.calling p call next) := by
        have hge : ¬ u < s.threads.length := by omega
        have hget : (s.apply t e).threads[u]? = e.started[u - s.threads.length]? := by
          show (Pool.commit s.threads t e.thread e.started)[u]? = _
          rw [Pool.commit_getElem?, if_neg hge]
        rw [← hget, hcall]
      rw [hstarted, Job.threads] at hidx
      cases hk : u - s.threads.length with
      | zero =>
        obtain ⟨-, -, rfl⟩ : _ ∧ _ ∧ Prog.erase j.toId j.datum = next := by simpa [hk] using hidx
        exact ⟨by omega, j, fromId, hprog, rfl⟩
      | succ k =>
        rw [hk, List.getElem?_cons_succ] at hidx
        split at hidx
        · cases k <;> simp at hidx
        · simp at hidx
    · simp [hstarted] at hnew

/-- Who waits goes on to wait, unless the thread that steps releases it. -/
theorem waiting_effect (h : Tidy s) (ht : s.threads[t]? = some (.run prog))
    (he : effect me s t c prog = some e) (hu : waiting s u = some next) :
    waiting (s.apply t e) u = some next ∨
      ∃ p cv, notifies prog = some p ∧ s.syncer.pointCv p = some cv ∧ c.woken = some u ∧
        u ∈ s.syncer.waiters cv ∧ waiting (s.apply t e) u = none := by
  obtain ⟨p, call, hcall, hw⟩ := waiting_iff.mp hu
  have hut : u ≠ t := by
    rintro rfl
    cases hcall.symm.trans ht
  have hthread : (s.apply t e).threads[u]? = some (.calling p call next) := Pool.commit_other hcall hut _ _
  rcases effect_releases h he with hsame | ⟨q, cv, v, hq, hcv, hv, hmem, hrel⟩
  · exact .inl (waiting_iff.mpr ⟨p, call, hthread, by simpa [State.apply, hsame] using hw⟩)
  · cases call with
    | blocked cv' =>
      rw [Call.Waiting] at hw
      by_cases hgone : u ∈ e.syncer.waiters cv'
      · exact .inl (waiting_iff.mpr ⟨p, _, hthread, hgone⟩)
      · have hboth : cv' = cv ∧ v = u := by
          rw [hrel] at hgone
          by_cases hc : cv' = cv
          · subst hc
            refine ⟨rfl, ?_⟩
            by_contra hvu
            exact hgone (by simpa [List.mem_erase_of_ne (Ne.symm hvu)] using hw)
          · exact absurd (by simpa [Syncer.release_other _ _ hc] using hw) hgone
        obtain ⟨rfl, rfl⟩ := hboth
        refine .inr ⟨q, cv', hq, hcv, hv, hmem, ?_⟩
        simp only [waiting, hthread, Call.Waiting]
        exact if_neg hgone
    | add | wait => exact .inl (waiting_iff.mpr ⟨p, _, hthread, trivial⟩)
    | del | done => exact absurd hw id

/-- A notification of a point where one thread waits releases that thread. -/
theorem notify_sole {p : UInt32} (h : Tidy s) (ht : s.threads[t]? = some (.run prog))
    (hn : Syncer.notify s.syncer p c.woken = some e.syncer) (hu : sole s p = some u) :
    c.woken = some u ∧ waiting (s.apply t e) u = none := by
  obtain ⟨cv, hcv, hw⟩ := sole_iff.mp hu
  rcases h.counted.notify_cases hn with ⟨-, -, hempty⟩ | ⟨cv', v, hcv', hv, hmem, hrel⟩
  · simp [hempty cv hcv] at hw
  · obtain rfl : cv = cv' := Option.some.inj (hcv.symm.trans hcv')
    obtain rfl : v = u := by simpa [hw] using hmem
    refine ⟨hv, ?_⟩
    obtain ⟨q, n, hb⟩ := h.blocked cv v hmem
    have hvt : v ≠ t := by
      rintro rfl
      cases hb.symm.trans ht
    have hthread : (s.apply t e).threads[v]? = some (.calling q (.blocked cv) n) :=
      Pool.commit_other hb hvt _ _
    simp only [waiting, hthread, Call.Waiting]
    exact if_neg (by simp [State.apply, hrel, hw])

end Effect

theorem waiting_of_spurious (hs : spurious s t = some s') (hu : waiting s' u = some next) :
    waiting s u = some next := by
  obtain ⟨_, cv, _, _, _, rfl⟩ := spurious_cases hs
  obtain ⟨p, call, hcall, hw⟩ := waiting_iff.mp hu
  refine waiting_iff.mpr ⟨p, call, hcall, ?_⟩
  cases call with
  | blocked cv' =>
    simp only [Call.Waiting] at hw ⊢
    by_cases hc : cv' = cv
    · subst hc
      exact List.mem_of_mem_erase (by simpa using hw)
    · simpa [Syncer.release_other _ _ hc] using hw
  | add | wait => trivial
  | del | done => exact hw

theorem waiting_spurious (hs : spurious s t = some s') (hut : u ≠ t) : waiting s' u = waiting s u := by
  obtain ⟨_, cv, _, _, _, rfl⟩ := spurious_cases hs
  refine waiting_congr rfl fun cv' => ?_
  by_cases hc : cv' = cv
  · subst hc
    simp [List.mem_erase_of_ne hut]
  · simp [Syncer.release_other _ _ hc]

end Waiting

end ControlSteps
