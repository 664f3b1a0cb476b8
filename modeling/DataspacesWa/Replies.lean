import DataspacesWa.Custody
import DataspacesWa.MWASpace

/-!
# Requests of slaves and their replies

A slave that waits for an answer has its request or the answer in flight, or a
thread of the master at work for it, as long as no job ends with its datum
unavailable and no registration is refused: on these two paths the master
sends nothing. Requests for one datum at one slave share their answer.
-/
namespace Replies

open Patch (Datum)
open Transition (Reaches)
open WASpace (Operations Space)
open SDMControl ControlSteps Custody

variable {W : Type} [Operations W]

/-- The destination and the data id a thread is at work for. -/
def serves : Prog W → Option Key
  | .check j => some (keyOf W j.toId j.datum)
  | .push j => some (keyOf W j.toId j.datum)
  | .reply toId d => some (keyOf W toId d)
  | prog => holds prog

/-- The query is in flight, or a handler or a wait is at work for it, or the reply is in flight. -/
def GetUnderWay (s : State W) (k : Key) : Prop :=
  (∃ appId blocking d, .squery k.1 appId blocking d ∈ s.net ∧ dataId W d = k.2) ∨
    (∃ th ∈ s.threads, serves (todo th) = some k) ∨
    ∃ d, .squeryReply k.1 d ∈ s.net ∧ dataId W d = k.2

def RegUnderWay (s : State W) (id appId : Int32) : Prop :=
  .regApp id appId ∈ s.net ∨ .run (.regApp id appId) ∈ s.threads ∨
    .run (.regAppReply id appId) ∈ s.threads ∨ .regAppReply id appId ∈ s.net

/-- Whoever waits for an answer has one on its way. -/
structure Answered (s : State W) : Prop where
  get : ∀ x ∈ s.slaves, x.pc = .waitGet → GetUnderWay s (keyOf W x.id x.datum)
  reg : ∀ x ∈ s.slaves, x.pc = .waitReg → RegUnderWay s x.id x.appId

/-- Nothing that is sent is lost. -/
def LossFree (_ : State W) : Action → Prop
  | .thread _ c => c.sent = true
  | .deliver _ c => c.sent = true
  | .slave _ c => c.sent = true
  | .lose _ => False
  | _ => True

/-- No job ends with its datum unavailable, and who registers is not yet known. -/
def Answerable (s : State W) (a : Action) : Prop :=
  LossFree s a ∧
    match a with
    | .thread t _ =>
      match s.threads[t]? with
      | some (.run (.regApp _ appId)) => Operations.appDsId s.space appId = none
      | some (.run prog) => Goes s prog
      | _ => True
    | _ => True

instance (s : State W) (a : Action) : Decidable (LossFree s a) := by
  induction a using SDMControl.Action.casesOn with
  | thread t c => exact decEq _ true
  | deliver i c => exact decEq _ true
  | slave k c => exact decEq _ true
  | lose i => exact .isFalse not_false
  | _ => exact .isTrue trivial

instance (s : State W) (a : Action) : Decidable (Answerable s a) := by
  unfold Answerable
  refine @instDecidableAnd _ _ inferInstance ?_
  induction a using SDMControl.Action.casesOn with
  | thread t c =>
    dsimp only
    generalize s.threads[t]? = th
    refine match th with
    | none => .isTrue trivial
    | some (.calling _ _ _) => .isTrue trivial
    | some (.run prog) => ?_
    induction prog using Prog.casesOn with
    | regApp id appId => exact decEq _ none
    | _ => exact decidableGoes s _
  | _ => exact .isTrue trivial

theorem Answerable.goes {s : State W} {t : Nat} {c : Choice} {prog : Prog W}
    (h : Answerable s (.thread t c)) (ht : s.threads[t]? = some (.run prog)) : Goes s prog := by
  have hgo := h.2
  simp only [ht] at hgo
  cases prog <;> first | exact hgo | trivial

theorem holds_serves {prog : Prog W} {k : Key} (h : holds prog = some k) : serves prog = some k := by
  cases prog <;> first | exact h | cases h

section Threads
variable {me : Int32} {s s' : State W} {t : Nat} {c : Choice} {k : Key}

/-- A thread that is at work for a slave goes on so, leaves it to the thread it starts, sends the
reply, or finds that the place is taken. -/
theorem effect_serves {prog : Prog W} {e : Effect W} (he : effect me s t c prog = some e)
    (hgo : Goes s prog) (hsent : c.sent = true) (hme : k.1 ≠ me) (hk : serves prog = some k) :
    serves (todo e.thread) = some k ∨ (∃ th ∈ e.started, serves (todo th) = some k) ∨
      (∃ d, .squeryReply k.1 d ∈ e.sent ∧ dataId W d = k.2) ∨ holds prog ≠ some k ∧ 0 < places s k := by
  cases prog with
  | check j =>
    simp only [effect] at he
    split at he <;> obtain rfl := Option.some.inj he
    · rename_i hmoving
      obtain rfl := Option.some.inj hk
      exact .inr (.inr (.inr ⟨(by rintro ⟨⟩), List.count_pos_iff.mpr hmoving⟩))
    · exact .inl hk
  | push j =>
    obtain rfl := Option.some.inj he
    exact .inl hk
  | query j =>
    simp only [effect] at he
    split at he
    · obtain ⟨_, -, rfl⟩ := Option.map_eq_some_iff.mp he
      exact .inl hk
    · rename_i hnone
      have hblock : j.origin.blocking = true := by simpa [Goes, hnone] using hgo
      rw [if_pos hblock] at he
      obtain rfl := Option.some.inj he
      exact .inl hk
  | requery j =>
    simp only [effect] at he
    split at he
    · obtain ⟨_, -, rfl⟩ := Option.map_eq_some_iff.mp he
      exact .inl hk
    · rename_i hnone
      simp [Goes, hnone] at hgo
  | act j fromId =>
    obtain rfl := Option.some.inj he
    exact .inr (.inl ⟨_, List.mem_cons_self, hk⟩)
  | erase toId d =>
    simp only [effect] at he
    split at he
    · obtain rfl := Option.some.inj he
      exact .inl hk
    · cases he
  | reply toId d =>
    obtain rfl := Option.some.inj hk
    have hto : toId ≠ me := hme
    simp only [effect, if_neg hto, if_pos hsent] at he
    obtain rfl := Option.some.inj he
    exact .inr (.inr (.inl ⟨d, List.mem_singleton.mpr rfl, rfl⟩))
  | _ => cases hk

theorem GetUnderWay.same (h : GetUnderWay s k) (hnet : ∀ m ∈ s.net, m ∈ s'.net)
    (hthreads : ∀ th ∈ s.threads, ∃ th' ∈ s'.threads, todo th' = todo th) : GetUnderWay s' k := by
  rcases h with ⟨appId, blocking, d, hm, hd⟩ | ⟨th, hth, hk⟩ | ⟨d, hm, hd⟩
  · exact .inl ⟨appId, blocking, d, hnet _ hm, hd⟩
  · obtain ⟨th', hth', htodo⟩ := hthreads th hth
    exact .inr (.inl ⟨th', hth', by rwa [htodo]⟩)
  · exact .inr (.inr ⟨d, hnet _ hm, hd⟩)

theorem getUnderWay_thread (hi : Accounted s) (hok : Answerable s (.thread t c)) (hme : k.1 ≠ me)
    (h : GetUnderWay s k) (hs : threadStep me s t c = some s') : GetUnderWay s' k := by
  rcases threadStep_cases hs with ⟨prog, e, ht, he, rfl⟩ | ⟨p, next, ht, rfl⟩ |
    ⟨p, call, call', syncer, next, ht, hc, rfl⟩
  · rcases h with ⟨appId, blocking, d, hm, hd⟩ | ⟨th, hth, hk⟩ | ⟨d, hm, hd⟩
    · exact .inl ⟨appId, blocking, d, List.mem_append_left _ hm, hd⟩
    · obtain ⟨u, hu⟩ := List.getElem?_of_mem hth
      by_cases hut : u = t
      · subst hut
        obtain rfl := Option.some.inj (hu.symm.trans ht)
        rcases effect_serves he (hok.goes ht) hok.1 hme hk with hgo | ⟨th', hth', hk'⟩ | ⟨d, hm, hd⟩ | ⟨hno, hpos⟩
        · exact .inr (.inl ⟨_, List.mem_of_getElem? (Pool.commit_self ht _ _), hgo⟩)
        · exact .inr (.inl ⟨th', List.mem_append_right _ hth', hk'⟩)
        · exact .inr (.inr ⟨d, List.mem_append_right _ hm, hd⟩)
        · rw [hi k] at hpos
          obtain ⟨th', hth', hold⟩ := List.countP_pos_iff.mp hpos
          obtain ⟨v, hv⟩ := List.getElem?_of_mem hth'
          have hholds : holds (todo th') = some k := of_decide_eq_true hold
          have hvu : v ≠ u := by
            rintro rfl
            obtain rfl := Option.some.inj (hv.symm.trans ht)
            exact hno hholds
          exact .inr (.inl ⟨th', List.mem_of_getElem? (Pool.commit_other hv hvu _ _), holds_serves hholds⟩)
      · exact .inr (.inl ⟨th, List.mem_of_getElem? (Pool.commit_other hu hut _ _), hk⟩)
    · exact .inr (.inr ⟨d, List.mem_append_left _ hm, hd⟩)
  all_goals
    exact h.same (fun m hm => by simpa [State.apply, goOn] using hm) (todo_kept ht _ rfl)

theorem RegUnderWay.same {id appId : Int32} (h : RegUnderWay s id appId) (hnet : ∀ m ∈ s.net, m ∈ s'.net)
    (hthreads : ∀ prog, .run prog ∈ s.threads → .run prog ∈ s'.threads) : RegUnderWay s' id appId := by
  rcases h with hm | hth | hth | hm
  · exact .inl (hnet _ hm)
  · exact .inr (.inl (hthreads _ hth))
  · exact .inr (.inr (.inl (hthreads _ hth)))
  · exact .inr (.inr (.inr (hnet _ hm)))

end Threads

section Space
variable {W : Type} [Space W] {me : Int32} {s s' : State W} {t : Nat} {c : Choice} {k : Key} {id appId : Int32}

/-- An app that is not yet known is registered, and what is registered is answered. -/
theorem regUnderWay_thread (hok : Answerable s (.thread t c)) (h : RegUnderWay s id appId)
    (hs : threadStep me s t c = some s') : RegUnderWay s' id appId := by
  rcases threadStep_cases hs with ⟨prog, e, ht, he, rfl⟩ | ⟨p, next, ht, rfl⟩ |
    ⟨p, call, call', syncer, next, ht, hc, rfl⟩
  · have other : ∀ th ∈ s.threads, th = .run prog ∨ th ∈ (s.apply t e).threads := by
      intro th hth
      obtain ⟨u, hu⟩ := List.getElem?_of_mem hth
      by_cases hut : u = t
      · subst hut
        exact .inl (Option.some.inj (hu.symm.trans ht))
      · exact .inr (List.mem_of_getElem? (Pool.commit_other hu hut _ _))
    have hself : e.thread ∈ (s.apply t e).threads := List.mem_of_getElem? (Pool.commit_self ht _ _)
    rcases h with hm | hth | hth | hm
    · exact .inl (List.mem_append_left _ hm)
    · rcases other _ hth with hprog | hth
      · cases hprog
        have hnew : Operations.appDsId s.space appId = none := by simpa [Answerable, LossFree, ht] using hok.2
        obtain ⟨space, hspace⟩ := Option.isSome_iff_exists.mp (Space.regApp_new s.space appId id hnew)
        simp only [effect, hspace, Option.some.injEq] at he
        subst he
        exact .inr (.inr (.inl hself))
      · exact .inr (.inl hth)
    · rcases other _ hth with hprog | hth
      · cases hprog
        have hsent : c.sent = true := hok.1
        simp only [effect, hsent, if_true, Option.some.injEq] at he
        subst he
        exact .inr (.inr (.inr (by simp [State.apply])))
      · exact .inr (.inr (.inl hth))
    · exact .inr (.inr (.inr (List.mem_append_left _ hm)))
  all_goals
    exact h.same (fun m hm => by simpa [State.apply, goOn] using hm) (fun _ hp => run_mem_apply _ ht hp)

/-- What holds of each slave's requests, whatever their number. -/
structure Inv (me : Int32) (s : State W) : Prop extends Answered s where
  accounted : Accounted s
  ids : ∀ x ∈ s.slaves, x.id ≠ me

theorem inv_init (me : Int32) (w : W) : Inv me (init me w) where
  get _ h := by simp [init] at h
  reg _ h := by simp [init] at h
  accounted := accounted_init me w
  ids _ h := by simp [init] at h

/-- Where no slave takes a step, its requests are under way as long as each is kept so. -/
theorem Inv.frame (hi : Inv me s) (haccounted : Accounted s') (hslaves : s'.slaves = s.slaves)
    (hget : ∀ k : Key, k.1 ≠ me → GetUnderWay s k → GetUnderWay s' k)
    (hreg : ∀ id appId, RegUnderWay s id appId → RegUnderWay s' id appId) : Inv me s' where
  get x hx hpc := by
    rw [hslaves] at hx
    exact hget _ (hi.ids x hx) (hi.get x hx hpc)
  reg x hx hpc := by
    rw [hslaves] at hx
    exact hreg _ _ (hi.reg x hx hpc)
  accounted := haccounted
  ids x hx := hi.ids x (by rwa [← hslaves])

theorem wakeGet_cases (id : Int32) (data : String) (x : Slave) :
    (wakeGet (W := W) id data x).pc = .ended ∨
      wakeGet (W := W) id data x = x ∧ ¬ (x.id = id ∧ x.pc = .waitGet ∧ dataId W x.datum = data) := by
  unfold wakeGet
  split
  · exact .inl rfl
  · rename_i hno
    exact .inr ⟨rfl, hno⟩

theorem wakeReg_cases (id appId : Int32) (x : Slave) :
    (wakeReg id appId x).pc = .serve ∨
      wakeReg id appId x = x ∧ ¬ (x.id = id ∧ x.pc = .waitReg ∧ x.appId = appId) := by
  unfold wakeReg
  split
  · exact .inl rfl
  · rename_i hno
    exact .inr ⟨rfl, hno⟩

/-- A message that is not a reply to a slave leaves each request under way: where it is the request,
a thread of the master takes it up. -/
theorem underWay_deliver (k : Key) (id appId : Int32) {i : Nat} {msg : Msg} (hs : deliver me s i c = some s') (hmsg : s.net[i]? = some msg)
    (hthreads : ∀ th ∈ s.threads, th ∈ s'.threads) :
    (GetUnderWay s k → GetUnderWay s' k ∨ ∃ d, msg = .squeryReply k.1 d ∧ dataId W d = k.2) ∧
      (RegUnderWay s id appId → RegUnderWay s' id appId ∨ msg = .regAppReply id appId) := by
  constructor
  · rintro (⟨appId, blocking, d, hm, hd⟩ | ⟨th, hth, hk⟩ | ⟨d, hm, hd⟩)
    · rcases deliver_mem hs hm with hin | hat
      · exact .inl (.inl ⟨appId, blocking, d, hin, hd⟩)
      · rw [deliver_handler hs hat (show _ = some (.check ⟨k.1, d, .squery appId blocking⟩) from rfl)]
        exact .inl (.inr (.inl ⟨_, List.mem_append_right _ List.mem_cons_self, congrArg some (Prod.ext rfl hd)⟩))
    · exact .inl (.inr (.inl ⟨th, hthreads th hth, hk⟩))
    · rcases deliver_mem hs hm with hin | hat
      · exact .inl (.inr (.inr ⟨d, hin, hd⟩))
      · exact .inr ⟨d, Option.some.inj (hmsg.symm.trans hat), hd⟩
  · rintro (hm | hth | hth | hm)
    · rcases deliver_mem hs hm with hin | hat
      · exact .inl (.inl hin)
      · rw [deliver_handler hs hat (show _ = some (.regApp id appId) from rfl)]
        exact .inl (.inr (.inl (by simp)))
    · exact .inl (.inr (.inl (hthreads _ hth)))
    · exact .inl (.inr (.inr (.inl (hthreads _ hth))))
    · rcases deliver_mem hs hm with hin | hat
      · exact .inl (.inr (.inr (.inr hin)))
      · exact .inr (Option.some.inj (hmsg.symm.trans hat))

theorem inv_deliver {i : Nat} (hi : Inv me s) (haccounted : Accounted s') (hs : deliver me s i c = some s') :
    Inv me s' := by
  obtain ⟨-, -, -, new, hthreads, -⟩ := deliver_frame hs
  have hkeep : ∀ th ∈ s.threads, th ∈ s'.threads := by
    rw [hthreads]
    exact fun _ hth => List.mem_append_left _ hth
  obtain ⟨msg, hmsg, hcase⟩ := deliver_cases hs
  have hget : ∀ k, GetUnderWay s k → GetUnderWay s' k ∨ ∃ d, msg = .squeryReply k.1 d ∧ dataId W d = k.2 :=
    fun k => (underWay_deliver k 0 0 hs hmsg hkeep).1
  have hreg : ∀ id appId, RegUnderWay s id appId → RegUnderWay s' id appId ∨ msg = .regAppReply id appId :=
    fun id appId => (underWay_deliver (0, "") id appId hs hmsg hkeep).2
  have other : s'.slaves = s.slaves → (∀ id d, msg ≠ .squeryReply id d) →
      (∀ id appId, msg ≠ .regAppReply id appId) → Inv me s' := by
    intro hslaves hnoGet hnoReg
    refine hi.frame haccounted hslaves (fun k _ h => (hget k h).resolve_right ?_)
      fun id appId h => (hreg id appId h).resolve_right (hnoReg id appId)
    rintro ⟨d, rfl, -⟩
    exact hnoGet _ _ rfl
  rcases hcase with ⟨prog, hp, rfl⟩ | ⟨_, _, _, rfl, rfl⟩ | ⟨_, _, rfl, rfl⟩ | ⟨_, _, _, rfl, -, -, rfl⟩ |
    ⟨_, _, _, rfl, -, -, rfl⟩ | ⟨_, _, rfl, rfl⟩ | ⟨id, d, rfl, rfl⟩ | ⟨id, appId, rfl, rfl⟩
  · refine other rfl ?_ ?_ <;> rintro _ _ rfl <;> cases hp
  case inr.inr.inr.inr.inr.inr.inl =>
    constructor
    · constructor
      · intro y hy hpc
        obtain ⟨x, hx, rfl⟩ := List.mem_map.mp hy
        rcases wakeGet_cases (W := W) id (dataId W d) x with hended | ⟨hsame, hno⟩
        · cases hpc.symm.trans hended
        · rw [hsame] at hpc ⊢
          refine (hget _ (hi.get x hx hpc)).resolve_right ?_
          rintro ⟨d', hd, hdata⟩
          obtain ⟨rfl, rfl⟩ : id = x.id ∧ d = d' := by simpa [keyOf] using hd
          exact hno ⟨rfl, hpc, hdata.symm⟩
      · intro y hy hpc
        obtain ⟨x, hx, rfl⟩ := List.mem_map.mp hy
        rcases wakeGet_cases (W := W) id (dataId W d) x with hended | ⟨hsame, -⟩
        · cases hpc.symm.trans hended
        · rw [hsame] at hpc ⊢
          exact (hreg _ _ (hi.reg x hx hpc)).resolve_right (by simp)
    · exact haccounted
    · intro y hy
      obtain ⟨x, hx, rfl⟩ := List.mem_map.mp hy
      have hid : (wakeGet (W := W) id (dataId W d) x).id = x.id := by unfold wakeGet; split <;> rfl
      rw [hid]
      exact hi.ids x hx
  case inr.inr.inr.inr.inr.inr.inr =>
    constructor
    · constructor
      · intro y hy hpc
        obtain ⟨x, hx, rfl⟩ := List.mem_map.mp hy
        rcases wakeReg_cases id appId x with hserve | ⟨hsame, -⟩
        · cases hpc.symm.trans hserve
        · rw [hsame] at hpc ⊢
          exact (hget _ (hi.get x hx hpc)).resolve_right (by simp)
      · intro y hy hpc
        obtain ⟨x, hx, rfl⟩ := List.mem_map.mp hy
        rcases wakeReg_cases id appId x with hserve | ⟨hsame, hno⟩
        · cases hpc.symm.trans hserve
        · rw [hsame] at hpc ⊢
          refine (hreg _ _ (hi.reg x hx hpc)).resolve_right ?_
          intro hreply
          obtain ⟨rfl, rfl⟩ : id = x.id ∧ appId = x.appId := by simpa using hreply
          exact hno ⟨rfl, hpc, rfl⟩
    · exact haccounted
    · intro y hy
      obtain ⟨x, hx, rfl⟩ := List.mem_map.mp hy
      have hid : (wakeReg id appId x).id = x.id := by unfold wakeReg; split <;> rfl
      rw [hid]
      exact hi.ids x hx
  all_goals exact other rfl (by simp) (by simp)

/-- A slave that begins to wait has just sent its request. -/
theorem inv_slave {i : Nat} (hi : Inv me s) (haccounted : Accounted s') (hs : slaveStep s i c = some s') :
    Inv me s' := by
  obtain ⟨-, -, -, hthreads⟩ := slave_frame hs
  obtain ⟨x, pc, hx, hslaves, hcase⟩ := slave_cases hs
  have hmem := List.mem_of_getElem? hx
  have hnet : ∀ m ∈ s.net, m ∈ s'.net := by
    intro m hm
    rcases hcase with ⟨-, -, hnet, -⟩ | ⟨_, -, -, -, hnet, -⟩ | ⟨-, -, -, hnet, -⟩ | ⟨-, -, -, hnet, -⟩ |
      ⟨-, -, hnet, -⟩ | ⟨-, -, -, -, hnet | hnet⟩ <;> simp [hnet, hm]
  constructor
  · constructor
    · intro y hy hpc
      rw [hslaves] at hy
      rcases List.mem_or_eq_of_mem_set hy with hold | rfl
      · exact (hi.get y hold hpc).same hnet fun th hth => ⟨th, by rwa [hthreads], rfl⟩
      · obtain rfl : pc = .waitGet := hpc
        obtain ⟨blocking, -, -, hsend, -⟩ : ∃ blocking, x.pc = .serve ∧ x.req = .get blocking ∧
            s'.net = s.net ++ [.squery x.id x.appId blocking x.datum] ∧ s'.log = s.log := by
          simpa using hcase
        exact .inl ⟨x.appId, blocking, x.datum, by simp [hsend, keyOf], rfl⟩
    · intro y hy hpc
      rw [hslaves] at hy
      rcases List.mem_or_eq_of_mem_set hy with hold | rfl
      · exact (hi.reg y hold hpc).same hnet fun _ hp => by rwa [hthreads]
      · obtain rfl : pc = .waitReg := hpc
        obtain ⟨-, hsend, -⟩ : x.pc = .send ∧ s'.net = s.net ++ [.regApp x.id x.appId] ∧ s'.log = s.log := by
          simpa using hcase
        exact .inl (by simp [hsend])
  · exact haccounted
  · intro y hy
    rw [hslaves] at hy
    rcases List.mem_or_eq_of_mem_set hy with hold | rfl
    · exact hi.ids y hold
    · exact hi.ids x hmem

theorem inv_step {a : Action} (hi : Inv me s) (hok : Answerable s a) (hs : step me s a = some s') :
    Inv me s' := by
  have haccounted : Accounted s' := by
    refine accounted_step hi.accounted ?_ hs
    rintro t c rfl prog ht
    exact hok.goes ht
  cases a with
  | thread t c =>
    refine hi.frame haccounted ?_ (fun k hk h => getUnderWay_thread hi.accounted hok hk h hs)
      fun _ _ h => regUnderWay_thread hok h hs
    rcases threadStep_cases hs with ⟨_, _, _, _, rfl⟩ | ⟨_, _, _, rfl⟩ | ⟨_, _, _, _, _, _, _, rfl⟩ <;> rfl
  | spurious t =>
    obtain ⟨_, _, _, _, _, rfl⟩ := spurious_cases hs
    exact hi.frame haccounted rfl (fun _ _ h => h) fun _ _ h => h
  | deliver i c => exact inv_deliver hi haccounted hs
  | lose i => exact hok.1.elim
  | slave i c => exact inv_slave hi haccounted hs
  | arrive r =>
    obtain rfl := Option.some.inj hs
    rcases arrive_cases me s r with ⟨_, hs'⟩ | ⟨_, _, hs'⟩ | ⟨x, hid, hpc, hs'⟩ <;> rw [hs'] at haccounted ⊢
    · exact hi.frame haccounted rfl
        (fun _ _ h => h.same (fun _ hm => List.mem_append_left _ hm) fun th hth => ⟨th, hth, rfl⟩)
        fun _ _ h => h.same (fun _ hm => List.mem_append_left _ hm) fun _ hp => hp
    · exact hi.frame haccounted rfl
        (fun _ _ h => h.same (fun _ hm => hm) fun th hth => ⟨th, List.mem_append_left _ hth, rfl⟩)
        fun _ _ h => h.same (fun _ hm => hm) fun _ hp => List.mem_append_left _ hp
    · refine ⟨⟨fun y hy hwait => ?_, fun y hy hwait => ?_⟩, haccounted, fun y hy => ?_⟩
      · rcases List.mem_append.mp hy with hold | hnew
        · exact hi.get y hold hwait
        · obtain rfl := List.mem_singleton.mp hnew
          cases hpc.symm.trans hwait
      · rcases List.mem_append.mp hy with hold | hnew
        · exact hi.reg y hold hwait
        · obtain rfl := List.mem_singleton.mp hnew
          cases hpc.symm.trans hwait
      · rcases List.mem_append.mp hy with hold | hnew
        · exact hi.ids y hold
        · obtain rfl := List.mem_singleton.mp hnew
          exact hid

/-- Every request of a slave is answered, or its answer is on its way. -/
theorem requests_answered (me : Int32) (w : W) {s : State W}
    (hr : Reaches (step me) Answerable (init me w) s) : Answered s :=
  (hr.invariant (Inv me) (inv_init me w) fun _ _ _ hi hok hs => inv_step hi hok hs).toAnswered

end Space

/-- A query that does not block, of a datum that nobody has put, ends at the master without a reply. -/
theorem absent_unanswered : ¬ ∀ s : State MWASpace.State,
    Reaches (step 0) LossFree (init 0 (MWASpace.empty 4 false)) s → Answered s := by
  intro h
  obtain ⟨s, hs, htest⟩ := Transition.runWhere_reaches_of_any (step 0) LossFree
    (init 0 (MWASpace.empty 4 false) : State MWASpace.State)
    [.arrive (.connUp 1), .deliver 0 choice, .thread 0 choice, .arrive (.get 1 5 false (unitBox "u")),
      .slave 0 choice, .slave 0 choice, .slave 0 choice,
      .deliver 0 choice, .thread 1 choice, .thread 1 choice, .deliver 0 choice,
      .slave 0 miss, .deliver 0 choice, .thread 2 choice, .thread 2 choice, .thread 2 choice]
    (fun s => decide (s.net = [] ∧ (∀ th ∈ s.threads, finished th = true) ∧
      s.slaves = [⟨1, 5, unitBox "u", .get false, .waitGet⟩])) (by decide)
  obtain ⟨hnet, hover, hslaves⟩ := of_decide_eq_true htest
  rcases (h s hs).get ⟨1, 5, unitBox "u", .get false, .waitGet⟩ (by simp [hslaves]) rfl with
    ⟨_, _, _, hm, -⟩ | ⟨th, hth, hk⟩ | ⟨_, hm, -⟩
  · simp [hnet] at hm
  · rw [finished_todo (hover th hth)] at hk
    cases hk
  · simp [hnet] at hm

/-- A get of what an app of the master has put, from its query to the reply. -/
theorem get_answered : ∃ s : State MWASpace.State,
    .replied 4 1 (unitBox "u") ∈ s.log ∧ s.net = [] ∧ Answered s := by
  obtain ⟨s, hs, htest⟩ := Transition.runWhere_reaches_of_any (step 0) Answerable
    (init 0 (MWASpace.empty 4 false) : State MWASpace.State)
    [.arrive (.connUp 1), .deliver 0 choice, .thread 0 choice,
      .arrive (.put 0 7 (unitBox "u")), .thread 1 choice, .thread 1 choice, .thread 1 choice,
      .arrive (.get 1 5 true (unitBox "u")), .slave 0 choice, .slave 0 choice, .slave 0 choice,
      .deliver 0 choice, .thread 2 choice, .thread 2 choice, .deliver 0 choice,
      .slave 0 miss, .deliver 0 choice, .thread 3 choice, .thread 3 choice, .thread 3 choice,
      .thread 3 choice, .thread 4 choice, .thread 4 choice, .thread 3 choice,
      .deliver 0 choice, .deliver 0 choice, .thread 6 (wakes 4),
      .thread 4 choice, .thread 4 choice, .thread 4 choice, .thread 4 choice, .thread 4 choice,
      .deliver 0 choice]
    (fun s => decide (.replied 4 1 (unitBox "u") ∈ s.log ∧ s.net = [])) (by decide)
  obtain ⟨hreplied, hnet⟩ := of_decide_eq_true htest
  exact ⟨s, hreplied, hnet, requests_answered 0 _ hs⟩

end Replies
