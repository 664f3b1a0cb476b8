import DataspacesWa.ControlSteps
import DataspacesWa.MWASpace

/-!
# Blocking gets and puts at the master

A blocking query that does not find its datum waits on the sync point of the
datum, and a put of the datum notifies the point once. Whether they meet is
decided by who waits at the moment of the notification, and by whether the put
is recorded by then.
-/
namespace BlockingGet

open Patch (Datum)
open Syncer (Call)
open Transition (Reaches free)
open WASpace (Operations Space Grows)
open SDMControl ControlSteps

variable {W : Type} [Operations W]

/-- The datum that a blocking query asks for again when its wait is over. -/
def asksAgain : Prog W → Option Datum
  | .requery j => some j.datum
  | .mrequery _ d => some d
  | _ => none

/-- The datum that a blocking query waits for. -/
def awaits (s : State W) (u : Nat) : Option Datum := (waiting s u).bind asksAgain

/-- The datum is available to the query, where the thread is one that waits. -/
def Available (s : State W) (u : Nat) : Prop :=
  (awaits s u).all (fun d => (Operations.query s.space d).isSome) = true

/-- No query is left waiting when a put of its datum is recorded and notified, and
none ends without its datum. -/
structure Met (s : State W) : Prop where
  woken : ∀ d, .recorded d ∈ s.log → ∀ u d', awaits s u = some d' → dataId W d' ≠ dataId W d
  available : ∀ d, .unavailable d ∉ s.log

/-- Each query a notification may release finds its datum, and so does each query whose wait
ends spuriously; the notification that completes a put finds no query of the datum but one
that waits alone; and a put that is recorded last finds none. -/
def InTime (s : State W) : Action → Prop
  | .thread t _ =>
    match s.threads[t]? with
    | some (.run prog) =>
      (∀ p ∈ notifies prog, ∀ cv ∈ s.syncer.pointCv p, ∀ u ∈ s.syncer.waiters cv, Available s u) ∧
        match prog with
        | .notifyPut d true => ∀ u < s.threads.length, ∀ d' ∈ awaits s u,
            dataId W d' = dataId W d → sole s (queryPoint W d) = some u
        | .putSpace _ d | .remoteSpace d => ∀ u < s.threads.length, ∀ d' ∈ awaits s u, dataId W d' ≠ dataId W d
        | _ => True
    | _ => True
  | .spurious t => Available s t
  | _ => True

instance (s : State W) (a : Action) : Decidable (InTime s a) := by
  unfold InTime Available
  split
  · split
    · refine @instDecidableAnd _ _ inferInstance ?_
      split <;> infer_instance
    · infer_instance
  · infer_instance
  · infer_instance

structure Inv (s : State W) : Prop extends Met s where
  tidy : Tidy s
  recorded : ∀ d, .recorded d ∈ s.log → (Operations.query s.space d).isSome
  done : ∀ d, Thread.run (.notifyPut d true) ∈ s.threads → (Operations.query s.space d).isSome
  follows : ∀ (u : Nat) p call (next : Prog W) d, s.threads[u]? = some (.calling p call next) →
    next ≠ .notifyPut d true
  passed : ∀ (u : Nat) (prog : Prog W) d, s.threads[u]? = some (.run prog) → asksAgain prog = some d →
    (Operations.query s.space d).isSome
  released : ∀ (u : Nat) p call (next : Prog W) d, s.threads[u]? = some (.calling p call next) → asksAgain next = some d →
    waiting s u = none → (Operations.query s.space d).isSome

theorem inv_init (me : Int32) (w : W) : Inv (init me w) where
  woken _ h := by simp [init] at h
  available _ h := by simp [init] at h
  tidy := tidy_init me w
  recorded _ h := by simp [init] at h
  done _ h := by simp [init] at h
  follows _ _ _ _ _ h := by simp [init] at h
  passed _ _ _ h := by simp [init] at h
  released _ _ _ _ _ h := by simp [init] at h

theorem awaits_iff {s : State W} {u : Nat} {d : Datum} :
    awaits s u = some d ↔ ∃ next, waiting s u = some next ∧ asksAgain next = some d :=
  Option.bind_eq_some_iff

theorem awaits_lt {s : State W} {u : Nat} {d : Datum} (h : awaits s u = some d) : u < s.threads.length := by
  obtain ⟨next, hw, -⟩ := awaits_iff.mp h
  obtain ⟨p, call, hu, -⟩ := waiting_iff.mp hw
  exact Pool.lt_of_getElem? hu

theorem effect_recorded {me : Int32} {s : State W} {t : Nat} {c : Choice} {prog : Prog W} {e : Effect W}
    {d : Datum} (he : effect me s t c prog = some e) (hev : .recorded d ∈ e.events) :
    prog = .notifyPut d true ∨
      (∃ pId, prog = .putSpace pId d ∧ Operations.put s.space pId d = some (e.space, true)) ∨
        prog = .remoteSpace d ∧ Operations.put s.space remotePId d = some (e.space, true) := by
  have h := effect_events he hev
  simpa using h

theorem effect_unavailable {me : Int32} {s : State W} {t : Nat} {c : Choice} {prog : Prog W} {e : Effect W}
    {d : Datum} (he : effect me s t c prog = some e) (hev : .unavailable d ∈ e.events) :
    asksAgain prog = some d ∧ Operations.query s.space d = none := by
  rcases effect_events he hev with ⟨j, rfl, hnone, h⟩ | ⟨_, _, rfl, hnone, h⟩ | h
  · cases h
    exact ⟨rfl, hnone⟩
  · cases h
    exact ⟨rfl, hnone⟩
  · simp at h

/-- A query waits only where it has just missed its datum. -/
theorem effect_asks {me : Int32} {s : State W} {t : Nat} {c : Choice} {prog : Prog W} {e : Effect W}
    {p : UInt32} {next : Prog W} {d : Datum} (he : effect me s t c prog = some e)
    (hn : enters prog = some (p, next)) (hcall : e.thread = .calling p .add next)
    (hd : asksAgain next = some d) : Operations.query s.space d = none := by
  cases prog <;> simp only [enters, Option.some.injEq, Prod.mk.injEq, reduceCtorEq] at hn
  case query j =>
    obtain ⟨-, rfl⟩ := hn
    obtain rfl : j.datum = d := by simpa [asksAgain] using hd
    simp only [effect] at he
    split at he
    · obtain ⟨_, -, rfl⟩ := Option.map_eq_some_iff.mp he
      cases hcall
    · assumption
  case mquery cId d' =>
    obtain ⟨-, rfl⟩ := hn
    obtain rfl : d' = d := by simpa [asksAgain] using hd
    simp only [effect] at he
    split at he
    · obtain ⟨_, -, rfl⟩ := Option.map_eq_some_iff.mp he
      cases hcall
    · assumption
  all_goals
    obtain ⟨-, rfl⟩ := hn
    cases hd

/-- What a thread goes on to, it has not asked for before. -/
theorem effect_run {me : Int32} {s : State W} {t : Nat} {c : Choice} {prog next : Prog W} {e : Effect W}
    (he : effect me s t c prog = some e) (hn : e.thread = .run next) : asksAgain next = none := by
  revert he
  fun_cases effect me s t c prog
  all_goals
    intro he
    simp only [access, notify, Option.map_eq_some_iff, Option.some.injEq, reduceCtorEq] at he
  all_goals first
    | (subst he; cases hn; done)
    | (subst he; cases hn; rfl)
    | (subst he; cases hn; unfold Job.after; split <;> rfl)
    | (subst he; cases hn; unfold LocalReq.prog; split <;> rfl)
    | (subst he; cases hn; split <;> rfl)
    | (obtain ⟨_, _, rfl⟩ := he; cases hn; rfl)
    | (obtain ⟨_, ⟨_, _, rfl⟩, rfl⟩ := he; cases hn; rfl)
    | (obtain ⟨⟨_, next⟩, _, rfl⟩ := he; cases hn; unfold afterAccess; split <;> rfl)
    | (obtain ⟨⟨_, done⟩, _, rfl⟩ := he; cases done <;> cases hn <;> rfl)

section Space
variable {W : Type} [Space W] {me : Int32} {s s' : State W} {t : Nat} {c : Choice}

/-- A put is notified as done only when the space has the datum. -/
theorem effect_done {prog : Prog W} {e : Effect W} {d : Datum} (he : effect me s t c prog = some e)
    (hn : e.thread = .run (.notifyPut d true)) : (Operations.query e.space d).isSome := by
  revert he
  fun_cases effect me s t c prog
  all_goals
    intro he
    simp only [access, notify, Option.map_eq_some_iff, Option.some.injEq, reduceCtorEq] at he
  all_goals first
    | (subst he; cases hn)
    | (subst he; revert hn; unfold goOn Job.after; split <;> simp)
    | (subst he; revert hn; unfold goOn LocalReq.prog; dsimp only; split <;> simp)
    | (subst he; revert hn; unfold goOn; dsimp only; split <;> simp)
    | (obtain ⟨_, _, rfl⟩ := he; cases hn)
    | (obtain ⟨_, ⟨_, _, rfl⟩, rfl⟩ := he; cases hn)
    | (obtain ⟨⟨_, next⟩, _, rfl⟩ := he; revert hn; unfold goOn afterAccess; dsimp only; split <;> simp)
    | (obtain ⟨⟨_, done⟩, hput, rfl⟩ := he; cases hn; exact Space.put_query _ _ _ _ hput)
    | (obtain ⟨⟨_, done⟩, _, rfl⟩ := he; cases done <;> cases hn)

theorem inv_effect {prog : Prog W} {e : Effect W} (hi : Inv s) (ht : s.threads[t]? = some (.run prog))
    (hok : InTime s (.thread t c)) (he : effect me s t c prog = some e)
    (htidy : Tidy (s.apply t e)) : Inv (s.apply t e) := by
  have hgrows := effect_space he
  have hself : (s.apply t e).threads[t]? = some e.thread := Pool.commit_self ht _ _
  simp only [InTime, ht] at hok
  obtain ⟨hmeets, hput⟩ := hok
  -- a put that is complete with this step has its datum, and lets its queries go
  have hnew : ∀ d, .recorded d ∈ e.events → (Operations.query e.space d).isSome ∧
      enters prog = none ∧
      ∀ u d', awaits s u = some d' → dataId W d' = dataId W d → waiting (s.apply t e) u = none := by
    intro d hev
    rcases effect_recorded he hev with rfl | ⟨pId, rfl, hdone⟩ | ⟨rfl, hdone⟩
    · refine ⟨hgrows.query d (hi.done d (List.mem_of_getElem? ht)), rfl, fun u d' hu hid => ?_⟩
      have hsole := hput u (awaits_lt hu) d' hu hid
      simp only [effect, notify, Option.map_eq_some_iff] at he
      obtain ⟨_, ⟨y, hn, rfl⟩, rfl⟩ := he
      exact (notify_sole hi.tidy ht hn hsole).2
    · exact ⟨Space.put_query _ _ _ _ hdone, rfl,
        fun u d' hu hid => absurd hid (hput u (awaits_lt hu) d' hu)⟩
    · exact ⟨Space.put_query _ _ _ _ hdone, rfl,
        fun u d' hu hid => absurd hid (hput u (awaits_lt hu) d' hu)⟩
  refine ⟨⟨?_, ?_⟩, htidy, ?_, ?_, ?_, ?_, ?_⟩
  · intro d hlog u d' hu hid
    obtain ⟨next, hw, hask⟩ := awaits_iff.mp hu
    rcases waiting_of_effect hi.tidy ht he hw with hold | ⟨rfl, p, hp, hth⟩ | ⟨-, j, f, -, rfl⟩
    · have hold' : awaits s u = some d' := awaits_iff.mpr ⟨next, hold, hask⟩
      rcases List.mem_append.mp hlog with hl | hl
      · exact hi.woken d hl u d' hold' hid
      · simp [(hnew d hl).2.2 u d' hold' hid] at hw
    · have hnone := effect_asks he hp hth hask
      rcases List.mem_append.mp hlog with hl | hl
      · have hsome := hi.recorded d hl
        rw [← Space.query_id s.space d' d hid, hnone] at hsome
        cases hsome
      · cases hp.symm.trans (hnew d hl).2.1
    · cases hask
  · intro d hlog
    rcases List.mem_append.mp hlog with hl | hl
    · exact hi.available d hl
    · obtain ⟨hask, hnone⟩ := effect_unavailable he hl
      have hsome := hi.passed t prog d ht hask
      simp [hnone] at hsome
  · intro d hlog
    rcases List.mem_append.mp hlog with hl | hl
    · exact hgrows.query d (hi.recorded d hl)
    · exact (hnew d hl).1
  · intro d hrun
    obtain ⟨u, hu⟩ := List.getElem?_of_mem hrun
    rcases Pool.commit_cases hu with ⟨-, hth⟩ | ⟨-, hold⟩ | ⟨-, hstarted⟩
    · exact effect_done he hth.symm
    · exact hgrows.query d (hi.done d (List.mem_of_getElem? hold))
    · rcases effect_started_mem he hstarted with ⟨_, _, _, h⟩ | ⟨_, _, h⟩ <;> cases h
  · intro u p call next d hu
    rcases Pool.commit_cases hu with ⟨-, hth⟩ | ⟨-, hold⟩ | ⟨-, hstarted⟩
    · rcases effect_thread he with ⟨n, hn⟩ | ⟨q, n, hq, hn, -⟩
      · cases hth.trans hn
      · cases hth.trans hn
        rintro rfl
        cases prog <;> cases hq
    · exact hi.follows u p call next d hold
    · rcases effect_started_mem he hstarted with ⟨_, _, _, h⟩ | ⟨_, _, h⟩ <;> cases h
      simp
  · intro u next d hu hask
    rcases Pool.commit_cases hu with ⟨-, hth⟩ | ⟨-, hold⟩ | ⟨-, hstarted⟩
    · simp [effect_run he hth.symm] at hask
    · exact hgrows.query d (hi.passed u next d hold hask)
    · rcases effect_started_mem he hstarted with ⟨_, _, _, h⟩ | ⟨_, _, h⟩ <;> cases h
      cases hask
  · intro u p call next d hu hask hw
    rcases Pool.commit_cases hu with ⟨rfl, hth⟩ | ⟨-, hold⟩ | ⟨-, hstarted⟩
    · rcases effect_thread he with ⟨n, hn⟩ | ⟨q, n, -, hn, -⟩
      · cases hth.trans hn
      · have hin := waiting_iff.mpr ⟨q, _, hself.trans (congrArg some hn), trivial⟩
        cases hw.symm.trans hin
    · cases hwas : waiting s u with
      | none => exact hgrows.query d (hi.released u p call next d hold hask hwas)
      | some n =>
        obtain ⟨q, call', hu', -⟩ := waiting_iff.mp hwas
        obtain ⟨-, -, rfl⟩ : p = q ∧ call = call' ∧ next = n := by simpa using hold.symm.trans hu'
        rcases waiting_effect hi.tidy ht he hwas with hin | ⟨q, cv, hq, hcv, -, hmem, -⟩
        · cases hw.symm.trans hin
        · have hav := hmeets q hq cv hcv u hmem
          have haw : awaits s u = some d := awaits_iff.mpr ⟨next, hwas, hask⟩
          exact hgrows.query d (by simpa [Available, haw] using hav)
    · rcases effect_started_mem he hstarted with ⟨_, _, _, h⟩ | ⟨_, _, h⟩ <;> cases h
      cases hask

/-- A step that leaves the sync points and the space alone, and starts threads that neither ask
again nor complete a put. -/
theorem Inv.frame (hi : Inv s) (hsync : s'.syncer = s.syncer) (hspace : s'.space = s.space)
    {new : List (Thread W)} (hthreads : s'.threads = s.threads ++ new)
    (hnew : ∀ th ∈ new, ∃ prog, th = .run prog ∧ asksAgain prog = none ∧ ∀ d, prog ≠ .notifyPut d true)
    (hlog : ∀ d, (.recorded d ∈ s'.log → .recorded d ∈ s.log) ∧ (.unavailable d ∈ s'.log → .unavailable d ∈ s.log)) :
    Inv s' := by
  have hwait := waiting_append hsync hthreads fun th hth => (hnew th hth).imp fun _ h => h.1
  have hget : ∀ {u : Nat} {th : Thread W}, s'.threads[u]? = some th →
      s.threads[u]? = some th ∨ th ∈ new := by
    intro u th hu
    rw [hthreads] at hu
    by_cases hlt : u < s.threads.length
    · exact .inl (by rwa [List.getElem?_append_left hlt] at hu)
    · rw [List.getElem?_append_right (by omega)] at hu
      exact .inr (List.mem_of_getElem? hu)
  refine ⟨⟨?_, fun d h => hi.available d ((hlog d).2 h)⟩, hi.tidy.append hsync new hthreads, ?_, ?_, ?_, ?_, ?_⟩
  · intro d hd u d' hu
    rw [awaits, hwait] at hu
    exact hi.woken d ((hlog d).1 hd) u d' hu
  · intro d hd
    rw [hspace]
    exact hi.recorded d ((hlog d).1 hd)
  · intro d hd
    rw [hspace]
    rw [hthreads] at hd
    rcases List.mem_append.mp hd with hold | hin
    · exact hi.done d hold
    · obtain ⟨prog, h, -, hne⟩ := hnew _ hin
      cases h
      exact absurd rfl (hne d)
  · intro u p call next d hu
    rcases hget hu with hold | hin
    · exact hi.follows u p call next d hold
    · obtain ⟨_, h, -⟩ := hnew _ hin
      cases h
  · intro u prog d hu hask
    rw [hspace]
    rcases hget hu with hold | hin
    · exact hi.passed u prog d hold hask
    · obtain ⟨_, h, hnone, -⟩ := hnew _ hin
      cases h
      simp [hnone] at hask
  · intro u p call next d hu hask hw
    rw [hspace]
    rw [hwait] at hw
    rcases hget hu with hold | hin
    · exact hi.released u p call next d hold hask hw
    · obtain ⟨_, h, -⟩ := hnew _ hin
      cases h

theorem inv_thread (hi : Inv s) (hok : InTime s (.thread t c)) (hs : threadStep me s t c = some s') :
    Inv s' := by
  have htidy := tidy_thread hi.tidy hs
  rcases threadStep_cases hs with ⟨prog, e, ht, he, rfl⟩ | ⟨p, next, ht, rfl⟩ |
    ⟨p, call, call', syncer, next, ht, hc, rfl⟩
  · exact inv_effect hi ht hok he htidy
  · have hwait := waiting_done ht
    have haway : waiting s t = none := by simp [waiting, ht, Call.Waiting]
    refine ⟨⟨?_, by simpa [State.apply, goOn] using hi.available⟩, htidy, ?_, ?_, ?_, ?_, ?_⟩
    · intro d hd u d' hu
      rw [awaits, hwait] at hu
      exact hi.woken d (by simpa [State.apply, goOn] using hd) u d' hu
    · exact fun d hd => hi.recorded d (by simpa [State.apply, goOn] using hd)
    · intro d hrun
      obtain ⟨u, hu⟩ := List.getElem?_of_mem hrun
      rcases Pool.commit_nil_cases hu with ⟨-, hth⟩ | ⟨-, hold⟩
      · cases hth
        exact absurd rfl (hi.follows t p .done _ d ht)
      · exact hi.done d (List.mem_of_getElem? hold)
    · intro u q call n d hu
      rcases Pool.commit_nil_cases hu with ⟨-, hth⟩ | ⟨-, hold⟩
      · cases hth
      · exact hi.follows u q call n d hold
    · intro u n d hu hask
      rcases Pool.commit_nil_cases hu with ⟨rfl, hth⟩ | ⟨-, hold⟩
      · cases hth
        exact hi.released u p .done _ d ht hask haway
      · exact hi.passed u n d hold hask
    · intro u q call n d hu hask hw
      rw [hwait] at hw
      rcases Pool.commit_nil_cases hu with ⟨-, hth⟩ | ⟨-, hold⟩
      · cases hth
      · exact hi.released u q call n d hold hask hw
  · have hwait := waiting_call ht hc
    refine ⟨⟨?_, by simpa [State.apply, goOn] using hi.available⟩, htidy, ?_, ?_, ?_, ?_, ?_⟩
    · intro d hd u d' hu
      rw [awaits, hwait] at hu
      exact hi.woken d (by simpa [State.apply, goOn] using hd) u d' hu
    · exact fun d hd => hi.recorded d (by simpa [State.apply, goOn] using hd)
    · intro d hrun
      obtain ⟨u, hu⟩ := List.getElem?_of_mem hrun
      rcases Pool.commit_nil_cases hu with ⟨-, hth⟩ | ⟨-, hold⟩
      · cases hth
      · exact hi.done d (List.mem_of_getElem? hold)
    · intro u q call n d hu
      rcases Pool.commit_nil_cases hu with ⟨rfl, hth⟩ | ⟨-, hold⟩
      · cases hth
        exact hi.follows u _ _ _ d ht
      · exact hi.follows u q call n d hold
    · intro u n d hu hask
      rcases Pool.commit_nil_cases hu with ⟨-, hth⟩ | ⟨-, hold⟩
      · cases hth
      · exact hi.passed u n d hold hask
    · intro u q cl n d hu hask hw
      rw [hwait] at hw
      rcases Pool.commit_nil_cases hu with ⟨rfl, hth⟩ | ⟨-, hold⟩
      · cases hth
        exact hi.released u _ _ _ d ht hask hw
      · exact hi.released u q cl n d hold hask hw

theorem inv_spurious (hi : Inv s) (hok : InTime s (.spurious t)) (hs : spurious s t = some s') : Inv s' := by
  have hin : ∀ u d, awaits s' u = some d → awaits s u = some d := by
    intro u d hu
    obtain ⟨next, hw, hask⟩ := awaits_iff.mp hu
    exact awaits_iff.mpr ⟨next, waiting_of_spurious hs hw, hask⟩
  have hout : ∀ u, u ≠ t → waiting s' u = waiting s u := fun u hu => waiting_spurious hs hu
  obtain ⟨p, cv, next, ht, hmem, rfl⟩ := spurious_cases hs
  refine ⟨⟨fun d hd u d' hu => hi.woken d hd u d' (hin u d' hu), hi.available⟩, hi.tidy.release cv t,
    hi.recorded, hi.done, hi.follows, hi.passed, ?_⟩
  intro u q call n d hu hask hw
  by_cases hut : u = t
  · subst hut
    cases hwas : waiting s u with
    | none => exact hi.released u q call n d hu hask hwas
    | some n' =>
      obtain ⟨_, _, hu', -⟩ := waiting_iff.mp hwas
      obtain ⟨-, -, rfl⟩ : q = _ ∧ call = _ ∧ n = n' := by simpa using hu.symm.trans hu'
      have haw : awaits s u = some d := awaits_iff.mpr ⟨n, hwas, hask⟩
      simpa [InTime, Available, haw] using hok
  · exact hi.released u q call n d hu hask ((hout u hut).symm.trans hw)

theorem handler_asks {m : Msg} {prog : Prog W} (h : Msg.handler m = some prog) :
    asksAgain prog = none ∧ ∀ d, prog ≠ .notifyPut d true := by
  cases m <;> simp only [Msg.handler, Option.some.injEq, reduceCtorEq] at h
  all_goals
    subst h
    exact ⟨rfl, (by simp)⟩

/-- Where queries are notified in time, no query is left waiting and none ends unserved. -/
theorem inv_step {a : Action} (hi : Inv s) (hok : InTime s a) (hs : step me s a = some s') : Inv s' := by
  cases a with
  | thread t c => exact inv_thread hi hok hs
  | spurious t => exact inv_spurious hi hok hs
  | deliver i c =>
    obtain ⟨msg, -, hcase⟩ := deliver_cases hs
    rcases hcase with ⟨prog, hp, rfl⟩ | ⟨_, _, _, -, rfl⟩ | ⟨_, d, -, rfl⟩ | ⟨_, _, _, -, -, -, rfl⟩ |
      ⟨_, _, _, -, -, -, rfl⟩ | ⟨_, _, -, rfl⟩ | ⟨_, _, -, rfl⟩ | ⟨_, _, -, rfl⟩
    · refine hi.frame rfl rfl rfl ?_ (by simp)
      rintro _ hth
      obtain rfl := List.mem_singleton.mp hth
      exact ⟨prog, rfl, handler_asks hp⟩
    · exact hi.frame rfl rfl (List.append_nil _).symm (by simp) (by simp)
    · refine hi.frame rfl rfl rfl ?_ (by simp)
      rintro _ hth
      obtain rfl := List.mem_singleton.mp hth
      exact ⟨_, rfl, rfl, (by simp)⟩
    all_goals exact hi.frame rfl rfl (List.append_nil _).symm (by simp) (by simp)
  | lose i =>
    obtain ⟨_, _, _, -, rfl⟩ := lose_cases hs
    exact hi.frame rfl rfl (List.append_nil _).symm (by simp) (by simp)
  | slave i c =>
    obtain ⟨hsync, -, hspace, hthreads⟩ := slave_frame hs
    obtain ⟨x, pc, -, -, hcase⟩ := slave_cases hs
    refine hi.frame hsync hspace (hthreads.trans (List.append_nil _).symm) (by simp) ?_
    rcases hcase with ⟨-, -, -, hl⟩ | ⟨_, -, -, -, -, hl⟩ | ⟨-, -, -, -, hl⟩ | ⟨-, -, -, -, hl⟩ |
      ⟨-, -, -, hl⟩ | ⟨-, -, -, hl, -⟩ <;> simp [hl]
  | arrive r =>
    obtain rfl := Option.some.inj hs
    rcases arrive_cases me s r with ⟨_, hs'⟩ | ⟨appId, req, hs'⟩ | ⟨_, -, -, hs'⟩ <;> rw [hs']
    · exact hi.frame rfl rfl (List.append_nil _).symm (by simp) (by simp)
    · refine hi.frame rfl rfl rfl ?_ (by simp)
      rintro _ hth
      obtain rfl := List.mem_singleton.mp hth
      exact ⟨_, rfl, rfl, (by simp)⟩
    · exact hi.frame rfl rfl (List.append_nil _).symm (by simp) (by simp)

/-- Blocking gets meet puts in every run whose notifications are in time. -/
theorem query_meets_put (me : Int32) (w : W) {s : State W}
    (hr : Reaches (step me) InTime (init me w) s) : Met s :=
  (hr.invariant Inv (inv_init me w) fun _ _ _ hi hok hs => inv_step hi hok hs).toMet

end Space

/-- `SDMMaster::put` notifies before it records: the query it wakes does not find the datum. -/
theorem notified_before_recorded : ¬ ∀ s : State MWASpace.State,
    Reaches (step 0) free (init 0 (MWASpace.empty 4 false)) s → Met s := by
  intro h
  obtain ⟨s, hs, htest⟩ := Transition.run_reaches_of_any (step 0)
    (init 0 (MWASpace.empty 4 false) : State MWASpace.State)
    [.arrive (.get 0 5 true (unitBox "u")), .thread 0 choice, .thread 0 miss, .thread 0 choice,
      .thread 0 choice, .thread 0 choice,
      .arrive (.put 0 7 (unitBox "u")), .thread 1 choice, .thread 1 (wakes 0),
      .thread 0 choice, .thread 0 choice, .thread 0 choice, .thread 0 choice, .thread 1 choice]
    (fun s => decide (.unavailable (unitBox "u") ∈ s.log)) (by decide)
  exact (h s hs).available _ (of_decide_eq_true htest)

theorem query_meets_notification : ∃ s : State MWASpace.State,
    .recorded (unitBox "u") ∈ s.log ∧ s.threads.length = 4 ∧ Met s := by
  obtain ⟨s, hs, htest⟩ := Transition.runWhere_reaches_of_any (step 0) InTime
    (init 0 (MWASpace.empty 4 false) : State MWASpace.State)
    [.arrive (.connUp 1), .deliver 0 choice, .thread 0 choice,
      .arrive (.get 0 5 true (unitBox "u")), .thread 1 choice, .thread 1 miss, .thread 1 choice,
      .thread 1 choice, .thread 1 choice,
      .arrive (.put 1 7 (unitBox "u")), .slave 0 choice, .slave 0 choice, .slave 0 choice,
      .deliver 0 choice, .thread 2 choice, .thread 2 choice, .deliver 0 choice, .slave 0 choice,
      .deliver 0 choice, .thread 3 choice, .thread 3 (wakes 1)]
    (fun s => decide (.recorded (unitBox "u") ∈ s.log ∧ s.threads.length = 4)) (by decide)
  obtain ⟨hrec, hlen⟩ := of_decide_eq_true htest
  exact ⟨s, hrec, hlen, query_meets_put 0 _ hs⟩

end BlockingGet
