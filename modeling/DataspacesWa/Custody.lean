import DataspacesWa.ControlSteps

/-!
# Who holds a place in a moving set

A place in `ds_id__moving_data_id_v_map` is taken by a job, handed over to the
thread of `wait_for_move` that the job starts, and given up by that thread. As
long as no job ends between the two, the places are as many as their holders.
-/
namespace Custody

open Function (update update_self)
open Patch (Datum)
open WASpace (Operations)
open SDMControl ControlSteps

variable {W : Type} [Operations W]

/-- The destination and the data id of a move. -/
abbrev Key := Int32 × String

def keyOf (W : Type) [Operations W] (toId : Int32) (d : Datum) : Key := (toId, dataId W d)

/-- The place in a moving set that a thread holds. -/
def holds : Prog W → Option Key
  | .query j => some (keyOf W j.toId j.datum)
  | .requery j => some (keyOf W j.toId j.datum)
  | .act j _ => some (keyOf W j.toId j.datum)
  | .erase toId d => some (keyOf W toId d)
  | _ => none

def places (s : State W) (k : Key) : Nat := (s.moving k.1).count k.2

def holder (k : Key) (th : Thread W) : Bool := decide (holds (todo th) = some k)

def holders (s : State W) (k : Key) : Nat := s.threads.countP (holder k)

/-- The job does not end with its datum unavailable. -/
def Goes (s : State W) : Prog W → Prop
  | .query j => (Operations.query s.space j.datum).isSome ∨ j.origin.blocking = true
  | .requery j => (Operations.query s.space j.datum).isSome
  | _ => True

instance decidableGoes (s : State W) (prog : Prog W) : Decidable (Goes s prog) := by
  induction prog using Prog.casesOn with
  | query j => exact instDecidableOr
  | requery j => exact decEq _ true
  | _ => exact .isTrue trivial

theorem holder_iff (k : Key) (th : Thread W) :
    (if holder k th = true then 1 else 0) = if holds (todo th) = some k then 1 else 0 := by
  simp [holder]

/-- Each place is held by one thread. -/
def Accounted (s : State W) : Prop := ∀ k, places s k = holders s k

theorem accounted_init (me : Int32) (w : W) : Accounted (init me w) := fun _ => rfl

section Step
variable {me : Int32} {s s' : State W} {t : Nat} {c : Choice}

theorem holds_after (j : Job W) : holds j.after = none := by
  unfold Job.after
  split <;> rfl

theorem holds_afterAccess (next : Option (WASpace.ActCall × Operations.Access W)) :
    holds (afterAccess next) = none := by
  unfold afterAccess
  split <;> rfl

theorem holds_local (req : LocalReq) (appId : Int32) : holds (req.prog appId : Prog W) = none := by
  unfold LocalReq.prog
  split <;> rfl

theorem holders_started (j : Job W) (k : Key) :
    j.threads.countP (holder k) = if keyOf W j.toId j.datum = k then 1 else 0 := by
  unfold Job.threads
  split <;> simp [holder, todo, holds, List.countP_cons]

theorem count_push (moving : Int32 → List String) (toId : Int32) (id : String) (k : Key) :
    (update moving toId (moving toId ++ [id]) k.1).count k.2 =
      (moving k.1).count k.2 + if (toId, id) = k then 1 else 0 := by
  obtain ⟨x, y⟩ := k
  by_cases hx : x = toId
  · subst hx
    simp [List.count_singleton]
  · simp [hx, Ne.symm hx]

theorem count_erase {moving : Int32 → List String} {toId : Int32} {id : String} (h : id ∈ moving toId) (k : Key) :
    (update moving toId ((moving toId).erase id) k.1).count k.2 + (if (toId, id) = k then 1 else 0) =
      (moving k.1).count k.2 := by
  obtain ⟨x, y⟩ := k
  by_cases hx : x = toId
  · subst hx
    by_cases hy : id = y
    · subst hy
      have hpos := List.count_pos_iff.mpr h
      simp only [update_self, List.count_erase_self, if_true]
      omega
    · simp [hy, List.count_erase_of_ne (Ne.symm hy)]
  · simp [hx, Ne.symm hx]

/-- A step that claims nothing and gives up nothing goes on with the place it had. -/
theorem place_kept {n : Nat} {k : Key} {a b : Option Key} (h : a = b) :
    n + (if a = some k then 1 else 0) = n + (if b = some k then 1 else 0) + 0 := by rw [h]; rfl

/-- Places and holders change together: a claim adds one of each, the end of a wait takes one
of each, and where a move is begun the place changes hands. -/
theorem effect_custody {prog : Prog W} {e : Effect W} (he : effect me s t c prog = some e)
    (hgo : Goes s prog) (k : Key) :
    (e.moving k.1).count k.2 + (if holds prog = some k then 1 else 0) =
      places s k + (if holds (todo e.thread) = some k then 1 else 0) + e.started.countP (holder k) := by
  revert he hgo
  fun_cases effect me s t c prog
  all_goals
    intro he hgo
    simp only [access, notify, Option.map_eq_some_iff, Option.some.injEq, reduceCtorEq] at he
  case case3 j =>
    subst he
    simp [count_push, places, goOn, keyOf, todo, holds]
  case case6 j hnone hblock => simp_all [Goes]
  case case8 j hnone => simp_all [Goes]
  case case9 j fromId =>
    subst he
    simp [holders_started, places, goOn, todo, holds]
  case case13 toId d hmem =>
    subst he
    have hcount := count_erase hmem k
    simpa [places, goOn, keyOf, todo, holds] using hcount
  all_goals first
    | (subst he; exact place_kept rfl)
    | (subst he; exact place_kept (holds_after _).symm)
    | (subst he; exact place_kept (holds_local _ _).symm)
    | (subst he; refine place_kept ?_; unfold goOn todo; dsimp only; split <;> rfl)
    | (obtain ⟨_, _, rfl⟩ := he; exact place_kept rfl)
    | (obtain ⟨_, ⟨_, _, rfl⟩, rfl⟩ := he; exact place_kept rfl)
    | (obtain ⟨⟨_, next⟩, _, rfl⟩ := he; exact place_kept (holds_afterAccess next).symm)
    | (obtain ⟨⟨_, done⟩, _, rfl⟩ := he; cases done <;> exact place_kept rfl)

/-- Each place keeps its holder, whatever the thread that steps does. -/
theorem accounted_thread (hi : Accounted s) (hgo : ∀ prog, s.threads[t]? = some (.run prog) → Goes s prog)
    (hs : threadStep me s t c = some s') : Accounted s' := by
  intro k
  have hold : places s k = s.threads.countP (holder k) := hi k
  rcases threadStep_cases hs with ⟨prog, e, ht, he, rfl⟩ | ⟨p, next, ht, rfl⟩ |
    ⟨p, call, call', syncer, next, ht, hc, rfl⟩
  · have hcount := Pool.commit_countP ht (holder k) e.thread e.started
    have hcustody := effect_custody he (hgo prog ht) k
    show (e.moving k.1).count k.2 = (Pool.commit s.threads t e.thread e.started).countP (holder k)
    rw [holder_iff, holder_iff] at hcount
    change _ + (if holds prog = some k then 1 else 0) = _ at hcount
    omega
  · have hcount := Pool.commit_countP ht (holder k) (.run next) []
    exact hold.trans (Nat.add_right_cancel hcount).symm
  · have hcount := Pool.commit_countP ht (holder k) (.calling p call' next) []
    exact hold.trans (Nat.add_right_cancel hcount).symm

/-- A thread inside its calls at a sync point goes on with what it has to do, and so do the others. -/
theorem todo_kept {p : UInt32} {call : Syncer.Call} {next : Prog W} (ht : s.threads[t]? = some (.calling p call next))
    (e : Effect W) (he : todo e.thread = next) :
    ∀ th ∈ s.threads, ∃ th' ∈ (s.apply t e).threads, todo th' = todo th := by
  intro th hth
  obtain ⟨u, hu⟩ := List.getElem?_of_mem hth
  by_cases hut : u = t
  · subst hut
    obtain rfl := Option.some.inj (hu.symm.trans ht)
    exact ⟨_, List.mem_of_getElem? (Pool.commit_self ht _ _), he⟩
  · exact ⟨th, List.mem_of_getElem? (Pool.commit_other hu hut _ _), rfl⟩

/-- New threads that hold nothing, where the moving sets stay as they are. -/
theorem Accounted.append (hi : Accounted s) (hmoving : s'.moving = s.moving) {new : List (Thread W)}
    (hthreads : s'.threads = s.threads ++ new) (hnew : ∀ th ∈ new, holds (todo th) = none) : Accounted s' := by
  intro k
  have hnone : new.countP (holder k) = 0 :=
    List.countP_eq_zero.mpr fun th hth => by simp [holder, hnew th hth]
  simpa [places, holders, hmoving, hthreads, hnone] using hi k

theorem handler_holds {m : Msg} {prog : Prog W} (h : Msg.handler m = some prog) : holds prog = none := by
  cases m <;> simp only [Msg.handler, Option.some.injEq, reduceCtorEq] at h
  all_goals
    subst h
    rfl

/-- Places and holders stay as many in each step in which no job ends without its datum. -/
theorem accounted_step {a : Action} (hi : Accounted s)
    (hgo : ∀ t c, a = .thread t c → ∀ prog, s.threads[t]? = some (.run prog) → Goes s prog)
    (hs : step me s a = some s') : Accounted s' := by
  cases a with
  | thread t c => exact accounted_thread hi (hgo t c rfl) hs
  | spurious t =>
    obtain ⟨_, _, _, _, _, rfl⟩ := spurious_cases hs
    exact hi
  | deliver i c =>
    obtain ⟨msg, -, hcase⟩ := deliver_cases hs
    rcases hcase with ⟨prog, hp, rfl⟩ | ⟨_, _, _, -, rfl⟩ | ⟨_, d, -, rfl⟩ | ⟨_, _, _, -, -, -, rfl⟩ |
      ⟨_, _, _, -, -, -, rfl⟩ | ⟨_, _, -, rfl⟩ | ⟨_, _, -, rfl⟩ | ⟨_, _, -, rfl⟩
    · exact hi.append rfl rfl (by simpa [todo] using handler_holds hp)
    · exact hi
    · exact hi.append rfl rfl (by simp [todo, holds])
    all_goals exact hi
  | lose i =>
    obtain ⟨_, _, _, -, rfl⟩ := lose_cases hs
    exact hi
  | slave i c =>
    obtain ⟨-, hmoving, -, hthreads⟩ := slave_frame hs
    exact hi.append hmoving (hthreads.trans (List.append_nil _).symm) (by simp)
  | arrive r =>
    obtain rfl := Option.some.inj hs
    rcases arrive_cases me s r with ⟨_, hs'⟩ | ⟨_, _, hs'⟩ | ⟨_, -, -, hs'⟩ <;> rw [hs']
    · exact hi
    · exact hi.append rfl rfl (by simp [todo, holds])
    · exact hi

end Step

end Custody
