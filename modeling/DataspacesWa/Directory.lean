import DataspacesWa.ControlSteps
import DataspacesWa.MWASpace

/-!
# Acknowledged puts and the directory

A slave acknowledges a put as soon as its notification is sent. The master
records the put at the DS where the app is registered by then, and refuses it
where the app is not registered at all. The registration is a message of its
own, which the notification can overtake.
-/
namespace Directory

open Patch (Datum)
open Transition (Reaches free)
open WASpace (Operations Space)
open SDMControl ControlSteps

variable {W : Type} [Operations W]

/-- The thread has come to its end or is inside a wait. -/
def idle : Thread W → Bool
  | .calling _ _ _ => true
  | .run .ended => true
  | _ => false

def idleSlave (x : Slave) : Bool := x.pc = .ended || x.pc = .waitReg || x.pc = .waitGet

/-- No message is in flight and no handler is running. -/
def Quiet (s : State W) : Prop :=
  s.net = [] ∧ (∀ th ∈ s.threads, idle th = true) ∧ ∀ x ∈ s.slaves, idleSlave x = true

instance (s : State W) : Decidable (Quiet s) := inferInstanceAs (Decidable (_ ∧ _ ∧ _))

/-- Where nothing is on its way, each acknowledged put is reported by a query. -/
def Reported (s : State W) : Prop :=
  Quiet s → ∀ id d, .acked id d ∈ s.log → ∃ dsIdV, Operations.query s.space d = some dsIdV ∧ id ∈ dsIdV

/-- A put notification is handled only when the app is registered at the DS that
sends it, and for a box that the directory takes. -/
def RegisteredFirst (s : State W) : Action → Prop
  | .thread t _ =>
    match s.threads[t]? with
    | some (.run (.putNotification id pId d)) =>
      Operations.appDsId s.space pId = some id ∧ Operations.accepts W d = true
    | _ => True
  | _ => True

instance (s : State W) (a : Action) : Decidable (RegisteredFirst s a) := by
  induction a using SDMControl.Action.casesOn with
  | thread t c =>
    unfold RegisteredFirst
    dsimp only
    generalize s.threads[t]? = th
    refine match th with
    | none => .isTrue trivial
    | some (.calling _ _ _) => .isTrue trivial
    | some (.run prog) => ?_
    induction prog using Prog.casesOn with
    | putNotification id pId d => exact instDecidableAnd
    | _ => exact .isTrue trivial
  | _ => exact .isTrue trivial

/-- The notification of the put is in the net or about to be handled, or the put is recorded. -/
def OnItsWay (s : State W) (id : Int32) (d : Datum) : Prop :=
  (∃ pId, .putNotification id pId d ∈ s.net) ∨
    (∃ pId, .run (.putNotification id pId d) ∈ s.threads) ∨ Operations.Recorded s.space d id

structure Inv (s : State W) : Prop where
  acked : ∀ id d, .acked id d ∈ s.log → OnItsWay s id d
  reply : ∀ x ∈ s.slaves, x.pc = .reply → OnItsWay s x.id x.datum

/-- The master acknowledges nothing. -/
theorem effect_acked {me : Int32} {s : State W} {t : Nat} {c : Choice} {prog : Prog W} {e : Effect W}
    {id : Int32} {d : Datum} (he : effect me s t c prog = some e) : .acked id d ∉ e.events := by
  intro hev
  have := effect_events he hev
  simp at this

theorem inv_init (me : Int32) (w : W) : Inv (init me w) where
  acked _ _ h := by simp [init] at h
  reply _ h := by simp [init] at h

section Space
variable {W : Type} [Space W] {me : Int32} {s s' : State W} {id : Int32} {d : Datum}

theorem OnItsWay.same (h : OnItsWay s id d) (hnet : ∀ m ∈ s.net, m ∈ s'.net)
    (hthreads : ∀ prog, .run prog ∈ s.threads → .run prog ∈ s'.threads) (hspace : s'.space = s.space) : OnItsWay s' id d := by
  rcases h with ⟨p, hp⟩ | ⟨p, hp⟩ | hrec
  · exact .inl ⟨p, hnet _ hp⟩
  · exact .inr (.inl ⟨p, hthreads _ hp⟩)
  · exact .inr (.inr (by rwa [hspace]))

/-- A notification is recorded by the step that handles it, where the app is registered by then. -/
theorem onItsWay_thread {t : Nat} {c : Choice} (h : OnItsWay s id d)
    (hok : RegisteredFirst s (.thread t c)) (hs : threadStep me s t c = some s') : OnItsWay s' id d := by
  rcases threadStep_cases hs with ⟨prog, e, ht, he, rfl⟩ | ⟨p, next, ht, rfl⟩ |
    ⟨p, call, call', syncer, next, ht, hc, rfl⟩
  · rcases h with ⟨p, hp⟩ | ⟨p, hp⟩ | hrec
    · exact .inl ⟨p, List.mem_append_left _ hp⟩
    · obtain ⟨j, hj⟩ := List.getElem?_of_mem hp
      by_cases hjt : j = t
      · subst hjt
        obtain rfl : Prog.putNotification id p d = prog := by simpa using hj.symm.trans ht
        simp only [RegisteredFirst, ht] at hok
        simp only [effect, Option.map_eq_some_iff] at he
        obtain ⟨⟨w, done⟩, hput, rfl⟩ := he
        exact .inr (.inr (Space.put_recorded _ _ _ _ _ _ hput hok.1 hok.2))
      · exact .inr (.inl ⟨p, List.mem_of_getElem? (Pool.commit_other hj hjt _ _)⟩)
    · exact .inr (.inr ((effect_space he).recorded d id hrec))
  all_goals
    exact h.same (fun m hm => by simpa [State.apply, goOn] using hm) (fun _ hp => run_mem_apply _ ht hp) rfl

theorem onItsWay_step {a : Action} (h : OnItsWay s id d) (hok : RegisteredFirst s a)
    (hs : step me s a = some s') : OnItsWay s' id d := by
  cases a with
  | thread t c => exact onItsWay_thread h hok hs
  | spurious t =>
    obtain ⟨_, _, _, _, _, rfl⟩ := spurious_cases hs
    exact h.same (fun _ hm => hm) (fun _ hp => hp) rfl
  | deliver i c =>
    obtain ⟨-, -, hspace, new, hthreads, -⟩ := deliver_frame hs
    rcases h with ⟨p, hp⟩ | ⟨p, hp⟩ | hrec
    · rcases deliver_mem hs hp with hin | hat
      · exact .inl ⟨p, hin⟩
      · have hs' := deliver_handler hs hat (show _ = some (.putNotification id p d) from rfl)
        exact .inr (.inl ⟨p, by simp [hs']⟩)
    · exact .inr (.inl ⟨p, by rw [hthreads]; exact List.mem_append_left _ hp⟩)
    · exact .inr (.inr (by rwa [hspace]))
  | lose i =>
    refine h.imp ?_ (Or.imp ?_ ?_)
    · rintro ⟨p, hp⟩
      exact ⟨p, (lose_mem hs hp).resolve_right (by simp)⟩
    · obtain ⟨_, _, _, -, rfl⟩ := lose_cases hs
      exact fun hp => hp
    · obtain ⟨_, _, _, -, rfl⟩ := lose_cases hs
      exact fun hrec => hrec
  | slave i c =>
    obtain ⟨-, -, hspace, hthreads⟩ := slave_frame hs
    refine h.same (fun m hm => ?_) (fun _ hp => by rwa [hthreads]) hspace
    obtain ⟨x, pc, -, -, hcase⟩ := slave_cases hs
    rcases hcase with ⟨-, -, hnet, -⟩ | ⟨_, -, -, -, hnet, -⟩ | ⟨-, -, -, hnet, -⟩ | ⟨-, -, -, hnet, -⟩ |
      ⟨-, -, hnet, -⟩ | ⟨-, -, -, -, hnet | hnet⟩ <;> simp [hnet, hm]
  | arrive r =>
    obtain rfl := Option.some.inj hs
    rcases arrive_cases me s r with ⟨_, hs'⟩ | ⟨_, _, hs'⟩ | ⟨_, -, -, hs'⟩ <;> rw [hs']
    · exact h.same (fun _ hm => List.mem_append_left _ hm) (fun _ hp => hp) rfl
    · exact h.same (fun _ hm => hm) (fun _ hp => List.mem_append_left _ hp) rfl
    · exact h.same (fun _ hm => hm) (fun _ hp => hp) rfl

/-- Only a slave acknowledges, and only after its notification is sent. -/
theorem inv_step {a : Action} (hi : Inv s) (hok : RegisteredFirst s a) (hs : step me s a = some s') :
    Inv s' := by
  have keep : ∀ id d, OnItsWay s id d → OnItsWay s' id d := fun _ _ h => onItsWay_step h hok hs
  have same : (∀ id d, .acked id d ∈ s'.log → .acked id d ∈ s.log) → s'.slaves = s.slaves → Inv s' := by
    intro hlog hslaves
    exact ⟨fun id d h => keep _ _ (hi.acked id d (hlog id d h)),
      fun x hx hpc => keep _ _ (hi.reply x (by rwa [← hslaves]) hpc)⟩
  cases a with
  | thread t c =>
    refine same (fun id d h => ?_) ?_
    · rcases threadStep_cases hs with ⟨prog, e, ht, he, rfl⟩ | ⟨_, _, _, rfl⟩ | ⟨_, _, _, _, _, _, _, rfl⟩
      · exact (List.mem_append.mp h).resolve_right (effect_acked he)
      all_goals simpa [State.apply, goOn] using h
    · rcases threadStep_cases hs with ⟨_, _, _, _, rfl⟩ | ⟨_, _, _, rfl⟩ | ⟨_, _, _, _, _, _, _, rfl⟩ <;> rfl
  | spurious t =>
    obtain ⟨_, _, _, _, _, rfl⟩ := spurious_cases hs
    exact same (fun _ _ h => h) rfl
  | deliver i c =>
    obtain ⟨msg, -, hcase⟩ := deliver_cases hs
    have hlog : ∀ id d, .acked id d ∈ s'.log → .acked id d ∈ s.log := by
      rcases hcase with ⟨_, -, rfl⟩ | ⟨_, _, _, -, rfl⟩ | ⟨_, _, -, rfl⟩ | ⟨_, _, _, -, -, -, rfl⟩ |
        ⟨_, _, _, -, -, -, rfl⟩ | ⟨_, _, -, rfl⟩ | ⟨_, _, -, rfl⟩ | ⟨_, _, -, rfl⟩ <;> simp
    refine ⟨fun id d h => keep _ _ (hi.acked id d (hlog id d h)), fun y hy hpc => keep _ _ ?_⟩
    obtain ⟨x, hx, rfl | ⟨-, rfl⟩ | ⟨-, rfl⟩⟩ := deliver_slaves hs hy
    · exact hi.reply y hx hpc
    · cases hpc
    · cases hpc
  | lose i =>
    obtain ⟨_, _, _, -, rfl⟩ := lose_cases hs
    exact same (fun _ _ h => h) rfl
  | slave i c =>
    obtain ⟨x, pc, hx, hslaves, hcase⟩ := slave_cases hs
    have hmem := List.mem_of_getElem? hx
    constructor
    · intro id d hlog
      rcases hcase with ⟨-, -, -, hl⟩ | ⟨_, -, -, -, -, hl⟩ | ⟨-, -, -, -, hl⟩ | ⟨-, -, -, -, hl⟩ |
        ⟨hpc, -, -, hl⟩ | ⟨-, -, -, hl, -⟩ <;> rw [hl] at hlog
      case inr.inr.inr.inr.inl =>
        rcases List.mem_append.mp hlog with hold | hnew
        · exact keep _ _ (hi.acked id d hold)
        · obtain ⟨rfl, rfl⟩ : id = x.id ∧ d = x.datum := by simpa using hnew
          exact keep _ _ (hi.reply x hmem hpc)
      all_goals exact keep _ _ (hi.acked id d (by simpa using hlog))
    · intro y hy hpc
      rw [hslaves] at hy
      rcases List.mem_or_eq_of_mem_set hy with hold | rfl
      · exact keep _ _ (hi.reply y hold hpc)
      · obtain rfl : pc = .reply := hpc
        obtain ⟨-, -, hnet, -⟩ : _ ∧ _ ∧ s'.net = s.net ++ [.putNotification x.id x.appId x.datum] ∧ _ := by
          simpa using hcase
        exact .inl ⟨x.appId, by simp [hnet]⟩
  | arrive r =>
    obtain rfl := Option.some.inj hs
    rcases arrive_cases me s r with ⟨_, hs'⟩ | ⟨_, _, hs'⟩ | ⟨x, -, hx, hs'⟩
    · exact same (fun _ _ h => by simpa [hs'] using h) (by rw [hs'])
    · exact same (fun _ _ h => by simpa [hs'] using h) (by rw [hs'])
    · refine ⟨fun id d h => keep _ _ (hi.acked id d (by simpa [hs'] using h)), fun y hy hpc => keep _ _ ?_⟩
      have hy' : y ∈ s.slaves ∨ y = x := by simpa [hs'] using hy
      rcases hy' with hold | rfl
      · exact hi.reply y hold hpc
      · cases hx.symm.trans hpc

end Space

end Directory
