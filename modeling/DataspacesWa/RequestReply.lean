import DataspacesWa.Transition
import DataspacesWa.Patch
import DataspacesWa.Syncer

/-!
# The request and reply idiom

`SDMSlave::reg_app`, `SDMSlave::get`, `SDMNode::join`, `WADSDriver::put` and
`WADSDriver::get` all send a request, then add a point, wait on it and delete
it; the handler of the reply notifies the point. Requester and handler are
interleaved here one map access at a time.
-/
namespace RequestReply

open Transition (Reaches free run runWhere)

inductive Requester where
  | send
  | testAdd | storeCv | storeM | storeNum
  | lockM | enterCv
  | blocked : Nat → Requester
  | testDel | dropCv | dropM | dropNum
  | done
  deriving DecidableEq, Repr

/-- How far the requester has come. -/
def Requester.rank : Requester → Nat
  | .send => 0
  | .testAdd => 1
  | .storeCv => 2
  | .storeM => 3
  | .storeNum => 4
  | .lockM => 5
  | .enterCv => 6
  | .blocked _ => 7
  | .testDel => 8
  | .dropCv => 9
  | .dropM => 10
  | .dropNum => 11
  | .done => 12

inductive Handler where
  | absent
  | test
  | readNum
  | signal
  | writeNum : Int → Handler
  | done
  deriving DecidableEq, Repr

structure State (T : Type) where
  syncer : Syncer.State T
  sent : Bool
  requester : Requester
  handler : Handler

inductive Action where
  | request
  | reply : Option Nat → Action
  | spurious
  deriving DecidableEq, Repr

variable {T : Type} [DecidableEq T]

def init : State T := ⟨Syncer.empty, false, .send, .absent⟩

/-- `add_sync_point(p, 1); wait(p); del_sync_point(p)` after the request is sent,
by thread 0. -/
def request (p : T) (s : State T) : Option (State T) :=
  match s.requester with
  | .send => some { s with sent := true, requester := .testAdd }
  | .testAdd =>
    -- an error here is logged and ignored by every caller
    if (s.syncer.pointCv p).isSome then some { s with requester := .lockM }
    else some { s with requester := .storeCv }
  | .storeCv => some { s with syncer := Syncer.storeCv s.syncer p, requester := .storeM }
  | .storeM => some { s with syncer := Syncer.storeM s.syncer p, requester := .storeNum }
  | .storeNum => some { s with syncer := Syncer.storeNum s.syncer p 1, requester := .lockM }
  | .lockM => if s.syncer.pointM p then some { s with requester := .enterCv } else none
  | .enterCv =>
    (s.syncer.pointCv p).map fun cv =>
      { s with syncer := Syncer.enter s.syncer cv 0, requester := .blocked cv }
  | .blocked cv =>
    if 0 ∈ s.syncer.waiters cv then none else some { s with requester := .testDel }
  | .testDel =>
    if (s.syncer.pointCv p).isSome then some { s with requester := .dropCv }
    else some { s with requester := .done }
  | .dropCv => some { s with syncer := Syncer.dropCv s.syncer p, requester := .dropM }
  | .dropM => some { s with syncer := Syncer.dropM s.syncer p, requester := .dropNum }
  | .dropNum => some { s with syncer := Syncer.dropNum s.syncer p, requester := .done }
  | .done => none

/-- `notify(p)`, called by the handler of the reply once the request is out. -/
def reply (p : T) (s : State T) (woken : Option Nat) : Option (State T) :=
  match s.handler with
  | .absent => if s.sent then some { s with handler := .test } else none
  | .test =>
    if (s.syncer.pointCv p).isSome then some { s with handler := .readNum }
    else some { s with handler := .done }
  | .readNum =>
    -- `operator[]` leaves the zero it reads in the map
    let n := Syncer.readNum s.syncer p
    let syncer := Syncer.storeNum s.syncer p n
    if n - 1 = 0 then some { s with syncer := syncer, handler := .signal }
    else some { s with syncer := syncer, handler := .writeNum (n - 1) }
  | .signal =>
    (s.syncer.pointCv p).bind fun cv =>
      (Syncer.notifyOne s.syncer cv woken).map fun syncer =>
        { s with syncer := syncer, handler := .done }
  | .writeNum n => some { s with syncer := Syncer.storeNum s.syncer p n, handler := .done }
  | .done => none

def step (p : T) (s : State T) : Action → Option (State T)
  | .request => request p s
  | .reply woken => reply p s woken
  | .spurious =>
    match s.requester with
    | .blocked cv => (Syncer.spurious s.syncer cv 0).map fun syncer => { s with syncer := syncer }
    | _ => none

/-- The requester sits in `wait` on a condition variable. -/
def held (syncer : Syncer.State T) : Requester → Bool
  | .blocked cv => decide (0 ∈ syncer.waiters cv)
  | _ => false

/-- The requester is blocked although the handler of its reply has run. -/
def LostReply (s : State T) : Prop := s.handler = .done ∧ held s.syncer s.requester = true

instance (s : State T) : Decidable (LostReply s) := inferInstanceAs (Decidable (_ ∧ _))

/-- Each access of the handler comes after the requester's access it relies on:
the test after the condition variable is stored, the count after it is stored,
and the signal after the requester has entered its wait. -/
def Timely (s : State T) : Action → Prop
  | .reply _ =>
    match s.handler with
    | .test => 3 ≤ s.requester.rank
    | .readNum => 5 ≤ s.requester.rank
    | .signal => 7 ≤ s.requester.rank
    | _ => True
  | _ => True

instance (s : State T) (a : Action) : Decidable (Timely s a) := by
  unfold Timely
  split
  · split <;> infer_instance
  · infer_instance

/-- What the maps hold at each point of the requester, and how far the handler can
be: the requester alone ever waits, and only while it is at its wait. -/
structure Inv (p : T) (s : State T) : Prop where
  waiters : ∀ cv, s.syncer.waiters cv = [] ∨
    s.syncer.waiters cv = [0] ∧ s.requester = .blocked cv
  own : ∀ cv, s.requester = .blocked cv → s.syncer.pointCv p = some cv
  early : s.requester.rank ≤ 2 → s.syncer.pointCv p = none
  present : 3 ≤ s.requester.rank → s.requester.rank ≤ 9 → (s.syncer.pointCv p).isSome
  count : 5 ≤ s.requester.rank → s.requester.rank ≤ 11 → Syncer.readNum s.syncer p = 1
  reading : s.handler = .readNum → 3 ≤ s.requester.rank
  signalling : s.handler = .signal → 5 ≤ s.requester.rank
  writing : ∀ n, s.handler = .writeNum n → s.requester.rank = 12
  finished : s.handler = .done → 7 ≤ s.requester.rank ∧ held s.syncer s.requester = false

omit [DecidableEq T] in
theorem inv_init (p : T) : Inv p init := by
  constructor <;> simp [init, Syncer.empty, Requester.rank]

omit [DecidableEq T] in
/-- Nobody waits while the requester is away from its wait. -/
theorem Inv.no_waiter {p : T} {s : State T} (h : Inv p s) (hout : ∀ cv, s.requester ≠ .blocked cv) (cv : Nat) :
    s.syncer.waiters cv = [] :=
  (h.waiters cv).resolve_right fun hb => hout cv hb.2

omit [DecidableEq T] in
/-- What a step of the requester away from its wait has to show for itself. -/
theorem Inv.advance {p : T} {s : State T} (h : Inv p s) {syncer : Syncer.State T} {sent : Bool} {r : Requester}
    (hout : ∀ cv, s.requester ≠ .blocked cv) (hnext : ∀ cv, r ≠ .blocked cv) (hrank : s.requester.rank ≤ r.rank)
    (hwaiters : syncer.waiters = s.syncer.waiters) (early : r.rank ≤ 2 → syncer.pointCv p = none)
    (present : 3 ≤ r.rank → r.rank ≤ 9 → (syncer.pointCv p).isSome)
    (count : 5 ≤ r.rank → r.rank ≤ 11 → Syncer.readNum syncer p = 1) :
    Inv p { s with syncer := syncer, sent := sent, requester := r } where
  waiters cv := by
    rw [hwaiters]
    exact .inl (h.no_waiter hout cv)
  own cv hb := absurd hb (hnext cv)
  early := early
  present := present
  count := count
  reading hh := Nat.le_trans (h.reading hh) hrank
  signalling hh := Nat.le_trans (h.signalling hh) hrank
  writing n hh := by
    have hlast := h.writing n hh
    have hle : r.rank ≤ 12 := by cases r <;> simp [Requester.rank]
    exact Nat.le_antisymm hle (hlast ▸ hrank)
  finished hh := by
    refine ⟨Nat.le_trans (h.finished hh).1 hrank, ?_⟩
    cases r with
    | blocked cv => exact absurd rfl (hnext cv)
    | _ => rfl

/-- Once the handler is done the requester cannot come back to its wait. -/
theorem inv_request {p : T} {s s' : State T} (h : Inv p s) (hs : request p s = some s') : Inv p s' := by
  cases hq : s.requester with
  | send =>
    simp only [request, hq, Option.some.injEq] at hs
    subst hs
    exact h.advance (by simp [hq]) (by simp) (by simp [hq, Requester.rank]) rfl
      (fun _ => h.early (by simp [hq, Requester.rank])) (by simp [Requester.rank]) (by simp [Requester.rank])
  | testAdd =>
    have hnone : s.syncer.pointCv p = none := h.early (by simp [hq, Requester.rank])
    simp only [request, hq, hnone, Option.isSome_none, Bool.false_eq_true, if_false, Option.some.injEq] at hs
    subst hs
    exact h.advance (by simp [hq]) (by simp) (by simp [hq, Requester.rank]) rfl
      (fun _ => hnone) (by simp [Requester.rank]) (by simp [Requester.rank])
  | storeCv =>
    simp only [request, hq, Option.some.injEq] at hs
    subst hs
    exact h.advance (by simp [hq]) (by simp) (by simp [hq, Requester.rank]) rfl
      (by simp [Requester.rank]) (by simp [Syncer.storeCv]) (by simp [Requester.rank])
  | storeM =>
    simp only [request, hq, Option.some.injEq] at hs
    subst hs
    exact h.advance (by simp [hq]) (by simp) (by simp [hq, Requester.rank]) rfl
      (by simp [Requester.rank]) (fun _ _ => h.present (by simp [hq, Requester.rank]) (by simp [hq, Requester.rank]))
      (by simp [Requester.rank])
  | storeNum =>
    simp only [request, hq, Option.some.injEq] at hs
    subst hs
    exact h.advance (by simp [hq]) (by simp) (by simp [hq, Requester.rank]) rfl
      (by simp [Requester.rank]) (fun _ _ => h.present (by simp [hq, Requester.rank]) (by simp [hq, Requester.rank]))
      (by simp [Syncer.readNum, Syncer.storeNum])
  | lockM =>
    simp only [request, hq, Option.ite_none_right_eq_some, Option.some.injEq] at hs
    obtain ⟨-, rfl⟩ := hs
    exact h.advance (by simp [hq]) (by simp) (by simp [hq, Requester.rank]) rfl
      (by simp [Requester.rank]) (fun _ _ => h.present (by simp [hq, Requester.rank]) (by simp [hq, Requester.rank]))
      (fun _ _ => h.count (by simp [hq, Requester.rank]) (by simp [hq, Requester.rank]))
  | enterCv =>
    simp only [request, hq, Option.map_eq_some_iff] at hs
    obtain ⟨cv, hcv, rfl⟩ := hs
    have hempty : ∀ c, s.syncer.waiters c = [] := h.no_waiter (by simp [hq])
    refine ⟨?_, ?_, by simp [Requester.rank], fun _ _ => by simp [hcv],
      fun _ _ => h.count (by simp [hq, Requester.rank]) (by simp [hq, Requester.rank]), by simp [Requester.rank],
      by simp [Requester.rank], fun n hh => absurd (h.writing n hh) (by simp [hq, Requester.rank]),
      fun hh => absurd (h.finished hh).1 (by simp [hq, Requester.rank])⟩
    · intro c
      by_cases hcc : c = cv
      · subst hcc; simp [hempty]
      · left; simp [Syncer.enter_other _ _ hcc, hempty]
    · intro c hb
      obtain rfl : cv = c := by simpa using hb
      exact hcv
  | blocked cv =>
    simp only [request, hq, Option.ite_none_left_eq_some, Option.some.injEq] at hs
    obtain ⟨hout, rfl⟩ := hs
    refine ⟨?_, by simp, by simp [Requester.rank], fun _ _ => h.present (by simp [hq, Requester.rank])
      (by simp [hq, Requester.rank]), fun _ _ => h.count (by simp [hq, Requester.rank]) (by simp [hq, Requester.rank]),
      by simp [Requester.rank], by simp [Requester.rank],
      fun n hh => absurd (h.writing n hh) (by simp [hq, Requester.rank]), by simp [Requester.rank, held]⟩
    intro c
    refine .inl ((h.waiters c).resolve_right ?_)
    rintro ⟨hc, hb⟩
    obtain rfl : cv = c := by simpa [hq] using hb
    simp [hc] at hout
  | testDel =>
    have hsome : (s.syncer.pointCv p).isSome = true :=
      h.present (by simp [hq, Requester.rank]) (by simp [hq, Requester.rank])
    simp only [request, hq, hsome, if_true, Option.some.injEq] at hs
    subst hs
    exact h.advance (by simp [hq]) (by simp) (by simp [hq, Requester.rank]) rfl
      (by simp [Requester.rank]) (fun _ _ => hsome)
      (fun _ _ => h.count (by simp [hq, Requester.rank]) (by simp [hq, Requester.rank]))
  | dropCv =>
    simp only [request, hq, Option.some.injEq] at hs
    subst hs
    exact h.advance (by simp [hq]) (by simp) (by simp [hq, Requester.rank]) rfl
      (by simp [Requester.rank]) (by simp [Requester.rank])
      (fun _ _ => h.count (by simp [hq, Requester.rank]) (by simp [hq, Requester.rank]))
  | dropM =>
    simp only [request, hq, Option.some.injEq] at hs
    subst hs
    exact h.advance (by simp [hq]) (by simp) (by simp [hq, Requester.rank]) rfl
      (by simp [Requester.rank]) (by simp [Requester.rank])
      (fun _ _ => h.count (by simp [hq, Requester.rank]) (by simp [hq, Requester.rank]))
  | dropNum =>
    simp only [request, hq, Option.some.injEq] at hs
    subst hs
    exact h.advance (by simp [hq]) (by simp) (by simp [hq, Requester.rank]) rfl
      (by simp [Requester.rank]) (by simp [Requester.rank]) (by simp [Requester.rank])
  | done => simp [request, hq] at hs

omit [DecidableEq T] in
theorem held_early (syncer : Syncer.State T) {r : Requester} (h : r.rank ≠ 7) :
    held syncer r = false := by cases r <;> simp_all [held, Requester.rank]

omit [DecidableEq T] in
theorem held_empty {syncer : Syncer.State T} (h : ∀ cv, syncer.waiters cv = []) (r : Requester) :
    held syncer r = false := by cases r <;> simp [held, h]

/-- A handler that is in time signals a requester that waits, or one that is through. -/
theorem inv_reply {p : T} {s s' : State T} {woken : Option Nat} (h : Inv p s)
    (ht : Timely s (.reply woken)) (hs : reply p s woken = some s') : Inv p s' := by
  obtain ⟨hw, ho, he, hp, hc, hr, hg, hn, hf⟩ := h
  cases hh : s.handler with
  | absent =>
    simp only [reply, hh, Option.ite_none_right_eq_some, Option.some.injEq] at hs
    obtain ⟨-, rfl⟩ := hs
    exact ⟨hw, ho, he, hp, hc, (by simp), (by simp), (by simp), (by simp)⟩
  | test =>
    simp only [Timely, hh] at ht
    simp only [reply, hh] at hs
    split at hs
    · obtain rfl := Option.some.inj hs
      exact ⟨hw, ho, he, hp, hc, fun _ => ht, (by simp), (by simp), (by simp)⟩
    · rename_i habsent
      obtain rfl := Option.some.inj hs
      have hfar : 10 ≤ s.requester.rank := by
        by_contra hlt
        exact habsent (hp ht (by omega))
      exact ⟨hw, ho, he, hp, hc, (by simp), (by simp), (by simp),
        fun _ => ⟨by show 7 ≤ s.requester.rank; omega, held_early _ (by show s.requester.rank ≠ 7; omega)⟩⟩
  | readNum =>
    simp only [Timely, hh] at ht
    simp only [reply, hh] at hs
    have hkeep : Syncer.readNum (Syncer.storeNum s.syncer p (Syncer.readNum s.syncer p)) p =
        Syncer.readNum s.syncer p := by simp [Syncer.readNum, Syncer.storeNum]
    split at hs
    · obtain rfl := Option.some.inj hs
      exact ⟨hw, ho, he, hp, fun h5 h11 => hkeep.trans (hc h5 h11), (by simp), fun _ => ht, (by simp), (by simp)⟩
    · rename_i hne
      obtain rfl := Option.some.inj hs
      have hlast : s.requester.rank = 12 := by
        have hle : s.requester.rank ≤ 12 := by cases s.requester <;> simp [Requester.rank]
        by_contra hlt
        exact hne (by rw [hc ht (by omega)]; rfl)
      exact ⟨hw, ho, he, hp, fun h5 h11 => hkeep.trans (hc h5 h11), (by simp), (by simp),
        fun _ _ => hlast, (by simp)⟩
  | signal =>
    simp only [Timely, hh] at ht
    simp only [reply, hh, Option.bind_eq_some_iff, Option.map_eq_some_iff] at hs
    obtain ⟨cv, hcv, y, hone, rfl⟩ := hs
    have hout : ∀ c, s.requester = .blocked c → c = cv := by
      intro c hb
      simpa [hcv, eq_comm] using ho c hb
    rcases Syncer.notifyOne_cases hone with ⟨-, hempty, rfl⟩ | ⟨t, -, hmem, rfl⟩
    · have hfree : held s.syncer s.requester = false := by
        cases hq : s.requester with
        | blocked c => obtain rfl := hout c hq; simp [held, hempty]
        | _ => rfl
      exact ⟨hw, ho, he, hp, hc, (by simp), (by simp), (by simp), fun _ => ⟨ht, hfree⟩⟩
    · obtain ⟨hlist, hb⟩ : s.syncer.waiters cv = [0] ∧ s.requester = .blocked cv :=
        (hw cv).resolve_left (by rintro h0; simp [h0] at hmem)
      obtain rfl : t = 0 := by simpa [hlist] using hmem
      have hgone : ∀ c, (Syncer.release s.syncer cv 0).waiters c = [] := by
        intro c
        by_cases hcc : c = cv
        · subst hcc; simp [hlist]
        · rw [Syncer.release_other _ _ hcc]
          refine (hw c).resolve_right ?_
          rintro ⟨-, hb'⟩
          exact hcc (hout c hb')
      exact ⟨fun c => .inl (hgone c), ho, he, hp, hc, (by simp), (by simp), (by simp),
        fun _ => ⟨ht, held_empty hgone _⟩⟩
  | writeNum n =>
    simp only [reply, hh, Option.some.injEq] at hs
    subst hs
    have hlast := hn n hh
    exact ⟨hw, ho, he, hp, fun _ h11 => by simp only [hlast] at h11; omega, (by simp), (by simp), (by simp),
      fun _ => ⟨by simp [hlast], held_early _ (by simp [hlast])⟩⟩
  | done => simp [reply, hh] at hs

theorem inv_spurious {p : T} {s s' : State T} (h : Inv p s) (hs : step p s .spurious = some s') :
    Inv p s' := by
  obtain ⟨hw, ho, he, hp, hc, hr, hg, hn, hf⟩ := h
  cases hq : s.requester with
  | blocked cv =>
    simp only [step, hq, Syncer.spurious, Option.map_eq_some_iff, Option.ite_none_right_eq_some] at hs
    obtain ⟨y, ⟨hmem, hy⟩, rfl⟩ := hs
    obtain rfl := Option.some.inj hy
    have hgone : ∀ c, (Syncer.release s.syncer cv 0).waiters c = [] := by
      intro c
      by_cases hcc : c = cv
      · subst hcc
        rcases hw c with hc' | ⟨hc', -⟩ <;> simp [hc']
      · rw [Syncer.release_other _ _ hcc]
        refine (hw c).resolve_right ?_
        rintro ⟨-, hb⟩
        rw [hq] at hb
        exact hcc (by cases hb; rfl)
    exact ⟨fun c => .inl (hgone c), hq ▸ ho, hq ▸ he, hq ▸ hp, hq ▸ hc, hq ▸ hr, hq ▸ hg, hq ▸ hn,
      fun hd => ⟨hq ▸ (hf hd).1, held_empty hgone _⟩⟩
  | _ => simp [step, hq] at hs

theorem inv_step {p : T} {s s' : State T} {a : Action} (h : Inv p s) (ht : Timely s a)
    (hs : step p s a = some s') : Inv p s' := by
  cases a with
  | request => exact inv_request h hs
  | reply woken => exact inv_reply h ht hs
  | spurious => exact inv_spurious h hs

/-- When each access of the handler is in time, no reply is lost, whatever the
interleaving. -/
theorem timely_reply_kept (p : T) {s : State T} (hr : Reaches (step p) Timely init s) :
    ¬ LostReply s := by
  have h := hr.invariant (Inv p) (inv_init p) fun _ _ _ hi ht hs => inv_step hi ht hs
  rintro ⟨hdone, hblocked⟩
  simp [(h.finished hdone).2] at hblocked

/-- `reg_app` of app 7: the reply comes in and is dispatched before the point exists. -/
theorem reply_lost : ¬ ∀ s : State UInt32,
    Reaches (step (Patch.hashStr (Patch.sdmRegApp ++ "_" ++ "7"))) free init s → ¬ LostReply s := by
  intro h
  obtain ⟨s, hs, hlost⟩ := Transition.run_reaches_of_any
    (step (Patch.hashStr (Patch.sdmRegApp ++ "_" ++ "7"))) init
    ([.request, .reply none, .reply none] ++ List.replicate 6 .request)
    (fun s => decide (LostReply s)) (by decide)
  exact h s hs (by simpa using hlost)

/-- The reply that comes in once the requester waits. -/
theorem reply_in_time : ∃ s : State UInt32,
    s.handler = .done ∧ s.requester.rank = 7 ∧ ¬ LostReply s := by
  obtain ⟨s, hs, hdone⟩ := Transition.runWhere_reaches_of_any
    (step (Patch.hashStr (Patch.sdmRegApp ++ "_" ++ "7"))) Timely init
    (List.replicate 7 .request ++ [.reply none, .reply none, .reply none, .reply (some 0)])
    (fun s => decide (s.handler = .done ∧ s.requester.rank = 7)) (by decide)
  obtain ⟨hh, hq⟩ := of_decide_eq_true hdone
  exact ⟨s, hh, hq, timely_reply_kept _ hs⟩

end RequestReply
