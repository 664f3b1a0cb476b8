import DataspacesWa.Pool
import DataspacesWa.Syncer

/-!
# Sync points with one user at a time

Where a point is only ever added while it is absent, the thread that added it
is its only user until it deletes it: nobody else waits on its condition
variable, and a notification of the point releases that thread or nobody.
Threads outside the family may use the same syncer at other points.
-/
namespace Exclusive

open Function (update)
open Syncer

variable {T : Type*}

/-- How a thread of the family stands to the syncer. -/
inductive Phase (T : Type*) where
  | away : Phase T
  | holding : T → Phase T
  | blocked : T → Nat → Phase T
  deriving DecidableEq, Repr

def Phase.point : Phase T → Option T
  | .away => none
  | .holding p => some p
  | .blocked p _ => some p

/-- The entry of `p` is complete and its condition variable is `cv`. -/
structure Entry (s : State T) (p : T) (cv : Nat) : Prop where
  pointCv : s.pointCv p = some cv
  numPeers : readNum s p = 1

/-- What the syncer holds for a thread: its own entry, and nobody else waiting there. -/
def Fits (s : State T) (t : Nat) : Phase T → Prop
  | .away => True
  | .holding p => ∃ cv, Entry s p cv ∧ s.waiters cv = []
  | .blocked p cv => Entry s p cv ∧ (s.waiters cv = [t] ∨ s.waiters cv = [])

structure Owned (s : State T) (phase : Nat → Phase T) : Prop where
  bound : ∀ p cv, s.pointCv p = some cv → cv < s.fresh
  injective : ∀ p q cv, s.pointCv p = some cv → s.pointCv q = some cv → p = q
  quiet : ∀ cv, s.fresh ≤ cv → s.waiters cv = []
  fits : ∀ t, Fits s t (phase t)
  unique : ∀ t u p, (phase t).point = some p → (phase u).point = some p → t = u

/-- No thread of the family uses `p`. -/
def Unused (phase : Nat → Phase T) (p : T) : Prop := ∀ t, (phase t).point ≠ some p

theorem owned_empty : Owned (Syncer.empty : State T) fun _ => .away where
  bound p cv h := by simp [Syncer.empty] at h
  injective p q cv h := by simp [Syncer.empty] at h
  quiet cv _ := rfl
  fits t := trivial
  unique t u p h := by simp [Phase.point] at h

section Family
variable {s s' : State T} {phase : Nat → Phase T} {t cv : Nat} {p : T}

theorem Fits.entry {x : Phase T} (h : Fits s t x) (hx : x.point = some p) : ∃ cv, Entry s p cv := by
  cases x with
  | away => simp [Phase.point] at hx
  | holding q =>
    obtain ⟨cv, he, -⟩ := h
    simp only [Phase.point, Option.some.injEq] at hx
    exact ⟨cv, hx ▸ he⟩
  | blocked q cv =>
    simp only [Phase.point, Option.some.injEq] at hx
    exact ⟨cv, hx ▸ h.1⟩

/-- The condition variable a thread of the family relies on is the one of its point. -/
theorem Fits.transfer {x : Phase T} (h : Fits s t x)
    (entry : ∀ q c, x.point = some q → Entry s q c → Entry s' q c)
    (same : ∀ q c, x.point = some q → Entry s q c → s'.waiters c = s.waiters c) : Fits s' t x := by
  cases x with
  | away => trivial
  | holding q =>
    obtain ⟨c, he, hw⟩ := h
    exact ⟨c, entry q c rfl he, by rw [same q c rfl he, hw]⟩
  | blocked q c =>
    obtain ⟨he, hw⟩ := h
    exact ⟨entry q c rfl he, by rwa [same q c rfl he]⟩

/-- One thread changes its standing, and takes no point another thread uses. -/
theorem Owned.update (h : Owned s phase) {x : Phase T} (fit : Fits s t x)
    (own : ∀ u q, u ≠ t → (phase u).point = some q → x.point ≠ some q) :
    Owned s (update phase t x) where
  bound := h.bound
  injective := h.injective
  quiet := h.quiet
  fits u := by
    by_cases hut : u = t
    · subst hut; simpa using fit
    · simpa [hut] using h.fits u
  unique u v q hu hv := by
    by_cases hut : u = t <;> by_cases hvt : v = t
    · omega
    · subst hut
      rw [Function.update_self] at hu
      rw [Function.update_of_ne hvt] at hv
      exact absurd hu (own v q hvt hv)
    · subst hvt
      rw [Function.update_self] at hv
      rw [Function.update_of_ne hut] at hu
      exact absurd hv (own u q hut hu)
    · rw [Function.update_of_ne hut] at hu
      rw [Function.update_of_ne hvt] at hv
      exact h.unique u v q hu hv

theorem owned_leave (h : Owned s phase) (t : Nat) : Owned s (update phase t .away) :=
  h.update trivial (by simp [Phase.point])

theorem unused_leave (h : Owned s phase) (ht : (phase t).point = some p) :
    Unused (update phase t .away) p := by
  intro u hu
  by_cases hut : u = t
  · subst hut; simp [Phase.point] at hu
  · rw [Function.update_of_ne hut] at hu
    exact hut (h.unique u t p hu ht)

/-- A thread that keeps the point it has changes only how it stands there. -/
theorem owned_keep (h : Owned s phase) {x : Phase T} (ht : (phase t).point = some p)
    (hx : x.point = some p) (fit : Fits s t x) : Owned s (update phase t x) := by
  refine h.update fit ?_
  intro u q hut hu hxq
  obtain rfl : p = q := by simpa [hx] using hxq
  exact hut (h.unique u t p hu ht)

/-- A thread that has been released goes on, still the only user of its point. -/
theorem owned_resume (h : Owned s phase) (ht : phase t = .blocked p cv) (hn : t ∉ s.waiters cv) :
    Owned s (update phase t (.holding p)) := by
  have hf := h.fits t
  rw [ht] at hf
  refine owned_keep h (by simp [ht, Phase.point]) rfl ⟨cv, hf.1, hf.2.resolve_left ?_⟩
  intro hw
  simp [hw] at hn

/-- Releasing a waiting thread, by a signal or for no reason, breaks nothing. -/
theorem owned_release (h : Owned s phase) (cv t : Nat) : Owned (release s cv t) phase := by
  have shrink : ∀ c, s.waiters c = [] → (release s cv t).waiters c = [] := by
    intro c hc
    by_cases hcc : c = cv
    · subst hcc; simp [hc]
    · rwa [release_other _ _ hcc]
  refine ⟨h.bound, h.injective, fun c hc => shrink c (h.quiet c hc), ?_, h.unique⟩
  intro u
  have hf := h.fits u
  cases hph : phase u with
  | away => trivial
  | holding q =>
    rw [hph] at hf
    obtain ⟨c, hc, hw⟩ := hf
    exact ⟨c, ⟨hc.pointCv, hc.numPeers⟩, shrink c hw⟩
  | blocked q c =>
    rw [hph] at hf
    obtain ⟨hc, hw⟩ := hf
    refine ⟨⟨hc.pointCv, hc.numPeers⟩, ?_⟩
    by_cases hcc : c = cv
    · subst hcc
      rcases hw with hw | hw
      · by_cases hut : u = t
        · subst hut; right; simp [hw]
        · left; simp [hw, hut]
      · exact .inr (shrink c hw)
    · rwa [release_other _ _ hcc]

theorem owned_foreign_wait (h : Owned s phase) (hp : Unused phase p)
    (hw : wait s p t = some (cv, s')) : Owned s' phase := by
  obtain ⟨hcv, rfl⟩ := wait_cases hw
  refine ⟨h.bound, h.injective, ?_, ?_, h.unique⟩
  · intro c hc
    have hb := h.bound p cv hcv
    rw [enter_other _ _ (by simp only [enter_fresh] at hc; omega)]
    exact h.quiet c hc
  · intro u
    refine (h.fits u).transfer (fun q c _ he => ⟨he.pointCv, he.numPeers⟩) ?_
    intro q c hq he
    apply enter_other
    rintro rfl
    exact hp u (h.injective q p c he.pointCv hcv ▸ hq)

theorem owned_wait (h : Owned s phase) (ht : phase t = .holding p)
    (hw : wait s p t = some (cv, s')) : Owned s' (update phase t (.blocked p cv)) := by
  have hpoint : (phase t).point = some p := by simp [ht, Phase.point]
  have away := owned_foreign_wait (owned_leave h t) (unused_leave h hpoint) hw
  obtain ⟨hcv, rfl⟩ := wait_cases hw
  have hf := h.fits t
  rw [ht] at hf
  obtain ⟨c, he, hempty⟩ := hf
  obtain rfl : c = cv := by simpa [he.pointCv] using hcv
  have back := away.update (x := .blocked p c) (t := t)
    ⟨⟨he.pointCv, he.numPeers⟩, .inl (by simp [hempty])⟩ (by
      intro u q _ hu hq
      obtain rfl : p = q := by simpa [Phase.point] using hq
      exact unused_leave h hpoint u hu)
  simpa using back

/-- A thread that starts to wait joins nobody. -/
theorem wait_spares {u c : Nat} {q : T} (h : Owned s phase) (ht : phase t = .holding p) (hut : u ≠ t)
    (hu : phase u = .blocked q c) (hw : wait s p t = some (cv, s')) : s'.waiters c = s.waiters c := by
  obtain ⟨hcv, rfl⟩ := wait_cases hw
  have hf := h.fits u
  rw [hu] at hf
  apply enter_other
  rintro rfl
  obtain rfl := h.injective q p c hf.1.pointCv hcv
  exact hut (h.unique u t q (by simp [hu, Phase.point]) (by simp [ht, Phase.point]))

variable [DecidableEq T]

theorem owned_foreign_add (h : Owned s phase) (p : T) (n : Int) :
    Owned (addSyncPoint s p n) phase := by
  cases hp : s.pointCv p with
  | some cv => rwa [addSyncPoint_present hp]
  | none =>
    refine ⟨?_, ?_, ?_, ?_, h.unique⟩
    · intro q cv hq
      rw [addSyncPoint_fresh hp]
      rw [addSyncPoint_pointCv hp] at hq
      split at hq
      · simp only [Option.some.injEq] at hq; omega
      · have := h.bound q cv hq; omega
    · intro q q' cv hq hq'
      rw [addSyncPoint_pointCv hp] at hq hq'
      split at hq <;> split at hq'
      · simp_all
      · simp only [Option.some.injEq] at hq
        have := h.bound _ _ hq'; omega
      · simp only [Option.some.injEq] at hq'
        have := h.bound _ _ hq; omega
      · exact h.injective _ _ _ hq hq'
    · intro cv hcv
      rw [addSyncPoint_fresh hp] at hcv
      rw [addSyncPoint_waiters]
      exact h.quiet cv (by omega)
    · intro u
      refine (h.fits u).transfer ?_ (by simp)
      intro q c _ he
      have hq : q ≠ p := by rintro rfl; simp [he.pointCv] at hp
      exact ⟨by simpa [addSyncPoint_pointCv hp, hq] using he.pointCv,
        by simpa [addSyncPoint_readNum hp, hq] using he.numPeers⟩

/-- Adding an absent point makes the thread its only user. -/
theorem owned_add (h : Owned s phase) (t : Nat) (hp : s.pointCv p = none) :
    Owned (addSyncPoint s p 1) (update phase t (.holding p)) := by
  refine (owned_foreign_add h p 1).update ⟨s.fresh, ⟨?_, ?_⟩, ?_⟩ ?_
  · simp [addSyncPoint_pointCv hp]
  · simp [addSyncPoint_readNum hp]
  · rw [addSyncPoint_waiters]; exact h.quiet _ (Nat.le_refl _)
  · intro u q _ hu hq
    obtain rfl : p = q := by simpa [Phase.point] using hq
    obtain ⟨cv, he⟩ := (h.fits u).entry hu
    simp [he.pointCv] at hp

theorem owned_foreign_del (h : Owned s phase) (hp : Unused phase p) :
    Owned (delSyncPoint s p) phase := by
  refine ⟨?_, ?_, by simpa using h.quiet, ?_, h.unique⟩
  · intro q c hq
    rw [delSyncPoint_pointCv] at hq
    split at hq
    · simp at hq
    · simpa using h.bound q c hq
  · intro q q' c hq hq'
    rw [delSyncPoint_pointCv] at hq hq'
    split at hq <;> split at hq' <;> first | contradiction | exact h.injective q q' c hq hq'
  · intro u
    refine (h.fits u).transfer ?_ (by simp)
    intro q c hu he
    have hq : q ≠ p := by rintro rfl; exact hp u hu
    exact ⟨by simpa [delSyncPoint_pointCv, hq] using he.pointCv,
      by simpa [delSyncPoint_readNum s hq] using he.numPeers⟩

theorem owned_del (h : Owned s phase) (ht : (phase t).point = some p) :
    Owned (delSyncPoint s p) (update phase t .away) :=
  owned_foreign_del (owned_leave h t) (unused_leave h ht)

/-- A notification of any point leaves the family in order. -/
theorem owned_notify {woken : Option Nat} (h : Owned s phase) (hn : notify s p woken = some s') :
    Owned s' phase := by
  rcases notify_cases hn with ⟨-, -, rfl⟩ | ⟨cv, hcv, hnum, -, rfl⟩ | ⟨cv, -, -, hone⟩
  · exact h
  · refine ⟨h.bound, h.injective, h.quiet, ?_, h.unique⟩
    intro u
    refine (h.fits u).transfer ?_ (fun _ _ _ _ => rfl)
    intro q c _ he
    have hq : q ≠ p := by rintro rfl; exact hnum he.numPeers
    exact ⟨he.pointCv, by simpa [readNum, storeNum, hq] using he.numPeers⟩
  · rcases notifyOne_cases hone with ⟨-, -, rfl⟩ | ⟨t, -, -, rfl⟩
    · exact h
    · exact owned_release h cv t

/-- A notification of the point a thread waits on releases that thread. -/
theorem notify_releases {woken : Option Nat} (h : Owned s phase) (ht : phase t = .blocked p cv)
    (hn : notify s p woken = some s') : t ∉ s'.waiters cv := by
  have hf := h.fits t
  rw [ht] at hf
  obtain ⟨he, hw⟩ := hf
  rcases notify_cases hn with ⟨hnone, -, -⟩ | ⟨_, _, hnum, _⟩ | ⟨c, hc, -, hone⟩
  · simp [he.pointCv] at hnone
  · exact absurd he.numPeers hnum
  · obtain rfl : cv = c := by simpa [he.pointCv] using hc
    rcases notifyOne_cases hone with ⟨-, hempty, rfl⟩ | ⟨u, -, hu, rfl⟩
    · simp [hempty]
    · rcases hw with hw | hw
      · obtain rfl : u = t := by simpa [hw] using hu
        simp [hw]
      · simp [hw] at hu

/-- A notification of one point releases nobody who waits on another. -/
theorem notify_spares {woken : Option Nat} {q : T} (h : Owned s phase) (ht : phase t = .blocked q cv)
    (hq : q ≠ p) (hn : notify s p woken = some s') : s'.waiters cv = s.waiters cv := by
  have hf := h.fits t
  rw [ht] at hf
  rcases notify_cases hn with ⟨-, -, rfl⟩ | ⟨_, _, _, _, rfl⟩ | ⟨c, hc, -, hone⟩
  · rfl
  · rfl
  · rcases notifyOne_cases hone with ⟨-, -, rfl⟩ | ⟨u, -, -, rfl⟩
    · rfl
    · apply release_other
      rintro rfl
      exact hq (h.injective q p cv hf.1.pointCv hc)

/-! ## Whole calls -/

/-- How a thread in its three calls at `p` stands. -/
def callPhase (p : T) : Call → Phase T
  | .add | .done => .away
  | .wait | .del => .holding p
  | .blocked cv => .blocked p cv

omit [DecidableEq T] in
theorem callPhase_point {c : Call} {q : T} (h : (callPhase p c).point = some q) : p = q := by
  cases c <;> simp_all [callPhase, Phase.point]

/-- A thread that adds its point only while it is absent keeps the family in order. -/
theorem owned_call {c c' : Call} (h : Owned s phase) (ht : phase t = callPhase p c)
    (hadd : c = .add → s.pointCv p = none) (hs : c.step s p t = some (c', s')) :
    Owned s' (update phase t (callPhase p c')) := by
  cases c with
  | add =>
    simp only [Call.step, Option.some.injEq, Prod.mk.injEq] at hs
    obtain ⟨rfl, rfl⟩ := hs
    exact owned_add h t (hadd rfl)
  | wait =>
    simp only [Call.step, Option.map_eq_some_iff, Prod.mk.injEq] at hs
    obtain ⟨⟨cv, y⟩, hw, rfl, rfl⟩ := hs
    exact owned_wait h ht hw
  | blocked cv =>
    simp only [Call.step, Option.ite_none_left_eq_some, Option.some.injEq, Prod.mk.injEq] at hs
    obtain ⟨hout, rfl, rfl⟩ := hs
    exact owned_resume h ht hout
  | del =>
    simp only [Call.step, Option.some.injEq, Prod.mk.injEq] at hs
    obtain ⟨rfl, rfl⟩ := hs
    exact owned_del h (by simp [ht, callPhase, Phase.point])
  | done => simp [Call.step] at hs

/-- A step of a call changes the waiters of nobody else. -/
theorem call_spares {c c' : Call} {u d : Nat} {q : T} (h : Owned s phase) (ht : phase t = callPhase p c)
    (hut : u ≠ t) (hu : phase u = .blocked q d) (hs : c.step s p t = some (c', s')) :
    s'.waiters d = s.waiters d := by
  cases c with
  | wait =>
    simp only [Call.step, Option.map_eq_some_iff, Prod.mk.injEq] at hs
    obtain ⟨⟨cv, y⟩, hw, rfl, rfl⟩ := hs
    exact wait_spares h ht hut hu hw
  | blocked cv =>
    simp only [Call.step, Option.ite_none_left_eq_some, Option.some.injEq, Prod.mk.injEq] at hs
    obtain ⟨-, rfl, rfl⟩ := hs
    rfl
  | done => simp [Call.step] at hs
  | add | del =>
    simp only [Call.step, Option.some.injEq, Prod.mk.injEq] at hs
    obtain ⟨rfl, rfl⟩ := hs
    simp

/-! ## A syncer of the family alone -/

/-- Every point that is present belongs to a thread of the family. -/
structure Sole (s : State T) (phase : Nat → Phase T) : Prop extends Owned s phase where
  covered : ∀ p cv, s.pointCv p = some cv → ∃ t, (phase t).point = some p

omit [DecidableEq T] in
theorem sole_empty : Sole (Syncer.empty : State T) fun _ => .away where
  toOwned := owned_empty
  covered p cv h := by simp [Syncer.empty] at h

omit [DecidableEq T] in
theorem Sole.absent (h : Sole s phase) (hp : Unused phase p) : s.pointCv p = none := by
  cases hcv : s.pointCv p with
  | none => rfl
  | some cv =>
    obtain ⟨t, ht⟩ := h.covered p cv hcv
    exact absurd ht (hp t)

/-- Where every thread adds its point only while nobody uses it, the calls keep order. -/
theorem sole_call {c c' : Call} (h : Sole s phase) (ht : phase t = callPhase p c)
    (hadd : c = .add → Unused phase p) (hs : c.step s p t = some (c', s')) :
    Sole s' (update phase t (callPhase p c')) where
  toOwned := owned_call h.toOwned ht (fun hc => h.absent (hadd hc)) hs
  covered q cv hq := by
    by_cases hown : (callPhase p c').point = some q
    · exact ⟨t, by simpa using hown⟩
    -- the entry was there before, and belongs to another thread
    · obtain ⟨u, hu⟩ : ∃ u, u ≠ t ∧ (phase u).point = some q := by
        have hold : s.pointCv q = some cv ∧ (callPhase p c).point ≠ some q := by
          cases c with
          | add =>
            simp only [Call.step, Option.some.injEq, Prod.mk.injEq] at hs
            obtain ⟨rfl, rfl⟩ := hs
            have hqp : q ≠ p := by rintro rfl; simp [callPhase, Phase.point] at hown
            rw [addSyncPoint_pointCv (h.absent (hadd rfl)), if_neg hqp] at hq
            exact ⟨hq, by simp [callPhase, Phase.point]⟩
          | wait =>
            simp only [Call.step, Option.map_eq_some_iff, Prod.mk.injEq] at hs
            obtain ⟨⟨cv', y⟩, hw, rfl, rfl⟩ := hs
            obtain ⟨-, rfl⟩ := wait_cases hw
            exact ⟨hq, by simpa [callPhase, Phase.point] using hown⟩
          | blocked cv' =>
            simp only [Call.step, Option.ite_none_left_eq_some, Option.some.injEq, Prod.mk.injEq] at hs
            obtain ⟨-, rfl, rfl⟩ := hs
            exact ⟨hq, by simpa [callPhase, Phase.point] using hown⟩
          | del =>
            simp only [Call.step, Option.some.injEq, Prod.mk.injEq] at hs
            obtain ⟨rfl, rfl⟩ := hs
            rw [delSyncPoint_pointCv] at hq
            split at hq
            · cases hq
            · rename_i hqp
              exact ⟨hq, by simpa [callPhase, Phase.point, eq_comm] using hqp⟩
          | done => simp [Call.step] at hs
        obtain ⟨u, hu⟩ := h.covered q cv hold.1
        refine ⟨u, ?_, hu⟩
        rintro rfl
        exact hold.2 (ht ▸ hu)
      exact ⟨u, by rw [Function.update_of_ne hu.1]; exact hu.2⟩

/-- `notify` touches no condition variable entry. -/
theorem notify_pointCv {woken : Option Nat} (hn : notify s p woken = some s') :
    s'.pointCv = s.pointCv := by
  rcases notify_cases hn with ⟨-, -, rfl⟩ | ⟨_, _, _, _, rfl⟩ | ⟨cv, -, -, hone⟩
  · rfl
  · rfl
  · rcases notifyOne_cases hone with ⟨-, -, rfl⟩ | ⟨t, -, -, rfl⟩ <;> rfl

theorem sole_notify {woken : Option Nat} (h : Sole s phase) (hn : notify s p woken = some s') :
    Sole s' phase where
  toOwned := owned_notify h.toOwned hn
  covered q cv hq := h.covered q cv (by rwa [notify_pointCv hn] at hq)

end Family

/-- The standing of the threads of a pool; a place past its end is away. -/
def phases {θ : Type*} (phase : θ → Phase T) (pool : List θ) : Nat → Phase T :=
  fun t => (pool[t]?.map phase).getD .away

theorem phases_get {θ : Type*} (phase : θ → Phase T) {pool : List θ} {t : Nat} {th : θ}
    (h : pool[t]? = some th) : phases phase pool t = phase th := by simp [phases, h]

/-- A step that starts threads outside the syncer changes one standing. -/
theorem phases_commit {θ : Type*} (phase : θ → Phase T) {pool : List θ} {t : Nat} {old : θ}
    (h : pool[t]? = some old) (th : θ) (new : List θ) (hnew : ∀ x ∈ new, phase x = .away) :
    phases phase (Pool.commit pool t th new) = update (phases phase pool) t (phase th) := by
  funext i
  have ht := Pool.lt_of_getElem? h
  unfold phases
  rw [Pool.commit_getElem?]
  by_cases hi : i < pool.length
  · by_cases hit : i = t
    · subst hit; simp [ht]
    · simp [hi, hit]
  · have hend : pool[i]? = none := List.getElem?_eq_none (by omega)
    rw [if_neg hi, Function.update_of_ne (by omega), hend]
    cases hx : new[i - pool.length]? with
    | none => rfl
    | some x => simp [hnew x (List.mem_of_getElem? hx)]

theorem phases_append {θ : Type*} (phase : θ → Phase T) (pool new : List θ)
    (hnew : ∀ x ∈ new, phase x = .away) : phases phase (pool ++ new) = phases phase pool := by
  funext i
  unfold phases
  by_cases hi : i < pool.length
  · rw [List.getElem?_append_left hi]
  · rw [List.getElem?_append_right (by omega), List.getElem?_eq_none (l := pool) (by omega)]
    cases hx : new[i - pool.length]? with
    | none => rfl
    | some x => simp [hnew x (List.mem_of_getElem? hx)]

/-- A thread of the pool stands where the pool says. -/
theorem point_of_phases {θ : Type*} {phase : θ → Phase T} {pool : List θ} {t : Nat} {p : T}
    (h : (phases phase pool t).point = some p) :
    ∃ th, pool[t]? = some th ∧ (phase th).point = some p := by
  unfold phases at h
  cases hx : pool[t]? with
  | none => simp [hx, Phase.point] at h
  | some th => exact ⟨th, rfl, by simpa [hx] using h⟩

end Exclusive
