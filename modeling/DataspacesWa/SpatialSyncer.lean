import DataspacesWa.BoxOrder
import DataspacesWa.Transition

/-!
# Waiting for boxes

`spatial_syncer` keeps for each sync point, a box, the number of notifications
to wait for. A notification goes through the points that lie in its box. It
signals a point whose number comes down to zero and leaves the number at one,
and writes any other number under its own box and not under the point. So the
countdown is right for notifications of the point itself, and for one other at
the end of it.
-/
namespace SpatialSyncer

open QTable (Box)
open BoxOrder (within lessForBox boxAt)

/-! ## The source -/

/-- The points in the order of `point_cv_map`, and `point__num_peers_map` with what was written last in front. -/
structure State where
  points : List Box
  numPeers : List (Box × Int)
  deriving DecidableEq, Repr

def init : State := ⟨[], []⟩

def keys (numPeers : List (Box × Int)) : List Box := numPeers.map (·.1)

/-- The order of the map decides about the key. Where it does not the map is undefined. -/
def Decided (box : Box) (keys : List Box) : Prop := ∀ key ∈ keys, within box key = true ∨ within key box = true

instance decidableDecided (box : Box) (keys : List Box) : Decidable (Decided box keys) :=
  inferInstanceAs (Decidable (∀ key ∈ keys, _))

/-- `point__num_peers_map[box]` -/
def num (numPeers : List (Box × Int)) (box : Box) : Int := (numPeers.lookup box).getD 0

/-- The new state, and what is returned. -/
def addSyncPoint (s : State) (point : Box) (numPeers : Int) : Option (State × Int) :=
  if Decided point s.points then
    if point ∈ s.points then some (s, 1)
    else if Decided point (keys s.numPeers) then
      some (⟨s.points.orderedInsert (fun b b' => lessForBox b b' = true) point, (point, numPeers) :: s.numPeers⟩, 0)
    else none
  else none

/-- One round of the loop of `notify`, with the points signalled so far. -/
def visit (box : Box) (r : List (Box × Int) × List Box) (point : Box) : Option (List (Box × Int) × List Box) :=
  if within point box then
    let numPeersToWait := num r.1 point - 1
    if numPeersToWait = 0 then some (r.1, r.2 ++ [point])
    else if Decided box (keys r.1) then some ((box, numPeersToWait) :: r.1, r.2)
    else none
  else some r

/-- The new state, the points signalled, and what is returned. -/
def notify (s : State) (box : Box) : Option (State × List Box × Int) :=
  (s.points.foldlM (visit box) (s.numPeers, [])).map fun r =>
    (⟨s.points, r.1⟩, r.2, if s.points.any (within · box) then 0 else 1)

/-! ## What it is for -/

/-- A point, the notifications it waits for, and how many have come since it was added whose box contains it. -/
structure Waiter where
  point : Box
  num : Int
  seen : Nat
  deriving DecidableEq, Repr

inductive Call where
  | addSyncPoint : Box → Int → Call
  | notify : Box → Call

structure Run where
  state : State
  waiters : List Waiter
  deriving DecidableEq, Repr

def start : Run := ⟨init, []⟩

def Run.points (r : Run) : List Box := r.waiters.map (·.point)

def Waiter.notified (w : Waiter) (box : Box) : Waiter :=
  if within w.point box then { w with seen := w.seen + 1 } else w

def step (r : Run) : Call → Option Run
  | .addSyncPoint point num => (addSyncPoint r.state point num).map fun out =>
      ⟨out.1, if point ∈ r.points then r.waiters else r.waiters ++ [⟨point, num, 0⟩]⟩
  | .notify box => (notify r.state box).map fun out => ⟨out.1, r.waiters.map (·.notified box)⟩

/-- The notification of the box is the one that the point waits for. -/
def Waiter.Due (w : Waiter) (box : Box) : Prop := within w.point box = true ∧ (w.seen : Int) + 1 = w.num

instance (w : Waiter) (box : Box) : Decidable (w.Due box) := inferInstanceAs (Decidable (_ ∧ _))

/-- A call does what it is to do: a new point is added, a notification signals each point that it is due for, and
it returns zero iff a point lies in its box. -/
def Exact (r : Run) : Call → Prop
  | .addSyncPoint point num => ∃ s code, addSyncPoint r.state point num = some (s, code) ∧
      (code = 0 ↔ point ∉ r.points) ∧ ∀ b, b ∈ s.points ↔ b = point ∨ b ∈ r.points
  | .notify box => ∃ s signalled code, notify r.state box = some (s, signalled, code) ∧
      (∀ b, signalled.count b = if ∃ w ∈ r.waiters, w.point = b ∧ w.Due box then 1 else 0) ∧
      (code = 0 ↔ ∃ w ∈ r.waiters, within w.point box = true)

/-- What is asked for makes sense: a point waits for something. -/
def Sensible (_ : Run) : Call → Prop
  | .addSyncPoint _ num => 1 ≤ num
  | .notify _ => True

/-- A point added lies in every other or around it. A notification that contains a point comes before it has been
signalled, and is the one it waits for or of the point itself. -/
def Counted (r : Run) : Call → Prop
  | .addSyncPoint point num => 1 ≤ num ∧ Decided point r.points
  | .notify box => ∀ w ∈ r.waiters, within w.point box = true →
      (w.seen : Int) + 1 = w.num ∨ w.point = box ∧ (w.seen : Int) + 1 < w.num

instance (r : Run) (call : Call) : Decidable (Sensible r call) := by
  cases call
  · exact inferInstanceAs (Decidable (_ ≤ _))
  · exact inferInstanceAs (Decidable True)

instance (r : Run) (call : Call) : Decidable (Counted r call) := by
  cases call
  · exact inferInstanceAs (Decidable (_ ∧ _))
  · exact inferInstanceAs (Decidable (∀ w ∈ r.waiters, _))

/-! ## The loop of a notification -/

section Loop
variable {box b : Box} {numPeers : List (Box × Int)} {points : List Box}

theorem within_self (b : Box) : within b b = true := le_refl b

theorem num_cons (box b : Box) (v : Int) (numPeers : List (Box × Int)) :
    num ((box, v) :: numPeers) b = if b = box then v else num numPeers b := by
  rw [num, List.lookup_cons]
  split
  next heq => simp_all
  next hne => simp_all [num]

theorem visit_outside {r : List (Box × Int) × List Box} (h : within b box ≠ true) : visit box r b = some r := by
  rw [visit, if_neg h]

theorem visit_last (signalled : List Box) (h : within b box = true) (hnum : num numPeers b = 1) :
    visit box (numPeers, signalled) b = some (numPeers, signalled ++ [b]) := by
  rw [visit, if_pos h]
  dsimp only
  rw [hnum, if_pos (by decide)]

theorem visit_early (signalled : List Box) (h : within b box = true) (hnum : num numPeers b ≠ 1)
    (hdecided : Decided box (keys numPeers)) :
    visit box (numPeers, signalled) b = some ((box, num numPeers b - 1) :: numPeers, signalled) := by
  rw [visit, if_pos h]
  dsimp only
  rw [if_neg (by omega), if_pos hdecided]

/-- The points that wait for one more notification. -/
def lasts (box : Box) (numPeers : List (Box × Int)) (points : List Box) : List Box :=
  points.filter fun b => within b box && num numPeers b = 1

/-- Where every point inside waits for one more or is the box itself, the points waiting for one more are signalled,
and one is taken off the number of the box. -/
theorem foldlM_visit (signalled : List Box) (hnodup : points.Nodup)
    (hdecided : box ∈ points → Decided box (keys numPeers))
    (hlast : ∀ b ∈ points, within b box = true → num numPeers b = 1 ∨ b = box) :
    ∃ numPeers', points.foldlM (visit box) (numPeers, signalled) =
        some (numPeers', signalled ++ lasts box numPeers points) ∧
      (∀ b, num numPeers' b =
        if b = box ∧ box ∈ points ∧ num numPeers box ≠ 1 then num numPeers box - 1 else num numPeers b) ∧
      ∀ key ∈ keys numPeers', key ∈ keys numPeers ∨ key = box ∧ box ∈ points := by
  induction points generalizing numPeers signalled with
  | nil => exact ⟨numPeers, by simp [lasts], fun b => by simp, fun key hkey => .inl hkey⟩
  | cons p points ih =>
    obtain ⟨hp, hnodup'⟩ := List.nodup_cons.mp hnodup
    have hdecided' : box ∈ points → Decided box (keys numPeers) := fun h => hdecided (List.mem_cons_of_mem _ h)
    have hlast' : ∀ b ∈ points, within b box = true → num numPeers b = 1 ∨ b = box :=
      fun b hb => hlast b (List.mem_cons_of_mem _ hb)
    rw [List.foldlM_cons]
    by_cases hin : within p box = true
    · by_cases hone : num numPeers p = 1
      · -- the point is signalled, and the numbers stay
        obtain ⟨numPeers', hfold, hnum, hkeys⟩ := ih (signalled ++ [p]) hnodup' hdecided' hlast'
        refine ⟨numPeers', ?_, fun b => ?_, fun key hkey => ?_⟩
        · rw [visit_last _ hin hone, Option.bind_eq_bind, Option.bind_some, hfold, lasts, lasts,
            List.filter_cons_of_pos (by simp [hin, hone]), List.append_assoc, List.singleton_append]
        · rw [hnum]
          by_cases hbox : box = p
          · subst hbox
            simp [hone]
          · simp [hbox]
        · exact (hkeys key hkey).imp id (And.imp id (List.mem_cons_of_mem _))
      · -- the point is the box, and its number goes down
        obtain rfl : p = box := (hlast p List.mem_cons_self hin).resolve_left hone
        have hstays : ∀ b ∈ points, num ((p, num numPeers p - 1) :: numPeers) b = num numPeers b := by
          intro b hb
          have hne : b ≠ p := fun heq => hp (heq ▸ hb)
          rw [num_cons, if_neg hne]
        have hsame : lasts p ((p, num numPeers p - 1) :: numPeers) points = lasts p numPeers points := by
          refine List.filter_congr fun b hb => ?_
          rw [hstays b hb]
        obtain ⟨numPeers', hfold, hnum, hkeys⟩ := ih signalled hnodup' (fun h => absurd h hp) fun b hb hinb =>
          (hstays b hb).symm ▸ hlast' b hb hinb
        refine ⟨numPeers', ?_, fun b => ?_, fun key hkey => ?_⟩
        · rw [visit_early _ hin hone (hdecided List.mem_cons_self), Option.bind_eq_bind, Option.bind_some, hfold, hsame, lasts, lasts,
            List.filter_cons_of_neg (by simp [hone])]
        · rw [hnum, if_neg fun h => hp h.2.1, num_cons]
          by_cases heq : b = p <;> simp [heq, hone]
        · rcases hkeys key hkey with hkey | ⟨rfl, hmem⟩
          · rcases List.mem_cons.mp hkey with rfl | hkey
            · exact .inr ⟨rfl, List.mem_cons_self⟩
            · exact .inl hkey
          · exact absurd hmem hp
    · -- a point outside is not the box
      have hne : box ≠ p := fun heq => hin (heq ▸ within_self _)
      obtain ⟨numPeers', hfold, hnum, hkeys⟩ := ih signalled hnodup' hdecided' hlast'
      refine ⟨numPeers', ?_, fun b => ?_, fun key hkey => ?_⟩
      · rw [visit_outside hin, Option.bind_eq_bind, Option.bind_some, hfold, lasts, lasts,
          List.filter_cons_of_neg (by simp [hin])]
      · rw [hnum]
        simp [hne]
      · exact (hkeys key hkey).imp id (And.imp id (List.mem_cons_of_mem _))

end Loop

/-! ## Runs -/

section Invariant
variable {r r' : Run} {box point : Box} {n : Int}

structure Inv (r : Run) : Prop where
  perm : r.state.points.Perm r.points
  nodup : r.points.Nodup
  decided : ∀ b ∈ r.points, Decided b r.points
  keys : ∀ key ∈ keys r.state.numPeers, key ∈ r.points
  nums : ∀ w ∈ r.waiters, (w.seen : Int) < w.num → num r.state.numPeers w.point = w.num - w.seen

theorem inv_start : Inv start where
  perm := .nil
  nodup := List.nodup_nil
  decided _ hb := absurd hb List.not_mem_nil
  keys _ hkey := absurd hkey List.not_mem_nil
  nums _ hw := absurd hw List.not_mem_nil

theorem Decided.of_subset {box : Box} {keys keys' : List Box} (h : Decided box keys) (hsub : ∀ k ∈ keys', k ∈ keys) :
    Decided box keys' := fun k hk => h k (hsub k hk)

theorem mem_points {w : Waiter} (hw : w ∈ r.waiters) : w.point ∈ r.points := List.mem_map_of_mem hw

/-- What a notification that is counted comes to. -/
theorem notify_spec (h : Inv r) (hc : Counted r (.notify box)) :
    ∃ numPeers, notify r.state box = some (⟨r.state.points, numPeers⟩, lasts box r.state.numPeers r.state.points,
        if r.state.points.any (within · box) then 0 else 1) ∧
      (∀ b, num numPeers b = if b = box ∧ box ∈ r.state.points ∧ num r.state.numPeers box ≠ 1
        then num r.state.numPeers box - 1 else num r.state.numPeers b) ∧
      ∀ key ∈ SpatialSyncer.keys numPeers, key ∈ r.points := by
  have hdecided : box ∈ r.state.points → Decided box (SpatialSyncer.keys r.state.numPeers) :=
    fun hbox => (h.decided box (h.perm.mem_iff.mp hbox)).of_subset h.keys
  have hlast : ∀ b ∈ r.state.points, within b box = true → num r.state.numPeers b = 1 ∨ b = box := by
    intro b hb hin
    obtain ⟨w, hw, rfl⟩ := List.mem_map.mp (h.perm.mem_iff.mp hb)
    rcases hc w hw hin with hdue | ⟨hbox, -⟩
    · left
      rw [h.nums w hw (by omega)]
      omega
    · exact .inr hbox
  obtain ⟨numPeers, hfold, hnum, hkeys⟩ := foldlM_visit [] (h.perm.nodup_iff.mpr h.nodup) hdecided hlast
  refine ⟨numPeers, ?_, hnum, fun key hkey => ?_⟩
  · rw [notify, hfold]
    rfl
  · rcases hkeys key hkey with hold | ⟨rfl, hbox⟩
    · exact h.keys key hold
    · exact h.perm.mem_iff.mp hbox

theorem mem_lasts_iff (h : Inv r) (hc : Counted r (.notify box)) (b : Box) :
    b ∈ lasts box r.state.numPeers r.state.points ↔ ∃ w ∈ r.waiters, w.point = b ∧ w.Due box := by
  rw [lasts, List.mem_filter, Bool.and_eq_true, decide_eq_true_iff, h.perm.mem_iff]
  constructor
  · rintro ⟨hb, hin, hone⟩
    obtain ⟨w, hw, rfl⟩ := List.mem_map.mp hb
    refine ⟨w, hw, rfl, hin, ?_⟩
    rcases hc w hw hin with hdue | ⟨-, hlt⟩
    · exact hdue
    · rw [h.nums w hw (by omega)] at hone
      omega
  · rintro ⟨w, hw, rfl, hin, hdue⟩
    refine ⟨mem_points hw, hin, ?_⟩
    rw [h.nums w hw (by omega)]
    omega

theorem notify_exact (h : Inv r) (hc : Counted r (.notify box)) : Exact r (.notify box) := by
  obtain ⟨numPeers, hnotify, -, -⟩ := notify_spec h hc
  refine ⟨_, _, _, hnotify, fun b => ?_, ?_⟩
  · have hnodup : (lasts box r.state.numPeers r.state.points).Nodup := (h.perm.nodup_iff.mpr h.nodup).filter _
    rw [hnodup.count]
    simp only [mem_lasts_iff h hc]
  · have hany : r.state.points.any (within · box) = true ↔ ∃ w ∈ r.waiters, within w.point box = true := by
      rw [List.any_eq_true]
      simp only [h.perm.mem_iff, Run.points, List.mem_map, exists_exists_and_eq_and]
    rw [← hany]
    split <;> simp_all

theorem inv_notify (h : Inv r) (hc : Counted r (.notify box)) (hstep : step r (.notify box) = some r') : Inv r' := by
  obtain ⟨numPeers, hnotify, hnum, hkeys⟩ := notify_spec h hc
  rw [step, hnotify] at hstep
  obtain rfl := Option.some.inj hstep
  have hpoints : ∀ w : Waiter, (w.notified box).point = w.point := by
    intro w
    rw [Waiter.notified]
    split <;> rfl
  have hsame : Run.points ⟨⟨r.state.points, numPeers⟩, r.waiters.map (·.notified box)⟩ = r.points := by
    rw [Run.points, Run.points, List.map_map]
    exact List.map_congr_left fun w _ => hpoints w
  dsimp only
  refine ⟨?_, ?_, ?_, ?_, ?_⟩
  · rw [hsame]
    exact h.perm
  · rw [hsame]
    exact h.nodup
  · rw [hsame]
    exact h.decided
  · rw [hsame]
    exact hkeys
  · intro w' hw' hlt
    obtain ⟨w, hw, rfl⟩ := List.mem_map.mp hw'
    show num numPeers (w.notified box).point = _
    rw [hpoints, hnum]
    rw [Waiter.notified] at hlt ⊢
    split at hlt
    next hin =>
      rw [if_pos hin]
      dsimp only at hlt ⊢
      obtain ⟨rfl, hmore⟩ := (hc w hw hin).resolve_left (by omega)
      have hnow := h.nums w hw (by omega)
      rw [if_pos ⟨rfl, h.perm.mem_iff.mpr (mem_points hw), by omega⟩, hnow]
      omega
    next hout =>
      have hne : w.point ≠ box := fun heq => hout (heq ▸ within_self _)
      rw [if_neg hout, if_neg fun hbox => hne hbox.1]
      exact h.nums w hw hlt

theorem addSyncPoint_spec (h : Inv r) (hc : Counted r (.addSyncPoint point n)) :
    addSyncPoint r.state point n = if point ∈ r.points then some (r.state, 1)
      else some (⟨r.state.points.orderedInsert (fun b b' => lessForBox b b' = true) point,
        (point, n) :: r.state.numPeers⟩, 0) := by
  have hdecided : Decided point r.state.points := Decided.of_subset hc.2 fun b hb => h.perm.mem_iff.mp hb
  have hkeys : Decided point (SpatialSyncer.keys r.state.numPeers) := Decided.of_subset hc.2 h.keys
  rw [addSyncPoint, if_pos hdecided, if_pos hkeys]
  simp only [h.perm.mem_iff]

theorem addSyncPoint_exact (h : Inv r) (hc : Counted r (.addSyncPoint point n)) : Exact r (.addSyncPoint point n) := by
  have hspec := addSyncPoint_spec h hc
  by_cases hthere : point ∈ r.points
  · rw [if_pos hthere] at hspec
    refine ⟨_, _, hspec, iff_of_false (by decide) (fun hnot => hnot hthere), fun b => ?_⟩
    rw [h.perm.mem_iff]
    exact ⟨.inr, fun hb => hb.elim (fun heq => heq ▸ hthere) id⟩
  · rw [if_neg hthere] at hspec
    refine ⟨_, _, hspec, iff_of_true rfl hthere, fun b => ?_⟩
    rw [List.mem_orderedInsert, h.perm.mem_iff]

theorem inv_addSyncPoint (h : Inv r) (hc : Counted r (.addSyncPoint point n))
    (hstep : step r (.addSyncPoint point n) = some r') : Inv r' := by
  have hspec := addSyncPoint_spec h hc
  by_cases hthere : point ∈ r.points
  · rw [if_pos hthere] at hspec
    rw [step, hspec, if_pos hthere] at hstep
    obtain rfl := Option.some.inj hstep
    exact h
  · rw [if_neg hthere] at hspec
    rw [step, hspec, if_neg hthere] at hstep
    obtain rfl := Option.some.inj hstep
    have hpoints : Run.points ⟨⟨r.state.points.orderedInsert (fun b b' => lessForBox b b' = true) point,
        (point, n) :: r.state.numPeers⟩, r.waiters ++ [⟨point, n, 0⟩]⟩ = r.points ++ [point] := List.map_append
    have hmem : ∀ b, b ∈ r.points ++ [point] ↔ b ∈ r.points ∨ b = point := fun b => by simp
    refine ⟨?_, ?_, ?_, ?_, ?_⟩
    · rw [hpoints]
      refine (List.perm_orderedInsert _ _ _).trans ?_
      exact (h.perm.cons point).trans (List.perm_append_singleton point r.points).symm
    · rw [hpoints]
      exact (List.perm_append_singleton point r.points).nodup_iff.mpr (List.nodup_cons.mpr ⟨hthere, h.nodup⟩)
    · rw [hpoints]
      intro b hb key hkey
      rcases (hmem b).mp hb with hold | rfl
      · rcases (hmem key).mp hkey with hold' | rfl
        · exact h.decided b hold key hold'
        · exact (hc.2 b hold).symm
      · rcases (hmem key).mp hkey with hold' | rfl
        · exact hc.2 key hold'
        · exact .inl (within_self _)
    · rw [hpoints]
      intro key hkey
      rcases List.mem_cons.mp hkey with rfl | hkey
      · exact (hmem _).mpr (.inr rfl)
      · exact (hmem _).mpr (.inl (h.keys key hkey))
    · intro w hw hlt
      rw [num_cons]
      rcases List.mem_append.mp hw with hw | hw
      · have hne : w.point ≠ point := fun heq => hthere (heq ▸ mem_points hw)
        rw [if_neg hne]
        exact h.nums w hw hlt
      · obtain rfl := List.mem_singleton.mp hw
        rw [if_pos rfl]
        exact (sub_zero n).symm

theorem inv_step {call : Call} (h : Inv r) (hc : Counted r call) (hstep : step r call = some r') : Inv r' := by
  cases call with
  | addSyncPoint point n => exact inv_addSyncPoint h hc hstep
  | notify box => exact inv_notify h hc hstep

end Invariant

/-- In every run whose calls are counted, every next call that is counted does what it is to do. -/
theorem counts_per_waiter (r : Run) (h : Transition.Reaches step Counted start r) (call : Call) (hc : Counted r call) :
    Exact r call := by
  have hinv : Inv r := h.invariant Inv inv_start fun _ _ _ hu ha hs => inv_step hu ha hs
  cases call with
  | addSyncPoint point n => exact addSyncPoint_exact hinv hc
  | notify box => exact notify_exact hinv hc

/-- A point that waits for two is signalled at the second, of a larger box. -/
theorem counts_per_waiter_two : ∃ r, Transition.Reaches step Counted start r ∧ r.waiters = [⟨boxAt 0 2, 2, 1⟩] ∧
    Exact r (.notify (boxAt 0 5)) := by
  obtain ⟨r, hr, htest⟩ := Transition.runWhere_reaches_of_any step Counted start
    [.addSyncPoint (boxAt 0 2) 2, .notify (boxAt 0 2)]
    (fun r => decide (r.waiters = [⟨boxAt 0 2, 2, 1⟩] ∧ Counted r (.notify (boxAt 0 5)))) (by decide)
  obtain ⟨hwaiters, hcounted⟩ := of_decide_eq_true htest
  exact ⟨r, hr, hwaiters, counts_per_waiter r hr _ hcounted⟩

/-- A point that waits for one is signalled at the first notification and at the second. -/
theorem signalled_again : ¬ ∀ r, Transition.Reaches step Sensible start r → ∀ call, Sensible r call → Exact r call := by
  intro h
  obtain ⟨r, hr, htest⟩ := Transition.runWhere_reaches_of_any step Sensible start
    [.addSyncPoint (boxAt 0 2) 1, .notify (boxAt 0 2)]
    (fun r => decide (r = ⟨⟨[boxAt 0 2], [(boxAt 0 2, 1)]⟩, [⟨boxAt 0 2, 1, 1⟩]⟩)) (by decide)
  obtain rfl := of_decide_eq_true htest
  obtain ⟨s, signalled, code, hnotify, hcount, -⟩ := h _ hr (.notify (boxAt 0 2)) trivial
  have hrun : notify ⟨[boxAt 0 2], [(boxAt 0 2, 1)]⟩ (boxAt 0 2) =
      some (⟨[boxAt 0 2], [(boxAt 0 2, 1)]⟩, [boxAt 0 2], 0) := by decide
  rw [hrun] at hnotify
  cases hnotify
  exact absurd (hcount (boxAt 0 2)) (by decide)

end SpatialSyncer
