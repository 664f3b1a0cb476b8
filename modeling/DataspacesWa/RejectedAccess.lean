import DataspacesWa.SpaceRuns

/-!
# Accesses that are rejected

`MWASpace::add_access` looks up the producer of a key-version and the DSs of
the producer and of the client with `operator[]`, and each of the three reads
writes a zero where the map has no entry. What a rejected access leaves behind
is seen by every later operation of the directory.
-/
namespace RejectedAccess

open Function (update update_self update_of_ne update_eq_self)
open Patch (Datum)
open MWASpace
open SpaceRuns (putTo)
open PrefetchSteps (addAccessAll)

/-! ## Results -/

/-- What `add_access` returns: an error in the same locality, and otherwise what the buffer of the client's
DS returns, an error on a key-version that is not registered there. -/
def accessErr (w : State) (cId : Int32) (d : Datum) : Bool :=
  let (w, pDs, cDs) := touch w cId (kvOf d)
  if pDs = cDs then true else (w.dsMpbuffer cDs).any fun b => (b.kvPId (kvOf d)).isNone

/-- `MWASpace::add_access`, with whether it returns an error. -/
def addAccess (withCb : Bool) (w : State) (cId : Int32) (d : Datum) (predicted : List Int32) : Option (State × Bool) :=
  (SpaceRuns.addAccess withCb w cId d predicted).map fun w' => (w', accessErr w cId d)

inductive Op where
  | regApp : Int32 → Int32 → Op
  | put : Int32 → Datum → Int32 → Op
  | query : Datum → Op
  | addAccess : Int32 → Datum → List Int32 → Op

inductive Result where
  | code : Bool → Result
  | dsIdV : Option (List Int32) → Result
  deriving DecidableEq, Repr

/-- There is no next state where a null pointer is followed. -/
def step (withCb : Bool) (w : State) : Op → Option (State × Result)
  | .regApp appId dsId => some ((regApp w appId dsId).getD w, .code (regApp w appId dsId).isSome)
  | .put pId d dsId => (putTo w pId d dsId).map fun r => (r.1, .code r.2)
  | .query d => some (w, .dsIdV (query w d))
  | .addAccess cId d predicted => (addAccess withCb w cId d predicted).map fun r => (r.1, .code !r.2)

/-- The results of operations one after the other, as far as they go. -/
def results (withCb : Bool) (w : State) : List Op → List Result
  | [] => []
  | op :: ops => (step withCb w op).elim [] fun r => r.2 :: results withCb r.1 ops

/-- The access returns an error, the maps and the buffers are as before it, and no later operation tells
that it was made. -/
def Intact (withCb : Bool) (w : State) (cId : Int32) (d : Datum) (predicted : List Int32) : Prop :=
  ∃ w', addAccess withCb w cId d predicted = some (w', true) ∧ w'.appDsId = w.appDsId ∧ w'.kvPId = w.kvPId ∧
    w'.dsMpbuffer = w.dsMpbuffer ∧ ∀ ops, results withCb w' ops = results withCb w ops

/-- The three reads find entries, of one DS or of a client's DS that does not know the key-version. -/
def EntriesFound (w : State) (cId : Int32) (d : Datum) : Prop :=
  ∃ p x y, w.kvPId (kvOf d) = some p ∧ w.appDsId p = some x ∧ w.appDsId cId = some y ∧
    (x = y ∨ ∃ b, w.dsMpbuffer y = some b ∧ b.kvPId (kvOf d) = none)

/-! ## What the reads write -/

section Access
variable {withCb : Bool} {w w' : State} {cId : Int32} {d : Datum} {predicted : List Int32}

/-- Reads that find entries write nothing. -/
theorem touch_found {p x y : Int32} (hkv : w.kvPId (kvOf d) = some p) (hp : w.appDsId p = some x)
    (hc : w.appDsId cId = some y) : touch w cId (kvOf d) = (w, x, y) := by
  have happ : update w.appDsId p (some x) = w.appDsId := by rw [← hp, update_eq_self]
  have hcl : update w.appDsId cId (some y) = w.appDsId := by rw [← hc, update_eq_self]
  have hpId : update w.kvPId (kvOf d) (some p) = w.kvPId := by rw [← hkv, update_eq_self]
  unfold touch
  simp only [hkv, Option.getD_some, hp, happ, hc, hcl, hpId]

/-- The maps after an access are those that the reads leave. -/
theorem access_maps (h : SpaceRuns.addAccess withCb w cId d predicted = some w') :
    w'.appDsId = (touch w cId (kvOf d)).1.appDsId ∧ w'.kvPId = (touch w cId (kvOf d)).1.kvPId := by
  unfold SpaceRuns.addAccess at h
  dsimp only at h
  split at h
  · obtain rfl := Option.some.inj h
    exact ⟨rfl, rfl⟩
  · obtain ⟨b, -, hrest⟩ := Option.bind_eq_some_iff.mp h
    simp only [Option.ite_none_right_eq_some, Option.some.injEq] at hrest
    obtain ⟨-, rfl⟩ := hrest
    exact ⟨rfl, rfl⟩

/-- Maps that an access leaves as they were had the entries it reads. -/
theorem entries_of_unchanged (h : SpaceRuns.addAccess withCb w cId d predicted = some w')
    (happ : w'.appDsId = w.appDsId) (hpId : w'.kvPId = w.kvPId) :
    ∃ p x y, w.kvPId (kvOf d) = some p ∧ w.appDsId p = some x ∧ w.appDsId cId = some y := by
  obtain ⟨hmaps, hkvs⟩ := access_maps h
  rw [happ] at hmaps
  rw [hpId] at hkvs
  have hkv : w.kvPId (kvOf d) = some ((w.kvPId (kvOf d)).getD 0) :=
    (congrFun hkvs (kvOf d)).trans (update_self (kvOf d) _ w.kvPId)
  have hc : ∃ y, w.appDsId cId = some y :=
    ⟨_, (congrFun hmaps cId).trans (update_self cId _ _)⟩
  have hp : ∃ x, w.appDsId ((w.kvPId (kvOf d)).getD 0) = some x := by
    by_cases hpc : (w.kvPId (kvOf d)).getD 0 = cId
    · rw [hpc]
      exact hc
    · exact ⟨_, ((congrFun hmaps _).trans (update_of_ne hpc _ _)).trans (update_self ((w.kvPId (kvOf d)).getD 0) _ _)⟩
  obtain ⟨x, hx⟩ := hp
  obtain ⟨y, hy⟩ := hc
  exact ⟨_, x, y, hkv, hx, hy⟩

/-- Where the reads find entries and the access is rejected, nothing at all changes. -/
theorem access_found (h : EntriesFound w cId d) : addAccess withCb w cId d predicted = some (w, true) := by
  obtain ⟨p, x, y, hkv, hp, hc, hwhy⟩ := h
  have htouch := touch_found hkv hp hc
  unfold addAccess accessErr SpaceRuns.addAccess
  simp only [htouch]
  by_cases hxy : x = y
  · simp only [hxy, if_true, Option.map_some]
  · obtain ⟨b, hb, hnone⟩ := hwhy.resolve_left hxy
    have hall : addAccessAll b (kvOf d) predicted = (b, [], []) :=
      PrefetchSteps.addAccessAll_none (by simp [hnone]) predicted
    have hbuf : update w.dsMpbuffer y (some b) = w.dsMpbuffer := by rw [← hb, update_eq_self]
    simp only [hxy, if_false, hb, Option.bind_some, hall, SpaceRuns.handled, List.all_nil, Bool.or_true, if_true,
      hbuf, Option.map_some, Option.any_some, hnone, Option.isNone_none]

/-- A rejected access leaves the directory intact exactly when its three reads find entries, and the client
is at the DS of the producer or at a DS that does not know the key-version. -/
theorem intact_iff (withCb : Bool) (w : State) (cId : Int32) (d : Datum) (predicted : List Int32) :
    Intact withCb w cId d predicted ↔ EntriesFound w cId d := by
  constructor
  · rintro ⟨w', hacc, happ, hpId, -, -⟩
    obtain ⟨w₁, hrun, heq⟩ := Option.map_eq_some_iff.mp hacc
    obtain ⟨rfl, herr⟩ := Prod.mk.inj heq
    obtain ⟨p, x, y, hkv, hp, hc⟩ := entries_of_unchanged hrun happ hpId
    refine ⟨p, x, y, hkv, hp, hc, ?_⟩
    unfold accessErr at herr
    simp only [touch_found hkv hp hc] at herr
    by_cases hxy : x = y
    · exact .inl hxy
    · rw [if_neg hxy] at herr
      obtain ⟨b, hb, hnone⟩ := (Option.any_eq_true _ _).mp herr
      exact .inr ⟨b, hb, Option.isNone_iff_eq_none.mp hnone⟩
  · intro h
    exact ⟨w, access_found h, rfl, rfl, rfl, fun _ => rfl⟩

end Access

/-- In a directory with DS 1 alone, an access of unknown data by an unknown client is rejected, and from then
on the client cannot be registered. -/
theorem rejected_access_shows :
    ∃ r, Transition.Reaches (SpaceRuns.step true) Transition.free (SpaceRuns.start 1 true) r ∧
      r.puts = [] ∧ r.space.appDsId 9 = none ∧
      (addAccess true r.space 9 (SpaceRuns.cell "u") []).map (·.2) = some true ∧
      results true r.space [.regApp 9 1] = [.code true] ∧
      (addAccess true r.space 9 (SpaceRuns.cell "u") []).map (fun a => results true a.1 [.regApp 9 1]) =
        some [.code false] ∧
      ¬Intact true r.space 9 (SpaceRuns.cell "u") [] := by
  obtain ⟨r, hr, htest⟩ := Transition.run_reaches_of_any (SpaceRuns.step true) (SpaceRuns.start 1 true) [.regDs 1]
    (fun r => decide (r.puts = [] ∧ r.space.appDsId 9 = none ∧
      (addAccess true r.space 9 (SpaceRuns.cell "u") []).map (·.2) = some true ∧
      results true r.space [.regApp 9 1] = [.code true] ∧
      (addAccess true r.space 9 (SpaceRuns.cell "u") []).map (fun a => results true a.1 [.regApp 9 1]) =
        some [.code false])) (by decide)
  obtain ⟨hputs, happ, herr, hbefore, hafter⟩ := of_decide_eq_true htest
  refine ⟨r, hr, hputs, happ, herr, hbefore, hafter, ?_⟩
  rintro ⟨w', hacc, happ', -, -, hresults⟩
  rw [hacc, Option.map_some, hresults, hbefore] at hafter
  exact absurd hafter (by decide)

end RejectedAccess
