import DataspacesWa.SDMStores
import DataspacesWa.Transition

/-!
# Reading what has been put

A `get` of data in the table of its node also registers an access: a slave
sends it to the master, and the master makes it in its own directory and
returns what the directory returns. The directory takes an access from the DS
of the producer for an error.
-/
namespace ReadYourWrites

open Function (update update_self update_of_ne)
open Patch (Datum isValidBox)
open MPBuffer (KeyVer regKeyVer)
open QTable (Table)
open SDMStores
open PrefetchSteps (Indexed addAccessAll prefetchAll)

/-! ## Directories that answer -/

/-- One operation of a directory has run to its return. -/
inductive Change {W : Type} [Directory W] (w : W) : W → Prop where
  | regDs (x : Int32) : Change w (Directory.regDs w x)
  | regApp {a x : Int32} {w' : W} (h : Directory.regApp w a x = some w') : Change w w'
  | put {p : Int32} {d : Datum} {w' : W} {done : Bool} (h : Directory.put w p d = some (w', done)) : Change w w'
  | addAccess {c : Int32} {d : Datum} {predicted : List Int32} {w' : W} {done : Bool}
      (h : Directory.addAccess w c d predicted = some (w', done)) : Change w w'

/-- A directory in which it is known when an access from the DS of the master succeeds. -/
class Answering (W : Type) extends Directory W where
  /-- As its constructor leaves it. -/
  Fresh : W → Prop
  /-- What holds once the DS is registered. -/
  Sound : Int32 → W → Prop
  /-- The datum is known, and put by an app of another DS. -/
  Elsewhere : W → Int32 → Datum → Prop
  fresh_sound : ∀ w x, Fresh w → Sound x (regDs w x)
  sound_change : ∀ w w' x, Sound x w → Change w w' → Sound x w'
  app_change : ∀ w w' a x, appDsId w a = some x → Change w w' → appDsId w' a = some x
  regApp_app : ∀ w a x w', regApp w a x = some w' → appDsId w' a = some x
  access_iff : ∀ w x c d predicted, Sound x w → appDsId w c = some x →
    ((∃ w', addAccess w c d predicted = some (w', true)) ↔ Elsewhere w x d)

section Entries
variable {κ : Type} [DecidableEq κ]

/-- A read with `operator[]` keeps the entries that are there. -/
theorem read_keeps {m : κ → Option Int32} {a : κ} {y : Int32} (ha : m a = some y) (k : κ) :
    update m k (some ((m k).getD 0)) a = some y := by
  by_cases hak : a = k
  · rw [← hak, update_self, ha, Option.getD_some]
  · rw [update_of_ne hak, ha]

theorem new_keeps {m : κ → Option Int32} {a k : κ} {y : Int32} (ha : m a = some y) (hk : m k = none) (z : Int32) :
    update m k (some z) a = some y := by
  have hne : a ≠ k := by
    rintro rfl
    rw [ha] at hk
    cases hk
  rw [update_of_ne hne, ha]

end Entries

/-! ## What the key-version directory keeps -/

section Markov
open MWASpace (State kvOf)

/-- Every buffer has the key-versions of the space, and each of these has its box and a registered producer. -/
structure Whole (w : State) : Prop where
  lucoor : ∀ kv ∈ w.kvV, (w.kvLucoor kv).isSome
  producer : ∀ kv ∈ w.kvV, ∃ p y, w.kvPId kv = some p ∧ w.appDsId p = some y
  buffers : ∀ y b, w.dsMpbuffer y = some b → ∃ reged, Indexed b reged ∧ ∀ kv, kv ∈ reged.map (·.2) ↔ kv ∈ w.kvV

def Sound (x : Int32) (w : State) : Prop := Whole w ∧ (w.dsMpbuffer x).isSome

/-- The recorded producer of the key-version is registered at another DS. -/
def Elsewhere (w : State) (x : Int32) (d : Datum) : Prop :=
  kvOf d ∈ w.kvV ∧ ∃ p y, w.kvPId (kvOf d) = some p ∧ w.appDsId p = some y ∧ y ≠ x

variable {w w' : State} {x : Int32} {d : Datum} {kv : KeyVer}

theorem regKeyVer_known {b : MPBuffer.State} {reged : List (Int32 × KeyVer)} (h : Indexed b reged) (p : Int32)
    (kv : KeyVer) : ∃ reged', Indexed (regKeyVer b p kv) reged' ∧
      ∀ a, a ∈ reged'.map (·.2) ↔ a ∈ reged.map (·.2) ∨ a = kv := by
  refine ⟨_, PrefetchSteps.regKeyVer_indexed h p kv, ?_⟩
  intro a
  by_cases hkv : kv ∈ reged.map (·.2)
  · rw [if_pos hkv]
    constructor
    · exact .inl
    · rintro (ha | rfl)
      · exact ha
      · exact hkv
  · rw [if_neg hkv, List.map_append, List.mem_append, List.map_singleton, List.mem_singleton]

theorem foldl_regKeyVer_known (kvV : List KeyVer) (pIdOf : KeyVer → Int32) {b : MPBuffer.State}
    {reged : List (Int32 × KeyVer)} (h : Indexed b reged) :
    ∃ reged', Indexed (kvV.foldl (fun b kv => regKeyVer b (pIdOf kv) kv) b) reged' ∧
      ∀ a, a ∈ reged'.map (·.2) ↔ a ∈ reged.map (·.2) ∨ a ∈ kvV := by
  induction kvV generalizing b reged with
  | nil => exact ⟨reged, h, by simp⟩
  | cons kv kvV ih =>
    obtain ⟨reged₁, hreg, hmem₁⟩ := regKeyVer_known h (pIdOf kv) kv
    obtain ⟨reged₂, hall, hmem₂⟩ := ih hreg
    refine ⟨reged₂, hall, fun a => ?_⟩
    rw [hmem₂, hmem₁, List.mem_cons, or_assoc]

theorem empty_whole (n : Int) (wPrefetch : Bool) : Whole (MWASpace.empty n wPrefetch) := by
  constructor <;> simp [MWASpace.empty]

theorem regDs_whole (h : Whole w) (y : Int32) : Whole (MWASpace.regDs w y) := by
  by_cases hy : y ∈ w.dsIdV
  · rwa [MWASpace.regDs, if_pos hy]
  simp only [MWASpace.regDs, if_neg hy]
  refine ⟨h.lucoor, h.producer, fun z b hb => ?_⟩
  by_cases hz : z = y
  · subst hz
    have hinit := PrefetchSteps.init_indexed z w.maxNumKeyVerInMpbuffer w.wPrefetch
    obtain ⟨reged, hreg, hmem⟩ := foldl_regKeyVer_known w.kvV (fun kv => (w.kvPId kv).getD 0) hinit
    simp only [update_self, Option.some.injEq] at hb
    subst hb
    exact ⟨reged, hreg, fun kv => by simpa using hmem kv⟩
  · exact h.buffers z b (by simpa [hz] using hb)

theorem regDs_own (y : Int32) (h : (w.dsMpbuffer x).isSome ∨ x = y ∧ y ∉ w.dsIdV) :
    ((MWASpace.regDs w y).dsMpbuffer x).isSome := by
  by_cases hy : y ∈ w.dsIdV
  · rw [MWASpace.regDs, if_pos hy]
    exact h.resolve_right fun hxy => hxy.2 hy
  · simp only [MWASpace.regDs, if_neg hy]
    by_cases hx : x = y
    · rw [hx, update_self]
      rfl
    · rw [update_of_ne hx]
      exact h.resolve_right fun hxy => hx hxy.1

theorem regApp_whole {a y : Int32} (h : Whole w) (hreg : MWASpace.regApp w a y = some w') :
    Whole w' ∧ w'.dsMpbuffer = w.dsMpbuffer ∧ w'.appDsId = update w.appDsId a (some y) ∧ w.appDsId a = none := by
  simp only [MWASpace.regApp, Option.ite_none_left_eq_some, Option.some.injEq] at hreg
  obtain ⟨hnew, rfl⟩ := hreg
  have hnone : w.appDsId a = none := by simpa using hnew
  refine ⟨⟨h.lucoor, fun kv hkv => ?_, h.buffers⟩, rfl, rfl, hnone⟩
  obtain ⟨p, z, hp, hz⟩ := h.producer kv hkv
  exact ⟨p, z, hp, new_keeps hz hnone y⟩

/-- What is put as new is told to every buffer, and its producer is registered. -/
theorem put_whole {p : Int32} {done : Bool} (h : Whole w) (hput : MWASpace.put w p d = some (w', done)) :
    Whole w' ∧ w'.appDsId = w.appDsId ∧ ∀ y, (w'.dsMpbuffer y).isSome = (w.dsMpbuffer y).isSome := by
  cases hp : w.appDsId p with
  | none =>
    rw [markov_put_refused d hp] at hput
    obtain ⟨rfl, -⟩ := Prod.mk.inj (Option.some.inj hput)
    exact ⟨h, rfl, fun _ => rfl⟩
  | some x =>
    simp only [MWASpace.put, hp, Option.map_eq_some_iff, Prod.mk.injEq] at hput
    obtain ⟨w₁, hpush, rfl, -⟩ := hput
    have hpushed := SpaceRuns.pushKv_pushed hpush
    have hkvV : w₁.kvV = w.kvV ++ [kvOf d] := hpushed.kvV
    have hkvPId : w₁.kvPId = update w.kvPId (kvOf d) (some p) := hpushed.kvPId
    have hlucoor : w₁.kvLucoor = update w.kvLucoor (kvOf d) (some (d.lcoor, d.ucoor)) := hpushed.kvLucoor
    have hbuf : w₁.dsMpbuffer = fun y => (w.dsMpbuffer y).map fun b => regKeyVer b p (kvOf d) := hpushed.dsMpbuffer
    refine ⟨⟨?_, ?_, ?_⟩, hpushed.appDsId, fun y => by rw [hbuf, Option.isSome_map]⟩
    · intro kv hkv
      rw [hlucoor]
      by_cases hnew : kv = kvOf d
      · rw [hnew, update_self]
        rfl
      · rw [update_of_ne hnew]
        exact h.lucoor kv (by simpa [hkvV, hnew] using hkv)
    · intro kv hkv
      rw [hkvPId, hpushed.appDsId]
      by_cases hnew : kv = kvOf d
      · rw [hnew, update_self]
        exact ⟨p, x, rfl, hp⟩
      · rw [update_of_ne hnew]
        exact h.producer kv (by simpa [hkvV, hnew] using hkv)
    · intro y b hb
      rw [hbuf] at hb
      obtain ⟨b₁, hb₁, rfl⟩ := Option.map_eq_some_iff.mp hb
      obtain ⟨reged, hindexed, hmem⟩ := h.buffers y b₁ hb₁
      obtain ⟨reged', hindexed', hmem'⟩ := regKeyVer_known hindexed p (kvOf d)
      refine ⟨reged', hindexed', fun kv => ?_⟩
      rw [hmem', hmem, hkvV, List.mem_append, List.mem_singleton]

/-! ## Accesses -/

theorem prefetchAll_acts (kvV : List KeyVer) (b : MPBuffer.State) :
    ∀ act ∈ (prefetchAll b kvV).2, act.2 ∈ kvV := by
  induction kvV generalizing b with
  | nil => simp [prefetchAll]
  | cons kv kvV ih =>
    intro act hact
    unfold prefetchAll at hact
    split at hact
    · split at hact
      · rcases List.mem_cons.mp hact with rfl | htail
        · exact List.mem_cons_self
        · exact List.mem_cons_of_mem kv (ih _ act htail)
      · rw [List.mem_singleton] at hact
        rw [hact]
        exact List.mem_cons_self
    · cases hact

/-- An access asks for nothing that is not registered. -/
theorem addAccessAll_acts {b : MPBuffer.State} {reged : List (Int32 × KeyVer)} (h : Indexed b reged)
    (hkv : (b.kvPId kv).isSome) (predicted : List Int32) :
    ∀ act ∈ (addAccessAll b kv predicted).2.2, act.2 ∈ reged.map (·.2) := by
  have hpicks := PrefetchSteps.addAccessAll_spec h hkv predicted
  have hsome : ¬(b.kvPId kv).isNone := by simpa [Option.isSome_iff_ne_none] using hkv
  intro act hact
  have hact : act ∈ (PrefetchSteps.del b kv).2 ∨ act.2 ∈ (addAccessAll b kv predicted).2.1 := by
    simp only [addAccessAll, if_neg hsome, List.mem_append] at hact ⊢
    exact hact.imp_right (prefetchAll_acts _ _ act)
  rcases hact with hdel | hpick
  · have hact : act.2 = kv := by
      unfold PrefetchSteps.del at hdel
      split at hdel
      · rw [List.mem_singleton.mp hdel]
      · cases hdel
    rw [hact]
    exact h.reged_iff.mp hkv
  · obtain ⟨q, -, hdue⟩ := hpicks.mem _ hpick
    exact List.mem_map_of_mem (PrefetchSteps.mem_due hdue)

theorem addAccessAll_known {b : MPBuffer.State} {reged : List (Int32 × KeyVer)} (h : Indexed b reged)
    (kv : KeyVer) (predicted : List Int32) : Indexed (addAccessAll b kv predicted).1 reged := by
  by_cases hkv : (b.kvPId kv).isSome
  · exact (PrefetchSteps.addAccessAll_spec h hkv predicted).indexed
  · rwa [PrefetchSteps.addAccessAll_none hkv]

/-- The reads of an access write no entry that is there. -/
theorem touch_app {c a y : Int32} (kv : KeyVer) (ha : w.appDsId a = some y) :
    (MWASpace.touch w c kv).1.appDsId a = some y := by
  have hp : update w.appDsId ((w.kvPId kv).getD 0) (some ((w.appDsId ((w.kvPId kv).getD 0)).getD 0)) a = some y :=
    read_keeps ha _
  exact read_keeps hp c

theorem addAccess_whole {c : Int32} {predicted : List Int32} (h : Whole w)
    (hacc : SpaceRuns.addAccess true w c d predicted = some w') : Whole w' := by
  have hkept := SpaceRuns.addAccess_acced hacc
  have hmaps := (RejectedAccess.access_maps hacc).1
  refine ⟨?_, ?_, ?_⟩
  · rw [hkept.kvV, hkept.kvLucoor]
    exact h.lucoor
  · intro kv hkv
    obtain ⟨p, y, hp, hy⟩ := h.producer kv (hkept.kvV ▸ hkv)
    refine ⟨p, y, ?_, by rw [hmaps]; exact touch_app _ hy⟩
    rw [hkept.kvPId]
    exact read_keeps hp (kvOf d)
  · intro y b hb
    rw [hkept.kvV]
    unfold SpaceRuns.addAccess at hacc
    dsimp only at hacc
    split at hacc
    · obtain rfl := Option.some.inj hacc
      exact h.buffers y b hb
    · obtain ⟨b₁, hb₁, hrest⟩ := Option.bind_eq_some_iff.mp hacc
      simp only [Option.ite_none_right_eq_some, Option.some.injEq] at hrest
      obtain ⟨-, rfl⟩ := hrest
      obtain ⟨reged, hindexed, hmem⟩ := h.buffers _ b₁ hb₁
      by_cases hy : y = (MWASpace.touch w c (kvOf d)).2.2
      · subst hy
        have hb : update w.dsMpbuffer (MWASpace.touch w c (kvOf d)).2.2
            (some (addAccessAll b₁ (kvOf d) predicted).1) (MWASpace.touch w c (kvOf d)).2.2 = some b := hb
        rw [update_self] at hb
        obtain rfl := Option.some.inj hb
        exact ⟨reged, addAccessAll_known hindexed _ _, hmem⟩
      · have hb : update w.dsMpbuffer (MWASpace.touch w c (kvOf d)).2.2
            (some (addAccessAll b₁ (kvOf d) predicted).1) y = some b := hb
        rw [update_of_ne hy] at hb
        exact h.buffers y b hb

/-- The DSs that an access from an app of the DS compares. -/
theorem touch_own {c : Int32} (kv : KeyVer) (hc : w.appDsId c = some x) :
    (MWASpace.touch w c kv).2 = ((w.appDsId ((w.kvPId kv).getD 0)).getD 0, x) := by
  have hkept := touch_app (c := c) kv hc
  have hread : (MWASpace.touch w c kv).1.appDsId c = some (MWASpace.touch w c kv).2.2 := update_self _ _ _
  have hcDs : (MWASpace.touch w c kv).2.2 = x := Option.some.inj (hread.symm.trans hkept)
  exact Prod.ext rfl hcDs

/-- The access of an app of the DS succeeds exactly when the datum is known and put at another one. -/
theorem access_iff {c : Int32} (predicted : List Int32) (h : Sound x w) (hc : w.appDsId c = some x) :
    (∃ w', RejectedAccess.addAccess true w c d predicted = some (w', false)) ↔ Elsewhere w x d := by
  obtain ⟨hwhole, hown⟩ := h
  obtain ⟨b, hb⟩ := Option.isSome_iff_exists.mp hown
  obtain ⟨reged, hindexed, hmem⟩ := hwhole.buffers x b hb
  have htouch := touch_own (kvOf d) hc
  have hbuf : (MWASpace.touch w c (kvOf d)).1.dsMpbuffer = w.dsMpbuffer := rfl
  have hluc : (MWASpace.touch w c (kvOf d)).1.kvLucoor = w.kvLucoor := rfl
  have hknown : (b.kvPId (kvOf d)).isSome ↔ kvOf d ∈ w.kvV := by rw [hindexed.reged_iff, hmem]
  generalize hpDs : (w.appDsId ((w.kvPId (kvOf d)).getD 0)).getD 0 = pDs at htouch
  constructor
  · rintro ⟨w', hacc⟩
    obtain ⟨w₁, -, heq⟩ := Option.map_eq_some_iff.mp hacc
    have herr : RejectedAccess.accessErr w c d = false := (Prod.mk.inj heq).2
    simp only [RejectedAccess.accessErr, htouch, hbuf, hb, Option.any_some] at herr
    split at herr
    · cases herr
    · rename_i hne
      have hkv : kvOf d ∈ w.kvV := hknown.mp (by simpa [Option.isNone_eq_false_iff] using herr)
      obtain ⟨p, y, hp, hy⟩ := hwhole.producer _ hkv
      refine ⟨hkv, p, y, hp, hy, ?_⟩
      rw [hp, Option.getD_some, hy, Option.getD_some] at hpDs
      rwa [hpDs]
  · rintro ⟨hkv, p, y, hp, hy, hne⟩
    rw [hp, Option.getD_some, hy, Option.getD_some] at hpDs
    subst hpDs
    have hacts := addAccessAll_acts hindexed (hknown.mpr hkv) predicted
    have hhandled : SpaceRuns.handled true (MWASpace.touch w c (kvOf d)).1
        (addAccessAll b (kvOf d) predicted).2.2 = true := by
      simp only [SpaceRuns.handled, Bool.not_true, Bool.false_or, List.all_eq_true, hluc]
      exact fun act hact => hwhole.lucoor _ ((hmem _).mp (hacts act hact))
    have hrun : ∃ w', SpaceRuns.addAccess true w c d predicted = some w' := by
      simp only [SpaceRuns.addAccess, htouch, if_neg hne, hbuf, hb, Option.bind_some, hhandled, if_true]
      exact ⟨_, rfl⟩
    obtain ⟨w', hrun⟩ := hrun
    have hnone : (b.kvPId (kvOf d)).isNone = false := by
      simpa [Option.isNone_eq_false_iff] using hknown.mpr hkv
    have herr : RejectedAccess.accessErr w c d = false := by
      simp only [RejectedAccess.accessErr, htouch, if_neg hne, hbuf, hb, Option.any_some, hnone]
    exact ⟨w', by rw [RejectedAccess.addAccess, hrun, Option.map_some, herr]⟩

theorem access_own {c : Int32} {predicted : List Int32} (hacc : SpaceRuns.addAccess true w c d predicted = some w') :
    (w'.dsMpbuffer x).isSome = (w.dsMpbuffer x).isSome :=
  (SpaceRuns.addAccess_acced hacc).dsMpbuffer x

/-- What `add_access` of the class has run is the access of the directory. -/
theorem markov_access {c : Int32} {predicted : List Int32} {done : Bool}
    (h : Directory.addAccess w c d predicted = some (w', done)) :
    SpaceRuns.addAccess true w c d predicted = some w' := by
  obtain ⟨r, hr, heq⟩ := Option.map_eq_some_iff.mp h
  obtain ⟨w₁, hw₁, rfl⟩ := Option.map_eq_some_iff.mp hr
  exact hw₁.trans (congrArg some (Prod.mk.inj heq).1)

theorem markov_sound_change (h : Sound x w) (hchange : Change w w') : Sound x w' := by
  cases hchange with
  | regDs y => exact ⟨regDs_whole h.1 y, regDs_own y (.inl h.2)⟩
  | regApp hreg =>
    obtain ⟨hwhole, hbuf, -⟩ := regApp_whole h.1 hreg
    exact ⟨hwhole, by rw [hbuf]; exact h.2⟩
  | put hput =>
    obtain ⟨hwhole, -, hbuf⟩ := put_whole h.1 hput
    exact ⟨hwhole, by rw [hbuf]; exact h.2⟩
  | addAccess hacc =>
    have hrun := markov_access hacc
    exact ⟨addAccess_whole h.1 hrun, by rw [access_own hrun]; exact h.2⟩

theorem markov_app_change {a y : Int32} (ha : w.appDsId a = some y) (hchange : Change w w') :
    w'.appDsId a = some y := by
  cases hchange with
  | regDs z =>
    show (MWASpace.regDs w z).appDsId a = some y
    unfold MWASpace.regDs
    split <;> exact ha
  | @regApp _ z _ hreg =>
    simp only [Directory.regApp, MWASpace.regApp, Option.ite_none_left_eq_some, Option.some.injEq] at hreg
    obtain ⟨hnew, rfl⟩ := hreg
    exact new_keeps ha (by simpa using hnew) z
  | put hput =>
    rcases MWASpace.put_cases hput with ⟨-, -, rfl⟩ | ⟨_, -, -, -, -, happ, -⟩
    · exact ha
    · rw [happ]
      exact ha
  | addAccess hacc =>
    rw [(RejectedAccess.access_maps (markov_access hacc)).1]
    exact touch_app _ ha

instance markovAnswering : Answering State where
  Fresh w := ∃ n wPrefetch, w = MWASpace.empty n wPrefetch
  Sound := Sound
  Elsewhere := Elsewhere
  fresh_sound w x h := by
    obtain ⟨n, wPrefetch, rfl⟩ := h
    exact ⟨regDs_whole (empty_whole n wPrefetch) x, regDs_own x (.inr ⟨rfl, (by simp [MWASpace.empty])⟩)⟩
  sound_change _ _ _ := markov_sound_change
  app_change _ _ _ _ := markov_app_change
  regApp_app w a x w' h := by
    simp only [Directory.regApp, MWASpace.regApp, Option.ite_none_left_eq_some, Option.some.injEq] at h
    obtain ⟨-, rfl⟩ := h
    exact update_self _ _ _
  access_iff w x c d predicted h hc := by
    rw [← access_iff predicted h hc]
    simp [Directory.addAccess]

end Markov

/-! ## The directory by box -/

theorem spatial_app_change {g : QTable.Geometry} {w w' : SWASpace.State g} {a y : Int32}
    (ha : w.appDsId a = some y) (hchange : Change w w') : w'.appDsId a = some y := by
  cases hchange with
  | regDs z =>
    show (SWASpace.regDs w z).appDsId a = some y
    unfold SWASpace.regDs
    split <;> exact ha
  | @regApp _ z _ hreg =>
    simp only [Directory.regApp, SWASpace.regApp, Option.ite_none_left_eq_some, Option.some.injEq] at hreg
    obtain ⟨hnew, rfl⟩ := hreg
    exact new_keeps ha (by simpa using hnew) z
  | @put p d _ done hput =>
    have hread : update w.appDsId p (some ((w.appDsId p).getD 0)) a = some y := read_keeps ha p
    simp only [Directory.put, SWASpace.put] at hput
    split at hput
    · obtain ⟨rfl, -⟩ := Prod.mk.inj (Option.some.inj hput)
      exact ha
    · split at hput <;>
      · obtain ⟨rfl, -⟩ := Prod.mk.inj (Option.some.inj hput)
        exact hread
  | addAccess hacc => cases hacc

/-- No access returns a value there. -/
instance spatialAnswering (g : QTable.Geometry) : Answering (SWASpace.State g) where
  Fresh w := w = SWASpace.empty g
  Sound _ _ := True
  Elsewhere _ _ _ := False
  fresh_sound _ _ _ := trivial
  sound_change _ _ _ _ _ := trivial
  app_change _ _ _ _ := spatial_app_change
  regApp_app w a x w' h := by
    simp only [Directory.regApp, SWASpace.regApp, Option.ite_none_left_eq_some, Option.some.injEq] at h
    obtain ⟨-, rfl⟩ := h
    exact update_self _ _ _
  access_iff _ _ _ _ _ _ _ := by simp [Directory.addAccess]

/-! ## Runs of a slave -/

inductive SlaveOp where
  | regApp (sent : Bool) (appId : Int32)
  | put (sent notify : Bool) (d : Datum) (pId : Int32)
  | get (sent blocking : Bool) (cId : Int32) (d : Datum)

section Slave
variable {T : Type} [Table T]

def slaveStep (s : Slave T) : SlaveOp → Option (Slave T)
  | .regApp sent appId => some (Slave.regApp sent appId s).1
  | .put sent notify d pId => some (Slave.put sent notify d pId s).1
  | .get _ _ _ _ => some s

variable {s s' t : Slave T} {sent sent' notify blocking : Bool} {d d' : Datum} {pId cId : Int32}

theorem slave_put_qtable : (Slave.put sent notify d pId s).1.qtable = (Table.add s.qtable d pId).getD s.qtable := by
  unfold Slave.put
  cases notify <;> cases sent <;> rfl

omit [Table T] in
theorem slave_regApp_qtable : (Slave.regApp sent pId s).1.qtable = s.qtable := by
  unfold Slave.regApp
  split
  · rfl
  · cases sent <;> rfl

/-- No operation takes data out of the table. -/
theorem slaveStep_keeps {op : SlaveOp} (hs : slaveStep s op = some s') (h : (Table.query s.qtable d').isSome) :
    (Table.query s'.qtable d').isSome := by
  cases op with
  | regApp sent appId =>
    obtain rfl := Option.some.inj hs
    rw [slave_regApp_qtable]
    exact h
  | put sent notify d pId =>
    obtain rfl := Option.some.inj hs
    rw [slave_put_qtable]
    exact Table.put_keeps _ h
  | get sent blocking cId d =>
    obtain rfl := Option.some.inj hs
    exact h

theorem slave_get_iff : (Slave.get sent' blocking cId d s).2 = .ok ↔
    (Table.query s.qtable d).isSome ∧ sent' = true := by
  unfold Slave.get Slave.addAccess
  cases Table.query s.qtable d <;> cases sent' <;> simp

/-- Once put, data that the table can see is read when the access is sent. -/
theorem slave_reads_iff {out : List SDMControl.Msg} (hput : Slave.put sent notify d pId s = (s', out, true))
    (hrun : Transition.Reaches slaveStep Transition.free s' t) :
    (Slave.get sent' blocking cId d t).2 = .ok ↔ Table.Sees T d ∧ sent' = true := by
  rw [slave_get_iff]
  refine and_congr_left fun _ => ⟨Table.sees_of_query, fun hsees => ?_⟩
  have hseen : (Table.query s'.qtable d).isSome := by
    have hqtable : (Slave.put sent notify d pId s).1.qtable = (Table.add s.qtable d pId).getD s.qtable :=
      slave_put_qtable
    rw [hput] at hqtable
    rw [hqtable]
    exact Table.query_of_put pId hsees
  exact hrun.invariant (fun u => (Table.query u.qtable d).isSome = true) hseen
    fun _ _ _ hu _ hs => slaveStep_keeps hs hu

end Slave

/-! ## Runs of the master -/

inductive MasterOp where
  | regApp (appId : Int32)
  | put (d : Datum) (pId : Int32)
  | get (blocking : Bool) (cId : Int32) (d : Datum) (predicted : List Int32)
  -- what the messages of the slaves come to in the directory
  | connUp (id : Int32)
  | regAppFor (appId id : Int32)
  | putNotification (pId : Int32) (d : Datum)
  | access (cId : Int32) (d : Datum) (predicted : List Int32)

section Master
variable {T W : Type} [Table T] [Answering W]

def masterStep (m : Master T W) : MasterOp → Option (Master T W)
  | .regApp appId => some (m.regApp appId).1
  | .put d pId => (m.put d pId).map (·.1)
  | .get blocking cId d predicted => (m.get blocking cId d predicted).map (·.1)
  | .connUp id => some { m with space := Directory.regDs m.space id }
  | .regAppFor appId id => some { m with space := (Directory.regApp m.space appId id).getD m.space }
  | .putNotification pId d => (Directory.put m.space pId d).map fun r => { m with space := r.1 }
  | .access cId d predicted => (Directory.addAccess m.space cId d predicted).map fun r => { m with space := r.1 }

/-- The apps of the master are registered at its DS in a sound directory. -/
structure Inv (m : Master T W) : Prop where
  sound : Answering.Sound m.id m.space
  apps : ∀ a ∈ m.appIdV, Directory.appDsId m.space a = some m.id

variable {m m' t : Master T W} {d d' : Datum} {pId cId : Int32}

theorem start_inv (id : Int32) {w : W} (h : Answering.Fresh w) : Inv (Master.start (T := T) id w) :=
  ⟨Answering.fresh_sound w id h, by simp [Master.start]⟩

omit [Table T] in
theorem Inv.change (h : Inv m) {w : W} (hchange : Change m.space w) (q : T) :
    Inv { m with space := w, qtable := q } :=
  ⟨Answering.sound_change _ _ _ h.sound hchange, fun a ha => Answering.app_change _ _ _ _ (h.apps a ha) hchange⟩

theorem masterStep_inv {op : MasterOp} (h : Inv m) (hs : masterStep m op = some m') : Inv m' := by
  cases op with
  | regApp appId =>
    obtain rfl := Option.some.inj hs
    unfold Master.regApp
    split
    · exact h
    · split
      · exact h
      · rename_i w hw
        have hnew := h.change (.regApp hw) m.qtable
        refine ⟨hnew.sound, fun a ha => ?_⟩
        rcases List.mem_append.mp ha with hold | hsame
        · exact hnew.apps a hold
        · rw [List.mem_singleton.mp hsame]
          exact Answering.regApp_app _ _ _ _ hw
  | put d pId =>
    obtain ⟨r, hput, rfl⟩ := Option.map_eq_some_iff.mp hs
    unfold Master.put at hput
    split at hput
    · obtain rfl := Option.some.inj hput
      exact h
    · obtain ⟨⟨w, done⟩, hspace, rfl⟩ := Option.map_eq_some_iff.mp hput
      exact h.change (.put hspace) _
  | get blocking cId d predicted =>
    obtain ⟨r, hget, rfl⟩ := Option.map_eq_some_iff.mp hs
    unfold Master.get at hget
    split at hget
    · obtain rfl := Option.some.inj hget
      exact h
    · split at hget
      · obtain rfl := Option.some.inj hget
        exact h
      · obtain ⟨⟨w, done⟩, hspace, rfl⟩ := Option.map_eq_some_iff.mp hget
        exact h.change (.addAccess hspace) m.qtable
  | connUp id =>
    obtain rfl := Option.some.inj hs
    exact h.change (.regDs id) m.qtable
  | regAppFor appId id =>
    obtain rfl := Option.some.inj hs
    cases hreg : Directory.regApp m.space appId id with
    | none => exact h
    | some w => exact h.change (.regApp hreg) m.qtable
  | putNotification pId d =>
    obtain ⟨⟨w, done⟩, hspace, rfl⟩ := Option.map_eq_some_iff.mp hs
    exact h.change (.put hspace) m.qtable
  | access cId d predicted =>
    obtain ⟨⟨w, done⟩, hspace, rfl⟩ := Option.map_eq_some_iff.mp hs
    exact h.change (.addAccess hspace) m.qtable

theorem master_put_qtable {r : Master T W × Bool} (h : Master.put d pId m = some r) :
    r.1.qtable = (Table.add m.qtable d pId).getD m.qtable := by
  unfold Master.put at h
  split at h
  · rename_i hadd
    obtain rfl := Option.some.inj h
    rw [hadd]
    rfl
  · rename_i q hadd
    obtain ⟨_, -, rfl⟩ := Option.map_eq_some_iff.mp h
    rw [hadd]
    rfl

theorem masterStep_keeps {op : MasterOp} (hs : masterStep m op = some m') (h : (Table.query m.qtable d').isSome) :
    (Table.query m'.qtable d').isSome := by
  cases op with
  | regApp appId =>
    obtain rfl := Option.some.inj hs
    unfold Master.regApp
    split
    · exact h
    · split <;> exact h
  | put d pId =>
    obtain ⟨r, hput, rfl⟩ := Option.map_eq_some_iff.mp hs
    rw [master_put_qtable hput]
    exact Table.put_keeps _ h
  | get blocking cId d predicted =>
    obtain ⟨r, hget, rfl⟩ := Option.map_eq_some_iff.mp hs
    unfold Master.get at hget
    split at hget
    · obtain rfl := Option.some.inj hget
      exact h
    · split at hget
      · obtain rfl := Option.some.inj hget
        exact h
      · obtain ⟨_, -, rfl⟩ := Option.map_eq_some_iff.mp hget
        exact h
  | connUp id =>
    obtain rfl := Option.some.inj hs
    exact h
  | regAppFor appId id =>
    obtain rfl := Option.some.inj hs
    exact h
  | putNotification pId d =>
    obtain ⟨_, -, rfl⟩ := Option.map_eq_some_iff.mp hs
    exact h
  | access cId d predicted =>
    obtain ⟨_, -, rfl⟩ := Option.map_eq_some_iff.mp hs
    exact h

/-- A registered app of the master reads what the table has when the datum was put at another DS. -/
theorem master_get_iff (h : Inv m) (hc : cId ∈ m.appIdV) (blocking : Bool) (predicted : List Int32) :
    (∃ m', Master.get blocking cId d predicted m = some (m', .ok)) ↔
      (Table.query m.qtable d).isSome ∧ Answering.Elsewhere m.space m.id d := by
  rw [← Answering.access_iff _ _ _ _ predicted h.sound (h.apps cId hc)]
  unfold Master.get
  rw [if_neg (not_not_intro hc)]
  cases Table.query m.qtable d with
  | none => cases blocking <;> simp
  | some l =>
    simp only [Option.isSome_some, true_and, Option.map_eq_some_iff, Prod.mk.injEq]
    constructor
    · rintro ⟨m', ⟨w, done⟩, hacc, -, hdone⟩
      cases done with
      | true => exact ⟨w, hacc⟩
      | false => cases hdone
    · rintro ⟨w, hacc⟩
      exact ⟨_, (w, true), hacc, rfl, rfl⟩

theorem master_reads_iff {id : Int32} {w : W} (hw : Answering.Fresh w)
    (hm : Transition.Reaches masterStep Transition.free (Master.start (T := T) id w) m)
    (hput : Master.put d pId m = some (m', true)) (hrun : Transition.Reaches masterStep Transition.free m' t)
    (hc : cId ∈ t.appIdV) (blocking : Bool) (predicted : List Int32) :
    (∃ t', Master.get blocking cId d predicted t = some (t', .ok)) ↔
      Table.Sees T d ∧ Answering.Elsewhere t.space t.id d := by
  have hstep : masterStep m (.put d pId) = some m' := by rw [masterStep, hput]; rfl
  have hinv : Inv m := hm.invariant Inv (start_inv id hw) fun _ _ _ hu _ hs => masterStep_inv hu hs
  have hlater : Inv t := hrun.invariant Inv (masterStep_inv hinv hstep) fun _ _ _ hu _ hs => masterStep_inv hu hs
  rw [master_get_iff hlater hc]
  refine and_congr_left fun _ => ⟨Table.sees_of_query, fun hsees => ?_⟩
  have hseen : (Table.query m'.qtable d).isSome := by
    rw [master_put_qtable hput]
    exact Table.query_of_put pId hsees
  exact hrun.invariant (fun u => (Table.query u.qtable d).isSome = true) hseen
    fun _ _ _ hu _ hs => masterStep_keeps hs hu

end Master

/-! ## Reading own puts -/

end ReadYourWrites
