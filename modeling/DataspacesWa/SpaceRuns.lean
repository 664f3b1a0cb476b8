import DataspacesWa.MWASpace
import DataspacesWa.PrefetchSteps

/-!
# Runs of the key-version directory

An `MWASpace` alone: its operations one after another, with handlers that
return at once. `put` takes the id of a DS, or −1 for the DS of the app; `del`
erases from the lists and maps without a look at whether they hold the
key-version, and erasing what is not there is undefined. The run keeps which
DSs have been registered and what has been put and not deleted since.
-/
namespace SpaceRuns

open Function (update update_self update_of_ne)
open Patch (Datum)
open MPBuffer (KeyVer)
open MWASpace
open PrefetchSteps (Action addAccessAll)

/-! ## The operations -/

/-- `handle_mpbuffer_data_act` for all the actions of a call: with a handler installed the box of each
key-version is read, and the one of a key-version that has none is a null pointer. -/
def handled (withCb : Bool) (w : State) (acts : List Action) : Bool :=
  !withCb || acts.all fun act => (w.kvLucoor act.2).isSome

/-- `MWASpace::put` with its last argument; there is no next state where the DS is unknown. -/
def putTo (w : State) (pId : Int32) (d : Datum) (dsId : Int32) : Option (State × Bool) :=
  if dsId = -1 then put w pId d
  else if contains w dsId (kvOf d) then some (w, false)
  else (pushKv w dsId (kvOf d)).map fun w => (w, true)

/-- `MWASpace::add_access` to its return. -/
def addAccess (withCb : Bool) (w : State) (cId : Int32) (d : Datum) (predicted : List Int32) : Option State :=
  let (w, pDs, cDs) := touch w cId (kvOf d)
  if pDs = cDs then some w
  else (w.dsMpbuffer cDs).bind fun b =>
    let (b, _, acts) := addAccessAll b (kvOf d) predicted
    if handled withCb w acts then some { w with dsMpbuffer := update w.dsMpbuffer cDs (some b) } else none

/-- `ds_id__kv_map[ds_id]->del(kv)`; erasing what is not there is undefined. -/
def eraseKv (w : State) (dsId : Int32) (kv : KeyVer) : Option State :=
  match h : w.dsKv dsId with
  | none => none
  | some kvV =>
    if kv ∈ kvV then some { w with
      dsKv := update w.dsKv dsId (some (kvV.erase kv))
      listed := by
        intro x
        by_cases hx : x = dsId
        · subst hx
          simp [← w.listed, h]
        · simp [hx, w.listed] }
    else none

/-- `MWASpace::del`, with whether it returns success. The box is read, and so there, before it is erased. -/
def del (withCb : Bool) (w : State) (d : Datum) (dsId : Int32) : Option (State × Bool) :=
  if kvOf d ∉ w.kvV then some (w, false)
  else (eraseKv w dsId (kvOf d)).bind fun w => (w.dsMpbuffer dsId).bind fun b =>
    let (b, acts) := PrefetchSteps.del b (kvOf d)
    if handled withCb w acts ∧ (w.kvPId (kvOf d)).isSome then
      some ({ w with
        dsMpbuffer := update w.dsMpbuffer dsId (some b)
        kvPId := update w.kvPId (kvOf d) none
        kvLucoor := update w.kvLucoor (kvOf d) none
        kvV := w.kvV.erase (kvOf d) }, true)
    else none

/-! ## Runs -/

inductive Op where
  | regDs : Int32 → Op
  | regApp : Int32 → Int32 → Op
  | put : Int32 → Datum → Int32 → Op
  | addAccess : Int32 → Datum → List Int32 → Op
  | del : Datum → Int32 → Op

structure Run where
  space : State
  reged : List Int32
  puts : List KeyVer

def start (maxNumKeyVerInMpbuffer : Int) (wPrefetch : Bool) : Run :=
  ⟨empty maxNumKeyVerInMpbuffer wPrefetch, [], []⟩

def step (withCb : Bool) (r : Run) : Op → Option Run
  | .regDs dsId => some { r with
      space := regDs r.space dsId
      reged := if dsId ∈ r.reged then r.reged else r.reged ++ [dsId] }
  | .regApp appId dsId => some { r with space := (regApp r.space appId dsId).getD r.space }
  | .put pId d dsId => (putTo r.space pId d dsId).map fun (w, done) => { r with
      space := w
      puts := if done then kvOf d :: r.puts else r.puts }
  | .addAccess cId d predicted =>
    (addAccess withCb r.space cId d predicted).map fun w => { r with space := w }
  | .del d dsId => (del withCb r.space d dsId).map fun (w, done) => { r with
      space := w
      puts := if done then r.puts.filter (· ≠ kvOf d) else r.puts }

/-! ## What an operation does -/

section Effects
variable {withCb : Bool} {w w' : State} {d : Datum} {x : Int32} {kv : KeyVer}

theorem ownKv_iff : ownKv w x kv = true ↔ ∃ kvV, w.dsKv x = some kvV ∧ kv ∈ kvV := by
  unfold ownKv
  cases w.dsKv x <;> simp

/-- One more in the list of a DS, and nothing else. -/
structure Pushed (w w' : State) (x : Int32) (kv : KeyVer) : Prop where
  dsKv : ∃ kvV, w.dsKv x = some kvV ∧ w'.dsKv = update w.dsKv x (some (kvV ++ [kv]))
  kvV : w'.kvV = w.kvV
  kvPId : w'.kvPId = w.kvPId
  kvLucoor : w'.kvLucoor = w.kvLucoor
  dsIdV : w'.dsIdV = w.dsIdV
  dsMpbuffer : w'.dsMpbuffer = w.dsMpbuffer
  appDsId : w'.appDsId = w.appDsId

theorem pushKv_pushed (h : pushKv w x kv = some w') : Pushed w w' x kv := by
  unfold pushKv at h
  split at h
  · cases h
  · rename_i kvV hx
    obtain rfl := Option.some.inj h
    exact ⟨⟨kvV, hx, rfl⟩, rfl, rfl, rfl, rfl, rfl, rfl⟩

theorem pushKv_isSome (h : x ∈ w.dsIdV) : (pushKv w x kv).isSome := by
  unfold pushKv
  split
  · rename_i hx
    rw [← w.listed, hx] at h
    cases h
  · rfl

/-- A put is refused, or new to the space, or one more copy. -/
theorem putTo_cases {p : Int32} {done : Bool} (h : putTo w p d x = some (w', done)) :
    (w' = w ∧ done = false ∧ (x = -1 ∧ w.appDsId p = none ∨ x ≠ -1 ∧ contains w x (kvOf d) = true)) ∨
      (done = true ∧ x = -1 ∧ ∃ y, w.appDsId p = some y ∧ Pushed (regKv w p d) w' y (kvOf d)) ∨
      (done = true ∧ x ≠ -1 ∧ contains w x (kvOf d) = false ∧ Pushed w w' x (kvOf d)) := by
  unfold putTo at h
  by_cases hx : x = -1
  · rw [if_pos hx, put] at h
    cases hp : w.appDsId p with
    | none =>
      simp only [hp, Option.some.injEq, Prod.mk.injEq] at h
      exact .inl ⟨h.1.symm, h.2.symm, .inl ⟨hx, rfl⟩⟩
    | some y =>
      simp only [hp, Option.map_eq_some_iff, Prod.mk.injEq] at h
      obtain ⟨_, hpush, rfl, rfl⟩ := h
      exact .inr (.inl ⟨rfl, hx, y, rfl, pushKv_pushed hpush⟩)
  · rw [if_neg hx] at h
    cases hc : contains w x (kvOf d) with
    | true =>
      simp only [hc, if_true, Option.some.injEq, Prod.mk.injEq] at h
      exact .inl ⟨h.1.symm, h.2.symm, .inr ⟨hx, rfl⟩⟩
    | false =>
      simp only [hc, Bool.false_eq_true, if_false, Option.map_eq_some_iff, Prod.mk.injEq] at h
      obtain ⟨_, hpush, rfl, rfl⟩ := h
      exact .inr (.inr ⟨rfl, hx, rfl, pushKv_pushed hpush⟩)

/-- What an access leaves as it is. The maps it reads get the zero it reads for what they do not hold. -/
structure Acced (w w' : State) (kv : KeyVer) : Prop where
  kvV : w'.kvV = w.kvV
  kvPId : w'.kvPId = update w.kvPId kv (some ((w.kvPId kv).getD 0))
  kvLucoor : w'.kvLucoor = w.kvLucoor
  dsIdV : w'.dsIdV = w.dsIdV
  dsKv : w'.dsKv = w.dsKv
  dsMpbuffer : ∀ x, (w'.dsMpbuffer x).isSome = (w.dsMpbuffer x).isSome

theorem addAccess_acced {c : Int32} {predicted : List Int32}
    (h : addAccess withCb w c d predicted = some w') : Acced w w' (kvOf d) := by
  unfold addAccess at h
  dsimp only at h
  split at h
  · obtain rfl := Option.some.inj h
    exact ⟨rfl, rfl, rfl, rfl, rfl, fun _ => rfl⟩
  · obtain ⟨b, hb, hrest⟩ := Option.bind_eq_some_iff.mp h
    simp only [Option.ite_none_right_eq_some, Option.some.injEq] at hrest
    obtain ⟨-, rfl⟩ := hrest
    refine ⟨rfl, rfl, rfl, rfl, rfl, fun x => ?_⟩
    have hsame : (w.dsMpbuffer (touch w c (kvOf d)).2.2).isSome = true := Option.isSome_iff_exists.mpr ⟨b, hb⟩
    by_cases hx : x = (touch w c (kvOf d)).2.2
    · subst hx
      simp [hsame]
    · show (update w.dsMpbuffer (touch w c (kvOf d)).2.2 _ x).isSome = _
      rw [update_of_ne hx]

/-- What a deletion takes away: one copy of the key-version in each of the containers. -/
structure Deled (w w' : State) (x : Int32) (kv : KeyVer) : Prop where
  dsKv : ∃ kvV, w.dsKv x = some kvV ∧ kv ∈ kvV ∧ w'.dsKv = update w.dsKv x (some (kvV.erase kv))
  kvV : w'.kvV = w.kvV.erase kv
  kvPId : w'.kvPId = update w.kvPId kv none
  kvLucoor : w'.kvLucoor = update w.kvLucoor kv none
  dsIdV : w'.dsIdV = w.dsIdV
  dsMpbuffer : ∀ y, (w'.dsMpbuffer y).isSome = (w.dsMpbuffer y).isSome

theorem del_cases {done : Bool} (h : del withCb w d x = some (w', done)) :
    (kvOf d ∉ w.kvV ∧ w' = w ∧ done = false) ∨ (kvOf d ∈ w.kvV ∧ done = true ∧ Deled w w' x (kvOf d)) := by
  unfold del at h
  by_cases hkv : kvOf d ∈ w.kvV
  · rw [if_neg (not_not_intro hkv)] at h
    obtain ⟨w₁, herase, hrest⟩ := Option.bind_eq_some_iff.mp h
    obtain ⟨b, hb, hrest⟩ := Option.bind_eq_some_iff.mp hrest
    simp only [Option.ite_none_right_eq_some, Option.some.injEq, Prod.mk.injEq] at hrest
    obtain ⟨-, rfl, rfl⟩ := hrest
    refine .inr ⟨hkv, rfl, ?_⟩
    unfold eraseKv at herase
    split at herase
    · cases herase
    · rename_i kvV hx
      simp only [Option.ite_none_right_eq_some, Option.some.injEq] at herase
      obtain ⟨hmem, rfl⟩ := herase
      refine ⟨⟨kvV, hx, hmem, rfl⟩, rfl, rfl, rfl, rfl, fun y => ?_⟩
      have hsome : (w.dsMpbuffer x).isSome = true := Option.isSome_iff_exists.mpr ⟨b, hb⟩
      by_cases hy : y = x
      · subst hy
        simp [hsome]
      · simp [hy]
  · rw [if_pos hkv, Option.some.injEq, Prod.mk.injEq] at h
    exact .inl ⟨hkv, h.1.symm, h.2.symm⟩

/-- Nothing is erased that is not there. -/
theorem del_isSome (hown : ownKv w x (kvOf d) = true) (hbuf : (w.dsMpbuffer x).isSome)
    (hpId : (w.kvPId (kvOf d)).isSome) (hlucoor : (w.kvLucoor (kvOf d)).isSome) : (del withCb w d x).isSome := by
  unfold del
  split
  · rfl
  · obtain ⟨kvV, hx, hmem⟩ := ownKv_iff.mp hown
    obtain ⟨b, hb⟩ := Option.isSome_iff_exists.mp hbuf
    have hacts : ∀ act ∈ (PrefetchSteps.del b (kvOf d)).2, act.2 = kvOf d := by
      unfold PrefetchSteps.del
      split <;> simp
    have herase : ∃ w₁, eraseKv w x (kvOf d) = some w₁ ∧ w₁.dsMpbuffer = w.dsMpbuffer ∧
        w₁.kvPId = w.kvPId ∧ w₁.kvLucoor = w.kvLucoor := by
      unfold eraseKv
      split
      · rename_i hnone
        rw [hx] at hnone
        cases hnone
      · rename_i kvV' hx'
        obtain rfl : kvV' = kvV := Option.some.inj (hx'.symm.trans hx)
        exact ⟨_, if_pos hmem, rfl, rfl, rfl⟩
    obtain ⟨w₁, hw₁, hbuf₁, hpId₁, hlucoor₁⟩ := herase
    have hhandled : handled withCb w₁ (PrefetchSteps.del b (kvOf d)).2 = true := by
      simp only [handled, Bool.or_eq_true, List.all_eq_true, hlucoor₁]
      exact .inr fun act hact => hacts act hact ▸ hlucoor
    simp only [hw₁, Option.bind_some, hbuf₁, hb, hpId₁, hpId, hhandled, and_self, if_true, Option.isSome_some]

end Effects

/-! ## The containers in step -/

/-- The lists and maps hold the same key-versions, each once. -/
structure InStep (w : State) : Prop where
  pId : ∀ kv, kv ∈ w.kvV ↔ (w.kvPId kv).isSome
  lucoor : ∀ kv, kv ∈ w.kvV ↔ (w.kvLucoor kv).isSome
  nodup : w.kvV.Nodup
  known : ∀ x kvV, w.dsKv x = some kvV → kvV.Nodup ∧ ∀ kv ∈ kvV, kv ∈ w.kvV
  held : ∀ kv ∈ w.kvV, ∃ x, ownKv w x kv = true
  buffers : ∀ x, (w.dsMpbuffer x).isSome ↔ x ∈ w.dsIdV

/-- The DS is the one whose list holds the key-version. -/
def SoleHolder (w : State) (x : Int32) (kv : KeyVer) : Prop :=
  ownKv w x kv = true ∧ ∀ y ∈ w.dsIdV, ownKv w y kv = true → y = x

instance (w : State) (x : Int32) (kv : KeyVer) : Decidable (SoleHolder w x kv) :=
  inferInstanceAs (Decidable (_ ∧ _))

/-- New data is put without the id of a DS and known data with one; what is accessed is known, and what is
deleted is deleted where alone it is. -/
def Orderly (r : Run) : Op → Prop
  | .put pId d dsId =>
    if dsId = -1 then (r.space.appDsId pId).isSome → kvOf d ∉ r.space.kvV
    else contains r.space dsId (kvOf d) = true ∨ kvOf d ∈ r.space.kvV
  | .addAccess _ d _ => kvOf d ∈ r.space.kvV
  | .del d dsId => kvOf d ∈ r.space.kvV → SoleHolder r.space dsId (kvOf d)
  | _ => True

instance (r : Run) (op : Op) : Decidable (Orderly r op) :=
  match op with
  | .put _ _ dsId => inferInstanceAs (Decidable (if dsId = -1 then _ else _))
  | .addAccess _ d _ => inferInstanceAs (Decidable (kvOf d ∈ r.space.kvV))
  | .del d dsId => inferInstanceAs (Decidable (kvOf d ∈ r.space.kvV → SoleHolder r.space dsId (kvOf d)))
  | .regDs _ => .isTrue trivial
  | .regApp _ _ => .isTrue trivial

section InStep
variable {withCb : Bool} {w w' : State} {d : Datum} {x : Int32} {kv : KeyVer}

theorem InStep.own (h : InStep w) (hown : ownKv w x kv = true) : kv ∈ w.kvV := by
  obtain ⟨kvV, hx, hmem⟩ := ownKv_iff.mp hown
  exact (h.known x kvV hx).2 kv hmem

theorem empty_inStep (maxNumKeyVer : Int) (wPrefetch : Bool) : InStep (empty maxNumKeyVer wPrefetch) := by
  constructor <;> simp [empty]

theorem regDs_inStep (h : InStep w) : InStep (regDs w x) := by
  by_cases hx : x ∈ w.dsIdV
  · rwa [regDs, if_pos hx]
  have hnone : w.dsKv x = none := by simpa [← w.listed] using hx
  refine ⟨?_, ?_, regDs_kvV w x ▸ h.nodup, ?_, ?_, ?_⟩
  · simpa only [regDs, if_neg hx] using h.pId
  · simpa only [regDs, if_neg hx] using h.lucoor
  · simp only [regDs, if_neg hx]
    intro y kvV hy
    by_cases hyx : y = x
    · subst hyx
      obtain rfl : [] = kvV := by simpa using hy
      exact ⟨.nil, (by simp)⟩
    · exact h.known y kvV (by simpa [hyx] using hy)
  · simpa only [regDs_kvV, regDs_ownKv] using h.held
  · simp only [regDs, if_neg hx]
    intro y
    by_cases hyx : y = x
    · simp [hyx]
    · simp [hyx, h.buffers]

theorem regApp_inStep {p : Int32} (h : InStep w) : InStep ((regApp w p x).getD w) := by
  unfold regApp
  split
  · exact h
  · exact ⟨h.pId, h.lucoor, h.nodup, h.known, h.held, h.buffers⟩

/-- A push shows in the list of its DS alone. -/
theorem Pushed.own_iff (h : Pushed w w' x kv) (y : Int32) (kv' : KeyVer) :
    ownKv w' y kv' = true ↔ ownKv w y kv' = true ∨ y = x ∧ kv' = kv := by
  obtain ⟨kvV, hx, hkv⟩ := h.dsKv
  by_cases hy : y = x
  · subst hy
    simp [ownKv, hkv, hx]
  · simp [ownKv, hkv, hy]

/-- What is in the space can be put where it is not. -/
theorem Pushed.inStep (h : Pushed w w' x kv) (hw : InStep w) (hkv : kv ∈ w.kvV) (hnew : ownKv w x kv = false) :
    InStep w' := by
  refine ⟨?_, ?_, ?_, ?_, ?_, ?_⟩
  · simpa only [h.kvV, h.kvPId] using hw.pId
  · simpa only [h.kvV, h.kvLucoor] using hw.lucoor
  · simpa only [h.kvV] using hw.nodup
  · obtain ⟨kvV, hx, hds⟩ := h.dsKv
    obtain ⟨hnodup, hknown⟩ := hw.known x kvV hx
    intro y kvV' hy
    rw [h.kvV]
    by_cases hyx : y = x
    · subst hyx
      obtain rfl : kvV ++ [kv] = kvV' := by simpa [hds] using hy
      have hout : kv ∉ kvV := by simpa [ownKv, hx] using hnew
      rw [List.nodup_append]
      refine ⟨⟨hnodup, by simp, ?_⟩, ?_⟩
      · intro a ha b hb he
        exact hout (List.mem_singleton.mp hb ▸ he ▸ ha)
      · intro a ha
        rcases List.mem_append.mp ha with ha | ha
        · exact hknown a ha
        · exact List.mem_singleton.mp ha ▸ hkv
    · exact hw.known y kvV' (by simpa [hds, hyx] using hy)
  · intro a ha
    rw [h.kvV] at ha
    obtain ⟨y, hy⟩ := hw.held a ha
    exact ⟨y, (h.own_iff y a).mpr (.inl hy)⟩
  · simpa only [h.dsMpbuffer, h.dsIdV] using hw.buffers

/-- New data goes into all the containers. -/
theorem put_inStep {p y : Int32} (hw : InStep w) (hnew : kvOf d ∉ w.kvV) (h : Pushed (regKv w p d) w' y (kvOf d)) :
    InStep w' := by
  have hkvV : w'.kvV = w.kvV ++ [kvOf d] := h.kvV
  have hout : ∀ x, ownKv w x (kvOf d) = false := by
    intro x
    cases hx : ownKv w x (kvOf d) with
    | false => rfl
    | true => exact absurd (hw.own hx) hnew
  refine ⟨?_, ?_, ?_, ?_, ?_, ?_⟩
  · intro a
    have ha := hw.pId a
    have hpId : w'.kvPId = update w.kvPId (kvOf d) (some p) := h.kvPId
    rw [hkvV, hpId]
    by_cases had : a = kvOf d <;> simp [had, ha]
  · intro a
    have ha := hw.lucoor a
    have hlucoor : w'.kvLucoor = update w.kvLucoor (kvOf d) (some (d.lcoor, d.ucoor)) := h.kvLucoor
    rw [hkvV, hlucoor]
    by_cases had : a = kvOf d <;> simp [had, ha]
  · rw [hkvV, List.nodup_append]
    refine ⟨hw.nodup, by simp, ?_⟩
    intro a ha b hb he
    exact hnew (List.mem_singleton.mp hb ▸ he ▸ ha)
  · obtain ⟨kvV, hy, hds⟩ := h.dsKv
    have hy : w.dsKv y = some kvV := hy
    have hds : w'.dsKv = update w.dsKv y (some (kvV ++ [kvOf d])) := hds
    obtain ⟨hnodup, hknown⟩ := hw.known y kvV hy
    intro x kvV' hx
    rw [hkvV]
    by_cases hxy : x = y
    · subst hxy
      obtain rfl : kvV ++ [kvOf d] = kvV' := by simpa [hds] using hx
      rw [List.nodup_append]
      refine ⟨⟨hnodup, by simp, ?_⟩, ?_⟩
      · intro a ha b hb he
        exact hnew (hknown _ (List.mem_singleton.mp hb ▸ he ▸ ha))
      · exact fun a ha => List.mem_append.mpr ((List.mem_append.mp ha).imp (hknown a) id)
    · obtain ⟨hnodup', hknown'⟩ := hw.known x kvV' (by simpa [hds, hxy] using hx)
      exact ⟨hnodup', fun a ha => List.mem_append_left _ (hknown' a ha)⟩
  · intro a ha
    rw [hkvV] at ha
    rcases List.mem_append.mp ha with ha | ha
    · obtain ⟨x, hx⟩ := hw.held a ha
      exact ⟨x, (h.own_iff x a).mpr (.inl hx)⟩
    · exact ⟨y, (h.own_iff y a).mpr (.inr ⟨rfl, List.mem_singleton.mp ha⟩)⟩
  · intro x
    have hbuf : w'.dsMpbuffer = (regKv w p d).dsMpbuffer := h.dsMpbuffer
    have hds : w'.dsIdV = w.dsIdV := h.dsIdV
    rw [hbuf, hds, ← hw.buffers]
    simp [regKv]

theorem Acced.inStep (h : Acced w w' kv) (hw : InStep w) (hkv : kv ∈ w.kvV) : InStep w' := by
  refine ⟨?_, ?_, ?_, ?_, ?_, ?_⟩
  · intro a
    rw [h.kvV, h.kvPId]
    by_cases ha : a = kv
    · subst ha
      simp [hkv]
    · simp [ha, hw.pId]
  · simpa only [h.kvV, h.kvLucoor] using hw.lucoor
  · simpa only [h.kvV] using hw.nodup
  · simpa only [h.kvV, h.dsKv] using hw.known
  · simpa only [h.kvV, ownKv, h.dsKv] using hw.held
  · simpa only [h.dsMpbuffer, h.dsIdV] using hw.buffers

/-- Once deleted where alone it was, a key-version is nowhere. -/
theorem Deled.inStep (h : Deled w w' x kv) (hw : InStep w) (hsole : SoleHolder w x kv) : InStep w' := by
  have hmem : ∀ a, a ∈ w'.kvV ↔ a ≠ kv ∧ a ∈ w.kvV := by
    intro a
    rw [h.kvV]
    exact hw.nodup.mem_erase_iff
  obtain ⟨kvV, hx, hkv, hds⟩ := h.dsKv
  obtain ⟨hnodup, hknown⟩ := hw.known x kvV hx
  have hgone : kv ∉ kvV.erase kv := hnodup.not_mem_erase
  refine ⟨?_, ?_, ?_, ?_, ?_, ?_⟩
  · intro a
    rw [hmem, h.kvPId]
    by_cases ha : a = kv <;> simp [ha, hw.pId]
  · intro a
    rw [hmem, h.kvLucoor]
    by_cases ha : a = kv <;> simp [ha, hw.lucoor]
  · rw [h.kvV]
    exact hw.nodup.erase kv
  · intro y kvV' hy
    by_cases hyx : y = x
    · subst hyx
      obtain rfl : kvV.erase kv = kvV' := by simpa [hds] using hy
      refine ⟨hnodup.erase kv, fun a ha => (hmem a).mpr ⟨?_, hknown a (List.mem_of_mem_erase ha)⟩⟩
      rintro rfl
      exact hgone ha
    · have hy : w.dsKv y = some kvV' := by simpa [hds, hyx] using hy
      obtain ⟨hnodup', hknown'⟩ := hw.known y kvV' hy
      refine ⟨hnodup', fun a ha => (hmem a).mpr ⟨?_, hknown' a ha⟩⟩
      rintro rfl
      have hown : ownKv w y a = true := ownKv_iff.mpr ⟨kvV', hy, ha⟩
      exact hyx (hsole.2 y (ownKv_listed hown) hown)
  · intro a ha
    obtain ⟨hne, ha⟩ := (hmem a).mp ha
    obtain ⟨y, hy⟩ := hw.held a ha
    refine ⟨y, ?_⟩
    by_cases hyx : y = x
    · subst hyx
      simp only [ownKv, hx, Option.any_some, List.contains_iff_mem] at hy
      simp [ownKv, hds, List.mem_erase_of_ne hne, hy]
    · simpa [ownKv, hds, hyx] using hy
  · simpa only [h.dsMpbuffer, h.dsIdV] using hw.buffers

theorem step_inStep {r r' : Run} {op : Op} (h : InStep r.space) (hop : Orderly r op)
    (hs : step withCb r op = some r') : InStep r'.space := by
  cases op with
  | regDs x =>
    obtain rfl := Option.some.inj hs
    exact regDs_inStep h
  | regApp p x =>
    obtain rfl := Option.some.inj hs
    exact regApp_inStep h
  | put p d x =>
    simp only [step, Option.map_eq_some_iff] at hs
    obtain ⟨⟨w', done⟩, hput, rfl⟩ := hs
    rcases putTo_cases hput with ⟨rfl, -, -⟩ | ⟨-, rfl, y, hp, hpush⟩ | ⟨-, hx, hnot, hpush⟩
    · exact h
    · refine put_inStep h ?_ hpush
      have hnew : (r.space.appDsId p).isSome → kvOf d ∉ r.space.kvV := hop
      exact hnew (by rw [hp]; rfl)
    · have hkv : kvOf d ∈ r.space.kvV := by
        simp only [Orderly, if_neg hx, hnot, Bool.false_eq_true, false_or] at hop
        exact hop
      refine hpush.inStep h hkv ?_
      unfold contains at hnot
      split at hnot
      · simp [hkv] at hnot
      · exact (Bool.or_eq_false_iff.mp hnot).1
  | addAccess c d predicted =>
    simp only [step, Option.map_eq_some_iff] at hs
    obtain ⟨w', hacc, rfl⟩ := hs
    exact (addAccess_acced hacc).inStep h hop
  | del d x =>
    simp only [step, Option.map_eq_some_iff] at hs
    obtain ⟨⟨w', done⟩, hdel, rfl⟩ := hs
    rcases del_cases hdel with ⟨-, rfl, -⟩ | ⟨hkv, -, hdel⟩
    · exact h
    · exact hdel.inStep h (hop hkv)

/-! ## The directory of a run -/

/-- What the directory promises in a state. -/
structure Consistent (withCb : Bool) (r : Run) : Prop where
  pId : ∀ kv, kv ∈ r.space.kvV ↔ (r.space.kvPId kv).isSome
  lucoor : ∀ kv, kv ∈ r.space.kvV ↔ (r.space.kvLucoor kv).isSome
  once : ∀ kv ∈ r.space.kvV, r.space.kvV.count kv = 1
  own : ∀ x kv, ownKv r.space x kv = true → kv ∈ r.space.kvV
  located : ∀ d dsIdV, query r.space d = some dsIdV → dsIdV ≠ []
  erases : ∀ d x, Orderly r (.del d x) → (del withCb r.space d x).isSome
  gone : ∀ d x w', del withCb r.space d x = some (w', true) → query w' d = none

theorem consistent_of_inStep {withCb : Bool} {r : Run} (h : InStep r.space) : Consistent withCb r := by
  refine ⟨h.pId, h.lucoor, fun kv hkv => List.count_eq_one_of_mem h.nodup hkv, fun x kv => h.own, ?_, ?_, ?_⟩
  · rintro d dsIdV hq rfl
    have hkv : kvOf d ∈ r.space.kvV := query_isSome.mp (by rw [hq]; rfl)
    obtain ⟨x, hx⟩ := h.held _ hkv
    have hmem : x ∈ ([] : List Int32) := (mem_query hq).mpr ⟨ownKv_listed hx, by
      unfold contains
      split
      · simpa using hkv
      · simp [hx]⟩
    cases hmem
  · intro d x hop
    by_cases hkv : kvOf d ∈ r.space.kvV
    · obtain ⟨hown, -⟩ := hop hkv
      exact del_isSome hown ((h.buffers x).mpr (ownKv_listed hown)) ((h.pId _).mp hkv) ((h.lucoor _).mp hkv)
    · simp [del, hkv]
  · intro d x w' hdel
    rcases del_cases hdel with ⟨-, -, hdone⟩ | ⟨-, -, hdeled⟩
    · cases hdone
    · have hgone : ¬(query w' d).isSome := by
        rw [query_isSome, hdeled.kvV]
        exact h.nodup.not_mem_erase
      simpa using hgone

/-- As long as the puts, accesses and deletions are orderly, all the containers of the directory agree. -/
theorem orderly_directory_consistent {withCb : Bool} {maxNumKeyVer : Int} {wPrefetch : Bool} {r : Run}
    (hr : Transition.Reaches (step withCb) Orderly (start maxNumKeyVer wPrefetch) r) : Consistent withCb r := by
  have h : InStep r.space :=
    hr.invariant (fun r => InStep r.space) (empty_inStep _ _) fun _ _ _ hu hop hs => step_inStep hu hop hs
  exact consistent_of_inStep h

/-- The datum of one cell at the origin. -/
def cell (key : String) : Datum := ⟨key, 0, Vector.replicate _ 0, Vector.replicate _ 0⟩

/-- Data is put, copied to a second DS and accessed from there. -/
theorem copied_consistent :
    ∃ r, Transition.Reaches (step true) Orderly (start 1 true) r ∧
      query r.space (cell "u") = some [1, 2] ∧ Consistent true r := by
  obtain ⟨r, hr, htest⟩ := Transition.runWhere_reaches_of_any (step true) Orderly (start 1 true)
    [.regDs 1, .regDs 2, .regApp 7 1, .regApp 8 2, .put 7 (cell "u") (-1), .put 7 (cell "u") 2,
      .addAccess 8 (cell "u") [7]]
    (fun r => decide (query r.space (cell "u") = some [1, 2])) (by decide)
  exact ⟨r, hr, of_decide_eq_true htest, orderly_directory_consistent hr⟩

/-- Every other use breaks it: data put twice is listed twice, a copy of unknown data is in a list alone, an
access of unknown data leaves it a producer, and a deletion leaves a second copy in its list, or erases from
a list that has none. -/
theorem consistency_lost :
    (∃ r, Transition.Reaches (step true) Transition.free (start 1 true) r ∧
      r.space.kvV.count (kvOf (cell "u")) = 2 ∧ ¬Consistent true r) ∧
    (∃ r, Transition.Reaches (step true) Transition.free (start 1 true) r ∧
      ownKv r.space 1 (kvOf (cell "u")) = true ∧ kvOf (cell "u") ∉ r.space.kvV ∧ ¬Consistent true r) ∧
    (∃ r, Transition.Reaches (step true) Transition.free (start 1 true) r ∧
      (r.space.kvPId (kvOf (cell "u"))).isSome ∧ kvOf (cell "u") ∉ r.space.kvV ∧ ¬Consistent true r) ∧
    (∃ r, Transition.Reaches (step true) Orderly (start 1 true) r ∧
      (del true r.space (cell "u") 1).any (fun w => ownKv w.1 2 (kvOf (cell "u")) && !w.1.kvV.contains (kvOf (cell "u"))) ∧
      kvOf (cell "v") ∈ r.space.kvV ∧ del true r.space (cell "v") 2 = none) := by
  refine ⟨?_, ?_, ?_, ?_⟩
  · obtain ⟨r, hr, htest⟩ := Transition.run_reaches_of_any (step true) (start 1 true)
      [.regDs 1, .regApp 7 1, .put 7 (cell "u") (-1), .put 7 (cell "u") (-1)]
      (fun r => decide (r.space.kvV.count (kvOf (cell "u")) = 2)) (by decide)
    have htwice := of_decide_eq_true htest
    refine ⟨r, hr, htwice, fun h => ?_⟩
    have hmem : kvOf (cell "u") ∈ r.space.kvV := List.count_pos_iff.mp (by omega)
    have := h.once _ hmem
    omega
  · obtain ⟨r, hr, htest⟩ := Transition.run_reaches_of_any (step true) (start 1 true)
      [.regDs 1, .put 7 (cell "u") 1]
      (fun r => decide (ownKv r.space 1 (kvOf (cell "u")) = true ∧ kvOf (cell "u") ∉ r.space.kvV)) (by decide)
    obtain ⟨hown, hgone⟩ := of_decide_eq_true htest
    exact ⟨r, hr, hown, hgone, fun h => hgone (h.own _ _ hown)⟩
  · obtain ⟨r, hr, htest⟩ := Transition.run_reaches_of_any (step true) (start 1 true)
      [.regDs 1, .regApp 7 1, .addAccess 7 (cell "u") []]
      (fun r => decide ((r.space.kvPId (kvOf (cell "u"))).isSome ∧ kvOf (cell "u") ∉ r.space.kvV)) (by decide)
    obtain ⟨hpId, hgone⟩ := of_decide_eq_true htest
    exact ⟨r, hr, hpId, hgone, fun h => hgone ((h.pId _).mpr hpId)⟩
  · obtain ⟨r, hr, htest⟩ := Transition.runWhere_reaches_of_any (step true) Orderly (start 1 true)
      [.regDs 1, .regDs 2, .regApp 7 1, .put 7 (cell "u") (-1), .put 7 (cell "u") 2, .put 7 (cell "v") (-1)]
      (fun r => decide ((del true r.space (cell "u") 1).any
          (fun w => ownKv w.1 2 (kvOf (cell "u")) && !w.1.kvV.contains (kvOf (cell "u"))) ∧
        kvOf (cell "v") ∈ r.space.kvV ∧ (del true r.space (cell "v") 2).isNone)) (by decide)
    obtain ⟨hleft, hmem, hnone⟩ := of_decide_eq_true htest
    exact ⟨r, hr, hleft, hmem, Option.isNone_iff_eq_none.mp hnone⟩

end InStep

end SpaceRuns
