import DataspacesWa.MPBuffer
import DataspacesWa.WASpace

/-!
# The key-version directory

`MWASpace` keeps, for each DS, the key-versions put there and its prefetch
buffer. A query reports the DSs that hold a key-version in either. The maps
have an entry for each registered DS and no other.
-/
namespace MWASpace

open Function (update update_self)
open Patch (Datum getDataId)
open MPBuffer (KeyVer regKeyVer Calling)
open WASpace (ActCall)

/-- `lcoor_ucoor_pair`. -/
abbrev LcoorUcoor := Vector UInt64 Patch.ndim × Vector UInt64 Patch.ndim

structure State where
  maxNumKeyVerInMpbuffer : Int
  wPrefetch : Bool
  dsIdV : List Int32
  appDsId : Int32 → Option Int32
  kvV : List KeyVer
  dsKv : Int32 → Option (List KeyVer)
  dsMpbuffer : Int32 → Option MPBuffer.State
  kvPId : KeyVer → Option Int32
  kvLucoor : KeyVer → Option LcoorUcoor
  listed : ∀ dsId, (dsKv dsId).isSome = true ↔ dsId ∈ dsIdV

def empty (maxNumKeyVerInMpbuffer : Int) (wPrefetch : Bool) : State where
  maxNumKeyVerInMpbuffer := maxNumKeyVerInMpbuffer
  wPrefetch := wPrefetch
  dsIdV := []
  appDsId _ := none
  kvV := []
  dsKv _ := none
  dsMpbuffer _ := none
  kvPId _ := none
  kvLucoor _ := none
  listed := by simp

def kvOf (d : Datum) : KeyVer := (d.key, d.ver)

/-- The id that `contains` takes for the whole space, the character `'*'`. -/
def allDs : Int32 := 42

/-- The DS has put the key-version itself. -/
def ownKv (w : State) (dsId : Int32) (kv : KeyVer) : Bool := (w.dsKv dsId).any (·.contains kv)

/-- The key-version is in the prefetch cache of the DS. -/
def cached (w : State) (dsId : Int32) (kv : KeyVer) : Bool :=
  (w.dsMpbuffer dsId).any fun b => Cache.contains b.cache kv

def contains (w : State) (dsId : Int32) (kv : KeyVer) : Bool :=
  if dsId = allDs then w.kvV.contains kv else ownKv w dsId kv || cached w dsId kv

def query (w : State) (d : Datum) : Option (List Int32) :=
  if contains w allDs (kvOf d) then some (w.dsIdV.filter fun dsId => contains w dsId (kvOf d)) else none

/-! ## Registration and puts -/

/-- `reg_ds`; an error on a registered DS changes nothing. -/
def regDs (w : State) (dsId : Int32) : State :=
  if dsId ∈ w.dsIdV then w
  else { w with
    dsIdV := w.dsIdV ++ [dsId]
    dsKv := update w.dsKv dsId (some [])
    dsMpbuffer := update w.dsMpbuffer dsId (some (w.kvV.foldl
      (fun b kv => regKeyVer b ((w.kvPId kv).getD 0) kv)
      (MPBuffer.init dsId w.maxNumKeyVerInMpbuffer w.wPrefetch)))
    listed := by
      intro x
      by_cases hx : x = dsId
      · simp [hx]
      · simp [hx, w.listed] }

def regApp (w : State) (appId dsId : Int32) : Option State :=
  if (w.appDsId appId).isSome then none
  else some { w with appDsId := update w.appDsId appId (some dsId) }

/-- `ds_id__kv_map[ds_id]->push_back(kv)` -/
def pushKv (w : State) (dsId : Int32) (kv : KeyVer) : Option State :=
  match h : w.dsKv dsId with
  | none => none
  | some kvV => some { w with
      dsKv := update w.dsKv dsId (some (kvV ++ [kv]))
      listed := by
        intro x
        by_cases hx : x = dsId
        · subst hx
          simp [← w.listed, h]
        · simp [hx, w.listed] }

/-- What a new put leaves in the maps that are not kept by DS: every buffer is told. -/
def regKv (w : State) (pId : Int32) (d : Datum) : State :=
  { w with
    dsMpbuffer := fun dsId => (w.dsMpbuffer dsId).map fun b => regKeyVer b pId (kvOf d)
    kvPId := update w.kvPId (kvOf d) (some pId)
    kvLucoor := update w.kvLucoor (kvOf d) (some (d.lcoor, d.ucoor))
    kvV := w.kvV ++ [kvOf d] }

/-- `put` with its last argument at its default: the DS is the one the app is registered at. -/
def put (w : State) (pId : Int32) (d : Datum) : Option (State × Bool) :=
  match w.appDsId pId with
  | none => some (w, false)
  | some dsId => (pushKv (regKv w pId d) dsId (kvOf d)).map fun w => (w, true)

/-! ## Accesses -/

/-- `handle_mpbuffer_data_act`; the box of an unknown key-version is a null pointer. -/
def actCall (w : State) (dsId : Int32) : Calling → Option ActCall
  | .del kv => (w.kvLucoor kv).map fun (lcoor, ucoor) => ⟨.del, dsId, ⟨kv.1, kv.2, lcoor, ucoor⟩⟩
  | .prefetch kv _ =>
    (w.kvLucoor kv).map fun (lcoor, ucoor) => ⟨.prefetch, dsId, ⟨kv.1, kv.2, lcoor, ucoor⟩⟩

/-- Store the buffer of a DS, and enter the call its access has come to. -/
def goOn (w : State) (dsId : Int32) : MPBuffer.State × Option Calling →
    Option (State × Option (ActCall × Int32 × Calling))
  | (b, none) => some ({ w with dsMpbuffer := update w.dsMpbuffer dsId (some b) }, none)
  | (b, some calling) =>
    (actCall w dsId calling).map fun call =>
      ({ w with dsMpbuffer := update w.dsMpbuffer dsId (some b) }, some (call, dsId, calling))

/-- The three map reads of `add_access`: `operator[]` stores the zero it reads for a
key-version or an app it does not know. -/
def touch (w : State) (cId : Int32) (kv : KeyVer) : State × Int32 × Int32 :=
  let pId := (w.kvPId kv).getD 0
  let pDs := (w.appDsId pId).getD 0
  let appDsId := update w.appDsId pId (some pDs)
  let cDs := (appDsId cId).getD 0
  ({ w with kvPId := update w.kvPId kv (some pId), appDsId := update appDsId cId (some cDs) }, pDs, cDs)

def addAccess (w : State) (cId : Int32) (d : Datum) (predicted : List Int32) :
    Option (State × Option (ActCall × Int32 × Calling)) :=
  let (w, pDs, cDs) := touch w cId (kvOf d)
  if pDs = cDs then some (w, none)
  else (w.dsMpbuffer cDs).bind fun b => goOn w cDs (MPBuffer.addAccess b (kvOf d) predicted)

def resume (w : State) (predicted : List Int32) : Int32 × Calling →
    Option (State × Option (ActCall × Int32 × Calling))
  | (dsId, calling) =>
    (w.dsMpbuffer dsId).bind fun b =>
      (MPBuffer.resume b predicted calling).bind fun next => goOn w dsId next

/-! ## What stays in the directory -/

section Frame
variable {w w' : State} {d : Datum} {x : Int32} {kv : KeyVer}

theorem query_isSome : (query w d).isSome = true ↔ kvOf d ∈ w.kvV := by
  simp [query, contains]

theorem mem_query {dsIdV : List Int32} (h : query w d = some dsIdV) :
    x ∈ dsIdV ↔ x ∈ w.dsIdV ∧ contains w x (kvOf d) = true := by
  simp only [query, Option.ite_none_right_eq_some, Option.some.injEq] at h
  obtain ⟨-, rfl⟩ := h
  simp

theorem ownKv_listed (h : ownKv w x kv = true) : x ∈ w.dsIdV := by
  rw [← w.listed]
  cases hx : w.dsKv x with
  | none => simp [ownKv, hx] at h
  | some kvV => rfl

theorem ownKv_congr (h : w'.dsKv = w.dsKv) : ownKv w' x kv = ownKv w x kv := by
  simp [ownKv, h]

/-- The DS has put the datum itself, and the space knows it. -/
def Recorded (w : State) (d : Datum) (x : Int32) : Prop := ownKv w x (kvOf d) = true ∧ kvOf d ∈ w.kvV

theorem query_recorded (h : Recorded w d x) : ∃ dsIdV, query w d = some dsIdV ∧ x ∈ dsIdV := by
  obtain ⟨hown, hkv⟩ := h
  obtain ⟨dsIdV, hq⟩ := Option.isSome_iff_exists.mp (query_isSome.mpr hkv)
  refine ⟨dsIdV, hq, (mem_query hq).mpr ⟨ownKv_listed hown, ?_⟩⟩
  unfold contains
  split
  · simpa using hkv
  · simp [hown]

theorem regDs_kvV (w : State) (x : Int32) : (regDs w x).kvV = w.kvV := by
  unfold regDs
  split <;> rfl

theorem regDs_ownKv (y : Int32) : ownKv (regDs w x) y kv = ownKv w y kv := by
  unfold regDs
  split <;> rename_i hx
  · rfl
  · by_cases hy : y = x
    · subst hy
      have hnone : w.dsKv y = none := by simpa [← w.listed] using hx
      simp [ownKv, hnone]
    · simp [ownKv, hy]

theorem pushKv_cases (h : pushKv w x kv = some w') :
    w'.kvV = w.kvV ∧ w'.dsIdV = w.dsIdV ∧ w'.dsMpbuffer = w.dsMpbuffer ∧ w'.appDsId = w.appDsId ∧
      ∀ y kv', ownKv w' y kv' = true ↔ ownKv w y kv' = true ∨ y = x ∧ kv' = kv := by
  unfold pushKv at h
  split at h
  · cases h
  · rename_i kvV hx
    obtain rfl := Option.some.inj h
    refine ⟨rfl, rfl, rfl, rfl, ?_⟩
    intro y kv'
    by_cases hy : y = x
    · subst hy; simp [ownKv, hx]
    · simp [ownKv, hy]

/-- A put is refused where the app is unknown, and otherwise recorded where it is registered. -/
theorem put_cases {p : Int32} {done : Bool} (h : put w p d = some (w', done)) :
    (w.appDsId p = none ∧ done = false ∧ w' = w) ∨
      ∃ x, w.appDsId p = some x ∧ done = true ∧ w'.kvV = w.kvV ++ [kvOf d] ∧ w'.dsIdV = w.dsIdV ∧
        w'.appDsId = w.appDsId ∧ w'.dsMpbuffer = (regKv w p d).dsMpbuffer ∧
        ∀ y kv, ownKv w' y kv = true ↔ ownKv w y kv = true ∨ y = x ∧ kv = kvOf d := by
  unfold put at h
  cases hp : w.appDsId p with
  | none =>
    simp only [hp, Option.some.injEq, Prod.mk.injEq] at h
    exact .inl ⟨rfl, h.2.symm, h.1.symm⟩
  | some x =>
    simp only [hp, Option.map_eq_some_iff, Prod.mk.injEq] at h
    obtain ⟨w₁, hw₁, rfl, rfl⟩ := h
    obtain ⟨hkv, hds, hbuf, happ, hown⟩ := pushKv_cases hw₁
    exact .inr ⟨x, rfl, rfl, hkv, hds, happ, hbuf, hown⟩

/-- An access changes neither what has been put nor the list of the DSs. -/
structure Kept (w w' : State) : Prop where
  kvV : w'.kvV = w.kvV
  dsIdV : w'.dsIdV = w.dsIdV
  dsKv : w'.dsKv = w.dsKv

theorem goOn_kept {next : MPBuffer.State × Option Calling} {after : Option (ActCall × Int32 × Calling)}
    (h : goOn w x next = some (w', after)) : Kept w w' := by
  rcases next with ⟨b, _ | calling⟩
  · obtain ⟨rfl, -⟩ : _ = w' ∧ none = after := by simpa [goOn] using h
    exact ⟨rfl, rfl, rfl⟩
  · simp only [goOn, Option.map_eq_some_iff, Prod.mk.injEq] at h
    obtain ⟨call, -, rfl, -⟩ := h
    exact ⟨rfl, rfl, rfl⟩

theorem addAccess_kept {c : Int32} {predicted : List Int32} {after : Option (ActCall × Int32 × Calling)}
    (h : addAccess w c d predicted = some (w', after)) : Kept w w' := by
  unfold addAccess at h
  dsimp only at h
  split at h
  · obtain ⟨rfl, -⟩ : _ = w' ∧ none = after := by simpa using h
    exact ⟨rfl, rfl, rfl⟩
  · obtain ⟨b, -, hgo⟩ := Option.bind_eq_some_iff.mp h
    obtain ⟨hkv, hds, hown⟩ := goOn_kept hgo
    exact ⟨hkv, hds, hown⟩

theorem resume_kept {k : Int32 × Calling} {predicted : List Int32}
    {after : Option (ActCall × Int32 × Calling)} (h : resume w predicted k = some (w', after)) :
    Kept w w' := by
  obtain ⟨b, -, hb⟩ := Option.bind_eq_some_iff.mp h
  obtain ⟨next, -, hgo⟩ := Option.bind_eq_some_iff.mp hb
  exact goOn_kept hgo

/-! ## What is in the caches -/

theorem cached_iff : cached w x kv = true ↔ ∃ b, w.dsMpbuffer x = some b ∧ kv ∈ b.cache.content := by
  unfold cached
  cases w.dsMpbuffer x <;> simp [Cache.contains]

theorem foldl_regKeyVer_cache (kvV : List KeyVer) (pIdOf : KeyVer → Int32) (b : MPBuffer.State) :
    (kvV.foldl (fun b kv => regKeyVer b (pIdOf kv) kv) b).cache = b.cache := by
  induction kvV generalizing b with
  | nil => rfl
  | cons kv kvV ih => rw [List.foldl_cons, ih, MPBuffer.regKeyVer_cache]

theorem regDs_cached (y : Int32) (h : cached (regDs w y) x kv = true) : cached w x kv = true := by
  unfold regDs at h
  split at h
  · exact h
  · obtain ⟨b, hb, hkv⟩ := cached_iff.mp h
    by_cases hx : x = y
    · subst hx
      simp only [update_self, Option.some.injEq] at hb
      subst hb
      rw [foldl_regKeyVer_cache] at hkv
      simp [MPBuffer.init, Cache.empty] at hkv
    · exact cached_iff.mpr ⟨b, by simpa [hx] using hb, hkv⟩

theorem regApp_frame {p y : Int32} (h : regApp w p y = some w') :
    (∀ x kv, ownKv w' x kv = ownKv w x kv) ∧ ∀ x kv, cached w' x kv = cached w x kv := by
  simp only [regApp, Option.ite_none_left_eq_some, Option.some.injEq] at h
  obtain ⟨-, rfl⟩ := h
  exact ⟨fun _ _ => rfl, fun _ _ => rfl⟩

theorem regKv_cached (p : Int32) : cached (regKv w p d) x kv = cached w x kv := by
  show ((w.dsMpbuffer x).map _).any _ = (w.dsMpbuffer x).any _
  cases w.dsMpbuffer x with
  | none => rfl
  | some b => simp

theorem put_cached {p : Int32} {done : Bool} (h : put w p d = some (w', done)) : cached w' x kv = cached w x kv := by
  rcases put_cases h with ⟨-, -, rfl⟩ | ⟨_, -, -, -, -, -, hbuf, -⟩
  · rfl
  · show (w'.dsMpbuffer x).any _ = _
    rw [hbuf]
    exact regKv_cached p

/-- The access that is inside the call. -/
def Fits (call : ActCall) : Int32 × Calling → Prop
  | (dsId, .del kv) => call.act = .del ∧ call.toId = dsId ∧ kvOf call.datum = kv
  | (dsId, .prefetch kv _) => call.act = .prefetch ∧ call.toId = dsId ∧ kvOf call.datum = kv

theorem goOn_cases {y : Int32} {r : MPBuffer.State × Option Calling}
    {after : Option (ActCall × Int32 × Calling)} (h : goOn w y r = some (w', after)) :
    w'.dsMpbuffer = update w.dsMpbuffer y (some r.1) ∧ ∀ call k, after = some (call, k) → Fits call k := by
  obtain ⟨b, next⟩ := r
  cases next with
  | none =>
    obtain ⟨rfl, rfl⟩ : _ = w' ∧ none = after := by simpa [goOn] using h
    exact ⟨rfl, (by simp)⟩
  | some calling =>
    simp only [goOn, Option.map_eq_some_iff, Prod.mk.injEq] at h
    obtain ⟨call, hcall, rfl, rfl⟩ := h
    refine ⟨rfl, ?_⟩
    rintro _ _ ⟨⟩
    cases calling <;>
      (simp only [actCall, Option.map_eq_some_iff] at hcall
       obtain ⟨_, -, rfl⟩ := hcall
       exact ⟨rfl, rfl, rfl⟩)

/-- An access changes no cache before the return of its first call. -/
theorem addAccess_cases {c : Int32} {predicted : List Int32} {after : Option (ActCall × Int32 × Calling)}
    (h : addAccess w c d predicted = some (w', after)) :
    (∀ x kv, cached w' x kv = cached w x kv) ∧ ∀ call k, after = some (call, k) → Fits call k := by
  unfold addAccess at h
  dsimp only at h
  split at h
  · obtain ⟨rfl, rfl⟩ : _ = w' ∧ none = after := by simpa using h
    exact ⟨fun _ _ => rfl, (by simp)⟩
  · obtain ⟨b, hb, hgo⟩ := Option.bind_eq_some_iff.mp h
    obtain ⟨hbuf, hfits⟩ := goOn_cases hgo
    refine ⟨fun x kv => ?_, hfits⟩
    have hw : (touch w c (kvOf d)).1.dsMpbuffer = w.dsMpbuffer := rfl
    unfold cached
    rw [hbuf, hw]
    by_cases hx : x = (touch w c (kvOf d)).2.2
    · subst hx
      rw [hw] at hb
      simp [hb]
    · simp [hx]

/-- The return from a prefetch puts its datum into the cache of its DS, and no return puts anything else. -/
theorem resume_cases {k : Int32 × Calling} {predicted : List Int32} {after : Option (ActCall × Int32 × Calling)}
    (h : resume w predicted k = some (w', after)) :
    (∀ x kv, cached w' x kv = true → cached w x kv = true ∨ ∃ kvV, k = (x, .prefetch kv kvV)) ∧
      ∀ call k', after = some (call, k') → Fits call k' := by
  obtain ⟨y, calling⟩ := k
  obtain ⟨b, hb, hres⟩ := Option.bind_eq_some_iff.mp h
  obtain ⟨⟨b', next⟩, hr, hgo⟩ := Option.bind_eq_some_iff.mp hres
  obtain ⟨hbuf, hfits⟩ := goOn_cases hgo
  refine ⟨fun x kv hx => ?_, hfits⟩
  obtain ⟨b₁, hb₁, hkv⟩ := cached_iff.mp hx
  rw [hbuf] at hb₁
  by_cases hxy : x = y
  · subst hxy
    simp only [update_self, Option.some.injEq] at hb₁
    subst hb₁
    rcases MPBuffer.mem_resume_cache predicted hr hkv with hold | ⟨kvV, rfl⟩
    · exact .inl (cached_iff.mpr ⟨b, hb, hold⟩)
    · exact .inr ⟨kvV, rfl⟩
  · exact .inl (cached_iff.mpr ⟨b₁, by simpa [hxy] using hb₁, hkv⟩)

end Frame

/-! ## The class -/

instance : WASpace.Operations State where
  Access := Int32 × Calling
  dataIdT := .kv
  query := query
  appDsId := State.appDsId
  regDs := regDs
  regApp := regApp
  put := put
  addAccess := addAccess
  resume w k predicted := resume w predicted k
  accepts _ := true
  Recorded := Recorded

/-- What is known and what is put stays so where no list loses an element. -/
theorem grows_of {w w' : State} (hkv : ∀ kv ∈ w.kvV, kv ∈ w'.kvV)
    (hown : ∀ x kv, ownKv w x kv = true → ownKv w' x kv = true) : WASpace.Grows w w' where
  query _ h := query_isSome.mpr (hkv _ (query_isSome.mp h))
  recorded _ x h := ⟨hown x _ h.1, hkv _ h.2⟩

theorem Kept.grows {w w' : State} (h : Kept w w') : WASpace.Grows w w' :=
  grows_of (fun _ hkv => by rwa [h.kvV]) fun _ _ hown => by rwa [ownKv_congr h.dsKv]

theorem regApp_grows {w w' : State} {p x : Int32} (h : regApp w p x = some w') :
    WASpace.Grows w w' := by
  simp only [regApp, Option.ite_none_left_eq_some, Option.some.injEq] at h
  obtain ⟨-, rfl⟩ := h
  exact grows_of (fun _ h => h) fun _ _ h => h

instance : WASpace.Space State where
  query_id w d d' h := by
    obtain ⟨hkey, hver⟩ := Patch.getDataId_kv h
    have hkv : kvOf d = kvOf d' := by simp [kvOf, hkey, hver]
    show query w d = query w d'
    simp [query, hkv]
  query_recorded _ _ _ h := query_recorded h
  put_query w p d w' h := by
    rcases put_cases h with ⟨-, hdone, -⟩ | ⟨x, -, -, hkv, -⟩
    · cases hdone
    · exact query_isSome.mpr (by simp [hkv])
  put_recorded w p d w' done x h hp _ := by
    rcases put_cases h with ⟨hnone, -, -⟩ | ⟨y, hy, -, hkv, -, -, -, hown⟩
    · cases hnone.symm.trans hp
    · obtain rfl : y = x := Option.some.inj (hy.symm.trans hp)
      exact ⟨(hown _ _).mpr (.inr ⟨rfl, rfl⟩), by simp [hkv]⟩
  regApp_new w p x h := by
    have hnone : w.appDsId p = none := h
    simp [WASpace.Operations.regApp, regApp, hnone]
  put_grows w p d w' done h := by
    rcases put_cases h with ⟨-, -, rfl⟩ | ⟨y, -, -, hkv, -, -, -, hown⟩
    · exact .refl _
    · refine grows_of ?_ fun x kv hx => (hown x kv).mpr (.inl hx)
      intro kv hmem
      simp [hkv, hmem]
  regDs_grows w x :=
    grows_of (fun _ hkv => (regDs_kvV w x).symm ▸ hkv) fun y _ hy => (regDs_ownKv y).trans hy
  regApp_grows _ _ _ _ h := regApp_grows h
  addAccess_grows _ _ _ _ _ _ h := (addAccess_kept h).grows
  resume_grows _ _ _ _ _ h := (resume_kept h).grows

end MWASpace
