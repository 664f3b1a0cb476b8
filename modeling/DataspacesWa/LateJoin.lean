import DataspacesWa.SpaceRuns

/-!
# A DS that joins late

The buffer of a DS that joins is built from `kv_v` and `kv__p_id_map`, and the
buffers of the others by the stream of puts. The run with the join and the run
without it are compared step by step, whatever the position of the join.
-/
namespace LateJoin

open Function (update update_self update_of_ne)
open Patch (Datum)
open MPBuffer (KeyVer regKeyVer)
open MWASpace
open SpaceRuns (putTo putTo_cases pushKv_isSome Pushed)

/-! ## Operations -/

inductive Op where
  | regDs : Int32 → Op
  | regApp : Int32 → Int32 → Op
  | put : Int32 → Datum → Int32 → Op

/-- An operation and whether it returns success; there is no next state where a null pointer is followed. -/
def step (w : State) : Op → Option (State × Bool)
  | .regDs dsId => some (regDs w dsId, decide (dsId ∉ w.dsIdV))
  | .regApp appId dsId => some ((regApp w appId dsId).getD w, (regApp w appId dsId).isSome)
  | .put pId d dsId => putTo w pId d dsId

/-- The operations one after the other, with their outcomes. -/
def run (w : State) : List Op → Option (State × List Bool)
  | [] => some (w, [])
  | op :: ops => (step w op).bind fun r => (run r.1 ops).map fun t => (t.1, r.2 :: t.2)

/-- The DS that the operation names; −1 stands for the DS of the app. -/
def Refers (x : Int32) : Op → Prop
  | .regDs dsId => dsId = x
  | .regApp _ dsId => dsId = x
  | .put _ _ dsId => dsId ≠ -1 ∧ dsId = x

/-- What every buffer is told by an operation: the producer and its key-version. -/
def tells (w : State) : Op → List (Int32 × KeyVer)
  | .put pId d dsId => if dsId = -1 ∧ (w.appDsId pId).isSome then [(pId, kvOf d)] else []
  | _ => []

def told (w : State) : List Op → List (Int32 × KeyVer)
  | [] => []
  | op :: ops => tells w op ++ (step w op).elim [] fun r => told r.1 ops

/-- The map from key-version to producer and the queue of each producer. -/
abbrev Registrations := (KeyVer → Option Int32) × (Int32 → Option (List KeyVer))

def registrations (b : MPBuffer.State) : Registrations := (b.kvPId, b.pIdRegedKvDeq)

/-- The registrations of DS `x` at the end when it joins before operation `i`. -/
def joinAt (w : State) (x : Int32) (ops : List Op) (i : Nat) : Option Registrations :=
  (run w (ops.take i ++ .regDs x :: ops.drop i)).bind fun r => (r.1.dsMpbuffer x).map registrations

/-- The DS ends up with the same registrations wherever it joins. -/
def JoinsAlike (w : State) (x : Int32) (ops : List Op) : Prop :=
  ∃ regs, ∀ i, i ≤ ops.length → joinAt w x ops i = some regs

/-- No key-version is put as new data by two apps. -/
def OneProducer (l : List (Int32 × KeyVer)) : Prop :=
  ∀ p q kv, (p, kv) ∈ l → (q, kv) ∈ l → p = q

instance (x : Int32) (op : Op) : Decidable (Refers x op) :=
  match op with
  | .regDs dsId => decEq dsId x
  | .regApp _ dsId => decEq dsId x
  | .put _ _ dsId => instDecidableAnd (p := dsId ≠ -1) (q := dsId = x)

/-! ## Buffers -/

def regAll (b : MPBuffer.State) (l : List (Int32 × KeyVer)) : MPBuffer.State :=
  l.foldl (fun b r => regKeyVer b r.1 r.2) b

/-- What `reg_ds` tells the new buffer. -/
def known (w : State) : List (Int32 × KeyVer) := w.kvV.map fun kv => ((w.kvPId kv).getD 0, kv)

def newBuffer (w : State) (x : Int32) : MPBuffer.State :=
  regAll (MPBuffer.init x w.maxNumKeyVerInMpbuffer w.wPrefetch) (known w)

theorem regAll_append (b : MPBuffer.State) (l l' : List (Int32 × KeyVer)) :
    regAll b (l ++ l') = regAll (regAll b l) l' := List.foldl_append

theorem regDs_new {w : State} {x : Int32} (hx : x ∉ w.dsIdV) :
    (regDs w x).dsMpbuffer = update w.dsMpbuffer x (some (newBuffer w x)) := by
  have hfold : newBuffer w x = w.kvV.foldl (fun b kv => regKeyVer b ((w.kvPId kv).getD 0) kv)
      (MPBuffer.init x w.maxNumKeyVerInMpbuffer w.wPrefetch) := by
    rw [newBuffer, regAll, known, List.foldl_map]
  rw [regDs, if_neg hx, hfold]

/-- A key-version keeps the producer it is first registered for. -/
theorem regKeyVer_keeps {b : MPBuffer.State} {p q : Int32} {kv kv' : KeyVer} (h : b.kvPId kv = some q) :
    (regKeyVer b p kv').kvPId kv = some q := by
  unfold regKeyVer
  split
  · exact h
  · rename_i hnew
    have hne : kv ≠ kv' := by
      rintro rfl
      exact hnew (by rw [h]; rfl)
    split
    · exact (update_of_ne hne _ _).trans h
    · exact (update_of_ne hne _ _).trans h

theorem regKeyVer_registers {b : MPBuffer.State} {p : Int32} {kv : KeyVer} (h : b.kvPId kv = none) :
    (regKeyVer b p kv).kvPId kv = some p := by
  unfold regKeyVer
  rw [if_neg (by rw [h]; simp)]
  split
  · exact update_self _ _ _
  · exact update_self _ _ _

theorem regAll_keeps {b : MPBuffer.State} {q : Int32} {kv : KeyVer} (l : List (Int32 × KeyVer))
    (h : b.kvPId kv = some q) : (regAll b l).kvPId kv = some q := by
  induction l generalizing b with
  | nil => exact h
  | cons r l ih => exact ih (regKeyVer_keeps h)

/-- What a buffer registers does not depend on its other fields. -/
theorem regKeyVer_registrations {b b' : MPBuffer.State} (h : registrations b = registrations b') (p : Int32)
    (kv : KeyVer) : registrations (regKeyVer b p kv) = registrations (regKeyVer b' p kv) := by
  obtain ⟨hkv, hdeq⟩ := Prod.mk.inj h
  unfold regKeyVer
  rw [hkv, hdeq]
  split
  · exact h
  · split <;> rfl

theorem regAll_registrations {b b' : MPBuffer.State} (h : registrations b = registrations b')
    (l : List (Int32 × KeyVer)) : registrations (regAll b l) = registrations (regAll b' l) := by
  induction l generalizing b b' with
  | nil => exact h
  | cons r l ih => exact ih (regKeyVer_registrations h r.1 r.2)

/-- With one producer named for a key-version, that is the producer. -/
theorem regAll_registers {b : MPBuffer.State} {p : Int32} {kv : KeyVer} {l : List (Int32 × KeyVer)}
    (hnew : b.kvPId kv = none) (hmem : (p, kv) ∈ l) (hone : ∀ q, (q, kv) ∈ l → q = p) :
    (regAll b l).kvPId kv = some p := by
  induction l generalizing b with
  | nil => cases hmem
  | cons r l ih =>
    obtain ⟨q, kv'⟩ := r
    show (regAll (regKeyVer b q kv') l).kvPId kv = some p
    by_cases hkv : kv' = kv
    · subst hkv
      have hq : q = p := hone q List.mem_cons_self
      subst hq
      exact regAll_keeps l (regKeyVer_registers hnew)
    · have hnew' : (regKeyVer b q kv').kvPId kv = none := by
        unfold regKeyVer
        split
        · exact hnew
        · split
          · exact (update_of_ne (Ne.symm hkv) _ _).trans hnew
          · exact (update_of_ne (Ne.symm hkv) _ _).trans hnew
      have hmem' : (p, kv) ∈ l := by
        cases hmem with
        | head => exact absurd rfl hkv
        | tail _ h => exact h
      exact ih hnew' hmem' fun q hq => hone q (List.mem_cons_of_mem _ hq)

/-! ## Two runs beside each other -/

/-- Nothing of the directory is at the DS. -/
structure Away (x : Int32) (w : State) : Prop where
  unlisted : x ∉ w.dsIdV
  apps : ∀ appId, w.appDsId appId ≠ some x

/-- The run with the join beside the run without it: they differ at the DS alone. -/
structure Beside (x : Int32) (w w' : State) (b : MPBuffer.State) : Prop where
  maxNum : w'.maxNumKeyVerInMpbuffer = w.maxNumKeyVerInMpbuffer
  wPrefetch : w'.wPrefetch = w.wPrefetch
  appDsId : w'.appDsId = w.appDsId
  kvV : w'.kvV = w.kvV
  kvPId : w'.kvPId = w.kvPId
  dsIdV : ∀ y, y ≠ x → (y ∈ w'.dsIdV ↔ y ∈ w.dsIdV)
  dsKv : ∀ y, y ≠ x → w'.dsKv y = w.dsKv y
  dsMpbuffer : ∀ y, y ≠ x → w'.dsMpbuffer y = w.dsMpbuffer y
  buffer : w'.dsMpbuffer x = some b

section Beside
variable {x : Int32} {w w' : State} {b : MPBuffer.State}

theorem regDs_beside (h : x ∉ w.dsIdV) : Beside x w (regDs w x) (newBuffer w x) := by
  have hbuf := regDs_new h
  constructor
  · simp [regDs, h]
  · simp [regDs, h]
  · simp [regDs, h]
  · exact regDs_kvV w x
  · simp [regDs, h]
  · intro y hy
    simp [regDs, h, hy]
  · intro y hy
    simp [regDs, h, hy]
  · intro y hy
    rw [hbuf]
    exact update_of_ne hy _ _
  · rw [hbuf]
    exact update_self _ _ _

theorem Beside.known (h : Beside x w w' b) : known w' = known w := by
  rw [LateJoin.known, LateJoin.known, h.kvV, h.kvPId]

theorem Beside.regDs (h : Beside x w w' b) {y : Int32} (hy : y ≠ x) : Beside x (regDs w y) (regDs w' y) b := by
  have hmem := h.dsIdV y hy
  by_cases hin : y ∈ w.dsIdV
  · rwa [MWASpace.regDs, MWASpace.regDs, if_pos hin, if_pos (hmem.mpr hin)]
  · have hin' : y ∉ w'.dsIdV := fun hin' => hin (hmem.mp hin')
    have hnew : newBuffer w' y = newBuffer w y := by
      rw [newBuffer, newBuffer, h.known, h.maxNum, h.wPrefetch]
    have hbuf := regDs_new hin
    have hbuf' := regDs_new hin'
    constructor
    · simpa [MWASpace.regDs, hin, hin'] using h.maxNum
    · simpa [MWASpace.regDs, hin, hin'] using h.wPrefetch
    · simpa [MWASpace.regDs, hin, hin'] using h.appDsId
    · simpa only [regDs_kvV] using h.kvV
    · simpa [MWASpace.regDs, hin, hin'] using h.kvPId
    · intro z hz
      simp [MWASpace.regDs, hin, hin', h.dsIdV z hz]
    · intro z hz
      by_cases hzy : z = y
      · simp [MWASpace.regDs, hin, hin', hzy]
      · simp [MWASpace.regDs, hin, hin', hzy, h.dsKv z hz]
    · intro z hz
      rw [hbuf, hbuf', hnew]
      by_cases hzy : z = y
      · rw [hzy, update_self, update_self]
      · rw [update_of_ne hzy, update_of_ne hzy, h.dsMpbuffer z hz]
    · rw [hbuf', update_of_ne (Ne.symm hy)]
      exact h.buffer

theorem Beside.regApp (h : Beside x w w' b) (appId y : Int32) :
    (regApp w' appId y).isSome = (regApp w appId y).isSome ∧
      Beside x ((regApp w appId y).getD w) ((regApp w' appId y).getD w') b := by
  unfold MWASpace.regApp
  rw [h.appDsId]
  split
  · exact ⟨rfl, h⟩
  · exact ⟨rfl, ⟨h.maxNum, h.wPrefetch, rfl, h.kvV, h.kvPId, h.dsIdV, h.dsKv, h.dsMpbuffer, h.buffer⟩⟩

theorem Beside.regKv (h : Beside x w w' b) (pId : Int32) (d : Datum) :
    Beside x (regKv w pId d) (regKv w' pId d) (regKeyVer b pId (kvOf d)) := by
  constructor
  · exact h.maxNum
  · exact h.wPrefetch
  · exact h.appDsId
  · show w'.kvV ++ [kvOf d] = w.kvV ++ [kvOf d]
    rw [h.kvV]
  · show update w'.kvPId _ _ = update w.kvPId _ _
    rw [h.kvPId]
  · exact h.dsIdV
  · exact h.dsKv
  · intro y hy
    show (w'.dsMpbuffer y).map _ = (w.dsMpbuffer y).map _
    rw [h.dsMpbuffer y hy]
  · show (w'.dsMpbuffer x).map _ = _
    rw [h.buffer]
    rfl

theorem Beside.pushKv (h : Beside x w w' b) {y : Int32} (hy : y ≠ x) {kv : KeyVer} {w₁ : State}
    (hpush : pushKv w y kv = some w₁) : ∃ w₁', pushKv w' y kv = some w₁' ∧ Beside x w₁ w₁' b := by
  have hsame := h.dsKv y hy
  unfold MWASpace.pushKv at hpush ⊢
  split at hpush
  · cases hpush
  · rename_i kvV hkv
    obtain rfl := Option.some.inj hpush
    split
    · rename_i hnone
      rw [hsame, hkv] at hnone
      cases hnone
    · rename_i kvV' hkv'
      have hlist : kvV' = kvV := Option.some.inj (hkv'.symm.trans (hsame.trans hkv))
      refine ⟨_, rfl, ⟨h.maxNum, h.wPrefetch, h.appDsId, h.kvV, h.kvPId, h.dsIdV, ?_, h.dsMpbuffer, h.buffer⟩⟩
      intro z hz
      show update w'.dsKv y (some (kvV' ++ [kv])) z = update w.dsKv y (some (kvV ++ [kv])) z
      rw [hlist]
      by_cases hzy : z = y
      · rw [hzy, update_self, update_self]
      · rw [update_of_ne hzy, update_of_ne hzy, h.dsKv z hz]

theorem Beside.contains (h : Beside x w w' b) {y : Int32} (hy : y ≠ x) (kv : KeyVer) :
    contains w' y kv = contains w y kv := by
  unfold MWASpace.contains ownKv cached
  rw [h.kvV, h.dsKv y hy, h.dsMpbuffer y hy]

/-- An operation has the same outcome in both runs, and they stay beside each other. -/
theorem Beside.step (h : Beside x w w' b) (haway : Away x w) {op : Op} (hop : ¬Refers x op)
    {r : State × Bool} (hs : step w op = some r) :
    ∃ w₁', step w' op = some (w₁', r.2) ∧ Beside x r.1 w₁' (regAll b (tells w op)) := by
  cases op with
  | regDs y =>
    obtain rfl := Option.some.inj hs
    have hmem := h.dsIdV y hop
    refine ⟨_, ?_, h.regDs hop⟩
    show some (MWASpace.regDs w' y, decide (y ∉ w'.dsIdV)) = some (_, decide (y ∉ w.dsIdV))
    simp only [hmem]
  | regApp appId y =>
    obtain rfl := Option.some.inj hs
    obtain ⟨houtcome, hbeside⟩ := h.regApp appId y
    refine ⟨_, ?_, hbeside⟩
    show some (_, (MWASpace.regApp w' appId y).isSome) = some (_, (MWASpace.regApp w appId y).isSome)
    rw [houtcome]
  | put pId d y =>
    change putTo w pId d y = some r at hs
    show ∃ w₁', putTo w' pId d y = some (w₁', r.2) ∧ _
    unfold putTo at hs ⊢
    by_cases hy : y = -1
    · rw [if_pos hy] at hs ⊢
      unfold put at hs ⊢
      rw [h.appDsId]
      cases happ : w.appDsId pId with
      | none =>
        simp only [happ, Option.some.injEq] at hs
        subst hs
        exact ⟨w', rfl, by simpa [tells, happ, regAll] using h⟩
      | some z =>
        simp only [happ, Option.map_eq_some_iff] at hs
        obtain ⟨w₁, hpush, rfl⟩ := hs
        have hz : z ≠ x := by
          rintro rfl
          exact haway.apps pId happ
        obtain ⟨w₁', hpush', hbeside⟩ := (h.regKv pId d).pushKv hz hpush
        refine ⟨w₁', ?_, ?_⟩
        · simp only [hpush', Option.map_some]
        · simpa [tells, hy, happ, regAll] using hbeside
    · have hne : y ≠ x := fun hyx => hop ⟨hy, hyx⟩
      rw [if_neg hy] at hs ⊢
      rw [h.contains hne]
      have htells : tells w (.put pId d y) = [] := by simp [tells, hy]
      rw [htells]
      split at hs
      · rename_i hc
        obtain rfl := Option.some.inj hs
        exact ⟨w', by rw [if_pos hc], h⟩
      · rename_i hc
        simp only [Option.map_eq_some_iff] at hs
        obtain ⟨w₁, hpush, rfl⟩ := hs
        obtain ⟨w₁', hpush', hbeside⟩ := h.pushKv hne hpush
        exact ⟨w₁', by rw [if_neg hc, hpush', Option.map_some], hbeside⟩

end Beside

/-! ## Runs -/

section Runs
variable {x : Int32} {w w' : State} {b : MPBuffer.State}

theorem Away.step (h : Away x w) {op : Op} (hop : ¬Refers x op) {r : State × Bool} (hs : step w op = some r) :
    Away x r.1 := by
  cases op with
  | regDs y =>
    obtain rfl := Option.some.inj hs
    have hy : y ≠ x := hop
    show Away x (regDs w y)
    unfold regDs
    split
    · exact h
    · refine ⟨?_, h.apps⟩
      intro hmem
      cases List.mem_append.mp hmem with
      | inl hold => exact h.unlisted hold
      | inr hnew => exact hy (List.mem_singleton.mp hnew).symm
  | regApp appId y =>
    obtain rfl := Option.some.inj hs
    have hy : y ≠ x := hop
    show Away x ((regApp w appId y).getD w)
    unfold regApp
    split
    · exact h
    · refine ⟨h.unlisted, fun a ha => ?_⟩
      by_cases haa : a = appId
      · subst haa
        have hself : update w.appDsId a (some y) a = some x := ha
        rw [update_self] at hself
        exact hy (Option.some.inj hself)
      · have hother : update w.appDsId appId (some y) a = some x := ha
        rw [update_of_ne haa] at hother
        exact h.apps a hother
  | put pId d y =>
    obtain ⟨w₁, done⟩ := r
    rcases putTo_cases hs with ⟨rfl, -, -⟩ | ⟨-, -, z, -, hpush⟩ | ⟨-, -, -, hpush⟩
    · exact h
    · exact ⟨hpush.dsIdV ▸ h.unlisted, hpush.appDsId ▸ h.apps⟩
    · exact ⟨hpush.dsIdV ▸ h.unlisted, hpush.appDsId ▸ h.apps⟩

/-- What the directory keeps of what the buffers have been told. -/
structure Told (w : State) (l : List (Int32 × KeyVer)) : Prop where
  kvV : w.kvV = l.map (·.2)
  pId : ∀ kv p, w.kvPId kv = some p → (p, kv) ∈ l
  all : ∀ kv ∈ w.kvV, (w.kvPId kv).isSome

theorem Told.step {l : List (Int32 × KeyVer)} (h : Told w l) {op : Op} {r : State × Bool} (hs : step w op = some r) :
    Told r.1 (l ++ tells w op) := by
  cases op with
  | regDs y =>
    obtain rfl := Option.some.inj hs
    have hkeep : (regDs w y).kvPId = w.kvPId := by
      unfold regDs
      split <;> rfl
    refine ⟨?_, ?_, ?_⟩
    · simpa only [regDs_kvV, tells, List.append_nil] using h.kvV
    · simpa only [hkeep, tells, List.append_nil] using h.pId
    · simpa only [regDs_kvV, hkeep] using h.all
  | regApp appId y =>
    obtain rfl := Option.some.inj hs
    show Told ((regApp w appId y).getD w) (l ++ [])
    rw [List.append_nil]
    unfold regApp
    split
    · exact h
    · exact ⟨h.kvV, h.pId, h.all⟩
  | put pId d y =>
    obtain ⟨w₁, done⟩ := r
    rcases putTo_cases hs with ⟨rfl, -, hwhy⟩ | ⟨-, hy, z, happ, hpush⟩ | ⟨-, hy, -, hpush⟩
    · have htells : tells w₁ (.put pId d y) = [] := by
        rcases hwhy with ⟨-, happ⟩ | ⟨hy, -⟩
        · simp [tells, happ]
        · simp [tells, hy]
      rw [htells, List.append_nil]
      exact h
    · have htells : tells w (.put pId d y) = [(pId, kvOf d)] := by simp [tells, hy, happ]
      have hkvV : w₁.kvV = w.kvV ++ [kvOf d] := hpush.kvV
      have hpId : w₁.kvPId = update w.kvPId (kvOf d) (some pId) := hpush.kvPId
      rw [htells]
      refine ⟨?_, ?_, ?_⟩
      · simp only [hkvV, h.kvV, List.map_append, List.map_cons, List.map_nil]
      · intro kv p hkv
        simp only [hpId] at hkv
        by_cases hsame : kv = kvOf d
        · subst hsame
          rw [update_self] at hkv
          obtain rfl := Option.some.inj hkv
          exact List.mem_append_right _ List.mem_cons_self
        · rw [update_of_ne hsame] at hkv
          exact List.mem_append_left _ (h.pId kv p hkv)
      · intro kv hkv
        simp only [hkvV, List.mem_append, List.mem_singleton] at hkv
        simp only [hpId]
        by_cases hsame : kv = kvOf d
        · subst hsame
          rw [update_self]
          rfl
        · rw [update_of_ne hsame]
          exact h.all kv (hkv.resolve_right hsame)
    · have htells : tells w (.put pId d y) = [] := by simp [tells, hy]
      rw [htells, List.append_nil]
      refine ⟨?_, ?_, ?_⟩
      · simpa only [hpush.kvV] using h.kvV
      · simpa only [hpush.kvPId] using h.pId
      · simpa only [hpush.kvV, hpush.kvPId] using h.all

theorem run_cons {op : Op} {ops : List Op} {t : State × List Bool} (h : run w (op :: ops) = some t) :
    ∃ r t', step w op = some r ∧ run r.1 ops = some t' ∧ t = (t'.1, r.2 :: t'.2) := by
  obtain ⟨r, hs, hrest⟩ := Option.bind_eq_some_iff.mp h
  obtain ⟨t', ht, heq⟩ := Option.map_eq_some_iff.mp hrest
  exact ⟨r, t', hs, ht, heq.symm⟩

/-- A run taken apart at any position. -/
theorem run_split (ops ops' : List Op) {t : State × List Bool} (h : run w (ops ++ ops') = some t) :
    ∃ u v, run w ops = some u ∧ run u.1 ops' = some v ∧ t = (v.1, u.2 ++ v.2) ∧
      told w (ops ++ ops') = told w ops ++ told u.1 ops' := by
  induction ops generalizing w t with
  | nil => exact ⟨(w, []), t, rfl, h, rfl, rfl⟩
  | cons op ops ih =>
    obtain ⟨r, t', hs, ht, rfl⟩ := run_cons h
    obtain ⟨u, v, hu, hv, rfl, htold⟩ := ih ht
    refine ⟨(u.1, r.2 :: u.2), v, ?_, hv, rfl, ?_⟩
    · simp only [run, hs, Option.bind_some, hu, Option.map_some]
    · simp only [List.cons_append, told, hs, Option.elim_some, htold, List.append_assoc]

theorem run_join (ops ops' : List Op) {u v : State × List Bool} (hu : run w ops = some u)
    (hv : run u.1 ops' = some v) : run w (ops ++ ops') = some (v.1, u.2 ++ v.2) := by
  induction ops generalizing w u with
  | nil =>
    obtain rfl := Option.some.inj hu
    exact hv
  | cons op ops ih =>
    obtain ⟨r, u', hs, hu', rfl⟩ := run_cons hu
    simp only [List.cons_append, run, hs, Option.bind_some, ih hu' hv, Option.map_some]

theorem Away.run {ops : List Op} (h : Away x w) (hops : ∀ op ∈ ops, ¬Refers x op) {t : State × List Bool}
    (ht : run w ops = some t) : Away x t.1 := by
  induction ops generalizing w t with
  | nil =>
    obtain rfl := Option.some.inj ht
    exact h
  | cons op ops ih =>
    obtain ⟨r, t', hs, ht', rfl⟩ := run_cons ht
    have hrest : Away x t'.1 :=
      ih (h.step (hops op List.mem_cons_self) hs) (fun o ho => hops o (List.mem_cons_of_mem _ ho)) ht'
    exact hrest

theorem Told.run {ops : List Op} {l : List (Int32 × KeyVer)} (h : Told w l) {t : State × List Bool}
    (ht : run w ops = some t) : Told t.1 (l ++ told w ops) := by
  induction ops generalizing w l t with
  | nil =>
    obtain rfl := Option.some.inj ht
    simpa [told] using h
  | cons op ops ih =>
    obtain ⟨r, t', hs, ht', rfl⟩ := run_cons ht
    have htold : told w (op :: ops) = tells w op ++ told r.1 ops := by simp only [told, hs, Option.elim_some]
    have hrest : Told t'.1 (l ++ tells w op ++ told r.1 ops) := ih (h.step hs) ht'
    rw [htold, ← List.append_assoc]
    exact hrest

theorem Beside.run {ops : List Op} (h : Beside x w w' b) (haway : Away x w) (hops : ∀ op ∈ ops, ¬Refers x op)
    {t : State × List Bool} (ht : run w ops = some t) :
    ∃ w₁', run w' ops = some (w₁', t.2) ∧ Beside x t.1 w₁' (regAll b (told w ops)) := by
  induction ops generalizing w w' b t with
  | nil =>
    obtain rfl := Option.some.inj ht
    exact ⟨w', rfl, h⟩
  | cons op ops ih =>
    obtain ⟨r, t', hs, ht', rfl⟩ := run_cons ht
    have hop := hops op List.mem_cons_self
    obtain ⟨w₁', hs', hbeside⟩ := h.step haway hop hs
    obtain ⟨w₂', hrun', hend⟩ :=
      ih hbeside (haway.step hop hs) (fun o ho => hops o (List.mem_cons_of_mem _ ho)) ht'
    refine ⟨w₂', ?_, ?_⟩
    · simp only [LateJoin.run, hs', Option.bind_some, hrun', Option.map_some]
    · simpa only [told, hs, Option.elim_some, regAll_append] using hend

/-- Whatever the position of the join, the other operations have the same outcomes, and the new buffer
is told what is known before it and what is told after it. -/
theorem joinAt_eq {ops ops' : List Op} (haway : Away x w) (hops : ∀ op ∈ ops ++ ops', ¬Refers x op)
    {u v : State × List Bool} (hu : run w ops = some u) (hv : run u.1 ops' = some v) :
    ∃ w', run w (ops ++ .regDs x :: ops') = some (w', u.2 ++ true :: v.2) ∧
      w'.dsMpbuffer x = some (regAll (newBuffer u.1 x) (told u.1 ops')) := by
  have haway₁ : Away x u.1 := haway.run (fun op h => hops op (List.mem_append_left _ h)) hu
  obtain ⟨w', hrun, hbeside⟩ := (regDs_beside haway₁.unlisted).run haway₁
    (fun op h => hops op (List.mem_append_right _ h)) hv
  refine ⟨w', ?_, hbeside.buffer⟩
  have hjoin : run u.1 (.regDs x :: ops') = some (w', true :: v.2) := by
    simp only [run, step, Option.bind_some, hrun, Option.map_some, haway₁.unlisted, not_false_eq_true, decide_true]
  exact run_join ops _ hu hjoin

/-! ## The position of the join -/

/-- A run from the empty directory is split at any position, and the new buffer is told what the
directory keeps of the part before it. -/
theorem joinAt_some {n : Int} {wPrefetch : Bool} {ops : List Op} (hops : ∀ op ∈ ops, ¬Refers x op)
    {t : State × List Bool} (ht : run (empty n wPrefetch) ops = some t) (i : Nat) :
    ∃ u, run (empty n wPrefetch) (ops.take i) = some u ∧
      Told u.1 (told (empty n wPrefetch) (ops.take i)) ∧
      told (empty n wPrefetch) ops = told (empty n wPrefetch) (ops.take i) ++ told u.1 (ops.drop i) ∧
      joinAt (empty n wPrefetch) x ops i =
        some (registrations (regAll (newBuffer u.1 x) (told u.1 (ops.drop i)))) := by
  have hstart : Told (empty n wPrefetch) [] := by constructor <;> simp [empty]
  have haway : Away x (empty n wPrefetch) := by constructor <;> simp [empty]
  rw [← List.take_append_drop i ops] at ht hops
  obtain ⟨u, v, hu, hv, -, htold⟩ := run_split _ _ ht
  obtain ⟨w', hrun, hbuf⟩ := joinAt_eq haway hops hu hv
  refine ⟨u, hu, hstart.run hu, ?_, ?_⟩
  · rwa [List.take_append_drop] at htold
  · rw [joinAt, hrun, Option.bind_some, hbuf, Option.map_some]

/-- With one producer for each key-version the directory keeps exactly what it was told. -/
theorem Told.known_eq {l : List (Int32 × KeyVer)} (h : Told w l) (hone : OneProducer l) : known w = l := by
  rw [known, h.kvV, List.map_map]
  conv_rhs => rw [← List.map_id l]
  refine List.map_congr_left fun r hr => ?_
  obtain ⟨p, kv⟩ := r
  have hkv : kv ∈ w.kvV := by
    rw [h.kvV]
    exact List.mem_map.mpr ⟨(p, kv), hr, rfl⟩
  obtain ⟨q, hq⟩ := Option.isSome_iff_exists.mp (h.all kv hkv)
  have hqp : q = p := hone q p kv (h.pId kv q hq) hr
  show ((w.kvPId kv).getD 0, kv) = (p, kv)
  rw [hq, hqp]
  rfl

/-- What an operation tells the buffers the directory keeps too. -/
theorem tells_kept {op : Op} {r : State × Bool} (hs : step w op = some r) {p : Int32} {kv : KeyVer}
    (hmem : (p, kv) ∈ tells w op) : r.1.kvPId kv = some p ∧ kv ∈ r.1.kvV := by
  cases op with
  | regDs y => cases hmem
  | regApp appId y => cases hmem
  | put pId d y =>
    obtain ⟨w₁, done⟩ := r
    simp only [tells] at hmem
    split at hmem
    · rename_i hnew
      obtain ⟨rfl, rfl⟩ := Prod.mk.inj (List.mem_singleton.mp hmem)
      rcases putTo_cases hs with ⟨-, -, ⟨-, happ⟩ | ⟨hy, -⟩⟩ | ⟨-, -, z, -, hpush⟩ | ⟨-, hy, -⟩
      · rw [happ] at hnew
        exact absurd hnew.2 (by simp)
      · exact absurd hnew.1 hy
      · have hpId : w₁.kvPId = update w.kvPId (kvOf d) (some p) := hpush.kvPId
        have hkvV : w₁.kvV = w.kvV ++ [kvOf d] := hpush.kvV
        refine ⟨?_, ?_⟩
        · rw [hpId, update_self]
        · rw [hkvV]
          exact List.mem_append_right _ List.mem_cons_self
      · exact absurd hnew.1 hy
    · cases hmem

/-- What is told in a run is told by one of its operations. -/
theorem told_by {ops : List Op} {t : State × List Bool} (ht : run w ops = some t) {p : Int32} {kv : KeyVer}
    (hmem : (p, kv) ∈ told w ops) : ∃ A op B u r, ops = A ++ op :: B ∧ run w A = some u ∧
      step u.1 op = some r ∧ (p, kv) ∈ tells u.1 op := by
  induction ops generalizing w t with
  | nil => cases hmem
  | cons op ops ih =>
    obtain ⟨r, t', hs, ht', rfl⟩ := run_cons ht
    simp only [told, hs, Option.elim_some] at hmem
    cases List.mem_append.mp hmem with
    | inl hhere => exact ⟨[], op, ops, (w, []), r, rfl, rfl, hs, hhere⟩
    | inr hlater =>
      obtain ⟨A, op', B, u, r', rfl, hu, hs', hmem'⟩ := ih ht' hlater
      refine ⟨op :: A, op', B, (u.1, r.2 :: u.2), r', rfl, ?_, hs', hmem'⟩
      simp only [run, hs, Option.bind_some, hu, Option.map_some]

/-- A DS that joins right after a put registers the key-version for the app of that put. -/
theorem joins_after {n : Int} {wPrefetch : Bool} {ops : List Op} (hops : ∀ op ∈ ops, ¬Refers x op)
    {t : State × List Bool} (ht : run (empty n wPrefetch) ops = some t) {p : Int32} {kv : KeyVer}
    (hmem : (p, kv) ∈ told (empty n wPrefetch) ops) :
    ∃ i, i ≤ ops.length ∧ ∃ regs, joinAt (empty n wPrefetch) x ops i = some regs ∧ regs.1 kv = some p := by
  obtain ⟨A, op, B, u, r, rfl, hu, hs, htells⟩ := told_by ht hmem
  obtain ⟨hpId, hkv⟩ := tells_kept hs htells
  have hprefix : run (empty n wPrefetch) (A ++ [op]) = some (r.1, u.2 ++ [r.2]) := by
    have hlast : run u.1 [op] = some (r.1, [r.2]) := by
      simp only [run, hs, Option.bind_some, Option.map_some]
    exact run_join A [op] hu hlast
  obtain ⟨u', hu', -, -, hjoin⟩ := joinAt_some hops ht (A.length + 1)
  have htake : (A ++ op :: B).take (A.length + 1) = A ++ [op] := by
    rw [List.append_cons]
    exact List.take_left' (by rw [List.length_append, List.length_singleton])
  rw [htake, hprefix] at hu'
  obtain rfl := Option.some.inj hu'
  refine ⟨A.length + 1, by simp, _, hjoin, ?_⟩
  refine regAll_keeps _ (regAll_registers rfl ?_ ?_)
  · refine List.mem_map.mpr ⟨kv, hkv, ?_⟩
    show ((r.1.kvPId kv).getD 0, kv) = (p, kv)
    rw [hpId]
    rfl
  · intro q hq
    obtain ⟨kv', -, heq⟩ := List.mem_map.mp hq
    obtain ⟨rfl, rfl⟩ := Prod.mk.inj heq
    rw [hpId]
    rfl

end Runs

/-- A DS gets the same registrations wherever it joins exactly when no key-version is put as new data by
two different apps. -/
theorem joins_alike_iff {n : Int} {wPrefetch : Bool} {x : Int32} {ops : List Op} (hops : ∀ op ∈ ops, ¬Refers x op)
    (hrun : (run (empty n wPrefetch) ops).isSome) :
    JoinsAlike (empty n wPrefetch) x ops ↔ OneProducer (told (empty n wPrefetch) ops) := by
  obtain ⟨t, ht⟩ := Option.isSome_iff_exists.mp hrun
  constructor
  · rintro ⟨regs, hregs⟩ p q kv hp hq
    obtain ⟨i, hi, regs₁, hjoin₁, hp'⟩ := joins_after hops ht hp
    obtain ⟨j, hj, regs₂, hjoin₂, hq'⟩ := joins_after hops ht hq
    have hsame₁ : regs₁ = regs := Option.some.inj (hjoin₁.symm.trans (hregs i hi))
    have hsame₂ : regs₂ = regs := Option.some.inj (hjoin₂.symm.trans (hregs j hj))
    rw [hsame₁] at hp'
    rw [hsame₂] at hq'
    exact Option.some.inj (hp'.symm.trans hq')
  · intro hone
    refine ⟨registrations (regAll (MPBuffer.init x n wPrefetch) (told (empty n wPrefetch) ops)), fun i _ => ?_⟩
    obtain ⟨u, hu, hknown, htold, hjoin⟩ := joinAt_some hops ht i
    have hbefore : OneProducer (told (empty n wPrefetch) (ops.take i)) := by
      intro p q kv hp hq
      refine hone p q kv ?_ ?_
      · rw [htold]
        exact List.mem_append_left _ hp
      · rw [htold]
        exact List.mem_append_left _ hq
    rw [hjoin, newBuffer, hknown.known_eq hbefore, ← regAll_append, ← htold]
    have hinit : registrations (MPBuffer.init x u.1.maxNumKeyVerInMpbuffer u.1.wPrefetch) =
        registrations (MPBuffer.init x n wPrefetch) := rfl
    exact congrArg some (regAll_registrations hinit _)

/-- A key-version in one cell, put once, and once more by the same app. -/
theorem joins_alike_of_one_app : JoinsAlike (empty 1 true) 2 [.regDs 1, .regApp 7 1,
    .put 7 (SpaceRuns.cell "u") (-1), .put 7 (SpaceRuns.cell "u") (-1)] := by
  refine (joins_alike_iff (by decide) (by decide)).mpr ?_
  have htold : told (empty 1 true) [.regDs 1, .regApp 7 1, .put 7 (SpaceRuns.cell "u") (-1),
      .put 7 (SpaceRuns.cell "u") (-1)] = [(7, kvOf (SpaceRuns.cell "u")), (7, kvOf (SpaceRuns.cell "u"))] := by decide
  rw [htold]
  intro p q kv hp hq
  simp only [List.mem_cons, Prod.mk.injEq, List.not_mem_nil, or_false, or_self] at hp hq
  rw [hp.1, hq.1]

/-- Put by app 7 and then by app 8, a key-version is registered for app 7 by a DS that joins early and for
app 8 by one that joins late. -/
theorem join_position_shows :
    ((joinAt (empty 1 true) 2 [.regDs 1, .regApp 7 1, .regApp 8 1, .put 7 (SpaceRuns.cell "u") (-1),
        .put 8 (SpaceRuns.cell "u") (-1)] 0).bind fun regs => regs.1 (kvOf (SpaceRuns.cell "u"))) = some 7 ∧
    ((joinAt (empty 1 true) 2 [.regDs 1, .regApp 7 1, .regApp 8 1, .put 7 (SpaceRuns.cell "u") (-1),
        .put 8 (SpaceRuns.cell "u") (-1)] 5).bind fun regs => regs.1 (kvOf (SpaceRuns.cell "u"))) = some 8 ∧
    ¬JoinsAlike (empty 1 true) 2 [.regDs 1, .regApp 7 1, .regApp 8 1, .put 7 (SpaceRuns.cell "u") (-1),
        .put 8 (SpaceRuns.cell "u") (-1)] := by
  refine ⟨by decide, by decide, ?_⟩
  rintro ⟨regs, hregs⟩
  have hearly : (joinAt (empty 1 true) 2 [.regDs 1, .regApp 7 1, .regApp 8 1, .put 7 (SpaceRuns.cell "u") (-1),
      .put 8 (SpaceRuns.cell "u") (-1)] 0).bind (fun regs => regs.1 (kvOf (SpaceRuns.cell "u"))) = some 7 := by decide
  have hlate : (joinAt (empty 1 true) 2 [.regDs 1, .regApp 7 1, .regApp 8 1, .put 7 (SpaceRuns.cell "u") (-1),
      .put 8 (SpaceRuns.cell "u") (-1)] 5).bind (fun regs => regs.1 (kvOf (SpaceRuns.cell "u"))) = some 8 := by decide
  rw [hregs 0 (by decide)] at hearly
  rw [hregs 5 (by decide)] at hlate
  rw [Option.bind_some] at hearly hlate
  have hsame : (7 : Int32) = 8 := Option.some.inj (hearly.symm.trans hlate)
  exact absurd hsame (by decide)

end LateJoin
