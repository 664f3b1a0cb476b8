import DataspacesWa.MPBuffer
import DataspacesWa.Transition
import DataspacesWa.WASpace

/-!
# Runs of a prefetch buffer

A buffer alone, with handlers that return at once: registrations, accesses and
deletions one after another. The run keeps what has been registered, accessed,
picked for prefetching and asked of the handler. What is picked for a producer
is its step after the last one accessed, and no step is picked twice.
-/
namespace PrefetchSteps

open Function (update update_self update_of_ne)
open MPBuffer
open WASpace (DataAct)

/-! ## The operations in one piece -/

abbrev Action := DataAct × KeyVer

/-- `MPBuffer::del` -/
def del (b : State) (kv : KeyVer) : State × List Action :=
  if (b.kvPId kv).isSome ∧ Cache.contains b.cache kv then
    ({ b with cache := (Cache.del b.cache ((b.kvPId kv).getD 0) kv).getD b.cache }, [(.del, kv)])
  else (b, [])

/-- The prefetch loop of `add_access`: the room is looked at once the data has been asked for. -/
def prefetchAll (b : State) : List KeyVer → State × List Action
  | [] => (b, [])
  | kv :: kvV =>
    if b.wPrefetch then
      if Cache.size b.cache < b.maxNumKeyVer then
        let (b, acts) :=
          prefetchAll { b with cache := Cache.push b.cache ((b.kvPId kv).getD 0) kv } kvV
        (b, (.prefetch, kv) :: acts)
      else (b, [(.prefetch, kv)])
    else (b, [])

/-- One more step of its producer has been accessed. -/
def countAccess (b : State) (kv : KeyVer) : State :=
  let pId := (b.kvPId kv).getD 0
  { b with pIdLastAccedStep :=
      update b.pIdLastAccedStep pId (some ((b.pIdLastAccedStep pId).getD (-1) + 1)) }

/-- `MPBuffer::add_access`, with what it picks and what it asks of the handler. -/
def addAccessAll (b : State) (kv : KeyVer) (pIdV : List Int32) : State × List KeyVer × List Action :=
  if (b.kvPId kv).isNone then (b, [], [])
  else
    let (b, acts) := del b kv
    let (b, kvV) := getToPrefetch (countAccess b kv) pIdV
    let (b, acts') := prefetchAll b kvV
    (b, kvV, acts ++ acts')

/-! ## Runs -/

inductive Op where
  | regKeyVer : Int32 → KeyVer → Op
  | addAccess : KeyVer → List Int32 → Op
  | del : KeyVer → Op

structure Run where
  buffer : State
  reged : List (Int32 × KeyVer)
  acced : List KeyVer
  picked : List KeyVer
  acts : List Action

def start (dsId : Int32) (maxNumKeyVer : Int) (wPrefetch : Bool) : Run :=
  ⟨MPBuffer.init dsId maxNumKeyVer wPrefetch, [], [], [], []⟩

def step (r : Run) : Op → Run
  | .regKeyVer pId kv => { r with
      buffer := regKeyVer r.buffer pId kv
      reged := if kv ∈ r.reged.map (·.2) then r.reged else r.reged ++ [(pId, kv)] }
  | .addAccess kv pIdV =>
    let (b, kvV, acts) := addAccessAll r.buffer kv pIdV
    { r with
      buffer := b
      acced := if kv ∈ r.reged.map (·.2) then r.acced ++ [kv] else r.acced
      picked := r.picked ++ kvV
      acts := r.acts ++ acts }
  | .del kv =>
    let (b, acts) := del r.buffer kv
    { r with buffer := b, acts := r.acts ++ acts }

/-- The kvs registered for a producer, in the order of registration. -/
def regedOf (reged : List (Int32 × KeyVer)) (pId : Int32) : List KeyVer :=
  (reged.filter (·.1 = pId)).map (·.2)

/-- Those of the kvs that are registered for the producer. -/
def ofProducer (reged : List (Int32 × KeyVer)) (pId : Int32) (kvV : List KeyVer) : List KeyVer :=
  kvV.filter fun kv => (pId, kv) ∈ reged

def lastAcced (b : State) (pId : Int32) : Int := (b.pIdLastAccedStep pId).getD (-1)

def lastCached (b : State) (pId : Int32) : Int := (b.pIdLastCachedStep pId).getD (-1)

def frontStep (b : State) (pId : Int32) : Nat := (b.pIdFrontStepInDeq pId).toNat

/-! ## Indices -/

/-- The buffer holds what is registered and not yet dropped, and its counters are steps of it. -/
structure Indexed (b : State) (reged : List (Int32 × KeyVer)) : Prop where
  kvPId : ∀ kv pId, b.kvPId kv = some pId ↔ (pId, kv) ∈ reged
  nodup : (reged.map (·.2)).Nodup
  deq : ∀ pId, (b.pIdRegedKvDeq pId).getD [] = (regedOf reged pId).drop (frontStep b pId)
  fresh : ∀ pId, b.pIdRegedKvDeq pId = none → regedOf reged pId = []
  nonneg : ∀ pId, 0 ≤ b.pIdFrontStepInDeq pId
  front_le : ∀ pId, frontStep b pId ≤ (regedOf reged pId).length
  lowest : ∀ pId, -1 ≤ lastAcced b pId ∧ -1 ≤ lastCached b pId
  cached : ∀ pId, lastCached b pId ≤ lastAcced b pId + 1
  front : ∀ pId, (frontStep b pId : Int) ≤ max (lastCached b pId) (lastAcced b pId) + 1

section Indexed
variable {b : State} {reged : List (Int32 × KeyVer)} {pId : Int32} {kv : KeyVer}

theorem init_indexed (dsId : Int32) (maxNumKeyVer : Int) (wPrefetch : Bool) :
    Indexed (MPBuffer.init dsId maxNumKeyVer wPrefetch) [] := by
  constructor <;> simp [MPBuffer.init, regedOf, frontStep, lastAcced, lastCached]

/-- The cache has no part in it. -/
theorem Indexed.setCache (h : Indexed b reged) (cache : Cache.State Int32 KeyVer) :
    Indexed { b with cache := cache } reged :=
  ⟨h.kvPId, h.nodup, h.deq, h.fresh, h.nonneg, h.front_le, h.lowest, h.cached, h.front⟩

theorem regedOf_append (q : Int32) : regedOf (reged ++ [(pId, kv)]) q =
    regedOf reged q ++ if pId = q then [kv] else [] := by
  by_cases hq : pId = q <;> simp [regedOf, hq]

theorem Indexed.reged_iff (h : Indexed b reged) : (b.kvPId kv).isSome = true ↔ kv ∈ reged.map (·.2) := by
  simp only [Option.isSome_iff_exists, h.kvPId, List.mem_map]
  constructor
  · rintro ⟨p, hp⟩
    exact ⟨(p, kv), hp, rfl⟩
  · rintro ⟨⟨p, _⟩, hp, rfl⟩
    exact ⟨p, hp⟩

/-- A new registration goes to the end of its queue, whether there was one or not. -/
theorem regKeyVer_new (h : Indexed b reged) (hkv : ¬(b.kvPId kv).isSome) : regKeyVer b pId kv = { b with
    kvPId := update b.kvPId kv (some pId)
    pIdRegedKvDeq := update b.pIdRegedKvDeq pId (some ((b.pIdRegedKvDeq pId).getD [] ++ [kv])) } := by
  unfold regKeyVer
  rw [if_neg hkv]
  cases hdeq : b.pIdRegedKvDeq pId with
  | some deq => rfl
  | none =>
    have hzero : frontStep b pId = 0 := by simpa [h.fresh pId hdeq] using h.front_le pId
    have hfront : b.pIdFrontStepInDeq pId = 0 := by
      have := h.nonneg pId
      simp only [frontStep] at hzero
      omega
    have hsame : update b.pIdFrontStepInDeq pId 0 = b.pIdFrontStepInDeq := by
      rw [← hfront, Function.update_eq_self]
    simp [hsame]

theorem regKeyVer_indexed (h : Indexed b reged) (pId : Int32) (kv : KeyVer) : Indexed (regKeyVer b pId kv)
    (if kv ∈ reged.map (·.2) then reged else reged ++ [(pId, kv)]) := by
  by_cases hkv : (b.kvPId kv).isSome
  · rw [if_pos (h.reged_iff.mp hkv), regKeyVer, if_pos hkv]
    exact h
  have hnew : kv ∉ reged.map (·.2) := fun hmem => hkv (h.reged_iff.mpr hmem)
  rw [if_neg hnew, regKeyVer_new h hkv]
  refine ⟨?_, ?_, ?_, ?_, h.nonneg, ?_, h.lowest, h.cached, h.front⟩
  · intro kv' q
    by_cases hkv' : kv' = kv
    · subst hkv'
      have hnone : (q, kv') ∉ reged := fun hmem => hnew (List.mem_map_of_mem hmem)
      simp [hnone, eq_comm]
    · simp [hkv', h.kvPId]
  · rw [List.map_append, List.map_singleton, List.nodup_append]
    refine ⟨h.nodup, by simp, ?_⟩
    rintro x hx _ hy rfl
    obtain rfl : x = kv := List.mem_singleton.mp hy
    exact hnew hx
  · intro q
    rw [regedOf_append]
    show (update b.pIdRegedKvDeq pId _ q).getD [] = List.drop (frontStep b q) _
    by_cases hq : q = pId
    · subst hq
      rw [update_self, Option.getD_some, if_pos rfl, List.drop_append_of_le_length (h.front_le q), h.deq]
    · rw [update_of_ne hq, if_neg (Ne.symm hq), List.append_nil]
      exact h.deq q
  · intro q hq
    by_cases hqp : q = pId
    · simp [hqp] at hq
    · rw [regedOf_append, if_neg (Ne.symm hqp), List.append_nil]
      exact h.fresh q (by simpa [hqp] using hq)
  · intro q
    rw [regedOf_append, List.length_append]
    exact Nat.le_add_right_of_le (h.front_le q)

/-- An access moves its producer one step on. -/
theorem lastAcced_countAccess (b : State) (kv : KeyVer) (q : Int32) : lastAcced (countAccess b kv) q =
    lastAcced b q + if q = (b.kvPId kv).getD 0 then 1 else 0 := by
  by_cases hq : q = (b.kvPId kv).getD 0 <;> simp [lastAcced, countAccess, hq]

theorem countAccess_indexed (h : Indexed b reged) (kv : KeyVer) : Indexed (countAccess b kv) reged := by
  have hle : ∀ q, lastAcced b q ≤ lastAcced (countAccess b kv) q := by
    intro q
    rw [lastAcced_countAccess]
    split <;> omega
  refine ⟨h.kvPId, h.nodup, h.deq, h.fresh, h.nonneg, h.front_le, ?_, ?_, ?_⟩
  · intro q
    exact ⟨Int.le_trans (h.lowest q).1 (hle q), (h.lowest q).2⟩
  · intro q
    have hcached : lastCached (countAccess b kv) q ≤ lastAcced b q + 1 := h.cached q
    have := hle q
    omega
  · intro q
    have hfront : (frontStep (countAccess b kv) q : Int) ≤ max (lastCached (countAccess b kv) q) (lastAcced b q) + 1 :=
      h.front q
    have := hle q
    omega

end Indexed

/-! ## What is picked -/

theorem dropBefore_eq (step : Int) (f : Int) (deq : List KeyVer) :
    dropBefore step f deq = (f + min (step - f).toNat deq.length, deq.drop (step - f).toNat) := by
  induction deq generalizing f with
  | nil => simp [dropBefore]
  | cons kv deq ih =>
    unfold dropBefore
    split
    · have hsucc : (step - f).toNat = (step - (f + 1)).toNat + 1 := by omega
      rw [ih, hsucc, List.drop_succ_cons, List.length_cons, Prod.mk.injEq]
      refine ⟨?_, rfl⟩
      omega
    · have hzero : (step - f).toNat = 0 := by omega
      simp [hzero]

/-- The step after the last one accessed, with the zero that the map gives for a producer never accessed. -/
def nextStep (b : State) (pId : Int32) : Nat := ((b.pIdLastAccedStep pId).getD 0 + 1).toNat

/-- What a producer has to offer: its next step, unless this has been picked already. -/
def due (b : State) (reged : List (Int32 × KeyVer)) (pId : Int32) : List KeyVer :=
  if lastCached b pId < nextStep b pId then ((regedOf reged pId)[nextStep b pId]?).toList else []

/-- What a round of the loop does to the counters of the producer. -/
structure Picks (b b' : State) (pId : Int32) (kvV : List KeyVer) : Prop where
  lastAcced : ∀ q, b'.pIdLastAccedStep q =
    if q = pId then some ((b.pIdLastAccedStep pId).getD 0) else b.pIdLastAccedStep q
  lastCached : ∀ q, lastCached b' q = if q = pId ∧ lastCached b pId < nextStep b pId then
    (nextStep b pId : Int) - 1 + kvV.length else lastCached b q
  kvPId : b'.kvPId = b.kvPId

section Picked
variable {b : State} {reged : List (Int32 × KeyVer)}

/-- What changes for one producer alone is checked for this producer alone. -/
theorem Indexed.change (h : Indexed b reged) {b' : State} (pId : Int32) (hkv : b'.kvPId = b.kvPId)
    (hother : ∀ q, q ≠ pId → b'.pIdRegedKvDeq q = b.pIdRegedKvDeq q ∧
      b'.pIdFrontStepInDeq q = b.pIdFrontStepInDeq q ∧ b'.pIdLastAccedStep q = b.pIdLastAccedStep q ∧
      b'.pIdLastCachedStep q = b.pIdLastCachedStep q)
    (hdeq : (b'.pIdRegedKvDeq pId).getD [] = (regedOf reged pId).drop (frontStep b' pId))
    (hfresh : b'.pIdRegedKvDeq pId = none → b.pIdRegedKvDeq pId = none)
    (hnonneg : 0 ≤ b'.pIdFrontStepInDeq pId) (hle : frontStep b' pId ≤ (regedOf reged pId).length)
    (hlowest : -1 ≤ lastAcced b' pId ∧ -1 ≤ lastCached b' pId)
    (hcached : lastCached b' pId ≤ lastAcced b' pId + 1)
    (hfront : (frontStep b' pId : Int) ≤ max (lastCached b' pId) (lastAcced b' pId) + 1) : Indexed b' reged := by
  have hsame : ∀ q, q ≠ pId → frontStep b' q = frontStep b q ∧ lastAcced b' q = lastAcced b q ∧
      lastCached b' q = lastCached b q := by
    intro q hq
    obtain ⟨-, hf, ha, hc⟩ := hother q hq
    exact ⟨by rw [frontStep, hf, frontStep], by rw [lastAcced, ha, lastAcced], by rw [lastCached, hc, lastCached]⟩
  have hall : ∀ (P : Int32 → Prop), P pId → (∀ q, q ≠ pId → P q) → ∀ q, P q := by
    intro P hp hne q
    by_cases hq : q = pId
    · exact hq ▸ hp
    · exact hne q hq
  refine ⟨hkv ▸ h.kvPId, h.nodup, hall _ hdeq ?_, hall _ (fun hn => h.fresh _ (hfresh hn)) ?_,
    hall _ hnonneg ?_, hall _ hle ?_, hall _ hlowest ?_, hall _ hcached ?_, hall _ hfront ?_⟩ <;>
    intro q hq <;> obtain ⟨hf, ha, hc⟩ := hsame q hq <;> obtain ⟨hd, hf', -, -⟩ := hother q hq
  · rw [hd, hf]
    exact h.deq q
  · rw [hd]
    exact h.fresh q
  · rw [hf']
    exact h.nonneg q
  · rw [hf]
    exact h.front_le q
  · rw [ha, hc]
    exact h.lowest q
  · rw [ha, hc]
    exact h.cached q
  · rw [hf, ha, hc]
    exact h.front q

/-- The steps of the queue before the next one are dropped, and what is next is picked. -/
theorem getToPrefetchOf_spec (h : Indexed b reged) (kvV : List KeyVer) (pId : Int32) :
    ∃ b', getToPrefetchOf b kvV pId = (b', kvV ++ due b reged pId) ∧ Indexed b' reged ∧
      Picks b b' pId (due b reged pId) := by
  obtain ⟨hla, hlc⟩ := h.lowest pId
  have hnonneg := h.nonneg pId
  have hfront := h.front pId
  have hcached := h.cached pId
  have hfront_le := h.front_le pId
  generalize hlast : (b.pIdLastAccedStep pId).getD 0 = la
  have hle : lastAcced b pId ≤ la := by
    rw [← hlast, lastAcced]
    cases b.pIdLastAccedStep pId <;> simp
  have hstep : (nextStep b pId : Int) = la + 1 := by
    rw [nextStep, hlast]
    omega
  by_cases hpicked : la < lastCached b pId
  · -- the step after the last one accessed has been picked before
    have hdue : due b reged pId = [] := if_neg (by omega)
    let b' : State := { b with
      pIdLastAccedStep := update b.pIdLastAccedStep pId (some la)
      pIdLastCachedStep := update b.pIdLastCachedStep pId (some (lastCached b pId)) }
    have ha : lastAcced b' pId = la := by simp [b', lastAcced]
    have hc : lastCached b' pId = lastCached b pId := by simp [b', lastCached]
    have hf : frontStep b' pId = frontStep b pId := rfl
    refine ⟨b', ?_, ?_, ?_, ?_, rfl⟩
    · simp only [getToPrefetchOf, hlast, hdue, List.append_nil]
      exact if_pos hpicked
    · refine h.change pId rfl (fun q hq => ⟨rfl, rfl, by simp [b', hq], by simp [b', hq]⟩) (h.deq pId) id
        hnonneg hfront_le ?_ ?_ ?_
      · omega
      · omega
      · omega
    · intro q
      rw [hlast]
      by_cases hq : q = pId <;> simp [b', hq]
    · intro q
      have hnot : ¬(q = pId ∧ lastCached b pId < nextStep b pId) := by omega
      rw [if_neg hnot]
      by_cases hq : q = pId
      · exact hq ▸ hc
      · simp [b', lastCached, hq]
  · have hopen : lastCached b pId < nextStep b pId := by omega
    have hdue : due b reged pId = ((regedOf reged pId)[nextStep b pId]?).toList := if_pos hopen
    -- all that lies before the next step goes out of the queue
    have hdrop : dropBefore (la + 1) (b.pIdFrontStepInDeq pId) ((b.pIdRegedKvDeq pId).getD []) =
        (((min (nextStep b pId) (regedOf reged pId).length : Nat) : Int),
          (regedOf reged pId).drop (nextStep b pId)) := by
      have hsum : frontStep b pId + (la + 1 - b.pIdFrontStepInDeq pId).toNat = nextStep b pId := by
        simp only [frontStep] at *
        omega
      rw [dropBefore_eq, h.deq, List.drop_drop, hsum, List.length_drop, Prod.mk.injEq]
      refine ⟨?_, rfl⟩
      simp only [frontStep] at *
      omega
    simp only [getToPrefetchOf, hlast]
    rw [if_neg (show ¬la < (b.pIdLastCachedStep pId).getD (-1) from hpicked), hdrop]
    cases hrest : (regedOf reged pId).drop (nextStep b pId) with
    | nil =>
      have hlen : (regedOf reged pId).length ≤ nextStep b pId := List.drop_eq_nil_iff.mp hrest
      have hnone : due b reged pId = [] := by simp [hdue, hlen]
      let b' : State := { b with
        pIdLastAccedStep := update b.pIdLastAccedStep pId (some la)
        pIdLastCachedStep := update b.pIdLastCachedStep pId (some la)
        pIdRegedKvDeq := update b.pIdRegedKvDeq pId (some [])
        pIdFrontStepInDeq := update b.pIdFrontStepInDeq pId
          ((min (nextStep b pId) (regedOf reged pId).length : Nat) : Int) }
      have ha : lastAcced b' pId = la := by simp [b', lastAcced]
      have hc : lastCached b' pId = la := by simp [b', lastCached]
      have hf : frontStep b' pId = (regedOf reged pId).length := by
        simp only [b', frontStep, update_self]
        omega
      refine ⟨b', by rw [hnone, List.append_nil], ?_, ?_, ?_, rfl⟩
      · refine h.change pId rfl (fun q hq => by simp [b', hq]) ?_ (by simp [b']) (by simp [b']) (by omega)
          (by omega) (by omega) (by omega)
        rw [hf, List.drop_length]
        simp [b']
      · intro q
        rw [hlast]
        by_cases hq : q = pId <;> simp [b', hq]
      · intro q
        by_cases hq : q = pId
        · subst hq
          rw [if_pos ⟨rfl, hopen⟩, hc, hnone, List.length_nil]
          omega
        · simp [b', lastCached, hq]
    | cons kv deq =>
      have hlen : nextStep b pId < (regedOf reged pId).length := by
        have := congrArg List.length hrest
        rw [List.length_drop, List.length_cons] at this
        omega
      have hone : due b reged pId = [kv] := by
        have hget : ((regedOf reged pId).drop (nextStep b pId))[0]? =
            (regedOf reged pId)[nextStep b pId + 0]? := List.getElem?_drop
        rw [hrest, Nat.add_zero] at hget
        rw [hdue, ← hget]
        rfl
      let b' : State := { b with
        pIdLastAccedStep := update b.pIdLastAccedStep pId (some la)
        pIdLastCachedStep := update b.pIdLastCachedStep pId (some (la + 1))
        pIdRegedKvDeq := update b.pIdRegedKvDeq pId (some deq)
        pIdFrontStepInDeq := update b.pIdFrontStepInDeq pId
          (((min (nextStep b pId) (regedOf reged pId).length : Nat) : Int) + 1) }
      have ha : lastAcced b' pId = la := by simp [b', lastAcced]
      have hc : lastCached b' pId = la + 1 := by simp [b', lastCached]
      have hf : frontStep b' pId = nextStep b pId + 1 := by
        simp only [b', frontStep, update_self]
        omega
      refine ⟨b', by rw [hone], ?_, ?_, ?_, rfl⟩
      · refine h.change pId rfl (fun q hq => by simp [b', hq]) ?_ (by simp [b']) ?_ (by omega)
          (by omega) (by omega) (by omega)
        · rw [hf, ← List.drop_drop, hrest]
          simp [b']
        · simp only [b', update_self]
          omega
      · intro q
        rw [hlast]
        by_cases hq : q = pId <;> simp [b', hq]
      · intro q
        by_cases hq : q = pId
        · subst hq
          rw [if_pos ⟨rfl, hopen⟩, hc, hone, List.length_singleton]
          omega
        · simp [b', lastCached, hq]

theorem mem_regedOf {pId : Int32} {kv : KeyVer} : kv ∈ regedOf reged pId ↔ (pId, kv) ∈ reged := by
  simp [regedOf]

/-- A key-version is registered for one producer. -/
theorem Indexed.producer_unique (h : Indexed b reged) {p q : Int32} {kv : KeyVer} (hp : (p, kv) ∈ reged)
    (hq : (q, kv) ∈ reged) : p = q := by
  rw [← h.kvPId] at hp hq
  exact Option.some.inj (hp.symm.trans hq)

theorem mem_due {pId : Int32} {kv : KeyVer} (h : kv ∈ due b reged pId) : (pId, kv) ∈ reged := by
  unfold due at h
  split at h
  · exact mem_regedOf.mp (List.mem_of_getElem? (Option.mem_toList.mp h))
  · cases h

theorem ofProducer_due (h : Indexed b reged) (p q : Int32) :
    ofProducer reged q (due b reged p) = if q = p then due b reged p else [] := by
  by_cases hq : q = p
  · subst hq
    rw [if_pos rfl, ofProducer, List.filter_eq_self]
    exact fun kv hkv => decide_eq_true (mem_due hkv)
  · rw [if_neg hq, ofProducer, List.filter_eq_nil_iff]
    intro kv hkv hmem
    exact hq (h.producer_unique (of_decide_eq_true hmem) (mem_due hkv))

theorem nextStep_of_picks {b' : State} {pId : Int32} {kvV : List KeyVer} (h : Picks b b' pId kvV) (q : Int32) :
    nextStep b' q = nextStep b q := by
  unfold nextStep
  rw [h.lastAcced]
  split
  · rename_i hq
    rw [hq, Option.getD_some]
  · rfl

/-- What a round has picked or skipped is not picked by a later round of the same call. -/
theorem due_of_picks {b' : State} {pId : Int32} (h : Picks b b' pId (due b reged pId)) (q : Int32) :
    due b' reged q = if q = pId then [] else due b reged q := by
  have hcached := h.lastCached q
  have hnext := nextStep_of_picks h q
  by_cases hq : q = pId
  · subst hq
    rw [if_pos rfl, due, hnext]
    by_cases hopen : lastCached b q < nextStep b q
    · have hdue : due b reged q = ((regedOf reged q)[nextStep b q]?).toList := if_pos hopen
      rw [if_pos ⟨rfl, hopen⟩, hdue] at hcached
      cases hget : (regedOf reged q)[nextStep b q]? with
      | none => simp
      | some kv =>
        rw [hget, Option.toList_some, List.length_singleton] at hcached
        exact if_neg (by omega)
    · rw [if_neg (fun hc => hopen hc.2)] at hcached
      exact if_neg (by omega)
  · rw [if_neg (fun hc => hq hc.1)] at hcached
    rw [if_neg hq, due, due, hnext, hcached]

/-- What a call of `get_to_prefetch` does: each producer of the list offers what is due once. -/
structure PicksAll (b b' : State) (reged : List (Int32 × KeyVer)) (pIdV : List Int32) (kvV : List KeyVer) :
    Prop where
  indexed : Indexed b' reged
  kvPId : b'.kvPId = b.kvPId
  ofProducer : ∀ q, ofProducer reged q kvV = if q ∈ pIdV then due b reged q else []
  mem : ∀ kv ∈ kvV, ∃ q ∈ pIdV, kv ∈ due b reged q
  lastAcced : ∀ q, b'.pIdLastAccedStep q =
    if q ∈ pIdV then some ((b.pIdLastAccedStep q).getD 0) else b.pIdLastAccedStep q
  lastCached : ∀ q, lastCached b' q = if q ∈ pIdV ∧ lastCached b q < nextStep b q then
    (nextStep b q : Int) - 1 + (due b reged q).length else lastCached b q

theorem getToPrefetch_spec (h : Indexed b reged) (pIdV : List Int32) :
    PicksAll b (getToPrefetch b pIdV).1 reged pIdV (getToPrefetch b pIdV).2 := by
  have hfold : ∀ (pIdV : List Int32) (b : State) (kvV : List KeyVer), Indexed b reged → ∃ b' ys,
      pIdV.foldl (fun (b, kvV) pId => getToPrefetchOf b kvV pId) (b, kvV) = (b', kvV ++ ys) ∧
        PicksAll b b' reged pIdV ys := by
    intro pIdV
    induction pIdV with
    | nil => exact fun b kvV hb => ⟨b, [], by simp, hb, rfl, by simp [ofProducer], by simp, by simp, by simp⟩
    | cons pId pIdV ih =>
      intro b kvV hb
      obtain ⟨b₁, hround, hb₁, hpicks⟩ := getToPrefetchOf_spec hb kvV pId
      obtain ⟨b', ys, hrest, hall⟩ := ih b₁ (kvV ++ due b reged pId) hb₁
      refine ⟨b', due b reged pId ++ ys, ?_, hall.indexed, hall.kvPId.trans hpicks.kvPId, ?_, ?_, ?_, ?_⟩
      · simp only [List.foldl_cons]
        rw [hround, hrest, List.append_assoc]
      · intro q
        rw [ofProducer, List.filter_append]
        change ofProducer reged q (due b reged pId) ++ ofProducer reged q ys = _
        rw [ofProducer_due hb, hall.ofProducer, due_of_picks hpicks]
        by_cases hq : q = pId
        · simp [hq]
        · simp [hq]
      · intro kv hkv
        rcases List.mem_append.mp hkv with hkv | hkv
        · exact ⟨pId, List.mem_cons_self, hkv⟩
        · obtain ⟨q, hq, hdue⟩ := hall.mem kv hkv
          rw [due_of_picks hpicks] at hdue
          split at hdue
          · cases hdue
          · exact ⟨q, List.mem_cons_of_mem _ hq, hdue⟩
      · intro q
        rw [hall.lastAcced, hpicks.lastAcced]
        by_cases hq : q = pId
        · simp [hq]
        · simp [hq]
      · intro q
        have hcached := hpicks.lastCached q
        rw [hall.lastCached, nextStep_of_picks hpicks, due_of_picks hpicks]
        by_cases hq : q = pId
        · subst hq
          by_cases hopen : lastCached b q < nextStep b q
          · rw [if_pos ⟨rfl, hopen⟩] at hcached
            have hhere : q ∈ q :: pIdV ∧ lastCached b q < nextStep b q := ⟨List.mem_cons_self, hopen⟩
            rw [if_pos rfl, if_pos hhere, List.length_nil, hcached]
            split <;> omega
          · rw [if_neg (fun hc => hopen hc.2)] at hcached
            rw [hcached, if_neg (fun hc => hopen hc.2), if_neg (fun hc => hopen hc.2)]
        · rw [if_neg (fun hc => hq hc.1)] at hcached
          simp [hq, hcached]
  obtain ⟨b', ys, hrun, hall⟩ := hfold pIdV b [] h
  rw [getToPrefetch, hrun]
  exact hall

/-! ## Accesses -/

theorem del_cache (b : State) (kv : KeyVer) : ∃ cache, (del b kv).1 = { b with cache := cache } := by
  unfold del
  split
  · exact ⟨_, rfl⟩
  · exact ⟨b.cache, rfl⟩

theorem prefetchAll_cache (kvV : List KeyVer) (b : State) :
    ∃ cache, (prefetchAll b kvV).1 = { b with cache := cache } := by
  induction kvV generalizing b with
  | nil => exact ⟨b.cache, rfl⟩
  | cons kv kvV ih =>
    unfold prefetchAll
    split
    · split
      · obtain ⟨cache, hcache⟩ := ih { b with cache := Cache.push b.cache ((b.kvPId kv).getD 0) kv }
        exact ⟨cache, hcache⟩
      · exact ⟨b.cache, rfl⟩
    · exact ⟨b.cache, rfl⟩

theorem PicksAll.setCache {b b' : State} {pIdV : List Int32} {kvV : List KeyVer}
    (h : PicksAll b b' reged pIdV kvV) (cache : Cache.State Int32 KeyVer) :
    PicksAll b { b' with cache := cache } reged pIdV kvV :=
  ⟨h.indexed.setCache cache, h.kvPId, h.ofProducer, h.mem, h.lastAcced, h.lastCached⟩

/-- An access of what is registered moves its producer on and picks what is due then. -/
theorem addAccessAll_spec (h : Indexed b reged) {kv : KeyVer} (hkv : (b.kvPId kv).isSome) (pIdV : List Int32) :
    PicksAll (countAccess b kv) (addAccessAll b kv pIdV).1 reged pIdV (addAccessAll b kv pIdV).2.1 := by
  obtain ⟨cache, hdel⟩ := del_cache b kv
  have hpicks := getToPrefetch_spec ((countAccess_indexed h kv).setCache cache) pIdV
  have hcount : countAccess (del b kv).1 kv = { countAccess b kv with cache := cache } := by
    rw [hdel]
    rfl
  have hsome : ¬(b.kvPId kv).isNone := by simpa [Option.isSome_iff_ne_none] using hkv
  simp only [addAccessAll, if_neg hsome, hcount]
  obtain ⟨cache', hall⟩ := prefetchAll_cache (getToPrefetch { countAccess b kv with cache := cache } pIdV).2
    (getToPrefetch { countAccess b kv with cache := cache } pIdV).1
  rw [hall]
  have hset := hpicks.setCache cache'
  exact ⟨hset.indexed, hset.kvPId, hset.ofProducer, hset.mem, hset.lastAcced, hset.lastCached⟩

theorem addAccessAll_none {kv : KeyVer} (hkv : ¬(b.kvPId kv).isSome) (pIdV : List Int32) :
    addAccessAll b kv pIdV = (b, [], []) := by
  have hnone : (b.kvPId kv).isNone := by simpa using hkv
  simp [addAccessAll, hnone]

end Picked

/-! ## What runs keep -/

/-- The picks of each producer are some of its steps in their order, none after the last one cached. -/
structure Tracked (r : Run) : Prop where
  indexed : Indexed r.buffer r.reged
  acced_reged : ∀ kv ∈ r.acced, kv ∈ r.reged.map (·.2)
  picked_reged : ∀ kv ∈ r.picked, kv ∈ r.reged.map (·.2)
  picked : ∀ p, (ofProducer r.reged p r.picked).Sublist
    ((regedOf r.reged p).take (lastCached r.buffer p + 1).toNat)

section Tracked
variable {r : Run}

theorem start_tracked (dsId : Int32) (maxNumKeyVer : Int) (wPrefetch : Bool) :
    Tracked (start dsId maxNumKeyVer wPrefetch) where
  indexed := init_indexed dsId maxNumKeyVer wPrefetch
  acced_reged := by rintro _ ⟨⟩
  picked_reged := by rintro _ ⟨⟩
  picked p := by simp [start, ofProducer]

theorem take_due {b : State} {reged : List (Int32 × KeyVer)} {p : Int32} (h : lastCached b p < nextStep b p) :
    (regedOf reged p).take (nextStep b p + (due b reged p).length) =
      (regedOf reged p).take (nextStep b p) ++ due b reged p := by
  have hdue : due b reged p = ((regedOf reged p)[nextStep b p]?).toList := if_pos h
  rw [hdue]
  cases hget : (regedOf reged p)[nextStep b p]? with
  | none => simp
  | some kv =>
    rw [Option.toList_some, List.length_singleton, List.take_add_one, hget]
    rfl

/-- A new registration is none of the kvs that are registered. -/
theorem ofProducer_append {reged : List (Int32 × KeyVer)} {pId : Int32} {kv : KeyVer} {kvV : List KeyVer}
    (hkvV : ∀ x ∈ kvV, x ∈ reged.map (·.2)) (hnew : kv ∉ reged.map (·.2)) (q : Int32) :
    ofProducer (reged ++ [(pId, kv)]) q kvV = ofProducer reged q kvV := by
  refine List.filter_congr fun x hx => ?_
  have hne : x ≠ kv := fun he => hnew (he ▸ hkvV x hx)
  simp [hne]

theorem step_tracked (h : Tracked r) (op : Op) : Tracked (step r op) := by
  cases op with
  | regKeyVer pId kv =>
    have hindexed := regKeyVer_indexed h.indexed pId kv
    by_cases hkv : kv ∈ r.reged.map (·.2)
    · rw [if_pos hkv] at hindexed
      have hsame : regKeyVer r.buffer pId kv = r.buffer := if_pos (h.indexed.reged_iff.mpr hkv)
      simp only [step, if_pos hkv, hsame]
      exact { h with }
    · rw [if_neg hkv] at hindexed
      have hcached : ∀ p, lastCached (regKeyVer r.buffer pId kv) p = lastCached r.buffer p := by
        intro p
        rw [regKeyVer_new h.indexed (fun hsome => hkv (h.indexed.reged_iff.mp hsome))]
        rfl
      simp only [step, if_neg hkv]
      refine ⟨hindexed, ?_, ?_, ?_⟩
      · intro x hx
        simpa using .inl (by simpa using h.acced_reged x hx)
      · intro x hx
        simpa using .inl (by simpa using h.picked_reged x hx)
      · intro p
        show (ofProducer (r.reged ++ [(pId, kv)]) p r.picked).Sublist _
        rw [ofProducer_append h.picked_reged hkv, hcached, regedOf_append, List.take_append]
        exact (h.picked p).trans (List.sublist_append_left _ _)
  | addAccess kv pIdV =>
    by_cases hkv : (r.buffer.kvPId kv).isSome
    · have hspec := addAccessAll_spec h.indexed hkv pIdV
      have hreged := h.indexed.reged_iff.mp hkv
      simp only [step, if_pos hreged]
      refine ⟨hspec.indexed, ?_, ?_, ?_⟩
      · intro x hx
        rcases List.mem_append.mp hx with hx | hx
        · exact h.acced_reged x hx
        · exact List.mem_singleton.mp hx ▸ hreged
      · intro x hx
        rcases List.mem_append.mp hx with hx | hx
        · exact h.picked_reged x hx
        · obtain ⟨q, -, hdue⟩ := hspec.mem x hx
          exact List.mem_map_of_mem (mem_due hdue)
      · intro p
        have hold : (ofProducer r.reged p r.picked).Sublist
            ((regedOf r.reged p).take (lastCached (countAccess r.buffer kv) p + 1).toNat) := h.picked p
        have hcached := hspec.lastCached p
        have hnew := hspec.ofProducer p
        generalize (addAccessAll r.buffer kv pIdV).2.1 = kvV at hnew
        generalize (addAccessAll r.buffer kv pIdV).1 = b' at hcached
        generalize countAccess r.buffer kv = b at hold hcached hnew
        show (ofProducer r.reged p (r.picked ++ kvV)).Sublist _
        have happend : ofProducer r.reged p (r.picked ++ kvV) =
            ofProducer r.reged p r.picked ++ ofProducer r.reged p kvV := List.filter_append _ _
        rw [happend, hnew]
        by_cases hopen : p ∈ pIdV ∧ lastCached b p < nextStep b p
        · rw [if_pos hopen] at hcached
          have hlen : (lastCached b' p + 1).toNat = nextStep b p + (due b r.reged p).length := by omega
          have hle : (lastCached b p + 1).toNat ≤ nextStep b p := by omega
          rw [if_pos hopen.1, hlen, take_due hopen.2]
          exact (hold.trans (List.take_sublist_take_left hle)).append (List.Sublist.refl _)
        · rw [if_neg hopen] at hcached
          have hnone : (if p ∈ pIdV then due b r.reged p else []) = [] := by
            by_cases hp : p ∈ pIdV
            · rw [if_pos hp]
              exact if_neg fun hlt => hopen ⟨hp, hlt⟩
            · exact if_neg hp
          rw [hnone, List.append_nil, hcached]
          exact hold
    · have hreged : kv ∉ r.reged.map (·.2) := fun hmem => hkv (h.indexed.reged_iff.mpr hmem)
      simp only [step, if_neg hreged, addAccessAll_none hkv]
      exact { h with picked_reged := by simpa using h.picked_reged, picked := by simpa using h.picked }
  | del kv =>
    obtain ⟨cache, hcache⟩ := del_cache r.buffer kv
    simp only [step, hcache]
    exact { h with indexed := h.indexed.setCache cache }

end Tracked

/-! ## Predictions of producers accessed before -/

/-- What has been accessed once an access of `kv` is counted. -/
def accedWith (r : Run) (kv : KeyVer) : List KeyVer :=
  if kv ∈ r.reged.map (·.2) then r.acced ++ [kv] else r.acced

/-- The predictor gives producers that have been accessed, the one accessed now included. -/
def Predicted (r : Run) : Op → Prop
  | .addAccess kv pIdV => ∀ p ∈ pIdV, ofProducer r.reged p (accedWith r kv) ≠ []
  | _ => True

instance (r : Run) (op : Op) : Decidable (Predicted r op) :=
  match op with
  | .addAccess kv pIdV =>
    List.decidableBAll (fun p => ofProducer r.reged p (accedWith r kv) ≠ []) pIdV
  | .regKeyVer _ _ => .isTrue trivial
  | .del _ => .isTrue trivial

/-- The last step accessed is the count of the accesses, from zero. -/
def Counts (b : State) (reged : List (Int32 × KeyVer)) (acced : List KeyVer) : Prop :=
  ∀ p, b.pIdLastAccedStep p = if ofProducer reged p acced = [] then none
    else some ((ofProducer reged p acced).length - 1 : Int)

section Counts
variable {r : Run} {kv : KeyVer} {pIdV : List Int32}

theorem countAccess_counts (h : Tracked r) (hcounts : Counts r.buffer r.reged r.acced)
    (hkv : (r.buffer.kvPId kv).isSome) : Counts (countAccess r.buffer kv) r.reged (r.acced ++ [kv]) := by
  obtain ⟨p₀, hp₀⟩ := Option.isSome_iff_exists.mp hkv
  have hmem : ∀ p, (p, kv) ∈ r.reged ↔ p = p₀ := by
    intro p
    rw [← h.indexed.kvPId, hp₀, Option.some.injEq, eq_comm]
  intro p
  have hold := hcounts p
  have happend : ofProducer r.reged p (r.acced ++ [kv]) =
      ofProducer r.reged p r.acced ++ if p = p₀ then [kv] else [] := by
    rw [ofProducer, List.filter_append]
    by_cases hp : p = p₀ <;> simp [ofProducer, hmem, hp]
  rw [happend]
  by_cases hp : p = p₀
  · subst hp
    have hlast : (countAccess r.buffer kv).pIdLastAccedStep p =
        some ((r.buffer.pIdLastAccedStep p).getD (-1) + 1) := by simp [countAccess, hp₀]
    rw [hlast, hold]
    by_cases hnil : ofProducer r.reged p r.acced = []
    · simp [hnil]
    · simp [hnil]
  · have hlast : (countAccess r.buffer kv).pIdLastAccedStep p = r.buffer.pIdLastAccedStep p := by
      simp [countAccess, hp₀, hp]
    rw [hlast, hold, if_neg hp, List.append_nil]

theorem step_counts (h : Tracked r) (hcounts : Counts r.buffer r.reged r.acced) {op : Op}
    (hop : Predicted r op) : Counts (step r op).buffer (step r op).reged (step r op).acced := by
  cases op with
  | regKeyVer pId kv =>
    by_cases hkv : kv ∈ r.reged.map (·.2)
    · have hsame : regKeyVer r.buffer pId kv = r.buffer := if_pos (h.indexed.reged_iff.mpr hkv)
      simpa only [step, if_pos hkv, hsame] using hcounts
    · intro p
      simp only [step, if_neg hkv]
      rw [regKeyVer_new h.indexed (fun hsome => hkv (h.indexed.reged_iff.mp hsome)),
        ofProducer_append h.acced_reged hkv]
      exact hcounts p
  | addAccess kv pIdV =>
    by_cases hkv : (r.buffer.kvPId kv).isSome
    · have hreged := h.indexed.reged_iff.mp hkv
      have hspec := addAccessAll_spec h.indexed hkv pIdV
      have hcount := countAccess_counts h hcounts hkv
      intro p
      simp only [step, if_pos hreged]
      rw [hspec.lastAcced, ← hcount p]
      split
      · rename_i hp
        have hne := hop p hp
        rw [accedWith, if_pos hreged] at hne
        rw [hcount p, if_neg hne, Option.getD_some]
      · rfl
    · have hreged : kv ∉ r.reged.map (·.2) := fun hmem => hkv (h.indexed.reged_iff.mpr hmem)
      simpa only [step, if_neg hreged, addAccessAll_none hkv] using hcounts
  | del kv =>
    obtain ⟨cache, hcache⟩ := del_cache r.buffer kv
    simp only [step, hcache]
    exact hcounts

end Counts

/-! ## The next step -/

/-- What a reachable buffer picks, now and over the run. -/
structure PicksNext (r : Run) : Prop where
  queue : ∀ p, (r.buffer.pIdRegedKvDeq p).getD [] = (regedOf r.reged p).drop (frontStep r.buffer p)
  cached_le : ∀ p, lastCached r.buffer p ≤ lastAcced r.buffer p + 1
  front_le : ∀ p, (frontStep r.buffer p : Int) ≤ max (lastCached r.buffer p) (lastAcced r.buffer p) + 1
  picks : ∀ kv pIdV, kv ∈ r.reged.map (·.2) → Predicted r (.addAccess kv pIdV) → ∀ p,
    ofProducer r.reged p (addAccessAll r.buffer kv pIdV).2.1 =
      if p ∈ pIdV ∧ lastCached r.buffer p ≤ lastAcced (countAccess r.buffer kv) p then
        ((regedOf r.reged p)[(lastAcced (countAccess r.buffer kv) p + 1).toNat]?).toList
      else []
  once : r.picked.Nodup
  increasing : ∀ p, (ofProducer r.reged p r.picked).Pairwise fun kv kv' =>
    (regedOf r.reged p).idxOf kv < (regedOf r.reged p).idxOf kv'
  ahead : ∀ kv pIdV, kv ∈ r.reged.map (·.2) → Predicted r (.addAccess kv pIdV) →
    (∀ p, ofProducer r.reged p (r.acced ++ [kv]) <+: regedOf r.reged p) →
    ∀ y ∈ (addAccessAll r.buffer kv pIdV).2.1, y ∉ r.acced ++ [kv]

section Next
variable {r : Run}

theorem regedOf_nodup (h : Indexed r.buffer r.reged) (p : Int32) : (regedOf r.reged p).Nodup :=
  h.nodup.sublist (List.filter_sublist.map _)

theorem pairwise_idxOf {l : List KeyVer} (hl : l.Nodup) : l.Pairwise fun x y => l.idxOf x < l.idxOf y := by
  rw [List.pairwise_iff_getElem]
  intro i j hi hj hij
  rwa [hl.idxOf_getElem, hl.idxOf_getElem]

theorem picked_nodup (h : Tracked r) : r.picked.Nodup := by
  rw [List.nodup_iff_count_le_one]
  intro kv
  by_cases hkv : kv ∈ r.picked
  · obtain ⟨⟨p, kv'⟩, hp, hkv'⟩ := List.mem_map.mp (h.picked_reged kv hkv)
    obtain rfl : kv' = kv := hkv'
    have hcount : (ofProducer r.reged p r.picked).count kv' = r.picked.count kv' :=
      List.count_filter (by simpa using hp)
    have hnodup := (regedOf_nodup h.indexed p).sublist ((h.picked p).trans (List.take_sublist _ _))
    rw [← hcount]
    exact List.nodup_iff_count_le_one.mp hnodup kv'
  · rw [List.count_eq_zero_of_not_mem hkv]
    exact Nat.zero_le 1

theorem picksNext (h : Tracked r) (hcounts : Counts r.buffer r.reged r.acced) : PicksNext r := by
  -- the next step of a predicted producer comes after the last one accessed
  have hnext : ∀ kv pIdV, kv ∈ r.reged.map (·.2) → Predicted r (.addAccess kv pIdV) → ∀ p ∈ pIdV,
      (nextStep (countAccess r.buffer kv) p : Int) = lastAcced (countAccess r.buffer kv) p + 1 ∧
        nextStep (countAccess r.buffer kv) p = (ofProducer r.reged p (r.acced ++ [kv])).length := by
    intro kv pIdV hkv hpred p hp
    have hne := hpred p hp
    rw [accedWith, if_pos hkv] at hne
    have hlast := countAccess_counts h hcounts (h.indexed.reged_iff.mpr hkv) p
    rw [if_neg hne] at hlast
    have hpos := List.length_pos_iff.mpr hne
    rw [nextStep, lastAcced, hlast, Option.getD_some, Option.getD_some]
    omega
  refine ⟨h.indexed.deq, h.indexed.cached, h.indexed.front, ?_, picked_nodup h, ?_, ?_⟩
  · intro kv pIdV hkv hpred p
    rw [(addAccessAll_spec h.indexed (h.indexed.reged_iff.mpr hkv) pIdV).ofProducer]
    by_cases hp : p ∈ pIdV
    · obtain ⟨hstep, -⟩ := hnext kv pIdV hkv hpred p hp
      have hcached : lastCached (countAccess r.buffer kv) p = lastCached r.buffer p := rfl
      have hindex : (lastAcced (countAccess r.buffer kv) p + 1).toNat = nextStep (countAccess r.buffer kv) p := by
        omega
      have hopen : lastCached r.buffer p < nextStep (countAccess r.buffer kv) p ↔
          lastCached r.buffer p ≤ lastAcced (countAccess r.buffer kv) p := by omega
      simp only [hp, if_true, true_and, due, hcached, hindex, hopen]
    · simp [hp]
  · intro p
    exact (pairwise_idxOf (regedOf_nodup h.indexed p)).sublist ((h.picked p).trans (List.take_sublist _ _))
  · intro kv pIdV hkv hpred horder y hy hacced
    obtain ⟨p, hp, hdue⟩ := (addAccessAll_spec h.indexed (h.indexed.reged_iff.mpr hkv) pIdV).mem y hy
    obtain ⟨-, hlen⟩ := hnext kv pIdV hkv hpred p hp
    have hmem : y ∈ ofProducer r.reged p (r.acced ++ [kv]) :=
      List.mem_filter.mpr ⟨hacced, decide_eq_true (mem_due hdue)⟩
    -- the accesses of the producer are its first steps, and what is due comes after them
    obtain ⟨i, hi, hget⟩ := List.mem_iff_getElem.mp hmem
    have hearly : (regedOf r.reged p)[i]? = some y := by
      obtain ⟨rest, hrest⟩ := horder p
      rw [← hrest, List.getElem?_append_left hi, List.getElem?_eq_getElem hi, hget]
    have hlate : (regedOf r.reged p)[nextStep (countAccess r.buffer kv) p]? = some y := by
      unfold due at hdue
      split at hdue
      · exact Option.mem_toList.mp hdue
      · cases hdue
    have hlt := (List.getElem?_eq_some_iff.mp hearly).1
    have hsame := (List.getElem?_inj hlt (regedOf_nodup h.indexed p)).mp (hearly.trans hlate.symm)
    omega

/-- Whatever accessed producers are predicted, what is picked is the step after the last one
accessed, never twice, and not accessed yet where the accesses come in order. -/
theorem prefetches_next_step {dsId : Int32} {maxNumKeyVer : Int} {wPrefetch : Bool}
    (hr : Transition.Reaches (fun r op => some (step r op)) Predicted (start dsId maxNumKeyVer wPrefetch) r) :
    PicksNext r := by
  have hkept : Tracked r ∧ Counts r.buffer r.reged r.acced := by
    refine hr.invariant (fun r => Tracked r ∧ Counts r.buffer r.reged r.acced)
      ⟨start_tracked _ _ _, fun p => by simp [start, MPBuffer.init, ofProducer]⟩ ?_
    rintro u op u' ⟨hu, hcounts⟩ hop ⟨⟩
    exact ⟨step_tracked hu op, step_counts hu hcounts hop⟩
  exact picksNext hkept.1 hkept.2

/-- The first of two steps is accessed, the second one is picked. -/
theorem prefetches_second_step :
    ∃ r, Transition.Reaches (fun r op => some (step r op)) Predicted (start 1 2 true) r ∧
      r.picked = [("u", 1)] ∧ PicksNext r := by
  obtain ⟨r, hr, htest⟩ := Transition.runWhere_reaches_of_any (fun r op => some (step r op)) Predicted (start 1 2 true)
    [.regKeyVer 7 ("u", 0), .regKeyVer 7 ("u", 1), .addAccess ("u", 0) [7]]
    (fun r => decide (r.picked = [("u", 1)])) (by decide)
  exact ⟨r, hr, of_decide_eq_true htest, prefetches_next_step hr⟩

end Next

end PrefetchSteps
