import DataspacesWa.Cache
import DataspacesWa.Patch

/-!
# Markov prefetch buffers

One `MPBuffer` for each DS: the key-versions registered so far, queued by
producer, and the cache of what has been prefetched to the DS. `add_access`
calls the handler of the data actions in its middle, and other threads run
until the handler returns, so it is given in the pieces between those calls.
The list of producers that the predictor picks is an argument.
-/
namespace MPBuffer

open Function (update)

/-- `key_ver_pair`. -/
abbrev KeyVer := String × UInt32

instance lawfulBEqKeyVer : LawfulBEq KeyVer := inferInstance

structure State where
  dsId : Int32
  maxNumKeyVer : Int
  wPrefetch : Bool
  pIdRegedKvDeq : Int32 → Option (List KeyVer)
  pIdFrontStepInDeq : Int32 → Int
  kvPId : KeyVer → Option Int32
  pIdLastAccedStep : Int32 → Option Int
  pIdLastCachedStep : Int32 → Option Int
  cache : Cache.State Int32 KeyVer

def init (dsId : Int32) (maxNumKeyVer : Int) (wPrefetch : Bool) : State where
  dsId := dsId
  maxNumKeyVer := maxNumKeyVer
  wPrefetch := wPrefetch
  pIdRegedKvDeq _ := none
  pIdFrontStepInDeq _ := 0
  kvPId _ := none
  pIdLastAccedStep _ := none
  pIdLastCachedStep _ := none
  cache := Cache.empty maxNumKeyVer

/-- `reg_key_ver`; an error on what is registered already changes nothing. -/
def regKeyVer (b : State) (pId : Int32) (kv : KeyVer) : State :=
  if (b.kvPId kv).isSome then b
  else
    match b.pIdRegedKvDeq pId with
    | some deq => { b with
        kvPId := update b.kvPId kv (some pId)
        pIdRegedKvDeq := update b.pIdRegedKvDeq pId (some (deq ++ [kv])) }
    | none => { b with
        kvPId := update b.kvPId kv (some pId)
        pIdRegedKvDeq := update b.pIdRegedKvDeq pId (some [kv])
        pIdFrontStepInDeq := update b.pIdFrontStepInDeq pId 0 }

/-! ## What to prefetch -/

/-- The `while` loop of `get_to_prefetch`: drop what lies before the step. -/
def dropBefore (step : Int) : Int → List KeyVer → Int × List KeyVer
  | front, [] => (front, [])
  | front, kv :: deq => if front < step then dropBefore step (front + 1) deq else (front, kv :: deq)

/-- One round of the `for` loop of `get_to_prefetch`. -/
def getToPrefetchOf (b : State) (kvV : List KeyVer) (pId : Int32) : State × List KeyVer :=
  let lastCached := (b.pIdLastCachedStep pId).getD (-1)
  -- `operator[]` stores the zero it reads
  let lastAcced := (b.pIdLastAccedStep pId).getD 0
  let b := { b with pIdLastAccedStep := update b.pIdLastAccedStep pId (some lastAcced) }
  if lastAcced < lastCached then
    ({ b with pIdLastCachedStep := update b.pIdLastCachedStep pId (some lastCached) }, kvV)
  else
    let stepToPrefetch := lastAcced + 1
    match dropBefore stepToPrefetch (b.pIdFrontStepInDeq pId) ((b.pIdRegedKvDeq pId).getD []) with
    | (front, []) => ({ b with
        pIdLastCachedStep := update b.pIdLastCachedStep pId (some lastAcced)
        pIdRegedKvDeq := update b.pIdRegedKvDeq pId (some [])
        pIdFrontStepInDeq := update b.pIdFrontStepInDeq pId front }, kvV)
    | (front, kv :: deq) => ({ b with
        pIdLastCachedStep := update b.pIdLastCachedStep pId (some stepToPrefetch)
        pIdRegedKvDeq := update b.pIdRegedKvDeq pId (some deq)
        pIdFrontStepInDeq := update b.pIdFrontStepInDeq pId (front + 1) }, kvV ++ [kv])

def getToPrefetch (b : State) (pIdV : List Int32) : State × List KeyVer :=
  pIdV.foldl (fun (b, kvV) pId => getToPrefetchOf b kvV pId) (b, [])

/-! ## Accesses -/

/-- The call of the handler that `add_access` is in. -/
inductive Calling where
  | del : KeyVer → Calling
  | prefetch : KeyVer → List KeyVer → Calling
  deriving DecidableEq, Repr

/-- The head of the prefetch loop. -/
def prefetchLoop (b : State) : List KeyVer → Option Calling
  | [] => none
  | kv :: kvV => if b.wPrefetch then some (.prefetch kv kvV) else none

/-- `add_access` once the accessed key-version is out of the cache. -/
def acced (b : State) (kv : KeyVer) (pIdV : List Int32) : State × Option Calling :=
  let pId := (b.kvPId kv).getD 0
  let lastAcced := (b.pIdLastAccedStep pId).getD (-1) + 1
  let (b, kvV) :=
    getToPrefetch { b with pIdLastAccedStep := update b.pIdLastAccedStep pId (some lastAcced) } pIdV
  (b, prefetchLoop b kvV)

def addAccess (b : State) (kv : KeyVer) (pIdV : List Int32) : State × Option Calling :=
  if (b.kvPId kv).isNone then (b, none)
  else if Cache.contains b.cache kv then (b, some (.del kv))
  else acced b kv pIdV

/-- `add_access` from the return of its handler to the next call. -/
def resume (b : State) (pIdV : List Int32) : Calling → Option (State × Option Calling)
  | .del kv =>
    (Cache.del b.cache ((b.kvPId kv).getD 0) kv).map fun cache => acced { b with cache := cache } kv pIdV
  | .prefetch kv kvV =>
    if Cache.size b.cache < b.maxNumKeyVer then
      let b := { b with cache := Cache.push b.cache ((b.kvPId kv).getD 0) kv }
      some (b, prefetchLoop b kvV)
    else some (b, none)

/-! ## The cache -/

section Cache
variable (b : State) (kv : KeyVer) (pIdV : List Int32)

@[simp] theorem regKeyVer_cache (pId : Int32) : (regKeyVer b pId kv).cache = b.cache := by
  unfold regKeyVer
  split
  · rfl
  · split <;> rfl

theorem getToPrefetchOf_cache (kvV : List KeyVer) (pId : Int32) :
    (getToPrefetchOf b kvV pId).1.cache = b.cache := by
  unfold getToPrefetchOf
  dsimp only
  split
  · rfl
  · split <;> rfl

theorem getToPrefetch_cache : (getToPrefetch b pIdV).1.cache = b.cache := by
  have hfold : ∀ (pIdV : List Int32) (r : State × List KeyVer),
      (pIdV.foldl (fun (b, kvV) pId => getToPrefetchOf b kvV pId) r).1.cache = r.1.cache := by
    intro pIdV
    induction pIdV with
    | nil => intro r; rfl
    | cons pId pIdV ih =>
      intro r
      rw [List.foldl_cons, ih]
      exact getToPrefetchOf_cache r.1 r.2 pId
  exact hfold pIdV (b, [])

@[simp] theorem acced_cache : (acced b kv pIdV).1.cache = b.cache :=
  getToPrefetch_cache { b with pIdLastAccedStep := update b.pIdLastAccedStep _ _ } pIdV

@[simp] theorem addAccess_cache : (addAccess b kv pIdV).1.cache = b.cache := by
  unfold addAccess
  split
  · rfl
  · split
    · rfl
    · exact acced_cache b kv pIdV

/-- Only the return from a prefetch puts into the cache. -/
theorem mem_resume_cache {b b' : State} {calling : Calling} {next : Option Calling} {x : KeyVer}
    (h : resume b pIdV calling = some (b', next)) (hx : x ∈ b'.cache.content) :
    x ∈ b.cache.content ∨ ∃ kvV, calling = .prefetch x kvV := by
  cases calling with
  | del kv =>
    simp only [resume, Option.map_eq_some_iff] at h
    obtain ⟨cache, hdel, hacced⟩ := h
    have hcache : b'.cache = cache := by
      rw [show b' = (acced { b with cache := cache } kv pIdV).1 by rw [hacced], acced_cache]
    rw [hcache] at hx
    exact .inl (Cache.mem_of_mem_del hdel hx)
  | prefetch kv kvV =>
    simp only [resume] at h
    split at h
    · simp only [Option.some.injEq, Prod.mk.injEq] at h
      obtain ⟨rfl, -⟩ := h
      rcases Cache.mem_push.mp hx with hold | rfl
      · exact .inl hold
      · exact .inr ⟨kvV, rfl⟩
    · simp only [Option.some.injEq, Prod.mk.injEq] at h
      obtain ⟨rfl, -⟩ := h
      exact .inl hx

end Cache

end MPBuffer
