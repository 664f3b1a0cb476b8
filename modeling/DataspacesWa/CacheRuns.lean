import DataspacesWa.Cache
import DataspacesWa.SortedMap
import DataspacesWa.Transition

/-!
# The cache over whole runs

`Cache<ACC_T, T>` with its queue, its map from the elements to their accesses
and its counters. A push into a full cache pops the oldest element first, and
`pop` and eviction go through `del`. Over any run the three stay views of one
queue of elements and accesses.
-/
namespace CacheRuns

section Source
variable {A T : Type} [LinearOrder A] [LinearOrder T]

/-- The handler is recorded, and leaves the cache alone. -/
structure State (A T : Type) [LinearOrder A] [LinearOrder T] where
  maxSize : Int
  handleDataDelCb : Bool
  cache : List T
  eAccMap : SortedMap T A
  accNumMap : SortedMap A Int
  /-- The calls of the handler. -/
  deled : List T

def init (maxSize : Int) (handleDataDelCb : Bool) : State A T :=
  ⟨maxSize, handleDataDelCb, [], SortedMap.empty, SortedMap.empty, []⟩

def reset (c : State A T) : State A T :=
  { c with cache := [], eAccMap := SortedMap.empty, accNumMap := SortedMap.empty }

def contains (c : State A T) (e : T) : Bool := c.cache.contains e

/-- `acc_num_map[acc] += n`, from zero where there is no entry. -/
def count (c : State A T) (acc : A) (n : Int) : State A T :=
  { c with accNumMap := c.accNumMap.insert acc ((c.accNumMap.get? acc).getD 0 + n) }

def callHandler (c : State A T) (e : T) : State A T :=
  if c.handleDataDelCb then { c with deled := c.deled ++ [e] } else c

/-- Erasing what the map does not have is undefined. -/
def del (c : State A T) (acc : A) (e : T) : Option (State A T × Int) :=
  if contains c e then
    let c := count (callHandler c e) acc (-1)
    if c.eAccMap.contains e then some ({ c with eAccMap := c.eAccMap.erase e, cache := c.cache.erase e }, 0) else none
  else some (c, 1)

variable [Inhabited A]

/-- `e_acc_map[e]` -/
def accOf (c : State A T) (e : T) : A × State A T :=
  match c.eAccMap.get? e with
  | some acc => (acc, c)
  | none => (default, { c with eAccMap := c.eAccMap.insert e default })

/-- The front of an empty queue is undefined. -/
def pop (c : State A T) : Option (State A T × Int) :=
  match c.cache with
  | [] => none
  | e :: _ =>
    let (acc, c) := accOf c e
    del c acc e

/-- What `pop` returns is not looked at. -/
def push (c : State A T) (acc : A) (e : T) : Option (State A T × Int) :=
  if contains c e then some (c, 1)
  else
    let room := if (c.cache.length : Int) = c.maxSize then (pop c).map (·.1) else some c
    room.map fun c =>
      let c := count c acc 1
      ({ c with eAccMap := c.eAccMap.insert e acc, cache := c.cache ++ [e] }, 0)

omit [Inhabited A] in
def getCachedAccV (c : State A T) : List A := (c.accNumMap.entries.filter fun en => 0 < en.2).map (·.1)

inductive Op (A T : Type) where
  | reset
  | push : A → T → Op A T
  | pop
  | del : A → T → Op A T

def step (c : State A T) : Op A T → Option (State A T)
  | .reset => some (reset c)
  | .push acc e => (push c acc e).map (·.1)
  | .pop => (pop c).map (·.1)
  | .del acc e => (del c acc e).map (·.1)

end Source

/-! ## What it is for -/

section Spec
variable {A T : Type} [DecidableEq A] [DecidableEq T]

/-- The elements with the accesses they were pushed with, the oldest first, and the elements that pop, deletion
and eviction have removed. -/
structure Held (A T : Type) where
  held : List (T × A)
  removed : List T

def Held.elements (s : Held A T) : List T := s.held.map (·.1)

def Held.remove (s : Held A T) (e : T) : Held A T := ⟨s.held.filter fun x => x.1 ≠ e, s.removed ++ [e]⟩

def Held.dropOldest (s : Held A T) : Held A T :=
  match s.held with
  | [] => s
  | x :: held => ⟨held, s.removed ++ [x.1]⟩

/-- There is no pop of nothing, and a deletion is given the access of the element's push. -/
def specStep (maxSize : Int) (s : Held A T) : Op A T → Option (Held A T)
  | .reset => some ⟨[], s.removed⟩
  | .push acc e =>
    if e ∈ s.elements then some s
    else
      let s := if (s.held.length : Int) = maxSize then s.dropOldest else s
      some ⟨s.held ++ [(e, acc)], s.removed⟩
  | .pop => if s.held = [] then none else some s.dropOldest
  | .del acc e =>
    if (e, acc) ∈ s.held then some (s.remove e) else if e ∈ s.elements then none else some s

def Held.start : Held A T := ⟨[], []⟩

omit [DecidableEq A] [DecidableEq T] in
theorem Held.mem_elements {s : Held A T} {e : T} {acc : A} (h : (e, acc) ∈ s.held) : e ∈ s.elements :=
  List.mem_map_of_mem h

omit [DecidableEq A] in
theorem Held.elements_remove {s : Held A T} (hnodup : s.elements.Nodup) (e : T) :
    (s.remove e).elements = s.elements.erase e := by
  rw [hnodup.erase_eq_filter, Held.elements, Held.remove, Held.elements, List.filter_map]
  refine congrArg _ (List.filter_congr fun x _ => ?_)
  simp [bne, beq_eq_decide]

end Spec

section Exact
variable {A T : Type} [LinearOrder A] [LinearOrder T] [Inhabited A]

/-- What is to hold in every state. -/
structure Exact (maxSize : Int) (c : State A T) (s : Held A T) : Prop where
  content : c.cache = s.elements
  nodup : c.cache.Nodup
  bounded : (c.cache.length : Int) ≤ maxSize
  domain : ∀ e, c.eAccMap.contains e = true ↔ e ∈ c.cache
  pushedWith : ∀ e acc, c.eAccMap.get? e = some acc ↔ (e, acc) ∈ s.held
  counts : ∀ acc, (c.accNumMap.get? acc).getD 0 = c.cache.countP fun e => c.eAccMap.get? e = some acc
  cachedAccs : ∀ acc, acc ∈ getCachedAccV c ↔ ∃ e ∈ c.cache, c.eAccMap.get? e = some acc
  ascending : (getCachedAccV c).Pairwise (· < ·)
  present : ∀ acc e, e ∈ c.cache → push c acc e = some (c, 1)
  evicts : ∀ acc e oldest rest, c.cache = oldest :: rest → (c.cache.length : Int) = maxSize → e ∉ c.cache →
    ∃ c', push c acc e = some (c', 0) ∧ c'.cache = rest ++ [e] ∧
      c'.deled = c.deled ++ if c.handleDataDelCb then [oldest] else []
  called : c.deled = if c.handleDataDelCb then s.removed else []

end Exact

/-! ## One operation -/

section Operation
variable {A T : Type} [LinearOrder A] [LinearOrder T] {n : Int} {c : State A T} {s : Held A T} {acc : A} {e : T}

structure Represents (n : Int) (c : State A T) (s : Held A T) : Prop where
  maxSize : c.maxSize = n
  content : c.cache = s.elements
  nodup : s.elements.Nodup
  bounded : (s.held.length : Int) ≤ n
  pushedWith : ∀ e acc, c.eAccMap.get? e = some acc ↔ (e, acc) ∈ s.held
  counts : ∀ acc, (c.accNumMap.get? acc).getD 0 = s.held.countP fun x => x.2 = acc
  called : c.deled = if c.handleDataDelCb then s.removed else []

theorem contains_iff : contains c e = true ↔ e ∈ c.cache := List.contains_iff_mem

theorem Represents.mem_cache (h : Represents n c s) (he : (e, acc) ∈ s.held) : e ∈ c.cache :=
  h.content ▸ Held.mem_elements he

/-- An element has one access. -/
theorem Represents.acc_unique (h : Represents n c s) {acc' : A} (he : (e, acc) ∈ s.held)
    (he' : (e, acc') ∈ s.held) : acc = acc' :=
  Option.some.inj (((h.pushedWith e acc).mpr he).symm.trans ((h.pushedWith e acc').mpr he'))

theorem callHandler_deled (h : Represents n c s) (e : T) :
    (callHandler c e).deled = if c.handleDataDelCb then s.removed ++ [e] else [] := by
  have hcalled := h.called
  rw [callHandler]
  split
  next hcb => rw [hcalled, if_pos hcb]
  next hcb => rw [hcalled, if_neg hcb]

theorem callHandler_rest (c : State A T) (e : T) : (callHandler c e).maxSize = c.maxSize ∧
    (callHandler c e).handleDataDelCb = c.handleDataDelCb ∧ (callHandler c e).cache = c.cache ∧
    (callHandler c e).eAccMap = c.eAccMap ∧ (callHandler c e).accNumMap = c.accNumMap := by
  rw [callHandler]
  split <;> exact ⟨rfl, rfl, rfl, rfl, rfl⟩

/-- Without an element there is one less of its access. -/
theorem countP_remove (h : Represents n c s) (he : (e, acc) ∈ s.held) (acc' : A) :
    (s.held.countP fun x => x.2 = acc') =
      ((s.remove e).held.countP fun x => x.2 = acc') + if acc' = acc then 1 else 0 := by
  have hnodup := h.nodup
  have hunique : ∀ acc', (e, acc') ∈ s.held → acc' = acc := fun acc' he' => h.acc_unique he' he
  rw [Held.elements] at hnodup
  rw [Held.remove]
  dsimp only
  generalize s.held = held at *
  induction held with
  | nil => cases he
  | cons x held ih =>
    obtain ⟨e', a⟩ := x
    rw [List.map_cons, List.nodup_cons] at hnodup
    by_cases heq : e' = e
    · subst heq
      obtain rfl : a = acc := hunique a List.mem_cons_self
      have hrest : held.filter (fun x => x.1 ≠ e') = held := by
        refine List.filter_eq_self.mpr fun x hx => decide_eq_true ?_
        intro hxe
        have hmem : x.1 ∈ held.map (·.1) := List.mem_map_of_mem hx
        rw [hxe] at hmem
        exact hnodup.1 hmem
      rw [List.filter_cons_of_neg (by simp), hrest, List.countP_cons]
      simp [eq_comm]
    · have hmem : (e, acc) ∈ held := by
        rcases List.mem_cons.mp he with hx | hx
        · exact absurd (congrArg Prod.fst hx).symm heq
        · exact hx
      rw [List.filter_cons_of_pos (by simpa using heq), List.countP_cons, List.countP_cons,
        ih hmem hnodup.2 fun acc' h => hunique acc' (List.mem_cons_of_mem _ h)]
      omega

theorem Represents.domain (h : Represents n c s) (e : T) : c.eAccMap.contains e = true ↔ e ∈ s.elements := by
  rw [SortedMap.contains, Option.isSome_iff_exists, Held.elements, List.mem_map]
  constructor
  · rintro ⟨acc, hacc⟩
    exact ⟨(e, acc), (h.pushedWith e acc).mp hacc, rfl⟩
  · rintro ⟨⟨e, acc⟩, he, rfl⟩
    exact ⟨acc, (h.pushedWith e acc).mpr he⟩

theorem del_here (h : Represents n c s) (he : (e, acc) ∈ s.held) :
    ∃ c', del c acc e = some (c', 0) ∧ c'.handleDataDelCb = c.handleDataDelCb ∧ Represents n c' (s.remove e) := by
  obtain ⟨hsize, hcb, hcache, hmap, hnum⟩ := callHandler_rest c e
  have hhere : c.eAccMap.contains e = true := (h.domain e).mpr (Held.mem_elements he)
  have hwhere : (count (callHandler c e) acc (-1)).eAccMap.contains e = true := by
    rw [count, hmap]
    exact hhere
  have hdel : del c acc e = some ({ count (callHandler c e) acc (-1) with
      eAccMap := c.eAccMap.erase e, cache := c.cache.erase e }, 0) := by
    rw [del, if_pos (contains_iff.mpr (h.mem_cache he)), if_pos hwhere]
    simp only [count, hmap, hcache]
  refine ⟨_, hdel, hcb, hsize.trans h.maxSize, ?_, ?_, ?_, ?_, ?_, ?_⟩
  · rw [h.content, Held.elements_remove h.nodup]
  · rw [Held.elements_remove h.nodup]
    exact h.nodup.erase e
  · have hle : (s.remove e).held.length ≤ s.held.length := List.length_filter_le _ _
    have hbounded := h.bounded
    omega
  · intro e' acc'
    rw [SortedMap.get?_erase, Held.remove, List.mem_filter, decide_eq_true_iff, ← h.pushedWith]
    by_cases heq : e' = e <;> simp [heq]
  · intro acc'
    have hcount := countP_remove h he acc'
    have hnow := h.counts acc'
    rw [count, SortedMap.get?_insert, hnum]
    split
    next heq =>
      subst heq
      rw [if_pos rfl] at hcount
      rw [Option.getD_some, hnow]
      omega
    next hne =>
      rw [if_neg hne] at hcount
      rw [hnow]
      omega
  · show (callHandler c e).deled = if (callHandler c e).handleDataDelCb then s.removed ++ [e] else []
    rw [hcb, callHandler_deled h]

theorem del_absent (he : e ∉ c.cache) (acc : A) : del c acc e = some (c, 1) := by
  rw [del, if_neg fun hhere => he (contains_iff.mp hhere)]

variable [Inhabited A]

/-- The oldest goes as if it was deleted. -/
theorem pop_eq (h : Represents n c s) {held : List (T × A)} (hheld : s.held = (e, acc) :: held) :
    pop c = del c acc e ∧ s.dropOldest = s.remove e := by
  have hcache : c.cache = e :: held.map (·.1) := by rw [h.content, Held.elements, hheld, List.map_cons]
  have hacc : c.eAccMap.get? e = some acc := (h.pushedWith e acc).mpr (hheld ▸ List.mem_cons_self)
  constructor
  · rw [pop, hcache]
    dsimp only [accOf]
    rw [hacc]
  · have hnodup := h.nodup
    rw [Held.elements, hheld, List.map_cons, List.nodup_cons] at hnodup
    have hrest : held.filter (fun x => x.1 ≠ e) = held := by
      refine List.filter_eq_self.mpr fun x hx => decide_eq_true ?_
      intro hxe
      have hmem : x.1 ∈ held.map (·.1) := List.mem_map_of_mem hx
      rw [hxe] at hmem
      exact hnodup.1 hmem
    rw [Held.dropOldest, hheld, Held.remove, hheld, List.filter_cons_of_neg (by simp), hrest]

theorem pop_spec (h : Represents n c s) (hne : s.held ≠ []) :
    ∃ c', pop c = some (c', 0) ∧ c'.handleDataDelCb = c.handleDataDelCb ∧ Represents n c' s.dropOldest := by
  cases hheld : s.held with
  | nil => exact absurd hheld hne
  | cons x held =>
    obtain ⟨e, acc⟩ := x
    obtain ⟨hpop, hdrop⟩ := pop_eq h hheld
    rw [hpop, hdrop]
    exact del_here h (hheld ▸ List.mem_cons_self)

omit [Inhabited A] in
/-- What a push adds where there is room. -/
theorem Represents.add (h : Represents n c s) (he : e ∉ s.elements) (hroom : (s.held.length : Int) < n) (acc : A) :
    Represents n { count c acc 1 with eAccMap := c.eAccMap.insert e acc, cache := c.cache ++ [e] }
      ⟨s.held ++ [(e, acc)], s.removed⟩ := by
  have helements : Held.elements ⟨s.held ++ [(e, acc)], s.removed⟩ = s.elements ++ [e] := List.map_append
  refine ⟨h.maxSize, ?_, ?_, ?_, ?_, ?_, h.called⟩
  · rw [helements, ← h.content]
  · rw [helements]
    refine List.nodup_append.mpr ⟨h.nodup, List.nodup_singleton e, fun x hx y hy hxy => ?_⟩
    rw [hxy, List.mem_singleton.mp hy] at hx
    exact he hx
  · rw [List.length_append, List.length_singleton]
    omega
  · intro e' acc'
    rw [SortedMap.get?_insert, List.mem_append, List.mem_singleton, Prod.mk.injEq, ← h.pushedWith]
    split
    next heq =>
      subst heq
      have hnone : c.eAccMap.get? e' ≠ some acc' := fun hsome => he (Held.mem_elements ((h.pushedWith _ _).mp hsome))
      simp [hnone, eq_comm]
    next hne => simp [hne]
  · intro acc'
    have hnow := h.counts acc'
    rw [List.countP_append]
    show ((c.accNumMap.insert acc _).get? acc').getD 0 = _
    rw [SortedMap.get?_insert]
    split
    next heq =>
      subst heq
      rw [Option.getD_some, hnow]
      simp
    next hne =>
      rw [hnow]
      simp [Ne.symm hne]

theorem push_present (he : e ∈ c.cache) (acc : A) : push c acc e = some (c, 1) := by
  rw [push, if_pos (contains_iff.mpr he)]

/-- A push makes room first. -/
theorem push_spec (hn : 1 ≤ n) (h : Represents n c s) (he : e ∉ s.elements) (acc : A) :
    ∃ c', push c acc e = some (c', 0) ∧ c'.handleDataDelCb = c.handleDataDelCb ∧
      Represents n c' ⟨(if (s.held.length : Int) = n then s.dropOldest else s).held ++ [(e, acc)],
        (if (s.held.length : Int) = n then s.dropOldest else s).removed⟩ := by
  have hlen : c.cache.length = s.held.length := by rw [h.content, Held.elements, List.length_map]
  have hnot : ¬ contains c e = true := by rwa [contains_iff, h.content]
  rw [push, if_neg hnot, hlen, h.maxSize]
  split
  next hfull =>
    have hne : s.held ≠ [] := by
      intro hnil
      rw [hnil] at hfull
      simp at hfull
      omega
    obtain ⟨c', hpop, hcb, hc'⟩ := pop_spec h hne
    have hsub : ∀ x ∈ s.dropOldest.held, x ∈ s.held := by
      rw [Held.dropOldest]
      split <;> simp_all
    have hshort : s.dropOldest.held.length + 1 = s.held.length := by
      rw [Held.dropOldest]
      split <;> simp_all
    have he' : e ∉ s.dropOldest.elements := by
      intro hmem
      obtain ⟨x, hx, rfl⟩ := List.mem_map.mp hmem
      exact he (List.mem_map_of_mem (hsub x hx))
    rw [hpop]
    exact ⟨_, rfl, hcb, hc'.add he' (by omega) acc⟩
  next hroom =>
    have hbounded := h.bounded
    exact ⟨_, rfl, rfl, h.add he (by omega) acc⟩

end Operation

/-! ## The cache of the prefetch buffer -/

section View
variable {A T : Type} [LinearOrder A] [LinearOrder T]

/-- The maps as functions. -/
def view (c : State A T) : Cache.State A T :=
  ⟨c.maxSize, c.cache, c.eAccMap.get?, fun acc => (c.accNumMap.get? acc).getD 0⟩

theorem view_count (c : State A T) (acc : A) (n : Int) :
    (fun a => ((count c acc n).accNumMap.get? a).getD 0) =
      Function.update (view c).accNum acc ((view c).accNum acc + n) := by
  funext a
  rw [count, SortedMap.get?_insert, Function.update_apply]
  split <;> rfl

/-- With room a push is the one of the buffer. -/
theorem push_view [Inhabited A] (c : State A T) (acc : A) (e : T) (hroom : (c.cache.length : Int) ≠ c.maxSize) :
    (push c acc e).map (fun r => view r.1) = some (Cache.push (view c) acc e) := by
  have hcount := view_count c acc 1
  rw [push, Cache.push]
  by_cases he : contains c e = true
  · have he' : Cache.contains (view c) e = true := he
    rw [if_pos he, if_pos he']
    rfl
  · have he' : ¬ Cache.contains (view c) e = true := he
    rw [if_neg he, if_neg he', if_neg hroom]
    show some (Cache.State.mk _ _ _ (fun a => ((count c acc 1).accNumMap.get? a).getD 0)) = _
    rw [hcount]
    congr 2
    funext e'
    show (c.eAccMap.insert e acc).get? e' = _
    rw [SortedMap.get?_insert, Function.update_apply]
    rfl

theorem del_view (c : State A T) (acc : A) (e : T) (he : contains c e = true) :
    (del c acc e).map (fun r => view r.1) = Cache.del (view c) acc e := by
  obtain ⟨hsize, -, hcache, hmap, hnum⟩ := callHandler_rest c e
  have hcount := view_count (callHandler c e) acc (-1)
  have hwhere : (count (callHandler c e) acc (-1)).eAccMap = c.eAccMap := hmap
  rw [del, if_pos he, Cache.del]
  dsimp only
  rw [hwhere]
  by_cases hdom : c.eAccMap.contains e = true
  · have hboth : (Cache.contains (view c) e && ((view c).eAcc e).isSome) = true := by
      rw [Bool.and_eq_true]
      exact ⟨he, hdom⟩
    rw [if_pos hdom, if_pos hboth]
    show some (Cache.State.mk (callHandler c e).maxSize ((callHandler c e).cache.erase e) _
      (fun a => ((count (callHandler c e) acc (-1)).accNumMap.get? a).getD 0)) = _
    rw [hcount, hsize, hcache]
    congr 2
    · funext e'
      show (c.eAccMap.erase e).get? e' = _
      rw [SortedMap.get?_erase, Function.update_apply]
      rfl
    · rw [view, hnum]
      rfl
  · have hnot : ¬ (Cache.contains (view c) e && ((view c).eAcc e).isSome) = true := by
      rw [Bool.and_eq_true]
      exact fun h => hdom h.2
    rw [if_neg hdom, if_neg hnot]
    rfl

end View

/-! ## Runs -/

section Run
variable {A T : Type} [LinearOrder A] [LinearOrder T] [Inhabited A] {n : Int} {c : State A T} {s s' : Held A T}

omit [Inhabited A] in
theorem Represents.counted (h : Represents n c s) (acc : A) :
    (c.accNumMap.get? acc).getD 0 = c.cache.countP fun e => c.eAccMap.get? e = some acc := by
  rw [h.counts, h.content, Held.elements, List.countP_map]
  refine congrArg _ (List.countP_congr fun x hx => ?_)
  have hacc : c.eAccMap.get? x.1 = some x.2 := (h.pushedWith x.1 x.2).mpr hx
  simp [hacc]

omit [Inhabited A] in
theorem mem_getCachedAccV {acc : A} : acc ∈ getCachedAccV c ↔ 0 < (c.accNumMap.get? acc).getD 0 := by
  simp only [getCachedAccV, List.mem_map, List.mem_filter, decide_eq_true_iff]
  constructor
  · rintro ⟨⟨acc', num⟩, ⟨hmem, hpos⟩, rfl⟩
    rw [SortedMap.mem_entries.mp hmem]
    exact hpos
  · intro hpos
    cases hnum : c.accNumMap.get? acc with
    | none =>
      rw [hnum] at hpos
      exact absurd hpos (lt_irrefl _)
    | some num =>
      rw [hnum] at hpos
      exact ⟨(acc, num), ⟨SortedMap.mem_entries.mpr hnum, hpos⟩, rfl⟩

theorem Represents.exact (hn : 1 ≤ n) (h : Represents n c s) : Exact n c s where
  content := h.content
  nodup := h.content ▸ h.nodup
  bounded := by
    rw [h.content, Held.elements, List.length_map]
    exact h.bounded
  domain e := by
    rw [h.content]
    exact h.domain e
  pushedWith := h.pushedWith
  counts := h.counted
  cachedAccs acc := by
    rw [mem_getCachedAccV, h.counted, Int.natCast_pos, List.countP_pos_iff]
    simp only [decide_eq_true_iff]
  ascending := List.pairwise_map.mpr (c.accNumMap.sorted.filter _)
  present acc e he := push_present he acc
  evicts acc e oldest rest hcache hfull he := by
    rw [h.content] at he hcache
    have hlen : c.cache.length = s.held.length := by rw [h.content, Held.elements, List.length_map]
    obtain ⟨c', hpush, hcb, hc'⟩ := push_spec hn h he acc
    rw [hlen] at hfull
    rw [if_pos hfull] at hc'
    cases hheld : s.held with
    | nil =>
      rw [Held.elements, hheld] at hcache
      cases hcache
    | cons x held =>
      rw [Held.elements, hheld, List.map_cons, List.cons.injEq] at hcache
      obtain ⟨rfl, rfl⟩ := hcache
      have hdrop : s.dropOldest = ⟨held, s.removed ++ [x.1]⟩ := by rw [Held.dropOldest, hheld]
      rw [hdrop] at hc'
      refine ⟨c', hpush, ?_, ?_⟩
      · rw [hc'.content, Held.elements, List.map_append]
        rfl
      · rw [hc'.called, h.called, hcb]
        split <;> rfl
  called := h.called

omit [Inhabited A] in
theorem represents_init (hn : 1 ≤ n) (handleDataDelCb : Bool) :
    Represents n (init n handleDataDelCb : State A T) Held.start where
  maxSize := rfl
  content := rfl
  nodup := List.nodup_nil
  bounded := by
    rw [Held.start, List.length_nil]
    omega
  pushedWith e acc := by simp [init, Held.start]
  counts acc := rfl
  called := by
    rw [Held.start]
    exact (ite_self _).symm

theorem represents_step (hn : 1 ≤ n) (h : Represents n c s) {op : Op A T} (hspec : specStep n s op = some s') :
    ∃ c', step c op = some c' ∧ c'.handleDataDelCb = c.handleDataDelCb ∧ Represents n c' s' := by
  cases op with
  | reset =>
    obtain rfl := Option.some.inj hspec
    refine ⟨reset c, rfl, rfl, h.maxSize, rfl, List.nodup_nil, ?_, ?_, fun acc => rfl, h.called⟩
    · rw [List.length_nil]
      omega
    · intro e acc
      simp [reset]
  | push acc e =>
    rw [specStep] at hspec
    split at hspec
    next he =>
      obtain rfl := Option.some.inj hspec
      refine ⟨c, ?_, rfl, h⟩
      rw [step, push_present (h.content ▸ he)]
      rfl
    next he =>
      obtain rfl := Option.some.inj hspec
      obtain ⟨c', hpush, hcb, hc'⟩ := push_spec hn h he acc
      refine ⟨c', ?_, hcb, hc'⟩
      rw [step, hpush]
      rfl
  | pop =>
    rw [specStep] at hspec
    split at hspec
    next => cases hspec
    next hne =>
      obtain rfl := Option.some.inj hspec
      obtain ⟨c', hpop, hcb, hc'⟩ := pop_spec h hne
      refine ⟨c', ?_, hcb, hc'⟩
      rw [step, hpop]
      rfl
  | del acc e =>
    rw [specStep] at hspec
    split at hspec
    next he =>
      obtain rfl := Option.some.inj hspec
      obtain ⟨c', hdel, hcb, hc'⟩ := del_here h he
      refine ⟨c', ?_, hcb, hc'⟩
      rw [step, hdel]
      rfl
    next =>
      split at hspec
      next => cases hspec
      next he =>
        obtain rfl := Option.some.inj hspec
        refine ⟨c, ?_, rfl, h⟩
        rw [step, del_absent (h.content ▸ he)]
        rfl

theorem represents_run (hn : 1 ≤ n) (h : Represents n c s) {ops : List (Op A T)}
    (hspec : Transition.run (specStep n) ops s = some s') :
    ∃ c', Transition.run step ops c = some c' ∧ c'.handleDataDelCb = c.handleDataDelCb ∧ Represents n c' s' := by
  induction ops generalizing c s with
  | nil =>
    obtain rfl := Option.some.inj hspec
    exact ⟨c, rfl, rfl, h⟩
  | cons op ops ih =>
    obtain ⟨u, hu, hrest⟩ := Option.bind_eq_some_iff.mp hspec
    obtain ⟨cu, hstep, hcb, hcu⟩ := represents_step hn h hu
    obtain ⟨c', hrun, hcb', hc'⟩ := ih hcu hrest
    exact ⟨c', Option.bind_eq_some_iff.mpr ⟨cu, hstep, hrun⟩, hcb'.trans hcb, hc'⟩

/-- Any run that pops no empty cache and deletes by the access of the push goes through, and leaves the cache
exact. -/
theorem cache_exact (maxSize : Int) (hmax : 1 ≤ maxSize) (handleDataDelCb : Bool) (ops : List (Op A T)) (s : Held A T)
    (h : Transition.run (specStep maxSize) ops Held.start = some s) :
    ∃ c, Transition.run step ops (init maxSize handleDataDelCb) = some c ∧ c.handleDataDelCb = handleDataDelCb ∧
      Exact maxSize c s := by
  obtain ⟨c, hrun, hcb, hc⟩ := represents_run hmax (represents_init hmax handleDataDelCb) h
  exact ⟨c, hrun, hcb, hc.exact hmax⟩

end Run

/-- Of two places the older element goes. -/
theorem cache_exact_two : ∃ c : State Nat Nat,
    Transition.run step [.push 7 1, .push 7 2, .push 8 3, .push 8 3] (init 2 true) = some c ∧
    c.cache = [2, 3] ∧ c.deled = [1] := by
  obtain ⟨c, hrun, hcb, hexact⟩ := cache_exact (A := Nat) (T := Nat) 2 (by decide) true
    [.push 7 1, .push 7 2, .push 8 3, .push 8 3] ⟨[(2, 7), (3, 8)], [1]⟩ rfl
  refine ⟨c, hrun, hexact.content, ?_⟩
  rw [hexact.called, hcb]
  rfl

end CacheRuns
