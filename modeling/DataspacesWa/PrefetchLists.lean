import DataspacesWa.MixedScores

/-!
# What is prefetched and what is evicted

A prediction returns the accesses to prefetch and those that may be evicted.
Whatever tree it is made from, the first are accesses that have been made: the
trees grow by the keys accessed and by the leaves back to the root only, and
those leaves are left out. The others are the rest of what has been accessed,
without what is cached.
-/
namespace PrefetchLists

open Graph (Below properties getAdjVertices)
open ParseTree
open Predictors
open TopK (ranked pushUntil_nil ranked_keys_nodup get?_of_mem_ranked)

/-! ## The keys of a tree -/

/-- All that a tree holds and will add is as wanted. -/
structure Holds (S : KeyT → Prop) (t : State) : Prop where
  below : Below (fun prop => S prop.key) t.ptGraph
  context : ∀ key ∈ t.context, S key
  slidingWin : ∀ key ∈ t.slidingWin, S key

section Holds
variable {S S' : KeyT → Prop} {t : State} {key : KeyT}

theorem Holds.imp (h : Holds S t) (himp : ∀ key, S key → S' key) : Holds S' t :=
  ⟨h.below.imp fun _ => himp _, fun key hkey => himp key (h.context key hkey),
    fun key hkey => himp key (h.slidingWin key hkey)⟩

theorem init_holds (malgoT : MalgoT) (contextSize : Nat) : Holds S (init malgoT contextSize) := by
  refine ⟨⟨Nat.one_pos, ?_, ?_⟩, ?_, ?_⟩
  · intro e he
    simp [init, Graph.addVertex, Graph.empty] at he
  · intro v h0 hv
    have hv : v < 1 := hv
    omega
  · rintro _ ⟨⟩
  · rintro _ ⟨⟩

theorem moveCur_holds (h : Holds S t) (inc : Bool) (v : Nat) : Holds S (moveCur inc v t) := by
  refine ⟨?_, h.context, h.slidingWin⟩
  cases inc with
  | true =>
    have hinc : ∀ prop, S prop.key → S (incNumVisit prop).key := fun _ hprop => hprop
    exact (h.below.setCur v).modify hinc v
  | false => exact h.below.setCur v

theorem createConnectLeaf_holds (h : Holds S t) (hkey : S key) (v : Nat) :
    Holds S (createConnectLeaf t v key).1 := by
  have hnormal : Below (fun prop => S prop.key) (setNormal t.ptGraph v) := by
    have hset : ∀ prop : VertexProperties, S prop.key → S { prop with status := .normal }.key := fun _ hprop => hprop
    unfold setNormal
    split
    · exact h.below.modify hset v
    · exact h.below
  have hleaf : S (VertexProperties.key ⟨key, 1, .leaf, (properties t.ptGraph v).level + 1⟩) := hkey
  exact ⟨hnormal.hang hleaf v, h.context, h.slidingWin⟩

theorem addAccessWLz_holds (h : Holds S t) (hback : S backToRootLeafKey) (hkey : S key) :
    Holds S (addAccessWLz t key) := by
  unfold addAccessWLz
  dsimp only
  split
  · exact moveCur_holds h true _
  · have hleaf := createConnectLeaf_holds h hkey t.ptGraph.cur
    split
    · exact moveCur_holds hleaf true _
    · exact moveCur_holds (createConnectLeaf_holds hleaf hback _) true _

theorem goDownOrCreate_holds (h : Holds S t) (hkey : S key) : Holds S (goDownOrCreate t key) := by
  unfold goDownOrCreate
  split
  · exact moveCur_holds h true _
  · exact moveCur_holds (createConnectLeaf_holds h hkey _) false _

theorem mem_slide {slidingWin : List KeyT} {k : KeyT} (h : k ∈ slide slidingWin key) : k ∈ slidingWin ∨ k = key := by
  unfold slide at h
  split at h
  · simpa using h
  · rcases List.mem_append.mp h with h | h
    · exact .inl (List.mem_of_mem_tail h)
    · exact .inr (List.mem_singleton.mp h)

theorem addAccessWAlz_holds (h : Holds S t) (hback : S backToRootLeafKey) (hkey : S key) :
    Holds S (addAccessWAlz t key) := by
  have hlz := addAccessWLz_holds h hback hkey
  have hslide : Holds S { addAccessWLz t key with slidingWin := slide (addAccessWLz t key).slidingWin key } := by
    refine ⟨hlz.below, hlz.context, fun k hk => ?_⟩
    rcases mem_slide hk with hk | rfl
    · exact hlz.slidingWin k hk
    · exact hkey
  have hwalk : ∀ (keys : List KeyT) (t : State), Holds S t → (∀ k ∈ keys, S k) →
      Holds S (keys.foldl goDownOrCreate t) := by
    intro keys
    induction keys with
    | nil => exact fun t ht _ => ht
    | cons k keys ih =>
      intro t ht hkeys
      exact ih _ (goDownOrCreate_holds ht (hkeys k List.mem_cons_self))
        fun k hk => hkeys k (List.mem_cons_of_mem _ hk)
  simp only [addAccessWAlz]
  refine moveCur_holds ?_ false _
  split
  · exact goDownOrCreate_holds (hwalk _ _ (moveCur_holds hslide true _) hslide.slidingWin) hback
  · exact hslide

theorem walkOn_holds (h : Holds S t) (inc : Bool) (keys : List KeyT) : Holds S (walkOn inc keys t).1 := by
  induction keys generalizing t with
  | nil => exact h
  | cons key keys ih =>
    rw [walkOn]
    split
    · exact ih (moveCur_holds h inc _)
    · exact h

theorem createOn_holds (h : Holds S t) (keys : List KeyT) (hkeys : ∀ key ∈ keys, S key) :
    Holds S (createOn keys t) := by
  induction keys generalizing t with
  | nil => exact h
  | cons key keys ih =>
    have hhang : ∀ prop : VertexProperties, S prop.key →
        Holds S { t with ptGraph := (Graph.hang t.ptGraph t.ptGraph.cur prop).1 } :=
      fun prop hprop => ⟨h.below.hang hprop _, h.context, h.slidingWin⟩
    rw [createOn]
    exact ih (moveCur_holds (hhang ⟨key, 0, _, _⟩ (hkeys key List.mem_cons_self)) true _)
      fun k hk => hkeys k (List.mem_cons_of_mem _ hk)

theorem encodeAccess_holds (h : Holds S t) (hkey : S key) : Holds S (encodeAccess t key) := by
  unfold encodeAccess
  split
  · exact moveCur_holds h true _
  · exact createConnectLeaf_holds h hkey _

theorem addAccessWPpm_holds (h : Holds S t) (hkey : S key) : Holds S (addAccessWPpm t key) := by
  have hgrow : ∀ (t : State) (l : List KeyT), Holds S t → (∀ k ∈ l, S k) → Holds S { t with context := l ++ [key] } := by
    intro t l ht hl
    refine ⟨ht.below, fun k hk => ?_, ht.slidingWin⟩
    rcases List.mem_append.mp hk with hk | hk
    · exact hl k hk
    · exact List.mem_singleton.mp hk ▸ hkey
  unfold addAccessWPpm
  split
  · have hwalk := walkOn_holds h true t.context
    have hcreate := createOn_holds hwalk ((walkOn true t.context t).1.context.drop (walkOn true t.context t).2)
      fun k hk => hwalk.context k (List.mem_of_mem_drop hk)
    have hhome := moveCur_holds (encodeAccess_holds hcreate hkey) true
      (encodeAccess (createMoveCurOnContext (walkOn true t.context t).1 (walkOn true t.context t).2) key).ptGraph.root
    exact hgrow _ _ hhome fun k hk => hhome.context k (List.mem_of_mem_tail hk)
  · exact hgrow t t.context h h.context

/-- An access adds its key and leaves back to the root. -/
theorem addAccess_holds (h : Holds S t) (hback : S backToRootLeafKey) (hkey : S key) : Holds S (addAccess t key) := by
  unfold addAccess
  split
  · exact addAccessWLz_holds h hback hkey
  · exact addAccessWAlz_holds h hback hkey
  · exact addAccessWPpm_holds h hkey

end Holds

/-! ## The keys of a prediction -/

section Predict
variable {S : KeyT → Prop} {t : State} {jitter : Nat → ℚ} {key : KeyT}

/-- A division gives a probability to children only. -/
theorem mem_divide {g : Graph.State VertexProperties} {v : Nat} {total : Nat}
    (h : key ∈ (divide g jitter v total).map (·.1)) : ∃ u ∈ getAdjVertices g v, (properties g u).key = key := by
  have hfold : ∀ (l : List Nat) (m : KeyProbMap),
      key ∈ (l.foldl (fun m u => setProb m (properties g u).key (baseProb g total u + jitter u)) m).map (·.1) →
      (∃ u ∈ l, (properties g u).key = key) ∨ key ∈ m.map (·.1) := by
    intro l
    induction l with
    | nil => exact fun m hmem => .inr hmem
    | cons u l ih =>
      intro m hmem
      rcases ih _ hmem with ⟨x, hx, hkey⟩ | hset
      · exact .inl ⟨x, List.mem_cons_of_mem _ hx, hkey⟩
      · obtain ⟨e, he, rfl⟩ := List.mem_map.mp hset
        rcases List.mem_append.mp he with he | he
        · exact .inr (List.mem_map_of_mem (List.mem_filter.mp he).1)
        · exact .inl ⟨u, List.mem_cons_self, by rw [List.mem_singleton.mp he]⟩
  rcases hfold _ _ h with hchild | hnil
  · exact hchild
  · cases hnil

theorem mem_predictWLz (h : Holds S t) (hkey : key ∈ (predictWLz t jitter).1.map (·.1)) :
    S key ∧ key ≠ backToRootLeafKey := by
  have hdivide : ∀ v total, key ∈ (divide t.ptGraph jitter v total).map (·.1) → S key := by
    intro v total hmem
    obtain ⟨u, hu, rfl⟩ := mem_divide hmem
    exact h.below.child hu
  unfold predictWLz at hkey
  obtain ⟨e, he, rfl⟩ := List.mem_map.mp hkey
  obtain ⟨hmem, hne⟩ := List.mem_filter.mp he
  refine ⟨?_, of_decide_eq_true hne⟩
  split at hmem
  · exact hdivide _ _ (List.mem_map_of_mem hmem)
  · exact hdivide _ _ (List.mem_map_of_mem hmem)

/-- A prediction leaves the keys as they are, and predicts none but those. -/
theorem predict_holds (h : Holds S t) (jitter : Nat → ℚ) :
    Holds S (predict t jitter).1 ∧ ∀ key ∈ (predict t jitter).2.1.map (·.1), S key ∧ key ≠ backToRootLeafKey := by
  unfold predict
  split
  · exact ⟨h, fun key hkey => mem_predictWLz h hkey⟩
  · exact ⟨h, fun key hkey => mem_predictWLz h hkey⟩
  · have hwalk := walkOn_holds h false t.context
    exact ⟨moveCur_holds hwalk false _, fun key hkey => mem_predictWLz hwalk hkey⟩

end Predict

/-! ## The two lists -/

/-- What `get_to_prefetch` leaves in `num_acc`, `acc_v` and `eacc_v`. -/
structure Answer where
  numAcc : Nat
  accV : List AccT
  eaccV : List AccT

def answer (lists : List AccT × List AccT) : Answer := ⟨lists.1.length, lists.1, lists.2⟩

/-- Known accesses to prefetch, and the rest of the known ones to evict. -/
structure Partition (keys : List AccT) (num : Nat) (cachedAccV : List AccT) (r : Answer) : Prop where
  numAcc : r.numAcc = r.accV.length
  length : r.accV.length ≤ num
  nodup : r.accV.Nodup
  known : ∀ acc ∈ r.accV, acc ∈ keys
  sorted : r.eaccV.Pairwise (· < ·)
  evictable : ∀ acc, acc ∈ r.eaccV ↔ acc ∈ keys ∧ acc ∉ r.accV ∧ acc ∉ cachedAccV

section Lists
variable {num : Nat} {keys : List AccT} {b : Base}

/-- Taking the best keys of a map splits what is known, where the map gives a probability to known keys only. -/
theorem toPrefetch_partition (hnum : 1 ≤ num) {m : SortedMap AccT ℚ} (hknown : ∀ acc, acc ∈ b.accs ↔ acc ∈ keys)
    (hm : ∀ acc, m.contains acc = true → acc ∈ keys) (cachedAccV : List AccT) :
    Partition keys num cachedAccV
      (answer (toPrefetch m num [], b.evictable cachedAccV (toPrefetch m num []))) := by
  have haccV : toPrefetch m num [] = ((ranked m).map (·.2)).take num := pushUntil_nil hnum _
  refine ⟨rfl, ?_, ?_, ?_, ?_, ?_⟩
  · show (toPrefetch m num []).length ≤ num
    rw [haccV]
    exact List.length_take_le _ _
  · show (toPrefetch m num []).Nodup
    rw [haccV]
    exact (ranked_keys_nodup m).sublist (List.take_sublist _ _)
  · intro acc hacc
    change acc ∈ toPrefetch m num [] at hacc
    rw [haccV] at hacc
    obtain ⟨⟨prob, k⟩, he, rfl⟩ := List.mem_map.mp (List.mem_of_mem_take hacc)
    refine hm k ?_
    rw [SortedMap.contains, get?_of_mem_ranked he]
    rfl
  · exact b.accs_sorted.filter _
  · intro acc
    show acc ∈ b.evictable cachedAccV (toPrefetch m num []) ↔ _
    rw [Base.evictable, List.mem_filter, hknown, decide_eq_true_eq]
    exact and_congr_right fun _ => and_comm

end Lists

/-! ## Predictors with a tree -/

/-- The predictor of an algorithm that keeps a tree. -/
def algo : MalgoT → Nat → MAlgo
  | .lz, _ => lzAlgo
  | .alz, _ => alzAlgo
  | .ppm, contextSize => ppmAlgo contextSize

inductive Call where
  | addAccess : AccT → Call
  | accProbMap : Noise → Call
  | getToPrefetch : Noise → Nat → List AccT → List AccT → Call

def call (a : MAlgo) : Call → MAlgo
  | .addAccess acc => a.addAccess acc
  | .accProbMap noise => (a.accProbMap noise).1
  | .getToPrefetch noise numAcc accV cachedAccV => (a.getToPrefetch noise numAcc accV cachedAccV).1

def run (a : MAlgo) (calls : List Call) : MAlgo := calls.foldl call a

def accessed (calls : List Call) : List AccT :=
  calls.filterMap fun
    | .addAccess acc => some acc
    | _ => none

/-- The base has the accesses, and the tree no other keys but the way back to the root. -/
structure Knows (keys : List AccT) (a : MAlgo) : Prop where
  accs : ∀ acc, acc ∈ a.base.accs ↔ acc ∈ keys
  tree : ∃ t, a.parseTree = .markov t ∧ Holds (fun key => key = backToRootLeafKey ∨ key ∈ keys) t

section MAlgo
variable {keys : List AccT} {a : MAlgo} {num : Nat}

theorem algo_knows (malgoT : MalgoT) (contextSize : Nat) : Knows [] (algo malgoT contextSize) := by
  have haccs : ∀ acc, acc ∈ Base.init.accs ↔ acc ∈ [] := fun acc => Iff.rfl
  cases malgoT with
  | lz => exact ⟨haccs, _, rfl, init_holds _ _⟩
  | alz => exact ⟨haccs, _, rfl, init_holds _ _⟩
  | ppm => exact ⟨haccs, _, rfl, init_holds _ _⟩

theorem addAccess_knows (h : Knows keys a) (acc : AccT) : Knows (keys ++ [acc]) (a.addAccess acc) := by
  obtain ⟨haccs, t, htree, hholds⟩ := h
  refine ⟨fun k => ?_, ParseTree.addAccess t acc, ?_, ?_⟩
  · rw [MAlgo.addAccess, (MPAlgo.recorded_addAccess a.base acc).accs, haccs, List.mem_append, List.mem_singleton]
    exact or_comm
  · rw [MAlgo.addAccess, htree]
    rfl
  · refine addAccess_holds (hholds.imp fun k hk => ?_) (.inl rfl) (.inr (by simp))
    exact hk.imp id fun hk => List.mem_append_left _ hk

/-- What a prediction leaves of the tree, and the keys it finds. -/
theorem keyProbMap_knows (h : Knows keys a) (noise : Noise) :
    Knows keys ⟨a.base, (a.parseTree.keyProbMap noise).1⟩ ∧
      ∀ acc, (a.parseTree.keyProbMap noise).2.contains acc = true → acc ∈ keys := by
  obtain ⟨haccs, t, htree, hholds⟩ := h
  obtain ⟨hleft, hkeys⟩ := predict_holds hholds noise.jitter
  rw [htree]
  refine ⟨⟨haccs, _, rfl, hleft⟩, fun acc hacc => ?_⟩
  rcases SortedMap.contains_insertAll.mp hacc with hempty | hmem
  · cases hempty
  · obtain ⟨hknown, hne⟩ := hkeys acc hmem
    exact hknown.resolve_left hne

theorem run_knows (malgoT : MalgoT) (contextSize : Nat) (calls : List Call) :
    Knows (accessed calls) (run (algo malgoT contextSize) calls) := by
  induction calls using List.reverseRecOn with
  | nil => exact algo_knows malgoT contextSize
  | append_singleton calls c ih =>
    rw [run, List.foldl_append]
    cases c with
    | addAccess acc =>
      rw [accessed, List.filterMap_append]
      exact addAccess_knows ih acc
    | accProbMap noise =>
      have hsame : accessed (calls ++ [.accProbMap noise]) = accessed calls := by simp [accessed]
      rw [hsame]
      exact (keyProbMap_knows ih noise).1
    | getToPrefetch noise numAcc accV cachedAccV =>
      have hsame : accessed (calls ++ [.getToPrefetch noise numAcc accV cachedAccV]) = accessed calls := by
        simp [accessed]
      rw [hsame]
      exact (keyProbMap_knows ih noise).1

theorem Knows.partition (h : Knows keys a) (hnum : 1 ≤ num) (noise : Noise) (cachedAccV : List AccT) :
    Partition keys num cachedAccV (answer (a.getToPrefetch noise num [] cachedAccV).2) :=
  toPrefetch_partition hnum h.accs (keyProbMap_knows h noise).2 cachedAccV

end MAlgo

/-! ## Mixed predictors -/

/-- What has been accessed since the last reset. -/
def known (calls : List MPAlgo.Call) : List AccT :=
  calls.foldl (fun keys c => match c with
    | .reset => []
    | .access x => keys ++ [x.acc]
    | _ => keys) []

theorem run_accs (specs : List (MPAlgo.PalgoT × Nat)) (calls : List MPAlgo.Call) (acc : AccT) :
    acc ∈ (MPAlgo.run (MPAlgo.init specs) calls).base.accs ↔ acc ∈ known calls := by
  induction calls using List.reverseRecOn with
  | nil => exact Iff.rfl
  | append_singleton calls c ih =>
    rw [MPAlgo.run, known, List.foldl_append, List.foldl_append]
    cases c with
    | reset => exact Iff.rfl
    | access x =>
      show acc ∈ (MPAlgo.access (MPAlgo.run (MPAlgo.init specs) calls) x).1.base.accs ↔ acc ∈ known calls ++ [x.acc]
      rw [MPAlgo.access_eq, (MPAlgo.recorded_addAccess _ x.acc).accs, ih, List.mem_append, List.mem_singleton]
      exact or_comm
    | accProbMaps noise => exact ih
    | askAll noise time numAcc => exact ih

/-- The candidates of a mixed predictor are the accesses that are known. -/
theorem contains_scoreMap {b : Base} {score : AccT → ℚ} {acc : AccT}
    (h : (MixedScores.scoreMap b score).contains acc = true) : acc ∈ b.accs := by
  obtain ⟨prob, hprob⟩ := Option.isSome_iff_exists.mp h
  exact ((MixedScores.get?_scoreMap b score acc prob).mp hprob).1

/-! ## All of them -/

/-- After any run the accesses to prefetch are some of those known and those to evict the rest, for the predictors
with a tree and for those that mix any predictors by weights or by the greatest probability. -/
theorem lists_partition {num : Nat} (hnum : 1 ≤ num) (cachedAccV : List AccT) :
    (∀ (malgoT : MalgoT) (contextSize : Nat) (calls : List Call) (noise : Noise), Partition (accessed calls) num cachedAccV
      (answer ((run (algo malgoT contextSize) calls).getToPrefetch noise num [] cachedAccV).2)) ∧
    (∀ (specs : List (MPAlgo.PalgoT × Nat)) (weightV : List ℚ) (calls : List MPAlgo.Call) (noise : Nat → Noise),
      Partition (known calls) num cachedAccV
      (answer (MixedScores.WMPAlgo.getToPrefetch noise ⟨MPAlgo.run (MPAlgo.init specs) calls, weightV⟩ num []
        cachedAccV).2)) ∧
    ∀ (specs : List (MPAlgo.PalgoT × Nat)) (calls : List MPAlgo.Call) (noise : Nat → Noise), Partition (known calls) num cachedAccV
      (answer (MixedScores.MMPAlgo.getToPrefetch noise ⟨MPAlgo.run (MPAlgo.init specs) calls⟩ num []
        cachedAccV).2) := by
  have hmixed : ∀ (specs : List (MPAlgo.PalgoT × Nat)) (calls : List MPAlgo.Call) (score : AccT → ℚ), Partition (known calls) num cachedAccV
      (answer (toPrefetch (MixedScores.scoreMap (MPAlgo.run (MPAlgo.init specs) calls).base score) num [],
        (MPAlgo.run (MPAlgo.init specs) calls).base.evictable cachedAccV
          (toPrefetch (MixedScores.scoreMap (MPAlgo.run (MPAlgo.init specs) calls).base score) num []))) := by
    intro specs calls score
    refine toPrefetch_partition hnum (run_accs specs calls) (fun acc hacc => ?_) cachedAccV
    exact (run_accs specs calls acc).mp (contains_scoreMap hacc)
  refine ⟨?_, ?_, ?_⟩
  · intro malgoT contextSize calls noise
    exact (run_knows malgoT contextSize calls).partition hnum noise cachedAccV
  · intro specs weightV calls noise
    exact hmixed specs calls _
  · intro specs calls noise
    exact hmixed specs calls _

/-- At the vertex of 5 the tree knows 6 only, and 7 is cached. -/
theorem lists_partition_one :
    ((run (algo .lz 0) ([5, 5, 6, 7, 5].map .addAccess)).getToPrefetch (MixedScores.quiet 0) 1 [] [7]).2 =
        ([6], [5]) ∧
      Partition [5, 5, 6, 7, 5] 1 [7] (answer ([6], [5])) := by
  have hlists : ((run (algo .lz 0) ([5, 5, 6, 7, 5].map .addAccess)).getToPrefetch (MixedScores.quiet 0) 1 [] [7]).2 =
      ([6], [5]) := by decide +kernel
  have hpartition := (lists_partition (Nat.le_refl 1) [7]).1 .lz 0 ([5, 5, 6, 7, 5].map .addAccess) (MixedScores.quiet 0)
  rw [hlists] at hpartition
  exact ⟨hlists, hpartition⟩

end PrefetchLists
