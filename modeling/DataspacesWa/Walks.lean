import DataspacesWa.ParseTree
import DataspacesWa.Trie

/-!
# Parse trees as counting tries

A parse tree represents a trie: the keys on the way to a vertex are its path,
its `num_visit` is the count of the path, and its children have together what
the trie says. Each step of the cursor and each new leaf is one step of the
trie.
-/
namespace Walks

open Function (update update_self update_of_ne)
open Graph (properties Labels childSum pathHang pathHang_new pathHang_old)
open ParseTree

structure Represents (g : Graph.State VertexProperties) (path : Nat → List KeyT) (T : Trie.State KeyT) :
    Prop where
  labels : Labels VertexProperties.key g path
  visits : ∀ v < g.vertices.length, T.visits (path v) = some (properties g v).numVisit
  dom : ∀ w m, T.visits w = some m → ∃ v < g.vertices.length, path v = w
  below : ∀ v < g.vertices.length, childSum VertexProperties.numVisit g v = T.below (path v)
  level : ∀ v < g.vertices.length, (properties g v).level = (path v).length
  status : ∀ v < g.vertices.length, (properties g v).status = .root ↔ v = 0

/-- The tree represents the trie, and its cursor is at the path. -/
structure At (t : State) (path : Nat → List KeyT) (T : Trie.State KeyT) (w : List KeyT) : Prop
    extends Represents t.ptGraph path T where
  cur_lt : t.ptGraph.cur < t.ptGraph.vertices.length
  cur : path t.ptGraph.cur = w

/-- Everything but the graph. -/
structure SameRest (t t' : State) : Prop where
  malgoT : t'.malgoT = t.malgoT
  contextSize : t'.contextSize = t.contextSize
  context : t'.context = t.context
  slidingWin : t'.slidingWin = t.slidingWin

theorem SameRest.refl (t : State) : SameRest t t := ⟨rfl, rfl, rfl, rfl⟩

theorem SameRest.trans {t t' t'' : State} (h : SameRest t t') (h' : SameRest t' t'') : SameRest t t'' :=
  ⟨h'.malgoT.trans h.malgoT, h'.contextSize.trans h.contextSize, h'.context.trans h.context,
    h'.slidingWin.trans h.slidingWin⟩

theorem init_at (malgoT : MalgoT) (contextSize : Nat) :
    At (init malgoT contextSize) (fun _ => []) Trie.empty [] where
  labels :=
    { root := rfl
      nonempty := Nat.one_pos
      path_root := rfl
      edge := by simp [init, Graph.addVertex, Graph.empty]
      nodup := List.nodup_nil
      parent := by
        intro t h0 ht
        simp [init, Graph.addVertex, Graph.empty] at ht
        omega
      inj := by
        intro s t hs ht _
        simp [init, Graph.addVertex, Graph.empty] at hs ht
        omega }
  visits v hv := by
    obtain rfl : v = 0 := by simpa [init, Graph.addVertex, Graph.empty] using hv
    rfl
  dom w m hw := by
    have hnil : w = [] := by
      by_contra hne
      simp [Trie.empty, update_of_ne hne] at hw
    exact ⟨0, Nat.one_pos, hnil.symm⟩
  below v hv := rfl
  level v hv := by
    obtain rfl : v = 0 := by simpa [init, Graph.addVertex, Graph.empty] using hv
    rfl
  status v hv := by
    obtain rfl : v = 0 := by simpa [init, Graph.addVertex, Graph.empty] using hv
    exact ⟨fun _ => rfl, fun _ => rfl⟩
  cur_lt := Nat.one_pos
  cur := rfl

section Lookup
variable {t : State} {path : Nat → List KeyT} {T : Trie.State KeyT} {w : List KeyT} {k : KeyT} {v u : Nat}

theorem Represents.some_iff {g : Graph.State VertexProperties} (h : Represents g path T) (w : List KeyT) (m : Nat) :
    T.visits w = some m ↔ ∃ v < g.vertices.length, path v = w ∧ (properties g v).numVisit = m := by
  constructor
  · intro hw
    obtain ⟨v, hv, rfl⟩ := h.dom w m hw
    exact ⟨v, hv, rfl, by simpa [h.visits v hv] using hw⟩
  · rintro ⟨v, hv, rfl, rfl⟩
    exact h.visits v hv

theorem Represents.none_iff {g : Graph.State VertexProperties} (h : Represents g path T) (w : List KeyT) :
    T.visits w = none ↔ ∀ v < g.vertices.length, path v ≠ w := by
  constructor
  · rintro hw v hv rfl
    cases hw.symm.trans (h.visits v hv)
  · intro hne
    refine Option.eq_none_iff_forall_ne_some.mpr fun m hm => ?_
    obtain ⟨v, hv, hpath⟩ := h.dom w m hm
    exact hne v hv hpath

theorem Represents.lookup (h : Represents t.ptGraph path T) (hv : v < t.ptGraph.vertices.length) :
    doesVertexHaveKeyInAdjs t v k = some u ↔ u < t.ptGraph.vertices.length ∧ path u = path v ++ [k] :=
  h.labels.adjWithKey_eq_some hv

theorem Represents.lookup_none (h : Represents t.ptGraph path T) (hv : v < t.ptGraph.vertices.length) :
    doesVertexHaveKeyInAdjs t v k = none ↔ T.visits (path v ++ [k]) = none :=
  (h.labels.adjWithKey_eq_none hv).trans (h.none_iff _).symm

/-- No two children of a vertex have one key. -/
theorem Represents.siblings {g : Graph.State VertexProperties} (h : Represents g path T) (v : Nat) :
    ((Graph.getAdjVertices g v).map fun u => (properties g u).key).Nodup := by
  refine List.Nodup.map_on ?_ (Graph.getAdjVertices_nodup h.labels.nodup v)
  intro x hx y hy hkey
  obtain ⟨-, hxlt, hxpath⟩ := (h.labels.edge v x).mp (Graph.mem_getAdjVertices.mp hx)
  obtain ⟨-, hylt, hypath⟩ := (h.labels.edge v y).mp (Graph.mem_getAdjVertices.mp hy)
  exact h.labels.inj x y hxlt hylt (by rw [hxpath, hypath, hkey])

/-- The vertex of a path. -/
def vertexAt {ν : Type} [Inhabited ν] (t : State ν) (w : List KeyT) : Option Nat :=
  Graph.vertexFrom VertexProperties.key t.ptGraph t.ptGraph.root w

theorem Represents.vertexAt_iff (h : Represents t.ptGraph path T) :
    vertexAt t w = some v ↔ v < t.ptGraph.vertices.length ∧ path v = w := by
  have hroot : path t.ptGraph.root = [] := by rw [h.labels.root, h.labels.path_root]
  have hlt : t.ptGraph.root < t.ptGraph.vertices.length := by
    rw [h.labels.root]
    exact h.labels.nonempty
  rw [vertexAt, h.labels.vertexFrom_eq_some hlt, hroot, List.nil_append]

end Lookup

/-! ## Moves of the cursor -/

section Moves
variable {t : State} {path : Nat → List KeyT} {T : Trie.State KeyT} {w p : List KeyT} {k : KeyT} {v : Nat}

theorem moveCur_rest (inc : Bool) (v : Nat) (t : State) : SameRest t (moveCur inc v t) := ⟨rfl, rfl, rfl, rfl⟩

@[simp] theorem moveCur_longest (inc : Bool) (v : Nat) (t : State) :
    (moveCur inc v t).longestPhraseLength = t.longestPhraseLength := rfl

theorem moveCur_false (h : At t path T w) (hv : v < t.ptGraph.vertices.length) :
    At (moveCur false v t) path T (path v) :=
  { h with labels := h.labels.setCur v, cur_lt := hv, cur := rfl }

/-- What a visit writes into the graph. -/
theorem moveCur_true_properties (hv : v < t.ptGraph.vertices.length) (u : Nat) :
    properties (moveCur true v t).ptGraph u =
      if u = v then incNumVisit (properties t.ptGraph v) else properties t.ptGraph u := by
  have hv' : v < (Graph.setCur t.ptGraph v).vertices.length := hv
  exact Graph.modify_properties incNumVisit hv' u

theorem moveCur_true (h : At t path T w) (hv : v < t.ptGraph.vertices.length) {T' : Trie.State KeyT}
    (hvisits : T'.visits = update T.visits (path v) ((T.visits (path v)).map (· + 1)))
    (hbelow : ∀ u < t.ptGraph.vertices.length,
      T'.below (path u) = T.below (path u) + if (u, v) ∈ t.ptGraph.edges then 1 else 0) :
    At (moveCur true v t) path T' (path v) := by
  have hlen : (moveCur true v t).ptGraph.vertices.length = t.ptGraph.vertices.length := by
    simp [moveCur, Graph.setCur]
  have hprop := moveCur_true_properties hv
  refine ⟨⟨?_, ?_, ?_, ?_, ?_, ?_⟩, hlen.symm ▸ hv, rfl⟩
  · exact (h.labels.setCur v).modify (fun _ => rfl) hv
  · intro u hu
    rw [hlen] at hu
    rw [hvisits, hprop]
    by_cases huv : u = v
    · subst huv
      simp [h.visits u hu, incNumVisit]
    · have hpath : path u ≠ path v := fun he => huv (h.labels.inj u v hu hv he)
      rw [update_of_ne hpath, if_neg huv, h.visits u hu]
  · intro u m hu
    rw [hlen]
    by_cases hpath : u = path v
    · exact ⟨v, hv, hpath.symm⟩
    · rw [hvisits, update_of_ne hpath] at hu
      exact h.dom u m hu
  · intro u hu
    rw [hlen] at hu
    rw [hbelow u hu, ← h.below u hu]
    exact Graph.childSum_modify (h.labels.setCur v) _ (fun _ => rfl) hv
  · intro u hu
    rw [hlen] at hu
    rw [hprop, ← h.level u hu]
    split
    · rename_i huv
      rw [huv]
      rfl
    · rfl
  · intro u hu
    rw [hlen] at hu
    rw [hprop, ← h.status u hu]
    split
    · rename_i huv
      rw [huv]
      rfl
    · rfl

/-- Going down to a child visits it. -/
theorem goDown (h : At t path T w) (hv : v < t.ptGraph.vertices.length)
    (hpath : path v = p ++ [k]) : At (moveCur true v t) path ((Trie.visit T p k)) (p ++ [k]) := by
  rw [← hpath]
  refine moveCur_true h hv (by rw [hpath]; rfl) fun u hu => ?_
  have hedge : (u, v) ∈ t.ptGraph.edges ↔ path u = p := by
    rw [h.labels.edge u v, hpath, h.labels.key_eq hv hpath]
    simp [hu, hv, eq_comm]
  by_cases hup : path u = p
  · simp [hedge, hup, Trie.visit]
  · simp [hedge, hup, Trie.visit]

/-- Going back to the root visits it. -/
theorem goHome (h : At t path T w) : At (moveCur true t.ptGraph.root t) path (Trie.home T) [] := by
  have hroot : path t.ptGraph.root = [] := by rw [h.labels.root, h.labels.path_root]
  have hlt : t.ptGraph.root < t.ptGraph.vertices.length := by
    rw [h.labels.root]
    exact h.labels.nonempty
  rw [← hroot]
  refine moveCur_true h hlt (by rw [hroot]; rfl) fun u hu => ?_
  have hedge : (u, t.ptGraph.root) ∉ t.ptGraph.edges := by
    rw [h.labels.edge, hroot]
    simp
  simp [hedge, Trie.home]

end Moves

/-! ## New leaves -/

section Leaves
variable {g : Graph.State VertexProperties} {t : State} {path : Nat → List KeyT} {T : Trie.State KeyT}
  {w : List KeyT} {k : KeyT} {v : Nat}

theorem Represents.hang (h : Represents g path T) (prop : VertexProperties) (hv : v < g.vertices.length)
    (hfree : T.visits (path v ++ [prop.key]) = none) (hlevel : prop.level = (path v).length + 1)
    (hstatus : prop.status ≠ .root) :
    Represents (Graph.hang g v prop).1 (pathHang g.vertices.length path v prop.key)
      (Trie.grow T (path v) prop.key prop.numVisit) := by
  have hlabels := h.labels.hang hv ((h.none_iff _).mp hfree)
  have hlen := h.labels.hang_length v prop
  have hprop := h.labels.hang_properties v prop
  -- whatever holds of the old vertices and of the new one holds of all
  have hall : ∀ (P : Nat → Prop), (∀ u < g.vertices.length, P u) → P g.vertices.length →
      ∀ u < (Graph.hang g v prop).1.vertices.length, P u := by
    intro P hold hnew u hu
    rw [hlen] at hu
    rcases Nat.lt_succ_iff_lt_or_eq.mp hu with hu | rfl
    · exact hold u hu
    · exact hnew
  have hne : ∀ u < g.vertices.length, path u ≠ path v ++ [prop.key] := (h.none_iff _).mp hfree
  have hself : path v ≠ path v ++ [prop.key] := hne v hv
  refine ⟨hlabels, hall _ ?_ ?_, ?_, hall _ ?_ ?_, hall _ ?_ ?_, hall _ ?_ ?_⟩
  · intro u hu
    rw [pathHang_old hu, hprop, if_neg (Nat.ne_of_lt hu), ← h.visits u hu]
    simp [Trie.grow, update_of_ne (hne u hu)]
  · rw [pathHang_new, hprop, if_pos rfl]
    simp [Trie.grow]
  · intro u m hu
    rw [hlen]
    by_cases hun : u = path v ++ [prop.key]
    · exact ⟨g.vertices.length, Nat.lt_succ_self _, by rw [pathHang_new, hun]⟩
    · simp only [Trie.grow, update_of_ne hun] at hu
      obtain ⟨x, hx, hpath⟩ := h.dom u m hu
      exact ⟨x, Nat.lt_succ_of_lt hx, by rw [pathHang_old hx, hpath]⟩
  · intro u hu
    rw [pathHang_old hu, Graph.childSum_hang h.labels _ hv, h.below v hv, h.below u hu,
      if_neg (Nat.ne_of_lt hu)]
    by_cases huv : u = v
    · simp [huv, Trie.grow]
    · have hpath : path u ≠ path v := fun he => huv (h.labels.inj u v hu hv he)
      simp [Trie.grow, huv, update_of_ne hpath, update_of_ne (hne u hu)]
  · have hvn : g.vertices.length ≠ v := (Nat.ne_of_lt hv).symm
    rw [pathHang_new, Graph.childSum_hang h.labels _ hv]
    simp [Trie.grow, hvn]
  · intro u hu
    rw [pathHang_old hu, hprop, if_neg (Nat.ne_of_lt hu)]
    exact h.level u hu
  · rw [pathHang_new, hprop, if_pos rfl]
    simpa using hlevel
  · intro u hu
    rw [hprop, if_neg (Nat.ne_of_lt hu)]
    exact h.status u hu
  · rw [hprop, if_pos rfl]
    have hpos := h.labels.nonempty
    exact ⟨fun he => absurd he hstatus, fun he => absurd he (Nat.pos_iff_ne_zero.mp hpos)⟩

@[simp] theorem setNormal_length (g : Graph.State VertexProperties) (v : Nat) :
    (setNormal g v).vertices.length = g.vertices.length := by
  unfold setNormal
  split
  · exact Graph.modify_length v _
  · rfl

@[simp] theorem setNormal_cur (g : Graph.State VertexProperties) (v : Nat) : (setNormal g v).cur = g.cur := by
  unfold setNormal
  split <;> rfl

/-- The trie does not see that a leaf becomes normal. -/
theorem Represents.setNormal (h : Represents g path T) (hv : v < g.vertices.length) :
    Represents (setNormal g v) path T := by
  unfold ParseTree.setNormal
  split
  · rename_i hleaf
    have hprop : ∀ u, properties (Graph.modify g v fun prop => { prop with status := .normal }) u =
        if u = v then { properties g v with status := .normal } else properties g u :=
      Graph.modify_properties _ hv
    have hlen : (Graph.modify g v fun prop => { prop with status := .normal }).vertices.length =
        g.vertices.length := Graph.modify_length v _
    have hvisit : ∀ u, (properties (Graph.modify g v fun prop => { prop with status := .normal }) u).numVisit =
        (properties g u).numVisit := by
      intro u
      rw [hprop]
      split <;> simp_all
    refine ⟨h.labels.modify (fun _ => rfl) hv, ?_, ?_, ?_, ?_, ?_⟩
    · intro u hu
      rw [hvisit]
      exact h.visits u (hlen ▸ hu)
    · intro u m hu
      rw [hlen]
      exact h.dom u m hu
    · intro u hu
      rw [← h.below u (hlen ▸ hu)]
      exact Graph.childSum_congr _ rfl hvisit
    · intro u hu
      rw [hprop, ← h.level u (hlen ▸ hu)]
      split <;> simp_all
    · intro u hu
      rw [hprop, ← h.status u (hlen ▸ hu)]
      split <;> simp_all
  · exact h

theorem createConnectLeaf_rest (t : State) (v : Nat) (k : KeyT) : SameRest t (createConnectLeaf t v k).1 :=
  ⟨rfl, rfl, rfl, rfl⟩

/-- `create__connect_leaf` under a free key grows the trie. -/
theorem createConnectLeaf_at (h : At t path T w) (hv : v < t.ptGraph.vertices.length)
    (hfree : T.visits (path v ++ [k]) = none) :
    At (createConnectLeaf t v k).1 (pathHang t.ptGraph.vertices.length path v k)
      (Trie.grow T (path v) k 1) w := by
  have hopen := h.toRepresents.setNormal hv
  have hv' : v < (setNormal t.ptGraph v).vertices.length := (setNormal_length _ v).symm ▸ hv
  have hhang := hopen.hang ⟨k, 1, .leaf, (properties t.ptGraph v).level + 1⟩ hv' hfree
    (by rw [h.level v hv]) (by simp)
  rw [setNormal_length] at hhang
  have hcur : (createConnectLeaf t v k).1.ptGraph.cur = t.ptGraph.cur := by
    simp [createConnectLeaf, hopen.labels.hang_eq]
  refine ⟨hhang, ?_, ?_⟩
  · rw [hcur]
    simpa [createConnectLeaf, hopen.labels.hang_eq] using Nat.lt_succ_of_lt h.cur_lt
  · rw [hcur, pathHang_old h.cur_lt, h.cur]

theorem createConnectLeaf_snd (h : At t path T w) (hv : v < t.ptGraph.vertices.length) :
    (createConnectLeaf t v k).2 = t.ptGraph.vertices.length := by
  simp [createConnectLeaf, (h.toRepresents.setNormal hv).labels.hang_eq]

theorem createConnectLeaf_length (h : At t path T w) (hv : v < t.ptGraph.vertices.length) :
    (createConnectLeaf t v k).1.ptGraph.vertices.length = t.ptGraph.vertices.length + 1 := by
  simp [createConnectLeaf, (h.toRepresents.setNormal hv).labels.hang_eq]

theorem createConnectLeaf_longest (h : At t path T w) (hv : v < t.ptGraph.vertices.length) :
    (createConnectLeaf t v k).1.longestPhraseLength =
      if k = backToRootLeafKey then t.longestPhraseLength
      else max t.longestPhraseLength ((path v).length + 1) := by
  simp only [createConnectLeaf, h.level v hv]
  by_cases hk : k = backToRootLeafKey
  · simp [hk]
  · by_cases hlt : t.longestPhraseLength < (path v).length + 1
    · simp [hk, hlt, Nat.max_eq_right (Nat.le_of_lt hlt)]
    · simp [hk, hlt, Nat.max_eq_left (Nat.le_of_not_lt hlt)]

/-- The new leaf, and what its parent becomes; the other vertices are as they were. -/
theorem createConnectLeaf_properties (h : At t path T w) (hv : v < t.ptGraph.vertices.length) (u : Nat) :
    properties (createConnectLeaf t v k).1.ptGraph u =
      if u = t.ptGraph.vertices.length then ⟨k, 1, .leaf, (path v).length + 1⟩
      else if u = v ∧ (properties t.ptGraph v).status = .leaf then
        { properties t.ptGraph v with status := .normal }
      else properties t.ptGraph u := by
  have hopen : properties (ParseTree.setNormal t.ptGraph v) u =
      if u = v ∧ (properties t.ptGraph v).status = .leaf then
        { properties t.ptGraph v with status := .normal } else properties t.ptGraph u := by
    unfold ParseTree.setNormal
    split
    · rename_i hleaf
      rw [Graph.modify_properties _ hv]
      simp [hleaf]
    · rename_i hleaf
      simp [hleaf]
  have hhang := (h.toRepresents.setNormal hv).labels.hang_properties v
    ⟨k, 1, .leaf, (properties t.ptGraph v).level + 1⟩ u
  rw [setNormal_length, hopen, h.level v hv] at hhang
  simpa [createConnectLeaf, h.level v hv] using hhang

/-- A child of a path that is not there is not there. -/
theorem Represents.no_child (h : Represents g path T) (hw : T.visits w = none) (k : KeyT) :
    T.visits (w ++ [k]) = none := by
  rw [h.none_iff] at hw ⊢
  intro v hv hpath
  obtain ⟨x, hx, hxpath⟩ := h.labels.closed hv (w := w) (by simp [hpath])
  exact hw x hx hxpath

theorem Represents.no_descendant (h : Represents g path T) (hw : T.visits w = none) (u : List KeyT) :
    T.visits (w ++ u) = none := by
  induction u using List.reverseRecOn with
  | nil => rwa [List.append_nil]
  | append_singleton u key ih =>
    rw [← List.append_assoc]
    exact h.no_child ih key

end Leaves

end Walks
