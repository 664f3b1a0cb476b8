import DataspacesWa.IntVisits
import DataspacesWa.LzTree
import DataspacesWa.PpmTree

/-!
# Normalised predictions

A prediction divides the visits of the children of a vertex by a total made of
the vertex's own visits. All three algorithms keep the balance that makes the
total the sum over the children, so the probabilities add up to one. That is
shown of the visits counted without a bound, and holds of the `int`s as long as
none of them overflows.
-/
namespace Prediction

open Function (update update_self update_of_ne)
open Graph (properties getAdjVertices childSum mapProps)
open ParseTree Walks IntVisits
open PpmTree (again accessed_again prefixCounts prefixCounts_again windows lastKeys run_counts walkOn_false walkOn_rest)

/-! ## Balance of the LZ and ALZ trees -/

/-- The walks end on the leaves back to the root. -/
def Back (w : List KeyT) : Prop := ∃ p, w = p ++ [backToRootLeafKey]

/-- What an access by LZ or ALZ keeps, of the trie and the path of the cursor. -/
structure Steady (T : Trie.State KeyT) (w : List KeyT) : Prop where
  balanced : Trie.Balanced Back T w
  positive : ∀ u m, T.visits u = some m → u ≠ [] → 0 < m
  back : ∀ u, (T.visits u).isSome → u ≠ [] → ¬Back u → (T.visits (u ++ [backToRootLeafKey])).isSome
  root_back : T.visits [backToRootLeafKey] = none
  cur : ¬Back w

section Steady
variable {T : Trie.State KeyT} {w : List KeyT} {k : KeyT}

theorem not_back_concat (w : List KeyT) (hk : k ≠ backToRootLeafKey) : ¬Back (w ++ [k]) := by
  rintro ⟨p, hp⟩
  exact hk (by simpa using congrArg List.getLast? hp)

theorem isSome_descend (u : List KeyT) :
    ((Trie.descend T w k).visits u).isSome = true ↔ (T.visits u).isSome = true ∨ u = w ++ [k] := by
  rw [Trie.descend_visits]
  by_cases hu : u = w ++ [k]
  · subst hu
    simp
  · simp [hu]

theorem isSome_home (u : List KeyT) : ((Trie.home T).visits u).isSome = true ↔ (T.visits u).isSome = true := by
  rw [Trie.home_visits]
  by_cases hu : u = []
  · subst hu
    simp
  · simp [hu]

theorem positive_descend (h : ∀ u m, T.visits u = some m → u ≠ [] → 0 < m) :
    ∀ u m, (Trie.descend T w k).visits u = some m → u ≠ [] → 0 < m := by
  intro u m hu hne
  rw [Trie.descend_visits] at hu
  by_cases huk : u = w ++ [k]
  · subst huk
    rw [update_self] at hu
    exact Option.some.inj hu ▸ Nat.succ_pos _
  · rw [update_of_ne huk] at hu
    exact h u m hu hne

theorem positive_home (h : ∀ u m, T.visits u = some m → u ≠ [] → 0 < m) :
    ∀ u m, (Trie.home T).visits u = some m → u ≠ [] → 0 < m := by
  intro u m hu hne
  rw [Trie.home_visits, update_of_ne hne] at hu
  exact h u m hu hne

theorem empty_steady : Steady Trie.empty [] := by
  have hnone : ∀ u : List KeyT, u ≠ [] → Trie.empty.visits u = none := by
    intro u hu
    simp [Trie.empty, hu]
  refine ⟨.empty, ?_, ?_, hnone _ (by simp), ?_⟩
  · intro u m hu hne
    rw [hnone u hne] at hu
    cases hu
  · intro u hu hne
    rw [hnone u hne] at hu
    cases hu
  · rintro ⟨p, hp⟩
    simp at hp

/-- Going on with a phrase. -/
theorem Steady.goOn (h : Steady T w) (hk : k ≠ backToRootLeafKey) (hold : (T.visits (w ++ [k])).isSome) :
    Steady (Trie.descend T w k) (w ++ [k]) := by
  have hdom : ∀ u, ((Trie.descend T w k).visits u).isSome = true ↔ (T.visits u).isSome = true := by
    intro u
    rw [isSome_descend, or_iff_left_iff_imp]
    rintro rfl
    exact hold
  refine ⟨h.balanced.descend, positive_descend h.positive, ?_, ?_, not_back_concat w hk⟩
  · intro u hu hne hback
    rw [hdom] at hu ⊢
    exact h.back u hu hne hback
  · rw [← Option.not_isSome_iff_eq_none, hdom, h.root_back]
    simp

/-- A phrase completed and counted back to the root. -/
theorem Steady.complete (h : Steady T w) (hk : k ≠ backToRootLeafKey) :
    Steady (Trie.home (Trie.descend (Trie.descend T w k) (w ++ [k]) backToRootLeafKey)) [] := by
  have hdom : ∀ u, ((Trie.home (Trie.descend (Trie.descend T w k) (w ++ [k]) backToRootLeafKey)).visits u).isSome =
      true ↔ ((T.visits u).isSome = true ∨ u = w ++ [k]) ∨ u = w ++ [k] ++ [backToRootLeafKey] := by
    intro u
    rw [isSome_home, isSome_descend, isSome_descend]
  refine ⟨?_, ?_, ?_, ?_, ?_⟩
  · exact (h.balanced.descend.descend).home ⟨_, rfl⟩ (by simp)
  · exact positive_home (positive_descend (positive_descend h.positive))
  · intro u hu hne hback
    rw [hdom] at hu ⊢
    rcases hu with (hu | rfl) | rfl
    · exact .inl (.inl (h.back u hu hne hback))
    · exact .inr rfl
    · exact absurd ⟨_, rfl⟩ hback
  · rw [← Option.not_isSome_iff_eq_none, hdom, h.root_back]
    have hne : [backToRootLeafKey] ≠ w ++ [k] := fun he => not_back_concat w hk ⟨[], he.symm⟩
    have hne' : [backToRootLeafKey] ≠ w ++ [k, backToRootLeafKey] := fun he => by
      have := congrArg List.length he
      simp at this
    simp [hne, hne']
  · rintro ⟨p, hp⟩
    simp at hp

theorem lzStep_steady (h : Steady T w) (hk : k ≠ backToRootLeafKey)
    (hchild : ∀ u k, T.visits u = none → T.visits (u ++ [k]) = none) :
    Steady (LzTree.lzStep T w k).1 (LzTree.lzStep T w k).2 := by
  unfold LzTree.lzStep
  split
  · rename_i hold
    rw [← Trie.descend_old T w k hold]
    exact h.goOn hk hold
  · rename_i hnew
    have hnew : T.visits (w ++ [k]) = none := by simpa using hnew
    have hback : (Trie.grow T w k 1).visits (w ++ [k] ++ [backToRootLeafKey]) = none := by
      rw [Trie.grow_visits, update_of_ne (by simp)]
      exact hchild _ _ hnew
    rw [← Trie.descend_new _ _ _ hback, ← Trie.descend_new T w k hnew]
    exact h.complete hk

end Steady

/-! ## The extra walk of ALZ -/

section Alz
variable {t : State} {path : Nat → List KeyT} {T : Trie.State KeyT} {w : List KeyT} {k : KeyT}

theorem goDownOrCreate_at (h : At t path T w) :
    ∃ path', At (goDownOrCreate t k) path' (Trie.descend T w k) (w ++ [k]) := by
  unfold goDownOrCreate
  cases hfind : doesVertexHaveKeyInAdjs t t.ptGraph.cur k with
  | none =>
    rw [h.lookup_none h.cur_lt] at hfind
    have hleaf := createConnectLeaf_at h h.cur_lt hfind
    have hsnd := createConnectLeaf_snd h h.cur_lt (k := k)
    have hlen := createConnectLeaf_length h h.cur_lt (k := k)
    have hmove := moveCur_false hleaf (v := (createConnectLeaf t t.ptGraph.cur k).2) (by omega)
    rw [hsnd, Graph.pathHang_new, h.cur] at hmove
    rw [h.cur] at hfind
    rw [Trie.descend_new T w k hfind]
    simp only [hsnd]
    exact ⟨_, hmove⟩
  | some v =>
    obtain ⟨hv, hpath⟩ := (h.lookup h.cur_lt).mp hfind
    have hvisits := h.visits v hv
    rw [h.cur] at hpath
    rw [hpath] at hvisits
    rw [Trie.descend_old T w k (by simp [hvisits])]
    exact ⟨path, goDown h hv hpath⟩

theorem goDownOrCreate_rest (t : State) (k : KeyT) : SameRest t (goDownOrCreate t k) := by
  unfold goDownOrCreate
  split
  · exact moveCur_rest _ _ _
  · exact (createConnectLeaf_rest _ _ _).trans (moveCur_rest _ _ _)

theorem slide_eq {slidingWin : List KeyT} (h : slidingWin.length ≤ 1) : slide slidingWin k = [k] := by
  rcases slidingWin with _ | ⟨x, _ | ⟨y, l⟩⟩
  · rfl
  · rfl
  · simp at h

/-- What an access by LZ or ALZ keeps. -/
structure LzSteady (t : State) : Prop where
  rep : ∃ path T w, At t path T w ∧ Steady T w
  window : t.slidingWin.length ≤ 1

theorem init_lzSteady (malgoT : MalgoT) (contextSize : Nat) : LzSteady (init malgoT contextSize) :=
  ⟨⟨_, _, _, init_at malgoT contextSize, empty_steady⟩, Nat.zero_le 1⟩

theorem addAccessWLz_steady (h : LzSteady t) (hk : k ≠ backToRootLeafKey) : LzSteady (addAccessWLz t k) := by
  obtain ⟨⟨path, T, w, hat, hsteady⟩, hwindow⟩ := h
  obtain ⟨path', hat'⟩ := LzTree.addAccessWLz_at hat (k := k)
  refine ⟨⟨path', _, _, hat', lzStep_steady hsteady hk fun u x hu => hat.no_child hu x⟩, ?_⟩
  rw [(LzTree.addAccessWLz_rest t k).slidingWin]
  exact hwindow

/-- The extra walk is one more phrase of a single key. -/
theorem addAccessWAlz_steady (h : LzSteady t) (hk : k ≠ backToRootLeafKey) : LzSteady (addAccessWAlz t k) := by
  obtain ⟨⟨path, T, w, hat, hsteady⟩, hwindow⟩ := addAccessWLz_steady h hk
  generalize hlz : addAccessWLz t k = t₁ at hat hwindow
  have hslide := slide_eq hwindow (k := k)
  have hat₁ : At { t₁ with slidingWin := [k] } path T w := { hat with }
  simp only [addAccessWAlz, hlz, hslide]
  split
  · rename_i hextra
    -- the walk starts at the root, is counted there first, and comes back there
    have hcur : t₁.ptGraph.cur = 0 := (hat.status _ hat.cur_lt).mp hextra.2
    have hw : w = [] := by rw [← hat.cur, hcur, hat.labels.path_root]
    subst hw
    obtain ⟨path₂, hat₂⟩ := goDownOrCreate_at (goHome hat₁) (k := k)
    obtain ⟨path₃, hat₃⟩ := goDownOrCreate_at hat₂ (k := backToRootLeafKey)
    rw [Trie.descend_home, Trie.descend_home] at hat₃
    have hmove := moveCur_false hat₃ hat₃.labels.nonempty
    rw [hat₃.labels.path_root] at hmove
    refine ⟨⟨path₃, _, _, ?_, hsteady.complete hk⟩, ?_⟩
    · rw [hcur]
      exact hmove
    · show (goDownOrCreate (goDownOrCreate _ k) backToRootLeafKey).slidingWin.length ≤ 1
      rw [(goDownOrCreate_rest _ _).slidingWin, (goDownOrCreate_rest _ _).slidingWin]
      exact Nat.le_refl 1
  · have hmove := moveCur_false hat₁ hat₁.cur_lt
    rw [hat₁.cur] at hmove
    exact ⟨⟨path, T, w, hmove, hsteady⟩, Nat.le_refl 1⟩

end Alz

/-! ## Divisions -/

section Loops
variable {ν : Type} [Inhabited ν] [Visits ν]

/-- The visits of the children of `v`. -/
def visitSum (g : Graph.State (VertexProperties ν)) (v : Nat) : Int :=
  ((getAdjVertices g v).map fun u => Visits.toInt (properties g u).numVisit).sum

/-- A total that is the sum over the children. -/
structure Normalised (g : Graph.State (VertexProperties ν)) (v : Nat) (total : ν) : Prop where
  positive : 0 < Visits.toInt total
  sum : Visits.toInt total = visitSum g v
  probs : ((getAdjVertices g v).map (baseProb g total)).sum = 1

/-- A division loop gives each child its visits over the total and the jitter, and the total is
the sum over the children. -/
structure Divides (g : Graph.State (VertexProperties ν)) (jitter : Nat → ℚ) (l : Loop ν) : Prop where
  map : l.map = (getAdjVertices g l.v).map fun u =>
    ((properties g u).key, Visits.toInt (properties g u).numVisit / Visits.toInt l.total + jitter u)
  normalised : getAdjVertices g l.v ≠ [] → Normalised g l.v l.total

/-- What a prediction returns is what its last division loop leaves, without the way back. -/
structure Predicted (g : Graph.State (VertexProperties ν)) (jitter : Nat → ℚ) (r : KeyProbMap × List (Loop ν)) :
    Prop where
  loops : ∀ l ∈ r.2, Divides g jitter l
  last : ∃ l ∈ r.2.getLast?, r.1 = l.map.filter (·.1 ≠ backToRootLeafKey)

end Loops

section Divide
variable {g : Graph.State VertexProperties} {path : Nat → List KeyT} {T : Trie.State KeyT} {v : Nat}

theorem childSum_pos (h : Represents g path T) (hpos : ∀ u m, T.visits u = some m → u ≠ [] → 0 < m)
    (hadj : getAdjVertices g v ≠ []) : 0 < childSum VertexProperties.numVisit g v := by
  obtain ⟨u, hu⟩ := List.exists_mem_of_ne_nil _ hadj
  obtain ⟨-, hult, hpath⟩ := (h.labels.edge v u).mp (Graph.mem_getAdjVertices.mp hu)
  have hvisit := hpos _ _ (h.visits u hult) (by simp [hpath])
  have hmem : (properties g u).numVisit ∈ (getAdjVertices g v).map fun u => (properties g u).numVisit :=
    List.mem_map_of_mem hu
  exact List.sum_pos_iff_exists_pos_nat.mpr ⟨_, hmem, hvisit⟩

theorem visitSum_nat (g : Graph.State VertexProperties) (v : Nat) :
    visitSum g v = childSum VertexProperties.numVisit g v := by
  rw [visitSum, childSum, Nat.cast_list_sum, List.map_map]
  rfl

theorem normalised (h : Represents g path T) (hpos : ∀ u m, T.visits u = some m → u ≠ [] → 0 < m)
    (hadj : getAdjVertices g v ≠ []) {total : Nat} (hsum : total = childSum VertexProperties.numVisit g v) :
    Normalised g v total := by
  have hchild := childSum_pos h hpos hadj
  have hsum' : Visits.toInt total = visitSum g v := by
    rw [visitSum_nat, hsum]
    rfl
  have htotal : 0 < Visits.toInt total := by
    rw [hsum', visitSum_nat]
    exact Int.natCast_pos.mpr hchild
  refine ⟨htotal, hsum', ?_⟩
  have hdiv : ∀ l : List Nat, (l.map (baseProb g total)).sum =
      ((l.map fun u => Visits.toInt (properties g u).numVisit).sum : Int) / (Visits.toInt total : ℚ) := by
    intro l
    induction l with
    | nil => simp
    | cons u l ih => simp [baseProb, ih, add_div]
  have hne : (Visits.toInt total : ℚ) ≠ 0 := Int.cast_ne_zero.mpr (ne_of_gt htotal)
  rw [hdiv, ← visitSum, ← hsum', div_self hne]

/-- Keys that are all different are set one after the other. -/
theorem divide_eq (jitter : Nat → ℚ) (total : Nat)
    (hsiblings : ((getAdjVertices g v).map fun u => (properties g u).key).Nodup) :
    divide g jitter v total =
      (getAdjVertices g v).map fun u => ((properties g u).key, baseProb g total u + jitter u) := by
  rw [divide]
  generalize getAdjVertices g v = l at hsiblings ⊢
  induction l using List.reverseRecOn with
  | nil => rfl
  | append_singleton l u ih =>
    rw [List.map_append, List.map_singleton, List.nodup_append] at hsiblings
    obtain ⟨hnodup, -, hfresh⟩ := hsiblings
    rw [List.foldl_append, ih hnodup, List.map_append, List.foldl_cons, List.foldl_nil, setProb, List.map_singleton]
    congr 1
    refine List.filter_eq_self.mpr fun e he => decide_eq_true ?_
    obtain ⟨x, hx, rfl⟩ := List.mem_map.mp he
    exact hfresh _ (List.mem_map_of_mem hx) _ List.mem_cons_self

/-- The keys of the map are those of the children. -/
theorem divide_keys (jitter : Nat → ℚ) (total : Nat)
    (hsiblings : ((getAdjVertices g v).map fun u => (properties g u).key).Nodup) :
    (divide g jitter v total).map (·.1) = (getAdjVertices g v).map fun u => (properties g u).key := by
  rw [divide_eq jitter total hsiblings, List.map_map]
  rfl

theorem onlyBack_iff (m : KeyProbMap) :
    onlyBack m = true ↔ m.map (·.1) = [] ∨ m.map (·.1) = [backToRootLeafKey] := by
  rcases m with _ | ⟨e, _ | ⟨e', m⟩⟩ <;> simp [onlyBack]

theorem eq_nil_or_singleton {α : Type*} {l : List α} (hnodup : l.Nodup) (a : α) :
    l = [] ∨ l = [a] ↔ ∀ x ∈ l, x = a := by
  constructor
  · rintro (rfl | rfl) x hx
    · cases hx
    · exact List.mem_singleton.mp hx
  · intro hall
    cases l with
    | nil => exact .inl rfl
    | cons x l =>
      obtain ⟨hx, -⟩ := List.nodup_cons.mp hnodup
      obtain ⟨rfl, hrest⟩ := List.forall_mem_cons.mp hall
      refine .inr (congrArg (x :: ·) (List.eq_nil_iff_forall_not_mem.mpr fun y hy => hx ?_))
      rwa [hrest y hy] at hy

/-- There is only the way back where no other key leads on. -/
theorem onlyBack_divide (h : Represents g path T) (hv : v < g.vertices.length) (jitter : Nat → ℚ) (total : Nat) :
    onlyBack (divide g jitter v total) = true ↔
      ∀ key, T.visits (path v ++ [key]) ≠ none → key = backToRootLeafKey := by
  rw [onlyBack_iff, divide_keys jitter total (h.siblings v), eq_nil_or_singleton (h.siblings v)]
  refine forall_congr' fun key => imp_congr_left ?_
  rw [ne_eq, h.none_iff, List.mem_map]
  push Not
  refine exists_congr fun u => ?_
  rw [Graph.mem_getAdjVertices]
  exact h.labels.edge_iff hv

/-- Where a prediction divides: at the cursor, and at the root where the cursor has nothing but the
leaf back to it. -/
theorem mem_loops {t : State} (h : Represents t.ptGraph path T) {jitter : Nat → ℚ} {l : Loop}
    (hl : l ∈ (predictWLz t jitter).2) :
    l.map = divide t.ptGraph jitter l.v l.total ∧
      ((l.v = t.ptGraph.cur ∧ l.total = curTotal t) ∨
        l.v = t.ptGraph.root ∧ l.total = rootTotal t ∧
          (getAdjVertices t.ptGraph t.ptGraph.cur = [] ∨ ∃ u ∈ getAdjVertices t.ptGraph t.ptGraph.cur,
            (properties t.ptGraph u).key = backToRootLeafKey)) := by
  by_cases hback : onlyBack (divide t.ptGraph jitter t.ptGraph.cur (curTotal t)) = true
  · simp only [predictWLz, hback, if_true, List.mem_cons, List.not_mem_nil, or_false] at hl
    rcases hl with rfl | rfl
    · exact ⟨rfl, .inl ⟨rfl, rfl⟩⟩
    · refine ⟨rfl, .inr ⟨rfl, rfl, ?_⟩⟩
      rw [onlyBack_iff, divide_keys jitter _ (h.siblings _)] at hback
      rcases hback with hnil | hone
      · exact .inl (List.map_eq_nil_iff.mp hnil)
      · have hmem : backToRootLeafKey ∈ (getAdjVertices t.ptGraph t.ptGraph.cur).map fun u =>
            (properties t.ptGraph u).key := by simp [hone]
        exact .inr (List.mem_map.mp hmem)
  · simp only [predictWLz, hback, Bool.false_eq_true, if_false, List.mem_singleton] at hl
    obtain rfl := hl
    exact ⟨rfl, .inl ⟨rfl, rfl⟩⟩

/-- The last of the loops leaves what is returned. -/
theorem predictWLz_last (t : State) (jitter : Nat → ℚ) :
    ∃ l ∈ (predictWLz t jitter).2.getLast?, (predictWLz t jitter).1 = l.map.filter (·.1 ≠ backToRootLeafKey) := by
  simp only [predictWLz]
  split <;> exact ⟨_, rfl, rfl⟩

end Divide

/-! ## Predictions of LZ and ALZ -/

/-- The count law: what visited a vertex went on to a child of it, or is at it now. -/
structure CountLaw {ν : Type} [Inhabited ν] [Visits ν] (t : State ν) : Prop where
  normal : ∀ v, LzTree.Normal t v → visitSum t.ptGraph v =
    Visits.toInt (properties t.ptGraph v).numVisit - if v = t.ptGraph.cur then 1 else 0
  root : visitSum t.ptGraph t.ptGraph.root =
    Visits.toInt (properties t.ptGraph t.ptGraph.root).numVisit + if t.ptGraph.cur = t.ptGraph.root then 0 else 1

section Lz
variable {t : State} {path : Nat → List KeyT} {T : Trie.State KeyT} {w : List KeyT}

theorem root_lt {g : Graph.State VertexProperties} (h : Represents g path T) : g.root < g.vertices.length := by
  rw [h.labels.root]
  exact h.labels.nonempty

theorem path_root {g : Graph.State VertexProperties} (h : Represents g path T) : path g.root = [] := by
  rw [h.labels.root, h.labels.path_root]

/-- A path off the root is on a normal vertex or leads back to the root. -/
theorem not_back (h : Represents t.ptGraph path T) {v : Nat} (hv : LzTree.Normal t v) : ¬Back (path v) := by
  rintro ⟨p, hp⟩
  exact hv.2.2 (h.labels.key_eq hv.1 hp)

theorem childSum_root (h : At t path T w) (hbalanced : Trie.Balanced Back T w) :
    childSum VertexProperties.numVisit t.ptGraph t.ptGraph.root =
      (properties t.ptGraph t.ptGraph.root).numVisit + if t.ptGraph.cur = t.ptGraph.root then 0 else 1 := by
  have hroot := hbalanced.root _ (path_root h.toRepresents ▸ h.visits _ (root_lt h.toRepresents))
  have hcur : w = [] ↔ t.ptGraph.cur = t.ptGraph.root := by
    rw [← h.cur, ← path_root h.toRepresents]
    exact ⟨fun he => h.labels.inj _ _ h.cur_lt (root_lt h.toRepresents) he, fun he => he ▸ rfl⟩
  rw [h.below _ (root_lt h.toRepresents), path_root h.toRepresents, hroot]
  simp only [hcur]

theorem childSum_normal (h : At t path T w) (hbalanced : Trie.Balanced Back T w) {v : Nat}
    (hv : v < t.ptGraph.vertices.length) (h0 : v ≠ 0) (hback : ¬Back (path v)) :
    childSum VertexProperties.numVisit t.ptGraph v + (if v = t.ptGraph.cur then 1 else 0) =
      (properties t.ptGraph v).numVisit := by
  have hbelow := hbalanced.below _ _ (h.visits v hv) (h.labels.path_ne_nil hv h0) hback
  have hcur : path v = w ↔ v = t.ptGraph.cur := by
    rw [← h.cur]
    exact ⟨fun he => h.labels.inj _ _ hv h.cur_lt he, fun he => he ▸ rfl⟩
  simp only [hcur] at hbelow
  rw [h.below v hv, hbelow]

theorem LzSteady.countLaw (h : LzSteady t) : CountLaw t := by
  obtain ⟨⟨path, T, w, hat, hsteady⟩, -⟩ := h
  refine ⟨fun v hv => ?_, ?_⟩
  · have h0 : v ≠ 0 := hat.labels.root ▸ hv.2.1
    have hsum := childSum_normal hat hsteady.balanced hv.1 h0 (not_back hat.toRepresents hv)
    rw [visitSum_nat, ← hsum]
    show (_ : Int) = ((childSum VertexProperties.numVisit t.ptGraph v + _ : Nat) : Int) - _
    split <;> simp
  · have hsum := childSum_root hat hsteady.balanced
    rw [visitSum_nat, hsum]
    split <;> rfl

theorem LzSteady.visited (h : LzSteady t) : Visited t := by
  obtain ⟨⟨path, T, w, hat, hsteady⟩, -⟩ := h
  intro _ hstatus
  have hne : t.ptGraph.cur ≠ 0 := fun he => hstatus ((hat.status _ hat.cur_lt).mpr he)
  exact hsteady.positive _ _ (hat.visits _ hat.cur_lt) (hat.labels.path_ne_nil hat.cur_lt hne)

/-- What a prediction of LZ or ALZ divides by is the sum over the children. -/
theorem predictWLz_predicted (h : LzSteady t) (hmalgo : t.malgoT ≠ .ppm) (jitter : Nat → ℚ) :
    Predicted t.ptGraph jitter (predictWLz t jitter) := by
  obtain ⟨⟨path, T, w, hat, hsteady⟩, -⟩ := h
  refine ⟨fun l hl => ?_, predictWLz_last t jitter⟩
  obtain ⟨hmap, hat'⟩ := mem_loops hat.toRepresents hl
  refine ⟨hmap.trans (divide_eq jitter l.total (hat.siblings l.v)), fun hadj => ?_⟩
  refine normalised hat.toRepresents hsteady.positive hadj ?_
  have hsum := childSum_root hat hsteady.balanced
  rcases hat' with ⟨hv, htotal⟩ | ⟨hv, htotal, hback⟩
  · rw [hv, htotal]
    by_cases h0 : t.ptGraph.cur = t.ptGraph.root
    · have hstatus : (properties t.ptGraph t.ptGraph.cur).status = .root :=
        (hat.status _ hat.cur_lt).mpr (h0.trans hat.labels.root)
      rw [if_pos h0, ← h0] at hsum
      simp [curTotal, hstatus, hsum]
    · have hne : t.ptGraph.cur ≠ 0 := hat.labels.root ▸ h0
      have hstatus : (properties t.ptGraph t.ptGraph.cur).status ≠ .root :=
        fun he => hne ((hat.status _ hat.cur_lt).mp he)
      have hnormal := childSum_normal hat hsteady.balanced hat.cur_lt hne (hat.cur ▸ hsteady.cur)
      rw [if_pos rfl] at hnormal
      rw [curTotal, if_pos ⟨hstatus, hmalgo⟩, ← hnormal, Nat.add_sub_cancel]
  · rw [hv] at hadj
    rw [hv, htotal]
    by_cases h0 : t.ptGraph.cur = t.ptGraph.root
    · -- nothing leads from the root back to the root
      rw [h0] at hback
      rcases hback with hnil | ⟨u, hu, hkey⟩
      · exact absurd hnil hadj
      · obtain ⟨hult, hupath⟩ := (hat.labels.edge_iff (root_lt hat.toRepresents)).mp
          ⟨Graph.mem_getAdjVertices.mp hu, hkey⟩
        rw [path_root hat.toRepresents, List.nil_append] at hupath
        have hvisits := hat.visits u hult
        rw [hupath, hsteady.root_back] at hvisits
        cases hvisits
    · rw [if_neg h0] at hsum
      rw [hsum, rootTotal]

end Lz

/-! ## Predictions of PPM -/

/-- What a call keeps in a PPM tree for contexts of `k` keys. -/
structure PpmSteady (t : State) (k : Nat) : Prop where
  rep : ∃ path T, At t path T [] ∧ Trie.Balanced (fun w : List KeyT => w.length = k + 1) T [] ∧
    (∀ u m, T.visits u = some m → u ≠ [] → 0 < m) ∧ ∀ u, T.visits (u ++ [backToRootLeafKey]) = none
  malgoT : t.malgoT = .ppm
  contextSize : t.contextSize = k
  context : t.context.length ≤ k
  no_back : ∀ key ∈ t.context, key ≠ backToRootLeafKey

section Ppm
variable {t : State} {k : Nat}

theorem init_ppmSteady (k : Nat) : PpmSteady (init .ppm k) k where
  rep := by
    have hnone : ∀ u : List KeyT, u ≠ [] → Trie.empty.visits u = none := by
      intro u hu
      simp [Trie.empty, hu]
    refine ⟨_, _, init_at .ppm k, .empty, ?_, fun u => hnone _ (by simp)⟩
    intro u m hu hne
    rw [hnone u hne] at hu
    cases hu
  malgoT := rfl
  contextSize := rfl
  context := Nat.zero_le k
  no_back := by rintro _ ⟨⟩

theorem addAccessWPpm_steady (h : PpmSteady t k) (hk : 1 ≤ k) {key : KeyT} (hkey : key ≠ backToRootLeafKey) :
    PpmSteady (addAccessWPpm t key) k := by
  obtain ⟨⟨path, T, hat, hbalanced, hpos, hnone⟩, hmalgo, hsize, hlen, hcontext⟩ := h
  obtain ⟨hmalgo', hsize', hcontext'⟩ := PpmTree.addAccessWPpm_rest t key
  refine ⟨?_, hmalgo'.trans hmalgo, hsize'.trans hsize, ?_, ?_⟩
  · by_cases hfull : t.context.length = t.contextSize
    · obtain ⟨path', hat'⟩ := PpmTree.addAccessWPpm_at key hat hfull
      have hword : ∀ x ∈ t.context ++ [key], x ≠ backToRootLeafKey := by
        intro x hx
        rcases List.mem_append.mp hx with hx | hx
        · exact hcontext x hx
        · exact List.mem_singleton.mp hx ▸ hkey
      refine ⟨path', _, hat', ?_, positive_home ?_, ?_⟩
      · refine (hbalanced.descendAll (t.context ++ [key])).home ?_ (by simp)
        simp [hfull, hsize]
      · intro u m hu hne
        rw [Trie.descendAll_visits] at hu
        split at hu
        · exact Option.some.inj hu ▸ Nat.succ_pos _
        · exact hpos u m hu hne
      · intro u
        have hpre : ¬(u ++ [backToRootLeafKey] <+: [] ++ (t.context ++ [key])) := by
          intro hpre
          exact hword _ (hpre.subset (by simp)) rfl
        rw [Trie.home_visits, update_of_ne (by simp), Trie.descendAll_visits, if_neg (fun hu => hpre hu.2.2)]
        exact hnone u
    · rw [addAccessWPpm, if_neg hfull]
      exact ⟨path, T, { hat with }, hbalanced, hpos, hnone⟩
  · rw [hcontext', List.length_append, List.length_singleton]
    split
    · rw [List.length_tail]
      omega
    · omega
  · intro x hx
    rw [hcontext'] at hx
    rcases List.mem_append.mp hx with hx | hx
    · refine hcontext x ?_
      split at hx
      · exact List.mem_of_mem_tail hx
      · exact hx
    · exact List.mem_singleton.mp hx ▸ hkey

theorem predictWPpm_steady (h : PpmSteady t k) (jitter : Nat → ℚ) : PpmSteady (predictWPpm t jitter).1 k := by
  obtain ⟨⟨path, T, hat, hT⟩, hmalgo, hsize, hlen, hcontext⟩ := h
  obtain ⟨hat', hrest⟩ := PpmTree.predictWPpm_at hat jitter
  exact ⟨⟨path, T, hat', hT⟩, hrest.malgoT.trans hmalgo, hrest.contextSize.trans hsize,
    hrest.context.symm ▸ hlen, hrest.context.symm ▸ hcontext⟩

/-- A walk that counts nothing moves the cursor alone. -/
theorem walkOn_false_graph (keys : List KeyT) (t : State) :
    ∃ v, (walkOn false keys t).1.ptGraph = Graph.setCur t.ptGraph v := by
  induction keys generalizing t with
  | nil => exact ⟨t.ptGraph.cur, rfl⟩
  | cons key keys ih =>
    simp only [walkOn]
    cases doesVertexHaveKeyInAdjs t t.ptGraph.cur key with
    | none => exact ⟨t.ptGraph.cur, rfl⟩
    | some u =>
      obtain ⟨v, hv⟩ := ih (moveCur false u t)
      exact ⟨v, hv⟩

theorem walkOn_false_fits (h : Fits t.ptGraph) (keys : List KeyT) : Fits (walkOn false keys t).1.ptGraph := by
  obtain ⟨v, hgraph⟩ := walkOn_false_graph keys t
  rw [hgraph]
  exact h

/-- What a prediction of PPM divides by is the sum over the children. -/
theorem predictWPpm_predicted (h : PpmSteady t k) (jitter : Nat → ℚ) :
    Predicted t.ptGraph jitter (predictWPpm t jitter).2 := by
  obtain ⟨⟨path, T, hat, hbalanced, hpos, hnone⟩, hmalgo, hsize, hlen, -⟩ := h
  obtain ⟨u, hu, hat'⟩ := PpmTree.walkOn_false t.context hat
  obtain ⟨c, hgraph⟩ := walkOn_false_graph t.context t
  have hmalgo' := (PpmTree.walkOn_rest false t.context t).malgoT.trans hmalgo
  have hpredict : (predictWPpm t jitter).2 = predictWLz (walkOn false t.context t).1 jitter := rfl
  rw [hpredict]
  generalize walkOn false t.context t = r at hat' hgraph hmalgo'
  obtain ⟨t', n⟩ := r
  dsimp only at hat' hgraph hmalgo' ⊢
  refine ⟨fun l hl => ?_, predictWLz_last t' jitter⟩
  obtain ⟨hmap, hloop⟩ := mem_loops hat'.toRepresents hl
  have hmap' := hmap.trans (divide_eq jitter l.total (hat'.siblings l.v))
  have hnorm : getAdjVertices t'.ptGraph l.v ≠ [] → Normalised t'.ptGraph l.v l.total := by
    intro hadj
    refine normalised hat'.toRepresents hpos hadj ?_
    rw [List.nil_append] at hat'
    have hstop : u.length ≠ k + 1 := by
      have := hu.length_le
      omega
    have hvisits := hat'.visits _ hat'.cur_lt
    have hbelow := hat'.below _ hat'.cur_lt
    rw [hat'.cur] at hvisits hbelow
    -- what has come to a context went on below it, as every walk is longer
    have hsum : childSum VertexProperties.numVisit t'.ptGraph t'.ptGraph.cur =
        (properties t'.ptGraph t'.ptGraph.cur).numVisit := by
      rw [hbelow]
      by_cases hne : u = []
      · subst hne
        exact hbalanced.root _ hvisits
      · simpa [hne] using hbalanced.below u _ hvisits hne hstop
    rcases hloop with ⟨hv, htotal⟩ | ⟨hv, htotal, hback⟩
    · rw [hv, htotal]
      simp [curTotal, hmalgo', hsum]
    · rw [hv] at hadj
      exfalso
      rcases hback with hnil | ⟨x, hx, hkey⟩
      · have hzero : childSum VertexProperties.numVisit t'.ptGraph t'.ptGraph.cur = 0 := by
          simp [childSum, hnil]
        by_cases hne : u = []
        · have hroot : t'.ptGraph.cur = t'.ptGraph.root :=
            hat'.labels.inj _ _ hat'.cur_lt (root_lt hat'.toRepresents)
              (by rw [hat'.cur, path_root hat'.toRepresents, hne])
          exact hadj (hroot ▸ hnil)
        · have := hpos _ _ hvisits hne
          omega
      · obtain ⟨hxlt, hxpath⟩ := (hat'.labels.edge_iff hat'.cur_lt).mp
          ⟨Graph.mem_getAdjVertices.mp hx, hkey⟩
        have hx := hat'.visits x hxlt
        rw [hxpath, hnone] at hx
        cases hx
  rw [hgraph] at hmap' hnorm
  refine ⟨hmap', fun hadj => ?_⟩
  have hat := hnorm hadj
  exact ⟨hat.positive, hat.sum, hat.probs⟩

end Ppm

/-! ## Runs -/

section Runs
variable {malgoT : MalgoT} {contextSize : Nat} {calls : List Call}

theorem addAccessWAlz_malgoT (t : State) (k : KeyT) : (addAccessWAlz t k).malgoT = t.malgoT := by
  have hwalk : ∀ (keys : List KeyT) (t : State), (keys.foldl goDownOrCreate t).malgoT = t.malgoT := by
    intro keys
    induction keys with
    | nil => intro t; rfl
    | cons key keys ih =>
      intro t
      rw [List.foldl_cons, ih, (goDownOrCreate_rest t key).malgoT]
  have hlz := (LzTree.addAccessWLz_rest t k).malgoT
  simp only [addAccessWAlz]
  rw [(moveCur_rest _ _ _).malgoT]
  split
  · rw [(goDownOrCreate_rest _ _).malgoT, hwalk, (moveCur_rest _ _ _).malgoT]
    exact hlz
  · exact hlz

/-- No call changes the algorithm. -/
theorem call_malgoT (t : State) (c : Call) : (call t c).malgoT = t.malgoT := by
  cases c with
  | addAccess key =>
    cases hmalgo : t.malgoT with
    | lz => simpa [call, addAccess, hmalgo] using (LzTree.addAccessWLz_rest t key).malgoT
    | alz => simpa [call, addAccess, hmalgo] using addAccessWAlz_malgoT t key
    | ppm => simpa [call, addAccess, hmalgo] using (PpmTree.addAccessWPpm_rest t key).1
  | predict jitter =>
    cases hmalgo : t.malgoT with
    | lz => simp [call, predict, hmalgo]
    | alz => simp [call, predict, hmalgo]
    | ppm =>
      simp only [call, predict, hmalgo]
      exact ((PpmTree.walkOn_rest false t.context t).trans (moveCur_rest _ _ _)).malgoT.trans hmalgo

/-- What holds of the tree at any time, by its algorithm. -/
def Kept (contextSize : Nat) (t : State) : Prop :=
  if t.malgoT = .ppm then PpmSteady t contextSize else LzSteady t

theorem call_kept {t : State} (h : Kept contextSize t) (hk : t.malgoT = .ppm → 1 ≤ contextSize) {c : Call}
    (hc : ∀ k ∈ accessed [c], k ≠ backToRootLeafKey) : Kept contextSize (call t c) := by
  unfold Kept at h ⊢
  rw [call_malgoT]
  cases c with
  | addAccess key =>
    have hkey : key ≠ backToRootLeafKey := hc key (by simp [accessed])
    cases hmalgo : t.malgoT with
    | lz =>
      rw [hmalgo, if_neg (by simp)] at h
      simpa [call, addAccess, hmalgo] using addAccessWLz_steady h hkey
    | alz =>
      rw [hmalgo, if_neg (by simp)] at h
      simpa [call, addAccess, hmalgo] using addAccessWAlz_steady h hkey
    | ppm =>
      rw [hmalgo, if_pos rfl] at h
      simpa [call, addAccess, hmalgo] using addAccessWPpm_steady h (hk hmalgo) hkey
  | predict jitter =>
    cases hmalgo : t.malgoT with
    | lz => simpa [call, predict, hmalgo] using h
    | alz => simpa [call, predict, hmalgo] using h
    | ppm =>
      rw [hmalgo, if_pos rfl] at h
      simpa [call, predict, hmalgo] using predictWPpm_steady h jitter

theorem run_kept (hk : malgoT = .ppm → 1 ≤ contextSize) (hkeys : ∀ k ∈ accessed calls, k ≠ backToRootLeafKey) :
    Kept contextSize (calls.foldl call (init malgoT contextSize)) ∧
      (calls.foldl call (init malgoT contextSize)).malgoT = malgoT := by
  induction calls using List.reverseRecOn with
  | nil =>
    refine ⟨?_, rfl⟩
    cases malgoT with
    | lz => exact init_lzSteady .lz contextSize
    | alz => exact init_lzSteady .alz contextSize
    | ppm => exact init_ppmSteady contextSize
  | append_singleton calls c ih =>
    rw [accessed, List.filterMap_append] at hkeys
    obtain ⟨hkept, hmalgo⟩ := ih fun k hk' => hkeys k (List.mem_append_left _ hk')
    rw [List.foldl_append]
    refine ⟨call_kept hkept (hmalgo.symm ▸ hk) fun k hk' => hkeys k (List.mem_append_right _ hk'), ?_⟩
    exact (call_malgoT _ _).trans hmalgo

/-- Counted without a bound, each prediction of each run is normalised. -/
theorem run_predicted (hk : malgoT = .ppm → 1 ≤ contextSize) (hkeys : ∀ k ∈ accessed calls, k ≠ backToRootLeafKey) :
    let t : State := calls.foldl call (init malgoT contextSize)
    (∀ jitter, Predicted t.ptGraph jitter (predict t jitter).2) ∧ Visited t ∧ (malgoT ≠ .ppm → CountLaw t) := by
  intro t
  obtain ⟨hkept, hmalgo⟩ := run_kept hk hkeys
  change Kept contextSize t at hkept
  change t.malgoT = malgoT at hmalgo
  unfold Kept at hkept
  rw [hmalgo] at hkept
  by_cases hppm : malgoT = .ppm
  · rw [if_pos hppm] at hkept
    refine ⟨fun jitter => ?_, fun hne => absurd (hmalgo.trans hppm) hne, fun hne => absurd hppm hne⟩
    have hpredict : predict t jitter = predictWPpm t jitter := by rw [predict, hmalgo, hppm]
    rw [hpredict]
    exact predictWPpm_predicted hkept jitter
  · rw [if_neg hppm] at hkept
    refine ⟨fun jitter => ?_, hkept.visited, fun _ => hkept.countLaw⟩
    rw [predict_of_ne_ppm (hmalgo ▸ hppm)]
    exact predictWLz_predicted hkept (hmalgo ▸ hppm) jitter

end Runs

/-! ## Counts in an `int` -/

section Ints
variable {t : State} {g : Graph.State VertexProperties} {jitter : Nat → ℚ} {v total : Nat}

theorem predict_ppm_toInt32 (h : t.malgoT = .ppm) (jitter : Nat → ℚ) :
    (predict (State.toInt32 t) jitter).2 = predictWLz (State.toInt32 (walkOn false t.context t).1) jitter := by
  have hmalgo : (State.toInt32 t).malgoT = .ppm := h
  have hwalk : (walkOn false (State.toInt32 t).context (State.toInt32 t)).1 =
      State.toInt32 (walkOn false t.context t).1 := congrArg Prod.fst (walkOn_toInt32 t false t.context)
  rw [predict_ppm hmalgo, hwalk]

/-- What fits is predicted from the `int`s as from the numbers. -/
theorem predict_toInt32 (hfits : Fits t.ptGraph) (hvisited : Visited t) (jitter : Nat → ℚ) :
    (predict (State.toInt32 t) jitter).2 = ((predict t jitter).2.1, (predict t jitter).2.2.map Loop.toInt32) := by
  have hmalgo : (State.toInt32 t).malgoT = t.malgoT := rfl
  by_cases hppm : t.malgoT = .ppm
  · rw [predict_ppm_toInt32 hppm, predict_ppm hppm]
    refine predictWLz_toInt32 (walkOn_false_fits hfits _) (fun hne => ?_) jitter
    exact absurd ((walkOn_rest false _ t).malgoT.trans hppm) hne
  · rw [predict_of_ne_ppm (hmalgo ▸ hppm), predict_of_ne_ppm hppm]
    exact predictWLz_toInt32 hfits hvisited jitter

theorem predict_total_lt (hfits : Fits t.ptGraph) (jitter : Nat → ℚ) {l : Loop} (hl : l ∈ (predict t jitter).2.2) :
    l.total < 2 ^ 31 := by
  by_cases hppm : t.malgoT = .ppm
  · rw [predict_ppm hppm] at hl
    exact predictWLz_total_lt (walkOn_false_fits hfits t.context) jitter hl
  · rw [predict_of_ne_ppm hppm] at hl
    exact predictWLz_total_lt hfits jitter hl

theorem toInt_numVisit (hfits : Fits g) (u : Nat) :
    Visits.toInt (properties (mapProps VertexProperties.toInt32 g) u).numVisit =
      Visits.toInt (properties g u).numVisit := by
  rw [numVisit_toInt32]
  exact toInt_ofNat (hfits.lt u)

theorem visitSum_toInt32 (hfits : Fits g) (v : Nat) :
    visitSum (mapProps VertexProperties.toInt32 g) v = visitSum g v := by
  simp only [visitSum, toInt_numVisit hfits]
  rfl

theorem Normalised.toInt32 (h : Normalised g v total) (hfits : Fits g) (htotal : total < 2 ^ 31) :
    Normalised (mapProps VertexProperties.toInt32 g) v (Int32.ofNat total) where
  positive := by
    rw [toInt_ofNat htotal]
    exact h.positive
  sum := by
    rw [toInt_ofNat htotal, visitSum_toInt32 hfits]
    exact h.sum
  probs := by
    rw [funext (baseProb_toInt32 hfits htotal)]
    exact h.probs

theorem Divides.toInt32 {l : Loop} (h : Divides g jitter l) (hfits : Fits g) (htotal : l.total < 2 ^ 31) :
    Divides (mapProps VertexProperties.toInt32 g) jitter (Loop.toInt32 l) where
  map := by
    have hint : Visits.toInt (Loop.toInt32 l).total = Visits.toInt l.total := toInt_ofNat htotal
    simp only [toInt_numVisit hfits, key_toInt32, hint]
    exact h.map
  normalised hadj := (h.normalised hadj).toInt32 hfits htotal

theorem Predicted.toInt32 (hfits : Fits t.ptGraph) (hvisited : Visited t)
    (h : Predicted t.ptGraph jitter (predict t jitter).2) :
    Predicted (State.toInt32 t).ptGraph jitter (predict (State.toInt32 t) jitter).2 := by
  rw [predict_toInt32 hfits hvisited]
  constructor
  · intro l' hl'
    obtain ⟨l, hl, rfl⟩ := List.mem_map.mp hl'
    exact (h.loops l hl).toInt32 hfits (predict_total_lt hfits jitter hl)
  · obtain ⟨l, hl, hmap⟩ := h.last
    refine ⟨Loop.toInt32 l, ?_, hmap⟩
    rw [List.getLast?_map]
    exact Option.mem_map_of_mem _ hl

theorem CountLaw.toInt32 (h : CountLaw t) (hfits : Fits t.ptGraph) : CountLaw (State.toInt32 t) where
  normal v hv := by
    have hprop : properties (State.toInt32 t).ptGraph v = VertexProperties.toInt32 (properties t.ptGraph v) :=
      properties_toInt32 v t.ptGraph
    have hv : LzTree.Normal t v := by
      obtain ⟨hlt, hroot, hkey⟩ := hv
      rw [hprop] at hkey
      rw [State.toInt32, mapProps, List.length_map] at hlt
      exact ⟨hlt, hroot, hkey⟩
    have hnormal := h.normal v hv
    rwa [← visitSum_toInt32 hfits, ← toInt_numVisit hfits] at hnormal
  root := by
    have hroot := h.root
    rwa [← visitSum_toInt32 hfits, ← toInt_numVisit hfits] at hroot

/-- As long as no count overflows, each division of each prediction is by the sum over the children,
and LZ and ALZ keep the count law. -/
theorem predictions_normalised {malgoT : MalgoT} {contextSize : Nat} {calls : List Call}
    (hk : malgoT = .ppm → 1 ≤ contextSize)
    (hkeys : ∀ k ∈ accessed calls, k ≠ backToRootLeafKey ∧ k ≠ parseTreeRootKey)
    (hfits : Fits (calls.foldl call (init malgoT contextSize)).ptGraph) :
    let t : State Int32 := calls.foldl call (init malgoT contextSize)
    (∀ jitter, Predicted t.ptGraph jitter (predict t jitter).2) ∧ (malgoT ≠ .ppm → CountLaw t) := by
  rw [run_toInt32]
  obtain ⟨hpredicted, hvisited, hlaw⟩ := run_predicted hk fun k hk' => (hkeys k hk').1
  exact ⟨fun jitter => (hpredicted jitter).toInt32 hfits hvisited, fun hne => (hlaw hne).toInt32 hfits⟩

/-- After two accesses of ALZ the prediction at the root divides by two visits of one child. -/
theorem predictions_after_two :
    let t : State Int32 := [.addAccess 5, .addAccess 5].foldl call (init .alz 0)
    (∀ jitter, Predicted t.ptGraph jitter (predict t jitter).2) ∧ (MalgoT.alz ≠ .ppm → CountLaw t) ∧
      (predict t fun _ => 0).2.1 = [(5, 1)] := by
  have hall := @predictions_normalised .alz 0 [.addAccess 5, .addAccess 5] (by simp)
    (by simp [accessed, backToRootLeafKey, parseTreeRootKey]) (by decide +kernel)
  exact ⟨hall.1, hall.2, by decide +kernel⟩

/-- Predictions divide at the cursor first. -/
theorem cur_mem_loops {ν : Type} [Inhabited ν] [OfNat ν 0] [OfNat ν 1] [Add ν] [Sub ν] [Visits ν] (t : State ν)
    (jitter : Nat → ℚ) : ∃ l ∈ (predictWLz t jitter).2, l.v = t.ptGraph.cur ∧ l.total = curTotal t := by
  simp only [predictWLz]
  split <;> exact ⟨_, List.mem_cons_self, rfl, rfl⟩

/-- One key again and again: the prediction divides by the number of its pairs, as an `int`. -/
theorem total_again {n : Nat} (hn : 0 < n) (jitter : Nat → ℚ) :
    let t : State Int32 := (again (n + 1)).foldl call (init .ppm 1)
    ∃ l ∈ (predict t jitter).2.2, getAdjVertices t.ptGraph l.v ≠ [] ∧ l.total = Int32.ofNat n := by
  have hcounts := run_counts (Nat.le_refl 1) (again (n + 1))
  rw [run_toInt32]
  rw [accessed_again] at hcounts
  generalize (again (n + 1)).foldl call (init .ppm 1) = t at hcounts ⊢
  obtain ⟨⟨path, T, hat, hT⟩, hmalgo, -, hcontext⟩ := hcounts
  have hkeys : t.context = [5] := by
    rw [hcontext, lastKeys, List.length_replicate, Nat.add_sub_cancel, List.drop_replicate, Nat.add_sub_cancel_left]
    rfl
  obtain ⟨u, hu, hat'⟩ := walkOn_false t.context hat
  rw [hkeys] at hu
  rw [List.nil_append] at hat'
  have hpair : u ++ [5] <+: [5, 5] := by
    rcases List.prefix_concat_iff.mp (show u <+: [] ++ [5] from hu) with rfl | hnil
    · exact List.prefix_refl _
    · rw [List.prefix_nil.mp hnil]
      exact List.prefix_append [5] [5]
  obtain ⟨c, hgraph⟩ := walkOn_false_graph t.context t
  have hmalgo' := (walkOn_rest false t.context t).malgoT.trans hmalgo
  obtain ⟨l, hl, hv, htotal⟩ := cur_mem_loops (State.toInt32 (walkOn false t.context t).1) jitter
  refine ⟨l, predict_ppm_toInt32 hmalgo jitter ▸ hl, ?_, ?_⟩
  · obtain ⟨x, hxlt, hxpath⟩ := hat'.dom (u ++ [5]) n (by rw [hT, prefixCounts_again hn hpair])
    rw [← hat'.cur] at hxpath
    obtain ⟨hedge, -⟩ := (hat'.labels.edge_iff hat'.cur_lt).mpr ⟨hxlt, hxpath⟩
    have hedges : (walkOn false t.context t).1.ptGraph.edges = t.ptGraph.edges := by
      rw [hgraph]
      rfl
    rw [hedges] at hedge
    rw [hv]
    exact List.ne_nil_of_mem (Graph.mem_getAdjVertices.mpr hedge)
  · have hvisits := hat'.visits _ hat'.cur_lt
    rw [hat'.cur, hT, prefixCounts_again hn ((List.prefix_append u [5]).trans hpair)] at hvisits
    have hcur : curTotal (walkOn false t.context t).1 = n := by
      rw [curTotal, if_neg (fun h => h.2 hmalgo'), ← Option.some.inj hvisits]
    rw [htotal, curTotal_toInt32 (fun hne => absurd hmalgo' hne), hcur]

/-- After `2 ^ 31 + 1` accesses of one key a prediction of PPM divides by an overflowed count. -/
theorem total_overflows : ¬ ∀ (malgoT : MalgoT) (contextSize : Nat) (calls : List Call),
    (malgoT = .ppm → 1 ≤ contextSize) →
    (∀ k ∈ accessed calls, k ≠ backToRootLeafKey ∧ k ≠ parseTreeRootKey) →
    let t : State Int32 := calls.foldl call (init malgoT contextSize)
    (∀ jitter, Predicted t.ptGraph jitter (predict t jitter).2) ∧ (malgoT ≠ .ppm → CountLaw t) := by
  intro h
  -- the number stays a variable, so that no list of this length is ever made
  obtain ⟨n, hn⟩ : ∃ n, n = 2 ^ 31 := ⟨_, rfl⟩
  have hkeys : ∀ k ∈ accessed (again (n + 1)), k ≠ backToRootLeafKey ∧ k ≠ parseTreeRootKey := by
    intro k hk
    rw [accessed_again] at hk
    rw [List.eq_of_mem_replicate hk]
    decide
  obtain ⟨hpredicted, -⟩ := h .ppm 1 (again (n + 1)) (fun _ => Nat.le_refl 1) hkeys
  obtain ⟨l, hl, hadj, htotal⟩ := total_again (hn ▸ Nat.two_pow_pos 31) fun _ => 0
  have hpositive := (((hpredicted fun _ => 0).loops l hl).normalised hadj).positive
  rw [htotal, hn] at hpositive
  exact absurd hpositive (by decide)

end Ints

end Prediction
