import DataspacesWa.Lz78
import DataspacesWa.Walks

/-!
# The LZ parse tree

Fed with keys other than the one of the way back, `add_access_w_lz` builds the
dictionary of the LZ78 parse: a vertex for each phrase, counted by the phrases
that start with it, each with its leaf back to the root.
-/
namespace LzTree

open Function (update update_self update_of_ne)
open Graph (properties getAdjVertices)
open ParseTree Walks

/-! ## One access -/

/-- An access by the LZ algorithm, on the trie and the path of the cursor. -/
def lzStep (T : Trie.State KeyT) (w : List KeyT) (k : KeyT) : Trie.State KeyT × List KeyT :=
  if (T.visits (w ++ [k])).isSome then (Trie.visit T w k, w ++ [k])
  else (Trie.home (Trie.grow (Trie.grow T w k 1) (w ++ [k]) backToRootLeafKey 1), [])

/-- The normal vertices have a child, and the leaves lead back to the root. -/
def Statuses (t : State) : Prop :=
  ∀ v < t.ptGraph.vertices.length, v ≠ 0 →
    ((properties t.ptGraph v).key ≠ backToRootLeafKey → (properties t.ptGraph v).status = .normal) ∧
      ((properties t.ptGraph v).key = backToRootLeafKey → (properties t.ptGraph v).status = .leaf)

section Access
variable {t : State} {path : Nat → List KeyT} {T : Trie.State KeyT} {w : List KeyT} {k : KeyT}

theorem moveCur_statuses {v : Nat} (hv : v < t.ptGraph.vertices.length) (h : Statuses t) :
    Statuses (moveCur true v t) := by
  intro u hu h0
  have hlen : (moveCur true v t).ptGraph.vertices.length = t.ptGraph.vertices.length := by
    simp [moveCur, Graph.setCur]
  have hold := h u (hlen ▸ hu) h0
  rw [moveCur_true_properties hv]
  split
  · rename_i huv
    exact huv ▸ hold
  · exact hold

theorem addAccessWLz_old (h : At t path T w) (hold : (T.visits (w ++ [k])).isSome) :
    At (addAccessWLz t k) path (Trie.visit T w k) (w ++ [k]) ∧ SameRest t (addAccessWLz t k) ∧
      (addAccessWLz t k).longestPhraseLength = t.longestPhraseLength ∧
      (Statuses t → Statuses (addAccessWLz t k)) := by
  cases hfind : doesVertexHaveKeyInAdjs t t.ptGraph.cur k with
  | none =>
    rw [h.lookup_none h.cur_lt, h.cur] at hfind
    simp [hfind] at hold
  | some u =>
    obtain ⟨hu, hpath⟩ := (h.lookup h.cur_lt).mp hfind
    rw [h.cur] at hpath
    simp only [addAccessWLz, hfind]
    exact ⟨goDown h hu hpath, moveCur_rest true u t, rfl, moveCur_statuses hu⟩

/-- A completed phrase gets its leaf, and this one its leaf back to the root. -/
theorem addAccessWLz_new (h : At t path T w) (hfree : T.visits (w ++ [k]) = none) :
    ∃ path', At (addAccessWLz t k) path'
        (Trie.home (Trie.grow (Trie.grow T w k 1) (w ++ [k]) backToRootLeafKey 1)) [] ∧
      SameRest t (addAccessWLz t k) ∧ (k ≠ backToRootLeafKey →
        (addAccessWLz t k).longestPhraseLength = max t.longestPhraseLength (w.length + 1)) ∧
      (k ≠ backToRootLeafKey → (properties t.ptGraph t.ptGraph.cur).status ≠ .leaf → Statuses t →
        Statuses (addAccessWLz t k)) := by
  have hfind : doesVertexHaveKeyInAdjs t t.ptGraph.cur k = none := by
    rw [h.lookup_none h.cur_lt, h.cur, hfree]
  have hfree' : T.visits (path t.ptGraph.cur ++ [k]) = none := by rw [h.cur, hfree]
  have h₁ := createConnectLeaf_at h h.cur_lt hfree'
  have hrest₁ := createConnectLeaf_rest t t.ptGraph.cur k
  have hsnd := createConnectLeaf_snd h h.cur_lt (k := k)
  have hlen := createConnectLeaf_length h h.cur_lt (k := k)
  have hlongest₁ := createConnectLeaf_longest h h.cur_lt (k := k)
  have hprop₁ := createConnectLeaf_properties h h.cur_lt (k := k)
  rw [h.cur] at h₁ hlongest₁
  generalize hc₁ : createConnectLeaf t t.ptGraph.cur k = c at h₁ hrest₁ hsnd hlen hlongest₁ hprop₁
  obtain ⟨t₁, leaf⟩ := c
  dsimp only at h₁ hrest₁ hsnd hlen hlongest₁ hprop₁
  subst hsnd
  have hleaf : t.ptGraph.vertices.length < t₁.ptGraph.vertices.length := by omega
  have hpath₁ := Graph.pathHang_new path t.ptGraph.vertices.length t.ptGraph.cur k
  rw [h.cur] at hpath₁
  have hback : (Trie.grow T w k 1).visits (w ++ [k] ++ [backToRootLeafKey]) = none := by
    rw [Trie.grow_visits, update_of_ne (by simp)]
    exact h.no_child hfree _
  have hnone : doesVertexHaveKeyInAdjs t₁ t.ptGraph.vertices.length backToRootLeafKey = none := by
    rw [h₁.lookup_none hleaf, hpath₁]
    exact hback
  have h₂ := createConnectLeaf_at h₁ hleaf (k := backToRootLeafKey) (by rw [hpath₁]; exact hback)
  have hlongest₂ := createConnectLeaf_longest h₁ hleaf (k := backToRootLeafKey)
  rw [hpath₁] at h₂
  simp only [addAccessWLz, hfind, hc₁, hnone]
  refine ⟨_, goHome h₂, ?_, ?_, ?_⟩
  · exact (hrest₁.trans (createConnectLeaf_rest _ _ _)).trans (moveCur_rest _ _ _)
  · intro hk
    rw [moveCur_longest, hlongest₂, if_pos rfl, hlongest₁, if_neg hk]
  · intro hk hcur hstatuses
    have hroot : (createConnectLeaf t₁ t.ptGraph.vertices.length backToRootLeafKey).1.ptGraph.root <
        (createConnectLeaf t₁ t.ptGraph.vertices.length backToRootLeafKey).1.ptGraph.vertices.length := by
      rw [h₂.labels.root]
      exact h₂.labels.nonempty
    refine moveCur_statuses hroot fun v hv h0 => ?_
    rw [createConnectLeaf_length h₁ hleaf, hlen] at hv
    rw [createConnectLeaf_properties h₁ hleaf, hlen]
    by_cases hback : v = t.ptGraph.vertices.length + 1
    · simp [hback]
    rw [if_neg hback]
    by_cases hnew : v = t.ptGraph.vertices.length
    · simp [hnew, hprop₁, hk]
    · simpa [hnew, hprop₁, hcur] using hstatuses v (by omega) h0

/-- An access by the LZ algorithm is one step of the trie. -/
theorem addAccessWLz_at (h : At t path T w) :
    ∃ path', At (addAccessWLz t k) path' (lzStep T w k).1 (lzStep T w k).2 := by
  unfold lzStep
  split
  · rename_i hold
    exact ⟨path, (addAccessWLz_old h hold).1⟩
  · rename_i hnew
    obtain ⟨path', h', -, -, -⟩ := addAccessWLz_new h (by simpa using hnew)
    exact ⟨path', h'⟩

theorem addAccessWLz_rest (t : State) (k : KeyT) : SameRest t (addAccessWLz t k) := by
  simp only [addAccessWLz]
  split
  · exact moveCur_rest _ _ _
  · refine SameRest.trans ?_ (moveCur_rest _ _ _)
    have hleaf := createConnectLeaf_rest t t.ptGraph.cur k
    split
    · exact hleaf
    · exact hleaf.trans (createConnectLeaf_rest _ _ _)

end Access

/-! ## The dictionary -/

/-- What the trie counts when the parse has come to `d`. -/
def dictionary (d : Lz78.Parse KeyT) (w : List KeyT) : Option Nat :=
  if w = [] then some d.phrases.length
  else if w ∈ d.phrases then some (Lz78.count d w)
  else if ∃ p ∈ d.phrases, w = p ++ [backToRootLeafKey] then some 1
  else none

/-- A parse of keys among which the way back to the root is not. -/
structure Plain (d : Lz78.Parse KeyT) : Prop extends Lz78.Closed d where
  no_back : ∀ p ∈ d.phrases, ∀ q, p ≠ q ++ [backToRootLeafKey]

section Dictionary
variable {d : Lz78.Parse KeyT} {T : Trie.State KeyT} {k : KeyT} {w : List KeyT}

theorem start_plain : Plain Lz78.start := ⟨Lz78.start_closed, (by rintro _ ⟨⟩)⟩

theorem step_plain (h : Plain d) (hk : k ≠ backToRootLeafKey) : Plain (Lz78.step d k) := by
  refine ⟨Lz78.step_closed h.toClosed k, ?_⟩
  intro p hp q
  unfold Lz78.step at hp
  split at hp
  · exact h.no_back p hp q
  · rcases List.mem_append.mp hp with hp | hp
    · exact h.no_back p hp q
    · obtain rfl := List.mem_singleton.mp hp
      simpa using fun _ => hk

theorem dictionary_phrase (h : Plain d) (hw : w ∈ d.phrases) : dictionary d w = some (Lz78.count d w) := by
  rw [dictionary, if_neg (h.ne_nil w hw), if_pos hw]

theorem dictionary_other (hne : w ≠ []) (hw : w ∉ d.phrases) (hback : ∀ p, w ≠ p ++ [backToRootLeafKey]) :
    dictionary d w = none := by
  rw [dictionary, if_neg hne, if_neg hw, if_neg (by rintro ⟨p, -, hp⟩; exact hback p hp)]

/-- A step of the parse is a step of the trie. -/
theorem lzStep_dictionary (h : Plain d) (hT : T.visits = dictionary d) (hk : k ≠ backToRootLeafKey) :
    (lzStep T d.part k).1.visits = dictionary (Lz78.step d k) ∧ (lzStep T d.part k).2 = (Lz78.step d k).part := by
  have hne : d.part ++ [k] ≠ [] := by simp
  have hnotback : ∀ p, d.part ++ [k] ≠ p ++ [backToRootLeafKey] := fun p he => hk (by simpa using congrArg List.getLast? he)
  by_cases hmem : d.part ++ [k] ∈ d.phrases
  · have hvisits := dictionary_phrase h hmem
    have hstep : Lz78.step d k = { d with part := d.part ++ [k] } := if_pos hmem
    rw [lzStep, hT, hvisits, Option.isSome_some, if_pos rfl]
    refine ⟨?_, by rw [hstep]⟩
    funext w
    rw [Trie.visit_visits, hT, hvisits]
    by_cases hw : w = d.part ++ [k]
    · subst hw
      rw [update_self, dictionary_phrase (step_plain h hk) (by rw [hstep]; exact hmem), Lz78.count_extend hmem]
      simp
    · have hcount : Lz78.count (Lz78.step d k) w = Lz78.count d w := by
        rw [Lz78.count_extend hmem, if_neg hw, Nat.add_zero]
      rw [update_of_ne hw, dictionary, dictionary, hcount, hstep]
  · have hvisits : dictionary d (d.part ++ [k]) = none := dictionary_other hne hmem hnotback
    have hstep : Lz78.step d k = ⟨d.phrases ++ [d.part ++ [k]], []⟩ := if_neg hmem
    have hnew : d.part ++ [k] ∈ (Lz78.step d k).phrases := by simp [hstep]
    rw [lzStep, hT, hvisits, Option.isSome_none, if_neg Bool.false_ne_true]
    refine ⟨?_, by rw [hstep]⟩
    funext w
    rw [Trie.home_visits, Trie.grow_visits, Trie.grow_visits, hT]
    by_cases hnil : w = []
    · subst hnil
      simp [dictionary, hstep]
    rw [update_of_ne hnil]
    by_cases hback : w = d.part ++ [k] ++ [backToRootLeafKey]
    · subst hback
      have hphrase : d.part ++ [k] ++ [backToRootLeafKey] ∉ (Lz78.step d k).phrases :=
        fun hp => (step_plain h hk).no_back _ hp _ rfl
      rw [update_self, dictionary, if_neg hnil, if_neg hphrase, if_pos ⟨_, hnew, rfl⟩]
    rw [update_of_ne hback]
    by_cases hw : w = d.part ++ [k]
    · subst hw
      rw [update_self, dictionary_phrase (step_plain h hk) hnew, Lz78.count_complete h.toClosed hmem hne, if_pos rfl]
    · have hcount := Lz78.count_complete h.toClosed hmem hnil
      rw [if_neg hw] at hcount
      have hback' : w ≠ d.part ++ [k, backToRootLeafKey] := by simpa using hback
      rw [update_of_ne hw, dictionary, dictionary, hcount, hstep]
      simp [hnil, hw, hback', or_and_right, exists_or]

end Dictionary

/-! ## The tree -/

/-- A vertex that is neither the root nor a leaf back to the root. -/
def Normal {ν : Type} [Inhabited ν] (t : State ν) (v : Nat) : Prop :=
  v < t.ptGraph.vertices.length ∧ v ≠ t.ptGraph.root ∧ (properties t.ptGraph v).key ≠ backToRootLeafKey

/-- The tree is the dictionary of the parse, counted by the phrases that start with each word of it. -/
structure IsDictionary (t : State) (d : Lz78.Parse KeyT) : Prop where
  prefixes : Set.BijOn (vertexAt t) {w | w ≠ [] ∧ ∃ p ∈ d.phrases ++ [d.part], w <+: p}
    {o | ∃ v, Normal t v ∧ o = some v}
  siblings : ∀ v, ((getAdjVertices t.ptGraph v).map fun u => (properties t.ptGraph u).key).Nodup
  visits : ∀ w v, vertexAt t w = some v → Normal t v →
    (properties t.ptGraph v).numVisit = (d.phrases ++ [d.part]).countP fun p => w <+: p
  root : (properties t.ptGraph t.ptGraph.root).numVisit = d.phrases.length
  back : ∀ v, Normal t v → ∃ b, (properties t.ptGraph b).numVisit = 1 ∧ (properties t.ptGraph b).status = .leaf ∧
    (getAdjVertices t.ptGraph v).filter (fun u => (properties t.ptGraph u).key = backToRootLeafKey) = [b]
  status : ∀ v, Normal t v → (properties t.ptGraph v).status = .normal
  cur : vertexAt t d.part = some t.ptGraph.cur
  longest : t.longestPhraseLength = (d.phrases.map List.length).foldr max 0

section Tree
variable {t : State} {path : Nat → List KeyT} {T : Trie.State KeyT} {d : Lz78.Parse KeyT} {k : KeyT}

/-- The vertices that are not leaves back to the root are those of the phrases. -/
theorem normal_iff (h : At t path T d.part) (hd : Plain d) (hT : T.visits = dictionary d) {v : Nat} :
    Normal t v ↔ v < t.ptGraph.vertices.length ∧ path v ∈ d.phrases := by
  constructor
  · rintro ⟨hv, h0, hkey⟩
    rw [h.labels.root] at h0
    refine ⟨hv, ?_⟩
    have hvisits := h.visits v hv
    rw [hT, dictionary, if_neg (h.labels.path_ne_nil hv h0)] at hvisits
    by_contra hphrase
    rw [if_neg hphrase] at hvisits
    split at hvisits
    · rename_i hback
      obtain ⟨p, -, hp⟩ := hback
      exact hkey (h.labels.key_eq hv hp)
    · cases hvisits
  · rintro ⟨hv, hphrase⟩
    have h0 : v ≠ 0 := by
      rintro rfl
      exact hd.ne_nil _ hphrase h.labels.path_root
    obtain ⟨s, hs⟩ := h.labels.parent v (Nat.pos_of_ne_zero h0) hv
    have hpath := ((h.labels.edge s v).mp hs).2.2
    refine ⟨hv, by rwa [h.labels.root], fun hkey => hd.no_back _ hphrase (path s) ?_⟩
    rw [hpath, hkey]

theorem filter_eq_singleton {l : List Nat} (hl : l.Nodup) {p : Nat → Bool} {b : Nat} (hb : b ∈ l)
    (hp : ∀ u ∈ l, p u = true ↔ u = b) : l.filter p = [b] := by
  have hcongr : l.filter p = l.filter fun u => u = b := by
    refine List.filter_congr fun u hu => ?_
    rw [Bool.eq_iff_iff, hp u hu, decide_eq_true_eq]
  rw [hcongr, List.filter_eq, List.count_eq_one_of_mem hl hb]
  rfl

/-- The leaf back to the root that hangs below a phrase. -/
theorem back_leaf (h : At t path T d.part) (hd : Plain d) (hT : T.visits = dictionary d) {v : Nat}
    (hphrase : path v ∈ d.phrases) :
    ∃ b < t.ptGraph.vertices.length, path b = path v ++ [backToRootLeafKey] ∧
      (properties t.ptGraph b).numVisit = 1 := by
  have hvisits : T.visits (path v ++ [backToRootLeafKey]) = some 1 := by
    have hnot : path v ++ [backToRootLeafKey] ∉ d.phrases := fun hp => hd.no_back _ hp _ rfl
    rw [hT, dictionary, if_neg (by simp), if_neg hnot, if_pos ⟨_, hphrase, rfl⟩]
  exact (h.some_iff _ _).mp hvisits

theorem isDictionary (h : At t path T d.part) (hd : Plain d) (hT : T.visits = dictionary d)
    (hstatuses : Statuses t) (hlongest : t.longestPhraseLength = (d.phrases.map List.length).foldr max 0) :
    IsDictionary t d where
  prefixes := by
    simp only [hd.mem_iff]
    refine ⟨?_, ?_, ?_⟩
    · intro w hw
      have hvisits := dictionary_phrase hd hw
      rw [← hT] at hvisits
      obtain ⟨v, hv, rfl⟩ := h.dom w _ hvisits
      exact ⟨v, (normal_iff h hd hT).mpr ⟨hv, hw⟩, h.vertexAt_iff.mpr ⟨hv, rfl⟩⟩
    · intro w hw w' hw' heq
      have hvisits := dictionary_phrase hd hw
      rw [← hT] at hvisits
      obtain ⟨v, hv, rfl⟩ := h.dom w _ hvisits
      have hv' : vertexAt t w' = some v := heq ▸ h.vertexAt_iff.mpr ⟨hv, rfl⟩
      exact (h.vertexAt_iff.mp hv').2
    · rintro _ ⟨v, hv, rfl⟩
      obtain ⟨hlt, hphrase⟩ := (normal_iff h hd hT).mp hv
      exact ⟨path v, hphrase, h.vertexAt_iff.mpr ⟨hlt, rfl⟩⟩
  siblings := h.siblings
  visits w v hw hv := by
    obtain ⟨hlt, rfl⟩ := h.vertexAt_iff.mp hw
    obtain ⟨-, hphrase⟩ := (normal_iff h hd hT).mp hv
    have hvisits := h.visits v hlt
    rw [hT, dictionary_phrase hd hphrase] at hvisits
    exact (Option.some.inj hvisits).symm
  root := by
    have hvisits := h.visits t.ptGraph.root (by rw [h.labels.root]; exact h.labels.nonempty)
    rw [hT, h.labels.root, h.labels.path_root] at hvisits
    rw [h.labels.root]
    exact (Option.some.inj hvisits).symm
  back v hv := by
    obtain ⟨hlt, hphrase⟩ := (normal_iff h hd hT).mp hv
    obtain ⟨b, hb, hpath, hone⟩ := back_leaf h hd hT hphrase
    have hkey := h.labels.key_eq hb hpath
    have hb0 : b ≠ 0 := by
      rintro rfl
      simp [h.labels.path_root] at hpath
    refine ⟨b, hone, (hstatuses b hb hb0).2 hkey, ?_⟩
    refine filter_eq_singleton (Graph.getAdjVertices_nodup h.labels.nodup v) ?_ fun u hu => ?_
    · exact Graph.mem_getAdjVertices.mpr ((h.labels.edge_iff hlt).mpr ⟨hb, hpath⟩).1
    · rw [decide_eq_true_eq]
      constructor
      · intro huk
        obtain ⟨hult, hupath⟩ := (h.labels.edge_iff hlt).mp ⟨Graph.mem_getAdjVertices.mp hu, huk⟩
        exact h.labels.inj u b hult hb (hupath.trans hpath.symm)
      · rintro rfl
        exact hkey
  status v hv := by
    obtain ⟨hlt, h0, hkey⟩ := hv
    exact (hstatuses v hlt (by rwa [h.labels.root] at h0)).1 hkey
  cur := h.vertexAt_iff.mpr ⟨h.cur_lt, h.cur⟩
  longest := hlongest

end Tree

/-! ## Runs -/

theorem longest_append (l : List (List KeyT)) (p : List KeyT) :
    ((l ++ [p]).map List.length).foldr max 0 = max ((l.map List.length).foldr max 0) p.length := by
  induction l with
  | nil => simp
  | cons x l ih =>
    rw [List.cons_append, List.map_cons, List.foldr_cons, ih, List.map_cons, List.foldr_cons, max_assoc]

/-- What an access keeps: the tree represents the dictionary of the parse. -/
structure Follows (t : State) (d : Lz78.Parse KeyT) : Prop where
  rep : ∃ path T, At t path T d.part ∧ T.visits = dictionary d
  plain : Plain d
  statuses : Statuses t
  longest : t.longestPhraseLength = (d.phrases.map List.length).foldr max 0

theorem init_follows (malgoT : MalgoT) (contextSize : Nat) : Follows (init malgoT contextSize) Lz78.start where
  rep := by
    refine ⟨_, _, init_at malgoT contextSize, ?_⟩
    funext w
    by_cases hw : w = []
    · subst hw
      rfl
    · simp [Trie.empty, dictionary, Lz78.start, hw]
  plain := start_plain
  statuses v hv h0 := by
    have hlen : (init malgoT contextSize).ptGraph.vertices.length = 1 := rfl
    omega
  longest := rfl

theorem addAccessWLz_follows {t : State} {d : Lz78.Parse KeyT} (h : Follows t d) {k : KeyT}
    (hk : k ≠ backToRootLeafKey) : Follows (addAccessWLz t k) (Lz78.step d k) := by
  obtain ⟨⟨path, T, hat, hT⟩, hplain, hstatuses, hlongest⟩ := h
  obtain ⟨hvisits, hpart⟩ := lzStep_dictionary hplain hT hk
  have hrep : ∃ path' T', At (addAccessWLz t k) path' T' (Lz78.step d k).part ∧
      T'.visits = dictionary (Lz78.step d k) := by
    obtain ⟨path', hat'⟩ := addAccessWLz_at hat (k := k)
    rw [hpart] at hat'
    exact ⟨path', _, hat', hvisits⟩
  by_cases hmem : d.part ++ [k] ∈ d.phrases
  · have hold : (T.visits (d.part ++ [k])).isSome := by
      rw [hT, dictionary_phrase hplain hmem]
      rfl
    obtain ⟨-, -, hlongest', hstatuses'⟩ := addAccessWLz_old hat hold
    refine ⟨hrep, step_plain hplain hk, hstatuses' hstatuses, ?_⟩
    rw [hlongest', hlongest, Lz78.step, if_pos hmem]
  · have hfree : T.visits (d.part ++ [k]) = none := by
      rw [hT]
      exact dictionary_other (by simp) hmem fun p he => hk (by simpa using congrArg List.getLast? he)
    obtain ⟨-, -, -, hlongest', hstatuses'⟩ := addAccessWLz_new hat hfree
    have hcur : (properties t.ptGraph t.ptGraph.cur).status ≠ .leaf := by
      rcases hplain.part with hnil | hphrase
      · have h0 : t.ptGraph.cur = 0 :=
          hat.labels.inj _ _ hat.cur_lt hat.labels.nonempty (by rw [hat.cur, hnil, hat.labels.path_root])
        rw [(hat.status t.ptGraph.cur hat.cur_lt).mpr h0]
        simp
      · obtain ⟨hlt, h0, hkey⟩ := (normal_iff hat hplain hT).mpr ⟨hat.cur_lt, by rwa [hat.cur]⟩
        rw [(hstatuses _ hlt (by rwa [hat.labels.root] at h0)).1 hkey]
        simp
    refine ⟨hrep, step_plain hplain hk, hstatuses' hk hcur hstatuses, ?_⟩
    rw [hlongest' hk, hlongest, Lz78.step, if_neg hmem, longest_append, List.length_append, List.length_singleton]

/-- Whatever keys are accessed, the LZ tree is the dictionary of their LZ78 parse. -/
theorem lz_tree_is_dictionary (malgoT : MalgoT) (contextSize : Nat) (keys : List KeyT)
    (hkeys : ∀ k ∈ keys, k ≠ backToRootLeafKey ∧ k ≠ parseTreeRootKey) :
    IsDictionary (keys.foldl addAccessWLz (init malgoT contextSize)) (Lz78.parse keys) := by
  have hrun : Follows (keys.foldl addAccessWLz (init malgoT contextSize)) (Lz78.parse keys) := by
    induction keys using List.reverseRecOn with
    | nil => exact init_follows malgoT contextSize
    | append_singleton keys k ih =>
      rw [Lz78.parse, List.foldl_append, List.foldl_append]
      exact addAccessWLz_follows (ih fun k' hk' => hkeys k' (by simp [hk'])) (hkeys k (by simp)).1
  obtain ⟨⟨path, T, hat, hT⟩, hplain, hstatuses, hlongest⟩ := hrun
  exact isDictionary hat hplain hT hstatuses hlongest

/-- Three accesses make two phrases, of which the first is a prefix of the second. -/
theorem lz_tree_of_three : Lz78.parse [5, 5, 7] = (⟨[[5], [5, 7]], []⟩ : Lz78.Parse KeyT) ∧
    IsDictionary ([5, 5, 7].foldl addAccessWLz (init .lz 0)) (Lz78.parse [5, 5, 7]) :=
  ⟨by decide, lz_tree_is_dictionary .lz 0 [5, 5, 7] (by simp [backToRootLeafKey, parseTreeRootKey])⟩

end LzTree
