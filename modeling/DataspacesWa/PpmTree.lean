import DataspacesWa.IntVisits
import DataspacesWa.Walks

/-!
# The PPM parse tree

`add_access_w_ppm` walks from the root along the stored context and the new
key, and creates what is missing. For a context of `k` keys the tree counts the
windows of `k + 1` accesses by their prefixes, in an `int`, and a prediction
leaves it as it is.
-/
namespace PpmTree

open Function (update update_self update_of_ne)
open Graph (properties getAdjVertices)
open ParseTree Walks IntVisits

/-! ## Walks on the context -/

section Walk
variable {t : State} {path : Nat → List KeyT} {T : Trie.State KeyT} {w : List KeyT} {k : KeyT}

theorem walkOn_rest (inc : Bool) (keys : List KeyT) (t : State) : SameRest t (walkOn inc keys t).1 := by
  induction keys generalizing t with
  | nil => exact .refl t
  | cons key keys ih =>
    simp only [walkOn]
    cases doesVertexHaveKeyInAdjs t t.ptGraph.cur key with
    | none => exact .refl t
    | some v => exact (moveCur_rest inc v t).trans (ih _)

theorem createOn_rest (keys : List KeyT) (t : State) : SameRest t (createOn keys t) := by
  induction keys generalizing t with
  | nil => exact .refl t
  | cons key keys ih =>
    simp only [createOn]
    refine SameRest.trans ?_ (ih _)
    exact ⟨rfl, rfl, rfl, rfl⟩

/-- A walk that counts nothing leaves the trie alone and goes as far as the trie does. -/
theorem walkOn_longest (keys : List KeyT) (h : At t path T w) :
    At (walkOn false keys t).1 path T (w ++ keys.take (walkOn false keys t).2) ∧
      (walkOn false keys t).2 ≤ keys.length ∧
      ∀ n, (walkOn false keys t).2 < n → n ≤ keys.length → T.visits (w ++ keys.take n) = none := by
  induction keys generalizing t w with
  | nil =>
    refine ⟨by simpa [walkOn] using h, Nat.le_refl 0, fun n hlt hle => ?_⟩
    rw [walkOn] at hlt
    rw [List.length_nil] at hle
    omega
  | cons key keys ih =>
    cases hfind : doesVertexHaveKeyInAdjs t t.ptGraph.cur key with
    | none =>
      have hwalk : walkOn false (key :: keys) t = (t, 0) := by simp only [walkOn, hfind]
      have hnone : T.visits (w ++ [key]) = none := by
        rwa [h.lookup_none h.cur_lt, h.cur] at hfind
      rw [hwalk]
      refine ⟨by simpa using h, Nat.zero_le _, fun n hlt _ => ?_⟩
      obtain ⟨m, rfl⟩ := Nat.exists_eq_succ_of_ne_zero (Nat.pos_iff_ne_zero.mp hlt)
      rw [List.take_succ_cons, List.append_cons]
      exact h.no_descendant hnone _
    | some v =>
      obtain ⟨hv, hpath⟩ := (h.lookup h.cur_lt).mp hfind
      obtain ⟨hat, hle, hbeyond⟩ := ih (moveCur_false h hv)
      have hwalk : walkOn false (key :: keys) t =
          ((walkOn false keys (moveCur false v t)).1, (walkOn false keys (moveCur false v t)).2 + 1) := by
        simp only [walkOn, hfind]
      rw [hpath, h.cur] at hat hbeyond
      rw [hwalk]
      refine ⟨?_, Nat.succ_le_succ hle, fun n hlt hn => ?_⟩
      · rw [List.take_succ_cons, List.append_cons]
        exact hat
      · obtain ⟨m, rfl⟩ := Nat.exists_eq_succ_of_ne_zero (Nat.ne_zero_of_lt hlt)
        rw [List.take_succ_cons, List.append_cons]
        exact hbeyond m (Nat.lt_of_succ_lt_succ hlt) (Nat.le_of_succ_le_succ hn)

/-- Such a walk ends on a prefix of the context. -/
theorem walkOn_false (keys : List KeyT) (h : At t path T w) :
    ∃ u, u <+: keys ∧ At (walkOn false keys t).1 path T (w ++ u) :=
  ⟨_, List.take_prefix _ _, (walkOn_longest keys h).1⟩

/-- A new child that is visited at once. -/
theorem createChild_at (h : At t path T w) (hfree : T.visits (w ++ [k]) = none) (status : Status)
    (hstatus : status ≠ .root) :
    let r := Graph.hang t.ptGraph t.ptGraph.cur
      ⟨k, 0, status, (properties t.ptGraph t.ptGraph.cur).level + 1⟩
    ∃ path', At (moveCur true r.2 { t with ptGraph := r.1 }) path' (Trie.grow T w k 1) (w ++ [k]) := by
  intro r
  have hrep : Represents r.1 (Graph.pathHang t.ptGraph.vertices.length path t.ptGraph.cur k)
      (Trie.grow T (path t.ptGraph.cur) k 0) :=
    h.toRepresents.hang (⟨k, 0, status, _⟩ : VertexProperties) h.cur_lt (by rw [h.cur, hfree])
      (by rw [h.level _ h.cur_lt]) hstatus
  have hleaf : r.2 = t.ptGraph.vertices.length := by simp [r, h.labels.hang_eq]
  have hlen : r.1.vertices.length = t.ptGraph.vertices.length + 1 := h.labels.hang_length _ _
  have hcur : r.1.cur = t.ptGraph.cur := by simp [r, h.labels.hang_eq]
  have hpath := Graph.pathHang_new path t.ptGraph.vertices.length t.ptGraph.cur k
  rw [h.cur] at hrep hpath
  have hat : At { t with ptGraph := r.1 } (Graph.pathHang t.ptGraph.vertices.length path t.ptGraph.cur k)
      (Trie.grow T w k 0) w := by
    refine ⟨hrep, ?_, ?_⟩
    · have hlt := h.cur_lt
      show r.1.cur < r.1.vertices.length
      omega
    · show Graph.pathHang _ _ _ _ r.1.cur = w
      rw [hcur, Graph.pathHang_old h.cur_lt, h.cur]
  have hdown := goDown hat (v := r.2) (p := w) (k := k) (show r.2 < r.1.vertices.length by omega)
    (by rw [hleaf]; exact hpath)
  rw [Trie.visit_grow] at hdown
  exact ⟨_, hdown⟩

/-- Below a new vertex everything is new. -/
theorem createOn_at (keys : List KeyT) (h : At t path T w) (hfree : ∀ k ∈ keys.head?, T.visits (w ++ [k]) = none) :
    ∃ path', At (createOn keys t) path' (Trie.descendAll T w keys) (w ++ keys) := by
  induction keys generalizing t path T w with
  | nil => exact ⟨path, by simpa [createOn, Trie.descendAll] using h⟩
  | cons key keys ih =>
    have hnone : T.visits (w ++ [key]) = none := hfree key rfl
    have hgrow := Trie.descend_new T w key hnone
    obtain ⟨path₁, h₁⟩ := createChild_at h hnone (if keys = [] then .leaf else .normal)
      (by split <;> simp)
    obtain ⟨path₂, h₂⟩ := ih h₁ (by
      intro k hk
      rw [Trie.grow_visits, Function.update_of_ne (by simp)]
      exact h.no_child hnone k)
    refine ⟨path₂, ?_⟩
    rw [Trie.descendAll, hgrow]
    simpa [createOn] using h₂

/-- The walk on the context and the creation of the rest of it are one walk of the trie. -/
theorem walkCreate_at (keys : List KeyT) (h : At t path T w) : ∃ path',
    At (createOn (keys.drop (walkOn true keys t).2) (walkOn true keys t).1) path'
      (Trie.descendAll T w keys) (w ++ keys) := by
  induction keys generalizing t w T with
  | nil => exact ⟨path, by simpa [walkOn, createOn, Trie.descendAll] using h⟩
  | cons key keys ih =>
    cases hfind : doesVertexHaveKeyInAdjs t t.ptGraph.cur key with
    | none =>
      have hwalk : walkOn true (key :: keys) t = (t, 0) := by simp only [walkOn, hfind]
      rw [hwalk]
      refine createOn_at (key :: keys) h ?_
      rintro k ⟨⟩
      rwa [h.lookup_none h.cur_lt, h.cur] at hfind
    | some v =>
      obtain ⟨hv, hpath⟩ := (h.lookup h.cur_lt).mp hfind
      rw [h.cur] at hpath
      have hvisits := h.visits v hv
      rw [hpath] at hvisits
      have hvisit := Trie.descend_old T w key (by simp [hvisits])
      obtain ⟨path', hat⟩ := ih (goDown h hv hpath)
      have hwalk : walkOn true (key :: keys) t =
          ((walkOn true keys (moveCur true v t)).1, (walkOn true keys (moveCur true v t)).2 + 1) := by
        simp only [walkOn, hfind]
      rw [hwalk, Trie.descendAll, hvisit, List.drop_succ_cons]
      exact ⟨path', by simpa using hat⟩

end Walk

/-! ## Calls -/

section Calls
variable {t : State} {path : Nat → List KeyT} {T : Trie.State KeyT} {key : KeyT}

theorem goHome_at {w : List KeyT} (h : At t path T w) (inc : Bool) :
    At (moveCur inc t.ptGraph.root t) path (if inc then Trie.home T else T) [] := by
  cases inc with
  | true => exact goHome h
  | false =>
    have hroot : t.ptGraph.root < t.ptGraph.vertices.length := by
      rw [h.labels.root]
      exact h.labels.nonempty
    have hhome := moveCur_false h hroot
    rw [h.labels.root, h.labels.path_root] at hhome
    rw [h.labels.root]
    exact hhome

theorem encodeAccess_at (key : KeyT) {w : List KeyT} (h : At t path T w) :
    ∃ path' w', At (encodeAccess t key) path' (Trie.descend T w key) w' := by
  unfold encodeAccess
  cases hfind : doesVertexHaveKeyInAdjs t t.ptGraph.cur key with
  | none =>
    rw [h.lookup_none h.cur_lt] at hfind
    have hleaf := createConnectLeaf_at h h.cur_lt hfind
    rw [h.cur] at hleaf hfind
    rw [Trie.descend_new T w key hfind]
    exact ⟨_, _, hleaf⟩
  | some v =>
    obtain ⟨hv, hpath⟩ := (h.lookup h.cur_lt).mp hfind
    have hvisits := h.visits v hv
    rw [h.cur] at hpath
    rw [hpath] at hvisits
    rw [Trie.descend_old T w key (by simp [hvisits])]
    exact ⟨_, _, goDown h hv hpath⟩

theorem encodeAccess_rest (t : State) (key : KeyT) : SameRest t (encodeAccess t key) := by
  unfold encodeAccess
  split
  · exact moveCur_rest _ _ _
  · exact createConnectLeaf_rest _ _ _

/-- With a whole context, an access is one walk of the trie along the context and the new key. -/
theorem addAccessWPpm_at (key : KeyT) (h : At t path T []) (hcontext : t.context.length = t.contextSize) : ∃ path',
    At (addAccessWPpm t key) path' (Trie.home (Trie.descendAll T [] (t.context ++ [key]))) [] := by
  obtain ⟨path₁, h₁⟩ := walkCreate_at t.context h
  have hsame : (walkOn true t.context t).1.context = t.context := (walkOn_rest true t.context t).context
  obtain ⟨path₂, w₂, h₂⟩ := encodeAccess_at key h₁
  rw [Trie.descendAll_concat]
  simp only [addAccessWPpm, if_pos hcontext, moveCurOnContext, createMoveCurOnContext, hsame]
  exact ⟨path₂, { goHome_at h₂ true with }⟩

theorem addAccessWPpm_rest (t : State) (key : KeyT) :
    (addAccessWPpm t key).malgoT = t.malgoT ∧ (addAccessWPpm t key).contextSize = t.contextSize ∧
      (addAccessWPpm t key).context =
        (if t.context.length = t.contextSize then t.context.tail else t.context) ++ [key] := by
  by_cases hcontext : t.context.length = t.contextSize
  · have hwalk := walkOn_rest true t.context t
    have hcreate := hwalk.trans (createOn_rest (t.context.drop (walkOn true t.context t).2) _)
    have hrest := hcreate.trans (encodeAccess_rest _ key)
    simp only [addAccessWPpm, if_pos hcontext, moveCurOnContext, createMoveCurOnContext, hwalk.context]
    exact ⟨hrest.malgoT, hrest.contextSize, congrArg (·.tail ++ [key]) hrest.context⟩
  · simp [addAccessWPpm, hcontext]

/-- A prediction leaves everything but the cursor alone, and puts this back to the root. -/
theorem predictWPpm_at (h : At t path T []) (jitter : Nat → ℚ) :
    At (predictWPpm t jitter).1 path T [] ∧ SameRest t (predictWPpm t jitter).1 := by
  obtain ⟨u, -, hat⟩ := walkOn_false t.context h
  exact ⟨goHome_at hat false, (walkOn_rest false t.context t).trans (moveCur_rest _ _ _)⟩

end Calls

/-! ## Windows -/

/-- The runs of `k + 1` consecutive accesses. -/
def windows (k : Nat) (keys : List KeyT) : List (List KeyT) :=
  (List.range (keys.length - k)).map fun i => (keys.drop i).take (k + 1)

/-- The last `k` accesses, or all where there are fewer. -/
def lastKeys (k : Nat) (keys : List KeyT) : List KeyT := keys.drop (keys.length - k)

section Windows
variable {k : Nat} {keys : List KeyT} {key : KeyT}

theorem length_lastKeys : (lastKeys k keys).length = min keys.length k := by
  simp only [lastKeys, List.length_drop]
  omega

theorem windows_concat : windows k (keys ++ [key]) =
    windows k keys ++ if k ≤ keys.length then [lastKeys k keys ++ [key]] else [] := by
  by_cases hk : k ≤ keys.length
  · have hlen : (keys ++ [key]).length - k = keys.length - k + 1 := by
      rw [List.length_append, List.length_singleton]
      omega
    have hold : ∀ i ∈ List.range (keys.length - k),
        ((keys ++ [key]).drop i).take (k + 1) = (keys.drop i).take (k + 1) := by
      intro i hi
      have hi := List.mem_range.mp hi
      rw [List.drop_append_of_le_length (by omega), List.take_append_of_le_length]
      rw [List.length_drop]
      omega
    have hnew : ((keys ++ [key]).drop (keys.length - k)).take (k + 1) = lastKeys k keys ++ [key] := by
      rw [List.drop_append_of_le_length (by omega)]
      refine List.take_of_length_le ?_
      rw [List.length_append, List.length_drop, List.length_singleton]
      omega
    rw [windows, hlen, List.range_succ, List.map_append, List.map_congr_left hold, List.map_singleton, hnew,
      if_pos hk, windows]
  · have h0 : keys.length - k = 0 := by omega
    have h1 : (keys ++ [key]).length - k = 0 := by
      rw [List.length_append, List.length_singleton]
      omega
    rw [windows, windows, h0, h1, if_neg hk, List.append_nil]
    rfl

theorem lastKeys_concat (hk : 1 ≤ k) : lastKeys k (keys ++ [key]) =
    (if (lastKeys k keys).length = k then (lastKeys k keys).tail else lastKeys k keys) ++ [key] := by
  rw [length_lastKeys]
  by_cases hlen : k ≤ keys.length
  · have hdrop : (keys ++ [key]).length - k = keys.length - k + 1 := by
      rw [List.length_append, List.length_singleton]
      omega
    rw [if_pos (Nat.min_eq_right hlen), lastKeys, hdrop, List.drop_append_of_le_length (by omega), lastKeys,
      List.tail_drop]
  · have h0 : keys.length - k = 0 := by omega
    have h1 : (keys ++ [key]).length - k = 0 := by
      rw [List.length_append, List.length_singleton]
      omega
    rw [if_neg (by omega), lastKeys, lastKeys, h0, h1, List.drop_zero, List.drop_zero]

theorem length_windows {x : List KeyT} (hx : x ∈ windows k keys) : x.length = k + 1 := by
  obtain ⟨i, hi, rfl⟩ := List.mem_map.mp hx
  have hi := List.mem_range.mp hi
  rw [List.length_take, List.length_drop]
  omega

theorem infix_of_mem_windows {x : List KeyT} (hx : x ∈ windows k keys) : x <:+: keys := by
  obtain ⟨i, -, rfl⟩ := List.mem_map.mp hx
  exact (List.take_prefix _ _).isInfix.trans (List.drop_suffix _ _).isInfix

end Windows

/-! ## Counts -/

/-- The words counted by how many of the windows start with them. -/
def prefixCounts (ws : List (List KeyT)) (w : List KeyT) : Option Nat :=
  if w = [] ∨ ∃ x ∈ ws, w <+: x then some (ws.countP fun x => w <+: x) else none

/-- A walk along a window counts the window. -/
theorem walk_prefixCounts {T : Trie.State KeyT} {ws : List (List KeyT)} (hT : T.visits = prefixCounts ws)
    (x : List KeyT) : (Trie.home (Trie.descendAll T [] x)).visits = prefixCounts (ws ++ [x]) := by
  have hcount : ∀ w, (prefixCounts ws w).getD 0 = ws.countP fun x => w <+: x := by
    intro w
    unfold prefixCounts
    split
    · rfl
    · rename_i hnot
      refine (List.countP_eq_zero.mpr fun x hx hpre => hnot ?_).symm
      exact .inr ⟨x, hx, of_decide_eq_true hpre⟩
  funext w
  rw [Trie.home_visits]
  by_cases hnil : w = []
  · subst hnil
    rw [update_self, Trie.descendAll_visits, if_neg (fun h => h.2.1 rfl), hT]
    simp [prefixCounts]
  · rw [update_of_ne hnil, Trie.descendAll_visits, hT, hcount]
    by_cases hx : w <+: x
    · rw [if_pos ⟨List.nil_prefix, hnil, by simpa using hx⟩]
      simp [prefixCounts, hx]
    · rw [if_neg (fun h => hx (by simpa using h.2.2))]
      simp [prefixCounts, hnil, hx, or_and_right, exists_or]

/-- The tree counts the windows of `k + 1` accesses. -/
structure IsNgramTree (t : State Int32) (k : Nat) (keys : List KeyT) : Prop where
  vertices : ∀ w, 1 ≤ w.length → w.length ≤ k + 1 →
    ((vertexAt t w).isSome ↔ ∃ x ∈ windows k keys, w <+: x)
  paths : ∀ v < t.ptGraph.vertices.length, ∃ w, w.length ≤ k + 1 ∧ vertexAt t w = some v
  visits : ∀ w v, 1 ≤ w.length → vertexAt t w = some v →
    Counted (properties t.ptGraph v).numVisit ((windows k keys).countP fun x => w <+: x)
  root : Counted (properties t.ptGraph t.ptGraph.root).numVisit (keys.length - k)
  siblings : ∀ v, ((getAdjVertices t.ptGraph v).map fun u => (properties t.ptGraph u).key).Nodup
  cur : t.ptGraph.cur = t.ptGraph.root
  context : t.context = keys.drop (keys.length - min keys.length k)

/-- What a call keeps: the tree represents the counts of the windows. -/
structure Counts (t : State) (k : Nat) (keys : List KeyT) : Prop where
  rep : ∃ path T, At t path T [] ∧ T.visits = prefixCounts (windows k keys)
  malgoT : t.malgoT = .ppm
  contextSize : t.contextSize = k
  context : t.context = lastKeys k keys

section Counts
variable {t : State} {k : Nat} {keys : List KeyT}

theorem init_counts (k : Nat) : Counts (init .ppm k) k [] where
  rep := by
    refine ⟨_, _, init_at .ppm k, ?_⟩
    funext w
    by_cases hw : w = []
    · simp [Trie.empty, prefixCounts, windows, hw]
    · simp [Trie.empty, prefixCounts, windows, hw]
  malgoT := rfl
  contextSize := rfl
  context := by simp [init, lastKeys]

theorem addAccess_counts (h : Counts t k keys) (hk : 1 ≤ k) (key : KeyT) :
    Counts (addAccessWPpm t key) k (keys ++ [key]) := by
  obtain ⟨⟨path, T, hat, hT⟩, hmalgo, hsize, hcontext⟩ := h
  obtain ⟨hmalgo', hsize', hcontext'⟩ := addAccessWPpm_rest t key
  refine ⟨?_, hmalgo'.trans hmalgo, hsize'.trans hsize, ?_⟩
  · rw [windows_concat]
    by_cases hlen : k ≤ keys.length
    · have hfull : t.context.length = t.contextSize := by
        rw [hcontext, hsize, length_lastKeys, Nat.min_eq_right hlen]
      obtain ⟨path', hat'⟩ := addAccessWPpm_at key hat hfull
      rw [if_pos hlen, ← hcontext]
      exact ⟨path', _, hat', walk_prefixCounts hT _⟩
    · have hshort : t.context.length ≠ t.contextSize := by
        rw [hcontext, hsize, length_lastKeys]
        omega
      rw [if_neg hlen, List.append_nil, addAccessWPpm, if_neg hshort]
      exact ⟨path, T, { hat with }, hT⟩
  · rw [hcontext', hcontext, hsize, lastKeys_concat hk]

theorem predict_counts (h : Counts t k keys) (jitter : Nat → ℚ) : Counts (predictWPpm t jitter).1 k keys := by
  obtain ⟨⟨path, T, hat, hT⟩, hmalgo, hsize, hcontext⟩ := h
  obtain ⟨hat', hrest⟩ := predictWPpm_at hat jitter
  exact ⟨⟨path, T, hat', hT⟩, hrest.malgoT.trans hmalgo, hrest.contextSize.trans hsize,
    hrest.context.trans hcontext⟩

theorem call_counts (h : Counts t k keys) (hk : 1 ≤ k) (c : Call) :
    Counts (call t c) k (keys ++ accessed [c]) := by
  cases c with
  | addAccess key =>
    simp only [call, addAccess, h.malgoT]
    exact addAccess_counts h hk key
  | predict jitter =>
    simp only [call, predict, h.malgoT]
    simpa [accessed] using predict_counts h jitter

theorem vertexAt_toInt32 (t : State) (w : List KeyT) : vertexAt (State.toInt32 t) w = vertexAt t w :=
  Graph.vertexFrom_mapProps _ t.ptGraph rfl (fun _ => rfl) _ w

theorem Counts.isNgramTree (h : Counts t k keys) : IsNgramTree (State.toInt32 t) k keys := by
  obtain ⟨⟨path, T, hat, hT⟩, -, -, hcontext⟩ := h
  have hroot : path t.ptGraph.root = [] := by rw [hat.labels.root, hat.labels.path_root]
  have hroot_lt : t.ptGraph.root < t.ptGraph.vertices.length := by
    rw [hat.labels.root]
    exact hat.labels.nonempty
  have hvisits : ∀ v < t.ptGraph.vertices.length,
      prefixCounts (windows k keys) (path v) = some (properties t.ptGraph v).numVisit := by
    intro v hv
    rw [← hT, hat.visits v hv]
  have hcount : ∀ v < t.ptGraph.vertices.length,
      Counted (properties (State.toInt32 t).ptGraph v).numVisit ((windows k keys).countP fun x => path v <+: x) := by
    intro v hv
    have hv := hvisits v hv
    unfold prefixCounts at hv
    split at hv
    · rw [Option.some.inj hv, State.toInt32, properties_toInt32]
      exact counted_ofNat _
    · cases hv
  refine ⟨?_, ?_, ?_, ?_, fun v => ?_, ?_, ?_⟩
  · intro w hw _
    rw [vertexAt_toInt32]
    have hne : w ≠ [] := List.ne_nil_of_length_pos hw
    have hdom : (∃ x ∈ windows k keys, w <+: x) ↔ (prefixCounts (windows k keys) w).isSome := by
      unfold prefixCounts
      split <;> simp_all
    rw [hdom, ← hT]
    constructor
    · intro hsome
      obtain ⟨v, hv⟩ := Option.isSome_iff_exists.mp hsome
      obtain ⟨hlt, rfl⟩ := hat.vertexAt_iff.mp hv
      simp [hat.visits v hlt]
    · intro hsome
      obtain ⟨m, hm⟩ := Option.isSome_iff_exists.mp hsome
      obtain ⟨v, hlt, hpath⟩ := hat.dom w m hm
      simp [hat.vertexAt_iff.mpr ⟨hlt, hpath⟩]
  · intro v hv
    rw [State.toInt32, Graph.mapProps, List.length_map] at hv
    refine ⟨path v, ?_, (vertexAt_toInt32 t _).trans (hat.vertexAt_iff.mpr ⟨hv, rfl⟩)⟩
    have hsome := hvisits v hv
    unfold prefixCounts at hsome
    split at hsome
    · rename_i hpath
      rcases hpath with hnil | ⟨x, hx, hpre⟩
      · simp [hnil]
      · exact hpre.length_le.trans (length_windows hx).le
    · cases hsome
  · intro w v _ hv
    rw [vertexAt_toInt32] at hv
    obtain ⟨hlt, rfl⟩ := hat.vertexAt_iff.mp hv
    exact hcount v hlt
  · have hall := hcount _ hroot_lt
    rw [hroot] at hall
    have hlen : (windows k keys).countP (fun x => [] <+: x) = keys.length - k := by simp [windows]
    rwa [hlen] at hall
  · simp only [State.toInt32, key_toInt32]
    exact hat.siblings v
  · show t.ptGraph.cur = t.ptGraph.root
    exact hat.labels.inj _ _ hat.cur_lt hroot_lt (by rw [hat.cur, hroot])
  · show t.context = _
    rw [hcontext, lastKeys]
    congr 1
    omega

/-- No count of a PPM tree is above the number of the windows. -/
theorem Counts.fits (h : Counts t k keys) (hlen : keys.length - k + 1 < 2 ^ 31) : Fits t.ptGraph := by
  obtain ⟨⟨path, T, hat, hT⟩, -, -, -⟩ := h
  have hle : ∀ v < t.ptGraph.vertices.length, (properties t.ptGraph v).numVisit ≤ keys.length - k := by
    intro v hv
    have hvisits := hat.visits v hv
    rw [hT, prefixCounts] at hvisits
    split at hvisits
    · rw [← Option.some.inj hvisits]
      have hcount := List.countP_le_length (p := fun x => decide (path v <+: x)) (l := windows k keys)
      simpa [windows] using hcount
    · cases hvisits
  refine ⟨fun prop hprop => ?_, ?_⟩
  · obtain ⟨v, hv, rfl⟩ := List.mem_iff_getElem.mp hprop
    have hget : properties t.ptGraph v = t.ptGraph.vertices[v] := by
      rw [properties, List.getD_eq_getElem?_getD, List.getElem?_eq_getElem hv, Option.getD_some]
    have hcount := hle v hv
    rw [hget] at hcount
    omega
  · have hroot := hle t.ptGraph.root (hat.labels.root ▸ hat.labels.nonempty)
    omega

theorem run_counts (hk : 1 ≤ k) (calls : List Call) :
    Counts (calls.foldl call (init .ppm k)) k (accessed calls) := by
  induction calls using List.reverseRecOn with
  | nil => exact init_counts k
  | append_singleton calls c ih =>
    rw [List.foldl_append, accessed, List.filterMap_append]
    exact call_counts ih hk c

/-- Whatever is accessed and predicted, the PPM tree counts the windows of the accesses, in an `int`. -/
theorem ppm_tree_counts_windows (hk : 1 ≤ k) (calls : List Call) :
    IsNgramTree (calls.foldl call (init .ppm k)) k (accessed calls) := by
  rw [run_toInt32]
  exact (run_counts hk calls).isNgramTree

/-- Contexts of one key: the tree counts the pairs. -/
theorem ppm_tree_of_pairs : windows 1 [4, 9, 4] = [[4, 9], [9, 4]] ∧
    IsNgramTree ([.addAccess 4, .addAccess 9, .predict fun _ => 0, .addAccess 4].foldl call (init .ppm 1)) 1
      [4, 9, 4] :=
  ⟨by decide, ppm_tree_counts_windows (Nat.le_refl 1)
    [.addAccess 4, .addAccess 9, .predict fun _ => 0, .addAccess 4]⟩

/-- One key that is accessed `n` times. -/
def again (n : Nat) : List Call := List.replicate n (.addAccess 5)

theorem accessed_again (n : Nat) : accessed (again n) = List.replicate n 5 := by
  induction n with
  | zero => rfl
  | succ n ih => rw [again, List.replicate_succ, List.replicate_succ, ← ih]; rfl

theorem windows_again (n : Nat) : windows 1 (List.replicate (n + 1) 5) = List.replicate n [5, 5] := by
  refine List.eq_replicate_iff.mpr ⟨by simp [windows], fun w hw => ?_⟩
  obtain ⟨i, hi, rfl⟩ := List.mem_map.mp hw
  have hi := List.mem_range.mp hi
  rw [List.length_replicate] at hi
  rw [List.drop_replicate, List.take_replicate, Nat.min_eq_left (by omega)]
  rfl

theorem prefixCounts_again {n : Nat} (hn : 0 < n) {u : List KeyT} (hu : u <+: [5, 5]) :
    prefixCounts (windows 1 (List.replicate (n + 1) 5)) u = some n := by
  rw [windows_again]
  have hmem : ∃ x ∈ List.replicate n [5, 5], u <+: x := ⟨_, List.mem_replicate.mpr ⟨hn.ne', rfl⟩, hu⟩
  rw [prefixCounts, if_pos (.inr hmem), List.countP_replicate, if_pos (decide_eq_true hu)]

theorem root_again (n : Nat) :
    let t : State Int32 := (again (n + 1)).foldl call (init .ppm 1)
    (properties t.ptGraph t.ptGraph.root).numVisit = Int32.ofNat n ∧ (accessed (again (n + 1))).length - 1 = n := by
  have hlen : (accessed (again (n + 1))).length - 1 = n := by
    rw [accessed_again, List.length_replicate, Nat.add_sub_cancel]
  have hroot := (ppm_tree_counts_windows (Nat.le_refl 1) (again (n + 1))).root.1
  rw [hlen] at hroot
  exact ⟨hroot, hlen⟩

/-- After `2 ^ 31 + 1` accesses of one key the count of the root has overflowed. -/
theorem root_overflows : ¬ ∀ k, 1 ≤ k → ∀ calls : List Call,
    let t : State Int32 := calls.foldl call (init .ppm k)
    (properties t.ptGraph t.ptGraph.root).numVisit.toInt = ((accessed calls).length - k : Nat) := by
  intro h
  obtain ⟨hroot, hlen⟩ := root_again (2 ^ 31)
  have hall := h 1 (Nat.le_refl 1) (again (2 ^ 31 + 1))
  dsimp only at hall hroot
  rw [hroot, hlen] at hall
  exact absurd hall (by decide)

end Counts

end PpmTree
