import Mathlib

/-!
# Graphs that grow as trees

`Graph<VERTEX_PROPERTIES, EDGE_PROPERTIES>`: vertices with properties, directed
edges, a root and a cursor. A vertex is its position in the list of vertices.
Where every new vertex is hung below an old one under a key that is free there,
the keys on the way from the root name the vertices.
-/
namespace Graph

open Function (update update_self update_of_ne)

structure State (P : Type*) where
  vertices : List P
  edges : List (Nat × Nat)
  root : Nat
  cur : Nat

variable {P K : Type*}

def empty : State P := ⟨[], [], 0, 0⟩

def properties [Inhabited P] (g : State P) (v : Nat) : P := g.vertices.getD v default

/-- `add_vertex`: the first vertex becomes the root and the cursor. -/
def addVertex (g : State P) (prop : P) : State P × Nat :=
  let v := g.vertices.length
  if v = 0 then ({ g with vertices := [prop], root := v, cur := v }, v)
  else ({ g with vertices := g.vertices ++ [prop] }, v)

/-- `add_directed_edge`; parallel edges are not kept. -/
def addDirectedEdge (g : State P) (vs vt : Nat) : State P :=
  if (vs, vt) ∈ g.edges then g else { g with edges := g.edges ++ [(vs, vt)] }

def setCur (g : State P) (v : Nat) : State P := { g with cur := v }

/-- What is written through the reference that `properties` returns. -/
def modify (g : State P) (v : Nat) (f : P → P) : State P := { g with vertices := g.vertices.modify v f }

def getAdjVertices (g : State P) (v : Nat) : List Nat :=
  g.edges.filterMap fun (vs, vt) => if vs = v then some vt else none

/-- A new vertex with an edge from an old one. -/
def hang (g : State P) (v : Nat) (prop : P) : State P × Nat :=
  let (g, leaf) := addVertex g prop
  (addDirectedEdge g v leaf, leaf)

theorem mem_getAdjVertices {g : State P} {v u : Nat} : u ∈ getAdjVertices g v ↔ (v, u) ∈ g.edges := by
  simp only [getAdjVertices, List.mem_filterMap, Prod.exists, Option.ite_none_right_eq_some,
    Option.some.injEq]
  constructor
  · rintro ⟨_, _, hmem, rfl, rfl⟩
    exact hmem
  · intro hmem
    exact ⟨v, u, hmem, rfl, rfl⟩

theorem getAdjVertices_nodup {g : State P} (h : g.edges.Nodup) (v : Nat) : (getAdjVertices g v).Nodup := by
  refine h.filterMap ?_
  rintro ⟨s, t⟩ ⟨s', t'⟩ u hu hu'
  simp only [Option.mem_def, Option.ite_none_right_eq_some, Option.some.injEq] at hu hu'
  obtain ⟨rfl, rfl⟩ := hu
  obtain ⟨rfl, rfl⟩ := hu'
  rfl

/-! ## Lookups -/

section Lookup
variable [Inhabited P] [DecidableEq K] (key : P → K)

/-- The neighbour of `v` that has the key. -/
def adjWithKey (g : State P) (v : Nat) (k : K) : Option Nat :=
  (getAdjVertices g v).find? fun u => key (properties g u) = k

/-- The vertex that the keys lead to from `v`. -/
def vertexFrom (g : State P) : Nat → List K → Option Nat
  | v, [] => some v
  | v, k :: w => (adjWithKey key g v k).bind fun u => vertexFrom g u w

end Lookup

/-! ## Paths -/

variable [Inhabited P]

/-- The graph is a tree, and `path` gives the keys on the way from the root to each vertex. -/
structure Labels (key : P → K) (g : State P) (path : Nat → List K) : Prop where
  root : g.root = 0
  nonempty : 0 < g.vertices.length
  path_root : path 0 = []
  edge : ∀ s t, (s, t) ∈ g.edges ↔
    s < g.vertices.length ∧ t < g.vertices.length ∧ path t = path s ++ [key (properties g t)]
  nodup : g.edges.Nodup
  parent : ∀ t, 0 < t → t < g.vertices.length → ∃ s, (s, t) ∈ g.edges
  inj : ∀ s t, s < g.vertices.length → t < g.vertices.length → path s = path t → s = t

section Labels
variable {key : P → K} {g : State P} {path : Nat → List K}

/-- A path that ends in `k` leads to a vertex with the key `k`. -/
theorem Labels.key_eq (h : Labels key g path) {t : Nat} {w : List K} {k : K}
    (ht : t < g.vertices.length) (hw : path t = w ++ [k]) : key (properties g t) = k := by
  have hpos : 0 < t := by
    refine Nat.pos_of_ne_zero ?_
    rintro rfl
    simp [h.path_root] at hw
  obtain ⟨s, hs⟩ := h.parent t hpos ht
  have hpath := ((h.edge s t).mp hs).2.2
  rw [hw] at hpath
  simpa using (List.append_inj' hpath rfl).2.symm

theorem Labels.edge_iff (h : Labels key g path) {v u : Nat} {k : K} (hv : v < g.vertices.length) :
    (v, u) ∈ g.edges ∧ key (properties g u) = k ↔ u < g.vertices.length ∧ path u = path v ++ [k] := by
  constructor
  · rintro ⟨hmem, rfl⟩
    exact ((h.edge v u).mp hmem).2
  · rintro ⟨hu, hpath⟩
    have hk := h.key_eq hu hpath
    exact ⟨(h.edge v u).mpr ⟨hv, hu, hk.symm ▸ hpath⟩, hk⟩

theorem Labels.path_ne_nil (h : Labels key g path) {v : Nat} (hv : v < g.vertices.length) (h0 : v ≠ 0) :
    path v ≠ [] := by
  intro hnil
  exact h0 (h.inj v 0 hv h.nonempty (hnil.trans h.path_root.symm))

/-- Every path goes through vertices. -/
theorem Labels.closed (h : Labels key g path) {w : List K} {t : Nat} (ht : t < g.vertices.length)
    (hw : w <+: path t) : ∃ x < g.vertices.length, path x = w := by
  generalize hn : (path t).length = n
  induction n generalizing t with
  | zero =>
    have hnil := List.length_eq_zero_iff.mp hn
    refine ⟨t, ht, ?_⟩
    rw [hnil] at hw ⊢
    exact (List.prefix_nil.mp hw).symm
  | succ n ih =>
    have hpos : 0 < t := by
      refine Nat.pos_of_ne_zero ?_
      rintro rfl
      simp [h.path_root] at hn
    obtain ⟨s, hs⟩ := h.parent t hpos ht
    obtain ⟨hslt, -, hpath⟩ := (h.edge s t).mp hs
    rw [hpath] at hw hn
    rcases List.prefix_concat_iff.mp hw with heq | hpre
    · exact ⟨t, ht, by rw [hpath, heq]⟩
    · exact ih hslt hpre (by simpa using hn)

variable [DecidableEq K]

/-- The neighbour with a key is the one vertex whose path is longer by this key. -/
theorem Labels.adjWithKey_eq_some (h : Labels key g path) {v u : Nat} {k : K} (hv : v < g.vertices.length) :
    adjWithKey key g v k = some u ↔ u < g.vertices.length ∧ path u = path v ++ [k] := by
  constructor
  · intro hfind
    have hmem := mem_getAdjVertices.mp (List.mem_of_find?_eq_some hfind)
    have hk := List.find?_some hfind
    simp only [decide_eq_true_eq] at hk
    exact (h.edge_iff hv).mp ⟨hmem, hk⟩
  · intro hu
    obtain ⟨hmem, hk⟩ := (h.edge_iff hv).mpr hu
    have hsome : (adjWithKey key g v k).isSome := by
      rw [adjWithKey, List.find?_isSome]
      exact ⟨u, mem_getAdjVertices.mpr hmem, by simpa using hk⟩
    obtain ⟨x, hx⟩ := Option.isSome_iff_exists.mp hsome
    have hxmem := mem_getAdjVertices.mp (List.mem_of_find?_eq_some hx)
    have hxk := List.find?_some hx
    simp only [decide_eq_true_eq] at hxk
    obtain ⟨hxlt, hxpath⟩ := (h.edge_iff hv).mp ⟨hxmem, hxk⟩
    rw [hx, h.inj x u hxlt hu.1 (hxpath.trans hu.2.symm)]

theorem Labels.adjWithKey_eq_none (h : Labels key g path) {v : Nat} {k : K} (hv : v < g.vertices.length) :
    adjWithKey key g v k = none ↔ ∀ u < g.vertices.length, path u ≠ path v ++ [k] := by
  rw [Option.eq_none_iff_forall_ne_some]
  exact ⟨fun hnone u hu hpath => hnone u ((h.adjWithKey_eq_some hv).mpr ⟨hu, hpath⟩),
    fun hne u hu => hne u ((h.adjWithKey_eq_some hv).mp hu).1 ((h.adjWithKey_eq_some hv).mp hu).2⟩

theorem Labels.vertexFrom_eq_some (h : Labels key g path) {v u : Nat} {w : List K}
    (hv : v < g.vertices.length) :
    vertexFrom key g v w = some u ↔ u < g.vertices.length ∧ path u = path v ++ w := by
  induction w generalizing v with
  | nil =>
    simp only [vertexFrom, Option.some.injEq, List.append_nil]
    constructor
    · rintro rfl
      exact ⟨hv, rfl⟩
    · rintro ⟨hu, hpath⟩
      exact h.inj v u hv hu hpath.symm
  | cons k w ih =>
    simp only [vertexFrom, Option.bind_eq_some_iff]
    constructor
    · rintro ⟨x, hx, hu⟩
      obtain ⟨hxlt, hxpath⟩ := (h.adjWithKey_eq_some hv).mp hx
      obtain ⟨hult, hupath⟩ := (ih hxlt).mp hu
      exact ⟨hult, by rw [hupath, hxpath, List.append_assoc, List.singleton_append]⟩
    · rintro ⟨hu, hpath⟩
      obtain ⟨x, hx, hxpath⟩ := h.closed hu (w := path v ++ [k]) (by simp [hpath])
      exact ⟨x, (h.adjWithKey_eq_some hv).mpr ⟨hx, hxpath⟩, (ih hx).mpr ⟨hu, by simp [hpath, hxpath]⟩⟩

end Labels

/-! ## Growth -/

section Growth
variable {key : P → K} {g : State P} {path : Nat → List K}

omit [Inhabited P] in
@[simp] theorem modify_length (v : Nat) (f : P → P) :
    (modify g v f).vertices.length = g.vertices.length := by
  simp [modify]

theorem modify_properties {v : Nat} (f : P → P) (hv : v < g.vertices.length) (u : Nat) :
    properties (modify g v f) u = if u = v then f (properties g v) else properties g u := by
  by_cases hu : u = v
  · subst hu
    simp [properties, modify, hv]
  · simp [properties, modify, hu, Ne.symm hu]

omit [Inhabited P] in
theorem hang_vertices (h : 0 < g.vertices.length) (v : Nat) (prop : P) :
    (hang g v prop).1.vertices = g.vertices ++ [prop] := by
  simp only [hang, addVertex, if_neg (Nat.pos_iff_ne_zero.mp h), addDirectedEdge]
  split <;> rfl

omit [Inhabited P] in
theorem mem_hang_edges (h : 0 < g.vertices.length) {v : Nat} {prop : P} {e : Nat × Nat} :
    e ∈ (hang g v prop).1.edges ↔ e ∈ g.edges ∨ e = (v, g.vertices.length) := by
  simp only [hang, addVertex, if_neg (Nat.pos_iff_ne_zero.mp h), addDirectedEdge]
  split
  next hmem =>
    refine ⟨Or.inl, fun he => he.elim id fun heq => ?_⟩
    rw [heq]
    exact hmem
  next => simp

theorem properties_hang (h : 0 < g.vertices.length) (v : Nat) (prop : P) (u : Nat) :
    properties (hang g v prop).1 u = if u = g.vertices.length then prop else properties g u := by
  rw [properties, hang_vertices h]
  by_cases hu : u = g.vertices.length
  · simp [hu]
  · by_cases hlt : u < g.vertices.length
    · simp [properties, hu, List.getElem?_append_left hlt]
    · have hle : g.vertices.length + 1 ≤ u := by omega
      have hnew : (g.vertices ++ [prop])[u]? = none := List.getElem?_eq_none (by simpa using hle)
      simp [properties, hu, hnew, Nat.le_of_not_lt hlt]

theorem Labels.setCur (h : Labels key g path) (v : Nat) : Labels key (setCur g v) path :=
  ⟨h.root, h.nonempty, h.path_root, h.edge, h.nodup, h.parent, h.inj⟩

theorem Labels.modify (h : Labels key g path) {v : Nat} {f : P → P} (hf : ∀ prop, key (f prop) = key prop)
    (hv : v < g.vertices.length) : Labels key (modify g v f) path where
  root := h.root
  nonempty := by simpa using h.nonempty
  path_root := h.path_root
  edge s t := by
    have hkey : key (properties (Graph.modify g v f) t) = key (properties g t) := by
      rw [modify_properties f hv]
      split
      · rename_i ht
        rw [hf, ht]
      · rfl
    rw [modify_length, hkey]
    exact h.edge s t
  nodup := h.nodup
  parent t h0 ht := h.parent t h0 (modify_length v f ▸ ht)
  inj s t := by simpa using h.inj s t

theorem Labels.edge_fresh (h : Labels key g path) (s : Nat) : (s, g.vertices.length) ∉ g.edges := by
  intro hmem
  exact absurd ((h.edge _ _).mp hmem).2.1 (Nat.lt_irrefl _)

theorem Labels.hang_eq (h : Labels key g path) (v : Nat) (prop : P) :
    hang g v prop = ({ g with vertices := g.vertices ++ [prop], edges := g.edges ++ [(v, g.vertices.length)] },
      g.vertices.length) := by
  have hne : g.vertices.length ≠ 0 := Nat.pos_iff_ne_zero.mp h.nonempty
  simp only [Graph.hang, addVertex, if_neg hne, addDirectedEdge, if_neg (h.edge_fresh v)]

theorem Labels.hang_length (h : Labels key g path) (v : Nat) (prop : P) :
    (hang g v prop).1.vertices.length = g.vertices.length + 1 := by
  simp [h.hang_eq]

theorem Labels.hang_properties (h : Labels key g path) (v : Nat) (prop : P) (u : Nat) :
    properties (hang g v prop).1 u = if u = g.vertices.length then prop else properties g u :=
  properties_hang h.nonempty v prop u

/-- The paths once the vertex `n` with the key `k` hangs below `v`. -/
def pathHang (n : Nat) (path : Nat → List K) (v : Nat) (k : K) : Nat → List K :=
  update path n (path v ++ [k])

theorem pathHang_new (path : Nat → List K) (n v : Nat) (k : K) : pathHang n path v k n = path v ++ [k] := by
  simp [pathHang]

theorem pathHang_old {n u : Nat} (hu : u < n) (v : Nat) (k : K) : pathHang n path v k u = path u := by
  simp [pathHang, Nat.ne_of_lt hu]

/-- Hanging a vertex below `v` under a key that is free there keeps the graph a tree. -/
theorem Labels.hang (h : Labels key g path) {v : Nat} {prop : P} (hv : v < g.vertices.length)
    (hfree : ∀ u < g.vertices.length, path u ≠ path v ++ [key prop]) :
    Labels key (hang g v prop).1 (pathHang g.vertices.length path v (key prop)) := by
  have hedges : ∀ s t, (s, t) ∈ (Graph.hang g v prop).1.edges ↔
      (s, t) ∈ g.edges ∨ s = v ∧ t = g.vertices.length := by
    simp [h.hang_eq]
  have hinj : ∀ s t, s < g.vertices.length + 1 → t < g.vertices.length + 1 →
      pathHang g.vertices.length path v (key prop) s = pathHang g.vertices.length path v (key prop) t → s = t := by
    intro s t hs ht hst
    rcases Nat.lt_succ_iff_lt_or_eq.mp hs with hs | rfl <;>
      rcases Nat.lt_succ_iff_lt_or_eq.mp ht with ht | rfl
    · rw [pathHang_old hs, pathHang_old ht] at hst
      exact h.inj s t hs ht hst
    · rw [pathHang_old hs, pathHang_new] at hst
      exact absurd hst (hfree s hs)
    · rw [pathHang_old ht, pathHang_new] at hst
      exact absurd hst.symm (hfree t ht)
    · rfl
  refine ⟨?_, ?_, ?_, ?_, ?_, ?_, ?_⟩
  · rw [h.hang_eq]
    exact h.root
  · rw [h.hang_length]
    exact Nat.succ_pos _
  · rw [pathHang_old h.nonempty, h.path_root]
  · intro s t
    rw [hedges, h.hang_length, h.hang_properties]
    by_cases ht : t = g.vertices.length
    · subst ht
      have hnew : (s, g.vertices.length) ∉ g.edges := h.edge_fresh s
      simp only [hnew, false_or, and_true, Nat.lt_add_one, true_and, if_true, pathHang_new,
        List.append_left_inj]
      constructor
      · rintro rfl
        exact ⟨Nat.lt_add_right 1 hv, (pathHang_old hv s _).symm⟩
      · rintro ⟨hs, hpath⟩
        have hv' : pathHang g.vertices.length path v (key prop) v = path v := pathHang_old hv v _
        exact (hinj v s (Nat.lt_add_right 1 hv) hs (hv'.trans hpath)).symm
    · have hold : ¬(s = v ∧ t = g.vertices.length) := fun hst => ht hst.2
      rw [or_iff_left hold, if_neg ht, h.edge s t]
      constructor
      · rintro ⟨hs, htlt, hpath⟩
        exact ⟨by omega, by omega, by rw [pathHang_old hs, pathHang_old htlt, hpath]⟩
      · rintro ⟨hs, htlt, hpath⟩
        have htlt : t < g.vertices.length := by omega
        rw [pathHang_old htlt] at hpath
        rcases Nat.lt_succ_iff_lt_or_eq.mp hs with hs | rfl
        · rw [pathHang_old hs] at hpath
          exact ⟨hs, htlt, hpath⟩
        · -- the path of an old vertex does not go through the new one
          rw [pathHang_new] at hpath
          obtain ⟨u, hu, hupath⟩ := h.closed htlt (w := path v ++ [key prop]) (by simp [hpath])
          exact absurd hupath (hfree u hu)
  · rw [h.hang_eq]
    refine List.nodup_append.mpr ⟨h.nodup, List.nodup_singleton _, ?_⟩
    rintro x hx _ hy rfl
    obtain rfl := List.mem_singleton.mp hy
    exact h.edge_fresh v hx
  · intro t h0 ht
    rw [h.hang_length] at ht
    rcases Nat.lt_succ_iff_lt_or_eq.mp ht with ht | rfl
    · obtain ⟨s, hs⟩ := h.parent t h0 ht
      exact ⟨s, (hedges s t).mpr (.inl hs)⟩
    · exact ⟨v, (hedges v _).mpr (.inr ⟨rfl, rfl⟩)⟩
  · rw [h.hang_length]
    exact hinj

/-! ## Sums over the children -/

/-- What the children of `v` weigh together. -/
def childSum (f : P → Nat) (g : State P) (v : Nat) : Nat :=
  ((getAdjVertices g v).map fun u => f (properties g u)).sum

theorem getAdjVertices_hang (h : Labels key g path) (v u : Nat) (prop : P) :
    getAdjVertices (Graph.hang g v prop).1 u =
      getAdjVertices g u ++ if v = u then [g.vertices.length] else [] := by
  rw [h.hang_eq]
  by_cases hu : v = u <;> simp [getAdjVertices, hu]

/-- A new child adds its own weight, and has no children. -/
theorem childSum_hang (h : Labels key g path) (f : P → Nat) {v u : Nat} {prop : P} (hv : v < g.vertices.length) :
    childSum f (Graph.hang g v prop).1 u =
      if u = v then childSum f g v + f prop else if u = g.vertices.length then 0 else childSum f g u := by
  have hold : (getAdjVertices g u).map (fun x => f (properties (Graph.hang g v prop).1 x)) =
      (getAdjVertices g u).map fun x => f (properties g x) := by
    refine List.map_congr_left fun x hx => ?_
    have hx : x ≠ g.vertices.length := Nat.ne_of_lt ((h.edge u x).mp (mem_getAdjVertices.mp hx)).2.1
    rw [h.hang_properties, if_neg hx]
  unfold childSum
  rw [getAdjVertices_hang h, List.map_append, List.sum_append, hold]
  by_cases huv : u = v
  · subst huv
    simp [h.hang_properties]
  · rw [if_neg huv, if_neg (Ne.symm huv)]
    by_cases hn : u = g.vertices.length
    · -- an edge never leaves from where there is no vertex yet
      have hnil : getAdjVertices g u = [] := by
        refine List.eq_nil_iff_forall_not_mem.mpr fun x hx => ?_
        have hlt := ((h.edge u x).mp (mem_getAdjVertices.mp hx)).1
        omega
      simp [hn, hn ▸ hnil]
    · simp [hn]

omit [Inhabited P] in
theorem sum_indicator (l : List Nat) (v : Nat) : (l.map fun x => if x = v then 1 else 0).sum = l.count v := by
  induction l with
  | nil => rfl
  | cons x l ih =>
    rw [List.map_cons, List.sum_cons, ih, List.count_cons]
    simp only [beq_iff_eq]
    omega

/-- One more on the weight of a vertex is one more below its parent. -/
theorem childSum_modify (h : Labels key g path) (f : P → Nat) {v u : Nat} {inc : P → P}
    (hinc : ∀ prop, f (inc prop) = f prop + 1) (hv : v < g.vertices.length) :
    childSum f (Graph.modify g v inc) u = childSum f g u + if (u, v) ∈ g.edges then 1 else 0 := by
  have hadj : getAdjVertices (Graph.modify g v inc) u = getAdjVertices g u := rfl
  have hweight : ∀ x, f (properties (Graph.modify g v inc) x) = f (properties g x) + if x = v then 1 else 0 := by
    intro x
    rw [modify_properties inc hv]
    by_cases hx : x = v
    · simp [hx, hinc]
    · simp [hx]
  have hcount : ((getAdjVertices g u).map fun x => if x = v then 1 else 0).sum =
      if (u, v) ∈ g.edges then 1 else 0 := by
    rw [sum_indicator, List.Nodup.count (getAdjVertices_nodup h.nodup u)]
    simp only [mem_getAdjVertices]
  unfold childSum
  simp only [hadj, hweight, List.sum_map_add, hcount]

theorem childSum_congr {g' : State P} (f : P → Nat) {v : Nat} (hadj : getAdjVertices g' v = getAdjVertices g v)
    (hf : ∀ u, f (properties g' u) = f (properties g u)) : childSum f g' v = childSum f g v := by
  simp [childSum, hadj, hf]

end Growth

/-! ## Other properties -/

section Map
variable {Q : Type*} [Inhabited Q] (f : P → Q) (g : State P)

omit [Inhabited P] [Inhabited Q] in
/-- The same graph with its properties read in another way. -/
def mapProps : State Q := ⟨g.vertices.map f, g.edges, g.root, g.cur⟩

theorem properties_mapProps (hdefault : f default = default) (v : Nat) :
    properties (mapProps f g) v = f (properties g v) := by
  rw [properties, properties, mapProps, List.getD_eq_getElem?_getD, List.getD_eq_getElem?_getD, List.getElem?_map]
  cases g.vertices[v]? with
  | none => exact hdefault.symm
  | some prop => rfl

omit [Inhabited P] [Inhabited Q] in
theorem mapProps_modify {f : P → Q} {a : P → P} {b : Q → Q} (h : ∀ prop, f (a prop) = b (f prop)) (v : Nat) :
    modify (mapProps f g) v b = mapProps f (modify g v a) := by
  have hvertices : (g.vertices.modify v a).map f = (g.vertices.map f).modify v b := by
    refine List.ext_getElem? fun u => ?_
    simp only [List.getElem?_map, List.getElem?_modify]
    cases g.vertices[u]? with
    | none => rfl
    | some prop =>
      by_cases hu : v = u
      · simp [hu, h]
      · simp [hu]
  rw [mapProps, modify, ← hvertices]
  rfl

omit [Inhabited P] [Inhabited Q] in
theorem mapProps_addVertex (prop : P) :
    addVertex (mapProps f g) (f prop) = (mapProps f (addVertex g prop).1, (addVertex g prop).2) := by
  by_cases hempty : g.vertices.length = 0 <;> simp [addVertex, hempty, mapProps]

omit [Inhabited P] [Inhabited Q] in
theorem mapProps_addDirectedEdge (vs vt : Nat) :
    addDirectedEdge (mapProps f g) vs vt = mapProps f (addDirectedEdge g vs vt) := by
  by_cases hmem : (vs, vt) ∈ g.edges <;> simp [addDirectedEdge, hmem, mapProps]

omit [Inhabited P] [Inhabited Q] in
theorem mapProps_hang (v : Nat) (prop : P) :
    hang (mapProps f g) v (f prop) = (mapProps f (hang g v prop).1, (hang g v prop).2) := by
  rw [hang, mapProps_addVertex]
  dsimp only
  rw [mapProps_addDirectedEdge]
  rfl

variable [DecidableEq K] {key : P → K} {key' : Q → K}

theorem adjWithKey_mapProps (hdefault : f default = default) (hkey : ∀ prop, key' (f prop) = key prop) (v : Nat)
    (k : K) : adjWithKey key' (mapProps f g) v k = adjWithKey key g v k := by
  have hsame : ∀ u, key' (properties (mapProps f g) u) = key (properties g u) := fun u => by
    rw [properties_mapProps f g hdefault, hkey]
  simp only [adjWithKey, hsame]
  rfl

theorem vertexFrom_mapProps (hdefault : f default = default) (hkey : ∀ prop, key' (f prop) = key prop) (v : Nat)
    (w : List K) : vertexFrom key' (mapProps f g) v w = vertexFrom key g v w := by
  induction w generalizing v with
  | nil => rfl
  | cons k w ih => simp only [vertexFrom, adjWithKey_mapProps f g hdefault hkey, ih]

end Map

/-! ## Below the root -/

/-- All edges lead to vertices other than the first, and these are all as wanted. -/
structure Below (S : P → Prop) (g : State P) : Prop where
  nonempty : 0 < g.vertices.length
  edge : ∀ e ∈ g.edges, 0 < e.2 ∧ e.2 < g.vertices.length
  vertex : ∀ v, 0 < v → v < g.vertices.length → S (properties g v)

section Below
variable {S S' : P → Prop} {g : State P}

theorem Below.imp (h : Below S g) (himp : ∀ prop, S prop → S' prop) : Below S' g :=
  ⟨h.nonempty, h.edge, fun v h0 hv => himp _ (h.vertex v h0 hv)⟩

theorem Below.setCur (h : Below S g) (v : Nat) : Below S (setCur g v) := ⟨h.nonempty, h.edge, h.vertex⟩

theorem Below.modify (h : Below S g) {f : P → P} (hf : ∀ prop, S prop → S (f prop)) (v : Nat) :
    Below S (modify g v f) := by
  refine ⟨by simpa using h.nonempty, fun e he => by simpa using h.edge e he, fun u h0 hu => ?_⟩
  rw [modify_length] at hu
  by_cases huv : u = v
  · subst huv
    rw [modify_properties f hu, if_pos rfl]
    exact hf _ (h.vertex u h0 hu)
  · have hsame : properties (Graph.modify g v f) u = properties g u := by
      simp [properties, Graph.modify, Ne.symm huv]
    rw [hsame]
    exact h.vertex u h0 hu

theorem Below.hang (h : Below S g) {prop : P} (hprop : S prop) (v : Nat) : Below S (hang g v prop).1 := by
  have hlen : (Graph.hang g v prop).1.vertices.length = g.vertices.length + 1 := by
    rw [hang_vertices h.nonempty, List.length_append, List.length_singleton]
  refine ⟨by omega, fun e he => ?_, fun u h0 hu => ?_⟩
  · rcases (mem_hang_edges h.nonempty).mp he with he | rfl
    · have hold := h.edge e he
      omega
    · exact ⟨h.nonempty, by omega⟩
  · rw [properties_hang h.nonempty]
    split
    next => exact hprop
    next hne => exact h.vertex u h0 (by omega)

theorem Below.child (h : Below S g) {v u : Nat} (hu : u ∈ getAdjVertices g v) : S (properties g u) := by
  have hedge := h.edge _ (mem_getAdjVertices.mp hu)
  exact h.vertex u hedge.1 hedge.2

end Below

end Graph
