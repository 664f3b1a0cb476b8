import DataspacesWa.Frequencies

/-!
# The size of the LZ tree

The LZ tree has a vertex for each phrase of the parse and one for its leaf back
to the root. The phrases in their order are the accesses, so nothing is lost,
and a long phrase is there only after many accesses.
-/
namespace LzSize

open Graph (properties)
open ParseTree Walks
open Frequencies (run_follows)

/-! ## Vertices -/

section Vertices
variable {t : State} {path : Nat → List KeyT} {T : Trie.State KeyT} {d : Lz78.Parse KeyT}

/-- The paths of the vertices: the root, the phrases, and their leaves. -/
def paths (d : Lz78.Parse KeyT) : List (List KeyT) :=
  [] :: (d.phrases ++ d.phrases.map fun p => p ++ [backToRootLeafKey])

theorem mem_paths (d : Lz78.Parse KeyT) (w : List KeyT) : w ∈ paths d ↔ LzTree.dictionary d w ≠ none := by
  rw [paths, List.mem_cons, List.mem_append, List.mem_map, LzTree.dictionary]
  split
  next hnil => exact iff_of_true (.inl hnil) (by simp)
  next hne =>
    rw [or_iff_right hne]
    split
    next hphrase => exact iff_of_true (.inl hphrase) (by simp)
    next hnot =>
      rw [or_iff_right hnot]
      split
      next hback =>
        obtain ⟨p, hp, rfl⟩ := hback
        exact iff_of_true ⟨p, hp, rfl⟩ (by simp)
      next hnone =>
        refine iff_of_false ?_ (by simp)
        rintro ⟨p, hp, rfl⟩
        exact hnone ⟨p, hp, rfl⟩

theorem paths_nodup (h : LzTree.Plain d) (hnodup : d.phrases.Nodup) : (paths d).Nodup := by
  have hinj : Function.Injective fun p : List KeyT => p ++ [backToRootLeafKey] := fun _ _ => List.append_cancel_right
  refine List.nodup_cons.mpr ⟨?_, List.nodup_append.mpr ⟨hnodup, hnodup.map hinj, ?_⟩⟩
  · rw [List.mem_append, List.mem_map]
    rintro (hnil | ⟨p, -, hp⟩)
    · exact h.ne_nil _ hnil rfl
    · exact absurd hp (by simp)
  · intro p hp q hq heq
    obtain ⟨r, -, hr⟩ := List.mem_map.mp hq
    exact h.no_back p hp r (heq.trans hr.symm)

theorem length_vertices (h : At t path T d.part) (hT : T.visits = LzTree.dictionary d) (hplain : LzTree.Plain d)
    (hnodup : d.phrases.Nodup) : t.ptGraph.vertices.length = 2 * d.phrases.length + 1 := by
  have hperm : ((List.range t.ptGraph.vertices.length).map path).Perm (paths d) := by
    refine (List.perm_ext_iff_of_nodup ?_ (paths_nodup hplain hnodup)).mpr fun w => ?_
    · refine List.Nodup.map_on (fun x hx y hy heq => ?_) List.nodup_range
      exact h.labels.inj x y (List.mem_range.mp hx) (List.mem_range.mp hy) heq
    · rw [mem_paths d, ← hT, ne_eq, h.none_iff]
      simp
  have hlen := hperm.length_eq
  simp only [paths, List.length_map, List.length_range, List.length_cons, List.length_append] at hlen
  omega

theorem le_foldr_max {n : Nat} {l : List Nat} (h : n ∈ l) : n ≤ l.foldr max 0 := by
  induction l with
  | nil => cases h
  | cons m l ih =>
    rw [List.foldr_cons]
    rcases List.mem_cons.mp h with rfl | hmem
    · exact le_max_left _ _
    · exact (ih hmem).trans (le_max_right _ _)

theorem foldr_max_mem (l : List Nat) : l.foldr max 0 = 0 ∨ l.foldr max 0 ∈ l := by
  induction l with
  | nil => exact .inl rfl
  | cons m l ih =>
    rw [List.foldr_cons]
    rcases max_choice m (l.foldr max 0) with hm | hl
    · rw [hm]
      exact .inr List.mem_cons_self
    · rw [hl]
      exact ih.imp_right (List.mem_cons_of_mem m)

/-- A vertex is no deeper than the longest phrase and a leaf. -/
theorem level_le (h : LzTree.Follows t d) {v : Nat} (hv : v < t.ptGraph.vertices.length) :
    (properties t.ptGraph v).level ≤ t.longestPhraseLength + 1 := by
  obtain ⟨⟨path, T, hat, hT⟩, hplain, -, hlongest⟩ := h
  rw [hat.level v hv, hlongest]
  have hpath : path v ∈ paths d := by
    rw [mem_paths d, ← hT, hat.visits v hv]
    simp
  have hle : ∀ p ∈ d.phrases, p.length ≤ (d.phrases.map List.length).foldr max 0 :=
    fun p hp => le_foldr_max (List.mem_map_of_mem hp)
  rw [paths, List.mem_cons, List.mem_append, List.mem_map] at hpath
  rcases hpath with hnil | hphrase | ⟨p, hp, heq⟩
  · rw [hnil]
    exact Nat.zero_le _
  · exact (hle _ hphrase).trans (Nat.le_succ _)
  · rw [← heq, List.length_append]
    exact Nat.succ_le_succ (hle p hp)

end Vertices

/-! ## Runs -/

/-- The tree after some accesses. -/
structure Bounded (t : State) (d : Lz78.Parse KeyT) (keys : List KeyT) : Prop where
  lossless : d.phrases.flatten ++ d.part = keys
  vertices : t.ptGraph.vertices.length = 2 * d.phrases.length + 1
  level : ∀ v < t.ptGraph.vertices.length, (properties t.ptGraph v).level ≤ t.longestPhraseLength + 1
  longest : t.longestPhraseLength * (t.longestPhraseLength + 1) ≤ 2 * keys.length

/-- Whatever is accessed and predicted, the phrases of the tree are the accesses, cut into pieces that are all
different, and the square of the longest one is within twice their number. -/
theorem lz_tree_bounded (contextSize : Nat) (calls : List Call) (hkeys : ∀ key ∈ accessed calls, key ≠ backToRootLeafKey) :
    Bounded (calls.foldl call (init .lz contextSize)) (Lz78.parse (accessed calls)) (accessed calls) := by
  have hfollows := (run_follows contextSize calls hkeys).1
  have hflatten := Lz78.parse_flatten (accessed calls)
  have hlevel := fun v hv => level_le hfollows (v := v) hv
  obtain ⟨⟨path, T, hat, hT⟩, hplain, -, hlongest⟩ := hfollows
  refine ⟨hflatten, length_vertices hat hT hplain (Lz78.parse_nodup _), hlevel, ?_⟩
  have hsum : ((Lz78.parse (accessed calls)).phrases.map List.length).sum ≤ (accessed calls).length := by
    have hlen := congrArg List.length hflatten
    rw [List.length_append, List.length_flatten] at hlen
    omega
  rw [hlongest]
  rcases foldr_max_mem ((Lz78.parse (accessed calls)).phrases.map List.length) with hzero | hmem
  · rw [hzero]
    exact Nat.zero_le _
  · obtain ⟨p, hp, hlen⟩ := List.mem_map.mp hmem
    rw [← hlen]
    exact (Lz78.parse_long _ p hp).trans (by omega)

/-- Six accesses make three phrases and a partial one. -/
theorem lz_tree_bounded_six :
    Bounded (([5, 5, 7, 5, 9, 5].map Call.addAccess).foldl call (init .lz 0)) ⟨[[5], [5, 7], [5, 9]], [5]⟩ [5, 5, 7, 5, 9, 5] :=
  lz_tree_bounded 0 ([5, 5, 7, 5, 9, 5].map Call.addAccess) (by simp [accessed, backToRootLeafKey])

end LzSize
