import DataspacesWa.Prediction

/-!
# Shorter contexts of PPM

A prediction of PPM walks down the tree along the stored context, from its
oldest key on, and predicts from where it stops. A walk that stops early has
used the beginning of the context, and what the tree has below that followed
older accesses, not the last one.
-/
namespace PpmBackoff

open Graph (properties getAdjVertices)
open ParseTree Walks PpmTree
open Prediction (divide_keys onlyBack_divide walkOn_false_graph)

/-! ## Contexts -/

/-- Some run of `k + 1` accesses begins with the word. -/
def Met (k : Nat) (keys w : List KeyT) : Prop := ∃ x ∈ windows k keys, w <+: x

instance (k : Nat) (keys w : List KeyT) : Decidable (Met k keys w) :=
  inferInstanceAs (Decidable (∃ x ∈ windows k keys, w <+: x))

/-- The longest beginning of the last `k` accesses that has been met. -/
def metContext (k : Nat) (keys : List KeyT) : List KeyT :=
  (lastKeys k keys).take
    (Nat.findGreatest (fun n => Met k keys ((lastKeys k keys).take n)) (lastKeys k keys).length)

/-- What has been met of the context ends with the last accesses, or only the way back has come after it. -/
def EndsLate (k : Nat) (keys : List KeyT) : Prop :=
  metContext k keys <:+ keys ∨
    ∀ x ∈ windows k keys, metContext k keys <+: x → metContext k keys ++ [backToRootLeafKey] <+: x

/-- The vertex of the last division. -/
def predictedFrom (t : State) (jitter : Nat → ℚ) : Option Nat := ((predict t jitter).2.2.getLast?).map (·.v)

/-- A prediction that is not made from the root is made from an end of the accesses, and every key in it has
come after the last one. -/
def BacksOff (t : State) (keys : List KeyT) (jitter : Nat → ℚ) : Prop :=
  ∀ v ∈ predictedFrom t jitter, v ≠ t.ptGraph.root →
    (∃ w, vertexAt t w = some v ∧ w ≠ [] ∧ w <:+ keys) ∧
      ∀ last ∈ keys.getLast?, ∀ key ∈ (predict t jitter).2.1.map (·.1), [last, key] <:+: keys

section Words
variable {k : Nat} {keys w : List KeyT}

theorem length_metContext_le (k : Nat) (keys : List KeyT) : (metContext k keys).length ≤ k := by
  have hpre : metContext k keys <+: lastKeys k keys := List.take_prefix _ _
  have hle := hpre.length_le
  rw [length_lastKeys] at hle
  omega

theorem met_iff (hw : w ≠ []) : Met k keys w ↔ prefixCounts (windows k keys) w ≠ none := by
  unfold prefixCounts
  split
  next h => exact iff_of_true (h.resolve_left hw) (by simp)
  next h => exact iff_of_false (fun hmet => h (.inr hmet)) (by simp)

/-- A word that is shorter than a window goes on in it. -/
theorem met_concat_of_window {x : List KeyT} (hlen : w.length ≤ k) (hx : x ∈ windows k keys) (hw : w <+: x) :
    ∃ key, w ++ [key] <+: x := by
  have hlength := length_windows hx
  obtain ⟨s, rfl⟩ := hw
  cases s with
  | nil =>
    rw [List.append_nil] at hlength
    omega
  | cons key s => exact ⟨key, s, by simp⟩

theorem only_back_iff (hlen : w.length ≤ k) :
    (∀ key, Met k keys (w ++ [key]) → key = backToRootLeafKey) ↔
      ∀ x ∈ windows k keys, w <+: x → w ++ [backToRootLeafKey] <+: x := by
  constructor
  · intro honly x hx hw
    obtain ⟨key, hkey⟩ := met_concat_of_window hlen hx hw
    rw [← honly key ⟨x, hx, hkey⟩]
    exact hkey
  · rintro hback key ⟨x, hx, hkey⟩
    have hboth := List.prefix_of_prefix_length_le hkey (hback x hx ((List.prefix_append _ _).trans hkey)) (by simp)
    have heq := List.append_cancel_left (hboth.eq_of_length (by simp))
    exact (List.cons.inj heq).1

/-- What comes after an end of the accesses has come after the last one. -/
theorem infix_of_met {last key : KeyT} (hw : w <:+ keys) (hne : w ≠ []) (hlast : last ∈ keys.getLast?)
    (hmet : Met k keys (w ++ [key])) : [last, key] <:+: keys := by
  obtain ⟨x, hx, hpre⟩ := hmet
  have hend : w.getLast? = some last := by
    obtain ⟨p, rfl⟩ := hw
    rwa [List.getLast?_append_of_ne_nil _ hne] at hlast
  obtain ⟨p, rfl⟩ := List.getLast?_eq_some_iff.mp hend
  have hpair : [last, key] <:+: p ++ [last] ++ [key] := ⟨p, [], by simp⟩
  exact (hpair.trans hpre.isInfix).trans (infix_of_mem_windows hx)

end Words

/-! ## The walk -/

section Walk
variable {t : State} {path : Nat → List KeyT} {T : Trie.State KeyT} {w : List KeyT} {k : Nat} {keys : List KeyT}

/-- The walk on the context comes to what has been met of it. -/
theorem walkOn_context (h : At t path T []) (hT : T.visits = prefixCounts (windows k keys))
    (hcontext : t.context = lastKeys k keys) :
    At (walkOn false t.context t).1 path T (metContext k keys) := by
  obtain ⟨hat, hle, hbeyond⟩ := walkOn_longest t.context h
  rw [hcontext] at hat hle hbeyond ⊢
  have hlongest : Nat.findGreatest (fun n => Met k keys ((lastKeys k keys).take n)) (lastKeys k keys).length =
      (walkOn false (lastKeys k keys) t).2 := by
    rw [Nat.findGreatest_eq_iff]
    refine ⟨hle, fun hne => ?_, fun n hlt hn => ?_⟩
    · have hnil : (lastKeys k keys).take (walkOn false (lastKeys k keys) t).2 ≠ [] := by
        rw [← List.length_pos_iff, List.length_take]
        omega
      have hvisits := hat.visits _ hat.cur_lt
      rw [hat.cur, List.nil_append, hT] at hvisits
      rw [met_iff hnil, hvisits]
      simp
    · have hnil : (lastKeys k keys).take n ≠ [] := by
        rw [← List.length_pos_iff, List.length_take]
        omega
      rw [met_iff hnil, not_not, ← hT]
      exact hbeyond n hlt hn
  rw [metContext, hlongest]
  exact hat

end Walk

/-! ## The prediction -/

section Predict
variable {t : State} {path : Nat → List KeyT} {T : Trie.State KeyT} {w : List KeyT} {k : Nat} {keys : List KeyT}
  {key : KeyT}

/-- The keys below the cursor are those that have come after its word. -/
theorem mem_childKeys (h : At t path T w) (hT : T.visits = prefixCounts (windows k keys)) :
    key ∈ (getAdjVertices t.ptGraph t.ptGraph.cur).map (fun u => (properties t.ptGraph u).key) ↔
      Met k keys (w ++ [key]) := by
  rw [met_iff (by simp), ← hT, List.mem_map]
  constructor
  · rintro ⟨u, hu, hkey⟩
    obtain ⟨hlt, hpath⟩ := (h.labels.edge_iff h.cur_lt).mp ⟨Graph.mem_getAdjVertices.mp hu, hkey⟩
    rw [h.cur] at hpath
    rw [← hpath, h.visits u hlt]
    simp
  · intro hsome
    obtain ⟨m, hm⟩ := Option.ne_none_iff_exists'.mp hsome
    obtain ⟨u, hlt, hpath⟩ := h.dom _ m hm
    rw [← h.cur] at hpath
    obtain ⟨hmem, hkey⟩ := (h.labels.edge_iff h.cur_lt).mpr ⟨hlt, hpath⟩
    exact ⟨u, Graph.mem_getAdjVertices.mpr hmem, hkey⟩

/-- The prediction falls back to the root when there is only the way back below the cursor. -/
theorem onlyBack_cur (h : At t path T w) (hT : T.visits = prefixCounts (windows k keys)) (hlen : w.length ≤ k)
    (jitter : Nat → ℚ) (total : Nat) :
    onlyBack (divide t.ptGraph jitter t.ptGraph.cur total) = true ↔
      ∀ x ∈ windows k keys, w <+: x → w ++ [backToRootLeafKey] <+: x := by
  rw [onlyBack_divide h.toRepresents h.cur_lt, h.cur, ← only_back_iff hlen]
  exact forall_congr' fun key => by rw [met_iff (by simp), hT]

theorem predictWLz_root {jitter : Nat → ℚ}
    (h : onlyBack (divide t.ptGraph jitter t.ptGraph.cur (curTotal t)) = true) :
    ((predictWLz t jitter).2.getLast?).map (·.v) = some t.ptGraph.root := by
  simp [predictWLz, h]

theorem predictWLz_cur {jitter : Nat → ℚ}
    (h : ¬ onlyBack (divide t.ptGraph jitter t.ptGraph.cur (curTotal t)) = true) :
    ((predictWLz t jitter).2.getLast?).map (·.v) = some t.ptGraph.cur ∧
      ∀ key ∈ (predictWLz t jitter).1.map (·.1),
        key ∈ (divide t.ptGraph jitter t.ptGraph.cur (curTotal t)).map (·.1) := by
  simp only [predictWLz, h, Bool.false_eq_true, if_false]
  refine ⟨rfl, fun key hkey => ?_⟩
  obtain ⟨e, he, rfl⟩ := List.mem_map.mp hkey
  exact List.mem_map_of_mem (List.mem_filter.mp he).1

/-- In any run, a prediction backs off to an end of the accesses exactly when what has been met of the context
is one, or it falls back to the root. -/
theorem backs_off_iff (hk : 1 ≤ k) (calls : List Call) (jitter : Nat → ℚ) :
    BacksOff (calls.foldl call (init .ppm k)) (accessed calls) jitter ↔ EndsLate k (accessed calls) := by
  obtain ⟨⟨path, T, hat, hT⟩, hmalgo, -, hcontext⟩ := run_counts hk calls
  generalize calls.foldl call (init .ppm k) = t at hat hmalgo hcontext ⊢
  generalize accessed calls = keys at hT hcontext ⊢
  have hwalk := walkOn_context hat hT hcontext
  obtain ⟨v, hgraph⟩ := walkOn_false_graph t.context t
  have hpredict := predict_ppm hmalgo jitter
  generalize (walkOn false t.context t).1 = t' at hwalk hgraph hpredict
  have hroot : t'.ptGraph.root = t.ptGraph.root := by rw [hgraph]; rfl
  have hlen := length_metContext_le k keys
  have hback := onlyBack_cur hwalk hT hlen jitter (curTotal t')
  rw [EndsLate, ← hback, BacksOff, predictedFrom, hpredict]
  by_cases honly : onlyBack (divide t'.ptGraph jitter t'.ptGraph.cur (curTotal t')) = true
  · -- the root is never a vertex other than the root
    rw [predictWLz_root honly]
    refine iff_of_true (fun v hv hne => ?_) (.inr honly)
    exact absurd ((Option.some.inj hv).symm.trans hroot) hne
  · obtain ⟨hcur, hkeys⟩ := predictWLz_cur honly
    rw [hcur, or_iff_left honly]
    have hword : ∀ w, vertexAt t w = some t'.ptGraph.cur ↔ w = metContext k keys := by
      intro w
      have hlt : t'.ptGraph.cur < t.ptGraph.vertices.length := by
        have hlt := hwalk.cur_lt
        rw [hgraph] at hlt ⊢
        exact hlt
      rw [hat.vertexAt_iff, hwalk.cur]
      exact ⟨fun h => h.2.symm, fun h => ⟨hlt, h.symm⟩⟩
    constructor
    · intro hbacks
      by_cases hnil : metContext k keys = []
      · rw [hnil]
        exact List.nil_suffix
      · have hne : t'.ptGraph.cur ≠ t.ptGraph.root := by
          intro heq
          refine hnil ?_
          rw [← hwalk.cur, heq, hat.labels.root, hat.labels.path_root]
        obtain ⟨⟨w, hw, -, hsuffix⟩, -⟩ := hbacks _ rfl hne
        rwa [(hword w).mp hw] at hsuffix
    · intro hsuffix v hv hne
      obtain rfl := Option.some.inj hv
      have hnil : metContext k keys ≠ [] := by
        intro hnil
        have hzero : t'.ptGraph.cur = 0 :=
          hwalk.labels.inj _ _ hwalk.cur_lt hwalk.labels.nonempty (by rw [hwalk.cur, hnil, hwalk.labels.path_root])
        exact hne (hzero.trans hat.labels.root.symm)
      refine ⟨⟨_, (hword _).mpr rfl, hnil, hsuffix⟩, fun last hlast key hkey => ?_⟩
      refine infix_of_met hsuffix hnil hlast ((mem_childKeys hwalk hT).mp ?_)
      rw [← divide_keys jitter (curTotal t') (hwalk.siblings _)]
      exact hkeys key hkey

/-- A context that has been met whole. -/
theorem backs_off_whole : metContext 2 [1, 2, 3, 1, 2] = [1, 2] ∧
    BacksOff (([1, 2, 3, 1, 2].map Call.addAccess).foldl call (init .ppm 2)) [1, 2, 3, 1, 2] fun _ => 0 :=
  ⟨by decide +kernel,
    (backs_off_iff (by decide) ([1, 2, 3, 1, 2].map Call.addAccess) fun _ => 0).mpr (.inl (by decide +kernel))⟩

/-- The context is 1 and 4, and only the 1 has been met: 2 is predicted, which has come after 1 and never after 4. -/
theorem stale_context :
    ((predict (([1, 2, 3, 1, 4].map Call.addAccess).foldl call (init .ppm 2)) fun _ => 0).2.1.map (·.1)) = [2] ∧
    ¬ ∀ k, 1 ≤ k → ∀ calls jitter, BacksOff (calls.foldl call (init .ppm k)) (accessed calls) jitter := by
  have hkeys : ((predict (([1, 2, 3, 1, 4].map Call.addAccess).foldl call (init .ppm 2)) fun _ => 0).2.1.map (·.1)) =
      [2] := by decide +kernel
  refine ⟨hkeys, fun hall => ?_⟩
  have hbacks := hall 2 (by decide) ([1, 2, 3, 1, 4].map Call.addAccess) (fun _ => 0) 1 (by decide +kernel) (by decide +kernel)
  have hpair := hbacks.2 4 rfl 2 (by rw [hkeys]; exact List.mem_cons_self)
  exact absurd hpair (by decide +kernel)

end Predict

end PpmBackoff
