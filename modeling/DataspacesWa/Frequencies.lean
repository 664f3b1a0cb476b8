import DataspacesWa.AlzTree
import DataspacesWa.PpmBackoff

/-!
# Predictions are frequencies

What a prediction gives to a key, before the jitter, is how often the key has
come after a word. LZ and ALZ count the phrases of their parses that go on from
the partial phrase, and start again at the root where none does. PPM counts the
windows that go on from what has been met of the context.
-/
namespace Frequencies

open Graph (properties getAdjVertices)
open ParseTree Walks IntVisits
open Prediction (divide_eq onlyBack_divide call_malgoT walkOn_false_graph)

/-- How often the key comes next, among the words that begin with `w`. -/
def frequency (ws : List (List KeyT)) (w : List KeyT) (key : KeyT) : ℚ :=
  (ws.countP fun p => w ++ [key] <+: p : Nat) / (ws.countP fun p => w <+: p : Nat)

/-- The keys that have a vertex below `w` are given their frequencies, and the jitter of the vertex. -/
def Predicts {ν : Type} [Inhabited ν] (t : State ν) (jitter : Nat → ℚ) (ws : List (List KeyT)) (w : List KeyT) (m : KeyProbMap) : Prop :=
  ∀ key prob, (key, prob) ∈ m ↔
    key ≠ backToRootLeafKey ∧ ∃ u, vertexAt t (w ++ [key]) = some u ∧ prob = frequency ws w key + jitter u

/-! ## One division loop -/

section Divide
variable {g : Graph.State VertexProperties} {path : Nat → List KeyT} {T : Trie.State KeyT} {v : Nat} {key : KeyT} {prob : ℚ}

/-- A child is given its visits over the total. -/
theorem mem_divide (h : Represents g path T) (hv : v < g.vertices.length) (jitter : Nat → ℚ) (total : Nat) :
    (key, prob) ∈ divide g jitter v total ↔ ∃ u, u < g.vertices.length ∧ path u = path v ++ [key] ∧
      prob = baseProb g total u + jitter u := by
  rw [divide_eq jitter total (h.siblings v), List.mem_map]
  constructor
  · rintro ⟨u, hu, heq⟩
    obtain ⟨hkey, hprob⟩ := Prod.mk.inj heq
    obtain ⟨hlt, hpath⟩ := (h.labels.edge_iff hv).mp ⟨Graph.mem_getAdjVertices.mp hu, hkey⟩
    exact ⟨u, hlt, hpath, hprob.symm⟩
  · rintro ⟨u, hlt, hpath, rfl⟩
    obtain ⟨hedge, rfl⟩ := (h.labels.edge_iff hv).mpr ⟨hlt, hpath⟩
    exact ⟨u, Graph.mem_getAdjVertices.mpr hedge, rfl⟩

/-- A division at a vertex predicts, where visits and total are counts of words. -/
theorem divide_predicts {t : State} {ws : List (List KeyT)} (h : Represents t.ptGraph path T)
    (hv : v < t.ptGraph.vertices.length) (jitter : Nat → ℚ) {total : Nat} (htotal : total = (ws.countP fun p => path v <+: p : Nat))
    (hvisits : ∀ key ≠ backToRootLeafKey, ∀ m, T.visits (path v ++ [key]) = some m →
      m = ws.countP fun p => path v ++ [key] <+: p) :
    Predicts t jitter ws (path v) ((divide t.ptGraph jitter v total).filter (·.1 ≠ backToRootLeafKey)) := by
  intro key prob
  rw [List.mem_filter, mem_divide h hv jitter, decide_eq_true_eq, and_comm]
  refine and_congr_right fun hkey => exists_congr fun u => ?_
  rw [h.vertexAt_iff, and_assoc]
  refine and_congr_right fun hlt => and_congr_right fun hpath => ?_
  have hcount := hvisits key hkey _ (hpath ▸ h.visits u hlt)
  rw [baseProb, frequency, hcount, htotal]
  rfl

end Divide

/-! ## PPM -/

section Ppm
open PpmTree PpmBackoff
variable {t : State} {path : Nat → List KeyT} {T : Trie.State KeyT} {w : List KeyT} {k : Nat} {keys : List KeyT}

theorem not_met_back (hkeys : ∀ key ∈ keys, key ≠ backToRootLeafKey) : ¬ Met k keys (w ++ [backToRootLeafKey]) := by
  rintro ⟨x, hx, hpre⟩
  have hmem : backToRootLeafKey ∈ x := hpre.mem (by simp)
  exact hkeys _ ((infix_of_mem_windows hx).mem hmem) rfl

/-- Where no key comes next the context has not been met, and nothing has. -/
theorem no_windows (hkeys : ∀ key ∈ keys, key ≠ backToRootLeafKey)
    (honly : ∀ key, Met k keys (metContext k keys ++ [key]) → key = backToRootLeafKey) : windows k keys = [] := by
  have hlen := length_metContext_le k keys
  have hnot : ¬ Met k keys (metContext k keys) := by
    rintro ⟨x, hx, hpre⟩
    obtain ⟨key, hkey⟩ := met_concat_of_window hlen hx hpre
    have hback := honly key ⟨x, hx, hkey⟩
    exact not_met_back hkeys ⟨x, hx, hback ▸ hkey⟩
  by_contra hne
  obtain ⟨x, hx⟩ := List.exists_mem_of_ne_nil _ hne
  by_cases hzero : Nat.findGreatest (fun n => Met k keys ((lastKeys k keys).take n)) (lastKeys k keys).length = 0
  · refine hnot ⟨x, hx, ?_⟩
    rw [metContext, hzero]
    exact List.nil_prefix
  · exact hnot (Nat.findGreatest_of_ne_zero rfl hzero)

theorem predictWLz_ppm (h : At t path T (metContext k keys)) (hT : T.visits = prefixCounts (windows k keys))
    (hmalgo : t.malgoT = .ppm) (hkeys : ∀ key ∈ keys, key ≠ backToRootLeafKey) (jitter : Nat → ℚ) :
    Predicts t jitter (windows k keys) (metContext k keys) (predictWLz t jitter).1 := by
  have hvisits : ∀ w m, T.visits w = some m → m = (windows k keys).countP fun p => w <+: p := by
    intro w m hm
    rw [hT, prefixCounts] at hm
    split at hm
    · exact (Option.some.inj hm).symm
    · cases hm
  have htotal : curTotal t = ((windows k keys).countP fun p => metContext k keys <+: p : Nat) := by
    have hcur := h.visits _ h.cur_lt
    rw [h.cur] at hcur
    rw [curTotal, if_neg (fun hboth => hboth.2 hmalgo), ← hvisits _ _ hcur]
  have hmet := onlyBack_divide h.toRepresents h.cur_lt jitter (curTotal t)
  rw [h.cur] at hmet
  rw [predictWLz]
  dsimp only
  split
  next honly =>
    -- no window, no vertex but the root
    have hnone : windows k keys = [] := by
      refine no_windows hkeys fun key hkey => hmet.mp honly key ?_
      rwa [hT, ← met_iff (by simp)]
    have hempty : ∀ w key, T.visits (w ++ [key]) = none := by
      intro w key
      simp [hT, prefixCounts, hnone]
    intro key prob
    have hroot := h.labels.root
    rw [List.mem_filter, mem_divide h.toRepresents (hroot ▸ h.labels.nonempty)]
    refine iff_of_false ?_ ?_
    · rintro ⟨⟨u, hlt, hpath, -⟩, -⟩
      cases (hempty _ key).symm.trans (hpath ▸ h.visits u hlt)
    · rintro ⟨-, u, hu, -⟩
      obtain ⟨hlt, hpath⟩ := h.vertexAt_iff.mp hu
      cases (hempty _ key).symm.trans (hpath ▸ h.visits u hlt)
  next =>
    have hdivide := divide_predicts h.toRepresents h.cur_lt jitter (h.cur ▸ htotal)
      fun key _ m hm => hvisits _ m hm
    rwa [h.cur] at hdivide

/-- Counted without a bound, PPM gives each key its frequency after what has been met of the context. -/
theorem run_predicts (hk : 1 ≤ k) (calls : List Call) (hkeys : ∀ key ∈ accessed calls, key ≠ backToRootLeafKey)
    (jitter : Nat → ℚ) :
    let t : State := calls.foldl call (init .ppm k)
    Predicts t jitter (windows k (accessed calls)) (metContext k (accessed calls)) (predict t jitter).2.1 := by
  obtain ⟨⟨path, T, hat, hT⟩, hmalgo, -, hcontext⟩ := run_counts hk calls
  generalize calls.foldl call (init .ppm k) = t at hat hmalgo hcontext ⊢
  have hwalk := walkOn_context hat hT hcontext
  obtain ⟨v, hgraph⟩ := walkOn_false_graph t.context t
  have hmalgo' := (walkOn_rest false t.context t).malgoT.trans hmalgo
  have hpredicts := predictWLz_ppm hwalk hT hmalgo' hkeys jitter
  dsimp only
  rw [predict_ppm hmalgo]
  intro key prob
  rw [hpredicts key prob]
  refine and_congr_right fun _ => exists_congr fun u => and_congr_left fun _ => ?_
  rw [hwalk.vertexAt_iff, hat.vertexAt_iff, hgraph]
  rfl

/-- Whatever is accessed and predicted, PPM gives each key its frequency after what has been met of the context,
as long as the number of the windows fits an `int`. -/
theorem ppm_predicts_frequencies (hk : 1 ≤ k) (calls : List Call)
    (hkeys : ∀ key ∈ accessed calls, key ≠ backToRootLeafKey) (hlen : (accessed calls).length - k + 1 < 2 ^ 31)
    (jitter : Nat → ℚ) :
    let t : State Int32 := calls.foldl call (init .ppm k)
    Predicts t jitter (windows k (accessed calls)) (metContext k (accessed calls)) (predict t jitter).2.1 := by
  have hcounts := run_counts hk calls
  have hpredicts := run_predicts hk calls hkeys jitter
  have hfits := hcounts.fits hlen
  have hvisited : Visited (calls.foldl call (init .ppm k)) := fun hne => absurd hcounts.malgoT hne
  rw [run_toInt32]
  dsimp only
  rw [Prediction.predict_toInt32 hfits hvisited]
  intro key prob
  rw [vertexAt_toInt32]
  exact hpredicts key prob

/-- After 4 came once 9 and once 7. -/
theorem ppm_predicts_frequencies_four :
    let t : State Int32 := ([4, 9, 4, 7, 4].map Call.addAccess).foldl call (init .ppm 1)
    (predict t fun _ => 0).2.1 = [(9, 1 / 2), (7, 1 / 2)] ∧
      Predicts t (fun _ => 0) [[4, 9], [9, 4], [4, 7], [7, 4]] [4] (predict t fun _ => 0).2.1 :=
  ⟨by decide +kernel, ppm_predicts_frequencies (by decide) ([4, 9, 4, 7, 4].map Call.addAccess)
    (by simp [accessed, backToRootLeafKey]) (by simp [accessed]) fun _ => 0⟩

end Ppm

/-! ## LZ -/

section Lz
variable {t : State} {path : Nat → List KeyT} {T : Trie.State KeyT} {d : Lz78.Parse KeyT}

/-- Some phrase is longer than the partial phrase it begins with. -/
def GoesOn (d : Lz78.Parse KeyT) : Prop := ∃ p ∈ d.phrases, d.part <+: p ∧ p ≠ d.part

instance (d : Lz78.Parse KeyT) : Decidable (GoesOn d) := inferInstanceAs (Decidable (∃ p ∈ d.phrases, _ ∧ _))

theorem goesOn_iff (h : Lz78.Closed d) : GoesOn d ↔ ∃ key, d.part ++ [key] ∈ d.phrases := by
  constructor
  · rintro ⟨p, hp, ⟨s, rfl⟩, hne⟩
    cases s with
    | nil => exact absurd (List.append_nil _) hne
    | cons key s => exact ⟨key, h.prefixes _ hp _ ⟨s, by simp⟩ (by simp)⟩
  · rintro ⟨key, hp⟩
    exact ⟨_, hp, List.prefix_append _ _, by simp⟩

/-- A trie has the phrases, counted by the phrases that begin with them, and no other words of keys. -/
structure CountsPhrases (f : List KeyT → Option Nat) (d : Lz78.Parse KeyT) : Prop where
  nil : f [] = some d.phrases.length
  phrase : ∀ w ∈ d.phrases, f w = some (Lz78.count d w)
  concat : ∀ w key, key ≠ backToRootLeafKey → ∀ m, f (w ++ [key]) = some m →
    w ++ [key] ∈ d.phrases ∧ m = Lz78.count d (w ++ [key])

theorem lz_countsPhrases (h : LzTree.Plain d) : CountsPhrases (LzTree.dictionary d) d where
  nil := if_pos rfl
  phrase w hw := LzTree.dictionary_phrase h hw
  concat w key hkey m hm := by
    rw [LzTree.dictionary, if_neg (by simp)] at hm
    split at hm
    next hmem => exact ⟨hmem, (Option.some.inj hm).symm⟩
    next =>
      split at hm
      next hback =>
        obtain ⟨p, -, hp⟩ := hback
        exact absurd (List.cons.inj (List.append_inj' hp rfl).2).1 hkey
      next => cases hm

theorem alz_countsPhrases (h : LzTree.Plain d) : CountsPhrases (AlzTree.dictionary d) d where
  nil := if_pos rfl
  phrase w hw := AlzTree.dictionary_phrase h hw
  concat w key hkey m hm := by
    rw [AlzTree.dictionary_concat d w hkey] at hm
    split at hm
    next hmem => exact ⟨hmem, (Option.some.inj hm).symm⟩
    next => cases hm

theorem count_part (d : Lz78.Parse KeyT) : Lz78.count d d.part = d.phrases.countP (fun p => d.part <+: p) + 1 := by
  simp [Lz78.count, List.countP_append]

theorem count_longer (d : Lz78.Parse KeyT) (key : KeyT) :
    Lz78.count d (d.part ++ [key]) = d.phrases.countP fun p => d.part ++ [key] <+: p := by
  have hlonger : ¬ d.part ++ [key] <+: d.part := fun hp => absurd hp.length_le (by simp)
  simp [Lz78.count, List.countP_append, hlonger]

/-- The prediction of LZ: on from the partial phrase, or from the root. -/
structure PredictsPhrases (t : State) (jitter : Nat → ℚ) (d : Lz78.Parse KeyT) (m : KeyProbMap) : Prop where
  goesOn : GoesOn d → Predicts t jitter d.phrases d.part m
  again : ¬ GoesOn d → Predicts t jitter (d.phrases ++ [d.part]) [] m

theorem predictWLz_phrases (hat : At t path T d.part) (hplain : LzTree.Plain d) (hT : CountsPhrases T.visits d)
    (hmalgo : t.malgoT ≠ .ppm) (jitter : Nat → ℚ) : PredictsPhrases t jitter d (predictWLz t jitter).1 := by
  have hvisits := hat.visits _ hat.cur_lt
  rw [hat.cur] at hvisits
  have htotal : curTotal t = (d.phrases.countP fun p => d.part <+: p : Nat) := by
    have hroot := hat.status _ hat.cur_lt
    rcases hplain.part with hnil | hphrase
    · have hzero : t.ptGraph.cur = 0 :=
        hat.labels.inj _ _ hat.cur_lt hat.labels.nonempty (by rw [hat.cur, hnil, hat.labels.path_root])
      rw [hnil, hT.nil, Option.some.injEq] at hvisits
      rw [curTotal, if_neg (fun hboth => hboth.1 (hroot.mpr hzero)), ← hvisits, hnil]
      simp
    · have hzero : t.ptGraph.cur ≠ 0 := by
        intro hzero
        refine hplain.ne_nil _ hphrase ?_
        rw [← hat.cur, hzero, hat.labels.path_root]
      rw [hT.phrase _ hphrase, Option.some.injEq, count_part] at hvisits
      rw [curTotal, if_pos ⟨fun hstatus => hzero (hroot.mp hstatus), hmalgo⟩, ← hvisits, Nat.add_sub_cancel]
  have hmet := onlyBack_divide hat.toRepresents hat.cur_lt jitter (curTotal t)
  rw [hat.cur] at hmet
  have honly : onlyBack (divide t.ptGraph jitter t.ptGraph.cur (curTotal t)) = true ↔ ¬ GoesOn d := by
    rw [hmet, goesOn_iff hplain.toClosed]
    constructor
    · rintro hback ⟨key, hmem⟩
      have hkey := hback key (by simp [hT.phrase _ hmem])
      exact hplain.no_back _ hmem d.part (by rw [hkey])
    · intro hnone key hne
      by_contra hkey
      obtain ⟨m, hm⟩ := Option.ne_none_iff_exists'.mp hne
      exact hnone ⟨key, (hT.concat _ key hkey m hm).1⟩
  rw [predictWLz]
  dsimp only
  split
  next hback =>
    refine ⟨fun hon => absurd hon (honly.mp hback), fun _ => ?_⟩
    have hroot : path t.ptGraph.root = [] := by rw [hat.labels.root, hat.labels.path_root]
    have hroot_lt : t.ptGraph.root < t.ptGraph.vertices.length := hat.labels.root ▸ hat.labels.nonempty
    have hlength := hat.visits _ hroot_lt
    rw [hroot, hT.nil, Option.some.injEq] at hlength
    have hall : rootTotal t = (d.phrases ++ [d.part]).countP fun p => path t.ptGraph.root <+: p := by
      simp [rootTotal, hroot, ← hlength]
    have hdivide := divide_predicts hat.toRepresents hroot_lt jitter hall
      fun key hkey m hm => by
        rw [hroot] at hm ⊢
        exact (hT.concat _ key hkey m hm).2
    rwa [hroot] at hdivide
  next hback =>
    refine ⟨fun _ => ?_, fun hnot => absurd (honly.mpr hnot) hback⟩
    have hdivide := divide_predicts hat.toRepresents hat.cur_lt jitter (hat.cur ▸ htotal)
      fun key hkey m hm => by
        rw [hat.cur] at hm ⊢
        rw [← count_longer]
        exact (hT.concat _ key hkey m hm).2
    rwa [hat.cur] at hdivide

theorem run_follows (contextSize : Nat) (calls : List Call) (hkeys : ∀ key ∈ accessed calls, key ≠ backToRootLeafKey) :
    LzTree.Follows (calls.foldl call (init .lz contextSize)) (Lz78.parse (accessed calls)) ∧
      (calls.foldl call (init .lz contextSize)).malgoT = .lz := by
  induction calls using List.reverseRecOn with
  | nil => exact ⟨LzTree.init_follows .lz contextSize, rfl⟩
  | append_singleton calls c ih =>
    have happend : accessed (calls ++ [c]) = accessed calls ++ accessed [c] := List.filterMap_append
    rw [happend] at hkeys ⊢
    obtain ⟨hfollows, hmalgo⟩ := ih fun key hkey => hkeys key (List.mem_append_left _ hkey)
    have hparse : Lz78.parse (accessed calls ++ accessed [c]) =
        (accessed [c]).foldl Lz78.step (Lz78.parse (accessed calls)) := List.foldl_append
    rw [List.foldl_append, hparse]
    refine ⟨?_, (call_malgoT _ _).trans hmalgo⟩
    cases c with
    | addAccess key =>
      simp only [List.foldl_cons, List.foldl_nil, call, addAccess, hmalgo]
      exact LzTree.addAccessWLz_follows hfollows (hkeys key (List.mem_append_right _ List.mem_cons_self))
    | predict jitter =>
      simp only [List.foldl_cons, List.foldl_nil, call, predict, hmalgo]
      exact hfollows

end Lz

end Frequencies
