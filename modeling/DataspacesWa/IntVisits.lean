import DataspacesWa.ParseTree

/-!
# Visits counted in an `int`

`num_visit` is an `int`. The tree that counts without a bound, with each of its
counts read as an `int`, is the tree of the source: every call makes the same
of both. As long as the counts fit, a prediction is the same as well.
-/
namespace IntVisits

open Graph (properties getAdjVertices mapProps)
open ParseTree

/-- An `int` that has been counted up to `n`: it is `n` as long as that fits. -/
def Counted (i : Int32) (n : Nat) : Prop := i = Int32.ofNat n ∧ (n < 2 ^ 31 → i.toInt = n)

theorem counted_ofNat (n : Nat) : Counted (Int32.ofNat n) n := ⟨rfl, Int32.toInt_ofNat_of_lt⟩

theorem ofNat_succ (n : Nat) : Int32.ofNat n + 1 = Int32.ofNat (n + 1) := by
  apply Int32.toBitVec.inj
  simp

theorem ofNat_pred {n : Nat} (h : 1 ≤ n) : Int32.ofNat n - 1 = Int32.ofNat (n - 1) := by
  obtain ⟨m, rfl⟩ := Nat.exists_eq_add_of_le' h
  rw [Nat.add_sub_cancel, ← ofNat_succ]
  apply Int32.toBitVec.inj
  simp

/-! ## The tree -/

def VertexProperties.toInt32 (prop : VertexProperties) : VertexProperties Int32 :=
  ⟨prop.key, Int32.ofNat prop.numVisit, prop.status, prop.level⟩

def State.toInt32 (t : State) : State Int32 :=
  ⟨t.malgoT, t.contextSize, mapProps VertexProperties.toInt32 t.ptGraph, t.context, t.slidingWin, t.longestPhraseLength⟩

section Tree
variable (t : State) (key : KeyT) (v : Nat)

theorem properties_toInt32 (g : Graph.State VertexProperties) :
    properties (mapProps VertexProperties.toInt32 g) v = VertexProperties.toInt32 (properties g v) :=
  Graph.properties_mapProps _ g rfl v

section Fields
variable (g : Graph.State VertexProperties)

theorem key_toInt32 : (properties (mapProps VertexProperties.toInt32 g) v).key = (properties g v).key :=
  congrArg VertexProperties.key (properties_toInt32 v g)

theorem numVisit_toInt32 :
    (properties (mapProps VertexProperties.toInt32 g) v).numVisit = Int32.ofNat (properties g v).numVisit :=
  congrArg VertexProperties.numVisit (properties_toInt32 v g)

theorem status_toInt32 : (properties (mapProps VertexProperties.toInt32 g) v).status = (properties g v).status :=
  congrArg VertexProperties.status (properties_toInt32 v g)

theorem level_toInt32 : (properties (mapProps VertexProperties.toInt32 g) v).level = (properties g v).level :=
  congrArg VertexProperties.level (properties_toInt32 v g)

end Fields

theorem doesVertexHaveKeyInAdjs_toInt32 :
    doesVertexHaveKeyInAdjs (State.toInt32 t) v key = doesVertexHaveKeyInAdjs t v key :=
  Graph.adjWithKey_mapProps _ t.ptGraph rfl (fun _ => rfl) v key

theorem incNumVisit_toInt32 (prop : VertexProperties) :
    incNumVisit (VertexProperties.toInt32 prop) = VertexProperties.toInt32 (incNumVisit prop) := by
  simp only [incNumVisit, VertexProperties.toInt32, ofNat_succ]

theorem moveCur_toInt32 (inc : Bool) : moveCur inc v (State.toInt32 t) = State.toInt32 (moveCur inc v t) := by
  cases inc with
  | false => rfl
  | true =>
    have hmodify := Graph.mapProps_modify (Graph.setCur t.ptGraph v)
      (fun prop => (incNumVisit_toInt32 prop).symm) v
    simp only [moveCur, if_true, State.toInt32]
    rw [← hmodify]
    rfl

theorem setNormal_toInt32 (g : Graph.State VertexProperties) :
    setNormal (mapProps VertexProperties.toInt32 g) v = mapProps VertexProperties.toInt32 (setNormal g v) := by
  rw [setNormal, setNormal, properties_toInt32]
  by_cases hleaf : (properties g v).status = .leaf
  · rw [if_pos hleaf, if_pos (show (VertexProperties.toInt32 _).status = .leaf from hleaf)]
    exact Graph.mapProps_modify g (f := VertexProperties.toInt32) (a := fun prop => { prop with status := .normal })
      (b := fun prop => { prop with status := .normal }) (fun _ => rfl) v
  · rw [if_neg hleaf, if_neg (show ¬ (VertexProperties.toInt32 _).status = .leaf from hleaf)]

theorem createConnectLeaf_toInt32 : createConnectLeaf (State.toInt32 t) v key =
    (State.toInt32 (createConnectLeaf t v key).1, (createConnectLeaf t v key).2) := by
  have hlevel : (properties (State.toInt32 t).ptGraph v).level = (properties t.ptGraph v).level := level_toInt32 v _
  have hhang := Graph.mapProps_hang VertexProperties.toInt32 (setNormal t.ptGraph v) v
    ⟨key, 1, .leaf, (properties t.ptGraph v).level + 1⟩
  rw [← setNormal_toInt32] at hhang
  simp only [createConnectLeaf, hlevel]
  have hgraph : Graph.hang (setNormal (State.toInt32 t).ptGraph v) v
      ⟨key, 1, .leaf, (properties t.ptGraph v).level + 1⟩ = _ := hhang
  rw [hgraph]
  rfl

theorem addAccessWLz_toInt32 : addAccessWLz (State.toInt32 t) key = State.toInt32 (addAccessWLz t key) := by
  have hcur : (State.toInt32 t).ptGraph.cur = t.ptGraph.cur := rfl
  simp only [addAccessWLz, hcur, doesVertexHaveKeyInAdjs_toInt32]
  cases doesVertexHaveKeyInAdjs t t.ptGraph.cur key with
  | some leafToGo => exact moveCur_toInt32 t leafToGo true
  | none =>
    have hleaf := createConnectLeaf_toInt32 t key t.ptGraph.cur
    generalize createConnectLeaf t t.ptGraph.cur key = r at hleaf ⊢
    rw [hleaf]
    dsimp only
    rw [doesVertexHaveKeyInAdjs_toInt32]
    cases doesVertexHaveKeyInAdjs r.1 r.2 backToRootLeafKey with
    | some _ => exact moveCur_toInt32 r.1 r.1.ptGraph.root true
    | none =>
      have hback := createConnectLeaf_toInt32 r.1 backToRootLeafKey r.2
      dsimp only
      generalize createConnectLeaf r.1 r.2 backToRootLeafKey = q at hback ⊢
      rw [hback]
      exact moveCur_toInt32 q.1 q.1.ptGraph.root true

theorem goDownOrCreate_toInt32 : goDownOrCreate (State.toInt32 t) key = State.toInt32 (goDownOrCreate t key) := by
  have hcur : (State.toInt32 t).ptGraph.cur = t.ptGraph.cur := rfl
  simp only [goDownOrCreate, hcur, doesVertexHaveKeyInAdjs_toInt32]
  cases doesVertexHaveKeyInAdjs t t.ptGraph.cur key with
  | some leafToGo => exact moveCur_toInt32 t leafToGo true
  | none =>
    simp only [createConnectLeaf_toInt32]
    exact moveCur_toInt32 _ _ false

theorem foldl_goDownOrCreate_toInt32 (keys : List KeyT) :
    keys.foldl goDownOrCreate (State.toInt32 t) = State.toInt32 (keys.foldl goDownOrCreate t) := by
  induction keys generalizing t with
  | nil => rfl
  | cons key keys ih => rw [List.foldl_cons, List.foldl_cons, goDownOrCreate_toInt32, ih]

theorem addAccessWAlz_toInt32 : addAccessWAlz (State.toInt32 t) key = State.toInt32 (addAccessWAlz t key) := by
  simp only [addAccessWAlz, addAccessWLz_toInt32]
  generalize addAccessWLz t key = t₁
  have hstatus : (properties (State.toInt32 t₁).ptGraph t₁.ptGraph.cur).status =
      (properties t₁.ptGraph t₁.ptGraph.cur).status := status_toInt32 _ _
  by_cases hextra : 1 < t₁.longestPhraseLength ∧ (properties t₁.ptGraph t₁.ptGraph.cur).status = .root
  · have hextra' : 1 < (State.toInt32 t₁).longestPhraseLength ∧
        (properties (State.toInt32 t₁).ptGraph (State.toInt32 t₁).ptGraph.cur).status = .root := hextra.imp id hstatus.trans
    rw [if_pos hextra, if_pos hextra']
    have hslide : ({ State.toInt32 t₁ with slidingWin := slide t₁.slidingWin key } : State Int32) =
        State.toInt32 { t₁ with slidingWin := slide t₁.slidingWin key } := rfl
    show moveCur false _ (goDownOrCreate (List.foldl goDownOrCreate (moveCur true _
      { State.toInt32 t₁ with slidingWin := slide t₁.slidingWin key }) _) _) = _
    rw [hslide, moveCur_toInt32, foldl_goDownOrCreate_toInt32, goDownOrCreate_toInt32, moveCur_toInt32]
    rfl
  · have hextra' : ¬ (1 < (State.toInt32 t₁).longestPhraseLength ∧
        (properties (State.toInt32 t₁).ptGraph (State.toInt32 t₁).ptGraph.cur).status = .root) :=
      fun h => hextra (h.imp id hstatus.symm.trans)
    rw [if_neg hextra, if_neg hextra']
    rfl

theorem walkOn_toInt32 (inc : Bool) (keys : List KeyT) :
    walkOn inc keys (State.toInt32 t) = (State.toInt32 (walkOn inc keys t).1, (walkOn inc keys t).2) := by
  induction keys generalizing t with
  | nil => rfl
  | cons key keys ih =>
    have hcur : (State.toInt32 t).ptGraph.cur = t.ptGraph.cur := rfl
    simp only [walkOn, hcur, doesVertexHaveKeyInAdjs_toInt32]
    cases doesVertexHaveKeyInAdjs t t.ptGraph.cur key with
    | none => rfl
    | some leafToGo => simp only [moveCur_toInt32, ih]

theorem createOn_toInt32 (keys : List KeyT) : createOn keys (State.toInt32 t) = State.toInt32 (createOn keys t) := by
  induction keys generalizing t with
  | nil => rfl
  | cons key keys ih =>
    have hlevel : (properties (State.toInt32 t).ptGraph t.ptGraph.cur).level = (properties t.ptGraph t.ptGraph.cur).level :=
      level_toInt32 _ _
    have hhang := Graph.mapProps_hang VertexProperties.toInt32 t.ptGraph t.ptGraph.cur
      ⟨key, 0, if keys = [] then .leaf else .normal, (properties t.ptGraph t.ptGraph.cur).level + 1⟩
    simp only [createOn]
    rw [← ih, ← moveCur_toInt32]
    have hcur : (State.toInt32 t).ptGraph.cur = t.ptGraph.cur := rfl
    rw [hcur, hlevel]
    have hgraph : Graph.hang (State.toInt32 t).ptGraph t.ptGraph.cur
        ⟨key, 0, if keys = [] then .leaf else .normal, (properties t.ptGraph t.ptGraph.cur).level + 1⟩ = _ := hhang
    rw [hgraph]
    rfl

theorem encodeAccess_toInt32 : encodeAccess (State.toInt32 t) key = State.toInt32 (encodeAccess t key) := by
  have hcur : (State.toInt32 t).ptGraph.cur = t.ptGraph.cur := rfl
  simp only [encodeAccess, hcur, doesVertexHaveKeyInAdjs_toInt32]
  cases doesVertexHaveKeyInAdjs t t.ptGraph.cur key with
  | some leafToGo => exact moveCur_toInt32 t leafToGo true
  | none => exact congrArg Prod.fst (createConnectLeaf_toInt32 t key _)

theorem addAccessWPpm_toInt32 : addAccessWPpm (State.toInt32 t) key = State.toInt32 (addAccessWPpm t key) := by
  have hcontext : (State.toInt32 t).context = t.context := rfl
  have hsize : (State.toInt32 t).contextSize = t.contextSize := rfl
  simp only [addAccessWPpm, hcontext, hsize]
  by_cases hfull : t.context.length = t.contextSize
  · rw [if_pos hfull, if_pos hfull]
    simp only [moveCurOnContext, hcontext, walkOn_toInt32]
    generalize walkOn true t.context t = r
    have hcreate : createMoveCurOnContext (State.toInt32 r.1) r.2 = State.toInt32 (createMoveCurOnContext r.1 r.2) :=
      createOn_toInt32 r.1 _
    rw [hcreate, encodeAccess_toInt32]
    generalize encodeAccess (createMoveCurOnContext r.1 r.2) key = u
    have hhome := moveCur_toInt32 u u.ptGraph.root true
    rw [show (State.toInt32 u).ptGraph.root = u.ptGraph.root from rfl, hhome]
    rfl
  · rw [if_neg hfull, if_neg hfull]
    rfl

theorem addAccess_toInt32 : addAccess (State.toInt32 t) key = State.toInt32 (addAccess t key) := by
  have hmalgo : (State.toInt32 t).malgoT = t.malgoT := rfl
  simp only [addAccess, hmalgo]
  cases t.malgoT with
  | lz => exact addAccessWLz_toInt32 t key
  | alz => exact addAccessWAlz_toInt32 t key
  | ppm => exact addAccessWPpm_toInt32 t key

theorem call_toInt32 (c : Call) : call (State.toInt32 t) c = State.toInt32 (call t c) := by
  cases c with
  | addAccess key => exact addAccess_toInt32 t key
  | predict jitter =>
    have hmalgo : (State.toInt32 t).malgoT = t.malgoT := rfl
    simp only [call, predict, hmalgo]
    cases t.malgoT with
    | lz | alz => rfl
    | ppm =>
      have hcontext : (State.toInt32 t).context = t.context := rfl
      simp only [predictWPpm, moveCurOnContext, hcontext, walkOn_toInt32]
      exact moveCur_toInt32 _ _ false

/-- Every run counts in an `int` what it would count without a bound. -/
theorem run_toInt32 (malgoT : MalgoT) (contextSize : Nat) (calls : List Call) :
    calls.foldl call (init malgoT contextSize) = State.toInt32 (calls.foldl call (init malgoT contextSize)) := by
  induction calls using List.reverseRecOn with
  | nil => rfl
  | append_singleton calls c ih =>
    rw [List.foldl_append, List.foldl_append, ih]
    exact call_toInt32 _ c

end Tree

/-! ## Predictions -/

/-- No count has overflowed, and the total of the fall-back does not. -/
def Fits (g : Graph.State VertexProperties) : Prop :=
  (∀ prop ∈ g.vertices, prop.numVisit < 2 ^ 31) ∧ (properties g g.root).numVisit + 1 < 2 ^ 31

instance (g : Graph.State VertexProperties) : Decidable (Fits g) := inferInstanceAs (Decidable (_ ∧ _))

def Loop.toInt32 (l : Loop) : Loop Int32 := ⟨l.v, Int32.ofNat l.total, l.map⟩

section Predict
variable {t : State} {g : Graph.State VertexProperties} {total : Nat} {u v : Nat}

theorem Fits.lt (h : Fits g) (v : Nat) : (properties g v).numVisit < 2 ^ 31 := by
  rw [properties, List.getD_eq_getElem?_getD]
  cases hv : g.vertices[v]? with
  | none => exact Nat.two_pow_pos 31
  | some prop => exact h.1 prop (List.mem_of_getElem? hv)

theorem toInt_ofNat {n : Nat} (h : n < 2 ^ 31) : Visits.toInt (Int32.ofNat n) = Visits.toInt n :=
  Int32.toInt_ofNat_of_lt h

theorem baseProb_toInt32 (hfits : Fits g) (htotal : total < 2 ^ 31) (u : Nat) :
    baseProb (mapProps VertexProperties.toInt32 g) (Int32.ofNat total) u = baseProb g total u := by
  rw [baseProb, baseProb, numVisit_toInt32, toInt_ofNat htotal, toInt_ofNat (hfits.lt u)]

theorem divide_toInt32 (hfits : Fits g) (htotal : total < 2 ^ 31) (jitter : Nat → ℚ) (v : Nat) :
    divide (mapProps VertexProperties.toInt32 g) jitter v (Int32.ofNat total) = divide g jitter v total := by
  simp only [divide, key_toInt32, baseProb_toInt32 hfits htotal]
  rfl

/-- One visit can be taken off a vertex below the root. -/
def Visited (t : State) : Prop :=
  t.malgoT ≠ .ppm → (properties t.ptGraph t.ptGraph.cur).status ≠ .root →
    0 < (properties t.ptGraph t.ptGraph.cur).numVisit

theorem curTotal_toInt32 (h : Visited t) : curTotal (State.toInt32 t) = Int32.ofNat (curTotal t) := by
  have hcur : properties (State.toInt32 t).ptGraph (State.toInt32 t).ptGraph.cur =
      VertexProperties.toInt32 (properties t.ptGraph t.ptGraph.cur) := properties_toInt32 _ _
  have hmalgo : (State.toInt32 t).malgoT = t.malgoT := rfl
  simp only [curTotal, hcur, hmalgo]
  by_cases hless : (properties t.ptGraph t.ptGraph.cur).status ≠ .root ∧ t.malgoT ≠ .ppm
  · rw [if_pos hless]
    exact (if_pos hless).trans (ofNat_pred (h hless.2 hless.1))
  · rw [if_neg hless]
    exact if_neg hless

theorem curTotal_le (t : State) : curTotal t ≤ (properties t.ptGraph t.ptGraph.cur).numVisit := by
  rw [curTotal]
  split
  · exact Nat.sub_le _ _
  · exact Nat.le_refl _

theorem rootTotal_toInt32 (t : State) : rootTotal (State.toInt32 t) = Int32.ofNat (rootTotal t) := by
  have hroot : properties (State.toInt32 t).ptGraph (State.toInt32 t).ptGraph.root =
      VertexProperties.toInt32 (properties t.ptGraph t.ptGraph.root) := properties_toInt32 _ _
  rw [rootTotal, rootTotal, hroot]
  exact ofNat_succ _

/-- A prediction divides by nothing that does not fit. -/
theorem predictWLz_total_lt (hfits : Fits t.ptGraph) (jitter : Nat → ℚ) {l : Loop} (hl : l ∈ (predictWLz t jitter).2) :
    l.total < 2 ^ 31 := by
  have hcur : curTotal t < 2 ^ 31 := Nat.lt_of_le_of_lt (curTotal_le t) (hfits.lt _)
  simp only [predictWLz] at hl
  split at hl
  · rcases List.mem_cons.mp hl with rfl | hl
    · exact hcur
    · obtain rfl := List.mem_singleton.mp hl
      exact hfits.2
  · obtain rfl := List.mem_singleton.mp hl
    exact hcur

theorem predictWLz_toInt32 (hfits : Fits t.ptGraph) (hvisited : Visited t) (jitter : Nat → ℚ) :
    predictWLz (State.toInt32 t) jitter =
      ((predictWLz t jitter).1, (predictWLz t jitter).2.map Loop.toInt32) := by
  have hcur : divide (State.toInt32 t).ptGraph jitter (State.toInt32 t).ptGraph.cur (curTotal (State.toInt32 t)) =
      divide t.ptGraph jitter t.ptGraph.cur (curTotal t) := by
    rw [curTotal_toInt32 hvisited]
    exact divide_toInt32 hfits (Nat.lt_of_le_of_lt (curTotal_le t) (hfits.lt _)) jitter _
  have hroot : divide (State.toInt32 t).ptGraph jitter (State.toInt32 t).ptGraph.root (rootTotal (State.toInt32 t)) =
      divide t.ptGraph jitter t.ptGraph.root (rootTotal t) := by
    rw [rootTotal_toInt32]
    exact divide_toInt32 hfits hfits.2 jitter _
  simp only [predictWLz, hcur, hroot]
  split
  · rw [curTotal_toInt32 hvisited, rootTotal_toInt32]
    rfl
  · rw [curTotal_toInt32 hvisited]
    rfl

end Predict

end IntVisits
