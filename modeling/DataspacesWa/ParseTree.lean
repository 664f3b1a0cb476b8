import DataspacesWa.Graph

/-!
# Parse trees of the access predictors

`ParseTree`: a tree of access keys with a cursor, grown by the LZ, the ALZ and
the PPM algorithm, and the prediction that divides the visits of the children
of a vertex by a total. The type of `num_visit` is an argument: the `int` of the
source, or the natural numbers for what is counted without a bound. A
probability is a rational; the random jitter of a prediction is an argument.
-/
namespace ParseTree

open Graph (properties)

/-- `KEY_T`. -/
abbrev KeyT := Int32

def parseTreeRootKey : KeyT := -2
def backToRootLeafKey : KeyT := -1

/-- The algorithms that keep the tree; the Poisson predictor does not. -/
inductive MalgoT where
  | lz | alz | ppm
  deriving DecidableEq, Repr

/-- `status`: `'R'`, `'N'` and `'L'`. -/
inductive Status where
  | root | normal | leaf
  deriving DecidableEq, Repr, Inhabited

/-- `num_visit` as a number. -/
class Visits (ν : Type) where
  toInt : ν → Int

instance : Visits Nat := ⟨Int.ofNat⟩

instance : Visits Int32 := ⟨Int32.toInt⟩

structure VertexProperties (ν : Type := Nat) where
  key : KeyT
  numVisit : ν
  status : Status
  level : Nat
  deriving DecidableEq, Repr, Inhabited

structure State (ν : Type := Nat) where
  malgoT : MalgoT
  contextSize : Nat
  ptGraph : Graph.State (VertexProperties ν)
  context : List KeyT
  slidingWin : List KeyT
  longestPhraseLength : Nat

section Tree
variable {ν : Type} [Inhabited ν] [OfNat ν 0] [OfNat ν 1] [Add ν] [Sub ν] [Visits ν]

def rootProp : VertexProperties ν := ⟨parseTreeRootKey, 0, .root, 0⟩

def init (malgoT : MalgoT) (contextSize : Nat) : State ν where
  malgoT := malgoT
  contextSize := contextSize
  ptGraph := (Graph.addVertex Graph.empty rootProp).1
  context := []
  slidingWin := []
  longestPhraseLength := 0

/-- `does_vertex_have_key_in_adjs`. The source walks the neighbours in the order of their
addresses, here they stand in the order of their creation: no two have one key. -/
def doesVertexHaveKeyInAdjs (t : State ν) (v : Nat) (key : KeyT) : Option Nat :=
  Graph.adjWithKey VertexProperties.key t.ptGraph v key

def incNumVisit (prop : VertexProperties ν) : VertexProperties ν := { prop with numVisit := prop.numVisit + 1 }

def moveCur (inc : Bool) (v : Nat) (t : State ν) : State ν :=
  let g := Graph.setCur t.ptGraph v
  { t with ptGraph := if inc then Graph.modify g v incNumVisit else g }

/-- A leaf that gets a child is normal from then on. -/
def setNormal (g : Graph.State (VertexProperties ν)) (v : Nat) : Graph.State (VertexProperties ν) :=
  if (properties g v).status = .leaf then Graph.modify g v fun prop => { prop with status := .normal } else g

/-- `create__connect_leaf` -/
def createConnectLeaf (t : State ν) (v : Nat) (leafKey : KeyT) : State ν × Nat :=
  let level := (properties t.ptGraph v).level + 1
  let longest := if leafKey ≠ backToRootLeafKey ∧ t.longestPhraseLength < level then level
    else t.longestPhraseLength
  let (g, leaf) := Graph.hang (setNormal t.ptGraph v) v ⟨leafKey, 1, .leaf, level⟩
  ({ t with ptGraph := g, longestPhraseLength := longest }, leaf)

/-! ## LZ and ALZ -/

def addAccessWLz (t : State ν) (key : KeyT) : State ν :=
  let curV := t.ptGraph.cur
  match doesVertexHaveKeyInAdjs t curV key with
  | some leafToGo => moveCur true leafToGo t
  | none =>
    let (t, leaf) := createConnectLeaf t curV key
    let t := match doesVertexHaveKeyInAdjs t leaf backToRootLeafKey with
      | some _ => t
      | none => (createConnectLeaf t leaf backToRootLeafKey).1
    moveCur true t.ptGraph.root t

/-- One round of the walk that `add_access_w_alz` makes along its window. -/
def goDownOrCreate (t : State ν) (key : KeyT) : State ν :=
  match doesVertexHaveKeyInAdjs t t.ptGraph.cur key with
  | some leafToGo => moveCur true leafToGo t
  | none =>
    let (t, leaf) := createConnectLeaf t t.ptGraph.cur key
    moveCur false leaf t

/-- The window holds the last key alone. -/
def slide (slidingWin : List KeyT) (key : KeyT) : List KeyT :=
  if slidingWin.length < 1 then slidingWin ++ [key] else slidingWin.tail ++ [key]

def addAccessWAlz (t : State ν) (key : KeyT) : State ν :=
  let t := addAccessWLz t key
  let curV := t.ptGraph.cur
  let t := { t with slidingWin := slide t.slidingWin key }
  let t := if 1 < t.longestPhraseLength ∧ (properties t.ptGraph curV).status = .root then
      let t := moveCur true t.ptGraph.root t
      goDownOrCreate (t.slidingWin.foldl goDownOrCreate t) backToRootLeafKey
    else t
  moveCur false curV t

/-! ## PPM -/

/-- The loop of `move_cur_on_context`, with how far it came. -/
def walkOn (inc : Bool) : List KeyT → State ν → State ν × Nat
  | [], t => (t, 0)
  | key :: keys, t =>
    match doesVertexHaveKeyInAdjs t t.ptGraph.cur key with
    | some leafToGo =>
      let (t, walked) := walkOn inc keys (moveCur inc leafToGo t)
      (t, walked + 1)
    | none => (t, 0)

def moveCurOnContext (inc : Bool) (t : State ν) : State ν × Nat := walkOn inc t.context t

/-- The loop of `create__move_cur_on_context`. -/
def createOn : List KeyT → State ν → State ν
  | [], t => t
  | key :: keys, t =>
    let curV := t.ptGraph.cur
    let status := if keys = [] then Status.leaf else .normal
    let (g, leaf) := Graph.hang t.ptGraph curV ⟨key, 0, status, (properties t.ptGraph curV).level + 1⟩
    createOn keys (moveCur true leaf { t with ptGraph := g })

def createMoveCurOnContext (t : State ν) (walked : Nat) : State ν := createOn (t.context.drop walked) t

/-- The last step of the walk: down to the key, or a leaf for it. -/
def encodeAccess (t : State ν) (key : KeyT) : State ν :=
  match doesVertexHaveKeyInAdjs t t.ptGraph.cur key with
  | some leafToGo => moveCur true leafToGo t
  | none => (createConnectLeaf t t.ptGraph.cur key).1

def addAccessWPpm (t : State ν) (key : KeyT) : State ν :=
  if t.context.length = t.contextSize then
    let (t, walked) := moveCurOnContext true t
    let t := encodeAccess (createMoveCurOnContext t walked) key
    let t := moveCur true t.ptGraph.root t
    { t with context := t.context.tail ++ [key] }
  else { t with context := t.context ++ [key] }

def addAccess (t : State ν) (key : KeyT) : State ν :=
  match t.malgoT with
  | .lz => addAccessWLz t key
  | .alz => addAccessWAlz t key
  | .ppm => addAccessWPpm t key

/-! ## Predictions -/

abbrev KeyProbMap := List (KeyT × ℚ)

/-- `key_prob_map[key] = prob` -/
def setProb (m : KeyProbMap) (key : KeyT) (prob : ℚ) : KeyProbMap := m.filter (·.1 ≠ key) ++ [(key, prob)]

/-- The probability of a child, before the jitter. -/
def baseProb (g : Graph.State (VertexProperties ν)) (total : ν) (u : Nat) : ℚ :=
  Visits.toInt (properties g u).numVisit / Visits.toInt total

/-- The division loop, by `total` over the children of `v`. -/
def divide (g : Graph.State (VertexProperties ν)) (jitter : Nat → ℚ) (v : Nat) (total : ν) : KeyProbMap :=
  (Graph.getAdjVertices g v).foldl
    (fun m u => setProb m (properties g u).key (baseProb g total u + jitter u)) []

/-- A division loop that was made: at a vertex, by a total, and the map that it left. -/
structure Loop (ν : Type := Nat) where
  v : Nat
  total : ν
  map : KeyProbMap

/-- There is nothing below the cursor, or the way back to the root only. -/
def onlyBack : KeyProbMap → Bool
  | [] => true
  | [(key, _)] => key = backToRootLeafKey
  | _ => false

/-- The total on the main path. -/
def curTotal (t : State ν) : ν :=
  let cur := properties t.ptGraph t.ptGraph.cur
  if cur.status ≠ .root ∧ t.malgoT ≠ .ppm then cur.numVisit - 1 else cur.numVisit

/-- The total where the prediction falls back to the root. -/
def rootTotal (t : State ν) : ν := (properties t.ptGraph t.ptGraph.root).numVisit + 1

/-- `get_key_prob_map_for_prefetch_w_lz`, with the division loops it makes. -/
def predictWLz (t : State ν) (jitter : Nat → ℚ) : KeyProbMap × List (Loop ν) :=
  let g := t.ptGraph
  let m := divide g jitter g.cur (curTotal t)
  let (m, loops) := if onlyBack m then
      let root := divide g jitter g.root (rootTotal t)
      (root, [⟨g.cur, curTotal t, m⟩, ⟨g.root, rootTotal t, root⟩])
    else (m, [⟨g.cur, curTotal t, m⟩])
  (m.filter (·.1 ≠ backToRootLeafKey), loops)

/-- `get_key_prob_map_for_prefetch_w_ppm` -/
def predictWPpm (t : State ν) (jitter : Nat → ℚ) : State ν × KeyProbMap × List (Loop ν) :=
  let (t, _) := moveCurOnContext false t
  let r := predictWLz t jitter
  (moveCur false t.ptGraph.root t, r)

/-- `get_key_prob_map_for_prefetch` -/
def predict (t : State ν) (jitter : Nat → ℚ) : State ν × KeyProbMap × List (Loop ν) :=
  match t.malgoT with
  | .lz | .alz => (t, predictWLz t jitter)
  | .ppm => predictWPpm t jitter

omit [OfNat ν 0] in
theorem predict_ppm {t : State ν} (h : t.malgoT = .ppm) (jitter : Nat → ℚ) :
    (predict t jitter).2 = predictWLz (walkOn false t.context t).1 jitter := by
  simp only [predict, h, predictWPpm, moveCurOnContext]

omit [OfNat ν 0] in
theorem predict_of_ne_ppm {t : State ν} (h : t.malgoT ≠ .ppm) (jitter : Nat → ℚ) :
    (predict t jitter).2 = predictWLz t jitter := by
  rw [predict]
  cases halgo : t.malgoT with
  | lz | alz => rfl
  | ppm => exact absurd halgo h

/-! ## Calls -/

inductive Call where
  | addAccess : KeyT → Call
  | predict : (Nat → ℚ) → Call

def call (t : State ν) : Call → State ν
  | .addAccess key => addAccess t key
  | .predict jitter => (predict t jitter).1

end Tree

/-- The keys accessed by the calls. -/
def accessed (calls : List Call) : List KeyT :=
  calls.filterMap fun
    | .addAccess key => some key
    | .predict _ => none

end ParseTree
