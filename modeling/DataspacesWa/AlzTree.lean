import DataspacesWa.Prediction

/-!
# The ALZ parse tree

`add_access_w_alz` makes an access by LZ. Where this has completed a phrase,
and some phrase has more than one key, the key is then counted once more, as a
phrase of its own: the window holds the last key alone. The tree has the
phrases of both kinds, and its parse goes by both.
-/
namespace AlzTree

open Function (update update_self update_of_ne)
open Graph (properties getAdjVertices)
open LzTree (Plain lzStep)
open ParseTree Walks

/-! ## The parse -/

def longest (phrases : List (List KeyT)) : Nat := (phrases.map List.length).foldr max 0

/-- A step of the LZ78 parse, and the key as another phrase. -/
def step (d : Lz78.Parse KeyT) (k : KeyT) : Lz78.Parse KeyT :=
  let d := Lz78.step d k
  if 1 < longest d.phrases ∧ d.part = [] then ⟨d.phrases ++ [[k]], []⟩ else d

def parse (keys : List KeyT) : Lz78.Parse KeyT := keys.foldl step Lz78.start

theorem single_plain {d : Lz78.Parse KeyT} (h : Plain d) {k : KeyT} (hk : k ≠ backToRootLeafKey) :
    Plain ⟨d.phrases ++ [[k]], []⟩ where
  ne_nil p hp := by
    rcases List.mem_append.mp hp with hp | hp
    · exact h.ne_nil p hp
    · rw [List.mem_singleton.mp hp]
      exact List.cons_ne_nil k []
  part := .inl rfl
  prefixes p hp w hw hne := by
    rcases List.mem_append.mp hp with hp | hp
    · exact List.mem_append_left _ (h.prefixes p hp w hw hne)
    · rw [List.mem_singleton.mp hp] at hw
      have hlen := hw.length_le
      have hpos := List.length_pos_of_ne_nil hne
      rw [List.length_singleton] at hlen
      rw [hw.eq_of_length (by rw [List.length_singleton]; omega)]
      exact List.mem_append_right _ List.mem_cons_self
  no_back p hp q := by
    rcases List.mem_append.mp hp with hp | hp
    · exact h.no_back p hp q
    · rw [List.mem_singleton.mp hp]
      intro he
      exact hk (by simpa using congrArg List.getLast? he)

/-- One more phrase of a single key counts for the key alone. -/
theorem count_single {d : Lz78.Parse KeyT} (hpart : d.part = []) (k : KeyT) {w : List KeyT} (hw : w ≠ []) :
    Lz78.count ⟨d.phrases ++ [[k]], []⟩ w = Lz78.count d w + if w = [k] then 1 else 0 := by
  have hprefix : w <+: [k] ↔ w = [k] := by
    rw [show [k] = [] ++ [k] from rfl, List.prefix_concat_iff, List.prefix_nil]
    exact or_iff_left hw
  simp only [Lz78.count, hpart, List.countP_append, List.countP_singleton, decide_eq_true_eq, hprefix, List.prefix_nil,
    hw, if_false, Nat.add_zero]

/-! ## The dictionary -/

local instance lawfulBEqPhrase : LawfulBEq (List KeyT) := inferInstance

/-- What the trie counts when the parse has come to `d`: at the root the phrases, at a word those that begin
with it, the partial one with them, and at the way back from a word the phrases that end there. -/
def dictionary (d : Lz78.Parse KeyT) (w : List KeyT) : Option Nat :=
  if w = [] then some d.phrases.length
  else if w ∈ d.phrases then some (Lz78.count d w)
  else if w.getLast? = some backToRootLeafKey ∧ w.dropLast ∈ d.phrases then some (d.phrases.count w.dropLast)
  else none

section Dictionary
variable {d : Lz78.Parse KeyT} {T : Trie.State KeyT} {k : KeyT} {p : List KeyT}

theorem dictionary_phrase (h : Plain d) (hp : p ∈ d.phrases) : dictionary d p = some (Lz78.count d p) := by
  rw [dictionary, if_neg (h.ne_nil p hp), if_pos hp]

theorem dictionary_concat (d : Lz78.Parse KeyT) (p : List KeyT) (hk : k ≠ backToRootLeafKey) :
    dictionary d (p ++ [k]) = if p ++ [k] ∈ d.phrases then some (Lz78.count d (p ++ [k])) else none := by
  simp [dictionary, hk]

theorem dictionary_back (h : Plain d) (p : List KeyT) :
    dictionary d (p ++ [backToRootLeafKey]) = if p ∈ d.phrases then some (d.phrases.count p) else none := by
  have hnot : p ++ [backToRootLeafKey] ∉ d.phrases := fun hp => h.no_back _ hp p rfl
  simp [dictionary, hnot]

/-- Two dictionaries are the same where they are so at the root, at the words and at the ways back. -/
theorem eq_dictionary {f : List KeyT → Option Nat} (hnil : f [] = some d.phrases.length)
    (hword : ∀ p k, k ≠ backToRootLeafKey → f (p ++ [k]) = dictionary d (p ++ [k]))
    (hback : ∀ p, f (p ++ [backToRootLeafKey]) = dictionary d (p ++ [backToRootLeafKey])) : f = dictionary d := by
  funext w
  rcases List.eq_nil_or_concat w with rfl | ⟨p, k, rfl⟩
  · rw [hnil, dictionary, if_pos rfl]
  · rw [List.concat_eq_append]
    by_cases hk : k = backToRootLeafKey
    · rw [hk, hback]
    · exact hword p k hk

/-- A step of the LZ78 parse is an access by LZ. -/
theorem lzStep_dictionary (h : Plain d) (hT : T.visits = dictionary d) (hk : k ≠ backToRootLeafKey) :
    (lzStep T d.part k).1.visits = dictionary (Lz78.step d k) ∧ (lzStep T d.part k).2 = (Lz78.step d k).part := by
  have hplain := LzTree.step_plain h hk
  have hvisits := dictionary_concat d d.part hk
  rw [← hT] at hvisits
  by_cases hmem : d.part ++ [k] ∈ d.phrases
  · have hstep : Lz78.step d k = { d with part := d.part ++ [k] } := if_pos hmem
    rw [if_pos hmem] at hvisits
    rw [lzStep, if_pos (by rw [hvisits]; rfl)]
    refine ⟨?_, by rw [hstep]⟩
    rw [Trie.visit_visits, hT, ← hT, hvisits, Option.map_some]
    refine eq_dictionary ?_ (fun p x hx => ?_) fun p => ?_
    · rw [update_of_ne (by simp), hT, hstep, dictionary, if_pos rfl]
    · rw [dictionary_concat _ _ hx, Lz78.count_extend hmem]
      by_cases hw : p ++ [x] = d.part ++ [k]
      · rw [hw, update_self, if_pos (by rw [hstep]; exact hmem), if_pos rfl]
      · rw [update_of_ne hw, hT, dictionary_concat _ _ hx, if_neg hw, Nat.add_zero, hstep]
    · have hw : p ++ [backToRootLeafKey] ≠ d.part ++ [k] := fun he => hk (by simpa using (congrArg List.getLast? he).symm)
      rw [update_of_ne hw, hT, dictionary_back h, dictionary_back hplain, hstep]
  · have hstep : Lz78.step d k = ⟨d.phrases ++ [d.part ++ [k]], []⟩ := if_neg hmem
    rw [if_neg hmem] at hvisits
    rw [lzStep, if_neg (by rw [hvisits]; exact Bool.false_ne_true)]
    refine ⟨?_, by rw [hstep]⟩
    rw [Trie.home_visits, Trie.grow_visits, Trie.grow_visits]
    refine eq_dictionary ?_ (fun p x hx => ?_) fun p => ?_
    · rw [update_self, update_of_ne (by simp), update_of_ne (by simp), hT, hstep, dictionary, if_pos rfl]
      simp
    · have hne : p ++ [x] ≠ d.part ++ [k] ++ [backToRootLeafKey] := fun he => hx (by simpa using congrArg List.getLast? he)
      rw [update_of_ne (by simp), update_of_ne hne, dictionary_concat _ _ hx, Lz78.count_complete h.toClosed hmem (by simp)]
      by_cases hw : p ++ [x] = d.part ++ [k]
      · rw [hw, update_self, if_pos (by simp [hstep]), if_pos rfl]
      · rw [update_of_ne hw, hT, dictionary_concat _ _ hx, if_neg hw, hstep]
        simp [hw]
    · have hw : p ++ [backToRootLeafKey] ≠ d.part ++ [k] := fun he => hk (by simpa using (congrArg List.getLast? he).symm)
      rw [update_of_ne (by simp), dictionary_back hplain, hstep]
      by_cases hp : p = d.part ++ [k]
      · rw [hp, update_self, if_pos (by simp), List.count_append, List.count_eq_zero_of_not_mem hmem]
        simp
      · have hother : p ++ [backToRootLeafKey] ≠ d.part ++ [k] ++ [backToRootLeafKey] :=
          fun he => hp (List.append_cancel_right he)
        rw [update_of_ne hother, update_of_ne hw, hT, dictionary_back h]
        simp [hp, List.count_append, Ne.symm hp]

/-- The walk along the window counts one more phrase. -/
theorem walk_dictionary (h : Plain d) (hpart : d.part = []) (hT : T.visits = dictionary d) (hk : k ≠ backToRootLeafKey) :
    (Trie.home (Trie.descend (Trie.descend T [] k) [k] backToRootLeafKey)).visits =
      dictionary ⟨d.phrases ++ [[k]], []⟩ := by
  have hplain := single_plain h hk
  have hkey := dictionary_concat d [] hk
  have hleaf := dictionary_back h [k]
  rw [← hT, List.nil_append] at hkey
  rw [← hT] at hleaf
  have hne : [k] ++ [backToRootLeafKey] ≠ [] ++ [k] := by simp
  rw [Trie.home_visits, Trie.descend_visits, Trie.descend_visits, update_of_ne hne]
  refine eq_dictionary ?_ (fun p x hx => ?_) fun p => ?_
  · rw [update_self, update_of_ne (by simp), update_of_ne (by simp), hT, dictionary, if_pos rfl]
    simp
  · have hback : p ++ [x] ≠ [k] ++ [backToRootLeafKey] := fun he => hx (by simpa using congrArg List.getLast? he)
    rw [update_of_ne (by simp), update_of_ne hback, dictionary_concat _ _ hx, count_single hpart k (by simp)]
    by_cases hw : p ++ [x] = [k]
    · have hvisits : (T.visits [k]).getD 0 = Lz78.count d [k] := by
        rw [hkey]
        split
        · rfl
        next hnew =>
          -- no phrase begins with a key that is not a phrase
          refine (List.countP_eq_zero.mpr fun q hq hpre => hnew ?_).symm
          exact (h.toClosed.mem_iff [k]).mp ⟨by simp, q, hq, of_decide_eq_true hpre⟩
      rw [hw, List.nil_append, update_self, hvisits, if_pos (List.mem_append_right _ List.mem_cons_self), if_pos rfl]
    · rw [List.nil_append, update_of_ne hw, hT, dictionary_concat _ _ hx, if_neg hw, Nat.add_zero]
      simp [hw]
  · have hw : p ++ [backToRootLeafKey] ≠ [] ++ [k] := fun he => hk (by simpa using (congrArg List.getLast? he).symm)
    rw [update_of_ne (by simp), dictionary_back hplain]
    by_cases hp : p = [k]
    · have hvisits : (T.visits ([k] ++ [backToRootLeafKey])).getD 0 = d.phrases.count [k] := by
        rw [hleaf]
        split
        · rfl
        next hnew => exact (List.count_eq_zero_of_not_mem hnew).symm
      rw [hp, update_self, hvisits, if_pos (List.mem_append_right _ List.mem_cons_self), List.count_append,
        List.count_singleton_self]
    · have hother : p ++ [backToRootLeafKey] ≠ [k] ++ [backToRootLeafKey] := fun he => hp (List.append_cancel_right he)
      rw [update_of_ne hother, update_of_ne hw, hT, dictionary_back h]
      simp [hp, List.count_append, Ne.symm hp]

end Dictionary

/-! ## The tree -/

/-- The vertices are those of the dictionary, one for each word, with its counts. -/
structure IsDictionary (t : State) (d : Lz78.Parse KeyT) : Prop where
  counts : ∀ w, (vertexAt t w).map (fun v => (properties t.ptGraph v).numVisit) = dictionary d w
  vertices : ∀ v < t.ptGraph.vertices.length, ∃ w, vertexAt t w = some v
  siblings : ∀ v, ((getAdjVertices t.ptGraph v).map fun u => (properties t.ptGraph u).key).Nodup
  cur : vertexAt t d.part = some t.ptGraph.cur
  longest : t.longestPhraseLength = longest d.phrases

/-- What an access keeps: the tree represents the dictionary of the parse. -/
structure Follows (t : State) (d : Lz78.Parse KeyT) : Prop where
  rep : ∃ path T, At t path T d.part ∧ T.visits = dictionary d
  plain : Plain d
  longest : t.longestPhraseLength = longest d.phrases
  window : t.slidingWin.length ≤ 1

section Tree
variable {t : State} {path : Nat → List KeyT} {T : Trie.State KeyT} {w : List KeyT} {d : Lz78.Parse KeyT} {k : KeyT}

theorem Follows.isDictionary (h : Follows t d) : IsDictionary t d := by
  obtain ⟨⟨path, T, hat, hT⟩, hplain, hlongest, -⟩ := h
  refine ⟨fun w => ?_, fun v hv => ⟨path v, hat.vertexAt_iff.mpr ⟨hv, rfl⟩⟩, hat.siblings,
    hat.vertexAt_iff.mpr ⟨hat.cur_lt, hat.cur⟩, hlongest⟩
  rw [← hT]
  cases hw : T.visits w with
  | none =>
    have hnone : vertexAt t w = none := by
      refine Option.eq_none_iff_forall_ne_some.mpr fun v hv => ?_
      obtain ⟨hlt, hpath⟩ := hat.vertexAt_iff.mp hv
      exact (hat.none_iff w).mp hw v hlt hpath
    rw [hnone, Option.map_none]
  | some m =>
    obtain ⟨v, hlt, hpath, hvisit⟩ := (hat.some_iff w m).mp hw
    rw [hat.vertexAt_iff.mpr ⟨hlt, hpath⟩, Option.map_some, hvisit]

theorem longest_append (l : List (List KeyT)) (p : List KeyT) : longest (l ++ [p]) = max (longest l) p.length :=
  LzTree.longest_append l p

theorem init_follows (malgoT : MalgoT) (contextSize : Nat) : Follows (init malgoT contextSize) Lz78.start where
  rep := by
    refine ⟨_, _, init_at malgoT contextSize, ?_⟩
    funext w
    by_cases hw : w = []
    · subst hw
      rfl
    · simp [Trie.empty, dictionary, Lz78.start, hw]
  plain := LzTree.start_plain
  longest := rfl
  window := Nat.zero_le 1

/-- The access by LZ that comes first. -/
theorem addAccessWLz_follows (h : Follows t d) (hk : k ≠ backToRootLeafKey) :
    Follows (addAccessWLz t k) (Lz78.step d k) := by
  obtain ⟨⟨path, T, hat, hT⟩, hplain, hlongest, hwindow⟩ := h
  obtain ⟨hvisits, hpart⟩ := lzStep_dictionary hplain hT hk
  have hrep : ∃ path' T', At (addAccessWLz t k) path' T' (Lz78.step d k).part ∧
      T'.visits = dictionary (Lz78.step d k) := by
    obtain ⟨path', hat'⟩ := LzTree.addAccessWLz_at hat (k := k)
    rw [hpart] at hat'
    exact ⟨path', _, hat', hvisits⟩
  have hdic := dictionary_concat d d.part hk
  rw [← hT] at hdic
  refine ⟨hrep, LzTree.step_plain hplain hk, ?_, ?_⟩
  · by_cases hmem : d.part ++ [k] ∈ d.phrases
    · rw [if_pos hmem] at hdic
      obtain ⟨-, -, hlongest', -⟩ := LzTree.addAccessWLz_old hat (by rw [hdic]; rfl)
      rw [hlongest', hlongest, Lz78.step, if_pos hmem]
    · rw [if_neg hmem] at hdic
      obtain ⟨-, -, -, hlongest', -⟩ := LzTree.addAccessWLz_new hat hdic
      rw [hlongest' hk, hlongest, Lz78.step, if_neg hmem, longest_append, List.length_append, List.length_singleton]
  · rw [(LzTree.addAccessWLz_rest t k).slidingWin]
    exact hwindow

/-- The walk does not make the longest phrase longer where there are longer ones than it. -/
theorem goDownOrCreate_longest (h : At t path T w) (hw : k = backToRootLeafKey ∨ w.length < t.longestPhraseLength) :
    (goDownOrCreate t k).longestPhraseLength = t.longestPhraseLength := by
  unfold goDownOrCreate
  split
  · exact moveCur_longest _ _ _
  · rw [moveCur_longest, createConnectLeaf_longest h h.cur_lt, h.cur]
    split
    · rfl
    next hback => exact Nat.max_eq_left ((or_iff_right hback).mp hw)

/-- The cursor is at the root where the partial phrase is empty. -/
theorem status_cur (h : At t path T w) : (properties t.ptGraph t.ptGraph.cur).status = .root ↔ w = [] := by
  rw [h.status _ h.cur_lt, ← h.cur]
  constructor
  · intro h0
    rw [h0, h.labels.path_root]
  · intro hnil
    exact h.labels.inj _ _ h.cur_lt h.labels.nonempty (by rw [hnil, h.labels.path_root])

/-- An access by ALZ is a step of its parse. -/
theorem addAccessWAlz_follows (h : Follows t d) (hk : k ≠ backToRootLeafKey) :
    Follows (addAccessWAlz t k) (step d k) := by
  obtain ⟨⟨path, T, hat, hT⟩, hplain, hlongest, hwindow⟩ := addAccessWLz_follows h hk
  generalize hlz : addAccessWLz t k = t₁ at hat hlongest hwindow
  generalize hd : Lz78.step d k = d₁ at hat hT hplain hlongest
  have hslide := Prediction.slide_eq hwindow (k := k)
  have hat₁ : At { t₁ with slidingWin := [k] } path T d₁.part := { hat with }
  have hroot := status_cur hat
  simp only [addAccessWAlz, hlz, hslide, step, hd]
  by_cases hextra : 1 < longest d₁.phrases ∧ d₁.part = []
  · rw [if_pos hextra, if_pos ⟨by rw [hlongest]; exact hextra.1, hroot.mpr hextra.2⟩]
    rw [hextra.2] at hat₁
    have hhome := goHome hat₁
    obtain ⟨path₂, hat₂⟩ := Prediction.goDownOrCreate_at hhome (k := k)
    obtain ⟨path₃, hat₃⟩ := Prediction.goDownOrCreate_at hat₂ (k := backToRootLeafKey)
    have hlongest₂ := goDownOrCreate_longest hhome (k := k) (.inr (by rw [moveCur_longest]; show 0 < t₁.longestPhraseLength; omega))
    have hlongest₃ := goDownOrCreate_longest hat₂ (.inl rfl)
    have hcur : t₁.ptGraph.cur = 0 := (hat.status _ hat.cur_lt).mp (hroot.mpr hextra.2)
    rw [Trie.descend_home, Trie.descend_home] at hat₃
    have hmove := moveCur_false hat₃ hat₃.labels.nonempty
    rw [hat₃.labels.path_root] at hmove
    refine ⟨⟨path₃, _, ?_, walk_dictionary hplain hextra.2 hT hk⟩, single_plain hplain hk, ?_, ?_⟩
    · rw [hcur]
      exact hmove
    · show (goDownOrCreate (goDownOrCreate _ k) backToRootLeafKey).longestPhraseLength = _
      rw [hlongest₃, hlongest₂, moveCur_longest, longest_append, List.length_singleton,
        Nat.max_eq_left (Nat.le_of_lt hextra.1), ← hlongest]
    · show (goDownOrCreate (goDownOrCreate _ k) backToRootLeafKey).slidingWin.length ≤ 1
      rw [(Prediction.goDownOrCreate_rest _ _).slidingWin, (Prediction.goDownOrCreate_rest _ _).slidingWin]
      exact Nat.le_refl 1
  · have hnot : ¬(1 < t₁.longestPhraseLength ∧ (properties t₁.ptGraph t₁.ptGraph.cur).status = .root) := by
      rw [hroot, hlongest]
      exact hextra
    rw [if_neg hextra, if_neg hnot]
    have hmove := moveCur_false hat₁ hat₁.cur_lt
    rw [hat₁.cur] at hmove
    exact ⟨⟨path, T, hmove, hT⟩, hplain, hlongest, Nat.le_refl 1⟩

/-- Whatever is accessed and predicted, the ALZ tree is the dictionary of its parse. -/
theorem run_follows (contextSize : Nat) (calls : List Call) (hkeys : ∀ key ∈ accessed calls, key ≠ backToRootLeafKey) :
    Follows (calls.foldl call (init .alz contextSize)) (parse (accessed calls)) ∧
      (calls.foldl call (init .alz contextSize)).malgoT = .alz := by
  induction calls using List.reverseRecOn with
  | nil => exact ⟨init_follows .alz contextSize, rfl⟩
  | append_singleton calls c ih =>
    have happend : accessed (calls ++ [c]) = accessed calls ++ accessed [c] := List.filterMap_append
    rw [happend] at hkeys ⊢
    obtain ⟨hfollows, hmalgo⟩ := ih fun key hkey => hkeys key (List.mem_append_left _ hkey)
    have hparse : parse (accessed calls ++ accessed [c]) = (accessed [c]).foldl step (parse (accessed calls)) :=
      List.foldl_append
    rw [List.foldl_append, hparse]
    refine ⟨?_, (Prediction.call_malgoT _ _).trans hmalgo⟩
    cases c with
    | addAccess key =>
      simp only [List.foldl_cons, List.foldl_nil, call, addAccess, hmalgo]
      exact addAccessWAlz_follows hfollows (hkeys key (List.mem_append_right _ List.mem_cons_self))
    | predict jitter =>
      simp only [List.foldl_cons, List.foldl_nil, call, predict, hmalgo]
      exact hfollows

theorem alz_tree_is_dictionary (contextSize : Nat) (calls : List Call)
    (hkeys : ∀ key ∈ accessed calls, key ≠ backToRootLeafKey) :
    IsDictionary (calls.foldl call (init .alz contextSize)) (parse (accessed calls)) :=
  (run_follows contextSize calls hkeys).1.isDictionary

/-- The phrase 5 7 is the first of two keys, and 7 gets a phrase with it. -/
theorem alz_tree_of_four : parse [5, 5, 7, 7] = ⟨[[5], [5, 7], [7]], [7]⟩ ∧
    IsDictionary (([5, 5, 7, 7].map Call.addAccess).foldl call (init .alz 0)) (parse [5, 5, 7, 7]) :=
  ⟨by decide, alz_tree_is_dictionary 0 ([5, 5, 7, 7].map Call.addAccess) (by simp [accessed, backToRootLeafKey])⟩

end Tree

end AlzTree
