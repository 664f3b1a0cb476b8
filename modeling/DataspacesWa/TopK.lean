import DataspacesWa.SortedMap

/-!
# The best keys of a map

The keys of a map are ranked by turning the map from key to score into one from
score to key, so that of the keys with one score only the last is left, and
taking its entries from the highest score on. The keys are the best ones exactly
where no tie is met before the last of them.
-/
namespace TopK

variable {K S : Type*} [LinearOrder K] [LinearOrder S]

/-- The map from score to key; a later key replaces an earlier one of the same score. -/
def invert (m : SortedMap K S) : SortedMap S K := m.entries.foldl (fun inv e => inv.insert e.2 e.1) SortedMap.empty

/-- Push one after the other, until there are `num`. -/
def pushUntil {α : Type*} (num : Nat) : List α → List α → List α
  | acc, [] => acc
  | acc, x :: xs => if (acc ++ [x]).length = num then acc ++ [x] else pushUntil num (acc ++ [x]) xs

/-- The entries from the highest score on. -/
def ranked (m : SortedMap K S) : List (S × K) := (invert m).entries.reverse

def select (num : Nat) (m : SortedMap K S) : List K := pushUntil num [] ((ranked m).map (·.2))

/-- What the best `num` keys of a map are to be. -/
structure Best (num : Nat) (m : SortedMap K S) (keys : List K) : Prop where
  length : keys.length = min num m.entries.length
  nodup : keys.Nodup
  known : ∀ k ∈ keys, m.contains k = true
  ordered : keys.Pairwise fun k k' => ∀ s s', m.get? k = some s → m.get? k' = some s' → s' ≤ s
  left : ∀ k s, m.get? k = some s → k ∉ keys → ∀ k' ∈ keys, ∀ s', m.get? k' = some s' → s ≤ s'

/-- The scores from one on, each once. -/
def atLeast (m : SortedMap K S) (s : S) : Finset S := (m.entries.map (·.2)).toFinset.filter (s ≤ ·)

/-- A score that two keys share is at the `num`-th place or below. -/
def TiesLow (num : Nat) (m : SortedMap K S) : Prop :=
  ∀ k k' s, m.get? k = some s → m.get? k' = some s → k ≠ k' → num ≤ (atLeast m s).card

/-! ## Pushing -/

section Push
variable {α : Type*} {num : Nat} {acc : List α}

theorem pushUntil_eq (h : acc.length < num) (xs : List α) :
    pushUntil num acc xs = acc ++ xs.take (num - acc.length) := by
  induction xs generalizing acc with
  | nil => simp [pushUntil]
  | cons x xs ih =>
    have hlen : (acc ++ [x]).length = acc.length + 1 := by simp
    rw [pushUntil]
    split
    next hfull => rw [show num - acc.length = 1 by omega, List.take_succ_cons, List.take_zero]
    next hfull =>
      rw [ih (by omega), hlen, show num - acc.length = num - (acc.length + 1) + 1 by omega, List.take_succ_cons,
        List.append_assoc, List.singleton_append]

theorem pushUntil_nil (h : 0 < num) (xs : List α) : pushUntil num [] xs = xs.take num := by
  rw [pushUntil_eq (by simpa using h), List.nil_append, List.length_nil, Nat.sub_zero]

/-- Past the number nothing stops the loop. -/
theorem pushUntil_past (h : num ≤ acc.length) (xs : List α) : pushUntil num acc xs = acc ++ xs := by
  induction xs generalizing acc with
  | nil => simp [pushUntil]
  | cons x xs ih =>
    have hlen : (acc ++ [x]).length = acc.length + 1 := by simp
    rw [pushUntil, if_neg (by omega), ih (by omega), List.append_assoc, List.singleton_append]

end Push

/-! ## The inverted map -/

section Invert
variable {m : SortedMap K S} {k : K} {s : S}

omit [LinearOrder K] in
theorem get?_foldl_insert {entries : List (K × S)} {inv : SortedMap S K}
    (h : (entries.foldl (fun inv e => inv.insert e.2 e.1) inv).get? s = some k) :
    (k, s) ∈ entries ∨ inv.get? s = some k := by
  induction entries generalizing inv with
  | nil => exact .inr h
  | cons e entries ih =>
    rcases ih h with hmem | hold
    · exact .inl (List.mem_cons_of_mem _ hmem)
    · rw [SortedMap.get?_insert] at hold
      split at hold
      next heq =>
        obtain rfl := Option.some.inj hold
        exact .inl (heq ▸ List.mem_cons_self)
      next => exact .inr hold

omit [LinearOrder K] in
theorem isSome_foldl_insert {entries : List (K × S)} {inv : SortedMap S K}
    (h : (∃ e ∈ entries, e.2 = s) ∨ (inv.get? s).isSome) :
    ((entries.foldl (fun inv e => inv.insert e.2 e.1) inv).get? s).isSome := by
  induction entries generalizing inv with
  | nil => simpa using h
  | cons e entries ih =>
    refine ih ?_
    rw [SortedMap.get?_insert]
    rcases h with ⟨e', hmem, heq⟩ | hsome
    · rcases List.mem_cons.mp hmem with rfl | hmem
      · exact .inr (by rw [if_pos heq.symm]; rfl)
      · exact .inl ⟨e', hmem, heq⟩
    · refine .inr ?_
      split
      · rfl
      · exact hsome

theorem get?_of_mem_ranked (h : (s, k) ∈ ranked m) : m.get? k = some s := by
  rw [ranked, List.mem_reverse, SortedMap.mem_entries] at h
  rcases get?_foldl_insert h with hmem | hempty
  · exact SortedMap.mem_entries.mp hmem
  · cases hempty

/-- Every score is still there, with some key. -/
theorem exists_mem_ranked (h : m.get? k = some s) : ∃ k', (s, k') ∈ ranked m := by
  have hsome : ((invert m).get? s).isSome :=
    isSome_foldl_insert (.inl ⟨(k, s), SortedMap.mem_entries.mpr h, rfl⟩)
  obtain ⟨k', hk'⟩ := Option.isSome_iff_exists.mp hsome
  exact ⟨k', List.mem_reverse.mpr (SortedMap.mem_entries.mpr hk')⟩

theorem ranked_sorted (m : SortedMap K S) : (ranked m).Pairwise fun e e' => e'.1 < e.1 :=
  List.pairwise_reverse.mpr (invert m).sorted

theorem ranked_scores_nodup (m : SortedMap K S) : ((ranked m).map (·.1)).Nodup :=
  List.pairwise_map.mpr ((ranked_sorted m).imp fun h => ne_of_gt h)

theorem ranked_keys_nodup (m : SortedMap K S) : ((ranked m).map (·.2)).Nodup := by
  refine List.Nodup.map_on ?_ (List.Nodup.of_map _ (ranked_scores_nodup m))
  rintro ⟨s, k⟩ h ⟨s', k'⟩ h' (rfl : k = k')
  have hsame : some s = some s' := (get?_of_mem_ranked h).symm.trans (get?_of_mem_ranked h')
  rw [Option.some.inj hsame]

theorem ranked_scores (m : SortedMap K S) : ((ranked m).map (·.1)).toFinset = (m.entries.map (·.2)).toFinset := by
  ext s
  simp only [List.mem_toFinset, List.mem_map, Prod.exists, exists_and_right, exists_eq_right]
  constructor
  · rintro ⟨k, hk⟩
    exact ⟨k, SortedMap.mem_entries.mpr (get?_of_mem_ranked hk)⟩
  · rintro ⟨k, hk⟩
    exact exists_mem_ranked (SortedMap.mem_entries.mp hk)

theorem card_atLeast (m : SortedMap K S) (s : S) :
    (atLeast m s).card = ((ranked m).filter fun e => s ≤ e.1).length := by
  have hset : atLeast m s = (((ranked m).map (·.1)).filter fun x => s ≤ x).toFinset := by
    ext x
    rw [atLeast, Finset.mem_filter, ← ranked_scores, List.mem_toFinset, List.mem_toFinset, List.mem_filter,
      decide_eq_true_eq]
  rw [hset, List.toFinset_card_of_nodup ((ranked_scores_nodup m).filter _), List.filter_map, List.length_map]
  rfl

/-- Two keys share a score when there are fewer scores than keys. -/
theorem exists_tie (h : (ranked m).length < m.entries.length) :
    ∃ k k' s, m.get? k = some s ∧ m.get? k' = some s ∧ k ≠ k' := by
  by_contra hnone
  have hsame : ∀ k k' s, m.get? k = some s → m.get? k' = some s → k = k' :=
    fun k k' s hk hk' => by_contra fun hne => hnone ⟨k, k', s, hk, hk', hne⟩
  have hnodup : (m.entries.map (·.2)).Nodup := by
    refine List.Nodup.map_on ?_ (List.Nodup.of_map (·.1) m.keys_nodup)
    rintro ⟨k, s⟩ hk ⟨k', s'⟩ hk' (rfl : s = s')
    rw [hsame k k' s (SortedMap.mem_entries.mp hk) (SortedMap.mem_entries.mp hk')]
  have hlen : (ranked m).length = ((ranked m).map (·.1)).toFinset.card := by
    rw [List.toFinset_card_of_nodup (ranked_scores_nodup m), List.length_map]
  rw [hlen, ranked_scores, List.toFinset_card_of_nodup hnodup, List.length_map] at h
  exact absurd h (Nat.lt_irrefl _)

/-- And then there are fewer scores than keys. -/
theorem length_ranked_lt {k k' : K} {s : S} (hk : m.get? k = some s) (hk' : m.get? k' = some s) (hne : k ≠ k') :
    (ranked m).length < m.entries.length := by
  have hlen : (ranked m).length = ((ranked m).map (·.1)).toFinset.card := by
    rw [List.toFinset_card_of_nodup (ranked_scores_nodup m), List.length_map]
  rw [hlen, ranked_scores, List.card_toFinset]
  have hsub := List.dedup_sublist (m.entries.map (·.2))
  refine lt_of_le_of_ne (hsub.length_le.trans (Nat.le_of_eq (List.length_map _))) fun heq => ?_
  have hnodup : (m.entries.map (·.2)).Nodup := by
    rw [← hsub.eq_of_length (heq.trans (List.length_map _).symm)]
    exact List.nodup_dedup _
  have hsame := List.inj_on_of_nodup_map hnodup (SortedMap.mem_entries.mpr hk) (SortedMap.mem_entries.mpr hk') rfl
  exact hne (congrArg Prod.fst hsame)

theorem length_ranked_le (m : SortedMap K S) : (ranked m).length ≤ m.entries.length := by
  have hlen : (ranked m).length = ((ranked m).map (·.1)).toFinset.card := by
    rw [List.toFinset_card_of_nodup (ranked_scores_nodup m), List.length_map]
  rw [hlen, ranked_scores]
  exact (List.toFinset_card_le _).trans (Nat.le_of_eq (List.length_map _))

end Invert

/-! ## The best keys -/

section Best
variable {m : SortedMap K S} {num : Nat} {k k' : K} {s s' : S}

theorem select_eq (h : 0 < num) (m : SortedMap K S) : select num m = ((ranked m).take num).map (·.2) := by
  rw [select, pushUntil_nil h, List.map_take]

/-- What is ranked above an entry that is taken is taken. -/
theorem mem_take_of_lt (h : (s, k) ∈ ranked m) (h' : (s', k') ∈ (ranked m).take num) (hlt : s' < s) :
    (s, k) ∈ (ranked m).take num := by
  have hsorted := ranked_sorted m
  rw [← List.take_append_drop num (ranked m)] at h hsorted
  rcases List.mem_append.mp h with h | h
  · exact h
  · exact absurd ((List.pairwise_append.mp hsorted).2.2 _ h' _ h) (not_lt.mpr (le_of_lt hlt))

/-- A lower score is taken when there is more room than the scores from `s` on need. -/
theorem exists_lower (hroom : (atLeast m s).card < ((ranked m).take num).length) :
    ∃ e ∈ (ranked m).take num, e.1 < s := by
  by_contra hnone
  have hall : ∀ e ∈ (ranked m).take num, s ≤ e.1 := fun e he => not_lt.mp fun hlt => hnone ⟨e, he, hlt⟩
  have hfilter : ((ranked m).take num).filter (fun e => s ≤ e.1) = (ranked m).take num := by
    rw [List.filter_eq_self]
    intro e he
    simpa using hall e he
  have hle : (((ranked m).take num).filter fun e => s ≤ e.1).length ≤ ((ranked m).filter fun e => s ≤ e.1).length :=
    ((List.take_sublist num _).filter _).length_le
  rw [hfilter, ← card_atLeast] at hle
  omega

/-- The scores from `s` on are all taken along with a lower one. -/
theorem card_lt_of_lower (h : (s', k') ∈ (ranked m).take num) (hlt : s' < s) : (atLeast m s).card < num := by
  have hsplit : (ranked m).filter (fun e => s ≤ e.1) = ((ranked m).take num).filter fun e => s ≤ e.1 := by
    conv => lhs; rw [← List.take_append_drop num (ranked m)]
    have hsorted := ranked_sorted m
    rw [← List.take_append_drop num (ranked m)] at hsorted
    have hdrop : ((ranked m).drop num).filter (fun e => s ≤ e.1) = [] := by
      rw [List.filter_eq_nil_iff]
      intro e he
      have hbelow := (List.pairwise_append.mp hsorted).2.2 _ h e he
      simpa using lt_trans hbelow hlt
    rw [List.filter_append, hdrop, List.append_nil]
  have hproper : (((ranked m).take num).filter fun e => s ≤ e.1).length < ((ranked m).take num).length := by
    refine List.length_filter_lt_length_iff_exists.mpr ⟨_, h, ?_⟩
    simpa using hlt
  rw [card_atLeast, hsplit]
  exact lt_of_lt_of_le hproper (List.length_take_le _ _)

theorem best_of_tiesLow (h : 0 < num) (hties : TiesLow num m) : Best num m (select num m) := by
  have hranked : ∀ e ∈ (ranked m).take num, m.get? e.2 = some e.1 :=
    fun e he => get?_of_mem_ranked (List.mem_of_mem_take he)
  rw [select_eq h]
  refine ⟨?_, ?_, ?_, ?_, ?_⟩
  · rw [List.length_map, List.length_take]
    rcases Nat.lt_or_ge (ranked m).length m.entries.length with hlt | hge
    · obtain ⟨k, k', s, hk, hk', hne⟩ := exists_tie hlt
      have hlow := hties k k' s hk hk' hne
      have hle : (atLeast m s).card ≤ (ranked m).length := by
        rw [card_atLeast]
        exact List.length_filter_le _ _
      omega
    · have hle := length_ranked_le m
      omega
  · rw [List.map_take]
    exact (ranked_keys_nodup m).sublist (List.take_sublist _ _)
  · intro k hk
    obtain ⟨e, he, rfl⟩ := List.mem_map.mp hk
    rw [SortedMap.contains, hranked e he]
    rfl
  · refine List.pairwise_map.mpr (((ranked_sorted m).sublist (List.take_sublist num _)).imp_of_mem ?_)
    intro e e' he he' hlt s s' hs hs'
    rw [hranked e he, Option.some.injEq] at hs
    rw [hranked e' he', Option.some.injEq] at hs'
    exact hs ▸ hs' ▸ le_of_lt hlt
  · intro k s hs hleft k' hk' s' hs'
    obtain ⟨e, he, rfl⟩ := List.mem_map.mp hk'
    rw [hranked e he, Option.some.injEq] at hs'
    subst hs'
    by_contra hlt
    obtain ⟨k₁, hk₁⟩ := exists_mem_ranked hs
    have htaken := mem_take_of_lt hk₁ he (not_le.mp hlt)
    have hne : k ≠ k₁ := by
      rintro rfl
      exact hleft (List.mem_map.mpr ⟨(s, k), htaken, rfl⟩)
    have hlow := hties k k₁ s hs (get?_of_mem_ranked hk₁) hne
    exact absurd (card_lt_of_lower he (not_le.mp hlt)) (Nat.not_lt.mpr hlow)

theorem tiesLow_of_best (h : 0 < num) (hbest : Best num m (select num m)) : TiesLow num m := by
  intro k k' s hk hk' hne
  by_contra hlow
  have hlength := hbest.length
  have hleft := hbest.left
  rw [select_eq h] at hlength hleft
  rw [List.length_map] at hlength
  have hfewer := length_ranked_lt hk hk' hne
  have hle : (atLeast m s).card ≤ (ranked m).length := by
    rw [card_atLeast]
    exact List.length_filter_le _ _
  have hroom : (atLeast m s).card < ((ranked m).take num).length := by omega
  obtain ⟨e, he, hlt⟩ := exists_lower hroom
  have hscore := get?_of_mem_ranked (List.mem_of_mem_take he)
  have hmem : ∀ x, m.get? x = some s → (s, x) ∈ ranked m := by
    intro x hx
    by_contra hout
    refine absurd (hleft x s hx (fun hin => hout ?_) e.2 (List.mem_map.mpr ⟨e, he, rfl⟩) e.1 hscore) (not_le.mpr hlt)
    obtain ⟨e', he', rfl⟩ := List.mem_map.mp hin
    have hsame : some e'.1 = some s := (get?_of_mem_ranked (List.mem_of_mem_take he')).symm.trans hx
    rw [← Option.some.inj hsame]
    exact List.mem_of_mem_take he'
  have hsame := List.inj_on_of_nodup_map (ranked_scores_nodup m) (hmem k hk) (hmem k' hk') rfl
  exact hne (congrArg Prod.snd hsame)

/-- The keys that are selected are the best exactly when every tie is at the last place
taken or below. -/
theorem best_iff_tiesLow (h : 0 < num) : Best num m (select num m) ↔ TiesLow num m :=
  ⟨tiesLow_of_best h, best_of_tiesLow h⟩

/-- The first place is never lost to a tie. -/
theorem tiesLow_one (m : SortedMap K S) : TiesLow 1 m := by
  intro k k' s hk _ _
  have hmem : s ∈ (m.entries.map (·.2)).toFinset :=
    List.mem_toFinset.mpr (List.mem_map.mpr ⟨(k, s), SortedMap.mem_entries.mpr hk, rfl⟩)
  exact Finset.card_pos.mpr ⟨s, Finset.mem_filter.mpr ⟨hmem, le_rfl⟩⟩

end Best

end TopK
