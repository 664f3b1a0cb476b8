import DataspacesWa.PrefetchSteps

/-!
# The actions of a prefetch buffer and its cache

What has been asked for and not deleted since is what the cache holds, as long
as each access finds room for all that it picks: `add_access` asks for the data
first and looks for the room after.
-/
namespace PrefetchActions

open MPBuffer PrefetchSteps
open WASpace (DataAct)

/-! ## The property -/

/-- How many more times the handler has been asked to prefetch than to delete. -/
def surplus (acts : List Action) (kv : KeyVer) : Int :=
  acts.count (.prefetch, kv) - acts.count (.del, kv)

/-- The actions issued so far leave the data where the cache says they are. -/
structure Mirrors (r : Run) : Prop where
  surplus : ∀ kv, surplus r.acts kv = if kv ∈ r.buffer.cache.content then 1 else 0
  nodup : r.buffer.cache.content.Nodup
  bounded : Cache.size r.buffer.cache ≤ r.buffer.maxNumKeyVer
  deleted : ∀ kv ∈ r.buffer.cache.content, ∀ pIdV,
    (addAccessAll r.buffer kv pIdV).2.2.count (.del, kv) = 1 ∧
      kv ∉ (addAccessAll r.buffer kv pIdV).1.cache.content

/-- What an access picks, when the producers of the list are predicted. -/
def toCome (b : State) (reged : List (Int32 × KeyVer)) (pIdV : List Int32) : List KeyVer :=
  pIdV.dedup.flatMap (due b reged)

/-- How much the cache holds once `kv` has left it. -/
def sizeWithout (b : State) (kv : KeyVer) : Int :=
  Cache.size b.cache - if kv ∈ b.cache.content then 1 else 0

/-- The cache has room for all that the access picks, once what is accessed has left it. -/
def HasRoom (r : Run) : Op → Prop
  | .addAccess kv pIdV => kv ∈ r.reged.map (·.2) →
    sizeWithout r.buffer kv + (toCome (countAccess r.buffer kv) r.reged pIdV).length ≤ r.buffer.maxNumKeyVer
  | _ => True

instance (r : Run) (op : Op) : Decidable (HasRoom r op) :=
  match op with
  | .addAccess kv pIdV => inferInstanceAs (Decidable (kv ∈ r.reged.map (·.2) →
    sizeWithout r.buffer kv + (toCome (countAccess r.buffer kv) r.reged pIdV).length ≤ r.buffer.maxNumKeyVer))
  | .regKeyVer _ _ => .isTrue trivial
  | .del _ => .isTrue trivial

/-! ## What is picked, counted -/

section Picked
variable {b b' : State} {reged : List (Int32 × KeyVer)} {pIdV : List Int32} {kvV : List KeyVer}

theorem due_nodup (p : Int32) : (due b reged p).Nodup := by
  unfold due
  split
  · cases (regedOf reged p)[nextStep b p]? <;> simp
  · simp

theorem toCome_nodup (h : Indexed b reged) : (toCome b reged pIdV).Nodup := by
  rw [toCome, List.nodup_flatMap]
  refine ⟨fun p _ => due_nodup p, (pIdV.nodup_dedup).imp ?_⟩
  intro p q hne kv hp hq
  exact hne (h.producer_unique (mem_due hp) (mem_due hq))

theorem mem_toCome {kv : KeyVer} : kv ∈ toCome b reged pIdV ↔ ∃ p ∈ pIdV, kv ∈ due b reged p := by
  simp [toCome, List.mem_dedup]

/-- What is picked is counted without a look at the call. -/
theorem picks_length (h : Indexed b reged) (hpicks : PicksAll b b' reged pIdV kvV) (hkvV : kvV.Nodup) :
    kvV.length = (toCome b reged pIdV).length := by
  refine ((List.perm_ext_iff_of_nodup hkvV (toCome_nodup h)).mpr fun kv => ?_).length_eq
  rw [mem_toCome]
  refine ⟨hpicks.mem kv, ?_⟩
  rintro ⟨p, hp, hdue⟩
  have hof := hpicks.ofProducer p
  rw [if_pos hp] at hof
  exact List.mem_of_mem_filter (hof ▸ hdue)

end Picked

/-! ## One access -/

section Cache
variable {b : State} {kv : KeyVer}

/-- The deletion of a kv that is cached, with what the handler is asked. -/
theorem del_cached (hreg : (b.kvPId kv).isSome) (hkv : kv ∈ b.cache.content) (hacc : (b.cache.eAcc kv).isSome)
    (hnodup : b.cache.content.Nodup) :
    ∃ cache, del b kv = ({ b with cache := cache }, [(.del, kv)]) ∧ cache.content.Nodup ∧
      (cache.content.length : Int) = sizeWithout b kv ∧ (∀ x, x ∈ cache.content ↔ x ≠ kv ∧ x ∈ b.cache.content) ∧
      ∀ x, x ≠ kv → cache.eAcc x = b.cache.eAcc x := by
  have hhere : Cache.contains b.cache kv = true := Cache.contains_iff.mpr hkv
  obtain ⟨cache, hdel, hcache, hlen, hmem, hrest⟩ := Cache.del_nodup ((b.kvPId kv).getD 0) hkv hacc hnodup
  refine ⟨cache, by simp [del, hreg, hhere, hdel], hcache, ?_, hmem, hrest⟩
  simp only [sizeWithout, if_pos hkv, Cache.size]
  omega

theorem del_uncached (hkv : kv ∉ b.cache.content) : del b kv = (b, []) := by
  have hgone : ¬Cache.contains b.cache kv = true := fun hc => hkv (Cache.contains_iff.mp hc)
  simp [del, hgone]

/-- With room for all, each kv asked for is cached. -/
theorem prefetchAll_room (hw : b.wPrefetch = true) (kvV : List KeyVer) (hnodup : kvV.Nodup)
    (hnew : ∀ x ∈ kvV, x ∉ b.cache.content)
    (hroom : b.cache.content.length + kvV.length ≤ b.maxNumKeyVer) :
    ∃ cache, prefetchAll b kvV = ({ b with cache := cache }, kvV.map (.prefetch, ·)) ∧
      cache.content = b.cache.content ++ kvV ∧
      ∀ x, (b.cache.eAcc x).isSome ∨ x ∈ kvV → (cache.eAcc x).isSome := by
  induction kvV generalizing b with
  | nil => exact ⟨b.cache, rfl, by simp, by simp⟩
  | cons kv kvV ih =>
    rw [List.length_cons] at hroom
    have hfit : Cache.size b.cache < b.maxNumKeyVer := by
      simp only [Cache.size]
      omega
    have hgone : Cache.contains b.cache kv = false := by
      simpa [← Cache.contains_iff] using hnew kv List.mem_cons_self
    obtain ⟨hout, hnodup⟩ := List.nodup_cons.mp hnodup
    let cache := Cache.push b.cache ((b.kvPId kv).getD 0) kv
    have hcontent : cache.content = b.cache.content ++ [kv] := by simp [cache, Cache.push, hgone]
    have hacc : ∀ x, (b.cache.eAcc x).isSome ∨ x = kv → (cache.eAcc x).isSome := by
      intro x hx
      by_cases hxk : x = kv
      · simp [cache, Cache.push, hgone, hxk]
      · simpa [cache, Cache.push, hgone, hxk] using hx
    obtain ⟨cache', hrun, hcontent', hacc'⟩ := ih (b := { b with cache := cache }) hw hnodup (by
        intro x hx
        have := hnew x (List.mem_cons_of_mem _ hx)
        have hne : x ≠ kv := fun he => hout (he ▸ hx)
        simpa [hcontent, this] using hne) (by
        simp only [hcontent, List.length_append, List.length_singleton]
        omega)
    refine ⟨cache', ?_, ?_, ?_⟩
    · simp only [prefetchAll, if_pos hw, if_pos hfit]
      rw [hrun]
      rfl
    · rw [hcontent', hcontent, List.append_assoc]
      rfl
    · intro x hx
      refine hacc' x ?_
      rcases hx with hx | hx
      · exact .inl (hacc x (.inl hx))
      · rcases List.mem_cons.mp hx with rfl | hx
        · exact .inl (hacc x (.inr rfl))
        · exact .inr hx

/-- With or without room, the prefetch loop deletes nothing and caches nothing else. -/
theorem prefetchAll_only (kvV : List KeyVer) (b : State) :
    (∀ x, (.del, x) ∉ (prefetchAll b kvV).2) ∧
      ∀ x ∈ (prefetchAll b kvV).1.cache.content, x ∈ b.cache.content ∨ x ∈ kvV := by
  induction kvV generalizing b with
  | nil => simp [prefetchAll]
  | cons kv kvV ih =>
    unfold prefetchAll
    split
    · split
      · obtain ⟨hacts, hcontent⟩ := ih { b with cache := Cache.push b.cache ((b.kvPId kv).getD 0) kv }
        refine ⟨fun x => by simpa using hacts x, fun x hx => ?_⟩
        rcases hcontent x hx with hold | hnew
        · rcases Cache.mem_push.mp hold with hold | rfl
          · exact .inl hold
          · exact .inr List.mem_cons_self
        · exact .inr (List.mem_cons_of_mem _ hnew)
      · simpa using fun x y hx => .inl hx
    · simpa using fun x y hx => .inl hx

end Cache

/-! ## Runs -/

/-- What the cache has to say about itself for the property to be kept. -/
structure Mirrored (r : Run) : Prop where
  tracked : Tracked r
  wPrefetch : r.buffer.wPrefetch = true
  surplus : ∀ kv, surplus r.acts kv = if kv ∈ r.buffer.cache.content then 1 else 0
  nodup : r.buffer.cache.content.Nodup
  bounded : Cache.size r.buffer.cache ≤ r.buffer.maxNumKeyVer
  eAcc : ∀ kv ∈ r.buffer.cache.content, (r.buffer.cache.eAcc kv).isSome
  picked : ∀ kv ∈ r.buffer.cache.content, kv ∈ r.picked

section Frame
variable (b : State) (kv : KeyVer) (pIdV : List Int32)

theorem regKeyVer_bound (pId : Int32) : (regKeyVer b pId kv).maxNumKeyVer = b.maxNumKeyVer ∧
    (regKeyVer b pId kv).wPrefetch = b.wPrefetch := by
  unfold regKeyVer
  split
  · exact ⟨rfl, rfl⟩
  · split <;> exact ⟨rfl, rfl⟩

theorem getToPrefetchOf_bound (kvV : List KeyVer) (pId : Int32) :
    (getToPrefetchOf b kvV pId).1.maxNumKeyVer = b.maxNumKeyVer ∧
      (getToPrefetchOf b kvV pId).1.wPrefetch = b.wPrefetch := by
  unfold getToPrefetchOf
  dsimp only
  split
  · exact ⟨rfl, rfl⟩
  · split <;> exact ⟨rfl, rfl⟩

theorem getToPrefetch_bound : (getToPrefetch b pIdV).1.maxNumKeyVer = b.maxNumKeyVer ∧
    (getToPrefetch b pIdV).1.wPrefetch = b.wPrefetch := by
  have hfold : ∀ (pIdV : List Int32) (p : State × List KeyVer),
      (pIdV.foldl (fun r pId => getToPrefetchOf r.1 r.2 pId) p).1.maxNumKeyVer = p.1.maxNumKeyVer ∧
        (pIdV.foldl (fun r pId => getToPrefetchOf r.1 r.2 pId) p).1.wPrefetch = p.1.wPrefetch := by
    intro pIdV
    induction pIdV with
    | nil => exact fun p => ⟨rfl, rfl⟩
    | cons pId pIdV ih =>
      intro p
      obtain ⟨hmax, hw⟩ := getToPrefetchOf_bound p.1 p.2 pId
      rw [List.foldl_cons, (ih _).1, (ih _).2]
      exact ⟨hmax, hw⟩
  exact hfold pIdV (b, [])

/-- An access deletes, picks and asks, in this order. -/
theorem addAccessAll_eq (hkv : (b.kvPId kv).isSome) : ∃ b₁,
    b₁.cache = (del b kv).1.cache ∧ b₁.maxNumKeyVer = b.maxNumKeyVer ∧ b₁.wPrefetch = b.wPrefetch ∧
      (addAccessAll b kv pIdV).1 = (prefetchAll b₁ (addAccessAll b kv pIdV).2.1).1 ∧
      (addAccessAll b kv pIdV).2.2 = (del b kv).2 ++ (prefetchAll b₁ (addAccessAll b kv pIdV).2.1).2 := by
  have hsome : ¬(b.kvPId kv).isNone := by simpa [Option.isSome_iff_ne_none] using hkv
  obtain ⟨cache, hdel⟩ := del_cache b kv
  have hcount : countAccess (del b kv).1 kv = { countAccess b kv with cache := cache } := by
    rw [hdel]
    rfl
  have hbound := getToPrefetch_bound (countAccess (del b kv).1 kv) pIdV
  refine ⟨(getToPrefetch (countAccess (del b kv).1 kv) pIdV).1, getToPrefetch_cache _ pIdV, ?_, ?_, ?_, ?_⟩
  · rw [hbound.1, hcount]
    rfl
  · rw [hbound.2, hcount]
    rfl
  · simp only [addAccessAll, if_neg hsome]
  · simp only [addAccessAll, if_neg hsome]

end Frame

section Runs
variable {r : Run} {kv : KeyVer}

/-- What an access picks has not been picked before, so it is not cached. -/
theorem picks_new (h : Tracked r) (kv : KeyVer) (pIdV : List Int32) :
    (addAccessAll r.buffer kv pIdV).2.1.Nodup ∧ ∀ x ∈ (addAccessAll r.buffer kv pIdV).2.1, x ∉ r.picked := by
  have hnodup : (r.picked ++ (addAccessAll r.buffer kv pIdV).2.1).Nodup :=
    picked_nodup (step_tracked h (.addAccess kv pIdV))
  obtain ⟨-, hnew, hdisj⟩ := List.nodup_append.mp hnodup
  exact ⟨hnew, fun x hx hold => hdisj x hold x hx rfl⟩

theorem surplus_append (acts acts' : List Action) (kv : KeyVer) :
    surplus (acts ++ acts') kv = surplus acts kv + surplus acts' kv := by
  simp only [surplus, List.count_append]
  omega

/-- The deletion takes what is cached out of the cache, and asks for that alone. -/
theorem del_mirrored (h : Mirrored r) (kv : KeyVer) : ∃ cache,
    (del r.buffer kv).1 = { r.buffer with cache := cache } ∧ cache.content.Nodup ∧
      (cache.content.length : Int) = sizeWithout r.buffer kv ∧
      (∀ x, x ∈ cache.content ↔ x ≠ kv ∧ x ∈ r.buffer.cache.content) ∧
      (∀ x ∈ cache.content, (cache.eAcc x).isSome) ∧
      (del r.buffer kv).2 = if kv ∈ r.buffer.cache.content then [(.del, kv)] else [] := by
  by_cases hkv : kv ∈ r.buffer.cache.content
  · have hreg : (r.buffer.kvPId kv).isSome :=
      h.tracked.indexed.reged_iff.mpr (h.tracked.picked_reged kv (h.picked kv hkv))
    obtain ⟨cache, hdel, hnodup, hlen, hmem, hrest⟩ := del_cached hreg hkv (h.eAcc kv hkv) h.nodup
    refine ⟨cache, by rw [hdel], hnodup, hlen, hmem, ?_, by rw [hdel, if_pos hkv]⟩
    intro x hx
    obtain ⟨hne, hold⟩ := (hmem x).mp hx
    rw [hrest x hne]
    exact h.eAcc x hold
  · rw [del_uncached hkv, if_neg hkv]
    refine ⟨r.buffer.cache, rfl, h.nodup, by simp [sizeWithout, hkv, Cache.size], fun x => ?_, h.eAcc, rfl⟩
    exact ⟨fun hx => ⟨fun he => hkv (he ▸ hx), hx⟩, And.right⟩

theorem surplus_prefetches {kvV : List KeyVer} (hnodup : kvV.Nodup) (x : KeyVer) :
    surplus (kvV.map (.prefetch, ·)) x = if x ∈ kvV then 1 else 0 := by
  have hdel : (kvV.map fun y => (DataAct.prefetch, y)).count (.del, x) = 0 :=
    List.count_eq_zero_of_not_mem (by simp)
  have hprefetch : (kvV.map fun y => (DataAct.prefetch, y)).count (.prefetch, x) = kvV.count x :=
    List.count_map_of_injective kvV _ (fun _ _ he => (Prod.mk.inj he).2) x
  rw [surplus, hdel, hprefetch]
  by_cases hx : x ∈ kvV
  · rw [if_pos hx, List.count_eq_one_of_mem hnodup hx]
    rfl
  · rw [if_neg hx, List.count_eq_zero_of_not_mem hx]
    rfl

theorem surplus_del {c : List KeyVer} (x : KeyVer) :
    surplus (if kv ∈ c then [(.del, kv)] else []) x = if x = kv ∧ kv ∈ c then -1 else 0 := by
  by_cases hkv : kv ∈ c
  · by_cases hx : x = kv
    · simp [surplus, hkv, hx]
    · simp [surplus, hkv, hx, Ne.symm hx]
  · simp [surplus, hkv]

theorem addAccess_mirrored (h : Mirrored r) {pIdV : List Int32} (hroom : HasRoom r (.addAccess kv pIdV)) :
    Mirrored (step r (.addAccess kv pIdV)) := by
  have htracked := step_tracked h.tracked (.addAccess kv pIdV)
  by_cases hreg : (r.buffer.kvPId kv).isSome
  · have hmem := h.tracked.indexed.reged_iff.mp hreg
    obtain ⟨hnew, hfresh⟩ := picks_new h.tracked kv pIdV
    have hlen := picks_length (countAccess_indexed h.tracked.indexed _)
      (addAccessAll_spec h.tracked.indexed hreg pIdV) hnew
    obtain ⟨b₁, hcache, hmax, hw, hbuffer, hacts⟩ := addAccessAll_eq r.buffer kv pIdV hreg
    obtain ⟨cache, hdel, hnodup, hsize, hleft, hacc, hdels⟩ := del_mirrored h kv
    simp only [step] at htracked ⊢
    generalize (addAccessAll r.buffer kv pIdV).2.1 = kvV at *
    replace hcache : b₁.cache = cache := hcache.trans (by rw [hdel])
    have hroom : (b₁.cache.content.length : Int) + kvV.length ≤ b₁.maxNumKeyVer := by
      rw [hcache, hmax, hlen]
      have := hroom hmem
      omega
    have hout : ∀ x ∈ kvV, x ∉ b₁.cache.content := by
      intro x hx hold
      rw [hcache] at hold
      exact hfresh x hx (h.picked x ((hleft x).mp hold).2)
    obtain ⟨cache', hrun, hcontent, hacc'⟩ := prefetchAll_room (hw.trans h.wPrefetch) kvV hnew hout (by omega)
    rw [hrun] at hbuffer hacts
    rw [hcache] at hcontent hacc' hout hroom
    refine ⟨htracked, ?_, ?_, ?_, ?_, ?_, ?_⟩ <;> simp only [hbuffer, hacts]
    · exact hw.trans h.wPrefetch
    · intro x
      rw [surplus_append, surplus_append, hdels, surplus_del, surplus_prefetches hnew, h.surplus]
      simp only [hcontent, List.mem_append]
      have hold := hleft x
      have hx := hfresh x
      have hpicked := h.picked x
      by_cases hxk : x = kv
      · subst hxk
        by_cases hxc : x ∈ r.buffer.cache.content
        · have hxv : x ∉ kvV := fun hmem => hx hmem (hpicked hxc)
          simp [hold, hxc, hxv]
        · simp [hold, hxc]
      · by_cases hxc : x ∈ r.buffer.cache.content
        · have hxv : x ∉ kvV := fun hmem => hx hmem (hpicked hxc)
          simp [hold, hxk, hxc, hxv]
        · simp [hold, hxk, hxc]
    · rw [hcontent, List.nodup_append]
      exact ⟨hnodup, hnew, fun x hx y hy he => hout y hy (he ▸ hx)⟩
    · simp only [Cache.size, hcontent, List.length_append]
      omega
    · intro x hx
      rw [hcontent, List.mem_append] at hx
      exact hacc' x (hx.imp (hacc x) id)
    · intro x hx
      rw [hcontent, List.mem_append] at hx
      exact List.mem_append.mpr (hx.imp (fun hold => h.picked x ((hleft x).mp hold).2) id)
  · simp only [step, addAccessAll_none hreg] at htracked ⊢
    exact ⟨htracked, h.wPrefetch, by simpa using h.surplus, h.nodup, h.bounded, h.eAcc, by simpa using h.picked⟩

theorem step_mirrored (h : Mirrored r) {op : Op} (hroom : HasRoom r op) : Mirrored (step r op) := by
  cases op with
  | regKeyVer pId kv =>
    obtain ⟨hmax, hw⟩ := regKeyVer_bound r.buffer kv pId
    refine ⟨step_tracked h.tracked _, ?_, ?_, ?_, ?_, ?_, ?_⟩ <;> simp only [step, regKeyVer_cache, hmax, hw]
    · exact h.wPrefetch
    · exact h.surplus
    · exact h.nodup
    · exact h.bounded
    · exact h.eAcc
    · exact h.picked
  | addAccess kv pIdV => exact addAccess_mirrored h hroom
  | del kv =>
    obtain ⟨cache, hdel, hnodup, hsize, hleft, hacc, hdels⟩ := del_mirrored h kv
    refine ⟨step_tracked h.tracked _, ?_, ?_, ?_, ?_, ?_, ?_⟩ <;> simp only [step, hdel, hdels]
    · exact h.wPrefetch
    · intro x
      rw [surplus_append, surplus_del, h.surplus]
      simp only [hleft]
      by_cases hx : x = kv
      · subst hx
        by_cases hxc : x ∈ r.buffer.cache.content <;> simp [hxc]
      · simp [hx]
    · exact hnodup
    · have hbounded := h.bounded
      have hle : sizeWithout r.buffer kv ≤ Cache.size r.buffer.cache := by
        unfold sizeWithout
        split <;> omega
      simp only [Cache.size, hsize] at *
      omega
    · exact hacc
    · exact fun x hx => h.picked x ((hleft x).mp hx).2

/-- What is cached is deleted by its access, and not picked again. -/
theorem deleted_of_mirrored (h : Mirrored r) (hkv : kv ∈ r.buffer.cache.content) (pIdV : List Int32) :
    (addAccessAll r.buffer kv pIdV).2.2.count (.del, kv) = 1 ∧
      kv ∉ (addAccessAll r.buffer kv pIdV).1.cache.content := by
  have hreg := h.tracked.indexed.reged_iff.mpr (h.tracked.picked_reged kv (h.picked kv hkv))
  obtain ⟨-, hfresh⟩ := picks_new h.tracked kv pIdV
  obtain ⟨b₁, hcache, -, -, hbuffer, hacts⟩ := addAccessAll_eq r.buffer kv pIdV hreg
  obtain ⟨cache, hdel, -, -, hleft, -, hdels⟩ := del_mirrored h kv
  obtain ⟨hnone, honly⟩ := prefetchAll_only (addAccessAll r.buffer kv pIdV).2.1 b₁
  replace hcache : b₁.cache = cache := hcache.trans (by rw [hdel])
  constructor
  · rw [hacts, hdels, if_pos hkv, List.count_append, List.count_eq_zero_of_not_mem (hnone kv)]
    simp
  · rw [hbuffer]
    intro hx
    rcases honly kv hx with hold | hnew
    · rw [hcache] at hold
      exact ((hleft kv).mp hold).1 rfl
    · exact hfresh kv hnew (h.picked kv hkv)

/-- As long as each access finds room for what it picks, the actions issued mirror the cache. -/
theorem actions_mirror_cache {dsId : Int32} {maxNumKeyVer : Int} (hmax : 1 ≤ maxNumKeyVer)
    (hr : Transition.Reaches (fun r op => some (step r op)) HasRoom (start dsId maxNumKeyVer true) r) :
    Mirrors r := by
  have h : Mirrored r := by
    refine hr.invariant Mirrored ?_ ?_
    · refine ⟨start_tracked _ _ _, rfl, fun _ => rfl, .nil, ?_, (by rintro _ ⟨⟩), (by rintro _ ⟨⟩)⟩
      show (0 : Int) ≤ maxNumKeyVer
      omega
    · rintro u op u' hu hroom ⟨⟩
      exact step_mirrored hu hroom
  exact ⟨h.surplus, h.nodup, h.bounded, fun kv hkv pIdV => deleted_of_mirrored h hkv pIdV⟩

/-- The second step of a producer is prefetched on the access of the first. -/
theorem mirrors_second_step :
    ∃ r, Transition.Reaches (fun r op => some (step r op)) HasRoom (start 1 1 true) r ∧
      r.acts = [(.prefetch, ("u", 1))] ∧ Mirrors r := by
  obtain ⟨r, hr, htest⟩ := Transition.runWhere_reaches_of_any (fun r op => some (step r op)) HasRoom (start 1 1 true)
    [.regKeyVer 7 ("u", 0), .regKeyVer 7 ("u", 1), .addAccess ("u", 0) [7]]
    (fun r => decide (r.acts = [(.prefetch, ("u", 1))])) (by decide)
  exact ⟨r, hr, of_decide_eq_true htest, actions_mirror_cache (by decide) hr⟩

/-- With the cache full, what the next access picks is asked for and not cached, and no access will have
it deleted. -/
theorem full_cache_prefetches :
    ∃ r, Transition.Reaches (fun r op => some (step r op)) Transition.free (start 1 1 true) r ∧
      surplus r.acts ("v", 1) = 1 ∧ ("v", 1) ∉ r.buffer.cache.content ∧
      (addAccessAll r.buffer ("v", 1) []).2.2 = [] ∧ ¬Mirrors r := by
  obtain ⟨r, hr, htest⟩ := Transition.run_reaches_of_any (fun r op => some (step r op)) (start 1 1 true)
    [.regKeyVer 7 ("u", 0), .regKeyVer 7 ("u", 1), .regKeyVer 9 ("v", 0), .regKeyVer 9 ("v", 1),
      .addAccess ("u", 0) [7], .addAccess ("v", 0) [9]]
    (fun r => decide (surplus r.acts ("v", 1) = 1 ∧ ("v", 1) ∉ r.buffer.cache.content ∧
      (addAccessAll r.buffer ("v", 1) []).2.2 = [])) (by decide)
  obtain ⟨hsurplus, hgone, hacts⟩ := of_decide_eq_true htest
  refine ⟨r, hr, hsurplus, hgone, hacts, fun hm => ?_⟩
  have := hm.surplus ("v", 1)
  rw [hsurplus, if_neg hgone] at this
  omega

end Runs

end PrefetchActions
