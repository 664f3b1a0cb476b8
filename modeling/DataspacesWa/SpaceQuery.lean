import DataspacesWa.SpaceRuns

/-!
# What a query of the directory reports

The DSs whose own list or whose prefetch cache holds a key-version, in the
order of registration, for what has been put and not deleted since. `contains`
takes the id of a DS and the character `'*'` by one argument, and `put` takes
−1 for no DS, so these two ids must not be those of a DS.
-/
namespace SpaceQuery

open Patch (Datum)
open MPBuffer (KeyVer)
open MWASpace SpaceRuns

/-- The list or the cache of the DS holds the key-version. -/
def holds (w : State) (x : Int32) (kv : KeyVer) : Bool := ownKv w x kv || cached w x kv

/-- What a query reports and what a put refuses. -/
structure Exact (r : Run) : Prop where
  put : ∀ d, kvOf d ∈ r.puts → query r.space d = some (r.reged.filter (holds r.space · (kvOf d)))
  notPut : ∀ d, kvOf d ∉ r.puts → query r.space d = none
  refused : ∀ pId d, ∀ x ∈ r.reged, (putTo r.space pId d x).map (·.2) = some (!holds r.space x (kvOf d))

/-- The DSs have ids of their own, unknown data is put without the id of a DS, and what is deleted has been put
once and is held by the DS. -/
def Plain (r : Run) : Op → Prop
  | .regDs x => x ≠ allDs ∧ x ≠ -1
  | .put _ d x => x = -1 ∨ contains r.space x (kvOf d) = true ∨ kvOf d ∈ r.space.kvV
  | .del d x => kvOf d ∈ r.space.kvV →
    r.space.kvV.count (kvOf d) = 1 ∧ ownKv r.space x (kvOf d) = true
  | _ => True

instance (r : Run) (op : Op) : Decidable (Plain r op) :=
  match op with
  | .regDs x => inferInstanceAs (Decidable (x ≠ allDs ∧ x ≠ -1))
  | .put _ d x =>
    inferInstanceAs (Decidable (x = -1 ∨ contains r.space x (kvOf d) = true ∨ kvOf d ∈ r.space.kvV))
  | .del d x => inferInstanceAs (Decidable (kvOf d ∈ r.space.kvV →
      r.space.kvV.count (kvOf d) = 1 ∧ ownKv r.space x (kvOf d) = true))
  | .regApp _ _ => .isTrue trivial
  | .addAccess _ _ _ => .isTrue trivial

/-- The list of the space is what has been put, and that of the DSs what has been registered. -/
structure Follows (r : Run) : Prop where
  puts : ∀ kv, kv ∈ r.space.kvV ↔ kv ∈ r.puts
  reged : r.space.dsIdV = r.reged
  ids : allDs ∉ r.reged ∧ (-1 : Int32) ∉ r.reged

section Follows
variable {withCb : Bool} {r r' : Run}

theorem start_follows (maxNumKeyVer : Int) (wPrefetch : Bool) : Follows (start maxNumKeyVer wPrefetch) := by
  constructor <;> simp [start, empty]

theorem regDs_dsIdV (w : State) (x : Int32) :
    (regDs w x).dsIdV = if x ∈ w.dsIdV then w.dsIdV else w.dsIdV ++ [x] := by
  unfold regDs
  split <;> rfl

/-- What is listed once is not listed once it is erased. -/
theorem mem_erase_once {kvV : List KeyVer} {kv : KeyVer} (h : kvV.count kv = 1) (a : KeyVer) :
    a ∈ kvV.erase kv ↔ a ∈ kvV ∧ a ≠ kv := by
  by_cases ha : a = kv
  · subst ha
    have hzero : (kvV.erase a).count a = 0 := by rw [List.count_erase_self, h]
    simpa using List.count_eq_zero.mp hzero
  · simp [List.mem_erase_of_ne ha, ha]

theorem step_follows {op : Op} (h : Follows r) (hop : Plain r op) (hs : step withCb r op = some r') :
    Follows r' := by
  cases op with
  | regDs x =>
    obtain rfl := Option.some.inj hs
    obtain ⟨hall, hnone⟩ := hop
    refine ⟨fun kv => by rw [regDs_kvV]; exact h.puts kv, ?_, ?_⟩
    · simp only [regDs_dsIdV, h.reged]
    · show allDs ∉ (if x ∈ r.reged then r.reged else r.reged ++ [x]) ∧
        (-1 : Int32) ∉ (if x ∈ r.reged then r.reged else r.reged ++ [x])
      split
      · exact h.ids
      · simp only [List.mem_append, List.mem_singleton, not_or]
        exact ⟨⟨h.ids.1, Ne.symm hall⟩, h.ids.2, Ne.symm hnone⟩
  | regApp p x =>
    obtain rfl := Option.some.inj hs
    have hsame : ((regApp r.space p x).getD r.space).kvV = r.space.kvV ∧
        ((regApp r.space p x).getD r.space).dsIdV = r.space.dsIdV := by
      unfold regApp
      split <;> exact ⟨rfl, rfl⟩
    exact ⟨fun kv => by rw [hsame.1]; exact h.puts kv, hsame.2.trans h.reged, h.ids⟩
  | put p d x =>
    simp only [step, Option.map_eq_some_iff] at hs
    obtain ⟨⟨w', done⟩, hput, rfl⟩ := hs
    rcases putTo_cases hput with ⟨rfl, rfl, -⟩ | ⟨rfl, -, y, -, hpush⟩ | ⟨rfl, hx, hnot, hpush⟩
    · exact h
    · have hkvV : w'.kvV = r.space.kvV ++ [kvOf d] := hpush.kvV
      refine ⟨fun kv => ?_, hpush.dsIdV.trans h.reged, h.ids⟩
      rw [hkvV, List.mem_append, List.mem_singleton, h.puts]
      simp [or_comm]
    · have hkv : kvOf d ∈ r.space.kvV := by
        rcases hop with rfl | hhere | hkv
        · exact absurd rfl hx
        · rw [hnot] at hhere
          cases hhere
        · exact hkv
      refine ⟨fun kv => ?_, hpush.dsIdV.trans h.reged, h.ids⟩
      rw [hpush.kvV, h.puts, if_pos rfl, List.mem_cons, or_iff_right_of_imp]
      rintro rfl
      exact (h.puts _).mp hkv
  | addAccess c d predicted =>
    simp only [step, Option.map_eq_some_iff] at hs
    obtain ⟨w', hacc, rfl⟩ := hs
    have hacced := addAccess_acced hacc
    exact ⟨fun kv => by rw [hacced.kvV]; exact h.puts kv, hacced.dsIdV.trans h.reged, h.ids⟩
  | del d x =>
    simp only [step, Option.map_eq_some_iff] at hs
    obtain ⟨⟨w', done⟩, hdel, rfl⟩ := hs
    rcases del_cases hdel with ⟨-, rfl, rfl⟩ | ⟨hkv, rfl, hdeled⟩
    · exact h
    · refine ⟨fun kv => ?_, hdeled.dsIdV.trans h.reged, h.ids⟩
      rw [hdeled.kvV, mem_erase_once (hop hkv).1, h.puts]
      simp

/-- Away from the two reserved ids the lookup is the one of a DS. -/
theorem contains_holds (h : Follows r) {x : Int32} (hx : x ∈ r.reged) (kv : KeyVer) :
    contains r.space x kv = holds r.space x kv := by
  have hne : x ≠ allDs := fun he => h.ids.1 (he ▸ hx)
  rw [contains, if_neg hne, holds]

theorem exact_of_follows (h : Follows r) : Exact r := by
  refine ⟨?_, ?_, ?_⟩
  · intro d hd
    have hall : contains r.space allDs (kvOf d) = true := by
      rw [contains, if_pos rfl]
      simpa using (h.puts _).mpr hd
    rw [query, if_pos hall, h.reged]
    exact congrArg some (List.filter_congr fun x hx => contains_holds h hx _)
  · intro d hd
    have hnone : ¬(query r.space d).isSome := by rwa [query_isSome, h.puts]
    simpa using hnone
  · intro p d x hx
    have hne : x ≠ -1 := fun he => h.ids.2 (he ▸ hx)
    rw [putTo, if_neg hne, contains_holds h hx]
    cases hhold : holds r.space x (kvOf d) with
    | true => rfl
    | false =>
      have hsome : (pushKv r.space x (kvOf d)).isSome := pushKv_isSome (h.reged.symm ▸ hx)
      obtain ⟨w', hpush⟩ := Option.isSome_iff_exists.mp hsome
      simp [hpush]

/-- As long as the operations are plain, queries and puts answer by what the DSs hold. -/
theorem plain_queries_exact {maxNumKeyVer : Int} {wPrefetch : Bool}
    (hr : Transition.Reaches (step withCb) Plain (start maxNumKeyVer wPrefetch) r) : Exact r := by
  have h : Follows r :=
    hr.invariant Follows (start_follows _ _) fun _ _ _ hu hop hs => step_follows hu hop hs
  exact exact_of_follows h

/-- One DS has put the data and one has prefetched it. -/
theorem prefetched_reported :
    ∃ r, Transition.Reaches (step true) Plain (start 1 true) r ∧
      query r.space (cell "v") = some [1, 2] ∧ ownKv r.space 2 (kvOf (cell "v")) = false ∧ Exact r := by
  obtain ⟨r, hr, htest⟩ := Transition.runWhere_reaches_of_any (step true) Plain (start 1 true)
    [.regDs 1, .regDs 2, .regApp 7 1, .regApp 8 2, .put 7 (cell "u") (-1), .put 7 (cell "v") (-1),
      .addAccess 8 (cell "u") [7]]
    (fun r => decide (query r.space (cell "v") = some [1, 2] ∧ ownKv r.space 2 (kvOf (cell "v")) = false)) (by decide)
  obtain ⟨hq, hown⟩ := of_decide_eq_true htest
  exact ⟨r, hr, hq, hown, plain_queries_exact hr⟩

/-- Data put for the first time with the id of a DS is not found, data put twice is found once deleted, and a
DS whose id is that of the whole space is reported for what it does not hold. -/
theorem queries_inexact :
    (∃ r, Transition.Reaches (step true) Transition.free (start 1 true) r ∧
      kvOf (cell "u") ∈ r.puts ∧ query r.space (cell "u") = none ∧ ¬Exact r) ∧
    (∃ r, Transition.Reaches (step true) Transition.free (start 1 true) r ∧
      kvOf (cell "u") ∉ r.puts ∧ query r.space (cell "u") = some [1] ∧ ¬Exact r) ∧
    (∃ r, Transition.Reaches (step true) Transition.free (start 1 true) r ∧
      query r.space (cell "u") = some [1, 42] ∧ holds r.space 42 (kvOf (cell "u")) = false ∧ ¬Exact r) := by
  refine ⟨?_, ?_, ?_⟩
  · obtain ⟨r, hr, htest⟩ := Transition.run_reaches_of_any (step true) (start 1 true)
      [.regDs 1, .put 7 (cell "u") 1]
      (fun r => decide (kvOf (cell "u") ∈ r.puts ∧ (query r.space (cell "u")) = none)) (by decide)
    obtain ⟨hput, hq⟩ := of_decide_eq_true htest
    refine ⟨r, hr, hput, hq, fun h => ?_⟩
    rw [h.put _ hput] at hq
    cases hq
  · obtain ⟨r, hr, htest⟩ := Transition.run_reaches_of_any (step true) (start 1 true)
      [.regDs 1, .regApp 7 1, .put 7 (cell "u") (-1), .put 7 (cell "u") (-1), .del (cell "u") 1]
      (fun r => decide (kvOf (cell "u") ∉ r.puts ∧ query r.space (cell "u") = some [1])) (by decide)
    obtain ⟨hput, hq⟩ := of_decide_eq_true htest
    refine ⟨r, hr, hput, hq, fun h => ?_⟩
    rw [h.notPut _ hput] at hq
    cases hq
  · obtain ⟨r, hr, htest⟩ := Transition.run_reaches_of_any (step true) (start 1 true)
      [.regDs 1, .regDs 42, .regApp 7 1, .put 7 (cell "u") (-1)]
      (fun r => decide (query r.space (cell "u") = some [1, 42] ∧ holds r.space 42 (kvOf (cell "u")) = false ∧
        kvOf (cell "u") ∈ r.puts)) (by decide)
    obtain ⟨hq, hhold, hput⟩ := of_decide_eq_true htest
    refine ⟨r, hr, hq, hhold, fun h => ?_⟩
    have hlist := h.put _ hput
    rw [hq, Option.some.injEq] at hlist
    have hmem : (42 : Int32) ∈ r.reged.filter (holds r.space · (kvOf (cell "u"))) := hlist ▸ by decide
    rw [List.mem_filter, hhold] at hmem
    cases hmem.2

end Follows

end SpaceQuery
