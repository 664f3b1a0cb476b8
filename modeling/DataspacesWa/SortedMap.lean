import Mathlib

/-!
# Maps sorted by their keys

A map as the list of its entries in the order of their keys, each key once. The
entries can be gone through in that order, and two maps with the same values
are the same.
-/

structure SortedMap (K V : Type*) [LinearOrder K] where
  entries : List (K × V)
  sorted : entries.Pairwise fun e e' => e.1 < e'.1

namespace SortedMap

variable {K V : Type*} [LinearOrder K]

instance [DecidableEq V] (m m' : SortedMap K V) : Decidable (m = m') :=
  decidable_of_iff (m.entries = m'.entries) ⟨fun h => by cases m; cases m'; subst h; rfl, fun h => h ▸ rfl⟩

def empty : SortedMap K V := ⟨[], .nil⟩

/-! ## Lists of entries -/

def lookup (k : K) : List (K × V) → Option V
  | [] => none
  | (k', v) :: entries => if k = k' then some v else lookup k entries

def insertEntry (k : K) (v : V) : List (K × V) → List (K × V)
  | [] => [(k, v)]
  | (k', v') :: entries =>
    if k < k' then (k, v) :: (k', v') :: entries
    else if k = k' then (k, v) :: entries
    else (k', v') :: insertEntry k v entries

theorem lookup_eq_none {k : K} {entries : List (K × V)} (h : ∀ e ∈ entries, k < e.1) : lookup k entries = none := by
  induction entries with
  | nil => rfl
  | cons e entries ih =>
    rw [lookup, if_neg (ne_of_lt (h e List.mem_cons_self))]
    exact ih fun e he => h e (List.mem_cons_of_mem _ he)

theorem lookup_insertEntry (k k' : K) (v : V) (entries : List (K × V)) :
    lookup k' (insertEntry k v entries) = if k' = k then some v else lookup k' entries := by
  induction entries with
  | nil => simp [insertEntry, lookup]
  | cons e entries ih =>
    unfold insertEntry
    split
    · rfl
    · split
      · rename_i he
        subst he
        by_cases hk : k' = e.1 <;> simp [lookup, hk]
      · rename_i hlt hne
        rw [lookup, ih, lookup]
        by_cases hk : k' = e.1
        · subst hk
          simp [Ne.symm hne]
        · simp [hk]

theorem mem_insertEntry {k : K} {v : V} {entries : List (K × V)} {e : K × V} (h : e ∈ insertEntry k v entries) :
    e = (k, v) ∨ e ∈ entries := by
  induction entries with
  | nil => simpa [insertEntry] using h
  | cons e' entries ih =>
    unfold insertEntry at h
    split at h
    · simpa using h
    · split at h
      · rcases List.mem_cons.mp h with rfl | h
        · exact .inl rfl
        · exact .inr (List.mem_cons_of_mem _ h)
      · rcases List.mem_cons.mp h with rfl | h
        · exact .inr List.mem_cons_self
        · exact (ih h).imp id (List.mem_cons_of_mem _)

theorem insertEntry_sorted (k : K) (v : V) {entries : List (K × V)}
    (h : entries.Pairwise fun e e' => e.1 < e'.1) : (insertEntry k v entries).Pairwise fun e e' => e.1 < e'.1 := by
  induction entries with
  | nil => simp [insertEntry]
  | cons e entries ih =>
    obtain ⟨hfirst, hrest⟩ := List.pairwise_cons.mp h
    unfold insertEntry
    split
    · rename_i hlt
      refine List.pairwise_cons.mpr ⟨fun e' he' => ?_, h⟩
      rcases List.mem_cons.mp he' with rfl | he'
      · exact hlt
      · exact lt_trans hlt (hfirst e' he')
    · split
      · rename_i heq
        exact List.pairwise_cons.mpr ⟨fun e' he' => heq ▸ hfirst e' he', hrest⟩
      · rename_i hlt hne
        refine List.pairwise_cons.mpr ⟨fun e' he' => ?_, ih hrest⟩
        rcases mem_insertEntry he' with rfl | he'
        · exact lt_of_le_of_ne (not_lt.mp hlt) (Ne.symm hne)
        · exact hfirst e' he'

theorem lookup_filter (k k' : K) (entries : List (K × V)) :
    lookup k' (entries.filter fun e => e.1 ≠ k) = if k' = k then none else lookup k' entries := by
  induction entries with
  | nil => simp [lookup]
  | cons e entries ih =>
    rw [List.filter_cons]
    by_cases hk : e.1 = k
    · rw [if_neg (by simpa using hk), ih, lookup, hk]
      by_cases hk' : k' = k <;> simp [hk']
    · rw [if_pos (by simpa using hk), lookup, ih, lookup]
      by_cases hk' : k' = e.1
      · rw [if_pos hk', if_pos hk', if_neg fun heq => hk (hk'.symm.trans heq)]
      · rw [if_neg hk', if_neg hk']

/-- The entries are what a lookup finds. -/
theorem mem_iff_lookup {k : K} {v : V} {entries : List (K × V)} (h : entries.Pairwise fun e e' => e.1 < e'.1) :
    (k, v) ∈ entries ↔ lookup k entries = some v := by
  induction entries with
  | nil => simp [lookup]
  | cons e entries ih =>
    obtain ⟨hfirst, hrest⟩ := List.pairwise_cons.mp h
    rw [List.mem_cons, ih hrest, lookup]
    by_cases hk : k = e.1
    · subst hk
      rw [if_pos rfl, lookup_eq_none hfirst]
      simp [Prod.ext_iff, eq_comm]
    · simp [hk, Prod.ext_iff]

/-! ## The operations -/

def get? (m : SortedMap K V) (k : K) : Option V := lookup k m.entries

def contains (m : SortedMap K V) (k : K) : Bool := (m.get? k).isSome

def insert (m : SortedMap K V) (k : K) (v : V) : SortedMap K V :=
  ⟨insertEntry k v m.entries, insertEntry_sorted k v m.sorted⟩

def erase (m : SortedMap K V) (k : K) : SortedMap K V :=
  ⟨m.entries.filter fun e => e.1 ≠ k, m.sorted.filter _⟩

@[simp] theorem get?_empty (k : K) : (empty : SortedMap K V).get? k = none := rfl

theorem get?_insert (m : SortedMap K V) (k k' : K) (v : V) :
    (m.insert k v).get? k' = if k' = k then some v else m.get? k' :=
  lookup_insertEntry k k' v m.entries

@[simp] theorem get?_insert_self (m : SortedMap K V) (k : K) (v : V) : (m.insert k v).get? k = some v := by
  rw [get?_insert, if_pos rfl]

theorem get?_insert_ne (m : SortedMap K V) {k k' : K} (v : V) (h : k' ≠ k) :
    (m.insert k v).get? k' = m.get? k' := by
  rw [get?_insert, if_neg h]

theorem get?_erase (m : SortedMap K V) (k k' : K) :
    (m.erase k).get? k' = if k' = k then none else m.get? k' :=
  lookup_filter k k' m.entries

theorem contains_insert {m : SortedMap K V} {k k' : K} {v : V} :
    (m.insert k v).contains k' = true ↔ k' = k ∨ m.contains k' = true := by
  rw [contains, get?_insert]
  split
  next heq => simp [heq]
  next hne => simp [hne, contains]

theorem contains_erase {m : SortedMap K V} {k k' : K} :
    (m.erase k).contains k' = true ↔ k' ≠ k ∧ m.contains k' = true := by
  rw [contains, get?_erase]
  split
  next heq => simp [heq]
  next hne => simp [hne, contains]

theorem keys_nodup (m : SortedMap K V) : (m.entries.map (·.1)).Nodup :=
  List.pairwise_map.mpr (m.sorted.imp fun h => ne_of_lt h)

theorem mem_entries {m : SortedMap K V} {k : K} {v : V} : (k, v) ∈ m.entries ↔ m.get? k = some v :=
  mem_iff_lookup m.sorted

theorem contains_iff {m : SortedMap K V} {k : K} : m.contains k = true ↔ k ∈ m.entries.map (·.1) := by
  rw [contains, Option.isSome_iff_exists, List.mem_map]
  constructor
  · rintro ⟨v, hv⟩
    exact ⟨(k, v), mem_entries.mpr hv, rfl⟩
  · rintro ⟨⟨k', v⟩, hmem, rfl⟩
    exact ⟨v, mem_entries.mp hmem⟩

/-! ## Building a map entry by entry -/

/-- An entry after all the others goes to the end. -/
theorem insertEntry_last {k : K} {v : V} {entries : List (K × V)} (h : ∀ e ∈ entries, e.1 < k) :
    insertEntry k v entries = entries ++ [(k, v)] := by
  induction entries with
  | nil => rfl
  | cons e entries ih =>
    have hlt := h e List.mem_cons_self
    rw [insertEntry, if_neg (not_lt_of_gt hlt), if_neg (ne_of_gt hlt), ih fun e he => h e (List.mem_cons_of_mem _ he)]
    rfl

def insertAll (m : SortedMap K V) (entries : List (K × V)) : SortedMap K V :=
  entries.foldl (fun m e => m.insert e.1 e.2) m

theorem insertAll_entries (m : SortedMap K V) (after : List (K × V))
    (h : (m.entries ++ after).Pairwise fun e e' => e.1 < e'.1) : (m.insertAll after).entries = m.entries ++ after := by
  induction after generalizing m with
  | nil => simp [insertAll]
  | cons e after ih =>
    have hlast : (m.insert e.1 e.2).entries = m.entries ++ [e] :=
      insertEntry_last fun e' he' => (List.pairwise_append.mp h).2.2 e' he' e List.mem_cons_self
    have hnext := ih (m.insert e.1 e.2) (by rwa [hlast, List.append_assoc])
    rw [hlast, List.append_assoc] at hnext
    exact hnext

theorem contains_insertAll {m : SortedMap K V} {entries : List (K × V)} {k : K} :
    (m.insertAll entries).contains k = true ↔ m.contains k = true ∨ k ∈ entries.map (·.1) := by
  induction entries generalizing m with
  | nil => simp [insertAll]
  | cons e entries ih =>
    have hstep := ih (m := m.insert e.1 e.2)
    rw [contains_insert] at hstep
    rw [List.map_cons, List.mem_cons]
    exact hstep.trans (by tauto)

/-- A map is what its entries build. -/
theorem insertAll_self (m : SortedMap K V) : empty.insertAll m.entries = m := by
  have h : (empty.insertAll m.entries).entries = m.entries := insertAll_entries empty m.entries m.sorted
  cases m
  cases hm : (empty : SortedMap K V).insertAll _
  simp_all

end SortedMap
