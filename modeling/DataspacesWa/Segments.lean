import Mathlib

/-!
# Segments written at their offsets

A block is rebuilt from the segments of a text when each is written at the
total length of those before it. The cells of the block may be uninitialised.
-/
namespace Segments

variable {α : Type*}

/-- Where segment `k` begins. -/
def offset (segs : List (List α)) (k : Nat) : Nat := (segs.take k).flatten.length

/-- `memcpy(block + off, seg, seg.length)` inside the block. -/
def writeAt (block : List (Option α)) (off : Nat) (seg : List α) : List (Option α) :=
  block.take off ++ seg.map some ++ block.drop (off + seg.length)

@[simp] theorem offset_zero (segs : List (List α)) : offset segs 0 = 0 := by simp [offset]

theorem offset_succ {segs : List (List α)} {k : Nat} {seg : List α} (h : segs[k]? = some seg) :
    offset segs (k + 1) = offset segs k + seg.length := by
  simp [offset, List.take_add_one, h]

theorem offset_append {segs : List (List α)} {k : Nat} (h : k ≤ segs.length) (new : List (List α)) :
    offset (segs ++ new) k = offset segs k := by
  simp [offset, List.take_append_of_le_length h]

theorem offset_le (segs : List (List α)) (k : Nat) : offset segs k ≤ segs.flatten.length := by
  conv_rhs => rw [← List.take_append_drop k segs, List.flatten_append, List.length_append]
  exact Nat.le_add_right _ _

theorem flatten_at {segs : List (List α)} {k i : Nat} {seg : List α} (h : segs[k]? = some seg)
    (hi : i < seg.length) : segs.flatten[offset segs k + i]? = seg[i]? := by
  obtain ⟨hk, rfl⟩ := List.getElem?_eq_some_iff.mp h
  have split : segs = segs.take k ++ segs[k] :: segs.drop (k + 1) := by simp
  conv_lhs => rw [split]
  rw [List.flatten_append, offset, List.getElem?_append_right (by simp), List.flatten_cons,
    List.getElem?_append_left (by simpa using hi)]
  simp

/-- Every place of the whole text lies in one of the segments. -/
theorem covered (segs : List (List α)) {i : Nat} (hi : i < segs.flatten.length) :
    ∃ k < segs.length, offset segs k ≤ i ∧ i < offset segs (k + 1) := by
  induction segs generalizing i with
  | nil => simp at hi
  | cons seg segs ih =>
    by_cases hs : i < seg.length
    · exact ⟨0, by simp, by simp, by simpa [show offset (seg :: segs) 1 = seg.length by simp [offset]] using hs⟩
    · obtain ⟨k, hk, hlo, hhi⟩ := ih (i := i - seg.length) (by
        rw [List.flatten_cons, List.length_append] at hi
        omega)
      refine ⟨k + 1, by simpa using hk, ?_, ?_⟩ <;>
        simp only [offset, List.take_succ_cons, List.flatten_cons, List.length_append] at hlo hhi ⊢ <;>
        omega

theorem writeAt_length {block : List (Option α)} {off : Nat} {seg : List α}
    (h : off + seg.length ≤ block.length) : (writeAt block off seg).length = block.length := by
  simp [writeAt]
  omega

theorem writeAt_inside {block : List (Option α)} {off i : Nat} {seg : List α}
    (h : off + seg.length ≤ block.length) (hi : i < seg.length) :
    (writeAt block off seg)[off + i]? = some seg[i]? := by
  have hlen : (block.take off).length = off := by simp; omega
  rw [writeAt, List.append_assoc, List.getElem?_append_right (by omega),
    List.getElem?_append_left (by simp [hlen]; omega)]
  simp [hlen, hi]

theorem writeAt_outside {block : List (Option α)} {off i : Nat} {seg : List α}
    (h : off + seg.length ≤ block.length) (hi : i < off ∨ off + seg.length ≤ i) :
    (writeAt block off seg)[i]? = block[i]? := by
  have hlen : (block.take off).length = off := by simp; omega
  rw [writeAt, List.append_assoc]
  rcases hi with hi | hi
  · rw [List.getElem?_append_left (by omega), List.getElem?_take_of_lt hi]
  · rw [List.getElem?_append_right (by omega), List.getElem?_append_right (by simp [hlen]; omega),
      List.getElem?_drop]
    congr 1
    simp [hlen]
    omega

/-- The place of segment `k` in the block holds what the whole text has there. -/
def Written (block : List (Option α)) (segs : List (List α)) (k : Nat) : Prop :=
  ∀ i, offset segs k ≤ i → i < offset segs (k + 1) → block[i]? = some segs.flatten[i]?

theorem Written.append {block : List (Option α)} {segs : List (List α)} {k : Nat}
    (h : Written block segs k) (hk : k < segs.length) (seg : List α) :
    Written block (segs ++ [seg]) k := by
  intro i hlo hhi
  rw [offset_append (by omega)] at hlo hhi
  have hend : i < segs.flatten.length := Nat.lt_of_lt_of_le hhi (offset_le segs (k + 1))
  rw [h i hlo hhi, List.flatten_append, List.getElem?_append_left hend]

/-- A segment written at its own offset is in place, and spoils no other. -/
theorem written_writeAt {block : List (Option α)} {segs : List (List α)} {j k : Nat} {seg : List α}
    (hj : segs[j]? = some seg) (hroom : offset segs j + seg.length ≤ block.length)
    (h : k = j ∨ Written block segs k) : Written (writeAt block (offset segs j) seg) segs k := by
  intro i hlo hhi
  by_cases hin : offset segs j ≤ i ∧ i < offset segs j + seg.length
  · obtain ⟨d, rfl⟩ := Nat.exists_eq_add_of_le hin.1
    have hd : d < seg.length := by omega
    rw [writeAt_inside hroom hd, flatten_at hj hd]
  · rw [writeAt_outside hroom (by omega)]
    rcases h with rfl | h
    · rw [offset_succ hj] at hhi
      exact absurd ⟨hlo, hhi⟩ hin
    · exact h i hlo hhi

/-- A block of the right size whose segments are all in place is the text. -/
theorem eq_of_written {block : List (Option α)} {segs : List (List α)}
    (hlen : block.length = segs.flatten.length) (h : ∀ k < segs.length, Written block segs k) :
    block = segs.flatten.map some := by
  apply List.ext_getElem?
  intro i
  by_cases hi : i < segs.flatten.length
  · obtain ⟨k, hk, hlo, hhi⟩ := covered segs hi
    rw [h k hk i hlo hhi, List.getElem?_map, List.getElem?_eq_getElem hi]
    rfl
  · rw [List.getElem?_eq_none (by omega), List.getElem?_eq_none (by rw [List.length_map]; omega)]

end Segments
