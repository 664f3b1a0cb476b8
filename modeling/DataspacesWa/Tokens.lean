import Mathlib

/-!
# Tokens

Text is cut at a separator, and what is empty is dropped. Several token streams
are then read in step, round by round, and each token is converted as it is
read; reading goes wrong at a token that does not convert, or past the end of
a stream.
-/
namespace Tokens

variable {α β τ : Type*}

section Tokens
variable [DecidableEq α]

/-- The longest runs without a separator. -/
def tokens (sep : α) (l : List α) : List (List α) := (l.splitOn sep).filter (· ≠ [])

/-- Tokens joined by the separator are found again. -/
theorem tokens_intercalate {sep : α} {ls : List (List α)} (h : ∀ l ∈ ls, sep ∉ l ∧ l ≠ []) :
    tokens sep ([sep].intercalate ls) = ls := by
  cases ls with
  | nil => simp [tokens]
  | cons l ls =>
    rw [tokens, List.splitOn_intercalate sep (fun l hl => (h l hl).1) (List.cons_ne_nil l ls), List.filter_eq_self]
    intro l hl
    exact decide_eq_true (h l hl).2

end Tokens

/-! ## Reading in step -/

/-- `pastEnd` is undefined in a language whose iterators are not checked. -/
inductive Outcome (β : Type*) where
  | ok : β → Outcome β
  | err
  | pastEnd
  deriving DecidableEq, Repr

namespace Outcome
variable {γ : Type*}

def bind (o : Outcome β) (f : β → Outcome γ) : Outcome γ :=
  match o with
  | ok b => f b
  | err => err
  | pastEnd => pastEnd

/-- A sequence of reads comes to its result where none of them is bad, and stops at the first that is. -/
def of (result : β) : Option (Option τ) → Outcome β
  | none => ok result
  | some none => pastEnd
  | some (some _) => err

/-- A bad read ends it all. -/
theorem of_bad (b : β) (c : γ) (f : β → Outcome γ) (t : Option τ) : (of b (some t)).bind f = of c (some t) := by
  cases t <;> rfl

end Outcome

section Reading
variable (cast : τ → Option β)

/-- One round: the next token of each stream. -/
def readRow : List (List τ) → Outcome (List β × List (List τ))
  | [] => .ok ([], [])
  | [] :: _ => .pastEnd
  | (t :: s) :: streams =>
    match cast t with
    | none => .err
    | some b => (readRow streams).bind fun r => .ok (b :: r.1, s :: r.2)

/-- `n` rounds, with what is read from each stream. -/
def readRows : Nat → List (List τ) → Outcome (List (List β))
  | 0, streams => .ok (streams.map fun _ => [])
  | n + 1, streams => (readRow cast streams).bind fun r =>
    (readRows n r.2).bind fun columns => .ok (List.zipWith List.cons r.1 columns)

/-- What is read in `n` rounds, in order. -/
def reads : Nat → List (List τ) → List (Option τ)
  | 0, _ => []
  | n + 1, streams => streams.map List.head? ++ reads n (streams.map List.tail)

/-- A read past the end, or of a token that does not convert. -/
def bad (t : Option τ) : Bool := (t.bind cast).isNone

def firstBad (n : Nat) (streams : List (List τ)) : Option (Option τ) := (reads n streams).find? (bad cast)

theorem readRow_eq (streams : List (List τ)) : readRow cast streams =
    .of (streams.filterMap fun s => s.head?.bind cast, streams.map List.tail)
      ((streams.map List.head?).find? (bad cast)) := by
  induction streams with
  | nil => rfl
  | cons s streams ih =>
    cases s with
    | nil => rfl
    | cons t s =>
      cases ht : cast t with
      | none => simp [readRow, ht, bad, Outcome.of]
      | some b =>
        have hgood : bad cast (some t) = false := by simp [bad, ht]
        simp only [readRow, ht, ih, List.map_cons, List.head?_cons, List.find?_cons, hgood, List.filterMap_cons,
          Option.bind_some, List.tail_cons]
        cases (streams.map List.head?).find? (bad cast) with
        | none => rfl
        | some t => exact Outcome.of_bad _ _ _ t

/-- The first column entries put on top of the rest of each column. -/
theorem zipWith_columns (n : Nat) {streams : List (List τ)} (h : (streams.map List.head?).find? (bad cast) = none) :
    List.zipWith List.cons (streams.filterMap fun s => s.head?.bind cast)
      ((streams.map List.tail).map fun s => (s.take n).filterMap cast) =
    streams.map fun s => (s.take (n + 1)).filterMap cast := by
  induction streams with
  | nil => rfl
  | cons s streams ih =>
    rw [List.map_cons, List.find?_cons] at h
    cases s with
    | nil => simp [bad] at h
    | cons t s =>
      cases ht : cast t with
      | none => simp [bad, ht] at h
      | some b =>
        have hrest : (streams.map List.head?).find? (bad cast) = none := by simpa [bad, ht] using h
        simp [ht, ← ih hrest]

/-- What reading comes to: the first bad read decides, and without one each stream gives its first `n` tokens. -/
theorem readRows_eq (n : Nat) (streams : List (List τ)) :
    readRows cast n streams = .of (streams.map fun s => (s.take n).filterMap cast) (firstBad cast n streams) := by
  induction n generalizing streams with
  | zero => simp [readRows, firstBad, reads, Outcome.of]
  | succ n ih =>
    have hfirst : firstBad cast (n + 1) streams =
        ((streams.map List.head?).find? (bad cast)).or (firstBad cast n (streams.map List.tail)) := List.find?_append
    rw [readRows, readRow_eq, hfirst]
    cases hrow : (streams.map List.head?).find? (bad cast) with
    | some t => exact Outcome.of_bad _ _ _ t
    | none =>
      show (readRows cast n (streams.map List.tail)).bind _ = _
      rw [ih, Option.none_or]
      cases firstBad cast n (streams.map List.tail) with
      | some t => exact Outcome.of_bad _ _ _ t
      | none => exact congrArg Outcome.ok (zipWith_columns cast n hrow)

/-- No read is bad where each stream has `n` tokens to convert. -/
theorem firstBad_eq_none {n : Nat} {streams : List (List τ)} :
    firstBad cast n streams = none ↔ ∀ s ∈ streams, n ≤ s.length ∧ ∀ t ∈ s.take n, (cast t).isSome := by
  induction n generalizing streams with
  | zero => simp [firstBad, reads]
  | succ n ih =>
    have hfirst : firstBad cast (n + 1) streams =
        ((streams.map List.head?).find? (bad cast)).or (firstBad cast n (streams.map List.tail)) := List.find?_append
    rw [hfirst, Option.or_eq_none_iff, ih, List.find?_eq_none]
    simp only [List.mem_map, forall_exists_index, and_imp, forall_apply_eq_imp_iff₂]
    rw [← forall₂_and]
    refine forall₂_congr fun s _ => ?_
    cases s with
    | nil => simp [bad]
    | cons t s => cases ht : cast t <;> simp [bad, ht]

/-- A read past the end is one of a stream with fewer tokens. -/
theorem short_of_pastEnd {n : Nat} {streams : List (List τ)} (h : firstBad cast n streams = some none) :
    ∃ s ∈ streams, s.length < n := by
  have hmem : none ∈ reads n streams := List.mem_of_find?_eq_some h
  clear h
  induction n generalizing streams with
  | zero => cases hmem
  | succ n ih =>
    cases List.mem_append.mp hmem with
    | inl hrow =>
      obtain ⟨s, hs, hnone⟩ := List.mem_map.mp hrow
      refine ⟨s, hs, ?_⟩
      rw [List.head?_eq_none_iff.mp hnone]
      exact Nat.succ_pos n
    | inr hrest =>
      obtain ⟨s', hs', hlen⟩ := ih hrest
      obtain ⟨s, hs, rfl⟩ := List.mem_map.mp hs'
      refine ⟨s, hs, ?_⟩
      rw [List.length_tail] at hlen
      omega

end Reading

end Tokens
