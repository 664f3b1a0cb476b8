import Mathlib

/-!
# The prefetch cache

`Cache<ACC_T, T>`: a queue of elements, each with the access it was pushed
for. `del` calls its handler before it takes the element out, and the handler
runs for as long as it likes; the two halves are given separately, `contains`
before the call and `del` after it.
-/
namespace Cache

open Function (update)

structure State (A T : Type*) where
  maxSize : Int
  content : List T
  eAcc : T → Option A
  accNum : A → Int

def empty {A T : Type*} (maxSize : Int) : State A T := ⟨maxSize, [], fun _ => none, fun _ => 0⟩

variable {A T : Type*} [DecidableEq A] [DecidableEq T]

def contains (c : State A T) (e : T) : Bool := c.content.contains e

def size (c : State A T) : Int := c.content.length

/-- `push` where there is room, which its only caller makes sure of; what is
there already is not pushed again. -/
def push (c : State A T) (acc : A) (e : T) : State A T :=
  if contains c e then c
  else { c with
    content := c.content ++ [e]
    eAcc := update c.eAcc e (some acc)
    accNum := update c.accNum acc (c.accNum acc + 1) }

/-- `del` from the return of its handler on. Erasing what has gone in the
meantime is undefined. -/
def del (c : State A T) (acc : A) (e : T) : Option (State A T) :=
  if contains c e && (c.eAcc e).isSome then
    some { c with
      content := c.content.erase e
      eAcc := update c.eAcc e none
      accNum := update c.accNum acc (c.accNum acc - 1) }
  else none

omit [DecidableEq A] in
theorem contains_iff {c : State A T} {e : T} : contains c e = true ↔ e ∈ c.content := by
  simp [contains]

theorem mem_push {c : State A T} {acc : A} {e x : T} :
    x ∈ (push c acc e).content ↔ x ∈ c.content ∨ x = e := by
  unfold push
  split
  · rename_i he
    rw [contains_iff] at he
    refine ⟨.inl, ?_⟩
    rintro (hx | rfl)
    · exact hx
    · exact he
  · simp

/-- Deleting takes elements out only. -/
theorem mem_of_mem_del {c c' : State A T} {acc : A} {e x : T} (h : del c acc e = some c')
    (hx : x ∈ c'.content) : x ∈ c.content := by
  simp only [del, Option.ite_none_right_eq_some, Option.some.injEq] at h
  obtain ⟨-, rfl⟩ := h
  exact List.mem_of_mem_erase hx

/-- One that is not there twice is gone once deleted, and the others stay as they are. -/
theorem del_nodup {c : State A T} (acc : A) {e : T} (he : e ∈ c.content) (hacc : (c.eAcc e).isSome)
    (hnodup : c.content.Nodup) : ∃ c', del c acc e = some c' ∧ c'.content.Nodup ∧
      c'.content.length + 1 = c.content.length ∧ (∀ x, x ∈ c'.content ↔ x ≠ e ∧ x ∈ c.content) ∧
      ∀ x, x ≠ e → c'.eAcc x = c.eAcc x := by
  have hhere : contains c e = true := contains_iff.mpr he
  refine ⟨_, by rw [del, if_pos (by simp [hhere, hacc])], hnodup.erase e, ?_, fun x => hnodup.mem_erase_iff,
    fun x hx => Function.update_of_ne hx _ _⟩
  have hpos := List.length_pos_of_mem he
  rw [List.length_erase_of_mem he]
  omega

end Cache
