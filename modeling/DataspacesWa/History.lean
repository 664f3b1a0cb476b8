import Mathlib

/-!
# Histories

A log lists what has happened in the order in which it happened, and only
grows. What an event needs to have before it is a predicate on the log up to
the event; where more events do not take it away, it is enough to look at each
event when it is added.
-/
namespace History

variable {ε : Type*} {needs : List ε → ε → Prop} {log new : List ε}

/-- Each event of the log has what it needs before it. -/
def Along (needs : List ε → ε → Prop) (log : List ε) : Prop :=
  ∀ pre e post, log = pre ++ e :: post → needs pre e

theorem along_nil : Along needs [] := by
  intro pre e post h
  simp at h

theorem Along.append (h : Along needs log) (grows : ∀ pre more e, needs pre e → needs (pre ++ more) e)
    (hnew : ∀ e ∈ new, needs log e) : Along needs (log ++ new) := by
  intro pre e post hsplit
  rcases List.append_eq_append_iff.mp hsplit with ⟨more, rfl, hpost⟩ | ⟨mid, hpre, hpost⟩
  · exact grows log more e (hnew e (by simp [hpost]))
  · cases mid with
    | nil =>
      obtain rfl : log = pre := by simpa using hpre
      obtain rfl : e :: post = new := hpost
      exact hnew e List.mem_cons_self
    | cons x mid =>
      obtain ⟨rfl, -⟩ : e = x ∧ post = mid ++ new := by simpa using hpost
      exact h pre e mid hpre

end History
