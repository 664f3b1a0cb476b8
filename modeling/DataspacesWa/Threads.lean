import DataspacesWa.Transition

/-!
# Threads on one memory

Each thread has a program of single reads and writes, and the programs are
interleaved in any order. Where no thread writes a place that another reads or
writes, each of them computes what it computes alone.
-/
namespace Threads

open Transition

variable {τ A V : Type*}

/-- One write, of a value that is computed from the places read. -/
structure Instr (A V : Type*) where
  reads : List A
  value : List V → V
  write : A

/-- What an instruction reads or writes. -/
def Instr.touches (i : Instr A V) (a : A) : Prop := a = i.write ∨ a ∈ i.reads

structure State (τ A V : Type*) where
  todo : τ → List (Instr A V)
  mem : A → V

def State.finished (s : State τ A V) : Prop := ∀ t, s.todo t = []

/-- No thread writes a place that another one reads or writes. -/
def Independent (prog : τ → List (Instr A V)) : Prop :=
  ∀ t u, t ≠ u → ∀ i ∈ prog t, ∀ j ∈ prog u, ¬ j.touches i.write

section

variable [DecidableEq A]

def Instr.exec (i : Instr A V) (mem : A → V) : A → V :=
  Function.update mem i.write (i.value (i.reads.map mem))

/-- A program on its own. -/
def execAll (prog : List (Instr A V)) (mem : A → V) : A → V :=
  prog.foldl (fun mem i => i.exec mem) mem

theorem execAll_append (p q : List (Instr A V)) (mem : A → V) :
    execAll (p ++ q) mem = execAll q (execAll p mem) := by
  rw [execAll, List.foldl_append, ← execAll, ← execAll]

theorem Instr.exec_of_ne (i : Instr A V) (mem : A → V) {a : A} (h : a ≠ i.write) : i.exec mem a = mem a :=
  Function.update_of_ne h _ _

/-- The written value depends on the places read only. -/
theorem Instr.exec_congr (i : Instr A V) {mem mem' : A → V} (h : ∀ a ∈ i.reads, mem a = mem' a) {a : A}
    (ha : mem a = mem' a) : i.exec mem a = i.exec mem' a := by
  have hreads : i.reads.map mem = i.reads.map mem' := List.map_congr_left h
  by_cases hw : a = i.write
  · rw [hw, Instr.exec, Instr.exec, hreads, Function.update_self, Function.update_self]
  · rw [i.exec_of_ne mem hw, i.exec_of_ne mem' hw, ha]

variable [DecidableEq τ]

/-- The thread `t` has executed `i` and goes on with `rest`. -/
def State.advance (s : State τ A V) (t : τ) (i : Instr A V) (rest : List (Instr A V)) : State τ A V where
  todo := Function.update s.todo t rest
  mem := i.exec s.mem

@[simp] theorem State.advance_todo_self (s : State τ A V) (t : τ) (i : Instr A V) (rest : List (Instr A V)) :
    (s.advance t i rest).todo t = rest :=
  Function.update_self _ _ _

theorem State.advance_todo_of_ne (s : State τ A V) {t u : τ} (i : Instr A V) (rest : List (Instr A V))
    (h : u ≠ t) : (s.advance t i rest).todo u = s.todo u :=
  Function.update_of_ne h _ _

@[simp] theorem State.advance_mem (s : State τ A V) (t : τ) (i : Instr A V) (rest : List (Instr A V)) :
    (s.advance t i rest).mem = i.exec s.mem := rfl

def step (s : State τ A V) (t : τ) : Option (State τ A V) :=
  match s.todo t with
  | [] => none
  | i :: rest => some (s.advance t i rest)

theorem step_cases {s s' : State τ A V} {t : τ} (h : step s t = some s') :
    ∃ i rest, s.todo t = i :: rest ∧ s' = s.advance t i rest := by
  rw [step] at h
  split at h
  · exact absurd h (by simp)
  next i rest htodo => exact ⟨i, rest, htodo, (Option.some.inj h).symm⟩

/-- Each thread has done a first part of its program, and its places hold what that part
leaves in them when it runs alone. -/
structure Inv (prog : τ → List (Instr A V)) (mem : A → V) (s : State τ A V) : Prop where
  progress : ∀ t, ∃ done, prog t = done ++ s.todo t ∧
    ∀ a, (∃ i ∈ prog t, i.touches a) → s.mem a = execAll done mem a
  frame : ∀ a, (∀ t, ∀ i ∈ prog t, a ≠ i.write) → s.mem a = mem a

omit [DecidableEq τ] in
theorem Inv.start (prog : τ → List (Instr A V)) (mem : A → V) : Inv prog mem ⟨prog, mem⟩ where
  progress _ := ⟨[], rfl, fun _ _ => rfl⟩
  frame _ _ := rfl

theorem Inv.step {prog : τ → List (Instr A V)} {mem : A → V} {s s' : State τ A V} {t : τ}
    (apart : Independent prog) (hi : Inv prog mem s) (h : step s t = some s') : Inv prog mem s' := by
  obtain ⟨i, rest, htodo, rfl⟩ := step_cases h
  obtain ⟨done, hprog, hmem⟩ := hi.progress t
  rw [htodo] at hprog
  have himem : i ∈ prog t := by simp [hprog]
  constructor
  · intro u
    by_cases hu : u = t
    · subst hu
      refine ⟨done ++ [i], by simp [hprog], ?_⟩
      intro a ha
      rw [State.advance_mem, execAll_append]
      refine i.exec_congr ?_ (hmem a ha)
      intro b hb
      exact hmem b ⟨i, himem, Or.inr hb⟩
    · obtain ⟨doneU, hprogU, hmemU⟩ := hi.progress u
      refine ⟨doneU, by rw [s.advance_todo_of_ne i rest hu]; exact hprogU, ?_⟩
      rintro a ⟨j, hj, hja⟩
      have hne : a ≠ i.write := by
        rintro rfl
        exact apart t u (Ne.symm hu) i himem j hj hja
      rw [State.advance_mem, i.exec_of_ne s.mem hne]
      exact hmemU a ⟨j, hj, hja⟩
  · intro a ha
    rw [State.advance_mem, i.exec_of_ne s.mem (ha t i himem)]
    exact hi.frame a ha

theorem inv_of_reaches {prog : τ → List (Instr A V)} {mem : A → V} {s : State τ A V}
    (apart : Independent prog) (h : Reaches step free ⟨prog, mem⟩ s) : Inv prog mem s :=
  h.invariant (Inv prog mem) (Inv.start prog mem) fun _ _ _ hi _ hs => hi.step apart hs

/-- In any order, each thread leaves in its places what it leaves there alone. -/
theorem finished_mem {prog : τ → List (Instr A V)} {mem : A → V} {s : State τ A V}
    (apart : Independent prog) (h : Reaches step free ⟨prog, mem⟩ s) (hf : s.finished) (t : τ) {a : A}
    (ha : ∃ i ∈ prog t, i.touches a) : s.mem a = execAll (prog t) mem a := by
  obtain ⟨done, hprog, hmem⟩ := (inv_of_reaches apart h).progress t
  rw [hf t, List.append_nil] at hprog
  rw [hprog]
  exact hmem a ha

/-- One thread can be run to its end, the others left where they are. -/
theorem drain (t : τ) (s : State τ A V) :
    ∃ s', Reaches step free s s' ∧ s'.todo t = [] ∧ ∀ u, u ≠ t → s'.todo u = s.todo u := by
  generalize htodo : s.todo t = p
  induction p generalizing s with
  | nil => exact ⟨s, .refl, htodo, fun _ _ => rfl⟩
  | cons i rest ih =>
    have hs : step s t = some (s.advance t i rest) := by rw [step, htodo]
    obtain ⟨s', hreach, hdone, hothers⟩ :=
      ih (s.advance t i rest) (s.advance_todo_self t i rest)
    refine ⟨s', .head ⟨t, trivial, hs⟩ hreach, hdone, ?_⟩
    intro u hu
    rw [hothers u hu]
    exact s.advance_todo_of_ne i rest hu

/-- Every run of finitely many threads can be brought to its end. -/
theorem exists_finished (ts : List τ) (s : State τ A V) (h : ∀ t, t ∉ ts → s.todo t = []) :
    ∃ s', Reaches step free s s' ∧ s'.finished := by
  induction ts generalizing s with
  | nil => exact ⟨s, .refl, fun t => h t (by simp)⟩
  | cons t ts ih =>
    obtain ⟨s₁, hfirst, hdone, hothers⟩ := drain t s
    obtain ⟨s₂, hrest, hfin⟩ := ih s₁ (by
      intro u hu
      by_cases hut : u = t
      · rw [hut, hdone]
      · rw [hothers u hut]
        exact h u (by simp [hut, hu]))
    exact ⟨s₂, Relation.ReflTransGen.trans hfirst hrest, hfin⟩

end

end Threads
