import Mathlib.Data.List.Basic
import Mathlib.Data.List.Perm.Basic

/-!
Threads over one shared core. A thread is the list of tasks it still has to do; a
task is done in one step and leaves other tasks in its place. What is true of the
core together with all tasks that stand, in any order, is kept by every thread when
it is kept by every task.
-/

namespace CopyPaste.Lib.Threads

structure System (C T : Type*) where
  core : C
  threads : List (List T) := []

variable {C T H : Type*}

def System.tasks (s : System C T) : List T := s.threads.flatten

def System.call (s : System C T) (tasks : List T) : System C T :=
  { s with threads := s.threads ++ [tasks] }

/-- The first task of a thread is done; `exec` gets the tasks after it and says what
stands in place of all of them. -/
def System.run (exec : C → T → List T → H → Option (C × List T)) (s : System C T)
    (thread : ℕ) (how : H) : Option (System C T) :=
  match s.threads[thread]? with
  | some (task :: rest) =>
    (exec s.core task rest how).map fun done =>
      { core := done.1, threads := s.threads.set thread done.2 }
  | _ => none

theorem tasks_call (s : System C T) (tasks : List T) :
    (s.call tasks).tasks = s.tasks ++ tasks := by
  simp [System.tasks, System.call]

theorem flatten_set_perm {threads : List (List T)} {thread : ℕ} {tasks : List T}
    (h : threads[thread]? = some tasks) :
    ∃ others, threads.flatten.Perm (tasks ++ others) ∧
      ∀ instead, (threads.set thread instead).flatten.Perm (instead ++ others) := by
  induction threads generalizing thread with
  | nil => simp at h
  | cons first more ih =>
    cases thread with
    | zero =>
      obtain rfl : first = tasks := by simpa using h
      exact ⟨more.flatten, List.Perm.refl _, fun instead => List.Perm.refl _⟩
    | succ thread =>
      obtain ⟨others, hperm, hset⟩ := ih (by simpa using h)
      refine ⟨first ++ others, ?_, fun instead => ?_⟩
      · simp only [List.flatten_cons]
        exact (hperm.append_left first).trans (List.perm_append_comm_assoc _ _ _)
      · simp only [List.set_cons_succ, List.flatten_cons]
        exact ((hset instead).append_left first).trans (List.perm_append_comm_assoc _ _ _)

/-- What a step does, with the tasks of all other threads set apart. -/
theorem run_cases {exec : C → T → List T → H → Option (C × List T)} {s s' : System C T}
    {thread : ℕ} {how : H} (h : s.run exec thread how = some s') :
    ∃ task rest tasks others, exec s.core task rest how = some (s'.core, tasks) ∧
      s.tasks.Perm (task :: (rest ++ others)) ∧ s'.tasks.Perm (tasks ++ others) ∧
      task :: rest ∈ s.threads ∧ ∀ left ∈ s'.threads, left ∈ s.threads ∨ left = tasks := by
  unfold System.run at h
  split at h
  · rename_i task rest hthread
    obtain ⟨⟨core, tasks⟩, hexec, rfl⟩ := Option.map_eq_some_iff.1 h
    obtain ⟨others, hperm, hset⟩ := flatten_set_perm hthread
    exact ⟨task, rest, tasks, others, hexec, hperm, hset tasks, List.mem_of_getElem? hthread,
      fun left hleft => List.mem_or_eq_of_mem_set hleft⟩
  · cases h

end CopyPaste.Lib.Threads
