import Mathlib.Data.List.Basic

/-!
Programs over a state that may be stopped. Such a program comes to a value, fails with an
error that its caller may handle, or is stopped where it stands, and then nobody handles
anything. What holds of each of the three endings is proved along the program.
-/

namespace CopyPaste.Lib.Crash

inductive Ending (E α : Type)
  | done (value : α)
  | error (e : E)
  | stopped

def Prog (S E α : Type) : Type :=
  S → Ending E α × S

variable {S E α β : Type}

instance : Monad (Prog S E) where
  pure value := fun s => (.done value, s)
  bind prog next := fun s =>
    match prog s with
    | (.done value, s') => next value s'
    | (.error e, s') => (.error e, s')
    | (.stopped, s') => (.stopped, s')

def fail (e : E) : Prog S E α := fun s => (.error e, s)

def stop : Prog S E α := fun s => (.stopped, s)

def get : Prog S E S := fun s => (.done s, s)

def modify (f : S → S) : Prog S E Unit := fun s => (.done (), f s)

/-- Whether a program failed; one that is stopped still is. -/
def attempt (prog : Prog S E α) : Prog S E (Except E α) := fun s =>
  match prog s with
  | (.done value, s') => (.done (.ok value), s')
  | (.error e, s') => (.done (.error e), s')
  | (.stopped, s') => (.stopped, s')

def fromExcept : Except E α → Prog S E α
  | .ok value => pure value
  | .error e => fail e

/-- A part of a program for each element of a list. -/
def each (xs : List α) (body : α → Prog S E Unit) : Prog S E Unit :=
  match xs with
  | [] => pure ()
  | x :: xs => do
    body x
    each xs body

/-- From states with `pre` a program ends in what the three conditions say. -/
def Sends (pre : S → Prop) (prog : Prog S E α) (post : α → S → Prop) (failed : E → S → Prop)
    (cut : S → Prop) : Prop :=
  ∀ s, pre s →
    match prog s with
    | (.done value, s') => post value s'
    | (.error e, s') => failed e s'
    | (.stopped, s') => cut s'

variable {pre : S → Prop} {post : α → S → Prop} {failed : E → S → Prop} {cut : S → Prop}

variable {prog : Prog S E α}

theorem Sends.bind {next : α → Prog S E β} {post : β → S → Prop} (mid : α → S → Prop)
    (h : Sends pre prog mid failed cut)
    (hnext : ∀ value, Sends (mid value) (next value) post failed cut) :
    Sends pre (prog >>= next) post failed cut := by
  intro s hs
  have hprog := h s hs
  show match (match prog s with
    | (.done value, s') => next value s'
    | (.error e, s') => (.error e, s')
    | (.stopped, s') => (.stopped, s')) with
    | (.done value, s') => post value s'
    | (.error e, s') => failed e s'
    | (.stopped, s') => cut s'
  revert hprog
  rcases prog s with ⟨value | e | _, s'⟩
  · intro hvalue
    exact hnext value s' hvalue
  · exact id
  · exact id

theorem Sends.pure {value : α} (h : ∀ s, pre s → post value s) :
    Sends pre (pure value : Prog S E α) post failed cut :=
  h

theorem Sends.fail {e : E} (h : ∀ s, pre s → failed e s) :
    Sends pre (fail e : Prog S E α) post failed cut :=
  h

theorem Sends.get {post : S → S → Prop} (h : ∀ s, pre s → post s s) :
    Sends pre (get : Prog S E S) post failed cut :=
  h

theorem Sends.modify {f : S → S} {post : Unit → S → Prop} (h : ∀ s, pre s → post () (f s)) :
    Sends pre (modify f : Prog S E Unit) post failed cut :=
  h

theorem Sends.mono {pre' : S → Prop} {post' : α → S → Prop} {failed' : E → S → Prop}
    {cut' : S → Prop} (h : Sends pre prog post failed cut) (hpre : ∀ s, pre' s → pre s)
    (hpost : ∀ value s, post value s → post' value s) (hfailed : ∀ e s, failed e s → failed' e s)
    (hcut : ∀ s, cut s → cut' s) : Sends pre' prog post' failed' cut' := by
  intro s hs
  have hprog := h s (hpre s hs)
  revert hprog
  rcases prog s with ⟨value | e | _, s'⟩
  · exact hpost value s'
  · exact hfailed e s'
  · exact hcut s'

theorem Sends.attempt {post : Except E α → S → Prop}
    (h : Sends pre prog (fun value => post (.ok value)) (fun e => post (.error e)) cut) :
    Sends pre (attempt prog) post failed cut := by
  intro s hs
  have hprog := h s hs
  rw [Crash.attempt]
  revert hprog
  rcases prog s with ⟨value | e | _, s'⟩
  · exact id
  · exact id
  · exact id

/-- What follows a program that may fail goes on from either ending. -/
theorem Sends.attempt_bind {next : Except E α → Prog S E β} {post : β → S → Prop}
    (mid : α → S → Prop) (bad : E → S → Prop) (h : Sends pre prog mid bad cut)
    (hok : ∀ value, Sends (mid value) (next (.ok value)) post failed cut)
    (herror : ∀ e, Sends (bad e) (next (.error e)) post failed cut) :
    Sends pre (Crash.attempt prog >>= next) post failed cut := by
  refine Sends.bind (fun result s => match result with
    | .ok value => mid value s
    | .error e => bad e s) (Sends.attempt h) fun result => ?_
  cases result with
  | ok value => exact hok value
  | error e => exact herror e

theorem Sends.fromExcept {result : Except E α} (hok : ∀ value s, result = .ok value → pre s → post value s)
    (herror : ∀ e s, result = .error e → pre s → failed e s) :
    Sends pre (fromExcept result : Prog S E α) post failed cut := by
  cases result with
  | ok value => exact fun s hs => hok value s rfl hs
  | error e => exact fun s hs => herror e s rfl hs

theorem Sends.each {xs : List α} {body : α → Prog S E Unit}
    (h : ∀ x ∈ xs, Sends pre (body x) (fun _ => pre) failed cut) :
    Sends pre (each xs body) (fun _ => pre) failed cut := by
  induction xs with
  | nil => exact Sends.pure fun _ hs => hs
  | cons x xs ih =>
    refine Sends.bind _ (h x List.mem_cons_self) fun _ => ?_
    exact ih fun y hy => h y (List.mem_cons_of_mem x hy)

/-- A state that satisfies the start is enough to know about. -/
theorem Sends.of_state (h : ∀ s, pre s → Sends (· = s) prog post failed cut) :
    Sends pre prog post failed cut :=
  fun s hs => h s hs s rfl

end CopyPaste.Lib.Crash
