import Mathlib.Logic.Basic

/-!
Guarded machines: an act either is impossible in a state or leads to one state. A
run may be asked to meet a condition at each of its acts; what the starts satisfy
and every act under the condition keeps then holds in every state such runs reach.
-/

namespace CopyPaste.Lib.Guarded

structure Machine (S A : Type*) where
  start : S → Prop
  step : S → A → Option S

variable {S A : Type*} (m : Machine S A)

/-- The states reached by acts that all meet a condition. -/
inductive Reaches (allowed : S → A → Prop) : S → Prop
  | start (s : S) (h : m.start s) : Reaches allowed s
  | next {s s' : S} (act : A) (hs : Reaches allowed s) (hallowed : allowed s act)
      (hstep : m.step s act = some s') : Reaches allowed s'

def run (s : S) : List A → Option S
  | [] => some s
  | act :: rest => (m.step s act).bind fun next => run next rest

/-- Every act of a run meets the condition in the state it is taken in. -/
def Meets (allowed : S → A → Prop) : S → List A → Prop
  | _, [] => True
  | s, act :: rest => allowed s act ∧ ∀ next, m.step s act = some next → Meets allowed next rest

variable {m} {allowed : S → A → Prop}

instance decidableMeets [∀ s act, Decidable (allowed s act)] :
    ∀ s acts, Decidable (Meets m allowed s acts)
  | _, [] => isTrue trivial
  | s, act :: rest =>
    match h : m.step s act with
    | none => decidable_of_iff (allowed s act) (by simp [Meets, h])
    | some next =>
      have := decidableMeets next rest
      decidable_of_iff (allowed s act ∧ Meets m allowed next rest) (by simp [Meets, h])

variable {acts : List A} {other : S → A → Prop}

theorem Meets.of_forall (h : ∀ act ∈ acts, ∀ s, allowed s act) (s : S) :
    Meets m allowed s acts := by
  induction acts generalizing s with
  | nil => trivial
  | cons act rest ih =>
    exact ⟨h act List.mem_cons_self s, fun next _ =>
      ih (fun act hact => h act (List.mem_cons_of_mem _ hact)) next⟩

theorem Meets.and {s : S} (h : Meets m allowed s acts) (h' : Meets m other s acts) :
    Meets m (fun s act => allowed s act ∧ other s act) s acts := by
  induction acts generalizing s with
  | nil => trivial
  | cons act rest ih =>
    exact ⟨⟨h.1, h'.1⟩, fun next hnext => ih (h.2 next hnext) (h'.2 next hnext)⟩

theorem Meets.mono (hweaker : ∀ s act, allowed s act → other s act) {s : S}
    (h : Meets m allowed s acts) : Meets m other s acts := by
  induction acts generalizing s with
  | nil => trivial
  | cons act rest ih => exact ⟨hweaker s act h.1, fun next hnext => ih (h.2 next hnext)⟩

/-- The induction over a run. -/
theorem Reaches.invariant {Inv : S → Prop} (hstart : ∀ s, m.start s → Inv s)
    (hkept : ∀ s s' act, Inv s → allowed s act → m.step s act = some s' → Inv s')
    {s : S} (h : Reaches m allowed s) : Inv s := by
  induction h with
  | start s h => exact hstart s h
  | next act _ hallowed hstep ih => exact hkept _ _ act ih hallowed hstep

theorem Reaches.weaken {s : S} (h : Reaches m allowed s)
    (hweaker : ∀ s act, allowed s act → other s act) : Reaches m other s := by
  induction h with
  | start s h => exact .start s h
  | next act _ hallowed hstep ih => exact .next act ih (hweaker _ _ hallowed) hstep

/-- What a run that meets the condition ends in is reached. -/
theorem Reaches.of_run {s s' : S} (hs : Reaches m allowed s) (acts : List A)
    (hmeets : Meets m allowed s acts) (hrun : run m s acts = some s') : Reaches m allowed s' := by
  induction acts generalizing s with
  | nil =>
    obtain rfl : s = s' := by simpa [run] using hrun
    exact hs
  | cons act rest ih =>
    obtain ⟨middle, hstep, hrest⟩ := Option.bind_eq_some_iff.1 hrun
    exact ih (hs.next act hmeets.1 hstep) (hmeets.2 middle hstep) hrest

theorem Reaches.of_run_getD {s : S} (hs : Reaches m allowed s) (acts : List A)
    (hmeets : Meets m allowed s acts) (hrun : (run m s acts).isSome) (otherwise : S) :
    Reaches m allowed ((run m s acts).getD otherwise) := by
  obtain ⟨last, hlast⟩ := Option.isSome_iff_exists.1 hrun
  rw [hlast]
  exact hs.of_run acts hmeets hlast

end CopyPaste.Lib.Guarded
