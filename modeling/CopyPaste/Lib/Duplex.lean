import Mathlib.Data.List.Basic

/-!
Two processes over a pair of reliable queues. A process sends, receives, returns or
fails, and shows its state whenever it stops; either side may move whenever it can. The
order of moves does not matter: if the two can talk to the end, message against message,
then every run is on its way there.
-/

namespace CopyPaste.Lib.Duplex

/-- A process with a state of `S` that exchanges messages of `M` and ends with a value or an
error. -/
inductive Proc (M E S α : Type) : Type
  | done (state : S) (value : α)
  | fail (state : S) (error : E)
  | send (state : S) (message : M) (next : Proc M E S α)
  | recv (state : S) (next : M → Proc M E S α)

variable {M E S T α β γ δ : Type}

namespace Proc

def bind : Proc M E S α → (S → α → Proc M E S β) → Proc M E S β
  | .done state value, after => after state value
  | .fail state error, _ => .fail state error
  | .send state message next, after => .send state message (next.bind after)
  | .recv state next, after => .recv state fun message => (next message).bind after

/-- Nothing is left to do. -/
def Finished : Proc M E S α → Prop
  | .done _ _ => True
  | .fail _ _ => True
  | _ => False

def state : Proc M E S α → S
  | .done state _ => state
  | .fail state _ => state
  | .send state _ _ => state
  | .recv state _ => state

/-- Where a process can come to stand, whatever it is sent. -/
inductive Visits : Proc M E S α → Proc M E S α → Prop
  | refl (p) : Visits p p
  | send {state message next q} : Visits next q → Visits (.send state message next) q
  | recv {state next q} (message) : Visits (next message) q → Visits (.recv state next) q

/-- Where a process stands when these messages have come and no more. -/
def feed : Proc M E S α → List M → Proc M E S α
  | .send _ _ next, messages => next.feed messages
  | .recv _ next, message :: messages => (next message).feed messages
  | .recv state next, [] => .recv state next
  | .done state value, _ => .done state value
  | .fail state error, _ => .fail state error

theorem visits_feed (p : Proc M E S α) (messages : List M) : Visits p (p.feed messages) := by
  induction p generalizing messages with
  | done | fail => exact .refl _
  | send state message next ih => exact .send (ih messages)
  | recv state next ih =>
    cases messages with
    | nil => exact .refl _
    | cons message messages => exact .recv message (ih message messages)

/-- Whatever it is sent, a value that the process ends with is as said. -/
def Ensures (Q : S → α → Prop) : Proc M E S α → Prop
  | .done state value => Q state value
  | .fail _ _ => True
  | .send _ _ next => next.Ensures Q
  | .recv _ next => ∀ message, (next message).Ensures Q

section Ensures

variable {Q : S → α → Prop} {R : S → β → Prop} {p : Proc M E S α}

theorem Ensures.bind {after : S → α → Proc M E S β} (h : p.Ensures Q)
    (hafter : ∀ state value, Q state value → (after state value).Ensures R) :
    (p.bind after).Ensures R := by
  induction p with
  | done state value => exact hafter state value h
  | fail state error => trivial
  | send state message next ih => exact ih h
  | recv state next ih => exact fun message => ih message (h message)

theorem Ensures.at_end {state : S} {value : α} (h : p.Ensures Q)
    (hvisits : Visits p (.done state value)) : Q state value := by
  generalize hend : (.done state value : Proc M E S α) = q at hvisits
  induction hvisits with
  | refl p =>
    subst hend
    exact h
  | send _ ih => exact ih h hend
  | recv message _ ih => exact ih (h message) hend

end Ensures

end Proc

/-- What can happen to a process that waits: a message comes, the link gives out, or it is
cancelled. -/
inductive Event (M E : Type) : Type
  | message (message : M)
  | lost (error : E)
  | cancelled

inductive Ending (E S α : Type) : Type
  | returned (state : S) (value : α)
  | failed (state : S) (error : E)
  | cancelled (state : S)

namespace Proc

/-- How a process ends under these events; none while it waits for more. -/
def endOf : Proc M E S α → List (Event M E) → Option (Ending E S α)
  | .done state value, _ => some (.returned state value)
  | .fail state error, _ => some (.failed state error)
  | .send state _ _, .lost error :: _ => some (.failed state error)
  | .send state _ _, .cancelled :: _ => some (.cancelled state)
  | .send _ _ next, events => next.endOf events
  | .recv _ next, .message message :: events => (next message).endOf events
  | .recv state _, .lost error :: _ => some (.failed state error)
  | .recv state _, .cancelled :: _ => some (.cancelled state)
  | .recv _ _, [] => none

/-- Whatever more it is sent, a value that the process ends with is as said of all it got. -/
def EnsuresAfter (Q : List M → S → α → Prop) : Proc M E S α → List M → Prop
  | .done state value, got => Q got state value
  | .fail _ _, _ => True
  | .send _ _ next, got => next.EnsuresAfter Q got
  | .recv _ next, got => ∀ message, (next message).EnsuresAfter Q (got ++ [message])

theorem EnsuresAfter.bind {Q : List M → S → α → Prop} {R : List M → S → β → Prop}
    {p : Proc M E S α} {after : S → α → Proc M E S β} {got : List M} (h : p.EnsuresAfter Q got)
    (hafter : ∀ got state value, Q got state value → (after state value).EnsuresAfter R got) :
    (p.bind after).EnsuresAfter R got := by
  induction p generalizing got with
  | done state value => exact hafter got state value h
  | fail state error => trivial
  | send state message next ih => exact ih h
  | recv state next ih => exact fun message => ih message (h message)

theorem EnsuresAfter.of_endOf {Q : List M → S → α → Prop} {p : Proc M E S α} {got : List M}
    {events : List (Event M E)} {state : S} {value : α} (h : p.EnsuresAfter Q got)
    (hend : p.endOf events = some (.returned state value)) :
    ∃ came, (∀ message ∈ came, Event.message message ∈ events) ∧ Q (got ++ came) state value := by
  induction p generalizing got events with
  | done here there =>
    cases hend
    exact ⟨[], by simp, by rw [List.append_nil]; exact h⟩
  | fail here error => cases hend
  | send here message next ih =>
    cases events with
    | nil => exact ih h hend
    | cons event events =>
      cases event with
      | message first => exact ih h hend
      | lost | cancelled => cases hend
  | recv here next ih =>
    cases events with
    | nil => cases hend
    | cons event events =>
      cases event with
      | message first =>
        obtain ⟨came, hcame, hq⟩ := ih first (h first) hend
        refine ⟨first :: came, ?_, by simpa using hq⟩
        intro message hmessage
        rcases List.mem_cons.1 hmessage with rfl | hlater
        · exact List.mem_cons_self
        · exact List.mem_cons_of_mem _ (hcame message hlater)
      | lost | cancelled => cases hend

/-- A process that goes on after an error. -/
def recover : Proc M E S α → (S → E → Proc M E S α) → Proc M E S α
  | .done state value, _ => .done state value
  | .fail state error, after => after state error
  | .send state message next, after => .send state message (next.recover after)
  | .recv state next, after => .recv state fun message => (next message).recover after

end Proc

/-- What a process does from a state on. -/
def Act (M E S α : Type) : Type := S → Proc M E S α

namespace Act

instance : Monad (Act M E S) where
  pure value := fun state => .done state value
  bind act after := fun state => (act state).bind fun state value => after value state

def send (message : M) : Act M E S Unit := fun state => .send state message (.done state ())

def recv : Act M E S M := fun state => .recv state fun message => .done state message

def fail (error : E) : Act M E S α := fun state => .fail state error

/-- Read or change the state, or find that it cannot be. -/
def call (f : S → Except E α × S) : Act M E S α := fun state =>
  match f state with
  | (.ok value, state) => .done state value
  | (.error error, state) => .fail state error

def ofExcept : Except E α → Act M E S α
  | .ok value => pure value
  | .error error => fail error

end Act

/-- Both processes, the messages on their way, and all that were sent. -/
structure Link (M E S T α β : Type) where
  left : Proc M E S α
  right : Proc M E T β
  toLeft : List M := []
  toRight : List M := []
  leftLog : List M := []
  rightLog : List M := []

namespace Link

def stepLeft (s : Link M E S T α β) : Option (Link M E S T α β) :=
  match s.left, s.toLeft with
  | .send _ message next, _ =>
    some { s with
      left := next
      toRight := s.toRight ++ [message]
      leftLog := s.leftLog ++ [message] }
  | .recv _ next, message :: rest => some { s with left := next message, toLeft := rest }
  | _, _ => none

def stepRight (s : Link M E S T α β) : Option (Link M E S T α β) :=
  match s.right, s.toRight with
  | .send _ message next, _ =>
    some { s with
      right := next
      toLeft := s.toLeft ++ [message]
      rightLog := s.rightLog ++ [message] }
  | .recv _ next, message :: rest => some { s with right := next message, toRight := rest }
  | _, _ => none

/-- Either side moves. -/
def Step (s t : Link M E S T α β) : Prop :=
  s.stepLeft = some t ∨ s.stepRight = some t

inductive Runs : ℕ → Link M E S T α β → Link M E S T α β → Prop
  | refl (s) : Runs 0 s s
  | step {n s t u} : Step s t → Runs n t u → Runs (n + 1) s u

def Stuck (s : Link M E S T α β) : Prop :=
  ∀ t, ¬ Step s t

/-- Both sides wait for a message, and none is on its way. -/
def BothWait (s : Link M E S T α β) : Prop :=
  (∃ state next, s.left = .recv state next) ∧ (∃ state next, s.right = .recv state next) ∧
    s.toLeft = [] ∧ s.toRight = []

variable {s t : Link M E S T α β}

theorem stuck_of_bothWait (h : BothWait s) : Stuck s := by
  obtain ⟨left, right, toLeft, toRight, leftLog, rightLog⟩ := s
  obtain ⟨⟨state, next, hleft⟩, ⟨state', next', hright⟩, hempty, hempty'⟩ := h
  dsimp only at hleft hright hempty hempty'
  subst hleft hright hempty hempty'
  rintro t (ht | ht)
  · cases ht
  · cases ht

/-- A move of the left side stays possible after one of the right, with the same outcome. -/
theorem step_commute {u : Link M E S T α β} (hleft : s.stepLeft = some t)
    (hright : s.stepRight = some u) : ∃ v, t.stepRight = some v ∧ u.stepLeft = some v := by
  obtain ⟨left, right, toLeft, toRight, leftLog, rightLog⟩ := s
  cases left with
  | done | fail => cases hleft
  | send state message next =>
    cases hleft
    cases right with
    | done | fail => cases hright
    | send state' answer rest =>
      cases hright
      exact ⟨_, rfl, rfl⟩
    | recv state' rest =>
      cases toRight with
      | nil => cases hright
      | cons head tail =>
        cases hright
        exact ⟨_, rfl, rfl⟩
  | recv state next =>
    cases toLeft with
    | nil => cases hleft
    | cons first others =>
      cases hleft
      cases right with
      | done | fail => cases hright
      | send state' answer rest =>
        cases hright
        exact ⟨_, rfl, rfl⟩
      | recv state' rest =>
        cases toRight with
        | nil => cases hright
        | cons head tail =>
          cases hright
          exact ⟨_, rfl, rfl⟩

/-- Two different moves from one state meet again after one move each. -/
theorem step_diamond {u : Link M E S T α β} (ht : Step s t) (hu : Step s u) :
    t = u ∨ ∃ v, Step t v ∧ Step u v := by
  rcases ht with ht | ht <;> rcases hu with hu | hu
  · exact .inl (Option.some.inj (ht.symm.trans hu))
  · obtain ⟨v, hv, hv'⟩ := step_commute ht hu
    exact .inr ⟨v, .inr hv, .inl hv'⟩
  · obtain ⟨v, hv, hv'⟩ := step_commute hu ht
    exact .inr ⟨v, .inl hv', .inr hv⟩
  · exact .inl (Option.some.inj (ht.symm.trans hu))

/-- Any first move is a move towards the end of a run that ends. -/
theorem Runs.after_step {n : ℕ} {f : Link M E S T α β} (h : Runs n s f) (hf : Stuck f)
    (hstep : Step s t) : ∃ m, n = m + 1 ∧ Runs m t f := by
  induction n generalizing s t with
  | zero =>
    cases h
    exact absurd hstep (hf t)
  | succ n ih =>
    refine ⟨n, rfl, ?_⟩
    cases h with
    | step hfirst hrest =>
      rcases step_diamond hfirst hstep with rfl | ⟨v, hv, hv'⟩
      · exact hrest
      · obtain ⟨m, rfl, hm⟩ := ih hrest hv
        exact .step hv' hm

/-- Every run is the first part of the one that ends. -/
theorem Runs.towards {m n : ℕ} {f : Link M E S T α β} (h : Runs n s f) (hf : Stuck f)
    (hrun : Runs m s t) : ∃ k, m + k = n ∧ Runs k t f := by
  induction hrun generalizing n with
  | refl s => exact ⟨n, Nat.zero_add n, h⟩
  | step hstep _ ih =>
    obtain ⟨k, rfl, hk⟩ := h.after_step hf hstep
    obtain ⟨j, rfl, hj⟩ := ih hk
    exact ⟨j, by omega, hj⟩

/-- A side that has ended stays as it is, and what was sent stays sent. -/
theorem Step.keeps (h : Step s t) :
    (s.left.Finished → t.left = s.left) ∧ (s.right.Finished → t.right = s.right) ∧
      s.leftLog <+: t.leftLog ∧ s.rightLog <+: t.rightLog := by
  obtain ⟨left, right, toLeft, toRight, leftLog, rightLog⟩ := s
  rcases h with h | h
  · cases left with
    | done | fail => cases h
    | send state message next =>
      cases h
      exact ⟨False.elim, fun _ => rfl, List.prefix_append _ _, List.prefix_refl _⟩
    | recv state next =>
      cases toLeft with
      | nil => cases h
      | cons first others =>
        cases h
        exact ⟨False.elim, fun _ => rfl, List.prefix_refl _, List.prefix_refl _⟩
  · cases right with
    | done | fail => cases h
    | send state message next =>
      cases h
      exact ⟨fun _ => rfl, False.elim, List.prefix_refl _, List.prefix_append _ _⟩
    | recv state next =>
      cases toRight with
      | nil => cases h
      | cons first others =>
        cases h
        exact ⟨fun _ => rfl, False.elim, List.prefix_refl _, List.prefix_refl _⟩

theorem Runs.keeps {n : ℕ} (h : Runs n s t) :
    (s.left.Finished → t.left = s.left) ∧ (s.right.Finished → t.right = s.right) ∧
      s.leftLog <+: t.leftLog ∧ s.rightLog <+: t.rightLog := by
  induction h with
  | refl s => exact ⟨fun _ => rfl, fun _ => rfl, List.prefix_refl _, List.prefix_refl _⟩
  | step hstep _ ih =>
    obtain ⟨hleft, hright, hlog, hlog'⟩ := hstep.keeps
    obtain ⟨hleft', hright', hlog₁, hlog₂⟩ := ih
    refine ⟨fun hdone => ?_, fun hdone => ?_, hlog.trans hlog₁, hlog'.trans hlog₂⟩
    · rw [← hleft hdone]
      exact hleft' (by rw [hleft hdone]; exact hdone)
    · rw [← hright hdone]
      exact hright' (by rw [hright hdone]; exact hdone)

end Link

/-- The two sides talk message against message: each one sent is received at once. The
lists are what either side has sent. -/
inductive Talks :
    Proc M E S α → Proc M E T β → List M → List M → Proc M E S α → Proc M E T β → Prop
  | refl (l : Proc M E S α) (r : Proc M E T β) : Talks l r [] [] l r
  | left {s t message next k ms ns} {l : Proc M E S α} {r : Proc M E T β} :
      Talks next (k message) ms ns l r →
        Talks (.send s message next) (.recv t k) (message :: ms) ns l r
  | right {s t message next k ms ns} {l : Proc M E S α} {r : Proc M E T β} :
      Talks (k message) next ms ns l r →
        Talks (.recv s k) (.send t message next) ms (message :: ns) l r

namespace Talks

variable {l l' l'' : Proc M E S α} {r r' r'' : Proc M E T β} {ms ns ms' ns' : List M}

theorem trans (h : Talks l r ms ns l' r') (h' : Talks l' r' ms' ns' l'' r'') :
    Talks l r (ms ++ ms') (ns ++ ns') l'' r'' := by
  induction h with
  | refl l r => exact h'
  | left _ ih => exact .left (ih h')
  | right _ ih => exact .right (ih h')

theorem symm (h : Talks l r ms ns l' r') : Talks r l ns ms r' l' := by
  induction h with
  | refl l r => exact .refl _ _
  | left _ ih => exact .right ih
  | right _ ih => exact .left ih

/-- What follows on either side does not disturb the talk before it. -/
theorem bind (h : Talks l r ms ns l' r') (after : S → α → Proc M E S γ)
    (after' : T → β → Proc M E T δ) :
    Talks (l.bind after) (r.bind after') ms ns (l'.bind after) (r'.bind after') := by
  induction h with
  | refl l r => exact .refl _ _
  | left _ ih => exact .left ih
  | right _ ih => exact .right ih

theorem recover (h : Talks l r ms ns l' r') (after : T → E → Proc M E T β) :
    Talks l (r.recover after) ms ns l' (r'.recover after) := by
  induction h with
  | refl l r => exact .refl _ _
  | left _ ih => exact .left ih
  | right _ ih => exact .right ih

theorem runs (h : Talks l r ms ns l' r') (leftLog rightLog : List M) :
    ∃ n, Link.Runs n ⟨l, r, [], [], leftLog, rightLog⟩
      ⟨l', r', [], [], leftLog ++ ms, rightLog ++ ns⟩ := by
  induction h generalizing leftLog rightLog with
  | refl l r =>
    simp only [List.append_nil]
    exact ⟨0, .refl _⟩
  | @left s t message next k ms ns l r _ ih =>
    obtain ⟨n, hn⟩ := ih (leftLog ++ [message]) rightLog
    rw [List.append_assoc, List.singleton_append] at hn
    exact ⟨n + 2, .step (.inl rfl) (.step (.inr rfl) hn)⟩
  | @right s t message next k ms ns l r _ ih =>
    obtain ⟨n, hn⟩ := ih leftLog (rightLog ++ [message])
    rw [List.append_assoc, List.singleton_append] at hn
    exact ⟨n + 2, .step (.inr rfl) (.step (.inl rfl) hn)⟩

end Talks

/-- A process that sends the messages and then stands elsewhere. -/
inductive Sends : Proc M E S α → List M → Proc M E S α → Prop
  | refl (p : Proc M E S α) : Sends p [] p
  | step {s message next ms} {p : Proc M E S α} :
      Sends next ms p → Sends (.send s message next) (message :: ms) p

namespace Sends

variable {p q r : Proc M E S α} {ms ms' : List M}

theorem trans (h : Sends p ms q) (h' : Sends q ms' r) : Sends p (ms ++ ms') r := by
  induction h with
  | refl p => exact h'
  | step _ ih => exact .step (ih h')

theorem bind (h : Sends p ms q) (after : S → α → Proc M E S γ) :
    Sends (p.bind after) ms (q.bind after) := by
  induction h with
  | refl p => exact .refl _
  | step _ ih => exact .step ih

end Sends

namespace Link

theorem stuck_of_finished {s : Link M E S T α β} (hl : s.left.Finished) (hr : s.right.Finished) :
    Stuck s := by
  obtain ⟨left, right, toLeft, toRight, leftLog, rightLog⟩ := s
  rintro t (h | h)
  · cases left with
    | done | fail => cases h
    | send | recv => exact hl
  · cases right with
    | done | fail => cases h
    | send | recv => exact hr

/-- If the two can talk to the end, every run is on its way there: it is no longer than that
one, what it has sent was to be sent, a side that has ended has ended as it will, and it can
move on unless both have ended. -/
theorem of_talks {l fl : Proc M E S α} {r fr : Proc M E T β} {ms ns : List M}
    (h : Talks l r ms ns fl fr) (hl : fl.Finished) (hr : fr.Finished) :
    ∃ n, ∀ k s, Runs k { left := l, right := r } s →
      k ≤ n ∧ Runs (n - k) s ⟨fl, fr, [], [], ms, ns⟩ ∧
      s.leftLog <+: ms ∧ s.rightLog <+: ns ∧
      (s.left.Finished → s.left = fl) ∧ (s.right.Finished → s.right = fr) ∧
      (Stuck s → s = ⟨fl, fr, [], [], ms, ns⟩) := by
  obtain ⟨n, hn⟩ := h.runs [] []
  rw [List.nil_append, List.nil_append] at hn
  refine ⟨n, fun k s hs => ?_⟩
  obtain ⟨j, rfl, hj⟩ := hn.towards (stuck_of_finished hl hr) hs
  obtain ⟨hleft, hright, hlog, hlog'⟩ := hj.keeps
  refine ⟨by omega, ?_, hlog, hlog', fun hdone => (hleft hdone).symm,
    fun hdone => (hright hdone).symm, fun hstuck => ?_⟩
  · rw [Nat.add_sub_cancel_left]
    exact hj
  · cases hj with
    | refl _ => rfl
    | step hstep _ => exact absurd hstep (hstuck _)

end Link

end CopyPaste.Lib.Duplex
