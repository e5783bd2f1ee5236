import Mathlib.Data.List.Nodup
import Mathlib.Order.Nat
import CopyPaste.Capture.Settings

/-!
No capture outlives the policy it was admitted under. A log is orderly when each
event is rightful after the events before it; what threads do in any order keeps it
so. A token is at every moment in one place at most: among the operations, among the
cancellations still to be run, or ended.
-/

namespace CopyPaste.Capture.Outlive

open Lib.Guarded Lib.Threads Admission Settings

variable {R P : Type}

def activeTokens : List (Event R) → List ℕ
  | [] => []
  | .granted token _ _ :: past => activeTokens past ++ [token]
  | .released token :: past => (activeTokens past).filter (· != token)
  | _ :: past => activeTokens past

def inForce (initial : ConfigData R) : List (Event R) → ConfigData R
  | [] => initial
  | .stored config :: _ => config
  | _ :: past => inForce initial past

def spares : Cut → ℕ → Prop
  | .transition, _ | .closed, _ => False
  | .revoked revoked, host => revoked ≠ host

/-- The operation was begun on that host, and no transition, no revocation of the host
and no close came after. -/
def Standing (token host : ℕ) : List (Event R) → Prop
  | [] => False
  | .begun t h :: past => (t = token ∧ h = host) ∨ Standing token host past
  | .cut cut :: past => spares cut host ∧ Standing token host past
  | _ :: past => Standing token host past

/-- What an event promises about the log before it. -/
def Rightful (initial : ConfigData R) (past : List (Event R)) : Event R → Prop
  | .granted token scope config =>
    config = inForce initial past ∧ (∃ host, Standing token host past) ∧
      match scope with
      | .read => True
      | .commit => ∀ config, .granted token .commit config ∉ past
      | .completion => .committed token ∈ past ∧
          ∀ config, .granted token .completion config ∉ past
  | .committed token => ∃ config, .granted token .commit config ∈ past
  | .cancelled token => .cancelled token ∉ past ∧
      ∀ config, .granted token .completion config ∉ past
  | .stored _ | .published _ => activeTokens past = []
  | .drained .transition | .drained .shutdown => activeTokens past = []
  | .drained (.host host) => ∀ token ∈ activeTokens past, .begun token host ∉ past
  | .begun _ _ | .released _ | .cut _ => True

def Orderly (initial : ConfigData R) (log : List (Event R)) : Prop :=
  ∀ event past, event :: past <:+ log → Rightful initial past event

theorem Orderly.cons {initial : ConfigData R} {log : List (Event R)} {event : Event R}
    (h : Orderly initial log) (hevent : Rightful initial log event) :
    Orderly initial (event :: log) := by
  intro other past hsuffix
  rcases List.suffix_cons_iff.1 hsuffix with heq | hsuffix
  · obtain ⟨rfl, rfl⟩ := List.cons.inj heq
    exact hevent
  · exact h other past hsuffix

theorem mem_of_standing {token host : ℕ} {log : List (Event R)} (h : Standing token host log) :
    .begun token host ∈ log := by
  induction log with
  | nil => exact h.elim
  | cons event past ih =>
    cases event with
    | begun t h' =>
      rcases h with ⟨rfl, rfl⟩ | h
      · exact List.mem_cons_self
      · exact List.mem_cons_of_mem _ (ih h)
    | cut cut => exact List.mem_cons_of_mem _ (ih h.2)
    | _ => exact List.mem_cons_of_mem _ (ih h)

/-- The token an event is about. -/
def token? : Event R → Option ℕ
  | .begun token _ | .granted token _ _ | .committed token | .released token
  | .cancelled token => some token
  | _ => none

/-- The events that end an operation: its cancellation, and the grant of its completion. -/
def ends (token : ℕ) : Event R → Bool
  | .cancelled t => t == token
  | .granted t scope _ => t == token && scope == .completion
  | _ => false

def isCancel (token : ℕ) : Task R P → Bool
  | .cancel t => t == token
  | _ => false

def isHolding : Task R P → Bool
  | .holding _ => true
  | _ => false

def isDrained : Stage R → Bool
  | .draining _ => false
  | _ => true

/-- How often a token stands anywhere. -/
def occurrences (core : Core R) (all : List (Task R P)) (token : ℕ) : ℕ :=
  core.state.operations.countP (·.1 == token) + all.countP (isCancel token) +
    core.log.countP (ends token)

/-- Tokens against the log: what became of each operation. -/
structure Accounted (core : Core R) (all : List (Task R P)) : Prop where
  once : ∀ token, occurrences core all token ≤ 1
  numbered : ∀ event ∈ core.log, ∀ token, token? event = some token → token < core.state.nextId
  due : ∀ token, .cancel token ∈ all → token < core.state.nextId
  hosted : ∀ token host other, .begun token host ∈ core.log → .begun token other ∈ core.log →
    host = other
  standing : ∀ x ∈ core.state.operations, Standing x.1 x.2.host core.log
  committed : ∀ x ∈ core.state.operations, x.2.committed = true → .committed x.1 ∈ core.log
  uncommitted : core.poisoned = false → ∀ x ∈ core.state.operations, x.2.committed = false →
    ∀ config, .granted x.1 .commit config ∈ core.log →
      ∃ permit ∈ core.permits, permit.token = x.1 ∧ permit.scope = .commit ∧
        permit.committed = false

/-- The live permits against the active scopes, those of the log and the settings. -/
structure Live (initial : ConfigData R) (core : Core R) : Prop where
  granted : ∀ permit ∈ core.permits,
    .granted permit.token permit.scope permit.config ∈ core.log ∧
      permit.config = core.settings.config
  permits : core.permits.map (·.token) = core.state.active.map (·.1)
  active : activeTokens core.log = core.state.active.map (·.1)
  nodup : (core.state.active.map (·.1)).Nodup
  hosts : ∀ x ∈ core.state.active, .begun x.1 x.2 ∈ core.log
  force : inForce initial core.log = core.settings.config

/-- Transitions: at most one is held, and what it keeps. -/
structure Turning (core : Core R) (all : List (Task R P)) : Prop where
  single : all.countP isHolding ≤ 1
  holding : ∀ stage, .holding stage ∈ all →
    core.state.transitioning = true ∧ (isDrained stage → core.state.active = [])
  publishing : ∀ applied, .holding (.publish applied) ∈ all →
    applied.config = core.settings.config
  agree : core.state.config = core.settings.config ∨ core.state.closed = true ∨
    core.poisoned = true ∨ ∃ applied, .holding (.publish applied) ∈ all

structure Inv (initial : ConfigData R) (core : Core R) (all : List (Task R P)) : Prop where
  orderly : Orderly initial core.log
  accounted : Accounted core all
  live : Live initial core
  turning : Turning core all

variable {all all' : List (Task R P)}

theorem mem_of_isCancel {token : ℕ} : 0 < all.countP (isCancel token) ↔ .cancel token ∈ all := by
  rw [List.countP_pos_iff]
  constructor
  · rintro ⟨task, hmem, hcancel⟩
    cases task <;> simp only [isCancel, beq_iff_eq, reduceCtorEq] at hcancel
    exact hcancel ▸ hmem
  · exact fun h => ⟨_, h, by simp [isCancel]⟩

def isPublish : Stage R → Bool
  | .publish _ => true
  | _ => false

/-- Other tasks, with no more cancellations due. -/
theorem Accounted.tasks {core : Core R} (h : Accounted core all)
    (hcancels : ∀ token, all'.countP (isCancel token) ≤ all.countP (isCancel token))
    {settings : SettingsState R} {config : ConfigData R} {transitioning : Bool} {generation : ℕ} :
    Accounted { core with
      settings
      state := { core.state with config, transitioning, generation } } all' where
  once := fun token => by
    have honce := h.once token
    have hle := hcancels token
    unfold occurrences at honce ⊢
    dsimp only
    omega
  numbered := h.numbered
  due := fun token hmem =>
    h.due token (mem_of_isCancel.1 ((mem_of_isCancel.2 hmem).trans_le (hcancels token)))
  hosted := h.hosted
  standing := h.standing
  committed := h.committed
  uncommitted := h.uncommitted

/-- Where no publication is under way, the settings are the configuration or admission is shut. -/
theorem Turning.agreed {core : Core R} (h : Turning core all)
    (hnone : ∀ applied, .holding (.publish applied) ∉ all) {q : Prop} :
    core.state.config = core.settings.config ∨ core.state.closed = true ∨
      core.poisoned = true ∨ q := by
  rcases h.agree with hagree | hagree | hagree | ⟨applied, hmem⟩
  · exact .inl hagree
  · exact .inr (.inl hagree)
  · exact .inr (.inr (.inl hagree))
  · exact absurd hmem (hnone applied)

/-- The one transition that is held. -/
theorem Turning.held {core : Core R} {stage : Stage R} (hlast : all.countP isHolding = 0)
    (hturn : core.state.transitioning = true)
    (hactive : isDrained stage → core.state.active = [])
    (hpublishing : ∀ applied, stage = .publish applied → applied.config = core.settings.config)
    (hagree : core.state.config = core.settings.config ∨ core.state.closed = true ∨
      core.poisoned = true ∨ ∃ applied, stage = .publish applied) :
    Turning core (.holding stage :: all) := by
  have hquiet : ∀ other, .holding other ∉ all := fun other hmem =>
    List.countP_eq_zero.1 hlast _ hmem rfl
  have hsame : ∀ other, .holding other ∈ (.holding stage :: all : List (Task R P)) →
      stage = other := fun other hmem =>
    (Task.holding.inj ((List.mem_cons.1 hmem).resolve_right (hquiet other))).symm
  refine ⟨?_, fun other hmem => ?_, fun applied hmem => hpublishing applied (hsame _ hmem), ?_⟩
  · rw [List.countP_cons, hlast]
    simp [isHolding]
  · obtain rfl := hsame other hmem
    exact ⟨hturn, hactive⟩
  · rcases hagree with hagree | hagree | hagree | ⟨applied, rfl⟩
    · exact .inl hagree
    · exact .inr (.inl hagree)
    · exact .inr (.inr (.inl hagree))
    · exact .inr (.inr (.inr ⟨applied, List.mem_cons_self⟩))

/-- Tasks that stand in place of others and ask for nothing that those did not. -/
structure Fewer (all' all : List (Task R P)) : Prop where
  cancels : ∀ token, all'.countP (isCancel token) ≤ all.countP (isCancel token)
  single : all'.countP isHolding ≤ all.countP isHolding
  holding : ∀ stage, .holding stage ∈ all' → .holding stage ∈ all ∨
    (isPublish stage = false ∧ ∃ held, .holding held ∈ all ∧ isDrained held)
  publish : ∀ applied, .holding (.publish applied) ∈ all → .holding (.publish applied) ∈ all'

theorem Fewer.of_perm (h : all'.Perm all) : Fewer all' all where
  cancels := fun _ => le_of_eq (h.countP_eq _)
  single := le_of_eq (h.countP_eq _)
  holding := fun _ hmem => .inl (h.mem_iff.1 hmem)
  publish := fun _ hmem => h.mem_iff.2 hmem

theorem Fewer.trans {first second third : List (Task R P)} (h : Fewer first second)
    (h' : Fewer second third) : Fewer first third where
  cancels := fun token => (h.cancels token).trans (h'.cancels token)
  single := h.single.trans h'.single
  holding := by
    intro stage hmem
    rcases h.holding stage hmem with hmem | ⟨hstage, held, hheld, hdrained⟩
    · exact h'.holding stage hmem
    · rcases h'.holding held hheld with hheld | ⟨-, other, hother, hdrained'⟩
      · exact .inr ⟨hstage, held, hheld, hdrained⟩
      · exact .inr ⟨hstage, other, hother, hdrained'⟩
  publish := fun applied hmem => h.publish applied (h'.publish applied hmem)

theorem Fewer.append (h : Fewer all' all) (others : List (Task R P)) :
    Fewer (all' ++ others) (all ++ others) where
  cancels := fun token => by
    rw [List.countP_append, List.countP_append]
    exact Nat.add_le_add_right (h.cancels token) _
  single := by
    rw [List.countP_append, List.countP_append]
    exact Nat.add_le_add_right h.single _
  holding := by
    intro stage hmem
    rcases List.mem_append.1 hmem with hmem | hmem
    · rcases h.holding stage hmem with hmem | ⟨hstage, held, hheld, hdrained⟩
      · exact .inl (List.mem_append_left _ hmem)
      · exact .inr ⟨hstage, held, List.mem_append_left _ hheld, hdrained⟩
    · exact .inl (List.mem_append_right _ hmem)
  publish := by
    intro applied hmem
    rcases List.mem_append.1 hmem with hmem | hmem
    · exact List.mem_append_left _ (h.publish applied hmem)
    · exact List.mem_append_right _ hmem

theorem Fewer.cons {all' all : List (Task R P)} (h : Fewer all' all) (task : Task R P) :
    Fewer (task :: all') (task :: all) :=
  ((Fewer.of_perm (List.perm_append_singleton task all').symm).trans (h.append [task])).trans
    (.of_perm (List.perm_append_singleton task all))

/-- A task that is neither a cancellation nor a held transition. -/
def isQuiet : Task R P → Bool
  | .cancel _ | .holding _ => false
  | _ => true

def publishes : Task R P → Bool
  | .holding (.publish _) => true
  | _ => false

theorem fewer_added {tasks : List (Task R P)} (htasks : ∀ task ∈ tasks, isQuiet task) :
    Fewer tasks [] where
  cancels := by
    intro token
    rw [List.countP_eq_zero.2 fun other hother => ?_]
    · exact Nat.zero_le _
    · have hquiet := htasks other hother
      cases other <;> first | simp [isCancel]; done | cases hquiet
  single := by
    rw [List.countP_eq_zero.2 fun other hother => ?_]
    · exact Nat.zero_le _
    · have hquiet := htasks other hother
      cases other <;> first | simp [isHolding]; done | cases hquiet
  holding := by
    intro stage hmem
    have hquiet := htasks _ hmem
    simp [isQuiet] at hquiet
  publish := by simp

theorem fewer_quiet {task : Task R P} (htask : publishes task = false) {tasks : List (Task R P)}
    (htasks : ∀ task ∈ tasks, isQuiet task) : Fewer tasks [task] := by
  refine (fewer_added htasks).trans ⟨by simp, by simp, by simp, fun applied hmem => ?_⟩
  rw [List.mem_singleton] at hmem
  subst hmem
  simp [publishes] at htask

theorem countP_unwind (rest : List (Task R P)) :
    (∀ token, (rest.flatMap Task.unwind).countP (isCancel token) = 0) ∧
      (rest.flatMap Task.unwind).countP isHolding ≤ rest.countP isHolding ∧
      ∀ stage, .holding stage ∈ rest.flatMap Task.unwind → stage = .release ∧
        ∃ held, .holding held ∈ rest ∧ isDrained held := by
  induction rest with
  | nil => simp
  | cons task rest ih =>
    obtain ⟨hcancels, hsingle, hholding⟩ := ih
    refine ⟨fun token => ?_, ?_, fun stage hmem => ?_⟩
    · rw [List.flatMap_cons, List.countP_append, hcancels token]
      unfold Task.unwind
      split <;> simp [isCancel]
    · rw [List.flatMap_cons, List.countP_append, List.countP_cons]
      have hhead : (Task.unwind task).countP isHolding ≤ if isHolding task then 1 else 0 := by
        unfold Task.unwind
        split <;> simp [isHolding]
      omega
    · rw [List.flatMap_cons, List.mem_append] at hmem
      rcases hmem with hmem | hmem
      · unfold Task.unwind at hmem
        split at hmem <;> simp only [List.mem_cons, List.not_mem_nil, or_false,
          Task.holding.injEq, reduceCtorEq] at hmem
        rename_i held hdrained
        refine ⟨hmem, held, List.mem_cons_self, ?_⟩
        cases held <;> simp_all [isDrained]
      · obtain ⟨hstage, held, hheld, hdrained⟩ := hholding stage hmem
        exact ⟨hstage, held, List.mem_cons_of_mem _ hheld, hdrained⟩

/-- What a panic leaves, where no publication is under way. -/
theorem fewer_unwind {rest : List (Task R P)}
    (hrest : ∀ applied, .holding (.publish applied) ∉ rest) :
    Fewer (rest.flatMap Task.unwind) rest where
  cancels := fun token => by
    rw [(countP_unwind rest).1 token]
    exact Nat.zero_le _
  single := (countP_unwind rest).2.1
  holding := by
    intro stage hmem
    obtain ⟨rfl, held, hheld, hdrained⟩ := (countP_unwind rest).2.2 stage hmem
    exact .inr ⟨rfl, held, hheld, hdrained⟩
  publish := fun applied hmem => absurd hmem (hrest applied)

theorem Inv.fewer {initial : ConfigData R} {core : Core R} (h : Inv initial core all)
    (hfewer : Fewer all' all) : Inv initial core all' where
  orderly := h.orderly
  accounted := h.accounted.tasks hfewer.cancels
  live := h.live
  turning := by
    have hturning := h.turning
    refine ⟨hfewer.single.trans hturning.single, fun stage hmem => ?_, fun applied hmem => ?_, ?_⟩
    · rcases hfewer.holding stage hmem with hmem | ⟨-, held, hheld, hdrained⟩
      · exact hturning.holding stage hmem
      · obtain ⟨hturn, hactive⟩ := hturning.holding held hheld
        exact ⟨hturn, fun _ => hactive hdrained⟩
    · rcases hfewer.holding _ hmem with hmem | ⟨hstage, -⟩
      · exact hturning.publishing applied hmem
      · simp [isPublish] at hstage
    · rcases hturning.agree with hagree | hagree | hagree | ⟨applied, hmem⟩
      · exact .inl hagree
      · exact .inr (.inl hagree)
      · exact .inr (.inr (.inl hagree))
      · exact .inr (.inr (.inr ⟨applied, hfewer.publish applied hmem⟩))

section changes

variable {initial : ConfigData R} {core : Core R} {all : List (Task R P)}

variable {x : ℕ × Operation} {event : Event R} {token : ℕ} {permit : Permit R} {state : State R}
  {applied : SettingsTransition R}

theorem Accounted.lt_nextId (h : Accounted core all) (hx : x ∈ core.state.operations) :
    x.1 < core.state.nextId :=
  h.numbered _ (mem_of_standing (h.standing x hx)) x.1 rfl

/-- Operations may change but for their tokens, hosts and commits, ids may be handed
out, and admission may close. -/
theorem Inv.reshape (h : Inv initial core all) (state : State R)
    (f : ℕ × Operation → ℕ × Operation)
    (hf : ∀ x, (f x).1 = x.1 ∧ (f x).2.host = x.2.host ∧ (f x).2.committed = x.2.committed)
    (hoperations : state.operations = core.state.operations.map f)
    (hconfig : state.config = core.state.config)
    (htransitioning : state.transitioning = core.state.transitioning)
    (hactive : state.active = core.state.active) (hnext : core.state.nextId ≤ state.nextId)
    (hclosed : core.state.closed = true → state.closed = true) :
    Inv initial { core with state } all where
  orderly := h.orderly
  accounted := by
    refine ⟨fun token => ?_, fun event hevent token htoken =>
      (h.accounted.numbered event hevent token htoken).trans_le hnext,
      fun token hmem => (h.accounted.due token hmem).trans_le hnext, h.accounted.hosted,
      fun x hx => ?_, fun x hx hcommitted => ?_, fun hpoisoned x hx hcommitted => ?_⟩
    · have hcount : (state.operations.countP (·.1 == token)) =
          core.state.operations.countP (·.1 == token) := by
        rw [hoperations, List.countP_map]
        exact List.countP_congr fun x _ => by simp [(hf x).1]
      have honce := h.accounted.once token
      unfold occurrences at honce ⊢
      simp only [hcount]
      exact honce
    all_goals
      simp only [hoperations] at hx
      obtain ⟨y, hy, rfl⟩ := List.mem_map.1 hx
      obtain ⟨htoken, hhost, hsame⟩ := hf y
    · rw [htoken, hhost]
      exact h.accounted.standing y hy
    · rw [htoken]
      exact h.accounted.committed y hy (hsame ▸ hcommitted)
    · rw [htoken]
      exact h.accounted.uncommitted hpoisoned y hy (hsame ▸ hcommitted)
  live := by
    obtain ⟨hgranted, hpermits, hlisted, hnodup, hhosts, hforce⟩ := h.live
    rw [← hactive] at hpermits hlisted hnodup hhosts
    exact ⟨hgranted, hpermits, hlisted, hnodup, hhosts, hforce⟩
  turning := by
    obtain ⟨hsingle, hholding, hpublishing, hagree⟩ := h.turning
    refine ⟨hsingle, ?_, hpublishing, ?_⟩
    · simp only [htransitioning, hactive]
      exact hholding
    · simp only [hconfig]
      rcases hagree with hagree | hagree | hagree
      · exact .inl hagree
      · exact .inr (.inl (hclosed hagree))
      · exact .inr (.inr hagree)

/-- Operations are taken out, and their cancellations become due. -/
theorem Inv.taken (h : Inv initial core all) (operations : List (ℕ × Operation))
    (tokens : List ℕ) (hsub : ∀ x ∈ operations, x ∈ core.state.operations)
    (htokens : ∀ token ∈ tokens, ∃ x ∈ core.state.operations, x.1 = token)
    (hcount : ∀ token, tokens.count token + operations.countP (·.1 == token) ≤
      core.state.operations.countP (·.1 == token)) :
    Inv initial { core with state := { core.state with operations } } (cancels tokens ++ all) where
  orderly := h.orderly
  accounted := by
    refine ⟨fun token => ?_, h.accounted.numbered, fun token hmem => ?_, h.accounted.hosted,
      fun x hx => h.accounted.standing x (hsub x hx),
      fun x hx => h.accounted.committed x (hsub x hx),
      fun hpoisoned x hx => h.accounted.uncommitted hpoisoned x (hsub x hx)⟩
    · have honce := h.accounted.once token
      have hle := hcount token
      have hcancels : (cancels tokens : List (Task R P)).countP (isCancel token) =
          tokens.count token := by
        rw [cancels, List.countP_map, List.count]
        rfl
      unfold occurrences at honce ⊢
      rw [List.countP_append, hcancels]
      simp only
      omega
    · rcases List.mem_append.1 hmem with hmem | hmem
      · obtain ⟨t, ht, heq⟩ := List.mem_map.1 hmem
        obtain rfl : t = token := by simpa using heq
        obtain ⟨x, hx, rfl⟩ := htokens t ht
        exact h.accounted.lt_nextId hx
      · exact h.accounted.due token hmem
  live := { h.live with }
  turning := by
    obtain ⟨hsingle, hholding, hpublishing, hagree⟩ := h.turning
    have hnone : ∀ stage, (.holding stage : Task R P) ∉ cancels tokens := by
      intro stage hmem
      simp [cancels] at hmem
    refine ⟨?_, fun stage hmem => ?_, fun applied hmem => ?_, ?_⟩
    · rw [List.countP_append, List.countP_eq_zero.2 fun task htask => ?_]
      · simpa using hsingle
      · obtain ⟨t, -, rfl⟩ := List.mem_map.1 htask
        simp [isHolding]
    · exact hholding stage ((List.mem_append.1 hmem).resolve_left (hnone stage))
    · exact hpublishing applied ((List.mem_append.1 hmem).resolve_left (hnone _))
    · rcases hagree with hagree | hagree | hagree | ⟨applied, hmem⟩
      · exact .inl hagree
      · exact .inr (.inl hagree)
      · exact .inr (.inr (.inl hagree))
      · exact .inr (.inr (.inr ⟨applied, List.mem_append_right _ hmem⟩))

theorem tokens_count (state : State R) (token : ℕ) :
    state.tokens.count token = state.operations.countP (·.1 == token) := by
  rw [State.tokens, List.count, List.countP_map]
  rfl

theorem Inv.removed (h : Inv initial core all) (token : ℕ) :
    Inv initial { core with state := (core.state.remove token).1 }
      (cancels (core.state.remove token).2 ++ all) := by
  apply h.taken
  · exact fun x hx => (List.mem_filter.1 hx).1
  · intro t ht
    simp only [State.remove] at ht
    split at ht
    · rename_i hmem
      obtain rfl := List.mem_singleton.1 ht
      obtain ⟨x, hx, heq⟩ := List.mem_map.1 (List.contains_iff_mem.1 hmem)
      exact ⟨x, hx, heq⟩
    · cases ht
  · intro t
    have htokens := tokens_count core.state t
    simp only [State.remove, List.countP_filter]
    by_cases htoken : t = token
    · subst htoken
      rw [List.countP_eq_zero.2 (by simp)]
      split
      · rename_i hmem
        have hpos := List.count_pos_iff.2 (List.contains_iff_mem.1 hmem)
        simp only [List.count_singleton, beq_self_eq_true, if_true]
        omega
      · simp
    · have hzero : (if core.state.tokens.contains token then [token] else []).count t = 0 := by
        split
        · simp [Ne.symm htoken]
        · rfl
      rw [hzero, Nat.zero_add]
      exact List.countP_mono_left fun x _ hx => (Bool.and_eq_true_iff.1 hx).1

/-- An event that changes neither the active scopes nor the configuration. -/
def isPlain : Event R → Bool
  | .granted _ _ _ | .released _ | .stored _ => false
  | _ => true

theorem Live.note (h : Live initial core) (hplain : isPlain event) :
    Live initial (core.note event) := by
  obtain ⟨hgranted, hpermits, hlisted, hnodup, hhosts, hforce⟩ := h
  have hactive : activeTokens (event :: core.log) = activeTokens core.log := by
    clear * - hplain
    cases event <;> simp_all [isPlain, activeTokens]
  have hin : inForce initial (event :: core.log) = inForce initial core.log := by
    clear * - hplain
    cases event <;> simp_all [isPlain, inForce]
  exact ⟨fun permit hpermit => ⟨List.mem_cons_of_mem _ (hgranted permit hpermit).1,
    (hgranted permit hpermit).2⟩, hpermits, hactive.trans hlisted, hnodup,
    fun x hx => List.mem_cons_of_mem _ (hhosts x hx), hin.trans hforce⟩

theorem Turning.note (h : Turning core all) (event : Event R) :
    Turning (core.note event) all :=
  { h with }

/-- One more event of a token that was given out. -/
theorem Accounted.numbered_cons (h : Accounted core all) {token : ℕ}
    (htoken : token? event = some token) (hlt : token < core.state.nextId) :
    ∀ other ∈ event :: core.log, ∀ t, token? other = some t → t < core.state.nextId := by
  intro other hother t ht
  rcases List.mem_cons.1 hother with rfl | hother
  · rwa [← Option.some.inj (htoken.symm.trans ht)]
  · exact h.numbered other hother t ht

theorem Accounted.hosted_cons (h : Accounted core all)
    (hplain : ∀ token host, event ≠ .begun token host) (token host other : ℕ)
    (hmem : .begun token host ∈ event :: core.log)
    (hmem' : .begun token other ∈ event :: core.log) : host = other :=
  h.hosted token host other ((List.mem_cons.1 hmem).resolve_left (hplain _ _).symm)
    ((List.mem_cons.1 hmem').resolve_left (hplain _ _).symm)

/-- An event of no token. -/
theorem Accounted.note (h : Accounted core all) (htoken : token? event = none)
    (hstanding : ∀ x ∈ core.state.operations, Standing x.1 x.2.host (event :: core.log)) :
    Accounted (core.note event) all := by
  obtain ⟨honce, hnumbered, hdue, -, -, hcommitted, huncommitted⟩ := id h
  refine ⟨fun token => ?_, fun other hother => ?_, hdue, h.hosted_cons ?_,
    hstanding, fun x hx hx' => List.mem_cons_of_mem _ (hcommitted x hx hx'),
    fun hpoisoned x hx hx' config hmem => ?_⟩
  · have hends : ends token event = false := by
      clear * - htoken
      cases event <;> first | rfl | cases htoken
    have hle := honce token
    unfold occurrences at hle ⊢
    simpa [Core.note, List.countP_cons, hends] using hle
  · rcases List.mem_cons.1 hother with rfl | hother
    · simp [htoken]
    · exact hnumbered other hother
  · rintro token host rfl
    simp [token?] at htoken
  · refine huncommitted hpoisoned x hx hx' config ((List.mem_cons.1 hmem).resolve_left ?_)
    rintro rfl
    simp [token?] at htoken

/-- An event of no token that changes nothing. -/
theorem Inv.note (h : Inv initial core all) (hplain : isPlain event) (htoken : token? event = none)
    (hrightful : Rightful initial core.log event)
    (hstanding : ∀ x ∈ core.state.operations, Standing x.1 x.2.host (event :: core.log)) :
    Inv initial (core.note event) all :=
  ⟨h.orderly.cons hrightful, h.accounted.note htoken hstanding, h.live.note hplain,
    h.turning.note event⟩

theorem countP_eq_zero_of_fresh (h : Accounted core all) (htoken : core.state.nextId ≤ token) :
    occurrences core all token = 0 := by
  have hoperations : core.state.operations.countP (·.1 == token) = 0 := by
    refine List.countP_eq_zero.2 fun x hx => ?_
    have hlt := h.lt_nextId hx
    simp only [beq_iff_eq]
    omega
  have hcancels : all.countP (isCancel token) = 0 := by
    by_contra hpos
    have hlt := h.due token (mem_of_isCancel.1 (by omega))
    omega
  have hlog : core.log.countP (ends token) = 0 := by
    refine List.countP_eq_zero.2 fun event hevent hends => ?_
    have heq : token? event = some token := by
      cases event <;> simp_all [ends, token?]
    have hlt := h.numbered event hevent token heq
    omega
  unfold occurrences
  omega

/-- An operation is begun under the next id. -/
theorem Inv.begun (h : Inv initial core all) (host generation : ℕ) :
    Inv initial (({ core with state := { core.state with
      nextId := core.state.nextId + 1
      operations := core.state.operations ++
        [(core.state.nextId, (⟨{}, host, generation, false⟩ : Operation))] } }).note
      (.begun core.state.nextId host)) all where
  orderly := h.orderly.cons trivial
  accounted := by
    have hfresh := countP_eq_zero_of_fresh h.accounted (le_refl core.state.nextId)
    obtain ⟨honce, hnumbered, hdue, hhosted, hstanding, hcommitted, huncommitted⟩ := h.accounted
    have hnew : ∀ event ∈ core.log, token? event ≠ some core.state.nextId := by
      intro event hevent heq
      have hlt := hnumbered event hevent _ heq
      omega
    refine ⟨fun token => ?_, fun event hevent token htoken => ?_, fun token hmem => ?_,
      fun token host host' hmem hmem' => ?_, fun x hx => ?_, fun x hx hx' => ?_,
      fun hpoisoned x hx hx' config hmem => ?_⟩
    · have hle := honce token
      unfold occurrences at hle hfresh ⊢
      simp only [Core.note, List.countP_append, List.countP_cons, List.countP_nil, ends]
      by_cases htoken : core.state.nextId = token
      · subst htoken
        simp only [beq_self_eq_true, if_true, Bool.false_eq_true, if_false]
        omega
      · simp only [beq_iff_eq, htoken, if_false, Bool.false_eq_true]
        omega
    · rcases List.mem_cons.1 hevent with rfl | hevent
      · obtain rfl : core.state.nextId = token := by simpa [token?] using htoken
        exact Nat.lt_succ_self _
      · exact (hnumbered event hevent token htoken).trans (Nat.lt_succ_self _)
    · exact (hdue token hmem).trans (Nat.lt_succ_self _)
    · rcases List.mem_cons.1 hmem with heq | hmem <;> rcases List.mem_cons.1 hmem' with heq' | hmem'
      · simp only [Event.begun.injEq] at heq heq'
        exact heq.2.trans heq'.2.symm
      · simp only [Event.begun.injEq] at heq
        exact absurd (heq.1 ▸ rfl) (hnew _ hmem')
      · simp only [Event.begun.injEq] at heq'
        exact absurd (heq'.1 ▸ rfl) (hnew _ hmem)
      · exact hhosted token host host' hmem hmem'
    · rcases List.mem_append.1 hx with hx | hx
      · exact .inr (hstanding x hx)
      · obtain rfl := List.mem_singleton.1 hx
        simp [Standing, Core.note]
    · rcases List.mem_append.1 hx with hx | hx
      · exact List.mem_cons_of_mem _ (hcommitted x hx hx')
      · obtain rfl := List.mem_singleton.1 hx
        cases hx'
    · have hmem := (List.mem_cons.1 hmem).resolve_left (by simp)
      rcases List.mem_append.1 hx with hx | hx
      · exact huncommitted hpoisoned x hx hx' config hmem
      · obtain rfl := List.mem_singleton.1 hx
        exact absurd rfl (hnew _ hmem)
  live := by
    have hlive : Live initial (core.note (.begun core.state.nextId host)) := h.live.note rfl
    exact { hlive with }
  turning := { h.turning with }

theorem mem_of_lookup {α : Type} {rows : List (ℕ × α)} {key : ℕ} {value : α}
    (h : rows.lookup key = some value) : (key, value) ∈ rows := by
  induction rows with
  | nil => simp at h
  | cons row rest ih =>
    rw [List.lookup_cons] at h
    split at h
    · rename_i heq
      obtain rfl : key = row.1 := by simpa using heq
      obtain rfl := Option.some.inj h
      exact List.mem_cons_self
    · exact List.mem_cons_of_mem _ (ih h)

theorem not_mem_of_lookup {α : Type} {rows : List (ℕ × α)} {key : ℕ}
    (h : rows.lookup key = none) : key ∉ rows.map (·.1) := by
  intro hmem
  obtain ⟨row, hrow, rfl⟩ := List.mem_map.1 hmem
  exact absurd (List.lookup_eq_none_iff.1 h row hrow) (by simp)

/-- What a granted scope was checked for. -/
theorem acquire_cases {s s' : State R} {scope : CaptureScope}
    (h : s.acquire token scope = some (s', permit)) :
    s.closed = false ∧ s.transitioning = false ∧ ∃ operation,
      (token, operation) ∈ s.operations ∧ operation.committed = (scope == .completion) ∧
      token ∉ s.active.map (·.1) ∧
      permit = ⟨operation.privacy, token, scope, false, s.config⟩ ∧
      s' = { s with
        operations :=
          if scope = .completion then s.operations.filter (·.1 != token) else s.operations
        active := s.active ++ [(token, operation.host)] } := by
  unfold State.acquire at h
  split at h
  · cases h
  rename_i hopen
  obtain ⟨operation, hlookup, hrest⟩ := Option.bind_eq_some_iff.1 h
  split at hrest
  · cases hrest
  rename_i hchecks
  simp only [Bool.or_eq_true, not_or, Bool.not_eq_true, bne_eq_false_iff_eq,
    Option.isSome_eq_false_iff, Option.isNone_iff_eq_none] at hopen hchecks
  obtain ⟨heq, rfl⟩ := Prod.mk.inj (Option.some.inj hrest)
  exact ⟨hopen.1, hopen.2, operation, mem_of_lookup hlookup, hchecks.1.2,
    not_mem_of_lookup hchecks.2, rfl, heq.symm⟩

theorem Turning.quiet (h : Turning core all) (hidle : core.state.transitioning = false)
    (stage : Stage R) : .holding stage ∉ all := by
  intro hmem
  have htrue := (h.holding stage hmem).1
  rw [hidle] at htrue
  cases htrue

theorem Live.mem_active (h : Live initial core) (hpermit : permit ∈ core.permits) :
    permit.token ∈ core.state.active.map (·.1) := by
  rw [← h.permits]
  exact List.mem_map_of_mem hpermit

theorem count_pos_of_mem (hx : x ∈ core.state.operations) :
    0 < core.state.operations.countP (·.1 == x.1) :=
  List.countP_pos_iff.2 ⟨x, hx, by simp⟩

theorem not_ended (h : Accounted core all) (hx : x ∈ core.state.operations) :
    core.log.countP (ends x.1) = 0 := by
  have hpos := count_pos_of_mem hx
  have honce := h.once x.1
  unfold occurrences at honce
  omega

theorem not_completed {log : List (Event R)} (h : log.countP (ends token) = 0) :
    .cancelled token ∉ log ∧ ∀ config, .granted token .completion config ∉ log :=
  ⟨fun hmem => List.countP_eq_zero.1 h _ hmem (by simp [ends]),
    fun config hmem => List.countP_eq_zero.1 h _ hmem (by simp [ends])⟩

/-- A scope is granted. -/
theorem Inv.acquire (h : Inv initial core all) (hpoisoned : core.poisoned = false)
    {scope : CaptureScope} (hacquire : core.state.acquire token scope = some (state, permit)) :
    Inv initial (({ core with state, permits := core.permits ++ [permit] }).note
      (.granted token scope permit.config)) all := by
  obtain ⟨hopen, hidle, operation, hmem, hcommitted, hinactive, rfl, rfl⟩ :=
    acquire_cases hacquire
  have hquiet := h.turning.quiet hidle
  have hagree : core.state.config = core.settings.config := by
    rcases h.turning.agree with hagree | hclosed | hpoison | ⟨applied, happlied⟩
    · exact hagree
    · rw [hopen] at hclosed
      cases hclosed
    · rw [hpoisoned] at hpoison
      cases hpoison
    · exact absurd happlied (hquiet _)
  have hended := not_ended h.accounted hmem
  have hstands := h.accounted.standing _ hmem
  refine ⟨h.orderly.cons ⟨hagree.trans h.live.force.symm, ⟨_, hstands⟩, ?_⟩, ?_, ?_, ?_⟩
  · cases scope with
    | read => trivial
    | commit =>
      intro config hgranted
      obtain ⟨permit, hpermit, htoken, -⟩ :=
        h.accounted.uncommitted hpoisoned _ hmem hcommitted config hgranted
      have hactive := h.live.mem_active hpermit
      rw [htoken] at hactive
      exact hinactive hactive
    | completion => exact ⟨h.accounted.committed _ hmem hcommitted, (not_completed hended).2⟩
  · have hsub : ∀ x ∈ (if scope = .completion then
        core.state.operations.filter (·.1 != token) else core.state.operations),
        x ∈ core.state.operations := by
      intro x hx
      split at hx
      · exact (List.mem_filter.1 hx).1
      · exact hx
    have hlt := h.accounted.lt_nextId hmem
    obtain ⟨honce, -, hdue, -, hstanding, hdone, huncommitted⟩ := h.accounted
    refine ⟨fun t => ?_, h.accounted.numbered_cons rfl hlt, hdue, h.accounted.hosted_cons nofun,
      fun x hx => hstanding x (hsub x hx),
      fun x hx hx' => List.mem_cons_of_mem _ (hdone x (hsub x hx) hx'),
      fun _ x hx hx' config hgranted => ?_⟩
    · have hle := honce t
      have hpos : 0 < core.state.operations.countP (·.1 == token) := count_pos_of_mem hmem
      unfold occurrences at hle ⊢
      simp only [Core.note, List.countP_cons, ends, Bool.and_eq_true, beq_iff_eq]
      by_cases hscope : scope = .completion
      · simp only [hscope, if_true, and_true]
        by_cases ht : token = t
        · subst ht
          have hfilter : (core.state.operations.filter (·.1 != token)).countP
              (·.1 == token) = 0 :=
            List.countP_eq_zero.2 (by simp)
          simp only [if_true]
          omega
        · have hfilter : (core.state.operations.filter (·.1 != token)).countP (·.1 == t) ≤
              core.state.operations.countP (·.1 == t) :=
            List.Sublist.countP_le List.filter_sublist
          simp only [ht, if_false]
          omega
      · simp only [hscope, if_false, and_false]
        omega
    · rcases List.mem_cons.1 hgranted with heq | hgranted
      · simp only [Event.granted.injEq] at heq
        exact ⟨_, List.mem_append_right _ (List.mem_singleton_self _), heq.1.symm,
          heq.2.1.symm, rfl⟩
      · obtain ⟨p, hp, hrest⟩ := huncommitted hpoisoned x (hsub x hx) hx' config hgranted
        exact ⟨p, List.mem_append_left _ hp, hrest⟩
  · have hbegun := mem_of_standing hstands
    obtain ⟨hgranted, hpermits, hlisted, hnodup, hhosts, hforce⟩ := h.live
    refine ⟨fun p hp => ?_, ?_, ?_, ?_, fun x hx => ?_, hforce⟩
    · rcases List.mem_append.1 hp with hp | hp
      · exact ⟨List.mem_cons_of_mem _ (hgranted p hp).1, (hgranted p hp).2⟩
      · obtain rfl := List.mem_singleton.1 hp
        exact ⟨List.mem_cons_self, hagree⟩
    · simp only [Core.note, List.map_append, hpermits]
      rfl
    · simp only [Core.note, List.map_append, activeTokens, hlisted]
      rfl
    · simp only [Core.note, List.map_append]
      exact List.nodup_append'.2 ⟨hnodup, List.nodup_singleton _, by simpa using hinactive⟩
    · rcases List.mem_append.1 hx with hx | hx
      · exact List.mem_cons_of_mem _ (hhosts x hx)
      · obtain rfl := List.mem_singleton.1 hx
        exact List.mem_cons_of_mem _ hbegun
  · exact ⟨h.turning.single, fun stage hstage => absurd hstage (hquiet stage),
      h.turning.publishing, .inl hagree⟩

/-- The permit of a token is marked, and its operation with it. -/
theorem Inv.commit (h : Inv initial core all) (hpermit : core.permit token = some permit)
    (hscope : permit.scope = .commit) :
    Inv initial ((core.commit token).note (.committed token)) all := by
  have hmem : permit ∈ core.permits := List.mem_of_find?_eq_some hpermit
  have htoken : permit.token = token := by simpa using List.find?_some hpermit
  have hgrant := (h.live.granted permit hmem).1
  rw [htoken, hscope] at hgrant
  have hmark : ∀ p : Permit R,
      (if p.token == token then { p with committed := true } else p).token = p.token := by
    intro p
    split <;> rfl
  refine ⟨h.orderly.cons ⟨_, hgrant⟩, ?_, ?_, ?_⟩
  · have hlt := h.accounted.numbered _ hgrant token rfl
    -- The operations as they stand after: the same, or with the commit noted.
    have hsame : ∀ x ∈ (core.commit token).state.operations,
        ∃ y ∈ core.state.operations, y.1 = x.1 ∧ y.2.host = x.2.host ∧
          (x.2.committed = true → y.2.committed = true ∨ x.1 = token) ∧
          (x.2.committed = false → y.2.committed = false ∧
            (core.poisoned = false → x.1 ≠ token)) := by
      intro x hx
      unfold Core.commit at hx
      simp only at hx
      split at hx
      · rename_i hpoisoned
        exact ⟨x, hx, rfl, rfl, .inl, fun hx' => ⟨hx', fun hfalse => by simp_all⟩⟩
      · obtain ⟨y, hy, rfl⟩ := List.mem_map.1 hx
        refine ⟨y, hy, ?_⟩
        split
        · rename_i heq
          have heq' : y.1 = token := by simpa using heq
          exact ⟨rfl, rfl, fun _ => .inr heq', fun hfalse => by simp at hfalse⟩
        · rename_i hne
          exact ⟨rfl, rfl, .inl, fun hfalse => ⟨hfalse, fun _ heq => hne (by simpa using heq)⟩⟩
    have hcount : ∀ t, (core.commit token).state.operations.countP (·.1 == t) =
        core.state.operations.countP (·.1 == t) := by
      intro t
      unfold Core.commit
      simp only
      split
      · rfl
      · unfold State.change
        simp only [List.countP_map]
        refine List.countP_congr fun x _ => ?_
        simp only [Function.comp]
        split <;> rfl
    have hnext : (core.commit token).state.nextId = core.state.nextId := by
      unfold Core.commit
      simp only
      split <;> rfl
    obtain ⟨honce, -, hdue, -, hstanding, hdone, huncommitted⟩ := h.accounted
    refine ⟨fun t => ?_, ?_, fun t ht => ?_, h.accounted.hosted_cons nofun, fun x hx => ?_, fun x hx hx' => ?_,
      fun hpoisoned x hx hx' config hgranted => ?_⟩
    · have hle := honce t
      unfold occurrences at hle ⊢
      have hlog : (core.commit token).log = core.log := rfl
      simpa [Core.note, List.countP_cons, ends, hcount t, hlog] using hle
    · simp only [Core.note, hnext]
      exact h.accounted.numbered_cons rfl hlt
    · simp only [Core.note, hnext]
      exact hdue t ht
    · obtain ⟨y, hy, hkey, hhost, -⟩ := hsame x hx
      rw [← hkey, ← hhost]
      exact hstanding y hy
    · obtain ⟨y, hy, hkey, -, hcommitted, -⟩ := hsame x hx
      rcases hcommitted hx' with hy' | heq
      · rw [← hkey]
        exact List.mem_cons_of_mem _ (hdone y hy hy')
      · rw [heq]
        exact List.mem_cons_self
    · obtain ⟨y, hy, hkey, -, -, hcommitted⟩ := hsame x hx
      obtain ⟨hy', hne⟩ := hcommitted hx'
      have hgranted := (List.mem_cons.1 hgranted).resolve_left (by simp)
      rw [← hkey] at hgranted
      obtain ⟨p, hp, hkey', hscope', hfalse⟩ := huncommitted hpoisoned y hy hy' config hgranted
      have hother : ¬ (p.token == token) = true := by
        rw [beq_iff_eq, hkey', hkey]
        exact hne hpoisoned
      exact ⟨p, List.mem_map.2 ⟨p, hp, if_neg hother⟩, hkey'.trans hkey, hscope', hfalse⟩
  · have hactive : (core.commit token).state.active = core.state.active := by
      unfold Core.commit
      simp only
      split <;> rfl
    obtain ⟨hgranted, hpermits, hlisted, hnodup, hhosts, hforce⟩ := h.live
    rw [← hactive] at hpermits hlisted hnodup hhosts
    refine ⟨fun p hp => ?_, ?_, hlisted, hnodup,
      fun x hx => List.mem_cons_of_mem _ (hhosts x hx), hforce⟩
    · obtain ⟨q, hq, rfl⟩ := List.mem_map.1 hp
      obtain ⟨hmem', hconfig⟩ := hgranted q hq
      split
      · exact ⟨List.mem_cons_of_mem _ hmem', hconfig⟩
      · exact ⟨List.mem_cons_of_mem _ hmem', hconfig⟩
    · refine Eq.trans ?_ hpermits
      simp only [Core.note, Core.commit, List.map_map]
      exact List.map_congr_left fun p _ => hmark p
  · obtain ⟨hsingle, hholding, hpublishing, hagree⟩ := h.turning
    have hstate : (core.commit token).state.transitioning = core.state.transitioning ∧
        (core.commit token).state.active = core.state.active ∧
        (core.commit token).state.config = core.state.config ∧
        (core.commit token).state.closed = core.state.closed := by
      unfold Core.commit
      simp only
      split <;> exact ⟨rfl, rfl, rfl, rfl⟩
    obtain ⟨hturn, hactive, hconfig, hclosed⟩ := hstate
    refine ⟨hsingle, fun stage hstage => ?_, hpublishing, ?_⟩
    · simp only [Core.note, hturn, hactive]
      exact hholding stage hstage
    · simp only [Core.note, hconfig, hclosed]
      exact hagree

/-- The settings of a permit, and all that follows it, are its own: no other permit has
its token. -/
theorem Live.unique (h : Live initial core) {other : Permit R} (hpermit : permit ∈ core.permits)
    (hother : other ∈ core.permits) (htoken : other.token = permit.token) : other = permit := by
  have hnodup : (core.permits.map (·.token)).Nodup := h.permits ▸ h.nodup
  exact List.inj_on_of_nodup_map hnodup hother hpermit htoken

/-- A scope is over; no operation is left that only this permit could commit. -/
theorem Inv.released (h : Inv initial core all) (hpermit : permit ∈ core.permits)
    (hclear : permit.scope = .commit → permit.committed = false →
      ∀ x ∈ core.state.operations, x.1 ≠ permit.token) :
    Inv initial (({ core with
      permits := core.permits.filter (·.token != permit.token)
      state := { core.state with
        active := core.state.active.filter (·.1 != permit.token) } }).note
      (.released permit.token)) all := by
  have hlt := h.accounted.numbered _ (h.live.granted permit hpermit).1 permit.token rfl
  refine ⟨h.orderly.cons trivial, ?_, ?_, ?_⟩
  · obtain ⟨honce, -, hdue, -, hstanding, hdone, huncommitted⟩ := h.accounted
    refine ⟨fun t => ?_, h.accounted.numbered_cons rfl hlt, hdue, h.accounted.hosted_cons nofun,
      hstanding,
      fun x hx hx' => List.mem_cons_of_mem _ (hdone x hx hx'),
      fun hpoisoned x hx hx' config hgranted => ?_⟩
    · have hle := honce t
      unfold occurrences at hle ⊢
      simpa [Core.note, List.countP_cons, ends] using hle
    · have hgranted := (List.mem_cons.1 hgranted).resolve_left (by simp)
      obtain ⟨p, hp, htoken, hscope, hfalse⟩ := huncommitted hpoisoned x hx hx' config hgranted
      refine ⟨p, List.mem_filter.2 ⟨hp, ?_⟩, htoken, hscope, hfalse⟩
      rw [bne_iff_ne]
      intro hsame
      obtain rfl := h.live.unique hpermit hp hsame
      exact hclear hscope hfalse x hx htoken.symm
  · obtain ⟨hgranted, hpermits, hlisted, hnodup, hhosts, hforce⟩ := h.live
    have hmap : (core.state.active.filter (·.1 != permit.token)).map (·.1) =
        (core.state.active.map (·.1)).filter (· != permit.token) := by
      rw [List.filter_map]
      rfl
    refine ⟨fun p hp => ?_, ?_, ?_, ?_, fun x hx => ?_, hforce⟩
    · obtain ⟨hmem, hconfig⟩ := hgranted p (List.mem_filter.1 hp).1
      exact ⟨List.mem_cons_of_mem _ hmem, hconfig⟩
    · refine Eq.trans ?_ hmap.symm
      rw [← hpermits, List.filter_map]
      rfl
    · refine Eq.trans ?_ hmap.symm
      rw [← hlisted]
      rfl
    · exact List.Nodup.sublist (List.Sublist.map _ List.filter_sublist) hnodup
    · exact List.mem_cons_of_mem _ (hhosts x (List.mem_filter.1 hx).1)
  · obtain ⟨hsingle, hholding, hpublishing, hagree⟩ := h.turning
    refine ⟨hsingle, fun stage hstage => ?_, hpublishing, hagree⟩
    obtain ⟨hturn, hactive⟩ := hholding stage hstage
    refine ⟨hturn, fun hdrained => ?_⟩
    simp only [Core.note, hactive hdrained]
    rfl

theorem Inv.drop (h : Inv initial core all) (hpermit : core.permit token = some permit) :
    Inv initial (({ core with
      permits := core.permits.filter (·.token != token)
      state := (core.state.release permit).1 }).note (.released token))
      (cancels (core.state.release permit).2 ++ all) := by
  have hmem : permit ∈ core.permits := List.mem_of_find?_eq_some hpermit
  obtain rfl : permit.token = token := by simpa using List.find?_some hpermit
  unfold State.release
  split
  · exact (h.removed permit.token).released hmem fun _ _ x hx heq => by
      simp only [State.remove] at hx
      simpa [heq] using (List.mem_filter.1 hx).2
  · rename_i hkept
    refine h.released hmem fun hscope hcommitted => ?_
    simp [hscope, hcommitted] at hkept

theorem Inv.cancelled (h : Inv initial core (.cancel token :: all)) :
    Inv initial (core.note (.cancelled token)) all := by
  have hcount : (.cancel token :: all).countP (isCancel token) =
      all.countP (isCancel token) + 1 := by
    rw [List.countP_cons]
    simp [isCancel]
  have hended : core.log.countP (ends token) = 0 := by
    have honce := h.accounted.once token
    unfold occurrences at honce
    omega
  refine ⟨h.orderly.cons (not_completed hended), ?_, h.live.note rfl, ?_⟩
  · have hlt := h.accounted.due token List.mem_cons_self
    obtain ⟨honce, -, hdue, -, hstanding, hdone, huncommitted⟩ := h.accounted
    refine ⟨fun t => ?_, h.accounted.numbered_cons rfl hlt,
      fun t ht => hdue t (List.mem_cons_of_mem _ ht), h.accounted.hosted_cons nofun,
      hstanding, fun x hx hx' => List.mem_cons_of_mem _ (hdone x hx hx'),
      fun hpoisoned x hx hx' config hgranted => ?_⟩
    · have hle := honce t
      unfold occurrences at hle ⊢
      simp only [List.countP_cons, isCancel] at hle
      simp only [Core.note, List.countP_cons, ends]
      by_cases ht : token = t
      · simp only [ht, beq_self_eq_true, if_true] at hle ⊢
        omega
      · have hne : (token == t) = false := by simpa using ht
        simp only [hne, Bool.false_eq_true, if_false] at hle ⊢
        omega
    · exact huncommitted hpoisoned x hx hx' config
        ((List.mem_cons.1 hgranted).resolve_left (by simp))
  · have hquiet : Fewer [] [(.cancel token : Task R P)] := fewer_quiet rfl (by simp)
    exact (h.fewer (hquiet.append all)).turning.note _

theorem Inv.revoked (h : Inv initial core all) (host : ℕ) :
    Inv initial (({ core with state := (core.state.revokeHost host).1 }).note
      (.cut (.revoked host))) (cancels (core.state.revokeHost host).2 ++ all) := by
  have hhosts := h.reshape { core.state with
    hosts := core.state.hosts.filter (·.1 != host) } id (fun _ => ⟨rfl, rfl, rfl⟩)
    (List.map_id _).symm rfl rfl rfl (le_refl _) id
  have htaken := hhosts.taken (core.state.operations.filter (·.2.host != host))
    ((core.state.operations.filter (·.2.host == host)).map (·.1))
    (fun x hx => (List.mem_filter.1 hx).1)
    (fun token htoken => by
      obtain ⟨x, hx, rfl⟩ := List.mem_map.1 htoken
      exact ⟨x, (List.mem_filter.1 hx).1, rfl⟩)
    (fun token => by
      rw [List.countP_eq_countP_filter_add core.state.operations (·.1 == token)
        (·.2.host == host)]
      simp only [List.count, List.countP_map]
      exact le_refl _)
  refine htaken.note rfl rfl trivial fun x hx => ⟨?_, htaken.accounted.standing x hx⟩
  have hne := (List.mem_filter.1 hx).2
  rw [bne_iff_ne] at hne
  exact fun heq => hne heq.symm

/-- All operations are taken out. -/
theorem Inv.emptied (h : Inv initial core all) :
    Inv initial { core with state := { core.state with operations := [] } }
      (cancels core.state.tokens ++ all) := by
  apply h.taken
  · simp
  · exact fun token htoken => by
      obtain ⟨x, hx, heq⟩ := List.mem_map.1 htoken
      exact ⟨x, hx, heq⟩
  · intro token
    rw [tokens_count]
    simp

theorem Inv.failClosed (h : Inv initial core all) :
    Inv initial (({ core with state := core.state.failClosed.1 }).note (.cut .closed))
      (cancels core.state.failClosed.2 ++ all) := by
  have hempty := h.emptied
  have hclosed := hempty.reshape core.state.failClosed.1 id
    (fun _ => ⟨rfl, rfl, rfl⟩) rfl rfl rfl rfl (le_refl _) (fun _ => rfl)
  exact hclosed.note rfl rfl trivial fun x hx => by cases hx

/-- A transition begins, and its thread waits for the scopes that are active. -/
theorem Inv.transition (h : Inv initial core all) {cancelled : List ℕ}
    (hturn : core.state.transition = .begun state cancelled) (applied : SettingsTransition R) :
    Inv initial (({ core with state }).note (.cut .transition))
      (cancels cancelled ++ .holding (.draining applied) :: all) := by
  unfold State.transition at hturn
  split at hturn
  · cases hturn
  rename_i hopen
  split at hturn
  swap
  · cases hturn
  obtain ⟨rfl, rfl⟩ := Turn.begun.inj hturn
  simp only [Bool.or_eq_true, not_or, Bool.not_eq_true] at hopen
  have hquiet := h.turning.quiet hopen.2
  have hheld : Inv initial { core with state := { core.state with
      transitioning := true
      generation := core.state.generation + 1 } } (.holding (.draining applied) :: all) := by
    refine ⟨h.orderly, h.accounted.tasks (by simp [isCancel]),
      { h.live with },
      .held (List.countP_eq_zero.2 fun task htask => ?_) rfl
        (fun hdrained => by simp [isDrained] at hdrained) (fun _ h => by cases h)
        (h.turning.agreed fun _ => hquiet _)⟩
    cases task <;> simp only [isHolding, Bool.false_eq_true, not_false_eq_true]
    exact absurd htask (hquiet _)
  exact hheld.emptied.note rfl rfl trivial fun x hx => by cases hx

/-- No transition is held beside a held one. -/
theorem Turning.last {held : Stage R} (h : Turning core (.holding held :: all)) :
    all.countP isHolding = 0 ∧ ∀ stage, .holding stage ∉ all := by
  have hlast : all.countP isHolding = 0 := by
    have hsingle := h.single
    rw [List.countP_cons] at hsingle
    simp only [isHolding, if_true] at hsingle
    omega
  exact ⟨hlast, fun stage hmem => List.countP_eq_zero.1 hlast _ hmem rfl⟩

theorem Live.permits_eq_nil (h : Live initial core) (hactive : core.state.active = []) :
    core.permits = [] := by
  have hpermits := h.permits
  rw [hactive] at hpermits
  exact List.map_eq_nil_iff.1 hpermits

/-- The stored settings change while no scope is active. -/
theorem Inv.write (h : Inv initial core (.holding (.write applied) :: all)) :
    Inv initial (({ core with
      settings := ⟨applied.config, applied.privateModeEpoch, applied.capturePrivacyEpoch⟩ }).note
      (.stored applied.config)) (.holding (.publish applied) :: all) := by
  obtain ⟨hturn, hactive⟩ := h.turning.holding _ List.mem_cons_self
  have hnone := hactive rfl
  have hpermits := h.live.permits_eq_nil hnone
  obtain ⟨hlast, hquiet⟩ := h.turning.last
  refine ⟨h.orderly.cons ?_, ?_, ?_, ?_⟩
  · refine Eq.trans h.live.active ?_
    rw [hnone]
    rfl
  · exact Accounted.note (h.accounted.tasks (by simp [isCancel])) rfl
      fun x hx => h.accounted.standing x hx
  · obtain ⟨hgranted, hpermits', hlisted, hnodup, hhosts, hforce⟩ := h.live
    refine ⟨fun permit hpermit => ?_, hpermits', hlisted, hnodup,
      fun x hx => List.mem_cons_of_mem _ (hhosts x hx), rfl⟩
    simp only [Core.note, hpermits, List.not_mem_nil] at hpermit
  · exact .held hlast hturn (fun _ => hnone) (fun _ hsame => by cases hsame; rfl)
      (.inr (.inr (.inr ⟨applied, rfl⟩)))

theorem Inv.publish (h : Inv initial core (.holding (.publish applied) :: all))
    (hpublish : core.state.publish applied.config = some state) :
    Inv initial (({ core with state }).note (.published applied.config))
      (.holding .effects :: all) := by
  have hsettings := h.turning.publishing applied List.mem_cons_self
  obtain ⟨hturn, hactive⟩ := h.turning.holding _ List.mem_cons_self
  have hnone := hactive rfl
  unfold State.publish at hpublish
  split at hpublish
  · cases hpublish
  obtain rfl := Option.some.inj hpublish
  obtain ⟨hlast, hquiet⟩ := h.turning.last
  have hchanged : Inv initial { core with state := { core.state with config := applied.config } }
      (.holding .effects :: all) := by
    exact ⟨h.orderly, h.accounted.tasks (by simp [isCancel]),
      { h.live with },
      .held hlast hturn (fun _ => hnone) (fun _ hsame => by cases hsame) (.inl hsettings)⟩
  refine hchanged.note rfl rfl ?_ fun x hx => h.accounted.standing x hx
  refine Eq.trans h.live.active ?_
  rw [hnone]
  rfl

/-- A publication that finds admission closed or poisoned. -/
theorem Inv.refused (h : Inv initial core (.holding (.publish applied) :: all))
    (hrefused : (if core.poisoned = true then none else core.state.publish applied.config) =
      none) : Inv initial core (.failClosed :: .holding .release :: all) := by
  obtain ⟨hlast, hquiet⟩ := h.turning.last
  obtain ⟨hturn, hactive⟩ := h.turning.holding _ List.mem_cons_self
  have hshut : core.state.closed = true ∨ core.poisoned = true := by
    by_contra hopen
    simp only [not_or, Bool.not_eq_true] at hopen
    simp [hopen, State.publish, hturn] at hrefused
  have hheld : Inv initial core (.holding .release :: all) := by
    refine ⟨h.orderly, h.accounted.tasks (by simp [isCancel]), h.live,
      .held hlast hturn (fun _ => hactive rfl) (fun _ hsame => by cases hsame) (.inr ?_)⟩
    rcases hshut with hclosed | hpoisoned
    · exact .inl hclosed
    · exact .inr (.inl hpoisoned)
  show Inv initial core ([.failClosed] ++ .holding .release :: all)
  exact hheld.fewer ((fewer_added (by simp [isQuiet])).append _)

/-- A held transition is dropped. -/
theorem Inv.release (h : Inv initial core (.holding .release :: all)) :
    Inv initial { core with state := { core.state with transitioning := false } } all := by
  obtain ⟨hlast, hquiet⟩ := h.turning.last
  exact ⟨h.orderly, h.accounted.tasks (by simp [isCancel]),
    { h.live with },
    hlast.trans_le (Nat.zero_le 1), fun stage hstage => absurd hstage (hquiet stage),
    fun applied happlied => absurd happlied (hquiet _),
    h.turning.agreed fun applied hmem =>
      hquiet _ ((List.mem_cons.1 hmem).resolve_left (by simp))⟩

/-- Nothing is active that a wait was for. -/
theorem rightful_drained (h : Inv initial core all) {drain : Drain}
    (hdrained : core.isDrained drain = true) : Rightful initial core.log (.drained drain) := by
  have hlisted := h.live.active
  cases drain with
  | transition | shutdown =>
    have hnone : core.state.active = [] := List.isEmpty_iff.1 hdrained
    rw [hnone] at hlisted
    exact hlisted
  | host host =>
    intro token htoken hbegun
    rw [hlisted] at htoken
    obtain ⟨x, hx, rfl⟩ := List.mem_map.1 htoken
    have hsame := h.accounted.hosted x.1 x.2 host (h.live.hosts x hx) hbegun
    simp only [Core.isDrained, State.activeOf, Bool.not_eq_true'] at hdrained
    exact List.any_eq_false.1 hdrained x hx (by simp [hsame])

theorem Inv.drained (h : Inv initial core all) {drain : Drain}
    (hdrained : core.isDrained drain = true) :
    Inv initial (core.note (.drained drain)) all :=
  h.note rfl rfl (rightful_drained h hdrained) fun x hx => h.accounted.standing x hx

/-- Quiet tasks take the place of one that publishes nothing. -/
theorem Inv.instead {task : Task R P} (h : Inv initial core (task :: all))
    (htask : publishes task = false) (tasks : List (Task R P))
    (htasks : ∀ task ∈ tasks, isQuiet task) : Inv initial core (tasks ++ all) :=
  h.fewer ((fewer_quiet htask htasks).append all)

/-- A task is over. -/
theorem Inv.over {task : Task R P} (h : Inv initial core (task :: all))
    (htask : publishes task = false) : Inv initial core all :=
  h.instead htask [] (by simp)

/-- A task that finds the state poisoned. -/
theorem Inv.shut {task : Task R P} {rest others : List (Task R P)}
    (h : Inv initial core (task :: (rest ++ others))) (htask : publishes task = false) :
    Inv initial core (.failClosed :: rest ++ others) :=
  h.instead htask [.failClosed] (by simp [isQuiet])

/-- One stage after another, the publication aside. -/
theorem Inv.stage {stage held : Stage R} (h : Inv initial core (.holding held :: all))
    (hstage : isPublish stage = false) (hheld : isPublish held = false)
    (hactive : isDrained stage → core.state.active = []) :
    Inv initial core (.holding stage :: all) := by
  obtain ⟨hlast, hquiet⟩ := h.turning.last
  obtain ⟨hturn, -⟩ := h.turning.holding _ List.mem_cons_self
  refine ⟨h.orderly, h.accounted.tasks (by simp [isCancel]), h.live,
    .held hlast hturn hactive (fun applied hsame => ?_) (h.turning.agreed fun applied hmem => ?_)⟩
  · subst hsame
    simp [isPublish] at hstage
  · rcases List.mem_cons.1 hmem with heq | hmem
    · obtain rfl := Task.holding.inj heq
      simp [isPublish] at hheld
    · exact hquiet _ hmem

theorem Inv.poison (h : Inv initial core all) :
    Inv initial { core with poisoned := true } all where
  orderly := h.orderly
  accounted := { h.accounted with uncommitted := nofun }
  live := { h.live with }
  turning := { h.turning with agree := .inr (.inr (.inl rfl)) }

/-- What only serial ownership is about. -/
theorem Inv.owned (h : Inv initial core all) (applying abandoned : Bool) :
    Inv initial { core with applying, abandoned } all where
  orderly := h.orderly
  accounted := { h.accounted with }
  live := { h.live with }
  turning := { h.turning with }

theorem openHost_cases (s : State R) (kind : CaptureKind) :
    ∃ hosts nextId closed, (s.openHost kind).1 = { s with hosts, nextId, closed } ∧
      s.nextId ≤ nextId ∧ (s.closed = true → closed = true) := by
  unfold State.openHost
  split
  · exact ⟨s.hosts, s.nextId, s.closed, rfl, le_refl _, id⟩
  · by_cases hlast : idMax ≤ s.nextId
    · simp only [State.id, hlast, if_true]
      exact ⟨s.hosts, s.nextId, true, rfl, le_refl _, fun _ => rfl⟩
    · simp only [State.id, hlast, if_false]
      exact ⟨_, s.nextId + 1, s.closed, rfl, Nat.le_succ _, id⟩

theorem begin_cases (s : State R) (host : ℕ) :
    (∃ closed answer, s.begin host = ({ s with closed }, answer) ∧
      (∀ id, answer ≠ .id id) ∧ (s.closed = true → closed = true)) ∨
    s.begin host = ({ s with
      nextId := s.nextId + 1
      operations := s.operations ++
        [(s.nextId, (⟨{}, host, s.generation, false⟩ : Operation))] }, .id s.nextId) := by
  unfold State.begin
  cases s.hosts.lookup host with
  | none => exact .inl ⟨s.closed, .refused, rfl, by simp, id⟩
  | some kind =>
    simp only
    split
    · exact .inl ⟨s.closed, .refused, rfl, by simp, id⟩
    · by_cases hlast : idMax ≤ s.nextId
      · simp only [State.id, hlast, if_true]
        exact .inl ⟨true, .exhausted, rfl, by simp, fun _ => rfl⟩
      · simp only [State.id, hlast, if_false]
        exact .inr trivial

theorem Inv.classify (h : Inv initial core all) (token : ℕ)
    (privacy : Merge.Payload.ClipboardPrivacy) :
    Inv initial { core with state := (core.state.classify token privacy).1 } all := by
  have hsame : Inv initial { core with state := core.state } all := h
  unfold State.classify
  split
  · exact hsame
  · split
    · exact hsame
    · split
      · exact hsame
      · exact h.reshape _ (fun x => if x.1 == token then
          (x.1, { x.2 with privacy := x.2.privacy.union privacy }) else x)
          (fun x => by split <;> exact ⟨rfl, rfl, rfl⟩) rfl rfl rfl rfl (le_refl _) id

end changes

section runs

variable {initial : ConfigData R} {host : Host R P} {core core' : Core R} {task : Task R P}
  {rest others tasks : List (Task R P)}

/-- A publication is the next thing its thread does. -/
def Headed (tasks : List (Task R P)) : Prop :=
  ∀ applied, .holding (.publish applied) ∉ tasks.tail

/-- Where a task leads to, if it runs, the invariant holds and its thread is headed. -/
def Leads (initial : ConfigData R) (others : List (Task R P))
    (next : Option (Core R × List (Task R P))) : Prop :=
  ∀ core tasks, next = some (core, tasks) → Inv initial core (tasks ++ others) ∧ Headed tasks

theorem Inv.leads (h : Inv initial core (tasks ++ others)) (hheaded : Headed tasks) :
    Leads initial others (some (core, tasks)) := by
  rintro core' tasks' ⟨⟩
  exact ⟨h, hheaded⟩

theorem leads_none : Leads initial others (none : Option (Core R × List (Task R P))) := nofun

theorem not_mem_cancels (tokens : List ℕ) (stage : Stage R) :
    (.holding stage : Task R P) ∉ cancels tokens := by
  intro hmem
  simp [cancels] at hmem

variable (hrest : ∀ applied, .holding (.publish applied) ∉ rest)

include hrest

theorem headed_rest : Headed rest :=
  fun applied hmem => hrest applied (List.mem_of_mem_tail hmem)

theorem headed_cancels (tokens : List ℕ) : Headed (cancels tokens ++ rest) := by
  refine headed_rest fun applied hmem => ?_
  exact (List.mem_append.1 hmem).elim (not_mem_cancels tokens _) (hrest applied)

theorem headed_cons (task : Task R P) : Headed (task :: rest) := hrest

theorem headed_cons_cons (first : Task R P) {second : Task R P}
    (hsecond : publishes second = false) : Headed (first :: second :: rest) := by
  intro applied hmem
  rcases List.mem_cons.1 hmem with rfl | hmem
  · cases hsecond
  · exact hrest applied hmem

theorem Inv.rests (h : Inv initial core (rest ++ others)) :
    Leads initial others (some (core, rest)) :=
  h.leads (headed_rest hrest)

/-- A call that only closes admission or hands out an id. -/
theorem Inv.answered {state : State R} (htask : publishes task = false)
    (h : Inv initial { core with state } (task :: (rest ++ others))) (answer : Answer) :
    Leads initial others (some (core.answered state answer rest)) := by
  unfold Core.answered
  split
  · exact Inv.leads (h.shut htask) (headed_cons hrest _)
  · exact Inv.rests hrest (h.over htask)

theorem leads_hold {stage : Stage R} (h : Inv initial core (.holding stage :: (rest ++ others))) :
    Leads initial others (hold core rest stage) := by
  have hactive := (h.turning.holding _ List.mem_cons_self).2
  cases stage with
  | draining applied =>
    simp only [hold]
    split
    · exact Inv.rests hrest (h.over rfl)
    · split
      · rename_i hdrained
        refine Inv.leads ?_ (headed_cons hrest _)
        exact (h.stage rfl rfl fun _ => List.isEmpty_iff.1 hdrained).drained hdrained
      · exact leads_none
  | persist applied => exact Inv.leads (h.stage rfl rfl hactive) (headed_cons hrest _)
  | write applied => exact Inv.leads h.write (headed_cons hrest _)
  | publish applied =>
    simp only [hold]
    split
    · rename_i hrefused
      exact Inv.leads (h.refused hrefused) (headed_cons_cons hrest _ rfl)
    · rename_i state hpublish
      refine Inv.leads ?_ (headed_cons hrest _)
      split at hpublish
      · cases hpublish
      · exact h.publish hpublish
  | effects => exact Inv.leads (h.stage rfl rfl hactive) (headed_cons hrest _)
  | release =>
    refine Inv.rests hrest ?_
    split
    · exact h.over rfl
    · exact h.release

variable {kind : CaptureKind} {on token revoked drained : ℕ} {scope : CaptureScope} {drain : Drain}
  {privacy : Merge.Payload.ClipboardPrivacy} {applied : SettingsTransition R} {patch : P}

theorem leads_openHost (h : Inv initial core (.openHost kind :: (rest ++ others))) :
    Leads initial others (perform host core rest (.openHost kind)) := by
  simp only [perform]
  split
  · exact Inv.leads (h.shut rfl) (headed_cons hrest _)
  · obtain ⟨hosts, nextId, closed, hstate, hnext, hclosed⟩ :=
      openHost_cases core.state kind
    have hopened := h.reshape (core.state.openHost kind).1 id
      (fun _ => ⟨rfl, rfl, rfl⟩) (by simp [hstate]) (by simp [hstate]) (by simp [hstate])
      (by simp [hstate]) (by simpa [hstate] using hnext) (by simpa [hstate] using hclosed)
    exact Inv.answered hrest rfl hopened (core.state.openHost kind).2

theorem leads_begin (h : Inv initial core (.begin on :: (rest ++ others))) :
    Leads initial others (perform host core rest (.begin on)) := by
  simp only [perform]
  split
  · exact Inv.leads (h.shut rfl) (headed_cons hrest _)
  · have hall : Inv initial core (rest ++ others) := h.over rfl
    rcases begin_cases core.state on with ⟨closed, answer, hbegin, hanswer, hclosed⟩ | hbegin
    · have hstate := h.reshape { core.state with closed } id
        (fun _ => ⟨rfl, rfl, rfl⟩) (List.map_id _).symm rfl rfl rfl (le_refl _) hclosed
      have hanswered := Inv.answered hrest rfl hstate answer
      rw [hbegin]
      cases answer with
      | id id => exact absurd rfl (hanswer id)
      | refused | exhausted => exact hanswered
    · rw [hbegin]
      exact Inv.rests hrest (hall.begun on core.state.generation)

theorem leads_classify (h : Inv initial core (.classify token privacy :: (rest ++ others))) :
    Leads initial others (perform host core rest (.classify token privacy)) := by
  simp only [perform]
  split
  · exact Inv.leads (h.shut rfl) (headed_cons hrest _)
  · exact Inv.rests hrest (Inv.classify (h.over rfl) token privacy)

theorem leads_acquire (h : Inv initial core (.acquire token scope :: (rest ++ others))) :
    Leads initial others (perform host core rest (.acquire token scope)) := by
  simp only [perform]
  split
  · exact Inv.leads (h.shut rfl) (headed_cons hrest _)
  · rename_i hpoisoned
    have hall : Inv initial core (rest ++ others) := h.over rfl
    split
    · exact Inv.rests hrest hall
    · rename_i hacquire
      exact Inv.rests hrest (hall.acquire (by simpa using hpoisoned) hacquire)

theorem leads_committed (h : Inv initial core (.committed token :: (rest ++ others))) :
    Leads initial others (perform host core rest (.committed token)) := by
  rintro core' tasks hperform
  obtain ⟨permit, hpermit, heq⟩ := Option.map_eq_some_iff.1 hperform
  have hall : Inv initial core (rest ++ others) := h.over rfl
  split at heq
  · obtain ⟨rfl, rfl⟩ := Prod.mk.inj heq
    exact ⟨hall, headed_rest hrest⟩
  · rename_i hscope
    obtain ⟨rfl, rfl⟩ := Prod.mk.inj heq
    exact ⟨hall.commit hpermit (by simpa using hscope), headed_rest hrest⟩

theorem leads_drop (h : Inv initial core (.drop token :: (rest ++ others))) :
    Leads initial others (perform host core rest (.drop token)) := by
  rintro core' tasks hperform
  obtain ⟨permit, hpermit, heq⟩ := Option.map_eq_some_iff.1 hperform
  obtain ⟨rfl, rfl⟩ := Prod.mk.inj heq
  rw [List.append_assoc]
  exact ⟨Inv.drop (h.over rfl) hpermit, headed_cancels hrest _⟩

theorem leads_revokeHost (h : Inv initial core (.revokeHost revoked :: (rest ++ others))) :
    Leads initial others (perform host core rest (.revokeHost revoked)) := by
  simp only [perform]
  split
  · exact Inv.rests hrest (h.over rfl)
  · refine Inv.leads ?_ (headed_cancels hrest _)
    rw [List.append_assoc]
    exact Inv.revoked (h.over rfl) revoked

theorem leads_drainHost (h : Inv initial core (.drainHost drained :: (rest ++ others))) :
    Leads initial others (perform host core rest (.drainHost drained)) := by
  simp only [perform]
  split
  · exact Inv.rests hrest (h.over rfl)
  · exact Inv.leads (h.instead rfl [.wait (.host drained)] (by simp [isQuiet]))
      (headed_cons hrest _)

theorem leads_wait (h : Inv initial core (.wait drain :: (rest ++ others))) :
    Leads initial others (perform host core rest (.wait drain)) := by
  have hall : Inv initial core (rest ++ others) := h.over rfl
  simp only [perform]
  split
  · exact Inv.rests hrest hall
  · split
    · rename_i hdrained
      exact Inv.rests hrest (hall.drained hdrained)
    · exact leads_none

theorem leads_prepare (h : Inv initial core (.prepare patch :: (rest ++ others))) :
    Leads initial others (perform host core rest (.prepare patch)) := by
  simp only [perform]
  split
  · exact Inv.rests hrest (h.over rfl)
  · rename_i applied _
    exact Inv.leads (h.instead rfl [.transition applied] (by simp [isQuiet]))
      (headed_cons hrest _)

theorem leads_transition (h : Inv initial core (.transition applied :: (rest ++ others))) :
    Leads initial others (perform host core rest (.transition applied)) := by
  simp only [perform]
  split
  · exact Inv.rests hrest (h.over rfl)
  · split
    · exact Inv.rests hrest (h.over rfl)
    · exact Inv.leads (h.shut rfl) (headed_cons hrest _)
    · rename_i hturn
      refine Inv.leads ?_ (headed_cancels (fun applied' hmem => ?_) _)
      · rw [List.append_assoc, List.cons_append]
        exact Inv.transition (h.over rfl) hturn applied
      · exact hrest applied' ((List.mem_cons.1 hmem).resolve_left (by simp))

theorem leads_perform (h : Inv initial core (task :: (rest ++ others))) :
    Leads initial others (perform host core rest task) := by
  cases task with
  | openHost kind => exact leads_openHost hrest h
  | begin on => exact leads_begin hrest h
  | classify token privacy => exact leads_classify hrest h
  | acquire token scope => exact leads_acquire hrest h
  | committed token => exact leads_committed hrest h
  | drop token => exact leads_drop hrest h
  | abandon token =>
    refine Inv.leads ?_ (headed_cancels hrest _)
    rw [List.append_assoc]
    exact Inv.removed (h.over rfl) token
  | revokeHost revoked => exact leads_revokeHost hrest h
  | drainHost drained => exact leads_drainHost hrest h
  | wait drain => exact leads_wait hrest h
  | failClosed =>
    refine Inv.leads ?_ (headed_cancels hrest _)
    rw [List.append_assoc]
    exact Inv.failClosed (h.over rfl)
  | cancel token => exact Inv.rests hrest h.cancelled
  | enterApply patch | enterAuthority =>
    simp only [perform]
    split
    · exact Inv.leads (h.shut rfl) (headed_cons hrest _)
    · split
      · exact leads_none
      · refine Inv.leads ?_ (headed_cons_cons hrest _ rfl)
        exact (h.instead rfl [_, .leaveApply] (by simp [isQuiet])).owned true core.abandoned
  | prepare patch => exact leads_prepare hrest h
  | transition applied => exact leads_transition hrest h
  | holding stage => exact leads_hold hrest h
  | authority => exact Inv.rests hrest (h.over rfl)
  | abandonApply => exact Inv.rests hrest (Inv.owned (h.over rfl) core.applying true)
  | leaveApply => exact Inv.rests hrest (Inv.owned (h.over rfl) false core.abandoned)

theorem leads_fail (h : Inv initial core (task :: (rest ++ others))) :
    Leads initial others (fail core rest task) := by
  unfold fail
  split
  iterate 4 exact Inv.rests hrest (h.over rfl)
  · exact Inv.leads (h.stage rfl rfl (h.turning.holding _ List.mem_cons_self).2)
      (headed_cons hrest _)
  · exact leads_none

theorem leads_unwound (h : Inv initial core (task :: (rest ++ others))) :
    Leads initial others (unwound core rest task) := by
  have hfewer := (fewer_unwind hrest).append others
  have hunwind : ∀ applied, .holding (.publish applied) ∉ rest.flatMap Task.unwind := by
    intro applied hmem
    have hrelease := ((countP_unwind rest).2.2 _ hmem).1
    cases hrelease
  unfold unwound
  split
  · exact Inv.rests hunwind (h.cancelled.fewer hfewer)
  iterate 2
    have hrelease := @Inv.stage _ _ _ _ _ .release _ h rfl rfl
      (h.turning.holding _ List.mem_cons_self).2
    exact Inv.leads (hrelease.fewer (hfewer.cons _)) (headed_cons hunwind _)
  · exact Inv.rests hunwind ((h.over rfl).fewer hfewer)
  · exact leads_none

theorem leads_exec {how : How} (h : Inv initial core (task :: (rest ++ others))) :
    Leads initial others (exec host core task rest how) := by
  cases how with
  | succeeds => exact leads_perform hrest h
  | fails => exact leads_fail hrest h
  | panics => exact leads_unwound hrest h

omit hrest

/-- What every run keeps: the invariant over all tasks, and each thread headed. -/
structure Sound (initial : ConfigData R) (s : Sys R P) : Prop where
  inv : Inv initial s.core s.tasks
  headed : ∀ thread ∈ s.threads, Headed thread

theorem sound_opened (config : ConfigData R) : Sound config (opened config : Sys R P) where
  inv := by
    refine ⟨fun event past hsuffix => ?_, ⟨?_, ?_, ?_, ?_, ?_, ?_, ?_⟩, ⟨?_, ?_, ?_, ?_, ?_, ?_⟩,
      ⟨?_, ?_, ?_, ?_⟩⟩
    · simp [opened] at hsuffix
    all_goals simp [opened, System.tasks, occurrences, activeTokens, inForce]
  headed := by simp [opened]

theorem isQuiet_call (call : Call P) : ∀ task ∈ (call.tasks : List (Task R P)), isQuiet task := by
  cases call <;> simp [Call.tasks, isQuiet]

theorem headed_call (call : Call P) : Headed (call.tasks : List (Task R P)) := by
  cases call <;> simp [Call.tasks, Headed]

theorem sound_step {s s' : Sys R P} {act : Act P} (h : Sound initial s)
    (hstep : step host s act = some s') : Sound initial s' := by
  cases act with
  | call call =>
    obtain rfl := Option.some.inj hstep
    refine ⟨?_, fun thread hthread => ?_⟩
    · rw [tasks_call]
      exact h.inv.fewer (.trans (.of_perm List.perm_append_comm)
        ((fewer_added (isQuiet_call call)).append s.tasks))
    · rcases List.mem_append.1 hthread with hthread | hthread
      · exact h.headed thread hthread
      · obtain rfl := List.mem_singleton.1 hthread
        exact headed_call call
  | run thread how =>
    obtain ⟨task, rest, tasks, others, hexec, hbefore, hafter, hmem, hthreads⟩ := run_cases hstep
    have hrest : ∀ applied, .holding (.publish applied) ∉ rest := h.headed _ hmem
    obtain ⟨hinv, hheaded⟩ := leads_exec hrest (h.inv.fewer (.of_perm hbefore.symm)) _ _ hexec
    refine ⟨hinv.fewer (.of_perm hafter), fun left hleft => ?_⟩
    rcases hthreads left hleft with hleft | rfl
    · exact h.headed left hleft
    · exact hheaded
  | poison =>
    obtain rfl := Option.some.inj hstep
    exact ⟨h.inv.poison, h.headed⟩

theorem sound_of_reaches {s : Sys R P} {allowed : Sys R P → Act P → Prop}
    (h : Reaches (machine host initial) allowed s) : Sound initial s := by
  apply h.invariant
  · rintro s rfl
    exact sound_opened initial
  · intro s s' act hsound _ hstep
    exact sound_step hsound hstep

/-- Whatever threads do in whatever order, the log is orderly, and each live permit
carries the configuration that is in force. -/
theorem no_capture_outlives_its_policy {s : Sys R P}
    (h : Reaches (machine host initial) (fun _ _ => True) s) :
    Orderly initial s.core.log ∧
      ∀ permit ∈ s.core.permits, permit.config = s.core.settings.config := by
  have hinv := (sound_of_reaches h).inv
  exact ⟨hinv.orderly, fun permit hpermit => (hinv.live.granted permit hpermit).2⟩

/-- Settings that a patch replaces whole. -/
def replacingHost : Host Unit (ConfigData Unit) := ⟨fun patch _ => some patch, fun _ => true⟩

def openSettings : ConfigData Unit := ⟨false, [], true, true, ()⟩

/-- A host opens, the settings change, and a capture begun after takes its commit. -/
def changedThenCommitted : List (Act (ConfigData Unit)) :=
  [.call (.openHost .explicit), .run 0 .succeeds,
    .call (.applyWithEffects { openSettings with skipTransient := false })] ++
  List.replicate 10 (.run 1 .succeeds) ++
  [.call (.begin 1), .run 2 .succeeds, .call (.acquire 2 .commit), .run 3 .succeeds]

theorem no_capture_outlives_its_policy_changed :
    ∃ s : Sys Unit (ConfigData Unit),
      Reaches (machine replacingHost openSettings) (fun _ _ => True) s ∧
        s.core.permits ≠ [] ∧ s.core.settings.config ≠ openSettings ∧
        Orderly openSettings s.core.log ∧
        ∀ permit ∈ s.core.permits, permit.config = s.core.settings.config := by
  have hstart : Reaches (machine replacingHost openSettings) (fun _ _ => True)
      (opened openSettings) := .start _ rfl
  have hreached := hstart.of_run_getD changedThenCommitted
    (Meets.of_forall (fun _ _ _ => trivial) _) (by decide) (opened openSettings)
  refine ⟨_, hreached, ?_, ?_, no_capture_outlives_its_policy hreached⟩
  · rw [← List.length_pos_iff_ne_nil]
    decide
  · decide

end runs

end CopyPaste.Capture.Outlive
