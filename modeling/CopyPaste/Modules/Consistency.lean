import CopyPaste.Modules.Safety

/-!
The module manager over whole runs: installs, updates, restarts, choices and removals in
any order, each with steps that fail or are the last ones of the process. As long as the
directories of a module can be read where it is removed, the registry in memory is the one
on the disk, every record has its package, and no record disappears before its directories.
-/

namespace CopyPaste.Modules.Consistency

open Lib Crash Packages Manager Safety

variable {V : Type} [LinearOrder V] (env : Env V)

/-- Between operations. -/
structure Consistent (world : World) : Prop where
  sound : Sound env.toVerifier world.registry world.disk
  memory : ∀ running ∈ world.running, running.memory = world.registry

/-- The turns in which whoever removes a module can read its directories. -/
def Reads (world : World) (turn : Turn) : Prop :=
  match turn.op with
  | .remove id => Readable (env.during "" turn.unreadable) world.disk id
  | .list => ∀ id record, world.registry.get id = some record → record.removing = true →
    Readable (env.during "" turn.unreadable) world.disk id
  | _ => True

/-- The worlds that turns lead to, each of a kind that is allowed. -/
inductive Reaches (allowed : World → Turn → Prop) : World → Prop
  | start : Reaches allowed World.empty
  | next {world : World} (turn : Turn) (reaches : Reaches allowed world) (allows : allowed world turn) :
    Reaches allowed (world.take env turn).2

/-- What a turn makes of a world. -/
structure Keeps (world : World) (turn : Turn) : Prop where
  consistent : Consistent env (world.take env turn).2
  follows : Follows env world.registry (world.take env turn).2.registry (world.take env turn).2.disk
  failed : ∀ e, (world.take env turn).1 = .error e →
    (world.take env turn).2.registry = world.registry

/-- The operations that would enable, update or stage a module. -/
def Targets (appVersion : String) (op : Op) (id : String) : Prop :=
  match op with
  | .install archive => ∃ manifest files, env.extract appVersion archive = .ok (manifest, files) ∧
    manifest.id = id
  | .stageUpdate other _ _ => other = id
  | .setEnabled other _ => other = id
  | _ => False

variable {env}

variable {turn : Turn} {world : World}

/-- Any operation of a running manager. -/
theorem sends_program {registry : Registry} {d : Disk} {appVersion : String}
    (hop : ∀ started, turn.op ≠ .restart started) (hreads : Reads env ⟨d, none⟩ turn)
    (hregistry : d.registry.getD [] = registry) :
    Sends (On fun disk memory => At env registry disk memory ∧ disk = d)
      (program (env.during appVersion turn.unreadable) turn.op) (fun _ => On (Followed env registry))
      (fun _ => On (At env registry)) (On (FollowedDisk env registry)) := by
  subst hregistry
  have hat : ∀ s, On (fun disk memory => At env (d.registry.getD []) disk memory ∧ disk = d) s →
      On (At env (d.registry.getD [])) s := fun s hs => hs.1
  have hpost : ∀ s, On (Upgraded env (d.registry.getD [])) s → On (Followed env (d.registry.getD [])) s :=
    fun s hs => Upgraded.followed hs
  have hcut : ∀ s, On (UpgradedDisk env (d.registry.getD [])) s →
      On (FollowedDisk env (d.registry.getD [])) s := fun s hs => UpgradedDisk.followedDisk hs
  cases hturn : turn.op with
  | restart started => exact absurd hturn (hop started)
  | install archive => exact sends_install.mono hat (fun _ => hpost) (fun _ _ => id) hcut
  | stageUpdate moduleId archive appVersion =>
    exact sends_stageUpdate.mono hat (fun _ s hs => hpost s (At.upgraded hs)) (fun _ _ => id) hcut
  | setEnabled moduleId enabled => exact sends_setEnabled.mono hat (fun _ => hpost) (fun _ _ => id) hcut
  | setPreferences moduleId values =>
    exact sends_setPreferences.mono hat (fun _ => hpost) (fun _ _ => id) hcut
  | remove moduleId =>
    rw [Reads, hturn] at hreads
    refine sends_remove.mono ?_ (fun _ _ => id) (fun _ _ => id) fun _ => id
    rintro s ⟨hs, hdisk⟩
    refine ⟨hs, ?_⟩
    rw [hdisk]
    exact hreads
  | list =>
    rw [Reads, hturn] at hreads
    refine sends_finishPendingRemovals.mono ?_ (fun _ _ => id) (fun _ _ => id) fun _ => id
    rintro s ⟨hs, hdisk⟩
    refine ⟨hs, ?_⟩
    rw [hdisk]
    exact hreads

theorem keeps_of_sends {appVersion : String} {memory : Registry} (p : Disk → Registry → Prop)
    (hp : p world.disk memory)
    (h : Sends (On p) (program (env.during appVersion turn.unreadable) turn.op)
      (fun _ => On (Followed env world.registry))
      (fun _ => On fun disk memory => Stored env world.registry disk memory ∧
        ∀ running ∈ leaves turn.op appVersion (.error .state) memory, running.memory = world.registry)
      (On (FollowedDisk env world.registry))) :
    Consistent env (world.ask env turn appVersion memory).2 ∧
      Follows env world.registry (world.ask env turn appVersion memory).2.registry
        (world.ask env turn appVersion memory).2.disk ∧
      ∀ e, (world.ask env turn appVersion memory).1 = .error e →
        (world.ask env turn appVersion memory).2.registry = world.registry := by
  have hends := h ⟨world.disk, memory, turn.fates, turn.answers⟩ hp
  unfold World.ask
  revert hends
  rcases program (env.during appVersion turn.unreadable) turn.op
    ⟨world.disk, memory, turn.fates, turn.answers⟩ with ⟨value | e | _, s⟩
  · rintro ⟨later, ⟨hmemory, hfile, hsound⟩, hfollows⟩
    have hregistry : s.disk.registry.getD [] = later := hfile
    subst hregistry
    refine ⟨⟨hsound, fun running hrunning => ?_⟩, hfollows, nofun⟩
    cases hrunning
    exact hmemory
  · rintro ⟨⟨hfile, hsound⟩, hrunning⟩
    have hregistry : s.disk.registry.getD [] = world.registry := hfile
    refine ⟨⟨?_, fun running hleaves => ?_⟩, ?_, fun _ _ => hregistry⟩
    · show Sound env.toVerifier (s.disk.registry.getD []) s.disk
      rw [hregistry]
      exact hsound
    · have hop : leaves turn.op appVersion (.error .state) s.memory =
          leaves turn.op appVersion (.error e) s.memory := by
        cases turn.op <;> rfl
      have hstays : running ∈ leaves turn.op appVersion (.error e) s.memory := hleaves
      rw [← hop] at hstays
      exact (hrunning running hstays).trans hregistry.symm
    · show Follows env world.registry (s.disk.registry.getD []) s.disk
      rw [hregistry]
      exact (Upgrades.refl _).follows _
  · rintro ⟨later, hfile, hsound, hfollows⟩
    have hregistry : s.disk.registry.getD [] = later := hfile
    subst hregistry
    exact ⟨⟨hsound, nofun⟩, hfollows, nofun⟩

/-- One turn of a consistent world. -/
theorem keeps_take (h : Consistent env world) (hreads : Reads env world turn) :
    Keeps env world turn := by
  have hidle : Keeps env world turn ∨ (∃ appVersion, turn.op = .restart appVersion) ∨
      (∀ started, turn.op ≠ .restart started) ∧ ∃ running, world.running = some running ∧
        world.take env turn = world.ask env turn running.appVersion running.memory := by
    cases hop : turn.op with
    | restart appVersion => exact Or.inr (Or.inl ⟨appVersion, rfl⟩)
    | _ =>
      cases hrunning : world.running with
      | none =>
        left
        have htake : world.take env turn = (.error .state, world) := by
          rw [World.take, hop, hrunning]
        refine ⟨?_, ?_, ?_⟩
        · rw [htake]
          exact h
        · rw [htake]
          exact (Upgrades.refl _).follows _
        · rw [htake]
          exact fun _ _ => rfl
      | some running =>
        refine Or.inr (Or.inr ⟨fun started hstarted => ?_, running, rfl, ?_⟩)
        · cases hstarted
        · rw [World.take, hop, hrunning]
  have hwhole : ∀ {appVersion memory}, world.take env turn = world.ask env turn appVersion memory →
      (Consistent env (world.ask env turn appVersion memory).2 ∧
        Follows env world.registry (world.ask env turn appVersion memory).2.registry
          (world.ask env turn appVersion memory).2.disk ∧
        ∀ e, (world.ask env turn appVersion memory).1 = .error e →
          (world.ask env turn appVersion memory).2.registry = world.registry) →
      Keeps env world turn := by
    rintro appVersion memory htake ⟨hconsistent, hfollows, hfailed⟩
    rw [← htake] at hconsistent hfollows hfailed
    exact ⟨hconsistent, hfollows, hfailed⟩
  rcases hidle with hkeeps | ⟨appVersion, hop⟩ | ⟨hop, running, hrunning, htake⟩
  · exact hkeeps
  · refine hwhole (by rw [World.take, hop]) (keeps_of_sends (Stored env world.registry) ⟨rfl, h.sound⟩ ?_)
    rw [hop]
    exact sends_openManager.mono (fun _ => id) (fun _ s hs => Upgraded.followed hs)
      (fun _ s hs => ⟨hs, nofun⟩) fun _ hs => UpgradedDisk.followedDisk hs
  · refine hwhole htake (keeps_of_sends (fun disk memory =>
      At env world.registry disk memory ∧ disk = world.disk) ⟨⟨?_, rfl, h.sound⟩, rfl⟩ ?_)
    · exact h.memory running hrunning
    · refine (sends_program hop hreads rfl).mono (fun _ => id) (fun _ _ => id) (fun _ s hs => ?_) fun _ => id
      refine ⟨⟨hs.2.1, hs.2.2⟩, fun other hother => ?_⟩
      cases hturn : turn.op with
      | restart started => exact absurd hturn (hop started)
      | _ =>
        rw [hturn] at hother
        cases hother
        exact hs.1

theorem consistent_of_reaches (h : Reaches env (Reads env) world) : Consistent env world := by
  induction h with
  | start =>
    refine ⟨⟨List.nodup_nil, ?_, ?_⟩, nofun⟩
    · intro id record hget
      cases hget
    · intro id record hget
      cases hget
  | next turn _ allows ih => exact (keeps_take ih allows).consistent

/-- Nothing is enabled, updated or staged for a module that is being removed. -/
theorem sends_refused {d : Disk} {registry : Registry} {op : Op} {moduleId : String} {record : Record}
    (hget : registry.get moduleId = some record) (hremoving : record.removing = true)
    (htargets : Targets env env.appVersion op moduleId) :
    Sends (On fun disk memory => disk = d ∧ memory = registry) (program env op)
      (fun _ => On fun _ _ => False) (fun _ => On fun disk _ => disk = d) (On fun disk _ => disk = d) := by
  have hfail : ∀ {e : ModuleError}, Sends (On fun disk memory => disk = d ∧ memory = registry)
      (fail e : Run Unit) (fun _ => On fun _ _ => False) (fun _ => On fun disk _ => disk = d)
      (On fun disk _ => disk = d) := Sends.fail fun _ h => h.1
  have hreads : Sends (On fun disk memory => disk = d ∧ memory = registry) reads
      (fun _ => On fun disk memory => disk = d ∧ memory = registry)
      (fun _ => On fun disk _ => disk = d) (On fun disk _ => disk = d) :=
    sends_reads (fun _ _ h => h.1) fun _ _ h => h.1
  cases op with
  | install archive =>
    obtain ⟨manifest, files, hextract, rfl⟩ := htargets
    refine Sends.bind _ hreads fun _ => Sends.bind _ hreads fun _ => ?_
    rw [hextract]
    refine Sends.bind (fun found => On fun disk memory => (disk = d ∧ memory = registry) ∧
      found = (manifest, files)) (Sends.pure fun s hs => ⟨hs, rfl⟩) fun found => ?_
    refine sends_get fun s hs => ?_
    obtain ⟨⟨hdisk, hmemory⟩, rfl⟩ := hs
    have hrefused : admitted env s.memory manifest =
        .error (.invalid "Finish removing this module before installing it again.") := by
      rw [admitted, hmemory, hget]
      exact if_pos hremoving
    rw [hrefused]
    refine Sends.bind (fun _ _ => False) (Sends.fail fun s' hs' => ?_) fun _ _ h => h.elim
    exact hs'.1.trans hdisk
  | stageUpdate other archive appVersion =>
    obtain rfl : other = moduleId := htargets
    refine sends_look fun s hs => ?_
    have hnone : (s.memory.get other).filter (!·.removing) = none := by
      rw [hs.2, hget, Option.filter_some, hremoving]
      rfl
    rw [hnone]
    split
    · split
      · exact hfail
      · exact hfail
    · exact hfail
  | setEnabled other enabled =>
    obtain rfl : other = moduleId := htargets
    refine sends_look fun s hs => ?_
    rw [hs.2, hget]
    dsimp only
    rw [if_pos hremoving]
    exact hfail
  | restart | setPreferences | remove | list => exact htargets.elim

/-- The registry and the package directories stay consistent through failures: in every run
in which whoever removes a module can read its directories, the registry in memory is the
one on the disk, and each record that is not being removed has its package complete. A turn
that fails leaves the registry; a record goes on to a newer version or to its removal, never
back, or is gone together with both of its directories; and a module that is being removed
is disabled and cannot be enabled, updated or staged. -/
theorem registry_survives_failures {world : World} (h : Reaches env (Reads env) world) :
    Consistent env world ∧
      ∀ turn, Reads env world turn → Keeps env world turn ∧
        ∀ running ∈ world.running, ∀ id record, world.registry.get id = some record →
          record.removing = true → Targets env running.appVersion turn.op id →
            (world.take env turn).1 ≠ .done () ∧ (world.take env turn).2.disk = world.disk := by
  have hconsistent := consistent_of_reaches h
  refine ⟨hconsistent, fun turn hreads => ⟨keeps_take hconsistent hreads, ?_⟩⟩
  intro running hrunning id record hget hremoving htargets
  have hmemory := hconsistent.memory running hrunning
  have hends := @sends_refused V _ (env.during running.appVersion turn.unreadable) world.disk
    world.registry turn.op id record hget hremoving htargets ⟨world.disk, running.memory, turn.fates, turn.answers⟩ ⟨rfl, hmemory⟩
  have htake : world.take env turn = world.ask env turn running.appVersion running.memory := by
    cases hop : turn.op with
    | restart started =>
      rw [hop] at htargets
      exact htargets.elim
    | _ => rw [World.take, hop, Option.mem_def.1 hrunning]
  rw [htake, World.ask]
  revert hends
  rcases program (env.during running.appVersion turn.unreadable) turn.op
    ⟨world.disk, running.memory, turn.fates, turn.answers⟩ with ⟨value | e | _, s⟩
  · exact fun hends => hends.elim
  · exact fun hends => ⟨nofun, hends⟩
  · exact fun hends => ⟨nofun, hends⟩

def sampleManifest : ModuleManifest :=
  ⟨"ocr", "1.0.0", [], [], [], none, none, "{}"⟩

def sampleArchive : Archive :=
  ⟨1024, [("manifest.json", [1], true), ("manifest.json.sig", [2], true)]⟩

def sampleEnv : Env ℕ where
  verify bytes signature := bytes = [1] && signature = [2]
  decode bytes := if bytes = [1] then some sampleManifest else none
  validate _ _ := .ok ()
  sha256 _ := ""
  toLowercase path := path
  validRelativePath _ := true
  parse version := some version.length
  print version := String.ofList (List.replicate version '1')
  validId id := id = "ocr"
  defaultValue field := field.value
  acceptsStored _ _ := true
  resolveFields _ values := .ok values
  selectedModel _ _ := .error .state
  fitsRegistry _ := true
  fitsSummaries _ _ := true
  appVersion := "1.0.0"
  unreadable _ := false

def smooth (op : Op) : Turn := ⟨op, fun _ => false, [], []⟩

def installedWorld : World :=
  ((World.empty.take sampleEnv (smooth (.restart "1.0.0"))).2.take sampleEnv
    (smooth (.install sampleArchive))).2

/-- The module is removed while its package directory cannot be read. -/
def blindRemoval : Turn :=
  ⟨.remove "ocr", fun folder => folder = .package "ocr", [], []⟩

theorem reaches_installed {allowed : World → Turn → Prop}
    (hrestart : allowed World.empty (smooth (.restart "1.0.0")))
    (hinstall : allowed (World.empty.take sampleEnv (smooth (.restart "1.0.0"))).2
      (smooth (.install sampleArchive))) : Reaches sampleEnv allowed installedWorld :=
  Reaches.next _ (Reaches.next _ Reaches.start hrestart) hinstall

/-- The record disappears, and the package stays. -/
theorem blind_removal_leaves_package :
    ∃ world, Reaches sampleEnv (fun _ _ => True) world ∧ ∃ turn,
      (world.registry.get "ocr").isSome = true ∧
        (world.take sampleEnv turn).2.registry.get "ocr" = none ∧
        ¬ Gone (world.take sampleEnv turn).2.disk "ocr" := by
  refine ⟨installedWorld, reaches_installed trivial trivial, blindRemoval, by decide,
    by decide, fun hgone => ?_⟩
  have hpresent : ((installedWorld.take sampleEnv blindRemoval).2.disk.packages "ocr").isSome = true := by
    decide
  rw [hgone.1] at hpresent
  cases hpresent

/-- The registry cannot be written at the end of a first install, and the second one works;
the process stops where the removal comes to the directories, and is started again. -/
def troubledTurns : List Turn :=
  [smooth (.restart "1.0.0"),
    ⟨.install sampleArchive, fun _ => false,
      [.works, .works, .works, .works, .fails fun _ _ => false], []⟩,
    smooth (.install sampleArchive),
    ⟨.remove "ocr", fun _ => false, [.works, .stops fun _ _ => true], []⟩,
    smooth (.restart "1.0.0")]

def takeAll (world : World) (turns : List Turn) : World :=
  turns.foldl (fun world turn => (world.take sampleEnv turn).2) world

theorem reaches_takeAll (turns : List Turn) (hturns : ∀ turn ∈ turns, ∀ world, Reads sampleEnv world turn)
    {world : World} (h : Reaches sampleEnv (Reads sampleEnv) world) :
    Reaches sampleEnv (Reads sampleEnv) (takeAll world turns) := by
  induction turns generalizing world with
  | nil => exact h
  | cons turn rest ih =>
    obtain ⟨hfirst, hrest⟩ := List.forall_mem_cons.1 hturns
    exact ih hrest (.next turn h (hfirst world))

theorem reads_troubledTurns : ∀ turn ∈ troubledTurns, ∀ world, Reads sampleEnv world turn := by
  intro turn hturn world
  simp only [troubledTurns, List.mem_cons, List.not_mem_nil, or_false] at hturn
  obtain rfl | rfl | rfl | rfl | rfl := hturn
  · trivial
  · trivial
  · trivial
  · exact ⟨nofun, nofun⟩
  · trivial

/-- After an install that fails and a removal that stops half way the module cannot be
enabled, and a listing keeps the registry and the directories together. -/
theorem installed_module_kept : ∃ record,
    (takeAll World.empty troubledTurns).registry.get "ocr" = some record ∧
      record.removing = true ∧
      Consistent sampleEnv (takeAll World.empty troubledTurns) ∧
      Keeps sampleEnv (takeAll World.empty troubledTurns) (smooth .list) ∧
      ((takeAll World.empty troubledTurns).take sampleEnv
        (smooth (.setEnabled "ocr" true))).1 ≠ .done () := by
  have hrun := reaches_takeAll troubledTurns reads_troubledTurns Reaches.start
  obtain ⟨hconsistent, hturns⟩ := registry_survives_failures hrun
  have hstays : (takeAll World.empty troubledTurns).registry.get "ocr" =
      some ⟨"1.0.0", false, [], true⟩ := by
    decide
  have hrunning : (takeAll World.empty troubledTurns).running.isSome = true := by
    decide
  obtain ⟨running, hmanager⟩ := Option.isSome_iff_exists.1 hrunning
  refine ⟨_, hstays, rfl, hconsistent, ?_, ?_⟩
  · exact (hturns (smooth .list) fun _ _ _ _ => ⟨nofun, nofun⟩).1
  · exact ((hturns (smooth (.setEnabled "ocr" true)) trivial).2 running hmanager "ocr" _ hstays rfl
      rfl).1

end CopyPaste.Modules.Consistency
