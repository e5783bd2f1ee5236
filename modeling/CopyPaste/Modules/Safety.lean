import CopyPaste.Modules.Manager

/-!
What every operation of the module manager keeps, however its steps go. The registry in
memory, the registry on the disk and the directories that it names agree when an operation
is over, and where the process stops the disk alone still does. Records only go on to newer
versions or to their removal, and a record is gone only with its directories.
-/

namespace CopyPaste.Modules.Safety

open Lib Crash Packages Manager

variable {V : Type} (env : Env V)

section Registry

theorem get_insert (registry : Registry) (id other : String) (record : Record) :
    (registry.insert id record).get other = if id = other then some record else registry.get other := by
  rw [Registry.get, Registry.insert, Rows.lookup_put]
  dsimp only
  split
  · rfl
  · rfl

theorem get_remove (registry : Registry) (id other : String) :
    (registry.remove id).get other = if other = id then none else registry.get other := by
  have hfilter := @Rows.lookup_filter _ _ _ Prod.fst (fun key => key ≠ id) _ registry other
  rw [Registry.get, Registry.remove, hfilter]
  by_cases hsame : other = id
  · rw [if_neg (not_not.2 hsame), if_pos hsame]
    rfl
  · rw [if_pos hsame, if_neg hsame]
    rfl

theorem get_of_mem {registry : Registry} (hkeys : (registry.map Prod.fst).Nodup) {entry : String × Record}
    (h : entry ∈ registry) : registry.get entry.1 = some entry.2 := by
  rw [Registry.get, Rows.lookup_of_mem hkeys h]
  rfl

end Registry

section Disk

theorem version_createPackage (disk : Disk) (id other version : String) :
    (disk.createPackage id).version other version = disk.version other version := by
  unfold Disk.version Disk.createPackage
  dsimp only
  by_cases hsame : other = id
  · subst hsame
    rw [Function.update_self]
    cases disk.packages other with
    | none | some => rfl
  · rw [Function.update_of_ne hsame]

theorem version_setVersion (disk : Disk) (id version : String) (files : Files) (other version' : String) :
    (disk.setVersion id version files).version other version' =
      if other = id ∧ version' = version then some files else disk.version other version' := by
  unfold Disk.version Disk.setVersion
  dsimp only
  by_cases hsame : other = id
  · subst hsame
    rw [Function.update_self, Option.bind_some, Rows.lookup_put]
    by_cases hversion : version' = version
    · subst hversion
      rw [if_pos rfl, if_pos ⟨rfl, rfl⟩]
      rfl
    · rw [if_neg (fun heq => hversion heq.symm), if_neg (fun heq => hversion heq.2)]
      cases disk.packages other with
      | none | some => rfl
  · rw [Function.update_of_ne hsame, if_neg (fun heq => hsame heq.1)]

theorem version_clear_package (disk : Disk) (id : String) (kept : Option Kept) {other : String}
    (hother : other ≠ id) (version : String) :
    (disk.clear (.package id) kept).version other version = disk.version other version := by
  unfold Disk.version
  cases kept with
  | none | some kept =>
    unfold Disk.clear
    dsimp only
    rw [Function.update_of_ne hother]

theorem version_clear_version (disk : Disk) (id version : String) (kept : Option Kept)
    {other version' : String} (hother : ¬(other = id ∧ version' = version)) :
    (disk.clear (.version id version) kept).version other version' = disk.version other version' := by
  unfold Disk.version
  by_cases hsame : other = id
  · subst hsame
    have hversion : version' ≠ version := fun heq => hother ⟨rfl, heq⟩
    cases kept with
    | none =>
      unfold Disk.clear
      dsimp only
      rw [Function.update_self]
      cases disk.packages other with
      | none => rfl
      | some versions =>
        rw [Option.map_some, Option.bind_some, Option.bind_some,
          @Rows.lookup_filter _ _ _ Prod.fst (fun key => key ≠ version) _, if_pos hversion]
    | some kept =>
      unfold Disk.clear
      dsimp only
      rw [Function.update_self]
      cases disk.packages other with
      | none => rfl
      | some versions =>
        rw [Option.map_some, Option.bind_some, Option.bind_some, @Rows.lookup_map _ _ _ Prod.fst]
        · cases hfound : Rows.lookup Prod.fst versions version' with
          | none => rfl
          | some entry =>
            have hentry := (Rows.lookup_eq_some hfound).2
            rw [Option.map_some, if_neg (fun heq => hversion (hentry.symm.trans heq))]
        · intro entry
          split <;> rfl
  · cases kept with
    | none | some kept =>
      unfold Disk.clear
      dsimp only
      rw [Function.update_of_ne hsame]

end Disk

def Gone (disk : Disk) (id : String) : Prop :=
  disk.packages id = none ∧ disk.data id = false

/-- A registry fits what is on the disk. -/
structure Sound (v : Verifier) (registry : Registry) (disk : Disk) : Prop where
  keys : (registry.map Prod.fst).Nodup
  complete : ∀ id record, registry.get id = some record → record.removing = false →
    ∃ files manifest, disk.version id record.version = some files ∧
      Complete v files manifest ∧ manifest.id = id ∧ manifest.version = record.version
  disabled : ∀ id record, registry.get id = some record → record.removing = true →
    record.enabled = false

variable {env}

theorem Sound.of_versions {registry : Registry} {disk disk' : Disk} (h : Sound env.toVerifier registry disk)
    (hversions : ∀ id record, registry.get id = some record → record.removing = false →
      disk'.version id record.version = disk.version id record.version) : Sound env.toVerifier registry disk' := by
  refine ⟨h.keys, fun id record hget hremoving => ?_, h.disabled⟩
  obtain ⟨files, manifest, hfiles, hcomplete⟩ := h.complete id record hget hremoving
  exact ⟨files, manifest, (hversions id record hget hremoving).trans hfiles, hcomplete⟩

theorem Sound.insert {registry : Registry} {disk : Disk} (h : Sound env.toVerifier registry disk) {id : String}
    {record : Record}
    (hcomplete : record.removing = false → ∃ files manifest,
      disk.version id record.version = some files ∧ Complete env.toVerifier files manifest ∧
        manifest.id = id ∧ manifest.version = record.version)
    (hdisabled : record.removing = true → record.enabled = false) :
    Sound env.toVerifier (registry.insert id record) disk := by
  refine ⟨Rows.nodup_put _ _ h.keys, fun other old hget hremoving => ?_, fun other old hget hremoving => ?_⟩
  · rw [get_insert] at hget
    split at hget
    · next hsame =>
      cases hget
      subst hsame
      exact hcomplete hremoving
    · exact h.complete other old hget hremoving
  · rw [get_insert] at hget
    split at hget
    · cases hget
      exact hdisabled hremoving
    · exact h.disabled other old hget hremoving

theorem Sound.remove {registry : Registry} {disk : Disk} (h : Sound env.toVerifier registry disk) (id : String) :
    Sound env.toVerifier (registry.remove id) disk := by
  have hget : ∀ {other record}, (registry.remove id).get other = some record →
      registry.get other = some record := by
    intro other record hother
    rw [get_remove] at hother
    split at hother
    · cases hother
    · exact hother
  exact ⟨h.keys.sublist (List.filter_sublist.map _), fun other record hother =>
    h.complete other record (hget hother), fun other record hother =>
    h.disabled other record (hget hother)⟩

section Later

variable [LinearOrder V] (env)

/-- A later state of a record: its version is the same or a newer one, and a removal goes on. -/
structure Succeeds (parse : String → Option V) (record later : Record) : Prop where
  version : later.version = record.version ∨ ∃ current incoming,
    parse record.version = some current ∧ parse later.version = some incoming ∧ current < incoming
  removing : record.removing = true → later.removing = true ∧ later.version = record.version

def Upgrades (registry later : Registry) : Prop :=
  ∀ id record, registry.get id = some record →
    ∃ record', later.get id = some record' ∧ Succeeds env.parse record record'

/-- What becomes of a registry: a record goes on, or it is gone with its directories. -/
def Follows (registry later : Registry) (disk : Disk) : Prop :=
  ∀ id record, registry.get id = some record →
    (∃ record', later.get id = some record' ∧ Succeeds env.parse record record') ∨
      later.get id = none ∧ Gone disk id

variable {env}

theorem Succeeds.refl (record : Record) : Succeeds env.parse record record :=
  ⟨Or.inl rfl, fun h => ⟨h, rfl⟩⟩

theorem Succeeds.trans {a b c : Record} (hab : Succeeds env.parse a b) (hbc : Succeeds env.parse b c) :
    Succeeds env.parse a c := by
  refine ⟨?_, fun h => ?_⟩
  · rcases hab.version with hsame | ⟨va, vb, ha, hb, hlt⟩
    · rw [← hsame]
      exact hbc.version
    · rcases hbc.version with hsame' | ⟨vb', vc, hb', hc, hlt'⟩
      · rw [hsame']
        exact Or.inr ⟨va, vb, ha, hb, hlt⟩
      · rw [hb] at hb'
        cases hb'
        exact Or.inr ⟨va, vc, ha, hc, hlt.trans hlt'⟩
  · obtain ⟨hb, hversion⟩ := hab.removing h
    obtain ⟨hc, hversion'⟩ := hbc.removing hb
    exact ⟨hc, hversion'.trans hversion⟩

theorem Upgrades.refl (registry : Registry) : Upgrades env registry registry :=
  fun _ record h => ⟨record, h, Succeeds.refl record⟩

theorem Upgrades.trans {a b c : Registry} (hab : Upgrades env a b) (hbc : Upgrades env b c) :
    Upgrades env a c := by
  intro id record h
  obtain ⟨record', h', hsucceeds⟩ := hab id record h
  obtain ⟨record'', h'', hsucceeds'⟩ := hbc id record' h'
  exact ⟨record'', h'', hsucceeds.trans hsucceeds'⟩

theorem Upgrades.follows {registry later : Registry} (h : Upgrades env registry later) (disk : Disk) :
    Follows env registry later disk :=
  fun id record hget => Or.inl (h id record hget)

/-- A record is put in the place of one that it succeeds, or where there was none. -/
theorem upgrades_insert {registry : Registry} {id : String} {record : Record}
    (h : ∀ old, registry.get id = some old → Succeeds env.parse old record) :
    Upgrades env registry (registry.insert id record) := by
  intro other old hold
  rw [get_insert]
  split
  · next hsame =>
    subst hsame
    exact ⟨record, rfl, h old hold⟩
  · exact ⟨old, hold, Succeeds.refl old⟩

end Later

section Programs

/-- A condition on the disk and on the registry in memory. -/
def On (p : Disk → Registry → Prop) (s : State) : Prop :=
  p s.disk s.memory

variable {p q failed cut : Disk → Registry → Prop}

theorem sends_fate {post : Fate → State → Prop} (h : ∀ fate, ∀ s, On p s → post fate s) :
    Sends (On p) fate post (fun _ => On failed) (On cut) := by
  rintro ⟨disk, memory, fates, answers⟩ hs
  cases fates with
  | nil | cons => exact h _ _ hs

theorem sends_answer : Sends (On p) answer (fun _ => On p) (fun _ => On failed) (On cut) := by
  rintro ⟨disk, memory, fates, answers⟩ hs
  cases answers with
  | nil | cons => exact hs

theorem sends_change {f : Disk → Disk} (h : ∀ disk memory, p disk memory → q (f disk) memory) :
    Sends (On p) (change f) (fun _ => On q) (fun _ => On failed) (On cut) :=
  Sends.modify fun _ hs => h _ _ hs

theorem sends_setMemory {registry : Registry} (h : ∀ disk memory, p disk memory → q disk registry) :
    Sends (On p) (setMemory registry) (fun _ => On q) (fun _ => On failed) (On cut) :=
  Sends.modify fun _ hs => h _ _ hs

/-- A step changes the disk, or fails or stops with the disk as it was. -/
theorem sends_step {f : Disk → Disk} (h : ∀ disk memory, p disk memory → q (f disk) memory)
    (hfailed : ∀ disk memory, p disk memory → failed disk memory)
    (hcut : ∀ disk memory, p disk memory → cut disk memory) :
    Sends (On p) (step f) (fun _ => On q) (fun _ => On failed) (On cut) := by
  refine Sends.bind (fun _ => On p) (sends_fate fun _ _ => id) fun fate => ?_
  cases fate with
  | works => exact sends_change h
  | fails kept => exact Sends.fail fun s hs => hfailed _ _ hs
  | stops kept => exact fun s hs => hcut _ _ hs

variable {folder : Folder}

theorem sends_removeDirAll (h : ∀ disk memory, p disk memory → q (disk.clear folder none) memory)
    (hfailed : ∀ disk memory kept, p disk memory → failed (disk.clear folder (some kept)) memory)
    (hcut : ∀ disk memory kept, p disk memory → cut (disk.clear folder (some kept)) memory) :
    Sends (On p) (removeDirAll folder) (fun _ => On q) (fun _ => On failed) (On cut) := by
  refine Sends.bind (fun _ => On p) (sends_fate fun _ _ => id) fun fate => ?_
  cases fate with
  | works => exact sends_change h
  | fails kept =>
    refine Sends.bind (fun _ => On failed) (sends_change fun disk memory hs => ?_) fun _ => ?_
    · exact hfailed disk memory kept hs
    · exact Sends.fail fun s hs => hs
  | stops kept =>
    refine Sends.bind (fun _ => On cut) (sends_change fun disk memory hs => ?_) fun _ => ?_
    · exact hcut disk memory kept hs
    · exact fun s hs => hs

theorem sends_get {α : Type} {next : State → Run α} {post : α → State → Prop}
    (h : ∀ s, On p s → Sends (On fun disk memory => disk = s.disk ∧ memory = s.memory) (next s) post
      (fun _ => On failed) (On cut)) :
    Sends (On p) (get >>= next) post (fun _ => On failed) (On cut) :=
  fun s hs => h s hs s ⟨rfl, rfl⟩

/-- Looking at the state without holding on to it. -/
theorem sends_look {α : Type} {next : State → Run α} {post : α → State → Prop}
    (h : ∀ s, On p s → Sends (On p) (next s) post (fun _ => On failed) (On cut)) :
    Sends (On p) (get >>= next) post (fun _ => On failed) (On cut) :=
  fun s hs => h s hs s hs

theorem sends_onlyIf {condition : Bool} {prog : Run Unit}
    (h : condition = true → Sends (On p) prog (fun _ => On p) (fun _ => On failed) (On cut)) :
    Sends (On p) (onlyIf condition prog) (fun _ => On p) (fun _ => On failed) (On cut) := by
  unfold onlyIf
  split
  · next hcondition => exact h hcondition
  · exact Sends.pure fun _ => id

theorem sends_reads (hfailed : ∀ disk memory, p disk memory → failed disk memory)
    (hcut : ∀ disk memory, p disk memory → cut disk memory) :
    Sends (On p) reads (fun _ => On p) (fun _ => On failed) (On cut) :=
  sends_step (fun _ _ => id) hfailed hcut

theorem sends_installed {hostVersion : String} {files : Option Files} {verifyFiles : Bool}
    (hfailed : ∀ disk memory, p disk memory → failed disk memory)
    (hcut : ∀ disk memory, p disk memory → cut disk memory) :
    Sends (On p) (installed env hostVersion files verifyFiles)
      (fun manifest => On fun disk memory => p disk memory ∧ ∃ found, files = some found ∧
        env.installed hostVersion found verifyFiles = .ok manifest)
      (fun _ => On failed) (On cut) := by
  refine Sends.bind (fun _ => On p) (sends_reads hfailed hcut) fun _ => ?_
  cases files with
  | none => exact Sends.fail fun s hs => hfailed _ _ hs
  | some files =>
    refine Sends.fromExcept (fun manifest s hok hs => ⟨hs, files, rfl, hok⟩) fun e s _ hs => ?_
    exact hfailed _ _ hs

theorem sends_pathExists :
    Sends (On p) (pathExists env folder)
      (fun found => On fun disk memory => p disk memory ∧
        (found = true → disk.present folder = true) ∧
        (found = false → disk.present folder = true → env.unreadable folder = true))
      (fun _ => On failed) (On cut) := by
  refine Sends.bind (fun s s' => s' = s ∧ On p s) (Sends.get fun s hs => ⟨rfl, hs⟩) fun s => ?_
  refine Sends.pure ?_
  rintro _ ⟨rfl, hs⟩
  refine ⟨hs, fun hfound => ?_, fun hfound hpresent => ?_⟩
  · exact (Bool.and_eq_true _ _).mp hfound |>.1
  · rw [hpresent, Bool.true_and, Bool.not_eq_false'] at hfound
    exact hfound

/-- Asking for a directory without looking at the answer. -/
theorem sends_ask :
    Sends (On p) (pathExists env folder) (fun _ => On p) (fun _ => On failed) (On cut) :=
  sends_pathExists.mono (fun _ => id) (fun _ _ h => h.1) (fun _ _ => id) fun _ => id

theorem sends_persist {registry : Registry}
    (hfailed : ∀ disk memory, p disk memory → failed disk memory)
    (hcut : ∀ disk memory, p disk memory → cut disk memory)
    (h : ∀ disk memory, p disk memory → q { disk with registry := some registry } memory) :
    Sends (On p) (persist env registry) (fun _ => On q) (fun _ => On failed) (On cut) := by
  refine sends_get fun s hs => ?_
  have hfail : ∀ {e : ModuleError}, Sends (On fun disk memory => disk = s.disk ∧ memory = s.memory)
      (fail e : Run Unit) (fun _ => On q) (fun _ => On failed) (On cut) := by
    intro e
    refine Sends.fail ?_
    rintro s' ⟨hdisk, hmemory⟩
    have hsame := hfailed _ _ hs
    rwa [← hdisk, ← hmemory] at hsame
  split
  · exact hfail
  · split
    · exact hfail
    · refine sends_step ?_ ?_ ?_
      · rintro disk memory ⟨rfl, rfl⟩
        exact h _ _ hs
      · rintro disk memory ⟨rfl, rfl⟩
        exact hfailed _ _ hs
      · rintro disk memory ⟨rfl, rfl⟩
        exact hcut _ _ hs

/-- A removal whose outcome nobody asks about. -/
theorem sends_attempt_remove
    (h : ∀ disk memory kept, p disk memory → p (disk.clear folder kept) memory)
    (hcut : ∀ disk memory, p disk memory → cut disk memory) :
    Sends (On p) (attempt (removeDirAll folder)) (fun _ => On p) (fun _ => On failed) (On cut) :=
  Sends.attempt (sends_removeDirAll (fun disk memory => h disk memory none)
    (fun disk memory kept => h disk memory (some kept))
    (fun disk memory kept hs => hcut _ _ (h disk memory (some kept) hs)))

end Programs

section Upgrade

variable [LinearOrder V] (env)

/-- The registry in memory, the one on the disk and the directories agree. -/
def At (registry : Registry) (disk : Disk) (memory : Registry) : Prop :=
  memory = registry ∧ disk.registry.getD [] = registry ∧ Sound env.toVerifier registry disk

/-- They agree on a registry in which records have only gone on. -/
def Upgraded (registry : Registry) (disk : Disk) (memory : Registry) : Prop :=
  ∃ later, At env later disk memory ∧ Upgrades env registry later

/-- What the next start will find does. -/
def UpgradedDisk (registry : Registry) (disk : Disk) (_ : Registry) : Prop :=
  ∃ later, disk.registry.getD [] = later ∧ Sound env.toVerifier later disk ∧ Upgrades env registry later

/-- Where a package stands complete. -/
def Holds (manifest : ModuleManifest) (disk : Disk) : Prop :=
  ∃ files, disk.version manifest.id manifest.version = some files ∧
    Complete env.toVerifier files manifest

variable {env} {registry : Registry}

variable {disk : Disk} {memory : Registry} {u : Unit} {stage : Stage} {moduleId : String}
  {record : Record}

theorem At.upgradedDisk (h : At env registry disk memory) : UpgradedDisk env registry disk memory :=
  ⟨registry, h.2.1, h.2.2, Upgrades.refl registry⟩

theorem Upgraded.upgradedDisk (h : Upgraded env registry disk memory) :
    UpgradedDisk env registry disk memory := by
  obtain ⟨later, ⟨-, hfile, hsound⟩, hupgrades⟩ := h
  exact ⟨later, hfile, hsound, hupgrades⟩

omit [LinearOrder V] in
theorem At.of_versions {disk' : Disk} (h : At env registry disk memory)
    (hregistry : disk'.registry = disk.registry)
    (hversions : ∀ id record, registry.get id = some record → record.removing = false →
      disk'.version id record.version = disk.version id record.version) :
    At env registry disk' memory :=
  ⟨h.1, hregistry ▸ h.2.1, h.2.2.of_versions hversions⟩

theorem registry_clear (disk : Disk) (folder : Folder) (kept : Option Kept) :
    (disk.clear folder kept).registry = disk.registry := by
  cases folder <;> cases kept <;> rfl

theorem admitted_ok {manifest : ModuleManifest} (h : admitted env registry manifest = .ok u)
    {old : Record} (hold : registry.get manifest.id = some old) :
    old.removing = false ∧ ∃ current incoming, env.parse old.version = some current ∧
      env.parse manifest.version = some incoming ∧ current < incoming := by
  unfold admitted at h
  rw [hold] at h
  dsimp only at h
  split at h
  · cases h
  · next hremoving =>
    refine ⟨by simpa using hremoving, ?_⟩
    split at h
    · next current incoming hcurrent hincoming =>
      split at h
      · cases h
      · next hlt => exact ⟨current, incoming, hcurrent, hincoming, not_le.1 hlt⟩
    · cases h

theorem version_ne_of_admitted {manifest : ModuleManifest}
    (h : admitted env registry manifest = .ok u) {old : Record}
    (hold : registry.get manifest.id = some old) : old.version ≠ manifest.version := by
  obtain ⟨-, current, incoming, hcurrent, hincoming, hlt⟩ := admitted_ok h hold
  intro heq
  rw [heq, hincoming] at hcurrent
  cases hcurrent
  exact lt_irrefl _ hlt

omit [LinearOrder V] in
/-- A version directory that no record names may come and go. -/
theorem At.clear_version (h : At env registry disk memory) {id version : String}
    (hfree : ∀ record, registry.get id = some record → record.version ≠ version)
    (kept : Option Kept) : At env registry (disk.clear (.version id version) kept) memory := by
  refine h.of_versions (registry_clear _ _ _) fun other record hget _ => ?_
  refine version_clear_version disk id version kept ?_
  rintro ⟨rfl, heq⟩
  exact hfree record hget heq

theorem version_take (disk : Disk) (stage : Stage) {id version : String}
    (h : stage ≠ .version id version) : (disk.take stage).version id version = disk.version id version := by
  cases stage with
  | temporary | payload => rfl
  | version other version' =>
    refine version_clear_version disk other version' none ?_
    rintro ⟨rfl, rfl⟩
    exact h rfl

theorem registry_take (disk : Disk) (stage : Stage) : (disk.take stage).registry = disk.registry := by
  cases stage <;> rfl

theorem sends_rename {manifest : ModuleManifest}
    (hstage : ∀ id version, stage = .version id version →
      stage = .version manifest.id manifest.version)
    (hfree : ∀ record, registry.get manifest.id = some record → record.version ≠ manifest.version) :
    Sends (On fun disk memory => At env registry disk memory ∧
        ∀ files, disk.at stage = some files → Complete env.toVerifier files manifest)
      (rename stage manifest.id manifest.version)
      (fun _ => On fun disk memory => At env registry disk memory ∧ Holds env manifest disk)
      (fun _ => On (At env registry)) (On (UpgradedDisk env registry)) := by
  refine sends_get fun s hs => ?_
  have hback : ∀ disk memory, disk = s.disk ∧ memory = s.memory → At env registry disk memory := by
    rintro disk memory ⟨rfl, rfl⟩
    exact hs.1
  have hcut : ∀ disk memory, disk = s.disk ∧ memory = s.memory →
      UpgradedDisk env registry disk memory := fun disk memory h => (hback disk memory h).upgradedDisk
  cases hfiles : s.disk.at stage with
  | none => exact Sends.fail fun s' hs' => hback _ _ hs'
  | some files =>
    have hcomplete := hs.2 files hfiles
    dsimp only
    split
    · next hsame =>
      refine sends_step ?_ hback hcut
      rintro disk memory ⟨rfl, rfl⟩
      rw [hsame] at hfiles
      exact ⟨hs.1, files, hfiles, hcomplete⟩
    · next hother =>
      split
      · exact Sends.fail fun s' hs' => hback _ _ hs'
      · refine sends_step ?_ hback hcut
        rintro disk memory ⟨rfl, rfl⟩
        constructor
        · refine hs.1.of_versions (registry_take _ stage) fun id record hget _ => ?_
          rw [version_setVersion, if_neg ?_]
          · exact version_take _ _ fun hsame => hother (hstage _ _ hsame)
          · rintro ⟨rfl, heq⟩
            exact hfree record hget heq
        · refine ⟨files, ?_, hcomplete⟩
          rw [version_setVersion, if_pos ⟨rfl, rfl⟩]

theorem sends_place {manifest : ModuleManifest}
    (hstage : ∀ id version, stage = .version id version →
      stage = .version manifest.id manifest.version)
    (hfree : ∀ record, registry.get manifest.id = some record → record.version ≠ manifest.version) :
    Sends (On fun disk memory => At env registry disk memory ∧
        ∀ files, disk.at stage = some files → Complete env.toVerifier files manifest)
      (place env manifest stage)
      (fun _ => On fun disk memory => At env registry disk memory ∧ Holds env manifest disk)
      (fun _ => On (At env registry)) (On (UpgradedDisk env registry)) := by
  refine Sends.bind _ sends_pathExists fun found => ?_
  cases found with
  | false => exact (sends_rename hstage hfree).mono (fun s hs => hs.1) (fun _ _ => id) (fun _ _ => id) fun _ => id
  | true =>
    refine sends_get fun s hs => ?_
    have hback : ∀ disk memory, disk = s.disk ∧ memory = s.memory → At env registry disk memory := by
      rintro disk memory ⟨rfl, rfl⟩
      exact hs.1.1
    refine Sends.bind _ (sends_installed hback fun disk memory h => (hback disk memory h).upgradedDisk)
      fun found => ?_
    split
    · exact Sends.fail fun s' hs' => hback _ _ hs'.1
    · next hsame =>
      refine Sends.pure ?_
      rintro s' ⟨⟨hdisk, hmemory⟩, files, hfiles, hinstalled⟩
      refine ⟨hback _ _ ⟨hdisk, hmemory⟩, files, ?_, ?_⟩
      · rw [hdisk]
        exact hfiles
      · rw [← not_ne_iff.1 hsame]
        exact complete_of_installed _ hinstalled

/-- The registry that names the new directory. -/
theorem sends_switch {manifest : ModuleManifest}
    (hadmitted : admitted env registry manifest = .ok u) :
    Sends (On fun disk memory => At env registry disk memory ∧ Holds env manifest disk)
      (switch env (registry.insert manifest.id (upgraded env (registry.get manifest.id) manifest))
        manifest (registry.get manifest.id))
      (fun _ => On (Upgraded env registry)) (fun _ => On (At env registry))
      (On (UpgradedDisk env registry)) := by
  generalize hlater : registry.insert manifest.id (upgraded env (registry.get manifest.id) manifest) = later
  have hfree : ∀ record, registry.get manifest.id = some record → record.version ≠ manifest.version :=
    fun record => version_ne_of_admitted hadmitted
  have hupgrades : Upgrades env registry later := by
    rw [← hlater]
    refine upgrades_insert fun old hold => ?_
    obtain ⟨hremoving, current, incoming, hcurrent, hincoming, hlt⟩ := admitted_ok hadmitted hold
    refine ⟨Or.inr ⟨current, incoming, hcurrent, hincoming, hlt⟩, fun hremoves => ?_⟩
    rw [hremoving] at hremoves
    cases hremoves
  have hsound : ∀ disk memory, At env registry disk memory ∧ Holds env manifest disk →
      Sound env.toVerifier later { disk with registry := some later } := by
    rintro disk memory ⟨hat, files, hfiles, hcomplete⟩
    rw [← hlater]
    refine Sound.insert ?_ (fun _ => ?_) fun hremoving => by cases hremoving
    · exact hat.2.2.of_versions fun _ _ _ _ => rfl
    · exact ⟨files, manifest, hfiles, hcomplete, rfl, rfl⟩
  refine Sends.attempt_bind
    (fun _ => On fun disk _ => disk.registry = some later ∧ Sound env.toVerifier later disk)
    (fun _ => On (At env registry)) ?_ (fun _ => ?_) fun e => ?_
  · refine sends_persist (fun _ _ h => h.1) (fun _ _ h => h.1.upgradedDisk) fun disk memory h => ?_
    exact ⟨rfl, hsound disk memory h⟩
  · refine Sends.bind (fun _ => On (At env later)) ?_ fun _ => ?_
    · refine sends_setMemory fun disk memory h => ⟨rfl, ?_, h.2⟩
      rw [h.1]
      rfl
    cases hold : registry.get manifest.id with
    | none => exact Sends.pure fun s hs => ⟨later, hs, hupgrades⟩
    | some old =>
      have hnew : ∀ record, later.get manifest.id = some record → record.version ≠ old.version := by
        intro record hrecord
        rw [← hlater, get_insert, if_pos rfl] at hrecord
        cases hrecord
        exact (hfree old hold).symm
      refine Sends.bind (fun _ => On (At env later)) ?_ fun _ => Sends.pure fun s hs => ⟨later, hs, hupgrades⟩
      refine sends_attempt_remove (fun disk memory kept h => h.clear_version hnew kept) ?_
      exact fun disk memory h => ⟨later, h.2.1, h.2.2, hupgrades⟩
  · refine Sends.bind (fun _ => On (At env registry)) ?_ fun _ => Sends.fail fun _ hs => hs
    exact sends_attempt_remove (fun disk memory kept h => h.clear_version hfree kept)
      fun disk memory h => h.upgradedDisk

/-- Activating a complete package upgrades the registry, or leaves it; whatever happens in
between, the directories that the registry on the disk names are there. -/
theorem sends_activatePackage {manifest : ModuleManifest}
    (hstage : ∀ id version, stage = .version id version →
      stage = .version manifest.id manifest.version) :
    Sends (On fun disk memory => At env registry disk memory ∧
        ∀ files, disk.at stage = some files → Complete env.toVerifier files manifest)
      (activatePackage env manifest stage)
      (fun _ => On (Upgraded env registry)) (fun _ => On (At env registry))
      (On (UpgradedDisk env registry)) := by
  refine sends_get fun s hs => ?_
  obtain ⟨hat, hcomplete⟩ := hs
  have hmemory : s.memory = registry := hat.1
  subst hmemory
  have hback : ∀ disk memory, disk = s.disk ∧ memory = s.memory → At env s.memory disk memory := by
    rintro disk memory ⟨rfl, rfl⟩
    exact hat
  cases hadmitted : admitted env s.memory manifest with
  | error e => exact Sends.bind (fun _ => On fun _ _ => False) (Sends.fail fun s' hs' => hback _ _ hs') fun _ _ h => h.elim
  | ok u =>
    refine Sends.bind (fun _ => On fun disk memory => disk = s.disk ∧ memory = s.memory)
      (Sends.pure fun _ => id) fun _ => ?_
    refine Sends.bind (fun _ => On fun disk memory => At env s.memory disk memory ∧
      ∀ files, disk.at stage = some files → Complete env.toVerifier files manifest) ?_ fun _ => ?_
    · refine sends_step ?_ hback fun disk memory h => (hback disk memory h).upgradedDisk
      rintro disk memory ⟨rfl, rfl⟩
      refine ⟨hat.of_versions rfl fun id record _ _ => version_createPackage _ _ _ _, ?_⟩
      cases stage with
      | temporary | payload => exact hcomplete
      | version id version =>
        intro files hfiles
        refine hcomplete files ?_
        rw [← hfiles]
        exact (version_createPackage _ _ _ _).symm
    · refine Sends.bind _ (sends_place hstage fun record => version_ne_of_admitted hadmitted) fun _ => ?_
      exact sends_switch hadmitted

/-- What holds from where the registries agree holds on the way as well. -/
theorem sends_upgraded {prog : Run Unit}
    (h : ∀ later, Upgrades env registry later → Sends (On (At env later)) prog
      (fun _ => On (Upgraded env later)) (fun _ => On fun _ _ => False) (On (UpgradedDisk env later))) :
    Sends (On (Upgraded env registry)) prog (fun _ => On (Upgraded env registry))
      (fun _ => On fun _ _ => False) (On (UpgradedDisk env registry)) := by
  refine Sends.of_state ?_
  rintro s ⟨later, hat, hupgrades⟩
  have htrans : ∀ disk memory, Upgraded env later disk memory → Upgraded env registry disk memory := by
    rintro disk memory ⟨last, hlast, hlater⟩
    exact ⟨last, hlast, hupgrades.trans hlater⟩
  refine (h later hupgrades).mono ?_ (fun _ s' => htrans _ _) (fun _ _ => id) ?_
  · rintro s' rfl
    exact hat
  · rintro s' ⟨last, hfile, hsound, hlater⟩
    exact ⟨last, hfile, hsound, hupgrades.trans hlater⟩

theorem At.upgraded (h : At env registry disk memory) : Upgraded env registry disk memory :=
  ⟨registry, h, Upgrades.refl registry⟩

/-- A candidate is activated only when it is complete where it is taken from. -/
theorem sends_activateFrom {version : V} {source : Stage}
    (hsource : ∀ other version', source = .version other version' →
      source = .version moduleId (env.print version)) :
    Sends (On (At env registry)) (activateFrom env moduleId version source)
      (fun _ => On (Upgraded env registry)) (fun _ => On (At env registry))
      (On (UpgradedDisk env registry)) := by
  refine sends_get fun s hs => ?_
  have hback : ∀ disk memory, disk = s.disk ∧ memory = s.memory → At env registry disk memory := by
    rintro disk memory ⟨rfl, rfl⟩
    exact hs
  refine Sends.bind _ (sends_installed hback fun disk memory h => (hback disk memory h).upgradedDisk)
    fun manifest => ?_
  split
  · next hsame =>
    refine (sends_activatePackage fun other version' h => ?_).mono ?_ (fun _ _ => id) (fun _ _ => id)
      fun _ => id
    · rw [hsource other version' h, hsame.1, hsame.2]
    · rintro s' ⟨⟨hdisk, hmemory⟩, found, hfound, hinstalled⟩
      refine ⟨hback _ _ ⟨hdisk, hmemory⟩, fun files hfiles => ?_⟩
      rw [hdisk, hfound] at hfiles
      cases hfiles
      exact complete_of_installed _ hinstalled
  · exact Sends.fail fun s' hs' => hback _ _ hs'.1

theorem sends_activateFirst (moduleId : String) (found : List (V × Update)) :
    Sends (On (Upgraded env registry)) (activateFirst env moduleId found)
      (fun _ => On (Upgraded env registry)) (fun _ => On fun _ _ => False)
      (On (UpgradedDisk env registry)) := by
  induction found generalizing registry with
  | nil => exact Sends.pure fun _ => id
  | cons candidate rest ih =>
    refine sends_upgraded fun later _ => ?_
    refine Sends.bind _ sends_ask fun waits => ?_
    refine Sends.attempt_bind _ _ (sends_activateFrom ?_) (fun _ => Sends.pure fun _ => id) fun e => ?_
    · intro other version' h
      cases waits with
      | true => cases h
      | false => rfl
    · exact ih.mono (fun s hs => At.upgraded hs) (fun _ _ => id) (fun _ _ => id) fun _ => id

theorem sends_candidates (moduleId : String) (apps : List String) :
    Sends (On (Upgraded env registry)) (candidates env moduleId apps)
      (fun _ => On (Upgraded env registry)) (fun _ => On fun _ _ => False)
      (On (UpgradedDisk env registry)) := by
  induction apps with
  | nil => exact Sends.pure fun _ => id
  | cons app apps ih =>
    have hreads : Sends (On (Upgraded env registry)) reads (fun _ => On (Upgraded env registry))
        (fun _ => On (Upgraded env registry)) (On (UpgradedDisk env registry)) :=
      sends_reads (fun _ _ => id) fun _ _ h => h.upgradedDisk
    refine Sends.bind (fun _ => On (Upgraded env registry)) (Sends.attempt hreads) fun listed => ?_
    refine sends_get fun s hs => ?_
    refine Sends.bind (fun _ => On (Upgraded env registry)) (ih.mono ?_ (fun _ _ => id) (fun _ _ => id)
      fun _ => id) fun rest => ?_
    · rintro s' ⟨hdisk, hmemory⟩
      rw [On, hdisk, hmemory]
      exact hs
    · cases listed with
      | ok u | error e => exact Sends.pure fun _ => id

theorem Upgraded.of_versions {disk' : Disk} (h : Upgraded env registry disk memory)
    (hregistry : disk'.registry = disk.registry)
    (hversions : ∀ moduleId version, disk'.version moduleId version = disk.version moduleId version) :
    Upgraded env registry disk' memory := by
  obtain ⟨later, hat, hupgrades⟩ := h
  exact ⟨later, hat.of_versions hregistry fun _ _ _ _ => hversions _ _, hupgrades⟩

theorem sends_activateStagedUpdates :
    Sends (On (Upgraded env registry)) (activateStagedUpdates env)
      (fun _ => On (Upgraded env registry)) (fun _ => On fun _ _ => False)
      (On (UpgradedDisk env registry)) := by
  unfold activateStagedUpdates
  split
  · exact Sends.pure fun _ => id
  · next current _ =>
    refine Sends.attempt_bind _ _ (sends_reads (fun _ _ => id) fun _ _ h => h.upgradedDisk)
      (fun _ => ?_) fun e => Sends.pure fun _ => id
    refine sends_get fun s hs => ?_
    have hback : ∀ s', On (fun disk memory => disk = s.disk ∧ memory = s.memory) s' →
        On (Upgraded env registry) s' := by
      rintro s' ⟨hdisk, hmemory⟩
      rw [On, hdisk, hmemory]
      exact hs
    refine Sends.bind (fun _ => On (Upgraded env registry)) ((Sends.each fun entry _ => ?_).mono hback
      (fun _ _ => id) (fun _ _ => id) fun _ => id) fun _ => Sends.each fun app _ => ?_
    · split
      · exact Sends.pure fun _ => id
      · exact Sends.bind _ (sends_candidates _ _) fun found => sends_activateFirst _ _
    · refine Sends.bind (fun _ => On (Upgraded env registry)) ?_ fun _ => Sends.pure fun _ => id
      refine sends_attempt_remove (fun disk memory kept h => ?_) fun disk memory h => h.upgradedDisk
      exact h.of_versions (registry_clear _ _ _) fun moduleId version => by cases kept <;> rfl

/-- The disk holds a registry that fits it, whatever is in memory. -/
def Stored (env : Env V) (registry : Registry) (disk : Disk) (_ : Registry) : Prop :=
  disk.registry.getD [] = registry ∧ Sound env.toVerifier registry disk

theorem Stored.upgradedDisk (h : Stored env registry disk memory) :
    UpgradedDisk env registry disk memory :=
  ⟨registry, h.1, h.2, Upgrades.refl registry⟩

/-- A start fails before anything is activated, or upgrades what is stored. -/
theorem sends_openManager :
    Sends (On (Stored env registry)) (openManager env) (fun _ => On (Upgraded env registry))
      (fun _ => On (Stored env registry)) (On (UpgradedDisk env registry)) := by
  have hstep : Sends (On (Stored env registry)) (step fun disk => disk)
      (fun _ => On (Stored env registry)) (fun _ => On (Stored env registry))
      (On (UpgradedDisk env registry)) :=
    sends_step (fun _ _ => id) (fun _ _ => id) fun _ _ h => h.upgradedDisk
  refine Sends.bind _ hstep fun _ => Sends.bind _ hstep fun _ => Sends.bind _ hstep fun _ => ?_
  refine sends_get fun s hs => ?_
  have hback : ∀ disk memory, disk = s.disk ∧ memory = s.memory → Stored env registry disk memory := by
    rintro disk memory ⟨rfl, rfl⟩
    exact hs
  dsimp only
  split
  · exact Sends.fail fun s' hs' => hback _ _ hs'
  · refine Sends.bind (fun _ => On fun disk memory => disk = s.disk ∧ memory = s.memory)
      (sends_step (fun _ _ => id) hback fun disk memory h => (hback disk memory h).upgradedDisk)
      fun _ => ?_
    refine Sends.bind (fun _ => On (At env registry)) (sends_setMemory ?_) fun _ => ?_
    · rintro disk memory ⟨rfl, -⟩
      exact ⟨hs.1, hs.1, hs.2⟩
    · exact sends_activateStagedUpdates.mono (fun s' hs' => At.upgraded hs') (fun _ _ => id)
        (fun _ _ h => False.elim h) fun _ => id

theorem sends_install {archive : Archive} :
    Sends (On (At env registry)) (install env archive) (fun _ => On (Upgraded env registry))
      (fun _ => On (At env registry)) (On (UpgradedDisk env registry)) := by
  have hreads : Sends (On (At env registry)) reads (fun _ => On (At env registry))
      (fun _ => On (At env registry)) (On (UpgradedDisk env registry)) :=
    sends_reads (fun _ _ => id) fun _ _ h => h.upgradedDisk
  refine Sends.bind _ hreads fun _ => Sends.bind _ hreads fun _ => ?_
  cases hextract : env.extract env.appVersion archive with
  | error e => exact Sends.bind (fun _ _ => False) (Sends.fail fun _ hs => hs) fun _ _ h => h.elim
  | ok extracted =>
    refine Sends.bind (fun found => On fun disk memory => At env registry disk memory ∧ found = extracted)
      (Sends.pure fun s hs => ⟨hs, rfl⟩) fun found => ?_
    obtain ⟨manifest, files⟩ := found
    refine (sends_activatePackage fun _ _ h => by cases h).mono ?_ (fun _ _ => id) (fun _ _ => id) fun _ => id
    rintro s ⟨hat, rfl⟩
    refine ⟨hat, fun other hother => ?_⟩
    cases hother
    exact complete_of_extract _ hextract

/-- The record of a module is changed on the disk first and then in memory. -/
theorem sends_store (p : Disk → Registry → Prop) (keep : Disk → Prop) {later : Registry}
    (hat : ∀ disk memory, p disk memory → At env registry disk memory)
    (hsound : ∀ disk memory, p disk memory → Sound env.toVerifier later disk)
    (hkeep : ∀ disk memory, p disk memory → keep { disk with registry := some later }) :
    Sends (On p) (store env later) (fun _ => On fun disk memory => At env later disk memory ∧ keep disk)
      (fun _ => On (At env registry)) (On (UpgradedDisk env registry)) := by
  refine Sends.bind
    (fun _ => On fun disk _ => disk.registry = some later ∧ Sound env.toVerifier later disk ∧ keep disk)
    (sends_persist hat (fun disk memory h => (hat disk memory h).upgradedDisk) fun disk memory h => ?_)
    fun _ => sends_setMemory fun disk memory h => ⟨⟨rfl, ?_, h.2.1⟩, h.2.2⟩
  · exact ⟨rfl, (hsound disk memory h).of_versions fun _ _ _ _ => rfl, hkeep disk memory h⟩
  · rw [h.1]
    rfl

omit [LinearOrder V] in
theorem Sound.rewrite (h : Sound env.toVerifier registry disk) {record' : Record}
    (hget : registry.get moduleId = some record) (hversion : record'.version = record.version)
    (hstays : record'.removing = false → record.removing = false)
    (hdisabled : record'.removing = true → record'.enabled = false) :
    Sound env.toVerifier (registry.insert moduleId record') disk := by
  refine h.insert (fun hremoves => ?_) hdisabled
  rw [hversion]
  exact h.complete moduleId record hget (hstays hremoves)

theorem upgrades_rewrite {record' : Record} (hget : registry.get moduleId = some record)
    (hversion : record'.version = record.version)
    (hremoving : record.removing = true → record'.removing = true) :
    Upgrades env registry (registry.insert moduleId record') := by
  refine upgrades_insert fun old hold => ?_
  rw [hget] at hold
  cases hold
  exact ⟨Or.inl hversion, fun hremoves => ⟨hremoving hremoves, hversion⟩⟩

theorem sends_manifest :
    Sends (On (At env registry)) (manifest env moduleId record) (fun _ => On (At env registry))
      (fun _ => On (At env registry)) (On (UpgradedDisk env registry)) := by
  refine sends_look fun s hs => ?_
  refine Sends.bind (fun _ => On (At env registry)) ((sends_installed (fun _ _ => id) fun _ _ h =>
    h.upgradedDisk).mono (fun _ => id) (fun _ _ h => h.1) (fun _ _ => id) fun _ => id) fun found => ?_
  split
  · exact Sends.fail fun _ => id
  · exact Sends.pure fun _ => id

theorem sends_modelReady :
    Sends (On (At env registry)) (modelReady env moduleId record) (fun _ => On (At env registry))
      (fun _ => On (At env registry)) (On (UpgradedDisk env registry)) := by
  refine Sends.bind _ sends_manifest fun manifest => ?_
  split
  · exact Sends.pure fun _ => id
  · refine Sends.bind (fun _ => On (At env registry))
      (Sends.fromExcept (fun _ _ _ => id) fun _ _ _ => id) fun _ => ?_
    refine Sends.bind _ sends_answer fun healthy => ?_
    split
    · exact Sends.pure fun _ => id
    · exact Sends.fail fun _ => id

theorem sends_setEnabled {enabled : Bool} :
    Sends (On (At env registry)) (setEnabled env moduleId enabled) (fun _ => On (Upgraded env registry))
      (fun _ => On (At env registry)) (On (UpgradedDisk env registry)) := by
  refine sends_look fun s hs => ?_
  rw [hs.1]
  split
  · exact Sends.fail fun _ => id
  · next record hget =>
    split
    · exact Sends.fail fun _ => id
    · next hremoving =>
      refine Sends.bind _ (sends_onlyIf fun _ => sends_modelReady) fun _ => ?_
      have hsound : ∀ disk memory, At env registry disk memory →
          Sound env.toVerifier (registry.insert moduleId { record with enabled := enabled }) disk :=
        fun disk memory h => h.2.2.rewrite hget rfl id fun hremoves => absurd hremoves hremoving
      refine (sends_store (At env registry) (fun _ => True) (fun _ _ => id) hsound fun _ _ _ =>
        trivial).mono (fun _ => id) (fun _ s' h => ?_) (fun _ _ => id) fun _ => id
      exact ⟨_, h.1, upgrades_rewrite hget rfl id⟩

theorem sends_prepare {manifest : ModuleManifest} {preferences : Preferences} :
    Sends (On (At env registry)) (prepare env manifest preferences) (fun _ => On (At env registry))
      (fun _ => On (At env registry)) (On (UpgradedDisk env registry)) := by
  unfold prepare
  split
  · exact Sends.pure fun _ => id
  · refine Sends.bind (fun _ => On (At env registry))
      (Sends.fromExcept (fun _ _ _ => id) fun _ _ _ => id) fun _ => ?_
    exact Sends.bind _ (sends_reads (fun _ _ => id) fun _ _ h => h.upgradedDisk) fun _ => sends_answer

theorem sends_publish :
    Sends (On (At env registry)) (publish moduleId) (fun _ => On (At env registry))
      (fun _ => On (At env registry)) (On (UpgradedDisk env registry)) := by
  have hreads : Sends (On (At env registry)) reads (fun _ => On (At env registry))
      (fun _ => On (At env registry)) (On (UpgradedDisk env registry)) :=
    sends_reads (fun _ _ => id) fun _ _ h => h.upgradedDisk
  refine Sends.bind (fun _ => On (At env registry)) (sends_step (fun disk memory h => ?_)
    (fun _ _ => id) fun _ _ h => h.upgradedDisk) fun _ => Sends.bind _ hreads fun _ => hreads
  exact h.of_versions rfl fun _ _ _ _ => rfl

theorem sends_setPreferences {values : Preferences} :
    Sends (On (At env registry)) (setPreferences env moduleId values)
      (fun _ => On (Upgraded env registry)) (fun _ => On (At env registry))
      (On (UpgradedDisk env registry)) := by
  refine sends_look fun s hs => ?_
  split
  · exact Sends.fail fun _ => id
  · split
    · exact Sends.fail fun _ => id
    · refine Sends.bind _ sends_manifest fun manifest => ?_
      refine Sends.bind (fun _ => On (At env registry))
        (Sends.fromExcept (fun _ _ _ => id) fun _ _ _ => id) fun preferences => ?_
      refine Sends.bind _ sends_prepare fun prepared => sends_look fun t ht => ?_
      rw [ht.1]
      split
      · exact Sends.fail fun _ => id
      · next record hget =>
        split
        · exact Sends.fail fun _ => id
        · next hsame =>
          simp only [Bool.or_eq_true, not_or, Bool.not_eq_true] at hsame
          refine Sends.bind _ (sends_onlyIf fun _ => sends_publish) fun _ => ?_
          have hsound : ∀ disk memory, At env registry disk memory →
              Sound env.toVerifier (registry.insert moduleId { record with preferences := preferences }) disk := by
            refine fun disk memory h => h.2.2.rewrite hget rfl id fun hremoves => ?_
            have hstays : record.removing = true := hremoves
            rw [hsame.1] at hstays
            cases hstays
          refine (sends_store (At env registry) (fun _ => True) (fun _ _ => id) hsound fun _ _ _ =>
            trivial).mono (fun _ => id) (fun _ s' h => ?_) (fun _ _ => id) fun _ => id
          exact ⟨_, h.1, upgrades_rewrite hget rfl id⟩

theorem sends_stageUpdate {archive : Archive} {appVersion : String} :
    Sends (On (At env registry)) (stageUpdate env moduleId archive appVersion)
      (fun _ => On (At env registry)) (fun _ => On (At env registry))
      (On (UpgradedDisk env registry)) := by
  have hreads : Sends (On (At env registry)) reads (fun _ => On (At env registry))
      (fun _ => On (At env registry)) (On (UpgradedDisk env registry)) :=
    sends_reads (fun _ _ => id) fun _ _ h => h.upgradedDisk
  have hfail : ∀ {e : ModuleError}, Sends (On (At env registry)) (fail e : Run Unit)
      (fun _ => On (At env registry)) (fun _ => On (At env registry))
      (On (UpgradedDisk env registry)) := Sends.fail fun _ => id
  refine sends_look fun s hs => ?_
  split
  · split
    · exact hfail
    · split
      · exact hfail
      · refine Sends.bind _ hreads fun _ => Sends.bind _ hreads fun _ => Sends.bind _ hreads fun _ => ?_
        refine Sends.bind (fun _ => On (At env registry))
          (Sends.fromExcept (fun _ _ _ => id) fun _ _ _ => id) fun extracted => ?_
        obtain ⟨manifest, files⟩ := extracted
        dsimp only
        split
        · exact hfail
        · split
          · split
            · exact hfail
            · refine Sends.bind _ hreads fun _ => ?_
              refine Sends.bind _ sends_ask fun found => ?_
              split
              · refine sends_look fun t ht => ?_
                refine Sends.bind (fun _ => On (At env registry)) ((sends_installed (fun _ _ => id)
                  fun _ _ h => h.upgradedDisk).mono (fun _ => id) (fun _ _ h => h.1) (fun _ _ => id)
                    fun _ => id) fun other => ?_
                split
                · exact hfail
                · exact Sends.pure fun _ => id
              · refine sends_look fun t ht => ?_
                split
                · exact hfail
                · refine sends_step (fun disk memory h => ?_) (fun _ _ => id) fun _ _ h => h.upgradedDisk
                  exact h.of_versions rfl fun _ _ _ _ => rfl
          · exact hfail
  · exact hfail

end Upgrade

section Removal

variable [LinearOrder V] (env)

/-- The directories of a module, where they are, can be read. -/
def Readable (disk : Disk) (id : String) : Prop :=
  (env.unreadable (.package id) = true → disk.packages id = none) ∧
    (env.unreadable (.data id) = true → disk.data id = false)

/-- The registries agree on one in which records have gone on, or gone with their directories. -/
def Followed (registry : Registry) (disk : Disk) (memory : Registry) : Prop :=
  ∃ later, At env later disk memory ∧ Follows env registry later disk

def FollowedDisk (registry : Registry) (disk : Disk) (_ : Registry) : Prop :=
  ∃ later, disk.registry.getD [] = later ∧ Sound env.toVerifier later disk ∧ Follows env registry later disk

variable {env} {registry : Registry}

variable {disk : Disk} {memory left : Registry} {id : String}

theorem Upgraded.followed (h : Upgraded env registry disk memory) :
    Followed env registry disk memory := by
  obtain ⟨later, hat, hupgrades⟩ := h
  exact ⟨later, hat, hupgrades.follows disk⟩

theorem UpgradedDisk.followedDisk (h : UpgradedDisk env registry disk memory) :
    FollowedDisk env registry disk memory := by
  obtain ⟨later, hfile, hsound, hupgrades⟩ := h
  exact ⟨later, hfile, hsound, hupgrades.follows disk⟩

theorem At.followedDisk {later : Registry} (h : At env later disk memory)
    (hfollows : Follows env registry later disk) : FollowedDisk env registry disk memory :=
  ⟨later, h.2.1, h.2.2, hfollows⟩

theorem packages_clear (h : disk.packages id = none) (folder : Folder) (kept : Option Kept) :
    (disk.clear folder kept).packages id = none := by
  have hupdate : ∀ other (versions : Option (List (String × Files))), (disk.packages other = none →
      versions = none) → Function.update disk.packages other versions id = none := by
    intro other versions hversions
    by_cases hsame : id = other
    · subst hsame
      rw [Function.update_self, hversions h]
    · rw [Function.update_of_ne hsame, h]
  cases folder with
  | package other =>
    cases kept with
    | none => exact hupdate other _ fun _ => rfl
    | some kept => exact hupdate other _ fun hnone => by rw [hnone, Option.map_none]
  | version other version =>
    cases kept with
    | none | some kept => exact hupdate other _ fun hnone => by rw [hnone, Option.map_none]
  | data | batch | staged | payload => cases kept <;> exact h

theorem data_clear (h : disk.data id = false) (folder : Folder) (kept : Option Kept) :
    (disk.clear folder kept).data id = false := by
  cases folder with
  | data other =>
    cases kept with
    | none =>
      by_cases hsame : id = other
      · subst hsame
        exact Function.update_self _ _ _
      · exact (Function.update_of_ne hsame _ _).trans h
    | some kept => exact h
  | package | version | batch | staged | payload => cases kept <;> exact h

/-- Nothing that is gone comes back when something is removed. -/
theorem Gone.clear (h : Gone disk id) (folder : Folder) (kept : Option Kept) :
    Gone (disk.clear folder kept) id :=
  ⟨packages_clear h.1 folder kept, data_clear h.2 folder kept⟩

omit [LinearOrder V] in
theorem Readable.clear (h : Readable env disk id) (folder : Folder) (kept : Option Kept) :
    Readable env (disk.clear folder kept) id :=
  ⟨fun hunreadable => packages_clear (h.1 hunreadable) folder kept,
    fun hunreadable => data_clear (h.2 hunreadable) folder kept⟩

theorem Follows.clear {later : Registry} (h : Follows env registry later disk) (folder : Folder)
    (kept : Option Kept) : Follows env registry later (disk.clear folder kept) := by
  intro id record hget
  rcases h id record hget with hgoes | ⟨hnone, hgone⟩
  · exact Or.inl hgoes
  · exact Or.inr ⟨hnone, hgone.clear folder kept⟩

omit [LinearOrder V] in
/-- The directories of a module that is being removed are nobody's. -/
theorem At.clear_removing (h : At env registry disk memory)
    (hremoving : ∀ record, registry.get id = some record → record.removing = true)
    (kept : Option Kept) : At env registry (disk.clear (.package id) kept) memory := by
  refine h.of_versions (registry_clear _ _ _) fun other record hget hstays => ?_
  refine version_clear_package disk id kept (fun hsame => ?_) record.version
  subst hsame
  rw [hremoving record hget] at hstays
  cases hstays

omit [LinearOrder V] in
theorem At.clear_data (h : At env registry disk memory) (id : String) (kept : Option Kept) :
    At env registry (disk.clear (.data id) kept) memory :=
  h.of_versions (registry_clear _ _ _) fun _ _ _ _ => by cases kept <;> rfl

omit [LinearOrder V] in
/-- When both directories can be read, clearing them works only where both are gone. -/
theorem sends_clearFolders {p cut : Disk → Registry → Prop}
    (hpackage : ∀ disk memory kept, p disk memory → p (disk.clear (.package id) kept) memory)
    (hdata : ∀ disk memory kept, p disk memory → p (disk.clear (.data id) kept) memory)
    (hcut : ∀ disk memory, p disk memory → cut disk memory) :
    Sends (On fun disk memory => p disk memory ∧ Readable env disk id) (clearFolders env id)
      (fun _ => On fun disk memory => p disk memory ∧ Gone disk id) (fun _ => On p) (On cut) := by
  refine Sends.bind (fun _ => On fun disk memory => (p disk memory ∧ Readable env disk id) ∧
    disk.packages id = none) ?_ fun _ => ?_
  · refine Sends.bind _ sends_pathExists fun found => ?_
    cases found with
    | false =>
      refine Sends.pure fun s hs => ⟨hs.1, ?_⟩
      cases hpackages : s.disk.packages id with
      | none => rfl
      | some versions =>
        have hpresent : s.disk.present (.package id) = true := by
          rw [Disk.present, hpackages]
          rfl
        exact (hpackages.symm.trans (hs.1.2.1 (hs.2.2 rfl hpresent)))
    | true =>
      refine sends_removeDirAll (fun disk memory hs => ?_) (fun disk memory kept hs => ?_)
        fun disk memory kept hs => ?_
      · exact ⟨⟨hpackage _ _ none hs.1.1, hs.1.2.clear _ none⟩, Function.update_self _ _ _⟩
      · exact hpackage _ _ (some kept) hs.1.1
      · exact hcut _ _ (hpackage _ _ (some kept) hs.1.1)
  · refine Sends.bind _ sends_pathExists fun found => ?_
    cases found with
    | false =>
      refine Sends.pure fun s hs => ⟨hs.1.1.1, hs.1.2, ?_⟩
      cases hpresent : s.disk.data id with
      | false => rfl
      | true => exact hpresent.symm.trans (hs.1.1.2.2 (hs.2.2 rfl hpresent))
    | true =>
      refine sends_removeDirAll (fun disk memory hs => ?_) (fun disk memory kept hs => ?_)
        fun disk memory kept hs => ?_
      · exact ⟨hdata _ _ none hs.1.1.1, packages_clear hs.1.2 _ none, Function.update_self _ _ _⟩
      · exact hdata _ _ (some kept) hs.1.1.1
      · exact hcut _ _ (hdata _ _ (some kept) hs.1.1.1)

/-- A removal is on the disk before anything is deleted, and the record goes last. -/
theorem sends_remove {moduleId : String} :
    Sends (On fun disk memory => At env registry disk memory ∧ Readable env disk moduleId) (remove env moduleId)
      (fun _ => On (Followed env registry)) (fun _ => On (At env registry))
      (On (FollowedDisk env registry)) := by
  refine sends_look fun s hs => ?_
  rw [hs.1.1]
  split
  · exact Sends.fail fun _ h => h.1
  · next record hget =>
    generalize hnext : registry.insert moduleId
      { record with removing := true, enabled := false, preferences := [] } = next
    have hupgrades : Upgrades env registry next := by
      rw [← hnext]
      exact upgrades_rewrite hget rfl fun _ => rfl
    have hremoving : ∀ other, next.get moduleId = some other → other.removing = true := by
      intro other hother
      rw [← hnext, get_insert, if_pos rfl] at hother
      cases hother
      rfl
    have hcut : ∀ disk memory, At env next disk memory → FollowedDisk env registry disk memory :=
      fun disk memory h => h.followedDisk (hupgrades.follows disk)
    refine Sends.bind (fun _ => On fun disk memory => At env next disk memory ∧ Readable env disk moduleId)
      ((sends_store (fun disk memory => At env registry disk memory ∧ Readable env disk moduleId)
        (fun disk => Readable env disk moduleId) (fun _ _ h => h.1) (fun disk memory h => ?_)
        fun disk memory h => h.2).mono (fun _ => id) (fun _ _ => id) (fun _ _ => id) fun s' h =>
          UpgradedDisk.followedDisk h) fun _ => ?_
    · rw [← hnext]
      exact h.1.2.2.rewrite hget rfl (fun hstays => nomatch hstays) fun _ => rfl
    refine Sends.bind _ sends_answer fun cleared => Sends.bind _ sends_answer fun unpinned => ?_
    split
    · have hclear : Sends (On (At env next)) (clearFolder env (.data moduleId))
          (fun _ => On (At env next)) (fun _ => On (At env next)) (On (FollowedDisk env registry)) := by
        refine Sends.bind _ sends_ask fun found => sends_onlyIf fun _ => ?_
        exact sends_removeDirAll (fun _ _ h => h.clear_data moduleId none) (fun _ _ kept h =>
          h.clear_data moduleId (some kept)) fun _ _ kept h => hcut _ _ (h.clear_data moduleId (some kept))
      refine Sends.bind (fun _ => On (At env next)) ((Sends.attempt hclear).mono (fun _ h => h.1)
        (fun _ _ => id) (fun _ _ => id) fun _ => id) fun _ => Sends.pure fun s' h => ?_
      exact ⟨next, h, hupgrades.follows _⟩
    · refine Sends.attempt_bind (fun _ => On fun disk memory => At env next disk memory ∧ Gone disk moduleId)
        (fun _ => On (At env next)) (sends_clearFolders (fun _ _ kept h => h.clear_removing hremoving kept)
          (fun _ _ kept h => h.clear_data moduleId kept) hcut) (fun _ => ?_) fun e => Sends.pure fun s' h =>
            ⟨next, h, hupgrades.follows _⟩
      dsimp only
      split
      · exact Sends.pure fun s' h => ⟨next, h.1, hupgrades.follows _⟩
      · have hfollows : ∀ disk, Gone disk moduleId → Follows env registry (next.remove moduleId) disk := by
          intro disk hgone other record' hother
          rw [get_remove]
          by_cases hsame : other = moduleId
          · subst hsame
            exact Or.inr ⟨if_pos rfl, hgone⟩
          · rw [if_neg hsame]
            exact Or.inl (hupgrades other record' hother)
        refine Sends.attempt_bind (fun _ => On fun disk _ => disk.registry = some (next.remove moduleId) ∧
          Sound env.toVerifier (next.remove moduleId) disk ∧ Gone disk moduleId) (fun _ => On (At env next))
          (sends_persist (fun _ _ h => h.1) (fun disk memory h => hcut _ _ h.1) fun disk memory h => ?_)
          (fun _ => ?_) fun e => Sends.pure fun s' h => ⟨next, h, hupgrades.follows _⟩
        · exact ⟨rfl, (h.1.2.2.remove moduleId).of_versions fun _ _ _ _ => rfl, h.2⟩
        · refine sends_setMemory fun disk memory h => ⟨next.remove moduleId, ⟨rfl, ?_, h.2.1⟩,
            hfollows disk h.2.2⟩
          rw [h.1]
          rfl

/-- What a listing has left of the registry: records of it, with the others gone. -/
structure Leaves (env : Env V) (registry left : Registry) (disk : Disk) (memory : Registry) : Prop where
  here : At env registry disk memory
  keys : (left.map Prod.fst).Nodup
  part : ∀ id record, left.get id = some record → registry.get id = some record
  follows : Follows env registry left disk

theorem Leaves.sound (h : Leaves env registry left disk memory) : Sound env.toVerifier left disk :=
  ⟨h.keys, fun id record hget => h.here.2.2.complete id record (h.part id record hget),
    fun id record hget => h.here.2.2.disabled id record (h.part id record hget)⟩

theorem Leaves.followedDisk (h : Leaves env registry left disk memory) :
    FollowedDisk env registry disk memory :=
  h.here.followedDisk ((Upgrades.refl registry).follows disk)

theorem Leaves.clear (h : Leaves env registry left disk memory) {folder : Folder}
    {kept : Option Kept} (hhere : At env registry (disk.clear folder kept) memory) :
    Leaves env registry left (disk.clear folder kept) memory :=
  ⟨hhere, h.keys, h.part, h.follows.clear folder kept⟩

theorem Leaves.remove (h : Leaves env registry left disk memory) {moduleId : String}
    (hgone : Gone disk moduleId) : Leaves env registry (left.remove moduleId) disk memory := by
  refine ⟨h.here, h.keys.sublist (List.filter_sublist.map _), fun other record hget => ?_, ?_⟩
  · rw [get_remove] at hget
    split at hget
    · cases hget
    · exact h.part other record hget
  · intro other record hget
    rw [get_remove]
    by_cases hsame : other = moduleId
    · subst hsame
      exact Or.inr ⟨if_pos rfl, hgone⟩
    · rw [if_neg hsame]
      exact h.follows other record hget

/-- A record leaves the registry where both of its directories were cleared. -/
theorem sends_cleanUp (pending : List String) (left : Registry)
    (hremoving : ∀ id ∈ pending, ∀ record, registry.get id = some record → record.removing = true) :
    Sends (On fun disk memory => Leaves env registry left disk memory ∧
        ∀ id ∈ pending, Readable env disk id)
      (cleanUp env pending left) (fun later => On (Leaves env registry later))
      (fun _ => On (At env registry)) (On (FollowedDisk env registry)) := by
  induction pending generalizing left with
  | nil => exact Sends.pure fun s h => h.1
  | cons moduleId rest ih =>
    have hrest : ∀ later, Sends (On fun disk memory => Leaves env registry later disk memory ∧
        ∀ id ∈ rest, Readable env disk id) (cleanUp env rest later)
        (fun later => On (Leaves env registry later)) (fun _ => On (At env registry))
        (On (FollowedDisk env registry)) := fun later =>
      ih later fun id hid => hremoving id (List.mem_cons_of_mem _ hid)
    have hskip : Sends (On fun disk memory => Leaves env registry left disk memory ∧
        ∀ id ∈ moduleId :: rest, Readable env disk id) (cleanUp env rest left)
        (fun later => On (Leaves env registry later)) (fun _ => On (At env registry))
        (On (FollowedDisk env registry)) :=
      (hrest left).mono (fun s h => ⟨h.1, fun id hid => h.2 id (List.mem_cons_of_mem _ hid)⟩)
        (fun _ _ => id) (fun _ _ => id) fun _ => id
    refine Sends.bind _ sends_answer fun cleared => ?_
    split
    · exact hskip
    · refine Sends.bind _ sends_answer fun unpinned => ?_
      split
      · exact hskip
      · refine Sends.attempt_bind (fun _ => On fun disk memory =>
          (Leaves env registry left disk memory ∧ ∀ id ∈ rest, Readable env disk id) ∧
            Gone disk moduleId)
          (fun _ => On fun disk memory => Leaves env registry left disk memory ∧
            ∀ id ∈ rest, Readable env disk id)
          ((sends_clearFolders ?_ ?_ ?_).mono ?_ (fun _ _ => id) (fun _ _ => id) fun _ => id)
          (fun _ => ?_) fun e => hrest left
        · intro disk memory kept h
          exact ⟨h.1.clear (h.1.here.clear_removing (hremoving moduleId List.mem_cons_self) kept),
            fun id hid => (h.2 id hid).clear _ kept⟩
        · intro disk memory kept h
          exact ⟨h.1.clear (h.1.here.clear_data moduleId kept), fun id hid => (h.2 id hid).clear _ kept⟩
        · exact fun disk memory h => h.1.followedDisk
        · intro s h
          exact ⟨⟨h.1, fun id hid => h.2 id (List.mem_cons_of_mem _ hid)⟩,
            h.2 moduleId List.mem_cons_self⟩
        · exact (hrest _).mono (fun s h => ⟨h.1.1.remove h.2, h.1.2⟩) (fun _ _ => id) (fun _ _ => id)
            fun _ => id

/-- Versions that no record names are reclaimed. -/
theorem sends_reclaim (left : Registry) :
    Sends (On (Leaves env registry left)) (reclaim env left) (fun _ => On (Leaves env registry left))
      (fun _ => On (At env registry)) (On (FollowedDisk env registry)) := by
  refine Sends.each fun entry hentry => ?_
  refine Sends.attempt_bind (fun _ => On (Leaves env registry left)) (fun _ => On (Leaves env registry left))
    (sends_reads (fun _ _ => id) fun _ _ h => h.followedDisk) (fun _ => ?_) fun e => Sends.pure fun _ => id
  refine sends_look fun s hs => Sends.each fun version _ => ?_
  split
  · next hother =>
    refine Sends.bind _ sends_answer fun unpinned => ?_
    split
    · refine Sends.bind (fun _ => On (Leaves env registry left)) ?_ fun _ => Sends.pure fun _ => id
      refine sends_attempt_remove (fun disk memory kept h => h.clear (h.here.clear_version ?_ kept))
        fun _ _ h => h.followedDisk
      intro record hget
      have hsame := h.part _ _ (get_of_mem h.keys hentry)
      rw [hget] at hsame
      cases hsame
      simp only [Bool.and_eq_true, decide_eq_true_eq] at hother
      exact hother.1.symm
    · exact Sends.pure fun _ => id
  · exact Sends.pure fun _ => id

theorem sends_finishPendingRemovals :
    Sends (On fun disk memory => At env registry disk memory ∧
        ∀ id record, registry.get id = some record → record.removing = true → Readable env disk id)
      (finishPendingRemovals env) (fun _ => On (Followed env registry)) (fun _ => On (At env registry))
      (On (FollowedDisk env registry)) := by
  refine sends_look fun s hs => ?_
  rw [hs.1.1]
  have hkeys := hs.1.2.2.keys
  have hpending : ∀ id ∈ (registry.filter fun entry => entry.2.removing).map Prod.fst,
      ∃ record, registry.get id = some record ∧ record.removing = true := by
    intro id hid
    obtain ⟨entry, hentry, rfl⟩ := List.mem_map.1 hid
    obtain ⟨hmem, hremoving⟩ := List.mem_filter.1 hentry
    exact ⟨entry.2, get_of_mem hkeys hmem, hremoving⟩
  refine Sends.bind (fun later => On (Leaves env registry later))
    ((sends_cleanUp _ registry fun id hid record hget => ?_).mono (fun s' h => ?_) (fun _ _ => id)
      (fun _ _ => id) fun _ => id) fun later => ?_
  · obtain ⟨other, hother, hremoving⟩ := hpending id hid
    rw [hget] at hother
    cases hother
    exact hremoving
  · refine ⟨⟨h.1, hkeys, fun _ _ => id, (Upgrades.refl registry).follows _⟩, fun id hid => ?_⟩
    obtain ⟨record, hget, hremoving⟩ := hpending id hid
    exact h.2 id record hget hremoving
  · refine Sends.bind _ (sends_reclaim later) fun _ => ?_
    unfold onlyIf
    split
    · refine (sends_store (Leaves env registry later) (fun disk => Follows env registry later disk)
        (fun _ _ h => h.here) (fun _ _ h => h.sound) fun _ _ h => ?_).mono (fun _ => id)
        (fun _ s' h => ⟨later, h.1, h.2⟩) (fun _ _ => id) fun _ h => UpgradedDisk.followedDisk h
      exact h.follows
    · exact Sends.pure fun s' h => ⟨registry, h.here, (Upgrades.refl registry).follows _⟩

end Removal

end CopyPaste.Modules.Safety
