import CopyPaste.Lib.Crash
import CopyPaste.Lib.Rows
import CopyPaste.Modules.Packages
import Mathlib.Data.List.Sort
import Mathlib.Logic.Function.Basic

/-!
The module manager. Its registry is one file, written atomically and kept in memory; each
installed version has a directory under `packages`, each module one under `data`, and
updates for a coming application wait under `updates`. Every step of the file system works,
fails, or is where the process stops; a removal that does not work leaves what it had not
come to. A question whether a directory exists is answered with no where the directory
cannot be read.
-/

namespace CopyPaste.Modules.Manager

open Lib Crash Packages

abbrev Preferences := List (String × String)

structure Record where
  version : String
  enabled : Bool
  preferences : Preferences
  removing : Bool
  deriving DecidableEq

abbrev Registry := List (String × Record)

def Registry.get (registry : Registry) (id : String) : Option Record :=
  (Rows.lookup Prod.fst registry id).map Prod.snd

def Registry.insert (registry : Registry) (id : String) (record : Record) : Registry :=
  Rows.put Prod.fst registry (id, record)

def Registry.remove (registry : Registry) (id : String) : Registry :=
  registry.filter fun entry => entry.1 ≠ id

/-- An update that waits for an application version. Its directory remains as a receipt
when the payload has been taken out of it. -/
structure Update where
  app : String
  id : String
  version : String
  payload : Option Files
  deriving DecidableEq

def Update.key (update : Update) : String × String × String :=
  (update.app, update.id, update.version)

/-- Files under the root: of a package the directories of its versions, of the data of a
module only whether there are any. -/
structure Disk where
  registry : Option Registry
  packages : String → Option (List (String × Files))
  data : String → Bool
  updates : List Update

inductive Folder
  | package (id : String)
  | version (id version : String)
  | data (id : String)
  | batch (app : String)
  | staged (app id version : String)
  | payload (app id version : String)
  deriving DecidableEq

def Disk.version (disk : Disk) (id version : String) : Option Files :=
  (disk.packages id).bind fun versions => (Rows.lookup Prod.fst versions version).map Prod.snd

def Disk.payload (disk : Disk) (app id version : String) : Option Files :=
  (Rows.lookup Update.key disk.updates (app, id, version)).bind Update.payload

def Disk.present (disk : Disk) : Folder → Bool
  | .package id => (disk.packages id).isSome
  | .version id version => (disk.version id version).isSome
  | .data id => disk.data id
  | .batch app => disk.updates.any fun update => update.app = app
  | .staged app id version => (Rows.lookup Update.key disk.updates (app, id, version)).isSome
  | .payload app id version => (disk.payload app id version).isSome

def Disk.createPackage (id : String) (disk : Disk) : Disk :=
  { disk with packages := Function.update disk.packages id (some ((disk.packages id).getD [])) }

def Disk.setVersion (id version : String) (files : Files) (disk : Disk) : Disk :=
  { disk with
    packages := Function.update disk.packages id
      (some (Rows.put Prod.fst ((disk.packages id).getD []) (version, files))) }

/-- What of a directory a removal had not come to: a version by its name, a file of it by
its path. -/
abbrev Kept := String → String → Bool

/-- A staged update of which some files are gone, or its payload. -/
def Update.part (kept : Kept) (update : Update) : Update :=
  { update with
    payload := if kept update.version "" then
        update.payload.map fun files => files.filter fun file => kept update.version file.1
      else none }

/-- Take a directory away, or the part of it that is not kept. -/
def Disk.clear (disk : Disk) : Folder → Option Kept → Disk
  | .package id, none => { disk with packages := Function.update disk.packages id none }
  | .package id, some kept =>
    { disk with
      packages := Function.update disk.packages id ((disk.packages id).map fun versions =>
        (versions.filter fun entry => kept entry.1 "").map fun entry =>
          (entry.1, entry.2.filter fun file => kept entry.1 file.1)) }
  | .version id version, none =>
    { disk with
      packages := Function.update disk.packages id ((disk.packages id).map fun versions =>
        versions.filter fun entry => entry.1 ≠ version) }
  | .version id version, some kept =>
    { disk with
      packages := Function.update disk.packages id ((disk.packages id).map fun versions =>
        versions.map fun entry =>
          if entry.1 = version then (entry.1, entry.2.filter fun file => kept entry.1 file.1)
          else entry) }
  | .data id, none => { disk with data := Function.update disk.data id false }
  | .data _, some _ => disk
  | .batch app, none =>
    { disk with updates := disk.updates.filter fun update => update.app ≠ app }
  | .batch app, some kept =>
    { disk with
      updates := disk.updates.filterMap fun update =>
        if update.app = app then
          if kept update.id update.version then some (update.part kept) else none
        else some update }
  | .staged app id version, none =>
    { disk with updates := disk.updates.filter fun update => update.key ≠ (app, id, version) }
  | .payload app id version, none =>
    { disk with
      updates := disk.updates.map fun update =>
        if update.key = (app, id, version) then { update with payload := none } else update }
  | .staged app id version, some kept | .payload app id version, some kept =>
    { disk with
      updates := disk.updates.map fun update =>
        if update.key = (app, id, version) then update.part kept else update }

/-- How a step of the file system goes. -/
inductive Fate
  | works
  | fails (kept : Kept)
  | stops (kept : Kept)

/-- What a running manager works on: the disk, its registry in memory, and how the steps
and the questions to its surroundings will go. -/
structure State where
  disk : Disk
  memory : Registry
  fates : List Fate
  answers : List Bool

/-- What the program gets from elsewhere: versions, declared fields, size limits; the
version of the application; and the directories that cannot be read. -/
structure Env (V : Type) extends Verifier where
  parse : String → Option V
  print : V → String
  validId : String → Bool
  defaultValue : ModuleField → String
  acceptsStored : ModuleField → String → Bool
  resolveFields : List ModuleField → Preferences → Except ModuleError Preferences
  selectedModel : String → Preferences → Except ModuleError String
  fitsRegistry : Registry → Bool
  fitsSummaries : Disk → Registry → Bool
  appVersion : String
  unreadable : Folder → Bool

abbrev Run := Prog State ModuleError

def fate : Run Fate := fun s =>
  match s.fates with
  | [] => (.done .works, s)
  | fate :: fates => (.done fate, { s with fates := fates })

/-- A service, a loaded library or a download answers as hoped or not. -/
def answer : Run Bool := fun s =>
  match s.answers with
  | [] => (.done true, s)
  | answer :: answers => (.done answer, { s with answers := answers })

def change (f : Disk → Disk) : Run Unit :=
  modify fun s => { s with disk := f s.disk }

def step (f : Disk → Disk) : Run Unit := do
  match ← fate with
  | .works => change f
  | .fails _ => fail .storage
  | .stops _ => stop

def removeDirAll (folder : Folder) : Run Unit := do
  match ← fate with
  | .works => change fun disk => disk.clear folder none
  | .fails kept => do
    change fun disk => disk.clear folder (some kept)
    fail .storage
  | .stops kept => do
    change fun disk => disk.clear folder (some kept)
    stop

def onlyIf (condition : Bool) (prog : Run Unit) : Run Unit :=
  if condition then prog else pure ()

variable {V : Type} [LinearOrder V] (env : Env V)

def pathExists (folder : Folder) : Run Bool := do
  let s ← get
  return s.disk.present folder && !env.unreadable folder

/-- Where a package is taken from. -/
inductive Stage
  | temporary (files : Files)
  | payload (app id version : String)
  | version (id version : String)
  deriving DecidableEq

def Disk.at (disk : Disk) : Stage → Option Files
  | .temporary files => some files
  | .payload app id version => disk.payload app id version
  | .version id version => disk.version id version

def Disk.take (disk : Disk) : Stage → Disk
  | .temporary _ => disk
  | .payload app id version => disk.clear (.payload app id version) none
  | .version id version => disk.clear (.version id version) none

/-- A directory may take the place of an empty one only. -/
def rename (stage : Stage) (id version : String) : Run Unit := do
  let s ← get
  match s.disk.at stage with
  | none => fail .storage
  | some files =>
    if stage = .version id version then step fun disk => disk
    else if (s.disk.version id version).any (!·.isEmpty) then fail .storage
    else step fun disk => (disk.take stage).setVersion id version files

def reads : Run Unit := step fun disk => disk

def installed (hostVersion : String) (files : Option Files) (verifyFiles : Bool) :
    Run ModuleManifest := do
  reads
  match files with
  | none => fail .storage
  | some files => fromExcept (env.installed hostVersion files verifyFiles)

def manifest (id : String) (record : Record) : Run ModuleManifest := do
  let s ← get
  let manifest ← installed env env.appVersion (s.disk.version id record.version) false
  if manifest.id ≠ id || manifest.version ≠ record.version then fail .state
  else return manifest

def persist (registry : Registry) : Run Unit := do
  let s ← get
  if !env.fitsRegistry registry then
    fail (.invalid "The module registry exceeds its size limit.")
  else if !env.fitsSummaries s.disk registry then
    fail (.invalid "The installed module metadata exceeds its size limit.")
  else step fun disk => { disk with registry := some registry }

def setMemory (registry : Registry) : Run Unit :=
  modify fun s => { s with memory := registry }

/-- The registry in memory follows the one on the disk. -/
def store (registry : Registry) : Run Unit := do
  persist env registry
  setMemory registry

/-- Whether a package may take the place of what is installed. -/
def admitted (registry : Registry) (manifest : ModuleManifest) : Except ModuleError Unit :=
  match registry.get manifest.id with
  | some old =>
    if old.removing then
      .error (.invalid "Finish removing this module before installing it again.")
    else
      match env.parse old.version, env.parse manifest.version with
      | some current, some incoming =>
        if incoming ≤ current then .error (.invalid "Install a newer version of this module.")
        else .ok ()
      | _, _ => .error .state
  | none =>
    if 128 ≤ registry.length then .error (.invalid "Too many modules are installed.") else .ok ()

/-- Existing settings and enabled state survive updates; incompatible preferences reset. -/
def upgraded (old : Option Record) (manifest : ModuleManifest) : Record where
  version := manifest.version
  enabled := match old with
    | some old => old.enabled
    | none => manifest.eventHandlers.isEmpty && manifest.searchProvider.isNone &&
      manifest.syncProvider.isNone
  preferences := manifest.preferences.map fun field =>
    (field.id, ((old.bind fun old => old.preferences.lookup field.id).filter
      (env.acceptsStored field)).getD (env.defaultValue field))
  removing := false

/-- The directory of a version, from where it was extracted or staged. -/
def place (manifest : ModuleManifest) (stage : Stage) : Run Unit := do
  -- A previous interrupted activation may have left this unreferenced version.
  if ← pathExists env (.version manifest.id manifest.version) then do
    let s ← get
    let found ← installed env env.appVersion (s.disk.version manifest.id manifest.version) true
    if found ≠ manifest then
      fail (.invalid "The staged module version conflicts with an existing package.")
    else pure ()
  else rename stage manifest.id manifest.version

/-- The registry names the new version, and the old directory goes; or the new one goes. -/
def switch (registry : Registry) (manifest : ModuleManifest) (old : Option Record) : Run Unit := do
  match ← attempt (persist env registry) with
  | .error error => do
    let _ ← attempt (removeDirAll (.version manifest.id manifest.version))
    fail error
  | .ok () => do
    setMemory registry
    match old with
    | none => pure ()
    | some old => do
      let _ ← attempt (removeDirAll (.version manifest.id old.version))

def activatePackage (manifest : ModuleManifest) (stage : Stage) : Run Unit := do
  let s ← get
  let old := s.memory.get manifest.id
  fromExcept (admitted env s.memory manifest)
  step fun disk => disk.createPackage manifest.id
  place env manifest stage
  switch env (s.memory.insert manifest.id (upgraded env old manifest)) manifest old

/-- Installing a newer package performs an atomic version switch. -/
def install (archive : Archive) : Run Unit := do
  step fun disk => disk
  reads
  let (manifest, files) ← fromExcept (env.extract env.appVersion archive)
  activatePackage env manifest (.temporary files)

def stageUpdate (id : String) (archive : Archive) (appVersion : String) : Run Unit := do
  let s ← get
  match env.parse appVersion, env.parse env.appVersion with
  | some version, some current =>
    if !env.validId id || decide (version ≤ current) then
      fail (.invalid "The application update is not newer.")
    else
      match (s.memory.get id).filter (!·.removing) with
      | none => fail .notInstalled
      | some record => do
        let app := env.print version
        step fun disk => disk
        step fun disk => disk
        reads
        let (manifest, files) ← fromExcept (env.extract appVersion archive)
        if manifest.id ≠ id then fail (.invalid "The module update is not newer.")
        else
          match env.parse manifest.version, env.parse record.version with
          | some incoming, some installedVersion =>
            if incoming ≤ installedVersion then fail (.invalid "The module update is not newer.")
            else do
              step fun disk => disk
              if ← pathExists env (.staged app id manifest.version) then do
                let now ← get
                let found ← installed env appVersion (now.disk.payload app id manifest.version) true
                if found ≠ manifest then fail (.invalid "The staged module update conflicts.")
                else pure ()
              else do
                let now ← get
                if now.disk.present (.staged app id manifest.version) then fail .storage
                else step fun disk =>
                  { disk with updates := disk.updates ++ [⟨app, id, manifest.version, some files⟩] }
          | _, _ => fail .state
  | _, _ => fail .state

/-- Activate a candidate that is complete and what its directory says. -/
def activateFrom (id : String) (version : V) (source : Stage) : Run Unit := do
  let s ← get
  let manifest ← installed env env.appVersion (s.disk.at source) true
  if manifest.id = id ∧ manifest.version = env.print version then
    activatePackage env manifest source
  else fail .state

/-- The first candidate that can be activated is. -/
def activateFirst (id : String) : List (V × Update) → Run Unit
  | [] => pure ()
  | (version, update) :: rest => do
    -- The version directory remains as a receipt if a process exits after the payload
    -- rename but before the registry commit.
    let waits ← pathExists env (.payload update.app update.id update.version)
    match ← attempt (activateFrom env id version (if waits then
        .payload update.app update.id update.version else .version id (env.print version))) with
    | .ok () => pure ()
    | .error _ => activateFirst id rest

/-- The updates of a module under a directory that can be listed. -/
def candidates (id : String) : List String → Run (List (V × Update))
  | [] => pure []
  | app :: apps => do
    let listed ← attempt reads
    let s ← get
    let rest ← candidates id apps
    match listed with
    | .error _ => return rest
    | .ok () =>
      return (s.disk.updates.filter fun update => update.app = app && update.id = id).filterMap
        (fun update => (env.parse update.version).map (·, update)) ++ rest

/-- A missing, corrupt, removed, or incompatible update keeps the old module. -/
def activateStagedUpdates : Run Unit := do
  match env.parse env.appVersion with
  | none => pure ()
  | some current =>
    match ← attempt reads with
    | .error _ => pure ()
    | .ok () => do
      let s ← get
      let eligible := ((s.disk.updates.map Update.app).dedup).filter fun app =>
        (env.parse app).any (· ≤ current)
      each s.memory fun entry =>
        if entry.2.removing then pure ()
        else do
          let found ← candidates env entry.1 eligible
          activateFirst env entry.1 (found.insertionSort fun a b => b.1 ≤ a.1)
      -- Consume eligible batches once without networking.
      each eligible fun app => do
        let _ ← attempt (removeDirAll (.batch app))

def openManager : Run Unit := do
  step fun disk => disk
  step fun disk => disk
  reads
  let s ← get
  let registry := s.disk.registry.getD []
  if 128 < registry.length || registry.any (fun entry =>
      !env.validId entry.1 || (env.parse entry.2.version).isNone) then fail .state
  else do
    step fun disk => disk
    setMemory registry
    activateStagedUpdates env

/-- A search module is enabled only with a model that is there and healthy. -/
def modelReady (id : String) (record : Record) : Run Unit := do
  let manifest ← manifest env id record
  match manifest.searchProvider with
  | none => pure ()
  | some provider => do
    let _ ← fromExcept (env.selectedModel provider record.preferences)
    if ← answer then pure ()
    else
      fail (.invalid "Choose languages and download their model before enabling semantic search.")

def setEnabled (id : String) (enabled : Bool) : Run Unit := do
  let s ← get
  match s.memory.get id with
  | none => fail .notInstalled
  | some record =>
    if record.removing then fail (.invalid "Finish removing this module first.")
    else do
      onlyIf enabled (modelReady env id record)
      store env (s.memory.insert id { record with enabled := enabled })

/-- Whether a model was downloaded that has to be published with the preferences. -/
def prepare (manifest : ModuleManifest) (preferences : Preferences) : Run Bool :=
  match manifest.searchProvider with
  | none => pure false
  | some provider => do
    let _ ← fromExcept (env.selectedModel provider preferences)
    reads
    answer

def publish (id : String) : Run Unit := do
  step fun disk => { disk with data := Function.update disk.data id true }
  reads
  reads

def setPreferences (id : String) (values : Preferences) : Run Unit := do
  let s ← get
  match s.memory.get id with
  | none => fail .notInstalled
  | some record =>
    if record.removing then fail .disabled
    else do
      let manifest ← manifest env id record
      let preferences ← fromExcept (env.resolveFields manifest.preferences values)
      let prepared ← prepare env manifest preferences
      -- Downloads do not hold the registry, so the record is looked up again.
      let now ← get
      match now.memory.get id with
      | none => fail .notInstalled
      | some record =>
        if record.removing || record.version ≠ manifest.version then fail .disabled
        else do
          onlyIf prepared (publish id)
          store env (now.memory.insert id { record with preferences := preferences })

def clearFolder (folder : Folder) : Run Unit := do
  onlyIf (← pathExists env folder) (removeDirAll folder)

/-- Both directories of a module, the second only when the first is cleared. -/
def clearFolders (id : String) : Run Unit := do
  clearFolder env (.package id)
  clearFolder env (.data id)

def remove (id : String) : Run Unit := do
  let s ← get
  match s.memory.get id with
  | none => fail .notInstalled
  | some record => do
    let registry := s.memory.insert id
      { record with removing := true, enabled := false, preferences := [] }
    -- Persist removal before releasing code and deleting package/data.
    store env registry
    let stateCleared ← answer
    let unpinned ← answer
    if !unpinned then do
      let _ ← attempt (clearFolder env (.data id))
    else
      match ← attempt (clearFolders env id) with
      | .error _ => pure ()
      | .ok () =>
        if !stateCleared then pure ()
        else
          match ← attempt (persist env (registry.remove id)) with
          | .error _ => pure ()
          | .ok () => setMemory (registry.remove id)

/-- What is left of a registry when the removals that can be finished are. -/
def cleanUp : List String → Registry → Run Registry
  | [], registry => pure registry
  | id :: rest, registry => do
    if !(← answer) then cleanUp rest registry
    else if !(← answer) then cleanUp rest registry
    else
      match ← attempt (clearFolders env id) with
      | .error _ => cleanUp rest registry
      | .ok () => cleanUp rest (registry.remove id)

/-- Reclaim inactive package versions retained by earlier updates. -/
def reclaim (registry : Registry) : Run Unit :=
  each registry fun entry => do
    match ← attempt reads with
    | .error _ => pure ()
    | .ok () => do
      let s ← get
      each ((s.disk.packages entry.1).getD []) fun version =>
        if version.1 ≠ entry.2.version && (env.parse version.1).isSome then do
          if ← answer then do
            let _ ← attempt (removeDirAll (.version entry.1 version.1))
            pure ()
          else pure ()
        else pure ()

def finishPendingRemovals : Run Unit := do
  let s ← get
  let pending := (s.memory.filter fun entry => entry.2.removing).map Prod.fst
  let registry ← cleanUp env pending s.memory
  reclaim env registry
  onlyIf (decide (registry.length ≠ s.memory.length)) (store env registry)

inductive Op
  | install (archive : Archive)
  | stageUpdate (id : String) (archive : Archive) (appVersion : String)
  | restart (appVersion : String)
  | setEnabled (id : String) (enabled : Bool)
  | setPreferences (id : String) (values : Preferences)
  | remove (id : String)
  | list

def program : Op → Run Unit
  | .install archive => install env archive
  | .stageUpdate id archive appVersion => stageUpdate env id archive appVersion
  | .restart _ => openManager env
  | .setEnabled id enabled => setEnabled env id enabled
  | .setPreferences id values => setPreferences env id values
  | .remove id => remove env id
  | .list => finishPendingRemovals env

/-- A running manager, of an application version. -/
structure Running where
  appVersion : String
  memory : Registry

/-- The root directory, and the manager while one is running. -/
structure World where
  disk : Disk
  running : Option Running

def World.registry (world : World) : Registry :=
  world.disk.registry.getD []

def World.empty : World := ⟨⟨none, fun _ => none, fun _ => false, []⟩, none⟩

/-- An operation, and how everything goes while it is made. -/
structure Turn where
  op : Op
  unreadable : Folder → Bool
  fates : List Fate
  answers : List Bool

/-- The manager after an operation: gone when the process stopped or could not open. -/
def leaves (op : Op) (appVersion : String) : Ending ModuleError Unit → Registry → Option Running
  | .done (), memory => some ⟨appVersion, memory⟩
  | .error _, memory => match op with
    | .restart _ => none
    | _ => some ⟨appVersion, memory⟩
  | .stopped, _ => none

def Env.during (appVersion : String) (unreadable : Folder → Bool) : Env V :=
  { env with appVersion := appVersion, unreadable := unreadable }

/-- A manager of some version, with a registry in memory, makes an operation. -/
def World.ask (world : World) (turn : Turn) (appVersion : String) (memory : Registry) :
    Ending ModuleError Unit × World :=
  let (ending, s) := program (env.during appVersion turn.unreadable) turn.op
    ⟨world.disk, memory, turn.fates, turn.answers⟩
  (ending, ⟨s.disk, leaves turn.op appVersion ending s.memory⟩)

/-- One turn. Nothing but a start can be asked where no manager is running. -/
def World.take (world : World) (turn : Turn) : Ending ModuleError Unit × World :=
  match turn.op, world.running with
  | .restart appVersion, _ => world.ask env turn appVersion []
  | _, some running => world.ask env turn running.appVersion running.memory
  | _, none => (.error .state, world)

end CopyPaste.Modules.Manager
