import CopyPaste.Lib.Checks
import Mathlib

/-!
Module packages. An archive is authenticated by its signed manifest, and a package
directory holds what the archive held: the manifest, its signature, and every file of the
inventory with the size and the hash that the manifest says. The same checks are made
again on an installed directory.
-/

namespace CopyPaste.Modules.Packages

/-- The files of a directory, by their relative paths. -/
abbrev Files := List (String × List UInt8)

structure ModuleFile where
  path : String
  sha256 : String
  sizeBytes : ℕ
  deriving DecidableEq

/-- A field of the preferences, with what it accepts in the form it is declared in. -/
structure ModuleField where
  id : String
  value : String
  deriving DecidableEq

/-- The fields that are only shown or compared are kept as they are declared. -/
structure ModuleManifest where
  id : String
  version : String
  files : List ModuleFile
  preferences : List ModuleField
  eventHandlers : List String
  searchProvider : Option String
  syncProvider : Option String
  declared : String
  deriving DecidableEq

inductive ModuleError
  | invalid (message : String)
  | notInstalled
  | disabled
  | storage
  | state
  deriving DecidableEq

def maxPackageBytes : ℕ := 2 * 1024 * 1024 * 1024
def maxManifestBytes : ℕ := 256 * 1024
def maxSignatureBytes : ℕ := 4096
def manifestName : String := "manifest.json"
def signatureName : String := "manifest.json.sig"

def invalidSignature : ModuleError := .invalid "The module is not signed by CopyPaste."
def invalidArchive : ModuleError := .invalid "The module package file inventory is invalid."
def packageTooLarge : ModuleError := .invalid "The module package exceeds its size limit."

/-- What the program gets from elsewhere: the signature with its key, the decoder, the
compatibility of a manifest with an application, hashes and paths. -/
structure Verifier where
  verify : List UInt8 → List UInt8 → Bool
  decode : List UInt8 → Option ModuleManifest
  validate : String → ModuleManifest → Except ModuleError Unit
  sha256 : List UInt8 → String
  toLowercase : String → String
  validRelativePath : String → Bool

/-- An archive: its own size and its entries, each with whether it is a plain file. -/
structure Archive where
  size : ℕ
  entries : List (String × List UInt8 × Bool)

variable (v : Verifier)

def require (condition : Bool) (error : ModuleError) : Except ModuleError Unit :=
  if condition then .ok () else .error error

/-- Authenticate a manifest, for an application of some version. -/
def Verifier.manifest (hostVersion : String) (bytes signature : List UInt8) :
    Except ModuleError ModuleManifest := do
  require (v.verify bytes signature) invalidSignature
  match v.decode bytes with
  | none => throw (.invalid "The module manifest is invalid.")
  | some manifest => do
    v.validate hostVersion manifest
    require (decide ((manifest.files.map fun file => v.toLowercase file.path).Nodup))
      (.invalid "Module file paths collide.")
    require (decide ((manifest.files.map (·.sizeBytes)).sum ≤ maxPackageBytes)) packageTooLarge
    return manifest

/-- Read a small file whole; what it says when there is none is the reader's. -/
def read (missing : ModuleError) (files : Files) (name : String) (limit : ℕ) :
    Except ModuleError (List UInt8) :=
  match files.lookup name with
  | none => .error missing
  | some bytes => if bytes.length ≤ limit then .ok bytes else .error packageTooLarge

def readEntry : Files → String → ℕ → Except ModuleError (List UInt8) := read invalidArchive
def readRegular : Files → String → ℕ → Except ModuleError (List UInt8) := read .storage

/-- A file of the inventory is there, with its size and its hash. -/
def Verifier.holds (files : Files) (inventory : ModuleFile) : Bool :=
  (files.lookup inventory.path).any fun bytes =>
    bytes.length = inventory.sizeBytes && v.sha256 bytes = v.toLowercase inventory.sha256

/-- Check a file of the inventory: what there is of it, then the size, then the hash. -/
def Verifier.check (missing : ModuleError) (integrity : String) (files : Files)
    (inventory : ModuleFile) : Except ModuleError Unit :=
  match files.lookup inventory.path with
  | none => .error missing
  | some bytes => do
    require (decide (bytes.length = inventory.sizeBytes)) invalidArchive
    require (decide (v.sha256 bytes = v.toLowercase inventory.sha256)) (.invalid integrity)

/-- Re-authenticate installed code before it is loaded. -/
def Verifier.installed (hostVersion : String) (files : Files) (verifyFiles : Bool) :
    Except ModuleError ModuleManifest := do
  let bytes ← readRegular files manifestName maxManifestBytes
  let signature ← readRegular files signatureName maxSignatureBytes
  let manifest ← v.manifest hostVersion bytes signature
  if verifyFiles then
    manifest.files.forM
      (v.check .storage "An installed module failed its integrity check." files)
  return manifest

/-- Extract only inventoried regular files, after authenticating the manifest. -/
def Verifier.extract (hostVersion : String) (archive : Archive) :
    Except ModuleError (ModuleManifest × Files) := do
  require (decide (archive.size ≤ maxPackageBytes)) packageTooLarge
  require (decide (archive.entries.length ≤ 4098)) packageTooLarge
  require (archive.entries.all fun entry => entry.2.2 && v.validRelativePath entry.1) invalidArchive
  require (decide (archive.entries.map (·.1)).Nodup) invalidArchive
  let files := archive.entries.map fun entry => (entry.1, entry.2.1)
  let bytes ← readEntry files manifestName maxManifestBytes
  let signature ← readEntry files signatureName maxSignatureBytes
  let manifest ← v.manifest hostVersion bytes signature
  let expected := manifest.files.map (·.path) ++ [manifestName, signatureName]
  require (files.all fun file => expected.contains file.1) invalidArchive
  require (expected.all fun name => (files.lookup name).isSome) invalidArchive
  manifest.files.forM
    (v.check invalidArchive "A module file failed its integrity check." files)
  return (manifest, files)

/-- A directory holds all of a package, whatever application it is for: a signed manifest
that reads as this one, and its inventory. -/
structure Complete (files : Files) (manifest : ModuleManifest) : Prop where
  signed : ∃ bytes signature, files.lookup manifestName = some bytes ∧
    files.lookup signatureName = some signature ∧ v.verify bytes signature = true ∧
    v.decode bytes = some manifest
  inventory : ∀ file ∈ manifest.files, v.holds files file = true

theorem require_ok {condition : Bool} {error : ModuleError} {u : Unit} :
    require condition error = .ok u ↔ condition = true := by
  cases condition with
  | true => exact ⟨fun _ => rfl, fun _ => rfl⟩
  | false => exact ⟨nofun, nofun⟩

variable {files : Files} {hostVersion : String}

theorem read_ok {missing : ModuleError} {name : String} {limit : ℕ} {bytes : List UInt8}
    (h : read missing files name limit = .ok bytes) : files.lookup name = some bytes := by
  unfold read at h
  split at h
  · cases h
  · next other hlookup =>
    split at h
    · rw [hlookup, Except.ok.inj h]
    · cases h

theorem check_ok {missing : ModuleError} {integrity : String} {inventory : ModuleFile} :
    v.check missing integrity files inventory = .ok () ↔ v.holds files inventory = true := by
  unfold Verifier.check Verifier.holds
  cases files.lookup inventory.path with
  | none => exact ⟨nofun, nofun⟩
  | some bytes =>
    simp only [Lib.Checks.bind_ok_iff, Lib.Checks.exists_unit, require_ok, Option.any_some,
      Bool.and_eq_true]

/-- A whole inventory is checked file by file. -/
theorem holds_of_checked {missing : ModuleError} {integrity : String}
    {inventory : List ModuleFile} {u : Unit}
    (h : inventory.forM (v.check missing integrity files) = .ok u) :
    ∀ file ∈ inventory, v.holds files file = true :=
  fun file hfile => (check_ok v).1 (Lib.Checks.forM_ok_iff.1 h file hfile)

theorem manifest_ok {bytes signature : List UInt8} {manifest : ModuleManifest}
    (h : v.manifest hostVersion bytes signature = .ok manifest) :
    v.verify bytes signature = true ∧ v.decode bytes = some manifest := by
  obtain ⟨u, hverify, h⟩ := Lib.Checks.bind_ok_iff.1 h
  refine ⟨require_ok.1 hverify, ?_⟩
  cases hdecode : v.decode bytes with
  | none =>
    rw [hdecode] at h
    cases h
  | some decoded =>
    rw [hdecode] at h
    obtain ⟨_, -, h⟩ := Lib.Checks.bind_ok_iff.1 h
    obtain ⟨_, -, h⟩ := Lib.Checks.bind_ok_iff.1 h
    obtain ⟨_, -, h⟩ := Lib.Checks.bind_ok_iff.1 h
    rw [Except.ok.inj h]

/-- What is re-authenticated with its files is complete. -/
theorem complete_of_installed {manifest : ModuleManifest}
    (h : v.installed hostVersion files true = .ok manifest) : Complete v files manifest := by
  obtain ⟨bytes, hbytes, h⟩ := Lib.Checks.bind_ok_iff.1 h
  obtain ⟨signature, hsignature, h⟩ := Lib.Checks.bind_ok_iff.1 h
  obtain ⟨decoded, hdecoded, h⟩ := Lib.Checks.bind_ok_iff.1 h
  obtain ⟨u, hholds, h⟩ := Lib.Checks.bind_ok_iff.1 h
  cases h
  obtain ⟨hverify, hdecode⟩ := manifest_ok v hdecoded
  exact ⟨⟨bytes, signature, read_ok hbytes, read_ok hsignature, hverify, hdecode⟩,
    holds_of_checked v hholds⟩

theorem complete_of_extract {archive : Archive} {manifest : ModuleManifest}
    (h : v.extract hostVersion archive = .ok (manifest, files)) : Complete v files manifest := by
  obtain ⟨_, -, h⟩ := Lib.Checks.bind_ok_iff.1 h
  obtain ⟨_, -, h⟩ := Lib.Checks.bind_ok_iff.1 h
  obtain ⟨_, -, h⟩ := Lib.Checks.bind_ok_iff.1 h
  obtain ⟨_, -, h⟩ := Lib.Checks.bind_ok_iff.1 h
  obtain ⟨bytes, hbytes, h⟩ := Lib.Checks.bind_ok_iff.1 h
  obtain ⟨signature, hsignature, h⟩ := Lib.Checks.bind_ok_iff.1 h
  obtain ⟨decoded, hdecoded, h⟩ := Lib.Checks.bind_ok_iff.1 h
  obtain ⟨_, -, h⟩ := Lib.Checks.bind_ok_iff.1 h
  obtain ⟨_, -, h⟩ := Lib.Checks.bind_ok_iff.1 h
  obtain ⟨_, hholds, h⟩ := Lib.Checks.bind_ok_iff.1 h
  cases h
  obtain ⟨hverify, hdecode⟩ := manifest_ok v hdecoded
  exact ⟨⟨bytes, signature, read_ok hbytes, read_ok hsignature, hverify, hdecode⟩,
    holds_of_checked v hholds⟩

end CopyPaste.Modules.Packages
