import CopyPaste.Lib.Shared
import CopyPaste.Merge.Effects

/-!
The tables beside the history that keep files: the encrypted chunks of the bodies,
which items of equal content share, the references to files of this device and the
downloads. Triggers on the ciphertext of an item release them: the tables follow the
history statement by statement.
-/

namespace CopyPaste.Files.Tables

open Lib.Rows Lib.Shared Merge.Comparator Merge.Payload Merge.Storage Merge.Effects

structure Chunk where
  index : Nat
  nonce : List UInt8
  ciphertext : List UInt8
  deriving DecidableEq, Repr

structure ReferenceRow where
  itemId : String
  reference : String
  sizeBytes : Nat
  modified : Option String
  deriving DecidableEq, Repr

structure DownloadRow where
  itemId : String
  destination : String
  deriving DecidableEq, Repr

/-- `bodies` has the items of `file_transfer_files` with their blobs as owners, the
stages as leases and the chunks as parts. -/
structure FileTables where
  bodies : Pool String String String Chunk := {}
  references : List ReferenceRow := []
  downloads : List DownloadRow := []

/-- The history and its files. -/
structure Disk where
  store : Store := {}
  files : FileTables := {}

def referenceMagic : List UInt8 := [0x43, 0x50, 0x52, 0x31]

def bigEndian (bytes : List UInt8) : Nat :=
  bytes.foldl (fun n byte => 256 * n + byte.toNat) 0

/-- `binary_reference::split`: the row part of an imported payload and the shared one. -/
def splitReference (envelope : List UInt8) : Option (List UInt8 × List UInt8) :=
  if referenceMagic.isPrefixOf envelope ∧ 32 ≤ envelope.length ∧
      bigEndian ((envelope.drop 28).take 4) = 64 + 16 ∧ 32 + (64 + 16) ≤ envelope.length then
    some (envelope.take (32 + (64 + 16)), envelope.drop (32 + (64 + 16)))
  else none

def rowCiphertext (bytes : List UInt8) : List UInt8 :=
  match splitReference bytes with
  | some (reference, _) => reference
  | none => bytes

/-- The column `content_ciphertext` of an item; none when the item has no row. -/
def contentCiphertext (store : Store) (id : String) : Option (Option (List UInt8)) :=
  (lookup ItemRow.id store.items id).map fun row =>
    row.payload.map fun payload => rowCiphertext payload.2

/-- The triggers of an item whose ciphertext changed or whose row is gone. -/
def FileTables.release (files : FileTables) (id : String) : FileTables where
  bodies := files.bodies.dropOwner id
  references := files.references.filter fun row => row.itemId ≠ id
  downloads := files.downloads.filter fun row => row.itemId ≠ id

/-- The rows a statement changed the ciphertext of, or deleted. -/
def changed (before after : Store) : List String :=
  (before.items.map ItemRow.id).filter fun id =>
    contentCiphertext after id ≠ contentCiphertext before id

/-- One statement on the history, with its triggers. -/
def Disk.settle (disk : Disk) (after : Store) : Disk where
  store := after
  files := (changed disk.store after).foldl FileTables.release disk.files

/-- What is kept of an item's file: its blobs with their chunks and its references. -/
structure Body where
  blobs : List String
  chunks : List (String × Chunk)
  references : List ReferenceRow
  deriving DecidableEq, Repr

def FileTables.bodyOf (files : FileTables) (id : String) : Body where
  blobs := (files.bodies.held id).1
  chunks := (files.bodies.held id).2
  references := files.references.filter fun row => row.itemId = id

/-- Nothing of a file. -/
def Body.none : Body := ⟨[], [], []⟩

theorem bodyOf_release_self (files : FileTables) (id : String) :
    (files.release id).bodyOf id = Body.none := by
  unfold FileTables.bodyOf FileTables.release Body.none
  rw [held_dropOwner_self]
  simp

theorem bodyOf_release_of_ne (files : FileTables) {id other : String} (h : other ≠ id) :
    (files.release id).bodyOf other = files.bodyOf other := by
  unfold FileTables.bodyOf FileTables.release
  rw [held_dropOwner_of_ne _ h, List.filter_filter]
  congr 1
  refine List.filter_congr fun row _ => ?_
  by_cases hrow : row.itemId = other
  · simp [hrow, h]
  · simp [hrow]

/-- Releases leave an item's file unless they are its own. -/
theorem bodyOf_releases (ids : List String) (files : FileTables) (id : String) :
    (ids.foldl FileTables.release files).bodyOf id =
      if id ∈ ids then Body.none else files.bodyOf id := by
  induction ids generalizing files with
  | nil => rfl
  | cons other rest ih =>
    rw [List.foldl_cons, ih]
    by_cases hid : id = other
    · subst hid
      simp [bodyOf_release_self]
    · simp [hid, bodyOf_release_of_ne files hid]

theorem mem_changed {before after : Store} {id : String} :
    id ∈ changed before after ↔ contentCiphertext before id ≠ none ∧
      contentCiphertext after id ≠ contentCiphertext before id := by
  unfold changed
  rw [List.mem_filter, decide_eq_true_eq]
  refine and_congr_left fun _ => ?_
  rw [contentCiphertext, Ne, Option.map_eq_none_iff, lookup_eq_none_iff]
  simp only [List.mem_map]
  constructor
  · rintro ⟨row, hrow, hid⟩ hnone
    exact hnone row hrow hid
  · intro hsome
    by_contra hnone
    exact hsome fun row hrow hid => hnone ⟨row, hrow, hid⟩

/-- A statement releases exactly the files of the rows whose ciphertext it changes. -/
theorem bodyOf_settle (disk : Disk) (after : Store) (id : String) :
    (disk.settle after).files.bodyOf id =
      if contentCiphertext disk.store id ≠ none ∧
          contentCiphertext after id ≠ contentCiphertext disk.store id
      then Body.none else disk.files.bodyOf id := by
  rw [Disk.settle, bodyOf_releases]
  simp only [mem_changed]

theorem bodies_releases (ids : List String) (files : FileTables) :
    Shrinks files.bodies (ids.foldl FileTables.release files).bodies ∧
      (ids.foldl FileTables.release files).bodies.owners =
        files.bodies.owners.filter fun owner => owner.1 ∉ ids := by
  induction ids generalizing files with
  | nil => exact ⟨Shrinks.refl _, by simp⟩
  | cons id rest ih =>
    rw [List.foldl_cons]
    obtain ⟨hshrinks, howners⟩ := ih (files.release id)
    refine ⟨(shrinks_dropOwner files.bodies id).trans hshrinks, ?_⟩
    rw [howners]
    unfold FileTables.release
    rw [owners_dropOwner, List.filter_filter]
    refine List.filter_congr fun owner _ => ?_
    by_cases hid : owner.1 = id <;> simp [hid]

/-- A statement takes its changed rows out of the bodies' owners. -/
theorem bodies_settle (disk : Disk) (after : Store) :
    Shrinks disk.files.bodies (disk.settle after).files.bodies ∧
      (disk.settle after).files.bodies.owners =
        disk.files.bodies.owners.filter fun owner => owner.1 ∉ changed disk.store after :=
  bodies_releases _ _

end CopyPaste.Files.Tables
