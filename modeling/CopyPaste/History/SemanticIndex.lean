import CopyPaste.Lib.Rows
import CopyPaste.Lib.Utf8
import Mathlib.Data.List.Sort
import Mathlib.Data.Prod.Lex
import Mathlib.Data.String.Basic
import Mathlib.Logic.Relation

/-!
The semantic index. A clip's text is handed out in overlapping fragments cut between
characters; their vectors come back later, and are stored in one transaction that checks
that the clip is still what was read. Documents and vectors are left behind when a clip
changes, and count only while their hash is the clip's own. Cutting at a place between
characters never fails and always gets on.
-/

namespace CopyPaste.History.SemanticIndex

open Lib Utf8

def fragmentBytes : ℕ := 4096

structure SemanticWork where
  itemId : String
  contentHash : String
  text : List UInt8
  offset : ℕ
  nextOffset : ℕ
  complete : Bool
  deriving DecidableEq

/-- A row of the history, with the text that its index entry has. -/
structure Item where
  id : String
  contentType : String
  contentHash : String
  createdAt : Int
  deleted : Bool
  indexed : Option (List Char)

/-- How far a clip is indexed. The works saved into a document are not stored. -/
structure Document where
  scope : String
  moduleId : String
  itemId : String
  contentHash : String
  nextOffset : ℕ
  complete : Bool
  saved : List SemanticWork

/-- One stored vector. The work that it came from is not stored. -/
structure VectorRow where
  scope : String
  itemId : String
  chunk : ℕ
  vector : List UInt8
  source : SemanticWork

structure Store where
  items : List Item
  documents : List Document
  vectors : List VectorRow

inductive StoreError
  | invalidHistoryQuery
  deriving DecidableEq

/-- `text` itself or anything `LIKE 'text/%'`. -/
def isTextType (contentType : String) : Bool :=
  contentType = "text" ||
    (contentType.toList.take 5).map Char.toLower = ['t', 'e', 'x', 't', '/']

def Document.key (document : Document) : String × String :=
  (document.scope, document.itemId)

def VectorRow.key (row : VectorRow) : String × String :=
  (row.scope, row.itemId)

def Store.document (store : Store) (scope itemId : String) : Option Document :=
  Rows.lookup Document.key store.documents (scope, itemId)

/-- Where indexing goes on: the offset of a document of this very content, or the start. -/
def Store.offset (store : Store) (scope itemId contentHash : String) : ℕ :=
  match store.document scope itemId with
  | some document => if document.contentHash = contentHash then document.nextOffset else 0
  | none => 0

def Item.indexable (item : Item) : Bool :=
  !item.deleted && isTextType item.contentType && item.indexed.isSome

/-- Whether a clip has anything left to index. -/
def Store.pending (store : Store) (scope : String) (item : Item) : Bool :=
  item.indexable &&
    match store.document scope item.id with
    | some document => document.contentHash ≠ item.contentHash || !document.complete
    | none => true

def newer (a b : Item) : Prop :=
  toLex (b.createdAt, b.id) ≤ toLex (a.createdAt, a.id)

instance : DecidableRel newer := fun a b =>
  inferInstanceAs (Decidable (toLex (b.createdAt, b.id) ≤ toLex (a.createdAt, a.id)))

/-- Bytes without the character that they cut off. -/
def truncated (bytes : List UInt8) : Except StoreError (List UInt8) :=
  match fromUtf8 bytes with
  | .valid => .ok bytes
  | .incomplete validUpTo => .ok (bytes.take validUpTo)
  | .invalid _ => .error .invalidHistoryQuery

/-- The piece of a text from an offset on, where the next one starts, and whether this
one is the last. -/
def fragment (text : List UInt8) (offset : ℕ) : Except StoreError (List UInt8 × ℕ × Bool) := do
  let piece ← truncated ((text.drop offset).take fragmentBytes)
  let complete : Bool := decide (text.length ≤ offset + piece.length)
  -- Overlap adjoining fragments so context across their boundary survives.
  let advance :=
    if !complete && decide (256 < piece.length) then floorBoundary piece (piece.length - 256)
    else piece.length
  if !complete && decide (advance = 0) then throw .invalidHistoryQuery
  return (piece, offset + advance, complete)

def semanticWork (scope : String) (store : Store) : Except StoreError (Option SemanticWork) :=
  match ((store.items.filter (store.pending scope)).insertionSort newer).head? with
  | none => .ok none
  | some item => do
    let offset := store.offset scope item.id item.contentHash
    let (text, nextOffset, complete) ← fragment (encode (item.indexed.getD [])) offset
    return some ⟨item.id, item.contentHash, text, offset, nextOffset, complete⟩

/-- A single-precision number by its bits. -/
def isFinite (value : UInt32) : Bool :=
  value.toNat / 2 ^ 23 % 2 ^ 8 ≠ 2 ^ 8 - 1

def validVectors (vectors : List (List UInt32)) : Bool :=
  !vectors.isEmpty && decide (vectors.length ≤ 128) &&
    vectors.all fun vector =>
      !vector.isEmpty && decide (vector.length ≤ 4096) && vector.all isFinite

def toLeBytes (value : UInt32) : List UInt8 :=
  [.ofNat value.toNat, .ofNat (value.toNat / 2 ^ 8), .ofNat (value.toNat / 2 ^ 16),
    .ofNat (value.toNat / 2 ^ 24)]

def Store.deleteDocuments (store : Store) (doomed : Document → Bool) : Store :=
  { store with
    documents := store.documents.filter (!doomed ·)
    vectors := store.vectors.filter fun row =>
      !store.documents.any fun document => doomed document && document.key = row.key }

def Store.rows (store : Store) (scope itemId : String) : List VectorRow :=
  store.vectors.filter fun row => row.key = (scope, itemId)

def Store.nextChunk (store : Store) (scope itemId : String) : ℕ :=
  ((store.rows scope itemId).map (·.chunk + 1)).foldl max 0

/-- The document of a saved work goes on where the work says. -/
def Document.advance (scope : String) (work : SemanticWork) (document : Document) : Document :=
  if document.key = (scope, work.itemId) then
    { document with
      nextOffset := work.nextOffset
      complete := work.complete
      saved := document.saved ++ [work] }
  else document

/-- Whether the clip is still what the work was read from. -/
def Store.live (store : Store) (work : SemanticWork) : Bool :=
  store.items.any fun item =>
    item.id = work.itemId && item.contentHash = work.contentHash && !item.deleted &&
      item.indexed.isSome

/-- A late worker may never index a deleted or changed clip. Unless the answer is `true`
the transaction is dropped. -/
def saveSemanticWork (moduleId scope : String) (work : SemanticWork)
    (vectors : List (List UInt32)) (store : Store) : Except StoreError (Bool × Store) :=
  if !validVectors vectors then .error .invalidHistoryQuery
  else if !store.live work then .ok (false, store)
  else
    let kept := store.deleteDocuments fun document =>
      document.key = (scope, work.itemId) && document.contentHash ≠ work.contentHash
    let documents :=
      if (kept.document scope work.itemId).isSome then kept.documents
      else kept.documents ++ [⟨scope, moduleId, work.itemId, work.contentHash, 0, false, []⟩]
    match Rows.lookup Document.key documents (scope, work.itemId) with
    | none => .ok (false, store)
    | some document =>
      if document.nextOffset ≠ work.offset then .ok (false, store)
      else
        let nextChunk := kept.nextChunk scope work.itemId
        .ok (true, {
          items := store.items
          documents := documents.map (Document.advance scope work)
          vectors := kept.vectors ++ vectors.mapIdx fun index vector =>
            ⟨scope, work.itemId, nextChunk + index, vector.flatMap toLeBytes, work⟩ })

def clearSemanticIndex (moduleId : String) (store : Store) : Store :=
  store.deleteDocuments fun document => document.moduleId = moduleId

def pruneSemanticIndex (moduleId scope : String) (store : Store) : Store :=
  store.deleteDocuments fun document =>
    document.moduleId = moduleId &&
      (document.scope ≠ scope || !store.items.any fun item =>
        item.id = document.itemId && !item.deleted && item.contentHash = document.contentHash)

/-- A row is written: a capture, a version of a peer, a tombstone, a restamp. A choice of
secrecy takes the documents of the clip with it. -/
def writeItem (item : Item) (forgets : Bool) (store : Store) : Store :=
  let store := if forgets then store.deleteDocuments fun document => document.itemId = item.id
    else store
  { store with items := Rows.put Item.id store.items item }

def removeItem (id : String) (store : Store) : Store :=
  let store := store.deleteDocuments fun document => document.itemId = id
  { store with items := store.items.filter (fun other => other.id ≠ id) }

/-- A work is whole characters of a text from its offset on, no longer than a fragment;
the next one starts at a character behind its own start and no later than its end, and
only the last one ends with the text. -/
structure Fragment (text : List Char) (work : SemanticWork) : Prop where
  slice : ∃ before piece after, text = before ++ piece ++ after ∧
    (encode before).length = work.offset ∧ encode piece = work.text
  short : work.text.length ≤ fragmentBytes
  boundary : isCharBoundary (encode text) work.nextOffset = true
  forward : work.offset ≤ work.nextOffset
  within : work.nextOffset ≤ work.offset + work.text.length
  onward : work.complete = false → work.offset < work.nextOffset
  last : work.complete = true → work.offset + work.text.length = (encode text).length

theorem floorBoundary_append {kept others before : List Char} {index : ℕ} :
    isCharBoundary (encode (before ++ (kept ++ others)))
      ((encode before).length + floorBoundary (encode kept) index) = true := by
  obtain ⟨first, second, hkept, hlength⟩ :=
    (isCharBoundary_iff kept _).1 (isCharBoundary_floor (encode kept) index)
  refine (isCharBoundary_iff _ _).2 ⟨before ++ first, second ++ others, ?_, ?_⟩
  · rw [hkept, List.append_assoc, List.append_assoc]
  · rw [encode_append, List.length_append, hlength]

theorem encode_eq_nil {text : List Char} (h : (encode text).length = 0) : text = [] := by
  cases text with
  | nil => rfl
  | cons c text =>
    rw [encode_cons, List.length_append] at h
    have hpos := (length_char c).1
    omega

/-- At a place between characters cutting never fails, and what it cuts is a fragment. -/
theorem fragment_at_boundary {text : List Char} {offset : ℕ}
    (h : isCharBoundary (encode text) offset = true) :
    ∃ piece next complete, fragment (encode text) offset = .ok (piece, next, complete) ∧
      ∀ itemId contentHash,
        Fragment text ⟨itemId, contentHash, piece, offset, next, complete⟩ := by
  obtain ⟨before, rest, rfl, rfl⟩ := (isCharBoundary_iff text offset).1 h
  obtain ⟨kept, others, rfl, hle, hnear, hverdict⟩ := fromUtf8_take rest fragmentBytes
  have hdrop : (encode (before ++ (kept ++ others))).drop (encode before).length =
      encode (kept ++ others) := by
    rw [encode_append, List.drop_left]
  have htotal : (encode (before ++ (kept ++ others))).length =
      (encode before).length + ((encode kept).length + (encode others).length) := by
    rw [encode_append, encode_append, List.length_append, List.length_append]
  have hpiece : truncated ((encode (kept ++ others)).take fragmentBytes) = .ok (encode kept) := by
    rw [truncated]
    rcases hverdict with ⟨hvalid, htake⟩ | ⟨hincomplete, htake⟩
    · rw [hvalid, htake]
    · rw [hincomplete]
      dsimp only
      rw [htake]
  have hslice : ∃ first piece after, before ++ (kept ++ others) = first ++ piece ++ after ∧
      (encode first).length = (encode before).length ∧ encode piece = encode kept :=
    ⟨before, kept, others, (List.append_assoc _ _ _).symm, rfl, rfl⟩
  by_cases hend : others = []
  · have hcomplete : decide ((encode (before ++ (kept ++ others))).length ≤
        (encode before).length + (encode kept).length) = true := by
      subst hend
      rw [decide_eq_true_eq, htotal]
      exact Nat.le_refl _
    refine ⟨encode kept, (encode before).length + (encode kept).length, true, ?_, ?_⟩
    · rw [fragment, hdrop, hpiece]
      simp only [Except.bind, bind, hcomplete]
      rfl
    · intro itemId contentHash
      refine ⟨hslice, hle, ?_, Nat.le_add_right _ _, Nat.le_refl _, (nomatch ·), fun _ => ?_⟩
      · refine (isCharBoundary_iff _ _).2 ⟨before ++ kept, others, ?_, ?_⟩
        · rw [List.append_assoc]
        · rw [encode_append, List.length_append]
      · subst hend
        rw [htotal]
        rfl
  · have hmore : 0 < (encode others).length := by
      by_contra hzero
      exact hend (encode_eq_nil (by omega))
    have hlong : fragmentBytes < (encode kept).length + 4 := hnear.resolve_left hend
    rw [fragmentBytes] at hlong
    have hcomplete : decide ((encode (before ++ (kept ++ others))).length ≤
        (encode before).length + (encode kept).length) = false := by
      rw [decide_eq_false_iff_not, htotal]
      omega
    have hwide : decide (256 < (encode kept).length) = true := by
      rw [decide_eq_true_eq]
      omega
    have hfloor := @lt_floorBoundary kept ((encode kept).length - 256) (by omega)
    have hback := floorBoundary_le (encode kept) ((encode kept).length - 256)
    have hmoves : decide (floorBoundary (encode kept) ((encode kept).length - 256) = 0) = false := by
      rw [decide_eq_false_iff_not]
      omega
    refine ⟨encode kept,
      (encode before).length + floorBoundary (encode kept) ((encode kept).length - 256), false, ?_, ?_⟩
    · rw [fragment, hdrop, hpiece]
      simp only [Except.bind, bind, hcomplete, Bool.not_false, hwide, Bool.and_self, if_true, hmoves,
        Bool.and_false]
      rfl
    · intro itemId contentHash
      refine ⟨hslice, hle, floorBoundary_append, Nat.le_add_right _ _, ?_, fun _ => ?_, (nomatch ·)⟩
      · dsimp only
        omega
      · dsimp only
        omega

end CopyPaste.History.SemanticIndex
