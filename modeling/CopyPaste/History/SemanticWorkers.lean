import CopyPaste.History.SemanticIndex
import Mathlib

/-!
Workers over the semantic index. Works are handed out, held as long as a worker likes, and
saved in any order among captures, edits, deletions, choices of secrecy, prunes and clears.
A worker left alone indexes every clip to its end; one that is late saves nothing, and what
is stored for a clip was always cut from the content that its document names.
-/

namespace CopyPaste.History.SemanticWorkers

open Lib Utf8 SemanticIndex

/-- One row for each clip, one document for each clip and scope, and no vector without
its document. -/
structure Tidy (store : Store) : Prop where
  items : (store.items.map Item.id).Nodup
  documents : (store.documents.map Document.key).Nodup
  owned : ∀ row ∈ store.vectors, (store.document row.scope row.itemId).isSome

variable {store : Store} {scope itemId : String} {row : VectorRow} {work : SemanticWork}
  {vectors : List (List UInt32)} {text : List Char} {rows : List VectorRow}
  {hash : List Char → String} {item : Item}

theorem mem_rows :
    row ∈ store.rows scope itemId ↔ row ∈ store.vectors ∧ row.key = (scope, itemId) := by
  rw [Store.rows, List.mem_filter, decide_eq_true_eq]

theorem key_eq (h : row.key = (scope, itemId)) : row.scope = scope ∧ row.itemId = itemId :=
  Prod.mk.inj h

theorem rows_of_none (htidy : Tidy store) (h : store.document scope itemId = none) :
    store.rows scope itemId = [] := by
  rw [List.eq_nil_iff_forall_not_mem]
  intro row hrow
  obtain ⟨hmem, hkey⟩ := mem_rows.1 hrow
  obtain ⟨rfl, rfl⟩ := key_eq hkey
  have howned := htidy.owned row hmem
  rw [h] at howned
  cases howned

section Delete

variable {store : Store} (htidy : Tidy store) (doomed : Document → Bool)
include htidy

theorem document_delete (scope itemId : String) :
    (store.deleteDocuments doomed).document scope itemId =
      (store.document scope itemId).filter (!doomed ·) :=
  Rows.lookup_filter_row htidy.documents _ _

theorem rows_delete (scope itemId : String) :
    (store.deleteDocuments doomed).rows scope itemId =
      if (store.document scope itemId).any doomed then [] else store.rows scope itemId := by
  have hany : (store.documents.any fun document => doomed document && document.key = (scope, itemId)) =
      (store.document scope itemId).any doomed := by
    rw [Bool.eq_iff_iff, List.any_eq_true, Option.any_eq_true]
    constructor
    · rintro ⟨document, hmem, hdoomed⟩
      obtain ⟨hdoomed, hkey⟩ := (Bool.and_eq_true _ _).mp hdoomed
      refine ⟨document, ?_, hdoomed⟩
      rw [Store.document, ← of_decide_eq_true hkey]
      exact Rows.lookup_of_mem htidy.documents hmem
    · rintro ⟨document, hfound, hdoomed⟩
      obtain ⟨hmem, hkey⟩ := Rows.lookup_eq_some hfound
      exact ⟨document, hmem, by rw [hdoomed, hkey, Bool.true_and, decide_eq_true_eq]⟩
  have hrows : (store.deleteDocuments doomed).rows scope itemId =
      (store.rows scope itemId).filter fun _ => !(store.document scope itemId).any doomed := by
    rw [Store.rows, Store.rows, Store.deleteDocuments, List.filter_filter, List.filter_filter]
    refine List.filter_congr fun row _ => ?_
    by_cases hkey : row.key = (scope, itemId)
    · simp only [hkey, hany, decide_true, Bool.true_and, Bool.and_true]
    · simp only [hkey, decide_false, Bool.false_and, Bool.and_false]
  rw [hrows]
  split
  · next hdoomed => simp only [hdoomed, Bool.not_true, List.filter_false]
  · next hkept =>
    rw [Bool.not_eq_true] at hkept
    simp only [hkept, Bool.not_false, List.filter_true]

theorem tidy_delete : Tidy (store.deleteDocuments doomed) := by
  refine ⟨htidy.items, htidy.documents.sublist (List.filter_sublist.map _), fun row hrow => ?_⟩
  have hmem : row ∈ (store.deleteDocuments doomed).rows row.scope row.itemId := mem_rows.2 ⟨hrow, rfl⟩
  rw [rows_delete htidy] at hmem
  rw [document_delete htidy]
  split at hmem
  · cases hmem
  · next hkept =>
    have howned := htidy.owned row (mem_rows.1 hmem).1
    obtain ⟨document, hfound⟩ := Option.isSome_iff_exists.1 howned
    rw [hfound, Option.any_some, Bool.not_eq_true] at hkept
    rw [hfound, Option.filter_some, hkept]
    rfl

end Delete

/-- The document that a save goes on with: the one of the same content, or a fresh one. -/
def current (moduleId scope : String) (work : SemanticWork) (store : Store) : Document :=
  ((store.document scope work.itemId).filter (·.contentHash = work.contentHash)).getD
    ⟨scope, moduleId, work.itemId, work.contentHash, 0, false, []⟩

def currentRows (scope : String) (work : SemanticWork) (store : Store) : List VectorRow :=
  if (store.document scope work.itemId).any (·.contentHash = work.contentHash) then
    store.rows scope work.itemId
  else []

/-- The rows of a save are numbered from a chunk on. -/
def added (scope : String) (work : SemanticWork) (vectors : List (List UInt32)) (nextChunk : ℕ) :
    List VectorRow :=
  vectors.mapIdx fun index vector =>
    ⟨scope, work.itemId, nextChunk + index, vector.flatMap toLeBytes, work⟩

def nextOf (rows : List VectorRow) : ℕ :=
  (rows.map (·.chunk + 1)).foldl max 0

theorem current_key (moduleId scope : String) (work : SemanticWork) (store : Store) :
    (current moduleId scope work store).key = (scope, work.itemId) ∧
      (current moduleId scope work store).contentHash = work.contentHash := by
  unfold current
  cases hfound : (store.document scope work.itemId).filter (·.contentHash = work.contentHash) with
  | none => exact ⟨rfl, rfl⟩
  | some document =>
    obtain ⟨hfound, hhash⟩ := Option.filter_eq_some_iff.1 hfound
    exact ⟨(Rows.lookup_eq_some hfound).2, of_decide_eq_true hhash⟩

theorem advance_key (scope : String) (work : SemanticWork) (document : Document) :
    (document.advance scope work).key = document.key := by
  unfold Document.advance
  split <;> rfl

theorem key_added {nextChunk : ℕ} (h : row ∈ added scope work vectors nextChunk) :
    row.key = (scope, work.itemId) ∧ row.source = work := by
  obtain ⟨index, hindex, rfl⟩ := List.mem_mapIdx.1 h
  exact ⟨rfl, rfl⟩

/-- The documents of a save, before the one of the work is taken further. -/
def opened (moduleId scope : String) (work : SemanticWork) (store : Store) : List Document :=
  let kept := store.deleteDocuments fun document =>
    document.key = (scope, work.itemId) && document.contentHash ≠ work.contentHash
  if (kept.document scope work.itemId).isSome then kept.documents
  else kept.documents ++ [⟨scope, moduleId, work.itemId, work.contentHash, 0, false, []⟩]

section Save

variable {store : Store} (htidy : Tidy store) (moduleId scope : String) (work : SemanticWork)
include htidy

theorem document_kept (scope' itemId : String) :
    (store.deleteDocuments fun document =>
      document.key = (scope, work.itemId) && document.contentHash ≠ work.contentHash).document
        scope' itemId =
      if (scope', itemId) = (scope, work.itemId) then
        (store.document scope' itemId).filter (·.contentHash = work.contentHash)
      else store.document scope' itemId := by
  rw [document_delete htidy]
  cases hfound : store.document scope' itemId with
  | none =>
    split <;> rfl
  | some document =>
    have hkey := (Rows.lookup_eq_some hfound).2
    rw [Option.filter_some, Option.filter_some, hkey]
    by_cases hsame : (scope', itemId) = (scope, work.itemId)
    · by_cases hhash : document.contentHash = work.contentHash
      · simp only [hsame, hhash, decide_true, decide_false, ne_eq, not_true, Bool.and_false,
          Bool.not_false, if_true]
      · simp only [hsame, hhash, decide_true, decide_false, ne_eq, not_false_eq_true, Bool.and_true,
          Bool.not_true, if_true]
    · simp only [hsame, decide_false, Bool.false_and, Bool.not_false, if_true, if_false]

theorem rows_kept (scope' itemId : String) :
    (store.deleteDocuments fun document =>
      document.key = (scope, work.itemId) && document.contentHash ≠ work.contentHash).rows
        scope' itemId =
      if (scope', itemId) = (scope, work.itemId) then currentRows scope work store
      else store.rows scope' itemId := by
  rw [rows_delete htidy]
  cases hfound : store.document scope' itemId with
  | none =>
    rw [Option.any_none, if_neg Bool.false_ne_true, rows_of_none htidy hfound]
    split
    · next hsame =>
      obtain ⟨rfl, rfl⟩ := Prod.mk.inj hsame
      rw [currentRows, hfound]
      rfl
    · rfl
  | some document =>
    have hkey := (Rows.lookup_eq_some hfound).2
    rw [Option.any_some, hkey]
    by_cases hsame : (scope', itemId) = (scope, work.itemId)
    · obtain ⟨rfl, rfl⟩ := Prod.mk.inj hsame
      rw [if_pos rfl, currentRows, hfound, Option.any_some]
      by_cases hhash : document.contentHash = work.contentHash
      · simp only [hhash, decide_true, decide_false, ne_eq, not_true, Bool.and_false,
          Bool.false_eq_true, if_false, if_true]
      · simp only [hhash, decide_true, decide_false, ne_eq, not_false_eq_true, Bool.and_true,
          Bool.false_eq_true, if_false, if_true]
    · simp only [hsame, decide_false, Bool.false_and, Bool.false_eq_true, if_false]

theorem nodup_opened : ((opened moduleId scope work store).map Document.key).Nodup := by
  have hkept := (tidy_delete htidy fun document =>
    document.key = (scope, work.itemId) && document.contentHash ≠ work.contentHash).documents
  unfold opened
  dsimp only
  split
  · exact hkept
  · next hnone =>
    rw [Option.not_isSome_iff_eq_none] at hnone
    rw [List.map_append, List.nodup_append]
    refine ⟨hkept, List.nodup_singleton _, ?_⟩
    intro key hkey other hother heq
    obtain ⟨document, hmem, rfl⟩ := List.mem_map.1 hkey
    rw [List.map_singleton, List.mem_singleton] at hother
    exact Rows.lookup_eq_none_iff.1 hnone document hmem (heq.trans hother)

theorem lookup_opened (scope' itemId : String) :
    Rows.lookup Document.key (opened moduleId scope work store) (scope', itemId) =
      if (scope', itemId) = (scope, work.itemId) then some (current moduleId scope work store)
      else store.document scope' itemId := by
  have hkept := document_kept htidy scope work scope' itemId
  have hown := document_kept htidy scope work scope work.itemId
  rw [if_pos rfl] at hown
  unfold opened current
  dsimp only
  rw [hown]
  split
  · next hsome =>
    rw [Option.isSome_iff_exists] at hsome
    obtain ⟨document, hsome⟩ := hsome
    refine hkept.trans ?_
    split
    · next hsame =>
      obtain ⟨rfl, rfl⟩ := Prod.mk.inj hsame
      rw [hsome]
      rfl
    · rfl
  · next hnone =>
    rw [Option.not_isSome_iff_eq_none] at hnone
    rw [Rows.lookup_append]
    refine (congrArg (Option.or · _) hkept).trans ?_
    split
    · next hsame =>
      obtain ⟨rfl, rfl⟩ := Prod.mk.inj hsame
      rw [hnone, Option.none_or]
      simp only [Rows.lookup, Document.key, List.find?_singleton, decide_true, if_true]
      rfl
    · next hother =>
      have hmiss : Rows.lookup Document.key
          [(⟨scope, moduleId, work.itemId, work.contentHash, 0, false, []⟩ : Document)]
          (scope', itemId) = none := by
        rw [Rows.lookup_eq_none_iff]
        intro row hrow heq
        rw [List.mem_singleton.1 hrow] at heq
        exact hother heq.symm
      rw [hmiss, Option.or_none]

/-- What a save that goes through leaves. -/
def published (vectors : List (List UInt32)) (store : Store) : Store where
  items := store.items
  documents := (opened moduleId scope work store).map (Document.advance scope work)
  vectors := (store.deleteDocuments fun document => document.key = (scope, work.itemId) &&
    document.contentHash ≠ work.contentHash).vectors ++
      added scope work vectors (nextOf (currentRows scope work store))

/-- A save goes through for a live clip whose document of that very content stands where
the work starts. -/
theorem save_eq (vectors : List (List UInt32)) :
    saveSemanticWork moduleId scope work vectors store =
      if !validVectors vectors then .error .invalidHistoryQuery
      else if store.live work = true ∧ (current moduleId scope work store).nextOffset = work.offset then
        .ok (true, published moduleId scope work vectors store)
      else .ok (false, store) := by
  have hlookup := lookup_opened htidy moduleId scope work scope work.itemId
  rw [if_pos rfl] at hlookup
  have hrows := rows_kept htidy scope work scope work.itemId
  rw [if_pos rfl] at hrows
  unfold opened at hlookup
  unfold saveSemanticWork
  dsimp only at hlookup ⊢
  rw [hlookup, Store.nextChunk, hrows]
  split
  · rfl
  · cases hlive : store.live work with
    | false => simp only [Bool.not_false, if_true, Bool.false_eq_true, false_and, if_false]
    | true =>
      by_cases hoffset : (current moduleId scope work store).nextOffset = work.offset
      · simp only [hoffset, Bool.not_true, Bool.false_eq_true, ne_eq, not_true, and_self, if_true,
          if_false]
        rfl
      · simp only [hoffset, Bool.not_true, Bool.false_eq_true, ne_eq, not_false_eq_true, and_false,
          if_true, if_false]

theorem document_published (vectors : List (List UInt32)) (scope' itemId : String) :
    (published moduleId scope work vectors store).document scope' itemId =
      if (scope', itemId) = (scope, work.itemId) then
        some ((current moduleId scope work store).advance scope work)
      else store.document scope' itemId := by
  have hmap := Rows.lookup_map (Document.advance scope work) (advance_key scope work)
    (opened moduleId scope work store) (scope', itemId)
  rw [lookup_opened htidy] at hmap
  refine hmap.trans ?_
  split
  · rfl
  · next hother =>
    cases hfound : store.document scope' itemId with
    | none => rfl
    | some document =>
      have hkey := (Rows.lookup_eq_some hfound).2
      rw [Option.map_some, Document.advance, if_neg (fun heq => hother (hkey.symm.trans heq))]

theorem rows_published (vectors : List (List UInt32)) (scope' itemId : String) :
    (published moduleId scope work vectors store).rows scope' itemId =
      if (scope', itemId) = (scope, work.itemId) then
        currentRows scope work store ++
          added scope work vectors (nextOf (currentRows scope work store))
      else store.rows scope' itemId := by
  have hkept := rows_kept htidy scope work scope' itemId
  rw [Store.rows, published, List.filter_append]
  refine (congrArg (· ++ _) hkept).trans ?_
  split
  · next hsame =>
    rw [hsame]
    congr 1
    rw [List.filter_eq_self]
    intro row hrow
    exact decide_eq_true (key_added hrow).1
  · next hother =>
    have hnil : (added scope work vectors (nextOf (currentRows scope work store))).filter
        (fun row => row.key = (scope', itemId)) = [] := by
      rw [List.filter_eq_nil_iff]
      intro row hrow hkey
      exact hother ((of_decide_eq_true hkey).symm.trans (key_added hrow).1)
    rw [hnil, List.append_nil]

theorem tidy_published (vectors : List (List UInt32)) :
    Tidy (published moduleId scope work vectors store) := by
  refine ⟨htidy.items, ?_, ?_⟩
  · exact Rows.nodup_map _ (advance_key scope work) _ (nodup_opened htidy moduleId scope work)
  · intro row hrow
    have hmem : row ∈ (published moduleId scope work vectors store).rows row.scope row.itemId :=
      mem_rows.2 ⟨hrow, rfl⟩
    rw [rows_published htidy] at hmem
    rw [document_published htidy]
    split
    · rfl
    · next hother =>
      rw [if_neg hother] at hmem
      exact htidy.owned row (mem_rows.1 hmem).1

end Save

/-- Works that follow one another from the start of a text, up to an offset. -/
inductive Chained : List SemanticWork → ℕ → Prop
  | nil : Chained [] 0
  | snoc {works : List SemanticWork} {work : SemanticWork} (chained : Chained works work.offset) :
    Chained (works ++ [work]) work.nextOffset

/-- The fragments of a text that leave nothing of it out. -/
structure Coverage (text : List Char) (works : List SemanticWork) : Prop where
  fragments : ∀ work ∈ works, Fragment text work
  first : works.head?.map SemanticWork.offset = some 0
  adjoining : works.IsChain fun work following =>
    work.offset ≤ following.offset ∧ following.offset ≤ work.offset + work.text.length
  last : ∃ work, works.getLast? = some work ∧
    work.offset + work.text.length = (encode text).length

theorem first_of_chained {works : List SemanticWork} {stop : ℕ} (h : Chained works stop) :
    works = [] ∧ stop = 0 ∨ works.head?.map SemanticWork.offset = some 0 := by
  induction h with
  | nil => exact Or.inl ⟨rfl, rfl⟩
  | @snoc works work chained ih =>
    right
    rcases ih with ⟨rfl, hzero⟩ | ih
    · rw [List.nil_append, List.head?_cons, Option.map_some, hzero]
    · cases works with
      | nil => cases ih
      | cons first works => exact ih

theorem adjoining_of_chained {works : List SemanticWork} {stop : ℕ} (h : Chained works stop)
    (hfragments : ∀ work ∈ works, Fragment text work) :
    (works.IsChain fun work following =>
      work.offset ≤ following.offset ∧ following.offset ≤ work.offset + work.text.length) ∧
      ∀ work ∈ works.getLast?, work.nextOffset = stop := by
  induction h with
  | nil =>
    constructor
    · exact List.IsChain.nil
    · intro work hwork
      cases hwork
  | @snoc works work chained ih =>
    obtain ⟨hchain, hlast⟩ := ih fun earlier hearlier =>
      hfragments earlier (List.mem_append_left _ hearlier)
    constructor
    · rw [List.isChain_append]
      refine ⟨hchain, List.IsChain.singleton _, ?_⟩
      intro earlier hearlier following hfollowing
      rw [List.head?_cons, Option.mem_some] at hfollowing
      subst hfollowing
      have hfragment := hfragments earlier
        (List.mem_append_left _ (List.mem_of_getLast? hearlier))
      rw [← hlast earlier hearlier]
      exact ⟨hfragment.forward, hfragment.within⟩
    · intro last hlast
      rw [List.getLast?_concat, Option.mem_some] at hlast
      rw [hlast]

/-- What a document says about its rows: a text of its hash is saved up to an offset, in
fragments that follow one another, and the rows are numbered without gaps. -/
structure Indexed (hash : List Char → String) (text : List Char) (document : Document)
    (rows : List VectorRow) : Prop where
  hash : document.contentHash = hash text
  fragments : ∀ work ∈ document.saved, Fragment text work ∧
    work.itemId = document.itemId ∧ work.contentHash = document.contentHash
  chained : Chained document.saved document.nextOffset
  boundary : isCharBoundary (encode text) document.nextOffset = true
  finished : document.complete = true → ∃ work ∈ document.saved.getLast?, work.complete = true
  sources : ∀ row ∈ rows, row.source ∈ document.saved
  numbered : rows.map VectorRow.chunk = List.range rows.length

theorem foldl_range (n : ℕ) : ((List.range n).map (· + 1)).foldl max 0 = n := by
  induction n with
  | zero => rfl
  | succ n ih =>
    rw [List.range_succ, List.map_append, List.foldl_append, ih, List.map_singleton,
      List.foldl_cons, List.foldl_nil]
    omega

theorem nextOf_numbered (h : rows.map VectorRow.chunk = List.range rows.length) :
    nextOf rows = rows.length := by
  have hmap : rows.map (·.chunk + 1) = (rows.map VectorRow.chunk).map (· + 1) := by
    rw [List.map_map]
    rfl
  rw [nextOf, hmap, h, foldl_range]

theorem numbered_added (h : rows.map VectorRow.chunk = List.range rows.length) (scope : String)
    (work : SemanticWork) (vectors : List (List UInt32)) :
    (rows ++ added scope work vectors (nextOf rows)).map VectorRow.chunk =
      List.range (rows ++ added scope work vectors (nextOf rows)).length := by
  rw [nextOf_numbered h, List.map_append, h, List.length_append, added, List.length_mapIdx,
    List.range_add]
  congr 1
  refine List.ext_getElem ?_ ?_
  · rw [List.length_map, List.length_mapIdx, List.length_map, List.length_range]
  · intro index _ _
    rw [List.getElem_map, List.getElem_mapIdx, List.getElem_map, List.getElem_range]

theorem indexed_fresh (hhash : work.contentHash = hash text) (scope moduleId : String) :
    Indexed hash text ⟨scope, moduleId, work.itemId, work.contentHash, 0, false, []⟩ [] := by
  refine ⟨hhash, ?_, Chained.nil, rfl, (nomatch ·), ?_, rfl⟩
  · intro work hwork
    cases hwork
  · intro row hrow
    cases hrow

/-- A save takes a document one fragment further. -/
theorem indexed_advance {document : Document} (h : Indexed hash text document rows)
    (hkey : document.key = (scope, work.itemId)) (hhash : document.contentHash = work.contentHash)
    (hfragment : Fragment text work) (hoffset : document.nextOffset = work.offset)
    (vectors : List (List UInt32)) :
    Indexed hash text (document.advance scope work)
      (rows ++ added scope work vectors (nextOf rows)) := by
  rw [Document.advance, if_pos hkey]
  refine ⟨h.hash, ?_, ?_, hfragment.boundary, ?_, ?_, numbered_added h.numbered scope work vectors⟩
  · intro other hother
    rcases List.mem_append.1 hother with hother | hother
    · exact h.fragments other hother
    · rw [List.mem_singleton.1 hother]
      exact ⟨hfragment, (Prod.mk.inj hkey).2.symm, hhash.symm⟩
  · refine Chained.snoc ?_
    rw [← hoffset]
    exact h.chained
  · intro hcomplete
    refine ⟨work, ?_, hcomplete⟩
    rw [List.getLast?_concat]
    rfl
  · intro row hrow
    rcases List.mem_append.1 hrow with hrow | hrow
    · exact List.mem_append_left _ (h.sources row hrow)
    · rw [(key_added hrow).2]
      exact List.mem_append_right _ (List.mem_singleton.2 rfl)

theorem Indexed.covers {document : Document} (h : Indexed hash text document rows)
    (hcomplete : document.complete = true) : Coverage text document.saved := by
  obtain ⟨work, hlast, hend⟩ := h.finished hcomplete
  have hmem := List.mem_of_getLast? hlast
  have hfragments : ∀ work ∈ document.saved, Fragment text work := fun work hwork =>
    (h.fragments work hwork).1
  refine ⟨hfragments, ?_, (adjoining_of_chained h.chained hfragments).1, work, hlast, ?_⟩
  · rcases first_of_chained h.chained with ⟨hnil, -⟩ | hfirst
    · rw [hnil] at hmem
      cases hmem
    · exact hfirst
  · exact (hfragments work hmem).last hend

/-- What holds of the tables between any two transactions. -/
structure Sound (hash : List Char → String) (store : Store) : Prop where
  tidy : Tidy store
  hashes : ∀ item ∈ store.items, ∀ text, item.indexed = some text → item.contentHash = hash text
  indexed : ∀ scope itemId document, store.document scope itemId = some document →
    ∃ text, Indexed hash text document (store.rows scope itemId)

theorem sound_delete (h : Sound hash store) (doomed : Document → Bool) :
    Sound hash (store.deleteDocuments doomed) := by
  refine ⟨tidy_delete h.tidy doomed, h.hashes, fun scope itemId document hfound => ?_⟩
  rw [document_delete h.tidy] at hfound
  obtain ⟨hfound, hkept⟩ := Option.filter_eq_some_iff.1 hfound
  rw [rows_delete h.tidy, hfound, Option.any_some, if_neg (by rwa [Bool.not_eq_true', ← Bool.not_eq_true] at hkept)]
  exact h.indexed scope itemId document hfound

theorem sound_items (h : Sound hash store) {items : List Item} (hnodup : (items.map Item.id).Nodup)
    (hashes : ∀ item ∈ items, ∀ text, item.indexed = some text → item.contentHash = hash text) :
    Sound hash { store with items := items } :=
  ⟨⟨hnodup, h.tidy.documents, h.tidy.owned⟩, hashes, h.indexed⟩

theorem sound_write (h : Sound hash store)
    (hhash : ∀ text, item.indexed = some text → item.contentHash = hash text) (forgets : Bool) :
    Sound hash (writeItem item forgets store) := by
  have hput : ∀ {store : Store}, Sound hash store →
      Sound hash { store with items := Rows.put Item.id store.items item } := by
    intro store h
    refine sound_items h (Rows.nodup_put _ _ h.tidy.items) fun other hother => ?_
    rcases (Rows.mem_put _ _ _).1 hother with ⟨hother, -⟩ | rfl
    · exact h.hashes other hother
    · exact hhash
  unfold writeItem
  cases forgets with
  | false => exact hput h
  | true => exact hput (sound_delete h _)

theorem sound_remove (h : Sound hash store) (id : String) : Sound hash (removeItem id store) := by
  have hdeleted := sound_delete h fun document => document.itemId = id
  unfold removeItem
  refine sound_items hdeleted ?_ fun item hitem => ?_
  · exact hdeleted.tidy.items.sublist (List.filter_sublist.map _)
  · exact hdeleted.hashes item (List.mem_of_mem_filter hitem)

section Save

variable {hash : List Char → String} (hinj : Function.Injective hash) {store : Store}
  (h : Sound hash store) (moduleId scope : String) {work : SemanticWork} {text : List Char}
  (hhash : work.contentHash = hash text)
include hinj h hhash

theorem indexed_current :
    Indexed hash text (current moduleId scope work store) (currentRows scope work store) := by
  unfold current currentRows
  cases hfound : store.document scope work.itemId with
  | none =>
    exact indexed_fresh hhash scope moduleId
  | some document =>
    rw [Option.filter_some, Option.any_some]
    by_cases hsame : document.contentHash = work.contentHash
    · obtain ⟨other, hindexed⟩ := h.indexed scope work.itemId document hfound
      have hother : other = text := hinj (hindexed.hash.symm.trans (hsame.trans hhash))
      rw [if_pos (decide_eq_true hsame), if_pos (decide_eq_true hsame), ← hother]
      exact hindexed
    · rw [if_neg (by simpa using hsame), if_neg (by simpa using hsame)]
      exact indexed_fresh hhash scope moduleId

theorem sound_published (hfragment : Fragment text work) (vectors : List (List UInt32))
    (hoffset : (current moduleId scope work store).nextOffset = work.offset) :
    Sound hash (published moduleId scope work vectors store) := by
  refine ⟨tidy_published h.tidy moduleId scope work vectors, h.hashes, ?_⟩
  intro scope' itemId document hfound
  rw [document_published h.tidy] at hfound
  rw [rows_published h.tidy]
  split at hfound
  · next hsame =>
    rw [if_pos hsame]
    cases hfound
    obtain ⟨hkey, hcontent⟩ := current_key moduleId scope work store
    exact ⟨text, indexed_advance (indexed_current hinj h moduleId scope hhash) hkey hcontent
      hfragment hoffset vectors⟩
  · next hother =>
    rw [if_neg hother]
    exact h.indexed scope' itemId document hfound

end Save

/-- The works already saved for the content that a clip has now. -/
def earlier (scope : String) (item : Item) (store : Store) : List SemanticWork :=
  match store.document scope item.id with
  | some document => if document.contentHash = item.contentHash then document.saved else []
  | none => []

theorem pending_eq_false (hindexable : item.indexable = true) :
    store.pending scope item = false ↔ ∃ document, store.document scope item.id = some document ∧
      document.contentHash = item.contentHash ∧ document.complete = true := by
  rw [Store.pending, hindexable, Bool.true_and]
  cases store.document scope item.id with
  | none | some => simp

theorem pending_indexed (h : store.pending scope item = true) : item.indexable = true ∧
      ∃ text, item.indexed = some text := by
  obtain ⟨hindexable, -⟩ := (Bool.and_eq_true _ _).mp h
  refine ⟨hindexable, ?_⟩
  obtain ⟨-, hsome⟩ := (Bool.and_eq_true _ _).mp hindexable
  exact Option.isSome_iff_exists.1 hsome

/-- Where a clip goes on is a place between its characters. -/
theorem boundary_offset (hinj : Function.Injective hash) (h : Sound hash store)
    {contentHash : String} (hhash : contentHash = hash text) (scope itemId : String) :
    isCharBoundary (encode text) (store.offset scope itemId contentHash) = true := by
  unfold Store.offset
  cases hfound : store.document scope itemId with
  | none => rfl
  | some document =>
    dsimp only
    split
    · next hsame =>
      obtain ⟨other, hindexed⟩ := h.indexed scope itemId document hfound
      rw [hinj ((hhash.symm.trans hsame.symm).trans hindexed.hash)]
      exact hindexed.boundary
    · rfl

/-- Either nothing is left to index, or a fragment of a clip that is left is handed out. -/
theorem semanticWork_cases (hinj : Function.Injective hash) (h : Sound hash store)
    (scope : String) :
    semanticWork scope store = .ok none ∧ (∀ item ∈ store.items, store.pending scope item = false) ∨
      ∃ item ∈ store.items, store.pending scope item = true ∧ ∃ text, item.indexed = some text ∧
        ∃ work, semanticWork scope store = .ok (some work) ∧ Fragment text work ∧
          work.itemId = item.id ∧ work.contentHash = item.contentHash ∧
          work.offset = store.offset scope item.id item.contentHash := by
  unfold semanticWork
  cases hhead : ((store.items.filter (store.pending scope)).insertionSort newer).head? with
  | none =>
    left
    refine ⟨rfl, fun item hitem => ?_⟩
    rw [List.head?_eq_none_iff] at hhead
    have hnil := (List.perm_insertionSort newer (store.items.filter (store.pending scope))).symm
    rw [hhead, List.perm_nil] at hnil
    exact Bool.eq_false_iff.2 (List.filter_eq_nil_iff.1 hnil item hitem)
  | some item =>
    right
    have hmem := (List.perm_insertionSort newer _).mem_iff.1 (List.mem_of_head? hhead)
    obtain ⟨hitem, hpending⟩ := List.mem_filter.1 hmem
    obtain ⟨-, text, htext⟩ := pending_indexed hpending
    have hboundary := boundary_offset hinj h (h.hashes item hitem text htext) scope item.id
    obtain ⟨piece, next, complete, hcut, hfragment⟩ := fragment_at_boundary hboundary
    refine ⟨item, hitem, hpending, text, htext, _, ?_, hfragment item.id item.contentHash, rfl, rfl, rfl⟩
    dsimp only
    rw [htext, Option.getD_some, hcut]
    rfl

/-- How much of a clip is left to index, and one step more while it is not complete. -/
def remaining (scope : String) (store : Store) (item : Item) : ℕ :=
  if store.pending scope item then
    (encode (item.indexed.getD [])).length - store.offset scope item.id item.contentHash + 1
  else 0

def left (scope : String) (store : Store) : ℕ :=
  (store.items.map (remaining scope store)).sum

theorem live_of_item (hitem : item ∈ store.items) (hindexable : item.indexable = true)
    (hid : work.itemId = item.id) (hhash : work.contentHash = item.contentHash) :
    store.live work = true := by
  simp only [Item.indexable, Bool.and_eq_true, Bool.not_eq_true'] at hindexable
  refine List.any_eq_true.2 ⟨item, hitem, ?_⟩
  rw [hid, hhash, hindexable.1.1, hindexable.2, decide_eq_true rfl, decide_eq_true rfl]
  rfl

theorem offset_eq (moduleId scope : String) (work : SemanticWork) (store : Store) :
    store.offset scope work.itemId work.contentHash =
      (current moduleId scope work store).nextOffset := by
  unfold Store.offset current
  cases store.document scope work.itemId with
  | none => rfl
  | some document =>
    rw [Option.filter_some]
    by_cases hsame : document.contentHash = work.contentHash
    · rw [if_pos (decide_eq_true hsame)]
      exact if_pos hsame
    · rw [if_neg (by simpa using hsame)]
      exact if_neg hsame

theorem saved_current (moduleId scope : String) (store : Store) (hid : work.itemId = item.id)
    (hhash : work.contentHash = item.contentHash) :
    (current moduleId scope work store).saved = earlier scope item store := by
  unfold current earlier
  rw [hid]
  cases store.document scope item.id with
  | none => rfl
  | some document =>
    rw [Option.filter_some, hhash]
    by_cases hsame : document.contentHash = item.contentHash
    · rw [if_pos (decide_eq_true hsame)]
      exact (if_pos hsame).symm
    · rw [if_neg (by simpa using hsame)]
      exact (if_neg hsame).symm

theorem le_of_boundary {index : ℕ} (h : isCharBoundary (encode text) index = true) :
    index ≤ (encode text).length := by
  obtain ⟨kept, others, rfl, rfl⟩ := (isCharBoundary_iff text index).1 h
  rw [encode_append, List.length_append]
  omega

section Turn

variable {hash : List Char → String} {store : Store} (h : Sound hash store)
  (moduleId scope : String) {item : Item} (hitem : item ∈ store.items) {work : SemanticWork}
  (hid : work.itemId = item.id) (hhash : work.contentHash = item.contentHash)
  (vectors : List (List UInt32))
include h hitem hid hhash

omit hitem in
theorem document_turn : ∃ document,
    (published moduleId scope work vectors store).document scope item.id = some document ∧
      document.contentHash = item.contentHash ∧ document.nextOffset = work.nextOffset ∧
      document.complete = work.complete ∧ document.saved = earlier scope item store ++ [work] := by
  obtain ⟨hkey, hcontent⟩ := current_key moduleId scope work store
  refine ⟨_, (document_published h.tidy moduleId scope work vectors scope item.id).trans
    (if_pos (by rw [hid])), ?_⟩
  rw [Document.advance, if_pos hkey]
  refine ⟨hcontent.trans hhash, rfl, rfl, ?_⟩
  rw [← saved_current moduleId scope store hid hhash]

omit hitem hhash in
theorem document_other {other : Item} (hne : other.id ≠ item.id) :
    (published moduleId scope work vectors store).document scope other.id =
      store.document scope other.id := by
  rw [document_published h.tidy, if_neg]
  intro heq
  exact hne ((Prod.mk.inj heq).2.trans hid)

theorem earlier_turn {other : Item} (hother : other ∈ store.items) :
    earlier scope other (published moduleId scope work vectors store) =
      earlier scope other store ++ if work.itemId = other.id then [work] else [] := by
  by_cases hsame : other.id = item.id
  · have heq : other = item := List.inj_on_of_nodup_map h.tidy.items hother hitem hsame
    subst heq
    obtain ⟨document, hfound, hcontent, -, -, hsaved⟩ :=
      document_turn h moduleId scope hid hhash vectors
    rw [if_pos hid, ← hsaved, earlier, hfound]
    exact if_pos hcontent
  · have hnot : work.itemId ≠ other.id := fun heq => hsame (heq.symm.trans hid)
    rw [if_neg hnot, List.append_nil, earlier, earlier,
      document_other h moduleId scope hid vectors hsame]

omit hitem in
theorem remaining_turn {text : List Char} (htext : item.indexed = some text)
    (hpending : store.pending scope item = true) (hfragment : Fragment text work)
    (hoffset : work.offset = store.offset scope item.id item.contentHash) :
    remaining scope (published moduleId scope work vectors store) item < remaining scope store item := by
  obtain ⟨document, hfound, hcontent, hnext, hcomplete, -⟩ :=
    document_turn h moduleId scope hid hhash vectors
  obtain ⟨hindexable, -⟩ := pending_indexed hpending
  rw [remaining, remaining, if_pos hpending, htext, Option.getD_some]
  cases hend : work.complete with
  | true =>
    have hdone := (pending_eq_false hindexable).2 ⟨document, hfound, hcontent, hcomplete.trans hend⟩
    rw [hdone, if_neg Bool.false_ne_true]
    omega
  | false =>
    have hafter : (published moduleId scope work vectors store).offset scope item.id
        item.contentHash = work.nextOffset := by
      rw [Store.offset, hfound, ← hnext]
      exact if_pos hcontent
    have hmoved := hfragment.onward hend
    have hinside := le_of_boundary hfragment.boundary
    rw [hafter]
    split
    · omega
    · omega

theorem left_turn {text : List Char} (htext : item.indexed = some text)
    (hpending : store.pending scope item = true) (hfragment : Fragment text work)
    (hoffset : work.offset = store.offset scope item.id item.contentHash) :
    left scope (published moduleId scope work vectors store) < left scope store := by
  have hless := remaining_turn h moduleId scope hid hhash vectors htext hpending hfragment hoffset
  refine List.sum_lt_sum _ _ (fun other hother => ?_) ⟨item, hitem, hless⟩
  by_cases hsame : other.id = item.id
  · rw [List.inj_on_of_nodup_map h.tidy.items hother hitem hsame]
    exact hless.le
  · refine le_of_eq ?_
    have hdocument := document_other h moduleId scope hid vectors hsame
    unfold remaining Store.pending Store.offset
    rw [hdocument]

end Turn

/-- A worker indexes clips until nothing is left, with vectors of its own each time. It
answers what it was handed out and what it left behind, or nothing when the fuel ends. -/
def drain (moduleId scope : String) (embed : ℕ → SemanticWork → List (List UInt32)) :
    ℕ → Store → Except StoreError (Option (List SemanticWork × Store))
  | 0, _ => .ok none
  | fuel + 1, store => do
    match ← semanticWork scope store with
    | none => return some ([], store)
    | some work =>
      let (_, after) ← saveSemanticWork moduleId scope work (embed fuel work) store
      let rest ← drain moduleId scope embed fuel after
      return rest.map fun (works, final) => (work :: works, final)

/-- A worker that is left alone ends, with everything indexed, and what it was handed out
goes on from what was saved before. -/
theorem drain_ends (hinj : Function.Injective hash) (moduleId scope : String)
    {embed : ℕ → SemanticWork → List (List UInt32)}
    (hvalid : ∀ turn work, validVectors (embed turn work) = true) (fuel : ℕ) (h : Sound hash store)
    (hfuel : left scope store < fuel) :
    ∃ works final, drain moduleId scope embed fuel store = .ok (some (works, final)) ∧
      Sound hash final ∧ final.items = store.items ∧
      (∀ item ∈ store.items, final.pending scope item = false) ∧
      ∀ item ∈ store.items, earlier scope item final =
        earlier scope item store ++ works.filter fun work => work.itemId = item.id := by
  induction fuel generalizing store with
  | zero => exact absurd hfuel (Nat.not_lt_zero _)
  | succ fuel ih =>
    rcases semanticWork_cases hinj h scope with ⟨hnone, hdone⟩ |
      ⟨item, hitem, hpending, text, htext, work, hwork, hfragment, hid, hhash, hoffset⟩
    · refine ⟨[], store, ?_, h, rfl, hdone, fun item _ => (List.append_nil _).symm⟩
      rw [drain, hnone]
      rfl
    · have hlive := live_of_item hitem (pending_indexed hpending).1 hid hhash
      have hcurrent : (current moduleId scope work store).nextOffset = work.offset := by
        rw [← offset_eq, hoffset, hid, hhash]
      have hsave := save_eq h.tidy moduleId scope work (embed fuel work)
      rw [if_neg (by rw [hvalid]; exact Bool.false_ne_true), if_pos ⟨hlive, hcurrent⟩] at hsave
      have hless := left_turn h moduleId scope hitem hid hhash (embed fuel work) htext hpending
        hfragment hoffset
      have hsound := sound_published hinj h moduleId scope
        (hhash.trans (h.hashes item hitem text htext)) hfragment (embed fuel work) hcurrent
      obtain ⟨works, final, hdrain, hfinal, hitems, hdone, hsaved⟩ := ih hsound (by omega)
      refine ⟨work :: works, final, ?_, hfinal, hitems, hdone, fun other hother => ?_⟩
      · rw [drain, hwork]
        simp only [bind, Except.bind, hsave, hdrain]
        rfl
      · rw [hsaved other hother, earlier_turn h moduleId scope hitem hid hhash _ hother,
          List.append_assoc, List.filter_cons]
        by_cases hsame : work.itemId = other.id
        · rw [if_pos hsame, if_pos (decide_eq_true hsame)]
          rfl
        · rw [if_neg hsame, if_neg (by simpa using hsame)]
          rfl

/-- The tables, and the works that were handed out and are still held somewhere. -/
structure World where
  store : Store
  held : List SemanticWork

def World.empty : World := ⟨⟨[], [], []⟩, []⟩

/-- One transaction of anybody. A row that is written has the hash of the text that its
index entry has. -/
inductive Step (hash : List Char → String) : World → World → Prop
  | take {world : World} {work : SemanticWork} (scope : String)
    (hands : semanticWork scope world.store = .ok (some work)) :
    Step hash world { world with held := work :: world.held }
  | save {world : World} {work : SemanticWork} {saved : Bool} {after : Store}
    (moduleId scope : String) (vectors : List (List UInt32)) (holds : work ∈ world.held)
    (saves : saveSemanticWork moduleId scope work vectors world.store = .ok (saved, after)) :
    Step hash world { world with store := after }
  | write {world : World} (item : Item) (forgets : Bool)
    (hashed : ∀ text, item.indexed = some text → item.contentHash = hash text) :
    Step hash world { world with store := writeItem item forgets world.store }
  | remove {world : World} (id : String) :
    Step hash world { world with store := removeItem id world.store }
  | clear {world : World} (moduleId : String) :
    Step hash world { world with store := clearSemanticIndex moduleId world.store }
  | prune {world : World} (moduleId scope : String) :
    Step hash world { world with store := pruneSemanticIndex moduleId scope world.store }

def Reachable (hash : List Char → String) (world : World) : Prop :=
  Relation.ReflTransGen (Step hash) World.empty world

/-- The tables are sound, and whatever is held was cut from a text of its hash. -/
structure Kept (hash : List Char → String) (world : World) : Prop where
  sound : Sound hash world.store
  held : ∀ work ∈ world.held, ∃ text, work.contentHash = hash text ∧ Fragment text work

variable {world : World}

theorem kept_save (hinj : Function.Injective hash) (h : Kept hash world) (hheld : work ∈ world.held)
    {moduleId : String} {saved : Bool} {after : Store}
    (hsaves : saveSemanticWork moduleId scope work vectors world.store = .ok (saved, after)) :
    Sound hash after := by
  rw [save_eq h.sound.tidy] at hsaves
  split at hsaves
  · cases hsaves
  · split at hsaves
    · next hgoes =>
      cases hsaves
      obtain ⟨text, hhash, hfragment⟩ := h.held work hheld
      exact sound_published hinj h.sound moduleId scope hhash hfragment vectors hgoes.2
    · cases hsaves
      exact h.sound

theorem kept_step (hinj : Function.Injective hash) {next : World} (h : Kept hash world)
    (hstep : Step hash world next) : Kept hash next := by
  cases hstep with
  | take scope hands =>
    refine ⟨h.sound, fun work hwork => ?_⟩
    rcases List.mem_cons.1 hwork with rfl | hwork
    · rcases semanticWork_cases hinj h.sound scope with ⟨hnone, -⟩ |
        ⟨item, hitem, -, text, htext, other, hother, hfragment, -, hhash, -⟩
      · rw [hnone] at hands
        cases hands
      · rw [hother] at hands
        cases hands
        exact ⟨text, hhash.trans (h.sound.hashes item hitem text htext), hfragment⟩
    · exact h.held work hwork
  | save moduleId scope vectors holds saves => exact ⟨kept_save hinj h holds saves, h.held⟩
  | write item forgets hashed => exact ⟨sound_write h.sound hashed forgets, h.held⟩
  | remove id => exact ⟨sound_remove h.sound id, h.held⟩
  | clear moduleId | prune moduleId scope => exact ⟨sound_delete h.sound _, h.held⟩

theorem kept_reachable (hinj : Function.Injective hash) (h : Reachable hash world) :
    Kept hash world := by
  induction h with
  | refl =>
    refine ⟨⟨⟨List.nodup_nil, List.nodup_nil, ?_⟩, ?_, ?_⟩, ?_⟩
    · intro row hrow
      cases hrow
    · intro item hitem
      cases hitem
    · intro scope itemId document hfound
      cases hfound
    · intro work hwork
      cases hwork
  | tail _ hstep ih => exact kept_step hinj ih hstep

/-- A clip is live, indexed, and its text is the one that a work was cut from. -/
def CutFrom (store : Store) (work : SemanticWork) : Prop :=
  ∃ item ∈ store.items, item.id = work.itemId ∧ item.contentHash = work.contentHash ∧
    item.deleted = false ∧ ∃ text, item.indexed = some text ∧ Fragment text work

theorem cutFrom_of_live (hinj : Function.Injective hash) (h : Sound hash store)
    (hhash : work.contentHash = hash text) (hfragment : Fragment text work)
    (hlive : store.live work = true) : CutFrom store work := by
  obtain ⟨item, hitem, hmatches⟩ := List.any_eq_true.1 hlive
  simp only [Bool.and_eq_true, decide_eq_true_eq, Bool.not_eq_true'] at hmatches
  obtain ⟨⟨⟨hid, hcontent⟩, hdeleted⟩, hsome⟩ := hmatches
  obtain ⟨other, hother⟩ := Option.isSome_iff_exists.1 hsome
  have htext : other = text :=
    hinj ((h.hashes item hitem other hother).symm.trans (hcontent.trans hhash))
  exact ⟨item, hitem, hid, hcontent, hdeleted, other, hother, htext ▸ hfragment⟩

theorem rows_saved (hinj : Function.Injective hash) (h : Kept hash world)
    (hheld : work ∈ world.held) {moduleId : String} {after : Store}
    (hsaves : saveSemanticWork moduleId scope work vectors world.store = .ok (true, after)) :
    CutFrom world.store work ∧
      world.store.offset scope work.itemId work.contentHash = work.offset ∧
      ∀ row ∈ after.rows scope work.itemId, CutFrom after row.source := by
  have hafter := kept_save hinj h hheld hsaves
  obtain ⟨text, hhash, hfragment⟩ := h.held work hheld
  rw [save_eq h.sound.tidy] at hsaves
  split at hsaves
  · cases hsaves
  · split at hsaves
    · next hgoes =>
      cases hsaves
      have hcut := cutFrom_of_live hinj h.sound hhash hfragment hgoes.1
      refine ⟨hcut, (offset_eq moduleId scope work world.store).trans hgoes.2, fun row hrow => ?_⟩
      have hindexed := indexed_advance (indexed_current hinj h.sound moduleId scope hhash)
        (current_key moduleId scope work world.store).1
        (current_key moduleId scope work world.store).2 hfragment hgoes.2 vectors
      rw [rows_published h.sound.tidy, if_pos rfl] at hrow
      obtain ⟨hrowFragment, hrowItem, hrowHash⟩ := hindexed.fragments _ (hindexed.sources row hrow)
      obtain ⟨hkey, hcontent⟩ := current_key moduleId scope work world.store
      rw [Document.advance, if_pos hkey] at hrowItem hrowHash
      have hitem : row.source.itemId = work.itemId := hrowItem.trans (Prod.mk.inj hkey).2
      have hsame : row.source.contentHash = work.contentHash := hrowHash.trans hcontent
      refine cutFrom_of_live hinj hafter (hsame.trans hhash) hrowFragment ?_
      have hlive := hgoes.1
      unfold Store.live at hlive ⊢
      rw [hitem, hsame]
      exact hlive
    · cases hsaves

/-- Every clip is indexed to its end, and only what is not stale is indexed. A worker left
alone ends, with the fragments of every clip covering its text; of several workers among
any writers, one saves only what was cut from the text that the live clip has, at the
offset that is stored; and the chunks of a clip are numbered without gaps and were cut from
the content that its document names. -/
theorem covers_and_never_stale {hash : List Char → String} (hinj : Function.Injective hash)
    {world : World} (h : Reachable hash world) :
    (∀ moduleId scope, ∀ embed : ℕ → SemanticWork → List (List UInt32),
      (∀ turn work, validVectors (embed turn work) = true) →
      ∃ fuel works final, drain moduleId scope embed fuel world.store = .ok (some (works, final)) ∧
        semanticWork scope final = .ok none ∧
        ∀ item ∈ world.store.items, item.indexable = true → ∀ text, item.indexed = some text →
          Coverage text (earlier scope item world.store ++
            works.filter fun work => work.itemId = item.id)) ∧
    (∀ work ∈ world.held, ∃ text, work.contentHash = hash text ∧ Fragment text work) ∧
    (∀ moduleId scope vectors after, ∀ work ∈ world.held,
      saveSemanticWork moduleId scope work vectors world.store = .ok (true, after) →
        CutFrom world.store work ∧
          world.store.offset scope work.itemId work.contentHash = work.offset ∧
          ∀ row ∈ after.rows scope work.itemId, CutFrom after row.source) ∧
    ∀ scope itemId,
      (world.store.rows scope itemId).map VectorRow.chunk =
        List.range (world.store.rows scope itemId).length ∧
      ∀ row ∈ world.store.rows scope itemId, ∃ document text,
        world.store.document scope itemId = some document ∧
          document.contentHash = hash text ∧ row.source.contentHash = hash text ∧
          Fragment text row.source := by
  have hkept := kept_reachable hinj h
  refine ⟨?_, hkept.held, ?_, ?_⟩
  · intro moduleId scope embed hvalid
    obtain ⟨works, final, hdrain, hfinal, hitems, hdone, hsaved⟩ := drain_ends hinj moduleId scope
      hvalid (left scope world.store + 1) hkept.sound (Nat.lt_succ_self _)
    refine ⟨_, works, final, hdrain, ?_, fun item hitem hindexable text htext => ?_⟩
    · rcases semanticWork_cases hinj hfinal scope with ⟨hnone, -⟩ | ⟨item, hitem, hpending, -⟩
      · exact hnone
      · rw [hdone item (hitems ▸ hitem)] at hpending
        cases hpending
    · obtain ⟨document, hfound, hcontent, hcomplete⟩ :=
        (pending_eq_false hindexable).1 (hdone item hitem)
      obtain ⟨other, hindexed⟩ := hfinal.indexed scope item.id document hfound
      have hother : other = text := hinj (hindexed.hash.symm.trans
        (hcontent.trans (hkept.sound.hashes item hitem text htext)))
      have hcovers := hindexed.covers hcomplete
      rw [hother] at hcovers
      rw [← hsaved item hitem, earlier, hfound]
      dsimp only
      rw [if_pos hcontent]
      exact hcovers
  · intro moduleId scope vectors after work hheld hsaves
    exact rows_saved hinj hkept hheld hsaves
  · intro scope itemId
    cases hfound : world.store.document scope itemId with
    | none =>
      rw [rows_of_none hkept.sound.tidy hfound]
      refine ⟨rfl, fun row hrow => ?_⟩
      cases hrow
    | some document =>
      obtain ⟨text, hindexed⟩ := hkept.sound.indexed scope itemId document hfound
      refine ⟨hindexed.numbered, fun row hrow => ?_⟩
      obtain ⟨hfragment, -, hhash⟩ := hindexed.fragments _ (hindexed.sources row hrow)
      exact ⟨document, text, rfl, hindexed.hash, hhash.trans hindexed.hash, hfragment⟩

def sampleItem (text : String) : Item :=
  ⟨"item", "text", text, 1, false, some text.toList⟩

def sampleWork : SemanticWork :=
  ⟨"item", "a", [97], 0, 1, true⟩

/-- One clip, captured, indexed, and changed afterwards. -/
def sampleStore (text : String) (documents : List Document) (vectors : List VectorRow) : Store :=
  ⟨[sampleItem text], documents, vectors⟩

def sampleRow : VectorRow :=
  ⟨"model", "item", 0, [0, 0, 0, 0], sampleWork⟩

def sampleWorld (text : String) : World :=
  ⟨sampleStore text [⟨"model", "module", "item", "a", 1, true, [sampleWork]⟩] [sampleRow], [sampleWork]⟩

theorem hashed_sample (text : String) (other : List Char)
    (h : (sampleItem text).indexed = some other) : (sampleItem text).contentHash = String.ofList other := by
  cases h
  exact String.ofList_toList.symm

theorem sample_taken : semanticWork "model" (sampleStore "a" [] []) = .ok (some sampleWork) := by
  decide

theorem sample_saved : saveSemanticWork "module" "model" sampleWork [[0]] (sampleStore "a" [] []) =
    .ok (true, (sampleWorld "a").store) := by
  rfl

theorem reachable_sample : Reachable String.ofList (sampleWorld "a") := by
  have hwrite : Step String.ofList World.empty ⟨sampleStore "a" [] [], []⟩ :=
    Step.write (sampleItem "a") false (hashed_sample "a")
  have htake : Step String.ofList ⟨sampleStore "a" [] [], []⟩ ⟨sampleStore "a" [] [], [sampleWork]⟩ :=
    Step.take "model" sample_taken
  have hsave : Step String.ofList ⟨sampleStore "a" [] [], [sampleWork]⟩ (sampleWorld "a") :=
    Step.save "module" "model" [[0]] (List.mem_singleton.2 rfl) sample_saved
  exact ((Relation.ReflTransGen.single hwrite).tail htake).tail hsave

/-- A clip that changes keeps the chunks of its old content until it is saved again, and a
worker may not save more vectors than a fragment can have. -/
theorem stale_until_saved :
    (∃ world, Reachable String.ofList world ∧ ∃ item ∈ world.store.items, item.indexable = true ∧
      ∃ text, item.indexed = some text ∧
        ∃ row ∈ world.store.rows "model" item.id, ¬ Fragment text row.source) ∧
    saveSemanticWork "module" "model" sampleWork (List.replicate 129 [0]) (sampleStore "a" [] []) =
      .error .invalidHistoryQuery := by
  constructor
  · have hwrite : Step String.ofList (sampleWorld "a") (sampleWorld "b") :=
      Step.write (sampleItem "b") false (hashed_sample "b")
    refine ⟨sampleWorld "b", reachable_sample.tail hwrite, sampleItem "b", List.mem_singleton.2 rfl,
      by decide, ['b'], rfl, sampleRow, List.mem_singleton.2 rfl, fun hfragment => ?_⟩
    obtain ⟨before, piece, after, htext, hbefore, hpiece⟩ := hfragment.slice
    have hnil : before = [] := encode_eq_nil hbefore
    subst hnil
    cases piece with
    | nil => cases hpiece
    | cons c piece =>
      obtain ⟨rfl, -⟩ := List.cons.inj htext
      have hbytes : String.utf8EncodeChar 'b' = [98] := by decide
      rw [encode_cons, hbytes] at hpiece
      exact absurd (List.cons.inj hpiece).1 (by decide)
  · have hmany : validVectors (List.replicate 129 [0]) = false := by decide +kernel
    rw [saveSemanticWork, hmany]
    rfl

theorem covers_sample :
    Function.Injective String.ofList ∧ Reachable String.ofList (sampleWorld "a") ∧
      ∀ row ∈ (sampleWorld "a").store.rows "model" "item", ∃ document text,
        (sampleWorld "a").store.document "model" "item" = some document ∧
          document.contentHash = String.ofList text ∧ row.source.contentHash = String.ofList text ∧
          Fragment text row.source :=
  have hinj : Function.Injective String.ofList := fun _ _ heq => String.ofList_injective heq
  ⟨hinj, reachable_sample,
    ((covers_and_never_stale hinj reachable_sample).2.2.2 "model" "item").2⟩

end CopyPaste.History.SemanticWorkers
