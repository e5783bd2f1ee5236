import CopyPaste.Lib.Slots
import CopyPaste.Wire.RoundTrip

/-!
The codec's shortcuts. A sender takes the parts of an items envelope without joining them,
a receiver hears the length from the first bytes, and the longest payload keeps the buffer
that it arrived in. Each agrees with the plain codec, whatever the buffer's capacity.
-/

namespace CopyPaste.Wire.Owned

open Lib.Checks Lib.Frames Lib.Slots Peer.Transfer Messages Codec

/-- Why nothing comes out: an error that is returned, or an index out of bounds. -/
inductive Stop
  | refused (error : ProtocolError)
  | panicked
  deriving DecidableEq, Repr

variable {α : Type} (libs : Libraries)

def refuse (result : Except ProtocolError α) : Except Stop α :=
  result.mapError .refused

def parts (frame : ItemsFrame) : List (List UInt8) :=
  frame.head :: frame.payloads

/-- The parts of an items message that passes every check; no other message has any. -/
def itemsFrameOf : SyncMessage → Option (Except ProtocolError ItemsFrame)
  | .items items => some do
    validateMessage libs (.items items)
    itemsFrame libs items
  | _ => none

def announcedLen (first : List UInt8) : Option ℕ :=
  if itemsMagic.isPrefixOf first ∧ 8 ≤ first.length then some (ofBigEndian ((first.drop 4).take 4))
  else none

/-- The member with the greatest key, of several the last. -/
def maxByKey (key : α → ℕ) (members : List α) : Option α :=
  members.foldl (fun best next =>
    match best with
    | none => some next
    | some best => if key next < key best then some best else some next) none

/-- The payload that keeps the buffer: the longest one, when it fills half of it. -/
def reusedIndex (capacity : ℕ) (spans : List (ℕ × ℕ × Bool)) : Option ℕ :=
  let longest := maxByKey (fun entry => entry.1.2.1 - entry.1.1) spans.zipIdx
  (longest.filter fun entry => capacity / 2 ≤ entry.1.2.1 - entry.1.1).map Prod.snd

def slice (bytes : List UInt8) (start stop : ℕ) : Except Stop (List UInt8) :=
  if start ≤ stop ∧ stop ≤ bytes.length then .ok ((bytes.drop start).take (stop - start))
  else .error .panicked

/-- The buffer cut behind a range and moved down to its start. -/
def takeOver (bytes : List UInt8) (start stop : ℕ) : Except Stop (List UInt8) :=
  if (bytes.take stop).length < start then .error .panicked else .ok ((bytes.take stop).drop start)

def fillAt (items : List SyncItem) (index : ℕ) (bytes : List UInt8) (binary : Bool) :
    Except Stop (List SyncItem) :=
  match items[index]? with
  | none => .error .panicked
  | some item => (refuse (fillItem item bytes binary)).map (items.set index)

def fillCopy (bytes : List UInt8) (items : List SyncItem) (entry : (ℕ × ℕ × Bool) × ℕ) :
    Except Stop (List SyncItem) := do
  let part ← slice bytes entry.1.1 entry.1.2.1
  fillAt items entry.2 part entry.1.2.2

def fillOthers (bytes : List UInt8) (reused : Option ℕ) (items : List SyncItem)
    (spans : List (ℕ × ℕ × Bool)) : Except Stop (List SyncItem) :=
  spans.zipIdx.foldlM (fun items entry =>
    if some entry.2 = reused then .ok items else fillCopy bytes items entry) items

def fillReused (bytes : List UInt8) (spans : List (ℕ × ℕ × Bool)) (items : List SyncItem) :
    Option ℕ → Except Stop (List SyncItem)
  | none => .ok items
  | some index =>
    match spans[index]? with
    | none => .error .panicked
    | some (start, stop, binary) => do
      let part ← takeOver bytes start stop
      fillAt items index part binary

def decodeOwnedItems (capacity : ℕ) (bytes : List UInt8) : Except Stop (List SyncItem) := do
  let (items, spans) ← refuse (layout libs bytes)
  let reused := reusedIndex capacity spans
  let items ← fillOthers bytes reused items spans
  fillReused bytes spans items reused

def decodeOwned (capacity : ℕ) (bytes : List UInt8) : Except Stop SyncMessage :=
  if bytes.length ≤ maxMessageBytes ∧ itemsMagic.isPrefixOf bytes then do
    let items ← decodeOwnedItems libs capacity bytes
    refuse (checked libs (.items items))
  else refuse (decode libs bytes)

section Buffer

variable {bytes : List UInt8} {spans : List (ℕ × ℕ × Bool)}

/-- A range within the bytes. -/
def Inside (bytes : List UInt8) (span : ℕ × ℕ × Bool) : Prop :=
  span.1 ≤ span.2.1 ∧ span.2.1 ≤ bytes.length

def part (bytes : List UInt8) (span : ℕ × ℕ × Bool) : List UInt8 :=
  (bytes.drop span.1).take (span.2.1 - span.1)

/-- An item with the payload of its range. -/
def put (bytes : List UInt8) (item : SyncItem) (span : ℕ × ℕ × Bool) : Except Stop SyncItem :=
  refuse (fillItem item (part bytes span) span.2.2)

theorem fillAt_eq (items : List SyncItem) (index : ℕ) (span : ℕ × ℕ × Bool) :
    fillAt items index (part bytes span) span.2.2 =
      fillSlot (put bytes) .panicked items (span, index) := by
  unfold fillAt fillSlot
  cases items[index]? <;> rfl

theorem fillCopy_eq {entry : (ℕ × ℕ × Bool) × ℕ} (h : Inside bytes entry.1)
    (items : List SyncItem) :
    fillCopy bytes items entry = fillSlot (put bytes) .panicked items entry := by
  have hslice : slice bytes entry.1.1 entry.1.2.1 = .ok (part bytes entry.1) := if_pos h
  rw [fillCopy, hslice]
  exact fillAt_eq items entry.2 entry.1

variable {span : ℕ × ℕ × Bool} {index : ℕ}

theorem fillReused_eq (hspan : spans[index]? = some span) (h : Inside bytes span)
    (items : List SyncItem) :
    fillReused bytes spans items (some index) =
      fillSlot (put bytes) .panicked items (span, index) := by
  have hlength : ¬ (bytes.take span.2.1).length < span.1 := by
    have := h.1
    have := h.2
    rw [List.length_take]
    omega
  have htake : takeOver bytes span.1 span.2.1 = .ok (part bytes span) := by
    rw [takeOver, if_neg hlength, List.drop_take]
    rfl
  simp only [fillReused, hspan, htake]
  exact fillAt_eq items index span

theorem fillOthers_eq (reused : Option ℕ) {entries : List ((ℕ × ℕ × Bool) × ℕ)}
    (h : ∀ entry ∈ entries, Inside bytes entry.1) (items : List SyncItem) :
    entries.foldlM (fun items entry =>
        if some entry.2 = reused then .ok items else fillCopy bytes items entry) items =
      (entries.filter fun entry => some entry.2 ≠ reused).foldlM
        (fillSlot (put bytes) .panicked) items := by
  induction entries generalizing items with
  | nil => rfl
  | cons entry entries ih =>
    have hrest := ih fun other hother => h other (List.mem_cons_of_mem _ hother)
    rw [List.foldlM_cons]
    by_cases hentry : some entry.2 = reused
    · rw [if_pos hentry, List.filter_cons_of_neg (by simpa using hentry)]
      exact hrest items
    · rw [if_neg hentry, List.filter_cons_of_pos (by simpa using hentry), List.foldlM_cons,
        fillCopy_eq (h entry List.mem_cons_self)]
      exact congrArg _ (funext hrest)

theorem mem_of_maxByKey {key : α → ℕ} {members : List α} {found : α}
    (h : maxByKey key members = some found) : found ∈ members := by
  have hfold : ∀ best, members.foldl (fun best next =>
      match best with
      | none => some next
      | some best => if key next < key best then some best else some next) best = some found →
      found ∈ members ∨ best = some found := by
    clear h
    induction members with
    | nil => exact fun best h => Or.inr h
    | cons member members ih =>
      intro best h
      rcases ih _ h with hmem | hbest
      · exact Or.inl (List.mem_cons_of_mem _ hmem)
      · cases best with
        | none => exact Or.inl (List.mem_cons.2 (Or.inl (Option.some.inj hbest).symm))
        | some best =>
          dsimp only at hbest
          split at hbest
          · exact Or.inr hbest
          · exact Or.inl (List.mem_cons.2 (Or.inl (Option.some.inj hbest).symm))
  rcases hfold none h with hmem | hnone
  · exact hmem
  · cases hnone

theorem exists_of_reusedIndex {capacity : ℕ} (h : reusedIndex capacity spans = some index) :
    ∃ span, spans[index]? = some span := by
  obtain ⟨entry, hentry, rfl⟩ := Option.map_eq_some_iff.1 h
  have hfound := (Option.filter_eq_some_iff.1 hentry).1
  exact ⟨entry.1, List.mem_zipIdx_iff_getElem?.1 (mem_of_maxByKey hfound)⟩

/-- The copied ones and the one that takes the buffer are all of them. -/
theorem reused_perm (hspan : spans[index]? = some span) :
    ((spans.zipIdx.filter fun entry => some entry.2 ≠ some index) ++ [(span, index)]).Perm
      spans.zipIdx := by
  have hnodup : spans.zipIdx.Nodup := (List.nodup_zipIdx_map_snd spans).of_map _
  refine (List.perm_append_singleton _ _).trans ?_
  rw [List.perm_ext_iff_of_nodup (List.nodup_cons.2 ⟨by simp, hnodup.filter _⟩) hnodup]
  rintro ⟨other, place⟩
  rw [List.mem_cons, List.mem_filter, List.mk_mem_zipIdx_iff_getElem?]
  by_cases hplace : place = index
  · subst hplace
    simp only [hspan, Prod.mk.injEq, and_true, Option.some.injEq, ne_eq, not_true_eq_false,
      decide_false, Bool.false_eq_true, and_false, or_false]
    exact eq_comm
  · simp [hplace]

theorem put_error {item : SyncItem} {error : Stop} (h : put bytes item span = .error error) :
    error = .refused (.decode "item text is not UTF-8") := by
  unfold put fillItem at h
  split at h
  · cases h
  · split at h
    · cases h
      rfl
    · cases h

theorem refuse_mapM {β : Type} {f : β → Except ProtocolError α} (members : List β) :
    refuse (members.mapM f) = members.mapM fun member => refuse (f member) := by
  induction members with
  | nil => rfl
  | cons member members ih =>
    rw [List.mapM_cons, List.mapM_cons, ← ih]
    cases f member with
    | error error => rfl
    | ok value => cases members.mapM f <;> rfl

/-- With or without a payload that takes the buffer, the items are those of the plain pass. -/
theorem fill_eq {items : List SyncItem} (hlength : items.length = spans.length)
    (h : ∀ span ∈ spans, Inside bytes span) {capacity : ℕ} :
    (fillOthers bytes (reusedIndex capacity spans) items spans >>= fun items =>
        fillReused bytes spans items (reusedIndex capacity spans)) =
      refuse ((items.zip spans).mapM fun (item, start, stop, binary) =>
        fillItem item ((bytes.drop start).take (stop - start)) binary) := by
  have hentries : ∀ entry ∈ spans.zipIdx, Inside bytes entry.1 := fun entry hentry =>
    h _ (List.mem_of_getElem? (List.mem_zipIdx_iff_getElem?.1 hentry))
  rw [fillOthers, fillOthers_eq _ hentries, refuse_mapM]
  have hpass := fun entries hperm => @foldlM_fillSlot_perm Stop SyncItem (ℕ × ℕ × Bool) (put bytes)
    .panicked items entries spans _ hlength (fun _ _ _ herror => put_error herror) hperm
  cases hreused : reusedIndex capacity spans with
  | none =>
    have hall : (spans.zipIdx.filter fun entry => some entry.2 ≠ none) = spans.zipIdx := by
      simp
    rw [hall, hpass _ (List.Perm.refl _)]
    exact bind_pure _
  | some index =>
    obtain ⟨span, hspan⟩ := exists_of_reusedIndex hreused
    have hrun := hpass _ (reused_perm hspan)
    rw [List.foldlM_append] at hrun
    refine Eq.trans ?_ hrun
    refine congrArg _ (funext fun filled => ?_)
    rw [fillReused_eq hspan (h _ (List.mem_of_getElem? hspan)), List.foldlM_cons]
    exact (bind_pure _).symm

end Buffer

variable {bytes : List UInt8} {items : List SyncItem}

theorem inside_of_ranges {table : List (ℕ × Bool)} {start : ℕ} {spans : List (ℕ × ℕ × Bool)}
    (h : ranges bytes.length start table = .ok spans) :
    spans.length = table.length ∧ ∀ span ∈ spans, Inside bytes span := by
  induction table generalizing start spans with
  | nil =>
    unfold ranges at h
    split at h
    · cases h
    · cases h
      exact ⟨rfl, by simp⟩
  | cons entry table ih =>
    obtain ⟨size, binary⟩ := entry
    unfold ranges at h
    split at h
    · cases h
    split at h
    · cases h
    rename_i hfits
    cases hrest : ranges bytes.length (start + size) table with
    | error error =>
      rw [hrest] at h
      cases h
    | ok rest =>
      rw [hrest] at h
      cases h
      obtain ⟨hlength, hinside⟩ := ih hrest
      refine ⟨by simp [hlength], fun span hspan => ?_⟩
      rcases List.mem_cons.1 hspan with rfl | hspan
      · exact ⟨Nat.le_add_right _ _, Nat.not_lt.1 hfits⟩
      · exact hinside span hspan

theorem inside_of_layout {spans : List (ℕ × ℕ × Bool)}
    (h : layout libs bytes = .ok (items, spans)) :
    items.length = spans.length ∧ ∀ span ∈ spans, Inside bytes span := by
  unfold layout at h
  obtain ⟨total, -, h⟩ := bind_ok_iff.1 h
  dsimp only at h
  split at h
  · obtain ⟨_, herror, -⟩ := bind_ok_iff.1 h
    cases herror
  obtain ⟨headerLen, -, h⟩ := bind_ok_iff.1 h
  split at h
  · obtain ⟨_, herror, -⟩ := bind_ok_iff.1 h
    cases herror
  split at h
  · cases h
  · rename_i held table hread
    split at h
    · obtain ⟨_, herror, -⟩ := bind_ok_iff.1 h
      cases herror
    rename_i hsame
    obtain ⟨found, hfound, h⟩ := bind_ok_iff.1 h
    cases h
    obtain ⟨hlength, hinside⟩ := inside_of_ranges hfound
    exact ⟨by omega, hinside⟩

theorem decodeOwnedItems_eq (capacity : ℕ) (bytes : List UInt8) :
    decodeOwnedItems libs capacity bytes = refuse (decodeItems libs bytes) := by
  unfold decodeOwnedItems decodeItems
  cases hlayout : layout libs bytes with
  | error error => rfl
  | ok found =>
    obtain ⟨items, spans⟩ := found
    obtain ⟨hlength, hinside⟩ := inside_of_layout libs hlayout
    exact fill_eq hlength hinside

/-- Whatever the capacity, the owned bytes decode as the borrowed ones do, and no index is
out of bounds on the way. -/
theorem decodeOwned_eq (capacity : ℕ) (bytes : List UInt8) :
    decodeOwned libs capacity bytes = refuse (decode libs bytes) := by
  unfold decodeOwned
  split
  · next hshort =>
    have hchunk : fileChunkMagic.isPrefixOf bytes = false := by
      obtain ⟨rest, rfl⟩ := List.isPrefixOf_iff_prefix.1 hshort.2
      rfl
    rw [decodeOwnedItems_eq, decode, if_neg (Nat.not_lt.2 hshort.1), hchunk, if_neg (by decide),
      if_pos hshort.2]
    cases decodeItems libs bytes <;> rfl
  · rfl

theorem itemsFrameOf_flatten (items : List SyncItem) :
    ∃ frame, itemsFrameOf libs (.items items) = some frame ∧
      frame.map (fun frame => (parts frame).flatten) = encode libs (.items items) := by
  refine ⟨_, rfl, ?_⟩
  unfold encode
  cases validateMessage libs (.items items) with
  | error error => rfl
  | ok checked =>
    simp only [bind, Except.bind]
    cases itemsFrame libs items <;> rfl

/-- An encoded batch is its envelope, no longer than a message may be. -/
theorem encode_items (h : encode libs (.items items) = .ok bytes) :
    bytes = envelope libs items ∧ totalOf libs items ≤ maxMessageBytes := by
  have hvalid := validate_of_encode libs h
  simp only [validateMessage, bind_ok_iff, exists_unit, forM_ok_iff] at hvalid
  have hsize : ∀ item ∈ items, (payload item).1.length ≤ maxContentBytes := fun item hitem =>
    (length_payload_le item).trans (checkItem_ok libs (hvalid.2.1 item hitem)).2.2.2.2
  unfold encode at h
  obtain ⟨-, -, h⟩ := bind_ok_iff.1 h
  obtain ⟨frame, hframe, h⟩ := bind_ok_iff.1 h
  rw [itemsFrame_eq libs hsize] at hframe
  split at hframe
  · cases hframe
  · next htotal =>
    cases hframe
    exact ⟨(pure_ok_iff.1 h).symm, Nat.not_lt.1 htotal⟩

theorem announcedLen_prefix {first : List UInt8} (h : encode libs (.items items) = .ok bytes)
    (hstarts : first <+: bytes) (hlong : 8 ≤ first.length) :
    announcedLen first = some bytes.length := by
  obtain ⟨rfl, htotal⟩ := encode_items libs h
  obtain ⟨rest, hrest⟩ := hstarts
  have hmagic : itemsMagic.isPrefixOf first = true := by
    have hfour : first.take 4 = (envelope libs items).take 4 := by
      rw [← hrest, List.take_append_of_le_length (by omega)]
    rw [List.isPrefixOf_iff_prefix]
    refine ⟨first.drop 4, ?_⟩
    have hhead : (envelope libs items).take 4 = itemsMagic := rfl
    rw [← hhead, ← hfour, List.take_append_drop]
  have hfield : (first.drop 4).take 4 = ((envelope libs items).drop 4).take 4 := by
    rw [← hrest, List.drop_append_of_le_length (by omega),
      List.take_append_of_le_length (by rw [List.length_drop]; omega)]
  have htotalField := fieldAt_total libs htotal
  unfold fieldAt at htotalField
  split at htotalField
  · cases htotalField
  · rw [announcedLen, if_pos ⟨hmagic, hlong⟩, hfield, Except.ok.inj htotalField, length_envelope]

/-- The shortcuts agree with the plain codec: owned bytes of any capacity decode, or fail,
as borrowed ones do; the parts of a batch make up its encoding, and fail where it does;
and every front of it that reaches behind the length announces all of it. -/
theorem shortcuts_agree :
    (∀ capacity bytes, decodeOwned libs capacity bytes = refuse (decode libs bytes)) ∧
    (∀ items, ∃ frame, itemsFrameOf libs (.items items) = some frame ∧
      frame.map (fun frame => (parts frame).flatten) = encode libs (.items items)) ∧
    ∀ items bytes, encode libs (.items items) = .ok bytes → ∀ first, first <+: bytes →
      8 ≤ first.length → announcedLen first = some bytes.length :=
  ⟨decodeOwned_eq libs, itemsFrameOf_flatten libs, fun _ _ h _ hprefix hlong =>
    announcedLen_prefix libs h hprefix hlong⟩

/-- A text and a picture: the buffer that holds them goes to the text or to neither. -/
theorem shortcuts_agree_batch :
    ∃ bytes, encode sampleLibraries (.items [note, picture]) = .ok bytes ∧
      decodeOwned sampleLibraries 10 bytes = refuse (decode sampleLibraries bytes) ∧
      decodeOwned sampleLibraries 4000 bytes = refuse (decode sampleLibraries bytes) ∧
      announcedLen (bytes.take 8) = some bytes.length := by
  have hok := isOk_note_picture
  cases hencode : encode sampleLibraries (.items [note, picture]) with
  | error error =>
    rw [hencode] at hok
    cases hok
  | ok bytes =>
    obtain ⟨howned, -, hannounced⟩ := shortcuts_agree sampleLibraries
    obtain ⟨rfl, -⟩ := encode_items sampleLibraries hencode
    refine ⟨_, rfl, howned 10 _, howned 4000 _, hannounced _ _ hencode _ (List.take_prefix 8 _) ?_⟩
    rw [List.length_take, length_envelope, totalOf, headBytes]
    omega

end CopyPaste.Wire.Owned
