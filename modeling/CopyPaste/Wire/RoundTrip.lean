import CopyPaste.Lib.JsonTokens
import CopyPaste.Wire.Codec

/-!
The codec's two directions. What is encoded decodes to the message it came from, and
what decodes is valid and comes back from its own encoding.
-/

namespace CopyPaste.Wire.Codec

open Lib.Checks Lib.Frames Lib.JsonText Lib.JsonFields Merge.Comparator Merge.Payload Peer.Transfer
open Peers.Group Messages

theorem ensure_ok_iff {ok : Bool} {error : ProtocolError} :
    ensure ok error = .ok () ↔ ok = true := by
  cases ok <;> simp [ensure]

variable (libs : Libraries)

variable {item : SyncItem} {message : SyncMessage} {kind : Kind} {fields : List (String × Json)}
  {bytes : List UInt8} {items : List SyncItem}

theorem checkItem_ok (h : checkItem libs item = .ok ()) :
    0 ≤ item.createdAt ∧ 0 ≤ item.pinUpdatedAt ∧ OrderFinite item.pinOrder ∧
      (item.content = "" ∨ item.binaryContent = []) ∧ item.contentBytes ≤ maxContentBytes := by
  simp only [checkItem, bind_ok_iff, exists_unit, checkTimestamp, checkPin, ensure_ok_iff,
    decide_eq_true_eq] at h
  obtain ⟨-, -, -, -, -, -, hcreated, hpinned, hpin, hone, hsize⟩ := h
  simp only [checkPinState, Bool.and_eq_true] at hpin
  refine ⟨hcreated, hpinned, ?_, ?_, hsize⟩
  · rintro rank hrank
    have hall := hpin.1
    rw [hrank] at hall
    simpa using hall
  · simpa using hone

theorem checkSummary_ok {summary : ItemSummary} (h : checkSummary summary = .ok ()) :
    0 ≤ summary.createdAt ∧ 0 ≤ summary.pinUpdatedAt ∧ OrderFinite summary.pinOrder := by
  simp only [checkSummary, bind_ok_iff, exists_unit, checkTimestamp, checkPin, ensure_ok_iff,
    decide_eq_true_eq] at h
  obtain ⟨-, -, -, hcreated, hpinned, hpin⟩ := h
  simp only [checkPinState, Bool.and_eq_true] at hpin
  refine ⟨hcreated, hpinned, ?_⟩
  rintro rank hrank
  have hall := hpin.1
  rw [hrank] at hall
  simpa using hall

theorem clampSummary_eq {summary : ItemSummary} (hcreated : 0 ≤ summary.createdAt)
    (hpinned : 0 ≤ summary.pinUpdatedAt) : clampSummary summary = summary := by
  rw [clampSummary, max_eq_left hcreated, max_eq_left hpinned]

theorem clampItem_eq (hcreated : 0 ≤ item.createdAt) (hpinned : 0 ≤ item.pinUpdatedAt) :
    clampItem item = item := by
  rw [clampItem, max_eq_left hcreated, max_eq_left hpinned]

/-- A message without a negative stamp. -/
def NoNegative : SyncMessage → Prop
  | .summary items _ => ∀ item ∈ items, 0 ≤ item.createdAt ∧ 0 ≤ item.pinUpdatedAt
  | .items items => ∀ item ∈ items, 0 ≤ item.createdAt ∧ 0 ≤ item.pinUpdatedAt
  | .hello _ _ _ _ _ sinceMs => 0 ≤ sinceMs
  | _ => True

theorem noNegative_of_validate (h : validateMessage libs message = .ok ()) :
    NoNegative message := by
  cases message with
  | summary items more =>
    simp only [validateMessage, bind_ok_iff, exists_unit, forM_ok_iff] at h
    intro item hitem
    have hcheck := checkSummary_ok (h.2 item hitem)
    exact ⟨hcheck.1, hcheck.2.1⟩
  | items items =>
    simp only [validateMessage, bind_ok_iff, exists_unit, forM_ok_iff] at h
    intro item hitem
    have hcheck := checkItem_ok libs (h.2.1 item hitem)
    exact ⟨hcheck.1, hcheck.2.1⟩
  | hello version deviceId deviceName profile listenAddr sinceMs =>
    simp only [validateMessage, bind_ok_iff, exists_unit, ensure_ok_iff, decide_eq_true_eq] at h
    exact h.2.2.2.2.1
  | group | probe | probeAck | request | fileRequest | fileChunk | fileUnavailable | fileChecksum =>
    trivial
  | done => trivial

/-- Nothing is raised in a message without a negative stamp. -/
theorem clampTimestamps_eq (h : NoNegative message) : clampTimestamps message = message := by
  cases message with
  | summary items more =>
    have hitems : items.map clampSummary = items :=
      (List.map_congr_left fun item hitem =>
        clampSummary_eq (h item hitem).1 (h item hitem).2).trans (List.map_id _)
    rw [clampTimestamps, hitems]
  | items items =>
    have hitems : items.map clampItem = items :=
      (List.map_congr_left fun item hitem =>
        clampItem_eq (h item hitem).1 (h item hitem).2).trans (List.map_id _)
    rw [clampTimestamps, hitems]
  | hello version deviceId deviceName profile listenAddr sinceMs =>
    rw [clampTimestamps, max_eq_left h]
  | group | probe | probeAck | request | fileRequest | fileChunk | fileUnavailable | fileChecksum =>
    rfl
  | done => rfl

theorem checked_eq (h : validateMessage libs message = .ok ()) :
    checked libs message = .ok message := by
  simp only [checked, clampTimestamps_eq (noNegative_of_validate libs h), h]
  rfl

theorem parseText_jsonText {value : Json} (h : Legible libs.tokens depthLimit value) :
    parseText libs (jsonText libs value) = some value := by
  rw [parseText, jsonText, fromUtf8_utf8, Option.bind_some, String.toList_ofList, parse_write _ h]

/-- The text of an object with a plain tag first. -/
theorem jsonText_tagged {tag : String} (hplain : tag.toList.all isPlain = true)
    (fields : List (String × Json)) :
    ∃ tail, jsonText libs (.object (("t", .string tag) :: fields)) =
      tagHead ++ utf8 tag ++ 0x22 :: tail := by
  have hkey : libs.tokens.quote "t" = ['t', '\x22'] := libs.tokens.quote_plain "t" (by decide)
  have htag := libs.tokens.quote_plain tag hplain
  obtain ⟨tail, htail⟩ : ∃ tail, Json.write libs.tokens (.object (("t", .string tag) :: fields)) =
      ['\x7b', '\x22', 't', '\x22', ':', '\x22'] ++ tag.toList ++ ['\x22'] ++ tail := by
    rw [Json.write, writeFields, Json.write, hkey, htag]
    cases writeFields libs.tokens fields with
    | nil => exact ⟨['\x7d'], by simp [separate]⟩
    | cons text texts => exact ⟨',' :: (separate (text :: texts) ++ ['\x7d']), by simp [separate]⟩
  have hhead : utf8 (String.ofList ['\x7b', '\x22', 't', '\x22', ':', '\x22']) = tagHead := by rfl
  have hquote : utf8 (String.ofList ['\x22']) = [0x22] := by rfl
  refine ⟨utf8 (String.ofList tail), ?_⟩
  rw [jsonText, htail, String.ofList_append, String.ofList_append, String.ofList_append,
    utf8_append, utf8_append, utf8_append, String.ofList_toList, hhead, hquote]
  simp

/-- The name of a kind: no quote in it, every character plain, and a summary's its own. -/
theorem spelled_name (kind : Kind) :
    (∀ byte ∈ utf8 kind.name, byte != 0x22) ∧ kind.name.toList.all isPlain = true ∧
      (utf8 kind.name = summaryTag ↔ kind = .summary) := by
  cases kind <;> decide +kernel

theorem isSummaryText_tagged (kind : Kind) (fields : List (String × Json)) :
    isSummaryText (jsonText libs (.object (("t", .string kind.name) :: fields))) =
      decide (kind = .summary) := by
  obtain ⟨tail, htail⟩ := jsonText_tagged libs (spelled_name kind).2.1 fields
  have hhead : tagHead.isPrefixOf (tagHead ++ (utf8 kind.name ++ 0x22 :: tail)) = true :=
    List.isPrefixOf_iff_prefix.2 (List.prefix_append _ _)
  have htag : (utf8 kind.name ++ 0x22 :: tail).takeWhile (· != 0x22) = utf8 kind.name := by
    rw [List.takeWhile_append_of_pos (spelled_name kind).1,
      List.takeWhile_cons_of_neg (by decide), List.append_nil]
  rw [htail, List.append_assoc, isSummaryText, hhead, List.drop_left' rfl, htag, Bool.true_and,
    Bool.eq_iff_iff, beq_iff_eq, (spelled_name kind).2.2, decide_eq_true_iff]

theorem readSummaryBody_tagged {items : List ItemSummary} {more : Bool}
    (hitems : ∀ item ∈ items,
      readSummary libs.spelling (writeSummary item) = some item) :
    readSummaryBody libs.spelling (.object (("t", .string "summary") ::
      [("items", ofList writeSummary items), ("more", .bool more)])) =
      some (.summary items more) := by
  obtain ⟨fields, hfields⟩ : ∃ fields, fields = [("t", Json.string "summary"),
    ("items", ofList writeSummary items), ("more", Json.bool more)] := ⟨_, rfl⟩
  have htag : required some fields "t" = some (Json.string "summary") :=
    required_of (by simp [hfields]) rfl
  have hread : required (asList (readSummary libs.spelling)) fields "items" = some items :=
    required_of (by simp [hfields]) (asList_ofList hitems)
  have hmore : required asBool fields "more" = some more :=
    required_of (by simp [hfields]; rfl) rfl
  rw [← hfields, readSummaryBody, structFields]
  simp [htag, hread, hmore]

theorem parseJson_jsonText (htyped : message.Typed)
    (hfinite : ∀ items more, message = .summary items more →
      ∀ item ∈ items, OrderFinite item.pinOrder)
    (h : messageFields libs.spelling message = some (kind, fields)) :
    parseJson libs (jsonText libs (.object (("t", .string kind.name) :: fields))) =
      some message := by
  have hlegible : Legible libs.tokens 127
      (.object (("t", .string kind.name) :: fields)) := by
    refine .object ?_
    rw [List.forall_mem_cons]
    exact ⟨legible_string _, legible_messageFields libs.spelling libs.faithful h⟩
  rw [parseJson, isSummaryText_tagged, parseText_jsonText libs hlegible, Option.bind_some,
    Option.bind_some]
  by_cases hkind : kind = .summary
  · rw [if_pos (by simpa using hkind)]
    subst hkind
    cases message <;>
      simp only [messageFields, Option.some.injEq, Prod.mk.injEq, reduceCtorEq, false_and] at h
    case summary items more =>
      rw [← h.2]
      exact readSummaryBody_tagged libs fun item hitem => readSummary_writeSummary libs.spelling
        (htyped item hitem).1 (htyped item hitem).2 (hfinite items more rfl item hitem)
  · rw [if_neg (by simpa using hkind)]
    exact readMessage_writeMessage libs.spelling htyped hfinite h

/-- JSON starts with a brace, so it is neither of the envelopes. -/
theorem decode_jsonText (hvalid : validateMessage libs message = .ok ()) (htyped : message.Typed)
    (h : messageFields libs.spelling message = some (kind, fields))
    (hsize : (jsonText libs (.object (("t", .string kind.name) :: fields))).length ≤
      maxMessageBytes) :
    decode libs (jsonText libs (.object (("t", .string kind.name) :: fields))) = .ok message := by
  have hfinite : ∀ items more, message = .summary items more →
      ∀ item ∈ items, OrderFinite item.pinOrder := by
    rintro items more rfl item hitem
    simp only [validateMessage, bind_ok_iff, exists_unit, forM_ok_iff] at hvalid
    exact (checkSummary_ok (hvalid.2 item hitem)).2.2
  have hparse := parseJson_jsonText libs htyped hfinite h
  obtain ⟨tail, htail⟩ := jsonText_tagged libs (spelled_name kind).2.1 fields
  have hchunk : fileChunkMagic.isPrefixOf
      (jsonText libs (.object (("t", .string kind.name) :: fields))) = false := by
    rw [htail]
    rfl
  have hitems : itemsMagic.isPrefixOf
      (jsonText libs (.object (("t", .string kind.name) :: fields))) = false := by
    rw [htail]
    rfl
  rw [decode, if_neg (not_lt.2 hsize), if_neg (by rw [hchunk]; decide),
    if_neg (by rw [hitems]; decide)]
  simp only [hparse]
  exact checked_eq libs hvalid

theorem decode_writeFileChunk {index : ℕ} (hindex : index < 2 ^ 64)
    (hvalid : validateMessage libs (.fileChunk index bytes) = .ok ()) :
    decode libs (writeFileChunk index bytes) = .ok (.fileChunk index bytes) := by
  have hsize : bytes.length ≤ fileChunkBytes := by
    simpa [validateMessage, ensure_ok_iff] using hvalid
  have hfits : fileChunkHeaderBytes + fileChunkBytes ≤ maxMessageBytes := by decide
  have hlength : (writeFileChunk index bytes).length = fileChunkHeaderBytes + bytes.length := by
    simp [writeFileChunk, fileChunkMagic, fileChunkHeaderBytes]
    omega
  have hindexAt : ((writeFileChunk index bytes).drop 4).take 8 = toBigEndian 8 index := by
    rw [writeFileChunk, List.append_assoc, List.append_assoc, List.drop_left' (by rfl),
      List.take_left' (length_toBigEndian _ _)]
  have hlengthAt : ((writeFileChunk index bytes).drop 12).take 4 =
      toBigEndian 4 bytes.length := by
    rw [writeFileChunk, List.append_assoc, List.drop_left' (by simp [fileChunkMagic]),
      List.take_left' (length_toBigEndian _ _)]
  have hbytesAt : (writeFileChunk index bytes).drop fileChunkHeaderBytes = bytes := by
    rw [writeFileChunk, List.drop_left' (by simp [fileChunkMagic, fileChunkHeaderBytes])]
  have hindexValue : ofBigEndian (toBigEndian 8 index) = index :=
    ofBigEndian_toBigEndian (by omega)
  have hlengthValue : ofBigEndian (toBigEndian 4 bytes.length) = bytes.length := by
    refine ofBigEndian_toBigEndian ?_
    unfold fileChunkBytes at hsize
    omega
  have hmagic : fileChunkMagic.isPrefixOf (writeFileChunk index bytes) = true := by
    rw [List.isPrefixOf_iff_prefix, writeFileChunk, List.append_assoc, List.append_assoc]
    exact List.prefix_append _ _
  rw [decode, if_neg (by omega), if_pos hmagic, decodeFileChunk]
  simp only [hindexAt, hlengthAt, hbytesAt, hindexValue, hlengthValue, hvalid]
  rw [if_neg (by omega)]
  simp only [bind, Except.bind]
  rw [if_neg (by omega)]
  rfl

def entryOf (item : SyncItem) : ℕ × Bool :=
  ((payload item).1.length, (payload item).2)

theorem length_payload_le (item : SyncItem) : (payload item).1.length ≤ item.contentBytes := by
  unfold payload SyncItem.contentBytes
  split
  · rw [length_utf8]
    omega
  · exact Nat.le_add_left _ _

/-- A payload put back into the item it was taken from. -/
theorem fillItem_payload (h : item.content = "" ∨ item.binaryContent = []) :
    fillItem (bare item) (payload item).1 (payload item).2 = .ok item := by
  unfold payload
  split
  · rename_i hempty
    simp only [fillItem, fromUtf8_utf8, bare]
    rw [← hempty]
    rfl
  · rename_i hbinary
    have htext : item.content = "" := h.resolve_right hbinary
    simp only [fillItem, bare]
    rw [← htext]
    rfl

section

variable {ε α β : Type}

theorem mapM_eq_ok {f : α → Except ε β} {g : α → β} {xs : List α}
    (h : ∀ x ∈ xs, f x = .ok (g x)) : xs.mapM f = .ok (xs.map g) := by
  induction xs with
  | nil => rfl
  | cons x xs ih =>
    rw [List.mapM_cons, h x (List.mem_cons_self ..),
      ih fun y hy => h y (List.mem_cons_of_mem _ hy)]
    rfl

end

/-- The ranges of payloads that follow each other from `start`. -/
def spansOf : ℕ → List SyncItem → List (ℕ × ℕ × Bool)
  | _, [] => []
  | start, item :: items =>
    (start, start + (payload item).1.length, (payload item).2) ::
      spansOf (start + (payload item).1.length) items

def payloadsOf (items : List SyncItem) : List (List UInt8) :=
  items.map fun item => (payload item).1

theorem ranges_eq (hsize : ∀ item ∈ items, (payload item).1.length ≤ maxContentBytes)
    {length start : ℕ} (hlength : start + (payloadsOf items).flatten.length = length) :
    ranges length start (items.map entryOf) = .ok (spansOf start items) := by
  induction items generalizing start with
  | nil =>
    rw [List.map_nil, ranges, if_neg (by simpa [payloadsOf] using hlength)]
    rfl
  | cons item items ih =>
    have hitem := hsize item (List.mem_cons_self ..)
    have hsplit : (payloadsOf (item :: items)).flatten.length =
        (payload item).1.length + (payloadsOf items).flatten.length := by
      simp [payloadsOf]
    rw [hsplit] at hlength
    have hrest := @ih (fun other hother => hsize other (List.mem_cons_of_mem _ hother))
      (start + (payload item).1.length) (by omega)
    rw [List.map_cons, entryOf, ranges, if_neg (by omega), if_neg (by omega), hrest]
    rfl

/-- Every payload is found in its range and put back. -/
theorem fill_spans (hone : ∀ item ∈ items, item.content = "" ∨ item.binaryContent = [])
    (head : List UInt8) :
    ((items.map bare).zip (spansOf head.length items)).mapM (fun (item, start, stop, binary) =>
      fillItem item (((head ++ (payloadsOf items).flatten).drop start).take (stop - start)) binary) =
      .ok items := by
  induction items generalizing head with
  | nil => rfl
  | cons item items ih =>
    have hsplit : head ++ (payloadsOf (item :: items)).flatten =
        (head ++ (payload item).1) ++ (payloadsOf items).flatten := by
      simp [payloadsOf]
    have hslice : ((head ++ (payloadsOf (item :: items)).flatten).drop head.length).take
        (head.length + (payload item).1.length - head.length) = (payload item).1 := by
      rw [hsplit, List.append_assoc, List.drop_left' rfl, Nat.add_sub_cancel_left,
        List.take_left' rfl]
    have hrest := ih (fun other hother => hone other (List.mem_cons_of_mem _ hother))
      (head ++ (payload item).1)
    rw [List.length_append, ← hsplit] at hrest
    rw [List.map_cons, spansOf, List.zip_cons_cons, List.mapM_cons]
    dsimp only
    rw [hslice, fillItem_payload (hone item (List.mem_cons_self ..)), hrest]
    rfl

theorem readHeader_writeHeader
    (hitems : ∀ item ∈ items, StampTyped item.createdAt ∧ StampTyped item.pinUpdatedAt ∧
      OrderFinite item.pinOrder) {table : List (ℕ × Bool)}
    (htable : ∀ entry ∈ table, entry.1 < 2 ^ 32) :
    readHeader libs (writeHeader items table) = some (items.map bare, table) := by
  obtain ⟨fields, hfields⟩ : ∃ fields, fields = [("items", ofList writeItem items),
    ("payloads", ofList writePayload table)] := ⟨_, rfl⟩
  have hpayload : ∀ entry ∈ table, readPayload (writePayload entry) = some entry := by
    intro entry hentry
    simp only [writePayload, readPayload, asU32_ofNat (htable entry hentry), asBool]
    rfl
  have hread : required (asList (readItem libs.spelling)) fields "items" =
      some (items.map bare) :=
    @required_of _ _ _ _ (ofList writeItem items) _ (by simp [hfields])
      (asList_ofList_map fun item hitem => readItem_writeItem libs.spelling (hitems item hitem).1
        (hitems item hitem).2.1 (hitems item hitem).2.2)
  have hpayloads : required (asList readPayload) fields "payloads" = some table :=
    @required_of _ _ _ _ (ofList writePayload table) _ (by simp [hfields])
      (asList_ofList hpayload)
  rw [writeHeader, ← hfields, readHeader, structFields]
  simp [hread, hpayloads]

def headerOf (items : List SyncItem) : List UInt8 :=
  jsonText libs (writeHeader items (items.map entryOf))

def totalOf (items : List SyncItem) : ℕ :=
  headBytes + (headerOf libs items).length + (payloadsOf items).flatten.length

def headOf (items : List SyncItem) : List UInt8 :=
  itemsMagic ++ toBigEndian 4 (totalOf libs items) ++ toBigEndian 4 (headerOf libs items).length ++
    headerOf libs items

def envelope (items : List SyncItem) : List UInt8 :=
  headOf libs items ++ (payloadsOf items).flatten

theorem itemsFrame_eq {items : List SyncItem}
    (hsize : ∀ item ∈ items, (payload item).1.length ≤ maxContentBytes) :
    itemsFrame libs items =
      if maxMessageBytes < totalOf libs items then
        .error (.messageTooLarge (totalOf libs items) maxMessageBytes)
      else .ok ⟨headOf libs items, payloadsOf items⟩ := by
  have htable : items.mapM tableEntry = .ok (items.map entryOf) := by
    refine mapM_eq_ok fun item hitem => ?_
    have hbytes : ¬ 2 ^ 32 ≤ (payload item).1.length := by
      have := hsize item hitem
      unfold maxContentBytes at this
      omega
    exact if_neg hbytes
  rw [itemsFrame, htable]
  rfl

theorem length_headOf (items : List SyncItem) :
    (headOf libs items).length = headBytes + (headerOf libs items).length := by
  simp [headOf, itemsMagic, headBytes]
  omega

theorem length_envelope (items : List SyncItem) :
    (envelope libs items).length = totalOf libs items := by
  rw [envelope, List.length_append, length_headOf, totalOf]

section

variable {items : List SyncItem} (htotal : totalOf libs items ≤ maxMessageBytes)

include htotal

theorem fieldAt_total : fieldAt (envelope libs items) 4 = .ok (totalOf libs items) := by
  have hlength := length_envelope libs items
  have hfield : ((envelope libs items).drop 4).take 4 = toBigEndian 4 (totalOf libs items) := by
    rw [envelope, headOf, List.append_assoc, List.append_assoc, List.append_assoc,
      List.drop_left' (by rfl), List.take_left' (length_toBigEndian _ _)]
  have hbound : totalOf libs items < 256 ^ 4 := by
    unfold maxMessageBytes at htotal
    omega
  have hlong : ¬ (envelope libs items).length < 4 + 4 := by
    rw [hlength, totalOf, headBytes]
    omega
  rw [fieldAt, if_neg hlong, hfield, ofBigEndian_toBigEndian hbound]

theorem fieldAt_header : fieldAt (envelope libs items) 8 = .ok (headerOf libs items).length := by
  have hlength := length_envelope libs items
  have hfield : ((envelope libs items).drop 8).take 4 =
      toBigEndian 4 (headerOf libs items).length := by
    rw [envelope, headOf, List.append_assoc, List.append_assoc,
      List.drop_left' (by simp [itemsMagic]), List.take_left' (length_toBigEndian _ _)]
  have hbound : (headerOf libs items).length < 256 ^ 4 := by
    rw [totalOf] at htotal
    unfold maxMessageBytes at htotal
    omega
  have hlong : ¬ (envelope libs items).length < 8 + 4 := by
    rw [hlength, totalOf, headBytes]
    omega
  rw [fieldAt, if_neg hlong, hfield, ofBigEndian_toBigEndian hbound]

end

theorem header_slice (items : List SyncItem) :
    ((envelope libs items).drop headBytes).take (headerOf libs items).length =
      headerOf libs items := by
  rw [envelope, headOf, List.append_assoc,
    List.drop_left' (by simp [itemsMagic, headBytes]), List.take_left' rfl]

theorem legible_writeHeader (items : List SyncItem) (table : List (ℕ × Bool)) :
    Legible libs.tokens depthLimit (writeHeader items table) := by
  have hpayload : ∀ entry, Legible libs.tokens 125 (writePayload entry) := by
    intro entry
    refine .array ?_
    simp only [List.forall_mem_cons, List.not_mem_nil, false_implies, implies_true, and_true]
    exact ⟨legible_ofNat _, legible_bool _⟩
  have hheader : Legible libs.tokens 127 (writeHeader items table) := by
    refine .object ?_
    simp only [List.forall_mem_cons, List.not_mem_nil, false_implies, implies_true, and_true]
    exact ⟨legible_ofList fun item _ => legible_writeItem libs.faithful item,
      legible_ofList fun entry _ => hpayload entry⟩
  exact hheader

/-- A batch comes back from its envelope. -/
theorem decodeItems_envelope (hvalid : ∀ item ∈ items, checkItem libs item = .ok ())
    (htyped : ∀ item ∈ items, StampTyped item.createdAt ∧ StampTyped item.pinUpdatedAt)
    (htotal : totalOf libs items ≤ maxMessageBytes) :
    decodeItems libs (envelope libs items) = .ok items := by
  have hcheck := fun item hitem => checkItem_ok libs (hvalid item hitem)
  have hsize : ∀ item ∈ items, (payload item).1.length ≤ maxContentBytes := fun item hitem =>
    (length_payload_le item).trans (hcheck item hitem).2.2.2.2
  have hheader : (parseText libs (headerOf libs items)).bind (readHeader libs) =
      some (items.map bare, items.map entryOf) := by
    rw [headerOf, parseText_jsonText libs (legible_writeHeader libs _ _), Option.bind_some]
    refine readHeader_writeHeader libs (fun item hitem => ⟨(htyped item hitem).1,
      (htyped item hitem).2, (hcheck item hitem).2.2.1⟩) fun entry hentry => ?_
    obtain ⟨item, hitem, rfl⟩ := List.mem_map.1 hentry
    have := hsize item hitem
    unfold maxContentBytes at this
    change (payload item).1.length < 2 ^ 32
    omega
  have hlength := length_envelope libs items
  have hspans : ranges (envelope libs items).length (headBytes + (headerOf libs items).length)
      (items.map entryOf) = .ok (spansOf (headOf libs items).length items) := by
    rw [length_headOf]
    exact ranges_eq hsize (by rw [hlength, totalOf])
  have hlayout : layout libs (envelope libs items) =
      .ok (items.map bare, spansOf (headOf libs items).length items) := by
    rw [hlength] at hspans
    rw [layout, fieldAt_total libs htotal, fieldAt_header libs htotal]
    simp only [bind, Except.bind, hlength, header_slice, hheader, hspans, ne_eq, not_true_eq_false,
      if_false, List.length_map, pure, Except.pure]
    rw [if_neg (by rw [totalOf]; omega)]
  rw [decodeItems, hlayout]
  exact fill_spans (fun item hitem => (hcheck item hitem).2.2.2.1) (headOf libs items)

theorem decode_envelope (hvalid : validateMessage libs (.items items) = .ok ())
    (htyped : (SyncMessage.items items).Typed) (htotal : totalOf libs items ≤ maxMessageBytes) :
    decode libs (envelope libs items) = .ok (.items items) := by
  have hitems := hvalid
  simp only [validateMessage, bind_ok_iff, exists_unit, forM_ok_iff] at hitems
  have hlength := length_envelope libs items
  have hchunk : fileChunkMagic.isPrefixOf (envelope libs items) = false := by
    rw [envelope, headOf, List.append_assoc, List.append_assoc, List.append_assoc]
    rfl
  have hmagic : itemsMagic.isPrefixOf (envelope libs items) = true := by
    rw [List.isPrefixOf_iff_prefix, envelope, headOf, List.append_assoc, List.append_assoc,
      List.append_assoc]
    exact List.prefix_append _ _
  rw [decode, if_neg (by omega), if_neg (by rw [hchunk]; decide), if_pos hmagic,
    decodeItems_envelope libs hitems.2.1 htyped htotal]
  exact checked_eq libs hvalid

/-- The two ways to encode a message that is no chunk and no batch. -/
theorem encodeJson_cases (h : messageFields libs.spelling message = some (kind, fields)) :
    encodeJson libs message =
      if maxMessageBytes < (jsonText libs (.object (("t", .string kind.name) :: fields))).length then
        .error (.messageTooLarge
          (jsonText libs (.object (("t", .string kind.name) :: fields))).length maxMessageBytes)
      else .ok (jsonText libs (.object (("t", .string kind.name) :: fields))) := by
  rw [encodeJson, writeMessage, h]
  rfl

theorem exists_messageFields (hitems : ∀ items, message ≠ .items items) :
    ∃ kind fields, messageFields libs.spelling message = some (kind, fields) := by
  cases message
  case items items => exact absurd rfl (hitems items)
  all_goals exact ⟨_, _, rfl⟩

theorem encode_eq_encodeJson (hvalid : validateMessage libs message = .ok ())
    (hchunk : ∀ index bytes, message ≠ .fileChunk index bytes)
    (hitems : ∀ items, message ≠ .items items) : encode libs message = encodeJson libs message := by
  cases message
  case fileChunk index bytes => exact absurd rfl (hchunk index bytes)
  case items items => exact absurd rfl (hitems items)
  all_goals
    simp only [encode, hvalid]
    rfl

/-- A valid message is encoded, or too large for it, and decodes to itself. -/
theorem encode_cases (hvalid : validateMessage libs message = .ok ()) (htyped : message.Typed) :
    (∃ size, encode libs message = .error (.messageTooLarge size maxMessageBytes)) ∨
      ∃ bytes, encode libs message = .ok bytes ∧ decode libs bytes = .ok message := by
  by_cases hchunk : ∃ index bytes, message = .fileChunk index bytes
  · obtain ⟨index, bytes, rfl⟩ := hchunk
    refine Or.inr ⟨writeFileChunk index bytes, ?_, decode_writeFileChunk libs htyped hvalid⟩
    rw [encode, hvalid]
    rfl
  by_cases hitems : ∃ items, message = .items items
  · obtain ⟨items, rfl⟩ := hitems
    have hcheck := hvalid
    simp only [validateMessage, bind_ok_iff, exists_unit, forM_ok_iff] at hcheck
    have hframe := @itemsFrame_eq libs items fun item hitem =>
      (length_payload_le item).trans (checkItem_ok libs (hcheck.2.1 item hitem)).2.2.2.2
    have hencode : encode libs (.items items) =
        (itemsFrame libs items).map ItemsFrame.toVec := by
      rw [encode, hvalid]
      rfl
    rw [hencode, hframe]
    split
    · exact Or.inl ⟨_, rfl⟩
    · rename_i htotal
      exact Or.inr ⟨_, rfl, decode_envelope libs hvalid htyped (not_lt.1 htotal)⟩
  push Not at hchunk hitems
  obtain ⟨kind, fields, hfields⟩ := exists_messageFields libs hitems
  rw [encode_eq_encodeJson libs hvalid hchunk hitems, encodeJson_cases libs hfields]
  split
  · exact Or.inl ⟨_, rfl⟩
  · rename_i hsize
    exact Or.inr ⟨_, rfl, decode_jsonText libs hvalid htyped hfields (not_lt.1 hsize)⟩

theorem validate_of_encode (h : encode libs message = .ok bytes) :
    validateMessage libs message = .ok () := by
  simp only [encode, bind_ok_iff, exists_unit] at h
  exact h.1

theorem exists_of_layout {spans : List (ℕ × ℕ × Bool)}
    (h : layout libs bytes = .ok (items, spans)) :
    ∃ value table, readHeader libs value = some (items, table) := by
  unfold layout at h
  obtain ⟨total, -, h⟩ := bind_ok_iff.1 h
  dsimp only at h
  split at h
  · obtain ⟨_, herror, -⟩ := bind_ok_iff.1 h
    cases herror
  obtain ⟨headerLen, -, h⟩ := bind_ok_iff.1 h
  split at h
  · obtain ⟨_, herror, -⟩ := bind_ok_iff.1 h
    cases herror
  split at h
  · cases h
  · rename_i held table hread
    obtain ⟨value, -, hheader⟩ := Option.bind_eq_some_iff.1 hread
    split at h
    · obtain ⟨_, herror, -⟩ := bind_ok_iff.1 h
      cases herror
    obtain ⟨found, -, h⟩ := bind_ok_iff.1 h
    cases h
    exact ⟨value, table, hheader⟩

theorem stamps_fillItem {filled : SyncItem} {binary : Bool}
    (h : fillItem item bytes binary = .ok filled) :
    filled.createdAt = item.createdAt ∧ filled.pinUpdatedAt = item.pinUpdatedAt := by
  unfold fillItem at h
  split at h
  · cases h
    exact ⟨rfl, rfl⟩
  split at h
  · cases h
  · cases h
    exact ⟨rfl, rfl⟩

theorem typed_decodeItems (h : decodeItems libs bytes = .ok items) :
    (SyncMessage.items items).Typed := by
  obtain ⟨⟨held, spans⟩, hlayout, hfill⟩ := bind_ok_iff.1 h
  obtain ⟨value, table, hheader⟩ := exists_of_layout libs hlayout
  simp only [readHeader, Option.bind_eq_bind, Option.bind_eq_some_iff] at hheader
  obtain ⟨fields, -, read, hread, _, -, hpair⟩ := hheader
  cases hpair
  obtain ⟨_, hlist⟩ := exists_of_required hread
  intro item hitem
  obtain ⟨⟨source, span⟩, hmem, hfilled⟩ := Lib.Tables.exists_of_mem_mapM hfill hitem
  obtain ⟨_, hsource⟩ := exists_of_mem_asList hlist source (List.of_mem_zip hmem).1
  obtain ⟨hcreated, hpinned, -⟩ := typed_of_readItem libs.spelling hsource
  obtain ⟨hsame, hsamePin⟩ := stamps_fillItem hfilled
  rw [hsame, hsamePin]
  exact ⟨hcreated, hpinned⟩

theorem valid_of_decodeFileChunk (h : decodeFileChunk libs bytes = .ok message) :
    validateMessage libs message = .ok () ∧ message.Typed := by
  unfold decodeFileChunk at h
  dsimp only at h
  split at h
  · obtain ⟨_, herror, -⟩ := bind_ok_iff.1 h
    cases herror
  split at h
  · obtain ⟨_, herror, -⟩ := bind_ok_iff.1 h
    cases herror
  obtain ⟨_, hvalid, h⟩ := bind_ok_iff.1 h
  cases h
  refine ⟨hvalid, ?_⟩
  have hlt := ofBigEndian_lt ((bytes.drop 4).take 8)
  have hle : ((bytes.drop 4).take 8).length ≤ 8 := List.length_take_le _ _
  have hpow : 256 ^ ((bytes.drop 4).take 8).length ≤ 256 ^ 8 :=
    Nat.pow_le_pow_right (by omega) hle
  change ofBigEndian ((bytes.drop 4).take 8) < 2 ^ 64
  omega

theorem typed_clampTimestamps (h : message.Typed) : (clampTimestamps message).Typed := by
  have hclamp : ∀ {stamp : Int}, StampTyped stamp → StampTyped (max stamp 0) := by
    intro stamp hstamp
    unfold StampTyped at hstamp ⊢
    omega
  cases message with
  | summary items more | items items =>
    intro item hitem
    obtain ⟨held, hheld, rfl⟩ := List.mem_map.1 hitem
    exact ⟨hclamp (h held hheld).1, hclamp (h held hheld).2⟩
  | hello version deviceId deviceName profile listenAddr sinceMs =>
    exact ⟨h.1, h.2.1, hclamp h.2.2⟩
  | group | probe | probeAck | request | fileRequest | fileChunk | fileUnavailable | fileChecksum =>
    exact h
  | done => exact h

theorem valid_of_checked {result : SyncMessage} (htyped : message.Typed)
    (h : checked libs message = .ok result) :
    validateMessage libs result = .ok () ∧ result.Typed := by
  simp only [checked, bind_ok_iff, exists_unit] at h
  obtain ⟨hvalid, hresult⟩ := h
  cases hresult
  exact ⟨hvalid, typed_clampTimestamps htyped⟩

theorem valid_of_decode (h : decode libs bytes = .ok message) :
    validateMessage libs message = .ok () ∧ message.Typed := by
  unfold decode at h
  split at h
  · cases h
  split at h
  · exact valid_of_decodeFileChunk libs h
  split at h
  · obtain ⟨items, hitems, hchecked⟩ := bind_ok_iff.1 h
    exact valid_of_checked libs (typed_decodeItems libs hitems) hchecked
  split at h
  · rename_i parsed hparse
    refine valid_of_checked libs ?_ h
    unfold parseJson at hparse
    split at hparse
    · obtain ⟨value, -, hread⟩ := Option.bind_eq_some_iff.1 hparse
      exact typed_of_readSummaryBody libs.spelling hread
    · obtain ⟨value, -, hread⟩ := Option.bind_eq_some_iff.1 hparse
      exact typed_of_readMessage libs.spelling hread
  · dsimp only at h
    split at h <;>
    · obtain ⟨_, -, herror⟩ := bind_ok_iff.1 h
      cases herror

/-- What is encoded decodes to the message it came from; what decodes is valid, has no
negative stamp, and is encoded to bytes that decode to it again unless it is too large. -/
theorem codec_round_trip :
    (∀ message : SyncMessage, message.Typed → ∀ bytes, encode libs message = .ok bytes →
      decode libs bytes = .ok message) ∧
    ∀ bytes message, decode libs bytes = .ok message →
      validateMessage libs message = .ok () ∧ NoNegative message ∧
        ((∃ size, encode libs message = .error (.messageTooLarge size maxMessageBytes)) ∨
          ∃ again, encode libs message = .ok again ∧ decode libs again = .ok message) := by
  refine ⟨fun message htyped bytes hencode => ?_, fun bytes message hdecode => ?_⟩
  · rcases encode_cases libs (validate_of_encode libs hencode) htyped with
      ⟨size, hlarge⟩ | ⟨again, hagain, hdecode⟩
    · rw [hencode] at hlarge
      cases hlarge
    · rw [hencode] at hagain
      cases hagain
      exact hdecode
  · obtain ⟨hvalid, htyped⟩ := valid_of_decode libs hdecode
    exact ⟨hvalid, noNegative_of_validate libs hvalid, encode_cases libs hvalid htyped⟩

/-- Two bytes of a number, the higher first. -/
def pairOf (n : UInt16) : List Char :=
  [Char.ofNat (n.toNat / 256), Char.ofNat (n.toNat % 256)]

def ofPair (high low : Char) : UInt16 :=
  UInt16.ofNat (high.toNat * 256 + low.toNat)

theorem toNat_ofNat_byte (n : ℕ) (h : n < 256) : (Char.ofNat n).toNat = n := by
  have hvalid : n.isValidChar := Or.inl (by omega)
  rw [Char.ofNat, dif_pos hvalid]
  rfl

theorem ofPair_pairOf (n : UInt16) :
    ofPair (Char.ofNat (n.toNat / 256)) (Char.ofNat (n.toNat % 256)) = n := by
  have hlt := n.toNat_lt
  rw [ofPair, toNat_ofNat_byte _ (by omega), toNat_ofNat_byte _ (by omega)]
  have hsum : n.toNat / 256 * 256 + n.toNat % 256 = n.toNat := by omega
  rw [hsum, UInt16.ofNat_toNat]

theorem ofNat_byte (n : UInt8) : UInt8.ofNat (Char.ofNat n.toNat).toNat = n := by
  rw [toNat_ofNat_byte _ n.toNat_lt, UInt8.ofNat_toNat]

/-- An address by its bytes behind its family. -/
def showAddr : SocketAddr → List Char
  | ⟨.v4 a b c d, port⟩ => '4' :: ([a, b, c, d].map fun byte => Char.ofNat byte.toNat) ++ pairOf port
  | ⟨.v6 segments, port⟩ => '6' :: segments.flatMap pairOf ++ pairOf port

def readAddr : List Char → Option SocketAddr
  | ['4', a, b, c, d, p, q] =>
    some ⟨.v4 (.ofNat a.toNat) (.ofNat b.toNat) (.ofNat c.toNat) (.ofNat d.toNat), ofPair p q⟩
  | ['6', a, b, c, d, e, f, g, h, i, j, k, l, m, n, o, p, q, r] =>
    some ⟨.v6 [ofPair a b, ofPair c d, ofPair e f, ofPair g h, ofPair i j, ofPair k l, ofPair m n,
      ofPair o p], ofPair q r⟩
  | _ => none

theorem readAddr_showAddr (ip : IpAddr) (port : UInt16)
    (h : ∀ segments, ip = .v6 segments → segments.length = 8) :
    readAddr (showAddr ⟨ip, port⟩) = some ⟨ip, port⟩ := by
  cases ip with
  | v4 a b c d =>
    simp [showAddr, pairOf, readAddr, ofNat_byte, ofPair_pairOf]
  | v6 segments =>
    have hlength := h segments rfl
    match segments, hlength with
    | [a, b, c, d, e, f, g, i], _ => simp [showAddr, pairOf, readAddr, ofPair_pairOf]

theorem length_of_readAddr {text : List Char} {segments : List UInt16} {port : UInt16}
    (h : readAddr text = some ⟨.v6 segments, port⟩) : segments.length = 8 := by
  unfold readAddr at h
  split at h
  · simp at h
  · cases h
    rfl
  · cases h

def sampleLibraries : Libraries where
  host := sampleHost
  crypto := openCrypto
  tokens := plainTokens
  faithful := plainTokens_faithful
  spelling := {
    display := fun addr => String.ofList (showAddr addr)
    parseAddr := fun text => readAddr text.toList
    nearest := fun value => value
    parse_display := fun ip port h => by rw [String.toList_ofList, readAddr_showAddr ip port h]
    parse_segments := fun _ _ _ h => length_of_readAddr h }
  failure := fun _ => "expected value"

def note : SyncItem :=
  ⟨"n", "a \x22quote\x22", [], none, some "editor", none, "text", 7, false, "h", "desk", true, some 0, 3⟩

def picture : SyncItem :=
  ⟨"p", "", [0, 255], none, none, none, "image/png", 8, false, "i", "desk", false, none, 0⟩

theorem isOk_encode_items {items : List SyncItem} {table : List (ℕ × Bool)}
    (hvalid : validateMessage libs (.items items) = .ok ()) (htable : items.mapM tableEntry = .ok table)
    (hsize : headBytes + (jsonText libs (writeHeader items table)).length +
      (items.map fun item => (payload item).1).flatten.length ≤ maxMessageBytes) :
    (encode libs (.items items)).isOk = true := by
  simp only [encode, itemsFrame, hvalid, htable, bind, Except.bind, if_neg (not_lt.2 hsize)]
  rfl

theorem isOk_note_picture : (encode sampleLibraries (.items [note, picture])).isOk = true := by
  have hheader : (jsonText sampleLibraries
      (writeHeader [note, picture] [(9, false), (2, true)])).length ≤ 1000 := by
    rw [jsonText, length_utf8, String.utf8ByteSize_ofList]
    decide +kernel
  have hpayloads : ([note, picture].map fun item => (payload item).1).flatten.length = 11 := by
    decide
  have htable : [note, picture].mapM tableEntry = .ok [(9, false), (2, true)] := by decide
  refine isOk_encode_items sampleLibraries (by decide) htable ?_
  rw [hpayloads]
  exact (Nat.add_le_add_right (Nat.add_le_add_left hheader _) _).trans (by decide)

theorem batch_round_trip :
    ∃ bytes, encode sampleLibraries (.items [note, picture]) = .ok bytes ∧
      decode sampleLibraries bytes = .ok (.items [note, picture]) ∧
      NoNegative (.items [note, picture]) := by
  have hok := isOk_note_picture
  have htyped : (SyncMessage.items [note, picture]).Typed := by
    intro item hitem
    simp only [List.mem_cons, List.not_mem_nil, or_false] at hitem
    rcases hitem with rfl | rfl <;> exact ⟨⟨by decide, by decide⟩, by decide, by decide⟩
  cases hencode : encode sampleLibraries (.items [note, picture]) with
  | error error =>
    rw [hencode] at hok
    cases hok
  | ok bytes =>
    have hdecode := (codec_round_trip sampleLibraries).1 _ htyped bytes hencode
    exact ⟨bytes, rfl, hdecode, ((codec_round_trip sampleLibraries).2 bytes _ hdecode).2.1⟩

end CopyPaste.Wire.Codec
