import CopyPaste.Wire.Messages

/-!
What the JSON forms are within: what is read has numbers of its types, and what is
written is not too deep to be read.
-/

namespace CopyPaste.Wire.Messages

open Lib.JsonText Lib.JsonFields Merge.Comparator Merge.Payload Peer.Transfer Peers.Group

variable (spelling : Spelling)

variable {value : Json} {stamp : Int} {fields : List (String × Json)} {key : String}
  {message : SyncMessage}

theorem typed_of_asI64 (h : asI64 value = some stamp) : StampTyped stamp :=
  range_of_asWhole h

theorem typed_of_required (h : required asI64 fields key = some stamp) : StampTyped stamp := by
  obtain ⟨_, hvalue⟩ := exists_of_required h
  exact typed_of_asI64 hvalue

theorem typed_of_withDefault (h : withDefault 0 asI64 fields key = some stamp) :
    StampTyped stamp := by
  rcases exists_of_withDefault h with rfl | ⟨_, hvalue⟩
  · exact ⟨by omega, by omega⟩
  · exact typed_of_asI64 hvalue

theorem typed_of_readSummary {summary : ItemSummary}
    (h : readSummary spelling value = some summary) :
    StampTyped summary.createdAt ∧ StampTyped summary.pinUpdatedAt := by
  simp only [readSummary, Option.bind_eq_bind, Option.bind_eq_some_iff] at h
  obtain ⟨_, -, _, -, _, hcreated, _, -, _, -, _, -, _, -, _, -, _, hpinned, h⟩ := h
  cases h
  exact ⟨typed_of_required hcreated, typed_of_withDefault hpinned⟩

theorem typed_of_readItem {item : SyncItem} (h : readItem spelling value = some item) :
    StampTyped item.createdAt ∧ StampTyped item.pinUpdatedAt ∧ bare item = item := by
  unfold readItem at h
  obtain ⟨_, -, h⟩ := Option.bind_eq_some_iff.1 h
  obtain ⟨_, -, h⟩ := Option.bind_eq_some_iff.1 h
  obtain ⟨_, -, h⟩ := Option.bind_eq_some_iff.1 h
  obtain ⟨_, -, h⟩ := Option.bind_eq_some_iff.1 h
  obtain ⟨_, -, h⟩ := Option.bind_eq_some_iff.1 h
  obtain ⟨_, -, h⟩ := Option.bind_eq_some_iff.1 h
  obtain ⟨_, hcreated, h⟩ := Option.bind_eq_some_iff.1 h
  obtain ⟨_, -, h⟩ := Option.bind_eq_some_iff.1 h
  obtain ⟨_, -, h⟩ := Option.bind_eq_some_iff.1 h
  obtain ⟨_, -, h⟩ := Option.bind_eq_some_iff.1 h
  obtain ⟨_, -, h⟩ := Option.bind_eq_some_iff.1 h
  obtain ⟨_, -, h⟩ := Option.bind_eq_some_iff.1 h
  obtain ⟨_, hpinned, h⟩ := Option.bind_eq_some_iff.1 h
  cases h
  exact ⟨typed_of_required hcreated, typed_of_withDefault hpinned, rfl⟩

theorem typed_of_readProfile {profile : DeviceProfile} (h : readProfile value = some profile) :
    ProfileTyped profile := by
  simp only [readProfile, Option.bind_eq_bind, Option.bind_eq_some_iff] at h
  obtain ⟨_, -, _, -, _, hversion, _, -, _, -, _, -, _, -, _, -, _, -, h⟩ := h
  cases h
  rintro version rfl
  obtain ⟨_, hvalue⟩ := exists_of_optionField hversion
  exact lt_of_asNat hvalue

theorem length_of_asKey {name : String} {key : Bytes} (h : required asKey fields name = some key) :
    key.length = 32 := by
  obtain ⟨value, hvalue⟩ := exists_of_required h
  unfold asKey at hvalue
  obtain ⟨bytes, -, hbytes⟩ := Option.bind_eq_some_iff.1 hvalue
  split at hbytes
  · rename_i hlength
    cases hbytes
    exact hlength
  · cases hbytes

theorem lt_of_required {bound n : ℕ} (h : required (asNat bound) fields key = some n) :
    n < bound := by
  obtain ⟨_, hvalue⟩ := exists_of_required h
  exact lt_of_asNat hvalue

theorem typed_of_readMember {member : Member} (h : readMember spelling value = some member) :
    MemberTyped member := by
  simp only [readMember, Option.bind_eq_bind, Option.bind_eq_some_iff] at h
  obtain ⟨_, -, _, -, _, -, _, hsigning, _, hexchange, _, hadmission, _, hrevision, _, hprofile,
    _, haddr, h⟩ := h
  cases h
  obtain ⟨_, hread⟩ := exists_of_required hprofile
  refine ⟨length_of_asKey hsigning, length_of_asKey hexchange, lt_of_required hadmission,
    lt_of_required hrevision, typed_of_readProfile hread, ?_⟩
  rintro ⟨ip, port⟩ rfl segments rfl
  obtain ⟨text, htext⟩ := exists_of_optionField haddr
  obtain ⟨addr, -, hparse⟩ := Option.bind_eq_some_iff.1 htext
  exact spelling.parse_segments addr segments port hparse

theorem typed_of_readSnapshot {snapshot : GroupSnapshot}
    (h : readSnapshot spelling value = some snapshot) : RosterTyped snapshot.roster := by
  simp only [readSnapshot, Option.bind_eq_bind, Option.bind_eq_some_iff] at h
  obtain ⟨_, -, roster, hroster, _, -, h⟩ := h
  cases h
  obtain ⟨_, hread⟩ := exists_of_required hroster
  simp only [readRoster, Option.bind_eq_bind, Option.bind_eq_some_iff] at hread
  obtain ⟨_, -, _, -, members, hmembers, removed, hremoved, hread⟩ := hread
  cases hread
  obtain ⟨_, hmembers⟩ := exists_of_required hmembers
  obtain ⟨_, hremoved⟩ := exists_of_required hremoved
  refine ⟨fun entry hentry => ?_, fun entry hentry => ?_⟩
  · obtain ⟨_, hmember⟩ := exists_of_mem_asTable hmembers entry hentry
    exact typed_of_readMember spelling hmember
  · obtain ⟨_, hgeneration⟩ := exists_of_mem_asTable hremoved entry hentry
    exact lt_of_asNat hgeneration

theorem typed_of_optionProfile {profile : Option DeviceProfile}
    (h : optionField readProfile fields "profile" = some profile) :
    ∀ p ∈ profile, ProfileTyped p := by
  rintro p rfl
  obtain ⟨_, hread⟩ := exists_of_optionField h
  exact typed_of_readProfile hread

theorem typed_of_readProbe {version nonce : ℕ} {profile : Option DeviceProfile}
    (h : readProbe value = some (version, nonce, profile)) :
    version < 2 ^ 32 ∧ nonce < 2 ^ 64 ∧ ∀ p ∈ profile, ProfileTyped p := by
  simp only [readProbe, Option.bind_eq_bind, Option.bind_eq_some_iff] at h
  obtain ⟨_, -, _, hversion, _, hnonce, _, hprofile, h⟩ := h
  cases h
  exact ⟨lt_of_required hversion, lt_of_required hnonce, typed_of_optionProfile hprofile⟩

theorem typed_of_summaries {items : List ItemSummary}
    (h : required (asList (readSummary spelling)) fields "items" = some items) :
    ∀ item ∈ items, StampTyped item.createdAt ∧ StampTyped item.pinUpdatedAt := by
  obtain ⟨_, hitems⟩ := exists_of_required h
  intro item hitem
  obtain ⟨_, hread⟩ := exists_of_mem_asList hitems item hitem
  exact typed_of_readSummary spelling hread

theorem typed_of_readBody {kind : Kind} {body : Json}
    (h : readBody spelling kind body = some message) : message.Typed := by
  cases kind with
  | group =>
    simp only [readBody, readGroup, Option.bind_eq_bind, Option.bind_eq_some_iff] at h
    obtain ⟨_, -, _, hversion, _, hsnapshot, h⟩ := h
    cases h
    obtain ⟨_, hread⟩ := exists_of_required hsnapshot
    exact ⟨lt_of_required hversion, typed_of_readSnapshot spelling hread⟩
  | probe | probeAck =>
    obtain ⟨_, hprobe, rfl⟩ := Option.map_eq_some_iff.1 h
    exact typed_of_readProbe hprobe
  | hello =>
    simp only [readBody, readHello, Option.bind_eq_bind, Option.bind_eq_some_iff] at h
    obtain ⟨_, -, _, hversion, _, -, _, -, _, hprofile, _, -, _, hsince, h⟩ := h
    cases h
    exact ⟨lt_of_required hversion, typed_of_optionProfile hprofile, typed_of_withDefault hsince⟩
  | summary =>
    simp only [readBody, readPage, Option.bind_eq_bind, Option.bind_eq_some_iff] at h
    obtain ⟨_, -, _, hitems, _, -, h⟩ := h
    cases h
    exact typed_of_summaries spelling hitems
  | request =>
    simp only [readBody, readRequest, Option.bind_eq_bind, Option.bind_eq_some_iff] at h
    obtain ⟨_, -, _, -, h⟩ := h
    cases h
    trivial
  | fileRequest =>
    simp only [readBody, readFileRequest, Option.bind_eq_bind, Option.bind_eq_some_iff] at h
    obtain ⟨_, -, _, hversion, _, -, _, -, _, hsize, _, hindex, h⟩ := h
    cases h
    exact ⟨lt_of_required hversion, lt_of_required hsize, lt_of_required hindex⟩
  | fileChunk =>
    simp only [readBody, readFileChunk, Option.bind_eq_bind, Option.bind_eq_some_iff] at h
    obtain ⟨_, -, _, hindex, _, -, h⟩ := h
    cases h
    exact lt_of_required hindex
  | fileUnavailable | fileChecksum =>
    simp only [readBody, readTextMessage, Option.bind_eq_bind, Option.bind_eq_some_iff] at h
    obtain ⟨_, -, _, -, h⟩ := h
    cases h
    trivial
  | done =>
    simp only [readBody] at h
    unfold readDone at h
    split at h <;> cases h <;> trivial

theorem typed_of_readMessage (h : readMessage spelling value = some message) : message.Typed := by
  simp only [readMessage, Option.bind_eq_bind, Option.bind_eq_some_iff] at h
  obtain ⟨_, -, _, -, hbody⟩ := h
  exact typed_of_readBody spelling hbody

theorem typed_of_readSummaryBody (h : readSummaryBody spelling value = some message) :
    message.Typed := by
  simp only [readSummaryBody, Option.bind_eq_bind, Option.bind_eq_some_iff] at h
  obtain ⟨_, -, _, -, _, hitems, _, -, h⟩ := h
  cases h
  exact typed_of_summaries spelling hitems

section

variable {tokens : Tokens} {depth : ℕ}

theorem legible_ofNat (value : ℕ) : Legible tokens depth (ofNat value) :=
  legible_ofWhole value

theorem legible_text (text : Option String) : Legible tokens depth (ofOption Json.string text) :=
  legible_ofOption fun value _ => .string depth value

theorem legible_string (text : String) : Legible tokens depth (.string text) :=
  .string depth text

theorem legible_bool (value : Bool) : Legible tokens depth (.bool value) :=
  .bool depth value

theorem legible_writeSummary {summary : ItemSummary}
    (horder : ∀ rank ∈ summary.pinOrder, Keeps tokens rank) :
    Legible tokens (depth + 1) (writeSummary summary) := by
  refine .object ?_
  simp only [List.forall_mem_cons, List.not_mem_nil, false_implies, implies_true, and_true,
    legible_string, legible_bool, legible_ofWhole, true_and]
  exact legible_ofOption fun rank hrank => legible_ofDouble (horder rank hrank)

theorem legible_writeProfile (profile : DeviceProfile) :
    Legible tokens (depth + 1) (writeProfile profile) := by
  refine .object ?_
  simp only [profileFields, List.forall_mem_append, List.forall_mem_cons, List.not_mem_nil,
    false_implies, implies_true, and_true, legible_string, legible_text, true_and]
  exact ⟨legible_ofOption fun value _ => legible_ofNat value,
    legible_present fun value _ => legible_string value⟩

theorem legible_writeMember (member : Member) :
    Legible tokens (depth + 2) (writeMember spelling member) := by
  refine .object ?_
  simp only [memberFields, List.forall_mem_cons, List.not_mem_nil, false_implies, implies_true,
    and_true, legible_string, legible_ofNat, legible_writeProfile, true_and]
  exact ⟨legible_ofList fun byte _ => legible_ofNat _, legible_ofList fun byte _ => legible_ofNat _,
    legible_ofOption fun addr _ => legible_string _⟩

theorem legible_writeSnapshot (snapshot : GroupSnapshot) :
    Legible tokens (depth + 5) (writeSnapshot spelling snapshot) := by
  have hroster : Legible tokens (depth + 4) (writeRoster spelling snapshot.roster) := by
    refine .object ?_
    simp only [List.forall_mem_cons, List.not_mem_nil, false_implies, implies_true, and_true,
      legible_string, true_and]
    exact ⟨legible_ofTable (legible_writeMember spelling) _, legible_ofTable legible_ofNat _⟩
  refine .object ?_
  simp only [List.forall_mem_cons, List.not_mem_nil, false_implies, implies_true, and_true,
    legible_string, hroster]

variable (hfaithful : tokens.Faithful)

include hfaithful

theorem legible_writeItem (item : SyncItem) : Legible tokens (depth + 1) (writeItem item) := by
  have horder : Legible tokens depth (ofOption ofDouble item.pinOrder) :=
    legible_ofOption fun rank _ => legible_ofDouble (keeps_of_faithful hfaithful rank)
  refine .object ?_
  simp only [itemFields, List.forall_mem_append, List.forall_mem_cons, List.not_mem_nil,
    false_implies, implies_true, and_true, legible_string, legible_bool, legible_ofWhole, horder,
    true_and]
  have htext : ∀ (key : String) (value : Option String),
      ∀ field ∈ present key Json.string value, Legible tokens depth field.2 :=
    fun key value => legible_present fun text _ => legible_string text
  exact ⟨⟨htext _ _, htext _ _⟩, htext _ _⟩

/-- A message is written to a small depth. -/
theorem legible_messageFields {kind : Kind}
    (h : messageFields spelling message = some (kind, fields)) :
    ∀ field ∈ fields, Legible tokens (depth + 5) field.2 := by
  have hprofile : ∀ (key : String) (profile : Option DeviceProfile),
      ∀ field ∈ present key writeProfile profile, Legible tokens (depth + 5) field.2 :=
    fun key profile => legible_present fun profile _ => legible_writeProfile profile
  cases message <;> simp only [messageFields, Option.some.injEq, Prod.mk.injEq, reduceCtorEq] at h
  all_goals
    obtain ⟨-, rfl⟩ := h
    simp only [List.forall_mem_append, List.forall_mem_cons, List.not_mem_nil, false_implies,
      implies_true, and_true, legible_string, legible_bool, legible_ofNat, legible_ofWhole, true_and]
  case group => exact legible_writeSnapshot spelling _
  case probe => exact hprofile _ _
  case probeAck => exact hprofile _ _
  case hello => exact ⟨hprofile _ _, legible_present fun text _ => legible_string text⟩
  case summary =>
    exact legible_ofList fun summary _ =>
      legible_writeSummary fun rank _ => keeps_of_faithful hfaithful rank
  case request => exact legible_ofList fun id _ => legible_string id
  case fileChunk => exact legible_ofList fun byte _ => legible_ofNat _

end

end CopyPaste.Wire.Messages
