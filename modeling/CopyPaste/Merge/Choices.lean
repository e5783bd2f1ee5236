import CopyPaste.Merge.Prepare
import Mathlib

/-!
A user's choice about secrecy on its way through a merge. It travels in the
payload metadata, which is rendered, read, stripped of its icon and merged with
the metadata held; each of these steps is described by the metadata the text
reads as.
-/

namespace CopyPaste.Merge.Choices

open Comparator Payload Storage Prepare

/-- The choices in the order the merge keeps the greater of; none is the least. -/
def rankOf : Option SecretOverride → WithBot (Int ×ₗ Bool)
  | none => ⊥
  | some choice => ((toLex (choice.updatedAt, choice.secret) : Int ×ₗ Bool) : WithBot _)

theorem rankOf_injective : Function.Injective rankOf := by
  intro a b h
  cases a with
  | none =>
    cases b with
    | none => rfl
    | some b => exact absurd h.symm (WithBot.coe_ne_bot)
  | some a =>
    cases b with
    | none => exact absurd h (WithBot.coe_ne_bot)
    | some b =>
      obtain ⟨hstamp, hsecret⟩ := Prod.mk.inj (toLex.injective (WithBot.coe_injective h))
      cases a
      cases b
      simp_all

/-- The merge of two choices is the greater one. -/
theorem max_eq (a b : Option SecretOverride) :
    SecretOverride.max a b = if rankOf a ≤ rankOf b then b else a := by
  cases a with
  | none => simp [SecretOverride.max, rankOf]
  | some a =>
    cases b with
    | none =>
      have hnot : ¬ rankOf (some a) ≤ rankOf none := by
        intro h
        exact absurd (le_bot_iff.1 h) WithBot.coe_ne_bot
      rw [if_neg hnot]
      rfl
    | some b =>
      have hiff : rankOf (some a) ≤ rankOf (some b) ↔
          a.updatedAt < b.updatedAt ∨ a.updatedAt = b.updatedAt ∧ a.secret ≤ b.secret := by
        unfold rankOf
        rw [WithBot.coe_le_coe, Prod.Lex.toLex_le_toLex]
      simp only [SecretOverride.max, hiff]

variable (host : Host) (contentType : String)

/-- The checks on metadata that admit the empty one as well. -/
structure Sound (m : PayloadMetadata) : Prop where
  file : ∀ file ∈ m.file, file.isValid = true
  icon : ∀ icon ∈ m.sourceAppIcon, (host.png icon).isSome = true
  choice : ∀ choice ∈ m.secretOverride, 0 < choice.updatedAt ∧ choice.secret = m.privacy.secret
  credentials : m.credentials = true → isText contentType = true
  needsFile : contentType = fileType → m.file.isSome = true
  takesFile : m.file.isSome = true → contentType = fileType ∨ isImage contentType = true

theorem isEmpty_iff (p : ClipboardPrivacy) : p.isEmpty = true ↔ p = {} := by
  obtain ⟨secret, transient⟩ := p
  cases secret <;> cases transient <;> simp [ClipboardPrivacy.isEmpty]

theorem ne_empty_iff (m : PayloadMetadata) :
    (m.file.isSome || m.credentials || m.sourceAppIcon.isSome || !m.privacy.isEmpty ||
      m.secretOverride.isSome) = true ↔ m ≠ {} := by
  obtain ⟨credentials, privacy, choice, file, icon⟩ := m
  have hprivacy := isEmpty_iff privacy
  cases file with
  | some _ => simp
  | none =>
    cases icon with
    | some _ => simp
    | none =>
      cases choice with
      | some _ => simp
      | none =>
        cases credentials with
        | true => simp
        | false =>
          simp only [Option.isSome_none, Bool.or_false, Bool.false_or, Bool.not_eq_true',
            ne_eq, PayloadMetadata.mk.injEq, true_and, and_true]
          rw [← hprivacy, Bool.not_eq_true]

/-- Metadata is valid when it is sound and says something. -/
theorem isValidFor_iff (m : PayloadMetadata) :
    m.isValidFor host contentType = true ↔ Sound host contentType m ∧ m ≠ {} := by
  have hne := ne_empty_iff m
  unfold PayloadMetadata.isValidFor PayloadMetadata.hasValidComponents
  rw [Bool.and_eq_true, Bool.and_eq_true, Bool.and_eq_true, Bool.and_eq_true, Bool.and_eq_true,
    hne]
  simp only [Option.all_eq_true, Bool.and_eq_true, decide_eq_true_eq, beq_iff_eq,
    Bool.or_eq_true, Bool.not_eq_true']
  constructor
  · rintro ⟨⟨⟨⟨⟨hfile, hicon⟩, hchoice⟩, hne⟩, hcredentials⟩, hshape⟩
    refine ⟨⟨hfile, hicon, hchoice, fun h => ?_, fun h => ?_, fun h => ?_⟩, hne⟩
    · rcases hcredentials with hfalse | htext
      · simp [h] at hfalse
      · exact htext
    · rwa [if_pos h] at hshape
    · by_cases htype : contentType = fileType
      · exact Or.inl htype
      · rw [if_neg htype] at hshape
        refine Or.inr ?_
        cases hm : m.file with
        | none => simp [hm] at h
        | some file =>
          simp only [hm, Option.isSome_some, Option.isNone_some, Bool.and_true, Bool.false_and,
            Bool.or_false] at hshape
          exact hshape
  · rintro ⟨hsound, hempty⟩
    refine ⟨⟨⟨⟨⟨hsound.file, hsound.icon⟩, hsound.choice⟩, hempty⟩, ?_⟩, ?_⟩
    · cases hc : m.credentials with
      | false => exact Or.inl rfl
      | true => exact Or.inr (hsound.credentials hc)
    · split
      · rename_i htype
        exact hsound.needsFile htype
      · rename_i htype
        cases hm : m.file with
        | some file =>
          have himage := (hsound.takesFile (by simp [hm])).resolve_left htype
          simp [himage]
        | none =>
          have hsome := hne.2 hempty
          simp only [hm, Option.isSome_none, Bool.false_or] at hsome
          simp only [Option.isSome_none, Bool.and_false, Option.isNone_none, Bool.true_and,
            Bool.false_or]
          rw [← hsome]
          cases m.credentials <;> cases m.sourceAppIcon.isSome <;> rfl

/-- Metadata whose JSON keeps within the limit: its choice has a 64-bit stamp, and an
icon does not come with the long reference to a local file. -/
structure Portable (m : PayloadMetadata) : Prop where
  stamp : ∀ choice ∈ m.secretOverride, choice.updatedAt ≤ 2 ^ 63 - 1
  single : m.sourceAppIcon = none ∨ ∀ file ∈ m.file, file.sourceReference = none

/-- What the JSON of the metadata and the recognition of credentials are relied on
for, at one content type. -/
structure Codec : Prop where
  size : ∀ m : PayloadMetadata, m.isValidFor host contentType = true → Portable m →
    (host.renderPayload m).utf8ByteSize ≤ maxSyncMetadataBytes
  reads : ∀ m : PayloadMetadata, m.isValidFor host contentType = true → Portable m →
    PayloadMetadata.fromJson host (host.renderPayload m) contentType = some m
  privacy : ∀ m : PayloadMetadata, m.isValidFor host contentType = true → Portable m →
    PayloadMetadata.privacyFromJson host (host.renderPayload m) = m.privacy
  credentials : ∀ content privacy, host.classifyCredentials contentType content = some privacy →
    isText contentType = true

/-- The metadata a stored or received text stands for. Text that does not parse
still gives its privacy hints, on a text item alone. -/
def ReadsAs (json : Option String) (m : PayloadMetadata) : Prop :=
  match json with
  | none => m = {} ∧ contentType ≠ fileType
  | some text =>
    PayloadMetadata.privacyFromJson host text = m.privacy ∧
      (PayloadMetadata.fromJson host text contentType = some m ∨
        PayloadMetadata.fromJson host text contentType = none ∧ isText contentType = true ∧
          m = { privacy := m.privacy })

theorem ne_fileType_of_isText {contentType : String} (h : isText contentType = true) :
    contentType ≠ fileType := by
  rintro rfl
  exact absurd h (by decide)

theorem isValidFor_of_fromJson {text : String} {m : PayloadMetadata}
    (h : PayloadMetadata.fromJson host text contentType = some m) :
    m.isValidFor host contentType = true := by
  unfold PayloadMetadata.fromJson at h
  split at h
  · simp at h
  · split at h
    · rename_i file hfile
      split at h
      · rename_i htype
        have hvalid := (Option.filter_eq_some_iff.1 hfile).2
        obtain rfl := Option.some.inj h
        rw [isValidFor_iff]
        refine ⟨⟨?_, by simp, by simp, by simp, by simp, fun _ => Or.inl htype⟩, by simp⟩
        intro other hother
        obtain rfl := Option.some.inj hother
        exact hvalid
      · simp at h
    · exact (Option.filter_eq_some_iff.1 h).2

section

variable {host contentType} {json : Option String} {m : PayloadMetadata}

theorem ReadsAs.sound (h : ReadsAs host contentType json m) : Sound host contentType m := by
  cases json with
  | none =>
    obtain ⟨rfl, htype⟩ := h
    exact ⟨by simp, by simp, by simp, by simp, fun h => absurd h htype, by simp⟩
  | some text =>
    rcases h.2 with hparse | ⟨-, htext, hm⟩
    · exact ((isValidFor_iff host contentType m).1
        (isValidFor_of_fromJson host contentType hparse)).1
    · rw [hm]
      exact ⟨by simp, by simp, by simp, by simp,
        fun h => absurd h (ne_fileType_of_isText htext), by simp⟩

theorem ReadsAs.readMetadata_eq (h : ReadsAs host contentType json m) :
    readMetadata host json contentType = m := by
  unfold readMetadata
  cases json with
  | none =>
    obtain ⟨rfl, -⟩ := h
    rfl
  | some text =>
    obtain ⟨hprivacy, hparse | ⟨hparse, -, hm⟩⟩ := h
    · simp only [Option.bind_some, Option.map_some, hparse, Option.getD_some, hprivacy]
    · rw [hm]
      simp only [Option.bind_some, Option.map_some, hparse, Option.getD_some, Option.getD_none,
        hprivacy]

/-- Rendered metadata reads as what was rendered. -/
theorem readsAs_toJson (hcodec : Codec host contentType) (hsound : Sound host contentType m)
    (hport : Portable m) : ReadsAs host contentType (m.toJson host contentType) m := by
  unfold PayloadMetadata.toJson
  by_cases hempty : m = {}
  · have hnot : ¬ m.isValidFor host contentType = true := by
      rw [isValidFor_iff]
      exact fun h => h.2 hempty
    rw [if_neg fun h => hnot h.1]
    refine ⟨hempty, fun htype => ?_⟩
    have hfile := hsound.needsFile htype
    rw [hempty] at hfile
    simp at hfile
  · have hvalid := (isValidFor_iff host contentType m).2 ⟨hsound, hempty⟩
    rw [if_pos ⟨hvalid, hcodec.size m hvalid hport⟩]
    exact ⟨hcodec.privacy m hvalid hport, Or.inl (hcodec.reads m hvalid hport)⟩

/-- Rendered metadata parses. -/
theorem fromJson_toJson (hcodec : Codec host contentType) (hport : Portable m) {text : String}
    (h : m.toJson host contentType = some text) :
    PayloadMetadata.fromJson host text contentType = some m := by
  unfold PayloadMetadata.toJson at h
  split at h
  · rename_i hvalid
    rw [← Option.some.inj h]
    exact hcodec.reads m hvalid.1 hport
  · simp at h

theorem sound_credentialsMetadata (h : Sound host contentType m)
    (htext : isText contentType = true) (privacy : ClipboardPrivacy) :
    Sound host contentType (credentialsMetadata privacy m) := by
  refine ⟨h.file, h.icon, ?_, fun _ => htext, h.needsFile, h.takesFile⟩
  intro choice hchoice
  have hheld : m.secretOverride = some choice := hchoice
  refine ⟨(h.choice choice hheld).1, ?_⟩
  unfold credentialsMetadata
  rw [hheld]

variable {previous : PayloadMetadata}

/-- Merging keeps the file and the icon, and takes the greater choice. -/
theorem sound_mergePrivacy (h : Sound host contentType m)
    (hprevious : Sound host contentType previous) :
    Sound host contentType (m.mergePrivacy previous) := by
  refine ⟨h.file, h.icon, ?_, ?_, h.needsFile, h.takesFile⟩
  · intro choice hchoice
    have hmax : SecretOverride.max m.secretOverride previous.secretOverride = some choice := hchoice
    refine ⟨?_, ?_⟩
    · rw [max_eq] at hmax
      split at hmax
      · exact (hprevious.choice choice hmax).1
      · exact (h.choice choice hmax).1
    · unfold PayloadMetadata.mergePrivacy
      simp only [hmax]
  · intro hcredentials
    unfold PayloadMetadata.mergePrivacy at hcredentials
    rcases Bool.or_eq_true_iff.1 hcredentials with hmine | htheirs
    · exact h.credentials hmine
    · exact hprevious.credentials htheirs

theorem portable_mergePrivacy (h : Portable m)
    (hprevious : ∀ choice ∈ previous.secretOverride, choice.updatedAt ≤ 2 ^ 63 - 1) :
    Portable (m.mergePrivacy previous) := by
  refine ⟨?_, h.single⟩
  intro choice hchoice
  have hmax : SecretOverride.max m.secretOverride previous.secretOverride = some choice := hchoice
  rw [max_eq] at hmax
  split at hmax
  · exact hprevious choice hmax
  · exact h.stamp choice hmax

/-- What a taken version is written with still carries the choice. -/
theorem readsAs_mergedMetadata (hcodec : Codec host contentType) {incoming : RemoteVersion}
    (htype : incoming.contentType = contentType) (hlive : incoming.deleted = false)
    (h : ReadsAs host contentType incoming.payloadMetadata m) (hport : Portable m) :
    ∃ m', ReadsAs host contentType (mergedMetadata host incoming) m' ∧ Portable m' ∧
      m'.secretOverride = m.secretOverride ∧ m'.file = m.file := by
  unfold mergedMetadata
  rw [if_neg (by simp [hlive])]
  cases hclass : host.classifyCredentials incoming.contentType incoming.content with
  | none => exact ⟨m, h, hport, rfl, rfl⟩
  | some privacy =>
    rw [htype] at hclass
    have htext := hcodec.credentials _ _ hclass
    have hsupplied : (incoming.payloadMetadata.bind fun json =>
        PayloadMetadata.fromJson host json incoming.contentType).getD
          { privacy := (incoming.payloadMetadata.map (PayloadMetadata.privacyFromJson host)).getD
              {} } = m := by
      rw [htype]
      cases hjson : incoming.payloadMetadata with
      | none =>
        rw [hjson] at h
        obtain ⟨rfl, -⟩ := h
        rfl
      | some text =>
        rw [hjson] at h
        obtain ⟨hprivacy, hparse | ⟨hparse, -, hm⟩⟩ := h
        · simp only [Option.bind_some, hparse, Option.getD_some]
        · rw [hm]
          simp only [Option.bind_some, hparse, Option.getD_none, Option.map_some,
            Option.getD_some, hprivacy]
    dsimp only
    rw [hsupplied, htype]
    refine ⟨credentialsMetadata privacy m, ?_, ⟨hport.stamp, hport.single⟩, rfl, rfl⟩
    exact readsAs_toJson hcodec (sound_credentialsMetadata h.sound htext privacy)
      ⟨hport.stamp, hport.single⟩

/-- Moving the icon out of the metadata leaves the choice in it. -/
theorem readsAs_normalise (hcodec : Codec host contentType) (h : ReadsAs host contentType json m)
    (hport : Portable m) (icons : List IconRow) (appId : Option String) (capturedAt : Int) :
    ReadsAs host contentType (normalise host icons appId contentType capturedAt json).1
      { m with sourceAppIcon := none } := by
  have hsound : Sound host contentType { m with sourceAppIcon := none } :=
    ⟨h.sound.file, by simp, h.sound.choice, h.sound.credentials, h.sound.needsFile,
      h.sound.takesFile⟩
  have hport' : Portable { m with sourceAppIcon := none } := ⟨hport.stamp, Or.inl rfl⟩
  unfold normalise
  cases json with
  | none =>
    obtain ⟨rfl, htype⟩ := h
    exact ⟨rfl, htype⟩
  | some text =>
    obtain ⟨hprivacy, hparse | ⟨hparse, htext, hm⟩⟩ := h
    · simp only [Option.bind_some, hparse]
      cases hicon : m.sourceAppIcon with
      | none =>
        have hsame : { m with sourceAppIcon := none } = m := by
          rw [← hicon]
        show ReadsAs host contentType (some text) _
        rw [hsame]
        exact ⟨hprivacy, Or.inl hparse⟩
      | some icon =>
        dsimp only
        split
        · exact readsAs_toJson hcodec hsound hport'
        · rename_i hnothing
          have hempty : ({ m with sourceAppIcon := none } : PayloadMetadata) = {} := by
            by_contra hne
            apply hnothing
            have hsome := (ne_empty_iff { m with sourceAppIcon := none }).2 hne
            simpa using hsome
          refine ⟨hempty, fun htype => ?_⟩
          have hfile := hsound.needsFile htype
          rw [hempty] at hfile
          simp at hfile
    · simp only [Option.bind_some, hparse]
      have hsame : { m with sourceAppIcon := none } = m := by
        rw [hm]
      rw [hsame]
      exact ⟨hprivacy, Or.inr ⟨hparse, htext, hm⟩⟩

/-- A write merges the choice held under its id and hash into the one it brings, and
restamps the version when the held one is the greater. -/
theorem readsAs_mergeHeldPrivacy (hcodec : Codec host contentType) (store : Store)
    (incoming : IncomingItem) (htype : incoming.contentType = contentType) {row : ItemRow}
    (hrow : (store.items.find? fun row => decide (row.id = incoming.id ∧
      row.contentHash = incoming.contentHash)) = some row) (h : ReadsAs host contentType json m)
    (hport : Portable m) (hheld : ReadsAs host contentType row.payloadMetadata previous)
    (hstamp : ∀ choice ∈ previous.secretOverride, choice.updatedAt ≤ 2 ^ 63 - 1) :
    ReadsAs host contentType (mergeHeldPrivacy host store incoming json).1
        (m.mergePrivacy previous) ∧
      (mergeHeldPrivacy host store incoming json).2 =
        if rankOf previous.secretOverride ≤ rankOf m.secretOverride then incoming.createdAt
        else saturatingSucc incoming.createdAt := by
  have hsame : (m.mergePrivacy previous).secretOverride = m.secretOverride ↔
      rankOf previous.secretOverride ≤ rankOf m.secretOverride := by
    show SecretOverride.max m.secretOverride previous.secretOverride = m.secretOverride ↔ _
    rw [max_eq]
    split
    · rename_i hle
      exact ⟨fun heq => by rw [heq], fun hge => rankOf_injective (le_antisymm hge hle)⟩
    · rename_i hnot
      exact ⟨fun _ => (not_le.1 hnot).le, fun _ => rfl⟩
  unfold mergeHeldPrivacy
  rw [htype, hrow]
  dsimp only [Option.bind_some]
  rw [h.readMetadata_eq, hheld.readMetadata_eq]
  refine ⟨?_, ?_⟩
  · split
    · rename_i heq
      rw [heq]
      exact h
    · exact readsAs_toJson hcodec (sound_mergePrivacy h.sound hheld.sound)
        (portable_mergePrivacy hport hstamp)
  · by_cases hle : rankOf previous.secretOverride ≤ rankOf m.secretOverride
    · rw [if_pos (hsame.2 hle), if_pos hle]
    · rw [if_neg fun heq => hle (hsame.1 heq), if_neg hle]

end

end CopyPaste.Merge.Choices
