import CopyPaste.Lib.JsonFields
import CopyPaste.Lib.JsonTokens
import CopyPaste.Settings.Config
import Mathlib

/-!
Decoding the persisted settings record, one field at a time. A record that is no object
is refused whole; in one that is, a key that cannot be read costs its own setting, which
falls back to the closed value, and a list of exclusions that cannot be read stops
capture.
-/

namespace CopyPaste.Settings.Record

open Config Lib.JsonText Lib.JsonFields

/-- What a field falls back to when it cannot be read. -/
def failClosed : String → ConfigPatch
  | "private_mode" => { privateMode := some true }
  | "excluded_app_bundle_ids" => { privateMode := some true }
  | "skip_secret" => { skipSecret := some true }
  | "skip_transient" => { skipTransient := some true }
  | "sync_enabled" => { syncEnabled := some false }
  | "instant_clipboard" => { instantClipboard := some false }
  | "lan_visibility" => { lanVisibility := some false }
  | "notification_preview" => { notificationPreview := some false }
  | _ => {}

/-- The value a daemon runs on when nothing about the record could be read. -/
def allClosed : ConfigData :=
  { ConfigData.default with
    privateMode := true
    lanVisibility := false
    syncEnabled := false
    instantClipboard := false
    notificationPreview := false
    excludedAppBundleIds := [] }

structure SettingsHealth where
  recordUnreadable : Bool
  unreadableFields : List String
  deriving DecidableEq

/-- The value of a key; of one key the last value counts. -/
def lookup (record : List (String × Json)) (field : String) : Option Json :=
  (occurrences field record).getLast?

/-- A patch, from an object. -/
def ofFields (fields : List (String × Json)) : Option ConfigPatch := do
  let privateMode ← optionField asBool fields "private_mode"
  let skipSecret ← optionField asBool fields "skip_secret"
  let skipTransient ← optionField asBool fields "skip_transient"
  let pollIntervalMs ← optionField (asNat (2 ^ 64)) fields "poll_interval_ms"
  let historyLimit ← optionField (asNat (2 ^ 32)) fields "history_limit"
  let storageQuotaBytes ← optionField (asNat (2 ^ 64)) fields "storage_quota_bytes"
  let retentionDays ← optionField (asNat (2 ^ 32)) fields "retention_days"
  let dedupWindowSecs ← optionField (asNat (2 ^ 32)) fields "dedup_window_secs"
  let maxTextSizeBytes ← optionField (asNat (2 ^ 64)) fields "max_text_size_bytes"
  let maxImageSizeBytes ← optionField (asNat (2 ^ 64)) fields "max_image_size_bytes"
  let maxFileSizeBytes ← optionField (asNat (2 ^ 64)) fields "max_file_size_bytes"
  let maxDecodedImageMb ← optionField (asNat (2 ^ 32)) fields "max_decoded_image_mb"
  let excludedAppBundleIds ← optionField (asList asString) fields "excluded_app_bundle_ids"
  let lanVisibility ← optionField asBool fields "lan_visibility"
  let syncEnabled ← optionField asBool fields "sync_enabled"
  let instantClipboard ← optionField asBool fields "instant_clipboard"
  let notifyOnCopy ← optionField asBool fields "notify_on_copy"
  let notificationPreview ← optionField asBool fields "notification_preview"
  let soundOnCopy ← optionField asBool fields "sound_on_copy"
  return {
    privateMode, skipSecret, skipTransient, pollIntervalMs, historyLimit, storageQuotaBytes
    retentionDays, dedupWindowSecs, maxTextSizeBytes, maxImageSizeBytes, maxFileSizeBytes
    maxDecodedImageMb, excludedAppBundleIds, lanVisibility, syncEnabled, instantClipboard
    notifyOnCopy, notificationPreview, soundOnCopy }

/-- Decode one field as the single-key object. A key with no value is corrupt. -/
def decodeField (field : String) : Json → Option ConfigPatch
  | .null => none
  | value => ofFields [(field, value)]

/-- Read one field into the configuration built so far. -/
def readField (record : List (String × Json)) (state : ConfigData × List String)
    (field : String) : ConfigData × List String :=
  match lookup record field with
  | none => state
  | some value =>
    match (decodeField field value).bind fun patch => (patch.apply state.1).toOption with
    | some next => (next, state.2)
    | none =>
      match (failClosed field).apply state.1 with
      | .ok next => (next, state.2 ++ [field])
      | .error _ => (state.1, state.2 ++ [field])

def readFields (record : List (String × Json)) : ConfigData × List String :=
  (ConfigData.fieldLiveness.map Prod.fst).foldl (readField record) (.default, [])

/-- Read a stored record, keeping every field that decodes and failing the rest closed. -/
def read (tokens : Tokens) (raw : String) : ConfigData × SettingsHealth :=
  match parse tokens raw.toList with
  | some (.object record) => ((readFields record).1, ⟨false, (readFields record).2⟩)
  | _ => (allClosed, ⟨true, []⟩)

/-- The value of a setting, by its type. -/
def decode : (s : Setting) → Json → Option s.Value
  | .flag _, value => asBool value
  | .quantity q, value => asNat q.width value
  | .excludedAppBundleIds, value => asList asString value

theorem optionField_single {α : Type} {read : Json → Option α} {value : Json} (hnull : value ≠ .null)
    (name key : String) :
    optionField read [(name, value)] key =
      if name = key then (read value).map some else some none := by
  rw [optionField, withDefault, occurrences_cons]
  split
  · rw [occurrences_nil, readOne_singleton]
    cases value with
    | null => exact absurd rfl hnull
    | bool | number | string | array | object => rfl
  · rw [occurrences_nil, readOne_nil]

/-- The single-key object is read as the patch that names the one setting. -/
theorem decodeField_name (s : Setting) (value : Json) :
    decodeField s.name value = (decode s value).map (ConfigPatch.only s) := by
  by_cases hnull : value = .null
  · subst hnull
    cases s with
    | flag | quantity | excludedAppBundleIds => rfl
  · have hsingle : decodeField s.name value = ofFields [(s.name, value)] := by
      cases value with
      | null => exact absurd rfl hnull
      | bool | number | string | array | object => rfl
    rw [hsingle]
    cases s with
    | flag f =>
      cases hbool : asBool value <;> cases f <;>
        simp [ofFields, optionField_single hnull, Setting.name, Flag.name, decode, hbool] <;> rfl
    | quantity q =>
      cases q <;> simp [ofFields, optionField_single hnull, Setting.name, Quantity.name, decode,
        Quantity.width] <;>
        generalize asNat _ value = number <;> cases number <;> rfl
    | excludedAppBundleIds =>
      cases hlist : asList asString value <;>
        simp [ofFields, optionField_single hnull, Setting.name, decode, hlist] <;> rfl

/-- What a value of a key is kept as: decoded, and through the check of its setting. -/
def kept (s : Setting) (value : Json) : Option s.Value :=
  (decode s value).bind fun decoded => (s.check decoded).toOption

/-- The setting's key holds a decodable value in range, which is kept as this. -/
def Held (record : List (String × Json)) (s : Setting) (v : s.Value) : Prop :=
  ∃ value, lookup record s.name = some value ∧ kept s value = some v

/-- The setting's key is there, and what it holds cannot be kept. -/
def failing (record : List (String × Json)) (s : Setting) : Bool :=
  match lookup record s.name with
  | none => false
  | some value => (kept s value).isNone

/-- The configuration with one setting closed; a list of exclusions closes private mode. -/
def closed (config : ConfigData) : Setting → ConfigData
  | .flag .privateMode => { config with privateMode := true }
  | .flag .skipSecret => { config with skipSecret := true }
  | .flag .skipTransient => { config with skipTransient := true }
  | .flag .lanVisibility => { config with lanVisibility := false }
  | .flag .syncEnabled => { config with syncEnabled := false }
  | .flag .instantClipboard => { config with instantClipboard := false }
  | .flag .notificationPreview => { config with notificationPreview := false }
  | .flag .notifyOnCopy => config
  | .flag .soundOnCopy => config
  | .quantity _ => config
  | .excludedAppBundleIds => { config with privateMode := true }

theorem failClosed_apply (s : Setting) (config : ConfigData) :
    (failClosed s.name).apply config = .ok (closed config s) := by
  cases s with
  | flag f => cases f <;> rfl
  | quantity q => cases q <;> rfl
  | excludedAppBundleIds => rfl

theorem decodeField_apply (s : Setting) (value : Json) (config : ConfigData) :
    ((decodeField s.name value).bind fun patch => (patch.apply config).toOption) =
      (kept s value).map (config.set s) := by
  rw [decodeField_name, kept]
  cases decode s value with
  | none => rfl
  | some decoded => exact apply_only config s decoded

section

variable {record : List (String × Json)} {s : Setting}

theorem readField_absent (h : lookup record s.name = none) (state : ConfigData × List String) :
    readField record state s.name = state := by
  simp only [readField, h]

theorem readField_held {v : s.Value} (h : Held record s v) (state : ConfigData × List String) :
    readField record state s.name = (state.1.set s v, state.2) := by
  obtain ⟨value, hlookup, hkept⟩ := h
  simp only [readField, hlookup, decodeField_apply, hkept, Option.map_some]

theorem readField_failing (h : failing record s = true) (state : ConfigData × List String) :
    readField record state s.name = (closed state.1 s, state.2 ++ [s.name]) := by
  unfold failing at h
  cases hlookup : lookup record s.name with
  | none =>
    simp only [hlookup] at h
    cases h
  | some value =>
    simp only [hlookup, Option.isNone_iff_eq_none] at h
    simp only [readField, hlookup, decodeField_apply, h, Option.map_none, failClosed_apply]

/-- A key is absent, held or failing. -/
theorem absent_or_held_or_failing (record : List (String × Json)) (s : Setting) :
    lookup record s.name = none ∨ (∃ v, Held record s v) ∨ failing record s = true := by
  cases hlookup : lookup record s.name with
  | none => exact Or.inl rfl
  | some value =>
    right
    cases hkept : kept s value with
    | none =>
      right
      simp only [failing, hlookup, hkept, Option.isNone_none]
    | some v => exact Or.inl ⟨v, value, hlookup, hkept⟩

theorem not_failing_of_held {v : s.Value} (h : Held record s v) : failing record s = false := by
  obtain ⟨value, hlookup, hkept⟩ := h
  simp only [failing, hlookup, hkept, Option.isNone_some]

theorem not_failing_of_absent (h : lookup record s.name = none) : failing record s = false := by
  simp only [failing, h]

end

/-- Reading the key of one setting can reach another: private mode, through the list. -/
def Reads (s t : Setting) : Prop :=
  t = s ∨ s = .excludedAppBundleIds ∧ t = .privateMode

variable {config : ConfigData} {s : Setting} {record : List (String × Json)}

theorem get_closed_other {t : Setting} (h : ¬Reads s t) :
    (closed config s).get t = config.get t := by
  have hts : t ≠ s := fun heq => h (Or.inl heq)
  have hset : ∀ value : s.Value, (config.set s value).get t = config.get t :=
    fun value => get_set_other config value hts
  cases s with
  | flag f =>
    cases f with
    | privateMode | skipSecret | skipTransient => exact hset true
    | lanVisibility | syncEnabled | instantClipboard => exact hset false
    | notifyOnCopy => rfl
    | notificationPreview => exact hset false
    | soundOnCopy => rfl
  | quantity q => rfl
  | excludedAppBundleIds =>
    have hmode : t ≠ .privateMode := fun heq => h (Or.inr ⟨rfl, heq⟩)
    exact get_set_other (s := .privateMode) config true hmode

/-- Closing a setting that still has its default. -/
theorem get_closed_same (h : config.get s = ConfigData.default.get s) :
    (closed config s).get s = allClosed.get s := by
  cases s with
  | flag f =>
    cases f with
    | notifyOnCopy | soundOnCopy => exact h
    | privateMode | skipSecret | skipTransient | lanVisibility | syncEnabled | instantClipboard =>
      rfl
    | notificationPreview => rfl
  | quantity q =>
    refine Eq.trans h ?_
    cases q <;> rfl
  | excludedAppBundleIds => exact h

section

variable (record : List (String × Json))

/-- The fields of some settings, read one after the other. -/
def readAll (settings : List Setting) (state : ConfigData × List String) :
    ConfigData × List String :=
  (settings.map Setting.name).foldl (readField record) state

theorem readFields_eq : readFields record = readAll record Setting.all (.default, []) := by
  rw [readFields, name_fieldLiveness, readAll]

theorem readAll_cons (s : Setting) (settings : List Setting) (state : ConfigData × List String) :
    readAll record (s :: settings) state = readAll record settings (readField record state s.name) :=
  rfl

theorem readAll_append (settings others : List Setting) (state : ConfigData × List String) :
    readAll record (settings ++ others) state =
      readAll record others (readAll record settings state) := by
  rw [readAll, List.map_append, List.foldl_append, readAll, readAll]

variable {s : Setting}

theorem readField_other {t : Setting} (h : ¬Reads s t) (state : ConfigData × List String) :
    (readField record state s.name).1.get t = state.1.get t := by
  have hts : t ≠ s := fun heq => h (Or.inl heq)
  rcases absent_or_held_or_failing record s with habsent | ⟨v, hheld⟩ | hfailing
  · rw [readField_absent habsent]
  · rw [readField_held hheld]
    exact get_set_other state.1 v hts
  · rw [readField_failing hfailing]
    exact get_closed_other h

theorem readAll_other {settings : List Setting} {t : Setting}
    (h : ∀ s ∈ settings, ¬Reads s t) (state : ConfigData × List String) :
    (readAll record settings state).1.get t = state.1.get t := by
  induction settings generalizing state with
  | nil => rfl
  | cons s settings ih =>
    rw [readAll_cons, ih fun r hr => h r (List.mem_cons_of_mem _ hr)]
    exact readField_other record (h s List.mem_cons_self) state

/-- The reported fields are the failing ones, in the order in which they are read. -/
theorem readAll_unreadable (settings : List Setting) (state : ConfigData × List String) :
    (readAll record settings state).2 =
      state.2 ++ (settings.filter (failing record)).map Setting.name := by
  induction settings generalizing state with
  | nil => exact (List.append_nil _).symm
  | cons s settings ih =>
    rw [readAll_cons, ih]
    rcases absent_or_held_or_failing record s with habsent | ⟨v, hheld⟩ | hfailing
    · rw [readField_absent habsent, List.filter_cons_of_neg]
      rw [not_failing_of_absent habsent]
      exact Bool.false_ne_true
    · rw [readField_held hheld, List.filter_cons_of_neg]
      rw [not_failing_of_held hheld]
      exact Bool.false_ne_true
    · rw [readField_failing hfailing, List.filter_cons_of_pos hfailing, List.map_cons,
        List.append_assoc, List.singleton_append]

/-- A setting is read once: from its default, and then no other key but that of the list
can reach it. -/
theorem get_readFields {before after : List Setting} (hall : Setting.all = before ++ s :: after)
    (hbefore : ∀ r ∈ before, ¬Reads r s) (hafter : ∀ r ∈ after, ¬Reads r s) :
    ∃ state : ConfigData × List String, state.1.get s = ConfigData.default.get s ∧
      (readFields record).1.get s = (readField record state s.name).1.get s := by
  refine ⟨readAll record before (.default, []), ?_, ?_⟩
  · exact readAll_other record hbefore (.default, [])
  · rw [readFields_eq, hall, readAll_append, readAll_cons]
    exact readAll_other record hafter _

theorem exists_split (hmode : s ≠ .privateMode) :
    ∃ before after, Setting.all = before ++ s :: after ∧ (∀ r ∈ before, ¬Reads r s) ∧
      ∀ r ∈ after, ¬Reads r s := by
  obtain ⟨before, after, hall⟩ := List.append_of_mem (mem_all s)
  have hnodup := nodup_all
  rw [hall, List.nodup_append, List.nodup_cons] at hnodup
  refine ⟨before, after, hall, fun r hr hreads => ?_, fun r hr hreads => ?_⟩
  · rcases hreads with rfl | ⟨-, heq⟩
    · exact hnodup.2.2 s hr s List.mem_cons_self rfl
    · exact hmode heq
  · rcases hreads with rfl | ⟨-, heq⟩
    · exact hnodup.2.1.1 hr
    · exact hmode heq

/-- What stands in the canonical order around the list of exclusions. -/
def beforeExclusions : List Setting :=
  [.flag .skipSecret, .flag .skipTransient, .quantity .pollIntervalMs,
    .quantity .historyLimit, .quantity .storageQuotaBytes, .quantity .retentionDays,
    .quantity .dedupWindowSecs, .quantity .maxTextSizeBytes, .quantity .maxImageSizeBytes,
    .quantity .maxFileSizeBytes, .quantity .maxDecodedImageMb]

def afterExclusions : List Setting :=
  [.flag .lanVisibility, .flag .syncEnabled, .flag .instantClipboard, .flag .notifyOnCopy,
    .flag .notificationPreview, .flag .soundOnCopy]

/-- Private mode is read first, and the list of exclusions may close it afterwards. -/
theorem get_privateMode :
    (readFields record).1.privateMode =
      (failing record .excludedAppBundleIds ||
        (readField record (.default, []) "private_mode").1.privateMode) := by
  have hall : Setting.all = .privateMode :: (beforeExclusions ++
      .excludedAppBundleIds :: afterExclusions) := rfl
  have hbefore : ∀ r ∈ beforeExclusions, ¬Reads r .privateMode := by
    unfold Reads
    decide
  have hafter : ∀ r ∈ afterExclusions, ¬Reads r .privateMode := by
    unfold Reads
    decide
  have hfirst : ∀ state, (readAll record beforeExclusions state).1.get .privateMode =
      state.1.get .privateMode := readAll_other record hbefore
  have hlast : ∀ state, (readAll record afterExclusions state).1.get .privateMode =
      state.1.get .privateMode := readAll_other record hafter
  have hexclusions : ∀ state : ConfigData × List String,
      (readField record state Setting.excludedAppBundleIds.name).1.privateMode =
        (failing record .excludedAppBundleIds || state.1.privateMode) := by
    intro state
    rcases absent_or_held_or_failing record .excludedAppBundleIds with habsent | ⟨v, hheld⟩ | hfailing
    · rw [readField_absent habsent, not_failing_of_absent habsent, Bool.false_or]
    · rw [readField_held hheld, not_failing_of_held hheld, Bool.false_or]
      rfl
    · rw [readField_failing hfailing, hfailing, Bool.true_or]
      rfl
  rw [readFields_eq, hall, readAll_cons, readAll_append, readAll_cons]
  refine Eq.trans (hlast _) (Eq.trans (hexclusions _) ?_)
  exact congrArg _ (hfirst _)

end

theorem get_held {v : s.Value} (h : Held record s v)
    (hmode : s = .privateMode → failing record .excludedAppBundleIds = false) :
    (readFields record).1.get s = v := by
  by_cases hs : s = .privateMode
  · subst hs
    have hread := get_privateMode record
    rw [hmode rfl, Bool.false_or] at hread
    refine Eq.trans hread ?_
    have hfield := readField_held h (.default, [])
    exact (congrArg (fun state => state.1.get .privateMode) hfield).trans
      (get_set_same ConfigData.default Setting.privateMode v)
  · obtain ⟨before, after, hall, hbefore, hafter⟩ := exists_split hs
    obtain ⟨state, -, hread⟩ := get_readFields record hall hbefore hafter
    rw [hread, readField_held h, get_set_same]

theorem get_failing (h : failing record s = true) :
    (readFields record).1.get s = allClosed.get s := by
  by_cases hs : s = .privateMode
  · subst hs
    have hfield := readField_failing h (.default, [])
    have hclosed : (readField record (.default, []) "private_mode").1.privateMode = true :=
      congrArg (fun state => state.1.privateMode) hfield
    have hread := get_privateMode record
    rw [hclosed, Bool.or_true] at hread
    exact hread
  · obtain ⟨before, after, hall, hbefore, hafter⟩ := exists_split hs
    obtain ⟨state, hdefault, hread⟩ := get_readFields record hall hbefore hafter
    rw [hread, readField_failing h]
    exact get_closed_same hdefault

/-- A record written by another build is short, not corrupt. -/
theorem get_absent (h : lookup record s.name = none)
    (hmode : s = .privateMode → failing record .excludedAppBundleIds = false) :
    (readFields record).1.get s = ConfigData.default.get s := by
  by_cases hs : s = .privateMode
  · subst hs
    have hread := get_privateMode record
    rw [hmode rfl, Bool.false_or] at hread
    exact hread.trans (congrArg (fun state => state.1.privateMode) (readField_absent h (.default, [])))
  · obtain ⟨before, after, hall, hbefore, hafter⟩ := exists_split hs
    obtain ⟨state, hdefault, hread⟩ := get_readFields record hall hbefore hafter
    rw [hread, readField_absent h, hdefault]

theorem privateMode_of_failing (h : failing record .excludedAppBundleIds = true) :
    (readFields record).1.privateMode = true := by
  rw [get_privateMode, h, Bool.true_or]

theorem unreadable_eq (record : List (String × Json)) :
    (readFields record).2 = (Setting.all.filter (failing record)).map Setting.name := by
  rw [readFields_eq, readAll_unreadable, List.nil_append]

/-- What one key holds decides its own setting, and the list also private mode. -/
theorem get_congr {other : List (String × Json)}
    (hlookup : lookup record s.name = lookup other s.name)
    (hlist : s = .privateMode → lookup record Setting.excludedAppBundleIds.name =
      lookup other Setting.excludedAppBundleIds.name) :
    (readFields record).1.get s = (readFields other).1.get s := by
  have hfailing : ∀ t : Setting, lookup record t.name = lookup other t.name →
      failing record t = failing other t := by
    intro t ht
    unfold failing
    rw [ht]
  have hmode : s = .privateMode → failing record .excludedAppBundleIds =
      failing other .excludedAppBundleIds := fun hs => hfailing _ (hlist hs)
  by_cases hclose : s = .privateMode ∧ failing record .excludedAppBundleIds = true
  · obtain ⟨rfl, hclosed⟩ := hclose
    have hother := (hmode rfl).symm.trans hclosed
    exact (privateMode_of_failing hclosed).trans (privateMode_of_failing hother).symm
  · have hopen : s = .privateMode → failing record .excludedAppBundleIds = false :=
      fun hs => Bool.eq_false_iff.2 fun hclosed => hclose ⟨hs, hclosed⟩
    have hopen' : s = .privateMode → failing other .excludedAppBundleIds = false :=
      fun hs => (hmode hs).symm.trans (hopen hs)
    rcases absent_or_held_or_failing record s with habsent | ⟨v, hheld⟩ | hfail
    · rw [get_absent habsent hopen, get_absent (hlookup ▸ habsent) hopen']
    · have hheld' : Held other s v := by
        obtain ⟨value, hvalue, hkept⟩ := hheld
        exact ⟨value, hlookup ▸ hvalue, hkept⟩
      rw [get_held hheld hopen, get_held hheld' hopen']
    · rw [get_failing hfail, get_failing (hfailing s hlookup ▸ hfail)]

/-- A setting as it is stored. -/
def write : (s : Setting) → s.Value → Json
  | .flag _, value => .bool value
  | .quantity _, value => ofWhole (Int.ofNat value)
  | .excludedAppBundleIds, value => ofList .string value

/-- The stored record of a configuration. -/
def toFields (config : ConfigData) : List (String × Json) :=
  [("private_mode", .bool config.privateMode),
    ("skip_secret", .bool config.skipSecret),
    ("skip_transient", .bool config.skipTransient),
    ("poll_interval_ms", ofWhole config.pollIntervalMs),
    ("history_limit", ofWhole config.historyLimit),
    ("storage_quota_bytes", ofWhole config.storageQuotaBytes),
    ("retention_days", ofWhole config.retentionDays),
    ("dedup_window_secs", ofWhole config.dedupWindowSecs),
    ("max_text_size_bytes", ofWhole config.maxTextSizeBytes),
    ("max_image_size_bytes", ofWhole config.maxImageSizeBytes),
    ("max_file_size_bytes", ofWhole config.maxFileSizeBytes),
    ("max_decoded_image_mb", ofWhole config.maxDecodedImageMb),
    ("excluded_app_bundle_ids", ofList .string config.excludedAppBundleIds),
    ("lan_visibility", .bool config.lanVisibility),
    ("sync_enabled", .bool config.syncEnabled),
    ("instant_clipboard", .bool config.instantClipboard),
    ("notify_on_copy", .bool config.notifyOnCopy),
    ("notification_preview", .bool config.notificationPreview),
    ("sound_on_copy", .bool config.soundOnCopy)]

def encode (tokens : Tokens) (config : ConfigData) : String :=
  String.ofList ((Json.object (toFields config)).write tokens)

theorem toFields_eq (config : ConfigData) :
    toFields config = Setting.all.map fun s => (s.name, write s (config.get s)) := rfl

theorem occurrences_name {settings : List Setting} (hnodup : settings.Nodup) (h : s ∈ settings)
    (value : Setting → Json) :
    occurrences s.name (settings.map fun t => (t.name, value t)) = [value s] := by
  have hnone : ∀ others : List Setting, s ∉ others →
      occurrences s.name (others.map fun t => (t.name, value t)) = [] := by
    intro others hs
    rw [occurrences, List.filter_eq_nil_iff.2, List.map_nil]
    intro field hfield
    obtain ⟨t, ht, rfl⟩ := List.mem_map.1 hfield
    rw [decide_eq_true_eq]
    intro hname
    exact hs (name_injective hname ▸ ht)
  obtain ⟨before, after, rfl⟩ := List.append_of_mem h
  rw [List.nodup_append, List.nodup_cons] at hnodup
  have hbefore : s ∉ before := fun hs => hnodup.2.2 s hs s List.mem_cons_self rfl
  rw [List.map_append, List.map_cons, occurrences_append, occurrences_cons, if_pos rfl,
    hnone before hbefore, hnone after hnodup.2.1.1, List.nil_append]

theorem lookup_toFields (config : ConfigData) (s : Setting) :
    lookup (toFields config) s.name = some (write s (config.get s)) := by
  rw [lookup, toFields_eq, occurrences_name nodup_all (mem_all s) fun t => write t (config.get t)]
  rfl

theorem legible_write (tokens : Tokens) (s : Setting) (v : s.Value) :
    Legible tokens 1 (write s v) := by
  cases s with
  | flag f => exact .bool 1 v
  | quantity q => exact legible_ofWhole _
  | excludedAppBundleIds => exact legible_ofList fun value _ => .string 0 value

theorem legible_toFields (tokens : Tokens) (config : ConfigData) :
    Legible tokens 2 (.object (toFields config)) := by
  refine .object fun field hfield => ?_
  rw [toFields_eq] at hfield
  obtain ⟨s, -, rfl⟩ := List.mem_map.1 hfield
  exact legible_write tokens s _

theorem kept_write {v : s.Value} (h : s.check v = .ok v) : kept s (write s v) = some v := by
  have hdecode : decode s (write s v) = some v := by
    cases s with
    | flag f => rfl
    | quantity q =>
      have hbounds := (range_ok_iff.1 h).1.2
      have hwidth : q.bounds.2 < q.width ∧ q.width ≤ 2 ^ 64 := by cases q <;> decide
      exact asNat_ofWhole (hbounds.trans_lt hwidth.1) hwidth.2
    | excludedAppBundleIds => exact asList_ofList fun _ _ => rfl
  rw [kept, hdecode, Option.bind_some, h]
  rfl

theorem read_object {tokens : Tokens} {raw : String}
    (h : parse tokens raw.toList = some (.object record)) :
    read tokens raw = ((readFields record).1, ⟨false, (readFields record).2⟩) := by
  unfold read
  rw [h]

theorem held_of_decode {value : Json} {decoded v : s.Value}
    (hlookup : lookup record s.name = some value) (hdecode : decode s value = some decoded)
    (hcheck : s.check decoded = .ok v) : Held record s v := by
  refine ⟨value, hlookup, ?_⟩
  rw [kept, hdecode, Option.bind_some, hcheck]
  rfl

/-- A configuration in bounds is read back from its encoding, with nothing to report. -/
theorem read_encode (tokens : Tokens) (h : InBounds config) :
    read tokens (encode tokens config) = (config, ⟨false, []⟩) := by
  have hheld : ∀ s, Held (toFields config) s (config.get s) := fun s =>
    ⟨_, lookup_toFields config s, kept_write (h s)⟩
  have hfailing : ∀ s, failing (toFields config) s = false := fun s => not_failing_of_held (hheld s)
  have hconfig : (readFields (toFields config)).1 = config := by
    apply eq_of_get
    intro s
    exact get_held (hheld s) fun _ => hfailing _
  have hunreadable : (readFields (toFields config)).2 = [] := by
    rw [unreadable_eq, List.filter_eq_nil_iff.2, List.map_nil]
    intro s _
    rw [hfailing s]
    exact Bool.false_ne_true
  have hparse : parse tokens (encode tokens config).toList = some (.object (toFields config)) := by
    rw [encode, String.toList_ofList]
    apply parse_write
    exact (legible_toFields tokens config).mono (by decide)
  rw [read_object hparse, hconfig, hunreadable]

/-- A record that is no object closes every field, and one that is costs the keys that fail:
the others have the value they hold, an exclusion list without the space around its
entries. No key reaches another setting, except private mode through the list. -/
theorem read_fails_closed (tokens : Tokens) :
    (∀ raw, (∀ record, parse tokens raw.toList ≠ some (.object record)) →
      read tokens raw = (allClosed, ⟨true, []⟩)) ∧
    (∀ raw record, parse tokens raw.toList = some (.object record) →
      (∀ s value decoded v, lookup record s.name = some value → decode s value = some decoded →
        s.check decoded = .ok v →
          (s = .privateMode → failing record .excludedAppBundleIds = false) →
            (read tokens raw).1.get s = v ∧ (s ≠ .excludedAppBundleIds → v = decoded)) ∧
      (∀ s, failing record s = true → (read tokens raw).1.get s = allClosed.get s) ∧
      (failing record .excludedAppBundleIds = true → (read tokens raw).1.privateMode = true) ∧
      (read tokens raw).2 = ⟨false, (Setting.all.filter (failing record)).map Setting.name⟩) ∧
    (∀ raw other record changed key, parse tokens raw.toList = some (.object record) →
      parse tokens other.toList = some (.object changed) →
      (∀ field, field ≠ key → lookup record field = lookup changed field) →
        ∀ s : Setting, s.name ≠ key →
          (s = .privateMode → key ≠ Setting.excludedAppBundleIds.name) →
            (read tokens raw).1.get s = (read tokens other).1.get s) ∧
    (∀ config, Reached config → read tokens (encode tokens config) = (config, ⟨false, []⟩)) := by
  refine ⟨?_, ?_, ?_, ?_⟩
  · intro raw hobject
    unfold read
    split
    · next record hparse => exact absurd hparse (hobject record)
    · rfl
  · intro raw record hparse
    rw [read_object hparse]
    refine ⟨?_, fun s hfailing => get_failing hfailing, privateMode_of_failing, ?_⟩
    · intro s value decoded v hlookup hdecode hcheck hmode
      exact ⟨get_held (held_of_decode hlookup hdecode hcheck) hmode, check_eq hcheck⟩
    · rw [unreadable_eq]
  · intro raw other record changed key hparse hparse' hsame s hs hmode
    rw [read_object hparse, read_object hparse']
    exact get_congr (hsame _ hs) fun heq => hsame _ fun hkey => hmode heq hkey.symm
  · intro config hreached
    exact read_encode tokens (inBounds_reached hreached)

def spacedRecord : List (String × Json) :=
  [("excluded_app_bundle_ids", .array [.string " com.example.app"])]

/-- The entries of the list are not what is stored, where space stands around them. -/
theorem exclusions_not_verbatim :
    ¬ ∀ (tokens : Tokens) (raw : String) (record : List (String × Json)) (s : Setting) (value : Json)
        (decoded v : s.Value), parse tokens raw.toList = some (.object record) →
      lookup record s.name = some value → decode s value = some decoded →
        s.check decoded = .ok v →
          (s = .privateMode → failing record .excludedAppBundleIds = false) →
            (read tokens raw).1.get s = decoded := by
  intro h
  have hparse : parse plainTokens (String.ofList
      ((Json.object spacedRecord).write plainTokens)).toList = some (.object spacedRecord) := by
    rw [String.toList_ofList]
    refine parse_write plainTokens (.object fun field hfield => ?_)
    rw [List.mem_singleton.1 hfield]
    exact .array fun value hvalue => List.mem_singleton.1 hvalue ▸ .string _ _
  have hcheck : Setting.excludedAppBundleIds.check [" com.example.app"] =
      .ok ["com.example.app"] := rfl
  have hstored := h plainTokens _ spacedRecord .excludedAppBundleIds _ [" com.example.app"]
    ["com.example.app"] hparse rfl rfl hcheck fun heq => by cases heq
  have hread := read_object hparse
  have hkept : (readFields spacedRecord).1.get .excludedAppBundleIds = ["com.example.app"] :=
    get_held (held_of_decode rfl rfl hcheck) fun heq => by cases heq
  rw [hread, hkept] at hstored
  have hsame : ["com.example.app"] = [" com.example.app"] := hstored
  exact absurd hsame (by decide)

end CopyPaste.Settings.Record
