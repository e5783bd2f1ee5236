import CopyPaste.Merge.Payload
import Mathlib

/-!
The settings, the bounds on them and the patches that change them. A patch is checked
whole before anything is kept of it. Every setting can be named, read and set on its own;
what a patch makes of a configuration is the settings it names, each checked, and the
others as they were.
-/

namespace CopyPaste.Settings.Config

open Merge.Payload

/-- Every daemon setting, with its effective value. -/
structure ConfigData where
  privateMode : Bool
  skipSecret : Bool
  skipTransient : Bool
  pollIntervalMs : ℕ
  historyLimit : ℕ
  storageQuotaBytes : ℕ
  retentionDays : ℕ
  dedupWindowSecs : ℕ
  maxTextSizeBytes : ℕ
  maxImageSizeBytes : ℕ
  maxFileSizeBytes : ℕ
  maxDecodedImageMb : ℕ
  excludedAppBundleIds : List String
  lanVisibility : Bool
  syncEnabled : Bool
  instantClipboard : Bool
  notifyOnCopy : Bool
  notificationPreview : Bool
  soundOnCopy : Bool
  deriving DecidableEq

def u32Max : ℕ := 2 ^ 32 - 1

def u64Max : ℕ := 2 ^ 64 - 1

def defaultStorageQuotaBytes : ℕ := 10 * 1024 * 1024 * 1024

def minStorageQuotaBytes : ℕ := 50 * 1024 * 1024

def maxTextSizeBytes : ℕ := 4 * 1024 * 1024

def minTextSizeBytes : ℕ := 64 * 1024

def maxImageSizeBytes : ℕ := 4 * 1024 * 1024

def minImageSizeBytes : ℕ := 1024 * 1024

def maxFileSizeBytes : ℕ := 20 * 1024 * 1024 * 1024

def defaultFileSizeBytes : ℕ := 64 * 1024 * 1024

def minFileSizeBytes : ℕ := 1024 * 1024

def maxDecodedImageMb : ℕ := 50

def minDecodedImageMb : ℕ := 1

def pollIntervalMinMs : ℕ := 100

def pollIntervalMaxMs : ℕ := 5000

def maxExclusions : ℕ := 256

def maxBundleIdLen : ℕ := 256

def ConfigData.default : ConfigData where
  privateMode := false
  skipSecret := true
  skipTransient := true
  pollIntervalMs := 500
  historyLimit := 10000
  storageQuotaBytes := defaultStorageQuotaBytes
  retentionDays := 0
  dedupWindowSecs := 60
  maxTextSizeBytes := Config.maxTextSizeBytes
  maxImageSizeBytes := Config.maxImageSizeBytes
  maxFileSizeBytes := defaultFileSizeBytes
  maxDecodedImageMb := Config.maxDecodedImageMb
  excludedAppBundleIds := []
  lanVisibility := true
  syncEnabled := true
  instantClipboard := true
  notifyOnCopy := false
  notificationPreview := true
  soundOnCopy := true

/-- A rejected setting. Names the field and the bound. -/
inductive ConfigError
  | outOfRange (field : String) (min max : String)
  | tooMany (field : String) (max : ℕ)
  | badEntry (field : String)
  deriving DecidableEq

def range (field : String) (value : ℕ) (bounds : ℕ × ℕ) : Except ConfigError ℕ :=
  if value < bounds.1 ∨ bounds.2 < value then
    .error (.outOfRange field (toString bounds.1) (toString bounds.2))
  else .ok value

/-- The entries of an exclusion list, without the space around them. -/
def exclusions (field : String) (list : List String) : Except ConfigError (List String) :=
  if maxExclusions < list.length then .error (.tooMany field maxExclusions)
  else if list.any fun id => (trim id.toList).isEmpty || decide (maxBundleIdLen < id.utf8ByteSize)
  then .error (.badEntry field)
  else .ok (list.map fun id => String.ofList (trim id.toList))

def pollIntervalRange : ℕ × ℕ := (pollIntervalMinMs, pollIntervalMaxMs)

def historyLimitRange : ℕ × ℕ := (10, 1000000)

def storageQuotaRange : ℕ × ℕ := (minStorageQuotaBytes, u64Max)

def retentionDaysRange : ℕ × ℕ := (0, 3650)

def dedupWindowRange : ℕ × ℕ := (0, 86400)

def maxTextSizeRange : ℕ × ℕ := (minTextSizeBytes, maxTextSizeBytes)

def maxImageSizeRange : ℕ × ℕ := (minImageSizeBytes, maxImageSizeBytes)

def maxFileSizeRange : ℕ × ℕ := (minFileSizeBytes, maxFileSizeBytes)

def maxDecodedImageMbRange : ℕ × ℕ := (minDecodedImageMb, u32Max)

/-- A change to one or more settings. -/
structure ConfigPatch where
  privateMode : Option Bool := none
  skipSecret : Option Bool := none
  skipTransient : Option Bool := none
  pollIntervalMs : Option ℕ := none
  historyLimit : Option ℕ := none
  storageQuotaBytes : Option ℕ := none
  retentionDays : Option ℕ := none
  dedupWindowSecs : Option ℕ := none
  maxTextSizeBytes : Option ℕ := none
  maxImageSizeBytes : Option ℕ := none
  maxFileSizeBytes : Option ℕ := none
  maxDecodedImageMb : Option ℕ := none
  excludedAppBundleIds : Option (List String) := none
  lanVisibility : Option Bool := none
  syncEnabled : Option Bool := none
  instantClipboard : Option Bool := none
  notifyOnCopy : Option Bool := none
  notificationPreview : Option Bool := none
  soundOnCopy : Option Bool := none

/-- A setting that a patch may name: checked when it does, and as it was when not. -/
def checked {α : Type} (check : α → Except ConfigError α) (current : α) :
    Option α → Except ConfigError α
  | none => .ok current
  | some value => check value

def ConfigPatch.apply (patch : ConfigPatch) (base : ConfigData) :
    Except ConfigError ConfigData := do
  let pollIntervalMs ← checked (range "poll_interval_ms" · pollIntervalRange)
    base.pollIntervalMs patch.pollIntervalMs
  let historyLimit ← checked (range "history_limit" · historyLimitRange)
    base.historyLimit patch.historyLimit
  let storageQuotaBytes ← checked (range "storage_quota_bytes" · storageQuotaRange)
    base.storageQuotaBytes patch.storageQuotaBytes
  let retentionDays ← checked (range "retention_days" · retentionDaysRange)
    base.retentionDays patch.retentionDays
  let dedupWindowSecs ← checked (range "dedup_window_secs" · dedupWindowRange)
    base.dedupWindowSecs patch.dedupWindowSecs
  let maxTextSizeBytes ← checked (range "max_text_size_bytes" · maxTextSizeRange)
    base.maxTextSizeBytes patch.maxTextSizeBytes
  let maxImageSizeBytes ← checked (range "max_image_size_bytes" · maxImageSizeRange)
    base.maxImageSizeBytes patch.maxImageSizeBytes
  let maxFileSizeBytes ← checked (range "max_file_size_bytes" · maxFileSizeRange)
    base.maxFileSizeBytes patch.maxFileSizeBytes
  let maxDecodedImageMb ← checked (range "max_decoded_image_mb" · maxDecodedImageMbRange)
    base.maxDecodedImageMb patch.maxDecodedImageMb
  let excludedAppBundleIds ← checked (exclusions "excluded_app_bundle_ids")
    base.excludedAppBundleIds patch.excludedAppBundleIds
  return {
    privateMode := patch.privateMode.getD base.privateMode
    skipSecret := patch.skipSecret.getD base.skipSecret
    skipTransient := patch.skipTransient.getD base.skipTransient
    pollIntervalMs, historyLimit, storageQuotaBytes, retentionDays, dedupWindowSecs
    maxTextSizeBytes, maxImageSizeBytes, maxFileSizeBytes, maxDecodedImageMb
    excludedAppBundleIds
    lanVisibility := patch.lanVisibility.getD base.lanVisibility
    syncEnabled := patch.syncEnabled.getD base.syncEnabled
    instantClipboard := patch.instantClipboard.getD base.instantClipboard
    notifyOnCopy := patch.notifyOnCopy.getD base.notifyOnCopy
    notificationPreview := patch.notificationPreview.getD base.notificationPreview
    soundOnCopy := patch.soundOnCopy.getD base.soundOnCopy }

inductive Liveness
  | live
  | needsRestart
  deriving DecidableEq

/-- Which fields take effect without a restart, in the canonical order. -/
def ConfigData.fieldLiveness : List (String × Liveness) :=
  [("private_mode", .live), ("skip_secret", .live), ("skip_transient", .live),
    ("poll_interval_ms", .live), ("history_limit", .live), ("storage_quota_bytes", .live),
    ("retention_days", .live), ("dedup_window_secs", .live), ("max_text_size_bytes", .live),
    ("max_image_size_bytes", .live), ("max_file_size_bytes", .live),
    ("max_decoded_image_mb", .live), ("excluded_app_bundle_ids", .live),
    ("lan_visibility", .live), ("sync_enabled", .live), ("instant_clipboard", .live),
    ("notify_on_copy", .live), ("notification_preview", .live), ("sound_on_copy", .live)]

inductive Flag
  | privateMode
  | skipSecret
  | skipTransient
  | lanVisibility
  | syncEnabled
  | instantClipboard
  | notifyOnCopy
  | notificationPreview
  | soundOnCopy
  deriving DecidableEq

inductive Quantity
  | pollIntervalMs
  | historyLimit
  | storageQuotaBytes
  | retentionDays
  | dedupWindowSecs
  | maxTextSizeBytes
  | maxImageSizeBytes
  | maxFileSizeBytes
  | maxDecodedImageMb
  deriving DecidableEq

inductive Setting
  | flag (flag : Flag)
  | quantity (quantity : Quantity)
  | excludedAppBundleIds
  deriving DecidableEq

namespace Setting

abbrev privateMode : Setting := .flag .privateMode

def Value : Setting → Type
  | .flag _ => Bool
  | .quantity _ => ℕ
  | .excludedAppBundleIds => List String

end Setting

def Flag.name : Flag → String
  | .privateMode => "private_mode"
  | .skipSecret => "skip_secret"
  | .skipTransient => "skip_transient"
  | .lanVisibility => "lan_visibility"
  | .syncEnabled => "sync_enabled"
  | .instantClipboard => "instant_clipboard"
  | .notifyOnCopy => "notify_on_copy"
  | .notificationPreview => "notification_preview"
  | .soundOnCopy => "sound_on_copy"

def Quantity.name : Quantity → String
  | .pollIntervalMs => "poll_interval_ms"
  | .historyLimit => "history_limit"
  | .storageQuotaBytes => "storage_quota_bytes"
  | .retentionDays => "retention_days"
  | .dedupWindowSecs => "dedup_window_secs"
  | .maxTextSizeBytes => "max_text_size_bytes"
  | .maxImageSizeBytes => "max_image_size_bytes"
  | .maxFileSizeBytes => "max_file_size_bytes"
  | .maxDecodedImageMb => "max_decoded_image_mb"

def Quantity.bounds : Quantity → ℕ × ℕ
  | .pollIntervalMs => pollIntervalRange
  | .historyLimit => historyLimitRange
  | .storageQuotaBytes => storageQuotaRange
  | .retentionDays => retentionDaysRange
  | .dedupWindowSecs => dedupWindowRange
  | .maxTextSizeBytes => maxTextSizeRange
  | .maxImageSizeBytes => maxImageSizeRange
  | .maxFileSizeBytes => maxFileSizeRange
  | .maxDecodedImageMb => maxDecodedImageMbRange

/-- What a value of the quantity's type stays below. -/
def Quantity.width : Quantity → ℕ
  | .pollIntervalMs => 2 ^ 64
  | .historyLimit => 2 ^ 32
  | .storageQuotaBytes => 2 ^ 64
  | .retentionDays => 2 ^ 32
  | .dedupWindowSecs => 2 ^ 32
  | .maxTextSizeBytes => 2 ^ 64
  | .maxImageSizeBytes => 2 ^ 64
  | .maxFileSizeBytes => 2 ^ 64
  | .maxDecodedImageMb => 2 ^ 32

namespace Setting

def name : Setting → String
  | .flag f => f.name
  | .quantity q => q.name
  | .excludedAppBundleIds => "excluded_app_bundle_ids"

def check : (s : Setting) → s.Value → Except ConfigError s.Value
  | .flag _ => .ok
  | .quantity q => (range q.name · q.bounds)
  | .excludedAppBundleIds => exclusions "excluded_app_bundle_ids"

/-- Every setting, in the canonical order. -/
def all : List Setting :=
  [.flag .privateMode, .flag .skipSecret, .flag .skipTransient, .quantity .pollIntervalMs,
    .quantity .historyLimit, .quantity .storageQuotaBytes, .quantity .retentionDays,
    .quantity .dedupWindowSecs, .quantity .maxTextSizeBytes, .quantity .maxImageSizeBytes,
    .quantity .maxFileSizeBytes, .quantity .maxDecodedImageMb, .excludedAppBundleIds,
    .flag .lanVisibility, .flag .syncEnabled, .flag .instantClipboard, .flag .notifyOnCopy,
    .flag .notificationPreview, .flag .soundOnCopy]

end Setting

namespace ConfigData

variable (config : ConfigData)

def flag : Flag → Bool
  | .privateMode => config.privateMode
  | .skipSecret => config.skipSecret
  | .skipTransient => config.skipTransient
  | .lanVisibility => config.lanVisibility
  | .syncEnabled => config.syncEnabled
  | .instantClipboard => config.instantClipboard
  | .notifyOnCopy => config.notifyOnCopy
  | .notificationPreview => config.notificationPreview
  | .soundOnCopy => config.soundOnCopy

def quantity : Quantity → ℕ
  | .pollIntervalMs => config.pollIntervalMs
  | .historyLimit => config.historyLimit
  | .storageQuotaBytes => config.storageQuotaBytes
  | .retentionDays => config.retentionDays
  | .dedupWindowSecs => config.dedupWindowSecs
  | .maxTextSizeBytes => config.maxTextSizeBytes
  | .maxImageSizeBytes => config.maxImageSizeBytes
  | .maxFileSizeBytes => config.maxFileSizeBytes
  | .maxDecodedImageMb => config.maxDecodedImageMb

def get : (s : Setting) → s.Value
  | .flag f => config.flag f
  | .quantity q => config.quantity q
  | .excludedAppBundleIds => config.excludedAppBundleIds

def setFlag (value : Bool) : Flag → ConfigData
  | .privateMode => { config with privateMode := value }
  | .skipSecret => { config with skipSecret := value }
  | .skipTransient => { config with skipTransient := value }
  | .lanVisibility => { config with lanVisibility := value }
  | .syncEnabled => { config with syncEnabled := value }
  | .instantClipboard => { config with instantClipboard := value }
  | .notifyOnCopy => { config with notifyOnCopy := value }
  | .notificationPreview => { config with notificationPreview := value }
  | .soundOnCopy => { config with soundOnCopy := value }

def setQuantity (value : ℕ) : Quantity → ConfigData
  | .pollIntervalMs => { config with pollIntervalMs := value }
  | .historyLimit => { config with historyLimit := value }
  | .storageQuotaBytes => { config with storageQuotaBytes := value }
  | .retentionDays => { config with retentionDays := value }
  | .dedupWindowSecs => { config with dedupWindowSecs := value }
  | .maxTextSizeBytes => { config with maxTextSizeBytes := value }
  | .maxImageSizeBytes => { config with maxImageSizeBytes := value }
  | .maxFileSizeBytes => { config with maxFileSizeBytes := value }
  | .maxDecodedImageMb => { config with maxDecodedImageMb := value }

def set : (s : Setting) → s.Value → ConfigData
  | .flag f, value => config.setFlag value f
  | .quantity q, value => config.setQuantity value q
  | .excludedAppBundleIds, value => { config with excludedAppBundleIds := value }

end ConfigData

namespace ConfigPatch

def get (patch : ConfigPatch) : (s : Setting) → Option s.Value
  | .flag .privateMode => patch.privateMode
  | .flag .skipSecret => patch.skipSecret
  | .flag .skipTransient => patch.skipTransient
  | .flag .lanVisibility => patch.lanVisibility
  | .flag .syncEnabled => patch.syncEnabled
  | .flag .instantClipboard => patch.instantClipboard
  | .flag .notifyOnCopy => patch.notifyOnCopy
  | .flag .notificationPreview => patch.notificationPreview
  | .flag .soundOnCopy => patch.soundOnCopy
  | .quantity .pollIntervalMs => patch.pollIntervalMs
  | .quantity .historyLimit => patch.historyLimit
  | .quantity .storageQuotaBytes => patch.storageQuotaBytes
  | .quantity .retentionDays => patch.retentionDays
  | .quantity .dedupWindowSecs => patch.dedupWindowSecs
  | .quantity .maxTextSizeBytes => patch.maxTextSizeBytes
  | .quantity .maxImageSizeBytes => patch.maxImageSizeBytes
  | .quantity .maxFileSizeBytes => patch.maxFileSizeBytes
  | .quantity .maxDecodedImageMb => patch.maxDecodedImageMb
  | .excludedAppBundleIds => patch.excludedAppBundleIds

/-- A patch that names one setting. -/
def only : (s : Setting) → s.Value → ConfigPatch
  | .flag .privateMode, value => { privateMode := some value }
  | .flag .skipSecret, value => { skipSecret := some value }
  | .flag .skipTransient, value => { skipTransient := some value }
  | .flag .lanVisibility, value => { lanVisibility := some value }
  | .flag .syncEnabled, value => { syncEnabled := some value }
  | .flag .instantClipboard, value => { instantClipboard := some value }
  | .flag .notifyOnCopy, value => { notifyOnCopy := some value }
  | .flag .notificationPreview, value => { notificationPreview := some value }
  | .flag .soundOnCopy, value => { soundOnCopy := some value }
  | .quantity .pollIntervalMs, value => { pollIntervalMs := some value }
  | .quantity .historyLimit, value => { historyLimit := some value }
  | .quantity .storageQuotaBytes, value => { storageQuotaBytes := some value }
  | .quantity .retentionDays, value => { retentionDays := some value }
  | .quantity .dedupWindowSecs, value => { dedupWindowSecs := some value }
  | .quantity .maxTextSizeBytes, value => { maxTextSizeBytes := some value }
  | .quantity .maxImageSizeBytes, value => { maxImageSizeBytes := some value }
  | .quantity .maxFileSizeBytes, value => { maxFileSizeBytes := some value }
  | .quantity .maxDecodedImageMb, value => { maxDecodedImageMb := some value }
  | .excludedAppBundleIds, value => { excludedAppBundleIds := some value }

end ConfigPatch

theorem name_fieldLiveness : ConfigData.fieldLiveness.map Prod.fst = Setting.all.map Setting.name :=
  rfl

theorem mem_all (s : Setting) : s ∈ Setting.all := by
  cases s with
  | flag f => cases f <;> decide
  | quantity q => cases q <;> decide
  | excludedAppBundleIds => decide

theorem nodup_all : Setting.all.Nodup := by decide

theorem name_injective : Function.Injective Setting.name := by
  have hnodup : (Setting.all.map Setting.name).Nodup := by decide
  intro s t h
  exact List.inj_on_of_nodup_map hnodup (mem_all s) (mem_all t) h

/-- A configuration is its settings. -/
theorem eq_of_get {config other : ConfigData} (h : ∀ s, config.get s = other.get s) :
    config = other := by
  cases config
  cases other
  congr
  · exact h (.flag .privateMode)
  · exact h (.flag .skipSecret)
  · exact h (.flag .skipTransient)
  · exact h (.quantity .pollIntervalMs)
  · exact h (.quantity .historyLimit)
  · exact h (.quantity .storageQuotaBytes)
  · exact h (.quantity .retentionDays)
  · exact h (.quantity .dedupWindowSecs)
  · exact h (.quantity .maxTextSizeBytes)
  · exact h (.quantity .maxImageSizeBytes)
  · exact h (.quantity .maxFileSizeBytes)
  · exact h (.quantity .maxDecodedImageMb)
  · exact h .excludedAppBundleIds
  · exact h (.flag .lanVisibility)
  · exact h (.flag .syncEnabled)
  · exact h (.flag .instantClipboard)
  · exact h (.flag .notifyOnCopy)
  · exact h (.flag .notificationPreview)
  · exact h (.flag .soundOnCopy)

@[simp]
theorem get_set_same (config : ConfigData) (s : Setting) (value : s.Value) :
    (config.set s value).get s = value := by
  cases s with
  | flag f => cases f <;> rfl
  | quantity q => cases q <;> rfl
  | excludedAppBundleIds => rfl

variable {s : Setting}

theorem get_set_other (config : ConfigData) {t : Setting} (value : s.Value) (h : t ≠ s) :
    (config.set s value).get t = config.get t := by
  cases s with
  | flag f =>
    cases t with
    | flag g => cases f <;> cases g <;> first | rfl | exact absurd rfl h
    | quantity | excludedAppBundleIds => cases f <;> rfl
  | quantity p =>
    cases t with
    | flag g => cases p <;> rfl
    | quantity q => cases p <;> cases q <;> first | rfl | exact absurd rfl h
    | excludedAppBundleIds => cases p <;> rfl
  | excludedAppBundleIds =>
    cases t with
    | flag | quantity => rfl
    | excludedAppBundleIds => exact absurd rfl h

theorem get_only_same (s : Setting) (value : s.Value) :
    (ConfigPatch.only s value).get s = some value := by
  cases s with
  | flag f => cases f <;> rfl
  | quantity q => cases q <;> rfl
  | excludedAppBundleIds => rfl

theorem get_only_other {t : Setting} (value : s.Value) (h : t ≠ s) :
    (ConfigPatch.only s value).get t = none := by
  cases s with
  | flag f =>
    cases t with
    | flag g => cases f <;> cases g <;> first | rfl | exact absurd rfl h
    | quantity q => cases f <;> cases q <;> rfl
    | excludedAppBundleIds => cases f <;> rfl
  | quantity p =>
    cases t with
    | flag g => cases p <;> cases g <;> rfl
    | quantity q => cases p <;> cases q <;> first | rfl | exact absurd rfl h
    | excludedAppBundleIds => cases p <;> rfl
  | excludedAppBundleIds =>
    cases t with
    | flag g => cases g <;> rfl
    | quantity q => cases q <;> rfl
    | excludedAppBundleIds => exact absurd rfl h

private theorem bind_ok {α β : Type} {result : Except ConfigError α}
    {next : α → Except ConfigError β} {b : β} (h : (result >>= next) = .ok b) :
    ∃ a, result = .ok a ∧ next a = .ok b := by
  cases result with
  | error reason => cases h
  | ok a => exact ⟨a, rfl, h⟩

private theorem ok_bind {α β : Type} {result : Except ConfigError α}
    {next : α → Except ConfigError β} {a : α} {b : β} (h : result = .ok a) (hnext : next a = .ok b) :
    (result >>= next) = .ok b := by
  rw [h]
  exact hnext

theorem checked_flag (current : Bool) (named : Option Bool) :
    checked (.ok : Bool → Except ConfigError Bool) current named = .ok (named.getD current) := by
  cases named <;> rfl

/-- What a patch makes of a configuration, setting by setting. -/
theorem apply_ok_iff {patch : ConfigPatch} {base next : ConfigData} :
    patch.apply base = .ok next ↔
      ∀ s : Setting, checked s.check (base.get s) (patch.get s) = .ok (next.get s) := by
  constructor
  · intro h
    unfold ConfigPatch.apply at h
    obtain ⟨poll, hpoll, h⟩ := bind_ok h
    obtain ⟨history, hhistory, h⟩ := bind_ok h
    obtain ⟨storage, hstorage, h⟩ := bind_ok h
    obtain ⟨retention, hretention, h⟩ := bind_ok h
    obtain ⟨dedup, hdedup, h⟩ := bind_ok h
    obtain ⟨text, htext, h⟩ := bind_ok h
    obtain ⟨image, himage, h⟩ := bind_ok h
    obtain ⟨file, hfile, h⟩ := bind_ok h
    obtain ⟨decoded, hdecoded, h⟩ := bind_ok h
    obtain ⟨excluded, hexcluded, h⟩ := bind_ok h
    obtain rfl := Except.ok.inj h
    intro s
    cases s with
    | flag f => cases f <;> exact checked_flag _ _
    | quantity q =>
      cases q with
      | pollIntervalMs => exact hpoll
      | historyLimit => exact hhistory
      | storageQuotaBytes => exact hstorage
      | retentionDays => exact hretention
      | dedupWindowSecs => exact hdedup
      | maxTextSizeBytes => exact htext
      | maxImageSizeBytes => exact himage
      | maxFileSizeBytes => exact hfile
      | maxDecodedImageMb => exact hdecoded
    | excludedAppBundleIds => exact hexcluded
  · intro h
    have hflag : ∀ f : Flag, (patch.get (.flag f)).getD (base.flag f) = next.flag f := by
      intro f
      have hf := h (.flag f)
      exact Except.ok.inj ((checked_flag _ _).symm.trans hf)
    refine ok_bind (h (.quantity .pollIntervalMs)) ?_
    refine ok_bind (h (.quantity .historyLimit)) ?_
    refine ok_bind (h (.quantity .storageQuotaBytes)) ?_
    refine ok_bind (h (.quantity .retentionDays)) ?_
    refine ok_bind (h (.quantity .dedupWindowSecs)) ?_
    refine ok_bind (h (.quantity .maxTextSizeBytes)) ?_
    refine ok_bind (h (.quantity .maxImageSizeBytes)) ?_
    refine ok_bind (h (.quantity .maxFileSizeBytes)) ?_
    refine ok_bind (h (.quantity .maxDecodedImageMb)) ?_
    refine ok_bind (h .excludedAppBundleIds) ?_
    apply congrArg Except.ok
    apply eq_of_get
    intro s
    cases s with
    | flag f =>
      refine Eq.trans ?_ (hflag f)
      cases f <;> rfl
    | quantity q => cases q <;> rfl
    | excludedAppBundleIds => rfl

/-- A patch that names one setting changes that one, if its value passes the check. -/
theorem apply_only (config : ConfigData) (s : Setting) (value : s.Value) :
    ((ConfigPatch.only s value).apply config).toOption =
      (s.check value).toOption.map (config.set s) := by
  cases hcheck : s.check value with
  | error reason =>
    cases happly : (ConfigPatch.only s value).apply config with
    | error reason => rfl
    | ok next =>
      have hs := apply_ok_iff.1 happly s
      rw [get_only_same, checked, hcheck] at hs
      cases hs
  | ok kept =>
    have happly : (ConfigPatch.only s value).apply config = .ok (config.set s kept) := by
      apply apply_ok_iff.2
      intro t
      by_cases hts : t = s
      · subst hts
        rw [get_only_same, get_set_same]
        exact hcheck
      · rw [get_only_other value hts, get_set_other config kept hts]
        rfl
    rw [happly]
    rfl

theorem range_ok_iff {field : String} {value kept : ℕ} {bounds : ℕ × ℕ} :
    range field value bounds = .ok kept ↔
      (bounds.1 ≤ value ∧ value ≤ bounds.2) ∧ kept = value := by
  unfold range
  split
  · constructor
    · intro h
      cases h
    · intro h
      omega
  · rw [Except.ok.injEq, eq_comm, iff_and_self]
    intro _
    omega

theorem utf8ByteSize_trim (id : String) :
    (String.ofList (trim id.toList)).utf8ByteSize ≤ id.utf8ByteSize := by
  obtain ⟨before, after, hid⟩ := trim_infix id.toList
  have hsplit : id = String.ofList before ++ String.ofList (trim id.toList) ++ String.ofList after := by
    rw [← String.ofList_append, ← String.ofList_append, ← hid, String.ofList_toList]
  have hsize := congrArg String.utf8ByteSize hsplit
  rw [String.utf8ByteSize_append, String.utf8ByteSize_append] at hsize
  omega

/-- What a patch keeps of a list, it would keep again as it is. -/
theorem exclusions_again {field : String} {list kept : List String}
    (h : exclusions field list = .ok kept) : exclusions field kept = .ok kept := by
  unfold exclusions at h
  split at h
  · cases h
  · next hlength =>
    split at h
    · cases h
    · next hentries =>
      obtain rfl := Except.ok.inj h
      have hbad : (list.map fun id => String.ofList (trim id.toList)).any (fun id =>
          (trim id.toList).isEmpty || decide (maxBundleIdLen < id.utf8ByteSize)) = false := by
        rw [List.any_eq_false]
        intro id hid
        obtain ⟨stored, hstored, rfl⟩ := List.mem_map.1 hid
        have hgood := List.any_eq_false.1 (Bool.eq_false_iff.2 hentries) stored hstored
        have hsize := utf8ByteSize_trim stored
        simp only [Bool.or_eq_true, decide_eq_true_eq, not_or] at hgood ⊢
        rw [String.toList_ofList, trim_trim]
        exact ⟨hgood.1, by omega⟩
      unfold exclusions
      rw [List.length_map, if_neg hlength, hbad, if_neg Bool.false_ne_true, List.map_map]
      apply congrArg Except.ok
      apply List.map_congr_left
      intro id _
      rw [Function.comp_apply, String.toList_ofList, trim_trim]

theorem check_again {value kept : s.Value} (h : s.check value = .ok kept) :
    s.check kept = .ok kept := by
  cases s with
  | flag f => rfl
  | quantity q =>
    have hkept := range_ok_iff.1 h
    exact range_ok_iff.2 ⟨hkept.2 ▸ hkept.1, rfl⟩
  | excludedAppBundleIds => exact exclusions_again h

/-- Only the entries of the list are kept otherwise than they are given. -/
theorem check_eq {value kept : s.Value} (h : s.check value = .ok kept)
    (hlist : s ≠ .excludedAppBundleIds) : kept = value := by
  cases s with
  | flag f => exact (Except.ok.inj h).symm
  | quantity q => exact (range_ok_iff.1 h).2
  | excludedAppBundleIds => exact absurd rfl hlist

/-- Every setting would pass its check and be kept as it is. -/
def InBounds (config : ConfigData) : Prop :=
  ∀ s : Setting, s.check (config.get s) = .ok (config.get s)

theorem inBounds_default : InBounds .default := by
  intro s
  cases s with
  | flag f => rfl
  | quantity q =>
    have hbounds : q.bounds.1 ≤ ConfigData.default.quantity q ∧
        ConfigData.default.quantity q ≤ q.bounds.2 := by cases q <;> decide
    exact range_ok_iff.2 ⟨hbounds, rfl⟩
  | excludedAppBundleIds => rfl

theorem inBounds_apply {patch : ConfigPatch} {base next : ConfigData} (hbase : InBounds base)
    (h : patch.apply base = .ok next) : InBounds next := by
  intro s
  have hs := apply_ok_iff.1 h s
  cases hnamed : patch.get s with
  | none =>
    rw [hnamed] at hs
    have hsame : base.get s = next.get s := Except.ok.inj hs
    rw [← hsame]
    exact hbase s
  | some value =>
    rw [hnamed] at hs
    exact check_again hs

/-- The configurations that patches make of the defaults. -/
inductive Reached : ConfigData → Prop
  | default : Reached .default
  | apply {base next : ConfigData} (patch : ConfigPatch) (reached : Reached base)
    (applied : patch.apply base = .ok next) : Reached next

theorem inBounds_reached {config : ConfigData} (h : Reached config) : InBounds config := by
  induction h with
  | default => exact inBounds_default
  | apply patch _ applied ih => exact inBounds_apply ih applied

end CopyPaste.Settings.Config
