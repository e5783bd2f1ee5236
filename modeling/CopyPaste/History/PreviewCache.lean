import CopyPaste.Lib.Frames
import CopyPaste.Lib.JsonTokens
import CopyPaste.Files.Complete
import CopyPaste.History.Preview

/-!
The cache of previews. An entry is sealed with the id and the fingerprint of the row it
was made from; whatever was stored before, late or forged, a row is resolved through the
cache to the item it gives without it.
-/

namespace CopyPaste.History.PreviewCache

open Lib.Frames Lib.Guarded Lib.JsonText Merge.Payload Preview

/-- The digest, and the cipher under the key of previews. -/
structure Sealing where
  digest : List UInt8 → List UInt8
  encrypt : List UInt8 → List UInt8 → List UInt8 → List UInt8
  decrypt : List UInt8 → List UInt8 → List UInt8 → Option (List UInt8)

/-- The cipher opens what it sealed, under the same nonce and associated data alone, and
no two byte strings have one digest. -/
structure Sealing.Ideal (sealing : Sealing) : Prop where
  opens : ∀ nonce message aad,
    sealing.decrypt nonce (sealing.encrypt nonce message aad) aad = some message
  binds : ∀ nonce message aad aad' message',
    sealing.decrypt nonce (sealing.encrypt nonce message aad) aad' = some message' → aad' = aad
  digest : Function.Injective sealing.digest

def nonceLen : Nat := 24

def tagLen : Nat := 16

def maxCacheBytes : Nat := 64 * 1024

def hashField (value : List UInt8) : List UInt8 :=
  toBigEndian 8 value.length ++ value

def hashMetadata : Option String → List UInt8
  | none => [0]
  | some json => 1 :: hashField (utf8 json)

def fingerprintSource (row : Row) : List UInt8 :=
  utf8 "copypaste/history-preview-source/v3" ++ (hashField (utf8 row.id) ++
    (hashField row.nonceBytes ++ (hashField (utf8 row.contentType) ++
      (hashMetadata row.payloadMetadata ++ (toBigEndian 8 row.contentCiphertext.length ++
        row.contentCiphertext)))))

def aad (id : String) (fingerprint : List UInt8) : List UInt8 :=
  utf8 "copypaste/v2/history-preview-v1|" ++ (hashField (utf8 id) ++ fingerprint)

structure Entry where
  nonce : List UInt8
  ciphertext : List UInt8

structure Pending where
  id : String
  entry : Entry

variable (readers : Readers) (tokens : Tokens) (sealing : Sealing)

def fingerprint (row : Row) : List UInt8 :=
  sealing.digest (fingerprintSource row)

def openPreview (entry : Entry) (id : String) (fingerprint : List UInt8) :
    Option (List UInt8) :=
  if entry.nonce.length ≠ nonceLen ∨ entry.ciphertext.length < tagLen then none
  else sealing.decrypt entry.nonce entry.ciphertext (aad id fingerprint)

/-- What fails while a row is resolved; each of it is no more than a miss. -/
structure Faults where
  fingerprint : Bool
  cache : Bool
  encrypt : Bool

def cachedPreview (cache : String → Option Entry) (row : Row) (fingerprint : List UInt8) :
    Option StaticHistoryPreview :=
  ((cache row.id).filter fun entry =>
      entry.nonce.length = nonceLen ∧ entry.ciphertext.length ≤ maxCacheBytes).bind fun entry =>
    (openPreview sealing entry row.id fingerprint).bind (fromSlice tokens)

def pendingOf (row : Row) (nonce : List UInt8) (preview : StaticHistoryPreview) :
    Option Pending :=
  let bytes := toVec tokens preview
  if maxCacheBytes - 16 < bytes.length then none
  else some ⟨row.id, nonce, sealing.encrypt nonce bytes (aad row.id (fingerprint sealing row))⟩

/-- `resolve`: the preview of a row, and what is to be stored of it. -/
def resolve (cache : String → Option Entry) (row : Row) (faults : Faults) (nonce : List UInt8) :
    Option StaticHistoryPreview × Option Pending :=
  let hit :=
    if faults.fingerprint || faults.cache then none
    else cachedPreview tokens sealing cache row (fingerprint sealing row)
  match hit with
  | some preview => (some preview, none)
  | none =>
    match openPayload readers row with
    | none => (none, none)
    | some payload =>
      let preview := fromOpenPayload readers row payload
      (some preview,
        if faults.fingerprint || faults.encrypt then none
        else pendingOf tokens sealing row nonce preview)

/-- The rows, the cache, and what was resolved and may yet be stored. -/
structure State where
  rows : String → Option Row
  cache : String → Option Entry
  generation : String
  pending : List Pending

inductive Op
  | write (row : Row)
  | remove (id : String)
  | resolve (row : Row) (faults : Faults) (nonce : List UInt8)
  | storePending (generation : String) (pending : List Pending) (evicted : List String)
  | forge (id : String) (entry : Entry)

/-- An entry is written for a live row of the generation it was read in. -/
def storeEntry (s : State) (generation : String) (cache : String → Option Entry)
    (entry : Pending) : String → Option Entry :=
  if (s.rows entry.id).any (fun row => !row.deleted) ∧ s.generation = generation then
    Function.update cache entry.id (some entry.entry)
  else cache

def evict (cache : String → Option Entry) (ids : List String) : String → Option Entry :=
  fun id => if id ∈ ids then none else cache id

def step (s : State) : Op → Option State
  | .write row => some { s with
      rows := Function.update s.rows row.id (some row)
      cache := if row.deleted then evict s.cache [row.id] else s.cache }
  | .remove id => some { s with
      rows := Function.update s.rows id none
      cache := evict s.cache [id] }
  | .resolve row faults nonce =>
    some { s with
      pending := (resolve readers tokens sealing s.cache row faults nonce).2.toList ++ s.pending }
  | .storePending generation pending evicted =>
    some { s with cache := evict (pending.foldl (storeEntry s generation) s.cache) evicted }
  | .forge id entry => some { s with cache := Function.update s.cache id (some entry) }

/-- It starts with any rows, and no preview. -/
def machine : Machine State Op where
  start s := s.cache = (fun _ => none) ∧ s.pending = []
  step := step readers tokens sealing

/-- A row that is resolved is stored at that time; what is stored was pending, at whatever
time before; and a forged entry opens under no associated data. -/
def Possible (s : State) : Op → Prop
  | .resolve row _ _ => s.rows row.id = some row
  | .storePending _ pending _ => pending ⊆ s.pending
  | .forge _ entry => ∀ aad, sealing.decrypt entry.nonce entry.ciphertext aad = none
  | _ => True

variable {sealing}

theorem hashField_append_inj {value value' rest rest' : List UInt8}
    (hvalue : value.length < 256 ^ 8) (hvalue' : value'.length < 256 ^ 8)
    (h : hashField value ++ rest = hashField value' ++ rest') : value = value' ∧ rest = rest' := by
  unfold hashField at h
  rw [List.append_assoc, List.append_assoc] at h
  obtain ⟨hlength, htail⟩ := List.append_inj h (by simp)
  have hsame : value.length = value'.length := by
    rw [← ofBigEndian_toBigEndian hvalue, hlength, ofBigEndian_toBigEndian hvalue']
  exact List.append_inj htail hsame

theorem hashMetadata_append_inj {metadata metadata' : Option String} {rest rest' : List UInt8}
    (hmetadata : ∀ json ∈ metadata, json.utf8ByteSize < 256 ^ 8)
    (hmetadata' : ∀ json ∈ metadata', json.utf8ByteSize < 256 ^ 8)
    (h : hashMetadata metadata ++ rest = hashMetadata metadata' ++ rest') :
    metadata = metadata' ∧ rest = rest' := by
  cases metadata with
  | none =>
    cases metadata' with
    | none => exact ⟨rfl, List.append_cancel_left h⟩
    | some json' => simp [hashMetadata] at h
  | some json =>
    cases metadata' with
    | none => simp [hashMetadata] at h
    | some json' =>
      have hfield := (List.cons.inj h).2
      obtain ⟨hjson, hrest⟩ := hashField_append_inj
        (by rw [length_utf8]; exact hmetadata json rfl)
        (by rw [length_utf8]; exact hmetadata' json' rfl) hfield
      exact ⟨congrArg some (utf8_injective hjson), hrest⟩

variable {row : Row} {cache : String → Option Entry} {s : State}

/-- Rows of one fingerprint have one payload. -/
theorem alike_of_source {row' : Row} (h : fingerprintSource row = fingerprintSource row') :
    row.Alike row' := by
  unfold fingerprintSource at h
  have hid : ∀ row : Row, (utf8 row.id).length < 256 ^ 8 := fun row => by
    rw [length_utf8]
    exact row.id_lt
  have htype : ∀ row : Row, (utf8 row.contentType).length < 256 ^ 8 := fun row => by
    rw [length_utf8]
    exact row.contentType_lt
  obtain ⟨hid, h⟩ := hashField_append_inj (hid row) (hid row') (List.append_cancel_left h)
  obtain ⟨hnonce, h⟩ := hashField_append_inj row.nonce_lt row'.nonce_lt h
  obtain ⟨htype, h⟩ := hashField_append_inj (htype row) (htype row') h
  obtain ⟨hmetadata, h⟩ :=
    hashMetadata_append_inj row.payloadMetadata_lt row'.payloadMetadata_lt h
  exact ⟨utf8_injective hid, hnonce, utf8_injective htype, hmetadata,
    (List.append_inj h (by simp)).2⟩

theorem aad_inj {id id' : String} {fingerprint fingerprint' : List UInt8}
    (hid : id.utf8ByteSize < 256 ^ 8) (hid' : id'.utf8ByteSize < 256 ^ 8)
    (h : aad id fingerprint = aad id' fingerprint') : id = id' ∧ fingerprint = fingerprint' := by
  obtain ⟨hbytes, hrest⟩ := hashField_append_inj (by rw [length_utf8]; exact hid)
    (by rw [length_utf8]; exact hid') (List.append_cancel_left h)
  exact ⟨utf8_injective hbytes, hrest⟩

variable (sealing)

/-- An entry opens nowhere, or holds the preview of a row for that row. -/
def Honest (entry : Entry) : Prop :=
  (∀ aad, sealing.decrypt entry.nonce entry.ciphertext aad = none) ∨
    ∃ row payload, openPayload readers row = some payload ∧
      entry.ciphertext = sealing.encrypt entry.nonce
        (toVec tokens (fromOpenPayload readers row payload))
        (aad row.id (fingerprint sealing row))

structure Inv (s : State) : Prop where
  cache : ∀ id entry, s.cache id = some entry → Honest readers tokens sealing entry
  pending : ∀ entry ∈ s.pending, Honest readers tokens sealing entry.entry

variable {readers tokens sealing}

theorem cachedPreview_eq (hideal : sealing.Ideal)
    (hcache : ∀ id entry, cache id = some entry → Honest readers tokens sealing entry)
    {preview : StaticHistoryPreview}
    (h : cachedPreview tokens sealing cache row (fingerprint sealing row) = some preview) :
    ∃ payload, openPayload readers row = some payload ∧
      preview = fromOpenPayload readers row payload := by
  obtain ⟨entry, hentry, hpreview⟩ := Option.bind_eq_some_iff.1 h
  obtain ⟨bytes, hopened, hparsed⟩ := Option.bind_eq_some_iff.1 hpreview
  have hheld := (Option.filter_eq_some_iff.1 hentry).1
  unfold openPreview at hopened
  split at hopened
  · cases hopened
  rcases hcache row.id entry hheld with hforged | ⟨source, payload, hpayload, hsealed⟩
  · rw [hforged] at hopened
    cases hopened
  · -- The seal binds the id and the fingerprint, and these the row.
    rw [hsealed] at hopened
    have haad := hideal.binds _ _ _ _ _ hopened
    obtain ⟨-, hdigest⟩ := aad_inj row.id_lt source.id_lt haad
    have halike := alike_of_source (hideal.digest hdigest)
    rw [haad, hideal.opens] at hopened
    obtain rfl := Option.some.inj hopened
    rw [fromSlice_toVec tokens (typed_fromOpenPayload readers hpayload)] at hparsed
    refine ⟨payload, (halike.openPayload readers).trans hpayload, ?_⟩
    rw [halike.fromOpenPayload readers]
    exact (Option.some.inj hparsed).symm

theorem honest_pending {faults : Faults} {nonce : List UInt8} :
    ∀ entry ∈ (resolve readers tokens sealing cache row faults nonce).2.toList,
      Honest readers tokens sealing entry.entry := by
  intro entry hentry
  unfold resolve at hentry
  dsimp only at hentry
  split at hentry
  · simp at hentry
  · split at hentry
    · simp at hentry
    · rename_i payload hpayload
      dsimp only at hentry
      split at hentry
      · simp at hentry
      · unfold pendingOf at hentry
        dsimp only at hentry
        split at hentry
        · simp at hentry
        · simp only [Option.toList_some, List.mem_singleton] at hentry
          subst hentry
          exact .inr ⟨row, payload, hpayload, rfl⟩

theorem honest_storeEntry {generation : String}
    (hcache : ∀ id entry, cache id = some entry → Honest readers tokens sealing entry)
    {pending : Pending} (hpending : Honest readers tokens sealing pending.entry) :
    ∀ id entry, storeEntry s generation cache pending id = some entry →
      Honest readers tokens sealing entry := by
  intro id entry hentry
  unfold storeEntry at hentry
  split at hentry
  · by_cases hid : id = pending.id
    · rw [hid, Function.update_self] at hentry
      obtain rfl := Option.some.inj hentry
      exact hpending
    · rw [Function.update_of_ne hid] at hentry
      exact hcache id entry hentry
  · exact hcache id entry hentry

theorem honest_storeAll {generation : String} {pending : List Pending}
    (hpending : ∀ entry ∈ pending, Honest readers tokens sealing entry.entry) :
    ∀ {cache : String → Option Entry},
      (∀ id entry, cache id = some entry → Honest readers tokens sealing entry) →
      ∀ id entry, pending.foldl (storeEntry s generation) cache id = some entry →
        Honest readers tokens sealing entry := by
  induction pending with
  | nil => exact fun hcache => hcache
  | cons first rest ih =>
    intro cache hcache
    exact ih (fun entry hentry => hpending entry (List.mem_cons_of_mem _ hentry))
      (honest_storeEntry hcache (hpending first List.mem_cons_self))

theorem honest_evict {ids : List String}
    (hcache : ∀ id entry, cache id = some entry → Honest readers tokens sealing entry) :
    ∀ id entry, evict cache ids id = some entry → Honest readers tokens sealing entry := by
  intro id entry hentry
  unfold evict at hentry
  split at hentry
  · cases hentry
  · exact hcache id entry hentry

theorem inv_step {s' : State} {op : Op} (h : Inv readers tokens sealing s)
    (hpossible : Possible sealing s op) (hstep : step readers tokens sealing s op = some s') :
    Inv readers tokens sealing s' := by
  cases op with
  | write row =>
    obtain rfl := Option.some.inj hstep
    refine ⟨?_, h.pending⟩
    dsimp only
    split
    · exact honest_evict h.cache
    · exact h.cache
  | remove id =>
    obtain rfl := Option.some.inj hstep
    exact ⟨honest_evict h.cache, h.pending⟩
  | resolve row faults nonce =>
    obtain rfl := Option.some.inj hstep
    refine ⟨h.cache, fun entry hentry => ?_⟩
    rcases List.mem_append.1 hentry with hnew | hold
    · exact honest_pending entry hnew
    · exact h.pending entry hold
  | storePending generation pending evicted =>
    obtain rfl := Option.some.inj hstep
    have hpending : ∀ entry ∈ pending, Honest readers tokens sealing entry.entry :=
      fun entry hentry => h.pending entry (hpossible hentry)
    exact ⟨honest_evict (honest_storeAll hpending h.cache), h.pending⟩
  | forge id entry =>
    obtain rfl := Option.some.inj hstep
    refine ⟨fun other held hheld => ?_, h.pending⟩
    dsimp only at hheld
    by_cases hid : other = id
    · rw [hid, Function.update_self] at hheld
      obtain rfl := Option.some.inj hheld
      exact .inl hpossible
    · rw [Function.update_of_ne hid] at hheld
      exact h.cache other held hheld

theorem inv_of_reaches (h : Reaches (machine readers tokens sealing) (Possible sealing) s) :
    Inv readers tokens sealing s := by
  refine Reaches.invariant ?_ (fun _ _ _ => inv_step) h
  rintro s ⟨hcache, hpending⟩
  constructor
  · intro id entry hentry
    rw [hcache] at hentry
    cases hentry
  · intro entry hentry
    rw [hpending] at hentry
    cases hentry

variable (readers tokens sealing)

/-- Resolved through the cache, a row gives the item that is built from its payload, and
none when the payload does not open. -/
theorem resolve_eq_openItem (hideal : sealing.Ideal) (s : State)
    (hs : Reaches (machine readers tokens sealing) (Possible sealing) s) (row : Row)
    (faults : Faults) (nonce : List UInt8) (origin : ItemOrigin) (localDeviceId : String) :
    ((resolve readers tokens sealing s.cache row faults nonce).1.map fun preview =>
          intoItem readers preview row origin localDeviceId) =
        openItem readers row origin localDeviceId true ∧
      ((resolve readers tokens sealing s.cache row faults nonce).1 = none ↔
        openPayload readers row = none) := by
  suffices hitem : ((resolve readers tokens sealing s.cache row faults nonce).1.map fun preview =>
      intoItem readers preview row origin localDeviceId) =
        openItem readers row origin localDeviceId true by
    refine ⟨hitem, ?_⟩
    unfold openItem at hitem
    rw [← Option.map_eq_none_iff, hitem, Option.map_eq_none_iff]
  unfold resolve openItem
  dsimp only
  split
  · rename_i preview hhit
    split at hhit
    · cases hhit
    · obtain ⟨payload, hpayload, rfl⟩ :=
        cachedPreview_eq hideal (inv_of_reaches hs).cache hhit
      rw [hpayload, Option.map_some, Option.map_some, intoItem_fromOpenPayload]
  · cases hpayload : openPayload readers row with
    | none => rfl
    | some payload =>
      dsimp only
      rw [Option.map_some, Option.map_some, intoItem_fromOpenPayload]

/-- A cipher for concrete runs, with the associated data behind the message. -/
def pack : List UInt8 → List UInt8 → List UInt8
  | [], aad => 0 :: aad
  | byte :: message, aad => 1 :: byte :: pack message aad

def unpack : List UInt8 → Option (List UInt8 × List UInt8)
  | 1 :: byte :: rest => (unpack rest).map fun found => (byte :: found.1, found.2)
  | 0 :: aad => some ([], aad)
  | _ => none

theorem unpack_pack (message aad : List UInt8) : unpack (pack message aad) = some (message, aad) := by
  induction message with
  | nil => rfl
  | cons byte message ih =>
    rw [pack, unpack, ih]
    rfl

def plainSealing : Sealing where
  digest := id
  encrypt _ message aad := pack message aad
  decrypt _ ciphertext aad := ((unpack ciphertext).filter fun found => found.2 = aad).map Prod.fst

theorem plainSealing_ideal : plainSealing.Ideal where
  opens nonce message aad := by
    simp [plainSealing, unpack_pack]
  binds nonce message aad aad' message' h := by
    simp only [plainSealing, unpack_pack, Option.filter_some] at h
    split at h
    · rename_i hsame
      exact (of_decide_eq_true hsame).symm
    · cases h
  digest := Function.injective_id

def plainReaders : Readers where
  host := sampleHost
  vault := Files.Complete.smallVault
  colorRgba _ := none
  isEmail _ := false
  isLink _ := false
  isPhone _ := false
  isJson _ := false
  isPath _ := false
  isCode _ := false
  fromUtf8Lossy _ := ""
  graphemes text := text.toList.map String.singleton
  imageMetadata _ := none
  isFile _ := false

def textRow : Row where
  id := "a"
  ownCiphertext := some (utf8 "hello")
  sharedCiphertext := none
  nonce := some []
  contentType := "text"
  payloadMetadata := none
  createdAt := 1
  pinned := false
  deleted := false
  appBundleId := none
  appName := none
  sourceIconId := none
  id_lt := by decide
  nonce_lt := by decide
  contentType_lt := by decide
  payloadMetadata_lt := by simp

def noFaults : Faults := ⟨false, false, false⟩

def anyNonce : List UInt8 := List.replicate nonceLen 7

def noPreviews : State := ⟨fun _ => none, fun _ => none, "", []⟩

def readOnce : List Op :=
  [.write textRow, .resolve textRow noFaults anyNonce, .storePending ""
    (resolve plainReaders plainTokens plainSealing (fun _ => none) textRow noFaults
      anyNonce).2.toList []]

theorem textRow_resolved :
    ((resolve plainReaders plainTokens plainSealing
        ((run (machine plainReaders plainTokens plainSealing) noPreviews readOnce).getD
          noPreviews).cache textRow noFaults anyNonce).1.map fun preview =>
          intoItem plainReaders preview textRow ⟨"here", none, .laptop⟩ "here") =
        openItem plainReaders textRow ⟨"here", none, .laptop⟩ "here" true := by
  refine (resolve_eq_openItem plainReaders plainTokens plainSealing plainSealing_ideal _ ?_ textRow
    noFaults anyNonce ⟨"here", none, .laptop⟩ "here").1
  have hstart : (machine plainReaders plainTokens plainSealing).start noPreviews := ⟨rfl, rfl⟩
  refine (Reaches.start noPreviews hstart).of_run_getD readOnce ?_ (by rfl) noPreviews
  refine ⟨trivial, fun first hfirst => ?_⟩
  obtain rfl := Option.some.inj hfirst
  refine ⟨rfl, fun second hsecond => ?_⟩
  obtain rfl := Option.some.inj hsecond
  exact ⟨List.subset_append_left _ _, fun _ _ => trivial⟩

end CopyPaste.History.PreviewCache
