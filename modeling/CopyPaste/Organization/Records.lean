import CopyPaste.Files.Bodies
import CopyPaste.History.Paging

/-!
The organization of the history: tags, the clips they are assigned to, and pins. Each is
kept as a record of its own, sealed like an item and stamped by its last write, and every
write of a record also writes the table its queries read. A gesture writes the records of
what it changes; a merge stores the records of other devices.
-/

namespace CopyPaste.Organization.Records

open Lib.Rows Merge.Comparator Merge.Payload Merge.Storage Merge.Prepare History.Paging
  Files.Bodies Upload.Scanning

def maxHistoryTags : Nat := 500

def maxTagClips : Nat := 500

/-- The only error the organization answers with. -/
inductive QueryError
  | invalidHistoryQuery
  deriving DecidableEq, Repr

/-- The host, the JSON of a record and the reader of what the item key sealed. -/
structure Organizer where
  host : Host
  render : Record → String
  openBinary : List UInt8 → String → Option (List UInt8)

/-- The readings of the clock in one operation, by the row it restamps or the record it
writes. -/
structure Clock where
  row : String → Int
  record : String → Int

section Doubles

/-- One, counted in the smallest positive double. -/
def one : Nat := 2 ^ 1074

/-- What the bits of a positive double stand for, counted in the smallest one. -/
def magnitude (bits : Nat) : Nat :=
  if bits < 2 ^ 52 then bits else (2 ^ 52 + bits % 2 ^ 52) * 2 ^ (bits / 2 ^ 52 - 1)

/-- The bits of the double nearest to a magnitude, the even one of two. -/
def rounded (value : Nat) : Nat :=
  if value < 2 ^ 53 then value
  else
    let shift := value.log2 - 52
    let quotient := value / 2 ^ shift
    let rest := value % 2 ^ shift
    let half := 2 ^ (shift - 1)
    shift * 2 ^ 52 + quotient + if half < rest ∨ rest = half ∧ quotient % 2 = 1 then 1 else 0

def asDouble (count : Nat) : PinOrder :=
  rounded (count * one)

/-- The double after the addition of one. -/
def plusOne : PinOrder → PinOrder
  | .ofNat bits => rounded (magnitude bits + one)
  | .negSucc bits =>
    if magnitude bits ≤ one then rounded (one - magnitude bits)
    else -rounded (magnitude bits - one) - 1

end Doubles

variable (sys : Organizer)

section Write

/-- One above what is held, and no earlier than now. -/
def nextStamp (previous : Option RecordRow) (now : Int) : Int :=
  match previous with
  | none => now
  | some held => max (saturatingSucc held.createdAt) now

/-- The stamp a record of a pin is not to be below. -/
def pinStamp (store : Store) : Record → Int
  | .pin clipId _ _ => ((lookup ItemRow.id store.items clipId).map ItemRow.pinUpdatedAt).getD 0
  | _ => 0

def recordHash (record : Record) : String :=
  sys.host.sha256 (utf8 (sys.render record))

def localRecord (record : Record) (stamp : Int) : IncomingItem where
  id := record.id sys.host
  payload :=
    some (sys.host.encrypt recordContentType (record.id sys.host) (utf8 (sys.render record)))
  contentType := recordContentType
  contentHash := recordHash sys record
  createdAt := stamp
  deleted := false
  originDeviceId := ""
  appBundleId := none
  appName := none
  pinned := false
  pinOrder := none
  pinUpdatedAt := 0
  searchText := some (sys.render record)
  payloadMetadata := none

/-- Write a record unless the one held says the same. -/
def write (clock : Clock) (store : Store) (record : Record) : Except QueryError Store :=
  if !record.valid then .error .invalidHistoryQuery
  else
    let previous := lookup RecordRow.id store.records (record.id sys.host)
    if previous.any fun held => held.contentHash = recordHash sys record then .ok store
    else
      let stamp := max (nextStamp previous (clock.record (record.id sys.host)))
        (pinStamp store record)
      .ok (store.upsertRecord sys.host (localRecord sys record stamp)).1

/-- Write the record of a live row's pin. -/
def writePin (clock : Clock) (store : Store) (id : String) : Except QueryError Store :=
  match liveRow store id with
  | none => .ok store
  | some row => write sys clock store (.pin id row.pinned row.pinOrder)

/-- A stored record as another device receives it. -/
def serve (row : RecordRow) : Option RemoteVersion := do
  let payload ← row.payload
  let bytes ← sys.openBinary payload.2 row.id
  return {
    itemId := row.id
    content := ""
    binaryContent := some bytes
    payloadMetadata := none
    contentType := recordContentType
    createdAt := row.createdAt
    deleted := false
    contentHash := some row.contentHash
    originDeviceId := originOr row.originDeviceId sys.host.here
    appBundleId := none
    appName := none }

end Write

section Pins

/-- Update the row of an id where it meets a condition. -/
def repin (store : Store) (id : String) (condition : ItemRow → Bool) (f : ItemRow → ItemRow) :
    Store :=
  { store with
    items := store.items.map fun row => if row.id = id ∧ condition row then f row else row }

def livePinned (row : ItemRow) : Bool :=
  !row.deleted && row.pinned

def lastOrder (store : Store) : PinOrder :=
  plusOne (((store.items.filter livePinned).filterMap ItemRow.pinOrder).max?.getD (asDouble 0))

/-- The stamp of a row's pin once it is set. -/
def nextPinStamp (clock : Clock) (row : ItemRow) : Int :=
  max (saturatingSucc row.pinUpdatedAt) (clock.row row.id)

/-- The rows after a pin is set or removed. A row that is pinned already stays. -/
def withPin (clock : Clock) (store : Store) (row : ItemRow) (pinned : Bool) : Store :=
  if pinned then
    repin store row.id (fun row => !row.deleted && !row.pinned) fun held =>
      { held with
        pinned := true
        pinUpdatedAt := nextPinStamp clock row
        pinOrder := some (lastOrder store) }
  else
    repin store row.id (fun row => !row.deleted) fun held =>
      { held with pinned := false, pinOrder := none, pinUpdatedAt := nextPinStamp clock row }

/-- Pin or unpin a live row and publish it. -/
def setPinned (clock : Clock) (store : Store) (id : String) (pinned : Bool) :
    Except QueryError (Store × Bool) := do
  match liveRow store id with
  | none => return (store, false)
  | some row =>
    let store ← writePin sys clock (withPin clock store row pinned) id
    return (store, true)

/-- The pinned rows in their order. -/
def currentPins (store : Store) : List ItemRow :=
  orderBy pinnedOrder (store.items.filter livePinned)

/-- The rows named, each once and as they were named. -/
def named (current : List ItemRow) (ids : List String) : List ItemRow :=
  ids.foldl (fun ordered id =>
    match lookup ItemRow.id current id with
    | none => ordered
    | some row =>
      if ordered.any fun placed => placed.id = row.id then ordered else ordered ++ [row]) []

/-- The rows named and then the others. -/
def placed (current : List ItemRow) (ids : List String) : List ItemRow :=
  named current ids ++ current.filter fun row =>
    !(named current ids).any fun placed => placed.id = row.id

/-- Number the rows from one upward. -/
def renumber (clock : Clock) (store : Store) : Nat → List ItemRow → Store
  | _, [] => store
  | index, row :: rest =>
    renumber clock
      (repin store row.id livePinned fun held =>
        { held with
          pinOrder := some (asDouble (index + 1))
          pinUpdatedAt := nextPinStamp clock row })
      (index + 1) rest

def writePins (clock : Clock) (store : Store) : List ItemRow → Except QueryError Store
  | [] => .ok store
  | row :: rest => do
    let store ← writePin sys clock store row.id
    writePins clock store rest

/-- The rows after the pinned ones are put in an order. -/
def reordered (clock : Clock) (store : Store) (ids : List String) : Store :=
  renumber clock store 0 (placed (currentPins store) ids)

/-- Put the pinned rows in an order and publish all of them. -/
def reorderPinned (clock : Clock) (store : Store) (ids : List String) :
    Except QueryError (Store × Nat) := do
  let ordered := placed (currentPins store) ids
  let store ← writePins sys clock (reordered clock store ids) ordered
  return (store, ordered.length)

end Pins

section Seed

/-- A legacy copy of a record: it leaves the items, and becomes a record when its id has
none. -/
def adoptLegacyRecord (store : Store) (copy : ItemRow) : Store :=
  let held := store.records.any fun record => record.id = copy.id
  let store := { store with items := store.items.filter fun row => row.id ≠ copy.id }
  match copy.payload.filter fun _ =>
      !held && !copy.deleted && copy.contentType == recordContentType with
  | none => store
  | some payload =>
    match (sys.openBinary payload.2 copy.id).bind fromUtf8 with
    | none => store
    | some text =>
      (store.upsertRecord sys.host
        { id := copy.id
          payload := some ([], payload.2)
          contentType := recordContentType
          contentHash := copy.contentHash
          createdAt := copy.createdAt
          deleted := false
          originDeviceId := copy.originDeviceId
          appBundleId := none
          appName := none
          pinned := false
          pinOrder := none
          pinUpdatedAt := 0
          searchText := some text
          payloadMetadata := none }).1

def adoptLegacyRecords (store : Store) : Store :=
  (store.items.filter fun row => isRecordId row.id).foldl (adoptLegacyRecord sys) store

/-- Up to a hundred live rows that are pinned, or were, and have no pin record. -/
def unseeded (store : Store) : List ItemRow :=
  (store.items.filter fun row =>
    !row.deleted && (row.pinned || decide (0 < row.pinUpdatedAt)) &&
      (lookup PinState.clipId store.pinStates row.id).isNone).take 100

/-- One transaction of the seeding; the first also adopts the legacy copies. The seeding
ends with the round that finds nothing. -/
def seedRound (clock : Clock) (store : Store) (adopt : Bool) :
    Except QueryError (Store × Bool) := do
  let store := if adopt then adoptLegacyRecords sys store else store
  let rows := unseeded store
  let seeded ← writePins sys clock store rows
  return (seeded, rows.isEmpty)

end Seed

section Tags

/-- What a user does to the tags; the id of a new tag is drawn. -/
inductive HistoryTagMutation
  | save (id : Option String) (name : String) (drawn : String)
  | delete (id : String)
  | assign (clipIds tagIds : List String) (assigned : Bool)
  deriving DecidableEq, Repr

/-- ASCII letters in either case are one in `NOCASE`. -/
def nocase (name : String) : List Char :=
  name.toList.map Char.toLower

def liveTags (store : Store) : List TagRow :=
  store.tags.filter fun tag => !tag.deleted

def tagExists (store : Store) (id : String) : Bool :=
  (liveTags store).any fun tag => tag.id = id

def isPinned (store : Store) (id : String) : Bool :=
  store.items.any fun row => row.id = id && livePinned row

def assignClips (clock : Clock) (store : Store) (tagId : String) (assigned : Bool) :
    List String → Except QueryError Store
  | [] => .ok store
  | clipId :: rest => do
    if !isPinned store clipId then throw .invalidHistoryQuery
    let store ← write sys clock store (.membership clipId tagId assigned)
    assignClips clock store tagId assigned rest

def assignTags (clock : Clock) (store : Store) (clipIds : List String) (assigned : Bool) :
    List String → Except QueryError Store
  | [] => .ok store
  | tagId :: rest => do
    if !tagExists store tagId then throw .invalidHistoryQuery
    let store ← assignClips sys clock store tagId assigned clipIds
    assignTags clock store clipIds assigned rest

def savedId (store : Store) (id : Option String) (drawn : String) : Except QueryError String :=
  match id with
  | some id => if tagExists store id then .ok id else .error .invalidHistoryQuery
  | none =>
    if maxHistoryTags ≤ (liveTags store).length then .error .invalidHistoryQuery else .ok drawn

def mutateHistoryTags (clock : Clock) (store : Store) :
    HistoryTagMutation → Except QueryError Store
  | .save id name drawn => do
    let id ← savedId store id drawn
    let name := String.ofList (trim name.toList)
    if (liveTags store).any fun tag => nocase tag.name = nocase name ∧ tag.id ≠ id then
      throw .invalidHistoryQuery
    write sys clock store (.tag id name false)
  | .delete id =>
    match (liveTags store).find? fun tag => tag.id = id with
    | none => .ok store
    | some tag => write sys clock store (.tag id tag.name true)
  | .assign clipIds tagIds assigned =>
    if maxTagClips < clipIds.length ∨ maxHistoryTags < tagIds.length ∨
        5000 < clipIds.length * tagIds.length then .error .invalidHistoryQuery
    else assignTags sys clock store clipIds assigned tagIds

end Tags

section Queries

structure HistoryTag where
  id : String
  name : String
  deriving DecidableEq, Repr

/-- `name COLLATE NOCASE, id`. -/
def tagOrder (tag : TagRow) : List Char ×ₗ String :=
  toLex (nocase tag.name, tag.id)

def inTagOrder (tags : List TagRow) : List TagRow :=
  tags.insertionSort fun a b => tagOrder a ≤ tagOrder b

/-- The tags, refused when there are more of them than the limit. -/
def catalogue (store : Store) : Except QueryError (List HistoryTag) :=
  let tags := ((inTagOrder (liveTags store)).take (maxHistoryTags + 1)).map fun tag =>
    (⟨tag.id, tag.name⟩ : HistoryTag)
  if maxHistoryTags < tags.length then .error .invalidHistoryQuery else .ok tags

inductive DeviceClass
  | desktop
  | laptop
  | phone
  | tablet
  | unknown
  deriving DecidableEq, Repr

def DeviceClass.fromWireName (value : String) : DeviceClass :=
  if value = "desktop" then .desktop
  else if value = "laptop" then .laptop
  else if value = "phone" then .phone
  else if value = "tablet" then .tablet
  else .unknown

structure DeviceProfile where
  name : Option String
  deviceClass : Option String

structure HistoryDeviceFacet where
  id : String
  label : String
  deviceClass : DeviceClass
  deriving DecidableEq, Repr

structure HistorySourceAppFacet where
  id : String
  label : String
  iconId : Option String
  deriving DecidableEq, Repr

structure HistoryFacets where
  originDevices : List HistoryDeviceFacet
  sourceApps : List HistorySourceAppFacet
  tags : List HistoryTag
  deriving DecidableEq, Repr

def isBlank (label : String) : Bool :=
  (trim label.toList).isEmpty

/-- The devices the live rows come from, with this one's own profile. -/
def originFacets (profiles : String → DeviceProfile) (localId localName : String)
    (localClass : DeviceClass) (store : Store) : List HistoryDeviceFacet :=
  let resolved := (store.items.filter fun row => !row.deleted).map fun row =>
    if row.originDeviceId = "" then localId else row.originDeviceId
  let facets := resolved.eraseDups.filterMap fun id =>
    let label := if id = localId then some localName else (profiles id).name
    if id = "" then none
    else (label.filter fun label => !isBlank label).map fun label =>
      (⟨id, label, if id = localId then localClass
        else ((profiles id).deviceClass.map DeviceClass.fromWireName).getD .unknown⟩ :
          HistoryDeviceFacet)
  facets.insertionSort fun a b => toLex (a.label, a.id) ≤ toLex (b.label, b.id)

def appRows (store : Store) (appId : String) : List (String × Option String) :=
  (orderBy rowRecency (store.items.filter fun row => !row.deleted)).filterMap fun row =>
    if row.appBundleId = some appId then
      (row.appName.filter fun label => !isBlank label).map fun label => (label, row.sourceIconId)
    else none

/-- The apps the live rows come from: the newest label and the newest icon of each. -/
def sourceAppFacets (store : Store) : List HistorySourceAppFacet :=
  let live := store.items.filter fun row => !row.deleted
  let appIds := (live.filterMap ItemRow.appBundleId).eraseDups
  let facets := appIds.filterMap fun appId =>
    if appId = "" then none
    else (appRows store appId).head?.map fun newest =>
      (⟨appId, newest.1, (appRows store appId).findSome? Prod.snd⟩ : HistorySourceAppFacet)
  facets.insertionSort fun a b => toLex (a.label, a.id) ≤ toLex (b.label, b.id)

def historyFacets (profiles : String → DeviceProfile) (localId localName : String)
    (localClass : DeviceClass) (store : Store) : Except QueryError HistoryFacets := do
  let tags ← catalogue store
  return ⟨originFacets profiles localId localName localClass store, sourceAppFacets store, tags⟩

end Queries

end CopyPaste.Organization.Records
