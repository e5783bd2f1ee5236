import CopyPaste.History.Recapture

/-!
Local writes against the versions they replace. A device that holds the old version of
an item takes the change only where the new version outranks it. Which writes restamp a
row for that, and which leave a change that no other device will take.
-/

namespace CopyPaste.History.Outrank

open Lib.Rows Lib.Shared Upload.Scanning Merge.Comparator Merge.Payload Merge.Storage Merge.Prepare
  Merge.Effects Files.Tables Files.Reseal Ingest Current Recapture

open Files.Bodies hiding Op Op.run

variable (host : Host) (vault : Vault)

inductive LocalWrite
  | delete (id : String) (now : Int)
  | deleteAllThrough (through : List String) (now : Int)
  | promoteCopied (id : String) (copiedAt : Int)
  | setSecret (id : String) (secret : Bool) (now : Int)
  | insertOrBump (item : Capture)
  | insertFileTransfer (item : NewItem) (reader : Reader) (size : Nat) (sha256 : String)
      (nonces : Nat → List UInt8) (explicit : Bool)
  | replaceFileTransfer (item : NewItem) (reader : Reader) (size : Nat) (sha256 : String)
      (nonces : Nat → List UInt8)
  | insertFileReference (item : NewItem) (file : Reference) (deduplicate : Bool)

/-- The live rows that are not pinned, of those stored at or before a row number. -/
def clearable (store : Store) (through : List String) : List String :=
  (store.items.filter fun row => !row.pinned && decide (row.id ∈ through)).map (·.id)

/-- The database after a write that commits; one that fails leaves it as it was. -/
def LocalWrite.run (disk : Disk) : LocalWrite → Option Disk
  | .delete id now => some (deleteRows disk [id] now)
  | .deleteAllThrough through now => some (deleteRows disk (clearable disk.store through) now)
  | .promoteCopied id copiedAt =>
    (Ingest.promoteCopied disk.store id copiedAt).toOption.map fun done => disk.settle done.1
  | .setSecret id secret now =>
    (Ingest.setSecret host vault disk.store id secret now).toOption.map fun done => disk.settle done.1
  | .insertOrBump item =>
    (Ingest.insertOrBump host disk.store item).toOption.map fun done => disk.settle done.1
  | .insertFileTransfer item reader size sha256 nonces explicit =>
    (Files.Bodies.insertFileTransfer host vault disk item reader size sha256 nonces explicit).toOption
  | .replaceFileTransfer item reader size sha256 nonces =>
    (Files.Bodies.replaceFileTransfer host vault disk item reader size sha256 nonces).toOption
  | .insertFileReference item file deduplicate =>
    (Ingest.insertFileReference host disk item file deduplicate).toOption.map Prod.fst

/-- A device that holds the one version takes the other. -/
def takes (row row' : ItemRow) : Prop :=
  mergeDecisionBySummary (storedSummary host row.toVersion) (storedSummary host row'.toVersion) =
    .takeRemote

/-- Each row below the last stamp is left as it is or outranked under its id. -/
def Outranks (before after : Store) : Prop :=
  ∀ row ∈ before.items, row.createdAt < maxStamp →
    row ∈ after.items ∨ ∃ row' ∈ after.items, row'.id = row.id ∧ takes host row row'

/-- A stamp and a hash above those of a row, in the order a merge compares them. -/
def Above (row : ItemRow) (item : NewItem) : Prop :=
  row.createdAt < item.createdAt ∨
    row.createdAt = item.createdAt ∧ row.contentHash < item.contentHash

instance (row : ItemRow) (item : NewItem) : Decidable (Above row item) := by
  unfold Above
  infer_instance

/-- A capture that does not raise the row of its content, asks for no restriction and no
credentials that the row does not have, and yet finds restrictions or credentials to
write, in another text than the stored one. -/
structure Rewrites (store : Store) (item : Capture) (row : ItemRow) : Prop where
  low : item.createdAt ≤ row.createdAt ∨ ¬ Room store { row with createdAt := item.createdAt }
  restrictions : combinedPrivacy host row (item.privacy host) = clipboardPrivacy host row
  readable : repairsText host row (item.indexed host) = false
  credentials : item.credentials host = true →
    ((parsedMetadata host row).getD {}).credentials = true
  something : (clipboardPrivacy host row).isEmpty = false ∨ item.credentials host = true
  rewritten : PayloadMetadata.toJson host
    { (parsedMetadata host row).getD {} with privacy := clipboardPrivacy host row }
    row.contentType ≠ row.payloadMetadata

/-- The writes that outrank all they change. -/
def Rises (disk : Disk) : LocalWrite → Prop
  | .insertOrBump item =>
    ∀ row, newestLiveWithRepresentation disk.store item.contentHash item.contentType = some row →
      row.createdAt < maxStamp → ¬ Rewrites host disk.store item row
  | .insertFileTransfer item _ _ _ _ explicit =>
    explicit = false → ∀ row ∈ disk.store.items, row.id = item.id → row.deleted = true →
      row.createdAt < maxStamp → Above row item
  | .replaceFileTransfer item _ _ _ _ =>
    ∀ row, liveRow disk.store item.id = some row → row.createdAt < maxStamp →
      Above row item ∨ replacedRow item row = row
  | .delete _ _ | .deleteAllThrough _ _ | .promoteCopied _ _ | .setSecret _ _ _
  | .insertFileReference _ _ _ => True

variable {host vault}

variable {row row' : ItemRow} {item : NewItem} {store after : Store} {id sha256 : String}
  {ingested : Ingested} {reader : Reader} {size : Nat} {nonces : Nat → List UInt8}

theorem takes_iff :
    takes host row row' ↔ row.createdAt < row'.createdAt ∨ row.createdAt = row'.createdAt ∧
      (row.contentHash < row'.contentHash ∨ row.contentHash = row'.contentHash ∧
        (row.deleted < row'.deleted ∨ row.deleted = row'.deleted ∧
          originOr row.originDeviceId host.here < originOr row'.originDeviceId host.here)) := by
  unfold takes
  rw [mergeDecisionBySummary_takeRemote_iff]
  exact versionKey_lt_iff _ _ _ _ _ _ _ _

theorem takes_of_later (h : row.createdAt < row'.createdAt) : takes host row row' :=
  takes_iff.2 (.inl h)

theorem not_takes_self (row : ItemRow) : ¬ takes host row row := by
  rw [takes_iff]
  simp only [lt_irrefl, and_false, or_false, not_false_eq_true]

/-- A new version of the same state and origin is taken for its stamp or its hash. -/
theorem takes_iff_above (hstamp : row'.createdAt = item.createdAt)
    (hhash : row'.contentHash = item.contentHash)
    (hkept : row.deleted = true ∧ row'.deleted = false ∨
      row'.deleted = row.deleted ∧ row'.originDeviceId = row.originDeviceId) :
    takes host row row' ↔ Above row item := by
  rw [takes_iff, hstamp, hhash]
  unfold Above
  rcases hkept with ⟨hold, hnew⟩ | ⟨hdeleted, horigin⟩
  · have hstate : ¬ (true : Bool) < false := by decide
    simp only [hold, hnew, hstate, Bool.true_eq_false, false_and, or_false, and_false]
  · simp only [hdeleted, horigin, lt_irrefl, and_false, or_false]

theorem outranks_replaced (hids : (store.items.map ItemRow.id).Nodup) {old : ItemRow}
    (hold : old ∈ store.items) (hid : row.id = old.id) :
    Outranks host store (replaced store row) ↔
      (old.createdAt < maxStamp → row = old ∨ takes host old row) := by
  constructor
  · intro h hbelow
    rcases h old hold hbelow with hkept | ⟨row', hrow', hid', htakes⟩
    · obtain ⟨other, hother, hsame⟩ := List.mem_map.1 hkept
      split at hsame
      · exact .inl hsame
      · rename_i hne
        rw [hsame, hid] at hne
        exact absurd rfl hne
    · obtain ⟨other, hother, rfl⟩ := List.mem_map.1 hrow'
      split at htakes
      · exact .inr htakes
      · rename_i hne
        rw [if_neg hne, ← hid] at hid'
        exact absurd hid' hne
  · intro h other hother hbelow
    by_cases hsame : other.id = row.id
    · obtain rfl : other = old := List.inj_on_of_nodup_map hids hother hold (hsame.trans hid)
      rcases h hbelow with rfl | htakes
      · exact .inl (mem_replaced hother rfl)
      · exact .inr ⟨row, mem_replaced hother hsame, hid, htakes⟩
    · exact .inl (List.mem_map.2 ⟨other, hother, if_neg hsame⟩)

theorem outranks_of_subset {before : Store} (h : before.items ⊆ after.items) :
    Outranks host before after :=
  fun _ hrow _ => .inl (h hrow)

/-- A deletion restamps the rows it takes. -/
theorem outranks_deleteRows (disk : Disk) (ids : List String) (now : Int) :
    Outranks host disk.store (deleteRows disk ids now).store := by
  intro row hrow hbelow
  by_cases htaken : row.id ∈ ids ∧ row.deleted = false
  · refine .inr ⟨tombstone now row, List.mem_map.2 ⟨row, hrow, if_pos htaken⟩, rfl, ?_⟩
    apply takes_of_later
    have hstamp : row.createdAt ≠ 2 ^ 63 - 1 := hbelow.ne
    simp only [tombstone, if_neg hstamp]
    omega
  · exact .inl (List.mem_map.2 ⟨row, hrow, if_neg htaken⟩)

theorem saturatingSucc_later {stamp : Int} (h : stamp < maxStamp) : stamp < saturatingSucc stamp := by
  have hmax : maxStamp = 2 ^ 63 - 1 := rfl
  unfold saturatingSucc
  omega

theorem outranks_writeRow (hids : (store.items.map ItemRow.id).Nodup) {old : ItemRow}
    (hold : old ∈ store.items) (hwrite : writeRow store row = .ok after) (hid : row.id = old.id)
    (hlater : old.createdAt < maxStamp → old.createdAt < row.createdAt) :
    Outranks host store after := by
  rw [writeRow_eq] at hwrite
  split at hwrite
  · obtain rfl := Except.ok.inj hwrite
    exact (outranks_replaced hids hold hid).2 fun hbelow => .inr (takes_of_later (hlater hbelow))
  · cases hwrite

theorem outranks_promoteCopied (hids : (store.items.map ItemRow.id).Nodup) {copiedAt : Int}
    {answer : Option Int} (h : promoteCopied store id copiedAt = .ok (after, answer)) :
    Outranks host store after := by
  unfold promoteCopied at h
  split at h
  · obtain ⟨rfl, -⟩ := Prod.mk.inj (Except.ok.inj h)
    exact outranks_of_subset (List.Subset.refl _)
  · rename_i row hlive
    obtain ⟨hrow, -, -⟩ := mem_of_liveRow hlive
    cases hwrite : writeRow store { row with createdAt := copiedStamp store row copiedAt } with
    | error e =>
      simp only [hwrite] at h
      cases h
    | ok written =>
      simp only [hwrite] at h
      obtain ⟨rfl, -⟩ := Prod.mk.inj (Except.ok.inj h)
      refine outranks_writeRow hids hrow hwrite rfl fun hbelow => ?_
      have hlater := saturatingSucc_later hbelow
      change row.createdAt < copiedStamp store row copiedAt
      unfold copiedStamp
      omega

/-- A choice about secrecy restamps its row. -/
theorem secretRow_later {secret : Bool} {now : Int}
    (h : secretRow host vault row secret now = .ok row') :
    row'.id = row.id ∧ (row.createdAt < maxStamp → row.createdAt < row'.createdAt) := by
  unfold secretRow at h
  dsimp only at h
  split at h
  · cases h
  · split at h
    · cases h
    · obtain rfl := Except.ok.inj h
      refine ⟨rfl, fun hbelow => ?_⟩
      have hlater := saturatingSucc_later hbelow
      simp only [choiceStamp]
      omega

theorem outranks_setSecret (hids : (store.items.map ItemRow.id).Nodup) {secret : Bool} {now : Int}
    {answer : Bool} (h : setSecret host vault store id secret now = .ok (after, answer)) :
    Outranks host store after := by
  unfold setSecret at h
  split at h
  · obtain ⟨rfl, -⟩ := Prod.mk.inj (Except.ok.inj h)
    exact outranks_of_subset (List.Subset.refl _)
  · rename_i row hlive
    obtain ⟨hrow, -, -⟩ := mem_of_liveRow hlive
    cases hsecret : secretRow host vault row secret now with
    | error e =>
      simp only [hsecret] at h
      cases h
    | ok chosen =>
      cases hwrite : writeRow store chosen with
      | error e =>
        simp only [hsecret, bind, Except.bind, hwrite] at h
        cases h
      | ok written =>
        simp only [hsecret, bind, Except.bind, hwrite] at h
        obtain ⟨rfl, -⟩ := Prod.mk.inj (Except.ok.inj h)
        obtain ⟨hid, hlater⟩ := secretRow_later hsecret
        exact outranks_writeRow hids hrow hwrite hid hlater

/-- A capture raises its row where the index has room for the new stamp. -/
theorem bumpInTx_cases (store : Store) (existing : ItemRow) (createdAt : Int)
    (bundle name icon : Option String) :
    ((createdAt ≤ existing.createdAt ∨ ¬ Room store { existing with createdAt }) ∧
        bumpInTx store existing createdAt bundle name icon = (store, existing)) ∨
      ∃ bumped : ItemRow, bumped.id = existing.id ∧ existing.createdAt < bumped.createdAt ∧
        ¬ (createdAt ≤ existing.createdAt ∨ ¬ Room store { existing with createdAt }) ∧
        bumpInTx store existing createdAt bundle name icon = (replaced store bumped, bumped) := by
  unfold bumpInTx
  split
  · rename_i hlow
    exact .inl ⟨.inl hlow, rfl⟩
  · rename_i hhigh
    dsimp only
    rw [writeRow_eq]
    by_cases hroom : Room store { existing with
        createdAt, appBundleId := bundle, appName := name, sourceIconId := icon }
    · rw [if_pos hroom]
      exact .inr ⟨{ existing with
        createdAt, appBundleId := bundle, appName := name, sourceIconId := icon }, rfl,
        not_le.1 hhigh, not_or.2 ⟨hhigh, not_not_intro hroom⟩, rfl⟩
    · rw [if_neg hroom]
      exact .inl ⟨.inr hroom, rfl⟩

theorem replaced_replaced (store : Store) (hid : row'.id = row.id) :
    replaced (replaced store row) row' = replaced store row' := by
  unfold replaced
  rw [List.map_map]
  congr 1
  refine List.map_congr_left fun old _ => ?_
  rw [Function.comp_apply, hid]
  by_cases hold : old.id = row.id
  · simp only [if_pos hold, if_true]
  · simp only [if_neg hold]

theorem refreshedRow_stamp {refreshed : ItemRow} {privacy : ClipboardPrivacy} {credentials : Bool}
    {text : Option String} (h : refreshedRow host row privacy credentials text = some refreshed) :
    refreshed.id = row.id ∧ (refreshed.createdAt = row.createdAt ∨
      refreshed.createdAt = saturatingSucc row.createdAt) := by
  unfold refreshedRow at h
  dsimp only at h
  split at h
  · cases h
  · obtain rfl := Option.some.inj h
    refine ⟨rfl, ?_⟩
    dsimp only
    split
    · exact .inr rfl
    · exact .inl rfl

theorem not_rewrites_of_none {item : Capture}
    (h : refreshedRow host row (item.privacy host) (item.credentials host)
      (item.indexed host) = none) : ¬ Rewrites host store item row := by
  intro hrewrites
  unfold refreshedRow at h
  dsimp only at h
  split at h
  · rename_i hnothing
    rw [hrewrites.restrictions, Bool.and_eq_true, Bool.and_eq_true] at hnothing
    rcases hrewrites.something with hsome | hsome
    · rw [hsome] at hnothing
      simp at hnothing
    · rw [hsome] at hnothing
      simp at hnothing
  · cases h

/-- A refreshed row that is not raised is a rewrite at the stamp the row had. -/
theorem refreshed_iff {item : Capture} {refreshed : ItemRow}
    (hlow : item.createdAt ≤ row.createdAt ∨
      ¬ Room store { row with createdAt := item.createdAt }) (hbelow : row.createdAt < maxStamp)
    (h : refreshedRow host row (item.privacy host) (item.credentials host)
      (item.indexed host) = some refreshed) :
    (refreshed = row ∨ takes host row refreshed) ↔ ¬ Rewrites host store item row := by
  unfold refreshedRow at h
  dsimp only at h
  split at h
  · cases h
  rename_i hsomething
  obtain rfl := Option.some.inj h
  by_cases hchanged : combinedPrivacy host row (item.privacy host) ≠ clipboardPrivacy host row ∨
      repairsText host row (item.indexed host) = true ∨
      (((parsedMetadata host row).getD {}).credentials || item.credentials host) ≠
        ((parsedMetadata host row).getD {}).credentials
  · have hnot : ¬ Rewrites host store item row := by
      intro hrewrites
      rcases hchanged with hprivacy | hrepair | hcredentials
      · exact hprivacy hrewrites.restrictions
      · rw [hrewrites.readable] at hrepair
        cases hrepair
      · cases hitem : item.credentials host with
        | true =>
          rw [hitem, hrewrites.credentials hitem] at hcredentials
          exact hcredentials rfl
        | false =>
          rw [hitem, Bool.or_false] at hcredentials
          exact hcredentials rfl
    refine iff_of_true (.inr (takes_of_later ?_)) hnot
    simp only [if_pos hchanged]
    exact saturatingSucc_later hbelow
  · simp only [if_neg hchanged]
    push Not at hchanged
    obtain ⟨hprivacy, hrepair, hcredentials⟩ := hchanged
    replace hrepair := Bool.eq_false_of_not_eq_true hrepair
    simp only [hprivacy, hcredentials]
    constructor
    · rintro (hsame | htakes) hrewrites
      · exact hrewrites.rewritten (congrArg ItemRow.payloadMetadata hsame)
      · exact not_takes_self row htakes
    · intro hnot
      refine .inl ?_
      by_contra hdiffers
      refine hnot ⟨hlow, hprivacy, hrepair, ?_, ?_, ?_⟩
      · intro hitem
        rw [hitem, Bool.or_true] at hcredentials
        exact hcredentials.symm
      · rw [hprivacy, hrepair] at hsomething
        cases hempty : (clipboardPrivacy host row).isEmpty with
        | false => exact .inl rfl
        | true => exact .inr (by simpa [hempty] using hsomething)
      · intro hjson
        exact hdiffers (by rw [hjson])

/-- A capture of content that is held outranks its row unless it rewrites it in silence. -/
theorem outranks_bumpExisting (hids : (store.items.map ItemRow.id).Nodup) {item : Capture}
    {existing : ItemRow} (hexisting : existing ∈ store.items) {icon : Option String}
    {changed : Bool}
    (h : bumpExisting host store item existing icon = .ok (after, ingested, changed)) :
    Outranks host store after ↔
      (existing.createdAt < maxStamp → ¬ Rewrites host store item existing) := by
  unfold bumpExisting refreshPrivacy at h
  rcases bumpInTx_cases store existing item.createdAt item.appBundleId item.appName icon with
    ⟨hlow, hbump⟩ | ⟨bumped, hid, hlater, hhigh, hbump⟩
  · rw [hbump] at h
    dsimp only at h
    cases hrefresh : refreshedRow host existing (item.privacy host) (item.credentials host)
        (item.indexed host) with
    | none =>
      simp only [hrefresh] at h
      obtain ⟨rfl, -⟩ := Prod.mk.inj (Except.ok.inj h)
      exact iff_of_true (outranks_of_subset (List.Subset.refl _)) fun _ =>
        not_rewrites_of_none hrefresh
    | some refreshed =>
      simp only [hrefresh, writeRow_eq] at h
      split at h
      · obtain ⟨rfl, -⟩ := Prod.mk.inj (Except.ok.inj h)
        refine (outranks_replaced hids hexisting (refreshedRow_stamp hrefresh).1).trans ?_
        exact forall_congr' fun hbelow => refreshed_iff hlow hbelow hrefresh
      · cases h
  · rw [hbump] at h
    dsimp only at h
    refine iff_of_true ?_ fun _ hrewrites => hhigh hrewrites.low
    cases hrefresh : refreshedRow host bumped (item.privacy host) (item.credentials host)
        (item.indexed host) with
    | none =>
      simp only [hrefresh] at h
      obtain ⟨rfl, -⟩ := Prod.mk.inj (Except.ok.inj h)
      exact (outranks_replaced hids hexisting hid).2 fun _ => .inr (takes_of_later hlater)
    | some refreshed =>
      obtain ⟨hagain, hstamp⟩ := refreshedRow_stamp hrefresh
      simp only [hrefresh, writeRow_eq] at h
      split at h
      · obtain ⟨rfl, -⟩ := Prod.mk.inj (Except.ok.inj h)
        change Outranks host store (replaced (replaced store bumped) refreshed)
        rw [replaced_replaced store hagain]
        refine (outranks_replaced hids hexisting (hagain.trans hid)).2 fun hbelow =>
          .inr (takes_of_later ?_)
        have hmax : maxStamp = 2 ^ 63 - 1 := rfl
        unfold saturatingSucc at hstamp
        omega
      · cases h

theorem insertRow_items (h : insertRow store row = .ok after) :
    after.items = store.items ++ [row] := by
  unfold insertRow at h
  split at h
  · cases h
  · obtain rfl := Except.ok.inj h
    rfl

theorem findInBucket_eq_none {contentHash contentType : String} {createdAt : Int}
    (h : newestLiveWithRepresentation store contentHash contentType = none) :
    findInBucket store contentHash contentType createdAt = none := by
  unfold newestLiveWithRepresentation at h
  unfold findInBucket
  split at h
  · rename_i hempty
    rw [if_pos hempty]
  · rename_i hcontent
    have hnone := newest_eq_none h
    rw [if_neg hcontent, List.filter_eq_nil_iff.2]
    · rfl
    · intro row hrow hfound
      rw [List.filter_eq_nil_iff] at hnone
      rw [decide_eq_true_eq] at hfound
      exact hnone row hrow (decide_eq_true ⟨hfound.1, hfound.2.1, hfound.2.2.2⟩)

theorem outranks_insertOrBump (hids : (store.items.map ItemRow.id).Nodup) {item : Capture}
    {changed : Bool} (h : insertOrBump host store item = .ok (after, ingested, changed)) :
    Outranks host store after ↔ ∀ row,
      newestLiveWithRepresentation store item.contentHash item.contentType = some row →
        row.createdAt < maxStamp → ¬ Rewrites host store item row := by
  unfold insertOrBump at h
  dsimp only at h
  generalize normalise host store.icons item.appBundleId item.contentType item.createdAt
    item.payloadMetadata = normal at h
  -- Neither the rows nor the index depend on the icons.
  have hrewrites : ∀ row, Rewrites host { store with icons := normal.2.2 } item row ↔
      Rewrites host store item row := fun row =>
    ⟨fun g => ⟨g.low, g.restrictions, g.readable, g.credentials, g.something, g.rewritten⟩,
      fun g => ⟨g.low, g.restrictions, g.readable, g.credentials, g.something, g.rewritten⟩⟩
  have hsame : newestLiveWithRepresentation { store with icons := normal.2.2 } item.contentHash
      item.contentType = newestLiveWithRepresentation store item.contentHash item.contentType :=
    rfl
  rw [hsame] at h
  cases hfound : newestLiveWithRepresentation store item.contentHash item.contentType with
  | some existing =>
    rw [hfound] at h
    dsimp only at h
    obtain ⟨hmem, -⟩ := newestLive_eq_some hfound
    have hids' : (({ store with icons := normal.2.2 } : Store).items.map ItemRow.id).Nodup := hids
    have hbump := outranks_bumpExisting hids' hmem h
    rw [hrewrites existing] at hbump
    constructor
    · intro houtranks row hrow
      obtain rfl := Option.some.inj hrow
      exact hbump.1 houtranks
    · exact fun hall => hbump.2 (hall existing rfl)
  | none =>
    rw [hfound] at h
    refine iff_of_true ?_ fun row hrow => by cases hrow
    cases hinsert : insertRow { store with icons := normal.2.2 } (item.row normal.1 normal.2.1) with
    | ok written =>
      simp only [hinsert] at h
      obtain ⟨rfl, -⟩ := Prod.mk.inj (Except.ok.inj h)
      apply outranks_of_subset
      rw [insertRow_items hinsert]
      exact List.subset_append_left _ _
    | error e =>
      simp only [hinsert] at h
      have hbucket : findInBucket { store with icons := normal.2.2 } item.contentHash
          item.contentType item.createdAt = none := findInBucket_eq_none hfound
      rw [hbucket] at h
      cases h

theorem outranks_insertFileReference {disk after : Disk}
    (hids : (disk.store.items.map ItemRow.id).Nodup) {file : Reference} {deduplicate : Bool}
    (h : insertFileReference host disk item file deduplicate = .ok (after, ingested)) :
    Outranks host disk.store after.store := by
  unfold insertFileReference at h
  split at h
  · rename_i row hfound
    obtain ⟨hmem, -, -⟩ := referringItem_eq_some (Option.filter_eq_some_iff.1 hfound).1
    cases hwrite : writeRow disk.store (recopiedRow host item row) with
    | error e =>
      simp only [hwrite] at h
      cases h
    | ok written =>
      simp only [hwrite] at h
      obtain ⟨rfl, -⟩ := Prod.mk.inj (Except.ok.inj h)
      refine outranks_writeRow hids hmem hwrite rfl fun _ => ?_
      simp only [recopiedRow]
      omega
  · cases hinsert : insertRow disk.store item.row with
    | error e =>
      simp only [hinsert] at h
      cases h
    | ok written =>
      simp only [hinsert, Except.mapError, bind, Except.bind] at h
      split at h
      · cases h
      · obtain ⟨rfl, -⟩ := Prod.mk.inj (Except.ok.inj h)
        apply outranks_of_subset
        change disk.store.items ⊆ written.items
        rw [insertRow_items hinsert]
        exact List.subset_append_left _ _

theorem store_attachBody {disk after : Disk}
    (h : attachBody host vault disk id reader size sha256 nonces = .ok after) :
    after.store = disk.store := by
  obtain ⟨bodies, -, -, rfl⟩ := attachBody_ok h
  rfl

/-- An offer over a tombstone takes its place with the stamp it was given. -/
theorem outranks_overTombstone (hids : (store.items.map ItemRow.id).Nodup)
    (hlive : liveRow store item.id = none) (hinsert : insertRow { store with
      items := store.items.filter fun row => ¬ (row.id = item.id ∧ row.deleted) } item.row =
        .ok after) :
    Outranks host store after ↔ ∀ row ∈ store.items, row.id = item.id → row.deleted = true →
      row.createdAt < maxStamp → Above row item := by
  have hitems := insertRow_items hinsert
  have hdead : ∀ row ∈ store.items, row.id = item.id → row.deleted = true := by
    intro row hrow hid
    unfold liveRow at hlive
    rw [lookup_of_id hids hrow hid] at hlive
    simpa [Option.filter_some] using hlive
  have hfrom : ∀ row ∈ after.items, row.id = item.id → row = item.row := by
    intro row hrow hid
    rw [hitems] at hrow
    rcases List.mem_append.1 hrow with hold | hnew
    · obtain ⟨hmem, hkept⟩ := List.mem_filter.1 hold
      rw [decide_eq_true_eq] at hkept
      exact absurd ⟨hid, hdead row hmem hid⟩ hkept
    · exact List.mem_singleton.1 hnew
  have hnew : item.row ∈ after.items := hitems ▸ List.mem_append_right _ List.mem_cons_self
  have habove : ∀ row : ItemRow, row.deleted = true → (takes host row item.row ↔ Above row item) :=
    fun row hdeleted => takes_iff_above rfl rfl (.inl ⟨hdeleted, rfl⟩)
  constructor
  · intro h row hrow hid hdeleted hbelow
    rw [← habove row hdeleted]
    rcases h row hrow hbelow with hkept | ⟨row', hrow', hid', htakes⟩
    · rw [hfrom row hkept hid] at hdeleted
      cases hdeleted
    · rwa [hfrom row' hrow' (hid'.trans hid)] at htakes
  · intro h row hrow hbelow
    by_cases hid : row.id = item.id
    · have hdeleted := hdead row hrow hid
      exact .inr ⟨item.row, hnew, hid.symm, (habove row hdeleted).2 (h row hrow hid hdeleted hbelow)⟩
    · refine .inl (hitems ▸ List.mem_append_left _ (List.mem_filter.2 ⟨hrow, ?_⟩))
      rw [decide_eq_true_eq]
      exact fun htaken => hid htaken.1

theorem outranks_insertFileTransfer {disk after : Disk}
    (hids : (disk.store.items.map ItemRow.id).Nodup) {explicit : Bool}
    (h : insertFileTransfer host vault disk item reader size sha256 nonces explicit = .ok after) :
    Outranks host disk.store after.store ↔ (explicit = false → ∀ row ∈ disk.store.items,
      row.id = item.id → row.deleted = true → row.createdAt < maxStamp → Above row item) := by
  unfold insertFileTransfer at h
  cases explicit with
  | true =>
    refine iff_of_true ?_ fun hexplicit => by cases hexplicit
    have hnone : (liveRow disk.store item.id).filter (fun _ => !true) = none := by
      cases liveRow disk.store item.id <;> rfl
    rw [hnone] at h
    cases hinsert : insertRow disk.store item.row with
    | error e =>
      simp only [if_true, hinsert] at h
      cases h
    | ok written =>
      simp only [if_true, hinsert, bind, Except.bind] at h
      rw [store_attachBody h]
      apply outranks_of_subset
      change disk.store.items ⊆ written.items
      rw [insertRow_items hinsert]
      exact List.subset_append_left _ _
  | false =>
    rw [forall_prop_of_true rfl]
    cases hlive : liveRow disk.store item.id with
    | some row =>
      obtain ⟨hmem, hid, hstays⟩ := mem_of_liveRow hlive
      rw [hlive] at h
      simp only [Option.filter_some, Bool.not_false, if_true] at h
      refine iff_of_true ?_ ?_
      · unfold recapture at h
        rw [updateRow_eq] at h
        split at h
        · obtain rfl := Except.ok.inj h
          have hid' : (recapturedRow host item row).id = row.id := rfl
          refine (outranks_replaced hids hmem hid').2 fun _ => .inr (takes_of_later ?_)
          simp only [recapturedRow]
          omega
        · cases h
      · intro other hother hsame hdeleted
        rw [List.inj_on_of_nodup_map hids hother hmem (hsame.trans hid.symm), hstays] at hdeleted
        cases hdeleted
    | none =>
      rw [hlive] at h
      simp only [Option.filter_none, Bool.false_eq_true, if_false] at h
      cases hinsert : insertRow { disk.store with items := disk.store.items.filter fun row =>
          ¬ (row.id = item.id ∧ row.deleted) } item.row with
      | error e =>
        simp only [Disk.settle, hinsert] at h
        cases h
      | ok written =>
        simp only [Disk.settle, hinsert, bind, Except.bind] at h
        rw [store_attachBody h]
        exact outranks_overTombstone hids hlive hinsert

theorem outranks_replaceFileTransfer {disk after : Disk}
    (hids : (disk.store.items.map ItemRow.id).Nodup)
    (h : replaceFileTransfer host vault disk item reader size sha256 nonces = .ok after) :
    Outranks host disk.store after.store ↔ ∀ row, liveRow disk.store item.id = some row →
      row.createdAt < maxStamp → Above row item ∨ replacedRow item row = row := by
  unfold replaceFileTransfer at h
  cases hlive : liveRow disk.store item.id with
  | none =>
    simp only [hlive, bind, Except.bind] at h
    rw [store_attachBody h]
    exact iff_of_true (outranks_of_subset (List.Subset.refl _)) fun row hrow => by cases hrow
  | some row =>
    obtain ⟨hmem, -, -⟩ := mem_of_liveRow hlive
    simp only [hlive, bind, Except.bind, updateRow_eq] at h
    split at h
    · cases h
    · rename_i written hwritten
      split at hwritten
      · obtain rfl := Except.ok.inj hwritten
        rw [store_attachBody h]
        have hid' : (replacedRow item row).id = row.id := rfl
        refine (outranks_replaced hids hmem hid').trans ?_
        have habove : takes host row (replacedRow item row) ↔ Above row item :=
          takes_iff_above rfl rfl (.inr ⟨rfl, rfl⟩)
        rw [habove]
        refine ⟨?_, fun hall hbelow => (hall row rfl hbelow).symm⟩
        rintro hrow other hother hbelow
        obtain rfl := Option.some.inj hother
        exact (hrow hbelow).symm
      · cases hwritten

private theorem ok_of_toOption {ε α : Type*} {result : Except ε α} {a : α}
    (h : result.toOption = some a) : result = .ok a := by
  cases result with
  | error e => cases h
  | ok b => exact congrArg Except.ok (Option.some.inj h)

variable (host vault) in
/-- A committed write outranks every row it changes exactly when it is not an offer over a
tombstone or an inline file at least as new, nor a capture that rewrites metadata in
silence. -/
theorem outranks_iff_rises (disk disk' : Disk) (hids : (disk.store.items.map ItemRow.id).Nodup)
    (write : LocalWrite) (hrun : write.run host vault disk = some disk') :
    Outranks host disk.store disk'.store ↔ Rises host disk write := by
  cases write with
  | delete id now =>
    obtain rfl := Option.some.inj hrun
    exact iff_of_true (outranks_deleteRows disk [id] now) trivial
  | deleteAllThrough through now =>
    obtain rfl := Option.some.inj hrun
    exact iff_of_true (outranks_deleteRows disk _ now) trivial
  | promoteCopied id copiedAt =>
    obtain ⟨done, hdone, rfl⟩ := Option.map_eq_some_iff.1 hrun
    exact iff_of_true (outranks_promoteCopied hids (ok_of_toOption hdone)) trivial
  | setSecret id secret now =>
    obtain ⟨done, hdone, rfl⟩ := Option.map_eq_some_iff.1 hrun
    exact iff_of_true (outranks_setSecret hids (ok_of_toOption hdone)) trivial
  | insertOrBump item =>
    obtain ⟨done, hdone, rfl⟩ := Option.map_eq_some_iff.1 hrun
    exact outranks_insertOrBump hids (ok_of_toOption hdone)
  | insertFileTransfer item reader size sha256 nonces explicit =>
    exact outranks_insertFileTransfer hids (ok_of_toOption hrun)
  | replaceFileTransfer item reader size sha256 nonces =>
    exact outranks_replaceFileTransfer hids (ok_of_toOption hrun)
  | insertFileReference item file deduplicate =>
    obtain ⟨done, hdone, rfl⟩ := Option.map_eq_some_iff.1 hrun
    exact iff_of_true (outranks_insertFileReference hids (ok_of_toOption hdone)) trivial

/-- A file copied in, and deleted by a clock that was ahead. -/
def copiedFile : NewItem := ⟨"file", [1], fileType, "aa", 5, none, none, none⟩

def deletedFile : Disk := deleteRows { store := { items := [copiedFile.row] } } ["file"] 10

/-- The file copied in once more, after the clock was set back. -/
def copiedAgain : LocalWrite :=
  .insertFileTransfer { copiedFile with createdAt := 6 } [] 0 (longDigest []) (fun _ => []) false

private theorem copiedAgain_runs :
    ∃ disk, copiedAgain.run smallSystem.host smallSystem.vault deletedFile = some disk := by
  rw [← Option.isSome_iff_exists]
  decide

/-- The new row has the stamp of the clock, below the tombstone's. -/
theorem copiedAgain_sinks : ¬ ∀ (disk disk' : Disk), (disk.store.items.map ItemRow.id).Nodup →
    ∀ write : LocalWrite, write.run smallSystem.host smallSystem.vault disk = some disk' →
      Outranks smallSystem.host disk.store disk'.store := by
  intro h
  obtain ⟨disk', hrun⟩ := copiedAgain_runs
  have houtranks := h deletedFile disk' (by decide) copiedAgain hrun
  unfold copiedAgain LocalWrite.run at hrun
  have hrises := (outranks_insertFileTransfer (by decide) (ok_of_toOption hrun)).1 houtranks rfl
  exact absurd (hrises _ (List.mem_singleton_self _) rfl rfl (by decide)) (by decide)

theorem deletion_outranks : Outranks smallSystem.host { items := [copiedFile.row] }
    deletedFile.store :=
  (outranks_iff_rises smallSystem.host smallSystem.vault { store := { items := [copiedFile.row] } }
    deletedFile (by decide) (.delete "file" 10) rfl).2 trivial

end CopyPaste.History.Outrank
