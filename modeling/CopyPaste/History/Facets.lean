import CopyPaste.Organization.Records

/-!
The facets of a history and their cache. Three queries read them one after another while
other connections write; a revision that triggers raise says whether a cached answer is
still of the history as it is. Every answer is to be of one state of the history.
-/

namespace CopyPaste.History.Facets

open Lib.Guarded Merge.Storage History.Paging Organization.Records

/-- The tables the facets are read from, and the row of revisions the triggers write. -/
structure Database where
  store : Store := {}
  names : String → Option String := fun _ => none
  deviceState : String → Option String := fun _ => none
  generation : String := ""
  revision : Nat := 0

def deviceClassHead : String := "device_class:"

/-- `LIKE` against a head that ends in `%`: a low line stands for any character, and the
case of letters is left out. -/
def likeHead : List Char → List Char → Bool
  | [], _ => true
  | _ :: _, [] => false
  | c :: head, d :: text => (c = '_' || c.toLower = d.toLower) && likeHead head text

/-- The columns of an item that the trigger of an update looks at. -/
def watched (row : ItemRow) :
    Bool × String × Option String × Option String × Option String × Int :=
  (row.deleted, row.originDeviceId, row.appBundleId, row.appName, row.sourceIconId, row.createdAt)

/-- A change of one row. What a connection writes is a sequence of them; in the tables of
the last one no facet is read. -/
inductive Change
  | insertItem (row : ItemRow)
  | updateItem (row : ItemRow)
  | deleteItem (id : String)
  | putName (deviceId : String) (name : Option String)
  | putState (key : String) (value : Option String)
  | insertTag (tag : TagRow)
  | updateTag (tag : TagRow)
  | deleteTag (id : String)
  | putOther (records : List RecordRow) (clipTags : List ClipTag) (pinStates : List PinState)
      (icons : List IconRow)

/-- How often the triggers of a change raise the revision. -/
def Change.fires (db : Database) : Change → Nat
  | .insertItem _ => 1
  | .updateItem row =>
    (db.store.items.filter fun old => old.id = row.id ∧ watched old ≠ watched row).length
  | .deleteItem id => (db.store.items.filter fun old => old.id = id).length
  | .putName deviceId name => if db.names deviceId = name then 0 else 1
  | .putState key value =>
    if likeHead deviceClassHead.toList key.toList ∧ db.deviceState key ≠ value then 1 else 0
  | .insertTag _ => 1
  | .updateTag tag => (db.store.tags.filter fun old => old.id = tag.id).length
  | .deleteTag id => (db.store.tags.filter fun old => old.id = id).length
  | .putOther _ _ _ _ => 0

def Change.write (db : Database) : Change → Database
  | .insertItem row => { db with store := { db.store with items := db.store.items ++ [row] } }
  | .updateItem row => { db with store := { db.store with
      items := db.store.items.map fun old => if old.id = row.id then row else old } }
  | .deleteItem id => { db with store := { db.store with
      items := db.store.items.filter fun old => old.id ≠ id } }
  | .putName deviceId name => { db with names := Function.update db.names deviceId name }
  | .putState key value => { db with deviceState := Function.update db.deviceState key value }
  | .insertTag tag => { db with store := { db.store with tags := db.store.tags ++ [tag] } }
  | .updateTag tag => { db with store := { db.store with
      tags := db.store.tags.map fun old => if old.id = tag.id then tag else old } }
  | .deleteTag id => { db with store := { db.store with
      tags := db.store.tags.filter fun old => old.id ≠ id } }
  | .putOther records clipTags pinStates icons =>
    { db with store := { db.store with records, clipTags, pinStates, icons } }

def Database.change (db : Database) (change : Change) : Database :=
  { change.write db with revision := db.revision + change.fires db }

def Database.commit (db : Database) (changes : List Change) : Database :=
  changes.foldl Database.change db

def Database.profiles (db : Database) (id : String) : DeviceProfile :=
  ⟨db.names id, db.deviceState (deviceClassHead ++ id)⟩

/-- The generation and the revision of facets, as one read of `resource_revisions`. -/
def Database.identity (db : Database) : String × Nat := (db.generation, db.revision)

/-- This device, as the caller names it. -/
structure Asker where
  deviceId : String
  deviceName : String
  deviceClass : DeviceClass
  deriving DecidableEq

def Database.origins (db : Database) (asker : Asker) : List HistoryDeviceFacet :=
  originFacets db.profiles asker.deviceId asker.deviceName asker.deviceClass db.store

def Database.apps (db : Database) : List HistorySourceAppFacet :=
  sourceAppFacets db.store

/-- The facets computed from scratch on one state. -/
def Database.facets (db : Database) (asker : Asker) : Except QueryError HistoryFacets :=
  historyFacets db.profiles asker.deviceId asker.deviceName asker.deviceClass db.store

structure FacetCache where
  identity : String × Nat
  asker : Asker
  facets : HistoryFacets

inductive Progress
  | began
  | missed
  | origins (origins : List HistoryDeviceFacet)
  | apps (origins : List HistoryDeviceFacet) (apps : List HistorySourceAppFacet)
  | whole (facets : HistoryFacets)
  | checked (facets : HistoryFacets) (after : String × Nat)

/-- A call of `history_facets`: the identity it read first, how far it is, and the states
there were since. -/
structure Call where
  asker : Asker
  before : String × Nat
  progress : Progress
  during : List Database

structure Answer where
  asker : Asker
  result : Except QueryError HistoryFacets
  during : List Database

/-- The database, the cache and the calls; beside them the states there were and what the
calls answered. -/
structure State where
  db : Database
  cache : Option FacetCache := none
  calls : Nat → Option Call := fun _ => none
  seen : List Database
  answers : List Answer := []

inductive Op
  | commit (changes : List Change)
  | ask (i : Nat) (asker : Asker)
  | lookUp (i : Nat)
  | readOrigins (i : Nat)
  | readApps (i : Nat)
  | readTags (i : Nat)
  | readAgain (i : Nat)
  /-- The answer is kept if it is small enough. -/
  | keep (i : Nat) (small : Bool)

def State.proceed (s : State) (i : Nat) (call : Call) (progress : Progress) : State :=
  { s with calls := Function.update s.calls i (some { call with progress }) }

def State.answer (s : State) (i : Nat) (call : Call) (result : Except QueryError HistoryFacets) :
    State :=
  { s with
    calls := Function.update s.calls i none
    answers := ⟨call.asker, result, call.during⟩ :: s.answers }

def State.commit (s : State) (db : Database) : State :=
  { s with
    db
    calls := fun i => (s.calls i).map fun call => { call with during := db :: call.during }
    seen := db :: s.seen }

def step (s : State) : Op → Option State
  | .commit changes => some (s.commit (s.db.commit changes))
  | .ask i asker =>
    match s.calls i with
    | some _ => none
    | none => some { s with
        calls := Function.update s.calls i (some ⟨asker, s.db.identity, .began, [s.db]⟩) }
  | .lookUp i =>
    match s.calls i with
    | some ⟨asker, before, .began, during⟩ =>
      match s.cache.filter fun entry => entry.identity = before ∧ entry.asker = asker with
      | some entry => some (s.answer i ⟨asker, before, .began, during⟩ (.ok entry.facets))
      | none =>
        -- Obsolete facets go even when what replaces them is not kept.
        some ({ s with cache := none }.proceed i ⟨asker, before, .began, during⟩ .missed)
    | _ => none
  | .readOrigins i =>
    match s.calls i with
    | some ⟨asker, before, .missed, during⟩ =>
      some (s.proceed i ⟨asker, before, .missed, during⟩ (.origins (s.db.origins asker)))
    | _ => none
  | .readApps i =>
    match s.calls i with
    | some ⟨asker, before, .origins origins, during⟩ =>
      some (s.proceed i ⟨asker, before, .origins origins, during⟩ (.apps origins s.db.apps))
    | _ => none
  | .readTags i =>
    match s.calls i with
    | some ⟨asker, before, .apps origins apps, during⟩ =>
      match catalogue s.db.store with
      | .ok tags => some (s.proceed i ⟨asker, before, .apps origins apps, during⟩
          (.whole ⟨origins, apps, tags⟩))
      | .error e => some (s.answer i ⟨asker, before, .apps origins apps, during⟩ (.error e))
    | _ => none
  | .readAgain i =>
    match s.calls i with
    | some ⟨asker, before, .whole facets, during⟩ =>
      some (s.proceed i ⟨asker, before, .whole facets, during⟩ (.checked facets s.db.identity))
    | _ => none
  | .keep i small =>
    match s.calls i with
    | some ⟨asker, before, .checked facets after, during⟩ =>
      let s := if small ∧ before = after then { s with cache := some ⟨before, asker, facets⟩ } else s
      some (s.answer i ⟨asker, before, .checked facets after, during⟩ (.ok facets))
    | _ => none

/-- It starts on any database, with no call and an empty cache. -/
def machine : Machine State Op where
  start s := ∃ db : Database, s = { db, seen := [db] }
  step := step

/-- What a call has read of a database is what it would read now. -/
def Progress.Current (db : Database) (asker : Asker) : Progress → Prop
  | .origins read => read = db.origins asker
  | .apps read named => read = db.origins asker ∧ named = db.apps
  | _ => True

/-- No commit changes a list that a call has read before it has read the tags. -/
def Steady (s : State) : Op → Prop
  | .commit changes => ∀ i call, s.calls i = some call →
      call.progress.Current s.db call.asker →
        call.progress.Current (s.db.commit changes) call.asker
  | _ => True

/-- An answer is the facets of a state there was during the call. -/
def Answer.Exact (answer : Answer) : Prop :=
  ∃ db ∈ answer.during, answer.result = db.facets answer.asker

/-- Two states no query of the facets tells apart. -/
structure Same (db db' : Database) : Prop where
  origins : ∀ asker, db.origins asker = db'.origins asker
  apps : db.apps = db'.apps
  tags : catalogue db.store = catalogue db'.store

theorem Same.refl (db : Database) : Same db db := ⟨fun _ => rfl, rfl, rfl⟩

variable {db db' : Database} {s : State} {call : Call}

theorem Same.symm (h : Same db db') : Same db' db :=
  ⟨fun asker => (h.origins asker).symm, h.apps.symm, h.tags.symm⟩

theorem Same.trans {db'' : Database} (h : Same db db') (h' : Same db' db'') : Same db db'' :=
  ⟨fun asker => (h.origins asker).trans (h'.origins asker), h.apps.trans h'.apps,
    h.tags.trans h'.tags⟩

theorem Same.facets (h : Same db db') (asker : Asker) : db.facets asker = db'.facets asker := by
  have horigins := h.origins asker
  have happs := h.apps
  unfold Database.origins at horigins
  unfold Database.apps at happs
  unfold Database.facets historyFacets
  rw [horigins, happs, h.tags]

/-- A row without the columns no facet is read from. -/
def faceted (row : ItemRow) : ItemRow :=
  { row with
    payload := none
    contentType := ""
    contentHash := ""
    pinned := false
    pinOrder := none
    pinUpdatedAt := 0
    payloadMetadata := none }

theorem filter_live_faceted (items : List ItemRow) :
    ((items.map faceted).filter fun row => !row.deleted) =
      (items.filter fun row => !row.deleted).map faceted := by
  rw [List.filter_map]
  rfl

theorem originFacets_faceted (profiles : String → DeviceProfile) (localId localName : String)
    (localClass : DeviceClass) (store : Store) :
    originFacets profiles localId localName localClass
        { store with items := store.items.map faceted } =
      originFacets profiles localId localName localClass store := by
  unfold originFacets
  simp only [filter_live_faceted, List.map_map]
  rfl

theorem orderBy_faceted (rows : List ItemRow) :
    orderBy rowRecency (rows.map faceted) = (orderBy rowRecency rows).map faceted :=
  (List.map_insertionSort _ _ faceted rows fun _ _ _ _ => Iff.rfl).symm

theorem sourceAppFacets_faceted (store : Store) :
    sourceAppFacets { store with items := store.items.map faceted } = sourceAppFacets store := by
  have hrows : ∀ appId, appRows { store with items := store.items.map faceted } appId =
      appRows store appId := by
    intro appId
    unfold appRows
    simp only [filter_live_faceted, orderBy_faceted, List.filterMap_map]
    rfl
  unfold sourceAppFacets
  simp only [filter_live_faceted, hrows, List.filterMap_map]
  rfl

/-- Rows that differ in the other columns only have the same facets. -/
theorem same_of_faceted {items : List ItemRow}
    (h : items.map faceted = db.store.items.map faceted) :
    Same db { db with store := { db.store with items } } := by
  refine ⟨fun asker => ?_, ?_, rfl⟩
  · have hbefore := originFacets_faceted db.profiles asker.deviceId asker.deviceName
      asker.deviceClass db.store
    have hafter := originFacets_faceted db.profiles asker.deviceId asker.deviceName
      asker.deviceClass { db.store with items }
    exact hbefore.symm.trans ((by rw [h]) : _ = _) |>.trans hafter
  · have hbefore := sourceAppFacets_faceted db.store
    have hafter := sourceAppFacets_faceted { db.store with items }
    exact hbefore.symm.trans ((by rw [h]) : _ = _) |>.trans hafter

theorem faceted_eq {row row' : ItemRow} (hid : row.id = row'.id)
    (hwatched : watched row = watched row') : faceted row = faceted row' := by
  simp only [watched, Prod.mk.injEq] at hwatched
  obtain ⟨hdeleted, horigin, hbundle, hname, hicon, hstamp⟩ := hwatched
  simp only [faceted, hid, hdeleted, horigin, hbundle, hname, hicon, hstamp]

theorem likeHead_append (head rest : List Char) : likeHead head (head ++ rest) = true := by
  induction head with
  | nil => rfl
  | cons c head ih =>
    rw [List.cons_append, likeHead, ih, Bool.and_true, decide_eq_true rfl, Bool.or_true]

theorem profiles_putState {key : String} {value : Option String}
    (h : ¬ (likeHead deviceClassHead.toList key.toList = true ∧ db.deviceState key ≠ value)) :
    ({ db with deviceState := Function.update db.deviceState key value } : Database).profiles =
      db.profiles := by
  funext id
  unfold Database.profiles
  by_cases hkey : deviceClassHead ++ id = key
  · have hlike : likeHead deviceClassHead.toList key.toList = true := by
      rw [← hkey, String.toList_append]
      exact likeHead_append _ _
    have hvalue : db.deviceState key = value := by
      by_contra hne
      exact h ⟨hlike, hne⟩
    simp only [hkey, Function.update_self, hvalue]
  · simp only [Function.update_of_ne hkey]

theorem same_of_tags {tags : List TagRow} (h : tags = db.store.tags) :
    Same db { db with store := { db.store with tags } } := by
  rw [h]
  exact Same.refl db

/-- A change that no trigger notices changes no facet. -/
theorem same_of_unfired {change : Change} (h : change.fires db = 0) :
    Same db (change.write db) := by
  cases change with
  | insertItem row => cases h
  | updateItem row =>
    rw [Change.fires, List.length_eq_zero_iff, List.filter_eq_nil_iff] at h
    apply same_of_faceted
    rw [List.map_map]
    refine List.map_congr_left fun old hold => ?_
    rw [Function.comp_apply]
    split
    · rename_i hid
      have hsame := h old hold
      rw [decide_eq_true_eq, not_and, not_not] at hsame
      exact (faceted_eq hid (hsame hid)).symm
    · rfl
  | deleteItem id =>
    rw [Change.fires, List.length_eq_zero_iff, List.filter_eq_nil_iff] at h
    apply same_of_faceted
    rw [List.filter_eq_self.2]
    exact fun row hrow => by simpa using h row hrow
  | putName deviceId name =>
    have hsame : db.names deviceId = name := by
      by_contra hne
      rw [Change.fires, if_neg hne] at h
      cases h
    refine ⟨fun asker => ?_, rfl, rfl⟩
    have hnames : Function.update db.names deviceId name = db.names := by
      rw [← hsame, Function.update_eq_self]
    simp only [Database.origins, Change.write, hnames]
  | putState key value =>
    have hunfired : ¬ (likeHead deviceClassHead.toList key.toList = true ∧
        db.deviceState key ≠ value) := by
      intro hfires
      rw [Change.fires, if_pos hfires] at h
      cases h
    refine ⟨fun asker => ?_, rfl, rfl⟩
    unfold Database.origins
    exact congrArg (fun profiles => originFacets profiles asker.deviceId asker.deviceName
      asker.deviceClass db.store) (profiles_putState hunfired).symm
  | insertTag tag => cases h
  | updateTag tag =>
    rw [Change.fires, List.length_eq_zero_iff, List.filter_eq_nil_iff] at h
    apply same_of_tags
    refine (List.map_congr_left fun old hold => ?_).trans (List.map_id _)
    exact if_neg (by simpa using h old hold)
  | deleteTag id =>
    rw [Change.fires, List.length_eq_zero_iff, List.filter_eq_nil_iff] at h
    apply same_of_tags
    rw [List.filter_eq_self]
    exact fun tag htag => by simpa using h tag htag
  | putOther records clipTags pinStates icons => exact ⟨fun _ => rfl, rfl, rfl⟩

theorem change_revision (db : Database) (change : Change) :
    (db.change change).generation = db.generation ∧
      db.revision ≤ (db.change change).revision ∧
      ((db.change change).revision = db.revision → Same db (db.change change)) := by
  refine ⟨?_, Nat.le_add_right _ _, fun h => ?_⟩
  · cases change <;> rfl
  · have hunfired : change.fires db = 0 := by
      have hsum : db.revision + change.fires db = db.revision := h
      omega
    obtain ⟨horigins, happs, htags⟩ := same_of_unfired hunfired
    exact ⟨horigins, happs, htags⟩

/-- A transaction that changes a facet raises the revision. -/
theorem commit_revision (db : Database) (changes : List Change) :
    (db.commit changes).generation = db.generation ∧
      db.revision ≤ (db.commit changes).revision ∧
      ((db.commit changes).revision = db.revision → Same db (db.commit changes)) := by
  induction changes generalizing db with
  | nil => exact ⟨rfl, le_refl _, fun _ => Same.refl db⟩
  | cons change rest ih =>
    obtain ⟨hgeneration, hle, hsame⟩ := change_revision db change
    obtain ⟨hgeneration', hle', hsame'⟩ := ih (db.change change)
    refine ⟨hgeneration'.trans hgeneration, hle.trans hle', fun h => ?_⟩
    have hfirst : (db.change change).revision = db.revision := le_antisymm (h ▸ hle') hle
    exact (hsame hfirst).trans (hsame' (h.trans hfirst.symm))

/-- What a call knows. -/
structure CallOk (s : State) (call : Call) : Prop where
  seen : ∀ db ∈ call.during, db ∈ s.seen ∧ call.before.2 ≤ db.revision
  current : s.db ∈ call.during
  first : ∃ db ∈ call.during, db.identity = call.before
  read : call.progress.Current s.db call.asker
  whole : ∀ facets, call.progress = .whole facets →
    ∃ db ∈ call.during, db.facets call.asker = .ok facets
  checked : ∀ facets after, call.progress = .checked facets after →
    ∃ db ∈ call.during, db.facets call.asker = .ok facets ∧
      (call.before = after → db.identity = call.before)

/-- A revision tells the facets of the states there were. -/
structure Inv (s : State) : Prop where
  current : s.db ∈ s.seen
  newest : ∀ db ∈ s.seen, db.revision ≤ s.db.revision ∧ db.generation = s.db.generation
  determined : ∀ db ∈ s.seen, ∀ db' ∈ s.seen, db.revision = db'.revision → Same db db'
  cached : ∀ entry, s.cache = some entry →
    ∃ db ∈ s.seen, db.identity = entry.identity ∧ db.facets entry.asker = .ok entry.facets
  calls : ∀ i call, s.calls i = some call → CallOk s call
  answers : ∀ answer ∈ s.answers, answer.Exact

theorem Inv.commit (h : Inv s) {changes : List Change} (hsteady : Steady s (.commit changes)) :
    Inv (s.commit (s.db.commit changes)) := by
  obtain ⟨hgeneration, hle, hsame⟩ := commit_revision s.db changes
  generalize hafter : s.db.commit changes = after at *
  -- A state there was with the new revision has the revision of the last one.
  have hequal : ∀ db ∈ s.seen, db.revision = after.revision → Same db after := by
    intro db hdb hrevision
    have hlast : s.db.revision = after.revision :=
      le_antisymm hle (hrevision ▸ (h.newest db hdb).1)
    exact (h.determined db hdb s.db h.current (hrevision.trans hlast.symm)).trans
      (hsame hlast.symm)
  refine ⟨List.mem_cons_self, ?_, ?_, ?_, ?_, h.answers⟩
  · intro db hdb
    rcases List.mem_cons.1 hdb with rfl | hold
    · exact ⟨le_refl _, rfl⟩
    · obtain ⟨hrevision, hsameGeneration⟩ := h.newest db hold
      exact ⟨hrevision.trans hle, hsameGeneration.trans hgeneration.symm⟩
  · intro db hdb db' hdb' hrevision
    rcases List.mem_cons.1 hdb with rfl | hold
    · rcases List.mem_cons.1 hdb' with rfl | hold'
      · exact Same.refl _
      · exact (hequal db' hold' hrevision.symm).symm
    · rcases List.mem_cons.1 hdb' with rfl | hold'
      · exact hequal db hold hrevision
      · exact h.determined db hold db' hold' hrevision
  · intro entry hentry
    obtain ⟨db, hdb, hidentity, hfacets⟩ := h.cached entry hentry
    exact ⟨db, List.mem_cons_of_mem _ hdb, hidentity, hfacets⟩
  · intro i call hcall
    obtain ⟨old, hold, rfl⟩ := Option.map_eq_some_iff.1 hcall
    have hok := h.calls i old hold
    refine ⟨?_, List.mem_cons_self, ?_, ?_, ?_, ?_⟩
    · intro db hdb
      rcases List.mem_cons.1 hdb with rfl | hearlier
      · exact ⟨List.mem_cons_self, (hok.seen s.db hok.current).2.trans hle⟩
      · obtain ⟨hseen, hbefore⟩ := hok.seen db hearlier
        exact ⟨List.mem_cons_of_mem _ hseen, hbefore⟩
    · obtain ⟨db, hdb, hidentity⟩ := hok.first
      exact ⟨db, List.mem_cons_of_mem _ hdb, hidentity⟩
    · have hread := hsteady i old hold hok.read
      rwa [hafter] at hread
    · intro facets hwhole
      obtain ⟨db, hdb, hfacets⟩ := hok.whole facets hwhole
      exact ⟨db, List.mem_cons_of_mem _ hdb, hfacets⟩
    · intro facets seen hchecked
      obtain ⟨db, hdb, hfacets⟩ := hok.checked facets seen hchecked
      exact ⟨db, List.mem_cons_of_mem _ hdb, hfacets⟩

/-- What a call knows is of the states, not of the cache and the other calls. -/
theorem CallOk.transfer {s' : State} (h : CallOk s call) (hdb : s'.db = s.db)
    (hseen : s'.seen = s.seen) : CallOk s' call := by
  refine ⟨?_, ?_, h.first, ?_, h.whole, h.checked⟩
  · rw [hseen]
    exact h.seen
  · rw [hdb]
    exact h.current
  · rw [hdb]
    exact h.read

theorem Inv.called (h : Inv s) {i : Nat} (hcall : CallOk s call) :
    Inv { s with calls := Function.update s.calls i (some call) } := by
  refine { h with calls := ?_ }
  intro j other hother
  by_cases hj : j = i
  · rw [hj] at hother
    simp only [Function.update_self, Option.some.injEq] at hother
    subst hother
    exact hcall.transfer rfl rfl
  · simp only [Function.update_of_ne hj] at hother
    exact (h.calls j other hother).transfer rfl rfl

theorem Inv.answer (h : Inv s) {i : Nat} {result : Except QueryError HistoryFacets}
    (hexact : ∃ db ∈ call.during, result = db.facets call.asker) :
    Inv (s.answer i call result) := by
  refine ⟨h.current, h.newest, h.determined, h.cached, ?_, ?_⟩
  · intro j other hother
    unfold State.answer at hother
    by_cases hj : j = i
    · rw [hj] at hother
      simp at hother
    · simp only [Function.update_of_ne hj] at hother
      exact (h.calls j other hother).transfer rfl rfl
  · intro answer hanswer
    rcases List.mem_cons.1 hanswer with rfl | hold
    · exact hexact
    · exact h.answers answer hold

theorem Inv.emptied (h : Inv s) : Inv { s with cache := none } := by
  refine { h with cached := ?_, calls := ?_ }
  · intro entry hentry
    cases hentry
  · intro i call hcall
    exact (h.calls i call hcall).transfer rfl rfl

/-- Lists that are read of one state are its facets. -/
theorem facets_of_read {asker : Asker} {tags : List HistoryTag}
    (htags : catalogue db.store = .ok tags) :
    db.facets asker = .ok ⟨db.origins asker, db.apps, tags⟩ := by
  unfold Database.facets historyFacets
  rw [htags]
  rfl

theorem facets_of_refused {asker : Asker} {e : QueryError} (htags : catalogue db.store = .error e) :
    db.facets asker = .error e := by
  unfold Database.facets historyFacets
  rw [htags]
  rfl

/-- A call that has not read the tags yet, when it has read some more. -/
theorem CallOk.reading (h : CallOk s call) {progress : Progress}
    (hread : progress.Current s.db call.asker) (hwhole : ∀ facets, progress ≠ .whole facets)
    (hchecked : ∀ facets after, progress ≠ .checked facets after) :
    CallOk s { call with progress } :=
  ⟨h.seen, h.current, h.first, hread, fun facets heq => absurd heq (hwhole facets),
    fun facets after heq => absurd heq (hchecked facets after)⟩

section Acts

variable {s' : State} {i : Nat}

theorem inv_ask {asker : Asker} (h : Inv s) (hstep : step s (.ask i asker) = some s') :
    Inv s' := by
  unfold step at hstep
  dsimp only at hstep
  split at hstep
  · cases hstep
  · obtain rfl := Option.some.inj hstep
    have hbegan : CallOk s ⟨asker, s.db.identity, .began, [s.db]⟩ := by
      refine ⟨?_, List.mem_singleton_self _, ⟨s.db, List.mem_singleton_self _, rfl⟩, trivial,
        nofun, nofun⟩
      intro db hdb
      obtain rfl := List.mem_singleton.1 hdb
      exact ⟨h.current, le_refl _⟩
    exact h.called hbegan

theorem inv_lookUp (h : Inv s) (hstep : step s (.lookUp i) = some s') : Inv s' := by
  unfold step at hstep
  dsimp only at hstep
  split at hstep
  · rename_i asker before during hcall
    have hok := h.calls i _ hcall
    split at hstep
    · rename_i entry hentry
      obtain rfl := Option.some.inj hstep
      obtain ⟨hcached, hmatches⟩ := Option.filter_eq_some_iff.1 hentry
      rw [decide_eq_true_eq] at hmatches
      obtain ⟨db, hdb, hidentity, hfacets⟩ := h.cached entry hcached
      obtain ⟨first, hfirst, hbefore⟩ := hok.first
      -- The first state of the call has the revision of the cached one.
      have hrevision : first.revision = db.revision :=
        congrArg Prod.snd (hbefore.trans (hmatches.1.symm.trans hidentity.symm))
      have hsame := h.determined first (hok.seen first hfirst).1 db hdb hrevision
      refine h.answer ⟨first, hfirst, ?_⟩
      rw [hsame.facets, ← hfacets, hmatches.2]
    · obtain rfl := Option.some.inj hstep
      have hmissed : CallOk s ⟨asker, before, .missed, during⟩ :=
        hok.reading trivial nofun nofun
      exact h.emptied.called (hmissed.transfer rfl rfl)
  · cases hstep

theorem inv_readOrigins (h : Inv s) (hstep : step s (.readOrigins i) = some s') : Inv s' := by
  unfold step at hstep
  dsimp only at hstep
  split at hstep
  · rename_i asker before during hcall
    obtain rfl := Option.some.inj hstep
    exact h.called ((h.calls i _ hcall).reading rfl nofun nofun)
  · cases hstep

theorem inv_readApps (h : Inv s) (hstep : step s (.readApps i) = some s') : Inv s' := by
  unfold step at hstep
  dsimp only at hstep
  split at hstep
  · rename_i asker before read during hcall
    obtain rfl := Option.some.inj hstep
    have hok := h.calls i _ hcall
    exact h.called (hok.reading ⟨hok.read, rfl⟩ nofun nofun)
  · cases hstep

theorem inv_readTags (h : Inv s) (hstep : step s (.readTags i) = some s') : Inv s' := by
  unfold step at hstep
  dsimp only at hstep
  split at hstep
  · rename_i asker before read named during hcall
    have hok := h.calls i _ hcall
    obtain ⟨horigins, happs⟩ := hok.read
    split at hstep
    · rename_i tags htags
      obtain rfl := Option.some.inj hstep
      refine h.called ⟨hok.seen, hok.current, hok.first, trivial, fun facets hwhole => ?_, nofun⟩
      obtain rfl := Progress.whole.inj hwhole
      refine ⟨s.db, hok.current, ?_⟩
      rw [horigins, happs]
      exact facets_of_read htags
    · rename_i e htags
      obtain rfl := Option.some.inj hstep
      exact h.answer ⟨s.db, hok.current, (facets_of_refused htags).symm⟩
  · cases hstep

theorem inv_readAgain (h : Inv s) (hstep : step s (.readAgain i) = some s') : Inv s' := by
  unfold step at hstep
  dsimp only at hstep
  split at hstep
  · rename_i asker before facets during hcall
    obtain rfl := Option.some.inj hstep
    have hok := h.calls i _ hcall
    refine h.called ⟨hok.seen, hok.current, hok.first, trivial, nofun,
      fun facets' after hchecked => ?_⟩
    obtain ⟨rfl, rfl⟩ := Progress.checked.inj hchecked
    obtain ⟨db, hdb, hfacets⟩ := hok.whole facets rfl
    refine ⟨db, hdb, hfacets, fun hequal => ?_⟩
    -- Between two reads of one revision there is no other.
    obtain ⟨hseen, hlow⟩ := hok.seen db hdb
    obtain ⟨hhigh, hgeneration⟩ := h.newest db hseen
    have hsame : before = s.db.identity := hequal
    have hbefore : s.db.revision ≤ db.revision := by
      have hsecond := congrArg Prod.snd hsame
      exact hsecond.symm.trans_le hlow
    exact (Prod.ext hgeneration (le_antisymm hhigh hbefore)).trans hsame.symm
  · cases hstep

theorem inv_keep {small : Bool} (h : Inv s) (hstep : step s (.keep i small) = some s') :
    Inv s' := by
  unfold step at hstep
  dsimp only at hstep
  split at hstep
  · rename_i asker before facets after during hcall
    obtain rfl := Option.some.inj hstep
    have hok := h.calls i _ hcall
    obtain ⟨db, hdb, hfacets, hidentity⟩ := hok.checked facets after rfl
    refine Inv.answer ?_ ⟨db, hdb, hfacets.symm⟩
    split
    · rename_i hkept
      refine ⟨h.current, h.newest, h.determined, ?_, ?_, h.answers⟩
      · intro entry hentry
        obtain rfl := Option.some.inj hentry
        exact ⟨db, (hok.seen db hdb).1, hidentity hkept.2, hfacets⟩
      · intro j other hother
        exact (h.calls j other hother).transfer rfl rfl
    · exact h
  · cases hstep

theorem inv_step {op : Op} (h : Inv s) (hsteady : Steady s op) (hstep : step s op = some s') :
    Inv s' := by
  cases op with
  | commit changes =>
    obtain rfl := Option.some.inj hstep
    exact h.commit hsteady
  | ask i asker => exact inv_ask h hstep
  | lookUp i => exact inv_lookUp h hstep
  | readOrigins i => exact inv_readOrigins h hstep
  | readApps i => exact inv_readApps h hstep
  | readTags i => exact inv_readTags h hstep
  | readAgain i => exact inv_readAgain h hstep
  | keep i small => exact inv_keep h hstep

end Acts

theorem inv_of_reaches (h : Reaches machine Steady s) : Inv s := by
  refine Reaches.invariant ?_ (fun _ _ _ => inv_step) h
  rintro s ⟨db, rfl⟩
  refine ⟨List.mem_singleton_self _, ?_, ?_, ?_, ?_, ?_⟩
  · intro other hother
    obtain rfl := List.mem_singleton.1 hother
    exact ⟨le_refl _, rfl⟩
  · intro first hfirst second hsecond _
    obtain rfl := List.mem_singleton.1 hfirst
    obtain rfl := List.mem_singleton.1 hsecond
    exact Same.refl _
  · intro entry hentry
    cases hentry
  · intro i call hcall
    cases hcall
  · intro answer hanswer
    cases hanswer

/-- Every answer is of one state of its call where no commit changes a list between two of
the reads; and whatever changes a facet raises the revision. -/
theorem facets_exact_when_steady (db : Database) (changes : List Change) (asker : Asker) :
    (∀ s, Reaches machine Steady s → ∀ answer ∈ s.answers, answer.Exact) ∧
      ((db.commit changes).facets asker ≠ db.facets asker →
        db.revision < (db.commit changes).revision) := by
  refine ⟨fun s h => (inv_of_reaches h).answers, fun hchanged => ?_⟩
  obtain ⟨-, hle, hsame⟩ := commit_revision db changes
  refine lt_of_le_of_ne hle fun hequal => hchanged ?_
  exact ((hsame hequal.symm).facets asker).symm

def laptop : Asker := ⟨"here", "Laptop", .laptop⟩

def capturedRow : ItemRow :=
  ⟨"a", some ([], []), "text", "hash", false, none, 0, 1, false, "", some "app", some "App", none,
    none⟩

def emptyStart : State := { db := {}, seen := [{}] }

theorem emptyStart_reached {allowed : State → Op → Prop} : Reaches machine allowed emptyStart :=
  Reaches.start emptyStart (Exists.intro {} rfl)

def asked (i : Nat) : List Op :=
  [.ask i laptop, .lookUp i, .readOrigins i, .readApps i, .readTags i, .readAgain i, .keep i true]

/-- A row is captured, and the facets are asked for twice; the second answer is the kept one. -/
theorem kept_answer_exact : ¬ ∃ answer ∈ ((run machine emptyStart
      (.commit [.insertItem capturedRow] :: (asked 0 ++ [.ask 1 laptop, .lookUp 1]))).getD
        emptyStart).answers, ¬ answer.Exact := by
  rintro ⟨answer, hanswer, hinexact⟩
  refine hinexact ((facets_exact_when_steady {} [] laptop).1 _
    (emptyStart_reached.of_run_getD _ ?_ (by rfl) emptyStart) answer hanswer)
  refine And.intro (fun i call hcall => by cases hcall) fun next _ => Meets.of_forall ?_ next
  intro op hop s
  simp only [asked, List.cons_append, List.nil_append, List.mem_cons, List.not_mem_nil,
    or_false] at hop
  rcases hop with rfl | rfl | rfl | rfl | rfl | rfl | rfl | rfl | rfl <;> trivial

/-- The row is captured between the query of the origins and that of the apps. -/
def torn : List Op :=
  [.ask 0 laptop, .lookUp 0, .readOrigins 0, .commit [.insertItem capturedRow], .readApps 0,
    .readTags 0, .readAgain 0, .keep 0 true]

/-- The answer has the app of the row, and not the device it comes from. -/
theorem torn_not_exact :
    ¬ ∀ s, Reaches machine (fun _ _ => True) s → ∀ answer ∈ s.answers, answer.Exact := by
  intro h
  have hreached : Reaches machine (fun _ _ => True) ((run machine emptyStart torn).getD emptyStart) :=
    emptyStart_reached.of_run_getD torn (Meets.of_forall (fun _ _ _ => trivial) _) (by rfl)
      emptyStart
  have hanswers : ((run machine emptyStart torn).getD emptyStart).answers =
      [⟨laptop, .ok ⟨[], [⟨"app", "App", none⟩], []⟩,
        [Database.commit {} [.insertItem capturedRow], {}]⟩] := by
    rfl
  obtain ⟨db, hdb, hresult⟩ := h _ hreached _ (hanswers ▸ List.mem_singleton_self _)
  have hafter : (Database.commit {} [.insertItem capturedRow]).facets laptop =
      .ok ⟨[⟨"here", "Laptop", .laptop⟩], [⟨"app", "App", none⟩], []⟩ := by
    rfl
  have hbefore : ({} : Database).facets laptop = .ok ⟨[], [], []⟩ := by
    rfl
  simp only [List.mem_cons, List.not_mem_nil, or_false] at hdb
  rcases hdb with rfl | rfl
  · rw [hafter] at hresult
    simp at hresult
  · rw [hbefore] at hresult
    simp at hresult

end CopyPaste.History.Facets
