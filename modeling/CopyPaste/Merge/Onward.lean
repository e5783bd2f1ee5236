import CopyPaste.Merge.Pages
import CopyPaste.Merge.Repin

/-!
What the writes of a page have in common: each is of a version of the page that was
prepared against the snapshot with the decisions before it, or against the store. In a
store that has every id once it therefore replaces no newer record. What all such writes
keep, a page keeps.
-/

namespace CopyPaste.Merge.Onward

open Lib.Checks Lib.Rows Comparator Payload Storage Prepare Batch Effects Pages Repin

variable {host : Host}

/-- A prepared version is of its item and not older than the version it was decided
against. -/
theorem prepareRemoteVersion_eq_some {item : RemoteVersion} {pin : Option RemotePin}
    {held : Option Version} {ready : Prepared}
    (h : prepareRemoteVersion host item pin held = .ok (some ready)) :
    ready = prepared host item pin held ∧
      ((organizationText item).any fun text =>
        validWire host item.itemId item.contentType text item.deleted) = true ∧
      ∀ version, held = some version → version.createdAt ≤ item.createdAt := by
  unfold prepareRemoteVersion at h
  split at h
  · cases h
  · rename_i hvalid
    split at h
    · cases h
    · split at h
      · cases h
      · rename_i hkeeps
        refine ⟨(Option.some.inj (Except.ok.inj h)).symm, by simpa using hvalid, ?_⟩
        rintro version rfl
        unfold keepsLocal at hkeeps
        rw [Option.any_some, decide_eq_true_eq, mergeDecision_keepLocal_iff, not_le,
          versionKey_lt_iff] at hkeeps
        rcases hkeeps with hlt | ⟨heq, -⟩
        · exact hlt.le
        · exact heq.le

/-- The version of an id that a decision is taken against is as new as the record of the
id. -/
def Abreast (store : Store) (id : String) (held : Option Version) : Prop :=
  ∀ row ∈ store.records, row.id = id →
    ∃ version, held = some version ∧ row.createdAt ≤ version.createdAt

theorem Abreast.newest {store : Store} {item : RemoteVersion} {pin : Option RemotePin}
    {held : Option Version} {ready : Prepared} (h : Abreast store item.itemId held)
    (hready : prepareRemoteVersion host item pin held = .ok (some ready)) :
    Newest store ready.toIncomingItem := by
  obtain ⟨rfl, -, hstamp⟩ := prepareRemoteVersion_eq_some hready
  intro row hrow hid
  obtain ⟨version, hheld, hle⟩ := h row hrow hid
  exact hle.trans (hstamp version hheld)

theorem abreast_versionSummary {store : Store} (hwf : WellFormed store) (id : String) :
    Abreast store id (store.versionSummary id) := by
  intro row hrow hid
  have hrecord : isRecordId id = true := hid ▸ hwf.recordIds row hrow
  refine ⟨row.toVersion, ?_, le_rfl⟩
  rw [versionSummary_record hwf hrecord, ← hid, lookup_of_mem hwf.records hrow]
  rfl

/-- A write adds no record but its own. -/
theorem mem_records_upsert {store : Store} {incoming : IncomingItem} {row : RecordRow}
    (h : row ∈ (store.upsert host incoming).1.records) :
    row ∈ store.records ∨ row.id = incoming.id ∧ row.createdAt = incoming.createdAt := by
  by_cases hkind : incoming.contentType = recordContentType
  · rcases upsert_record host hkind with heq | ⟨text, record, -, -, -, heq⟩
    · rw [heq] at h
      exact Or.inl h
    · rw [heq, records_recorded, mem_put] at h
      rcases h with ⟨hmem, -⟩ | rfl
      · exact Or.inl hmem
      · exact Or.inr ⟨rfl, rfl⟩
  · unfold Store.upsert at h
    rw [if_neg hkind] at h
    split at h
    · exact Or.inl h
    · dsimp only at h
      split at h
      · exact Or.inl h
      · rw [applyPinProjection_eq] at h
        exact Or.inl h

/-- A version written is the one that later rows of its id are decided against. -/
theorem Abreast.upsert {store : Store} {held : List Version} {ready : Prepared} {id : String}
    (h : Abreast store id (lookup Version.id held id))
    (hnewest : Newest store ready.toIncomingItem) :
    Abreast (store.upsert host ready.toIncomingItem).1 id
      (lookup Version.id (put Version.id held (ready.asVersion host)) id) := by
  intro row hrow hid
  rw [lookup_put]
  have hident : (ready.asVersion host).id = ready.id := rfl
  rw [hident]
  rcases mem_records_upsert hrow with hmem | ⟨hready, hstamp⟩
  · by_cases hsame : ready.id = id
    · rw [if_pos hsame]
      exact ⟨_, rfl, hnewest row hmem (hid.trans hsame.symm)⟩
    · rw [if_neg hsame]
      exact h row hmem hid
  · rw [if_pos (hready.symm.trans hid)]
    exact ⟨_, rfl, hstamp.le⟩

theorem decideRow_won {held : List Version} {incoming : Incoming} {ready : Prepared}
    (h : decideRow host held incoming = .ok (.won ready)) :
    ∃ pin, prepareRemoteVersion host incoming.1 pin
      (lookup Version.id held incoming.1.itemId) = .ok (some ready) := by
  unfold decideRow at h
  split at h
  · cases h
  · refine ⟨incoming.2.map fun pin =>
      pin.against host incoming.1 (lookup Version.id held incoming.1.itemId), ?_⟩
    dsimp only at h
    generalize prepareRemoteVersion host incoming.1 (incoming.2.map fun pin =>
      pin.against host incoming.1 (lookup Version.id held incoming.1.itemId))
      (lookup Version.id held incoming.1.itemId) = answer at h ⊢
    rcases answer with e | _ | other
    · cases h
    · cases h
    · exact congrArg (fun ready => Except.ok (some ready)) (Decision.won.inj (Except.ok.inj h))

section Keeps

variable {Inv : Store → Prop} {Meets : Store → String → Option Version → Prop}
  {page : List Incoming}
  (hsnapshot : ∀ store, Inv store → ∀ ids : List String, ∀ id ∈ ids,
    Meets store id (lookup Version.id (store.versionSummaries ids) id))
  (hsummary : ∀ store, Inv store → ∀ id, Meets store id (store.versionSummary id))
  (hthread : ∀ store held item pin ready id,
    prepareRemoteVersion host item pin (lookup Version.id held item.itemId) = .ok (some ready) →
    Meets store item.itemId (lookup Version.id held item.itemId) →
    Meets store id (lookup Version.id held id) →
    Meets (store.upsert host ready.toIncomingItem).1 id
      (lookup Version.id (put Version.id held (ready.asVersion host)) id))
  (hwrite : ∀ store incoming pin held ready, incoming ∈ page →
    prepareRemoteVersion host incoming.1 pin held = .ok (some ready) →
    Meets store incoming.1.itemId held → Inv store →
    Inv (store.upsert host ready.toIncomingItem).1)
  (hpin : ∀ store incoming pin, incoming ∈ page → incoming.2 = some pin → Inv store →
    Inv (store.applyPinState incoming.1.itemId pin.pinned pin.pinOrder pin.pinUpdatedAt).1)

include hthread hwrite in
private theorem writeAll_decided {rows : List Incoming} (hrows : ∀ incoming ∈ rows, incoming ∈ page)
    {store : Store} {held : List Version} {ds : List Decision} (hinv : Inv store)
    (hmeets : ∀ id, Meets store id (lookup Version.id held id) ∨
      ∀ incoming ∈ rows, incoming.1.itemId ≠ id)
    (hds : decisions host held rows = .ok ds) : Inv (writeAll host store (rows.zip ds)).1 := by
  induction rows generalizing store held ds with
  | nil => exact hinv
  | cons incoming rest ih =>
    have hrest : ∀ x ∈ rest, x ∈ page := fun x hx => hrows x (List.mem_cons_of_mem _ hx)
    obtain ⟨decision, later, hdecision, hlater, rfl⟩ := decisions_cons host hds
    have hsame : ∀ id, Meets store id (lookup Version.id held id) ∨
        ∀ x ∈ rest, x.1.itemId ≠ id := fun id =>
      (hmeets id).imp_right fun h x hx => h x (List.mem_cons_of_mem _ hx)
    cases decision with
    | refused | lost wins => exact ih hrest hinv hsame hlater
    | won ready =>
      obtain ⟨pin, hready⟩ := decideRow_won hdecision
      have hown : Meets store incoming.1.itemId (lookup Version.id held incoming.1.itemId) :=
        (hmeets _).resolve_right fun h => h incoming List.mem_cons_self rfl
      have hwritten := hwrite store incoming pin _ ready
        (hrows incoming List.mem_cons_self) hready hown hinv
      exact ih hrest hwritten (fun id => (hsame id).imp_left
        (hthread store held incoming.1 pin ready id hready hown)) hlater

include hpin in
private theorem pinPass_decided {entries : List Entry}
    (hentries : ∀ entry ∈ entries, entry.incoming ∈ page) {store : Store} (hinv : Inv store) :
    Inv (pinPass store entries).1 := by
  induction entries generalizing store with
  | nil => exact hinv
  | cons entry rest ih =>
    have hrest : ∀ x ∈ rest, x.incoming ∈ page := fun x hx =>
      hentries x (List.mem_cons_of_mem _ hx)
    unfold pinPass
    split
    · rename_i pin hlost hsome
      exact ih hrest (hpin store entry.incoming pin (hentries entry List.mem_cons_self) hsome hinv)
    · exact ih hrest hinv

include hsummary hwrite hpin in
private theorem applyOne_decided {store after : Store} {incoming : Incoming} {flags : P2pApply}
    (hmem : incoming ∈ page) (hinv : Inv store)
    (hok : applyOne host store incoming = .ok (after, flags)) : Inv after := by
  obtain ⟨middle, hmiddle, hafter⟩ := applyOne_eq_ok host hok
  have hkept : Inv middle := by
    rcases hmiddle with rfl | ⟨pin, ready, hready, rfl⟩
    · exact hinv
    · exact hwrite store incoming pin _ ready hmem hready (hsummary store hinv _) hinv
  rcases hafter with rfl | ⟨pin, hsome, rfl⟩
  · exact hkept
  · exact hpin middle incoming pin hmem hsome hkept

include hsummary hwrite hpin in
private theorem redo_decided {rows : List (Entry × P2pApply)}
    (hrows : ∀ row ∈ rows, row.1.incoming ∈ page) {store after : Store} {refused : List String}
    {applied : List P2pApply} (hinv : Inv store)
    (hok : redo host refused store rows = .ok (after, applied)) : Inv after := by
  induction rows generalizing store refused applied with
  | nil =>
    obtain ⟨rfl, -⟩ := Prod.mk.inj (Except.ok.inj hok)
    exact hinv
  | cons row rest ih =>
    have hrest : ∀ x ∈ rest, x.1.incoming ∈ page := fun x hx =>
      hrows x (List.mem_cons_of_mem _ hx)
    obtain ⟨step, later, hstep, hlast⟩ := redo_cons host hok
    have hkept : Inv step.1 := by
      rcases hstep with rfl | happly
      · exact hinv
      · exact applyOne_decided hsummary hwrite hpin (hrows row List.mem_cons_self) hinv happly
    exact ih hrest hkept hlast

include hsnapshot hsummary hthread hwrite hpin in
/-- What the writes of its versions and its pins keep, a page keeps. -/
theorem applyPage_decided {store after : Store} {applied : List P2pApply} (hinv : Inv store)
    (hok : applyPage host store page = .ok (after, applied)) : Inv after := by
  rw [applyPage_eq] at hok
  obtain ⟨ds, hds, hok⟩ := bind_ok_iff.1 hok
  have hfst : ((writeAll host store (page.zip ds)).2.map Entry.incoming) =
      (page.zip ds).map Prod.fst := writeAll_incoming host store (page.zip ds)
  have hentries : ∀ entry ∈ (writeAll host store (page.zip ds)).2, entry.incoming ∈ page := by
    intro entry hentry
    have hmem := List.mem_map_of_mem (f := Entry.incoming) hentry
    rw [hfst] at hmem
    obtain ⟨pair, hpair, heq⟩ := List.mem_map.1 hmem
    rw [← heq]
    exact (List.of_mem_zip hpair).1
  have hwritten : Inv (writeAll host store (page.zip ds)).1 := by
    refine writeAll_decided hthread hwrite (fun incoming h => h) hinv (fun id => ?_) hds
    by_cases hid : id ∈ page.map fun incoming => incoming.1.itemId
    · exact Or.inl (hsnapshot store hinv _ id hid)
    · right
      intro incoming hincoming heq
      exact hid (heq ▸ List.mem_map_of_mem (f := fun x : Incoming => x.1.itemId) hincoming)
  refine redo_decided hsummary hwrite hpin ?_ (pinPass_decided hpin hentries hwritten) hok
  intro row hrow
  refine hentries row.1 ?_
  rw [← pinPass_fst (writeAll host store (page.zip ds)).1
    (writeAll host store (page.zip ds)).2]
  exact List.mem_map_of_mem hrow

end Keeps

section Instances

variable {Inv : Store → Prop} {page : List Incoming} {store after : Store}
  {applied : List P2pApply}
  (hpin : ∀ store incoming pin, incoming ∈ page → incoming.2 = some pin → Inv store →
    Inv (store.applyPinState incoming.1.itemId pin.pinned pin.pinOrder pin.pinUpdatedAt).1)

include hpin in
/-- What prepared versions keep, whatever they are decided against, a page keeps. -/
theorem applyPage_prepared
    (hwrite : ∀ store incoming pin held ready, incoming ∈ page →
      prepareRemoteVersion host incoming.1 pin held = .ok (some ready) → Inv store →
      Inv (store.upsert host ready.toIncomingItem).1)
    (hinv : Inv store) (hok : applyPage host store page = .ok (after, applied)) : Inv after :=
  @applyPage_decided host Inv (fun _ _ _ => True) page (fun _ _ _ _ _ => trivial)
    (fun _ _ _ => trivial) (fun _ _ _ _ _ _ _ _ _ => trivial)
    (fun store incoming pin held ready hmem hready _ => hwrite store incoming pin held ready hmem
      hready) hpin store after applied hinv hok

include hpin in
/-- What prepared versions keep that replace no newer record, a page keeps. -/
theorem applyPage_onward (hwf : ∀ store, Inv store → WellFormed store)
    (hwrite : ∀ store incoming pin held ready, incoming ∈ page →
      prepareRemoteVersion host incoming.1 pin held = .ok (some ready) →
      Newest store ready.toIncomingItem → Inv store →
      Inv (store.upsert host ready.toIncomingItem).1)
    (hinv : Inv store) (hok : applyPage host store page = .ok (after, applied)) : Inv after := by
  have hsnapshot : ∀ store, Inv store → ∀ ids : List String, ∀ id ∈ ids,
      Abreast store id (lookup Version.id (store.versionSummaries ids) id) := by
    intro store hinv ids id hid
    rw [lookup_versionSummaries (hwf store hinv) ids hid]
    exact abreast_versionSummary (hwf store hinv) id
  refine applyPage_decided hsnapshot
    (fun store hinv id => abreast_versionSummary (hwf store hinv) id) ?_ ?_ hpin hinv hok
  · intro store held item pin ready id hready hown hother
    exact hother.upsert (hown.newest hready)
  · intro store incoming pin held ready hmem hready habreast
    exact hwrite store incoming pin held ready hmem hready (habreast.newest hready)

end Instances

end CopyPaste.Merge.Onward
