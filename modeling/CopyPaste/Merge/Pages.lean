import CopyPaste.Lib.Checks
import CopyPaste.Merge.Effects

/-!
A page merge row by row. The plan addresses rows by their index; here each row
stands beside its decision and its outcome, and the merge is four passes over that
list: decide, write, pin, and redo the rows behind a refused one of their id.
-/

namespace CopyPaste.Merge.Pages

open Lib.Checks Lib.Rows Comparator Payload Storage Prepare Batch Effects Upload.Scanning

/-- What the plan makes of one row. -/
inductive Decision
  | refused
  | lost (pinWins : Bool)
  | won (ready : Prepared)

variable (host : Host)

def decideRow (held : List Version) (incoming : Incoming) : Except MergeError Decision := do
  if payloadIsRefused host incoming.1 then
    return .refused
  let version := lookup Version.id held incoming.1.itemId
  let pin := incoming.2.map fun pin => pin.against host incoming.1 version
  match ← prepareRemoteVersion host incoming.1 pin version with
  | some ready => return .won ready
  | none => return .lost (pin.any RemotePin.wins)

/-- The versions later rows are decided against. -/
def Decision.thread (held : List Version) : Decision → List Version
  | .won ready => put Version.id held (ready.asVersion host)
  | _ => held

def decisions (held : List Version) : List Incoming → Except MergeError (List Decision)
  | [] => .ok []
  | incoming :: rest => do
    let decision ← decideRow host held incoming
    let later ← decisions (decision.thread host held) rest
    return decision :: later

private def addTo (plan : Plan) (index : Nat) : Decision → Plan
  | .refused => { plan with slots := plan.slots ++ [none] }
  | .lost wins =>
    { plan with
      slots := plan.slots ++ [none]
      pinOnly := if wins then plan.pinOnly ++ [index] else plan.pinOnly }
  | .won ready =>
    { plan with
      writes := plan.writes ++ [ready]
      slots := plan.slots ++ [some plan.writes.length] }

private def addAll (plan : Plan) (index : Nat) : List Decision → Plan
  | [] => plan
  | decision :: later => addAll (addTo plan index decision) (index + 1) later

private theorem planRow_eq (held : List Version) (plan : Plan) (index : Nat)
    (incoming : Incoming) :
    planRow host held plan index incoming = (decideRow host held incoming).map
      fun decision => (decision.thread host held, addTo plan index decision) := by
  unfold planRow decideRow
  obtain ⟨item, pin⟩ := incoming
  by_cases hrefused : payloadIsRefused host item = true
  · simp [hrefused, pure, Except.pure, Except.map, Decision.thread, addTo]
  · simp only [hrefused]
    cases prepareRemoteVersion host item
        (pin.map fun pin => pin.against host item (lookup Version.id held item.itemId))
        (lookup Version.id held item.itemId) with
    | error e => simp [bind, Except.bind, Except.map]
    | ok ready =>
      cases ready <;>
        simp [bind, Except.bind, pure, Except.pure, Except.map, Decision.thread, addTo]

private theorem prepareFrom_eq (held : List Version) (plan : Plan) (index : Nat)
    (page : List Incoming) :
    prepareFrom host held plan index page =
      (decisions host held page).map (addAll plan index) := by
  induction page generalizing held plan index with
  | nil => rfl
  | cons incoming rest ih =>
    unfold prepareFrom decisions
    rw [planRow_eq]
    cases hdecide : decideRow host held incoming with
    | error e => rfl
    | ok decision =>
      simp only [Except.map, bind, Except.bind, ih]
      cases decisions host (decision.thread host held) rest <;> rfl

private def winners : List Decision → List Prepared
  | [] => []
  | .won ready :: later => ready :: winners later
  | _ :: later => winners later

private def slotsFrom (n : Nat) : List Decision → List (Option Nat)
  | [] => []
  | .won _ :: later => some n :: slotsFrom (n + 1) later
  | _ :: later => none :: slotsFrom n later

private def pinsFrom (index : Nat) : List Decision → List Nat
  | [] => []
  | .lost true :: later => index :: pinsFrom (index + 1) later
  | _ :: later => pinsFrom (index + 1) later

private theorem addAll_eq (plan : Plan) (index : Nat) (ds : List Decision) :
    addAll plan index ds =
      { writes := plan.writes ++ winners ds
        slots := plan.slots ++ slotsFrom plan.writes.length ds
        pinOnly := plan.pinOnly ++ pinsFrom index ds } := by
  induction ds generalizing plan index with
  | nil => simp [addAll, slotsFrom, pinsFrom, winners]
  | cons decision later ih =>
    unfold addAll
    rw [ih]
    cases decision with
    | refused => simp [addTo, slotsFrom, pinsFrom, winners]
    | lost wins => cases wins <;> simp [addTo, slotsFrom, pinsFrom, winners]
    | won ready => simp [addTo, slotsFrom, pinsFrom, winners]

/-- A row with its decision and what the transaction answered for it. -/
structure Entry where
  incoming : Incoming
  decision : Decision
  outcome : Option Bool

def writeAll (store : Store) : List (Incoming × Decision) → Store × List Entry
  | [] => (store, [])
  | (incoming, .won ready) :: rest =>
    let (store, stored) := store.upsert host ready.toIncomingItem
    let (store, entries) := writeAll store rest
    (store, ⟨incoming, .won ready, some stored⟩ :: entries)
  | (incoming, decision) :: rest =>
    let (store, entries) := writeAll store rest
    (store, ⟨incoming, decision, none⟩ :: entries)

def Entry.flags (entry : Entry) : P2pApply :=
  ⟨entry.outcome.getD false, entry.outcome.getD false && entry.incoming.2.isSome⟩

/-- Store the winning pin states of the rows whose content lost. -/
def pinPass (store : Store) : List Entry → Store × List (Entry × P2pApply)
  | [] => (store, [])
  | entry :: rest =>
    match entry.decision, entry.incoming.2 with
    | .lost true, some pin =>
      let (store, stored) :=
        store.applyPinState entry.incoming.1.itemId pin.pinned pin.pinOrder pin.pinUpdatedAt
      let (store, rows) := pinPass store rest
      (store, (entry, { entry.flags with pin := stored }) :: rows)
    | _, _ =>
      let (store, rows) := pinPass store rest
      (store, (entry, entry.flags) :: rows)

/-- Apply again the rows not stored that stand behind a refused one of their id. -/
def redo (refused : List String) (store : Store) :
    List (Entry × P2pApply) → Except MergeError (Store × List P2pApply)
  | [] => .ok (store, [])
  | (entry, flags) :: rest => do
    let (store, flags) ←
      if flags.any || entry.incoming.1.itemId ∉ refused then pure (store, flags)
      else applyOne host store entry.incoming
    let refused :=
      if entry.outcome = some false then entry.incoming.1.itemId :: refused else refused
    let (store, applied) ← redo refused store rest
    return (store, flags :: applied)

theorem writeAll_incoming (store : Store) (rows : List (Incoming × Decision)) :
    (writeAll host store rows).2.map Entry.incoming = rows.map Prod.fst := by
  induction rows generalizing store with
  | nil => rfl
  | cons row rest ih =>
    obtain ⟨incoming, decision⟩ := row
    cases decision <;> simp [writeAll, ih]

private theorem writeAll_eq (store : Store) (before : List Bool) (page : List Incoming)
    (ds : List Decision) (hlen : page.length = ds.length) :
    (store.upsertAll host ((winners ds).map Prepared.toIncomingItem)).1 =
        (writeAll host store (page.zip ds)).1 ∧
      (writeAll host store (page.zip ds)).2.map Entry.incoming = page ∧
      (writeAll host store (page.zip ds)).2.map Entry.decision = ds ∧
      (slotsFrom before.length ds).map (Option.map fun slot => (before ++
        (store.upsertAll host ((winners ds).map Prepared.toIncomingItem)).2).getD slot false) =
        (writeAll host store (page.zip ds)).2.map Entry.outcome := by
  induction ds generalizing store before page with
  | nil =>
    rw [List.length_eq_zero_iff.1 hlen]
    simp [winners, writeAll, slotsFrom, Store.upsertAll]
  | cons decision later ih =>
    obtain ⟨incoming, rest, rfl⟩ : ∃ incoming rest, page = incoming :: rest := by
      cases page with
      | nil => simp at hlen
      | cons incoming rest => exact ⟨incoming, rest, rfl⟩
    have hlen' : rest.length = later.length := by simpa using hlen
    cases decision with
    | refused | lost wins =>
      obtain ⟨h1, h2, h3, h4⟩ := ih store before rest hlen'
      simp only [winners, writeAll, slotsFrom, List.zip_cons_cons, List.map_cons, Option.map_none]
      exact ⟨h1, by rw [h2], by rw [h3], by rw [h4]⟩
    | won ready =>
      obtain ⟨h1, h2, h3, h4⟩ := ih (store.upsert host ready.toIncomingItem).1
        (before ++ [(store.upsert host ready.toIncomingItem).2]) rest hlen'
      rw [List.length_append, List.length_singleton, List.append_assoc] at h4
      simp only [winners, writeAll, slotsFrom, Store.upsertAll, List.zip_cons_cons, List.map_cons,
        Option.map_some]
      refine ⟨h1, by rw [h2], by rw [h3], ?_⟩
      rw [List.cons.injEq]
      exact ⟨by simp, h4⟩

/-- A row that lost was not written. -/
private theorem writeAll_lost (store : Store) (rows : List (Incoming × Decision)) :
    ∀ entry ∈ (writeAll host store rows).2, ∀ wins, entry.decision = .lost wins →
      entry.outcome = none := by
  induction rows generalizing store with
  | nil => simp [writeAll]
  | cons row rest ih =>
    obtain ⟨incoming, decision⟩ := row
    intro entry hentry wins hlost
    cases decision with
    | refused | lost _ =>
      simp only [writeAll, List.mem_cons] at hentry
      rcases hentry with rfl | hmem
      · rfl
      · exact ih store entry hmem wins hlost
    | won ready =>
      simp only [writeAll, List.mem_cons] at hentry
      rcases hentry with rfl | hmem
      · simp at hlost
      · exact ih _ entry hmem wins hlost

private theorem flagsOf_eq (page : List Incoming) (slots : List (Option Nat)) (written : List Bool)
    (entries : List Entry) (hpage : entries.map Entry.incoming = page)
    (hslots : slots.map (Option.map fun slot => written.getD slot false) =
      entries.map Entry.outcome) :
    flagsOf page slots written = entries.map Entry.flags := by
  induction entries generalizing page slots with
  | nil =>
    subst hpage
    simp [flagsOf]
  | cons entry rest ih =>
    subst hpage
    cases slots with
    | nil => simp at hslots
    | cons slot more =>
      simp only [List.map_cons, List.cons.injEq] at hslots
      have hrest := ih _ more rfl hslots.2
      unfold flagsOf at hrest ⊢
      rw [List.map_cons, List.zip_cons_cons, List.map_cons, List.map_cons, hrest]
      congr 1
      have hcontent : (slot.any fun index => written.getD index false) =
          entry.outcome.getD false := by
        rw [← hslots.1]
        cases slot <;> simp
      simp only [hcontent, Entry.flags]

private theorem applyPins_eq (page : List Incoming) (before : List P2pApply)
    (store : Store) (earlier : List Incoming) (entries : List Entry)
    (hpage : page = earlier ++ entries.map Entry.incoming)
    (hlen : before.length = earlier.length)
    (hlost : ∀ entry ∈ entries, ∀ wins, entry.decision = .lost wins → entry.outcome = none) :
    applyPins page (pinsFrom earlier.length (entries.map Entry.decision)) store
        (before ++ entries.map Entry.flags) =
      ((pinPass store entries).1, before ++ (pinPass store entries).2.map Prod.snd) := by
  induction entries generalizing store before earlier with
  | nil => simp [pinsFrom, applyPins, pinPass]
  | cons entry rest ih =>
    have hpage' : page = (earlier ++ [entry.incoming]) ++ rest.map Entry.incoming := by
      simp [hpage]
    have hlost' := fun e he => hlost e (List.mem_cons_of_mem _ he)
    have hstep := fun (flags : P2pApply) (store : Store) =>
      ih (before ++ [flags]) store (earlier ++ [entry.incoming]) hpage'
        (by simp [hlen]) hlost'
    simp only [List.length_append, List.length_singleton, List.append_assoc,
      List.singleton_append] at hstep
    obtain ⟨incoming, decision, outcome⟩ := entry
    have hskip : pinsFrom earlier.length (decision :: rest.map Entry.decision) =
        pinsFrom (earlier.length + 1) (rest.map Entry.decision) →
        pinPass store (⟨incoming, decision, outcome⟩ :: rest) =
          ((pinPass store rest).1, (⟨incoming, decision, outcome⟩,
            Entry.flags ⟨incoming, decision, outcome⟩) :: (pinPass store rest).2) →
        applyPins page (pinsFrom earlier.length (decision :: rest.map Entry.decision)) store
            (before ++ Entry.flags ⟨incoming, decision, outcome⟩ :: rest.map Entry.flags) =
          ((pinPass store (⟨incoming, decision, outcome⟩ :: rest)).1,
            before ++ (pinPass store (⟨incoming, decision, outcome⟩ :: rest)).2.map Prod.snd) := by
      intro hpins hpass
      rw [hpins, hpass]
      exact hstep _ store
    rw [List.map_cons, List.map_cons]
    cases decision with
    | refused | won => exact hskip rfl rfl
    | lost wins =>
      cases wins with
      | false => exact hskip rfl rfl
      | true =>
        have hnone : outcome = none := hlost _ List.mem_cons_self true rfl
        subst hnone
        have hget : page[earlier.length]? = some incoming := by
          rw [hpage, List.getElem?_append_right (by omega)]
          simp
        have hflag : (before ++ Entry.flags ⟨incoming, .lost true, none⟩ ::
            rest.map Entry.flags)[earlier.length]? =
              some (Entry.flags ⟨incoming, .lost true, none⟩) := by
          rw [List.getElem?_append_right (by omega)]
          simp [hlen]
        obtain ⟨item, pin⟩ := incoming
        rw [pinsFrom]
        cases pin with
        | none =>
          unfold applyPins
          rw [hflag, hget]
          exact hstep _ store
        | some pin =>
          have hmodify : (before ++ Entry.flags ⟨(item, some pin), .lost true, none⟩ ::
              rest.map Entry.flags).modify earlier.length (fun flags =>
                { flags with pin := (store.applyPinState item.itemId pin.pinned pin.pinOrder
                    pin.pinUpdatedAt).2 }) =
              before ++ { Entry.flags ⟨(item, some pin), .lost true, none⟩ with
                pin := (store.applyPinState item.itemId pin.pinned pin.pinOrder
                  pin.pinUpdatedAt).2 } :: rest.map Entry.flags := by
            rw [← hlen, List.modify_eq_take_drop]
            simp
          unfold applyPins
          rw [hflag, hget]
          simp only [hmodify]
          exact hstep _ _

/-- The first hit of a search by index lies at or behind a position when no
earlier index is one. -/
private theorem find_range_all (p : Nat → Bool) (n index : Nat) (hindex : index < n) :
    (((List.range n).find? p).all fun first => index ≤ first) = true ↔
      ∀ j < index, p j = false := by
  constructor
  · intro h j hj
    cases hp : p j with
    | false => rfl
    | true =>
      cases hfind : (List.range n).find? p with
      | none =>
        rw [List.find?_eq_none] at hfind
        exact absurd hp (hfind j (List.mem_range.2 (by omega)))
      | some first =>
        rw [hfind] at h
        have hle : index ≤ first := by simpa using h
        rw [List.find?_range_eq_some] at hfind
        have := hfind.2.2 j (by omega)
        simp [hp] at this
  · intro h
    cases hfind : (List.range n).find? p with
    | none => rfl
    | some first =>
      have hhit := List.find?_some hfind
      simp only [Option.all_some, decide_eq_true_eq]
      by_contra hlt
      rw [h first (by omega)] at hhit
      simp at hhit

/-- Whether the row at an index is a refused one of an id. -/
private def refusedHere (entries : List Entry) (id : String) (index : Nat) : Bool :=
  (entries[index]?).any fun entry =>
    decide (entry.incoming.1.itemId = id) && decide (entry.outcome = some false)

private theorem refusedAt_eq (page : List Incoming) (slots : List (Option Nat))
    (written : List Bool) (entries : List Entry) (hpage : entries.map Entry.incoming = page)
    (hslots : slots.map (Option.map fun slot => written.getD slot false) =
      entries.map Entry.outcome) (id : String) :
    refusedAt page slots written id =
      (List.range entries.length).find? (refusedHere entries id) := by
  unfold refusedAt
  have hlength : page.length = entries.length := by rw [← hpage, List.length_map]
  rw [hlength]
  congr 1
  funext index
  have hslot : (slots[index]?).map (Option.map fun slot => written.getD slot false) =
      (entries[index]?).map Entry.outcome := by
    rw [← List.getElem?_map, hslots, List.getElem?_map]
  rw [← hpage, List.getElem?_map]
  unfold refusedHere
  cases hentry : entries[index]? with
  | none => simp
  | some entry =>
    rw [hentry] at hslot
    cases hs : slots[index]? with
    | none => simp [hs] at hslot
    | some slot =>
      rw [hs] at hslot
      simp only [Option.map_some, Option.some.injEq] at hslot
      simp only [Option.map_some, Option.any_some, ← hslot]
      cases slot with
      | none | some => simp

private theorem redo_eq (all : List Entry) (refused : List String) (store : Store)
    (earlier : List Entry) (rows : List (Entry × P2pApply))
    (hall : all = earlier ++ rows.map Prod.fst)
    (hrefused : ∀ id, id ∈ refused ↔ ∃ j < earlier.length, refusedHere all id j = true) :
    redoAfterRefusals host (fun id => (List.range all.length).find? (refusedHere all id)) store
        earlier.length (rows.map fun row => (row.1.incoming, row.2)) =
      redo host refused store rows := by
  induction rows generalizing refused store earlier with
  | nil => rfl
  | cons row rest ih =>
    obtain ⟨entry, flags⟩ := row
    have hget : all[earlier.length]? = some entry := by
      rw [hall, List.getElem?_append_right (by omega)]
      simp
    have hcond : (((List.range all.length).find? (refusedHere all entry.incoming.1.itemId)).all
        fun first => earlier.length ≤ first) = decide (entry.incoming.1.itemId ∉ refused) := by
      rw [Bool.eq_iff_iff, find_range_all _ _ _ (by rw [hall]; simp), decide_eq_true_eq, hrefused]
      push Not
      simp
    have hnext : ∀ id, id ∈ (if entry.outcome = some false then
        entry.incoming.1.itemId :: refused else refused) ↔
          ∃ j < (earlier ++ [entry]).length, refusedHere all id j = true := by
      intro id
      have hhere : refusedHere all id earlier.length = true ↔
          entry.incoming.1.itemId = id ∧ entry.outcome = some false := by
        simp [refusedHere, hget]
      have hsplit : (∃ j < (earlier ++ [entry]).length, refusedHere all id j = true) ↔
          (entry.incoming.1.itemId = id ∧ entry.outcome = some false) ∨ id ∈ refused := by
        rw [hrefused, ← hhere, List.length_append, List.length_singleton]
        constructor
        · rintro ⟨j, hj, h⟩
          by_cases heq : j = earlier.length
          · exact Or.inl (heq ▸ h)
          · exact Or.inr ⟨j, by omega, h⟩
        · rintro (h | ⟨j, hj, h⟩)
          · exact ⟨earlier.length, by omega, h⟩
          · exact ⟨j, by omega, h⟩
      rw [hsplit]
      split
      · rename_i houtcome
        simp [houtcome, eq_comm]
      · rename_i houtcome
        simp [houtcome]
    have hrest := fun store => ih _ store (earlier ++ [entry])
      (by rw [hall]; simp) hnext
    simp only [List.length_append, List.length_singleton] at hrest
    rw [List.map_cons]
    unfold redoAfterRefusals redo
    rw [hcond]
    simp only [hrest]

/-- The first row is decided against what is held, the others against what it makes of that. -/
theorem decisions_cons {held : List Version} {incoming : Incoming} {rest : List Incoming}
    {ds : List Decision} (h : decisions host held (incoming :: rest) = .ok ds) :
    ∃ decision later, decideRow host held incoming = .ok decision ∧
      decisions host (decision.thread host held) rest = .ok later ∧ ds = decision :: later := by
  obtain ⟨decision, hdecide, h⟩ := bind_ok_iff.1 h
  obtain ⟨later, hlater, h⟩ := bind_ok_iff.1 h
  exact ⟨decision, later, hdecide, hlater, (Except.ok.inj h).symm⟩

/-- A row is passed over or applied by itself, and the others after it. -/
theorem redo_cons {refused : List String} {store after : Store} {entry : Entry} {flags : P2pApply}
    {rest : List (Entry × P2pApply)} {applied : List P2pApply}
    (h : redo host refused store ((entry, flags) :: rest) = .ok (after, applied)) :
    ∃ step later, (step = (store, flags) ∨ applyOne host store entry.incoming = .ok step) ∧
      redo host (if entry.outcome = some false then entry.incoming.1.itemId :: refused
        else refused) step.1 rest = .ok (after, later) := by
  unfold redo at h
  obtain ⟨step, hstep, h⟩ : ∃ step : Store × P2pApply,
      (step = (store, flags) ∨ applyOne host store entry.incoming = .ok step) ∧
      (redo host (if entry.outcome = some false then entry.incoming.1.itemId :: refused
        else refused) step.1 rest >>= fun last => pure (last.1, step.2 :: last.2)) =
          .ok (after, applied) := by
    by_cases hskip : (flags.any || decide (entry.incoming.1.itemId ∉ refused)) = true
    · rw [if_pos hskip] at h
      exact ⟨(store, flags), .inl rfl, h⟩
    · rw [if_neg hskip] at h
      obtain ⟨step, hstep, h⟩ := bind_ok_iff.1 h
      exact ⟨step, .inr hstep, h⟩
  obtain ⟨last, hlast, h⟩ := bind_ok_iff.1 h
  obtain ⟨rfl, -⟩ := Prod.mk.inj (Except.ok.inj h)
  exact ⟨step, last.2, hstep, hlast⟩

theorem length_decisions {held : List Version} {page : List Incoming} {ds : List Decision}
    (h : decisions host held page = .ok ds) : ds.length = page.length := by
  induction page generalizing held ds with
  | nil =>
    rw [decisions, Except.ok.injEq] at h
    simp [← h]
  | cons incoming rest ih =>
    obtain ⟨decision, later, -, hlater, rfl⟩ := decisions_cons host h
    simp [ih hlater]

theorem pinPass_fst (store : Store) (entries : List Entry) :
    (pinPass store entries).2.map Prod.fst = entries := by
  induction entries generalizing store with
  | nil => rfl
  | cons entry rest ih =>
    unfold pinPass
    split <;> simp [ih]

theorem applyPage_eq (store : Store) (page : List Incoming) :
    applyPage host store page = (do
      let ds ← decisions host
        (store.versionSummaries (page.map fun incoming => incoming.1.itemId)) page
      let (store, entries) := writeAll host store (page.zip ds)
      let (store, rows) := pinPass store entries
      redo host [] store rows) := by
  by_cases hempty : page = []
  · subst hempty
    rfl
  · have hpage : applyPage host store page = applyPageFrom host store page (1 + 1)
        (store.versionSummaries (page.map fun incoming => incoming.1.itemId)) := if_neg hempty
    rw [hpage, applyPageFrom, prepare, prepareFrom_eq]
    cases hds : decisions host
        (store.versionSummaries (page.map fun incoming => incoming.1.itemId)) page with
    | error e => rfl
    | ok ds =>
      obtain ⟨hstore, hincoming, hdecision, houtcome⟩ :=
        writeAll_eq host store [] page ds (length_decisions host hds).symm
      have hlost := writeAll_lost host store (page.zip ds)
      simp only [Except.map, bind, Except.bind, addAll_eq, List.nil_append, List.length_nil,
        Store.mergePage, if_true] at houtcome ⊢
      generalize writeAll host store (page.zip ds) = answer at *
      obtain ⟨after, entries⟩ := answer
      have hpins := applyPins_eq page [] after [] entries (by simp [hincoming]) rfl hlost
      have hredo := redo_eq host entries [] (pinPass after entries).1 []
        (pinPass after entries).2 (by simp [pinPass_fst]) (by simp)
      have hzip : page.zip ((pinPass after entries).2.map Prod.snd) =
          (pinPass after entries).2.map fun row => (row.1.incoming, row.2) := by
        have hrows : page = ((pinPass after entries).2.map Prod.fst).map Entry.incoming := by
          rw [pinPass_fst]
          exact hincoming.symm
        conv_lhs => rw [hrows]
        rw [List.map_map, List.zip_map']
        rfl
      rw [hdecision] at hpins
      simp only [List.nil_append, List.length_nil] at hpins hredo
      rw [hstore, flagsOf_eq page _ _ entries hincoming houtcome, hpins]
      simp only [hzip]
      rw [← hredo]
      congr 1
      funext id
      exact refusedAt_eq page _ _ entries hincoming houtcome id

/-- A version decided by itself is not written, or it is one write. -/
theorem applyRemoteVersionWithPinState_eq_ok {store after : Store} {incoming : RemoteVersion}
    {pin : Option RemotePin} {held : Option Version} {stored : Bool}
    (h : applyRemoteVersionWithPinState host store incoming pin held = .ok (after, stored)) :
    after = store ∨ ∃ ready, prepareRemoteVersion host incoming pin held = .ok (some ready) ∧
      after = (store.upsert host ready.toIncomingItem).1 := by
  obtain ⟨ready, hprepare, h⟩ := bind_ok_iff.1 h
  cases ready with
  | none => exact Or.inl (Prod.mk.inj (Except.ok.inj h)).1.symm
  | some ready => exact Or.inr ⟨ready, hprepare, (congrArg Prod.fst (Except.ok.inj h)).symm⟩

/-- A row applied by itself is one write at most, of a version that won, and then its pin
state at most. -/
theorem applyOne_eq_ok {store after : Store} {incoming : Incoming} {flags : P2pApply}
    (h : applyOne host store incoming = .ok (after, flags)) :
    ∃ middle : Store,
      (middle = store ∨ ∃ pin ready,
        prepareRemoteVersion host incoming.1 pin (store.versionSummary incoming.1.itemId) =
          .ok (some ready) ∧ middle = (store.upsert host ready.toIncomingItem).1) ∧
      (after = middle ∨ ∃ pin, incoming.2 = some pin ∧
        after = (middle.applyPinState incoming.1.itemId pin.pinned pin.pinOrder
          pin.pinUpdatedAt).1) := by
  obtain ⟨item, pin⟩ := incoming
  cases pin with
  | none =>
    unfold applyOne applyRemoteVersion at h
    by_cases hrefused : payloadIsRefused host item = true
    · obtain ⟨rfl, -⟩ : store = after ∧ _ := by
        simpa [hrefused, bind, Except.bind, pure, Except.pure] using h
      exact ⟨store, Or.inl rfl, Or.inl rfl⟩
    · obtain ⟨answer, happly, h⟩ := bind_ok_iff.1 h
      rw [if_neg hrefused] at happly
      obtain ⟨rfl, -⟩ := Prod.mk.inj (Except.ok.inj h)
      refine ⟨answer.1, ?_, Or.inl rfl⟩
      exact (applyRemoteVersionWithPinState_eq_ok host happly).imp_right
        fun ⟨ready, hready⟩ => ⟨none, ready, hready⟩
  | some pin =>
    unfold applyOne applyRemoteP2pVersionWithPinStamp at h
    dsimp only at h
    have hpinned : ∀ answer : Store × Bool,
        (if (!answer.2 && remotePinWins host item pin (store.versionSummary item.itemId)) = true then
          (Except.ok ((answer.1.applyPinState item.itemId pin.pinned pin.pinOrder
            pin.pinUpdatedAt).1, (⟨answer.2, (answer.1.applyPinState item.itemId pin.pinned
              pin.pinOrder pin.pinUpdatedAt).2⟩ : P2pApply)) : Except MergeError _)
        else .ok (answer.1, ⟨answer.2, false⟩)) = .ok (after, flags) →
        after = answer.1 ∨ ∃ known, some pin = some known ∧
          after = (answer.1.applyPinState item.itemId known.pinned known.pinOrder
            known.pinUpdatedAt).1 := by
      intro answer hanswer
      split at hanswer
      · exact Or.inr ⟨pin, rfl, (Prod.mk.inj (Except.ok.inj hanswer)).1.symm⟩
      · exact Or.inl (Prod.mk.inj (Except.ok.inj hanswer)).1.symm
    by_cases hrefused : payloadIsRefused host item = true
    · rw [if_pos hrefused] at h
      exact ⟨store, Or.inl rfl, hpinned (store, false) h⟩
    · rw [if_neg hrefused] at h
      obtain ⟨answer, happly, h⟩ := bind_ok_iff.1 h
      refine ⟨answer.1, ?_, hpinned answer h⟩
      exact (applyRemoteVersionWithPinState_eq_ok host happly).imp_right
        fun ⟨ready, hready⟩ => ⟨_, ready, hready⟩

section Keeps

variable {Inv : Store → Prop}
  (hwrite : ∀ store incoming, Inv store → Inv (store.upsert host incoming).1)
  (hpin : ∀ store id pinned order stamp, Inv store →
    Inv (store.applyPinState id pinned order stamp).1)

include hwrite in
private theorem writeAll_keeps {store : Store} (hinv : Inv store)
    (rows : List (Incoming × Decision)) : Inv (writeAll host store rows).1 := by
  induction rows generalizing store with
  | nil => exact hinv
  | cons row rest ih =>
    obtain ⟨incoming, decision⟩ := row
    cases decision with
    | refused | lost => exact ih hinv
    | won ready => exact ih (hwrite store ready.toIncomingItem hinv)

include hpin in
private theorem pinPass_keeps {store : Store} (hinv : Inv store) (entries : List Entry) :
    Inv (pinPass store entries).1 := by
  induction entries generalizing store with
  | nil => exact hinv
  | cons entry rest ih =>
    unfold pinPass
    split
    · exact ih (hpin store _ _ _ _ hinv)
    · exact ih hinv

include hwrite hpin in
private theorem applyOne_keeps {store after : Store} {incoming : Incoming} {flags : P2pApply}
    (hinv : Inv store) (hok : applyOne host store incoming = .ok (after, flags)) : Inv after := by
  obtain ⟨middle, hmiddle, hafter⟩ := applyOne_eq_ok host hok
  have hkept : Inv middle := by
    rcases hmiddle with rfl | ⟨pin, ready, -, rfl⟩
    · exact hinv
    · exact hwrite store ready.toIncomingItem hinv
  rcases hafter with rfl | ⟨pin, -, rfl⟩
  · exact hkept
  · exact hpin _ _ _ _ _ hkept

include hwrite hpin in
private theorem redo_keeps {store after : Store} {refused : List String}
    {rows : List (Entry × P2pApply)} {applied : List P2pApply} (hinv : Inv store)
    (hok : redo host refused store rows = .ok (after, applied)) : Inv after := by
  induction rows generalizing store refused applied with
  | nil =>
    obtain ⟨rfl, -⟩ := Prod.mk.inj (Except.ok.inj hok)
    exact hinv
  | cons row rest ih =>
    obtain ⟨step, later, hstep, hrest⟩ := redo_cons host hok
    have hkept : Inv step.1 := by
      rcases hstep with rfl | happly
      · exact hinv
      · exact applyOne_keeps host hwrite hpin hinv happly
    exact ih hkept hrest

include hwrite hpin in
theorem applyPage_keeps {store after : Store} {page : List Incoming} {applied : List P2pApply}
    (hinv : Inv store) (hok : applyPage host store page = .ok (after, applied)) : Inv after := by
  rw [applyPage_eq] at hok
  obtain ⟨ds, -, hok⟩ := bind_ok_iff.1 hok
  exact redo_keeps host hwrite hpin (pinPass_keeps hpin (writeAll_keeps host hwrite hinv _) _) hok

end Keeps

end CopyPaste.Merge.Pages
