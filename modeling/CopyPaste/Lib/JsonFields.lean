import CopyPaste.Lib.JsonText
import CopyPaste.Lib.Tables
import Mathlib

/-!
Typed values as JSON: scalars in their range, lists, options, and structs by the names
of their fields. A struct is read from an object, in which a known name stands at most
once and others are passed over, or from an array in the order of its fields.
-/

namespace CopyPaste.Lib.JsonFields

open JsonText Std

variable {α : Type}

/-- A whole number, if it is one of 64 bits. -/
def ofWhole (value : Int) : Json :=
  if h : -2 ^ 63 ≤ value ∧ value < 2 ^ 64 then .number (.whole value h.1 h.2) else .null

/-- A double by its rank; one that is not finite is written as nothing. -/
def ofDouble (rank : Int) : Json :=
  if h : -0x7FF0000000000001 < rank ∧ rank < 0x7FF0000000000000 then
    .number (.double rank h.1 h.2)
  else .null

def ofOption (write : α → Json) : Option α → Json
  | none => .null
  | some value => write value

def ofList (write : α → Json) (values : List α) : Json :=
  .array (values.map write)

def asString : Json → Option String
  | .string value => some value
  | _ => none

def asBool : Json → Option Bool
  | .bool value => some value
  | _ => none

/-- A whole number from `low` on and below `high`. -/
def asWhole (low high : Int) : Json → Option Int
  | .number (.whole value _ _) => if low ≤ value ∧ value < high then some value else none
  | _ => none

def asNat (bound : ℕ) (value : Json) : Option ℕ :=
  (asWhole 0 bound value).map Int.toNat

/-- A double, or the one nearest to a whole number. -/
def asDouble (nearest : Int → Int) : Json → Option Int
  | .number (.double rank _ _) => some rank
  | .number (.whole value _ _) => some (nearest value)
  | _ => none

def asOption (read : Json → Option α) : Json → Option (Option α)
  | .null => some none
  | value => (read value).map some

def asList (read : Json → Option α) : Json → Option (List α)
  | .array values => values.mapM read
  | _ => none

/-- The values a name stands for. -/
def occurrences (key : String) (fields : List (String × Json)) : List Json :=
  (fields.filter fun field => field.1 = key).map Prod.snd

/-- The one value of a name, or what a missing one stands for. -/
def readOne (missing : Option α) (read : Json → Option α) : List Json → Option α
  | [] => missing
  | [value] => read value
  | _ => none

def required (read : Json → Option α) (fields : List (String × Json)) (key : String) : Option α :=
  readOne none read (occurrences key fields)

def withDefault (default : α) (read : Json → Option α) (fields : List (String × Json))
    (key : String) : Option α :=
  readOne (some default) read (occurrences key fields)

def optionField (read : Json → Option α) (fields : List (String × Json)) (key : String) :
    Option (Option α) :=
  withDefault none (asOption read) fields key

/-- A field that is left out when there is no value. -/
def present (key : String) (write : α → Json) : Option α → List (String × Json)
  | none => []
  | some value => [(key, write value)]

/-- The fields of a struct. An array has to reach the last field without a default. -/
def structFields (names : List String) (needed : ℕ) : Json → Option (List (String × Json))
  | .object fields => some fields
  | .array values =>
    if needed ≤ values.length ∧ values.length ≤ names.length then some (names.zip values) else none
  | _ => none

/-- The fields of a struct that has no others. -/
def onlyFields (names : List String) (value : Json) : Option (List (String × Json)) := do
  let fields ← structFields names names.length value
  if fields.all fun field => names.contains field.1 then some fields else none

/-- One of some names, also as the only name of an object. -/
def asName (names : List (String × α)) : Json → Option α
  | .string name => names.lookup name
  | .object [(name, .null)] => names.lookup name
  | _ => none

def asTagged (key : String) : Json → Option (String × Json)
  | .object fields =>
    (required asString fields key).map fun tag =>
      (tag, .object (fields.filter fun field => field.1 ≠ key))
  | .array (tag :: values) => (asString tag).map fun tag => (tag, .array values)
  | _ => none

/-- A map by its keys; of one key the last value counts. -/
def asTable (read : Json → Option α) : Json → Option (ExtTreeMap String α)
  | .object fields =>
    fields.foldlM (fun table field => (read field.2).map (table.insert field.1 ·)) ∅
  | _ => none

def ofTable (write : α → Json) (table : ExtTreeMap String α) : Json :=
  .object (table.toList.map fun entry => (entry.1, write entry.2))

@[simp]
theorem occurrences_nil (key : String) : occurrences key [] = [] := rfl

@[simp]
theorem occurrences_cons (key other : String) (value : Json) (fields : List (String × Json)) :
    occurrences key ((other, value) :: fields) =
      if other = key then value :: occurrences key fields else occurrences key fields := by
  unfold occurrences
  by_cases h : other = key
  · rw [List.filter_cons_of_pos (by simp [h]), if_pos h, List.map_cons]
  · rw [List.filter_cons_of_neg (by simp [h]), if_neg h]

@[simp]
theorem occurrences_append (key : String) (fields others : List (String × Json)) :
    occurrences key (fields ++ others) = occurrences key fields ++ occurrences key others := by
  simp [occurrences]

@[simp]
theorem occurrences_present (key other : String) (write : α → Json) (value : Option α) :
    occurrences key (present other write value) =
      if other = key then (value.map write).toList else [] := by
  cases value with
  | none | some => simp [present]

@[simp]
theorem readOne_nil (missing : Option α) (read : Json → Option α) :
    readOne missing read [] = missing := by
  rw [readOne]

@[simp]
theorem readOne_singleton (missing : Option α) (read : Json → Option α) (value : Json) :
    readOne missing read [value] = read value := by
  rw [readOne]

theorem required_of {read : Json → Option α} {fields : List (String × Json)} {key : String}
    {value : Json} {a : α} (h : occurrences key fields = [value]) (hread : read value = some a) :
    required read fields key = some a := by
  rw [required, h, readOne_singleton, hread]

variable {fields : List (String × Json)} {write : α → Json} {read : Json → Option α}
  {value : Option α} {n : ℕ}

theorem onlyFields_object {names : List String} (h : fields.map Prod.fst = names) :
    onlyFields names (.object fields) = some fields := by
  have hall : (fields.all fun field => names.contains field.1) = true := by
    rw [List.all_eq_true]
    intro field hfield
    rw [List.contains_iff_mem, ← h]
    exact List.mem_map.2 ⟨field, hfield, rfl⟩
  rw [onlyFields, structFields]
  exact if_pos hall

theorem asTagged_object {key tag : String} (h : ∀ field ∈ fields, field.1 ≠ key) :
    asTagged key (.object ((key, .string tag) :: fields)) = some (tag, .object fields) := by
  have hnone : occurrences key fields = [] := by
    rw [occurrences, List.filter_eq_nil_iff.2, List.map_nil]
    intro field hfield
    simpa using h field hfield
  have hfilter : ((key, Json.string tag) :: fields).filter (fun field => field.1 ≠ key) = fields := by
    rw [List.filter_cons_of_neg (by simp), List.filter_eq_self.2]
    intro field hfield
    simpa using h field hfield
  rw [asTagged, required, occurrences_cons, if_pos rfl, hnone, hfilter]
  rfl

theorem asWhole_ofWhole {low high value : Int} (hlow : low ≤ value) (hhigh : value < high)
    (hbelow : -2 ^ 63 ≤ low) (habove : high ≤ 2 ^ 64) :
    asWhole low high (ofWhole value) = some value := by
  rw [ofWhole, dif_pos (by omega), asWhole, if_pos ⟨hlow, hhigh⟩]

theorem asNat_ofWhole {bound value : ℕ} (hvalue : value < bound) (habove : bound ≤ 2 ^ 64) :
    asNat bound (ofWhole value) = some value := by
  rw [asNat, asWhole_ofWhole (by omega) (by omega) (by omega) (by omega)]
  rfl

theorem asDouble_ofDouble (nearest : Int → Int) {rank : Int}
    (h : -0x7FF0000000000001 < rank ∧ rank < 0x7FF0000000000000) :
    asDouble nearest (ofDouble rank) = some rank := by
  rw [ofDouble, dif_pos h, asDouble]

theorem asOption_ofOption (hread : ∀ x ∈ value, read (write x) = some x ∧ write x ≠ .null) :
    asOption read (ofOption write value) = some value := by
  cases value with
  | none => rfl
  | some x =>
    obtain ⟨hx, hne⟩ := hread x rfl
    rw [ofOption]
    cases hwrite : write x with
    | null => exact absurd hwrite hne
    | bool b | number n | string s | array vs | object fs => rw [hwrite] at hx; simp [asOption, hx]

theorem readOne_present (hread : ∀ x ∈ value, read (write x) = some x ∧ write x ≠ .null) :
    readOne (some none) (asOption read) (value.map write).toList = some value := by
  cases value with
  | none => rfl
  | some x => exact asOption_ofOption hread

theorem asList_ofList_map {β : Type} {read : Json → Option β} {image : α → β} {values : List α}
    (hread : ∀ x ∈ values, read (write x) = some (image x)) :
    asList read (ofList write values) = some (values.map image) := by
  rw [ofList, asList]
  induction values with
  | nil => rfl
  | cons x xs ih =>
    have hxs := ih fun y hy => hread y (List.mem_cons_of_mem _ hy)
    rw [List.map_cons, List.mapM_cons, hread x (List.mem_cons_self ..), hxs]
    rfl

theorem asList_ofList {values : List α} (hread : ∀ x ∈ values, read (write x) = some x) :
    asList read (ofList write values) = some values := by
  rw [asList_ofList_map hread, List.map_id']

theorem asTable_ofTable {table : ExtTreeMap String α}
    (hread : ∀ entry ∈ table.toList, read (write entry.2) = some entry.2) :
    asTable read (ofTable write table) = some table := by
  have hfold : ∀ (entries : List (String × α)) (start : ExtTreeMap String α),
      (∀ entry ∈ entries, read (write entry.2) = some entry.2) →
      (entries.map fun entry => (entry.1, write entry.2)).foldlM
          (fun table field => (read field.2).map (table.insert field.1 ·)) start =
        some (entries.foldl (fun acc entry => acc.insert entry.1 entry.2) start) := by
    intro entries
    induction entries with
    | nil => exact fun _ _ => rfl
    | cons entry entries ih =>
      intro start hentries
      have hentry := hentries entry (List.mem_cons_self ..)
      rw [List.map_cons, List.foldlM_cons, hentry, Option.map_some, List.foldl_cons]
      exact ih _ fun other hother => hentries other (List.mem_cons_of_mem _ hother)
  rw [ofTable, asTable, hfold _ _ hread, Lib.Tables.foldl_insert_toList]

section

variable {read : Json → Option α} {fields : List (String × Json)} {key : String}

variable {value : Json} {x : α}

theorem range_of_asWhole {low high n : Int} (h : asWhole low high value = some n) :
    low ≤ n ∧ n < high := by
  unfold asWhole at h
  split at h
  · split at h
    · rename_i hrange
      cases h
      exact hrange
    · cases h
  · cases h

theorem lt_of_asNat {bound n : ℕ} (h : asNat bound value = some n) : n < bound := by
  obtain ⟨whole, hwhole, rfl⟩ := Option.map_eq_some_iff.1 h
  have hrange := range_of_asWhole hwhole
  omega

theorem exists_of_required (h : required read fields key = some x) :
    ∃ value, read value = some x := by
  unfold required readOne at h
  split at h
  · cases h
  · exact ⟨_, h⟩
  · cases h

theorem exists_of_withDefault {default : α} (h : withDefault default read fields key = some x) :
    x = default ∨ ∃ value, read value = some x := by
  unfold withDefault readOne at h
  split at h
  · exact Or.inl (Option.some.inj h).symm
  · exact Or.inr ⟨_, h⟩
  · cases h

theorem exists_of_asOption (h : asOption read value = some (some x)) : read value = some x := by
  unfold asOption at h
  split at h
  · cases h
  · obtain ⟨y, hy, hxy⟩ := Option.map_eq_some_iff.1 h
    rw [hy, hxy]

theorem exists_of_optionField (h : optionField read fields key = some (some x)) :
    ∃ value, read value = some x := by
  rcases exists_of_withDefault h with hnone | ⟨value, hvalue⟩
  · cases hnone
  · exact ⟨value, exists_of_asOption hvalue⟩

theorem exists_of_mem_asList {xs : List α} (h : asList read value = some xs) :
    ∀ x ∈ xs, ∃ value, read value = some x := by
  unfold asList at h
  split at h
  · rename_i values
    induction values generalizing xs with
    | nil =>
      cases h
      simp
    | cons first values ih =>
      rw [List.mapM_cons] at h
      obtain ⟨y, hy, hrest⟩ := Option.bind_eq_some_iff.1 h
      obtain ⟨ys, hys, hxs⟩ := Option.bind_eq_some_iff.1 hrest
      cases hxs
      intro x hx
      rcases List.mem_cons.1 hx with rfl | hx
      · exact ⟨first, hy⟩
      · exact ih hys x hx
  · cases h

theorem exists_of_mem_asTable {table : ExtTreeMap String α} (h : asTable read value = some table) :
    ∀ entry ∈ table.toList, ∃ value, read value = some entry.2 := by
  have hfold : ∀ (fields : List (String × Json)) (start : ExtTreeMap String α),
      fields.foldlM (fun table field => (read field.2).map (table.insert field.1 ·)) start =
        some table →
      (∀ (key : String) (x : α), start[key]? = some x → ∃ value, read value = some x) →
      ∀ (key : String) (x : α), table[key]? = some x → ∃ value, read value = some x := by
    intro fields
    induction fields with
    | nil =>
      intro start hrun hstart
      cases hrun
      exact hstart
    | cons field fields ih =>
      intro start hrun hstart
      rw [List.foldlM_cons] at hrun
      obtain ⟨next, hnext, hrest⟩ := Option.bind_eq_some_iff.1 hrun
      obtain ⟨y, hy, rfl⟩ := Option.map_eq_some_iff.1 hnext
      refine ih _ hrest fun key x hx => ?_
      by_cases hkey : field.1 = key
      · subst hkey
        rw [Lib.Tables.getElem?_insert_self] at hx
        exact ⟨field.2, hx ▸ hy⟩
      · rw [Lib.Tables.getElem?_insert_ne _ _ hkey] at hx
        exact hstart key x hx
  unfold asTable at h
  split at h
  · intro entry hentry
    exact hfold _ _ h (by simp) entry.1 entry.2
      (ExtTreeMap.mem_toList_iff_getElem?_eq_some.1 hentry)
  · cases h

end

section

variable {tokens : Tokens} {depth : ℕ}

theorem legible_ofWhole (value : Int) : Legible tokens depth (ofWhole value) := by
  unfold ofWhole
  split
  · exact .number _ (tokens.reread_whole _ _ _)
  · exact .null _

/-- The text of a double gives it back. -/
def Keeps (tokens : Tokens) (rank : Int) : Prop :=
  ∀ low high, tokens.reread (.double rank low high) = .double rank low high

theorem keeps_of_faithful (h : tokens.Faithful) (rank : Int) : Keeps tokens rank :=
  fun _ _ => h _

theorem legible_ofDouble {rank : Int} (h : Keeps tokens rank) :
    Legible tokens depth (ofDouble rank) := by
  unfold ofDouble
  split
  · exact .number _ (h _ _)
  · exact .null _

theorem legible_ofOption {value : Option α} (h : ∀ x ∈ value, Legible tokens depth (write x)) :
    Legible tokens depth (ofOption write value) := by
  cases value with
  | none => exact .null _
  | some x => exact h x rfl

theorem legible_ofList {values : List α} (h : ∀ x ∈ values, Legible tokens depth (write x)) :
    Legible tokens (depth + 1) (ofList write values) := by
  refine .array fun value hvalue => ?_
  obtain ⟨x, hx, rfl⟩ := List.mem_map.1 hvalue
  exact h x hx

theorem legible_ofTable (h : ∀ x, Legible tokens depth (write x)) (table : ExtTreeMap String α) :
    Legible tokens (depth + 1) (ofTable write table) := by
  refine .object fun field hfield => ?_
  obtain ⟨entry, -, rfl⟩ := List.mem_map.1 hfield
  exact h entry.2

theorem legible_present {key : String} {value : Option α}
    (h : ∀ x ∈ value, Legible tokens depth (write x)) :
    ∀ field ∈ present key write value, Legible tokens depth field.2 := by
  intro field hfield
  cases value with
  | none => cases hfield
  | some x =>
    rw [present, List.mem_singleton] at hfield
    rw [hfield]
    exact h x rfl

end

theorem ne_of_mem_present {key other : String} (h : key ≠ other) :
    ∀ field ∈ present key write value, field.1 ≠ other := by
  intro field hfield
  cases value with
  | none => cases hfield
  | some x =>
    rw [present, List.mem_singleton] at hfield
    rw [hfield]
    exact h

end CopyPaste.Lib.JsonFields
