import CopyPaste.Lib.Checks
import Mathlib.Data.List.Forall2
import Mathlib.Data.List.Perm.Subperm
import Std.Data.ExtTreeMap

/-!
Loops over sorted tables. A pass that treats each entry at its own key, and stops
at the first error, relates every key of its result to the entry of that key and
to what the start had there.
-/

namespace CopyPaste.Lib.Tables

open Lib.Checks Std

variable {κ β γ ε : Type} [Ord κ] [TransOrd κ] [LawfulEqOrd κ]

theorem getElem?_insert_self (t : ExtTreeMap κ β) (key : κ) (value : β) :
    (t.insert key value)[key]? = some value := by
  simp

variable {key other : κ} {t : ExtTreeMap κ β} {value : β} {f : κ → Except ε β} {entries : List κ}
  {results : List β}

theorem getElem?_insert_ne (t : ExtTreeMap κ β) (value : β) (h : key ≠ other) :
    (t.insert key value)[other]? = t[other]? := by
  rw [ExtTreeMap.getElem?_insert, if_neg (by simpa using h)]

theorem getElem?_erase_ne (t : ExtTreeMap κ β) (h : key ≠ other) :
    (t.erase key)[other]? = t[other]? := by
  rw [ExtTreeMap.getElem?_erase, if_neg (by simpa using h)]

omit [LawfulEqOrd κ] in
theorem mem_of_getElem? (h : t[key]? = some value) : key ∈ t := by
  rw [ExtTreeMap.mem_iff_isSome_getElem?, h]
  rfl

omit [LawfulEqOrd κ] in
theorem exists_of_mem (h : key ∈ t) : ∃ value, t[key]? = some value := by
  rw [ExtTreeMap.mem_iff_isSome_getElem?] at h
  exact Option.isSome_iff_exists.1 h

theorem getElem?_of_erase (h : (t.erase key)[other]? = some value) :
    key ≠ other ∧ t[other]? = some value := by
  by_cases hid : key = other
  · rw [hid] at h
    simp at h
  · rw [getElem?_erase_ne t hid] at h
    exact ⟨hid, h⟩

theorem mem_of_mem_erase (h : other ∈ t.erase key) : key ≠ other ∧ other ∈ t := by
  obtain ⟨value, hvalue⟩ := exists_of_mem h
  obtain ⟨hne, hold⟩ := getElem?_of_erase hvalue
  exact ⟨hne, mem_of_getElem? hold⟩

theorem getElem?_of_filter {p : κ → β → Bool} (h : (t.filter p)[key]? = some value) :
    t[key]? = some value ∧ p key value = true := by
  rw [ExtTreeMap.getElem?_filter'] at h
  exact Option.filter_eq_some_iff.1 h

theorem of_mem_filter {p : κ → β → Bool} (h : key ∈ t.filter p) :
    ∃ value, t[key]? = some value ∧ p key value = true := by
  obtain ⟨value, hvalue⟩ := exists_of_mem h
  exact ⟨value, getElem?_of_filter hvalue⟩

omit [LawfulEqOrd κ] in
private theorem foldlM_list {f : ExtTreeMap κ β → κ → γ → Except ε (ExtTreeMap κ β)}
    (relates : κ → Option β → γ → Option β → Prop)
    (hf : ∀ acc key value acc', f acc key value = .ok acc' →
      relates key acc[key]? value acc'[key]? ∧ ∀ other, key ≠ other → acc'[other]? = acc[other]?)
    (entries : List (κ × γ)) (hdistinct : (entries.map Prod.fst).Nodup)
    {start out : ExtTreeMap κ β}
    (h : entries.foldlM (fun acc entry => f acc entry.1 entry.2) start = .ok out) :
    (∀ key value, (key, value) ∈ entries → relates key start[key]? value out[key]?) ∧
      ∀ other, other ∉ entries.map Prod.fst → out[other]? = start[other]? := by
  induction entries generalizing start with
  | nil =>
    obtain rfl : start = out := by simpa [pure, Except.pure] using h
    exact ⟨by simp, fun _ _ => rfl⟩
  | cons entry rest ih =>
    rw [List.foldlM_cons] at h
    obtain ⟨next, hfirst, h⟩ := bind_ok_iff.1 h
    have hrest : rest.foldlM (fun acc entry => f acc entry.1 entry.2) next = .ok out := by
      simpa [hfirst, bind, Except.bind] using h
    rw [List.map_cons, List.nodup_cons] at hdistinct
    obtain ⟨hrelates, hothers⟩ := hf start entry.1 entry.2 next hfirst
    obtain ⟨hentries, houtside⟩ := ih hdistinct.2 hrest
    refine ⟨fun key value hmem => ?_, fun other hother => ?_⟩
    · rcases List.mem_cons.1 hmem with rfl | hmem
      · rw [houtside key hdistinct.1]
        exact hrelates
      · have hne : entry.1 ≠ key := by
          rintro rfl
          exact hdistinct.1 (List.mem_map.2 ⟨_, hmem, rfl⟩)
        rw [← hothers key hne]
        exact hentries key value hmem
    · rw [List.map_cons, List.mem_cons, not_or] at hother
      rw [houtside other hother.2, hothers other (Ne.symm hother.1)]

theorem nodup_keys (t : ExtTreeMap κ γ) : (t.toList.map Prod.fst).Nodup := by
  have h := @ExtTreeMap.distinct_keys_toList κ γ compare t _
  rw [List.Nodup, List.pairwise_map]
  refine h.imp fun {a b} hne heq => hne ?_
  rw [heq]
  exact ReflCmp.compare_self

omit [LawfulEqOrd κ] in
theorem size_ne_zero_of_mem (h : key ∈ t) : t.size ≠ 0 := by
  intro hzero
  rw [ExtTreeMap.eq_empty_iff_size_eq_zero.2 hzero] at h
  simp at h

omit [LawfulEqOrd κ] in
theorem size_insert_of_mem (h : key ∈ t) (value : β) : (t.insert key value).size = t.size := by
  rw [ExtTreeMap.size_insert]
  exact if_pos h

/-- A table whose keys are all in another one is not the larger one. -/
theorem size_le_of_keys {other : ExtTreeMap κ γ} (h : ∀ key, key ∈ t → key ∈ other) :
    t.size ≤ other.size := by
  have hsub : t.toList.map Prod.fst ⊆ other.toList.map Prod.fst := by
    intro key hkey
    obtain ⟨⟨_, value⟩, hentry, rfl⟩ := List.mem_map.1 hkey
    have hmem := mem_of_getElem? (ExtTreeMap.mem_toList_iff_getElem?_eq_some.1 hentry)
    obtain ⟨value', hvalue⟩ := exists_of_mem (h _ hmem)
    exact List.mem_map.2 ⟨_, ExtTreeMap.mem_toList_iff_getElem?_eq_some.2 hvalue, rfl⟩
  have hle := (List.subperm_of_subset (nodup_keys t) hsub).length_le
  simpa using hle

/-- Entries with distinct keys, put into an empty table one after the other. -/
theorem foldl_insert_toList (t : ExtTreeMap κ β) :
    t.toList.foldl (fun acc entry => acc.insert entry.1 entry.2) ∅ = t := by
  have hfold : ∀ (entries : List (κ × β)) (start : ExtTreeMap κ β),
      (entries.map Prod.fst).Nodup → ∀ key,
      (∀ value, (key, value) ∈ entries →
        (entries.foldl (fun acc entry => acc.insert entry.1 entry.2) start)[key]? = some value) ∧
      (key ∉ entries.map Prod.fst →
        (entries.foldl (fun acc entry => acc.insert entry.1 entry.2) start)[key]? = start[key]?) := by
    intro entries
    induction entries with
    | nil => exact fun start _ key => ⟨by simp, fun _ => rfl⟩
    | cons entry rest ih =>
      intro start hdistinct key
      rw [List.map_cons, List.nodup_cons] at hdistinct
      obtain ⟨hinside, houtside⟩ := ih (start.insert entry.1 entry.2) hdistinct.2 key
      refine ⟨fun value hmem => ?_, fun hnot => ?_⟩
      · rcases List.mem_cons.1 hmem with rfl | hmem
        · rw [List.foldl_cons, houtside hdistinct.1, getElem?_insert_self]
        · exact hinside value hmem
      · rw [List.map_cons, List.mem_cons, not_or] at hnot
        rw [List.foldl_cons, houtside hnot.2, getElem?_insert_ne _ _ (Ne.symm hnot.1)]
  refine ExtTreeMap.ext_getElem? fun {key} => ?_
  obtain ⟨hinside, houtside⟩ := hfold t.toList ∅ (nodup_keys t) key
  cases hvalue : t[key]? with
  | some value => exact hinside value (ExtTreeMap.mem_toList_iff_getElem?_eq_some.2 hvalue)
  | none =>
    rw [houtside, ExtTreeMap.getElem?_empty]
    intro hmem
    obtain ⟨⟨_, value⟩, hentry, rfl⟩ := List.mem_map.1 hmem
    rw [ExtTreeMap.mem_toList_iff_getElem?_eq_some.1 hentry] at hvalue
    simp at hvalue

/-- A pass over a table. -/
theorem foldlM_relates {f : ExtTreeMap κ β → κ → γ → Except ε (ExtTreeMap κ β)}
    (relates : κ → Option β → γ → Option β → Prop)
    (hf : ∀ acc key value acc', f acc key value = .ok acc' →
      relates key acc[key]? value acc'[key]? ∧ ∀ other, key ≠ other → acc'[other]? = acc[other]?)
    {t : ExtTreeMap κ γ} {start out : ExtTreeMap κ β} (h : t.foldlM f start = Except.ok out)
    (key : κ) :
    (∀ value, t[key]? = some value → relates key start[key]? value out[key]?) ∧
      (t[key]? = none → out[key]? = start[key]?) := by
  rw [ExtTreeMap.foldlM_eq_foldlM_toList] at h
  obtain ⟨hentries, houtside⟩ := foldlM_list relates hf t.toList (nodup_keys t) h
  refine ⟨fun value hvalue => ?_, fun hnone => houtside key fun hmem => ?_⟩
  · exact hentries key value (ExtTreeMap.mem_toList_iff_getElem?_eq_some.2 hvalue)
  · obtain ⟨⟨_, value⟩, hentry, rfl⟩ := List.mem_map.1 hmem
    rw [ExtTreeMap.mem_toList_iff_getElem?_eq_some.1 hentry] at hnone
    simp at hnone

omit [Ord κ] [TransOrd κ] [LawfulEqOrd κ] in
/-- A pass over a list keeps what each of its steps keeps. -/
theorem foldlM_keeps {f : β → κ → Except ε β} (keeps : β → Prop) (entries : List κ)
    (hf : ∀ acc acc', ∀ entry ∈ entries, keeps acc → f acc entry = .ok acc' → keeps acc')
    {start out : β} (hstart : keeps start) (h : entries.foldlM f start = .ok out) : keeps out := by
  induction entries generalizing start with
  | nil =>
    obtain rfl : start = out := by simpa [pure, Except.pure] using h
    exact hstart
  | cons entry rest ih =>
    rw [List.foldlM_cons] at h
    obtain ⟨next, hfirst, h⟩ := bind_ok_iff.1 h
    refine ih (fun acc acc' other hother => hf acc acc' other (List.mem_cons_of_mem _ hother))
      (hf start next entry List.mem_cons_self hstart hfirst) ?_
    simpa [hfirst, bind, Except.bind] using h

omit [Ord κ] [TransOrd κ] [LawfulEqOrd κ] in
/-- A pass goes through when each of its steps does, from what the steps before keep. -/
theorem foldlM_total {f : β → κ → Except ε β} (keeps : β → Prop) (entries : List κ)
    (hf : ∀ acc, ∀ entry ∈ entries, keeps acc → ∃ acc', f acc entry = .ok acc' ∧ keeps acc')
    {start : β} (hstart : keeps start) : ∃ out, entries.foldlM f start = .ok out ∧ keeps out := by
  induction entries generalizing start with
  | nil => exact ⟨start, by simp [pure, Except.pure], hstart⟩
  | cons entry rest ih =>
    obtain ⟨next, hnext, hkeeps⟩ := hf start entry List.mem_cons_self hstart
    obtain ⟨out, hout, hlast⟩ :=
      ih (fun acc other hother => hf acc other (List.mem_cons_of_mem _ hother)) hkeeps
    exact ⟨out, by simpa [hnext, bind, Except.bind] using hout, hlast⟩

omit [Ord κ] [TransOrd κ] [LawfulEqOrd κ] in
/-- A list of results has one for each entry. -/
theorem forall₂_of_mapM (h : entries.mapM f = .ok results) :
    List.Forall₂ (fun entry result => f entry = .ok result) entries results := by
  induction entries generalizing results with
  | nil =>
    obtain rfl : [] = results := by simpa [pure, Except.pure] using h
    exact List.Forall₂.nil
  | cons entry rest ih =>
    rw [List.mapM_cons] at h
    obtain ⟨first, hfirst, h⟩ := bind_ok_iff.1 h
    obtain ⟨others, hrest, h⟩ := bind_ok_iff.1 h
    obtain rfl : first :: others = results := by
      simpa [hfirst, hrest, bind, Except.bind, pure, Except.pure] using h
    exact List.Forall₂.cons hfirst (ih hrest)

theorem exists_of_forall₂ {α : Type*} {R : α → γ → Prop} {as : List α} {bs : List γ}
    (h : List.Forall₂ R as bs) {b : γ}
    (hb : b ∈ bs) : ∃ a ∈ as, R a b := by
  induction h with
  | nil => simp at hb
  | cons hfirst _ ih =>
    rcases List.mem_cons.1 hb with rfl | hmem
    · exact ⟨_, List.mem_cons_self, hfirst⟩
    · obtain ⟨a, ha, hrel⟩ := ih hmem
      exact ⟨a, List.mem_cons_of_mem _ ha, hrel⟩

omit [Ord κ] [TransOrd κ] [LawfulEqOrd κ] in
theorem exists_of_mem_mapM (h : entries.mapM f = .ok results) {result : β}
    (hresult : result ∈ results) : ∃ entry ∈ entries, f entry = .ok result :=
  exists_of_forall₂ (forall₂_of_mapM h) hresult

omit [Ord κ] [TransOrd κ] [LawfulEqOrd κ] in
theorem exists_result_of_mapM (h : entries.mapM f = .ok results) {entry : κ}
    (hentry : entry ∈ entries) : ∃ result ∈ results, f entry = .ok result :=
  exists_of_forall₂ (forall₂_of_mapM h).flip hentry

end CopyPaste.Lib.Tables
