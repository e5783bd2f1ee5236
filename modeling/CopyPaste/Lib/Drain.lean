import CopyPaste.Lib.Keyset
import CopyPaste.Lib.Sorted

/-!
Draining a table page by page: each page is resumed at the key of the last row of the one
before it, and a page that is not full is the last.
-/

namespace CopyPaste.Lib.Drain

open Keyset Sorted

variable {α P : Type*} [LinearOrder P] {key : α → P} {rows : List α}

/-- The pages up to the first short one; none where a number of them does not come to it. -/
def drain (key : α → P) (read : P → List α) (limit : ℕ) : ℕ → P → Option (List α)
  | 0, _ => none
  | pages + 1, since =>
    let run := read since
    if run.length < limit then some run
    else
      match run.getLast? with
      | none => none
      | some last => (drain key read limit pages (key last)).map (run ++ ·)

/-- The rows past a position, in order. -/
def ahead (key : α → P) (rows : List α) (since : P) : List α :=
  (rows.filter fun row => since < key row).insertionSort fun a b => key a ≤ key b

theorem ahead_perm (rows : List α) (since : P) :
    (ahead key rows since).Perm (rows.filter fun row => since < key row) :=
  List.perm_insertionSort _ _

theorem ahead_sorted (hkeys : (rows.map key).Nodup) (since : P) :
    (ahead key rows since).Pairwise fun a b => key a < key b :=
  insertionSort_sorted (hkeys.sublist (List.filter_sublist.map key))

/-- What lies past the last row of a full page is the rest of what lay past the position. -/
theorem ahead_last (hkeys : (rows.map key).Nodup) {since : P} {front rest : List α} {last : α}
    (hahead : ahead key rows since = front ++ [last] ++ rest) :
    ahead key rows (key last) = rest := by
  have hsorted := hahead ▸ ahead_sorted hkeys since
  have hmem : ∀ row, row ∈ front ++ [last] ++ rest ↔ row ∈ rows ∧ since < key row := by
    intro row
    rw [← hahead, (ahead_perm rows since).mem_iff, List.mem_filter, decide_eq_true_eq]
  have habove : since < key last := ((hmem last).1 (by simp)).2
  rw [List.append_assoc, List.pairwise_append, List.singleton_append, List.pairwise_cons]
    at hsorted
  obtain ⟨-, ⟨hlast, hrest⟩, hfront⟩ := hsorted
  refine insertionSort_eq ?_ hrest
  have hrows : (rows.filter fun row => key last < key row).Nodup := hkeys.of_map.filter _
  refine (List.perm_ext_iff_of_nodup (hrest.imp fun hlt heq => ?_) hrows).2 fun row => ?_
  · exact absurd (heq ▸ hlt) (lt_irrefl _)
  · rw [List.mem_filter, decide_eq_true_eq]
    constructor
    · intro hrow
      exact ⟨((hmem row).1 (List.mem_append_right _ hrow)).1, hlast row hrow⟩
    · rintro ⟨hrow, hpast⟩
      have hin := (hmem row).2 ⟨hrow, habove.trans hpast⟩
      rcases List.mem_append.1 hin with hin | hin
      · rcases List.mem_append.1 hin with hin | hin
        · exact absurd (hfront row hin last List.mem_cons_self) (lt_asymm hpast)
        · rw [List.mem_singleton.1 hin] at hpast
          exact absurd hpast (lt_irrefl _)
      · exact hin

/-- A page of what a function makes of rows is made of a page of them. -/
theorem page_map {β : Type*} (key : α → P) (f : β → α) (rows : List β) (since : P) (limit : ℕ) :
    page key (rows.map f) since limit = (page (fun row => key (f row)) rows since limit).map f := by
  unfold page
  rw [List.filter_map, ← List.map_insertionSort (fun a b => key (f a) ≤ key (f b))
    (fun a b => key a ≤ key b) f _ fun _ _ _ _ => Iff.rfl, List.map_take]
  rfl

theorem page_congr {other : α → P} (h : ∀ row ∈ rows, key row = other row) (since : P)
    (limit : ℕ) : page key rows since limit = page other rows since limit := by
  have hfilter : (rows.filter fun row => since < key row) =
      rows.filter fun row => since < other row :=
    List.filter_congr fun row hrow => by rw [h row hrow]
  unfold page
  rw [hfilter]
  have hsort := List.map_insertionSort (fun a b => key a ≤ key b) (fun a b => other a ≤ other b)
    id (rows.filter fun row => since < other row) fun a ha b hb => by
      rw [h a (List.mem_of_mem_filter ha), h b (List.mem_of_mem_filter hb)]
      exact Iff.rfl
  rw [List.map_id, List.map_id] at hsort
  rw [hsort]

theorem page_sorted (hkeys : (rows.map key).Nodup) (since : P) (limit : ℕ) :
    (page key rows since limit).Pairwise fun a b => key a < key b :=
  firsts_sorted (hkeys.sublist (List.filter_sublist.map key)) limit

theorem page_nodup (hkeys : (rows.map key).Nodup) (since : P) (limit : ℕ) :
    (page key rows since limit).Nodup :=
  (firsts_keys (hkeys.sublist (List.filter_sublist.map key)) limit).of_map

theorem mem_of_mem_page {since : P} {limit : ℕ} {row : α} (h : row ∈ page key rows since limit) :
    row ∈ rows :=
  (List.mem_filter.1 (mem_of_mem_firsts h)).1

/-- Enough pages yield every row past the position once, in order. -/
theorem drain_page (hkeys : (rows.map key).Nodup) {limit : ℕ} (hlimit : 0 < limit) (pages : ℕ)
    (since : P) (henough : (ahead key rows since).length < pages) :
    drain key (fun since => page key rows since limit) limit pages since =
      some (ahead key rows since) := by
  induction pages generalizing since with
  | zero => exact absurd henough (Nat.not_lt_zero _)
  | succ pages ih =>
    have hpage : page key rows since limit = (ahead key rows since).take limit := rfl
    rw [drain, hpage]
    split
    · next hshort =>
      rw [List.length_take] at hshort
      rw [List.take_of_length_le (by omega)]
    · next hfull =>
      rcases List.eq_nil_or_concat ((ahead key rows since).take limit) with hnil | hconcat
      · rw [hnil, List.length_nil] at hfull
        exact absurd hlimit hfull
      · obtain ⟨front, last, hrun⟩ := hconcat
        rw [List.concat_eq_append] at hrun
        have hsplit : ahead key rows since =
            front ++ [last] ++ (ahead key rows since).drop limit := by
          rw [← hrun, List.take_append_drop]
        have hrest := ahead_last hkeys hsplit
        have hpos : ((ahead key rows since).drop limit).length < pages := by
          rw [List.length_take] at hfull
          rw [List.length_drop]
          omega
        rw [hrun, List.getLast?_concat]
        show (drain key _ limit pages (key last)).map _ = _
        rw [ih (key last) (hrest ▸ hpos), hrest, Option.map_some, ← hrun, List.take_append_drop]

end CopyPaste.Lib.Drain
