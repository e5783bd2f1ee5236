import Mathlib.Data.List.Nodup

/-!
Tables of rows kept as lists with one row for each identifier, and the cutting
of a list into batches. Replacement drops the row of the same identifier, so it
keeps the identifiers distinct whatever was stored before.
-/

namespace CopyPaste.Lib.Rows

variable {α κ : Type*} [DecidableEq κ] (ident : α → κ)

/-- Store a row, replacing the one of its identifier. -/
def put (rows : List α) (row : α) : List α :=
  rows.filter (fun r => ident r ≠ ident row) ++ [row]

/-- The row of an identifier. -/
def lookup (rows : List α) (key : κ) : Option α :=
  rows.find? fun row => ident row = key

variable {ident}

@[simp]
theorem mem_put (rows : List α) (row r : α) :
    r ∈ put ident rows row ↔ r ∈ rows ∧ ident r ≠ ident row ∨ r = row := by
  simp [put]

theorem nodup_put (rows : List α) (row : α) (h : (rows.map ident).Nodup) :
    ((put ident rows row).map ident).Nodup := by
  rw [put, List.map_append, List.nodup_append]
  refine ⟨h.sublist (List.filter_sublist.map _), by simp, ?_⟩
  intro a ha b hb
  simp only [List.mem_map, List.mem_filter, decide_eq_true_eq, List.map_cons, List.map_nil,
    List.mem_singleton] at ha hb
  obtain ⟨r, ⟨_, hr⟩, rfl⟩ := ha
  subst hb
  exact hr

variable {rows : List α}

theorem mem_foldl_put {items : List α} {r : α} (h : r ∈ items.foldl (put ident) rows) :
    r ∈ rows ∨ r ∈ items := by
  induction items generalizing rows with
  | nil => exact Or.inl h
  | cons item rest ih =>
    rcases ih h with hput | hrest
    · rcases (mem_put _ _ _).1 hput with ⟨hrow, -⟩ | rfl
      · exact Or.inl hrow
      · exact Or.inr List.mem_cons_self
    · exact Or.inr (List.mem_cons_of_mem _ hrest)

theorem nodup_foldl_put (items : List α) (h : (rows.map ident).Nodup) :
    ((items.foldl (put ident) rows).map ident).Nodup := by
  induction items generalizing rows with
  | nil => exact h
  | cons item rest ih => exact ih (nodup_put rows item h)

theorem lookup_eq_some {key : κ} {row : α} (h : lookup ident rows key = some row) :
    row ∈ rows ∧ ident row = key :=
  ⟨List.mem_of_find?_eq_some h, by simpa using List.find?_some h⟩

theorem lookup_eq_none_iff {key : κ} :
    lookup ident rows key = none ↔ ∀ row ∈ rows, ident row ≠ key := by
  simp [lookup]

theorem lookup_of_mem (hnodup : (rows.map ident).Nodup) {row : α} (h : row ∈ rows) :
    lookup ident rows (ident row) = some row := by
  cases hget : lookup ident rows (ident row) with
  | none => exact absurd rfl (lookup_eq_none_iff.1 hget row h)
  | some other =>
    obtain ⟨hmem, hident⟩ := lookup_eq_some hget
    exact congrArg some (List.inj_on_of_nodup_map hnodup hmem h hident)

theorem lookup_append (rows more : List α) (key : κ) :
    lookup ident (rows ++ more) key = (lookup ident rows key).or (lookup ident more key) := by
  simp [lookup, List.find?_append]

/-- Rows selected by their identifiers answer for those alone. -/
theorem lookup_filter (p : κ → Prop) [DecidablePred p] (rows : List α) (key : κ) :
    lookup ident (rows.filter fun row => p (ident row)) key =
      if p key then lookup ident rows key else none := by
  unfold lookup
  rw [List.find?_filter]
  split
  · rename_i h
    congr 1
    funext row
    by_cases hrow : ident row = key
    · simp [hrow, h]
    · simp [hrow]
  · rename_i h
    rw [List.find?_eq_none]
    intro row _ hrow
    simp only [decide_eq_true_eq] at hrow
    exact h (hrow.2 ▸ hrow.1)

/-- With distinct identifiers, a row that is not selected leaves nothing to look up. -/
theorem lookup_filter_row (hnodup : (rows.map ident).Nodup) (p : α → Bool) (key : κ) :
    lookup ident (rows.filter p) key = (lookup ident rows key).filter p := by
  cases hget : lookup ident rows key with
  | none =>
    refine lookup_eq_none_iff.2 fun row hrow => ?_
    exact lookup_eq_none_iff.1 hget row (List.mem_of_mem_filter hrow)
  | some row =>
    obtain ⟨hmem, rfl⟩ := lookup_eq_some hget
    rw [Option.filter_some]
    split
    · next hp =>
      refine lookup_of_mem (hnodup.sublist (List.filter_sublist.map _)) ?_
      exact List.mem_filter.2 ⟨hmem, hp⟩
    · next hp =>
      refine lookup_eq_none_iff.2 fun other hother hident => hp ?_
      obtain ⟨hothermem, hpother⟩ := List.mem_filter.1 hother
      rw [← List.inj_on_of_nodup_map hnodup hothermem hmem hident]
      exact hpother

/-- With distinct identifiers, one of them selects the row it looks up. -/
theorem filter_ident (hnodup : (rows.map ident).Nodup) (key : κ) :
    rows.filter (fun row => ident row = key) = (lookup ident rows key).toList := by
  induction rows with
  | nil => rfl
  | cons row rest ih =>
    rw [List.map_cons, List.nodup_cons] at hnodup
    have hrest := ih hnodup.2
    unfold lookup at hrest ⊢
    by_cases hrow : ident row = key
    · have hnone : rest.find? (fun row => decide (ident row = key)) = none := by
        rw [List.find?_eq_none]
        intro other hother hident
        apply hnodup.1
        rw [hrow, ← of_decide_eq_true hident]
        exact List.mem_map_of_mem hother
      rw [hnone] at hrest
      simp [hrow, hrest]
    · simp [hrow, hrest]

theorem lookup_put (rows : List α) (row : α) (key : κ) :
    lookup ident (put ident rows row) key =
      if ident row = key then some row else lookup ident rows key := by
  have hrest : lookup ident (rows.filter fun r => ident r ≠ ident row) key =
      if ident row = key then none else lookup ident rows key := by
    rw [lookup_filter (fun other => other ≠ ident row)]
    simp only [ne_eq, ite_not, @eq_comm _ key]
  rw [put, lookup_append, hrest]
  split
  · rename_i h
    simp [lookup, h]
  · rename_i h
    simp [lookup, h]

/-- An identifier is found after a run of replacements if it was, or if one of them is its. -/
theorem isSome_lookup_foldl_put (items rows : List α) (key : κ) :
    (lookup ident (items.foldl (put ident) rows) key).isSome ↔
      (lookup ident rows key).isSome ∨ ∃ item ∈ items, ident item = key := by
  induction items generalizing rows with
  | nil => simp
  | cons item rest ih =>
    rw [List.foldl_cons, ih, lookup_put]
    by_cases h : ident item = key
    · simp [h]
    · simp [h]

/-- A change that keeps the identifiers changes what a lookup finds. -/
theorem lookup_map (f : α → α) (hf : ∀ row, ident (f row) = ident row) (rows : List α) (key : κ) :
    lookup ident (rows.map f) key = (lookup ident rows key).map f := by
  unfold lookup
  rw [List.find?_map]
  congr 2
  funext row
  simp [hf]

omit [DecidableEq κ] in
theorem nodup_map (f : α → α) (hf : ∀ row, ident (f row) = ident row) (rows : List α)
    (h : (rows.map ident).Nodup) : ((rows.map f).map ident).Nodup := by
  simpa [Function.comp_def, hf] using h

/-- Storing rows of distinct identifiers one by one appends them. -/
theorem foldl_put (rows acc : List α) (h : ((acc ++ rows).map ident).Nodup) :
    rows.foldl (put ident) acc = acc ++ rows := by
  induction rows generalizing acc with
  | nil => simp
  | cons row rest ih =>
    have hfresh : put ident acc row = acc ++ [row] := by
      unfold put
      congr 1
      rw [List.filter_eq_self]
      intro r hr
      rw [List.map_append, List.nodup_append] at h
      simpa using h.2.2 _ (List.mem_map_of_mem hr) _ (List.mem_map_of_mem List.mem_cons_self)
    rw [List.foldl_cons, hfresh, ih _ (by simpa using h)]
    simp

private def chunksWithin (size : Nat) : Nat → List α → List (List α)
  | 0, _ => []
  | _, [] => []
  | fuel + 1, rows => rows.take size :: chunksWithin size fuel (rows.drop size)

/-- Consecutive batches of at most `size` elements. -/
def chunks (size : Nat) (rows : List α) : List (List α) :=
  chunksWithin size rows.length rows

private theorem flatten_chunksWithin (size : Nat) (hsize : 0 < size) (fuel : Nat) (rows : List α)
    (hfuel : rows.length ≤ fuel) : (chunksWithin size fuel rows).flatten = rows := by
  induction fuel generalizing rows with
  | zero =>
    have hnil : rows = [] := List.eq_nil_of_length_eq_zero (by omega)
    simp [hnil, chunksWithin]
  | succ fuel ih =>
    cases rows with
    | nil => simp [chunksWithin]
    | cons r rest =>
      have hdrop : ((r :: rest).drop size).length ≤ fuel := by
        simp only [List.length_drop, List.length_cons] at hfuel ⊢
        omega
      rw [chunksWithin, List.flatten_cons, ih _ hdrop, List.take_append_drop]
      simp

/-- Batching loses nothing and keeps the order. -/
theorem flatten_chunks (size : Nat) (hsize : 0 < size) (rows : List α) :
    (chunks size rows).flatten = rows :=
  flatten_chunksWithin size hsize rows.length rows (Nat.le_refl _)

end CopyPaste.Lib.Rows
