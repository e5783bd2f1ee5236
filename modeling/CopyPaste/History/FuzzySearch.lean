import CopyPaste.Lib.Alignment
import Mathlib.Order.Bounds.Defs
import Mathlib.Data.List.Range

/-!
The bounded spelling distance of a search word. Only a diagonal band of the table is
computed, in rows of fixed size; what lies outside counts as out of bounds. A read or a
write outside a row, and a sum over a byte, would end the search: `none`.
-/

namespace CopyPaste.History.FuzzySearch

open Lib.Alignment

def maxWordChars : ℕ := 64

abbrev Row := List ℕ

/-- A row of nothing within the bound. -/
def blank (infinity : ℕ) : Row := List.replicate (maxWordChars + 3) infinity

def addOne (cell : ℕ) : Option ℕ :=
  if cell < 255 then some (cell + 1) else none

def differ (left right : Char) (corner : ℕ) : Option ℕ :=
  if left = right then some corner else addOne corner

/-- An adjacent swap, read two rows back. -/
def swapped (query word : List Char) (previousPrevious : Row) (i j : ℕ) (left right : Char)
    (cell : ℕ) : Option ℕ :=
  if 1 < i ∧ 1 < j then
    word[j - 2]?.bind fun before =>
      if left = before then
        query[i - 2]?.bind fun earlier =>
          if earlier = right then
            previousPrevious[j - 2]?.bind fun corner => (addOne corner).map (min cell)
          else some cell
      else some cell
  else some cell

def cellAt (query word : List Char) (previousPrevious previous current : Row) (i j : ℕ)
    (left : Char) : Option ℕ := do
  let above ← previous[j]?
  let deleted ← addOne above
  let beside ← current[j - 1]?
  let inserted ← addOne beside
  let corner ← previous[j - 1]?
  let right ← word[j - 1]?
  let replaced ← differ left right corner
  swapped query word previousPrevious i j left right (min (min deleted inserted) replaced)

def fillRow (query word : List Char) (previousPrevious previous : Row) (i : ℕ) (left : Char) :
    List ℕ → Row → Option Row
  | [], current => some current
  | j :: rest, current => do
    let cell ← cellAt query word previousPrevious previous current i j left
    if j < current.length then
      fillRow query word previousPrevious previous i left rest (current.set j cell)
    else none

/-- The cells from one to another, both included. -/
def slice (row : Row) (first last : ℕ) : Option (List ℕ) :=
  if first ≤ last + 1 ∧ last < row.length then some ((row.drop first).take (last + 1 - first))
  else none

/-- The rows for the rest of the query. The last row is answered, or nothing once a row has
nothing within the bound. -/
def fillRows (query word : List Char) (edits : ℕ) : ℕ → List Char → Row → Row →
    Option (Option Row)
  | _, [], _, previous => some (some previous)
  | i, left :: rest, previousPrevious, previous => do
    let first := max (i + 1 - edits) 1
    let last := min (i + 1 + edits) word.length
    let start := (blank (edits + 1)).set 0 (min ((i + 1) % 256) (edits + 1))
    let current ← fillRow query word previousPrevious previous (i + 1) left
      (List.range' first (last + 1 - first)) start
    let cells ← slice current first last
    if cells.all fun distance => edits < distance then some none
    else fillRows query word edits (i + 1) rest previous current

def firstRow (edits : ℕ) : Row :=
  (blank (edits + 1)).mapIdx fun index cell => if index < edits + 1 then index else cell

/-- The answer is the distance to the best prefix of the word, within the bound. -/
def prefixDistance (query word : List Char) (edits : ℕ) : Option (Option ℕ) :=
  let word := word.take (min word.length (query.length + edits))
  if word.length + edits < query.length then some none
  else do
    let last ← fillRows query word edits 0 query (blank (edits + 1)) (firstRow edits)
    match last with
    | none => some none
    | some row => do
      let cells ← slice row (query.length - edits) word.length
      some (cells.min?.filter fun distance => distance ≤ edits)

/-- A cell that tells a distance as far as the bound goes. -/
def Tells (edits cell distance : ℕ) : Prop :=
  min cell (edits + 1) = min distance (edits + 1)

/-- A row whose cells tell their distances up to a place. -/
structure Filled (query word : List Char) (edits i j : ℕ) (row : Row) : Prop where
  length : row.length = maxWordChars + 3
  tells : ∀ k < j, k ≤ word.length → ∃ cell, row[k]? = some cell ∧
    Tells edits cell (table query word i k) ∧ cell ≤ edits + 1 + i
  rest : ∀ k, j ≤ k → k < maxWordChars + 3 → row[k]? = some (edits + 1)

/-- A row whose cells all tell their distances. -/
structure Full (query word : List Char) (edits i : ℕ) (row : Row) : Prop where
  length : row.length = maxWordChars + 3
  tells : ∀ k ≤ word.length, ∃ cell, row[k]? = some cell ∧
    Tells edits cell (table query word i k) ∧ cell ≤ edits + 1 + i

section Rows

variable {query word : List Char} {edits : ℕ}

variable {cell i j first last : ℕ} {row previousPrevious : Row} {left : Char}

theorem addOne_of_lt (h : cell < 255) : addOne cell = some (cell + 1) :=
  if_pos h

theorem Tells.succ {distance : ℕ} (h : Tells edits cell distance) :
    Tells edits (cell + 1) (distance + 1) := by
  unfold Tells at h ⊢
  omega

theorem Tells.min {cell' distance distance' : ℕ} (h : Tells edits cell distance)
    (h' : Tells edits cell' distance') : Tells edits (min cell cell') (min distance distance') := by
  unfold Tells at h h' ⊢
  omega

theorem Full.at (h : Full query word edits i row) (hbound : edits + 1 + i < 254)
    (hj : j ≤ word.length) :
    ∃ cell, row[j]? = some cell ∧ Tells edits cell (table query word i j) ∧
      addOne cell = some (cell + 1) ∧ cell ≤ edits + 1 + i := by
  obtain ⟨cell, hcell, htells, hsmall⟩ := h.tells j hj
  exact ⟨cell, hcell, htells, addOne_of_lt (by omega), hsmall⟩

/-- A swap is found where the table has one. -/
theorem swapped_tells {plain : ℕ} {right : Char} (hbound : edits + 1 + i < 254)
    (hleft : query[i]? = some left) (hright : word[j]? = some right)
    (hearlier : 0 < i → Full query word edits (i - 1) previousPrevious)
    (hcell : Tells edits cell plain) :
    ∃ cell', swapped query word previousPrevious (i + 1) (j + 1) left right cell = some cell' ∧
      Tells edits cell' (if 0 < i ∧ 0 < j ∧ query[i]? = word[j - 1]? ∧ query[i - 1]? = word[j]? then
        min plain (table query word (i - 1) (j - 1) + 1) else plain) ∧ cell' ≤ cell := by
  have hj := (List.getElem?_eq_some_iff.mp hright).1
  have hi := (List.getElem?_eq_some_iff.mp hleft).1
  unfold swapped
  by_cases hinside : 0 < i ∧ 0 < j
  · rw [if_pos ⟨Nat.succ_lt_succ hinside.1, Nat.succ_lt_succ hinside.2⟩]
    obtain ⟨before, hbefore⟩ : ∃ before, word[j - 1]? = some before :=
      ⟨_, List.getElem?_eq_getElem (by omega)⟩
    obtain ⟨earlier, hearlier'⟩ : ∃ earlier, query[i - 1]? = some earlier :=
      ⟨_, List.getElem?_eq_getElem (by omega)⟩
    rw [show j + 1 - 2 = j - 1 by omega, show i + 1 - 2 = i - 1 by omega, hbefore, hearlier',
      Option.bind_some, Option.bind_some, hleft, hright]
    by_cases hsame : left = before
    · rw [if_pos hsame]
      by_cases hother : earlier = right
      · obtain ⟨corner, hcorner, htells, hadd, -⟩ :=
          (hearlier hinside.1).at (by omega) (j := j - 1) (by omega)
        rw [if_pos hother, if_pos ⟨hinside.1, hinside.2, congrArg some hsame, congrArg some hother⟩,
          hcorner, Option.bind_some, hadd, Option.map_some]
        exact ⟨min cell (corner + 1), rfl, hcell.min htells.succ, Nat.min_le_left _ _⟩
      · rw [if_neg hother, if_neg fun h => hother (Option.some.inj h.2.2.2)]
        exact ⟨cell, rfl, hcell, Nat.le_refl _⟩
    · rw [if_neg hsame, if_neg fun h => hsame (Option.some.inj h.2.2.1)]
      exact ⟨cell, rfl, hcell, Nat.le_refl _⟩
  · rw [if_neg (by omega), if_neg fun h => hinside ⟨h.1, h.2.1⟩]
    exact ⟨cell, rfl, hcell, Nat.le_refl _⟩

theorem cellAt_tells {previous current : Row} (hbound : edits + 1 + i < 253)
    (hleft : query[i]? = some left) (hj : j < word.length)
    (hprevious : Full query word edits i previous)
    (hearlier : 0 < i → Full query word edits (i - 1) previousPrevious)
    (hcurrent : Filled query word edits (i + 1) (j + 1) current) :
    ∃ cell, cellAt query word previousPrevious previous current (i + 1) (j + 1) left =
        some cell ∧ Tells edits cell (table query word (i + 1) (j + 1)) ∧
      cell ≤ edits + 1 + (i + 1) := by
  obtain ⟨above, habove, htold, hadd, -⟩ := hprevious.at (by omega) hj
  obtain ⟨corner, hcorner, htold', hadd', hsmall⟩ := hprevious.at (by omega) (Nat.le_of_lt hj)
  obtain ⟨beside, hbeside, htold'', hsmall'⟩ :=
    hcurrent.tells j (Nat.lt_succ_self j) (Nat.le_of_lt hj)
  have hright : word[j]? = some word[j] := List.getElem?_eq_getElem hj
  have hreplaced : ∃ replaced, differ left word[j] corner = some replaced ∧
      Tells edits replaced
        (table query word i j + if query[i]? = word[j]? then 0 else 1) ∧
      replaced ≤ edits + 1 + (i + 1) := by
    unfold differ
    rw [hleft, hright]
    by_cases hsame : left = word[j]
    · rw [if_pos hsame, if_pos (congrArg some hsame)]
      exact ⟨corner, rfl, htold', by omega⟩
    · rw [if_neg hsame, if_neg fun h => hsame (Option.some.inj h), hadd']
      exact ⟨corner + 1, rfl, htold'.succ, by omega⟩
  obtain ⟨replaced, hdiffer, htold''', hsmall''⟩ := hreplaced
  obtain ⟨cell, hswapped, htells, hle⟩ := swapped_tells (by omega) hleft hright hearlier
    ((htold.succ.min htold''.succ).min htold''')
  refine ⟨cell, ?_, ?_, by omega⟩
  · unfold cellAt
    rw [Nat.add_sub_cancel, habove, hbeside, hcorner, hright]
    simp only [bind, Option.bind_some, hadd, addOne_of_lt (show beside < 255 by omega), hdiffer]
    exact hswapped
  · rw [table_succ]
    exact htells

/-- The band of a row is filled without a read or write outside. -/
theorem fillRow_filled {previous : Row} (hbound : edits + 1 + i < 253)
    (hleft : query[i]? = some left) (hword : word.length < maxWordChars + 3)
    (hprevious : Full query word edits i previous)
    (hearlier : 0 < i → Full query word edits (i - 1) previousPrevious) (count j : ℕ)
    (hcount : j + count ≤ word.length) {current : Row}
    (hcurrent : Filled query word edits (i + 1) (j + 1) current) :
    ∃ row, fillRow query word previousPrevious previous (i + 1) left
        (List.range' (j + 1) count) current = some row ∧
      Filled query word edits (i + 1) (j + 1 + count) row := by
  induction count generalizing j current with
  | zero => exact ⟨current, rfl, hcurrent⟩
  | succ count ih =>
    obtain ⟨cell, hcell, htells, hsmall⟩ :=
      cellAt_tells hbound hleft (j := j) (by omega) hprevious hearlier hcurrent
    have hinside : j + 1 < current.length := by
      rw [hcurrent.length]
      omega
    have hnext : Filled query word edits (i + 1) (j + 1 + 1) (current.set (j + 1) cell) := by
      constructor
      · rw [List.length_set, hcurrent.length]
      · intro k hk hkword
        by_cases hlast : k = j + 1
        · subst hlast
          exact ⟨cell, List.getElem?_set_self hinside, htells, hsmall⟩
        · rw [List.getElem?_set_ne (Ne.symm hlast)]
          exact hcurrent.tells k (by omega) hkword
      · intro k hk hkrow
        rw [List.getElem?_set_ne (by omega)]
        exact hcurrent.rest k (by omega) hkrow
    obtain ⟨row, hrow, hfilled⟩ := ih (j + 1) (by omega) hnext
    refine ⟨row, ?_, ?_⟩
    · rw [List.range'_succ, fillRow]
      simp only [bind, hcell, Option.bind_some, if_pos hinside]
      exact hrow
    · rw [show j + 1 + (count + 1) = j + 1 + 1 + count by omega]
      exact hfilled

/-- Nothing is within the bound so far from the diagonal. -/
theorem tells_far (h : i + edits < j ∨ j + edits < i) :
    Tells edits (edits + 1) (table query word i j) := by
  have hle := le_table query word i j
  unfold Tells
  omega

theorem blank_getElem? {infinity k : ℕ} (hk : k < maxWordChars + 3) :
    (blank infinity)[k]? = some infinity := by
  unfold blank
  rw [List.getElem?_replicate, if_pos hk]

/-- A row before its band is filled: the first column, and nothing left of the band. -/
theorem start_filled (hi : i < 256) (hword : word.length < maxWordChars + 3)
    (hfirst : first = max (i - edits) 1) :
    Filled query word edits i first ((blank (edits + 1)).set 0 (min (i % 256) (edits + 1))) := by
  constructor
  · rw [List.length_set]
    exact List.length_replicate
  · intro k hk hkword
    cases k with
    | zero =>
      refine ⟨min (i % 256) (edits + 1), ?_, ?_, by omega⟩
      · exact List.getElem?_set_self (by rw [blank, List.length_replicate]; exact Nat.succ_pos _)
      · rw [table_column, Nat.mod_eq_of_lt hi]
        unfold Tells
        omega
    | succ k =>
      refine ⟨edits + 1, ?_, tells_far (by omega), by omega⟩
      rw [List.getElem?_set_ne (by omega)]
      exact blank_getElem? (by omega)
  · intro k hk hkrow
    rw [List.getElem?_set_ne (by omega)]
    exact blank_getElem? hkrow

theorem firstRow_full (hword : word.length < maxWordChars + 3) :
    Full query word edits 0 (firstRow edits) := by
  constructor
  · unfold firstRow blank
    rw [List.length_mapIdx, List.length_replicate]
  · intro k hk
    unfold firstRow
    rw [List.getElem?_mapIdx, blank_getElem? (by omega), table_zero]
    refine ⟨_, rfl, ?_, ?_⟩
    · unfold Tells
      dsimp only
      split <;> omega
    · dsimp only
      split <;> omega

/-- A filled band makes a full row. -/
theorem Filled.full (h : Filled query word edits i j row) (hword : word.length < maxWordChars + 3)
    (hlast : i + edits < j ∨ word.length < j) : Full query word edits i row := by
  constructor
  · exact h.length
  · intro k hk
    by_cases hkj : k < j
    · exact h.tells k hkj hk
    · refine ⟨edits + 1, h.rest k (by omega) (by omega), tells_far (by omega), by omega⟩

theorem mem_slice {cells : Row} {k : ℕ} (h : slice row first last = some cells) (hfirst : first ≤ k)
    (hlast : k ≤ last) (hcell : row[k]? = some cell) : cell ∈ cells := by
  unfold slice at h
  split at h
  · obtain rfl := Option.some.inj h
    refine List.mem_of_getElem? (i := k - first) ?_
    rw [List.getElem?_take_of_lt (by omega), List.getElem?_drop, Nat.add_sub_cancel' hfirst]
    exact hcell
  · cases h

theorem of_mem_slice {cells : Row} (h : slice row first last = some cells) (hmem : cell ∈ cells) :
    ∃ k, first ≤ k ∧ k ≤ last ∧ row[k]? = some cell := by
  unfold slice at h
  split at h
  · obtain rfl := Option.some.inj h
    obtain ⟨k, hk⟩ := List.getElem?_of_mem hmem
    rw [List.getElem?_take, List.getElem?_drop] at hk
    split at hk
    · exact ⟨first + k, by omega, by omega, hk⟩
    · cases hk
  · cases h

theorem Tells.lt_iff {distance : ℕ} (h : Tells edits cell distance) :
    edits < cell ↔ edits < distance := by
  unfold Tells at h
  omega

/-- A row with nothing within the bound in its band has nothing within it at all. -/
theorem exceeds_of_band {cells : List ℕ} (hfull : Full query word edits (i + 1) row)
    (hfirst : first = max (i + 1 - edits) 1) (hlast : last = min (i + 1 + edits) word.length)
    (hle : first ≤ last) (hcells : slice row first last = some cells)
    (hall : ∀ cell ∈ cells, edits < cell) (j : ℕ) (hj : j ≤ word.length) :
    edits < table query word (i + 1) j := by
  have hband : ∀ k, first ≤ k → k ≤ last → edits < table query word (i + 1) k := by
    intro k hk hk'
    obtain ⟨cell, hcell, htells, -⟩ := hfull.tells k (by omega)
    exact htells.lt_iff.mp (hall cell (mem_slice hcells hk hk' hcell))
  by_cases hinside : first ≤ j ∧ j ≤ last
  · exact hband j hinside.1 hinside.2
  · by_cases hcolumn : j = 0 ∧ i + 1 ≤ edits
    · -- the first column is not looked at, but its neighbour is no worse
      have hneighbour := hband 1 (by omega) (by omega)
      have hstep : table query word (i + 1) 1 ≤ table query word i 0 + 1 :=
        (table_le_steps query word i 0).2.2
      rw [table_column] at hstep
      omega
    · have hle := le_table query word (i + 1) j
      omega

theorem fillRows_spec (hquery : query.length ≤ maxWordChars) (hedits : edits ≤ 2)
    (hlong : word.length ≤ query.length + edits) (hshort : query.length ≤ word.length + edits)
    (hword : 0 < word.length) (rest : List Char) (i : ℕ) (previousPrevious previous : Row)
    (hrest : query.drop i = rest) (hi : i ≤ query.length)
    (hprevious : Full query word edits i previous)
    (hearlier : 0 < i → Full query word edits (i - 1) previousPrevious) :
    ∃ answer, fillRows query word edits i rest previousPrevious previous = some answer ∧
      (∀ row, answer = some row → Full query word edits query.length row) ∧
      (answer = none → ∀ j ≤ word.length, edits < table query word query.length j) := by
  have hmax : maxWordChars = 64 := rfl
  have hrow : word.length < maxWordChars + 3 := by omega
  induction rest generalizing i previousPrevious previous with
  | nil =>
    obtain rfl : i = query.length := Nat.le_antisymm hi (List.drop_eq_nil_iff.mp hrest)
    refine ⟨some previous, rfl, ?_, fun habs => nomatch habs⟩
    rintro row ⟨⟩
    exact hprevious
  | cons left rest ih =>
    have hlt : i < query.length := by
      rw [← Nat.not_le]
      intro hge
      rw [List.drop_eq_nil_of_le hge] at hrest
      cases hrest
    have hleft : query[i]? = some left := by
      rw [← List.head?_drop, hrest]
      rfl
    have hdrop : query.drop (i + 1) = rest := by
      rw [← List.drop_drop, hrest]
      rfl
    obtain ⟨first, hfirst⟩ : ∃ first, first = max (i + 1 - edits) 1 := ⟨_, rfl⟩
    obtain ⟨last, hlast⟩ : ∃ last, last = min (i + 1 + edits) word.length := ⟨_, rfl⟩
    obtain ⟨count, hcount⟩ : ∃ count, last + 1 - first = count := ⟨_, rfl⟩
    have hle : first ≤ last := by omega
    have hfilling := fillRow_filled (i := i) (by omega) hleft hrow hprevious hearlier count
      (first - 1) (by omega) (by
        rw [Nat.sub_add_cancel (by omega)]
        exact start_filled (by omega) hrow hfirst)
    rw [Nat.sub_add_cancel (by omega)] at hfilling
    obtain ⟨current, hcurrent, hfilled⟩ := hfilling
    have hfull := hfilled.full hrow (by omega)
    obtain ⟨cells, hcells⟩ : ∃ cells, slice current first last = some cells := by
      unfold slice
      rw [if_pos ⟨by omega, by rw [hfull.length]; omega⟩]
      exact ⟨_, rfl⟩
    rw [fillRows, ← hfirst, ← hlast, hcount]
    simp only [bind, hcurrent, Option.bind_some, hcells]
    by_cases hall : (cells.all fun distance => decide (edits < distance)) = true
    · rw [if_pos hall]
      refine ⟨none, rfl, ?_, fun _ j hj => ?_⟩
      · rintro row ⟨⟩
      have hexceeds := row_exceeds query word (exceeds_of_band hfull hfirst hlast hle hcells
        (by simpa using hall)) (query.length - (i + 1)) j hj
      rw [Nat.add_sub_cancel' hlt] at hexceeds
      exact hexceeds
    · rw [if_neg hall]
      exact ih (i + 1) previous current hdrop hlt hfull fun _ => hprevious

def prefixDistances (query word : List Char) : Set ℕ :=
  {n | ∃ start, start <+: word ∧ n = distance query start}

theorem mem_prefixDistances {n : ℕ} :
    n ∈ prefixDistances query word ↔ ∃ j ≤ word.length, n = table query word query.length j := by
  constructor
  · rintro ⟨start, hstart, rfl⟩
    refine ⟨start.length, hstart.length_le, ?_⟩
    rw [← distance_take query word hstart.length_le, ← List.prefix_iff_eq_take.mp hstart]
  · rintro ⟨j, hj, rfl⟩
    exact ⟨word.take j, List.take_prefix j word, (distance_take query word hj).symm⟩

end Rows

/-- A distance within the bound is to a prefix that is neither too short nor cut off. -/
theorem near_prefix {query word : List Char} {edits d width : ℕ}
    (hwidth : width = min word.length (query.length + edits))
    (hd : d ∈ prefixDistances query word) (hle : d ≤ edits) :
    ∃ j, query.length - edits ≤ j ∧ query.length ≤ j + edits ∧ j ≤ width ∧
      d = table query (word.take width) query.length j := by
  obtain ⟨j, hj, rfl⟩ := mem_prefixDistances.mp hd
  have hnear := le_table query word query.length j
  refine ⟨j, by omega, by omega, by omega, ?_⟩
  exact (table_take query word width query.length j (by omega)).symm

/-- The bounded answer is the true distance to the best prefix, where that is within the
bound, and no read or write leaves a row. -/
theorem prefixDistance_is_least (query word : List Char) (edits : ℕ)
    (hquery : 4 ≤ query.length ∧ query.length ≤ maxWordChars) (hword : 3 ≤ word.length)
    (hedits : edits = 1 ∨ edits = 2 ∧ 8 ≤ query.length) :
    ∃ answer, prefixDistance query word edits = some answer ∧
      ∀ d, answer = some d ↔ IsLeast (prefixDistances query word) d ∧ d ≤ edits := by
  have hmax : maxWordChars = 64 := rfl
  obtain ⟨width, hwidth⟩ : ∃ width, width = min word.length (query.length + edits) := ⟨_, rfl⟩
  have hlength : (word.take width).length = width := by
    rw [List.length_take]
    omega
  have hnone : (∀ d ∈ prefixDistances query word, ¬ d ≤ edits) →
      ∀ d, none = some d ↔ IsLeast (prefixDistances query word) d ∧ d ≤ edits := by
    intro hfar d
    constructor
    · exact fun habs => nomatch habs
    · exact fun h => absurd h.2 (hfar d h.1.1)
  unfold prefixDistance
  rw [← hwidth]
  simp only [hlength]
  by_cases hshort : width + edits < query.length
  · rw [if_pos hshort]
    refine ⟨none, rfl, hnone fun d hd hle => ?_⟩
    obtain ⟨j, _, hj, hjwidth, _⟩ := near_prefix hwidth hd hle
    omega
  · rw [if_neg hshort]
    obtain ⟨answer, hrows, hfull, hfar⟩ := @fillRows_spec query (word.take width) edits hquery.2
      (by omega) (by omega) (by omega) (by omega) query 0 (blank (edits + 1)) (firstRow edits) rfl
      (Nat.zero_le _) (firstRow_full (by omega)) fun habs => absurd habs (Nat.lt_irrefl 0)
    simp only [bind, hrows, Option.bind_some]
    cases answer with
    | none =>
      refine ⟨none, rfl, hnone fun d hd hle => ?_⟩
      obtain ⟨j, _, _, hj, rfl⟩ := near_prefix hwidth hd hle
      exact absurd hle (Nat.not_le.mpr (hfar rfl j (by omega)))
    | some row =>
      have hrow := hfull row rfl
      obtain ⟨cells, hcells⟩ : ∃ cells, slice row (query.length - edits) width = some cells := by
        unfold slice
        rw [if_pos ⟨by omega, by rw [hrow.length]; omega⟩]
        exact ⟨_, rfl⟩
      simp only [hcells, Option.bind_some]
      refine ⟨_, rfl, fun d => ?_⟩
      have hmem : ∀ cell ∈ cells, cell ≤ edits → cell ∈ prefixDistances query word := by
        intro cell hcell hle
        obtain ⟨k, _, hk, hat⟩ := of_mem_slice hcells hcell
        obtain ⟨other, hother, htells, _⟩ := hrow.tells k (by omega)
        obtain rfl := Option.some.inj (hat.symm.trans hother)
        refine mem_prefixDistances.mpr ⟨k, by omega, ?_⟩
        rw [← table_take query word width query.length k hk]
        unfold Tells at htells
        omega
      have hin : ∀ n ∈ prefixDistances query word, n ≤ edits → n ∈ cells := by
        intro n hn hle
        obtain ⟨k, hk, _, hkwidth, rfl⟩ := near_prefix hwidth hn hle
        obtain ⟨cell, hcell, htells, _⟩ := hrow.tells k (by omega)
        have hsame : cell = table query (word.take width) query.length k := by
          unfold Tells at htells
          omega
        rw [← hsame]
        exact mem_slice hcells hk hkwidth hcell
      rw [Option.filter_eq_some_iff, List.min?_eq_some_iff, decide_eq_true_eq]
      constructor
      · rintro ⟨⟨hd, hleast⟩, hle⟩
        refine ⟨⟨hmem d hd hle, fun n hn => ?_⟩, hle⟩
        by_cases hn' : n ≤ edits
        · exact hleast n (hin n hn hn')
        · omega
      · rintro ⟨⟨hd, hleast⟩, hle⟩
        refine ⟨⟨hin d hd hle, fun cell hcell => ?_⟩, hle⟩
        by_cases hcell' : cell ≤ edits
        · exact hleast (hmem cell hcell hcell')
        · omega

/-- A swap at the end of an unfinished word. -/
theorem prefixDistance_is_least_swap :
    (∃ answer, prefixDistance "meetign".toList "meetings".toList 1 = some answer ∧
      ∀ d, answer = some d ↔ IsLeast (prefixDistances "meetign".toList "meetings".toList) d ∧
        d ≤ 1) ∧
    prefixDistance "meetign".toList "meetings".toList 1 = some (some 1) :=
  ⟨prefixDistance_is_least _ _ 1 (by decide) (by decide) (by decide), by decide⟩

end CopyPaste.History.FuzzySearch
