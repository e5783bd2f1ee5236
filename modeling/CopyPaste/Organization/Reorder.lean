import CopyPaste.Organization.Pinned
import Mathlib

/-!
The order of the pinned rows. A request names some of them; those come first as they are
named, the others follow as they stood, and all are numbered anew. What was tied or had no
number, and what is named twice or is no pin, has one place afterwards.
-/

namespace CopyPaste.Organization.Reorder

open Lib.Checks Lib.Rows Merge.Comparator Merge.Payload Merge.Storage Merge.Effects Merge.Repin
  Files.Bodies History.Paging Records Restamp Pinned

section Counts

/-- A count that a double holds exactly is read back. -/
theorem magnitude_rounded {value : Nat} (h : value < 2 ^ 53 ∨ 2 ^ (value.log2 - 52) ∣ value) :
    magnitude (rounded value) = value := by
  unfold rounded
  split
  · rename_i hsmall
    unfold magnitude
    split
    · rfl
    · rename_i hlarge
      have hexponent : value / 2 ^ 52 = 1 := by omega
      rw [hexponent]
      omega
  · rename_i hlarge
    obtain ⟨quotient, hquotient⟩ := h.resolve_left hlarge
    have hpos : value ≠ 0 := by omega
    have hlog : 53 ≤ value.log2 := (Nat.le_log2 hpos).2 (Nat.not_lt.1 hlarge)
    obtain ⟨shift, hshift⟩ : ∃ shift, value.log2 = shift + 53 := ⟨value.log2 - 53, by omega⟩
    have hshift' : value.log2 - 52 = shift + 1 := by omega
    rw [hshift'] at hquotient ⊢
    have hdiv : value / 2 ^ (shift + 1) = quotient := by
      rw [hquotient]
      exact Nat.mul_div_cancel_left quotient (Nat.two_pow_pos _)
    have hmod : value % 2 ^ (shift + 1) = 0 := by
      rw [hquotient]
      exact Nat.mul_mod_right _ _
    have hhalf : 0 < 2 ^ (shift + 1 - 1) := Nat.two_pow_pos _
    have hlow : 2 ^ 52 ≤ quotient := by
      have := Nat.log2_self_le hpos
      rw [hshift, show shift + 53 = (shift + 1) + 52 by omega, Nat.pow_add, hquotient] at this
      exact Nat.le_of_mul_le_mul_left this (Nat.two_pow_pos _)
    have hhigh : quotient < 2 ^ 53 := by
      have := @Nat.lt_log2_self value
      rw [hshift, show shift + 53 + 1 = (shift + 1) + 53 by omega, Nat.pow_add] at this
      rw [hquotient] at this
      exact Nat.lt_of_mul_lt_mul_left this
    dsimp only
    rw [hdiv, hmod, if_neg (by omega)]
    have hexponent : ((shift + 1) * 2 ^ 52 + quotient + 0) / 2 ^ 52 = shift + 2 := by omega
    have hfraction : 2 ^ 52 + ((shift + 1) * 2 ^ 52 + quotient + 0) % 2 ^ 52 = quotient := by omega
    unfold magnitude
    rw [if_neg (by omega), hexponent, hfraction, hquotient, Nat.mul_comm]
    rfl

theorem magnitude_mono {a b : Nat} (h : a ≤ b) : magnitude a ≤ magnitude b := by
  unfold magnitude
  split
  · rename_i ha
    split
    · exact h
    · have hpos : 1 ≤ 2 ^ (b / 2 ^ 52 - 1) := Nat.one_le_two_pow
      calc a ≤ (2 ^ 52 + b % 2 ^ 52) * 1 := by omega
        _ ≤ (2 ^ 52 + b % 2 ^ 52) * 2 ^ (b / 2 ^ 52 - 1) := Nat.mul_le_mul_left _ hpos
  · rename_i ha
    rw [if_neg (by omega)]
    rcases Nat.lt_or_ge (a / 2 ^ 52) (b / 2 ^ 52) with hexponent | hexponent
    · calc (2 ^ 52 + a % 2 ^ 52) * 2 ^ (a / 2 ^ 52 - 1)
          ≤ 2 ^ 53 * 2 ^ (a / 2 ^ 52 - 1) := Nat.mul_le_mul_right _ (by omega)
        _ = 2 ^ 52 * 2 ^ (a / 2 ^ 52 - 1 + 1) := by
          rw [Nat.pow_succ]
          omega
        _ ≤ 2 ^ 52 * 2 ^ (b / 2 ^ 52 - 1) :=
          Nat.mul_le_mul_left _ (Nat.pow_le_pow_right (by omega) (by omega))
        _ ≤ (2 ^ 52 + b % 2 ^ 52) * 2 ^ (b / 2 ^ 52 - 1) := Nat.mul_le_mul_right _ (by omega)
    · have hsame : b / 2 ^ 52 = a / 2 ^ 52 := by omega
      rw [hsame]
      exact Nat.mul_le_mul_right _ (by omega)

theorem magnitude_scaled {count shift : Nat} (h : count ≤ 2 ^ 53) (hshift : 52 ≤ shift) :
    magnitude (rounded (count * 2 ^ shift)) = count * 2 ^ shift := by
  rcases Nat.eq_zero_or_pos count with rfl | hpos
  · exact magnitude_rounded (Or.inl (by simp))
  · refine magnitude_rounded (Or.inr ?_)
    have hscaled : 0 < count * 2 ^ shift := Nat.mul_pos hpos (Nat.two_pow_pos shift)
    have hlog : (count * 2 ^ shift).log2 = count.log2 + shift := by
      rw [Nat.log2_eq_iff (by omega)]
      obtain ⟨hlow, hhigh⟩ := (Nat.log2_eq_iff (by omega)).1 (Eq.refl count.log2)
      constructor
      · rw [Nat.pow_add]
        exact Nat.mul_le_mul_right _ hlow
      · rw [show count.log2 + shift + 1 = count.log2 + 1 + shift by omega, Nat.pow_add]
        exact Nat.mul_lt_mul_of_pos_right hhigh (Nat.two_pow_pos _)
    rw [hlog]
    have hbound : count.log2 < 54 := by
      rw [Nat.log2_lt (by omega)]
      omega
    rcases Nat.lt_or_ge count.log2 53 with hsmall | hlarge
    · exact Nat.dvd_trans (Nat.pow_dvd_pow 2 (by omega)) (Nat.dvd_mul_left _ count)
    · have hcount : count = 2 ^ 53 := by
        have := Nat.log2_self_le (n := count) (by omega)
        rw [show count.log2 = 53 by omega] at this
        omega
      rw [show count.log2 = 53 by omega, hcount, ← Nat.pow_add]
      exact Nat.pow_dvd_pow 2 (by omega)

theorem magnitude_count {count : Nat} (h : count ≤ 2 ^ 53) :
    magnitude (rounded (count * one)) = count * one :=
  @magnitude_scaled count 1074 h (by omega)

theorem asDouble_lt {a b : Nat} (h : a < b) (hb : b ≤ 2 ^ 53) : asDouble a < asDouble b := by
  unfold asDouble
  rw [Int.ofNat_lt, ← Nat.not_le]
  intro hle
  have := magnitude_mono hle
  rw [magnitude_count hb, magnitude_count (by omega)] at this
  have hone : 0 < one := by
    unfold one
    exact Nat.pow_pos (by omega)
  exact absurd (Nat.le_of_mul_le_mul_right this hone) (by omega)

theorem plusOne_asDouble {count : Nat} (h : count ≤ 2 ^ 53) :
    plusOne (asDouble count) = asDouble (count + 1) := by
  show plusOne (Int.ofNat (rounded (count * one))) = _
  simp only [plusOne, magnitude_count h, asDouble]
  rw [Nat.succ_mul]

end Counts

section Places

variable {current : List ItemRow}

/-- What a request names: ids that are pinned, each at its first place. -/
private theorem map_id_foldl_named (ids : List String) (ordered : List ItemRow) :
    (ids.foldl (fun ordered id =>
      match lookup ItemRow.id current id with
      | none => ordered
      | some row =>
        if ordered.any fun placed => placed.id = row.id then ordered else ordered ++ [row])
      ordered).map ItemRow.id =
    ordered.map ItemRow.id ++ ((ids.filter fun id => (lookup ItemRow.id current id).isSome).filter
      fun id => id ∉ ordered.map ItemRow.id).eraseDups := by
  induction ids generalizing ordered with
  | nil => simp
  | cons id rest ih =>
    rw [List.foldl_cons]
    cases hlookup : lookup ItemRow.id current id with
    | none => simpa [hlookup] using ih ordered
    | some row =>
      obtain rfl := (lookup_eq_some hlookup).2
      dsimp only
      split
      · rename_i hplaced
        obtain ⟨placed, hmem, hid⟩ := List.any_eq_true.1 hplaced
        have hin : row.id ∈ ordered.map ItemRow.id :=
          List.mem_map.2 ⟨placed, hmem, of_decide_eq_true hid⟩
        rw [ih ordered, List.filter_cons_of_pos (by rw [hlookup]; rfl),
          List.filter_cons_of_neg (by simpa using hin)]
      · rename_i hnew
        have hout : row.id ∉ ordered.map ItemRow.id := by
          intro hin
          obtain ⟨placed, hmem, hid⟩ := List.mem_map.1 hin
          exact hnew (List.any_eq_true.2 ⟨placed, hmem, decide_eq_true hid⟩)
        rw [ih (ordered ++ [row]), List.filter_cons_of_pos (by rw [hlookup]; rfl),
          List.filter_cons_of_pos (by simpa using hout), List.eraseDups_cons, List.filter_filter,
          List.map_append, List.append_assoc]
        congr 1
        simp only [List.map_cons, List.map_nil, List.singleton_append, List.cons.injEq, true_and]
        congr 1
        simp only [List.filter_filter]
        refine List.filter_congr fun other _ => ?_
        rw [Bool.eq_iff_iff]
        simp only [List.mem_append, List.mem_singleton, not_or, Bool.and_eq_true,
          decide_eq_true_eq, Bool.not_eq_true', beq_eq_false_iff_ne, ne_eq]
        tauto

theorem map_id_named (ids : List String) : (named current ids).map ItemRow.id =
    (ids.filter fun id => (lookup ItemRow.id current id).isSome).eraseDups := by
  refine (map_id_foldl_named ids []).trans ?_
  simp

theorem map_id_placed (ids : List String) : (placed current ids).map ItemRow.id =
    (ids.filter fun id => (lookup ItemRow.id current id).isSome).eraseDups ++
      (current.map ItemRow.id).filter fun id => id ∉ ids := by
  unfold placed
  rw [List.map_append, map_id_named, List.filter_map]
  congr 2
  refine List.filter_congr fun row hrow => ?_
  have hfound : (lookup ItemRow.id current row.id).isSome = true := by
    rw [Option.isSome_iff_ne_none, ne_eq, lookup_eq_none_iff]
    exact fun hnone => hnone row hrow rfl
  have hnamed : (named current ids).any (fun placed => decide (placed.id = row.id)) = true ↔
      row.id ∈ ids := by
    have hmem : row.id ∈ (named current ids).map ItemRow.id ↔ row.id ∈ ids := by
      rw [map_id_named, List.mem_eraseDups, List.mem_filter]
      exact and_iff_left hfound
    simpa [List.any_eq_true] using hmem
  rw [Bool.eq_iff_iff, Bool.not_eq_true', ← Bool.not_eq_true, hnamed]
  simp

theorem perm_placed (hnodup : (current.map ItemRow.id).Nodup) (ids : List String) :
    (placed current ids).Perm current := by
  have hplaced : (placed current ids).Nodup := (nodup_placed hnodup ids).of_map ItemRow.id
  refine (List.perm_ext_iff_of_nodup hplaced (hnodup.of_map ItemRow.id)).2 fun row => ?_
  refine ⟨mem_placed, fun hrow => ?_⟩
  unfold placed
  rw [List.mem_append, List.mem_filter]
  by_cases hnamed : (named current ids).any (fun placed => decide (placed.id = row.id)) = true
  · obtain ⟨other, hother, hid⟩ := List.any_eq_true.1 hnamed
    obtain rfl := List.inj_on_of_nodup_map hnodup (mem_named hother) hrow (of_decide_eq_true hid)
    exact Or.inl hother
  · exact Or.inr ⟨hrow, by simpa using hnamed⟩

end Places

section Numbers

variable {clock : Clock}

variable {rows : List ItemRow}

/-- A row as it is numbered. -/
theorem mem_inOrder_iff {index : Nat} {given : ItemRow} (h : given ∈ inOrder clock index rows) :
    ∃ row ∈ rows, ∃ count, index < count ∧
      count ≤ index + rows.length ∧ given = { row with
        pinOrder := some (asDouble count)
        pinUpdatedAt := nextPinStamp clock row } := by
  induction rows generalizing index with
  | nil => cases h
  | cons row rest ih =>
    rcases List.mem_cons.1 h with rfl | hrest
    · exact ⟨row, List.mem_cons_self, index + 1, by omega, by simp, rfl⟩
    · obtain ⟨other, hother, count, hlow, hhigh, hgiven⟩ := ih hrest
      refine ⟨other, List.mem_cons_of_mem _ hother, count, by omega, ?_, hgiven⟩
      rw [List.length_cons]
      omega

theorem map_pinOrder_inOrder (index : Nat) (rows : List ItemRow) :
    (inOrder clock index rows).map ItemRow.pinOrder =
      (List.range' (index + 1) rows.length).map fun count => some (asDouble count) := by
  induction rows generalizing index with
  | nil => rfl
  | cons row rest ih =>
    rw [inOrder, List.map_cons, ih, List.length_cons, List.range'_succ, List.map_cons]

theorem pinnedOrder_lt {row other : ItemRow} {a b : Nat} (hrow : row.pinOrder = some (asDouble a))
    (hother : other.pinOrder = some (asDouble b)) (h : a < b) (hb : b ≤ 2 ^ 53) :
    pinnedOrder row < pinnedOrder other := by
  unfold pinnedOrder
  rw [Prod.Lex.toLex_lt_toLex]
  left
  rw [hrow, hother]
  exact WithBot.coe_lt_coe.2 (asDouble_lt h hb)

/-- Rows that are numbered are in their order. -/
theorem sorted_inOrder {index : Nat} (h : index + rows.length ≤ 2 ^ 53) :
    (inOrder clock index rows).Pairwise fun a b => pinnedOrder a < pinnedOrder b := by
  induction rows generalizing index with
  | nil => exact List.Pairwise.nil
  | cons row rest ih =>
    rw [List.length_cons] at h
    refine List.Pairwise.cons ?_ (ih (by omega))
    intro given hgiven
    obtain ⟨other, -, count, hlow, hhigh, rfl⟩ := mem_inOrder_iff hgiven
    exact pinnedOrder_lt rfl rfl hlow (by omega)

/-- The rows of a list are found in their order in a list of the same ids. -/
theorem map_lookup_same {given : List ItemRow} (hids : given.map ItemRow.id = rows.map ItemRow.id)
    (hnodup : (given.map ItemRow.id).Nodup) :
    rows.map (fun row => (lookup ItemRow.id given row.id).getD row) = given := by
  have hlength : given.length = rows.length := by simpa using congrArg List.length hids
  refine List.ext_getElem (by simp [hlength]) fun i hrow hgiven => ?_
  have hbound : i < rows.length := by simpa using hrow
  have hid : given[i].id = rows[i].id := by
    have := List.getElem_of_eq hids (by simpa using hgiven)
    simpa using this
  rw [List.getElem_map, ← hid, lookup_of_mem hnodup (List.getElem_mem hgiven)]
  rfl

/-- Rows sorted already are what the query answers with. -/
theorem orderBy_eq {sorted : List ItemRow} (hperm : sorted.Perm rows)
    (hsorted : sorted.Pairwise fun a b => pinnedOrder a < pinnedOrder b) :
    orderBy pinnedOrder rows = sorted := by
  have hsame : (orderBy pinnedOrder rows).Perm sorted :=
    (List.perm_insertionSort _ rows).trans hperm.symm
  refine List.Perm.eq_of_pairwise ?_ (List.pairwise_insertionSort _ _) (hsorted.imp le_of_lt) hsame
  intro a b ha hb hab hba
  have hapart : (sorted.map pinnedOrder).Nodup := List.pairwise_map.2 (hsorted.imp ne_of_lt)
  exact List.inj_on_of_nodup_map hapart (hsame.subset ha) hb (le_antisymm hab hba)

end Numbers

section Rows

variable {clock : Clock} {store : Store}

/-- The pinned rows are numbered, and the others are left. -/
theorem restamp_reorder (hnodup : (store.items.map ItemRow.id).Nodup) (ids : List String)
    {row : ItemRow} (hrow : row ∈ store.items) :
    livePinned row = false ∧ (Gesture.reorder ids).restamp clock store row = row ∨
      livePinned row = true ∧ ∃ count, 0 < count ∧
        count ≤ (placed (currentPins store) ids).length ∧
        (Gesture.reorder ids).restamp clock store row = { row with
          pinOrder := some (asDouble count)
          pinUpdatedAt := nextPinStamp clock row } := by
  cases hlive : livePinned row with
  | false =>
    refine Or.inl ⟨rfl, Gesture.restamp_of_not_target ?_⟩
    intro target htarget hid
    obtain ⟨hmem, hpinned⟩ := mem_currentPins.1 (mem_placed htarget)
    obtain rfl := List.inj_on_of_nodup_map hnodup hmem hrow hid
    simp [hlive] at hpinned
  | true =>
    refine Or.inr ⟨rfl, ?_⟩
    have hplaced : row ∈ placed (currentPins store) ids :=
      (perm_placed (nodup_currentPins hnodup) ids).symm.subset
        (mem_currentPins.2 ⟨hrow, hlive⟩)
    have hfound : row.id ∈ ((Gesture.reorder ids).given clock store).map ItemRow.id := by
      show row.id ∈ (inOrder clock 0 _).map ItemRow.id
      rw [map_id_inOrder]
      exact List.mem_map_of_mem hplaced
    obtain ⟨given, hgiven, hid⟩ := List.mem_map.1 hfound
    have hrestamp : (Gesture.reorder ids).restamp clock store row = given := by
      unfold Gesture.restamp
      rw [← hid, lookup_of_mem ((Gesture.reorder ids).nodup_given hnodup) hgiven]
      rfl
    obtain ⟨other, hother, count, hlow, hhigh, rfl⟩ := mem_inOrder_iff hgiven
    obtain rfl := List.inj_on_of_nodup_map hnodup (mem_currentPins.1 (mem_placed hother)).1
      hrow hid
    exact ⟨count, hlow, by omega, hrestamp⟩

theorem reordered_eq (hnodup : (store.items.map ItemRow.id).Nodup) (ids : List String) :
    reordered clock store ids =
      mapItems store ((Gesture.reorder ids).restamp clock store) :=
  renumber_eq hnodup (nodup_placed (nodup_currentPins hnodup) ids)
    fun _ hrow => mem_currentPins.1 (mem_placed hrow)

/-- After the request the pinned rows stand as they were placed. -/
theorem currentPins_reordered (hnodup : (store.items.map ItemRow.id).Nodup) (ids : List String)
    (hfits : (currentPins store).length ≤ 2 ^ 53) :
    currentPins (reordered clock store ids) =
      inOrder clock 0 (placed (currentPins store) ids) := by
  have hplaced := perm_placed (nodup_currentPins hnodup) ids
  rw [reordered_eq hnodup]
  show orderBy pinnedOrder ((mapItems store _).items.filter livePinned) = _
  refine orderBy_eq ?_ (sorted_inOrder (by rw [Nat.zero_add, hplaced.length_eq]; exact hfits))
  have hsame : inOrder clock 0 (placed (currentPins store) ids) =
      (placed (currentPins store) ids).map ((Gesture.reorder ids).restamp clock store) :=
    (map_lookup_same (map_id_inOrder 0 _)
      ((Gesture.reorder ids).nodup_given hnodup)).symm
  have hfilter : (mapItems store ((Gesture.reorder ids).restamp clock store)).items.filter
      livePinned = (store.items.filter livePinned).map
        ((Gesture.reorder ids).restamp clock store) := by
    show (store.items.map _).filter livePinned = _
    rw [List.filter_map]
    congr 1
    refine List.filter_congr fun row hrow => ?_
    rcases restamp_reorder hnodup ids hrow with ⟨-, hkept⟩ | ⟨-, count, -, -, hnumbered⟩
    · rw [Function.comp_apply, hkept]
    · rw [Function.comp_apply, hnumbered]
      rfl
  rw [hfilter]
  show (inOrder clock 0 (placed (currentPins store) ids)).Perm _
  rw [hsame]
  exact (hplaced.trans (List.perm_insertionSort _ _)).map _

end Rows

section Stamps

variable {sys : Organizer} {clock : Clock} {store after : Store}

/-- Rows as they were, but for later stamps of the pinned ones. -/
def Later (store after : Store) : Prop :=
  ∃ f : ItemRow → ItemRow, after.items = store.items.map f ∧ ∀ row ∈ store.items,
    f row = row ∨ livePinned row = true ∧
      ∃ stamp, row.pinUpdatedAt ≤ stamp ∧ f row = { row with pinUpdatedAt := stamp }

theorem Later.refl (store : Store) : Later store store :=
  ⟨id, by simp, fun _ _ => Or.inl rfl⟩

theorem Later.trans {third : Store} (h : Later store after) (h' : Later after third) :
    Later store third := by
  obtain ⟨f, hitems, hf⟩ := h
  obtain ⟨g, hitems', hg⟩ := h'
  refine ⟨g ∘ f, by rw [hitems', hitems, List.map_map], fun row hrow => ?_⟩
  have hmem : f row ∈ after.items := hitems ▸ List.mem_map_of_mem hrow
  rw [Function.comp_apply]
  rcases hf row hrow with hsame | ⟨hlive, stamp, hle, hstamp⟩
  · have hagain := hg (f row) hmem
    rw [hsame] at hagain ⊢
    exact hagain
  · right
    refine ⟨hlive, ?_⟩
    rcases hg (f row) hmem with hsame | ⟨-, later, hlater, hstamp'⟩
    · exact ⟨stamp, hle, hsame.trans hstamp⟩
    · rw [hstamp']
      rw [hstamp] at hlater ⊢
      exact ⟨later, hle.trans hlater, rfl⟩

/-- A stamp moves no row. -/
theorem Later.currentPins (h : Later store after) :
    (currentPins after).map ItemRow.id = (currentPins store).map ItemRow.id ∧
      (Records.currentPins after).map ItemRow.pinOrder =
        (Records.currentPins store).map ItemRow.pinOrder := by
  obtain ⟨f, hitems, hf⟩ := h
  have hfields : ∀ row ∈ store.items, (f row).id = row.id ∧ (f row).pinOrder = row.pinOrder ∧
      pinnedOrder (f row) = pinnedOrder row ∧ livePinned (f row) = livePinned row := by
    intro row hrow
    rcases hf row hrow with hsame | ⟨-, stamp, -, hstamp⟩
    · rw [hsame]
      exact ⟨rfl, rfl, rfl, rfl⟩
    · rw [hstamp]
      exact ⟨rfl, rfl, rfl, rfl⟩
  have hcurrent : Records.currentPins after = (Records.currentPins store).map f := by
    have hsort := List.map_insertionSort (r := fun a b => pinnedOrder a ≤ pinnedOrder b)
      (s := fun a b => pinnedOrder a ≤ pinnedOrder b) f (store.items.filter livePinned)
      (fun a ha b hb => by
        rw [(hfields a (List.mem_filter.1 ha).1).2.2.1, (hfields b (List.mem_filter.1 hb).1).2.2.1])
    unfold Records.currentPins orderBy
    rw [hsort, hitems, List.filter_map]
    congr 2
    exact List.filter_congr fun row hrow => (hfields row hrow).2.2.2
  rw [hcurrent, List.map_map, List.map_map]
  constructor
  · exact List.map_congr_left fun row hrow => (hfields row (mem_currentPins.1 hrow).1).1
  · exact List.map_congr_left fun row hrow => (hfields row (mem_currentPins.1 hrow).1).2.1

theorem Later.nodup (h : Later store after) (hnodup : (store.items.map ItemRow.id).Nodup) :
    (after.items.map ItemRow.id).Nodup := by
  obtain ⟨f, hitems, hf⟩ := h
  have hids : after.items.map ItemRow.id = store.items.map ItemRow.id := by
    rw [hitems, List.map_map]
    refine List.map_congr_left fun row hrow => ?_
    rcases hf row hrow with hsame | ⟨-, stamp, -, hstamp⟩
    · rw [Function.comp_apply, hsame]
    · rw [Function.comp_apply, hstamp]
  rw [hids]
  exact hnodup

/-- The numbers up to a bound are read back from the JSON as they were written. -/
def ReadsBack (sys : Organizer) (bound : Nat) : Prop :=
  ∀ clipId count, 0 < count → count ≤ bound →
    (Record.pin clipId true (some (asDouble count))).valid = true →
      sys.host.parseRecord (sys.render (.pin clipId true (some (asDouble count)))) =
        some (.pin clipId true (some (asDouble count)))

/-- A pinned row with a number. -/
def Numbered (bound : Nat) (row : ItemRow) : Prop :=
  row.deleted = false ∧ row.pinned = true ∧
    ∃ count, 0 < count ∧ count ≤ bound ∧ row.pinOrder = some (asDouble count)

theorem writePin_later (hlaws : Laws sys) {bound : Nat} (hreads : ReadsBack sys bound)
    (hnodup : (store.items.map ItemRow.id).Nodup) {row : ItemRow} (hrow : row ∈ store.items)
    (hnumbered : Numbered bound row) (hwrite : writePin sys clock store row.id = .ok after) :
    Later store after := by
  obtain ⟨hlive, hpinned, count, hpos, hbound, horder⟩ := hnumbered
  have hlookup : lookup ItemRow.id store.items row.id = some row := lookup_of_mem hnodup hrow
  have hfound : liveRow store row.id = some row := by
    unfold liveRow
    rw [hlookup, Option.filter_some, if_pos (by simpa using hlive)]
  unfold writePin at hwrite
  rw [hfound] at hwrite
  have hvalid : (Record.pin row.id row.pinned row.pinOrder).valid = true := by
    by_contra hinvalid
    unfold write at hwrite
    dsimp only at hwrite
    rw [if_pos (by simpa using hinvalid)] at hwrite
    cases hwrite
  rcases write_pin_cases hlaws hwrite with ⟨rfl, -⟩ | ⟨-, heard, incoming, hwrites, rfl, hparse⟩
  · exact Later.refl _
  · rw [hpinned, horder] at hparse hvalid
    rw [hreads row.id count hpos hbound hvalid, Option.some.injEq] at hparse
    obtain ⟨-, -, rfl⟩ := Record.pin.inj hparse
    have hstamp := hwrites.stamp
    rw [hlookup] at hstamp
    rw [recorded_pin, hpinned]
    refine ⟨_, rfl, fun other hother => ?_⟩
    unfold pinOnto
    split
    · rename_i hid
      obtain rfl := List.inj_on_of_nodup_map hnodup hother hrow hid
      right
      refine ⟨by simp [livePinned, hlive, hpinned], incoming.createdAt, hstamp, ?_⟩
      unfold PinState.onto
      rw [if_pos ⟨by simpa using hlive, hstamp⟩]
      simp [← hpinned, ← horder]
    · exact Or.inl rfl

theorem writePins_later (hlaws : Laws sys) {bound : Nat} (hreads : ReadsBack sys bound)
    {rows : List ItemRow} (hnodup : (store.items.map ItemRow.id).Nodup)
    (hrows : ∀ target ∈ rows, ∃ row ∈ store.items, row.id = target.id ∧ Numbered bound row)
    (hwrite : writePins sys clock store rows = .ok after) : Later store after := by
  induction rows generalizing store with
  | nil =>
    obtain rfl := Except.ok.inj hwrite
    exact Later.refl _
  | cons target rest ih =>
    unfold writePins at hwrite
    obtain ⟨next, hone, hwrite⟩ := bind_ok_iff.1 hwrite
    obtain ⟨row, hrow, hid, hnumbered⟩ := hrows target List.mem_cons_self
    have hlater := writePin_later hlaws hreads hnodup hrow hnumbered (hid ▸ hone)
    refine hlater.trans (ih (hlater.nodup hnodup) ?_ hwrite)
    intro other hother
    obtain ⟨held, hheld, hown, hheldNumbered⟩ := hrows other (List.mem_cons_of_mem _ hother)
    obtain ⟨f, hitems, hf⟩ := hlater
    refine ⟨f held, hitems ▸ List.mem_map_of_mem hheld, ?_⟩
    rcases hf held hheld with hsame | ⟨-, stamp, -, hstamp⟩
    · rw [hsame]
      exact ⟨hown, hheldNumbered⟩
    · rw [hstamp]
      exact ⟨hown, hheldNumbered⟩

end Stamps

section Gestures

/-- A database file has no more bytes, and so no more rows. -/
def maxRows : Nat := 2 ^ 48

/-- Pin or unpin a live row; with an item key its record is written. -/
def setPinnedInner (key : Option Organizer) (clock : Clock) (store : Store) (id : String)
    (pinned : Bool) : Except QueryError (Store × Bool) := do
  match liveRow store id with
  | none => return (store, false)
  | some row =>
    let store := withPin clock store row pinned
    let store ← match key with
      | none => pure store
      | some sys => writePin sys clock store id
    return (store, true)

/-- Put the pinned rows in an order; with an item key all their records are written. -/
def reorderPinnedInner (key : Option Organizer) (clock : Clock) (store : Store)
    (ids : List String) : Except QueryError (Store × Nat) := do
  let ordered := placed (currentPins store) ids
  let store := reordered clock store ids
  let store ← match key with
    | none => pure store
    | some sys => writePins sys clock store ordered
  return (store, ordered.length)

variable {key : Option Organizer} {clock : Clock} {store after : Store}

variable {row : ItemRow} {ids : List String}

theorem numbered_reordered (hnodup : (store.items.map ItemRow.id).Nodup) (ids : List String)
    (hrow : row ∈ (reordered clock store ids).items) (hlive : livePinned row = true) :
    Numbered store.items.length row := by
  rw [reordered_eq hnodup] at hrow
  obtain ⟨old, hold, rfl⟩ := List.mem_map.1 hrow
  have hlength : (placed (currentPins store) ids).length ≤ store.items.length := by
    rw [(perm_placed (nodup_currentPins hnodup) ids).length_eq]
    unfold currentPins orderBy
    rw [List.length_insertionSort]
    exact List.length_filter_le _ _
  rcases restamp_reorder hnodup ids hold with ⟨hother, hkept⟩ | ⟨hpinned, count, hpos, hle, heq⟩
  · rw [hkept, hother] at hlive
    cases hlive
  · rw [heq]
    simp only [livePinned, Bool.and_eq_true, Bool.not_eq_true'] at hpinned
    exact ⟨hpinned.1, hpinned.2, count, hpos, hle.trans hlength, rfl⟩

/-- What the request does to the rows, with or without the records. -/
theorem reorder_later (hkey : ∀ sys ∈ key, Laws sys ∧ ReadsBack sys store.items.length)
    (hnodup : (store.items.map ItemRow.id).Nodup) {count : Nat}
    (hrun : reorderPinnedInner key clock store ids = .ok (after, count)) :
    Later (reordered clock store ids) after := by
  cases key with
  | none =>
    obtain ⟨rfl, -⟩ := Prod.mk.inj (Except.ok.inj hrun)
    exact Later.refl _
  | some sys =>
    obtain ⟨hlaws, hreads⟩ := hkey sys rfl
    obtain ⟨written, hwrite, hrun⟩ := bind_ok_iff.1 hrun
    simp only [pure, Except.pure, Except.ok.injEq,
      Prod.mk.injEq] at hrun
    obtain ⟨rfl, -⟩ := hrun
    refine writePins_later hlaws hreads ?_ ?_ hwrite
    · rw [reordered_eq hnodup]
      exact ((Gesture.reorder ids).map_id_restamp hnodup).symm ▸ hnodup
    · intro target htarget
      obtain ⟨hmem, hpinned⟩ := mem_currentPins.1 (mem_placed htarget)
      have hmoved : (Gesture.reorder ids).restamp clock store target ∈
          (reordered clock store ids).items := by
        rw [reordered_eq hnodup]
        exact List.mem_map_of_mem hmem
      refine ⟨_, hmoved, (Gesture.reorder ids).restamp_id hnodup hmem,
        numbered_reordered hnodup ids hmoved ?_⟩
      rcases restamp_reorder hnodup ids hmem with ⟨hother, -⟩ | ⟨-, count, -, -, heq⟩
      · simp [hpinned] at hother
      · rw [heq]
        exact hpinned

/-- The orders of pinned rows that are numbered from one upward. -/
def InTurn (store : Store) (count : Nat) : Prop :=
  (currentPins store).map ItemRow.pinOrder =
    (List.range' 1 count).map fun number => some (asDouble number)

theorem mem_orders (h : InTurn store count) {order : PinOrder} :
    order ∈ (store.items.filter livePinned).filterMap ItemRow.pinOrder ↔
      ∃ number, 0 < number ∧ number ≤ count ∧ order = asDouble number := by
  have hsorted : order ∈ (store.items.filter livePinned).filterMap ItemRow.pinOrder ↔
      some order ∈ (currentPins store).map ItemRow.pinOrder := by
    simp only [List.mem_filterMap, List.mem_map, mem_currentPins, List.mem_filter]
  rw [hsorted, h]
  simp only [List.mem_map, List.mem_range'_1, Option.some.injEq]
  constructor
  · rintro ⟨number, ⟨hlow, hhigh⟩, rfl⟩
    exact ⟨number, by omega, by omega, rfl⟩
  · rintro ⟨number, hlow, hhigh, rfl⟩
    exact ⟨number, ⟨by omega, by omega⟩, rfl⟩

/-- The next number follows. -/
theorem lastOrder_eq {count : Nat} (h : InTurn store count) (hcount : count ≤ 2 ^ 53) :
    lastOrder store = asDouble (count + 1) := by
  unfold lastOrder
  rw [← plusOne_asDouble hcount]
  congr 1
  cases count with
  | zero =>
    have hnone : (store.items.filter livePinned).filterMap ItemRow.pinOrder = [] := by
      rw [List.eq_nil_iff_forall_not_mem]
      intro order horder
      obtain ⟨number, hlow, hhigh, -⟩ := (mem_orders h).1 horder
      omega
    rw [hnone]
    rfl
  | succ last =>
    have hmax : ((store.items.filter livePinned).filterMap ItemRow.pinOrder).max? =
        some (asDouble (last + 1)) := by
      rw [List.max?_eq_some_iff]
      refine ⟨(mem_orders h).2 ⟨last + 1, by omega, le_rfl, rfl⟩, ?_⟩
      intro order horder
      obtain ⟨number, hlow, hhigh, rfl⟩ := (mem_orders h).1 horder
      rcases Nat.lt_or_ge number (last + 1) with hless | hmore
      · exact (asDouble_lt hless hcount).le
      · rw [show number = last + 1 by omega]
    rw [hmax]
    rfl

theorem items_withPin (hnodup : (store.items.map ItemRow.id).Nodup) {row : ItemRow}
    (hrow : row ∈ store.items) (hlive : row.deleted = false) (hunpinned : row.pinned = false) :
    (withPin clock store row true).items = store.items.map fun other =>
      if other.id = row.id then { row with
        pinned := true
        pinUpdatedAt := nextPinStamp clock row
        pinOrder := some (lastOrder store) }
      else other := by
  unfold withPin repin
  rw [if_pos rfl]
  refine List.map_congr_left fun other hother => ?_
  by_cases hid : other.id = row.id
  · obtain rfl := List.inj_on_of_nodup_map hnodup hother hrow hid
    simp [hlive, hunpinned]
  · simp [hid]

/-- A further pin comes after those that are numbered. -/
theorem currentPins_withPin {count : Nat} (hnodup : (store.items.map ItemRow.id).Nodup)
    (h : InTurn store count) (hcount : count < 2 ^ 53) {row : ItemRow} (hrow : row ∈ store.items)
    (hlive : row.deleted = false) (hunpinned : row.pinned = false) :
    currentPins (withPin clock store row true) = currentPins store ++ [{ row with
      pinned := true
      pinUpdatedAt := nextPinStamp clock row
      pinOrder := some (asDouble (count + 1)) }] := by
  have hcurrent := nodup_currentPins hnodup
  have hfree : row.id ∉ (currentPins store).map ItemRow.id := by
    intro hmem
    obtain ⟨other, hother, hid⟩ := List.mem_map.1 hmem
    obtain ⟨hheld, hpinned⟩ := mem_currentPins.1 hother
    obtain rfl := List.inj_on_of_nodup_map hnodup hheld hrow hid
    simp [livePinned, hunpinned] at hpinned
  have hitems := @items_withPin clock store hnodup row hrow hlive hunpinned
  rw [lastOrder_eq h hcount.le] at hitems
  generalize hgiven : ({ row with
    pinned := true
    pinUpdatedAt := nextPinStamp clock row
    pinOrder := some (asDouble (count + 1)) } : ItemRow) = given at hitems ⊢
  have hid : given.id = row.id := hgiven ▸ rfl
  have horder : given.pinOrder = some (asDouble (count + 1)) := hgiven ▸ rfl
  have hpinned : livePinned given = true := by
    rw [← hgiven]
    simp [livePinned, hlive]
  show orderBy pinnedOrder ((withPin clock store row true).items.filter livePinned) = _
  rw [hitems]
  refine orderBy_eq ?_ ?_
  · have hleft : (currentPins store ++ [given]).Nodup := by
      refine List.Nodup.of_map ItemRow.id ?_
      rw [List.map_append, List.nodup_append]
      refine ⟨hcurrent, List.nodup_singleton _, ?_⟩
      intro a ha b hb heq
      obtain rfl : b = given.id := by simpa using hb
      exact hfree (hid ▸ heq ▸ ha)
    have hids : ((store.items.map fun other => if other.id = row.id then given else other).map
        ItemRow.id).Nodup := by
      refine nodup_map _ (fun other => ?_) _ hnodup
      split
      · rename_i hsame
        rw [hid, hsame]
      · rfl
    have hright : ((store.items.map fun other => if other.id = row.id then given else other).filter
        livePinned).Nodup := (hids.of_map ItemRow.id).filter _
    refine (List.perm_ext_iff_of_nodup hleft hright).2 fun other => ?_
    rw [List.mem_append, List.mem_singleton, List.mem_filter, List.mem_map, mem_currentPins]
    constructor
    · rintro (⟨hmem, hother⟩ | rfl)
      · refine ⟨⟨other, hmem, if_neg fun hsame => hfree ?_⟩, hother⟩
        exact hsame ▸ List.mem_map_of_mem (mem_currentPins.2 ⟨hmem, hother⟩)
      · exact ⟨⟨row, hrow, if_pos rfl⟩, hpinned⟩
    · rintro ⟨⟨old, hold, rfl⟩, hother⟩
      split at hother
      · exact Or.inr (if_pos ‹_›)
      · rename_i hne
        rw [if_neg hne]
        exact Or.inl ⟨hold, hother⟩
  · rw [List.pairwise_append]
    refine ⟨orderBy_sorted (fun _ _ => pinnedOrder_id) (hnodup.sublist
      (List.filter_sublist.map _)), List.pairwise_singleton _ _, ?_⟩
    intro other hother last hlast
    obtain rfl := List.mem_singleton.1 hlast
    have hnumber := h ▸ List.mem_map_of_mem (f := ItemRow.pinOrder) hother
    obtain ⟨number, hnumber, heq⟩ := List.mem_map.1 hnumber
    rw [List.mem_range'_1] at hnumber
    exact pinnedOrder_lt heq.symm horder (by omega) (by omega)

theorem isPinned_iff (store : Store) (id : String) :
    isPinned store id = (lookup ItemRow.id (currentPins store) id).isSome := by
  rw [Bool.eq_iff_iff, Option.isSome_iff_ne_none, ne_eq, lookup_eq_none_iff]
  simp only [isPinned, List.any_eq_true, Bool.and_eq_true, decide_eq_true_eq, mem_currentPins]
  constructor
  · rintro ⟨row, hrow, hid, hpinned⟩ hnone
    exact hnone row ⟨hrow, hpinned⟩ hid
  · intro hnone
    by_contra hother
    exact hnone fun row hrow hid => hother ⟨row, hrow.1, hid, hrow.2⟩

theorem nextPinStamp_gt (row : ItemRow) (h : row.pinUpdatedAt < 2 ^ 63 - 1) :
    row.pinUpdatedAt < nextPinStamp clock row := by
  unfold nextPinStamp saturatingSucc
  omega

/-- The rows after the request, each at its own place in the table. -/
theorem rows_reordered (hnodup : (store.items.map ItemRow.id).Nodup)
    (hlater : Later (reordered clock store ids) after) :
    ∃ f : ItemRow → ItemRow, after.items = store.items.map f ∧ ∀ row ∈ store.items,
      (livePinned row = false → f row = row) ∧
      (livePinned row = true → ∃ order stamp,
        f row = { row with pinOrder := some order, pinUpdatedAt := stamp } ∧
          (row.pinUpdatedAt < 2 ^ 63 - 1 → row.pinUpdatedAt < stamp)) := by
  obtain ⟨g, hitems, hg⟩ := hlater
  rw [reordered_eq hnodup] at hitems hg
  refine ⟨g ∘ (Gesture.reorder ids).restamp clock store, ?_, fun row hrow => ?_⟩
  · rw [hitems]
    show (store.items.map _).map g = _
    rw [List.map_map]
  · have hstamped := hg _ (List.mem_map_of_mem hrow)
    rw [Function.comp_apply]
    rcases @restamp_reorder clock store hnodup ids row hrow with
      ⟨hother, hkept⟩ | ⟨hpinned, count, -, -, hnumbered⟩
    · refine ⟨fun _ => ?_, fun hpinned => ?_⟩
      · rw [hkept] at hstamped ⊢
        rcases hstamped with hsame | ⟨hpinned, -⟩
        · exact hsame
        · simp [hother] at hpinned
      · simp [hother] at hpinned
    · refine ⟨fun hother => by simp [hpinned] at hother, fun _ => ?_⟩
      rw [hnumbered] at hstamped ⊢
      rcases hstamped with hsame | ⟨-, stamp, hle, hstamp⟩
      · exact ⟨asDouble count, nextPinStamp clock row, hsame, nextPinStamp_gt row⟩
      · exact ⟨asDouble count, stamp, hstamp, fun h => (nextPinStamp_gt row h).trans_le hle⟩

/-- While a row is no pin there is a number left for it. -/
theorem unpinned_room (hnodup : (store.items.map ItemRow.id).Nodup)
    (hlater : Later (reordered clock store ids) after) (hrow : row ∈ after.items)
    (hunpinned : row.pinned = false) : (currentPins store).length + 1 ≤ store.items.length := by
  obtain ⟨f, hitems, hf⟩ := rows_reordered hnodup hlater
  rw [hitems] at hrow
  obtain ⟨old, hold, rfl⟩ := List.mem_map.1 hrow
  have hother : livePinned old = false := by
    rw [← Bool.not_eq_true]
    intro hpinned
    obtain ⟨order, stamp, hsame, -⟩ := (hf old hold).2 hpinned
    rw [hsame] at hunpinned
    have hold : old.pinned = false := hunpinned
    simp [livePinned, hold] at hpinned
  unfold currentPins orderBy
  rw [List.length_insertionSort]
  exact List.length_filter_lt_length_iff_exists.2 ⟨old, hold, by simp [hother]⟩

/-- With or without its record, a further pin is the row that was pinned. -/
theorem setPinned_later {bound : Nat} {last : Store} {found : Bool}
    (hkey : ∀ sys ∈ key, Laws sys ∧ ReadsBack sys bound)
    (hnodup : (store.items.map ItemRow.id).Nodup) (hlive : liveRow store row.id = some row)
    (hunpinned : row.pinned = false)
    (hnumber : ∃ number, 0 < number ∧ number ≤ bound ∧ lastOrder store = asDouble number)
    (hrun : setPinnedInner key clock store row.id true = .ok (last, found)) :
    Later (withPin clock store row true) last := by
  obtain ⟨hlookup, hdeleted⟩ := Option.filter_eq_some_iff.1 hlive
  have hrow := (lookup_eq_some hlookup).1
  have hdeleted : row.deleted = false := by simpa using hdeleted
  have hitems := @items_withPin clock store hnodup row hrow hdeleted hunpinned
  simp only [setPinnedInner, hlive] at hrun
  cases key with
  | none =>
    obtain ⟨rfl, -⟩ := Prod.mk.inj (Except.ok.inj hrun)
    exact Later.refl _
  | some sys =>
    obtain ⟨hlaws, hreads⟩ := hkey sys rfl
    obtain ⟨written, hwrite, hrun⟩ := bind_ok_iff.1 hrun
    simp only [pure, Except.pure, Except.ok.injEq,
      Prod.mk.injEq] at hrun
    obtain ⟨rfl, -⟩ := hrun
    obtain ⟨number, hpos, hle, hnumber⟩ := hnumber
    have hpinned : ({ row with
        pinned := true
        pinUpdatedAt := nextPinStamp clock row
        pinOrder := some (lastOrder store) } : ItemRow) ∈
        (withPin clock store row true).items := by
      rw [hitems]
      exact List.mem_map.2 ⟨row, hrow, if_pos rfl⟩
    refine writePin_later hlaws hreads ?_ hpinned ⟨hdeleted, rfl, number, hpos, hle, ?_⟩ hwrite
    · rw [hitems]
      refine nodup_map _ (fun other => ?_) _ hnodup
      split
      · rename_i hid
        exact hid.symm
      · rfl
    · exact congrArg some hnumber

/-- The pinned rows come out in one order: those that are named as they are named first, then
the others as they stood. Nothing else changes, and a further pin comes last. -/
theorem reorder_permutes (hkey : ∀ sys ∈ key, Laws sys ∧ ReadsBack sys store.items.length)
    (hnodup : (store.items.map ItemRow.id).Nodup) (hfits : store.items.length ≤ maxRows)
    {ids : List String} {count : Nat}
    (hrun : reorderPinnedInner key clock store ids = .ok (after, count)) :
    (currentPins after).map ItemRow.id = (ids.filter (isPinned store)).eraseDups ++
        (((currentPins store).map ItemRow.id).filter fun id => id ∉ ids) ∧
      ((currentPins after).map ItemRow.pinOrder).Nodup ∧
      (∃ f : ItemRow → ItemRow, after.items = store.items.map f ∧ ∀ row ∈ store.items,
        (livePinned row = false → f row = row) ∧
        (livePinned row = true → ∃ order stamp,
          f row = { row with pinOrder := some order, pinUpdatedAt := stamp } ∧
            (row.pinUpdatedAt < 2 ^ 63 - 1 → row.pinUpdatedAt < stamp))) ∧
      ∀ later id last found,
        (∃ row ∈ after.items, row.id = id ∧ row.deleted = false ∧ row.pinned = false) →
        setPinnedInner key later after id true = .ok (last, found) →
        (currentPins last).map ItemRow.id = (currentPins after).map ItemRow.id ++ [id] := by
  have hlater := reorder_later hkey hnodup hrun
  have hlength : (currentPins store).length ≤ store.items.length := by
    unfold currentPins orderBy
    rw [List.length_insertionSort]
    exact List.length_filter_le _ _
  have hbound : (currentPins store).length ≤ 2 ^ 48 := hlength.trans hfits
  have hplaced := perm_placed (nodup_currentPins hnodup) ids
  have hcurrent := @currentPins_reordered clock store hnodup ids (by omega)
  obtain ⟨hids, horders⟩ := hlater.currentPins
  have hturn : InTurn after (currentPins store).length := by
    unfold InTurn
    rw [horders, hcurrent, map_pinOrder_inOrder, hplaced.length_eq]
  refine ⟨?_, ?_, rows_reordered hnodup hlater, ?_⟩
  · rw [hids, hcurrent, map_id_inOrder, map_id_placed]
    congr 2
    exact List.filter_congr fun id _ => (isPinned_iff store id).symm
  · rw [hturn]
    refine List.pairwise_map.2 ((List.pairwise_lt_range' ..).imp_of_mem ?_)
    intro a b _ hb hab heq
    rw [List.mem_range'_1] at hb
    exact absurd (Option.some.inj heq) (asDouble_lt hab (by omega)).ne
  · rintro later id last found ⟨row, hrow, rfl, hlive, hunpinned⟩ hset
    have hafter : (after.items.map ItemRow.id).Nodup := by
      refine hlater.nodup ?_
      rw [reordered_eq hnodup]
      exact ((Gesture.reorder ids).map_id_restamp hnodup).symm ▸ hnodup
    have hfree := unpinned_room hnodup hlater hrow hunpinned
    have hadded := @currentPins_withPin later after _ hafter hturn (by omega) row hrow hlive
      hunpinned
    have hfound : liveRow after row.id = some row := by
      unfold liveRow
      rw [lookup_of_mem hafter hrow, Option.filter_some, if_pos (by simpa using hlive)]
    have hmoved : Later (withPin later after row true) last := by
      refine setPinned_later hkey hafter hfound hunpinned ?_ hset
      exact ⟨_, by omega, hfree, lastOrder_eq hturn (by omega)⟩
    rw [hmoved.currentPins.1, hadded, List.map_append]
    rfl

end Gestures

def samplePin (id : String) (pinned : Bool) (order : Option PinOrder) : ItemRow :=
  ⟨id, some ([], []), "text/plain", id, pinned, order, 0, 1, false, "", none, none, none, none⟩

/-- Pins that are tied or have no order, and a row that is no pin. -/
def tiedPins : Store where
  items := [samplePin "a" true none, samplePin "b" true (some (asDouble 1)),
    samplePin "c" true (some (asDouble 1)), samplePin "d" false none]

def onePin : Store where
  items := [samplePin "a" true none]

theorem readsBack_pinSite : ReadsBack pinSite 1 := by
  intro clipId count hpos hle hvalid
  obtain rfl : count = 1 := by omega
  simp [pinSite, String.toList_append]

theorem reorder_permutes_here :
    (∃ after count, reorderPinnedInner none ⟨fun _ => 1, fun _ => 1⟩ tiedPins
        ["d", "c", "x", "c"] = .ok (after, count) ∧
      (currentPins after).map ItemRow.id = ["c", "a", "b"] ∧
      ((currentPins after).map ItemRow.pinOrder).Nodup) ∧
    ∃ after count, reorderPinnedInner (some pinSite) ⟨fun _ => 1, fun _ => 1⟩ onePin
        ["b", "a", "a"] = .ok (after, count) ∧
      (currentPins after).map ItemRow.id = ["a"] := by
  constructor
  · refine ⟨_, _, rfl, ?_⟩
    have hmoved := @reorder_permutes none ⟨fun _ => 1, fun _ => 1⟩ tiedPins _ (by simp)
      (by decide) (by decide) ["d", "c", "x", "c"] _ rfl
    exact ⟨hmoved.1.trans (by decide +kernel), hmoved.2.1⟩
  · cases hrun : reorderPinnedInner (some pinSite) ⟨fun _ => 1, fun _ => 1⟩ onePin
        ["b", "a", "a"] with
    | error e =>
      have hok : (reorderPinnedInner (some pinSite) ⟨fun _ => 1, fun _ => 1⟩ onePin
          ["b", "a", "a"]).toOption.isSome = true := by decide +kernel
      rw [hrun] at hok
      cases hok
    | ok result =>
      obtain ⟨after, count⟩ := result
      have hkey : ∀ sys ∈ some pinSite, Laws sys ∧ ReadsBack sys onePin.items.length := by
        rintro sys ⟨⟩
        exact ⟨laws_pinSite, readsBack_pinSite⟩
      have hmoved := reorder_permutes hkey (by decide) (by decide) hrun
      exact ⟨after, count, rfl, hmoved.1.trans (by decide)⟩

end CopyPaste.Organization.Reorder
