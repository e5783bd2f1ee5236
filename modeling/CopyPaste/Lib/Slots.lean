import Mathlib.Data.List.Sigma
import CopyPaste.Lib.Checks

/-!
The slots of a list, filled one at a time. When every failure is the same, the order in
which they are filled makes no difference: it is the pass from the front.
-/

namespace CopyPaste.Lib.Slots

open Checks

variable {ε α β : Type*} (put : α → β → Except ε α) (missing : ε)

def fillSlot (xs : List α) (entry : β × ℕ) : Except ε (List α) :=
  match xs[entry.2]? with
  | none => .error missing
  | some x => (put x entry.1).map (xs.set entry.2)

variable {put missing} {xs : List α} {entries : List (β × ℕ)}

theorem fillSlot_ok {entry : β × ℕ} {x value : α} (hx : xs[entry.2]? = some x)
    (hput : put x entry.1 = .ok value) :
    fillSlot put missing xs entry = .ok (xs.set entry.2 value) := by
  unfold fillSlot
  rw [hx]
  dsimp only
  rw [hput]
  rfl

variable {error : ε}

theorem fillSlot_error {entry : β × ℕ} {x : α} (hx : xs[entry.2]? = some x)
    (hput : put x entry.1 = .error error) : fillSlot put missing xs entry = .error error := by
  unfold fillSlot
  rw [hx]
  dsimp only
  rw [hput]
  rfl

/-- Slots that can all be filled hold their own values afterwards; the others are as before. -/
theorem foldlM_fillSlot_ok (target : List α) (hnodup : (entries.map Prod.snd).Nodup)
    (hput : ∀ entry ∈ entries, ∃ x value, xs[entry.2]? = some x ∧
      target[entry.2]? = some value ∧ put x entry.1 = .ok value) :
    ∃ filled, entries.foldlM (fillSlot put missing) xs = .ok filled ∧ ∀ index,
      filled[index]? = if index ∈ entries.map Prod.snd then target[index]? else xs[index]? := by
  induction entries generalizing xs with
  | nil => exact ⟨xs, rfl, fun index => by simp⟩
  | cons entry entries ih =>
    rw [List.map_cons, List.nodup_cons] at hnodup
    obtain ⟨x, value, hx, hvalue, hok⟩ := hput entry List.mem_cons_self
    have hlt : entry.2 < xs.length := (List.getElem?_eq_some_iff.1 hx).1
    have hrest : ∀ other ∈ entries, ∃ y found, (xs.set entry.2 value)[other.2]? = some y ∧
        target[other.2]? = some found ∧ put y other.1 = .ok found := by
      intro other hother
      have hne : entry.2 ≠ other.2 := fun heq =>
        hnodup.1 (heq ▸ List.mem_map_of_mem hother)
      obtain ⟨y, found, hy, hfound, hother⟩ := hput other (List.mem_cons_of_mem _ hother)
      exact ⟨y, found, by rw [List.getElem?_set_ne hne, hy], hfound, hother⟩
    obtain ⟨filled, hrun, hfilled⟩ := ih hnodup.2 hrest
    refine ⟨filled, ?_, fun index => ?_⟩
    · rw [List.foldlM_cons, fillSlot_ok hx hok]
      exact hrun
    · rw [hfilled index]
      by_cases hindex : index = entry.2
      · subst hindex
        rw [if_neg hnodup.1, if_pos (by simp), List.getElem?_set_self hlt, hvalue]
      · simp only [List.getElem?_set_ne (Ne.symm hindex), List.map_cons, List.mem_cons, hindex,
          false_or]

/-- The one failure ends the pass, wherever it stands. -/
theorem foldlM_fillSlot_error (hnodup : (entries.map Prod.snd).Nodup)
    (hsame : ∀ x y other, put x y = .error other → other = error)
    (hslots : ∀ entry ∈ entries, ∃ x, xs[entry.2]? = some x)
    (hfails : ∃ entry ∈ entries, ∃ x, xs[entry.2]? = some x ∧ put x entry.1 = .error error) :
    entries.foldlM (fillSlot put missing) xs = .error error := by
  induction entries generalizing xs with
  | nil => simp at hfails
  | cons entry entries ih =>
    rw [List.map_cons, List.nodup_cons] at hnodup
    obtain ⟨x, hx⟩ := hslots entry List.mem_cons_self
    rw [List.foldlM_cons]
    cases hput : put x entry.1 with
    | error other =>
      rw [fillSlot_error hx hput, hsame _ _ _ hput]
      rfl
    | ok value =>
      have hkeep : ∀ other ∈ entries, (xs.set entry.2 value)[other.2]? = xs[other.2]? :=
        by
          intro other hother
          refine List.getElem?_set_ne fun heq => hnodup.1 ?_
          rw [heq]
          exact List.mem_map_of_mem hother
      rw [fillSlot_ok hx hput]
      refine ih hnodup.2 (fun other hother => ?_) ?_
      · rw [hkeep other hother]
        exact hslots other (List.mem_cons_of_mem _ hother)
      · obtain ⟨other, hother, y, hy, hfail⟩ := hfails
        rcases List.mem_cons.1 hother with rfl | hother
        · rw [hx] at hy
          cases hy
          rw [hput] at hfail
          cases hfail
        · exact ⟨other, hother, y, by rw [hkeep other hother, hy], hfail⟩

theorem mapM_error {γ : Type*} {f : γ → Except ε α} {members : List γ}
    (hsame : ∀ member other, f member = .error other → other = error)
    (hfails : ∃ member ∈ members, f member = .error error) : members.mapM f = .error error := by
  induction members with
  | nil => simp at hfails
  | cons member members ih =>
    rw [List.mapM_cons]
    cases hmember : f member with
    | error other =>
      rw [hsame _ _ hmember]
      rfl
    | ok value =>
      obtain ⟨other, hother, hfail⟩ := hfails
      rcases List.mem_cons.1 hother with rfl | hother
      · rw [hmember] at hfail
        cases hfail
      · have hrest := ih ⟨other, hother, hfail⟩
        rw [hrest]
        rfl

theorem mapM_ok {γ : Type*} {f : γ → Except ε α} {members : List γ}
    (h : ∀ member ∈ members, ∃ value, f member = .ok value) :
    ∃ values, members.mapM f = .ok values ∧ values.length = members.length ∧
      ∀ (index : ℕ) (member : γ), members[index]? = some member →
        ∃ value, values[index]? = some value ∧ f member = .ok value := by
  induction members with
  | nil => exact ⟨[], rfl, rfl, by simp⟩
  | cons member members ih =>
    obtain ⟨value, hvalue⟩ := h member List.mem_cons_self
    obtain ⟨values, hrun, hlength, hvalues⟩ :=
      ih fun other hother => h other (List.mem_cons_of_mem _ hother)
    refine ⟨value :: values, ?_, by simp [hlength], fun index other hother => ?_⟩
    · rw [List.mapM_cons, hvalue, hrun]
      rfl
    · cases index with
      | zero =>
        cases hother
        exact ⟨value, rfl, hvalue⟩
      | succ index => exact hvalues index other hother

/-- Slots filled in any order come out as in the pass from the front. -/
theorem foldlM_fillSlot_perm {ys : List β} {error : ε} (hlength : xs.length = ys.length)
    (hsame : ∀ x y other, put x y = .error other → other = error)
    (hperm : entries.Perm ys.zipIdx) :
    entries.foldlM (fillSlot put missing) xs = (xs.zip ys).mapM fun pair => put pair.1 pair.2 := by
  have hnodup : (entries.map Prod.snd).Nodup :=
    (hperm.map Prod.snd).nodup_iff.2 (List.nodup_zipIdx_map_snd ys)
  have hentry : ∀ entry ∈ entries, ∃ x, xs[entry.2]? = some x ∧ ys[entry.2]? = some entry.1 := by
    intro entry hentry
    have hy := List.mem_zipIdx_iff_getElem?.1 (hperm.mem_iff.1 hentry)
    have hlt := (List.getElem?_eq_some_iff.1 hy).1
    exact ⟨xs[entry.2], List.getElem?_eq_getElem (by omega), hy⟩
  by_cases hall : ∀ pair ∈ xs.zip ys, ∃ value, put pair.1 pair.2 = .ok value
  · obtain ⟨target, hmap, hsize, htarget⟩ := mapM_ok hall
    obtain ⟨filled, hrun, hfilled⟩ := foldlM_fillSlot_ok target hnodup
      fun entry hmem => by
        obtain ⟨x, hx, hy⟩ := hentry entry hmem
        obtain ⟨value, hvalue, hput⟩ := htarget entry.2 (x, entry.1)
          (List.getElem?_zip_eq_some.2 ⟨hx, hy⟩)
        exact ⟨x, value, hx, hvalue, hput⟩
    rw [hrun, hmap]
    refine congrArg Except.ok (List.ext_getElem? fun index => ?_)
    rw [hfilled index]
    split
    · rfl
    · next hnot =>
      have hge : ys.length ≤ index := by
        by_contra hlt
        refine hnot ?_
        have hmem := (List.mk_mem_zipIdx_iff_getElem?).2 (List.getElem?_eq_getElem (Nat.not_le.1 hlt))
        exact List.mem_map.2 ⟨_, hperm.mem_iff.2 hmem, rfl⟩
      rw [List.length_zip] at hsize
      rw [List.getElem?_eq_none (by omega), List.getElem?_eq_none (by omega)]
  · push Not at hall
    obtain ⟨pair, hpair, hfails⟩ := hall
    have herror : put pair.1 pair.2 = .error error := by
      cases hput : put pair.1 pair.2 with
      | ok value => exact absurd hput (hfails value)
      | error other => rw [hsame _ _ _ hput]
    rw [mapM_error (fun member other h => hsame _ _ _ h) ⟨pair, hpair, herror⟩]
    obtain ⟨index, hindex⟩ := List.mem_iff_getElem?.1 hpair
    obtain ⟨hx, hy⟩ := List.getElem?_zip_eq_some.1 hindex
    refine foldlM_fillSlot_error hnodup hsame (fun entry hmem => ?_) ⟨(pair.2, index), ?_, pair.1, hx, herror⟩
    · obtain ⟨x, hx, -⟩ := hentry entry hmem
      exact ⟨x, hx⟩
    · exact hperm.mem_iff.2 (List.mk_mem_zipIdx_iff_getElem?.2 hy)

end CopyPaste.Lib.Slots
