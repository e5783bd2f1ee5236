import Mathlib.Algebra.BigOperators.Group.Finset.Basic
import Mathlib.Algebra.Order.BigOperators.Group.Finset
import Mathlib.Data.Fintype.BigOperators
import Mathlib.Data.Fintype.Prod
import Mathlib.Order.WellFounded

/-!
Copies of one thing spread between parties. A copy has a key and a value; a copy
under a greater key is taken, and the greater of the two values is kept, under a
key of its own when the sender does not have it. Every change raises a key within
a finite set, so the changes come to an end, and where no two parties have one key
for two values they end with the greatest value everywhere.
-/

namespace CopyPaste.Lib.Gossip

structure Copy (K V : Type*) where
  key : K
  value : V

variable {ι K V : Type*} [LinearOrder K] [LinearOrder V] (bump : K → K)

/-- Meet another copy. -/
def take (mine theirs : Copy K V) : Copy K V :=
  if theirs.key ≤ mine.key then mine
  else if mine.value ≤ theirs.value then theirs
  else ⟨bump theirs.key, mine.value⟩

theorem take_of_le {mine theirs : Copy K V} (h : theirs.key ≤ mine.key) :
    take bump mine theirs = mine := if_pos h

/-- What a copy that is taken leaves. -/
theorem take_of_lt {mine theirs : Copy K V} (h : mine.key < theirs.key) :
    mine.value ≤ theirs.value ∧ take bump mine theirs = theirs ∨
      theirs.value < mine.value ∧ take bump mine theirs = ⟨bump theirs.key, mine.value⟩ := by
  unfold take
  rw [if_neg (not_le.2 h)]
  rcases le_or_gt mine.value theirs.value with hle | hlt
  · exact Or.inl ⟨hle, if_pos hle⟩
  · exact Or.inr ⟨hlt, if_neg (not_le.2 hlt)⟩

theorem value_take_ge (mine theirs : Copy K V) : mine.value ≤ (take bump mine theirs).value := by
  rcases le_or_gt theirs.key mine.key with hle | hlt
  · rw [take_of_le bump hle]
  · rcases take_of_lt bump hlt with ⟨hvalue, htake⟩ | ⟨-, htake⟩
    · rw [htake]
      exact hvalue
    · rw [htake]

def Taken (state : ι → Copy K V) (step : ι × ι) : Prop :=
  (state step.2).key < (state step.1).key

instance (state : ι → Copy K V) (step : ι × ι) : Decidable (Taken state step) :=
  inferInstanceAs (Decidable (_ < _))

/-- No further offer is taken. -/
def Quiet (state : ι → Copy K V) : Prop :=
  ∀ step, ¬ Taken state step

/-- No key stands for two values. -/
def Apart (state : ι → Copy K V) : Prop :=
  ∀ i j, (state i).key = (state j).key → (state i).value = (state j).value

/-- A kept value does not get a key that another party has for another value. -/
def Clear (state : ι → Copy K V) (step : ι × ι) : Prop :=
  Taken state step → (state step.1).value < (state step.2).value →
    ∀ k, k ≠ step.2 → (state k).key = bump (state step.1).key →
      (state k).value = (state step.2).value

omit [LinearOrder V] in
theorem quiet_iff (state : ι → Copy K V) :
    Quiet state ↔ ∀ i j, (state i).key = (state j).key := by
  constructor
  · intro h i j
    exact le_antisymm (not_lt.1 (h (i, j))) (not_lt.1 (h (j, i)))
  · intro h step
    exact not_lt.2 (h step.1 step.2).le

section Bound

variable [Fintype ι] (start : ι → Copy K V)

/-- The values the parties start with. -/
def values : Finset V := Finset.univ.image fun i => (start i).value

def below (v : V) : Finset V := (values start).filter (· < v)

/-- A copy made from the first ones: its value is one of theirs, and its key one of
theirs raised at most once for each smaller value. -/
structure Within (copy : Copy K V) : Prop where
  value : copy.value ∈ values start
  key : ∃ i r, r ≤ (below start copy.value).card ∧ copy.key = bump^[r] (start i).key

omit [LinearOrder K] in
theorem within_start (i : ι) : Within bump start (start i) :=
  ⟨Finset.mem_image_of_mem _ (Finset.mem_univ i), i, 0, Nat.zero_le _, rfl⟩

omit [LinearOrder K] in
theorem card_below_lt {v w : V} (hv : v ∈ values start) (h : v < w) :
    (below start v).card < (below start w).card := by
  apply Finset.card_lt_card
  refine ⟨?_, ?_⟩
  · intro u hu
    unfold below at hu ⊢
    rw [Finset.mem_filter] at hu ⊢
    exact ⟨hu.1, hu.2.trans h⟩
  · intro hsub
    have hmem : v ∈ below start v := hsub (Finset.mem_filter.2 ⟨hv, h⟩)
    exact lt_irrefl v (Finset.mem_filter.1 hmem).2

theorem within_take {mine theirs : Copy K V} (hmine : Within bump start mine)
    (htheirs : Within bump start theirs) : Within bump start (take bump mine theirs) := by
  rcases le_or_gt theirs.key mine.key with hle | hlt
  · rw [take_of_le bump hle]
    exact hmine
  · rcases take_of_lt bump hlt with ⟨-, htake⟩ | ⟨hvalue, htake⟩
    · rw [htake]
      exact htheirs
    · obtain ⟨i, r, hr, hkey⟩ := htheirs.key
      have hlt := card_below_lt start htheirs.value hvalue
      rw [htake]
      refine ⟨hmine.value, i, r + 1, ?_, ?_⟩
      · show r + 1 ≤ (below start mine.value).card
        omega
      · rw [Function.iterate_succ_apply', hkey]

/-- The keys a run can come to. -/
def reach : Finset K :=
  (Finset.univ ×ˢ Finset.range (Fintype.card ι)).image fun p => bump^[p.2] (start p.1).key

omit [LinearOrder V] in
theorem card_reach_le : (reach bump start).card ≤ Fintype.card ι * Fintype.card ι := by
  refine Finset.card_image_le.trans ?_
  rw [Finset.card_product, Finset.card_univ, Finset.card_range]

theorem key_mem_reach {copy : Copy K V} (h : Within bump start copy) :
    copy.key ∈ reach bump start := by
  obtain ⟨i, r, hr, hkey⟩ := h.key
  have hbelow : (below start copy.value).card < (values start).card := by
    apply Finset.card_lt_card
    refine ⟨Finset.filter_subset _ _, fun hsub => ?_⟩
    exact lt_irrefl _ (Finset.mem_filter.1 (hsub h.value)).2
  have hvalues : (values start).card ≤ Fintype.card ι := Finset.card_image_le
  refine Finset.mem_image.2 ⟨(i, r), ?_, hkey.symm⟩
  rw [Finset.mem_product, Finset.mem_range]
  exact ⟨Finset.mem_univ i, by show r < _; omega⟩

def above (copy : Copy K V) : Finset K := (reach bump start).filter (copy.key < ·)

def potential (state : ι → Copy K V) : ℕ := ∑ i, (above bump start (state i)).card

omit [LinearOrder V] in
theorem potential_le (state : ι → Copy K V) :
    potential bump start state ≤ Fintype.card ι * (Fintype.card ι * Fintype.card ι) := by
  calc potential bump start state
      ≤ ∑ _i : ι, Fintype.card ι * Fintype.card ι := by
        refine Finset.sum_le_sum fun i _ => ?_
        exact (Finset.card_filter_le _ _).trans (card_reach_le bump start)
    _ = Fintype.card ι * (Fintype.card ι * Fintype.card ι) := by
        rw [Finset.sum_const_nat fun _ _ => rfl, Finset.card_univ]

variable {bump} in
theorem key_lt_take (hbump : ∀ k, k ≤ bump k) {mine theirs : Copy K V}
    (h : mine.key < theirs.key) : mine.key < (take bump mine theirs).key := by
  rcases take_of_lt bump h with ⟨-, htake⟩ | ⟨-, htake⟩
  · rw [htake]
    exact h
  · rw [htake]
    exact h.trans_le (hbump theirs.key)

end Bound

variable [DecidableEq ι]

/-- The first party offers its copy to the second. -/
def exchange (state : ι → Copy K V) (step : ι × ι) : ι → Copy K V :=
  Function.update state step.2 (take bump (state step.2) (state step.1))

def run (state : ι → Copy K V) (steps : List (ι × ι)) : ι → Copy K V :=
  steps.foldl (exchange bump) state

/-- How many offers of a run are taken. -/
def changes (state : ι → Copy K V) : List (ι × ι) → ℕ
  | [] => 0
  | step :: rest => (if Taken state step then 1 else 0) + changes (exchange bump state step) rest

def ClearRun (state : ι → Copy K V) : List (ι × ι) → Prop
  | [] => True
  | step :: rest => Clear bump state step ∧ ClearRun (exchange bump state step) rest

theorem exchange_apply (state : ι → Copy K V) (step : ι × ι) (k : ι) :
    exchange bump state step k =
      if k = step.2 then take bump (state step.2) (state step.1) else state k := by
  unfold exchange
  rw [Function.update_apply]

variable {state : ι → Copy K V}

theorem exchange_of_not_taken {step : ι × ι} (h : ¬ Taken state step) :
    exchange bump state step = state := by
  unfold exchange
  rw [take_of_le bump (not_lt.1 h), Function.update_eq_self]

theorem run_append (state : ι → Copy K V) (first last : List (ι × ι)) :
    run bump state (first ++ last) = run bump (run bump state first) last :=
  List.foldl_append

theorem changes_append (state : ι → Copy K V) (first last : List (ι × ι)) :
    changes bump state (first ++ last) =
      changes bump state first + changes bump (run bump state first) last := by
  induction first generalizing state with
  | nil => simp [changes, run]
  | cons step rest ih =>
    rw [List.cons_append, changes, changes, ih, add_assoc]
    rfl

theorem apart_exchange {step : ι × ι} (h : Apart state) (hclear : Clear bump state step) :
    Apart (exchange bump state step) := by
  by_cases htaken : Taken state step
  · -- against a party that the step leaves alone
    have hother : ∀ k, k ≠ step.2 →
        (state k).key = (take bump (state step.2) (state step.1)).key →
        (state k).value = (take bump (state step.2) (state step.1)).value := by
      intro k hk hkey
      rcases take_of_lt bump htaken with ⟨-, htake⟩ | ⟨hvalue, htake⟩
      · rw [htake] at hkey ⊢
        exact h k step.1 hkey
      · rw [htake] at hkey ⊢
        exact hclear htaken hvalue k hk hkey
    intro i j hkey
    rw [exchange_apply, exchange_apply] at hkey ⊢
    by_cases hi : i = step.2
    · by_cases hj : j = step.2
      · rw [if_pos hi, if_pos hj]
      · rw [if_pos hi, if_neg hj] at hkey ⊢
        exact (hother j hj hkey.symm).symm
    · by_cases hj : j = step.2
      · rw [if_neg hi, if_pos hj] at hkey ⊢
        exact hother i hi hkey
      · rw [if_neg hi, if_neg hj] at hkey ⊢
        exact h i j hkey
  · rw [exchange_of_not_taken bump htaken]
    exact h

theorem apart_run {steps : List (ι × ι)} (h : Apart state) (hclear : ClearRun bump state steps) :
    Apart (run bump state steps) := by
  induction steps generalizing state with
  | nil => exact h
  | cons step rest ih => exact ih (apart_exchange bump h hclear.1) hclear.2

/-- Nobody's value goes down. -/
theorem value_le_run (state : ι → Copy K V) (steps : List (ι × ι)) (i : ι) :
    (state i).value ≤ (run bump state steps i).value := by
  induction steps generalizing state with
  | nil => exact le_rfl
  | cons step rest ih =>
    refine le_trans ?_ (ih (exchange bump state step))
    rw [exchange_apply]
    split
    · rename_i hi
      rw [hi]
      exact value_take_ge bump _ _
    · exact le_rfl

section Rest

variable [Fintype ι] (start : ι → Copy K V)

variable {state : ι → Copy K V}

theorem within_exchange (h : ∀ i, Within bump start (state i)) (step : ι × ι) (i : ι) :
    Within bump start (exchange bump state step i) := by
  rw [exchange_apply]
  split
  · exact within_take bump start (h step.2) (h step.1)
  · exact h i

theorem within_run (h : ∀ i, Within bump start (state i)) (steps : List (ι × ι)) (i : ι) :
    Within bump start (run bump state steps i) := by
  induction steps generalizing state with
  | nil => exact h i
  | cons step rest ih => exact ih (within_exchange bump start h step)

/-- A taken offer uses up a key. -/
theorem potential_exchange (hbump : ∀ k, k ≤ bump k) (h : ∀ i, Within bump start (state i))
    {step : ι × ι} (htaken : Taken state step) :
    potential bump start (exchange bump state step) < potential bump start state := by
  have hlt := key_lt_take hbump htaken
  have hmem := key_mem_reach bump start (within_exchange bump start h step step.2)
  rw [exchange_apply, if_pos rfl] at hmem
  have hless : (above bump start (take bump (state step.2) (state step.1))).card <
      (above bump start (state step.2)).card := by
    apply Finset.card_lt_card
    refine ⟨fun k hk => ?_, fun hsub => ?_⟩
    · unfold above at hk ⊢
      rw [Finset.mem_filter] at hk ⊢
      exact ⟨hk.1, hlt.trans hk.2⟩
    · have hself := hsub (Finset.mem_filter.2 ⟨hmem, hlt⟩)
      exact lt_irrefl _ (Finset.mem_filter.1 hself).2
  unfold potential
  refine Finset.sum_lt_sum (fun i _ => ?_) ⟨step.2, Finset.mem_univ _, ?_⟩
  · rw [exchange_apply]
    split
    · rename_i hi
      rw [hi]
      exact hless.le
    · exact le_rfl
  · rw [exchange_apply, if_pos rfl]
    exact hless

theorem changes_le_potential (hbump : ∀ k, k ≤ bump k) (h : ∀ i, Within bump start (state i))
    (steps : List (ι × ι)) : changes bump state steps ≤ potential bump start state := by
  induction steps generalizing state with
  | nil => exact Nat.zero_le _
  | cons step rest ih =>
    have hrest := ih (within_exchange bump start h step)
    unfold changes
    by_cases htaken : Taken state step
    · have hless := potential_exchange bump start hbump h htaken
      rw [if_pos htaken]
      omega
    · rw [exchange_of_not_taken bump htaken] at hrest ⊢
      rw [if_neg htaken]
      omega

/-- However the offers are ordered, only so many of them are taken. -/
theorem changes_le (hbump : ∀ k, k ≤ bump k) (steps : List (ι × ι)) :
    changes bump start steps ≤ Fintype.card ι * (Fintype.card ι * Fintype.card ι) :=
  (changes_le_potential bump start hbump (within_start bump start) steps).trans
    (potential_le bump start start)

/-- Where every party keeps offering to every other, the offers come to rest. -/
theorem exists_quiet (hbump : ∀ k, k ≤ bump k) (schedule : ℕ → ι × ι)
    (hfair : ∀ step n, ∃ m, n ≤ m ∧ schedule m = step) :
    ∃ n, Quiet (run bump start ((List.range n).map schedule)) := by
  have hbound := fun n => changes_le bump start hbump ((List.range n).map schedule)
  generalize Fintype.card ι * (Fintype.card ι * Fintype.card ι) = most at hbound
  have hnext : ∀ n, changes bump start ((List.range (n + 1)).map schedule) =
      changes bump start ((List.range n).map schedule) +
        if Taken (run bump start ((List.range n).map schedule)) (schedule n) then 1 else 0 := by
    intro n
    rw [List.range_succ, List.map_append, changes_append]
    rfl
  -- a moment by which most offers have been taken
  obtain ⟨n, hn⟩ : ∃ n, ∀ m, changes bump start ((List.range m).map schedule) ≤
      changes bump start ((List.range n).map schedule) := by
    refine ⟨Function.argmin fun m => most - changes bump start ((List.range m).map schedule),
      fun m => ?_⟩
    have hleast := Function.argmin_le
      (fun m => most - changes bump start ((List.range m).map schedule)) m
    have hm := hbound m
    have hat := hbound
      (Function.argmin fun m => most - changes bump start ((List.range m).map schedule))
    omega
  have hstill : ∀ m, n ≤ m →
      run bump start ((List.range m).map schedule) = run bump start ((List.range n).map schedule) ∧
        changes bump start ((List.range m).map schedule) =
          changes bump start ((List.range n).map schedule) := by
    intro m hm
    induction m, hm using Nat.le_induction with
    | base => exact ⟨rfl, rfl⟩
    | succ m hm ih =>
      have hmost := hn (m + 1)
      rw [hnext, ih.2] at hmost
      have hnot : ¬ Taken (run bump start ((List.range m).map schedule)) (schedule m) := by
        intro htaken
        rw [if_pos htaken] at hmost
        omega
      refine ⟨?_, by rw [hnext, if_neg hnot, ih.2, Nat.add_zero]⟩
      rw [List.range_succ, List.map_append, run_append, ← ih.1]
      exact exchange_of_not_taken bump hnot
  refine ⟨n, fun step htaken => ?_⟩
  obtain ⟨m, hm, rfl⟩ := hfair step n
  have hmost := hn (m + 1)
  rw [hnext, (hstill m hm).2, (hstill m hm).1, if_pos htaken] at hmost
  omega

/-- At rest, and with the keys apart, everyone has the greatest first value. -/
theorem value_of_quiet {steps : List (ι × ι)} (happart : Apart start)
    (hclear : ClearRun bump start steps) (hquiet : Quiet (run bump start steps)) (i : ι) :
    (∃ k, (run bump start steps i).value = (start k).value) ∧
      ∀ j, (start j).value ≤ (run bump start steps i).value := by
  have hsame := fun j => apart_run bump happart hclear i j ((quiet_iff _).1 hquiet i j)
  refine ⟨?_, fun j => ?_⟩
  · obtain ⟨k, -, hk⟩ := Finset.mem_image.1
      (within_run bump start (within_start bump start) steps i).value
    exact ⟨k, hk.symm⟩
  · rw [hsame j]
    exact value_le_run bump start steps j

end Rest

end CopyPaste.Lib.Gossip
