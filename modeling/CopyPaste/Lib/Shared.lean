import Mathlib.Data.List.Basic

/-!
Parts shared by their blob. Owners and leases name a blob; a blob's parts stay while
either of them names it, and go with the last one. Dropping an owner leaves what every
other owner holds.
-/

namespace CopyPaste.Lib.Shared

structure Pool (κ ℓ β π : Type*) where
  owners : List (κ × β) := []
  leases : List (ℓ × β) := []
  parts : List (β × π) := []

variable {κ ℓ β π : Type*} [DecidableEq κ] [DecidableEq β]

def Pool.uses (p : Pool κ ℓ β π) (blob : β) : Bool :=
  p.owners.any (fun owner => owner.2 = blob) || p.leases.any fun lease => lease.2 = blob

/-- Remove the parts of those of the blobs that nothing names. -/
def Pool.sweep (p : Pool κ ℓ β π) (blobs : List β) : Pool κ ℓ β π :=
  { p with parts := p.parts.filter fun part => part.1 ∉ blobs || p.uses part.1 }

def Pool.blobsOf (p : Pool κ ℓ β π) (key : κ) : List β :=
  (p.owners.filter fun owner => owner.1 = key).map Prod.snd

/-- The blobs of an owner and their parts. -/
def Pool.held (p : Pool κ ℓ β π) (key : κ) : List β × List (β × π) :=
  (p.blobsOf key, p.parts.filter fun part => part.1 ∈ p.blobsOf key)

def Pool.dropOwner (p : Pool κ ℓ β π) (key : κ) : Pool κ ℓ β π :=
  ({ p with owners := p.owners.filter fun owner => owner.1 ≠ key } : Pool κ ℓ β π).sweep
    (p.blobsOf key)

def Pool.dropLeases (p : Pool κ ℓ β π) : Pool κ ℓ β π :=
  ({ p with leases := [] } : Pool κ ℓ β π).sweep (p.leases.map Prod.snd)

/-- Every part belongs to a blob that is named. -/
def Pool.Exact (p : Pool κ ℓ β π) : Prop := ∀ part ∈ p.parts, p.uses part.1 = true

omit [DecidableEq κ] in
@[simp]
theorem uses_sweep (p : Pool κ ℓ β π) (blobs : List β) (blob : β) :
    (p.sweep blobs).uses blob = p.uses blob := rfl

@[simp]
theorem blobsOf_sweep (p : Pool κ ℓ β π) (blobs : List β) (key : κ) :
    (p.sweep blobs).blobsOf key = p.blobsOf key := rfl

variable {key : κ} {blob : β}

omit [DecidableEq β] in
theorem mem_blobsOf {p : Pool κ ℓ β π} : blob ∈ p.blobsOf key ↔ (key, blob) ∈ p.owners := by
  simp [Pool.blobsOf]

theorem uses_of_mem_blobsOf {p : Pool κ ℓ β π} (h : blob ∈ p.blobsOf key) : p.uses blob = true := by
  rw [mem_blobsOf] at h
  unfold Pool.uses
  rw [Bool.or_eq_true, List.any_eq_true]
  exact Or.inl ⟨_, h, by simp⟩

/-- A sweep takes nothing that an owner holds. -/
theorem held_sweep (p : Pool κ ℓ β π) (blobs : List β) (key : κ) :
    (p.sweep blobs).held key = p.held key := by
  unfold Pool.held
  rw [blobsOf_sweep, Pool.sweep, List.filter_filter]
  congr 1
  refine List.filter_congr fun part _ => ?_
  by_cases hmem : part.1 ∈ p.blobsOf key
  · simp [hmem, uses_of_mem_blobsOf hmem]
  · simp [hmem]

theorem blobsOf_dropOwner (p : Pool κ ℓ β π) (key other : κ) :
    (p.dropOwner key).blobsOf other = if other = key then [] else p.blobsOf other := by
  unfold Pool.dropOwner
  rw [blobsOf_sweep]
  unfold Pool.blobsOf
  rw [List.filter_filter]
  split
  · rename_i h
    subst h
    simp
  · rename_i h
    congr 1
    refine List.filter_congr fun owner _ => ?_
    by_cases howner : owner.1 = other
    · simp [howner, h]
    · simp [howner]

theorem held_dropOwner_self (p : Pool κ ℓ β π) (key : κ) : (p.dropOwner key).held key = ([], []) := by
  simp [Pool.held, blobsOf_dropOwner]

theorem held_dropOwner_of_ne (p : Pool κ ℓ β π) {other : κ} (h : other ≠ key) :
    (p.dropOwner key).held other = p.held other := by
  have hblobs := blobsOf_dropOwner p key other
  rw [if_neg h] at hblobs
  unfold Pool.dropOwner at hblobs ⊢
  rw [held_sweep]
  unfold Pool.held
  rw [blobsOf_sweep] at hblobs
  rw [hblobs]

def Pool.partsOf (p : Pool κ ℓ β π) (blob : β) : List π :=
  (p.parts.filter fun part => part.1 = blob).map Prod.snd

/-- A pool that owners and leases have left: the parts of a blob are as they were, or the
blob is named no more and they are gone. -/
structure Shrinks (p p' : Pool κ ℓ β π) : Prop where
  owners : p'.owners.Sublist p.owners
  leases : p'.leases.Sublist p.leases
  parts : ∀ blob, p'.partsOf blob = p.partsOf blob ∨
    p'.partsOf blob = [] ∧ p'.uses blob = false
  exact : p.Exact → p'.Exact

omit [DecidableEq κ] in
theorem Shrinks.refl (p : Pool κ ℓ β π) : Shrinks p p :=
  ⟨List.Sublist.refl _, List.Sublist.refl _, fun _ => Or.inl rfl, fun h => h⟩

omit [DecidableEq κ] in
theorem uses_of_sublist {p p' : Pool κ ℓ β π} (howners : p'.owners.Sublist p.owners)
    (hleases : p'.leases.Sublist p.leases) (h : p.uses blob = false) : p'.uses blob = false := by
  unfold Pool.uses at h ⊢
  rw [Bool.or_eq_false_iff, List.any_eq_false, List.any_eq_false] at h ⊢
  exact ⟨fun owner howner => h.1 owner (howners.subset howner),
    fun lease hlease => h.2 lease (hleases.subset hlease)⟩

omit [DecidableEq κ] in
theorem Shrinks.trans {p q r : Pool κ ℓ β π} (h : Shrinks p q) (h' : Shrinks q r) :
    Shrinks p r := by
  refine ⟨h'.owners.trans h.owners, h'.leases.trans h.leases, fun blob => ?_,
    fun hexact => h'.exact (h.exact hexact)⟩
  rcases h'.parts blob with hsame | hgone
  · rcases h.parts blob with hbefore | ⟨hnone, hunused⟩
    · exact Or.inl (hsame.trans hbefore)
    · exact Or.inr ⟨hsame.trans hnone, uses_of_sublist h'.owners h'.leases hunused⟩
  · exact Or.inr hgone

omit [DecidableEq κ] in
/-- Owners and leases leave, and the blobs of those who left are swept. -/
theorem shrinks_sweep {p q : Pool κ ℓ β π} (howners : q.owners.Sublist p.owners)
    (hleases : q.leases.Sublist p.leases) (hparts : q.parts = p.parts) (blobs : List β)
    (hswept : ∀ blob, p.uses blob = true → q.uses blob = false → blob ∈ blobs) :
    Shrinks p (q.sweep blobs) := by
  refine ⟨howners, hleases, fun blob => ?_, ?_⟩
  · by_cases hkept : blob ∉ blobs ∨ q.uses blob = true
    · refine Or.inl ?_
      unfold Pool.partsOf Pool.sweep
      rw [hparts, List.filter_filter]
      congr 1
      refine List.filter_congr fun part _ => ?_
      by_cases hpart : part.1 = blob
      · rcases hkept with hnot | hused
        · simp [hpart, hnot]
        · simp [hpart, hused]
      · simp [hpart]
    · rw [not_or, not_not, Bool.not_eq_true] at hkept
      refine Or.inr ⟨?_, hkept.2⟩
      unfold Pool.partsOf Pool.sweep
      rw [List.map_eq_nil_iff, List.filter_filter, List.filter_eq_nil_iff]
      intro part _ hpart
      rw [Bool.and_eq_true, decide_eq_true_eq] at hpart
      obtain ⟨rfl, hpart⟩ := hpart
      simp [hkept] at hpart
  · intro hexact part hpart
    obtain ⟨hmem, hkept⟩ := List.mem_filter.1 hpart
    rw [hparts] at hmem
    rw [uses_sweep]
    rw [Bool.or_eq_true, decide_eq_true_eq] at hkept
    rcases hkept with hnot | hused
    · by_contra hunused
      exact hnot (hswept part.1 (hexact part hmem) (by simpa using hunused))
    · exact hused

theorem shrinks_dropOwner (p : Pool κ ℓ β π) (key : κ) : Shrinks p (p.dropOwner key) := by
  refine shrinks_sweep (q := { p with owners := p.owners.filter fun owner => owner.1 ≠ key })
    List.filter_sublist (List.Sublist.refl _) rfl _ ?_
  intro blob hused hunused
  unfold Pool.uses at hused hunused
  rw [Bool.or_eq_false_iff] at hunused
  rw [Bool.or_eq_true] at hused
  rcases hused with howner | hlease
  · obtain ⟨owner, howner, hblob⟩ := List.any_eq_true.1 howner
    rw [mem_blobsOf]
    by_contra hnot
    refine List.any_eq_false.1 hunused.1 owner ?_ hblob
    rw [List.mem_filter, decide_eq_true_eq]
    refine ⟨howner, fun hkey => hnot ?_⟩
    rw [← hkey, ← of_decide_eq_true hblob]
    exact howner
  · rw [hunused.2] at hlease
    cases hlease

omit [DecidableEq κ] in
theorem shrinks_dropLeases (p : Pool κ ℓ β π) : Shrinks p p.dropLeases := by
  refine shrinks_sweep (p := p) (q := { p with leases := [] }) (List.Sublist.refl _)
    (List.nil_sublist _) rfl _ ?_
  intro blob hused hunused
  unfold Pool.uses at hused hunused
  rw [Bool.or_eq_false_iff] at hunused
  rw [Bool.or_eq_true, hunused.1] at hused
  obtain ⟨lease, hlease, hblob⟩ := List.any_eq_true.1 (hused.resolve_left (by simp))
  rw [← of_decide_eq_true hblob]
  exact List.mem_map_of_mem hlease

theorem owners_dropOwner (p : Pool κ ℓ β π) (key : κ) :
    (p.dropOwner key).owners = p.owners.filter fun owner => owner.1 ≠ key := rfl

end CopyPaste.Lib.Shared
