import Mathlib.Data.List.Induction
import Mathlib.Tactic.Ring

/-!
Big-endian numbers and length-delimited frames over a byte stream. What was framed is
read back, and a proper part of one frame never reads as a frame.
-/

namespace CopyPaste.Lib.Frames

/-- The low bytes of a number, the most significant first. -/
def toBigEndian : ℕ → ℕ → List UInt8
  | 0, _ => []
  | width + 1, n => toBigEndian width (n / 256) ++ [UInt8.ofNat n]

def ofBigEndian (bytes : List UInt8) : ℕ :=
  bytes.foldl (fun value byte => value * 256 + byte.toNat) 0

@[simp]
theorem length_toBigEndian (width n : ℕ) : (toBigEndian width n).length = width := by
  induction width generalizing n with
  | zero => rfl
  | succ width ih => simp [toBigEndian, ih]

theorem ofBigEndian_toBigEndian {width n : ℕ} (h : n < 256 ^ width) :
    ofBigEndian (toBigEndian width n) = n := by
  induction width generalizing n with
  | zero =>
    have hzero : n = 0 := by simpa using h
    simp [toBigEndian, ofBigEndian, hzero]
  | succ width ih =>
    have hhigh : n / 256 < 256 ^ width := by
      rw [Nat.div_lt_iff_lt_mul (by omega)]
      rw [pow_succ] at h
      exact h
    have hvalue : ofBigEndian (toBigEndian width (n / 256)) = n / 256 := ih hhigh
    have hbyte : (UInt8.ofNat n).toNat = n % 256 := by simp
    unfold ofBigEndian at hvalue ⊢
    rw [toBigEndian, List.foldl_append, hvalue, List.foldl_cons, List.foldl_nil, hbyte]
    omega

theorem ofBigEndian_lt (bytes : List UInt8) : ofBigEndian bytes < 256 ^ bytes.length := by
  induction bytes using List.reverseRecOn with
  | nil => simp [ofBigEndian]
  | append_singleton bytes byte ih =>
    unfold ofBigEndian at ih ⊢
    have hbyte := byte.toNat_lt
    rw [List.foldl_append, List.foldl_cons, List.foldl_nil, List.length_append,
      List.length_singleton, pow_succ]
    omega

def headLength : ℕ := 4

/-- A payload behind its length. -/
def frame (payload : List UInt8) : List UInt8 :=
  toBigEndian headLength payload.length ++ payload

/-- What the next read of a stream that has ended gives. -/
inductive Read
  | closed
  | broken
  | frame (payload rest : List UInt8)

/-- Read one frame of at most `limit` bytes. A whole head is taken off the stream before its
body is there. A stream that then ends with nothing left is closed, between two frames or
right behind a head, and one that ends with bytes left is broken. -/
def nextFrame (limit : ℕ) (stream : List UInt8) : Read :=
  if stream = [] then .closed
  else if stream.length < headLength then .broken
  else
    let size := ofBigEndian (stream.take headLength)
    let body := stream.drop headLength
    if limit < size then .broken
    else if body.length < size then if body = [] then .closed else .broken
    else .frame (body.take size) (body.drop size)

theorem length_rest_lt {limit : ℕ} {stream payload rest : List UInt8}
    (h : nextFrame limit stream = .frame payload rest) : rest.length < stream.length := by
  unfold nextFrame at h
  split at h
  · simp at h
  split at h
  · simp at h
  rename_i hne hhead
  dsimp only at h
  split at h
  · simp at h
  split at h
  · split at h <;> simp at h
  simp only [Read.frame.injEq] at h
  rw [← h.2, List.length_drop, List.length_drop]
  unfold headLength at hhead ⊢
  omega

section

variable {limit : ℕ} {payload : List UInt8} (hlimit : payload.length ≤ limit)
  (hsmall : limit < 256 ^ headLength)

include hlimit hsmall

theorem nextFrame_frame (rest : List UInt8) :
    nextFrame limit (frame payload ++ rest) = .frame payload rest := by
  have hlength : (toBigEndian headLength payload.length).length = headLength :=
    length_toBigEndian _ _
  have hsize : ofBigEndian (toBigEndian headLength payload.length) = payload.length :=
    ofBigEndian_toBigEndian (by omega)
  have htake : (frame payload ++ rest).take headLength = toBigEndian headLength payload.length := by
    rw [frame, List.append_assoc, List.take_left' hlength]
  have hdrop : (frame payload ++ rest).drop headLength = payload ++ rest := by
    rw [frame, List.append_assoc, List.drop_left' hlength]
  have hlong : headLength ≤ (frame payload ++ rest).length := by
    rw [frame, List.length_append, List.length_append, hlength]
    omega
  unfold nextFrame
  rw [if_neg, if_neg (by omega)]
  · dsimp only
    rw [htake, hdrop, hsize, if_neg (by omega), if_neg, List.take_left' rfl,
      List.drop_left' rfl]
    rw [List.length_append]
    omega
  · intro hempty
    rw [hempty] at hlong
    simp [headLength] at hlong

/-- A proper part of a frame is not one. -/
theorem nextFrame_part {part : List UInt8} (hpart : part <+: frame payload)
    (hproper : part ≠ frame payload) :
    nextFrame limit part = .closed ∨ nextFrame limit part = .broken := by
  have hlength : (toBigEndian headLength payload.length).length = headLength :=
    length_toBigEndian _ _
  have hsize : ofBigEndian (toBigEndian headLength payload.length) = payload.length :=
    ofBigEndian_toBigEndian (by omega)
  have hshort : part.length < headLength + payload.length := by
    obtain ⟨tail, htail⟩ := hpart
    have hsum := congrArg List.length htail
    have htailne : tail ≠ [] := by
      rintro rfl
      exact hproper (by simpa using htail)
    have htailpos : 0 < tail.length := List.length_pos_iff.2 htailne
    rw [frame, List.length_append, List.length_append, hlength] at hsum
    omega
  unfold nextFrame
  by_cases hempty : part = []
  · exact Or.inl (if_pos hempty)
  rw [if_neg hempty]
  by_cases hhead : part.length < headLength
  · exact Or.inr (if_pos hhead)
  rw [if_neg hhead]
  have htake : part.take headLength = toBigEndian headLength payload.length := by
    rw [List.prefix_iff_eq_take.1 hpart, List.take_take, Nat.min_eq_left (by omega), frame,
      List.take_left' hlength]
  have hbody : (part.drop headLength).length < payload.length := by
    rw [List.length_drop]
    omega
  dsimp only
  rw [htake, hsize, if_neg (by omega), if_pos hbody]
  split
  · exact Or.inl rfl
  · exact Or.inr rfl

end

end CopyPaste.Lib.Frames
