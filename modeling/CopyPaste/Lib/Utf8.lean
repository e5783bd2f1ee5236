import Mathlib.Data.List.Basic
import Mathlib.Data.Char

/-!
Pieces of UTF-8. Bytes are verified one after the other; where they end inside a
character, what was verified before it is text and the rest could still become one. Cut
anywhere, the bytes of a text give the characters that fit before the cut, and a place
where no continuation byte stands is between characters.
-/

namespace CopyPaste.Lib.Utf8

def encode (text : List Char) : List UInt8 :=
  text.flatMap String.utf8EncodeChar

/-- How many bytes a character still owes, and the range of the next one. -/
structure Expect where
  owed : ℕ
  low : ℕ
  high : ℕ
  deriving DecidableEq

/-- Between characters. -/
def Expect.start : Expect := ⟨0, 0x80, 0xBF⟩

/-- What the first byte of a character calls for. -/
def lead (b : ℕ) : Option Expect :=
  if b < 0x80 then some .start
  else if 0xC2 ≤ b ∧ b ≤ 0xDF then some ⟨1, 0x80, 0xBF⟩
  else if b = 0xE0 then some ⟨2, 0xA0, 0xBF⟩
  else if b = 0xED then some ⟨2, 0x80, 0x9F⟩
  else if 0xE1 ≤ b ∧ b ≤ 0xEF then some ⟨2, 0x80, 0xBF⟩
  else if b = 0xF0 then some ⟨3, 0x90, 0xBF⟩
  else if 0xF1 ≤ b ∧ b ≤ 0xF3 then some ⟨3, 0x80, 0xBF⟩
  else if b = 0xF4 then some ⟨3, 0x80, 0x8F⟩
  else none

def next (expect : Expect) (b : ℕ) : Option Expect :=
  if expect.owed = 0 then lead b
  else if expect.low ≤ b ∧ b ≤ expect.high then some ⟨expect.owed - 1, 0x80, 0xBF⟩
  else none

/-- What verifying bytes comes to: all of them are text, or they are up to a place,
behind which they end too early or cannot go on. -/
inductive Verdict
  | valid
  | incomplete (validUpTo : ℕ)
  | invalid (validUpTo : ℕ)
  deriving DecidableEq

def scan (seen verified : ℕ) (expect : Expect) : List UInt8 → Verdict
  | [] => if expect.owed = 0 then .valid else .incomplete verified
  | b :: rest =>
    match next expect b.toNat with
    | none => .invalid verified
    | some after =>
      scan (seen + 1) (if after.owed = 0 then seen + 1 else verified) after rest

def fromUtf8 (bytes : List UInt8) : Verdict :=
  scan 0 0 .start bytes

def isContinuation (b : UInt8) : Bool :=
  decide (0x80 ≤ b.toNat ∧ b.toNat ≤ 0xBF)

def isCharBoundary (bytes : List UInt8) (index : ℕ) : Bool :=
  index = 0 || index = bytes.length || (bytes[index]?.any (!isContinuation ·))

/-- What a proper beginning of some bytes leads to, and what all of them do. -/
inductive Walks : Expect → List UInt8 → Prop
  | done {expect : Expect} (b : UInt8) (ends : next expect b.toNat = some .start) :
    Walks expect [b]
  | step {expect after : Expect} (b : UInt8) {rest : List UInt8}
    (goes : next expect b.toNat = some after) (owes : after.owed ≠ 0) (walks : Walks after rest) :
    Walks expect (b :: rest)

variable {expect : Expect} {bytes : List UInt8}

theorem next_tail {b : ℕ} (howed : expect.owed ≠ 0) (hrange : expect.low ≤ b ∧ b ≤ expect.high) :
    next expect b = some ⟨expect.owed - 1, 0x80, 0xBF⟩ := by
  rw [next, if_neg howed, if_pos hrange]

theorem toNat_ofNat {n : ℕ} (h : n < 256) : (UInt8.ofNat n).toNat = n := by
  rw [UInt8.toNat_ofNat']
  omega

theorem valid_char (c : Char) : c.toNat < 0xD800 ∨ 0xDFFF < c.toNat ∧ c.toNat < 0x110000 := by
  have hvalid := c.valid
  exact hvalid

theorem lead_three {b second : ℕ} (hb : 0xE0 ≤ b ∧ b ≤ 0xEF) (hsecond : 0x80 ≤ second ∧ second ≤ 0xBF)
    (hlow : b = 0xE0 → 0xA0 ≤ second) (hhigh : b = 0xED → second ≤ 0x9F) :
    ∃ low high, lead b = some ⟨2, low, high⟩ ∧ low ≤ second ∧ second ≤ high := by
  unfold lead
  rw [if_neg (by omega), if_neg (by omega)]
  split
  · next heq => exact ⟨_, _, rfl, hlow heq, hsecond.2⟩
  · split
    · next heq => exact ⟨_, _, rfl, hsecond.1, hhigh heq⟩
    · rw [if_pos (by omega)]
      exact ⟨_, _, rfl, hsecond.1, hsecond.2⟩

theorem lead_four {b second : ℕ} (hb : 0xF0 ≤ b ∧ b ≤ 0xF4) (hsecond : 0x80 ≤ second ∧ second ≤ 0xBF)
    (hlow : b = 0xF0 → 0x90 ≤ second) (hhigh : b = 0xF4 → second ≤ 0x8F) :
    ∃ low high, lead b = some ⟨3, low, high⟩ ∧ low ≤ second ∧ second ≤ high := by
  unfold lead
  rw [if_neg (by omega), if_neg (by omega), if_neg (by omega), if_neg (by omega),
    if_neg (by omega)]
  split
  · next heq => exact ⟨_, _, rfl, hlow heq, hsecond.2⟩
  · split
    · exact ⟨_, _, rfl, hsecond.1, hsecond.2⟩
    · rw [if_pos (by omega)]
      exact ⟨_, _, rfl, hsecond.1, hhigh (by omega)⟩

/-- The bytes of a character are one walk from its start. -/
theorem walks_char (c : Char) : Walks .start (String.utf8EncodeChar c) := by
  have hvalid := valid_char c
  have hval : c.val.toNat = c.toNat := rfl
  have hstart : ∀ b, next .start b = lead b := fun b => rfl
  unfold String.utf8EncodeChar
  dsimp only
  rw [hval]
  generalize c.toNat = v at hvalid ⊢
  have htail : ∀ {owed n : ℕ}, owed ≠ 0 →
      next ⟨owed, 0x80, 0xBF⟩ (UInt8.ofNat (n % 0x40 + 0x80)).toNat =
        some ⟨owed - 1, 0x80, 0xBF⟩ := by
    intro owed n howed
    rw [toNat_ofNat (by omega)]
    exact next_tail howed (by dsimp only; omega)
  split
  · next hone =>
    refine Walks.done _ ?_
    rw [toNat_ofNat (by omega), hstart, lead, if_pos (by omega)]
  · next hone =>
    split
    · next htwo =>
      have hlead : lead (UInt8.ofNat (v / 64 % 0x20 + 0xc0)).toNat = some ⟨1, 0x80, 0xBF⟩ := by
        rw [toNat_ofNat (by omega), lead, if_neg (by omega), if_pos (by omega)]
      exact Walks.step _ ((hstart _).trans hlead) (by decide)
        (Walks.done _ (htail (by decide)))
    · next htwo =>
      split
      · next hthree =>
        obtain ⟨low, high, hlead, hlow, hhigh⟩ := @lead_three (v / 4096 % 0x10 + 0xe0)
          (v / 64 % 0x40 + 0x80) (by omega) (by omega) (by omega) (by omega)
        have hfirst : next .start (UInt8.ofNat (v / 4096 % 0x10 + 0xe0)).toNat =
            some ⟨2, low, high⟩ := by
          rw [toNat_ofNat (by omega), hstart, hlead]
        have hsecond : next ⟨2, low, high⟩ (UInt8.ofNat (v / 64 % 0x40 + 0x80)).toNat =
            some ⟨1, 0x80, 0xBF⟩ := by
          rw [toNat_ofNat (by omega)]
          exact next_tail (by simp) ⟨hlow, hhigh⟩
        have hthird := @htail 1 v (by decide)
        exact Walks.step _ hfirst (by simp) (Walks.step _ hsecond (by decide) (Walks.done _ hthird))
      · next hthree =>
        obtain ⟨low, high, hlead, hlow, hhigh⟩ := @lead_four (v / 262144 % 0x08 + 0xf0)
          (v / 4096 % 0x40 + 0x80) (by omega) (by omega) (by omega) (by omega)
        have hfirst : next .start (UInt8.ofNat (v / 262144 % 0x08 + 0xf0)).toNat =
            some ⟨3, low, high⟩ := by
          rw [toNat_ofNat (by omega), hstart, hlead]
        have hsecond : next ⟨3, low, high⟩ (UInt8.ofNat (v / 4096 % 0x40 + 0x80)).toNat =
            some ⟨2, 0x80, 0xBF⟩ := by
          rw [toNat_ofNat (by omega)]
          exact next_tail (by simp) ⟨hlow, hhigh⟩
        have hthird := @htail 2 (v / 64) (by decide)
        have hfourth := @htail 1 v (by decide)
        exact Walks.step _ hfirst (by simp) (Walks.step _ hsecond (by decide)
          (Walks.step _ hthird (by decide) (Walks.done _ hfourth)))

/-- Between the bytes of a walk something is owed. -/
theorem scan_walk (h : Walks expect bytes) (seen verified : ℕ) (rest : List UInt8) :
    scan seen verified expect (bytes ++ rest) =
      scan (seen + bytes.length) (seen + bytes.length) .start rest := by
  induction h generalizing seen with
  | done b ends =>
    rw [List.singleton_append, scan, ends, List.length_singleton]
    rfl
  | step b goes owes walks ih =>
    rw [List.cons_append, scan, goes, List.length_cons]
    dsimp only
    rw [if_neg owes, ih]
    congr 1 <;> omega

theorem scan_part {part : List UInt8} (h : Walks expect bytes) (hpart : part <+: bytes)
    (hproper : part ≠ bytes) (hstart : part = [] → expect.owed ≠ 0) (seen verified : ℕ) :
    scan seen verified expect part = .incomplete verified := by
  induction h generalizing part seen with
  | done b ends =>
    cases part with
    | nil => rw [scan, if_neg (hstart rfl)]
    | cons d part =>
      obtain ⟨rfl, hnil⟩ := List.cons_prefix_cons.1 hpart
      rw [List.prefix_nil.1 hnil] at hproper
      exact absurd rfl hproper
  | step b goes owes walks ih =>
    cases part with
    | nil => rw [scan, if_neg (hstart rfl)]
    | cons d part =>
      obtain ⟨rfl, hrest⟩ := List.cons_prefix_cons.1 hpart
      rw [scan, goes]
      dsimp only
      rw [if_neg owes]
      exact ih hrest (fun heq => hproper (heq ▸ rfl)) (fun _ => owes) (seen + 1)

theorem encode_cons (c : Char) (text : List Char) :
    encode (c :: text) = String.utf8EncodeChar c ++ encode text :=
  List.flatMap_cons

theorem encode_append (text other : List Char) : encode (text ++ other) = encode text ++ encode other :=
  List.flatMap_append

theorem scan_encode (text : List Char) (seen : ℕ) (rest : List UInt8) :
    scan seen seen .start (encode text ++ rest) =
      scan (seen + (encode text).length) (seen + (encode text).length) .start rest := by
  induction text generalizing seen with
  | nil => rfl
  | cons c text ih =>
    rw [encode_cons, List.append_assoc, scan_walk (walks_char c), ih, List.length_append,
      Nat.add_assoc]

theorem length_char (c : Char) :
    0 < (String.utf8EncodeChar c).length ∧ (String.utf8EncodeChar c).length ≤ 4 := by
  rw [String.length_utf8EncodeChar]
  exact ⟨c.utf8Size_pos, c.utf8Size_le_four⟩

/-- What is left of a text before a cut: whole characters, and the beginning of the next. -/
theorem take_encode (text : List Char) (n : ℕ) :
    ∃ kept others part, text = kept ++ others ∧ (encode text).take n = encode kept ++ part ∧
      (part = [] ∧ (others = [] ∨ (encode kept).length = n) ∨
        ∃ c rest, others = c :: rest ∧ part <+: String.utf8EncodeChar c ∧
          part ≠ String.utf8EncodeChar c ∧ part ≠ [] ∧ (encode kept).length + part.length = n) := by
  induction text generalizing n with
  | nil => exact ⟨[], [], [], rfl, List.take_nil, Or.inl ⟨rfl, Or.inl rfl⟩⟩
  | cons c text ih =>
    by_cases hfits : (String.utf8EncodeChar c).length ≤ n
    · obtain ⟨kept, others, part, htext, htake, hpart⟩ := ih (n - (String.utf8EncodeChar c).length)
      refine ⟨c :: kept, others, part, by rw [htext, List.cons_append], ?_, ?_⟩
      · rw [encode_cons, List.take_append, List.take_of_length_le hfits, htake, encode_cons,
          List.append_assoc]
      · rw [encode_cons, List.length_append]
        rcases hpart with ⟨hnil, hend⟩ | ⟨d, rest, hothers, hfront, hproper, hne, hlength⟩
        · refine Or.inl ⟨hnil, hend.imp id fun hlength => ?_⟩
          omega
        · refine Or.inr ⟨d, rest, hothers, hfront, hproper, hne, ?_⟩
          omega
    · refine ⟨[], c :: text, (String.utf8EncodeChar c).take n, rfl, ?_, ?_⟩
      · rw [encode_cons, List.take_append_of_le_length (by omega)]
        rfl
      · by_cases hzero : n = 0
        · subst hzero
          exact Or.inl ⟨List.take_zero, Or.inr rfl⟩
        · right
          have hlength : ((String.utf8EncodeChar c).take n).length = n := by
            rw [List.length_take]
            omega
          refine ⟨c, text, rfl, List.take_prefix _ _, fun heq => ?_, fun hnil => ?_, ?_⟩
          · rw [heq] at hlength
            omega
          · rw [hnil, List.length_nil] at hlength
            omega
          · rw [hlength]
            exact Nat.zero_add n

/-- The bytes of a text before a cut, as verifying sees them: the characters that fit, and
nothing or less than a character behind them. -/
theorem fromUtf8_take (text : List Char) (n : ℕ) :
    ∃ kept others, text = kept ++ others ∧ (encode kept).length ≤ n ∧
      (others = [] ∨ n < (encode kept).length + 4) ∧
      (fromUtf8 ((encode text).take n) = .valid ∧ (encode text).take n = encode kept ∨
        fromUtf8 ((encode text).take n) = .incomplete (encode kept).length ∧
          ((encode text).take n).take (encode kept).length = encode kept) := by
  obtain ⟨kept, others, part, htext, htake, hpart⟩ := take_encode text n
  have hscan : fromUtf8 ((encode text).take n) =
      scan (encode kept).length (encode kept).length .start part := by
    rw [htake, fromUtf8, scan_encode, Nat.zero_add]
  have hlength : ((encode text).take n).length = (encode kept).length + part.length := by
    rw [htake, List.length_append]
  have hle : ((encode text).take n).length ≤ n := List.length_take_le _ _
  refine ⟨kept, others, htext, by omega, ?_, ?_⟩
  · rcases hpart with ⟨-, hend⟩ | ⟨c, rest, hothers, hfront, hproper, hne, hsum⟩
    · exact hend.imp id fun hend => by omega
    · right
      have hshort := hfront.length_le
      have hchar := (length_char c).2
      have hdiffer : part.length ≠ (String.utf8EncodeChar c).length := fun heq =>
        hproper (hfront.eq_of_length heq)
      omega
  · rcases hpart with ⟨rfl, -⟩ | ⟨c, rest, hothers, hfront, hproper, hne, hsum⟩
    · left
      rw [hscan, htake, List.append_nil]
      exact ⟨rfl, rfl⟩
    · right
      rw [hscan, htake, List.take_left]
      exact ⟨scan_part (walks_char c) hfront hproper (fun hnil => absurd hnil hne) _ _, rfl⟩

/-- A character starts with a byte that is no continuation, and the rest of it are. -/
theorem char_bytes (c : Char) : ∃ b rest, String.utf8EncodeChar c = b :: rest ∧
    isContinuation b = false ∧ ∀ d ∈ rest, isContinuation d = true := by
  have hvalid := valid_char c
  have hval : c.val.toNat = c.toNat := rfl
  have htail : ∀ n, isContinuation (UInt8.ofNat (n % 0x40 + 0x80)) = true := by
    intro n
    rw [isContinuation, toNat_ofNat (by omega), decide_eq_true_eq]
    omega
  have hlead : ∀ {n}, n < 256 → n < 0x80 ∨ 0xBF < n →
      isContinuation (UInt8.ofNat n) = false := by
    intro n hbyte hn
    rw [isContinuation, toNat_ofNat hbyte, decide_eq_false_iff_not]
    omega
  have hmore : ∀ {n : ℕ} {rest : List UInt8}, (∀ d ∈ rest, isContinuation d = true) →
      ∀ d ∈ UInt8.ofNat (n % 0x40 + 0x80) :: rest, isContinuation d = true := by
    intro n rest hrest d hd
    rcases List.mem_cons.1 hd with rfl | hd
    · exact htail n
    · exact hrest d hd
  have hone : ∀ n, ∀ d ∈ [UInt8.ofNat (n % 0x40 + 0x80)], isContinuation d = true :=
    fun n => hmore fun d hd => absurd hd List.not_mem_nil
  unfold String.utf8EncodeChar
  dsimp only
  rw [hval]
  generalize c.toNat = v at hvalid ⊢
  split
  · exact ⟨_, _, rfl, hlead (by omega) (by omega), fun d hd => absurd hd List.not_mem_nil⟩
  · split
    · exact ⟨_, _, rfl, hlead (by omega) (by omega), hone _⟩
    · split
      · exact ⟨_, _, rfl, hlead (by omega) (by omega), hmore (hone _)⟩
      · exact ⟨_, _, rfl, hlead (by omega) (by omega), hmore (hmore (hone _))⟩

theorem isCharBoundary_iff (text : List Char) (index : ℕ) :
    isCharBoundary (encode text) index = true ↔
      ∃ kept others, text = kept ++ others ∧ (encode kept).length = index := by
  constructor
  · intro h
    induction text generalizing index with
    | nil =>
      simp only [isCharBoundary, encode, List.flatMap_nil, List.length_nil, List.getElem?_nil,
        Option.any_none, Bool.or_false, Bool.or_self, decide_eq_true_eq] at h
      exact ⟨[], [], rfl, h.symm⟩
    | cons c text ih =>
      obtain ⟨b, rest, hbytes, hb, hrest⟩ := char_bytes c
      by_cases hzero : index = 0
      · exact ⟨[], c :: text, rfl, hzero.symm⟩
      · have hinside : (String.utf8EncodeChar c).length ≤ index := by
          by_contra hlt
          have hlength : index ≠ (encode (c :: text)).length := by
            rw [encode_cons, List.length_append]
            omega
          simp only [isCharBoundary, hzero, hlength, decide_false, Bool.false_or] at h
          rw [encode_cons, List.getElem?_append_left (by omega), hbytes] at h
          obtain ⟨k, rfl⟩ := Nat.exists_eq_succ_of_ne_zero hzero
          rw [List.getElem?_cons_succ] at h
          obtain ⟨d, hd, hnot⟩ := (Option.any_eq_true _ _).1 h
          rw [hrest d (List.mem_of_getElem? hd)] at hnot
          cases hnot
        obtain ⟨kept, others, htext, hkept⟩ := ih (index - (String.utf8EncodeChar c).length) (by
          have hsum : (encode (c :: text)).length =
              (String.utf8EncodeChar c).length + (encode text).length := by
            rw [encode_cons, List.length_append]
          simp only [isCharBoundary, Bool.or_eq_true, decide_eq_true_eq] at h ⊢
          rcases h with (hz | hend) | hbyte
          · exact absurd hz hzero
          · left
            right
            omega
          · right
            rwa [encode_cons, List.getElem?_append_right hinside] at hbyte)
        refine ⟨c :: kept, others, by rw [htext, List.cons_append], ?_⟩
        rw [encode_cons, List.length_append, hkept]
        omega
  · rintro ⟨kept, others, rfl, rfl⟩
    simp only [isCharBoundary, Bool.or_eq_true, decide_eq_true_eq]
    cases others with
    | nil =>
      left
      right
      rw [List.append_nil]
    | cons c others =>
      right
      obtain ⟨b, rest, hbytes, hb, -⟩ := char_bytes c
      rw [encode_append, List.getElem?_append_right (Nat.le_refl _), Nat.sub_self, encode_cons,
        hbytes, List.cons_append, List.getElem?_cons_zero, Option.any_some, hb]
      rfl

/-- The last place between characters that is not behind an index. -/
def floorBoundary (bytes : List UInt8) : ℕ → ℕ
  | 0 => 0
  | index + 1 =>
    if isCharBoundary bytes (index + 1) then index + 1 else floorBoundary bytes index

theorem floorBoundary_le (bytes : List UInt8) (index : ℕ) : floorBoundary bytes index ≤ index := by
  induction index with
  | zero => exact Nat.le_refl 0
  | succ index ih =>
    rw [floorBoundary]
    split <;> omega

theorem isCharBoundary_floor (bytes : List UInt8) (index : ℕ) :
    isCharBoundary bytes (floorBoundary bytes index) = true := by
  induction index with
  | zero => rfl
  | succ index ih =>
    rw [floorBoundary]
    split
    · assumption
    · exact ih

theorem le_floorBoundary {place index : ℕ} (hle : place ≤ index)
    (h : isCharBoundary bytes place = true) : place ≤ floorBoundary bytes index := by
  induction index with
  | zero => exact hle
  | succ index ih =>
    rw [floorBoundary]
    split
    · exact hle
    · next hnot =>
      have hne : place ≠ index + 1 := fun heq => hnot (heq ▸ h)
      exact ih (by omega)

/-- Inside a text that place is less than a character before the index. -/
theorem lt_floorBoundary {text : List Char} {index : ℕ} (h : index ≤ (encode text).length) :
    index < floorBoundary (encode text) index + 4 := by
  obtain ⟨kept, others, htext, hle, hnear, -⟩ := fromUtf8_take text index
  have hboundary := (isCharBoundary_iff text (encode kept).length).2 ⟨kept, others, htext, rfl⟩
  have hfloor := le_floorBoundary hle hboundary
  rcases hnear with rfl | hnear
  · rw [List.append_nil] at htext
    rw [htext] at h
    omega
  · omega

end CopyPaste.Lib.Utf8
