import Mathlib.Data.List.Basic
import Mathlib.Data.Char

/-!
Base64 in its standard alphabet, padded. A text is decoded only when it is the one that
its bytes are encoded as: whole groups, the padding at the end, and no bits left over.
-/

namespace CopyPaste.Lib.Base64

/-- The character of six bits. -/
def sextet (n : ℕ) : Char :=
  if n < 26 then Char.ofNat (n + 65)
  else if n < 52 then Char.ofNat (n + 71)
  else if n < 62 then Char.ofNat (n - 4)
  else if n = 62 then '+'
  else '/'

def value (c : Char) : Option ℕ :=
  if 65 ≤ c.toNat ∧ c.toNat ≤ 90 then some (c.toNat - 65)
  else if 97 ≤ c.toNat ∧ c.toNat ≤ 122 then some (c.toNat - 71)
  else if 48 ≤ c.toNat ∧ c.toNat ≤ 57 then some (c.toNat + 4)
  else if c = '+' then some 62
  else if c = '/' then some 63
  else none

def encode : List UInt8 → List Char
  | [] => []
  | [a] => [sextet (a.toNat / 4), sextet (a.toNat % 4 * 16), '=', '=']
  | [a, b] =>
    [sextet (a.toNat / 4), sextet (a.toNat % 4 * 16 + b.toNat / 16), sextet (b.toNat % 16 * 4), '=']
  | a :: b :: c :: rest =>
    sextet (a.toNat / 4) :: sextet (a.toNat % 4 * 16 + b.toNat / 16) ::
      sextet (b.toNat % 16 * 4 + c.toNat / 64) :: sextet (c.toNat % 64) :: encode rest

/-- One byte of two characters. -/
def decodeOne (p q : Char) : Option (List UInt8) := do
  let x ← value p
  let y ← value q
  if y % 16 = 0 then some [.ofNat (x * 4 + y / 16)] else none

def decodeTwo (p q r : Char) : Option (List UInt8) := do
  let x ← value p
  let y ← value q
  let z ← value r
  if z % 4 = 0 then some [.ofNat (x * 4 + y / 16), .ofNat (y % 16 * 16 + z / 4)] else none

def decodeThree (p q r s : Char) : Option (List UInt8) := do
  let x ← value p
  let y ← value q
  let z ← value r
  let w ← value s
  some [.ofNat (x * 4 + y / 16), .ofNat (y % 16 * 16 + z / 4), .ofNat (z % 4 * 64 + w)]

def decode : List Char → Option (List UInt8)
  | [] => some []
  | p :: q :: r :: s :: rest =>
    if s = '=' then
      if rest ≠ [] then none
      else if r = '=' then decodeOne p q
      else decodeTwo p q r
    else do
      let group ← decodeThree p q r s
      let others ← decode rest
      return group ++ others
  | _ => none

theorem value_sextet : ∀ n < 64, value (sextet n) = some n := by decide

theorem sextet_ne_pad : ∀ n < 64, sextet n ≠ '=' := by decide

theorem sextet_value {c : Char} {n : ℕ} (h : value c = some n) : n < 64 ∧ sextet n = c := by
  have hchar := Char.ofNat_toNat c
  unfold value at h
  split at h
  · obtain rfl := Option.some.inj h
    refine ⟨by omega, ?_⟩
    rw [sextet, if_pos (by omega), Nat.sub_add_cancel (by omega), hchar]
  split at h
  · obtain rfl := Option.some.inj h
    refine ⟨by omega, ?_⟩
    rw [sextet, if_neg (by omega), if_pos (by omega), Nat.sub_add_cancel (by omega), hchar]
  split at h
  · obtain rfl := Option.some.inj h
    refine ⟨by omega, ?_⟩
    rw [sextet, if_neg (by omega), if_neg (by omega), if_pos (by omega), Nat.add_sub_cancel, hchar]
  split at h
  · next hplus =>
    obtain rfl := Option.some.inj h
    exact ⟨by omega, hplus.symm⟩
  split at h
  · next hslash =>
    obtain rfl := Option.some.inj h
    exact ⟨by omega, hslash.symm⟩
  · cases h

theorem decode_encode (bytes : List UInt8) : decode (encode bytes) = some bytes := by
  induction bytes using encode.induct with
  | case1 => rfl
  | case2 a =>
    have ha := a.toNat_lt
    have hback : a.toNat / 4 * 4 + a.toNat % 4 * 16 / 16 = a.toNat := by omega
    simp only [encode, decode, if_true, ne_eq, not_true_eq_false, if_false, decodeOne,
      value_sextet (a.toNat / 4) (by omega), value_sextet (a.toNat % 4 * 16) (by omega),
      Option.bind_eq_bind, Option.bind_some, hback, UInt8.ofNat_toNat]
    rw [if_pos (by omega)]
  | case3 a b =>
    have ha := a.toNat_lt
    have hb := b.toNat_lt
    have hfirst : a.toNat / 4 * 4 + (a.toNat % 4 * 16 + b.toNat / 16) / 16 = a.toNat := by omega
    have hsecond : (a.toNat % 4 * 16 + b.toNat / 16) % 16 * 16 + b.toNat % 16 * 4 / 4 =
        b.toNat := by omega
    simp only [encode, decode, if_true, ne_eq, not_true_eq_false, if_false, decodeTwo,
      sextet_ne_pad (b.toNat % 16 * 4) (by omega),
      value_sextet (a.toNat / 4) (by omega),
      value_sextet (a.toNat % 4 * 16 + b.toNat / 16) (by omega),
      value_sextet (b.toNat % 16 * 4) (by omega),
      Option.bind_eq_bind, Option.bind_some, hfirst, hsecond, UInt8.ofNat_toNat]
    rw [if_pos (by omega)]
  | case4 a b c rest ih =>
    have ha := a.toNat_lt
    have hb := b.toNat_lt
    have hc := c.toNat_lt
    have hfirst : a.toNat / 4 * 4 + (a.toNat % 4 * 16 + b.toNat / 16) / 16 = a.toNat := by omega
    have hsecond : (a.toNat % 4 * 16 + b.toNat / 16) % 16 * 16 +
        (b.toNat % 16 * 4 + c.toNat / 64) / 4 = b.toNat := by omega
    have hthird : (b.toNat % 16 * 4 + c.toNat / 64) % 4 * 64 + c.toNat % 64 = c.toNat := by omega
    simp only [encode, decode, if_false, decodeThree, ih,
      sextet_ne_pad (c.toNat % 64) (by omega),
      value_sextet (a.toNat / 4) (by omega),
      value_sextet (a.toNat % 4 * 16 + b.toNat / 16) (by omega),
      value_sextet (b.toNat % 16 * 4 + c.toNat / 64) (by omega),
      value_sextet (c.toNat % 64) (by omega),
      Option.bind_eq_bind, Option.bind_some, hfirst, hsecond, hthird, UInt8.ofNat_toNat]
    rfl

variable {bytes : List UInt8}

theorem decodeOne_canonical {p q : Char} (h : decodeOne p q = some bytes) :
    encode bytes = [p, q, '=', '='] := by
  simp only [decodeOne, Option.bind_eq_bind, Option.bind_eq_some_iff] at h
  obtain ⟨x, hx, y, hy, hbytes⟩ := h
  split at hbytes
  · next hrest =>
    obtain rfl := Option.some.inj hbytes
    obtain ⟨hxlt, hp⟩ := sextet_value hx
    obtain ⟨hylt, hq⟩ := sextet_value hy
    have hbyte : (UInt8.ofNat (x * 4 + y / 16)).toNat = x * 4 + y / 16 := by
      rw [UInt8.toNat_ofNat']
      omega
    have hhigh : (x * 4 + y / 16) / 4 = x := by omega
    have hlow : (x * 4 + y / 16) % 4 * 16 = y := by omega
    rw [encode, hbyte, hhigh, hlow, hp, hq]
  · cases hbytes

theorem decodeTwo_canonical {p q r : Char} (h : decodeTwo p q r = some bytes) :
    encode bytes = [p, q, r, '='] := by
  simp only [decodeTwo, Option.bind_eq_bind, Option.bind_eq_some_iff] at h
  obtain ⟨x, hx, y, hy, z, hz, hbytes⟩ := h
  split at hbytes
  · next hrest =>
    obtain rfl := Option.some.inj hbytes
    obtain ⟨hxlt, hp⟩ := sextet_value hx
    obtain ⟨hylt, hq⟩ := sextet_value hy
    obtain ⟨hzlt, hr⟩ := sextet_value hz
    have hfirst : (UInt8.ofNat (x * 4 + y / 16)).toNat = x * 4 + y / 16 := by
      rw [UInt8.toNat_ofNat']
      omega
    have hsecond : (UInt8.ofNat (y % 16 * 16 + z / 4)).toNat = y % 16 * 16 + z / 4 := by
      rw [UInt8.toNat_ofNat']
      omega
    have hhigh : (x * 4 + y / 16) / 4 = x := by omega
    have hmiddle : (x * 4 + y / 16) % 4 * 16 + (y % 16 * 16 + z / 4) / 16 = y := by omega
    have hlow : (y % 16 * 16 + z / 4) % 16 * 4 = z := by omega
    rw [encode, hfirst, hsecond, hhigh, hmiddle, hlow, hp, hq, hr]
  · cases hbytes

theorem decodeThree_canonical {p q r s : Char} {group rest : List UInt8}
    (h : decodeThree p q r s = some group) :
    encode (group ++ rest) = p :: q :: r :: s :: encode rest := by
  simp only [decodeThree, Option.bind_eq_bind, Option.bind_eq_some_iff, Option.some.injEq] at h
  obtain ⟨x, hx, y, hy, z, hz, w, hw, rfl⟩ := h
  obtain ⟨hxlt, hp⟩ := sextet_value hx
  obtain ⟨hylt, hq⟩ := sextet_value hy
  obtain ⟨hzlt, hr⟩ := sextet_value hz
  obtain ⟨hwlt, hs⟩ := sextet_value hw
  have hfirst : (UInt8.ofNat (x * 4 + y / 16)).toNat = x * 4 + y / 16 := by
    rw [UInt8.toNat_ofNat']
    omega
  have hsecond : (UInt8.ofNat (y % 16 * 16 + z / 4)).toNat = y % 16 * 16 + z / 4 := by
    rw [UInt8.toNat_ofNat']
    omega
  have hthird : (UInt8.ofNat (z % 4 * 64 + w)).toNat = z % 4 * 64 + w := by
    rw [UInt8.toNat_ofNat']
    omega
  have hx' : (x * 4 + y / 16) / 4 = x := by omega
  have hy' : (x * 4 + y / 16) % 4 * 16 + (y % 16 * 16 + z / 4) / 16 = y := by omega
  have hz' : (y % 16 * 16 + z / 4) % 16 * 4 + (z % 4 * 64 + w) / 64 = z := by omega
  have hw' : (z % 4 * 64 + w) % 64 = w := by omega
  simp only [List.cons_append, List.nil_append]
  rw [encode, hfirst, hsecond, hthird, hx', hy', hz', hw', hp, hq, hr, hs]

/-- Bytes have one text. -/
theorem encode_decode {text : List Char} (h : decode text = some bytes) : encode bytes = text := by
  induction text using decode.induct generalizing bytes with
  | case1 =>
    obtain rfl := Option.some.inj h
    rfl
  | case2 p q r rest hrest =>
    rw [decode, if_pos rfl, if_pos hrest] at h
    cases h
  | case3 p q rest hrest =>
    obtain rfl := not_not.1 hrest
    rw [decode, if_pos rfl, if_neg hrest, if_pos rfl] at h
    exact decodeOne_canonical h
  | case4 p q r rest hrest hr =>
    obtain rfl := not_not.1 hrest
    rw [decode, if_pos rfl, if_neg hrest, if_neg hr] at h
    exact decodeTwo_canonical h
  | case5 p q r s rest hs ih =>
    rw [decode, if_neg hs] at h
    simp only [Option.bind_eq_bind, Option.bind_eq_some_iff, Option.pure_def,
      Option.some.injEq] at h
    obtain ⟨group, hgroup, others, hothers, rfl⟩ := h
    rw [decodeThree_canonical hgroup, ih hothers]
  | case6 text hnil hgroup =>
    rw [decode] at h
    · cases h
    · exact hnil
    · exact hgroup

end CopyPaste.Lib.Base64
