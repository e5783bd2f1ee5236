import Mathlib.Data.Set.Basic

/-!
Records sealed one after another under one key and nonce. Each is bound to its position,
to whether it is the last and to some associated data. An ideal cipher opens a record that
was sealed, with what it was sealed with, and nothing else.
-/

namespace CopyPaste.Lib.Stream

variable {Key : Type*}

/-- A record before it is sealed, with all that it is bound to. -/
structure Record (Key : Type*) where
  key : Key
  nonce : List UInt8
  position : ℕ
  last : Bool
  aad : List UInt8
  plain : List UInt8

structure Cipher (Key : Type*) where
  encrypt : Record Key → List UInt8
  decrypt : Key → List UInt8 → ℕ → Bool → List UInt8 → List UInt8 → Option (List UInt8)

/-- Only the records of a set were ever sealed: they open with what they were sealed with, no
two have one ciphertext, and a ciphertext is longer by its tag. -/
structure Ideal (cipher : Cipher Key) (tag : ℕ) (made : Set (Record Key)) : Prop where
  opens_iff : ∀ {key nonce position last aad bytes plain},
    cipher.decrypt key nonce position last aad bytes = some plain ↔
      ⟨key, nonce, position, last, aad, plain⟩ ∈ made ∧
        cipher.encrypt ⟨key, nonce, position, last, aad, plain⟩ = bytes
  apart : ∀ {record other}, record ∈ made → other ∈ made →
    cipher.encrypt record = cipher.encrypt other → record = other
  length : ∀ {record}, record ∈ made → (cipher.encrypt record).length = record.plain.length + tag

end CopyPaste.Lib.Stream
