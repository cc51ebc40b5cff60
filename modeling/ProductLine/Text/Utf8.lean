/-!
# Reading UTF-8

Bytes are read as UTF-8 by a machine that takes one byte at a time.  Every longest run of bytes
that starts a character but cannot be completed to one, and every byte that cannot start one,
stands for a single replacement character.

* `firstByte` reads the first byte of a character, and `decodeFrom` goes on from there;
* `decode` reads a whole text.
-/
namespace ProductLine.Text

/-- A character of which the first bytes have been read. -/
structure OpenChar where
  /-- The bits that have been read. -/
  value : Nat
  /-- The number of bytes that are still to come, less one. -/
  more : Nat
  /-- The least value that the next byte may have. -/
  low : Nat
  /-- The greatest value that the next byte may have. -/
  high : Nat
deriving DecidableEq, Repr

/-- The character that stands for bytes that are no character. -/
def replacement : Char := '\uFFFD'

/-- What the first byte of a character says: the character, or what is to follow. -/
def firstByte (b : Nat) : Char ⊕ OpenChar :=
  if b < 0x80 then .inl (Char.ofNat b)
  else if 0xC2 ≤ b ∧ b ≤ 0xDF then .inr ⟨b - 0xC0, 0, 0x80, 0xBF⟩
  else if b = 0xE0 then .inr ⟨0, 1, 0xA0, 0xBF⟩
  else if b = 0xED then .inr ⟨0xD, 1, 0x80, 0x9F⟩
  else if 0xE1 ≤ b ∧ b ≤ 0xEF then .inr ⟨b - 0xE0, 1, 0x80, 0xBF⟩
  else if b = 0xF0 then .inr ⟨0, 2, 0x90, 0xBF⟩
  else if 0xF1 ≤ b ∧ b ≤ 0xF3 then .inr ⟨b - 0xF0, 2, 0x80, 0xBF⟩
  else if b = 0xF4 then .inr ⟨4, 2, 0x80, 0x8F⟩
  else .inl replacement

/-- Reads bytes, where perhaps a character is open. -/
def decodeFrom : Option OpenChar → List Nat → List Char
  | none, [] => []
  | some _, [] => [replacement]
  | none, b :: bs =>
      match firstByte b with
      | .inl c => c :: decodeFrom none bs
      | .inr o => decodeFrom (some o) bs
  | some o, b :: bs =>
      if o.low ≤ b ∧ b ≤ o.high then
        let value := o.value * 64 + (b - 0x80)
        match o.more with
        | 0 => Char.ofNat value :: decodeFrom none bs
        | n + 1 => decodeFrom (some ⟨value, n, 0x80, 0xBF⟩) bs
      else
        replacement ::
          match firstByte b with
          | .inl c => c :: decodeFrom none bs
          | .inr o => decodeFrom (some o) bs

/-- The characters that bytes stand for. -/
def decode (bytes : List UInt8) : List Char := decodeFrom none (bytes.map UInt8.toNat)

end ProductLine.Text
