/-!
# Text in UTF-8

Bytes are read as text one character at a time. Bytes that do not encode a
character are read as U+FFFD, one for each longest start of an encoding that goes
wrong; `decodeLossy` therefore never fails. Text that must be in UTF-8 is read by
`String.fromUTF8?`.
-/

namespace ChaiBind.Text

/-- What has been read of the encoding of a character. -/
inductive Decoding
  | start
  /-- `left` more bytes are needed; the next one lies between `low` and `high`, those after it
  between 80 and BF. `value` is what the bytes so far give. -/
  | inside (left low high value : Nat)
deriving DecidableEq, Repr

namespace Decoding

/-- What the first byte of an encoding gives: the character, or what has to follow. -/
def first (b : Nat) : List Char × Decoding :=
  if b < 0x80 then ([Char.ofNat b], .start)
  else if 0xC2 ≤ b && b ≤ 0xDF then ([], .inside 1 0x80 0xBF (b - 0xC0))
  else if b = 0xE0 then ([], .inside 2 0xA0 0xBF 0)
  else if b = 0xED then ([], .inside 2 0x80 0x9F (b - 0xE0))
  else if 0xE1 ≤ b && b ≤ 0xEF then ([], .inside 2 0x80 0xBF (b - 0xE0))
  else if b = 0xF0 then ([], .inside 3 0x90 0xBF 0)
  else if 0xF1 ≤ b && b ≤ 0xF3 then ([], .inside 3 0x80 0xBF (b - 0xF0))
  else if b = 0xF4 then ([], .inside 3 0x80 0x8F (b - 0xF0))
  else (['\uFFFD'], .start)

/-- The characters that a byte completes or spoils, and what has been read after it. -/
def step (d : Decoding) (b : Nat) : List Char × Decoding :=
  match d with
  | .start => first b
  | .inside left low high value =>
    if low ≤ b && b ≤ high then
      let value := value * 64 + (b - 0x80)
      if left ≤ 1 then ([Char.ofNat value], .start) else ([], .inside (left - 1) 0x80 0xBF value)
    else ('\uFFFD' :: (first b).1, (first b).2)

/-- What an encoding that the text breaks off is read as. -/
def rest : Decoding → List Char
  | .start => []
  | .inside .. => ['\uFFFD']

end Decoding

/-- The characters that bytes give, from a state on. -/
def decodeFrom (d : Decoding) : List UInt8 → List Char
  | [] => d.rest
  | b :: bs => (d.step b.toNat).1 ++ decodeFrom (d.step b.toNat).2 bs

/-- The text of some bytes, with U+FFFD where they are not in UTF-8. -/
def decodeLossy (bytes : ByteArray) : String := String.ofList (decodeFrom .start bytes.toList)

end ChaiBind.Text
