/-! # Texts as bytes

Offsets count the bytes of a text in UTF-8.

* `bytes`, `byteLength`: the bytes of a text, and how many there are.
* `slice?`: the part of a text between two offsets. There is none if the offsets are in the wrong
  order, or if one of them lies within a character or past the end.
-/

namespace TranslationAudit.Text

def bytes (s : List Char) : List UInt8 := s.flatMap String.utf8EncodeChar

def byteLength (s : List Char) : Nat := (bytes s).length

/-- The parts of a text before and after an offset, unless the offset lies within a character or
past the end. -/
def splitAtByte? : Nat → List Char → Option (List Char × List Char)
  | 0, s => some ([], s)
  | _ + 1, [] => none
  | offset + 1, c :: s =>
    if c.utf8Size ≤ offset + 1 then
      (splitAtByte? (offset + 1 - c.utf8Size) s).map fun (a, b) => (c :: a, b)
    else none

def slice? (s : List Char) (start stop : Nat) : Option (List Char) :=
  if start ≤ stop then do
    let (_, rest) ← splitAtByte? start s
    let (part, _) ← splitAtByte? (stop - start) rest
    return part
  else none

end TranslationAudit.Text
