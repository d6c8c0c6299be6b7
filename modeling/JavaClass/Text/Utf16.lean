/-!
# UTF-16

Characters as 16-bit units. A character below `0x10000` is one unit; any other is a pair of a high
and a low surrogate, each carrying ten bits. Surrogates are not characters themselves, so a
sequence of units is text only when high and low surrogates come in pairs, in that order.
-/

namespace JavaClass.Utf16

/-- The first unit of a pair. -/
def isHighSurrogate (u : UInt16) : Bool := 0xD800 ≤ u && u < 0xDC00

/-- The second unit of a pair. -/
def isLowSurrogate (u : UInt16) : Bool := 0xDC00 ≤ u && u < 0xE000

def unitsOfChar (c : Char) : List UInt16 :=
  if c.toNat < 0x10000 then
    [UInt16.ofNat c.toNat]
  else
    let offset := c.toNat - 0x10000
    [UInt16.ofNat (0xD800 + offset / 0x400), UInt16.ofNat (0xDC00 + offset % 0x400)]

def encode (s : String) : List UInt16 := s.toList.flatMap unitsOfChar

def charOfPair (high low : UInt16) : Char :=
  Char.ofNat (0x10000 + (high.toNat - 0xD800) * 0x400 + (low.toNat - 0xDC00))

/-- Reads units behind the characters already read, latest first. -/
def decodeAfter? (read : List Char) : List UInt16 → Option (List Char)
  | [] => some read.reverse
  | u :: rest =>
    if isHighSurrogate u then
      match rest with
      | [] => none
      | v :: rest => if isLowSurrogate v then decodeAfter? (charOfPair u v :: read) rest else none
    else if isLowSurrogate u then none
    else decodeAfter? (Char.ofNat u.toNat :: read) rest

/-- The text with these units, unless a surrogate stands without its partner. -/
def decode? (units : List UInt16) : Option String :=
  (decodeAfter? [] units).map String.ofList

end JavaClass.Utf16
