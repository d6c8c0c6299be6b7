import JavaClass.Text.ModifiedUtf8

/-!
# UTF-8, read forgivingly

Some class files hold strings in standard UTF-8, and some hold neither encoding. `readText` is the
reading that never fails: modified UTF-8 where the whole input is that, and otherwise standard
UTF-8 with the replacement character for what is not.

The standard decoder is a machine over single bytes. What it replaces is each *maximal subpart*: a
first byte together with as many of the following bytes as some well-formed sequence could
continue with; the byte that breaks a sequence is then looked at afresh as a first byte.
-/

namespace JavaClass.Utf8

/-- The character that stands for bytes that cannot be read. -/
def replacement : Char := '\ufffd'

/-- The ranges that the bytes after `lead` have to lie in, one for each; `none` when no sequence
starts with `lead`. The first range is narrower where the full one would admit an overlong
sequence, a surrogate or a number above the last code point. -/
def continuations? (lead : UInt8) : Option (List (UInt8 × UInt8)) :=
  if lead < 0x80 then some []
  else if lead < 0xC2 then none
  else if lead < 0xE0 then some [(0x80, 0xBF)]
  else if lead = 0xE0 then some [(0xA0, 0xBF), (0x80, 0xBF)]
  else if lead = 0xED then some [(0x80, 0x9F), (0x80, 0xBF)]
  else if lead < 0xF0 then some [(0x80, 0xBF), (0x80, 0xBF)]
  else if lead = 0xF0 then some [(0x90, 0xBF), (0x80, 0xBF), (0x80, 0xBF)]
  else if lead < 0xF4 then some [(0x80, 0xBF), (0x80, 0xBF), (0x80, 0xBF)]
  else if lead = 0xF4 then some [(0x80, 0x8F), (0x80, 0xBF), (0x80, 0xBF)]
  else none

/-- The bits of a code point that `lead` carries. -/
def leadBits (lead : UInt8) : Nat :=
  if lead < 0x80 then lead.toNat
  else if lead < 0xE0 then lead.toNat % 32
  else if lead < 0xF0 then lead.toNat % 16
  else lead.toNat % 8

/-- The decoder between two bytes. -/
structure Machine where
  /-- The characters read so far, latest first. -/
  read : List Char := []
  /-- The bits of the sequence that is open. -/
  bits : Nat := 0
  /-- What the open sequence still waits for; empty when none is open. -/
  expected : List (UInt8 × UInt8) := []
  deriving DecidableEq, Repr

namespace Machine

def emit (m : Machine) (c : Char) : Machine := { read := c :: m.read }

/-- Takes `b` as the first byte of a sequence. -/
def start (m : Machine) (b : UInt8) : Machine :=
  match continuations? b with
  | none => m.emit replacement
  | some [] => m.emit (Char.ofNat b.toNat)
  | some expected => { m with bits := leadBits b, expected }

/-- Takes the next byte, inside a sequence if it fits there. -/
def feed (m : Machine) (b : UInt8) : Machine :=
  match m.expected with
  | [] => m.start b
  | (low, high) :: more =>
    if low ≤ b ∧ b ≤ high then
      let bits := m.bits * 64 + b.toNat % 64
      if more.isEmpty then m.emit (Char.ofNat bits) else { m with bits, expected := more }
    else (m.emit replacement).start b

/-- What has been read when the input ends here. -/
def finish (m : Machine) : List Char :=
  (if m.expected.isEmpty then m.read else replacement :: m.read).reverse

end Machine

/-- Reads standard UTF-8, replacing what is not. -/
def decodeLossy (bytes : Bytes) : String :=
  String.ofList (bytes.foldl Machine.feed {}).finish

end JavaClass.Utf8

namespace JavaClass

/-- The text of a string constant: the modified reading if all of `bytes` has one, and otherwise
the standard reading of all of them. -/
def readText (bytes : Bytes) : String :=
  match ModifiedUtf8.decode bytes with
  | .ok s => s
  | .error _ => Utf8.decodeLossy bytes

end JavaClass
