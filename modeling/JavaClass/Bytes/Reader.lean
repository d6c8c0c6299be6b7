import JavaClass.Bytes

/-!
# Reading from the front of an input

A `Reader` takes something off the front of an input or refuses. It is a state monad over the
bytes still unread, and it keeps that state on failure too, because callers can see how far a
failed decoding got. Every reader here is built from `take`, which either removes exactly the
bytes it was asked for or removes none; so a read that fails is as if it had not been tried.

The second half gives a cursor as data: `CursorOp` is one thing to do to an input, and `runAll` a
whole sequence of them, where an operation that fails does not end the run.
-/

namespace JavaClass

/-- More bytes were asked for than the input still holds. -/
structure OutOfBytes where
  /-- How many bytes were asked for. -/
  wanted : Nat
  /-- How many were left. -/
  remaining : Nat
  deriving DecidableEq, Repr

def OutOfBytes.message (e : OutOfBytes) : String :=
  s!"out of bytes (wanted {e.wanted}, {e.remaining} remaining)"

/-- A computation that consumes input from the front and may run out of it. -/
abbrev Reader := EStateM OutOfBytes Bytes

namespace Reader

/-- Checks that `n` bytes are left, and consumes nothing. Only the first `n` bytes are looked at
when the check succeeds. -/
def ensure (n : Nat) : Reader Unit := fun input =>
  if (input.take n).length = n then .ok () input else .error ⟨n, input.length⟩ input

def take (n : Nat) : Reader Bytes := fun input =>
  let block := input.take n
  if block.length = n then .ok block (input.drop n) else .error ⟨n, input.length⟩ input

def skip (n : Nat) : Reader Unit := discard (take n)

/-- The number spelled by the first `width` bytes. -/
def number (width : Nat) : Reader Nat := Bytes.bigEndian <$> take width

/-! ### Numbers of fixed width -/

def u8 : Reader UInt8 := UInt8.ofNat <$> number 1

def u16 : Reader UInt16 := UInt16.ofNat <$> number 2

def u32 : Reader UInt32 := UInt32.ofNat <$> number 4

def i32 : Reader Int32 := Int32.ofNat <$> number 4

def i64 : Reader Int64 := Int64.ofNat <$> number 8

/-! ## What `take` does -/

theorem take_of_le {n : Nat} {input : Bytes} (h : n ≤ input.length) :
    take n input = .ok (input.take n) (input.drop n) := by
  simp [take, Nat.min_eq_left h]

theorem take_of_lt {n : Nat} {input : Bytes} (h : input.length < n) :
    take n input = .error ⟨n, input.length⟩ input := by
  have : min n input.length ≠ n := by omega
  simp [take, this]

theorem take_append (block rest : Bytes) : take block.length (block ++ rest) = .ok block rest := by
  rw [take_of_le (by simp)]
  simp

/-! ### What was written is read

A number at the front of an input is read back, and nothing after it is touched. -/

theorem number_ofNat (width n : Nat) (rest : Bytes) :
    number width (Bytes.ofNat width n ++ rest) = .ok (n % Bytes.limit width) rest := by
  have h := take_append (Bytes.ofNat width n) rest
  rw [Bytes.length_ofNat] at h
  simp [number, Functor.map, EStateM.map, h, Bytes.bigEndian_ofNat]

theorem u8_cons (b : UInt8) (rest : Bytes) : u8 (b :: rest) = .ok b rest := by
  have h : take 1 (b :: rest) = .ok [b] rest := take_append [b] rest
  simp [u8, number, Functor.map, EStateM.map, h, Bytes.bigEndian]

theorem u16_ofNat (n : Nat) (rest : Bytes) :
    u16 (Bytes.ofNat 2 n ++ rest) = .ok (UInt16.ofNat n) rest := by
  have h := number_ofNat 2 n rest
  simp [u16, Functor.map, EStateM.map, h, Bytes.limit, UInt16.ofNat_mod_size']

theorem u32_ofNat (n : Nat) (rest : Bytes) :
    u32 (Bytes.ofNat 4 n ++ rest) = .ok (UInt32.ofNat n) rest := by
  have h := number_ofNat 4 n rest
  simp [u32, Functor.map, EStateM.map, h, Bytes.limit, UInt32.ofNat_mod_size']

theorem i32_toNat (n : Int32) (rest : Bytes) :
    i32 (Bytes.ofNat 4 n.toUInt32.toNat ++ rest) = .ok n rest := by
  have h := number_ofNat 4 n.toUInt32.toNat rest
  rw [show Bytes.limit 4 = 4294967296 from rfl, Nat.mod_eq_of_lt n.toUInt32.toNat_lt] at h
  simp [i32, Functor.map, EStateM.map, h, Int32.ofNat]

theorem i64_toNat (n : Int64) (rest : Bytes) :
    i64 (Bytes.ofNat 8 n.toUInt64.toNat ++ rest) = .ok n rest := by
  have h := number_ofNat 8 n.toUInt64.toNat rest
  rw [show Bytes.limit 8 = 18446744073709551616 from rfl,
    Nat.mod_eq_of_lt n.toUInt64.toNat_lt] at h
  simp [i64, Functor.map, EStateM.map, h, Int64.ofNat]

end Reader

/-! ## A cursor -/

/-- The widths in which numbers come. -/
inductive Width where
  | w8 | w16 | w32 | w64
  deriving DecidableEq, Repr

def Width.bytes : Width → Nat
  | .w8 => 1
  | .w16 => 2
  | .w32 => 4
  | .w64 => 8

/-- One operation on a cursor. -/
inductive CursorOp where
  /-- Reads a number. -/
  | unsigned (width : Width)
  /-- Reads a number in two's complement. -/
  | signed (width : Width)
  /-- Passes over a block. -/
  | skip (n : Nat)
  /-- Asks whether a block is there, without moving. -/
  | ensure (n : Nat)
  /-- Reads a block into a buffer of its own. -/
  | copy (n : Nat)
  /-- Splits a block off the input. -/
  | split (n : Nat)
  deriving DecidableEq, Repr

/-- What a cursor operation answers. -/
inductive Reading where
  | number (value : Int)
  | block (bytes : Bytes)
  | nothing
  deriving DecidableEq, Repr

namespace CursorOp

/-- How many bytes have to be left for the operation to succeed. -/
def size : CursorOp → Nat
  | unsigned width | signed width => width.bytes
  | skip n | ensure n | copy n | split n => n

/-- What the operation does to an input. -/
def perform : CursorOp → Reader Reading
  | unsigned width => (fun n => .number n) <$> Reader.number width.bytes
  | signed width =>
    (fun n => .number (Int.bmod n (Bytes.limit width.bytes))) <$> Reader.number width.bytes
  | skip n => (fun _ => .nothing) <$> Reader.skip n
  | ensure n => (fun _ => .nothing) <$> Reader.ensure n
  | copy n | split n => .block <$> Reader.take n

/-- Performs one operation and then the others, whether it succeeded or not. Each answer comes
with the bytes left after it. -/
def runAll : List CursorOp → Bytes → List (Except OutOfBytes Reading × Bytes)
  | [], _ => []
  | op :: ops, input =>
    match op.perform input with
    | .ok reading rest => (.ok reading, rest) :: runAll ops rest
    | .error short rest => (.error short, rest) :: runAll ops rest

end CursorOp

end JavaClass
