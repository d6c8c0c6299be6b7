import JavaClass.ClassFile
import JavaClass.Frame.Value

/-!
# Frames

The state of one invocation of a method: an operand stack, slots for local variables, and a
position in the code. Everything a frame does is checked against the limits that the code declares,
and an operation that is refused leaves the frame as it was.

A wide value takes two slots: its own, and the next, which stays empty. So a store can break a wide
value in two ways. If it hits the empty slot of one, the value below goes; if it is wide itself, it
empties the slot above.
-/

namespace JavaClass

/-- Why an operation on a frame is refused. -/
inductive FrameError where
  | stackOverflow (maxStack : UInt16)
  | stackUnderflow
  | localOutOfRange (index maxLocals : UInt16)
  | uninitializedLocal (index : UInt16)
  | pcOutOfRange (pc length : Nat)
  | noCode (method : String)
  | noSuchMethod (owner method : String)
  deriving DecidableEq, Repr

def FrameError.message : FrameError → String
  | stackOverflow maxStack => s!"operand stack overflow (max_stack {maxStack})"
  | stackUnderflow => "operand stack underflow"
  | localOutOfRange index maxLocals => s!"local {index} is outside of max_locals {maxLocals}"
  | uninitializedLocal index => s!"local {index} has not been written"
  | pcOutOfRange pc length => s!"pc {pc} is outside of the code array (length {length})"
  | noCode method => s!"method {method} has no code"
  | noSuchMethod owner method => s!"{owner} has no method {method}"

/-- One invocation of a method. -/
structure Frame where
  method : Method
  code : Code
  /-- The operands, topmost first. -/
  stack : List Value
  /-- How many units the operands take. -/
  depth : Nat
  /-- The local variables; a slot is empty until it is written. -/
  locals : List (Option Value)
  /-- The address of the next byte to be read. -/
  pc : Nat
  deriving DecidableEq, Repr

/-- A computation on a frame that may be refused. -/
abbrev FrameM := EStateM FrameError Frame

namespace Frame

/-- The frame of a fresh invocation. -/
def ofMethod (method : Method) : Except FrameError Frame :=
  match method.code with
  | some code =>
    .ok { method, code, stack := [], depth := 0,
          locals := List.replicate code.maxLocals.toNat none, pc := 0 }
  | none => .error (.noCode method.name)

def ofName (file : ClassFile) (name : String) : Except FrameError Frame :=
  match file.method? name with
  | some method => ofMethod method
  | none => .error (.noSuchMethod file.name name)

def ofOverload (file : ClassFile) (name descriptor : String) : Except FrameError Frame :=
  match file.overload? name descriptor with
  | some method => ofMethod method
  | none => .error (.noSuchMethod file.name (name ++ descriptor))

/-! ## Operands -/

def push (v : Value) : FrameM Unit := fun f =>
  if f.depth + v.width ≤ f.code.maxStack.toNat then
    .ok () { f with stack := v :: f.stack, depth := f.depth + v.width }
  else
    .error (.stackOverflow f.code.maxStack) f

def pop : FrameM Value := fun f =>
  match f.stack with
  | v :: stack => .ok v { f with stack, depth := f.depth - v.width }
  | [] => .error .stackUnderflow f

def peek (f : Frame) : Except FrameError Value :=
  match f.stack with
  | v :: _ => .ok v
  | [] => .error .stackUnderflow

/-! ## Local variables -/

/-- The value in a slot. -/
def load (f : Frame) (index : UInt16) : Except FrameError Value :=
  match f.locals[index.toNat]? with
  | some (some v) => .ok v
  | some none => .error (.uninitializedLocal index)
  | none => .error (.localOutOfRange index f.code.maxLocals)

/-- Empties the slot before `slot` if its value reaches into `slot`. -/
def clearBelow (locals : List (Option Value)) : (slot : Nat) → List (Option Value)
  | 0 => locals
  | below + 1 => if (locals[below]?.join).any Value.isWide then locals.set below none else locals

/-- Writes a value to a slot, and whatever else that changes. -/
def writeLocal (locals : List (Option Value)) (slot : Nat) (v : Value) : List (Option Value) :=
  let written := (clearBelow locals slot).set slot (some v)
  if v.isWide then written.set (slot + 1) none else written

/-- Stores a value in a slot; all slots that the value takes have to exist. -/
def store (index : UInt16) (v : Value) : FrameM Unit := fun f =>
  if index.toNat + v.width ≤ f.locals.length then
    .ok () { f with locals := writeLocal f.locals index.toNat v }
  else
    .error (.localOutOfRange index f.code.maxLocals) f

/-! ## Code -/

/-- Reads the next `n` bytes of the code. -/
def fetch (n : Nat) : FrameM Bytes := fun f =>
  let bytes := (f.code.instructions.drop f.pc).take n
  if bytes.length = n then .ok bytes { f with pc := f.pc + n }
  else .error (.pcOutOfRange f.pc f.code.instructions.length) f

/-- Reads the next `n` bytes of the code as a number. -/
def fetchNumber (n : Nat) : FrameM Nat := Bytes.bigEndian <$> fetch n

/-- Goes on at another address, which has to be one of the code. -/
def jump (pc : Nat) : FrameM Unit := fun f =>
  if pc < f.code.instructions.length then .ok () { f with pc }
  else .error (.pcOutOfRange pc f.code.instructions.length) f

def isAtEnd (f : Frame) : Bool := f.code.instructions.length ≤ f.pc

/-- The source line of the next byte; addresses that line numbers cannot express have none. -/
def line? (f : Frame) : Option UInt16 :=
  if f.pc < UInt16.size then f.code.lineAt? (UInt16.ofNat f.pc) else none

/-! ## Exceptions -/

/-- The first entry of the exception table that handles what is thrown at `pc`. An entry that
catches a type only is put to `accepts`, and only if it covers the address. -/
def handler? {m : Type → Type} [Monad m] (f : Frame) (pc : UInt16) (accepts : UInt16 → m Bool) :
    m (Option ExceptionEntry) :=
  f.code.exceptions.findM? fun e =>
    if e.covers pc then
      if e.catchesAll then pure true else accepts e.catchType
    else pure false

end Frame

end JavaClass
