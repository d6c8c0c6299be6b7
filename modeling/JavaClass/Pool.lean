import JavaClass.DecodeError

/-!
# The constant pool

A table of constants that the rest of a class file refers to by index. Indices start at one, and a
64-bit number takes two of them, so index zero and the index after such a number have no constant.
Looking something up never fails by accident: an index that is out of range, one without a
constant, and one with a constant of another kind all just miss.
-/

namespace JavaClass

/-- A table of constants. -/
structure Pool where
  /-- The constant at each index, if there is one. -/
  slots : Array (Option Constant)
  deriving DecidableEq, Repr

namespace Pool

/-- A table with `size` indices and no constants. -/
def blank (size : Nat) : Pool := ⟨Array.replicate size none⟩

/-- The number of indices, counting zero. -/
def size (pool : Pool) : Nat := pool.slots.size

def entry? (pool : Pool) (index : UInt16) : Option Constant := pool.slots[index.toNat]?.join

/-- Puts a constant at an index of the table. -/
def insert (pool : Pool) (index : UInt16) (c : Constant) : Pool :=
  ⟨pool.slots.setIfInBounds index.toNat (some c)⟩

/-- The constants with their indices, in ascending order. -/
def entries (pool : Pool) : List (UInt16 × Constant) :=
  pool.slots.toList.zipIdx.filterMap fun (slot, index) => slot.map (UInt16.ofNat index, ·)

def isEmpty (pool : Pool) : Bool := pool.slots.all Option.isNone

/-- The constant at an index, if it is of this kind. -/
def ofKind? (pool : Pool) (kind : ConstantKind) (index : UInt16) : Option Constant :=
  (pool.entry? index).filter (·.kind = kind)

def text? (pool : Pool) (index : UInt16) : Option String :=
  pool.entry? index >>= Constant.utf8?

def className? (pool : Pool) (index : UInt16) : Option String :=
  pool.entry? index >>= Constant.className?

/-- Whether there is a constant at the index whose payload is not interpreted. -/
def isUnsupported (pool : Pool) (index : UInt16) : Bool :=
  (pool.ofKind? .unsupported index).isSome

/-! ## References

What a reference leads to, or a report that it leads nowhere. -/

variable {α : Type}

/-- What `view` sees at an index, on behalf of `referrer`. -/
def require (pool : Pool) (expected : Expectation) (view : Constant → Option α)
    (referrer : Referrer) (index : UInt16) : Except DecodeError α :=
  match pool.entry? index >>= view with
  | some a => .ok a
  | none => .error (.danglingReference referrer index expected)

/-- Any constant of the given kind. -/
def requireKind (pool : Pool) (kind : ConstantKind) (referrer : Referrer) (index : UInt16) :
    Except DecodeError Constant :=
  pool.require (.kind kind) (fun c => if c.kind = kind then some c else none) referrer index

/-- Any constant that can be the value of a field. -/
def requireValue (pool : Pool) (referrer : Referrer) (index : UInt16) :
    Except DecodeError Constant :=
  pool.require .value some referrer index

def requireText (pool : Pool) (referrer : Referrer) (index : UInt16) : Except DecodeError Symbol :=
  Symbol.mk index <$> pool.require (.kind .utf8) Constant.utf8? referrer index

def requireClass (pool : Pool) (referrer : Referrer) (index : UInt16) :
    Except DecodeError Symbol :=
  Symbol.mk index <$> pool.require (.kind .classRef) Constant.className? referrer index

def requireNameAndType (pool : Pool) (referrer : Referrer) (index : UInt16) :
    Except DecodeError (String × String) :=
  pool.require (.kind .nameAndType) Constant.nameAndType? referrer index

end Pool

end JavaClass
