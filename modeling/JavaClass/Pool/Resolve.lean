import JavaClass.Pool.Scan

/-!
# Resolving the constant pool

The second half of reading a pool: each raw constant gets the strings that its indices lead to. A
member leads to a class and to a name and type, and those lead to strings, so the table is filled
in rounds, each of which looks only at what earlier rounds have put there. Within a round the
constants are taken in order of their indices; the first that leads nowhere decides the error.
-/

namespace JavaClass

/-- The rounds, by the constants they settle. -/
inductive Round where
  /-- The constants that refer to nothing. -/
  | leaves
  | strings
  | namesAndTypes
  | classes
  | members
  deriving DecidableEq, Repr

def Round.all : List Round := [leaves, strings, namesAndTypes, classes, members]

namespace RawConstant

/-- The round that settles a constant. -/
def round : RawConstant → Round
  | utf8 _ | integer _ | long _ | unsupported .. => .leaves
  | string _ => .strings
  | nameAndType .. => .namesAndTypes
  | classRef _ => .classes
  | member .. => .members

/-- The constant at `index` with the strings that it leads to in `pool`. -/
def resolve (pool : Pool) (index : UInt16) : RawConstant → Except DecodeError Constant
  | utf8 bytes => .ok (.utf8 bytes (readText bytes))
  | integer value => .ok (.integer value)
  | long value => .ok (.long value)
  | unsupported kind payload => .ok (.unsupported kind payload)
  | string text => return .string (← pool.requireText (.constant index) text)
  | nameAndType name descriptor =>
    return .nameAndType (← pool.requireText (.constant index) name)
      (← pool.requireText (.constant index) descriptor)
  | classRef name => return .classRef (← pool.requireText (.constant index) name)
  | member kind owner description => do
    let owner ← pool.requireClass (.constant index) owner
    let (name, descriptor) ← pool.requireNameAndType (.constant index) description
    return .member kind owner description name descriptor

end RawConstant

namespace RawPool

def entries (table : RawPool) : List (UInt16 × RawConstant) :=
  table.toList.zipIdx.filterMap fun (slot, index) => slot.map (UInt16.ofNat index, ·)

/-- Puts the constants of one round into the pool. -/
def settle (table : RawPool) (pool : Pool) (round : Round) : Except DecodeError Pool :=
  (table.entries.filter (·.2.round = round)).foldlM
    (fun pool (index, c) => return pool.insert index (← c.resolve pool index)) pool

/-- The pool of these raw constants. -/
def resolve (table : RawPool) : Except DecodeError Pool :=
  Round.all.foldlM table.settle (Pool.blank table.size)

end RawPool

/-- Reads the pool with indices below `count`, from just after the count. -/
def Pool.decode (count : UInt16) : Decoder Pool := do
  let table ← RawPool.scan count
  table.resolve

end JavaClass
