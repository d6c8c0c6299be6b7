import JavaClass.DecodeError

/-!
# Decoders

A `Decoder` is a reader that can fail for more reasons than a lack of bytes. Plain reads lift into
it, and so do checks that consume nothing.

Nearly every repeated part of a class file is written as a 16-bit count and then that many items,
one after the other; `counted` is that shape. Items are told their position, which is all that an
error report needs to say which of them was wrong.
-/

namespace JavaClass

/-- A computation that consumes input from the front and may refuse it. -/
abbrev Decoder := EStateM DecodeError Bytes

namespace Decoder

instance : MonadLift Reader Decoder where
  monadLift read := EStateM.adaptExcept .truncated read

instance : MonadLift (Except DecodeError) Decoder where
  monadLift check := MonadExcept.ofExcept check

variable {α : Type}

/-- Decodes `n` more items behind those already `done`. -/
def collect (item : (position : Nat) → Decoder α) (done : Array α) :
    (n : Nat) → Decoder (Array α)
  | 0 => pure done
  | n + 1 => do
    let next ← item done.size
    collect item (done.push next) n

/-- Decodes a 16-bit count and then that many items. -/
def counted (item : (position : Nat) → Decoder α) : Decoder (List α) := do
  let count ← Reader.u16
  return (← collect item #[] count.toNat).toList

/-- Decodes `n` times from one input. Each time goes on from where the time before it stopped
reading, whether that succeeded or not. -/
def attempts (decoder : Decoder α) : (n : Nat) → Bytes → List (Except DecodeError α)
  | 0, _ => []
  | n + 1, input =>
    match decoder input with
    | .ok a rest => .ok a :: attempts decoder n rest
    | .error e rest => .error e :: attempts decoder n rest

end Decoder

end JavaClass
