import JavaClass.Frame

/-!
# Runs of frame operations

The operations of a frame as data, so that a run is a list. A run also can save its frame and go
back to it later; an operation that fails does not end it.
-/

namespace JavaClass

/-- The numbers that code is read as. -/
inductive FetchFormat where
  | u8 | u16 | i16 | u32
  deriving DecidableEq, Repr

def FetchFormat.size : FetchFormat → Nat
  | .u8 => 1
  | .u16 | .i16 => 2
  | .u32 => 4

/-- The number with these unsigned digits; a signed one is in two's complement. -/
def FetchFormat.interpret (format : FetchFormat) (n : Nat) : Int :=
  match format with
  | .i16 => Int.bmod n 0x10000
  | .u8 | .u16 | .u32 => n

inductive FrameOp where
  | push (v : Value)
  | pop
  | peek
  | load (index : UInt16)
  | store (index : UInt16) (v : Value)
  | fetch (format : FetchFormat)
  | jump (pc : Nat)
  | method
  /-- Looks for a handler; the types that are accepted are listed. -/
  | handler (pc : UInt16) (accepted : List UInt16)
  deriving DecidableEq, Repr

inductive FrameAnswer where
  | nothing
  | value (v : Value)
  | number (n : Int)
  | method (name descriptor : String)
  /-- The handler found, and the types asked about in the order of the questions. -/
  | handler (entry : Option ExceptionEntry) (asked : List UInt16)
  deriving DecidableEq, Repr

/-- Accepts the types in a list and keeps a record of what it is asked. -/
def acceptListed (accepted : List UInt16) (type : UInt16) : StateM (List UInt16) Bool := do
  modify (· ++ [type])
  return accepted.contains type

def FrameOp.perform : FrameOp → FrameM FrameAnswer
  | push v => (fun _ => .nothing) <$> Frame.push v
  | pop => .value <$> Frame.pop
  | peek => do
    let v ← MonadExcept.ofExcept (← get).peek
    return .value v
  | load index => do
    let v ← MonadExcept.ofExcept ((← get).load index)
    return .value v
  | store index v => (fun _ => .nothing) <$> Frame.store index v
  | fetch format => (fun n => .number (format.interpret n)) <$> Frame.fetchNumber format.size
  | jump pc => (fun _ => .nothing) <$> Frame.jump pc
  | method => do
    let f ← get
    return .method f.method.name f.method.descriptor
  | handler pc accepted => do
    let (entry, asked) := ((← get).handler? pc (acceptListed accepted)).run []
    return .handler entry asked

/-- A frame, and the one that was saved last. -/
structure FrameRun where
  current : Frame
  saved : Option Frame := none
  deriving DecidableEq, Repr

/-- One step of a run. -/
inductive FrameStep where
  | op (op : FrameOp)
  | save
  | restore
  deriving DecidableEq, Repr

namespace FrameRun

/-- Takes one step. Where nothing has been saved, there is nothing to go back to. -/
def step (run : FrameRun) : FrameStep → Except FrameError FrameAnswer × FrameRun
  | .op op =>
    match op.perform run.current with
    | .ok answer current => (.ok answer, { run with current })
    | .error e current => (.error e, { run with current })
  | .save => (.ok .nothing, { run with saved := some run.current })
  | .restore => (.ok .nothing, { run with current := run.saved.getD run.current })

/-- Takes all steps. Each answer comes with the frame after it. -/
def runAll : List FrameStep → FrameRun → List (Except FrameError FrameAnswer × Frame)
  | [], _ => []
  | s :: steps, run =>
    let (answer, run) := run.step s
    (answer, run.current) :: runAll steps run

end FrameRun

end JavaClass
