import JavaClass.Loader.Link

/-!
# Sessions

Several loaders at work side by side. They share the files and the heap of objects but not their
caches, and the classes they yield can be held under handles and handed to any of them.

An object lives as long as some cache or some handle has it. The pointers in the heap do not keep
their targets alive: a pointer to an object that is gone reads as if it had never been set, while
one to an object that was evicted and is still held keeps leading there. So liveness is a matter of
the whole session, and the operations that read pointers belong here and not to a loader.
-/

namespace JavaClass

/-- Loaders that share files and objects. -/
structure Session where
  files : FileSystem := .empty
  loaders : List Loader := []
  heap : Heap := {}
  /-- The classes that are held, by their handles. -/
  held : Std.ExtTreeMap String Class := ∅

/-- What is done in a session; it may fail, and what was done until then stays done. -/
abbrev SessionM := EStateM LoadError Session

namespace Session

/-! ## Pointers to live objects -/

/-- Whether an object is in some cache or held. -/
def isAlive (s : Session) (c : Class) : Bool :=
  s.loaders.any (·.holds c) || s.held.values.any (·.same c)

def superclass? (s : Session) (c : Class) : Option Class :=
  (s.heap.linksOf c).superclass.filter s.isAlive

/-- The interfaces that a class points at; the later ones move up where one is gone. -/
def interfaces (s : Session) (c : Class) : List Class :=
  (s.heap.linksOf c).interfaces.filter s.isAlive

/-- The class that has been found for a constant. -/
def constant? (s : Session) (c : Class) (index : UInt16) : Option Class :=
  (s.heap.linksOf c).constants[index]?.filter s.isAlive

/-! ## Loaders of a session -/

variable {α : Type}

/-- Lets one of the loaders do something. -/
def runLoader (number : Nat) (act : LoaderM α) : SessionM α := fun s =>
  let resume (t : LoaderState) : Session :=
    { s with loaders := s.loaders.set number t.loader, heap := t.heap }
  match act { loader := s.loaders.getD number {}, heap := s.heap } with
  | .ok a t => .ok a (resume t)
  | .error e t => .error e (resume t)

def find (number : Nat) (name : String) : SessionM (Option Class) := do
  runLoader number (Loader.find (← get).files name)

def load (number : Nat) (name : String) : SessionM (Option Class) := do
  runLoader number (Loader.load (← get).files name)

def define (number : Nat) (name : String) (contents : Bytes) : SessionM Class :=
  runLoader number (Loader.define name contents)

def link (number : Nat) (c : Class) : SessionM Unit := do
  runLoader number (Loader.link (← get).files c)

/-- The class that a `Class` constant of `c` leads to, loaded if that has not been found out yet.
What is found is recorded on `c`, and so is the same for whoever asks next. -/
def resolve (number : Nat) (c : Class) (index : UInt16) : SessionM (Option Class) := do
  match (← get).constant? c index with
  | some target => return some target
  | none =>
    match c.file.pool.className? index with
    | none => throw (.danglingReference c.name index)
    | some name =>
      match ← load number name with
      | none => return none
      | some target =>
        modify fun s => { s with heap := s.heap.setConstant c index target }
        return some target

end Session

/-! ## Operations as data -/

/-- One operation of a session. Classes are named by handles, and a class that an operation yields
can be kept under one. -/
inductive SessionOp where
  | find (loader : Nat) (name : String) (keep : Option String)
  | load (loader : Nat) (name : String) (keep : Option String)
  | define (loader : Nat) (name : String) (contents : Bytes) (keep : Option String)
  | link (loader : Nat) (handle : String)
  | resolve (loader : Nat) (handle : String) (index : UInt16) (keep : Option String)
  /-- Asks which class has been found for a constant. -/
  | constant (handle : String) (index : UInt16) (keep : Option String)
  | superclass (handle : String) (keep : Option String)
  | interface (handle : String) (position : Nat) (keep : Option String)
  /-- Appends a directory to a search path. -/
  | addDirectory (loader : Nat) (directory : String)
  | writeFile (path : Path) (contents : Bytes)
  | removeFile (path : Path)
  | drop (handle : String)
  /-- Puts a new loader in the place of an old one. -/
  | reset (loader : Nat)

inductive SessionAnswer where
  | done
  | found (c : Option Class)

inductive SessionError where
  | noSuchHandle
  | failed (e : LoadError)

namespace Session

/-- Keeps a class that has been found under a handle. A handle that is in use changes its class. -/
def keep (handle : Option String) (found : Option Class) (s : Session) : Session :=
  match handle, found with
  | some h, some c => { s with held := s.held.insert h c }
  | _, _ => s

/-- Answers with the class that `act` yields, and keeps it. -/
def answerFound (act : SessionM (Option Class)) (handle : Option String) (s : Session) :
    Except SessionError SessionAnswer × Session :=
  match act s with
  | .ok found s => (.ok (.found found), s.keep handle found)
  | .error e s => (.error (.failed e), s)

/-- Answers that `act` has been done. -/
def answerDone (act : SessionM Unit) (s : Session) :
    Except SessionError SessionAnswer × Session :=
  match act s with
  | .ok () s => (.ok .done, s)
  | .error e s => (.error (.failed e), s)

/-- Continues with the class under a handle, if there is one. -/
def withHandle (handle : String)
    (next : Class → Session → Except SessionError SessionAnswer × Session) (s : Session) :
    Except SessionError SessionAnswer × Session :=
  match s.held[handle]? with
  | some c => next c s
  | none => (.error .noSuchHandle, s)

def step : SessionOp → Session → Except SessionError SessionAnswer × Session
  | .find loader name handle => answerFound (find loader name) handle
  | .load loader name handle => answerFound (load loader name) handle
  | .define loader name contents handle =>
    answerFound (some <$> define loader name contents) handle
  | .link loader handle => withHandle handle fun c => answerDone (link loader c)
  | .resolve loader handle index as =>
    withHandle handle fun c => answerFound (resolve loader c index) as
  | .constant handle index as =>
    withHandle handle fun c => answerFound (return (← get).constant? c index) as
  | .superclass handle as =>
    withHandle handle fun c => answerFound (return (← get).superclass? c) as
  | .interface handle position as =>
    withHandle handle fun c => answerFound (return ((← get).interfaces c)[position]?) as
  | .addDirectory loader directory =>
    answerDone (runLoader loader (Loader.modifyLoader fun l =>
      { l with searchPath := l.searchPath ++ [directory] }))
  | .writeFile path contents =>
    answerDone (modify fun s => { s with files := s.files.write path contents })
  | .removeFile path => answerDone (modify fun s => { s with files := s.files.remove path })
  | .drop handle =>
    withHandle handle fun _ =>
      answerDone (modify fun s => { s with held := s.held.erase handle })
  | .reset loader => answerDone (runLoader loader (Loader.modifyLoader fun _ => {}))

def run (ops : List SessionOp) (s : Session) : Session :=
  ops.foldl (fun s op => (step op s).2) s

end Session

end JavaClass
