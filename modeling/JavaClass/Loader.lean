import JavaClass.ClassFile.Decode
import JavaClass.Loader.Class
import JavaClass.Loader.FileSystem

/-!
# Finding and defining classes

A loader gives classes to names. It keeps what it has defined in a cache, one object for each name,
and looks for the rest along a search path. This module is about finding; `JavaClass.Loader.Link`
is about giving a class its supertypes.

A name is in the cache while its class is being defined, too, before there is anything to find
under it. A definition that fails leaves nothing behind, so the name can be tried again.
-/

namespace JavaClass

/-- Why a class cannot be had. -/
inductive LoadError where
  /-- The file is not a class file, or refers to interfaces that are no classes. -/
  | parse (name : String) (source : DecodeError)
  /-- The file is that of another class. -/
  | nameMismatch (requested found : String)
  | missingSupertype (name supertype : String)
  /-- Linking came to a class more than `depth` supertypes away from where it began. -/
  | linkageTooDeep (name : String) (depth : Nat)
  | reentrantDefinition (name : String)
  /-- The object is not the one that the loader has under its name. -/
  | notLoaded (name : String)
  | danglingReference (name : String) (index : UInt16)
  deriving DecidableEq, Repr

def LoadError.message : LoadError → String
  | parse name source => s!"could not define {name}: {source.message}"
  | nameMismatch requested found => s!"requested {requested} but the classfile defines {found}"
  | missingSupertype name supertype =>
    s!"{name} depends on {supertype}, which could not be found"
  | linkageTooDeep name depth => s!"linking {name} went deeper than {depth} supertypes"
  | reentrantDefinition name => s!"{name} is already being defined"
  | notLoaded name => s!"{name} is not loaded by this loader"
  | danglingReference name index => s!"constant #{index} of {name} is not a class reference"

/-! ## The state of a loader -/

/-- How far a class has got on the way to its supertypes. -/
inductive Stage where
  | defined | linking | linked
  deriving DecidableEq, Repr

/-- What the cache has under a name. -/
inductive Entry where
  /-- The class is being defined. -/
  | defining
  | holds (c : Class) (stage : Stage)

def Entry.class? : Entry → Option Class
  | defining => none
  | holds c _ => some c

def Entry.stage? : Entry → Option Stage
  | defining => none
  | holds _ stage => some stage

structure Loader where
  /-- The directories in which to look, in order. -/
  searchPath : List String := []
  /-- How many supertypes away from a class its linking may reach. -/
  maxLinkDepth : Nat := 256
  cache : Std.ExtTreeMap String Entry := ∅

/-- The directories of a search path that is written with colons between them. -/
def splitSearchPath (path : String) : List String := splitText ':' path

/-- The name under which a class is kept. Dots and slashes between the parts of a name mean the
same; class files have slashes. -/
def internalName (name : String) : String := name.map fun c => if c = '.' then '/' else c

namespace Loader

/-- What the cache has under a name, however it is spelled. -/
def entry? (loader : Loader) (name : String) : Option Entry := loader.cache[internalName name]?

def isLoaded (loader : Loader) (name : String) : Bool :=
  ((loader.entry? name).bind Entry.class?).isSome

/-- The classes with their names and stages, in the order of the names. -/
def classes (loader : Loader) : List (String × Class × Stage) :=
  loader.cache.toList.filterMap fun (name, entry) =>
    match entry with
    | .holds c stage => some (name, c, stage)
    | .defining => none

/-- Whether an object is in the cache. -/
def holds (loader : Loader) (c : Class) : Bool := loader.classes.any (·.2.1.same c)

/-- The files that a name may be defined from, in the order of the search path. -/
def candidates (loader : Loader) (files : FileSystem) (key : String) : List Bytes :=
  loader.searchPath.filterMap fun directory =>
    files.read ((Path.ofString directory).join (Path.ofString (key ++ ".class")))

/-- Puts an entry under a key of the cache, in the place of the one that was there. -/
def insert (loader : Loader) (key : String) (entry : Entry) : Loader :=
  { loader with cache := loader.cache.insert key entry }

def evict (loader : Loader) (key : String) : Loader :=
  { loader with cache := loader.cache.erase key }

end Loader

/-- A loader together with the objects that it may make and change. -/
structure LoaderState where
  loader : Loader
  heap : Heap

/-- What a loader does: it may fail, and what it did until then stays done. -/
abbrev LoaderM := EStateM LoadError LoaderState

namespace Loader

def modifyLoader (f : Loader → Loader) : LoaderM Unit :=
  modify fun s => { s with loader := f s.loader }

/-! ## Defining -/

/-- The class under a name of the cache. -/
def cached? (key : String) : LoaderM (Option Class) := fun s =>
  match s.loader.cache[key]? with
  | some .defining => .error (.reentrantDefinition key) s
  | some (.holds c _) => .ok (some c) s
  | none => .ok none s

/-- The class file in `contents`, which has to be that of `key`. -/
def readClass (key : String) (contents : Bytes) : Except LoadError ClassFile :=
  match ClassFile.decode contents with
  | .error source _ => .error (.parse key source)
  | .ok file _ => if file.name = key then .ok file else .error (.nameMismatch key file.name)

/-- Makes a class of a file and puts it in the cache. -/
def enter (key : String) (file : ClassFile) : LoaderM Class := fun s =>
  let (c, heap) := s.heap.allocate file
  .ok c { loader := s.loader.insert key (.holds c .defined), heap }

/-- Defines a name that is not in the cache. -/
def defineFresh (key : String) (contents : Bytes) : LoaderM Class := do
  modifyLoader (·.insert key .defining)
  match readClass key contents with
  | .ok file => enter key file
  | .error e =>
    modifyLoader (·.evict key)
    throw e

/-- Defines a name from a file at hand. If it is defined already, the file is not looked at. -/
def define (name : String) (contents : Bytes) : LoaderM Class := do
  let key := internalName name
  match ← cached? key with
  | some c => return c
  | none => defineFresh key contents

/-! ## Finding -/

/-- Defines a name from the first of some files that it can be defined from. If there are files
and it can be defined from none, the first failure is the answer; `failure` is one that came before
them. -/
def defineFirst (key : String) : (files : List Bytes) → (failure : Option LoadError) →
    LoaderM (Option Class)
  | [], none => pure none
  | [], some e => throw e
  | contents :: rest, failure => fun s =>
    match defineFresh key contents s with
    | .ok c s => .ok (some c) s
    | .error e s => defineFirst key rest (failure <|> some e) s

/-- The class of a name, from the cache or else from the search path. -/
def find (files : FileSystem) (name : String) : LoaderM (Option Class) := do
  let key := internalName name
  match ← cached? key with
  | some c => return some c
  | none => defineFirst key ((← get).loader.candidates files key) none

end Loader

end JavaClass
