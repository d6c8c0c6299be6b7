import JavaClass.Loader

/-!
# Linking

Linking a class finds its supertypes, links them, and lets the class point at them. Hierarchies may
be cyclic: a class that is met again while it is being linked is taken as it is, and is linked when
the outer visit ends.

A failure anywhere fails the whole call. The classes on the way from the first one to where it went
wrong are evicted, so that they can be asked for again. Those that the call had already finished
stay in the cache, but they may point at an evicted class; the call keeps a list of them, and on
failure they lose their pointers and become merely defined again.

The recursion is on how many supertypes further it may still go, which the limit of the loader
bounds.
-/

namespace JavaClass

/-- A loader during one call of linking. -/
structure LinkState extends LoaderState where
  /-- The classes that this call has linked, latest first. -/
  linked : List Class

/-- A part of a call of linking. -/
abbrev LinkM := EStateM LoadError LinkState

namespace Loader

instance : MonadLift LoaderM LinkM where
  monadLift act := fun s =>
    match act s.toLoaderState with
    | .ok a t => .ok a { s with toLoaderState := t }
    | .error e t => .error e { s with toLoaderState := t }

variable (files : FileSystem)

/-- Finds a supertype of `c` by its name and links it. -/
def supertype (link : Class → LinkM Unit) (c : Class) (name : String) : LinkM Class := do
  match ← find files name with
  | some s =>
    link s
    return s
  | none => throw (.missingSupertype c.name name)

/-- Links the interfaces of `c` and then its superclass, and lets `c` point at them. -/
def linkSupertypes (link : Class → LinkM Unit) (c : Class) : LinkM Unit := do
  match c.file.interfaceNames with
  | .error source => throw (.parse c.name source)
  | .ok names =>
    let interfaces ← names.mapM (supertype files link c)
    let superclass ← c.superName.mapM (supertype files link c)
    modify fun s => { s with heap := s.heap.setSupertypes c superclass interfaces }

/-- Puts `c` back into the cache at another stage. -/
def setStage (c : Class) (stage : Stage) : LinkM Unit :=
  modify fun s => { s with loader := s.loader.insert c.name (.holds c stage) }

/-- Takes a class that failed out of the cache. -/
def abandon (c : Class) (e : LoadError) : LinkM Unit := fun s =>
  .error e { s with loader := s.loader.evict c.name }

/-- Links a class that is only defined so far; `supertypes` is how its supertypes are linked. -/
def linkDefined (supertypes : Class → LinkM Unit) (c : Class) : LinkM Unit := do
  setStage c .linking
  fun s =>
    match supertypes c s with
    | .ok () s =>
      .ok () { s with loader := s.loader.insert c.name (.holds c .linked), linked := c :: s.linked }
    | .error e s => abandon c e s

/-- Comes to a class in the course of linking. The class has to be the one in the cache; only if it
is not linked yet, and not being linked either, is there something left to `proceed` with. -/
def visit (proceed : Class → LinkM Unit) (c : Class) : LinkM Unit := fun s =>
  match s.loader.cache[c.name]? with
  | some (.holds d stage) =>
    if d.same c then
      match stage with
      | .linking | .linked => .ok () s
      | .defined => proceed c s
    else .error (.notLoaded c.name) s
  | some .defining => .error (.notLoaded c.name) s
  | none => .error (.notLoaded c.name) s

/-- Links a class; `allowance` is how many classes deep linking may still go, this one included. -/
def linkWithin : (allowance : Nat) → Class → LinkM Unit
  | 0 => visit fun c s => abandon c (.linkageTooDeep c.name s.loader.maxLinkDepth) s
  | allowance + 1 => visit (linkDefined (linkSupertypes files (linkWithin allowance)))

/-- Takes back the linking of a class that is still in the cache. -/
def unlink (s : LoaderState) (c : Class) : LoaderState :=
  let heap := s.heap.setSupertypes c none []
  match s.loader.cache[c.name]? with
  | some (.holds d _) =>
    if d.same c then { loader := s.loader.insert c.name (.holds c .defined), heap }
    else { s with heap }
  | _ => { s with heap }

/-- Links a class and all its supertypes, or none of those that were not linked before. -/
def link (c : Class) : LoaderM Unit := fun s =>
  match linkWithin files (s.loader.maxLinkDepth + 1) c { s with linked := [] } with
  | .ok () t => .ok () t.toLoaderState
  | .error e t => .error e (t.linked.foldl unlink t.toLoaderState)

/-- Finds a class and links it. -/
def load (name : String) : LoaderM (Option Class) := do
  match ← find files name with
  | some c =>
    link files c
    return some c
  | none => return none

end Loader

end JavaClass
