import JavaClass.ClassFile
import Std.Data.ExtTreeMap

/-!
# Class objects

A loader makes a new object each time it defines a class, also for a file that it has defined
before; two objects are the same only if they were made together. What an object says about itself
never changes. What it points at does: linking gives it a superclass and interfaces, and resolving
gives it targets for constants of its pool. Those pointers are kept apart in a heap, so an object
can be held anywhere while there is only one place where its pointers are.
-/

namespace JavaClass

/-- A class that has been defined. -/
structure Class where
  /-- Tells objects apart. -/
  id : Nat
  file : ClassFile

namespace Class

def name (c : Class) : String := c.file.name

/-- The name of the superclass, as the class declares it. -/
def superName (c : Class) : Option String := c.file.superclass.map Symbol.text

def same (c d : Class) : Bool := c.id == d.id

end Class

/-- Where an object points. -/
structure Links where
  superclass : Option Class := none
  /-- In the order in which the class declares them. -/
  interfaces : List Class := []
  /-- The classes found for constants of the pool, by the index of the constant. -/
  constants : Std.ExtTreeMap UInt16 Class := ∅

/-- The pointers of all objects that have been made. -/
structure Heap where
  /-- The pointers of each object, by its identity. -/
  links : Array Links := #[]

namespace Heap

def linksOf (heap : Heap) (c : Class) : Links := heap.links[c.id]?.getD {}

/-- A new object for a file. It points nowhere. -/
def allocate (heap : Heap) (file : ClassFile) : Class × Heap :=
  (⟨heap.links.size, file⟩, ⟨heap.links.push {}⟩)

def modify (heap : Heap) (c : Class) (f : Links → Links) : Heap := ⟨heap.links.modify c.id f⟩

/-- Lets an object point at its supertypes. -/
def setSupertypes (heap : Heap) (c : Class) (superclass : Option Class) (interfaces : List Class) :
    Heap :=
  heap.modify c fun links => { links with superclass, interfaces }

/-- Records the class that a constant of an object led to. -/
def setConstant (heap : Heap) (c : Class) (index : UInt16) (target : Class) : Heap :=
  heap.modify c fun links => { links with constants := links.constants.insert index target }

end Heap

end JavaClass
