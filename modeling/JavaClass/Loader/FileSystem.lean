import JavaClass.Bytes
import JavaClass.Text.Split

/-!
# Files

What a loader sees of a file system: which path leads to which bytes. Paths are compared by their
components, so repeated slashes count as one. A single dot counts for nothing, and two dots lead one
directory back. A path that begins with a slash is absolute, and going from a directory along an
absolute path forgets the directory.

Directories need no record of their own: a path is readable exactly when there is a file under it,
and whether the others are directories or nothing at all makes no difference to a reader. Not
every path can have a file: components are limited in length, and zero is not a character of one.
-/

namespace JavaClass

structure Path where
  absolute : Bool
  components : List String
  deriving DecidableEq, Repr

namespace Path

/-- The directory that a path is in. A relative path can lead out of where it begins, and there is
nothing above the top. -/
def parent (path : Path) : Path :=
  if path.absolute ∨ path.components.getLast?.any (· ≠ "..") then
    { path with components := path.components.dropLast }
  else { path with components := path.components ++ [".."] }

/-- One component further along a path. -/
def enter (path : Path) (component : String) : Path :=
  if component = "" ∨ component = "." then path
  else if component = ".." then path.parent
  else { path with components := path.components ++ [component] }

/-- The path that a text writes down. -/
def ofString (s : String) : Path :=
  (splitText '/' s).foldl enter { absolute := s.toList.head? = some '/', components := [] }

/-- The path that `next` leads along from `directory`. -/
def join (directory next : Path) : Path :=
  if next.absolute then next else next.components.foldl enter directory

/-- Whether there can be a file under a path. -/
def isUsable (path : Path) : Bool :=
  path.components.all fun c => c.utf8ByteSize ≤ 255 ∧ '\x00' ∉ c.toList

end Path

structure FileSystem where
  /-- The contents of the file under a path. -/
  read : Path → Option Bytes

namespace FileSystem

def empty : FileSystem := ⟨fun _ => none⟩

/-- Makes or replaces a file; where there can be none, nothing happens. -/
def write (files : FileSystem) (path : Path) (contents : Bytes) : FileSystem :=
  if path.isUsable then ⟨fun p => if p = path then some contents else files.read p⟩ else files

def remove (files : FileSystem) (path : Path) : FileSystem :=
  ⟨fun p => if p = path then none else files.read p⟩

end FileSystem

end JavaClass
