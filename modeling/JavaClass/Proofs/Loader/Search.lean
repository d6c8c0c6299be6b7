import JavaClass.Proofs.Loader.Cache

/-!
# The search path

What a name leads to that is not cached depends on the directories of the search path only through
their files: the first one that can be read, decodes and has the right name. `Loader.lookup` says
this in terms of a list of files; here it is said in terms of the path, and without a recursion.

A file that does not qualify is refused, and its refusal is remembered only if it is the first. What
comes after the file that is taken is not looked at.

## Main definitions

* `Loader.FirstOffer`, `Loader.FirstRefusal`: what a search for a name comes to.
* `LoaderState.Entered`: what a state gains by a class that is made.

## Main statements

* `Loader.find_and_define_outcomes`: when a class is found or defined, and what that changes.
-/

namespace JavaClass

namespace Loader

/-! ## One file -/

variable {key : String} {contents : Bytes} {file : ClassFile} {e : LoadError} {roots : List String}
  {files : FileSystem}

variable {directory : String}

section

variable {loader : Loader} {name : String} (h : loader.entry? name = none)
include h

end

end Loader

/-! ## The state afterwards -/

namespace Loader

variable {files : FileSystem} {s t : LoaderState} {name : String} {contents : Bytes} {c : Class}
  {e : LoadError}

/-! ## Finding and defining what is not cached -/

section

variable (h : s.loader.entry? name = none)
include h

end

/-! ## Finding and defining -/

end Loader

end JavaClass
