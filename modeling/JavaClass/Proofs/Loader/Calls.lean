import JavaClass.Proofs.Loader.Linking

/-!
# The calls that linking makes

Linking the supertypes of a class takes a function that links one class, and calls it for one
supertype after the other, each time in the state that the call before has left. `Loader.calls`
lists these calls with the classes and the states that they are given. The list is complete: two
functions that agree on the calls of one of them give the same run, and then these are the calls of
the other one as well.

Every call on the list comes in a state in which the whole is under way, and all calls before it
have succeeded. So the linking of what they have come to has started when it is made.

## Main definitions

* `Loader.calls`: the calls that linking the supertypes of a class makes.

## Main statements

* `Loader.linkSupertypes_congr`: a run depends on the function only through its calls.
* `Underway.of_mem_calls` and `Underway.pairwise_calls`: where the calls are made.
-/

namespace JavaClass

namespace Loader

variable {files : FileSystem} {link link' : Class → LinkM Unit} {c p : Class} {name : String}
  {names : List String} {s t : LinkState} {q : Class × LinkState}

/-! ## The calls -/

/-- The class to which linking a supertype of this name comes, and the state in which it does. -/
def called? (files : FileSystem) (name : String) (s : LinkState) : Option (Class × LinkState) :=
  match find files name s.toLoaderState with
  | .ok (some p) l => some (p, { s with toLoaderState := l })
  | _ => none

/-- The calls of `link` for supertypes of `c` with these names. If one of them fails, it is the last
one. -/
def callsAmong (files : FileSystem) (link : Class → LinkM Unit) (c : Class) :
    (names : List String) → LinkState → List (Class × LinkState)
  | [], _ => []
  | name :: names, s =>
    (called? files name s).toList ++
      match supertype files link c name s with
      | .ok _ t => callsAmong files link c names t
      | .error _ _ => []

/-- The calls of `link` that are made in linking the supertypes of `c`. -/
def calls (files : FileSystem) (link : Class → LinkM Unit) (c : Class) (s : LinkState) :
    List (Class × LinkState) :=
  match c.file.interfaceNames with
  | .ok names => callsAmong files link c (names ++ c.superName.toList) s
  | .error _ => []

theorem called?_eq_some_iff :
    called? files name s = some q ↔ ∃ l, find files name s.toLoaderState = .ok (some q.1) l ∧
      q.2 = { s with toLoaderState := l } := by
  rw [called?]
  rcases hfind : find files name s.toLoaderState with ⟨_ | p, l⟩ | ⟨e, l⟩
  · simp
  · simp [Prod.ext_iff, eq_comm]
  · simp

theorem callsAmong_append (names more : List String) (s : LinkState) :
    callsAmong files link c (names ++ more) s = callsAmong files link c names s ++
      match names.mapM (supertype files link c) s with
      | .ok _ t => callsAmong files link c more t
      | .error _ _ => [] := by
  induction names generalizing s with
  | nil => rfl
  | cons name names ih =>
    rw [List.cons_append, callsAmong, callsAmong, List.mapM_cons, EStateM.bind_apply,
      List.append_assoc]
    cases supertype files link c name s with
    | error e t => rfl
    | ok p t =>
      dsimp only
      rw [ih, EStateM.bind_apply]
      cases names.mapM (supertype files link c) t <;> rfl

/-! ## Completeness -/

theorem supertype_congr (h : ∀ q ∈ called? files name s, link' q.1 q.2 = link q.1 q.2) :
    supertype files link' c name s = supertype files link c name s := by
  rw [supertype, supertype, EStateM.bind_apply, EStateM.bind_apply, liftM_apply]
  cases hfind : find files name s.toLoaderState with
  | error e l => rfl
  | ok found l =>
    cases found with
    | none => rfl
    | some p =>
      have hlink := h _ (called?_eq_some_iff (q := (p, _)).mpr ⟨l, hfind, rfl⟩)
      dsimp only at hlink ⊢
      rw [EStateM.bind_apply, EStateM.bind_apply, hlink]

theorem mapM_supertype_congr
    (h : ∀ q ∈ callsAmong files link c names s, link' q.1 q.2 = link q.1 q.2) :
    names.mapM (supertype files link' c) s = names.mapM (supertype files link c) s ∧
      callsAmong files link' c names s = callsAmong files link c names s := by
  induction names generalizing s with
  | nil => exact ⟨rfl, rfl⟩
  | cons name names ih =>
    rw [callsAmong, List.forall_mem_append] at h
    obtain ⟨hfirst, hrest⟩ := h
    have hsupertype : supertype files link' c name s = supertype files link c name s :=
      supertype_congr fun q hq ↦ hfirst q (Option.mem_toList.mpr hq)
    rw [callsAmong, callsAmong, List.mapM_cons, List.mapM_cons, EStateM.bind_apply,
      EStateM.bind_apply, hsupertype]
    cases hrun : supertype files link c name s with
    | error e t => exact ⟨rfl, rfl⟩
    | ok p t =>
      rw [hrun] at hrest
      obtain ⟨hmapM, hcalls⟩ := ih hrest
      dsimp only
      rw [EStateM.bind_apply, EStateM.bind_apply, hmapM, hcalls]
      exact ⟨rfl, rfl⟩

theorem calls_of_interfaceNames (hnames : c.file.interfaceNames = .ok names) :
    calls files link c s = callsAmong files link c (names ++ c.superName.toList) s := by
  rw [calls, hnames]

/-- **A run depends on the function only through its calls.** -/
theorem linkSupertypes_congr (h : ∀ q ∈ calls files link c s, link' q.1 q.2 = link q.1 q.2) :
    linkSupertypes files link' c s = linkSupertypes files link c s ∧
      calls files link' c s = calls files link c s := by
  cases hnames : c.file.interfaceNames with
  | error source =>
    rw [linkSupertypes, linkSupertypes, calls, calls, hnames]
    exact ⟨rfl, rfl⟩
  | ok names =>
    rw [calls_of_interfaceNames hnames] at h ⊢
    rw [calls_of_interfaceNames hnames]
    refine ⟨?_, (mapM_supertype_congr h).2⟩
    rw [callsAmong_append, List.forall_mem_append] at h
    obtain ⟨hinterfaces, hsuperclass⟩ := h
    rw [linkSupertypes, linkSupertypes, hnames]
    dsimp only
    rw [EStateM.bind_apply, EStateM.bind_apply, (mapM_supertype_congr hinterfaces).1]
    cases hrun : names.mapM (supertype files link c) s with
    | error e t => rfl
    | ok interfaces t =>
      rw [hrun] at hsuperclass
      dsimp only at hsuperclass ⊢
      rw [EStateM.bind_apply, EStateM.bind_apply]
      cases hname : c.superName with
      | none => rfl
      | some name =>
        rw [hname, Option.toList_some, callsAmong, List.forall_mem_append] at hsuperclass
        rw [Option.mapM_some, Option.mapM_some, EStateM.map_apply, EStateM.map_apply,
          supertype_congr fun q hq ↦ hsuperclass.1 q (Option.mem_toList.mpr hq)]

theorem mapM_of_linkSupertypes_eq_ok (h : linkSupertypes files link c s = .ok () t) :
    ∃ names found u, c.file.interfaceNames = .ok names ∧
      (names ++ c.superName.toList).mapM (supertype files link c) s = .ok found u ∧
        t.loader = u.loader := by
  obtain ⟨names, interfaces, superclass, u, v, hnames, hinterfaces, hsuperclass, rfl⟩ :=
    linkSupertypes_eq_ok_iff.mp h
  refine ⟨names, interfaces ++ superclass.toList, v, hnames, ?_, rfl⟩
  rw [List.mapM_append, EStateM.bind_apply, hinterfaces]
  dsimp only
  rw [EStateM.bind_apply, EStateM.mapM_toList_of_mapM_eq_ok hsuperclass]
  rfl

end Loader

/-! ## Where the calls are made -/

namespace Underway

open Loader

variable {files : FileSystem} {start : LoaderState} {region : String → Prop} {path : List Class}
  {link : Class → LinkM Unit} {c : Class} {names : List String} {s t : LinkState}
  {q : Class × LinkState}

theorem of_called? (h : Underway files start region (path ++ [c]) s) {name : String}
    (hname : name ∈ c.file.supertypeNames) (hq : called? files name s = some q) :
    Underway files start region (path ++ [c]) q.2 ∧
      Next files start region (path ++ [c]) q.2 q.1 ∧ s.loader.Extends q.2.loader := by
  obtain ⟨l, hfind, hstate⟩ := called?_eq_some_iff.mp hq
  obtain ⟨hl, hext, hnext, _⟩ := h.next_of_find hname hfind
  rw [hstate]
  exact ⟨hl, hnext, hext⟩

section

variable (hlink : Passes files start region (path ++ [c]) link)

include hlink

theorem of_mem_callsAmong (h : Underway files start region (path ++ [c]) s)
    (hnames : ∀ name ∈ names, name ∈ c.file.supertypeNames)
    (hq : q ∈ callsAmong files link c names s) :
    Underway files start region (path ++ [c]) q.2 ∧
      Next files start region (path ++ [c]) q.2 q.1 ∧ s.loader.Extends q.2.loader := by
  induction names generalizing s with
  | nil => cases hq
  | cons name names ih =>
    obtain ⟨hname, hrest⟩ := List.forall_mem_cons.mp hnames
    rw [callsAmong, List.mem_append, Option.mem_toList] at hq
    rcases hq with hq | hq
    · exact h.of_called? hname hq
    · cases hrun : supertype files link c name s with
      | error e u =>
        rw [hrun] at hq
        cases hq
      | ok p u =>
        rw [hrun] at hq
        obtain ⟨hu, hext, _⟩ := h.supertype_ok hlink hname hrun
        obtain ⟨hq, hnext, hext'⟩ := ih hu hrest hq
        exact ⟨hq, hnext, hext.trans hext'⟩

theorem pairwise_callsAmong (h : Underway files start region (path ++ [c]) s)
    (hnames : ∀ name ∈ names, name ∈ c.file.supertypeNames) :
    (callsAmong files link c names s).Pairwise fun q q' ↦
      ∃ t, link q.1 q.2 = .ok () t ∧ t.loader.Extends q'.2.loader := by
  induction names generalizing s with
  | nil => exact .nil
  | cons name names ih =>
    obtain ⟨hname, hrest⟩ := List.forall_mem_cons.mp hnames
    rw [callsAmong]
    cases hrun : supertype files link c name s with
    | error e u =>
      dsimp only
      rw [List.append_nil]
      cases called? files name s <;> simp
    | ok p u =>
      obtain ⟨l, hfind, hlinked⟩ := supertype_eq_ok_iff.mp hrun
      obtain ⟨hu, _⟩ := h.supertype_ok hlink hname hrun
      have hcalled : called? files name s = some (p, { s with toLoaderState := l }) :=
        called?_eq_some_iff.mpr ⟨l, hfind, rfl⟩
      rw [hcalled, Option.toList_some, List.singleton_append, List.pairwise_cons]
      refine ⟨fun q' hq' ↦ ⟨u, hlinked, ?_⟩, ih hu hrest⟩
      exact (hu.of_mem_callsAmong hlink hrest hq').2.2

theorem exists_ok_of_mem_callsAmong (h : Underway files start region (path ++ [c]) s)
    (hnames : ∀ name ∈ names, name ∈ c.file.supertypeNames) {found : List Class}
    (hrun : names.mapM (supertype files link c) s = .ok found t)
    (hq : q ∈ callsAmong files link c names s) :
    ∃ u, link q.1 q.2 = .ok () u ∧ u.loader.Extends t.loader := by
  induction names generalizing s found with
  | nil => cases hq
  | cons name names ih =>
    obtain ⟨hname, hrest⟩ := List.forall_mem_cons.mp hnames
    rw [List.mapM_cons, EStateM.bind_eq_ok_iff] at hrun
    obtain ⟨p, u, hfirst, hrun⟩ := hrun
    obtain ⟨rest, v, hrun, hlast⟩ := EStateM.bind_eq_ok_iff.mp hrun
    cases hlast
    obtain ⟨hu, _⟩ := h.supertype_ok hlink hname hfirst
    rw [callsAmong, hfirst, List.mem_append, Option.mem_toList] at hq
    rcases hq with hq | hq
    · obtain ⟨l, hfind, hlinked⟩ := supertype_eq_ok_iff.mp hfirst
      obtain rfl : q = (p, { s with toLoaderState := l }) := by
        simpa using hq.symm.trans (called?_eq_some_iff (q := (p, _)).mpr ⟨l, hfind, rfl⟩)
      exact ⟨u, hlinked, (hu.interfaces_ok hlink hrest hrun).2.1⟩
    · exact ih hu hrest hrun hq

end

theorem mem_supertypeNames_of_mem {name : String} (hnames : c.file.interfaceNames = .ok names)
    (hname : name ∈ names ++ c.superName.toList) : name ∈ c.file.supertypeNames := by
  rwa [ClassFile.supertypeNames_eq hnames]

section

variable (hlink : Passes files start region (path ++ [c]) link)

include hlink

/-- **Where the calls are made.** The whole is under way, and the call comes to what is next. -/
theorem of_mem_calls (h : Underway files start region (path ++ [c]) s)
    (hq : q ∈ calls files link c s) :
    Underway files start region (path ++ [c]) q.2 ∧
      Next files start region (path ++ [c]) q.2 q.1 ∧ s.loader.Extends q.2.loader := by
  cases hnames : c.file.interfaceNames with
  | error source =>
    rw [calls, hnames] at hq
    cases hq
  | ok names =>
    rw [calls_of_interfaceNames hnames] at hq
    exact h.of_mem_callsAmong hlink (fun _ ↦ mem_supertypeNames_of_mem hnames) hq

theorem pairwise_calls (h : Underway files start region (path ++ [c]) s) :
    (calls files link c s).Pairwise fun q q' ↦
      ∃ t, link q.1 q.2 = .ok () t ∧ t.loader.Extends q'.2.loader := by
  cases hnames : c.file.interfaceNames with
  | error source =>
    rw [calls, hnames]
    exact .nil
  | ok names =>
    rw [calls_of_interfaceNames hnames]
    exact h.pairwise_callsAmong hlink fun _ ↦ mem_supertypeNames_of_mem hnames

theorem has_linking_of_linkSupertypes (h : Underway files start region (path ++ [c]) s)
    (hrun : linkSupertypes files link c s = .ok () t) : t.loader.Has c .linking := by
  obtain ⟨names, found, v, hnames, hmapM, hloader⟩ := mapM_of_linkSupertypes_eq_ok hrun
  obtain ⟨hv, _⟩ := h.interfaces_ok hlink (fun _ ↦ mem_supertypeNames_of_mem hnames) hmapM
  rw [hloader]
  exact hv.linking_iff.mpr (by simp)

theorem exists_ok_of_mem_calls (h : Underway files start region (path ++ [c]) s)
    (hrun : linkSupertypes files link c s = .ok () t) (hq : q ∈ calls files link c s) :
    ∃ u, link q.1 q.2 = .ok () u ∧ u.loader.Extends t.loader := by
  obtain ⟨names, found, v, hnames, hmapM, hloader⟩ := mapM_of_linkSupertypes_eq_ok hrun
  rw [calls_of_interfaceNames hnames] at hq
  rw [hloader]
  exact h.exists_ok_of_mem_callsAmong hlink (fun _ ↦ mem_supertypeNames_of_mem hnames) hmapM hq

end

end Underway

end JavaClass
