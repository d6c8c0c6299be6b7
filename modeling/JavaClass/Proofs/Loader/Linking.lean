import JavaClass.Proofs.Loader.Underway

/-!
# Runs of linking

What a whole visit to a class does, from the state in which the call comes to it to the one in
which the call leaves it. A visit that succeeds leaves the path as it was, and the linking of the
class has started by then. A visit that fails got further along the path, to a class that is the
reason of the failure, and then removed everything from there back to the class it came to.

Both are by induction on the allowance. The second needs the first, since the visits before the one
that fails have succeeded.

## Main statements

* `Underway.passes_linkWithin`: what a visit does that succeeds.
* `Underway.fails_linkWithin`: what a visit does that fails.
-/

namespace JavaClass

/-! ## Taking the steps apart -/

namespace Loader

variable {files : FileSystem} {link : Class → LinkM Unit} {c p : Class} {name : String}
  {s t : LinkState} {e : LoadError}

theorem liftM_apply {α : Type} (act : LoaderM α) (s : LinkState) :
    (liftM act : LinkM α) s =
      match act s.toLoaderState with
      | .ok a l => .ok a { s with toLoaderState := l }
      | .error e l => .error e { s with toLoaderState := l } := rfl

theorem supertype_eq_ok_iff :
    supertype files link c name s = .ok p t ↔
      ∃ l, find files name s.toLoaderState = .ok (some p) l ∧
        link p { s with toLoaderState := l } = .ok () t := by
  rw [supertype, EStateM.bind_apply, liftM_apply]
  cases find files name s.toLoaderState with
  | error e l => simp
  | ok found l =>
    cases found with
    | none => simp
    | some q =>
      simp only [EStateM.bind_eq_ok_iff, EStateM.pure_apply, EStateM.Result.ok.injEq,
        Option.some.injEq]
      constructor
      · rintro ⟨_, u, hlink, rfl, rfl⟩
        exact ⟨l, ⟨rfl, rfl⟩, hlink⟩
      · rintro ⟨_, ⟨rfl, rfl⟩, hlink⟩
        exact ⟨_, t, hlink, rfl, rfl⟩

theorem supertype_eq_error_iff :
    supertype files link c name s = .error e t ↔
      (∃ l, find files name s.toLoaderState = .error e l ∧ t = { s with toLoaderState := l }) ∨
      (∃ l, find files name s.toLoaderState = .ok none l ∧ e = .missingSupertype c.name name ∧
        t = { s with toLoaderState := l }) ∨
      ∃ p l, find files name s.toLoaderState = .ok (some p) l ∧
        link p { s with toLoaderState := l } = .error e t := by
  rw [supertype, EStateM.bind_apply, liftM_apply]
  cases find files name s.toLoaderState with
  | error e' l => simp [eq_comm]
  | ok found l =>
    cases found with
    | none => simp [eq_comm]
    | some q => simp [EStateM.map_eq_error_iff]

theorem linkSupertypes_eq_ok_iff :
    linkSupertypes files link c s = .ok () t ↔
      ∃ names interfaces superclass u v, c.file.interfaceNames = .ok names ∧
        names.mapM (supertype files link c) s = .ok interfaces u ∧
        c.superName.mapM (supertype files link c) u = .ok superclass v ∧
        t = { v with heap := v.heap.setSupertypes c superclass interfaces } := by
  rw [linkSupertypes]
  cases c.file.interfaceNames with
  | error source => simp
  | ok names =>
    simp only [EStateM.bind_eq_ok_iff, EStateM.modify_apply, Except.ok.injEq]
    constructor
    · rintro ⟨interfaces, u, hinterfaces, superclass, v, hsuperclass, ⟨⟩⟩
      exact ⟨_, interfaces, superclass, u, v, rfl, hinterfaces, hsuperclass, rfl⟩
    · rintro ⟨_, interfaces, superclass, u, v, rfl, hinterfaces, hsuperclass, rfl⟩
      exact ⟨interfaces, u, hinterfaces, superclass, v, hsuperclass, rfl⟩

/-- Linking the supertypes of a class fails if an index of an interface leads to no class, or else
at one of the supertypes, when it has succeeded for those before. -/
theorem split_of_linkSupertypes_eq_error (h : linkSupertypes files link c s = .error e t) :
    (∃ source, c.file.interfaceNames = .error source ∧ e = .parse c.name source ∧ t = s) ∨
    ∃ names before name after found u, c.file.interfaceNames = .ok names ∧
      c.file.supertypeNames = before ++ name :: after ∧
        before.mapM (supertype files link c) s = .ok found u ∧
          supertype files link c name u = .error e t := by
  rw [linkSupertypes] at h
  cases hnames : c.file.interfaceNames with
  | error source =>
    rw [hnames] at h
    cases h
    exact .inl ⟨source, rfl, rfl, rfl⟩
  | ok names =>
    rw [hnames] at h
    refine .inr ⟨names, ?_⟩
    rw [ClassFile.supertypeNames_eq hnames]
    rcases EStateM.bind_eq_error_iff.mp h with hinterfaces | ⟨interfaces, u, hinterfaces, hrest⟩
    · obtain ⟨before, name, after, found, u, rfl, hbefore, hfail⟩ :=
        EStateM.exists_split_of_mapM_eq_error hinterfaces
      exact ⟨before, name, _, found, u, rfl, List.append_assoc .., hbefore, hfail⟩
    · rcases EStateM.bind_eq_error_iff.mp hrest with hsuperclass | ⟨_, _, _, ⟨⟩⟩
      cases hname : c.file.superclass.map Symbol.text with
      | none =>
        rw [Class.superName, hname] at hsuperclass
        cases hsuperclass
      | some name =>
        rw [Class.superName, hname] at hsuperclass
        exact ⟨names, name, [], interfaces, u, rfl, rfl, hinterfaces,
          EStateM.map_eq_error_iff.mp hsuperclass⟩

theorem linkDefined_apply (supertypes : Class → LinkM Unit) (c : Class) (s : LinkState) :
    linkDefined supertypes c s =
      match supertypes c { s with loader := s.loader.insert c.name (.holds c .linking) } with
      | .ok () u =>
        .ok () { u with
          loader := u.loader.insert c.name (.holds c .linked), linked := c :: u.linked }
      | .error e u => .error e { u with loader := u.loader.evict c.name } := rfl

theorem linkDefined_eq_ok_iff {supertypes : Class → LinkM Unit} :
    linkDefined supertypes c s = .ok () t ↔
      ∃ u, supertypes c { s with loader := s.loader.insert c.name (.holds c .linking) } = .ok () u ∧
        t = { u with
          loader := u.loader.insert c.name (.holds c .linked), linked := c :: u.linked } := by
  rw [linkDefined_apply]
  cases supertypes c { s with loader := s.loader.insert c.name (.holds c .linking) } with
  | ok _ u => simp [eq_comm]
  | error e u => simp

theorem linkDefined_eq_error_iff {supertypes : Class → LinkM Unit} :
    linkDefined supertypes c s = .error e t ↔
      ∃ u, supertypes c { s with loader := s.loader.insert c.name (.holds c .linking) } =
          .error e u ∧
        t = { u with loader := u.loader.evict c.name } := by
  rw [linkDefined_apply]
  cases supertypes c { s with loader := s.loader.insert c.name (.holds c .linking) } with
  | ok _ u => simp
  | error e' u => simp [eq_comm]

theorem visit_of_has {proceed : Class → LinkM Unit} {stage : Stage} (h : s.loader.Has c stage) :
    visit proceed c s = if stage = .defined then proceed c s else .ok () s := by
  rw [Has] at h
  cases stage <;> simp [visit, h, Class.same]

theorem visit_of_absent {proceed : Class → LinkM Unit}
    (h : ∀ d stage, s.loader.cache[c.name]? = some (.holds d stage) → d.same c = false) :
    visit proceed c s = .error (.notLoaded c.name) s := by
  rw [visit]
  split
  · next d stage hd => simp [h d stage hd]
  · rfl
  · rfl

theorem linkWithin_zero_apply {stage : Stage} (h : s.loader.Has c stage) :
    linkWithin files 0 c s =
      if stage = .defined then
        .error (.linkageTooDeep c.name s.loader.maxLinkDepth)
          { s with loader := s.loader.evict c.name }
      else .ok () s :=
  visit_of_has h

theorem linkWithin_succ_apply {allowance : Nat} {stage : Stage} (h : s.loader.Has c stage) :
    linkWithin files (allowance + 1) c s =
      if stage = .defined then linkDefined (linkSupertypes files (linkWithin files allowance)) c s
      else .ok () s :=
  visit_of_has h

end Loader

/-! ## Visits that succeed -/

namespace Underway

open Loader

variable {files : FileSystem} {start : LoaderState} {region : String → Prop} {path : List Class}
  {link : Class → LinkM Unit} {c p : Class} {name : String} {s t : LinkState}

/-- Linking by `link` from the end of the path preserves the invariant if it succeeds, and it
starts the linking of the class. -/
def Passes (files : FileSystem) (start : LoaderState) (region : String → Prop) (path : List Class)
    (link : Class → LinkM Unit) : Prop :=
  ∀ ⦃p s t⦄, Underway files start region path s → Next files start region path s p →
    link p s = .ok () t →
      Underway files start region path t ∧ s.loader.Extends t.loader ∧ t.loader.Started p

theorem next_of_find (h : Underway files start region (path ++ [c]) s)
    (hname : name ∈ c.file.supertypeNames) {l : LoaderState}
    (hfind : find files name s.toLoaderState = .ok (some p) l) :
    Underway files start region (path ++ [c]) { s with toLoaderState := l } ∧
      s.loader.Extends l.loader ∧
        Next files start region (path ++ [c]) { s with toLoaderState := l } p ∧
          internalName name = p.name := by
  obtain ⟨hlookup, hstate⟩ := of_find_eq_some h.wellFormed hfind
  have hp : p.name = internalName name := name_of_lookup h.wellFormed hlookup
  have hregion : region p.name := by
    have hmem : c ∈ path ++ [c] := by simp
    have hc : s.loader.Has c .linking := h.linking_iff.mpr hmem
    rw [hp]
    exact h.closed (h.region_of_mem_path hmem) (h.leads hc).lookup_eq hname
      (by rwa [← h.lookup_eq h.atRest.wellFormed])
  obtain ⟨stage, hcached⟩ := exists_has_of_find h.wellFormed hfind
  -- finding changes nothing, or it makes the class; what follows is the same in both cases
  suffices hafter : Underway files start region (path ++ [c]) { s with toLoaderState := l } ∧
      s.loader.Extends l.loader by
    obtain ⟨hl, hext⟩ := hafter
    refine ⟨hl, hext, ⟨⟨stage, hcached⟩, hregion, fun q hq ↦ ?_⟩, hp.symm⟩
    obtain rfl : c = q := by simpa using hq
    exact ⟨name, hname, hl.leadsTo hcached hp.symm⟩
  rcases hstate with ⟨_, rfl⟩ | ⟨habsent, hid, rfl⟩
  · exact ⟨h, .refl _⟩
  · have habsent' : s.loader.cache[p.name]? = none := by rwa [hp]
    exact ⟨h.enter habsent hlookup hid hregion, extends_enter habsent'⟩

section

variable (hlink : Passes files start region (path ++ [c]) link)

include hlink

theorem supertype_ok (h : Underway files start region (path ++ [c]) s)
    (hname : name ∈ c.file.supertypeNames) (hrun : supertype files link c name s = .ok p t) :
    Underway files start region (path ++ [c]) t ∧ s.loader.Extends t.loader ∧
      t.loader.Provides name p := by
  obtain ⟨l, hfind, hrun⟩ := supertype_eq_ok_iff.mp hrun
  obtain ⟨hl, hext, hnext, hp⟩ := h.next_of_find hname hfind
  obtain ⟨ht, hext', hstarted⟩ := hlink hl hnext hrun
  exact ⟨ht, hext.trans hext', hp, hstarted⟩

theorem interfaces_ok {names : List String} {interfaces : List Class}
    (h : Underway files start region (path ++ [c]) s)
    (hnames : ∀ name ∈ names, name ∈ c.file.supertypeNames)
    (hrun : names.mapM (supertype files link c) s = .ok interfaces t) :
    Underway files start region (path ++ [c]) t ∧ s.loader.Extends t.loader ∧
      List.Forall₂ t.loader.Provides names interfaces := by
  induction names generalizing s interfaces with
  | nil =>
    cases hrun
    exact ⟨h, .refl _, .nil⟩
  | cons name names ih =>
    rw [List.mapM_cons, EStateM.bind_eq_ok_iff] at hrun
    obtain ⟨p, u, hfirst, hrest⟩ := hrun
    obtain ⟨rest, v, hrest, hlast⟩ := EStateM.bind_eq_ok_iff.mp hrest
    cases hlast
    obtain ⟨hu, hext, hp⟩ := h.supertype_ok hlink (hnames name List.mem_cons_self) hfirst
    obtain ⟨ht, hext', hall⟩ :=
      ih hu (fun name' h' ↦ hnames name' (List.mem_cons_of_mem _ h')) hrest
    exact ⟨ht, hext.trans hext', .cons (hext'.provides name p hp) hall⟩

theorem superclass_ok {superName : Option String} {superclass : Option Class}
    (h : Underway files start region (path ++ [c]) s)
    (hname : ∀ name, superName = some name → name ∈ c.file.supertypeNames)
    (hrun : superName.mapM (supertype files link c) s = .ok superclass t) :
    Underway files start region (path ++ [c]) t ∧ s.loader.Extends t.loader ∧
      Option.Rel t.loader.Provides superName superclass := by
  cases superName with
  | none =>
    cases hrun
    exact ⟨h, .refl _, .none⟩
  | some name =>
    obtain ⟨p, hfirst, rfl⟩ := EStateM.map_eq_ok_iff.mp hrun
    obtain ⟨ht, hext, hp⟩ := h.supertype_ok hlink (hname name rfl) hfirst
    exact ⟨ht, hext, .some hp⟩

theorem linkDefined_ok (h : Underway files start region path s) (hc : s.loader.Has c .defined)
    (hnext : Next files start region path s c)
    (hrun : linkDefined (linkSupertypes files link) c s = .ok () t) :
    Underway files start region path t ∧ s.loader.Extends t.loader ∧ t.loader.Started c := by
  rw [linkDefined_eq_ok_iff] at hrun
  obtain ⟨w, hrun, rfl⟩ := hrun
  obtain ⟨names, interfaces, superclass, u, v, hnames, hinterfaces, hsuperclass, rfl⟩ :=
    linkSupertypes_eq_ok_iff.mp hrun
  have hbegun : s.loader.Extends (s.loader.insert c.name (.holds c .linking)) :=
    extends_restage hc (by simp)
  obtain ⟨hu, hext, hall⟩ := (h.begin hc hnext).interfaces_ok hlink
    (fun _ ↦ ClassFile.mem_supertypeNames_of_interface hnames) hinterfaces
  obtain ⟨hv, hext', hrel⟩ := hu.superclass_ok hlink
    (fun _ ↦ ClassFile.mem_supertypeNames_of_superclass) hsuperclass
  have hlinking : v.loader.Has c .linking := hv.linking_iff.mpr (by simp)
  refine ⟨hv.finish hnames (hall.imp hext'.provides) hrel, ?_, .linked, by simp,
    has_insert_self _ _ _⟩
  exact hbegun.trans (hext.trans (hext'.trans (extends_restage hlinking (by simp))))

end

/-- **What a visit does that succeeds.** The path is as it was before, and the class either has its
pointers or is on the path itself. -/
theorem passes_linkWithin (files : FileSystem) (start : LoaderState) (region : String → Prop) :
    ∀ (allowance : Nat) (path : List Class),
      Passes files start region path (linkWithin files allowance) := by
  intro allowance
  induction allowance with
  | zero =>
    intro path c s t h hnext hrun
    obtain ⟨stage, hc⟩ := hnext.cached
    rw [linkWithin_zero_apply hc] at hrun
    split at hrun
    · cases hrun
    · next hstage =>
      -- a class whose linking has started takes no depth
      cases hrun
      exact ⟨h, .refl _, stage, hstage, hc⟩
  | succ allowance ih =>
    intro path c s t h hnext hrun
    obtain ⟨stage, hc⟩ := hnext.cached
    rw [linkWithin_succ_apply hc] at hrun
    split at hrun
    · next hstage =>
      subst hstage
      exact h.linkDefined_ok (ih (path ++ [c])) hc hnext hrun
    · next hstage =>
      cases hrun
      exact ⟨h, .refl _, stage, hstage, hc⟩

/-! ## Visits that fail -/

end Underway

/-- Removes the classes of a path, the last one first. -/
def Loader.evictAll (loader : Loader) (path : List Class) : Loader :=
  path.foldr (fun c l ↦ l.evict c.name) loader

/-- The class is the reason why linking fails with this error: an index of an interface leads to no
class, a supertype cannot be found or defined, or there are `depth` classes before it on the path
and so it is out of reach. -/
inductive Loader.Fault (files : FileSystem) (loader : Loader) (depth : Nat) (c : Class) :
    LoadError → Prop
  | dangling {source : DecodeError} (h : c.file.interfaceNames = .error source) :
    Fault files loader depth c (.parse c.name source)
  | missing {name : String} (hname : name ∈ c.file.supertypeNames)
    (h : loader.lookup files name = .ok none) :
    Fault files loader depth c (.missingSupertype c.name name)
  | undefinable {name : String} {e : LoadError} (hname : name ∈ c.file.supertypeNames)
    (h : loader.lookup files name = .error e) : Fault files loader depth c e
  | tooDeep (h : depth = loader.maxLinkDepth + 1) :
    Fault files loader depth c (.linkageTooDeep c.name loader.maxLinkDepth)

namespace Underway

open Loader

variable {files : FileSystem} {start : LoaderState} {region : String → Prop} {path : List Class}
  {link : Class → LinkM Unit} {c p : Class} {name : String} {s t : LinkState} {e : LoadError}

/-- A call came from the last class `c` of its path to one that made it fail, and removed the
classes on the way back to `c`, but not `c` itself. -/
def Stuck (files : FileSystem) (start : LoaderState) (region : String → Prop) (path : List Class)
    (c : Class) (e : LoadError) (t : LinkState) : Prop :=
  ∃ rest u, Underway files start region (path ++ c :: rest) u ∧
    t = { u with loader := u.loader.evictAll rest } ∧
    ∃ last ∈ (c :: rest).getLast?,
      start.loader.Fault files (path.length + rest.length) last e

/-- If linking by `link` from the end of the path fails, it leaves behind a call that got stuck,
without the class it began with. -/
def Fails (files : FileSystem) (start : LoaderState) (region : String → Prop) (path : List Class)
    (link : Class → LinkM Unit) : Prop :=
  ∀ ⦃p s e t⦄, Underway files start region path s → Next files start region path s p →
    link p s = .error e t →
      ∃ u, Stuck files start region path p e u ∧ t = { u with loader := u.loader.evict p.name }

theorem stuck_of_fault (h : Underway files start region (path ++ [c]) s)
    (hfault : start.loader.Fault files path.length c e) :
    Stuck files start region path c e s :=
  ⟨[], s, h, rfl, c, rfl, hfault⟩

section

variable (hlink : Passes files start region (path ++ [c]) link)
  (hfails : Fails files start region (path ++ [c]) link)

include hfails in
theorem supertype_error (h : Underway files start region (path ++ [c]) s)
    (hname : name ∈ c.file.supertypeNames) (hrun : supertype files link c name s = .error e t) :
    Stuck files start region path c e t := by
  rcases supertype_eq_error_iff.mp hrun with ⟨l, hfind, rfl⟩ | ⟨l, hfind, rfl, rfl⟩ |
      ⟨p, l, hfind, hrun⟩
  · obtain ⟨hlookup, rfl⟩ := of_find_eq_error h.wellFormed hfind
    exact h.stuck_of_fault (.undefinable hname (h.lookup_eq h.atRest.wellFormed name ▸ hlookup))
  · obtain ⟨hlookup, rfl⟩ := of_find_eq_none h.wellFormed hfind
    exact h.stuck_of_fault (.missing hname (h.lookup_eq h.atRest.wellFormed name ▸ hlookup))
  · obtain ⟨hl, _, hnext, _⟩ := h.next_of_find hname hfind
    obtain ⟨v, ⟨rest, u, hu, rfl, last, hlast, hfault⟩, rfl⟩ := hfails hl hnext hrun
    refine ⟨p :: rest, u, by simpa using hu, rfl, last, by simpa using hlast, ?_⟩
    have hdepth : (path ++ [c]).length + rest.length = path.length + (p :: rest).length := by
      simp only [List.length_append, List.length_cons, List.length_nil]
      omega
    rwa [hdepth] at hfault

include hlink hfails

theorem linkSupertypes_error (h : Underway files start region (path ++ [c]) s)
    (hrun : linkSupertypes files link c s = .error e t) :
    Stuck files start region path c e t := by
  rcases split_of_linkSupertypes_eq_error hrun with ⟨source, hsource, rfl, rfl⟩ |
      ⟨names, before, name, after, found, u, _, hsplit, hbefore, hfail⟩
  · exact h.stuck_of_fault (.dangling hsource)
  · -- the visits before the one that fails succeed, and so they preserve the invariant
    obtain ⟨hu, _⟩ := h.interfaces_ok hlink (fun name hname ↦ by simp [hsplit, hname]) hbefore
    exact hu.supertype_error hfails (by simp [hsplit]) hfail

end

/-- **What a visit does that fails.** It got stuck at a class further along the path, and
everything from there back to the class it came to is no longer cached. -/
theorem fails_linkWithin (files : FileSystem) (start : LoaderState) (region : String → Prop) :
    ∀ (allowance : Nat) (path : List Class),
      allowance + path.length = start.loader.maxLinkDepth + 1 →
        Fails files start region path (linkWithin files allowance) := by
  intro allowance
  induction allowance with
  | zero =>
    intro path hdepth c s e t h hnext hrun
    obtain ⟨stage, hc⟩ := hnext.cached
    rw [linkWithin_zero_apply hc] at hrun
    split at hrun
    · next hstage =>
      subst hstage
      cases hrun
      -- no mark is set at this depth, but one that was set would be gone with the class
      rw [h.maxLinkDepth_eq]
      exact ⟨_, (h.begin hc hnext).stuck_of_fault (.tooDeep (by omega)), by simp [evict_insert]⟩
    · cases hrun
  | succ allowance ih =>
    intro path hdepth c s e t h hnext hrun
    obtain ⟨stage, hc⟩ := hnext.cached
    rw [linkWithin_succ_apply hc] at hrun
    split at hrun
    · next hstage =>
      subst hstage
      obtain ⟨u, hsupertypes, rfl⟩ := linkDefined_eq_error_iff.mp hrun
      -- one less is allowed, but the path has one more
      have hfails := ih (path ++ [c]) (by rw [List.length_append, List.length_singleton]; omega)
      exact ⟨u, (h.begin hc hnext).linkSupertypes_error
        (passes_linkWithin files start region allowance _) hfails hsupertypes, rfl⟩
    · cases hrun

end Underway

end JavaClass
