import JavaClass.Proofs.Loader.Supertypes
import Mathlib.Data.List.Chain

/-!
# A call of linking that is under way

In between two steps of a call the cache is not at rest. Some classes are on the path from the
first class of the call to the one that is being looked at; they have no supertypes yet. Some are
finished, but what they point at may be on the path, so it is not linked yet and perhaps never will
be. All others are as the call found them, apart from those that it defined.

`Underway` is what holds throughout. It compares the state with the one in which the call started,
for a path that is part of the statement and not of the state. The call takes three kinds of steps:
a class is defined (`Underway.enter`), a class gets onto the path (`Underway.begin`), and the last
class of the path gets its pointers and leaves it (`Underway.finish`).

## Main definitions

* `LoaderState.Grown`: classes have been added to a loader, and none has been removed.
* `LoaderState.Declares`: how classes of a path follow each other.
* `Underway`: the invariant of a call of linking.
-/

namespace JavaClass

/-! ## Where names lead -/

namespace LoaderState

open Loader

variable {files : FileSystem} {start s : LoaderState} {c : Class} {name : String}

/-- The name leads to the class: it is the one in the cache, or there is none and it is a new one
for the file that is found. -/
def LeadsTo (files : FileSystem) (s : LoaderState) (name : String) (c : Class) : Prop :=
  (∃ stage, s.loader.entry? name = some (.holds c stage)) ∨
    s.loader.entry? name = none ∧ s.loader.lookup files name = .ok (some c.file) ∧
      s.heap.links.size ≤ c.id

/-- The class is one that a supertype name of `p` leads to. -/
def Declares (files : FileSystem) (s : LoaderState) (p c : Class) : Prop :=
  ∃ name ∈ p.file.supertypeNames, s.LeadsTo files name c

@[simp] theorem leadsTo_internalName :
    s.LeadsTo files (internalName name) c ↔ s.LeadsTo files name c := by
  rw [LeadsTo, LeadsTo, entry?_internalName, lookup_internalName]

theorem LeadsTo.lookup_eq (h : s.LeadsTo files name c) :
    s.loader.lookup files name = .ok (some c.file) := by
  rcases h with ⟨stage, hentry⟩ | ⟨_, hlookup, _⟩
  · rw [lookup, hentry]
  · exact hlookup

/-! ## Loaders that grow -/

/-- The state is one in which every class of the state `start` is still cached, and every class
that is cached is one to which its name led then. -/
structure Grown (files : FileSystem) (start s : LoaderState) : Prop extends s.Coherent where
  searchPath_eq : s.loader.searchPath = start.loader.searchPath
  maxLinkDepth_eq : s.loader.maxLinkDepth = start.loader.maxLinkDepth
  size_le : start.heap.links.size ≤ s.heap.links.size
  kept : ∀ {c stage}, start.loader.Has c stage → ∃ stage', s.loader.Has c stage'
  leads : ∀ {c stage}, s.loader.Has c stage → start.LeadsTo files c.name c

theorem AtRest.grown (h : start.AtRest) : start.Grown files start where
  toCoherent := h.toCoherent
  searchPath_eq := rfl
  maxLinkDepth_eq := rfl
  size_le := Nat.le_refl _
  kept := fun hc ↦ ⟨_, hc⟩
  leads := fun hc ↦ .inl ⟨_, hc.entry?_eq (h.wellFormed.internalName_name hc)⟩

namespace Grown

theorem absent_of_absent (h : start.Grown files s) (hstart : start.loader.WellFormed)
    {key : String} (habsent : s.loader.cache[key]? = none) : start.loader.cache[key]? = none := by
  rcases hstart.has_or_absent key with ⟨c, stage, hc, hname⟩ | hnone
  · obtain ⟨stage', hc'⟩ := h.kept hc
    rw [Has, hname, habsent] at hc'
    cases hc'
  · exact hnone

theorem lookup_eq (h : start.Grown files s) (hstart : start.loader.WellFormed) (name : String) :
    s.loader.lookup files name = start.loader.lookup files name := by
  rcases h.wellFormed.has_or_absent (internalName name) with ⟨c, stage, hc, hname⟩ | habsent
  · have hleads := h.leads hc
    rw [hname, leadsTo_internalName] at hleads
    rw [hleads.lookup_eq, lookup, hc.entry?_eq hname.symm]
  · rw [lookup, lookup, Loader.entry?, Loader.entry?, habsent, h.absent_of_absent hstart habsent]
    simp only [candidates, h.searchPath_eq]

/-- A class that is cached now is one to which its name led, however the name is spelled. -/
theorem leadsTo (h : start.Grown files s) {stage : Stage} (hc : s.loader.Has c stage)
    (hname : internalName name = c.name) : start.LeadsTo files name c := by
  rw [← leadsTo_internalName, hname]
  exact h.leads hc

theorem enter (h : start.Grown files s) (hstart : start.loader.WellFormed)
    (habsent : s.loader.entry? name = none)
    (hlookup : s.loader.lookup files name = .ok (some c.file)) (hid : c.id = s.heap.links.size) :
    start.Grown files (s.enter c) := by
  have hname : c.name = internalName name := name_of_lookup h.wellFormed hlookup
  have habsent' : s.loader.cache[c.name]? = none := by rwa [hname]
  constructor
  case toCoherent =>
    exact h.toCoherent.enter (by rw [hname, internalName_internalName]) habsent' hid
  case searchPath_eq => exact h.searchPath_eq
  case maxLinkDepth_eq => exact h.maxLinkDepth_eq
  case size_le =>
    rw [LoaderState.enter, Heap.size_allocate]
    exact Nat.le_succ_of_le h.size_le
  case kept =>
    intro d stage hd
    obtain ⟨stage', hd'⟩ := h.kept hd
    exact ⟨stage', (has_enter_iff habsent').mpr (.inr hd')⟩
  case leads =>
    intro d stage hd
    rcases (has_enter_iff habsent').mp hd with ⟨rfl, _⟩ | hd
    · rw [hname, leadsTo_internalName]
      exact .inr ⟨h.absent_of_absent hstart habsent, by rwa [← h.lookup_eq hstart],
        hid ▸ h.size_le⟩
    · exact h.leads hd

theorem restage (h : start.Grown files s) {stage : Stage} (hc : s.loader.Has c stage)
    (stage' : Stage) {heap : Heap} (hsize : heap.links.size = s.heap.links.size) :
    start.Grown files ⟨s.loader.insert c.name (.holds c stage'), heap⟩ := by
  constructor
  case toCoherent => exact h.toCoherent.restage hc stage' hsize
  case searchPath_eq => exact h.searchPath_eq
  case maxLinkDepth_eq => exact h.maxLinkDepth_eq
  case size_le => exact hsize ▸ h.size_le
  case kept => exact fun hd ↦ (exists_has_restage_iff hc).mpr (h.kept hd)
  case leads =>
    intro d stage'' hd
    obtain ⟨_, hd⟩ := (exists_has_restage_iff hc).mp ⟨stage'', hd⟩
    exact h.leads hd

end Grown

end LoaderState

/-! ## Classes whose linking has started -/

namespace Loader

variable {l m n : Loader} {c : Class}

/-- The class is being linked, or it has been linked. -/
def Started (loader : Loader) (c : Class) : Prop := ∃ stage, stage ≠ .defined ∧ loader.Has c stage

/-- The name is that of a class whose linking has started. -/
def Provides (loader : Loader) (name : String) (c : Class) : Prop :=
  internalName name = c.name ∧ loader.Started c

/-- No linking that has started is given up. -/
def Extends (l m : Loader) : Prop := ∀ ⦃c⦄, l.Started c → m.Started c

theorem Extends.refl (l : Loader) : l.Extends l := fun _ h ↦ h

theorem Extends.trans (h : l.Extends m) (h' : m.Extends n) : l.Extends n := fun _ hc ↦ h' (h hc)

theorem Extends.provides (h : l.Extends m) (name : String) (c : Class)
    (hc : l.Provides name c) : m.Provides name c := ⟨hc.1, h hc.2⟩

theorem extends_enter {s : LoaderState} (habsent : s.loader.cache[c.name]? = none) :
    s.loader.Extends (s.enter c).loader := by
  rintro d ⟨stage, hstage, hd⟩
  exact ⟨stage, hstage, (has_enter_iff habsent).mpr (.inr hd)⟩

theorem extends_restage {stage stage' : Stage} (hc : l.Has c stage) (hstage' : stage' ≠ .defined) :
    l.Extends (l.insert c.name (.holds c stage')) := by
  rintro d ⟨stage'', hstage'', hd⟩
  by_cases hdc : d = c
  · exact ⟨stage', hstage', (has_restage_iff hc).mpr (.inl ⟨hdc, rfl⟩)⟩
  · exact ⟨stage'', hstage'', (has_restage_iff hc).mpr (.inr ⟨hdc, hd⟩)⟩

end Loader

/-! ## The invariant -/

open Loader

/-- A set of names that has, with the name of a class, those of its supertypes. -/
def Loader.SupertypeClosed (files : FileSystem) (loader : Loader) (region : String → Prop) : Prop :=
  ∀ ⦃key name file found⦄, region key → loader.lookup files key = .ok (some file) →
    name ∈ file.supertypeNames → loader.lookup files name = .ok (some found) →
      region (internalName name)

theorem Loader.supertypeClosed_true (files : FileSystem) (loader : Loader) :
    loader.SupertypeClosed files fun _ ↦ True := fun _ _ _ _ _ _ _ _ ↦ trivial

/-- What holds in the course of a call of linking that began in the state `start` and has come
along `path`, which begins with the class that is to be linked. The call stays in `region`. -/
structure Underway (files : FileSystem) (start : LoaderState) (region : String → Prop)
    (path : List Class) (s : LinkState) : Prop extends start.Grown files s.toLoaderState where
  atRest : start.AtRest
  closed : start.loader.SupertypeClosed files region
  outside : ∀ {key : String}, ¬ region key → s.loader.cache[key]? = start.loader.cache[key]?
  nodup : path.Nodup
  chain : path.IsChain (start.Declares files)
  /-- The classes on the path are those that are being linked. -/
  linking_iff : ∀ {c}, s.loader.Has c .linking ↔ c ∈ path
  linked_kept : ∀ {c}, start.loader.Has c .linked → s.loader.Has c .linked
  /-- The call keeps a list of the classes that it has finished. -/
  mem_linked_iff : ∀ {c}, c ∈ s.linked ↔ s.loader.Has c .linked ∧ ¬ start.loader.Has c .linked
  linked_nodup : s.linked.Nodup
  /-- What these point at may still be on the path. -/
  points : ∀ {c}, c ∈ s.linked → s.heap.Points s.loader.Provides c
  /-- No other object has been touched. -/
  linksOf_eq : ∀ {d}, (∀ c ∈ s.linked, c.id ≠ d.id) → s.heap.linksOf d = start.heap.linksOf d
  constants_eq : ∀ {d}, (s.heap.linksOf d).constants = (start.heap.linksOf d).constants

namespace Underway

variable {files : FileSystem} {start : LoaderState} {region : String → Prop} {path : List Class}
  {s : LinkState} {c : Class} {name : String}

/-- The class that a call comes to from the end of its path. -/
structure Next (files : FileSystem) (start : LoaderState) (region : String → Prop)
    (path : List Class) (s : LinkState) (c : Class) : Prop where
  cached : ∃ stage, s.loader.Has c stage
  inRegion : region c.name
  declared : ∀ p ∈ path.getLast?, start.Declares files p c

theorem init (hstart : start.AtRest) (hclosed : start.loader.SupertypeClosed files region) :
    Underway files start region [] { start with linked := [] } where
  toGrown := hstart.grown
  atRest := hstart
  closed := hclosed
  outside := fun _ ↦ rfl
  nodup := .nil
  chain := .nil
  linking_iff := fun {c} ↦ by simpa using hstart.not_linking c
  linked_kept := fun hc ↦ hc
  mem_linked_iff := by simp
  linked_nodup := .nil
  points := by simp
  linksOf_eq := fun _ ↦ rfl
  constants_eq := rfl

theorem region_of_mem_path (h : Underway files start region path s) (hc : c ∈ path) :
    region c.name := by
  by_contra hregion
  have hlinking : s.loader.Has c .linking := h.linking_iff.mpr hc
  rw [Has, h.outside hregion] at hlinking
  exact h.atRest.not_linking c hlinking

/-- The call defines a class. -/
theorem enter (h : Underway files start region path s) (habsent : s.loader.entry? name = none)
    (hlookup : s.loader.lookup files name = .ok (some c.file)) (hid : c.id = s.heap.links.size)
    (hregion : region c.name) :
    Underway files start region path { s with toLoaderState := s.toLoaderState.enter c } := by
  have habsent' := absent_of_lookup h.wellFormed habsent hlookup
  constructor
  case toGrown => exact h.toGrown.enter h.atRest.wellFormed habsent hlookup hid
  case atRest => exact h.atRest
  case closed => exact h.closed
  case outside =>
    intro key hkey
    have hne : c.name ≠ key := fun heq ↦ hkey (heq ▸ hregion)
    rw [← h.outside hkey, LoaderState.enter, getElem?_cache_insert, if_neg hne]
  case nodup => exact h.nodup
  case chain => exact h.chain
  case linking_iff =>
    intro d
    rw [has_enter_iff habsent', h.linking_iff]
    simp
  case linked_kept => exact fun hd ↦ (has_enter_iff habsent').mpr (.inr (h.linked_kept hd))
  case mem_linked_iff =>
    intro d
    rw [has_enter_iff habsent', h.mem_linked_iff]
    simp
  case linked_nodup => exact h.linked_nodup
  case points =>
    exact fun hd ↦ (h.points hd).imp_of_linksOf_eq (Heap.linksOf_allocate s.heap c.file _)
      (extends_enter habsent').provides
  case linksOf_eq =>
    intro d hd
    rw [← h.linksOf_eq hd]
    exact Heap.linksOf_allocate s.heap c.file d
  case constants_eq =>
    intro d
    rw [← h.constants_eq]
    exact congrArg Links.constants (Heap.linksOf_allocate s.heap c.file d)

/-- The call gets to a class that is only defined so far. -/
theorem begin (h : Underway files start region path s) (hc : s.loader.Has c .defined)
    (hnext : Next files start region path s c) :
    Underway files start region (path ++ [c])
      { s with loader := s.loader.insert c.name (.holds c .linking) } := by
  -- being merely defined, the class is neither on the path nor finished
  have hstage {stage : Stage} (hd : s.loader.Has c stage) : stage = .defined := hd.stage_eq hc
  have hpath : c ∉ path := fun hmem ↦ by cases hstage (h.linking_iff.mpr hmem)
  constructor
  case toGrown => exact h.toGrown.restage hc .linking rfl
  case atRest => exact h.atRest
  case closed => exact h.closed
  case outside =>
    intro key hkey
    have hne : c.name ≠ key := fun heq ↦ hkey (heq ▸ hnext.inRegion)
    rw [← h.outside hkey, getElem?_cache_insert, if_neg hne]
  case nodup =>
    refine List.nodup_append.mpr ⟨h.nodup, (by simp), fun d hd d' hd' ↦ ?_⟩
    rw [List.mem_singleton.mp hd']
    exact fun heq ↦ hpath (heq ▸ hd)
  case chain => exact h.chain.append (.singleton c) (by simpa using hnext.declared)
  case linking_iff =>
    intro d
    rw [has_restage_iff hc, h.linking_iff, List.mem_append, List.mem_singleton, or_comm]
    exact or_congr (and_iff_right_of_imp fun hd heq ↦ hpath (heq ▸ hd)) (by simp)
  case linked_kept =>
    intro d hd
    refine (has_restage_iff hc).mpr (.inr ⟨?_, h.linked_kept hd⟩)
    rintro rfl
    cases hstage (h.linked_kept hd)
  case mem_linked_iff =>
    intro d
    rw [has_restage_iff hc, h.mem_linked_iff]
    refine and_congr_left fun _ ↦ ⟨fun hd ↦ .inr ⟨?_, hd⟩, ?_⟩
    · rintro rfl
      cases hstage hd
    · rintro (⟨_, ⟨⟩⟩ | ⟨_, hd⟩)
      exact hd
  case linked_nodup => exact h.linked_nodup
  case points =>
    exact fun hd ↦ (h.points hd).imp rfl rfl (extends_restage hc (by simp)).provides
  case linksOf_eq => exact h.linksOf_eq
  case constants_eq => exact h.constants_eq

/-- The last class of the path gets its pointers. -/
theorem finish (h : Underway files start region (path ++ [c]) s) {names : List String}
    {superclass : Option Class} {interfaces : List Class}
    (hnames : c.file.interfaceNames = .ok names)
    (hinterfaces : List.Forall₂ s.loader.Provides names interfaces)
    (hsuperclass : Option.Rel s.loader.Provides c.superName superclass) :
    Underway files start region path
      { loader := s.loader.insert c.name (.holds c .linked)
        heap := s.heap.setSupertypes c superclass interfaces
        linked := c :: s.linked } := by
  have hc : s.loader.Has c .linking := h.linking_iff.mpr (by simp)
  have hpath : c ∉ path := by
    obtain ⟨_, _, hdisjoint⟩ := List.nodup_append.mp h.nodup
    exact fun hmem ↦ hdisjoint c hmem c (by simp) rfl
  -- so no class that is linked is this one, and no pointer that counts is overwritten
  have hne {d : Class} (hd : s.loader.Has d .linked) : d ≠ c := by
    rintro rfl
    cases hd.stage_eq hc
  have hext : s.loader.Extends (s.loader.insert c.name (.holds c .linked)) :=
    extends_restage hc (by simp)
  constructor
  case toGrown => exact h.toGrown.restage hc .linked (Heap.size_modify _ _ _)
  case atRest => exact h.atRest
  case closed => exact h.closed
  case outside =>
    intro key hkey
    rw [← h.outside hkey, getElem?_cache_insert, if_neg]
    exact fun heq ↦ hkey (heq ▸ h.region_of_mem_path (by simp))
  case nodup => exact (List.nodup_append.mp h.nodup).1
  case chain => exact h.chain.left_of_append
  case linking_iff =>
    intro d
    rw [has_restage_iff hc, h.linking_iff, List.mem_append, List.mem_singleton]
    constructor
    · rintro (⟨_, ⟨⟩⟩ | ⟨hdc, hd⟩)
      exact hd.resolve_right hdc
    · exact fun hd ↦ .inr ⟨fun heq ↦ hpath (heq ▸ hd), .inl hd⟩
  case linked_kept =>
    exact fun hd ↦ (has_restage_iff hc).mpr (.inr ⟨hne (h.linked_kept hd), h.linked_kept hd⟩)
  case mem_linked_iff =>
    intro d
    rw [has_restage_iff hc, List.mem_cons, h.mem_linked_iff]
    constructor
    · rintro (rfl | ⟨hd, hstart⟩)
      · exact ⟨.inl ⟨rfl, rfl⟩, fun hstart ↦ hne (h.linked_kept hstart) rfl⟩
      · exact ⟨.inr ⟨hne hd, hd⟩, hstart⟩
    · rintro ⟨⟨hdc, _⟩ | ⟨_, hd⟩, hstart⟩
      · exact .inl hdc
      · exact .inr ⟨hd, hstart⟩
  case linked_nodup =>
    exact List.nodup_cons.mpr ⟨fun hd ↦ hne (h.mem_linked_iff.mp hd).1 rfl, h.linked_nodup⟩
  case points =>
    intro d hd
    rcases List.mem_cons.mp hd with rfl | hd
    · exact Heap.points_setSupertypes (h.made hc) hnames (hinterfaces.imp hext.provides)
        (optionRel_imp hext.provides hsuperclass)
    · have hd' : s.loader.Has d .linked := (h.mem_linked_iff.mp hd).1
      refine (h.points hd).imp_of_linksOf_eq (Heap.linksOf_modify_of_ne fun heq ↦ ?_) hext.provides
      exact hne hd' (h.identity hd' hc heq.symm)
  case linksOf_eq =>
    intro d hd
    rw [← h.linksOf_eq fun c' hc' ↦ hd c' (List.mem_cons_of_mem _ hc')]
    exact Heap.linksOf_modify_of_ne (hd c List.mem_cons_self)
  case constants_eq =>
    intro d
    rw [← h.constants_eq]
    exact Heap.constants_setSupertypes _ _ _ _ _

end Underway

end JavaClass
