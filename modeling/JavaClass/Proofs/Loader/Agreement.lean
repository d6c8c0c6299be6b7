import JavaClass.Proofs.Loader.Evolution
import JavaClass.Proofs.Loader.Tour

/-!
# Linking follows the tour

A call of linking goes where the tour goes that starts with the names of the linked classes. It
comes to the same files in the same order, since objects that are made on the way do not change
where names lead; it turns back where the tour does, since a name has been visited exactly if the
linking of its class has started; and so it fails with the same error or not at all.

What loading a name leads to is thereby a function of where names lead, of the limit of the loader,
and of the names that are linked. What else is cached does not matter.

## Main statements

* `Underway.follows_linkWithin`: every visit ends as its tour does.
* `Loader.load_cases`: what loading leads to.
-/

namespace JavaClass

open EStateM

namespace Loader

/-- What a tour through the classes of a loader goes by. -/
def territory (files : FileSystem) (loader : Loader) : Territory where
  lookup := loader.lookup files
  maxDepth := loader.maxLinkDepth

/-! ## Names that have been visited -/

variable {files : FileSystem} {l : Loader} {s : LoaderState} {c d : Class} {stage : Stage}
  {visited : Finset String} {name : String}

/-- The names are those of the classes whose linking has started. -/
def Visited (loader : Loader) (visited : Finset String) : Prop :=
  ∀ key, key ∈ visited ↔ ∃ c, loader.Started c ∧ c.name = key

theorem Visited.mem_iff (h : l.Visited visited) (hc : l.Has c stage) :
    c.name ∈ visited ↔ stage ≠ .defined := by
  rw [h]
  constructor
  · rintro ⟨d, ⟨stage', hstage', hd⟩, hname⟩
    obtain rfl := hd.eq_of_name_eq hc hname
    rwa [hc.stage_eq hd]
  · exact fun hstage ↦ ⟨c, ⟨stage, hstage, hc⟩, rfl⟩

theorem visited_insert (h : l.Visited visited) (c : Class) (stage : Stage)
    (hstage : stage ≠ .defined) :
    (l.insert c.name (.holds c stage)).Visited (Insert.insert c.name visited) := by
  intro key
  rw [Finset.mem_insert, h]
  constructor
  · rintro (rfl | ⟨d, ⟨stage', hstage', hd⟩, rfl⟩)
    · exact ⟨c, ⟨stage, hstage, has_insert_self _ _ _⟩, rfl⟩
    · by_cases hname : c.name = d.name
      · exact ⟨c, ⟨stage, hstage, has_insert_self _ _ _⟩, hname⟩
      · exact ⟨d, ⟨stage', hstage', has_insert_iff.mpr (.inr ⟨hname, hd⟩)⟩, rfl⟩
  · rintro ⟨d, ⟨stage', hstage', hd⟩, rfl⟩
    rcases has_insert_iff.mp hd with ⟨rfl, _⟩ | ⟨_, hd⟩
    · exact .inl rfl
    · exact .inr ⟨d, ⟨stage', hstage', hd⟩, rfl⟩

theorem started_enter_iff (habsent : s.loader.cache[c.name]? = none) :
    (s.enter c).loader.Started d ↔ s.loader.Started d := by
  refine exists_congr fun stage ↦ and_congr_right fun hstage ↦ ?_
  rw [has_enter_iff habsent]
  exact or_iff_right fun h ↦ hstage h.2

theorem Visited.of_find {t : LoaderState} (h : s.loader.Visited visited)
    (hwf : s.loader.WellFormed) (hfind : find files name s = .ok (some c) t) :
    t.loader.Visited visited := by
  obtain ⟨hlookup, ⟨_, rfl⟩ | ⟨habsent, _, rfl⟩⟩ := of_find_eq_some hwf hfind
  · exact h
  · have habsent' := absent_of_lookup hwf habsent hlookup
    intro key
    simp only [h key, started_enter_iff habsent']

/-! ## Ends that agree -/

/-- A part of a call ends as a part of a tour does. -/
inductive Agrees {α : Type} :
    Result LoadError LinkState α → Except LoadError (Finset String) → Prop
  | ok {a : α} {t : LinkState} {visited : Finset String} (h : t.loader.Visited visited) :
    Agrees (.ok a t) (.ok visited)
  | error {e : LoadError} {t : LinkState} : Agrees (.error e t) (.error e)

namespace Agrees

variable {α β : Type} {x : LinkM α} {s : LinkState} {y : Except LoadError (Finset String)}

theorem bind {f : α → LinkM β} {g : Finset String → Except LoadError (Finset String)}
    (h : Agrees (x s) y) (hnext : ∀ a t visited, x s = .ok a t → t.loader.Visited visited →
      Agrees (f a t) (g visited)) : Agrees ((x >>= f) s) (y >>= g) := by
  rw [bind_apply]
  generalize hx : x s = r at h
  cases h with
  | ok hvisited => exact hnext _ _ _ hx hvisited
  | error => exact .error

theorem eq_error {e : LoadError} {t : LinkState}
    (h : Agrees (.error e t : Result LoadError LinkState α) y) : y = .error e := by
  cases h
  rfl

theorem exists_eq_ok {a : α} {t : LinkState} (h : Agrees (.ok a t) y) :
    ∃ visited, y = .ok visited ∧ t.loader.Visited visited := by
  cases h with
  | ok hvisited => exact ⟨_, rfl, hvisited⟩

theorem map {f : α → β} (h : Agrees (x s) y) : Agrees ((f <$> x) s) y := by
  rw [map_apply]
  generalize x s = r at h
  cases h with
  | ok hvisited => exact .ok hvisited
  | error => exact .error

end Agrees

end Loader

namespace Underway

open Loader

variable {files : FileSystem} {start : LoaderState} {region : String → Prop} {path : List Class}
  {link : Class → LinkM Unit} {c : Class} {name : String} {s : LinkState}
  {tour : ClassFile → Finset String → Except LoadError (Finset String)} {visited : Finset String}

/-- Linking by `link` from the end of the path ends as the tour does. -/
def Follows (files : FileSystem) (start : LoaderState) (region : String → Prop) (path : List Class)
    (link : Class → LinkM Unit)
    (tour : ClassFile → Finset String → Except LoadError (Finset String)) : Prop :=
  ∀ ⦃p s visited⦄, Underway files start region path s → Next files start region path s p →
    s.loader.Visited visited → Agrees (link p s) (tour p.file visited)

section

variable (hlink : Passes files start region (path ++ [c]) link)
  (hfollows : Follows files start region (path ++ [c]) link tour)

include hfollows in
theorem agrees_supertype (h : Underway files start region (path ++ [c]) s)
    (hname : name ∈ c.file.supertypeNames) (hvisited : s.loader.Visited visited) :
    Agrees (supertype files link c name s)
      ((start.loader.territory files).tourSupertype tour c.file visited name) := by
  have hlookup : (start.loader.territory files).lookup name = s.loader.lookup files name :=
    (h.lookup_eq h.atRest.wellFormed name).symm
  rw [supertype, bind_apply, liftM_apply, Territory.tourSupertype, hlookup]
  cases hfind : find files name s.toLoaderState with
  | error e l =>
    rw [(of_find_eq_error h.wellFormed hfind).1]
    exact .error
  | ok found l =>
    cases found with
    | none =>
      rw [(of_find_eq_none h.wellFormed hfind).1]
      exact .error
    | some p =>
      obtain ⟨hl, _, hnext, _⟩ := h.next_of_find hname hfind
      rw [(of_find_eq_some h.wellFormed hfind).1]
      exact (hfollows hl hnext (hvisited.of_find h.wellFormed hfind)).map

include hfollows in
theorem agrees_superclass {superName : Option String}
    (h : Underway files start region (path ++ [c]) s)
    (hname : ∀ name, superName = some name → name ∈ c.file.supertypeNames)
    (hvisited : s.loader.Visited visited) :
    Agrees (superName.mapM (supertype files link c) s)
      (superName.toList.foldlM ((start.loader.territory files).tourSupertype tour c.file)
        visited) := by
  cases superName with
  | none => exact .ok hvisited
  | some name =>
    rw [Option.toList_some, List.foldlM_cons]
    simp only [List.foldlM_nil, bind_pure]
    exact (h.agrees_supertype hfollows (hname name rfl) hvisited).map

include hlink hfollows

theorem agrees_interfaces {names : List String} (h : Underway files start region (path ++ [c]) s)
    (hnames : ∀ name ∈ names, name ∈ c.file.supertypeNames) (hvisited : s.loader.Visited visited) :
    Agrees (names.mapM (supertype files link c) s)
      (names.foldlM ((start.loader.territory files).tourSupertype tour c.file) visited) := by
  induction names generalizing s visited with
  | nil => exact .ok hvisited
  | cons name names ih =>
    have hname := hnames name List.mem_cons_self
    rw [List.mapM_cons, List.foldlM_cons]
    refine (h.agrees_supertype hfollows hname hvisited).bind fun p t visited' hrun hvisited' ↦ ?_
    obtain ⟨ht, _⟩ := h.supertype_ok hlink hname hrun
    exact (ih ht (fun name' h' ↦ hnames name' (List.mem_cons_of_mem _ h')) hvisited').map

theorem agrees_linkSupertypes (h : Underway files start region (path ++ [c]) s)
    (hvisited : s.loader.Visited visited) :
    Agrees (linkSupertypes files link c s)
      ((start.loader.territory files).tourSupertypes tour c.file visited) := by
  rw [linkSupertypes, Territory.tourSupertypes]
  cases hnames : c.file.interfaceNames with
  | error source => exact .error
  | ok names =>
    dsimp only
    rw [ClassFile.supertypeNames_eq hnames, List.foldlM_append]
    have hinterfaces (name : String) (hname : name ∈ names) : name ∈ c.file.supertypeNames :=
      ClassFile.mem_supertypeNames_of_interface hnames hname
    refine (h.agrees_interfaces hlink hfollows hinterfaces hvisited).bind
      fun interfaces u visited' hrun hvisited' ↦ ?_
    obtain ⟨hu, _⟩ := h.interfaces_ok hlink hinterfaces hrun
    have hname (name : String) (h : c.superName = some name) : name ∈ c.file.supertypeNames :=
      ClassFile.mem_supertypeNames_of_superclass h
    have hsuperclass := hu.agrees_superclass hfollows hname hvisited'
    rw [← bind_pure (List.foldlM _ _ _)]
    exact hsuperclass.bind fun superclass v visited'' _ hvisited'' ↦ .ok hvisited''

theorem agrees_linkDefined (h : Underway files start region path s)
    (hc : s.loader.Has c .defined) (hnext : Next files start region path s c)
    (hsub : ∀ file visited visited', tour file visited = .ok visited' → visited ⊆ visited')
    (hvisited : s.loader.Visited visited) :
    Agrees (linkDefined (linkSupertypes files link) c s)
      ((start.loader.territory files).tourSupertypes tour c.file (insert c.name visited)) := by
  have hsupertypes := (h.begin hc hnext).agrees_linkSupertypes hlink hfollows
    (visited_insert hvisited c .linking (by simp))
  rw [linkDefined_apply]
  cases hrun : linkSupertypes files link c _ with
  | error e u =>
    rw [hrun] at hsupertypes
    rw [hsupertypes.eq_error]
    exact .error
  | ok _ u =>
    rw [hrun] at hsupertypes
    obtain ⟨visited', htour, hvisited'⟩ := hsupertypes.exists_eq_ok
    have hmem : c.name ∈ visited' :=
      Territory.subset_of_tourSupertypes hsub htour (Finset.mem_insert_self _ _)
    have hdone := visited_insert hvisited' c .linked (by simp)
    rw [Finset.insert_eq_of_mem hmem] at hdone
    rw [htour]
    exact .ok hdone

end

/-- **Every visit ends as its tour does.** -/
theorem follows_linkWithin (files : FileSystem) (start : LoaderState) (region : String → Prop) :
    ∀ (allowance : Nat) (path : List Class),
      Follows files start region path (linkWithin files allowance)
        ((start.loader.territory files).tour allowance) := by
  intro allowance
  induction allowance with
  | zero =>
    intro path c s visited h hnext hvisited
    obtain ⟨stage, hc⟩ := hnext.cached
    have hmem : c.file.name ∈ visited ↔ stage ≠ .defined := hvisited.mem_iff hc
    rw [linkWithin_zero_apply hc, Territory.tour, h.maxLinkDepth_eq]
    split
    · next hstage =>
      rw [if_neg fun hmem' ↦ hmem.mp hmem' hstage]
      exact .error
    · next hstage =>
      rw [if_pos (hmem.mpr hstage)]
      exact .ok hvisited
  | succ allowance ih =>
    intro path c s visited h hnext hvisited
    obtain ⟨stage, hc⟩ := hnext.cached
    have hmem : c.file.name ∈ visited ↔ stage ≠ .defined := hvisited.mem_iff hc
    rw [linkWithin_succ_apply hc, Territory.tour]
    split
    · next hstage =>
      subst hstage
      rw [if_neg fun hmem' ↦ hmem.mp hmem' rfl]
      exact h.agrees_linkDefined (passes_linkWithin files start region allowance _)
        (ih (path ++ [c])) hc hnext (fun _ _ _ ↦ Territory.subset_of_tour) hvisited
    · next hstage =>
      rw [if_pos (hmem.mpr hstage)]
      exact .ok hvisited

end Underway

/-! ## Linked names -/

namespace Loader

variable {files : FileSystem} {l : Loader} {s t : LoaderState} {c : Class} {stage : Stage}
  {name key : String}

def linkedNames (loader : Loader) : Finset String :=
  ((loader.classes.filter (·.2.2 = .linked)).map Prod.fst).toFinset

theorem mem_linkedNames_iff :
    key ∈ l.linkedNames ↔ ∃ c, l.cache[key]? = some (.holds c .linked) := by
  simp only [linkedNames, List.mem_toFinset, List.mem_map, List.mem_filter, decide_eq_true_eq]
  constructor
  · rintro ⟨⟨key, c, stage⟩, ⟨hmem, rfl⟩, rfl⟩
    exact ⟨c, mem_classes_iff.mp hmem⟩
  · rintro ⟨c, hc⟩
    exact ⟨(key, c, .linked), ⟨mem_classes_iff.mpr hc, rfl⟩, rfl⟩

theorem WellFormed.mem_linkedNames_iff (h : l.WellFormed) :
    key ∈ l.linkedNames ↔ ∃ c, l.Has c .linked ∧ c.name = key := by
  rw [Loader.mem_linkedNames_iff]
  constructor
  · rintro ⟨c, hc⟩
    obtain ⟨hc, rfl⟩ := h.has_of_getElem? hc
    exact ⟨c, hc, rfl⟩
  · rintro ⟨c, hc, rfl⟩
    exact ⟨c, hc⟩

theorem linkedNames_eq_of_iff (hs : s.loader.WellFormed) (ht : t.loader.WellFormed)
    (h : ∀ c, t.loader.Has c .linked ↔ s.loader.Has c .linked) :
    t.loader.linkedNames = s.loader.linkedNames := by
  ext key
  simp only [hs.mem_linkedNames_iff, ht.mem_linkedNames_iff, h]

/-- In between two calls the names that have been visited are the linked ones. -/
theorem visited_iff_of_atRest (h : s.AtRest) {visited : Finset String} :
    s.loader.Visited visited ↔ visited = s.loader.linkedNames := by
  have hstarted {c : Class} : s.loader.Started c ↔ s.loader.Has c .linked := by
    constructor
    · rintro ⟨stage, hstage, hc⟩
      cases stage with
      | defined => exact absurd rfl hstage
      | linking => exact absurd hc (h.not_linking c)
      | linked => exact hc
    · exact fun hc ↦ ⟨.linked, by simp, hc⟩
  simp only [Visited, hstarted, Finset.ext_iff, h.wellFormed.mem_linkedNames_iff]

/-! ## Loading -/

/-- What loading a name leads to: an error, or no class, or the file of the class together with the
names that are linked then. -/
def loadTour (files : FileSystem) (loader : Loader) (name : String) :
    Except LoadError (Option (ClassFile × Finset String)) :=
  match loader.lookup files name with
  | .error e => .error e
  | .ok none => .ok none
  | .ok (some file) =>
    (fun visited ↦ some (file, visited)) <$>
      (loader.territory files).tour (loader.maxLinkDepth + 1) file loader.linkedNames

theorem link_cases (files : FileSystem) (h : s.AtRest) (hc : s.loader.Has c stage) :
    (∃ e t, link files c s = .error e t ∧
      (s.loader.territory files).tour (s.loader.maxLinkDepth + 1) c.file s.loader.linkedNames =
        .error e ∧ t.loader.linkedNames = s.loader.linkedNames) ∨
    ∃ t, link files c s = .ok () t ∧
      (s.loader.territory files).tour (s.loader.maxLinkDepth + 1) c.file s.loader.linkedNames =
        .ok t.loader.linkedNames := by
  have hclosed := supertypeClosed_true files s.loader
  have hagrees := Underway.follows_linkWithin files s (fun _ ↦ True) (s.loader.maxLinkDepth + 1) []
    (.init h hclosed) (next_of_has hc trivial) ((visited_iff_of_atRest h).mpr rfl)
  cases hrun : linkWithin files (s.loader.maxLinkDepth + 1) c { s with linked := [] } with
  | error e u =>
    have hlink : link files c s = .error e (u.linked.foldl unlink u.toLoaderState) := by
      rw [link, hrun]
    obtain ⟨rest, v, hv, heq, _⟩ := link_error h hclosed hc trivial hlink
    rw [hrun] at hagrees
    refine .inl ⟨e, _, hlink, hagrees.eq_error, ?_⟩
    rw [heq]
    exact linkedNames_eq_of_iff h.wellFormed hv.atRest_takenBack.wellFormed
      fun _ ↦ hv.linked_takenBack_iff
  | ok _ u =>
    have hlink : link files c s = .ok () u.toLoaderState := by rw [link, hrun]
    obtain ⟨⟨v, hv, heq⟩, _⟩ := link_ok h hclosed hc trivial hlink
    rw [hrun] at hagrees
    obtain ⟨visited, htour, hvisited⟩ := hagrees.exists_eq_ok
    rw [(visited_iff_of_atRest (heq ▸ hv.atRest_end)).mp hvisited] at htour
    exact .inr ⟨_, hlink, htour⟩

theorem of_find (h : s.AtRest) (hfind : find files name s = .ok (some c) t) :
    t.loader.territory files = s.loader.territory files ∧
      t.loader.linkedNames = s.loader.linkedNames := by
  obtain ⟨hlookup, ⟨_, rfl⟩ | ⟨habsent, hid, rfl⟩⟩ := of_find_eq_some h.wellFormed hfind
  · exact ⟨rfl, rfl⟩
  · have hgrown := h.grown.enter h.wellFormed habsent hlookup hid
    have habsent' := absent_of_lookup h.wellFormed habsent hlookup
    constructor
    · exact congrArg₂ Territory.mk (funext (hgrown.lookup_eq h.wellFormed)) hgrown.maxLinkDepth_eq
    · refine linkedNames_eq_of_iff h.wellFormed hgrown.wellFormed fun d ↦ ?_
      rw [has_enter_iff habsent']
      simp

/-- **What loading leads to** depends on where names lead, on the limit, and on the linked names. -/
theorem load_cases (files : FileSystem) (name : String) (h : s.AtRest) :
    (∃ e t, load files name s = .error e t ∧ s.loader.loadTour files name = .error e ∧
      t.loader.linkedNames = s.loader.linkedNames) ∨
    (load files name s = .ok none s ∧ s.loader.loadTour files name = .ok none) ∨
    ∃ c t, load files name s = .ok (some c) t ∧
      s.loader.loadTour files name = .ok (some (c.file, t.loader.linkedNames)) := by
  rw [load, bind_apply, loadTour]
  cases hfind : find files name s with
  | error e t =>
    obtain ⟨hlookup, rfl⟩ := of_find_eq_error h.wellFormed hfind
    rw [hlookup]
    exact .inl ⟨e, t, rfl, rfl, rfl⟩
  | ok found t =>
    cases found with
    | none =>
      obtain ⟨hlookup, rfl⟩ := of_find_eq_none h.wellFormed hfind
      rw [hlookup]
      exact .inr (.inl ⟨rfl, rfl⟩)
    | some c =>
      have hrest : t.AtRest := by
        simpa [hfind] using (LoaderState.evolves_find files name h).atRest
      obtain ⟨stage, hc⟩ := exists_has_of_find h.wellFormed hfind
      obtain ⟨hterritory, hlinked⟩ := of_find h hfind
      have hdepth : t.loader.maxLinkDepth = s.loader.maxLinkDepth :=
        congrArg Territory.maxDepth hterritory
      rw [(of_find_eq_some h.wellFormed hfind).1]
      dsimp only
      rw [bind_apply, ← hterritory, ← hlinked, ← hdepth]
      rcases link_cases files hrest hc with ⟨e, u, hlink, htour, hu⟩ | ⟨u, hlink, htour⟩
      · rw [hlink, htour]
        exact .inl ⟨e, u, rfl, rfl, hu⟩
      · rw [hlink, htour]
        exact .inr (.inr ⟨c, u, rfl, rfl⟩)

end Loader

end JavaClass
