import JavaClass.Proofs.Loader.Agreement
import JavaClass.Proofs.Loader.Paths

/-!
# The history of a loader

A loader that is only asked to find and to link has in its cache what it would find anyway: the
class of a name has the file to which the name led when nothing was cached. That a class was
defined before, or that it was evicted and has to be read again, makes no difference to where names
lead then.

What is linked makes no difference either. These classes have been found faultless with all of
their supertypes, and a tour that left them out would be the same, provided that it may go as deep
as there are class files. So loading leads to what it would have led to at the beginning.

## Main statements

* `Loader.FoundBy.lookup_eq`: names lead where they led at the beginning.
* `Loader.classFiles_subset`: which of them lead to files outside of the search path.
* `Loader.FoundBy.load_cases`: so does loading.
-/

namespace JavaClass

open Loader

/-! ## What has been found -/

namespace Loader

variable {files : FileSystem} {k l m : Loader} {c : Class} {name : String}

/-- The loader `m` has the settings of `l`, and whatever classes it has, `l` finds their files. -/
structure FoundBy (files : FileSystem) (l m : Loader) : Prop where
  searchPath_eq : m.searchPath = l.searchPath
  maxLinkDepth_eq : m.maxLinkDepth = l.maxLinkDepth
  cached : ∀ {c stage}, m.Has c stage → l.lookup files c.name = .ok (some c.file)

theorem FoundBy.trans (h : FoundBy files k l) (h' : FoundBy files l m)
    (hlookup : ∀ name, l.lookup files name = k.lookup files name) : FoundBy files k m where
  searchPath_eq := h'.searchPath_eq.trans h.searchPath_eq
  maxLinkDepth_eq := h'.maxLinkDepth_eq.trans h.maxLinkDepth_eq
  cached := fun hc ↦ hlookup _ ▸ h'.cached hc

/-- **Names lead where they led when nothing was cached.** -/
theorem FoundBy.lookup_eq (h : FoundBy files l m) (hempty : l.cache = ∅) (hwf : m.WellFormed)
    (name : String) : m.lookup files name = l.lookup files name := by
  rcases hwf.has_or_absent (internalName name) with ⟨c, stage, hc, hname⟩ | habsent
  · rw [lookup, hc.entry?_eq hname.symm, ← lookup_internalName files l, ← hname, h.cached hc]
  · have habsent' : l.cache[internalName name]? = none := by
      rw [hempty]
      exact Std.ExtTreeMap.getElem?_empty
    rw [lookup, lookup, Loader.entry?, Loader.entry?, habsent, habsent']
    simp only [candidates, h.searchPath_eq]

end Loader

/-! ## Calls -/

namespace Loader

@[simp] theorem searchPath_evictAll (loader : Loader) (path : List Class) :
    (loader.evictAll path).searchPath = loader.searchPath := by
  induction path with
  | nil => rfl
  | cons c path ih => exact ih

@[simp] theorem maxLinkDepth_evictAll (loader : Loader) (path : List Class) :
    (loader.evictAll path).maxLinkDepth = loader.maxLinkDepth := by
  induction path with
  | nil => rfl
  | cons c path ih => exact ih

theorem settings_unlink (s : LoaderState) (c : Class) :
    (unlink s c).loader.searchPath = s.loader.searchPath ∧
      (unlink s c).loader.maxLinkDepth = s.loader.maxLinkDepth := by
  rw [unlink]
  split
  · split <;> exact ⟨rfl, rfl⟩
  · exact ⟨rfl, rfl⟩

theorem settings_foldl_unlink (s : LoaderState) (cs : List Class) :
    (cs.foldl unlink s).loader.searchPath = s.loader.searchPath ∧
      (cs.foldl unlink s).loader.maxLinkDepth = s.loader.maxLinkDepth := by
  induction cs generalizing s with
  | nil => exact ⟨rfl, rfl⟩
  | cons c cs ih =>
    obtain ⟨hpath, hdepth⟩ := settings_unlink s c
    obtain ⟨hpath', hdepth'⟩ := ih (unlink s c)
    exact ⟨hpath'.trans hpath, hdepth'.trans hdepth⟩

end Loader

theorem LoaderState.Grown.foundBy {files : FileSystem} {s t : LoaderState} (h : s.Grown files t) :
    FoundBy files s.loader t.loader where
  searchPath_eq := h.searchPath_eq
  maxLinkDepth_eq := h.maxLinkDepth_eq
  cached := fun hc ↦ (h.leads hc).lookup_eq

theorem Underway.foundBy_takenBack {files : FileSystem} {start : LoaderState}
    {region : String → Prop} {path : List Class} {s : LinkState}
    (h : Underway files start region path s) :
    FoundBy files start.loader (s.takenBack path).loader := by
  obtain ⟨hpath, hdepth⟩ := settings_foldl_unlink ⟨s.loader.evictAll path, s.heap⟩ s.linked
  exact {
    searchPath_eq := hpath.trans ((searchPath_evictAll _ _).trans h.searchPath_eq)
    maxLinkDepth_eq := hdepth.trans ((maxLinkDepth_evictAll _ _).trans h.maxLinkDepth_eq)
    cached := fun hc ↦ by
      obtain ⟨_, _, hc⟩ := h.exists_has_of_has_takenBack hc
      exact (h.leads hc).lookup_eq }

namespace LoaderState

variable {files : FileSystem} {s t : LoaderState} {c : Class} {name : String}

theorem grown_find (files : FileSystem) (name : String) (h : s.AtRest) :
    s.Grown files (find files name s).state := by
  rcases find_cases h.wellFormed files name with ⟨c, _, _, _, hfind⟩ |
      ⟨c, habsent, hlookup, hid, hfind⟩ | ⟨_, hfind⟩ | ⟨e, _, hfind⟩ <;> rw [hfind]
  · exact h.grown
  · exact h.grown.enter h.wellFormed habsent hlookup hid
  · exact h.grown
  · exact h.grown

theorem foundBy_link (files : FileSystem) (h : s.AtRest)
    (hc : ∀ d stage, s.loader.Has d stage → d.id = c.id → d = c) :
    FoundBy files s.loader (link files c s).state.loader := by
  rcases link_state_cases files h hc with ⟨u, hu, hstate⟩ | ⟨path, u, hu, hstate⟩ | hstate <;>
    rw [hstate]
  · exact hu.foundBy
  · exact hu.foundBy_takenBack
  · exact h.grown.foundBy

theorem foundBy_load (files : FileSystem) (name : String) (h : s.AtRest) :
    FoundBy files s.loader (load files name s).state.loader := by
  have hgrown := grown_find files name h
  have hrest := (evolves_find files name h).atRest
  rcases load_state_cases files name h with hstate | ⟨c, stage, hc, hstate⟩ <;> rw [hstate]
  · exact hgrown.foundBy
  · have hlink := foundBy_link files hrest fun d stage' hd ↦ hrest.identity hd hc
    exact hgrown.foundBy.trans hlink (hgrown.lookup_eq h.wellFormed)

end LoaderState

/-! ## What has been linked -/

namespace Loader

variable {files : FileSystem} {l : Loader} {s : LoaderState} {name : String}

/-- Linked classes are faultless, and so are all of their supertypes. -/
theorem settled_linkedNames (files : FileSystem) (h : s.AtRest) :
    (s.loader.territory files).Settled s.loader.linkedNames := by
  intro name file hfile hmem
  obtain ⟨c, hc, hname⟩ := h.wellFormed.mem_linkedNames_iff.mp hmem
  have hkey : internalName name = c.name := by rw [hname, name_of_lookup h.wellFormed hfile]
  have hlookup {d : Class} {key : String} (hd : s.loader.entry? key = some (.holds d .linked)) :
      s.loader.lookup files key = .ok (some d.file) := by rw [lookup, hd]
  obtain rfl : c.file = file := by
    have heq := (hlookup (hc.entry?_eq hkey)).symm.trans hfile
    simpa using heq
  have hpoints := h.points hc
  constructor
  · obtain ⟨names, hnames, _⟩ := hpoints.interfaces
    exact ⟨names, hnames⟩
  · intro supertype hsupertype
    obtain ⟨p, hp⟩ := hpoints.exists_leads_of_mem hsupertype
    exact ⟨p.file, hlookup hp,
      h.wellFormed.mem_linkedNames_iff.mpr ⟨p, (h.wellFormed.has_of_entry? hp).1, rfl⟩⟩

/-- The paths of the class files to which names lead from the directories of the search path. They
are under these directories, except those of names that begin with a slash. -/
def classFiles (files : FileSystem) (loader : Loader) : Set Path :=
  {path | ∃ directory ∈ loader.searchPath, ∃ name : String,
    path = (Path.ofString directory).join (Path.ofString (internalName name ++ ".class")) ∧
      ∃ contents file rest, files.read path = some contents ∧
        ClassFile.decode contents = .ok file rest}

/-- The paths of the class files that are under the directories of the search path. -/
def rootFiles (files : FileSystem) (loader : Loader) : Set Path :=
  {path | ∃ directory ∈ loader.searchPath, path.IsUnder (Path.ofString directory) ∧
    ∃ contents file rest, files.read path = some contents ∧
      ClassFile.decode contents = .ok file rest}

/-- **Names lead out of the directories only if they begin with a slash.** -/
theorem classFiles_subset (files : FileSystem) (l : Loader) :
    l.classFiles files ⊆ l.rootFiles files ∪
      {path | ∃ name : String, (internalName name).toList.head? = some '/' ∧
        path = Path.ofString (internalName name ++ ".class")} := by
  rintro _ ⟨directory, hdirectory, name, rfl, hclass⟩
  rcases Path.isUnder_join_internalName (Path.ofString directory) name with hunder | ⟨hslash, heq⟩
  · exact .inl ⟨directory, hdirectory, hunder, hclass⟩
  · exact .inr ⟨name, hslash, heq⟩

/-- The name in the class file that is under a path. -/
def nameAt? (files : FileSystem) (path : Path) : Option String :=
  (files.read path).bind fun contents ↦ (ClassFile.decode contents).ok?.map (·.1.name)

theorem exists_mem_of_firstReadable {key : String} {file : ClassFile} :
    ∀ {candidates : List Bytes} {failure : Option LoadError},
      firstReadable key candidates failure = .ok (some file) →
        ∃ contents ∈ candidates, readClass key contents = .ok file
  | [], none, h => by cases h
  | [], some e, h => by cases h
  | contents :: rest, failure, h => by
    rw [firstReadable] at h
    split at h
    · next found hread =>
      cases h
      exact ⟨contents, List.mem_cons_self, hread⟩
    · obtain ⟨contents', hmem, hread⟩ := exists_mem_of_firstReadable h
      exact ⟨contents', List.mem_cons_of_mem _ hmem, hread⟩

theorem exists_classFile_of_lookup {file : ClassFile} (habsent : l.entry? name = none)
    (hfile : l.lookup files name = .ok (some file)) :
    ∃ path ∈ l.classFiles files, nameAt? files path = some file.name := by
  rw [lookup, habsent] at hfile
  obtain ⟨contents, hmem, hread⟩ := exists_mem_of_firstReadable hfile
  obtain ⟨directory, hdirectory, hcontents⟩ := List.mem_filterMap.mp hmem
  obtain ⟨⟨rest, hdecode⟩, _⟩ := readClass_eq_ok_iff.mp hread
  refine ⟨_, ⟨directory, hdirectory, name, rfl, contents, file, rest, hcontents, hdecode⟩, ?_⟩
  simp [nameAt?, hcontents, hdecode, EStateM.Result.ok?]

/-- There are no more classes than class files, since a class file has only one name. -/
theorem encard_names_le (files : FileSystem) (hempty : l.cache = ∅) :
    (l.territory files).names.encard ≤ (l.classFiles files).encard := by
  have hsub : some '' (l.territory files).names ⊆ nameAt? files '' l.classFiles files := by
    rintro _ ⟨_, ⟨name, file, hfile, rfl⟩, rfl⟩
    have habsent : l.entry? name = none := by
      rw [Loader.entry?, hempty]
      exact Std.ExtTreeMap.getElem?_empty
    exact exists_classFile_of_lookup habsent hfile
  calc (l.territory files).names.encard
      = (some '' (l.territory files).names).encard :=
        ((Option.some_injective _).encard_image _).symm
    _ ≤ (nameAt? files '' l.classFiles files).encard := Set.encard_le_encard hsub
    _ ≤ (l.classFiles files).encard := Set.encard_image_le _ _

/-- **Loading leads to what it would have led to at the beginning**, apart from the names that have
been linked in the meantime. -/
theorem FoundBy.loadTour_eq (h : FoundBy files l s.loader) (hempty : l.cache = ∅) (hs : s.AtRest)
    (hdepth : (l.classFiles files).encard ≤ l.maxLinkDepth) (name : String) :
    s.loader.loadTour files name =
      Option.map (fun (file, visited) ↦ (file, visited ∪ s.loader.linkedNames)) <$>
        l.loadTour files name := by
  have hterritory : s.loader.territory files = l.territory files :=
    congrArg₂ Territory.mk (funext (h.lookup_eq hempty hs.wellFormed)) h.maxLinkDepth_eq
  have hnone : l.linkedNames = ∅ := by
    ext key
    simp [mem_linkedNames_iff, hempty]
  rw [loadTour, loadTour, h.lookup_eq hempty hs.wellFormed, hnone]
  cases hlookup : l.lookup files name with
  | error e => rfl
  | ok found =>
    cases found with
    | none => rfl
    | some file =>
      have hwithin : (l.territory files).Within ∅ (l.maxLinkDepth + 1) := by
        rw [Territory.Within, Finset.coe_empty, Set.sdiff_empty]
        exact (encard_names_le files hempty).trans (hdepth.trans (by simp))
      have htour := Territory.tour_union (hterritory ▸ settled_linkedNames files hs)
        (show (l.territory files).lookup name = .ok (some file) from hlookup) hwithin
      rw [Finset.empty_union] at htour
      dsimp only
      rw [h.maxLinkDepth_eq, hterritory, htour]
      cases (l.territory files).tour (l.maxLinkDepth + 1) file ∅ <;> rfl

/-- The names that are linked when a name has been loaded. -/
def reached (files : FileSystem) (loader : Loader) (name : String) : Finset String :=
  match loader.loadTour files name with
  | .ok (some (_, visited)) => visited
  | _ => ∅

/-- **What loading leads to**, in terms of what it would have led to at the beginning: the outcome
is the same, and the same names are linked in addition to those that are. -/
theorem FoundBy.load_cases (h : FoundBy files l s.loader) (hempty : l.cache = ∅) (hs : s.AtRest)
    (hdepth : (l.classFiles files).encard ≤ l.maxLinkDepth) (name : String) :
    (load files name s).state.loader.linkedNames = s.loader.linkedNames ∪ l.reached files name ∧
      ((∃ e t, load files name s = .error e t ∧ l.loadTour files name = .error e) ∨
        (∃ t, load files name s = .ok none t ∧ l.loadTour files name = .ok none) ∨
          ∃ c t visited, load files name s = .ok (some c) t ∧
            l.loadTour files name = .ok (some (c.file, visited))) := by
  have htour := h.loadTour_eq hempty hs hdepth name
  rcases Loader.load_cases files name hs with ⟨e, t, hload, hlead, hlinked⟩ | ⟨hload, hlead⟩ |
      ⟨c, t, hload, hlead⟩ <;> rw [hlead] at htour
  · have hbegin := Except.map_eq_error_iff.mp htour.symm
    refine ⟨?_, .inl ⟨e, t, hload, hbegin⟩⟩
    rw [hload, reached, hbegin, Finset.union_empty]
    exact hlinked
  · obtain ⟨found, hbegin, hnone⟩ := Except.map_eq_ok_iff.mp htour.symm
    obtain rfl := Option.map_eq_none_iff.mp hnone
    refine ⟨?_, .inr (.inl ⟨s, hload, hbegin⟩)⟩
    rw [hload, reached, hbegin, Finset.union_empty]
    rfl
  · obtain ⟨found, hbegin, hsome⟩ := Except.map_eq_ok_iff.mp htour.symm
    obtain ⟨⟨file, visited⟩, rfl, heq⟩ := Option.map_eq_some_iff.mp hsome
    obtain ⟨rfl, hlinked⟩ := Prod.mk.inj heq
    refine ⟨?_, .inr (.inr ⟨c, t, visited, hload, hbegin⟩)⟩
    rw [hload, reached, hbegin, Finset.union_comm]
    exact hlinked.symm

end Loader

end JavaClass
