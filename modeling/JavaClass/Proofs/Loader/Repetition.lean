import JavaClass.Proofs.Loader.Breakdown
import JavaClass.Proofs.Loader.History

/-!
# Loading once more

As long as a loader has only classes from its search path, it does not matter for where a name leads
whether its class is cached: it has the file that would be found. So a loader that has lost some
classes to a failure leads everywhere where it led before, and since the failure does not change
which classes are linked either, the same load fails again in the same way. It comes to the same
names and removes the same, so that the second failure leaves what the first one left.

## Main statements

* `Loader.FromPath.lookup_eq`: where names lead.
* `Loader.load_eq_error_again`: loading a name again that could not be loaded.
-/

namespace JavaClass

namespace Loader

variable {files : FileSystem} {l m : Loader} {s t : LoaderState} {name key : String}
  {file : ClassFile} {e : LoadError}

/-! ## Classes from the search path -/

/-- The classes of a loader have the files to which their names lead along the search path. -/
def FromPath (files : FileSystem) (loader : Loader) : Prop :=
  ∀ ⦃c stage⦄, loader.Has c stage →
    firstReadable c.name (loader.candidates files c.name) none = .ok (some c.file)

/-- **Names lead where the search path leads**, whether their classes are cached or not. -/
theorem FromPath.lookup_eq (h : l.FromPath files) (hwf : l.WellFormed) (name : String) :
    l.lookup files name =
      firstReadable (internalName name) (l.candidates files (internalName name)) none := by
  rcases hwf.has_or_absent (internalName name) with ⟨c, stage, hc, hname⟩ | habsent
  · rw [lookup, hc.entry?_eq hname.symm, ← hname, h hc]
  · rw [lookup, Loader.entry?, habsent]

theorem FromPath.territory_eq (hl : l.FromPath files) (hwf : l.WellFormed) (hm : m.FromPath files)
    (hwf' : m.WellFormed) (hpath : m.searchPath = l.searchPath)
    (hdepth : m.maxLinkDepth = l.maxLinkDepth) : m.territory files = l.territory files := by
  refine congrArg₂ Territory.mk (funext fun name ↦ ?_) hdepth
  rw [hl.lookup_eq hwf, hm.lookup_eq hwf', candidates, candidates, hpath]

theorem FoundBy.fromPath (h : FoundBy files l m) (hl : l.FromPath files) (hwf : l.WellFormed)
    (hwf' : m.WellFormed) : m.FromPath files := by
  intro c stage hc
  have hfound := h.cached hc
  rw [hl.lookup_eq hwf, hwf'.internalName_name hc] at hfound
  rwa [candidates, h.searchPath_eq]

theorem firstReadable_append {candidates : List Bytes} {failure : Option LoadError}
    (h : firstReadable key candidates failure = .ok (some file)) (more : List Bytes) :
    firstReadable key (candidates ++ more) failure = .ok (some file) := by
  induction candidates generalizing failure with
  | nil => cases failure <;> cases h
  | cons contents rest ih =>
    rw [firstReadable] at h
    rw [List.cons_append, firstReadable]
    cases hread : readClass key contents with
    | ok found =>
      rw [hread] at h
      exact h
    | error e =>
      rw [hread] at h
      exact ih h

theorem FromPath.append (h : l.FromPath files) (directories : List String) :
    FromPath files { l with searchPath := l.searchPath ++ directories } := by
  intro c stage hc
  rw [candidates, List.filterMap_append]
  exact firstReadable_append (h hc) _

/-! ## What loading depends on -/

theorem loadTour_congr (hterritory : m.territory files = l.territory files)
    (hlinked : m.linkedNames = l.linkedNames) (name : String) :
    m.loadTour files name = l.loadTour files name := by
  have hlookup : m.lookup files = l.lookup files := congrArg Territory.lookup hterritory
  have hdepth : m.maxLinkDepth = l.maxLinkDepth := congrArg Territory.maxDepth hterritory
  rw [loadTour, loadTour, hlookup, hterritory, hdepth, hlinked]

theorem loadBreakdown_congr (hterritory : m.territory files = l.territory files)
    (hlinked : m.linkedNames = l.linkedNames) (name : String) :
    m.loadBreakdown files name = l.loadBreakdown files name := by
  have hlookup : m.lookup files = l.lookup files := congrArg Territory.lookup hterritory
  have hdepth : m.maxLinkDepth = l.maxLinkDepth := congrArg Territory.maxDepth hterritory
  rw [loadBreakdown, loadBreakdown, hlookup, hterritory, hdepth, hlinked]

/-- Loading keeps to the search path, and it does not change where names lead. -/
theorem territory_of_load (files : FileSystem) (name : String) (h : s.AtRest)
    (hs : s.loader.FromPath files) :
    (load files name s).state.loader.FromPath files ∧
      (load files name s).state.loader.territory files = s.loader.territory files := by
  have hfound := LoaderState.foundBy_load files name h
  have hwf := (LoaderState.evolves_load files name h).atRest.wellFormed
  have hfrom := hfound.fromPath hs h.wellFormed hwf
  exact ⟨hfrom, hs.territory_eq h.wellFormed hfrom hwf hfound.searchPath_eq
    hfound.maxLinkDepth_eq⟩

theorem load_cases_of_loadTour_eq {s' : LoaderState} (h : s.AtRest) (h' : s'.AtRest)
    (htour : s'.loader.loadTour files name = s.loader.loadTour files name) :
    (∃ e t t', load files name s = .error e t ∧ load files name s' = .error e t') ∨
    (∃ t t', load files name s = .ok none t ∧ load files name s' = .ok none t') ∨
    ∃ c c' t t', load files name s = .ok (some c) t ∧ load files name s' = .ok (some c') t' ∧
      c'.file = c.file := by
  rcases load_cases files name h with ⟨e, t, hload, hlead, _⟩ | ⟨hload, hlead⟩ |
      ⟨c, t, hload, hlead⟩ <;>
    rcases load_cases files name h' with ⟨e', t', hload', hlead', _⟩ | ⟨hload', hlead'⟩ |
      ⟨c', t', hload', hlead'⟩ <;>
    simp only [hlead, hlead', reduceCtorEq, Except.error.injEq, Except.ok.injEq, Option.some.injEq,
      Prod.mk.injEq] at htour
  · exact .inl ⟨e, t, t', hload, htour ▸ hload'⟩
  · exact .inr (.inl ⟨_, _, hload, hload'⟩)
  · exact .inr (.inr ⟨c, c', t, t', hload, hload', htour.1⟩)

/-! ## Failures -/

theorem stage_eq (h : s.AtRest) (key : String) :
    (s.loader.cache[key]?).map Entry.stage? =
      if key ∈ s.loader.linkedNames then some (some .linked)
      else if key ∈ s.loader.cache then some (some .defined) else none := by
  rcases h.wellFormed.has_or_absent key with ⟨c, stage, hc, rfl⟩ | habsent
  · have hentry : s.loader.cache[c.name]? = some (.holds c stage) := hc
    have hmem : c.name ∈ s.loader.cache := h.wellFormed.mem_cache_iff.mpr ⟨c, ⟨stage, hc⟩, rfl⟩
    cases stage with
    | linking => exact absurd hc (h.not_linking c)
    | defined =>
      have hnot : c.name ∉ s.loader.linkedNames := by simp [mem_linkedNames_iff, hentry]
      rw [hentry, if_neg hnot, if_pos hmem]
      rfl
    | linked =>
      rw [hentry, if_pos (mem_linkedNames_iff.mpr ⟨c, hentry⟩)]
      rfl
  · have hnot : key ∉ s.loader.linkedNames := by simp [mem_linkedNames_iff, habsent]
    have hnot' : key ∉ s.loader.cache := by
      simp [Std.ExtTreeMap.mem_iff_isSome_getElem?, habsent]
    rw [habsent, if_neg hnot, if_neg hnot']
    rfl

theorem linkedNames_of_load_error (h : s.AtRest) (hrun : load files name s = .error e t) :
    t.loader.linkedNames = s.loader.linkedNames := by
  have hcases := load_cases files name h
  rw [hrun] at hcases
  rcases hcases with ⟨_, _, ⟨⟩, _, hlinked⟩ | ⟨⟨⟩, _⟩ | ⟨_, _, ⟨⟩, _⟩
  exact hlinked

/-- **A load that has failed fails again**, with the same error, and leaves the same names at the
same stages. -/
theorem load_eq_error_again (h : s.AtRest) (hs : s.loader.FromPath files)
    (hrun : load files name s = .error e t) :
    ∃ u, load files name t = .error e u ∧
      ∀ key : String, (u.loader.cache[key]?).map Entry.stage? =
        (t.loader.cache[key]?).map Entry.stage? := by
  have ht : t.AtRest := by simpa [hrun] using (LoaderState.evolves_load files name h).atRest
  have hterritory : t.loader.territory files = s.loader.territory files := by
    simpa [hrun] using (territory_of_load files name h hs).2
  have hlinked := linkedNames_of_load_error h hrun
  have hbreakdown := loadBreakdown_congr hterritory hlinked name
  obtain ⟨u, hagain⟩ : ∃ u, load files name t = .error e u := by
    have hcases := load_cases_of_loadTour_eq h ht (loadTour_congr hterritory hlinked name)
    rw [hrun] at hcases
    rcases hcases with ⟨_, _, u, ⟨⟩, hagain⟩ | ⟨_, _, ⟨⟩, _⟩ | ⟨_, _, _, _, ⟨⟩, _⟩
    exact ⟨u, hagain⟩
  refine ⟨u, hagain, fun key ↦ ?_⟩
  have hu : u.AtRest := by simpa [hagain] using (LoaderState.evolves_load files name ht).atRest
  -- what has been added and removed once already is not added and removed again
  have hcache : key ∈ u.loader.cache ↔ key ∈ t.loader.cache := by
    rw [mem_cache_of_load_error ht hagain, hbreakdown, mem_cache_of_load_error h hrun]
    tauto
  rw [stage_eq hu, stage_eq ht, linkedNames_of_load_error ht hagain]
  simp only [hcache]

end Loader

end JavaClass
