import JavaClass.Proofs.Loader.Linking

/-!
# How a call of linking ends

A call that succeeds leaves a loader at rest, in which the class is linked. A call that fails has
removed the classes of a path and takes back the linking of those that it had finished; the loader
is at rest then, too.

## Main statements

* `Loader.link_of_absent`: linking a class that is not in the cache.
* `Loader.link_ok`: the end of a call that succeeds.
* `Loader.link_error`: the end of a call that fails.
* `Underway.atRest_takenBack`: the loader is at rest after a failure.
-/

namespace JavaClass

namespace Loader

/-! ## Removing a path -/

@[simp] theorem getElem?_cache_evictAll (loader : Loader) (path : List Class) (key : String) :
    (loader.evictAll path).cache[key]? =
      if key ∈ path.map Class.name then none else loader.cache[key]? := by
  induction path with
  | nil => simp [evictAll]
  | cons c path ih =>
    change ((loader.evictAll path).evict c.name).cache[key]? = _
    rw [getElem?_cache_evict, ih]
    by_cases hkey : c.name = key
    · simp [hkey]
    · simp [hkey, Ne.symm hkey]

theorem has_evictAll_iff {loader : Loader} {path : List Class}
    (hpath : ∀ p ∈ path, ∃ stage, loader.Has p stage) {d : Class} {stage : Stage} :
    (loader.evictAll path).Has d stage ↔ d ∉ path ∧ loader.Has d stage := by
  rw [Has, getElem?_cache_evictAll]
  split
  · next hmem =>
    obtain ⟨p, hp, hname⟩ := List.mem_map.mp hmem
    obtain ⟨stage', hp'⟩ := hpath p hp
    refine ⟨by simp, fun hd ↦ ?_⟩
    exact absurd (hp'.eq_of_name_eq hd.2 hname ▸ hp) hd.1
  · next hmem =>
    exact ⟨fun hd ↦ ⟨fun hp ↦ hmem (List.mem_map_of_mem hp), hd⟩, fun hd ↦ hd.2⟩

theorem WellFormed.evictAll {loader : Loader} (h : loader.WellFormed) (path : List Class) :
    (loader.evictAll path).WellFormed := by
  intro key entry hentry
  rw [getElem?_cache_evictAll] at hentry
  split at hentry
  · cases hentry
  · exact h hentry

/-! ## Taking back -/

variable {s : LoaderState} {c d : Class} {cs : List Class} {stage : Stage}

theorem unlink_of_has (h : s.loader.Has c stage) :
    unlink s c = ⟨s.loader.insert c.name (.holds c .defined), s.heap.setSupertypes c none []⟩ := by
  rw [Has] at h
  simp [unlink, h, Class.same]

theorem heap_unlink (s : LoaderState) (c : Class) :
    (unlink s c).heap = s.heap.setSupertypes c none [] := by
  rw [unlink]
  split
  · split <;> rfl
  · rfl

theorem size_foldl_unlink (s : LoaderState) (cs : List Class) :
    (cs.foldl unlink s).heap.links.size = s.heap.links.size := by
  induction cs generalizing s with
  | nil => rfl
  | cons c cs ih =>
    rw [List.foldl_cons, ih, heap_unlink]
    exact Heap.size_modify _ _ _

theorem constants_foldl_unlink (s : LoaderState) (cs : List Class) (d : Class) :
    ((cs.foldl unlink s).heap.linksOf d).constants = (s.heap.linksOf d).constants := by
  induction cs generalizing s with
  | nil => rfl
  | cons c cs ih => rw [List.foldl_cons, ih, heap_unlink, Heap.constants_setSupertypes]

theorem linksOf_foldl_unlink (h : ∀ c ∈ cs, c.id ≠ d.id) :
    (cs.foldl unlink s).heap.linksOf d = s.heap.linksOf d := by
  induction cs generalizing s with
  | nil => rfl
  | cons c cs ih =>
    rw [List.foldl_cons, ih fun c' hc' ↦ h c' (List.mem_cons_of_mem c hc'), heap_unlink]
    exact Heap.linksOf_modify_of_ne (h c List.mem_cons_self)

theorem supertypes_foldl_unlink (hc : c ∈ cs) (hid : c.id = d.id)
    (hmade : c.id < s.heap.links.size) :
    ((cs.foldl unlink s).heap.linksOf d).superclass = none ∧
      ((cs.foldl unlink s).heap.linksOf d).interfaces = [] := by
  induction cs generalizing s c with
  | nil => cases hc
  | cons c₀ cs ih =>
    have hmade' : c.id < (unlink s c₀).heap.links.size := by
      rw [heap_unlink]
      exact (Heap.size_modify _ _ _).symm ▸ hmade
    rw [List.foldl_cons]
    -- if the object comes again, its last turn counts
    by_cases hmore : ∃ c' ∈ cs, c'.id = d.id
    · obtain ⟨c', hc', hid'⟩ := hmore
      exact ih hc' hid' (by rwa [hid', ← hid])
    · have hnone (c' : Class) (hc' : c' ∈ cs) : c'.id ≠ d.id := fun h ↦ hmore ⟨c', hc', h⟩
      obtain rfl : c = c₀ := (List.mem_cons.mp hc).resolve_right fun hmem ↦ hnone c hmem hid
      have hlinks : (s.heap.setSupertypes c none []).linksOf d = _ :=
        Heap.linksOf_modify_of_eq hid hmade
      rw [linksOf_foldl_unlink hnone, heap_unlink, hlinks]
      exact ⟨rfl, rfl⟩

theorem has_foldl_unlink_iff (h : ∀ c ∈ cs, ∃ stage, s.loader.Has c stage) :
    (cs.foldl unlink s).loader.Has d stage ↔
      d ∈ cs ∧ stage = .defined ∨ d ∉ cs ∧ s.loader.Has d stage := by
  induction cs generalizing s with
  | nil => simp
  | cons c cs ih =>
    obtain ⟨stage₀, hc⟩ := h c List.mem_cons_self
    have hiff {d : Class} {stage : Stage} : (unlink s c).loader.Has d stage ↔
        d = c ∧ stage = .defined ∨ d ≠ c ∧ s.loader.Has d stage := by
      rw [unlink_of_has hc]
      exact has_restage_iff hc
    have hrest (c' : Class) (hc' : c' ∈ cs) : ∃ stage, (unlink s c).loader.Has c' stage := by
      rw [unlink_of_has hc]
      exact (exists_has_restage_iff hc).mpr (h c' (List.mem_cons_of_mem c hc'))
    rw [List.foldl_cons, ih hrest, hiff, List.mem_cons]
    rcases eq_or_ne d c with rfl | heq
    · by_cases hmem : d ∈ cs <;> simp [hmem]
    · simp [heq]

theorem wellFormed_foldl_unlink (hwf : s.loader.WellFormed)
    (h : ∀ c ∈ cs, ∃ stage, s.loader.Has c stage) : (cs.foldl unlink s).loader.WellFormed := by
  induction cs generalizing s with
  | nil => exact hwf
  | cons c cs ih =>
    obtain ⟨stage₀, hc⟩ := h c List.mem_cons_self
    rw [List.foldl_cons, unlink_of_has hc]
    exact ih (hwf.insert .defined (hwf.internalName_name hc)) fun c' hc' ↦
      (exists_has_restage_iff hc).mpr (h c' (List.mem_cons_of_mem c hc'))

end Loader

/-! ## After a success -/

namespace Underway

open Loader

variable {files : FileSystem} {start : LoaderState} {region : String → Prop} {path : List Class}
  {s : LinkState} {c d : Class} {stage : Stage}

/-- What the call has finished is apart from what was linked before. -/
theorem id_ne_of_mem_linked (h : Underway files start region path s) (hc : c ∈ s.linked)
    (hd : start.loader.Has d .linked) : c.id ≠ d.id := by
  obtain ⟨hlinked, hnot⟩ := h.mem_linked_iff.mp hc
  exact fun heq ↦ hnot (h.identity hlinked (h.linked_kept hd) heq ▸ hd)

/-- When nothing is left on the path, what the finished classes point at is linked. -/
theorem atRest_end (h : Underway files start region [] s) : s.toLoaderState.AtRest where
  toCoherent := h.toCoherent
  not_linking := fun c hc ↦ by simpa using h.linking_iff.mp hc
  points := by
    intro c hc
    by_cases hstart : start.loader.Has c .linked
    · refine (h.atRest.points hstart).imp_of_linksOf_eq
        (h.linksOf_eq fun _ hc' ↦ h.id_ne_of_mem_linked hc' hstart) fun name p hp ↦ ?_
      obtain ⟨hp, hname⟩ := h.atRest.wellFormed.has_of_entry? hp
      exact (h.linked_kept hp).entry?_eq hname
    · refine (h.points (h.mem_linked_iff.mpr ⟨hc, hstart⟩)).imp rfl rfl ?_
      rintro name p ⟨hname, stage, hstage, hp⟩
      cases stage with
      | defined => exact absurd rfl hstage
      | linking => simpa using h.linking_iff.mp hp
      | linked => exact hp.entry?_eq hname

end Underway

/-! ## After a failure -/

/-- What is left of a call that failed at the end of a path: the path is gone, and the classes that
were finished are merely defined. -/
def LinkState.takenBack (s : LinkState) (path : List Class) : LoaderState :=
  s.linked.foldl Loader.unlink ⟨s.loader.evictAll path, s.heap⟩

namespace Underway

open Loader

variable {files : FileSystem} {start : LoaderState} {region : String → Prop} {path : List Class}
  {s : LinkState} {c d : Class} {stage : Stage}

theorem not_mem_path_of_mem_linked (h : Underway files start region path s) (hc : c ∈ s.linked) :
    c ∉ path := fun hmem ↦ by
  cases (h.mem_linked_iff.mp hc).1.stage_eq (h.linking_iff.mpr hmem)

theorem has_evictAll_path_iff (h : Underway files start region path s) :
    (s.loader.evictAll path).Has d stage ↔ d ∉ path ∧ s.loader.Has d stage :=
  has_evictAll_iff fun _ hp ↦ ⟨_, h.linking_iff.mpr hp⟩

theorem exists_has_of_mem_linked (h : Underway files start region path s) :
    ∀ c ∈ s.linked, ∃ stage, (s.loader.evictAll path).Has c stage := fun _ hc ↦
  ⟨.linked, h.has_evictAll_path_iff.mpr
    ⟨h.not_mem_path_of_mem_linked hc, (h.mem_linked_iff.mp hc).1⟩⟩

theorem has_takenBack_iff (h : Underway files start region path s) :
    (s.takenBack path).loader.Has d stage ↔
      d ∈ s.linked ∧ stage = .defined ∨ d ∉ s.linked ∧ d ∉ path ∧ s.loader.Has d stage := by
  rw [LinkState.takenBack, has_foldl_unlink_iff h.exists_has_of_mem_linked,
    h.has_evictAll_path_iff]

theorem exists_has_takenBack_iff (h : Underway files start region path s) :
    (∃ stage, (s.takenBack path).loader.Has d stage) ↔
      d ∉ path ∧ ∃ stage, s.loader.Has d stage := by
  simp only [h.has_takenBack_iff]
  constructor
  · rintro ⟨stage, ⟨hmem, _⟩ | ⟨_, hpath, hd⟩⟩
    · exact ⟨h.not_mem_path_of_mem_linked hmem, .linked, (h.mem_linked_iff.mp hmem).1⟩
    · exact ⟨hpath, stage, hd⟩
  · rintro ⟨hpath, stage, hd⟩
    by_cases hmem : d ∈ s.linked
    · exact ⟨.defined, .inl ⟨hmem, rfl⟩⟩
    · exact ⟨stage, .inr ⟨hmem, hpath, hd⟩⟩

theorem exists_has_of_has_takenBack (h : Underway files start region path s)
    (hd : (s.takenBack path).loader.Has d stage) :
    d ∉ path ∧ ∃ stage', s.loader.Has d stage' := h.exists_has_takenBack_iff.mp ⟨stage, hd⟩

theorem size_takenBack (s : LinkState) (path : List Class) :
    (s.takenBack path).heap.links.size = s.heap.links.size := size_foldl_unlink _ _

theorem linksOf_takenBack (h : Underway files start region path s)
    (hd : ∀ c ∈ s.linked, c.id ≠ d.id) :
    (s.takenBack path).heap.linksOf d = start.heap.linksOf d := by
  rw [LinkState.takenBack, linksOf_foldl_unlink hd]
  exact h.linksOf_eq hd

theorem supertypes_takenBack (h : Underway files start region path s) (hc : c ∈ s.linked)
    (hid : c.id = d.id) :
    ((s.takenBack path).heap.linksOf d).superclass = none ∧
      ((s.takenBack path).heap.linksOf d).interfaces = [] :=
  supertypes_foldl_unlink hc hid (h.made (h.mem_linked_iff.mp hc).1)

theorem constants_takenBack (h : Underway files start region path s) (d : Class) :
    ((s.takenBack path).heap.linksOf d).constants = (start.heap.linksOf d).constants := by
  rw [LinkState.takenBack, constants_foldl_unlink]
  exact h.constants_eq

/-- What was linked before the call was neither finished by it nor on its path. -/
theorem linked_takenBack_iff (h : Underway files start region path s) :
    (s.takenBack path).loader.Has d .linked ↔ start.loader.Has d .linked := by
  rw [h.has_takenBack_iff, h.mem_linked_iff]
  constructor
  · rintro (⟨_, ⟨⟩⟩ | ⟨hnot, _, hd⟩)
    exact not_not.mp fun hstart ↦ hnot ⟨hd, hstart⟩
  · intro hstart
    refine .inr ⟨fun hd ↦ hd.2 hstart, fun hmem ↦ ?_, h.linked_kept hstart⟩
    -- what is on the path is being linked, and that is another stage
    cases (h.linked_kept hstart).stage_eq (h.linking_iff.mpr hmem)

/-- **A loader is at rest after a failure.** -/
theorem atRest_takenBack (h : Underway files start region path s) : (s.takenBack path).AtRest where
  wellFormed := wellFormed_foldl_unlink (h.wellFormed.evictAll path) h.exists_has_of_mem_linked
  not_linking := by
    intro c hc
    rcases h.has_takenBack_iff.mp hc with ⟨_, ⟨⟩⟩ | ⟨_, hpath, hc⟩
    exact hpath (h.linking_iff.mp hc)
  identity := by
    intro c d stage stage' hc hd
    obtain ⟨_, _, hc⟩ := h.exists_has_of_has_takenBack hc
    obtain ⟨_, _, hd⟩ := h.exists_has_of_has_takenBack hd
    exact h.identity hc hd
  made := by
    intro c stage hc
    obtain ⟨_, _, hc⟩ := h.exists_has_of_has_takenBack hc
    exact size_takenBack s path ▸ h.made hc
  points := by
    intro c hc
    have hstart := h.linked_takenBack_iff.mp hc
    refine (h.atRest.points hstart).imp_of_linksOf_eq
      (h.linksOf_takenBack fun _ hc' ↦ h.id_ne_of_mem_linked hc' hstart) fun name p hp ↦ ?_
    obtain ⟨hp, hname⟩ := h.atRest.wellFormed.has_of_entry? hp
    exact (h.linked_takenBack_iff.mpr hp).entry?_eq hname

theorem getElem?_takenBack_of_mem (h : Underway files start region path s) (hc : c ∈ path) :
    (s.takenBack path).loader.cache[c.name]? = none := by
  rcases h.atRest_takenBack.wellFormed.has_or_absent c.name with ⟨d, _, hd, hname⟩ | habsent
  · obtain ⟨hpath, _, hd⟩ := h.exists_has_of_has_takenBack hd
    exact absurd (hd.eq_of_name_eq (h.linking_iff.mpr hc) hname ▸ hc) hpath
  · exact habsent

theorem has_takenBack_of_has (h : Underway files start region path s)
    (hstart : start.loader.Has c stage) (hc : c ∉ path) :
    (s.takenBack path).loader.Has c stage := by
  obtain ⟨stage', hcached⟩ := h.exists_has_takenBack_iff.mpr ⟨hc, h.kept hstart⟩
  suffices stage = stage' from this ▸ hcached
  -- linking took place neither before nor after, and what is linked is the same
  rcases stage with _ | _ | _
  · rcases stage' with _ | _ | _
    · rfl
    · exact absurd hcached (h.atRest_takenBack.not_linking c)
    · exact hstart.stage_eq (h.linked_takenBack_iff.mp hcached)
  · exact absurd hstart (h.atRest.not_linking c)
  · exact (h.linked_takenBack_iff.mpr hstart).stage_eq hcached

theorem eq_defined_of_new (h : Underway files start region path s)
    (hc : (s.takenBack path).loader.Has c stage) (hnew : ∀ stage', ¬ start.loader.Has c stage') :
    stage = .defined := by
  rcases stage with _ | _ | _
  · rfl
  · exact absurd hc (h.atRest_takenBack.not_linking c)
  · exact absurd (h.linked_takenBack_iff.mp hc) (hnew .linked)

end Underway

/-! ## Calls -/

namespace Loader

variable {files : FileSystem} {start t : LoaderState} {region : String → Prop} {c : Class}
  {stage : Stage} {e : LoadError}

theorem link_of_absent (h : ∀ d stage, start.loader.cache[c.name]? = some (.holds d stage) →
      d.same c = false) :
    link files c start = .error (.notLoaded c.name) start := by
  rw [link, linkWithin, visit_of_absent h]
  rfl

theorem next_of_has (hc : start.loader.Has c stage) (hregion : region c.name) :
    Underway.Next files start region [] { start with linked := [] } c where
  cached := ⟨stage, hc⟩
  inRegion := hregion
  declared := by simp

/-- **The end of a call that succeeds.** -/
theorem link_ok (hstart : start.AtRest) (hclosed : start.loader.SupertypeClosed files region)
    (hc : start.loader.Has c stage) (hregion : region c.name)
    (hrun : link files c start = .ok () t) :
    (∃ s, Underway files start region [] s ∧ t = s.toLoaderState) ∧ t.loader.Has c .linked := by
  rw [link] at hrun
  split at hrun
  · next s hrun' =>
    cases hrun
    obtain ⟨hs, _, stage', hstage', hc'⟩ := Underway.passes_linkWithin files start region _ []
      (.init hstart hclosed) (next_of_has hc hregion) hrun'
    refine ⟨⟨s, hs, rfl⟩, ?_⟩
    cases stage' with
    | defined => exact absurd rfl hstage'
    | linking => simpa using hs.linking_iff.mp hc'
    | linked => exact hc'
  · cases hrun

theorem link_eq_error_iff :
    link files c start = .error e t ↔
      ∃ s, linkWithin files (start.loader.maxLinkDepth + 1) c { start with linked := [] } =
        .error e s ∧ t = s.linked.foldl unlink s.toLoaderState := by
  rw [link]
  cases linkWithin files (start.loader.maxLinkDepth + 1) c { start with linked := [] } with
  | ok _ s => simp
  | error e' s => simp [eq_comm]

/-- **The end of a call that fails.** -/
theorem link_error (hstart : start.AtRest) (hclosed : start.loader.SupertypeClosed files region)
    (hc : start.loader.Has c stage) (hregion : region c.name)
    (hrun : link files c start = .error e t) :
    ∃ rest s, Underway files start region (c :: rest) s ∧ t = s.takenBack (c :: rest) ∧
      ∃ last ∈ (c :: rest).getLast?, start.loader.Fault files rest.length last e := by
  obtain ⟨v, hvisit, rfl⟩ := link_eq_error_iff.mp hrun
  obtain ⟨u, ⟨rest, s, hs, rfl, last, hlast, hfault⟩, rfl⟩ :=
    Underway.fails_linkWithin files start region (start.loader.maxLinkDepth + 1) [] rfl
      (.init hstart hclosed) (next_of_has hc hregion) hvisit
  exact ⟨rest, s, hs, rfl, last, hlast, by simpa using hfault⟩

end Loader

end JavaClass
