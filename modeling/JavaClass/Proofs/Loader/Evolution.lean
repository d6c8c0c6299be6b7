import JavaClass.Proofs.Loader.Outcome

/-!
# What a call may change

A loader works on its own cache and on a heap that it shares with others. `Evolves` says how far a
call may go, from one state at rest to the next: it makes new objects, and of those that exist it
touches only the ones that are its own and not linked. Whatever else happens in a call, nothing of
it can be seen from another loader.

The relation is transitive, so a call that is put together of others evolves if those do.

## Main statements

* `LoaderState.evolves_find`, `LoaderState.evolves_define`, `LoaderState.evolves_link` and
  `LoaderState.evolves_load`: the calls of a loader.
-/

namespace JavaClass

namespace LoaderState

open Loader

variable {files : FileSystem} {s t u : LoaderState} {c d : Class} {name : String}

/-- Linking can reach the object: it is cached and not linked, or it has not been made yet. -/
def MayLink (s : LoaderState) (c : Class) : Prop :=
  (∃ stage, stage ≠ .linked ∧ s.loader.Has c stage) ∨ s.heap.links.size ≤ c.id

/-- What may have become of a state after some calls. -/
structure Evolves (s t : LoaderState) : Prop where
  atRest : t.AtRest
  size_le : s.heap.links.size ≤ t.heap.links.size
  cached_or_new : ∀ {c stage}, t.loader.Has c stage →
    (∃ stage', s.loader.Has c stage') ∨ s.heap.links.size ≤ c.id
  linked_kept : ∀ {c}, s.loader.Has c .linked → t.loader.Has c .linked
  constants_eq : ∀ d, (t.heap.linksOf d).constants = (s.heap.linksOf d).constants
  /-- An object that points elsewhere now is linked, or it points at no supertypes any more. -/
  supertypes : ∀ d, t.heap.linksOf d = s.heap.linksOf d ∨
    ∃ c, c.id = d.id ∧ s.MayLink c ∧ (t.loader.Has c .linked ∨
      (t.heap.linksOf d).superclass = none ∧ (t.heap.linksOf d).interfaces = [])

theorem Evolves.refl (h : s.AtRest) : s.Evolves s where
  atRest := h
  size_le := Nat.le_refl _
  cached_or_new := fun hc ↦ .inl ⟨_, hc⟩
  linked_kept := fun hc ↦ hc
  constants_eq := fun _ ↦ rfl
  supertypes := fun _ ↦ .inl rfl

theorem Evolves.mayLink (h : s.Evolves t) (hc : t.MayLink c) : s.MayLink c := by
  rcases hc with ⟨stage, hstage, hc⟩ | hnew
  · rcases h.cached_or_new hc with ⟨stage', hc'⟩ | hnew
    · refine .inl ⟨stage', ?_, hc'⟩
      rintro rfl
      exact hstage (hc.stage_eq (h.linked_kept hc'))
    · exact .inr hnew
  · exact .inr (Nat.le_trans h.size_le hnew)

/-- Where a pointer leads, one led before, or there is a class of the cache. -/
theorem Evolves.targets (h : s.Evolves t) {p : Class} (hp : (t.heap.linksOf d).Targets p) :
    (s.heap.linksOf d).Targets p ∨ ∃ stage, t.loader.Has p stage := by
  rcases h.supertypes d with heq | ⟨c, hid, _, hnow⟩
  · exact .inl (heq ▸ hp)
  · have hconstants (index : UInt16) (hp : (t.heap.linksOf d).constants[index]? = some p) :
        (s.heap.linksOf d).Targets p := .inr (.inr ⟨index, h.constants_eq d ▸ hp⟩)
    rcases hnow with hlinked | ⟨hsuperclass, hinterfaces⟩
    · -- the object is linked now, and so its supertypes are cached
      have hsupertype (hp : (t.heap.linksOf c).superclass = some p ∨
          p ∈ (t.heap.linksOf c).interfaces) : ∃ stage, t.loader.Has p stage := by
        obtain ⟨_, hentry⟩ := (h.atRest.points hlinked).exists_leads hp
        exact ⟨_, (h.atRest.wellFormed.has_of_entry? hentry).1⟩
      rw [Heap.linksOf_congr hid] at hsupertype
      rcases hp with hp | hp | ⟨index, hp⟩
      · exact .inr (hsupertype (.inl hp))
      · exact .inr (hsupertype (.inr hp))
      · exact .inl (hconstants index hp)
    · rcases hp with hp | hp | ⟨index, hp⟩
      · exact absurd (hsuperclass.symm.trans hp) (by simp)
      · exact absurd (hinterfaces ▸ hp) (by simp)
      · exact .inl (hconstants index hp)

theorem Evolves.trans (h : s.Evolves t) (h' : t.Evolves u) : s.Evolves u where
  atRest := h'.atRest
  size_le := Nat.le_trans h.size_le h'.size_le
  cached_or_new := fun hc ↦ by
    rcases h'.cached_or_new hc with ⟨_, hc⟩ | hnew
    · exact h.cached_or_new hc
    · exact .inr (Nat.le_trans h.size_le hnew)
  linked_kept := fun hc ↦ h'.linked_kept (h.linked_kept hc)
  constants_eq := fun d ↦ (h'.constants_eq d).trans (h.constants_eq d)
  supertypes := fun d ↦ by
    rcases h'.supertypes d with heq | ⟨c, hid, hmay, hnow⟩
    · rcases h.supertypes d with heq' | ⟨c, hid, hmay, hlinked | hnone⟩
      · exact .inl (heq.trans heq')
      · exact .inr ⟨c, hid, hmay, .inl (h'.linked_kept hlinked)⟩
      · exact .inr ⟨c, hid, hmay, .inr (heq ▸ hnone)⟩
    · exact .inr ⟨c, hid, h.mayLink hmay, hnow⟩

theorem evolves_searchPath (searchPath : List String) (h : s.AtRest) :
    s.Evolves ⟨{ s.loader with searchPath }, s.heap⟩ where
  atRest := ⟨⟨h.wellFormed, h.identity, h.made⟩, h.not_linking, h.points⟩
  size_le := Nat.le_refl _
  cached_or_new := fun hc ↦ .inl ⟨_, hc⟩
  linked_kept := fun hc ↦ hc
  constants_eq := fun _ ↦ rfl
  supertypes := fun _ ↦ .inl rfl

/-! ## Finding and defining -/

theorem AtRest.enter (h : s.AtRest) (hname : internalName c.name = c.name)
    (habsent : s.loader.cache[c.name]? = none) (hid : c.id = s.heap.links.size) :
    (s.enter c).AtRest where
  toCoherent := h.toCoherent.enter hname habsent hid
  not_linking := fun d hd ↦ by
    rcases (has_enter_iff habsent).mp hd with ⟨_, ⟨⟩⟩ | hd
    exact h.not_linking d hd
  points := fun {d} hd ↦ by
    rcases (has_enter_iff habsent).mp hd with ⟨_, ⟨⟩⟩ | hd
    have hlinks := Heap.linksOf_allocate s.heap c.file d
    refine (h.points hd).imp_of_linksOf_eq hlinks fun name p hp ↦ ?_
    obtain ⟨hp, hname'⟩ := h.wellFormed.has_of_entry? hp
    exact ((has_enter_iff habsent).mpr (.inr hp)).entry?_eq hname'

theorem evolves_enter (h : s.AtRest) (hname : c.name = internalName name)
    (habsent : s.loader.entry? name = none) (hid : c.id = s.heap.links.size) :
    s.Evolves (s.enter c) := by
  have habsent' : s.loader.cache[c.name]? = none := by rwa [hname]
  exact {
    atRest := h.enter (by rw [hname, internalName_internalName]) habsent' hid
    size_le := by simp [LoaderState.enter]
    cached_or_new := fun hd ↦ by
      rcases (has_enter_iff habsent').mp hd with ⟨rfl, _⟩ | hd
      · exact .inr (Nat.le_of_eq hid.symm)
      · exact .inl ⟨_, hd⟩
    linked_kept := fun hd ↦ (has_enter_iff habsent').mpr (.inr hd)
    constants_eq := fun d ↦ congrArg Links.constants (Heap.linksOf_allocate s.heap c.file d)
    supertypes := fun d ↦ .inl (Heap.linksOf_allocate s.heap c.file d) }

theorem evolves_find (files : FileSystem) (name : String) (h : s.AtRest) :
    s.Evolves (find files name s).state := by
  rcases find_cases h.wellFormed files name with ⟨c, _, _, _, hfind⟩ |
      ⟨c, habsent, hlookup, hid, hfind⟩ | ⟨_, hfind⟩ | ⟨e, _, hfind⟩ <;> rw [hfind]
  · exact .refl h
  · exact evolves_enter h (name_of_lookup h.wellFormed hlookup) habsent hid
  · exact .refl h
  · exact .refl h

theorem evolves_define (name : String) (contents : Bytes) (h : s.AtRest) :
    s.Evolves (define name contents s).state := by
  rcases define_cases h.wellFormed name contents with ⟨c, _, _, hdefine⟩ |
      ⟨c, habsent, hname, hid, hdefine⟩ | ⟨e, _, hdefine⟩ <;> rw [hdefine]
  · exact .refl h
  · exact evolves_enter h hname habsent hid
  · exact .refl h

/-! ## Linking -/

theorem Grown.cached_or_new {start : LoaderState} (h : start.Grown files s) {stage : Stage}
    (hc : s.loader.Has c stage) :
    (∃ stage', start.loader.Has c stage') ∨ start.heap.links.size ≤ c.id := by
  rcases h.leads hc with ⟨stage', hentry⟩ | ⟨_, _, hnew⟩
  · rw [Loader.entry?, h.wellFormed.internalName_name hc] at hentry
    exact .inl ⟨stage', hentry⟩
  · exact .inr hnew

theorem mayLink_of_mem_linked {start : LoaderState} {region : String → Prop} {path : List Class}
    {s : LinkState} (h : Underway files start region path s) (hc : c ∈ s.linked) :
    start.MayLink c := by
  obtain ⟨hlinked, hnot⟩ := h.mem_linked_iff.mp hc
  rcases h.cached_or_new hlinked with ⟨stage, hc⟩ | hnew
  · refine .inl ⟨stage, ?_, hc⟩
    rintro rfl
    exact hnot hc
  · exact .inr hnew

theorem evolves_of_end {start : LoaderState} {region : String → Prop} {s : LinkState}
    (h : Underway files start region [] s) : start.Evolves s.toLoaderState where
  atRest := h.atRest_end
  size_le := h.size_le
  cached_or_new := h.cached_or_new
  linked_kept := h.linked_kept
  constants_eq := fun _ ↦ h.constants_eq
  supertypes := fun d ↦ by
    by_cases hd : ∃ c ∈ s.linked, c.id = d.id
    · obtain ⟨c, hc, hid⟩ := hd
      exact .inr ⟨c, hid, mayLink_of_mem_linked h hc, .inl (h.mem_linked_iff.mp hc).1⟩
    · exact .inl (h.linksOf_eq fun c hc hid ↦ hd ⟨c, hc, hid⟩)

theorem evolves_of_takenBack {start : LoaderState} {region : String → Prop} {path : List Class}
    {s : LinkState} (h : Underway files start region path s) :
    start.Evolves (s.takenBack path) where
  atRest := h.atRest_takenBack
  size_le := (Underway.size_takenBack s path).symm ▸ h.size_le
  cached_or_new := fun hc ↦ by
    obtain ⟨_, _, hc⟩ := h.exists_has_of_has_takenBack hc
    exact h.cached_or_new hc
  linked_kept := h.linked_takenBack_iff.mpr
  constants_eq := h.constants_takenBack
  supertypes := fun d ↦ by
    by_cases hd : ∃ c ∈ s.linked, c.id = d.id
    · obtain ⟨c, hc, hid⟩ := hd
      exact .inr ⟨c, hid, mayLink_of_mem_linked h hc, .inr (h.supertypes_takenBack hc hid)⟩
    · exact .inl (h.linksOf_takenBack fun c hc hid ↦ hd ⟨c, hc, hid⟩)

/-- What is not an object of the cache cannot be linked, and nothing happens. -/
theorem link_of_uncached (h : s.AtRest)
    (hc : ∀ d stage, s.loader.Has d stage → d.id = c.id → d = c)
    (hcached : ¬ ∃ stage, s.loader.Has c stage) :
    link files c s = .error (.notLoaded c.name) s := by
  refine link_of_absent fun d stage hd ↦ ?_
  obtain ⟨_, _, ⟨⟩, hname, _⟩ := h.wellFormed hd
  rw [← hname] at hd
  refine beq_eq_false_iff_ne.mpr fun hid ↦ hcached ⟨stage, ?_⟩
  exact hc d stage hd hid ▸ hd

/-- **How a call for linking ends**: all is linked, or what was linked is taken back, or the class
is not an object of the cache and nothing happens. -/
theorem link_state_cases (files : FileSystem) (h : s.AtRest)
    (hc : ∀ d stage, s.loader.Has d stage → d.id = c.id → d = c) :
    (∃ u : LinkState, Underway files s (fun _ ↦ True) [] u ∧
        (link files c s).state = u.toLoaderState) ∨
      (∃ path u, Underway files s (fun _ ↦ True) path u ∧
        (link files c s).state = u.takenBack path) ∨
      (link files c s).state = s := by
  by_cases hcached : ∃ stage, s.loader.Has c stage
  · obtain ⟨stage, hcached⟩ := hcached
    have hclosed := supertypeClosed_true files s.loader
    cases hrun : link files c s with
    | ok a t =>
      obtain ⟨⟨u, hu, rfl⟩, _⟩ := link_ok h hclosed hcached trivial hrun
      exact .inl ⟨u, hu, rfl⟩
    | error e t =>
      obtain ⟨rest, u, hu, rfl, _⟩ := link_error h hclosed hcached trivial hrun
      exact .inr (.inl ⟨_, u, hu, rfl⟩)
  · rw [link_of_uncached h hc hcached]
    exact .inr (.inr rfl)

/-- Loading finds a class, and it links the class that it has found. -/
theorem load_state_cases (files : FileSystem) (name : String) (h : s.AtRest) :
    (load files name s).state = (find files name s).state ∨
      ∃ c stage, (find files name s).state.loader.Has c stage ∧
        (load files name s).state = (link files c (find files name s).state).state := by
  rw [load, EStateM.bind_apply]
  cases hrun : find files name s with
  | error e t => exact .inl rfl
  | ok found t =>
    cases found with
    | none => exact .inl rfl
    | some c =>
      obtain ⟨stage, hc⟩ := exists_has_of_find h.wellFormed hrun
      exact .inr ⟨c, stage, hc, EStateM.state_bind_pure _ _ _⟩

theorem evolves_link (files : FileSystem) (h : s.AtRest)
    (hc : ∀ d stage, s.loader.Has d stage → d.id = c.id → d = c) :
    s.Evolves (link files c s).state := by
  rcases link_state_cases files h hc with ⟨u, hu, hstate⟩ | ⟨path, u, hu, hstate⟩ | hstate <;>
    rw [hstate]
  · exact evolves_of_end hu
  · exact evolves_of_takenBack hu
  · exact .refl h

theorem evolves_load (files : FileSystem) (name : String) (h : s.AtRest) :
    s.Evolves (load files name s).state := by
  have hfind := evolves_find files name h
  rcases load_state_cases files name h with hstate | ⟨c, stage, hc, hstate⟩ <;> rw [hstate]
  · exact hfind
  · exact hfind.trans
      (evolves_link files hfind.atRest fun d stage' hd ↦ hfind.atRest.identity hd hc)

/-! ## Classes that a call yields -/

theorem exists_has_of_define {contents : Bytes} (h : s.AtRest)
    (hrun : define name contents s = .ok c t) : ∃ stage, t.loader.Has c stage := by
  rcases define_cases h.wellFormed name contents with ⟨d, stage, hentry, hdefine⟩ |
      ⟨d, _, _, _, hdefine⟩ | ⟨e, _, hdefine⟩ <;> rw [hdefine] at hrun <;> cases hrun
  · exact ⟨stage, (h.wellFormed.has_of_entry? hentry).1⟩
  · exact ⟨.defined, has_insert_self _ _ _⟩

theorem has_linked_of_load (h : s.AtRest) (hrun : load files name s = .ok (some c) t) :
    t.loader.Has c .linked := by
  obtain ⟨found, u, hfind, hrest⟩ := EStateM.bind_eq_ok_iff.mp hrun
  cases found with
  | none => cases hrest
  | some d =>
    obtain ⟨_, v, hlink, hlast⟩ := EStateM.bind_eq_ok_iff.mp hrest
    cases hlast
    obtain ⟨stage, hd⟩ := exists_has_of_find h.wellFormed hfind
    have hrest : u.AtRest := by simpa [hfind] using (evolves_find files name h).atRest
    exact (link_ok hrest (supertypeClosed_true _ _) hd trivial hlink).2

theorem name_of_load (h : s.AtRest) (hrun : load files name s = .ok (some c) t) :
    c.name = internalName name := by
  obtain ⟨found, u, hfind, hrest⟩ := EStateM.bind_eq_ok_iff.mp hrun
  cases found with
  | none => cases hrest
  | some d =>
    obtain ⟨_, _, _, ⟨⟩⟩ := EStateM.bind_eq_ok_iff.mp hrest
    exact name_of_lookup h.wellFormed (of_find_eq_some h.wellFormed hfind).1

/-- Loading fails as a definition does, or for a fault on the way to a supertype. -/
theorem of_load_eq_error {e : LoadError} (h : s.AtRest) (hrun : load files name s = .error e t) :
    IsUndefinable (internalName name) e ∨
      ∃ (l : Loader) (depth : Nat) (d : Class), l.WellFormed ∧ l.Fault files depth d e := by
  rcases EStateM.bind_eq_error_iff.mp hrun with hfind | ⟨found, u, hfind, hrest⟩
  · have hlookup := (of_find_eq_error h.wellFormed hfind).1
    exact .inl (isUndefinable_of_lookup h.wellFormed hlookup)
  · cases found with
    | none => cases hrest
    | some d =>
      have hu : u.AtRest := by simpa [hfind] using (evolves_find files name h).atRest
      obtain ⟨_, hd⟩ := exists_has_of_find h.wellFormed hfind
      rcases EStateM.bind_eq_error_iff.mp hrest with hlink | ⟨_, _, _, ⟨⟩⟩
      obtain ⟨_, _, _, _, last, _, hfault⟩ :=
        link_error hu (supertypeClosed_true _ _) hd trivial hlink
      exact .inr ⟨u.loader, _, last, hu.wellFormed, hfault⟩

end LoaderState

end JavaClass
