import JavaClass.Proofs.Loader.Agreement

/-!
# Where linking breaks down

A call of linking that fails leaves its mark on the cache: classes that it has come to on the way
stay behind, and those that it was in the midst of are gone, also if they were cached before. Both
are decided by the tour that the call follows. Where a tour breaks down is a function of the same
data as the tour itself, and it says which names these are.

So what a failure does to the names of the cache can be written down without the cache, and it is a
matter of sets: some names are added, and then some are removed. Doing so once more would change
nothing.

## Main definitions

* `Territory.breakdown`: where a tour breaks down.

## Main statements

* `Underway.breaksDown_linkWithin`: a visit that fails breaks down where its tour does.
* `Loader.mem_cache_of_load_error`: the names that are cached after a failure.
-/

namespace JavaClass

/-! ## Breakdowns -/

/-- How far a tour got that failed. -/
structure Breakdown where
  /-- The names that have been visited. -/
  visited : Finset String
  /-- The names of the classes that it was in the midst of, from the first one to the one at
  fault. -/
  path : Finset String

/-- A part of a tour broke down in the midst of another class, too. -/
def Breakdown.within (b : Breakdown) (name : String) : Breakdown :=
  { b with path := insert name b.path }

namespace Territory

/-- Where a tour of some supertypes breaks down. From each of them it goes on as `tour`, and if that
fails, then it breaks down at `breakdown`. -/
def breakdownAmong (T : Territory)
    (tour : ClassFile → Finset String → Except LoadError (Finset String))
    (breakdown : ClassFile → Finset String → Breakdown) :
    (names : List String) → (visited : Finset String) → Breakdown
  | [], visited => ⟨visited, ∅⟩
  | name :: names, visited =>
    match T.lookup name with
    | .ok (some found) =>
      match tour found visited with
      | .ok visited' => T.breakdownAmong tour breakdown names visited'
      | .error _ => breakdown found visited
    | _ => ⟨visited, ∅⟩

/-- Where the tour of all supertypes of a class breaks down. -/
def breakdownSupertypes (T : Territory)
    (tour : ClassFile → Finset String → Except LoadError (Finset String))
    (breakdown : ClassFile → Finset String → Breakdown) (file : ClassFile)
    (visited : Finset String) : Breakdown :=
  match file.interfaceNames with
  | .error _ => ⟨visited, {file.name}⟩
  | .ok _ => (T.breakdownAmong tour breakdown file.supertypeNames visited).within file.name

/-- Where a tour breaks down that comes to the class of a file and fails. -/
def breakdown (T : Territory) :
    (allowance : Nat) → ClassFile → (visited : Finset String) → Breakdown
  | 0, file, visited => ⟨insert file.name visited, {file.name}⟩
  | allowance + 1, file, visited =>
    T.breakdownSupertypes (T.tour allowance) (T.breakdown allowance) file
      (insert file.name visited)

variable {T : Territory} {tour : ClassFile → Finset String → Except LoadError (Finset String)}
  {breakdown : ClassFile → Finset String → Breakdown} {file found : ClassFile}
  {visited visited' : Finset String} {name : String} {names : List String} {e : LoadError}

/-- Supertypes for which the tour succeeds only add to what has been visited. -/
theorem breakdownAmong_append {before : List String}
    (h : before.foldlM (T.tourSupertype tour file) visited = .ok visited') :
    T.breakdownAmong tour breakdown (before ++ names) visited =
      T.breakdownAmong tour breakdown names visited' := by
  induction before generalizing visited with
  | nil =>
    cases h
    rfl
  | cons name before ih =>
    rw [List.foldlM_cons, Except.bind_eq_ok_iff] at h
    obtain ⟨v, hfirst, hrest⟩ := h
    rw [List.cons_append, breakdownAmong, ← ih hrest]
    rw [tourSupertype] at hfirst
    split at hfirst
    · cases hfirst
    · cases hfirst
    · next found hfound =>
      rw [hfound]
      dsimp only
      rw [hfirst]

theorem breakdownAmong_of_error (hfound : T.lookup name = .ok (some found))
    (htour : tour found visited = .error e) :
    T.breakdownAmong tour breakdown (name :: names) visited = breakdown found visited := by
  rw [breakdownAmong, hfound]
  dsimp only
  rw [htour]

theorem breakdownAmong_of_nowhere (h : ∀ found, T.lookup name ≠ .ok (some found)) :
    T.breakdownAmong tour breakdown (name :: names) visited = ⟨visited, ∅⟩ := by
  rw [breakdownAmong]
  split
  · next found hfound => exact absurd hfound (h found)
  · rfl

end Territory

/-! ## Classes that have been accounted for -/

namespace Loader

variable {files : FileSystem} {start l : Loader} {s t : LoaderState} {c p : Class}
  {stage stage' : Stage} {name key : String}

/-- Every class, except perhaps for one, was cached at the start, or its linking has started
since. -/
def AccountedBut (start l : Loader) (p : Class) : Prop :=
  ∀ ⦃c stage⦄, l.Has c stage → c = p ∨ (∃ stage', start.Has c stage') ∨ l.Started c

/-- Every class was cached at the start, or its linking has started since. -/
def Accounted (start l : Loader) : Prop :=
  ∀ ⦃c stage⦄, l.Has c stage → (∃ stage', start.Has c stage') ∨ l.Started c

theorem Accounted.refl (l : Loader) : l.Accounted l := fun _ stage hc ↦ .inl ⟨stage, hc⟩

theorem Accounted.but (h : start.Accounted l) (p : Class) : start.AccountedBut l p :=
  fun _ _ hc ↦ .inr (h hc)

theorem AccountedBut.of_started (h : start.AccountedBut l p) (hp : l.Started p) :
    start.Accounted l := by
  intro c stage hc
  rcases h hc with rfl | hcounted
  · exact .inr hp
  · exact hcounted

theorem AccountedBut.restage (h : start.AccountedBut l p) (hp : l.Has p stage)
    (hstage' : stage' ≠ .defined) : start.Accounted (l.insert p.name (.holds p stage')) := by
  have hstarted : (l.insert p.name (.holds p stage')).Started p :=
    ⟨stage', hstage', has_insert_self _ _ _⟩
  intro c stage'' hc
  rcases (has_restage_iff hp).mp hc with ⟨rfl, _⟩ | ⟨_, hc⟩
  · exact .inr hstarted
  · rcases h hc with rfl | hcached | hc
    · exact .inr hstarted
    · exact .inl hcached
    · exact .inr (extends_restage hp hstage' hc)

theorem Accounted.of_find (h : start.Accounted s.loader) (hwf : s.loader.WellFormed)
    (hfind : find files name s = .ok (some p) t) : start.AccountedBut t.loader p := by
  obtain ⟨hlookup, ⟨_, rfl⟩ | ⟨habsent, _, rfl⟩⟩ := of_find_eq_some hwf hfind
  · exact h.but p
  · have habsent' := absent_of_lookup hwf habsent hlookup
    intro c stage hc
    rcases (has_enter_iff habsent').mp hc with ⟨rfl, _⟩ | hc
    · exact .inl rfl
    · exact .inr ((h hc).imp id (started_enter_iff habsent').mpr)

end Loader

/-! ## Visits that succeed -/

namespace Underway

open Loader

variable {files : FileSystem} {start : LoaderState} {region : String → Prop} {path : List Class}
  {link : Class → LinkM Unit} {c p : Class} {name : String} {s t : LinkState} {e : LoadError}

/-- Linking by `link` from the end of the path leaves no new class behind that it did not start to
link, if it succeeds. -/
def Accounts (files : FileSystem) (start : LoaderState) (region : String → Prop)
    (path : List Class) (link : Class → LinkM Unit) : Prop :=
  ∀ ⦃p s t⦄, Underway files start region path s → Next files start region path s p →
    start.loader.AccountedBut s.loader p → link p s = .ok () t → start.loader.Accounted t.loader

section

variable (hlink : Passes files start region (path ++ [c]) link)
  (haccounts : Accounts files start region (path ++ [c]) link)

include haccounts

theorem accounted_supertype (h : Underway files start region (path ++ [c]) s)
    (hname : name ∈ c.file.supertypeNames) (hcounted : start.loader.Accounted s.loader)
    (hrun : supertype files link c name s = .ok p t) : start.loader.Accounted t.loader := by
  obtain ⟨l, hfind, hrun⟩ := supertype_eq_ok_iff.mp hrun
  obtain ⟨hl, _, hnext, _⟩ := h.next_of_find hname hfind
  exact haccounts hl hnext (hcounted.of_find h.wellFormed hfind) hrun

include hlink

theorem accounted_supertypes {names : List String} {found : List Class}
    (h : Underway files start region (path ++ [c]) s)
    (hnames : ∀ name ∈ names, name ∈ c.file.supertypeNames)
    (hcounted : start.loader.Accounted s.loader)
    (hrun : names.mapM (supertype files link c) s = .ok found t) :
    Underway files start region (path ++ [c]) t ∧ start.loader.Accounted t.loader := by
  refine EStateM.of_mapM_eq_ok
    (fun u ↦ Underway files start region (path ++ [c]) u ∧ start.loader.Accounted u.loader)
    (fun name hname p u v ⟨hu, hu'⟩ hrun ↦ ?_) ⟨h, hcounted⟩ hrun
  obtain ⟨hv, _⟩ := hu.supertype_ok hlink (hnames name hname) hrun
  exact ⟨hv, hu.accounted_supertype haccounts (hnames name hname) hu' hrun⟩

theorem accounted_linkDefined (h : Underway files start region path s)
    (hc : s.loader.Has c .defined) (hnext : Next files start region path s c)
    (hcounted : start.loader.AccountedBut s.loader c)
    (hrun : linkDefined (linkSupertypes files link) c s = .ok () t) :
    start.loader.Accounted t.loader := by
  obtain ⟨w, hsupertypes, rfl⟩ := linkDefined_eq_ok_iff.mp hrun
  obtain ⟨names, interfaces, superclass, u, v, hnames, hinterfaces, hsuperclass, rfl⟩ :=
    linkSupertypes_eq_ok_iff.mp hsupertypes
  obtain ⟨hu, hucounted⟩ := (h.begin hc hnext).accounted_supertypes hlink haccounts
    (fun _ ↦ ClassFile.mem_supertypeNames_of_interface hnames)
    (hcounted.restage hc (by simp)) hinterfaces
  obtain ⟨hv, hvcounted⟩ := hu.accounted_supertypes hlink haccounts
    (fun _ hname ↦ ClassFile.mem_supertypeNames_of_superclass (Option.mem_toList.mp hname))
    hucounted (EStateM.mapM_toList_of_mapM_eq_ok hsuperclass)
  have hlinking : v.loader.Has c .linking := hv.linking_iff.mpr (by simp)
  exact (hvcounted.but c).restage hlinking (by simp)

end

theorem accounts_linkWithin (files : FileSystem) (start : LoaderState) (region : String → Prop) :
    ∀ (allowance : Nat) (path : List Class),
      Accounts files start region path (linkWithin files allowance) := by
  intro allowance
  induction allowance with
  | zero =>
    intro path c s t _ hnext hcounted hrun
    obtain ⟨stage, hc⟩ := hnext.cached
    rw [linkWithin_zero_apply hc] at hrun
    split at hrun
    · cases hrun
    · next hstage =>
      cases hrun
      exact hcounted.of_started ⟨stage, hstage, hc⟩
  | succ allowance ih =>
    intro path c s t h hnext hcounted hrun
    obtain ⟨stage, hc⟩ := hnext.cached
    rw [linkWithin_succ_apply hc] at hrun
    split at hrun
    · next hstage =>
      subst hstage
      exact h.accounted_linkDefined (passes_linkWithin files start region allowance _)
        (ih (path ++ [c])) hc hnext hcounted hrun
    · next hstage =>
      cases hrun
      exact hcounted.of_started ⟨stage, hstage, hc⟩

/-! ## Visits that fail -/

/-- A call broke down in the midst of a path, and removed its classes on the way back to `c`, but
not `c` itself. -/
def BrokenDown (files : FileSystem) (start : LoaderState) (region : String → Prop)
    (path : List Class) (c : Class) (b : Breakdown) (t : LinkState) : Prop :=
  ∃ rest u, Underway files start region (path ++ c :: rest) u ∧
    t = { u with loader := u.loader.evictAll rest } ∧ start.loader.Accounted u.loader ∧
      u.loader.Visited b.visited ∧ ∀ key, key ∈ b.path ↔ ∃ p ∈ c :: rest, p.name = key

/-- If linking by `link` from the end of the path fails, then it breaks down at `breakdown`, and
also removes the class that it began with. -/
def BreaksDown (files : FileSystem) (start : LoaderState) (region : String → Prop)
    (path : List Class) (link : Class → LinkM Unit)
    (breakdown : ClassFile → Finset String → Breakdown) : Prop :=
  ∀ ⦃p s e t visited⦄, Underway files start region path s → Next files start region path s p →
    start.loader.AccountedBut s.loader p → s.loader.Visited visited → link p s = .error e t →
      ∃ u, BrokenDown files start region path p (breakdown p.file visited) u ∧
        t = { u with loader := u.loader.evict p.name }

variable {tour : ClassFile → Finset String → Except LoadError (Finset String)}
  {breakdown : ClassFile → Finset String → Breakdown} {visited : Finset String}

theorem brokenDown_self (h : Underway files start region (path ++ [c]) s)
    (hcounted : start.loader.Accounted s.loader) (hvisited : s.loader.Visited visited) :
    BrokenDown files start region path c ⟨visited, {c.file.name}⟩ s :=
  ⟨[], s, h, rfl, hcounted, hvisited, by simp [Class.name, eq_comm]⟩

section

variable (hlink : Passes files start region (path ++ [c]) link)
  (haccounts : Accounts files start region (path ++ [c]) link)
  (hfollows : Follows files start region (path ++ [c]) link tour)
  (hbreaks : BreaksDown files start region (path ++ [c]) link breakdown)

include hfollows hbreaks

theorem brokenDown_supertype (h : Underway files start region (path ++ [c]) s)
    (hname : name ∈ c.file.supertypeNames) (hcounted : start.loader.Accounted s.loader)
    (hvisited : s.loader.Visited visited) (hrun : supertype files link c name s = .error e t)
    (names : List String) :
    BrokenDown files start region path c
      (((start.loader.territory files).breakdownAmong tour breakdown (name :: names)
        visited).within c.file.name) t := by
  have hlookup : (start.loader.territory files).lookup name = s.loader.lookup files name :=
    (h.lookup_eq h.atRest.wellFormed name).symm
  rcases supertype_eq_error_iff.mp hrun with ⟨l, hfind, rfl⟩ | ⟨l, hfind, _, rfl⟩ |
      ⟨p, l, hfind, hrun⟩
  · obtain ⟨herror, rfl⟩ := of_find_eq_error h.wellFormed hfind
    rw [Territory.breakdownAmong_of_nowhere (by simp [hlookup, herror])]
    exact h.brokenDown_self hcounted hvisited
  · obtain ⟨hnone, rfl⟩ := of_find_eq_none h.wellFormed hfind
    rw [Territory.breakdownAmong_of_nowhere (by simp [hlookup, hnone])]
    exact h.brokenDown_self hcounted hvisited
  · obtain ⟨hl, _, hnext, _⟩ := h.next_of_find hname hfind
    have hlvisited := hvisited.of_find h.wellFormed hfind
    have htour := hfollows hl hnext hlvisited
    rw [hrun] at htour
    obtain ⟨hfound, _⟩ := of_find_eq_some h.wellFormed hfind
    rw [Territory.breakdownAmong_of_error (hlookup.trans hfound) htour.eq_error]
    obtain ⟨v, ⟨rest, u, hu, rfl, hucounted, huvisited, hpath⟩, rfl⟩ :=
      hbreaks hl hnext (hcounted.of_find h.wellFormed hfind) hlvisited hrun
    refine ⟨p :: rest, u, by simpa using hu, rfl, hucounted, huvisited, fun key ↦ ?_⟩
    rw [Breakdown.within, Finset.mem_insert, hpath]
    simp only [List.mem_cons, exists_eq_or_imp]
    exact or_congr_left eq_comm

include hlink haccounts

theorem brokenDown_linkSupertypes (h : Underway files start region (path ++ [c]) s)
    (hcounted : start.loader.Accounted s.loader) (hvisited : s.loader.Visited visited)
    (hrun : linkSupertypes files link c s = .error e t) :
    BrokenDown files start region path c
      ((start.loader.territory files).breakdownSupertypes tour breakdown c.file visited) t := by
  rw [Territory.breakdownSupertypes]
  rcases split_of_linkSupertypes_eq_error hrun with ⟨source, hsource, _, rfl⟩ |
      ⟨names, before, name, after, found, u, hnames, hsplit, hbefore, hfail⟩
  · rw [hsource]
    exact h.brokenDown_self hcounted hvisited
  · rw [hnames, hsplit]
    have hmem (name : String) (hname : name ∈ before) : name ∈ c.file.supertypeNames := by
      simp [hsplit, hname]
    -- where the tour has come to before it fails
    have hagrees := h.agrees_interfaces hlink hfollows hmem hvisited
    rw [hbefore] at hagrees
    obtain ⟨visited', htour, huvisited⟩ := hagrees.exists_eq_ok
    obtain ⟨hu, hucounted⟩ := h.accounted_supertypes hlink haccounts hmem hcounted hbefore
    dsimp only
    rw [Territory.breakdownAmong_append htour]
    exact hu.brokenDown_supertype hfollows hbreaks (by simp [hsplit]) hucounted huvisited hfail
      after

end

/-- **A visit that fails breaks down where its tour does.** -/
theorem breaksDown_linkWithin (files : FileSystem) (start : LoaderState)
    (region : String → Prop) :
    ∀ (allowance : Nat) (path : List Class),
      BreaksDown files start region path (linkWithin files allowance)
        ((start.loader.territory files).breakdown allowance) := by
  intro allowance
  induction allowance with
  | zero =>
    intro path c s e t visited h hnext hcounted hvisited hrun
    obtain ⟨stage, hc⟩ := hnext.cached
    rw [linkWithin_zero_apply hc] at hrun
    split at hrun
    · next hstage =>
      subst hstage
      cases hrun
      -- no mark is set at this depth, but one that was set would be gone with the class
      exact ⟨_, (h.begin hc hnext).brokenDown_self (hcounted.restage hc (by simp))
        (visited_insert hvisited c .linking (by simp)), by simp [evict_insert]⟩
    · cases hrun
  | succ allowance ih =>
    intro path c s e t visited h hnext hcounted hvisited hrun
    obtain ⟨stage, hc⟩ := hnext.cached
    rw [linkWithin_succ_apply hc] at hrun
    split at hrun
    · next hstage =>
      subst hstage
      obtain ⟨u, hsupertypes, rfl⟩ := linkDefined_eq_error_iff.mp hrun
      exact ⟨u, (h.begin hc hnext).brokenDown_linkSupertypes
        (passes_linkWithin files start region allowance _)
        (accounts_linkWithin files start region allowance _)
        (follows_linkWithin files start region allowance _) (ih (path ++ [c]))
        (hcounted.restage hc (by simp)) (visited_insert hvisited c .linking (by simp))
        hsupertypes, rfl⟩
    · cases hrun

end Underway

/-! ## Calls that fail -/

namespace Loader

variable {files : FileSystem} {l m : Loader} {s t : LoaderState} {c : Class} {stage : Stage}
  {name key : String} {e : LoadError}

theorem WellFormed.mem_cache_iff (h : l.WellFormed) :
    key ∈ l.cache ↔ ∃ c, (∃ stage, l.Has c stage) ∧ c.name = key := by
  rw [Std.ExtTreeMap.mem_iff_isSome_getElem?]
  constructor
  · intro hsome
    rcases h.has_or_absent key with ⟨c, stage, hc, hname⟩ | habsent
    · exact ⟨c, ⟨stage, hc⟩, hname⟩
    · simp [habsent] at hsome
  · rintro ⟨c, ⟨stage, hc⟩, rfl⟩
    rw [hc]
    rfl

/-- Where the loading of a name breaks down, if it fails. -/
def loadBreakdown (files : FileSystem) (loader : Loader) (name : String) : Breakdown :=
  match loader.lookup files name with
  | .ok (some file) =>
    (loader.territory files).breakdown (loader.maxLinkDepth + 1) file loader.linkedNames
  | _ => ⟨∅, ∅⟩

/-- What is cached after a failure: the names of what has been visited are added, and then those of
the path are removed, the class itself among them. -/
theorem mem_cache_of_link_error (h : s.AtRest) (hc : s.loader.Has c stage)
    (hrun : link files c s = .error e t) {b : Breakdown}
    (hb : (s.loader.territory files).breakdown (s.loader.maxLinkDepth + 1) c.file
      s.loader.linkedNames = b) :
    c.name ∈ b.path ∧
      ∀ key, key ∈ t.loader.cache ↔ (key ∈ s.loader.cache ∨ key ∈ b.visited) ∧ key ∉ b.path := by
  obtain ⟨v, hvisit, rfl⟩ := link_eq_error_iff.mp hrun
  obtain ⟨w, ⟨rest, u, hu, rfl, hcounted, hvisited, hpath⟩, rfl⟩ :=
    Underway.breaksDown_linkWithin files s (fun _ ↦ True) _ []
      (.init h (supertypeClosed_true files s.loader)) (next_of_has hc trivial)
      ((Accounted.refl _).but c) ((visited_iff_of_atRest h).mpr rfl) hvisit
  rw [List.nil_append] at hu
  rw [hb] at hvisited hpath
  refine ⟨(hpath c.name).mpr ⟨c, List.mem_cons_self, rfl⟩, fun key ↦ ?_⟩
  change key ∈ (u.takenBack (c :: rest)).loader.cache ↔ _
  rw [hu.atRest_takenBack.wellFormed.mem_cache_iff, h.wellFormed.mem_cache_iff, hvisited, hpath]
  simp only [hu.exists_has_takenBack_iff]
  constructor
  · rintro ⟨d, ⟨hd, stage', hcached⟩, rfl⟩
    refine ⟨(hcounted hcached).imp (fun hd ↦ ⟨d, hd, rfl⟩) fun hd ↦ ⟨d, hd, rfl⟩, ?_⟩
    rintro ⟨p, hp, hname⟩
    exact hd ((hu.linking_iff.mpr hp).eq_of_name_eq hcached hname ▸ hp)
  · rintro ⟨⟨d, ⟨stage', hd⟩, rfl⟩ | ⟨d, ⟨stage', _, hd⟩, rfl⟩, hnot⟩
    · exact ⟨d, ⟨fun hmem ↦ hnot ⟨d, hmem, rfl⟩, hu.kept hd⟩, rfl⟩
    · exact ⟨d, ⟨fun hmem ↦ hnot ⟨d, hmem, rfl⟩, stage', hd⟩, rfl⟩

/-- **The names that are cached after a failure** are a matter of where the loading breaks down and
of the names that were cached before. -/
theorem mem_cache_of_load_error (h : s.AtRest) (hrun : load files name s = .error e t)
    (key : String) :
    key ∈ t.loader.cache ↔
      (key ∈ s.loader.cache ∨ key ∈ (s.loader.loadBreakdown files name).visited) ∧
        key ∉ (s.loader.loadBreakdown files name).path := by
  rw [loadBreakdown]
  rcases EStateM.bind_eq_error_iff.mp hrun with hfind | ⟨found, u, hfind, hrest⟩
  · obtain ⟨hlookup, rfl⟩ := of_find_eq_error h.wellFormed hfind
    simp [hlookup]
  · cases found with
    | none => cases hrest
    | some c =>
      rcases EStateM.bind_eq_error_iff.mp hrest with hlink | ⟨_, _, _, ⟨⟩⟩
      obtain ⟨hlookup, hstate⟩ := of_find_eq_some h.wellFormed hfind
      obtain ⟨hterritory, hlinked⟩ := of_find h hfind
      have hdepth : u.loader.maxLinkDepth = s.loader.maxLinkDepth :=
        congrArg Territory.maxDepth hterritory
      have hu : u.AtRest := by simpa [hfind] using (LoaderState.evolves_find files name h).atRest
      obtain ⟨stage, hc⟩ := exists_has_of_find h.wellFormed hfind
      rw [hlookup]
      dsimp only
      rw [← hterritory, ← hdepth, ← hlinked]
      obtain ⟨hpath, hcache⟩ := mem_cache_of_link_error hu hc hlink rfl
      rw [hcache]
      -- the class that was found may be new, but then it is on the path
      rcases hstate with ⟨_, rfl⟩ | ⟨_, _, rfl⟩
      · rfl
      · refine and_congr_left fun hkey ↦ or_congr_left ?_
        have hne : c.name ≠ key := fun heq ↦ hkey (heq ▸ hpath)
        rw [Std.ExtTreeMap.mem_iff_isSome_getElem?, Std.ExtTreeMap.mem_iff_isSome_getElem?,
          LoaderState.enter, getElem?_cache_insert, if_neg hne]

end Loader

end JavaClass
