import JavaClass.Proofs.Loader.Outcome
import Mathlib.Data.Set.Card

/-!
# Hierarchies

The hierarchy of a class has everything that can be reached from it through declared supertypes. It
is given by names, since most of it may not have been defined yet, and a name is in it only if it
leads to a class. Hierarchies may be cyclic and need not be finite.

Linking a class comes to all of its hierarchy and to nothing else. It can fail only for a class of
the hierarchy that declares something impossible, or for want of depth; and since the classes on a
path are different ones that are not linked, the depth suffices if it is the number of these.

## Main statements

* `Loader.link_eq_ok_iff`: with enough depth a call succeeds exactly if the hierarchy can be linked.
* `Loader.linkedHierarchy_of_link`: what a call does that succeeds.
-/

namespace JavaClass

/-! ## Declarations that can be met -/

namespace Loader

/-- The names of the classes that can be reached from one through declared supertypes. -/
inductive Hierarchy (files : FileSystem) (loader : Loader) (root : String) : String → Prop
  | root : Hierarchy files loader root root
  | supertype {key name : String} {file found : ClassFile} (hkey : Hierarchy files loader root key)
    (hfile : loader.lookup files key = .ok (some file)) (hname : name ∈ file.supertypeNames)
    (hfound : loader.lookup files name = .ok (some found)) :
    Hierarchy files loader root (internalName name)

/-- Every class of the hierarchy has only valid indices of interfaces, and every supertype that one
of them declares can be found. -/
def Linkable (files : FileSystem) (loader : Loader) (root : String) : Prop :=
  ∀ key file, loader.Hierarchy files root key → loader.lookup files key = .ok (some file) →
    (∀ index ∈ file.interfaces, ∃ name, file.pool.className? index = some name) ∧
      ∀ name ∈ file.supertypeNames, ∃ found, loader.lookup files name = .ok (some found)

/-- The names of the classes of the hierarchy that are not linked yet. -/
def unlinkedHierarchy (files : FileSystem) (loader : Loader) (root : String) : Set String :=
  {key | loader.Hierarchy files root key ∧
    ∀ c, loader.cache[key]? ≠ some (.holds c .linked)}

variable {files : FileSystem} {start t : LoaderState} {c : Class} {stage : Stage} {e : LoadError}

theorem supertypeClosed_hierarchy (files : FileSystem) (loader : Loader) (root : String) :
    loader.SupertypeClosed files (loader.Hierarchy files root) :=
  fun _ _ _ _ ↦ .supertype

theorem Hierarchy.of_closed {loader : Loader} {root key : String} {region : String → Prop}
    (h : loader.Hierarchy files root key) (hclosed : loader.SupertypeClosed files region)
    (hroot : region root) : region key := by
  induction h with
  | root => exact hroot
  | supertype _ hfile hname hfound ih => exact hclosed ih hfile hname hfound

/-! ## Success -/

/-- After a success the classes of the hierarchy are linked, and they have the files to which their
names led before. -/
theorem linked_of_hierarchy {s : LinkState}
    (h : Underway files start (start.loader.Hierarchy files c.name) [] s)
    (hc : s.loader.Has c .linked) {key : String}
    (hkey : start.loader.Hierarchy files c.name key) :
    ∃ p, s.loader.Has p .linked ∧ p.name = key ∧
      start.loader.lookup files key = .ok (some p.file) := by
  have hlookup {p : Class} (hp : s.loader.Has p .linked) :
      start.loader.lookup files p.name = .ok (some p.file) := (h.leads hp).lookup_eq
  induction hkey with
  | root => exact ⟨c, hc, rfl, hlookup hc⟩
  | @supertype key name file found _ hfile hname _ ih =>
    obtain ⟨p, hp, rfl, hp'⟩ := ih
    obtain rfl : p.file = file := by simpa [hp'] using hfile
    obtain ⟨q, hq⟩ := (h.atRest_end.points hp).exists_leads_of_mem hname
    obtain ⟨hq, hname'⟩ := h.wellFormed.has_of_entry? hq
    exact ⟨q, hq, hname'.symm, hname' ▸ hlookup hq⟩

theorem linkable_of_linked {s : LinkState}
    (h : Underway files start (start.loader.Hierarchy files c.name) [] s)
    (hc : s.loader.Has c .linked) : start.loader.Linkable files c.name := by
  intro key file hkey hfile
  obtain ⟨p, hp, rfl, hp'⟩ := linked_of_hierarchy h hc hkey
  obtain rfl : p.file = file := by simpa [hp'] using hfile
  have hpoints := h.atRest_end.points hp
  constructor
  · obtain ⟨names, hnames, _⟩ := hpoints.interfaces
    exact ClassFile.exists_interfaceNames_iff.mp ⟨names, hnames⟩
  · intro name hname
    obtain ⟨q, hq⟩ := hpoints.exists_leads_of_mem hname
    obtain ⟨hq, hname'⟩ := h.wellFormed.has_of_entry? hq
    exact ⟨q.file, (h.leadsTo hq hname').lookup_eq⟩

/-! ## Failure -/

/-- The classes of a path are different ones, and none of them is linked. -/
theorem length_path_le {path : List Class} {s : LinkState}
    (h : Underway files start (start.loader.Hierarchy files c.name) path s) :
    (path.length : ℕ∞) ≤ (start.loader.unlinkedHierarchy files c.name).encard := by
  -- the classes of a path are all cached, so their names tell them apart
  have hnodup : (path.map Class.name).Nodup := h.nodup.map_on fun _ hp _ hq ↦
    (h.linking_iff.mpr hp).eq_of_name_eq (h.linking_iff.mpr hq)
  have hsub : ((path.map Class.name).toFinset : Set String) ⊆
      start.loader.unlinkedHierarchy files c.name := by
    intro key hkey
    rw [List.coe_toFinset] at hkey
    obtain ⟨p, hp, rfl⟩ := List.mem_map.mp hkey
    refine ⟨h.region_of_mem_path hp, fun q hq ↦ ?_⟩
    obtain ⟨hq, hname⟩ := h.atRest.wellFormed.has_of_getElem? hq
    have hq' := h.linked_kept hq
    cases (hq'.eq_of_name_eq (h.linking_iff.mpr hp) hname.symm ▸ hq').stage_eq
      (h.linking_iff.mpr hp)
  calc (path.length : ℕ∞) = ((path.map Class.name).toFinset : Set String).encard := by
        rw [Set.encard_coe_eq_coe_finsetCard, List.toFinset_card_of_nodup hnodup, List.length_map]
    _ ≤ (start.loader.unlinkedHierarchy files c.name).encard := Set.encard_le_encard hsub

theorem not_link_error (hstart : start.AtRest) (hc : start.loader.Has c stage)
    (hdepth : (start.loader.unlinkedHierarchy files c.name).encard ≤
      ((start.loader.maxLinkDepth + 1 : ℕ) : ℕ∞))
    (hlinkable : start.loader.Linkable files c.name) : link files c start ≠ .error e t := by
  intro hrun
  obtain ⟨rest, s, hs, _, last, hlast, hfault⟩ :=
    link_error hstart (supertypeClosed_hierarchy _ _ _) hc .root hrun
  -- the class that is the reason belongs to the hierarchy, so what it declares can be met
  have hmem : last ∈ c :: rest := List.mem_of_getLast? hlast
  obtain ⟨hindices, hnames⟩ := hlinkable last.name last.file (hs.region_of_mem_path hmem)
    (hs.leads (hs.linking_iff.mpr hmem)).lookup_eq
  cases hfault with
  | dangling h =>
    obtain ⟨names, hnames⟩ := ClassFile.exists_interfaceNames_iff.mpr hindices
    rw [h] at hnames
    cases hnames
  | missing hname h =>
    obtain ⟨found, hfound⟩ := hnames _ hname
    rw [h] at hfound
    cases hfound
  | undefinable hname h =>
    obtain ⟨found, hfound⟩ := hnames _ hname
    rw [h] at hfound
    cases hfound
  | tooDeep h =>
    have hlength := (length_path_le hs).trans hdepth
    rw [List.length_cons, h, Nat.cast_le] at hlength
    omega

/-! ## Both -/

theorem link_eq_ok_iff (hstart : start.AtRest) (hc : start.loader.Has c stage)
    (hdepth : (start.loader.unlinkedHierarchy files c.name).encard ≤
      ((start.loader.maxLinkDepth + 1 : ℕ) : ℕ∞)) :
    (∃ t, link files c start = .ok () t) ↔ start.loader.Linkable files c.name := by
  constructor
  · rintro ⟨t, hrun⟩
    obtain ⟨⟨s, hs, rfl⟩, hlinked⟩ :=
      link_ok hstart (supertypeClosed_hierarchy _ _ _) hc .root hrun
    exact linkable_of_linked hs hlinked
  · intro hlinkable
    cases hrun : link files c start with
    | ok _ t => exact ⟨t, rfl⟩
    | error e t => exact absurd hrun (not_link_error hstart hc hdepth hlinkable)

/-- A call that succeeds has linked the hierarchy and changed nothing else. -/
structure LinkedHierarchy (files : FileSystem) (l : Loader) (root : String) (l' : Loader) :
    Prop where
  linked : ∀ key, l.Hierarchy files root key → ∃ p, l'.cache[key]? = some (.holds p .linked)
  newly : ∀ (key : String) (p : Class), l'.cache[key]? = some (.holds p .linked) →
    (∀ q, l.cache[key]? ≠ some (.holds q .linked)) → l.Hierarchy files root key
  kept : ∀ (key : String) (p : Class) (stage : Stage), l.cache[key]? = some (.holds p stage) →
    ∃ stage', l'.cache[key]? = some (.holds p stage')
  outside : ∀ key : String, ¬ l.Hierarchy files root key → l'.cache[key]? = l.cache[key]?

theorem linkedHierarchy_of_link (hstart : start.AtRest) (hc : start.loader.Has c stage)
    (hrun : link files c start = .ok () t) :
    LinkedHierarchy files start.loader c.name t.loader := by
  obtain ⟨⟨s, hs, rfl⟩, hlinked⟩ := link_ok hstart (supertypeClosed_hierarchy _ _ _) hc .root hrun
  constructor
  case linked =>
    intro key hkey
    obtain ⟨p, hp, rfl, _⟩ := linked_of_hierarchy hs hlinked hkey
    exact ⟨p, hp⟩
  case newly =>
    intro key p hp hnot
    by_contra hkey
    exact hnot p (hs.outside hkey ▸ hp)
  case kept =>
    intro key p stage' hp
    obtain ⟨hp, rfl⟩ := hstart.wellFormed.has_of_getElem? hp
    exact hs.kept hp
  case outside => exact fun key hkey ↦ hs.outside hkey

end Loader

end JavaClass
