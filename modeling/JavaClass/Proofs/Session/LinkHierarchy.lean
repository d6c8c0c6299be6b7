import JavaClass.Proofs.Loader.Hierarchy
import JavaClass.Proofs.Session.LinkClosure

/-!
# Linking a hierarchy

In every session that can be reached, a class that is only defined can be linked if and only if its
hierarchy has no invalid index of an interface and no supertype that cannot be found. The limit of
the loader does not matter as long as it admits a path through all classes of the hierarchy that are
not linked yet. Cycles are no obstacle: a class is met again only while it is on the path.

## Main statements

* `Session.link_hierarchy`: when linking succeeds, and what it does then.
-/

namespace JavaClass

namespace Session

open Loader

/-- **Linking is sound and complete on arbitrary hierarchies.** -/
theorem link_hierarchy {s : Session} (hs : s.Reachable) {number : Nat} {l : Loader}
    (hl : s.loaders[number]? = some l) {c : Class} (hc : l.Has c .defined)
    (hdepth : (l.unlinkedHierarchy s.files c.name).encard ≤ (l.maxLinkDepth + 1 : ℕ)) :
    ((∃ s', link number c s = .ok () s') ↔ l.Linkable s.files c.name) ∧
      ∀ s' l', link number c s = .ok () s' → s'.loaders[number]? = some l' →
        LinkedHierarchy s.files l c.name l' := by
  have hrest := hs.sound.atRest (List.mem_of_getElem? hl)
  constructor
  · rw [← link_eq_ok_iff hrest hc hdepth]
    constructor
    · rintro ⟨s', hrun⟩
      obtain ⟨t, hlink, _⟩ := (runLoader_eq_ok_iff hl).mp hrun
      exact ⟨t, hlink⟩
    · rintro ⟨t, hlink⟩
      exact ⟨_, (runLoader_eq_ok_iff hl).mpr ⟨t, hlink, rfl⟩⟩
  · intro s' l' hrun hl'
    obtain ⟨t, hlink, rfl⟩ := (runLoader_eq_ok_iff hl).mp hrun
    rw [getElem?_loaders_resume_self hl] at hl'
    obtain rfl := Option.some.inj hl'
    exact linkedHierarchy_of_link hrest hc hlink

/-- The two classes that extend each other, with one of them defined. -/
def definedCycle : Session := run [.find 0 "A" none] cycle

theorem reachable_definedCycle : definedCycle.Reachable :=
  ⟨cycle, _, fresh_cycle, by simp [cycle, SessionOp.WorksOn], rfl⟩

theorem supertypeClosed_definedCycle {l : Loader} (hl : definedCycle.loaders[0]? = some l) :
    l.SupertypeClosed definedCycle.files fun key ↦ key ∈ ({"A", "B"} : Set String) := by
  have hsupertypes : ∀ l ∈ definedCycle.loaders[0]?,
      ((l.lookup definedCycle.files "A").toOption.bind id).map ClassFile.supertypeNames =
        some ["B"] ∧
      ((l.lookup definedCycle.files "B").toOption.bind id).map ClassFile.supertypeNames =
        some ["A"] := by
    decide +kernel
  obtain ⟨hA, hB⟩ := hsupertypes l hl
  rintro key name file found (rfl | rfl) hfile hmem _
  · have hnames : file.supertypeNames = ["B"] := by simpa [hfile, Except.toOption] using hA
    rw [hnames, List.mem_singleton] at hmem
    rw [hmem]
    exact .inr (by decide +kernel : internalName "B" = "B")
  · have hnames : file.supertypeNames = ["A"] := by simpa [hfile, Except.toOption] using hB
    rw [hnames, List.mem_singleton] at hmem
    rw [hmem]
    exact .inl (by decide +kernel : internalName "A" = "A")

/-- The loader has two classes to link, and it may go one supertype away from the first. -/
theorem link_hierarchy_definedCycle : ∃ c l s' l', definedCycle.loaders[0]? = some l ∧
    l.Has c .defined ∧
    (l.unlinkedHierarchy definedCycle.files c.name).encard ≤ ((l.maxLinkDepth + 1 : ℕ) : ℕ∞) ∧
    link 0 c definedCycle = .ok () s' ∧ s'.loaders[0]? = some l' ∧
    l.Linkable definedCycle.files c.name ∧ LinkedHierarchy definedCycle.files l c.name l' := by
  have hrun : ∃ l ∈ definedCycle.loaders[0]?, ∃ entry ∈ l.cache["A"]?, ∃ c ∈ entry.class?,
      entry.stage? = some .defined ∧ c.name = "A" ∧ l.maxLinkDepth = 1 ∧
        ∃ r ∈ (link 0 c definedCycle).ok?, r.2.loaders[0]?.isSome := by
    decide +kernel
  obtain ⟨l, hl, entry, hentry, c, hc, hstage, hname, hmax, ⟨_, s'⟩, hlink, hsome⟩ := hrun
  have hlink := EStateM.Result.ok?_eq_some_iff.mp hlink
  obtain ⟨l', hl'⟩ := Option.isSome_iff_exists.mp hsome
  obtain rfl := Entry.eq_holds hc hstage
  have hcached : l.Has c .defined := by rwa [Has, hname]
  have hdepth : (l.unlinkedHierarchy definedCycle.files c.name).encard ≤
      ((l.maxLinkDepth + 1 : ℕ) : ℕ∞) := by
    have hclosed := supertypeClosed_definedCycle hl
    have hroot : c.name ∈ ({"A", "B"} : Set String) := by simp [hname]
    calc (l.unlinkedHierarchy definedCycle.files c.name).encard
        ≤ ({"A", "B"} : Set String).encard :=
          Set.encard_le_encard fun _ hkey ↦ hkey.1.of_closed hclosed hroot
      _ = ((l.maxLinkDepth + 1 : ℕ) : ℕ∞) := by
          rw [Set.encard_pair (by decide), hmax]
          rfl
  have hlinks := link_hierarchy reachable_definedCycle hl hcached hdepth
  exact ⟨c, l, s', l', hl, hcached, hdepth, hlink, hl', hlinks.1.mp ⟨s', hlink⟩,
    hlinks.2 s' l' hlink hl'⟩

end Session

end JavaClass
