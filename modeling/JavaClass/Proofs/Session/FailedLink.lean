import JavaClass.Proofs.Session.LinkClosure

/-!
# What a failed call of linking leaves behind

A call can fail far from where it began, after any number of other classes have been defined and
linked on the side. What it leaves behind can still be said in full. There is one path, from the
class that was to be linked to the one that is the reason of the failure, along which each class
was found under a supertype name of the one before. The classes of the path are no longer cached.
Everything else that was cached still is, just as it was, and what is new is no more than defined.

The error is about the last class of the path. That it is never the error for a class that is not
loaded takes an argument: a class that was found in the course of a call is cached when the call
comes to it, and the call fails before it could come to one that it removed.

## Main statements

* `Session.failed_link_effect`: the effect of a call that fails.
-/

namespace JavaClass

namespace Session

open Loader

/-- A call to link `c` in a loader that was `l` failed with the error `e` and left it as `l'`. The
session was `s` and became `s'`. -/
structure FailedLink (s : Session) (l : Loader) (c : Class) (e : LoadError) (s' : Session)
    (l' : Loader) (path : List Class) : Prop where
  head : path.head? = some c
  chain : path.IsChain (LoaderState.Declares s.files ⟨l, s.heap⟩)
  nodup : path.Nodup
  not_linked : ∀ p ∈ path, ¬ l.Has p .linked
  /-- The path is gone, … -/
  removed : ∀ p ∈ path, l'.cache[p.name]? = none
  /-- … and everything else is as it was, … -/
  kept : ∀ (key : String) (entry : Entry), l.cache[key]? = some entry →
    (∀ p ∈ path, p.name ≠ key) → l'.cache[key]? = some entry
  /-- … in particular what was linked, with its supertypes. -/
  linked : ∀ (key : String) (p : Class), l.cache[key]? = some (.holds p .linked) →
    l'.cache[key]? = some (.holds p .linked) ∧ s'.superclass? p = s.superclass? p ∧
      s'.interfaces p = s.interfaces p
  added : ∀ (key : String) (entry : Entry), l.cache[key]? = none → l'.cache[key]? = some entry →
    ∃ p, entry = .holds p .defined ∧ s'.superclass? p = none ∧ s'.interfaces p = []
  /-- The last class of the path is the reason. -/
  fault : ∃ last ∈ path.getLast?, l.Fault s.files (path.length - 1) last e

variable {s s' : Session} {l l' : Loader} {c : Class} {number : Nat} {e : LoadError}

/-- A class that its loader has not linked is not linked anywhere. -/
theorem Sound.unlinked_of_has (h : s.Sound) (hl : s.loaders[number]? = some l) {stage : Stage}
    (hstage : stage ≠ .linked) (hc : l.Has c stage) : s.Unlinked c := by
  intro m hm d hd hid
  obtain ⟨i, hi⟩ := List.mem_iff_getElem?.mp hm
  have hmem := List.mem_of_getElem? hl
  obtain rfl := h.identity (refers_of_has hm hd) (refers_of_has hmem hc) hid
  obtain rfl := h.apart hi hl hd hc
  obtain rfl := Option.some.inj (hi.symm.trans hl)
  exact hstage (hc.stage_eq hd)

theorem fault_ne_notLoaded {files : FileSystem} (hwf : l.WellFormed) {depth : Nat}
    (h : l.Fault files depth c e) (name : String) : e ≠ .notLoaded name := by
  rintro rfl
  cases h with
  | undefinable _ hlookup => cases isUndefinable_of_lookup hwf hlookup

theorem Sound.failedLink (h : s.Sound) (hl : s.loaders[number]? = some l) {stage : Stage}
    (hc : l.Has c stage) {t : LoaderState}
    (hrun : Loader.link s.files c ⟨l, s.heap⟩ = .error e t) (hafter : (s.resume number t).Sound) :
    ∃ path, FailedLink s l c e (s.resume number t) t.loader path := by
  have hmem := List.mem_of_getElem? hl
  have hrest := h.atRest hmem
  obtain ⟨rest, u, hu, rfl, hfault⟩ :=
    Loader.link_error hrest (supertypeClosed_true _ _) hc trivial hrun
  have hl' := getElem?_loaders_resume_self hl (u.takenBack (c :: rest))
  have hmem' := List.mem_of_getElem? hl'
  have hwf := hu.atRest_takenBack.wellFormed
  refine ⟨c :: rest, ?_⟩
  constructor
  case head => rfl
  case chain => exact hu.chain
  case nodup => exact hu.nodup
  case not_linked =>
    intro p hp hlinked
    -- it would have stayed linked, but the classes on the path are still being linked
    cases (hu.linked_kept hlinked).stage_eq (hu.linking_iff.mpr hp)
  case removed => exact fun p hp ↦ hu.getElem?_takenBack_of_mem hp
  case kept =>
    intro key entry hentry hkey
    obtain ⟨p, stage', rfl, rfl, _⟩ := hrest.wellFormed hentry
    exact hu.has_takenBack_of_has hentry fun hp ↦ hkey p hp rfl
  case linked =>
    intro key p hp
    obtain ⟨hhas, rfl⟩ := hrest.wellFormed.has_of_getElem? hp
    have hhas' := hu.linked_takenBack_iff.mpr hhas
    have hlinks : (u.takenBack (c :: rest)).heap.linksOf p = s.heap.linksOf p :=
      hu.linksOf_takenBack fun _ hd ↦ hu.id_ne_of_mem_linked hd hhas
    refine ⟨hhas', ?_, ?_⟩
    · rw [hafter.superclass?_of_linked hmem' hhas', h.superclass?_of_linked hmem hhas]
      exact congrArg Links.superclass hlinks
    · rw [hafter.interfaces_of_linked hmem' hhas', h.interfaces_of_linked hmem hhas]
      exact congrArg Links.interfaces hlinks
  case added =>
    intro key entry habsent hentry
    obtain ⟨p, stage', rfl, rfl, _⟩ := hwf hentry
    have hnew (stage : Stage) : ¬ l.Has p stage := fun hp ↦ by
      rw [Has, habsent] at hp
      cases hp
    have hstage' : stage' = .defined := hu.eq_defined_of_new hentry hnew
    subst hstage'
    exact ⟨p, rfl, hafter.supertypes_of_unlinked (hafter.unlinked_of_has hl' (by simp) hentry)⟩
  case fault => simpa using hfault

/-- **The effect of a call that fails.** If the class is not the one in the cache, this is the
error and nothing happens. Otherwise it is not, and what the call leaves is described by a path. -/
theorem failed_link_effect (hs : s.Reachable) (hc : s.Refers c) (hl : s.loaders[number]? = some l)
    (hl' : s'.loaders[number]? = some l') (hrun : link number c s = .error e s') :
    ((∀ stage, l.cache[c.name]? ≠ some (.holds c stage)) → e = .notLoaded c.name ∧ s' = s) ∧
    ((∃ stage, l.cache[c.name]? = some (.holds c stage)) →
      (∀ name, e ≠ .notLoaded name) ∧ ∃ path, FailedLink s l c e s' l' path) := by
  have h := hs.sound
  have hmem := List.mem_of_getElem? hl
  have hafter := (h.link hl hc).1
  rw [hrun] at hafter
  obtain ⟨t, hlink, rfl⟩ := (runLoader_eq_error_iff hl).mp hrun
  rw [getElem?_loaders_resume_self hl] at hl'
  obtain rfl := Option.some.inj hl'
  constructor
  · intro habsent
    -- an object with the identity of the cached one is that one
    rw [link_of_absent fun d stage hd ↦ beq_eq_false_iff_ne.mpr fun hid ↦ habsent stage ?_] at hlink
    · cases hlink
      obtain ⟨hlt, rfl⟩ := List.getElem?_eq_some_iff.mp hl
      refine ⟨rfl, ?_⟩
      rw [resume, List.set_getElem_self hlt]
    · obtain ⟨hhas, _⟩ := (h.atRest hmem).wellFormed.has_of_getElem? hd
      rwa [h.identity (refers_of_has hmem hhas) hc hid] at hd
  · rintro ⟨stage, hcached⟩
    obtain ⟨path, hpath⟩ := h.failedLink hl hcached hlink hafter
    obtain ⟨last, _, hfault⟩ := hpath.fault
    exact ⟨fault_ne_notLoaded (h.atRest hmem).wellFormed hfault, path, hpath⟩

/-- A loader that has defined a class whose superclass extends one for which there is no file. -/
def brokenChain : Session :=
  run [.find 0 "A" none]
    { files := (FileSystem.empty.write ⟨false, ["A.class"]⟩ (letterClass 65 66)).write
        ⟨false, ["B.class"]⟩ (letterClass 66 67)
      loaders := [{ searchPath := ["."] }] }

theorem reachable_brokenChain : brokenChain.Reachable :=
  ⟨_, _, ⟨by simp, rfl, rfl⟩, by simp [SessionOp.WorksOn], rfl⟩

theorem failed_link_effect_brokenChain : ∃ c l s' l', brokenChain.loaders[0]? = some l ∧
    l.Has c .defined ∧ link 0 c brokenChain = .error (.missingSupertype "B" "C") s' ∧
      s'.loaders[0]? = some l' ∧
        ∃ path, FailedLink brokenChain l c (.missingSupertype "B" "C") s' l' path := by
  have hrun : ∃ l ∈ brokenChain.loaders[0]?, ∃ entry ∈ l.cache["A"]?, ∃ c ∈ entry.class?,
      entry.stage? = some .defined ∧ c.name = "A" ∧
        ∃ r ∈ (link 0 c brokenChain).error?, r.1 = .missingSupertype "B" "C" ∧
          r.2.loaders[0]?.isSome := by
    decide +kernel
  obtain ⟨l, hl, entry, hentry, c, hc, hstage, hname, ⟨_, s'⟩, hlink, rfl, hsome⟩ := hrun
  have hlink := EStateM.Result.error?_eq_some_iff.mp hlink
  obtain ⟨l', hl'⟩ := Option.isSome_iff_exists.mp hsome
  obtain rfl := Entry.eq_holds hc hstage
  have hcached : l.Has c .defined := by rwa [Has, hname]
  have hrefers := refers_of_has (List.mem_of_getElem? hl) hcached
  exact ⟨c, l, s', l', hl, hcached, hlink, hl',
    ((failed_link_effect reachable_brokenChain hrefers hl hl' hlink).2 ⟨.defined, hcached⟩).2⟩

end Session

end JavaClass
