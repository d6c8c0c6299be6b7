import JavaClass.Proofs.Session.LinkClosure

/-!
# What lasts

A call of linking that fails evicts classes and takes back the linking of others, but only of those
that it came to itself. A class that was linked before the call is neither: nothing that is linked
is ever visited again. So once an operation has left a class linked under a name, the name leads to
this object for good, and the object points at the same supertypes.

What is evicted is gone for good, too. A name can be defined again, but then by a new object, and
the old one is never again the one in the cache, however long it is held.

Both are about what is the case for a loader and a heap before and after. `LoaderState.Lasts` is the
part that can be put together from step to step, for the loader that is addressed and, with another
reason, for each of those that are not.

## Main statements

* `Session.continues_run`: what lasts in the course of a run.
* `Session.linked_is_permanent`: linked classes stay linked, and evicted ones stay evicted.
-/

namespace JavaClass

/-! ## Loaders -/

namespace Loader

variable {files : FileSystem} {s : LoaderState} {c : Class} {name : String}

theorem link_of_linked (h : s.loader.Has c .linked) : link files c s = .ok () s := by
  have hrun : linkWithin files (s.loader.maxLinkDepth + 1) c { s with linked := [] } =
      .ok () { s with linked := [] } := by
    rw [linkWithin_succ_apply h, if_neg (by simp)]
  rw [link, hrun]

theorem load_of_linked (h : s.loader.Has c .linked) (hname : internalName name = c.name) :
    load files name s = .ok (some c) s := by
  rw [load, EStateM.bind_apply, find_of_cached (h.entry?_eq hname)]
  change (link files c >>= fun _ ↦ pure (some c)) s = _
  rw [EStateM.bind_apply, link_of_linked h]
  rfl

end Loader

namespace LoaderState

variable {s t u : LoaderState} {c : Class}

/-- What a loader has linked it keeps, and what it has that is not new it had before. -/
structure Lasts (s t : LoaderState) : Prop where
  size_le : s.heap.links.size ≤ t.heap.links.size
  cached_or_new : ∀ {c stage}, t.loader.Has c stage →
    (∃ stage', s.loader.Has c stage') ∨ s.heap.links.size ≤ c.id
  linked_kept : ∀ {c}, s.loader.Has c .linked → t.loader.Has c .linked
  superclass_eq : ∀ {c}, s.loader.Has c .linked →
    (t.heap.linksOf c).superclass = (s.heap.linksOf c).superclass
  interfaces_eq : ∀ {c}, s.loader.Has c .linked →
    (t.heap.linksOf c).interfaces = (s.heap.linksOf c).interfaces

theorem Lasts.refl (s : LoaderState) : s.Lasts s where
  size_le := Nat.le_refl _
  cached_or_new := fun hc ↦ .inl ⟨_, hc⟩
  linked_kept := fun hc ↦ hc
  superclass_eq := fun _ ↦ rfl
  interfaces_eq := fun _ ↦ rfl

theorem Lasts.trans (h : s.Lasts t) (h' : t.Lasts u) : s.Lasts u where
  size_le := Nat.le_trans h.size_le h'.size_le
  cached_or_new := fun hc ↦ by
    rcases h'.cached_or_new hc with ⟨_, hc⟩ | hnew
    · exact h.cached_or_new hc
    · exact .inr (Nat.le_trans h.size_le hnew)
  linked_kept := fun hc ↦ h'.linked_kept (h.linked_kept hc)
  superclass_eq := fun hc ↦ (h'.superclass_eq (h.linked_kept hc)).trans (h.superclass_eq hc)
  interfaces_eq := fun hc ↦ (h'.interfaces_eq (h.linked_kept hc)).trans (h.interfaces_eq hc)

/-- What is linked cannot be linked again. -/
theorem Coherent.not_mayLink (h : s.Coherent) (hc : s.loader.Has c .linked) {d : Class}
    (hid : d.id = c.id) : ¬ s.MayLink d := by
  rintro (⟨stage, hstage, hd⟩ | hnew)
  · obtain rfl := h.identity hd hc hid
    exact hstage (hd.stage_eq hc)
  · have := h.made hc
    omega

theorem Evolves.lasts (h : s.Evolves t) (hs : s.Coherent) : s.Lasts t := by
  have hlinks {c : Class} (hc : s.loader.Has c .linked) :
      t.heap.linksOf c = s.heap.linksOf c := by
    rcases h.supertypes c with heq | ⟨d, hid, hmay, _⟩
    · exact heq
    · exact absurd hmay (hs.not_mayLink hc hid)
  exact {
    size_le := h.size_le
    cached_or_new := h.cached_or_new
    linked_kept := h.linked_kept
    superclass_eq := fun hc ↦ congrArg Links.superclass (hlinks hc)
    interfaces_eq := fun hc ↦ congrArg Links.interfaces (hlinks hc) }

end LoaderState

/-! ## Sessions -/

namespace Session

open Loader

variable {s t u : Session} {l m : Loader} {c : Class} {number : Nat}

/-- What each of the loaders had lasts in the session that `s` became. -/
structure Continues (s t : Session) : Prop where
  length_eq : t.loaders.length = s.loaders.length
  lasts : ∀ {i : Nat} {l m}, s.loaders[i]? = some l → t.loaders[i]? = some m →
    LoaderState.Lasts ⟨l, s.heap⟩ ⟨m, t.heap⟩

theorem continues_of_eq (hloaders : t.loaders = s.loaders) (hheap : t.heap = s.heap) :
    s.Continues t where
  length_eq := by rw [hloaders]
  lasts := fun {i l m} hl hm ↦ by
    rw [hloaders, hl] at hm
    rw [hheap, Option.some.inj hm]
    exact .refl _

theorem Continues.refl (s : Session) : s.Continues s := continues_of_eq rfl rfl

theorem Continues.exists_getElem? (h : s.Continues t) {i : Nat} (hm : t.loaders[i]? = some m) :
    ∃ l, s.loaders[i]? = some l := by
  have hlt := (List.getElem?_eq_some_iff.mp hm).1
  exact ⟨_, List.getElem?_eq_getElem (h.length_eq ▸ hlt)⟩

theorem Continues.trans (h : s.Continues t) (h' : t.Continues u) : s.Continues u where
  length_eq := h'.length_eq.trans h.length_eq
  lasts := fun hl hn ↦ by
    obtain ⟨m, hm⟩ := h'.exists_getElem? hn
    exact (h.lasts hl hm).trans (h'.lasts hm hn)

/-- **A call on one of the loaders lets everything last**, for this loader since it evolves, and for
the others since it cannot get at their objects. -/
theorem continues_resume (h : s.Sound) (hl : s.loaders[number]? = some l) {t : LoaderState}
    (hev : LoaderState.Evolves ⟨l, s.heap⟩ t) : s.Continues (s.resume number t) where
  length_eq := List.length_set
  lasts := fun {i m m'} hm hm' ↦ by
    rw [getElem?_loaders_resume hl] at hm'
    split at hm'
    · next hi =>
      cases hm'
      obtain rfl := Option.some.inj (hl.symm.trans (hi ▸ hm))
      exact hev.lasts (h.atRest (List.mem_of_getElem? hl)).toCoherent
    · next hi =>
      obtain rfl := Option.some.inj (hm.symm.trans hm')
      have hlinks {c : Class} (hc : m.Has c .linked) := h.linksOf_eq hl hev hm hi hc
      exact {
        size_le := hev.size_le
        cached_or_new := fun hc ↦ .inl ⟨_, hc⟩
        linked_kept := fun hc ↦ hc
        superclass_eq := fun hc ↦ congrArg Links.superclass (hlinks hc)
        interfaces_eq := fun hc ↦ congrArg Links.interfaces (hlinks hc) }

theorem continues_setConstant (s : Session) (c : Class) (index : UInt16) (target : Class) :
    s.Continues { s with heap := s.heap.setConstant c index target } where
  length_eq := rfl
  lasts := fun hl hm ↦ by
    obtain rfl := Option.some.inj (hl.symm.trans hm)
    exact {
      size_le := Nat.le_of_eq (Heap.size_modify _ _ _).symm
      cached_or_new := fun hc ↦ .inl ⟨_, hc⟩
      linked_kept := fun hc ↦ hc
      superclass_eq := fun _ ↦ Heap.superclass_setConstant
      interfaces_eq := fun _ ↦ Heap.interfaces_setConstant }

/-! ## Operations -/

variable {op : SessionOp} {ops : List SessionOp}

/-- **Everything lasts through an operation.** -/
theorem Becomes.continues (h : s.Becomes op t) (hs : s.Sound) : s.Continues t := by
  induction h with
  | same => exact .refl s
  | write path contents => exact continues_of_eq rfl rfl
  | remove path => exact continues_of_eq rfl rfl
  | call hl hcall => exact continues_resume hs hl (hcall.evolves hs hl)
  | record _ _ _ hl hload =>
    exact (continues_resume hs hl (hs.evolves_of_load hl hload)).trans
      (continues_setConstant _ _ _ _)
  | hold _ _ ih => exact ih.trans (continues_of_eq rfl rfl)

/-- **Everything lasts through a run.** -/
theorem continues_run (h : s.Sound) (hops : ∀ op ∈ ops, op.WorksOn s.loaders.length) :
    s.Continues (run ops s) :=
  h.of_run s.Continues hops
    (fun _ _ _ _ ht _ hbecomes hcontinues ↦ hcontinues.trans (hbecomes.continues ht)) (.refl s)

/-! ## What follows for classes -/

theorem resume_self (hl : s.loaders[number]? = some l) : s.resume number ⟨l, s.heap⟩ = s := by
  obtain ⟨hlt, rfl⟩ := List.getElem?_eq_some_iff.mp hl
  rw [resume, List.set_getElem_self hlt]

/-- Whatever is done in the session from now on, the loader does not have the object, and linking it
there fails and changes nothing. -/
def Bars (s : Session) (number : Nat) (c : Class) : Prop :=
  ∀ ops, (∀ op ∈ ops, op.WorksOn s.loaders.length) →
    ∀ n, (run ops s).loaders[number]? = some n →
      (∀ (key : String) (d : Class) (stage : Stage),
        n.cache[key]? = some (.holds d stage) → d.same c = false) ∧
      link number c (run ops s) = .error (.notLoaded c.name) (run ops s)

/-- A loader that does not have an object which has been made will never have it. -/
theorem bars_of_made (hs : s.Sound) (hmade : c.id < s.heap.links.size)
    (habsent : ∀ l, s.loaders[number]? = some l → ∀ d stage, l.Has d stage → d.id ≠ c.id) :
    s.Bars number c := by
  intro ops hops n hn
  have hcontinues := continues_run hs hops
  obtain ⟨l, hl⟩ := hcontinues.exists_getElem? hn
  have hwf := ((hs.run hops).atRest (List.mem_of_getElem? hn)).wellFormed
  have hgone (key : String) (d : Class) (stage : Stage)
      (hd : n.cache[key]? = some (.holds d stage)) : d.same c = false := by
    refine beq_eq_false_iff_ne.mpr fun hid ↦ ?_
    rcases (hcontinues.lasts hl hn).cached_or_new (hwf.has_of_getElem? hd).1 with ⟨_, hd⟩ | hnew
    · exact habsent l hl d _ hd hid
    · dsimp only at hnew
      omega
  refine ⟨hgone, (runLoader_eq_error_iff hn).mpr ⟨_, link_of_absent (hgone c.name), ?_⟩⟩
  rw [resume_self hn]

/-- An object that was cached and no longer is has been evicted, and no other loader has got it. -/
theorem Continues.not_has_of_evicted (h : s.Continues t) (hs : s.Sound)
    (hl : s.loaders[number]? = some l) (hm : t.loaders[number]? = some m) {stage : Stage}
    (hc : l.Has c stage) (hevicted : ∀ stage', ¬ m.Has c stage') {i : Nat} {n : Loader}
    (hn : t.loaders[i]? = some n) {d : Class} {stage' : Stage} (hd : n.Has d stage') :
    d.id ≠ c.id := by
  intro hid
  have hrefers := refers_of_has (List.mem_of_getElem? hl) hc
  obtain ⟨k, hk⟩ := h.exists_getElem? hn
  rcases (h.lasts hk hn).cached_or_new hd with ⟨_, hd'⟩ | hnew
  · obtain rfl := hs.identity (refers_of_has (List.mem_of_getElem? hk) hd') hrefers hid
    obtain rfl := hs.apart hk hl hd' hc
    obtain rfl := Option.some.inj (hn.symm.trans hm)
    exact hevicted _ hd
  · have := hs.made hrefers
    dsimp only at hnew
    omega

/-- What lasts of a loader `l` of the session `s`, when the loader has become `m` in the session
`t`. -/
structure Permanent (s : Session) (number : Nat) (l : Loader) (t : Session) (m : Loader) :
    Prop where
  linked : ∀ (key : String) (c : Class), l.cache[key]? = some (.holds c .linked) →
    m.cache[key]? = some (.holds c .linked) ∧
      t.superclass? c = s.superclass? c ∧ t.interfaces c = s.interfaces c ∧
        ∀ name, internalName name = key →
          find number name t = .ok (some c) t ∧ load number name t = .ok (some c) t
  evicted : ∀ (key : String) (c : Class) (stage : Stage), l.cache[key]? = some (.holds c stage) →
    (∀ stage', m.cache[key]? ≠ some (.holds c stage')) → ∀ i, t.Bars i c
  /-- This is about objects, too, that were made and evicted in one and the same call. -/
  absent : ∀ c : Class, c.id < t.heap.links.size →
    (∀ (key : String) (d : Class) (stage : Stage),
      m.cache[key]? = some (.holds d stage) → d.same c = false) → t.Bars number c

/-- **Linked classes stay linked, and evicted classes stay evicted.** Whatever is done in a session
that can be reached, and whether it succeeds or fails. -/
theorem linked_is_permanent (hs : s.Reachable) (hops : ∀ op ∈ ops, op.WorksOn s.loaders.length)
    (hl : s.loaders[number]? = some l) (hm : (run ops s).loaders[number]? = some m) :
    Permanent s number l (run ops s) m := by
  have hsound := hs.sound
  have hsound' := hsound.run hops
  have hcontinues := continues_run hsound hops
  generalize run ops s = t at *
  have hmem := List.mem_of_getElem? hl
  have hmem' := List.mem_of_getElem? hm
  have hlasts := hcontinues.lasts hl hm
  constructor
  case linked =>
    intro key c hc
    obtain ⟨hc, rfl⟩ := (hsound.atRest hmem).wellFormed.has_of_getElem? hc
    have hc' : m.Has c .linked := hlasts.linked_kept hc
    refine ⟨hc', ?_, ?_, fun name hname ↦ ⟨?_, ?_⟩⟩
    · rw [hsound'.superclass?_of_linked hmem' hc', hsound.superclass?_of_linked hmem hc]
      exact hlasts.superclass_eq hc
    · rw [hsound'.interfaces_of_linked hmem' hc', hsound.interfaces_of_linked hmem hc]
      exact hlasts.interfaces_eq hc
    · refine (runLoader_eq_ok_iff hm).mpr ⟨_, find_of_cached (hc'.entry?_eq hname), ?_⟩
      rw [resume_self hm]
    · refine (runLoader_eq_ok_iff hm).mpr ⟨_, load_of_linked hc' hname, ?_⟩
      rw [resume_self hm]
  case evicted =>
    intro key c stage hc hevicted i
    obtain ⟨hc, rfl⟩ := (hsound.atRest hmem).wellFormed.has_of_getElem? hc
    have hmade := Nat.lt_of_lt_of_le (hsound.made (refers_of_has hmem hc)) hlasts.size_le
    exact bars_of_made hsound' hmade fun n hn _ _ hd ↦
      hcontinues.not_has_of_evicted hsound hl hm hc hevicted hn hd
  case absent =>
    intro c hmade habsent
    refine bars_of_made hsound' hmade fun n hn d stage hd ↦ ?_
    obtain rfl := Option.some.inj (hn.symm.trans hm)
    exact beq_eq_false_iff_ne.mp (habsent d.name d stage hd)

/-- A class `A` that has been loaded with its superclass, and a class `C` that has been found and
whose superclass is missing. -/
def halfLoaded : Session :=
  run [.writeFile ⟨false, ["C.class"]⟩ (letterClass 67 68), .load 0 "A" none, .find 0 "C" none]
    cycle

theorem reachable_halfLoaded : halfLoaded.Reachable :=
  ⟨cycle, _, fresh_cycle, by simp [cycle, SessionOp.WorksOn], rfl⟩

/-- When the class `C` has been evicted, the class `A` is still there. -/
theorem linked_is_permanent_halfLoaded : ∃ l m c d, halfLoaded.loaders[0]? = some l ∧
    (run [.load 0 "C" none] halfLoaded).loaders[0]? = some m ∧
    l.cache["A"]? = some (.holds c .linked) ∧ l.cache["C"]? = some (.holds d .defined) ∧
    m.cache["C"]? = none ∧
    Permanent halfLoaded 0 l (run [.load 0 "C" none] halfLoaded) m := by
  have hrun : ∃ l ∈ halfLoaded.loaders[0]?,
      ∃ m ∈ (run [.load 0 "C" none] halfLoaded).loaders[0]?,
        (∃ entry ∈ l.cache["A"]?, entry.class?.isSome ∧ entry.stage? = some .linked) ∧
        (∃ entry ∈ l.cache["C"]?, entry.class?.isSome ∧ entry.stage? = some .defined) ∧
        m.cache["C"]?.isNone := by
    decide +kernel
  obtain ⟨l, hl, m, hm, ⟨entry, hA, hsome, hstage⟩, ⟨entry', hC, hsome', hstage'⟩, hnone⟩ := hrun
  obtain ⟨c, hc⟩ := Option.isSome_iff_exists.mp hsome
  obtain ⟨d, hd⟩ := Option.isSome_iff_exists.mp hsome'
  obtain rfl := Entry.eq_holds hc hstage
  obtain rfl := Entry.eq_holds hd hstage'
  have hlength : halfLoaded.loaders.length = 1 := by decide +kernel
  exact ⟨l, m, c, d, hl, hm, hA, hC, Option.isNone_iff_eq_none.mp hnone,
    linked_is_permanent reachable_halfLoaded (by simp [hlength, SessionOp.WorksOn]) hl hm⟩

end Session

end JavaClass
