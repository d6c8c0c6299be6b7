import JavaClass.Proofs.Loader.Evolution
import JavaClass.Session

/-!
# Objects of a session

Several loaders share one heap, and classes go from one to the other under handles. What keeps them
apart is that an object is made by one loader and is never cached by another, while a call touches
only objects of its own loader. So each loader stays at rest while the others work.

`Refers` collects the objects that a session can still come across. Among these an identity
determines the object, and all of them have been made. An object that no loader has linked points
at no supertypes, whether it is cached, held or only pointed at.

## Main statements

* `Session.Sound.resume`: a call on one of the loaders keeps a session sound.
* `Session.Sound.setConstant`: so does recording what a constant led to.
-/

namespace JavaClass

/-! ## Recorded constants -/

namespace Heap

variable {heap : Heap} {c d target : Class} {index : UInt16}

theorem linksOf_setConstant (heap : Heap) (c : Class) (index : UInt16) (target d : Class) :
    (heap.setConstant c index target).linksOf d = heap.linksOf d ∨
      c.id = d.id ∧ (heap.setConstant c index target).linksOf d = { heap.linksOf d with
        constants := (heap.linksOf d).constants.insert index target } := by
  by_cases hid : c.id = d.id
  · by_cases hmade : c.id < heap.links.size
    · exact .inr ⟨hid, linksOf_modify_of_eq hid hmade⟩
    · refine .inl ?_
      rw [setConstant, modify, linksOf, linksOf, Array.getElem?_modify, if_pos hid, ← hid,
        Array.getElem?_eq_none (Nat.le_of_not_lt hmade)]
      rfl
  · exact .inl (linksOf_modify_of_ne hid)

theorem superclass_setConstant :
    ((heap.setConstant c index target).linksOf d).superclass = (heap.linksOf d).superclass := by
  rcases heap.linksOf_setConstant c index target d with h | ⟨_, h⟩ <;> rw [h]

theorem interfaces_setConstant :
    ((heap.setConstant c index target).linksOf d).interfaces = (heap.linksOf d).interfaces := by
  rcases heap.linksOf_setConstant c index target d with h | ⟨_, h⟩ <;> rw [h]

theorem constants_setConstant {index' : UInt16} {p : Class}
    (h : ((heap.setConstant c index target).linksOf d).constants[index']? = some p) :
    (c.id = d.id ∧ index = index' ∧ p = target) ∨ (heap.linksOf d).constants[index']? = some p := by
  rcases heap.linksOf_setConstant c index target d with hlinks | ⟨hid, hlinks⟩ <;>
    rw [hlinks] at h
  · exact .inr h
  · rw [Std.ExtTreeMap.getElem?_insert] at h
    split at h
    · next heq => exact .inl ⟨hid, Std.compare_eq_iff_eq.mp heq, (Option.some.inj h).symm⟩
    · exact .inr h

theorem targets_setConstant {p : Class}
    (h : ((heap.setConstant c index target).linksOf d).Targets p) :
    p = target ∨ (heap.linksOf d).Targets p := by
  rcases h with hp | hp | ⟨index', hp⟩
  · exact .inr (.inl (superclass_setConstant.symm.trans hp))
  · exact .inr (.inr (.inl (interfaces_setConstant ▸ hp)))
  · rcases constants_setConstant hp with ⟨_, _, htarget⟩ | hp
    · exact .inl htarget
    · exact .inr (.inr (.inr ⟨index', hp⟩))

end Heap

namespace Session

open Loader

/-! ## Sessions in order -/

/-- The object is one that the session can come across: it is cached, held, or pointed at. -/
def Refers (s : Session) (c : Class) : Prop :=
  (∃ l ∈ s.loaders, ∃ stage, l.Has c stage) ∨ (∃ handle : String, s.held[handle]? = some c) ∨
    ∃ d, (s.heap.linksOf d).Targets c

/-- No loader has linked the object. -/
def Unlinked (s : Session) (d : Class) : Prop :=
  ∀ l ∈ s.loaders, ∀ c, l.Has c .linked → c.id ≠ d.id

/-- The loaders of a session are at rest and keep apart. -/
structure Sound (s : Session) : Prop where
  made : ∀ {c}, s.Refers c → c.id < s.heap.links.size
  identity : ∀ {c d}, s.Refers c → s.Refers d → c.id = d.id → c = d
  apart : ∀ {i j : Nat} {l m c stage stage'}, s.loaders[i]? = some l → s.loaders[j]? = some m →
    l.Has c stage → m.Has c stage' → i = j
  atRest : ∀ {l}, l ∈ s.loaders → LoaderState.AtRest ⟨l, s.heap⟩
  bare : ∀ {d}, s.Unlinked d →
    (s.heap.linksOf d).superclass = none ∧ (s.heap.linksOf d).interfaces = []

variable {s : Session} {c : Class} {stage : Stage} {l : Loader}

theorem refers_of_has (hl : l ∈ s.loaders) (hc : l.Has c stage) : s.Refers c :=
  .inl ⟨l, hl, stage, hc⟩

theorem refers_of_held {handle : String} (h : s.held[handle]? = some c) : s.Refers c :=
  .inr (.inl ⟨handle, h⟩)

theorem refers_of_targets {d : Class} (h : (s.heap.linksOf d).Targets c) : s.Refers c :=
  .inr (.inr ⟨d, h⟩)

/-! ## Calls on a loader -/

/-- The session after one of its loaders has done something. -/
def resume (s : Session) (number : Nat) (t : LoaderState) : Session :=
  { s with loaders := s.loaders.set number t.loader, heap := t.heap }

theorem runLoader_apply {α : Type} {number : Nat} (hl : s.loaders[number]? = some l)
    (act : LoaderM α) :
    runLoader number act s =
      match act ⟨l, s.heap⟩ with
      | .ok a t => .ok a (s.resume number t)
      | .error e t => .error e (s.resume number t) := by
  rw [runLoader, List.getD_eq_getElem?_getD, hl]
  rfl

theorem runLoader_eq_ok_iff {α : Type} {number : Nat} (hl : s.loaders[number]? = some l)
    {act : LoaderM α} {a : α} {s' : Session} :
    runLoader number act s = .ok a s' ↔
      ∃ t, act ⟨l, s.heap⟩ = .ok a t ∧ s' = s.resume number t := by
  rw [runLoader_apply hl]
  cases act ⟨l, s.heap⟩ <;> simp [eq_comm]

theorem runLoader_eq_error_iff {α : Type} {number : Nat} (hl : s.loaders[number]? = some l)
    {act : LoaderM α} {e : LoadError} {s' : Session} :
    runLoader number act s = .error e s' ↔
      ∃ t, act ⟨l, s.heap⟩ = .error e t ∧ s' = s.resume number t := by
  rw [runLoader_apply hl]
  cases act ⟨l, s.heap⟩ <;> simp [eq_comm]

theorem state_runLoader {α : Type} {number : Nat} (hl : s.loaders[number]? = some l)
    (act : LoaderM α) :
    (runLoader number act s).state = s.resume number (act ⟨l, s.heap⟩).state := by
  rw [runLoader_apply hl]
  cases act ⟨l, s.heap⟩ <;> rfl

theorem getElem?_loaders_resume {number : Nat} (hl : s.loaders[number]? = some l)
    (t : LoaderState) (i : Nat) :
    (s.resume number t).loaders[i]? = if i = number then some t.loader else s.loaders[i]? := by
  by_cases hi : i = number
  · subst hi
    rw [if_pos rfl, resume, List.getElem?_set_self (List.getElem?_eq_some_iff.mp hl).1]
  · rw [if_neg hi, resume, List.getElem?_set_ne (Ne.symm hi)]

theorem getElem?_loaders_resume_self {number : Nat} (hl : s.loaders[number]? = some l)
    (t : LoaderState) : (s.resume number t).loaders[number]? = some t.loader := by
  rw [getElem?_loaders_resume hl, if_pos rfl]

theorem cases_of_mem_loaders_resume {number : Nat} (hl : s.loaders[number]? = some l)
    {t : LoaderState} {m : Loader} (hm : m ∈ (s.resume number t).loaders) :
    m = t.loader ∨ ∃ i : Nat, i ≠ number ∧ s.loaders[i]? = some m := by
  obtain ⟨i, hi⟩ := List.mem_iff_getElem?.mp hm
  rw [getElem?_loaders_resume hl] at hi
  split at hi
  · exact .inl (Option.some.inj hi).symm
  · next hne => exact .inr ⟨i, hne, hi⟩

namespace Sound

variable {number : Nat} {t : LoaderState}

/-- A call cannot link an object that another loader has cached. -/
theorem not_mayLink (h : s.Sound) (hl : s.loaders[number]? = some l) {i : Nat} {m : Loader}
    (hm : s.loaders[i]? = some m) (hi : i ≠ number) (hc : m.Has c stage) {d : Class}
    (hid : d.id = c.id) : ¬ LoaderState.MayLink ⟨l, s.heap⟩ d := by
  have hcrefers := refers_of_has (List.mem_of_getElem? hm) hc
  rintro (⟨stage', _, hd⟩ | hnew)
  · obtain rfl := h.identity (refers_of_has (List.mem_of_getElem? hl) hd) hcrefers hid
    exact hi (h.apart hm hl hc hd)
  · have := h.made hcrefers
    dsimp only at hnew
    omega

/-- So the objects that another loader has cached point where they pointed before. -/
theorem linksOf_eq (h : s.Sound) (hl : s.loaders[number]? = some l)
    (hev : LoaderState.Evolves ⟨l, s.heap⟩ t) {i : Nat} {m : Loader} (hm : s.loaders[i]? = some m)
    (hi : i ≠ number) (hc : m.Has c stage) : t.heap.linksOf c = s.heap.linksOf c := by
  rcases hev.supertypes c with heq | ⟨d, hid, hmay, _⟩
  · exact heq
  · exact absurd hmay (h.not_mayLink hl hm hi hc hid)

/-- Nor does a call come by such an object: what a loader has after a call it had before, or no one
had it. -/
theorem not_has_other (h : s.Sound) (hl : s.loaders[number]? = some l)
    (hev : LoaderState.Evolves ⟨l, s.heap⟩ t) {i : Nat} {m : Loader} (hm : s.loaders[i]? = some m)
    (hi : i ≠ number) (hc : t.loader.Has c stage) (stage' : Stage) : ¬ m.Has c stage' := by
  intro hc'
  rcases hev.cached_or_new hc with ⟨_, hc⟩ | hnew
  · exact hi (h.apart hm hl hc' hc)
  · have := h.made (refers_of_has (List.mem_of_getElem? hm) hc')
    dsimp only at hnew
    omega

theorem unlinked_of_unlinked_resume (hl : s.loaders[number]? = some l)
    (hev : LoaderState.Evolves ⟨l, s.heap⟩ t) (hc : (s.resume number t).Unlinked c) :
    s.Unlinked c := by
  intro m hm d hd
  obtain ⟨i, hi⟩ := List.mem_iff_getElem?.mp hm
  by_cases hne : i = number
  · subst hne
    obtain rfl := Option.some.inj (hl.symm.trans hi)
    exact hc t.loader (List.mem_of_getElem? (getElem?_loaders_resume_self hl t)) d
      (hev.linked_kept hd)
  · have hi' := getElem?_loaders_resume hl t i
    rw [if_neg hne, hi] at hi'
    exact hc m (List.mem_of_getElem? hi') d hd

theorem refers_or_new (hl : s.loaders[number]? = some l)
    (hev : LoaderState.Evolves ⟨l, s.heap⟩ t) (hc : (s.resume number t).Refers c) :
    s.Refers c ∨ s.heap.links.size ≤ c.id ∧ ∃ stage, t.loader.Has c stage := by
  have hcached {stage : Stage} (hc : t.loader.Has c stage) :
      s.Refers c ∨ s.heap.links.size ≤ c.id ∧ ∃ stage, t.loader.Has c stage := by
    rcases hev.cached_or_new hc with ⟨_, hc'⟩ | hnew
    · exact .inl (refers_of_has (List.mem_of_getElem? hl) hc')
    · exact .inr ⟨hnew, _, hc⟩
  rcases hc with ⟨m, hm, stage, hc⟩ | ⟨handle, hc⟩ | ⟨d, hc⟩
  · rcases cases_of_mem_loaders_resume hl hm with rfl | ⟨i, _, hi⟩
    · exact hcached hc
    · exact .inl (refers_of_has (List.mem_of_getElem? hi) hc)
  · exact .inl (refers_of_held hc)
  · rcases hev.targets hc with hc | ⟨_, hc⟩
    · exact .inl (refers_of_targets hc)
    · exact hcached hc

/-- **A call on one of the loaders keeps a session sound.** -/
theorem resume (h : s.Sound) (hl : s.loaders[number]? = some l)
    (hev : LoaderState.Evolves ⟨l, s.heap⟩ t) : (s.resume number t).Sound := by
  constructor
  case made =>
    intro c hc
    rcases refers_or_new hl hev hc with hc | ⟨_, _, hc⟩
    · exact Nat.lt_of_lt_of_le (h.made hc) hev.size_le
    · exact hev.atRest.made hc
  case identity =>
    intro c d hc hd hid
    rcases refers_or_new hl hev hc with hc | ⟨hnew, _, hc⟩ <;>
      rcases refers_or_new hl hev hd with hd | ⟨hnew', _, hd⟩
    · exact h.identity hc hd hid
    · have := h.made hc
      omega
    · have := h.made hd
      omega
    · exact hev.atRest.identity hc hd hid
  case apart =>
    intro i j m m' c stage stage' hi hj hc hc'
    rw [getElem?_loaders_resume hl] at hi hj
    split at hi <;> split at hj
    · next hi' hj' => rw [hi', hj']
    · next hj' =>
      cases hi
      exact absurd hc' (h.not_has_other hl hev hj hj' hc _)
    · next hi' _ =>
      cases hj
      exact absurd hc (h.not_has_other hl hev hi hi' hc' _)
    · exact h.apart hi hj hc hc'
  case atRest =>
    intro m hm
    rcases cases_of_mem_loaders_resume hl hm with rfl | ⟨i, hne, hi⟩
    · exact hev.atRest
    · have hlinks {c : Class} (hc : m.Has c .linked) := h.linksOf_eq hl hev hi hne hc
      exact (h.atRest (List.mem_of_getElem? hi)).withHeap hev.size_le
        (fun c hc ↦ congrArg Links.superclass (hlinks hc))
        (fun c hc ↦ congrArg Links.interfaces (hlinks hc))
  case bare =>
    intro d hd
    rcases hev.supertypes d with heq | ⟨c, hid, _, hlinked | hnone⟩
    · change (t.heap.linksOf d).superclass = none ∧ (t.heap.linksOf d).interfaces = []
      rw [heq]
      exact h.bare (unlinked_of_unlinked_resume hl hev hd)
    · have hmem' := List.mem_of_getElem? (getElem?_loaders_resume_self hl t)
      exact absurd hid (hd t.loader hmem' c hlinked)
    · exact hnone

/-! ## Handles and constants -/

theorem withFiles (h : s.Sound) (files : FileSystem) : Sound { s with files } :=
  ⟨h.made, h.identity, h.apart, h.atRest, h.bare⟩

theorem refers_of_withHeld {held : Std.ExtTreeMap String Class}
    (hheld : ∀ (handle : String) c, held[handle]? = some c → s.Refers c)
    (hc : Refers { s with held } c) : s.Refers c := by
  rcases hc with hc | ⟨handle, hc⟩ | hc
  · exact .inl hc
  · exact hheld handle c hc
  · exact .inr (.inr hc)

theorem withHeld (h : s.Sound) {held : Std.ExtTreeMap String Class}
    (hheld : ∀ (handle : String) c, held[handle]? = some c → s.Refers c) :
    Sound { s with held } where
  made := fun hc ↦ h.made (refers_of_withHeld hheld hc)
  identity := fun hc hd ↦
    h.identity (refers_of_withHeld hheld hc) (refers_of_withHeld hheld hd)
  apart := h.apart
  atRest := h.atRest
  bare := h.bare

theorem refers_of_setConstant {target d : Class} {index : UInt16} (htarget : s.Refers target)
    (hd : Refers { s with heap := s.heap.setConstant c index target } d) : s.Refers d := by
  rcases hd with hd | hd | ⟨d', hd⟩
  · exact .inl hd
  · exact .inr (.inl hd)
  · rcases Heap.targets_setConstant hd with rfl | hd
    · exact htarget
    · exact refers_of_targets hd

theorem setConstant (h : s.Sound) {target : Class} (htarget : s.Refers target) (c : Class)
    (index : UInt16) : Sound { s with heap := s.heap.setConstant c index target } := by
  have hrefers {d : Class}
      (hd : Refers { s with heap := s.heap.setConstant c index target } d) : s.Refers d :=
    refers_of_setConstant htarget hd
  have hsize : (s.heap.setConstant c index target).links.size = s.heap.links.size :=
    Heap.size_modify _ _ _
  constructor
  case made => exact fun hd ↦ hsize ▸ h.made (hrefers hd)
  case identity => exact fun hd hd' ↦ h.identity (hrefers hd) (hrefers hd')
  case apart => exact h.apart
  case atRest =>
    exact fun hl ↦ (h.atRest hl).withHeap (Nat.le_of_eq hsize.symm)
      (fun _ _ ↦ Heap.superclass_setConstant) (fun _ _ ↦ Heap.interfaces_setConstant)
  case bare =>
    intro d hd
    obtain ⟨hsuperclass, hinterfaces⟩ := h.bare hd
    exact ⟨Heap.superclass_setConstant.trans hsuperclass,
      Heap.interfaces_setConstant.trans hinterfaces⟩

end Sound

end Session

end JavaClass
